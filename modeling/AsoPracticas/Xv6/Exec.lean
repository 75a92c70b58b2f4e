import AsoPracticas.Xv6.Vm

/-!
# Exec — loading a program

`exec.c` and `loaduvm` of `vm.c`.  The file that is executed is the list of its bytes; `readi` returns a range of
them, as the file system does.  Strings are lists of bytes without the `NUL`.

The path is looked up before: `file` is `none` if `namei` finds nothing.  The transaction around the reads and
`switchuvm` are left out.
-/

namespace AsoPracticas.Xv6.Vm

open Lib

/-! ## The file -/

/-- `readi` on a file with these bytes; `none` is the result `-1`. -/
def readi (file : List UInt8) (off n : Nat) : Option (List UInt8) :=
  if file.length < off ∨ 2 ^ 32 ≤ off + n then none else some ((file.drop off).take n)

def u16At (b : List UInt8) (i : Nat) : Nat := (le16 (b.getD i 0) (b.getD (i + 1) 0)).toNat

def u32At (b : List UInt8) (i : Nat) : Nat :=
  (le32 (b.getD i 0) (b.getD (i + 1) 0) (b.getD (i + 2) 0) (b.getD (i + 3) 0)).toNat

def ELF_MAGIC : Nat := 0x464C457F
def ELF_PROG_LOAD : Nat := 1

/-- The fields of `struct elfhdr` that `exec` reads. -/
structure Elfhdr where
  magic : Nat
  entry : Nat
  phoff : Nat
  phnum : Nat
  deriving DecidableEq, Repr

/-- `sizeof(struct elfhdr)` -/
def ELFHDRSIZE : Nat := 52

def elfhdr (b : List UInt8) : Elfhdr :=
  { magic := u32At b 0, entry := u32At b 24, phoff := u32At b 28, phnum := u16At b 44 }

/-- The fields of `struct proghdr` that `exec` reads. -/
structure Proghdr where
  type : Nat
  off : Nat
  vaddr : Nat
  filesz : Nat
  memsz : Nat
  deriving DecidableEq, Repr

/-- `sizeof(struct proghdr)` -/
def PROGHDRSIZE : Nat := 32

def proghdr (b : List UInt8) : Proghdr :=
  { type := u32At b 0, off := u32At b 4, vaddr := u32At b 8, filesz := u32At b 16, memsz := u32At b 20 }

/-! ## Loading -/

/-- The loop of `loaduvm`.  What `readi` has read is in memory also when it is less than was asked for. -/
def loaduvmLoop (pgdir addr : Nat) (file : List UInt8) (offset sz : Nat) : (fuel i : Nat) → K Int
  | 0, _ => throw .forever
  | fuel + 1, i => do
      if i < sz then
        match ← walkpgdir pgdir ((addr + i) % 2 ^ 32) false with
        | none => throw .loaduvmExist
        | some (pgtab, j) =>
          let pa := pageOf (← getEntry pgtab j)
          let n := if sz - i < PGSIZE then sz - i else PGSIZE
          match readi file ((offset + i) % 2 ^ 32) n with
          | none => return -1
          | some buf =>
            memmove pa 0 buf
            if buf.length ≠ n then return -1
            else loaduvmLoop pgdir addr file offset sz fuel ((i + PGSIZE) % 2 ^ 32)
      else return 0

def loaduvm (pgdir addr : Nat) (file : List UInt8) (offset sz : Nat) : K Int := do
  if addr % PGSIZE ≠ 0 then throw .loaduvmAligned
  else loaduvmLoop pgdir addr file offset sz allPages 0

variable (L : Layout)

/-- The loop of `exec` over `n` program headers; the size that results, or `none` for the jump to `bad`. -/
def loadSegments (pgdir : Nat) (file : List UInt8) : (n off sz : Nat) → K (Option Nat)
  | 0, _, sz => return some sz
  | n + 1, off, sz => do
      match readi file off PROGHDRSIZE with
      | none => return none
      | some b =>
        if b.length ≠ PROGHDRSIZE then return none
        else
          let ph := proghdr b
          if ph.type ≠ ELF_PROG_LOAD ∨ ph.memsz = 0 then
            loadSegments pgdir file n ((off + PROGHDRSIZE) % 2 ^ 32) sz
          else if ph.memsz < ph.filesz then return none
          else if (ph.vaddr + ph.memsz) % 2 ^ 32 < ph.vaddr then return none
          else
            let sz ← allocuvm L pgdir sz ((ph.vaddr + ph.memsz) % 2 ^ 32)
            if sz = 0 then return none
            else if ph.vaddr % PGSIZE ≠ 0 then return none
            else if (← loaduvm pgdir ph.vaddr file ph.off ph.filesz) < 0 then return none
            else loadSegments pgdir file n ((off + PROGHDRSIZE) % 2 ^ 32) sz

/-- How loading ends: at `bad`, with the directory if there is one already, or with a directory, a size and the address
to start at. -/
inductive Load where
  | bad (pgdir : Option Nat)
  | done (pgdir sz entry : Nat)
  deriving DecidableEq, Repr

/-- The two pages after the program: the first inaccessible, the second for the stack. -/
@[irreducible] def loadStack (pgdir sz entry : Nat) : K Load := do
  let sz ← allocuvm L pgdir (PGROUNDUP sz) ((PGROUNDUP sz + 2 * PGSIZE) % 2 ^ 32)
  if sz = 0 then return .bad (some pgdir)
  else
    clearpteu pgdir ((sz + (2 ^ 32 - 2 * PGSIZE)) % 2 ^ 32)
    return .done pgdir sz entry

/-- `exec` up to the stack pointer. -/
def load (file : List UInt8) : K Load := do
  match readi file 0 ELFHDRSIZE with
  | none => return .bad none
  | some b =>
    let elf := elfhdr b
    if b.length ≠ ELFHDRSIZE then return .bad none
    else if elf.magic ≠ ELF_MAGIC then return .bad none
    else
      match ← setupkvm L with
      | none => return .bad none
      | some pgdir =>
        match ← loadSegments L pgdir file elf.phnum elf.phoff 0 with
        | none => return .bad (some pgdir)
        | some sz => loadStack L pgdir sz elf.entry

/-! ## The arguments -/

def MAXARG : Nat := 32

/-- `ustack[i] = w` -/
def store (ustack : Nat → Nat) (i w : Nat) : K (Nat → Nat) := do
  if i < 3 + MAXARG + 1 then return Function.update ustack i w else throw .ustack

/-- `sp - n` for a `uint` -/
def minus (sp n : Nat) : Nat := (((sp : Int) - n) % 2 ^ 32).toNat

/-- The loop that pushes the strings; `none` is the jump to `bad`. -/
def pushLoop (pgdir : Nat) : (argv : List (List UInt8)) → (argc sp : Nat) → (ustack : Nat → Nat) →
    K (Option (Nat × Nat × (Nat → Nat)))
  | [], argc, sp, ustack => return some (argc, sp, ustack)
  | arg :: argv, argc, sp, ustack => do
      if argc ≥ MAXARG then return none
      else
        let sp := minus sp (arg.length + 1) / 4 * 4
        if (← copyout pgdir sp (arg ++ [0])) < 0 then return none
        else
          let ustack ← store ustack (3 + argc) sp
          pushLoop pgdir argv (argc + 1) sp ustack

def bytes32 (w : Nat) : List UInt8 := (List.range 4).map (byte32 (UInt32.ofNat w))

/-- The arguments of a program on its stack, which ends at `sz`.  `junk` is what `ustack` holds before; the result is
the stack pointer, or `none` for the jump to `bad`. -/
def pushArgs (pgdir sz : Nat) (argv : List (List UInt8)) (junk : Nat → Nat) : K (Option Nat) := do
  match ← pushLoop pgdir argv 0 sz junk with
  | none => return none
  | some (argc, sp, ustack) =>
    let ustack ← store ustack (3 + argc) 0
    let ustack ← store ustack 0 0xffffffff
    let ustack ← store ustack 1 argc
    let ustack ← store ustack 2 (minus sp ((argc + 1) * 4))
    let sp := minus sp ((3 + argc + 1) * 4)
    if (← copyout pgdir sp ((List.range (3 + argc + 1)).flatMap fun i => bytes32 (ustack i))) < 0 then return none
    else return some sp

/-! ## `exec` -/

/-- The fields of `struct proc` that `exec` reads and writes. -/
structure Proc extends Size where
  name : List UInt8
  eip : Nat
  esp : Nat
  deriving DecidableEq, Repr

/-- `for(last=s=path; *s; s++) if(*s == '/') last = s+1;` -/
def lastLoop : (last s : List UInt8) → List UInt8
  | last, [] => last
  | last, c :: s => lastLoop (if c = 47 then s else last) s

def safestrcpy (t : List UInt8) (n : Nat) : List UInt8 := t.take (n - 1)

/-- The label `bad`. -/
def bad (pgdir : Option Nat) (p : Proc) : K (Int × Proc) := do
  match pgdir with
  | none => return (-1, p)
  | some pgdir =>
    freevm L pgdir
    return (-1, p)

/-- `exec` after the program has been loaded, with the commit to the new address space. -/
def execArgs (p : Proc) (path : List UInt8) (argv : List (List UInt8)) (junk : Nat → Nat) (pgdir sz entry : Nat) :
    K (Int × Proc) := do
  match ← pushArgs pgdir sz argv junk with
  | none => bad L (some pgdir) p
  | some sp =>
    freevm L p.pgdir
    return (0, { pgdir, sz, name := safestrcpy (lastLoop path path) 16, eip := entry, esp := sp })

def exec (p : Proc) (file : Option (List UInt8)) (path : List UInt8) (argv : List (List UInt8)) (junk : Nat → Nat) :
    K (Int × Proc) := do
  match file with
  | none => return (-1, p)
  | some file =>
    match ← load L file with
    | .bad pgdir => bad L pgdir p
    | .done pgdir sz entry => execArgs L p path argv junk pgdir sz entry

end AsoPracticas.Xv6.Vm
