import AsoPracticas.Lib.Bytes
import AsoPracticas.Lib.Program

/-!
# Vm — physical pages and page tables

`kalloc.c` and `vm.c`.  Physical memory is a page of bytes for each page number; page directories and page tables
are pages like all others, read and written as 1024 words of 32 bits.  A pointer to a page is its number, a pointer
to a page-table entry a page number and an index.  Addresses are numbers below `2 ^ 32`, and sums of them are taken
modulo `2 ^ 32` where the source adds `uint`s.

* `kalloc`, `kfree` — the allocator; a call of `kalloc` may find nothing at any time, since other processes
  allocate too;
* `walkpgdir`, `mappages`, `setupkvm`, `allocuvm`, `deallocuvm`, `freevm`, `clearpteu`, `copyuvm`, `uva2ka`,
  `copyout` — the functions of `vm.c`, under their names.

What `cprintf` writes and the translation caches of the processor are left out.
-/

namespace AsoPracticas.Xv6.Vm

open Lib

/-! ## Constants -/

def PGSIZE : Nat := 4096
def NPDENTRIES : Nat := 1024
def EXTMEM : Nat := 0x100000
def PHYSTOP : Nat := 0xE000000
def DEVSPACE : Nat := 0xFE000000
def KERNBASE : Nat := 0x80000000
def KERNLINK : Nat := KERNBASE + EXTMEM

def PTE_P : Nat := 1
def PTE_W : Nat := 2
def PTE_U : Nat := 4

def PGROUNDUP (sz : Nat) : Nat := (sz + PGSIZE - 1) % 2 ^ 32 / PGSIZE * PGSIZE
def PGROUNDDOWN (a : Nat) : Nat := a / PGSIZE * PGSIZE
def PDX (va : Nat) : Nat := va / 2 ^ 22 % 1024
def PTX (va : Nat) : Nat := va / 2 ^ 12 % 1024

def PGADDR (d : Nat) : Nat := d * 2 ^ 22 % 2 ^ 32

/-- `pte & PTE_P` -/
def present (pte : Nat) : Bool := pte.testBit 0

/-- `pte & PTE_U` -/
def user (pte : Nat) : Bool := pte.testBit 2

/-- The page that `PTE_ADDR(pte)` is the address of. -/
def pageOf (pte : Nat) : Nat := pte / PGSIZE

def PTE_FLAGS (pte : Nat) : Nat := pte % PGSIZE

/-- Where the linker has put the kernel: the pages of the symbols `data` and `end`, the latter rounded up. -/
structure Layout where
  data : Nat
  endPage : Nat
  text_lt : EXTMEM / PGSIZE < data
  data_lt : data < endPage
  end_le : endPage ≤ PHYSTOP / PGSIZE

/-! ## Memory -/

abbrev Page := Fin PGSIZE → UInt8

structure Machine where
  mem : Nat → Page
  freelist : List Nat
  /-- Whether the next calls of `kalloc`, in their order, find the list empty whatever it holds now. -/
  fails : Nat → Bool

/-- Why the kernel stops: the panics, a null pointer that is read, a store outside `ustack`, and a loop that never
ends. -/
inductive Stop where
  | kfree
  | remap
  | phystopTooHigh
  | loaduvmAligned
  | loaduvmExist
  | clearpteu
  | copyuvmExist
  | copyuvmPresent
  | nullPte
  | ustack
  | forever
  deriving DecidableEq, Repr

abbrev K := StateT Machine (Except Stop)

/-- Word `i` of a page. -/
def entry (p : Page) (i : Nat) : Nat := (getU32 p (4 * i)).toNat

def getEntry (p i : Nat) : K Nat := do
  return entry ((← get).mem p) i

def setEntry (p i w : Nat) : K PUnit :=
  modify fun s => { s with mem := Function.update s.mem p (setU32 (s.mem p) (4 * i) (UInt32.ofNat w)) }

def memset (p : Nat) (c : UInt8) : K PUnit :=
  modify fun s => { s with mem := Function.update s.mem p fun _ => c }

def memmove (p off : Nat) (buf : List UInt8) : K PUnit :=
  modify fun s => { s with mem := Function.update s.mem p (patch (s.mem p) off buf.length fun j => buf.getD j 0) }

/-- `memmove(p, q, PGSIZE)` -/
def copyPage (p q : Nat) : K PUnit :=
  modify fun s => { s with mem := Function.update s.mem p (s.mem q) }

/-! ## The allocator -/

def kalloc : K (Option Nat) := do
  let s ← get
  set { s with fails := fun n => s.fails (n + 1) }
  if s.fails 0 then return none
  else
    match s.freelist with
    | [] => return none
    | r :: next =>
      modify fun s => { s with freelist := next }
      return some r

variable (L : Layout)

def kfree (v : Nat) : K PUnit := do
  if v < L.endPage ∨ PHYSTOP / PGSIZE ≤ v then throw .kfree
  else
    memset v 1
    modify fun s => { s with freelist := v :: s.freelist }

/-! ## Page tables -/

/-- The entry for `va`: its page table and its index there. -/
def walkpgdir (pgdir va : Nat) (alloc : Bool) : K (Option (Nat × Nat)) := do
  let pde ← getEntry pgdir (PDX va)
  if present pde then return some (pageOf pde, PTX va)
  else if !alloc then return none
  else
    match ← kalloc with
    | none => return none
    | some pgtab =>
      memset pgtab 0
      setEntry pgdir (PDX va) (pgtab * PGSIZE ||| PTE_P ||| PTE_W ||| PTE_U)
      return some (pgtab, PTX va)

/-- The loop of `mappages`, with at most `fuel` iterations. -/
def mappagesLoop (pgdir last perm : Nat) : (fuel a pa : Nat) → K Int
  | 0, _, _ => throw .forever
  | fuel + 1, a, pa => do
      match ← walkpgdir pgdir a true with
      | none => return -1
      | some (pgtab, i) =>
        if present (← getEntry pgtab i) then throw .remap
        else
          setEntry pgtab i (pa ||| perm ||| PTE_P)
          if a = last then return 0
          else mappagesLoop pgdir last perm fuel ((a + PGSIZE) % 2 ^ 32) ((pa + PGSIZE) % 2 ^ 32)

/-- The number of pages of the address space: no loop below visits more. -/
def allPages : Nat := 2 ^ 20 + 1

def mappages (pgdir va size pa perm : Nat) : K Int :=
  mappagesLoop pgdir (PGROUNDDOWN ((va + size + (2 ^ 32 - 1)) % 2 ^ 32)) perm allPages (PGROUNDDOWN va) pa

/-- The loop of `deallocuvm`. -/
def deallocLoop (pgdir oldsz : Nat) : (fuel a : Nat) → K PUnit
  | 0, _ => throw .forever
  | fuel + 1, a => do
      if a < oldsz then
        match ← walkpgdir pgdir a false with
        | none => deallocLoop pgdir oldsz fuel ((PGADDR (PDX a + 1) + (2 ^ 32 - PGSIZE) + PGSIZE) % 2 ^ 32)
        | some (pgtab, i) =>
          let pte ← getEntry pgtab i
          if present pte then
            if pageOf pte = 0 then throw .kfree
            else
              kfree L (pageOf pte)
              setEntry pgtab i 0
              deallocLoop pgdir oldsz fuel ((a + PGSIZE) % 2 ^ 32)
          else deallocLoop pgdir oldsz fuel ((a + PGSIZE) % 2 ^ 32)
      else return ⟨⟩

def deallocuvm (pgdir oldsz newsz : Nat) : K Nat := do
  if newsz ≥ oldsz then return oldsz
  else
    deallocLoop L pgdir oldsz allPages (PGROUNDUP newsz)
    return newsz

/-- The loop of `allocuvm`. -/
def allocLoop (pgdir oldsz newsz : Nat) : (fuel a : Nat) → K Nat
  | 0, _ => throw .forever
  | fuel + 1, a => do
      if a < newsz then
        match ← kalloc with
        | none =>
          let _ ← deallocuvm L pgdir newsz oldsz
          return 0
        | some mem =>
          memset mem 0
          if (← mappages pgdir a PGSIZE (mem * PGSIZE) (PTE_W ||| PTE_U)) < 0 then
            let _ ← deallocuvm L pgdir newsz oldsz
            kfree L mem
            return 0
          else allocLoop pgdir oldsz newsz fuel ((a + PGSIZE) % 2 ^ 32)
      else return newsz

def allocuvm (pgdir oldsz newsz : Nat) : K Nat := do
  if newsz ≥ KERNBASE then return 0
  else if newsz < oldsz then return oldsz
  else allocLoop L pgdir oldsz newsz allPages (PGROUNDUP oldsz)

/-- The body of the loop of `freevm` over the directory. -/
def freeTable (pgdir i : Nat) : K PUnit := do
  let pde ← getEntry pgdir i
  if present pde then kfree L (pageOf pde) else return ⟨⟩

def freevm (pgdir : Nat) : K PUnit := do
  let _ ← deallocuvm L pgdir KERNBASE 0
  (List.range NPDENTRIES).forM (freeTable L pgdir)
  kfree L pgdir

/-- A row of `kmap`: `virt`, `phys_start`, `phys_end` and `perm`. -/
structure Kmap where
  virt : Nat
  phys_start : Nat
  phys_end : Nat
  perm : Nat

def kmap : List Kmap :=
  [{ virt := KERNBASE, phys_start := 0, phys_end := EXTMEM, perm := PTE_W },
    { virt := KERNLINK, phys_start := EXTMEM, phys_end := L.data * PGSIZE, perm := 0 },
    { virt := KERNBASE + L.data * PGSIZE, phys_start := L.data * PGSIZE, phys_end := PHYSTOP, perm := PTE_W },
    { virt := DEVSPACE, phys_start := DEVSPACE, phys_end := 0, perm := PTE_W }]

/-- The loop of `setupkvm`. -/
def mapKernel (pgdir : Nat) : List Kmap → K (Option Nat)
  | [] => return some pgdir
  | k :: rest => do
      if (← mappages pgdir k.virt ((k.phys_end + (2 ^ 32 - k.phys_start)) % 2 ^ 32) k.phys_start k.perm) < 0 then
        freevm L pgdir
        return none
      else mapKernel pgdir rest

def setupkvm : K (Option Nat) := do
  match ← kalloc with
  | none => return none
  | some pgdir =>
    memset pgdir 0
    if KERNBASE + PHYSTOP > DEVSPACE then throw .phystopTooHigh
    else mapKernel L pgdir (kmap L)

def clearpteu (pgdir uva : Nat) : K PUnit := do
  match ← walkpgdir pgdir uva false with
  | none => throw .clearpteu
  | some (pgtab, i) =>
    let pte ← getEntry pgtab i
    setEntry pgtab i (pte &&& (2 ^ 32 - 1 - PTE_U))

/-! ## Copies -/

/-- The loop of `copyuvm`; `false` is the jump to `bad`. -/
def copyLoop (pgdir d sz : Nat) : (fuel i : Nat) → K Bool
  | 0, _ => throw .forever
  | fuel + 1, i => do
      if i < sz then
        match ← walkpgdir pgdir i false with
        | none => throw .copyuvmExist
        | some (pgtab, j) =>
          let pte ← getEntry pgtab j
          if !present pte then throw .copyuvmPresent
          else
            match ← kalloc with
            | none => return false
            | some mem =>
              copyPage mem (pageOf pte)
              if (← mappages d i PGSIZE (mem * PGSIZE) (PTE_FLAGS pte)) < 0 then
                kfree L mem
                return false
              else copyLoop pgdir d sz fuel ((i + PGSIZE) % 2 ^ 32)
      else return true

def copyuvm (pgdir sz : Nat) : K (Option Nat) := do
  match ← setupkvm L with
  | none => return none
  | some d =>
    if ← copyLoop L pgdir d sz allPages 0 then return some d
    else
      freevm L d
      return none

/-- The page behind a user address.  When there is no page table the entry that is read is at a null pointer. -/
def uva2ka (pgdir uva : Nat) : K (Option Nat) := do
  match ← walkpgdir pgdir uva false with
  | none => throw .nullPte
  | some (pgtab, i) =>
    let pte ← getEntry pgtab i
    if !present pte then return none
    else if !user pte then return none
    else return some (pageOf pte)

/-- The loop of `copyout`; a turn copies at least one byte. -/
def copyoutLoop (pgdir : Nat) : (fuel va : Nat) → (buf : List UInt8) → K Int
  | 0, _, _ => throw .forever
  | fuel + 1, va, buf => do
      if buf.length > 0 then
        let va0 := PGROUNDDOWN va
        match ← uva2ka pgdir va0 with
        | none => return -1
        | some pa0 =>
          let n := min (PGSIZE - (va - va0)) buf.length
          memmove pa0 (va - va0) (buf.take n)
          copyoutLoop pgdir fuel ((va0 + PGSIZE) % 2 ^ 32) (buf.drop n)
      else return 0

def copyout (pgdir va : Nat) (buf : List UInt8) : K Int :=
  copyoutLoop pgdir (buf.length + 1) va buf

/-! ## `sbrk` -/

/-- The fields of `struct proc` that `growproc` uses. -/
structure Size where
  pgdir : Nat
  sz : Nat
  deriving DecidableEq, Repr

/-- `sz + n`, a sum of a `uint` and an `int`. -/
def Size.plus (p : Size) (n : Int) : Nat := ((p.sz + n) % 2 ^ 32).toNat

def growproc (p : Size) (n : Int) : K (Int × Size) := do
  if n > 0 then
    let sz ← allocuvm L p.pgdir p.sz (p.plus n)
    if sz = 0 then return (-1, p) else return (0, { p with sz })
  else if n < 0 then
    let sz ← deallocuvm L p.pgdir p.sz (p.plus n)
    if sz = 0 then return (-1, p) else return (0, { p with sz })
  else return (0, p)

def sys_sbrk (p : Size) (arg : Option Int) : K (Int × Size) := do
  match arg with
  | none => return (-1, p)
  | some n =>
    let (r, p') ← growproc L p n
    if r < 0 then return (-1, p') else return (p.sz, p')

end AsoPracticas.Xv6.Vm
