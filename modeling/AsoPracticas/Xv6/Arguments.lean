import AsoPracticas.Xv6.Exec
import AsoPracticas.Xv6.Ftable
import Mathlib.Data.UInt

/-!
# Arguments — what system calls access of the memory of a process

`syscall.c` fetches the arguments of a call from the user stack, and checks the pointers among them; `sysfile.c` and
what it calls then read and write through these pointers.  Here every access to user memory is checked, and stops the
kernel with a `Fault` if it is not inside the `sz` bytes of the process.  Words have 32 bits; an `int` is less than 0
from `2 ^ 31` on.

What the call finds elsewhere is part of the files of the process: the bytes in a pipe, the contents of an inode, the
characters that are typed.  Locks, sleeping and what is written to files are left out.

* `StringAt` — a string with its `NUL` inside the process;
* `syscall_arguments` — pointers that pass the checks are inside the process, and there is no `Fault`.
-/

namespace AsoPracticas.Xv6.Arguments

open Lib
open Vm (KERNBASE MAXARG)
open Ftable (NOFILE maxWrite)
open UInt32 (le_iff_toNat_le lt_iff_toNat_lt toNat_add toNat_inj toNat_ofNat' toNat_one)

/-! ## User memory -/

structure Inode where
  type : UInt16
  nlink : UInt16
  dev : UInt32
  inum : UInt32
  size : UInt32
  content : UInt32 → UInt8
  /-- of a device: whether it is the console, and what is typed there until the process is killed -/
  console : Bool
  typed : List UInt8

inductive FileType where
  /-- with what `piperead` finds, and the bytes that `pipewrite` puts in before it fails -/
  | pipe (bytes : List UInt8) (room : Nat)
  | inode (ip : Inode)

structure File where
  type : FileType
  readable : Bool
  writable : Bool
  off : UInt32

structure Process where
  sz : UInt32
  esp : UInt32
  ofile : Fin NOFILE → Option File

/-- An access to `len` bytes that are not all inside the process. -/
structure Fault where
  addr : UInt32
  len : Nat

abbrev User := StateT (UInt32 → UInt8) (Except Fault)

variable (p : Process)

def access (addr : UInt32) (len : Nat) : User Unit :=
  if addr.toNat + len ≤ p.sz.toNat then pure () else throw ⟨addr, len⟩

def load (addr : UInt32) : User UInt8 := do
  access p addr 1
  return (← get) addr

/-- `*(int*)(addr)` -/
def loadInt (addr : UInt32) : User UInt32 := do
  access p addr 4
  let m ← get
  return le32 (m addr) (m (addr + 1)) (m (addr + 2)) (m (addr + 3))

/-- The bytes are stored one after the other. -/
def copyTo : (addr : UInt32) → List UInt8 → User Unit
  | _, [] => return ()
  | addr, b :: l => do
    access p addr 1
    modify fun m => Function.update m addr b
    copyTo (addr + 1) l

/-- `n` bytes are read one after the other. -/
def copyFrom : (addr : UInt32) → (n : Nat) → User Unit
  | _, 0 => return ()
  | addr, n + 1 => do
    let _ ← load p addr
    copyFrom (addr + 1) n

/-- A string is read up to its `NUL`, which is at one of the next `fuel` addresses. -/
def readStr : (fuel : Nat) → (s : UInt32) → User (List UInt8)
  | 0, _ => return []
  | fuel + 1, s => do
    let c ← load p s
    if c = 0 then return []
    else return c :: (← readStr fuel (s + 1))

/-! ## The functions of `syscall.c` -/

def fetchint (addr : UInt32) : User (Option UInt32) := do
  if addr ≥ p.sz ∨ addr + 4 > p.sz then return none
  else return some (← loadInt p addr)

/-- `for(s = *pp; s < ep; s++)`, with `left` bytes up to `ep` -/
def fetchstrLoop : (left : Nat) → (s : UInt32) → (len : Nat) → User (Option Nat)
  | 0, _, _ => return none
  | left + 1, s, len => do
    if (← load p s) = 0 then return some len
    else fetchstrLoop left (s + 1) (len + 1)

/-- The length of the string. -/
def fetchstr (addr : UInt32) : User (Option Nat) := do
  if addr ≥ p.sz then return none
  else fetchstrLoop p (p.sz.toNat - addr.toNat) addr 0

def argint (n : UInt32) : User (Option UInt32) := fetchint p (p.esp + 4 + 4 * n)

def argptr (n size : UInt32) : User (Option UInt32) := do
  match ← argint p n with
  | none => return none
  | some i =>
    if size ≥ 2 ^ 31 ∨ i ≥ p.sz ∨ i + size > p.sz then return none
    else return some i

def argstr (n : UInt32) : User (Option UInt32) := do
  match ← argint p n with
  | none => return none
  | some addr => return (← fetchstr p addr).map fun _ => addr

/-! ## The functions of `file.c`, and the inodes, pipes and the console below them -/

/-- The loop of `consoleread`. -/
def consoleLoop : (typed : List UInt8) → (dst : UInt32) → (n : Nat) → User Unit
  | c :: typed, dst, n + 1 => do
    if c = 4 then return ()
    else
      copyTo p dst [c]
      if c = 10 then return () else consoleLoop typed (dst + 1) n
  | _, _, _ => return ()

/-- The loops of `readi` and `writei` over blocks: `move` is their `memmove`. -/
def blockLoop (move : (addr off : UInt32) → (m : Nat) → User Unit) (addr off : UInt32) (left : Nat) : User Unit :=
  if left = 0 then return ()
  else do
    let m := min left (BSIZE - off.toNat % BSIZE)
    move addr off m
    blockLoop move (addr + UInt32.ofNat m) (off + UInt32.ofNat m) (left - m)
termination_by left
decreasing_by
  have hoff : off.toNat % BSIZE < BSIZE := Nat.mod_lt _ (by decide)
  omega

def readi (ip : Inode) (dst off n : UInt32) : User Unit :=
  if ip.type = T_DEV then if ip.console then consoleLoop p ip.typed dst n.toNat else return ()
  else if off > ip.size ∨ off + n < off then return ()
  else blockLoop (fun addr off m => copyTo p addr ((List.range m).map fun j => ip.content (off + UInt32.ofNat j)))
    dst off (if off + n > ip.size then ip.size - off else n).toNat

/-- `none` is the result `-1`, else the size of the inode after the write. -/
def writei (ip : Inode) (src off n : UInt32) : User (Option UInt32) := do
  if ip.type = T_DEV then
    if ip.console then
      copyFrom p src n.toNat
      return some ip.size
    else return none
  else if off > ip.size ∨ off + n < off ∨ (off + n).toNat > MAXFILE * BSIZE then return none
  else
    blockLoop (fun addr _ m => copyFrom p addr m) src off n.toNat
    return some (if n > 0 ∧ off + n > ip.size then off + n else ip.size)

def fileread (f : File) (addr n : UInt32) : User Unit :=
  if !f.readable then return ()
  else
    match f.type with
    | .pipe bytes _ => copyTo p addr (bytes.take n.toNat)
    | .inode ip => readi p ip addr f.off n

def filewriteLoop (ip : Inode) (addr off : UInt32) (left : Nat) : User Unit :=
  if left = 0 then return ()
  else do
    let n1 := min left maxWrite
    match ← writei p ip addr off (UInt32.ofNat n1) with
    | none => return ()
    | some size =>
      filewriteLoop { ip with size := size } (addr + UInt32.ofNat n1) (off + UInt32.ofNat n1) (left - n1)
termination_by left
decreasing_by
  have hmax : 0 < maxWrite := by decide
  omega

def filewrite (f : File) (addr n : UInt32) : User Unit :=
  if !f.writable then return ()
  else
    match f.type with
    | .pipe _ room => copyFrom p addr (min n.toNat room)
    | .inode ip => filewriteLoop p ip addr f.off n.toNat

def bytes16 (w : UInt16) : List UInt8 := [byte16 w 0, byte16 w 1]

def bytes32 (w : UInt32) : List UInt8 := [byte32 w 0, byte32 w 1, byte32 w 2, byte32 w 3]

/-- `stati`; a `struct stat` has `type`, `dev`, `ino`, `nlink` and `size` at 0, 4, 8, 12 and 16. -/
def stati (ip : Inode) (st : UInt32) : User Unit := do
  copyTo p (st + 4) (bytes32 ip.dev)
  copyTo p (st + 8) (bytes32 ip.inum)
  copyTo p st (bytes16 ip.type)
  copyTo p (st + 12) (bytes16 ip.nlink)
  copyTo p (st + 16) (bytes32 ip.size)

def filestat (f : File) (st : UInt32) : User Unit :=
  match f.type with
  | .pipe _ _ => return ()
  | .inode ip => stati p ip st

/-! ## The system calls -/

def argfd (n : UInt32) : User (Option File) := do
  match ← argint p n with
  | none => return none
  | some fd => if h : fd.toNat < NOFILE then return p.ofile ⟨fd.toNat, h⟩ else return none

/-- `sys_read` and `sys_write`, with what they call. -/
def readOrWrite (call : (f : File) → (addr n : UInt32) → User Unit) : User Unit := do
  match ← argfd p 0 with
  | none => return ()
  | some f =>
    match ← argint p 2 with
    | none => return ()
    | some n =>
      match ← argptr p 1 n with
      | none => return ()
      | some addr => call f addr n

def sysRead : User Unit := readOrWrite p (fileread p)

def sysWrite : User Unit := readOrWrite p (filewrite p)

def sysFstat : User Unit := do
  match ← argfd p 0 with
  | none => return ()
  | some f =>
    match ← argptr p 1 20 with
    | none => return ()
    | some st => filestat p f st

/-- The loop of `sys_exec`, with `left` places in `argv`. -/
def fetchArgs (uargv : UInt32) : (left : Nat) → (i : UInt32) → User (Option (List UInt32))
  | 0, _ => return none
  | left + 1, i => do
    match ← fetchint p (uargv + 4 * i) with
    | none => return none
    | some uarg =>
      if uarg = 0 then return some []
      else
        match ← fetchstr p uarg with
        | none => return none
        | some _ => return (← fetchArgs uargv left (i + 1)).map (uarg :: ·)

/-- The strings of the path and the arguments, which `exec` reads; `none` is the result `-1`. -/
def sysExec : User (Option (List UInt8 × List (List UInt8))) := do
  match ← argstr p 0 with
  | none => return none
  | some path =>
    match ← argint p 1 with
    | none => return none
    | some uargv =>
      match ← fetchArgs p uargv MAXARG 0 with
      | none => return none
      | some argv => return some (← readStr p (2 ^ 32) path, ← argv.mapM (readStr p (2 ^ 32)))

/-- `fds` are the descriptors of the new pipe, if there are any. -/
def sysPipe (fds : Option (UInt32 × UInt32)) : User Unit := do
  match ← argptr p 0 8 with
  | none => return ()
  | some fd =>
    match fds with
    | none => return ()
    | some (fd0, fd1) =>
      copyTo p fd (bytes32 fd0)
      copyTo p (fd + 4) (bytes32 fd1)

/-! ## No access is outside -/

/-- A string of `len` bytes, with its `NUL` inside the process. -/
structure StringAt (m : UInt32 → UInt8) (addr : UInt32) (len : Nat) : Prop where
  inside : addr.toNat + len + 1 ≤ p.sz.toNat
  nul : m (addr + UInt32.ofNat len) = 0
  text : ∀ i < len, m (addr + UInt32.ofNat i) ≠ 0

/-- The program does not fault and leaves user memory alone. -/
abbrev Reads {α : Type} (prog : User α) (m : UInt32 → UInt8) (Q : α → Prop) : Prop :=
  Ensures prog m (fun a m' => m' = m ∧ Q a) fun _ => False

/-- The program does not fault. -/
abbrev Safe {α : Type} (prog : User α) (m : UInt32 → UInt8) : Prop :=
  Ensures prog m (fun _ _ => True) fun _ => False

variable {p} {m : UInt32 → UInt8} {addr : UInt32}

theorem Reads.safe {α : Type} {prog : User α} {Q : α → Prop} (h : Reads prog m Q) : Safe prog m :=
  h.mono fun _ _ _ => trivial

/-- What follows a fetch, when it has failed and when it has not. -/
theorem Reads.fetched {α β : Type} {prog : User (Option α)} {P : Option α → Prop} {next : Option α → User β}
    {Q : β → (UInt32 → UInt8) → Prop} (h : Reads prog m P) (hnone : Ensures (next none) m Q fun _ => False)
    (hsome : ∀ a, P (some a) → Ensures (next (some a)) m Q fun _ => False) :
    Ensures (prog >>= next) m Q fun _ => False := by
  refine h.bind ?_
  rintro (_ | a) _ ⟨rfl, ha⟩
  · exact hnone
  · exact hsome a ha

theorem access_of_le {len : Nat} (h : addr.toNat + len ≤ p.sz.toNat) : access p addr len = pure () := if_pos h

theorem toNat_add_of_le (addr : UInt32) {n : Nat} (h : addr.toNat + n ≤ p.sz.toNat) :
    (addr + UInt32.ofNat n).toNat = addr.toNat + n := by
  have hsz := p.sz.toNat_lt
  rw [toNat_add, toNat_ofNat']
  omega

theorem toNat_add_one (addr : UInt32) (h : addr.toNat + 1 ≤ p.sz.toNat) : (addr + 1).toNat = addr.toNat + 1 :=
  toNat_add_of_le addr (n := 1) h

theorem load_reads (h : addr.toNat + 1 ≤ p.sz.toNat) : Reads (load p addr) m fun c => c = m addr := by
  rw [Reads, load, access_of_le h]
  exact ⟨rfl, rfl⟩

theorem copyTo_safe (l : List UInt8) (h : addr.toNat + l.length ≤ p.sz.toNat) : Safe (copyTo p addr l) m := by
  induction l generalizing addr m with
  | nil => exact trivial
  | cons b l ih =>
    rw [List.length_cons] at h
    have hnext := toNat_add_one (p := p) addr (by omega)
    rw [Safe, copyTo, access_of_le (by omega)]
    exact ih (by omega)

theorem copyFrom_reads (n : Nat) (h : addr.toNat + n ≤ p.sz.toNat) : Reads (copyFrom p addr n) m fun _ => True := by
  induction n generalizing addr with
  | zero => exact ⟨rfl, trivial⟩
  | succ n ih =>
    have hnext := toNat_add_one (p := p) addr (by omega)
    refine (load_reads (by omega)).bind ?_
    rintro _ _ ⟨rfl, -⟩
    exact ih (by omega)

/-- A loop over blocks is safe if the moves are that it makes inside the range. -/
theorem blockLoop_safe {move : (addr off : UInt32) → (m : Nat) → User Unit} (off : UInt32) (left : Nat)
    (hmove : ∀ m addr off n, addr.toNat + n ≤ p.sz.toNat → Safe (move addr off n) m)
    (h : addr.toNat + left ≤ p.sz.toNat) : Safe (blockLoop move addr off left) m := by
  induction left using Nat.strong_induction_on generalizing addr off m with
  | _ left ih =>
    rw [Safe, blockLoop]
    split
    · exact trivial
    · have hoff : off.toNat % BSIZE < BSIZE := Nat.mod_lt _ (by decide)
      refine (hmove m addr off _ (by omega)).bind fun _ m' _ => ih _ (by omega) _ ?_
      rw [toNat_add_of_le (p := p) _ (by omega)]
      omega

theorem fetchint_reads (hsz : p.sz.toNat ≤ KERNBASE) :
    Reads (fetchint p addr) m fun r => ∀ v, r = some v → addr.toNat + 4 ≤ p.sz.toNat := by
  have hbase : KERNBASE = 2 ^ 31 := rfl
  unfold fetchint
  split
  · exact ⟨rfl, nofun⟩
  · rename_i hcheck
    have hend : (addr + 4).toNat = (addr.toNat + 4) % 2 ^ 32 := toNat_add addr 4
    simp only [ge_iff_le, gt_iff_lt, le_iff_toNat_le, lt_iff_toNat_lt, not_or, not_le, not_lt] at hcheck
    have hinside : addr.toNat + 4 ≤ p.sz.toNat := by omega
    rw [loadInt, access_of_le hinside]
    exact ⟨rfl, fun _ _ => hinside⟩

/-- The loop of `fetchstr` has come to `s`, and found no `NUL` before. -/
theorem fetchstrLoop_reads (left len : Nat) (s : UInt32) (hs : s = addr + UInt32.ofNat len)
    (hleft : addr.toNat + len + left = p.sz.toNat) (htext : ∀ i < len, m (addr + UInt32.ofNat i) ≠ 0) :
    Reads (fetchstrLoop p left s len) m fun r => ∀ n, r = some n → StringAt p m addr n := by
  induction left generalizing len s with
  | zero => exact ⟨rfl, nofun⟩
  | succ left ih =>
    have hnat := toNat_add_of_le (p := p) addr (n := len) (by omega)
    refine (load_reads (by rw [hs]; omega)).bind ?_
    rintro _ _ ⟨rfl, rfl⟩
    split
    · rename_i hnul
      refine ⟨rfl, fun n hn => ?_⟩
      cases hn
      exact ⟨by omega, hs ▸ hnul, htext⟩
    · rename_i hne
      refine ih (len + 1) (s + 1) ?_ (by omega) fun i hi => ?_
      · apply toNat_inj.1
        simp only [hs, toNat_add, toNat_ofNat', toNat_one]
        omega
      · by_cases hlast : i = len
        · rw [hlast, ← hs]
          exact hne
        · exact htext i (by omega)

theorem fetchstr_reads : Reads (fetchstr p addr) m fun r => ∀ n, r = some n → StringAt p m addr n := by
  unfold fetchstr
  split
  · exact ⟨rfl, nofun⟩
  · rename_i hcheck
    rw [ge_iff_le, le_iff_toNat_le] at hcheck
    exact fetchstrLoop_reads _ 0 addr (by simp) (by omega) fun i hi => absurd hi (Nat.not_lt_zero i)

theorem readStr_reads (fuel len : Nat) (h : StringAt p m addr len) : Reads (readStr p fuel addr) m fun _ => True := by
  induction fuel generalizing addr len with
  | zero => exact ⟨rfl, trivial⟩
  | succ fuel ih =>
    have hinside := h.inside
    refine (load_reads (by omega)).bind ?_
    rintro _ _ ⟨rfl, rfl⟩
    split
    · exact ⟨rfl, trivial⟩
    · rename_i hne
      have hlen : len ≠ 0 := by
        rintro rfl
        exact hne (by simpa using h.nul)
      have hnext := toNat_add_one (p := p) addr (by omega)
      have hshift : ∀ i, addr + 1 + UInt32.ofNat i = addr + UInt32.ofNat (i + 1) := fun i => by
        apply toNat_inj.1
        simp only [toNat_add, toNat_ofNat', toNat_one]
        omega
      refine (ih (len - 1) ⟨by omega, ?_, fun i hi => ?_⟩).bind ?_
      · rw [hshift, Nat.sub_add_cancel (by omega)]
        exact h.nul
      · rw [hshift]
        exact h.text (i + 1) (by omega)
      · rintro _ _ ⟨rfl, -⟩
        exact ⟨rfl, trivial⟩

theorem mapM_readStr_reads (argv : List UInt32) (h : ∀ a ∈ argv, ∃ len, StringAt p m a len) :
    Reads (argv.mapM (readStr p (2 ^ 32))) m fun _ => True := by
  induction argv with
  | nil => exact ⟨rfl, trivial⟩
  | cons a argv ih =>
    obtain ⟨⟨len, hlen⟩, hrest⟩ := List.forall_mem_cons.1 h
    rw [List.mapM_cons]
    refine (readStr_reads _ len hlen).bind ?_
    rintro _ _ ⟨rfl, -⟩
    refine (ih hrest).bind ?_
    rintro _ _ ⟨rfl, -⟩
    exact ⟨rfl, trivial⟩

/-! ## Files -/

theorem consoleLoop_safe (typed : List UInt8) (n : Nat) (h : addr.toNat + n ≤ p.sz.toNat) :
    Safe (consoleLoop p typed addr n) m := by
  induction typed generalizing addr m n with
  | nil => exact trivial
  | cons c typed ih =>
    cases n with
    | zero => exact trivial
    | succ n =>
      have hnext := toNat_add_one (p := p) addr (by omega)
      rw [Safe, consoleLoop]
      split
      · exact trivial
      · refine (copyTo_safe [c] (by simp only [List.length_singleton]; omega)).bind fun _ m' _ => ?_
        split
        · exact trivial
        · exact ih n (by omega)

theorem readi_safe (ip : Inode) (off n : UInt32) (h : addr.toNat + n.toNat ≤ p.sz.toNat) :
    Safe (readi p ip addr off n) m := by
  unfold readi
  split
  · split
    · exact consoleLoop_safe ip.typed n.toNat h
    · exact trivial
  · split
    · exact trivial
    · rename_i hcheck
      refine blockLoop_safe off _ (fun m addr off k hk => copyTo_safe _ (by simpa using hk)) ?_
      -- what is left of the file is at most what was asked for
      have hle : (if off + n > ip.size then ip.size - off else n).toNat ≤ n.toNat := by
        simp only [gt_iff_lt, lt_iff_toNat_lt, not_or, not_lt] at hcheck ⊢
        have hend := toNat_add off n
        split
        · rw [UInt32.toNat_sub_of_le _ _ (le_iff_toNat_le.2 hcheck.1)]
          omega
        · exact le_rfl
      omega

theorem writei_safe (ip : Inode) (off n : UInt32) (h : addr.toNat + n.toNat ≤ p.sz.toNat) :
    Safe (writei p ip addr off n) m := by
  unfold writei
  split
  · split
    · exact (copyFrom_reads n.toNat h).bind fun _ _ _ => trivial
    · exact trivial
  · split
    · exact trivial
    · exact (blockLoop_safe off n.toNat (fun m addr _ k hk => (copyFrom_reads k hk).safe) h).bind fun _ _ _ => trivial

theorem fileread_safe (f : File) (n : UInt32) (h : addr.toNat + n.toNat ≤ p.sz.toNat) :
    Safe (fileread p f addr n) m := by
  unfold fileread
  split
  · exact trivial
  · split
    · exact copyTo_safe _ (by simp; omega)
    · exact readi_safe _ f.off n h

theorem filewriteLoop_safe (ip : Inode) (off : UInt32) (left : Nat) (h : addr.toNat + left ≤ p.sz.toNat) :
    Safe (filewriteLoop p ip addr off left) m := by
  induction left using Nat.strong_induction_on generalizing ip addr off m with
  | _ left ih =>
    rw [Safe, filewriteLoop]
    split
    · exact trivial
    · have hmax : maxWrite = 1536 := rfl
      have hn1 : (UInt32.ofNat (min left maxWrite)).toNat = min left maxWrite := by
        rw [toNat_ofNat']
        omega
      refine (writei_safe ip off _ (by omega)).bind fun r m' _ => ?_
      cases r with
      | none => exact trivial
      | some size =>
        refine ih _ (by omega) _ _ ?_
        rw [toNat_add_of_le (p := p) _ (by omega)]
        omega

theorem filewrite_safe (f : File) (n : UInt32) (h : addr.toNat + n.toNat ≤ p.sz.toNat) :
    Safe (filewrite p f addr n) m := by
  unfold filewrite
  split
  · exact trivial
  · split
    · exact (copyFrom_reads _ (by omega)).safe
    · exact filewriteLoop_safe _ f.off n.toNat h

theorem filestat_safe (f : File) (h : addr.toNat + 20 ≤ p.sz.toNat) : Safe (filestat p f addr) m := by
  unfold filestat
  split
  · exact trivial
  · have hfield : ∀ k (l : List UInt8) m, k + l.length ≤ 20 → Safe (copyTo p (addr + UInt32.ofNat k) l) m := by
      intro k l m hk
      apply copyTo_safe
      rw [toNat_add_of_le (p := p) _ (by omega)]
      omega
    refine (hfield 4 _ m (by simp [bytes32])).bind fun _ m _ => ?_
    refine (hfield 8 _ m (by simp [bytes32])).bind fun _ m _ => ?_
    refine (copyTo_safe _ (Nat.le_trans (Nat.add_le_add_left (by simp [bytes16]) _) h)).bind fun _ m _ => ?_
    refine (hfield 12 _ m (by simp [bytes16])).bind fun _ m _ => ?_
    exact hfield 16 _ m (by simp [bytes32])

/-! ## Calls -/

section Calls

variable (hsz : p.sz.toNat ≤ KERNBASE)
include hsz

theorem argint_reads (n : UInt32) : Reads (argint p n) m fun _ => True :=
  (fetchint_reads hsz).mono fun _ _ h => ⟨h.1, trivial⟩

theorem argptr_reads (n size : UInt32) :
    Reads (argptr p n size) m fun r => ∀ a, r = some a → a.toNat + size.toNat ≤ p.sz.toNat := by
  have hbase : KERNBASE = 2 ^ 31 := rfl
  refine (argint_reads hsz n).fetched ⟨rfl, nofun⟩ fun i _ => ?_
  dsimp only
  split
  · exact ⟨rfl, nofun⟩
  · rename_i hcheck
    refine ⟨rfl, fun a ha => ?_⟩
    cases ha
    have hend := toNat_add i size
    simp only [ge_iff_le, gt_iff_lt, le_iff_toNat_le, lt_iff_toNat_lt, not_or, not_le, not_lt] at hcheck
    have hsize : size.toNat < 2 ^ 31 := hcheck.1
    omega

theorem argstr_reads (n : UInt32) :
    Reads (argstr p n) m fun r => ∀ a, r = some a → ∃ len, StringAt p m a len := by
  refine (argint_reads hsz n).fetched ⟨rfl, nofun⟩ fun addr _ => fetchstr_reads.bind ?_
  rintro r _ ⟨rfl, hr⟩
  refine ⟨rfl, fun a ha => ?_⟩
  obtain ⟨len, hlen, rfl⟩ := Option.map_eq_some_iff.1 ha
  exact ⟨len, hr len hlen⟩

theorem argfd_reads (n : UInt32) : Reads (argfd p n) m fun _ => True := by
  refine (argint_reads hsz n).fetched ⟨rfl, trivial⟩ fun fd _ => ?_
  dsimp only
  split
  all_goals exact ⟨rfl, trivial⟩

theorem readOrWrite_safe {call : (f : File) → (addr n : UInt32) → User Unit}
    (hcall : ∀ f addr n m, addr.toNat + n.toNat ≤ p.sz.toNat → Safe (call f addr n) m) :
    Safe (readOrWrite p call) m :=
  (argfd_reads hsz 0).fetched trivial fun f _ => (argint_reads hsz 2).fetched trivial fun n _ =>
    (argptr_reads hsz 1 n).fetched trivial fun addr haddr => hcall f addr n m (haddr addr rfl)

theorem fetchArgs_reads (uargv : UInt32) (left : Nat) (i : UInt32) :
    Reads (fetchArgs p uargv left i) m fun r => ∀ argv, r = some argv → ∀ a ∈ argv, ∃ len, StringAt p m a len := by
  induction left generalizing i with
  | zero => exact ⟨rfl, nofun⟩
  | succ left ih =>
    refine (fetchint_reads hsz).fetched ⟨rfl, nofun⟩ fun uarg _ => ?_
    dsimp only
    split
    · refine ⟨rfl, fun argv hargv => ?_⟩
      cases hargv
      exact fun a ha => absurd ha List.not_mem_nil
    · refine fetchstr_reads.fetched ⟨rfl, nofun⟩ fun len hstr => (ih (i + 1)).bind ?_
      rintro r _ ⟨rfl, hr⟩
      refine ⟨rfl, fun argv hargv => ?_⟩
      obtain ⟨rest, hrest, rfl⟩ := Option.map_eq_some_iff.1 hargv
      exact List.forall_mem_cons.2 ⟨⟨len, hstr len rfl⟩, hr rest hrest⟩

theorem sysExec_safe : Safe (sysExec p) m := by
  refine (argstr_reads hsz 0).fetched trivial fun path hpath => (argint_reads hsz 1).fetched trivial fun uargv _ =>
    (fetchArgs_reads hsz uargv MAXARG 0).fetched trivial fun argv hargv => ?_
  obtain ⟨len, hlen⟩ := hpath path rfl
  refine (readStr_reads _ len hlen).bind ?_
  rintro _ _ ⟨rfl, -⟩
  exact (mapM_readStr_reads argv (hargv argv rfl)).bind fun _ _ _ => trivial

theorem sysPipe_safe (fds : Option (UInt32 × UInt32)) : Safe (sysPipe p fds) m := by
  refine (argptr_reads hsz 0 8).fetched trivial fun fd hfd => ?_
  have hinside : fd.toNat + 8 ≤ p.sz.toNat := hfd fd rfl
  cases fds with
  | none => exact trivial
  | some fds =>
    have hsecond : (fd + 4).toNat = fd.toNat + 4 := toNat_add_of_le (p := p) fd (n := 4) (by omega)
    have hlen : ∀ w, (bytes32 w).length = 4 := fun _ => rfl
    exact (copyTo_safe _ (by rw [hlen]; omega)).bind fun _ _ _ => copyTo_safe _ (by rw [hsecond, hlen]; omega)

end Calls

/-- In every process of at most `KERNBASE` bytes, whatever is on its stack and in its memory: an integer, a block or a
string that is fetched is inside, as a range of numbers, and none of the calls accesses anything else. -/
theorem syscall_arguments (p : Process) (hsz : p.sz.toNat ≤ KERNBASE) (m : UInt32 → UInt8) :
    (∀ addr, Reads (fetchint p addr) m fun r => ∀ v, r = some v → addr.toNat + 4 ≤ p.sz.toNat) ∧
    (∀ n size, Reads (argptr p n size) m fun r => ∀ a, r = some a → a.toNat + size.toNat ≤ p.sz.toNat) ∧
    (∀ addr, Reads (fetchstr p addr) m fun r => ∀ len, r = some len → StringAt p m addr len) ∧
    (∀ n, Reads (argstr p n) m fun r => ∀ a, r = some a → ∃ len, StringAt p m a len) ∧
    Safe (sysRead p) m ∧ Safe (sysWrite p) m ∧ Safe (sysFstat p) m ∧ Safe (sysExec p) m ∧
    ∀ fds, Safe (sysPipe p fds) m := by
  refine ⟨fun _ => fetchint_reads hsz, argptr_reads hsz, fun _ => fetchstr_reads, argstr_reads hsz, ?_, ?_, ?_,
    sysExec_safe hsz, sysPipe_safe hsz⟩
  · exact readOrWrite_safe hsz fun f addr n m h => fileread_safe f n h
  · exact readOrWrite_safe hsz fun f addr n m h => filewrite_safe f n h
  · exact (argfd_reads hsz 0).fetched trivial fun f _ => (argptr_reads hsz 1 20).fetched trivial fun st hst =>
      filestat_safe f (hst st rfl)

/-- A process of one page whose stack pointer is near the end of it: the arguments are not inside. -/
theorem syscall_arguments_page : Safe (sysRead ⟨4096, 4090, fun _ => none⟩) fun _ => 0 :=
  (syscall_arguments ⟨4096, 4090, fun _ => none⟩ (by decide) fun _ => 0).2.2.2.2.1

end AsoPracticas.Xv6.Arguments
