import AsoPracticas.Xv6.Format

/-!
# Icache — the inode cache under concurrent processes

`ialloc`, `iget`, `idup`, `ilock`, `iunlock`, `iupdate` and `iput` of `fs.c`, taken by any number of
processes, one atomic step after the other: a section under `icache.lock`, an `acquiresleep` or
`releasesleep`, or one access to the inode on disk (which `bread` and `brelse` make atomic).  A process
that has locked an inode may change it and then calls `iupdate`, as all system calls do.
-/

namespace AsoPracticas.Xv6.Icache

def NINODE : Nat := 50

instance : NeZero NINODE := ⟨by decide⟩

abbrev Slot := Fin NINODE

abbrev Key := Nat × Nat

/-! ## Contents of an inode -/

/-- The entry of `addrs` through which block `bn` of a file is reached. -/
def addrOf (bn : Nat) : Fin (NDIRECT + 1) := Fin.ofNat _ (min bn NDIRECT)

/-- What `bmap` does to the inode: the missing address is filled in with the block that `balloc`
returns. -/
def bmap (fresh : UInt32) (d : Dinode) (bn : Nat) : Dinode :=
  if d.addrs (addrOf bn) = 0 then d.withAddr (addrOf bn) fresh else d

/-- The blocks that the loops of `readi` and `writei` visit, none if there is nothing to read or to write. -/
def visited (off n : Nat) : List Nat :=
  if n = 0 then [] else List.range' (off / BSIZE) ((off + n + BSIZE - 1) / BSIZE - off / BSIZE)

/-- The loops of `readi` and `writei`, as far as the inode is concerned.  `fresh bn` is the block that
`balloc` returns for block `bn`. -/
def mapBlocks (fresh : Nat → UInt32) (d : Dinode) (off n : Nat) : Dinode :=
  (visited off n).foldl (fun d bn => bmap (fresh bn) d bn) d

/-- The checks at the start of `readi`, for an inode that is not a device. -/
def Readable (d : Dinode) (off : Nat) : Prop := d.type ≠ T_DEV ∧ off ≤ d.size.toNat

instance (d : Dinode) (off : Nat) : Decidable (Readable d off) := instDecidableAnd

/-- The checks at the start of `writei`, for an inode that is not a device; `off` and `n` are `uint`s. -/
def Writable (d : Dinode) (off n : Nat) : Prop :=
  Readable d off ∧ off + n < 2 ^ 32 ∧ off + n ≤ MAXFILE * BSIZE

instance (d : Dinode) (off n : Nat) : Decidable (Writable d off n) := instDecidableAnd

/-- An inode without contents, as `itrunc` leaves it. -/
def truncated (d : Dinode) : Dinode := { d with size := 0, addrs := fun _ => 0 }

/-- A new inode, as `ialloc` makes it. -/
def newInode (type : UInt16) : Dinode where
  type := type
  major := 0
  minor := 0
  nlink := 0
  size := 0
  addrs := fun _ => 0

/-! ## States -/

/-- An entry of the cache, `din` being the copy of the inode. -/
structure Entry (P : Type) where
  key : Key
  ref : Nat
  valid : Bool
  /-- The process that holds the sleep-lock. -/
  lock : Option P
  din : Dinode

inductive Pc where
  | idle
  /-- In `ilock`, with the sleep-lock. -/
  | loading (i : Slot)
  /-- At an `iupdate`, after a change to the copy of the inode. -/
  | updating (i : Slot)
  /-- At the `iget` of `ialloc`. -/
  | allocated (k : Key)
  /-- At the `acquiresleep` of `iput`. -/
  | put (i : Slot)
  /-- At the tests of `iput`. -/
  | checking (i : Slot)
  /-- At the `itrunc`. -/
  | truncating (i : Slot)
  /-- At `ip->type = 0; iupdate(ip)`. -/
  | clearing (i : Slot)
  /-- At `ip->valid = 0`. -/
  | invalidating (i : Slot)
  /-- At the `releasesleep`. -/
  | unlocking (i : Slot)
  /-- At `ip->ref--`. -/
  | dropping (i : Slot)
  deriving DecidableEq

structure Thread where
  pc : Pc
  refs : Slot → Nat

/-- The moment when the `ref` of an entry became 0: the inode on disk, how often it has been freed since
it was allocated, and whether the entry had been valid for it. -/
structure Drop where
  din : Dinode
  frees : Nat
  valided : Bool

/-- The cache, the inodes on disk and the processes.  The last fields are a history: whether an inode
has been read into its entry since it was allocated and the entry taken, how often it has been freed
since it was allocated, the number of other references at each `itrunc` and each `ip->type = 0`, and the
drops. -/
structure State (P : Type) where
  entry : Slot → Entry P
  disk : Key → Dinode
  thread : P → Thread
  valided : Key → Bool
  frees : Key → Nat
  truncs : List Nat
  drops : List Drop

def boot (P : Type) (disk : Key → Dinode) : State P where
  entry := fun _ => { key := (0, 0), ref := 0, valid := false, lock := none, din := newInode 0 }
  disk := disk
  thread := fun _ => { pc := .idle, refs := fun _ => 0 }
  valided := fun _ => false
  frees := fun _ => 0
  truncs := []
  drops := []

inductive Event (P : Type) where
  | iget (p : P) (k : Key)
  /-- `idup`, for the process itself or for another one. -/
  | idup (p q : P) (i : Slot)
  /-- A process takes over a reference of another, as with a shared open file. -/
  | pass (p q : P) (i : Slot)
  /-- The `acquiresleep` of `ilock`. -/
  | ilock (p : P) (i : Slot)
  | iunlock (p : P) (i : Slot)
  /-- A change to the fields of a locked inode, before its `iupdate`. -/
  | edit (p : P) (i : Slot) (major minor nlink : UInt16)
  | readi (p : P) (i : Slot) (off n : Nat) (fresh : Nat → UInt32)
  | writei (p : P) (i : Slot) (off n : Nat) (fresh : Nat → UInt32)
  /-- `ialloc` marks a free inode as allocated. -/
  | ialloc (p : P) (k : Key) (type : UInt16)
  | iput (p : P) (i : Slot)
  /-- The next step of a process in a call. -/
  | run (p : P)

/-! ## Steps -/

section Entry

variable {P : Type}

def State.setEntry (s : State P) (i : Slot) (e : Entry P) : State P :=
  { s with entry := Function.update s.entry i e }

def State.setDisk (s : State P) (k : Key) (d : Dinode) : State P :=
  { s with disk := Function.update s.disk k d }

def Entry.setRef (e : Entry P) (ref : Nat) : Entry P := { e with ref := ref }

def Entry.setLock (e : Entry P) (lock : Option P) : Entry P := { e with lock := lock }

def Entry.setDin (e : Entry P) (d : Dinode) : Entry P := { e with din := d }

/-- `iget` takes an empty entry. -/
def Entry.recycle (e : Entry P) (k : Key) : Entry P :=
  { e with key := k, ref := 1, valid := false }

def State.iupdate (s : State P) (i : Slot) : State P := s.setDisk (s.entry i).key (s.entry i).din

/-- The entry in which `iget` finds the inode. -/
def State.cached (s : State P) (k : Key) : Option Slot :=
  (List.finRange NINODE).find? fun i => 0 < (s.entry i).ref ∧ (s.entry i).key = k

/-- The entry that `iget` recycles. -/
def State.empty (s : State P) : Option Slot :=
  (List.finRange NINODE).find? fun i => (s.entry i).ref = 0

def State.setValided (s : State P) (k : Key) (b : Bool) : State P :=
  { s with valided := Function.update s.valided k b }

end Entry

def Thread.take (t : Thread) (i : Slot) : Thread :=
  { t with refs := Function.update t.refs i (t.refs i + 1) }

def Thread.give (t : Thread) (i : Slot) : Thread :=
  { t with refs := Function.update t.refs i (t.refs i - 1) }

def Thread.goto (t : Thread) (pc : Pc) : Thread := { t with pc := pc }

section Step

variable {P : Type} [DecidableEq P]

def State.setThread (s : State P) (p : P) (t : Thread) : State P :=
  { s with thread := Function.update s.thread p t }

def State.goto (s : State P) (p : P) (pc : Pc) : State P :=
  s.setThread p ((s.thread p).goto pc)

def iget (s : State P) (p : P) (k : Key) : Option (State P) :=
  match s.cached k with
  | some i =>
    some ((s.setEntry i ((s.entry i).setRef ((s.entry i).ref + 1))).setThread p (((s.thread p).take i).goto .idle))
  | none =>
    s.empty.map fun i =>
      ((s.setEntry i ((s.entry i).recycle k)).setThread p (((s.thread p).take i).goto .idle)).setValided k false

def idup (s : State P) (q : P) (i : Slot) : State P :=
  (s.setEntry i ((s.entry i).setRef ((s.entry i).ref + 1))).setThread q ((s.thread q).take i)

def pass (s : State P) (p q : P) (i : Slot) : State P :=
  let s := s.setThread q ((s.thread q).take i)
  s.setThread p ((s.thread p).give i)

/-- The rest of `ilock`: a valid entry is not read again, and an inode without a type is a panic. -/
def load (s : State P) (p : P) (i : Slot) : Option (State P) :=
  if (s.entry i).valid then some (s.goto p .idle)
  else if (s.disk (s.entry i).key).type = 0 then none
  else
    some (((s.setEntry i { s.entry i with valid := true, din := s.disk (s.entry i).key }).setValided
      (s.entry i).key true).goto p .idle)

/-- `writei`, up to its `iupdate` if there is one. -/
def writei (s : State P) (p : P) (i : Slot) (off n : Nat) (fresh : Nat → UInt32) : State P :=
  let d := mapBlocks fresh (s.entry i).din off n
  if 0 < n ∧ (s.entry i).din.size.toNat < off + n then
    (s.setEntry i ((s.entry i).setDin { d with size := UInt32.ofNat (off + n) })).goto p (.updating i)
  else s.setEntry i ((s.entry i).setDin d)

/-- The number of bytes that `readi` reads. -/
def readCount (d : Dinode) (off n : Nat) : Nat := min n (d.size.toNat - off)

def readi (s : State P) (i : Slot) (off n : Nat) (fresh : Nat → UInt32) : State P :=
  s.setEntry i ((s.entry i).setDin (mapBlocks fresh (s.entry i).din off (readCount (s.entry i).din off n)))

/-- The tests of `iput`. -/
def check (s : State P) (p : P) (i : Slot) : State P :=
  if (s.entry i).valid ∧ (s.entry i).din.nlink = 0 ∧ (s.entry i).ref = 1 then s.goto p (.truncating i)
  else s.goto p (.unlocking i)

def itrunc (s : State P) (p : P) (i : Slot) : State P :=
  let s' := (s.setEntry i ((s.entry i).setDin (truncated (s.entry i).din))).iupdate i
  { s' with truncs := s.truncs ++ [(s.entry i).ref - 1] }.goto p (.clearing i)

def clear (s : State P) (p : P) (i : Slot) : State P :=
  let s' := (s.setEntry i ((s.entry i).setDin { (s.entry i).din with type := 0 })).iupdate i
  { s' with
    frees := Function.update s.frees (s.entry i).key (s.frees (s.entry i).key + 1)
    truncs := s.truncs ++ [(s.entry i).ref - 1] }.goto p (.invalidating i)

/-- `ip->ref--`. -/
def drop (s : State P) (p : P) (i : Slot) : State P :=
  let s' := (s.setEntry i ((s.entry i).setRef ((s.entry i).ref - 1))).goto p .idle
  if (s.entry i).ref = 1 then
    { s' with
      drops := s.drops ++
        [{ din := s.disk (s.entry i).key
           frees := s.frees (s.entry i).key
           valided := s.valided (s.entry i).key }] }
  else s'

/-- The next step of a process in a call, `none` if it has to wait. -/
def run (s : State P) (p : P) : Option (State P) :=
  match (s.thread p).pc with
  | .idle => none
  | .loading i => load s p i
  | .updating i => some ((s.iupdate i).goto p .idle)
  | .allocated k => iget s p k
  | .put i =>
    if (s.entry i).lock = none then
      some ((s.setEntry i ((s.entry i).setLock (some p))).goto p (.checking i))
    else none
  | .checking i => some (check s p i)
  | .truncating i => some (itrunc s p i)
  | .clearing i => some (clear s p i)
  | .invalidating i => some ((s.setEntry i { s.entry i with valid := false }).goto p (.unlocking i))
  | .unlocking i => some ((s.setEntry i ((s.entry i).setLock none)).goto p (.dropping i))
  | .dropping i => some (drop s p i)

def State.Locked (s : State P) (p : P) (i : Slot) : Prop :=
  (s.thread p).pc = .idle ∧ (s.entry i).lock = some p

instance (s : State P) (p : P) (i : Slot) : Decidable (s.Locked p i) := instDecidableAnd

def State.Refers (s : State P) (p : P) (i : Slot) : Prop :=
  (s.thread p).pc = .idle ∧ 0 < (s.thread p).refs i

instance (s : State P) (p : P) (i : Slot) : Decidable (s.Refers p i) := instDecidableAnd

/-- What an event does, `none` if it cannot happen. -/
def step (s : State P) : Event P → Option (State P)
  | .iget p k => if (s.thread p).pc = .idle then iget s p k else none
  | .idup p q i => if s.Refers p i then some (idup s q i) else none
  | .pass p q i =>
    if s.Refers p i ∧ (s.entry i).lock ≠ some p then some (pass s p q i) else none
  | .ilock p i =>
    if s.Refers p i ∧ (s.entry i).lock = none then
      some ((s.setEntry i ((s.entry i).setLock (some p))).goto p (.loading i))
    else none
  | .iunlock p i =>
    if s.Locked p i then some (s.setEntry i ((s.entry i).setLock none)) else none
  | .edit p i major minor nlink =>
    if s.Locked p i then
      some ((s.setEntry i ((s.entry i).setDin
        { (s.entry i).din with major := major, minor := minor, nlink := nlink })).goto p (.updating i))
    else none
  | .readi p i off n fresh =>
    if s.Locked p i ∧ Readable (s.entry i).din off then some (readi s i off n fresh) else none
  | .writei p i off n fresh =>
    if s.Locked p i ∧ Writable (s.entry i).din off n then some (writei s p i off n fresh) else none
  | .ialloc p k type =>
    if (s.thread p).pc = .idle ∧ (s.disk k).type = 0 ∧ type ≠ 0 then
      some ({ (s.setDisk k (newInode type)).setValided k false with
        frees := Function.update s.frees k 0 }.goto p (.allocated k))
    else none
  | .iput p i =>
    if s.Refers p i then some (s.setThread p (((s.thread p).give i).goto (.put i))) else none
  | .run p => run s p

/-- Some event takes `s` to `s'`. -/
def Step (s s' : State P) : Prop := ∃ e, step s e = some s'

/-- `balloc` returns no block 0, as the bitmap marks the boot block as in use. -/
def Event.Marked : Event P → Prop
  | .readi _ _ _ _ fresh | .writei _ _ _ _ fresh => ∀ bn, fresh bn ≠ 0
  | _ => True

def MarkedStep (s s' : State P) : Prop := ∃ e : Event P, e.Marked ∧ step s e = some s'

end Step

end AsoPracticas.Xv6.Icache
