import AsoPracticas.Lib.Links
import AsoPracticas.Lib.Store
import AsoPracticas.Xv6.Disk

/-!
# Bcache — the buffer cache under concurrent processes

`bread`, `bwrite` and `brelse` of `bio.c`, with what `log_write` does to a buffer and with the disk
driver of `ide.c`, taken by any number of processes, one atomic step after the other: a section under
`bcache.lock`, `idelock` or `log.lock`, an `acquiresleep` or `releasesleep`, or an access to a buffer by
the process that has its sleep-lock.  All blocks are those of device 1, and the drive reports no error: the
`idewait(1)` of `ideintr` returns 0.
-/

namespace AsoPracticas.Xv6.Bcache

open Lib

def NBUF : Nat := MAXOPBLOCKS * 3

def FSSIZE : Nat := 1000

def ROOTDEV : Nat := 1

instance : NeZero NBUF := ⟨by decide⟩

abbrev Buf := Fin NBUF

/-- A node of the list: `none` is `bcache.head`. -/
abbrev Node := Option Buf

variable {P D : Type}

/-! ## States -/

structure Buffer (P D : Type) where
  /-- `B_VALID` and `B_DIRTY`. -/
  valid : Bool
  dirty : Bool
  dev : Nat
  blockno : Nat
  /-- The process that holds the sleep-lock. -/
  lock : Option P
  refcnt : Nat
  data : D

/-- Where a process is.  `n` is the block that a `bread` is to return, if it is one. -/
inductive Pc where
  | idle
  /-- At the `acquiresleep` of `bget`. -/
  | locking (b : Buf) (n : Nat)
  /-- Back in `bread`, at the test of `B_VALID`. -/
  | testing (b : Buf) (n : Nat)
  /-- At the start of `iderw`. -/
  | issuing (b : Buf) (n : Option Nat)
  /-- In the loop of `iderw` that waits for the request to finish. -/
  | waiting (b : Buf) (n : Option Nat)
  /-- In `brelse`, after the `releasesleep`. -/
  | releasing (b : Buf)
  deriving DecidableEq

/-- The last fields are a history: the buffers whose data have been changed since they were read or
stored, the number of times that a `refcnt` has become 0, when that of each buffer last did (0 if never),
and the accesses, that is, what the `bread`s have returned and what `log_write` and `bwrite` have
stored. -/
structure State (P D : Type) where
  buf : Buf → Buffer P D
  links : Links Node
  idequeue : List Buf
  disk : Nat × Nat → D
  thread : P → Pc
  edited : Buf → Bool
  clock : Nat
  fell : Buf → Nat
  accesses : List (Access Nat D)

def binit : Links Node :=
  (List.finRange NBUF).foldl (fun k b => k.pushFront none (some b)) ⟨fun _ => none, fun _ => none⟩

/-- After boot, with the disk as it is and `blank` as the contents of all buffers. -/
def boot (P : Type) (blank : D) (disk : Nat × Nat → D) : State P D where
  buf := fun _ =>
    { valid := false, dirty := false, dev := 0, blockno := 0, lock := none, refcnt := 0, data := blank }
  links := binit
  idequeue := []
  disk := disk
  thread := fun _ => .idle
  edited := fun _ => false
  clock := 0
  fell := fun _ => 0
  accesses := []

inductive Event (P D : Type) where
  /-- The section of `bget` under `bcache.lock`. -/
  | bread (p : P) (n : Nat)
  /-- The holder of a buffer changes its data. -/
  | modify (p : P) (b : Buf) (d : D)
  | logWrite (p : P) (b : Buf)
  | bwrite (p : P) (b : Buf)
  | brelse (p : P) (b : Buf)
  /-- The next step of a process in a call. -/
  | run (p : P)
  | ideintr

/-! ## Steps -/

def State.setBuf (s : State P D) (b : Buf) (e : Buffer P D) : State P D :=
  { s with buf := Function.update s.buf b e }

def State.setEdited (s : State P D) (b : Buf) (edited : Bool) : State P D :=
  { s with edited := Function.update s.edited b edited }

def State.record (s : State P D) (a : Access Nat D) : State P D :=
  { s with accesses := s.accesses ++ [a] }

def Buffer.setLock (e : Buffer P D) (lock : Option P) : Buffer P D := { e with lock := lock }

def Buffer.setRefcnt (e : Buffer P D) (refcnt : Nat) : Buffer P D := { e with refcnt := refcnt }

def Buffer.setData (e : Buffer P D) (d : D) : Buffer P D := { e with data := d }

def Buffer.setDirty (e : Buffer P D) : Buffer P D := { e with dirty := true }

/-- `bget` takes a buffer for another block. -/
def Buffer.recycle (e : Buffer P D) (n : Nat) : Buffer P D :=
  { e with dev := ROOTDEV, blockno := n, valid := false, dirty := false, refcnt := 1 }

/-- The buffer carries block `n` of device 1. -/
def Buffer.Carries (e : Buffer P D) (n : Nat) : Prop := e.dev = ROOTDEV ∧ e.blockno = n

instance (e : Buffer P D) (n : Nat) : Decidable (e.Carries n) := instDecidableAnd

/-- `iderw` is done. -/
def Buffer.Done (e : Buffer P D) : Prop := e.valid = true ∧ e.dirty = false

instance (e : Buffer P D) : Decidable e.Done := instDecidableAnd

def Buffer.Unused (e : Buffer P D) : Prop := e.refcnt = 0 ∧ e.dirty = false

instance (e : Buffer P D) : Decidable e.Unused := instDecidableAnd

/-- The first loop of `bget`, over the list from its front; `none` if it does not come to an end. -/
def State.cached (s : State P D) (n : Nat) : Option (Option Buf) :=
  (Links.scan s.links.next none (fun x => x.any fun b => (s.buf b).Carries n) (NBUF + 1)
    (s.links.next none)).map Option.join

/-- The second loop of `bget`, from the back. -/
def State.unused (s : State P D) : Option (Option Buf) :=
  (Links.scan s.links.prev none (fun x => x.any fun b => (s.buf b).Unused) (NBUF + 1)
    (s.links.prev none)).map Option.join

/-- A change of contents that `log_write` or `bwrite` makes known. -/
def State.store (s : State P D) (b : Buf) : State P D :=
  ((s.setBuf b (s.buf b).setDirty).setEdited b false).record (.write (s.buf b).blockno (s.buf b).data)

/-- `idestart` does not panic. -/
def State.Startable (s : State P D) : List Buf → Prop
  | [] => True
  | b :: _ => (s.buf b).blockno < FSSIZE

instance (s : State P D) : DecidablePred s.Startable
  | [] => .isTrue trivial
  | b :: _ => inferInstanceAs (Decidable ((s.buf b).blockno < FSSIZE))

/-- The disk has carried out the request for a buffer: a write if it is dirty, otherwise a read. -/
def State.transfer (s : State P D) (b : Buf) : State P D :=
  let e := s.buf b
  if e.dirty then
    { s.setBuf b { e with valid := true, dirty := false } with
      disk := Function.update s.disk (e.dev, e.blockno) e.data }
  else s.setBuf b { e with valid := true, dirty := false, data := s.disk (e.dev, e.blockno) }

/-- The section of `brelse`: the buffer goes to the front of the list when nobody uses it any more. -/
def State.unref (s : State P D) (b : Buf) : State P D :=
  let s' := s.setBuf b ((s.buf b).setRefcnt ((s.buf b).refcnt - 1))
  if (s.buf b).refcnt - 1 = 0 then
    { s' with
      links := (s.links.remove (some b)).pushFront none (some b)
      clock := s.clock + 1
      fell := Function.update s.fell b (s.clock + 1) }
  else s'

/-- The request at the head of `idequeue` is finished, and the next one is started. -/
def ideintr (s : State P D) : Option (State P D) :=
  match s.idequeue with
  | [] => none
  | b :: q => if s.Startable q then some { s.transfer b with idequeue := q } else none

section Step

variable [DecidableEq P]

def State.goto (s : State P D) (p : P) (pc : Pc) : State P D :=
  { s with thread := Function.update s.thread p pc }

def bget (s : State P D) (p : P) (n : Nat) : Option (State P D) :=
  match s.cached n with
  | none => none
  | some (some b) => some ((s.setBuf b ((s.buf b).setRefcnt ((s.buf b).refcnt + 1))).goto p (.locking b n))
  | some none =>
    match s.unused with
    | some (some b) => some ((s.setBuf b ((s.buf b).recycle n)).goto p (.locking b n))
    | _ => none

/-- `bread` returns the buffer, `bwrite` just returns. -/
def finish (s : State P D) (p : P) (b : Buf) : Option Nat → State P D
  | some n => (s.record (.read n (s.buf b).data)).goto p .idle
  | none => s.goto p .idle

/-- The next step of a process in a call, `none` if it has to wait. -/
def run (s : State P D) (p : P) : Option (State P D) :=
  match s.thread p with
  | .idle => none
  | .locking b n =>
    if (s.buf b).lock = none then
      some ((s.setBuf b ((s.buf b).setLock (some p))).goto p (.testing b n))
    else none
  | .testing b n =>
    if (s.buf b).valid then some (finish s p b (some n)) else some (s.goto p (.issuing b (some n)))
  | .issuing b n =>
    if (s.buf b).Done ∨ ¬ s.Startable (s.idequeue ++ [b]) then none
    else some ({ s with idequeue := s.idequeue ++ [b] }.goto p (.waiting b n))
  | .waiting b n => if (s.buf b).Done then some (finish s p b n) else none
  | .releasing b => some ((s.unref b).goto p .idle)

/-- A process outside all calls that has the sleep-lock of the buffer. -/
def State.Holds (s : State P D) (p : P) (b : Buf) : Prop :=
  s.thread p = .idle ∧ (s.buf b).lock = some p

instance (s : State P D) (p : P) (b : Buf) : Decidable (s.Holds p b) := instDecidableAnd

/-- What an event does, `none` if it cannot happen.  A buffer that has been changed is not released
before it has been given to `log_write` or `bwrite`. -/
def step (s : State P D) : Event P D → Option (State P D)
  | .bread p n => if s.thread p = .idle then bget s p n else none
  | .modify p b d =>
    if s.Holds p b then some ((s.setBuf b ((s.buf b).setData d)).setEdited b true) else none
  | .logWrite p b => if s.Holds p b then some (s.store b) else none
  | .bwrite p b => if s.Holds p b then some ((s.store b).goto p (.issuing b none)) else none
  | .brelse p b =>
    if s.Holds p b ∧ s.edited b = false then
      some ((s.setBuf b ((s.buf b).setLock none)).goto p (.releasing b))
    else none
  | .run p => run s p
  | .ideintr => ideintr s

/-- Some event takes `s` to `s'`. -/
def Step (s s' : State P D) : Prop := ∃ e, step s e = some s'

end Step

end AsoPracticas.Xv6.Bcache
