import AsoPracticas.Lib.Ring
import AsoPracticas.Lib.Transition

/-!
# Pipe — the byte stream of a pipe

`pipe.c`: any number of processes run `pipewrite` and `piperead` on one pipe.  A process holds `p->lock`
from an `acquire`, or the end of a `sleep`, to the next `release` or `sleep`.  A test of a loop is one
step and the byte moved after it another, and the other processes take their steps in between, as far as
the lock lets them.

* `Inv.step`, `pipe_fifo` — what has been read, followed by what is in the buffer, is what has been
  written.
-/

namespace AsoPracticas.Xv6

open Lib
open Function (update update_of_ne update_self)

def PIPESIZE : Nat := 512

instance : NeZero PIPESIZE := ⟨by decide⟩

structure Pipe where
  data : Fin PIPESIZE → UInt8
  /-- Number of bytes read. -/
  nread : UInt32
  /-- Number of bytes written. -/
  nwrite : UInt32
  /-- Read fd is still open. -/
  readopen : Bool
  /-- Write fd is still open. -/
  writeopen : Bool

namespace Pipe

/-- `p->nwrite == p->nread + PIPESIZE`. -/
def full (p : Pipe) : Bool := p.nwrite == p.nread + UInt32.ofNat PIPESIZE

/-- `p->nread == p->nwrite`. -/
def empty (p : Pipe) : Bool := p.nread == p.nwrite

/-- `p->data[p->nwrite++ % PIPESIZE] = c`. -/
def put (p : Pipe) (c : UInt8) : Pipe :=
  { p with
    data := update p.data (Fin.ofNat PIPESIZE p.nwrite.toNat) c
    nwrite := p.nwrite + 1 }

/-- The byte that `p->data[p->nread++ % PIPESIZE]` reads. -/
def next (p : Pipe) : UInt8 := p.data (Fin.ofNat PIPESIZE p.nread.toNat)

/-- The pipe after `p->data[p->nread++ % PIPESIZE]`. -/
def take (p : Pipe) : Pipe := { p with nread := p.nread + 1 }

def count (p : Pipe) : Nat := (p.nwrite - p.nread).toNat

/-- The buffered bytes, in the order in which they will be read. -/
def buffered (p : Pipe) : List UInt8 :=
  (List.range p.count).map fun j => p.data (Fin.ofNat PIPESIZE (p.nread.toNat + j))

/-! ## Processes -/

/-- The arguments of a call; a writer takes its bytes from `addr`. -/
inductive Call where
  | write (addr : Nat → UInt8) (n : Int)
  | read (n : Int)

inductive Proc where
  /-- In no call; the last one returned `result`. -/
  | idle (result : Int)
  /-- At the `acquire` at the start of a call. -/
  | acquire (c : Call)
  /-- At the tests of the loops of `pipewrite`. -/
  | writing (addr : Nat → UInt8) (n : Int) (i : Nat)
  /-- At the assignment to `p->data`. -/
  | storing (addr : Nat → UInt8) (n : Int) (i : Nat)
  /-- In the `sleep` of `pipewrite`, on `&p->nwrite`. -/
  | writeAsleep (addr : Nat → UInt8) (n : Int) (i : Nat)
  /-- Woken up, at the `acquire` at the end of that `sleep`. -/
  | writeAwake (addr : Nat → UInt8) (n : Int) (i : Nat)
  /-- At the test of the first loop of `piperead`. -/
  | reading (n : Int)
  /-- In the `sleep` of `piperead`, on `&p->nread`. -/
  | readAsleep (n : Int)
  /-- Woken up, at the `acquire` at the end of that `sleep`. -/
  | readAwake (n : Int)
  /-- At the tests of the second loop of `piperead`. -/
  | copying (n : Int) (i : Nat)
  /-- At the assignment to `addr[i]`. -/
  | taking (n : Int) (i : Nat)

/-- `wakeup(&p->nread)`. -/
def Proc.wakeReader : Proc → Proc
  | .readAsleep n => .readAwake n
  | q => q

/-- `wakeup(&p->nwrite)`. -/
def Proc.wakeWriter : Proc → Proc
  | .writeAsleep addr n i => .writeAwake addr n i
  | q => q

/-- The state of all processes.  `stored` and `removed` are the bytes that went into and out of the
buffer so far, in that order. -/
structure State (P : Type) where
  pipe : Pipe
  /-- The process that holds `p->lock`. -/
  lock : Option P
  proc : P → Proc
  killed : P → Bool
  stored : List UInt8
  removed : List UInt8

/-- After `pipealloc`.  The buffer holds whatever the page held. -/
def initial (P : Type) (data : Fin PIPESIZE → UInt8) : State P where
  pipe := { data := data, nread := 0, nwrite := 0, readopen := true, writeopen := true }
  lock := none
  proc := fun _ => .idle 0
  killed := fun _ => false
  stored := []
  removed := []

inductive Event (P : Type) where
  /-- A process calls `pipewrite` or `piperead`. -/
  | call (p : P) (c : Call)
  /-- A process takes its next step in the call. -/
  | run (p : P)
  /-- `kill`: the process is marked, and woken up if it sleeps. -/
  | kill (p : P)
  /-- `pipeclose`.  The source calls it for an end that no process uses any more; here it may come at
  any time, also while calls on that end are under way. -/
  | close (writable : Bool)

section Step

variable {P : Type} [DecidableEq P]

def State.goto (s : State P) (p : P) (q : Proc) : State P :=
  { s with proc := update s.proc p q }

def State.acquire (s : State P) (p : P) (q : Proc) : Option (State P) :=
  if s.lock = none then some ({ s with lock := some p }.goto p q) else none

/-- The process wakes others up with `wake`, lets go of the lock, and goes on in `q`. -/
def State.release (s : State P) (p : P) (wake : Proc → Proc) (q : Proc) : State P :=
  { s with lock := none, proc := fun a => if a = p then q else wake (s.proc a) }

/-- `pipewrite` at the tests of its loops: `i < n`, then the one for a full buffer. -/
def pipewrite (s : State P) (p : P) (addr : Nat → UInt8) (n : Int) (i : Nat) : State P :=
  if (i : Int) < n then
    if s.pipe.full then
      if !s.pipe.readopen || s.killed p then s.release p id (.idle (-1))
      -- `sleep` takes `ptable.lock` before it lets go of `p->lock`, so no wakeup comes between.
      else s.release p Proc.wakeReader (.writeAsleep addr n i)
    else s.goto p (.storing addr n i)
  else s.release p Proc.wakeReader (.idle n)

def pipewriteStore (s : State P) (p : P) (addr : Nat → UInt8) (n : Int) (i : Nat) : State P :=
  { s with
    pipe := s.pipe.put (addr i)
    stored := s.stored ++ [addr i] }.goto p (.writing addr n (i + 1))

/-- `piperead` at the test of its first loop. -/
def piperead (s : State P) (p : P) (n : Int) : State P :=
  if s.pipe.empty && s.pipe.writeopen then
    if s.killed p then s.release p id (.idle (-1))
    else s.release p id (.readAsleep n)
  else s.goto p (.copying n 0)

/-- `piperead` at the tests of its second loop. -/
def pipereadCopy (s : State P) (p : P) (n : Int) (i : Nat) : State P :=
  if (i : Int) < n then
    if s.pipe.empty then s.release p Proc.wakeWriter (.idle i)
    else s.goto p (.taking n i)
  else s.release p Proc.wakeWriter (.idle i)

def pipereadTake (s : State P) (p : P) (n : Int) (i : Nat) : State P :=
  { s with
    pipe := s.pipe.take
    removed := s.removed ++ [s.pipe.next] }.goto p (.copying n (i + 1))

def pipeclose (s : State P) (writable : Bool) : State P :=
  if writable then
    { s with
      pipe := { s.pipe with writeopen := false }
      proc := fun a => (s.proc a).wakeReader }
  else
    { s with
      pipe := { s.pipe with readopen := false }
      proc := fun a => (s.proc a).wakeWriter }

def kill (s : State P) (p : P) : State P :=
  { s with
    killed := update s.killed p true
    proc := update s.proc p (s.proc p).wakeReader.wakeWriter }

/-- The next step of a process in its call, `none` if it has to wait. -/
def run (s : State P) (p : P) : Option (State P) :=
  match s.proc p with
  | .idle _ => none
  | .acquire (.write addr n) => s.acquire p (.writing addr n 0)
  | .acquire (.read n) => s.acquire p (.reading n)
  | .writing addr n i => some (pipewrite s p addr n i)
  | .storing addr n i => some (pipewriteStore s p addr n i)
  | .writeAsleep .. => none
  | .writeAwake addr n i => s.acquire p (.writing addr n i)
  | .reading n => some (piperead s p n)
  | .readAsleep _ => none
  | .readAwake n => s.acquire p (.reading n)
  | .copying n i => some (pipereadCopy s p n i)
  | .taking n i => some (pipereadTake s p n i)

/-- What an event does, `none` if it cannot happen. -/
def step (s : State P) : Event P → Option (State P)
  | .call p c =>
    match s.proc p with
    | .idle _ => some (s.goto p (.acquire c))
    | _ => none
  | .run p => run s p
  | .kill p => some (kill s p)
  | .close writable => if s.lock = none then some (pipeclose s writable) else none

/-- Some event takes `s` to `s'`. -/
def Step (s s' : State P) : Prop := ∃ e, step s e = some s'

end Step

/-! ## The pipe is a queue -/

section Queue

variable {p : Pipe} {c : UInt8}

def ring (p : Pipe) : Ring UInt8 32 PIPESIZE where
  data := p.data
  nread := p.nread.toBitVec
  nwrite := p.nwrite.toBitVec

theorem count_ring (p : Pipe) : p.ring.count = p.count := rfl

theorem contents_ring (p : Pipe) : p.ring.contents = p.buffered := rfl

theorem ring_put (p : Pipe) (c : UInt8) : (p.put c).ring = p.ring.push c := rfl

theorem ring_take (p : Pipe) : p.take.ring = p.ring.pop := rfl

theorem PIPESIZE_dvd : PIPESIZE ∣ 2 ^ 32 := by decide

theorem full_iff : p.full = true ↔ p.count = PIPESIZE := by
  rw [← count_ring, ← Ring.full_iff (by decide), full, beq_iff_eq, ← UInt32.toBitVec_inj]
  rfl

theorem empty_iff : p.empty = true ↔ p.count = 0 := by
  rw [← count_ring, ← Ring.empty_iff, empty, beq_iff_eq, ← UInt32.toBitVec_inj]
  rfl

theorem buffered_put (hle : p.count ≤ PIPESIZE) (hroom : p.full = false) :
    (p.put c).count ≤ PIPESIZE ∧ (p.put c).buffered = p.buffered ++ [c] := by
  have hlt : p.ring.count < PIPESIZE := by
    apply Nat.lt_of_le_of_ne hle
    intro hfull
    rw [full_iff.2 hfull] at hroom
    contradiction
  grind [PIPESIZE, count_ring, contents_ring, ring_put, Ring.count_push, Ring.contents_push, PIPESIZE_dvd]

theorem buffered_take (hle : p.count ≤ PIPESIZE) (hsome : p.empty = false) :
    p.take.count ≤ PIPESIZE ∧ p.buffered = p.next :: p.take.buffered := by
  have hpos : 0 < p.ring.count := by
    apply Nat.pos_of_ne_zero
    intro hempty
    rw [empty_iff.2 hempty] at hsome
    contradiction
  rw [← count_ring, ← contents_ring, ← contents_ring, ring_take]
  constructor
  · rw [Ring.count_pop hpos]
    exact Nat.le_trans (Nat.sub_le ..) hle
  · exact Ring.contents_pop PIPESIZE_dvd hpos

end Queue

/-! ## The invariant -/

section Invariant

variable {P : Type} {s s' : State P} {p : P} {q : Proc} {pipe pipe' : Pipe} {locked : Prop}

/-- What a process at `q` relies on: that it holds the lock, and what its last test of the buffer said. -/
def Proc.Sound (locked : Prop) (pipe : Pipe) : Proc → Prop
  | .writing .. => locked
  | .storing .. => locked ∧ pipe.full = false
  | .reading _ => locked
  | .copying .. => locked
  | .taking .. => locked ∧ pipe.empty = false
  | _ => True

theorem Proc.Sound.of_false (h : q.Sound False pipe) : q.Sound locked pipe' := by
  cases q <;> simp_all [Proc.Sound]

theorem Proc.Sound.wakeReader (h : q.Sound locked pipe) : q.wakeReader.Sound locked pipe := by
  cases q <;> simp_all [Proc.Sound, Proc.wakeReader]

theorem Proc.Sound.wakeWriter (h : q.Sound locked pipe) : q.wakeWriter.Sound locked pipe := by
  cases q <;> simp_all [Proc.Sound, Proc.wakeWriter]

theorem Proc.Sound.of_counters (h : q.Sound locked pipe) (hread : pipe'.nread = pipe.nread)
    (hwrite : pipe'.nwrite = pipe.nwrite) : q.Sound locked pipe' := by
  cases q <;> simp_all [Proc.Sound, full, empty]

structure Inv (s : State P) : Prop where
  sound : ∀ p, (s.proc p).Sound (s.lock = some p) s.pipe
  count_le : s.pipe.count ≤ PIPESIZE
  stream : s.removed ++ s.pipe.buffered = s.stored

theorem Inv.others (h : Inv s) (hlock : s.lock = some p) {a : P} (ha : a ≠ p) : (s.proc a).Sound False s.pipe := by
  have hsound := h.sound a
  have hfalse : (s.lock = some a) = False := by grind
  rwa [hfalse] at hsound

theorem Inv.pipeclose (h : Inv s) {writable : Bool} : Inv (pipeclose s writable) := by
  unfold Pipe.pipeclose
  split
  · exact ⟨fun a => (h.sound a).wakeReader.of_counters rfl rfl, h.count_le, h.stream⟩
  · exact ⟨fun a => (h.sound a).wakeWriter.of_counters rfl rfl, h.count_le, h.stream⟩

theorem count_initial (data : Fin PIPESIZE → UInt8) : (initial P data).pipe.count = 0 := by
  simp [initial, count]

theorem inv_initial (data : Fin PIPESIZE → UInt8) : Inv (initial P data) where
  sound _ := trivial
  count_le := by
    rw [count_initial]
    exact Nat.zero_le _
  stream := by
    rw [buffered, count_initial]
    rfl

variable [DecidableEq P]

theorem Inv.goto (h : Inv s) (hlock : s.lock = some p) {stored removed : List UInt8}
    (hq : q.Sound True pipe) (hle : pipe.count ≤ PIPESIZE)
    (hstream : removed ++ pipe.buffered = stored) :
    Inv ({ s with pipe := pipe, stored := stored, removed := removed }.goto p q) where
  sound a := by
    rcases eq_or_ne a p with rfl | ha
    · simpa only [State.goto, update_self, hlock] using hq
    · simp only [State.goto, update_of_ne ha]
      exact (h.others hlock ha).of_false
  count_le := hle
  stream := hstream

theorem Inv.acquire (h : Inv s) (hs : s.acquire p q = some s') (hq : q.Sound True s.pipe) :
    Inv s' := by
  unfold State.acquire at hs
  split at hs
  next hfree =>
    cases hs
    refine ⟨fun a => ?_, h.count_le, h.stream⟩
    rcases eq_or_ne a p with rfl | ha
    · simpa only [State.goto, update_self] using hq
    · have hsound := h.sound a
      simp only [hfree, reduceCtorEq] at hsound
      simp only [State.goto, update_of_ne ha]
      exact hsound.of_false
  next => cases hs

theorem Inv.release (h : Inv s) (hlock : s.lock = some p) {wake : Proc → Proc}
    (hwake : ∀ q : Proc, q.Sound False s.pipe → (wake q).Sound False s.pipe)
    (hq : q.Sound False s.pipe) : Inv (s.release p wake q) where
  __ := h
  sound a := by
    simp only [State.release]
    split
    next => exact hq.of_false
    next ha => exact (hwake _ (h.others hlock ha)).of_false

section Code

variable {addr : Nat → UInt8} {n : Int} {i : Nat}

theorem Inv.pipewrite (h : Inv s) (hlock : s.lock = some p) : Inv (pipewrite s p addr n i) := by
  unfold Pipe.pipewrite
  split
  · split
    · split
      · exact h.release hlock (fun _ hq => hq) trivial
      · exact h.release hlock (fun _ hq => hq.wakeReader) trivial
    next hroom => exact h.goto hlock ⟨trivial, Bool.eq_false_iff.2 hroom⟩ h.count_le h.stream
  · exact h.release hlock (fun _ hq => hq.wakeReader) trivial

theorem Inv.pipewriteStore (h : Inv s) (hlock : s.lock = some p) (hroom : s.pipe.full = false) :
    Inv (pipewriteStore s p addr n i) := by
  obtain ⟨hle, hput⟩ := buffered_put h.count_le hroom (c := addr i)
  refine h.goto hlock trivial hle ?_
  rw [hput, ← List.append_assoc, h.stream]

theorem Inv.piperead (h : Inv s) (hlock : s.lock = some p) : Inv (piperead s p n) := by
  unfold Pipe.piperead
  split
  · split
    · exact h.release hlock (fun _ hq => hq) trivial
    · exact h.release hlock (fun _ hq => hq) trivial
  · exact h.goto hlock trivial h.count_le h.stream

theorem Inv.pipereadCopy (h : Inv s) (hlock : s.lock = some p) : Inv (pipereadCopy s p n i) := by
  unfold Pipe.pipereadCopy
  split
  · split
    · exact h.release hlock (fun _ hq => hq.wakeWriter) trivial
    next hsome => exact h.goto hlock ⟨trivial, Bool.eq_false_iff.2 hsome⟩ h.count_le h.stream
  · exact h.release hlock (fun _ hq => hq.wakeWriter) trivial

theorem Inv.pipereadTake (h : Inv s) (hlock : s.lock = some p) (hsome : s.pipe.empty = false) :
    Inv (pipereadTake s p n i) := by
  obtain ⟨hle, htake⟩ := buffered_take h.count_le hsome
  refine h.goto hlock trivial hle ?_
  rw [List.append_assoc, List.singleton_append, ← htake, h.stream]

end Code

theorem Inv.kill (h : Inv s) : Inv (kill s p) where
  __ := h
  sound a := by
    rcases eq_or_ne a p with rfl | ha
    · simpa only [Pipe.kill, update_self] using (h.sound a).wakeReader.wakeWriter
    · simpa only [Pipe.kill, update_of_ne ha] using h.sound a

theorem Inv.run (h : Inv s) (hs : run s p = some s') : Inv s' := by
  have hsound := h.sound p
  unfold Pipe.run at hs
  cases hq : s.proc p with
  | idle => simp [hq] at hs
  | acquire c =>
    cases c with
    | write addr n | read n =>
      simp only [hq] at hs
      exact h.acquire hs trivial
  | writing addr n i =>
    simp only [hq, Option.some.injEq] at hs hsound
    exact hs ▸ h.pipewrite hsound
  | storing addr n i =>
    simp only [hq, Option.some.injEq] at hs hsound
    exact hs ▸ h.pipewriteStore hsound.1 hsound.2
  | writeAsleep => simp [hq] at hs
  | writeAwake addr n i =>
    simp only [hq] at hs
    exact h.acquire hs trivial
  | reading n =>
    simp only [hq, Option.some.injEq] at hs hsound
    exact hs ▸ h.piperead hsound
  | readAsleep => simp [hq] at hs
  | readAwake n =>
    simp only [hq] at hs
    exact h.acquire hs trivial
  | copying n i =>
    simp only [hq, Option.some.injEq] at hs hsound
    exact hs ▸ h.pipereadCopy hsound
  | taking n i =>
    simp only [hq, Option.some.injEq] at hs hsound
    exact hs ▸ h.pipereadTake hsound.1 hsound.2

theorem Inv.step (h : Inv s) (hs : Step s s') : Inv s' := by
  obtain ⟨e, he⟩ := hs
  cases e with
  | call p c =>
    simp only [Pipe.step] at he
    split at he
    · cases he
      refine ⟨fun a => ?_, h.count_le, h.stream⟩
      rcases eq_or_ne a p with rfl | ha
      · simp only [State.goto, update_self]
        trivial
      · simpa only [State.goto, update_of_ne ha] using h.sound a
    · cases he
  | run p => exact h.run he
  | kill p =>
    cases he
    exact h.kill
  | close writable =>
    simp only [Pipe.step] at he
    split at he
    · cases he
      exact h.pipeclose
    · cases he

/-- However the processes interleave, and however often the counters have wrapped, the buffer holds at
most `PIPESIZE` bytes, and the bytes read so far followed by those in the buffer are the bytes written
so far. -/
theorem pipe_fifo {data : Fin PIPESIZE → UInt8}
    (hreach : Relation.ReflTransGen Step (initial P data) s) :
    (s.pipe.nwrite - s.pipe.nread).toNat ≤ PIPESIZE ∧
      s.removed <+: s.stored ∧ s.stored = s.removed ++ s.pipe.buffered := by
  have hinv : Inv s := invariant_of_reachable Inv (inv_initial data) (fun _ _ => Inv.step) hreach
  exact ⟨hinv.count_le, ⟨_, hinv.stream⟩, hinv.stream.symm⟩

end Invariant

/-- A reader sleeps on the empty pipe, is woken by a writer of two bytes, and reads one of them. -/
def oneByteRead : List (Event Bool) :=
  [.call false (.read 1), .run false, .run false,
    .call true (.write (fun i => UInt8.ofNat (65 + i)) 2), .run true, .run true, .run true, .run true,
    .run true, .run true,
    .run false, .run false, .run false, .run false, .run false]

theorem pipe_fifo_oneByteRead :
    ∃ s : State Bool, s.removed = [65] ∧ s.pipe.buffered = [66] ∧
      (s.pipe.nwrite - s.pipe.nread).toNat ≤ PIPESIZE ∧
      s.removed <+: s.stored ∧ s.stored = s.removed ++ s.pipe.buffered :=
  ⟨_, rfl, rfl, pipe_fifo (reachable_of_foldlM (s := initial Bool fun _ => 0) oneByteRead rfl)⟩

end Pipe
end AsoPracticas.Xv6
