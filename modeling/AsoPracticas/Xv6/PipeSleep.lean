import AsoPracticas.Xv6.Pipe
import AsoPracticas.Xv6.Ptable

/-!
# PipeSleep — the wakeups of a pipe

`pipe.c` again, with `sleep`, `wakeup` and `kill` of `proc.c` step by step: a process that goes to sleep takes
`ptable.lock`, lets go of `p->lock`, and only then is `SLEEPING`; a `wakeup` has to wait for `ptable.lock`.  Any
number of processes run `pipewrite`, `piperead`, `pipeclose` and `kill` in any interleaving.

* `Local` — what any step can do, from which the invariants `Locks` and `Owed` follow: when a process waits on a
  channel it has a reason to, or the holder of the lock still has a wakeup of that channel before it;
* `pipe_writers_wake` — with the lock free, a writer that sleeps has a reason to;
* `pipe_no_lost_wakeup` — so has a reader, in every run in which a writer that gives up has stored nothing since it
  took the lock;
* `pipe_lost_wakeup` — a writer is killed while it fills the pipe, and the reader sleeps on.

`kfree` at the end of the last `pipeclose` is left out: no process has the pipe any more.
-/

namespace AsoPracticas.Xv6.PipeSleep

open Lib
open Option (ite_none_right_eq_some)
open Ptable (ProcState)

/-! ## Programs -/

/-- The channels `&p->nread` and `&p->nwrite`. -/
inductive Chan where
  | nread
  | nwrite
  deriving DecidableEq, Repr

inductive Call (P : Type) where
  | write (addr : Nat → UInt8) (n : Int)
  | read (n : Int)
  | close (writable : Bool)
  | kill (target : P)

/-- The two calls of `sleep`, with the variables of the caller. -/
inductive Sleep where
  | write (addr : Nat → UInt8) (n : Int) (i : Nat)
  | read (n : Int)

def Sleep.chan : Sleep → Chan
  | .write .. => .nwrite
  | .read _ => .nread

/-- Where a call of `wakeup` returns to. -/
inductive After where
  /-- The `sleep` of `pipewrite`. -/
  | sleep (addr : Nat → UInt8) (n : Int) (i : Nat)
  /-- The `release` at the end of a call. -/
  | release (result : Int)

/-- The statement a process is at.  In `pipewrite`, `fresh` counts the bytes stored since the process last took
`p->lock`; no statement looks at it. -/
inductive Pc (P : Type) where
  | idle (result : Int)
  /-- `acquire(&p->lock)` at the start of a call. -/
  | writeAcquire (addr : Nat → UInt8) (n : Int)
  | readAcquire (n : Int)
  | closeAcquire (writable : Bool)
  /-- The tests of the loops of `pipewrite`. -/
  | writeTest (addr : Nat → UInt8) (n : Int) (i fresh : Nat)
  /-- The assignment to `p->data`. -/
  | writeStore (addr : Nat → UInt8) (n : Int) (i fresh : Nat)
  /-- The test of the first loop of `piperead`. -/
  | readTest (n : Int)
  /-- The tests of its second loop. -/
  | readCopy (n : Int) (i : Nat)
  /-- The assignment to `addr[i]`. -/
  | readTake (n : Int) (i : Nat)
  /-- The assignment to `p->writeopen` or `p->readopen`. -/
  | close (writable : Bool)
  /-- `release(&p->lock)` at the end of a call. -/
  | release (result : Int)
  /-- `wakeup`: its `acquire`, the loop of `wakeup1`, its `release`. -/
  | wakeup (c : Chan) (k : After)
  | wakeup1 (c : Chan) (k : After)
  | wakeupRelease (k : After)
  /-- `sleep`: `acquire(&ptable.lock)`, `release(lk)`, the assignments before `sched`, the switch to the scheduler,
  which lets go of `ptable.lock`, the saved context, and after `sched` the assignment to `p->chan`,
  `release(&ptable.lock)` and `acquire(lk)`. -/
  | sleep (w : Sleep)
  | sleepRelease (w : Sleep)
  | sleepSet (w : Sleep)
  | sleepSwitch (w : Sleep)
  | sleepSched (w : Sleep)
  | sleepTidy (w : Sleep)
  | sleepUnlock (w : Sleep)
  | sleepAcquire (w : Sleep)
  /-- `kill`: its `acquire`, its body, its `release`. -/
  | kill (target : P)
  | kill1 (target : P)
  | killRelease

/-- A process: where it is, and its entry of the process table. -/
structure Thread (P : Type) where
  pc : Pc P
  state : ProcState
  chan : Option Chan
  killed : Bool

structure State (P : Type) where
  pipe : Pipe
  /-- The process that holds `p->lock`. -/
  lock : Option P
  /-- The process that holds `ptable.lock`. -/
  table : Option P
  proc : P → Thread P

/-- After `pipealloc`. -/
def initial (P : Type) (data : Fin PIPESIZE → UInt8) : State P where
  pipe := { data := data, nread := 0, nwrite := 0, readopen := true, writeopen := true }
  lock := none
  table := none
  proc := fun _ => { pc := .idle 0, state := .RUNNING, chan := none, killed := false }

section Step

variable {P : Type} [DecidableEq P]

def State.modify (s : State P) (p : P) (f : Thread P → Thread P) : State P :=
  { s with proc := Function.update s.proc p (f (s.proc p)) }

def State.goto (s : State P) (p : P) (pc : Pc P) : State P :=
  s.modify p fun q => { q with pc := pc }

def State.acquire (s : State P) (p : P) (pc : Pc P) : Option (State P) :=
  if s.lock = none then some ({ s with lock := some p }.goto p pc) else none

/-- `acquire(&ptable.lock)`, if it is free. -/
def State.acquireTable (s : State P) (p : P) (pc : Pc P) : Option (State P) :=
  if s.table = none then some ({ s with table := some p }.goto p pc) else none

def State.release (s : State P) (p : P) (pc : Pc P) : State P :=
  { s with lock := none }.goto p pc

def State.releaseTable (s : State P) (p : P) (pc : Pc P) : State P :=
  { s with table := none }.goto p pc

/-- The body of the loop of `wakeup1`. -/
def Thread.wake (c : Chan) (q : Thread P) : Thread P :=
  if q.state = .SLEEPING ∧ q.chan = some c then { q with state := .RUNNABLE } else q

/-- The body of `kill`, for the process it is about. -/
def Thread.kill (q : Thread P) : Thread P :=
  { q with killed := true, state := if q.state = .SLEEPING then .RUNNABLE else q.state }

/-- `pipewrite` at the tests of its loops. -/
def pipewrite (pipe : Pipe) (killed : Bool) (addr : Nat → UInt8) (n : Int) (i fresh : Nat) : Pc P :=
  if (i : Int) < n then
    if pipe.full then
      -- gives up, without a wakeup
      if !pipe.readopen || killed then .release (-1)
      else .wakeup .nread (.sleep addr n i)
    else .writeStore addr n i fresh
  else .wakeup .nread (.release n)

/-- `piperead` at the test of its first loop. -/
def piperead (pipe : Pipe) (killed : Bool) (n : Int) : Pc P :=
  if pipe.empty && pipe.writeopen then
    if killed then .release (-1) else .sleep (.read n)
  else .readCopy n 0

/-- `piperead` at the tests of its second loop. -/
def pipereadCopy (pipe : Pipe) (n : Int) (i : Nat) : Pc P :=
  if (i : Int) < n then
    if pipe.empty then .wakeup .nwrite (.release i) else .readTake n i
  else .wakeup .nwrite (.release i)

/-- `pipeclose` up to its `wakeup`. -/
def pipeclose (pipe : Pipe) (writable : Bool) : Pipe × Pc P :=
  if writable then ({ pipe with writeopen := false }, .wakeup .nread (.release 0))
  else ({ pipe with readopen := false }, .wakeup .nwrite (.release 0))

def After.pc : After → Pc P
  | .sleep addr n i => .sleep (.write addr n i)
  | .release result => .release result

def Sleep.pc : Sleep → Pc P
  | .write addr n i => .writeTest addr n i 0
  | .read n => .readTest n

/-- The next step of process `p`, `none` if it has to wait. -/
def run (s : State P) (p : P) : Option (State P) :=
  match (s.proc p).pc with
  | .idle _ => none
  | .writeAcquire addr n => s.acquire p (.writeTest addr n 0 0)
  | .readAcquire n => s.acquire p (.readTest n)
  | .closeAcquire writable => s.acquire p (.close writable)
  | .writeTest addr n i fresh => some (s.goto p (pipewrite s.pipe (s.proc p).killed addr n i fresh))
  | .writeStore addr n i fresh =>
    some ({ s with pipe := s.pipe.put (addr i) }.goto p (.writeTest addr n (i + 1) (fresh + 1)))
  | .readTest n => some (s.goto p (piperead s.pipe (s.proc p).killed n))
  | .readCopy n i => some (s.goto p (pipereadCopy s.pipe n i))
  | .readTake n i => some ({ s with pipe := s.pipe.take }.goto p (.readCopy n (i + 1)))
  | .close writable =>
    some ({ s with pipe := (pipeclose (P := P) s.pipe writable).1 }.goto p (pipeclose s.pipe writable).2)
  | .release result => some (s.release p (.idle result))
  | .wakeup c k => s.acquireTable p (.wakeup1 c k)
  | .wakeup1 c k => some ({ s with proc := fun a => (s.proc a).wake c }.goto p (.wakeupRelease k))
  | .wakeupRelease k => some (s.releaseTable p k.pc)
  | .sleep w => s.acquireTable p (.sleepRelease w)
  | .sleepRelease w => some (s.release p (.sleepSet w))
  | .sleepSet w =>
    some (s.modify p fun q => { q with chan := some w.chan, state := .SLEEPING, pc := .sleepSwitch w })
  | .sleepSwitch w => some (s.releaseTable p (.sleepSched w))
  | .sleepSched w =>
    -- the scheduler takes `ptable.lock` and switches to the process
    if (s.proc p).state = .RUNNABLE ∧ s.table = none then
      some ({ s with table := some p }.modify p fun q => { q with state := .RUNNING, pc := .sleepTidy w })
    else none
  | .sleepTidy w => some (s.modify p fun q => { q with chan := none, pc := .sleepUnlock w })
  | .sleepUnlock w => some (s.releaseTable p (.sleepAcquire w))
  | .sleepAcquire w => s.acquire p w.pc
  | .kill target => s.acquireTable p (.kill1 target)
  | .kill1 target => some ((s.modify target Thread.kill).goto p .killRelease)
  | .killRelease => some (s.releaseTable p (.idle 0))

inductive Event (P : Type) where
  | call (p : P) (c : Call P)
  | run (p : P)

def Call.pc : Call P → Pc P
  | .write addr n => .writeAcquire addr n
  | .read n => .readAcquire n
  | .close writable => .closeAcquire writable
  | .kill target => .kill target

/-- What an event does, `none` if it cannot happen. -/
def step (s : State P) : Event P → Option (State P)
  | .call p c =>
    match (s.proc p).pc with
    | .idle _ => some (s.goto p c.pc)
    | _ => none
  | .run p => run s p

end Step

/-! ## What a process has and knows at each statement -/

variable {P : Type}

/-- Between `acquire(&p->lock)` and `release(&p->lock)`. -/
def Pc.locked : Pc P → Bool
  | .writeTest .. | .writeStore .. | .readTest _ | .readCopy .. | .readTake .. | .close _ | .release _ => true
  | .wakeup .. | .wakeup1 .. | .wakeupRelease _ | .sleep _ | .sleepRelease _ => true
  | _ => false

/-- Between `acquire(&ptable.lock)` and `release(&ptable.lock)`. -/
def Pc.tabled : Pc P → Bool
  | .wakeup1 .. | .wakeupRelease _ | .sleepRelease _ | .sleepSet _ | .sleepSwitch _ => true
  | .sleepTidy _ | .sleepUnlock _ | .kill1 _ | .killRelease => true
  | _ => false

/-- The reason to sleep on a channel. -/
def Reason (pipe : Pipe) : Chan → Prop
  | .nread => pipe.empty = true ∧ pipe.writeopen = true
  | .nwrite => pipe.full = true ∧ pipe.readopen = true

def After.Knows (pipe : Pipe) : After → Prop
  | .sleep .. => Reason pipe .nwrite
  | .release _ => True

/-- What the tests have told a process that still holds the lock. -/
def Pc.Knows (pipe : Pipe) : Pc P → Prop
  | .writeStore .. => pipe.full = false
  | .readTake .. => pipe.empty = false
  | .wakeup _ k | .wakeup1 _ k | .wakeupRelease k => k.Knows pipe
  | .sleep w | .sleepRelease w => Reason pipe w.chan
  | _ => True

/-- A wakeup of the channel is still before the process, before it lets go of the lock. -/
def Pc.Owes (c : Chan) : Pc P → Prop
  | .writeTest _ _ _ fresh | .writeStore _ _ _ fresh => c = .nread ∧ 0 < fresh
  | .readCopy .. | .readTake .. => c = .nwrite
  | .wakeup c' _ | .wakeup1 c' _ => c = c'
  | _ => False

def Thread.Asleep (c : Chan) (q : Thread P) : Prop := q.state = .SLEEPING ∧ q.chan = some c

/-- It is asleep, or has let go of `p->lock` and will be asleep before any wakeup can come. -/
def Thread.Waits (c : Chan) (q : Thread P) : Prop :=
  q.Asleep c ∨ ∃ w : Sleep, q.pc = .sleepSet w ∧ w.chan = c

/-! ## What a step can do -/

/-- A step of process `p` on a lock it has or not, before and after: it keeps things as they are, takes the lock when
it is free, or lets go of it. -/
def Handover (p : P) (had has : Bool) (lock lock' : Option P) : Prop :=
  had = has ∧ lock' = lock ∨ had = false ∧ has = true ∧ lock = none ∧ lock' = some p ∨
    had = true ∧ has = false ∧ lock' = none

theorem Handover.holder {p : P} (B B' : P → Bool) {lock lock' : Option P}
    (h : Handover p (B p) (B' p) lock lock') (hothers : ∀ a, a ≠ p → B' a = B a)
    (hlock : ∀ a, lock = some a ↔ B a = true) (a : P) : lock' = some a ↔ B' a = true := by
  have hsingle : ∀ b, B b = true → B a = true → a = b := fun b hb ha =>
    Option.some.inj (((hlock a).2 ha).symm.trans ((hlock b).2 hb))
  by_cases hap : a = p
  · subst hap
    rcases h with ⟨hsame, rfl⟩ | ⟨-, hhas, -, rfl⟩ | ⟨-, hhas, rfl⟩
    · rw [← hsame]
      exact hlock a
    · simp [hhas]
    · simp [hhas]
  · rw [hothers a hap]
    rcases h with ⟨-, rfl⟩ | ⟨-, -, hfree, rfl⟩ | ⟨hhad, -, rfl⟩
    · exact hlock a
    · have hno : B a ≠ true := fun ha => by
        rw [← hlock, hfree] at ha
        cases ha
      simp [hno, Ne.symm hap]
    · have hno : B a ≠ true := fun ha => hap (hsingle p hhad ha)
      simp [hno]

/-- What a step of process `p` does to the rest. -/
@[grind cases eager]
structure Local (s s' : State P) (p : P) : Prop where
  lock : Handover p (s.proc p).pc.locked (s'.proc p).pc.locked s.lock s'.lock
  table : Handover p (s.proc p).pc.tabled (s'.proc p).pc.tabled s.table s'.table
  /-- Only the holder of the lock changes the pipe. -/
  pipe : (s.proc p).pc.locked = true ∨ s'.pipe = s.pipe
  knows : (s.proc p).pc.Knows s.pipe → (s'.proc p).pc.Knows s'.pipe
  others : ∀ a, a ≠ p → (s'.proc a).pc = (s.proc a).pc
  /-- No other process is put to sleep. -/
  sleepers : ∀ a, a ≠ p → ∀ c, (s'.proc a).Waits c → (s.proc a).Waits c

theorem Thread.wake_pc (c : Chan) (q : Thread P) : (q.wake c).pc = q.pc := by
  unfold Thread.wake
  split <;> rfl

theorem Thread.Waits.of_wake {c c' : Chan} {q : Thread P} (h : (q.wake c).Waits c') : q.Waits c' := by
  unfold Thread.wake at h
  split at h
  · rcases h with ⟨hstate, -⟩ | hset
    · cases hstate
    · exact .inr hset
  · exact h

theorem Thread.not_asleep_wake (c : Chan) (q : Thread P) : ¬ (q.wake c).Asleep c := by
  unfold Thread.wake
  split
  · exact fun h => nomatch h.1
  · assumption

theorem Thread.Waits.of_kill {c : Chan} {q : Thread P} (h : q.kill.Waits c) : q.Waits c := by
  rcases h with ⟨hstate, hchan⟩ | hset
  · grind [Thread.kill]
  · exact .inr hset

theorem handover_same {p : P} {had has : Bool} {lock : Option P} (h : had = has) : Handover p had has lock lock :=
  .inl ⟨h, rfl⟩

theorem handover_take {p : P} {had has : Bool} (h : had = false) (h' : has = true) : Handover p had has none (some p) :=
  .inr (.inl ⟨h, h', rfl, rfl⟩)

theorem handover_leave {p : P} {had has : Bool} {lock : Option P} (h : had = true) (h' : has = false) :
    Handover p had has lock none :=
  .inr (.inr ⟨h, h', rfl⟩)

theorem pipewrite_held (pipe : Pipe) (killed : Bool) (addr : Nat → UInt8) (n : Int) (i fresh : Nat) :
    (pipewrite pipe killed addr n i fresh : Pc P).locked = true ∧
    (pipewrite pipe killed addr n i fresh : Pc P).tabled = false ∧
    (pipewrite pipe killed addr n i fresh : Pc P).Knows pipe := by
  unfold pipewrite
  split_ifs with hin hfull hgive
  · exact ⟨rfl, rfl, trivial⟩
  · simp only [Bool.or_eq_true, Bool.not_eq_true', not_or, Bool.not_eq_false] at hgive
    exact ⟨rfl, rfl, hfull, hgive.1⟩
  · exact ⟨rfl, rfl, by simpa [Pc.Knows] using hfull⟩
  · exact ⟨rfl, rfl, trivial⟩

theorem piperead_held (pipe : Pipe) (killed : Bool) (n : Int) :
    (piperead pipe killed n : Pc P).locked = true ∧ (piperead pipe killed n : Pc P).tabled = false ∧
    (piperead pipe killed n : Pc P).Knows pipe := by
  unfold piperead
  split_ifs with hempty hkilled
  · exact ⟨rfl, rfl, trivial⟩
  · rw [Bool.and_eq_true] at hempty
    exact ⟨rfl, rfl, hempty⟩
  · exact ⟨rfl, rfl, trivial⟩

theorem pipereadCopy_held (pipe : Pipe) (n : Int) (i : Nat) :
    (pipereadCopy pipe n i : Pc P).locked = true ∧ (pipereadCopy pipe n i : Pc P).tabled = false ∧
    (pipereadCopy pipe n i : Pc P).Knows pipe := by
  unfold pipereadCopy
  split_ifs with hin hempty
  · exact ⟨rfl, rfl, trivial⟩
  · exact ⟨rfl, rfl, by simpa [Pc.Knows] using hempty⟩
  · exact ⟨rfl, rfl, trivial⟩

theorem After.pc_held (k : After) (pipe : Pipe) :
    (k.pc : Pc P).locked = true ∧ (k.pc : Pc P).tabled = false ∧ (k.Knows pipe → (k.pc : Pc P).Knows pipe) := by
  cases k with
  | sleep addr n i | release result => exact ⟨rfl, rfl, fun h => h⟩

theorem Sleep.pc_held (w : Sleep) (pipe : Pipe) :
    (w.pc : Pc P).locked = true ∧ (w.pc : Pc P).tabled = false ∧ (w.pc : Pc P).Knows pipe := by
  cases w with
  | write addr n i | read n => exact ⟨rfl, rfl, trivial⟩

section Local

variable [DecidableEq P] {s s' : State P} {p : P} {pc pc' : Pc P}

theorem modify_self (s : State P) (p : P) (f : Thread P → Thread P) : (s.modify p f).proc p = f (s.proc p) := by
  simp [State.modify]

theorem modify_other (s : State P) {p a : P} (ha : a ≠ p) (f : Thread P → Thread P) :
    (s.modify p f).proc a = s.proc a := by
  simp [State.modify, ha]

theorem local_modify {pipe : Pipe} {lock table : Option P} {f : Thread P → Thread P}
    (hlock : Handover p (s.proc p).pc.locked (f (s.proc p)).pc.locked s.lock lock)
    (htable : Handover p (s.proc p).pc.tabled (f (s.proc p)).pc.tabled s.table table)
    (hpipe : (s.proc p).pc.locked = true ∨ pipe = s.pipe)
    (hknows : (s.proc p).pc.Knows s.pipe → (f (s.proc p)).pc.Knows pipe) :
    Local s ({ s with pipe := pipe, lock := lock, table := table }.modify p f) p := by
  have hself : ({ s with pipe := pipe, lock := lock, table := table }.modify p f).proc p = f (s.proc p) :=
    modify_self _ p f
  have hother : ∀ a, a ≠ p → ({ s with pipe := pipe, lock := lock, table := table }.modify p f).proc a = s.proc a :=
    fun a ha => modify_other _ ha f
  refine ⟨?_, ?_, hpipe, ?_, fun a ha => ?_, fun a ha c h => ?_⟩
  · rw [hself]
    exact hlock
  · rw [hself]
    exact htable
  · rw [hself]
    exact hknows
  · rw [hother a ha]
  · rwa [hother a ha] at h

theorem local_goto (hpc : (s.proc p).pc = pc) (hlocked : pc.locked = pc'.locked)
    (htabled : pc.tabled = pc'.tabled) (hknows : pc.Knows s.pipe → pc'.Knows s.pipe) : Local s (s.goto p pc') p := by
  subst hpc
  exact local_modify (handover_same hlocked) (handover_same htabled) (.inr rfl) hknows

theorem local_acquire (hpc : (s.proc p).pc = pc) (h : s.acquire p pc' = some s')
    (hlocked : pc.locked = false) (hlocked' : pc'.locked = true) (htabled : pc.tabled = pc'.tabled)
    (hknows : pc'.Knows s.pipe) : Local s s' p := by
  subst hpc
  obtain ⟨hfree, ⟨⟩⟩ := ite_none_right_eq_some.1 h
  refine local_modify ?_ (handover_same htabled) (.inr rfl) fun _ => hknows
  rw [hfree]
  exact handover_take hlocked hlocked'

theorem local_acquireTable (hpc : (s.proc p).pc = pc) (h : s.acquireTable p pc' = some s')
    (htabled : pc.tabled = false) (htabled' : pc'.tabled = true) (hlocked : pc.locked = pc'.locked)
    (hknows : pc.Knows s.pipe → pc'.Knows s.pipe) : Local s s' p := by
  subst hpc
  obtain ⟨hfree, ⟨⟩⟩ := ite_none_right_eq_some.1 h
  refine local_modify (handover_same hlocked) ?_ (.inr rfl) hknows
  rw [hfree]
  exact handover_take htabled htabled'

theorem local_release (hpc : (s.proc p).pc = pc) (hlocked : pc.locked = true)
    (hlocked' : pc'.locked = false) (htabled : pc.tabled = pc'.tabled)
    (hknows : pc.Knows s.pipe → pc'.Knows s.pipe) : Local s (s.release p pc') p := by
  subst hpc
  exact local_modify (f := fun q => { q with pc := pc' }) (handover_leave hlocked hlocked') (handover_same htabled)
    (.inr rfl) hknows

theorem local_releaseTable (hpc : (s.proc p).pc = pc) (htabled : pc.tabled = true)
    (htabled' : pc'.tabled = false) (hlocked : pc.locked = pc'.locked)
    (hknows : pc.Knows s.pipe → pc'.Knows s.pipe) : Local s (s.releaseTable p pc') p := by
  subst hpc
  exact local_modify (f := fun q => { q with pc := pc' }) (handover_same hlocked) (handover_leave htabled htabled')
    (.inr rfl) hknows

theorem local_store {pipe : Pipe} (hpc : (s.proc p).pc = pc) (hlocked : pc.locked = true)
    (hlocked' : pc'.locked = true) (htabled : pc.tabled = pc'.tabled) (hknows : pc'.Knows pipe) :
    Local s ({ s with pipe := pipe }.goto p pc') p := by
  subst hpc
  exact local_modify (handover_same (hlocked.trans hlocked'.symm)) (handover_same htabled) (.inl hlocked)
    fun _ => hknows

theorem local_wakeup1 {c : Chan} {k : After} (hpc : (s.proc p).pc = .wakeup1 c k) :
    Local s ({ s with proc := fun a => (s.proc a).wake c }.goto p (.wakeupRelease k)) p := by
  have hother : ∀ a, a ≠ p → ({ s with proc := fun a => (s.proc a).wake c }.goto p (.wakeupRelease k)).proc a =
      (s.proc a).wake c := fun a ha => modify_other _ ha _
  have hself : (({ s with proc := fun a => (s.proc a).wake c }.goto p (.wakeupRelease k)).proc p).pc =
      .wakeupRelease k := by rw [State.goto, modify_self]
  refine ⟨?_, ?_, .inr rfl, ?_, fun a ha => ?_, fun a ha c' h => ?_⟩
  · rw [hself, hpc]
    exact handover_same rfl
  · rw [hself, hpc]
    exact handover_same rfl
  · rw [hself, hpc]
    exact fun h => h
  · rw [hother a ha, Thread.wake_pc]
  · rw [hother a ha] at h
    exact h.of_wake

theorem local_kill1 {target : P} (hpc : (s.proc p).pc = .kill1 target) :
    Local s ((s.modify target Thread.kill).goto p .killRelease) p := by
  have hself : (((s.modify target Thread.kill).goto p .killRelease).proc p).pc = .killRelease := by
    rw [State.goto, modify_self]
  have hother : ∀ a, a ≠ p → (((s.modify target Thread.kill).goto p .killRelease).proc a = s.proc a ∨
      ((s.modify target Thread.kill).goto p .killRelease).proc a = (s.proc a).kill) := by
    intro a ha
    rw [State.goto, modify_other _ ha]
    by_cases hat : a = target
    · subst hat
      exact .inr (modify_self s a _)
    · exact .inl (modify_other s hat _)
  refine ⟨?_, ?_, .inr rfl, ?_, fun a ha => ?_, fun a ha c h => ?_⟩
  · rw [hself, hpc]
    exact handover_same rfl
  · rw [hself, hpc]
    exact handover_same rfl
  · rw [hself]
    exact fun _ => trivial
  · rcases hother a ha with h | h <;> rw [h]
    rfl
  · rcases hother a ha with h' | h' <;> rw [h'] at h
    · exact h
    · exact h.of_kill

theorem run_local (h : run s p = some s') : Local s s' p := by
  unfold run at h
  split at h <;> rename_i hpc
  · cases h
  · exact local_acquire hpc h rfl rfl rfl trivial
  · exact local_acquire hpc h rfl rfl rfl trivial
  · exact local_acquire hpc h rfl rfl rfl trivial
  · cases h
    obtain ⟨hl, ht, hk⟩ := pipewrite_held (P := P) s.pipe (s.proc p).killed _ _ _ _
    exact local_goto hpc hl.symm ht.symm fun _ => hk
  · cases h
    exact local_store hpc rfl rfl rfl trivial
  · cases h
    obtain ⟨hl, ht, hk⟩ := piperead_held (P := P) s.pipe (s.proc p).killed _
    exact local_goto hpc hl.symm ht.symm fun _ => hk
  · cases h
    obtain ⟨hl, ht, hk⟩ := pipereadCopy_held (P := P) s.pipe _ _
    exact local_goto hpc hl.symm ht.symm fun _ => hk
  · cases h
    exact local_store hpc rfl rfl rfl trivial
  · cases h
    rename_i writable
    cases writable <;> exact local_store hpc rfl rfl rfl trivial
  · cases h
    exact local_release hpc rfl rfl rfl fun _ => trivial
  · exact local_acquireTable hpc h rfl rfl rfl fun h => h
  · cases h
    exact local_wakeup1 hpc
  · cases h
    rename_i k
    obtain ⟨hl, ht, hk⟩ := k.pc_held (P := P) s.pipe
    exact local_releaseTable hpc rfl ht hl.symm hk
  · exact local_acquireTable hpc h rfl rfl rfl fun h => h
  · cases h
    exact local_release hpc rfl rfl rfl fun _ => trivial
  · cases h
    refine local_modify (handover_same ?_) (handover_same ?_) (.inr rfl) fun _ => trivial <;> rw [hpc] <;> rfl
  · cases h
    exact local_releaseTable hpc rfl rfl rfl fun _ => trivial
  · obtain ⟨⟨-, hfree⟩, ⟨⟩⟩ := ite_none_right_eq_some.1 h
    refine local_modify (handover_same ?_) ?_ (.inr rfl) fun _ => trivial
    · rw [hpc]
      rfl
    · rw [hpc, hfree]
      exact handover_take rfl rfl
  · cases h
    refine local_modify (handover_same ?_) (handover_same ?_) (.inr rfl) fun _ => trivial <;> rw [hpc] <;> rfl
  · cases h
    exact local_releaseTable hpc rfl rfl rfl fun _ => trivial
  · rename_i w
    obtain ⟨hl, ht, hk⟩ := w.pc_held (P := P) s.pipe
    exact local_acquire hpc h rfl hl ht.symm hk
  · exact local_acquireTable hpc h rfl rfl rfl fun h => h
  · cases h
    exact local_kill1 hpc
  · cases h
    exact local_releaseTable hpc rfl rfl rfl fun _ => trivial

theorem call_local {c : Call P} {result : Int} (hpc : (s.proc p).pc = .idle result) : Local s (s.goto p c.pc) p := by
  cases c <;> exact local_goto hpc rfl rfl fun _ => trivial

end Local

/-! ## The locks -/

/-- Each lock is held by the process whose place says so, and what the holder of `p->lock` knows is true. -/
@[grind cases eager]
structure Locks (s : State P) : Prop where
  lock : ∀ a, s.lock = some a ↔ (s.proc a).pc.locked = true
  table : ∀ a, s.table = some a ↔ (s.proc a).pc.tabled = true
  knows : ∀ a, (s.proc a).pc.Knows s.pipe

theorem locks_initial (data : Fin PIPESIZE → UInt8) : Locks (initial P data) := by
  refine ⟨fun a => ?_, fun a => ?_, fun a => trivial⟩
  · simp [initial, Pc.locked]
  · simp [initial, Pc.tabled]

theorem Pc.Knows.of_not_locked {pc : Pc P} (h : pc.locked = false) (pipe : Pipe) : pc.Knows pipe := by
  cases pc <;> first | exact trivial | cases h

theorem Locks.local {s s' : State P} {p : P} (h : Locks s) (hstep : Local s s' p) : Locks s' := by
  refine ⟨Handover.holder (fun a => (s.proc a).pc.locked) (fun a => (s'.proc a).pc.locked) hstep.lock ?_ h.lock,
    Handover.holder (fun a => (s.proc a).pc.tabled) (fun a => (s'.proc a).pc.tabled) hstep.table ?_ h.table,
    fun a => ?_⟩
  · intro a ha
    simp only [hstep.others a ha]
  · intro a ha
    simp only [hstep.others a ha]
  · by_cases hap : a = p
    · subst hap
      exact hstep.knows (h.knows a)
    · rw [hstep.others a hap]
      rcases hstep.pipe with hlocked | hpipe
      · -- the pipe may have changed, but then `p` has the lock and `a` has not
        refine Pc.Knows.of_not_locked ?_ _
        grind
      · rw [hpipe]
        exact h.knows a

/-! ## The wakeups -/

/-- Whoever waits on the channel has a reason to, or the holder of the lock will wake it up. -/
def Owed (c : Chan) (s : State P) : Prop :=
  ∀ a, (s.proc a).Waits c → Reason s.pipe c ∨ ∃ h, s.lock = some h ∧ (s.proc h).pc.Owes c

theorem owed_initial (c : Chan) (data : Fin PIPESIZE → UInt8) : Owed c (initial P data) := by
  rintro a (⟨hstate, -⟩ | ⟨w, hpc, -⟩)
  · cases hstate
  · cases hpc

/-- A step of process `p` does not leave a wakeup of the channel undone: it still has one before it, or nobody waits
any more, or it owed none and the reasons that there were are still there. -/
def Pays (c : Chan) (s s' : State P) (p : P) : Prop :=
  (s'.proc p).pc.locked = true ∧ (s'.proc p).pc.Owes c ∨ (∀ a, ¬ (s'.proc a).Waits c) ∨
    ¬ (s.proc p).pc.Owes c ∧ (Reason s.pipe c → Reason s'.pipe c) ∧
      ((s'.proc p).Waits c → (s.proc p).Waits c ∨ Reason s'.pipe c)

theorem Owed.local {c : Chan} {s s' : State P} {p : P} (howed : Owed c s) (hlocks : Locks s)
    (hstep : Local s s' p) (hpays : Pays c s s' p) : Owed c s' := by
  intro a ha
  rcases hpays with ⟨hlocked, howes⟩ | hnone | ⟨hfree, hreason, hself⟩
  · exact .inr ⟨p, ((hlocks.local hstep).lock p).2 hlocked, howes⟩
  · exact absurd ha (hnone a)
  · -- the wait is an old one
    have hold : (s.proc a).Waits c ∨ Reason s'.pipe c := by grind
    rcases hold with hold | hdone
    · rcases howed a hold with hthere | ⟨h, hlock, howes⟩
      · exact .inl (hreason hthere)
      · -- and the holder of the lock, who owes the wakeup, is another process
        have hhp : h ≠ p := fun hhp => hfree (hhp ▸ howes)
        have hheld : (s'.proc h).pc.locked = true := by
          rw [hstep.others h hhp]
          exact (hlocks.lock h).1 hlock
        refine .inr ⟨h, ((hlocks.local hstep).lock h).2 hheld, ?_⟩
        rw [hstep.others h hhp]
        exact howes
    · exact .inl hdone

/-- The step is not that of a writer that gives up, at a full pipe, after it has stored a byte under the lock it
holds. -/
def Settled (s : State P) (p : P) : Prop :=
  ∀ addr n i fresh, (s.proc p).pc = .writeTest addr n i fresh → (i : Int) < n → s.pipe.full = true →
    (!s.pipe.readopen || (s.proc p).killed) = true → fresh = 0

theorem pipereadCopy_owes (pipe : Pipe) (n : Int) (i : Nat) : (pipereadCopy pipe n i : Pc P).Owes .nwrite := by
  unfold pipereadCopy
  split_ifs <;> rfl

theorem Thread.Waits.of_pc {c : Chan} {pc' : Pc P} {q : Thread P} (hset : ∀ w, pc' ≠ .sleepSet w)
    (h : ({ q with pc := pc' } : Thread P).Waits c) : q.Waits c := by
  rcases h with hasleep | ⟨w, hpc, -⟩
  · exact .inl hasleep
  · exact absurd hpc (hset w)

theorem Pc.ne_sleepSet {pc : Pc P} (h : pc.locked = true) (w : Sleep) : pc ≠ .sleepSet w := by
  rintro rfl
  cases h

section Pays

variable [DecidableEq P] {s s' : State P} {p : P} {c : Chan} {pc pc' : Pc P}

theorem pays_modify {lock table : Option P} {f : Thread P → Thread P} (hpc : (s.proc p).pc = pc) (howes : ¬ pc.Owes c)
    (hwaits : (f (s.proc p)).Waits c → (s.proc p).Waits c ∨ Reason s.pipe c) :
    Pays c s ({ s with lock := lock, table := table }.modify p f) p := by
  refine .inr (.inr ⟨hpc ▸ howes, fun h => h, fun h => hwaits ?_⟩)
  rwa [modify_self] at h

theorem pays_jump {lock table : Option P} (hpc : (s.proc p).pc = pc) (howes : ¬ pc.Owes c)
    (hset : ∀ w, pc' ≠ .sleepSet w) : Pays c s ({ s with lock := lock, table := table }.goto p pc') p :=
  pays_modify hpc howes fun h => .inl (Thread.Waits.of_pc hset h)

theorem pays_acquire (h : s.acquire p pc' = some s') (hpc : (s.proc p).pc = pc) (howes : ¬ pc.Owes c)
    (hset : ∀ w, pc' ≠ .sleepSet w) : Pays c s s' p := by
  obtain ⟨-, ⟨⟩⟩ := ite_none_right_eq_some.1 h
  exact pays_jump hpc howes hset

theorem pays_acquireTable (h : s.acquireTable p pc' = some s') (hpc : (s.proc p).pc = pc) (howes : ¬ pc.Owes c)
    (hset : ∀ w, pc' ≠ .sleepSet w) : Pays c s s' p := by
  obtain ⟨-, ⟨⟩⟩ := ite_none_right_eq_some.1 h
  exact pays_jump hpc howes hset

theorem pays_goto {s1 : State P} (hlocked : pc'.locked = true) (howes : pc'.Owes c) : Pays c s (s1.goto p pc') p := by
  refine .inl ?_
  rw [State.goto, modify_self]
  exact ⟨hlocked, howes⟩

/-- A change of the pipe by a process that owes nothing, where there was no reason to wait or there still is. -/
theorem pays_store {pipe : Pipe} (hpc : (s.proc p).pc = pc) (howes : ¬ pc.Owes c) (hset : ∀ w, pc' ≠ .sleepSet w)
    (hreason : Reason s.pipe c → Reason pipe c) : Pays c s ({ s with pipe := pipe }.goto p pc') p := by
  refine .inr (.inr ⟨hpc ▸ howes, hreason, fun h => ?_⟩)
  rw [State.goto, modify_self] at h
  exact .inl (Thread.Waits.of_pc hset h)

theorem pays_writeTest {addr : Nat → UInt8} {n : Int} {i fresh : Nat} (hpc : (s.proc p).pc = .writeTest addr n i fresh)
    (hsettled : c = .nread → Settled s p) :
    Pays c s (s.goto p (pipewrite s.pipe (s.proc p).killed addr n i fresh)) p := by
  by_cases howes : (Pc.writeTest addr n i fresh : Pc P).Owes c
  · obtain ⟨rfl, hfresh⟩ := howes
    refine pays_goto (pipewrite_held ..).1 ?_
    unfold pipewrite
    split_ifs with hin hfull hgive
    · exact absurd (hsettled rfl addr n i fresh hpc hin hfull hgive) (by omega)
    · rfl
    · exact ⟨rfl, hfresh⟩
    · rfl
  · exact pays_jump hpc howes (Pc.ne_sleepSet (pipewrite_held ..).1)

theorem pays_writeStore {addr : Nat → UInt8} {n : Int} {i fresh : Nat} {b : UInt8}
    (hpc : (s.proc p).pc = .writeStore addr n i fresh) (hlocks : Locks s) :
    Pays c s ({ s with pipe := s.pipe.put b }.goto p (.writeTest addr n (i + 1) (fresh + 1))) p := by
  cases c with
  | nread => exact pays_goto rfl ⟨rfl, Nat.succ_pos _⟩
  | nwrite =>
    -- nobody has a reason to wait for room
    have hroom : s.pipe.full = false := by
      have hknows := hlocks.knows p
      rwa [hpc] at hknows
    refine pays_store hpc (fun h => nomatch h.1) (fun w h => nomatch h) fun h => ?_
    exact absurd (h.1.symm.trans hroom) (by decide)

theorem pays_readTake {n : Int} {i : Nat} (hpc : (s.proc p).pc = .readTake n i) (hlocks : Locks s) :
    Pays c s ({ s with pipe := s.pipe.take }.goto p (.readCopy n (i + 1))) p := by
  cases c with
  | nread =>
    have hsome : s.pipe.empty = false := by
      have hknows := hlocks.knows p
      rwa [hpc] at hknows
    refine pays_store hpc (fun h => nomatch h) (fun w h => nomatch h) fun h => ?_
    exact absurd (h.1.symm.trans hsome) (by decide)
  | nwrite => exact pays_goto rfl rfl

theorem pays_close {writable : Bool} (hpc : (s.proc p).pc = .close writable) :
    Pays c s ({ s with pipe := (pipeclose (P := P) s.pipe writable).1 }.goto p (pipeclose s.pipe writable).2) p := by
  cases writable with
  | true =>
    cases c with
    | nread => exact pays_goto rfl rfl
    | nwrite => exact pays_store hpc (fun h => h) (fun w h => nomatch h) fun h => h
  | false =>
    cases c with
    | nread => exact pays_store hpc (fun h => h) (fun w h => nomatch h) fun h => h
    | nwrite => exact pays_goto rfl rfl

/-- After the loop of `wakeup1` nobody waits: who is not asleep yet would hold `ptable.lock`. -/
theorem pays_wakeup1 {c' : Chan} {k : After} (hpc : (s.proc p).pc = .wakeup1 c' k) (hlocks : Locks s) :
    Pays c s ({ s with proc := fun a => (s.proc a).wake c' }.goto p (.wakeupRelease k)) p := by
  by_cases hc : c = c'
  · subst hc
    refine .inr (.inl fun a ha => ?_)
    by_cases hap : a = p
    · subst hap
      rw [State.goto, modify_self] at ha
      rcases ha with hasleep | ⟨w, hset, -⟩
      · exact Thread.not_asleep_wake c (s.proc a) hasleep
      · cases hset
    · rw [State.goto, modify_other _ hap] at ha
      rcases ha with hasleep | ⟨w, hset, -⟩
      · exact Thread.not_asleep_wake c (s.proc a) hasleep
      · simp only [Thread.wake_pc] at hset
        have ha : s.table = some a := (hlocks.table a).2 (by rw [hset]; rfl)
        have hp : s.table = some p := (hlocks.table p).2 (by rw [hpc]; rfl)
        exact hap (Option.some.inj (ha.symm.trans hp))
  · refine .inr (.inr ⟨?_, fun h => h, fun h => .inl ?_⟩)
    · rw [hpc]
      exact hc
    · rw [State.goto, modify_self] at h
      exact (Thread.Waits.of_pc (Pc.ne_sleepSet rfl) h).of_wake

theorem pays_kill1 {target : P} (hpc : (s.proc p).pc = .kill1 target) :
    Pays c s ((s.modify target Thread.kill).goto p .killRelease) p := by
  refine .inr (.inr ⟨?_, fun h => h, fun h => .inl ?_⟩)
  · rw [hpc]
    exact fun h => h
  · rw [State.goto, modify_self] at h
    have hplace : ∀ w, (Pc.killRelease : Pc P) ≠ .sleepSet w := fun w h => nomatch h
    have hwaits := Thread.Waits.of_pc hplace h
    by_cases hpt : p = target
    · subst hpt
      rw [modify_self] at hwaits
      exact hwaits.of_kill
    · rwa [modify_other _ hpt] at hwaits

theorem run_pays (h : run s p = some s') (hlocks : Locks s) (hsettled : c = .nread → Settled s p) :
    Pays c s s' p := by
  unfold run at h
  split at h <;> rename_i hpc
  · cases h
  · exact pays_acquire h hpc (fun h => h) fun w h => nomatch h
  · exact pays_acquire h hpc (fun h => h) fun w h => nomatch h
  · exact pays_acquire h hpc (fun h => h) fun w h => nomatch h
  · cases h
    exact pays_writeTest hpc hsettled
  · cases h
    exact pays_writeStore hpc hlocks
  · cases h
    exact pays_jump hpc (fun h => h) (Pc.ne_sleepSet (piperead_held ..).1)
  · cases h
    cases c with
    | nread => exact pays_jump hpc (fun h => nomatch h) (Pc.ne_sleepSet (pipereadCopy_held ..).1)
    | nwrite => exact pays_goto (pipereadCopy_held ..).1 (pipereadCopy_owes ..)
  · cases h
    exact pays_readTake hpc hlocks
  · cases h
    exact pays_close hpc
  · cases h
    exact pays_jump hpc (fun h => h) fun w h => nomatch h
  · rename_i c' k
    by_cases hc : c = c'
    · obtain ⟨-, ⟨⟩⟩ := ite_none_right_eq_some.1 h
      exact pays_goto rfl hc
    · exact pays_acquireTable h hpc hc fun w h => nomatch h
  · cases h
    exact pays_wakeup1 hpc hlocks
  · cases h
    rename_i k
    exact pays_jump hpc (fun h => h) (Pc.ne_sleepSet (k.pc_held s.pipe).1)
  · exact pays_acquireTable h hpc (fun h => h) fun w h => nomatch h
  · cases h
    rename_i w
    -- now it waits, and what it has seen is still so
    have hknows := hlocks.knows p
    rw [hpc] at hknows
    refine pays_modify (f := fun q => { q with pc := .sleepSet w }) hpc (fun h => h) fun h => ?_
    rcases h with hasleep | ⟨w', hset, rfl⟩
    · exact .inl (.inl hasleep)
    · cases hset
      exact .inr hknows
  · cases h
    rename_i w
    refine pays_modify hpc (fun h => h) fun h => ?_
    rcases h with ⟨-, hchan⟩ | ⟨w', hset, -⟩
    · exact .inl (.inr ⟨w, hpc, Option.some.inj hchan⟩)
    · cases hset
  · cases h
    exact pays_jump hpc (fun h => h) fun w h => nomatch h
  · obtain ⟨-, ⟨⟩⟩ := ite_none_right_eq_some.1 h
    refine pays_modify hpc (fun h => h) fun h => ?_
    rcases h with ⟨hstate, -⟩ | ⟨w', hset, -⟩
    · cases hstate
    · cases hset
  · cases h
    refine pays_modify hpc (fun h => h) fun h => ?_
    rcases h with ⟨-, hchan⟩ | ⟨w', hset, -⟩
    · cases hchan
    · cases hset
  · cases h
    exact pays_jump hpc (fun h => h) fun w h => nomatch h
  · rename_i w
    exact pays_acquire h hpc (fun h => h) (Pc.ne_sleepSet (w.pc_held s.pipe).1)
  · exact pays_acquireTable h hpc (fun h => h) fun w h => nomatch h
  · cases h
    exact pays_kill1 hpc
  · cases h
    exact pays_jump hpc (fun h => h) fun w h => nomatch h

theorem call_pays {call : Call P} {result : Int} (hpc : (s.proc p).pc = .idle result) :
    Pays c s (s.goto p call.pc) p := by
  cases call <;> exact pays_jump hpc (fun h => h) fun w h => nomatch h

end Pays

/-! ## Runs -/

theorem Owed.reason {c : Chan} {s : State P} (h : Owed c s) (hlock : s.lock = none) {a : P}
    (ha : (s.proc a).Asleep c) : Reason s.pipe c := by
  rcases h a (.inl ha) with hreason | ⟨holder, hheld, -⟩
  · exact hreason
  · rw [hlock] at hheld
    cases hheld

section Runs

variable [DecidableEq P] {s s' : State P} {c : Chan} {data : Fin PIPESIZE → UInt8}

/-- The steps that are not those of a writer that gives up with bytes to announce. -/
def Event.Settled (s : State P) : Event P → Prop
  | .call .. => True
  | .run p => PipeSleep.Settled s p

theorem step_local {e : Event P} (h : step s e = some s') :
    ∃ p, Local s s' p ∧ (Locks s → (c = .nread → e.Settled s) → Pays c s s' p) := by
  cases e with
  | call p call => grind [step, call_local, call_pays]
  | run p => exact ⟨p, run_local h, fun hlocks hsettled => run_pays h hlocks hsettled⟩

/-- Some event takes `s` to `s'`. -/
def Step (s s' : State P) : Prop := ∃ e, step s e = some s'

/-- The same, but not a writer that gives up after it has stored a byte under the lock it holds. -/
def SettledStep (s s' : State P) : Prop := ∃ e : Event P, e.Settled s ∧ step s e = some s'

theorem Locks.step {e : Event P} (h : Locks s) (hstep : step s e = some s') : Locks s' := by
  obtain ⟨p, hlocal, -⟩ := step_local (c := .nread) hstep
  exact h.local hlocal

theorem Owed.step {e : Event P} (h : Owed c s) (hlocks : Locks s) (hsettled : c = .nread → e.Settled s)
    (hstep : step s e = some s') : Owed c s' := by
  obtain ⟨p, hlocal, hpays⟩ := step_local (c := c) hstep
  exact h.local hlocks hlocal (hpays hlocks hsettled)

theorem not_full_of_empty {pipe : Pipe} (h : pipe.empty = true) : pipe.full = false := by
  rw [Pipe.empty_iff] at h
  by_contra hfull
  rw [Bool.not_eq_false, Pipe.full_iff, h] at hfull
  exact absurd hfull (by decide)

/-- Writers are woken up in every run: with the lock free, who sleeps on `&nwrite` has a reason to. -/
theorem pipe_writers_wake (hreach : Relation.ReflTransGen Step (initial P data) s) (hlock : s.lock = none) {a : P}
    (ha : (s.proc a).Asleep .nwrite) : s.pipe.full = true ∧ s.pipe.readopen = true := by
  have hinv : Locks s ∧ Owed .nwrite s :=
    invariant_of_reachable (fun s => Locks s ∧ Owed .nwrite s) ⟨locks_initial data, owed_initial .nwrite data⟩
      (fun t t' ⟨hlocks, hwrite⟩ ⟨e, he⟩ => ⟨hlocks.step he, hwrite.step hlocks (fun h => nomatch h) he⟩) hreach
  exact hinv.2.reason hlock ha

/-- No lost wakeup: with the lock free a process sleeps on `&nread` only if the pipe is empty and its write end open,
on `&nwrite` only if it is full and its read end open, so that readers and writers never sleep together. -/
theorem pipe_no_lost_wakeup (hreach : Relation.ReflTransGen SettledStep (initial P data) s) (hlock : s.lock = none) :
    (∀ a, (s.proc a).Asleep .nread → s.pipe.empty = true ∧ s.pipe.writeopen = true) ∧
    (∀ a, (s.proc a).Asleep .nwrite → s.pipe.full = true ∧ s.pipe.readopen = true) ∧
    ∀ a b, (s.proc a).Asleep .nread → ¬ (s.proc b).Asleep .nwrite := by
  have hinv : Locks s ∧ Owed .nread s :=
    invariant_of_reachable (fun s => Locks s ∧ Owed .nread s) ⟨locks_initial data, owed_initial .nread data⟩
      (fun t t' ⟨hlocks, hread⟩ ⟨e, hsettled, he⟩ => ⟨hlocks.step he, hread.step hlocks (fun _ => hsettled) he⟩) hreach
  have hwrite : ∀ a, (s.proc a).Asleep .nwrite → s.pipe.full = true ∧ s.pipe.readopen = true :=
    fun a => pipe_writers_wake (Relation.ReflTransGen.mono (fun _ _ ⟨e, _, he⟩ => ⟨e, he⟩) _ _ hreach) hlock
  refine ⟨fun a ha => hinv.2.reason hlock ha, hwrite, fun a b ha hb => ?_⟩
  have hempty := (hinv.2.reason hlock ha).1
  exact absurd ((hwrite b hb).1.symm.trans (not_full_of_empty hempty)) (by decide)

end Runs

/-! ## A reader, a writer that fills the pipe, and a third process that kills the writer -/

/-- The reader goes to sleep on the empty pipe, and with the lock free it has a reason to. -/
theorem pipe_no_lost_wakeup_reader :
    ∃ s : State (Fin 3), Relation.ReflTransGen SettledStep (initial (Fin 3) fun _ => 0) s ∧
      s.lock = none ∧ (s.proc 0).Asleep .nread ∧ s.pipe.empty = true ∧ s.pipe.writeopen = true := by
  have hreach : Relation.ReflTransGen SettledStep (initial (Fin 3) fun _ => 0) _ :=
    .head ⟨.call 0 (.read 1), trivial, rfl⟩ <| .head ⟨.run 0, (fun _ _ _ _ h => nomatch h), rfl⟩ <|
    .head ⟨.run 0, (fun _ _ _ _ h => nomatch h), rfl⟩ <| .head ⟨.run 0, (fun _ _ _ _ h => nomatch h), rfl⟩ <|
    .head ⟨.run 0, (fun _ _ _ _ h => nomatch h), rfl⟩ <| .head ⟨.run 0, (fun _ _ _ _ h => nomatch h), rfl⟩ <|
    .head ⟨.run 0, (fun _ _ _ _ h => nomatch h), rfl⟩ .refl
  have h := pipe_no_lost_wakeup hreach rfl
  exact ⟨_, hreach, rfl, ⟨rfl, rfl⟩, h.1 0 ⟨rfl, rfl⟩⟩

/-- The writer is killed as soon as it has the lock for its 513 bytes. -/
def isKilled : List (Event (Fin 3)) :=
  [.call 0 (.read 1), .run 0, .run 0, .run 0, .run 0, .run 0, .run 0,
    .call 1 (.write (fun _ => 7) 513), .run 1, .call 2 (.kill 1), .run 2, .run 2, .run 2]

/-- The killed writer has stored `k` bytes while the reader sleeps. -/
@[grind cases eager]
structure Filling (k : Nat) (s : State (Fin 3)) : Prop where
  pc : (s.proc 1).pc = .writeTest (fun _ => 7) 513 k k
  killed : (s.proc 1).killed = true
  reader : (s.proc 0).Asleep .nread
  nread : s.pipe.nread = 0
  nwrite : s.pipe.nwrite = UInt32.ofNat k

theorem Filling.full_iff {k : Nat} {s : State (Fin 3)} (h : Filling k s) (hk : k ≤ 512) :
    s.pipe.full = true ↔ k = 512 := by
  have hcount : s.pipe.count = k := by
    simp only [Pipe.count, h.nread, h.nwrite, UInt32.sub_zero, UInt32.toNat_ofNat']
    omega
  rw [Pipe.full_iff, hcount]
  rfl

theorem Filling.store {k : Nat} {s : State (Fin 3)} (h : Filling k s) (hk : k < 512) :
    ∃ s', Relation.ReflTransGen Step s s' ∧ Filling (k + 1) s' := by
  have hroom : s.pipe.full = false := by
    rw [← Bool.not_eq_true, h.full_iff hk.le]
    omega
  have htest : step s (.run 1) = some (s.goto 1 (.writeStore (fun _ => 7) 513 k k)) := by
    grind [step, run, pipewrite]
  have hstore : step (s.goto 1 (.writeStore (fun _ => 7) 513 k k)) (.run 1) =
      some ({ s.goto 1 (.writeStore (fun _ => 7) 513 k k) with pipe := s.pipe.put 7 }.goto 1
        (.writeTest (fun _ => 7) 513 (k + 1) (k + 1))) := by
    rfl
  refine ⟨_, .head ⟨_, htest⟩ (.head ⟨_, hstore⟩ .refl), ?_⟩
  refine ⟨?_, ?_, ?_, h.nread, ?_⟩
  · rw [State.goto, modify_self]
  · simp only [State.goto, modify_self]
    exact h.killed
  · grind [State.goto, modify_other]
  · show s.pipe.nwrite + 1 = UInt32.ofNat (k + 1)
    rw [h.nwrite, UInt32.ofNat_add]
    rfl

theorem Filling.run {s : State (Fin 3)} (h : Filling 0 s) {k : Nat} (hk : k ≤ 512) :
    ∃ s', Relation.ReflTransGen Step s s' ∧ Filling k s' := by
  induction k with
  | zero => exact ⟨s, .refl, h⟩
  | succ k ih =>
    obtain ⟨s1, hreach, hfill⟩ := ih (by omega)
    obtain ⟨s2, hmore, hfill'⟩ := hfill.store (by omega)
    exact ⟨s2, hreach.trans hmore, hfill'⟩

/-- A lost wakeup: the killed writer leaves a full pipe and a sleeping reader, with both ends open. -/
theorem pipe_lost_wakeup :
    ∃ s : State (Fin 3), Relation.ReflTransGen Step (initial (Fin 3) fun _ => 0) s ∧ s.lock = none ∧
      (s.proc 0).Asleep .nread ∧ (s.proc 1).pc = .idle (-1) ∧ s.pipe.full = true ∧ s.pipe.empty = false := by
  have hstart : ∃ s, isKilled.foldlM step (initial (Fin 3) fun _ => 0) = some s ∧ Filling 0 s :=
    ⟨_, rfl, rfl, rfl, ⟨rfl, rfl⟩, rfl, rfl⟩
  obtain ⟨s0, hrun, hfill⟩ := hstart
  obtain ⟨s1, hmore, hfull⟩ := hfill.run (Nat.le_refl 512)
  have hpipe : s1.pipe.full = true := (hfull.full_iff (Nat.le_refl 512)).2 rfl
  have hgive : step s1 (.run 1) = some (s1.goto 1 (.release (-1))) := by
    simp only [step, PipeSleep.run, hfull.pc, pipewrite, hpipe, hfull.killed, Bool.or_true, if_true]
    rfl
  have hleave : step (s1.goto 1 (.release (-1))) (.run 1) =
      some ((s1.goto 1 (.release (-1))).release 1 (.idle (-1))) := by
    simp only [step, PipeSleep.run, State.goto, modify_self]
  refine ⟨_, (reachable_of_foldlM isKilled hrun).trans (hmore.tail ⟨_, hgive⟩ |>.tail ⟨_, hleave⟩),
    rfl, ?_, ?_, hpipe, ?_⟩
  · simp only [State.release, State.goto]
    exact hfull.reader
  · rw [State.release, State.goto, modify_self]
  · by_contra hempty
    rw [Bool.not_eq_false] at hempty
    exact absurd (hpipe.symm.trans (not_full_of_empty hempty)) (by decide)

end AsoPracticas.Xv6.PipeSleep
