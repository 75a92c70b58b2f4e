import Mathlib.Data.List.FinRange
import Mathlib.Logic.Function.Basic
import Mathlib.Tactic

/-!
# Ptable — processes, processors and `ptable.lock`

The core of `proc.c`: `fork`, `exit`, `wait`, `kill`, `sleep`, `wakeup`, `yield` and `scheduler`, on any
number of processors.  What a processor does between `acquire(&ptable.lock)` and the next `release` or
`swtch` is one step; acquiring, releasing and the two directions of `swtch` are steps of their own, so
the lock is taken by one thread and given back by another as in the source.  `fork` works on its new
process outside the lock, and an interrupt can make it yield there.

A `panic` stops the machine, so it is no step.
-/

namespace AsoPracticas.Xv6.Ptable

def NPROC : Nat := 64

abbrev Slot := Fin NPROC

/-- `initproc`: `userinit` takes the first entry of the table. -/
def initproc : Slot := ⟨0, by decide⟩

inductive ProcState where
  | UNUSED | EMBRYO | SLEEPING | RUNNABLE | RUNNING | ZOMBIE
  deriving DecidableEq, Repr

/-- What a process sleeps on: in `wait` the address of its own entry, elsewhere some other address. -/
inductive Chan where
  | proc (p : Slot)
  | other (a : Nat)
  deriving DecidableEq, Repr

/-- The parts of the code that run with `ptable.lock` held. -/
inductive Section where
  | yield
  | sleep (a : Nat)
  | wakeup (a : Nat)
  | kill (pid : Int)
  | wait
  | exit
  /-- `allocproc`, for `fork`. -/
  | allocproc
  /-- The end of `fork`, that makes the new process `RUNNABLE`. -/
  | start
  deriving DecidableEq, Repr

inductive Cont where
  | yield
  | sleep
  | wait
  | forkret
  | exit
  deriving DecidableEq, Repr

inductive Pc where
  /-- In user space, or in the kernel without `ptable.lock`. -/
  | free
  /-- Holds the lock, at the start of a section. -/
  | locked (s : Section)
  /-- At the `release` that ends a section. -/
  | release
  /-- In the `swtch` of `sched`, which saves its registers on its stack. -/
  | swtch (k : Cont)
  /-- Its registers are saved; no processor is on its stack. -/
  | saved (k : Cont)
  deriving DecidableEq, Repr

/-- How far a process is in `fork`. -/
inductive Forking where
  | none
  /-- `allocproc` has found the entry `np`. -/
  | allocated (np : Slot)
  /-- `np` has its stack, its memory and its parent. -/
  | copied (np : Slot)
  deriving DecidableEq, Repr

/-- An entry of the table, with the position of its thread.  `birth` numbers all the processes that
ever were, and is read by nobody. -/
structure Proc where
  state : ProcState
  pid : Int
  parent : Option Slot
  chan : Option Chan
  killed : Bool
  pc : Pc
  forking : Forking
  /-- What the last `fork`, `wait` or `kill` returned. -/
  result : Int
  birth : Nat

inductive Place where
  /-- At the start of an iteration of the outer loop of `scheduler`, with interrupts enabled. -/
  | idle
  /-- In the inner loop, at entry `i`. -/
  | scan (i : Nat)
  /-- In the `swtch` from the scheduler to a process. -/
  | switchTo (p : Slot)
  /-- On the stack of a process. -/
  | running (p : Slot)
  /-- Back in the scheduler after the `swtch` of a process. -/
  | back (p : Slot)
  deriving DecidableEq, Repr

structure Cpu where
  /-- The process running on this cpu. -/
  proc : Option Slot
  place : Place

/-- The machine with processors `C`.  The last fields are a history: who was born, who forked whom, who
exited, and who was reaped by whom. -/
structure Machine (C : Type) where
  proc : Slot → Proc
  nextpid : Int
  cpu : C → Cpu
  /-- The processor that holds `ptable.lock`. -/
  lock : Option C
  births : Nat
  forks : List (Nat × Nat)
  exits : List Nat
  reaps : List (Nat × Nat)

def Proc.unused : Proc where
  state := .UNUSED
  pid := 0
  parent := none
  chan := none
  killed := false
  pc := .saved .forkret
  forking := .none
  result := 0
  birth := 0

/-- After `userinit`, with all processors at the start of `scheduler`. -/
def boot (C : Type) : Machine C where
  proc := Function.update (fun _ => Proc.unused) initproc { Proc.unused with state := .RUNNABLE, pid := 1 }
  nextpid := 2
  cpu := fun _ => { proc := none, place := .idle }
  lock := none
  births := 1
  forks := []
  exits := []
  reaps := []

section Machine

variable {C : Type}

def Machine.modify (m : Machine C) (p : Slot) (f : Proc → Proc) : Machine C :=
  { m with proc := Function.update m.proc p (f (m.proc p)) }

@[simp] theorem Machine.modify_self (m : Machine C) (p : Slot) (f : Proc → Proc) :
    (m.modify p f).proc p = f (m.proc p) :=
  Function.update_self ..

theorem Machine.modify_of_ne (m : Machine C) {p q : Slot} (f : Proc → Proc) (h : q ≠ p) :
    (m.modify p f).proc q = m.proc q :=
  Function.update_of_ne h ..

@[simp] theorem Machine.lock_modify (m : Machine C) (p : Slot) (f : Proc → Proc) : (m.modify p f).lock = m.lock := rfl

theorem Machine.modify_modify_of_ne (m : Machine C) {p q a : Slot} (f g : Proc → Proc) (hp : a ≠ p)
    (hq : a ≠ q) : ((m.modify q g).modify p f).proc a = m.proc a := by
  rw [Machine.modify_of_ne _ _ hp, Machine.modify_of_ne _ _ hq]

theorem Machine.forall_modify_modify (m : Machine C) {p q : Slot} {f g : Proc → Proc}
    {P : Slot → Proc → Prop} (hpq : p ≠ q) (hp : P p (f (m.proc p))) (hq : P q (g (m.proc q)))
    (hothers : ∀ a, a ≠ p → a ≠ q → P a (m.proc a)) (a : Slot) :
    P a (((m.modify q g).modify p f).proc a) := by
  rcases eq_or_ne a p with rfl | hap
  · rwa [Machine.modify_self, Machine.modify_of_ne _ _ hpq]
  · rcases eq_or_ne a q with rfl | haq
    all_goals grind [Machine.modify_of_ne, Machine.modify_self]

/-- The effect of `wakeup1(chan)` on one entry. -/
def Proc.wake (chan : Chan) (q : Proc) : Proc :=
  if q.state = .SLEEPING ∧ q.chan = some chan then { q with state := .RUNNABLE } else q

def Machine.wakeup1 (m : Machine C) (chan : Chan) : Machine C :=
  { m with proc := fun p => (m.proc p).wake chan }

/-- The section is done: the process goes to its `release`. -/
def Proc.leave (q : Proc) : Proc := { q with pc := .release }

/-- The process returns `result`. -/
def Proc.return (result : Int) (q : Proc) : Proc := { q.leave with result := result }

/-- `sched`, after the state has been set. -/
def Proc.sched (state : ProcState) (k : Cont) (q : Proc) : Proc :=
  { q with state := state, pc := .swtch k }

/-- `sleep`, with `ptable.lock` held. -/
def Proc.sleepOn (chan : Chan) (k : Cont) (q : Proc) : Proc :=
  { q.sched .SLEEPING k with chan := some chan }

def Machine.recordReap (m : Machine C) (parent child : Nat) : Machine C :=
  { m with reaps := m.reaps ++ [(parent, child)] }

def Machine.recordExit (m : Machine C) (birth : Nat) : Machine C :=
  { m with exits := m.exits ++ [birth] }

def Machine.recordFork (m : Machine C) (parent child : Nat) : Machine C :=
  { m with forks := m.forks ++ [(parent, child)] }

/-! ## The sections -/

def Machine.yield (m : Machine C) (p : Slot) : Machine C :=
  m.modify p (Proc.sched .RUNNABLE .yield)

/-- `sleep`, for a lock other than `ptable.lock`. -/
def Machine.sleep (m : Machine C) (p : Slot) (a : Nat) : Machine C :=
  m.modify p (Proc.sleepOn (.other a) .sleep)

def Machine.wakeup (m : Machine C) (p : Slot) (a : Nat) : Machine C :=
  (m.wakeup1 (.other a)).modify p Proc.leave

/-- The effect of `kill` on the entry it finds. -/
def Proc.kill (q : Proc) : Proc :=
  { q with killed := true, state := if q.state = .SLEEPING then .RUNNABLE else q.state }

def Machine.kill (m : Machine C) (p : Slot) (pid : Int) : Machine C :=
  match (List.finRange NPROC).find? fun q => (m.proc q).pid = pid with
  | some q => (m.modify q Proc.kill).modify p (Proc.return 0)
  | none => m.modify p (Proc.return (-1))

/-- `wait` frees the entry of an exited child. -/
def Proc.reap (q : Proc) : Proc :=
  { q with pid := 0, parent := none, killed := false, state := .UNUSED }

/-- One iteration of the outer loop of `wait`. -/
def Machine.wait (m : Machine C) (p : Slot) : Machine C :=
  match (List.finRange NPROC).find? fun q =>
      (m.proc q).parent = some p ∧ (m.proc q).state = .ZOMBIE with
  | some q =>
    ((m.modify q Proc.reap).modify p (Proc.return (m.proc q).pid)).recordReap (m.proc p).birth (m.proc q).birth
  | none =>
    if (¬ ∃ q, (m.proc q).parent = some p) ∨ (m.proc p).killed then
      m.modify p (Proc.return (-1))
    else
      m.modify p (Proc.sleepOn (.proc p) .wait)

/-- `p->parent = initproc`. -/
def Proc.adopt (q : Proc) : Proc := { q with parent := some initproc }

/-- The loop of `exit` at entry `q`: a child of `p` is passed to `initproc`. -/
def Machine.abandon (p : Slot) (m : Machine C) (q : Slot) : Machine C :=
  if (m.proc q).parent = some p then
    if (m.proc q).state = .ZOMBIE then (m.modify q Proc.adopt).wakeup1 (.proc initproc)
    else m.modify q Proc.adopt
  else m

/-- `wakeup1(curproc->parent)`. -/
def Machine.wakeParent (m : Machine C) (p : Slot) : Machine C :=
  match (m.proc p).parent with
  | some r => m.wakeup1 (.proc r)
  | none => m

/-- The loop of `exit`. -/
@[irreducible] def Machine.abandonAll (m : Machine C) (p : Slot) : Machine C :=
  (List.finRange NPROC).foldl (Machine.abandon p) m

def Machine.exit (m : Machine C) (p : Slot) : Machine C :=
  (((m.wakeParent p).abandonAll p).modify p (Proc.sched .ZOMBIE .exit)).recordExit (m.proc p).birth

/-- `allocproc` takes an entry. -/
def Proc.embryo (pid : Int) (birth : Nat) (q : Proc) : Proc :=
  { q with state := .EMBRYO, pid := pid, birth := birth }

/-- The value of a 32-bit `int`. -/
def wrap (i : Int) : Int := i.bmod (2 ^ 32)

/-- `nextpid++`. -/
def Machine.nextBirth (m : Machine C) : Machine C :=
  { m with nextpid := wrap (m.nextpid + 1), births := m.births + 1 }

def Proc.setForking (forking : Forking) (q : Proc) : Proc := { q with forking := forking }

def Proc.setState (state : ProcState) (q : Proc) : Proc := { q with state := state }

/-- The part of `allocproc` under the lock. -/
def Machine.allocproc (m : Machine C) (p : Slot) : Machine C :=
  match (List.finRange NPROC).find? fun q => (m.proc q).state = .UNUSED with
  | some q =>
    ((m.modify q (Proc.embryo m.nextpid m.births)).modify p (Proc.leave ∘ Proc.setForking (.allocated q))).nextBirth
  | none => m.modify p (Proc.return (-1))

def Machine.start (m : Machine C) (p : Slot) : Machine C :=
  match (m.proc p).forking with
  | .copied np =>
    ((m.modify np (Proc.setState .RUNNABLE)).modify p (Proc.return (m.proc np).pid ∘ Proc.setForking .none)).recordFork
      (m.proc p).birth (m.proc np).birth
  | _ => m

/-- What a section does up to its `release` or `swtch`. -/
def Machine.body (m : Machine C) (p : Slot) : Section → Machine C
  | .yield => m.yield p
  | .sleep a => m.sleep p a
  | .wakeup a => m.wakeup p a
  | .kill pid => m.kill p pid
  | .wait => m.wait p
  | .exit => m.exit p
  | .allocproc => m.allocproc p
  | .start => m.start p

/-- Whether a process can be about to run a section.  An interrupt in the middle of `fork` can lead to
`wakeup` and `yield`, but not to another system call. -/
def Section.Enabled (p : Slot) (q : Proc) : Section → Prop
  | .yield => True
  | .sleep _ => True
  | .wakeup _ => True
  | .kill _ => q.forking = .none
  | .wait => q.forking = .none
  -- `exit` panics in `initproc`
  | .exit => q.forking = .none ∧ p ≠ initproc
  | .allocproc => q.forking = .none
  | .start => ∃ np, q.forking = .copied np

instance (p : Slot) (q : Proc) (s : Section) : Decidable (s.Enabled p q) :=
  match s with
  | .yield | .sleep _ | .wakeup _ => inferInstanceAs (Decidable True)
  | .kill _ | .wait | .allocproc => inferInstanceAs (Decidable (q.forking = .none))
  | .exit => inferInstanceAs (Decidable (q.forking = .none ∧ p ≠ initproc))
  | .start =>
    match h : q.forking with
    | .copied np => isTrue ⟨np, h⟩
    | .allocated _ => isFalse fun ⟨_, hc⟩ => by rw [h] at hc; cases hc
    | .none => isFalse fun ⟨_, hc⟩ => by rw [h] at hc; cases hc

/-! ## Steps -/

/-- A thread goes on after its `swtch` has returned.  After `exit` it would be in `panic`. -/
def Proc.resume (q : Proc) : Cont → Option Proc
  | .yield => some q.leave
  | .forkret => some q.leave
  | .sleep => some { q with chan := none }.leave
  -- `sleep` was called with `ptable.lock` itself, which it keeps
  | .wait => some { q with chan := none, pc := .locked .wait }
  | .exit => none

inductive Event (C : Type) where
  /-- The scheduler of a processor takes its next step. -/
  | schedule (c : C)
  /-- The process on a processor acquires the lock for a section. -/
  | enter (c : C) (s : Section)
  /-- The process that holds the lock takes its next step. -/
  | run (c : C)
  /-- `fork` goes on after `allocproc`; the memory for the new process is there, or it is not. -/
  | copy (c : C) (memory : Bool)
  /-- The process on a processor does something for which `trap` sets its `killed`. -/
  | fault (c : C)
  /-- An interrupt in the scheduler, that wakes up those who sleep on `a`. -/
  | interrupt (c : C) (a : Nat)

variable [DecidableEq C]

def Machine.goto (m : Machine C) (c : C) (place : Place) : Machine C :=
  { m with cpu := Function.update m.cpu c { m.cpu c with place := place } }

/-- `c->proc = p`, and on to `place`. -/
def Machine.setProc (m : Machine C) (c : C) (p : Option Slot) (place : Place) : Machine C :=
  { m with cpu := Function.update m.cpu c { proc := p, place := place } }

def Machine.schedule (m : Machine C) (c : C) : Option (Machine C) :=
  match (m.cpu c).place with
  | .idle => if m.lock = none then some ({ m with lock := some c }.goto c (.scan 0)) else none
  | .scan i =>
    if h : i < NPROC then
      if (m.proc ⟨i, h⟩).state = .RUNNABLE then
        some ((m.modify ⟨i, h⟩ (Proc.setState .RUNNING)).setProc c (some ⟨i, h⟩) (.switchTo ⟨i, h⟩))
      else some (m.goto c (.scan (i + 1)))
    else some ({ m with lock := none }.goto c .idle)
  | .switchTo p =>
    match (m.proc p).pc with
    | .saved k => ((m.proc p).resume k).map fun q => (m.modify p fun _ => q).goto c (.running p)
    | _ => none
  | .running _ => none
  | .back p => some (m.setProc c none (.scan (p + 1)))

def Proc.setPc (pc : Pc) (q : Proc) : Proc := { q with pc := pc }

def Machine.enter (m : Machine C) (c : C) (p : Slot) (s : Section) : Option (Machine C) :=
  if (m.proc p).pc = .free ∧ s.Enabled p (m.proc p) ∧ m.lock = none then
    some ({ m with lock := some c }.modify p (Proc.setPc (.locked s)))
  else none

def Machine.run (m : Machine C) (c : C) (p : Slot) : Option (Machine C) :=
  match (m.proc p).pc with
  | .free => none
  | .locked s => some (m.body p s)
  | .release => some ({ m with lock := none }.modify p (Proc.setPc .free))
  | .swtch k => some ((m.modify p (Proc.setPc (.saved k))).goto c (.back p))
  | .saved _ => none

/-- `allocproc` and `fork` set up the new process: its context starts at `forkret`, and its `fork`
returns 0. -/
def Proc.child (parent : Slot) (q : Proc) : Proc :=
  { q with pc := .saved .forkret, parent := some parent, result := 0 }

def Proc.forkFailed (q : Proc) : Proc := { q with forking := .none, result := -1 }

/-- The part of `fork` between its two sections. -/
def Machine.copy (m : Machine C) (p : Slot) (memory : Bool) : Option (Machine C) :=
  match (m.proc p).pc, (m.proc p).forking with
  | .free, .allocated np =>
    if memory then
      some ((m.modify np (Proc.child p)).modify p (Proc.setForking (.copied np)))
    else
      some ((m.modify np (Proc.setState .UNUSED)).modify p (Proc.forkFailed))
  | _, _ => none

def Machine.fault (m : Machine C) (p : Slot) : Option (Machine C) :=
  if (m.proc p).pc = .free then some (m.modify p fun a => { a with killed := true }) else none

def Cpu.running (a : Cpu) : Option Slot :=
  match a.place with
  | .running p => some p
  | _ => none

/-- What an event does, `none` if it cannot happen. -/
def step (m : Machine C) : Event C → Option (Machine C)
  | .schedule c => m.schedule c
  | .enter c s => (m.cpu c).running.bind fun p => m.enter c p s
  | .run c => (m.cpu c).running.bind fun p => m.run c p
  | .copy c memory => (m.cpu c).running.bind fun p => m.copy p memory
  | .fault c => (m.cpu c).running.bind fun p => m.fault p
  | .interrupt c a =>
    if (m.cpu c).place = .idle ∧ m.lock = none then some (m.wakeup1 (.other a)) else none

/-- Some event takes `m` to `m'`. -/
def Step (m m' : Machine C) : Prop := ∃ e, step m e = some m'

end Machine

/-! ## Waking up -/

section Awoken

variable {C : Type} {m m' : Machine C} {a b d : Proc} {chan : Chan} {p q : Slot}

/-- Asleep on `chan`. -/
def Proc.Asleep (a : Proc) (chan : Chan) : Prop := a.state = .SLEEPING ∧ a.chan = some chan

/-- What others can do to a process: wake it up, mark it as killed, or give it another parent. -/
@[grind cases eager]
structure Proc.Awoken (a b : Proc) : Prop where
  state : b.state = a.state ∨ a.state = .SLEEPING ∧ b.state = .RUNNABLE
  pid : b.pid = a.pid
  chan : b.chan = a.chan
  pc : b.pc = a.pc
  forking : b.forking = a.forking
  birth : b.birth = a.birth

theorem Proc.Awoken.refl (a : Proc) : a.Awoken a := ⟨.inl rfl, rfl, rfl, rfl, rfl, rfl⟩

theorem Proc.Awoken.trans (hab : a.Awoken b) (hbd : b.Awoken d) : a.Awoken d where
  state := by
    grind
  pid := hbd.pid.trans hab.pid
  chan := hbd.chan.trans hab.chan
  pc := hbd.pc.trans hab.pc
  forking := hbd.forking.trans hab.forking
  birth := hbd.birth.trans hab.birth

theorem Proc.Awoken.state_eq (h : a.Awoken b) (hstate : a.state ≠ .SLEEPING) : b.state = a.state :=
  h.state.resolve_right fun hsleep => hstate hsleep.1

theorem Proc.Awoken.asleep (h : a.Awoken b) (hb : b.Asleep chan) : a.Asleep chan := by
  refine ⟨?_, h.chan ▸ hb.2⟩
  rcases h.state with hsame | ⟨hsleep, -⟩
  · exact hsame ▸ hb.1
  · exact hsleep

theorem Proc.awoken_wake (a : Proc) (chan : Chan) : a.Awoken (a.wake chan) := by
  unfold Proc.wake
  split
  next hasleep => exact ⟨.inr ⟨hasleep.1, rfl⟩, rfl, rfl, rfl, rfl, rfl⟩
  next => exact .refl a

@[simp] theorem Proc.parent_wake (a : Proc) (chan : Chan) : (a.wake chan).parent = a.parent := by
  unfold Proc.wake
  split <;> rfl

theorem Proc.not_asleep_wake (a : Proc) (chan : Chan) : ¬ (a.wake chan).Asleep chan := by
  intro hasleep
  unfold Proc.wake at hasleep
  split at hasleep
  · cases hasleep.1
  next hnot => exact hnot hasleep

theorem Proc.awoken_kill (a : Proc) : a.Awoken a.kill := by
  refine ⟨?_, rfl, rfl, rfl, rfl, rfl⟩
  unfold Proc.kill
  grind

theorem Machine.awoken_wakeParent (m : Machine C) (p q : Slot) : (m.proc q).Awoken ((m.wakeParent p).proc q) := by
  unfold Machine.wakeParent
  split
  · exact Proc.awoken_wake ..
  · exact .refl _

theorem Machine.parent_wakeParent (m : Machine C) (p q : Slot) :
    ((m.wakeParent p).proc q).parent = (m.proc q).parent := by
  unfold Machine.wakeParent
  split
  · exact Proc.parent_wake ..
  · rfl

theorem Machine.wakeParent_eq (m : Machine C) (p : Slot) :
    m.wakeParent p = { m with proc := (m.wakeParent p).proc } := by
  unfold Machine.wakeParent
  split <;> rfl

/-- The loop of `exit` over the entries `l`. -/
@[grind cases eager]
structure Abandoned (p : Slot) (l : List Slot) (m m' : Machine C) : Prop where
  awoken : ∀ q, (m.proc q).Awoken (m'.proc q)
  parent : ∀ q, (m'.proc q).parent =
    if q ∈ l ∧ (m.proc q).parent = some p then some initproc else (m.proc q).parent
  /-- `initproc` does not sleep through the arrival of an exited child. -/
  zombie : ∀ q ∈ l, (m.proc q).parent = some p → (m.proc q).state = .ZOMBIE →
    ¬ (m'.proc initproc).Asleep (.proc initproc)
  frame : m' = { m with proc := m'.proc }

theorem abandoned_nil (p : Slot) (m : Machine C) : Abandoned p [] m m where
  awoken q := .refl _
  parent q := by simp
  zombie q hq := by simp at hq
  frame := rfl

theorem abandoned_abandon (p : Slot) (m : Machine C) (q : Slot) : Abandoned p [q] m (m.abandon p q) := by
  unfold Machine.abandon
  by_cases hchild : (m.proc q).parent = some p
  · rw [if_pos hchild]
    have hmodify : ∀ a, (m.proc a).Awoken ((m.modify q Proc.adopt).proc a) := by
      intro a
      rcases eq_or_ne a q with rfl | ha
      · rw [Machine.modify_self]
        exact ⟨.inl rfl, rfl, rfl, rfl, rfl, rfl⟩
      · rw [Machine.modify_of_ne _ _ ha]
        exact .refl _
    have hparent : ∀ a, ((m.modify q Proc.adopt).proc a).parent =
        if a ∈ [q] ∧ (m.proc a).parent = some p then some initproc else (m.proc a).parent := by
      intro a
      rcases eq_or_ne a q with rfl | ha
      · simp [hchild, Proc.adopt]
      · simp [Machine.modify_of_ne _ _ ha, ha]
    split
    next =>
      exact
        { awoken := fun a => (hmodify a).trans (Proc.awoken_wake ..)
          parent := fun a => (Proc.parent_wake ..).trans (hparent a)
          zombie := fun _ _ _ _ => Proc.not_asleep_wake _ _
          frame := rfl }
    next hnot =>
      refine ⟨hmodify, hparent, fun a ha _ hzombie => ?_, rfl⟩
      rw [List.mem_singleton] at ha
      exact absurd (ha ▸ hzombie) hnot
  · rw [if_neg hchild]
    refine ⟨fun _ => .refl _, fun a => ?_, fun a ha hp _ => ?_, rfl⟩
    all_goals grind

theorem Abandoned.trans {l l' : List Slot} {m'' : Machine C} (h : Abandoned p l m m')
    (h' : Abandoned p l' m' m'') : Abandoned p (l ++ l') m m'' where
  awoken q := (h.awoken q).trans (h'.awoken q)
  parent q := by
    grind
  zombie q hq hp hz := by
    by_cases hl : q ∈ l
    · exact fun hasleep => h.zombie q hl hp hz ((h'.awoken _).asleep hasleep)
    grind
  frame := by
    rw [h'.frame, h.frame]

theorem abandoned_foldl (p : Slot) (l : List Slot) (m : Machine C) :
    Abandoned p l m (l.foldl (Machine.abandon p) m) := by
  induction l generalizing m with
  | nil => exact abandoned_nil p m
  | cons q l ih => exact (abandoned_abandon p m q).trans (ih _)

theorem abandoned_abandonAll (m : Machine C) (p : Slot) : Abandoned p (List.finRange NPROC) m (m.abandonAll p) := by
  unfold Machine.abandonAll
  exact abandoned_foldl p _ m

end Awoken

end AsoPracticas.Xv6.Ptable
