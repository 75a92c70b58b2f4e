import AsoPracticas.Lib.Threads
import AsoPracticas.Lib.Transition
import AsoPracticas.Xv6.Disk
import Mathlib.Data.List.Basic
import Mathlib.Tactic

/-!
# GroupCommit — begin_op, log_write and end_op of any number of processes

`begin_op` admits an operation if the log has room for it, `log_write` records a block of an
operation in the header kept in memory, and the `end_op` of the last outstanding operation commits
the blocks of all of them.  The header and the two counters are protected by `log.lock`, except that
`log_write` tests them before it takes the lock and that `commit` runs without it.

* `Pc` — the points where a process can be preempted between two accesses to the log.
-/

namespace AsoPracticas.Xv6.GroupCommit

open Lib
open Function (update update_of_ne)

/-! ## The model -/

inductive Panic where
  | tooBig
  | outsideOfTrans
  | committing
  deriving DecidableEq, Repr

/-- Why the system stops: a panic, or a store past the end of `log.lh.block`. -/
inductive Stop where
  | panic (p : Panic)
  | overflow
  deriving DecidableEq, Repr

/-- Where a process is.  A process inside an operation carries the distinct blocks of its calls of `log_write` since
its `begin_op`, and in such a call the block of that one as well. -/
inductive Pc where
  /-- Not in an operation. -/
  | outside
  /-- In `begin_op`, about to take the lock: at its call or after it was woken. -/
  | beginAcquire
  /-- At the top of the loop of `begin_op`, with the lock. -/
  | beginLoop
  /-- In `begin_op` after `log.outstanding += 1`, with the lock. -/
  | beginRelease
  /-- Asleep on `&log` in `begin_op`. -/
  | asleep
  /-- After `begin_op` has returned. -/
  | inOp (logged : List UInt32)
  /-- In `log_write` after its two tests, about to take the lock. -/
  | logAcquire (logged : List UInt32) (b : UInt32)
  /-- In `log_write`, with the lock. -/
  | logLocked (logged : List UInt32) (b : UInt32)
  /-- In `end_op`, about to take the lock. -/
  | endAcquire (logged : List UInt32)
  /-- In `end_op`, with the lock. -/
  | endLocked (logged : List UInt32)
  /-- In `end_op` after `log.outstanding -= 1`, with the lock. -/
  | endTest
  /-- At the call of `commit`, without the lock. -/
  | commitStart
  /-- In `commit` before `log.lh.n = 0`. -/
  | commitWritten
  /-- After `commit`, about to take the lock again. -/
  | commitDone
  /-- After `commit`, with the lock. -/
  | doneLocked
  /-- After `log.committing = 0`, with the lock. -/
  | doneWakeup
  deriving DecidableEq, Repr

/-- A commit: the blocks of the header that it writes, and the blocks logged by each of the
operations that ended since the last one. -/
structure Commit where
  blocks : List UInt32
  ops : List (List UInt32)

/-- The fields of `log` that change, and where each process is.  `finished` and `commits` record what
happened: no step looks at them. -/
structure State (ι : Type*) where
  lock : Option ι
  outstanding : Int
  committing : Bool
  lh : List UInt32
  pc : ι → Pc
  stop : Option Stop
  finished : List (List UInt32)
  commits : List Commit

variable {ι : Type*} {s : State ι}

/-- After `initlog`, before any operation. -/
def initial : State ι where
  lock := none
  outstanding := 0
  committing := false
  lh := []
  pc := fun _ => .outside
  stop := none
  finished := []
  commits := []

def State.panic (s : State ι) (e : Panic) : State ι :=
  { s with stop := some (.panic e) }

/-- `wakeup(&log)` makes a sleeping process runnable inside `sleep`, which takes the lock again. -/
def wake : Pc → Pc
  | .asleep => .beginAcquire
  | c => c

def State.wakeup (s : State ι) : State ι :=
  { s with pc := wake ∘ s.pc }

theorem wake_congr {β : Type*} (f : Pc → β) (hf : f .beginAcquire = f .asleep) (c : Pc) : f (wake c) = f c := by
  cases c <;> first | rfl | exact hf

/-- The test of `begin_op`: `log.lh.n + (log.outstanding+1)*MAXOPBLOCKS > LOGSIZE`. -/
def State.full (s : State ι) : Prop :=
  (s.lh.length : Int) + (s.outstanding + 1) * MAXOPBLOCKS > LOGSIZE

instance (s : State ι) : Decidable s.full := inferInstanceAs (Decidable (_ > _))

section Steps

variable [DecidableEq ι]

def State.goto (s : State ι) (p : ι) (c : Pc) : State ι :=
  { s with pc := update s.pc p c }

def State.acquire (s : State ι) (p : ι) (c : Pc) : Option (State ι) :=
  if s.lock = none then some { s.goto p c with lock := some p } else none

def State.release (s : State ι) (p : ι) (c : Pc) : State ι :=
  { s.goto p c with lock := none }

/-- The body of `log_write` under the lock: a block already in the header is absorbed.  `none` is a store past the end
of `log.lh.block`. -/
def absorb (lh : List UInt32) (b : UInt32) : Option (List UInt32) :=
  if b ∈ lh then some lh
  else if lh.length < LOGSIZE then some (lh ++ [b])
  else none

/-- The next access of process `p`, if it is inside one of the functions and not waiting. -/
def advance (s : State ι) (p : ι) : Option (State ι) :=
  match s.pc p with
  | .beginAcquire => s.acquire p .beginLoop
  | .beginLoop =>
    -- `sleep(&log, &log.lock)` gives the lock back and sleeps in one step
    if s.committing then some (s.release p .asleep)
    else if s.full then some (s.release p .asleep)
    else some { s.goto p .beginRelease with outstanding := s.outstanding + 1 }
  | .beginRelease => some (s.release p (.inOp []))
  | .logAcquire logged b => s.acquire p (.logLocked logged b)
  | .logLocked logged b =>
    match absorb s.lh b with
    -- the call, which has its block since it was made, is one of the calls of the operation that have returned
    | some lh => some { s.release p (.inOp (logged.insert b)) with lh := lh }
    | none => some { s with stop := some .overflow }
  | .endAcquire logged => s.acquire p (.endLocked logged)
  | .endLocked logged =>
    let s' := { s with outstanding := s.outstanding - 1 }
    if s.committing then some (s'.panic .committing)
    else some { s'.goto p .endTest with finished := logged :: s.finished }
  | .endTest =>
    if s.outstanding = 0 then some { s.release p .commitStart with committing := true }
    else some (s.wakeup.release p .outside)
  | .commitStart =>
    if s.lh.length > 0 then
      some { s.goto p .commitWritten with commits := ⟨s.lh, s.finished⟩ :: s.commits }
    else some { s.goto p .commitDone with finished := [] }
  | .commitWritten => some { s.goto p .commitDone with lh := [], finished := [] }
  | .commitDone => s.acquire p .doneLocked
  | .doneLocked => some { s.goto p .doneWakeup with committing := false }
  | .doneWakeup => some (s.wakeup.release p .outside)
  | .outside | .asleep | .inOp _ => none

/-- The two tests of `log_write`, made before it takes the lock. -/
def logTests (size : Int) (s : State ι) (p : ι) (logged : List UInt32) (b : UInt32) : State ι :=
  if (s.lh.length : Int) ≥ LOGSIZE ∨ (s.lh.length : Int) ≥ size - 1 then s.panic .tooBig
  else if s.outstanding < 1 then s.panic .outsideOfTrans
  else s.goto p (.logAcquire logged b)

/-- What can happen next: a process calls one of the functions, goes on inside one, or is made
runnable by `kill` while it sleeps. -/
inductive Event (ι : Type*) where
  | beginOp (p : ι)
  | logWrite (p : ι) (b : UInt32)
  | endOp (p : ι)
  | run (p : ι)
  | kill (p : ι)

/-- One event, for a log area of `size` blocks; `none` if it cannot happen. -/
def step (size : Int) (s : State ι) (e : Event ι) : Option (State ι) :=
  if s.stop ≠ none then none
  else
    match e with
    | .beginOp p => if s.pc p = .outside then some (s.goto p .beginAcquire) else none
    | .logWrite p b =>
      match s.pc p with
      | .inOp logged => some (logTests size s p logged b)
      | _ => none
    | .endOp p =>
      match s.pc p with
      | .inOp logged => some (s.goto p (.endAcquire logged))
      | _ => none
    | .run p => advance s p
    | .kill p => if s.pc p = .asleep then some (s.goto p .beginAcquire) else none

/-- The states reached from `initial` by events that meet `ok`. -/
def Reachable (size : Int) (ok : State ι → Event ι → Prop) : State ι → Prop :=
  Relation.ReflTransGen (fun s s' => ∃ e, ok s e ∧ step size s e = some s') initial

end Steps

/-! ## The invariant -/

def Pc.holds : Pc → Bool
  | .beginLoop | .beginRelease | .logLocked .. | .endLocked _ | .endTest | .doneLocked
  | .doneWakeup => true
  | _ => false

/-- One for the points of an operation that counts in `log.outstanding`. -/
def Pc.active : Pc → ℕ
  | .beginRelease | .inOp _ | .logAcquire .. | .logLocked .. | .endAcquire _ | .endLocked _ => 1
  | _ => 0

/-- One for the points between setting `log.committing` and clearing it. -/
def Pc.commits : Pc → ℕ
  | .commitStart | .commitWritten | .commitDone | .doneLocked => 1
  | _ => 0

/-- The blocks logged by the operation that a process is in. -/
def Pc.logged : Pc → List UInt32
  | .inOp l | .logAcquire l _ | .logLocked l _ | .endAcquire l | .endLocked l => l
  | _ => []

/-- The points of a process with the lock whose next access wakes the sleepers or starts a commit. -/
def Pc.wakes : Pc → Bool
  | .endTest | .doneWakeup => true
  | _ => false

@[grind cases eager]
structure Inv (s : State ι) : Prop where
  owned : Owned Pc.holds s.lock s.pc
  nonneg : 0 ≤ s.outstanding
  counted : Total Pc.active s.pc s.outstanding.toNat
  committer : Total Pc.commits s.pc s.committing.toNat
  idle : s.committing = true → s.outstanding = 0
  endTest : ∀ p, s.pc p = .endTest → s.committing = false
  contents : ∀ b, b ∈ s.lh ↔ (∃ op ∈ s.finished, b ∈ op) ∨ ∃ p, b ∈ (s.pc p).logged
  sleepers : ∀ p, s.pc p = .asleep → s.committing = true ∨ s.full ∨ ∃ q, (s.pc q).wakes = true
  complete : ∀ c ∈ s.commits, ∀ b, b ∈ c.blocks ↔ ∃ op ∈ c.ops, b ∈ op
  running : s.stop ≠ some (.panic .outsideOfTrans) ∧ s.stop ≠ some (.panic .committing)

theorem Inv.initial : Inv (initial : State ι) where
  owned := by simp [Owned, GroupCommit.initial, Pc.holds]
  nonneg := le_rfl
  counted := Total.zero _ fun _ => rfl
  committer := Total.zero _ fun _ => rfl
  idle := fun _ => rfl
  endTest := fun _ _ => rfl
  contents := by simp [GroupCommit.initial, Pc.logged]
  sleepers := by simp [GroupCommit.initial]
  complete := by simp [GroupCommit.initial]
  running := by simp [GroupCommit.initial]

theorem Inv.outstanding_pos (h : Inv s) {p : ι} {c : Pc} (hp : s.pc p = c)
    (hc : c.active = 1) : 1 ≤ s.outstanding := by
  have hle := h.counted.le p
  rw [hp] at hle
  omega

theorem Inv.not_active (h : Inv s) (hc : s.committing = true) (p : ι) : (s.pc p).active = 0 := by
  have hle := h.counted.le p
  have hidle := h.idle hc
  omega

theorem Inv.not_committing (h : Inv s) {p : ι} {c : Pc} (hp : s.pc p = c)
    (hc : c.active = 1) : s.committing = false := by
  by_contra hcom
  have hzero := h.not_active (by simpa using hcom) p
  rw [hp] at hzero
  omega

theorem Inv.committing_of (h : Inv s) {p : ι} {c : Pc} (hp : s.pc p = c)
    (hc : c.commits = 1) : s.committing = true := by
  have hle := h.committer.le p
  grind

theorem Pc.logged_eq_nil {c : Pc} (hc : c.active = 0) : c.logged = [] := by
  cases c <;> first | rfl | cases hc

theorem Inv.logged_eq_nil (h : Inv s) (hc : s.committing = true) (p : ι) : (s.pc p).logged = [] :=
  Pc.logged_eq_nil (h.not_active hc p)

theorem Inv.contents_committing (h : Inv s) (hc : s.committing = true) (b : UInt32) :
    b ∈ s.lh ↔ ∃ op ∈ s.finished, b ∈ op := by
  simp [h.contents b, h.logged_eq_nil hc]

theorem Inv.sleepers_of_unlocked (h : Inv s) (hlock : s.lock = none) {p : ι}
    (hp : s.pc p = .asleep) : s.committing = true ∨ s.full := by
  rcases h.sleepers p hp with hcom | hfull | ⟨q, hq⟩
  · exact .inl hcom
  · exact .inr hfull
  · have hholds : (s.pc q).holds = true := by
      cases hc : s.pc q <;> simp_all [Pc.wakes, Pc.holds]
    have hq' := (h.owned q).1 hholds
    rw [hlock] at hq'
    cases hq'

/-! ## One step keeps it -/

theorem Inv.stopped (h : Inv s) {r : Stop} (hout : r ≠ .panic .outsideOfTrans)
    (hcom : r ≠ .panic .committing) : Inv { s with stop := some r } :=
  { h with running := ⟨by simpa using hout, by simpa using hcom⟩ }

section Steps

variable [DecidableEq ι] {s s' : State ι} {p : ι} {c0 c : Pc} {size : Int}

theorem acquire_eq_some {c : Pc} (hs : s.acquire p c = some s') :
    s.lock = none ∧ s' = { s.goto p c with lock := some p } := by
  rw [State.acquire] at hs
  grind

theorem exists_logged_goto {pc : ι → Pc} (hp : pc p = c0) (hlogged : c.logged = c0.logged) (b : UInt32) :
    (∃ q, b ∈ (update pc p c q).logged) ↔ ∃ q, b ∈ (pc q).logged := by
  apply exists_congr
  grind

theorem Inv.contents_goto (h : Inv s) (hp : s.pc p = c0) (hlogged : c.logged = c0.logged)
    (b : UInt32) : b ∈ s.lh ↔ (∃ op ∈ s.finished, b ∈ op) ∨ ∃ q, b ∈ (update s.pc p c q).logged :=
  (h.contents b).trans (or_congr_right (exists_logged_goto hp hlogged b).symm)

theorem Inv.sleepers_goto (h : Inv s) (hp : s.pc p = c0) (hwakes : c0.wakes = false)
    (hsleep : c = .asleep → s.committing = true ∨ s.full) {q : ι}
    (hq : update s.pc p c q = .asleep) :
    s.committing = true ∨ s.full ∨ ∃ r, (update s.pc p c r).wakes = true := by
  by_cases hqp : q = p
  · grind
  · rw [update_of_ne hqp] at hq
    refine (h.sleepers q hq).imp_right (.imp_right ?_)
    rintro ⟨r, hr⟩
    have hrp : r ≠ p := by
      rintro rfl
      rw [hp, hwakes] at hr
      cases hr
    exact ⟨r, by rwa [update_of_ne hrp]⟩

theorem endTest_goto {pc : ι → Pc} {c : Pc} {q : ι} (hc : c ≠ .endTest)
    (hq : update pc p c q = .endTest) : pc q = .endTest := by
  by_cases hqp : q = p
  all_goals grind

theorem Inv.move (h : Inv s) {lock : Option ι} (hp : s.pc p = c0)
    (howned : Owned Pc.holds lock (update s.pc p c)) (hactive : c.active = c0.active)
    (hcommits : c.commits = c0.commits) (hlogged : c.logged = c0.logged)
    (hwakes : c0.wakes = false) (hc : c.wakes = false)
    (hsleep : c = .asleep → s.committing = true ∨ s.full) :
    Inv { s.goto p c with lock := lock } where
  __ := h
  owned := howned
  counted := h.counted.goto hp (congrArg _ hactive.symm)
  committer := h.committer.goto hp (congrArg _ hcommits.symm)
  endTest := fun q hq => h.endTest q (endTest_goto (by rintro rfl; cases hc) hq)
  contents := h.contents_goto hp hlogged
  sleepers := fun _ hq => h.sleepers_goto hp hwakes hsleep hq

theorem Inv.goto (h : Inv s) (hp : s.pc p = c0) (hholds : c.holds = c0.holds)
    (hactive : c.active = c0.active) (hcommits : c.commits = c0.commits)
    (hlogged : c.logged = c0.logged) (hwakes : c0.wakes = false) (hc : c.wakes = false)
    (hsleep : c ≠ .asleep) : Inv (s.goto p c) :=
  h.move hp (h.owned.goto hp hholds) hactive hcommits hlogged hwakes hc fun h => absurd h hsleep

theorem Inv.acquire (h : Inv s) (hs : s.acquire p c = some s') (hp : s.pc p = c0)
    (hholds : c.holds = true) (hactive : c.active = c0.active) (hcommits : c.commits = c0.commits)
    (hlogged : c.logged = c0.logged) (hwakes : c0.wakes = false) (hc : c.wakes = false)
    (hsleep : c ≠ .asleep) : Inv s' := by
  obtain ⟨hlock, rfl⟩ := acquire_eq_some hs
  have howned := h.owned
  rw [hlock] at howned
  exact h.move hp (howned.acquire hholds) hactive hcommits hlogged hwakes hc fun h => absurd h hsleep

theorem Inv.admit (h : Inv s) (hp : s.pc p = .beginLoop) (hc : s.committing = false) :
    Inv { s.goto p .beginRelease with outstanding := s.outstanding + 1 } where
  __ := h
  owned := h.owned.goto hp rfl
  nonneg := by
    have := h.nonneg
    change 0 ≤ s.outstanding + 1
    omega
  counted := by
    have := h.nonneg
    apply h.counted.goto hp
    change (s.outstanding + 1).toNat + 0 = s.outstanding.toNat + 1
    omega
  committer := h.committer.goto hp rfl
  idle := by
    intro hcom
    rw [show s.committing = true from hcom] at hc
    cases hc
  endTest := fun q hq => h.endTest q (endTest_goto (by decide) hq)
  contents := h.contents_goto hp rfl
  sleepers := by
    intro q hq
    -- one more operation makes the log fuller
    refine (h.sleepers_goto hp rfl (by simp) hq).imp_right (.imp_left fun hfull => ?_)
    simp only [State.full, State.goto, MAXOPBLOCKS] at hfull ⊢
    omega

theorem exists_logged_insert {pc : ι → Pc} {b : UInt32} (hp : pc p = c0)
    (hlogged : c.logged = c0.logged.insert b) (a : UInt32) :
    (∃ q, a ∈ (update pc p c q).logged) ↔ a = b ∨ ∃ q, a ∈ (pc q).logged := by
  constructor
  · grind
  · rintro (rfl | ⟨q, hq⟩)
    · exact ⟨p, by simp [hlogged]⟩
    · by_cases hqp : q = p
      · subst hqp
        exact ⟨q, by simp [hlogged, ← hp, hq]⟩
      · exact ⟨q, by rwa [update_of_ne hqp]⟩

theorem absorb_eq_some {lh lh' : List UInt32} {b : UInt32} (h : absorb lh b = some lh') :
    (∀ a, a ∈ lh' ↔ a = b ∨ a ∈ lh) ∧ lh.length ≤ lh'.length := by
  unfold absorb at h
  split_ifs at h with hb
  · cases h
    exact ⟨fun a => ⟨.inr, fun ha => ha.elim (fun e => e ▸ hb) id⟩, le_rfl⟩
  · cases h
    exact ⟨by simp [or_comm], by simp⟩

/-- A `log_write` puts its block in the header and changes nothing else. -/
theorem Inv.absorb (h : Inv s) {l lh : List UInt32} {b : UInt32} (hp : s.pc p = .logLocked l b)
    (hlh : absorb s.lh b = some lh) : Inv { s.release p (.inOp (l.insert b)) with lh := lh } := by
  obtain ⟨hmem, hlen⟩ := absorb_eq_some hlh
  exact { h with
    owned := h.owned.release hp rfl rfl
    counted := h.counted.goto hp rfl
    committer := h.committer.goto hp rfl
    endTest := fun q hq => h.endTest q (endTest_goto (by simp) hq)
    contents := by
      intro a
      simp only [State.release, State.goto, exists_logged_insert hp (c := .inOp (l.insert b)) rfl, hmem, h.contents a,
        or_left_comm]
    sleepers := by
      intro q hq
      refine (h.sleepers_goto hp rfl (by simp) hq).imp_right (.imp_left fun hfull => ?_)
      simp only [State.full, State.release, State.goto] at hfull ⊢
      omega }

theorem Inv.logTests (h : Inv s) {l : List UInt32} {b : UInt32}
    (hp : s.pc p = .inOp l) : Inv (logTests size s p l b) := by
  have hpos : 1 ≤ s.outstanding := h.outstanding_pos hp rfl
  rw [GroupCommit.logTests]
  split
  · exact h.stopped (by simp) (by simp)
  · rw [if_neg (by omega)]
    exact h.goto hp rfl rfl rfl rfl rfl rfl (by simp)

theorem Inv.finish (h : Inv s) {l : List UInt32} (hp : s.pc p = .endLocked l) :
    Inv { s.goto p .endTest with outstanding := s.outstanding - 1, finished := l :: s.finished } where
  __ := h
  owned := h.owned.goto hp rfl
  nonneg := by
    have := h.outstanding_pos hp rfl
    change 0 ≤ s.outstanding - 1
    omega
  counted := by
    have := h.outstanding_pos hp rfl
    apply h.counted.goto hp
    change (s.outstanding - 1).toNat + 1 = s.outstanding.toNat + 0
    omega
  committer := h.committer.goto hp rfl
  idle := by
    intro hc
    have hnot := h.not_committing hp rfl
    rw [show s.committing = true from hc] at hnot
    cases hnot
  endTest := fun _ _ => h.not_committing hp rfl
  contents := by
    intro b
    have hsplit : (∃ q, b ∈ (s.pc q).logged) ↔ b ∈ l ∨ ∃ q, b ∈ (update s.pc p .endTest q).logged := by
      constructor
      · rintro ⟨q, hq⟩
        by_cases hqp : q = p
        · subst hqp
          rw [hp] at hq
          exact .inl hq
        · exact .inr ⟨q, by rwa [update_of_ne hqp]⟩
      · rintro (hb | ⟨q, hq⟩)
        · exact ⟨p, by rwa [hp]⟩
        · by_cases hqp : q = p
          all_goals grind [Pc.logged]
    simp only [State.goto, List.exists_mem_cons_iff, h.contents b, hsplit, or_assoc, or_left_comm]
  sleepers := fun _ _ => .inr (.inr ⟨p, by simp [State.goto, Pc.wakes]⟩)

theorem Inv.startCommit (h : Inv s) (hp : s.pc p = .endTest) (hzero : s.outstanding = 0) :
    Inv { s.release p .commitStart with committing := true } where
  __ := h
  owned := h.owned.release hp rfl rfl
  counted := h.counted.goto hp rfl
  committer := by
    have hcom := h.committer
    rw [h.endTest p hp] at hcom
    exact hcom.goto hp rfl
  idle := fun _ => hzero
  endTest := by
    intro q hq
    -- the lock allows only one process at `endTest`, and it is gone
    have hq' := endTest_goto (by decide) hq
    have hqp : q = p := h.owned.unique (by rw [hq']; rfl) (by rw [hp]; rfl)
    subst hqp
    simp [State.release, State.goto] at hq
  contents := h.contents_goto hp rfl
  sleepers := fun _ _ => .inl rfl

theorem Inv.commitMove (h : Inv s) {lh : List UInt32} {fin : List (List UInt32)}
    {cs : List Commit} (hp : s.pc p = c0) (hc0 : c0.commits = 1) (hholds : c.holds = c0.holds)
    (hactive : c.active = c0.active) (hc : c.commits = 1) (hlogged : c.logged = c0.logged)
    (hcontents : ∀ b, b ∈ lh ↔ ∃ op ∈ fin, b ∈ op)
    (hcomplete : ∀ k ∈ cs, ∀ b, b ∈ k.blocks ↔ ∃ op ∈ k.ops, b ∈ op) :
    Inv { s.goto p c with lh := lh, finished := fin, commits := cs } where
  __ := h
  owned := h.owned.goto hp hholds
  counted := h.counted.goto hp (congrArg _ hactive.symm)
  committer := h.committer.goto hp (congrArg _ (hc0.trans hc.symm))
  endTest := fun q hq => h.endTest q (endTest_goto (by rintro rfl; cases hc) hq)
  contents := by
    intro b
    rw [State.goto, exists_logged_goto hp hlogged]
    simp [hcontents b, h.logged_eq_nil (h.committing_of hp hc0)]
  sleepers := fun _ _ => .inl (h.committing_of hp hc0)
  complete := hcomplete

theorem Inv.endCommit (h : Inv s) (hp : s.pc p = .doneLocked) :
    Inv { s.goto p .doneWakeup with committing := false } where
  __ := h
  owned := h.owned.goto hp rfl
  counted := h.counted.goto hp rfl
  committer := by
    have hcom := h.committer
    rw [h.committing_of hp rfl] at hcom
    exact hcom.goto hp rfl
  idle := by simp
  endTest := fun _ _ => rfl
  contents := h.contents_goto hp rfl
  sleepers := fun _ _ => .inr (.inr ⟨p, by simp [State.goto, Pc.wakes]⟩)

theorem Inv.wakeup (h : Inv s) (hp : (s.pc p).wakes = true) : Inv (s.wakeup.release p .outside) := by
  have hpoint : (wake ∘ s.pc) p = .endTest ∨ (wake ∘ s.pc) p = .doneWakeup := by
    cases hc : s.pc p <;> simp_all [wake, Pc.wakes]
  exact { h with
    owned := by
      rcases hpoint with hp | hp <;> exact (h.owned.comp (wake_congr _ rfl)).release hp rfl rfl
    counted := by
      rcases hpoint with hp | hp <;> exact (h.counted.comp (wake_congr _ rfl)).goto hp rfl
    committer := by
      rcases hpoint with hp | hp <;> exact (h.committer.comp (wake_congr _ rfl)).goto hp rfl
    endTest := by
      intro q hq
      apply h.endTest q
      have hq' : (wake ∘ s.pc) q = .endTest := endTest_goto (by decide) hq
      cases hc : s.pc q <;> simp_all [wake]
    contents := by
      intro b
      have hnone : (∃ q, b ∈ (update (wake ∘ s.pc) p .outside q).logged) ↔ ∃ q, b ∈ ((wake ∘ s.pc) q).logged := by
        rcases hpoint with hp | hp <;> exact exists_logged_goto hp (c := .outside) rfl b
      simpa [State.release, State.goto, State.wakeup, hnone, wake_congr Pc.logged rfl] using h.contents b
    sleepers := by
      intro q hq
      exfalso
      by_cases hqp : q = p
      · subst hqp
        simp [State.release, State.goto] at hq
      · simp only [State.release, State.goto, State.wakeup, update_of_ne hqp] at hq
        cases hc : s.pc q <;> simp_all [wake] }

theorem Inv.advance (h : Inv s) (hs : advance s p = some s') : Inv s' := by
  unfold GroupCommit.advance at hs
  split at hs
  · rename_i hp
    exact h.acquire hs hp rfl rfl rfl rfl rfl rfl (by simp)
  · rename_i hp
    have hsleep : (s.committing = true ∨ s.full) → Inv (s.release p .asleep) := fun hwait =>
      h.move hp (h.owned.release hp rfl rfl) rfl rfl rfl rfl rfl fun _ => hwait
    split at hs
    · cases hs
      exact hsleep (.inl ‹_›)
    · split at hs
      · cases hs
        exact hsleep (.inr ‹_›)
      · cases hs
        exact h.admit hp (by simpa using ‹¬ s.committing = true›)
  · rename_i hp
    cases hs
    exact h.move hp (h.owned.release hp rfl rfl) rfl rfl rfl rfl rfl (by simp)
  · rename_i hp
    exact h.acquire hs hp rfl rfl rfl rfl rfl rfl (by simp)
  · rename_i hp
    split at hs <;> cases hs
    · exact h.absorb hp ‹_›
    · exact h.stopped (by simp) (by simp)
  · rename_i hp
    exact h.acquire hs hp rfl rfl rfl rfl rfl rfl (by simp)
  · rename_i l hp
    have hnot := h.not_committing hp rfl
    rw [if_neg (by simp [hnot])] at hs
    cases hs
    exact h.finish hp
  · rename_i hp
    split at hs
    · cases hs
      exact h.startCommit hp ‹_›
    · cases hs
      exact h.wakeup (by rw [hp]; rfl)
  · rename_i hp
    have hcom := h.committing_of hp rfl
    split at hs
    · cases hs
      refine h.commitMove hp rfl rfl rfl rfl rfl (h.contents_committing hcom) ?_
      intro k hk
      rcases List.mem_cons.1 hk with rfl | hk
      · exact h.contents_committing hcom
      · exact h.complete k hk
    · cases hs
      have hlh : s.lh = [] := List.eq_nil_of_length_eq_zero (by omega)
      exact h.commitMove hp rfl rfl rfl rfl rfl (by simp [State.goto, hlh]) h.complete
  · rename_i hp
    cases hs
    exact h.commitMove hp rfl rfl rfl rfl rfl (by simp) h.complete
  · rename_i hp
    exact h.acquire hs hp rfl rfl rfl rfl rfl rfl (by simp)
  · rename_i hp
    cases hs
    exact h.endCommit hp
  · rename_i hp
    cases hs
    exact h.wakeup (by rw [hp]; rfl)
  all_goals cases hs

theorem Inv.step (h : Inv s) {e : Event ι} (hs : step size s e = some s') : Inv s' := by
  unfold GroupCommit.step at hs
  split at hs
  · cases hs
  · split at hs
    · split at hs
      · rename_i hp
        cases hs
        exact h.goto hp rfl rfl rfl rfl rfl rfl (by simp)
      · cases hs
    · grind [step, logTests]
    · split at hs
      · rename_i hp
        cases hs
        exact h.goto hp rfl rfl rfl rfl rfl rfl (by simp)
      · cases hs
    · exact h.advance hs
    · split at hs
      · rename_i hp
        cases hs
        exact h.goto hp rfl rfl rfl rfl rfl rfl (by simp)
      · cases hs

theorem inv_of_reachable {ok : State ι → Event ι → Prop} (h : Reachable size ok s) :
    Inv s :=
  invariant_of_reachable Inv Inv.initial (fun _ _ hinv ⟨_, _, hs⟩ => hinv.step hs) h

/-! ## Isolation -/

theorem Inv.outstanding_advance (h : Inv s) (hc : s.committing = true)
    (hs : GroupCommit.advance s p = some s') : s'.outstanding = s.outstanding := by
  have hnot := h.not_active hc p
  unfold GroupCommit.advance at hs
  split at hs <;> rename_i hp <;> rw [hp] at hnot
  case h_1 | h_11 => rw [(acquire_eq_some hs).2]; rfl
  case h_2 =>
    rw [if_pos hc] at hs
    cases hs
    rfl
  -- inside an operation
  case h_3 | h_4 | h_5 | h_6 | h_7 => cases hnot
  case h_8 | h_9 => split at hs <;> cases hs <;> rfl
  all_goals cases hs <;> rfl

theorem Inv.outstanding_step (h : Inv s) (hc : s.committing = true) {e : Event ι}
    (hs : GroupCommit.step size s e = some s') : s'.outstanding = s.outstanding := by
  unfold GroupCommit.step at hs
  split at hs
  · cases hs
  · cases e with
    | run p => exact h.outstanding_advance hc hs
    | logWrite p b =>
      have hnot := h.not_active hc p
      cases hp : s.pc p <;> simp_all [Pc.active]
    | _ =>
      dsimp only at hs
      split at hs <;> cases hs
      rfl

theorem Inv.logWrite_eq_none (h : Inv s) (hc : s.committing = true) (size : Int) (p : ι) (b : UInt32) :
    GroupCommit.step size s (.logWrite p b) = none := by
  have hnot := h.not_active hc p
  cases hp : s.pc p <;> simp_all [GroupCommit.step, Pc.active]

/-- In every interleaving: a commit runs only with no outstanding operation; while it runs no
`begin_op` returns and no `log_write` executes, so that the blocks committed are exactly those logged
by the operations that have ended; two of the panics cannot happen; and with the lock free a process
sleeps in `begin_op` only if a commit runs or the log has no room for its operation. -/
theorem group_commit_isolated (h : Reachable size (fun _ _ => True) s) :
    (s.committing = true → s.outstanding = 0 ∧ ∀ p, (s.pc p).active = 0 ∧
      (∀ b, step size s (.logWrite p b) = none) ∧
      ∀ e s', step size s e = some s' → (s'.pc p).active = 0) ∧
    (∀ c ∈ s.commits, ∀ b, b ∈ c.blocks ↔ ∃ op ∈ c.ops, b ∈ op) ∧
    s.stop ≠ some (.panic .committing) ∧ s.stop ≠ some (.panic .outsideOfTrans) ∧
    ∀ p, s.pc p = .asleep → s.lock = none → s.committing = false →
      ¬ (s.lh.length : Int) + (s.outstanding + 1) * MAXOPBLOCKS ≤ LOGSIZE := by
  have hinv := inv_of_reachable h
  refine ⟨fun hc => ⟨hinv.idle hc, fun p => ⟨hinv.not_active hc p, hinv.logWrite_eq_none hc size p, ?_⟩⟩,
    hinv.complete, hinv.running.2, hinv.running.1, ?_⟩
  · intro e s' hs
    have hzero := (hinv.outstanding_step hc hs).trans (hinv.idle hc)
    have hle := (hinv.step hs).counted.le p
    omega
  · intro p hp hlock hc hroom
    rcases hinv.sleepers_of_unlocked hlock hp with hcom | hfull
    · rw [hc] at hcom
      cases hcom
    · exact absurd hroom (not_le.2 hfull)

/-- Plays a list of events, each of which meets `ok`. -/
def play (size : Int) (ok : State ι → Event ι → Prop) [∀ s e, Decidable (ok s e)] (s : State ι) :
    List (Event ι) → Option (State ι)
  | [] => some s
  | e :: es => if ok s e then (step size s e).bind fun s' => play size ok s' es else none

theorem reachable_play {ok : State ι → Event ι → Prop} [∀ s e, Decidable (ok s e)]
    {es : List (Event ι)} (hs : Reachable size ok s) (h : play size ok s es = some s') :
    Reachable size ok s' := by
  induction es generalizing s with
  | nil =>
    cases h
    exact hs
  | cons e es ih =>
    rw [play] at h
    split at h
    · rename_i hok
      obtain ⟨t, ht, h⟩ := Option.bind_eq_some_iff.1 h
      exact ih (hs.tail ⟨e, hok, ht⟩) h
    · cases h

end Steps

/-- One process logs a block and commits while another one calls `begin_op`. -/
def commitWithSleeper : List (Event ℕ) :=
  [.beginOp 0, .run 0, .run 0, .run 0, .logWrite 0 70, .run 0, .run 0, .endOp 0, .run 0, .run 0,
    .run 0, .run 0, .beginOp 1, .run 1, .run 1]

theorem group_commit_isolated_sleeper :
    ∃ s : State ℕ, s.committing = true ∧ s.pc 1 = .asleep ∧ s.outstanding = 0 ∧ s.commits = [⟨[70], [[70]]⟩] ∧
      ∀ c ∈ s.commits, ∀ b, b ∈ c.blocks ↔ ∃ op ∈ c.ops, b ∈ op := by
  have hsome : (play LOGSIZE (fun _ _ => True) initial commitWithSleeper).isSome = true := by decide
  have hreach := reachable_play .refl (Option.some_get hsome).symm
  have hcommitting : (Option.get _ hsome).committing = true := rfl
  have hiso := group_commit_isolated hreach
  exact ⟨_, hcommitting, rfl, (hiso.1 hcommitting).1, rfl, hiso.2.1⟩

end AsoPracticas.Xv6.GroupCommit
