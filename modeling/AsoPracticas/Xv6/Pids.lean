import AsoPracticas.Xv6.Family

/-!
# Pids — who a pid names, and who has been killed

`allocproc` takes the next pid and leaves `killed` as it finds it; `wait` clears both, and a `fork` that fails clears
neither.  `kill` looks for a pid in all the entries, used or not.

* `kill_target` — while `kill` finds no unused entry, and nobody kills a process whose `fork` then fails, only those
  are killed who were asked for or who trapped;
* `pids_distinct` — until `nextpid` overflows, the pids tell the processes apart.
-/

namespace AsoPracticas.Xv6.Ptable

open Lib
open Option (bind_eq_bind bind_eq_some_iff bind_some)

variable {C : Type} {m m' : Machine C} {p q : Slot} {a b d : Proc}

/-! ## What a step does to an entry -/

/-- The process stays what it was, but for `killed`. -/
structure Proc.Same (a b : Proc) : Prop where
  pid : b.pid = a.pid
  birth : b.birth = a.birth
  unused : b.state = .UNUSED ↔ a.state = .UNUSED

/-- The entry that `kill` finds. -/
def Machine.target (m : Machine C) (pid : Int) : Option Slot :=
  (List.finRange NPROC).find? fun q => (m.proc q).pid = pid

variable {e : Event C}

/-- The event is the section of `kill(pid)`, called by `p`. -/
def Machine.Kills (m : Machine C) (e : Event C) (p : Slot) (pid : Int) : Prop :=
  ∃ c, e = .run c ∧ (m.cpu c).running = some p ∧ (m.proc p).pc = .locked (.kill pid)

/-- The event is a trap of `p`, for which it is killed. -/
def Machine.Traps (m : Machine C) (e : Event C) (p : Slot) : Prop :=
  ∃ c, e = .fault c ∧ (m.cpu c).running = some p

/-- There is no memory for the new process in entry `np`. -/
def Machine.Fails (m : Machine C) (e : Event C) (np : Slot) : Prop :=
  ∃ c p, e = .copy c false ∧ (m.cpu c).running = some p ∧ (m.proc p).forking = .allocated np

/-- The event is the section of `allocproc`. -/
def Machine.Allocates (m : Machine C) (e : Event C) : Prop :=
  ∃ c p, e = .run c ∧ (m.cpu c).running = some p ∧ (m.proc p).pc = .locked .allocproc

/-- What an event can do to entry `q`. -/
inductive Turn (m : Machine C) (e : Event C) (q : Slot) (b : Proc) : Prop where
  | keep (hsame : (m.proc q).Same b) (hkilled : b.killed = (m.proc q).killed)
  | kill (p : Slot) (pid : Int) (hkills : m.Kills e p pid) (htarget : m.target pid = some q) (hsame : (m.proc q).Same b)
  | trap (htraps : m.Traps e q) (hused : (m.proc q).state ≠ .UNUSED) (hsame : (m.proc q).Same b)
  | reap (hunused : b.state = .UNUSED) (hkilled : b.killed = false)
  | alloc (hallocates : m.Allocates e) (hunused : (m.proc q).state = .UNUSED) (hused : b.state ≠ .UNUSED)
      (hpid : b.pid = m.nextpid) (hbirth : b.birth = m.births) (hkilled : b.killed = (m.proc q).killed)
  | fail (hfails : m.Fails e q) (hunused : b.state = .UNUSED) (hkilled : b.killed = (m.proc q).killed)

structure Turns (m : Machine C) (e : Event C) (m' : Machine C) : Prop where
  proc : ∀ q, Turn m e q (m'.proc q)
  count : m'.nextpid = m.nextpid ∧ m'.births = m.births ∨
    m.Allocates e ∧ m'.nextpid = wrap (m.nextpid + 1) ∧ m'.births = m.births + 1

/-! ## Steps that leave the pids and `killed` alone -/

theorem Proc.Same.refl (a : Proc) : a.Same a := ⟨rfl, rfl, Iff.rfl⟩

theorem Proc.Same.trans (h : a.Same b) (h' : b.Same d) : a.Same d :=
  ⟨h'.pid.trans h.pid, h'.birth.trans h.birth, h'.unused.trans h.unused⟩

theorem Proc.Awoken.same (h : a.Awoken b) : a.Same b where
  __ := h
  unused := by
    rcases h.state with hsame | ⟨hsleep, hrun⟩
    · rw [hsame]
    · rw [hsleep, hrun]
      decide

/-- Nothing happens to the pids and to `killed`. -/
structure Quiet (m m' : Machine C) : Prop where
  same : ∀ q, (m.proc q).Same (m'.proc q)
  killed : ∀ q, (m'.proc q).killed = (m.proc q).killed
  count : m'.nextpid = m.nextpid ∧ m'.births = m.births

theorem Turns.of_quiet (h : Quiet m m') : Turns m e m' where
  proc q := .keep (h.same q) (h.killed q)
  count := .inl h.count

theorem Quiet.refl (m : Machine C) : Quiet m m := ⟨fun _ => .refl _, fun _ => rfl, rfl, rfl⟩

theorem Quiet.trans {m'' : Machine C} (h : Quiet m m') (h' : Quiet m' m'') : Quiet m m'' where
  same q := (h.same q).trans (h'.same q)
  killed q := (h'.killed q).trans (h.killed q)
  count := ⟨h'.count.1.trans h.count.1, h'.count.2.trans h.count.2⟩

theorem quiet_of_proc (hproc : m'.proc = m.proc) (hnextpid : m'.nextpid = m.nextpid) (hbirths : m'.births = m.births) :
    Quiet m m' where
  same q := by
    rw [hproc]
    exact .refl _
  killed q := by
    rw [hproc]
  count := ⟨hnextpid, hbirths⟩

theorem quiet_update (hproc : m'.proc = Function.update m.proc p b) (hsame : (m.proc p).Same b)
    (hkilled : b.killed = (m.proc p).killed) (hnextpid : m'.nextpid = m.nextpid) (hbirths : m'.births = m.births) :
    Quiet m m' where
  same q := by
    rw [hproc]
    rcases eq_or_ne q p with rfl | hq
    · rwa [Function.update_self]
    · rw [Function.update_of_ne hq]
      exact .refl _
  killed q := by
    rw [hproc]
    rcases eq_or_ne q p with rfl | hq
    · rwa [Function.update_self]
    · rw [Function.update_of_ne hq]
  count := ⟨hnextpid, hbirths⟩

theorem Proc.Same.of_state (hpid : b.pid = a.pid) (hbirth : b.birth = a.birth) (hstate : b.state = a.state) :
    a.Same b :=
  ⟨hpid, hbirth, by rw [hstate]⟩

theorem Proc.Same.of_used (hpid : b.pid = a.pid) (hbirth : b.birth = a.birth) (ha : a.state ≠ .UNUSED)
    (hb : b.state ≠ .UNUSED) : a.Same b :=
  ⟨hpid, hbirth, iff_of_false hb ha⟩

@[simp] theorem Proc.killed_wake (a : Proc) (chan : Chan) : (a.wake chan).killed = a.killed := by
  unfold Proc.wake
  split <;> rfl

theorem quiet_wakeup1 (m : Machine C) (chan : Chan) : Quiet m (m.wakeup1 chan) where
  same _ := (Proc.awoken_wake ..).same
  killed _ := Proc.killed_wake ..
  count := ⟨rfl, rfl⟩

theorem quiet_wakeParent (m : Machine C) (p : Slot) : Quiet m (m.wakeParent p) := by
  unfold Machine.wakeParent
  split
  · exact quiet_wakeup1 ..
  · exact .refl _

theorem quiet_abandon (m : Machine C) (p q : Slot) : Quiet m (m.abandon p q) := by
  have hadopt : Quiet m (m.modify q Proc.adopt) := quiet_update rfl (.of_state rfl rfl rfl) rfl rfl rfl
  unfold Machine.abandon
  split
  · split
    · exact hadopt.trans (quiet_wakeup1 ..)
    · exact hadopt
  · exact .refl _

theorem quiet_abandonAll (m : Machine C) (p : Slot) : Quiet m (m.abandonAll p) := by
  unfold Machine.abandonAll
  generalize List.finRange NPROC = l
  induction l generalizing m with
  | nil => exact .refl _
  | cons q l ih => exact (quiet_abandon m p q).trans (ih _)

theorem quiet_exit (hused : (m.proc p).state ≠ .UNUSED) : Quiet m (m.exit p) := by
  have hloop := (quiet_wakeParent m p).trans (quiet_abandonAll (m.wakeParent p) p)
  have hused' : (((m.wakeParent p).abandonAll p).proc p).state ≠ .UNUSED :=
    fun hunused => hused ((hloop.same p).unused.1 hunused)
  refine hloop.trans (quiet_update rfl (.of_used rfl rfl hused' ?_) rfl rfl rfl)
  exact nofun

theorem Proc.same_kill (a : Proc) : a.Same a.kill := a.awoken_kill.same

/-! ## The sections -/

theorem Turn.quiet (h : Turn m e q b) (hsame : b.Same d) (hkilled : d.killed = b.killed) : Turn m e q d := by
  cases h with
  | keep hq hk => exact .keep (hq.trans hsame) (hkilled.trans hk)
  | kill p pid hkills htarget hq => exact .kill p pid hkills htarget (hq.trans hsame)
  | trap htraps hused hq => exact .trap htraps hused (hq.trans hsame)
  | reap hunused hk => exact .reap (hsame.unused.2 hunused) (hkilled.trans hk)
  | alloc hallocates hunused hused hpid hbirth hk =>
    exact .alloc hallocates hunused (fun hd => hused (hsame.unused.1 hd)) (hsame.pid.trans hpid)
      (hsame.birth.trans hbirth) (hkilled.trans hk)
  | fail hfails hunused hk => exact .fail hfails (hsame.unused.2 hunused) (hkilled.trans hk)

theorem Turns.quiet {m'' : Machine C} (h : Turns m e m') (hq : Quiet m' m'') : Turns m e m'' where
  proc q := (h.proc q).quiet (hq.same q) (hq.killed q)
  count := by
    rw [hq.count.1, hq.count.2]
    exact h.count

theorem turn_modify {g : Proc → Proc} (hq : Turn m e q (g (m.proc q))) (x : Slot) :
    Turn m e x ((m.modify q g).proc x) := by
  rcases eq_or_ne x q with rfl | hx
  · rwa [Machine.modify_self]
  · rw [Machine.modify_of_ne _ _ hx]
    exact .keep (.refl _) rfl

theorem turns_kill {pid : Int} (hkills : m.Kills e p pid) : Turns m e (m.kill p pid) := by
  unfold Machine.kill
  split
  next q hq =>
    have hturns : Turns m e (m.modify q Proc.kill) :=
      ⟨turn_modify (.kill p pid hkills hq (Proc.same_kill _)), .inl ⟨rfl, rfl⟩⟩
    exact hturns.quiet (quiet_update rfl (.of_state rfl rfl rfl) rfl rfl rfl)
  next => exact .of_quiet (quiet_update rfl (.of_state rfl rfl rfl) rfl rfl rfl)

theorem turns_wait (hused : (m.proc p).state ≠ .UNUSED) : Turns m e (m.wait p) := by
  unfold Machine.wait
  split
  next q hq =>
    have hturns : Turns m e (m.modify q Proc.reap) := ⟨turn_modify (.reap rfl rfl), .inl ⟨rfl, rfl⟩⟩
    exact hturns.quiet (quiet_update rfl (.of_state rfl rfl rfl) rfl rfl rfl)
  next =>
    split
    · exact .of_quiet (quiet_update rfl (.of_state rfl rfl rfl) rfl rfl rfl)
    · refine .of_quiet (quiet_update rfl (.of_used rfl rfl hused ?_) rfl rfl rfl)
      exact nofun

theorem turns_allocproc (hallocates : m.Allocates e) : Turns m e (m.allocproc p) := by
  unfold Machine.allocproc
  split
  next q hq =>
    have hunused := List.find?_some hq
    rw [decide_eq_true_eq] at hunused
    have hnew : Turn m e q ((m.proc q).embryo m.nextpid m.births) := .alloc hallocates hunused nofun rfl rfl rfl
    have hturn := turn_modify (g := Proc.embryo m.nextpid m.births) hnew
    have hown : Quiet (m.modify q (Proc.embryo m.nextpid m.births))
        ((m.modify q (Proc.embryo m.nextpid m.births)).modify p (Proc.leave ∘ Proc.setForking (.allocated q))) :=
      quiet_update rfl (.of_state rfl rfl rfl) rfl rfl rfl
    exact ⟨fun x => (hturn x).quiet (hown.same x) (hown.killed x), .inr ⟨hallocates, rfl, rfl⟩⟩
  next => exact .of_quiet (quiet_update rfl (.of_state rfl rfl rfl) rfl rfl rfl)

theorem quiet_start (hembryos : Embryos m) : Quiet m (m.start p) := by
  unfold Machine.start
  split
  next np hnp =>
    have hused : (m.proc np).state ≠ .UNUSED := by
      rw [hembryos.embryo p np (.inr hnp)]
      decide
    have hchild : Quiet m (m.modify np (Proc.setState .RUNNABLE)) :=
      quiet_update rfl (.of_used rfl rfl hused nofun) rfl rfl rfl
    exact hchild.trans (quiet_update rfl (.of_state rfl rfl rfl) rfl rfl rfl)
  next => exact .refl _

theorem turns_body (hembryos : Embryos m) (hrun : (m.proc p).state = .RUNNING) {c : C} {s : Section}
    (hplace : (m.cpu c).running = some p) (hpc : (m.proc p).pc = .locked s) :
    Turns m (.run c) (m.body p s) := by
  have hused : (m.proc p).state ≠ .UNUSED := by
    rw [hrun]
    decide
  cases s with
  | yield | sleep ch =>
    refine .of_quiet (quiet_update rfl (.of_used rfl rfl hused ?_) rfl rfl rfl)
    exact nofun
  | wakeup ch =>
    exact .of_quiet ((quiet_wakeup1 m _).trans (quiet_update rfl (.of_state rfl rfl rfl) rfl rfl rfl))
  | kill pid => exact turns_kill ⟨c, rfl, hplace, hpc⟩
  | wait => exact turns_wait hused
  | exit => exact .of_quiet (quiet_exit hused)
  | allocproc => exact turns_allocproc ⟨c, p, rfl, hplace, hpc⟩
  | start => exact .of_quiet (quiet_start hembryos)

/-! ## The steps -/

theorem Proc.same_resume {k : Cont} (h : a.resume k = some b) : a.Same b ∧ b.killed = a.killed := by
  cases k with
  | exit => cases h
  | yield | forkret | sleep | wait =>
    cases h
    exact ⟨⟨rfl, rfl, Iff.rfl⟩, rfl⟩

variable {c : C}

theorem turns_copy {memory : Bool} (hplace : (m.cpu c).running = some p) (hm : m.copy p memory = some m') :
    Turns m (.copy c memory) m' := by
  unfold Machine.copy at hm
  split at hm
  next np hfree hforking =>
    cases memory with
    | true =>
      cases hm
      have hchild : Quiet m (m.modify np (Proc.child p)) := quiet_update rfl (.of_state rfl rfl rfl) rfl rfl rfl
      exact .of_quiet (hchild.trans (quiet_update rfl (.of_state rfl rfl rfl) rfl rfl rfl))
    | false =>
      cases hm
      have hturns : Turns m (.copy c false) (m.modify np (Proc.setState .UNUSED)) :=
        ⟨turn_modify (.fail ⟨c, p, rfl, hplace, hforking⟩ rfl rfl), .inl ⟨rfl, rfl⟩⟩
      exact hturns.quiet (quiet_update rfl (.of_state rfl rfl rfl) rfl rfl rfl)
  next => cases hm

theorem turns_fault (hs : Sound m) (hplace : (m.cpu c).running = some p) (hm : m.fault p = some m') :
    Turns m (.fault c) m' := by
  unfold Machine.fault at hm
  split at hm
  next hfree =>
    cases hm
    have hrun := hs.scheduled.eq_running (Cpu.running_eq_some hplace)
    rw [Proc.OnCpu, hfree] at hrun
    have hused : (m.proc p).state ≠ .UNUSED := by
      rw [hrun]
      decide
    exact ⟨turn_modify (.trap ⟨c, rfl, hplace⟩ hused ⟨rfl, rfl, Iff.rfl⟩), .inl ⟨rfl, rfl⟩⟩
  next => cases hm

theorem Machine.pid_of_target {pid : Int} (h : m.target pid = some q) : (m.proc q).pid = pid := by
  have hfound := List.find?_some h
  rwa [decide_eq_true_eq] at hfound

theorem Machine.result_kill (m : Machine C) (p : Slot) (pid : Int) :
    ((m.kill p pid).proc p).result = if (m.target pid).isSome then 0 else -1 := by
  unfold Machine.kill
  split
  next q hq =>
    rw [show m.target pid = some q from hq, Machine.modify_self]
    rfl
  next hnone =>
    rw [show m.target pid = none from hnone, Machine.modify_self]
    rfl

theorem quiet_enter {s : Section} (hm : m.enter c p s = some m') : Quiet m m' := by
  unfold Machine.enter at hm
  split at hm
  · cases hm
    exact quiet_update rfl (.of_state rfl rfl rfl) rfl rfl rfl
  · cases hm

/-! ## The pids -/

/-- `nextpid` has not overflowed when `allocproc` takes it. -/
def Fresh (m : Machine C) (e : Event C) : Prop := m.Allocates e → 0 < m.nextpid

/-- Processes are numbered in the order of their births, from 1. -/
structure Numbered (m : Machine C) : Prop where
  births : m.births < 2 ^ 31
  nextpid : m.nextpid = wrap (m.births + 1 : Nat)
  pid : ∀ q, (m.proc q).state ≠ .UNUSED → (m.proc q).pid = (m.proc q).birth + 1

theorem wrap_eq {n : Nat} (h : n < 2 ^ 31) : wrap n = n := by
  unfold wrap
  rw [Int.bmod_eq_of_le] <;> omega

theorem wrap_pos_iff {n : Nat} (h : n ≤ 2 ^ 31) : 0 < wrap n ↔ 0 < n ∧ n < 2 ^ 31 := by
  rcases Nat.lt_or_eq_of_le h with hlt | rfl
  · rw [wrap_eq hlt]
    omega
  · decide

theorem wrap_wrap_add (i : Int) : wrap (wrap i + 1) = wrap (i + 1) := by
  unfold wrap
  rw [Int.bmod_add_bmod]

theorem Numbered.turns (h : Numbered m) (hfresh : Fresh m e) (ht : Turns m e m') : Numbered m' := by
  have hsmall : m.Allocates e → m.births + 1 < 2 ^ 31 := by
    intro hallocates
    have hpos := hfresh hallocates
    rw [h.nextpid] at hpos
    exact ((wrap_pos_iff (by have := h.births; omega)).1 hpos).2
  refine ⟨?_, ?_, fun q hused => ?_⟩
  · rcases ht.count with ⟨-, hbirths⟩ | ⟨hallocates, -, hbirths⟩
    · rw [hbirths]
      exact h.births
    · rw [hbirths]
      exact hsmall hallocates
  · rcases ht.count with ⟨hnextpid, hbirths⟩ | ⟨-, hnextpid, hbirths⟩
    · rw [hnextpid, hbirths, h.nextpid]
    · rw [hnextpid, hbirths, h.nextpid, wrap_wrap_add]
      rfl
  · cases ht.proc q with
    | keep hsame _ =>
      rw [hsame.pid, hsame.birth]
      exact h.pid q fun hunused => hused (hsame.unused.2 hunused)
    | kill _ _ _ _ hsame =>
      rw [hsame.pid, hsame.birth]
      exact h.pid q fun hunused => hused (hsame.unused.2 hunused)
    | trap _ hused1 hsame =>
      rw [hsame.pid, hsame.birth]
      exact h.pid q hused1
    | reap hunused _ => exact absurd hunused hused
    | alloc hallocates _ _ hpid hbirth _ =>
      rw [hpid, hbirth, h.nextpid]
      exact wrap_eq (hsmall hallocates)
    | fail _ hunused _ => exact absurd hunused hused

section Steps

variable [DecidableEq C] {es : List (Event C)}

theorem quiet_schedule (hm : m.schedule c = some m') : Quiet m m' := by
  unfold Machine.schedule at hm
  split at hm
  next =>
    split at hm
    · cases hm
      exact quiet_of_proc rfl rfl rfl
    · cases hm
  next i _ =>
    split at hm
    next hi =>
      split at hm
      next hrunnable =>
        cases hm
        have hused : (m.proc ⟨i, hi⟩).state ≠ .UNUSED := by
          rw [hrunnable]
          decide
        refine quiet_update rfl (.of_used rfl rfl hused ?_) rfl rfl rfl
        exact nofun
      next =>
        cases hm
        exact quiet_of_proc rfl rfl rfl
    next =>
      cases hm
      exact quiet_of_proc rfl rfl rfl
  next p _ =>
    split at hm
    next k _ =>
      obtain ⟨b, hb, rfl⟩ := Option.map_eq_some_iff.1 hm
      obtain ⟨hsame, hkilled⟩ := Proc.same_resume hb
      exact quiet_update rfl hsame hkilled rfl rfl
    next => cases hm
  next => cases hm
  next p _ =>
    cases hm
    exact quiet_of_proc rfl rfl rfl

theorem turns_run (hs : Sound m) (hplace : (m.cpu c).running = some p) (hm : m.run c p = some m') :
    Turns m (.run c) m' := by
  unfold Machine.run at hm
  split at hm
  next => cases hm
  next s hpc =>
    cases hm
    have hrun := hs.scheduled.eq_running (Cpu.running_eq_some hplace)
    rw [Proc.OnCpu, hpc] at hrun
    exact turns_body hs.embryos hrun.2 hplace hpc
  next =>
    cases hm
    exact .of_quiet (quiet_update rfl (.of_state rfl rfl rfl) rfl rfl rfl)
  next =>
    cases hm
    exact .of_quiet (quiet_update rfl (.of_state rfl rfl rfl) rfl rfl rfl)
  next => cases hm

theorem turns_step (hs : Sound m) (he : step m e = some m') : Turns m e m' := by
  cases e with
  | schedule c => exact .of_quiet (quiet_schedule he)
  | enter c s =>
    obtain ⟨p, -, hm⟩ := bind_eq_some_iff.1 he
    exact .of_quiet (quiet_enter hm)
  | run c =>
    obtain ⟨p, hp, hm⟩ := bind_eq_some_iff.1 he
    exact turns_run hs hp hm
  | copy c memory =>
    obtain ⟨p, hp, hm⟩ := bind_eq_some_iff.1 he
    exact turns_copy hp hm
  | fault c =>
    obtain ⟨p, hp, hm⟩ := bind_eq_some_iff.1 he
    exact turns_fault hs hp hm
  | interrupt c ch =>
    simp only [Ptable.step] at he
    split at he
    next =>
      cases he
      exact .of_quiet (quiet_wakeup1 m _)
    next => cases he

/-! ## Who has been killed -/

/-- `kill` finds an entry that is in use, and a process whose `fork` fails has not been killed. -/
structure Proper (m : Machine C) (e : Event C) : Prop where
  kill : ∀ p pid q, m.Kills e p pid → m.target pid = some q → (m.proc q).state ≠ .UNUSED
  fork : ∀ np, m.Fails e np → (m.proc np).killed = false

/-- At some point of the run, since the process in `q` was born, `kill` was called with its pid, or it trapped. -/
def Marked (es : List (Event C)) (m : Machine C) (q : Slot) : Prop :=
  ∃ es1 e es2 m1, es = es1 ++ e :: es2 ∧ es1.foldlM step (boot C) = some m1 ∧
    (m1.proc q).state ≠ .UNUSED ∧ (m1.proc q).birth = (m.proc q).birth ∧
      ((∃ p, m1.Kills e p (m1.proc q).pid) ∨ m1.Traps e q)

theorem Marked.snoc (h : Marked es m q) (e : Event C)
    (hbirth : (m'.proc q).birth = (m.proc q).birth) : Marked (es ++ [e]) m' q := by
  obtain ⟨es1, e1, es2, m1, rfl, hrun, hused, hbirth1, hmark⟩ := h
  refine ⟨es1, e1, es2 ++ [e], m1, ?_, hrun, hused, hbirth1.trans hbirth.symm, hmark⟩
  rw [List.append_assoc, List.cons_append]

/-- The killed are marked, and no unused entry is killed. -/
structure Rightly (es : List (Event C)) (m : Machine C) : Prop where
  marked : ∀ q, (m.proc q).state ≠ .UNUSED → (m.proc q).killed = true → Marked es m q
  unused : ∀ q, (m.proc q).state = .UNUSED → (m.proc q).killed = false

theorem Rightly.turns (h : Rightly es m) (hrun : es.foldlM step (boot C) = some m)
    (hproper : Proper m e) (ht : Turns m e m') : Rightly (es ++ [e]) m' where
  marked q hused hkilled := by
    cases ht.proc q with
    | keep hsame hk =>
      rw [hk] at hkilled
      exact (h.marked q (fun hunused => hused (hsame.unused.2 hunused)) hkilled).snoc e hsame.birth
    | kill p pid hkills htarget hsame =>
      refine ⟨es, e, [], m, rfl, hrun, fun hunused => hused (hsame.unused.2 hunused), hsame.birth.symm, .inl ⟨p, ?_⟩⟩
      rwa [Machine.pid_of_target htarget]
    | trap htraps hused1 hsame => exact ⟨es, e, [], m, rfl, hrun, hused1, hsame.birth.symm, .inr htraps⟩
    | reap hunused _ => exact absurd hunused hused
    | alloc _ hunused _ _ _ hk =>
      rw [hk, h.unused q hunused] at hkilled
      cases hkilled
    | fail _ hunused _ => exact absurd hunused hused
  unused q hunused := by
    cases ht.proc q with
    | keep hsame hk =>
      rw [hk]
      exact h.unused q (hsame.unused.1 hunused)
    | kill p pid hkills htarget hsame =>
      exact absurd (hsame.unused.1 hunused) (hproper.kill p pid q hkills htarget)
    | trap _ hused hsame => exact absurd (hsame.unused.1 hunused) hused
    | reap _ hk => exact hk
    | alloc _ _ hused _ _ _ => exact absurd hunused hused
    | fail hfails _ hk =>
      rw [hk]
      exact hproper.fork q hfails

theorem rightly_of_trace (h : Trace step Proper (boot C) es m) : Rightly es m := by
  induction h with
  | nil =>
    have hboot : ∀ q, ((boot C).proc q).killed = false := by
      intro q
      rcases eq_or_ne q initproc with rfl | hq
      · rfl
      · rw [vacant_boot hq]
        rfl
    refine ⟨fun q _ hkilled => ?_, fun q _ => hboot q⟩
    rw [hboot q] at hkilled
    cases hkilled
  | snoc hrun hproper hnext ih =>
    exact ih.turns hrun.foldlM_eq hproper (turns_step (sound_of_reachable hrun.reachable) hnext)

theorem Machine.step_kills {pid : Int} (h : m.Kills e p pid) : step m e = some (m.kill p pid) := by
  obtain ⟨c, rfl, hplace, hpc⟩ := h
  rw [step, hplace, bind_some, Machine.run, hpc]
  rfl

/-- While `kill` finds no unused entry and no process is killed whose `fork` then fails: `kill` returns 0 only if a
process has that pid, a process is killed only if `kill` was called with its pid since its birth or it trapped, and no
process is killed when it is born. -/
theorem kill_target (h : Trace step Proper (boot C) es m) :
    (∀ q, (m.proc q).state ≠ .UNUSED → (m.proc q).killed = true → Marked es m q) ∧
      ∀ e m', Proper m e → step m e = some m' →
        (∀ p pid, m.Kills e p pid → (m'.proc p).result = 0 →
          ∃ q, (m.proc q).state ≠ .UNUSED ∧ (m.proc q).pid = pid) ∧
        ∀ q, (m.proc q).state = .UNUSED → (m'.proc q).state ≠ .UNUSED → (m'.proc q).killed = false := by
  have hrightly := rightly_of_trace h
  refine ⟨hrightly.marked, fun e m' hproper hstep => ⟨fun p pid hkills hresult => ?_, fun q hunused hused => ?_⟩⟩
  · obtain rfl := Option.some.inj (hstep.symm.trans (Machine.step_kills hkills))
    rw [Machine.result_kill] at hresult
    cases htarget : m.target pid with
    | none =>
      rw [htarget] at hresult
      cases hresult
    | some q =>
      exact ⟨q, hproper.kill p pid q hkills htarget, Machine.pid_of_target htarget⟩
  · cases (turns_step (sound_of_reachable h.reachable) hstep).proc q with
    | keep hsame _ => exact absurd (hsame.unused.2 hunused) hused
    | kill _ _ _ _ hsame => exact absurd (hsame.unused.2 hunused) hused
    | trap _ hused1 _ => exact absurd hunused hused1
    | reap _ hk => exact hk
    | alloc _ _ _ _ _ hk =>
      rw [hk]
      exact hrightly.unused q hunused
    | fail _ hunused' _ => exact absurd hunused' hused

theorem numbered_of_trace (h : Trace step Fresh (boot C) es m) : Numbered m := by
  induction h with
  | nil =>
    have hone : (boot C).births = 1 := rfl
    refine ⟨?_, ?_, fun q hused => ?_⟩
    · rw [hone]
      omega
    · rw [hone, wrap_eq (by omega)]
      rfl
    · rcases eq_or_ne q initproc with rfl | hq
      · rfl
      · rw [vacant_boot hq] at hused
        exact absurd rfl hused
  | snoc hrun hfresh hnext ih => exact ih.turns hfresh (turns_step (sound_of_reachable hrun.reachable) hnext)

/-- As long as `nextpid` does not overflow, the pids of the processes are positive and no two are equal. -/
theorem pids_distinct (h : Trace step Fresh (boot C) es m) :
    (∀ q, (m.proc q).state ≠ .UNUSED → 0 < (m.proc q).pid) ∧
      ∀ p q, (m.proc p).state ≠ .UNUSED → (m.proc q).state ≠ .UNUSED → (m.proc p).pid = (m.proc q).pid → p = q := by
  have hnumbered := numbered_of_trace h
  refine ⟨fun q hused => ?_, fun p q hp hq heq => ?_⟩
  · rw [hnumbered.pid q hused]
    omega
  · rw [hnumbered.pid p hp, hnumbered.pid q hq] at heq
    exact (family_of_reachable h.reachable).lineage.inj p q hp hq (by omega)

end Steps

/-! ## Runs in which it goes wrong -/

/-- Whether an event is as `Proper` has it. -/
def Machine.proper (m : Machine C) : Event C → Bool
  | .run c =>
    (m.cpu c).running.all fun p =>
      match (m.proc p).pc with
      | .locked (.kill pid) => (m.target pid).all fun q => (m.proc q).state ≠ .UNUSED
      | _ => true
  | .copy c false =>
    (m.cpu c).running.all fun p =>
      match (m.proc p).forking with
      | .allocated np => !(m.proc np).killed
      | _ => true
  | _ => true

theorem proper_of_check (m : Machine C) (e : Event C) (h : m.proper e = true) : Proper m e where
  kill p pid q hkills htarget := by
    obtain ⟨c, rfl, hplace, hpc⟩ := hkills
    simpa [Machine.proper, hplace, hpc, htarget] using h
  fork np hfails := by
    obtain ⟨c, p, rfl, hplace, hforking⟩ := hfails
    simpa [Machine.proper, hplace, hforking] using h

def second : Slot := ⟨1, by decide⟩

/-- `initproc` gets to user space. -/
def initRun : List (Event Unit) := [.schedule (), .schedule (), .schedule (), .run ()]

/-- A `fork`, on one processor, without interrupts. -/
def forkRun : List (Event Unit) :=
  [.enter () .allocproc, .run (), .run (), .copy () true, .enter () .start, .run (), .run ()]

/-- `kill(pid)`. -/
def killRun (pid : Int) : List (Event Unit) := [.enter () (.kill pid), .run (), .run ()]

theorem kill_target_child :
    ∃ m : Machine Unit, (initRun ++ forkRun ++ killRun 2).foldlM step (boot Unit) = some m ∧
      (m.proc second).state = .RUNNABLE ∧ (m.proc second).killed = true ∧
      Marked (initRun ++ forkRun ++ killRun 2) m second := by
  have hcheck : ((initRun ++ forkRun ++ killRun 2).foldlM (fun m e => if Machine.proper m e then step m e else none)
      (boot Unit)).map (fun m : Machine Unit => ((m.proc second).state, (m.proc second).killed)) =
        some (ProcState.RUNNABLE, true) := by
    decide +kernel
  obtain ⟨m, hm, hproc⟩ := Option.map_eq_some_iff.1 hcheck
  obtain ⟨hstate, hkilled⟩ := Prod.mk.inj hproc
  have htrace := Trace.of_foldlM proper_of_check hm
  refine ⟨m, htrace.foldlM_eq, hstate, hkilled, (kill_target htrace).1 second ?_ hkilled⟩
  rw [hstate]
  decide

/-- `kill(0)` returns 0, though only unused entries have pid 0; and the next process is born killed. -/
theorem kill_unused :
    (∃ m m' : Machine Unit, (initRun ++ [Event.enter () (.kill 0)]).foldlM step (boot Unit) = some m ∧
      m.Kills (.run ()) initproc 0 ∧ (∀ q, (m.proc q).pid = 0 → (m.proc q).state = .UNUSED) ∧
        step m (.run ()) = some m' ∧ (m'.proc initproc).result = 0) ∧
      ∃ m : Machine Unit, (initRun ++ killRun 0 ++ forkRun).foldlM step (boot Unit) = some m ∧
        (m.proc second).state = .RUNNABLE ∧ (m.proc second).pid = 2 ∧ (m.proc second).killed = true := by
  refine ⟨⟨_, _, rfl, ⟨(), rfl, rfl, rfl⟩, ?_, rfl, ?_⟩, _, rfl, ?_, ?_, ?_⟩
  all_goals decide +kernel

/-- On the one processor `initproc` is in user space, the second entry of the table is unused, and `n` is the next pid
but for overflow. -/
structure Round (n : Nat) (m : Machine Unit) : Prop where
  place : (m.cpu ()).place = .running initproc
  lock : m.lock = none
  pc : (m.proc initproc).pc = .free
  forking : (m.proc initproc).forking = .none
  state : (m.proc initproc).state = .RUNNING
  pid : (m.proc initproc).pid = 1
  unused : (m.proc second).state = .UNUSED
  nextpid : m.nextpid = wrap n

/-- In the middle of a `fork`: the new process has entry `second` and pid `n`. -/
structure Halfway (forking : Forking) (n : Nat) (m : Machine Unit) : Prop where
  place : (m.cpu ()).place = .running initproc
  lock : m.lock = none
  pc : (m.proc initproc).pc = .free
  forking : (m.proc initproc).forking = forking
  state : (m.proc initproc).state = .RUNNING
  pid : (m.proc initproc).pid = 1
  new : (m.proc second).pid = wrap n
  nextpid : m.nextpid = wrap (n + 1 : Nat)

theorem initproc_ne : initproc ≠ second := by decide

theorem find_second {f : Slot → Proc} (hinit : (f initproc).state = .RUNNING) (hunused : (f second).state = .UNUSED) :
    (List.finRange NPROC).find? (fun q => (f q).state = .UNUSED) = some second := by
  rw [show List.finRange NPROC = initproc :: second :: (List.finRange NPROC).drop 2 from rfl]
  simp [hinit, hunused]

section Moves

variable {m : Machine Unit} {n : Nat}

theorem step_enter {s : Section} (hplace : (m.cpu ()).place = .running p) (hpc : (m.proc p).pc = .free)
    (hlock : m.lock = none) (henabled : s.Enabled p (m.proc p)) :
    step m (.enter () s) = some ({ m with lock := some () }.modify p (Proc.setPc (.locked s))) := by
  rw [step, Cpu.running, hplace, bind_some, Machine.enter, if_pos ⟨hpc, henabled, hlock⟩]

theorem step_section {s : Section} (hplace : (m.cpu ()).place = .running p) (hpc : (m.proc p).pc = .locked s) :
    step m (.run ()) = some (m.body p s) := by
  rw [step, Cpu.running, hplace, bind_some, Machine.run, hpc]

theorem step_release (hplace : (m.cpu ()).place = .running p) (hpc : (m.proc p).pc = .release) :
    step m (.run ()) = some ({ m with lock := none }.modify p (Proc.setPc .free)) := by
  rw [step, Cpu.running, hplace, bind_some, Machine.run, hpc]

theorem step_copy {memory : Bool} (hplace : (m.cpu ()).place = .running p) :
    step m (.copy () memory) = m.copy p memory := by
  rw [step, Cpu.running, hplace, bind_some]

theorem run_section {s : Section} {m1 : Machine Unit} (hplace : (m.cpu ()).place = .running p)
    (hpc : (m.proc p).pc = .free) (hlock : m.lock = none) (henabled : s.Enabled p (m.proc p))
    (hbody : ({ m with lock := some () }.modify p (Proc.setPc (.locked s))).body p s = m1)
    (hplace1 : (m1.cpu ()).place = .running p) (hpc1 : (m1.proc p).pc = .release) :
    [.enter () s, .run (), .run ()].foldlM step m = some ({ m1 with lock := none }.modify p (Proc.setPc .free)) := by
  have hlocked : step ({ m with lock := some () }.modify p (Proc.setPc (.locked s))) (.run ()) = some m1 := by
    rw [← hbody]
    refine step_section hplace ?_
    rw [Machine.modify_self]
    rfl
  rw [List.foldlM_cons, step_enter hplace hpc hlock henabled, bind_eq_bind, bind_some, List.foldlM_cons,
    hlocked, bind_eq_bind, bind_some, List.foldlM_cons, step_release hplace1 hpc1]
  rfl

@[simp] theorem Machine.nextpid_modify (m : Machine C) (p : Slot) (f : Proc → Proc) :
    (m.modify p f).nextpid = m.nextpid := rfl

theorem Machine.allocproc_eq {q : Slot}
    (hfind : (List.finRange NPROC).find? (fun q => (m.proc q).state = .UNUSED) = some q) :
    m.allocproc p = ((m.modify q (Proc.embryo m.nextpid m.births)).modify p
      (Proc.leave ∘ Proc.setForking (.allocated q))).nextBirth := by
  rw [Machine.allocproc, hfind]

theorem Round.allocproc (h : Round n m) :
    ∃ m', [.enter () .allocproc, .run (), .run ()].foldlM step m = some m' ∧ Halfway (.allocated second) n m' := by
  have hfind : (List.finRange NPROC).find? (fun q =>
      (({ m with lock := some () }.modify initproc (Proc.setPc (.locked .allocproc))).proc q).state = .UNUSED) =
        some second := by
    refine find_second ?_ ?_
    · rw [Machine.modify_self]
      exact h.state
    · rw [Machine.modify_of_ne _ _ initproc_ne.symm]
      exact h.unused
  refine ⟨_, run_section h.place h.pc h.lock h.forking (Machine.allocproc_eq hfind) h.place ?_, ?_⟩
  · simp [Machine.nextBirth, Proc.leave]
  · refine ⟨h.place, rfl, ?_, ?_, ?_, ?_, ?_, ?_⟩
    all_goals
      simp [Machine.nextBirth, Proc.setPc, Proc.leave, Proc.setForking, Proc.embryo, h.state, h.pid, h.nextpid,
        Machine.modify_of_ne _ _ initproc_ne, Machine.modify_of_ne _ _ initproc_ne.symm, wrap_wrap_add]

theorem Halfway.fail (h : Halfway (.allocated second) n m) :
    ∃ m', step m (.copy () false) = some m' ∧ Round (n + 1) m' := by
  have hcopy : step m (.copy () false) =
      some ((m.modify second (Proc.setState .UNUSED)).modify initproc Proc.forkFailed) := by
    rw [step_copy h.place, Machine.copy, h.pc, h.forking]
    rfl
  refine ⟨_, hcopy, h.place, h.lock, ?_, ?_, ?_, ?_, ?_, h.nextpid⟩
  all_goals
    simp [Proc.forkFailed, Proc.setState, h.pc, h.state, h.pid, Machine.modify_of_ne _ _ initproc_ne,
      Machine.modify_of_ne _ _ initproc_ne.symm]

theorem Machine.start_eq {n : Slot} (hforking : (m.proc p).forking = .copied n) :
    m.start p = ((m.modify n (Proc.setState .RUNNABLE)).modify p
      (Proc.return (m.proc n).pid ∘ Proc.setForking .none)).recordFork (m.proc p).birth (m.proc n).birth := by
  rw [Machine.start, hforking]

theorem Halfway.copy (h : Halfway (.allocated second) n m) :
    ∃ m', step m (.copy () true) = some m' ∧ Halfway (.copied second) n m' := by
  have hcopy : step m (.copy () true) = some ((m.modify second (Proc.child initproc)).modify initproc
      (Proc.setForking (.copied second))) := by
    rw [step_copy h.place, Machine.copy, h.pc, h.forking]
    rfl
  refine ⟨_, hcopy, h.place, h.lock, ?_, ?_, ?_, ?_, ?_, h.nextpid⟩
  all_goals
    simp [Proc.child, Proc.setForking, h.pc, h.state, h.pid, h.new, Machine.modify_of_ne _ _ initproc_ne,
      Machine.modify_of_ne _ _ initproc_ne.symm]

theorem Halfway.start (h : Halfway (.copied second) n m) :
    ∃ m', [.enter () .start, .run (), .run ()].foldlM step m = some m' ∧
      (m'.proc second).state = .RUNNABLE ∧ (m'.proc second).pid = wrap n ∧
        (m'.proc initproc).state = .RUNNING ∧ (m'.proc initproc).pid = 1 := by
  have hforking : (({ m with lock := some () }.modify initproc (Proc.setPc (.locked .start))).proc initproc).forking =
      .copied second := by
    rw [Machine.modify_self]
    exact h.forking
  refine ⟨_, run_section h.place h.pc h.lock ⟨second, h.forking⟩ (Machine.start_eq hforking) h.place ?_, ?_, ?_, ?_, ?_⟩
  all_goals
    simp [Machine.recordFork, Proc.return, Proc.leave, Proc.setPc, Proc.setForking, Proc.setState, h.state,
      h.pid, h.new, Machine.modify_of_ne _ _ initproc_ne, Machine.modify_of_ne _ _ initproc_ne.symm]

theorem round_init : ∃ m, initRun.foldlM step (boot Unit) = some m ∧ Round 2 m := by
  refine ⟨_, rfl, rfl, rfl, rfl, rfl, rfl, rfl, rfl, ?_⟩
  rfl

theorem round_reachable (k : Nat) :
    ∃ (es : List (Event Unit)) (m : Machine Unit), es.foldlM step (boot Unit) = some m ∧ Round (k + 2) m := by
  induction k with
  | zero => exact ⟨initRun, round_init⟩
  | succ k ih =>
    obtain ⟨es, m, hrun, hround⟩ := ih
    obtain ⟨m1, hrun1, hhalf⟩ := hround.allocproc
    obtain ⟨m2, hstep, hround2⟩ := hhalf.fail
    refine ⟨es ++ ([.enter () .allocproc, .run (), .run ()] ++ [.copy () false]), m2, ?_, ?_⟩
    · rw [List.foldlM_append, hrun, bind_eq_bind, bind_some, List.foldlM_append, hrun1,
        bind_eq_bind, bind_some, List.foldlM_cons, hstep]
      rfl
    · rw [Nat.add_right_comm]
      exact hround2

theorem pid_reachable (k : Nat) : ∃ (es : List (Event Unit)) (m : Machine Unit), es.foldlM step (boot Unit) = some m ∧
    (m.proc second).state = .RUNNABLE ∧ (m.proc second).pid = wrap (k + 2 : Nat) ∧
      (m.proc initproc).state = .RUNNING ∧ (m.proc initproc).pid = 1 := by
  obtain ⟨es, m, hrun, hround⟩ := round_reachable k
  obtain ⟨m1, hrun1, hhalf⟩ := hround.allocproc
  obtain ⟨m2, hcopy, hcopied⟩ := hhalf.copy
  obtain ⟨m3, hrun3, hproc⟩ := hcopied.start
  refine ⟨es ++ ([.enter () .allocproc, .run (), .run ()] ++
    .copy () true :: [.enter () .start, .run (), .run ()]), m3, ?_, hproc⟩
  rw [List.foldlM_append, hrun, bind_eq_bind, bind_some, List.foldlM_append, hrun1, bind_eq_bind,
    bind_some, List.foldlM_cons, hcopy, bind_eq_bind, bind_some, hrun3]

/-- After 2³¹ − 1 processes the next pid is negative, and after 2³² the pid of `initproc` is given once more. -/
theorem pids_overflow :
    (∃ (es : List (Event Unit)) (m : Machine Unit), es.foldlM step (boot Unit) = some m ∧
      ∃ q, (m.proc q).state = .RUNNABLE ∧ (m.proc q).pid < 0) ∧
    ∃ (es : List (Event Unit)) (m : Machine Unit), es.foldlM step (boot Unit) = some m ∧
      ∃ p q, p ≠ q ∧ (m.proc p).state = .RUNNING ∧ (m.proc q).state = .RUNNABLE ∧ (m.proc p).pid = (m.proc q).pid := by
  constructor
  · obtain ⟨es, m, hrun, hstate, hpid, -⟩ := pid_reachable (2 ^ 31 - 2)
    refine ⟨es, m, hrun, second, hstate, ?_⟩
    rw [hpid]
    decide
  · obtain ⟨es, m, hrun, hstate, hpid, hinit, hone⟩ := pid_reachable (2 ^ 32 - 1)
    refine ⟨es, m, hrun, initproc, second, initproc_ne, hinit, hstate, ?_⟩
    rw [hone, hpid]
    decide

/-- Whether an event is as `Fresh` has it. -/
def Machine.fresh (m : Machine C) (_ : Event C) : Bool := 0 < m.nextpid

theorem fresh_of_check (m : Machine C) (e : Event C) (h : m.fresh e = true) : Fresh m e :=
  fun _ => of_decide_eq_true h

theorem pids_distinct_child :
    ∃ m : Machine Unit, (initRun ++ forkRun).foldlM step (boot Unit) = some m ∧
      (m.proc initproc).pid = 1 ∧ (m.proc second).pid = 2 ∧
        ∀ p q, (m.proc p).state ≠ .UNUSED → (m.proc q).state ≠ .UNUSED → (m.proc p).pid = (m.proc q).pid → p = q := by
  have hcheck : ((initRun ++ forkRun).foldlM (fun m e => if Machine.fresh m e then step m e else none)
      (boot Unit)).map (fun m : Machine Unit => ((m.proc initproc).pid, (m.proc second).pid)) = some (1, 2) := by
    decide +kernel
  obtain ⟨m, hm, hpids⟩ := Option.map_eq_some_iff.1 hcheck
  obtain ⟨hone, htwo⟩ := Prod.mk.inj hpids
  have htrace := Trace.of_foldlM fresh_of_check hm
  exact ⟨m, htrace.foldlM_eq, hone, htwo, (pids_distinct htrace).2⟩

end Moves

end AsoPracticas.Xv6.Ptable
