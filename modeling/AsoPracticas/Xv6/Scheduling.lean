import AsoPracticas.Lib.Transition
import AsoPracticas.Xv6.Stacks

/-!
# Scheduling — a process runs on one processor at a time

`Effect` says what a step can do to the table: change where processes are, or one of the six steps in
the life of a process.  The invariants of `fork` and of the table follow from it.

* `scheduling_exclusive` — while `ptable.lock` is free the `RUNNING` processes are those on processors.
-/

namespace AsoPracticas.Xv6.Ptable

open Lib

variable {C : Type} {m m' : Machine C} {c : C} {p q np : Slot} {a b : Proc} {childless : Prop}

/-! ## Effects -/

def ProcState.Active (state : ProcState) : Prop :=
  state = .SLEEPING ∨ state = .RUNNABLE ∨ state = .RUNNING

/-- What the position of a thread says about the rest of its entry. -/
def Proc.Ready (p : Slot) (a : Proc) : Prop :=
  match a.pc with
  | .locked s => s.Enabled p a
  | .swtch .wait => a.forking = .none ∧ (a.state = .SLEEPING → a.chan = some (.proc p))
  | .saved .wait => a.forking = .none ∧ (a.state = .SLEEPING → a.chan = some (.proc p))
  | _ => True

/-- A step that is none in the life of the process.  `childless` says that it has no exited child. -/
@[grind cases eager]
structure Proc.Tame (p : Slot) (childless : Prop) (a b : Proc) : Prop where
  state : b.state = a.state ∨ a.state.Active ∧ b.state.Active
  parent : b.parent = a.parent
  birth : b.birth = a.birth
  forking : b.forking = a.forking
  context : a.state.Vacant → b.pc = a.pc
  ready : a.Ready p → b.Ready p
  asleep : b.Asleep (.proc p) → a.Asleep (.proc p) ∨ childless

/-- The process has no child that has exited. -/
def Machine.Childless (m : Machine C) (p : Slot) : Prop :=
  ∀ q, (m.proc q).parent = some p → (m.proc q).state ≠ .ZOMBIE

/-- What has been recorded of births, of `fork`, of `exit` and of `wait`. -/
def Machine.history (m : Machine C) : Nat × List (Nat × Nat) × List Nat × List (Nat × Nat) :=
  (m.births, m.forks, m.exits, m.reaps)

@[grind cases eager]
structure Tame (m m' : Machine C) : Prop where
  proc : ∀ p, (m.proc p).Tame p (m.Childless p) (m'.proc p)
  history : m'.history = m.history

inductive Effect (m : Machine C) : Machine C → Prop where
  | tame {m' : Machine C} (h : Tame m m') : Effect m m'
  /-- `wait` of `p` finds the exited child `q`. -/
  | reap (p q : Slot) (hrun : (m.proc p).state = .RUNNING) (hparent : (m.proc q).parent = some p)
      (hstate : (m.proc q).state = .ZOMBIE) :
      Effect m (((m.modify q Proc.reap).modify p (Proc.return (m.proc q).pid)).recordReap
        (m.proc p).birth (m.proc q).birth)
  | exit (p : Slot) (hrun : (m.proc p).state = .RUNNING) (hforking : (m.proc p).forking = .none)
      (hinit : p ≠ initproc) : Effect m (m.exit p)
  | alloc (p q : Slot) (hrun : (m.proc p).state = .RUNNING)
      (hforking : (m.proc p).forking = .none) (hstate : (m.proc q).state = .UNUSED) :
      Effect m ((m.modify q (Proc.embryo m.nextpid m.births)).modify p
        (Proc.leave ∘ Proc.setForking (.allocated q))).nextBirth
  | copied (p np : Slot) (hrun : (m.proc p).state = .RUNNING) (hpc : (m.proc p).pc = .free)
      (hforking : (m.proc p).forking = .allocated np) :
      Effect m ((m.modify np (Proc.child p)).modify p (Proc.setForking (.copied np)))
  | failed (p np : Slot) (hrun : (m.proc p).state = .RUNNING) (hpc : (m.proc p).pc = .free)
      (hforking : (m.proc p).forking = .allocated np) :
      Effect m ((m.modify np (Proc.setState .UNUSED)).modify p Proc.forkFailed)
  | start (p np : Slot) (hrun : (m.proc p).state = .RUNNING)
      (hforking : (m.proc p).forking = .copied np) :
      Effect m (((m.modify np (Proc.setState .RUNNABLE)).modify p
          (Proc.return (m.proc np).pid ∘ Proc.setForking .none)).recordFork
        (m.proc p).birth (m.proc np).birth)

theorem Proc.Tame.refl (p : Slot) (childless : Prop) (a : Proc) : a.Tame p childless a :=
  ⟨.inl rfl, rfl, rfl, rfl, fun _ => rfl, id, .inl⟩

theorem Section.Enabled.of_forking {s : Section} (h : s.Enabled p a)
    (hforking : b.forking = a.forking) : s.Enabled p b := by
  unfold Section.Enabled at *
  rwa [hforking]

theorem Proc.Ready.congr (h : a.Ready p) (hpc : b.pc = a.pc) (hforking : b.forking = a.forking)
    (hchan : b.chan = a.chan) (hstate : b.state = .SLEEPING → a.state = .SLEEPING) : b.Ready p := by
  unfold Proc.Ready at *
  grind [Section.Enabled.of_forking]

theorem Proc.Awoken.ready (h : a.Awoken b) (hready : a.Ready p) : b.Ready p := by
  refine hready.congr h.pc h.forking h.chan fun hb => ?_
  grind

theorem Proc.Awoken.tame (h : a.Awoken b) (hparent : b.parent = a.parent) (p : Slot)
    (childless : Prop) : a.Tame p childless b where
  state := by
    rcases h.state with hsame | ⟨hsleep, hrun⟩
    · exact .inl hsame
    · exact .inr ⟨.inl hsleep, .inr (.inl hrun)⟩
  parent := hparent
  birth := h.birth
  forking := h.forking
  context _ := h.pc
  ready := h.ready
  asleep hb := .inl (h.asleep hb)

theorem tame_modify {m1 : Machine C} {f : Proc → Proc} (hwake : ∀ q, (m.proc q).Awoken (m1.proc q))
    (hparent : ∀ q, (m1.proc q).parent = (m.proc q).parent)
    (hp : (m.proc p).Tame p (m.Childless p) (f (m1.proc p))) (hhistory : m1.history = m.history) :
    Tame m (m1.modify p f) where
  proc q := by
    rcases eq_or_ne q p with rfl | hq
    · rwa [Machine.modify_self]
    · rw [Machine.modify_of_ne _ _ hq]
      exact (hwake q).tame (hparent q) _ _
  history := hhistory

theorem tame_one {f : Proc → Proc} (hp : (m.proc p).Tame p (m.Childless p) (f (m.proc p))) : Tame m (m.modify p f) :=
  tame_modify (fun _ => .refl _) (fun _ => rfl) hp rfl

theorem Proc.tame_active (ha : a.state.Active) (hb : b.state.Active)
    (hparent : b.parent = a.parent) (hbirth : b.birth = a.birth) (hforking : b.forking = a.forking)
    (hready : a.Ready p → b.Ready p)
    (hasleep : b.Asleep (.proc p) → a.Asleep (.proc p) ∨ childless) : a.Tame p childless b where
  state := .inr ⟨ha, hb⟩
  parent := hparent
  birth := hbirth
  forking := hforking
  context hvacant := by
    rcases ha with h | h | h <;> rw [h] at hvacant <;> simp [ProcState.Vacant] at hvacant
  ready := hready
  asleep := hasleep

theorem active_of_running (h : a.state = .RUNNING) : a.state.Active := .inr (.inr h)

theorem not_asleep_of_running {chan : Chan} (h : a.state = .RUNNING) : ¬ a.Asleep chan := by
  intro hasleep
  rw [hasleep.1] at h
  cases h

theorem Proc.tame_running (ha : a.state = .RUNNING) (hb : b.state.Active)
    (hparent : b.parent = a.parent) (hbirth : b.birth = a.birth) (hforking : b.forking = a.forking)
    (hready : a.Ready p → b.Ready p) (hasleep : ¬ b.Asleep (.proc p)) : a.Tame p childless b :=
  Proc.tame_active (active_of_running ha) hb hparent hbirth hforking hready fun h => absurd h hasleep

theorem Proc.tame_return (ha : a.state = .RUNNING) (hwake : a.Awoken b)
    (hparent : b.parent = a.parent) (result : Int) : a.Tame p childless (b.return result) := by
  have hb : b.state = .RUNNING := by
    rw [hwake.state_eq (by rw [ha]; decide), ha]
  exact Proc.tame_running ha (active_of_running hb) hparent hwake.birth hwake.forking
    (fun _ => trivial) (not_asleep_of_running hb)

/-! ## The effects of the sections -/

section Sections

theorem tame_yield (hrun : (m.proc p).state = .RUNNING) : Tame m (m.yield p) := by
  refine tame_one ?_
  refine Proc.tame_running hrun (.inr (.inl rfl)) rfl rfl rfl (fun _ => trivial) ?_
  rintro ⟨hsleep, -⟩
  cases hsleep

theorem tame_sleep (hrun : (m.proc p).state = .RUNNING) (ch : Nat) : Tame m (m.sleep p ch) := by
  refine tame_one ?_
  refine Proc.tame_running hrun (.inl rfl) rfl rfl rfl (fun _ => trivial) ?_
  rintro ⟨-, ⟨⟩⟩

theorem tame_wakeup (hrun : (m.proc p).state = .RUNNING) (ch : Nat) : Tame m (m.wakeup p ch) := by
  have hwake : ∀ q, (m.proc q).Awoken ((m.wakeup1 (.other ch)).proc q) := fun q => Proc.awoken_wake ..
  refine tame_modify hwake (fun q => Proc.parent_wake ..) ?_ rfl
  exact Proc.tame_return hrun (hwake p) (Proc.parent_wake ..) _

theorem tame_kill (hrun : (m.proc p).state = .RUNNING) (pid : Int) : Tame m (m.kill p pid) := by
  unfold Machine.kill
  split
  next q _ =>
    have hwake : ∀ a, (m.proc a).Awoken ((m.modify q Proc.kill).proc a) ∧
        ((m.modify q Proc.kill).proc a).parent = (m.proc a).parent := by
      intro a
      rcases eq_or_ne a q with rfl | ha
      · rw [Machine.modify_self]
        exact ⟨Proc.awoken_kill _, rfl⟩
      · rw [Machine.modify_of_ne _ _ ha]
        exact ⟨.refl _, rfl⟩
    refine tame_modify (fun a => (hwake a).1) (fun a => (hwake a).2) ?_ rfl
    exact Proc.tame_return hrun (hwake p).1 (hwake p).2 _
  next =>
    refine tame_one ?_
    exact Proc.tame_return hrun (.refl _) rfl _

theorem effect_wait (hrun : (m.proc p).state = .RUNNING) (hforking : (m.proc p).forking = .none) :
    Effect m (m.wait p) := by
  unfold Machine.wait
  split
  next q hq =>
    have hfound := List.find?_some hq
    simp only [decide_eq_true_eq] at hfound
    exact .reap p q hrun hfound.1 hfound.2
  next hnone =>
    apply Effect.tame
    split
    next =>
      refine tame_one ?_
      exact Proc.tame_return hrun (.refl _) rfl _
    next =>
      -- the scan of the table has just found no exited child
      have hchildless : m.Childless p := by
        intro q hparent hzombie
        grind
      refine tame_one ?_
      exact Proc.tame_active (active_of_running hrun) (.inl rfl) rfl rfl rfl
        (fun _ => ⟨hforking, fun _ => rfl⟩) fun _ => .inr hchildless

theorem effect_body (hrun : (m.proc p).state = .RUNNING) {s : Section}
    (hs : s.Enabled p (m.proc p)) : Effect m (m.body p s) := by
  cases s with
  | yield => exact .tame (tame_yield hrun)
  | sleep ch => exact .tame (tame_sleep hrun ch)
  | wakeup ch => exact .tame (tame_wakeup hrun ch)
  | kill pid => exact .tame (tame_kill hrun pid)
  | wait => exact effect_wait hrun hs
  | exit => exact .exit p hrun hs.1 hs.2
  | allocproc =>
    simp only [Machine.body, Machine.allocproc]
    split
    next q hq =>
      have hfound := List.find?_some hq
      simp only [decide_eq_true_eq] at hfound
      exact .alloc p q hrun hs hfound
    next =>
      refine .tame (tame_one ?_)
      exact Proc.tame_return hrun (.refl _) rfl _
  | start =>
    obtain ⟨np, hnp⟩ := hs
    simp only [Machine.body, Machine.start, hnp]
    exact .start p np hrun hnp

end Sections

/-! ## The effect of a step -/

theorem Tame.congr {m1 : Machine C} (h : Tame m m1) (hproc : m'.proc = m1.proc) (hhistory : m'.history = m1.history) :
    Tame m m' where
  proc p := hproc ▸ h.proc p
  history := hhistory.trans h.history

theorem Tame.recorded (h : Tame m m') :
    m'.births = m.births ∧ m'.forks = m.forks ∧ m'.exits = m.exits ∧ m'.reaps = m.reaps := by
  simpa [Machine.history] using h.history

theorem Tame.refl (m : Machine C) : Tame m m := ⟨fun _ => .refl _ _ _, rfl⟩

theorem Proc.tame_resume {k : Cont} (hrun : a.state = .RUNNING)
    (hpc : a.pc = .saved k) (hb : a.resume k = some b) : a.Tame p childless b := by
  have hasleep : ∀ {d : Proc}, d.state = a.state → ¬ d.Asleep (.proc p) :=
    fun hd => not_asleep_of_running (hd.trans hrun)
  cases k with
  | exit => cases hb
  | yield | forkret | sleep =>
    cases hb
    exact Proc.tame_running hrun (active_of_running hrun) rfl rfl rfl (fun _ => trivial) (hasleep rfl)
  | wait =>
    cases hb
    refine Proc.tame_running hrun (active_of_running hrun) rfl rfl rfl (fun hready => ?_) (hasleep rfl)
    rw [Proc.Ready, hpc] at hready
    exact hready.1

theorem Scheduled.tame_enter (h : Scheduled m) (hplace : (m.cpu c).place = .running p)
    {s : Section} (hm : m.enter c p s = some m') : Tame m m' := by
  have hp := h.eq_running hplace
  unfold Machine.enter at hm
  split at hm
  next hcan =>
    obtain ⟨hfree, henabled, -⟩ := hcan
    cases hm
    rw [Proc.OnCpu, hfree] at hp
    have hone : Tame m (m.modify p (Proc.setPc (.locked s))) :=
      tame_one (Proc.tame_running hp (active_of_running hp) rfl rfl rfl
        (fun _ => henabled.of_forking rfl) (not_asleep_of_running hp))
    exact hone.congr rfl rfl
  next => cases hm

theorem Scheduled.effect_copy (h : Scheduled m) (hplace : (m.cpu c).place = .running p)
    {memory : Bool} (hm : m.copy p memory = some m') : Effect m m' := by
  obtain ⟨np, hfree, hforking, hcases⟩ := copy_cases hm
  have hrun := h.eq_running hplace
  rw [Proc.OnCpu, hfree] at hrun
  rcases hcases with rfl | rfl
  · exact .copied p np hrun hfree hforking
  · exact .failed p np hrun hfree hforking

theorem tame_fault (hm : m.fault p = some m') : Tame m m' := by
  unfold Machine.fault at hm
  split at hm
  next hfree =>
    cases hm
    apply tame_one
    refine ⟨.inl rfl, rfl, rfl, rfl, fun _ => rfl, fun _ => ?_, .inl⟩
    unfold Proc.Ready
    simp only [hfree]
  next => cases hm

theorem tame_interrupt (m : Machine C) (chan : Chan) : Tame m (m.wakeup1 chan) where
  proc _ := (Proc.awoken_wake ..).tame (Proc.parent_wake ..) _ _
  history := rfl

theorem Cpu.running_eq_some {a : Cpu} (h : a.running = some p) : a.place = .running p := by
  unfold Cpu.running at h
  split at h
  next q hq =>
    cases h
    exact hq
  next => cases h

section Step

variable [DecidableEq C]

theorem Scheduled.tame_schedule (h : Scheduled m) (hm : m.schedule c = some m') : Tame m m' := by
  have hc := h.cpuOk c
  unfold Machine.schedule at hm
  unfold Machine.CpuOk at hc
  cases hplace : (m.cpu c).place with
  | idle =>
    simp only [hplace] at hm
    split at hm
    next =>
      cases hm
      exact (Tame.refl m).congr rfl rfl
    next => cases hm
  | scan i =>
    simp only [hplace] at hm
    split at hm
    next hi =>
      split at hm
      next hrunnable =>
        cases hm
        have hone : Tame m (m.modify ⟨i, hi⟩ (Proc.setState .RUNNING)) := by
          apply tame_one
          exact Proc.tame_active (.inr (.inl hrunnable)) (.inr (.inr rfl)) rfl rfl rfl
            (fun hready => hready.congr rfl rfl rfl nofun) fun hasleep => nomatch hasleep.1
        exact hone.congr rfl rfl
      next =>
        cases hm
        exact (Tame.refl m).congr rfl rfl
    next =>
      cases hm
      exact (Tame.refl m).congr rfl rfl
  | switchTo p =>
    simp only [hplace] at hc hm
    obtain ⟨-, -, hrun, k, hk, -⟩ := hc
    simp only [hk, Option.map_eq_some_iff] at hm
    obtain ⟨b, hb, rfl⟩ := hm
    have hone : Tame m (m.modify p fun _ => b) := tame_one (Proc.tame_resume hrun hk hb)
    exact hone.congr rfl rfl
  | running p => simp [hplace] at hm
  | back p =>
    simp only [hplace] at hm
    cases hm
    exact (Tame.refl m).congr rfl rfl

theorem Scheduled.effect_run (h : Scheduled m) (hready : (m.proc p).Ready p)
    (hplace : (m.cpu c).place = .running p) (hm : m.run c p = some m') : Effect m m' := by
  have hp := h.eq_running hplace
  unfold Machine.run at hm
  unfold Proc.OnCpu at hp
  unfold Proc.Ready at hready
  cases hpc : (m.proc p).pc with
  | free => simp [hpc] at hm
  | locked s => grind [Option.some.injEq, effect_body]
  | release =>
    simp only [hpc, Option.some.injEq] at hm hp
    subst hm
    have hone : Tame m (m.modify p (Proc.setPc .free)) :=
      tame_one (Proc.tame_running hp.2 (active_of_running hp.2) rfl rfl rfl (fun _ => trivial)
        (not_asleep_of_running hp.2))
    exact .tame (hone.congr rfl rfl)
  | swtch k =>
    simp only [hpc, Option.some.injEq] at hm hp
    subst hm
    have hone : Tame m (m.modify p (Proc.setPc (.saved k))) := by
      apply tame_one
      refine ⟨.inl rfl, rfl, rfl, rfl, fun hvacant => ?_, fun hr => ?_, .inl⟩
      · rcases hvacant with hs | hs <;> rw [hs] at hp <;> exact hp.2.elim
      · rw [Proc.Ready, hpc] at hr
        cases k with
        | wait => exact hr
        | yield | sleep | forkret | exit => trivial
    exact .tame (hone.congr rfl rfl)
  | saved k => simp [hpc] at hm

theorem Scheduled.effect (h : Scheduled m) (hready : ∀ p, (m.proc p).Ready p) (hs : Step m m') : Effect m m' := by
  obtain ⟨e, he⟩ := hs
  cases e with
  | schedule c => exact .tame (h.tame_schedule he)
  | enter c s =>
    obtain ⟨p, hp, hm⟩ := Option.bind_eq_some_iff.1 he
    exact .tame (h.tame_enter (Cpu.running_eq_some hp) hm)
  | run c =>
    obtain ⟨p, hp, hm⟩ := Option.bind_eq_some_iff.1 he
    exact h.effect_run (hready p) (Cpu.running_eq_some hp) hm
  | copy c memory =>
    obtain ⟨p, hp, hm⟩ := Option.bind_eq_some_iff.1 he
    exact h.effect_copy (Cpu.running_eq_some hp) hm
  | fault c =>
    obtain ⟨p, -, hm⟩ := Option.bind_eq_some_iff.1 he
    exact .tame (tame_fault hm)
  | interrupt c ch =>
    simp only [Ptable.step] at he
    split at he
    next =>
      cases he
      exact .tame (tame_interrupt m _)
    next => cases he

end Step

/-! ## The invariant of `fork` -/

section Embryos

theorem Embryos.fork (h : Embryos m) (hforking : ∀ a ≠ p, (m'.proc a).forking = (m.proc a).forking)
    (hkeep : ∀ a ≠ p, ∀ np, (m.proc a).Forks np → (m'.proc np).state = .EMBRYO ∧ (m'.proc np).pc = (m.proc np).pc)
    (hp : ∀ np, (m'.proc p).Forks np → (m'.proc np).state = .EMBRYO ∧
      ((m'.proc p).forking = .copied np → (m'.proc np).pc = .saved .forkret) ∧
        ∀ a ≠ p, ¬ (m.proc a).Forks np) : Embryos m' := by
  have hforks : ∀ a ≠ p, ∀ np, (m'.proc a).Forks np → (m.proc a).Forks np := by
    intro a ha np hnp
    rwa [Proc.Forks, hforking a ha] at hnp
  refine ⟨fun a np hnp => ?_, fun a np hnp => ?_, fun a a' np hnp hnp' => ?_⟩
  · rcases eq_or_ne a p with rfl | ha
    · exact (hp np hnp).1
    · exact (hkeep a ha np (hforks a ha np hnp)).1
  · rcases eq_or_ne a p with rfl | ha
    · exact (hp np (.inr hnp)).2.1 hnp
    · rw [hforking a ha] at hnp
      rw [(hkeep a ha np (.inr hnp)).2]
      exact h.context a np hnp
  · by_cases ha : a = p <;> by_cases ha' : a' = p
    · rw [ha, ha']
    · exact absurd (hforks a' ha' np hnp') ((hp np (ha ▸ hnp)).2.2 a' ha')
    · exact absurd (hforks a ha np hnp) ((hp np (ha' ▸ hnp')).2.2 a ha)
    · exact h.unique a a' np (hforks a ha np hnp) (hforks a' ha' np hnp')

theorem Embryos.keep (h : Embryos m) (hforking : ∀ a, (m'.proc a).forking = (m.proc a).forking)
    (hkeep : ∀ np, (m.proc np).state = .EMBRYO →
      (m'.proc np).state = .EMBRYO ∧ (m'.proc np).pc = (m.proc np).pc) : Embryos m' := by
  refine ⟨fun a np hnp => ?_, fun a np hnp => ?_, fun a a' np hnp hnp' => ?_⟩
  all_goals grind [Proc.Forks, Proc.embryo]

theorem ne_of_state {p q : Slot} {s : ProcState} (hp : (m.proc p).state = s) (hq : (m.proc q).state ≠ s) : p ≠ q := by
  rintro rfl
  exact hq hp

/-- What another process makes in its `fork` is neither `p`, which runs, nor what `p` makes. -/
theorem Embryos.apart (h : Embryos m) (hrun : (m.proc p).state = .RUNNING)
    (hp : (m.proc p).Forks np) {a x : Slot} (ha : a ≠ p) (hx : (m.proc a).Forks x) :
    x ≠ p ∧ x ≠ np := by
  refine ⟨ne_of_state (h.embryo a x hx) (by rw [hrun]; decide), ?_⟩
  rintro rfl
  exact ha (h.unique a p x hx hp)

theorem Embryos.finish (h : Embryos m) (hrun : (m.proc p).state = .RUNNING)
    (hp : (m.proc p).Forks np) {f g : Proc → Proc} (hg : ∀ a, (g a).forking = a.forking)
    (hf : ∀ a, (f a).forking = .none) : Embryos ((m.modify np g).modify p f) := by
  refine h.fork (p := p) (fun a ha => ?_) (fun a ha x hx => ?_) fun x hx => ?_
  · rw [Machine.modify_of_ne _ _ ha]
    rcases eq_or_ne a np with rfl | hnp
    · rw [Machine.modify_self, hg]
    · rw [Machine.modify_of_ne _ _ hnp]
  all_goals grind [Proc.embryo, Proc.Forks, Machine.modify_modify_of_ne, Machine.modify_self]

theorem Embryos.congr (h : Embryos m) (hproc : m'.proc = m.proc) : Embryos m' :=
  h.keep (fun _ => by rw [hproc]) fun _ hnp => by rw [hproc]; exact ⟨hnp, rfl⟩

theorem Embryos.recordExit (h : Embryos m) {birth : Nat} : Embryos (m.recordExit birth) := h.congr rfl

theorem Embryos.effect (h : Embryos m) (he : Effect m m') : Embryos m' := by
  cases he with
  | tame ht =>
    refine h.keep (fun a => (ht.proc a).forking) fun np hnp => ?_
    refine ⟨?_, (ht.proc np).context (.inr hnp)⟩
    rcases (ht.proc np).state with hsame | ⟨hactive, -⟩
    · exact hsame.trans hnp
    · rw [ProcState.Active, hnp] at hactive
      simp at hactive
  | reap p q hrun _ hzombie =>
    have hkept : Embryos ((m.modify q Proc.reap).modify p (Proc.return (m.proc q).pid)) := by
      have hpq : p ≠ q := ne_of_state hrun (by rw [hzombie]; decide)
      refine h.keep ?_ fun np hnp => ?_
      · exact m.forall_modify_modify (P := fun a d => d.forking = (m.proc a).forking) hpq rfl rfl fun _ _ _ => rfl
      · rw [Machine.modify_modify_of_ne _ _ _ (ne_of_state hnp (by rw [hrun]; decide))
          (ne_of_state hnp (by rw [hzombie]; decide))]
        exact ⟨hnp, rfl⟩
    exact hkept.congr rfl
  | exit p hrun _ _ =>
    have hloop := abandoned_abandonAll (m.wakeParent p) p
    have hawoken : ∀ a, (m.proc a).Awoken (((m.wakeParent p).abandonAll p).proc a) :=
      fun a => (m.awoken_wakeParent p a).trans (hloop.awoken a)
    have hkept : Embryos (((m.wakeParent p).abandonAll p).modify p (Proc.sched .ZOMBIE .exit)) := by
      refine h.keep (fun a => ?_) fun np hnp => ?_
      · rcases eq_or_ne a p with rfl | ha
        · rw [Machine.modify_self]
          exact (hawoken a).forking
        · rw [Machine.modify_of_ne _ _ ha]
          exact (hawoken a).forking
      · rw [Machine.modify_of_ne _ _ (ne_of_state hnp (by rw [hrun]; decide)),
          (hawoken np).state_eq (by rw [hnp]; decide)]
        exact ⟨hnp, (hawoken np).pc⟩
    exact hkept.recordExit
  | alloc p q hrun _ hunused =>
    have hpq : p ≠ q := ne_of_state hrun (by rw [hunused]; decide)
    have hnew : Embryos ((m.modify q (Proc.embryo m.nextpid m.births)).modify p
        (Proc.leave ∘ Proc.setForking (.allocated q))) := by
      refine h.fork (p := p) (fun a ha => ?_) (fun a ha x hx => ?_) fun x hx => ?_
      · rw [Machine.modify_of_ne _ _ ha]
        rcases eq_or_ne a q with rfl | hq
        · rw [Machine.modify_self]
          rfl
        · rw [Machine.modify_of_ne _ _ hq]
      · have hembryo := h.embryo a x hx
        rw [Machine.modify_modify_of_ne _ _ _ (ne_of_state hembryo (by rw [hrun]; decide))
          (ne_of_state hembryo (by rw [hunused]; decide))]
        exact ⟨hembryo, rfl⟩
      · rw [Machine.modify_self] at hx
        obtain rfl : q = x := by
          rcases hx with hx | hx
          · exact Forking.allocated.inj hx
          · cases hx
        rw [Machine.modify_of_ne _ _ hpq.symm, Machine.modify_self, Machine.modify_self]
        refine ⟨rfl, nofun, fun a _ ha => ?_⟩
        rw [h.embryo a q ha] at hunused
        cases hunused
    exact hnew.congr rfl
  | copied p np hrun _ hforking =>
    have hembryo := h.embryo p np (.inl hforking)
    have hne : np ≠ p := ne_of_state hembryo (by rw [hrun]; decide)
    refine h.fork (p := p) (fun a ha => ?_) (fun a ha x hx => ?_) fun x hx => ?_
    · rw [Machine.modify_of_ne _ _ ha]
      rcases eq_or_ne a np with rfl | hnp
      · rw [Machine.modify_self]
        rfl
      · rw [Machine.modify_of_ne _ _ hnp]
    · obtain ⟨hxp, hxnp⟩ := h.apart hrun (.inl hforking) ha hx
      rw [Machine.modify_modify_of_ne _ _ _ hxp hxnp]
      exact ⟨h.embryo a x hx, rfl⟩
    · rw [Machine.modify_self] at hx
      obtain rfl : np = x := by
        rcases hx with hx | hx
        · cases hx
        · exact Forking.copied.inj hx
      rw [Machine.modify_of_ne _ _ hne, Machine.modify_self]
      exact ⟨hembryo, fun _ => rfl, fun a ha hforks => ha (h.unique a p np hforks (.inl hforking))⟩
  | failed p np hrun _ hforking => exact h.finish hrun (.inl hforking) (fun _ => rfl) fun _ => rfl
  | start p np hrun hforking =>
    have hdone : Embryos ((m.modify np (Proc.setState .RUNNABLE)).modify p
        (Proc.return (m.proc np).pid ∘ Proc.setForking .none)) :=
      h.finish hrun (.inr hforking) (fun _ => rfl) fun _ => rfl
    exact hdone.congr rfl

end Embryos

/-! ## The invariant of the system -/

theorem ready_effect (hready : ∀ p, (m.proc p).Ready p) (hembryos : Embryos m) (he : Effect m m')
    (x : Slot) : (m'.proc x).Ready x := by
  cases he with
  | tame ht => exact (ht.proc x).ready (hready x)
  | reap p q hrun _ hzombie =>
    refine m.forall_modify_modify (P := fun a d => d.Ready a)
      (ne_of_state hrun (by rw [hzombie]; decide)) ?_ ?_ (fun a _ _ => hready a) x
    · trivial
    · exact (hready q).congr rfl rfl rfl nofun
  | exit p hrun _ _ =>
    have hloop := abandoned_abandonAll (m.wakeParent p) p
    rcases eq_or_ne x p with rfl | hx
    · rw [Machine.exit, Machine.recordExit, Machine.modify_self]
      trivial
    · rw [Machine.exit, Machine.recordExit, Machine.modify_of_ne _ _ hx]
      exact ((m.awoken_wakeParent p x).trans (hloop.awoken x)).ready (hready x)
  | alloc p q hrun _ hunused =>
    refine m.forall_modify_modify (P := fun a d => d.Ready a)
      (ne_of_state hrun (by rw [hunused]; decide)) ?_ ?_ (fun a _ _ => hready a) x
    · trivial
    · exact (hready q).congr rfl rfl rfl nofun
  | copied p np hrun hfree hforking =>
    have hembryo := hembryos.embryo p np (.inl hforking)
    refine m.forall_modify_modify (P := fun a d => d.Ready a)
      (ne_of_state hrun (by rw [hembryo]; decide)) ?_ ?_ (fun a _ _ => hready a) x
    · unfold Proc.Ready
      simp only [Proc.setForking, hfree]
    · trivial
  | failed p np hrun hfree hforking =>
    have hembryo := hembryos.embryo p np (.inl hforking)
    refine m.forall_modify_modify (P := fun a d => d.Ready a)
      (ne_of_state hrun (by rw [hembryo]; decide)) ?_ ?_ (fun a _ _ => hready a) x
    · unfold Proc.Ready
      simp only [Proc.forkFailed, hfree]
    · exact (hready np).congr rfl rfl rfl nofun
  | start p np hrun hforking =>
    have hembryo := hembryos.embryo p np (.inr hforking)
    refine m.forall_modify_modify (P := fun a d => d.Ready a)
      (ne_of_state hrun (by rw [hembryo]; decide)) ?_ ?_ (fun a _ _ => hready a) x
    · trivial
    · exact (hready np).congr rfl rfl rfl nofun

@[grind cases eager]
structure Sound (m : Machine C) : Prop where
  scheduled : Scheduled m
  embryos : Embryos m
  ready : ∀ p, (m.proc p).Ready p

theorem Sound.effect [DecidableEq C] (h : Sound m) (hs : Step m m') : Effect m m' :=
  h.scheduled.effect h.ready hs

theorem Sound.step [DecidableEq C] (h : Sound m) (hs : Step m m') : Sound m' := by
  refine ⟨?_, h.embryos.effect (h.effect hs), ready_effect h.ready h.embryos (h.effect hs)⟩
  obtain ⟨e, he⟩ := hs
  cases e with
  | schedule c => exact h.scheduled.schedule he
  | enter c s =>
    obtain ⟨p, hp, hm⟩ := Option.bind_eq_some_iff.1 he
    exact h.scheduled.enter (Cpu.running_eq_some hp) hm
  | run c =>
    obtain ⟨p, hp, hm⟩ := Option.bind_eq_some_iff.1 he
    exact h.scheduled.run h.embryos (Cpu.running_eq_some hp) hm
  | copy c memory =>
    obtain ⟨p, hp, hm⟩ := Option.bind_eq_some_iff.1 he
    exact h.scheduled.copy h.embryos (Cpu.running_eq_some hp) hm
  | fault c =>
    obtain ⟨p, -, hm⟩ := Option.bind_eq_some_iff.1 he
    exact h.scheduled.fault hm
  | interrupt c ch =>
    simp only [Ptable.step] at he
    split at he
    next hcan =>
      cases he
      exact h.scheduled.interrupt hcan.1 hcan.2 _
    next => cases he

theorem forking_boot (p : Slot) : ((boot C).proc p).forking = .none := by
  rcases eq_or_ne p initproc with rfl | hp
  · rfl
  · simp only [boot, Function.update_of_ne hp]
    rfl

theorem pc_boot (p : Slot) : ((boot C).proc p).pc = .saved .forkret := by
  rcases eq_or_ne p initproc with rfl | hp
  · rfl
  · simp only [boot, Function.update_of_ne hp]
    rfl

theorem sound_boot : Sound (boot C) where
  scheduled :=
    { cpuOk := fun _ => rfl
      placed := by
        intro p
        refine .inl ⟨.forkret, pc_boot p, ?_⟩
        rcases eq_or_ne p initproc with rfl | hp
        · exact .inr (nofun : Cont.forkret ≠ Cont.exit)
        · simp only [boot, Function.update_of_ne hp]
          exact .inl (.inl rfl)
      unique := nofun }
  embryos := by
    have hnone : ∀ p np, ¬ ((boot C).proc p).Forks np := by
      intro p np hnp
      rw [Proc.Forks, forking_boot] at hnp
      simp at hnp
    refine ⟨fun p np hnp => absurd hnp (hnone p np), fun p np hnp => ?_, fun p _ np hnp _ => absurd hnp (hnone p np)⟩
    exact absurd (.inr hnp) (hnone p np)
  ready p := by
    unfold Proc.Ready
    rw [pc_boot]
    trivial

theorem sound_of_reachable [DecidableEq C] (hreach : Relation.ReflTransGen Step (boot C) m) :
    Sound m :=
  invariant_of_reachable Sound sound_boot (fun _ _ => Sound.step) hreach

theorem Scheduled.running_of_free (h : Scheduled m) (hfree : m.lock = none)
    (hproc : (m.cpu c).proc = some p) : (m.proc p).state = .RUNNING := by
  rcases h.others (c := c) (by simp [hfree]) with ⟨-, hnone⟩ | ⟨q, -, hq, -, hrun⟩
  all_goals grind

theorem Scheduled.exists_of_running (h : Scheduled m) (hrun : (m.proc p).state = .RUNNING) :
    ∃ c, (m.cpu c).proc = some p := by
  rcases h.placed p with hrest | ⟨c, hhas⟩
  · exact absurd hrun hrest.state_ne
  · exact ⟨c, hhas.eq_proc (h.cpuOk c)⟩

/-- While `ptable.lock` is free, the `RUNNING` processes are those on exactly one processor.  At all
times no two processors are on one kernel stack, and a processor that is about to go to the stack of a
process finds its registers saved and no processor on it. -/
theorem scheduling_exclusive [DecidableEq C] (hreach : Relation.ReflTransGen Step (boot C) m) :
    (m.lock = none → ∀ p, (m.proc p).state = .RUNNING ↔ ∃! c, (m.cpu c).proc = some p) ∧
      (∀ c c' p, (m.cpu c).place = .running p → (m.cpu c').place = .running p → c = c') ∧
      ∀ c p, (m.cpu c).place = .switchTo p →
        (∃ k, (m.proc p).pc = .saved k) ∧ ∀ c', (m.cpu c').place ≠ .running p := by
  have h := (sound_of_reachable hreach).scheduled
  have hproc : ∀ {c p}, (m.cpu c).Has p → (m.cpu c).proc = some p :=
    fun hhas => hhas.eq_proc (h.cpuOk _)
  refine ⟨fun hfree p => ⟨fun hrun => ?_, fun ⟨c, hc, _⟩ => h.running_of_free hfree hc⟩,
    fun c c' p hc hc' => ?_, fun c p hc => ?_⟩
  · obtain ⟨c, hc⟩ := h.exists_of_running hrun
    exact ⟨c, hc, fun c' hc' => h.unique _ _ _ hc' hc⟩
  · exact h.unique c c' p (hproc (Or.inr hc)) (hproc (Or.inr hc'))
  · have hok := h.cpuOk c
    rw [Machine.CpuOk, hc] at hok
    obtain ⟨hmine, -, -, k, hk, -⟩ := hok
    refine ⟨⟨k, hk⟩, fun c' hc' => ?_⟩
    obtain rfl : c' = c := h.unique c' c p (hproc (Or.inr hc')) hmine
    rw [hc] at hc'
    cases hc'

/-- Two processors start, and one of them runs `initproc` up to user space. -/
def bootRun : List (Event Bool) :=
  [.schedule true, .schedule true, .schedule true, .run true]

theorem scheduling_exclusive_bootRun :
    ∃ m : Machine Bool, m.lock = none ∧ (m.cpu true).place = .running initproc ∧
      ((m.lock = none → ∀ p, (m.proc p).state = .RUNNING ↔ ∃! c, (m.cpu c).proc = some p) ∧
      (∀ c c' p, (m.cpu c).place = .running p → (m.cpu c').place = .running p → c = c') ∧
      ∀ c p, (m.cpu c).place = .switchTo p →
        (∃ k, (m.proc p).pc = .saved k) ∧ ∀ c', (m.cpu c').place ≠ .running p) :=
  ⟨_, rfl, rfl, scheduling_exclusive (reachable_of_foldlM (s := boot Bool) bootRun rfl)⟩

end AsoPracticas.Xv6.Ptable
