import AsoPracticas.Xv6.Ptable

/-!
# Stacks — which processor is on which kernel stack

Every entry of the table either rests, with its registers saved, or belongs to one processor
(`Scheduled.placed`), and only the holder of `ptable.lock` moves it from one to the other.
-/

namespace AsoPracticas.Xv6.Ptable

variable {C : Type} {m m' : Machine C} {c : C} {p q : Slot}

/-! ## The invariant -/

/-- The states in which a process that continues at `k` leaves its processor. -/
def Cont.Leaves (k : Cont) : ProcState → Prop
  | .SLEEPING => k = .sleep ∨ k = .wait
  | .RUNNABLE => k ≠ .exit
  | .ZOMBIE => k = .exit
  | _ => False

def ProcState.Vacant (state : ProcState) : Prop := state = .UNUSED ∨ state = .EMBRYO

/-- No processor is on the stack of the process, nor about to be. -/
def Proc.AtRest (a : Proc) : Prop := ∃ k, a.pc = .saved k ∧ (a.state.Vacant ∨ k.Leaves a.state)

/-- A process whose stack a processor is on.  `locked` says that this processor holds the lock. -/
def Proc.OnCpu (locked : Prop) (a : Proc) : Prop :=
  match a.pc with
  | .free => a.state = .RUNNING
  | .locked _ => locked ∧ a.state = .RUNNING
  | .release => locked ∧ a.state = .RUNNING
  | .swtch k => locked ∧ k.Leaves a.state
  | .saved _ => False

/-- What the place of a processor says about its `proc`, the lock and the process. -/
def Machine.CpuOk (m : Machine C) (c : C) : Prop :=
  match (m.cpu c).place with
  | .idle => (m.cpu c).proc = none
  | .scan _ => (m.cpu c).proc = none ∧ m.lock = some c
  | .switchTo p =>
    (m.cpu c).proc = some p ∧ m.lock = some c ∧ (m.proc p).state = .RUNNING ∧ ∃ k, (m.proc p).pc = .saved k ∧ k ≠ .exit
  | .running p => (m.cpu c).proc = some p ∧ (m.proc p).OnCpu (m.lock = some c)
  | .back p => (m.cpu c).proc = some p ∧ m.lock = some c

/-- A processor has the process, on its stack or about to be. -/
def Cpu.Has (a : Cpu) (p : Slot) : Prop := a.place = .switchTo p ∨ a.place = .running p

@[grind cases eager]
structure Scheduled (m : Machine C) : Prop where
  cpuOk : ∀ c, m.CpuOk c
  placed : ∀ p, (m.proc p).AtRest ∨ ∃ c, (m.cpu c).Has p
  unique : ∀ c c' p, (m.cpu c).proc = some p → (m.cpu c').proc = some p → c = c'

theorem Proc.AtRest.state_ne {a : Proc} (h : a.AtRest) : a.state ≠ .RUNNING := by
  obtain ⟨k, -, hk⟩ := h
  intro hrun
  rw [hrun] at hk
  simp [ProcState.Vacant, Cont.Leaves] at hk

theorem Proc.OnCpu.not_vacant {a : Proc} {locked : Prop} (h : a.OnCpu locked) : ¬ a.state.Vacant := by
  unfold Proc.OnCpu at h
  rintro (hs | hs) <;> rw [hs] at h <;> split at h <;> simp [Cont.Leaves] at h

theorem Proc.OnCpu.of_eq {a b : Proc} {locked : Prop} (h : a.OnCpu locked) (hpc : b.pc = a.pc)
    (hstate : b.state = a.state) : b.OnCpu locked := by
  unfold Proc.OnCpu at *
  rwa [hpc, hstate]

theorem Proc.AtRest.of_eq {a b : Proc} (h : a.AtRest) (hpc : b.pc = a.pc) (hstate : b.state = a.state) : b.AtRest := by
  unfold Proc.AtRest at *
  rwa [hpc, hstate]

theorem Proc.OnCpu.running {a : Proc} (h : a.OnCpu False) : a.pc = .free ∧ a.state = .RUNNING := by
  unfold Proc.OnCpu at h
  split at h <;> simp_all

theorem Cpu.Has.eq_proc (h : m.CpuOk c) (hp : (m.cpu c).Has p) : (m.cpu c).proc = some p := by
  grind [Machine.CpuOk, Cpu.Has]

theorem Scheduled.congr (h : Scheduled m) (hproc : m'.proc = m.proc) (hcpu : m'.cpu = m.cpu)
    (hlock : m'.lock = m.lock) : Scheduled m' where
  cpuOk c := by
    have hc := h.cpuOk c
    unfold Machine.CpuOk at *
    rwa [hproc, hcpu, hlock]
  placed p := by
    rw [hproc, hcpu]
    exact h.placed p
  unique := by
    rw [hcpu]
    exact h.unique

theorem Scheduled.recordReap (h : Scheduled m) {b b' : Nat} : Scheduled (m.recordReap b b') :=
  h.congr rfl rfl rfl

theorem Scheduled.recordExit (h : Scheduled m) {b : Nat} : Scheduled (m.recordExit b) := h.congr rfl rfl rfl

theorem Scheduled.recordFork (h : Scheduled m) {b b' : Nat} : Scheduled (m.recordFork b b') :=
  h.congr rfl rfl rfl

theorem Scheduled.nextBirth (h : Scheduled m) : Scheduled m.nextBirth := h.congr rfl rfl rfl

/-! ## What one processor can change -/

theorem lock_ne (hlock : m.lock = some c) : ∀ c' ≠ c, m.lock ≠ some c' := by
  intro c' hne heq
  exact hne (Option.some.inj (heq.symm.trans hlock))

/-- For the scheduler the process stays as it was, or it rests before and after. -/
def Proc.Steady (a b : Proc) : Prop :=
  (b.pc = a.pc ∧ b.state = a.state) ∨ (a.state ≠ .RUNNING ∧ (a.AtRest → b.AtRest))

theorem Scheduled.others (h : Scheduled m) (hlock : m.lock ≠ some c) :
    ((m.cpu c).place = .idle ∧ (m.cpu c).proc = none) ∨
      ∃ q, (m.cpu c).place = .running q ∧ (m.cpu c).proc = some q ∧ (m.proc q).pc = .free ∧
        (m.proc q).state = .RUNNING := by
  have hc := h.cpuOk c
  unfold Machine.CpuOk at hc
  split at hc
  next hplace => exact .inl ⟨hplace, hc⟩
  next => exact absurd hc.2 hlock
  next => exact absurd hc.2.1 hlock
  next q hplace =>
    have hfalse : (m.lock = some c) = False := eq_false hlock
    rw [hfalse] at hc
    exact .inr ⟨q, hplace, hc.1, hc.2.running⟩
  next => exact absurd hc.2 hlock

/-- While only `c` can hold the lock, a process that is neither on `c` nor `RUNNING` rests. -/
theorem Scheduled.atRest (h : Scheduled m) (hlock : ∀ c' ≠ c, m.lock ≠ some c')
    (hq : (m.cpu c).proc ≠ some q) (hstate : (m.proc q).state ≠ .RUNNING) : (m.proc q).AtRest := by
  rcases h.placed q with hrest | ⟨c', hhas⟩
  · exact hrest
  · exfalso
    have hproc := hhas.eq_proc (h.cpuOk c')
    have hne : c' ≠ c := by
      rintro rfl
      exact hq hproc
    rcases h.others (hlock c' hne) with ⟨-, hnone⟩ | ⟨q', -, hproc', -, hrun⟩
    all_goals grind

/-- A step of the processor `c`, alone with the lock or with the lock free.  It answers for its own
process and for those it takes; the others it may only wake up or change while they rest. -/
theorem Scheduled.change (h : Scheduled m) (hlock : ∀ c' ≠ c, m.lock ≠ some c')
    (hlock' : ∀ c' ≠ c, m'.lock ≠ some c') (hcpu : ∀ c' ≠ c, m'.cpu c' = m.cpu c')
    (hc : m'.CpuOk c)
    (htaken : ∀ q, (m'.cpu c).proc = some q → (m.cpu c).proc = some q ∨ (m.proc q).AtRest)
    (hown : ∀ q, (m.cpu c).proc = some q → (m'.cpu c).Has q ∨ (m'.proc q).AtRest)
    (hothers : ∀ q, (m.cpu c).proc ≠ some q → (m'.cpu c).Has q ∨ (m.proc q).Steady (m'.proc q)) : Scheduled m' := by
  -- what another processor runs is not touched
  have hfar : ∀ c' ≠ c, ∀ q, (m.cpu c').proc = some q →
      (m'.cpu c).proc ≠ some q ∧ (m'.proc q).pc = (m.proc q).pc ∧ (m'.proc q).state = (m.proc q).state := by
    intro c' hne q hq
    rcases h.others (hlock c' hne) with ⟨-, hnone⟩ | ⟨q', -, hproc', -, hrun⟩
    · rw [hnone] at hq
      cases hq
    · obtain rfl : q' = q := Option.some.inj (hproc'.symm.trans hq)
      have hnot : (m.cpu c).proc ≠ some q' := fun hmine => hne (h.unique _ _ _ hq hmine)
      have hnot' : (m'.cpu c).proc ≠ some q' := by
        intro hmine
        rcases htaken q' hmine with hbefore | hrest
        · exact hnot hbefore
        · exact hrest.state_ne hrun
      grind [Machine.CpuOk, Proc.AtRest, Cpu.Has, Proc.Steady]
  refine ⟨fun c' => ?_, fun q => ?_, fun c1 c2 q h1 h2 => ?_⟩
  · by_cases hne : c' = c
    · exact hne ▸ hc
    · unfold Machine.CpuOk
      rw [hcpu c' hne]
      rcases h.others (hlock c' hne) with ⟨hplace, hnone⟩ | ⟨q, hplace, hq, hfree, hrun⟩
      all_goals grind [Machine.CpuOk, Proc.OnCpu, Proc.AtRest, Cpu.Has, Proc.Steady]
  · by_cases hmine : (m.cpu c).proc = some q
    · exact (hown q hmine).elim (fun hhas => .inr ⟨c, hhas⟩) .inl
    · rcases hothers q hmine with hhas | ⟨hpc, hstate⟩ | ⟨hstopped, hrest⟩
      · exact .inr ⟨c, hhas⟩
      · rcases h.placed q with hbefore | ⟨c', hhas⟩
        · exact .inl (hbefore.of_eq hpc hstate)
        · have hne : c' ≠ c := by
            rintro rfl
            exact hmine (hhas.eq_proc (h.cpuOk c'))
          exact .inr ⟨c', by rwa [hcpu c' hne]⟩
      · exact .inl (hrest (h.atRest hlock hmine hstopped))
  · by_cases hc1 : c1 = c <;> by_cases hc2 : c2 = c
    all_goals grind

theorem Scheduled.update (h : Scheduled m) (hplace : (m.cpu c).place = .running p)
    (hlock : ∀ c' ≠ c, m.lock ≠ some c') (hlock' : ∀ c' ≠ c, m'.lock ≠ some c')
    (hcpu : m'.cpu = m.cpu) (hp : (m'.proc p).OnCpu (m'.lock = some c))
    (hothers : ∀ q ≠ p, (m.proc q).Steady (m'.proc q)) : Scheduled m' := by
  have hproc : (m.cpu c).proc = some p := Cpu.Has.eq_proc (h.cpuOk c) (.inr hplace)
  apply h.change hlock hlock' (fun _ _ => by rw [hcpu])
  · unfold Machine.CpuOk
    rw [hcpu, hplace]
    exact ⟨hproc, hp⟩
  · intro q hq
    rw [hcpu] at hq
    exact .inl hq
  · intro q hq
    obtain rfl : p = q := Option.some.inj (hproc.symm.trans hq)
    rw [hcpu]
    exact .inl (.inr hplace)
  grind

theorem Proc.Steady.refl (a : Proc) : a.Steady a := .inl ⟨rfl, rfl⟩

theorem Proc.Awoken.steady {a b : Proc} (h : a.Awoken b) : a.Steady b := by
  rcases h.state with hsame | ⟨hsleep, hrun⟩
  · exact .inl ⟨h.pc, hsame⟩
  · refine .inr ⟨by rw [hsleep]; decide, ?_⟩
    rintro ⟨k, hk, hvacant | hleaves⟩
    · rw [hsleep] at hvacant
      simp [ProcState.Vacant] at hvacant
    refine ⟨k, h.pc.trans hk, .inr ?_⟩
    rw [hrun]
    rw [hsleep] at hleaves
    rcases hleaves with rfl | rfl
    · exact (nofun : Cont.sleep ≠ Cont.exit)
    · exact (nofun : Cont.wait ≠ Cont.exit)

/-! ## Processes in `fork` -/

/-- The process is in the middle of a `fork` that makes `np`. -/
def Proc.Forks (a : Proc) (np : Slot) : Prop := a.forking = .allocated np ∨ a.forking = .copied np

/-- The entries that processes work on in `fork`, outside the lock. -/
@[grind cases eager]
structure Embryos (m : Machine C) : Prop where
  embryo : ∀ p np, (m.proc p).Forks np → (m.proc np).state = .EMBRYO
  context : ∀ p np, (m.proc p).forking = .copied np → (m.proc np).pc = .saved .forkret
  unique : ∀ p p' np, (m.proc p).Forks np → (m.proc p').Forks np → p = p'

/-! ## The sections -/

section Sections

variable {m1 : Machine C} {f : Proc → Proc}

theorem Scheduled.modify (h : Scheduled m) (hplace : (m.cpu c).place = .running p)
    (hlock : m.lock = some c) (hrun : (m.proc p).state = .RUNNING)
    (hwake : ∀ q, (m.proc q).Awoken (m1.proc q)) (hcpu : m1.cpu = m.cpu) (hlock' : m1.lock = m.lock)
    (hf : ∀ a : Proc, a.state = .RUNNING → (f a).OnCpu True) : Scheduled (m1.modify p f) := by
  have hother := lock_ne hlock
  refine h.update hplace hother (by rwa [Machine.lock_modify, hlock']) hcpu ?_ fun q hq => ?_
  · have htrue : ((m1.modify p f).lock = some c) = True := eq_true (hlock'.trans hlock)
    grind [Machine.modify_self]
  · rw [Machine.modify_of_ne _ _ hq]
    exact (hwake q).steady

theorem Scheduled.modify_entry (h : Scheduled m) (hplace : (m.cpu c).place = .running p)
    (hlock : m.lock = some c) (hrun : (m.proc p).state = .RUNNING)
    (hq : (m.proc q).state ≠ .RUNNING) {g : Proc → Proc}
    (hg : (m.proc q).AtRest → (g (m.proc q)).AtRest) (hf : (f (m.proc p)).OnCpu True) :
    Scheduled ((m.modify q g).modify p f) := by
  have hpq : p ≠ q := by
    rintro rfl
    exact hq hrun
  have hother := lock_ne hlock
  refine h.update hplace hother hother rfl ?_ fun a ha => ?_
  · have htrue : (((m.modify q g).modify p f).lock = some c) = True := eq_true hlock
    rwa [Machine.modify_self, Machine.modify_of_ne _ _ hpq, htrue]
  · rw [Machine.modify_of_ne _ _ ha]
    rcases eq_or_ne a q with rfl | haq
    · rw [Machine.modify_self]
      exact .inr ⟨hq, hg⟩
    · rw [Machine.modify_of_ne _ _ haq]
      exact .refl _

theorem Proc.onCpu_leave {a : Proc} (h : a.state = .RUNNING) : a.leave.OnCpu True := ⟨trivial, h⟩

theorem Scheduled.kill (h : Scheduled m) (hplace : (m.cpu c).place = .running p)
    (hlock : m.lock = some c) (hrun : (m.proc p).state = .RUNNING) (pid : Int) :
    Scheduled (m.kill p pid) := by
  unfold Machine.kill
  split
  next q _ =>
    refine h.modify hplace hlock hrun (fun a => ?_) rfl rfl fun a ha => Proc.onCpu_leave ha
    rcases eq_or_ne a q with rfl | ha
    · rw [Machine.modify_self]
      exact Proc.awoken_kill _
    · rw [Machine.modify_of_ne _ _ ha]
      exact .refl _
  next => exact h.modify hplace hlock hrun (fun _ => .refl _) rfl rfl fun a ha => Proc.onCpu_leave ha

theorem Scheduled.wait (h : Scheduled m) (hplace : (m.cpu c).place = .running p)
    (hlock : m.lock = some c) (hrun : (m.proc p).state = .RUNNING) : Scheduled (m.wait p) := by
  unfold Machine.wait
  split
  next q hq =>
    have hzombie : (m.proc q).state = .ZOMBIE := by grind
    -- the exited child is off its stack: it kept the lock until then
    have hreap : (m.proc q).AtRest → (m.proc q).reap.AtRest := by
      rintro ⟨k, hk, -⟩
      exact ⟨k, hk, .inl (.inl rfl)⟩
    have hstep : Scheduled ((m.modify q Proc.reap).modify p (Proc.return (m.proc q).pid)) :=
      h.modify_entry hplace hlock hrun (by rw [hzombie]; decide) hreap (Proc.onCpu_leave hrun)
    exact hstep.recordReap
  next =>
    split
    · exact h.modify hplace hlock hrun (fun _ => .refl _) rfl rfl fun a ha => Proc.onCpu_leave ha
    · exact h.modify hplace hlock hrun (fun _ => .refl _) rfl rfl fun a _ => ⟨trivial, .inr rfl⟩

theorem Scheduled.exit (h : Scheduled m) (hplace : (m.cpu c).place = .running p)
    (hlock : m.lock = some c) (hrun : (m.proc p).state = .RUNNING) : Scheduled (m.exit p) := by
  have hloop := abandoned_abandonAll (m.wakeParent p) p
  have hstep : Scheduled (((m.wakeParent p).abandonAll p).modify p (Proc.sched .ZOMBIE .exit)) := by
    refine h.modify hplace hlock hrun
      (fun q => (m.awoken_wakeParent p q).trans (hloop.awoken q)) ?_ ?_ fun a _ => ⟨trivial, rfl⟩
    · rw [hloop.frame, m.wakeParent_eq p]
    · rw [hloop.frame, m.wakeParent_eq p]
  exact hstep.recordExit

theorem Scheduled.allocproc (h : Scheduled m) (hplace : (m.cpu c).place = .running p)
    (hlock : m.lock = some c) (hrun : (m.proc p).state = .RUNNING) :
    Scheduled (m.allocproc p) := by
  unfold Machine.allocproc
  split
  next q hq =>
    have hunused : (m.proc q).state = .UNUSED := by grind
    have hrest : (m.proc q).AtRest → ((m.proc q).embryo m.nextpid m.births).AtRest := by
      rintro ⟨k, hk, -⟩
      exact ⟨k, hk, .inl (.inr rfl)⟩
    have hstep : Scheduled ((m.modify q (Proc.embryo m.nextpid m.births)).modify p
        (Proc.leave ∘ Proc.setForking (.allocated q))) :=
      h.modify_entry hplace hlock hrun (by rw [hunused]; decide) hrest (Proc.onCpu_leave hrun)
    exact hstep.nextBirth
  next => exact h.modify hplace hlock hrun (fun _ => .refl _) rfl rfl fun a ha => Proc.onCpu_leave ha

theorem Scheduled.start (h : Scheduled m) (he : Embryos m) (hplace : (m.cpu c).place = .running p)
    (hlock : m.lock = some c) (hrun : (m.proc p).state = .RUNNING) : Scheduled (m.start p) := by
  unfold Machine.start
  split
  next np hnp =>
    have hembryo := he.embryo p np (.inr hnp)
    have hrest : ((m.proc np).setState .RUNNABLE).AtRest :=
      ⟨.forkret, he.context p np hnp, .inr (nofun : Cont.forkret ≠ Cont.exit)⟩
    have hstep : Scheduled ((m.modify np (Proc.setState .RUNNABLE)).modify p
        (Proc.return (m.proc np).pid ∘ Proc.setForking .none)) :=
      h.modify_entry hplace hlock hrun (by rw [hembryo]; decide) (fun _ => hrest) (Proc.onCpu_leave hrun)
    exact hstep.recordFork
  next => exact h

theorem Scheduled.body (h : Scheduled m) (he : Embryos m) (hplace : (m.cpu c).place = .running p)
    (hlock : m.lock = some c) (hrun : (m.proc p).state = .RUNNING) (s : Section) :
    Scheduled (m.body p s) := by
  cases s with
  | yield =>
    exact h.modify hplace hlock hrun (fun _ => .refl _) rfl rfl fun a _ => ⟨trivial, (nofun : Cont.yield ≠ Cont.exit)⟩
  | sleep ch =>
    exact h.modify hplace hlock hrun (f := Proc.sleepOn (.other ch) .sleep) (fun _ => .refl _)
      rfl rfl fun a _ => ⟨trivial, .inl rfl⟩
  | wakeup ch =>
    exact h.modify hplace hlock hrun (fun q => Proc.awoken_wake _ (.other ch)) rfl rfl fun a ha => Proc.onCpu_leave ha
  | kill pid => exact h.kill hplace hlock hrun pid
  | wait => exact h.wait hplace hlock hrun
  | exit => exact h.exit hplace hlock hrun
  | allocproc => exact h.allocproc hplace hlock hrun
  | start => exact h.start he hplace hlock hrun

end Sections

/-! ## Steps of a process outside its sections -/

theorem Scheduled.eq_running (h : Scheduled m) (hplace : (m.cpu c).place = .running p) :
    (m.proc p).OnCpu (m.lock = some c) := by
  have hc := h.cpuOk c
  rw [Machine.CpuOk, hplace] at hc
  exact hc.2

theorem Scheduled.enter (h : Scheduled m) (hplace : (m.cpu c).place = .running p) {s : Section}
    (hm : m.enter c p s = some m') : Scheduled m' := by
  have hp := h.eq_running hplace
  unfold Machine.enter at hm
  split at hm
  next hcan =>
    obtain ⟨hfree, -, hlock⟩ := hcan
    cases hm
    rw [Proc.OnCpu, hfree] at hp
    refine h.update hplace (by simp [hlock]) ?_ rfl ?_ fun q hq => ?_
    · intro c' hne heq
      exact hne (Option.some.inj heq).symm
    · rw [Machine.modify_self]
      exact ⟨rfl, hp⟩
    · rw [Machine.modify_of_ne _ _ hq]
      exact .refl _
  next => cases hm

theorem Scheduled.release (h : Scheduled m) (hplace : (m.cpu c).place = .running p) (hpc : (m.proc p).pc = .release) :
    Scheduled ({ m with lock := none }.modify p (Proc.setPc .free)) := by
  have hp := h.eq_running hplace
  rw [Proc.OnCpu, hpc] at hp
  obtain ⟨hlock, hrun⟩ := hp
  refine h.update hplace (lock_ne hlock) (by simp) rfl ?_ fun q hq => ?_
  · rw [Machine.modify_self]
    exact hrun
  · rw [Machine.modify_of_ne _ _ hq]
    exact .refl _

/-- What happens outside the lock: nothing that the scheduler looks at, except in entries without a
process. -/
theorem Scheduled.entries (h : Scheduled m) (hcpu : m'.cpu = m.cpu) (hlock : m'.lock = m.lock)
    (hentries : ∀ q, ((m'.proc q).pc = (m.proc q).pc ∧ (m'.proc q).state = (m.proc q).state) ∨
      ((m.proc q).state.Vacant ∧ ((m.proc q).AtRest → (m'.proc q).AtRest))) : Scheduled m' := by
  refine ⟨fun c => ?_, fun q => ?_, by rw [hcpu]; exact h.unique⟩
  · have hc := h.cpuOk c
    unfold Machine.CpuOk at *
    rw [hcpu, hlock]
    split
    next hplace => rwa [hplace] at hc
    next hplace => rwa [hplace] at hc
    next p hplace =>
      rw [hplace] at hc
      rcases hentries p with ⟨hpc, hstate⟩ | ⟨hvacant, -⟩
      · rwa [hpc, hstate]
      · rw [ProcState.Vacant, hc.2.2.1] at hvacant
        simp at hvacant
    next p hplace =>
      rw [hplace] at hc
      rcases hentries p with ⟨hpc, hstate⟩ | ⟨hvacant, -⟩
      · exact ⟨hc.1, hc.2.of_eq hpc hstate⟩
      · exact absurd hvacant hc.2.not_vacant
    next hplace => rwa [hplace] at hc
  · rw [hcpu]
    rcases h.placed q with hrest | hhas
    · rcases hentries q with ⟨hpc, hstate⟩ | ⟨-, hkeep⟩
      · exact .inl (hrest.of_eq hpc hstate)
      · exact .inl (hkeep hrest)
    · exact .inr hhas

theorem Scheduled.fault (h : Scheduled m) (hm : m.fault p = some m') : Scheduled m' := by
  unfold Machine.fault at hm
  split at hm
  next =>
    cases hm
    refine h.entries rfl rfl fun q => .inl ?_
    rcases eq_or_ne q p with rfl | hq
    · rw [Machine.modify_self]
      exact ⟨rfl, rfl⟩
    · rw [Machine.modify_of_ne _ _ hq]
      exact ⟨rfl, rfl⟩
  next => cases hm

/-- `fork` between its sections changes its own progress and the entry of its new process. -/
theorem Scheduled.modify_embryo (h : Scheduled m) {np : Slot} (hembryo : (m.proc np).state = .EMBRYO)
    (hp : (m.proc p).state = .RUNNING) {f g : Proc → Proc}
    (hg : (m.proc np).AtRest → (g (m.proc np)).AtRest)
    (hf : ∀ a, (f a).pc = a.pc ∧ (f a).state = a.state) :
    Scheduled ((m.modify np g).modify p f) := by
  refine h.entries rfl rfl fun q => ?_
  rcases eq_or_ne q p with rfl | hq
  · grind [Machine.modify_self, Machine.modify_of_ne]
  · rw [Machine.modify_of_ne _ _ hq]
    rcases eq_or_ne q np with rfl | hnp
    · rw [Machine.modify_self]
      exact .inr ⟨.inr hembryo, hg⟩
    · rw [Machine.modify_of_ne _ _ hnp]
      exact .inl ⟨rfl, rfl⟩

theorem copy_cases {memory : Bool} (hm : m.copy p memory = some m') :
    ∃ np, (m.proc p).pc = .free ∧ (m.proc p).forking = .allocated np ∧
      (m' = (m.modify np (Proc.child p)).modify p (Proc.setForking (.copied np)) ∨
        m' = (m.modify np (Proc.setState .UNUSED)).modify p Proc.forkFailed) := by
  unfold Machine.copy at hm
  grind

theorem Scheduled.copy (h : Scheduled m) (he : Embryos m) (hplace : (m.cpu c).place = .running p)
    {memory : Bool} (hm : m.copy p memory = some m') : Scheduled m' := by
  obtain ⟨np, hfree, hforking, hcases⟩ := copy_cases hm
  have hembryo := he.embryo p np (.inl hforking)
  have hrun := h.eq_running hplace
  rw [Proc.OnCpu, hfree] at hrun
  rcases hcases with rfl | rfl
  · refine h.modify_embryo hembryo hrun (fun _ => ?_) fun _ => ⟨rfl, rfl⟩
    exact ⟨.forkret, rfl, .inl (.inr hembryo)⟩
  · refine h.modify_embryo hembryo hrun ?_ fun _ => ⟨rfl, rfl⟩
    rintro ⟨k, hk, -⟩
    exact ⟨k, hk, .inl (.inl rfl)⟩

/-! ## Steps of a processor in `scheduler` -/

theorem Scheduled.interrupt (h : Scheduled m) (hidle : (m.cpu c).place = .idle)
    (hfree : m.lock = none) (chan : Chan) : Scheduled (m.wakeup1 chan) := by
  have hc := h.cpuOk c
  have hnone : ∀ c', m.lock ≠ some c' := by simp [hfree]
  refine h.change (c := c) (fun c' _ => hnone c') (fun c' _ => hnone c') (fun _ _ => rfl) ?_ ?_ ?_ ?_
  · unfold Machine.CpuOk at *
    have hcpu : (m.wakeup1 chan).cpu = m.cpu := rfl
    rw [hcpu, hidle]
    rwa [hidle] at hc
  · exact fun q hq => .inl hq
  · intro q hq
    rw [Machine.CpuOk, hidle] at hc
    rw [hc] at hq
    cases hq
  · exact fun q _ => .inr (Proc.awoken_wake ..).steady

section Scheduler

variable [DecidableEq C] {place : Place} {o : Option Slot}

@[simp] theorem Machine.cpu_goto_self : (m.goto c place).cpu c = { m.cpu c with place := place } :=
  Function.update_self ..

theorem Machine.cpu_goto_of_ne {c' : C} (h : c' ≠ c) : (m.goto c place).cpu c' = m.cpu c' :=
  Function.update_of_ne h ..

@[simp] theorem Machine.cpu_setProc_self : (m.setProc c o place).cpu c = { proc := o, place := place } :=
  Function.update_self ..

theorem Machine.cpu_setProc_of_ne {c' : C} (h : c' ≠ c) : (m.setProc c o place).cpu c' = m.cpu c' :=
  Function.update_of_ne h ..

theorem Scheduled.goto (h : Scheduled m) (hnone : (m.cpu c).proc = none) (lock : Option C)
    (hlock : ∀ c' ≠ c, m.lock ≠ some c') (hlock' : ∀ c' ≠ c, lock ≠ some c')
    (hc : ({ m with lock := lock }.goto c place).CpuOk c) :
    Scheduled ({ m with lock := lock }.goto c place) := by
  refine h.change hlock hlock' (fun c' hne => Machine.cpu_goto_of_ne hne) hc ?_ ?_ ?_
  · intro q hq
    rw [Machine.cpu_goto_self] at hq
    exact .inl hq
  · intro q hq
    rw [hnone] at hq
    cases hq
  · intro q _
    exact .inr (.refl _)

theorem Scheduled.choose (h : Scheduled m) (hnone : (m.cpu c).proc = none)
    (hlock : m.lock = some c) (hstate : (m.proc p).state = .RUNNABLE) :
    Scheduled ((m.modify p (Proc.setState .RUNNING)).setProc c (some p) (.switchTo p)) := by
  have hother := lock_ne hlock
  have hrest : (m.proc p).AtRest := h.atRest hother (by rw [hnone]; exact nofun) (by rw [hstate]; decide)
  refine h.change hother hother (fun c' hne => Machine.cpu_setProc_of_ne hne) ?_ ?_ ?_ ?_
  · unfold Machine.CpuOk
    rw [Machine.cpu_setProc_self]
    obtain ⟨k, hk, hvacant | hleaves⟩ := hrest
    · rw [ProcState.Vacant, hstate] at hvacant
      simp at hvacant
    · rw [hstate] at hleaves
      have hself : ((m.modify p (Proc.setState .RUNNING)).setProc c (some p)
          (.switchTo p)).proc p = (m.proc p).setState .RUNNING :=
        Machine.modify_self ..
      refine ⟨rfl, hlock, ?_, k, ?_, hleaves⟩
      · rw [hself]
        rfl
      · rw [hself]
        exact hk
  · grind [Machine.cpu_setProc_self]
  · intro q hq
    rw [hnone] at hq
    cases hq
  · intro q _
    rcases eq_or_ne q p with rfl | hq
    · rw [Machine.cpu_setProc_self]
      exact .inl (.inl rfl)
    · have hsame : ((m.modify p (Proc.setState .RUNNING)).setProc c (some p) (.switchTo p)).proc q = m.proc q :=
        Machine.modify_of_ne _ _ hq
      rw [hsame]
      exact .inr (.refl _)

theorem Scheduled.goto_modify (h : Scheduled m) (hproc : (m.cpu c).proc = some p)
    (hlock : m.lock = some c) {f : Proc → Proc} (hc : ((m.modify p f).goto c place).CpuOk c)
    (hp : place = .running p ∨ (f (m.proc p)).AtRest) :
    Scheduled ((m.modify p f).goto c place) := by
  have hother := lock_ne hlock
  have hself : ((m.modify p f).goto c place).proc p = f (m.proc p) := Machine.modify_self ..
  refine h.change hother hother (fun c' hne => Machine.cpu_goto_of_ne hne) hc ?_ ?_ ?_
  · intro q hq
    rw [Machine.cpu_goto_self] at hq
    exact .inl hq
  · intro q hq
    obtain rfl : p = q := Option.some.inj (hproc.symm.trans hq)
    rw [Machine.cpu_goto_self, hself]
    exact hp.imp_left .inr
  · intro q hq
    have hne : q ≠ p := by
      rintro rfl
      exact hq hproc
    have hsame : ((m.modify p f).goto c place).proc q = m.proc q := Machine.modify_of_ne _ _ hne
    rw [hsame]
    exact .inr (.refl _)

theorem Proc.onCpu_resume {a b : Proc} {k : Cont} (hrun : a.state = .RUNNING)
    (hb : a.resume k = some b) : b.OnCpu True := by
  cases k with
  | exit => cases hb
  | yield | sleep | wait | forkret =>
    cases hb
    exact ⟨trivial, hrun⟩

theorem Scheduled.schedule (h : Scheduled m) (hm : m.schedule c = some m') : Scheduled m' := by
  have hc := h.cpuOk c
  unfold Machine.schedule at hm
  unfold Machine.CpuOk at hc
  cases hplace : (m.cpu c).place with
  | idle =>
    simp only [hplace] at hc hm
    split at hm
    next hfree =>
      cases hm
      refine h.goto hc (some c) (by simp [hfree]) (fun c' hne heq => hne (Option.some.inj heq).symm) ?_
      unfold Machine.CpuOk
      rw [Machine.cpu_goto_self]
      exact ⟨hc, rfl⟩
    next => cases hm
  | scan i =>
    simp only [hplace] at hc hm
    obtain ⟨hnone, hlock⟩ := hc
    have hother := lock_ne hlock
    split at hm
    next hi =>
      split at hm
      next hrunnable =>
        cases hm
        exact h.choose hnone hlock hrunnable
      next =>
        cases hm
        refine h.goto hnone m.lock hother hother ?_
        unfold Machine.CpuOk
        rw [Machine.cpu_goto_self]
        exact ⟨hnone, hlock⟩
    next =>
      cases hm
      refine h.goto hnone none hother (by simp) ?_
      unfold Machine.CpuOk
      rw [Machine.cpu_goto_self]
      exact hnone
  | switchTo p =>
    simp only [hplace] at hc hm
    obtain ⟨hproc, hlock, hrun, k, hk, -⟩ := hc
    simp only [hk, Option.map_eq_some_iff] at hm
    obtain ⟨b, hb, rfl⟩ := hm
    refine h.goto_modify hproc hlock ?_ (.inl rfl)
    unfold Machine.CpuOk
    rw [Machine.cpu_goto_self]
    refine ⟨hproc, ?_⟩
    have hself : ((m.modify p fun _ => b).goto c (.running p)).proc p = b :=
      Machine.modify_self m p fun _ => b
    have htrue : (((m.modify p fun _ => b).goto c (.running p)).lock = some c) = True := eq_true hlock
    rw [hself, htrue]
    exact Proc.onCpu_resume hrun hb
  | running p => simp [hplace] at hm
  | back p =>
    simp only [hplace] at hc hm
    obtain ⟨hproc, hlock⟩ := hc
    cases hm
    have hother := lock_ne hlock
    refine h.change hother hother (fun c' hne => Machine.cpu_setProc_of_ne hne) ?_ ?_ ?_ ?_
    · unfold Machine.CpuOk
      rw [Machine.cpu_setProc_self]
      exact ⟨rfl, hlock⟩
    · intro q hq
      rw [Machine.cpu_setProc_self] at hq
      cases hq
    · -- the process that came back rests, as no other processor can have it
      intro q hq
      obtain rfl : p = q := Option.some.inj (hproc.symm.trans hq)
      rcases h.placed p with hrest | ⟨c', hhas⟩
      · exact .inr hrest
      · obtain rfl : c' = c := h.unique _ _ _ (hhas.eq_proc (h.cpuOk c')) hproc
        rw [Cpu.Has, hplace] at hhas
        simp at hhas
    · intro q _
      exact .inr (.refl _)

theorem Scheduled.run (h : Scheduled m) (he : Embryos m) (hplace : (m.cpu c).place = .running p)
    (hm : m.run c p = some m') : Scheduled m' := by
  have hp := h.eq_running hplace
  have hproc : (m.cpu c).proc = some p := Cpu.Has.eq_proc (h.cpuOk c) (.inr hplace)
  unfold Machine.run at hm
  unfold Proc.OnCpu at hp
  cases hpc : (m.proc p).pc with
  | free => simp [hpc] at hm
  | locked s =>
    simp only [hpc, Option.some.injEq] at hm hp
    exact hm ▸ h.body he hplace hp.1 hp.2 s
  | release =>
    simp only [hpc, Option.some.injEq] at hm
    exact hm ▸ h.release hplace hpc
  | swtch k =>
    simp only [hpc, Option.some.injEq] at hm hp
    subst hm
    have hrest : ((m.proc p).setPc (.saved k)).AtRest := ⟨k, rfl, .inr hp.2⟩
    refine h.goto_modify hproc hp.1 ?_ (.inr hrest)
    unfold Machine.CpuOk
    rw [Machine.cpu_goto_self]
    exact ⟨hproc, hp.1⟩
  | saved k => simp [hpc] at hm

end Scheduler

end AsoPracticas.Xv6.Ptable
