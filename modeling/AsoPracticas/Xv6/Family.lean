import AsoPracticas.Xv6.Scheduling

/-!
# Family — parents, orphans and exited children

`exit` passes its children to `initproc` and wakes up whoever may have to reap; `wait` reaps.  Processes
are told apart by their births, as entries of the table are used again.

* `process_family` — every process has a parent that can reap it, does so at most once, and does not
  sleep in `wait` next to an exited child.
-/

namespace AsoPracticas.Xv6.Ptable

open Lib
open List (Subset.refl)

variable {C : Type} {m m' : Machine C} {p q z x : Slot} {a b : Proc} {s t : ProcState}

/-! ## Entries that stay in the family as they are -/

/-- For the family the process stays what it was. -/
@[grind cases eager]
structure Proc.Like (a b : Proc) : Prop where
  state : b.state = a.state ∨ a.state.Active ∧ b.state.Active
  birth : b.birth = a.birth
  asleep : ∀ chan, b.Asleep chan → a.Asleep chan

theorem Proc.Like.refl (a : Proc) : a.Like a := ⟨.inl rfl, rfl, fun _ => id⟩

theorem Proc.Awoken.like (h : a.Awoken b) : a.Like b where
  state := by
    rcases h.state with hsame | ⟨hsleep, hrun⟩
    · exact .inl hsame
    · exact .inr ⟨.inl hsleep, .inr (.inl hrun)⟩
  birth := h.birth
  asleep _ := h.asleep

theorem ProcState.Active.ne_zombie {s : ProcState} (h : s.Active) : s ≠ .ZOMBIE := by
  rintro rfl
  simp [ProcState.Active] at h

theorem ProcState.Active.ne_unused {s : ProcState} (h : s.Active) : s ≠ .UNUSED := by
  rintro rfl
  simp [ProcState.Active] at h

theorem ProcState.Active.not_vacant {s : ProcState} (h : s.Active) : ¬ s.Vacant := by
  rintro (rfl | rfl) <;> simp [ProcState.Active] at h

/-- A change between active states, or none, is seen by no property that all active states have or none
of them has. -/
theorem state_iff (h : t = s ∨ s.Active ∧ t.Active) {P : ProcState → Prop}
    (hP : (∀ u : ProcState, u.Active → P u) ∨ ∀ u : ProcState, u.Active → ¬ P u) : P t ↔ P s := by
  all_goals grind

theorem state_zombie_iff (h : t = s ∨ s.Active ∧ t.Active) : t = .ZOMBIE ↔ s = .ZOMBIE :=
  state_iff (P := (· = .ZOMBIE)) h (.inr fun _ hu => hu.ne_zombie)

theorem state_unused_iff (h : t = s ∨ s.Active ∧ t.Active) : t = .UNUSED ↔ s = .UNUSED :=
  state_iff (P := (· = .UNUSED)) h (.inr fun _ hu => hu.ne_unused)

theorem state_vacant_iff (h : t = s ∨ s.Active ∧ t.Active) : t.Vacant ↔ s.Vacant :=
  state_iff (P := ProcState.Vacant) h (.inr fun _ hu => hu.not_vacant)

theorem state_active_iff (h : t = s ∨ s.Active ∧ t.Active) : t.Active ↔ s.Active :=
  state_iff (P := ProcState.Active) h (.inl fun _ hu => hu)

/-! ## Sleeping in `wait` -/

/-- Nobody sleeps in `wait` next to an exited child. -/
def Waits (m : Machine C) : Prop := ∀ p, (m.proc p).Asleep (.proc p) → m.Childless p

/-! ## Parents -/

/-- By births: `r` forked `c`, or `r` is `initproc` and whoever forked `c` has exited. -/
def Machine.Rightful (m : Machine C) (r c : Nat) : Prop :=
  (r, c) ∈ m.forks ∨ r = 0 ∧ ∃ f, (f, c) ∈ m.forks ∧ f ∈ m.exits

theorem Machine.Rightful.mono {r c : Nat} (h : m.Rightful r c) (hforks : m.forks ⊆ m'.forks)
    (hexits : m.exits ⊆ m'.exits) : m'.Rightful r c := by
  rcases h with h | ⟨hr, f, hf, hf'⟩
  · exact .inl (hforks h)
  · exact .inr ⟨hr, f, hforks hf, hexits hf'⟩

/-- The entry names a parent that can still reap it, and rightly. -/
def Machine.HasParent (m : Machine C) (x : Slot) : Prop :=
  ∃ r, (m.proc x).parent = some r ∧ r ≠ x ∧ (m.proc r).state.Active ∧ m.Rightful (m.proc r).birth (m.proc x).birth

@[grind cases eager]
structure Parents (m : Machine C) : Prop where
  init : (m.proc initproc).state.Active ∧ (m.proc initproc).birth = 0
  /-- Only an active process is in `fork`. -/
  forking : ∀ p, (m.proc p).forking ≠ .none → (m.proc p).state.Active
  copied : ∀ p np, (m.proc p).forking = .copied np → (m.proc np).parent = some p
  parent : ∀ x ≠ initproc, ¬ (m.proc x).state.Vacant → m.HasParent x

theorem Machine.HasParent.mono (h : m.HasParent x) (hx : (m'.proc x).parent = (m.proc x).parent)
    (hbirth : (m'.proc x).birth = (m.proc x).birth)
    (hlike : ∀ r, (m.proc x).parent = some r → (m.proc r).Like (m'.proc r))
    (hforks : m.forks ⊆ m'.forks) (hexits : m.exits ⊆ m'.exits) : m'.HasParent x := by
  obtain ⟨r, hr, hne, hactive, hrightful⟩ := h
  refine ⟨r, hx.trans hr, hne, (state_active_iff (hlike r hr).state).2 hactive, ?_⟩
  rw [(hlike r hr).birth, hbirth]
  exact hrightful.mono hforks hexits

/-! ## Births -/

/-- The births of the processes there are, and of those that have been reaped. -/
@[grind cases eager]
structure Lineage (m : Machine C) : Prop where
  lt : ∀ p, (m.proc p).state ≠ .UNUSED → (m.proc p).birth < m.births
  inj : ∀ p q, (m.proc p).state ≠ .UNUSED → (m.proc q).state ≠ .UNUSED → (m.proc p).birth = (m.proc q).birth → p = q
  zombie : ∀ p, (m.proc p).state = .ZOMBIE → (m.proc p).birth ∈ m.exits
  reaped : ∀ r c, (r, c) ∈ m.reaps → c < m.births ∧ c ∈ m.exits ∧ m.Rightful r c ∧
    ∀ p, (m.proc p).state ≠ .UNUSED → (m.proc p).birth ≠ c
  nodup : (m.reaps.map Prod.snd).Nodup

theorem Lineage.mono (h : Lineage m)
    (hproc : ∀ x, (m'.proc x).state ≠ .UNUSED → (m.proc x).state ≠ .UNUSED ∧ (m'.proc x).birth = (m.proc x).birth)
    (hzombie : ∀ x, (m'.proc x).state = .ZOMBIE → (m'.proc x).birth ∈ m'.exits)
    (hbirths : m'.births = m.births) (hforks : m.forks ⊆ m'.forks) (hexits : m.exits ⊆ m'.exits)
    (hreaps : m'.reaps = m.reaps) : Lineage m' where
  lt x hx := by
    rw [hbirths, (hproc x hx).2]
    exact h.lt x (hproc x hx).1
  inj x y hx hy heq := by
    grind
  zombie := hzombie
  reaped r c hrc := by
    rw [hreaps] at hrc
    obtain ⟨hlt, hexit, hrightful, hgone⟩ := h.reaped r c hrc
    refine ⟨hbirths ▸ hlt, hexits hexit, hrightful.mono hforks hexits, fun x hx => ?_⟩
    rw [(hproc x hx).2]
    exact hgone x (hproc x hx).1
  nodup := by
    rw [hreaps]
    exact h.nodup

@[grind cases eager]
structure Family (m : Machine C) : Prop where
  parents : Parents m
  waits : Waits m
  lineage : Lineage m

/-! ## Effects without a birth or a death -/

theorem Family.tame (h : Family m) (ht : Tame m m') : Family m' where
  parents :=
    { init := by
        grind
      forking := by
        grind
      copied := by
        grind
      parent := by
        intro x hx hstate
        rw [state_vacant_iff (ht.proc x).state] at hstate
        obtain ⟨r, hr, hne, hactive, hrightful⟩ := h.parents.parent x hx hstate
        refine ⟨r, (ht.proc x).parent.trans hr, hne, (state_active_iff (ht.proc r).state).2 hactive, ?_⟩
        rw [(ht.proc r).birth, (ht.proc x).birth]
        exact hrightful.mono (ht.recorded.2.1 ▸ Subset.refl _) (ht.recorded.2.2.1 ▸ Subset.refl _) }
  waits := by
    intro p hp x hx hstate
    rw [(ht.proc x).parent] at hx
    rw [state_zombie_iff (ht.proc x).state] at hstate
    rcases (ht.proc p).asleep hp with hbefore | hchildless
    · exact h.waits p hbefore x hx hstate
    · exact hchildless x hx hstate
  lineage := by
    obtain ⟨hbirths, hforks, hexits, hreaps⟩ := ht.recorded
    refine h.lineage.mono (fun x hx => ?_) (fun x hx => ?_) hbirths ?_ ?_ hreaps
    all_goals grind [state_unused_iff, state_zombie_iff, Subset.refl]

/-! ## One process changes another entry -/

section Entry

variable {f g : Proc → Proc} {forking : Forking}

/-- What a running process does to its own entry when it changes another one. -/
structure Keeps (f : Proc → Proc) : Prop where
  state : ∀ a, (f a).state = a.state
  parent : ∀ a, (f a).parent = a.parent
  birth : ∀ a, (f a).birth = a.birth

theorem keeps_return (result : Int) : Keeps (Proc.return result) := ⟨fun _ => rfl, fun _ => rfl, fun _ => rfl⟩

theorem keeps_leave : Keeps Proc.leave := ⟨fun _ => rfl, fun _ => rfl, fun _ => rfl⟩

theorem keeps_setForking (forking : Forking) : Keeps (Proc.setForking forking) :=
  ⟨fun _ => rfl, fun _ => rfl, fun _ => rfl⟩

theorem keeps_forkFailed : Keeps Proc.forkFailed := ⟨fun _ => rfl, fun _ => rfl, fun _ => rfl⟩

theorem Keeps.comp (hf : Keeps f) (hg : Keeps g) : Keeps (f ∘ g) where
  state a := (hf.state _).trans (hg.state a)
  parent a := (hf.parent _).trans (hg.parent a)
  birth a := (hf.birth _).trans (hg.birth a)

theorem Keeps.like (hf : Keeps f) (hrun : a.state = .RUNNING) : a.Like (f a) where
  state := .inl (hf.state a)
  birth := hf.birth a
  asleep _ hasleep := by
    have hsleep := hasleep.1
    rw [hf.state, hrun] at hsleep
    cases hsleep

theorem Keeps.like_modify (hf : Keeps f) (hrun : (m.proc p).state = .RUNNING) :
    ∀ x ≠ z, (m.proc x).Like (((m.modify z g).modify p f).proc x) := by
  intro x hx
  rcases eq_or_ne x p with rfl | hp
  · rw [Machine.modify_self, Machine.modify_of_ne _ _ hx]
    exact hf.like hrun
  · rw [Machine.modify_modify_of_ne _ _ _ hp hx]
    exact .refl _

theorem Keeps.parent_modify (hf : Keeps f) :
    ∀ x ≠ z, (((m.modify z g).modify p f).proc x).parent = (m.proc x).parent := by
  intro x hx
  rcases eq_or_ne x p with rfl | hp
  · rw [Machine.modify_self, Machine.modify_of_ne _ _ hx, hf.parent]
  · rw [Machine.modify_modify_of_ne _ _ _ hp hx]

/-- The running process `p` changes the entry `z`, which is that of no active process and which no
other process makes in its `fork`. -/
@[grind cases eager]
structure Change (p z : Slot) (m m' : Machine C) : Prop where
  run : (m.proc p).state = .RUNNING
  idle : ¬ (m.proc z).state.Active
  alone : ∀ x ≠ p, (m.proc x).forking ≠ .copied z
  like : ∀ x ≠ z, (m.proc x).Like (m'.proc x)
  parent : ∀ x ≠ z, (m'.proc x).parent = (m.proc x).parent
  forking : ∀ x ≠ p, (m'.proc x).forking = (m.proc x).forking

theorem Change.ne (hc : Change p z m m') : z ≠ p := by
  rintro rfl
  exact hc.idle (active_of_running hc.run)

theorem change_modify (hf : Keeps f) (hg : ∀ a, (g a).forking = a.forking)
    (hrun : (m.proc p).state = .RUNNING) (hidle : ¬ (m.proc z).state.Active)
    (halone : ∀ x ≠ p, (m.proc x).forking ≠ .copied z) :
    Change p z m ((m.modify z g).modify p f) where
  run := hrun
  idle := hidle
  alone := halone
  like := hf.like_modify hrun
  parent := hf.parent_modify
  forking x hx := by
    rw [Machine.modify_of_ne _ _ hx]
    rcases eq_or_ne x z with rfl | hz
    · rw [Machine.modify_self, hg]
    · rw [Machine.modify_of_ne _ _ hz]

theorem Change.recordFork (hc : Change p z m m') (r d : Nat) : Change p z m (m'.recordFork r d) :=
  ⟨hc.run, hc.idle, hc.alone, hc.like, hc.parent, hc.forking⟩

theorem Change.waits (hc : Change p z m m') (h : Waits m)
    (hasleep : (m'.proc z).state ≠ .SLEEPING) (hzombie : (m'.proc z).state ≠ .ZOMBIE) : Waits m' := by
  intro x hx y hy hstate
  have hxz : x ≠ z := by
    rintro rfl
    exact hasleep hx.1
  have hyz : y ≠ z := by
    rintro rfl
    exact hzombie hstate
  rw [hc.parent y hyz] at hy
  rw [state_zombie_iff (hc.like y hyz).state] at hstate
  exact h x ((hc.like x hxz).asleep _ hx) y hy hstate

theorem Change.parents (hc : Change p z m m') (h : Parents m)
    (hp : ∀ np, (m'.proc p).forking = .copied np → (m'.proc np).parent = some p)
    (hz : ¬ (m'.proc z).state.Vacant → m'.HasParent z) (hforks : m.forks ⊆ m'.forks)
    (hexits : m.exits ⊆ m'.exits) : Parents m' where
  init := by
    have hne : initproc ≠ z := by
      rintro rfl
      exact hc.idle h.init.1
    rw [(hc.like _ hne).birth]
    exact ⟨(state_active_iff (hc.like _ hne).state).2 h.init.1, h.init.2⟩
  forking x hx := by
    rcases eq_or_ne x p with rfl | hxp
    · exact (state_active_iff (hc.like x hc.ne.symm).state).2 (active_of_running hc.run)
    · rw [hc.forking x hxp] at hx
      have hactive := h.forking x hx
      have hxz : x ≠ z := by
        rintro rfl
        exact hc.idle hactive
      exact (state_active_iff (hc.like x hxz).state).2 hactive
  copied x np hx := by
    rcases eq_or_ne x p with rfl | hxp
    · exact hp np hx
    · rw [hc.forking x hxp] at hx
      have hnp : np ≠ z := by
        rintro rfl
        exact hc.alone x hxp hx
      exact (hc.parent np hnp).trans (h.copied x np hx)
  parent x hx hstate := by
    rcases eq_or_ne x z with rfl | hxz
    · exact hz hstate
    · rw [state_vacant_iff (hc.like x hxz).state] at hstate
      have hbefore := h.parent x hx hstate
      refine hbefore.mono (hc.parent x hxz) (hc.like x hxz).birth (fun r hr => hc.like r ?_) hforks hexits
      rintro rfl
      obtain ⟨r', hr', -, hactive, -⟩ := hbefore
      obtain rfl : r' = r := Option.some.inj (hr'.symm.trans hr)
      exact hc.idle hactive

theorem Change.lineage (hc : Change p z m m') (h : Lineage m)
    (hz : (m'.proc z).state ≠ .UNUSED → (m.proc z).state ≠ .UNUSED ∧ (m'.proc z).birth = (m.proc z).birth)
    (hzombie : (m'.proc z).state ≠ .ZOMBIE) (hbirths : m'.births = m.births)
    (hforks : m.forks ⊆ m'.forks) (hexits : m.exits ⊆ m'.exits) (hreaps : m'.reaps = m.reaps) :
    Lineage m' := by
  refine h.mono (fun x hx => ?_) (fun x hx => ?_) hbirths hforks hexits hreaps
  · rcases eq_or_ne x z with rfl | hxz
    all_goals grind [state_unused_iff]
  grind [state_zombie_iff]

theorem Machine.modify_modify_other (m : Machine C) (f g : Proc → Proc) (h : z ≠ p) :
    ((m.modify z g).modify p f).proc z = g (m.proc z) := by
  rw [Machine.modify_of_ne _ _ h, Machine.modify_self]

theorem Machine.modify_modify_self (m : Machine C) (f g : Proc → Proc) (h : z ≠ p) :
    ((m.modify z g).modify p f).proc p = f (m.proc p) := by
  rw [Machine.modify_self, Machine.modify_of_ne _ _ h.symm]

end Entry

/-! ## The steps in the life of a process -/

theorem Lineage.recordReap (h : Lineage m) {r d : Nat} (hlt : d < m.births) (hexit : d ∈ m.exits)
    (hrightful : m.Rightful r d) (hgone : ∀ p, (m.proc p).state ≠ .UNUSED → (m.proc p).birth ≠ d)
    (hfirst : d ∉ m.reaps.map Prod.snd) : Lineage (m.recordReap r d) where
  __ := h
  reaped r' d' hmem := by
    rcases List.mem_append.1 hmem with hold | hnew
    · exact h.reaped r' d' hold
    · obtain ⟨rfl, rfl⟩ := Prod.mk.inj (List.mem_singleton.1 hnew)
      exact ⟨hlt, hexit, hrightful, hgone⟩
  nodup := by
    simp only [Machine.recordReap, List.map_append, List.map_cons, List.map_nil]
    grind

theorem Family.reap (h : Family m) (hs : Sound m) (hrun : (m.proc p).state = .RUNNING)
    (hparent : (m.proc q).parent = some p) (hzombie : (m.proc q).state = .ZOMBIE) :
    Family (((m.modify q Proc.reap).modify p (Proc.return (m.proc q).pid)).recordReap
      (m.proc p).birth (m.proc q).birth) := by
  have hidle : ¬ (m.proc q).state.Active := by
    rw [hzombie]
    simp [ProcState.Active]
  have hc : Change p q m ((m.modify q Proc.reap).modify p (Proc.return (m.proc q).pid)) := by
    refine change_modify (keeps_return _) (fun _ => rfl) hrun hidle fun x _ hx => ?_
    rw [hs.embryos.embryo x q (.inr hx)] at hzombie
    cases hzombie
  have hq := m.modify_modify_other (Proc.return (m.proc q).pid) Proc.reap hc.ne
  have hp := m.modify_modify_self (Proc.return (m.proc q).pid) Proc.reap hc.ne
  have hfree : (((m.modify q Proc.reap).modify p (Proc.return (m.proc q).pid)).proc q).state =
      .UNUSED := by
    rw [hq]
    rfl
  have hinit : q ≠ initproc := by
    rintro rfl
    exact hidle h.parents.init.1
  have hrightful : m.Rightful (m.proc p).birth (m.proc q).birth := by
    obtain ⟨r, hr, -, -, hrightful⟩ := h.parents.parent q hinit (by
      rw [hzombie]
      simp [ProcState.Vacant])
    grind
  have hlive : (m.proc q).state ≠ .UNUSED := by
    rw [hzombie]
    decide
  refine ⟨?_, ?_, ?_⟩
  · have hparents : Parents ((m.modify q Proc.reap).modify p (Proc.return (m.proc q).pid)) := by
      refine hc.parents h.parents (fun np hnp => ?_) (fun hstate => ?_) (Subset.refl _) (Subset.refl _)
      · rw [hp] at hnp
        have hne : np ≠ q := by
          rintro rfl
          rw [hs.embryos.embryo p np (.inr hnp)] at hzombie
          cases hzombie
        rw [hc.parent np hne]
        exact h.parents.copied p np hnp
      · exact absurd (.inl hfree) hstate
    exact ⟨hparents.init, hparents.forking, hparents.copied, hparents.parent⟩
  · exact hc.waits h.waits (by rw [hfree]; decide) (by rw [hfree]; decide)
  · have hlineage : Lineage ((m.modify q Proc.reap).modify p (Proc.return (m.proc q).pid)) :=
      hc.lineage h.lineage (fun hstate => absurd hfree hstate) (by rw [hfree]; decide) rfl
        (Subset.refl _) (Subset.refl _) rfl
    refine hlineage.recordReap (h.lineage.lt q hlive) (h.lineage.zombie q hzombie) hrightful ?_ ?_
    · intro x hx heq
      have hxq : x ≠ q := by
        rintro rfl
        exact hx hfree
      rw [(hc.like x hxq).birth] at heq
      have hx' : (m.proc x).state ≠ .UNUSED :=
        fun hunused => hx ((state_unused_iff (hc.like x hxq).state).2 hunused)
      exact hxq (h.lineage.inj x q hx' hlive heq)
    · intro hmem
      obtain ⟨⟨r, d⟩, hrd, hd⟩ := List.mem_map.1 hmem
      exact (h.lineage.reaped r d hrd).2.2.2 q hlive hd.symm

theorem Family.alloc (h : Family m) (hs : Sound m) (hrun : (m.proc p).state = .RUNNING)
    (hunused : (m.proc q).state = .UNUSED) :
    Family ((m.modify q (Proc.embryo m.nextpid m.births)).modify p
      (Proc.leave ∘ Proc.setForking (.allocated q))).nextBirth := by
  have hidle : ¬ (m.proc q).state.Active := by
    rw [hunused]
    simp [ProcState.Active]
  have hc : Change p q m ((m.modify q (Proc.embryo m.nextpid m.births)).modify p
      (Proc.leave ∘ Proc.setForking (.allocated q))) := by
    refine change_modify (keeps_leave.comp (keeps_setForking _)) (fun _ => rfl) hrun hidle fun x _ hx => ?_
    rw [hs.embryos.embryo x q (.inr hx)] at hunused
    cases hunused
  have hq := m.modify_modify_other (Proc.leave ∘ Proc.setForking (.allocated q)) (Proc.embryo m.nextpid m.births) hc.ne
  have hp := m.modify_modify_self (Proc.leave ∘ Proc.setForking (.allocated q)) (Proc.embryo m.nextpid m.births) hc.ne
  -- the entries other than `q` in use were in use before
  have hold : ∀ x ≠ q, (((m.modify q (Proc.embryo m.nextpid m.births)).modify p
      (Proc.leave ∘ Proc.setForking (.allocated q))).proc x).state ≠ .UNUSED →
      (m.proc x).state ≠ .UNUSED :=
    fun x hx hstate hbefore => hstate ((state_unused_iff (hc.like x hx).state).2 hbefore)
  refine ⟨?_, ?_, ?_⟩
  · have hparents : Parents ((m.modify q (Proc.embryo m.nextpid m.births)).modify p
        (Proc.leave ∘ Proc.setForking (.allocated q))) := by
      refine hc.parents h.parents (fun np hnp => ?_) (fun hstate => ?_) (Subset.refl _) (Subset.refl _)
      · rw [hp] at hnp
        cases hnp
      · rw [hq] at hstate
        exact absurd (.inr rfl) hstate
    exact ⟨hparents.init, hparents.forking, hparents.copied, hparents.parent⟩
  · refine hc.waits h.waits ?_ ?_ <;> rw [hq] <;> rintro ⟨⟩
  · refine ⟨fun x hx => ?_, fun x y hx hy heq => ?_, fun x hx => ?_, fun r d hrd => ?_, h.lineage.nodup⟩
    · simp only [Machine.nextBirth] at hx ⊢
      rcases eq_or_ne x q with rfl | hxq
      · rw [hq]
        exact Nat.lt_succ_self _
      · rw [(hc.like x hxq).birth]
        exact Nat.lt_succ_of_lt (h.lineage.lt x (hold x hxq hx))
    · simp only [Machine.nextBirth] at hx hy heq
      -- the new birth is above all the others
      have hnew : ∀ x ≠ q, (((m.modify q (Proc.embryo m.nextpid m.births)).modify p
          (Proc.leave ∘ Proc.setForking (.allocated q))).proc x).state ≠ .UNUSED →
          (m.proc x).birth ≠ m.births :=
        fun x hxq hstate => (h.lineage.lt x (hold x hxq hstate)).ne
      by_cases hxq : x = q <;> by_cases hyq : y = q
      · rw [hxq, hyq]
      · rw [hxq, hq, (hc.like y hyq).birth] at heq
        exact absurd heq.symm (hnew y hyq hy)
      · rw [hyq, hq, (hc.like x hxq).birth] at heq
        exact absurd heq (hnew x hxq hx)
      · rw [(hc.like x hxq).birth, (hc.like y hyq).birth] at heq
        exact h.lineage.inj x y (hold x hxq hx) (hold y hyq hy) heq
    · simp only [Machine.nextBirth] at hx ⊢
      have hxq : x ≠ q := by
        rintro rfl
        rw [hq] at hx
        cases hx
      rw [(hc.like x hxq).birth]
      exact h.lineage.zombie x ((state_zombie_iff (hc.like x hxq).state).1 hx)
    · obtain ⟨hlt, hexit, hrightful, hgone⟩ := h.lineage.reaped r d hrd
      refine ⟨Nat.lt_succ_of_lt hlt, hexit, hrightful, fun x hx => ?_⟩
      simp only [Machine.nextBirth] at hx ⊢
      rcases eq_or_ne x q with rfl | hxq
      · rw [hq]
        exact hlt.ne'
      · rw [(hc.like x hxq).birth]
        exact hgone x (hold x hxq hx)

section Fork

variable {np : Slot} {f g : Proc → Proc}

theorem change_embryo (hs : Sound m) (hrun : (m.proc p).state = .RUNNING)
    (hforks : (m.proc p).Forks np) (hf : Keeps f) (hg : ∀ a, (g a).forking = a.forking) :
    Change p np m ((m.modify np g).modify p f) := by
  refine change_modify hf hg hrun ?_ fun x hx hcopied => ?_
  all_goals grind [Proc.embryo, ProcState.Active, Proc.Forks]

theorem Family.copied (h : Family m) (hs : Sound m) (hrun : (m.proc p).state = .RUNNING)
    (hforking : (m.proc p).forking = .allocated np) :
    Family ((m.modify np (Proc.child p)).modify p (Proc.setForking (.copied np))) := by
  have hc := change_embryo hs hrun (.inl hforking) (keeps_setForking (.copied np)) (g := Proc.child p) fun _ => rfl
  have hembryo := hs.embryos.embryo p np (.inl hforking)
  have hnp := m.modify_modify_other (Proc.setForking (.copied np)) (Proc.child p) hc.ne
  have hp := m.modify_modify_self (Proc.setForking (.copied np)) (Proc.child p) hc.ne
  have hstate : (((m.modify np (Proc.child p)).modify p (Proc.setForking (.copied np))).proc np).state = .EMBRYO := by
    rw [hnp]
    exact hembryo
  refine ⟨?_, ?_, ?_⟩
  · refine hc.parents h.parents (fun x hx => ?_) (fun hvacant => ?_) (Subset.refl _) (Subset.refl _)
    · rw [hp] at hx
      obtain rfl : np = x := Forking.copied.inj hx
      rw [hnp]
      rfl
    · exact absurd (.inr hstate) hvacant
  · exact hc.waits h.waits (by rw [hstate]; decide) (by rw [hstate]; decide)
  · refine hc.lineage h.lineage (fun _ => ?_) (by rw [hstate]; decide) rfl (Subset.refl _) (Subset.refl _) rfl
    rw [hnp, hembryo]
    exact ⟨by decide, rfl⟩

theorem Family.failed (h : Family m) (hs : Sound m) (hrun : (m.proc p).state = .RUNNING)
    (hforking : (m.proc p).forking = .allocated np) :
    Family ((m.modify np (Proc.setState .UNUSED)).modify p Proc.forkFailed) := by
  have hc := change_embryo hs hrun (.inl hforking) keeps_forkFailed (g := Proc.setState .UNUSED) fun _ => rfl
  have hp := m.modify_modify_self Proc.forkFailed (Proc.setState .UNUSED) hc.ne
  have hstate : (((m.modify np (Proc.setState .UNUSED)).modify p Proc.forkFailed).proc np).state =
      .UNUSED := by
    rw [m.modify_modify_other _ _ hc.ne]
    rfl
  refine ⟨?_, ?_, ?_⟩
  · refine hc.parents h.parents (fun x hx => ?_) (fun hvacant => ?_) (Subset.refl _) (Subset.refl _)
    · rw [hp] at hx
      cases hx
    · exact absurd (.inl hstate) hvacant
  · exact hc.waits h.waits (by rw [hstate]; decide) (by rw [hstate]; decide)
  · exact hc.lineage h.lineage (fun hne => absurd hstate hne) (by rw [hstate]; decide) rfl
      (Subset.refl _) (Subset.refl _) rfl

theorem Family.start (h : Family m) (hs : Sound m) (hrun : (m.proc p).state = .RUNNING)
    (hforking : (m.proc p).forking = .copied np) :
    Family (((m.modify np (Proc.setState .RUNNABLE)).modify p
      (Proc.return (m.proc np).pid ∘ Proc.setForking .none)).recordFork (m.proc p).birth (m.proc np).birth) := by
  have hchange := change_embryo hs hrun (.inr hforking) ((keeps_return (m.proc np).pid).comp (keeps_setForking .none))
    (g := Proc.setState .RUNNABLE) fun _ => rfl
  have hc := hchange.recordFork (m.proc p).birth (m.proc np).birth
  have hembryo := hs.embryos.embryo p np (.inr hforking)
  have hnp := m.modify_modify_other (Proc.return (m.proc np).pid ∘ Proc.setForking .none)
    (Proc.setState .RUNNABLE) hc.ne
  have hp := m.modify_modify_self (Proc.return (m.proc np).pid ∘ Proc.setForking .none) (Proc.setState .RUNNABLE) hc.ne
  refine ⟨?_, ?_, ?_⟩
  · refine hc.parents h.parents (fun x hx => ?_) (fun _ => ?_) (List.subset_append_left ..) (Subset.refl _)
    · simp only [Machine.recordFork, hp] at hx
      cases hx
    · refine ⟨p, ?_, hc.ne.symm, ?_, .inl ?_⟩
      all_goals grind [Proc.setState, Proc.return, Proc.setForking, Machine.recordFork,
        active_of_running, List.mem_append_right, List.mem_singleton_self]
  · refine hc.waits h.waits ?_ ?_ <;> simp only [Machine.recordFork, hnp] <;> rintro ⟨⟩
  · refine hc.lineage h.lineage (fun _ => ?_) ?_ rfl (List.subset_append_left ..) (Subset.refl _) rfl
    · simp only [Machine.recordFork, hnp, hembryo]
      exact ⟨by decide, rfl⟩
    · simp only [Machine.recordFork, hnp]
      rintro ⟨⟩

end Fork

theorem Machine.exit_awoken (m : Machine C) (p x : Slot) : (m.proc x).Awoken (((m.wakeParent p).abandonAll p).proc x) :=
  (m.awoken_wakeParent p x).trans ((abandoned_abandonAll (m.wakeParent p) p).awoken x)

theorem Machine.exit_of_ne (m : Machine C) (h : x ≠ p) : (m.exit p).proc x = ((m.wakeParent p).abandonAll p).proc x :=
  Machine.modify_of_ne _ _ h

theorem Machine.exit_self (m : Machine C) (p : Slot) :
    (m.exit p).proc p = (((m.wakeParent p).abandonAll p).proc p).sched .ZOMBIE .exit :=
  Machine.modify_self ..

theorem Machine.exit_eq (m : Machine C) (p : Slot) :
    m.exit p = { m with proc := (m.exit p).proc, exits := m.exits ++ [(m.proc p).birth] } := by
  have hloop : (m.wakeParent p).abandonAll p = { m with proc := ((m.wakeParent p).abandonAll p).proc } :=
    (abandoned_abandonAll (m.wakeParent p) p).frame.trans
      (congrArg (fun n : Machine C => { n with proc := ((m.wakeParent p).abandonAll p).proc }) (m.wakeParent_eq p))
  unfold Machine.exit
  rw [hloop]
  rfl

theorem Machine.forks_exit (m : Machine C) (p : Slot) : (m.exit p).forks = m.forks := by
  rw [m.exit_eq]

theorem Machine.exits_subset_exit (m : Machine C) (p : Slot) : m.exits ⊆ (m.exit p).exits := by
  rw [m.exit_eq]
  exact List.subset_append_left ..

theorem Machine.Rightful.exit {d : Nat} (h : m.Rightful (m.proc p).birth d)
    (hinit : (m.proc initproc).birth = 0) : (m.exit p).Rightful (m.proc initproc).birth d := by
  refine .inr ⟨hinit, ?_⟩
  rw [m.exit_eq]
  grind [Machine.Rightful, initproc, List.mem_append_right, List.mem_singleton_self, List.mem_append_left]

theorem Machine.parent_exit (m : Machine C) (p x : Slot) :
    ((m.exit p).proc x).parent =
      if (m.proc x).parent = some p then some initproc else (m.proc x).parent := by
  have hloop : ((m.exit p).proc x).parent = (((m.wakeParent p).abandonAll p).proc x).parent := by
    rcases eq_or_ne x p with rfl | hx
    · rw [m.exit_self]
      rfl
    · rw [m.exit_of_ne hx]
  rw [hloop, (abandoned_abandonAll (m.wakeParent p) p).parent x, m.parent_wakeParent]
  simp only [List.mem_finRange, true_and]

theorem Machine.birth_exit (m : Machine C) (p x : Slot) : ((m.exit p).proc x).birth = (m.proc x).birth := by
  rcases eq_or_ne x p with rfl | hx
  · rw [m.exit_self]
    exact (m.exit_awoken x x).birth
  · rw [m.exit_of_ne hx]
    exact (m.exit_awoken p x).birth

theorem Waits.exit (h : Waits m) (hparent : (m.proc p).parent ≠ some p) : Waits (m.exit p) := by
  intro a ha x hx hzombie
  have hap : a ≠ p := by
    rintro rfl
    rw [m.exit_self] at ha
    cases ha.1
  rw [m.exit_of_ne hap] at ha
  rw [m.parent_exit] at hx
  have hloop := abandoned_abandonAll (m.wakeParent p) p
  rcases eq_or_ne x p with rfl | hxp
  · -- the process that exits has woken its parent up
    rw [if_neg hparent] at hx
    have hawake : ¬ ((m.wakeParent x).proc a).Asleep (.proc a) := by
      simp only [Machine.wakeParent, hx]
      exact Proc.not_asleep_wake _ _
    exact hawake ((hloop.awoken a).asleep ha)
  · rw [m.exit_of_ne hxp] at hzombie
    have hbefore : (m.proc x).state = .ZOMBIE := by
      rwa [state_zombie_iff (m.exit_awoken p x).like.state] at hzombie
    by_cases hchild : (m.proc x).parent = some p
    · -- an exited child of it goes to `initproc`, which is woken up too
      rw [if_pos hchild] at hx
      obtain rfl : initproc = a := Option.some.inj hx
      refine hloop.zombie x (List.mem_finRange x) ?_ ?_ ha
      · rw [m.parent_wakeParent, hchild]
      · rwa [state_zombie_iff (m.awoken_wakeParent p x).like.state]
    · rw [if_neg hchild] at hx
      exact h a ((m.exit_awoken p a).asleep ha) x hx hbefore

theorem Parents.exit (h : Parents m) (hrun : (m.proc p).state = .RUNNING)
    (hforking : (m.proc p).forking = .none) (hinit : p ≠ initproc) : Parents (m.exit p) where
  init := by
    rw [m.birth_exit, m.exit_of_ne hinit.symm]
    exact ⟨(state_active_iff (m.exit_awoken p _).like.state).2 h.init.1, h.init.2⟩
  forking x hx := by
    rcases eq_or_ne x p with rfl | hxp
    · rw [m.exit_self] at hx
      exact absurd ((m.exit_awoken x x).forking.trans hforking) hx
    · rw [m.exit_of_ne hxp] at hx ⊢
      rw [(m.exit_awoken p x).forking] at hx
      exact (state_active_iff (m.exit_awoken p x).like.state).2 (h.forking x hx)
  copied x np hx := by
    have hxp : x ≠ p := by
      rintro rfl
      rw [m.exit_self] at hx
      cases ((m.exit_awoken x x).forking.trans hforking).symm.trans hx
    rw [m.exit_of_ne hxp, (m.exit_awoken p x).forking] at hx
    have hparent := h.copied x np hx
    rw [m.parent_exit, if_neg, hparent]
    rw [hparent]
    exact fun heq => hxp (Option.some.inj heq)
  parent x hx hstate := by
    have hbefore : m.HasParent x := by
      apply h.parent x hx
      rcases eq_or_ne x p with rfl | hxp
      · exact (active_of_running hrun).not_vacant
      · rwa [m.exit_of_ne hxp, state_vacant_iff (m.exit_awoken p x).like.state] at hstate
    obtain ⟨r, hr, hne, hactive, hrightful⟩ := hbefore
    -- a parent that is left stays, and a child of `p` goes to `initproc`
    have hactive' : ∀ y ≠ p, (m.proc y).state.Active → ((m.exit p).proc y).state.Active := by
      intro y hy hactive
      rw [m.exit_of_ne hy]
      exact (state_active_iff (m.exit_awoken p y).like.state).2 hactive
    rcases eq_or_ne r p with rfl | hrp
    · refine ⟨initproc, ?_, hx.symm, hactive' _ hinit.symm h.init.1, ?_⟩
      · rw [m.parent_exit, if_pos hr]
      · rw [m.birth_exit, m.birth_exit]
        exact hrightful.exit h.init.2
    · refine ⟨r, ?_, hne, hactive' r hrp hactive, ?_⟩
      · rw [m.parent_exit, if_neg, hr]
        rw [hr]
        exact fun heq => hrp (Option.some.inj heq)
      · rw [m.birth_exit, m.birth_exit]
        exact hrightful.mono (m.forks_exit p ▸ Subset.refl _) (m.exits_subset_exit p)

theorem Lineage.exit (h : Lineage m) (hrun : (m.proc p).state = .RUNNING) : Lineage (m.exit p) := by
  refine h.mono (fun x hx => ⟨?_, m.birth_exit p x⟩) (fun x hx => ?_) ?_
    (m.forks_exit p ▸ Subset.refl _) (m.exits_subset_exit p) ?_
  · rcases eq_or_ne x p with rfl | hxp
    · rw [hrun]
      decide
    · rw [m.exit_of_ne hxp] at hx
      exact fun hunused => hx ((state_unused_iff (m.exit_awoken p x).like.state).2 hunused)
  · rw [m.birth_exit]
    rcases eq_or_ne x p with rfl | hxp
    · rw [m.exit_eq]
      exact List.mem_append_right _ (List.mem_singleton_self _)
    · rw [m.exit_of_ne hxp] at hx
      exact m.exits_subset_exit p (h.zombie x ((state_zombie_iff (m.exit_awoken p x).like.state).1 hx))
  · rw [m.exit_eq]
  · rw [m.exit_eq]

theorem Family.exit (h : Family m) (hrun : (m.proc p).state = .RUNNING)
    (hforking : (m.proc p).forking = .none) (hinit : p ≠ initproc) : Family (m.exit p) where
  parents := h.parents.exit hrun hforking hinit
  waits := by
    obtain ⟨r, hr, hne, -, -⟩ := h.parents.parent p hinit (active_of_running hrun).not_vacant
    apply h.waits.exit
    rw [hr]
    exact fun heq => hne (Option.some.inj heq)
  lineage := h.lineage.exit hrun

/-! ## The whole table -/

theorem Family.effect (h : Family m) (hs : Sound m) (he : Effect m m') : Family m' := by
  cases he with
  | tame ht => exact h.tame ht
  | reap p q hrun hparent hzombie => exact h.reap hs hrun hparent hzombie
  | exit p hrun hforking hinit => exact h.exit hrun hforking hinit
  | alloc p q hrun _ hunused => exact h.alloc hs hrun hunused
  | copied p np hrun _ hforking => exact h.copied hs hrun hforking
  | failed p np hrun _ hforking => exact h.failed hs hrun hforking
  | start p np hrun hforking => exact h.start hs hrun hforking

theorem vacant_boot (hx : x ≠ initproc) : (boot C).proc x = Proc.unused := by
  simp only [boot, Function.update_of_ne hx]

theorem family_boot : Family (boot C) where
  parents :=
    { init := ⟨.inr (.inl rfl), rfl⟩
      forking := fun p hp => absurd (forking_boot p) hp
      copied := by
        intro p np hp
        rw [forking_boot] at hp
        cases hp
      parent := by
        intro x hx hstate
        rw [vacant_boot hx] at hstate
        exact absurd (.inl rfl) hstate }
  waits := by
    intro p hp
    rcases eq_or_ne p initproc with rfl | hne
    · cases hp.1
    · rw [vacant_boot hne] at hp
      cases hp.1
  lineage := by
    have honly : ∀ x, ((boot C).proc x).state ≠ .UNUSED → x = initproc := by
      intro x hx
      by_contra hne
      rw [vacant_boot hne] at hx
      exact hx rfl
    refine ⟨fun x hx => ?_, fun x y hx hy _ => ?_, fun x hx => ?_, nofun, List.nodup_nil⟩
    · rw [honly x hx]
      exact Nat.zero_lt_one
    · rw [honly x hx, honly y hy]
    · rw [honly x (by rw [hx]; decide)] at hx
      cases hx

/-- Asleep in `wait`, with its registers saved or about to be. -/
def Proc.InWait (a : Proc) : Prop :=
  a.state = .SLEEPING ∧ (a.pc = .saved .wait ∨ a.pc = .swtch .wait)

theorem Proc.Ready.asleep (h : a.Ready p) (ha : a.InWait) : a.Asleep (.proc p) := by
  obtain ⟨hsleep, hpc | hpc⟩ := ha
  · rw [Proc.Ready, hpc] at h
    exact ⟨hsleep, h.2 hsleep⟩
  · rw [Proc.Ready, hpc] at h
    exact ⟨hsleep, h.2 hsleep⟩

theorem family_of_reachable [DecidableEq C] (hreach : Relation.ReflTransGen Step (boot C) m) :
    Family m := by
  have hboth : Sound m ∧ Family m :=
    invariant_of_reachable (fun m : Machine C => Sound m ∧ Family m) ⟨sound_boot, family_boot⟩
      (fun _ _ h hs => ⟨h.1.step hs, h.2.effect h.1 (h.1.effect hs)⟩) hreach
  exact hboth.2

/-- Every process other than `initproc` that is not just being made has a parent that has neither
exited nor been reaped.  A process is reaped at most once, after it has exited, and by the process that
forked it, or by `initproc` (which was born first) after the one that forked it has exited.  No process
sleeps in `wait` while it has an exited child. -/
theorem process_family [DecidableEq C] (hreach : Relation.ReflTransGen Step (boot C) m) :
    (∀ p ≠ initproc, (m.proc p).state ≠ .UNUSED → (m.proc p).state ≠ .EMBRYO →
      ∃ r, (m.proc p).parent = some r ∧ (m.proc r).state ≠ .UNUSED ∧ (m.proc r).state ≠ .ZOMBIE) ∧
    ((m.reaps.map Prod.snd).Nodup ∧ ∀ r d, (r, d) ∈ m.reaps → d ∈ m.exits ∧
      ((r, d) ∈ m.forks ∨ r = 0 ∧ ∃ f, (f, d) ∈ m.forks ∧ f ∈ m.exits)) ∧
    (m.lock = none → ∀ p, (m.proc p).InWait →
      ∀ q, (m.proc q).parent = some p → (m.proc q).state ≠ .ZOMBIE) := by
  have h := family_of_reachable hreach
  refine ⟨fun p hp hunused hembryo => ?_, ⟨h.lineage.nodup, fun r d hrd => ?_⟩, fun _ p hp => ?_⟩
  · obtain ⟨r, hr, -, hactive, -⟩ := h.parents.parent p hp (not_or.2 ⟨hunused, hembryo⟩)
    exact ⟨r, hr, hactive.ne_unused, hactive.ne_zombie⟩
  · obtain ⟨-, hexit, hrightful, -⟩ := h.lineage.reaped r d hrd
    exact ⟨hexit, hrightful⟩
  · exact h.waits p (((sound_of_reachable hreach).ready p).asleep hp)

/-- `initproc` forks a child, sleeps in `wait`, and reaps the child after it has run and exited. -/
def reapRun : List (Event Unit) :=
  [.schedule (), .schedule (), .schedule (), .run (),
    .enter () .allocproc, .run (), .run (), .copy () true, .enter () .start, .run (), .run (),
    .enter () .wait, .run (), .run (), .schedule (),
    .schedule (), .schedule (), .run (), .enter () .exit, .run (), .run (), .schedule ()] ++
    List.replicate 62 (.schedule ()) ++
    [.schedule (), .schedule (), .schedule (), .schedule (), .run (), .run ()]

theorem process_family_reapRun :
    ∃ m : Machine Unit, m.reaps = [(0, 1)] ∧
      ((∀ p ≠ initproc, (m.proc p).state ≠ .UNUSED → (m.proc p).state ≠ .EMBRYO →
        ∃ r, (m.proc p).parent = some r ∧ (m.proc r).state ≠ .UNUSED ∧ (m.proc r).state ≠ .ZOMBIE) ∧
      ((m.reaps.map Prod.snd).Nodup ∧ ∀ r d, (r, d) ∈ m.reaps → d ∈ m.exits ∧
        ((r, d) ∈ m.forks ∨ r = 0 ∧ ∃ f, (f, d) ∈ m.forks ∧ f ∈ m.exits)) ∧
      (m.lock = none → ∀ p, (m.proc p).InWait →
        ∀ q, (m.proc q).parent = some p → (m.proc q).state ≠ .ZOMBIE)) := by
  have hreaps : (reapRun.foldlM step (boot Unit)).map (fun m => m.reaps) = some [(0, 1)] := by
    decide +kernel
  obtain ⟨m, hm, hrm⟩ := Option.map_eq_some_iff.1 hreaps
  exact ⟨m, hrm, process_family (reachable_of_foldlM reapRun hm)⟩

end AsoPracticas.Xv6.Ptable
