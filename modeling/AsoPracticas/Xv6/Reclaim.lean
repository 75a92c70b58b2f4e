import AsoPracticas.Xv6.Coherence

/-!
# Reclaim — what `iput` does with an inode that has no links

`iput` reads `ref` in one section under `icache.lock`, frees the inode if it has read 1, and decrements
`ref` in another.  Two processes that both read 2 before either decrements leave the inode allocated
with no reference to it (`twoClosers_leak`).

* `Orderly` — a step in which that does not happen: `ref` is not read for an inode without links while
  another process is about to decrement it, and no `iget` finds an inode that is being freed;
* `inode_reclaimed` — in runs of such steps an inode without links is freed, once, by the last `iput`.
-/

namespace AsoPracticas.Xv6.Icache

open Lib
open Option (ite_none_right_eq_some)
open Function (update_eq_self update_of_ne update_self)

variable {P : Type} {s s' : State P} {i j : Slot} {p q : P} {k : Key}

/-! ## Orderly steps -/

def State.Freeing (s : State P) (k : Key) : Prop :=
  ∃ p i, ((s.thread p).pc = .truncating i ∨ (s.thread p).pc = .clearing i) ∧ (s.entry i).key = k

instance [Fintype P] (s : State P) (k : Key) : Decidable (s.Freeing k) := Fintype.decidableExistsFintype

/-- The test of `iput` comes to `ref`, and another process is about to decrement it. -/
def State.Racing (s : State P) (i : Slot) : Prop :=
  ((s.entry i).valid = true ∧ (s.entry i).din.nlink = 0) ∧ ∃ q, (s.thread q).pc = .dropping i

instance [Fintype P] (s : State P) (i : Slot) : Decidable (s.Racing i) := instDecidableAnd

/-- The step is none of those that let an inode without links be lost, or be freed too early. -/
def Orderly (s : State P) : Event P → Prop
  | .iget _ k => ¬ s.Freeing k
  | .run p =>
    match (s.thread p).pc with
    | .allocated k => ¬ s.Freeing k
    | .checking i => ¬ s.Racing i
    | _ => True
  | _ => True

instance [Fintype P] (s : State P) : DecidablePred (Orderly s)
  | .iget _ k => inferInstanceAs (Decidable (¬ s.Freeing k))
  | .run p =>
    match h : (s.thread p).pc with
    | .allocated k => decidable_of_iff (¬ s.Freeing k) (by simp [Orderly, h])
    | .checking i => decidable_of_iff (¬ s.Racing i) (by simp [Orderly, h])
    | .idle | .loading _ | .updating _ | .put _ | .truncating _ | .clearing _ | .invalidating _
    | .unlocking _ | .dropping _ => .isTrue (by simp [Orderly, h])
  | .idup .. | .pass .. | .ilock .. | .iunlock .. | .edit .. | .readi .. | .writei .. | .ialloc ..
  | .iput .. => .isTrue trivial

def OrderlyStep [DecidableEq P] (s s' : State P) : Prop := ∃ e, Orderly s e ∧ step s e = some s'

theorem OrderlyStep.inv [DecidableEq P] (hs : OrderlyStep s s') (h : Inv False s) : Inv False s' := by
  obtain ⟨e, -, he⟩ := hs
  exact h.step False.elim he

/-! ## The invariant -/

def State.At (s : State P) (pc : Pc) : Prop := ∃ p, (s.thread p).pc = pc

/-- At a point of `iput` up to the last write to the inode. -/
def Pc.decides (i : Slot) : Pc → Bool
  | .put j => i = j
  | .checking j => i = j
  | .truncating j => i = j
  | .clearing j => i = j
  | _ => false

/-- The process has yet to decide whether it frees the inode. -/
def Thread.Pending (i : Slot) (t : Thread) : Prop := 0 < t.refs i ∨ t.pc.decides i = true

/-- The inode on disk is free and without contents, and has been freed once. -/
structure Freed (d : Dinode) (frees : Nat) : Prop where
  type : d.type = 0
  size : d.size = 0
  addrs : ∀ j, d.addrs j = 0
  once : frees = 1

def State.Freed (s : State P) (k : Key) : Prop := Icache.Freed (s.disk k) (s.frees k)

/-- What holds of one entry. -/
@[grind cases eager]
structure Reclaimed (s : State P) (i : Slot) : Prop where
  read : s.Live i → ¬ s.At (.invalidating i) → s.valided (s.entry i).key = true
  left : 0 < (s.entry i).ref → (s.entry i).valid = false ∨ s.At (.invalidating i) →
    s.valided (s.entry i).key = true → s.Freed (s.entry i).key
  emptied : s.At (.clearing i) → (s.entry i).din.size = 0 ∧ ∀ j, (s.entry i).din.addrs j = 0
  alone : s.At (.truncating i) ∨ s.At (.clearing i) → (s.entry i).ref = 1
  settled : 0 < (s.entry i).ref → (∀ p, ¬ (s.thread p).Pending i) →
    s.valided (s.entry i).key = true → (s.disk (s.entry i).key).nlink = 0 → s.Freed (s.entry i).key

@[grind cases eager]
structure Tidy (s : State P) : Prop where
  entries : ∀ i, Reclaimed s i
  unfreed : ∀ k, (s.disk k).type ≠ 0 → s.frees k = 0
  truncs : ∀ n ∈ s.truncs, n = 0
  drops : ∀ d ∈ s.drops, d.valided = true → d.din.nlink = 0 → Freed d.din d.frees

theorem Pc.decides_of_about {pc : Pc} (h : pc.about ≠ some i) : pc.decides i = false := by
  cases pc <;> simp_all [Pc.about, Pc.decides, eq_comm]

theorem Pc.puts_of_decides {pc : Pc} (h : pc.decides i = true) : pc.puts i = true := by
  cases pc <;> simp_all [Pc.decides, Pc.puts]

theorem Thread.Pending.weight_pos {t : Thread} (h : t.Pending i) : 0 < t.weight i := by
  grind [Thread.Pending, Thread.weight, Pc.puts_of_decides]

theorem Thread.Alike.pending {t t' : Thread} (h : t.Alike i t') : t'.Pending i ↔ t.Pending i := by
  unfold Thread.Pending
  grind [Pc.decides_of_about]

theorem at_iff_of_alike {pc : Pc} (hthread : ∀ q, (s.thread q).Alike j (s'.thread q))
    (hpc : pc.about = some j) : s'.At pc ↔ s.At pc :=
  exists_congr fun q => (hthread q).pc_iff hpc

theorem Reclaimed.frame (h : Reclaimed s j) (hentry : s'.entry j = s.entry j)
    (hthread : ∀ q, (s.thread q).Alike j (s'.thread q))
    (hinode : 0 < (s.entry j).ref → s'.disk (s.entry j).key = s.disk (s.entry j).key ∧
      s'.valided (s.entry j).key = s.valided (s.entry j).key ∧
      s'.frees (s.entry j).key = s.frees (s.entry j).key) : Reclaimed s' j := by
  have hat : ∀ {pc : Pc}, pc.about = some j → (s'.At pc ↔ s.At pc) := at_iff_of_alike hthread
  have hpending : (∀ q, ¬ (s'.thread q).Pending j) ↔ ∀ q, ¬ (s.thread q).Pending j :=
    forall_congr' fun q => not_congr (hthread q).pending
  have hfreed : 0 < (s.entry j).ref → s.Freed (s.entry j).key → s'.Freed (s.entry j).key := by
    intro hpos hf
    obtain ⟨hdisk, -, hfrees⟩ := hinode hpos
    unfold State.Freed
    rwa [hdisk, hfrees]
  refine ⟨fun hl hin => ?_, fun hpos hor hv => ?_, fun hclear => ?_, fun hor => ?_, fun hpos hnone hv hlinks => ?_⟩
  · unfold State.Live at hl
    rw [hentry] at hl ⊢
    rw [(hinode hl.1).2.1]
    exact h.read hl (by rwa [hat rfl] at hin)
  · rw [hentry] at hpos hor hv ⊢
    rw [(hinode hpos).2.1] at hv
    rw [hat rfl] at hor
    exact hfreed hpos (h.left hpos hor hv)
  · rw [hat rfl] at hclear
    rw [hentry]
    exact h.emptied hclear
  · rw [hat rfl, hat rfl] at hor
    rw [hentry]
    exact h.alone hor
  · rw [hentry] at hpos hv hlinks ⊢
    obtain ⟨hdisk, hvalided, -⟩ := hinode hpos
    rw [hvalided] at hv
    rw [hdisk] at hlinks
    exact hfreed hpos (h.settled hpos (hpending.1 hnone) hv hlinks)

theorem Reclaimed.keep (h : Reclaimed s i) (hpos : 0 < (s.entry i).ref)
    (hkey : (s'.entry i).key = (s.entry i).key) (hvalid : (s'.entry i).valid = (s.entry i).valid)
    (hdisk : s'.disk (s.entry i).key = s.disk (s.entry i).key) (hvalided : s'.valided = s.valided)
    (hfrees : s'.frees = s.frees) (hat : s'.At (.invalidating i) ↔ s.At (.invalidating i))
    (htrunc : ¬ s'.At (.truncating i)) (hclear : ¬ s'.At (.clearing i))
    (hsettled : 0 < (s'.entry i).ref → (∀ q, ¬ (s'.thread q).Pending i) →
      s.valided (s.entry i).key = true → (s.disk (s.entry i).key).nlink = 0 →
      s.Freed (s.entry i).key) : Reclaimed s' i := by
  have hfreed : s'.Freed (s'.entry i).key ↔ s.Freed (s.entry i).key := by
    unfold State.Freed
    rw [hkey, hdisk, hfrees]
  refine ⟨fun hl hin => ?_, fun _ hor hv => ?_, fun hc => absurd hc hclear, fun hor => ?_,
    fun hpos' hnone hv hlinks => ?_⟩
  · rw [hkey, hvalided]
    exact h.read ⟨hpos, hvalid ▸ hl.2⟩ (by rwa [hat] at hin)
  all_goals grind

/-! ## Steps of one process -/

/-- At a point of `iput` where the inode is freed. -/
def Pc.frees (i : Slot) : Pc → Bool
  | .truncating j => i = j
  | .clearing j => i = j
  | .invalidating j => i = j
  | _ => false

theorem Pc.locks_of_frees {pc : Pc} (h : pc.frees i = true) : pc.locks i = true := by
  cases pc <;> simp_all [Pc.frees, Pc.locks]

section Inv

variable {dense : Prop}

theorem Inv.at_iff_of_lock (h : Inv dense s) (hlock : (s.entry i).lock = some p) {pc : Pc}
    (hpc : pc.locks i = true) : s.At pc ↔ (s.thread p).pc = pc := by
  constructor
  · rintro ⟨q, rfl⟩
    have hq := (h.sound i).placed q hpc
    rw [hlock] at hq
    rw [Option.some.inj hq]
  · exact fun heq => ⟨p, heq⟩

theorem Inv.not_at_of_free (h : Inv dense s) (hfree : (s.entry i).lock = none) {pc : Pc}
    (hpc : pc.locks i = true) : ¬ s.At pc := by
  rintro ⟨q, rfl⟩
  have hq := (h.sound i).placed q hpc
  rw [hfree] at hq
  cases hq

theorem Inv.holder_of_at (h : Inv dense s) {pc : Pc} (hpc : pc.locks i = true) : s.At pc ↔ s.holder i = some pc := by
  cases hlock : (s.entry i).lock with
  | none => simp [h.not_at_of_free hlock hpc, holder_of_free hlock]
  | some p => rw [h.at_iff_of_lock hlock hpc, holder_of_lock hlock, Option.some.injEq]

theorem Tidy.act (r : Tidy s) (h : Inv dense s) (hpos : 0 < (s.entry i).ref) (hothers : ∀ j ≠ i, s'.entry j = s.entry j)
    (hthread : ∀ j ≠ i, ∀ q, (s.thread q).Alike j (s'.thread q))
    (hinode : ∀ k ≠ (s.entry i).key, s'.disk k = s.disk k ∧ s'.valided k = s.valided k ∧ s'.frees k = s.frees k)
    (hunfreed : (s'.disk (s.entry i).key).type ≠ 0 → s'.frees (s.entry i).key = 0)
    (htruncs : ∀ n ∈ s'.truncs, n = 0)
    (hdrops : ∀ d ∈ s'.drops, d.valided = true → d.din.nlink = 0 → Freed d.din d.frees)
    (hi : Reclaimed s' i) : Tidy s' where
  entries j := by
    rcases eq_or_ne j i with rfl | hj
    · exact hi
    · refine (r.entries j).frame (hothers j hj) (hthread j hj) fun hposj => hinode _ ?_
      intro hsame
      exact hj (h.unique j i hposj hpos hsame)
  unfreed k hk := by
    rcases eq_or_ne k (s.entry i).key with rfl | hne
    all_goals grind
  truncs := htruncs
  drops := hdrops

theorem Tidy.keep (r : Tidy s) (h : Inv dense s) (hpos : 0 < (s.entry i).ref) {e : Entry P}
    (hentry : s'.entry = Function.update s.entry i e)
    (hthread : ∀ j ≠ i, ∀ q, (s.thread q).Alike j (s'.thread q))
    (hsame : s'.disk = s.disk ∧ s'.valided = s.valided ∧ s'.frees = s.frees ∧ s'.truncs = s.truncs)
    (hkey : e.key = (s.entry i).key) (hvalid : e.valid = (s.entry i).valid)
    (hpcs : ∀ q, (s'.thread q).pc = (s.thread q).pc ∨
      (s'.thread q).pc.frees i = false ∧ (s.thread q).pc.frees i = false)
    (hbusy : ¬ s.At (.truncating i) ∧ ¬ s.At (.clearing i))
    (hdrops : ∀ d ∈ s'.drops, d.valided = true → d.din.nlink = 0 → Freed d.din d.frees)
    (hsettled : 0 < e.ref → (∀ q, ¬ (s'.thread q).Pending i) →
      s.valided (s.entry i).key = true → (s.disk (s.entry i).key).nlink = 0 →
      s.Freed (s.entry i).key) : Tidy s' := by
  obtain ⟨hdisk, hvalided, hfrees, htruncs⟩ := hsame
  have hself : s'.entry i = e := by rw [hentry, update_self]
  have hat : ∀ {pc : Pc}, pc.frees i = true → (s'.At pc ↔ s.At pc) := by
    intro pc hpc
    refine exists_congr fun q => ?_
    grind
  refine r.act h hpos (fun j hj => by rw [hentry, update_of_ne hj]) hthread
    (fun k _ => by rw [hdisk, hvalided, hfrees]; exact ⟨rfl, rfl, rfl⟩) ?_ ?_ hdrops ?_
  · rw [hdisk, hfrees]
    exact r.unfreed _
  · rw [htruncs]
    exact r.truncs
  · refine (r.entries i).keep hpos (by rw [hself, hkey]) (by rw [hself, hvalid]) (by rw [hdisk]) hvalided
      hfrees (hat (by simp [Pc.frees])) ?_ ?_ (by rw [hself]; exact hsettled)
    · rw [hat (by simp [Pc.frees])]
      exact hbusy.1
    · rw [hat (by simp [Pc.frees])]
      exact hbusy.2

theorem Inv.refers (h : Inv dense s) (hl : s.Locked p i) : s.Refers p i := by
  exact ⟨hl.1, (h.locked hl).1.refs_pos (by rw [hl.1]; rfl)⟩

theorem Inv.reclaimed (h : Inv dense s) (hlock : (s.entry i).lock = some p)
    (hread : (s.entry i).valid = true → (s.thread p).pc ≠ .invalidating i → s.valided (s.entry i).key = true)
    (hleft : (s.entry i).valid = false ∨ (s.thread p).pc = .invalidating i →
      s.valided (s.entry i).key = true → s.Freed (s.entry i).key)
    (hemptied : (s.thread p).pc = .clearing i → (s.entry i).din.size = 0 ∧ ∀ j, (s.entry i).din.addrs j = 0)
    (halone : (s.thread p).pc = .truncating i ∨ (s.thread p).pc = .clearing i → (s.entry i).ref = 1)
    (hsettled : (s.thread p).Pending i ∨
      (s.valided (s.entry i).key = true → s.Freed (s.entry i).key)) : Reclaimed s i := by
  have hat : ∀ {pc : Pc}, pc.locks i = true → (s.At pc ↔ (s.thread p).pc = pc) := h.at_iff_of_lock hlock
  refine ⟨fun hl hin => ?_, fun _ hor hv => ?_, fun hc => ?_, fun hor => ?_, fun _ hnone hv _ => ?_⟩
  · rw [hat (by simp [Pc.locks])] at hin
    exact hread hl.2 hin
  · rw [hat (by simp [Pc.locks])] at hor
    exact hleft hor hv
  · rw [hat (by simp [Pc.locks])] at hc
    exact hemptied hc
  · rw [hat (by simp [Pc.locks]), hat (by simp [Pc.locks])] at hor
    exact halone hor
  simp_all

/-- Whoever is in a call with the sleep-lock and has read the inode has it on disk, unfreed. -/
theorem Tidy.inCall (r : Tidy s) (h : Inv dense s) {pc : Pc} (hpc : (s.thread p).pc = pc)
    (hlocks : pc.locks i = true) (hread : pc.unread i = false) (hin : pc ≠ .invalidating i) :
    s.valided (s.entry i).key = true ∧ s.frees (s.entry i).key = 0 := by
  obtain ⟨hlock, huses, hvalid, hcopy⟩ := h.inCall (i := i) hpc hlocks hread
  refine ⟨(r.entries i).read ⟨(h.sound i).ref_pos huses, hvalid⟩ ?_, r.unfreed _ (hcopy.typed (by simpa using hin)).1⟩
  rwa [h.at_iff_of_lock hlock (by simp [Pc.locks]), hpc]

variable [DecidableEq P]

theorem Tidy.not_busy (r : Tidy s) (h : Inv dense s) (hpos : 0 < (s.thread p).weight i)
    (hpc : (s.thread p).pc.frees i = false) : ¬ s.At (.truncating i) ∧ ¬ s.At (.clearing i) := by
  have hother : ∀ {pc : Pc}, pc.frees i = true → pc.puts i = true → s.At pc → (s.entry i).ref = 1 → False := by
    rintro pc hfrees hputs ⟨q, rfl⟩ href
    have hne : p ≠ q := by
      rintro rfl
      rw [hfrees] at hpc
      cases hpc
    have hle := (h.sound i).count.add_le hne
    have hq : 1 ≤ (s.thread q).weight i := by
      rw [Thread.weight, hputs]
      exact Nat.le_add_left ..
    omega
  constructor
  · intro ht
    exact hother (by simp [Pc.frees]) (by simp [Pc.puts]) ht ((r.entries i).alone (.inl ht))
  · intro hc
    exact hother (by simp [Pc.frees]) (by simp [Pc.puts]) hc ((r.entries i).alone (.inr hc))

theorem frees_update (thread : P → Thread) {t : Thread} (h : (thread p).pc.frees i = false)
    (h' : t.pc.frees i = false) (q : P) :
    (Function.update thread p t q).pc = (thread q).pc ∨
      (Function.update thread p t q).pc.frees i = false ∧ (thread q).pc.frees i = false := by
  all_goals grind

theorem pending_update (thread : P → Thread) {t : Thread}
    (h : (thread p).Pending i → t.Pending i) (hq : (thread q).Pending i) :
    (Function.update thread p t q).Pending i := by
  all_goals grind

/-- A process that has a reference does something with the entry, and has yet to put the reference. -/
theorem Tidy.use (r : Tidy s) (h : Inv dense s) {e : Entry P} {t : Thread}
    (hentry : s'.entry = Function.update s.entry i e)
    (hthread : s'.thread = Function.update s.thread p t)
    (hsame : s'.disk = s.disk ∧ s'.valided = s.valided ∧ s'.frees = s.frees ∧ s'.truncs = s.truncs)
    (hdrops : s'.drops = s.drops) (ht : ∀ j ≠ i, (s.thread p).Alike j t)
    (hkey : e.key = (s.entry i).key) (hvalid : e.valid = (s.entry i).valid)
    (hweight : 0 < (s.thread p).weight i) (hfrees : (s.thread p).pc.frees i = false)
    (hfrees' : t.pc.frees i = false) (hpending : t.Pending i) : Tidy s' := by
  refine r.keep h (lt_of_lt_of_le hweight ((h.sound i).count.le p)) hentry ?_ hsame hkey hvalid ?_
    (r.not_busy h hweight hfrees) (by rw [hdrops]; exact r.drops) ?_
  · rw [hthread]
    exact alike_update ht
  · rw [hthread]
    exact frees_update _ hfrees hfrees'
  · intro _ hnone
    have hp := hnone p
    rw [hthread, update_self] at hp
    exact absurd hpending hp

theorem pc_update (thread : P → Thread) {t : Thread} (ht : t.pc = (thread p).pc) (a : P) :
    (Function.update thread p t a).pc = (thread a).pc := by
  rcases eq_or_ne a p with rfl | ha
  · rw [update_self, ht]
  · rw [update_of_ne ha]

theorem Tidy.idup (r : Tidy s) (h : Inv dense s) (hr : s.Refers p i) : Tidy (Icache.idup s q i) := by
  have hbusy := r.not_busy h hr.uses.weight_pos (by rw [hr.1]; rfl)
  refine r.keep h ((h.sound i).ref_pos hr.uses) rfl (alike_update fun j hj => Thread.alike_take hj)
    ⟨rfl, rfl, rfl, rfl⟩ rfl rfl (fun a => .inl (pc_update s.thread (t := (s.thread q).take i) rfl a)) hbusy r.drops
    fun _ hnone => absurd ?_ (hnone q)
  change (Function.update s.thread q ((s.thread q).take i) q).Pending i
  exact .inl (by simp)

theorem Tidy.pass (r : Tidy s) (h : Inv dense s) (hr : s.Refers p i) : Tidy (Icache.pass s p q i) := by
  have hbusy := r.not_busy h hr.uses.weight_pos (by rw [hr.1]; rfl)
  -- the state between the two halves of the step
  let s1 := s.setThread q ((s.thread q).take i)
  have hfirst : ∀ j ≠ i, ∀ a, (s.thread a).Alike j (s1.thread a) :=
    alike_update fun j hj => Thread.alike_take hj
  have hsecond : ∀ j ≠ i, ∀ a, (s1.thread a).Alike j ((Icache.pass s p q i).thread a) :=
    alike_update fun j hj => Thread.alike_give hj
  have hpc1 : ∀ a, (s1.thread a).pc = (s.thread a).pc := pc_update s.thread rfl
  have hpc2 : ∀ a, ((Icache.pass s p q i).thread a).pc = (s1.thread a).pc := pc_update s1.thread rfl
  refine r.keep h ((h.sound i).ref_pos hr.uses) (update_eq_self i s.entry).symm
    (fun j hj a => (hfirst j hj a).trans (hsecond j hj a)) ⟨rfl, rfl, rfl, rfl⟩ rfl rfl
    (fun a => .inl ((hpc2 a).trans (hpc1 a))) hbusy r.drops fun _ hnone => absurd (.inl ?_) (hnone q)
  have htake : (s1.thread q).refs i = (s.thread q).refs i + 1 := by
    change (Function.update s.thread q ((s.thread q).take i) q).refs i = _
    rw [update_self, Thread.refs_take_self]
  change 0 < (Function.update s1.thread p ((s1.thread p).give i) q).refs i
  rcases eq_or_ne q p with rfl | hne
  all_goals grind [pass, State.Refers, Icache.pass, Thread.refs_give_self]

theorem Tidy.ilock (r : Tidy s) (h : Inv dense s) (hr : s.Refers p i) :
    Tidy ((s.setEntry i ((s.entry i).setLock (some p))).goto p (.loading i)) :=
  r.use h rfl rfl ⟨rfl, rfl, rfl, rfl⟩ rfl
    (fun _ hj => Thread.alike_goto (Pc.only_of_none hr.about) (.inr rfl) hj) rfl rfl hr.uses.weight_pos
    (by rw [hr.1]; rfl) rfl (.inl hr.2)

theorem Tidy.change (r : Tidy s) (h : Inv dense s) (hl : s.Locked p i) {e : Entry P}
    (hkey : e.key = (s.entry i).key) (hvalid : e.valid = (s.entry i).valid) :
    Tidy (s.setEntry i e) := by
  have hr := h.refers hl
  exact r.use h rfl (update_eq_self p s.thread).symm ⟨rfl, rfl, rfl, rfl⟩ rfl
    (fun _ _ => .refl ..) hkey hvalid hr.uses.weight_pos (by rw [hr.1]; rfl) (by rw [hr.1]; rfl)
    (.inl hr.2)

theorem Tidy.edit (r : Tidy s) (h : Inv dense s) (hl : s.Locked p i) (d : Dinode) :
    Tidy ((s.setEntry i ((s.entry i).setDin d)).goto p (.updating i)) := by
  have hr := h.refers hl
  exact r.use h rfl rfl ⟨rfl, rfl, rfl, rfl⟩ rfl
    (fun _ hj => Thread.alike_goto (Pc.only_of_none hr.about) (.inr rfl) hj) rfl rfl hr.uses.weight_pos
    (by rw [hr.1]; rfl) rfl (.inl hr.2)

theorem Tidy.writei (r : Tidy s) (h : Inv dense s) (hl : s.Locked p i) (off n : Nat)
    (fresh : Nat → UInt32) : Tidy (Icache.writei s p i off n fresh) := by
  unfold Icache.writei
  split
  · exact r.edit h hl _
  · exact r.change h hl rfl rfl

theorem Tidy.iput (r : Tidy s) (h : Inv dense s) (hr : s.Refers p i) :
    Tidy (s.setThread p (((s.thread p).give i).goto (.put i))) :=
  r.use h (update_eq_self i s.entry).symm rfl ⟨rfl, rfl, rfl, rfl⟩ rfl
    (fun _ hj => (Thread.alike_give hj).trans (Thread.alike_goto (Pc.only_of_none hr.about) (.inr rfl) hj))
    rfl rfl hr.uses.weight_pos (by rw [hr.1]; rfl) rfl (.inr (by simp [Pc.decides]))

theorem Tidy.acquire (r : Tidy s) (h : Inv dense s) (hpc : (s.thread p).pc = .put i) :
    Tidy ((s.setEntry i ((s.entry i).setLock (some p))).goto p (.checking i)) :=
  r.use h rfl rfl ⟨rfl, rfl, rfl, rfl⟩ rfl (alike_stage (by rw [hpc]; exact .inr rfl) (.inr rfl)) rfl rfl
    (by rw [Thread.weight, hpc]; simp [Pc.puts]) (by rw [hpc]; rfl) rfl (.inr (by simp [Pc.decides]))

theorem Tidy.skip (r : Tidy s) (h : Inv dense s) (hpc : (s.thread p).pc = .checking i)
    (hcond : ¬ ((s.entry i).valid = true ∧ (s.entry i).din.nlink = 0 ∧ (s.entry i).ref = 1))
    (hrace : ¬ s.Racing i) : Tidy (s.goto p (.unlocking i)) := by
  have hi := h.sound i
  have hlock := hi.placed p (by rw [hpc]; simp [Pc.locks])
  have hpos := hi.ref_pos (hi.held p hlock).1
  have hholder : s.holder i = some (.checking i) := by rw [holder_of_lock hlock, hpc]
  have hweight : (s.thread p).weight i = (s.thread p).refs i + 1 := by
    rw [Thread.weight, hpc]
    simp [Pc.puts]
  refine r.keep h hpos (update_eq_self i s.entry).symm
    (alike_update (alike_stage (by rw [hpc]; exact .inr rfl) (.inr rfl))) ⟨rfl, rfl, rfl, rfl⟩ rfl rfl
    (frees_update s.thread (by rw [hpc]; rfl) rfl)
    (r.not_busy h (by rw [hweight]; exact Nat.succ_pos _) (by rw [hpc]; rfl)) r.drops ?_
  · intro _ hnone hv hlinks
    cases hvalid : (s.entry i).valid with
    | false => exact (r.entries i).left hpos (.inl hvalid) hv
    | true =>
      have hmatch := (hi.copy ⟨hpos, hvalid⟩).clean (by rw [hholder]; simp) (by rw [hholder]; simp)
      have hcopy : (s.entry i).din.nlink = 0 := hmatch.nlink.trans hlinks
      -- somebody else has a reference, and will come to the tests
      have hmine : (s.thread p).refs i = 0 := by
        by_contra hne
        refine hnone p (.inl ?_)
        change 0 < (Function.update s.thread p ((s.thread p).goto _) p).refs i
        rw [update_self]
        exact Nat.pos_of_ne_zero hne
      have hmore : (s.thread p).weight i < (s.entry i).ref := by grind
      obtain ⟨q, hq, hqpos⟩ := hi.count.exists_ne hmore
      have hrest : ¬ (s.thread q).Pending i := by
        have hq' := hnone q
        change ¬ (Function.update s.thread p _ q).Pending i at hq'
        rwa [update_of_ne hq] at hq'
      have hputs : (s.thread q).pc.puts i = true := by
        by_contra hputs
        rw [Bool.not_eq_true] at hputs
        rw [Thread.weight, hputs] at hqpos
        exact hrest (.inl hqpos)
      have hfree : (s.thread q).pc.locks i = false := by grind
      have hdrop : (s.thread q).pc = .dropping i := by
        have hdecides : ¬ (s.thread q).pc.decides i = true := fun hd => hrest (.inr hd)
        revert hputs hfree hdecides
        cases (s.thread q).pc <;> simp +contextual [Pc.puts, Pc.locks, Pc.decides]
      exact absurd ⟨⟨hvalid, hcopy⟩, q, hdrop⟩ hrace

theorem Tidy.releasesleep (r : Tidy s) (h : Inv dense s) (hpc : (s.thread p).pc = .unlocking i) :
    Tidy ((s.setEntry i ((s.entry i).setLock none)).goto p (.dropping i)) := by
  have hi := h.sound i
  have hlock := hi.placed p (by rw [hpc]; simp [Pc.locks])
  have hpos := hi.ref_pos (hi.held p hlock).1
  refine r.keep h hpos rfl (alike_update (alike_stage (by rw [hpc]; exact .inr rfl) (.inr rfl)))
    ⟨rfl, rfl, rfl, rfl⟩ rfl rfl ?_
    (r.not_busy h (by rw [Thread.weight, hpc]; simp [Pc.puts]) (by rw [hpc]; rfl)) r.drops ?_
  · exact frees_update s.thread (by rw [hpc]; rfl) rfl
  · intro _ hnone
    refine (r.entries i).settled hpos fun q hq => hnone q (pending_update s.thread (fun hp => ?_) hq)
    rwa [Thread.Pending, hpc] at hp

theorem Tidy.drop (r : Tidy s) (h : Inv dense s) (hpc : (s.thread p).pc = .dropping i) : Tidy (Icache.drop s p i) := by
  have hi := h.sound i
  have hweight : 0 < (s.thread p).weight i := by
    rw [Thread.weight, hpc]
    simp [Pc.puts]
  have hpos : 0 < (s.entry i).ref := lt_of_lt_of_le hweight (hi.count.le p)
  have hbusy := r.not_busy h hweight (by rw [hpc]; rfl)
  have hthread := alike_update (s := s) (p := p) (i := i) (t := (s.thread p).goto .idle)
    (alike_stage (by rw [hpc]; exact .inr rfl) (.inl rfl))
  have hpcs := frees_update s.thread (i := i) (t := (s.thread p).goto .idle) (p := p) (by rw [hpc]; rfl) rfl
  have hpending : ∀ q, (s.thread q).Pending i → (Function.update s.thread p ((s.thread p).goto .idle) q).Pending i := by
    intro q hq
    refine pending_update s.thread (fun hp => ?_) hq
    rw [Thread.Pending, hpc] at hp
    exact hp.imp_right fun hd => absurd hd Bool.false_ne_true
  have hsettled : (∀ q, ¬ (Function.update s.thread p ((s.thread p).goto .idle) q).Pending i) →
      s.valided (s.entry i).key = true → (s.disk (s.entry i).key).nlink = 0 →
      s.Freed (s.entry i).key :=
    fun hnone => (r.entries i).settled hpos fun q hq => hnone q (hpending q hq)
  unfold Icache.drop
  split
  next hone =>
    refine r.keep h hpos rfl hthread ⟨rfl, rfl, rfl, rfl⟩ rfl rfl hpcs hbusy ?_ fun _ => hsettled
    intro d hd
    rcases List.mem_append.1 hd with hold | hlast
    · exact r.drops d hold
    · obtain rfl := List.mem_singleton.1 hlast
      -- nobody has another reference
      refine hsettled fun q hq => ?_
      rcases eq_or_ne q p with rfl | hne
      · rw [update_self] at hq
        have hrefs : 0 < (s.thread q).refs i := hq.resolve_right Bool.false_ne_true
        have hle := hi.count.le q
        rw [Thread.weight, hpc] at hle
        simp only [Pc.puts, decide_true, Bool.toNat_true] at hle
        omega
      · rw [update_of_ne hne] at hq
        have hle := hi.count.add_le hne
        have hqpos := hq.weight_pos
        omega
  next => exact r.keep h hpos rfl hthread ⟨rfl, rfl, rfl, rfl⟩ rfl rfl hpcs hbusy r.drops fun _ => hsettled

theorem Tidy.hold (r : Tidy s) (h : Inv dense s) (h' : Inv dense s') {e : Entry P} {pc : Pc} {d : Dinode}
    {v : Bool} {n : Nat} (hlock : (s.entry i).lock = some p)
    (hpc : (s.thread p).pc.Only i) (hpc' : pc.Only i)
    (hentry : s'.entry = Function.update s.entry i e)
    (hthread : s'.thread = Function.update s.thread p ((s.thread p).goto pc))
    (hdisk : s'.disk = Function.update s.disk (s.entry i).key d)
    (hvalided : s'.valided = Function.update s.valided (s.entry i).key v)
    (hfrees : s'.frees = Function.update s.frees (s.entry i).key n)
    (htruncs : s'.truncs = s.truncs ∨ s'.truncs = s.truncs ++ [(s.entry i).ref - 1] ∧ (s.entry i).ref = 1)
    (hdrops : s'.drops = s.drops) (hkey : e.key = (s.entry i).key) (helock : e.lock = some p)
    (hunfreed : d.type ≠ 0 → n = 0) (hread : e.valid = true → pc ≠ .invalidating i → v = true)
    (hleft : e.valid = false ∨ pc = .invalidating i → v = true → Freed d n)
    (hemptied : pc = .clearing i → e.din.size = 0 ∧ ∀ j, e.din.addrs j = 0)
    (halone : pc = .truncating i ∨ pc = .clearing i → e.ref = 1)
    (hsettled : ((s.thread p).goto pc).Pending i ∨ (v = true → Freed d n)) : Tidy s' := by
  have hpos := (h.sound i).ref_pos ((h.sound i).held p hlock).1
  have hself : s'.entry i = e := by rw [hentry, update_self]
  have hmine : s'.thread p = (s.thread p).goto pc := by rw [hthread, update_self]
  have hd : s'.disk (s.entry i).key = d := by rw [hdisk, update_self]
  have hv : s'.valided (s.entry i).key = v := by rw [hvalided, update_self]
  have hn : s'.frees (s.entry i).key = n := by rw [hfrees, update_self]
  have hfreed : s'.Freed (s.entry i).key ↔ Freed d n := by rw [State.Freed, hd, hn]
  refine r.act h hpos (fun j hj => by rw [hentry, update_of_ne hj]) ?_ (fun k hk => ?_) ?_ ?_ ?_ ?_
  · rw [hthread]
    exact alike_update (alike_stage hpc hpc')
  · rw [hdisk, hvalided, hfrees, update_of_ne hk, update_of_ne hk, update_of_ne hk]
    exact ⟨rfl, rfl, rfl⟩
  · rw [hd, hn]
    exact hunfreed
  · grind
  · rw [hdrops]
    exact r.drops
  · apply h'.reclaimed (p := p)
    · rw [hself, helock]
    · rw [hself, hmine, hkey, hv]
      exact hread
    · rw [hself, hmine, hkey, hv, hfreed]
      exact hleft
    · rw [hself, hmine]
      exact hemptied
    · rw [hself, hmine]
      exact halone
    · rw [hself, hmine, hkey, hv, hfreed]
      exact hsettled

theorem Tidy.free (r : Tidy s) (h : Inv dense s) (h' : Inv dense (s.goto p (.truncating i)))
    (hpc : (s.thread p).pc = .checking i) (hvalid : (s.entry i).valid = true)
    (hone : (s.entry i).ref = 1) : Tidy (s.goto p (.truncating i)) := by
  have hlock := (h.sound i).placed p (by rw [hpc]; simp [Pc.locks])
  have hread := (r.entries i).read ⟨hone ▸ Nat.one_pos, hvalid⟩ (by
    rw [h.at_iff_of_lock hlock (by simp [Pc.locks]), hpc]
    simp)
  refine r.hold h h' hlock (by rw [hpc]; exact .inr rfl) (.inr rfl)
    (update_eq_self i s.entry).symm rfl (update_eq_self _ s.disk).symm
    (update_eq_self _ s.valided).symm (update_eq_self _ s.frees).symm (.inl rfl) rfl rfl
    hlock (r.unfreed _) (fun _ _ => hread) ?_ (by simp) (fun _ => hone) (.inl (.inr (by simp [Pc.decides])))
  rintro (hno | hno)
  · rw [hvalid] at hno
    cases hno
  · cases hno

theorem Tidy.load (r : Tidy s) (h : Inv dense s) (h' : Inv dense s') (hpc : (s.thread p).pc = .loading i)
    (hs : load s p i = some s') : Tidy s' := by
  have hi := h.sound i
  have hlock := hi.placed p (by rw [hpc]; simp [Pc.locks])
  have huses := (hi.held p hlock).1
  have hrefs := huses.refs_pos (by rw [hpc]; rfl)
  unfold Icache.load at hs
  split at hs
  next =>
    cases hs
    exact r.use h (update_eq_self i s.entry).symm rfl ⟨rfl, rfl, rfl, rfl⟩ rfl
      (alike_stage (by rw [hpc]; exact .inr rfl) (.inl rfl)) rfl rfl huses.weight_pos
      (by rw [hpc]; rfl) rfl (.inl hrefs)
  next =>
    split at hs
    next => cases hs
    next htype =>
      cases hs
      exact r.hold h h' hlock (by rw [hpc]; exact .inr rfl) (.inl rfl) rfl rfl
        (update_eq_self _ s.disk).symm rfl (update_eq_self _ s.frees).symm (.inl rfl) rfl
        rfl hlock (r.unfreed _) (fun _ _ => rfl) (by simp) (by simp) (by simp)
        (.inl (.inl hrefs))

theorem Tidy.update (r : Tidy s) (h : Inv dense s) (h' : Inv dense ((s.iupdate i).goto p .idle))
    (hpc : (s.thread p).pc = .updating i) : Tidy ((s.iupdate i).goto p .idle) := by
  obtain ⟨hlock, huses, hvalid, -⟩ := h.inCall (i := i) hpc (by simp [Pc.locks]) rfl
  obtain ⟨hvalided, hfrees⟩ := r.inCall (i := i) h hpc (by simp [Pc.locks]) rfl (by simp)
  have hrefs := huses.refs_pos (by rw [hpc]; rfl)
  refine r.hold h h' hlock (by rw [hpc]; exact .inr rfl) (.inl rfl)
    (update_eq_self i s.entry).symm rfl rfl (update_eq_self _ s.valided).symm
    (update_eq_self _ s.frees).symm (.inl rfl) rfl rfl hlock (fun _ => hfrees)
    (fun _ _ => hvalided) ?_ (by simp) (by simp) (.inl (.inl hrefs))
  rintro (hno | hno)
  · rw [hvalid] at hno
    cases hno
  · cases hno

theorem Tidy.itrunc (r : Tidy s) (h : Inv dense s) (h' : Inv dense (Icache.itrunc s p i))
    (hpc : (s.thread p).pc = .truncating i) : Tidy (Icache.itrunc s p i) := by
  obtain ⟨hlock, -, hvalid, -⟩ := h.inCall (i := i) hpc (by simp [Pc.locks]) rfl
  obtain ⟨hvalided, hfrees⟩ := r.inCall (i := i) h hpc (by simp [Pc.locks]) rfl (by simp)
  have hone := (r.entries i).alone (.inl ⟨p, hpc⟩)
  have hself : (s.setEntry i ((s.entry i).setDin (truncated (s.entry i).din))).entry i =
      (s.entry i).setDin (truncated (s.entry i).din) := update_self ..
  refine r.hold h h' (e := (s.entry i).setDin (truncated (s.entry i).din))
    (d := truncated (s.entry i).din) hlock (by rw [hpc]; exact .inr rfl) (.inr rfl) rfl rfl ?_
    (update_eq_self _ s.valided).symm (update_eq_self _ s.frees).symm
    (.inr ⟨rfl, hone⟩) rfl rfl hlock (fun _ => hfrees) (fun _ _ => hvalided) ?_
    (fun _ => ⟨rfl, fun _ => rfl⟩) (fun _ => hone) (.inl (.inr (by simp [Pc.decides])))
  · simp only [Icache.itrunc, State.goto, State.setThread, State.iupdate, State.setDisk, hself]
    rfl
  · rintro (hno | hno)
    · rw [Entry.setDin, hvalid] at hno
      cases hno
    · cases hno

theorem Tidy.clear (r : Tidy s) (h : Inv dense s) (h' : Inv dense (Icache.clear s p i))
    (hpc : (s.thread p).pc = .clearing i) : Tidy (Icache.clear s p i) := by
  obtain ⟨hlock, -, -, -⟩ := h.inCall (i := i) hpc (by simp [Pc.locks]) rfl
  obtain ⟨-, hfrees⟩ := r.inCall (i := i) h hpc (by simp [Pc.locks]) rfl (by simp)
  obtain ⟨hsize, haddrs⟩ := (r.entries i).emptied ⟨p, hpc⟩
  have hone := (r.entries i).alone (.inr ⟨p, hpc⟩)
  have hself : (s.setEntry i ((s.entry i).setDin { (s.entry i).din with type := 0 })).entry i =
      (s.entry i).setDin { (s.entry i).din with type := 0 } := update_self ..
  have hfreed : Freed { (s.entry i).din with type := 0 } (s.frees (s.entry i).key + 1) :=
    ⟨rfl, hsize, haddrs, by rw [hfrees]⟩
  refine r.hold h h' (e := (s.entry i).setDin { (s.entry i).din with type := 0 })
    (d := { (s.entry i).din with type := 0 }) hlock (by rw [hpc]; exact .inr rfl) (.inr rfl) rfl rfl ?_
    (update_eq_self _ s.valided).symm rfl (.inr ⟨rfl, hone⟩) rfl rfl hlock
    (fun hne => absurd rfl hne) (fun _ hin => absurd rfl hin) (fun _ _ => hfreed) (by simp)
    (by simp) (.inr fun _ => hfreed)
  simp only [Icache.clear, State.goto, State.setThread, State.iupdate, State.setDisk, hself]
  rfl

theorem Tidy.invalidate (r : Tidy s) (h : Inv dense s)
    (h' : Inv dense ((s.setEntry i { s.entry i with valid := false }).goto p (.unlocking i)))
    (hpc : (s.thread p).pc = .invalidating i) :
    Tidy ((s.setEntry i { s.entry i with valid := false }).goto p (.unlocking i)) := by
  obtain ⟨hlock, huses, -, -⟩ := h.inCall (i := i) hpc (by simp [Pc.locks]) rfl
  have hleft := (r.entries i).left ((h.sound i).ref_pos huses) (.inr ⟨p, hpc⟩)
  exact r.hold h h' hlock (by rw [hpc]; exact .inr rfl) (.inr rfl) rfl rfl
    (update_eq_self _ s.disk).symm (update_eq_self _ s.valided).symm
    (update_eq_self _ s.frees).symm (.inl rfl) rfl rfl hlock (r.unfreed _) (by simp)
    (fun _ => hleft) (by simp) (by simp) (.inr hleft)

theorem Tidy.install (r : Tidy s) (h : Inv dense s) (hzero : (s.entry i).ref = 0)
    (hnone : ∀ j, 0 < (s.entry j).ref → (s.entry j).key ≠ k) (hpc : (s.thread p).pc.about = none)
    (hentry : s'.entry = Function.update s.entry i ((s.entry i).recycle k))
    (hthread : s'.thread = Function.update s.thread p (((s.thread p).take i).goto .idle))
    (hsame : s'.disk = s.disk ∧ s'.frees = s.frees ∧ s'.truncs = s.truncs ∧ s'.drops = s.drops)
    (hvalided : s'.valided = Function.update s.valided k false) : Tidy s' := by
  obtain ⟨hdisk, hfrees, htruncs, hdrops⟩ := hsame
  have hself : s'.entry i = (s.entry i).recycle k := by rw [hentry, update_self]
  have hnew : s'.valided (s'.entry i).key = false := by
    rw [hself, hvalided]
    exact update_self ..
  have hat : ∀ {pc : Pc}, pc.locks i = true → ¬ s'.At pc := by
    rintro pc hlocks ⟨q, hq⟩
    rw [hthread] at hq
    rcases eq_or_ne q p with rfl | hne
    · rw [update_self] at hq
      rw [← hq] at hlocks
      cases hlocks
    · rw [update_of_ne hne] at hq
      have hquiet := (((h.sound i).of_empty hzero).2 q).2
      rw [hq, hlocks] at hquiet
      cases hquiet
  refine ⟨fun j => ?_, by rw [hdisk, hfrees]; exact r.unfreed, by rw [htruncs]; exact r.truncs,
    by rw [hdrops]; exact r.drops⟩
  rcases eq_or_ne j i with rfl | hj
  · refine ⟨fun hl => ?_, fun _ _ hv => ?_, fun hc => ?_, fun hor => ?_, fun _ _ hv => ?_⟩
    · have hv := hl.2
      rw [hself] at hv
      cases hv
    all_goals grind [Pc.frees, Pc.locks]
  · refine (r.entries j).frame (by rw [hentry, update_of_ne hj]) ?_ fun hpos => ?_
    · rw [hthread]
      exact alike_update (alike_take_goto hpc) j hj
    · rw [hdisk, hfrees, hvalided, update_of_ne (hnone j hpos)]
      exact ⟨rfl, rfl, rfl⟩

theorem Tidy.iget (r : Tidy s) (h : Inv dense s) (hpc : (s.thread p).pc.about = none)
    (hfreeing : ¬ s.Freeing k) (hs : iget s p k = some s') : Tidy s' := by
  unfold Icache.iget at hs
  split at hs
  next i hi =>
    cases hs
    obtain ⟨hpos, hkey⟩ := cached_eq_some hi
    have hfrees : (s.thread p).pc.frees i = false := by
      by_contra hyes
      rw [Bool.not_eq_false] at hyes
      have hlocks := Pc.locks_of_frees hyes
      rw [Pc.locks_of_about (Pc.about_ne hpc)] at hlocks
      cases hlocks
    refine r.keep h hpos rfl (alike_update (alike_take_goto hpc)) ⟨rfl, rfl, rfl, rfl⟩ rfl rfl
      (frees_update s.thread hfrees rfl) ⟨?_, ?_⟩ r.drops fun _ hnone => absurd ?_ (hnone p)
    · rintro ⟨q, hq⟩
      exact hfreeing ⟨q, i, .inl hq, hkey⟩
    · rintro ⟨q, hq⟩
      exact hfreeing ⟨q, i, .inr hq, hkey⟩
    · change (Function.update s.thread p (((s.thread p).take i).goto .idle) p).Pending i
      rw [update_self]
      exact .inl (by simp)
  next hnone =>
    obtain ⟨i, hi, rfl⟩ := Option.map_eq_some_iff.1 hs
    exact r.install h (empty_eq_some hi) (cached_eq_none hnone) hpc rfl rfl ⟨rfl, rfl, rfl, rfl⟩ rfl

/-- A free inode is allocated again.  An entry for it, which nobody has read or which is being left,
starts anew. -/
theorem Tidy.ialloc (r : Tidy s) (h : Inv dense s) {type : UInt16} (hpc : (s.thread p).pc = .idle)
    (hfree : (s.disk k).type = 0) (hentry : s'.entry = s.entry)
    (hthread : s'.thread = Function.update s.thread p ((s.thread p).goto (.allocated k)))
    (hdisk : s'.disk = Function.update s.disk k (newInode type))
    (hvalided : s'.valided = Function.update s.valided k false)
    (hfrees : s'.frees = Function.update s.frees k 0)
    (hlists : s'.truncs = s.truncs ∧ s'.drops = s.drops) : Tidy s' := by
  have halike : ∀ i q, (s.thread q).Alike i (s'.thread q) := by
    intro i q
    rw [hthread]
    rcases eq_or_ne q p with rfl | hq
    · rw [update_self]
      exact ⟨rfl, .inr ⟨by rw [hpc]; exact nofun, nofun⟩⟩
    · rw [update_of_ne hq]
      exact .refl ..
  refine ⟨fun i => ?_, fun k' hk' => ?_, by rw [hlists.1]; exact r.truncs, by rw [hlists.2]; exact r.drops⟩
  · by_cases hkey : (s.entry i).key = k
    · have hnew : s'.valided (s'.entry i).key = false := by rw [hentry, hkey, hvalided, update_self]
      have hat : ∀ {pc : Pc}, pc.about = some i → (s'.At pc ↔ s.At pc) := at_iff_of_alike (halike i)
      refine ⟨fun hl hin => ?_, fun _ _ hv => ?_, fun hc => ?_, fun hor => ?_, fun _ _ hv => ?_⟩
      · unfold State.Live at hl
        rw [hentry] at hl
        rw [hat rfl, h.holder_of_at (i := i) (by simp [Pc.locks])] at hin
        exact absurd (hkey ▸ hfree) (((h.sound i).copy hl).typed hin).1
      · rw [hnew] at hv
        cases hv
      · rw [hentry]
        rw [hat rfl] at hc
        exact (r.entries i).emptied hc
      · rw [hentry]
        rw [hat rfl, hat rfl] at hor
        exact (r.entries i).alone hor
      · rw [hnew] at hv
        cases hv
    · refine (r.entries i).frame (by rw [hentry]) (halike i) fun _ => ?_
      rw [hdisk, hvalided, hfrees, update_of_ne hkey, update_of_ne hkey, update_of_ne hkey]
      exact ⟨rfl, rfl, rfl⟩
  · rw [hfrees]
    rcases eq_or_ne k' k with rfl | hne
    · exact update_self ..
    · rw [hdisk, update_of_ne hne] at hk'
      rw [update_of_ne hne]
      exact r.unfreed k' hk'

/-! ## Runs -/

theorem Tidy.run (r : Tidy s) (h : Inv dense s) (ho : Orderly s (.run p)) (hs : run s p = some s') :
    Tidy s' := by
  have h' : Inv dense s' := h.run hs
  unfold Icache.run at hs
  unfold Orderly at ho
  split at hs
  next => cases hs
  next hpc => exact r.load h h' hpc hs
  next hpc =>
    cases hs
    exact r.update h h' hpc
  next k hpc =>
    simp only [hpc] at ho
    exact r.iget h (by rw [hpc]; rfl) ho hs
  next hpc =>
    obtain ⟨-, ⟨⟩⟩ := ite_none_right_eq_some.1 hs
    exact r.acquire h hpc
  next hpc =>
    cases hs
    simp only [hpc] at ho
    unfold Icache.check at h' ⊢
    split
    next hall =>
      rw [if_pos hall] at h'
      exact r.free h h' hpc hall.1 hall.2.2
    next hno => exact r.skip h hpc hno ho
  next hpc =>
    cases hs
    exact r.itrunc h h' hpc
  next hpc =>
    cases hs
    exact r.clear h h' hpc
  next hpc =>
    cases hs
    exact r.invalidate h h' hpc
  next hpc =>
    cases hs
    exact r.releasesleep h hpc
  next hpc =>
    cases hs
    exact r.drop h hpc

theorem Tidy.step (r : Tidy s) (h : Inv dense s) (hs : OrderlyStep s s') : Tidy s' := by
  obtain ⟨e, ho, he⟩ := hs
  cases e with
  | run p => exact r.run h ho he
  | iget p k =>
    obtain ⟨hpc, he⟩ := ite_none_right_eq_some.1 he
    exact r.iget h (by rw [hpc]; rfl) ho he
  | idup p q i =>
    obtain ⟨hr, ⟨⟩⟩ := ite_none_right_eq_some.1 he
    exact r.idup h hr
  | pass p q i =>
    obtain ⟨⟨hr, -⟩, ⟨⟩⟩ := ite_none_right_eq_some.1 he
    exact r.pass h hr
  | ilock p i =>
    obtain ⟨⟨hr, -⟩, ⟨⟩⟩ := ite_none_right_eq_some.1 he
    exact r.ilock h hr
  | iunlock p i =>
    obtain ⟨hl, ⟨⟩⟩ := ite_none_right_eq_some.1 he
    exact r.change h hl rfl rfl
  | edit p i major minor nlink =>
    obtain ⟨hl, ⟨⟩⟩ := ite_none_right_eq_some.1 he
    exact r.edit h hl _
  | readi p i off n fresh =>
    obtain ⟨⟨hl, -⟩, ⟨⟩⟩ := ite_none_right_eq_some.1 he
    exact r.change h hl rfl rfl
  | writei p i off n fresh =>
    obtain ⟨⟨hl, -⟩, ⟨⟩⟩ := ite_none_right_eq_some.1 he
    exact r.writei h hl off n fresh
  | ialloc p k type =>
    obtain ⟨⟨hpc, hfree, -⟩, ⟨⟩⟩ := ite_none_right_eq_some.1 he
    exact r.ialloc h hpc hfree rfl rfl rfl rfl rfl ⟨rfl, rfl⟩
  | iput p i =>
    obtain ⟨hr, ⟨⟩⟩ := ite_none_right_eq_some.1 he
    exact r.iput h hr

end Inv

theorem tidy_boot (disk : Key → Dinode) : Tidy (boot P disk) where
  entries _ := {
    read := fun hl => nomatch hl.2
    left := fun hpos => absurd hpos (lt_irrefl 0)
    emptied := fun hc => nomatch hc
    alone := fun hor => hor.elim nofun nofun
    settled := fun hpos => absurd hpos (lt_irrefl 0) }
  unfreed _ _ := rfl
  truncs := nofun
  drops := nofun

/-- In every run of orderly steps, an inode without links that has been read is free, without contents
and freed once when the last reference to it is dropped, and it is never truncated or freed while there
is another reference. -/
theorem inode_reclaimed [DecidableEq P] {disk : Key → Dinode}
    (hreach : Relation.ReflTransGen OrderlyStep (boot P disk) s) :
    (∀ d ∈ s.drops, d.valided = true → d.din.nlink = 0 →
      d.din.type = 0 ∧ d.din.size = 0 ∧ (∀ j, d.din.addrs j = 0) ∧ d.frees = 1) ∧
      ∀ n ∈ s.truncs, n = 0 := by
  have hboth : Inv False s ∧ Tidy s := by
    refine invariant_of_reachable (fun s => Inv False s ∧ Tidy s) ⟨inv_boot nofun, tidy_boot disk⟩ ?_ hreach
    rintro s s' ⟨h, r⟩ hs
    exact ⟨hs.inv h, r.step h hs⟩
  obtain ⟨-, r⟩ := hboth
  refine ⟨fun d hd hv hlinks => ?_, r.truncs⟩
  have hfreed := r.drops d hd hv hlinks
  exact ⟨hfreed.type, hfreed.size, hfreed.addrs, hfreed.once⟩

/-- The events of a run in which a file is read, loses its link and is closed. -/
def closeRun : List (Event Unit) :=
  [.iget () (1, 1), .ilock () 0, .run (), .edit () 0 0 0 0, .run (), .iunlock () 0,
    .iput () 0, .run (), .run (), .run (), .run (), .run (), .run (), .run ()]

theorem inode_reclaimed_closeRun :
    ∃ s : State Unit, s.drops.length = 1 ∧ s.truncs.length = 2 ∧
      (∀ d ∈ s.drops, d.valided = true → d.din.nlink = 0 →
        d.din.type = 0 ∧ d.din.size = 0 ∧ (∀ j, d.din.addrs j = 0) ∧ d.frees = 1) ∧
      ∀ n ∈ s.truncs, n = 0 := by
  have hrun : (closeRun.foldlM (fun s e => if Orderly s e then step s e else none)
      (boot Unit fileDisk)).map (fun s => (s.drops.length, s.truncs.length)) = some (1, 2) := by
    decide +kernel
  obtain ⟨s, hs, hend⟩ := Option.map_eq_some_iff.1 hrun
  simp only [Prod.mk.injEq] at hend
  have hreach : Relation.ReflTransGen OrderlyStep (boot Unit fileDisk) s := by
    refine (reachable_of_foldlM closeRun hs).lift id ?_
    rintro a b ⟨e, he⟩
    exact ⟨e, Option.ite_none_right_eq_some.1 he⟩
  exact ⟨s, hend.1, hend.2, inode_reclaimed hreach⟩

/-- Two processes put the references to a file without links.  Both read 2 before either decrements. -/
def twoClosers : List (Event Bool) :=
  [.iget false (1, 1), .ilock false 0, .run false, .edit false 0 0 0 0, .run false, .iunlock false 0,
    .idup false true 0,
    .iput false 0, .run false, .run false, .run false,
    .iput true 0, .run true, .run true, .run true,
    .run false, .run true]

/-- The entry is empty, and the inode without links is still allocated on disk. -/
theorem twoClosers_leak :
    ∃ s : State Bool, Relation.ReflTransGen Step (boot Bool fileDisk) s ∧ (s.entry 0).ref = 0 ∧
      ∃ d ∈ s.drops, d.valided = true ∧ d.din.nlink = 0 ∧ d.din.type ≠ 0 ∧ d.frees = 0 := by
  have hrun : (twoClosers.foldlM step (boot Bool fileDisk)).map (fun s => ((s.entry 0).ref,
      s.drops.map fun d => (d.valided, d.din.nlink, d.din.type, d.frees))) =
      some (0, [(true, 0, T_FILE, 0)]) := by
    decide +kernel
  obtain ⟨s, hs, hend⟩ := Option.map_eq_some_iff.1 hrun
  obtain ⟨href, hdrops⟩ := Prod.mk.inj hend
  have hmem : (true, 0, T_FILE, 0) ∈ s.drops.map fun d => (d.valided, d.din.nlink, d.din.type, d.frees) := by
    rw [hdrops]
    exact List.mem_singleton.2 rfl
  obtain ⟨d, hd, heq⟩ := List.mem_map.1 hmem
  simp only [Prod.mk.injEq] at heq
  obtain ⟨hvalided, hlinks, htype, hfrees⟩ := heq
  refine ⟨s, reachable_of_foldlM twoClosers hs, href, d, hd, hvalided, hlinks, ?_, hfrees⟩
  rw [htype]
  decide

end AsoPracticas.Xv6.Icache
