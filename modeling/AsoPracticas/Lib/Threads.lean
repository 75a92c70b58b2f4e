import Mathlib.Algebra.BigOperators.Fin
import Mathlib.Algebra.Order.BigOperators.Group.Finset
import Mathlib.Logic.Function.Basic
import Mathlib.Tactic.Ring

/-!
# Threads — locks and counters of systems with any number of threads

The threads of a system are indexed by `ι` and `pc t` is the point of its program where thread `t` is.
A step moves one thread (`Function.update`) or changes the points of all threads in the same way
(`g ∘ pc`).

* `Owned f lock pc` — the lock is held by exactly the thread at a point marked by `f`;
* `Total w pc n` — the weights of the points where the threads are add up to `n`.
-/

namespace AsoPracticas.Lib

variable {ι κ : Type*} {pc : ι → κ} {w : κ → ℕ} {f : κ → Bool} {lock : Option ι}

/-- The thread that holds the lock is the one at a point marked by `f`. -/
def Owned (f : κ → Bool) (lock : Option ι) (pc : ι → κ) : Prop :=
  ∀ t, f (pc t) = true ↔ lock = some t

/-- Finitely many threads are at a point of non-zero weight, and their weights add up to `n`. -/
def Total (w : κ → ℕ) (pc : ι → κ) (n : ℕ) : Prop :=
  ∃ A : Finset ι, (∀ t, t ∉ A → w (pc t) = 0) ∧ ∑ t ∈ A, w (pc t) = n

/-! ## All threads -/

theorem Owned.comp (h : Owned f lock pc)
    {g : κ → κ} (hg : ∀ c, f (g c) = f c) : Owned f lock (g ∘ pc) := by
  intro t
  simpa [hg] using h t

theorem Total.comp {n : ℕ} (h : Total w pc n)
    {g : κ → κ} (hg : ∀ c, w (g c) = w c) : Total w (g ∘ pc) n := by
  simpa [Total, hg] using h

theorem Total.congr {pc pc' : ι → κ} {n : ℕ} (h : Total w pc n)
    (hw : ∀ t, w (pc' t) = w (pc t)) : Total w pc' n := by
  simpa [Total, hw] using h

theorem Owned.unique (h : Owned f lock pc)
    {t u : ι} (ht : f (pc t) = true) (hu : f (pc u) = true) : t = u := by
  have hlock := ((h t).1 ht).symm.trans ((h u).1 hu)
  exact Option.some.inj hlock

theorem Total.zero (w : κ → ℕ) (h : ∀ t, w (pc t) = 0) : Total w pc 0 := ⟨∅, fun t _ => h t, rfl⟩

theorem Total.le {n : ℕ} (h : Total w pc n) (t : ι) : w (pc t) ≤ n := by
  obtain ⟨A, hout, rfl⟩ := h
  by_cases ht : t ∈ A
  · exact Finset.single_le_sum (f := fun t => w (pc t)) (fun _ _ => Nat.zero_le _) ht
  · simp [hout t ht]

/-- The threads at points marked by `f`, counted. -/
theorem Total.card {n : ℕ} (h : Total (fun c => (f c).toNat) pc n) :
    ∃ A : Finset ι, (∀ t, t ∈ A ↔ f (pc t) = true) ∧ A.card = n := by
  obtain ⟨A, hout, rfl⟩ := h
  refine ⟨A.filter fun t => f (pc t) = true, fun t => ?_, ?_⟩
  · rw [Finset.mem_filter, and_iff_right_iff_imp]
    intro ht
    by_contra hA
    simpa [ht] using hout t hA
  · rw [Finset.card_filter]
    exact Finset.sum_congr rfl fun t _ => by cases h : f (pc t) <;> simp [h]

theorem Total.exists_ne {n : ℕ} (h : Total w pc n) {t : ι}
    (hlt : w (pc t) < n) : ∃ u ≠ t, 0 < w (pc u) := by
  obtain ⟨A, hout, rfl⟩ := h
  by_contra hnone
  have hzero : ∀ u ∈ A, u ≠ t → w (pc u) = 0 := by grind
  rw [Finset.sum_eq_single t hzero (hout t)] at hlt
  exact absurd hlt (lt_irrefl _)

/-! ## One thread moves -/

variable [DecidableEq ι]

theorem Total.add_le {n : ℕ} (h : Total w pc n) {t u : ι} (hne : t ≠ u) :
    w (pc t) + w (pc u) ≤ n := by
  obtain ⟨A, hout, rfl⟩ := h
  by_cases ht : t ∈ A
  · by_cases hu : u ∈ A
    · exact Finset.add_le_sum (f := fun t => w (pc t)) (fun _ _ => Nat.zero_le _) ht hu hne
    · rw [hout u hu, Nat.add_zero]
      exact Total.le ⟨A, hout, rfl⟩ t
  · rw [hout t ht, Nat.zero_add]
    exact Total.le ⟨A, hout, rfl⟩ u

theorem Owned.goto (h : Owned f lock pc)
    {t : ι} {c0 c : κ} (ht : pc t = c0) (hc : f c = f c0) :
    Owned f lock (Function.update pc t c) := by
  intro u
  by_cases hu : u = t
  · subst hu
    simpa [hc, ht] using h u
  · simpa [hu] using h u

theorem Owned.acquire (h : Owned f none pc)
    {t : ι} {c : κ} (hc : f c = true) : Owned f (some t) (Function.update pc t c) := by
  intro u
  by_cases hu : u = t
  · simp [hu, hc]
  · simpa [hu, Ne.symm hu] using h u

theorem Owned.release (h : Owned f lock pc)
    {t : ι} {c0 c : κ} (ht : pc t = c0) (hc0 : f c0 = true) (hc : f c = false) :
    Owned f none (Function.update pc t c) := by
  intro u
  by_cases hu : u = t
  all_goals grind [Owned]

theorem Total.goto {n n' : ℕ} (h : Total w pc n)
    {t : ι} {c0 c : κ} (ht : pc t = c0) (hn : n' + w c0 = n + w c) :
    Total w (Function.update pc t c) n' := by
  obtain ⟨A, hout, hsum⟩ := h
  -- the same threads, with `t` among them
  have hrest : ∑ u ∈ A.erase t, w (Function.update pc t c u) = ∑ u ∈ A.erase t, w (pc u) := by
    grind [Finset.sum_congr]
  have hold : ∑ u ∈ A.erase t, w (pc u) + w (pc t) = n := by
    by_cases ht : t ∈ A
    · rw [Finset.sum_erase_add _ _ ht, hsum]
    · rw [Finset.erase_eq_of_notMem ht, hout t ht, hsum, Nat.add_zero]
  refine ⟨insert t (A.erase t), ?_, ?_⟩
  all_goals grind

theorem Total.le_mul {w v : κ → ℕ} {k : ℕ} {n m : ℕ} (hw : Total w pc n)
    (hv : Total v pc m) (hwv : ∀ c, w c ≤ k * v c) : n ≤ k * m := by
  obtain ⟨A, -, rfl⟩ := hw
  obtain ⟨B, hB, rfl⟩ := hv
  calc
    ∑ t ∈ A, w (pc t) ≤ ∑ t ∈ A, k * v (pc t) := Finset.sum_le_sum fun t _ => hwv (pc t)
    _ ≤ ∑ t ∈ A ∪ B, k * v (pc t) := Finset.sum_le_sum_of_subset Finset.subset_union_left
    _ = ∑ t ∈ B, k * v (pc t) := by
          symm
          apply Finset.sum_subset Finset.subset_union_right
          intro t _ ht
          rw [hB t ht, Nat.mul_zero]
    _ = k * ∑ t ∈ B, v (pc t) := (Finset.mul_sum ..).symm

theorem sum_update [Fintype ι] (g : κ → ℤ) (t : ι → κ) (i : ι) (x : κ) :
    ∑ j, g (Function.update t i x j) = ∑ j, g (t j) + (g x - g (t i)) := by
  have hnew := Finset.add_sum_erase Finset.univ (fun j => g (Function.update t i x j)) (Finset.mem_univ i)
  have hold := Finset.add_sum_erase Finset.univ (fun j => g (t j)) (Finset.mem_univ i)
  grind [Finset.sum_congr]

end AsoPracticas.Lib
