import Mathlib.Data.List.DropRight
import Mathlib.Tactic

/-!
# Runs — maximal runs of a predicate in a list

`runs p s` is the list of the maximal blocks of consecutive elements of `s` that satisfy `p`, in
order (empty blocks stand between neighbouring elements that do not).  A scanner that reads `s` from
left to right has completed all runs but the last one, `tailRun p s`, which the next element may
still extend.
-/

namespace AsoPracticas.Lib

variable {α : Type} (p : α → Bool)

/-- The maximal runs of `p` in `s`. -/
def runs (s : List α) : List (List α) :=
  s.splitOnP fun x => !p x

/-- The run at the end of `s`. -/
def tailRun (s : List α) : List α :=
  s.rtakeWhile p

/-- The runs of `s` that no further element can extend. -/
def closedRuns (s : List α) : List (List α) :=
  (runs p s).dropLast

variable {p}

@[simp] theorem runs_nil : runs p ([] : List α) = [[]] := List.splitOnP_nil

@[simp] theorem tailRun_nil : tailRun p ([] : List α) = [] := rfl

@[simp] theorem tailRun_concat_pos (s : List α) {x : α} (hx : p x = true) : tailRun p (s ++ [x]) = tailRun p s ++ [x] :=
  List.rtakeWhile_concat_pos p s x hx

@[simp] theorem tailRun_concat_neg (s : List α) {x : α} (hx : p x = false) : tailRun p (s ++ [x]) = [] :=
  List.rtakeWhile_concat_neg p s x (by simp [hx])

theorem runs_append_cons (s t : List α) {x : α} (hx : p x = false) : runs p (s ++ x :: t) = runs p s ++ runs p t :=
  List.splitOnP_append_cons s t (by simp [hx])

theorem runs_of_all {s : List α} (h : ∀ x ∈ s, p x = true) : runs p s = [s] :=
  List.splitOnP_eq_singleton fun x hx => by simp [h x hx]

/-- A list is what precedes its last run, ending in an element outside the runs, and that run. -/
theorem eq_tailRun_or (s : List α) : s = tailRun p s ∨ ∃ t x, p x = false ∧ s = t ++ x :: tailRun p s := by
  induction s using List.reverseRecOn with
  | nil => exact .inl rfl
  | append_singleton s x ih =>
    cases hx : p x with
    | true => grind [tailRun_concat_pos]
    | false => exact .inr ⟨s, x, hx, by simp [tailRun_concat_neg s hx]⟩

theorem mem_tailRun {s : List α} {x : α} (hx : x ∈ tailRun p s) : p x = true := List.mem_rtakeWhile_imp hx

theorem runs_append_of_all (s : List α) {t : List α} (h : ∀ x ∈ t, p x = true) :
    runs p (s ++ t) = closedRuns p s ++ [tailRun p s ++ t] := by
  have hall : ∀ x ∈ tailRun p s ++ t, p x = true := by grind [mem_tailRun]
  have hself : ∀ x ∈ tailRun p s, p x = true := fun x hx => mem_tailRun hx
  rcases eq_tailRun_or (p := p) s with hs | ⟨u, y, hy, hs⟩
  · grind [closedRuns, runs_of_all]
  · have hclosed : closedRuns p s = runs p u := by
      rw [closedRuns, hs, runs_append_cons u _ hy, runs_of_all hself]
      simp
    rw [hclosed]
    conv_lhs => rw [hs]
    rw [List.append_assoc, List.cons_append, runs_append_cons u _ hy, runs_of_all hall]

theorem runs_eq_closedRuns (s : List α) : runs p s = closedRuns p s ++ [tailRun p s] := by
  simpa using runs_append_of_all s (t := []) (by simp)

theorem closedRuns_concat_pos (s : List α) {x : α} (hx : p x = true) : closedRuns p (s ++ [x]) = closedRuns p s := by
  rw [closedRuns, runs_append_of_all s (by simpa using hx)]
  simp

theorem closedRuns_concat_neg (s : List α) {x : α} (hx : p x = false) :
    closedRuns p (s ++ [x]) = closedRuns p s ++ [tailRun p s] := by
  rw [closedRuns, runs_append_cons s [] hx, runs_nil, runs_eq_closedRuns s]
  simp

theorem length_le_of_mem_runs {s r : List α} (hr : r ∈ runs p s) : r.length ≤ s.length := by
  induction s using List.reverseRecOn generalizing r with
  | nil =>
    simp at hr
    simp [hr]
  | append_singleton s x ih =>
    grind [runs_append_of_all, runs_eq_closedRuns, runs_append_cons, runs_nil]

end AsoPracticas.Lib
