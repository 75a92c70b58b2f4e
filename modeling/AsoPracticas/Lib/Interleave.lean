import Mathlib.Data.List.Basic
import Mathlib.Data.List.Induction
import Mathlib.Algebra.BigOperators.Fin
import Mathlib.Algebra.Order.BigOperators.Group.Finset
import Mathlib.Tactic

/-!
# Interleave — round-robin merging and dealing of lists

Two operations on lists, over an arbitrary element type:

* `interleave xs` reads the lists of `xs` column by column: position `0` of every list in order,
  then position `1` of every list, and so on, skipping the lists that are too short;
* `stride k i s` keeps the elements of `s` at the positions congruent to `i` modulo `k`.

They are inverse to each other: dealing a list into `k` strides and interleaving them gives the
list back (`interleave_deal`), and interleaving *balanced* lists and dealing the result gives the
lists back (`deal_interleave`).
-/

namespace AsoPracticas.Lib

variable {α : Type} {xs : List (List α)}

/-! ## Columns -/

/-- The elements at position `p`, in list order, of the lists that have one. -/
def column (xs : List (List α)) (p : Nat) : List α :=
  xs.filterMap fun x => x[p]?

def depth : List (List α) → Nat
  | [] => 0
  | x :: xs => max x.length (depth xs)

/-- The lists of `xs` read column by column. -/
def interleave (xs : List (List α)) : List α :=
  (List.range (depth xs)).flatMap (column xs)

theorem length_le_depth {x : List α} (hx : x ∈ xs) : x.length ≤ depth xs := by
  induction xs with
  | nil => simp at hx
  | cons y ys ih => grind [depth]

theorem depth_le {n : Nat} (h : ∀ x ∈ xs, x.length ≤ n) : depth xs ≤ n := by
  induction xs with
  | nil => exact Nat.zero_le n
  | cons y ys ih => grind [depth]

theorem column_eq_nil_of_depth_le {p : Nat} (h : depth xs ≤ p) : column xs p = [] := by
  refine List.filterMap_eq_nil_iff.2 ?_
  intro x hx
  exact List.getElem?_eq_none (le_trans (length_le_depth hx) h)

theorem column_map_drop (xs : List (List α)) (n p : Nat) : column (xs.map (List.drop n)) p = column xs (n + p) := by
  simp [column, List.filterMap_map]

theorem flatMap_column_eq_interleave {n : Nat} (h : depth xs ≤ n) :
    (List.range n).flatMap (column xs) = interleave xs := by
  obtain ⟨m, rfl⟩ := Nat.exists_eq_add_of_le h
  have hrest : ((List.range m).map (depth xs + ·)).flatMap (column xs) = [] := by
    refine List.flatMap_eq_nil_iff.2 ?_
    intro p hp
    obtain ⟨q, -, rfl⟩ := List.mem_map.1 hp
    exact column_eq_nil_of_depth_le (Nat.le_add_right _ _)
  rw [List.range_add, List.flatMap_append, hrest, List.append_nil]
  rfl

theorem interleave_eq_append_drop (xs : List (List α)) (n : Nat) :
    interleave xs = (List.range n).flatMap (column xs) ++ interleave (xs.map (List.drop n)) := by
  have hcols : interleave (xs.map (List.drop n)) = ((List.range (depth xs)).map (n + ·)).flatMap (column xs) := by
    have hle : depth (xs.map (List.drop n)) ≤ depth xs := by
      refine depth_le ?_
      intro y hy
      obtain ⟨x, hx, rfl⟩ := List.mem_map.1 hy
      exact le_trans (by simp) (length_le_depth hx)
    rw [← flatMap_column_eq_interleave hle, List.flatMap_map]
    exact List.flatMap_congr fun p _ => column_map_drop xs n p
  rw [hcols, ← List.flatMap_append, ← List.range_add, flatMap_column_eq_interleave (Nat.le_add_left _ _)]

theorem interleave_eq_nil (h : ∀ x ∈ xs, x = []) : interleave xs = [] := by
  have hdepth : depth xs = 0 := Nat.le_zero.1 (depth_le fun x hx => by simp [h x hx])
  simp [interleave, hdepth]

theorem column_zero_append_perm (xs : List (List α)) :
    (column xs 0 ++ (xs.map (List.drop 1)).flatten).Perm xs.flatten := by
  induction xs with
  | nil => exact .refl _
  | cons x xs ih =>
    cases x with
    | nil => simpa [column] using ih
    | cons a as =>
      have hcol : column ((a :: as) :: xs) 0 = a :: column xs 0 := by simp [column]
      simp only [hcol, List.map_cons, List.flatten_cons, List.drop_succ_cons, List.drop_zero,
        List.cons_append, List.perm_cons]
      calc (column xs 0 ++ (as ++ (xs.map (List.drop 1)).flatten)).Perm
            (as ++ (column xs 0 ++ (xs.map (List.drop 1)).flatten)) := List.perm_append_comm_assoc ..
        List.Perm _ (as ++ xs.flatten) := ih.append_left as

theorem interleave_perm_of_depth_le (n : Nat) :
    ∀ xs : List (List α), depth xs ≤ n → (interleave xs).Perm xs.flatten := by
  induction n with
  | zero =>
    intro xs h
    have hnil : ∀ x ∈ xs, x = [] := by
      intro x hx
      have := length_le_depth hx
      exact List.length_eq_zero_iff.1 (by omega)
    rw [interleave_eq_nil hnil, List.flatten_eq_nil_iff.2 hnil]
  | succ n ih =>
    intro xs h
    have hdrop : depth (xs.map (List.drop 1)) ≤ n := by
      refine depth_le ?_
      intro y hy
      obtain ⟨x, hx, rfl⟩ := List.mem_map.1 hy
      have := length_le_depth hx
      simp only [List.length_drop]
      omega
    have hcol : (List.range 1).flatMap (column xs) = column xs 0 := by simp [List.range_succ]
    rw [interleave_eq_append_drop xs 1, hcol]
    exact ((ih _ hdrop).append_left _).trans (column_zero_append_perm xs)

theorem interleave_perm (xs : List (List α)) : (interleave xs).Perm xs.flatten :=
  interleave_perm_of_depth_le (depth xs) xs (Nat.le_refl _)

theorem length_interleave (xs : List (List α)) : (interleave xs).length = (xs.map List.length).sum := by
  rw [(interleave_perm xs).length_eq, List.length_flatten]

/-- Lists that are shortened without changing the length of their interleaving are not shortened
at all. -/
theorem length_eq_of_interleave {k : Nat} {c d : Nat → List α} (hle : ∀ i < k, (d i).length ≤ (c i).length)
    (h : (interleave ((List.range k).map d)).length = (interleave ((List.range k).map c)).length) :
    ∀ i < k, (d i).length = (c i).length := by
  have hsum : ∀ (e : Nat → List α), (interleave ((List.range k).map e)).length =
      ∑ i ∈ Finset.range k, (e i).length := by
    intro e
    rw [length_interleave, List.map_map, Finset.sum_range, ← List.sum_ofFn, List.ofFn_eq_map]
    simp [Function.comp_def, ← List.map_coe_finRange_eq_range, List.map_map]
  grind [Finset.sum_eq_sum_iff_of_le]

/-! ## Strides -/

/-- The elements of `s` at the positions congruent to `i` modulo `k`, in order. -/
def stride (k i : Nat) (s : List α) : List α :=
  (s.zipIdx.filter fun p => p.2 % k = i).map Prod.fst

@[simp] theorem stride_nil (k i : Nat) : stride k i ([] : List α) = [] := rfl

theorem stride_concat (k i : Nat) (s : List α) (x : α) :
    stride k i (s ++ [x]) = stride k i s ++ if s.length % k = i then [x] else [] := by
  by_cases h : s.length % k = i
  · simp [stride, List.zipIdx_append, h]
  · simp [stride, List.zipIdx_append, h]

theorem length_stride {k i : Nat} (hi : i < k) (s : List α) : (stride k i s).length = (s.length + (k - 1 - i)) / k := by
  have hk : 0 < k := by omega
  induction s using List.reverseRecOn with
  | nil =>
    have : k - 1 - i < k := by omega
    simp [Nat.div_eq_of_lt this]
  | append_singleton s x ih =>
    rw [stride_concat, List.length_append, ih, List.length_append, List.length_singleton]
    have hsplit : s.length + 1 + (k - 1 - i) = s.length + (k - 1 - i) + 1 := by omega
    rw [hsplit, Nat.succ_div]
    have hdvd : k ∣ s.length + (k - 1 - i) + 1 ↔ s.length % k = i := by
      have hsum : s.length + (k - 1 - i) + 1 = s.length % k + (k - i) + k * (s.length / k) := by
        have := Nat.mod_add_div s.length k
        omega
      have hlt : s.length % k < k := Nat.mod_lt _ hk
      rw [hsum, Nat.dvd_add_left (Dvd.intro _ rfl)]
      constructor
      · rintro ⟨c, hc⟩
        have hc1 : c = 1 := by
          have h1 : 0 < k * c := by omega
          have h2 : k * c < k * 2 := by omega
          have := Nat.lt_of_mul_lt_mul_left h2
          have := Nat.pos_of_mul_pos_left h1
          omega
        subst hc1
        omega
      · intro h
        exact ⟨1, by omega⟩
    grind

theorem getElem?_stride {k i : Nat} (hi : i < k) (s : List α) (p : Nat) : (stride k i s)[p]? = s[p * k + i]? := by
  have hk : 0 < k := by omega
  induction s using List.reverseRecOn with
  | nil => simp
  | append_singleton s x ih =>
    have hlen := length_stride hi s
    rw [stride_concat, List.getElem?_append, List.getElem?_append, ih]
    by_cases h : s.length % k = i
    · have hs : s.length = s.length / k * k + i := by grind [Nat.mod_add_div]
      have hq : (stride k i s).length = s.length / k := by
        rw [hlen]
        have hrw : s.length + (k - 1 - i) = (k - 1) + k * (s.length / k) := by
          rw [Nat.mul_comm k]
          omega
        rw [hrw, Nat.add_mul_div_left _ _ hk, Nat.div_eq_of_lt (by omega), Nat.zero_add]
      by_cases hp : p < s.length / k
      · grind
      · have hge : s.length / k * k ≤ p * k := Nat.mul_le_mul_right k (Nat.le_of_not_lt hp)
        by_cases hpe : p = s.length / k
        · grind
        · have hlt : s.length / k * k + k ≤ p * k := by
            have : s.length / k + 1 ≤ p := by omega
            have := Nat.mul_le_mul_right k this
            rw [Nat.succ_mul] at this
            exact this
          grind
    · rw [if_neg h]
      by_cases hp : p * k + i < s.length
      · grind
      · rw [if_neg hp]
        have hne : p * k + i - s.length ≠ 0 := by grind [Nat.mul_add_mod_self_right, Nat.mod_eq_of_lt]
        grind

/-! ## Dealing and interleaving are inverse -/

/-- The `k` strides of a list. -/
def deal (k : Nat) (s : List α) : List (List α) :=
  (List.range k).map fun i => stride k i s

theorem filterMap_range_getElem? (s : List α) (k : Nat) : (List.range k).filterMap (fun i => s[i]?) = s.take k := by
  induction k with
  | zero => simp
  | succ k ih => grind [List.range_succ, List.take_add_one]

theorem column_deal (k p : Nat) (s : List α) : column (deal k s) p = (s.drop (p * k)).take k := by
  rw [← filterMap_range_getElem?, column, deal, List.filterMap_map]
  grind [List.filterMap_congr, getElem?_stride]

theorem flatMap_take_drop (k n : Nat) (s : List α) :
    (List.range n).flatMap (fun p => (s.drop (p * k)).take k) = s.take (n * k) := by
  induction n with
  | zero => simp
  | succ n ih =>
    rw [List.range_succ, List.flatMap_append, ih, List.flatMap_singleton, Nat.succ_mul, List.take_add]

theorem interleave_deal {k : Nat} (hk : 0 < k) (s : List α) : interleave (deal k s) = s := by
  have hdepth : depth (deal k s) ≤ s.length := by
    refine depth_le ?_
    grind [deal, stride, List.length_zipIdx]
  have hcols : column (deal k s) = fun p => (s.drop (p * k)).take k := funext fun p => column_deal k p s
  rw [← flatMap_column_eq_interleave hdepth, hcols, flatMap_take_drop,
    List.take_of_length_le (Nat.le_mul_of_pos_right _ hk)]

/-- Lengths as a round-robin dealer leaves them: non-increasing, and at most one apart. -/
def Balanced (xs : List (List α)) : Prop :=
  xs.Pairwise (fun x y => y.length ≤ x.length ∧ x.length ≤ y.length + 1)

theorem Balanced.map_tail (h : Balanced xs) : Balanced (xs.map (List.drop 1)) := by
  refine List.pairwise_map.2 (List.Pairwise.imp ?_ h)
  intro x y hxy
  simp only [List.length_drop]
  omega

/-- The first column of balanced lists has no gap: list `i` reaches it exactly when the column has
an element number `i`. -/
theorem Balanced.getElem?_column_zero (h : Balanced xs) :
    ∀ {i : Nat} (hi : i < xs.length), (column xs 0)[i]? = xs[i][0]? := by
  induction xs with
  | nil =>
    intro i hi
    simp at hi
  | cons x xs ih =>
    intro i hi
    obtain ⟨hx, hxs⟩ := List.pairwise_cons.1 h
    cases x with
    | nil =>
      -- an empty list is followed by empty lists only
      have hcol : column ([] :: xs) 0 = [] := by
        refine List.filterMap_eq_nil_iff.2 ?_
        grind
      grind
    | cons a as => grind [Balanced, column]

theorem Balanced.getElem?_interleave (h : Balanced xs) (p : Nat) :
    ∀ {i : Nat} (hi : i < xs.length), (interleave xs)[p * xs.length + i]? = xs[i][p]? := by
  induction p generalizing xs with
  | zero =>
    intro i hi
    rw [interleave_eq_append_drop xs 1, Nat.zero_mul, Nat.zero_add, ← h.getElem?_column_zero hi]
    have hcol : (List.range 1).flatMap (column xs) = column xs 0 := by simp [List.range_succ]
    rw [hcol, List.getElem?_append]
    by_cases hlt : i < (column xs 0).length
    · rw [if_pos hlt]
    · -- list `i` is empty, hence so are all the tails below the first column
      rw [if_neg hlt, List.getElem?_eq_none (Nat.le_of_not_lt hlt)]
      have hshort := h.getElem?_column_zero hi
      rw [List.getElem?_eq_none (Nat.le_of_not_lt hlt)] at hshort
      have hnil : xs[i].length = 0 := by
        have := List.getElem?_eq_none_iff.1 hshort.symm
        omega
      rw [interleave_eq_nil, List.getElem?_nil]
      intro y hy
      obtain ⟨x, hx, rfl⟩ := List.mem_map.1 hy
      obtain ⟨j, hj, rfl⟩ := List.mem_iff_getElem.1 hx
      have hle : xs[j].length ≤ 1 := by
        rcases Nat.lt_trichotomy j i with hji | rfl | hij
        · have := (List.pairwise_iff_getElem.1 h j i hj hi hji).2
          omega
        · omega
        · have := (List.pairwise_iff_getElem.1 h i j hi hj hij).1
          omega
      exact List.drop_eq_nil_of_le hle
  | succ p ih =>
    intro i hi
    have hcol : (List.range 1).flatMap (column xs) = column xs 0 := by simp [List.range_succ]
    rw [interleave_eq_append_drop xs 1, hcol]
    have htail := ih h.map_tail (i := i) (by simpa using hi)
    simp only [List.length_map, List.getElem_map, List.getElem?_drop] at htail
    by_cases hfull : (column xs 0).length = xs.length
    · rw [List.getElem?_append_right (by rw [hfull, Nat.succ_mul]; omega), hfull]
      have hidx : (p + 1) * xs.length + i - xs.length = p * xs.length + i := by
        rw [Nat.succ_mul]
        omega
      rw [hidx, htail, Nat.add_comm]
    · -- some list is empty, so no list has two elements
      have hlt : (column xs 0).length < xs.length := lt_of_le_of_ne (List.length_filterMap_le _ _) hfull
      have hshort := h.getElem?_column_zero hlt
      rw [List.getElem?_eq_none (Nat.le_refl _)] at hshort
      have hnil := List.getElem?_eq_none_iff.1 hshort.symm
      have hle : ∀ j (hj : j < xs.length), xs[j].length ≤ 1 := by
        intro j hj
        rcases Nat.lt_trichotomy j (column xs 0).length with hlt' | hEq | hgt
        · have := (List.pairwise_iff_getElem.1 h j _ hj hlt hlt').2
          omega
        · subst hEq
          omega
        · have := (List.pairwise_iff_getElem.1 h _ j hlt hj hgt).1
          omega
      have hrest : interleave (xs.map (List.drop 1)) = [] := by
        refine interleave_eq_nil ?_
        intro y hy
        obtain ⟨x, hx, rfl⟩ := List.mem_map.1 hy
        obtain ⟨j, hj, rfl⟩ := List.mem_iff_getElem.1 hx
        exact List.drop_eq_nil_of_le (hle j hj)
      rw [hrest, List.append_nil, List.getElem?_eq_none (by rw [Nat.succ_mul]; omega),
        List.getElem?_eq_none (by have := hle i hi; omega)]

theorem deal_interleave (h : Balanced xs) : deal xs.length (interleave xs) = xs := by
  refine List.ext_getElem (by simp [deal]) ?_
  intro i hi hi'
  simp only [deal, List.getElem_map, List.getElem_range]
  refine List.ext_getElem? ?_
  intro p
  rw [getElem?_stride hi', h.getElem?_interleave p hi']

end AsoPracticas.Lib
