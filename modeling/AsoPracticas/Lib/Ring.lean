import Mathlib.Data.List.Basic
import Mathlib.Tactic

/-!
# Ring — a queue in an array, with counters that never stop

A ring of `N` cells is used through two counters of `w` bits: the number of items taken out and the
number put in, both modulo `2 ^ w`.  The item with number `k` is in cell `k % N`.  As long as `N` divides
`2 ^ w` the cells do not notice that a counter wraps, and as long as `N < 2 ^ w` a full ring and an empty
one have different counters.
-/

namespace AsoPracticas.Lib

/-- The cells, and the counters of items taken out and put in. -/
structure Ring (α : Type*) (w N : Nat) where
  data : Fin N → α
  nread : BitVec w
  nwrite : BitVec w

namespace Ring

section Counters

variable {α : Type*} {w N : Nat} {r : Ring α w N}

def count (r : Ring α w N) : Nat := (r.nwrite - r.nread).toNat

theorem count_eq_iff {c : Nat} (hc : c < 2 ^ w) : r.count = c ↔ r.nwrite = r.nread + BitVec.ofNat w c := by
  grind [count]

theorem count_lt (r : Ring α w N) : r.count < 2 ^ w := BitVec.isLt _

theorem nwrite_eq (r : Ring α w N) : r.nwrite = r.nread + BitVec.ofNat w r.count :=
  (count_eq_iff r.count_lt).1 rfl

theorem empty_iff : r.nread = r.nwrite ↔ r.count = 0 := by
  rw [count_eq_iff (Nat.two_pow_pos w), BitVec.add_zero, eq_comm]

theorem full_iff (hN : N < 2 ^ w) : r.nwrite = r.nread + BitVec.ofNat w N ↔ r.count = N :=
  (count_eq_iff hN).symm

def pop (r : Ring α w N) : Ring α w N := { r with nread := r.nread + BitVec.ofNat w 1 }

theorem count_pop (hpos : 0 < r.count) : r.pop.count = r.count - 1 := by
  have hlt := r.count_lt
  obtain ⟨c, hc⟩ : ∃ c, r.count = c + 1 := ⟨r.count - 1, by omega⟩
  rw [hc, Nat.add_sub_cancel, count_eq_iff (by omega)]
  simp only [pop]
  rw [r.nwrite_eq, hc, Nat.add_comm c, BitVec.ofNat_add, ← BitVec.add_assoc]

def unpush (r : Ring α w N) : Ring α w N := { r with nwrite := r.nwrite - BitVec.ofNat w 1 }

theorem nwrite_unpush {c : Nat} (hc : r.count = c + 1) : r.unpush.nwrite = r.nread + BitVec.ofNat w c := by
  simp only [unpush]
  rw [r.nwrite_eq, hc, BitVec.ofNat_add, ← BitVec.add_assoc, BitVec.add_sub_cancel]

theorem count_unpush (hpos : 0 < r.count) : r.unpush.count = r.count - 1 := by
  have hlt := r.count_lt
  obtain ⟨c, hc⟩ : ∃ c, r.count = c + 1 := ⟨r.count - 1, by omega⟩
  rw [hc, Nat.add_sub_cancel, count_eq_iff (by omega)]
  exact nwrite_unpush hc

end Counters

section Queue

variable {α : Type*} {w N : Nat} [NeZero N] {r : Ring α w N} {x : α}

def contents (r : Ring α w N) : List α :=
  (List.range r.count).map fun j => r.data (Fin.ofNat N (r.nread.toNat + j))

def push (r : Ring α w N) (x : α) : Ring α w N where
  data := Function.update r.data (Fin.ofNat N r.nwrite.toNat) x
  nread := r.nread
  nwrite := r.nwrite + BitVec.ofNat w 1

def front (r : Ring α w N) : α := r.data (Fin.ofNat N r.nread.toNat)

theorem count_push (hN : N < 2 ^ w) (hlt : r.count < N) : (r.push x).count = r.count + 1 := by
  rw [count_eq_iff (by omega)]
  simp only [push]
  rw [BitVec.ofNat_add, ← BitVec.add_assoc, ← nwrite_eq]

theorem cell_add (hN : N ∣ 2 ^ w) (a : BitVec w) (j i : Nat) :
    Fin.ofNat N ((a + BitVec.ofNat w j).toNat + i) = Fin.ofNat N (a.toNat + j + i) := by
  apply Fin.ext
  simp only [Fin.ofNat, BitVec.toNat_add, BitVec.toNat_ofNat, Nat.add_mod_mod]
  rw [Nat.add_mod, Nat.mod_mod_of_dvd _ hN, ← Nat.add_mod]

theorem cell_ne {a j c : Nat} (hjc : j < c) (hc : c < N) : Fin.ofNat N (a + j) ≠ Fin.ofNat N (a + c) := by
  intro h
  have hmod : (a + j) % N = (a + c) % N := congrArg Fin.val h
  have hdvd : N ∣ (a + c) - (a + j) := Nat.dvd_of_mod_eq_zero (Nat.sub_mod_eq_zero_of_mod_eq hmod.symm)
  have hle := Nat.le_of_dvd (by omega) hdvd
  omega

theorem contents_push (hN : N ∣ 2 ^ w) (hN' : N < 2 ^ w) (hlt : r.count < N) :
    (r.push x).contents = r.contents ++ [x] := by
  have hcell : Fin.ofNat N r.nwrite.toNat = Fin.ofNat N (r.nread.toNat + r.count) := by
    rw [r.nwrite_eq]
    exact cell_add hN r.nread r.count 0
  unfold contents
  rw [count_push hN' hlt, List.range_succ, List.map_append]
  congr 1
  · apply List.map_congr_left
    intro j hj
    rw [List.mem_range] at hj
    simp only [push, hcell]
    exact Function.update_of_ne (cell_ne hj hlt) ..
  · simp only [push, hcell, List.map_cons, List.map_nil, Function.update_self]

theorem contents_pop (hN : N ∣ 2 ^ w) (hpos : 0 < r.count) : r.contents = r.front :: r.pop.contents := by
  obtain ⟨c, hc⟩ : ∃ c, r.count = c + 1 := ⟨r.count - 1, by omega⟩
  unfold contents
  rw [count_pop hpos, hc, Nat.add_sub_cancel, List.range_succ_eq_map, List.map_cons, List.map_map]
  congr 1
  apply List.map_congr_left
  intro j _
  simp only [Function.comp_apply, pop, cell_add hN]
  rw [Nat.succ_eq_one_add, Nat.add_assoc]

def back (r : Ring α w N) : α := r.data (Fin.ofNat N (r.nwrite - BitVec.ofNat w 1).toNat)

theorem contents_unpush (hN : N ∣ 2 ^ w) (hpos : 0 < r.count) : r.contents = r.unpush.contents ++ [r.back] := by
  obtain ⟨c, hc⟩ : ∃ c, r.count = c + 1 := ⟨r.count - 1, by omega⟩
  have hback : Fin.ofNat N (r.nwrite - BitVec.ofNat w 1).toNat = Fin.ofNat N (r.nread.toNat + c) := by
    rw [show r.nwrite - BitVec.ofNat w 1 = r.unpush.nwrite from rfl, nwrite_unpush hc]
    exact cell_add hN r.nread c 0
  unfold contents
  rw [count_unpush hpos, hc, Nat.add_sub_cancel, List.range_succ, List.map_append]
  congr 1
  rw [List.map_singleton, back, hback]

theorem length_contents : r.contents.length = r.count := by
  rw [contents, List.length_map, List.length_range]

end Queue

end Ring
end AsoPracticas.Lib
