import Mathlib.Logic.ExistsUnique
import Mathlib.Tactic

/-!
# Ownership — items that are each held by at most one slot

An allocator hands out items, and the structures built from them keep each item in a slot.  The books
are right, `Exclusive own used`, if no item is in two slots and the items in use are those in slots.
Taking an unused item into an empty slot and giving back the item of a slot keep them right.
-/

namespace AsoPracticas.Lib

variable {σ β : Type*}

/-- No item is in two slots, and exactly the items in slots are in use. -/
@[grind cases eager]
structure Exclusive (own : σ → Option β) (used : β → Prop) : Prop where
  unique : ∀ {s t b}, own s = some b → own t = some b → s = t
  used_iff : ∀ b, used b ↔ ∃ s, own s = some b

variable {own own' : σ → Option β} {used used' : β → Prop} {s : σ} {b : β}

theorem Exclusive.used_of_own (h : Exclusive own used) (hs : own s = some b) : used b :=
  (h.used_iff b).2 ⟨s, hs⟩

theorem Exclusive.take (h : Exclusive own used) (hs : own s = none) (hb : ¬ used b)
    (hs' : own' s = some b) (hother : ∀ t, t ≠ s → own' t = own t)
    (hused : ∀ c, used' c ↔ c = b ∨ used c) : Exclusive own' used' := by
  have hcases : ∀ t c, own' t = some c ↔ (t = s ∧ c = b) ∨ own t = some c := by grind
  constructor
  all_goals grind

theorem Exclusive.give (h : Exclusive own used) (hs : own s = some b)
    (hs' : own' s = none) (hother : ∀ t, t ≠ s → own' t = own t)
    (hused : ∀ c, used' c ↔ c ≠ b ∧ used c) : Exclusive own' used' := by
  have hcases : ∀ t c, own' t = some c ↔ t ≠ s ∧ own t = some c := by grind
  constructor
  all_goals grind

end AsoPracticas.Lib
