import Mathlib.Data.List.Nodup
import Mathlib.Logic.Function.Basic
import Mathlib.Tactic

/-!
# Chain — null-terminated lists

A list of nodes is kept through a `head` pointer and a `next` pointer in each node.  A pointer to a pointer is `none`
for the address of `head` and `some b` for that of the `next` of `b`.
-/

namespace AsoPracticas.Lib

variable {ν : Type*}

structure Chain (ν : Type*) where
  head : Option ν
  next : ν → Option ν

namespace Chain

/-- `*pp` -/
def deref (k : Chain ν) : Option ν → Option ν
  | none => k.head
  | some b => k.next b

/-- `for(pp = …; *pp; pp = &(*pp)->next);`, `none` if it has not come to an end after that many rounds. -/
def last (k : Chain ν) : Nat → Option ν → Option (Option ν)
  | 0, _ => none
  | n + 1, pp =>
    match k.deref pp with
    | none => some pp
    | some b => k.last n (some b)

/-- `head = head->next` -/
def pop (k : Chain ν) : Chain ν := { k with head := k.head.bind k.next }

/-- What follows `pp` is the list. -/
def Holds (k : Chain ν) : Option ν → List ν → Prop
  | pp, [] => k.deref pp = none
  | pp, b :: l => k.deref pp = some b ∧ k.Holds (some b) l

section Push

variable [DecidableEq ν]

/-- `*pp = x` -/
def set (k : Chain ν) (pp x : Option ν) : Chain ν :=
  match pp with
  | none => { k with head := x }
  | some b => { k with next := Function.update k.next b x }

/-- `b->next = 0`, and `b` comes after the last node. -/
def push (k : Chain ν) (fuel : Nat) (b : ν) : Option (Chain ν) :=
  let k := k.set (some b) none
  (k.last fuel none).map fun pp => k.set pp (some b)

end Push

variable {k k' : Chain ν} {pp : Option ν} {b : ν} {l : List ν}

theorem Holds.head_eq (h : k.Holds none l) : k.head = l.head? := by
  cases l with
  | nil => exact h
  | cons b l => exact h.1

theorem Holds.congr (h : k.Holds pp l) (hpp : k'.deref pp = k.deref pp) (hl : ∀ b ∈ l, k'.next b = k.next b) :
    k'.Holds pp l := by
  induction l generalizing pp with
  | nil => exact hpp.trans h
  | cons b l ih =>
    refine ⟨hpp.trans h.1, ih h.2 (hl b List.mem_cons_self) fun c hc => hl c (List.mem_cons_of_mem b hc)⟩

theorem Holds.pop (h : k.Holds none (b :: l)) : k.pop.Holds none l := by
  have hrest : k.pop.Holds (some b) l := h.2.congr rfl fun _ _ => rfl
  have hhead : k.pop.deref none = k.pop.deref (some b) := by
    change k.head.bind k.next = k.next b
    rw [show k.head = some b from h.1, Option.bind_some]
  cases l with
  | nil => exact hhead.trans hrest
  | cons c l => exact ⟨hhead.trans hrest.1, hrest.2⟩

theorem Holds.last {fuel : Nat} (h : k.Holds pp l) (hfuel : l.length < fuel) :
    k.last fuel pp = some ((pp :: l.map some).getLast (List.cons_ne_nil _ _)) := by
  induction l generalizing pp fuel with
  | nil =>
    obtain ⟨n, rfl⟩ := Nat.exists_eq_succ_of_ne_zero (Nat.ne_of_gt hfuel)
    rw [Chain.last, show k.deref pp = none from h]
    rfl
  | cons b l ih =>
    obtain ⟨n, rfl⟩ := Nat.exists_eq_succ_of_ne_zero (Nat.ne_of_gt (Nat.zero_lt_of_lt hfuel))
    rw [Chain.last, h.1]
    exact ih h.2 (Nat.lt_of_succ_lt_succ hfuel)

section Append

variable [DecidableEq ν]

theorem deref_set (k : Chain ν) (pp qq x : Option ν) : (k.set pp x).deref qq = if qq = pp then x else k.deref qq := by
  cases pp with
  | none =>
    cases qq with
    | none => rfl
    | some c => rfl
  | some b =>
    cases qq with
    | none => rfl
    | some c =>
      change Function.update k.next b x c = _
      rw [Function.update_apply]
      simp only [Option.some.injEq]
      rfl

theorem Holds.concat (h : k.Holds pp l) (hnodup : (pp :: l.map some).Nodup) (hb : some b ∉ pp :: l.map some)
    (hnull : k.next b = none) :
    (k.set ((pp :: l.map some).getLast (List.cons_ne_nil _ _)) (some b)).Holds pp (l ++ [b]) := by
  induction l generalizing pp with
  | nil =>
    have hne : some b ≠ pp := fun heq => hb (List.mem_singleton.2 heq)
    refine ⟨?_, ?_⟩
    · exact (deref_set k pp pp (some b)).trans (if_pos rfl)
    · exact (deref_set k pp (some b) (some b)).trans ((if_neg hne).trans hnull)
  | cons c l ih =>
    obtain ⟨hpp, hrest⟩ := List.nodup_cons.1 hnodup
    refine ⟨?_, ih h.2 hrest fun hmem => hb (List.mem_cons_of_mem pp hmem)⟩
    have hlast : pp ≠ (some c :: l.map some).getLast (List.cons_ne_nil _ _) :=
      fun heq => hpp (heq ▸ List.getLast_mem _)
    rw [deref_set]
    exact (if_neg hlast).trans h.1

theorem Holds.push {fuel : Nat} (h : k.Holds none l) (hnodup : l.Nodup) (hb : b ∉ l) (hfuel : l.length < fuel) :
    ∃ k', k.push fuel b = some k' ∧ k'.Holds none (l ++ [b]) := by
  have hmem : some b ∉ none :: l.map some := by grind
  have hnodup' : (none :: l.map some).Nodup := by grind
  have hclear : (k.set (some b) none).Holds none l := by
    refine h.congr rfl fun c hc => ?_
    have hne : c ≠ b := fun heq => hb (heq ▸ hc)
    exact Function.update_of_ne hne _ _
  refine ⟨_, ?_, hclear.concat hnodup' hmem (Function.update_self ..)⟩
  rw [Chain.push, hclear.last hfuel]
  rfl

end Append

end Chain
end AsoPracticas.Lib
