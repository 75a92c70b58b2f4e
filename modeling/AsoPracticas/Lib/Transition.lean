import Mathlib.Data.List.Induction
import Mathlib.Logic.Relation

/-!
# Transition — invariants of step relations

A system is a relation `Step` between states; its runs are `Relation.ReflTransGen Step`.  Where the
steps are those of a function of events, a list of events is a run, and `Trace` has the runs whose
events all happen as they should.
-/

namespace AsoPracticas.Lib

variable {α : Type*} {Step : α → α → Prop}

theorem invariant_of_reachable (Inv : α → Prop) {s0 s : α} (hinit : Inv s0)
    (hstep : ∀ s s', Inv s → Step s s' → Inv s') (hreach : Relation.ReflTransGen Step s0 s) :
    Inv s := by
  induction hreach with
  | refl => exact hinit
  | tail _ hlast ih => exact hstep _ _ ih hlast

/-- A run of events that are steps of `R` reaches its end through `R`. -/
theorem reachable_of_forall {ε : Type*} {next : α → ε → Option α} {R : α → α → Prop} {s s' : α} (es : List ε)
    (hstep : ∀ e ∈ es, ∀ t t', next t e = some t' → R t t') (h : es.foldlM next s = some s') :
    Relation.ReflTransGen R s s' := by
  induction es generalizing s with
  | nil =>
    obtain rfl := Option.some.inj h
    exact .refl
  | cons e es ih =>
    rw [List.foldlM_cons, Option.bind_eq_bind, Option.bind_eq_some_iff] at h
    obtain ⟨t, hfirst, hrest⟩ := h
    exact .head (hstep e List.mem_cons_self s t hfirst)
      (ih (fun e he => hstep e (List.mem_cons_of_mem _ he)) hrest)

theorem reachable_of_foldlM {ε : Type*} {next : α → ε → Option α} {s s' : α} (es : List ε)
    (h : es.foldlM next s = some s') :
    Relation.ReflTransGen (fun s s' => ∃ e, next s e = some s') s s' :=
  reachable_of_forall es (fun e _ _ _ he => ⟨e, he⟩) h

/-- The events of a run from `s0`, each `Good` in the state where it happens. -/
inductive Trace {ε : Type*} (next : α → ε → Option α) (Good : α → ε → Prop) (s0 : α) : List ε → α → Prop where
  | nil : Trace next Good s0 [] s0
  | snoc {es : List ε} {e : ε} {s s' : α} (hrun : Trace next Good s0 es s) (hgood : Good s e)
      (hnext : next s e = some s') : Trace next Good s0 (es ++ [e]) s'

namespace Trace

variable {ε : Type*} {next : α → ε → Option α} {Good : α → ε → Prop} {s0 s : α} {es : List ε}

theorem foldlM_eq (h : Trace next Good s0 es s) : es.foldlM next s0 = some s := by
  induction h with
  | nil => rfl
  | snoc _ _ hnext ih =>
    rw [List.foldlM_append, ih, Option.bind_eq_bind, Option.bind_some, List.foldlM_cons, hnext]
    rfl

theorem reachable (h : Trace next Good s0 es s) : Relation.ReflTransGen (fun s s' => ∃ e, next s e = some s') s0 s :=
  reachable_of_foldlM es h.foldlM_eq

theorem of_foldlM {check : α → ε → Bool} (hcheck : ∀ s e, check s e = true → Good s e)
    (h : es.foldlM (fun s e => if check s e then next s e else none) s0 = some s) : Trace next Good s0 es s := by
  induction es using List.reverseRecOn generalizing s with
  | nil =>
    obtain rfl := Option.some.inj h
    exact .nil
  | append_singleton es e ih =>
    rw [List.foldlM_append, Option.bind_eq_bind, Option.bind_eq_some_iff] at h
    obtain ⟨t, hrun, hlast⟩ := h
    simp only [List.foldlM_cons, List.foldlM_nil, bind_pure] at hlast
    split at hlast
    · rename_i hgood
      exact .snoc (ih hrun) (hcheck t e hgood) hlast
    · cases hlast

end Trace

end AsoPracticas.Lib
