import Mathlib.Data.List.Basic

/-!
# Loop — rules for bounded loops in the `Except` monad

A counted loop `for (i = 0; i < n; i++)` of a modelled program is a monadic fold over
`List.range n`.  This file gives the two rules the developments use for it: one for a loop that
always returns, and one for a loop that can fail, which decides between the two outcomes.  For any
monadic fold, `foldlM_invariant` is the rule for a loop that has returned.  `foldlM_map` and `Agree`
compare two programs step by step: the second does the images of what the first does, or the two end in
related ways.  The inversion `bind_eq_ok_iff` takes a sequence that returned apart.
-/

namespace AsoPracticas.Lib

variable {ε α β γ : Type} {x : Except ε β} {f : β → Nat → Except ε β} {y : Except ε γ}

theorem bind_eq_ok_iff {f : β → Except ε γ} {c : γ} :
    (x >>= f) = .ok c ↔ ∃ b, x = .ok b ∧ f b = .ok c := by
  cases x with
  | error e | ok b => simp [bind, Except.bind]

theorem bind_eq_error_iff {f : β → Except ε γ} {e : ε} :
    (x >>= f) = .error e ↔ x = .error e ∨ ∃ b, x = .ok b ∧ f b = .error e := by
  cases x with
  | error e' | ok b => simp [bind, Except.bind]

/-- If every iteration returns and carries `I i` to `I (i + 1)`, the loop returns in `I n`. -/
theorem foldlM_range_ok (I : Nat → β → Prop) {n : Nat}
    (hstep : ∀ i s, i < n → I i s → ∃ s', f s i = .ok s' ∧ I (i + 1) s')
    {s : β} (h0 : I 0 s) :
    ∃ s', (List.range n).foldlM f s = .ok s' ∧ I n s' := by
  induction n with
  | zero => exact ⟨s, rfl, h0⟩
  | succ n ih =>
    obtain ⟨s1, hrun, hI⟩ := ih (fun i s hi => hstep i s (Nat.lt_succ_of_lt hi))
    obtain ⟨s2, hf, hI'⟩ := hstep n s1 (Nat.lt_succ_self n) hI
    refine ⟨s2, ?_, hI'⟩
    rw [List.range_succ, List.foldlM_append, hrun]
    show List.foldlM f s1 [n] = .ok s2
    rw [List.foldlM_cons, hf]
    rfl

/-- A loop whose iterations can only fail with `e`, and do so exactly when `Good` is lost: it returns
in `I n` or fails with `e`, according to `Good n`. -/
theorem foldlM_range_cases (I : Nat → β → Prop) (Good : Nat → Prop)
    (e : ε) {n : Nat} (hmono : ∀ i < n, Good (i + 1) → Good i)
    (hstep : ∀ i s, i < n → Good i → I i s →
      (Good (i + 1) ∧ ∃ s', f s i = .ok s' ∧ I (i + 1) s') ∨ (¬ Good (i + 1) ∧ f s i = .error e))
    {s : β} (hgood : Good 0) (h0 : I 0 s) :
    (Good n ∧ ∃ s', (List.range n).foldlM f s = .ok s' ∧ I n s') ∨
      (¬ Good n ∧ (List.range n).foldlM f s = .error e) := by
  induction n with
  | zero => exact .inl ⟨hgood, s, rfl, h0⟩
  | succ n ih =>
    rw [List.range_succ, List.foldlM_append]
    rcases ih (fun i hi => hmono i (Nat.lt_succ_of_lt hi))
        (fun i s hi => hstep i s (Nat.lt_succ_of_lt hi)) with ⟨hgood', s1, hrun, hI⟩ | ⟨hbad, hrun⟩
    · rcases hstep n s1 (Nat.lt_succ_self n) hgood' hI with ⟨hg, s2, hf, hI'⟩ | ⟨hb, hf⟩
      · refine .inl ⟨hg, s2, ?_, hI'⟩
        rw [hrun]
        show List.foldlM f s1 [n] = .ok s2
        rw [List.foldlM_cons, hf]
        rfl
      · refine .inr ⟨hb, ?_⟩
        rw [hrun]
        show List.foldlM f s1 [n] = .error e
        rw [List.foldlM_cons, hf]
        rfl
    · refine .inr ⟨fun hg => hbad (hmono n (Nat.lt_succ_self n) hg), ?_⟩
      rw [hrun]
      rfl

theorem foldlM_eq_error {f : β → α → Except ε β} {xs : List α} {s : β} {e : ε}
    (h : xs.foldlM f s = .error e) : ∃ s' x, f s' x = .error e := by
  induction xs generalizing s with
  | nil =>
    cases h
  | cons x xs ih => grind [bind_eq_error_iff]

theorem foldlM_invariant {f : β → α → Except ε β} (I : β → Prop)
    (hstep : ∀ s a s', I s → f s a = .ok s' → I s') {l : List α} {s s' : β} (h : I s)
    (hrun : l.foldlM f s = .ok s') : I s' := by
  induction l generalizing s with
  | nil =>
    cases hrun
    exact h
  | cons a l ih =>
    obtain ⟨s1, hfirst, hrest⟩ := bind_eq_ok_iff.1 hrun
    exact ih (hstep s a s1 h hfirst) hrest

/-- A loop on images under `g` does the images of what another loop does, if one iteration does. -/
theorem foldlM_map (f : β → α → Except ε β) (f' : γ → α → Except ε γ) {g : β → γ}
    (hstep : ∀ s a, f' (g s) a = (f s a).map g) (l : List α) (s : β) :
    l.foldlM f' (g s) = (l.foldlM f s).map g := by
  induction l generalizing s with
  | nil => rfl
  | cons a l ih =>
    rw [List.foldlM_cons, List.foldlM_cons, hstep]
    cases f s a with
    | error e => rfl
    | ok s1 => exact ih s1

/-! ## Two runs -/

/-- Both return, with results in `R`, or both fail, in the same way. -/
def Agree (R : β → γ → Prop) : Except ε β → Except ε γ → Prop
  | .ok b, .ok c => R b c
  | .error e, .error e' => e = e'
  | _, _ => False

theorem Agree.mono {R S : β → γ → Prop} (h : Agree R x y)
    (hRS : ∀ b c, R b c → S b c) : Agree S x y := by
  cases x with
  | error e =>
    cases y with
    | error e' => exact h
    | ok c => exact h.elim
  | ok b =>
    cases y with
    | error e' => exact h.elim
    | ok c => exact hRS b c h

theorem Agree.and_eq {R : β → γ → Prop} (h : Agree R x y) :
    Agree (fun b c => R b c ∧ x = .ok b ∧ y = .ok c) x y := by
  cases x with
  | error e =>
    cases y with
    | error e' => exact h
    | ok c => exact h.elim
  | ok b =>
    cases y with
    | error e' => exact h.elim
    | ok c => exact ⟨h, rfl, rfl⟩

theorem Agree.refl {R : β → β → Prop} (hR : ∀ b, R b b) (x : Except ε β) : Agree R x x := by
  cases x with
  | error e => exact rfl
  | ok b => exact hR b

theorem Agree.eq {x y : Except ε β} (h : Agree (fun b c => b = c) x y) : x = y := by
  cases x with
  | error e =>
    cases y with
    | error e' => exact congrArg Except.error h
    | ok c => exact h.elim
  | ok b =>
    cases y with
    | error e' => exact h.elim
    | ok c => exact congrArg Except.ok h

theorem Agree.mapError {ε' : Type} {R : β → γ → Prop} (h : Agree R x y)
    (f : ε → ε') : Agree R (x.mapError f) (y.mapError f) := by
  cases x with
  | error e =>
    cases y with
    | error e' => exact congrArg f h
    | ok c => exact h.elim
  | ok b =>
    cases y with
    | error e' => exact h.elim
    | ok c => exact h

theorem Agree.bind {β' γ' : Type} {R : β → γ → Prop} {S : β' → γ' → Prop}
    {f : β → Except ε β'} {g : γ → Except ε γ'} (h : Agree R x y)
    (hfg : ∀ b c, R b c → Agree S (f b) (g c)) : Agree S (x >>= f) (y >>= g) := by
  cases x with
  | error e =>
    cases y with
    | error e' => exact h
    | ok c => exact h.elim
  | ok b =>
    cases y with
    | error e' => exact h.elim
    | ok c => exact hfg b c h

theorem agree_foldlM_range {g : γ → Nat → Except ε γ} (R : Nat → β → γ → Prop)
    {n : Nat} (hstep : ∀ i s t, i < n → R i s t → Agree (R (i + 1)) (f s i) (g t i)) {s : β} {t : γ}
    (h0 : R 0 s t) : Agree (R n) ((List.range n).foldlM f s) ((List.range n).foldlM g t) := by
  induction n with
  | zero => exact h0
  | succ n ih =>
    rw [List.range_succ, List.foldlM_append, List.foldlM_append]
    refine (ih fun i s t hi => hstep i s t (Nat.lt_succ_of_lt hi)).bind fun s1 t1 h1 => ?_
    exact (hstep n s1 t1 (Nat.lt_succ_self n) h1).bind fun _ _ h => h

end AsoPracticas.Lib
