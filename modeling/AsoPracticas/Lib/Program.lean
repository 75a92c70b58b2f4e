import Mathlib.Tactic

/-!
# Program — rules for programs that change a state and can stop

A program over states `σ` is a `StateT σ (Except ε)`: it returns a value and a new state, or stops with
an `ε` from which nothing recovers.  `Ensures m s Q E` says what holds if `m` is run from `s`: a result
and a state in `Q`, or a stop in `E`.  With `E` always false this is total correctness; with `E` always
true it is partial correctness.
-/

namespace AsoPracticas.Lib

variable {σ ε α β : Type}

/-- Run from `s`, the program returns in `Q` or stops in `E`. -/
def Ensures (m : StateT σ (Except ε) α) (s : σ) (Q : α → σ → Prop) (E : ε → Prop) : Prop :=
  match m s with
  | .ok (a, s') => Q a s'
  | .error e => E e

variable {s : σ} {Q R : α → σ → Prop} {E F : ε → Prop} {m : StateT σ (Except ε) α} {f : β → StateT σ (Except ε) α}

theorem Ensures.mono (h : Ensures m s R E)
    (hQ : ∀ a s', R a s' → Q a s') : Ensures m s Q E := by
  unfold Ensures at *
  grind

theorem Ensures.mono_stop (h : Ensures m s Q E)
    (hE : ∀ e, E e → F e) : Ensures m s Q F := by
  unfold Ensures at *
  grind

theorem ensures_true (m : StateT σ (Except ε) α) (s : σ) : Ensures m s (fun _ _ => True) fun _ => True := by
  unfold Ensures
  split <;> trivial

theorem ensures_pure {a : α} : Ensures (pure a : StateT σ (Except ε) α) s Q E ↔ Q a s := Iff.rfl

theorem ensures_get {Q : σ → σ → Prop} : Ensures (get : StateT σ (Except ε) σ) s Q E ↔ Q s s := Iff.rfl

theorem ensures_modify {f : σ → σ} {Q : PUnit → σ → Prop} :
    Ensures (modify f : StateT σ (Except ε) PUnit) s Q E ↔ Q ⟨⟩ (f s) :=
  Iff.rfl

theorem ensures_bind {m : StateT σ (Except ε) β} :
    Ensures (m >>= f) s Q E ↔ Ensures m s (fun b s' => Ensures (f b) s' Q E) E := by
  unfold Ensures
  simp only [bind, StateT.bind, Except.bind]
  cases m s <;> rfl

theorem Ensures.bind {m : StateT σ (Except ε) β}
    {R : β → σ → Prop} (hm : Ensures m s R E)
    (hf : ∀ b s', R b s' → Ensures (f b) s' Q E) : Ensures (m >>= f) s Q E :=
  ensures_bind.2 (hm.mono hf)

theorem ensures_bind_of_ok {m : StateT σ (Except ε) β} {b : β} {s' : σ}
    (hrun : m s = .ok (b, s')) : Ensures (m >>= f) s Q E ↔ Ensures (f b) s' Q E := by
  rw [ensures_bind, Ensures, hrun]

theorem ensures_false_iff :
    Ensures m s Q (fun _ => False) ↔ ∃ a s', m s = .ok (a, s') ∧ Q a s' := by
  unfold Ensures
  split
  · rename_i hrun
    simp [hrun]
  · rename_i hrun
    simp [hrun]

theorem ensures_stop_iff :
    Ensures m s (fun _ _ => False) E ↔ ∃ e, m s = .error e ∧ E e := by
  unfold Ensures
  split
  · rename_i hrun
    simp [hrun]
  · rename_i hrun
    simp [hrun]

theorem Ensures.of_ok (h : Ensures m s Q E) {a : α} {s' : σ}
    (hrun : m s = .ok (a, s')) : Q a s' := by
  unfold Ensures at h
  rwa [hrun] at h

theorem Ensures.of_error (h : Ensures m s Q E) {e : ε} (hrun : m s = .error e) : E e := by
  unfold Ensures at h
  rwa [hrun] at h

def stop (m : StateT σ (Except ε) α) (s : σ) : Option ε :=
  match m s with
  | .ok _ => none
  | .error e => some e

theorem stop_eq_some_iff {e : ε} : stop m s = some e ↔ m s = .error e := by
  unfold stop
  split
  · rename_i hrun
    simp [hrun]
  · rename_i hrun
    simp [hrun]

/-- What every pass through a loop preserves, the loop preserves. -/
theorem ensures_forM {γ : Type} {f : γ → StateT σ (Except ε) PUnit} (I : σ → Prop) {l : List γ}
    (hstep : ∀ x ∈ l, ∀ s, I s → Ensures (f x) s (fun _ s' => I s') E) (h : I s) :
    Ensures (l.forM f) s (fun _ s' => I s') E := by
  induction l generalizing s with
  | nil => exact h
  | cons x l ih =>
    refine (hstep x List.mem_cons_self s h).bind fun _ s1 h1 => ?_
    exact ih (fun y hy => hstep y (List.mem_cons_of_mem x hy)) h1

theorem ensures_forM_range {f : ℕ → StateT σ (Except ε) PUnit} (I : ℕ → σ → Prop) {n : ℕ}
    (hstep : ∀ i < n, ∀ s, I i s → Ensures (f i) s (fun _ s' => I (i + 1) s') E) (h0 : I 0 s) :
    Ensures ((List.range n).forM f) s (fun _ s' => I n s') E := by
  -- the iterations from `i` on, by induction on how many are left
  have key : ∀ k i s, i + k = n → I i s → Ensures ((List.range' i k).forM f) s (fun _ s' => I n s') E := by
    intro k
    induction k with
    | zero =>
      intro i s hi hI
      rw [Nat.add_zero] at hi
      subst hi
      exact hI
    | succ k ih =>
      intro i s hi hI
      apply (hstep i (by omega) s hI).bind
      intro _ s' hI'
      exact ih (i + 1) s' (by omega) hI'
  rw [List.range_eq_range']
  exact key n 0 s (by omega) h0

end AsoPracticas.Lib
