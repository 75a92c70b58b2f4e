import AsoPracticas.Lib.Transition
import Mathlib.Logic.Function.Basic
import Mathlib.Tactic

/-!
# Concurrent — processes that run programs over a shared state

A program is a tree of atomic actions (`Prog`).  A `Kit` says what an action does to the shared state,
and which programs a process starts: its calls, one after the other, each with what the process keeps
between calls (its `home`).  A `Logic` adds an invariant of the shared state together with what each
process knows (`Inv`), a condition that the steps of a run meet (`Guard`), and what has to hold before an
action (`Safe`).

* `Logic.wp` — what a process has to know so that all its actions are safe and keep the invariant, and
  a result is in `Q`;
* `Logic.Verified.of_run` — if every call is verified on its own, every state of every run is.
-/

namespace AsoPracticas.Lib

/-! ## Programs -/

/-- A program: an action and what follows for each of its results, or a value. -/
inductive Prog {A : Type} (Res : A → Type) (α : Type) : Type where
  | ret (x : α)
  | act (a : A) (k : Res a → Prog Res α)

namespace Prog

variable {A α β γ : Type} {Res : A → Type}

def bind : Prog Res α → (α → Prog Res β) → Prog Res β
  | ret x, f => f x
  | act a k, f => act a fun r => (k r).bind f

instance : Monad (Prog Res) where
  pure := ret
  bind := bind

/-- The program of one action. -/
def perform (a : A) : Prog Res (Res a) := act a ret

/-- The action a program is about to make. -/
def next : Prog Res α → Option A
  | ret _ => none
  | act a _ => some a

end Prog

/-! ## Processes -/

/-- The programs of a system: what an action of process `p` does, or that it cannot be made now; the
program of a call; and what a process has between calls. -/
structure Kit (P A S H C O : Type) (Res : A → Type) where
  run : (a : A) → P → S → Option (Res a × S)
  body : H → C → Option (Prog Res O)
  finish : H → O → H

variable {P A S H C O Λ α β : Type} {Res : A → Type}

/-- The shared state, what each process has, and the rest of the program that it runs. -/
structure Config (P S H O : Type) {A : Type} (Res : A → Type) where
  shared : S
  home : P → H
  prog : P → Option (Prog Res O)

/-- What can happen: a process makes a call, takes the next action of its program, or returns from it. -/
inductive Move (P C : Type) where
  | call (p : P) (c : C)
  | act (p : P)
  | back (p : P)
  deriving Repr

namespace Kit

variable (K : Kit P A S H C O Res) [DecidableEq P]

def step (c : Config P S H O Res) : Move P C → Option (Config P S H O Res)
  | .call p call =>
    match c.prog p with
    | none => (K.body (c.home p) call).map fun m => { c with prog := Function.update c.prog p (some m) }
    | some _ => none
  | .act p =>
    match c.prog p with
    | some (.act a k) =>
      (K.run a p c.shared).map fun rs =>
        { c with shared := rs.2, prog := Function.update c.prog p (some (k rs.1)) }
    | _ => none
  | .back p =>
    match c.prog p with
    | some (.ret o) =>
      some { c with
        home := Function.update c.home p (K.finish (c.home p) o)
        prog := Function.update c.prog p none }
    | _ => none

end Kit

/-- The action that process `p` is about to take. -/
def Config.next (c : Config P S H O Res) (p : P) : Option A := (c.prog p).bind Prog.next

/-! ## Verification of one process at a time -/

/-- An invariant of the shared state and what the processes know, a condition on actions, and what has
to hold whenever a process is about to take an action. -/
structure Logic (P A S Λ : Type) where
  Inv : S → (P → Λ) → Prop
  Guard : S → P → A → Prop
  Safe : S → P → A → Prop

namespace Logic

variable (T : Logic P A S Λ) [DecidableEq P] (run : (a : A) → P → S → Option (Res a × S))

/-- Process `p` knows enough to run the program whatever the other processes do: each action is safe,
and if the guard lets it be taken the invariant holds again for something that `p` then knows. -/
def wp (p : P) : Prog Res α → (α → Λ → Prop) → Λ → Prop
  | .ret x, Q, l => Q x l
  | .act a k, Q, l => ∀ s L, T.Inv s L → L p = l →
      T.Safe s p a ∧ ∀ r s', T.Guard s p a → run a p s = some (r, s') →
        ∃ l', T.Inv s' (Function.update L p l') ∧ wp p (k r) Q l'

variable {T run} {p : P} {l : Λ}

theorem wp_ret {x : α} {Q : α → Λ → Prop} : T.wp run p (pure x : Prog Res α) Q l ↔ Q x l := Iff.rfl

theorem wp_mono {m : Prog Res α} {Q R : α → Λ → Prop} (h : T.wp run p m R l)
    (hQ : ∀ x l', R x l' → Q x l') : T.wp run p m Q l := by
  induction m generalizing l with
  | ret x => exact hQ x l h
  | act a k ih => grind [wp]

theorem wp_bind {m : Prog Res α} {f : α → Prog Res β} {R : α → Λ → Prop} {Q : β → Λ → Prop}
    (hm : T.wp run p m R l) (hf : ∀ x l', R x l' → T.wp run p (f x) Q l') :
    T.wp run p (m >>= f) Q l := by
  induction m generalizing l with
  | ret x => exact hf x l hm
  | act a k ih =>
    intro s L hinv hl
    obtain ⟨hsafe, hstep⟩ := hm s L hinv hl
    refine ⟨hsafe, fun r s' hguard hrun => ?_⟩
    obtain ⟨l', hinv', hrest⟩ := hstep r s' hguard hrun
    exact ⟨l', hinv', ih r hrest⟩

/-- `wp_bind`, after a program that leaves it known what `p` knows. -/
theorem wp_then {m : Prog Res α} {f : α → Prog Res β} {g : α → Λ} {Q : β → Λ → Prop}
    (hm : T.wp run p m (fun x l' => l' = g x) l) (hf : ∀ x, T.wp run p (f x) Q (g x)) :
    T.wp run p (m >>= f) Q l := by
  refine wp_bind hm ?_
  rintro x _ rfl
  exact hf x

theorem wp_perform {a : A} {Q : Res a → Λ → Prop}
    (h : ∀ s L, T.Inv s L → L p = l → T.Safe s p a ∧ ∀ r s', T.Guard s p a →
      run a p s = some (r, s') → ∃ l', T.Inv s' (Function.update L p l') ∧ Q r l') :
    T.wp run p (Prog.perform a) Q l :=
  h

/-! ## All processes -/

variable (T) (K : Kit P A S H C O Res)

/-- The invariant holds for what the processes know, and each of them knows enough for the rest of its
program.  Between calls a process knows `rest` of what it has. -/
def Verified (rest : H → Λ) (c : Config P S H O Res) : Prop :=
  ∃ L : P → Λ, T.Inv c.shared L ∧ ∀ p,
    match c.prog p with
    | none => L p = rest (c.home p)
    | some m => T.wp K.run p m (fun o l => l = rest (K.finish (c.home p) o)) (L p)

variable {T K} {rest : H → Λ}

/-- The guard, for the moves of a run. -/
def Allowed (T : Logic P A S Λ) (calls : C → Prop) (c : Config P S H O Res) : Move P C → Prop
  | .call _ call => calls call
  | .act p => ∀ a, c.next p = some a → T.Guard c.shared p a
  | .back _ => True

theorem Verified.step {calls : C → Prop}
    (hbody : ∀ p h c m, calls c → K.body h c = some m → T.wp K.run p m (fun o l => l = rest (K.finish h o)) (rest h))
    {c c' : Config P S H O Res} (hc : T.Verified K rest c) {e : Move P C}
    (hallow : T.Allowed calls c e) (h : K.step c e = some c') : T.Verified K rest c' := by
  obtain ⟨L, hinv, hall⟩ := hc
  cases e with
  | call p call =>
    simp only [Kit.step] at h
    split at h
    · rename_i hidle
      obtain ⟨m, hm, rfl⟩ := Option.map_eq_some_iff.1 h
      refine ⟨L, hinv, fun q => ?_⟩
      by_cases hq : q = p
      all_goals grind [Allowed]
    · simp at h
  | act p =>
    simp only [Kit.step] at h
    split at h
    · rename_i a k hprog
      obtain ⟨⟨r, s'⟩, hrun, rfl⟩ := Option.map_eq_some_iff.1 h
      have hp := hall p
      rw [hprog] at hp
      have hguard := hallow a (by simp [Config.next, hprog, Prog.next])
      obtain ⟨l', hinv', hrest⟩ := (hp c.shared L hinv rfl).2 r s' hguard hrun
      refine ⟨Function.update L p l', hinv', fun q => ?_⟩
      grind
    · simp at h
  | back p =>
    simp only [Kit.step] at h
    split at h
    · rename_i o hprog
      cases h
      have hp : L p = rest (K.finish (c.home p) o) := by
        have hp := hall p
        rwa [hprog] at hp
      refine ⟨L, hinv, fun q => ?_⟩
      grind
    · simp at h

theorem Verified.of_run {calls : C → Prop}
    (hbody : ∀ p h c m, calls c → K.body h c = some m → T.wp K.run p m (fun o l => l = rest (K.finish h o)) (rest h))
    {c0 c : Config P S H O Res} (h0 : T.Verified K rest c0)
    (hreach : Relation.ReflTransGen (fun c c' => ∃ e, T.Allowed calls c e ∧ K.step c e = some c') c0 c) :
    T.Verified K rest c :=
  invariant_of_reachable (T.Verified K rest) h0 (fun _ _ hc ⟨_, hallow, h⟩ => hc.step hbody hallow h) hreach

theorem Verified.safe {c : Config P S H O Res} (hc : T.Verified K rest c) {p : P} {a : A}
    (hnext : c.next p = some a) : T.Safe c.shared p a := by
  obtain ⟨L, hinv, hall⟩ := hc
  have hp := hall p
  cases hprog : c.prog p with
  | none => simp [Config.next, hprog] at hnext
  | some m =>
    rw [hprog] at hp
    cases m with
    | ret x => simp [Config.next, hprog, Prog.next] at hnext
    | act b k =>
      obtain rfl : b = a := by simpa [Config.next, hprog, Prog.next] using hnext
      exact (hp c.shared L hinv rfl).1

theorem Verified.idle {c : Config P S H O Res} (hc : T.Verified K rest c)
    (hidle : ∀ p, c.prog p = none) : T.Inv c.shared fun p => rest (c.home p) := by
  obtain ⟨L, hinv, hall⟩ := hc
  have hL : L = fun p => rest (c.home p) := by
    funext p
    have hp := hall p
    rwa [hidle p] at hp
  rwa [hL] at hinv

end Logic

end AsoPracticas.Lib
