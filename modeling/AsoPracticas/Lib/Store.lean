import Mathlib.Logic.Function.Basic

/-!
# Store — a plain store, and what it means to behave like one

A store maps places to contents.  Of a system that is to behave like a store one sees a list of
accesses: what was written where, and what the reads returned.
-/

namespace AsoPracticas.Lib

variable {ι δ : Type*}

inductive Access (ι δ : Type*) where
  | read (i : ι) (x : δ)
  | write (i : ι) (x : δ)
  deriving DecidableEq

section Contents

variable [DecidableEq ι]

def Access.effect (m : ι → δ) : Access ι δ → ι → δ
  | .read _ _ => m
  | .write i x => Function.update m i x

def contents (init : ι → δ) (l : List (Access ι δ)) : ι → δ := l.foldl Access.effect init

/-- Every read returned what the accesses before it had left there. -/
def Faithful (init : ι → δ) (l : List (Access ι δ)) : Prop :=
  ∀ before i x after, l = before ++ .read i x :: after → x = contents init before i

variable {init : ι → δ} {l : List (Access ι δ)} {i : ι} {x : δ}

theorem contents_write : contents init (l ++ [.write i x]) = Function.update (contents init l) i x := by
  rw [contents, List.foldl_append]
  rfl

theorem contents_read : contents init (l ++ [.read i x]) = contents init l := by
  rw [contents, List.foldl_append]
  rfl

theorem faithful_nil : Faithful init ([] : List (Access ι δ)) := by
  intro before i x after h
  have hlength := congrArg List.length h
  rw [List.length_append] at hlength
  cases hlength

theorem Faithful.concat (h : Faithful init l) {a : Access ι δ}
    (ha : ∀ i x, a = .read i x → x = contents init l i) : Faithful init (l ++ [a]) := by
  intro before i x after heq
  -- the read in question is the last access, or an earlier one
  rcases List.eq_nil_or_concat after with rfl | ⟨after, y, rfl⟩
  all_goals grind [Faithful, List.append_inj']

end Contents

end AsoPracticas.Lib
