import AsoPracticas.Lib.Bytes
import Mathlib.Computability.Language

/-!
# Grep — the pattern matcher and the line loop of `grep.c`

Strings are lists of bytes without the `NUL`; the buffer that `grep` reads into is an array of bytes in which strings
end where a `NUL` is.

* `match_iff` — it finds the patterns' languages, as products of Mathlib's `Language`s.
-/

namespace AsoPracticas.Xv6.Grep

open Lib

/-! ## The matcher -/

mutual

def matchhere : (re text : List UInt8) → Bool
  | [], _ => true
  | c :: 42 :: re, text => matchstar c re text
  | [36], text => text.isEmpty
  | _ :: _, [] => false
  | c :: re, x :: text => if c = 46 ∨ c = x then matchhere re text else false
termination_by re => (re.length, 0)

def matchstar (c : UInt8) (re text : List UInt8) : Bool :=
  if matchhere re text then true
  else
    match text with
    | [] => false
    | x :: text => if x = c ∨ c = 46 then matchstar c re text else false
termination_by (re.length, text.length + 1)

end

/-- The loop of `match`. -/
def matchLoop (re : List UInt8) : (text : List UInt8) → Bool
  | [] => matchhere re []
  | x :: text => if matchhere re (x :: text) then true else matchLoop re text

/-- `match` -/
def matchText : (re text : List UInt8) → Bool
  | 94 :: re, text => matchhere re text
  | re, text => matchLoop re text

/-! ## What a pattern means -/

/-- A part of a pattern: a character, where `.` stands for any, or any number of them. -/
inductive Item where
  | one (c : UInt8)
  | star (c : UInt8)
  deriving DecidableEq, Repr

/-- The words that a character of a pattern stands for. -/
def single (c : UInt8) : Language UInt8 := { w | ∃ x, w = [x] ∧ (c = 46 ∨ x = c) }

def Item.lang : Item → Language UInt8
  | .one c => single c
  | .star c => KStar.kstar (single c)

/-- A pattern without its leading `^`, read from left to right: its parts, and whether it ends in `$`. -/
def items : List UInt8 → List Item × Bool
  | [] => ([], false)
  | c :: 42 :: re => (.star c :: (items re).1, (items re).2)
  | [36] => ([], true)
  | c :: re => (.one c :: (items re).1, (items re).2)

/-- The language of the parts of a pattern. -/
def lang (re : List UInt8) : Language UInt8 := ((items re).1.map Item.lang).prod

/-- Whether the pattern has to begin where the text begins. -/
def anchored : List UInt8 → Bool
  | 94 :: _ => true
  | _ => false

/-- The pattern without its leading `^`. -/
def body : List UInt8 → List UInt8
  | 94 :: re => re
  | re => re

/-- A word of the pattern's language stands at the beginning of the text, and at its end if the pattern ends in `$`. -/
def Begins (re text : List UInt8) : Prop :=
  ∃ w post, text = w ++ post ∧ w ∈ lang re ∧ ((items re).2 = true → post = [])

/-- A substring of the text is in the language of the pattern, at the beginning or at the end where the pattern asks for
it. -/
def Occurs (re text : List UInt8) : Prop :=
  ∃ pre rest, text = pre ++ rest ∧ (anchored re = true → pre = []) ∧ Begins (body re) rest

/-! ## The matcher finds the language -/

theorem mem_star_single (c : UInt8) (w : List UInt8) : w ∈ KStar.kstar (single c) ↔ ∀ x ∈ w, c = 46 ∨ x = c := by
  constructor
  · rintro ⟨words, rfl, hwords⟩ x hx
    obtain ⟨word, hword, hx⟩ := List.mem_flatten.1 hx
    obtain ⟨y, rfl, hy⟩ := hwords word hword
    rw [List.mem_singleton.1 hx]
    exact hy
  · intro h
    -- one word for each character
    refine ⟨w.map fun x => [x], ?_, fun word hword => ?_⟩
    · induction w with
      | nil => rfl
      | cons x w ih => grind
    · obtain ⟨x, hx, rfl⟩ := List.mem_map.1 hword
      exact ⟨x, rfl, h x hx⟩

theorem matchstar_iff (c : UInt8) (re text : List UInt8) : matchstar c re text = true ↔
    ∃ u rest, text = u ++ rest ∧ (∀ x ∈ u, c = 46 ∨ x = c) ∧ matchhere re rest = true := by
  induction text with
  | nil =>
    rw [matchstar]
    constructor
    · intro h
      refine ⟨[], [], rfl, fun x hx => absurd hx List.not_mem_nil, ?_⟩
      by_contra hno
      rw [if_neg hno] at h
      cases h
    · rintro ⟨u, rest, htext, -, hrest⟩
      rw [(List.append_eq_nil_iff.1 htext.symm).2] at hrest
      rw [if_pos hrest]
  | cons x text ih =>
    rw [matchstar]
    constructor
    · intro h
      by_cases hhere : matchhere re (x :: text) = true
      · exact ⟨[], x :: text, rfl, fun y hy => absurd hy List.not_mem_nil, hhere⟩
      grind
    · rintro ⟨u, rest, htext, hu, hrest⟩
      cases u with
      | nil =>
        rw [List.nil_append] at htext
        rw [htext, if_pos hrest]
      | cons y u =>
        obtain ⟨hx, hu⟩ := List.forall_mem_cons.1 hu
        grind

theorem begins_star (c : UInt8) (re text : List UInt8) : Begins (c :: 42 :: re) text ↔
    ∃ u rest, text = u ++ rest ∧ (∀ x ∈ u, c = 46 ∨ x = c) ∧ Begins re rest := by
  unfold Begins lang
  simp only [items, List.map_cons, List.prod_cons, Item.lang, Language.mem_mul, mem_star_single]
  grind

theorem begins_one {c : UInt8} {re : List UInt8} (hitems : items (c :: re) = (.one c :: (items re).1, (items re).2))
    (text : List UInt8) : Begins (c :: re) text ↔ ∃ x rest, text = x :: rest ∧ (c = 46 ∨ x = c) ∧ Begins re rest := by
  unfold Begins lang
  rw [hitems]
  constructor
  · rintro ⟨w, post, rfl, ⟨u, ⟨x, rfl, hx⟩, v, hv, rfl⟩, hdollar⟩
    exact ⟨x, v ++ post, rfl, hx, v, post, rfl, hv, hdollar⟩
  · rintro ⟨x, rest, rfl, hx, v, post, rfl, hv, hdollar⟩
    exact ⟨x :: v, post, rfl, ⟨[x], ⟨x, rfl, hx⟩, v, hv, rfl⟩, hdollar⟩

theorem begins_nil (text : List UInt8) : Begins [] text :=
  ⟨[], text, rfl, Language.nil_mem_one, fun h => nomatch h⟩

theorem begins_dollar (text : List UInt8) : Begins [36] text ↔ text = [] := by
  constructor
  · rintro ⟨w, post, rfl, hw, hdollar⟩
    rw [(Language.mem_one w).1 hw, hdollar rfl]
    rfl
  · rintro rfl
    exact ⟨[], [], rfl, Language.nil_mem_one, fun _ => rfl⟩

theorem matchhere_iff (re text : List UInt8) : matchhere re text = true ↔ Begins re text := by
  -- on the length of the pattern, of which each case takes one or two characters
  induction hn : re.length using Nat.strong_induction_on generalizing re text with
  | h n ih =>
    cases re with
    | nil =>
      rw [matchhere]
      exact iff_of_true rfl (begins_nil text)
    | cons c re =>
      by_cases hstar : ∃ tail, re = 42 :: tail
      · obtain ⟨tail, rfl⟩ := hstar
        rw [matchhere, matchstar_iff, begins_star]
        grind
      · have hstar' : ∀ tail, re = 42 :: tail → False := fun tail htail => hstar ⟨tail, htail⟩
        by_cases hdollar : c = 36 ∧ re = []
        · obtain ⟨rfl, rfl⟩ := hdollar
          rw [matchhere, begins_dollar, List.isEmpty_iff]
        · have hdollar' : c = 36 → re = [] → False := fun hc hre => hdollar ⟨hc, hre⟩
          rw [begins_one (by rw [items] <;> assumption)]
          cases text with
          | nil | cons x text =>
            rw [matchhere]
            all_goals grind

theorem matchLoop_iff (re text : List UInt8) :
    matchLoop re text = true ↔ ∃ pre rest, text = pre ++ rest ∧ matchhere re rest = true := by
  induction text with
  | nil =>
    constructor
    · intro h
      exact ⟨[], [], rfl, h⟩
    · rintro ⟨pre, rest, htext, hrest⟩
      rw [(List.append_eq_nil_iff.1 htext.symm).2] at hrest
      exact hrest
  | cons x text ih =>
    rw [matchLoop]
    constructor
    · intro h
      by_cases hhere : matchhere re (x :: text) = true
      · exact ⟨[], x :: text, rfl, hhere⟩
      grind
    · rintro ⟨pre, rest, htext, hrest⟩
      cases pre with
      | nil =>
        rw [List.nil_append] at htext
        rw [htext, if_pos hrest]
      | cons y pre => grind

/-- The matcher returns 1 exactly if a substring of the text is in the language of the pattern. -/
theorem match_iff (re text : List UInt8) : matchText re text = true ↔ Occurs re text := by
  by_cases hcaret : ∃ tail, re = 94 :: tail
  · obtain ⟨tail, rfl⟩ := hcaret
    rw [matchText, matchhere_iff]
    constructor
    · intro h
      exact ⟨[], text, rfl, fun _ => rfl, h⟩
    · rintro ⟨pre, rest, rfl, hpre, h⟩
      rw [hpre rfl]
      exact h
  · have hcaret' : ∀ tail, re = 94 :: tail → False := fun tail htail => hcaret ⟨tail, htail⟩
    have hbody : body re = re := body.eq_2 re hcaret'
    have hanchored : anchored re = false := anchored.eq_2 re hcaret'
    rw [matchText.eq_2 re text hcaret', matchLoop_iff, Occurs]
    simp only [matchhere_iff, hbody, hanchored, Bool.false_eq_true, false_implies, true_and]

end AsoPracticas.Xv6.Grep
