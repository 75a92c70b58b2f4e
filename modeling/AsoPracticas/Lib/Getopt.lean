import AsoPracticas.Lib.Runs
import Mathlib.Data.List.Infix

/-!
# Getopt — argument vectors as a C program reads them

The C library functions a command-line program takes its arguments apart with:

* `getopt` — the options in front of the first operand, with the words that follow them
  (the POSIX rule: parsing stops at the first word that is not an option).

`getopt_operands_eq_iff` says when a list of words survives `getopt` as operands.
-/

namespace AsoPracticas.Lib

abbrev Word := List Char

/-- What one call of `getopt` finds. -/
inductive Found
  /-- the option `c`, with its argument when it takes one -/
  | option (c : Char) (optarg : Option Word)
  /-- an unknown option or a missing argument: the call returns `'?'` -/
  | unknown
  deriving DecidableEq, Repr

/-- A word `getopt` takes for options: a dash and at least one more character. -/
def optionLike : Word → Bool
  | '-' :: _ :: _ => true
  | _ => false

/-- Whether the option `c` takes an argument according to `optstring`, when it names that option. -/
def optspec (optstring : Word) (c : Char) : Option Bool :=
  if c = ':' then none
  else
    match optstring.dropWhile (· ≠ c) with
    | [] => none
    | _ :: ':' :: _ => some true
    | _ :: _ => some false

/-- The options of one word, and the one that still waits for its argument at the end of the word.
`spec c` says whether the option `c` takes an argument, when there is such an option. -/
def cluster (spec : Char → Option Bool) : List Char → List Found × Option Char
  | [] => ([], none)
  | c :: cs =>
    match spec c with
    | none => (.unknown :: (cluster spec cs).1, (cluster spec cs).2)
    | some false => (.option c none :: (cluster spec cs).1, (cluster spec cs).2)
    | some true =>
      -- the rest of the word is the argument
      if cs = [] then ([], some c) else ([.option c (some cs)], none)

/-- The results of the calls of `getopt` up to the one that returns `-1`, and the words from `optind`
on. -/
def getopt (spec : Char → Option Bool) : List Word → List Found × List Word
  | [] => ([], [])
  | w :: ws =>
    if w = ['-', '-'] then ([], ws)
    else if optionLike w then
      match cluster spec w.tail, ws with
      | (found, none), ws => (found ++ (getopt spec ws).1, (getopt spec ws).2)
      | (found, some _), [] => (found ++ [.unknown], [])
      | (found, some c), v :: ws => (found ++ .option c (some v) :: (getopt spec ws).1, (getopt spec ws).2)
    else ([], w :: ws)

variable {spec : Char → Option Bool}

@[simp] theorem getopt_nil : getopt spec [] = ([], []) := rfl

theorem getopt_operand {w : Word} (hw : optionLike w = false) (ws : List Word) :
    getopt spec (w :: ws) = ([], w :: ws) := by
  have hdash : w ≠ ['-', '-'] := by
    intro h
    simp [h, optionLike] at hw
  rw [getopt.eq_def]
  simp [hdash, hw]

theorem getopt_optarg (spec : Char → Option Bool) {c : Char} (hc : spec c = some true) (hdash : c ≠ '-') (v : Word)
    (ws : List Word) :
    getopt spec (['-', c] :: v :: ws) = (.option c (some v) :: (getopt spec ws).1, (getopt spec ws).2) := by
  have hne : ['-', c] ≠ ['-', '-'] := by simpa using hdash
  rw [getopt.eq_def]
  simp [hne, optionLike, cluster, hc]

theorem getopt_operands_suffix (spec : Char → Option Bool) (ws : List Word) : (getopt spec ws).2 <:+ ws := by
  fun_induction getopt spec ws with
  | case1 => exact List.suffix_refl _
  | case2 ws => exact List.suffix_cons _ _
  | case3 w ws _ _ found hcluster ih => exact ih.trans (List.suffix_cons _ _)
  | case4 => exact List.nil_suffix
  | case5 w _ _ found c v ws hcluster ih =>
    exact (ih.trans (List.suffix_cons _ _)).trans (List.suffix_cons _ _)
  | case6 => exact List.suffix_refl _

theorem length_getopt_operands_lt (spec : Char → Option Bool) {w : Word} (hw : optionLike w = true) (ws : List Word) :
    (getopt spec (w :: ws)).2.length < (w :: ws).length := by
  have hsuffix := fun ws => (getopt_operands_suffix spec ws).length_le
  rw [getopt.eq_def]
  grind

theorem getopt_operands_eq_iff (ws : List Word) :
    (getopt spec ws).2 = ws ↔ ∀ w, ws.head? = some w → optionLike w = false := by
  cases ws with
  | nil => simp
  | cons w ws =>
    simp only [List.head?_cons, Option.some.injEq, forall_eq']
    constructor
    · intro h
      by_contra hw
      have hlt := length_getopt_operands_lt spec (by simpa using hw) ws
      rw [h] at hlt
      exact Nat.lt_irrefl _ hlt
    · intro hw
      rw [getopt_operand hw]

/-- The argument of the last occurrence of the option `c`, or `last` when there is none. -/
def lastArg (c : Char) (last : Option Word) : List Found → Option Word
  | [] => last
  | .option c' (some v) :: found => lastArg c (if c' = c then some v else last) found
  | _ :: found => lastArg c last found

/-! ## Numbers and tokens -/

/-- `isspace` in the C locale. -/
def isspace (c : Char) : Bool :=
  c = ' ' || c = '\t' || c = '\n' || c = '\x0b' || c = '\x0c' || c = '\r'

def digits (w : Word) : Nat :=
  (w.takeWhile Char.isDigit).foldl (fun n c => 10 * n + (c.toNat - '0'.toNat)) 0

def strtol (w : Word) : Int :=
  let v : Int :=
    match w.dropWhile isspace with
    | '-' :: w => -(digits w : Int)
    | '+' :: w => digits w
    | w => digits w
  max (-(2 ^ 63)) (min v (2 ^ 63 - 1))

def atoi (w : Word) : Int := (strtol w).bmod (2 ^ 32)

/-- The tokens that repeated calls of `strtok_r` with the delimiter `d` find. -/
def strtok (d : Char) (w : Word) : List Word :=
  (runs (fun c => c != d) w).filter fun token => token != []

/-- One call of `strtok_r` with the delimiter `d`, on a string or on what the last call has left of it: the token,
and where the next call goes on. -/
def strtok_r (d : Char) (w : Word) : Option (Word × Word) :=
  match w.dropWhile (· == d) with
  | [] => none
  -- the delimiter after the token is overwritten with a NUL
  | c :: w => some ((c :: w).takeWhile (· != d), ((c :: w).dropWhile (· != d)).tail)

section Tokens

variable {d : Char} {w token rest : Word}

theorem strtok_eq_splitOn (d : Char) (w : Word) : strtok d w = (w.splitOn d).filter fun field => field != [] := by
  have hp : (fun c => !(c != d)) = fun c => c == d := by
    funext c
    exact Bool.not_not _
  rw [strtok, runs, hp]
  rfl

theorem strtok_delimiter (d : Char) (w : Word) : strtok d (d :: w) = strtok d w := by
  have hcut : runs (fun c => c != d) (d :: w) = runs (fun c => c != d) [] ++ runs (fun c => c != d) w :=
    runs_append_cons [] w (by simp)
  rw [strtok, hcut, runs_nil]
  rfl

theorem strtok_dropWhile (d : Char) (w : Word) : strtok d (w.dropWhile (· == d)) = strtok d w := by
  induction w with
  | nil => rfl
  | cons c w ih =>
    by_cases hc : c = d
    all_goals grind [List.dropWhile_cons_of_pos, strtok_delimiter, List.dropWhile_cons_of_neg]

theorem strtok_token (hne : token ≠ []) (hno : ∀ c ∈ token, (c != d) = true) (rest : Word) :
    strtok d (token ++ d :: rest) = token :: strtok d rest := by
  rw [strtok, runs_append_cons token rest (by simp), runs_of_all hno, List.filter_append]
  simp [hne, strtok]

theorem strtok_last (hne : token ≠ []) (hno : ∀ c ∈ token, (c != d) = true) : strtok d token = [token] := by
  rw [strtok, runs_of_all hno]
  simp [hne]

theorem strtok_r_eq_none (h : strtok_r d w = none) : strtok d w = [] := by
  rw [← strtok_dropWhile]
  unfold strtok_r at h
  split at h
  · rename_i hdrop
    rw [hdrop]
    rfl
  · cases h

/-- A call finds the first token; the others are those of what it leaves, which is shorter. -/
theorem strtok_r_eq_some (h : strtok_r d w = some (token, rest)) :
    strtok d w = token :: strtok d rest ∧ rest.length < w.length := by
  unfold strtok_r at h
  split at h
  · cases h
  rename_i c t hdrop
  obtain ⟨htoken, hrest⟩ := Prod.mk.inj (Option.some.inj h)
  have hle : (c :: t).length ≤ w.length := hdrop ▸ (List.dropWhile_suffix _).length_le
  -- what is skipped ends before the first character of the token
  have hc : (c != d) = true := by grind [List.head?_dropWhile_not]
  have hne : token ≠ [] := by simp [← htoken, hc]
  have hno : ∀ c ∈ token, (c != d) = true := by grind [List.mem_takeWhile_imp]
  have hsplit : c :: t = token ++ (c :: t).dropWhile (· != d) := by
    rw [← htoken, List.takeWhile_append_dropWhile]
  rw [← strtok_dropWhile, hdrop]
  cases hafter : (c :: t).dropWhile (· != d) with
  | nil =>
    rw [hafter] at hrest hsplit
    rw [List.append_nil] at hsplit
    subst hrest
    refine ⟨?_, ?_⟩
    · rw [hsplit, strtok_last hne hno]
      rfl
    grind
  | cons x after =>
    grind [List.head?_dropWhile_not, strtok_token]

end Tokens

end AsoPracticas.Lib
