import AsoPracticas.Lib.Runs
import AsoPracticas.Xv6.Fs

/-!
# Paths — the elements of a path name

`skipelem` takes a path name apart, and `namex` follows it.  What they do is a matter of the elements of the path, the
maximal runs of characters other than the slash, of which `DIRSIZ` bytes count.

* `walk` — `namex` over a list of elements;
* `path_elements` — `skipelem` finds these elements, and `namei` and `nameiparent` walk along them.
-/

namespace AsoPracticas.Xv6.Paths

open Lib

/-- The maximal runs of characters other than the slash. -/
def components (path : List UInt8) : List (List UInt8) :=
  (runs (· ≠ slash) path).filter (· ≠ [])

/-- The elements and the remainders that repeated calls of `skipelem` return, up to the one that returns 0. -/
inductive Iterates : List UInt8 → List (List UInt8 × List UInt8) → Prop where
  | done {path : List UInt8} : skipelem path = none → Iterates path []
  | elem {path name rest : List UInt8} {l : List (List UInt8 × List UInt8)} :
      skipelem path = some (name, rest) → Iterates rest l → Iterates path ((name, rest) :: l)

/-- The loop of `namex` over the elements of the path. -/
def walk (nameiparent : Bool) :
    (elems : List (List UInt8)) → (name : List UInt8) → (ip : InodePtr) → Fs (Option (InodePtr × List UInt8))
  | [], name, ip => do
    if nameiparent then
      iput ip
      return none
    else return some (ip, name)
  | name :: elems, _, ip => do
    ilock ip
    if ((← get).inode ip).din.type ≠ T_DIR then
      iunlockput ip
      return none
    else if nameiparent ∧ elems = [] then
      iunlock ip
      return some (ip, name)
    else
      match ← dirlookup ip name with
      | none =>
        iunlockput ip
        return none
      | some (next, _) =>
        iunlockput ip
        walk nameiparent elems name next

/-! ## One element -/

theorem components_slash (path : List UInt8) : components (slash :: path) = components path := by
  have hruns := runs_append_cons (p := fun x : UInt8 => decide (x ≠ slash)) [] path (x := slash) (by simp)
  rw [List.nil_append, runs_nil] at hruns
  rw [components, hruns]
  simp [components]

theorem components_dropWhile (path : List UInt8) : components (path.dropWhile (· = slash)) = components path := by
  induction path with
  | nil => rfl
  | cons c path ih =>
    by_cases hc : c = slash
    · subst hc
      rw [List.dropWhile_cons_of_pos (by simp), ih, components_slash]
    · rw [List.dropWhile_cons_of_neg (by simpa using hc)]

/-- A path that begins with an element. -/
theorem components_of_head {path : List UInt8} (hne : path.takeWhile (· ≠ slash) ≠ []) :
    components path = path.takeWhile (· ≠ slash) :: components (path.dropWhile (· ≠ slash)) := by
  have hall : ∀ x ∈ path.takeWhile (· ≠ slash), decide (x ≠ slash) = true := fun x hx =>
    List.mem_takeWhile_imp (p := fun x => decide (x ≠ slash)) hx
  have hkeep : [path.takeWhile (· ≠ slash)].filter (· ≠ []) = [path.takeWhile (· ≠ slash)] :=
    List.filter_cons_of_pos (by simpa using hne)
  conv_lhs => rw [← List.takeWhile_append_dropWhile (p := fun x => decide (x ≠ slash)) (l := path)]
  cases hrest : path.dropWhile (· ≠ slash) with
  | nil =>
    rw [List.append_nil, components, runs_of_all hall, hkeep]
    rfl
  | cons d rest =>
    have hd : d = slash := by
      have hnot := List.head_dropWhile_not (fun x => decide (x ≠ slash)) (l := path) (by rw [hrest]; simp)
      simp only [hrest, List.head_cons] at hnot
      simpa using hnot
    rw [hd, components_slash, components, runs_append_cons _ _ (by simp), runs_of_all hall, List.filter_append, hkeep]
    rfl

theorem head_ne_slash {path : List UInt8} {c : UInt8} {rest : List UInt8}
    (h : path.dropWhile (· = slash) = c :: rest) : c ≠ slash := by
  have hnot := List.head_dropWhile_not (fun x => decide (x = slash)) (l := path) (by simp [h])
  simpa [h] using hnot

/-- `skipelem` takes the first element off; the rest of the path has the others, and is empty if there are none. -/
theorem skipelem_spec (path : List UInt8) :
    match components path with
    | [] => skipelem path = none
    | name :: elems => ∃ rest, skipelem path = some (name.take DIRSIZ, rest) ∧ components rest = elems ∧
        (rest = [] ↔ elems = []) ∧ rest.length < path.length := by
  rw [← components_dropWhile]
  have hlen : (path.dropWhile (· = slash)).length ≤ path.length := List.length_dropWhile_le ..
  unfold skipelem
  cases hpath : path.dropWhile (· = slash) with
  | nil => simp [components]
  | cons c tail =>
    have hc := head_ne_slash hpath
    rw [components_of_head (by simp [hc])]
    refine ⟨((c :: tail).dropWhile (· ≠ slash)).dropWhile (· = slash), ?_, ?_, ?_, ?_⟩
    · simp
    · exact components_dropWhile _
    · rw [← components_dropWhile]
      cases hrest : ((c :: tail).dropWhile (· ≠ slash)).dropWhile (· = slash) with
      | nil => simp [components]
      | cons d rest =>
        rw [components_of_head (by simp [head_ne_slash hrest])]
        simp
    · have hfirst : (c :: tail).dropWhile (· ≠ slash) = tail.dropWhile (· ≠ slash) :=
        List.dropWhile_cons_of_pos (by simpa using hc)
      have hdrop := List.length_dropWhile_le (fun x => decide (x = slash)) (tail.dropWhile (· ≠ slash))
      have htail := List.length_dropWhile_le (fun x => decide (x ≠ slash)) tail
      rw [hpath, List.length_cons] at hlen
      rw [hfirst]
      omega

/-! ## All of them -/

theorem iterates (path : List UInt8) :
    ∃ l, Iterates path l ∧ l.map Prod.fst = (components path).map (·.take DIRSIZ) ∧
      ∀ i (h : i < l.length), l[i].2 = [] ↔ i + 1 = l.length := by
  -- by induction on the length: every element takes at least one byte
  induction hn : path.length using Nat.strong_induction_on generalizing path with
  | _ n ih =>
    have hspec := skipelem_spec path
    split at hspec
    · rename_i hnone
      exact ⟨[], .done hspec, by rw [hnone]; rfl, fun i hi => absurd hi (Nat.not_lt_zero i)⟩
    · rename_i hsome
      obtain ⟨rest, hskip, hrest, hempty, hlt⟩ := hspec
      obtain ⟨l, hl, hfst, hlast⟩ := ih rest.length (hn ▸ hlt) rest rfl
      refine ⟨_ :: l, .elem hskip hl, by simp [hfst, hrest, hsome], fun i hi => ?_⟩
      cases i with
      | zero =>
        have hlen : l.length = (components rest).length := by simpa using congrArg List.length hfst
        rw [List.getElem_cons_zero, hempty, ← hrest, ← List.length_eq_zero_iff, ← hlen, List.length_cons]
        omega
      | succ i =>
        have hi' : i < l.length := Nat.lt_of_succ_lt_succ hi
        rw [List.getElem_cons_succ, hlast i hi', List.length_cons]
        omega

theorem namexLoop_eq (nameiparent : Bool) (fuel : Nat) (path name : List UInt8) (ip : InodePtr)
    (hfuel : path.length < fuel) :
    namexLoop nameiparent fuel path name ip = walk nameiparent ((components path).map (·.take DIRSIZ)) name ip := by
  induction fuel generalizing path name ip with
  | zero => exact absurd hfuel (Nat.not_lt_zero _)
  | succ fuel ih =>
    have hspec := skipelem_spec path
    split at hspec
    · rename_i hnone
      simp only [namexLoop, hspec, hnone, List.map_nil, walk]
    · rename_i elem elems hsome
      obtain ⟨rest, hskip, hrest, hempty, hlt⟩ := hspec
      have hnext : ∀ next, namexLoop nameiparent fuel rest (elem.take DIRSIZ) next =
          walk nameiparent (elems.map (·.take DIRSIZ)) (elem.take DIRSIZ) next := fun next => by
        rw [ih rest _ next (by omega), hrest]
      have hlast : elems.map (·.take DIRSIZ) = [] ↔ rest = [] := by simp [hempty]
      simp only [namexLoop, hskip, hsome, List.map_cons, hnext, ← hlast]
      rfl

/-- Where a path begins. -/
def start (cwd : InodePtr) (path : List UInt8) : Fs InodePtr :=
  if path.head? = some slash then iget ROOTINO else idup cwd

/-- The walk along all elements but the last, which has to end at a directory. -/
def walkToParent (elems : List (List UInt8)) (ip : InodePtr) : Fs (Option (InodePtr × List UInt8)) :=
  match elems.getLast? with
  | none => do
    iput ip
    return none
  | some last => do
    match ← walk false elems.dropLast [] ip with
    | none => return none
    | some (dp, _) =>
      ilock dp
      if ((← get).inode dp).din.type ≠ T_DIR then
        iunlockput dp
        return none
      else
        iunlock dp
        return some (dp, last)

theorem walk_true (elems : List (List UInt8)) (ip : InodePtr) : walk true elems [] ip = walkToParent elems ip := by
  rcases List.eq_nil_or_concat elems with rfl | ⟨elems, last, rfl⟩
  · rfl
  · rw [walkToParent, List.concat_eq_append, List.getLast?_concat, List.dropLast_concat]
    -- the name that is passed along is overwritten by the next element
    generalize ([] : List UInt8) = name
    induction elems generalizing name ip with
    | nil => simp [walk]
    | cons elem elems ih =>
      have hne : elems ++ [last] ≠ [] := by simp
      simp only [List.cons_append, walk, hne, and_false, if_false, ih, Bool.false_eq_true, false_and, bind_assoc]
      congr 1
      funext _
      congr 1
      funext s
      split
      · simp
      · simp only [bind_assoc]
        congr 1
        funext r
        cases r <;> simp

/-- For every path, repeated calls of `skipelem` return its elements, cut to `DIRSIZ` bytes, and nothing is left of
the path after the last one only; `namei` and `nameiparent` depend on these elements and on where the path begins; and
`nameiparent` does what `namei` does for all elements but the last, and fails if there is none. -/
theorem path_elements (path : List UInt8) (cwd : InodePtr) :
    (∃ l, Iterates path l ∧ l.map Prod.fst = (components path).map (·.take DIRSIZ) ∧
      ∀ i (h : i < l.length), l[i].2 = [] ↔ i + 1 = l.length) ∧
    namei cwd path = (do
      let ip ← start cwd path
      return (← walk false ((components path).map (·.take DIRSIZ)) [] ip).map Prod.fst) ∧
    nameiparent cwd path = (do
      let ip ← start cwd path
      walkToParent ((components path).map (·.take DIRSIZ)) ip) := by
  have hnamex : ∀ parent, namex cwd path parent = (do
      let ip ← start cwd path
      walk parent ((components path).map (·.take DIRSIZ)) [] ip) := by
    intro parent
    unfold namex start
    simp only [namexLoop_eq parent (path.length + 1) path [] _ (Nat.lt_succ_self _)]
    split
    all_goals rfl
  refine ⟨iterates path, ?_, ?_⟩
  · rw [namei, hnamex, bind_assoc]
  · rw [nameiparent, hnamex]
    simp only [walk_true]

end AsoPracticas.Xv6.Paths
