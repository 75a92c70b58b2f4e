import AsoPracticas.Xv6.Grep

/-!
# GrepLines — the lines that `grep` prints

`grep` reads into a buffer of 1024 bytes, looks for the lines that are complete, and moves what is left to the front.
If a read leaves the buffer without a newline, `p` is still at the front and all of it is dropped: meant for lines that
are too long, this also drops the beginning of a line of which the rest has not arrived yet.

* `grep_lines` — the lines that match, if every read brings a newline.
-/

namespace AsoPracticas.Xv6.Grep

open Lib
open List (append_assoc append_nil cons_append forall_mem_cons length_append length_cons mem_append_right mem_cons
  mem_cons_self)

/-! ## Strings in the buffer -/

abbrev Buf := Fin 1024 → UInt8

/-- `*q = c` -/
def setByte (b : Buf) (q : Nat) (c : UInt8) : Buf := patch b q 1 fun _ => c

def strchr (b : Buf) (c : UInt8) : (fuel s : Nat) → Option Nat
  | 0, _ => none
  | fuel + 1, s =>
    if getByte b s = 0 then none
    else if getByte b s = c then some s
    else strchr b c fuel (s + 1)

/-- The string at `s`. -/
def str (b : Buf) : (fuel s : Nat) → List UInt8
  | 0, _ => []
  | fuel + 1, s => if getByte b s = 0 then [] else getByte b s :: str b fuel (s + 1)

/-- The `n` bytes at `p`. -/
def bytes (b : Buf) (p n : Nat) : List UInt8 := (List.range n).map fun j => getByte b (p + j)

/-! ## The loops -/

/-- The loop over the lines in the buffer: the buffer, `p` and the output after it. -/
def scan (pattern : List UInt8) : (fuel : Nat) → Buf → (p : Nat) → (out : List UInt8) → Option (Buf × Nat × List UInt8)
  | 0, _, _, _ => none
  | fuel + 1, b, p, out =>
    match strchr b 10 1024 p with
    | none => some (b, p, out)
    | some q =>
      let b := setByte b q 0
      if matchText pattern (str b 1024 p) then
        let b := setByte b q 10
        scan pattern fuel b (q + 1) (out ++ bytes b p (q + 1 - p))
      else scan pattern fuel b (q + 1) out

def read (n : Nat) : List (List UInt8) → List UInt8 × List (List UInt8)
  | [] => ([], [])
  | piece :: fd => (piece.take n, if piece.length ≤ n then fd else piece.drop n :: fd)

def grep (pattern : List UInt8) : (fuel : Nat) → Buf → (m : Nat) → (fd : List (List UInt8)) → (out : List UInt8) →
    Option (List UInt8)
  | 0, _, _, _, _ => none
  | fuel + 1, b, m, fd, out =>
    let (data, fd) := read (1024 - m - 1) fd
    if data.length > 0 then
      let b := patch b m data.length fun j => data.getD j 0
      let m := m + data.length
      let b := setByte b m 0
      match scan pattern 1024 b 0 out with
      | none => none
      | some (b, p, out) =>
        let m := if p = 0 then 0 else m
        if m > 0 then grep pattern fuel (patch b 0 (m - p) fun j => getByte b (p + j)) (m - p) fd out
        else grep pattern fuel b m fd out
    else some out

/-! ## Bytes at an address -/

/-- The bytes `l` are in the buffer at `p`. -/
def At (b : Buf) (p : Nat) (l : List UInt8) : Prop := ∀ j < l.length, getByte b (p + j) = l.getD j 0

section At

variable {b b' : Buf} {p : Nat} {l u v : List UInt8} {x c : UInt8}

theorem at_cons : At b p (x :: l) ↔ getByte b p = x ∧ At b (p + 1) l := by
  constructor
  · intro h
    refine ⟨h 0 (Nat.succ_pos _), fun j hj => ?_⟩
    rw [Nat.add_assoc, Nat.add_comm 1 j, h (j + 1) (Nat.succ_lt_succ hj), List.getD_cons_succ]
  grind [At]

theorem at_append : At b p (u ++ v) ↔ At b p u ∧ At b (p + u.length) v := by
  induction u generalizing p with
  | nil => exact ⟨fun h => ⟨fun j hj => absurd hj (Nat.not_lt_zero j), h⟩, fun h => h.2⟩
  | cons x u ih =>
    rw [cons_append, at_cons, at_cons, ih, length_cons, and_assoc, Nat.add_assoc, Nat.add_comm 1]

theorem At.patch {q n : Nat} {src : Nat → UInt8} (h : At b p l) (hout : p + l.length ≤ q ∨ q + n ≤ p) :
    At (patch b q n src) p l := by
  intro j hj
  rw [getByte_patch_of_notMem (by omega), h j hj]

theorem at_patch {src : Nat → UInt8} (hsrc : ∀ j < l.length, src j = l.getD j 0) (hle : p + l.length ≤ 1024) :
    At (patch b p l.length src) p l := by
  intro j hj
  rw [getByte_patch_of_mem (by omega) (by omega) (by omega), Nat.add_sub_cancel_left, hsrc j hj]

theorem at_setByte (hp : p < 1024) : At (setByte b p c) p [c] :=
  at_patch (fun j hj => by rw [Nat.lt_one_iff.1 hj]; rfl) hp

theorem At.bytes (h : At b p l) : bytes b p l.length = l := by
  apply List.ext_getElem
  · rw [Grep.bytes, List.length_map, List.length_range]
  · intro j hj hj'
    simp only [Grep.bytes, List.getElem_map, List.getElem_range]
    rw [h j hj', List.getD_eq_getElem?_getD, List.getElem?_eq_getElem hj', Option.getD_some]

theorem strchr_of_mem {fuel : Nat} (h : At b p (u ++ c :: v)) (hzero : 0 ∉ u) (hc : c ∉ u) (hne : c ≠ 0)
    (hfuel : u.length < fuel) : strchr b c fuel p = some (p + u.length) := by
  induction u generalizing p fuel with
  | nil =>
    obtain ⟨fuel, rfl⟩ := Nat.exists_eq_succ_of_ne_zero (Nat.ne_of_gt hfuel)
    rw [strchr, (at_cons.1 h).1, if_neg hne, if_pos rfl]
    rfl
  | cons x u ih =>
    obtain ⟨fuel, rfl⟩ := Nat.exists_eq_succ_of_ne_zero (Nat.ne_of_gt (Nat.lt_of_le_of_lt (Nat.zero_le _) hfuel))
    rw [mem_cons, not_or] at hzero hc
    obtain ⟨hx, hrest⟩ := at_cons.1 h
    rw [strchr, hx, if_neg (Ne.symm hzero.1), if_neg (Ne.symm hc.1),
      ih hrest hzero.2 hc.2 (Nat.lt_of_succ_lt_succ hfuel), length_cons, Nat.add_assoc, Nat.add_comm 1]

theorem strchr_of_notMem {fuel : Nat} (h : At b p (u ++ [0])) (hzero : 0 ∉ u) (hc : c ∉ u) :
    strchr b c fuel p = none := by
  induction u generalizing p fuel with
  | nil =>
    cases fuel with
    | zero => rfl
    | succ fuel => rw [strchr, (at_cons.1 h).1, if_pos rfl]
  | cons x u ih =>
    cases fuel with
    | zero => rfl
    | succ fuel =>
      rw [mem_cons, not_or] at hzero hc
      obtain ⟨hx, hrest⟩ := at_cons.1 h
      rw [strchr, hx, if_neg (Ne.symm hzero.1), if_neg (Ne.symm hc.1), ih hrest hzero.2 hc.2]

theorem str_of_at {fuel : Nat} (h : At b p (u ++ [0])) (hzero : 0 ∉ u) (hfuel : u.length < fuel) :
    str b fuel p = u := by
  induction u generalizing p fuel with
  | nil =>
    obtain ⟨fuel, rfl⟩ := Nat.exists_eq_succ_of_ne_zero (Nat.ne_of_gt hfuel)
    rw [str, (at_cons.1 h).1, if_pos rfl]
  | cons x u ih =>
    obtain ⟨fuel, rfl⟩ := Nat.exists_eq_succ_of_ne_zero (Nat.ne_of_gt (Nat.lt_of_le_of_lt (Nat.zero_le _) hfuel))
    rw [mem_cons, not_or] at hzero
    obtain ⟨hx, hrest⟩ := at_cons.1 h
    rw [str, hx, if_neg (Ne.symm hzero.1), ih hrest hzero.2 (Nat.lt_of_succ_lt_succ hfuel)]

end At

/-! ## Lines -/

def stream (lines : List (List UInt8)) : List UInt8 := (lines.map (· ++ [10])).flatten

/-- A line has neither a newline nor a `NUL` in it. -/
def Line (l : List UInt8) : Prop := 0 ∉ l ∧ 10 ∉ l

instance (l : List UInt8) : Decidable (Line l) := inferInstanceAs (Decidable (_ ∧ _))

section Lines

variable {lines : List (List UInt8)} {l : List UInt8}

theorem stream_cons (l : List UInt8) (lines : List (List UInt8)) : stream (l :: lines) = l ++ 10 :: stream lines := by
  rw [stream, List.map_cons, List.flatten_cons, append_assoc]
  rfl

theorem stream_append (ls ls' : List (List UInt8)) : stream (ls ++ ls') = stream ls ++ stream ls' := by
  rw [stream, List.map_append, List.flatten_append]
  rfl

/-- The loop over the lines of the buffer writes those that match, and stops at what is left. -/
theorem scan_lines (pattern : List UInt8) {hold : List UInt8} (hlines : ∀ l ∈ lines, Line l) (hhold : Line hold)
    (fuel : Nat) (b : Buf) (p : Nat) (out : List UInt8) (h : At b p (stream lines ++ (hold ++ [0])))
    (hle : p + (stream lines).length + hold.length < 1024) (hfuel : lines.length < fuel) :
    ∃ b', scan pattern fuel b p out =
        some (b', p + (stream lines).length, out ++ stream (lines.filter (matchText pattern))) ∧
      At b' (p + (stream lines).length) (hold ++ [0]) := by
  induction lines generalizing fuel b p out with
  | nil =>
    obtain ⟨fuel, rfl⟩ := Nat.exists_eq_succ_of_ne_zero (Nat.ne_of_gt hfuel)
    refine ⟨b, ?_, h⟩
    rw [scan, strchr_of_notMem h hhold.1 hhold.2]
    simp [stream]
  | cons l lines ih =>
    obtain ⟨fuel, rfl⟩ := Nat.exists_eq_succ_of_ne_zero (Nat.ne_of_gt (Nat.lt_of_le_of_lt (Nat.zero_le _) hfuel))
    obtain ⟨hl, hlines⟩ := forall_mem_cons.1 hlines
    rw [stream_cons, length_append, length_cons] at hle
    rw [stream_cons, append_assoc, cons_append] at h
    have hq : strchr b 10 1024 p = some (p + l.length) := strchr_of_mem h hl.1 hl.2 (by decide) (by omega)
    obtain ⟨hline, hrest⟩ := at_append.1 h
    have hnext := (at_cons.1 hrest).2
    -- the line as a string of its own
    have hline1 : At (setByte b (p + l.length) 0) p (l ++ [0]) :=
      at_append.2 ⟨hline.patch (.inl (Nat.le_refl _)), at_setByte (by omega)⟩
    have hnext1 : At (setByte b (p + l.length) 0) (p + l.length + 1) (stream lines ++ (hold ++ [0])) :=
      hnext.patch (.inr (Nat.le_refl _))
    have hlen : p + (stream (l :: lines)).length = p + l.length + 1 + (stream lines).length := by
      rw [stream_cons, length_append, length_cons]
      omega
    rw [scan, hq]
    simp only [str_of_at hline1 hl.1 (show l.length < 1024 by omega)]
    by_cases hmatch : matchText pattern l = true
    · -- the newline is put back before the line is written
      have hline2 : At (setByte (setByte b (p + l.length) 0) (p + l.length) 10) p (l ++ [10]) :=
        at_append.2 ⟨(at_append.1 hline1).1.patch (.inl (Nat.le_refl _)), at_setByte (by omega)⟩
      have hnext2 : At (setByte (setByte b (p + l.length) 0) (p + l.length) 10) (p + l.length + 1)
          (stream lines ++ (hold ++ [0])) := hnext1.patch (.inr (Nat.le_refl _))
      have hbytes : bytes (setByte (setByte b (p + l.length) 0) (p + l.length) 10) p (p + l.length + 1 - p) =
          l ++ [10] := by
        rw [← hline2.bytes, length_append, List.length_singleton]
        congr 1
        omega
      obtain ⟨b', hscan, hat⟩ := ih hlines fuel _ (p + l.length + 1) (out ++ (l ++ [10])) hnext2 (by omega)
        (Nat.lt_of_succ_lt_succ hfuel)
      grind [stream_cons]
    · obtain ⟨b', hscan, hat⟩ := ih hlines fuel _ (p + l.length + 1) out hnext1 (by omega)
        (Nat.lt_of_succ_lt_succ hfuel)
      grind

theorem exists_lines_of_prefix {t rest : List UInt8} (hlines : ∀ l ∈ lines, Line l) (h : stream lines = t ++ rest) :
    ∃ ls ls' hold, lines = ls ++ ls' ∧ t = stream ls ++ hold ∧ stream ls' = hold ++ rest ∧ Line hold ∧
      (hold = [] ∨ ∃ l ∈ ls', hold.length ≤ l.length) := by
  induction lines generalizing t with
  | nil =>
    obtain ⟨rfl, rfl⟩ := List.append_eq_nil_iff.1 h.symm
    exact ⟨[], [], [], rfl, rfl, rfl, by decide, .inl rfl⟩
  | cons l lines ih =>
    obtain ⟨hl, hlines'⟩ := forall_mem_cons.1 hlines
    have hwhole := h
    rw [stream_cons] at h
    rcases List.append_eq_append_iff.1 h with ⟨a, rfl, ha⟩ | ⟨a, rfl, rfl⟩
    · cases a with
      | nil =>
        rw [append_nil]
        refine ⟨[], l :: lines, l, rfl, rfl, ?_, hl, .inr ⟨l, mem_cons_self, Nat.le_refl _⟩⟩
        rw [append_nil] at hwhole
        exact hwhole
      | cons x a =>
        -- the newline of the line is there
        obtain ⟨rfl, hnext⟩ := List.cons.inj ha
        obtain ⟨ls, ls', hold, rfl, rfl, hrest, hhold⟩ := ih hlines' hnext
        refine ⟨l :: ls, ls', hold, rfl, ?_, hrest, hhold⟩
        rw [stream_cons, append_assoc, cons_append]
    · refine ⟨[], (t ++ a) :: lines, t, rfl, rfl, hwhole, ?_, .inr ⟨t ++ a, mem_cons_self, ?_⟩⟩
      · exact ⟨fun hmem => hl.1 (List.mem_append_left a hmem), fun hmem => hl.2 (List.mem_append_left a hmem)⟩
      · rw [length_append]
        exact Nat.le_add_right _ _

/-- The reads of `grep`, which has `m` bytes left from the read before: each that returns something brings a newline,
and what follows its last newline is left for the next one. -/
inductive Newlines : (m : Nat) → (fd : List (List UInt8)) → Prop
  | eof {m : Nat} {fd : List (List UInt8)} (data : (read (1024 - m - 1) fd).1 = []) : Newlines m fd
  | line {m : Nat} {fd : List (List UInt8)} {front hold : List UInt8}
      (data : (read (1024 - m - 1) fd).1 = front ++ 10 :: hold) (last : 10 ∉ hold)
      (rest : Newlines hold.length (read (1024 - m - 1) fd).2) : Newlines m fd

theorem read_flatten (n : Nat) (fd : List (List UInt8)) : (read n fd).1 ++ (read n fd).2.flatten = fd.flatten := by
  cases fd with
  | nil => rfl
  | cons piece fd =>
    rw [read]
    by_cases hle : piece.length ≤ n
    all_goals grind [List.take_append_drop]

theorem read_pieces {n : Nat} {fd : List (List UInt8)} (h : ∀ piece ∈ fd, piece ≠ []) :
    ∀ piece ∈ (read n fd).2, piece ≠ [] := by
  cases fd with
  | nil => exact h
  | cons piece fd =>
    obtain ⟨-, hfd⟩ := forall_mem_cons.1 h
    rw [read]
    by_cases hle : piece.length ≤ n
    · rw [if_pos hle]
      exact hfd
    · rw [if_neg hle, forall_mem_cons]
      refine ⟨fun hnil => hle ?_, hfd⟩
      exact List.drop_eq_nil_iff.1 hnil

theorem read_eq_nil {n : Nat} {fd : List (List UInt8)} (h : ∀ piece ∈ fd, piece ≠ []) (hn : 0 < n)
    (hread : (read n fd).1 = []) : fd = [] := by
  cases fd with
  | nil => rfl
  | cons piece fd => grind [read, List.take_eq_nil_iff]

theorem length_read_le (n : Nat) (fd : List (List UInt8)) : (read n fd).1.length ≤ n := by
  cases fd with
  | nil => exact Nat.zero_le n
  | cons piece fd => exact List.length_take_le n piece

theorem length_le_stream (lines : List (List UInt8)) : lines.length ≤ (stream lines).length := by
  induction lines with
  | nil => exact Nat.le_refl 0
  | cons l lines ih =>
    rw [stream_cons, length_append, length_cons, length_cons]
    omega

theorem exists_stream_eq (hne : lines ≠ []) : ∃ w, stream lines = w ++ [10] := by
  induction lines with
  | nil => exact absurd rfl hne
  | cons l lines ih =>
    rw [stream_cons]
    by_cases hnil : lines = []
    · subst hnil
      exact ⟨l, rfl⟩
    grind

theorem eq_of_last_newline {u v w x : List UInt8} (hv : 10 ∉ v) (hx : 10 ∉ x) (h : u ++ 10 :: v = w ++ 10 :: x) :
    u = w ∧ v = x := by
  rcases List.append_eq_append_iff.1 h with ⟨a, rfl, ha⟩ | ⟨a, rfl, ha⟩
  · cases a with
    | nil => exact ⟨(append_nil u).symm, (List.cons.inj ha).2⟩
    | cons y a => grind
  · cases a with
    | nil => exact ⟨append_nil w, (List.cons.inj ha).2.symm⟩
    | cons y a => grind

variable {b : Buf} {m fuel : Nat} {fd : List (List UInt8)} {hold out : List UInt8}

theorem At.received (h : At b 0 hold) (data : List UInt8) (hle : hold.length + data.length < 1024) :
    At (setByte (Lib.patch b hold.length data.length fun j => data.getD j 0) (hold.length + data.length) 0) 0
      (hold ++ data ++ [0]) := by
  refine at_append.2 ⟨?_, ?_⟩
  · refine At.patch (at_append.2 ⟨h.patch (.inl (Nat.le_of_eq (Nat.zero_add _))), ?_⟩) (.inl ?_)
    · rw [Nat.zero_add]
      exact at_patch (fun _ _ => rfl) (Nat.le_of_lt hle)
    · rw [Nat.zero_add, length_append]
  · rw [Nat.zero_add, length_append]
    exact at_setByte hle

theorem grep_run (pattern : List UInt8) (hnewlines : Newlines m fd) (hpieces : ∀ piece ∈ fd, piece ≠ [])
    (hlines : ∀ l ∈ lines, Line l ∧ l.length ≤ 1022) (hm : hold.length = m) (hle : m ≤ 1022) (hhold : Line hold)
    (hstream : stream lines = hold ++ fd.flatten) (hat : At b 0 hold) (hfuel : fd.flatten.length < fuel) :
    grep pattern fuel b m fd out = some (out ++ stream (lines.filter (matchText pattern))) := by
  induction hnewlines generalizing lines hold b out fuel with
  | @eof m fd data =>
    obtain ⟨fuel, rfl⟩ := Nat.exists_eq_succ_of_ne_zero (Nat.ne_of_gt (Nat.lt_of_le_of_lt (Nat.zero_le _) hfuel))
    obtain rfl := read_eq_nil hpieces (by omega) data
    have hnil : lines = [] := by
      by_contra hne
      obtain ⟨w, hw⟩ := exists_stream_eq hne
      rw [List.flatten_nil, append_nil, hw] at hstream
      exact hhold.2 (hstream ▸ mem_append_right w mem_cons_self)
    subst hnil
    simp [grep, read, stream]
  | @line m fd front hold2 data last rest ih =>
    obtain ⟨fuel, rfl⟩ := Nat.exists_eq_succ_of_ne_zero (Nat.ne_of_gt (Nat.lt_of_le_of_lt (Nat.zero_le _) hfuel))
    subst hm
    have hflat := read_flatten (1024 - hold.length - 1) fd
    have hbound := length_read_le (1024 - hold.length - 1) fd
    have hpieces' := read_pieces (n := 1024 - hold.length - 1) hpieces
    rw [grep]
    generalize read (1024 - hold.length - 1) fd = r at *
    obtain ⟨d, fd'⟩ := r
    simp only at data hflat hbound hpieces' rest ih
    have hprefix : stream lines = (hold ++ d) ++ fd'.flatten := by rw [hstream, ← hflat, append_assoc]
    -- the lines that are complete now
    obtain ⟨ls, ls', hold', rfl, ht, hrest, hhold', hlen⟩ :=
      exists_lines_of_prefix (fun l hl => (hlines l hl).1) hprefix
    have hls : ls ≠ [] := by grind [Line, stream]
    obtain ⟨w, hw⟩ := exists_stream_eq hls
    obtain ⟨-, rfl⟩ : hold ++ front = w ∧ hold2 = hold' := by
      refine eq_of_last_newline last hhold'.2 ?_
      rw [append_assoc, ← data, ht, hw, append_assoc]
      rfl
    have htotal : hold.length + d.length = (stream ls).length + hold2.length := by
      rw [← length_append, ht, length_append]
    have hpos : 0 < (stream ls).length := by
      rw [hw, length_append]
      exact Nat.succ_pos _
    have hdpos : 0 < d.length := by
      rw [data, length_append, length_cons]
      omega
    have hreceived := hat.received d (by omega)
    rw [ht, append_assoc] at hreceived
    obtain ⟨b', hscan, hat'⟩ := scan_lines pattern (fun l hl => (hlines l (List.mem_append_left ls' hl)).1)
      hhold' 1024 _ 0
      out hreceived (by omega) (Nat.lt_of_le_of_lt (length_le_stream ls) (by omega))
    simp only [gt_iff_lt, if_pos hdpos, hscan, Nat.zero_add]
    rw [if_neg (Nat.ne_of_gt hpos), if_pos (by omega), htotal, Nat.add_sub_cancel_left, List.filter_append,
      stream_append,
      ← append_assoc]
    refine ih hpieces' (fun l hl => hlines l (mem_append_right ls hl)) rfl ?_ hhold' hrest ?_ ?_
    · grind
    · refine at_patch (fun j hj => ?_) (by omega)
      rw [Nat.zero_add] at hat'
      exact (at_append.1 hat').1 j hj
    · have hfewer : fd'.flatten.length < fd.flatten.length := by
        rw [← hflat, length_append]
        omega
      omega

/-- `grep` prints exactly the lines that match, in order, if every read brings a newline. -/
theorem grep_lines (pattern : List UInt8) {lines : List (List UInt8)} (hlines : ∀ l ∈ lines, Line l ∧ l.length ≤ 1022)
    {fd : List (List UInt8)} (hpieces : ∀ piece ∈ fd, piece ≠ []) (hstream : fd.flatten = stream lines)
    (hnewlines : Newlines 0 fd) (b : Buf) :
    grep pattern (fd.flatten.length + 1) b 0 fd [] = some (stream (lines.filter (matchText pattern))) :=
  grep_run pattern hnewlines hpieces hlines (List.length_nil (α := UInt8)) (Nat.zero_le _) (by decide) hstream.symm
    (fun j hj => absurd hj (Nat.not_lt_zero j)) (Nat.lt_succ_self _)

/-- The input of a file, of which `read` returns all that is asked for, up to the end. -/
def file (data : List UInt8) : List (List UInt8) := if data = [] then [] else [data]

theorem read_file (n : Nat) (data : List UInt8) : read n (file data) = (data.take n, file (data.drop n)) := by
  unfold file
  by_cases hnil : data = []
  · subst hnil
    simp [read]
  · rw [if_neg hnil, read]
    by_cases hle : data.length ≤ n
    · rw [if_pos hle, if_pos (List.drop_eq_nil_iff.2 hle)]
    · rw [if_neg hle, if_neg fun hdrop => hle (List.drop_eq_nil_iff.1 hdrop)]

theorem newlines_of_file (data : List UInt8) {lines : List (List UInt8)} {hold : List UInt8}
    (hlines : ∀ l ∈ lines, Line l ∧ l.length ≤ 1022) (hhold : Line hold) (hle : hold.length ≤ 1022)
    (hstream : stream lines = hold ++ data) : Newlines hold.length (file data) := by
  -- on what is left of the file, of which each read takes something
  induction hlen : data.length using Nat.strong_induction_on generalizing data lines hold with
  | h k ih =>
    have hread := read_file (1024 - hold.length - 1) data
    by_cases hnil : data = []
    · refine .eof ?_
      rw [hread, hnil, List.take_nil]
    · have hprefix : stream lines = (hold ++ data.take (1024 - hold.length - 1)) ++
        data.drop (1024 - hold.length - 1) := by
        rw [append_assoc, List.take_append_drop, hstream]
      obtain ⟨ls, ls', hold', rfl, ht, hrest, hhold', hshort⟩ :=
        exists_lines_of_prefix (fun l hl => (hlines l hl).1) hprefix
      have hle' : hold'.length ≤ 1022 := by grind
      have hls : ls ≠ [] := by
        rintro rfl
        rw [show stream [] = [] from rfl, List.nil_append] at ht
        by_cases hend : data.length ≤ 1024 - hold.length - 1
        · rw [List.drop_of_length_le hend, append_nil] at hrest
          have hls' : ls' ≠ [] := by
            rintro rfl
            rw [← hrest, List.take_of_length_le hend] at ht
            exact hnil (List.append_eq_nil_iff.1 ht).2
          obtain ⟨w, hw⟩ := exists_stream_eq hls'
          rw [hrest] at hw
          exact hhold'.2 (hw ▸ mem_append_right w mem_cons_self)
        · have hfull : hold'.length = 1023 := by
            rw [← ht, length_append, List.length_take]
            omega
          omega
      obtain ⟨w, hw⟩ := exists_stream_eq hls
      rw [hw, append_assoc] at ht
      obtain ⟨front, hfront⟩ : ∃ front, data.take (1024 - hold.length - 1) = front ++ 10 :: hold' := by
        rcases List.append_eq_append_iff.1 ht with ⟨a, rfl, ha⟩ | ⟨a, rfl, ha⟩
        · exact ⟨a, ha⟩
        · cases a with
          | nil => exact ⟨[], ha.symm⟩
          | cons x a =>
            obtain ⟨rfl, -⟩ := List.cons.inj ha
            exact absurd (mem_append_right w mem_cons_self) hhold.2
      have hdata : (read (1024 - hold.length - 1) (file data)).1 = front ++ 10 :: hold' := by
        rw [hread, hfront]
      refine .line hdata hhold'.2 ?_
      · rw [hread]
        refine ih (data.drop (1024 - hold.length - 1)).length ?_ _
          (fun l hl => hlines l (mem_append_right ls hl)) hhold' hle' hrest rfl
        have hdata := List.length_pos_iff.2 hnil
        rw [List.length_drop]
        omega

theorem grep_drops (pattern : List UInt8) {data : List UInt8} {fd' : List (List UInt8)}
    (hread : read (1024 - hold.length - 1) fd = (data, fd')) (hpos : 0 < data.length) (hhold : Line hold)
    (hdata : Line data) (hle : hold.length + data.length < 1024) (hat : At b 0 hold) :
    ∃ b', grep pattern (fuel + 1) b hold.length fd out = grep pattern fuel b' 0 fd' out := by
  have hreceived := hat.received data hle
  have hline : Line (hold ++ data) :=
    ⟨fun h => (List.mem_append.1 h).elim hhold.1 hdata.1, fun h => (List.mem_append.1 h).elim hhold.2 hdata.2⟩
  refine ⟨setByte (patch b hold.length data.length fun j => data.getD j 0) (hold.length + data.length) 0, ?_⟩
  rw [grep, hread]
  simp only [gt_iff_lt, if_pos hpos, scan, strchr_of_notMem hreceived hline.1 hline.2, if_true, Nat.lt_irrefl, if_false]

end Lines

theorem grep_lines_file : Newlines 0 (file (stream [[97, 98], [99]])) ∧
    grep [99] 6 (fun _ => 0) 0 (file (stream [[97, 98], [99]])) [] =
      some (stream ([[97, 98], [99]].filter (matchText [99]))) := by
  have hlines : ∀ l ∈ [([97, 98] : List UInt8), [99]], Line l ∧ l.length ≤ 1022 := by decide
  have hempty : Line [] := by decide
  have hnewlines := newlines_of_file (stream [[97, 98], [99]]) hlines hempty (by decide) rfl
  have hflat : (file (stream [[97, 98], [99]])).flatten = stream [[97, 98], [99]] := by decide
  exact ⟨hnewlines, grep_lines [99] hlines (by decide) hflat hnewlines _⟩

/-- The line `ab` arrives in two pieces: `grep a` does not print it. -/
theorem grep_loses_line : matchText [97] [97, 98] = true ∧
    grep [97] 4 (fun _ => 0) 0 [[97], [98, 10]] [] = some [] := by
  have hempty : Line [] := by decide
  have hat : ∀ b : Buf, At b 0 [] := fun b j hj => absurd hj (Nat.not_lt_zero j)
  refine ⟨by simp [matchText, matchLoop, matchhere], ?_⟩
  -- the first piece is dropped, the second taken for the line `b`
  have hread : read (1024 - ([] : List UInt8).length - 1) [[97], [98, 10]] = ([97], [[98, 10]]) := rfl
  obtain ⟨b', hdrops⟩ : ∃ b', grep [97] 4 (fun _ => 0) 0 [[97], [98, 10]] [] = grep [97] 3 b' 0 [[98, 10]] [] :=
    grep_drops [97] hread (by decide) hempty (by decide) (by decide) (hat fun _ => 0)
  have hlines : ∀ l ∈ [([98] : List UInt8)], Line l ∧ l.length ≤ 1022 := by decide
  have hnewlines := newlines_of_file (stream [[98]]) hlines hempty (by decide) rfl
  have hrun : grep [97] 3 b' 0 [[98, 10]] [] = some (stream ([[98]].filter (matchText [97]))) :=
    grep_run [97] hnewlines (by decide) hlines rfl (by decide) hempty rfl (hat b') (by decide)
  rw [hdrops, hrun]
  simp [matchText, matchLoop, matchhere, stream]

end AsoPracticas.Xv6.Grep
