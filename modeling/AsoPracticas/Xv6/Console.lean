import AsoPracticas.Lib.Ring
import AsoPracticas.Lib.Transition

/-!
# Console — the line discipline of `console.c`

`consoleintr` edits the last line of a ring of 128 bytes and `consoleread` hands out what has been committed, both with
`cons.lock` held.  So a run is a sequence of sections: the characters of one interrupt, and the part of a `consoleread`
up to its return or its next `sleep`.

* `Ref` — the reference: a line that is being edited, and the bytes that have been committed and not yet read;
* `console_discipline` — every run of the code is one of the reference, with the same results.
-/

namespace AsoPracticas.Xv6.Console

open Lib
open List (append_assoc append_nil length_append not_mem_nil)

/-! ## The code -/

def INPUT_BUF : Nat := 128

instance : NeZero INPUT_BUF := ⟨by decide⟩

structure Input where
  buf : Fin INPUT_BUF → UInt8
  /-- Read index -/
  r : UInt32
  /-- Write index -/
  w : UInt32
  /-- Edit index -/
  e : UInt32

/-- `i % INPUT_BUF` -/
def cell (i : UInt32) : Fin INPUT_BUF := Fin.ofNat INPUT_BUF i.toNat

/-- `C(x)` -/
def ctrl (x : Char) : UInt8 := UInt8.ofNat (x.toNat - '@'.toNat)

/-- The loop of kill line, which runs at most as often as there are bytes after `w`. -/
def Input.killLine : Nat → Input → Input
  | 0, s => s
  | k + 1, s =>
    if s.e ≠ s.w ∧ s.buf (cell (s.e - 1)) ≠ 10 then Input.killLine k { s with e := s.e - 1 } else s

/-- `input.buf[input.e++ % INPUT_BUF] = c` -/
def Input.put (s : Input) (c : UInt8) : Input :=
  { s with buf := Function.update s.buf (cell s.e) c, e := s.e + 1 }

/-- One turn of the loop of `consoleintr`. -/
def Input.type (s : Input) (c : UInt8) : Input :=
  if c = ctrl 'P' then s
  else if c = ctrl 'U' then s.killLine (s.e - s.w).toNat
  else if c = ctrl 'H' ∨ c = 0x7f then
    if s.e ≠ s.w then { s with e := s.e - 1 } else s
  else if c ≠ 0 ∧ s.e - s.r < UInt32.ofNat INPUT_BUF then
    let c := if c = 13 then 10 else c
    let s := s.put c
    if c = 10 ∨ c = ctrl 'D' ∨ s.e = s.r + UInt32.ofNat INPUT_BUF then { s with w := s.e } else s
  else s

/-- How a section of `consoleread` ends. -/
inductive Outcome where
  | done (got : List UInt8)
  /-- In `sleep`, with `n` bytes to go. -/
  | asleep (n : Nat) (got : List UInt8)
  deriving DecidableEq, Repr

/-- The loop of `consoleread` up to its end or the next `sleep`: the ring after it, the bytes that have left the ring,
and the outcome. -/
def Input.readLoop (target : Nat) : (n : Nat) → Input → (got : List UInt8) → Input × List UInt8 × Outcome
  | 0, s, got => (s, [], .done got)
  | n + 1, s, got =>
    if s.r = s.w then (s, [], .asleep (n + 1) got)
    else
      let c := s.buf (cell s.r)
      let s := { s with r := s.r + 1 }
      if c = ctrl 'D' then
        if n + 1 < target then ({ s with r := s.r - 1 }, [], .done got) else (s, [c], .done got)
      else if c = 10 then (s, [c], .done (got ++ [c]))
      else
        let (s, taken, outcome) := Input.readLoop target n s (got ++ [c])
        (s, c :: taken, outcome)

/-! ## The reference -/

/-- The line that is being edited, what has been committed and not been read yet, and all that has ever been
committed. -/
structure Ref where
  line : List UInt8
  queue : List UInt8
  committed : List UInt8

def Ref.commit (s : Ref) : Ref :=
  { line := [], queue := s.queue ++ s.line, committed := s.committed ++ s.line }

def Ref.type (s : Ref) (c : UInt8) : Ref :=
  if c = ctrl 'P' ∨ c = 0 then s
  else if c = ctrl 'U' then { s with line := [] }
  else if c = ctrl 'H' ∨ c = 0x7f then { s with line := s.line.dropLast }
  else if s.queue.length + s.line.length < INPUT_BUF then
    let c := if c = 13 then 10 else c
    let s := { s with line := s.line ++ [c] }
    if c = 10 ∨ c = ctrl 'D' ∨ s.queue.length + s.line.length = INPUT_BUF then s.commit else s
  else s

/-- A read takes bytes up to the end of the line, or up to a `^D`, which is taken only by a read that has nothing
else. -/
def Ref.read : (target n : Nat) → (queue got : List UInt8) → List UInt8 × List UInt8 × Outcome
  | _, 0, queue, got => (queue, [], .done got)
  | _, n + 1, [], got => ([], [], .asleep (n + 1) got)
  | target, n + 1, c :: queue, got =>
    if c = ctrl 'D' then
      if n + 1 < target then (c :: queue, [], .done got) else (queue, [c], .done got)
    else if c = 10 then (queue, [c], .done (got ++ [c]))
    else
      let (queue, taken, outcome) := Ref.read target n queue (got ++ [c])
      (queue, c :: taken, outcome)

/-! ## Processes -/

/-- What the processes use: characters are typed, and a `consoleread` goes on until it returns or sleeps. -/
structure Discipline (I : Type) where
  type : I → UInt8 → I
  read : (target n : Nat) → I → (got : List UInt8) → I × List UInt8 × Outcome

def console : Discipline Input where
  type := Input.type
  read := Input.readLoop

def reference : Discipline Ref where
  type := Ref.type
  read target n s got :=
    let (queue, taken, outcome) := Ref.read target n s.queue got
    ({ s with queue }, taken, outcome)

inductive Reader where
  | idle
  | asleep (target n : Nat) (got : List UInt8)
  deriving DecidableEq, Repr

/-- `handed` has the bytes that have left the ring, with the process whose call took them; `results` the calls that
have returned, with what was asked for and what they got. -/
structure State (I P : Type) where
  input : I
  proc : P → Reader
  handed : List (P × UInt8)
  results : List (P × Nat × List UInt8)

inductive Event (P : Type) where
  /-- `consoleintr`, where `getc` returns these characters. -/
  | type (cs : List UInt8)
  /-- A call of `consoleread` for `n` bytes. -/
  | read (p : P) (n : Int)
  /-- The end of a `sleep`. -/
  | wake (p : P)

section Runs

variable {I J P : Type} [DecidableEq P]

/-- A section of `consoleread`. -/
def State.section (D : Discipline I) (s : State I P) (p : P) (target n : Nat) (got : List UInt8) : State I P :=
  let (input, taken, outcome) := D.read target n s.input got
  let handed := s.handed ++ taken.map fun c => (p, c)
  match outcome with
  | .done got => { input, proc := Function.update s.proc p .idle, handed, results := s.results ++ [(p, target, got)] }
  | .asleep n got => { s with input, proc := Function.update s.proc p (.asleep target n got), handed }

def step (D : Discipline I) (s : State I P) : Event P → Option (State I P)
  | .type cs => some { s with input := cs.foldl D.type s.input }
  | .read p n =>
    match s.proc p with
    | .idle => some (s.section D p n.toNat n.toNat [])
    | .asleep .. => none
  | .wake p =>
    match s.proc p with
    | .idle => none
    | .asleep target n got => some (s.section D p target n got)

def initial (input : I) : State I P := { input, proc := fun _ => .idle, handed := [], results := [] }

/-! ## Runs of two disciplines -/

/-- `R` relates what two disciplines do. -/
structure Simulates (D : Discipline I) (D' : Discipline J) (R : I → J → Prop) : Prop where
  type : ∀ i j c, R i j → R (D.type i c) (D'.type j c)
  read : ∀ target n i j got, R i j → R (D.read target n i got).1 (D'.read target n j got).1 ∧
    (D.read target n i got).2 = (D'.read target n j got).2

/-- Two states that differ in their input only. -/
@[grind cases eager]
structure Alike (R : I → J → Prop) (s : State I P) (t : State J P) : Prop where
  input : R s.input t.input
  proc : s.proc = t.proc
  handed : s.handed = t.handed
  results : s.results = t.results

variable {D : Discipline I} {D' : Discipline J} {R : I → J → Prop} {s s' : State I P} {t : State J P}

theorem Simulates.types (h : Simulates D D' R) (cs : List UInt8) {i : I} {j : J} (hR : R i j) :
    R (cs.foldl D.type i) (cs.foldl D'.type j) := by
  induction cs generalizing i j with
  | nil => exact hR
  | cons c cs ih => exact ih (h.type i j c hR)

theorem Simulates.section (h : Simulates D D' R) (ha : Alike R s t) (p : P) (target n : Nat) (got : List UInt8) :
    Alike R (s.section D p target n got) (t.section D' p target n got) := by
  obtain ⟨hinput, heq⟩ := h.read target n s.input t.input got ha.input
  unfold State.section
  generalize D.read target n s.input got = x at hinput heq
  generalize D'.read target n t.input got = y at hinput heq
  obtain ⟨i, taken, outcome⟩ := x
  obtain ⟨j, taken', outcome'⟩ := y
  obtain ⟨rfl, rfl⟩ := Prod.mk.inj heq
  cases outcome with
  | done got =>
    refine ⟨hinput, ?_, ?_, ?_⟩
    all_goals grind
  | asleep n got =>
    refine ⟨hinput, ?_, ?_, ha.results⟩
    · simp only [ha.proc]
    · simp only [ha.handed]

theorem Simulates.step (h : Simulates D D' R) (ha : Alike R s t) {e : Event P} (hstep : step D s e = some s') :
    ∃ t', Console.step D' t e = some t' ∧ Alike R s' t' := by
  cases e with
  | type cs =>
    obtain rfl := Option.some.inj hstep
    refine ⟨_, rfl, ?_, ha.proc, ha.handed, ha.results⟩
    exact h.types cs ha.input
  | read p n =>
    simp only [Console.step] at hstep ⊢
    rw [← ha.proc]
    cases hp : s.proc p with
    | idle =>
      rw [hp] at hstep
      obtain rfl := Option.some.inj hstep
      exact ⟨_, rfl, h.section ha p _ _ _⟩
    | asleep target n got =>
      rw [hp] at hstep
      cases hstep
  | wake p =>
    simp only [Console.step] at hstep ⊢
    rw [← ha.proc]
    cases hp : s.proc p with
    | idle =>
      rw [hp] at hstep
      cases hstep
    | asleep target n got =>
      rw [hp] at hstep
      obtain rfl := Option.some.inj hstep
      exact ⟨_, rfl, h.section ha p _ _ _⟩

theorem Simulates.run (h : Simulates D D' R) (es : List (Event P)) (ha : Alike R s t)
    (hrun : es.foldlM (Console.step D) s = some s') :
    ∃ t', es.foldlM (Console.step D') t = some t' ∧ Alike R s' t' := by
  induction es generalizing s t with
  | nil =>
    obtain rfl := Option.some.inj hrun
    exact ⟨t, rfl, ha⟩
  | cons e es ih =>
    rw [List.foldlM_cons, Option.bind_eq_bind, Option.bind_eq_some_iff] at hrun
    obtain ⟨s1, hstep, hrun⟩ := hrun
    obtain ⟨t1, hstep', ha1⟩ := h.step ha hstep
    obtain ⟨t', hrun', ha'⟩ := ih ha1 hrun
    grind

end Runs

/-! ## The ring -/

/-- The bytes from `r` to `e`. -/
def Input.ring (s : Input) : Ring UInt8 32 INPUT_BUF where
  data := s.buf
  nread := s.r.toBitVec
  nwrite := s.e.toBitVec

/-- The ring holds what has been committed and then the line, which has no newline in it; a full ring is committed. -/
@[grind cases eager]
structure Shows (s : Input) (ρ : Ref) : Prop where
  contents : s.ring.contents = ρ.queue ++ ρ.line
  committed : (s.w - s.r).toNat = ρ.queue.length
  le : ρ.queue.length + ρ.line.length ≤ INPUT_BUF
  line : 10 ∉ ρ.line
  full : ρ.queue.length + ρ.line.length = INPUT_BUF → ρ.line = []

section Ring

variable {s : Input} {ρ : Ref}

theorem INPUT_BUF_dvd : INPUT_BUF ∣ 2 ^ 32 := by decide

theorem Shows.count (h : Shows s ρ) : (s.e - s.r).toNat = ρ.queue.length + ρ.line.length := by
  rw [← length_append, ← h.contents, Ring.length_contents]
  rfl

theorem toNat_sub_sub (a b c : UInt32) (h : (b - c).toNat ≤ (a - c).toNat) :
    (a - b).toNat = (a - c).toNat - (b - c).toNat := by
  have hb := b.toNat_lt
  simp only [UInt32.toNat_sub] at *
  omega

theorem Shows.edited (h : Shows s ρ) : (s.e - s.w).toNat = ρ.line.length := by
  rw [toNat_sub_sub s.e s.w s.r, h.count, h.committed, Nat.add_sub_cancel_left]
  rw [h.count, h.committed]
  exact Nat.le_add_right _ _

theorem sub_eq_zero_iff (a b : UInt32) : (a - b).toNat = 0 ↔ a = b := by
  have ha := a.toNat_lt
  have hb := b.toNat_lt
  rw [UInt32.toNat_sub, ← UInt32.toNat_inj]
  omega

theorem Shows.no_line_iff (h : Shows s ρ) : s.e = s.w ↔ ρ.line = [] := by
  rw [← sub_eq_zero_iff, h.edited, List.length_eq_zero_iff]

theorem Shows.no_queue_iff (h : Shows s ρ) : s.r = s.w ↔ ρ.queue = [] := by
  rw [eq_comm, ← sub_eq_zero_iff, h.committed, List.length_eq_zero_iff]

theorem Shows.erase {line : List UInt8} {c : UInt8} (h : Shows s ρ) (hline : ρ.line = line ++ [c]) :
    Shows { s with e := s.e - 1 } { ρ with line } ∧ s.buf (cell (s.e - 1)) = c := by
  have hcount := h.count
  have hle := h.le
  rw [hline, length_append, List.length_singleton] at hcount hle
  have hpos : 0 < s.ring.count := by
    rw [show s.ring.count = (s.e - s.r).toNat from rfl, hcount]
    omega
  have hcontents := h.contents
  rw [Ring.contents_unpush INPUT_BUF_dvd hpos, hline, ← append_assoc] at hcontents
  obtain ⟨hfront, hback⟩ := List.append_inj' hcontents rfl
  refine ⟨⟨hfront, h.committed, ?_, ?_, ?_⟩, (List.cons.inj hback).1⟩
  · simp only
    omega
  · intro hmem
    exact h.line (hline ▸ List.mem_append_left [c] hmem)
  · intro hfull
    simp only at hfull
    omega

theorem Shows.killLine (h : Shows s ρ) (k : Nat) (hk : ρ.line.length = k) :
    Shows (s.killLine k) { ρ with line := [] } := by
  induction k generalizing s ρ with
  | zero =>
    rw [List.length_eq_zero_iff] at hk
    rw [Input.killLine, ← hk]
    exact h
  | succ k ih =>
    have hne : ρ.line ≠ [] := by
      rintro hnil
      rw [hnil] at hk
      cases hk
    obtain ⟨line, c, hline⟩ := List.eq_nil_or_concat' ρ.line |>.resolve_left hne
    obtain ⟨herased, hc⟩ := h.erase hline
    have hnewline : c ≠ 10 := by grind
    have hloop : s.e ≠ s.w ∧ s.buf (cell (s.e - 1)) ≠ 10 := ⟨fun heq => hne (h.no_line_iff.1 heq), hc ▸ hnewline⟩
    rw [Input.killLine, if_pos hloop]
    grind

theorem Shows.put (h : Shows s ρ) (hlt : ρ.queue.length + ρ.line.length < INPUT_BUF) (c : UInt8) :
    (s.put c).ring.contents = ρ.queue ++ (ρ.line ++ [c]) := by
  have hcount : s.ring.count < INPUT_BUF := by
    rw [show s.ring.count = (s.e - s.r).toNat from rfl, h.count]
    exact hlt
  rw [← append_assoc, ← h.contents, ← Ring.contents_push INPUT_BUF_dvd (by decide) hcount]
  rfl

theorem Shows.of_commit {s : Input} {ρ : Ref} (hcontents : s.ring.contents = ρ.queue ++ ρ.line)
    (hle : ρ.queue.length + ρ.line.length ≤ INPUT_BUF) : Shows { s with w := s.e } ρ.commit := by
  have hlength : (ρ.queue ++ ρ.line).length = ρ.queue.length + ρ.line.length := length_append
  refine ⟨?_, ?_, ?_, not_mem_nil, fun _ => rfl⟩
  · rw [Ref.commit, append_nil]
    exact hcontents
  · show s.ring.count = _
    rw [← Ring.length_contents, hcontents]
    rfl
  · rw [Ref.commit, hlength]
    exact hle

theorem Shows.append (h : Shows s ρ) (hlt : ρ.queue.length + ρ.line.length < INPUT_BUF) (x : UInt8) :
    Shows (if x = 10 ∨ x = ctrl 'D' ∨ (s.put x).e = (s.put x).r + UInt32.ofNat INPUT_BUF then
        { s.put x with w := (s.put x).e } else s.put x)
      (if x = 10 ∨ x = ctrl 'D' ∨ ρ.queue.length + (ρ.line ++ [x]).length = INPUT_BUF then
        { ρ with line := ρ.line ++ [x] }.commit else { ρ with line := ρ.line ++ [x] }) := by
  have hcontents := h.put hlt x
  have hle : ρ.queue.length + (ρ.line ++ [x]).length ≤ INPUT_BUF := by
    rw [length_append, List.length_singleton]
    omega
  have hfull : (s.put x).e = (s.put x).r + UInt32.ofNat INPUT_BUF ↔
      ρ.queue.length + (ρ.line ++ [x]).length = INPUT_BUF := by
    rw [← length_append, ← hcontents, Ring.length_contents, ← Ring.full_iff (by decide), ← UInt32.toBitVec_inj]
    rfl
  simp only [hfull]
  split
  · exact .of_commit hcontents hle
  · rename_i hno
    obtain ⟨hnewline, -, hroom⟩ := not_or.1 hno |>.imp_right not_or.1
    refine ⟨hcontents, h.committed, hle, ?_, fun heq => absurd heq hroom⟩
    grind

theorem Shows.type (h : Shows s ρ) (c : UInt8) : Shows (s.type c) (ρ.type c) := by
  unfold Input.type Ref.type
  by_cases hP : c = ctrl 'P'
  · rw [if_pos hP, if_pos (.inl hP)]
    exact h
  · rw [if_neg hP]
    by_cases hzero : c = 0
    · -- `NUL` falls through to the last case and is dropped there
      subst hzero
      exact h
    · rw [if_neg (not_or.2 ⟨hP, hzero⟩)]
      by_cases hU : c = ctrl 'U'
      · rw [if_pos hU, if_pos hU]
        exact h.killLine _ h.edited.symm
      · rw [if_neg hU, if_neg hU]
        by_cases hH : c = ctrl 'H' ∨ c = 0x7f
        · rw [if_pos hH, if_pos hH]
          by_cases hline : ρ.line = []
          · rw [if_neg (not_not.2 (h.no_line_iff.2 hline)), hline, List.dropLast_nil, ← hline]
            exact h
          · obtain ⟨line, x, hx⟩ := List.eq_nil_or_concat' ρ.line |>.resolve_left hline
            rw [if_pos fun heq => hline (h.no_line_iff.1 heq), hx, List.dropLast_concat]
            exact (h.erase hx).1
        · rw [if_neg hH, if_neg hH]
          have hroom : s.e - s.r < UInt32.ofNat INPUT_BUF ↔ ρ.queue.length + ρ.line.length < INPUT_BUF := by
            rw [UInt32.lt_iff_toNat_lt, h.count]
            rfl
          by_cases hlt : ρ.queue.length + ρ.line.length < INPUT_BUF
          · rw [if_pos ⟨hzero, hroom.2 hlt⟩, if_pos hlt]
            generalize (if c = 13 then 10 else c) = x
            exact h.append hlt x
          grind

theorem Shows.take {c : UInt8} {queue : List UInt8} (h : Shows s ρ) (hqueue : ρ.queue = c :: queue) :
    s.buf (cell s.r) = c ∧ Shows { s with r := s.r + 1 } { ρ with queue } := by
  have hcount := h.count
  have hle := h.le
  have hcommitted := h.committed
  rw [hqueue, List.length_cons] at hcount hle hcommitted
  have hpos : 0 < s.ring.count := by
    rw [show s.ring.count = (s.e - s.r).toNat from rfl, hcount]
    omega
  have hcontents := h.contents
  rw [Ring.contents_pop INPUT_BUF_dvd hpos, hqueue, List.cons_append] at hcontents
  obtain ⟨hfront, hrest⟩ := List.cons.inj hcontents
  refine ⟨hfront, hrest, ?_, ?_, h.line, fun hfull => ?_⟩
  · have hw := s.w.toNat_lt
    have hr := s.r.toNat_lt
    simp only [UInt32.toNat_sub, UInt32.toNat_add, UInt32.toNat_one] at hcommitted ⊢
    omega
  · simp only
    omega
  · simp only at hfull
    omega

theorem Shows.read (target n : Nat) (got : List UInt8) (h : Shows s ρ) :
    Shows (s.readLoop target n got).1 { ρ with queue := (Ref.read target n ρ.queue got).1 } ∧
      (s.readLoop target n got).2 = (Ref.read target n ρ.queue got).2 := by
  induction n generalizing s ρ got with
  | zero =>
    exact ⟨h, rfl⟩
  | succ n ih =>
    rw [Input.readLoop]
    cases hqueue : ρ.queue with
    | nil =>
      rw [if_pos (h.no_queue_iff.2 hqueue), Ref.read, ← hqueue]
      exact ⟨h, rfl⟩
    | cons c queue =>
      have hne : s.r ≠ s.w := by
        intro heq
        rw [h.no_queue_iff.1 heq] at hqueue
        cases hqueue
      obtain ⟨hc, htaken⟩ := h.take hqueue
      rw [if_neg hne, Ref.read, hc]
      by_cases hD : c = ctrl 'D'
      · rw [if_pos hD, if_pos hD]
        by_cases hlt : n + 1 < target
        · -- the `^D` is put back
          rw [if_pos hlt, if_pos hlt, ← hqueue]
          refine ⟨?_, rfl⟩
          simp only [UInt32.add_sub_cancel]
          exact h
        grind
      grind

theorem console_simulates : Simulates console reference Shows where
  type _ _ c h := h.type c
  read target n _ _ got h := h.read target n got

/-- In the order in which they wrap around, `r ≤ w ≤ e ≤ r + INPUT_BUF`, and a full ring is committed. -/
structure Ordered (s : Input) : Prop where
  write : (s.w - s.r).toNat ≤ (s.e - s.r).toNat
  room : (s.e - s.r).toNat ≤ INPUT_BUF
  full : s.e = s.r + UInt32.ofNat INPUT_BUF → s.w = s.e

theorem Shows.ordered (h : Shows s ρ) : Ordered s := by
  refine ⟨?_, ?_, fun hfull => ?_⟩
  · rw [h.committed, h.count]
    exact Nat.le_add_right _ _
  · rw [h.count]
    exact h.le
  · have hcount : (s.e - s.r).toNat = INPUT_BUF := by
      rw [hfull, UInt32.add_comm, UInt32.add_sub_cancel]
      rfl
    rw [h.count] at hcount
    exact (h.no_line_iff.2 (h.full hcount)).symm

end Ring

/-! ## What the readers get -/

/-- A call for `target` bytes may return these: it goes to the end of a line at most, and `^D` is not one of them. -/
structure Fits (target : Nat) (got : List UInt8) : Prop where
  length : got.length ≤ target
  newline : 10 ∉ got.dropLast
  eof : ctrl 'D' ∉ got

/-- A call for `target` bytes with `got` and `n` to go: it goes on, since no line has ended. -/
@[grind cases eager]
structure Pending (target n : Nat) (got : List UInt8) : Prop where
  length : got.length + n = target
  newline : 10 ∉ got
  eof : ctrl 'D' ∉ got

/-- The number of times `^D` is taken from the ring: once for each call that gets nothing. -/
def eofs (target : Nat) (got : List UInt8) : Nat := if got = [] ∧ 0 < target then 1 else 0

/-- What a section of a call does when it had `got` and takes `taken` from the queue. -/
inductive Section (target : Nat) (got taken queue' : List UInt8) : Outcome → Prop where
  | done {got' : List UInt8} (hgot : got' = got ++ taken.filter (· ≠ ctrl 'D')) (hfits : Fits target got')
      (heofs : taken.count (ctrl 'D') = eofs target got') : Section target got taken queue' (.done got')
  | asleep {n : Nat} {got' : List UInt8} (hgot : got' = got ++ taken.filter (· ≠ ctrl 'D'))
      (hpending : Pending target (n + 1) got') (hqueue : queue' = []) (heofs : taken.count (ctrl 'D') = 0) :
      Section target got taken queue' (.asleep (n + 1) got')

section Ledger

variable {target n : Nat} {got : List UInt8} {c : UInt8}

theorem Pending.dropLast (h : Pending target n got) : 10 ∉ got.dropLast :=
  fun hmem => h.newline (List.dropLast_subset got hmem)

theorem Pending.cons (h : Pending target (n + 1) got) (hD : c ≠ ctrl 'D') (hnewline : c ≠ 10) :
    Pending target n (got ++ [c]) := by
  refine ⟨?_, ?_, ?_⟩
  all_goals grind

theorem Section.cons {taken queue' : List UInt8} {o : Outcome} (hD : c ≠ ctrl 'D')
    (h : Section target (got ++ [c]) taken queue' o) : Section target got (c :: taken) queue' o := by
  have hfilter : (c :: taken).filter (· ≠ ctrl 'D') = c :: taken.filter (· ≠ ctrl 'D') :=
    List.filter_cons_of_pos (decide_eq_true hD)
  have hcount : (c :: taken).count (ctrl 'D') = taken.count (ctrl 'D') := List.count_cons_of_ne hD
  cases h with
  | done hgot hfits heofs =>
    refine .done ?_ hfits (hcount.trans heofs)
    rw [hgot, hfilter, append_assoc, List.singleton_append]
  | asleep hgot hpending hqueue heofs =>
    refine .asleep ?_ hpending hqueue (hcount.trans heofs)
    rw [hgot, hfilter, append_assoc, List.singleton_append]

theorem read_section (queue : List UInt8) (h : Pending target n got) :
    (Ref.read target n queue got).2.1 ++ (Ref.read target n queue got).1 = queue ∧
      Section target got (Ref.read target n queue got).2.1 (Ref.read target n queue got).1
        (Ref.read target n queue got).2.2 := by
  induction n generalizing queue got with
  | zero =>
    refine ⟨rfl, .done (append_nil got).symm ⟨?_, h.dropLast, h.eof⟩ ?_⟩
    all_goals grind [Ref.read, eofs, Nat.le_of_eq, Nat.ne_of_lt]
  | succ n ih =>
    cases queue with
    | nil =>
      exact ⟨rfl, .asleep (append_nil got).symm h rfl rfl⟩
    | cons c queue =>
      have hlength := h.length
      rw [Ref.read]
      by_cases hD : c = ctrl 'D'
      · subst hD
        rw [if_pos rfl]
        by_cases hlt : n + 1 < target
        · rw [if_pos hlt]
          refine ⟨rfl, .done (append_nil got).symm ⟨by omega, h.dropLast, h.eof⟩ ?_⟩
          grind [Ref.read, eofs, List.length_nil]
        · rw [if_neg hlt]
          obtain rfl : got = [] := List.eq_nil_of_length_eq_zero (by omega)
          refine ⟨rfl, .done rfl ⟨Nat.zero_le _, not_mem_nil, not_mem_nil⟩ ?_⟩
          rw [eofs, if_pos ⟨rfl, by omega⟩]
          rfl
      · rw [if_neg hD]
        by_cases hnewline : c = 10
        · subst hnewline
          rw [if_pos rfl]
          refine ⟨rfl, .done rfl ⟨?_, ?_, ?_⟩ ?_⟩
          · grind
          · rw [List.dropLast_concat]
            exact h.newline
          · grind
          · rw [eofs, if_neg fun hnil => List.append_ne_nil_of_right_ne_nil got (List.cons_ne_nil 10 []) hnil.1]
            rfl
        · rw [if_neg hnewline]
          obtain ⟨hqueue, hsection⟩ := ih queue (h.cons hD hnewline)
          exact ⟨congrArg (c :: ·) hqueue, hsection.cons hD⟩

variable {P : Type} [DecidableEq P]

/-- What a list has for `p`. -/
def own {α : Type} (p : P) (xs : List (P × α)) : List α := (xs.filter (·.1 = p)).map Prod.snd

theorem own_append {α : Type} (p : P) (xs ys : List (P × α)) : own p (xs ++ ys) = own p xs ++ own p ys := by
  rw [own, List.filter_append, List.map_append]
  rfl

theorem own_map_self {α : Type} (p : P) (xs : List α) : own p (xs.map fun x => (p, x)) = xs := by
  rw [own, List.filter_eq_self.2 (by simp), List.map_map]
  exact List.map_id xs

theorem own_map_of_ne {α : Type} {p q : P} (hne : p ≠ q) (xs : List α) : own q (xs.map fun x => (p, x)) = [] := by
  rw [own, List.filter_eq_nil_iff.2 (by simp [hne]), List.map_nil]

def State.taken {I : Type} (s : State I P) (p : P) : List UInt8 := own p s.handed

def State.calls {I : Type} (s : State I P) (p : P) : List (Nat × List UInt8) := own p s.results

def Reader.bytes : Reader → List UInt8
  | .idle => []
  | .asleep _ _ got => got

/-- What has been committed has been handed out, in that order, or is still there; and each process has got in its calls
the bytes that were handed to it but for `^D`, which makes one call of it return nothing. -/
@[grind cases eager]
structure Ledger (t : State Ref P) : Prop where
  order : t.handed.map Prod.snd ++ t.input.queue = t.input.committed
  bytes : ∀ p, (t.taken p).filter (· ≠ ctrl 'D') = (t.calls p).flatMap Prod.snd ++ (t.proc p).bytes
  eofs : ∀ p, (t.taken p).count (ctrl 'D') = ((t.calls p).map fun call => Console.eofs call.1 call.2).sum
  fits : ∀ p, ∀ call ∈ t.calls p, Fits call.1 call.2
  pending : ∀ p target n got, t.proc p = .asleep target n got → Pending target n got

theorem ledger_initial : Ledger (initial { line := [], queue := [], committed := [] } : State Ref P) where
  order := rfl
  bytes _ := rfl
  eofs _ := rfl
  fits _ _ h := nomatch h
  pending _ _ _ _ h := nomatch h

variable {t t' : State Ref P}

theorem Ref.commit_spec (ρ : Ref) (x : List UInt8) (h : x ++ ρ.queue = ρ.committed) :
    x ++ ρ.commit.queue = ρ.commit.committed := by
  rw [Ref.commit, ← append_assoc, h]

theorem Ref.type_spec (ρ : Ref) (c : UInt8) (x : List UInt8) (h : x ++ ρ.queue = ρ.committed) :
    x ++ (ρ.type c).queue = (ρ.type c).committed := by
  unfold Ref.type
  grind [Ref.commit_spec]

theorem Ledger.type (h : Ledger t) (cs : List UInt8) : Ledger { t with input := cs.foldl reference.type t.input } := by
  refine ⟨?_, h.bytes, h.eofs, h.fits, h.pending⟩
  have horder := h.order
  generalize t.input = ρ at horder
  induction cs generalizing ρ with
  | nil => exact horder
  | cons c cs ih => exact ih _ (ρ.type_spec c _ horder)

theorem Ledger.section {p : P} (h : Ledger t) (hpending : Pending target n got) (hgot : (t.proc p).bytes = got) :
    Ledger (t.section reference p target n got) := by
  obtain ⟨hqueue, hsection⟩ := read_section t.input.queue hpending
  unfold State.section
  simp only [reference]
  generalize Ref.read target n t.input.queue got = x at hqueue hsection
  obtain ⟨queue', taken, outcome⟩ := x
  have horder : (t.handed ++ taken.map fun c => (p, c)).map Prod.snd ++ queue' = t.input.committed := by
    rw [List.map_append, List.map_map, append_assoc, ← h.order, ← hqueue]
    simp only [Function.comp_def, List.map_id']
  have htaken (q : P) (i : Ref) (proc : P → Reader) (results : List (P × Nat × List UInt8)) :
      State.taken ⟨i, proc, t.handed ++ taken.map fun c => (p, c), results⟩ q =
        t.taken q ++ if q = p then taken else [] := by
    rw [State.taken, own_append]
    split
    · rename_i hq
      rw [hq, own_map_self]
      rfl
    · rename_i hq
      rw [own_map_of_ne (Ne.symm hq)]
      rfl
  cases hsection with
  | @done got' hgot' hfits heofs =>
    have hcalls (q : P) (i : Ref) (proc : P → Reader) (handed : List (P × UInt8)) :
        State.calls ⟨i, proc, handed, t.results ++ [(p, target, got')]⟩ q =
          t.calls q ++ if q = p then [(target, got')] else [] := by
      rw [State.calls, own_append]
      split
      · rename_i hq
        rw [hq]
        exact congrArg (_ ++ ·) (own_map_self p [(target, got')])
      · rename_i hq
        exact congrArg (_ ++ ·) (own_map_of_ne (Ne.symm hq) [(target, got')])
    refine ⟨horder, fun q => ?_, fun q => ?_, fun q => ?_, fun q target n got hq => ?_⟩
    · rw [htaken, hcalls]
      by_cases hq : q = p
      · grind [State.section, reference, Reader.bytes, List.flatMap_singleton, append_assoc]
      · simp only [hq, ↓reduceIte, append_nil, h.bytes, Function.update_of_ne, ne_eq, not_false_eq_true]
    all_goals grind
  | @asleep n got' hgot' hpending hqueue heofs =>
    refine ⟨horder, fun q => ?_, fun q => ?_, h.fits, fun q target' n' got hq => ?_⟩
    · rw [htaken]
      by_cases hq : q = p
      · subst hq
        have hbytes := h.bytes q
        rw [hgot] at hbytes
        simp only [↓reduceIte, List.filter_append, hbytes, Function.update_self, Reader.bytes, hgot', append_assoc]
        rfl
      · simp only [hq, ↓reduceIte, append_nil, h.bytes, Function.update_of_ne, ne_eq, not_false_eq_true]
        rfl
    · rw [htaken]
      by_cases hq : q = p
      · subst hq
        simp only [↓reduceIte, List.count_append, heofs, h.eofs]
        rfl
      · simp only [hq, ↓reduceIte, append_nil, h.eofs]
        rfl
    · simp only [Function.update_apply] at hq
      split at hq
      · cases hq
        exact hpending
      · exact h.pending q target' n' got hq

theorem Ledger.step {e : Event P} (h : Ledger t) (hstep : step reference t e = some t') : Ledger t' := by
  cases e with
  | type cs =>
    obtain rfl := Option.some.inj hstep
    exact h.type cs
  | read p n =>
    simp only [Console.step] at hstep
    cases hp : t.proc p with
    | idle =>
      rw [hp] at hstep
      obtain rfl := Option.some.inj hstep
      exact h.section ⟨Nat.zero_add _, not_mem_nil, not_mem_nil⟩ (by rw [hp]; rfl)
    | asleep target n got =>
      rw [hp] at hstep
      cases hstep
  | wake p =>
    simp only [Console.step] at hstep
    cases hp : t.proc p with
    | idle =>
      rw [hp] at hstep
      cases hstep
    | asleep target n got =>
      rw [hp] at hstep
      obtain rfl := Option.some.inj hstep
      exact h.section (h.pending p target n got hp) (by rw [hp]; rfl)

/-- Every run of the console, from an empty ring wherever its indices are, is one of the reference, which hands out what
has been committed and keeps to the lines. -/
theorem console_discipline (buf : Fin INPUT_BUF → UInt8) (k : UInt32) (es : List (Event P)) (s : State Input P)
    (hrun : es.foldlM (Console.step console) (initial ⟨buf, k, k, k⟩) = some s) :
    Ordered s.input ∧ ∃ t : State Ref P,
      es.foldlM (Console.step reference) (initial { line := [], queue := [], committed := [] }) = some t ∧
        Alike Shows s t ∧ Ledger t := by
  have hempty : Shows ⟨buf, k, k, k⟩ { line := [], queue := [], committed := [] } := by
    refine ⟨?_, ?_, Nat.zero_le _, List.not_mem_nil, fun _ => rfl⟩
    · refine List.eq_nil_of_length_eq_zero ?_
      rw [Ring.length_contents]
      exact (sub_eq_zero_iff k k).2 rfl
    · exact (sub_eq_zero_iff k k).2 rfl
  have hinitial : Alike Shows (initial ⟨buf, k, k, k⟩ : State Input P)
      (initial { line := [], queue := [], committed := [] }) := ⟨hempty, rfl, rfl, rfl⟩
  obtain ⟨t, hrun', hs⟩ := console_simulates.run es hinitial hrun
  have hledger : Ledger t := by
    refine invariant_of_reachable Ledger ledger_initial ?_ (reachable_of_foldlM es hrun')
    rintro t1 t2 h ⟨e, hstep⟩
    exact h.step hstep
  exact ⟨hs.input.ordered, t, hrun', hs, hledger⟩

/-- A reader sleeps until a line is there, and a second one gets the end of it; then `^D` makes a call return
nothing. -/
theorem console_discipline_line :
    ∃ s : State Input Bool,
      [.read true 2, .type [97, 98, 8, 99, 13, 4], .wake true, .read false 5, .read false 5].foldlM
          (Console.step console) (initial ⟨fun _ => 0, 4294967294, 4294967294, 4294967294⟩) = some s ∧
        s.results = [(true, 2, [97, 99]), (false, 5, [10]), (false, 5, [])] ∧ Ordered s.input := by
  refine ⟨_, rfl, ?_, (console_discipline (fun _ => 0) 4294967294
    [.read true 2, .type [97, 98, 8, 99, 13, 4], .wake true, .read false 5, .read false 5] _ rfl).1⟩
  decide

end Ledger

end AsoPracticas.Xv6.Console
