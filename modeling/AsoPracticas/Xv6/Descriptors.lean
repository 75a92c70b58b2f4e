import AsoPracticas.Lib.Threads
import AsoPracticas.Xv6.Ftable
import Mathlib.Algebra.Group.Pi.Basic
import Mathlib.Algebra.Order.Pi
import Mathlib.Tactic.Abel

/-!
# Descriptors — references to the file table in every interleaving

A process accounts for the references in its `ofile` and for those that it has in hand: a file that it
has just allocated, or, with a negative count, an entry of `ofile` that is not counted yet or no longer.
The `ref` of a file is the sum over all processes.  In the same way the open ends of a pipe are those of
its files and those that a process has in hand.

* `file_table` — every run: no panic, and what holds when no call is in progress.
-/

namespace AsoPracticas.Xv6.Ftable

open Lib
open Function (update update_eq_self update_of_ne update_self)
open Lib.Logic (wp_bind wp_mono wp_perform wp_then)
open Finset (mem_univ notMem_empty single_le_sum sum_nonneg)

/-! ## References -/

def one : Option FileId → FileId → ℤ
  | none => 0
  | some f => Pi.single f 1

def slots (t : Table) (f : FileId) : ℤ := ∑ fd, one (t fd) f

theorem one_nonneg (x : Option FileId) (f : FileId) : 0 ≤ one x f := by
  cases x with
  | none => exact le_rfl
  | some g =>
    by_cases h : f = g
    · subst h
      simp [one]
    · simp [one, h]

theorem slots_update (t : Table) (fd : Fin NOFILE) (x : Option FileId) (f : FileId) :
    slots (update t fd x) f = slots t f + (one x f - one (t fd) f) :=
  sum_update (fun x => one x f) t fd x

theorem slots_nonneg (t : Table) (f : FileId) : 0 ≤ slots t f :=
  sum_nonneg fun fd _ => one_nonneg (t fd) f

theorem slots_pos {t : Table} {fd : Fin NOFILE} {f : FileId} (h : t fd = some f) : 1 ≤ slots t f := by
  have hle := single_le_sum (f := fun fd => one (t fd) f) (fun fd _ => one_nonneg (t fd) f) (mem_univ fd)
  have hone : one (t fd) f = 1 := by simp [h, one]
  simp only [hone] at hle
  exact hle

theorem slots_empty (f : FileId) : slots (fun _ => none) f = 0 := by
  simp [slots, one]

theorem one_eq_ite (x : Option FileId) (f : FileId) : one x f = if x = some f then 1 else 0 := by
  cases x with
  | none => simp [one]
  | some g =>
    by_cases h : g = f
    · subst h
      simp [one]
    · simp [one, h, Ne.symm h]

theorem slots_eq_card {P : Type} [Fintype P] (s : Shared P) (f : FileId) :
    ∑ p, slots (s.ofile p) f = (Finset.univ.filter fun d : P × Fin NOFILE => s.ofile d.1 d.2 = some f).card := by
  simp only [slots, one_eq_ite]
  rw [← Fintype.sum_prod_type' fun p fd => if s.ofile p fd = some f then (1 : ℤ) else 0, Finset.card_filter]
  push_cast
  rfl

theorem give_apply {P : Type} [DecidableEq P] (held : P → FileId → ℤ) (p : P) (f : FileId) (k : ℤ) (q : P)
    (g : FileId) :
    update held p (held p + Pi.single f k) q g = held q g + if q = p ∧ g = f then k else 0 := by
  by_cases hq : q = p
  · subst hq
    by_cases hg : g = f
    · subst hg
      simp
    · simp [hg]
  · simp [hq]

section Counts

variable {P : Type} [Fintype P]

/-- `held p f` references to `f` are those of process `p`, and `raw p` are its files without a type. -/
@[grind cases eager]
structure Counted (file : FileId → File) (held : P → FileId → ℤ) (raw : P → Finset FileId) : Prop where
  count : ∀ f, ((file f).ref : ℤ) = ∑ p, held p f
  nonneg : ∀ p f, 0 ≤ held p f
  /-- a file in use has a type, unless it is new -/
  typed : ∀ f, 0 < (file f).ref → (file f).type = .none → ∃ p, f ∈ raw p
  unused : ∀ f, (file f).ref = 0 → (file f).type = .none
  /-- a new file is known to one process only -/
  new : ∀ p, ∀ f ∈ raw p, (file f).type = .none ∧ held p f = 1 ∧ ∀ q, q ≠ p → held q f = 0

namespace Counted

variable {file : FileId → File} {held : P → FileId → ℤ} {raw : P → Finset FileId} {p : P} {f : FileId}

theorem held_le (h : Counted file held raw) (p : P) (f : FileId) : held p f ≤ (file f).ref := by
  rw [h.count f]
  exact single_le_sum (f := fun p => held p f) (fun p _ => h.nonneg p f) (mem_univ p)

theorem held_eq_zero (h : Counted file held raw) (hf : (file f).ref = 0) (p : P) : held p f = 0 := by
  have hle := h.held_le p f
  have hpos := h.nonneg p f
  omega

theorem not_raw (h : Counted file held raw) (hheld : 1 ≤ held p f) (hf : f ∉ raw p) (q : P) : f ∉ raw q := by
  intro hq
  by_cases hqp : q = p
  all_goals grind

theorem type_ne_none (h : Counted file held raw) (hheld : 1 ≤ held p f) (hf : f ∉ raw p) : (file f).type ≠ .none := by
  intro hnone
  have hle := h.held_le p f
  obtain ⟨q, hq⟩ := h.typed f (by omega) hnone
  exact h.not_raw hheld hf q hq

theorem ref_of_raw (h : Counted file held raw) (hf : f ∈ raw p) : (file f).ref = 1 := by
  obtain ⟨-, hone, hzero⟩ := h.new p f hf
  have hsum : ∑ q, held q f = held p f :=
    Finset.sum_eq_single_of_mem p (mem_univ p) fun q _ hq => hzero q hq
  have hcount := h.count f
  rw [hsum, hone] at hcount
  exact_mod_cast hcount

variable [DecidableEq P]

theorem change (h : Counted file held raw) {x : File} {k : ℤ} {R : Finset FileId}
    (href : (x.ref : ℤ) = (file f).ref + k) (hnonneg : 0 ≤ held p f + k)
    (hunused : x.ref = 0 → x.type = .none) (htyped : 0 < x.ref → x.type = .none → f ∈ R)
    (hnew : f ∈ R → x.type = .none ∧ held p f + k = 1 ∧ ∀ q, q ≠ p → held q f = 0)
    (hR : ∀ g, g ≠ f → (g ∈ R ↔ g ∈ raw p)) (hraw : ∀ q, q ≠ p → f ∉ raw q) :
    Counted (update file f x) (update held p (held p + Pi.single f k)) (update raw p R) := by
  constructor
  case count =>
    intro g
    rw [sum_update (fun t : FileId → ℤ => t g) held p]
    by_cases hg : g = f
    all_goals grind [Pi.add_apply, Pi.single_eq_same]
  case nonneg => grind [give_apply, add_zero]
  case typed =>
    intro g hpos hnone
    by_cases hg : g = f
    · subst hg
      rw [update_self] at hpos hnone
      refine ⟨p, ?_⟩
      rw [update_self]
      exact htyped hpos hnone
    · rw [update_of_ne hg] at hpos hnone
      obtain ⟨q, hq⟩ := h.typed g hpos hnone
      refine ⟨q, ?_⟩
      grind
  case unused => grind
  case new =>
    intro q g hq
    by_cases hg : g = f
    · subst hg
      grind [give_apply, add_zero]
    · have hq' : g ∈ raw q := by grind
      grind [give_apply, add_zero]

theorem pass (h : Counted file held raw) {q : P} (hpq : q ≠ p) (hheld : 1 ≤ held p f) (hf : f ∉ raw p) :
    Counted file (update (update held p (held p + Pi.single f (-1))) q (held q + Pi.single f 1)) raw := by
  have happly : ∀ r g, update (update held p (held p + Pi.single f (-1))) q (held q + Pi.single f 1) r g =
      held r g + (if r = p ∧ g = f then -1 else 0) + if r = q ∧ g = f then 1 else 0 := by
    intro r g
    have hq : held q = update held p (held p + Pi.single f (-1)) q := (update_of_ne hpq _ _).symm
    rw [hq, give_apply, give_apply]
  constructor
  case count =>
    intro g
    rw [h.count g, sum_update (fun t : FileId → ℤ => t g), sum_update (fun t : FileId → ℤ => t g), update_of_ne hpq]
    by_cases hg : g = f
    · subst hg
      simp
    · simp [hg]
  all_goals grind

end Counted

/-! ## Ends of pipes -/

/-- The end of a pipe that a file is. -/
def endOf (x : File) : PipeId × Bool → ℤ :=
  if x.type = .pipe then Pi.single (x.pipe, x.writable) 1 else 0

/-- Every open end belongs to one file, or is one of the `ends p` that process `p` has in hand. -/
@[grind cases eager]
structure Ended (file : FileId → File) (ends : P → PipeId × Bool → ℤ) (isOpen : PipeId × Bool → Bool) :
    Prop where
  total : ∀ e, ∑ f, endOf (file f) e + ∑ p, ends p e = if isOpen e then 1 else 0
  nonneg : ∀ p e, 0 ≤ ends p e

namespace Ended

variable {file : FileId → File} {ends : P → PipeId × Bool → ℤ} {isOpen : PipeId × Bool → Bool}
variable {p : P} {f : FileId}

theorem endOf_nonneg (x : File) (e : PipeId × Bool) : 0 ≤ endOf x e := by
  unfold endOf
  split
  · grind
  · exact le_rfl

theorem open_of_hand (h : Ended file ends isOpen) {e : PipeId × Bool} (he : 1 ≤ ends p e) :
    isOpen e = true ∧ ends p e = 1 := by
  have hfiles : 0 ≤ ∑ f, endOf (file f) e := sum_nonneg fun f _ => endOf_nonneg (file f) e
  have hle := single_le_sum (f := fun p => ends p e) (fun p _ => h.nonneg p e) (mem_univ p)
  grind

variable [DecidableEq P] {E : PipeId × Bool → ℤ}

theorem update_nonneg (h : Ended file ends isOpen) (hE : ∀ e, 0 ≤ E e) (q : P)
    (e : PipeId × Bool) : 0 ≤ update ends p E q e := by
  by_cases hq : q = p
  · subst hq
    rw [update_self]
    exact hE e
  · rw [update_of_ne hq]
    exact h.nonneg q e

theorem move (h : Ended file ends isOpen) {x : File}
    (hE : E = ends p + endOf (file f) - endOf x) (hpos : ∀ e, 0 ≤ E e) :
    Ended (update file f x) (update ends p E) isOpen := by
  refine ⟨fun e => ?_, h.update_nonneg hpos⟩
  rw [sum_update (fun x => endOf x e), sum_update (fun t : PipeId × Bool → ℤ => t e), ← h.total e, hE]
  simp only [Pi.add_apply, Pi.sub_apply]
  ring

theorem turn (h : Ended file ends isOpen) {isOpen' : PipeId × Bool → Bool}
    (hE : ∀ e, (if isOpen' e then 1 else 0) = (if isOpen e then 1 else 0) + (E e - ends p e))
    (hpos : ∀ e, 0 ≤ E e) : Ended file (update ends p E) isOpen' := by
  refine ⟨fun e => ?_, h.update_nonneg hpos⟩
  rw [sum_update (fun t : PipeId × Bool → ℤ => t e), hE e, ← h.total e]
  ring

end Ended

end Counts

/-! ## The invariant -/

/-- What a process knows while it is in a call. -/
structure Local (P : Type) where
  /-- its `ofile` -/
  table : Option Table
  /-- references that are not in its `ofile`; less than zero for entries that are not counted -/
  hand : FileId → ℤ
  /-- files that it has allocated and that have no type yet -/
  raw : Finset FileId
  /-- ends of pipes that are not those of a file -/
  ends : PipeId × Bool → ℤ
  /-- the child that `fork` builds, with its `ofile` -/
  child : Option (P × Table)

def Local.rest {P : Type} : Local P where
  table := none
  hand := 0
  raw := ∅
  ends := 0
  child := none

/-- Nothing in hand, and this `ofile`. -/
def Local.has {P : Type} (t : Table) : Local P := { (Local.rest : Local P) with table := some t }

/-- `ofile` and files in hand, and nothing else. -/
def Local.holds {P : Type} (t : Table) (hand : FileId → ℤ) (raw : Finset FileId) : Local P :=
  { (Local.has t : Local P) with hand := hand, raw := raw }

theorem Local.holds_zero {P : Type} (t : Table) : (Local.holds t 0 ∅ : Local P) = Local.has t := rfl

def Shared.isOpen {P : Type} (s : Shared P) (e : PipeId × Bool) : Bool :=
  match s.pipe e.1 with
  | none => false
  | some x => if e.2 then x.writeopen else x.readopen

theorem isOpen_pipeclose {P : Type} (s : Shared P) (q : PipeId) (w : Bool) (e : PipeId × Bool) :
    (s.setPage q ((s.pipe q).bind fun x => x.close w)).isOpen e = if e = (q, w) then false else s.isOpen e := by
  obtain ⟨q', w'⟩ := e
  by_cases hq : q' = q
  · subst hq
    cases hx : s.pipe q' with
    | none => simp [Shared.isOpen, Shared.setPage, hx]
    | some x =>
      obtain ⟨r, v⟩ := x
      cases w <;> cases w' <;> cases r <;> cases v <;> simp [Shared.isOpen, Shared.setPage, hx, Pipe.close]
  · simp [Shared.isOpen, Shared.setPage, hq]

theorem isOpen_kalloc {P : Type} (s : Shared P) (q : PipeId) (e : PipeId × Bool) :
    (s.setPage q (some { readopen := true, writeopen := true })).isOpen e =
      if e.1 = q then true else s.isOpen e := by
  obtain ⟨q', w⟩ := e
  by_cases hq : q' = q
  · subst hq
    cases w <;> simp [Shared.isOpen, Shared.setPage]
  · simp [Shared.isOpen, Shared.setPage, hq]

def held {P : Type} (s : Shared P) (L : P → Local P) (p : P) (f : FileId) : ℤ :=
  slots (s.ofile p) f + (L p).hand f

/-- Whose tables are whose. -/
@[grind cases eager]
structure Tabled {P : Type} (s : Shared P) (L : P → Local P) : Prop where
  table : ∀ p t, (L p).table = some t → s.state p = .live ∧ s.ofile p = t
  closed : ∀ p, s.state p = .unused ∨ s.state p = .zombie → s.ofile p = fun _ => none
  child : ∀ p q t, (L p).child = some (q, t) → s.state q = .embryo ∧ s.ofile q = t
  children : ∀ p p' q t t', (L p).child = some (q, t) → (L p').child = some (q, t') → p = p'

section Changes

variable {P : Type} {s : Shared P} {L : P → Local P}

theorem Tabled.ne_of_table (h : Tabled s L) {q r : P} {t : Table} (hq : (L q).table = some t)
    (hr : s.state r ≠ .live) : q ≠ r := by
  rintro rfl
  exact hr (h.table q t hq).1

theorem Tabled.ne_of_child (h : Tabled s L) {q c r : P} {t : Table} (hq : (L q).child = some (c, t))
    (hr : s.state r ≠ .embryo) : c ≠ r := by
  rintro rfl
  exact hr (h.child q c t hq).1

variable [DecidableEq P] {s' : Shared P} {p : P} {l' : Local P}

theorem proj_update {β : Type} (g : Local P → β) (L : P → Local P) (p : P) (l' : Local P) :
    (fun q => g (update L p l' q)) = update (fun q => g (L q)) p (g l') := by
  funext q
  by_cases hq : q = p
  · subst hq
    simp
  · simp [hq]

theorem held_update (hofile : s'.ofile = s.ofile) {d : FileId → ℤ} (hhand : l'.hand = (L p).hand + d) :
    held s' (update L p l') = update (held s L) p (held s L p + d) := by
  funext q f
  by_cases hq : q = p
  · subst hq
    simp only [held, update_self, hofile, hhand, Pi.add_apply]
    ring
  · simp [held, hq, hofile]

theorem update_cases {Q : Local P → Prop} {q : P} (hq : Q (update L p l' q)) : (q = p ∧ Q l') ∨ (q ≠ p ∧ Q (L q)) := by
  by_cases hqp : q = p
  all_goals grind

namespace Tabled

theorem keep (h : Tabled s L) (hstate : s'.state = s.state) (hofile : s'.ofile = s.ofile)
    (htable : ∀ t, l'.table = some t → s.state p = .live ∧ s.ofile p = t)
    (hchild : ∀ c, l'.child = some c → (L p).child = some c) : Tabled s' (update L p l') := by
  constructor
  case table => grind
  case closed =>
    rw [hstate, hofile]
    exact h.closed
  all_goals grind

theorem restate (h : Tabled s L) {r : P} {x : ProcState} (hr : s.state r ≠ .live ∨ r = p ∧ l'.table = none)
    (hx : x = .unused ∨ x = .zombie → s.ofile r = fun _ => none)
    (htable : ∀ t, l'.table = some t → (L p).table = some t)
    (hchild : ∀ c t, l'.child = some (c, t) → c ≠ r ∧ (L p).child = some (c, t))
    (hother : ∀ q t, q ≠ p → (L q).child ≠ some (r, t)) :
    Tabled (s.setState r x) (update L p l') := by
  constructor
  case children => grind
  all_goals
    simp only [Shared.setState, Function.update_apply]
    grind

theorem adopt (h : Tabled s L) {np : P} (hnp : s.state np = .unused) (hp : (L p).child = none)
    (htable : l'.table = (L p).table) (hchild : l'.child = some (np, fun _ => none)) :
    Tabled (s.setState np .embryo) (update L p l') := by
  have hnew : ∀ q c t, (update L p l' q).child = some (c, t) →
      (q = p ∧ c = np ∧ t = fun _ => none) ∨ (c ≠ np ∧ (L q).child = some (c, t)) := by
    intro q c t hq
    rcases update_cases (Q := fun l => l.child = some (c, t)) hq with ⟨rfl, hnow⟩ | ⟨hqp, hnow⟩
    · rw [hchild] at hnow
      cases hnow
      exact .inl ⟨rfl, rfl, rfl⟩
    · exact .inr ⟨h.ne_of_child hnow (by rw [hnp]; decide), hnow⟩
  constructor
  case children => grind
  all_goals
    simp only [Shared.setState, Function.update_apply]
    grind

theorem setOwn (h : Tabled s L) {t t' : Table} (ht : (L p).table = some t) (htable : l'.table = some t')
    (hchild : l'.child = (L p).child) : Tabled (s.setTable p t') (update L p l') := by
  constructor
  case children => grind
  all_goals
    simp only [Shared.setTable, Function.update_apply]
    grind

theorem setChild (h : Tabled s L) {np : P} {t t' : Table} (hnp : (L p).child = some (np, t))
    (htable : l'.table = (L p).table) (hchild : l'.child = some (np, t')) :
    Tabled (s.setTable np t') (update L p l') := by
  constructor
  case children => grind
  all_goals
    simp only [Shared.setTable, Function.update_apply]
    grind

end Tabled

end Changes

section Invariant

variable {P : Type} [Fintype P]

@[grind cases eager]
structure Inv (s : Shared P) (L : P → Local P) : Prop where
  counted : Counted s.file (held s L) fun p => (L p).raw
  ended : Ended s.file (fun p => (L p).ends) s.isOpen
  tabled : Tabled s L

theorem Inv.held_eq {s : Shared P} {L : P → Local P} {p : P} (h : Inv s L) {t : Table}
    (ht : (L p).table = some t) (f : FileId) : held s L p f = slots t f + (L p).hand f := by
  rw [held, (h.tabled.table p t ht).2]

/-- What holds of the tables when no call is in progress. -/
structure Settled (s : Shared P) : Prop where
  /-- `ref` counts the descriptors -/
  ref : ∀ f, (s.file f).ref = (Finset.univ.filter fun d : P × Fin NOFILE => s.ofile d.1 d.2 = some f).card
  typed : ∀ f, 0 < (s.file f).ref → (s.file f).type = .pipe ∨ (s.file f).type = .inode
  /-- an end is open exactly while its file has references -/
  ends : ∀ q w, s.isOpen (q, w) = true ↔
    ∃ f, 0 < (s.file f).ref ∧ (s.file f).type = .pipe ∧ (s.file f).pipe = q ∧ (s.file f).writable = w
  /-- no two files are the same end of a pipe -/
  apart : ∀ f g, 0 < (s.file f).ref → 0 < (s.file g).ref → (s.file f).type = .pipe → (s.file g).type = .pipe →
    (s.file f).pipe = (s.file g).pipe → (s.file f).writable = (s.file g).writable → f = g

theorem Inv.settled {s : Shared P} (h : Inv s fun _ => Local.rest) : Settled s := by
  have hcount : ∀ f, ((s.file f).ref : ℤ) = ∑ p, slots (s.ofile p) f := by
    intro f
    rw [h.counted.count f]
    simp [held, Local.rest]
  have hends : ∀ e, ∑ f, endOf (s.file f) e = if s.isOpen e then 1 else 0 := by
    intro e
    have htotal := h.ended.total e
    simpa [Local.rest] using htotal
  have hone : ∀ f q w, endOf (s.file f) (q, w) = if (s.file f).type = .pipe ∧ (s.file f).pipe = q ∧
      (s.file f).writable = w then 1 else 0 := by
    intro f q w
    unfold endOf
    by_cases htype : (s.file f).type = .pipe
    · grind
    · simp [htype]
  constructor
  case ref =>
    intro f
    have hf := hcount f
    rw [slots_eq_card] at hf
    exact_mod_cast hf
  case typed =>
    intro f hpos
    cases htype : (s.file f).type with
    | none => grind [Local.rest]
    | pipe => exact .inl rfl
    | inode => exact .inr rfl
  case ends =>
    intro q w
    have hsum := hends (q, w)
    constructor
    · intro hopen
      rw [if_pos hopen] at hsum
      obtain ⟨f, -, hf⟩ := Finset.exists_ne_zero_of_sum_ne_zero (by rw [hsum]; decide)
      grind
    · rintro ⟨f, -, hf⟩
      have hle := single_le_sum (f := fun f => endOf (s.file f) (q, w))
        (fun f _ => Ended.endOf_nonneg (s.file f) (q, w)) (mem_univ f)
      grind
  case apart =>
    intro f g _ _ hf hg hq hw
    by_contra hne
    have hsum := hends ((s.file f).pipe, (s.file f).writable)
    have hle : ∑ x ∈ {f, g}, endOf (s.file x) ((s.file f).pipe, (s.file f).writable) ≤
        ∑ x, endOf (s.file x) ((s.file f).pipe, (s.file f).writable) :=
      Finset.sum_le_sum_of_subset_of_nonneg (Finset.subset_univ _) fun x _ _ => Ended.endOf_nonneg (s.file x) _
    grind

def logic : Logic P (Act P) (Shared P) (Local P) where
  Inv := Inv
  Guard := fun _ _ _ => True
  Safe := fun _ _ a => ∀ msg, a ≠ .panic msg

variable [DecidableEq P]

/-- Process `p` can run the program from what it knows, and then knows `Q`. -/
abbrev Knows {α : Type} (p : P) (m : Ft P α) (Q : α → Local P → Prop) (l : Local P) : Prop :=
  logic.wp run p m Q l

variable {s : Shared P} {L : P → Local P} {p : P} {l : Local P} {t : Table} {f : FileId} {E : PipeId × Bool → ℤ}

theorem Inv.file_change (h : Inv s L) {x : File} {k : ℤ} {R : Finset FileId}
    (href : (x.ref : ℤ) = (s.file f).ref + k) (hnonneg : 0 ≤ held s L p f + k)
    (hunused : x.ref = 0 → x.type = .none) (htyped : 0 < x.ref → x.type = .none → f ∈ R)
    (hnew : f ∈ R → x.type = .none ∧ held s L p f + k = 1 ∧ ∀ q, q ≠ p → held s L q f = 0)
    (hR : ∀ g, g ≠ f → (g ∈ R ↔ g ∈ (L p).raw)) (hraw : ∀ q, q ≠ p → f ∉ (L q).raw)
    (hE : E = (L p).ends + endOf (s.file f) - endOf x) (hpos : ∀ e, 0 ≤ E e) :
    Inv (s.setFile f x) (update L p { L p with hand := (L p).hand + Pi.single f k, raw := R, ends := E }) where
  counted := by
    rw [held_update rfl rfl, proj_update Local.raw]
    exact h.counted.change href hnonneg hunused htyped hnew hR hraw
  ended := by
    rw [proj_update Local.ends]
    exact h.ended.move hE hpos
  tabled := h.tabled.keep rfl rfl (fun t ht => h.tabled.table p t ht) fun _ hc => hc

theorem Inv.retable (h : Inv s L) {s' : Shared P} {l' : Local P} (hfile : s'.file = s.file)
    (hpipe : s'.pipe = s.pipe) (hofile : s'.ofile = s.ofile) (hhand : l'.hand = (L p).hand)
    (hraw : l'.raw = (L p).raw) (hends : l'.ends = (L p).ends)
    (htabled : Tabled s' (update L p l')) : Inv s' (update L p l') where
  counted := by
    rw [hfile, held_update (L := L) (s := s) hofile (hhand.trans (add_zero _).symm),
      proj_update Local.raw, hraw, add_zero]
    simpa using h.counted
  ended := by
    have hopen : s'.isOpen = s.isOpen := by
      funext e
      rw [Shared.isOpen, hpipe]
      rfl
    rw [hfile, hopen, proj_update Local.ends, hends]
    simpa using h.ended
  tabled := htabled

theorem Inv.end_change (h : Inv s L) {s' : Shared P} (hfile : s'.file = s.file)
    (hofile : s'.ofile = s.ofile) (hstate : s'.state = s.state)
    (hE : ∀ e, (if s'.isOpen e then 1 else 0) = (if s.isOpen e then 1 else 0) + (E e - (L p).ends e))
    (hpos : ∀ e, 0 ≤ E e) : Inv s' (update L p { L p with ends := E }) where
  counted := by
    have hhand : ({ L p with ends := E } : Local P).hand = (L p).hand + 0 := (add_zero _).symm
    rw [hfile, held_update (s := s) hofile hhand, proj_update Local.raw, add_zero, update_eq_self, update_eq_self]
    exact h.counted
  ended := by
    rw [hfile, proj_update Local.ends]
    exact h.ended.turn hE hpos
  tabled := h.tabled.keep hstate hofile (fun t ht => h.tabled.table p t ht) fun _ hc => hc

/-! ## What a process knows after an action -/

theorem knows_leave (l : Local P) : Knows p (act .leave) (fun _ l' => l' = { l with table := none }) l := by
  refine wp_perform fun s L h hl => ⟨nofun, fun r s' _ hrun => ?_⟩
  cases hrun
  subst hl
  refine ⟨{ L p with table := none }, Inv.retable h rfl rfl rfl rfl rfl rfl ?_, rfl⟩
  exact h.tabled.keep rfl rfl (fun _ ht => nomatch ht) fun _ hc => hc

theorem knows_enter (l : Local P) : Knows p (act .enter) (fun (t : Table) l' => l' = { l with table := some t }) l := by
  refine wp_perform fun s L h hl => ⟨nofun, fun r s' _ hrun => ?_⟩
  subst hl
  simp only [run] at hrun
  split at hrun
  · rename_i hlive
    cases hrun
    refine ⟨{ L p with table := some (s.ofile p) }, Inv.retable h rfl rfl rfl rfl rfl rfl ?_, rfl⟩
    refine h.tabled.keep rfl rfl (fun t ht => ?_) fun _ hc => hc
    exact ⟨hlive, Option.some.inj ht⟩
  · cases hrun

theorem knows_setOfile (ht : l.table = some t) (fd : Fin NOFILE) (x : Option FileId) :
    Knows p (act (.setOfile fd x)) (fun _ l' => l' = { l with
      table := some (update t fd x), hand := l.hand + (one (t fd) - one x) }) l := by
  refine wp_perform fun s L h hl => ⟨nofun, fun r s' _ hrun => ?_⟩
  subst hl
  obtain ⟨-, hofile⟩ := h.tabled.table p t ht
  cases hrun
  rw [hofile]
  refine ⟨_, ⟨?_, ?_, ?_⟩, rfl⟩
  · -- what leaves the table is in hand, and what comes into it was
    have hheld : held (s.setTable p (update t fd x)) (update L p { L p with
        table := some (update t fd x), hand := (L p).hand + (one (t fd) - one x) }) = held s L := by
      funext q f
      by_cases hq : q = p
      · subst hq
        simp only [held, Shared.setTable, update_self, slots_update, hofile, Pi.add_apply, Pi.sub_apply]
        ring
      · simp [held, Shared.setTable, hq]
    rw [hheld, proj_update Local.raw, update_eq_self]
    exact h.counted
  · rw [proj_update Local.ends, update_eq_self]
    exact h.ended
  · exact h.tabled.setOwn ht rfl rfl

theorem knows_filealloc (ht : l.table = some t) :
    Knows p filealloc (fun r l' => (r = none ∧ l' = l) ∨ ∃ f, r = some f ∧ slots t f + l.hand f = 0 ∧
      l' = { l with hand := l.hand + Pi.single f 1, raw := insert f l.raw }) l := by
  refine wp_perform fun s L h hl => ⟨nofun, fun r s' _ hrun => ?_⟩
  subst hl
  simp only [run] at hrun
  split at hrun
  · grind [update_eq_self]
  · rename_i f hfind
    cases hrun
    have hzero : (s.file f).ref = 0 := by simpa using List.find?_some hfind
    have hnone := h.counted.unused f hzero
    have hheld := h.counted.held_eq_zero hzero
    refine ⟨_, ?_, .inr ⟨f, rfl, h.held_eq ht f ▸ hheld p, rfl⟩⟩
    refine Inv.file_change h (k := 1) ?_ ?_ ?_ ?_ ?_ ?_ ?_ ?_ (h.ended.nonneg p)
    · simp [hzero]
    · rw [hheld p]
      decide
    · exact fun _ => hnone
    · exact fun _ _ => Finset.mem_insert_self f _
    · exact fun _ => ⟨hnone, by rw [hheld p, zero_add], fun q _ => hheld q⟩
    · grind
    · intro q _ hq
      have hone := (h.counted.new q f hq).2.1
      rw [hheld q] at hone
      cases hone
    · exact (add_sub_cancel_right _ (endOf (s.file f))).symm

theorem knows_filedup (ht : l.table = some t) (hheld : 1 ≤ slots t f + l.hand f)
    (hraw : f ∉ l.raw) :
    Knows p (filedup f) (fun _ l' => l' = { l with hand := l.hand + Pi.single f 1 }) l := by
  refine wp_bind (R := fun (r : Bool) l' => r = true ∧ l' = { l with hand := l.hand + Pi.single f 1 })
    (wp_perform fun s L h hl => ⟨nofun, fun r s' _ hrun => ?_⟩) ?_
  · subst hl
    rw [← h.held_eq ht f] at hheld
    have hle := h.counted.held_le p f
    have hnot := h.counted.not_raw hheld hraw
    have htype := h.counted.type_ne_none hheld hraw
    simp only [run] at hrun
    split at hrun
    · omega
    · cases hrun
      refine ⟨_, Inv.file_change h (k := 1) (R := (L p).raw) (E := (L p).ends) ?_ ?_ ?_ ?_ ?_ ?_ ?_ ?_
        (h.ended.nonneg p), rfl, rfl⟩
      · push_cast
        rfl
      · omega
      · exact fun hzero => absurd hzero (Nat.succ_ne_zero _)
      · exact fun _ hnone => absurd hnone htype
      · exact fun hmem => absurd hmem hraw
      · exact fun g _ => Iff.rfl
      · exact fun q _ => hnot q
      · exact (add_sub_cancel_right _ (endOf (s.file f))).symm
  · rintro r l' ⟨rfl, rfl⟩
    exact rfl

/-- The section of `fileclose`; with its last reference a file gives back its end of a pipe. -/
theorem knows_section (ht : l.table = some t) (hheld : 1 ≤ slots t f + l.hand f) :
    Knows p (act (.fileclose f)) (fun (r : Closed) l' =>
      (r = .kept ∧ l' = { l with hand := l.hand + Pi.single f (-1), raw := l.raw.erase f }) ∨
      ∃ ff, r = .last ff ∧ l' = { l with
        hand := l.hand + Pi.single f (-1), raw := l.raw.erase f, ends := l.ends + endOf ff }) l := by
  refine wp_perform fun s L h hl => ⟨nofun, fun r s' _ hrun => ?_⟩
  subst hl
  rw [← h.held_eq ht f] at hheld
  have hle := h.counted.held_le p f
  have hself : f ∉ (L p).raw.erase f := Finset.notMem_erase f _
  have hrest : ∀ g, g ≠ f → (g ∈ (L p).raw.erase f ↔ g ∈ (L p).raw) := by
    intro g hg
    simp [hg]
  have hraw : ∀ q, q ≠ p → f ∉ (L q).raw := by
    intro q hq hf
    have hzero := (h.counted.new q f hf).2.2 p (Ne.symm hq)
    omega
  simp only [run] at hrun
  split at hrun
  · omega
  · split at hrun
    · rename_i hmany
      cases hrun
      refine ⟨_, Inv.file_change h (k := -1) (R := (L p).raw.erase f) (E := (L p).ends) ?_ ?_ ?_ ?_ ?_ hrest
        hraw ?_ (h.ended.nonneg p), .inl ⟨rfl, rfl⟩⟩
      · simp only
        omega
      · omega
      · exact fun hzero => absurd hzero (Nat.ne_of_gt hmany)
      · intro _ hnone
        by_cases hf : f ∈ (L p).raw
        · have hone := h.counted.ref_of_raw hf
          omega
        · exact absurd hnone (h.counted.type_ne_none hheld hf)
      · exact fun hmem => absurd hmem hself
      · exact (add_sub_cancel_right _ (endOf (s.file f))).symm
    · cases hrun
      refine ⟨_, Inv.file_change h (k := -1) (R := (L p).raw.erase f) (E := (L p).ends + endOf (s.file f)) ?_ ?_
        ?_ ?_ ?_ hrest hraw ?_ ?_, .inr ⟨s.file f, rfl, rfl⟩⟩
      · simp only
        omega
      · omega
      · exact fun _ => rfl
      · exact fun hpos => absurd hpos (lt_irrefl 0)
      · exact fun hmem => absurd hmem hself
      · exact (sub_zero _).symm
      · exact fun e => add_nonneg (h.ended.nonneg p e) (Ended.endOf_nonneg _ e)

theorem knows_pipeclose {q : PipeId} {w : Bool} (hends : 1 ≤ l.ends (q, w)) :
    Knows p (act (.pipeclose q w)) (fun _ l' => l' = { l with ends := l.ends + Pi.single (q, w) (-1) }) l := by
  refine wp_perform fun s L h hl => ⟨nofun, fun r s' _ hrun => ?_⟩
  subst hl
  cases hrun
  have hopen := (h.ended.open_of_hand hends).1
  refine ⟨_, Inv.end_change h rfl rfl rfl (fun e => ?_) fun e => ?_, rfl⟩
  · rw [isOpen_pipeclose]
    by_cases he : e = (q, w)
    · subst he
      simp [hopen]
    · simp [he]
  · by_cases he : e = (q, w)
    · subst he
      simp only [Pi.add_apply, Pi.single_eq_same]
      omega
    · simpa [he] using h.ended.nonneg p e

theorem knows_fileclose (ht : l.table = some t) (hheld : 1 ≤ slots t f + l.hand f)
    (hends : ∀ e, 0 ≤ l.ends e) :
    Knows p (fileclose f) (fun _ l' => l' = { l with hand := l.hand + Pi.single f (-1), raw := l.raw.erase f })
      l := by
  refine wp_bind (knows_section ht hheld) ?_
  rintro r l' (⟨rfl, rfl⟩ | ⟨ff, rfl, rfl⟩)
  · exact rfl
  · by_cases hpipe : ff.type = .pipe
    · have hend : endOf ff = Pi.single (ff.pipe, ff.writable) 1 := if_pos hpipe
      simp only [hpipe]
      refine wp_mono (knows_pipeclose ?_) ?_
      · have hold := hends (ff.pipe, ff.writable)
        simp only [hend, Pi.add_apply, Pi.single_eq_same]
        omega
      · rintro _ l' rfl
        simp only [hend, add_assoc, ← Pi.single_add]
        simp
    · simp only [hpipe, if_false, endOf, add_zero]
      exact rfl

theorem knows_readFile (ht : l.table = some t) (hheld : 1 ≤ slots t f + l.hand f)
    (hraw : f ∉ l.raw) :
    Knows p (act (.readFile f)) (fun (ff : File) l' => ff.type ≠ .none ∧ l' = l) l := by
  refine wp_perform fun s L h hl => ⟨nofun, fun r s' _ hrun => ?_⟩
  subst hl
  rw [← h.held_eq ht f] at hheld
  cases hrun
  refine ⟨L p, ?_, h.counted.type_ne_none hheld hraw, rfl⟩
  rw [update_eq_self]
  exact h

theorem Inv.type_change (h : Inv s L) {x : File} (hf : f ∈ (L p).raw)
    (href : x.ref = (s.file f).ref) (htype : x.type ≠ .none)
    (hE : E = (L p).ends - endOf x) (hpos : ∀ e, 0 ≤ E e) :
    Inv (s.setFile f x) (update L p { L p with raw := (L p).raw.erase f, ends := E }) := by
  obtain ⟨hnone, hone, hzero⟩ := h.counted.new p f hf
  have hend : endOf (s.file f) = 0 := if_neg (by rw [hnone]; decide)
  have hchange := Inv.file_change h (p := p) (f := f) (x := x) (k := 0) (R := (L p).raw.erase f) (E := E)
    (by rw [href, add_zero]) (by omega) ?_ ?_ ?_ ?_ ?_ ?_ hpos
  · simpa using hchange
  · rw [href, h.counted.ref_of_raw hf]
    exact fun hzero => absurd hzero (by decide)
  · exact fun _ hx => absurd hx htype
  · exact fun hmem => absurd hmem (Finset.notMem_erase f _)
  · intro g hg
    simp [hg]
  · intro q hq hmem
    have hother := (h.counted.new q f hmem).2.2 p (Ne.symm hq)
    omega
  · rw [hend, add_zero, hE]

theorem knows_setInode (hf : f ∈ l.raw) (readable writable : Bool) :
    Knows p (act (.setInode f readable writable)) (fun _ l' => l' = { l with raw := l.raw.erase f }) l := by
  refine wp_perform fun s L h hl => ⟨nofun, fun r s' _ hrun => ?_⟩
  subst hl
  cases hrun
  refine ⟨_, Inv.type_change (x := { s.file f with type := .inode, readable := readable, writable := writable })
    h hf rfl nofun (sub_zero _).symm (h.ended.nonneg p), rfl⟩

theorem knows_setPipe (hf : f ∈ l.raw) {q : PipeId} {w : Bool} (hends : 1 ≤ l.ends (q, w)) :
    Knows p (act (.setPipe f q w)) (fun _ l' => l' = { l with
      raw := l.raw.erase f, ends := l.ends - Pi.single (q, w) 1 }) l := by
  refine wp_perform fun s L h hl => ⟨nofun, fun r s' _ hrun => ?_⟩
  subst hl
  cases hrun
  refine ⟨_, Inv.type_change (E := (L p).ends - Pi.single (q, w) 1)
    (x := { s.file f with type := .pipe, readable := !w, writable := w, pipe := q }) h hf rfl nofun rfl
    fun e => ?_, rfl⟩
  by_cases he : e = (q, w)
  · subst he
    simp only [Pi.sub_apply, Pi.single_eq_same]
    omega
  · simpa [he] using h.ended.nonneg p e

theorem knows_kalloc (q : PipeId) :
    Knows p (act (.kalloc q)) (fun _ l' => l' = { l with
      ends := l.ends + (Pi.single (q, false) 1 + Pi.single (q, true) 1) }) l := by
  refine wp_perform fun s L h hl => ⟨nofun, fun r s' _ hrun => ?_⟩
  subst hl
  simp only [run] at hrun
  split at hrun
  · rename_i hfree
    cases hrun
    refine ⟨_, Inv.end_change h rfl rfl rfl (fun e => ?_) fun e => ?_, rfl⟩
    · rw [isOpen_kalloc]
      obtain ⟨q', w⟩ := e
      by_cases hq : q' = q
      · subst hq
        have hclosed : s.isOpen (q', w) = false := by simp [Shared.isOpen, hfree]
        cases w <;> simp [hclosed]
      · simp [hq]
    · have hone : ∀ w : Bool, (0 : ℤ) ≤ (Pi.single (q, w) 1 : PipeId × Bool → ℤ) e := by grind
      have hold := h.ended.nonneg p e
      grind [Pi.add_apply]
  · cases hrun

theorem knows_allocproc (hchild : l.child = none) (np : P) :
    Knows p (act (.allocproc np)) (fun _ l' => l' = { l with child := some (np, fun _ => none) }) l := by
  refine wp_perform fun s L h hl => ⟨nofun, fun r s' _ hrun => ?_⟩
  subst hl
  simp only [run] at hrun
  split at hrun
  · rename_i hunused
    cases hrun
    refine ⟨{ L p with child := some (np, fun _ => none) }, Inv.retable h rfl rfl rfl rfl rfl rfl ?_, rfl⟩
    exact h.tabled.adopt hunused hchild rfl rfl
  · cases hrun

theorem Inv.part (h : Inv s L) {np : P} {tc : Table} (hchild : (L p).child = some (np, tc)) {x : ProcState}
    (hx : x = .unused ∨ x = .zombie → tc = fun _ => none) :
    Inv (s.setState np x) (update L p { L p with child := none }) := by
  refine Inv.retable h rfl rfl rfl rfl rfl rfl ?_
  refine h.tabled.restate (.inl ?_) ?_ (fun _ ht => ht) nofun ?_
  all_goals grind

theorem knows_freeproc {np : P} (hchild : l.child = some (np, fun _ => none)) :
    Knows p (act (.freeproc np)) (fun _ l' => l' = { l with child := none }) l := by
  refine wp_perform fun s L h hl => ⟨nofun, fun r s' _ hrun => ?_⟩
  subst hl
  cases hrun
  exact ⟨_, Inv.part h hchild fun _ => rfl, rfl⟩

theorem knows_start {np : P} {tc : Table} (hchild : l.child = some (np, tc)) :
    Knows p (act (.start np)) (fun _ l' => l' = { l with child := none }) l := by
  refine wp_perform fun s L h hl => ⟨nofun, fun r s' _ hrun => ?_⟩
  subst hl
  cases hrun
  exact ⟨_, Inv.part h hchild fun hx => absurd hx (by decide), rfl⟩

theorem knows_zombie (ht : l.table = some fun _ => none) (hchild : l.child = none) :
    Knows p (act .zombie) (fun _ l' => l' = { l with table := none }) l := by
  refine wp_perform fun s L h hl => ⟨nofun, fun r s' _ hrun => ?_⟩
  subst hl
  cases hrun
  obtain ⟨hlive, hofile⟩ := h.tabled.table p _ ht
  refine ⟨{ L p with table := none }, Inv.retable h rfl rfl rfl rfl rfl rfl ?_, rfl⟩
  refine h.tabled.restate (.inr ⟨rfl, rfl⟩) (fun _ => hofile) nofun ?_ ?_
  · grind
  · intro q t _ hq
    exact h.tabled.ne_of_child hq (by rw [hlive]; decide) rfl

theorem knows_reap (q : P) : Knows p (act (.reap q)) (fun _ l' => l' = l) l := by
  refine wp_perform fun s L h hl => ⟨nofun, fun r s' _ hrun => ?_⟩
  subst hl
  simp only [run] at hrun
  split at hrun
  · rename_i hzombie
    cases hrun
    have hembryo : s.state q ≠ .embryo := by
      rw [hzombie]
      decide
    refine ⟨L p, Inv.retable h rfl rfl rfl rfl rfl rfl ?_, rfl⟩
    refine h.tabled.restate (.inl ?_) (fun _ => h.tabled.closed q (.inr hzombie)) (fun _ ht => ht) ?_ ?_
    · rw [hzombie]
      decide
    · exact fun c t hc => ⟨h.tabled.ne_of_child hc hembryo, hc⟩
    · exact fun q' t _ hc => h.tabled.ne_of_child hc hembryo rfl
  · cases hrun

theorem knows_setChild {t tc : Table} {np : P} {fd : Fin NOFILE} (ht : l.table = some t)
    (hchild : l.child = some (np, tc)) (hfree : tc fd = none) (hheld : 1 ≤ slots t f + l.hand f)
    (hraw : f ∉ l.raw) :
    Knows p (act (.setChild np fd f)) (fun _ l' => l' = { l with
      hand := l.hand + Pi.single f (-1), child := some (np, update tc fd (some f)) }) l := by
  refine wp_perform fun s L h hl => ⟨nofun, fun r s' _ hrun => ?_⟩
  subst hl
  obtain ⟨hembryo, hofile⟩ := h.tabled.child p np tc hchild
  have hne : np ≠ p := Ne.symm (h.tabled.ne_of_table ht (by rw [hembryo]; decide))
  rw [← h.held_eq ht f] at hheld
  cases hrun
  rw [hofile]
  refine ⟨_, ⟨?_, ?_, ?_⟩, rfl⟩
  · have hpass : held (s.setTable np (update tc fd (some f))) (update L p { L p with
        hand := (L p).hand + Pi.single f (-1), child := some (np, update tc fd (some f)) }) =
        update (update (held s L) p (held s L p + Pi.single f (-1))) np (held s L np + Pi.single f 1) := by
      funext q g
      by_cases hq : q = np
      · subst hq
        simp only [held, Shared.setTable, update_self, update_of_ne hne, slots_update, hofile,
          hfree, one, Pi.add_apply, Pi.zero_apply]
        ring
      · by_cases hqp : q = p
        · subst hqp
          simp only [held, Shared.setTable, update_self, update_of_ne hq, Pi.add_apply]
          ring
        · simp [held, Shared.setTable, hq, hqp]
    rw [hpass, proj_update Local.raw, update_eq_self]
    exact h.counted.pass hne hheld hraw
  · rw [proj_update Local.ends, update_eq_self]
    exact h.ended
  · exact h.tabled.setChild hchild rfl rfl

/-! ## Functions -/

theorem knows_fileread (ht : l.table = some t) (hheld : 1 ≤ slots t f + l.hand f)
    (hraw : f ∉ l.raw) : Knows p (fileread f) (fun _ l' => l' = l) l := by
  refine wp_bind (knows_readFile ht hheld hraw) ?_
  rintro ff l' ⟨htype, rfl⟩
  split
  · exact rfl
  · split
    · exact rfl
    · split
      · exact rfl
      · -- no other type is left
        cases hff : ff.type <;> contradiction

/-- `writei` fails or writes all, to a file and to the console. -/
theorem writei_whole (i : InodePtr) (src buf : List UInt8) (off : UInt32) {n : UInt32} (hn : n.toNat < 2 ^ 31)
    {k : Kernel} {devsw : Devsw} (hdevsw : k.devsw = consoleinit buf devsw) :
    Ensures (writei i src off n) k (fun r _ => r = -1 ∨ r = n.toNat) fun _ => True := by
  unfold writei
  rw [ensures_bind, ensures_get]
  dsimp only
  split
  · split
    · exact .inl rfl
    · rw [ensures_pure, hdevsw]
      unfold consoleinit
      dsimp only
      split
      · refine .inr ?_
        show (n.toInt32.toInt : Int) = n.toNat
        rw [← Int32.toInt_toBitVec, UInt32.toBitVec_toInt32, BitVec.toInt_eq_toNat_of_lt]
        · rfl
        · rw [UInt32.toNat_toBitVec]
          omega
      · exact .inl rfl
  · split
    · exact .inl rfl
    · split
      · exact .inl rfl
      · refine (ensures_true _ _).bind fun _ _ _ => ?_
        rw [ensures_bind, ensures_get]
        split
        · exact (ensures_true _ _).bind fun _ _ _ => (ensures_true _ _).bind fun _ _ _ => .inr rfl
        · exact .inr rfl

theorem Writei.whole (w : Writei) (round : Nat) {n : Nat} (hn : n < 2 ^ 31) :
    ∀ r, w.result round n = some r → r = -1 ∨ r = n := by
  have hsize : (UInt32.ofNat n).toNat = n := by
    rw [UInt32.toNat_ofNat', Nat.mod_eq_of_lt (by omega)]
  intro r hr
  unfold Writei.result at hr
  split at hr
  · rename_i hrun
    cases hr
    have hwhole := (writei_whole w.ip (w.src round) (w.src round) (w.off round) (by omega) rfl).of_ok hrun
    rwa [hsize] at hwhole
  · cases hr

theorem knows_filewriteLoop (w : Writei) (n : Nat) (fuel k i : Nat) :
    Knows p (filewriteLoop w n fuel k i) (fun _ l' => l' = l) l := by
  induction fuel generalizing k i with
  | zero => exact rfl
  | succ fuel ih =>
    unfold filewriteLoop
    split
    · dsimp only
      split
      · exact rfl
      · rename_i r hr
        have hwhole := w.whole k (by unfold maxWrite; omega) r hr
        split
        · exact rfl
        · rw [if_neg (by omega)]
          exact ih (k + 1) _
    · exact rfl

theorem knows_filewrite (ht : l.table = some t) (hheld : 1 ≤ slots t f + l.hand f)
    (hraw : f ∉ l.raw) (w : Writei) (n : Nat) : Knows p (filewrite f w n) (fun _ l' => l' = l) l := by
  refine wp_bind (knows_readFile ht hheld hraw) ?_
  rintro ff l' ⟨htype, rfl⟩
  split
  · exact rfl
  · split
    · exact rfl
    · split
      · exact knows_filewriteLoop w n n 0 0
      · cases hff : ff.type <;> contradiction

variable {hand : FileId → ℤ} {raw : Finset FileId}

theorem knows_drop (hheld : 1 ≤ slots t f + hand f) :
    Knows p (fileclose f) (fun _ l' => l' = Local.holds t (hand + Pi.single f (-1)) (raw.erase f))
      (Local.holds t hand raw) :=
  knows_fileclose rfl hheld fun _ => le_rfl

theorem knows_install (fd : Fin NOFILE) (x : Option FileId) :
    Knows p (act (.setOfile fd x)) (fun _ l' =>
      l' = Local.holds (update t fd x) (hand + (one (t fd) - one x)) raw) (Local.holds t hand raw) :=
  knows_setOfile rfl fd x

theorem single_add_neg (f : FileId) : (Pi.single f 1 + Pi.single f (-1) : FileId → ℤ) = 0 := by
  rw [← Pi.single_add]
  simp

theorem knows_drop_last (hraw : raw ⊆ {f}) :
    Knows p (fileclose f) (fun _ l' => l' = Local.has t) (Local.holds t (Pi.single f 1) raw) := by
  have hpos := slots_nonneg t f
  grind [wp_mono, knows_drop, Pi.single_eq_same, Finset.erase_eq_empty_iff, single_add_neg, Local.holds_zero]

theorem knows_drop_first {f0 f1 : FileId} :
    Knows p (fileclose f0) (fun _ l' => l' = Local.holds t (Pi.single f1 1) (raw.erase f0))
      (Local.holds t (Pi.single f0 1 + Pi.single f1 1) raw) := by
  have hpos := slots_nonneg t f0
  refine wp_mono (knows_drop ?_) ?_
  all_goals grind [Pi.add_apply, Pi.single_eq_same, add_right_comm, single_add_neg, zero_add]

theorem knows_alloc :
    Knows p filealloc (fun r l' => (r = none ∧ l' = Local.holds t hand raw) ∨
      ∃ f, r = some f ∧ slots t f + hand f = 0 ∧ l' = Local.holds t (hand + Pi.single f 1) (insert f raw))
      (Local.holds t hand raw) :=
  knows_filealloc rfl

theorem knows_pipealloc (page : Option PipeId) :
    Knows p (pipealloc page) (fun r l' => (r = none ∧ l' = Local.has t) ∨
      ∃ f0 f1, r = some (f0, f1) ∧ l' = Local.holds t (Pi.single f0 1 + Pi.single f1 1) ∅) (Local.has t) := by
  rw [← Local.holds_zero]
  refine wp_bind knows_alloc ?_
  rintro r l' (⟨rfl, rfl⟩ | ⟨f0, rfl, -, rfl⟩)
  · exact .inl ⟨rfl, rfl⟩
  rw [zero_add, insert_empty_eq]
  refine wp_bind knows_alloc ?_
  rintro r l' (⟨rfl, rfl⟩ | ⟨f1, rfl, hnew, rfl⟩)
  · refine wp_then (knows_drop_last subset_rfl) fun _ => ?_
    exact .inl ⟨rfl, rfl⟩
  have hne : f1 ≠ f0 := by
    rintro rfl
    have hpos := slots_nonneg t f1
    simp only [Pi.single_eq_same] at hnew
    omega
  cases page with
  | none =>
    -- both files are closed without a type
    refine wp_then knows_drop_first fun _ => ?_
    refine wp_bind (knows_drop_last ?_) ?_
    · grind
    · rintro _ l' rfl
      exact .inl ⟨rfl, rfl⟩
  | some q =>
    refine wp_then (knows_kalloc q) fun _ => ?_
    refine wp_bind (knows_setPipe (by simp [Local.holds]) ?_) ?_
    · simp [Local.holds, Local.has, Local.rest]
    rintro _ l' rfl
    refine wp_bind (knows_setPipe (by simp [Local.holds, hne]) ?_) ?_
    · simp [Local.holds, Local.has, Local.rest]
    rintro _ l' rfl
    refine .inr ⟨f0, f1, rfl, ?_⟩
    have hempty : ((insert f1 {f0} : Finset FileId).erase f0).erase f1 = ∅ := by
      ext g
      simp
      tauto
    simp [Local.holds, Local.has, Local.rest, hempty]

/-! ## Calls -/

theorem argfd_eq_some {fd : Int} {i : Fin NOFILE} (h : argfd t fd = some (i, f)) :
    t i = some f := by
  unfold argfd at h
  split at h
  · obtain ⟨g, hg, ⟨⟩⟩ := Option.map_eq_some_iff.1 h
    exact hg
  · cases h

theorem fdalloc_eq_some {fd : Fin NOFILE} (h : fdalloc t = some fd) : t fd = none := by
  simpa using List.find?_some h

theorem knows_sysDup (fd : Int) (t : Table) :
    Knows p (sysDup fd t) (fun _ l' => ∃ t', l' = Local.has t') (Local.has t) := by
  unfold sysDup
  split
  · exact ⟨t, rfl⟩
  · rename_i i f harg
    split
    · exact ⟨t, rfl⟩
    · rename_i fd' hfree
      have hslot := slots_pos (argfd_eq_some harg)
      have hfree := fdalloc_eq_some hfree
      rw [← Local.holds_zero]
      refine wp_then (knows_install fd' (some f)) fun _ => ?_
      refine wp_mono (knows_filedup rfl ?_ (notMem_empty f)) ?_
      · simp only [Local.holds, slots_update, hfree, one, Pi.add_apply, Pi.sub_apply, Pi.zero_apply, Pi.single_eq_same]
        omega
      grind [sysDup, Local.has, Local.holds, Local.rest, one]

theorem knows_sysRead (fd : Int) (t : Table) :
    Knows p (sysRead fd t) (fun _ l' => ∃ t', l' = Local.has t') (Local.has t) := by
  unfold sysRead
  split
  · exact ⟨t, rfl⟩
  · rename_i i f harg
    have hslot : 1 ≤ slots t f + 0 := by simpa using slots_pos (argfd_eq_some harg)
    exact wp_mono (knows_fileread rfl hslot (notMem_empty f)) fun _ l' h => ⟨t, h⟩

theorem knows_sysWrite (fd : Int) (w : Writei) (n : Nat) (t : Table) :
    Knows p (sysWrite fd w n t) (fun _ l' => ∃ t', l' = Local.has t') (Local.has t) := by
  unfold sysWrite
  split
  · exact ⟨t, rfl⟩
  · rename_i i f harg
    have hslot : 1 ≤ slots t f + 0 := by simpa using slots_pos (argfd_eq_some harg)
    exact wp_mono (knows_filewrite rfl hslot (notMem_empty f) w n) fun _ l' h => ⟨t, h⟩

theorem knows_sysClose (fd : Int) (t : Table) :
    Knows p (sysClose fd t) (fun _ l' => ∃ t', l' = Local.has t') (Local.has t) := by
  unfold sysClose
  split
  · exact ⟨t, rfl⟩
  · rename_i i f harg
    rw [← Local.holds_zero]
    refine wp_then (knows_install i none) fun _ => ?_
    have hhand : 0 + (one (t i) - one none) = Pi.single f 1 := by
      rw [argfd_eq_some harg]
      simp [one]
    rw [hhand]
    exact wp_mono (knows_drop_last (Finset.empty_subset _)) fun _ l' h => ⟨_, h⟩

/-- The entry has no type while it is in the table already, but only its own process can see it. -/
theorem knows_sysOpen (found : Bool) (omode : UInt32) (t : Table) :
    Knows p (sysOpen found omode t) (fun _ l' => ∃ t', l' = Local.has t') (Local.has t) := by
  unfold sysOpen
  split
  · exact ⟨t, rfl⟩
  rw [← Local.holds_zero]
  refine wp_bind knows_alloc ?_
  rintro r l' (⟨rfl, rfl⟩ | ⟨f, rfl, -, rfl⟩)
  · exact ⟨t, rfl⟩
  rw [zero_add, insert_empty_eq]
  simp only
  split
  · exact wp_mono (knows_drop_last subset_rfl) fun _ l' h => ⟨t, h⟩
  · rename_i fd hfree
    refine wp_then (knows_install fd (some f)) fun _ => ?_
    refine wp_mono (knows_setInode (Finset.mem_singleton_self f) _ _) ?_
    rintro _ l' rfl
    refine ⟨update t fd (some f), ?_⟩
    simp [Local.holds, Local.has, Local.rest, fdalloc_eq_some hfree, one]

theorem knows_sysPipe (page : Option PipeId) (t : Table) :
    Knows p (sysPipe page t) (fun _ l' => ∃ t', l' = Local.has t') (Local.has t) := by
  refine wp_bind (knows_pipealloc page) ?_
  rintro r l' (⟨rfl, rfl⟩ | ⟨rf, wf, rfl, rfl⟩)
  · exact ⟨t, rfl⟩
  have hclose : ∀ t, Knows p (do fileclose rf; fileclose wf) (fun _ l' => ∃ t', l' = Local.has t')
      (Local.holds t (Pi.single rf 1 + Pi.single wf 1) ∅) := by
    intro t
    refine wp_then knows_drop_first fun _ => ?_
    refine wp_mono (knows_drop_last ?_) fun _ l' h => ⟨t, h⟩
    exact Finset.empty_subset _
  simp only
  split
  · exact hclose t
  · rename_i fd0 hfree0
    have hfree0 := fdalloc_eq_some hfree0
    refine wp_then (knows_install fd0 (some rf)) fun _ => ?_
    have hhand : Pi.single rf 1 + Pi.single wf 1 + (one (t fd0) - one (some rf)) = Pi.single wf 1 := by
      rw [hfree0]
      simp [one]
    rw [hhand]
    split
    · -- the second `fdalloc` fails: the first descriptor is taken back
      refine wp_then (knows_install fd0 none) fun _ => ?_
      have hback : Pi.single wf 1 + (one (update t fd0 (some rf) fd0) - one none) =
          Pi.single rf 1 + Pi.single wf 1 := by
        simp [one, add_comm]
      rw [hback]
      exact hclose _
    · rename_i fd1 hfree1
      refine wp_mono (knows_install fd1 (some wf)) ?_
      rintro _ l' rfl
      refine ⟨update (update t fd0 (some rf)) fd1 (some wf), ?_⟩
      rw [fdalloc_eq_some hfree1]
      simp [Local.holds, Local.has, Local.rest, one]

/-- In `fork`, with what has been given to the child. -/
def Local.forks (t : Table) (np : P) (tc : Table) : Local P :=
  { (Local.has t : Local P) with child := some (np, tc) }

theorem knows_forkFile (t tc : Table) (np : P) {fd : Fin NOFILE} (hfree : tc fd = none) :
    Knows p (forkFile np fd (t fd)) (fun _ l' => l' = Local.forks t np (update tc fd (t fd)))
      (Local.forks t np tc) := by
  unfold forkFile
  split
  · rename_i hnone
    rw [hnone, ← hfree, update_eq_self]
    exact rfl
  · rename_i f hsome
    have hslot := slots_pos hsome
    refine wp_bind (knows_filedup rfl ?_ (notMem_empty f)) ?_
    · simpa [Local.forks, Local.has, Local.rest] using hslot
    rintro _ l' rfl
    refine wp_mono (knows_setChild rfl rfl hfree ?_ (notMem_empty f)) ?_
    · simp only [Local.forks, Local.has, Local.rest, Pi.add_apply, Pi.zero_apply, Pi.single_eq_same]
      omega
    · rintro _ l' rfl
      simp [Local.forks, Local.has, Local.rest, single_add_neg, hsome]

theorem knows_forkFiles (t : Table) (np : P) (fds : List (Fin NOFILE)) (hnodup : fds.Nodup) (tc : Table)
    (hfree : ∀ fd ∈ fds, tc fd = none) :
    Knows p (forkFiles np t fds) (fun _ l' => ∃ tc', l' = Local.forks t np tc') (Local.forks t np tc) := by
  induction fds generalizing tc with
  | nil => exact ⟨tc, rfl⟩
  | cons fd fds ih =>
    refine wp_bind (knows_forkFile t tc np (hfree fd List.mem_cons_self)) ?_
    grind

theorem knows_fork (np : Option P) (mem : Bool) (t : Table) :
    Knows p (fork np mem t) (fun _ l' => ∃ t', l' = Local.has t') (Local.has t) := by
  cases np with
  | none => exact ⟨t, rfl⟩
  | some np =>
    refine wp_then (knows_allocproc rfl np) fun _ => ?_
    cases mem with
    | false =>
      refine wp_mono (knows_freeproc rfl) ?_
      rintro _ l' rfl
      exact ⟨t, rfl⟩
    | true =>
      refine wp_bind (knows_forkFiles t np _ (List.nodup_finRange NOFILE) _ fun _ _ => rfl) ?_
      rintro _ l' ⟨tc, rfl⟩
      refine wp_mono (knows_start rfl) ?_
      rintro _ l' rfl
      exact ⟨t, rfl⟩

theorem knows_exitFile (t : Table) (fd : Fin NOFILE) :
    Knows p (exitFile fd (t fd)) (fun _ l' => l' = Local.has (update t fd none)) (Local.has t) := by
  unfold exitFile
  split
  · rename_i hnone
    rw [← hnone, update_eq_self]
    exact rfl
  · rename_i f hsome
    -- between the two the entry of the table is not counted
    change Knows p _ _ (Local.holds t 0 ∅)
    refine wp_bind (knows_drop ?_) ?_
    · simpa using slots_pos hsome
    rintro _ l' rfl
    refine wp_mono (knows_install fd none) ?_
    rintro _ l' rfl
    rw [hsome, zero_add]
    simp [Local.holds, Local.has, Local.rest, one, Pi.single_neg]

theorem knows_exitFiles (t : Table) (fds : List (Fin NOFILE)) (hnodup : fds.Nodup) (t' : Table)
    (hopen : ∀ fd ∈ fds, t' fd = t fd) (hclosed : ∀ fd, fd ∉ fds → t' fd = none) :
    Knows p (exitFiles t fds) (fun _ l' => l' = Local.has fun _ => none) (Local.has t') := by
  induction fds generalizing t' with
  | nil =>
    have hall : t' = fun _ => none := funext fun fd => hclosed fd List.not_mem_nil
    rw [hall]
    exact rfl
  | cons fd fds ih =>
    unfold exitFiles
    rw [← hopen fd List.mem_cons_self]
    refine wp_bind (knows_exitFile t' fd) ?_
    grind

theorem knows_exit : Knows p exit (fun _ l' => l' = Local.rest) (Local.rest : Local P) := by
  refine wp_then (knows_enter Local.rest) fun t => ?_
  refine wp_bind (knows_exitFiles t _ (List.nodup_finRange NOFILE) t (fun _ _ => rfl)
    fun fd hfd => absurd (List.mem_finRange fd) hfd) ?_
  rintro _ l' rfl
  exact knows_zombie rfl rfl

theorem knows_syscall {body : Table → Ft P Unit}
    (hbody : ∀ t, Knows p (body t) (fun _ l' => ∃ t', l' = Local.has t') (Local.has t)) :
    Knows p (syscall body) (fun _ l' => l' = Local.rest) (Local.rest : Local P) := by
  refine wp_then (knows_enter Local.rest) fun t => ?_
  refine wp_bind (hbody t) ?_
  rintro _ l' ⟨t', rfl⟩
  exact knows_leave (Local.has t')

theorem knows_body (c : Call P) : Knows p (body c) (fun _ l' => l' = Local.rest) (Local.rest : Local P) := by
  cases c with
  | dup fd => exact knows_syscall (knows_sysDup fd)
  | read fd => exact knows_syscall (knows_sysRead fd)
  | write fd w n => exact knows_syscall (knows_sysWrite fd w n)
  | close fd => exact knows_syscall (knows_sysClose fd)
  | openFile found omode => exact knows_syscall (knows_sysOpen found omode)
  | pipe page => exact knows_syscall (knows_sysPipe page)
  | fork np mem => exact knows_syscall (knows_fork np mem)
  | exit => exact knows_exit
  | wait q => exact knows_syscall fun t => wp_mono (knows_reap q) fun _ l' h => ⟨t, h⟩

/-! ## Runs -/

theorem boot_inv (first : P) : Inv (boot first).shared fun _ => (Local.rest : Local P) where
  counted :=
    { count := fun f => by simp [held, boot, Local.rest, slots_empty]
      nonneg := fun p f => by simp [held, boot, Local.rest, slots_empty]
      typed := fun f hpos => absurd hpos (lt_irrefl 0)
      unused := fun _ _ => rfl
      new := fun p f hf => absurd hf (notMem_empty f) }
  ended :=
    { total := fun e => by simp [endOf, boot, Local.rest, Shared.isOpen]
      nonneg := fun _ _ => le_rfl }
  tabled :=
    { table := nofun
      closed := fun _ _ => rfl
      child := nofun
      children := nofun }

theorem run_verified {first : P} {c : Config P (Shared P) Unit Unit Res}
    (hrun : Relation.ReflTransGen (fun c c' => ∃ e, kit.step c e = some c') (boot first) c) :
    logic.Verified kit (fun _ => (Local.rest : Local P)) c := by
  -- every call is allowed, and every action
  have hallow : ∀ (c : Config P (Shared P) Unit Unit Res) (e : Move P (Call P)), logic.Allowed (fun _ => True) c e := by
    intro c e
    cases e with
    | call p call => trivial
    | act p => exact fun _ _ => trivial
    | back p => trivial
  have hreach := Relation.ReflTransGen.mono
    (fun c _ (h : ∃ e, kit.step c e = some _) => h.imp fun e he => And.intro (hallow c e) he) _ _ hrun
  refine Logic.Verified.of_run ?_ ⟨fun _ => Local.rest, boot_inv first, fun _ => rfl⟩ hreach
  rintro p h call m - hm
  cases hm
  exact knows_body call

/-- In every interleaving of the calls no process runs into a panic, and whenever no call is in progress
the file table agrees with the descriptors of all processes and with the pipes. -/
theorem file_table {first : P} {c : Config P (Shared P) Unit Unit Res}
    (hrun : Relation.ReflTransGen (fun c c' => ∃ e, kit.step c e = some c') (boot first) c) :
    (∀ p msg, c.next p ≠ some (.panic msg)) ∧ ((∀ p, c.prog p = none) → Settled c.shared) := by
  have hverified := run_verified hrun
  refine ⟨fun p msg hnext => ?_, fun hidle => ?_⟩
  · exact hverified.safe hnext msg rfl
  · exact (hverified.idle hidle).settled

end Invariant

/-- A kernel whose inode 0 is the console. -/
def consoleKernel : Kernel where
  disk := fun _ _ => 0
  sb := superblockAt fun _ => 0
  log := { start := 0, size := 0 }
  lh := []
  outstanding := 1
  inode := fun _ =>
    { inum := 1, ref := 1, locked := true, valid := true, din := { newDinode T_DEV with major := CONSOLE } }
  devsw := { read := fun _ => none, write := fun _ => none }

/-- A process makes a pipe and forks; while the child exits, the parent closes its write end.  Then it opens the
console and writes 2000 bytes to it, in two rounds. -/
def sharing : List (Move (Fin 2) (Call (Fin 2))) :=
  (.call 0 (.pipe (some 5)) :: List.replicate 9 (.act 0)) ++
  (.back 0 :: .call 0 (.fork (some 1) true) :: List.replicate 8 (.act 0)) ++
  [.back 0, .call 1 .exit, .act 1, .act 1, .call 0 (.close 1), .act 1, .act 0, .act 0, .act 1, .act 0, .act 1,
    .act 1, .act 0, .act 0, .back 1, .back 0] ++
  [.call 0 (.openFile true O_RDWR), .act 0, .act 0, .act 0, .act 0, .act 0, .back 0,
    .call 0 (.write 1 ⟨fun _ => consoleKernel, ⟨0, NINODE_pos⟩, fun _ => [], fun _ => 0⟩ 2000),
    .act 0, .act 0, .act 0, .back 0]

theorem file_table_sharing : ∃ c, Relation.ReflTransGen (fun c c' => ∃ e, kit.step c e = some c')
    (boot (0 : Fin 2)) c ∧ (c.shared.file ⟨0, by decide⟩).ref = 1 ∧ c.shared.pipe 5 = some ⟨true, false⟩ ∧
    Settled c.shared := by
  have hrun : (sharing.foldlM kit.step (boot 0)).map (fun c => ((c.shared.file ⟨0, by decide⟩).ref, c.shared.pipe 5,
      (c.prog 0).isNone, (c.prog 1).isNone)) = some (1, some ⟨true, false⟩, true, true) := by
    decide +kernel
  obtain ⟨c, hc, hsee⟩ := Option.map_eq_some_iff.1 hrun
  simp only [Prod.mk.injEq, Option.isNone_iff_eq_none] at hsee
  obtain ⟨href, hpipe, hzero, hone⟩ := hsee
  have hreach := reachable_of_foldlM sharing hc
  refine ⟨c, hreach, href, hpipe, (file_table hreach).2 fun p => ?_⟩
  fin_cases p
  · exact hzero
  · exact hone

end AsoPracticas.Xv6.Ftable
