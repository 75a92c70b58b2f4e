import Mathlib.Data.List.Chain
import Mathlib.Tactic

/-!
# FreeList — circular lists, and segments kept apart

A circular list is a function `next` whose nodes are those of a plain list.  A search from any of its
nodes finds a node that it looks for, in as many steps as there are nodes.

Segments of memory are kept in the order of their addresses with a gap between any two; a segment next
to one of the list is joined to it (`glue`).
-/

namespace AsoPracticas.Lib

open List (cons_append length_cons mem_cons_of_mem mem_cons_self pairwise_cons)

/-! ## Circular lists -/

section Closed

variable {α : Type*} {next : α → α} {stop : α → Bool}

/-- The nodes from `b` on are those of `l`, and the last one leads back to `b`. -/
def Closed (next : α → α) (b : α) (l : List α) : Prop :=
  (b :: (l ++ [b])).IsChain fun x y => next x = y

theorem chain_congr {next' : α → α} {l : List α} {b : α}
    (h : (l ++ [b]).IsChain fun x y => next x = y) (hl : ∀ a ∈ l, next' a = next a) :
    (l ++ [b]).IsChain fun x y => next' x = y := by
  induction l with
  | nil => exact List.isChain_singleton b
  | cons a l ih =>
    cases l with
    | nil | cons c l => grind

theorem Closed.rotate {b p : α} {l u v : List α} (h : Closed next b l) (hl : b :: l = u ++ p :: v) :
    Closed next p (v ++ u) := by
  cases u with
  | nil =>
    cases hl
    rw [List.append_nil]
    exact h
  | cons c u =>
    grind [Closed, List.isChain_split]

/-- Follow `next` up to a node that is looked for. -/
def search (next : α → α) (stop : α → Bool) : Nat → α → Option α
  | 0, _ => none
  | n + 1, p => if stop p then some p else search next stop n (next p)

theorem search_mono {n m : Nat} {p q : α} (h : search next stop n p = some q) (hnm : n ≤ m) :
    search next stop m p = some q := by
  induction n generalizing m p with
  | zero =>
    cases h
  | succ n ih =>
    obtain ⟨k, rfl⟩ := Nat.exists_eq_add_of_le' hnm
    rw [← Nat.add_assoc, search]
    rw [search] at h
    grind

theorem search_chain {p : α} {l : List α} {n : Nat} (h : (p :: l).IsChain fun x y => next x = y)
    (hq : ∃ q ∈ p :: l, stop q = true) (hn : l.length < n) :
    ∃ q ∈ p :: l, search next stop n p = some q ∧ stop q = true := by
  induction l generalizing p n with
  | nil =>
    obtain ⟨m, rfl⟩ := Nat.exists_eq_add_of_lt hn
    obtain ⟨q, hmem, hstop⟩ := hq
    rw [List.mem_singleton] at hmem
    subst hmem
    exact ⟨q, List.mem_singleton_self q, by rw [search, if_pos hstop], hstop⟩
  | cons r l ih =>
    obtain ⟨m, rfl⟩ := Nat.exists_eq_add_of_lt hn
    by_cases hp : stop p = true
    · exact ⟨p, mem_cons_self, by rw [search, if_pos hp], hp⟩
    · rw [List.isChain_cons_cons] at h
      obtain ⟨q, hmem, hstop⟩ := hq
      have hmem' : q ∈ r :: l := by grind
      obtain ⟨q', hq', hsearch, hstop'⟩ := ih (n := (r :: l).length + m) h.2 ⟨q, hmem', hstop⟩
        (by rw [length_cons]; omega)
      refine ⟨q', mem_cons_of_mem _ hq', ?_, hstop'⟩
      rw [search, if_neg hp, h.1]
      exact hsearch

theorem Closed.search {b p : α} {l : List α} {n : Nat} (h : Closed next b l) (hp : p ∈ b :: l)
    (hq : ∃ q ∈ b :: l, stop q = true) (hn : l.length < n) :
    ∃ q ∈ b :: l, Lib.search next stop n p = some q ∧ stop q = true := by
  obtain ⟨u, v, hl⟩ := List.append_of_mem hp
  have hperm : (p :: (v ++ u)).Perm (b :: l) := by
    rw [hl]
    exact (List.perm_append_comm : (u ++ p :: v).Perm _).symm
  have hchain : (p :: (v ++ u)).IsChain fun x y => next x = y := by
    have hclosed := h.rotate hl
    unfold Closed at hclosed
    exact hclosed.left_of_append
  obtain ⟨q, hmem, hstop⟩ := hq
  have hlen := hperm.length_eq
  simp only [length_cons] at hlen
  obtain ⟨q', hq', hsearch, hstop'⟩ :=
    search_chain (n := n) hchain ⟨q, hperm.mem_iff.2 hmem, hstop⟩ (by omega)
  exact ⟨q', hperm.mem_iff.1 hq', hsearch, hstop'⟩

end Closed

/-! ## Segments -/

/-- `len` places from `start` on. -/
structure Seg where
  start : Nat
  len : Nat
  deriving DecidableEq, Repr

namespace Seg

def stop (s : Seg) : Nat := s.start + s.len

/-- `s` is before `t`, with a gap between them. -/
def Before (s t : Seg) : Prop := s.stop < t.start

/-- The segments share no place. -/
def Apart (s t : Seg) : Prop := s.stop ≤ t.start ∨ t.stop ≤ s.start

/-- `s` followed by the places of the next segment. -/
def join (s t : Seg) : Seg where
  start := s.start
  len := s.len + t.len

theorem Apart.symm {s t : Seg} (h : s.Apart t) : t.Apart s := Or.symm h

instance : Std.Symm Apart := ⟨fun _ _ h => h.symm⟩

theorem Apart.start_ne {s t : Seg} (h : s.Apart t) (hs : 0 < s.len) (ht : 0 < t.len) : s.start ≠ t.start := by
  simp only [Apart, stop] at h
  omega

theorem Apart.join {s t x : Seg} (hx : 0 < x.len) (hst : s.stop = t.start) (hs : x.Apart s)
    (ht : x.Apart t) : x.Apart (s.join t) := by
  simp only [Apart, Seg.join, stop] at *
  omega

/-- The places of `s` are places of `t`. -/
def Within (s t : Seg) : Prop := t.start ≤ s.start ∧ s.stop ≤ t.stop

theorem Apart.within {s t x : Seg} (h : x.Apart t) (hs : s.Within t) : x.Apart s := by
  simp only [Apart, Within, stop] at *
  omega

theorem Before.within {s t s' t' : Seg} (h : s.Before t) (hs : s'.Within s) (ht : t'.Within t) :
    s'.Before t' := by
  simp only [Before, Within] at *
  omega

theorem within_refl (s : Seg) : s.Within s := ⟨le_rfl, le_rfl⟩

/-- `s` before the segments of a list, joined to the first one if there is no gap. -/
def glue (s : Seg) : List Seg → List Seg
  | [] => [s]
  | t :: l => if s.stop = t.start then s.join t :: l else s :: t :: l

theorem glue_of_eq {s t : Seg} (l : List Seg) (h : s.stop = t.start) : glue s (t :: l) = s.join t :: l :=
  if_pos h

theorem glue_of_ne {s t : Seg} (l : List Seg) (h : s.stop ≠ t.start) : glue s (t :: l) = s :: t :: l :=
  if_neg h

def total (l : List Seg) : Nat := (l.map len).sum

theorem total_cons (s : Seg) (l : List Seg) : total (s :: l) = s.len + total l := rfl

theorem total_append (l l' : List Seg) : total (l ++ l') = total l + total l' := by
  simp [total]

theorem total_perm {l l' : List Seg} (h : l.Perm l') : total l = total l' := (h.map len).sum_nat

theorem total_glue (s : Seg) (l : List Seg) : total (glue s l) = s.len + total l := by
  cases l with
  | nil => rfl
  | cons t l =>
    by_cases h : s.stop = t.start
    · rw [glue_of_eq l h, total_cons, total_cons]
      exact Nat.add_assoc _ _ _
    · rw [glue_of_ne l h]
      rfl

variable {l : List Seg}

theorem forall_glue {P : Seg → Prop} {s : Seg}
    (hjoin : ∀ t ∈ l, s.stop = t.start → P s → P t → P (s.join t)) (hs : P s) (hl : ∀ t ∈ l, P t) :
    ∀ t ∈ glue s l, P t := by
  cases l with
  | nil =>
    intro t ht
    rw [List.mem_singleton.1 ht]
    exact hs
  | cons c l =>
    intro t ht
    by_cases hstop : s.stop = c.start
    all_goals grind [glue_of_eq, glue_of_ne]

theorem pairwise_glue {s : Seg} (hle : ∀ t ∈ l, s.stop ≤ t.start)
    (hl : l.Pairwise Before) (hpos : ∀ t ∈ l, 0 < t.len) : (glue s l).Pairwise Before := by
  cases l with
  | nil => exact List.pairwise_singleton _ _
  | cons c l =>
    rw [pairwise_cons] at hl
    by_cases hstop : s.stop = c.start
    · rw [glue_of_eq l hstop]
      refine pairwise_cons.2 ⟨fun t ht => ?_, hl.2⟩
      grind [Before, join, stop]
    · rw [glue_of_ne l hstop]
      refine pairwise_cons.2 ⟨fun t ht => ?_, pairwise_cons.2 hl⟩
      grind [Before, stop]

theorem glue_eq_cons (s : Seg) (l : List Seg) : ∃ t l', glue s l = t :: l' ∧ t.start = s.start ∧ s.len ≤ t.len := by
  cases l with
  | nil => exact ⟨s, [], rfl, rfl, le_rfl⟩
  | cons c l =>
    by_cases h : s.stop = c.start
    · exact ⟨_, _, glue_of_eq l h, rfl, Nat.le_add_right _ _⟩
    · exact ⟨_, _, glue_of_ne l h, rfl, le_rfl⟩

theorem exists_le_glue (s : Seg) {t : Seg} (ht : t ∈ l) : ∃ t' ∈ glue s l, t.len ≤ t'.len := by
  cases l with
  | nil =>
    cases ht
  | cons c l =>
    by_cases h : s.stop = c.start
    · rw [glue_of_eq l h]
      rcases List.mem_cons.1 ht with rfl | ht
      · exact ⟨_, mem_cons_self, Nat.le_add_left _ _⟩
      · exact ⟨t, mem_cons_of_mem _ ht, le_rfl⟩
    grind [glue_of_ne]

/-- The segments in order, with `s` among them and joined to its neighbours. -/
def insert (s : Seg) : List Seg → List Seg
  | [] => [s]
  | c :: l => if s.start < c.start then glue s (c :: l) else glue c (insert s l)

theorem insert_of_lt {s c : Seg} (l : List Seg) (h : s.start < c.start) : insert s (c :: l) = glue s (c :: l) :=
  if_pos h

theorem insert_of_le {s c : Seg} (l : List Seg) (h : c.start ≤ s.start) : insert s (c :: l) = glue c (insert s l) :=
  if_neg (Nat.not_lt.2 h)

theorem total_insert (s : Seg) (l : List Seg) : total (insert s l) = s.len + total l := by
  induction l with
  | nil => rfl
  | cons c l ih => grind [insert_of_lt, total_glue, insert_of_le, total_cons]

theorem forall_insert {P : Seg → Prop} {s : Seg}
    (hjoin : ∀ s t, s.stop = t.start → P s → P t → P (s.join t)) (hs : P s) (hl : ∀ t ∈ l, P t) :
    ∀ t ∈ insert s l, P t := by
  induction l with
  | nil =>
    intro t ht
    rw [List.mem_singleton.1 ht]
    exact hs
  | cons c l ih =>
    have hrest := fun t ht => hl t (mem_cons_of_mem c ht)
    rcases Nat.lt_or_ge s.start c.start with h | h
    · rw [insert_of_lt l h]
      exact forall_glue (fun t _ => hjoin s t) hs hl
    · rw [insert_of_le l h]
      exact forall_glue (fun t _ => hjoin c t) (hl c mem_cons_self) (ih hrest)

theorem exists_le_insert (s : Seg) (l : List Seg) : ∃ t ∈ insert s l, s.len ≤ t.len := by
  induction l with
  | nil => exact ⟨s, List.mem_singleton_self s, le_rfl⟩
  | cons c l ih =>
    rcases Nat.lt_or_ge s.start c.start with h | h
    · obtain ⟨t, l', hglue, -, hlen⟩ := glue_eq_cons s (c :: l)
      grind [insert_of_lt]
    · obtain ⟨t, ht, hlen⟩ := ih
      obtain ⟨t', ht', hlen'⟩ := exists_le_glue c ht
      rw [insert_of_le l h]
      exact ⟨t', ht', hlen.trans hlen'⟩

theorem length_glue_le (s : Seg) (l : List Seg) : (glue s l).length ≤ l.length + 1 := by
  cases l with
  | nil => exact le_rfl
  | cons c l =>
    by_cases h : s.stop = c.start
    · rw [glue_of_eq l h]
      exact Nat.le_succ _
    · rw [glue_of_ne l h]
      exact le_rfl

theorem length_insert_le (s : Seg) (l : List Seg) : (insert s l).length ≤ l.length + 1 := by
  induction l with
  | nil => exact le_rfl
  | cons c l ih => grind [insert_of_lt, length_glue_le, insert_of_le]

theorem pairwise_insert {s : Seg} (hs : 0 < s.len) (hl : l.Pairwise Before)
    (hpos : ∀ t ∈ l, 0 < t.len) (hapart : ∀ t ∈ l, s.Apart t) : (insert s l).Pairwise Before := by
  induction l with
  | nil => exact List.pairwise_singleton _ _
  | cons c l ih =>
    have hc := hapart c mem_cons_self
    rcases Nat.lt_or_ge s.start c.start with h | h
    · grind [Before, Apart, stop, insert_of_lt, pairwise_glue, pairwise_cons]
    · rw [insert_of_le l h]
      rw [pairwise_cons] at hl
      have hrest := fun t ht => hpos t (mem_cons_of_mem c ht)
      refine pairwise_glue ?_ (ih hl.2 hrest fun t ht => hapart t (mem_cons_of_mem c ht)) ?_
      · refine forall_insert (fun _ _ _ hs _ => hs) ?_ fun t ht => (hl.1 t ht).le
        simp only [Apart, stop] at *
        omega
      · exact forall_insert (fun _ _ _ hs _ => Nat.add_pos_left hs _) hs hrest

theorem insert_eq {s a : Seg} {u v : List Seg} (hgaps : (u ++ a :: v).Pairwise Before)
    (ha : a.start ≤ s.start) (hv : ∀ c ∈ v, s.start < c.start) :
    insert s (u ++ a :: v) = u ++ glue a (glue s v) := by
  induction u with
  | nil =>
    rw [List.nil_append, insert_of_le v ha]
    cases v with
    | nil => rfl
    | cons c v =>
      rw [insert_of_lt v (hv c mem_cons_self)]
      rfl
  | cons c u ih =>
    rw [cons_append, pairwise_cons] at hgaps
    have hca := hgaps.1 a (by simp)
    have hc : c.start ≤ s.start := by
      simp only [Before, stop] at hca
      omega
    rw [cons_append, insert_of_le _ hc, ih hgaps.2]
    -- there is a gap after `c`, so nothing is joined to it
    cases u with
    | nil =>
      obtain ⟨a', w, hglue, hstart, -⟩ := glue_eq_cons a (glue s v)
      grind [Before, glue_of_ne]
    | cons d u => exact glue_of_ne _ (Nat.ne_of_lt (hgaps.1 d (by simp)))

theorem exists_last_before (s : Seg) {a : Seg} (hl : (a :: l).Pairwise Before) (ha : a.start ≤ s.start) :
    ∃ u c v, a :: l = u ++ c :: v ∧ c.start ≤ s.start ∧ ∀ d ∈ v, s.start < d.start := by
  induction l generalizing a with
  | nil => exact ⟨[], a, [], rfl, ha, nofun⟩
  | cons b l ih =>
    have hrest := (pairwise_cons.1 hl).2
    rcases Nat.lt_or_ge s.start b.start with h | h
    · refine ⟨[], a, b :: l, rfl, ha, List.forall_mem_cons.2 ⟨h, fun d hd => ?_⟩⟩
      have hbd := (pairwise_cons.1 hrest).1 d hd
      simp only [Before, stop] at hbd
      omega
    grind

end Seg

end AsoPracticas.Lib
