import Mathlib.Data.List.Nodup
import Mathlib.Logic.Function.Basic
import Mathlib.Tactic

/-!
# Links — circular doubly linked lists

A list of nodes is kept through a `next` and a `prev` pointer in each of them.  One more node, the head,
closes the circle and carries nothing.
-/

namespace AsoPracticas.Lib

open Function (update update_of_ne update_self)

variable {ν : Type*}

structure Links (ν : Type*) where
  next : ν → ν
  prev : ν → ν

namespace Links

/-- The loop `for (b = …; b != h; b = link(b)) if (p(b)) …`, `none` if it has not come to an end after
that many rounds.  The result is the node at which the loop stops, if it does not reach the head. -/
def scan [DecidableEq ν] (link : ν → ν) (h : ν) (p : ν → Bool) : Nat → ν → Option (Option ν)
  | 0, _ => none
  | n + 1, b =>
    if b = h then some none
    else if p b then some (some b)
    else scan link h p n (link b)

section Assignments

variable [DecidableEq ν]

def setNext (k : Links ν) (a b : ν) : Links ν := { k with next := update k.next a b }

def setPrev (k : Links ν) (a b : ν) : Links ν := { k with prev := update k.prev a b }

/-- `b->next->prev = b->prev; b->prev->next = b->next;` -/
def remove (k : Links ν) (b : ν) : Links ν :=
  let k := k.setPrev (k.next b) (k.prev b)
  k.setNext (k.prev b) (k.next b)

/-- `b->next = h->next; b->prev = h; h->next->prev = b; h->next = b;` -/
def pushFront (k : Links ν) (h b : ν) : Links ν :=
  let k := k.setNext b (k.next h)
  let k := k.setPrev b h
  let k := k.setPrev (k.next h) b
  k.setNext h b

end Assignments

def flip (k : Links ν) : Links ν := ⟨k.prev, k.next⟩

end Links

/-! ## Paths -/

/-- From `a` one comes to `c` through the nodes of the list. -/
def Path (k : Links ν) : ν → List ν → ν → Prop
  | a, [], c => k.next a = c ∧ k.prev c = a
  | a, b :: l, c => (k.next a = b ∧ k.prev b = a) ∧ Path k b l c

section Path

variable {k k' : Links ν} {a b c : ν} {l l1 l2 : List ν}

theorem path_append : Path k a (l1 ++ b :: l2) c ↔ Path k a l1 b ∧ Path k b l2 c := by
  induction l1 generalizing a with
  | nil => rfl
  | cons x l1 ih => simp only [List.cons_append, Path, ih, and_assoc]

theorem path_flip : Path k.flip c l.reverse a ↔ Path k a l c := by
  induction l generalizing a with
  | nil => exact and_comm
  | cons b l ih =>
    rw [List.reverse_cons, path_append, ih, Path, and_comm]
    exact and_congr_left' and_comm

theorem Path.congr (h : Path k a l c) (hnext : ∀ x ∈ a :: l, k'.next x = k.next x)
    (hprev : ∀ x ∈ l ++ [c], k'.prev x = k.prev x) : Path k' a l c := by
  induction l generalizing a with
  | nil | cons b l ih => grind [Path]

theorem Path.next_mem (h : Path k a l c) : k.next a ∈ l ++ [c] := by
  cases l with
  | nil => simp [h.1]
  | cons b l => simp [h.1.1]

theorem Path.prev_mem (h : Path k a l c) : k.prev c ∈ a :: l := by
  have hmem := (path_flip.2 h).next_mem
  simpa [Links.flip, or_comm] using hmem

theorem Path.bypass (h1 : Path k a l1 b) (h2 : Path k b l2 c) (hnodup : (a :: l1 ++ b :: l2).Nodup)
    (hc : c ∉ l1 ++ b :: l2) (hnext : k'.next (k.prev b) = k.next b)
    (hprev : k'.prev (k.next b) = k.prev b) (hnexts : ∀ x ≠ k.prev b, k'.next x = k.next x)
    (hprevs : ∀ x ≠ k.next b, k'.prev x = k.prev x) : Path k' a (l1 ++ l2) c := by
  induction l1 generalizing a with
  | nil =>
    obtain ⟨hab, hba⟩ := h1
    rw [hba] at hnext hprev hnexts
    cases l2 with
    | nil => grind [Path]
    | cons x l2 =>
      obtain ⟨⟨hbx, -⟩, hrest⟩ := h2
      rw [hbx] at hnext hprev hprevs
      refine ⟨⟨hnext, hprev⟩, hrest.congr (fun y hy => hnexts y ?_) fun y hy => hprevs y ?_⟩
      all_goals grind
  | cons y l1 ih =>
    obtain ⟨⟨hay, hya⟩, hrest⟩ := h1
    have hin := hrest.prev_mem
    have hout := h2.next_mem
    have hne : a ≠ k.prev b := by
      rintro rfl
      simp_all
    have hne' : y ≠ k.next b := by
      rintro rfl
      simp_all
    refine ⟨⟨?_, ?_⟩, ih hrest (List.nodup_cons.1 hnodup).2 ?_⟩
    · rw [hnexts a hne, hay]
    · rw [hprevs y hne', hya]
    · exact fun hmem => hc (List.mem_cons_of_mem _ hmem)

end Path

/-! ## Circles -/

/-- The nodes after the head are those of the list. -/
@[grind cases eager]
structure Circle (k : Links ν) (h : ν) (l : List ν) : Prop where
  nodup : (h :: l).Nodup
  path : Path k h l h

namespace Circle

variable {k : Links ν} {h b : ν} {l l1 l2 : List ν}

theorem nil (hnext : k.next h = h) (hprev : k.prev h = h) : Circle k h [] :=
  ⟨List.nodup_singleton h, hnext, hprev⟩

theorem flip (hk : Circle k h l) : Circle k.flip h l.reverse where
  nodup := by
    grind
  path := path_flip.2 hk.path

section Assignments

variable [DecidableEq ν]

theorem remove (hk : Circle k h (l1 ++ b :: l2)) : Circle (k.remove b) h (l1 ++ l2) := by
  obtain ⟨hnodup, hpath⟩ := hk
  obtain ⟨h1, h2⟩ := path_append.1 hpath
  have hhead := (List.nodup_cons.1 hnodup).1
  -- `b` is not its own successor, so the first assignment leaves its `prev` alone
  have hne : b ≠ k.next b := by
    intro heq
    have hmem := h2.next_mem
    grind
  have hsame : (k.setPrev (k.next b) (k.prev b)).prev b = k.prev b := update_of_ne hne ..
  refine ⟨?_, h1.bypass h2 hnodup hhead ?_ ?_ ?_ ?_⟩
  · refine hnodup.sublist ?_
    exact ((List.sublist_cons_self b l2).append_left l1).cons_cons h
  · simp only [Links.remove, Links.setNext, hsame]
    exact update_self ..
  · exact update_self ..
  · intro x hx
    simp only [Links.remove, Links.setNext, hsame]
    exact update_of_ne hx ..
  · exact fun x hx => update_of_ne hx ..

theorem pushFront (hk : Circle k h l) (hb : b ∉ h :: l) : Circle (k.pushFront h b) h (b :: l) := by
  obtain ⟨hnodup, hpath⟩ := hk
  have hbh : b ≠ h := fun heq => hb (heq ▸ List.mem_cons_self ..)
  have hnext : (k.pushFront h b).next = update (update k.next b (k.next h)) h b := rfl
  have hprev : (k.pushFront h b).prev = update (update k.prev b h) (k.next h) b := by
    simp only [Links.pushFront, Links.setNext, Links.setPrev, update_of_ne hbh.symm]
  have hmem := hpath.next_mem
  have hbn : b ≠ k.next h := by grind
  have hself : (k.pushFront h b).prev b = h := by rw [hprev, update_of_ne hbn, update_self]
  refine ⟨?_, ⟨by rw [hnext, update_self], hself⟩, ?_⟩
  · grind
  · cases l with
    | nil =>
      have hloop : k.next h = h := hpath.1
      refine ⟨?_, ?_⟩
      · rw [hnext, update_of_ne hbh, update_self, hloop]
      · rw [hprev, hloop, update_self]
    | cons x l =>
      obtain ⟨⟨hhx, -⟩, hrest⟩ := hpath
      refine ⟨⟨?_, ?_⟩, hrest.congr (fun y hy => ?_) fun y hy => ?_⟩
      · rw [hnext, update_of_ne hbh, update_self, hhx]
      · rw [hprev, hhx, update_self]
      · have hyh : y ≠ h := by
          rintro rfl
          simp_all
        have hyb : y ≠ b := by
          rintro rfl
          simp_all
        rw [hnext, update_of_ne hyh, update_of_ne hyb]
      · have hyx : y ≠ x := by
          rintro rfl
          simp_all
        have hyb : y ≠ b := by
          rintro rfl
          simp_all
        rw [hprev, hhx, update_of_ne hyx, update_of_ne hyb]

/-- The loop from the node after `a` comes to an end, and finds the first node it is looking for. -/
theorem scan_path (p : ν → Bool) {a : ν} (hpath : Path k a l h) (hout : h ∉ l) {n : Nat}
    (hn : l.length < n) : Links.scan k.next h p n (k.next a) = some (l.find? p) := by
  induction l generalizing a n with
  | nil =>
    obtain ⟨n, rfl⟩ := Nat.exists_eq_succ_of_ne_zero (Nat.ne_of_gt hn)
    rw [hpath.1, Links.scan, if_pos rfl]
    rfl
  | cons b l ih =>
    obtain ⟨n, rfl⟩ := Nat.exists_eq_succ_of_ne_zero (Nat.ne_of_gt (Nat.zero_lt_of_lt hn))
    grind [Path, Links.scan]

theorem scan_next (hk : Circle k h l) (p : ν → Bool) {n : Nat} (hn : l.length < n) :
    Links.scan k.next h p n (k.next h) = some (l.find? p) :=
  scan_path p hk.path (List.nodup_cons.1 hk.nodup).1 hn

theorem scan_prev (hk : Circle k h l) (p : ν → Bool) {n : Nat} (hn : l.length < n) :
    Links.scan k.prev h p n (k.prev h) = some (l.reverse.find? p) :=
  hk.flip.scan_next p (by rwa [List.length_reverse])

end Assignments

end Circle

end AsoPracticas.Lib
