import AsoPracticas.Lib.Threads
import AsoPracticas.Xv6.Directories
import Mathlib.Order.WithBot

/-!
# Walks — what a process knows while it walks and changes directories

The references, locks and unfinished changes of one process (`Local`), how they fit to the shared state
(`Own`), and the invariant of all processes together (`Inv`).  For each action there is a rule of
`Logic.wp` that says what a process has to know before it and what it knows afterwards.

* `Guard` — the conditions on runs: no name is entered in a directory that has lost its last link, and
  no directory is removed that is the parent of another one; with `strict`, also that no process locks a
  directory that another one is leaving;
* `Safe` — what the invariant gives before an action: `ilock` finds an allocated inode, and with `strict`
  locks are taken in the order of `rank`.
-/

namespace AsoPracticas.Xv6.Naming

open Lib
open Function (update update_of_ne update_self)

/-! ## Conditions on runs and what they give -/

variable {P : Type} {strict : Prop}

/-- No directory but `i` itself has `i` as its parent. -/
def Childless (node : Inum → Node) (i : Inum) : Prop :=
  ∀ c, c ≠ i → some (dotdot, i) ∉ (node c).ents

/-- What is asked of the actions of a run. -/
def Guard (strict : Prop) (s : Shared P) (p : P) : Act → Prop
  | .ialloc dp _ => (s.node dp).nlink ≠ 0
  | .writei d _ (some (n, _)) => Proper n → (s.node d).nlink ≠ 0
  | .writei d off none => ∀ n i, (s.node d).ents[off]? = some (some (n, i)) →
      (s.node i).kind = some .dir → Childless s.node i
  | .acquiresleep i => strict → ∀ q, q ≠ p → s.leaving q ≠ some i
  | _ => True

/-- Directories are ordered by age, and other inodes come after them. -/
def rank (s : Shared P) (i : Inum) : WithTop ℕ :=
  if (s.node i).kind = some .dir then (s.birth i : WithTop ℕ) else ⊤

/-- What holds before an action. -/
def Safe (strict : Prop) (s : Shared P) (p : P) : Act → Prop
  | .load i => (s.node i).kind ≠ none
  | .acquiresleep i => strict → ∀ x, s.lock x = some p →
      x ≠ i ∧ (s.lock i = none ∨ rank s x < rank s i)
  | _ => True

/-! ## What a process knows -/

/-- How far a process is with freeing an inode. -/
inductive Phase where
  | doomed
  | emptied
  | freed
  deriving DecidableEq

/-- The references of a process, the inodes that it has locked, as it knows them, by how much it keeps
link counts ahead of the names, the inode that it creates, the one that it frees, and the directory that
it is leaving. -/
@[ext]
structure Local where
  refs : Inum → Nat
  held : Inum → Option Node
  credit : Inum → Nat
  fresh : Option (Inum × Kind)
  dying : Option (Inum × Phase)
  leaving : Option Inum

namespace Local

/-- Nobody else looks at the inode. -/
def Raw (l : Local) (i : Inum) : Prop :=
  (∃ k, l.fresh = some (i, k)) ∨ l.dying = some (i, .emptied)

def take (l : Local) (i : Inum) : Local := { l with refs := update l.refs i (l.refs i + 1) }

def drop (l : Local) (i : Inum) : Local := { l with refs := update l.refs i (l.refs i - 1) }

def see (l : Local) (i : Inum) (nd : Node) : Local := { l with held := update l.held i (some nd) }

def unlock (l : Local) (i : Inum) : Local := { l with held := update l.held i none }

end Local

/-- What process `p` knows fits to the shared state. -/
@[grind cases eager]
structure Own (strict : Prop) (s : Shared P) (p : P) (l : Local) : Prop where
  lock : ∀ i, s.lock i = some p ↔ l.held i ≠ none
  view : ∀ i nd, l.held i = some nd → l.dying ≠ some (i, .freed) → s.node i = nd
  held_refs : ∀ i, l.held i ≠ none → 0 < l.refs i
  alloc : ∀ i, 0 < l.refs i → l.dying ≠ some (i, .freed) → (s.node i).kind ≠ none
  credit_refs : ∀ i, 0 < l.credit i → 0 < l.refs i ∧ l.dying ≠ some (i, .freed)
  credit_held : ∀ i, 0 < l.credit i → l.held i ≠ none ∨ (s.node i).kind ≠ some .dir
  fresh : ∀ i k, l.fresh = some (i, k) → l.dying = none ∧ (s.node i).kind = some k ∧
    (l.held i = none → s.node i = { kind := some k, nlink := 0, ents := [] }) ∧
    ∀ d, d ≠ i → l.held d ≠ none → s.birth d < s.birth i
  dying : ∀ i ph, l.dying = some (i, ph) → ph ≠ .freed → l.held i ≠ none ∧ s.ref i = 1 ∧
    (s.node i).nlink = 0 ∧ (ph = .emptied → (s.node i).ents = [])
  leaving : s.leaving p = l.leaving
  leaving_free : strict → ∀ d, l.leaving = some d → s.lock d = none

/-- What the processes know fits together.  An inode that is being created is referenced by no other
process, but for one that has just freed it and still has to drop its reference. -/
@[grind cases eager]
structure Inv (strict : Prop) (s : Shared P) (L : P → Local) : Prop where
  own : ∀ p, Own strict s p (L p)
  refs : ∀ i, Total (fun l : Local => l.refs i) L (s.ref i)
  apart : ∀ p q i k, p ≠ q → (L p).fresh = some (i, k) → (∀ k', (L q).fresh ≠ some (i, k')) ∧
    (0 < (L q).refs i → (L q).dying = some (i, .freed))
  births : ∀ i, s.birth i ≤ s.clock
  tree : ∃ credit : Inum → Nat, (∀ i, Total (fun l : Local => l.credit i) L (credit i)) ∧
    Tree s.node s.birth credit fun i => ∃ p, (L p).Raw i

namespace Inv

variable {strict : Prop} {s s' : Shared P} {L : P → Local} {p q : P} {l l' : Local} {i d : Inum}

/-! ## Consequences -/

theorem refs_le (h : Inv strict s L) (p : P) (i : Inum) : (L p).refs i ≤ s.ref i := (h.refs i).le p

theorem credit_eq (h : Inv strict s L) {credit : Inum → Nat}
    (htotal : ∀ i, Total (fun l : Local => l.credit i) L (credit i))
    (hheld : (L p).held i ≠ none) (hdir : (s.node i).kind = some .dir) :
    credit i = (L p).credit i := by
  apply le_antisymm _ ((htotal i).le p)
  by_contra hlt
  obtain ⟨q, hne, hpos⟩ := (htotal i).exists_ne (t := p) (not_le.1 hlt)
  grind

theorem nlink_nonneg (h : Inv strict s L) (i : Inum) (hi : (s.node i).kind ≠ none) : 0 ≤ (s.node i).nlink := by
  obtain ⟨credit, -, htree⟩ := h.tree
  have haccount := htree.account i hi
  split at haccount <;> omega

theorem tree_of (h : Inv strict s L) (p : P) :
    ∃ credit : Inum → Nat, (∀ i, Total (fun l : Local => l.credit i) L (credit i)) ∧
      Tree s.node s.birth credit fun i => (L p).Raw i ∨ ∃ q, q ≠ p ∧ (L q).Raw i := by
  obtain ⟨credit, htotal, htree⟩ := h.tree
  refine ⟨credit, htotal, htree.congr_raw fun i => ⟨?_, ?_⟩⟩
  all_goals grind

variable [DecidableEq P]

theorem refs_eq_zero (h : Inv strict s L) (hone : s.ref i = 1) (hne : q ≠ p) (hp : 0 < (L p).refs i) :
    (L q).refs i = 0 := by
  have hsum := (h.refs i).add_le hne
  omega

theorem refs_of_dying (h : Inv strict s L) (hne : q ≠ p) {ph : Phase}
    (hdying : (L p).dying = some (i, ph)) (hph : ph ≠ .freed) : (L q).refs i = 0 := by
  obtain ⟨hheld, hone, -⟩ := (h.own p).dying i ph hdying hph
  exact h.refs_eq_zero hone hne ((h.own p).held_refs i hheld)

theorem not_raw (h : Inv strict s L) (hl : 0 < (L p).refs i) (hdying : (L p).dying = none)
    (hne : q ≠ p) : ¬ (L q).Raw i := by
  rintro (⟨k, hfresh⟩ | hemptied)
  · grind
  · have hzero := h.refs_of_dying (Ne.symm hne) hemptied (by decide)
    omega

/-! ## One process moves -/

theorem shift (h : Inv strict s L) (hl : L p = l) (hnode : s'.node = s.node) (hbirth : s'.birth = s.birth)
    (hclock : s'.clock = s.clock) (hown : Own strict s' p l')
    (hframe : ∀ q, q ≠ p → Own strict s' q (L q))
    (hrefs : ∀ i, s'.ref i + l.refs i = s.ref i + l'.refs i) (hcredit : l'.credit = l.credit)
    (hfresh : l'.fresh = l.fresh) (hraw : ∀ i, l'.Raw i ↔ l.Raw i)
    (hapart : ∀ q i k, q ≠ p → (L q).fresh = some (i, k) → 0 < l'.refs i → l'.dying = some (i, .freed)) :
    Inv strict s' (update L p l') := by
  subst hl
  refine ⟨?_, ?_, ?_, ?_, ?_⟩
  · grind
  · intro i
    exact (h.refs i).goto rfl (hrefs i)
  · grind
  · rw [hbirth, hclock]
    exact h.births
  · obtain ⟨credit, htotal, htree⟩ := h.tree
    refine ⟨credit, fun i => (htotal i).goto rfl (by rw [hcredit]), ?_⟩
    rw [hnode, hbirth]
    have hset : (fun i => ∃ q, (update L p l' q).Raw i) = fun i => ∃ q, (L q).Raw i := by
      funext i
      apply propext
      refine exists_congr fun q => ?_
      grind
    rwa [hset]

end Inv

theorem Own.frame {s s' : Shared P} {q : P} {l : Local} (h : Own strict s q l)
    (hnode : s'.node = s.node) (hbirth : s'.birth = s.birth)
    (hlock : ∀ i, s'.lock i = some q ↔ s.lock i = some q)
    (hfree : strict → ∀ d, l.leaving = some d → s'.lock d = none)
    (hleaving : s'.leaving q = s.leaving q)
    (href : ∀ i ph, l.dying = some (i, ph) → ph ≠ .freed → s'.ref i = s.ref i) :
    Own strict s' q l where
  __ := h
  lock i := (hlock i).trans (h.lock i)
  view := by
    rw [hnode]
    exact h.view
  alloc := by
    rw [hnode]
    exact h.alloc
  credit_held := by
    rw [hnode]
    exact h.credit_held
  fresh := by
    rw [hnode, hbirth]
    exact h.fresh
  dying i ph hd hph := by
    rw [hnode, href i ph hd hph]
    exact h.dying i ph hd hph
  leaving := hleaving.trans h.leaving
  leaving_free := hfree

theorem Own.rewrite {s : Shared P} {p : P} {l l' : Local} {i : Inum} {nd : Node} (h : Own strict s p l)
    (hheld : l.held i ≠ none) (hfreed : ∀ j, l.dying ≠ some (j, .freed))
    (hheld' : l'.held = update l.held i (some nd)) (hrefs' : l'.refs = l.refs)
    (hleaving' : l'.leaving = l.leaving)
    (hkind : nd.kind = (s.node i).kind ∨ l'.dying = some (i, .freed) ∧ l'.fresh = none)
    (hcredit : ∀ j, 0 < l'.credit j → (l.held j ≠ none ∨ 0 < l.credit j) ∧ l'.dying ≠ some (j, .freed))
    (hfresh : ∀ j k, l'.fresh = some (j, k) → l.fresh = some (j, k) ∧ l'.dying = none)
    (hdying : ∀ j ph, l'.dying = some (j, ph) → j = i ∧ (ph ≠ .freed → s.ref i = 1 ∧ nd.nlink = 0 ∧
      (ph = .emptied → nd.ents = []))) :
    Own strict { s with node := update s.node i nd } p l' := by
  have hsome : ∀ j, l'.held j ≠ none ↔ l.held j ≠ none := by
    intro j
    rw [hheld']
    grind
  constructor
  case lock => exact fun j => (h.lock j).trans (hsome j).symm
  case view =>
    intro j nd' hj _
    rw [hheld'] at hj
    grind
  all_goals grind

def Shared.alloc (s : Shared P) (i : Inum) (k : Kind) : Shared P :=
  { s with
    node := update s.node i { kind := some k, nlink := 0, ents := [] }
    birth := update s.birth i (s.clock + 1)
    clock := s.clock + 1 }

theorem Inv.freed_of_refs {s : Shared P} {L : P → Local} {i : Inum} (h : Inv strict s L) (q : P)
    (hfree : (s.node i).kind = none) (hpos : 0 < (L q).refs i) : (L q).dying = some (i, .freed) := by
  by_contra hnot
  exact (h.own q).alloc i hpos hnot hfree

theorem Own.newInode {s : Shared P} {p : P} {l : Local} {i : Inum} {k : Kind} (h : Own strict s p l)
    (hfree : (s.node i).kind = none) : Own strict (s.alloc i k) p l := by
  have hnode : ∀ j, j ≠ i → (s.alloc i k).node j = s.node j := fun j hj => update_of_ne hj ..
  have hbirth : ∀ j, j ≠ i → (s.alloc i k).birth j = s.birth j := fun j hj => update_of_ne hj ..
  have hne : ∀ j, 0 < l.refs j → l.dying ≠ some (j, .freed) → j ≠ i := by
    rintro j hj hd rfl
    exact h.alloc j hj hd hfree
  refine { h with view := ?view, alloc := ?alloc, credit_held := ?credit_held, fresh := ?fresh, dying := ?dying }
  case view =>
    intro j nd hj hd
    rw [hnode j (hne j (h.held_refs j (by simp [hj])) hd)]
    exact h.view j nd hj hd
  case alloc =>
    intro j hj hd
    rw [hnode j (hne j hj hd)]
    exact h.alloc j hj hd
  case credit_held =>
    intro j hj
    obtain ⟨hr, hd⟩ := h.credit_refs j hj
    rw [hnode j (hne j hr hd)]
    exact h.credit_held j hj
  case fresh =>
    intro j k' hj
    obtain ⟨hd, hk, hn, hb⟩ := h.fresh j k' hj
    have hji : j ≠ i := by
      rintro rfl
      rw [hfree] at hk
      cases hk
    rw [hnode j hji, hbirth j hji]
    refine ⟨hd, hk, hn, fun d hdj hheld => ?_⟩
    rw [hbirth d (hne d (h.held_refs d hheld) (by simp [hd]))]
    exact hb d hdj hheld
  case dying =>
    intro j ph hj hph
    obtain ⟨hheld, hrest⟩ := h.dying j ph hj hph
    have hd : l.dying ≠ some (j, .freed) := by
      rw [hj]
      rintro heq
      cases heq
      exact hph rfl
    rw [hnode j (hne j (h.held_refs j hheld) hd)]
    exact ⟨hheld, hrest⟩

/-! ## Rules for references and locks -/

/-- Locks are taken downwards: what the process has locked is the directory with the entry that leads
to the inode, or the inode is one that it creates or a directory that it is leaving. -/
def Local.Below (l : Local) (i : Inum) : Prop :=
  ∀ x nd, l.held x = some nd →
    (∃ n, Proper n ∧ some (n, i) ∈ nd.ents) ∨
      x ≠ i ∧ (l.leaving = some i ∨ nd.kind = some .dir ∧ ∃ k, l.fresh = some (i, k))

theorem Inv.safe_acquiresleep {s : Shared P} {L : P → Local} {p : P} {i : Inum} (h : Inv strict s L)
    (hdying : (L p).dying = none) (hbelow : strict → (L p).Below i) :
    Safe strict s p (.acquiresleep i) := by
  intro hstrict x hx
  obtain ⟨credit, -, htree⟩ := h.tree
  obtain ⟨nd, hnd⟩ := Option.ne_none_iff_exists'.1 (((h.own p).lock x).1 hx)
  have hview := (h.own p).view x nd hnd (by simp [hdying])
  rcases hbelow hstrict x nd hnd with ⟨n, hn, hmem⟩ | ⟨hne, hleaving | ⟨hdir, k, hfresh⟩⟩
  · rw [← hview] at hmem
    have hlt : rank s x < rank s i := by
      unfold rank
      rw [if_pos (htree.dir_of_mem hmem)]
      split
      · exact WithTop.coe_lt_coe.2 (htree.older x n i hmem hn ‹_›)
      · exact WithTop.coe_lt_top _
    refine ⟨?_, .inr hlt⟩
    rintro rfl
    exact lt_irrefl _ hlt
  · exact ⟨hne, .inl ((h.own p).leaving_free hstrict i hleaving)⟩
  · refine ⟨hne, .inr ?_⟩
    unfold rank
    rw [if_pos (by rw [hview]; exact hdir)]
    split
    · exact WithTop.coe_lt_coe.2 (((h.own p).fresh i k hfresh).2.2.2 x hne (by simp [hnd]))
    · exact WithTop.coe_lt_top _

variable [DecidableEq P]

def rules (P : Type) [DecidableEq P] (strict : Prop) : Logic P Act (Shared P) Local where
  Inv := Inv strict
  Guard := Guard strict
  Safe := Safe strict

/-- What the program of a process needs to know and what it knows after it. -/
abbrev Knows (strict : Prop) {α : Type} (p : P) (m : Fs α) (Q : α → Local → Prop) (l : Local) : Prop :=
  (rules P strict).wp run p m Q l

section Rules

variable {strict : Prop} {p : P} {l : Local} {i d : Inum} {L : P → Local} {nd : Node} {s : Shared P} {c : Inum → Nat}
  {n : Name}

/-- How a process may come to a reference: the root, one that it has, an entry of a directory that it
has locked, or the inode that it creates. -/
def Local.Reaches (l : Local) (i : Inum) : Prop :=
  i = rootino ∨ 0 < l.refs i ∨ (∃ k, l.fresh = some (i, k)) ∨
    l.fresh = none ∧ ∃ d nd n, l.held d = some nd ∧ some (n, i) ∈ nd.ents

theorem Inv.entry (h : Inv strict s L)
    (hheld : (L p).held d ≠ none) (hdying : (L p).dying = none) (hfresh : (L p).fresh = none)
    (hmem : some (n, i) ∈ (s.node d).ents) :
    i = d ∨ 0 < (s.node i).nlink ∧ ∀ q, ¬ (L q).Raw i := by
  obtain ⟨credit, -, htree⟩ := h.tree
  have hrefs := (h.own p).held_refs d hheld
  have hraw : ¬ ∃ q, (L q).Raw d := by
    rintro ⟨q, hq⟩
    by_cases hqp : q = p
    · subst hqp
      rcases hq with ⟨k, hk⟩ | hk
      · rw [hfresh] at hk
        cases hk
      · rw [hdying] at hk
        cases hk
    · exact h.not_raw hrefs hdying hqp hq
  obtain ⟨q, rest, hents, hrest, hq, -⟩ := htree.shape d (htree.dir_of_mem hmem) hraw
  have hlinks : 0 < links s.node i → ∀ q, ¬ (L q).Raw i := by
    intro hpos q hr
    have := htree.raw_links i ⟨q, hr⟩
    omega
  have hmem' := hmem
  rw [hents] at hmem'
  rcases List.mem_cons.1 hmem' with heq | hmem'
  · cases heq
    exact .inl rfl
  · rcases List.mem_cons.1 hmem' with heq | hmem'
    · cases heq
      refine .inr ⟨htree.nlink_pos_of_linked hq, ?_⟩
      rcases hq.2 with rfl | hpos
      · exact fun q hr => htree.root.2.1 ⟨q, hr⟩
      · exact hlinks hpos
    · have hn := hrest n i hmem'
      exact .inr ⟨htree.nlink_pos_of_mem hmem hn, hlinks (htree.links_pos hmem hn)⟩

theorem Inv.reaches (h : Inv strict s L) (hdying : (L p).dying = none)
    (hi : (L p).Reaches i) :
    (s.node i).kind ≠ none ∧ ∀ q, q ≠ p → (∀ k, (L q).fresh ≠ some (i, k)) ∧
      ∀ ph, (L q).dying = some (i, ph) → ph = .freed := by
  obtain ⟨credit, htotal, htree⟩ := h.tree
  -- an inode with links is not freed
  have hlinked : 0 < (s.node i).nlink → (∀ q, ¬ (L q).Raw i) → ∀ q, q ≠ p →
      (∀ k, (L q).fresh ≠ some (i, k)) ∧ ∀ ph, (L q).dying = some (i, ph) → ph = .freed := by
    intro hpos hraw q _
    refine ⟨fun k hk => hraw q (.inl ⟨k, hk⟩), fun ph hq => ?_⟩
    by_contra hph
    have hzero := ((h.own q).dying i ph hq hph).2.2.1
    omega
  -- nor is one that the process has a reference to
  have hmine : 0 < (L p).refs i → (s.node i).kind ≠ none ∧ ∀ q, q ≠ p →
      (∀ k, (L q).fresh ≠ some (i, k)) ∧ ∀ ph, (L q).dying = some (i, ph) → ph = .freed := by
    intro hrefs
    refine ⟨(h.own p).alloc i hrefs (by simp [hdying]), fun q hq => ⟨fun k hk => ?_, fun ph hk => ?_⟩⟩
    · exact h.not_raw hrefs hdying hq (.inl ⟨k, hk⟩)
    · by_contra hph
      have hzero := h.refs_of_dying (Ne.symm hq) hk hph
      omega
  rcases hi with rfl | hrefs | ⟨k, hk⟩ | ⟨hfresh, d, nd, n, hheld, hmem⟩
  · exact ⟨htree.root.1.allocated, hlinked (htree.nlink_pos_of_linked htree.root.1) fun q hr => htree.root.2.1 ⟨q, hr⟩⟩
  · exact hmine hrefs
  · grind
  · have hne : (L p).held d ≠ none := by simp [hheld]
    rw [← (h.own p).view d nd hheld (by simp [hdying])] at hmem
    rcases h.entry hne hdying hfresh hmem with rfl | ⟨hpos, hraw⟩
    · exact hmine ((h.own p).held_refs i hne)
    · exact ⟨htree.allocated_of_mem hmem, hlinked hpos hraw⟩

theorem take_refs_self : (l.take i).refs i = l.refs i + 1 := update_self ..

theorem take_refs_of_ne {j : Inum} (hj : j ≠ i) : (l.take i).refs j = l.refs j := update_of_ne hj ..

theorem refs_le_take (j : Inum) : l.refs j ≤ (l.take i).refs j := by
  by_cases hj : j = i
  · subst hj
    rw [take_refs_self]
    exact Nat.le_succ _
  · rw [take_refs_of_ne hj]

theorem knows_iget (hdying : l.dying = none) (hi : l.Reaches i) :
    Knows strict p (iget i) (fun _ l' => l' = l.take i) l := by
  refine Logic.wp_perform fun s L hinv hl => ⟨trivial, fun r s' _ hrun => ?_⟩
  cases hrun
  subst hl
  obtain ⟨halloc, hother⟩ := hinv.reaches hdying hi
  have hown := hinv.own p
  refine ⟨(L p).take i, hinv.shift rfl rfl rfl rfl ?_ ?_ ?_ rfl rfl (fun _ => Iff.rfl) ?_, rfl⟩
  · refine { hown with held_refs := ?_, alloc := ?_, credit_refs := ?_, dying := ?_ }
    · exact fun j hj => (hown.held_refs j hj).trans_le (refs_le_take j)
    · intro j hj hfreed
      by_cases hji : j = i
      all_goals grind [take_refs_of_ne]
    · exact fun j hj => ⟨(hown.credit_refs j hj).1.trans_le (refs_le_take j), (hown.credit_refs j hj).2⟩
    · intro j ph hj
      cases hdying.symm.trans hj
  · intro q hq
    refine (hinv.own q).frame rfl rfl (fun _ => Iff.rfl) (hinv.own q).leaving_free rfl ?_
    grind
  · intro j
    by_cases hj : j = i
    all_goals grind [take_refs_self, take_refs_of_ne]
  · intro q j k hq hfresh hpos
    have hji : j ≠ i := by
      rintro rfl
      exact (hother q hq).1 k hfresh
    rw [take_refs_of_ne hji] at hpos
    exact (hinv.apart q p j k hq hfresh).2 hpos

/-- The inode that `acquiresleep` finds. -/
@[grind cases eager]
structure Local.Finds (l : Local) (i : Inum) (nd : Node) : Prop where
  free : l.held i = none
  allocated : nd.kind ≠ none
  plain : 0 < l.credit i → nd.kind ≠ some .dir
  fresh : ∀ k, l.fresh = some (i, k) → nd = { kind := some k, nlink := 0, ents := [] }

/-- Process `p` takes the lock of inode `i`, and sees `x` there, or lets go of it. -/
theorem Inv.relock {x : Option Node} {owner : Option P} {leaving : Option Inum} (h : Inv strict s L)
    (howner : owner = some p ↔ x ≠ none) (hothers : ∀ q, q ≠ p → (owner = some q ↔ s.lock i = some q))
    (hx : ∀ nd, x = some nd → s.node i = nd ∧ 0 < (L p).refs i)
    (hcredit : 0 < (L p).credit i → x ≠ none ∨ (s.node i).kind ≠ some .dir)
    (hfresh : ∀ j k, (L p).fresh = some (j, k) → j = i ∧ x ≠ none)
    (hdying : ∀ j ph, (L p).dying = some (j, ph) → ph = .freed)
    (hself : ∀ d, leaving = some d → update s.lock i owner d = none)
    (hleaving : strict → ∀ q, q ≠ p → (L q).leaving = some i → owner = none) :
    Inv strict { s with lock := update s.lock i owner, leaving := update s.leaving p leaving }
      (update L p { L p with held := update (L p).held i x, leaving := leaving }) := by
  have hown := h.own p
  refine h.shift rfl rfl rfl rfl ?_ ?_ (fun _ => rfl) rfl rfl (fun _ => Iff.rfl)
    (fun q j k hq hf => (h.apart q p j k hq hf).2)
  · refine { hown with
      lock := ?lock, view := ?view, held_refs := ?held_refs, credit_held := ?credit_held, fresh := ?fresh,
      dying := ?dying, leaving := update_self .., leaving_free := fun _ => hself }
    case lock =>
      intro j
      by_cases hj : j = i
      · subst hj
        simpa using howner
      · simpa [hj] using hown.lock j
    case view =>
      intro j nd hj hfreed
      by_cases hji : j = i
      · subst hji
        exact (hx nd (by simpa using hj)).1
      · exact hown.view j nd (by simpa [hji] using hj) hfreed
    case held_refs =>
      intro j hj
      by_cases hji : j = i
      · subst hji
        obtain ⟨nd, hnd⟩ := Option.ne_none_iff_exists'.1 hj
        exact (hx nd (by simpa using hnd)).2
      · exact hown.held_refs j (by simpa [hji] using hj)
    case credit_held =>
      intro j hj
      by_cases hji : j = i
      · subst hji
        simpa using hcredit hj
      · simpa [hji] using hown.credit_held j hj
    case fresh =>
      intro j k hj
      obtain ⟨hd, hkind, -, hbirth⟩ := hown.fresh j k hj
      obtain ⟨rfl, hsome⟩ := hfresh j k hj
      refine ⟨hd, hkind, fun hnone => absurd (by simpa using hnone) hsome, fun d hd hheld => ?_⟩
      exact hbirth d hd (by simpa [hd] using hheld)
    case dying => exact fun j ph hj hph => absurd (hdying j ph hj) hph
  · intro q hq
    refine (h.own q).frame rfl rfl ?_ ?_ (by simp [hq]) fun _ _ _ _ => rfl
    · intro j
      by_cases hj : j = i
      · subst hj
        simpa using hothers q hq
      · simp [hj]
    · intro hstrict d hd
      by_cases hdi : d = i
      · subst hdi
        simpa using hleaving hstrict q hq hd
      · simpa [hdi] using (h.own q).leaving_free hstrict d hd

theorem knows_acquiresleep (hdying : l.dying = none) (hrefs : 0 < l.refs i)
    (hfresh : l.fresh = none ∨ ∃ k, l.fresh = some (i, k)) (hbelow : strict → l.Below i) :
    Knows strict p (acquiresleep i) (fun _ l' => ∃ nd, l.Finds i nd ∧ l' = { l.see i nd with leaving := none }) l := by
  refine Logic.wp_perform fun s L hinv hl => ?_
  subst hl
  refine ⟨hinv.safe_acquiresleep hdying hbelow, fun r s' hguard hrun => ?_⟩
  simp only [run] at hrun
  split at hrun
  · rename_i hfree
    cases hrun
    have hown := hinv.own p
    have hnone : (L p).held i = none := by
      by_contra hheld
      rw [(hown.lock i).2 hheld] at hfree
      cases hfree
    refine ⟨{ (L p).see i (s.node i) with leaving := none }, ?_, s.node i, ?_, rfl⟩
    · refine hinv.relock (x := some (s.node i)) (by simp) ?_ ?_ (by simp) ?_ ?_ nofun ?_
      · simp +contextual [hfree, eq_comm]
      · rintro nd ⟨⟩
        exact ⟨rfl, hrefs⟩
      · rintro j k hj
        rcases hfresh with hf | ⟨k', hf⟩
        · cases hf.symm.trans hj
        · cases hf.symm.trans hj
          exact ⟨rfl, nofun⟩
      · intro j ph hj
        cases hdying.symm.trans hj
      · exact fun hstrict q hq hleaves => absurd ((hinv.own q).leaving.trans hleaves) (hguard hstrict q hq)
    · exact ⟨hnone, hown.alloc i hrefs (by simp [hdying]), fun hpos =>
        (hown.credit_held i hpos).resolve_left (not_not.2 hnone),
        fun k hk => (hown.fresh i k hk).2.2.1 hnone⟩
  · cases hrun

theorem Inv.keep {s s' : Shared P} (h : Inv strict s L) (hnode : s'.node = s.node)
    (href : s'.ref = s.ref) (hlock : s'.lock = s.lock) (hleaving : s'.leaving = s.leaving)
    (hbirth : s'.birth = s.birth) (hclock : s'.clock = s.clock) :
    Inv strict s' (update L p (L p)) := by
  have hframe : ∀ q, Own strict s' q (L q) := by
    intro q
    refine (h.own q).frame hnode hbirth (fun i => by rw [hlock]) ?_ (by rw [hleaving]) fun _ _ _ _ => by rw [href]
    rw [hlock]
    exact (h.own q).leaving_free
  exact h.shift rfl hnode hbirth hclock (hframe p) (fun q _ => hframe q) (fun i => by rw [href]) rfl rfl
    (fun _ => Iff.rfl) fun q i k hq hf => (h.apart q p i k hq hf).2

theorem knows_load (hdying : l.dying = none) (hrefs : 0 < l.refs i) :
    Knows strict p (act (.load i)) (fun _ l' => l' = l) l := by
  refine Logic.wp_perform fun s L hinv hl => ?_
  subst hl
  have halloc := (hinv.own p).alloc i hrefs (by simp [hdying])
  refine ⟨halloc, fun r s' _ hrun => ⟨L p, ?_, rfl⟩⟩
  simp only [run, if_neg halloc] at hrun
  split at hrun
  · cases hrun
    exact hinv.keep rfl rfl rfl rfl rfl rfl
  · cases hrun
    exact hinv.keep rfl rfl rfl rfl rfl rfl

theorem knows_isValid : Knows strict p (isValid i) (fun _ l' => l' = l) l := by
  refine Logic.wp_perform fun s L hinv hl => ⟨trivial, fun r s' _ hrun => ?_⟩
  cases hrun
  subst hl
  exact ⟨L p, hinv.keep rfl rfl rfl rfl rfl rfl, rfl⟩

theorem knows_invalidate : Knows strict p (act (.invalidate i)) (fun _ l' => l' = l) l := by
  refine Logic.wp_perform fun s L hinv hl => ⟨trivial, fun r s' _ hrun => ?_⟩
  cases hrun
  subst hl
  exact ⟨L p, hinv.keep rfl rfl rfl rfl rfl rfl, rfl⟩

theorem knows_peek (hdying : l.dying = none) (hheld : l.held i = some nd) :
    Knows strict p (peek i) (fun r l' => r = nd ∧ l' = l) l := by
  refine Logic.wp_perform fun s L hinv hl => ⟨trivial, fun r s' _ hrun => ?_⟩
  cases hrun
  subst hl
  exact ⟨L p, hinv.keep rfl rfl rfl rfl rfl rfl, (hinv.own p).view i nd hheld (by simp [hdying]), rfl⟩

theorem knows_panic {α : Type} {Q : α → Local → Prop} : Knows strict p (panic : Fs α) Q l := by
  intro s L _ _
  exact ⟨trivial, fun r => r.elim⟩

/-- A process that reads that it has the only reference to an inode without links frees it. -/
theorem knows_readRef (hdying : l.dying = none) (hfresh : l.fresh = none)
    (hheld : l.held i = some nd) (hnlink : nd.nlink = 0) :
    Knows strict p (readRef i)
      (fun r l' => (r = 1 → l.refs i = 1 ∧ l.credit i = 0) ∧
        l' = if r = 1 then { l with dying := some (i, .doomed) } else l) l := by
  refine Logic.wp_perform fun s L hinv hl => ⟨trivial, fun r s' _ hrun => ?_⟩
  cases hrun
  subst hl
  by_cases hone : s.ref i = 1
  · have hown := hinv.own p
    have hview := hown.view i nd hheld (by simp [hdying])
    have hrefs : (L p).refs i = 1 := by
      have hpos := hown.held_refs i (by simp [hheld])
      have hle := hinv.refs_le p i
      omega
    have hcredit : (L p).credit i = 0 := by
      obtain ⟨credit, htotal, htree⟩ := hinv.tree
      have haccount := htree.account i (hown.alloc i (by omega) (by simp [hdying]))
      have hle := (htotal i).le p
      rw [hview, hnlink] at haccount
      split at haccount <;> omega
    refine ⟨{ L p with dying := some (i, .doomed) }, ?_, fun _ => ⟨hrefs, hcredit⟩, (if_pos hone).symm⟩
    refine hinv.shift rfl rfl rfl rfl ?_ (fun q _ => hinv.own q) (fun _ => rfl) rfl rfl ?_ ?_
    · constructor
      all_goals grind
    · intro j
      simp [Local.Raw, hdying]
    · intro q j k hq hf hpos
      have hfreed := (hinv.apart q p j k hq hf).2 hpos
      rw [hdying] at hfreed
      cases hfreed
  · exact ⟨L p, hinv.keep rfl rfl rfl rfl rfl rfl, fun h => absurd h hone, (if_neg hone).symm⟩

theorem knows_releasesleep {keeps : Bool} (hheld : l.held i = some nd)
    (hdying : l.dying = none ∨ l.dying = some (i, .freed)) (hfresh : l.fresh = none)
    (hcredit : 0 < l.credit i → nd.kind ≠ some .dir) :
    Knows strict p (releasesleep i keeps)
      (fun _ l' => l' = { l.unlock i with leaving := if keeps then some i else none }) l := by
  refine Logic.wp_perform fun s L hinv hl => ⟨trivial, fun r s' _ hrun => ?_⟩
  subst hl
  simp only [run] at hrun
  split at hrun
  · rename_i hmine
    cases hrun
    have hown := hinv.own p
    refine ⟨_, hinv.relock (x := none) (by simp) ?_ nofun ?_ ?_ ?_ ?_ fun _ _ _ _ => rfl, rfl⟩
    · simp +contextual [hmine, eq_comm]
    · intro hpos
      rw [hown.view i nd hheld (hown.credit_refs i hpos).2]
      exact .inr (hcredit hpos)
    · intro j k hj
      cases hfresh.symm.trans hj
    · intro j ph hj
      rcases hdying with hd | hd <;> cases hd.symm.trans hj
      rfl
    · intro d hd
      cases keeps with
      | false => cases hd
      | true =>
        cases hd
        exact update_self ..
  · cases hrun

theorem knows_dropRef (hrefs : 0 < l.refs i) (hheld : l.held i = none) (hcredit : 0 < l.credit i → 1 < l.refs i)
    (hdying : l.dying = none ∨ l.dying = some (i, .freed) ∧ l.refs i = 1) (hfresh : l.fresh = none) :
    Knows strict p (act (.dropRef i)) (fun _ l' => l' = { l.drop i with dying := none }) l := by
  refine Logic.wp_perform fun s L hinv hl => ⟨trivial, fun r s' _ hrun => ?_⟩
  cases hrun
  subst hl
  have hown := hinv.own p
  have hother : ∀ j, j ≠ i → ((L p).drop i).refs j = (L p).refs j := fun j hj =>
    update_of_ne hj ..
  have hself : ((L p).drop i).refs i = (L p).refs i - 1 := update_self ..
  have hle : ∀ j, ((L p).drop i).refs j ≤ (L p).refs j := by grind
  have hnotfreed : ∀ j, j ≠ i → (L p).dying ≠ some (j, .freed) := by grind
  -- a reference that is left is not to what the process has freed
  have hleft : ∀ j, 0 < ((L p).drop i).refs j → (L p).dying ≠ some (j, .freed) := by grind
  refine ⟨{ (L p).drop i with dying := none }, hinv.shift rfl rfl rfl rfl ?_ ?_ ?_ rfl rfl ?_ ?_, rfl⟩
  · constructor
    case lock => exact hown.lock
    case view =>
      intro j nd hj _
      have hji : j ≠ i := by
        rintro rfl
        cases hheld.symm.trans hj
      exact hown.view j nd hj (hnotfreed j hji)
    case held_refs =>
      intro j hj
      have hji : j ≠ i := by
        rintro rfl
        exact hj hheld
      rw [hother j hji]
      exact hown.held_refs j hj
    case alloc => exact fun j hj _ => hown.alloc j (lt_of_lt_of_le hj (hle j)) (hleft j hj)
    case credit_refs =>
      intro j hj
      refine ⟨?_, by simp⟩
      show 0 < ((L p).drop i).refs j
      by_cases hji : j = i
      · subst hji
        have := hcredit hj
        omega
      · rw [hother j hji]
        exact (hown.credit_refs j hj).1
    case credit_held => exact hown.credit_held
    case fresh =>
      intro j k hj
      cases hfresh.symm.trans hj
    case dying =>
      intro j ph hj
      cases hj
    case leaving => exact hown.leaving
    case leaving_free => exact hown.leaving_free
  · intro q hq
    refine (hinv.own q).frame rfl rfl (fun _ => Iff.rfl) (hinv.own q).leaving_free rfl ?_
    intro j ph hj hph
    refine update_of_ne ?_ ..
    rintro rfl
    have hzero := hinv.refs_of_dying (Ne.symm hq) hj hph
    omega
  · intro j
    have hle' := hinv.refs_le p j
    grind
  · intro j
    rcases hdying with hd | ⟨hd, -⟩ <;> simp [Local.Raw, Local.drop, hd]
  · intro q j k hq hf hpos
    exact absurd ((hinv.apart q p j k hq hf).2 (lt_of_lt_of_le hpos (hle j))) (hleft j hpos)

/-! ## Rules for changes of an inode -/

theorem Inv.rewrite {l' : Local} (h : Inv strict s L)
    (hheld : (L p).held i ≠ none) (hfreed : (L p).dying ≠ some (i, .freed))
    (hown : Own strict { s with node := update s.node i nd } p l')
    (hkind : nd.kind = (s.node i).kind ∨ nd.kind = none ∧ ∀ q, q ≠ p → (L q).refs i = 0)
    (hrefs : l'.refs = (L p).refs)
    (hfresh : ∀ j k, l'.fresh = some (j, k) → (L p).fresh = some (j, k))
    (hdying : ∀ j, (L p).dying = some (j, .freed) → l'.dying = some (j, .freed))
    (htree : ∀ credit : Inum → Nat, (∀ i, Total (fun l : Local => l.credit i) L (credit i)) →
      (Tree s.node s.birth credit fun i => (L p).Raw i ∨ ∃ q, q ≠ p ∧ (L q).Raw i) →
      ∃ credit' : Inum → Nat, (∀ j, credit' j + (L p).credit j = credit j + l'.credit j) ∧
        Tree (update s.node i nd) s.birth credit' fun j =>
          l'.Raw j ∨ ∃ q, q ≠ p ∧ (L q).Raw j) :
    Inv strict { s with node := update s.node i nd } (update L p l') := by
  refine ⟨?_, ?_, ?_, h.births, ?_⟩
  · intro q
    by_cases hq : q = p
    · subst hq
      rwa [update_self]
    · rw [update_of_ne hq]
      constructor
      all_goals grind
  · intro j
    exact (h.refs j).goto rfl (by rw [hrefs])
  · intro q r j k hne hf
    by_cases hq : q = p
    · subst hq
      rw [update_self] at hf
      rw [update_of_ne (Ne.symm hne)]
      exact h.apart q r j k hne (hfresh j k hf)
    · rw [update_of_ne hq] at hf
      obtain ⟨hother, hrest⟩ := h.apart q r j k hne hf
      by_cases hr : r = p
      · subst hr
        rw [update_self, hrefs]
        exact ⟨fun k' hk' => hother k' (hfresh j k' hk'), fun hpos => hdying j (hrest hpos)⟩
      · rw [update_of_ne hr]
        exact ⟨hother, hrest⟩
  · obtain ⟨credit, htotal, hold⟩ := h.tree_of p
    obtain ⟨credit', hcredit', hnew⟩ := htree credit htotal hold
    refine ⟨credit', fun j => (htotal j).goto rfl (hcredit' j), hnew.congr_raw fun j => ⟨?_, ?_⟩⟩
    · rintro (hp | ⟨q, hq, hraw⟩)
      · exact ⟨p, by rwa [update_self]⟩
      · exact ⟨q, by rwa [update_of_ne hq]⟩
    · rintro ⟨q, hq⟩
      by_cases hqp : q = p
      · subst hqp
        rw [update_self] at hq
        exact .inl hq
      · rw [update_of_ne hqp] at hq
        exact .inr ⟨q, hqp, hq⟩

/-- Process `p`, which is not freeing anything, writes to an inode that it has locked. -/
theorem Inv.revise {f : Option (Inum × Kind)}
    (h : Inv strict s L) (hdying : (L p).dying = none) (hheld : (L p).held i ≠ none)
    (hkind : nd.kind = (s.node i).kind) (hfresh : ∀ x, f = some x → (L p).fresh = some x)
    (hcredit : ∀ j, 0 < c j → (L p).held j ≠ none ∨ 0 < (L p).credit j)
    (htree : ∀ credit : Inum → Nat, (∀ i, Total (fun l : Local => l.credit i) L (credit i)) →
      (Tree s.node s.birth credit fun i => (L p).Raw i ∨ ∃ q, q ≠ p ∧ (L q).Raw i) →
      ∃ credit' : Inum → Nat, (∀ j, credit' j + (L p).credit j = credit j + c j) ∧
        Tree (update s.node i nd) s.birth credit' fun j =>
          Local.Raw { (L p).see i nd with credit := c, fresh := f } j ∨ ∃ q, q ≠ p ∧ (L q).Raw j) :
    Inv strict { s with node := update s.node i nd } (update L p { (L p).see i nd with credit := c, fresh := f }) := by
  apply h.rewrite hheld (by simp [hdying])
  case hown =>
    refine (h.own p).rewrite hheld (by simp [hdying]) rfl rfl rfl (.inl hkind)
      (fun j hj => ⟨hcredit j hj, by simp [Local.see, hdying]⟩) (fun _ _ hj => ⟨hfresh _ hj, hdying⟩) ?_
    intro j ph hj
    cases hdying.symm.trans hj
  case hkind => exact .inl hkind
  case hrefs => rfl
  case hfresh => exact fun _ _ hj => hfresh _ hj
  case hdying => exact fun _ hj => hj
  case htree => exact htree

theorem knows_relink {kind : Option Kind} {m : Int} {c : Nat} (hdying : l.dying = none)
    (hheld : l.held i = some nd) (hkind : nd.kind = kind) (hm : m + l.credit i = nd.nlink + c) :
    Knows strict p (iupdate i kind m)
      (fun _ l' => l' = { l.see i { nd with nlink := m } with credit := update l.credit i c })
      l := by
  refine Logic.wp_perform fun s L hinv hl => ⟨trivial, fun r s' _ hrun => ?_⟩
  cases hrun
  subst hl hkind
  have hown := hinv.own p
  obtain rfl : s.node i = nd := hown.view i nd hheld (by simp [hdying])
  have hne : (L p).held i ≠ none := by simp [hheld]
  refine ⟨_, hinv.revise hdying hne rfl (fun _ h => h) ?_ ?_, rfl⟩
  · grind
  · intro credit htotal htree
    have hle := (htotal i).le p
    refine ⟨update credit i (credit i - (L p).credit i + c), ?_, htree.relink ?_⟩
    all_goals grind

theorem knows_itrunc (hheld : l.held i = some nd) (hdying : l.dying = some (i, .doomed))
    (hfresh : l.fresh = none) :
    Knows strict p (act (.itrunc i))
      (fun _ l' => l' = { l.see i { nd with ents := [] } with dying := some (i, .emptied) }) l := by
  refine Logic.wp_perform fun s L hinv hl => ⟨trivial, fun r s' _ hrun => ?_⟩
  cases hrun
  subst hl
  have hown := hinv.own p
  obtain rfl : s.node i = nd := hown.view i nd hheld (by simp [hdying])
  have hne : (L p).held i ≠ none := by simp [hheld]
  have hrefs := hown.held_refs i hne
  obtain ⟨-, hone, hnlink, -⟩ := hown.dying i _ hdying (by decide)
  refine ⟨_, ?_, rfl⟩
  apply hinv.rewrite hne (by simp [hdying])
  case hown =>
    refine hown.rewrite hne (by simp [hdying]) rfl rfl rfl (.inl rfl)
      (fun j hj => ⟨.inr hj, by simp⟩) (fun _ _ h => absurd (hfresh.symm.trans h) (by simp)) ?_
    grind
  case hkind => exact .inl rfl
  case hrefs => rfl
  case hfresh => exact fun _ _ h => h
  case hdying => exact fun j h => absurd (hdying.symm.trans h) (by simp)
  case htree =>
    intro credit htotal htree
    refine ⟨credit, fun _ => rfl, (htree.empty (hown.alloc i hrefs (by simp [hdying])) hnlink).congr_raw fun j => ?_⟩
    have hold : ¬ (L p).Raw j := by simp [Local.Raw, hfresh, hdying]
    have hnew : Local.Raw { (L p).see i { s.node i with ents := [] } with
        dying := some (i, .emptied) } j ↔ j = i := by
      simp [Local.Raw, Local.see, hfresh, eq_comm]
    simp only [hnew, hold, false_or, or_comm]

theorem knows_clear {m : Int} (hheld : l.held i = some nd)
    (hdying : l.dying = some (i, .emptied)) (hfresh : l.fresh = none) (hcredit : l.credit i = 0) :
    Knows strict p (iupdate i none m)
      (fun _ l' => l' = { l.see i { nd with kind := none, nlink := m } with
        dying := some (i, .freed) }) l := by
  refine Logic.wp_perform fun s L hinv hl => ⟨trivial, fun r s' _ hrun => ?_⟩
  cases hrun
  subst hl
  have hown := hinv.own p
  obtain rfl : s.node i = nd := hown.view i nd hheld (by simp [hdying])
  have hne : (L p).held i ≠ none := by simp [hheld]
  obtain ⟨-, -, -, hents⟩ := hown.dying i _ hdying (by decide)
  refine ⟨_, ?_, rfl⟩
  apply hinv.rewrite hne (by simp [hdying])
  case hown =>
    refine hown.rewrite hne (by simp [hdying]) rfl rfl rfl (.inr ⟨rfl, hfresh⟩) ?_
      (fun _ _ h => absurd (hfresh.symm.trans h) (by simp)) ?_
    · intro j hj
      refine ⟨.inr hj, fun hd => ?_⟩
      cases hd
      exact absurd hj (by simp [Local.see, hcredit])
    · intro j ph hj
      cases hj
      exact ⟨rfl, fun h => absurd rfl h⟩
  case hkind => exact .inr ⟨rfl, fun q hq => hinv.refs_of_dying hq hdying (by decide)⟩
  case hrefs => rfl
  case hfresh => exact fun _ _ h => h
  case hdying => exact fun j h => absurd (hdying.symm.trans h) (by simp)
  case htree =>
    intro credit htotal htree
    refine ⟨credit, fun _ => rfl, (htree.clear (.inl (.inr hdying)) (hents rfl)).congr_raw fun j => ?_⟩
    have hold : (L p).Raw j ↔ j = i := by simp [Local.Raw, hfresh, hdying, eq_comm]
    have hnew : ¬ Local.Raw { (L p).see i { s.node i with kind := none, nlink := m } with
        dying := some (i, .freed) } j := by
      simp [Local.Raw, Local.see, hfresh]
    have hother : (∃ q, q ≠ p ∧ (L q).Raw j) → j ≠ i := by
      rintro ⟨q, hq, hraw⟩ rfl
      have hzero := hinv.refs_of_dying hq hdying (by decide)
      rcases hraw with ⟨k, hk⟩ | hk
      · have hfreed := (hinv.apart q p j k hq hk).2 (hown.held_refs j hne)
        rw [hdying] at hfreed
        cases hfreed
      · have hpos := (hinv.own q).held_refs j ((hinv.own q).dying j _ hk (by decide)).1
        omega
    simp only [hold, hnew, false_or]
    exact ⟨fun h => h.1.resolve_left h.2, fun h => ⟨.inr h, hother h⟩⟩

theorem run_ialloc {s s' : Shared P} {dp : Inum} {k : Kind} (h : run (.ialloc dp k) p s = some (i, s')) :
    (s.node i).kind = none ∧ i < NINODES ∧ s' = s.alloc i k := by
  simp only [run] at h
  split at h
  · cases h
  · rename_i j hfind
    obtain rfl : s.alloc j k = s' := congrArg Prod.snd (Option.some.inj h)
    grind

theorem Inv.newInode {k : Kind} (h : Inv strict s L)
    (hdying : (L p).dying = none) (hfresh : (L p).fresh = none) (hfree : (s.node i).kind = none)
    (hlt : i < NINODES) :
    Inv strict (s.alloc i k) (update L p { L p with fresh := some (i, k) }) := by
  have hown := (h.own p).newInode (k := k) hfree
  have hnofresh : ∀ q k', (L q).fresh ≠ some (i, k') := by grind
  refine ⟨?_, ?_, ?_, ?_, ?_⟩
  · intro q
    by_cases hq : q = p
    · subst hq
      rw [update_self]
      refine { hown with fresh := ?_ }
      intro j k' hj
      cases hj
      refine ⟨hdying, ?_, fun _ => update_self .., fun d hd _ => ?_⟩
      · show (update s.node i { kind := some k, nlink := 0, ents := [] } i).kind = some k
        rw [update_self]
      · show update s.birth i (s.clock + 1) d < update s.birth i (s.clock + 1) i
        rw [update_of_ne hd, update_self]
        exact Nat.lt_succ_of_le (h.births d)
    · rw [update_of_ne hq]
      exact (h.own q).newInode hfree
  · exact fun j => (h.refs j).goto rfl rfl
  · intro q r j k' hne hf
    by_cases hq : q = p
    · subst hq
      rw [update_self] at hf
      rw [update_of_ne (Ne.symm hne)]
      cases hf
      exact ⟨hnofresh r, h.freed_of_refs r hfree⟩
    · rw [update_of_ne hq] at hf
      obtain ⟨hother, hrest⟩ := h.apart q r j k' hne hf
      by_cases hr : r = p
      · subst hr
        rw [update_self]
        refine ⟨fun k'' hk => ?_, hrest⟩
        cases hk
        exact hnofresh q k' hf
      · rw [update_of_ne hr]
        exact ⟨hother, hrest⟩
  · intro j
    show update s.birth i (s.clock + 1) j ≤ s.clock + 1
    by_cases hj : j = i
    · rw [hj, update_self]
    · rw [update_of_ne hj]
      exact Nat.le_succ_of_le (h.births j)
  · obtain ⟨credit, htotal, htree⟩ := h.tree
    have hcredit : ∀ q, (L q).credit i = 0 := by
      intro q
      by_contra hpos
      obtain ⟨hr, hd⟩ := (h.own q).credit_refs i (Nat.pos_of_ne_zero hpos)
      exact hd (h.freed_of_refs q hfree hr)
    have hcredit0 : credit i = 0 := by
      by_contra hpos
      have hlt : (L p).credit i < credit i := by
        rw [hcredit p]
        exact Nat.pos_of_ne_zero hpos
      obtain ⟨q, -, hq⟩ := (htotal i).exists_ne hlt
      exact absurd (hcredit q) hq.ne'
    refine ⟨credit, fun j => (htotal j).goto rfl rfl, (htree.alloc hfree hlt hcredit0).congr_raw ?_⟩
    intro j
    have hp : ¬ (L p).Raw j := by simp [Local.Raw, hfresh, hdying]
    have hp' : Local.Raw { L p with fresh := some (i, k) } j ↔ j = i := by simp [Local.Raw, hdying, eq_comm]
    constructor
    · rintro (⟨q, hq⟩ | rfl)
      · have hqp : q ≠ p := by
          rintro rfl
          exact hp hq
        exact ⟨q, by rwa [update_of_ne hqp]⟩
      · exact ⟨p, by rw [update_self]; exact hp'.2 rfl⟩
    · rintro ⟨q, hq⟩
      by_cases hqp : q = p
      · subst hqp
        rw [update_self] at hq
        exact .inr (hp'.1 hq)
      · rw [update_of_ne hqp] at hq
        exact .inl ⟨q, hq⟩

theorem knows_ialloc {dp : Inum} {k : Kind} (hdying : l.dying = none) (hfresh : l.fresh = none) :
    Knows strict p (act (.ialloc dp k))
      (fun (i : Inum) l' => l' = { l with fresh := some (i, k) } ∧ l.refs i = 0 ∧
        ∀ nd, l.held dp = some nd → 0 < nd.nlink) l := by
  refine Logic.wp_perform fun s L hinv hl => ⟨trivial, fun (i : Inum) s' hguard hrun => ?_⟩
  subst hl
  obtain ⟨hfree, hlt, rfl⟩ := run_ialloc hrun
  refine ⟨{ L p with fresh := some (i, k) }, hinv.newInode hdying hfresh hfree hlt, rfl, ?_, ?_⟩
  · by_contra hpos
    have hfreed := hinv.freed_of_refs p hfree (Nat.pos_of_ne_zero hpos)
    rw [hdying] at hfreed
    cases hfreed
  · intro nd hnd
    have hview := (hinv.own p).view dp nd hnd (by simp [hdying])
    have hnonneg := hinv.nlink_nonneg dp ((hinv.own p).alloc dp
      ((hinv.own p).held_refs dp (by simp [hnd])) (by simp [hdying]))
    have hne : (s.node dp).nlink ≠ 0 := hguard
    rw [hview] at hnonneg hne
    omega

theorem knows_dots {j : Inum} (hfresh : l.fresh = some (i, .dir))
    (hheld : l.held i = some nd) (hdying : l.dying = none)
    (hnew : n = dot ∧ j = i ∨ n = dotdot ∧ ∃ dnd, l.held j = some dnd ∧ dnd.kind = some .dir ∧
      (l.credit j : Int) < dnd.nlink) :
    Knows strict p (writei i (freeEntry nd.ents) (some (n, j)))
      (fun _ l' => l' = l.see i { nd with ents := writeEntry nd.ents (freeEntry nd.ents) (some (n, j)) }) l := by
  refine Logic.wp_perform fun s L hinv hl => ⟨trivial, fun r s' _ hrun => ?_⟩
  cases hrun
  subst hl
  have hown := hinv.own p
  obtain rfl : s.node i = nd := hown.view i nd hheld (by simp [hdying])
  have hne : (L p).held i ≠ none := by simp [hheld]
  refine ⟨_, hinv.revise hdying hne rfl (fun _ h => h) (fun _ hj => .inr hj) ?_, rfl⟩
  intro credit htotal htree
  refine ⟨credit, fun _ => rfl, htree.dots (.inl (.inl ⟨_, hfresh⟩)) (hown.fresh i _ hfresh).2.1 ?_⟩
  refine hnew.imp_right (And.imp_right ?_)
  rintro ⟨dnd, hj, hkind, hlt⟩
  have hjne : (L p).held j ≠ none := by simp [hj]
  obtain rfl := hown.view j dnd hj (by simp [hdying])
  exact htree.linked_of_nlink hkind (by rwa [hinv.credit_eq htotal hjne hkind])

theorem Inv.enter (h : Inv strict s L)
    (hdying : (L p).dying = none) (hheld : (L p).held d ≠ none) (hdir : (s.node d).kind = some .dir)
    (hn : Proper n) (hne : d ≠ i) (hlinked : ((L p).credit d : Int) < (s.node d).nlink)
    (hi : 0 < (L p).credit i)
    (hfresh : (L p).fresh = none ∨ ∃ k, (L p).fresh = some (i, k))
    (hnew : (s.node i).kind = some .dir → (L p).fresh ≠ none ∧ (s.node i).ents = [some (dot, i), some (dotdot, d)])
    (hcredit : ∀ j, (L p).credit j = c j + (if j = i then 1 else 0) +
      if j = d ∧ (s.node i).kind = some .dir then 1 else 0) :
    Inv strict { s with node := update s.node d ({ s.node d with
        ents := writeEntry (s.node d).ents (freeEntry (s.node d).ents) (some (n, i)) }) }
      (update L p { (L p).see d { s.node d with
        ents := writeEntry (s.node d).ents (freeEntry (s.node d).ents) (some (n, i)) } with
        credit := c, fresh := none }) := by
  have hown := h.own p
  obtain ⟨hrefs, -⟩ := hown.credit_refs i hi
  have hrefsd := hown.held_refs d hheld
  refine h.revise hdying hheld rfl (fun _ h => nomatch h) ?_ ?_
  · intro j hj
    right
    rw [hcredit j]
    exact Nat.lt_add_right _ (Nat.lt_add_right _ hj)
  · intro credit htotal htree
    have hle : ∀ j, (L p).credit j ≤ credit j := fun j => (htotal j).le p
    have hotherraw : ∀ j, 0 < (L p).refs j → ¬ ∃ q, q ≠ p ∧ (L q).Raw j := by
      rintro j hj ⟨q, hq, hraw⟩
      exact h.not_raw hj hdying hq hraw
    have hrawp : ∀ j, (L p).Raw j → j = i := by
      rintro j (⟨k, hk⟩ | hk)
      · rcases hfresh with hf | ⟨k', hf⟩
        · cases hf.symm.trans hk
        · cases hf.symm.trans hk
          rfl
      · cases hdying.symm.trans hk
    refine ⟨fun j => credit j - (if j = i then 1 else 0) -
      (if j = d ∧ (s.node i).kind = some .dir then 1 else 0), ?_, ?_⟩
    · intro j
      have hj := hcredit j
      have hlej := hle j
      show credit j - _ - _ + _ = _ + c j
      omega
    · refine (htree.enter (htree.linked_of_nlink hdir (by rwa [h.credit_eq htotal hheld hdir])) ?_ hn
        (hown.alloc i hrefs (by simp [hdying])) ?_ ?_).congr_raw ?_
      · rintro (hr | hr)
        · exact hne (hrawp d hr)
        · exact hotherraw d hrefsd hr
      · intro hk
        obtain ⟨hf, hents⟩ := hnew hk
        obtain ⟨k, hf⟩ := hfresh.resolve_left hf
        exact ⟨.inl (.inl ⟨k, hf⟩), hents, (hown.fresh i k hf).2.2.2 d hne hheld⟩
      · intro j
        have hj := hcredit j
        have hlej := hle j
        omega
      · intro j
        constructor
        · rintro ⟨hr | hr, hji⟩
          · exact absurd (hrawp j hr) hji
          · exact .inr hr
        · rintro (hr | hr)
          · simp [Local.Raw, Local.see, hdying] at hr
          · refine ⟨.inr hr, ?_⟩
            rintro rfl
            exact hotherraw j hrefs hr

theorem Inv.proper_of_findEntry (h : Inv strict s L)
    (hdying : (L p).dying = none) (hheld : (L p).held d ≠ none) (hdir : (s.node d).kind = some .dir)
    (hraw : ¬ (L p).Raw d) (hnone : findEntry n (s.node d).ents = none) : Proper n := by
  obtain ⟨credit, -, htree⟩ := h.tree_of p
  have hraw' : ¬ ((L p).Raw d ∨ ∃ q, q ≠ p ∧ (L q).Raw d) := by
    rintro (hr | ⟨q, hq, hr⟩)
    · exact hraw hr
    · exact h.not_raw ((h.own p).held_refs d hheld) hdying hq hr
  obtain ⟨q, rest, hents, -⟩ := htree.shape d hdir hraw'
  refine ⟨?_, ?_⟩
  · rintro rfl
    exact findEntry_eq_none hnone d (by simp [hents])
  · rintro rfl
    exact findEntry_eq_none hnone q (by simp [hents])

theorem knows_enter_fresh {nd ndi : Node} {k : Kind}
    (hdying : l.dying = none) (hheld : l.held d = some nd) (hdir : nd.kind = some .dir)
    (hnone : findEntry n nd.ents = none) (hne : d ≠ i) (hlinked : (l.credit d : Int) < nd.nlink) (hi : 0 < l.credit i)
    (hfresh : l.fresh = some (i, k)) (hheldi : l.held i = some ndi)
    (hnew : k = .dir → ndi.ents = [some (dot, i), some (dotdot, d)])
    (hcredit : ∀ j, l.credit j = c j + (if j = i then 1 else 0) + if j = d ∧ k = .dir then 1 else 0) :
    Knows strict p (writei d (freeEntry nd.ents) (some (n, i)))
      (fun _ l' => l' = { l.see d
        { nd with ents := writeEntry nd.ents (freeEntry nd.ents) (some (n, i)) } with
        credit := c, fresh := none }) l := by
  refine Logic.wp_perform fun s L hinv hl => ⟨trivial, fun r s' _ hrun => ?_⟩
  cases hrun
  subst hl
  have hown := hinv.own p
  obtain rfl : s.node d = nd := hown.view d nd hheld (by simp [hdying])
  have hraw : ¬ (L p).Raw d := by simp [Local.Raw, hfresh, hdying, hne.symm]
  have hn := hinv.proper_of_findEntry hdying (by simp [hheld]) hdir hraw hnone
  refine ⟨_, ?_, rfl⟩
  refine hinv.enter hdying (by simp [hheld]) hdir hn hne hlinked hi (.inr ⟨k, hfresh⟩) ?_ ?_
  all_goals grind

theorem knows_enter_plain (hdying : l.dying = none)
    (hheld : l.held d = some nd) (hdir : nd.kind = some .dir) (hnone : findEntry n nd.ents = none)
    (hd : l.credit d = 0)
    (hi : 0 < l.credit i) (hfresh : l.fresh = none) (hheldi : l.held i = none)
    (hcredit : ∀ j, l.credit j = c j + if j = i then 1 else 0) :
    Knows strict p (writei d (freeEntry nd.ents) (some (n, i)))
      (fun _ l' => l' = { l.see d
        { nd with ents := writeEntry nd.ents (freeEntry nd.ents) (some (n, i)) } with
        credit := c, fresh := none }) l := by
  refine Logic.wp_perform fun s L hinv hl => ⟨trivial, fun r s' hguard hrun => ?_⟩
  cases hrun
  subst hl
  have hown := hinv.own p
  obtain rfl : s.node d = nd := hown.view d nd hheld (by simp [hdying])
  have hne : d ≠ i := by
    rintro rfl
    cases hheld.symm.trans hheldi
  have hplain : (s.node i).kind ≠ some .dir := (hown.credit_held i hi).resolve_left (not_not.2 hheldi)
  have hraw : ¬ (L p).Raw d := by simp [Local.Raw, hfresh, hdying]
  have hn := hinv.proper_of_findEntry hdying (by simp [hheld]) hdir hraw hnone
  have hnonneg := hinv.nlink_nonneg d (by rw [hdir]; exact Option.some_ne_none _)
  have hpos : (s.node d).nlink ≠ 0 := hguard hn
  refine ⟨_, ?_, rfl⟩
  refine hinv.enter hdying (by simp [hheld]) hdir hn hne (by rw [hd]; push_cast; omega) hi (.inl hfresh)
    (fun hk => absurd hk hplain) ?_
  simpa [hplain] using hcredit

theorem not_proper_of_isdirempty {es rest : List Dirent} {a b n : Name} {i j q : Inum}
    (hes : es = some (a, i) :: some (b, q) :: rest) (ha : ¬ Proper a) (hb : ¬ Proper b)
    (hempty : isdirempty es = true) (hmem : some (n, j) ∈ es) : ¬ Proper n := by
  subst hes
  rcases List.mem_cons.1 hmem with heq | hmem
  · cases heq
    exact ha
  · rcases List.mem_cons.1 hmem with heq | hmem
    · cases heq
      exact hb
    · have hall : ∀ e ∈ rest, e = none := by simpa [isdirempty] using hempty
      cases hall _ hmem

theorem knows_erase {nd ndi : Node} {off : Nat} (hdying : l.dying = none)
    (hfresh : l.fresh = none) (hheld : l.held d = some nd) (hheldi : l.held i = some ndi)
    (hoff : nd.ents[off]? = some (some (n, i))) (hn : Proper n)
    (hempty : ndi.kind = some .dir → isdirempty ndi.ents = true)
    (hcredit : ∀ j, c j = l.credit j + (if j = i then 1 else 0) +
      if j = d ∧ ndi.kind = some .dir then 1 else 0) :
    Knows strict p (writei d off none)
      (fun _ l' => l' = { l.see d { nd with ents := writeEntry nd.ents off none } with
        credit := c }) l := by
  refine Logic.wp_perform fun s L hinv hl => ⟨trivial, fun r s' hguard hrun => ?_⟩
  cases hrun
  subst hl
  have hown := hinv.own p
  obtain rfl : s.node d = nd := hown.view d nd hheld (by simp [hdying])
  obtain rfl : s.node i = ndi := hown.view i ndi hheldi (by simp [hdying])
  have hne : (L p).held d ≠ none := by simp [hheld]
  have hnei : (L p).held i ≠ none := by simp [hheldi]
  have hrawp : ∀ j, ¬ (L p).Raw j := by simp [Local.Raw, hfresh, hdying]
  refine ⟨_, hinv.revise hdying hne rfl (fun _ h => h) ?_ ?_, rfl⟩
  · grind
  · intro credit htotal htree
    refine ⟨fun j => credit j + (if j = i then 1 else 0) +
      (if j = d ∧ (s.node i).kind = some .dir then 1 else 0), ?_, htree.erase hoff hn ?_ fun _ => rfl⟩
    · grind
    · intro hk
      refine ⟨fun m j hmem => ?_, hguard n i hoff hk⟩
      have hraw : ¬ ((L p).Raw i ∨ ∃ q, q ≠ p ∧ (L q).Raw i) := by
        rintro (hr | ⟨q, hq, hr⟩)
        · exact hrawp i hr
        · exact hinv.not_raw (hown.held_refs i hnei) hdying hq hr
      obtain ⟨q, rest, hents, -⟩ := htree.shape i hk hraw
      exact not_proper_of_isdirempty hents dot_not_proper dotdot_not_proper (hempty hk) hmem

end Rules

end AsoPracticas.Xv6.Naming
