import AsoPracticas.Xv6.Naming
import Mathlib.Algebra.BigOperators.Group.Finset.Piecewise
import Mathlib.Tactic.Ring

/-!
# Directories — link counts and the directory tree

What holds of the inodes of a file system while names are added and removed, whoever does it.  Link
counts may be ahead of the names by a `credit`, which is what running calls have still to write, and
inodes that are being created or freed are `raw`: nothing names them.
-/

namespace AsoPracticas.Xv6.Naming

open Function (update update_of_ne update_self)

open Finset

/-! ## Counting entries -/

/-- The entry gives a name to inode `i`. -/
def Dirent.names (i : Inum) : Dirent → Bool
  | none => false
  | some (n, j) => decide (j = i ∧ Proper n)

def Dirent.subdir (node : Inum → Node) : Dirent → Bool
  | none => false
  | some (n, j) => decide ((node j).kind = some .dir ∧ Proper n)

/-- Number of names of inode `i` in all directories. -/
def links (node : Inum → Node) (i : Inum) : Nat :=
  ∑ d ∈ range NINODES, (node d).ents.countP (Dirent.names i)

/-- Number of subdirectories of directory `d`. -/
def subdirs (node : Inum → Node) (d : Inum) : Nat :=
  (node d).ents.countP (Dirent.subdir node)

/-- A directory that can be reached by names. -/
def Linked (node : Inum → Node) (q : Inum) : Prop :=
  (node q).kind = some .dir ∧ (q = rootino ∨ 0 < links node q)

/-! ## Entries written and erased -/

section Entries

variable {es : List Dirent} {e : Name × Inum} {f : Dirent → Bool}

theorem writeEntry_nil : writeEntry [] (freeEntry []) (some e) = [some e] := rfl

theorem writeEntry_none : writeEntry (none :: es) (freeEntry (none :: es)) (some e) = some e :: es := by
  simp [writeEntry, freeEntry, List.findIdx_cons]

theorem writeEntry_some {x : Name × Inum} :
    writeEntry (some x :: es) (freeEntry (some x :: es)) (some e) =
      some x :: writeEntry es (freeEntry es) (some e) := by
  unfold writeEntry freeEntry
  grind

theorem countP_writeEntry (hf : f none = false) :
    (writeEntry es (freeEntry es) (some e)).countP f = es.countP f + if f (some e) then 1 else 0 := by
  induction es with
  | nil => simp [writeEntry_nil, List.countP_cons]
  | cons x es ih => grind [writeEntry, freeEntry]

theorem mem_writeEntry {x : Name × Inum} : some x ∈ writeEntry es (freeEntry es) (some e) ↔ some x ∈ es ∨ x = e := by
  induction es with
  | nil => simp [writeEntry_nil]
  | cons y es ih =>
    cases y with
    | none => simp [writeEntry_none, or_comm]
    | some y => rw [writeEntry_some, List.mem_cons, ih, List.mem_cons, or_assoc]

theorem countP_set_none {off : Nat} (hf : f none = false) (hoff : es[off]? = some (some e)) :
    (es.set off none).countP f + (if f (some e) then 1 else 0) = es.countP f := by
  grind

theorem mem_of_mem_set_none {off : Nat} {x : Name × Inum} (h : some x ∈ es.set off none) : some x ∈ es := by
  rcases List.mem_or_eq_of_mem_set h with hmem | heq
  · exact hmem
  · cases heq

theorem writeEntry_of_some {off : Nat} {x : Dirent} {de : Dirent} (hoff : es[off]? = some x) :
    writeEntry es off de = es.set off de := by
  obtain ⟨hlt, -⟩ := List.getElem?_eq_some_iff.1 hoff
  simp [writeEntry, hlt]

theorem findEntry_eq_some {name : Name} {i : Inum} {off : Nat}
    (h : findEntry name es = some (i, off)) : es[off]? = some (some (name, i)) := by
  induction es generalizing off with
  | nil => simp [findEntry] at h
  | cons x es ih =>
    cases x with
    | none =>
      simp only [findEntry, Option.map_eq_some_iff] at h
      grind
    | some x =>
      obtain ⟨n, j⟩ := x
      simp only [findEntry] at h
      split at h
      · rename_i hn
        cases h
        simp [hn]
      · simp only [Option.map_eq_some_iff] at h
        grind

theorem findEntry_eq_none {name : Name} (h : findEntry name es = none) (i : Inum) : some (name, i) ∉ es := by
  induction es with
  | nil => simp
  | cons x es ih =>
    cases x with
    | none =>
      simp only [findEntry, Option.map_eq_none_iff] at h
      simpa using ih h
    | some x => grind [findEntry, Option.map_eq_none_iff]

end Entries

/-! ## Changing one inode -/

section Counts

variable {node : Inum → Node} {i j d : Inum} {n : Name} {nd : Node}

theorem names_some : Dirent.names i (some (n, j)) = true ↔ j = i ∧ Proper n := by
  simp [Dirent.names]

theorem links_pos_of_mem (hd : d < NINODES) (hmem : some (n, i) ∈ (node d).ents) (hn : Proper n) :
    0 < links node i := by
  have hcount : 0 < (node d).ents.countP (Dirent.names i) :=
    List.countP_pos_iff.2 ⟨_, hmem, names_some.2 ⟨rfl, hn⟩⟩
  exact hcount.trans_le
    (Finset.single_le_sum (f := fun d => (node d).ents.countP (Dirent.names i))
      (fun _ _ => Nat.zero_le _) (Finset.mem_range.2 hd))

theorem exists_mem_of_links_pos (h : 0 < links node i) : ∃ d n, some (n, i) ∈ (node d).ents ∧ Proper n := by
  obtain ⟨d, -, hd⟩ := Finset.exists_ne_zero_of_sum_ne_zero (Nat.pos_iff_ne_zero.1 h)
  obtain ⟨e, hmem, he⟩ := List.countP_pos_iff.1 (Nat.pos_of_ne_zero hd)
  rcases e with _ | ⟨n, k⟩
  · cases he
  · obtain ⟨rfl, hn⟩ := names_some.1 he
    exact ⟨d, n, hmem, hn⟩

theorem links_update (hd : d < NINODES) :
    links (update node d nd) i + (node d).ents.countP (Dirent.names i) =
      links node i + nd.ents.countP (Dirent.names i) := by
  have hmem := Finset.mem_range.2 hd
  unfold links
  rw [← Finset.add_sum_erase _ _ hmem, ← Finset.add_sum_erase (range NINODES) (fun d => _) hmem, update_self]
  grind [Finset.sum_congr]

theorem links_update_of_ents (hents : nd.ents = (node d).ents) : links (update node d nd) i = links node i := by
  unfold links
  grind

theorem subdirs_update_of_ne (hne : j ≠ d)
    (h : nd.kind = (node d).kind ∨ ∀ n, some (n, d) ∈ (node j).ents → ¬ Proper n) :
    subdirs (update node d nd) j = subdirs node j := by
  unfold subdirs
  rw [update_of_ne hne]
  apply List.countP_congr
  intro e he
  rcases e with _ | ⟨n, k⟩
  · rfl
  · by_cases hk : k = d
    all_goals grind [Dirent.subdir]

theorem subdirs_update_self (hkind : nd.kind = (node d).kind) :
    subdirs (update node d nd) d = nd.ents.countP (Dirent.subdir node) := by
  unfold subdirs
  rw [update_self]
  apply List.countP_congr
  intro e _
  rcases e with _ | ⟨n, k⟩
  · rfl
  · by_cases hk : k = d
    · subst hk
      simp [Dirent.subdir, hkind]
    · simp [Dirent.subdir, hk]

theorem kind_update (hkind : nd.kind = (node d).kind) (j : Inum) : (update node d nd j).kind = (node j).kind := by
  by_cases hj : j = d
  all_goals grind

end Counts

/-! ## The invariant -/

/-- Link counts, names and directories agree.  A directory is named at most once, by an older one; the
parent in its entry `..` is older too and can be reached by names; and a directory without a name has
no entries but `.` and `..`. -/
@[grind cases eager]
structure Tree (node : Inum → Node) (birth credit : Inum → Nat) (raw : Inum → Prop) : Prop where
  bounded : ∀ i, (node i).kind ≠ none → i < NINODES
  ents_eq : ∀ i, (node i).kind ≠ some .dir → (node i).ents = []
  account : ∀ i, (node i).kind ≠ none →
    (node i).nlink = (if i = rootino then 1 else 0) + links node i + subdirs node i + credit i
  named : ∀ d n i, some (n, i) ∈ (node d).ents → Proper n → (node i).kind ≠ none
  root : Linked node rootino ∧ ¬ raw rootino ∧ links node rootino = 0
  raw_links : ∀ i, raw i → links node i = 0
  raw_ents : ∀ d n j, raw d → some (n, j) ∈ (node d).ents → n = dot ∧ j = d ∨ n = dotdot ∧ Linked node j
  shape : ∀ d, (node d).kind = some .dir → ¬ raw d → ∃ q rest,
    (node d).ents = some (dot, d) :: some (dotdot, q) :: rest ∧
      (∀ n j, some (n, j) ∈ rest → Proper n) ∧ Linked node q ∧ (d ≠ rootino → birth q < birth d)
  orphan : ∀ d n j, (node d).kind = some .dir → d ≠ rootino → links node d = 0 →
    some (n, j) ∈ (node d).ents → ¬ Proper n
  once : ∀ d, (node d).kind = some .dir → links node d ≤ 1
  older : ∀ d n i, some (n, i) ∈ (node d).ents → Proper n → (node i).kind = some .dir → birth d < birth i

theorem dot_not_proper : ¬ Proper dot := by decide

theorem dotdot_not_proper : ¬ Proper dotdot := by decide

theorem Linked.allocated {node : Inum → Node} {q : Inum} (h : Linked node q) : (node q).kind ≠ none := by
  rw [h.1]
  exact Option.some_ne_none _

namespace Tree

variable {node : Inum → Node} {birth credit credit' : Inum → Nat} {raw raw' : Inum → Prop} {d i j q : Inum} {n : Name}

theorem congr_raw (h : Tree node birth credit raw) (hraw : ∀ i, raw i ↔ raw' i) :
    Tree node birth credit raw' := by
  rwa [show raw' = raw from funext fun i => propext (hraw i).symm]

theorem dir_of_mem (h : Tree node birth credit raw) {e : Dirent} (hmem : e ∈ (node d).ents) :
    (node d).kind = some .dir := by
  by_contra hkind
  rw [h.ents_eq d hkind] at hmem
  cases hmem

theorem lt_of_mem (h : Tree node birth credit raw) {e : Dirent} (hmem : e ∈ (node d).ents) : d < NINODES := by
  apply h.bounded
  rw [h.dir_of_mem hmem]
  exact Option.some_ne_none _

theorem links_pos (h : Tree node birth credit raw) (hmem : some (n, i) ∈ (node d).ents)
    (hn : Proper n) : 0 < links node i :=
  links_pos_of_mem (h.lt_of_mem hmem) hmem hn

theorem links_free (h : Tree node birth credit raw) (hi : (node i).kind = none) : links node i = 0 := by
  by_contra hlinks
  grind [exists_mem_of_links_pos]

theorem not_mem_of_links (h : Tree node birth credit raw) (hi : links node i = 0) (d : Inum) (n : Name)
    (hmem : some (n, i) ∈ (node d).ents) : ¬ Proper n := by
  intro hn
  have hpos := h.links_pos hmem hn
  omega

theorem nlink_pos_of_linked (h : Tree node birth credit raw) (hq : Linked node q) : 0 < (node q).nlink := by
  grind [Linked]

theorem nlink_pos_of_mem (h : Tree node birth credit raw) (hmem : some (n, i) ∈ (node d).ents)
    (hn : Proper n) : 0 < (node i).nlink := by
  have haccount := h.account i (h.named d n i hmem hn)
  have hpos := h.links_pos hmem hn
  split at haccount <;> omega

theorem allocated_of_mem (h : Tree node birth credit raw) (hmem : some (n, i) ∈ (node d).ents) :
    (node i).kind ≠ none := by
  by_cases hn : Proper n
  · exact h.named d n i hmem hn
  · have hdir := h.dir_of_mem hmem
    have hself : (node d).kind ≠ none := by
      rw [hdir]
      exact Option.some_ne_none _
    by_cases hraw : raw d
    · rcases h.raw_ents d n i hraw hmem with ⟨-, rfl⟩ | ⟨-, hlinked⟩
      · exact hself
      · exact hlinked.allocated
    · obtain ⟨q, rest, hents, hrest, hq, -⟩ := h.shape d hdir hraw
      rw [hents] at hmem
      rcases List.mem_cons.1 hmem with heq | hmem
      · cases heq
        exact hself
      · rcases List.mem_cons.1 hmem with heq | hmem
        · cases heq
          exact hq.allocated
        · exact absurd (hrest n i hmem) hn

/-- A directory with entries, or with more links than running calls account for, can be reached by
names. -/
theorem linked_of_nlink (h : Tree node birth credit raw) (hd : (node d).kind = some .dir)
    (hlt : (credit d : Int) < (node d).nlink) : Linked node d := by
  refine ⟨hd, ?_⟩
  by_contra hnone
  push Not at hnone
  obtain ⟨hroot, hlinks⟩ := hnone
  have hlinks : links node d = 0 := by omega
  have haccount := h.account d (by rw [hd]; exact Option.some_ne_none _)
  have hsub : subdirs node d = 0 := by
    apply List.countP_eq_zero.2
    intro e hmem
    rcases e with _ | ⟨n, j⟩
    all_goals grind [Dirent.subdir]
  rw [if_neg hroot, hlinks, hsub] at haccount
  omega

/-! ### Link counts -/

theorem relink (h : Tree node birth credit raw) {m : Int} {c : Nat} (hm : m + credit i = (node i).nlink + c) :
    Tree (update node i { node i with nlink := m }) birth (update credit i c) raw := by
  have hkind : ∀ j, (update node i { node i with nlink := m } j).kind = (node j).kind := kind_update rfl
  have hlinks : ∀ j, links (update node i { node i with nlink := m }) j = links node j :=
    fun j => links_update_of_ents rfl
  have hlinked : ∀ q, Linked (update node i { node i with nlink := m }) q ↔ Linked node q := by
    intro q
    simp only [Linked, hkind, hlinks]
  have hsub : ∀ j, subdirs (update node i { node i with nlink := m }) j = subdirs node j := by
    intro j
    by_cases hj : j = i
    · subst hj
      exact subdirs_update_self rfl
    · exact subdirs_update_of_ne hj (.inl rfl)
  constructor
  all_goals grind

/-! ### Inodes that are allocated and freed -/

theorem alloc (h : Tree node birth credit raw) {k : Kind} {b : Nat} (hi : (node i).kind = none)
    (hlt : i < NINODES) (hcredit : credit i = 0) :
    Tree (update node i { kind := some k, nlink := 0, ents := [] })
      (update birth i b) credit (fun j => raw j ∨ j = i) := by
  have hempty : (node i).ents = [] := h.ents_eq i (by simp [hi])
  have hfree := h.links_free hi
  have hroot : rootino ≠ i := by
    rintro rfl
    exact h.root.1.allocated hi
  have hlinks : ∀ j, links (update node i { kind := some k, nlink := 0, ents := [] }) j =
      links node j := fun j => links_update_of_ents hempty.symm
  have hlinked : ∀ q, Linked node q → Linked (update node i { kind := some k, nlink := 0, ents := [] }) q := by
    intro q hq
    have hne : q ≠ i := by
      rintro rfl
      exact hq.allocated hi
    refine ⟨?_, ?_⟩
    · rw [update_of_ne hne]
      exact hq.1
    · rw [hlinks]
      exact hq.2
  -- an entry is in another directory and names another inode
  have hmem_ne : ∀ {d n j}, some (n, j) ∈ (node d).ents → d ≠ i ∧ j ≠ i := by
    intro d n j hmem
    refine ⟨?_, ?_⟩
    · rintro rfl
      rw [hempty] at hmem
      cases hmem
    · rintro rfl
      exact h.allocated_of_mem hmem hi
  constructor
  case bounded => grind
  case ents_eq => grind
  case account =>
    intro j hj
    rw [hlinks]
    by_cases hji : j = i
    · grind [subdirs]
    · rw [subdirs_update_of_ne hji (.inr fun n hmem => h.not_mem_of_links hfree j n hmem)]
      rw [update_of_ne hji] at hj ⊢
      exact h.account j hj
  all_goals grind

theorem empty (h : Tree node birth credit raw) (hi : (node i).kind ≠ none) (hnlink : (node i).nlink = 0) :
    Tree (update node i { node i with ents := [] }) birth credit (fun j => raw j ∨ j = i) := by
  have haccount := h.account i hi
  have hiroot : i ≠ rootino := by
    rintro rfl
    rw [if_pos rfl] at haccount
    omega
  have hi0 : links node i = 0 := by omega
  have hproper : ∀ n j, some (n, j) ∈ (node i).ents → ¬ Proper n := fun n j hmem =>
    h.orphan i n j (h.dir_of_mem hmem) hiroot hi0 hmem
  have hlinks : ∀ j, links (update node i { node i with ents := [] }) j = links node j := by
    intro j
    have hsum : links (update node i { node i with ents := [] }) j +
        (node i).ents.countP (Dirent.names j) = links node j + 0 := links_update (h.bounded i hi)
    have hnone : (node i).ents.countP (Dirent.names j) = 0 := by
      apply List.countP_eq_zero.2
      intro e hmem
      rcases e with _ | ⟨n, k⟩
      · simp [Dirent.names]
      · simp [Dirent.names, hproper n k hmem]
    omega
  have hsub : ∀ j, j ≠ i → subdirs (update node i { node i with ents := [] }) j = subdirs node j :=
    fun j hj => subdirs_update_of_ne hj (.inl rfl)
  have hsub0 : subdirs (update node i { node i with ents := [] }) i = 0 := by simp [subdirs]
  have hkind : ∀ j, (update node i { node i with ents := [] } j).kind = (node j).kind := kind_update rfl
  have hself : update node i { node i with ents := [] } i = { node i with ents := [] } := update_self ..
  have hother : ∀ j, j ≠ i → update node i { node i with ents := [] } j = node j :=
    fun j hj => update_of_ne hj ..
  generalize update node i { node i with ents := [] } = node' at *
  have hlinked : ∀ q, Linked node' q ↔ Linked node q := by
    intro q
    simp only [Linked, hkind, hlinks]
  -- what is in a directory now was there before, and the directory is another one
  have hmem' : ∀ {d n j}, some (n, j) ∈ (node' d).ents → d ≠ i ∧ some (n, j) ∈ (node d).ents := by grind
  constructor
  all_goals grind

theorem clear (h : Tree node birth credit raw) {m : Int} (hi : raw i) (hempty : (node i).ents = []) :
    Tree (update node i { node i with kind := none, nlink := m }) birth credit (fun j => raw j ∧ j ≠ i) := by
  have hi0 := h.raw_links i hi
  have hiroot : rootino ≠ i := by
    rintro rfl
    exact h.root.2.1 hi
  have hents : ∀ j, (update node i { node i with kind := none, nlink := m } j).ents = (node j).ents := by
    intro j
    by_cases hj : j = i
    · subst hj
      rw [update_self]
    · rw [update_of_ne hj]
  have hlinks : ∀ j, links (update node i { node i with kind := none, nlink := m }) j =
      links node j := fun j => links_update_of_ents rfl
  have hself : (update node i { node i with kind := none, nlink := m } i).kind = none := by rw [update_self]
  have hne : ∀ {j}, (update node i { node i with kind := none, nlink := m } j).kind ≠ none → j ≠ i := by
    rintro j hj rfl
    exact hj hself
  have hlinked : ∀ q, Linked node q → Linked (update node i { node i with kind := none, nlink := m }) q := by
    intro q hq
    have hqi : q ≠ i := by
      rintro rfl
      rcases hq.2 with heq | hpos
      · exact hiroot heq.symm
      · omega
    refine ⟨?_, ?_⟩
    · rw [update_of_ne hqi]
      exact hq.1
    · rw [hlinks]
      exact hq.2
  constructor
  case bounded => grind
  case ents_eq => grind
  case account =>
    intro j hj
    have hji := hne hj
    rw [hlinks, subdirs_update_of_ne hji (.inr fun n hmem => h.not_mem_of_links hi0 j n hmem)]
    rw [update_of_ne hji] at hj ⊢
    exact h.account j hj
  case named =>
    intro d n j hmem hn
    rw [hents] at hmem
    have hji : j ≠ i := by
      rintro rfl
      exact h.not_mem_of_links hi0 d n hmem hn
    rw [update_of_ne hji]
    exact h.named d n j hmem hn
  all_goals grind

/-! ### Entries -/

theorem dots (h : Tree node birth credit raw) (hd : raw d) (hdir : (node d).kind = some .dir)
    (hnew : n = dot ∧ j = d ∨ n = dotdot ∧ Linked node j) :
    Tree (update node d { node d with ents := writeEntry (node d).ents (freeEntry (node d).ents) (some (n, j)) })
      birth credit raw := by
  have hn : ¬ Proper n := by grind [dot_not_proper, dotdot_not_proper]
  generalize hnd : ({ node d with
    ents := writeEntry (node d).ents (freeEntry (node d).ents) (some (n, j)) } : Node) = nd
  have hnents : nd.ents = writeEntry (node d).ents (freeEntry (node d).ents) (some (n, j)) := by rw [← hnd]
  have hnkind : nd.kind = (node d).kind := by rw [← hnd]
  have hkind : ∀ i, (update node d nd i).kind = (node i).kind := kind_update hnkind
  have hlinks : ∀ i, links (update node d nd) i = links node i := by
    grind [Dirent.names, links_update, countP_writeEntry]
  have hsub : ∀ i, subdirs (update node d nd) i = subdirs node i := by
    intro i
    by_cases hi : i = d
    · subst hi
      rw [subdirs_update_self hnkind, hnents, countP_writeEntry rfl, if_neg (by simp [Dirent.subdir, hn])]
      rfl
    · exact subdirs_update_of_ne hi (.inl hnkind)
  have hlinked : ∀ q, Linked (update node d nd) q ↔ Linked node q := by
    intro q
    simp only [Linked, hkind, hlinks]
  -- the new entry is none that counts
  have hmem' : ∀ {e m k}, some (m, k) ∈ (update node d nd e).ents →
      some (m, k) ∈ (node e).ents ∨ e = d ∧ m = n ∧ k = j := by
    intro e m k hmem
    by_cases he : e = d
    · grind [mem_writeEntry]
    · rw [update_of_ne he] at hmem
      exact .inl hmem
  constructor
  all_goals grind

theorem enter (h : Tree node birth credit raw) (hd : Linked node d) (hraw : ¬ raw d) (hn : Proper n)
    (hi : (node i).kind ≠ none)
    (hdir : (node i).kind = some .dir → raw i ∧ (node i).ents = [some (dot, i), some (dotdot, d)] ∧ birth d < birth i)
    (hcredit : ∀ j, credit j = credit' j + (if j = i then 1 else 0) +
      if j = d ∧ (node i).kind = some .dir then 1 else 0) :
    Tree (update node d { node d with ents := writeEntry (node d).ents (freeEntry (node d).ents) (some (n, i)) })
      birth credit' (fun j => raw j ∧ j ≠ i) := by
  have hlt : d < NINODES := h.bounded d hd.allocated
  have hne : i ≠ d := by
    rintro rfl
    exact hraw (hdir hd.1).1
  generalize hnd : ({ node d with
    ents := writeEntry (node d).ents (freeEntry (node d).ents) (some (n, i)) } : Node) = nd
  have hnents : nd.ents = writeEntry (node d).ents (freeEntry (node d).ents) (some (n, i)) := by rw [← hnd]
  have hnkind : nd.kind = (node d).kind := by rw [← hnd]
  have hkind : ∀ j, (update node d nd j).kind = (node j).kind := kind_update hnkind
  have hlinks : ∀ j, links (update node d nd) j = links node j + if j = i then 1 else 0 := by
    intro j
    have hsum : links (update node d nd) j + _ = links node j + _ := links_update hlt
    have hif : (if Dirent.names j (some (n, i)) = true then 1 else 0) = if j = i then 1 else 0 := by
      simp [Dirent.names, hn, eq_comm]
    rw [hnents, countP_writeEntry rfl, hif] at hsum
    omega
  have hsub : ∀ j, subdirs (update node d nd) j =
      subdirs node j + if j = d ∧ (node i).kind = some .dir then 1 else 0 := by
    intro j
    by_cases hj : j = d
    · subst hj
      have hif : (if Dirent.subdir node (some (n, i)) = true then 1 else 0) =
          if j = j ∧ (node i).kind = some .dir then 1 else 0 := by
        simp [Dirent.subdir, hn]
      rw [subdirs_update_self hnkind, hnents, countP_writeEntry rfl, hif]
      rfl
    · grind [subdirs_update_of_ne]
  have hlinked : ∀ q, Linked node q → Linked (update node d nd) q := by
    grind [Linked]
  have hmem' : ∀ {e m k}, some (m, k) ∈ (update node d nd e).ents →
      some (m, k) ∈ (node e).ents ∨ e = d ∧ m = n ∧ k = i := by
    intro e m k hmem
    by_cases he : e = d
    · grind [mem_writeEntry]
    · rw [update_of_ne he] at hmem
      exact .inl hmem
  have hself : update node d nd d = nd := update_self ..
  have hother : ∀ j, j ≠ d → update node d nd j = node j := fun j hj => update_of_ne hj ..
  generalize update node d nd = node' at *
  constructor
  case account =>
    intro j hj
    have haccount := h.account j (hkind j ▸ hj)
    have hold : (node' j).nlink = (node j).nlink := by grind
    rw [hold, hlinks, hsub, haccount, hcredit j]
    push_cast
    ring
  case shape =>
    intro e he hre
    rw [hkind] at he
    by_cases hei : e = i
    · -- the new directory has its two entries
      subst hei
      obtain ⟨-, hents, hbirth⟩ := hdir he
      refine ⟨d, [], ?_, by simp, hlinked d hd, fun _ => hbirth⟩
      rw [hother e hne]
      exact hents
    · obtain ⟨q, rest, heq, hrest, hq, hbirth⟩ := h.shape e he fun hr => hre ⟨hr, hei⟩
      by_cases hed : e = d
      · subst hed
        refine ⟨q, writeEntry rest (freeEntry rest) (some (n, i)), ?_, ?_, hlinked q hq, hbirth⟩
        · rw [hself, hnents, heq, writeEntry_some, writeEntry_some]
        · grind [mem_writeEntry]
      · grind
  all_goals grind [Linked]

/-- A name is erased.  Where it names a directory, that one is empty and the parent of no other. -/
theorem erase (h : Tree node birth credit raw) {off : Nat}
    (hoff : (node d).ents[off]? = some (some (n, i))) (hn : Proper n)
    (hdir : (node i).kind = some .dir →
      (∀ m j, some (m, j) ∈ (node i).ents → ¬ Proper m) ∧ ∀ c, c ≠ i → some (dotdot, i) ∉ (node c).ents)
    (hcredit : ∀ j, credit' j = credit j + (if j = i then 1 else 0) +
      if j = d ∧ (node i).kind = some .dir then 1 else 0) :
    Tree (update node d { node d with ents := writeEntry (node d).ents off none })
      birth credit' raw := by
  have hmem : some (n, i) ∈ (node d).ents := List.mem_of_getElem? hoff
  have hlt := h.lt_of_mem hmem
  have hi0 := h.links_pos hmem hn
  have hiraw : ¬ raw i := fun hr => by
    have := h.raw_links i hr
    omega
  have hiroot : rootino ≠ i := by
    rintro rfl
    have := h.root.2.2
    omega
  rw [writeEntry_of_some hoff]
  generalize hnd : ({ node d with ents := (node d).ents.set off none } : Node) = nd
  have hnents : nd.ents = (node d).ents.set off none := by rw [← hnd]
  have hnkind : nd.kind = (node d).kind := by rw [← hnd]
  have hkind : ∀ j, (update node d nd j).kind = (node j).kind := kind_update hnkind
  have hlinks : ∀ j, links (update node d nd) j + (if j = i then 1 else 0) = links node j := by
    intro j
    have hsum : links (update node d nd) j + _ = links node j + _ := links_update hlt
    have hset := countP_set_none (f := Dirent.names j) rfl hoff
    have hif : (if Dirent.names j (some (n, i)) = true then 1 else 0) = if j = i then 1 else 0 := by
      simp [Dirent.names, hn, eq_comm]
    rw [hnents] at hsum
    omega
  have hsub : ∀ j, subdirs (update node d nd) j +
      (if j = d ∧ (node i).kind = some .dir then 1 else 0) = subdirs node j := by
    intro j
    by_cases hj : j = d
    · subst hj
      have hif : (if Dirent.subdir node (some (n, i)) = true then 1 else 0) =
          if j = j ∧ (node i).kind = some .dir then 1 else 0 := by
        simp [Dirent.subdir, hn]
      rw [subdirs_update_self hnkind, hnents, ← hif]
      exact countP_set_none rfl hoff
    · rw [subdirs_update_of_ne hj (.inl hnkind), if_neg fun hand => hj hand.1]
      rfl
  have hlinked : ∀ q, q ≠ i → Linked node q → Linked (update node d nd) q := by
    intro q hqi hq
    have hsame := hlinks q
    rw [if_neg hqi, Nat.add_zero] at hsame
    rw [Linked, hkind, hsame]
    exact hq
  have hmem' : ∀ {e m k}, some (m, k) ∈ (update node d nd e).ents → some (m, k) ∈ (node e).ents := by
    intro e m k hmem
    by_cases he : e = d
    · subst he
      rw [update_self, hnents] at hmem
      exact mem_of_mem_set_none hmem
    · rwa [update_of_ne he] at hmem
  have hself : update node d nd d = nd := update_self ..
  have hother : ∀ j, j ≠ d → update node d nd j = node j := fun j hj => update_of_ne hj ..
  generalize update node d nd = node' at *
  constructor
  case account =>
    intro j hj
    have haccount := h.account j (hkind j ▸ hj)
    have hold : (node' j).nlink = (node j).nlink := by grind
    rw [← hlinks j, ← hsub j] at haccount
    rw [hold, hcredit j, haccount]
    push_cast
    ring
  case shape =>
    intro e he hre
    rw [hkind] at he
    obtain ⟨q, rest, heq, hrest, hq, hbirth⟩ := h.shape e he hre
    have hqi : q ≠ i := by
      rintro rfl
      by_cases heq' : e = q
      · subst heq'
        exact lt_irrefl _ (hbirth (Ne.symm hiroot))
      · exact (hdir hq.1).2 e heq' (by simp [heq])
    by_cases hed : e = d
    · subst hed
      -- the entry is neither of the first two
      obtain ⟨o, rfl⟩ : ∃ o, off = o + 2 := by
        rw [heq] at hoff
        rcases off with _ | _ | o
        · cases hoff
          exact absurd hn dot_not_proper
        · cases hoff
          exact absurd hn dotdot_not_proper
        · exact ⟨o, rfl⟩
      refine ⟨q, rest.set o none, ?_, ?_, hlinked q hqi hq, hbirth⟩
      · rw [hself, hnents, heq]
        rfl
      · intro m k hmem
        exact hrest m k (mem_of_mem_set_none hmem)
    · grind
  case raw_ents =>
    intro e m k he hentry
    rcases h.raw_ents e m k he (hmem' hentry) with hdot | ⟨rfl, hk⟩
    · exact .inl hdot
    · refine .inr ⟨rfl, hlinked k ?_ hk⟩
      rintro rfl
      exact (hdir hk.1).2 e (fun heq => hiraw (heq ▸ he)) (hmem' hentry)
  case orphan =>
    intro e m k he hroot he0 hentry hm
    rw [hkind] at he
    by_cases hei : e = i
    · subst hei
      exact (hdir he).1 m k (hmem' hentry) hm
    · have hsame := hlinks e
      rw [if_neg hei, Nat.add_zero, he0] at hsame
      exact h.orphan e m k he hroot hsame.symm (hmem' hentry) hm
  all_goals grind

end Tree

end AsoPracticas.Xv6.Naming
