import AsoPracticas.Xv6.Syscalls
import Mathlib.Data.Fintype.Basic

/-!
# Namespace — link counts, dangling entries and deadlocks in runs of the file system

What holds in the states that processes reach from an image of `mkfs`, and the runs in which it does not.

* `link_counts`, `entries_allocated`, `locks_acyclic` — what then holds;
* `removedRun_leak`, `orphanRun_dangling`, `selfLink_deadlock` — what happens without it: a name in a
  directory that has been removed, a directory that is removed before one that has it as its parent, and
  an `iput` that asks for a lock that the process or its peer has.
-/

namespace AsoPracticas.Xv6.Naming

open Lib Finset

/-! ## The image of mkfs -/

section Boot

variable {m : Image} {i : Inum}

theorem Image.ents_eq_nil (hi : i ≠ rootino) : (m.node i).ents = [] := by
  unfold Image.node
  rw [if_neg hi]
  split <;> rfl

theorem Image.node_root : m.node rootino = { kind := some .dir, nlink := 1, ents := m.root } := by
  simp [Image.node]

theorem Image.kind_dir (h : (m.node i).kind = some .dir) : i = rootino := by
  by_contra hi
  unfold Image.node at h
  rw [if_neg hi] at h
  split at h <;> simp at h

theorem countP_files (files : List { n : Name // Proper n }) (i k : Nat) :
    ((files.zipIdx k).map fun ni => (some (ni.1.1, ni.2 + 2) : Dirent)).countP (Dirent.names i) =
      if k + 2 ≤ i ∧ i < k + 2 + files.length then 1 else 0 := by
  induction files generalizing k with
  | nil => grind
  | cons f files ih =>
    have hname : Dirent.names i (some (f.1, k + 2)) = decide (k + 2 = i) := by simp [Dirent.names, f.2]
    grind

theorem Image.links_eq : links m.node i = if 2 ≤ i ∧ i < m.files.length + 2 then 1 else 0 := by
  have hroot : rootino ∈ range NINODES := by decide
  unfold links
  rw [Finset.sum_eq_single_of_mem rootino hroot]
  · rw [Image.node_root]
    simp only [Image.root, List.countP_append, List.countP_cons, List.countP_replicate]
    rw [countP_files m.files i 0]
    simp [Dirent.names, dot_not_proper, dotdot_not_proper, Nat.add_comm]
  · intro d _ hd
    rw [Image.ents_eq_nil hd]
    rfl

theorem Image.root_eq (m : Image) : ∃ rest,
    m.root = some (dot, rootino) :: some (dotdot, rootino) :: rest ∧
      ∀ n (i : Nat), some (n, i) ∈ rest → Proper n ∧ 2 ≤ i ∧ i < m.files.length + 2 := by
  refine ⟨_, rfl, fun n i h => ?_⟩
  rcases List.mem_append.1 h with h | h
  all_goals grind

theorem Image.file_of_mem {d : Inum} {n : Name} (hmem : some (n, i) ∈ (m.node d).ents)
    (hn : Proper n) : 2 ≤ i ∧ i < m.files.length + 2 := by
  obtain ⟨rest, hroot, hrest⟩ := m.root_eq
  by_cases hd : d = rootino
  all_goals grind [Image.node_root, dot_not_proper, dotdot_not_proper, Image.ents_eq_nil]

theorem Image.subdirs_eq : subdirs m.node i = 0 := by
  rw [subdirs, List.countP_eq_zero]
  intro e he
  cases e with
  | none => exact Bool.false_ne_true
  | some nj =>
    intro hsub
    obtain ⟨hdir, hn⟩ := of_decide_eq_true hsub
    obtain ⟨hfile, -⟩ := Image.file_of_mem he hn
    rw [Image.kind_dir hdir] at hfile
    exact absurd hfile (by decide)

theorem Image.tree (m : Image) : Tree m.node (fun _ => 0) (fun _ => 0) fun _ => False where
  bounded i hi := by
    unfold Image.node at hi
    split at hi
    · rename_i hroot
      rw [hroot]
      decide
    · split at hi
      · rename_i hfile
        exact lt_of_lt_of_le hfile.2 m.fits
      · exact absurd rfl hi
  ents_eq i hi := by
    apply Image.ents_eq_nil
    rintro rfl
    rw [Image.node_root] at hi
    exact hi rfl
  account i hi := by
    rw [Image.subdirs_eq, Image.links_eq]
    unfold Image.node at hi ⊢
    by_cases hroot : i = rootino
    all_goals grind [rootino]
  named d n i hmem hn := by
    have hfile := Image.file_of_mem hmem hn
    unfold Image.node
    rw [if_pos hfile]
    split <;> exact Option.some_ne_none _
  root := by
    refine ⟨⟨by rw [Image.node_root], .inl rfl⟩, not_false, ?_⟩
    grind [rootino, Image.links_eq]
  raw_links _ h := h.elim
  raw_ents _ _ _ h := h.elim
  shape d hd _ := by
    obtain rfl := Image.kind_dir hd
    obtain ⟨rest, hroot, hrest⟩ := m.root_eq
    refine ⟨rootino, rest, ?_, fun n j hmem => (hrest n j hmem).1, ⟨hd, .inl rfl⟩, fun h => absurd rfl h⟩
    rw [Image.node_root, hroot]
  orphan d n j hd hne := absurd (Image.kind_dir hd) hne
  once d hd := by
    rw [Image.links_eq]
    split <;> decide
  older d n i hmem hn hdir := by
    obtain ⟨hfile, -⟩ := Image.file_of_mem hmem hn
    rw [Image.kind_dir hdir] at hfile
    exact absurd hfile (by decide)

end Boot

variable {P : Type} [DecidableEq P] {strict : Prop} {c : State P}

theorem rest_cwd (b : Prop) [Decidable b] :
    rest { cwd := if b then some rootino else none, files := [] } =
      if b then Local.nothing.take rootino else Local.nothing := by
  split <;> rfl

theorem boot_inv (m : Image) (A : Finset P) : Inv strict (boot m A).shared fun p => rest ((boot m A).home p) := by
  have hsettled : ∀ p, (rest ((boot m A).home p)).Settled := fun p => rest_settled _
  have hrefs : ∀ p i, (rest ((boot m A).home p)).refs i = if p ∈ A ∧ i = rootino then 1 else 0 := by
    intro p i
    simp only [boot, rest_cwd]
    by_cases hp : p ∈ A
    · by_cases hi : i = rootino <;> simp [hp, hi, Local.take, Local.nothing]
    · simp [hp, Local.nothing]
  have hraw : ∀ i, False ↔ ∃ p, (rest ((boot m A).home p)).Raw i := by
    intro i
    refine ⟨False.elim, ?_⟩
    rintro ⟨p, ⟨k, h⟩ | h⟩
    · simp [(hsettled p).fresh] at h
    · simp [(hsettled p).dying] at h
  exact {
    own := fun p => {
      lock := fun i => by simpa [boot] using (hsettled p).held i
      view := fun i nd h => by simp [(hsettled p).held] at h
      held_refs := fun i h => absurd ((hsettled p).held i) h
      alloc := fun i h _ => by
        rw [hrefs] at h
        have hi : i = rootino := by
          by_contra hi
          simp [hi] at h
        rw [hi]
        exact m.tree.root.1.allocated
      credit_refs := fun _ => (hsettled p).no_credit
      credit_held := fun _ => (hsettled p).no_credit
      fresh := fun i k h => by simp [(hsettled p).fresh] at h
      dying := fun i ph h => by simp [(hsettled p).dying] at h
      leaving := (hsettled p).leaving.symm
      leaving_free := fun _ d h => by simp [(hsettled p).leaving] at h }
    refs := fun i => by
      refine ⟨A, fun p hp => ?_, ?_⟩
      · grind
      · change ∑ p ∈ A, (rest ((boot m A).home p)).refs i = _
        rw [Finset.sum_congr rfl fun p hp => by rw [hrefs, if_congr (and_iff_right hp) rfl rfl]]
        by_cases hi : i = rootino <;> simp [boot, hi]
    apart := fun p q i k _ h => by simp [(hsettled p).fresh] at h
    births := fun i => le_rfl
    tree := ⟨fun _ => 0, fun i => Total.zero _ fun p => by rw [(hsettled p).zero], m.tree.congr_raw hraw⟩ }

theorem boot_verified (m : Image) (A : Finset P) : (rules P strict).Verified (calls P) rest (boot m A) :=
  ⟨_, boot_inv m A, fun _ => rfl⟩

/-! ## Runs that meet the conditions -/

/-- What is asked of the moves of a run: of the calls `Asked`, of the actions `Guard`. -/
def Meets (strict : Prop) (c : State P) : Move P Call → Prop
  | .call _ call => Asked strict call
  | .act p => ∀ a, c.next p = some a → Guard strict c.shared p a
  | .back _ => True

def MeetStep (strict : Prop) (c c' : State P) : Prop :=
  ∃ e, Meets strict c e ∧ (calls P).step c e = some c'

theorem verified_of_meets {m : Image} {A : Finset P}
    (h : Relation.ReflTransGen (MeetStep strict) (boot m A) c) :
    (rules P strict).Verified (calls P) rest c := by
  apply Logic.Verified.of_run (fun p h c m hc hm => knows_body hc hm) (boot_verified m A)
  refine h.lift id fun c c' ⟨e, hmeets, hstep⟩ => ⟨e, ?_, hstep⟩
  cases e <;> exact hmeets

/-! ## Runs of given moves -/

/-- A check of `Meets` for moves that erase no entries. -/
def cautious (c : State Bool) : Move Bool Call → Bool
  | .call _ (.link _ new) => decide (Proper (lastName (new.length + 1) new []))
  | .call _ _ => true
  | .act p =>
    match c.next p with
    | some (.ialloc dp _) => decide ((c.shared.node dp).nlink ≠ 0)
    | some (.writei d _ (some _)) => decide ((c.shared.node d).nlink ≠ 0)
    | some (.writei _ _ none) => false
    | some (.acquiresleep i) => decide (c.shared.leaving (!p) ≠ some i)
    | _ => true
  | .back _ => true

theorem meets_of_cautious {c : State Bool} {e : Move Bool Call} (h : cautious c e = true) :
    Meets strict c e := by
  cases e with
  | call p call =>
    cases call <;> try trivial
    exact fun _ => of_decide_eq_true h
  | act p =>
    intro a ha
    simp only [cautious, ha] at h
    cases a <;> try trivial
    case acquiresleep i =>
      intro _ q hq
      rw [Bool.eq_not_of_ne hq]
      exact of_decide_eq_true h
    case writei d off de =>
      cases de with
      | none =>
        cases h
      | some ni => exact fun _ => of_decide_eq_true h
    case ialloc dp k =>
      change (c.shared.node dp).nlink ≠ 0
      exact of_decide_eq_true h
  | back p => trivial

theorem reachable_of_cautious {m : Image} {A : Finset Bool} {c : State Bool} (es : List (Move Bool Call))
    (h : es.foldlM (fun c e => if cautious c e then (calls Bool).step c e else none) (boot m A) = some c) :
    Relation.ReflTransGen (MeetStep strict) (boot m A) c := by
  refine (reachable_of_foldlM es h).lift id fun c c' ⟨e, he⟩ => ?_
  grind [MeetStep, meets_of_cautious]

/-- An image with one file, `a`. -/
def oneFile : Image := { files := [⟨[97], by decide⟩], fits := by decide }

/-- The moves of a call that takes `n` actions. -/
def wholeCall (p : Bool) (call : Call) (n : Nat) : List (Move Bool Call) :=
  .call p call :: List.replicate n (.act p) ++ [.back p]

/-- `mkdir("d")`. -/
def mkdirRun : List (Move Bool Call) := wholeCall false (.mkdir [100]) 36

/-! ## Link counts -/

/-- Number of entries of allocated directories that hold the number of inode `i`. -/
def entries (node : Inum → Node) (i : Inum) : Nat :=
  ∑ d ∈ range NINODES, if (node d).kind = some .dir then
    (node d).ents.countP fun e => e.map Prod.snd = some i else 0

/-- The directory is the root, or its parent has a name for it. -/
def NamedByParent (node : Inum → Node) (d : Inum) : Prop :=
  d = rootino ∨ ∃ q n, some (dotdot, q) ∈ (node d).ents ∧ some (n, d) ∈ (node q).ents ∧ Proper n

/-- Directories that can be reached from the root by names. -/
inductive FromRoot (node : Inum → Node) : Inum → Prop
  | root : FromRoot node rootino
  | sub {q n d} : FromRoot node q → some (n, d) ∈ (node q).ents → Proper n →
      (node d).kind = some .dir → FromRoot node d

/-- Link counts agree with the entries of the directories. -/
structure LinkCounts (node : Inum → Node) : Prop where
  plain : ∀ i, (node i).kind ≠ none → (node i).kind ≠ some .dir → (node i).nlink = entries node i
  directory : ∀ d, (node d).kind = some .dir → NamedByParent node d → (node d).nlink = 1 + subdirs node d
  named : ∀ i, (node i).kind ≠ none → i ≠ rootino → 0 < (node i).nlink → ∃ d n,
    (node d).kind = some .dir ∧ FromRoot node d ∧ some (n, i) ∈ (node d).ents ∧ Proper n

namespace Tree

variable {node : Inum → Node} {birth : Inum → Nat} {i d : Inum}

theorem dir_of_not_proper {n : Name} (h : Tree node birth (fun _ => 0) fun _ => False)
    (hmem : some (n, i) ∈ (node d).ents) (hn : ¬ Proper n) : (node i).kind = some .dir := by
  have hdir := h.dir_of_mem hmem
  obtain ⟨q, rest, hents, hrest, hq, -⟩ := h.shape d hdir not_false
  rw [hents, List.mem_cons, List.mem_cons] at hmem
  rcases hmem with he | he | he
  · cases he
    exact hdir
  · cases he
    exact hq.1
  · exact absurd (hrest n i he) hn

theorem entries_eq (h : Tree node birth (fun _ => 0) fun _ => False)
    (hi : (node i).kind ≠ some .dir) : entries node i = links node i := by
  refine Finset.sum_congr rfl fun d _ => ?_
  by_cases hd : (node d).kind = some .dir
  · rw [if_pos hd]
    apply List.countP_congr
    intro e he
    rcases e with - | ⟨n, j⟩
    · simp [Dirent.names]
    · simp only [Option.map_some, Option.some.injEq, decide_eq_true_eq, Dirent.names]
      refine ⟨fun hj => ⟨hj, ?_⟩, And.left⟩
      by_contra hn
      rw [← hj] at hi
      exact hi (h.dir_of_not_proper he hn)
  · rw [if_neg hd, h.ents_eq d hd]
    rfl

theorem subdirs_eq_zero (h : Tree node birth (fun _ => 0) fun _ => False) (hi : i ≠ rootino)
    (hlinks : links node i = 0) : subdirs node i = 0 := by
  by_cases hdir : (node i).kind = some .dir
  · rw [subdirs, List.countP_eq_zero]
    rintro (- | ⟨n, j⟩) he
    · exact Bool.false_ne_true
    · intro hsub
      exact h.orphan i n j hdir hi hlinks he (of_decide_eq_true hsub).2
  · rw [subdirs, h.ents_eq i hdir]
    rfl

/-- Directories with names in them can be reached from the root: their names are in older ones. -/
theorem fromRoot (h : Tree node birth (fun _ => 0) fun _ => False) {n : Name}
    (hmem : some (n, i) ∈ (node d).ents) (hn : Proper n) : FromRoot node d := by
  induction hb : birth d using Nat.strongRecOn generalizing d n i with
  | ind b ih =>
    by_cases hd : d = rootino
    · rw [hd]
      exact .root
    · have hdir := h.dir_of_mem hmem
      have hlinks : 0 < links node d := by grind
      obtain ⟨q, n', hmem', hn'⟩ := exists_mem_of_links_pos hlinks
      have hlt := h.older q n' d hmem' hn' hdir
      exact .sub (ih _ (hb ▸ hlt) hmem' hn' rfl) hmem' hn' hdir

theorem linkCounts (h : Tree node birth (fun _ => 0) fun _ => False) : LinkCounts node where
  plain i hi hdir := by
    have hroot : i ≠ rootino := by
      rintro rfl
      exact hdir h.root.1.1
    have hsub : subdirs node i = 0 := by
      rw [subdirs, h.ents_eq i hdir]
      rfl
    rw [h.account i hi, h.entries_eq hdir, if_neg hroot, hsub]
    ring
  directory d hdir hnamed := by
    have hsome : (node d).kind ≠ none := by
      rw [hdir]
      exact Option.some_ne_none _
    rw [h.account d hsome]
    rcases hnamed with hroot | ⟨q, n, -, hmem, hn⟩
    · rw [hroot, if_pos rfl, h.root.2.2]
      simp
    · have hpos := h.links_pos hmem hn
      grind
  named i hi hroot hpos := by
    have hlinks : 0 < links node i := by
      by_contra hzero
      have hzero := Nat.eq_zero_of_not_pos hzero
      rw [h.account i hi, if_neg hroot, hzero, h.subdirs_eq_zero hroot hzero] at hpos
      exact absurd hpos (by decide)
    obtain ⟨d, n, hmem, hn⟩ := exists_mem_of_links_pos hlinks
    exact ⟨d, n, h.dir_of_mem hmem, h.fromRoot hmem hn, hmem, hn⟩

end Tree

/-- Link counts are right whenever no call is under way, if names are entered only in directories that
are still linked and no directory is removed that is the parent of another one. -/
theorem link_counts {m : Image} {A : Finset P}
    (hreach : Relation.ReflTransGen (MeetStep False) (boot m A) c) (hidle : ∀ p, c.prog p = none) :
    LinkCounts c.shared.node := by
  have hinv := (verified_of_meets hreach).idle hidle
  have hsettled : ∀ p, (rest (c.home p)).Settled := fun p => rest_settled _
  obtain ⟨credit, htotal, htree⟩ := hinv.tree
  have hcredit : credit = fun _ => 0 := by
    funext i
    obtain ⟨B, -, hsum⟩ := htotal i
    rw [← hsum]
    apply Finset.sum_eq_zero
    intro p _
    exact congrFun (hsettled p).zero i
  have hraw : ∀ i, (∃ p, (rest (c.home p)).Raw i) ↔ False := by
    intro i
    refine ⟨fun ⟨p, h⟩ => ?_, False.elim⟩
    rcases h with ⟨k, h⟩ | h
    · simp [(hsettled p).fresh] at h
    · simp [(hsettled p).dying] at h
  rw [hcredit] at htree
  exact (htree.congr_raw hraw).linkCounts

theorem link_counts_mkdir : ∃ c : State Bool,
    Relation.ReflTransGen (MeetStep False) (boot oneFile {false, true}) c ∧ (∀ p, c.prog p = none) ∧
      (c.shared.node 3).kind = some .dir ∧ LinkCounts c.shared.node := by
  have hrun : (mkdirRun.foldlM (fun c e => if cautious c e then (calls Bool).step c e else none)
      (boot oneFile {false, true})).map
        (fun c => ((c.prog false).isNone, (c.prog true).isNone, (c.shared.node 3).kind)) =
      some (true, true, some .dir) := by
    decide +kernel
  obtain ⟨c, hc, hend⟩ := Option.map_eq_some_iff.1 hrun
  simp only [Prod.mk.injEq, Option.isNone_iff_eq_none] at hend
  obtain ⟨hfalse, htrue, hkind⟩ := hend
  have hidle : ∀ p, c.prog p = none := Bool.forall_bool.2 ⟨hfalse, htrue⟩
  have hreach : Relation.ReflTransGen (MeetStep False) (boot oneFile {false, true}) c :=
    reachable_of_cautious mkdirRun hc
  exact ⟨c, hreach, hidle, hkind, link_counts hreach hidle⟩

/-- A process makes a directory, goes there, removes it, and creates a file `x` in it: `mkdir("d")`,
`chdir("d")`, `unlink("/d")`, `open("x", O_CREATE)`, `close(0)`, `chdir("/")`. -/
def removedRun : List (Move Bool Call) :=
  wholeCall false (.mkdir [100]) 36 ++ wholeCall false (.chdir [100]) 21 ++
  wholeCall false (.unlink [47, 100]) 29 ++ wholeCall false (.open [120] 0x200 true) 24 ++
  wholeCall false (.close 0) 5 ++ wholeCall false (.chdir [47]) 14

/-- `create` does not look at the link count of the directory: when that goes, the file is left with a
link count of 1 and no entry. -/
theorem removedRun_leak : ∃ c : State Bool,
    Relation.ReflTransGen Step (boot oneFile {false, true}) c ∧ (∀ p, c.prog p = none) ∧
      (c.shared.node 4).kind = some .file ∧ (c.shared.node 4).nlink = 1 ∧ entries c.shared.node 4 = 0 ∧
      ¬ LinkCounts c.shared.node := by
  have hrun : (removedRun.foldlM (calls Bool).step (boot oneFile {false, true})).map
        (fun c => ((c.prog false).isNone, (c.prog true).isNone, (c.shared.node 4).kind,
          (c.shared.node 4).nlink, entries c.shared.node 4)) =
      some (true, true, some .file, 1, 0) := by
    decide +kernel
  obtain ⟨c, hc, hend⟩ := Option.map_eq_some_iff.1 hrun
  simp only [Prod.mk.injEq, Option.isNone_iff_eq_none] at hend
  obtain ⟨hfalse, htrue, hkind, hnlink, hentries⟩ := hend
  refine ⟨c, reachable_of_foldlM removedRun hc, Bool.forall_bool.2 ⟨hfalse, htrue⟩, hkind, hnlink,
    hentries, fun hcounts => ?_⟩
  have hplain := hcounts.plain 4 (by simp [hkind]) (by simp [hkind])
  rw [hnlink, hentries] at hplain
  exact absurd hplain (by decide)

/-! ## Entries that denote free inodes -/

/-- Every entry of an allocated directory denotes an allocated inode, and `ilock` never finds a free
one, in runs of the same kind. -/
theorem entries_allocated {m : Image} {A : Finset P}
    (hreach : Relation.ReflTransGen (MeetStep False) (boot m A) c) :
    (∀ d n i, (c.shared.node d).kind = some .dir → some (n, i) ∈ (c.shared.node d).ents →
      (c.shared.node i).kind ≠ none) ∧
    ∀ p i, c.next p = some (.load i) → (c.shared.node i).kind ≠ none := by
  have hverified := verified_of_meets hreach
  refine ⟨fun d n i _ hmem => ?_, fun p i hnext => hverified.safe hnext⟩
  obtain ⟨L, hinv, -⟩ := hverified
  obtain ⟨credit, -, htree⟩ := Inv.tree hinv
  exact htree.allocated_of_mem hmem

theorem entries_allocated_mkdir : ∃ c : State Bool,
    Relation.ReflTransGen (MeetStep False) (boot oneFile {false, true}) c ∧
      (c.shared.node 3).kind = some .dir ∧
      (∀ d n i, (c.shared.node d).kind = some .dir → some (n, i) ∈ (c.shared.node d).ents →
        (c.shared.node i).kind ≠ none) ∧
      ∀ p i, c.next p = some (.load i) → (c.shared.node i).kind ≠ none := by
  have hrun : (mkdirRun.foldlM (fun c e => if cautious c e then (calls Bool).step c e else none)
      (boot oneFile {false, true})).map (fun c => (c.shared.node 3).kind) = some (some .dir) := by
    decide +kernel
  obtain ⟨c, hc, hkind⟩ := Option.map_eq_some_iff.1 hrun
  have hreach : Relation.ReflTransGen (MeetStep False) (boot oneFile {false, true}) c :=
    reachable_of_cautious mkdirRun hc
  exact ⟨c, hreach, hkind, entries_allocated hreach⟩

/-- A process goes to a directory that it then removes together with its parent: `mkdir("p")`,
`mkdir("p/d")`, `chdir("p/d")`, `unlink("/p/d")`, `unlink("/p")`; and it opens `..`. -/
def orphanRun : List (Move Bool Call) :=
  wholeCall false (.mkdir [112]) 36 ++ wholeCall false (.mkdir [112, 47, 100]) 47 ++
  wholeCall false (.chdir [112, 47, 100]) 32 ++ wholeCall false (.unlink [47, 112, 47, 100]) 40 ++
  wholeCall false (.unlink [47, 112]) 32 ++ .call false (.open [46, 46] 0 true) ::
  List.replicate 14 (.act false)

/-- The entry `..` of the current directory is that of a free inode, and `ilock` panics. -/
theorem orphanRun_dangling : ∃ c : State Bool,
    Relation.ReflTransGen Step (boot oneFile {false, true}) c ∧
      (c.shared.node 4).kind = some .dir ∧ some (dotdot, 3) ∈ (c.shared.node 4).ents ∧
      (c.shared.node 3).kind = none ∧ c.next false = some (.load 3) ∧
      (calls Bool).step c (.act false) = none := by
  have hrun : (orphanRun.foldlM (calls Bool).step (boot oneFile {false, true})).map
        (fun c => ((c.shared.node 4).kind, decide (some (dotdot, 3) ∈ (c.shared.node 4).ents),
          (c.shared.node 3).kind, c.next false, ((calls Bool).step c (.act false)).isNone)) =
      some (some .dir, true, none, some (.load 3), true) := by
    decide +kernel
  obtain ⟨c, hc, hend⟩ := Option.map_eq_some_iff.1 hrun
  simp only [Prod.mk.injEq, Option.isNone_iff_eq_none, decide_eq_true_eq] at hend
  exact ⟨c, reachable_of_foldlM orphanRun hc, hend⟩

/-! ## Deadlocks -/

/-- Process `p` is about to lock an inode that `q` has locked. -/
def Waits (c : State P) (p q : P) : Prop :=
  ∃ i, c.next p = some (.acquiresleep i) ∧ c.shared.lock i = some q

/-- The rank of the inode that the process is about to lock. -/
def awaited (c : State P) (p : P) : WithTop ℕ :=
  match c.next p with
  | some (.acquiresleep i) => rank c.shared i
  | _ => ⊤

theorem Waits.awaited_lt (hc : (rules P True).Verified (calls P) rest c) {p q r : P}
    (hpq : Waits c p q) (hqr : Waits c q r) : awaited c p < awaited c q := by
  obtain ⟨i, hi, hlock⟩ := hpq
  obtain ⟨j, hj, hlock'⟩ := hqr
  have hsafe := hc.safe hj trivial i hlock
  grind [awaited]

/-- No processes wait for each other in a cycle, if in addition `link` is not given a new name of `.` or
`..` and no process locks a directory that another one is leaving. -/
theorem locks_acyclic {m : Image} {A : Finset P}
    (hreach : Relation.ReflTransGen (MeetStep True) (boot m A) c) (p : P) :
    ¬ Relation.TransGen (Waits c) p p := by
  have hverified := verified_of_meets hreach
  -- along a chain of waiting processes the inodes that they want have larger and larger ranks
  have hchain : ∀ q, Relation.TransGen (Waits c) p q → ∀ r, Waits c q r → awaited c p < awaited c q := by
    intro q hpq
    induction hpq with
    | single hpq =>
      intro r hqr
      exact hpq.awaited_lt hverified hqr
    | tail _ hbq ih =>
      intro r hqr
      exact (ih _ hbq).trans (hbq.awaited_lt hverified hqr)
  intro hcycle
  obtain ⟨r, hr, -⟩ := Relation.TransGen.head'_iff.1 hcycle
  exact lt_irrefl _ (hchain p hcycle r hr)

/-- Of two processes in the root directory one has it locked and the other asks for the lock. -/
def mkdirsRun : List (Move Bool Call) :=
  [.call false (.mkdir [100]), .act false, .act false, .call true (.mkdir [101]), .act true]

theorem locks_acyclic_mkdirs : ∃ c : State Bool,
    Relation.ReflTransGen (MeetStep True) (boot oneFile {false, true}) c ∧
      c.next true = some (.acquiresleep 1) ∧ c.shared.lock 1 = some false ∧
      ¬ Relation.TransGen (Waits c) true true := by
  have hrun : (mkdirsRun.foldlM (fun c e => if cautious c e then (calls Bool).step c e else none)
      (boot oneFile {false, true})).map (fun c => (c.next true, c.shared.lock 1)) =
      some (some (.acquiresleep 1), some false) := by
    decide +kernel
  obtain ⟨c, hc, hend⟩ := Option.map_eq_some_iff.1 hrun
  obtain ⟨hnext, hlock⟩ := Prod.mk.inj hend
  have hreach : Relation.ReflTransGen (MeetStep True) (boot oneFile {false, true}) c :=
    reachable_of_cautious mkdirsRun hc
  exact ⟨c, hreach, hnext, hlock, locks_acyclic hreach true⟩

/-- `link("a", "/.")` finds the name `.` in the root directory, and puts the inode found. -/
def selfLink : List (Move Bool Call) :=
  .call false (.link [97] [47, 46]) :: List.replicate 26 (.act false)

/-- One process creates `/x` and is about to put the root directory while it has the new file locked;
the other one has found the name to remove it, and is about to lock the file while it has the root
directory locked. -/
def createUnlink : List (Move Bool Call) :=
  .call false (.open [47, 120] 0x200 true) :: List.replicate 17 (.act false) ++
  .call true (.unlink [47, 120]) :: List.replicate 9 (.act true)

/-- A process waits for a lock that it has, and two processes for each other's. -/
theorem selfLink_deadlock :
    (∃ c : State Bool, Relation.ReflTransGen Step (boot oneFile {false, true}) c ∧
      c.next false = some (.acquiresleep 1) ∧ c.shared.lock 1 = some false) ∧
    ∃ c : State Bool, Relation.ReflTransGen Step (boot oneFile {false, true}) c ∧
      Waits c false true ∧ Waits c true false := by
  constructor
  · have hrun : (selfLink.foldlM (calls Bool).step (boot oneFile {false, true})).map
        (fun c => (c.next false, c.shared.lock 1)) = some (some (.acquiresleep 1), some false) := by
      decide +kernel
    obtain ⟨c, hc, hend⟩ := Option.map_eq_some_iff.1 hrun
    obtain ⟨hnext, hlock⟩ := Prod.mk.inj hend
    exact ⟨c, reachable_of_foldlM selfLink hc, hnext, hlock⟩
  · have hrun : (createUnlink.foldlM (calls Bool).step (boot oneFile {false, true})).map
        (fun c => (c.next false, c.next true, c.shared.lock 1, c.shared.lock 3)) =
        some (some (.acquiresleep 1), some (.acquiresleep 3), some true, some false) := by
      decide +kernel
    obtain ⟨c, hc, hend⟩ := Option.map_eq_some_iff.1 hrun
    simp only [Prod.mk.injEq] at hend
    obtain ⟨hfalse, htrue, hroot, hfile⟩ := hend
    exact ⟨c, reachable_of_foldlM createUnlink hc, ⟨1, hfalse, hroot⟩, 3, htrue, hfile⟩

end AsoPracticas.Xv6.Naming
