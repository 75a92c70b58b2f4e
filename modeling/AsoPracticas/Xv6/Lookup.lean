import Mathlib.Data.List.TakeWhile
import AsoPracticas.Xv6.ByteFiles

/-!
# Lookup — finding a file by its name

The inode cache, `dirlookup` and `namei` on a disk that nobody else uses: what they find, and that they
change nothing but entries of the cache.
-/

namespace AsoPracticas.Xv6

open Lib

variable {E : Halt → Prop} {k k' : Kernel} {i : InodePtr}

/-! ## The inode cache -/

def Kernel.withInode (k : Kernel) (i : InodePtr) (ip : Inode) : Kernel :=
  { k with inode := Function.update k.inode i ip }

@[simp] theorem Kernel.disk_withInode (k : Kernel) (i : InodePtr) (ip : Inode) : (k.withInode i ip).disk = k.disk := rfl

@[simp] theorem Kernel.sb_withInode (k : Kernel) (i : InodePtr) (ip : Inode) : (k.withInode i ip).sb = k.sb := rfl

@[simp] theorem Kernel.volume_withInode (k : Kernel) (i : InodePtr) (ip : Inode) :
    (k.withInode i ip).volume = k.volume := rfl

@[simp] theorem Kernel.inode_withInode (k : Kernel) (i : InodePtr) (ip : Inode) :
    (k.withInode i ip).inode i = ip := Function.update_self ..

theorem Kernel.inode_withInode_of_ne (k : Kernel) {i j : InodePtr} (h : j ≠ i) (ip : Inode) :
    (k.withInode i ip).inode j = k.inode j := Function.update_of_ne h ..

@[simp] theorem Kernel.withInode_withInode (k : Kernel) (i : InodePtr) (ip ip' : Inode) :
    (k.withInode i ip).withInode i ip' = k.withInode i ip' := by
  simp [Kernel.withInode]

theorem ensures_setInode {f : Inode → Inode} {Q : PUnit → Kernel → Prop} :
    Ensures (setInode i f) k Q E ↔ Q ⟨⟩ (k.withInode i (f (k.inode i))) :=
  Iff.rfl

theorem iget_ensures (inum : UInt32) (hfree : ∃ j, (k.inode j).ref = 0) :
    Ensures (iget inum) k (fun j k' =>
      (0 < (k.inode j).ref ∧ (k.inode j).inum = inum ∧
        k' = k.withInode j { k.inode j with ref := (k.inode j).ref + 1 }) ∨
      ((k.inode j).ref = 0 ∧ k' = k.withInode j { k.inode j with inum := inum, ref := 1, valid := false })) E := by
  unfold iget
  rw [ensures_bind, ensures_get]
  cases hcached : (List.finRange NINODE).find? fun j => (k.inode j).ref > 0 && (k.inode j).inum = inum with
  | some j =>
    have hj := List.find?_some hcached
    simp only [gt_iff_lt, Bool.and_eq_true, decide_eq_true_eq] at hj
    exact .inl ⟨hj.1, hj.2, rfl⟩
  | none =>
    dsimp only
    cases hfind : (List.finRange NINODE).find? fun j => (k.inode j).ref = 0 with
    | none => grind
    | some j => exact .inr ⟨by simpa using List.find?_some hfind, rfl⟩

theorem ilock_ensures (href : 1 ≤ (k.inode i).ref) (hlocked : (k.inode i).locked = false)
    (hcoherent : (k.inode i).valid = true → k.Coherent i) (hlt : (k.inode i).inum < k.sb.ninodes)
    (htype : (k.volume.inode (k.inode i).inum).type ≠ 0) :
    Ensures (ilock i) k (fun _ k' => k' = k.withInode i
      { k.inode i with locked := true, din := k.volume.inode (k.inode i).inum, valid := true }) E := by
  have hdin : k.volume.inode (k.inode i).inum =
      dinodeAt (k.disk (IBLOCK (k.inode i).inum k.sb)) (k.inode i).inum := if_pos hlt
  unfold ilock acquiresleep
  rw [ensures_bind, ensures_get]
  dsimp only
  rw [if_neg (by omega), ensures_bind, ensures_bind, ensures_get, hlocked, if_neg Bool.false_ne_true,
    ensures_setInode, ensures_bind, ensures_get]
  simp only [Kernel.inode_withInode, Kernel.disk_withInode, Kernel.sb_withInode]
  split
  · rename_i hvalid
    have hsame : k.volume.inode (k.inode i).inum = (k.inode i).din := (hcoherent hvalid).symm
    rw [ensures_pure, hsame, ← hvalid]
  · rw [ensures_bind, ensures_setInode, ← hdin, if_neg htype]
    simp only [Kernel.inode_withInode, Kernel.withInode_withInode]
    exact rfl

theorem iunlockput_linked (href : 1 ≤ (k.inode i).ref) (hlocked : (k.inode i).locked = true)
    (hnlink : (k.inode i).din.nlink ≠ 0) :
    Ensures (iunlockput i) k (fun _ k' =>
      k' = k.withInode i { k.inode i with locked := false, ref := (k.inode i).ref - 1 }) E := by
  unfold iunlockput iunlock iput acquiresleep releasesleep
  rw [ensures_bind, ensures_bind, ensures_get]
  dsimp only
  rw [if_neg (by simp [hlocked]; omega), ensures_setInode, ensures_bind, ensures_bind, ensures_get]
  simp only [Kernel.inode_withInode]
  rw [if_neg Bool.false_ne_true, ensures_setInode, ensures_bind, ensures_get]
  simp only [Kernel.inode_withInode, Kernel.withInode_withInode, hnlink, decide_false, Bool.and_false]
  rw [if_neg Bool.false_ne_true, ensures_bind, ensures_setInode, ensures_setInode]
  simp only [Kernel.inode_withInode, Kernel.withInode_withInode]

/-- Between two system calls, or with the lock of the entry `held`: the entries in use that have been
read agree with the disk, and `m` entries are free. -/
@[grind cases eager]
structure Kernel.Idle (k : Kernel) (held : Option InodePtr) (m : Nat) : Prop where
  locked : ∀ j, (k.inode j).locked = true → held = some j
  coherent : ∀ j, 0 < (k.inode j).ref → (k.inode j).valid = true → k.Coherent j
  free : m ≤ (Finset.univ.filter fun j => (k.inode j).ref = 0).card

variable {held held' : Option InodePtr} {m m' : Nat} {ip : Inode}

theorem Kernel.Idle.exists_free (h : k.Idle held (m + 1)) : ∃ j, (k.inode j).ref = 0 := by
  have hcard : 0 < (Finset.univ.filter fun j => (k.inode j).ref = 0).card :=
    Nat.lt_of_succ_le (le_trans (by omega) h.free)
  obtain ⟨j, hj⟩ := Finset.card_pos.1 hcard
  exact ⟨j, (Finset.mem_filter.1 hj).2⟩

theorem Kernel.Idle.withInode (h : k.Idle held m) (hheld : ∀ j, j ≠ i → held = some j → held' = some j)
    (hlocked : ip.locked = true → held' = some i)
    (hcoherent : 0 < ip.ref → ip.valid = true → ip.din = k.volume.inode ip.inum)
    (hfree : m' ≤ m - 1 ∨ m' ≤ m ∧ (k.inode i).ref ≠ 0) : (k.withInode i ip).Idle held' m' where
  locked := by
    intro j hj
    by_cases hji : j = i
    all_goals grind [Kernel.inode_withInode, Kernel.inode_withInode_of_ne]
  coherent := by
    intro j href hvalid
    unfold Kernel.Coherent
    by_cases hji : j = i
    · subst hji
      rw [Kernel.inode_withInode] at href hvalid ⊢
      exact hcoherent href hvalid
    · rw [Kernel.inode_withInode_of_ne k hji] at href hvalid ⊢
      exact h.coherent j href hvalid
  free := by
    have hm := h.free
    have hsub : (Finset.univ.filter fun j => (k.inode j).ref = 0).erase i ⊆
        Finset.univ.filter fun j => ((k.withInode i ip).inode j).ref = 0 := by
      intro j hj
      obtain ⟨hji, hj⟩ := Finset.mem_erase.1 hj
      rw [Finset.mem_filter, Kernel.inode_withInode_of_ne k hji]
      exact ⟨Finset.mem_univ j, (Finset.mem_filter.1 hj).2⟩
    refine le_trans ?_ (Finset.card_le_card hsub)
    grind [Finset.erase_eq_of_notMem]

/-- `iget` of an inode leaves the other entries alone; those with another inode are others. -/
theorem iget_idle (h : k.Idle held (m + 1)) (inum : UInt32) :
    Ensures (iget inum) k (fun j k' => k'.Idle held m ∧ (k'.inode j).inum = inum ∧ 1 ≤ (k'.inode j).ref ∧
      (∃ ip, k' = k.withInode j ip) ∧
      ∀ i, 0 < (k.inode i).ref → (k.inode i).inum ≠ inum → i ≠ j) E := by
  refine (iget_ensures inum h.exists_free).mono ?_
  rintro j _ (⟨href, hinum, rfl⟩ | ⟨href, rfl⟩)
  · refine ⟨?_, ?_, ?_, ⟨_, rfl⟩, ?_⟩
    · exact h.withInode (fun _ _ heq => heq) (h.locked j) (fun _ => h.coherent j href) (.inl (Nat.le_refl m))
    · rw [Kernel.inode_withInode]
      exact hinum
    · rw [Kernel.inode_withInode]
      exact Int.le_add_of_nonneg_left href.le
    · rintro i - hne rfl
      exact hne hinum
  · refine ⟨?_, ?_, ?_, ⟨_, rfl⟩, ?_⟩
    · refine h.withInode (fun _ _ heq => heq) (h.locked j) (fun _ hvalid => ?_) (.inl (Nat.le_refl m))
      cases hvalid
    all_goals grind [Kernel.inode_withInode]

/-! ## Names -/

theorem strncmp_strncpy (n : Nat) (p q : List UInt8) (hp : 0 ∉ p) (hq : 0 ∉ q) :
    strncmp n p (strncpy n q) = 0 ↔ p.take n = q.take n := by
  have hne : ∀ x : UInt8, x ≠ 0 → (x.toNat : Int) ≠ 0 := by
    intro x hx hzero
    exact hx (UInt8.toNat_inj.1 (by exact_mod_cast hzero))
  induction n generalizing p q with
  | zero => simp [strncmp]
  | succ n ih =>
    cases p with
    | nil =>
      cases q with
      | nil => simp [strncmp, strncpy, List.replicate_succ]
      | cons y ys =>
        have hy : y ≠ 0 := fun heq => hq (heq ▸ List.mem_cons_self)
        simpa [strncmp, strncpy, hy] using hne y hy
    | cons x xs =>
      have hx : x ≠ 0 := fun heq => hp (heq ▸ List.mem_cons_self)
      cases q with
      | nil => simpa [strncmp, strncpy, List.replicate_succ, hx] using hne x hx
      | cons y ys =>
        have hy : y ≠ 0 := fun heq => hq (heq ▸ List.mem_cons_self)
        have hp' : 0 ∉ xs := fun hmem => hp (List.mem_cons_of_mem x hmem)
        have hq' : 0 ∉ ys := fun hmem => hq (List.mem_cons_of_mem y hmem)
        by_cases hxy : x = y
        · grind [strncmp, strncpy]
        · have hdiff : (x.toNat : Int) - y.toNat ≠ 0 := by
            intro hzero
            exact hxy (UInt8.toNat_inj.1 (by omega))
          simpa [strncmp, strncpy, hx, hy, hxy] using hdiff

theorem namecmp_dirent {name name' : List UInt8} (inum : UInt16) (h : 0 ∉ name) (h' : 0 ∉ name') :
    namecmp name (direntName (dirent inum name')) = 0 ↔ name.take DIRSIZ = name'.take DIRSIZ :=
  strncmp_strncpy DIRSIZ name name' h h'

theorem direntInum_dirent (inum : UInt16) (name : List UInt8) : direntInum (dirent inum name) = inum :=
  le16_byte16 inum

theorem skipelem_one {name : List UInt8} (hne : name ≠ []) (hslash : slash ∉ name) :
    skipelem (slash :: name) = some (name.take DIRSIZ, []) := by
  have hall : ∀ x ∈ name, x ≠ slash := fun x hx heq => hslash (heq ▸ hx)
  have hdrop : (slash :: name).dropWhile (fun x => decide (x = slash)) = name := by
    rw [List.dropWhile_cons_of_pos (by simp)]
    cases name with
    | nil => rfl
    | cons x xs => exact List.dropWhile_cons_of_neg (by simpa using hall x List.mem_cons_self)
  have htake : name.takeWhile (fun x => decide (x ≠ slash)) = name :=
    List.takeWhile_eq_self_iff.2 fun x hx => by simpa using hall x hx
  have hrest : name.dropWhile (fun x => decide (x ≠ slash)) = [] :=
    List.dropWhile_eq_nil_iff.2 fun x hx => by simpa using hall x hx
  unfold skipelem
  simp only [hdrop, if_neg hne, htake, hrest, List.dropWhile_nil]

/-! ## Directories -/

/-- Entry `e` of a directory. -/
def Volume.entry (v : Volume) (n : UInt32) (e : Nat) : List UInt8 :=
  (List.range DIRENTSIZE).map fun j => v.byte n (DIRENTSIZE * e + j)

theorem readi_within (hr : k.Readable i) (hdev : (k.inode i).din.type ≠ T_DEV) (off n : UInt32) {e : Nat}
    (hblocks : ∀ c, c * BSIZE < e → (k.view i).fileBlock (k.inode i).inum c ≠ none)
    (he : off.toNat + n.toNat ≤ e) (hsize : e ≤ (k.inode i).din.size.toNat) :
    Ensures (readi i off n) k (fun dst k' => dst = some ((List.range n.toNat).map fun j =>
      (k.view i).byte (k.inode i).inum (off.toNat + j)) ∧ k' = k) E := by
  have hlt := (k.inode i).din.size.toNat_lt
  have hadd : (off + n).toNat = off.toNat + n.toNat := toNat_add_of_lt (by omega)
  have hin : ¬ (off > (k.inode i).din.size ∨ off + n < off) := by
    rw [add_lt_self_iff, gt_iff_lt, UInt32.lt_iff_toNat_lt]
    omega
  have hall : ¬ off + n > (k.inode i).din.size := by
    rw [gt_iff_lt, UInt32.lt_iff_toNat_lt, hadd]
    omega
  unfold readi
  rw [ensures_bind, ensures_get]
  rw [if_neg hdev, if_neg hin, if_neg hall]
  refine (readiLoop_ensures hr hblocks n.toNat 0 off.toNat (by omega) (by omega)).bind ?_
  rintro _ k ⟨rfl, rfl⟩
  exact ⟨rfl, rfl⟩

/-- Entry `t` is the first of directory `n` with the name, and has inode `inum`. -/
@[grind cases eager]
structure Volume.Finds (v : Volume) (n : UInt32) (name : List UInt8) (t : Nat) (inum : UInt16) : Prop where
  type : (v.inode n).type = T_DIR
  /-- the directory has the blocks up to the entry -/
  blocks : ∀ c, c * BSIZE < DIRENTSIZE * (t + 1) → v.fileBlock n c ≠ none
  size : DIRENTSIZE * (t + 1) ≤ (v.inode n).size.toNat
  /-- the entries before it are free or have other names -/
  skip : ∀ e, e < t → direntInum (v.entry n e) = 0 ∨ namecmp name (direntName (v.entry n e)) ≠ 0
  ne_zero : inum ≠ 0
  entry_inum : direntInum (v.entry n t) = inum
  entry_name : namecmp name (direntName (v.entry n t)) = 0

variable {dp : InodePtr} {name : List UInt8} {t : Nat} {inum : UInt16}

theorem readDirent_within (hr : k.Readable dp) (h : (k.view dp).Finds (k.inode dp).inum name t inum) {e : Nat}
    (he : e ≤ t) (p : Panic) : Ensures (readDirent dp (DIRENTSIZE * e) p) k (fun de k' =>
      de = (k.view dp).entry (k.inode dp).inum e ∧ k' = k) E := by
  have hD : DIRENTSIZE = 16 := rfl
  have hsize := h.size
  have htype := h.type
  rw [Kernel.inode_view] at hsize htype
  have hlt := (k.inode dp).din.size.toNat_lt
  have hentry : DIRENTSIZE * e + DIRENTSIZE ≤ DIRENTSIZE * (t + 1) := by
    rw [hD]
    omega
  have hoff : (UInt32.ofNat (DIRENTSIZE * e)).toNat = DIRENTSIZE * e := toNat_ofNat32 (by omega)
  have hn : (UInt32.ofNat DIRENTSIZE).toNat = DIRENTSIZE := rfl
  have hread := readi_within (E := E) hr (by rw [htype]; decide) (UInt32.ofNat (DIRENTSIZE * e))
    (UInt32.ofNat DIRENTSIZE) h.blocks (by rw [hoff, hn]; exact hentry) hsize
  unfold readDirent
  refine hread.bind ?_
  rintro _ k ⟨rfl, rfl⟩
  rw [hoff, hn]
  dsimp only
  rw [if_pos (by simp)]
  exact ⟨rfl, rfl⟩

theorem dirlookupLoop_ensures (hr : k.Readable dp) (h : (k.view dp).Finds (k.inode dp).inum name t inum)
    {R : InodePtr → Kernel → Prop} (hget : Ensures (iget inum.toUInt32) k R E) :
    ∀ m e, e ≤ t → t < e + m →
      Ensures (dirlookupLoop dp name ((List.range' e m).map fun e => 0 + DIRENTSIZE * e)) k
        (fun r k' => ∃ ip, r = some (ip, DIRENTSIZE * t) ∧ R ip k') E := by
  intro m
  induction m with
  | zero =>
    intro e he ht
    omega
  | succ m ih =>
    intro e he ht
    rw [List.range'_succ, List.map_cons, Nat.zero_add]
    unfold dirlookupLoop
    refine (readDirent_within hr h he .dirlookupRead).bind ?_
    rintro _ k' ⟨rfl, rfl⟩
    rcases Nat.lt_or_eq_of_le he with hlt | rfl
    · grind
    · rw [if_neg (by rw [h.entry_inum]; exact h.ne_zero), if_pos h.entry_name, h.entry_inum]
      refine hget.bind fun ip k' hR => ?_
      exact ⟨ip, rfl, hR⟩

theorem dirlookup_ensures (hr : k.Readable dp) (h : (k.view dp).Finds (k.inode dp).inum name t inum)
    {R : InodePtr → Kernel → Prop} (hget : Ensures (iget inum.toUInt32) k R E) :
    Ensures (dirlookup dp name) k (fun r k' => ∃ ip, r = some (ip, DIRENTSIZE * t) ∧ R ip k') E := by
  have hD : DIRENTSIZE = 16 := rfl
  have hsize := h.size
  have htype := h.type
  rw [Kernel.inode_view] at hsize htype
  unfold dirlookup
  rw [ensures_bind, ensures_get]
  dsimp only
  rw [if_neg (not_not.2 htype), direntOffs, List.range_eq_range']
  refine dirlookupLoop_ensures hr h hget _ 0 (Nat.zero_le t) ?_
  rw [hD] at hsize ⊢
  omega

/-! ## Paths of one element -/

/-- The inode that a lookup in directory `n` found. -/
structure Kernel.Found (k k' : Kernel) (j : InodePtr) (inum : UInt32) : Prop where
  idle : k'.Idle none 0
  disk : k'.disk = k.disk
  sb : k'.sb = k.sb
  inum : (k'.inode j).inum = inum
  ref : 1 ≤ (k'.inode j).ref

theorem namexLoop_last {n : UInt32} (h : k.Idle none 1) (hinum : (k.inode i).inum = n)
    (href : 1 ≤ (k.inode i).ref) (hlt : n < k.sb.ninodes) (hv : k.volume.Allocated k.sb)
    (hfind : k.volume.Finds n (name.take DIRSIZ) t inum) (hnlink : (k.volume.inode n).nlink ≠ 0)
    (hother : n ≠ inum.toUInt32) (hne : name ≠ []) (hslash : slash ∉ name) (fuel : Nat) (old : List UInt8) :
    Ensures (namexLoop false (fuel + 2) (slash :: name) old i) k (fun r k' =>
      ∃ j, r = some (j, name.take DIRSIZ) ∧ k.Found k' j inum.toUInt32) E := by
  subst hinum
  have htype : (k.volume.inode (k.inode i).inum).type ≠ 0 := by
    rw [hfind.type]
    decide
  have hunlocked : (k.inode i).locked = false := by
    refine Bool.eq_false_iff.2 fun hlocked => ?_
    cases h.locked i hlocked
  unfold namexLoop
  rw [skipelem_one hne hslash]
  dsimp only
  refine (ilock_ensures href hunlocked (h.coherent i (by omega)) hlt htype).bind ?_
  rintro _ k1 hk1
  -- the locked directory is as it is on the disk
  have hinode : k1.inode i = { k.inode i with
      locked := true, din := k.volume.inode (k.inode i).inum, valid := true } := by
    rw [hk1, Kernel.inode_withInode]
  have hvolume : k1.volume = k.volume := by rw [hk1, Kernel.volume_withInode]
  have hsb : k1.sb = k.sb := by rw [hk1, Kernel.sb_withInode]
  have hcoherent : k1.Coherent i := by rw [Kernel.Coherent, hinode, hvolume]
  have hview := hcoherent.view
  have hidle : k1.Idle (some i) 1 := by
    rw [hk1]
    refine h.withInode ?_ (fun _ => rfl) (fun _ _ => rfl) (.inr ⟨Nat.le_refl 1, by omega⟩)
    rintro j - hnone
    cases hnone
  have hreadable : k1.Readable i := by
    refine ⟨by rw [hinode]; exact htype, ?_⟩
    rw [hview, hvolume, hsb]
    exact hv
  have hfind1 : (k1.view i).Finds (k1.inode i).inum (name.take DIRSIZ) t inum := by
    rw [hview, hvolume, hinode]
    exact hfind
  rw [ensures_bind, ensures_get, hinode]
  dsimp only
  rw [if_neg (not_not.2 hfind.type), if_neg (by simp)]
  refine (dirlookup_ensures hreadable hfind1 (iget_idle hidle _)).bind ?_
  rintro _ _ ⟨j, rfl, hidle2, hinum2, href2, ⟨ip, rfl⟩, hdiff⟩
  have hij : i ≠ j := by grind
  have hkeep : (k1.withInode j ip).inode i = k1.inode i := Kernel.inode_withInode_of_ne k1 hij ip
  dsimp only
  refine (iunlockput_linked ?_ ?_ ?_).bind ?_
  · rw [hkeep, hinode]
    exact href
  · rw [hkeep, hinode]
  · rw [hkeep, hinode]
    exact hnlink
  rintro _ _ rfl
  -- nothing is left of the path
  unfold namexLoop
  rw [show skipelem [] = none from rfl]
  refine ⟨j, rfl, ?_, ?_, ?_, ?_, ?_⟩
  · refine hidle2.withInode ?_ (fun hlocked => ?_) ?_ (.inl (Nat.zero_le _))
    · intro j' hj' heq
      cases heq
      exact absurd rfl hj'
    · cases hlocked
    · intro _ _
      rw [hkeep]
      exact hcoherent
  all_goals grind [Kernel.disk_withInode, Kernel.sb_withInode, Kernel.inode_withInode_of_ne]

theorem namei_root (h : k.Idle none 2) (hninodes : ROOTINO < k.sb.ninodes) (hv : k.volume.Allocated k.sb)
    (hfind : k.volume.Finds ROOTINO (name.take DIRSIZ) t inum)
    (hnlink : (k.volume.inode ROOTINO).nlink ≠ 0) (hother : ROOTINO ≠ inum.toUInt32) (hne : name ≠ [])
    (hslash : slash ∉ name) (cwd : InodePtr) :
    Ensures (namei cwd (slash :: name)) k (fun r k' =>
      ∃ j, r = some j ∧ k.Found k' j inum.toUInt32) E := by
  unfold namei namex
  rw [ensures_bind]
  dsimp only
  rw [if_pos (by simp)]
  refine (iget_idle h ROOTINO).bind ?_
  rintro i _ ⟨hidle, hinum, href, ⟨ip, rfl⟩, -⟩
  refine (namexLoop_last hidle hinum href hninodes hv hfind hnlink hother hne hslash name.length []).mono ?_
  rintro _ k' ⟨j, rfl, hfound⟩
  exact ⟨j, rfl, hfound.idle, hfound.disk, hfound.sb, hfound.inum, hfound.ref⟩

end AsoPracticas.Xv6
