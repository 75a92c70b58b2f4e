import AsoPracticas.Xv6.Mapping

/-!
# Contents — readi and writei on the bytes of a file

`Volume.content` is what a file holds, as a list of bytes.  `readi` returns a range of it and changes
nothing; `writei` replaces a range of it, and no byte of another file changes.
-/

namespace AsoPracticas.Xv6

open Lib

namespace Volume

/-- The byte at offset `p` of file `n`, 0 where the file has no block. -/
def byte (v : Volume) (n : UInt32) (p : Nat) : UInt8 :=
  getByte ((v.fileBlock n (p / BSIZE)).getD fun _ => 0) (p % BSIZE)

/-- What file `n` holds. -/
def content (v : Volume) (n : UInt32) : List UInt8 :=
  (List.range (v.inode n).size.toNat).map (v.byte n)

/-- File `n` has all the blocks below its size. -/
def Complete (v : Volume) (n : UInt32) : Prop :=
  ∀ c, c * BSIZE < (v.inode n).size.toNat → v.fileBlock n c ≠ none

/-- The books are right, and no file has a hole. -/
@[grind cases eager]
structure Consistent (sb : Superblock) (v : Volume) : Prop where
  allocated : v.Allocated sb
  complete : ∀ n, (v.inode n).type ≠ 0 → (v.inode n).type ≠ T_DEV → v.Complete n

variable {v v' : Volume} {n : UInt32} {p c off m e : Nat}

theorem byte_congr (h : ∀ c, v'.fileBlock n c = v.fileBlock n c) : v'.byte n = v.byte n := by
  funext p
  rw [byte, byte, h]

theorem content_congr (hsize : (v'.inode n).size = (v.inode n).size)
    (h : ∀ c, v'.fileBlock n c = v.fileBlock n c) : v'.content n = v.content n := by
  rw [content, content, hsize, byte_congr h]

theorem Complete.congr (hv : v.Complete n) (hsize : (v'.inode n).size = (v.inode n).size)
    (h : ∀ c, v'.fileBlock n c = v.fileBlock n c) : v'.Complete n := by
  intro c hc
  rw [h]
  exact hv c (by rwa [← hsize])

theorem byte_add (hj : off % BSIZE + p < BSIZE) :
    v.byte n (off + p) = getByte ((v.fileBlock n (off / BSIZE)).getD fun _ => 0) (off % BSIZE + p) := by
  grind [BSIZE, getByte, fileBlock, byte]

theorem byte_patch {src : Nat → UInt8} (hm : off % BSIZE + m ≤ BSIZE)
    (h : ∀ c, v'.fileBlock n c = if c = off / BSIZE then
      some (patch ((v.fileBlock n (off / BSIZE)).getD fun _ => 0) (off % BSIZE) m src)
      else v.fileBlock n c) (p : Nat) :
    v'.byte n p = if off ≤ p ∧ p < off + m then src (p - off) else v.byte n p := by
  have hB : BSIZE = 512 := rfl
  have hpB : p / BSIZE = p / 512 ∧ p % BSIZE = p % 512 := ⟨rfl, rfl⟩
  have hoB : off / BSIZE = off / 512 ∧ off % BSIZE = off % 512 := ⟨rfl, rfl⟩
  rw [byte, h]
  by_cases hc : p / BSIZE = off / BSIZE
  · rw [if_pos hc, Option.getD_some]
    split
    · rename_i hp
      rw [getByte_patch_of_mem (by omega) (by omega) (by omega)]
      congr 1
      omega
    · rename_i hp
      rw [getByte_patch_of_notMem (by omega), byte, hc]
  · rw [if_neg hc, if_neg (by omega), byte]

end Volume

/-! ## Reading -/

variable {E : Halt → Prop} {F F' : Finset UInt32} {r f : Nat} {k k' k1 k2 : Kernel} {i : InodePtr} {off n : UInt32}

theorem bmapEntry_of_ne {ind : UInt32} {bn : Nat} (h : getU32 (k.disk ind) (4 * bn) ≠ 0) :
    Ensures (bmapEntry ind bn) k (fun a k' => a = getU32 (k.disk ind) (4 * bn) ∧ k' = k) E := by
  unfold bmapEntry bread
  grind [ensures_bind, ensures_get, ensures_pure]

/-- A file whose slots hold data blocks: `readi` does not need more. -/
@[grind cases eager]
structure Kernel.Readable (k : Kernel) (i : InodePtr) : Prop where
  type_ne : (k.inode i).din.type ≠ 0
  allocated : (k.view i).Allocated k.sb

theorem bmap_of_some {bn : Nat} {data : Block} (hr : k.Readable i)
    (h : (k.view i).fileBlock (k.inode i).inum bn = some data) :
    Ensures (bmap i bn) k (fun a k' => k.disk a = data ∧ k' = k) E := by
  have htype : ((k.view i).inode (k.inode i).inum).type ≠ 0 := by
    rw [Kernel.inode_view]
    exact hr.type_ne
  -- the block in the slot, as a block of the disk
  have hblock : ∀ s, fileSlot bn = some s → (k.view i).slot (k.inode i).inum s ≠ 0 ∧
      k.disk ((k.view i).slot (k.inode i).inum s) = data := by
    intro s hs
    have hne : (k.view i).slot (k.inode i).inum s ≠ 0 := by
      intro hzero
      rw [(Volume.fileBlock_eq_none_iff hs).2 hzero] at h
      cases h
    rw [Volume.fileBlock_of_slot_ne hs hne, Option.some.injEq] at h
    refine ⟨hne, ?_⟩
    rw [← h, ← Kernel.block_volume (hr.allocated.data_slot htype hne).1]
    rfl
  unfold bmap
  split
  · rename_i hlt
    obtain ⟨hne, hdata⟩ := hblock _ (Volume.fileSlot_direct hlt)
    rw [Volume.slot_addr, Kernel.inode_view] at hne hdata
    refine (bmapAddr_of_ne hne).mono ?_
    rintro _ _ ⟨rfl, rfl⟩
    exact ⟨hdata, rfl⟩
  · rename_i hge
    by_cases hlt : bn - NDIRECT < NINDIRECT
    · rw [if_pos hlt]
      obtain ⟨hne, hdata⟩ := hblock _ (Volume.fileSlot_entry hge hlt)
      have hind : (k.inode i).din.indirect ≠ 0 := by
        intro hzero
        rw [Volume.slot_entry, Kernel.inode_view, if_pos hzero] at hne
        exact hne rfl
      have hd : k.sb.Data (k.inode i).din.indirect := by
        rw [← Kernel.slot_view_indirect] at hind ⊢
        exact (hr.allocated.data_slot htype hind).1
      rw [Kernel.slot_view_entry hind hd] at hne hdata
      refine (bmapAddr_of_ne hind).bind ?_
      rintro _ _ ⟨rfl, rfl⟩
      refine (bmapEntry_of_ne hne).mono ?_
      rintro _ _ ⟨rfl, rfl⟩
      exact ⟨hdata, rfl⟩
    · rw [Volume.fileBlock, fileSlot, dif_neg hge, dif_neg hlt] at h
      cases h

theorem readiLoop_ensures (hr : k.Readable i) {n e : Nat}
    (hblocks : ∀ c, c * BSIZE < e → (k.view i).fileBlock (k.inode i).inum c ≠ none) :
    ∀ fuel tot off, n - tot ≤ fuel → off + (n - tot) ≤ e →
      Ensures (readiLoop i n fuel tot off) k (fun dst k' =>
        dst = (List.range (n - tot)).map (fun j => (k.view i).byte (k.inode i).inum (off + j)) ∧ k' = k) E := by
  intro fuel
  induction fuel with
  | zero =>
    intro tot off hfuel _
    rw [Nat.le_zero.1 hfuel]
    exact ⟨rfl, rfl⟩
  | succ fuel ih =>
    intro tot off hfuel he
    unfold readiLoop
    split
    · rename_i hlt
      have hB : BSIZE = 512 := rfl
      have hoB : off / BSIZE = off / 512 ∧ off % BSIZE = off % 512 := ⟨rfl, rfl⟩
      obtain ⟨data, hdata⟩ := Option.ne_none_iff_exists'.1 (hblocks (off / BSIZE) (by
        exact (Nat.div_mul_le_self ..).trans_lt (by omega)))
      refine (bmap_of_some hr hdata).bind ?_
      rintro a _ ⟨ha, rfl⟩
      generalize hm : min (n - tot) (BSIZE - off % BSIZE) = m
      unfold bread
      rw [ensures_bind, ensures_bind, ensures_get, ensures_pure]
      refine (ih (tot + m) (off + m) (by omega) (by omega)).bind ?_
      rintro rest _ ⟨rfl, rfl⟩
      refine ⟨?_, rfl⟩
      have hsplit : n - tot = m + (n - (tot + m)) := by omega
      rw [hsplit, List.range_add, List.map_append, List.map_map, ha]
      congr 1
      · apply List.map_congr_left
        intro j hj
        rw [List.mem_range] at hj
        rw [Volume.byte_add (by omega), hdata]
        rfl
      · apply List.map_congr_left
        intro j _
        rw [Function.comp_apply, Nat.add_assoc]
    · rename_i hge
      rw [Nat.sub_eq_zero_of_le (Nat.le_of_not_lt hge)]
      exact ⟨rfl, rfl⟩

theorem add_lt_self_iff : off + n < off ↔ 2 ^ 32 ≤ off.toNat + n.toNat := by
  have hn := n.toNat_lt
  rw [UInt32.lt_iff_toNat_lt, UInt32.toNat_add]
  omega

theorem toNat_add_of_lt (h : off.toNat + n.toNat < 2 ^ 32) :
    (off + n).toNat = off.toNat + n.toNat := by
  rw [UInt32.toNat_add, Nat.mod_eq_of_lt h]

theorem Volume.range_content {v : Volume} {m : UInt32} {off n : Nat} (h : off + n ≤ (v.inode m).size.toNat) :
    (List.range n).map (fun j => v.byte m (off + j)) = ((v.content m).drop off).take n := by
  apply List.ext_getElem
  · simp [Volume.content]
    omega
  · intro j hj _
    simp [Volume.content]

/-- `readi` refuses a range that starts after the end or wraps; else it returns the bytes of the file
that are in the range. -/
theorem readi_ensures (hr : k.Readable i) (hdev : (k.inode i).din.type ≠ T_DEV)
    (hcomplete : (k.view i).Complete (k.inode i).inum) (off n : UInt32) :
    Ensures (readi i off n) k (fun dst k' =>
      dst = (if (k.inode i).din.size < off ∨ 2 ^ 32 ≤ off.toNat + n.toNat then none
        else some ((((k.view i).content (k.inode i).inum).drop off.toNat).take n.toNat)) ∧
      k' = k) E := by
  unfold readi
  rw [ensures_bind, ensures_get]
  dsimp only
  rw [if_neg hdev]
  split
  · rename_i hno
    rw [add_lt_self_iff] at hno
    exact ⟨(if_pos hno).symm, rfl⟩
  · rename_i hin
    rw [add_lt_self_iff] at hin
    rw [if_neg hin]
    rw [not_or, UInt32.not_lt, UInt32.le_iff_toNat_le, Nat.not_le] at hin
    obtain ⟨hoff, hwrap⟩ := hin
    -- how much there is to read
    have hn : (if off + n > (k.inode i).din.size then (k.inode i).din.size - off else n).toNat =
        min n.toNat ((k.inode i).din.size.toNat - off.toNat) := by
      split
      · rename_i hlt
        rw [gt_iff_lt, UInt32.lt_iff_toNat_lt, toNat_add_of_lt hwrap] at hlt
        rw [UInt32.toNat_sub_of_le _ _ (UInt32.le_iff_toNat_le.2 hoff)]
        omega
      · grind [gt_iff_lt, UInt32.lt_iff_toNat_lt, toNat_add_of_lt]
    rw [hn]
    have hsize : ((k.view i).inode (k.inode i).inum).size = (k.inode i).din.size := by rw [Kernel.inode_view]
    generalize hm : min n.toNat ((k.inode i).din.size.toNat - off.toNat) = m
    have hblocks := readiLoop_ensures (E := E) (n := m) hr hcomplete m 0 off.toNat (by omega) (by rw [hsize]; omega)
    refine hblocks.bind ?_
    rintro dst _ ⟨rfl, rfl⟩
    refine ⟨congrArg some ?_, rfl⟩
    rw [Nat.sub_zero, Volume.range_content (by rw [hsize]; omega), ← hm]
    apply List.take_eq_take_iff.2
    simp only [List.length_drop, Volume.content, List.length_map, List.length_range, hsize]
    omega

/-! ## The blocks that a write needs -/

namespace Volume

/-- Does a write to the blocks from `lo` to `hi` allocate the indirect block? -/
def needIndirect (v : Volume) (n : UInt32) (lo hi : Nat) : Nat :=
  if lo < hi ∧ NDIRECT < hi ∧ (v.inode n).indirect = 0 then 1 else 0

/-- How many blocks a write to the blocks from `lo` to `hi` allocates. -/
def need (v : Volume) (n : UInt32) (lo hi : Nat) : Nat :=
  ((Finset.Ico lo hi).filter fun c => v.fileBlock n c = none).card + v.needIndirect n lo hi

variable {v v' : Volume} {n : UInt32} {lo hi : Nat}

theorem le_needIndirect (hlt : lo < hi) :
    (if NDIRECT ≤ lo ∧ (v.inode n).indirect = 0 then 1 else 0) ≤ v.needIndirect n lo hi := by
  unfold needIndirect
  grind

theorem needIndirect_step (hlt : lo < hi) (hind : (v'.inode n).indirect = 0 ↔ (v.inode n).indirect = 0 ∧ lo < NDIRECT) :
    v'.needIndirect n (lo + 1) hi +
      (if NDIRECT ≤ lo ∧ (v.inode n).indirect = 0 then 1 else 0) ≤ v.needIndirect n lo hi := by
  unfold needIndirect
  grind

theorem card_filter_Ico_step (v : Volume) (n : UInt32) (hlt : lo < hi) :
    ((Finset.Ico (lo + 1) hi).filter fun c => v.fileBlock n c = none).card +
      (if v.fileBlock n lo = none then 1 else 0) =
      ((Finset.Ico lo hi).filter fun c => v.fileBlock n c = none).card := by
  have hIco : Finset.Ico lo hi = insert lo (Finset.Ico (lo + 1) hi) := by
    ext c
    simp only [Finset.mem_Ico, Finset.mem_insert]
    omega
  rw [hIco, Finset.filter_insert]
  split
  · rw [Finset.card_insert_of_notMem]
    simp
  · rfl

theorem missing_le_need (hlt : lo < hi) : v.missing n lo ≤ v.need n lo hi := by
  have hcount := card_filter_Ico_step v n hlt
  have hind := le_needIndirect (v := v) (n := n) hlt
  unfold need missing
  omega

theorem need_step (hlt : lo < hi) (hind : (v'.inode n).indirect = 0 ↔ (v.inode n).indirect = 0 ∧ lo < NDIRECT)
    (hblock : ∀ c, c ≠ lo → v'.fileBlock n c = v.fileBlock n c) :
    v'.need n (lo + 1) hi + v.missing n lo ≤ v.need n lo hi := by
  have hrest : (Finset.Ico (lo + 1) hi).filter (fun c => v'.fileBlock n c = none) =
      (Finset.Ico (lo + 1) hi).filter fun c => v.fileBlock n c = none := by
    apply Finset.filter_congr
    intro c hc
    rw [Finset.mem_Ico] at hc
    rw [hblock c (by omega)]
  have hcount := card_filter_Ico_step v n hlt
  have hstep := needIndirect_step hlt hind
  unfold need missing
  rw [hrest]
  omega

end Volume

/-! ## Writing -/

/-- From `k` to `k'` the bytes of file `i` from `lo` to `hi` have been replaced by those of `src`,
where `src` is indexed as the file is. -/
@[grind cases eager]
structure Stored (i : InodePtr) (lo hi : Nat) (src : Nat → UInt8) (k k' : Kernel) : Prop where
  works : k.Works i k'
  din : ∃ addrs, (k'.inode i).din = { (k.inode i).din with addrs := addrs }
  byte : ∀ p, (k'.view i).byte (k.inode i).inum p =
    if lo ≤ p ∧ p < hi then src p else (k.view i).byte (k.inode i).inum p
  others : ∀ m, m ≠ (k.inode i).inum → ((k.view i).inode m).type ≠ 0 →
    ∀ c, (k'.view i).fileBlock m c = (k.view i).fileBlock m c
  mapped : ∀ c, (k.view i).fileBlock (k.inode i).inum c ≠ none ∨
    (lo < hi ∧ lo / BSIZE ≤ c ∧ c * BSIZE < hi) → (k'.view i).fileBlock (k.inode i).inum c ≠ none
  same : (∀ c, lo / BSIZE ≤ c → c * BSIZE < hi → (k.view i).fileBlock (k.inode i).inum c ≠ none) →
    k'.inode = k.inode ∧ k'.volume.inode = k.volume.inode

theorem Stored.type_view {lo hi : Nat} {src : Nat → UInt8} (h : Stored i lo hi src k k')
    (m : UInt32) : ((k'.view i).inode m).type = ((k.view i).inode m).type := by
  obtain ⟨addrs, hdin⟩ := h.din
  exact h.works.type_view (by rw [hdin]) m

theorem Stored.refl (i : InodePtr) (lo : Nat) (src : Nat → UInt8) (k : Kernel) : Stored i lo lo src k k where
  works := .refl i k
  din := ⟨_, rfl⟩
  byte := fun p => by rw [if_neg (by omega)]
  others := fun _ _ _ _ => rfl
  mapped := by
    rintro c (hc | hc)
    · exact hc
    · omega
  same := fun _ => ⟨rfl, rfl⟩

theorem Stored.trans {lo mid hi : Nat} {src : Nat → UInt8} (h : Stored i lo mid src k k1)
    (h' : Stored i mid hi src k1 k2) (hlo : lo < mid) (hhi : mid ≤ hi) :
    Stored i lo hi src k k2 where
  works := h.works.trans h'.works
  din := by
    grind
  byte := by
    grind
  others := by
    intro m hm htype c
    rw [h'.others m (by rwa [h.works.inum]) (by rwa [h.type_view]), h.others m hm htype]
  mapped := by
    intro c hc
    have hmapped := h'.mapped c
    rw [h.works.inum] at hmapped
    apply hmapped
    by_cases hmid : c * BSIZE < mid
    all_goals grind [Nat.div_le_of_le_mul, Nat.mul_comm]
  same := by
    intro hall
    obtain ⟨hinode, hdinode⟩ := h.same fun c hc hlt => hall c hc (by omega)
    have hstep : k2.inode = k1.inode ∧ k2.volume.inode = k1.volume.inode := by
      apply h'.same
      intro c hc hlt
      rw [h.works.inum]
      exact h.mapped c (.inl (hall c ((Nat.div_le_div_right hlo.le).trans hc) hlt))
    exact ⟨hstep.1.trans hinode, hstep.2.trans hdinode⟩

theorem Mapped.stored {off m : Nat} {a : UInt32} {src : Nat → UInt8}
    (h : Mapped i (off / BSIZE) k a k1) (hw : k.Working i F) (hw1 : k1.Working i F') (hm0 : 0 < m)
    (hm : off % BSIZE + m ≤ BSIZE) (hwrites : k1.Writes k2)
    (hv : k2.volume = k1.volume.setBlock a (patch (k1.volume.block a) (off % BSIZE) m fun j => src (off + j))) :
    Stored i off (off + m) src k k2 ∧ (k2.view i).Allocated k.sb ∧
      (∀ c, c ≠ off / BSIZE → (k2.view i).fileBlock (k.inode i).inum c = (k.view i).fileBlock (k.inode i).inum c) := by
  obtain ⟨s, hs, hslot⟩ := h.slot
  obtain ⟨addrs, hdin⟩ := h.din
  have hinum := h.works.inum
  have htype1 : ∀ m, ((k1.view i).inode m).type = ((k.view i).inode m).type :=
    h.works.type_view (by rw [hdin])
  have hslot_ne : (k1.view i).slot (k.inode i).inum s ≠ 0 := by
    rw [hslot]
    exact h.ne_zero
  have hn1 : ((k1.view i).inode (k.inode i).inum).type ≠ 0 := by
    rw [htype1]
    exact hw.type_view
  have hview : k2.view i = (k1.view i).setBlock ((k1.view i).slot (k.inode i).inum s)
      (patch ((k1.view i).block ((k1.view i).slot (k.inode i).inum s)) (off % BSIZE) m fun j => src (off + j)) := by
    rw [Kernel.view_setBlock hwrites hv, hslot]
    rfl
  have halloc : (k1.view i).Allocated k.sb := by
    have halloc := hw1.allocated
    rwa [h.works.sb] at halloc
  -- what the block held before
  have hold : (k1.view i).block ((k1.view i).slot (k.inode i).inum s) =
      ((k.view i).fileBlock (k.inode i).inum (off / BSIZE)).getD fun _ => 0 := by
    have hblock := h.block (k.inode i).inum (off / BSIZE) hw.type_view
    rw [if_pos ⟨rfl, rfl⟩, Volume.fileBlock_of_slot_ne hs hslot_ne] at hblock
    exact Option.some.inj hblock
  have hfile : ∀ m' c, ((k.view i).inode m').type ≠ 0 → (k2.view i).fileBlock m' c =
      if m' = (k.inode i).inum ∧ c = off / BSIZE then
        some (patch (((k.view i).fileBlock (k.inode i).inum (off / BSIZE)).getD fun _ => 0)
          (off % BSIZE) m fun j => src (off + j))
      else (k.view i).fileBlock m' c := by
    intro m' c hm'
    rw [hview, halloc.fileBlock_setBlock hn1 (by rwa [htype1]) hs hslot_ne, hold]
    split
    · rfl
    · rename_i hne
      rw [h.block m' c hm', if_neg hne]
  have hinode : k2.volume.inode = k1.volume.inode := by rw [hv, Volume.inode_setBlock]
  refine ⟨?_, ?_, ?_⟩
  · constructor
    · exact h.works.trans (hwrites.works fun m' _ => by rw [hinode])
    · exact ⟨addrs, by rw [hwrites.inode, hdin]⟩
    · intro p
      rw [Volume.byte_patch hm (fun c => by simpa using hfile (k.inode i).inum c hw.type_view)]
      split
      · rename_i hp
        rw [Nat.add_sub_cancel' hp.1]
      · rfl
    · intro m' hm' htype c
      rw [hfile m' c htype, if_neg fun heq => hm' heq.1]
    · intro c hc
      rw [hfile _ c hw.type_view]
      split
      · exact Option.some_ne_none _
      · rename_i hne
        refine hc.resolve_right fun htouch => hne ⟨rfl, ?_⟩
        have hlt : c * BSIZE < (off / BSIZE + 1) * BSIZE := by
          have hdiv := Nat.div_add_mod off BSIZE
          rw [Nat.add_mul, Nat.mul_comm (off / BSIZE)]
          omega
        have hlt' := Nat.lt_of_mul_lt_mul_right hlt
        omega
    · intro hall
      have hk1 : k1 = k := by
        apply h.same
        apply hall _ le_rfl
        exact (Nat.div_mul_le_self ..).trans_lt (by omega)
      exact ⟨by rw [hwrites.inode, hk1], by rw [hinode, hk1]⟩
  · rw [hview]
    exact halloc.setBlock hn1 hslot_ne (Volume.fileSlot_ne_indirect hs) _
  · intro c hc
    rw [hfile _ c hw.type_view, if_neg fun heq => hc heq.2]

/-- The first block past the end `e` of a range. -/
def blockEnd (e : Nat) : Nat := (e + (BSIZE - 1)) / BSIZE

/-- What the loop of `writei` finds and leaves: the room for the blocks from `lo` to `hi`. -/
structure WriteRoom (E : Halt → Prop) (i : InodePtr) (lo hi r f : Nat) (F : Finset UInt32)
    (k : Kernel) : Prop where
  working : k.Working i F
  log : LogRoom E F (r + (hi - lo) + (k.view i).needIndirect (k.inode i).inum lo hi) k
  free : FreeRoom E (f + (k.view i).need (k.inode i).inum lo hi) k

theorem writeiStep_ensures {off m hi : Nat} (src : Nat → UInt8)
    (h : WriteRoom E i (off / BSIZE) hi r f F k) (hlt : off / BSIZE < hi) (hhi : hi ≤ MAXFILE)
    (hm0 : 0 < m) (hm : off % BSIZE + m ≤ BSIZE) :
    Ensures (do
      let addr ← bmap i (off / BSIZE)
      logWrite addr fun data => patch data (off % BSIZE) m fun j => src (off + j)) k
      (fun _ k' => ∃ F', WriteRoom E i (off / BSIZE + 1) hi r f F' k' ∧ Stored i off (off + m) src k k') E := by
  have hw := h.working
  -- what is left of the room after this block
  obtain ⟨x, hx⟩ := Nat.exists_eq_add_of_le (Volume.le_needIndirect (v := k.view i) (n := (k.inode i).inum) hlt)
  obtain ⟨y, hy⟩ := Nat.exists_eq_add_of_le (Volume.missing_le_need (v := k.view i) (n := (k.inode i).inum) hlt)
  have hlog := h.log
  have hfree := h.free
  rw [hx, Kernel.inode_view] at hlog
  refine (bmap_ensures (r := r + (hi - (off / BSIZE + 1)) + x) (f := f + y) hw (by omega)
    (hlog.mono (by omega)) (hfree.mono (by omega))).bind ?_
  rintro a k1 ⟨F1, hF, ha, hw1, hlog1, hfree1, hmapped⟩
  have hdata : k1.sb.Data a := by
    obtain ⟨s, -, hslot⟩ := hmapped.slot
    rw [← hslot, ← hmapped.works.inum]
    apply (hw1.allocated.data_slot hw1.type_view _).1
    rw [hmapped.works.inum, hslot]
    exact hmapped.ne_zero
  refine (logWrite_data hw1.geometry hdata hlog1 ha _).mono ?_
  rintro _ k2 ⟨hwrites, hv, hlog2⟩
  obtain ⟨hstored, halloc, hblock⟩ := hmapped.stored hw hw1 hm0 hm hwrites hv
  have hinum : (k2.inode i).inum = (k.inode i).inum := hstored.works.inum
  have hinode : k2.inode i = k1.inode i := by rw [hwrites.inode]
  have hind : ((k2.view i).inode (k.inode i).inum).indirect = 0 ↔
      ((k.view i).inode (k.inode i).inum).indirect = 0 ∧ off / BSIZE < NDIRECT := by
    rw [Kernel.inode_view, ← hinum, Kernel.inode_view, hinode]
    exact hmapped.indirect
  have hneedInd := Volume.needIndirect_step hlt hind
  have hneed := Volume.need_step hlt hind hblock
  refine ⟨F1, ⟨?_, ?_, ?_⟩, hstored⟩
  · apply (hwrites.works fun m _ => by rw [hv, Volume.inode_setBlock]).working hw1 subset_rfl
    · rw [hinode]
    · rw [hmapped.works.sb]
      exact halloc
    · rw [hinode]
      exact hw1.indirect_in
  · rw [hinum]
    exact hlog2.mono (by omega)
  · rw [hinum]
    exact (hfree1.congr hwrites.sb (by rw [hv]; rfl)).mono (by omega)

/-- The loop of `writei`, by induction on the iterations left.  After the last one there may be room
left: `lo` is where the next block would be. -/
theorem writeiLoop_ensures {base n : Nat} (src : List UInt8) (hmax : blockEnd (base + n) ≤ MAXFILE) :
    ∀ fuel tot lo k F, n - tot ≤ fuel → tot ≤ n → (tot < n → (base + tot) / BSIZE = lo) →
      WriteRoom E i lo (blockEnd (base + n)) r f F k →
      Ensures (writeiLoop i src n fuel tot (base + tot)) k (fun off k' => off = base + n ∧
        Stored i (base + tot) (base + n) (fun p => src.getD (p - base) 0) k k' ∧
          ∃ F', k'.Working i F' ∧ LogRoom E F' r k' ∧ FreeRoom E f k') E := by
  intro fuel
  induction fuel with
  | zero =>
    intro tot lo k F hfuel hle _ hroom
    have htot : tot = n := by omega
    subst htot
    exact ⟨rfl, .refl .., F, hroom.working, hroom.log.mono (by omega), hroom.free.mono (by omega)⟩
  | succ fuel ih =>
    intro tot lo k F hfuel hle hlo hroom
    unfold writeiLoop
    split
    · rename_i hlt
      obtain rfl := hlo hlt
      have hB : BSIZE = 512 := rfl
      have hoB : (base + tot) / BSIZE = (base + tot) / 512 ∧ (base + tot) % BSIZE = (base + tot) % 512 := ⟨rfl, rfl⟩
      have heB : blockEnd (base + n) = (base + n + 511) / 512 := rfl
      generalize hm : min (n - tot) (BSIZE - (base + tot) % BSIZE) = m
      have hstep := writeiStep_ensures (m := m) (fun p => src.getD (p - base) 0) hroom
        (by omega) hmax (by omega) (by omega)
      rw [ensures_bind] at hstep
      refine ensures_bind.2 (hstep.mono fun a k1 hstore => ?_)
      have hsrc : (fun j => src.getD (base + tot + j - base) 0) = fun j => src.getD (tot + j) 0 := by
        funext j
        rw [Nat.add_assoc, Nat.add_sub_cancel_left]
      rw [hsrc] at hstore
      refine hstore.bind ?_
      rintro _ k2 ⟨F2, hroom2, hstored⟩
      rw [Nat.add_assoc base tot m] at hstored ⊢
      refine (ih (tot + m) ((base + tot) / BSIZE + 1) k2 F2 ?_ ?_ ?_ hroom2).mono ?_
      · omega
      · omega
      · intro hmore
        have hnext : (base + (tot + m)) / BSIZE = (base + (tot + m)) / 512 := rfl
        omega
      · rintro off k' ⟨hoff, hstored', hrest⟩
        refine ⟨hoff, hstored.trans hstored' ?_ ?_, hrest⟩
        · omega
        · omega
    · have htot : tot = n := by omega
      subst htot
      exact ⟨rfl, .refl .., F, hroom.working, hroom.log.mono (by omega), hroom.free.mono (by omega)⟩

/-! ## writei -/

/-- The copy of inode `i` in memory is the inode on disk. -/
def Kernel.Coherent (k : Kernel) (i : InodePtr) : Prop :=
  (k.inode i).din = k.volume.inode (k.inode i).inum

theorem Kernel.Coherent.view (h : k.Coherent i) : k.view i = k.volume := by
  rw [Kernel.view, h]
  simp [Volume.setInode]

theorem iupdate_ensures (hw : k.Working i F) (hlog : LogRoom E F (r + 1) k) :
    Ensures (iupdate i) k (fun _ k' => k.Works i k' ∧ k'.inode = k.inode ∧ k'.volume = k.view i ∧
      k'.Coherent i ∧ k'.Working i (insert (IBLOCK (k.inode i).inum k.sb) F) ∧
      LogRoom E (insert (IBLOCK (k.inode i).inum k.sb) F) r k') E := by
  refine (logWrite_inode hw.geometry hw.inum_lt (hlog.insert _) (Finset.mem_insert_self ..) _).mono ?_
  rintro _ k' ⟨hwrites, hv, hlog'⟩
  have hview : k'.volume = k.view i := hv
  have hcoherent : k'.Coherent i := by rw [Kernel.Coherent, hview, hwrites.inode, Kernel.inode_view]
  have hworks : k.Works i k' := by
    apply hwrites.works
    intro m hm
    rw [hv]
    exact Function.update_of_ne hm ..
  refine ⟨hworks, hwrites.inode, hview, hcoherent, ?_, hlog'⟩
  apply hworks.working hw (Finset.subset_insert ..)
  · rw [hwrites.inode]
  · rw [hcoherent.view, hview]
    exact hw.allocated
  grind

/-- The ranges that `writei` accepts. -/
def Kernel.Accepts (k : Kernel) (i : InodePtr) (off n : UInt32) : Prop :=
  off ≤ (k.inode i).din.size ∧ off.toNat + n.toNat < 2 ^ 32 ∧ off.toNat + n.toNat ≤ MAXFILE * BSIZE

theorem writei_refuses (hdev : (k.inode i).din.type ≠ T_DEV)
    (hno : ¬ k.Accepts i off n) (src : List UInt8) :
    writei i src off n k = .ok (-1, k) := by
  have hE : Ensures (writei i src off n) k (fun res k' => res = -1 ∧ k' = k) fun _ => False := by
    unfold writei
    rw [ensures_bind, ensures_get]
    rw [if_neg hdev]
    split
    · exact ⟨rfl, rfl⟩
    · rename_i hin
      rw [add_lt_self_iff, not_or, UInt32.not_lt, Nat.not_le] at hin
      rw [if_pos]
      · exact ⟨rfl, rfl⟩
      · by_contra hle
        apply hno
        rw [UInt32.not_lt, UInt32.le_iff_toNat_le, toNat_add_of_lt hin.2] at hle
        exact ⟨hin.1, hin.2, hle⟩
  obtain ⟨res, k', hrun, rfl, rfl⟩ := ensures_false_iff.1 hE
  exact hrun

/-- From `k` to `k'` the `n` bytes at `off` of file `i` have been replaced by `src`, and the file has
grown if it was shorter. -/
@[grind cases eager]
structure Wrote (i : InodePtr) (src : List UInt8) (off n : UInt32) (k k' : Kernel) : Prop where
  works : k.Works i k'
  coherent : k'.Coherent i
  din : ∃ addrs, (k'.inode i).din = { (k.inode i).din with
    addrs := addrs
    size := UInt32.ofNat (max (k.inode i).din.size.toNat (off.toNat + n.toNat)) }
  byte : ∀ p, k'.volume.byte (k.inode i).inum p =
    if off.toNat ≤ p ∧ p < off.toNat + n.toNat then src.getD (p - off.toNat) 0
    else k.volume.byte (k.inode i).inum p
  others : ∀ m, m ≠ (k.inode i).inum → (k.volume.inode m).type ≠ 0 →
    ∀ c, k'.volume.fileBlock m c = k.volume.fileBlock m c
  complete : k'.volume.Complete (k.inode i).inum

theorem Stored.wrote_within {src : List UInt8}
    (h : Stored i off.toNat (off.toNat + n.toNat) (fun p => src.getD (p - off.toNat) 0) k k')
    (hco : k.Coherent i) (hcomplete : k.volume.Complete (k.inode i).inum)
    (hle : off.toNat + n.toNat ≤ (k.inode i).din.size.toNat) : Wrote i src off n k k' := by
  have hsize : (k.volume.inode (k.inode i).inum).size = (k.inode i).din.size := by rw [← hco]
  have hview := hco.view
  -- all blocks were there, so nothing was allocated
  obtain ⟨hinode, hdinode⟩ := h.same fun c _ hc => by
    rw [hview]
    exact hcomplete c (by rw [hsize]; omega)
  have hco' : k'.Coherent i := by
    rw [Kernel.Coherent, hinode, hdinode]
    exact hco
  have hview' := hco'.view
  refine ⟨h.works, hco', ⟨(k.inode i).din.addrs, ?_⟩, ?_, ?_, ?_⟩
  all_goals grind [Kernel.Coherent, Volume.Complete, Nat.max_eq_left, UInt32.ofNat_toNat]

theorem Stored.wrote_grow {src : List UInt8}
    (h : Stored i off.toNat (off.toNat + n.toNat) (fun p => src.getD (p - off.toNat) 0) k k1)
    (hco : k.Coherent i) (hcomplete : k.volume.Complete (k.inode i).inum)
    (hoff : off.toNat ≤ (k.inode i).din.size.toNat) (hwrap : off.toNat + n.toNat < 2 ^ 32)
    (hlt : (k.inode i).din.size.toNat < off.toNat + n.toNat)
    (hk2 : k2 = k1.withDin i { (k1.inode i).din with size := UInt32.ofNat (off.toNat + n.toNat) })
    (hworks : k2.Works i k') (hinode : k'.inode = k2.inode) (hv : k'.volume = k2.view i)
    (hco' : k'.Coherent i) : Wrote i src off n k k' := by
  have hview := hco.view
  obtain ⟨addrs, hdin⟩ := h.din
  have hdin' : (k'.inode i).din = { (k.inode i).din with
      addrs := addrs
      size := UInt32.ofNat (off.toNat + n.toNat) } := by
    rw [hinode, hk2, Kernel.inode_withDin, hdin]
  have hworks' : k.Works i k' := by
    rw [hk2] at hworks
    exact (h.works.trans (k1.works_withDin i _)).trans hworks
  -- the size has no say in where the blocks are
  have hfile : ∀ m c, k'.volume.fileBlock m c = (k1.view i).fileBlock m c := by
    intro m c
    rw [hv, hk2, Kernel.view_withDin]
    apply Volume.fileBlock_of_addrs
    · by_cases hm : m = (k1.inode i).inum
      · rw [hm, Volume.inode_setInode, Function.update_self, Kernel.inode_view]
      · rw [Volume.inode_setInode, Function.update_of_ne hm]
    · rfl
  refine ⟨hworks', hco', ⟨addrs, ?_⟩, ?_, ?_, ?_⟩
  · rw [hdin', Nat.max_eq_right hlt.le]
  · intro p
    rw [Volume.byte_congr (hfile _), h.byte, hview]
  · intro m hm htype c
    rw [hfile, h.others m hm (by rwa [hview]), hview]
  · intro c hc
    rw [← hworks'.inum, ← hco', hdin', toNat_ofNat32 hwrap] at hc
    rw [hfile]
    apply h.mapped
    by_cases hin : c * BSIZE < (k.inode i).din.size.toNat
    all_goals grind [Kernel.Coherent, Volume.Complete, Kernel.withDin, Nat.div_le_of_le_mul, Nat.mul_comm]

/-- `writei` of a range that is accepted, with room for the blocks and one more block of the log for
the inode. -/
theorem writei_ensures (hco : k.Coherent i) (hdev : (k.inode i).din.type ≠ T_DEV)
    (hcomplete : k.volume.Complete (k.inode i).inum) (hacc : k.Accepts i off n)
    (hroom : WriteRoom E i (off.toNat / BSIZE) (blockEnd (off.toNat + n.toNat)) (r + 1) f F k)
    (src : List UInt8) :
    Ensures (writei i src off n) k (fun res k' => res = n.toNat ∧ Wrote i src off n k k' ∧
      ∃ F', k'.Working i F' ∧ LogRoom E F' r k' ∧ FreeRoom E f k') E := by
  obtain ⟨hoff, hwrap, hmax⟩ := hacc
  have hrefuse : ¬ (off > (k.inode i).din.size ∨ off + n < off) := by
    rw [add_lt_self_iff, not_or, UInt32.not_lt]
    exact ⟨hoff, by omega⟩
  have hsmall : ¬ off + n > UInt32.ofNat (MAXFILE * BSIZE) := by
    rw [UInt32.not_lt, UInt32.le_iff_toNat_le, toNat_add_of_lt hwrap]
    exact hmax
  rw [UInt32.le_iff_toNat_le] at hoff
  have hend : blockEnd (off.toNat + n.toNat) ≤ MAXFILE := by
    have hE : blockEnd (off.toNat + n.toNat) = (off.toNat + n.toNat + 511) / 512 := rfl
    have hM : MAXFILE * BSIZE = 140 * 512 := rfl
    have hM' : MAXFILE = 140 := rfl
    omega
  unfold writei
  rw [ensures_bind, ensures_get]
  dsimp only
  rw [if_neg hdev, if_neg hrefuse, if_neg hsmall]
  refine (writeiLoop_ensures src hend n.toNat 0 (off.toNat / BSIZE) k F (by omega) (by omega)
    (fun _ => rfl) hroom).bind ?_
  rintro _ k1 ⟨rfl, hstored, F1, hw1, hlog1, hfree1⟩
  rw [ensures_bind, ensures_get]
  have hsize : (k1.inode i).din.size = (k.inode i).din.size := by
    obtain ⟨addrs, hdin⟩ := hstored.din
    rw [hdin]
  rw [hsize]
  split
  · rename_i hgrow
    rw [ensures_bind]
    apply ensures_setDin
    have hw2 : (k1.withDin i { (k1.inode i).din with
        size := UInt32.ofNat (off.toNat + n.toNat) }).Working i F1 := hw1.withDin rfl rfl
    refine (iupdate_ensures hw2 hlog1).bind ?_
    rintro _ k' ⟨hworks, hinode, hv, hco', hw', hlog'⟩
    refine ⟨rfl, hstored.wrote_grow hco hcomplete hoff hwrap hgrow.2 rfl hworks hinode hv hco',
      _, hw', hlog', hfree1.congr hworks.sb ?_⟩
    rw [hv]
    rfl
  · rename_i hstay
    refine ⟨rfl, hstored.wrote_within hco hcomplete ?_, F1, hw1, hlog1.mono (by omega), hfree1⟩
    rw [gt_iff_lt, UInt32.lt_iff_toNat_lt] at hstay
    have hzero : (0 : UInt32).toNat = 0 := rfl
    omega

end AsoPracticas.Xv6
