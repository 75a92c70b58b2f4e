import AsoPracticas.Xv6.Image
import Mathlib.Data.Finset.Card

/-!
# Blocks — what the block layer does to the volume

`logWrite`, `balloc` and `bfree` as changes of the volume on the disk.  Each statement says when the
program can stop: `LogRoom` and `FreeRoom` give the room that the log and the free map must have for a
program that does not stop for want of it.
-/

namespace AsoPracticas.Xv6

open Lib

def Kernel.volume (k : Kernel) : Volume := diskVolume k.sb k.disk

theorem Kernel.block_volume {k : Kernel} {b : UInt32} (h : k.sb.Data b) : k.volume.block b = k.disk b :=
  if_pos h

/-- `k'` has the disk and the open transaction of a later moment; the superblock stays in its block. -/
@[grind cases eager]
structure Kernel.Writes (k k' : Kernel) : Prop where
  sb : k'.sb = k.sb
  log : k'.log = k.log
  outstanding : k'.outstanding = k.outstanding
  inode : k'.inode = k.inode
  devsw : k'.devsw = k.devsw
  super : k'.disk 1 = k.disk 1

theorem Kernel.Writes.trans {k1 k2 k3 : Kernel} (h : k1.Writes k2) (h' : k2.Writes k3) :
    k1.Writes k3 :=
  ⟨h'.sb.trans h.sb, h'.log.trans h.log, h'.outstanding.trans h.outstanding,
    h'.inode.trans h.inode, h'.devsw.trans h.devsw, h'.super.trans h.super⟩

/-! ## Room -/

/-- The blocks logged are among `F`, and the log has room for all of `F` and `r` more; or else a full
log is one of the stops in `E`. -/
def LogRoom (E : Halt → Prop) (F : Finset UInt32) (r : Nat) (k : Kernel) : Prop :=
  (E (.panic .tooBig) ∧ E (.panic .outsideOfTrans)) ∨
    (1 ≤ k.outstanding ∧ k.lh.Nodup ∧ (∀ b ∈ k.lh, b ∈ F) ∧
      F.card + r < LOGSIZE ∧ ((F.card + r : Nat) : Int) < k.log.size - 1)

def Volume.free (sb : Superblock) (v : Volume) : Finset Nat :=
  (Finset.range sb.size.toNat).filter fun b => v.used (UInt32.ofNat b) = false

/-- At least `f` blocks are free; or else running out of blocks is one of the stops in `E`. -/
def FreeRoom (E : Halt → Prop) (f : Nat) (k : Kernel) : Prop :=
  E (.panic .outOfBlocks) ∨ f ≤ (k.volume.free k.sb).card

variable {E : Halt → Prop} {F : Finset UInt32} {r f : Nat} {k k' : Kernel} {b : UInt32}

theorem LogRoom.insert (h : LogRoom E F (r + 1) k) (b : UInt32) : LogRoom E (insert b F) r k := by
  rcases h with hE | ⟨hout, hnodup, hmem, hlen, hsize⟩
  · exact .inl hE
  · have hcard := Finset.card_insert_le b F
    refine .inr ⟨hout, hnodup, fun a ha => Finset.mem_insert_of_mem (hmem a ha), ?_, ?_⟩
    · omega
    · push_cast at hsize ⊢
      omega

theorem LogRoom.mono (h : LogRoom E F r k) {r' : Nat} (hr : r' ≤ r) : LogRoom E F r' k := by
  all_goals grind [LogRoom]

theorem FreeRoom.mono (h : FreeRoom E f k) {f' : Nat} (hf : f' ≤ f) : FreeRoom E f' k := h.imp_right hf.trans

/-! ## log_write -/

theorem logWrite_ensures (hroom : LogRoom E F r k) (hb : b ∈ F) (g : Block → Block) :
    Ensures (logWrite b g) k
      (fun _ k' => k'.disk = Function.update k.disk b (g (k.disk b)) ∧ LogRoom E F r k' ∧
        ∃ lh, k' = { k with disk := k'.disk, lh := lh }) E := by
  unfold logWrite
  rw [ensures_bind, ensures_get]
  split
  · rename_i hfull
    rcases hroom with hE | ⟨hout, hnodup, hmem, hlen, hsize⟩
    · exact hE.1
    · -- the blocks logged are no more than those that may be
      have hle : k.lh.length ≤ F.card := by
        rw [← List.toFinset_card_of_nodup hnodup]
        exact Finset.card_le_card fun a ha => hmem a (List.mem_toFinset.1 ha)
      omega
  · split
    · rename_i hout'
      rcases hroom with hE | ⟨hout, -⟩
      · exact hE.2
      · omega
    · refine ⟨rfl, ?_, _, rfl⟩
      grind [LogRoom]

/-- A store through the log in a block other than the superblock, as a change of the volume. -/
theorem logWrite_volume (hroom : LogRoom E F r k) (hb : b ∈ F) (hb1 : b ≠ 1) (g : Block → Block)
    {v : Volume} (hv : diskVolume k.sb (Function.update k.disk b (g (k.disk b))) = v) :
    Ensures (logWrite b g) k (fun _ k' => k.Writes k' ∧ k'.volume = v ∧ LogRoom E F r k') E := by
  refine (logWrite_ensures hroom hb g).mono ?_
  rintro _ k' ⟨hdisk, hroom', lh, hk'⟩
  have hsuper : k'.disk 1 = k.disk 1 := by rw [hdisk, Function.update_of_ne hb1.symm]
  refine ⟨?_, ?_, hroom'⟩
  · rw [hk'] at hsuper ⊢
    exact ⟨rfl, rfl, rfl, rfl, rfl, hsuper⟩
  · have hsb : k'.sb = k.sb := by rw [hk']
    rw [Kernel.volume, hsb, hdisk, hv]

theorem logWrite_data (hg : k.sb.Geometry) (hdata : k.sb.Data b) (hroom : LogRoom E F r k)
    (hb : b ∈ F) (g : Block → Block) :
    Ensures (logWrite b g) k
      (fun _ k' => k.Writes k' ∧ k'.volume = k.volume.setBlock b (g (k.volume.block b)) ∧ LogRoom E F r k') E := by
  rw [Kernel.block_volume hdata]
  exact logWrite_volume hroom hb (hg.data_ne_one hdata) g (diskVolume_setBlock hg hdata _)

theorem logWrite_inode {n : UInt32} (hg : k.sb.Geometry) (hn : n < k.sb.ninodes)
    (hroom : LogRoom E F r k) (hF : IBLOCK n k.sb ∈ F) (d : Dinode) :
    Ensures (logWrite (IBLOCK n k.sb) fun data => setDinode data n d) k
      (fun _ k' => k.Writes k' ∧ k'.volume = k.volume.setInode n d ∧ LogRoom E F r k') E := by
  refine logWrite_volume hroom hF ?_ _ (diskVolume_setInode hg hn d)
  intro heq
  have hlt := (hg.IBLOCK_lt hn).1
  rw [heq] at hlt
  exact absurd hlt (by decide)

theorem logWrite_used (hg : k.sb.Geometry) (hb : b < k.sb.size) (hroom : LogRoom E F r k)
    (hF : BBLOCK b k.sb ∈ F) (g : Block → Block) (x : Bool)
    (hbit : ∀ data j, bit (g data) j = if j = b.toNat % BPB then x else bit data j) :
    Ensures (logWrite (BBLOCK b k.sb) g) k
      (fun _ k' => k.Writes k' ∧ k'.volume = k.volume.setUsed b x ∧ LogRoom E F r k') E := by
  refine logWrite_volume hroom hF ?_ _ (diskVolume_setUsed hg hb _ x (hbit _))
  intro heq
  have hle := (hg.BBLOCK_lt hb).1
  have hlt := hg.bmapstart_lt
  rw [heq] at hle
  exact absurd (hlt.1.trans_le hle) (by decide)

/-! ## balloc and bfree -/

theorem bit_index_lt (b : UInt32) : b.toNat % BPB / 8 < BSIZE := by
  have hmod : b.toNat % BPB < 4096 := Nat.mod_lt _ (by decide)
  simp only [show BSIZE = 512 from rfl]
  omega

theorem ballocScan_some {j bi : Nat} (h : ballocScan k = some (j, bi)) :
    UInt32.ofNat (j + bi) < k.sb.size ∧ BBLOCK (UInt32.ofNat j) k.sb = BBLOCK (UInt32.ofNat (j + bi)) k.sb ∧
      (UInt32.ofNat (j + bi)).toNat % BPB = bi ∧ k.volume.used (UInt32.ofNat (j + bi)) = false := by
  obtain ⟨i, -, hi⟩ := List.exists_of_findSome?_eq_some h
  obtain ⟨bi', hfind, ⟨⟩⟩ := Option.map_eq_some_iff.1 hi
  obtain ⟨hp, hmem, -⟩ := List.find?_range_eq_some.1 hfind
  rw [List.mem_range] at hmem
  rw [Bool.and_eq_true, decide_eq_true_eq, Bool.not_eq_true'] at hp
  obtain ⟨hlt, hbit⟩ := hp
  have hsize := k.sb.size.toNat_lt
  have htoNat : (UInt32.ofNat (i * BPB + bi)).toNat = i * BPB + bi := toNat_ofNat32 (by omega)
  have htoNat' : (UInt32.ofNat (i * BPB)).toNat = i * BPB := toNat_ofNat32 (by omega)
  have hpos : 0 < BPB := by decide
  have hblock : BBLOCK (UInt32.ofNat (i * BPB)) k.sb = BBLOCK (UInt32.ofNat (i * BPB + bi)) k.sb := by
    apply BBLOCK_congr
    rw [htoNat, htoNat', Nat.mul_div_cancel _ hpos, Nat.mul_comm, Nat.mul_add_div hpos,
      Nat.div_eq_of_lt hmem, Nat.add_zero]
  have hmod : (i * BPB + bi) % BPB = bi := by rw [Nat.mul_comm, Nat.mul_add_mod, Nat.mod_eq_of_lt hmem]
  have hlt' : UInt32.ofNat (i * BPB + bi) < k.sb.size := by
    rw [UInt32.lt_iff_toNat_lt, htoNat]
    exact hlt
  refine ⟨hlt', hblock, by rw [htoNat, hmod], ?_⟩
  simp only [Kernel.volume, diskVolume, hlt', decide_true, Bool.true_and]
  rw [htoNat, hmod, ← hblock]
  exact hbit

theorem ballocScan_none (h : ballocScan k = none) {b : UInt32} (hb : b < k.sb.size) : k.volume.used b = true := by
  have hlt : b.toNat < k.sb.size.toNat := UInt32.lt_iff_toNat_lt.1 hb
  have hpos : 0 < BPB := by decide
  have hmod : b.toNat % BPB < BPB := Nat.mod_lt _ hpos
  have hdiv : b.toNat / BPB * BPB + b.toNat % BPB = b.toNat := Nat.div_add_mod' ..
  have hmem : b.toNat / BPB ∈ List.range ((k.sb.size.toNat + (BPB - 1)) / BPB) := by
    rw [List.mem_range]
    simp only [show BPB = 4096 from rfl]
    omega
  have hnone := List.findSome?_eq_none_iff.1 h _ hmem
  rw [Option.map_eq_none_iff, List.find?_range_eq_none] at hnone
  have hbit := hnone (b.toNat % BPB) hmod
  rw [hdiv] at hbit
  have hlt32 := b.toNat_lt
  have hblock : BBLOCK (UInt32.ofNat (b.toNat / BPB * BPB)) k.sb = BBLOCK b k.sb := by
    apply BBLOCK_congr
    rw [toNat_ofNat32 (by omega), Nat.mul_div_cancel _ hpos]
  rw [hblock] at hbit
  simpa [Kernel.volume, diskVolume, hb, hlt] using hbit

theorem Volume.free_fresh (sb : Superblock) (v : Volume) (b : UInt32) :
    (v.fresh b).free sb = (v.free sb).erase b.toNat := by
  ext c
  rw [Volume.free, Volume.free, Finset.mem_erase, Finset.mem_filter, Finset.mem_filter,
    Finset.mem_range, Volume.used_fresh]
  by_cases hc : c = b.toNat
  · simp [hc]
  · have hne : c < sb.size.toNat → UInt32.ofNat c ≠ b := by
      intro hlt heq
      apply hc
      rw [← heq, toNat_ofNat32 (hlt.trans sb.size.toNat_lt)]
    grind

theorem Volume.mem_free {sb : Superblock} {v : Volume} (hb : b < sb.size) (hused : v.used b = false) :
    b.toNat ∈ v.free sb := by
  simp [Volume.free, hused, UInt32.lt_iff_toNat_lt.1 hb]

/-- The blocks of the free map may be logged. -/
def MapIn (sb : Superblock) (F : Finset UInt32) : Prop :=
  ∀ b < sb.size, BBLOCK b sb ∈ F

theorem MapIn.insert {sb : Superblock} (h : MapIn sb F) (b : UInt32) : MapIn sb (insert b F) :=
  fun c hc => Finset.mem_insert_of_mem (h c hc)

theorem balloc_ensures (hg : k.sb.Geometry) (hmeta : ∀ b : UInt32, b.toNat < k.sb.dataStart → k.volume.used b = true)
    (hlog : LogRoom E F (r + 1) k) (hfree : FreeRoom E (f + 1) k) (hF : MapIn k.sb F) :
    Ensures balloc k
      (fun b k' => k.Writes k' ∧ k.sb.Data b ∧ k.volume.used b = false ∧
        k'.volume = k.volume.fresh b ∧ LogRoom E (insert b F) r k' ∧ FreeRoom E f k') E := by
  unfold balloc
  rw [ensures_bind, ensures_get]
  split
  · rename_i hscan
    -- no free block: there were not enough of them
    refine hfree.resolve_right fun hle => ?_
    have hempty : k.volume.free k.sb = ∅ := by
      apply Finset.filter_false_of_mem
      intro c hc
      rw [Finset.mem_range] at hc
      have hlt : UInt32.ofNat c < k.sb.size := by
        rw [UInt32.lt_iff_toNat_lt, toNat_ofNat32 (hc.trans k.sb.size.toNat_lt)]
        exact hc
      simp [ballocScan_none hscan hlt]
    rw [hempty, Finset.card_empty] at hle
    omega
  · rename_i j bi hscan
    obtain ⟨hlt, hblock, hmod, hused⟩ := ballocScan_some hscan
    have hdata : k.sb.Data (UInt32.ofNat (j + bi)) := by
      refine ⟨?_, UInt32.lt_iff_toNat_lt.1 hlt⟩
      grind
    have hroom := hlog.insert (UInt32.ofNat (j + bi))
    rw [hblock]
    refine (logWrite_used hg hlt hroom ((hF.insert _) _ hlt) _ true ?_).bind ?_
    · intro data a
      rw [bit_setBit (by rw [← hmod]; exact bit_index_lt _), hmod]
      by_cases ha : a = bi
      · simp [ha]
      · simp [ha]
    · rintro _ k1 ⟨hw1, hv1, hlog1⟩
      have hg1 : k1.sb.Geometry := by rwa [hw1.sb]
      have hdata1 : k1.sb.Data (UInt32.ofNat (j + bi)) := by rwa [hw1.sb]
      refine (logWrite_data hg1 hdata1 hlog1 (Finset.mem_insert_self ..) _).bind ?_
      rintro _ k2 ⟨hw2, hv2, hlog2⟩
      have hv : k2.volume = k.volume.fresh (UInt32.ofNat (j + bi)) := by
        rw [hv2, hv1]
        rfl
      have hw := hw1.trans hw2
      refine ⟨hw, hdata, hused, hv, hlog2, hfree.imp_right fun hle => ?_⟩
      rw [hv, hw.sb, Volume.free_fresh, Finset.card_erase_of_mem (Volume.mem_free hlt hused)]
      omega

end AsoPracticas.Xv6
