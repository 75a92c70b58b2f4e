import AsoPracticas.Xv6.Fs
import AsoPracticas.Xv6.Volume

/-!
# Image — the volume that a disk holds

The bytes of the blocks of a disk read as a volume, for the layout that a superblock gives, and what a
store in each of the three areas does to the volume: in a data block, in the free map, in an inode.
-/

namespace AsoPracticas.Xv6

open Lib

/-- The areas of a disk lie one after the other: superblock, inodes, free map, data. -/
@[grind cases eager]
structure Superblock.Geometry (sb : Superblock) : Prop where
  super : 1 < sb.inodestart.toNat
  inodes : sb.inodestart.toNat + (sb.ninodes.toNat - 1) / IPB + 1 ≤ sb.bmapstart.toNat
  bmap : sb.bmapstart.toNat + sb.size.toNat / BPB + 1 ≤ sb.dataStart
  root : 1 < sb.ninodes.toNat

/-- The volume on a disk.  Numbers past the end of an area mean nothing: there is no such inode, and no
such block. -/
def diskVolume (sb : Superblock) (disk : Disk) : Volume where
  inode := fun n => if n < sb.ninodes then dinodeAt (disk (IBLOCK n sb)) n else newDinode 0
  used := fun b => b < sb.size && bit (disk (BBLOCK b sb)) (b.toNat % BPB)
  block := fun b => if sb.Data b then disk b else fun _ => 0

variable {sb : Superblock} {disk : Disk} {n b : UInt32}

theorem BBLOCK_congr {a : UInt32} (h : a.toNat / BPB = b.toNat / BPB) : BBLOCK a sb = BBLOCK b sb := by
  have hdiv : a / UInt32.ofNat BPB = b / UInt32.ofNat BPB := by
    apply UInt32.toNat_inj.1
    exact h
  rw [BBLOCK, BBLOCK, hdiv]

namespace Superblock.Geometry

theorem dataStart_le_size (sb : Superblock) : sb.dataStart ≤ sb.size.toNat := Nat.sub_le ..

theorem IBLOCK_toNat (hg : sb.Geometry) (hn : n < sb.ninodes) :
    (IBLOCK n sb).toNat = n.toNat / IPB + sb.inodestart.toNat := by
  have hlt : n.toNat < sb.ninodes.toNat := UInt32.lt_iff_toNat_lt.1 hn
  have hb := sb.bmapstart.toNat_lt
  have hi := hg.inodes
  have hIPB : (UInt32.ofNat IPB).toNat = 8 := rfl
  simp only [show IPB = 8 from rfl] at hi ⊢
  rw [IBLOCK, UInt32.toNat_add, UInt32.toNat_div, hIPB, Nat.mod_eq_of_lt (by omega)]

theorem BBLOCK_toNat (hg : sb.Geometry) (hb : b < sb.size) :
    (BBLOCK b sb).toNat = b.toNat / BPB + sb.bmapstart.toNat := by
  have hlt : b.toNat < sb.size.toNat := UInt32.lt_iff_toNat_lt.1 hb
  have hs := sb.size.toNat_lt
  have hm := hg.bmap
  have hd := dataStart_le_size sb
  have hBPB : (UInt32.ofNat BPB).toNat = 4096 := rfl
  simp only [show BPB = 4096 from rfl] at hm ⊢
  rw [BBLOCK, UInt32.toNat_add, UInt32.toNat_div, hBPB, Nat.mod_eq_of_lt (by omega)]

theorem IBLOCK_lt (hg : sb.Geometry) (hn : n < sb.ninodes) :
    1 < (IBLOCK n sb).toNat ∧ (IBLOCK n sb).toNat < sb.bmapstart.toNat := by
  have hlt : n.toNat < sb.ninodes.toNat := UInt32.lt_iff_toNat_lt.1 hn
  have hs := hg.super
  have hi := hg.inodes
  rw [hg.IBLOCK_toNat hn]
  simp only [show IPB = 8 from rfl] at hi ⊢
  omega

theorem BBLOCK_lt (hg : sb.Geometry) (hb : b < sb.size) :
    sb.bmapstart.toNat ≤ (BBLOCK b sb).toNat ∧ (BBLOCK b sb).toNat < sb.dataStart := by
  have hlt : b.toNat < sb.size.toNat := UInt32.lt_iff_toNat_lt.1 hb
  have hm := hg.bmap
  rw [hg.BBLOCK_toNat hb]
  simp only [show BPB = 4096 from rfl] at hm ⊢
  omega

theorem bmapstart_lt (hg : sb.Geometry) : 1 < sb.bmapstart.toNat ∧ sb.bmapstart.toNat < sb.dataStart := by
  grind

theorem IBLOCK_ne_data (hg : sb.Geometry) (hn : n < sb.ninodes) (hb : sb.Data b) : IBLOCK n sb ≠ b := by
  rintro rfl
  have hi := hg.IBLOCK_lt hn
  have hm := hg.bmapstart_lt
  have hd := hb.1
  omega

theorem BBLOCK_ne_data {c : UInt32} (hg : sb.Geometry) (hc : c < sb.size) (hb : sb.Data b) : BBLOCK c sb ≠ b := by
  rintro rfl
  have hc := hg.BBLOCK_lt hc
  have hd := hb.1
  omega

theorem IBLOCK_ne_BBLOCK (hg : sb.Geometry) (hn : n < sb.ninodes) (hb : b < sb.size) : IBLOCK n sb ≠ BBLOCK b sb := by
  intro heq
  have hi := hg.IBLOCK_lt hn
  have hb := hg.BBLOCK_lt hb
  rw [heq] at hi
  omega

theorem data_ne_zero (hg : sb.Geometry) (hb : sb.Data b) : b ≠ 0 := by
  rintro rfl
  have hm := hg.bmapstart_lt
  have hd : sb.dataStart ≤ 0 := hb.1
  omega

theorem data_ne_one (hg : sb.Geometry) (hb : sb.Data b) : b ≠ 1 := by
  rintro rfl
  have hm := hg.bmapstart_lt
  have hd : sb.dataStart ≤ 1 := hb.1
  omega

end Superblock.Geometry

/-! ## Stores -/

theorem diskVolume_setBlock (hg : sb.Geometry) (hb : sb.Data b) (g : Block) :
    diskVolume sb (Function.update disk b g) = (diskVolume sb disk).setBlock b g := by
  apply Volume.ext
  · funext n
    simp only [diskVolume, Volume.inode_setBlock]
    split
    · rename_i hn
      rw [Function.update_of_ne (hg.IBLOCK_ne_data hn hb)]
    · rfl
  · funext c
    by_cases hc : c < sb.size
    · simp [diskVolume, hc, Function.update_of_ne (hg.BBLOCK_ne_data hc hb)]
    · simp [diskVolume, hc]
  · funext c
    by_cases hc : c = b
    · simp [diskVolume, hc, hb]
    · simp [diskVolume, hc]

theorem diskVolume_setUsed (hg : sb.Geometry) (hb : b < sb.size) (g : Block) (x : Bool)
    (hbit : ∀ j, bit g j = if j = b.toNat % BPB then x else bit (disk (BBLOCK b sb)) j) :
    diskVolume sb (Function.update disk (BBLOCK b sb) g) = (diskVolume sb disk).setUsed b x := by
  apply Volume.ext
  · funext n
    simp only [diskVolume, Volume.inode_setUsed]
    split
    · rename_i hn
      rw [Function.update_of_ne (hg.IBLOCK_ne_BBLOCK hn hb)]
    · rfl
  · funext c
    simp only [diskVolume, Volume.used_setUsed, Function.update_apply]
    by_cases hcb : c = b
    · simp [hcb, hbit, hb]
    · by_cases hc : c < sb.size
      · by_cases hblock : BBLOCK c sb = BBLOCK b sb
        · -- the same block of the map: another bit
          have hdiv : c.toNat / BPB = b.toNat / BPB := by
            have htoNat := congrArg UInt32.toNat hblock
            rw [hg.BBLOCK_toNat hc, hg.BBLOCK_toNat hb] at htoNat
            omega
          have hmod : c.toNat % BPB ≠ b.toNat % BPB := by
            intro hmod
            apply hcb
            apply UInt32.toNat_inj.1
            grind [Nat.div_add_mod]
          simp [hcb, hblock, hbit, hmod]
        · simp [hcb, hblock]
      · simp [hcb, hc]
  · funext c
    simp only [diskVolume, Volume.block_setUsed]
    split
    · rename_i hc
      rw [Function.update_of_ne (hg.BBLOCK_ne_data hb hc).symm]
    · rfl

theorem diskVolume_setInode (hg : sb.Geometry) (hn : n < sb.ninodes) (d : Dinode) :
    diskVolume sb (Function.update disk (IBLOCK n sb) (setDinode (disk (IBLOCK n sb)) n d)) =
      (diskVolume sb disk).setInode n d := by
  apply Volume.ext
  · funext m
    simp only [diskVolume, Volume.inode_setInode, Function.update_apply]
    by_cases hmn : m = n
    · simp [hmn, hn, dinodeAt_setDinode]
    · by_cases hm : m < sb.ninodes
      · by_cases hblock : IBLOCK m sb = IBLOCK n sb
        · -- the same block of inodes: another place in it
          have hdiv : m.toNat / IPB = n.toNat / IPB := by
            have htoNat := congrArg UInt32.toNat hblock
            rw [hg.IBLOCK_toNat hm, hg.IBLOCK_toNat hn] at htoNat
            omega
          have hmod : m.toNat % IPB ≠ n.toNat % IPB := by
            intro hmod
            apply hmn
            apply UInt32.toNat_inj.1
            grind [Nat.div_add_mod]
          simp [hmn, hblock, dinodeAt_setDinode_of_ne _ _ hmod]
        · simp [hmn, hblock]
      · simp [hmn, hm]
  · funext c
    by_cases hc : c < sb.size
    · simp [diskVolume, hc, Function.update_of_ne (hg.IBLOCK_ne_BBLOCK hn hc).symm]
    · simp [diskVolume, hc]
  · funext c
    simp only [diskVolume, Volume.block_setInode]
    split
    · rename_i hc
      rw [Function.update_of_ne (hg.IBLOCK_ne_data hn hc).symm]
    · rfl

end AsoPracticas.Xv6
