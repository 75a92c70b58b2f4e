import AsoPracticas.Xv6.Contents

/-!
# EmptyDisk — a disk with one empty file

A disk with the layout that `mkfs` gives it, whose free map has the metadata blocks and nothing else,
and whose only inode is that of the root, without blocks.  Its books are right whatever the type of the
inode: `emptyDisk_consistent`.
-/

namespace AsoPracticas.Xv6

open Lib

/-- The layout of the disks that `mkfs` makes. -/
def mkfsSuperblock : Superblock where
  size := 1000
  nblocks := 941
  ninodes := 200
  nlog := 30
  logstart := 2
  inodestart := 32
  bmapstart := 58

/-- A block with the fields of `sb` at its start. -/
def superBlock (sb : Superblock) : Block :=
  let data := setU32 (fun _ => 0) 0 sb.size
  let data := setU32 data 4 sb.nblocks
  let data := setU32 data 8 sb.ninodes
  let data := setU32 data 12 sb.nlog
  let data := setU32 data 16 sb.logstart
  let data := setU32 data 20 sb.inodestart
  setU32 data 24 sb.bmapstart

def metadataMap : Block := fun j =>
  if j.val < 7 then 0xff else if j.val = 7 then 0x07 else 0

def emptyDinode (type : UInt16) : Dinode := { newDinode type with nlink := 1 }

/-- A disk with the superblock and the free map, before the root is made. -/
def blankDisk : Disk :=
  Function.update (Function.update (fun _ _ => 0) 1 (superBlock mkfsSuperblock)) 58 metadataMap

def emptyDisk (type : UInt16) : Disk :=
  Function.update blankDisk (IBLOCK ROOTINO mkfsSuperblock)
    (setDinode (blankDisk (IBLOCK ROOTINO mkfsSuperblock)) ROOTINO (emptyDinode type))

theorem mkfsSuperblock_geometry : mkfsSuperblock.Geometry := ⟨by decide, by decide, by decide, by decide⟩

theorem bit_metadataMap : ∀ j < 1000, bit metadataMap j = decide (j < 59) := by
  decide +kernel

theorem used_blankDisk (b : UInt32) : (diskVolume mkfsSuperblock blankDisk).used b = decide (b.toNat < 59) := by
  have hg := mkfsSuperblock_geometry
  have hsize : mkfsSuperblock.size.toNat = 1000 := rfl
  by_cases hb : b < mkfsSuperblock.size
  · have hlt : b.toNat < 1000 := UInt32.lt_iff_toNat_lt.1 hb
    have hblock : BBLOCK b mkfsSuperblock = 58 := by
      apply UInt32.toNat_inj.1
      rw [hg.BBLOCK_toNat hb, Nat.div_eq_of_lt (hlt.trans (by decide))]
      rfl
    simp only [diskVolume, hb, decide_true, Bool.true_and, hblock, blankDisk, Function.update_self]
    rw [Nat.mod_eq_of_lt (hlt.trans (by decide)), bit_metadataMap _ hlt]
  grind [diskVolume, UInt32.lt_iff_toNat_lt]

theorem type_blankDisk (m : UInt32) : ((diskVolume mkfsSuperblock blankDisk).inode m).type = 0 := by
  have hg := mkfsSuperblock_geometry
  by_cases hm : m < mkfsSuperblock.ninodes
  · have hblock := hg.IBLOCK_lt hm
    have hne : IBLOCK m mkfsSuperblock ≠ 58 ∧ IBLOCK m mkfsSuperblock ≠ 1 := by
      constructor
      · intro heq
        rw [heq] at hblock
        exact absurd hblock.2 (by decide)
      · intro heq
        rw [heq] at hblock
        exact absurd hblock.1 (by decide)
    simp only [diskVolume, hm, if_true, blankDisk]
    rw [Function.update_of_ne hne.1, Function.update_of_ne hne.2]
    simp only [dinodeAt, getU16, getByte_zero]
    rfl
  · simp [diskVolume, hm, newDinode]

theorem emptyDisk_volume (type : UInt16) : diskVolume mkfsSuperblock (emptyDisk type) =
    (diskVolume mkfsSuperblock blankDisk).setInode ROOTINO (emptyDinode type) :=
  diskVolume_setInode mkfsSuperblock_geometry (by decide) _

theorem emptyDisk_consistent (type : UInt16) :
    (diskVolume mkfsSuperblock (emptyDisk type)).Consistent mkfsSuperblock := by
  rw [emptyDisk_volume]
  have hother : ∀ m, m ≠ ROOTINO →
      (((diskVolume mkfsSuperblock blankDisk).setInode ROOTINO (emptyDinode type)).inode m).type =
        0 := by
    intro m hm
    rw [Volume.inode_setInode, Function.update_of_ne hm, type_blankDisk]
  have hown : ∀ p, ((diskVolume mkfsSuperblock blankDisk).setInode ROOTINO (emptyDinode type)).own p = none := by
    rintro ⟨m, s⟩
    rw [Volume.own_eq_none_iff]
    by_cases hm : m = ROOTINO
    · subst hm
      right
      cases s <;> rfl
    · exact .inl (hother m hm)
  refine ⟨⟨⟨?_, ?_⟩, ?_⟩, ?_⟩
  · intro s t b hs
    rw [hown] at hs
    cases hs
  · intro b
    simp only [hown, reduceCtorEq, exists_false, iff_false, Volume.used_setInode, used_blankDisk,
      decide_eq_true_eq, Superblock.Data, show mkfsSuperblock.dataStart = 59 from rfl]
    omega
  · intro b hb
    rw [Volume.used_setInode, used_blankDisk]
    exact decide_eq_true hb
  · intro m htype _
    have hm : m = ROOTINO := by
      by_contra hm
      exact htype (hother m hm)
    subst hm
    intro c hc
    exact absurd hc (Nat.not_lt_zero _)

theorem free_emptyDisk (type : UInt16) :
    941 ≤ ((diskVolume mkfsSuperblock (emptyDisk type)).free mkfsSuperblock).card := by
  have hsub : Finset.Ico 59 1000 ⊆ (diskVolume mkfsSuperblock (emptyDisk type)).free mkfsSuperblock := by
    intro b hb
    rw [Finset.mem_Ico] at hb
    rw [Volume.free, Finset.mem_filter, emptyDisk_volume, Volume.used_setInode, used_blankDisk,
      toNat_ofNat32 (by omega)]
    exact ⟨Finset.mem_range.2 hb.2, decide_eq_false (by omega)⟩
  exact (Nat.card_Ico 59 1000).symm.le.trans (Finset.card_le_card hsub)

def noDevices : Devsw := { read := fun _ => none, write := fun _ => none }

/-- The kernel on an empty disk, in a transaction in which nothing has been logged; a process has the
inode in the first entry of the cache locked. -/
def lockedKernel (type : UInt16) : Kernel where
  disk := emptyDisk type
  sb := mkfsSuperblock
  log := { start := 2, size := 30 }
  lh := []
  outstanding := 1
  inode := fun _ =>
    { inum := ROOTINO, ref := 1, locked := true, valid := true, din := emptyDinode type }
  devsw := noDevices

def firstEntry : InodePtr := ⟨0, NINODE_pos⟩

theorem lockedKernel_volume (type : UInt16) : (lockedKernel type).volume = diskVolume mkfsSuperblock (emptyDisk type) :=
  rfl

theorem lockedKernel_coherent (type : UInt16) : (lockedKernel type).Coherent firstEntry := by
  rw [Kernel.Coherent, lockedKernel_volume, emptyDisk_volume]
  simp [lockedKernel]

end AsoPracticas.Xv6
