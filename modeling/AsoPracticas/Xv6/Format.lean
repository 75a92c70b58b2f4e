import AsoPracticas.Lib.Bitmap
import AsoPracticas.Xv6.Disk

/-!
# Format — the on-disk format of the file system

The superblock, the inodes and the directory entries of `fs.h` as bytes of a block.
-/

namespace AsoPracticas.Xv6

open Lib

def ROOTINO : UInt32 := 1

def NDIRECT : Nat := 12

instance (priority := 2000) : @NeZero Nat Zero.ofOfNat0 (NDIRECT + 1) := ⟨by decide⟩

def NINDIRECT : Nat := BSIZE / 4

def MAXFILE : Nat := NDIRECT + NINDIRECT

/-- `sizeof(struct dinode)`. -/
def DINODESIZE : Nat := 64

def IPB : Nat := BSIZE / DINODESIZE

def BPB : Nat := BSIZE * 8

def DIRSIZ : Nat := 14

/-- `sizeof(struct dirent)`. -/
def DIRENTSIZE : Nat := DIRSIZ + 2

def T_DIR : UInt16 := 1
def T_FILE : UInt16 := 2
def T_DEV : UInt16 := 3

/-! ## The superblock -/

structure Superblock where
  size : UInt32
  nblocks : UInt32
  ninodes : UInt32
  nlog : UInt32
  logstart : UInt32
  inodestart : UInt32
  bmapstart : UInt32
  deriving DecidableEq

/-- The superblock in a block, as `readsb` copies it. -/
def superblockAt (data : Block) : Superblock where
  size := getU32 data 0
  nblocks := getU32 data 4
  ninodes := getU32 data 8
  nlog := getU32 data 12
  logstart := getU32 data 16
  inodestart := getU32 data 20
  bmapstart := getU32 data 24

/-- Block containing inode `i`. -/
def IBLOCK (i : UInt32) (sb : Superblock) : UInt32 := i / UInt32.ofNat IPB + sb.inodestart

/-- Block of the free map containing the bit for block `b`. -/
def BBLOCK (b : UInt32) (sb : Superblock) : UInt32 := b / UInt32.ofNat BPB + sb.bmapstart

/-! ## Inodes -/

/-- `struct dinode`. -/
@[ext]
structure Dinode where
  type : UInt16
  major : UInt16
  minor : UInt16
  nlink : UInt16
  size : UInt32
  addrs : Fin (NDIRECT + 1) → UInt32
  deriving DecidableEq

/-- `addrs[j] = addr`. -/
def Dinode.withAddr (d : Dinode) (j : Fin (NDIRECT + 1)) (addr : UInt32) : Dinode :=
  { d with addrs := Function.update d.addrs j addr }

@[simp] theorem Dinode.type_withAddr (d : Dinode) (j : Fin (NDIRECT + 1)) (addr : UInt32) :
    (d.withAddr j addr).type = d.type := rfl

@[simp] theorem Dinode.addrs_withAddr (d : Dinode) (j : Fin (NDIRECT + 1)) (addr : UInt32) :
    (d.withAddr j addr).addrs = Function.update d.addrs j addr := rfl

/-- The offset of inode `inum` in its block. -/
def dinodeOff (inum : UInt32) : Nat := DINODESIZE * (inum.toNat % IPB)

/-- `(struct dinode*)bp->data + inum%IPB`. -/
def dinodeAt (data : Block) (inum : UInt32) : Dinode where
  type := getU16 data (dinodeOff inum)
  major := getU16 data (dinodeOff inum + 2)
  minor := getU16 data (dinodeOff inum + 4)
  nlink := getU16 data (dinodeOff inum + 6)
  size := getU32 data (dinodeOff inum + 8)
  addrs := fun j => getU32 data (dinodeOff inum + 12 + 4 * j)

/-- Byte `k` of an inode. -/
def Dinode.byte (d : Dinode) (k : Nat) : UInt8 :=
  if k < 2 then byte16 d.type k
  else if k < 4 then byte16 d.major (k - 2)
  else if k < 6 then byte16 d.minor (k - 4)
  else if k < 8 then byte16 d.nlink (k - 6)
  else if k < 12 then byte32 d.size (k - 8)
  else byte32 (d.addrs (Fin.ofNat _ ((k - 12) / 4))) ((k - 12) % 4)

/-- The block with inode `inum` stored. -/
def setDinode (data : Block) (inum : UInt32) (d : Dinode) : Block :=
  patch data (dinodeOff inum) DINODESIZE d.byte

theorem dinodeOff_add_le (inum : UInt32) : dinodeOff inum + DINODESIZE ≤ BSIZE := by
  have hmod : inum.toNat % IPB < 8 := Nat.mod_lt _ (by decide)
  simp only [dinodeOff, DINODESIZE, BSIZE]
  omega

theorem dinodeAt_setDinode (data : Block) (inum : UInt32) (d : Dinode) : dinodeAt (setDinode data inum d) inum = d := by
  have hle := dinodeOff_add_le inum
  have hsize : DINODESIZE = 64 := rfl
  have hn : NDIRECT = 12 := rfl
  -- every field lies inside the inode's bytes
  have h16 : ∀ k, k + 2 ≤ 64 → getU16 (setDinode data inum d) (dinodeOff inum + k) =
      le16 (d.byte k) (d.byte (k + 1)) := by
    intro k hk
    rw [setDinode, getU16_patch_of_mem (by omega) (by omega) (by omega), Nat.add_sub_cancel_left]
  have h32 : ∀ k, k + 4 ≤ 64 → getU32 (setDinode data inum d) (dinodeOff inum + k) =
      le32 (d.byte k) (d.byte (k + 1)) (d.byte (k + 2)) (d.byte (k + 3)) := by
    intro k hk
    rw [setDinode, getU32_patch_of_mem (by omega) (by omega) (by omega), Nat.add_sub_cancel_left]
  have haddr : ∀ j : Fin (NDIRECT + 1), ∀ r < 4, d.byte (12 + 4 * j.val + r) = byte32 (d.addrs j) r := by
    intro j r hr
    have hj : Fin.ofNat (NDIRECT + 1) ((12 + 4 * j.val + r - 12) / 4) = j := by grind
    have hmod : (12 + 4 * j.val + r - 12) % 4 = r := by omega
    rw [Dinode.byte, if_neg (by omega), if_neg (by omega), if_neg (by omega), if_neg (by omega),
      if_neg (by omega), hj, hmod]
  apply Dinode.ext
  · exact (h16 0 (by omega)).trans (le16_byte16 d.type)
  · exact (h16 2 (by omega)).trans (le16_byte16 d.major)
  · exact (h16 4 (by omega)).trans (le16_byte16 d.minor)
  · exact (h16 6 (by omega)).trans (le16_byte16 d.nlink)
  · exact (h32 8 (by omega)).trans (le32_byte32 d.size)
  · funext j
    change getU32 _ (dinodeOff inum + 12 + 4 * j) = _
    have h0 := haddr j 0 (by omega)
    grind [le32_byte32]

theorem dinodeAt_setDinode_of_ne (data : Block) (d : Dinode) {inum m : UInt32}
    (hne : m.toNat % IPB ≠ inum.toNat % IPB) :
    dinodeAt (setDinode data inum d) m = dinodeAt data m := by
  have hdisjoint : dinodeOff m + 64 ≤ dinodeOff inum ∨ dinodeOff inum + 64 ≤ dinodeOff m := by
    simp only [dinodeOff, DINODESIZE]
    omega
  have hsize : DINODESIZE = 64 := rfl
  have hn : NDIRECT = 12 := rfl
  apply Dinode.ext
  · exact getU16_patch_of_disjoint (by omega)
  · exact getU16_patch_of_disjoint (by omega)
  · exact getU16_patch_of_disjoint (by omega)
  · exact getU16_patch_of_disjoint (by omega)
  · exact getU32_patch_of_disjoint (by omega)
  · funext j
    exact getU32_patch_of_disjoint (by omega)

end AsoPracticas.Xv6
