import AsoPracticas.Xv6.EmptyDisk

/-!
# Mkfs — the program that makes the first disk

`mkfs.c` on a host with the byte order of the disk, as a program over the image file.  The image is
written and read a sector at a time; a read past its end gives less than a sector, and `mkfs` exits.  A
host file is what `open` and `read` return for it.
-/

namespace AsoPracticas.Xv6.Mkfs

open Lib

/-! ## Parameters -/

def FSSIZE : Nat := 1000

def NINODES : Nat := 200

def nbitmap : Nat := FSSIZE / (BSIZE * 8) + 1
def ninodeblocks : Nat := NINODES / IPB + 1
def nlog : Nat := LOGSIZE

def nmeta : Nat := 2 + nlog + ninodeblocks + nbitmap

def nblocks : Nat := FSSIZE - nmeta

def sb : Superblock where
  size := UInt32.ofNat FSSIZE
  nblocks := UInt32.ofNat nblocks
  ninodes := UInt32.ofNat NINODES
  nlog := UInt32.ofNat nlog
  logstart := 2
  inodestart := UInt32.ofNat (2 + nlog)
  bmapstart := UInt32.ofNat (2 + nlog + ninodeblocks)

theorem sb_eq : sb = mkfsSuperblock := by decide

/-! ## The host -/

/-- What one `read` of a file puts into `buf`. -/
structure Chunk where
  bytes : List UInt8
  pos : 0 < bytes.length
  le_size : bytes.length ≤ BSIZE

def joined (chunks : List Chunk) : List UInt8 := (chunks.map Chunk.bytes).flatten

/-- An argument: its name, and what the reads of the file return until one returns nothing; `none` if
the file cannot be opened. -/
structure HostFile where
  name : List UInt8
  chunks : Option (List Chunk)
  /-- the name is a C string -/
  nonzero : 0 ∉ name

def HostFile.bytes (f : HostFile) : List UInt8 := joined (f.chunks.getD [])

/-- The byte of `_`. -/
def underscore : UInt8 := 95

def HostFile.stored (f : HostFile) : List UInt8 :=
  if f.name.head? = some underscore then f.name.tail else f.name

/-! ## The image -/

/-- Why `mkfs` does not finish: an `assert` fails, or it calls `exit(1)`. -/
inductive Abort where
  | assertion
  | exit
  deriving DecidableEq, Repr

structure Image where
  /-- the sectors of the file; there are `len` of them -/
  disk : Disk
  len : Nat
  freeinode : UInt32
  /-- the first free block that we can allocate -/
  freeblock : UInt32

abbrev Mk := StateT Image (Except Abort)

/-- `sec * BSIZE`, an unsigned integer, as a number of sectors. -/
def sector (sec : UInt32) : UInt32 := sec * UInt32.ofNat BSIZE / UInt32.ofNat BSIZE

def rsect (sec : UInt32) : Mk Block := do
  let s ← get
  if (sector sec).toNat < s.len then return s.disk (sector sec) else throw .exit

def wsect (sec : UInt32) (buf : Block) : Mk Unit :=
  modify fun s =>
    { s with
      disk := Function.update s.disk (sector sec) buf
      len := max s.len ((sector sec).toNat + 1) }

/-- `freeblock++`. -/
def takeBlock : Mk UInt32 := do
  let b := (← get).freeblock
  modify fun s => { s with freeblock := b + 1 }
  return b

/-! ## Inodes -/

def rinode (inum : UInt32) : Mk Dinode := do
  return dinodeAt (← rsect (IBLOCK inum sb)) inum

def winode (inum : UInt32) (ip : Dinode) : Mk Unit := do
  let buf ← rsect (IBLOCK inum sb)
  wsect (IBLOCK inum sb) (setDinode buf inum ip)

def ialloc (type : UInt16) : Mk UInt32 := do
  let inum := (← get).freeinode
  modify fun s => { s with freeinode := inum + 1 }
  winode inum { newDinode type with nlink := 1 }
  return inum

/-- The block with the first `used` bits set. -/
def usedMap (used : Nat) : Block := (List.range used).foldl (fun buf i => setBit buf i) fun _ => 0

def balloc (used : Nat) : Mk Unit :=
  if used < BSIZE * 8 then wsect sb.bmapstart (usedMap used) else throw .assertion

/-! ## iappend -/

/-- `if(xint(din.addrs[j]) == 0) din.addrs[j] = xint(freeblock++);` -/
def iappendAddr (din : Dinode) (j : Fin (NDIRECT + 1)) : Mk Dinode := do
  if din.addrs j = 0 then
    let b ← takeBlock
    return din.withAddr j b
  else return din

/-- The entry for block `j` of the indirect block `ind`, which gets a block if it has none. -/
def iappendEntry (ind : UInt32) (j : Nat) : Mk UInt32 := do
  let indirect ← rsect ind
  if getU32 indirect (4 * j) = 0 then
    let b ← takeBlock
    wsect ind (setU32 indirect (4 * j) b)
    return b
  else return getU32 indirect (4 * j)

/-- The sector of block `fbn`, and the inode with it. -/
def iappendBlock (din : Dinode) (fbn : Nat) : Mk (UInt32 × Dinode) := do
  if h : fbn < NDIRECT then
    let din ← iappendAddr din ⟨fbn, Nat.lt_succ_of_lt h⟩
    return (din.addrs ⟨fbn, Nat.lt_succ_of_lt h⟩, din)
  else
    let din ← iappendAddr din (Fin.last NDIRECT)
    let x ← iappendEntry din.indirect (fbn - NDIRECT)
    return (x, din)

/-- The loop of `iappend`; every round takes at least one byte of `p`. -/
def iappendLoop : (fuel : Nat) → (p : List UInt8) → (din : Dinode) → (off : Nat) → Mk (Dinode × Nat)
  | 0, _, din, off => return (din, off)
  | fuel + 1, p, din, off => do
      if p.length > 0 then
        let fbn := off / BSIZE
        if fbn < MAXFILE then
          let (x, din) ← iappendBlock din fbn
          let n1 := min p.length ((fbn + 1) * BSIZE - off)
          let buf ← rsect x
          wsect x (patch buf (off - fbn * BSIZE) n1 fun j => p.getD j 0)
          iappendLoop fuel (p.drop n1) din (off + n1)
        else throw .assertion
      else return (din, off)

def iappend (inum : UInt32) (p : List UInt8) : Mk Unit := do
  let din ← rinode inum
  let (din, off) ← iappendLoop p.length p din din.size.toNat
  winode inum { din with size := UInt32.ofNat off }

/-! ## main -/

/-- `.` and `..` -/
def dot : List UInt8 := [46]
def dotdot : List UInt8 := [46, 46]

def addFile (rootino : UInt32) (f : HostFile) : Mk Unit :=
  if slash ∈ f.name then throw .assertion
  else
    match f.chunks with
    | none => throw .exit
    | some chunks => do
        let inum ← ialloc T_FILE
        iappend rootino (dirent inum.toUInt16 f.stored)
        chunks.forM fun buf => iappend inum buf.bytes

def fixSize (rootino : UInt32) : Mk Unit := do
  let din ← rinode rootino
  let off := (din.size / UInt32.ofNat BSIZE + 1) * UInt32.ofNat BSIZE
  winode rootino { din with size := off }

-- irreducible: elaboration must not run the loop over all sectors
@[irreducible] def main (files : List HostFile) : Mk Unit := do
  (List.range FSSIZE).forM fun i => wsect (UInt32.ofNat i) fun _ => 0
  wsect 1 (superBlock sb)
  let rootino ← ialloc T_DIR
  if rootino ≠ ROOTINO then throw .assertion
  else
    iappend rootino (dirent rootino.toUInt16 dot)
    iappend rootino (dirent rootino.toUInt16 dotdot)
    files.forM (addFile rootino)
    fixSize rootino
    balloc (← get).freeblock.toNat

def start : Image where
  disk := fun _ _ => 0
  len := 0
  freeinode := 1
  freeblock := UInt32.ofNat nmeta

/-- The image that `mkfs` makes of the files, if it finishes. -/
def mkfs (files : List HostFile) : Except Abort Image := (main files start).map Prod.snd

end AsoPracticas.Xv6.Mkfs
