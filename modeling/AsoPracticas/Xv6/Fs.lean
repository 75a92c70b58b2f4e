import AsoPracticas.Lib.Program
import AsoPracticas.Xv6.Format
import AsoPracticas.Xv6.Log

/-!
# Fs — blocks, inodes, directories and names

The functions of `fs.c` on one processor that read and write blocks and look names up, as programs over the
kernel's file-system state; those that allocate inodes and write directory entries are in `Naming`.  A block that
the source reads with `bread`, changes and hands to `log_write` is one step `logWrite`; what `bread`
returns is the last contents logged.

A panic stops the kernel.  A process that waits for a sleep-lock that it holds itself never returns:
that is `Halt.deadlock`.
-/

namespace AsoPracticas.Xv6

open Lib

def NINODE : Nat := 50
def NDEV : Int := 10

theorem NINODE_pos : 0 < NINODE := by decide

/-! ## The state -/

inductive Panic where
  | tooBig
  | outsideOfTrans
  | outOfBlocks
  | freeingFreeBlock
  | igetNoInodes
  | ilock
  | ilockNoType
  | iunlock
  | bmapOutOfRange
  | dirlookupNotDir
  | dirlookupRead
  deriving DecidableEq, Repr

inductive Halt where
  | panic (p : Panic)
  | deadlock
  deriving DecidableEq, Repr

/-- In-memory copy of an inode; `din` is the copy of the disk inode. -/
structure Inode where
  inum : UInt32
  ref : Int
  locked : Bool
  valid : Bool
  din : Dinode

/-- The device functions, by major number: what a read of `n` bytes gives, and what a write of `n`
bytes returns.  `none` is `-1` for a read. -/
structure Devsw where
  read : UInt16 → Option (UInt32 → Option (List UInt8))
  write : UInt16 → Option (UInt32 → Int)

abbrev InodePtr := Fin NINODE

structure Kernel where
  /-- What `bread` returns for each block. -/
  disk : Disk
  sb : Superblock
  log : Log
  /-- Blocks logged by the open transaction. -/
  lh : LogHeader
  outstanding : Nat
  inode : InodePtr → Inode
  devsw : Devsw

abbrev Fs := StateT Kernel (Except Halt)

def panic {α : Type} (p : Panic) : Fs α := throw (.panic p)

/-! ## The log, for a process alone -/

def bread (b : UInt32) : Fs Block := do
  return (← get).disk b

/-- `bread` block `b`, change its data with `f`, `log_write` and `brelse` it. -/
def logWrite (b : UInt32) (f : Block → Block) : Fs Unit := do
  let k ← get
  if k.lh.length ≥ LOGSIZE ∨ (k.lh.length : Int) ≥ k.log.size - 1 then panic .tooBig
  else if k.outstanding < 1 then panic .outsideOfTrans
  else
    set { k with
      disk := Function.update k.disk b (f (k.disk b))
      lh := if b ∈ k.lh then k.lh else k.lh ++ [b] }

/-! ## Blocks -/

def bzero (bno : UInt32) : Fs Unit :=
  logWrite bno fun _ _ => 0

/-- The two loops of `balloc`: the first block of bits `b` and the first clear bit `bi` in it. -/
def ballocScan (k : Kernel) : Option (Nat × Nat) :=
  (List.range ((k.sb.size.toNat + (BPB - 1)) / BPB)).findSome? fun j =>
    let b := j * BPB
    let data := k.disk (BBLOCK (UInt32.ofNat b) k.sb)
    ((List.range BPB).find? fun bi => b + bi < k.sb.size.toNat && !bit data bi).map fun bi => (b, bi)

def balloc : Fs UInt32 := do
  let k ← get
  match ballocScan k with
  | none => panic .outOfBlocks
  | some (b, bi) =>
    logWrite (BBLOCK (UInt32.ofNat b) k.sb) fun data => setBit data bi
    bzero (UInt32.ofNat (b + bi))
    return UInt32.ofNat (b + bi)

def bfree (b : UInt32) : Fs Unit := do
  modify fun k => { k with sb := superblockAt (k.disk 1) }
  let k ← get
  let bi := b.toNat % BPB
  if bit (k.disk (BBLOCK b k.sb)) bi then
    logWrite (BBLOCK b k.sb) fun data => clearBit data bi
  else panic .freeingFreeBlock

/-! ## Inodes -/

def setInode (i : InodePtr) (f : Inode → Inode) : Fs Unit :=
  modify fun k => { k with inode := Function.update k.inode i (f (k.inode i)) }

def setDin (i : InodePtr) (f : Dinode → Dinode) : Fs Unit :=
  setInode i fun ip => { ip with din := f ip.din }

/-- Find the inode with number `inum` and return the in-memory copy. -/
def iget (inum : UInt32) : Fs InodePtr := do
  let k ← get
  match (List.finRange NINODE).find? fun i => (k.inode i).ref > 0 && (k.inode i).inum = inum with
  | some i =>
    setInode i fun ip => { ip with ref := ip.ref + 1 }
    return i
  | none =>
    match (List.finRange NINODE).find? fun i => (k.inode i).ref = 0 with
    | none => panic .igetNoInodes
    | some i =>
      setInode i fun ip => { ip with inum := inum, ref := 1, valid := false }
      return i

def idup (i : InodePtr) : Fs InodePtr := do
  setInode i fun ip => { ip with ref := ip.ref + 1 }
  return i

def newDinode (type : UInt16) : Dinode where
  type := type
  major := 0
  minor := 0
  nlink := 0
  size := 0
  addrs := fun _ => 0

def iupdate (i : InodePtr) : Fs Unit := do
  let k ← get
  let ip := k.inode i
  logWrite (IBLOCK ip.inum k.sb) fun data => setDinode data ip.inum ip.din

def acquiresleep (i : InodePtr) : Fs Unit := do
  if ((← get).inode i).locked then throw .deadlock
  else setInode i fun ip => { ip with locked := true }

def releasesleep (i : InodePtr) : Fs Unit :=
  setInode i fun ip => { ip with locked := false }

/-- Lock the given inode and read it from disk if necessary. -/
def ilock (i : InodePtr) : Fs Unit := do
  if ((← get).inode i).ref < 1 then panic .ilock
  else
    acquiresleep i
    let k ← get
    let ip := k.inode i
    if ip.valid then return ()
    else
      let din := dinodeAt (k.disk (IBLOCK ip.inum k.sb)) ip.inum
      setInode i fun ip => { ip with din := din, valid := true }
      if din.type = 0 then panic .ilockNoType else return ()

def iunlock (i : InodePtr) : Fs Unit := do
  let ip := (← get).inode i
  if !ip.locked ∨ ip.ref < 1 then panic .iunlock
  else releasesleep i

/-! ## Inode content -/

def setAddr (i : InodePtr) (j : Fin (NDIRECT + 1)) (addr : UInt32) : Fs Unit :=
  setDin i fun d => d.withAddr j addr

/-- `if((addr = ip->addrs[j]) == 0) ip->addrs[j] = addr = balloc(ip->dev)`. -/
def bmapAddr (i : InodePtr) (j : Fin (NDIRECT + 1)) : Fs UInt32 := do
  let addr := ((← get).inode i).din.addrs j
  if addr = 0 then
    let addr ← balloc
    setAddr i j addr
    return addr
  else return addr

/-- `if((addr = a[bn]) == 0){ a[bn] = addr = balloc(ip->dev); log_write(bp); }`, where `a` is the
indirect block `ind`. -/
def bmapEntry (ind : UInt32) (bn : Nat) : Fs UInt32 := do
  let addr := getU32 (← bread ind) (4 * bn)
  if addr = 0 then
    let addr ← balloc
    logWrite ind fun a => setU32 a (4 * bn) addr
    return addr
  else return addr

/-- The disk block address of block `bn` of the inode, allocated if there is no such block. -/
def bmap (i : InodePtr) (bn : Nat) : Fs UInt32 := do
  if h : bn < NDIRECT then bmapAddr i ⟨bn, by omega⟩
  else if bn - NDIRECT < NINDIRECT then
    let ind ← bmapAddr i (Fin.last NDIRECT)
    bmapEntry ind (bn - NDIRECT)
  else panic .bmapOutOfRange

/-- `if(ip->addrs[j]){ bfree(ip->dev, ip->addrs[j]); ip->addrs[j] = 0; }`. -/
def itruncAddr (i : InodePtr) (j : Fin (NDIRECT + 1)) : Fs Unit := do
  let addr := ((← get).inode i).din.addrs j
  if addr ≠ 0 then
    bfree addr
    setAddr i j 0

/-- The part of `itrunc` for the indirect block: first the blocks in it. -/
def itruncIndirect (i : InodePtr) : Fs Unit := do
  let addr := ((← get).inode i).din.addrs (Fin.last NDIRECT)
  if addr ≠ 0 then
    let data ← bread addr
    (List.range NINDIRECT).forM fun j => do
      if getU32 data (4 * j) ≠ 0 then
        bfree (getU32 data (4 * j))
    bfree addr
    setAddr i (Fin.last NDIRECT) 0

def itrunc (i : InodePtr) : Fs Unit := do
  (List.range NDIRECT).forM fun j => itruncAddr i (Fin.ofNat _ j)
  itruncIndirect i
  setDin i fun d => { d with size := 0 }
  iupdate i

/-- Drop a reference to an in-memory inode; the last one frees an inode without links. -/
def iput (i : InodePtr) : Fs Unit := do
  acquiresleep i
  let ip := (← get).inode i
  if ip.valid && ip.din.nlink = 0 then
    if ip.ref = 1 then
      itrunc i
      setDin i fun d => { d with type := 0 }
      iupdate i
      setInode i fun ip => { ip with valid := false }
  releasesleep i
  setInode i fun ip => { ip with ref := ip.ref - 1 }

def iunlockput (i : InodePtr) : Fs Unit := do
  iunlock i
  iput i

/-- The loop of `readi`, with `fuel` iterations left. -/
def readiLoop (i : InodePtr) (n : Nat) : (fuel tot off : Nat) → Fs (List UInt8)
  | 0, _, _ => return []
  | fuel + 1, tot, off => do
      if tot < n then
        let data ← bread (← bmap i (off / BSIZE))
        let m := min (n - tot) (BSIZE - off % BSIZE)
        let rest ← readiLoop i n fuel (tot + m) (off + m)
        return (List.range m).map (fun j => getByte data (off % BSIZE + j)) ++ rest
      else return []

/-- Read data from inode; `none` is `-1`. -/
def readi (i : InodePtr) (off n : UInt32) : Fs (Option (List UInt8)) := do
  let k ← get
  let d := (k.inode i).din
  if d.type = T_DEV then
    if d.major.toInt16.toInt < 0 ∨ d.major.toInt16.toInt ≥ NDEV then return none
    else return (k.devsw.read d.major).bind fun f => f n
  else if off > d.size ∨ off + n < off then return none
  else
    let n := if off + n > d.size then d.size - off else n
    let dst ← readiLoop i n.toNat n.toNat 0 off.toNat
    return some dst

/-- The loop of `writei`, with `fuel` iterations left; it returns the last value of `off`. -/
def writeiLoop (i : InodePtr) (src : List UInt8) (n : Nat) : (fuel tot off : Nat) → Fs Nat
  | 0, _, off => return off
  | fuel + 1, tot, off => do
      if tot < n then
        let addr ← bmap i (off / BSIZE)
        let m := min (n - tot) (BSIZE - off % BSIZE)
        logWrite addr fun data => patch data (off % BSIZE) m fun j => src.getD (tot + j) 0
        writeiLoop i src n fuel (tot + m) (off + m)
      else return off

def writei (i : InodePtr) (src : List UInt8) (off n : UInt32) : Fs Int := do
  let k ← get
  let d := (k.inode i).din
  if d.type = T_DEV then
    if d.major.toInt16.toInt < 0 ∨ d.major.toInt16.toInt ≥ NDEV then return -1
    else return (k.devsw.write d.major).elim (-1) fun f => f n
  else if off > d.size ∨ off + n < off then return -1
  else if off + n > UInt32.ofNat (MAXFILE * BSIZE) then return -1
  else
    let off ← writeiLoop i src n.toNat n.toNat 0 off.toNat
    let size := ((← get).inode i).din.size
    if n > 0 ∧ off > size.toNat then
      setDin i fun d => { d with size := UInt32.ofNat off }
      iupdate i
    return n.toNat

/-! ## Directories -/

def strncmp : (n : Nat) → (p q : List UInt8) → Int
  | 0, _, _ => 0
  | n + 1, p, q =>
    -- a string ends with a byte 0, which the list does not have
    if p.headD 0 ≠ 0 ∧ p.headD 0 = q.headD 0 then strncmp n p.tail q.tail
    else (p.headD 0).toNat - (q.headD 0).toNat

/-- The `n` bytes that `strncpy` stores. -/
def strncpy : (n : Nat) → (t : List UInt8) → List UInt8
  | 0, _ => []
  | n + 1, t =>
    if t.headD 0 ≠ 0 then t.headD 0 :: strncpy n t.tail else List.replicate (n + 1) 0

def namecmp (s t : List UInt8) : Int := strncmp DIRSIZ s t

/-- `de.inum` of the bytes of a `struct dirent`. -/
def direntInum (de : List UInt8) : UInt16 := le16 (de.getD 0 0) (de.getD 1 0)

def direntName (de : List UInt8) : List UInt8 := de.drop 2

def dirent (inum : UInt16) (name : List UInt8) : List UInt8 :=
  byte16 inum 0 :: byte16 inum 1 :: strncpy DIRSIZ name

/-- The offsets of a loop `for(off = from; off < size; off += sizeof(de))`. -/
def direntOffs (start : Nat) (size : UInt32) : List Nat :=
  (List.range ((size.toNat - start + (DIRENTSIZE - 1)) / DIRENTSIZE)).map fun e =>
    start + DIRENTSIZE * e

/-- `readi(dp, (char*)&de, off, sizeof(de))`, with the panic for a short read. -/
def readDirent (dp : InodePtr) (off : Nat) (p : Panic) : Fs (List UInt8) := do
  match ← readi dp (UInt32.ofNat off) (UInt32.ofNat DIRENTSIZE) with
  | none => panic p
  | some de => if de.length = DIRENTSIZE then return de else panic p

/-- The loop of `dirlookup` over the given offsets. -/
def dirlookupLoop (dp : InodePtr) (name : List UInt8) : List Nat → Fs (Option (InodePtr × Nat))
  | [] => return none
  | off :: offs => do
      let de ← readDirent dp off .dirlookupRead
      if direntInum de = 0 then dirlookupLoop dp name offs
      else if namecmp name (direntName de) = 0 then
        let ip ← iget (direntInum de).toUInt32
        return some (ip, off)
      else dirlookupLoop dp name offs

/-- Look for a directory entry in a directory; it returns the inode and the offset of the entry. -/
def dirlookup (dp : InodePtr) (name : List UInt8) : Fs (Option (InodePtr × Nat)) := do
  let d := ((← get).inode dp).din
  if d.type ≠ T_DIR then panic .dirlookupNotDir
  else dirlookupLoop dp name (direntOffs 0 d.size)

/-! ## Paths -/

def slash : UInt8 := 47

/-- The next path element, cut to `DIRSIZ` bytes, and the path after it without leading slashes. -/
def skipelem (path : List UInt8) : Option (List UInt8 × List UInt8) :=
  let path := path.dropWhile (· = slash)
  if path = [] then none
  else
    let name := (path.takeWhile (· ≠ slash)).take DIRSIZ
    some (name, (path.dropWhile (· ≠ slash)).dropWhile (· = slash))

/-- The loop of `namex`; every element is at least one byte, so `fuel` of more than the length of the
path is enough.  `name` is the element copied last. -/
def namexLoop (nameiparent : Bool) :
    (fuel : Nat) → (path name : List UInt8) → (ip : InodePtr) → Fs (Option (InodePtr × List UInt8))
  | 0, _, _, _ => return none
  | fuel + 1, path, name, ip => do
      match skipelem path with
      | none =>
        if nameiparent then
          iput ip
          return none
        else return some (ip, name)
      | some (name, path) =>
        ilock ip
        if ((← get).inode ip).din.type ≠ T_DIR then
          iunlockput ip
          return none
        else if nameiparent ∧ path = [] then
          -- stop one level early
          iunlock ip
          return some (ip, name)
        else
          match ← dirlookup ip name with
          | none =>
            iunlockput ip
            return none
          | some (next, _) =>
            iunlockput ip
            namexLoop nameiparent fuel path name next

/-- Look up and return the inode for a path name, or its parent and the last element. -/
def namex (cwd : InodePtr) (path : List UInt8) (nameiparent : Bool) : Fs (Option (InodePtr × List UInt8)) := do
  let ip ← if path.head? = some slash then iget ROOTINO else idup cwd
  namexLoop nameiparent (path.length + 1) path [] ip

def namei (cwd : InodePtr) (path : List UInt8) : Fs (Option InodePtr) := do
  return (← namex cwd path false).map Prod.fst

def nameiparent (cwd : InodePtr) (path : List UInt8) : Fs (Option (InodePtr × List UInt8)) :=
  namex cwd path true

/-! ## The constants of `fcntl.h`, and the names every directory has -/

def O_RDONLY : UInt32 := 0x000
def O_WRONLY : UInt32 := 0x001
def O_RDWR : UInt32 := 0x002
def O_CREATE : UInt32 := 0x200

/-- The names `.` and `..`. -/
def dot : List UInt8 := [46]
def dotdot : List UInt8 := [46, 46]

end AsoPracticas.Xv6
