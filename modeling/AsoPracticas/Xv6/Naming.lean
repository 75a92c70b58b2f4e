import AsoPracticas.Lib.Concurrent
import AsoPracticas.Xv6.Fs

/-!
# Naming — directories, links and inode locks under concurrent calls

The calls of `sysfile.c` as programs of atomic actions, for any number of processes.  An action is a
section under `icache.lock`, an `acquiresleep` or `releasesleep` of an inode lock, or one access to an
inode that a process has locked.  An inode is its type, its link count and, for a directory, its entries;
there is one in-memory copy for each number, which is kept equal to the inode on disk.  Panics of the
allocators and waits of `begin_op` only remove runs, so they are left out; any other `panic` is an action
that never happens.
-/

namespace AsoPracticas.Xv6.Naming

open Lib
open Function (update)

/-! ## Inodes and directories -/

abbrev Inum := Nat

/-- The name in a directory entry: at most `DIRSIZ` bytes, without the zeros after them. -/
abbrev Name := List UInt8

inductive Kind where
  | dir
  | file
  | dev
  deriving Repr, DecidableEq

/-- A directory entry, `none` if its `inum` is zero. -/
abbrev Dirent := Option (Name × Inum)

/-- An inode, free if it has no type.  `ents` are the entries of a directory. -/
structure Node where
  kind : Option Kind
  nlink : Int
  ents : List Dirent
  deriving Repr, DecidableEq

def rootino : Inum := 1

/-- Number of inodes that `mkfs` makes. -/
def NINODES : Nat := 200

/-- The inode and the position of the first entry with this name. -/
def findEntry (name : Name) : List Dirent → Option (Inum × Nat)
  | [] => none
  | none :: es => (findEntry name es).map fun io => (io.1, io.2 + 1)
  | some (n, i) :: es =>
    if n = name then some (i, 0) else (findEntry name es).map fun io => (io.1, io.2 + 1)

/-- Position of the first entry that is not used, which may be the end. -/
def freeEntry (es : List Dirent) : Nat := es.findIdx (· = none)

def writeEntry (es : List Dirent) (off : Nat) (de : Dirent) : List Dirent :=
  if off < es.length then es.set off de else es ++ [de]

/-- Is the directory empty except for its first two entries? -/
def isdirempty (es : List Dirent) : Bool := (es.drop 2).all (· = none)

/-! ## Actions -/

/-- Inodes, the in-memory copies and their locks.  `leaving p` is the directory that process `p` has
just unlocked in the `iunlockput(dp)` of `create` or `sys_unlink`, where it still has the lock of another
inode; `birth` and `clock` say in which order inodes were allocated.  No action reads these three. -/
structure Shared (P : Type) where
  node : Inum → Node
  ref : Inum → Nat
  valid : Inum → Bool
  lock : Inum → Option P
  leaving : P → Option Inum
  birth : Inum → Nat
  clock : Nat

inductive Act where
  /-- `ref++`, in an entry of the cache that may have to be recycled. -/
  | iget (i : Inum)
  | acquiresleep (i : Inum)
  /-- `keeps` in the `iunlockput(dp)` of `create` and `sys_unlink`. -/
  | releasesleep (i : Inum) (keeps : Bool)
  /-- The rest of `ilock`. -/
  | load (i : Inum)
  | isValid (i : Inum)
  /-- Read the inode, which the process has locked. -/
  | peek (i : Inum)
  /-- Write an entry of a directory. -/
  | writei (d : Inum) (off : Nat) (de : Dirent)
  /-- Write type and link count. -/
  | iupdate (i : Inum) (kind : Option Kind) (nlink : Int)
  | itrunc (i : Inum)
  /-- Mark a free inode as allocated; `dp` is the directory it is for. -/
  | ialloc (dp : Inum) (kind : Kind)
  | readRef (i : Inum)
  | invalidate (i : Inum)
  /-- `ref--`. -/
  | dropRef (i : Inum)
  | panic
  deriving Repr, DecidableEq

def Res : Act → Type
  | .isValid _ => Bool
  | .peek _ => Node
  | .ialloc _ _ => Inum
  | .readRef _ => Nat
  | .panic => Empty
  | _ => Unit

variable {P : Type} [DecidableEq P]

def run : (a : Act) → P → Shared P → Option (Res a × Shared P)
  | .iget i, _, s =>
    some ((), { s with
      ref := update s.ref i (s.ref i + 1)
      valid := if s.ref i = 0 then update s.valid i false else s.valid })
  | .acquiresleep i, p, s =>
    if s.lock i = none then
      some ((), { s with
        lock := update s.lock i (some p)
        leaving := update s.leaving p none })
    else none
  | .releasesleep i keeps, p, s =>
    if s.lock i = some p then
      some ((), { s with
        lock := update s.lock i none
        leaving := update s.leaving p (if keeps then some i else none) })
    else none
  | .load i, _, s =>
    if s.valid i then some ((), s)
    -- `ilock: no type`
    else if (s.node i).kind = none then none
    else some ((), { s with valid := update s.valid i true })
  | .isValid i, _, s => some (s.valid i, s)
  | .peek i, _, s => some (s.node i, s)
  | .writei d off de, _, s =>
    some ((), { s with
      node := update s.node d { s.node d with ents := writeEntry (s.node d).ents off de } })
  | .iupdate i kind nlink, _, s =>
    some ((), { s with
      node := update s.node i { s.node i with kind := kind, nlink := nlink } })
  | .itrunc i, _, s => some ((), { s with node := update s.node i { s.node i with ents := [] } })
  | .ialloc _ kind, _, s =>
    match (List.range' 1 (NINODES - 1)).find? fun i => (s.node i).kind = none with
    | none => none
    | some i => some (i, { s with
        node := update s.node i { kind := some kind, nlink := 0, ents := [] }
        birth := update s.birth i (s.clock + 1)
        clock := s.clock + 1 })
  | .readRef i, _, s => some (s.ref i, s)
  | .invalidate i, _, s => some ((), { s with valid := update s.valid i false })
  | .dropRef i, _, s => some ((), { s with ref := update s.ref i (s.ref i - 1) })
  | .panic, _, _ => none

/-! ## fs.c -/

abbrev Fs := Prog Res

def act (a : Act) : Fs (Res a) := .perform a

def iget (i : Inum) : Fs Unit := act (.iget i)

def acquiresleep (i : Inum) : Fs Unit := act (.acquiresleep i)

def releasesleep (i : Inum) (keeps : Bool) : Fs Unit := act (.releasesleep i keeps)

def isValid (i : Inum) : Fs Bool := act (.isValid i)

def readRef (i : Inum) : Fs Nat := act (.readRef i)

def peek (i : Inum) : Fs Node := act (.peek i)

def writei (d : Inum) (off : Nat) (de : Dirent) : Fs Unit := act (.writei d off de)

def iupdate (i : Inum) (kind : Option Kind) (nlink : Int) : Fs Unit :=
  act (.iupdate i kind nlink)

def panic {α : Type} : Fs α := .act .panic Empty.elim

def ialloc (dp : Inum) (kind : Kind) : Fs Inum := do
  let i ← act (.ialloc dp kind)
  iget i
  return i

def ilock (i : Inum) : Fs Unit := do
  acquiresleep i
  act (.load i)

def iunlock (i : Inum) : Fs Unit := releasesleep i false

/-- `itrunc(ip)`, `ip->type = 0`, `iupdate(ip)` and `ip->valid = 0`. -/
def ifree (i : Inum) (nlink : Int) : Fs Unit := do
  act (.itrunc i)
  iupdate i none nlink
  act (.invalidate i)

/-- The inode is freed if it has no links and no other references. -/
def ifreeUnused (i : Inum) (valid : Bool) (nd : Node) : Fs Unit :=
  if valid ∧ nd.nlink = 0 then do
    let r ← readRef i
    if r = 1 then ifree i nd.nlink else return ()
  else return ()

def iput (i : Inum) : Fs Unit := do
  acquiresleep i
  let valid ← isValid i
  let nd ← peek i
  ifreeUnused i valid nd
  releasesleep i false
  act (.dropRef i)

def iunlockput (i : Inum) : Fs Unit := do
  iunlock i
  iput i

/-- `iunlockput(dp)` where the lock of another inode is still held. -/
def iunlockputKeeping (dp : Inum) : Fs Unit := do
  releasesleep dp true
  iput dp

/-- Look for a directory entry in a directory; the inode found and the position of the entry. -/
def dirlookup (dp : Inum) (name : Name) : Fs (Option (Inum × Nat)) := do
  let nd ← peek dp
  if nd.kind ≠ some .dir then panic
  else
    match findEntry name nd.ents with
    | none => return none
    | some (i, off) =>
      iget i
      return some (i, off)

/-- Write a new directory entry; false if the name is present. -/
def dirlink (dp : Inum) (name : Name) (i : Inum) : Fs Bool := do
  match ← dirlookup dp name with
  | some (found, _) =>
    iput found
    return false
  | none =>
    let nd ← peek dp
    writei dp (freeEntry nd.ents) (some (name, i))
    return true

/-- The loop of `namex`; every element is at least one byte, so `fuel` of more than the length of the
path does not run out.  `name` is the element copied last. -/
def namexLoop (nameiparent : Bool) : (fuel : Nat) → (path name : List UInt8) → (ip : Inum) → Fs (Option (Inum × Name))
  | 0, _, _, ip => do
      iput ip
      return none
  | fuel + 1, path, name, ip => do
      match skipelem path with
      | none =>
        if nameiparent then
          iput ip
          return none
        else return some (ip, name)
      | some (name, path) =>
        ilock ip
        let nd ← peek ip
        if nd.kind ≠ some .dir then
          iunlockput ip
          return none
        else if nameiparent ∧ path = [] then
          -- stop one level early
          iunlock ip
          return some (ip, name)
        else
          match ← dirlookup ip name with
          | none =>
            iunlockput ip
            return none
          | some (next, _) =>
            iunlockput ip
            namexLoop nameiparent fuel path name next

/-- Look up the inode for a path name, or its parent and the last element.  The walk starts with an
`iget` of the root or with an `idup` of the current directory. -/
def namex (cwd : Inum) (path : List UInt8) (nameiparent : Bool) : Fs (Option (Inum × Name)) := do
  let ip := if path.head? = some slash then rootino else cwd
  iget ip
  namexLoop nameiparent (path.length + 1) path [] ip

def namei (cwd : Inum) (path : List UInt8) : Fs (Option Inum) := do
  return (← namex cwd path false).map Prod.fst

def nameiparent (cwd : Inum) (path : List UInt8) : Fs (Option (Inum × Name)) :=
  namex cwd path true

/-! ## sysfile.c, file.c, exec.c -/

/-- What a call leaves to the process: nothing new, an open file, another current directory, one open
file less, or nothing at all. -/
inductive Outcome where
  | done
  | opened (ip : Inum)
  | moved (ip : Inum)
  | closed (fd : Nat)
  | exited
  deriving Repr, DecidableEq

/-- Create the path `new` as a link to the same inode as `old`. -/
def sysLink (cwd : Inum) (old new : List UInt8) : Fs Outcome := do
  match ← namei cwd old with
  | none => return .done
  | some ip =>
    ilock ip
    let nd ← peek ip
    if nd.kind = some .dir then
      iunlockput ip
      return .done
    else
      iupdate ip nd.kind (nd.nlink + 1)
      iunlock ip
      match ← nameiparent cwd new with
      | none => bad ip
      | some (dp, name) =>
        ilock dp
        if ← dirlink dp name ip then
          iunlockput dp
          iput ip
          return .done
        else
          iunlockput dp
          bad ip
where
  bad (ip : Inum) : Fs Outcome := do
    ilock ip
    let nd ← peek ip
    iupdate ip nd.kind (nd.nlink - 1)
    iunlockput ip
    return .done

def sysUnlink (cwd : Inum) (path : List UInt8) : Fs Outcome := do
  match ← nameiparent cwd path with
  | none => return .done
  | some (dp, name) =>
    ilock dp
    -- cannot unlink `.` or `..`
    if name = dot ∨ name = dotdot then bad dp
    else
      match ← dirlookup dp name with
      | none => bad dp
      | some (ip, off) =>
        ilock ip
        let nd ← peek ip
        if nd.nlink < 1 then panic
        else if nd.kind = some .dir ∧ ¬ isdirempty nd.ents then
          iunlockput ip
          bad dp
        else remove dp ip off nd
where
  bad (dp : Inum) : Fs Outcome := do
    iunlockput dp
    return .done
  /-- From `memset(&de, 0, sizeof(de))` on. -/
  remove (dp ip : Inum) (off : Nat) (nd : Node) : Fs Outcome := do
    writei dp off none
    unlinkParent dp nd
    iunlockputKeeping dp
    iupdate ip nd.kind (nd.nlink - 1)
    iunlockput ip
    return .done
  /-- A subdirectory no longer counts as a link to its parent. -/
  unlinkParent (dp : Inum) (nd : Node) : Fs Unit :=
    if nd.kind = some .dir then do
      let dnd ← peek dp
      iupdate dp dnd.kind (dnd.nlink - 1)
    else return ()

/-- The entries `.` and `..` of a new directory, which counts as a link to its parent. -/
def createDots (kind : Kind) (dp ip : Inum) : Fs Unit :=
  if kind = .dir then do
    let dnd ← peek dp
    iupdate dp dnd.kind (dnd.nlink + 1)
    if ← dirlink ip dot ip then
      if ← dirlink ip dotdot dp then return ()
      else panic
    else panic
  else return ()

/-- The part of `create` for a name that is not in the directory yet. -/
def createNew (dp : Inum) (name : Name) (kind : Kind) : Fs (Option Inum) := do
  let ip ← ialloc dp kind
  ilock ip
  iupdate ip (some kind) 1
  createDots kind dp ip
  if ← dirlink dp name ip then
    iunlockputKeeping dp
    return some ip
  else panic

def create (cwd : Inum) (path : List UInt8) (kind : Kind) : Fs (Option Inum) := do
  match ← nameiparent cwd path with
  | none => return none
  | some (dp, name) =>
    ilock dp
    match ← dirlookup dp name with
    | some (ip, _) =>
      iunlockput dp
      ilock ip
      let nd ← peek ip
      if kind = .file ∧ nd.kind = some .file then return some ip
      else
        iunlockput ip
        return none
    | none => createNew dp name kind

/-- `sys_open`; `fdOk` tells whether `filealloc` and `fdalloc` succeed. -/
def sysOpen (cwd : Inum) (path : List UInt8) (omode : UInt32) (fdOk : Bool) : Fs Outcome := do
  if omode &&& O_CREATE ≠ 0 then
    match ← create cwd path .file with
    | none => return .done
    | some ip => finish ip
  else
    match ← namei cwd path with
    | none => return .done
    | some ip =>
      ilock ip
      let nd ← peek ip
      if nd.kind = some .dir ∧ omode ≠ O_RDONLY then
        iunlockput ip
        return .done
      else finish ip
where
  finish (ip : Inum) : Fs Outcome := do
    if fdOk then
      iunlock ip
      return .opened ip
    else
      iunlockput ip
      return .done

/-- `sys_mkdir` and `sys_mknod`, which differ in what they create. -/
def createAndPut (cwd : Inum) (path : List UInt8) (kind : Kind) : Fs Outcome := do
  match ← create cwd path kind with
  | none => return .done
  | some ip =>
    iunlockput ip
    return .done

def sysMkdir (cwd : Inum) (path : List UInt8) : Fs Outcome := createAndPut cwd path .dir

def sysMknod (cwd : Inum) (path : List UInt8) : Fs Outcome := createAndPut cwd path .dev

def sysChdir (cwd : Inum) (path : List UInt8) : Fs Outcome := do
  match ← namei cwd path with
  | none => return .done
  | some ip =>
    ilock ip
    let nd ← peek ip
    if nd.kind ≠ some .dir then
      iunlockput ip
      return .done
    else
      iunlock ip
      iput cwd
      return .moved ip

/-- `exec`, as far as inodes are concerned: it reads the file and keeps no reference. -/
def exec (cwd : Inum) (path : List UInt8) : Fs Outcome := do
  match ← namei cwd path with
  | none => return .done
  | some ip =>
    ilock ip
    let _ ← peek ip
    iunlockput ip
    return .done

/-- `fileread`, and each round of `filewrite`: the contents of a file that is not a directory are not
part of the model. -/
def access (ip : Inum) : Fs Outcome := do
  ilock ip
  let _ ← peek ip
  iunlock ip
  return .done

def fileclose (fd : Nat) (ip : Inum) : Fs Outcome := do
  iput ip
  return .closed fd

/-- `iput` one inode after the other. -/
def iputAll : List Inum → Fs Unit
  | [] => return ()
  | ip :: ips => do
      iput ip
      iputAll ips

/-- `exit`: close all open files, then leave the current directory. -/
def exit (cwd : Inum) (files : List Inum) : Fs Outcome := do
  iputAll files
  iput cwd
  return .exited

/-! ## Processes -/

/-- What a process has between calls: its current directory, none after `exit`, and its open files. -/
structure Home where
  cwd : Option Inum
  files : List Inum
  deriving Repr, DecidableEq

inductive Call where
  | open (path : List UInt8) (omode : UInt32) (fdOk : Bool)
  | mkdir (path : List UInt8)
  | mknod (path : List UInt8)
  | link (old new : List UInt8)
  | unlink (path : List UInt8)
  | chdir (path : List UInt8)
  | exec (path : List UInt8)
  | read (fd : Nat)
  | write (fd : Nat)
  | close (fd : Nat)
  | exit
  deriving Repr, DecidableEq

/-- The program of a call; there is none for a file that is not open or after `exit`. -/
def body (h : Home) (c : Call) : Option (Fs Outcome) := do
  let cwd ← h.cwd
  match c with
  | .open path omode fdOk => some (sysOpen cwd path omode fdOk)
  | .mkdir path => some (sysMkdir cwd path)
  | .mknod path => some (sysMknod cwd path)
  | .link old new => some (sysLink cwd old new)
  | .unlink path => some (sysUnlink cwd path)
  | .chdir path => some (sysChdir cwd path)
  | .exec path => some (exec cwd path)
  | .read fd => h.files[fd]?.map access
  | .write fd => h.files[fd]?.map access
  | .close fd => h.files[fd]?.map (fileclose fd)
  | .exit => some (exit cwd h.files)

def finish (h : Home) : Outcome → Home
  | .done => h
  | .opened ip => { h with files := ip :: h.files }
  | .moved ip => { h with cwd := some ip }
  | .closed fd => { h with files := h.files.eraseIdx fd }
  | .exited => { cwd := none, files := [] }

/-- The calls of the file system, for processes `P`. -/
def calls (P : Type) [DecidableEq P] : Kit P Act (Shared P) Home Call Outcome Res where
  run := run
  body := body
  finish := finish

abbrev State (P : Type) := Config P (Shared P) Home Outcome Res

/-! ## The image of mkfs -/

/-- Names that are neither `.` nor `..`. -/
def Proper (n : Name) : Prop := n ≠ dot ∧ n ≠ dotdot

instance (n : Name) : Decidable (Proper n) := instDecidableAnd

/-- The files given to `mkfs`. -/
structure Image where
  files : List { n : Name // Proper n }
  fits : files.length + 2 ≤ NINODES

/-- The entries of the root directory, which fills its blocks. -/
def Image.root (m : Image) : List Dirent :=
  let used := some (dot, rootino) :: some (dotdot, rootino) :: m.files.zipIdx.map fun ni => some (ni.1.1, ni.2 + 2)
  used ++ List.replicate ((used.length / 32 + 1) * 32 - used.length) none

/-- The inodes that `mkfs` makes. -/
def Image.node (m : Image) (i : Inum) : Node :=
  if i = rootino then { kind := some .dir, nlink := 1, ents := m.root }
  else if 2 ≤ i ∧ i < m.files.length + 2 then { kind := some .file, nlink := 1, ents := [] }
  else { kind := none, nlink := 0, ents := [] }

/-- The machine after booting from the image, with the processes of `A` in the root directory. -/
def boot (m : Image) (A : Finset P) : State P where
  shared := {
    node := m.node
    ref := update (fun _ => 0) rootino A.card
    valid := fun _ => false
    lock := fun _ => none
    leaving := fun _ => none
    birth := fun _ => 0
    clock := 0 }
  home := fun p => { cwd := if p ∈ A then some rootino else none, files := [] }
  prog := fun _ => none

def Step (c c' : State P) : Prop := ∃ e, (calls P).step c e = some c'

end AsoPracticas.Xv6.Naming
