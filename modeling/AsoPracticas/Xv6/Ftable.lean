import AsoPracticas.Lib.Concurrent
import AsoPracticas.Xv6.Fs

/-!
# Ftable — the file table and the tables of open files

The calls that make and drop references to entries of `ftable`, as programs of atomic actions for any
number of processes.  An action is a section under `ftable.lock`, `ptable.lock` or the lock of a pipe, or
an access to what belongs to one process alone: its own `ofile`, the `ofile` of the child that `fork`
builds, a file that has just been allocated.  What other parts of the kernel answer is an argument of the
call: whether `open` finds an inode, whether there is memory, and for a `write` the kernel in which each `writei`
of `fs.c` is run.  Inodes are left to the file system; the bytes of a pipe play no role here.
-/

namespace AsoPracticas.Xv6.Ftable

open Lib

def NFILE : Nat := 100
def NOFILE : Nat := 16

/-! ## State -/

inductive FileType where
  | none
  | pipe
  | inode
  deriving Repr, DecidableEq

/-- An entry of `ftable`, by its index. -/
abbrev FileId := Fin NFILE

abbrev PipeId := Nat

structure File where
  type : FileType
  ref : Nat
  readable : Bool
  writable : Bool
  pipe : PipeId
  deriving Repr, DecidableEq

structure Pipe where
  readopen : Bool
  writeopen : Bool
  deriving Repr, DecidableEq

/-- `live` stands for all states between `EMBRYO` and `ZOMBIE`. -/
inductive ProcState where
  | unused
  | embryo
  | live
  | zombie
  deriving Repr, DecidableEq

abbrev Table := Fin NOFILE → Option FileId

/-- `pipe q` is none if no pipe is in page `q`. -/
structure Shared (P : Type) where
  file : FileId → File
  pipe : PipeId → Option Pipe
  ofile : P → Table
  state : P → ProcState

/-! ## Actions -/

inductive Act (P : Type) where
  /-- A call of a process that runs, which looks at its `ofile`. -/
  | enter
  | leave
  | setOfile (fd : Fin NOFILE) (f : Option FileId)
  | filealloc
  | filedup (f : FileId)
  /-- The section of `fileclose`. -/
  | fileclose (f : FileId)
  | readFile (f : FileId)
  | setInode (f : FileId) (readable writable : Bool)
  /-- A page for a pipe, with both ends open. -/
  | kalloc (q : PipeId)
  | setPipe (f : FileId) (q : PipeId) (writable : Bool)
  | pipeclose (q : PipeId) (writable : Bool)
  | allocproc (np : P)
  /-- `np->state = UNUSED` after a failure of `fork`. -/
  | freeproc (np : P)
  | setChild (np : P) (fd : Fin NOFILE) (f : FileId)
  | start (np : P)
  | zombie
  /-- `wait` for a process that has exited. -/
  | reap (q : P)
  | panic (msg : String)
  deriving DecidableEq

/-- What the section of `fileclose` finds: no reference, others left, or the entry that it clears. -/
inductive Closed where
  | bad
  | kept
  | last (ff : File)
  deriving Repr, DecidableEq

def Res {P : Type} : Act P → Type
  | .enter => Table
  | .filealloc => Option FileId
  | .filedup _ => Bool
  | .fileclose _ => Closed
  | .readFile _ => File
  | .panic _ => Empty
  | _ => Unit

variable {P : Type} [DecidableEq P]

namespace Shared

def setFile (s : Shared P) (f : FileId) (x : File) : Shared P :=
  { s with file := Function.update s.file f x }

def setState (s : Shared P) (p : P) (x : ProcState) : Shared P :=
  { s with state := Function.update s.state p x }

def setTable (s : Shared P) (p : P) (t : Table) : Shared P :=
  { s with ofile := Function.update s.ofile p t }

def setPage (s : Shared P) (q : PipeId) (x : Option Pipe) : Shared P :=
  { s with pipe := Function.update s.pipe q x }

end Shared

/-- `pipeclose`: the page is freed with its second end. -/
def Pipe.close (x : Pipe) (writable : Bool) : Option Pipe :=
  let x := if writable then { x with writeopen := false } else { x with readopen := false }
  if x.readopen = false ∧ x.writeopen = false then none else some x

def run : (a : Act P) → P → Shared P → Option (Res a × Shared P)
  | .enter, p, s => if s.state p = .live then some (s.ofile p, s) else none
  | .leave, _, s => some ((), s)
  | .setOfile fd f, p, s => some ((), s.setTable p (Function.update (s.ofile p) fd f))
  | .filealloc, _, s =>
    match (List.finRange NFILE).find? fun f => (s.file f).ref = 0 with
    | none => some (none, s)
    | some f => some (some f, s.setFile f { s.file f with ref := 1 })
  | .filedup f, _, s =>
    if (s.file f).ref < 1 then some (false, s)
    else some (true, s.setFile f { s.file f with ref := (s.file f).ref + 1 })
  | .fileclose f, _, s =>
    if (s.file f).ref < 1 then some (.bad, s)
    else if (s.file f).ref - 1 > 0 then
      some (.kept, s.setFile f { s.file f with ref := (s.file f).ref - 1 })
    else some (.last (s.file f), s.setFile f { s.file f with ref := 0, type := .none })
  | .readFile f, _, s => some (s.file f, s)
  | .setInode f readable writable, _, s =>
    some ((), s.setFile f { s.file f with type := .inode, readable := readable, writable := writable })
  | .kalloc q, _, s =>
    if s.pipe q = none then some ((), s.setPage q (some { readopen := true, writeopen := true }))
    else none
  | .setPipe f q writable, _, s =>
    some ((), s.setFile f { s.file f with
      type := .pipe, readable := !writable, writable := writable, pipe := q })
  | .pipeclose q writable, _, s => some ((), s.setPage q ((s.pipe q).bind fun x => x.close writable))
  | .allocproc np, _, s => if s.state np = .unused then some ((), s.setState np .embryo) else none
  | .freeproc np, _, s => some ((), s.setState np .unused)
  | .setChild np fd f, _, s => some ((), s.setTable np (Function.update (s.ofile np) fd (some f)))
  | .start np, _, s => some ((), s.setState np .live)
  | .zombie, p, s => some ((), s.setState p .zombie)
  | .reap q, _, s => if s.state q = .zombie then some ((), s.setState q .unused) else none
  | .panic _, _, _ => none

/-! ## file.c and pipe.c -/

abbrev Ft (P : Type) := Prog (A := Act P) Res

def act (a : Act P) : Ft P (Res a) := .perform a

def panic {α : Type} (msg : String) : Ft P α := .act (.panic msg) Empty.elim

def filealloc : Ft P (Option FileId) := act .filealloc

def filedup (f : FileId) : Ft P Unit := do
  let counted : Bool ← act (.filedup f)
  if counted then return () else panic "filedup"

/-- Close file f.  (Decrement ref count, close when reaches 0.) -/
def fileclose (f : FileId) : Ft P Unit := do
  let closed : Closed ← act (.fileclose f)
  match closed with
  | .bad => panic "fileclose"
  | .kept => return ()
  | .last ff => if ff.type = .pipe then act (.pipeclose ff.pipe ff.writable) else return ()

def fileread (f : FileId) : Ft P Unit := do
  let ff : File ← act (.readFile f)
  if ff.readable = false then return ()
  else if ff.type = .pipe then return ()
  else if ff.type = .inode then return ()
  else panic "fileread"

def CONSOLE : UInt16 := 1

/-- What `consolewrite` prints, and what it returns. -/
def consolewrite (buf : List UInt8) (n : Int) : List UInt8 × Int := (buf.take n.toNat, n)

/-- `devsw` after `consoleinit`, for a write from `buf`: there is no other driver. -/
def consoleinit (buf : List UInt8) (devsw : Devsw) : Devsw :=
  { devsw with
    write := fun major =>
      if major = CONSOLE then some fun n => (consolewrite buf n.toInt32.toInt).2 else none }

/-- What the calls of `writei` find in the rounds of a `filewrite`. -/
structure Writei where
  kernel : (round : Nat) → Kernel
  ip : InodePtr
  src : (round : Nat) → List UInt8
  off : (round : Nat) → UInt32

/-- What the `writei` of a round returns, `none` if the kernel stops in it. -/
def Writei.result (w : Writei) (round n : Nat) : Option Int :=
  match writei w.ip (w.src round) (w.off round) (UInt32.ofNat n)
      { w.kernel round with devsw := consoleinit (w.src round) (w.kernel round).devsw } with
  | .ok (r, _) => some r
  | .error _ => none

/-- `((MAXOPBLOCKS-1-1-2) / 2) * 512` -/
def maxWrite : Nat := 1536

/-- A process whose kernel has stopped is taken to leave the loop, which adds runs and takes none away. -/
def filewriteLoop (w : Writei) (n : Nat) : (fuel k i : Nat) → Ft P Unit
  | 0, _, _ => return ()
  | fuel + 1, k, i =>
    if i < n then
      let n1 := min (n - i) maxWrite
      match w.result k n1 with
      | none => return ()
      | some r =>
        if r < 0 then return ()
        else if r ≠ n1 then panic "short filewrite"
        else filewriteLoop w n fuel (k + 1) (i + n1)
    else return ()

/-- Write to file f; every round but the last writes at least one byte. -/
def filewrite (f : FileId) (w : Writei) (n : Nat) : Ft P Unit := do
  let ff : File ← act (.readFile f)
  if ff.writable = false then return ()
  else if ff.type = .pipe then return ()
  else if ff.type = .inode then filewriteLoop w n n 0 0
  else panic "filewrite"

/-- `if(f) fileclose(f);` -/
def filecloseIf : Option FileId → Ft P Unit
  | none => return ()
  | some f => fileclose f

/-- The files that `pipealloc` has when it goes to `bad`. -/
def pipeallocBad (f0 f1 : Option FileId) : Ft P (Option (FileId × FileId)) := do
  filecloseIf f0
  filecloseIf f1
  return none

/-- The two files of a new pipe; `page` is what `kalloc` returns. -/
def pipealloc (page : Option PipeId) : Ft P (Option (FileId × FileId)) := do
  match ← filealloc with
  | none => pipeallocBad none none
  | some f0 =>
    match ← filealloc with
    | none => pipeallocBad (some f0) none
    | some f1 =>
      match page with
      | none => pipeallocBad (some f0) (some f1)
      | some q =>
        act (.kalloc q)
        act (.setPipe f0 q false)
        act (.setPipe f1 q true)
        return some (f0, f1)

/-! ## sysfile.c and proc.c -/

def argfd (ofile : Table) (fd : Int) : Option (Fin NOFILE × FileId) :=
  if h : 0 ≤ fd ∧ fd < NOFILE then
    (ofile ⟨fd.toNat, by omega⟩).map fun f => (⟨fd.toNat, by omega⟩, f)
  else none

/-- The descriptor that `fdalloc` takes. -/
def fdalloc (ofile : Table) : Option (Fin NOFILE) :=
  (List.finRange NOFILE).find? fun fd => ofile fd = none

def syscall (body : Table → Ft P Unit) : Ft P Unit := do
  let ofile : Table ← act .enter
  body ofile
  act .leave

def sysDup (fd : Int) (ofile : Table) : Ft P Unit :=
  match argfd ofile fd with
  | none => return ()
  | some (_, f) =>
    match fdalloc ofile with
    | none => return ()
    | some fd => do
        act (.setOfile fd (some f))
        filedup f

def sysRead (fd : Int) (ofile : Table) : Ft P Unit :=
  match argfd ofile fd with
  | none => return ()
  | some (_, f) => fileread f

def sysWrite (fd : Int) (w : Writei) (n : Nat) (ofile : Table) : Ft P Unit :=
  match argfd ofile fd with
  | none => return ()
  | some (_, f) => filewrite f w n

def sysClose (fd : Int) (ofile : Table) : Ft P Unit :=
  match argfd ofile fd with
  | none => return ()
  | some (fd, f) => do
      act (.setOfile fd none)
      fileclose f

/-- `found` says whether `create` or `namei` has found an inode that can be opened. -/
def sysOpen (found : Bool) (omode : UInt32) (ofile : Table) : Ft P Unit := do
  if found = false then return ()
  else
    match ← filealloc with
    | none => return ()
    | some f =>
      match fdalloc ofile with
      | none => fileclose f
      | some fd => do
          act (.setOfile fd (some f))
          act (.setInode f (omode &&& O_WRONLY = 0) (omode &&& O_WRONLY ≠ 0 ∨ omode &&& O_RDWR ≠ 0))

def sysPipe (page : Option PipeId) (ofile : Table) : Ft P Unit := do
  match ← pipealloc page with
  | none => return ()
  | some (rf, wf) =>
    match fdalloc ofile with
    | none =>
      fileclose rf
      fileclose wf
    | some fd0 => do
        act (.setOfile fd0 (some rf))
        match fdalloc (Function.update ofile fd0 (some rf)) with
        | none =>
          act (.setOfile fd0 none)
          fileclose rf
          fileclose wf
        | some fd1 => act (.setOfile fd1 (some wf))

/-- `if(curproc->ofile[i]) np->ofile[i] = filedup(curproc->ofile[i]);` -/
def forkFile (np : P) (fd : Fin NOFILE) : Option FileId → Ft P Unit
  | none => return ()
  | some f => do
      filedup f
      act (.setChild np fd f)

def forkFiles (np : P) (ofile : Table) : List (Fin NOFILE) → Ft P Unit
  | [] => return ()
  | fd :: fds => do
      forkFile np fd (ofile fd)
      forkFiles np ofile fds

/-- `np` is the entry that `allocproc` takes, if there is one, and `mem` whether there is memory. -/
def fork (np : Option P) (mem : Bool) (ofile : Table) : Ft P Unit :=
  match np with
  | none => return ()
  | some np => do
      act (.allocproc np)
      if mem = false then act (.freeproc np)
      else
        forkFiles np ofile (List.finRange NOFILE)
        act (.start np)

def exitFile (fd : Fin NOFILE) : Option FileId → Ft P Unit
  | none => return ()
  | some f => do
      fileclose f
      act (.setOfile fd none)

def exitFiles (ofile : Table) : List (Fin NOFILE) → Ft P Unit
  | [] => return ()
  | fd :: fds => do
      exitFile fd (ofile fd)
      exitFiles ofile fds

def exit : Ft P Unit := do
  let ofile : Table ← act .enter
  exitFiles ofile (List.finRange NOFILE)
  act .zombie

inductive Call (P : Type) where
  | dup (fd : Int)
  | read (fd : Int)
  | write (fd : Int) (w : Writei) (n : Nat)
  | close (fd : Int)
  | openFile (found : Bool) (omode : UInt32)
  | pipe (page : Option PipeId)
  | fork (np : Option P) (mem : Bool)
  | exit
  | wait (q : P)

def body : Call P → Ft P Unit
  | .dup fd => syscall (sysDup fd)
  | .read fd => syscall (sysRead fd)
  | .write fd w n => syscall (sysWrite fd w n)
  | .close fd => syscall (sysClose fd)
  | .openFile found omode => syscall (sysOpen found omode)
  | .pipe page => syscall (sysPipe page)
  | .fork np mem => syscall (fork np mem)
  | .exit => exit
  | .wait q => syscall fun _ => act (.reap q)

/-- Processes keep nothing between calls but what is in the tables. -/
def kit : Kit P (Act P) (Shared P) Unit (Call P) Unit Res where
  run := run
  body := fun _ c => some (body c)
  finish := fun _ _ => ()

def boot (first : P) : Config P (Shared P) Unit Unit (Res (P := P)) where
  shared :=
    { file := fun _ => { type := .none, ref := 0, readable := false, writable := false, pipe := 0 }
      pipe := fun _ => none
      ofile := fun _ _ => none
      state := fun p => if p = first then .live else .unused }
  home := fun _ => ()
  prog := fun _ => none

end AsoPracticas.Xv6.Ftable
