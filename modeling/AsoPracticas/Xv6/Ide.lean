import AsoPracticas.Lib.Chain
import AsoPracticas.Lib.Transition
import AsoPracticas.Xv6.Bcache
import Mathlib.Data.Fintype.Card

/-!
# Ide — the disk driver and its stand-in in memory

`idestart`, `ideintr` and `iderw` of `ide.c` with the drive behind them, and the `iderw` of `memide.c`.  A step is a
section under `idelock`, what the drive does, or what a process does to a buffer of which it has the sleep-lock.

* `Serves` — the driver has done what `memide.c` does for the calls that are finished, and the other calls are in
  `idequeue`;
* `ide_refines` — every run keeps to that.
-/

namespace AsoPracticas.Xv6.Ide

open Lib Bcache
open Function (update update_of_ne update_self)
open Option (bind_some ite_none_right_eq_some map_eq_some_iff)

/-! ## The drive -/

def SECTOR_SIZE : Nat := 512

def sectorPerBlock : Nat := BSIZE / SECTOR_SIZE

/-- The bytes that `idestart` writes to the ports `0x1f2` to `0x1f6`. -/
structure TaskFile where
  count : Nat
  low : Nat
  mid : Nat
  high : Nat
  device : Nat

def taskFile (dev blockno : Nat) : TaskFile :=
  let sector := blockno * sectorPerBlock
  { count := sectorPerBlock
    low := sector &&& 0xff
    mid := (sector >>> 8) &&& 0xff
    high := (sector >>> 16) &&& 0xff
    device := 0xe0 ||| ((dev &&& 1) <<< 4) ||| ((sector >>> 24) &&& 0x0f) }

def TaskFile.key (t : TaskFile) : Nat × Nat :=
  (t.device / 2 ^ 4 % 2, t.low + t.mid * 2 ^ 8 + t.high * 2 ^ 16 + t.device % 2 ^ 4 * 2 ^ 24)

variable {B P D : Type}

/-- `IDE_CMD_READ` and `IDE_CMD_WRITE`, since a block is one sector.  The data of a write come with `outsl`. -/
inductive Command (D : Type) where
  | read (t : TaskFile)
  | write (t : TaskFile) (d : D)

/-- The drives, with the command that is being carried out, the sector that `insl` reads and whether there is an
interrupt that has not been taken. -/
structure Drive (D : Type) where
  disk : Nat × Nat → D
  command : Option (Command D)
  data : D
  irq : Bool

/-- The command is carried out, and the drive asks for an interrupt. -/
def Drive.complete (v : Drive D) : Option (Drive D) :=
  v.command.map fun c =>
    match c with
    | .read t => { v with command := none, irq := true, data := v.disk t.key }
    | .write t d => { v with command := none, irq := true, disk := update v.disk t.key d }

/-! ## The driver -/

/-- Where a process is: outside of `iderw`, asleep in it on a buffer, or woken up from that. -/
inductive Pc (B : Type) where
  | idle
  | asleep (b : B)
  | ready (b : B)
  deriving DecidableEq

/-- `idequeue`, with the `qnext` of the buffers, is `queue`.  The last field is a history: the buffers for which
requests have been finished. -/
structure State (B P D : Type) where
  buf : B → Buffer P D
  queue : Chain B
  havedisk1 : Bool
  drive : Drive D
  thread : P → Pc B
  finished : List B

/-- What processes do to the buffers outside of the driver: `acquiresleep`, `releasesleep`, and changes by the process
that has the sleep-lock, to the flags, the block number or the data. -/
inductive Action (B P D : Type) where
  | acquiresleep (p : P) (b : B)
  | releasesleep (p : P) (b : B)
  | change (p : P) (b : B) (e : Buffer P D)

def Action.who : Action B P D → P
  | .acquiresleep p _ => p
  | .releasesleep p _ => p
  | .change p _ _ => p

def Action.on : Action B P D → B
  | .acquiresleep _ b => b
  | .releasesleep _ b => b
  | .change _ b _ => b

inductive Event (B P D : Type) where
  | act (a : Action B P D)
  /-- `iderw` up to its first `sleep`. -/
  | iderw (p : P) (b : B)
  /-- A process that was woken up goes on in the loop of `iderw`. -/
  | resume (p : P)
  /-- The drive is done with its command. -/
  | complete
  /-- The interrupt, and with it `ideintr`. -/
  | interrupt

def request (e : Buffer P D) : Command D :=
  if e.dirty then .write (taskFile e.dev e.blockno) e.data else .read (taskFile e.dev e.blockno)

/-- `idewait` comes to an end when the drive has no command. -/
def idestart (s : State B P D) (b : B) : Option (State B P D) :=
  if (s.buf b).blockno < FSSIZE ∧ s.drive.command.isNone then
    some { s with drive := { s.drive with command := some (request (s.buf b)) } }
  else none

section Step

variable [DecidableEq B]

def wakeup (b : B) : Pc B → Pc B
  | .asleep c => if c = b then .ready b else .asleep c
  | pc => pc

/-- The loop at the end of `iderw`: the call returns or sleeps on the buffer. -/
def iderwLoop (e : Buffer P D) (b : B) : Pc B := if e.Done then .idle else .asleep b

/-- What `ideintr` does to the buffer of the request, where `d` is what `insl` reads. -/
def transferred (e : Buffer P D) (d : D) : Buffer P D :=
  { (if e.dirty then e else e.setData d) with valid := true, dirty := false }

def ideintr (s : State B P D) : Option (State B P D) :=
  match s.queue.head with
  | none => some s
  | some b =>
    if (s.buf b).dirty ∨ s.drive.command.isNone then
      let s := { s with
        queue := s.queue.pop
        buf := update s.buf b (transferred (s.buf b) s.drive.data)
        thread := wakeup b ∘ s.thread
        finished := s.finished ++ [b] }
      match s.queue.head with
      | none => some s
      | some c => idestart s c
    else none

variable [DecidableEq P]

def Action.apply (buf : B → Buffer P D) : Action B P D → Option (B → Buffer P D)
  | .acquiresleep p b =>
    if (buf b).lock = none then some (update buf b ((buf b).setLock (some p))) else none
  | .releasesleep p b =>
    if (buf b).lock = some p then some (update buf b ((buf b).setLock none)) else none
  | .change p b e => if (buf b).lock = some p then some (update buf b (e.setLock (some p))) else none

/-- The panics of `iderw` do not happen. -/
def State.Accepts (s : State B P D) (p : P) (b : B) : Prop :=
  (s.buf b).lock = some p ∧ ¬ (s.buf b).Done ∧ ((s.buf b).dev = 0 ∨ s.havedisk1 = true)

instance (s : State B P D) (p : P) (b : B) : Decidable (s.Accepts p b) := instDecidableAnd

variable [Fintype B]

def iderw (s : State B P D) (p : P) (b : B) : Option (State B P D) :=
  if s.Accepts p b then
    (s.queue.push (Fintype.card B + 1) b).bind fun queue =>
      let s := { s with queue := queue }
      (if queue.head = some b then idestart s b else some s).map fun s =>
        { s with thread := update s.thread p (iderwLoop (s.buf b) b) }
  else none

/-- What an event does, `none` if it cannot happen.  A `panic` stops the machine. -/
def step (s : State B P D) : Event B P D → Option (State B P D)
  | .act a => if s.thread a.who = .idle then (a.apply s.buf).map fun buf => { s with buf := buf } else none
  | .iderw p b => if s.thread p = .idle then iderw s p b else none
  | .resume p =>
    match s.thread p with
    | .ready b => some { s with thread := update s.thread p (iderwLoop (s.buf b) b) }
    | _ => none
  | .complete => s.drive.complete.map fun v => { s with drive := v }
  | .interrupt =>
    -- one interrupt for each command
    if s.drive.irq then ideintr { s with drive := { s.drive with irq := false } } else none

end Step

/-- After `ideinit`, with the buffers and the disks as they are; `d` is what `insl` would read. -/
def boot (buf : B → Buffer P D) (havedisk1 : Bool) (disk : Nat × Nat → D) (d : D) : State B P D where
  buf := buf
  queue := ⟨none, fun _ => none⟩
  havedisk1 := havedisk1
  drive := { disk := disk, command := none, data := d, irq := false }
  thread := fun _ => .idle
  finished := []

/-- All the buffers that are given to `iderw` are for the disk of the file system. -/
def Rooted (s : State B P D) : Event B P D → Prop
  | .iderw _ b => (s.buf b).dev = ROOTDEV
  | _ => True

/-- `Rooted`, to be computed. -/
def rooted (s : State B P D) : Event B P D → Bool
  | .iderw _ b => (s.buf b).dev = ROOTDEV
  | _ => true

theorem rooted_of_check (s : State B P D) (e : Event B P D) (h : rooted s e = true) : Rooted s e := by
  cases e with
  | iderw p b =>
    have hdev : (s.buf b).dev = ROOTDEV := of_decide_eq_true h
    exact hdev
  | _ => trivial

/-! ## The driver in memory -/

namespace Memide

structure State (B P D : Type) where
  buf : B → Buffer P D
  memdisk : Nat → D

inductive Event (B P D : Type) where
  | act (a : Action B P D)
  | iderw (p : P) (b : B)

variable [DecidableEq B] [DecidableEq P]

/-- The panics of `iderw` do not happen; the image has `FSSIZE` blocks. -/
def State.Accepts (r : State B P D) (p : P) (b : B) : Prop :=
  (r.buf b).lock = some p ∧ ¬ (r.buf b).Done ∧ (r.buf b).dev = 1 ∧ (r.buf b).blockno < FSSIZE

instance (r : State B P D) (p : P) (b : B) : Decidable (r.Accepts p b) := instDecidableAnd

def iderw (r : State B P D) (p : P) (b : B) : Option (State B P D) :=
  if r.Accepts p b then
    let e := r.buf b
    if e.dirty then
      some {
        buf := update r.buf b { e with dirty := false, valid := true }
        memdisk := update r.memdisk e.blockno e.data }
    else
      some { r with buf := update r.buf b { e with data := r.memdisk e.blockno, valid := true } }
  else none

def step (r : State B P D) : Event B P D → Option (State B P D)
  | .act a => (a.apply r.buf).map fun buf => { r with buf := buf }
  | .iderw p b => iderw r p b

end Memide

/-! ## Histories -/

def Event.call : Event B P D → Option (P × B)
  | .iderw p b => some (p, b)
  | _ => none

def Event.action : Event B P D → Option (Action B P D)
  | .act a => some a
  | _ => none

def Memide.Event.call : Memide.Event B P D → Option (P × B)
  | .iderw p b => some (p, b)
  | .act _ => none

def Memide.Event.action : Memide.Event B P D → Option (Action B P D)
  | .act a => some a
  | .iderw _ _ => none

/-- How far the drive is with the first of the requests, and what that says about its disk, where `m` has the blocks
without this request. -/
inductive Progress (v : Drive D) (buf : B → Buffer P D) (m : Nat → D) : List B → Prop where
  | idle (hcommand : v.command = none) (hirq : v.irq = false) (hdisk : ∀ n, v.disk (ROOTDEV, n) = m n) :
      Progress v buf m []
  | started {b : B} {l : List B} (hlt : (buf b).blockno < FSSIZE) (hcommand : v.command = some (request (buf b)))
      (hirq : v.irq = false) (hdisk : ∀ n, v.disk (ROOTDEV, n) = m n) : Progress v buf m (b :: l)
  | wrote {b : B} {l : List B} (hlt : (buf b).blockno < FSSIZE) (hcommand : v.command = none) (hirq : v.irq = true)
      (hdirty : (buf b).dirty = true)
      (hdisk : ∀ n, v.disk (ROOTDEV, n) = update m (buf b).blockno (buf b).data n) : Progress v buf m (b :: l)
  | read {b : B} {l : List B} (hlt : (buf b).blockno < FSSIZE) (hcommand : v.command = none) (hirq : v.irq = true)
      (hclean : (buf b).dirty = false) (hdata : v.data = m (buf b).blockno)
      (hdisk : ∀ n, v.disk (ROOTDEV, n) = m n) : Progress v buf m (b :: l)

/-- A call of `p` for `b` is in `idequeue`. -/
@[grind cases eager]
structure State.Waits (s : State B P D) (p : P) (b : B) : Prop where
  lock : (s.buf b).lock = some p
  thread : s.thread p = .asleep b
  undone : ¬ (s.buf b).Done
  dev : (s.buf b).dev = ROOTDEV

/-- The calls `w` wait in `idequeue`, the drive works at the first of them, and the buffers are those of `memide.c`. -/
@[grind cases eager]
structure Serves (s : State B P D) (w : List (P × B)) (r : Memide.State B P D) : Prop where
  queue : s.queue.Holds none (w.map Prod.snd)
  nodup : (w.map Prod.snd).Nodup
  progress : Progress s.drive s.buf r.memdisk (w.map Prod.snd)
  buf : r.buf = s.buf
  waits : ∀ p b, (p, b) ∈ w → s.Waits p b
  asleep : ∀ p b, s.thread p = .asleep b → (p, b) ∈ w
  ready : ∀ p b, s.thread p = .ready b → (s.buf b).lock = some p ∧ (s.buf b).Done

section Record

variable [DecidableEq B] [DecidableEq P]

/-- Of the calls among the events `es`, all but `w` have been finished in the order in which they were made, and with
these, each as one step, `memide.c` comes from `r0` to `r` by the events `res`. -/
structure Record (r0 : Memide.State B P D) (es : List (Event B P D)) (finished : List B) (w : List (P × B))
    (res : List (Memide.Event B P D)) (r : Memide.State B P D) : Prop where
  calls : es.filterMap Event.call = res.filterMap Memide.Event.call ++ w
  finished : finished = (res.filterMap Memide.Event.call).map Prod.snd
  actions : res.filterMap Memide.Event.action = es.filterMap Event.action
  run : res.foldlM Memide.step r0 = some r

end Record

/-! ## The drive -/

theorem taskFile_key {n : Nat} (hn : n < FSSIZE) : (taskFile ROOTDEV n).key = (ROOTDEV, n) := by
  have hlt : n < 1000 := hn
  have hmid : n >>> 8 &&& 0xff = n / 2 ^ 8 := by
    rw [Nat.shiftRight_eq_div_pow, Nat.and_two_pow_sub_one_eq_mod (n / 2 ^ 8) 8]
    omega
  have hhigh : n >>> 16 = 0 := by
    omega
  have htop : n >>> 24 = 0 := by
    omega
  have hsector : n * sectorPerBlock = n := by rw [show sectorPerBlock = 1 by decide, Nat.mul_one]
  have hlow : n &&& 0xff = n % 2 ^ 8 := Nat.and_two_pow_sub_one_eq_mod n 8
  have hdevice : 0xe0 ||| ((ROOTDEV &&& 1) <<< 4) ||| (0 &&& 0x0f) = 0xf0 := by decide
  have hfile : taskFile ROOTDEV n = ⟨sectorPerBlock, n % 2 ^ 8, n / 2 ^ 8, 0, 0xf0⟩ := by
    simp only [taskFile, hsector, hlow, hmid, hhigh, htop, hdevice, Nat.zero_and 0xff]
  have hdrive : 0xf0 / 2 ^ 4 % 2 = ROOTDEV := by decide
  rw [hfile, TaskFile.key, Prod.mk.injEq]
  simp only [hdrive, true_and]
  omega

variable {v v' : Drive D} {buf buf' : B → Buffer P D} {m : Nat → D} {l : List B} {b : B} {p : P}

theorem Progress.congr (h : Progress v buf m l) (hbuf : ∀ b ∈ l.head?, buf' b = buf b) : Progress v buf' m l := by
  cases h with
  | idle hcommand hirq hdisk => exact .idle hcommand hirq hdisk
  | started hlt hcommand hirq hdisk =>
    have heq := hbuf _ rfl
    exact .started (heq ▸ hlt) (heq ▸ hcommand) hirq hdisk
  | wrote hlt hcommand hirq hdirty hdisk =>
    have heq := hbuf _ rfl
    exact .wrote (heq ▸ hlt) hcommand hirq (heq ▸ hdirty) (heq ▸ hdisk)
  | read hlt hcommand hirq hclean hdata hdisk =>
    have heq := hbuf _ rfl
    exact .read (heq ▸ hlt) hcommand hirq (heq ▸ hclean) (heq ▸ hdata) hdisk

theorem Progress.concat (h : Progress v buf m l) (hne : l ≠ []) (b : B) : Progress v buf m (l ++ [b]) := by
  cases h with
  | idle => exact absurd rfl hne
  | started hlt hcommand hirq hdisk => exact .started hlt hcommand hirq hdisk
  | wrote hlt hcommand hirq hdirty hdisk => exact .wrote hlt hcommand hirq hdirty hdisk
  | read hlt hcommand hirq hclean hdata hdisk => exact .read hlt hcommand hirq hclean hdata hdisk

theorem Progress.complete (h : Progress v buf m l) (hdev : ∀ b ∈ l, (buf b).dev = ROOTDEV)
    (hv : v.complete = some v') : Progress v' buf m l := by
  cases h with
  | idle hcommand =>
    rw [Drive.complete, hcommand] at hv
    cases hv
  | wrote _ hcommand | read _ hcommand =>
    rw [Drive.complete, hcommand] at hv
    cases hv
  | @started b l hlt hcommand _ hdisk =>
    have hkey : (taskFile (buf b).dev (buf b).blockno).key = (ROOTDEV, (buf b).blockno) := by
      rw [hdev b List.mem_cons_self, taskFile_key hlt]
    rw [Drive.complete, hcommand, request] at hv
    split at hv
    · -- a write
      rename_i hdirty
      obtain rfl := Option.some.inj hv
      refine .wrote hlt rfl rfl hdirty fun n => ?_
      grind
    · -- a read
      rename_i hclean
      obtain rfl := Option.some.inj hv
      refine .read hlt rfl rfl (Bool.eq_false_iff.2 hclean) ?_ hdisk
      change v.disk _ = _
      rw [hkey, hdisk]

/-! ## Steps -/

variable {r0 r : Memide.State B P D} {es : List (Event B P D)} {s s' : State B P D} {w : List (P × B)}
  {res : List (Memide.Event B P D)} {a : Action B P D} {e : Event B P D}

theorem State.Waits.congr (h : s.Waits p b) (hbuf : s'.buf b = s.buf b) (hthread : s'.thread p = s.thread p) :
    s'.Waits p b where
  lock := hbuf ▸ h.lock
  thread := hthread.trans h.thread
  undone := hbuf ▸ h.undone
  dev := hbuf ▸ h.dev

theorem Serves.boot (buf : B → Buffer P D) (havedisk1 : Bool) (disk : Nat × Nat → D) (d : D) :
    Serves (boot buf havedisk1 disk d) [] ⟨buf, fun n => disk (ROOTDEV, n)⟩ where
  queue := rfl
  nodup := List.nodup_nil
  progress := .idle rfl rfl fun _ => rfl
  buf := rfl
  waits _ _ h := nomatch h
  asleep _ _ h := nomatch h
  ready _ _ h := nomatch h

theorem Serves.complete (h : Serves s w r) (hv : s.drive.complete = some v) : Serves { s with drive := v } w r where
  __ := h
  progress := by
    refine h.progress.complete (fun b hb => ?_) hv
    grind
  waits p b hmem := (h.waits p b hmem).congr rfl rfl

theorem idestart_eq_some : idestart s b = some s' ↔
    (s.buf b).blockno < FSSIZE ∧ s.drive.command = none ∧
      s' = { s with drive := { s.drive with command := some (request (s.buf b)) } } := by
  rw [idestart, ite_none_right_eq_some, Option.isNone_iff_eq_none, Option.some.injEq, and_assoc]
  exact and_congr_right fun _ => and_congr_right fun _ => eq_comm

theorem idestart_isSome (hlt : (s.buf b).blockno < FSSIZE) (hcommand : s.drive.command = none) :
    (idestart s b).isSome := by
  rw [idestart_eq_some.2 ⟨hlt, hcommand, rfl⟩]
  rfl

theorem Serves.not_mem (h : Serves s w r) (hidle : s.thread p = .idle) (hlock : (s.buf b).lock = some p) :
    b ∉ w.map Prod.snd := by
  intro hmem
  grind

theorem transferred_done (e : Buffer P D) (d : D) : (transferred e d).Done := ⟨rfl, rfl⟩

theorem transferred_lock (e : Buffer P D) (d : D) : (transferred e d).lock = e.lock := by
  rw [transferred]
  split <;> rfl

theorem transferred_blockno (e : Buffer P D) (d : D) : (transferred e d).blockno = e.blockno := by
  rw [transferred]
  split <;> rfl

def stored (e : Buffer P D) (m : Nat → D) : Nat → D := if e.dirty then update m e.blockno e.data else m

theorem idestart_thread (h : idestart s b = some s') : s'.thread = s.thread := by
  obtain ⟨-, -, rfl⟩ := idestart_eq_some.1 h
  rfl

/-- The interrupt for a request: the drive has nothing to do, and `insl` reads what `memide.c` copies. -/
theorem Progress.landed (h : Progress v buf m l) (hirq : v.irq = true) :
    ∃ b t, l = b :: t ∧ (buf b).blockno < FSSIZE ∧ v.command = none ∧
      transferred (buf b) v.data = transferred (buf b) (m (buf b).blockno) ∧
      ∀ n, v.disk (ROOTDEV, n) = stored (buf b) m n := by
  cases h with
  | idle _ hno => exact absurd (hirq.symm.trans hno) nofun
  | started _ _ hno => exact absurd (hirq.symm.trans hno) nofun
  | @wrote b t hlt hcommand _ hdirty hdisk => simp_all [FSSIZE, transferred, ROOTDEV, stored]
  | @read b t hlt hcommand _ hclean hdata hdisk => simp_all [FSSIZE, transferred, ROOTDEV, stored]

section Queue

variable [DecidableEq B]

theorem Serves.push [Fintype B] (h : Serves s w r) (hidle : s.thread p = .idle) (hlock : (s.buf b).lock = some p) :
    ∃ k, s.queue.push (Fintype.card B + 1) b = some k ∧ k.Holds none ((w ++ [(p, b)]).map Prod.snd) := by
  rw [List.map_append]
  exact h.queue.push h.nodup (h.not_mem hidle hlock) (Nat.lt_succ_of_le h.nodup.length_le_card)

theorem Serves.progress_push {k : Chain B} (h : Serves s w r) (hidle : s.thread p = .idle)
    (hlock : (s.buf b).lock = some p) (hk : k.Holds none ((w ++ [(p, b)]).map Prod.snd))
    (hstart : (if k.head = some b then idestart { s with queue := k } b else some { s with queue := k }) = some s') :
    s' = { s with queue := k, drive := s'.drive } ∧
      Progress s'.drive s.buf r.memdisk ((w ++ [(p, b)]).map Prod.snd) := by
  rw [hk.head_eq] at hstart
  cases w with
  | nil =>
    obtain ⟨hlt, hcommand, rfl⟩ := idestart_eq_some.1 ((if_pos rfl).symm.trans hstart)
    cases h.progress with
    | idle _ hirq hdisk => exact ⟨rfl, .started hlt rfl hirq hdisk⟩
  | cons c w =>
    have hne : c.2 ≠ b := fun heq => h.not_mem hidle hlock (heq ▸ List.mem_cons_self)
    have hhead : ¬ some c.2 = some b := fun heq => hne (Option.some.inj heq)
    obtain rfl := Option.some.inj ((if_neg hhead).symm.trans hstart)
    refine ⟨rfl, ?_⟩
    rw [List.map_append]
    exact h.progress.concat (List.cons_ne_nil _ _) b

theorem wakeup_eq_asleep {pc : Pc B} {c : B} (h : wakeup b pc = .asleep c) : pc = .asleep c ∧ c ≠ b := by
  cases pc with
  | idle | ready => cases h
  | asleep d =>
    by_cases hd : d = b
    all_goals grind [wakeup, Pc.asleep.inj]

theorem wakeup_eq_ready {pc : Pc B} {c : B} (h : wakeup b pc = .ready c) : pc = .ready c ∨ pc = .asleep b ∧ c = b := by
  cases pc with
  | idle => cases h
  | ready d => exact .inl h
  | asleep d =>
    by_cases hd : d = b
    all_goals grind [wakeup, Pc.ready.inj]

theorem Serves.finish (h : Serves s ((p, b) :: w) r) {m' : Nat → D} (hqueue : s'.queue = s.queue.pop)
    (hbuf : s'.buf = update s.buf b (transferred (s.buf b) (r.memdisk (s.buf b).blockno)))
    (hthread : s'.thread = wakeup b ∘ s.thread) (hprogress : Progress s'.drive s'.buf m' (w.map Prod.snd)) :
    Serves s' w ⟨s'.buf, m'⟩ := by
  obtain ⟨hb, hnodup⟩ := List.nodup_cons.1 h.nodup
  have hfirst := h.waits p b List.mem_cons_self
  have hself : s'.buf b = transferred (s.buf b) (r.memdisk (s.buf b).blockno) := by rw [hbuf, update_self]
  have hother : ∀ c, c ≠ b → s'.buf c = s.buf c := by
    intro c hc
    rw [hbuf, update_of_ne hc]
  have hne : ∀ q c, (q, c) ∈ w → c ≠ b := by
    rintro q c hmem rfl
    exact hb (List.mem_map.2 ⟨(q, c), hmem, rfl⟩)
  refine ⟨?_, hnodup, hprogress, rfl, ?_, ?_, ?_⟩
  · rw [hqueue]
    exact h.queue.pop
  · intro q c hmem
    have hwaits := h.waits q c (List.mem_cons_of_mem _ hmem)
    refine hwaits.congr (hother c (hne q c hmem)) ?_
    rw [hthread, Function.comp_apply, hwaits.thread]
    exact if_neg (hne q c hmem)
  · intro q c hq
    rw [hthread] at hq
    grind [wakeup_eq_asleep]
  · intro q c hq
    rw [hthread] at hq
    rcases wakeup_eq_ready hq with hready | ⟨hasleep, rfl⟩
    · -- it had been woken up before, for a request that was done then
      obtain ⟨hlock, hdone⟩ := h.ready q c hready
      have hc : c ≠ b := by
        rintro rfl
        exact hfirst.undone hdone
      rw [hother c hc]
      exact ⟨hlock, hdone⟩
    grind [transferred_lock, transferred_done]

theorem wakeup_eq_idle {pc : Pc B} (h : wakeup b pc = .idle) : pc = .idle := by
  cases pc with
  | idle => rfl
  | ready c => cases h
  | asleep c =>
    rw [wakeup] at h
    split at h <;> cases h

theorem ideintr_eq (hhead : s.queue.head = some b) (h : ideintr s = some s') :
    ∃ v, s' = { s with
        queue := s.queue.pop
        buf := update s.buf b (transferred (s.buf b) s.drive.data)
        thread := wakeup b ∘ s.thread
        finished := s.finished ++ [b]
        drive := v } ∧
      (s.queue.pop.head = none ∧ v = s.drive ∨
        ∃ c, s.queue.pop.head = some c ∧ (s'.buf c).blockno < FSSIZE ∧ s.drive.command = none ∧
          v = { s.drive with command := some (request (s'.buf c)) }) := by
  rw [ideintr] at h
  simp only [hhead] at h
  obtain ⟨-, h⟩ := ite_none_right_eq_some.1 h
  split at h
  · grind
  · rename_i c hc
    obtain ⟨hlt, hcommand, rfl⟩ := idestart_eq_some.1 h
    exact ⟨_, rfl, .inr ⟨c, hc, hlt, hcommand, rfl⟩⟩

theorem ideintr_thread (h : ideintr s = some s') (hidle : s'.thread p = .idle) : s.thread p = .idle := by
  cases hhead : s.queue.head with
  | none => grind [ideintr]
  | some b =>
    obtain ⟨v, rfl, -⟩ := ideintr_eq hhead h
    exact wakeup_eq_idle hidle

end Queue

section Resume

variable [DecidableEq P]

theorem Serves.resume (h : Serves s w r) (hready : s.thread p = .ready b) :
    Serves { s with thread := update s.thread p .idle } w r := by
  have hother : ∀ q, q ≠ p → update s.thread p .idle q = s.thread q := fun q hq => update_of_ne hq _ _
  refine ⟨h.queue, h.nodup, h.progress, h.buf, ?_, ?_, ?_⟩
  · intro q c hmem
    have hw := h.waits q c hmem
    refine hw.congr rfl (hother q ?_)
    rintro rfl
    exact nomatch hready.symm.trans hw.thread
  all_goals grind

end Resume

variable [DecidableEq B] [DecidableEq P]

theorem Action.apply_eq (h : a.apply buf = some buf') :
    (∀ b, b ≠ a.on → buf' b = buf b) ∧ ((buf a.on).lock = none ∨ (buf a.on).lock = some a.who) := by
  cases a with
  | acquiresleep p b =>
    obtain ⟨hlock, heq⟩ := ite_none_right_eq_some.1 h
    obtain rfl := Option.some.inj heq
    exact ⟨fun c hc => update_of_ne hc _ _, .inl hlock⟩
  | releasesleep p b | change p b e =>
    obtain ⟨hlock, heq⟩ := ite_none_right_eq_some.1 h
    obtain rfl := Option.some.inj heq
    exact ⟨fun c hc => update_of_ne hc _ _, .inr hlock⟩

theorem Action.apply_locked (h : a.apply buf = some buf') (hlock : (buf b).lock = some p) (hne : p ≠ a.who) :
    buf' b = buf b := by
  obtain ⟨hother, hmine⟩ := Action.apply_eq h
  grind

theorem Serves.act (h : Serves s w r) (hidle : s.thread a.who = .idle) (hbuf : a.apply s.buf = some buf') :
    Serves { s with buf := buf' } w { r with buf := buf' } := by
  -- who waits or has been woken up is not the process at work
  have hwaits : ∀ p b, (p, b) ∈ w → buf' b = s.buf b := by
    intro p b hmem
    have hw := h.waits p b hmem
    refine Action.apply_locked hbuf hw.lock ?_
    rintro rfl
    exact nomatch hidle.symm.trans hw.thread
  refine ⟨h.queue, h.nodup, h.progress.congr ?_, rfl, ?_, h.asleep, ?_⟩
  · grind
  · intro p b hmem
    exact (h.waits p b hmem).congr (hwaits p b hmem) rfl
  · intro p b hready
    obtain ⟨hlock, hdone⟩ := h.ready p b hready
    have heq : buf' b = s.buf b := by
      refine Action.apply_locked hbuf hlock ?_
      rintro rfl
      exact nomatch hidle.symm.trans hready
    grind

theorem Memide.iderw_eq (h : r.Accepts p b) :
    Memide.iderw r p b = some {
      buf := update r.buf b (transferred (r.buf b) (r.memdisk (r.buf b).blockno))
      memdisk := stored (r.buf b) r.memdisk } := by
  rw [Memide.iderw, if_pos h]
  by_cases hdirty : (r.buf b).dirty = true
  · simp only [transferred, stored, if_pos hdirty]
  simp_all [transferred, stored, Buffer.setData, Bool.false_eq_true]

/-- The drive asks for an interrupt, and `ideintr` does for the first request what `memide.c` does. -/
theorem Serves.interrupt (h : Serves s w r) (hirq : s.drive.irq = true)
    (hstep : ideintr { s with drive := { s.drive with irq := false } } = some s') :
    ∃ p b t r', w = (p, b) :: t ∧ Memide.iderw r p b = some r' ∧ Serves s' t r' ∧ s'.finished = s.finished ++ [b] := by
  obtain ⟨b, l, hl, hlt, hcommand, hdata, hdisk⟩ := h.progress.landed hirq
  cases w with
  | nil => cases hl
  | cons c w =>
    obtain ⟨p, b'⟩ := c
    obtain ⟨rfl, rfl⟩ := List.cons.inj hl
    have hfirst := h.waits p b' List.mem_cons_self
    have haccepts : r.Accepts p b' := by
      rw [Memide.State.Accepts, h.buf]
      exact ⟨hfirst.lock, hfirst.undone, hfirst.dev, hlt⟩
    have hrest := h.queue.pop.head_eq
    obtain ⟨v, hs', hv⟩ := ideintr_eq (s := { s with drive := { s.drive with irq := false } }) h.queue.head_eq hstep
    have hbuf : s'.buf = update s.buf b' (transferred (s.buf b') (r.memdisk (s.buf b').blockno)) := by
      rw [hs', ← hdata]
    refine ⟨p, b', w, _, rfl, Memide.iderw_eq haccepts, ?_, by rw [hs']⟩
    rw [h.buf, ← hbuf]
    refine h.finish (by rw [hs']) hbuf (by rw [hs']) ?_
    rcases hv with ⟨hnone, rfl⟩ | ⟨c, hc, hlt', -, rfl⟩
    · have hnil : w.map Prod.snd = [] := List.head?_eq_none_iff.1 (hrest.symm.trans hnone)
      rw [hnil, hs']
      exact .idle hcommand rfl hdisk
    · obtain ⟨t, ht⟩ := List.head?_eq_some_iff.1 (hrest.symm.trans hc)
      rw [ht]
      rw [congrArg State.drive hs']
      exact .started hlt' rfl rfl hdisk

section Request

variable [Fintype B]

theorem Serves.iderw (h : Serves s w r) (hidle : s.thread p = .idle) (hdev : (s.buf b).dev = ROOTDEV)
    (hstep : iderw s p b = some s') :
    Serves s' (w ++ [(p, b)]) r ∧ s'.finished = s.finished ∧ s'.thread p = .asleep b := by
  obtain ⟨haccepts, hstep⟩ := ite_none_right_eq_some.1 hstep
  obtain ⟨hlock, hundone, -⟩ := haccepts
  obtain ⟨k, hpush, hk⟩ := h.push hidle hlock
  rw [hpush, bind_some, map_eq_some_iff] at hstep
  obtain ⟨t, hstart, rfl⟩ := hstep
  obtain ⟨ht, hprogress⟩ := h.progress_push hidle hlock hk hstart
  have hloop : iderwLoop (s.buf b) b = .asleep b := if_neg hundone
  generalize t.drive = v at ht hprogress
  subst ht
  simp only [hloop]
  have hself : update s.thread p (.asleep b) p = .asleep b := update_self ..
  have hother : ∀ q, q ≠ p → update s.thread p (.asleep b) q = s.thread q := fun q hq => update_of_ne hq _ _
  refine ⟨⟨hk, ?_, hprogress, h.buf, ?_, ?_, ?_⟩, trivial, hself⟩
  · grind
  · intro q c hmem
    rcases List.mem_append.1 hmem with hw | hnew
    · have hwaits := h.waits q c hw
      refine hwaits.congr rfl (hother q ?_)
      rintro rfl
      exact nomatch hidle.symm.trans hwaits.thread
    · obtain ⟨rfl, rfl⟩ := Prod.mk.inj (List.mem_singleton.1 hnew)
      exact ⟨hlock, hself, hundone, hdev⟩
  all_goals grind

theorem iderw_thread (h : iderw s p b = some s') {q : P} (hq : q ≠ p) : s'.thread q = s.thread q := by
  obtain ⟨-, h⟩ := ite_none_right_eq_some.1 h
  obtain ⟨k, -, h⟩ := Option.bind_eq_some_iff.1 h
  obtain ⟨t, ht, rfl⟩ := map_eq_some_iff.1 h
  have hthread : t.thread = s.thread := by
    split at ht
    · exact (idestart_thread ht).trans rfl
    · obtain rfl := Option.some.inj ht
      rfl
  exact (update_of_ne hq _ _).trans (congrFun hthread q)

end Request

/-! ## Histories of a step -/

variable {finished : List B} {r' : Memide.State B P D}

theorem Record.quiet (h : Record r0 es finished w res r) (hcall : e.call = none) (haction : e.action = none) :
    Record r0 (es ++ [e]) finished w res r where
  __ := h
  calls := by simp [h.calls, hcall]
  actions := by simp [h.actions, haction]

theorem Memide.foldlM_snoc {x : Memide.Event B P D} (hrun : res.foldlM Memide.step r0 = some r)
    (hstep : Memide.step r x = some r') : (res ++ [x]).foldlM Memide.step r0 = some r' := by
  rw [List.foldlM_append, hrun]
  change Memide.step r x >>= pure = some r'
  rw [bind_pure, hstep]

theorem Record.act (h : Record r0 es finished w res r) (hstep : Memide.step r (.act a) = some r') :
    Record r0 (es ++ [.act a]) finished w (res ++ [.act a]) r' where
  calls := by simp [h.calls, List.filterMap_cons, Event.call, Memide.Event.call]
  finished := by simp [h.finished, List.filterMap_cons, Memide.Event.call]
  actions := by simp [h.actions, Event.action, Memide.Event.action]
  run := Memide.foldlM_snoc h.run hstep

theorem Record.request (h : Record r0 es finished w res r) :
    Record r0 (es ++ [.iderw p b]) finished (w ++ [(p, b)]) res r where
  __ := h
  calls := by simp [h.calls, Event.call]
  actions := by simp [h.actions, List.filterMap_cons, Event.action]

theorem Record.finish (h : Record r0 es finished ((p, b) :: w) res r) (hstep : Memide.iderw r p b = some r') :
    Record r0 (es ++ [.interrupt]) (finished ++ [b]) w (res ++ [.iderw p b]) r' where
  calls := by simp [h.calls, List.filterMap_cons, Event.call, Memide.Event.call]
  finished := by simp [h.finished, Memide.Event.call]
  actions := by simp [h.actions, List.filterMap_cons, Event.action, Memide.Event.action]
  run := Memide.foldlM_snoc h.run hstep

/-! ## Runs -/

section Runs

variable [Fintype B]

theorem Serves.step (hrecord : Record r0 es s.finished w res r) (h : Serves s w r) (hrooted : Rooted s e)
    (hstep : step s e = some s') :
    ∃ w' res' r', Record r0 (es ++ [e]) s'.finished w' res' r' ∧ Serves s' w' r' := by
  cases e with
  | act a =>
    obtain ⟨hidle, hstep⟩ := ite_none_right_eq_some.1 hstep
    obtain ⟨buf', hbuf, rfl⟩ := map_eq_some_iff.1 hstep
    have hact : Memide.step r (.act a) = some { r with buf := buf' } := by
      rw [Memide.step, h.buf, hbuf]
      rfl
    exact ⟨w, _, _, hrecord.act hact, h.act hidle hbuf⟩
  | iderw p b =>
    obtain ⟨hidle, hstep⟩ := ite_none_right_eq_some.1 hstep
    obtain ⟨hserves, hfinished, -⟩ := h.iderw hidle hrooted hstep
    exact ⟨_, res, r, hfinished ▸ hrecord.request, hserves⟩
  | resume p =>
    rw [step] at hstep
    split at hstep
    · rename_i b hready
      have hloop : iderwLoop (s.buf b) b = .idle := if_pos (h.ready p b hready).2
      rw [hloop] at hstep
      obtain rfl := Option.some.inj hstep
      exact ⟨w, res, r, hrecord.quiet rfl rfl, h.resume hready⟩
    · cases hstep
  | complete =>
    obtain ⟨v, hv, rfl⟩ := map_eq_some_iff.1 hstep
    exact ⟨w, res, r, hrecord.quiet rfl rfl, h.complete hv⟩
  | interrupt =>
    obtain ⟨hirq, hstep⟩ := ite_none_right_eq_some.1 hstep
    obtain ⟨p, b, t, r', rfl, hrw, hserves, hfinished⟩ := h.interrupt hirq hstep
    exact ⟨t, _, r', hfinished ▸ hrecord.finish hrw, hserves⟩

theorem serves_of_trace {havedisk1 : Bool} {disk : Nat × Nat → D} {d : D}
    (h : Trace Ide.step Rooted (boot buf havedisk1 disk d) es s) :
    ∃ w res r, Record ⟨buf, fun n => disk (ROOTDEV, n)⟩ es s.finished w res r ∧ Serves s w r := by
  induction h with
  | nil => exact ⟨[], [], _, ⟨rfl, rfl, rfl, rfl⟩, .boot buf havedisk1 disk d⟩
  | snoc _ hrooted hstep ih =>
    obtain ⟨w, res, r, hrecord, hserves⟩ := ih
    exact hserves.step hrecord hrooted hstep

theorem Serves.accepts (h : Serves s w r) (hidle : s.thread p = .idle) (haccepts : s.Accepts p b)
    (hlt : (s.buf b).blockno < FSSIZE) : (Ide.step s (.iderw p b)).isSome := by
  obtain ⟨k, hpush, hk⟩ := h.push hidle haccepts.1
  rw [Ide.step, if_pos hidle, Ide.iderw, if_pos haccepts, hpush, bind_some, Option.isSome_map, hk.head_eq]
  cases w with
  | nil =>
    cases h.progress with
    | idle hcommand => grind [idestart_isSome]
  | cons c w =>
    split
    · rename_i heq
      exact absurd (List.mem_cons.2 (.inl (Option.some.inj heq).symm)) (h.not_mem hidle haccepts.1)
    · rfl

/-- While there are requests, the drive works at the first one, or its interrupt can be taken. -/
theorem Serves.goes_on (h : Serves s w r) (hw : w ≠ []) (hlt : ∀ p b, (p, b) ∈ w → (s.buf b).blockno < FSSIZE) :
    (Ide.step s .complete).isSome ∨ (Ide.step s .interrupt).isSome := by
  obtain ⟨⟨p, b⟩, t, rfl⟩ := List.exists_cons_of_ne_nil hw
  by_cases hirq : s.drive.irq = true
  · right
    obtain ⟨_, _, -, -, hcommand, -, -⟩ := h.progress.landed hirq
    have hhead : s.queue.head = some b := h.queue.head_eq
    rw [Ide.step, if_pos hirq, ideintr]
    simp only [hhead, hcommand, Option.isNone_none, or_true, if_true]
    split
    · rfl
    · rename_i c hc
      -- the next request can be started
      have hmem : c ∈ t.map Prod.snd := List.mem_of_mem_head? (h.queue.pop.head_eq.symm.trans hc)
      grind [idestart_isSome, transferred_blockno]
  · left
    cases h.progress with
    | started _ hcommand =>
      rw [Ide.step, Drive.complete, hcommand]
      rfl
    | wrote _ _ hyes | read _ _ hyes => exact absurd hyes hirq

/-! ### Returns -/

/-- The call of `p` for `b` returns in this step. -/
def Returns (s : State B P D) (e : Event B P D) (s' : State B P D) (p : P) (b : B) : Prop :=
  (e.call = some (p, b) ∨ s.thread p = .asleep b ∨ s.thread p = .ready b) ∧ s'.thread p = .idle

theorem step_thread (hstep : Ide.step s e = some s') (hidle : s'.thread p = .idle) :
    s.thread p = .idle ∨ e = .resume p := by
  cases e with
  | act a =>
    obtain ⟨-, hstep⟩ := ite_none_right_eq_some.1 hstep
    obtain ⟨buf', -, rfl⟩ := map_eq_some_iff.1 hstep
    exact .inl hidle
  | iderw q c =>
    obtain ⟨hq, hstep⟩ := ite_none_right_eq_some.1 hstep
    by_cases heq : p = q
    all_goals grind [iderw_thread]
  | resume q =>
    by_cases heq : p = q
    · exact .inr (heq ▸ rfl)
    · rw [Ide.step] at hstep
      split at hstep
      · obtain rfl := Option.some.inj hstep
        exact .inl ((update_of_ne heq _ _).symm.trans hidle)
      · cases hstep
  | complete =>
    obtain ⟨v, -, rfl⟩ := map_eq_some_iff.1 hstep
    exact .inl hidle
  | interrupt =>
    obtain ⟨-, hstep⟩ := ite_none_right_eq_some.1 hstep
    have hbefore := ideintr_thread hstep hidle
    exact .inl hbefore

theorem Serves.returns (h : Serves s w r) (hrooted : Rooted s e) (hstep : Ide.step s e = some s')
    (hreturns : Returns s e s' p b) : (s'.buf b).Done := by
  obtain ⟨hcall | hin, hidle⟩ := hreturns
  · -- a call does not return before it has slept
    cases e with
    | iderw q c =>
      obtain ⟨rfl, rfl⟩ := Prod.mk.inj (Option.some.inj hcall)
      obtain ⟨hq, hstep⟩ := ite_none_right_eq_some.1 hstep
      exact nomatch (h.iderw hq hrooted hstep).2.2.symm.trans hidle
    | act | resume | complete | interrupt => cases hcall
  grind [Rooted, Ide.step, Returns, Buffer.Done, step_thread]

/-- However the calls and the interrupts fall: the calls that are not finished are in `idequeue`, no buffer twice, and
the drive works at the first; the others have been finished in the order in which they were made; the buffers and the
disk are those of `memide.c` after the finished calls, but for the block that the drive is writing; a call returns only
when its buffer is valid and not dirty; and the driver does not get stuck. -/
theorem ide_refines {havedisk1 : Bool} {disk : Nat × Nat → D} {d : D}
    (h : Trace Ide.step Rooted (boot buf havedisk1 disk d) es s) :
    (∃ w res r, Record ⟨buf, fun n => disk (ROOTDEV, n)⟩ es s.finished w res r ∧ Serves s w r ∧
      (w ≠ [] → (∀ p b, (p, b) ∈ w → (s.buf b).blockno < FSSIZE) →
        (Ide.step s .complete).isSome ∨ (Ide.step s .interrupt).isSome)) ∧
    (∀ p b, s.thread p = .idle → s.Accepts p b → (s.buf b).blockno < FSSIZE → (Ide.step s (.iderw p b)).isSome) ∧
    ∀ e s' p b, Rooted s e → Ide.step s e = some s' → Returns s e s' p b → (s'.buf b).Done := by
  obtain ⟨w, res, r, hrecord, hserves⟩ := serves_of_trace h
  refine ⟨⟨w, res, r, hrecord, hserves, hserves.goes_on⟩, ?_, ?_⟩
  · intro p b hidle haccepts hlt
    exact hserves.accepts hidle haccepts hlt
  · intro e s' p b hrooted hstep hreturns
    exact hserves.returns hrooted hstep hreturns

end Runs

/-- A dirty buffer for block 3, which process `true` has, and one for block 5 that is not valid and that process `false`
has. -/
def twoBuffers : Bool → Buffer Bool Nat := fun b =>
  { valid := false, dirty := b, dev := ROOTDEV, blockno := if b then 3 else 5, lock := some b, refcnt := 1, data := 7 }

/-- The second call is made while the drive works at the first. -/
def twoCalls : List (Event Bool Bool Nat) :=
  [.iderw true true, .iderw false false, .complete, .interrupt, .resume true, .complete, .interrupt, .resume false]

theorem ide_refines_two :
    ∃ s : State Bool Bool Nat, s.finished = [true, false] ∧ s.drive.disk (ROOTDEV, 3) = 7 ∧ (s.buf false).data = 50 ∧
      ∃ w res r, Record ⟨twoBuffers, fun n => 10 * n⟩ twoCalls s.finished w res r ∧ Serves s w r := by
  have hcheck : (twoCalls.foldlM (fun s e => if rooted s e then step s e else none)
      (boot twoBuffers true (fun key => 10 * key.2) 0)).map
        (fun s => (s.finished, s.drive.disk (ROOTDEV, 3), (s.buf false).data)) = some ([true, false], 7, 50) := by
    decide +kernel
  obtain ⟨s, hs, hvalues⟩ := Option.map_eq_some_iff.1 hcheck
  obtain ⟨hfinished, hvalues⟩ := Prod.mk.inj hvalues
  obtain ⟨hdisk, hdata⟩ := Prod.mk.inj hvalues
  obtain ⟨⟨w, res, r, hrecord, hserves, -⟩, -⟩ := ide_refines (Trace.of_foldlM rooted_of_check hs)
  exact ⟨s, hfinished, hdisk, hdata, w, res, r, hrecord, hserves⟩

end AsoPracticas.Xv6.Ide
