import AsoPracticas.Lib.RedoLog
import AsoPracticas.Xv6.Disk

/-!
# Log — commit and recovery of the xv6 log

`log.c` writes the blocks of a transaction to the log area, then the header, then the blocks to their
home locations, and then a header with no blocks.  `recover_from_log` runs at boot and does the last
two steps again for whatever the header says.

* `log_crash_atomic` — a crash at any write of a commit, and of any number of recoveries after it,
  leaves all home blocks as they were before the transaction or as they are after it.
-/

namespace AsoPracticas.Xv6

open Lib

/-- `log.start` and `log.size`, as `initlog` takes them from the superblock. -/
structure Log where
  start : UInt32
  size : Nat

/-- The log block for position `tail`: `log.start+tail+1`. -/
def Log.block (L : Log) (tail : Nat) : UInt32 := L.start + UInt32.ofNat (tail + 1)

/-- A block outside the header and the rest of the log area. -/
def Log.Home (L : Log) (b : UInt32) : Prop :=
  b ≠ L.start ∧ ∀ k < L.size, b ≠ L.start + UInt32.ofNat k

/-- What `bread` returns for each block, and the blocks given to `bwrite` so far. -/
structure Machine where
  view : Disk
  written : List (UInt32 × Block)

def Machine.bwrite (m : Machine) (b : UInt32) (data : Block) : Machine where
  view := Function.update m.view b data
  written := m.written ++ [(b, data)]

/-! ## The header block -/

/-- `log.lh` as a list: `n` is its length. -/
abbrev LogHeader := List UInt32

/-- Copies a header block into `log.lh`; more than `LOGSIZE` blocks would overflow `log.lh.block`. -/
def readHead (hb : Block) : Option LogHeader :=
  let n := (getU32 hb 0).toBitVec.toInt
  if n > LOGSIZE then none
  else some ((List.range n.toNat).map fun i => getU32 hb (4 * (i + 1)))

/-- `hb->block[i] = log.lh.block[i]`, from position `i` on. -/
def setBlocks (i : Nat) : LogHeader → Block → Block
  | [], hb => hb
  | b :: bs, hb => setBlocks (i + 1) bs (setU32 hb (4 * (i + 1)) b)

/-- Copies `log.lh` into a header block; the words after it stay as they are. -/
def setHead (hb : Block) (lh : LogHeader) : Block :=
  setBlocks 0 lh (setU32 hb 0 (UInt32.ofNat lh.length))

/-! ## The functions of the source -/

/-- The loop of `write_log`, from position `tail` on. -/
def writeLog (L : Log) (tail : Nat) : LogHeader → Machine → Machine
  | [], m => m
  | b :: bs, m => writeLog L (tail + 1) bs (m.bwrite (L.block tail) (m.view b))

/-- The loop of `install_trans`, from position `tail` on. -/
def installTrans (L : Log) (tail : Nat) : LogHeader → Machine → Machine
  | [], m => m
  | b :: bs, m => installTrans L (tail + 1) bs (m.bwrite b (m.view (L.block tail)))

def writeHead (L : Log) (lh : LogHeader) (m : Machine) : Machine :=
  m.bwrite L.start (setHead (m.view L.start) lh)

def commit (L : Log) (lh : LogHeader) (m : Machine) : Machine :=
  if lh.length > 0 then
    let m := writeLog L 0 lh m
    let m := writeHead L lh m
    let m := installTrans L 0 lh m
    writeHead L [] m
  else m

def recoverFromLog (L : Log) (m : Machine) : Option Machine := do
  let lh ← readHead (m.view L.start)
  let m := installTrans L 0 lh m
  return writeHead L [] m

/-- The writes of a recovery right after a boot, when nothing is cached. -/
def recoveryWrites (L : Log) (d : Disk) : Option (List (UInt32 × Block)) :=
  (recoverFromLog L ⟨d, []⟩).map Machine.written

/-- Recoveries that crash after `k` writes, for each `k` of a list, and one more that completes. -/
def recoveries (L : Log) : List Nat → Disk → Option Disk
  | [], d => (recoveryWrites L d).map fun ws => applyWrites ws d
  | k :: ks, d => (recoveryWrites L d).bind fun ws => recoveries L ks (applyWrites (ws.take k) d)

/-! ## The header can be read back -/

theorem getU32_setBlocks_of_lt (lh : LogHeader) (hb : Block) (i : Nat) {off : Nat}
    (h : off + 4 ≤ 4 * (i + 1)) : getU32 (setBlocks i lh hb) off = getU32 hb off := by
  induction lh generalizing hb i with
  | nil => rfl
  | cons b bs ih => rw [setBlocks, ih _ _ (by omega), getU32_setU32_of_disjoint b (.inl h)]

theorem getU32_setBlocks (lh : LogHeader) (hb : Block) (i j : Nat) (hj : j < lh.length)
    (hlen : i + lh.length ≤ LOGSIZE) : getU32 (setBlocks i lh hb) (4 * (i + j + 1)) = lh[j] := by
  have hsize : LOGSIZE = 30 := rfl
  have hbsize : BSIZE = 512 := rfl
  induction lh generalizing hb i j with
  | nil =>
    cases hj
  | cons b bs ih =>
    rw [List.length_cons] at hlen
    cases j with
    | zero =>
      rw [setBlocks, getU32_setBlocks_of_lt _ _ _ (by omega), Nat.add_zero]
      exact getU32_setU32 b (by omega)
    | succ j =>
      have hj' : j < bs.length := Nat.lt_of_succ_lt_succ hj
      have := ih (setU32 hb (4 * (i + 1)) b) (i + 1) j hj' (by omega)
      rw [setBlocks, List.getElem_cons_succ, ← this]
      congr 2
      omega

theorem readHead_setHead (hb : Block) (lh : LogHeader) (hlen : lh.length ≤ LOGSIZE) :
    readHead (setHead hb lh) = some lh := by
  have hsize : LOGSIZE = 30 := rfl
  have hn : getU32 (setHead hb lh) 0 = UInt32.ofNat lh.length := by
    rw [setHead, getU32_setBlocks_of_lt _ _ _ (by omega)]
    exact getU32_setU32 _ (by decide)
  have hint : (UInt32.ofNat lh.length).toBitVec.toInt = lh.length := by
    rw [BitVec.toInt_eq_toNat_of_lt]
    · simp
      omega
    · simp
      omega
  rw [readHead, hn, hint]
  rw [if_neg (by omega)]
  congr 1
  apply List.ext_getElem
  · simp
  · intro j hj hj'
    have := getU32_setBlocks lh (setU32 hb 0 (UInt32.ofNat lh.length)) 0 j hj' (by omega)
    simpa [setHead] using this

/-! ## The log area as a redo log -/

theorem Log.block_injective (L : Log) {j k : Nat} (hj : j < LOGSIZE) (hk : k < LOGSIZE)
    (h : L.block j = L.block k) : j = k := by
  have hsize : LOGSIZE = 30 := rfl
  have := congrArg UInt32.toNat h
  simp only [Log.block, UInt32.toNat_add, UInt32.toNat_ofNat'] at this
  omega

theorem Log.block_ne_start (L : Log) {k : Nat} (hk : k < LOGSIZE) : L.block k ≠ L.start := by
  have hsize : LOGSIZE = 30 := rfl
  intro h
  have := congrArg UInt32.toNat h
  grind [Log.block, UInt32.toNat_add, UInt32.toNat_ofNat']

/-- `log_write` admits `LOGSIZE` and `log.size - 1` blocks at most. -/
def Log.layout (L : Log) : Layout UInt32 Block where
  header := L.start
  slot := L.block
  capacity := min LOGSIZE (L.size - 1)
  decode := readHead
  encode := setHead
  slot_injective j hj k hk := L.block_injective (by omega) (by omega)
  slot_ne_header k hk := L.block_ne_start (by omega)
  decode_encode hb lh hlen := readHead_setHead hb lh (by omega)

theorem Log.Home.layout {L : Log} {b : UInt32} (h : L.Home b) : L.layout.Home b := by
  refine ⟨h.1, fun k hk => ?_⟩
  have hk' : k < min LOGSIZE (L.size - 1) := hk
  exact h.2 (k + 1) (by omega)

/-- The blocks a transaction has given to `log_write`, and what the cache holds for them. -/
structure Transaction (L : Log) (d : Disk) where
  blocks : LogHeader
  nodup : blocks.Nodup
  home : ∀ b ∈ blocks, L.Home b
  length_le : blocks.length ≤ min LOGSIZE (L.size - 1)
  cache : Disk
  cache_eq : ∀ b ∉ blocks, cache b = d b

def Transaction.redo {L : Log} {d : Disk} (t : Transaction L d) : L.layout.Transaction d where
  __ := t
  home b hb := (t.home b hb).layout
  after := t.cache
  after_eq := t.cache_eq

/-! ## The functions write what a redo log writes -/

def Machine.after (m : Machine) (ws : List (UInt32 × Block)) : Machine where
  view := applyWrites ws m.view
  written := m.written ++ ws

@[simp] theorem Machine.after_nil (m : Machine) : m.after [] = m := by
  simp [Machine.after]

theorem Machine.after_after (m : Machine) (ws vs : List (UInt32 × Block)) :
    (m.after ws).after vs = m.after (ws ++ vs) := by
  simp [Machine.after, applyWrites_append]

theorem Machine.applyWrites_after (m : Machine) (ws : List (UInt32 × Block)) (d : Disk) :
    applyWrites (m.after ws).written d = applyWrites ws (applyWrites m.written d) :=
  applyWrites_append _ _ _

theorem Machine.bwrite_eq (m : Machine) (b : UInt32) (data : Block) : m.bwrite b data = m.after [(b, data)] := rfl

theorem writeHead_eq (L : Log) (lh : LogHeader) (m : Machine) :
    writeHead L lh m = m.after [(L.start, setHead (m.view L.start) lh)] := rfl

theorem Machine.bwrite_view_of_ne (m : Machine) {b b' : UInt32} (h : b' ≠ b) (data : Block) :
    (m.bwrite b data).view b' = m.view b' :=
  Function.update_of_ne h _ _

/-- `write_log` copies the blocks that the loop has not reached as the cache held them before it. -/
theorem writeLog_eq (L : Log) (v : Disk) (bs : LogHeader) (tail : Nat) (m : Machine)
    (hv : ∀ b ∈ bs, m.view b = v b) (hslot : ∀ b ∈ bs, ∀ k < tail + bs.length, b ≠ L.block k) :
    writeLog L tail bs m = m.after ((bs.zipIdx tail).map fun p => (L.block p.2, v p.1)) := by
  induction bs generalizing tail m with
  | nil => simp [writeLog]
  | cons b bs ih =>
    have hb := hv b List.mem_cons_self
    rw [writeLog, ih]
    · simp [Machine.bwrite_eq, Machine.after_after, hb]
    · intro b' hb'
      have hne : b' ≠ L.block tail := hslot b' (List.mem_cons_of_mem b hb') tail (by simp)
      rw [m.bwrite_view_of_ne hne]
      exact hv b' (List.mem_cons_of_mem b hb')
    grind

/-- `install_trans` copies to their home locations the blocks that the log area held before it. -/
theorem installTrans_eq (L : Log) (v : Disk) (bs : LogHeader) (tail : Nat) (m : Machine)
    (hv : ∀ k (hk : k < bs.length), m.view (L.block (tail + k)) = v bs[k])
    (hslot : ∀ b ∈ bs, ∀ k < tail + bs.length, b ≠ L.block k) :
    installTrans L tail bs m = m.after (Layout.install v bs) := by
  induction bs generalizing tail m with
  | nil => simp [installTrans, Layout.install]
  | cons b bs ih =>
    have hb : m.view (L.block tail) = v b := hv 0 (by simp)
    rw [installTrans, ih]
    · simp [Machine.bwrite_eq, Machine.after_after, hb, Layout.install]
    · intro k hk
      have hne : L.block (tail + 1 + k) ≠ b :=
        (hslot b List.mem_cons_self (tail + 1 + k) (by simp; omega)).symm
      have := hv (k + 1) (by simpa using hk)
      rw [List.getElem_cons_succ] at this
      rw [m.bwrite_view_of_ne hne, ← this]
      congr 2
      omega
    grind

section Crash

variable {L : Log} {d : Disk} (t : Transaction L d)

theorem Transaction.ne_block {b : UInt32} (hb : b ∈ t.blocks) {k : Nat}
    (hk : k < 0 + t.blocks.length) : b ≠ L.block k := by
  have := t.length_le
  exact (t.redo.home b hb).2 k (show k < min LOGSIZE (L.size - 1) by omega)

def Transaction.cached : L.layout.Transaction t.cache where
  __ := t
  home b hb := (t.home b hb).layout
  after := t.cache
  after_eq _ _ := rfl

theorem commit_written (hne : t.blocks ≠ []) :
    (commit L t.blocks ⟨t.cache, []⟩).written = L.layout.commitWrites (d L.start) t.cache t.blocks := by
  have hpos : t.blocks.length > 0 := List.length_pos_iff.2 hne
  have hstart : t.cache L.start = d L.start := t.cache_eq _ fun hmem => (t.home _ hmem).1 rfl
  have hlog : writeLog L 0 t.blocks ⟨t.cache, []⟩ = Machine.after ⟨t.cache, []⟩ (L.layout.fill t.cache t.blocks) :=
    writeLog_eq L t.cache t.blocks 0 ⟨t.cache, []⟩ (fun _ _ => rfl) (fun b hb k hk => t.ne_block hb hk)
  have hhead : (Machine.after ⟨t.cache, []⟩ (L.layout.fill t.cache t.blocks)).view L.start = d L.start :=
    (applyWrites_of_ne (fun w hw => Layout.fill_ne_header t.cached hw) t.cache).trans hstart
  -- the log blocks hold the cached blocks when `install_trans` reads them
  have hslots : ∀ k (hk : k < t.blocks.length),
      applyWrites (L.layout.fill t.cache t.blocks ++ [(L.start, setHead (d L.start) t.blocks)])
        t.cache (L.block (0 + k)) = t.cache t.blocks[k] := by
    intro k hk
    rw [Nat.zero_add]
    exact (Layout.committed_header t.cached (d L.start)).slots k hk
  have hinstall := installTrans_eq L t.cache t.blocks 0
    (Machine.after ⟨t.cache, []⟩ (L.layout.fill t.cache t.blocks ++ [(L.start, setHead (d L.start) t.blocks)]))
    hslots (fun b hb k hk => t.ne_block hb hk)
  have hhead' : (Machine.after (Machine.after ⟨t.cache, []⟩
      (L.layout.fill t.cache t.blocks ++ [(L.start, setHead (d L.start) t.blocks)]))
        (Layout.install t.cache t.blocks)).view L.start = setHead (d L.start) t.blocks := by
    have hhome : ∀ w ∈ Layout.install t.cache t.blocks, w.1 ≠ L.start := by
      intro w hw
      obtain ⟨b, hb, rfl⟩ := List.mem_map.1 hw
      exact (t.home b hb).1
    refine (applyWrites_of_ne hhome _).trans ?_
    show applyWrites (_ ++ _) _ _ = _
    rw [applyWrites_append]
    exact Function.update_self _ _ _
  rw [commit, if_pos hpos, hlog]
  simp only [writeHead_eq, hhead, Machine.after_after] at hinstall hhead' ⊢
  rw [hinstall, hhead']
  simp [Machine.after, Layout.commitWrites, Log.layout]

theorem recoverFromLog_of_readHead {m : Machine} {lh : LogHeader} (h : readHead (m.view L.start) = some lh) :
    recoverFromLog L m = some (writeHead L [] (installTrans L 0 lh m)) := by
  simp [recoverFromLog, h]

/-- The blocks a recovery gives to `bwrite` when the transaction is committed: the same ones that are
left of the commit. -/
theorem recoveryWrites_committed {d' : Disk} (h : Layout.Committed t.redo d') :
    recoveryWrites L d' = some (Layout.install t.cache t.blocks ++ [(L.start, setHead (d' L.start) [])]) := by
  have hread : readHead (d' L.start) = some t.blocks := h.header
  have hinstall := installTrans_eq L t.cache t.blocks 0 ⟨d', []⟩
    (fun k hk => by rw [Nat.zero_add]; exact h.slots k hk) (fun b hb k hk => t.ne_block hb hk)
  have hhead : (Machine.after ⟨d', []⟩ (Layout.install t.cache t.blocks)).view L.start = d' L.start := by
    refine applyWrites_of_ne ?_ d'
    intro w hw
    obtain ⟨b, hb, rfl⟩ := List.mem_map.1 hw
    exact (t.home b hb).1
  rw [recoveryWrites, recoverFromLog_of_readHead (m := ⟨d', []⟩) hread, hinstall, writeHead_eq, hhead,
    Machine.after_after]
  rfl

theorem recoveryWrites_clean {d' : Disk} (h : L.layout.Clean d') :
    recoveryWrites L d' = some [(L.start, setHead (d' L.start) [])] := by
  have hread : readHead (d' L.start) = some [] := h
  rw [recoveryWrites, recoverFromLog_of_readHead (m := ⟨d', []⟩) hread]
  rfl

theorem recoveries_clean {d' : Disk} (h : L.layout.Clean d') (ks : List Nat) :
    ∃ d'', recoveries L ks d' = some d'' ∧ ∀ b, L.layout.Home b → d'' b = d' b := by
  induction ks generalizing d' with
  | nil =>
    refine ⟨_, by rw [recoveries, recoveryWrites_clean h]; rfl, ?_⟩
    exact (h.clear_take (d' L.start) 1).2
  | cons k ks ih =>
    obtain ⟨hclean, hhome⟩ := h.clear_take (d' L.start) k
    obtain ⟨d'', hrun, hd''⟩ := ih hclean
    refine ⟨d'', ?_, fun b hb => (hd'' b hb).trans (hhome b hb)⟩
    rw [recoveries, recoveryWrites_clean h]
    exact hrun

/-- Recoveries of a committed transaction, crashing or not, end with its blocks installed. -/
theorem recoveries_committed {d' : Disk} (h : Layout.Committed t.redo d') (ks : List Nat) :
    ∃ d'', recoveries L ks d' = some d'' ∧ ∀ b, L.layout.Home b → d'' b = t.cache b := by
  induction ks generalizing d' with
  | nil =>
    refine ⟨_, by rw [recoveries, recoveryWrites_committed t h]; rfl, ?_⟩
    exact (h.clear t.redo (d' L.start)).2
  | cons k ks ih =>
    rcases h.redo_take t.redo (d' L.start) k with hcomm | ⟨-, hafter⟩
    · obtain ⟨d'', hrun, hd''⟩ := ih hcomm
      refine ⟨d'', ?_, hd''⟩
      rw [recoveries, recoveryWrites_committed t h]
      exact hrun
    · obtain ⟨d'', hrun, hd''⟩ := recoveries_clean hafter.1 ks
      refine ⟨d'', ?_, fun b hb => (hd'' b hb).trans (hafter.2 b hb)⟩
      rw [recoveries, recoveryWrites_committed t h]
      exact hrun

/-! ## The disks on which a transaction can start -/

/-- The disk between transactions: `initlog` has recovered whatever it found, and any number of
transactions have been committed since. -/
inductive Idle (L : Log) : Disk → Prop
  | initlog {d0 : Disk} {ws : List (UInt32 × Block)} :
      recoveryWrites L d0 = some ws → Idle L (applyWrites ws d0)
  | commit {d : Disk} (t : Transaction L d) :
      Idle L d → Idle L (applyWrites (commit L t.blocks ⟨t.cache, []⟩).written d)

theorem recoveryWrites_clears {d0 : Disk} {ws : List (UInt32 × Block)}
    (h : recoveryWrites L d0 = some ws) : L.layout.Clean (applyWrites ws d0) := by
  cases hread : readHead (d0 L.start) with
  | none => simp [recoveryWrites, recoverFromLog, hread] at h
  | some lh =>
    rw [recoveryWrites, recoverFromLog_of_readHead (m := ⟨d0, []⟩) hread, Option.map_some, Option.some.injEq] at h
    have hlast : applyWrites ws d0 L.start = setHead ((installTrans L 0 lh ⟨d0, []⟩).view L.start) [] := by
      rw [← h, writeHead_eq, Machine.applyWrites_after]
      exact Function.update_self _ _ _
    exact (congrArg readHead hlast).trans (readHead_setHead _ [] (Nat.zero_le _))

theorem Idle.clean (h : Idle L d) : L.layout.Clean d := by
  induction h with
  | initlog hws => exact recoveryWrites_clears hws
  | @commit d t _ ih =>
    by_cases hne : t.blocks = []
    · simpa [Xv6.commit, hne] using ih
    · rw [commit_written t hne]
      exact (Layout.commit_after t.redo (d L.start)).1

/-- A commit crashes after `k` writes; recoveries crash after as many writes as `ks` says, and one
completes.  Then all home blocks hold what they held before the transaction, or all of them what they
hold after it; and the latter if the header of the commit was among the `k` writes. -/
theorem log_crash_atomic (hd : Idle L d) (k : Nat) (ks : List Nat) :
    ∃ d', recoveries L ks
        (applyWrites ((commit L t.blocks ⟨t.cache, []⟩).written.take k) d) = some d' ∧
      ((∀ b, L.Home b → d' b = d b) ∨ (∀ b, L.Home b → d' b = t.cache b)) ∧
      (t.blocks.length < k → ∀ b, L.Home b → d' b = t.cache b) := by
  by_cases hne : t.blocks = []
  · -- nothing to commit: `commit` writes nothing
    obtain ⟨d', hrun, hhome⟩ := recoveries_clean hd.clean ks
    have hsame : ∀ b, L.Home b → d' b = t.cache b := by
      intro b hb
      rw [hhome b hb.layout, t.cache_eq b (by simp [hne])]
    refine ⟨d', ?_, Or.inr hsame, fun _ => hsame⟩
    simpa [commit, hne] using hrun
  · rw [commit_written t hne]
    rcases Layout.commit_take t.redo hd.clean (d L.start) k with ⟨hk, hbefore⟩ | hcomm | hafter
    · obtain ⟨d', hrun, hhome⟩ := recoveries_clean hbefore.1 ks
      refine ⟨d', hrun, Or.inl fun b hb => ?_, fun hlt => ?_⟩
      · rw [hhome b hb.layout, hbefore.2 b hb.layout]
      · exact absurd hk (Nat.not_le_of_lt hlt)
    · obtain ⟨d', hrun, hhome⟩ := recoveries_committed t hcomm ks
      exact ⟨d', hrun, Or.inr fun b hb => hhome b hb.layout, fun _ b hb => hhome b hb.layout⟩
    · obtain ⟨d', hrun, hhome⟩ := recoveries_clean hafter.1 ks
      have hsame : ∀ b, L.Home b → d' b = t.cache b := by
        intro b hb
        rw [hhome b hb.layout]
        exact hafter.2 b hb.layout
      exact ⟨d', hrun, Or.inr hsame, fun _ => hsame⟩

end Crash

/-- The log area `mkfs` lays out: 30 blocks from block 2 on. -/
def mkfsLog : Log := ⟨2, 30⟩

def fillBlock (d : Disk) : Transaction mkfsLog d where
  blocks := [100]
  nodup := by decide
  home := by
    intro b hb
    rw [List.mem_singleton.1 hb, Log.Home]
    decide
  length_le := by decide
  cache := Function.update d 100 fun _ => 1
  cache_eq b hb := Function.update_of_ne (by simpa using hb) _ _

theorem log_crash_atomic_fill :
    ∃ d : Disk, Idle mkfsLog d ∧
      ∃ d', recoveries mkfsLog [1, 0]
          (applyWrites ((commit mkfsLog [100] ⟨(fillBlock d).cache, []⟩).written.take 2) d) =
            some d' ∧
        d' 100 = fun _ => 1 := by
  have hclean : mkfsLog.layout.Clean fun _ _ => 0 := by
    show readHead (fun _ => 0) = some []
    decide
  have hidle := Idle.initlog (recoveryWrites_clean hclean)
  obtain ⟨d', hrun, -, hafter⟩ := log_crash_atomic (fillBlock _) hidle 2 [1, 0]
  refine ⟨_, hidle, d', hrun, ?_⟩
  rw [hafter (by decide) 100 (by rw [Log.Home]; decide)]
  simp [fillBlock]

end AsoPracticas.Xv6
