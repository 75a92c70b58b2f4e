import AsoPracticas.Lib.Ownership
import AsoPracticas.Xv6.Format

/-!
# Volume — the file system as inodes, a free map and data blocks

What the bytes of a disk mean: for each inode number an inode, for each block number whether it is in
use, and for each data block its contents.  The block numbers of an inode are in its slots: the
addresses in the inode and the entries of its indirect block.
-/

namespace AsoPracticas.Xv6

open Lib
open Function (update update_apply update_of_ne update_self)

/-! ## The layout of a disk -/

def Superblock.dataStart (sb : Superblock) : Nat := sb.size.toNat - sb.nblocks.toNat

def Superblock.Data (sb : Superblock) (b : UInt32) : Prop :=
  sb.dataStart ≤ b.toNat ∧ b.toNat < sb.size.toNat

instance (sb : Superblock) (b : UInt32) : Decidable (sb.Data b) :=
  inferInstanceAs (Decidable (_ ∧ _))

/-! ## Volumes -/

/-- Where an inode keeps block numbers: an address of its own (the last one is that of the indirect
block) or an entry of the indirect block. -/
inductive Slot where
  | addr (j : Fin (NDIRECT + 1))
  | entry (e : Fin NINDIRECT)
  deriving DecidableEq

def Slot.indirect : Slot := .addr (Fin.last NDIRECT)

@[ext]
structure Volume where
  inode : UInt32 → Dinode
  used : UInt32 → Bool
  block : Disk

/-- The block number of the indirect block, 0 if there is none. -/
def Dinode.indirect (d : Dinode) : UInt32 := d.addrs (Fin.last NDIRECT)

theorem Dinode.indirect_withAddr_of_ne (d : Dinode) {j : Fin (NDIRECT + 1)}
    (hj : j ≠ Fin.last NDIRECT) (addr : UInt32) : (d.withAddr j addr).indirect = d.indirect :=
  update_of_ne hj.symm ..

@[simp] theorem Dinode.indirect_withAddr_last (d : Dinode) (addr : UInt32) :
    (d.withAddr (Fin.last NDIRECT) addr).indirect = addr := by
  rw [Dinode.indirect, Dinode.addrs_withAddr, update_self]

def Dinode.slot (d : Dinode) (block : Disk) : Slot → UInt32
  | .addr j => d.addrs j
  | .entry e => if d.indirect = 0 then 0 else getU32 (block d.indirect) (4 * e)

/-- The slot for block `c` of a file. -/
def fileSlot (c : Nat) : Option Slot :=
  if h : c < NDIRECT then some (.addr ⟨c, Nat.lt_succ_of_lt h⟩)
  else if h : c - NDIRECT < NINDIRECT then some (.entry ⟨c - NDIRECT, h⟩)
  else none

namespace Volume

def slot (v : Volume) (n : UInt32) (s : Slot) : UInt32 := (v.inode n).slot v.block s

/-- The block that a slot of an allocated inode holds. -/
def own (v : Volume) (p : UInt32 × Slot) : Option UInt32 :=
  if (v.inode p.1).type ≠ 0 ∧ v.slot p.1 p.2 ≠ 0 then some (v.slot p.1 p.2) else none

/-- The contents of block `c` of file `n`, if it has one. -/
def fileBlock (v : Volume) (n : UInt32) (c : Nat) : Option Block :=
  (fileSlot c).bind fun s => if v.slot n s = 0 then none else some (v.block (v.slot n s))

/-- A block is in use exactly if it is a data block in one slot, and no metadata block is free. -/
@[grind cases eager]
structure Allocated (sb : Superblock) (v : Volume) : Prop where
  exclusive : Exclusive v.own fun b => sb.Data b ∧ v.used b = true
  metadata : ∀ b : UInt32, b.toNat < sb.dataStart → v.used b = true

/-! ## Changes -/

def setInode (v : Volume) (n : UInt32) (d : Dinode) : Volume :=
  { v with inode := update v.inode n d }

def setBlock (v : Volume) (b : UInt32) (data : Block) : Volume :=
  { v with block := update v.block b data }

def setUsed (v : Volume) (b : UInt32) (x : Bool) : Volume :=
  { v with used := update v.used b x }

def fresh (v : Volume) (b : UInt32) : Volume :=
  (v.setUsed b true).setBlock b fun _ => 0

variable {sb : Superblock} {v v' : Volume} {n m b : UInt32} {s t : Slot} {c : Nat} {d : Dinode} {g : Block} {x : Bool}

@[simp] theorem inode_setInode : (v.setInode n d).inode = update v.inode n d := rfl
@[simp] theorem used_setInode : (v.setInode n d).used = v.used := rfl
@[simp] theorem block_setInode : (v.setInode n d).block = v.block := rfl
@[simp] theorem inode_setBlock : (v.setBlock b g).inode = v.inode := rfl
@[simp] theorem used_setBlock : (v.setBlock b g).used = v.used := rfl
@[simp] theorem block_setBlock : (v.setBlock b g).block = update v.block b g := rfl
@[simp] theorem inode_setUsed : (v.setUsed b x).inode = v.inode := rfl
@[simp] theorem used_setUsed : (v.setUsed b x).used = update v.used b x := rfl
@[simp] theorem block_setUsed : (v.setUsed b x).block = v.block := rfl
@[simp] theorem inode_fresh : (v.fresh b).inode = v.inode := rfl
@[simp] theorem used_fresh : (v.fresh b).used = update v.used b true := rfl
@[simp] theorem block_fresh : (v.fresh b).block = update v.block b fun _ => 0 := rfl

theorem slot_addr (j : Fin (NDIRECT + 1)) : v.slot n (.addr j) = (v.inode n).addrs j := rfl

theorem slot_indirect : v.slot n .indirect = (v.inode n).indirect := rfl

theorem slot_entry (e : Fin NINDIRECT) : v.slot n (.entry e) =
    if (v.inode n).indirect = 0 then 0 else getU32 (v.block (v.inode n).indirect) (4 * e) := rfl

theorem slot_entry_of_ne (h : (v.inode n).indirect ≠ 0) (e : Fin NINDIRECT) :
    v.slot n (.entry e) = getU32 (v.block (v.inode n).indirect) (4 * e) :=
  if_neg h

theorem slot_entry_congr (hind : (v'.inode n).indirect = (v.inode n).indirect)
    (hblock : (v.inode n).indirect ≠ 0 →
      v'.block (v.inode n).indirect = v.block (v.inode n).indirect) (e : Fin NINDIRECT) :
    v'.slot n (.entry e) = v.slot n (.entry e) := by
  by_cases hzero : (v.inode n).indirect = 0
  all_goals grind [slot_entry]

theorem own_eq_some_iff {p : UInt32 × Slot} :
    v.own p = some b ↔ (v.inode p.1).type ≠ 0 ∧ v.slot p.1 p.2 = b ∧ b ≠ 0 := by
  unfold own
  grind

theorem own_eq_none_iff {p : UInt32 × Slot} : v.own p = none ↔ (v.inode p.1).type = 0 ∨ v.slot p.1 p.2 = 0 := by
  unfold own
  grind

theorem own_congr (htype : (v'.inode n).type = (v.inode n).type) (hslot : v'.slot n s = v.slot n s) :
    v'.own (n, s) = v.own (n, s) := by
  simp only [own, htype, hslot]

theorem own_slot (htype : (v.inode n).type ≠ 0) (hs : v.slot n s ≠ 0) : v.own (n, s) = some (v.slot n s) :=
  own_eq_some_iff.2 ⟨htype, rfl, hs⟩

namespace Allocated

theorem data_slot (h : v.Allocated sb) (htype : (v.inode n).type ≠ 0) (hs : v.slot n s ≠ 0) :
    sb.Data (v.slot n s) ∧ v.used (v.slot n s) = true :=
  h.exclusive.used_of_own (own_slot htype hs)

theorem slot_inj (h : v.Allocated sb) (hn : (v.inode n).type ≠ 0) (hm : (v.inode m).type ≠ 0)
    (hs : v.slot n s ≠ 0) (heq : v.slot m t = v.slot n s) : m = n ∧ t = s := by
  have hm' : v.own (m, t) = some (v.slot n s) := own_eq_some_iff.2 ⟨hm, heq, hs⟩
  have hpair := h.exclusive.unique hm' (own_slot hn hs)
  exact ⟨congrArg Prod.fst hpair, congrArg Prod.snd hpair⟩

theorem slot_ne (h : v.Allocated sb) (hb : v.used b = false) (htype : (v.inode n).type ≠ 0)
    (hs : v.slot n s ≠ 0) : v.slot n s ≠ b := by
  rintro rfl
  rw [(h.data_slot htype hs).2] at hb
  cases hb

theorem indirect_ne (h : v.Allocated sb) (hn : (v.inode n).type ≠ 0) (hm : (v.inode m).type ≠ 0)
    (hs : v.slot n s ≠ 0) (hind : s ≠ .indirect) : (v.inode m).indirect ≠ v.slot n s := by
  intro heq
  have hslot : v.slot m .indirect = v.slot n s := heq
  exact hind (h.slot_inj hn hm hs hslot).2.symm

end Allocated

/-! ## The slots of a file -/

theorem fileSlot_direct (h : c < NDIRECT) : fileSlot c = some (.addr ⟨c, Nat.lt_succ_of_lt h⟩) := dif_pos h

theorem fileSlot_entry (h : ¬ c < NDIRECT) (h' : c - NDIRECT < NINDIRECT) :
    fileSlot c = some (.entry ⟨c - NDIRECT, h'⟩) := by
  rw [fileSlot, dif_neg h, dif_pos h']

theorem fileSlot_ne_indirect (h : fileSlot c = some s) : s ≠ .indirect := by
  rintro rfl
  grind [fileSlot, Slot.indirect]

theorem fileSlot_inj {c' : Nat} (h : fileSlot c = some s) (h' : fileSlot c' = some s) : c = c' := by
  grind [fileSlot]

theorem fileBlock_of_slot_ne (hc : fileSlot c = some s) (hs : v.slot n s ≠ 0) :
    v.fileBlock n c = some (v.block (v.slot n s)) := by
  simp [fileBlock, hc, hs]

theorem fileBlock_eq_none_iff (hc : fileSlot c = some s) : v.fileBlock n c = none ↔ v.slot n s = 0 := by
  simp [fileBlock, hc]

theorem fileBlock_congr (hslot : ∀ s, fileSlot c = some s → v'.slot n s = v.slot n s)
    (hblock : ∀ s, fileSlot c = some s → v.slot n s ≠ 0 → v'.block (v.slot n s) = v.block (v.slot n s)) :
    v'.fileBlock n c = v.fileBlock n c := by
  grind [fileSlot, fileBlock]

/-! ## Changing the other fields of an inode -/

theorem slot_of_addrs (haddrs : (v'.inode n).addrs = (v.inode n).addrs) (hblock : v'.block = v.block)
    (s : Slot) : v'.slot n s = v.slot n s := by
  cases s with
  | addr j => rw [slot_addr, slot_addr, haddrs]
  | entry e =>
    have hind : (v'.inode n).indirect = (v.inode n).indirect := congrFun haddrs _
    exact slot_entry_congr hind (fun _ => by rw [hblock]) e

theorem fileBlock_of_addrs (haddrs : (v'.inode n).addrs = (v.inode n).addrs)
    (hblock : v'.block = v.block) (c : Nat) : v'.fileBlock n c = v.fileBlock n c :=
  fileBlock_congr (fun s _ => slot_of_addrs haddrs hblock s) fun _ _ _ => by rw [hblock]

theorem Allocated.of_addrs (h : v.Allocated sb) (htype : ∀ m, (v'.inode m).type = (v.inode m).type)
    (haddrs : ∀ m, (v'.inode m).addrs = (v.inode m).addrs) (hused : v'.used = v.used)
    (hblock : v'.block = v.block) : v'.Allocated sb := by
  have hown : v'.own = v.own := by
    funext ⟨m, t⟩
    exact own_congr (htype m) (slot_of_addrs (haddrs m) hblock t)
  exact ⟨by rw [hown, hused]; exact h.exclusive, by rw [hused]; exact h.metadata⟩

/-! ## Storing in a block -/

theorem slot_setBlock (h : (v.inode m).indirect ≠ b) : (v.setBlock b g).slot m t = v.slot m t := by
  cases t with
  | addr j => rfl
  | entry e =>
    apply slot_entry_congr
    · rfl
    · exact fun _ => update_of_ne h ..

theorem block_setBlock_of_ne {a : UInt32} (h : a ≠ b) : (v.setBlock b g).block a = v.block a :=
  update_of_ne h ..

theorem Allocated.setBlock (h : v.Allocated sb) (hn : (v.inode n).type ≠ 0) (hs : v.slot n s ≠ 0)
    (hind : s ≠ .indirect) (g : Block) : (v.setBlock (v.slot n s) g).Allocated sb := by
  have hown : (v.setBlock (v.slot n s) g).own = v.own := by
    funext ⟨m, t⟩
    by_cases hm : (v.inode m).type = 0
    · rw [own_eq_none_iff.2 (.inl hm), own_eq_none_iff.2 (.inl hm)]
    · exact own_congr rfl (slot_setBlock (h.indirect_ne hn hm hs hind))
  exact ⟨by rw [hown]; exact h.exclusive, h.metadata⟩

theorem Allocated.fileBlock_setBlock (h : v.Allocated sb) (hn : (v.inode n).type ≠ 0)
    (hm : (v.inode m).type ≠ 0) (hc : fileSlot c = some s) (hs : v.slot n s ≠ 0) (g : Block)
    (a : Nat) :
    (v.setBlock (v.slot n s) g).fileBlock m a =
      if m = n ∧ a = c then some g else v.fileBlock m a := by
  have hind := fileSlot_ne_indirect hc
  have hslot : ∀ t, (v.setBlock (v.slot n s) g).slot m t = v.slot m t := fun t =>
    slot_setBlock (h.indirect_ne hn hm hs hind)
  split
  · rename_i heq
    obtain ⟨rfl, rfl⟩ := heq
    rw [fileBlock_of_slot_ne hc (by rwa [hslot]), hslot]
    exact congrArg some (update_self ..)
  · rename_i hne
    apply fileBlock_congr fun t _ => hslot t
    intro t ht ht0
    apply block_setBlock_of_ne
    intro heq
    obtain ⟨rfl, rfl⟩ := h.slot_inj hn hm hs heq
    exact hne ⟨rfl, fileSlot_inj ht hc⟩

/-! ## Taking a block -/

/-- A new block goes to an address of inode `n`. -/
def takeAddr (v : Volume) (n : UInt32) (j : Fin (NDIRECT + 1)) (b : UInt32) : Volume :=
  (v.fresh b).setInode n ((v.inode n).withAddr j b)

/-- A new block goes to an entry of the indirect block of inode `n`. -/
def takeEntry (v : Volume) (n : UInt32) (e : Fin NINDIRECT) (b : UInt32) : Volume :=
  (v.fresh b).setBlock (v.inode n).indirect (setU32 ((v.fresh b).block (v.inode n).indirect) (4 * e) b)

/-- In `v'` the slot `s` of inode `n` has got the new block `b`, and nothing else has changed. -/
@[grind cases eager]
structure Takes (v v' : Volume) (n : UInt32) (s : Slot) (b : UInt32) : Prop where
  type : ∀ m, (v'.inode m).type = (v.inode m).type
  slot : ∀ m t, (v.inode m).type ≠ 0 → v'.slot m t = if m = n ∧ t = s then b else v.slot m t
  used : v'.used = update v.used b true
  zero : v'.block b = fun _ => 0
  block : ∀ a, a ≠ b → a ≠ (v.inode n).indirect → v'.block a = v.block a

theorem Takes.allocated (ht : Takes v v' n s b) (h : v.Allocated sb) (hn : (v.inode n).type ≠ 0)
    (hs : v.slot n s = 0) (hb : v.used b = false) (hdata : sb.Data b) (hb0 : b ≠ 0) :
    v'.Allocated sb := by
  have hslot : v'.slot n s = b := by simp [ht.slot n s hn]
  have hnone : v.own (n, s) = none := own_eq_none_iff.2 (.inr hs)
  refine ⟨h.exclusive.take hnone (b := b) ?_ ?_ ?_ ?_, ?_⟩
  · simp [hb]
  · exact own_eq_some_iff.2 ⟨by rwa [ht.type], hslot, hb0⟩
  · rintro ⟨m, t⟩ hne
    by_cases hm : (v.inode m).type = 0
    · have hm' : (v'.inode m).type = 0 := (ht.type m).trans hm
      exact (own_eq_none_iff.2 (.inl hm')).trans (own_eq_none_iff.2 (.inl hm)).symm
    grind [own_congr]
  · intro c
    by_cases hc : c = b
    · simp [hc, hdata, ht.used]
    · simp [hc, ht.used]
  · intro a ha
    rw [ht.used, update_apply]
    split
    · rfl
    · exact h.metadata a ha

/-- The file that took a block for its block `c` reads zeroes there; all else is as before. -/
theorem Takes.fileBlock (ht : Takes v v' n s b) (h : v.Allocated sb) (hn : (v.inode n).type ≠ 0)
    (hm : (v.inode m).type ≠ 0) (hb : v.used b = false) (hb0 : b ≠ 0) (a : Nat) :
    v'.fileBlock m a = if m = n ∧ fileSlot a = some s then some fun _ => 0 else v.fileBlock m a := by
  split
  · grind [fileBlock]
  · rename_i hne
    have hslot : ∀ t, fileSlot a = some t → v'.slot m t = v.slot m t := by grind
    apply fileBlock_congr hslot
    intro t hta ht0
    apply ht.block _ (h.slot_ne hb hm ht0)
    exact (h.indirect_ne hm hn ht0 (fileSlot_ne_indirect hta)).symm

theorem Allocated.block_fresh_indirect (h : v.Allocated sb) (hb : v.used b = false)
    (hm : (v.inode m).type ≠ 0) (hind : (v.inode m).indirect ≠ 0) :
    (v.fresh b).block (v.inode m).indirect = v.block (v.inode m).indirect :=
  update_of_ne (h.slot_ne hb hm (s := .indirect) hind) ..

theorem Allocated.slot_fresh (h : v.Allocated sb) (hb : v.used b = false)
    (hm : (v.inode m).type ≠ 0) : (v.fresh b).slot m t = v.slot m t := by
  cases t with
  | addr j => rfl
  | entry e =>
    apply slot_entry_congr
    · rfl
    · exact h.block_fresh_indirect hb hm

theorem Allocated.takes_addr (h : v.Allocated sb) {j : Fin (NDIRECT + 1)}
    (hj : (v.inode n).addrs j = 0) (hb : v.used b = false) (hb0 : b ≠ 0) :
    Takes v (v.takeAddr n j b) n (.addr j) b where
  type := by
    intro m
    by_cases hmn : m = n
    · simp [takeAddr, hmn]
    · simp [takeAddr, hmn]
  slot := by
    intro m t hm
    by_cases hmn : m = n
    · subst hmn
      cases t with
      | addr j' => simp [takeAddr, slot_addr, update_apply]
      | entry e =>
        by_cases hlast : j = Fin.last NDIRECT
        · -- the indirect block is new: all its entries are 0
          subst hlast
          have hind : (v.inode m).indirect = 0 := hj
          simp [takeAddr, slot_entry, hb0, hind, getU32_zero]
        · have hind : ((v.takeAddr m j b).inode m).indirect = (v.inode m).indirect := by
            simp [takeAddr, Dinode.indirect_withAddr_of_ne _ hlast]
          simp only [reduceCtorEq, and_false, if_false]
          exact slot_entry_congr hind (h.block_fresh_indirect hb hm) e
    · have hslot : (v.takeAddr n j b).slot m t = (v.fresh b).slot m t := by simp [takeAddr, slot, hmn]
      rw [hslot, h.slot_fresh hb hm, if_neg (fun heq => hmn heq.1)]
  used := rfl
  zero := update_self ..
  block := fun a ha _ => update_of_ne ha ..

theorem getU32_setU32_entry (data : Block) (w : UInt32) (e e' : Fin NINDIRECT) :
    getU32 (setU32 data (4 * e) w) (4 * e') = if e' = e then w else getU32 data (4 * e') := by
  grind [NINDIRECT, getU32_setU32, getU32_setU32_of_disjoint]

theorem Allocated.takes_entry (h : v.Allocated sb) (hn : (v.inode n).type ≠ 0)
    {e : Fin NINDIRECT} (hind : (v.inode n).indirect ≠ 0) (hb : v.used b = false) :
    Takes v (v.takeEntry n e b) n (.entry e) b where
  type := fun _ => rfl
  slot := by
    intro m t hm
    have hother : m ≠ n → (v.inode m).indirect ≠ (v.inode n).indirect := by
      intro hmn heq
      have hslot : v.slot m .indirect = v.slot n .indirect := heq
      exact hmn (h.slot_inj hn hm (s := .indirect) hind hslot).1
    by_cases hmn : m = n
    · subst hmn
      cases t with
      | addr j => simp [takeEntry, slot_addr]
      | entry e' =>
        have hfresh := h.block_fresh_indirect hb hm hind
        simp [takeEntry, slot_entry, hind, getU32_setU32_entry, hfresh]
    · rw [takeEntry, slot_setBlock (v := v.fresh b) (hother hmn), h.slot_fresh hb hm, if_neg (fun heq => hmn heq.1)]
  used := rfl
  zero := by
    have hne : b ≠ (v.inode n).indirect := (h.slot_ne hb hn (s := .indirect) hind).symm
    exact (block_setBlock_of_ne hne).trans (update_self ..)
  block := by
    intro a ha hai
    rw [takeEntry, block_setBlock_of_ne hai]
    exact update_of_ne ha ..

end Volume
end AsoPracticas.Xv6
