import AsoPracticas.Xv6.Mkfs
import Mathlib.Data.List.GetD

/-!
# MkfsImage — what mkfs has put on the image

While `mkfs` runs there is no map of blocks on the image yet: the blocks below `freeblock` are those in
use.  With that map the image is a volume, and each `iappend` puts bytes at the end of one file of it and
leaves the others as they are.

Each statement says when the program can stop: `Room` is the number of blocks that have to be free for a
program that does not exit for want of them.
-/

namespace AsoPracticas.Xv6.Mkfs

open Lib
open Function (update update_eq_self update_idem update_of_ne update_self)

/-- The superblock with every inode that its inode blocks hold.  There are more than `NINODES` of them, and
`ialloc` takes them too. -/
def areaSb : Superblock := { sb with ninodes := UInt32.ofNat (ninodeblocks * IPB) }

theorem areaSb_geometry : areaSb.Geometry := ⟨by decide, by decide, by decide, by decide⟩

theorem areaSb_dataStart : areaSb.dataStart = 59 := by decide

theorem areaSb_data_iff {b : UInt32} : areaSb.Data b ↔ 59 ≤ b.toNat ∧ b.toNat < 1000 := by
  have hsize : areaSb.size.toNat = 1000 := by decide
  rw [Superblock.Data, areaSb_dataStart, hsize]

theorem sector_eq {b : UInt32} (h : b.toNat < 2 ^ 23) : sector b = b := by
  have hB : (UInt32.ofNat BSIZE).toNat = 512 := rfl
  apply UInt32.toNat_inj.1
  rw [sector, UInt32.toNat_div, UInt32.toNat_mul, hB, Nat.mod_eq_of_lt (by omega)]
  omega

/-! ## The image as a volume -/

/-- The volume on the image, with the blocks below `freeblock` in use. -/
def Image.volume (s : Image) : Volume :=
  { diskVolume areaSb s.disk with used := fun b => decide (b.toNat < s.freeblock.toNat) }

/-- The volume with inode `n` as `iappend` has it in `din`. -/
def Image.view (s : Image) (n : UInt32) (din : Dinode) : Volume := s.volume.setInode n din

def Image.store (s : Image) (b : UInt32) (buf : Block) : Image :=
  { s with disk := update s.disk b buf }

theorem Image.disk_store (s : Image) (b : UInt32) (buf : Block) : (s.store b buf).disk = update s.disk b buf := rfl

/-- The image has its full length and the superblock, and blocks that are not in use are zero. -/
@[grind cases eager]
structure Layout (s : Image) : Prop where
  len : s.len = 1000
  super : s.disk 1 = superBlock sb
  start_le : 59 ≤ s.freeblock.toNat
  le_size : s.freeblock.toNat ≤ 1000
  zero : ∀ b : UInt32, s.freeblock.toNat ≤ b.toNat → s.disk b = fun _ => 0

variable {E : Abort → Prop} {s : Image} {n b : UInt32} {d : Dinode}

theorem Layout.store (h : Layout s) (hone : b ≠ 1) (hb : b.toNat < s.freeblock.toNat) (buf : Block) :
    Layout (s.store b buf) where
  __ := h
  super := (update_of_ne (Ne.symm hone) _ _).trans h.super
  zero := by
    intro c hc
    have hne : c ≠ b := by
      rintro rfl
      exact absurd hb (Nat.not_lt.2 hc)
    exact (update_of_ne hne _ _).trans (h.zero c hc)

theorem Image.used_view : (s.view n d).used b = decide (b.toNat < s.freeblock.toNat) := rfl

theorem Image.inode_view : (s.view n d).inode n = d := update_self ..

theorem Image.inode_view_of_ne {m : UInt32} (hm : m ≠ n) : (s.view n d).inode m = s.volume.inode m :=
  update_of_ne hm ..

theorem Image.field_view {β : Type} (g : Dinode → β) {d' : Dinode} (h : g d' = g d) (m : UInt32) :
    g ((s.view n d').inode m) = g ((s.view n d).inode m) := by
  by_cases hm : m = n
  all_goals grind [Image.inode_view, Image.inode_view_of_ne]

theorem Image.block_view (hb : areaSb.Data b) : (s.view n d).block b = s.disk b := if_pos hb

theorem Image.view_store (hb : areaSb.Data b) (buf : Block) :
    (s.store b buf).view n d = (s.view n d).setBlock b buf := by
  have hdisk : diskVolume areaSb (s.store b buf).disk = _ := diskVolume_setBlock areaSb_geometry hb buf
  have hinode := congrArg Volume.inode hdisk
  have hblock := congrArg Volume.block hdisk
  apply Volume.ext
  · exact congrArg (fun inode => update inode n d) hinode
  · rfl
  · exact hblock

theorem Image.inode_store (hb : areaSb.Data b) (buf : Block) : (s.store b buf).volume.inode = s.volume.inode := by
  have hdisk : diskVolume areaSb (s.store b buf).disk = _ := diskVolume_setBlock areaSb_geometry hb buf
  have hinode := congrArg Volume.inode hdisk
  exact hinode

theorem Image.volume_store_inode (hn : n < areaSb.ninodes) (d : Dinode) :
    (s.store (IBLOCK n sb) (setDinode (s.disk (IBLOCK n sb)) n d)).volume = s.view n d := by
  have hdisk : diskVolume areaSb (s.store _ _).disk = _ := diskVolume_setInode areaSb_geometry hn d
  have hinode := congrArg Volume.inode hdisk
  have hblock := congrArg Volume.block hdisk
  apply Volume.ext
  · exact hinode
  · rfl
  · exact hblock

/-! ## Sectors and inodes -/

theorem rsect_ensures (h : Layout s) (hb : b.toNat < 1000) :
    Ensures (rsect b) s (fun buf s' => buf = s.disk b ∧ s' = s) E := by
  unfold rsect
  rw [ensures_bind, ensures_get, sector_eq (by omega), h.len, if_pos hb]
  exact ⟨rfl, rfl⟩

theorem wsect_ensures (h : Layout s) (hb : b.toNat < 1000) (buf : Block) :
    Ensures (wsect b buf) s (fun _ s' => s' = s.store b buf) E := by
  have hlen : max s.len (b.toNat + 1) = s.len := by
    rw [h.len]
    omega
  unfold wsect
  rw [ensures_modify, sector_eq (by omega), hlen]
  rfl

/-- The next read of sector `b` exits, as it may. -/
def Stuck (E : Abort → Prop) (b : UInt32) (s : Image) : Prop := E .exit ∧ s.len ≤ (sector b).toNat

theorem Stuck.rsect {α : Type} (h : Stuck E b s) {f : Block → Mk α} {Q : α → Image → Prop} :
    Ensures (rsect b >>= f) s Q E := by
  unfold Mkfs.rsect
  rw [ensures_bind, ensures_bind, ensures_get, if_neg (Nat.not_lt.2 h.2)]
  exact h.1

/-- At least `f` blocks are free; or else exiting is one of the stops in `E`. -/
def Room (E : Abort → Prop) (f : Nat) (s : Image) : Prop := E .exit ∨ s.freeblock.toNat + f ≤ 1000

theorem Room.mono {f f' : Nat} (h : Room E f s) (hf : f' ≤ f) : Room E f' s := h.imp_right fun hle => by omega

theorem IBLOCK_lt (hn : n < areaSb.ninodes) : (IBLOCK n sb).toNat < 58 ∧ IBLOCK n sb ≠ 1 := by
  have hlt : 1 < (IBLOCK n sb).toNat ∧ (IBLOCK n sb).toNat < sb.bmapstart.toNat := areaSb_geometry.IBLOCK_lt hn
  have hmap : sb.bmapstart.toNat = 58 := by decide
  refine ⟨hmap ▸ hlt.2, ?_⟩
  intro heq
  rw [heq] at hlt
  exact absurd hlt.1 (by decide)

theorem rinode_ensures (h : Layout s) (hn : n < areaSb.ninodes) :
    Ensures (rinode n) s (fun din s' => din = s.volume.inode n ∧ s' = s) E := by
  have hlt := IBLOCK_lt hn
  refine (rsect_ensures h (by omega)).bind ?_
  rintro _ _ ⟨rfl, rfl⟩
  exact ⟨(if_pos hn).symm, rfl⟩

theorem winode_ensures (h : Layout s) (hn : n < areaSb.ninodes) (d : Dinode) :
    Ensures (winode n d) s (fun _ s' => Layout s' ∧ s'.volume = s.view n d ∧
      s'.freeinode = s.freeinode ∧ s'.freeblock = s.freeblock) E := by
  have hlt := IBLOCK_lt hn
  have hstart := h.start_le
  refine (rsect_ensures h (by omega)).bind ?_
  rintro _ _ ⟨rfl, rfl⟩
  refine (wsect_ensures h (by omega) _).mono ?_
  rintro _ _ rfl
  exact ⟨h.store hlt.2 (by omega) _, Image.volume_store_inode hn d, rfl, rfl⟩

/-! ## New blocks -/

theorem toNat_succ (h : b.toNat < 1000) : (b + 1).toNat = b.toNat + 1 := by
  have hone : (1 : UInt32).toNat = 1 := rfl
  rw [UInt32.toNat_add, hone, Nat.mod_eq_of_lt (by omega)]

theorem Layout.take (h : Layout s) (hlt : s.freeblock.toNat < 1000) :
    Layout { s with freeblock := s.freeblock + 1 } where
  __ := h
  start_le := by
    have hstart := h.start_le
    simp only [toNat_succ hlt]
    omega
  le_size := by
    simp only [toNat_succ hlt]
    omega
  zero := by
    grind [toNat_succ]

theorem Layout.data_freeblock (h : Layout s) (hlt : s.freeblock.toNat < 1000) : areaSb.Data s.freeblock :=
  areaSb_data_iff.2 ⟨h.start_le, hlt⟩

theorem Layout.view_take (h : Layout s) (hlt : s.freeblock.toNat < 1000) (n : UInt32) (d : Dinode) :
    ({ s with freeblock := s.freeblock + 1 } : Image).view n d = (s.view n d).fresh s.freeblock := by
  have hzero : (s.view n d).block s.freeblock = fun _ => 0 := by
    rw [Image.block_view (h.data_freeblock hlt)]
    exact h.zero _ le_rfl
  apply Volume.ext
  · rfl
  · funext c
    by_cases hc : c = s.freeblock
    · subst hc
      simp only [Volume.used_fresh, update_self, Image.used_view, toNat_succ hlt]
      exact decide_eq_true (Nat.lt_succ_self _)
    · have hne : c.toNat ≠ s.freeblock.toNat := fun heq => hc (UInt32.toNat_inj.1 heq)
      simp only [Volume.used_fresh, update_of_ne hc, Image.used_view, toNat_succ hlt]
      exact decide_eq_decide.2 (by omega)
  · rw [Volume.block_fresh, ← hzero, update_eq_self]
    rfl

theorem takeBlock_ensures :
    Ensures takeBlock s (fun b s' => b = s.freeblock ∧ s' = { s with freeblock := s.freeblock + 1 }) E :=
  ⟨rfl, rfl⟩

theorem Layout.stuck (h : Layout s) (hroom : Room E 1 s) (hge : ¬ s.freeblock.toNat < 1000) {s' : Image}
    (hlen : s'.len = s.len) : Stuck E s.freeblock s' := by
  grind [Room, Stuck, sector_eq]

/-! ## The slots of an inode -/

/-- From `v` to `v'` slot `t` of inode `n` has been looked up: it is block `a`, which is new if the slot
was empty. -/
@[grind cases eager]
structure Took (v v' : Volume) (n : UInt32) (t : Slot) (a : UInt32) : Prop where
  slot : v'.slot n t = a
  ne_zero : a ≠ 0
  step : (v.slot n t ≠ 0 ∧ v' = v) ∨ (v.slot n t = 0 ∧ v.used a = false ∧ areaSb.Data a ∧ v.Takes v' n t a)
  others : ∀ m, m ≠ n → v'.inode m = v.inode m
  din : ∃ addrs, v'.inode n = { v.inode n with addrs := addrs }

namespace Took

variable {v v' : Volume} {t : Slot} {a m : UInt32}

theorem of_ne (h : v.slot n t ≠ 0) : Took v v n t (v.slot n t) where
  slot := rfl
  ne_zero := h
  step := .inl ⟨h, rfl⟩
  others := fun _ _ => rfl
  din := ⟨_, rfl⟩

theorem type (h : Took v v' n t a) (m : UInt32) : (v'.inode m).type = (v.inode m).type := by
  by_cases hm : m = n
  all_goals grind

theorem allocated (h : Took v v' n t a) (hv : v.Allocated areaSb) (hn : (v.inode n).type ≠ 0) :
    v'.Allocated areaSb := by
  rcases h.step with ⟨-, rfl⟩ | ⟨hzero, hused, hdata, htakes⟩
  · exact hv
  · exact htakes.allocated hv hn hzero hused hdata h.ne_zero

theorem fileBlock (h : Took v v' n t a) (hv : v.Allocated areaSb) (hn : (v.inode n).type ≠ 0)
    (hm : (v.inode m).type ≠ 0) (c : Nat) :
    v'.fileBlock m c = if m = n ∧ fileSlot c = some t then some ((v.fileBlock n c).getD fun _ => 0)
      else v.fileBlock m c := by
  rcases h.step with ⟨ht, rfl⟩ | ⟨ht, hused, -, htakes⟩
  · grind [Volume.fileBlock_of_slot_ne]
  · rw [htakes.fileBlock hv hn hm hused h.ne_zero]
    grind [Volume.fileBlock_eq_none_iff]

theorem indirect_eq (h : Took v v' n t a) (hn : (v.inode n).type ≠ 0) (ht : t ≠ .indirect) :
    (v'.inode n).indirect = (v.inode n).indirect := by
  rcases h.step with ⟨-, rfl⟩ | ⟨-, -, -, htakes⟩
  · rfl
  · have hslot := htakes.slot n .indirect hn
    rw [if_neg fun heq => ht heq.2.symm] at hslot
    exact hslot

end Took

theorem iappendAddr_ensures (h : Layout s) (hv : (s.view n d).Allocated areaSb) (j : Fin (NDIRECT + 1))
    (hroom : Room E (if d.addrs j = 0 then 1 else 0) s) :
    Ensures (iappendAddr d j) s (fun d' s' => Stuck E (d'.addrs j) s' ∨
      (Layout s' ∧ s'.freeinode = s.freeinode ∧ s'.volume.inode = s.volume.inode ∧
        s'.freeblock.toNat = s.freeblock.toNat + (if d.addrs j = 0 then 1 else 0) ∧
        Took (s.view n d) (s'.view n d') n (.addr j) (d'.addrs j))) E := by
  unfold iappendAddr
  split
  · rename_i hzero
    rw [if_pos hzero] at hroom
    refine takeBlock_ensures.bind ?_
    rintro _ _ ⟨rfl, rfl⟩
    have haddr : (d.withAddr j s.freeblock).addrs j = s.freeblock := update_self ..
    rw [ensures_pure, haddr]
    by_cases hlt : s.freeblock.toNat < 1000
    · refine .inr ⟨h.take hlt, rfl, rfl, toNat_succ hlt, ?_⟩
      have hdata := h.data_freeblock hlt
      have hne := areaSb_geometry.data_ne_zero hdata
      have hused : (s.view n d).used s.freeblock = false := decide_eq_false (lt_irrefl _)
      have hview : ({ s with freeblock := s.freeblock + 1 } : Image).view n (d.withAddr j s.freeblock) =
          (s.view n d).takeAddr n j s.freeblock := by
        rw [Volume.takeAddr, ← h.view_take hlt, Image.inode_view]
        apply Volume.ext
        · exact (update_idem ..).symm
        · rfl
        · rfl
      have hslot : (s.view n d).slot n (.addr j) = 0 := by rw [Volume.slot_addr, Image.inode_view, hzero]
      rw [hview]
      have htakes := hv.takes_addr (by rw [Image.inode_view, hzero]) hused hne
      refine ⟨?_, hne, .inr ⟨hslot, hused, hdata, htakes⟩, ?_, ?_⟩
      · grind [Volume.slot_addr, Volume.inode_setInode, Image.inode_view]
      · intro m hm
        exact update_of_ne hm ..
      · refine ⟨(d.withAddr j s.freeblock).addrs, ?_⟩
        rw [Volume.takeAddr, Volume.inode_setInode, update_self, Image.inode_view]
        rfl
    · exact .inl (h.stuck hroom hlt rfl)
  · rename_i hne
    have hslot : (s.view n d).slot n (.addr j) = d.addrs j := by rw [Volume.slot_addr, Image.inode_view]
    refine .inr ⟨h, rfl, rfl, rfl, ?_⟩
    rw [← hslot] at hne ⊢
    exact Took.of_ne hne

theorem Image.slot_view_lt (h : (s.view n d).Allocated areaSb) (hn : d.type ≠ 0) {t : Slot}
    (ht : (s.view n d).slot n t ≠ 0) :
    areaSb.Data ((s.view n d).slot n t) ∧ ((s.view n d).slot n t).toNat < s.freeblock.toNat := by
  have hdata := h.data_slot (by rwa [Image.inode_view]) ht
  exact ⟨hdata.1, of_decide_eq_true hdata.2⟩

theorem iappendEntry_ensures (h : Layout s) (hv : (s.view n d).Allocated areaSb) (hn : d.type ≠ 0)
    (hind : d.indirect ≠ 0) (e : Fin NINDIRECT)
    (hroom : Room E (if (s.view n d).slot n (.entry e) = 0 then 1 else 0) s) :
    Ensures (iappendEntry d.indirect e) s (fun a s' => Stuck E a s' ∨
      (Layout s' ∧ s'.freeinode = s.freeinode ∧ s'.volume.inode = s.volume.inode ∧
        s'.freeblock.toNat = s.freeblock.toNat + (if (s.view n d).slot n (.entry e) = 0 then 1 else 0) ∧
        Took (s.view n d) (s'.view n d) n (.entry e) a)) E := by
  have hindirect : (s.view n d).slot n .indirect = d.indirect := by
    rw [Volume.slot_indirect, Image.inode_view]
  obtain ⟨hdata, hlt⟩ := Image.slot_view_lt (t := .indirect) hv hn (by rwa [hindirect])
  rw [hindirect] at hdata hlt
  have hsize := areaSb_data_iff.1 hdata
  have hslot : (s.view n d).slot n (.entry e) = getU32 (s.disk d.indirect) (4 * e) := by
    rw [Volume.slot_entry_of_ne (by rwa [Image.inode_view]), Image.inode_view, Image.block_view hdata]
  refine (rsect_ensures h hsize.2).bind ?_
  rintro _ s ⟨rfl, rfl⟩
  rw [← hslot]
  split
  · rename_i hzero
    rw [if_pos hzero] at hroom
    refine takeBlock_ensures.bind ?_
    rintro _ _ ⟨rfl, rfl⟩
    by_cases hfree : s.freeblock.toNat < 1000
    · have hl := h.take hfree
      have hview : (Image.store { s with freeblock := s.freeblock + 1 } d.indirect
          (setU32 (s.disk d.indirect) (4 * e) s.freeblock)).view n d =
          (s.view n d).takeEntry n e s.freeblock := by
        have hne : d.indirect ≠ s.freeblock := by
          intro heq
          rw [heq] at hlt
          exact lt_irrefl _ hlt
        rw [Image.view_store hdata, h.view_take hfree, Volume.takeEntry, Image.inode_view, Volume.block_fresh,
          update_of_ne hne, Image.block_view hdata]
      have hused : (s.view n d).used s.freeblock = false := decide_eq_false (lt_irrefl _)
      have htakes := hv.takes_entry (n := n) (e := e) (by rwa [Image.inode_view]) (by rwa [Image.inode_view]) hused
      have hdata' := h.data_freeblock hfree
      refine (wsect_ensures hl hsize.2 _).bind ?_
      rintro _ _ rfl
      refine .inr ⟨hl.store (areaSb_geometry.data_ne_one hdata) ?_ _, rfl, Image.inode_store hdata _,
        toNat_succ hfree, ?_⟩
      · simp only [toNat_succ hfree]
        omega
      · rw [hview]
        refine ⟨?_, areaSb_geometry.data_ne_zero hdata', .inr ⟨hzero, hused, hdata', htakes⟩, fun _ _ => rfl, _, rfl⟩
        grind [Image.inode_view]
    · -- the number of a block that is not there goes into the indirect block, and is read next
      have hlen : max s.len (d.indirect.toNat + 1) = s.len := by
        rw [h.len]
        omega
      unfold wsect
      rw [ensures_bind, ensures_modify, sector_eq (by omega), hlen]
      exact .inl (h.stuck hroom hfree rfl)
  · rename_i hne
    exact .inr ⟨h, rfl, rfl, rfl, Took.of_ne hne⟩

/-! ## The blocks of a file -/

/-- From `v` to `v'` block `c` of inode `n` has been looked up: it is block `a`, zeroed if it is new; no
other block of a file changes. -/
@[grind cases eager]
structure Opened (v v' : Volume) (n : UInt32) (c : Nat) (a : UInt32) : Prop where
  allocated : v'.Allocated areaSb
  slot : ∃ t, fileSlot c = some t ∧ v'.slot n t = a
  ne_zero : a ≠ 0
  block : ∀ m c', (v.inode m).type ≠ 0 → v'.fileBlock m c' =
    if m = n ∧ c' = c then some ((v.fileBlock n c).getD fun _ => 0) else v.fileBlock m c'
  indirect : (v'.inode n).indirect = 0 ↔ (v.inode n).indirect = 0 ∧ c < NDIRECT
  others : ∀ m, m ≠ n → v'.inode m = v.inode m
  din : ∃ addrs, v'.inode n = { v.inode n with addrs := addrs }

section Opening

variable {v v1 v' : Volume} {t : Slot} {a : UInt32} {c : Nat}

theorem Took.opened (h : Took v v' n t a) (hv : v.Allocated areaSb) (hn : (v.inode n).type ≠ 0)
    (hc : fileSlot c = some t) (hind : NDIRECT ≤ c → (v.inode n).indirect ≠ 0) : Opened v v' n c a where
  __ := h
  allocated := h.allocated hv hn
  slot := ⟨t, hc, h.slot⟩
  block := by
    intro m c' hm
    have hiff : fileSlot c' = some t ↔ c' = c := by grind [Volume.fileSlot_inj]
    rw [h.fileBlock hv hn hm]
    simp only [hiff]
    split
    · rename_i heq
      rw [heq.2]
    · rfl
  indirect := by
    rw [h.indirect_eq hn (Volume.fileSlot_ne_indirect hc)]
    grind

theorem Took.opened_entry {ind : UInt32} {e : Fin NINDIRECT} (h : Took v v1 n .indirect ind)
    (h' : Took v1 v' n (.entry e) a) (hv : v.Allocated areaSb) (hn : (v.inode n).type ≠ 0)
    (hc : fileSlot c = some (.entry e)) : Opened v v' n c a := by
  have hn1 : (v1.inode n).type ≠ 0 := by rwa [h.type]
  have hne : (v1.inode n).indirect ≠ 0 := by
    have hslot : (v1.inode n).indirect = ind := h.slot
    rw [hslot]
    exact h.ne_zero
  have hopened := h'.opened (h.allocated hv hn) hn1 hc fun _ => hne
  -- the new indirect block is no block of a file
  have hblock : ∀ m c', (v.inode m).type ≠ 0 → v1.fileBlock m c' = v.fileBlock m c' := by
    intro m c' hm
    rw [h.fileBlock hv hn hm, if_neg]
    exact fun heq => Volume.fileSlot_ne_indirect heq.2 rfl
  have hlarge : ¬ c < NDIRECT := by
    intro hlt
    rw [Volume.fileSlot_direct hlt] at hc
    cases hc
  obtain ⟨addrs, hdin⟩ := h.din
  obtain ⟨addrs', hdin'⟩ := h'.din
  refine ⟨hopened.allocated, hopened.slot, hopened.ne_zero, ?_, ?_, ?_, addrs', by rw [hdin', hdin]⟩
  all_goals grind

end Opening

theorem Stuck.entry (h : Stuck E b s) (j : Nat) {Q : UInt32 → Image → Prop} : Ensures (iappendEntry b j) s Q E :=
  h.rsect

theorem iappendBlock_ensures (h : Layout s) (hv : (s.view n d).Allocated areaSb) (hn : d.type ≠ 0) {c : Nat}
    (hc : c < MAXFILE) (hroom : Room E ((s.view n d).missing n c) s) :
    Ensures (iappendBlock d c) s (fun r s' => Stuck E r.1 s' ∨
      (Layout s' ∧ s'.freeinode = s.freeinode ∧ s'.volume.inode = s.volume.inode ∧
        s'.freeblock.toNat = s.freeblock.toNat + (s.view n d).missing n c ∧
        Opened (s.view n d) (s'.view n r.2) n c r.1)) E := by
  have htype : ((s.view n d).inode n).type ≠ 0 := by rwa [Image.inode_view]
  unfold iappendBlock
  split
  · rename_i hlt
    have hslot := Volume.fileSlot_direct hlt
    have hmissing : (s.view n d).missing n c = if d.addrs ⟨c, Nat.lt_succ_of_lt hlt⟩ = 0 then 1 else 0 := by
      rw [Volume.missing, if_neg fun hle => Nat.not_le.2 hlt hle.1, Nat.zero_add]
      simp only [Volume.fileBlock_eq_none_iff hslot, Volume.slot_addr, Image.inode_view]
    rw [hmissing] at hroom ⊢
    refine (iappendAddr_ensures h hv _ hroom).bind ?_
    rintro d' s' (hstuck | ⟨hl, hinode, hvol, hfree, htook⟩)
    · exact .inl hstuck
    · exact .inr ⟨hl, hinode, hvol, hfree, htook.opened hv htype hslot fun hle => absurd hlt (Nat.not_lt.2 hle)⟩
  · rename_i hge
    have he : c - NDIRECT < NINDIRECT := by
      have hmax : MAXFILE = NDIRECT + NINDIRECT := rfl
      omega
    have hslot := Volume.fileSlot_entry hge he
    have hind : ∀ d : Dinode, d.addrs (Fin.last NDIRECT) = d.indirect := fun _ => rfl
    have hmissing : (s.view n d).missing n c = (if d.indirect = 0 then 1 else 0) +
        if (s.view n d).slot n (.entry ⟨c - NDIRECT, he⟩) = 0 then 1 else 0 := by
      rw [Volume.missing]
      simp only [Volume.fileBlock_eq_none_iff hslot, Image.inode_view, Nat.not_lt.1 hge, true_and]
    rw [hmissing] at hroom ⊢
    refine (iappendAddr_ensures h hv (Fin.last NDIRECT) ?_).bind ?_
    · rw [hind]
      exact hroom.mono (Nat.le_add_right ..)
    · rintro d' s' (hstuck | ⟨hl, hinode, hvol, hfree, htook⟩)
      · rw [ensures_bind]
        exact hstuck.entry _
      rw [hind] at hfree htook
      have hv' := htook.allocated hv htype
      have hn' : d'.type ≠ 0 := by grind [Image.inode_view]
      have hne : d'.indirect ≠ 0 := htook.ne_zero
      -- the entry is empty if it was, and in a new indirect block
      have hentry : (s'.view n d').slot n (.entry ⟨c - NDIRECT, he⟩) =
          (s.view n d).slot n (.entry ⟨c - NDIRECT, he⟩) := by
        rcases htook.step with ⟨-, heq⟩ | ⟨-, -, -, htakes⟩
        · rw [heq]
        · rw [htakes.slot n _ htype, if_neg fun heq => by cases heq.2]
      refine (iappendEntry_ensures hl hv' hn' hne ⟨c - NDIRECT, he⟩ ?_).bind ?_
      · rw [hentry]
        refine hroom.imp_right fun hle => ?_
        omega
      · rintro a s'' (hstuck | ⟨hl', hinode', hvol', hfree', htook'⟩)
        · exact .inl hstuck
        · refine .inr ⟨hl', hinode'.trans hinode, hvol'.trans hvol, ?_, ?_⟩
          · rw [hfree', hentry, hfree, Nat.add_assoc]
          · exact Took.opened_entry htook htook' hv htype hslot

/-! ## Bytes at the end of a file -/

/-- The blocks of a file with `size` bytes, with the indirect block. -/
def blocksFor (size : Nat) : Nat :=
  (size + (BSIZE - 1)) / BSIZE + if NDIRECT * BSIZE < size then 1 else 0

/-- File `n` has the blocks for `size` bytes, and no others. -/
@[grind cases eager]
structure Filled (v : Volume) (n : UInt32) (size : Nat) : Prop where
  blocks : ∀ c, c < MAXFILE → (v.fileBlock n c = none ↔ size ≤ c * BSIZE)
  indirect : (v.inode n).indirect = 0 ↔ size ≤ NDIRECT * BSIZE

theorem blocksFor_mono {x y : Nat} (h : x ≤ y) : blocksFor x ≤ blocksFor y := by
  have hB : BSIZE = 512 := rfl
  grind [blocksFor, NDIRECT]

section Appending

variable {v v1 v' : Volume} {a m : UInt32} {c off k : Nat} {p q : List UInt8}

theorem Filled.missing (h : Filled v n off) (hoff : off / BSIZE < MAXFILE) (hk : 0 < k)
    (hin : off % BSIZE + k ≤ BSIZE) : blocksFor (off + k) = blocksFor off + v.missing n (off / BSIZE) := by
  have hB : BSIZE = 512 := rfl
  have hN : NDIRECT = 12 := rfl
  have hblocks := h.blocks (off / BSIZE) hoff
  have hindirect := h.indirect
  simp only [hB, hN] at hblocks hindirect hin
  simp only [Volume.missing, blocksFor, hB, hN, hblocks, hindirect]
  grind

/-- From `v` to `v'` file `n` has got the bytes `p` at offset `off`; its other bytes and all other files
are as they were. -/
@[grind cases eager]
structure Extends (v v' : Volume) (n : UInt32) (off : Nat) (p : List UInt8) : Prop where
  byte : ∀ i, v'.byte n i = if off ≤ i ∧ i < off + p.length then p.getD (i - off) 0 else v.byte n i
  others : ∀ m, m ≠ n → v'.inode m = v.inode m
  din : ∃ addrs, v'.inode n = { v.inode n with addrs := addrs }
  fileBlock : ∀ m, m ≠ n → (v.inode m).type ≠ 0 → ∀ c, v'.fileBlock m c = v.fileBlock m c

theorem Extends.refl (v : Volume) (n : UInt32) (off : Nat) : Extends v v n off [] where
  byte := by
    intro i
    rw [if_neg]
    simp only [List.length_nil]
    omega
  others := fun _ _ => rfl
  din := ⟨_, rfl⟩
  fileBlock := fun _ _ _ _ => rfl

theorem Extends.trans (h : Extends v v1 n off p) (h' : Extends v1 v' n (off + p.length) q) :
    Extends v v' n off (p ++ q) where
  byte := by
    grind
  others := fun m hm => (h'.others m hm).trans (h.others m hm)
  din := by
    grind
  fileBlock := by
    grind

theorem Opened.extends (h : Opened v v1 n (off / BSIZE) a) (hn : (v.inode n).type ≠ 0)
    (hin : off % BSIZE + q.length ≤ BSIZE) {g : Block}
    (hg : g = patch (v1.block a) (off % BSIZE) q.length fun j => q.getD j 0) :
    (v1.setBlock a g).Allocated areaSb ∧ Extends v (v1.setBlock a g) n off q := by
  obtain ⟨t, ht, rfl⟩ := h.slot
  obtain ⟨addrs, hdin⟩ := h.din
  have hn1 : (v1.inode n).type ≠ 0 := by
    rw [hdin]
    exact hn
  have hold : v1.block (v1.slot n t) = (v.fileBlock n (off / BSIZE)).getD fun _ => 0 := by
    grind [Volume.fileBlock_of_slot_ne]
  have hfile : ∀ m c, (v.inode m).type ≠ 0 → (v1.setBlock (v1.slot n t) g).fileBlock m c =
      if m = n ∧ c = off / BSIZE then some g else v.fileBlock m c := by
    intro m c hm
    have hm1 : (v1.inode m).type ≠ 0 := by grind
    rw [h.allocated.fileBlock_setBlock hn1 hm1 ht h.ne_zero]
    split
    · rfl
    · rename_i hne
      rw [h.block m c hm, if_neg hne]
  have hpatch : ∀ c, (v1.setBlock (v1.slot n t) g).fileBlock n c = if c = off / BSIZE then
      some (patch ((v.fileBlock n (off / BSIZE)).getD fun _ => 0) (off % BSIZE) q.length fun j => q.getD j 0)
      else v.fileBlock n c := by
    intro c
    rw [hfile n c hn, hg, hold]
    simp only [true_and]
  refine ⟨h.allocated.setBlock hn1 h.ne_zero (Volume.fileSlot_ne_indirect ht) g, ?_, h.others, ⟨addrs, hdin⟩, ?_⟩
  · exact Volume.byte_patch hin hpatch
  · intro m hm htype c
    rw [hfile m c htype, if_neg fun heq => hm heq.1]

theorem Opened.filled (h : Opened v v1 n (off / BSIZE) a) (hn : (v.inode n).type ≠ 0) (hf : Filled v n off)
    (hk : 0 < k) (hin : off % BSIZE + k ≤ BSIZE) (g : Block) : Filled (v1.setBlock a g) n (off + k) := by
  obtain ⟨t, ht, rfl⟩ := h.slot
  obtain ⟨addrs, hdin⟩ := h.din
  have hB : BSIZE = 512 := rfl
  have hn1 : (v1.inode n).type ≠ 0 := by
    rw [hdin]
    exact hn
  constructor
  · intro c hc
    rw [h.allocated.fileBlock_setBlock hn1 hn1 ht h.ne_zero]
    grind
  grind [BSIZE, Volume.setBlock]

end Appending

/-! ## iappend -/

theorem patch_congr {g : Block} {off len : Nat} {src src' : Nat → UInt8} (h : ∀ j < len, src j = src' j) :
    patch g off len src = patch g off len src' := by
  funext i
  unfold patch
  split
  · exact h _ (by omega)
  · rfl

/-- What the loop of `iappend` has done for the bytes `p`. -/
@[grind cases eager]
structure Appended (s s' : Image) (n : UInt32) (d d' : Dinode) (off : Nat) (p : List UInt8) : Prop where
  layout : Layout s'
  freeinode : s'.freeinode = s.freeinode
  inode : s'.volume.inode = s.volume.inode
  freeblock : s'.freeblock.toNat = s.freeblock.toNat + (blocksFor (off + p.length) - blocksFor off)
  allocated : (s'.view n d').Allocated areaSb
  filled : Filled (s'.view n d') n (off + p.length)
  extended : Extends (s.view n d) (s'.view n d') n off p
  small : off + p.length ≤ MAXFILE * BSIZE

theorem Appended.trans {s1 s' : Image} {d1 d' : Dinode} {off : Nat} {p q : List UInt8}
    (h : Appended s s1 n d d1 off p) (h' : Appended s1 s' n d1 d' (off + p.length) q) :
    Appended s s' n d d' off (p ++ q) := by
  have hlen : off + (p ++ q).length = off + p.length + q.length := by rw [List.length_append, Nat.add_assoc]
  have hmono := blocksFor_mono (Nat.le_add_right off p.length)
  have hmono' := blocksFor_mono (Nat.le_add_right (off + p.length) q.length)
  refine ⟨h'.layout, h'.freeinode.trans h.freeinode, h'.inode.trans h.inode, ?_, h'.allocated, ?_,
    h.extended.trans h'.extended, ?_⟩
  · rw [h'.freeblock, h.freeblock, hlen]
    omega
  · rw [hlen]
    exact h'.filled
  · rw [hlen]
    exact h'.small

theorem iappendRound_ensures (h : Layout s) (hv : (s.view n d).Allocated areaSb) (hn : d.type ≠ 0) {off : Nat}
    (hf : Filled (s.view n d) n off) (hoff : off / BSIZE < MAXFILE) {q : List UInt8} (hq : 0 < q.length)
    (hin : off % BSIZE + q.length ≤ BSIZE)
    (hroom : Room E (blocksFor (off + q.length) - blocksFor off) s) {α : Type}
    {f : Dinode → Mk α} {Q : α → Image → Prop}
    (hrest : ∀ d' s', Appended s s' n d d' off q → Ensures (f d') s' Q E) :
    Ensures (do
      let r ← iappendBlock d (off / BSIZE)
      let buf ← rsect r.1
      wsect r.1 (patch buf (off % BSIZE) q.length fun j => q.getD j 0)
      f r.2) s Q E := by
  have htype : ((s.view n d).inode n).type ≠ 0 := by rwa [Image.inode_view]
  have hmissing := hf.missing hoff hq hin
  refine (iappendBlock_ensures h hv hn hoff ?_).bind ?_
  · exact hroom.mono (by omega)
  rintro ⟨x, d'⟩ s' (hstuck | ⟨hl, hinode, hvol, hfree, hopened⟩)
  · exact hstuck.rsect
  obtain ⟨t, ht, hslot⟩ := hopened.slot
  have hn' : d'.type ≠ 0 := by grind [Image.inode_view]
  obtain ⟨hdata, hlt⟩ := Image.slot_view_lt (t := t) hopened.allocated hn' (by
    rw [hslot]
    exact hopened.ne_zero)
  rw [hslot] at hdata hlt
  have hsize := areaSb_data_iff.1 hdata
  refine (rsect_ensures hl hsize.2).bind ?_
  rintro _ s' ⟨rfl, rfl⟩
  refine (wsect_ensures hl hsize.2 _).bind ?_
  rintro _ _ rfl
  apply hrest
  have hview := Image.view_store (s := s') (n := n) (d := d') hdata
    (patch (s'.disk x) (off % BSIZE) q.length fun j => q.getD j 0)
  obtain ⟨hallocated, hextends⟩ := hopened.extends htype hin (g := patch (s'.disk x) (off % BSIZE) q.length
    fun j => q.getD j 0) (by rw [Image.block_view hdata])
  refine ⟨hl.store (areaSb_geometry.data_ne_one hdata) hlt _, hinode, ?_, ?_, ?_, ?_, ?_, ?_⟩
  · rw [Image.inode_store hdata, hvol]
  · have hfree' : (s'.store x (patch (s'.disk x) (off % BSIZE) q.length fun j => q.getD j 0)).freeblock =
        s'.freeblock := rfl
    rw [hfree', hfree]
    omega
  · rw [hview]
    exact hallocated
  · rw [hview]
    exact hopened.filled htype hf hq hin _
  · rw [hview]
    exact hextends
  · have hB : BSIZE = 512 := rfl
    have hM : MAXFILE = 140 := rfl
    simp only [hB, hM] at hin hoff ⊢
    omega

theorem iappendLoop_ensures (hn : d.type ≠ 0) (fuel : Nat) :
    ∀ (p : List UInt8) (d' : Dinode) (off : Nat) (s : Image), p.length ≤ fuel → d'.type = d.type →
      Layout s → (s.view n d').Allocated areaSb → Filled (s.view n d') n off → off ≤ MAXFILE * BSIZE →
      (E .assertion ∨ off + p.length ≤ MAXFILE * BSIZE) →
      Room E (blocksFor (off + p.length) - blocksFor off) s →
      Ensures (iappendLoop fuel p d' off) s (fun r s' => r.2 = off + p.length ∧ Appended s s' n d' r.1 off p) E := by
  have hB : BSIZE = 512 := rfl
  have hM : MAXFILE = 140 := rfl
  -- nothing is left to append
  have hdone : ∀ (d' : Dinode) (off : Nat) (s : Image), Layout s → (s.view n d').Allocated areaSb →
      Filled (s.view n d') n off → off ≤ MAXFILE * BSIZE → Appended s s n d' d' off [] := by
    intro d' off s h hv hf hoff
    refine ⟨h, rfl, rfl, ?_, hv, hf, Extends.refl .., hoff⟩
    rw [List.length_nil, Nat.add_zero, Nat.sub_self, Nat.add_zero]
  induction fuel with
  | zero =>
    intro p d' off s hlen _ h hv hf hoff _ _
    obtain rfl : p = [] := List.eq_nil_of_length_eq_zero (Nat.le_zero.1 hlen)
    exact ⟨rfl, hdone d' off s h hv hf hoff⟩
  | succ fuel ih =>
    intro p d' off s hlen htype h hv hf hoff hmax hroom
    unfold iappendLoop
    by_cases hp : p.length > 0
    · rw [if_pos hp]
      by_cases hfbn : off / BSIZE < MAXFILE
      · rw [if_pos hfbn]
        generalize hk : min p.length ((off / BSIZE + 1) * BSIZE - off) = k
        have hqlen : (p.take k).length = k := by
          rw [List.length_take]
          omega
        have hpatch : ∀ buf : Block, patch buf (off - off / BSIZE * BSIZE) k (fun j => p.getD j 0) =
            patch buf (off % BSIZE) (p.take k).length fun j => (p.take k).getD j 0 := by
          intro buf
          have hmod : off - off / BSIZE * BSIZE = off % BSIZE := by
            simp only [hB]
            omega
          rw [hmod, hqlen]
          apply patch_congr
          intro j hj
          simp [List.getD_eq_getElem?_getD, hj]
        simp only [hpatch]
        have hmono := blocksFor_mono (show off + k ≤ off + p.length by omega)
        simp only [hB] at hk hfbn
        refine iappendRound_ensures (q := p.take k) (f := fun din => iappendLoop fuel (p.drop k) din (off + k))
          h hv (by rwa [htype]) hf hfbn (by omega) ?_ ?_ ?_
        · simp only [hB, hqlen]
          omega
        · refine hroom.mono ?_
          rw [hqlen]
          omega
        · intro d1 s1 happ
          have htype1 : d1.type = d.type := by
            obtain ⟨addrs, hdin⟩ := happ.extended.din
            rw [Image.inode_view, Image.inode_view] at hdin
            rw [hdin]
            exact htype
          have hsum : off + k + (p.drop k).length = off + p.length := by
            rw [List.length_drop]
            omega
          have hfree := happ.freeblock
          have hfilled := happ.filled
          have hsmall := happ.small
          rw [hqlen] at hfree hfilled hsmall
          refine (ih (p.drop k) d1 (off + k) s1 ?_ htype1 happ.layout happ.allocated hfilled hsmall ?_ ?_).mono ?_
          · rw [List.length_drop]
            omega
          · rw [hsum]
            exact hmax
          · rw [hsum]
            refine hroom.imp_right fun hle => ?_
            have hmono' := blocksFor_mono (Nat.le_add_right off k)
            omega
          · rintro r s' ⟨hr, happ'⟩
            rw [← hqlen] at happ'
            have hall := happ.trans happ'
            rw [hqlen, List.take_append_drop] at hall
            exact ⟨hr.trans hsum, hall⟩
      · rw [if_neg hfbn]
        refine hmax.resolve_right ?_
        simp only [hB, hM] at hfbn ⊢
        omega
    · rw [if_neg hp]
      obtain rfl : p = [] := List.eq_nil_of_length_eq_zero (by omega)
      exact ⟨rfl, hdone d' off s h hv hf hoff⟩

/-- Inode `n` is a file of the given type that holds `bytes`, with one link. -/
@[grind cases eager]
structure File (v : Volume) (n : UInt32) (type : UInt16) (bytes : List UInt8) : Prop where
  type : (v.inode n).type = type
  nlink : (v.inode n).nlink = 1
  size : (v.inode n).size.toNat = bytes.length
  filled : Filled v n bytes.length
  byte : ∀ i, i < bytes.length → v.byte n i = bytes.getD i 0
  small : bytes.length ≤ MAXFILE * BSIZE

theorem File.congr {v v' : Volume} {type : UInt16} {bytes : List UInt8} (h : File v n type bytes)
    (hinode : v'.inode n = v.inode n) (hblock : ∀ c, v'.fileBlock n c = v.fileBlock n c) :
    File v' n type bytes where
  type := by rw [hinode, h.type]
  nlink := by rw [hinode, h.nlink]
  size := by rw [hinode, h.size]
  filled := ⟨fun c hc => by rw [hblock, h.filled.blocks c hc], by rw [hinode, h.filled.indirect]⟩
  byte := fun i hi => by rw [Volume.byte_congr hblock, h.byte i hi]
  small := h.small

/-- From `s` to `s'` only file `n` has changed; it needed `f` new blocks. -/
structure Grew (s s' : Image) (n : UInt32) (f : Nat) : Prop where
  layout : Layout s'
  allocated : s'.volume.Allocated areaSb
  freeinode : s'.freeinode = s.freeinode
  freeblock : s'.freeblock.toNat = s.freeblock.toNat + f
  inode : ∀ m, m ≠ n → s'.volume.inode m = s.volume.inode m
  others : ∀ m, m ≠ n → ∀ type bytes, type ≠ 0 → File s.volume m type bytes → File s'.volume m type bytes

theorem Grew.trans {s1 s' : Image} {f f' : Nat} (h : Grew s s1 n f) (h' : Grew s1 s' n f') : Grew s s' n (f + f') where
  layout := h'.layout
  allocated := h'.allocated
  freeinode := h'.freeinode.trans h.freeinode
  freeblock := by rw [h'.freeblock, h.freeblock, Nat.add_assoc]
  inode := fun m hm => (h'.inode m hm).trans (h.inode m hm)
  others := fun m hm type bytes htype hfile =>
    h'.others m hm type bytes htype (h.others m hm type bytes htype hfile)

theorem Image.view_self (s : Image) (n : UInt32) : s.view n (s.volume.inode n) = s.volume := by
  apply Volume.ext
  · exact update_eq_self ..
  · rfl
  · rfl

theorem iappend_ensures (h : Layout s) (hv : s.volume.Allocated areaSb) (hn : n < areaSb.ninodes) {type : UInt16}
    {bytes p : List UInt8} (htype : type ≠ 0) (hfile : File s.volume n type bytes)
    (hmax : E .assertion ∨ bytes.length + p.length ≤ MAXFILE * BSIZE)
    (hroom : Room E (blocksFor (bytes.length + p.length) - blocksFor bytes.length) s) :
    Ensures (iappend n p) s (fun _ s' => File s'.volume n type (bytes ++ p) ∧
      Grew s s' n (blocksFor (bytes.length + p.length) - blocksFor bytes.length)) E := by
  have hview := Image.view_self s n
  have hdin : (s.volume.inode n).type ≠ 0 := by rwa [hfile.type]
  refine (rinode_ensures h hn).bind ?_
  rintro _ s ⟨rfl, rfl⟩
  rw [hfile.size]
  refine (iappendLoop_ensures hdin p.length p _ _ s le_rfl rfl h (by rwa [hview])
    (by rw [hview]; exact hfile.filled) hfile.small hmax hroom).bind ?_
  rintro ⟨d, off⟩ s1 ⟨hoff, happ⟩
  dsimp only at hoff happ ⊢
  subst hoff
  refine (winode_ensures happ.layout hn _).mono ?_
  rintro _ s' ⟨hl, hvol, hfreeinode, hfreeblock⟩
  -- the inode on the image differs from the one in the loop by its size alone
  obtain ⟨addrs, haddrs⟩ := happ.extended.din
  rw [Image.inode_view, Image.inode_view] at haddrs
  have hinode : s'.volume.inode n = { d with size := UInt32.ofNat (bytes.length + p.length) } := by
    rw [hvol, Image.inode_view]
  have hblocks : ∀ m c, s'.volume.fileBlock m c = (s1.view n d).fileBlock m c := by
    intro m c
    rw [hvol]
    apply Volume.fileBlock_of_addrs
    · refine Image.field_view Dinode.addrs ?_ m
      rfl
    · rfl
  have hothers : ∀ m, m ≠ n → s'.volume.inode m = s.volume.inode m := by grind [Image.inode_view_of_ne]
  have hlt : bytes.length + p.length < 2 ^ 32 := lt_of_le_of_lt happ.small (by decide)
  refine ⟨⟨?_, ?_, ?_, ?_, ?_, ?_⟩, ⟨hl, ?_, hfreeinode.trans happ.freeinode, ?_, hothers, ?_⟩⟩
  · rw [hinode, haddrs]
    exact hfile.type
  · rw [hinode, haddrs]
    exact hfile.nlink
  · rw [hinode, List.length_append]
    exact toNat_ofNat32 hlt
  · rw [List.length_append]
    have hfilled := happ.filled
    refine ⟨fun c hc => ?_, ?_⟩
    · rw [hblocks, hfilled.blocks c hc]
    · rw [hinode, ← hfilled.indirect, Image.inode_view]
      rfl
  · intro i hi
    rw [List.length_append] at hi
    rw [Volume.byte_congr (hblocks n), happ.extended.byte i, hview]
    by_cases hold : i < bytes.length
    · rw [if_neg (by omega), hfile.byte i hold, List.getD_append _ _ _ _ hold]
    · rw [if_pos (by omega), List.getD_append_right _ _ _ _ (by omega)]
  · rw [List.length_append]
    exact happ.small
  · rw [hvol]
    refine happ.allocated.of_addrs (Image.field_view Dinode.type ?_) (Image.field_view Dinode.addrs ?_) rfl rfl
    · rfl
    · rfl
  · rw [hfreeblock, happ.freeblock]
  · intro m hm type' bytes' htype' hfile'
    refine hfile'.congr (hothers m hm) fun c => ?_
    rw [hblocks, happ.extended.fileBlock m hm ?_ c, hview]
    rw [hview, hfile'.type]
    exact htype'

end AsoPracticas.Xv6.Mkfs
