import AsoPracticas.Xv6.EmptyDisk

/-!
# ByteFiles — the contents of inodes refine lists of bytes

A file is a list of bytes, and a write replaces a range of it: `overwrite`.  On a kernel whose books are
right, `writei` on the locked inode of a file does just that to the contents of the file, and `readi`
returns a range of them.  The code adds limits of its own: the log has to take all blocks that a write
touches, and the disk needs free blocks for those that are new.
-/

namespace AsoPracticas.Xv6

open Lib

/-- A file after the bytes of `src` are written at `off`. -/
def overwrite (c src : List UInt8) (off : Nat) : List UInt8 :=
  c.take off ++ src ++ c.drop (off + src.length)

theorem getElem?_overwrite {file src : List UInt8} {off : Nat} (h : off ≤ file.length) (p : Nat) :
    (overwrite file src off)[p]? =
      if off ≤ p ∧ p < off + src.length then src[p - off]? else file[p]? := by
  rw [overwrite, List.append_assoc]
  grind

theorem Volume.getElem?_content (v : Volume) (m : UInt32) (p : Nat) :
    (v.content m)[p]? = if p < (v.inode m).size.toNat then some (v.byte m p) else none := by
  rw [Volume.content, List.getElem?_map]
  grind

/-- The locked inode `i` is that of a file or a directory, on a volume whose books are right. -/
@[grind cases eager]
structure Kernel.Regular (k : Kernel) (i : InodePtr) : Prop where
  geometry : k.sb.Geometry
  consistent : k.volume.Consistent k.sb
  inum_lt : (k.inode i).inum < k.sb.ninodes
  coherent : k.Coherent i
  type_ne : (k.inode i).din.type ≠ 0
  not_dev : (k.inode i).din.type ≠ T_DEV

variable {E : Halt → Prop} {F : Finset UInt32} {k k' : Kernel} {i : InodePtr} {off n : UInt32} {src : List UInt8}

theorem Kernel.Regular.readable (h : k.Regular i) : k.Readable i := by
  refine ⟨h.type_ne, ?_⟩
  rw [h.coherent.view]
  exact h.consistent.allocated

theorem Kernel.Regular.complete (h : k.Regular i) : k.volume.Complete (k.inode i).inum := by
  apply h.consistent.complete
  · rw [← h.coherent]
    exact h.type_ne
  · rw [← h.coherent]
    exact h.not_dev

theorem Kernel.Regular.length_content (h : k.Regular i) :
    (k.volume.content (k.inode i).inum).length = (k.inode i).din.size.toNat := by
  rw [Volume.content, List.length_map, List.length_range, ← h.coherent]

theorem Kernel.Regular.working (h : k.Regular i) (hmap : MapIn k.sb F)
    (hind : (k.inode i).din.indirect ≠ 0 → (k.inode i).din.indirect ∈ F) : k.Working i F where
  __ := h
  allocated := h.readable.allocated
  map_in := hmap
  indirect_in := hind

/-! ## The room for a write -/

def mapBlocks (sb : Superblock) : Finset UInt32 :=
  (Finset.range (sb.size.toNat / BPB + 1)).image fun j => UInt32.ofNat j + sb.bmapstart

theorem mapIn_mapBlocks {sb : Superblock} (hF : mapBlocks sb ⊆ F) : MapIn sb F := by
  intro b hb
  apply hF
  rw [mapBlocks, Finset.mem_image]
  refine ⟨b.toNat / BPB, ?_, ?_⟩
  · have hlt : b.toNat < sb.size.toNat := UInt32.lt_iff_toNat_lt.1 hb
    exact Finset.mem_range.2 (Nat.lt_succ_of_le (Nat.div_le_div_right hlt.le))
  · rw [BBLOCK]
    congr 1
    apply UInt32.toNat_inj.1
    rw [UInt32.toNat_div, toNat_ofNat32 ((Nat.div_le_self ..).trans_lt b.toNat_lt)]
    rfl

/-- How many blocks a write at `off` touches. -/
def touched (off n : UInt32) : Nat :=
  blockEnd (off.toNat + n.toNat) - off.toNat / BSIZE

/-- Inside a transaction, the log takes what a write logs: the blocks it touches, the free map, the
indirect block and the inode; and there are free blocks for the new ones. -/
structure Kernel.RoomFor (k : Kernel) (i : InodePtr) (off n : UInt32) : Prop where
  outstanding : 1 ≤ k.outstanding
  nodup : k.lh.Nodup
  log : k.lh.length + (k.sb.size.toNat / BPB + 1) + touched off n + 2 < LOGSIZE
  size : ((k.lh.length + (k.sb.size.toNat / BPB + 1) + touched off n + 2 : Nat) : Int) < k.log.size - 1
  free : k.volume.need (k.inode i).inum (off.toNat / BSIZE) (blockEnd (off.toNat + n.toNat)) ≤ (k.volume.free k.sb).card

theorem Volume.needIndirect_le (v : Volume) (m : UInt32) (lo hi : Nat) :
    v.needIndirect m lo hi ≤ if (v.inode m).indirect = 0 then 1 else 0 := by
  unfold Volume.needIndirect
  split
  · rename_i h
    rw [if_pos h.2.2]
  · exact Nat.zero_le _

/-- The blocks that may be logged at the start: those logged, the free map, the indirect block. -/
def Kernel.loggable (k : Kernel) (i : InodePtr) : Finset UInt32 :=
  (k.lh.toFinset ∪ mapBlocks k.sb) ∪
    if (k.inode i).din.indirect = 0 then ∅ else {(k.inode i).din.indirect}

theorem Kernel.card_loggable (k : Kernel) (i : InodePtr) :
    (k.loggable i).card + (if (k.inode i).din.indirect = 0 then 1 else 0) ≤
      k.lh.length + (k.sb.size.toNat / BPB + 1) + 1 := by
  have hlh : k.lh.toFinset.card ≤ k.lh.length := List.toFinset_card_le k.lh
  have hmap : (mapBlocks k.sb).card ≤ k.sb.size.toNat / BPB + 1 :=
    Finset.card_image_le.trans (Finset.card_range _).le
  have hunion := Finset.card_union_le k.lh.toFinset (mapBlocks k.sb)
  unfold Kernel.loggable
  split
  · rw [Finset.union_empty]
    omega
  · have hsingle := Finset.card_union_le (k.lh.toFinset ∪ mapBlocks k.sb) {(k.inode i).din.indirect}
    rw [Finset.card_singleton] at hsingle
    omega

theorem Kernel.Regular.working_loggable (h : k.Regular i) : k.Working i (k.loggable i) := by
  apply h.working
  all_goals grind [Kernel.loggable, mapIn_mapBlocks]

theorem Kernel.RoomFor.writeRoom (hroom : k.RoomFor i off n) (h : k.Regular i) :
    WriteRoom E i (off.toNat / BSIZE) (blockEnd (off.toNat + n.toNat)) 1 0 (k.loggable i) k := by
  have hcard := k.card_loggable i
  have hind := (k.view i).needIndirect_le (k.inode i).inum (off.toNat / BSIZE) (blockEnd (off.toNat + n.toNat))
  rw [Kernel.inode_view] at hind
  have hlog := hroom.log
  have hsize := hroom.size
  unfold touched at hlog hsize
  refine ⟨h.working_loggable, .inr ⟨hroom.outstanding, hroom.nodup, ?_, ?_, ?_⟩, .inr ?_⟩
  · intro b hb
    exact Finset.mem_union_left _ (Finset.mem_union_left _ (List.mem_toFinset.2 hb))
  · omega
  · omega
  · rw [Nat.zero_add, h.coherent.view]
    exact hroom.free

/-! ## What a write leaves -/

theorem Wrote.size (h : Wrote i src off n k k') (hwrap : off.toNat + n.toNat < 2 ^ 32) :
    (k'.volume.inode (k.inode i).inum).size.toNat = max (k.inode i).din.size.toNat (off.toNat + n.toNat) := by
  obtain ⟨addrs, hdin⟩ := h.din
  have hlt := (k.inode i).din.size.toNat_lt
  rw [← h.works.inum, ← h.coherent, hdin, toNat_ofNat32 (by omega)]

theorem Wrote.content_self (h : Wrote i src off n k k') (hreg : k.Regular i)
    (hacc : k.Accepts i off n) (hsrc : src.length = n.toNat) :
    k'.volume.content (k.inode i).inum = overwrite (k.volume.content (k.inode i).inum) src off.toNat := by
  have hlen := hreg.length_content
  have hsize := h.size hacc.2.1
  have hoff := UInt32.le_iff_toNat_le.1 hacc.1
  apply List.ext_getElem?
  intro p
  have hold : (k.volume.inode (k.inode i).inum).size = (k.inode i).din.size := by rw [← hreg.coherent]
  rw [getElem?_overwrite (by omega), hsrc, Volume.getElem?_content, Volume.getElem?_content, hsize, hold, h.byte]
  grind

theorem Wrote.content_of_ne (h : Wrote i src off n k k') {m : UInt32} (hm : m ≠ (k.inode i).inum)
    (htype : (k.volume.inode m).type ≠ 0) : k'.volume.content m = k.volume.content m :=
  Volume.content_congr (by rw [h.works.dinode m hm]) (h.others m hm htype)

theorem Wrote.regular (h : Wrote i src off n k k') (hreg : k.Regular i) (hw : k'.Working i F) : k'.Regular i where
  __ := hw
  consistent := by
    refine ⟨?_, ?_⟩
    · rw [← h.coherent.view]
      exact hw.allocated
    · intro m htype hdev
      by_cases hm : m = (k.inode i).inum
      · rw [hm]
        exact h.complete
      · have hsame := h.works.dinode m hm
        rw [hsame] at htype hdev
        apply (hreg.consistent.complete m htype hdev).congr
        · rw [hsame]
        · exact h.others m hm htype
  coherent := h.coherent
  not_dev := by
    obtain ⟨addrs, hdin⟩ := h.din
    rw [hdin]
    exact hreg.not_dev

/-- What a write of `src` at `off` leaves: the file is overwritten, and no other file changes. -/
structure Kernel.Overwritten (k : Kernel) (i : InodePtr) (src : List UInt8) (off : UInt32)
    (k' : Kernel) : Prop where
  regular : k'.Regular i
  inum : (k'.inode i).inum = (k.inode i).inum
  self : k'.volume.content (k.inode i).inum = overwrite (k.volume.content (k.inode i).inum) src off.toNat
  others : ∀ m, m ≠ (k.inode i).inum → (k.volume.inode m).type ≠ 0 →
    (k'.volume.inode m).type = (k.volume.inode m).type ∧ k'.volume.content m = k.volume.content m

def writeStops : Halt → Prop := fun e =>
  e = .panic .tooBig ∨ e = .panic .outsideOfTrans ∨ e = .panic .outOfBlocks

theorem writei_overwrites (h : k.Regular i) (hacc : k.Accepts i off n) (hsrc : src.length = n.toNat)
    (hroom : WriteRoom E i (off.toNat / BSIZE) (blockEnd (off.toNat + n.toNat)) 1 0 (k.loggable i) k) :
    Ensures (writei i src off n) k (fun res k' => res = n.toNat ∧ k.Overwritten i src off k') E := by
  refine (writei_ensures h.coherent h.not_dev h.complete hacc hroom src).mono ?_
  rintro res k' ⟨hres, hwrote, F', hw', -⟩
  refine ⟨hres, hwrote.regular h hw', hwrote.works.inum, hwrote.content_self h hacc hsrc, ?_⟩
  intro m hm htype
  exact ⟨by rw [hwrote.works.dinode m hm], hwrote.content_of_ne hm htype⟩

/-- In terms of the contents `c` of the file: `writei` refuses ranges that start after the end of `c`,
wrap or end past the largest file; any other write overwrites `c` or stops for want of room, and if
there is room it does not stop; `readi` refuses ranges that start after the end of `c` or wrap, and
else returns the bytes of `c` in the range and changes nothing. -/
theorem inode_contents_refine (k : Kernel) (i : InodePtr) (hreg : k.Regular i) (off n : UInt32)
    (src : List UInt8) (hsrc : src.length = n.toNat) (c : List UInt8)
    (hc : c = k.volume.content (k.inode i).inum) :
    (c.length < off.toNat ∨ 2 ^ 32 ≤ off.toNat + n.toNat ∨
        MAXFILE * BSIZE < off.toNat + n.toNat →
      writei i src off n k = .ok (-1, k)) ∧
    (off.toNat ≤ c.length → off.toNat + n.toNat < 2 ^ 32 →
        off.toNat + n.toNat ≤ MAXFILE * BSIZE →
      (∀ e, writei i src off n k = .error e → writeStops e) ∧
      (∀ res k', writei i src off n k = .ok (res, k') →
        res = n.toNat ∧ k.Overwritten i src off k') ∧
      (k.RoomFor i off n → ∃ k', writei i src off n k = .ok (n.toNat, k') ∧
        k.Overwritten i src off k')) ∧
    readi i off n k = .ok (if c.length < off.toNat ∨ 2 ^ 32 ≤ off.toNat + n.toNat then none
      else some ((c.drop off.toNat).take n.toNat), k) := by
  have hlen : c.length = (k.inode i).din.size.toNat := by rw [hc, hreg.length_content]
  have hacc : k.Accepts i off n ↔ off.toNat ≤ c.length ∧ off.toNat + n.toNat < 2 ^ 32 ∧
      off.toNat + n.toNat ≤ MAXFILE * BSIZE := by
    rw [Kernel.Accepts, UInt32.le_iff_toNat_le, hlen]
  refine ⟨?_, ?_, ?_⟩
  · intro hno
    apply writei_refuses hreg.not_dev
    rw [hacc]
    omega
  · intro hoff hwrap hmax
    have hyes := hacc.2 ⟨hoff, hwrap, hmax⟩
    -- a write that may stop for want of room needs none
    have hstops := writei_overwrites (E := writeStops) hreg hyes hsrc
      ⟨hreg.working_loggable, .inl ⟨.inl rfl, .inr (.inl rfl)⟩, .inl (.inr (.inr rfl))⟩
    refine ⟨fun e hrun => hstops.of_error hrun, fun res k' hrun => hstops.of_ok hrun, ?_⟩
    intro hroom
    have hret := writei_overwrites (E := fun _ => False) hreg hyes hsrc (hroom.writeRoom hreg)
    obtain ⟨res, k', hrun, rfl, hover⟩ := ensures_false_iff.1 hret
    exact ⟨k', hrun, hover⟩
  · have hread := readi_ensures (E := fun _ => False) hreg.readable hreg.not_dev
      (by rw [hreg.coherent.view]; exact hreg.complete) off n
    obtain ⟨dst, k', hrun, rfl, rfl⟩ := ensures_false_iff.1 hread
    rw [hrun, hreg.coherent.view, ← hc]
    simp only [UInt32.lt_iff_toNat_lt, hlen]

theorem Volume.need_le {v : Volume} {m : UInt32} {lo hi : Nat} : v.need m lo hi ≤ hi - lo + 1 := by
  grind [Volume.need, Volume.needIndirect, Nat.card_Ico]

theorem lockedKernel_regular : (lockedKernel T_FILE).Regular firstEntry where
  geometry := mkfsSuperblock_geometry
  consistent := emptyDisk_consistent T_FILE
  inum_lt := by decide
  coherent := lockedKernel_coherent T_FILE
  type_ne := by decide
  not_dev := by decide

/-- One byte is written to an empty file, and none is read from it. -/
theorem inode_contents_refine_byte :
    (lockedKernel T_FILE).RoomFor firstEntry 0 1 ∧
      (∃ k', writei firstEntry [7] 0 1 (lockedKernel T_FILE) = .ok (1, k') ∧
        (lockedKernel T_FILE).Overwritten firstEntry [7] 0 k') ∧
      readi firstEntry 0 1 (lockedKernel T_FILE) = .ok (some [], lockedKernel T_FILE) := by
  have hroom : (lockedKernel T_FILE).RoomFor firstEntry 0 1 := by
    refine ⟨by decide, by decide, by decide, by decide, ?_⟩
    exact Volume.need_le.trans ((by decide : 1 - 0 + 1 ≤ 941).trans (free_emptyDisk T_FILE))
  have hspec := inode_contents_refine (lockedKernel T_FILE) firstEntry lockedKernel_regular 0 1 [7]
    rfl [] rfl
  exact ⟨hroom, (hspec.2.1 (by decide) (by decide) (by decide)).2.2 hroom, hspec.2.2⟩

/-- Nothing is logged yet and there are free blocks, but a write of 30 blocks does not fit in the log:
`writei` stops the kernel instead of returning 15360. -/
theorem inode_contents_too_big :
    (lockedKernel T_FILE).Regular firstEntry ∧
      (lockedKernel T_FILE).Accepts firstEntry 0 15360 ∧
      (lockedKernel T_FILE).volume.need ROOTINO 0 30 ≤
        ((lockedKernel T_FILE).volume.free mkfsSuperblock).card ∧
      writei firstEntry (List.replicate 15360 0) 0 15360 (lockedKernel T_FILE) =
        .error (.panic .tooBig) := by
  refine ⟨lockedKernel_regular, ⟨by decide, by decide, by decide⟩, ?_, ?_⟩
  · exact Volume.need_le.trans ((by decide : 30 - 0 + 1 ≤ 941).trans (free_emptyDisk T_FILE))
  · rw [← stop_eq_some_iff]
    decide +kernel

end AsoPracticas.Xv6
