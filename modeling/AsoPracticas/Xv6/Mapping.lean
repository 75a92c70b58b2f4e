import AsoPracticas.Xv6.Blocks

/-!
# Mapping — bmap gives a file the blocks it writes

While a process works on a locked inode, the copy in memory is ahead of the one on disk: `Kernel.view`
is the volume with the copy in memory in its place.  `bmap_ensures` says that `bmap` returns the block
of the file at an index and, if there is none, first gives the file a zeroed one.
-/

namespace AsoPracticas.Xv6

open Lib

/-- The volume with the inode of cache entry `i` as it is in memory. -/
def Kernel.view (k : Kernel) (i : InodePtr) : Volume :=
  k.volume.setInode (k.inode i).inum (k.inode i).din

/-- From `k` to `k'` inode `i`, in memory and on disk, the free map and the data blocks may have
changed. -/
@[grind cases eager]
structure Kernel.Works (i : InodePtr) (k k' : Kernel) : Prop where
  sb : k'.sb = k.sb
  log : k'.log = k.log
  outstanding : k'.outstanding = k.outstanding
  devsw : k'.devsw = k.devsw
  super : k'.disk 1 = k.disk 1
  others : ∀ j, j ≠ i → k'.inode j = k.inode j
  entry : ∃ d, k'.inode i = { k.inode i with din := d }
  dinode : ∀ m, m ≠ (k.inode i).inum → k'.volume.inode m = k.volume.inode m

/-- What holds while a process works on the locked inode `i`; the blocks in `F` may be logged. -/
@[grind cases eager]
structure Kernel.Working (k : Kernel) (i : InodePtr) (F : Finset UInt32) : Prop where
  geometry : k.sb.Geometry
  inum_lt : (k.inode i).inum < k.sb.ninodes
  type_ne : (k.inode i).din.type ≠ 0
  allocated : (k.view i).Allocated k.sb
  map_in : MapIn k.sb F
  indirect_in : (k.inode i).din.indirect ≠ 0 → (k.inode i).din.indirect ∈ F

variable {E : Halt → Prop} {F F' : Finset UInt32} {r f : Nat} {k k' k1 k2 : Kernel} {i : InodePtr}

theorem Kernel.Works.refl (i : InodePtr) (k : Kernel) : k.Works i k :=
  ⟨rfl, rfl, rfl, rfl, rfl, fun _ _ => rfl, ⟨_, rfl⟩, fun _ _ => rfl⟩

theorem Kernel.Works.inum (h : k.Works i k') : (k'.inode i).inum = (k.inode i).inum := by
  obtain ⟨d, hd⟩ := h.entry
  rw [hd]

theorem Kernel.Works.trans (h : k.Works i k1) (h' : k1.Works i k2) : k.Works i k2 where
  sb := h'.sb.trans h.sb
  log := h'.log.trans h.log
  outstanding := h'.outstanding.trans h.outstanding
  devsw := h'.devsw.trans h.devsw
  super := h'.super.trans h.super
  others := fun j hj => (h'.others j hj).trans (h.others j hj)
  entry := by
    grind
  dinode := fun m hm => (h'.dinode m (by rwa [h.inum])).trans (h.dinode m hm)

theorem Kernel.Writes.works (h : k.Writes k')
    (hinode : ∀ m, m ≠ (k.inode i).inum → k'.volume.inode m = k.volume.inode m) : k.Works i k' :=
  ⟨h.sb, h.log, h.outstanding, h.devsw, h.super, fun _ _ => by rw [h.inode], ⟨_, by rw [h.inode]⟩, hinode⟩

theorem Kernel.Works.working (h : k.Works i k') (hw : k.Working i F) (hF : F ⊆ F')
    (htype : (k'.inode i).din.type = (k.inode i).din.type) (halloc : (k'.view i).Allocated k.sb)
    (hind : (k'.inode i).din.indirect ≠ 0 → (k'.inode i).din.indirect ∈ F') : k'.Working i F' where
  geometry := by
    rw [h.sb]
    exact hw.geometry
  inum_lt := by
    rw [h.inum, h.sb]
    exact hw.inum_lt
  type_ne := by
    rw [htype]
    exact hw.type_ne
  allocated := by
    rw [h.sb]
    exact halloc
  map_in := by
    rw [h.sb]
    exact fun b hb => hF (hw.map_in b hb)
  indirect_in := hind

@[simp] theorem Kernel.inode_view (k : Kernel) (i : InodePtr) : (k.view i).inode (k.inode i).inum = (k.inode i).din :=
  Function.update_self ..

/-- Replacing the copy of inode `i` in memory. -/
def Kernel.withDin (k : Kernel) (i : InodePtr) (d : Dinode) : Kernel :=
  { k with inode := Function.update k.inode i { k.inode i with din := d } }

theorem Kernel.works_withDin (k : Kernel) (i : InodePtr) (d : Dinode) : k.Works i (k.withDin i d) where
  sb := rfl
  log := rfl
  outstanding := rfl
  devsw := rfl
  super := rfl
  others := fun _ hj => Function.update_of_ne hj ..
  entry := ⟨d, Function.update_self ..⟩
  dinode := fun _ _ => rfl

@[simp] theorem Kernel.inode_withDin (k : Kernel) (i : InodePtr) (d : Dinode) :
    (k.withDin i d).inode i = { k.inode i with din := d } :=
  Function.update_self ..

@[simp] theorem Kernel.view_withDin (k : Kernel) (i : InodePtr) (d : Dinode) :
    (k.withDin i d).view i = (k.view i).setInode (k.inode i).inum d := by
  rw [Kernel.view, Kernel.inode_withDin]
  change k.volume.setInode _ d = _
  simp [Kernel.view, Volume.setInode]

theorem ensures_setDin {g : Dinode → Dinode} {Q : PUnit → Kernel → Prop}
    (h : Q ⟨⟩ (k.withDin i (g (k.inode i).din))) : Ensures (setDin i g) k Q E :=
  h

theorem Kernel.Writes.view (h : k.Writes k') : k'.view i = k'.volume.setInode (k.inode i).inum (k.inode i).din := by
  rw [Kernel.view, h.inode]

theorem Kernel.Working.metadata (h : k.Working i F) (b : UInt32) (hb : b.toNat < k.sb.dataStart) :
    k.volume.used b = true :=
  h.allocated.metadata b hb

theorem Kernel.Working.type_view (h : k.Working i F) : ((k.view i).inode (k.inode i).inum).type ≠ 0 := by
  rw [Kernel.inode_view]
  exact h.type_ne

theorem Kernel.Working.withDin (hw : k.Working i F) {d : Dinode}
    (htype : d.type = (k.inode i).din.type) (haddrs : d.addrs = (k.inode i).din.addrs) :
    (k.withDin i d).Working i F := by
  have hsame : ∀ m, ((k.withDin i d).view i).inode m =
      if m = (k.inode i).inum then d else (k.view i).inode m := by
    intro m
    rw [Kernel.view_withDin, Volume.inode_setInode, Function.update_apply]
  apply (k.works_withDin i d).working hw subset_rfl
  · rw [Kernel.inode_withDin, htype]
  · apply hw.allocated.of_addrs
    all_goals grind [Kernel.inode_view, Kernel.view_withDin, Volume.used_setInode, Volume.block_setInode]
  · rw [Kernel.inode_withDin]
    unfold Dinode.indirect
    rw [haddrs]
    exact hw.indirect_in

theorem Kernel.Works.inode_view_of_ne (h : k.Works i k') {m : UInt32} (hm : m ≠ (k.inode i).inum) :
    (k'.view i).inode m = (k.view i).inode m := by
  have hm' : m ≠ (k'.inode i).inum := by rwa [h.inum]
  simp [Kernel.view, hm, hm', h.dinode m hm]

theorem Kernel.Works.type_view (h : k.Works i k') (htype : (k'.inode i).din.type = (k.inode i).din.type) (m : UInt32) :
    ((k'.view i).inode m).type = ((k.view i).inode m).type := by
  by_cases hm : m = (k.inode i).inum
  · rw [hm, Kernel.inode_view, ← h.inum, Kernel.inode_view, htype]
  · rw [h.inode_view_of_ne hm]

/-! ## One slot -/

/-- From `k` to `k'` slot `s` of inode `i` has been looked up: it holds block `a`, which is new if it
held none. -/
@[grind cases eager]
structure Slotted (i : InodePtr) (s : Slot) (k : Kernel) (a : UInt32) (k' : Kernel) : Prop where
  works : k.Works i k'
  din : ∃ addrs, (k'.inode i).din = { (k.inode i).din with addrs := addrs }
  ne_zero : a ≠ 0
  slot : (k'.view i).slot (k.inode i).inum s = a
  step : ((k.view i).slot (k.inode i).inum s ≠ 0 ∧ k' = k) ∨
    ((k.view i).slot (k.inode i).inum s = 0 ∧ (k.view i).used a = false ∧ k.sb.Data a ∧
      Volume.Takes (k.view i) (k'.view i) (k.inode i).inum s a)

variable {s : Slot} {a : UInt32}

theorem Kernel.Working.slotted (hw : k.Working i F) (h : Slotted i s k a k') (hF : F ⊆ F')
    (hind : (k'.inode i).din.indirect ≠ 0 → (k'.inode i).din.indirect ∈ F') : k'.Working i F' := by
  refine h.works.working hw hF ?_ ?_ hind
  · obtain ⟨addrs, hdin⟩ := h.din
    rw [hdin]
  · rcases h.step with ⟨-, rfl⟩ | ⟨hs, hused, hdata, htakes⟩
    · exact hw.allocated
    · exact htakes.allocated hw.allocated hw.type_view hs hused hdata h.ne_zero

theorem Kernel.slot_view_indirect (k : Kernel) (i : InodePtr) :
    (k.view i).slot (k.inode i).inum .indirect = (k.inode i).din.indirect := by
  rw [Volume.slot_indirect, Kernel.inode_view]

theorem Slotted.indirect_eq (h : Slotted i s k a k') (hw : k.Working i F) (hs : s ≠ .indirect) :
    (k'.inode i).din.indirect = (k.inode i).din.indirect := by
  rcases h.step with ⟨-, rfl⟩ | ⟨-, -, -, htakes⟩
  · rfl
  · rw [← Kernel.slot_view_indirect, h.works.inum, htakes.slot _ _ hw.type_view,
      if_neg fun heq => hs heq.2.symm, Kernel.slot_view_indirect]

theorem Slotted.indirect_self (h : Slotted i .indirect k a k') : (k'.inode i).din.indirect = a := by
  rw [← Kernel.slot_view_indirect, h.works.inum, h.slot]

theorem slotted_same (i : InodePtr) (k : Kernel) (hs : (k.view i).slot (k.inode i).inum s ≠ 0) :
    Slotted i s k ((k.view i).slot (k.inode i).inum s) k :=
  ⟨.refl i k, ⟨_, rfl⟩, hs, rfl, .inl ⟨hs, rfl⟩⟩

theorem balloc_working (hw : k.Working i F) (hlog : LogRoom E F (r + 1) k) (hfree : FreeRoom E (f + 1) k) :
    Ensures balloc k
      (fun b k' => k.Writes k' ∧ k.sb.Data b ∧ b ≠ 0 ∧ (k.view i).used b = false ∧
        k'.volume = k.volume.fresh b ∧ LogRoom E (insert b F) r k' ∧ FreeRoom E f k') E := by
  refine (balloc_ensures hw.geometry hw.metadata hlog hfree hw.map_in).mono ?_
  rintro b k' ⟨hwrites, hdata, hused, hv, hlog', hfree'⟩
  exact ⟨hwrites, hdata, hw.geometry.data_ne_zero hdata, hused, hv, hlog', hfree'⟩

theorem bmapAddr_ensures (hw : k.Working i F) (j : Fin (NDIRECT + 1)) (hlog : LogRoom E F (r + 1) k)
    (hfree : FreeRoom E (f + if (k.inode i).din.addrs j = 0 then 1 else 0) k) :
    Ensures (bmapAddr i j) k
      (fun a k' => Slotted i (.addr j) k a k' ∧ k'.Working i (insert a F) ∧
        LogRoom E (insert a F) r k' ∧ FreeRoom E f k') E := by
  have hslot : (k.view i).slot (k.inode i).inum (.addr j) = (k.inode i).din.addrs j := by
    rw [Volume.slot_addr, Kernel.inode_view]
  unfold bmapAddr
  rw [ensures_bind, ensures_get]
  dsimp only
  split
  · rename_i hzero
    rw [if_pos hzero] at hfree
    refine (balloc_working hw hlog hfree).bind ?_
    rintro b k1 ⟨hwrites, hdata, hb0, hused, hv, hlog1, hfree1⟩
    refine ensures_bind.2 (ensures_setDin ?_)
    -- the copy in memory takes the new block
    have hinode : k1.inode i = k.inode i := by rw [hwrites.inode]
    have hview : k1.view i = (k.view i).fresh b := by
      rw [hwrites.view, hv]
      rfl
    have hworks : k.Works i k1 := hwrites.works fun _ _ => by rw [hv]; rfl
    have hslotted : Slotted i (.addr j) k b (k1.withDin i ((k1.inode i).din.withAddr j b)) := by
      have htake : (k1.withDin i ((k1.inode i).din.withAddr j b)).view i =
          (k.view i).takeAddr (k.inode i).inum j b := by
        rw [Kernel.view_withDin, hview, hinode, Volume.takeAddr, Kernel.inode_view]
      have htakes := hw.allocated.takes_addr (n := (k.inode i).inum) (hslot.trans hzero) hused hb0
      refine ⟨hworks.trans (k1.works_withDin i _), ?_, hb0, ?_, .inr ⟨?_, hused, hdata, ?_⟩⟩
      · exact ⟨_, by rw [Kernel.inode_withDin, hinode]; rfl⟩
      · rw [htake, htakes.slot _ _ hw.type_view, if_pos ⟨rfl, rfl⟩]
      · rw [hslot, hzero]
      · rw [htake]
        exact htakes
    refine ⟨hslotted, hw.slotted hslotted (Finset.subset_insert ..) ?_, hlog1, hfree1⟩
    intro hne
    rw [Kernel.inode_withDin, hinode] at hne ⊢
    by_cases hj : j = Fin.last NDIRECT
    · subst hj
      simp
    grind [Dinode.indirect_withAddr_of_ne]
  · rename_i hne
    rw [if_neg hne, Nat.add_zero] at hfree
    have hslotted := slotted_same (s := .addr j) i k (by rwa [hslot])
    rw [hslot] at hslotted
    refine ⟨hslotted, hw.slotted hslotted (Finset.subset_insert ..) ?_, hlog.insert _, hfree⟩
    exact fun hind => Finset.mem_insert_of_mem (hw.indirect_in hind)

theorem FreeRoom.congr (h : FreeRoom E f k) (hsb : k'.sb = k.sb)
    (hused : k'.volume.used = k.volume.used) : FreeRoom E f k' := by
  unfold FreeRoom Volume.free at *
  rwa [hsb, hused]

theorem Kernel.Working.indirect_data (hw : k.Working i F) (hind : (k.inode i).din.indirect ≠ 0) :
    k.sb.Data (k.inode i).din.indirect := by
  rw [← Kernel.slot_view_indirect] at hind ⊢
  exact (hw.allocated.data_slot hw.type_view hind).1

theorem Kernel.slot_view_entry (hind : (k.inode i).din.indirect ≠ 0)
    (hdata : k.sb.Data (k.inode i).din.indirect) (e : Fin NINDIRECT) :
    (k.view i).slot (k.inode i).inum (.entry e) = getU32 (k.disk (k.inode i).din.indirect) (4 * e) := by
  rw [Volume.slot_entry_of_ne (by rwa [Kernel.inode_view]), Kernel.inode_view]
  exact congrArg (getU32 · _) (Kernel.block_volume hdata)

theorem Kernel.view_setBlock (hwrites : k.Writes k') {g : Block}
    (hv : k'.volume = k.volume.setBlock a g) : k'.view i = (k.view i).setBlock a g := by
  rw [hwrites.view, hv]
  rfl

theorem bmapEntry_ensures (hw : k.Working i F) (hind : (k.inode i).din.indirect ≠ 0)
    (e : Fin NINDIRECT) (hlog : LogRoom E F (r + 1) k)
    (hfree : FreeRoom E (f + if (k.view i).slot (k.inode i).inum (.entry e) = 0 then 1 else 0) k) :
    Ensures (bmapEntry (k.inode i).din.indirect e) k
      (fun a k' => Slotted i (.entry e) k a k' ∧ k'.Working i (insert a F) ∧
        LogRoom E (insert a F) r k' ∧ FreeRoom E f k' ∧ k'.inode i = k.inode i) E := by
  have hdata := hw.indirect_data hind
  have hslot := Kernel.slot_view_entry hind hdata e
  unfold bmapEntry bread
  rw [ensures_bind, ensures_bind, ensures_get, ensures_pure]
  dsimp only
  rw [← hslot]
  split
  · rename_i hzero
    rw [if_pos hzero] at hfree
    refine (balloc_working hw hlog hfree).bind ?_
    rintro b k1 ⟨hwrites, hb, hb0, hused, hv, hlog1, hfree1⟩
    have hsb := hwrites.sb
    have hin : (k.inode i).din.indirect ∈ insert b F := Finset.mem_insert_of_mem (hw.indirect_in hind)
    refine (logWrite_data (by rw [hsb]; exact hw.geometry) (by rwa [hsb]) hlog1 hin _).bind ?_
    rintro _ k2 ⟨hwrites2, hv2, hlog2⟩
    have hinode : k2.inode i = k.inode i := by rw [(hwrites.trans hwrites2).inode]
    have htakes := hw.allocated.takes_entry (e := e) hw.type_view (by rwa [Kernel.inode_view]) hused
    -- the bit, the zeroed block and the entry are one step of the volume
    have hview : k2.view i = (k.view i).takeEntry (k.inode i).inum e b := by
      rw [Kernel.view_setBlock hwrites2 hv2, hwrites.view, hv, Volume.takeEntry, Kernel.inode_view]
      rfl
    have hslotted : Slotted i (.entry e) k b k2 := by
      refine ⟨(hwrites.trans hwrites2).works ?_, ⟨_, by rw [hinode]⟩, hb0, ?_, .inr ⟨hzero, hused, hb, ?_⟩⟩
      · intro m _
        rw [hv2, hv]
        rfl
      · rw [hview, htakes.slot _ _ hw.type_view, if_pos ⟨rfl, rfl⟩]
      · rw [hview]
        exact htakes
    refine ⟨hslotted, hw.slotted hslotted (Finset.subset_insert ..) ?_, hlog2,
      hfree1.congr hwrites2.sb (by rw [hv2]; rfl), hinode⟩
    grind
  · rename_i hne
    rw [if_neg hne, Nat.add_zero] at hfree
    have hslotted := slotted_same (s := .entry e) i k hne
    refine ⟨hslotted, hw.slotted hslotted (Finset.subset_insert ..) ?_, hlog.insert _, hfree, rfl⟩
    exact fun hind => Finset.mem_insert_of_mem (hw.indirect_in hind)

/-! ## bmap -/

/-- How many blocks `bmap` has to allocate for block `c` of inode `n`. -/
def Volume.missing (v : Volume) (n : UInt32) (c : Nat) : Nat :=
  (if NDIRECT ≤ c ∧ (v.inode n).indirect = 0 then 1 else 0) +
    if v.fileBlock n c = none then 1 else 0

/-- From `k` to `k'` block `bn` of inode `i` has been looked up: it is block `a`, zeroed if it is new;
no other block of a file changes. -/
structure Mapped (i : InodePtr) (bn : Nat) (k : Kernel) (a : UInt32) (k' : Kernel) : Prop where
  works : k.Works i k'
  din : ∃ addrs, (k'.inode i).din = { (k.inode i).din with addrs := addrs }
  ne_zero : a ≠ 0
  slot : ∃ s, fileSlot bn = some s ∧ (k'.view i).slot (k.inode i).inum s = a
  same : (k.view i).fileBlock (k.inode i).inum bn ≠ none → k' = k
  block : ∀ m c, ((k.view i).inode m).type ≠ 0 → (k'.view i).fileBlock m c =
    if m = (k.inode i).inum ∧ c = bn then
      some (((k.view i).fileBlock (k.inode i).inum bn).getD fun _ => 0)
    else (k.view i).fileBlock m c
  indirect : (k'.inode i).din.indirect = 0 ↔ (k.inode i).din.indirect = 0 ∧ bn < NDIRECT

theorem Slotted.fileBlock (h : Slotted i s k a k') (hw : k.Working i F) {m : UInt32}
    (hm : ((k.view i).inode m).type ≠ 0) (c : Nat) :
    (k'.view i).fileBlock m c =
      if m = (k.inode i).inum ∧ fileSlot c = some s then
        some (((k.view i).fileBlock (k.inode i).inum c).getD fun _ => 0)
      else (k.view i).fileBlock m c := by
  rcases h.step with ⟨hs, rfl⟩ | ⟨hs, hused, hdata, htakes⟩
  · grind [Volume.fileBlock_of_slot_ne]
  · rw [htakes.fileBlock hw.allocated hw.type_view hm hused h.ne_zero]
    grind [Volume.fileBlock_eq_none_iff]

theorem Slotted.mapped {bn : Nat} (h : Slotted i s k a k') (hw : k.Working i F)
    (hs : fileSlot bn = some s) (hind : NDIRECT ≤ bn → (k.inode i).din.indirect ≠ 0) :
    Mapped i bn k a k' where
  __ := h
  slot := ⟨s, hs, h.slot⟩
  same := by
    grind [Volume.fileBlock_eq_none_iff]
  block := by
    intro m c hm
    have hiff : fileSlot c = some s ↔ c = bn := by grind [Volume.fileSlot_inj]
    rw [h.fileBlock hw hm]
    simp only [hiff]
    split
    · rename_i heq
      rw [heq.2]
    · rfl
  indirect := by
    rw [h.indirect_eq hw (Volume.fileSlot_ne_indirect hs)]
    grind

theorem bmapAddr_of_ne {j : Fin (NDIRECT + 1)} (h : (k.inode i).din.addrs j ≠ 0) :
    Ensures (bmapAddr i j) k (fun a k' => a = (k.inode i).din.addrs j ∧ k' = k) E := by
  unfold bmapAddr
  rw [ensures_bind, ensures_get]
  rw [if_neg h]
  exact ⟨rfl, rfl⟩

theorem Slotted.mapped_trans {bn : Nat} {ind : UInt32} {e : Fin NINDIRECT}
    (h : Slotted i .indirect k ind k1) (h' : Slotted i (.entry e) k1 a k') (hw : k.Working i F)
    (hw1 : k1.Working i F') (hs : fileSlot bn = some (.entry e))
    (hzero : (k.inode i).din.indirect = 0) : Mapped i bn k a k' := by
  have hne1 : (k1.inode i).din.indirect ≠ 0 := by
    rw [h.indirect_self]
    exact h.ne_zero
  have hne : (k'.inode i).din.indirect ≠ 0 := by rwa [h'.indirect_eq hw1 (Volume.fileSlot_ne_indirect hs)]
  have hnone : (k.view i).fileBlock (k.inode i).inum bn = none := by
    rw [Volume.fileBlock_eq_none_iff hs, Volume.slot_entry, Kernel.inode_view, if_pos hzero]
  have hinum := h.works.inum
  -- the new indirect block is no block of a file
  have hblock1 : ∀ m c, ((k.view i).inode m).type ≠ 0 → (k1.view i).fileBlock m c = (k.view i).fileBlock m c := by
    intro m c hm
    rw [h.fileBlock hw hm, if_neg]
    exact fun heq => Volume.fileSlot_ne_indirect heq.2 rfl
  obtain ⟨addrs, hdin⟩ := h.din
  obtain ⟨addrs', hdin'⟩ := h'.din
  refine ⟨h.works.trans h'.works, ⟨addrs', by rw [hdin', hdin]⟩, h'.ne_zero, ?_, ?_, ?_, ?_⟩
  · have hslot := h'.slot
    rw [hinum] at hslot
    exact ⟨_, hs, hslot⟩
  · exact fun hsome => absurd hnone hsome
  · intro m c hm
    have hm1 : ((k1.view i).inode m).type ≠ 0 := by rwa [h.works.type_view (by rw [hdin])]
    rw [(h'.mapped hw1 hs fun _ => hne1).block m c hm1, hinum, hblock1 m c hm, hblock1 _ bn hw.type_view]
  · have hbn : ¬ bn < NDIRECT := by
      intro hlt
      rw [Volume.fileSlot_direct hlt] at hs
      cases hs
    simp [hne, hbn]

/-- `bmap` returns the block of the file at an index and, if there is none, gives the file one. -/
theorem bmap_ensures {bn : Nat} (hw : k.Working i F) (hbn : bn < MAXFILE)
    (hlog : LogRoom E F (r + 1 + if NDIRECT ≤ bn ∧ (k.inode i).din.indirect = 0 then 1 else 0) k)
    (hfree : FreeRoom E (f + (k.view i).missing (k.inode i).inum bn) k) :
    Ensures (bmap i bn) k
      (fun a k' => ∃ F', F ⊆ F' ∧ a ∈ F' ∧ k'.Working i F' ∧ LogRoom E F' r k' ∧
        FreeRoom E f k' ∧ Mapped i bn k a k') E := by
  unfold Volume.missing at hfree
  rw [Kernel.inode_view] at hfree
  unfold bmap
  split
  · rename_i hlt
    have hs := Volume.fileSlot_direct hlt
    have hno : ¬ (NDIRECT ≤ bn ∧ (k.inode i).din.indirect = 0) := fun h => by omega
    simp only [if_neg hno, Nat.add_zero, Nat.zero_add, Volume.fileBlock_eq_none_iff hs,
      Volume.slot_addr, Kernel.inode_view] at hlog hfree
    refine (bmapAddr_ensures hw _ hlog hfree).mono ?_
    rintro a k' ⟨hslotted, hw', hlog', hfree'⟩
    refine ⟨insert a F, Finset.subset_insert .., Finset.mem_insert_self .., hw', hlog', hfree',
      hslotted.mapped hw hs fun hle => absurd hlt (Nat.not_lt.2 hle)⟩
  · rename_i hge
    have hlt : bn - NDIRECT < NINDIRECT := by
      simp only [show MAXFILE = NDIRECT + NINDIRECT from rfl] at hbn
      omega
    have hs := Volume.fileSlot_entry hge hlt
    rw [if_pos hlt]
    by_cases hzero : (k.inode i).din.indirect = 0
    · -- neither the indirect block nor the block is there
      have hnone : (k.view i).fileBlock (k.inode i).inum bn = none := by
        rw [Volume.fileBlock_eq_none_iff hs, Volume.slot_entry, Kernel.inode_view, if_pos hzero]
      rw [if_pos ⟨Nat.le_of_not_lt hge, hzero⟩] at hlog hfree
      rw [if_pos hnone] at hfree
      have haddr : (k.inode i).din.addrs (Fin.last NDIRECT) = 0 := hzero
      refine (bmapAddr_ensures (f := f + 1) hw _ hlog (by rwa [if_pos haddr])).bind ?_
      rintro ind k1 ⟨hslotted, hw1, hlog1, hfree1⟩
      have hind := hslotted.indirect_self
      have hne := hslotted.ne_zero
      rw [← hind] at hne ⊢
      refine (bmapEntry_ensures (f := f) hw1 hne ⟨bn - NDIRECT, hlt⟩ hlog1 (hfree1.mono ?_)).mono ?_
      · split <;> omega
      · rintro a k' ⟨hslotted', hw', hlog', hfree', -⟩
        refine ⟨_, ?_, Finset.mem_insert_self .., hw', hlog', hfree', hslotted.mapped_trans hslotted' hw hw1 hs hzero⟩
        exact (Finset.subset_insert ..).trans (Finset.subset_insert ..)
    · have hno : ¬ (NDIRECT ≤ bn ∧ (k.inode i).din.indirect = 0) := fun h => hzero h.2
      simp only [if_neg hno, Nat.add_zero, Nat.zero_add, Volume.fileBlock_eq_none_iff hs] at hlog hfree
      refine (bmapAddr_of_ne hzero).bind ?_
      rintro _ _ ⟨rfl, rfl⟩
      refine (bmapEntry_ensures hw hzero ⟨bn - NDIRECT, hlt⟩ hlog hfree).mono ?_
      rintro a k' ⟨hslotted, hw', hlog', hfree', -⟩
      exact ⟨_, Finset.subset_insert .., Finset.mem_insert_self .., hw', hlog', hfree',
        hslotted.mapped hw hs fun _ => hzero⟩

end AsoPracticas.Xv6
