import AsoPracticas.Xv6.MkfsImage

/-!
# MkfsFiles — the image that mkfs makes

After each file the image holds the root, with an entry for each file so far, and the files
(`Made`).  `main_ensures` is the whole program: the image with the size of the root rounded up and the
map written (`Finished`).

* `mkfs_books` — no block in two slots, every block in a slot in the map, and no holes: exactly on images
  of up to 206 files for which the entries of the root do not end with a block;
* `main_overflow` — with more files than that, the map overwrites inodes;
* `mkfs_thirty_files` — with 30 files the root has a hole.
-/

namespace AsoPracticas.Xv6.Mkfs

open Lib
open Function (update update_eq_self update_of_ne update_self)
open List (append_assoc append_nil length_append length_cons length_nil length_singleton)

variable {E : Abort → Prop} {s : Image} {n : UInt32} {files : List HostFile}

/-! ## ialloc -/

theorem slot_of_addrs_zero {v : Volume} (hd : (v.inode n).addrs = fun _ => 0) (t : Slot) : v.slot n t = 0 := by
  cases t with
  | addr j => rw [Volume.slot_addr, hd]
  | entry e =>
    have hind : (v.inode n).indirect = 0 := congrFun hd _
    rw [Volume.slot_entry, if_pos hind]

theorem allocated_newInode {v : Volume} (h : v.Allocated areaSb) (hn : (v.inode n).type = 0) {d : Dinode}
    (hd : d.addrs = fun _ => 0) : (v.setInode n d).Allocated areaSb := by
  have hown : (v.setInode n d).own = v.own := by
    funext ⟨m, t⟩
    by_cases hm : m = n
    · subst hm
      have hzero : (v.setInode m d).slot m t = 0 := by
        apply slot_of_addrs_zero
        rw [Volume.inode_setInode, update_self, hd]
      rw [Volume.own_eq_none_iff.2 (.inr hzero), Volume.own_eq_none_iff.2 (.inl hn)]
    · have hinode : (v.setInode n d).inode m = v.inode m := update_of_ne hm ..
      apply Volume.own_congr
      · rw [hinode]
      · apply Volume.slot_of_addrs
        · rw [hinode]
        · rfl
  exact ⟨by rw [hown]; exact h.exclusive, h.metadata⟩

theorem filled_empty {v : Volume} (hd : (v.inode n).addrs = fun _ => 0) : Filled v n 0 := by
  refine ⟨fun c _ => ?_, ?_⟩
  · simp only [Nat.zero_le, iff_true]
    grind [fileSlot, Volume.fileBlock, Volume.fileBlock_eq_none_iff, slot_of_addrs_zero]
  · simp only [Nat.zero_le, iff_true]
    exact congrFun hd _

theorem ialloc_ensures (h : Layout s) (hv : s.volume.Allocated areaSb) (hn : s.freeinode < areaSb.ninodes)
    (hunused : (s.volume.inode s.freeinode).type = 0) {type : UInt16} :
    Ensures (ialloc type) s (fun inum s' => inum = s.freeinode ∧ Layout s' ∧ s'.volume.Allocated areaSb ∧
      s'.freeinode = s.freeinode + 1 ∧ s'.freeblock = s.freeblock ∧ File s'.volume s.freeinode type [] ∧
      (∀ m, m ≠ s.freeinode → s'.volume.inode m = s.volume.inode m) ∧
      ∀ m, m ≠ s.freeinode → ∀ type bytes, File s.volume m type bytes → File s'.volume m type bytes) E := by
  have hl : Layout { s with freeinode := s.freeinode + 1 } := ⟨h.len, h.super, h.start_le, h.le_size, h.zero⟩
  unfold ialloc
  rw [ensures_bind, ensures_get, ensures_bind, ensures_modify]
  refine (winode_ensures hl hn _).bind ?_
  rintro _ s' ⟨hl', hvol, hfreeinode, hfreeblock⟩
  have hview : s'.volume = s.volume.setInode s.freeinode { newDinode type with nlink := 1 } := hvol
  have hself : s'.volume.inode s.freeinode = { newDinode type with nlink := 1 } := by
    rw [hview, Volume.inode_setInode, update_self]
  have hother : ∀ m, m ≠ s.freeinode → s'.volume.inode m = s.volume.inode m := by
    intro m hm
    rw [hview, Volume.inode_setInode, update_of_ne hm]
  refine ⟨rfl, hl', ?_, hfreeinode, hfreeblock, ?_, hother, ?_⟩
  · rw [hview]
    exact allocated_newInode hv hunused rfl
  · refine ⟨by rw [hself]; rfl, by rw [hself], by rw [hself]; rfl, ?_, fun i hi => absurd hi (Nat.not_lt_zero i),
      Nat.zero_le _⟩
    exact filled_empty (by rw [hself]; rfl)
  · intro m hm type' bytes hfile
    refine hfile.congr (hother m hm) fun c => ?_
    refine Volume.fileBlock_of_addrs (by rw [hother m hm]) ?_ c
    rw [hview]
    rfl

/-! ## The root and the files -/

def rootBytes (files : List HostFile) : List UInt8 :=
  dirent 1 dot ++ dirent 1 dotdot ++ (files.mapIdx fun i f => dirent (UInt16.ofNat (2 + i)) f.stored).flatten

theorem length_strncpy (k : Nat) (t : List UInt8) : (strncpy k t).length = k := by
  induction k generalizing t with
  | zero => rfl
  | succ k ih =>
    unfold strncpy
    split
    · rw [length_cons, ih]
    · exact List.length_replicate

theorem length_dirent (inum : UInt16) (name : List UInt8) : (dirent inum name).length = 16 := by
  rw [dirent, length_cons, length_cons, length_strncpy]
  rfl

theorem rootBytes_concat (files : List HostFile) (f : HostFile) : rootBytes (files ++ [f]) =
    rootBytes files ++ dirent (UInt16.ofNat (2 + files.length)) f.stored := by
  rw [rootBytes, rootBytes, List.mapIdx_concat, List.flatten_concat, append_assoc, append_assoc,
    append_assoc]

theorem length_rootBytes (files : List HostFile) : (rootBytes files).length = 16 * (2 + files.length) := by
  induction files using List.reverseRecOn with
  | nil => simp [rootBytes, length_dirent]
  | append_singleton files f ih =>
    rw [rootBytes_concat, length_append, ih, length_dirent, length_append, length_singleton]
    omega

/-- The first block that is free when the files are on the image. -/
def blocksUsed (files : List HostFile) : Nat :=
  59 + blocksFor (rootBytes files).length + (files.map fun f => blocksFor f.bytes.length).sum

theorem blocksUsed_concat (files : List HostFile) (f : HostFile) : blocksUsed (files ++ [f]) =
    blocksUsed files + (blocksFor (rootBytes (files ++ [f])).length - blocksFor (rootBytes files).length) +
      blocksFor f.bytes.length := by
  have hmono : blocksFor (rootBytes files).length ≤ blocksFor (rootBytes (files ++ [f])).length := by
    apply blocksFor_mono
    rw [rootBytes_concat, length_append]
    exact Nat.le_add_right ..
  simp only [blocksUsed, List.map_append, List.sum_append, List.map_cons, List.map_nil, List.sum_cons, List.sum_nil]
  omega

theorem blocksUsed_le_append (files rest : List HostFile) : blocksUsed files ≤ blocksUsed (files ++ rest) := by
  induction rest generalizing files with
  | nil => rw [append_nil]
  | cons f rest ih => grind [List.append_cons, le_trans, blocksUsed_concat]

/-- The files `files` are on the image, in this order, and nothing else. -/
structure Made (s : Image) (files : List HostFile) : Prop where
  named : ∀ f ∈ files, slash ∉ f.name
  layout : Layout s
  allocated : s.volume.Allocated areaSb
  freeinode : s.freeinode = UInt32.ofNat (2 + files.length)
  freeblock : s.freeblock.toNat = blocksUsed files
  unused : ∀ m : UInt32, m = 0 ∨ 2 + files.length ≤ m.toNat → s.volume.inode m = newDinode 0
  root : File s.volume ROOTINO T_DIR (rootBytes files)
  file : ∀ i (hi : i < files.length), File s.volume (UInt32.ofNat (2 + i)) T_FILE files[i].bytes

/-- What `mkfs` needs to finish; or else the stop is in `E`. -/
structure Fits (E : Abort → Prop) (files : List HostFile) : Prop where
  name : E .assertion ∨ ∀ f ∈ files, slash ∉ f.name
  opened : E .exit ∨ ∀ f ∈ files, f.chunks ≠ none
  size : E .assertion ∨ ∀ f ∈ files, f.bytes.length ≤ MAXFILE * BSIZE
  blocks : E .exit ∨ blocksUsed files ≤ 1000

theorem joined_nil : joined [] = [] := rfl

theorem joined_cons (buf : Chunk) (chunks : List Chunk) : joined (buf :: chunks) = buf.bytes ++ joined chunks :=
  List.flatten_cons

theorem chunks_ensures (hn : n < areaSb.ninodes) {type : UInt16} (htype : type ≠ 0) (chunks : List Chunk) :
    ∀ (bytes : List UInt8) (s : Image), Layout s → s.volume.Allocated areaSb → File s.volume n type bytes →
      (E .assertion ∨ bytes.length + (joined chunks).length ≤ MAXFILE * BSIZE) →
      Room E (blocksFor (bytes.length + (joined chunks).length) - blocksFor bytes.length) s →
      Ensures (chunks.forM fun buf => iappend n buf.bytes) s (fun _ s' =>
        File s'.volume n type (bytes ++ joined chunks) ∧
        Grew s s' n (blocksFor (bytes.length + (joined chunks).length) - blocksFor bytes.length)) E := by
  induction chunks with
  | nil =>
    intro bytes s h hv hfile _ _
    refine ⟨?_, h, hv, rfl, ?_, fun _ _ => rfl, fun _ _ _ _ _ hf => hf⟩
    · rw [joined_nil, append_nil]
      exact hfile
    · rw [joined_nil, length_nil, Nat.add_zero, Nat.sub_self, Nat.add_zero]
  | cons buf chunks ih =>
    intro bytes s h hv hfile hmax hroom
    have hlen : bytes.length + (joined (buf :: chunks)).length =
        (bytes ++ buf.bytes).length + (joined chunks).length := by
      rw [joined_cons, length_append, length_append, Nat.add_assoc]
    rw [hlen] at hmax hroom ⊢
    rw [joined_cons, ← append_assoc]
    have hmono := blocksFor_mono (Nat.le_add_right bytes.length buf.bytes.length)
    have hmono' := blocksFor_mono (Nat.le_add_right (bytes ++ buf.bytes).length (joined chunks).length)
    rw [← length_append] at hmono
    refine (iappend_ensures h hv hn htype hfile ?_ ?_).bind ?_
    · rw [← length_append]
      exact hmax.imp_right (by omega)
    · rw [← length_append]
      exact hroom.mono (by omega)
    rintro _ s1 ⟨hfile1, hgrew⟩
    rw [← length_append] at hgrew
    have hfree := hgrew.freeblock
    refine (ih (bytes ++ buf.bytes) s1 hgrew.layout hgrew.allocated hfile1 hmax ?_).mono ?_
    · exact hroom.imp_right (by omega)
    · rintro _ s' ⟨hfile', hgrew'⟩
      refine ⟨hfile', ?_⟩
      have hall := hgrew.trans hgrew'
      rwa [Nat.add_comm, tsub_add_tsub_cancel hmono' hmono] at hall

theorem ofNat_inj {x y : Nat} (hx : x < 2 ^ 32) (hy : y < 2 ^ 32) (h : UInt32.ofNat x = UInt32.ofNat y) : x = y := by
  have htoNat := congrArg UInt32.toNat h
  rwa [toNat_ofNat32 hx, toNat_ofNat32 hy] at htoNat

theorem inum_lt {k : Nat} (h : k < 208) : UInt32.ofNat k < areaSb.ninodes := by
  have hninodes : areaSb.ninodes.toNat = 208 := by decide
  rw [UInt32.lt_iff_toNat_lt, hninodes, toNat_ofNat32 (by omega)]
  exact h

theorem toUInt16_ofNat (k : Nat) : (UInt32.ofNat k).toUInt16 = UInt16.ofNat k := by
  apply UInt16.toNat_inj.1
  rw [UInt32.toNat_toUInt16, UInt32.toNat_ofNat', UInt16.toNat_ofNat']
  omega

theorem blocksFor_zero : blocksFor 0 = 0 := by decide

theorem toNat_of_unused {k : Nat} {m : UInt32} (hm : m = 0 ∨ k ≤ m.toNat) : m.toNat = 0 ∨ k ≤ m.toNat :=
  hm.imp_left fun hzero => congrArg UInt32.toNat hzero

theorem addFile_ensures {done : List HostFile} {f : HostFile} (h : Made s done) (hlen : done.length < 206)
    (hname : E .assertion ∨ slash ∉ f.name) (hopen : E .exit ∨ f.chunks ≠ none)
    (hsize : E .assertion ∨ f.bytes.length ≤ MAXFILE * BSIZE)
    (hblocks : E .exit ∨ blocksUsed (done ++ [f]) ≤ 1000) :
    Ensures (addFile ROOTINO f) s (fun _ s' => Made s' (done ++ [f])) E := by
  have hroot : ROOTINO.toNat = 1 := rfl
  have hinum := inum_lt (show 2 + done.length < 208 by omega)
  have hto : (UInt32.ofNat (2 + done.length)).toNat = 2 + done.length := toNat_ofNat32 (by omega)
  have hne : ROOTINO ≠ UInt32.ofNat (2 + done.length) := by
    intro heq
    rw [heq] at hroot
    omega
  have hbefore : ∀ i, i < done.length → UInt32.ofNat (2 + i) ≠ UInt32.ofNat (2 + done.length) := by
    intro i hi heq
    have hij := ofNat_inj (by omega) (by omega) heq
    omega
  have hused := blocksUsed_concat done f
  have hlast := length_rootBytes (done ++ [f])
  have hconcat := rootBytes_concat done f
  have hsum : (rootBytes (done ++ [f])).length =
      (rootBytes done).length + (dirent (UInt16.ofNat (2 + done.length)) f.stored).length := by
    rw [hconcat, length_append]
  have hfree := h.freeblock
  unfold addFile
  split
  · rename_i hslash
    exact hname.resolve_right fun hno => hno hslash
  rename_i hslash
  split
  · rename_i hnone
    exact hopen.resolve_right fun hno => hno hnone
  rename_i chunks hchunks
  have hbytes : f.bytes = joined chunks := by rw [HostFile.bytes, hchunks, Option.getD_some]
  refine (ialloc_ensures h.layout h.allocated (by rwa [h.freeinode]) ?_).bind ?_
  · rw [h.freeinode, h.unused _ (.inr hto.ge)]
    rfl
  rintro _ s1 ⟨rfl, hl1, hv1, hfreeinode, hfreeblock, hnew, hinode1, hkeep1⟩
  rw [h.freeinode] at hnew hinode1 hkeep1 hfreeinode ⊢
  rw [toUInt16_ofNat]
  refine (iappend_ensures hl1 hv1 (by decide) (by decide) (hkeep1 _ hne _ _ h.root) ?_ ?_).bind ?_
  · right
    rw [← hsum, hlast, length_append, length_singleton, show MAXFILE * BSIZE = 71680 from rfl]
    omega
  · rw [← hsum]
    refine hblocks.imp_right fun hle => ?_
    rw [hfreeblock]
    omega
  rintro _ s2 ⟨hroot2, hgrew2⟩
  rw [← hconcat] at hroot2
  rw [← hsum] at hgrew2
  have hfree2 := hgrew2.freeblock
  rw [hfreeblock, hfree] at hfree2
  have hnew2 := hgrew2.others _ hne.symm _ _ (by decide) hnew
  refine (chunks_ensures hinum (by decide) chunks [] s2 hgrew2.layout hgrew2.allocated hnew2 ?_ ?_).mono ?_
  · rw [length_nil, Nat.zero_add, ← hbytes]
    exact hsize
  · rw [length_nil, Nat.zero_add, ← hbytes, blocksFor_zero, Nat.sub_zero]
    refine hblocks.imp_right fun hle => ?_
    omega
  rintro _ s3 ⟨hnew3, hgrew3⟩
  rw [length_nil, Nat.zero_add, ← hbytes, blocksFor_zero, Nat.sub_zero] at hgrew3
  rw [List.nil_append, ← hbytes] at hnew3
  have hfree3 := hgrew3.freeblock
  refine ⟨?_, hgrew3.layout, hgrew3.allocated, ?_, ?_, ?_, ?_, ?_⟩
  · intro g hg
    rcases List.mem_append.1 hg with hold | hnew
    · exact h.named g hold
    · rw [List.mem_singleton.1 hnew]
      exact hslash
  · rw [hgrew3.freeinode, hgrew2.freeinode, hfreeinode]
    apply UInt32.toNat_inj.1
    rw [toNat_succ (by omega), hto, length_append, length_singleton, toNat_ofNat32 (by omega)]
    omega
  · rw [hfree3, hfree2, hused]
  · intro m hm
    rw [length_append, length_singleton] at hm
    have hm' := toNat_of_unused hm
    have hnew' : m ≠ UInt32.ofNat (2 + done.length) := by
      rintro rfl
      omega
    have hroot' : m ≠ ROOTINO := by
      rintro rfl
      omega
    rw [hgrew3.inode m hnew', hgrew2.inode m hroot', hinode1 m hnew']
    exact h.unused m (hm.imp_right (by omega))
  · exact hgrew3.others _ hne _ _ (by decide) hroot2
  · intro i hi
    rw [length_append, length_singleton] at hi
    by_cases hlt : i < done.length
    · rw [List.getElem_append_left hlt]
      have hroot' : UInt32.ofNat (2 + i) ≠ ROOTINO := by
        intro heq
        rw [← heq, toNat_ofNat32 (by omega)] at hroot
        omega
      refine hgrew3.others _ (hbefore i hlt) _ _ (by decide) ?_
      exact hgrew2.others _ hroot' _ _ (by decide) (hkeep1 _ (hbefore i hlt) _ _ (h.file i hlt))
    · obtain rfl : i = done.length := by omega
      rw [List.getElem_concat_length rfl]
      exact hnew3

theorem addFiles_ensures (rest : List HostFile) :
    ∀ (done : List HostFile) (s : Image), Made s done → done.length + rest.length ≤ 206 → Fits E (done ++ rest) →
      Ensures (rest.forM (addFile ROOTINO)) s (fun _ s' => Made s' (done ++ rest)) E := by
  induction rest with
  | nil =>
    intro done s h _ _
    rw [append_nil]
    exact h
  | cons f rest ih =>
    intro done s h hlen hfits
    rw [length_cons] at hlen
    rw [List.append_cons] at hfits ⊢
    have hmem : f ∈ done ++ [f] ++ rest := by simp
    refine (addFile_ensures h (by omega) (hfits.name.imp_right fun hall => hall f hmem)
      (hfits.opened.imp_right fun hall => hall f hmem) (hfits.size.imp_right fun hall => hall f hmem)
      (hfits.blocks.imp_right (blocksUsed_le_append ..).trans)).bind ?_
    intro _ s1 hmade
    refine ih (done ++ [f]) s1 hmade ?_ hfits
    rw [length_append, length_singleton]
    omega

/-! ## The empty image -/

def blank : Image := { start with disk := update (fun _ _ => 0) 1 (superBlock sb), len := FSSIZE }

theorem zeroes_ensures {size : Nat} (hsize : size ≤ 1000) :
    Ensures ((List.range size).forM fun i => wsect (UInt32.ofNat i) fun _ => 0) start
      (fun _ s' => s' = { start with len := size }) E := by
  refine ensures_forM_range (fun i s => s = { start with len := i }) ?_ rfl
  rintro i hi _ rfl
  have hsector : sector (UInt32.ofNat i) = UInt32.ofNat i := by
    apply sector_eq
    rw [toNat_ofNat32 (by omega)]
    omega
  have hmax : max i ((UInt32.ofNat i).toNat + 1) = i + 1 := by
    rw [toNat_ofNat32 (by omega)]
    omega
  have hzero : update start.disk (UInt32.ofNat i) (fun _ => 0) = start.disk :=
    update_eq_self (UInt32.ofNat i) start.disk
  unfold wsect
  rw [ensures_modify, hsector]
  simp only [hmax, hzero]

theorem blank_disk : blank.disk = update (fun _ _ => 0) 1 (superBlock sb) := rfl

theorem blank_layout : Layout blank where
  len := rfl
  super := by rw [blank_disk, update_self]
  start_le := by decide
  le_size := by decide
  zero := by
    intro b hb
    have hne : b ≠ 1 := by
      rintro rfl
      exact absurd hb (by decide)
    rw [blank_disk, update_of_ne hne]

theorem inode_blank (m : UInt32) : blank.volume.inode m = newDinode 0 := by
  by_cases hm : m < areaSb.ninodes
  · have hinode : blank.volume.inode m = dinodeAt (blank.disk (IBLOCK m sb)) m := if_pos hm
    rw [hinode, blank_disk, update_of_ne (IBLOCK_lt hm).2]
    simp only [dinodeAt, getU16, getByte_zero, getU32_zero]
    rfl
  · exact if_neg hm

theorem type_blank (m : UInt32) : (blank.volume.inode m).type = 0 := by
  rw [inode_blank]
  rfl

theorem blank_allocated : blank.volume.Allocated areaSb := by
  have hown : ∀ p, blank.volume.own p = none := fun p => Volume.own_eq_none_iff.2 (.inl (type_blank p.1))
  have hused : ∀ b, blank.volume.used b = true ↔ b.toNat < 59 := fun b => decide_eq_true_iff
  refine ⟨⟨?_, ?_⟩, ?_⟩
  all_goals grind [areaSb_data_iff, areaSb_dataStart]

theorem Room.of_le {f : Nat} (h : s.freeblock.toNat + f ≤ 1000) : Room E f s := .inr h

theorem root_ensures {α : Type} {f : UInt32 → Mk α} {Q : α → Image → Prop}
    (hf : ∀ s, Made s [] → Ensures (f ROOTINO) s Q E) :
    Ensures (do
      let rootino ← ialloc T_DIR
      if rootino ≠ ROOTINO then throw .assertion
      else
        iappend rootino (dirent rootino.toUInt16 dot)
        iappend rootino (dirent rootino.toUInt16 dotdot)
        f rootino) blank Q E := by
  have hfreeinode : blank.freeinode = ROOTINO := rfl
  have hmax : MAXFILE * BSIZE = 71680 := rfl
  have hblocks : blocksFor 0 = 0 ∧ blocksFor 16 = 1 ∧ blocksFor 32 = 1 := by decide
  have hfree : blank.freeblock.toNat = 59 := by decide
  have hdot : (dirent 1 dot).length = 16 := length_dirent ..
  have hdotdot : (dirent 1 dotdot).length = 16 := length_dirent ..
  refine (ialloc_ensures blank_layout blank_allocated (by decide) (type_blank _)).bind ?_
  rintro _ s1 ⟨rfl, hl, hv, hnext, hfreeblock, hroot, hinode, -⟩
  rw [hfreeinode] at hroot hinode hnext ⊢
  rw [if_neg (not_not.2 rfl), show ROOTINO.toUInt16 = 1 from rfl]
  have hgrow : blocksFor (0 + (dirent 1 dot).length) - blocksFor 0 = 1 := by
    rw [hdot, Nat.zero_add, hblocks.1, hblocks.2.1]
  refine (iappend_ensures (p := dirent 1 dot) hl hv (by decide) (by decide) hroot (.inr ?_) ?_).bind ?_
  · rw [length_nil, hdot, hmax]
    decide
  · apply Room.of_le
    rw [length_nil, hgrow, hfreeblock, hfree]
    decide
  rintro _ s2 ⟨hroot2, hgrew2⟩
  rw [List.nil_append] at hroot2
  rw [length_nil, hgrow] at hgrew2
  have hgrow2 : blocksFor ((dirent 1 dot).length + (dirent 1 dotdot).length) - blocksFor (dirent 1 dot).length =
      0 := by
    rw [hdot, hdotdot, hblocks.2.1, hblocks.2.2]
  have hfree2 := hgrew2.freeblock
  rw [hfreeblock, hfree] at hfree2
  refine (iappend_ensures (p := dirent 1 dotdot) hgrew2.layout hgrew2.allocated (by decide) (by decide) hroot2
    (.inr ?_) ?_).bind ?_
  · rw [hdot, hdotdot, hmax]
    decide
  · apply Room.of_le
    rw [hgrow2, hfree2]
    decide
  rintro _ s3 ⟨hroot3, hgrew3⟩
  rw [hgrow2] at hgrew3
  apply hf
  refine ⟨fun f hf => absurd hf List.not_mem_nil, hgrew3.layout, hgrew3.allocated, ?_, ?_, ?_, ?_,
    fun i hi => absurd hi (Nat.not_lt_zero i)⟩
  · rw [hgrew3.freeinode, hgrew2.freeinode, hnext]
    rfl
  · rw [hgrew3.freeblock, hfree2, blocksUsed, length_rootBytes]
    exact congrArg (59 + ·) hblocks.2.2.symm
  · intro m hm
    have hne : m ≠ ROOTINO := by
      rintro rfl
      rcases hm with hzero | hge
      · exact absurd hzero (by decide)
      · exact absurd hge (by decide)
    rw [hgrew3.inode m hne, hgrew2.inode m hne, hinode m hne]
    exact inode_blank m
  · rw [rootBytes, List.mapIdx_nil, List.flatten_nil, append_nil]
    exact hroot3

/-! ## The last steps -/

theorem bit_usedMap {used : Nat} (h : used ≤ BPB) (j : Nat) : bit (usedMap used) j = decide (j < used) := by
  induction used with
  | zero => simp [usedMap, bit, getByte_zero]
  | succ used ih =>
    have hB : BPB = 4096 := rfl
    have hstep : usedMap (used + 1) = setBit (usedMap used) used := by
      rw [usedMap, List.range_succ, List.foldl_concat, usedMap]
    have hin : used / 8 < BSIZE := by
      rw [show BSIZE = 512 from rfl]
      omega
    rw [hstep, bit_setBit hin, ih (by omega), Bool.eq_iff_iff]
    simp only [Bool.or_eq_true, decide_eq_true_eq]
    omega

theorem nmeta_eq : nmeta = 59 := by decide

theorem fssize_eq : FSSIZE = 1000 := rfl

theorem used_diskVolume {disk : Disk} {b : UInt32} (hb : b.toNat < 1000) :
    (diskVolume areaSb disk).used b = bit (disk sb.bmapstart) b.toNat := by
  have hsize : areaSb.size.toNat = 1000 := by decide
  have hlt : b < areaSb.size := by rwa [UInt32.lt_iff_toNat_lt, hsize]
  have hblock : BBLOCK b areaSb = sb.bmapstart := by
    apply UInt32.toNat_inj.1
    rw [areaSb_geometry.BBLOCK_toNat hlt, show BPB = 4096 from rfl, show areaSb.bmapstart = sb.bmapstart from rfl]
    omega
  simp only [diskVolume, hlt, decide_true, Bool.true_and, hblock]
  rw [Nat.mod_eq_of_lt (hb.trans (by decide))]

def rootSize (files : List HostFile) : Nat := ((rootBytes files).length / BSIZE + 1) * BSIZE

theorem Layout.volume_map (h : Layout s) :
    diskVolume areaSb (s.store sb.bmapstart (usedMap s.freeblock.toNat)).disk = s.volume := by
  have hle := h.le_size
  have hmap : sb.bmapstart.toNat = 58 := by decide
  have hsize : areaSb.size.toNat = 1000 := by decide
  apply Volume.ext
  · funext n
    by_cases hn : n < areaSb.ninodes
    · have hne : IBLOCK n areaSb ≠ sb.bmapstart := by grind [areaSb_geometry.IBLOCK_lt hn, areaSb]
      simp only [diskVolume, Image.volume, Image.store, hn, if_true, update_of_ne hne]
    · simp only [diskVolume, Image.volume, hn, if_false]
  · funext b
    by_cases hb : b < areaSb.size
    · have hlt : b.toNat < 1000 := by rwa [UInt32.lt_iff_toNat_lt, hsize] at hb
      rw [used_diskVolume hlt, Image.disk_store, update_self, bit_usedMap (hle.trans (by decide))]
      rfl
    grind [diskVolume, areaSb, usedMap, Image.volume, UInt32.lt_iff_toNat_lt]
  · funext b
    by_cases hb : areaSb.Data b
    · have hne : b ≠ sb.bmapstart := by
        rintro rfl
        have hge := (areaSb_data_iff.1 hb).1
        rw [hmap] at hge
        exact absurd hge (by decide)
      simp only [diskVolume, Image.volume, Image.store, hb, if_true, update_of_ne hne]
    · simp only [diskVolume, Image.volume, hb, if_false]

/-- The image that `mkfs` leaves. -/
structure Finished (s : Image) (files : List HostFile) : Prop where
  named : ∀ f ∈ files, slash ∉ f.name
  super : s.disk 1 = superBlock sb
  allocated : (diskVolume areaSb s.disk).Allocated areaSb
  map : s.disk sb.bmapstart = usedMap s.freeblock.toNat
  le_size : s.freeblock.toNat ≤ 1000
  unused : ∀ m : UInt32, m = 0 ∨ 2 + files.length ≤ m.toNat → (diskVolume areaSb s.disk).inode m = newDinode 0
  root_type : ((diskVolume areaSb s.disk).inode ROOTINO).type = T_DIR
  root_nlink : ((diskVolume areaSb s.disk).inode ROOTINO).nlink = 1
  root_size : ((diskVolume areaSb s.disk).inode ROOTINO).size.toNat = rootSize files
  root_filled : Filled (diskVolume areaSb s.disk) ROOTINO (rootBytes files).length
  root_byte : ∀ i, i < (rootBytes files).length → (diskVolume areaSb s.disk).byte ROOTINO i = (rootBytes files).getD i 0
  file : ∀ i (hi : i < files.length), File (diskVolume areaSb s.disk) (UInt32.ofNat (2 + i)) T_FILE files[i].bytes

theorem finish_ensures (h : Made s files) (hlen : files.length ≤ 206) :
    Ensures (do
      fixSize ROOTINO
      balloc (← get).freeblock.toNat) s (fun _ s' => Finished s' files) E := by
  have hle := h.layout.le_size
  have hroot := h.root
  have hbytes := length_rootBytes files
  unfold fixSize
  rw [ensures_bind]
  refine (rinode_ensures h.layout (by decide)).bind ?_
  rintro _ s ⟨rfl, rfl⟩
  refine (winode_ensures h.layout (by decide) _).mono ?_
  rintro _ s1 ⟨hl, hvol, -, hfree⟩
  rw [ensures_bind, ensures_get]
  unfold balloc
  rw [hfree, if_pos (by rw [show BSIZE * 8 = 4096 from rfl]; omega)]
  refine (wsect_ensures hl (by decide) _).mono ?_
  rintro _ s' rfl
  rw [← hfree]
  have hmap := hl.volume_map
  generalize hd : ({ s.volume.inode ROOTINO with
    size := ((s.volume.inode ROOTINO).size / UInt32.ofNat BSIZE + 1) * UInt32.ofNat BSIZE } : Dinode) = d at hvol
  have hdisk : diskVolume areaSb (s1.store sb.bmapstart (usedMap s1.freeblock.toNat)).disk = s.view ROOTINO d :=
    hmap.trans hvol
  have haddrs : d.addrs = (s.volume.inode ROOTINO).addrs := by rw [← hd]
  have htype : d.type = (s.volume.inode ROOTINO).type := by rw [← hd]
  have hself := Image.view_self s ROOTINO
  -- the blocks of the files are as before
  have hblock : ∀ m c, (s.view ROOTINO d).fileBlock m c = s.volume.fileBlock m c := by
    intro m c
    apply Volume.fileBlock_of_addrs
    · have hfield := Image.field_view (s := s) (n := ROOTINO) Dinode.addrs haddrs m
      rwa [hself] at hfield
    · rfl
  have hsize : (s.volume.inode ROOTINO).size.toNat = 16 * (2 + files.length) := by rw [hroot.size, hbytes]
  constructor
  case named => exact h.named
  case super => rw [Image.disk_store, update_of_ne (by decide), hl.super]
  case map =>
    rfl
  case le_size => exact hl.le_size
  all_goals rw [hdisk]
  case allocated =>
    have hself' := h.allocated
    rw [← hself] at hself'
    refine hself'.of_addrs (Image.field_view Dinode.type htype) (Image.field_view Dinode.addrs haddrs) rfl rfl
  case unused =>
    intro m hm
    have hne : m ≠ ROOTINO := by
      rintro rfl
      rcases hm with hzero | hge
      · exact absurd hzero (by decide)
      · rw [show ROOTINO.toNat = 1 from rfl] at hge
        omega
    rw [Image.inode_view_of_ne hne]
    exact h.unused m hm
  case root_type => rw [Image.inode_view, htype, hroot.type]
  case root_nlink =>
    rw [Image.inode_view, ← hd]
    exact hroot.nlink
  case root_size =>
    have hB : (UInt32.ofNat BSIZE).toNat = 512 := rfl
    have hone : (1 : UInt32).toNat = 1 := rfl
    rw [Image.inode_view, ← hd, rootSize, hbytes]
    simp only [UInt32.toNat_mul, UInt32.toNat_add, UInt32.toNat_div, hB, hone, hsize]
    rw [show BSIZE = 512 from rfl]
    omega
  case root_filled =>
    refine ⟨fun c hc => ?_, ?_⟩
    · rw [hblock, hroot.filled.blocks c hc]
    · rw [Image.inode_view, ← hroot.filled.indirect, Dinode.indirect, haddrs]
      rfl
  case root_byte =>
    intro i hi
    rw [Volume.byte_congr (hblock ROOTINO), hroot.byte i hi]
  case file =>
    intro i hi
    have hne : UInt32.ofNat (2 + i) ≠ ROOTINO := by
      intro heq
      have hto := congrArg UInt32.toNat heq
      rw [toNat_ofNat32 (by omega), show ROOTINO.toNat = 1 from rfl] at hto
      omega
    exact (h.file i hi).congr (Image.inode_view_of_ne hne) (hblock _)

theorem main_start {Q : Unit → Image → Prop}
    (hf : ∀ s, Made s [] → Ensures (do
      files.forM (addFile ROOTINO)
      fixSize ROOTINO
      balloc (← get).freeblock.toNat) s Q E) :
    Ensures (main files) start Q E := by
  have hsector : sector 1 = 1 := by decide
  unfold main
  refine (zeroes_ensures (by decide)).bind ?_
  rintro _ _ rfl
  have hblank : Ensures (wsect 1 (superBlock sb)) { start with len := FSSIZE } (fun _ s' => s' = blank) E := by
    rfl
  refine hblank.bind ?_
  rintro _ _ rfl
  exact root_ensures hf

theorem main_ensures (hlen : files.length ≤ 206) (hfits : Fits E files) :
    Ensures (main files) start (fun _ s' => Finished s' files) E := by
  refine main_start fun s hs => ?_
  refine (addFiles_ensures files [] s hs (by simpa using hlen) hfits).bind ?_
  intro _ s1 hs1
  exact finish_ensures hs1 hlen

theorem mkfs_eq_ok : mkfs files = .ok s ↔ main files start = .ok ((), s) := by
  unfold mkfs
  cases main files start with
  | error e => simp [Except.map]
  | ok r =>
    obtain ⟨⟨⟩, s'⟩ := r
    simp [Except.map]

theorem fits_true (files : List HostFile) : Fits (fun _ => True) files :=
  ⟨.inl trivial, .inl trivial, .inl trivial, .inl trivial⟩

theorem Finished.of_mkfs (hlen : files.length ≤ 206) (hrun : mkfs files = .ok s) :
    Finished s files :=
  (main_ensures hlen (fits_true files)).of_ok (mkfs_eq_ok.1 hrun)

theorem Finished.diskVolume_sb (h : Finished s files) (hlen : files.length ≤ 198) :
    diskVolume sb s.disk = diskVolume areaSb s.disk := by
  have hninodes : sb.ninodes.toNat = 200 ∧ areaSb.ninodes.toNat = 208 := by decide
  apply Volume.ext
  · funext n
    by_cases hn : n < sb.ninodes
    · rw [UInt32.lt_iff_toNat_lt] at hn
      have harea : n < areaSb.ninodes := by
        rw [UInt32.lt_iff_toNat_lt]
        omega
      exact (if_pos (UInt32.lt_iff_toNat_lt.2 hn)).trans (if_pos harea).symm
    · refine (if_neg hn).trans (h.unused n (.inr ?_)).symm
      rw [UInt32.lt_iff_toNat_lt] at hn
      omega
  · rfl
  · rfl

/-! ## More files than inodes

`ialloc` does not look whether there are inodes left.  From the 207th file on it takes them from the block
of the map, and `balloc` then writes the map over them.  Nothing is known about the files any more, but
blocks are still handed out in order, up to the end of the image. -/

/-- What every step of `mkfs` preserves, whatever the inodes hold. -/
structure Bounded (lo : Nat) (s : Image) : Prop where
  len : s.len = 1000
  lo_le : lo ≤ s.freeblock.toNat
  le_size : s.freeblock.toNat ≤ 1000

/-- `Bounded`, once sector `x` has been read: it may be the block that was handed out last. -/
structure Pending (lo : Nat) (x : UInt32) (s : Image) : Prop where
  len : s.len = 1000
  lo_le : lo ≤ s.freeblock.toNat
  le_size : (sector x).toNat < 1000 → s.freeblock.toNat ≤ 1000

variable {lo : Nat} {x : UInt32}

theorem Bounded.pending (h : Bounded lo s) : Pending lo x s := ⟨h.len, h.lo_le, fun _ => h.le_size⟩

theorem rsect_inside (hlen : s.len = 1000) :
    Ensures (rsect x) s (fun _ s' => s' = s ∧ (sector x).toNat < 1000) fun _ => True := by
  unfold rsect
  rw [ensures_bind, ensures_get, hlen]
  split
  · exact ⟨rfl, ‹_›⟩
  · trivial

theorem wsect_inside (hx : (sector x).toNat < 1000) (hlen : s.len = 1000) (buf : Block) :
    Ensures (wsect x buf) s (fun _ s' => s'.len = 1000 ∧ s'.freeblock = s.freeblock) E := by
  refine ⟨?_, rfl⟩
  change max s.len _ = 1000
  rw [hlen]
  exact Nat.max_eq_left hx

theorem winode_bounded (h : Bounded lo s) (d : Dinode) :
    Ensures (winode n d) s (fun _ s' => Bounded lo s') fun _ => True := by
  refine (rsect_inside h.len).bind ?_
  rintro _ s ⟨rfl, hx⟩
  refine (wsect_inside hx h.len _).mono ?_
  rintro _ s' ⟨hlen, hfree⟩
  exact ⟨hlen, hfree ▸ h.lo_le, hfree ▸ h.le_size⟩

theorem takeBlock_pending (h : Bounded lo s) :
    Ensures takeBlock s (fun b s' => Pending lo b s') E := by
  have hle := h.le_size
  have hlo := h.lo_le
  have hone : (1 : UInt32).toNat = 1 := rfl
  have hsucc : (s.freeblock + 1).toNat = s.freeblock.toNat + 1 := by
    rw [UInt32.toNat_add, hone, Nat.mod_eq_of_lt (by omega)]
  refine ⟨h.len, ?_, ?_⟩
  · change lo ≤ (s.freeblock + 1).toNat
    omega
  · intro hx
    rw [sector_eq (by omega)] at hx
    change (s.freeblock + 1).toNat ≤ 1000
    omega

theorem iappendAddr_pending (h : Bounded lo s) (d : Dinode) (j : Fin (NDIRECT + 1)) :
    Ensures (iappendAddr d j) s (fun d' s' => Pending lo (d'.addrs j) s') E := by
  unfold iappendAddr
  split
  · refine (takeBlock_pending h).bind fun b s' hb => ?_
    have haddr : (d.withAddr j b).addrs j = b := update_self ..
    rwa [ensures_pure, haddr]
  · exact h.pending

theorem iappendEntry_pending (h : Pending lo x s) (j : Nat) :
    Ensures (iappendEntry x j) s (fun b s' => Pending lo b s') fun _ => True := by
  refine (rsect_inside h.len).bind ?_
  rintro indirect s ⟨rfl, hx⟩
  have hs : Bounded lo s := ⟨h.len, h.lo_le, h.le_size hx⟩
  split
  · refine (takeBlock_pending hs).bind fun b s1 hb => ?_
    refine (wsect_inside hx hb.len _).bind ?_
    rintro _ s' ⟨hlen, hfree⟩
    exact ⟨hlen, hfree ▸ hb.lo_le, hfree ▸ hb.le_size⟩
  · exact hs.pending

theorem iappendBlock_pending (h : Bounded lo s) (d : Dinode) (c : Nat) :
    Ensures (iappendBlock d c) s (fun r s' => Pending lo r.1 s') fun _ => True := by
  unfold iappendBlock
  split
  · exact (iappendAddr_pending h d _).bind fun _ _ hd => hd
  · refine (iappendAddr_pending h d _).bind fun d' s1 hd => ?_
    exact (iappendEntry_pending hd _).bind fun _ _ hb => hb

theorem iappendLoop_bounded : ∀ (fuel : Nat) (p : List UInt8) (d : Dinode) (off : Nat) (s : Image), Bounded lo s →
    Ensures (iappendLoop fuel p d off) s (fun _ s' => Bounded lo s') fun _ => True := by
  intro fuel
  induction fuel with
  | zero => exact fun _ _ _ _ h => h
  | succ fuel ih =>
    intro p d off s h
    unfold iappendLoop
    split
    · dsimp only
      split
      · refine (iappendBlock_pending h d _).bind ?_
        rintro ⟨x, d'⟩ s1 hx
        refine (rsect_inside hx.len).bind ?_
        rintro buf s1 ⟨rfl, hin⟩
        refine (wsect_inside hin hx.len _).bind ?_
        rintro _ s' ⟨hlen, hfree⟩
        exact ih _ _ _ _ ⟨hlen, hfree ▸ hx.lo_le, hfree ▸ hx.le_size hin⟩
      · trivial
    · exact h

theorem iappend_bounded (h : Bounded lo s) (p : List UInt8) :
    Ensures (iappend n p) s (fun _ s' => Bounded lo s') fun _ => True := by
  unfold iappend rinode
  rw [ensures_bind]
  refine (rsect_inside h.len).bind ?_
  rintro _ s ⟨rfl, -⟩
  refine (iappendLoop_bounded _ _ _ _ s h).bind fun r s1 h1 => ?_
  exact winode_bounded h1 _

theorem ialloc_bounded (h : Bounded lo s) {type : UInt16} :
    Ensures (ialloc type) s (fun _ s' => Bounded lo s') fun _ => True := by
  have hs : Bounded lo { s with freeinode := s.freeinode + 1 } := ⟨h.len, h.lo_le, h.le_size⟩
  unfold ialloc
  rw [ensures_bind, ensures_get, ensures_bind, ensures_modify]
  exact (winode_bounded hs _).bind fun _ _ h1 => h1

theorem addFile_bounded (f : HostFile) (h : Bounded lo s) :
    Ensures (addFile n f) s (fun _ s' => Bounded lo s') fun _ => True := by
  unfold addFile
  split
  · trivial
  split
  · trivial
  · refine (ialloc_bounded h).bind fun _ s1 h1 => ?_
    refine (iappend_bounded h1 _).bind fun _ s2 h2 => ?_
    exact ensures_forM (Bounded lo) (fun buf _ s hs => iappend_bounded hs buf.bytes) h2

theorem main_overflow (hlen : 206 < files.length) :
    Ensures (main files) start (fun _ s' => ∃ used, 66 ≤ used ∧ used ≤ BPB ∧ s'.disk sb.bmapstart = usedMap used)
      fun _ => True := by
  refine main_start fun s hs => ?_
  obtain ⟨first, rest, rfl, hfirst⟩ : ∃ first rest, files = first ++ rest ∧ first.length = 206 :=
    ⟨files.take 206, files.drop 206, (List.take_append_drop 206 files).symm, List.length_take_of_le hlen.le⟩
  have happ : (first ++ rest).forM (addFile ROOTINO) =
      first.forM (addFile ROOTINO) >>= fun _ => rest.forM (addFile ROOTINO) := List.forM_append
  rw [happ, bind_assoc]
  refine (addFiles_ensures first [] s hs (by simp [hfirst]) (fits_true _)).bind fun _ s1 h1 => ?_
  rw [List.nil_append] at h1
  have hused : 66 ≤ s1.freeblock.toNat := by
    have hroot : blocksFor (16 * (2 + 206)) = 7 := by decide
    rw [h1.freeblock, blocksUsed, length_rootBytes, hfirst, hroot]
    omega
  have hb1 : Bounded 66 s1 := ⟨h1.layout.len, hused, h1.layout.le_size⟩
  refine (ensures_forM (Bounded 66) (fun f _ s hs => addFile_bounded f hs) hb1).bind fun _ s2 hb2 => ?_
  unfold fixSize rinode
  rw [ensures_bind, ensures_bind]
  refine (rsect_inside hb2.len).bind ?_
  rintro _ s2 ⟨rfl, -⟩
  refine (winode_bounded hb2 _).mono fun _ s3 hb3 => ?_
  rw [ensures_bind, ensures_get]
  unfold balloc
  split
  · refine ⟨s3.freeblock.toNat, hb3.lo_le, hb3.le_size.trans (by decide), ?_⟩
    dsimp only
    rw [show sector sb.bmapstart = sb.bmapstart by decide, update_self]
  · trivial

/-! ## The books -/

/-- The volume on the image that `mkfs` has made of `files`, with the inodes that it has allocated. -/
def Image.allocated (s : Image) (files : List HostFile) : Volume :=
  { diskVolume sb s.disk with
    inode := fun n => if n.toNat < 2 + files.length then dinodeAt (s.disk (IBLOCK n sb)) n else newDinode 0 }

/-- What the kernel takes for granted about the blocks of an image. -/
structure Books (s : Image) (files : List HostFile) : Prop where
  /-- there are no holes below the size of an inode -/
  complete : ∀ n c, ((s.allocated files).inode n).type ≠ 0 →
    c < (((s.allocated files).inode n).size.toNat + (BSIZE - 1)) / BSIZE →
    ∃ t, fileSlot c = some t ∧ (s.allocated files).slot n t ≠ 0
  /-- no block is in two slots -/
  distinct : ∀ n m t u, ((s.allocated files).inode n).type ≠ 0 → ((s.allocated files).inode m).type ≠ 0 →
    (s.allocated files).slot n t ≠ 0 → (s.allocated files).slot m u = (s.allocated files).slot n t → m = n ∧ u = t
  /-- a block in a slot is a data block, and is marked -/
  marked : ∀ n t, ((s.allocated files).inode n).type ≠ 0 → (s.allocated files).slot n t ≠ 0 →
    nmeta ≤ ((s.allocated files).slot n t).toNat ∧ ((s.allocated files).slot n t).toNat < FSSIZE ∧
    bit (s.disk sb.bmapstart) ((s.allocated files).slot n t).toNat = true
  /-- the other blocks are free -/
  free : ∀ b, s.freeblock.toNat ≤ b → bit (s.disk sb.bmapstart) b = false

theorem Finished.allocated_eq (h : Finished s files) (hlen : files.length ≤ 206) :
    s.allocated files = diskVolume areaSb s.disk := by
  have hninodes : areaSb.ninodes.toNat = 208 := by decide
  apply Volume.ext
  · funext n
    by_cases hn : n.toNat < 2 + files.length
    · have harea : n < areaSb.ninodes := by
        rw [UInt32.lt_iff_toNat_lt]
        omega
      exact (if_pos hn).trans (if_pos harea).symm
    · exact (if_neg hn).trans (h.unused n (.inr (Nat.not_lt.1 hn))).symm
  · rfl
  · rfl

theorem Finished.bit_map (h : Finished s files) (b : Nat) :
    bit (s.disk sb.bmapstart) b = decide (b < s.freeblock.toNat) := by
  rw [h.map, bit_usedMap (h.le_size.trans (by decide))]

theorem fileSlot_of_lt {c : Nat} (h : c < MAXFILE) : ∃ t, fileSlot c = some t := by
  by_cases hdirect : c < NDIRECT
  · exact ⟨_, Volume.fileSlot_direct hdirect⟩
  · have hmax : MAXFILE = NDIRECT + NINDIRECT := rfl
    exact ⟨_, Volume.fileSlot_entry hdirect (by omega)⟩

theorem Filled.slot_ne {v : Volume} {size c : Nat} (h : Filled v n size) (hsize : size ≤ MAXFILE * BSIZE)
    (hc : c * BSIZE < size) : ∃ t, fileSlot c = some t ∧ v.slot n t ≠ 0 := by
  have hlt : c < MAXFILE := Nat.lt_of_mul_lt_mul_right (hc.trans_le hsize)
  grind [fileSlot_of_lt, Volume.fileBlock_eq_none_iff]

theorem Finished.inode_cases (h : Finished s files) (hlen : files.length ≤ 206)
    (hn : ((diskVolume areaSb s.disk).inode n).type ≠ 0) :
    n = ROOTINO ∨ ∃ i, i < files.length ∧ n = UInt32.ofNat (2 + i) := by
  have hused : ¬ (n = 0 ∨ 2 + files.length ≤ n.toNat) := fun hno => hn (by rw [h.unused n hno]; rfl)
  rw [not_or] at hused
  have hpos : n.toNat ≠ 0 := fun hzero => hused.1 (UInt32.toNat_inj.1 hzero)
  by_cases hone : n.toNat = 1
  · exact .inl (UInt32.toNat_inj.1 hone)
  · refine .inr ⟨n.toNat - 2, by omega, UInt32.toNat_inj.1 ?_⟩
    rw [toNat_ofNat32 (by omega)]
    omega

theorem Finished.books (h : Finished s files) (hlen : files.length ≤ 206)
    (hend : (files.length + 2) % 32 ≠ 0) : Books s files := by
  have hB : BSIZE = 512 := rfl
  constructor
  case free =>
    intro b hb
    rw [h.bit_map]
    exact decide_eq_false (by omega)
  all_goals rw [h.allocated_eq hlen]
  case complete =>
    intro n c htype hc
    rcases h.inode_cases hlen htype with rfl | ⟨i, hi, rfl⟩
    · rw [h.root_size, rootSize, length_rootBytes] at hc
      refine h.root_filled.slot_ne ?_ ?_
      · rw [length_rootBytes, show MAXFILE * BSIZE = 71680 from rfl]
        omega
      · -- the last block of the root is not full
        rw [length_rootBytes]
        simp only [hB] at hc ⊢
        omega
    · have hfile := h.file i hi
      rw [hfile.size] at hc
      refine hfile.filled.slot_ne hfile.small ?_
      simp only [hB] at hc ⊢
      omega
  case distinct =>
    intro n m t u hn hm ht heq
    exact h.allocated.slot_inj hn hm ht heq
  case marked =>
    intro n t hn ht
    obtain ⟨hdata, hused⟩ := h.allocated.data_slot hn ht
    rw [used_diskVolume (areaSb_data_iff.1 hdata).2] at hused
    rw [areaSb_data_iff, ← nmeta_eq, ← fssize_eq] at hdata
    exact ⟨hdata.1, hdata.2, hused⟩

/-- When its entries fill whole blocks, the root has no block for the last `BSIZE` bytes of its size. -/
theorem Finished.root_hole (h : Finished s files) (hlen : files.length ≤ 206)
    (hend : (files.length + 2) % 32 = 0) {t : Slot} (ht : fileSlot ((files.length + 2) / 32) = some t) :
    (diskVolume areaSb s.disk).slot ROOTINO t = 0 := by
  have hmax : (files.length + 2) / 32 < MAXFILE := by
    rw [show MAXFILE = 140 from rfl]
    omega
  rw [← Volume.fileBlock_eq_none_iff ht, h.root_filled.blocks _ hmax, length_rootBytes,
    show BSIZE = 512 from rfl]
  omega

theorem Books.root_full (hbooks : Books s files) (h : Finished s files)
    (hlen : files.length ≤ 206) : (files.length + 2) % 32 ≠ 0 := by
  intro hend
  have hcomplete := hbooks.complete ROOTINO ((files.length + 2) / 32)
  rw [h.allocated_eq hlen, h.root_type, h.root_size, rootSize, length_rootBytes, show BSIZE = 512 from rfl] at hcomplete
  obtain ⟨t, ht, hne⟩ := hcomplete (by decide) (by omega)
  exact hne (h.root_hole hlen hend ht)

theorem getByte_usedMap {used k : Nat} (hused : used ≤ BPB) :
    (8 * k + 8 ≤ used → getByte (usedMap used) k = 255) ∧ (used ≤ 8 * k → getByte (usedMap used) k = 0) := by
  constructor
  · intro hfull
    refine getByte_of_bits fun j hj => ?_
    rw [bit_usedMap hused, decide_eq_true (by omega)]
    interval_cases j <;> rfl
  · intro hempty
    refine getByte_of_bits fun j hj => ?_
    rw [bit_usedMap hused, decide_eq_false (by omega)]
    interval_cases j <;> rfl

/-- Inode 208 read from the map: it has a type and a size, and the size is too large for its slots. -/
theorem Books.overwritten (hbooks : Books s files) (hlen : 206 < files.length) {used : Nat}
    (hlo : 66 ≤ used) (hle : used ≤ BPB) (hmap : s.disk sb.bmapstart = usedMap used) : False := by
  have hbyte (k : Nat) := getByte_usedMap (k := k) hle
  have hinode : (s.allocated files).inode 208 = dinodeAt (usedMap used) 208 := by
    refine (if_pos ?_).trans ?_
    · rw [show (208 : UInt32).toNat = 208 from rfl]
      omega
    · rw [show IBLOCK 208 sb = sb.bmapstart by decide, hmap]
  have htype : (dinodeAt (usedMap used) 208).type ≠ 0 := by
    change getU16 (usedMap used) 0 ≠ 0
    rw [getU16, (hbyte 0).1 (by omega), (hbyte 1).1 (by omega)]
    decide
  have hcomplete := hbooks.complete 208
  rw [hinode] at hcomplete
  by_cases hfull : 96 ≤ used
  · have hsize : (dinodeAt (usedMap used) 208).size = 0xffffffff := by
      change getU32 (usedMap used) 8 = _
      rw [getU32, (hbyte 8).1 (by omega), (hbyte 9).1 (by omega), (hbyte 10).1 (by omega), (hbyte 11).1 (by omega)]
      decide
    obtain ⟨t, ht, -⟩ := hcomplete MAXFILE htype (by rw [hsize]; decide)
    cases ht
  · have hsize : 0 < (dinodeAt (usedMap used) 208).size.toNat := by
      have hbit : bit (usedMap used) (8 * 8 + 0) = true := by
        rw [bit_usedMap hle]
        exact decide_eq_true (by omega)
      have hne : (getByte (usedMap used) 8).toNat ≠ 0 := by
        intro hzero
        have hbyte0 : getByte (usedMap used) 8 = 0 := UInt8.toNat_inj.1 hzero
        rw [bit_eq_getLsbD (by decide), hbyte0] at hbit
        cases hbit
      have h8 := (getByte (usedMap used) 8).toNat_lt
      have h11 := (getByte (usedMap used) (8 + 3)).toNat_lt
      have h10 := (getByte (usedMap used) (8 + 2)).toNat_lt
      have h9 := (getByte (usedMap used) (8 + 1)).toNat_lt
      change 0 < (getU32 (usedMap used) 8).toNat
      rw [getU32, le32, UInt32.toNat_ofNat']
      omega
    obtain ⟨t, ht, hne⟩ := hcomplete 0 htype (by rw [show BSIZE = 512 from rfl]; omega)
    cases ht
    apply hne
    rw [Volume.slot_addr, hinode]
    change getU32 (usedMap used) 12 = 0
    rw [getU32, (hbyte 12).2 (by omega), (hbyte 13).2 (by omega), (hbyte 14).2 (by omega), (hbyte 15).2 (by omega)]
    decide

/-- The image is as the kernel wants it, unless the entries of the root fill whole blocks: then the size
of the root, rounded up, is one block too large; or there are more files than the inode blocks have room
for: then inode 208 is in the block that the map is written to. -/
theorem mkfs_books (hrun : mkfs files = .ok s) :
    Books s files ↔ files.length ≤ 206 ∧ (files.length + 2) % 32 ≠ 0 := by
  constructor
  · intro hbooks
    have hlen : files.length ≤ 206 := by
      by_contra hlt
      obtain ⟨used, hlo, hle, hmap⟩ := (main_overflow (by omega)).of_ok (mkfs_eq_ok.1 hrun)
      exact hbooks.overwritten (by omega) hlo hle hmap
    exact ⟨hlen, hbooks.root_full (.of_mkfs hlen hrun) hlen⟩
  · rintro ⟨hlen, hend⟩
    exact (Finished.of_mkfs hlen hrun).books hlen hend

/-- The file `_cat`, of eight bytes that come in two reads. -/
def catFile : HostFile where
  name := [95, 99, 97, 116]
  chunks := some [⟨[1, 2, 3, 4, 5], by decide, by decide⟩, ⟨[6, 7, 8], by decide, by decide⟩]
  nonzero := by decide

theorem fits_catFile : Fits (fun _ => False) [catFile] where
  name := .inr (by decide)
  opened := by
    right
    intro f hf
    rw [List.mem_singleton.1 hf]
    simp [catFile]
  size := .inr (by decide)
  blocks := by
    right
    decide

theorem mkfs_books_one_file : ∃ s, mkfs [catFile] = .ok s ∧ Books s [catFile] := by
  have hrun := main_ensures (by decide) fits_catFile
  obtain ⟨⟨⟩, s, hrun, -⟩ := ensures_false_iff.1 hrun
  exact ⟨s, mkfs_eq_ok.2 hrun, (mkfs_books (mkfs_eq_ok.2 hrun)).2 (by decide)⟩

def thirtyFiles : List HostFile :=
  (List.finRange 30).map fun i : Fin 30 =>
    { name := [UInt8.ofNat (65 + i)]
      chunks := some []
      nonzero := by
        revert i
        decide }

theorem fits_thirtyFiles : Fits (fun _ => False) thirtyFiles where
  name := by
    right
    have hname : ∀ i : Fin 30, slash ∉ [UInt8.ofNat (65 + i)] := by decide
    grind [thirtyFiles]
  opened := by
    grind [thirtyFiles]
  size := by
    right
    intro f hf
    obtain ⟨i, -, rfl⟩ := List.mem_map.1 hf
    exact Nat.zero_le _
  blocks := by
    right
    have hbytes : (thirtyFiles.map fun f => blocksFor f.bytes.length) = List.replicate 30 0 := by decide
    rw [blocksUsed, length_rootBytes, hbytes]
    decide

/-- The root has the entries of one block and the size of two. -/
theorem mkfs_thirty_files : ∃ s, mkfs thirtyFiles = .ok s ∧
    ((diskVolume sb s.disk).inode ROOTINO).type = T_DIR ∧
    ((diskVolume sb s.disk).inode ROOTINO).size = 1024 ∧
    fileSlot 1 = some (.addr 1) ∧ (diskVolume sb s.disk).slot ROOTINO (.addr 1) = 0 := by
  have hrun := main_ensures (by decide) fits_thirtyFiles
  obtain ⟨⟨⟩, s, hrun, h⟩ := ensures_false_iff.1 hrun
  refine ⟨s, mkfs_eq_ok.2 hrun, ?_⟩
  rw [h.diskVolume_sb (by decide)]
  refine ⟨h.root_type, ?_, rfl, h.root_hole (by decide) (by decide) rfl⟩
  apply UInt32.toNat_inj.1
  rw [h.root_size, rootSize, length_rootBytes]
  decide

end AsoPracticas.Xv6.Mkfs
