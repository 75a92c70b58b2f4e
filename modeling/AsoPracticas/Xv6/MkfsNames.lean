import AsoPracticas.Xv6.Lookup
import AsoPracticas.Xv6.MkfsFiles

/-!
# MkfsNames — the kernel reads the image that `mkfs` wrote

`mkfs` and the kernel share `fs.h` and nothing else: each has its own code for inodes, the indirect block,
directory entries and byte order.  Here the two meet: on the image of some files, `namei` with the name of
a file and `readi` give back what was in the file (`mkfs_agrees`).

The entries of the root are looked at as a list (`rootEntries`), in the order of the files; `Volume.Finds`
is then a fact about that list.
-/

namespace AsoPracticas.Xv6.Mkfs

open Lib

/-! ## The entries of the root -/

/-- The name of a file in the root: `de.name` holds `DIRSIZ` bytes. -/
def HostFile.key (f : HostFile) : List UInt8 := f.stored.take DIRSIZ

theorem HostFile.stored_subset (f : HostFile) : f.stored ⊆ f.name := by
  unfold HostFile.stored
  split
  · exact List.tail_subset f.name
  · exact fun _ hx => hx

theorem HostFile.zero_notMem_stored (f : HostFile) : 0 ∉ f.stored :=
  fun hzero => f.nonzero (f.stored_subset hzero)

theorem HostFile.zero_notMem_key (f : HostFile) : 0 ∉ f.key :=
  fun hzero => f.zero_notMem_stored (List.mem_of_mem_take hzero)

theorem HostFile.take_key (f : HostFile) : f.key.take DIRSIZ = f.key := by
  rw [HostFile.key, List.take_take, Nat.min_self]

def rootEntries (files : List HostFile) : List (UInt16 × List UInt8) :=
  (1, dot) :: (1, dotdot) :: files.mapIdx fun i f => (UInt16.ofNat (2 + i), f.stored)

theorem rootBytes_eq (files : List HostFile) :
    rootBytes files = ((rootEntries files).map fun e => dirent e.1 e.2).flatten := by
  have hfiles : (files.mapIdx fun i f => dirent (UInt16.ofNat (2 + i)) f.stored) =
      (files.mapIdx fun i f => (UInt16.ofNat (2 + i), f.stored)).map fun e => dirent e.1 e.2 := by
    simp [List.mapIdx_eq_zipIdx_map]
  rw [rootBytes, rootEntries, List.map_cons, List.map_cons, List.flatten_cons, List.flatten_cons,
    List.append_assoc, hfiles]

theorem length_rootEntries (files : List HostFile) : (rootEntries files).length = 2 + files.length := by
  rw [rootEntries, List.length_cons, List.length_cons, List.length_mapIdx]
  omega

theorem rootEntries_file {files : List HostFile} {i : Nat} (hi : i < files.length) :
    (rootEntries files)[2 + i]? = some (UInt16.ofNat (2 + i), files[i].stored) := by
  rw [rootEntries, Nat.add_comm, List.getElem?_cons_succ, List.getElem?_cons_succ, List.getElem?_mapIdx,
    List.getElem?_eq_getElem hi, Option.map_some, Nat.add_comm]

theorem range_flatten_dirent (l : List (UInt16 × List UInt8)) :
    ∀ e p, l[e]? = some p →
      (List.range DIRENTSIZE).map (fun j => (l.map fun e => dirent e.1 e.2).flatten.getD (DIRENTSIZE * e + j) 0) =
        dirent p.1 p.2 := by
  have hD : DIRENTSIZE = 16 := rfl
  induction l with
  | nil =>
    intro e p he
    cases he
  | cons q l ih =>
    intro e p he
    have hlen := length_dirent q.1 q.2
    cases e with
    | zero =>
      apply List.ext_getElem
      all_goals grind
    | succ e => grind

variable {s : Image} {files : List HostFile}

theorem Finished.entry (h : Finished s files) {e : Nat} {p : UInt16 × List UInt8}
    (he : (rootEntries files)[e]? = some p) : (diskVolume areaSb s.disk).entry ROOTINO e = dirent p.1 p.2 := by
  have hlt := (List.getElem?_eq_some_iff.1 he).1
  rw [length_rootEntries] at hlt
  rw [← range_flatten_dirent _ e p he, Volume.entry]
  apply List.map_congr_left
  intro j hj
  have hj := List.mem_range.1 hj
  rw [← rootBytes_eq]
  apply h.root_byte
  rw [length_rootBytes]
  rw [show DIRENTSIZE = 16 from rfl] at hj ⊢
  omega

structure Named (files : List HostFile) : Prop where
  nodup : (files.map HostFile.key).Nodup
  ne_nil : ∀ f ∈ files, f.key ≠ []
  ne_dot : ∀ f ∈ files, f.key ≠ dot
  ne_dotdot : ∀ f ∈ files, f.key ≠ dotdot

theorem Named.skip (hn : Named files) {i : Nat} (hi : i < files.length) {e : Nat} (he : e < 2 + i)
    {p : UInt16 × List UInt8} (hp : (rootEntries files)[e]? = some p) :
    p.2.take DIRSIZ ≠ files[i].key ∧ 0 ∉ p.2 := by
  have hmem : files[i] ∈ files := List.getElem_mem hi
  match e, he, hp with
  | 0, _, hp =>
    cases Option.some.inj hp
    exact ⟨(hn.ne_dot _ hmem).symm, by decide⟩
  | 1, _, hp =>
    cases Option.some.inj hp
    exact ⟨(hn.ne_dotdot _ hmem).symm, by decide⟩
  | e + 2, he, hp =>
    have hlt : e < files.length := by omega
    rw [Nat.add_comm e 2, rootEntries_file hlt] at hp
    cases Option.some.inj hp
    refine ⟨fun heq => ?_, HostFile.zero_notMem_stored _⟩
    -- two files with one name
    have hsame := List.inj_on_of_nodup_map hn.nodup (List.getElem_mem hlt) hmem heq
    have hei := (hn.nodup.of_map HostFile.key).getElem_inj_iff.1 hsame
    omega

theorem toNat_inum16 {i : Nat} (hi : i < 198) : (UInt16.ofNat (2 + i)).toNat = 2 + i := by
  rw [UInt16.toNat_ofNat']
  omega

theorem toUInt32_inum16 {i : Nat} (hi : i < 198) : (UInt16.ofNat (2 + i)).toUInt32 = UInt32.ofNat (2 + i) := by
  apply UInt32.toNat_inj.1
  rw [UInt16.toNat_toUInt32, toNat_inum16 hi, toNat_ofNat32 (by omega)]

theorem Finished.finds (h : Finished s files) (hlen : files.length ≤ 198) (hn : Named files) {i : Nat}
    (hi : i < files.length) :
    (diskVolume areaSb s.disk).Finds ROOTINO files[i].key (2 + i) (UInt16.ofNat (2 + i)) where
  type := h.root_type
  blocks := by
    intro c hc hnone
    have hmax : c < MAXFILE := by
      rw [show BSIZE = 512 from rfl, show DIRENTSIZE = 16 from rfl] at hc
      rw [show MAXFILE = 140 from rfl]
      omega
    have hbytes := (h.root_filled.blocks c hmax).1 hnone
    rw [length_rootBytes] at hbytes
    rw [show DIRENTSIZE = 16 from rfl] at hc
    omega
  size := by
    rw [h.root_size, rootSize, length_rootBytes, show BSIZE = 512 from rfl, show DIRENTSIZE = 16 from rfl]
    omega
  skip := by
    intro e he
    right
    have hlt : e < (rootEntries files).length := by
      rw [length_rootEntries]
      omega
    have hp := List.getElem?_eq_getElem hlt
    obtain ⟨hother, hzero⟩ := hn.skip hi he hp
    rw [h.entry hp, Ne, namecmp_dirent _ (HostFile.zero_notMem_key _) hzero, HostFile.take_key]
    exact hother.symm
  ne_zero := by
    intro hzero
    have hto := toNat_inum16 (show i < 198 by omega)
    rw [hzero] at hto
    exact absurd hto (by rw [UInt16.toNat_zero]; omega)
  entry_inum := by
    rw [h.entry (rootEntries_file hi), direntInum_dirent]
  entry_name := by
    rw [h.entry (rootEntries_file hi), namecmp_dirent _ (HostFile.zero_notMem_key _)
      (HostFile.zero_notMem_stored _), HostFile.take_key]
    rfl

/-! ## Reading a file -/

/-- `namei`, and then `readi` of the inode under its lock, with the size that the inode has. -/
def readPath (cwd : InodePtr) (path : List UInt8) (off n : UInt32) : Fs (Option (UInt32 × Option (List UInt8))) := do
  match ← namei cwd path with
  | none => return none
  | some ip =>
    ilock ip
    let size := ((← get).inode ip).din.size
    return some (size, ← readi ip off n)

/-- The kernel has booted from the image and nothing has written to it: the superblock is read from the
disk, nobody is inside a system call, and the inodes in the cache are as they are on the disk. -/
structure Booted (k : Kernel) (s : Image) : Prop where
  disk : k.disk = s.disk
  sb : k.sb = superblockAt (s.disk 1)
  idle : k.Idle none 2

theorem superblockAt_superBlock_sb : superblockAt (superBlock sb) = sb := by decide

variable {E : Halt → Prop} {k : Kernel}

theorem File.content {v : Volume} {n : UInt32} {type : UInt16} {bytes : List UInt8} (h : File v n type bytes) :
    v.content n = bytes := by
  apply List.ext_getElem?
  grind [Volume.getElem?_content]

theorem File.complete {v : Volume} {n : UInt32} {type : UInt16} {bytes : List UInt8} (h : File v n type bytes) :
    v.Complete n := by
  intro c hc hnone
  rw [h.size] at hc
  have hmax : c < MAXFILE := Nat.lt_of_mul_lt_mul_right (hc.trans_le h.small)
  have hle := (h.filled.blocks c hmax).1 hnone
  omega

theorem Finished.readPath (h : Finished s files) (hlen : files.length ≤ 198) (hn : Named files)
    (hk : Booted k s) {i : Nat} (hi : i < files.length) {name : List UInt8} (hname : name.take DIRSIZ = files[i].key)
    (hslash : slash ∉ name) (cwd : InodePtr) (off n : UInt32) :
    Ensures (readPath cwd (slash :: name) off n) k (fun r k' => k'.disk = k.disk ∧
      ∃ size dst, r = some (size, dst) ∧ size.toNat = files[i].bytes.length ∧
        dst = if files[i].bytes.length < off.toNat ∨ 2 ^ 32 ≤ off.toNat + n.toNat then none
          else some ((files[i].bytes.drop off.toNat).take n.toNat)) E := by
  have hsb : k.sb = sb := by rw [hk.sb, h.super, superblockAt_superBlock_sb]
  have hvolume : k.volume = diskVolume areaSb s.disk := by rw [Kernel.volume, hsb, hk.disk, h.diskVolume_sb hlen]
  have hallocated : (diskVolume areaSb s.disk).Allocated sb := ⟨h.allocated.exclusive, h.allocated.metadata⟩
  have hinum := toUInt32_inum16 (show i < 198 by omega)
  have hto : (UInt32.ofNat (2 + i)).toNat = 2 + i := toNat_ofNat32 (by omega)
  have hne : name ≠ [] := by
    rintro rfl
    exact hn.ne_nil _ (List.getElem_mem hi) hname.symm
  have hother : ROOTINO ≠ (UInt16.ofNat (2 + i)).toUInt32 := by
    intro heq
    rw [hinum] at heq
    rw [← heq, show ROOTINO.toNat = 1 from rfl] at hto
    omega
  have hfile := h.file i hi
  have hfind : k.volume.Finds ROOTINO (name.take DIRSIZ) (2 + i) (UInt16.ofNat (2 + i)) := by
    rw [hvolume, hname]
    exact h.finds hlen hn hi
  refine (namei_root hk.idle ?_ ?_ hfind ?_ hother hne hslash cwd).bind ?_
  · rw [hsb]
    decide
  · rw [hvolume, hsb]
    exact hallocated
  · rw [hvolume, h.root_nlink]
    decide
  rintro _ k1 ⟨j, rfl, hfound⟩
  have hvolume1 : k1.volume = diskVolume areaSb s.disk := by
    rw [Kernel.volume, hfound.disk, hfound.sb]
    exact hvolume
  have hinum1 := hfound.inum
  rw [hinum] at hinum1
  refine (ilock_ensures hfound.ref ?_ (hfound.idle.coherent j (by have := hfound.ref; omega)) ?_ ?_).bind ?_
  · refine Bool.eq_false_iff.2 fun hlocked => ?_
    cases hfound.idle.locked j hlocked
  · rw [hinum1, hfound.sb, hsb, UInt32.lt_iff_toNat_lt, hto, show sb.ninodes.toNat = 200 by decide]
    omega
  · rw [hvolume1, hinum1, hfile.type]
    decide
  rintro _ k2 hk2
  have hinode : k2.inode j = { k1.inode j with
      locked := true, din := k1.volume.inode (k1.inode j).inum, valid := true } := by
    rw [hk2, Kernel.inode_withInode]
  have hvolume2 : k2.volume = diskVolume areaSb s.disk := by rw [hk2, Kernel.volume_withInode, hvolume1]
  have hdin : (k2.inode j).din = (diskVolume areaSb s.disk).inode (UInt32.ofNat (2 + i)) := by
    rw [hinode, hvolume1, hinum1]
  have hinum2 : (k2.inode j).inum = UInt32.ofNat (2 + i) := by rw [hinode, hinum1]
  have hcoherent : k2.Coherent j := by rw [Kernel.Coherent, hdin, hvolume2, hinum2]
  have hview := hcoherent.view
  rw [ensures_bind, ensures_get]
  refine (readi_ensures ⟨?_, ?_⟩ ?_ ?_ off n).bind ?_
  · rw [hdin, hfile.type]
    decide
  · rw [hview, hvolume2, hk2, Kernel.sb_withInode, hfound.sb, hsb]
    exact hallocated
  · rw [hdin, hfile.type]
    decide
  · rw [hview, hvolume2, hinum2]
    exact hfile.complete
  rintro _ k' ⟨rfl, rfl⟩
  refine ⟨?_, _, _, rfl, ?_, ?_⟩
  · rw [hk2, Kernel.disk_withInode, hfound.disk]
  · rw [hdin, hfile.size]
  · rw [hview, hvolume2, hinum2, hfile.content, hdin]
    simp only [UInt32.lt_iff_toNat_lt, hfile.size]

/-- `mkfs` and the kernel agree on the format.  If the names of the files are different in the root, and
there is room for the files, then `mkfs` finishes on them, unless one has a slash in its name or cannot be
opened; and from the image it leaves, the kernel reads the size and the bytes of each file, with the name
as given, less a leading `_`, or as far as it is stored. -/
theorem mkfs_agrees (hlen : files.length ≤ 198) (hnodup : (files.map HostFile.key).Nodup)
    (hkey : ∀ f ∈ files, f.key ≠ [] ∧ f.key ≠ dot ∧ f.key ≠ dotdot)
    (hsize : ∀ f ∈ files, f.bytes.length ≤ MAXFILE * BSIZE) (hblocks : blocksUsed files ≤ FSSIZE) :
    ((∀ f ∈ files, slash ∉ f.name ∧ f.chunks ≠ none) → ∃ s, mkfs files = .ok s) ∧
    ∀ s, mkfs files = .ok s → ∀ k, Booted k s → ∀ f ∈ files, ∀ name, name = f.stored ∨ name = f.key →
      ∀ cwd off n, Ensures (readPath cwd (slash :: name) off n) k (fun r k' => k'.disk = k.disk ∧
        ∃ size dst, r = some (size, dst) ∧ size.toNat = f.bytes.length ∧
          dst = if f.bytes.length < off.toNat ∨ 2 ^ 32 ≤ off.toNat + n.toNat then none
            else some ((f.bytes.drop off.toNat).take n.toNat)) fun _ => False := by
  have hn : Named files := ⟨hnodup, fun f hf => (hkey f hf).1, fun f hf => (hkey f hf).2.1,
    fun f hf => (hkey f hf).2.2⟩
  constructor
  · intro hgood
    have hfits : Fits (fun _ => False) files :=
      ⟨.inr fun f hf => (hgood f hf).1, .inr fun f hf => (hgood f hf).2, .inr hsize, .inr hblocks⟩
    obtain ⟨⟨⟩, s, hrun, -⟩ := ensures_false_iff.1 (main_ensures (by omega) hfits)
    exact ⟨s, mkfs_eq_ok.2 hrun⟩
  · intro s hrun k hk f hf name hname cwd off n
    have h := Finished.of_mkfs (by omega) hrun
    have hslash : slash ∉ f.stored := fun hmem => h.named f hf (f.stored_subset hmem)
    obtain ⟨i, hi, rfl⟩ := List.getElem_of_mem hf
    rcases hname with rfl | rfl
    · exact h.readPath hlen hn hk hi rfl hslash cwd off n
    · exact h.readPath hlen hn hk hi (HostFile.take_key _) (fun hmem => hslash (List.mem_of_mem_take hmem)) cwd off n

def bootKernel (s : Image) : Kernel where
  disk := s.disk
  sb := superblockAt (s.disk 1)
  log := { start := 2, size := 30 }
  lh := []
  outstanding := 0
  inode := fun _ => { inum := 0, ref := 0, locked := false, valid := false, din := newDinode 0 }
  devsw := noDevices

theorem booted_bootKernel (s : Image) : Booted (bootKernel s) s where
  disk := rfl
  sb := rfl
  idle := by
    refine ⟨?_, ?_, ?_⟩
    · intro j hlocked
      cases hlocked
    · intro j hpos
      exact absurd hpos (by simp [bootKernel])
    · have hall : (Finset.univ.filter fun j => ((bootKernel s).inode j).ref = 0) = Finset.univ :=
        Finset.filter_true_of_mem fun j _ => rfl
      rw [hall, Finset.card_univ, Fintype.card_fin]
      decide

/-- All of `/cat`, read at once. -/
theorem mkfs_agrees_one_file : ∃ s, mkfs [catFile] = .ok s ∧
    Ensures (readPath firstEntry (slash :: [99, 97, 116]) 0 8) (bootKernel s) (fun r _ =>
      r = some (8, some [1, 2, 3, 4, 5, 6, 7, 8])) fun _ => False := by
  have hblocks : blocksUsed [catFile] ≤ FSSIZE := by
    decide
  obtain ⟨hrun, hread⟩ := mkfs_agrees (by decide) (by decide) (by decide) (by decide) hblocks
  obtain ⟨s, hs⟩ := hrun (by
    intro f hf
    rw [List.mem_singleton.1 hf]
    exact ⟨by decide, by simp [catFile]⟩)
  refine ⟨s, hs, ?_⟩
  refine (hread s hs (bootKernel s) (booted_bootKernel s) catFile List.mem_cons_self [99, 97, 116] (.inl rfl)
    firstEntry 0 8).mono ?_
  rintro _ k ⟨-, size, _, rfl, hsize, rfl⟩
  rw [show size = 8 from UInt32.toNat_inj.1 hsize]
  rfl

end AsoPracticas.Xv6.Mkfs
