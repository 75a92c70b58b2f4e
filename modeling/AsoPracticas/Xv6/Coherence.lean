import AsoPracticas.Lib.Threads
import AsoPracticas.Lib.Transition
import AsoPracticas.Xv6.Icache

/-!
# Coherence — references and copies in the inode cache

* `Sound` — what holds of one entry: its references are counted, its lock holder has one, and its copy
  of the inode is that on disk unless the holder is about to write it;
* `icache_coherent` — the entries in use are coherent in every reachable state.
-/

namespace AsoPracticas.Xv6.Icache

open Lib
open Option (ite_none_right_eq_some)
open Function (update_eq_self update_of_ne update_self)

/-! ## Inodes without holes -/

section NoHoles

variable {d : Dinode} {off n bn : Nat} {fresh : Nat → UInt32}

/-- Every block below the size is reached through an address. -/
def NoHoles (d : Dinode) : Prop := ∀ bn, bn * BSIZE < d.size.toNat → d.addrs (addrOf bn) ≠ 0

theorem bmap_of_ne {b : UInt32} (h : d.addrs (addrOf bn) ≠ 0) : bmap b d bn = d := if_neg h

theorem addrs_bmap_self {b : UInt32} (hb : b ≠ 0) (d : Dinode) (bn : Nat) :
    (bmap b d bn).addrs (addrOf bn) ≠ 0 := by
  unfold bmap
  aesop

theorem addrs_bmap_of_ne {b : UInt32} {j : Fin (NDIRECT + 1)}
    (h : d.addrs j ≠ 0) : (bmap b d bn).addrs j ≠ 0 := by
  unfold bmap
  split
  next hzero =>
    rw [Dinode.addrs_withAddr, update_of_ne]
    · exact h
    · rintro rfl
      exact h hzero
  next => exact h

/-- The inodes agree but for the addresses, and agree in these too where there are no holes
(`dense`). -/
@[grind cases eager]
structure Matches (dense : Prop) (d d' : Dinode) : Prop where
  type : d.type = d'.type
  major : d.major = d'.major
  minor : d.minor = d'.minor
  nlink : d.nlink = d'.nlink
  size : d.size = d'.size
  addrs : dense → d.addrs = d'.addrs

theorem Matches.refl (dense : Prop) (d : Dinode) : Matches dense d d := ⟨rfl, rfl, rfl, rfl, rfl, fun _ => rfl⟩

theorem Matches.trans {dense : Prop} {d' d'' : Dinode} (h : Matches dense d d')
    (h' : Matches dense d' d'') : Matches dense d d'' where
  type := h.type.trans h'.type
  major := h.major.trans h'.major
  minor := h.minor.trans h'.minor
  nlink := h.nlink.trans h'.nlink
  size := h.size.trans h'.size
  addrs hd := (h.addrs hd).trans (h'.addrs hd)

theorem Matches.eq {dense : Prop} {d' : Dinode} (h : Matches dense d d') (hd : dense) : d = d' := by
  obtain ⟨htype, hmajor, hminor, hlinks, hsize, haddrs⟩ := h
  cases d
  cases d'
  simp_all

theorem matches_bmap (b : UInt32) (d : Dinode) (bn : Nat) : Matches False (bmap b d bn) d := by
  unfold bmap
  split
  · exact ⟨rfl, rfl, rfl, rfl, rfl, False.elim⟩
  · exact .refl ..

theorem foldl_bmap (fresh : Nat → UInt32) (l : List Nat) (d : Dinode) :
    let d' := l.foldl (fun d bn => bmap (fresh bn) d bn) d
    Matches False d' d ∧ (∀ j, d.addrs j ≠ 0 → d'.addrs j ≠ 0) ∧
      ((∀ bn, fresh bn ≠ 0) → ∀ bn ∈ l, d'.addrs (addrOf bn) ≠ 0) ∧
      ((∀ bn ∈ l, d.addrs (addrOf bn) ≠ 0) → d' = d) := by
  induction l generalizing d with
  | nil => simp [Matches.refl]
  | cons bn l ih =>
    obtain ⟨hmatch, hkeep, hmapped, hsame⟩ := ih (bmap (fresh bn) d bn)
    refine ⟨hmatch.trans (matches_bmap ..), fun j hj => ?_, ?_, fun hall => ?_⟩
    all_goals grind [addrs_bmap_of_ne, addrs_bmap_self, bmap_of_ne]

theorem mem_visited : bn ∈ visited off n ↔ 0 < n ∧ off / BSIZE ≤ bn ∧ bn * BSIZE < off + n := by
  have hsize : BSIZE = 512 := rfl
  unfold visited
  split
  · simp_all
  · rw [List.mem_range'_1]
    simp only [hsize]
    omega

theorem mapBlocks_of_le (h : NoHoles d) (hle : off + n ≤ d.size.toNat) : mapBlocks fresh d off n = d := by
  apply (foldl_bmap fresh (visited off n) d).2.2.2
  intro bn hbn
  exact h bn (lt_of_lt_of_le (mem_visited.1 hbn).2.2 hle)

theorem NoHoles.grow (h : NoHoles d) (hfresh : ∀ bn, fresh bn ≠ 0) (hoff : off ≤ d.size.toNat)
    (hlt : off + n < 2 ^ 32) :
    NoHoles { mapBlocks fresh d off n with size := UInt32.ofNat (off + n) } := by
  obtain ⟨-, hkeep, hmapped, -⟩ := foldl_bmap fresh (visited off n) d
  intro bn hbn
  have hsize : (UInt32.ofNat (off + n)).toNat = off + n := by rw [UInt32.toNat_ofNat', Nat.mod_eq_of_lt hlt]
  by_cases hbelow : bn * BSIZE < d.size.toNat
  all_goals grind [NoHoles, mapBlocks, BSIZE, mem_visited, Nat.div_le_of_le_mul, Nat.mul_comm]

theorem noHoles_of_size {d : Dinode} (h : d.size = 0) : NoHoles d := by
  intro bn hbn
  rw [h] at hbn
  exact absurd hbn (Nat.not_lt_zero _)

theorem NoHoles.congr {d' : Dinode} (h : NoHoles d) (hsize : d'.size = d.size)
    (haddrs : d'.addrs = d.addrs) : NoHoles d' := by
  unfold NoHoles at *
  rwa [hsize, haddrs]

end NoHoles

/-! ## Threads and entries -/

/-- The entry that the call of a process is about. -/
def Pc.about : Pc → Option Slot
  | .idle => none
  | .allocated _ => none
  | .loading i => some i
  | .updating i => some i
  | .put i => some i
  | .checking i => some i
  | .truncating i => some i
  | .clearing i => some i
  | .invalidating i => some i
  | .unlocking i => some i
  | .dropping i => some i

/-- In `iput`. -/
def Pc.puts (i : Slot) : Pc → Bool
  | .put j => i = j
  | .checking j => i = j
  | .truncating j => i = j
  | .clearing j => i = j
  | .invalidating j => i = j
  | .unlocking j => i = j
  | .dropping j => i = j
  | _ => false

/-- In a call that has the sleep-lock. -/
def Pc.locks (i : Slot) : Pc → Bool
  | .loading j => i = j
  | .updating j => i = j
  | .checking j => i = j
  | .truncating j => i = j
  | .clearing j => i = j
  | .invalidating j => i = j
  | .unlocking j => i = j
  | _ => false

/-- In a call that has the sleep-lock of an entry which need not be valid. -/
def Pc.unread (i : Slot) : Pc → Bool
  | .loading j => i = j
  | .checking j => i = j
  | .unlocking j => i = j
  | _ => false

/-- The references of a process to an entry, with the one that it is putting. -/
def Thread.weight (i : Slot) (t : Thread) : Nat := t.refs i + (t.pc.puts i).toNat

/-- The process has a reference and is not about to drop it. -/
def Thread.Uses (i : Slot) (t : Thread) : Prop :=
  0 < t.refs i ∨ t.pc.puts i = true ∧ t.pc ≠ .dropping i

/-- For the entry `i` the process stays as it was. -/
@[grind cases eager]
structure Thread.Alike (i : Slot) (t t' : Thread) : Prop where
  refs : t'.refs i = t.refs i
  pc : t'.pc = t.pc ∨ t.pc.about ≠ some i ∧ t'.pc.about ≠ some i

variable {i : Slot} {t t' : Thread}

theorem Pc.puts_of_about {pc : Pc} (h : pc.about ≠ some i) : pc.puts i = false := by
  cases pc <;> simp_all [Pc.about, Pc.puts, eq_comm]

theorem Pc.locks_of_about {pc : Pc} (h : pc.about ≠ some i) : pc.locks i = false := by
  cases pc <;> simp_all [Pc.about, Pc.locks, eq_comm]

theorem Pc.unread_of_about {pc : Pc} (h : pc.about ≠ some i) : pc.unread i = false := by
  cases pc <;> simp_all [Pc.about, Pc.unread, eq_comm]

theorem Pc.locks_of_unread {pc : Pc} (h : pc.unread i = true) : pc.locks i = true := by
  cases pc <;> simp_all [Pc.unread, Pc.locks]

theorem Thread.Alike.refl (i : Slot) (t : Thread) : t.Alike i t := ⟨rfl, .inl rfl⟩

theorem Thread.Alike.weight (h : t.Alike i t') : t'.weight i = t.weight i := by
  rcases h.pc with hpc | ⟨hpc, hpc'⟩
  · rw [Thread.weight, Thread.weight, hpc, h.refs]
  · rw [Thread.weight, Thread.weight, Pc.puts_of_about hpc, Pc.puts_of_about hpc', h.refs]

theorem Thread.Alike.locks (h : t.Alike i t') : t'.pc.locks i = t.pc.locks i := by
  rcases h.pc with hpc | ⟨hpc, hpc'⟩
  · rw [hpc]
  · rw [Pc.locks_of_about hpc, Pc.locks_of_about hpc']

theorem Thread.Alike.unread (h : t.Alike i t') : t'.pc.unread i = t.pc.unread i := by
  rcases h.pc with hpc | ⟨hpc, hpc'⟩
  · rw [hpc]
  · rw [Pc.unread_of_about hpc, Pc.unread_of_about hpc']

theorem Thread.Alike.pc_iff (h : t.Alike i t') {pc : Pc}
    (habout : pc.about = some i) : t'.pc = pc ↔ t.pc = pc := by
  all_goals grind

theorem Thread.Alike.uses (h : t.Alike i t') : t'.Uses i ↔ t.Uses i := by
  unfold Thread.Uses
  grind [Pc.puts_of_about]

theorem Thread.Uses.weight_pos {t : Thread} (h : t.Uses i) : 0 < t.weight i := by
  unfold Thread.weight
  rcases h with hrefs | ⟨hputs, -⟩
  · omega
  · rw [hputs]
    simp

theorem Thread.Uses.refs_pos (h : t.Uses i) (hputs : t.pc.puts i = false) : 0 < t.refs i := by
  refine h.resolve_right fun h => ?_
  rw [hputs] at h
  cases h.1

theorem Thread.Alike.trans {t t' t'' : Thread} (h : t.Alike i t') (h' : t'.Alike i t'') : t.Alike i t'' where
  refs := h'.refs.trans h.refs
  pc := by
    grind

/-- The call is about `i`, or about no entry. -/
def Pc.Only (i : Slot) (pc : Pc) : Prop := pc.about = none ∨ pc.about = some i

theorem Pc.only_of_puts {pc : Pc} (h : pc.puts i = true) : pc.Only i := by
  cases pc <;> simp_all [Pc.puts, Pc.Only, Pc.about]

theorem Pc.Only.ne {i j : Slot} {pc : Pc} (h : pc.Only i) (hj : j ≠ i) : pc.about ≠ some j := by
  rcases h with h | h <;> rw [h]
  · exact nofun
  · exact fun heq => hj (Option.some.inj heq).symm

section Alike

variable {i j : Slot} {t : Thread} {pc : Pc}

theorem Thread.alike_goto (ht : t.pc.Only i) (hpc : pc.Only i) (hj : j ≠ i) : t.Alike j (t.goto pc) :=
  ⟨rfl, .inr ⟨ht.ne hj, hpc.ne hj⟩⟩

theorem Thread.alike_take (hj : j ≠ i) : t.Alike j (t.take i) := ⟨update_of_ne hj .., .inl rfl⟩

theorem Thread.alike_give (hj : j ≠ i) : t.Alike j (t.give i) := ⟨update_of_ne hj .., .inl rfl⟩

@[simp] theorem Thread.refs_take_self : (t.take i).refs i = t.refs i + 1 := update_self ..

@[simp] theorem Thread.refs_give_self : (t.give i).refs i = t.refs i - 1 := update_self ..

theorem Thread.weight_take : (t.take i).weight i = t.weight i + 1 := by
  rw [Thread.weight, refs_take_self, Thread.weight, Nat.add_right_comm]
  rfl

theorem Thread.weight_give (h : 0 < t.refs i) : (t.give i).weight i + 1 = t.weight i := by
  rw [Thread.weight, refs_give_self, Thread.weight, Nat.add_right_comm, Nat.sub_add_cancel h]
  rfl

@[simp] theorem Thread.pc_take : (t.take i).pc = t.pc := rfl

@[simp] theorem Thread.pc_give : (t.give i).pc = t.pc := rfl

@[simp] theorem Thread.refs_goto : (t.goto pc).refs = t.refs := rfl

@[simp] theorem Thread.pc_goto : (t.goto pc).pc = pc := rfl

end Alike

/-! ## The invariant -/

section Invariant

variable {P : Type} {dense : Prop} {s s' : State P} {i j : Slot} {p q : P}

/-- The entry is in use, and has been read. -/
def State.Live (s : State P) (i : Slot) : Prop := 0 < (s.entry i).ref ∧ (s.entry i).valid = true

def State.holder (s : State P) (i : Slot) : Option Pc := (s.entry i).lock.map fun p => (s.thread p).pc

/-- What holds of the copy `c` of the inode `d` in an entry that has been read, when the process that has its
sleep-lock is at `o`. -/
structure Copy (dense : Prop) (i : Slot) (o : Option Pc) (c d : Dinode) : Prop where
  clean : o ≠ some (.updating i) → o ≠ some (.invalidating i) → Matches dense c d
  typed : o ≠ some (.invalidating i) → d.type ≠ 0 ∧ c.type ≠ 0
  full : dense → NoHoles c

theorem Copy.mono {o o' : Option Pc} {c d d' : Dinode} (h : Copy dense i o c d)
    (hup : o' ≠ some (.updating i) → o ≠ some (.updating i))
    (hin : o' ≠ some (.invalidating i) → o ≠ some (.invalidating i) ∧ d' = d) : Copy dense i o' c d' where
  clean h1 h2 := (hin h2).2 ▸ h.clean (hup h1) (hin h2).1
  typed h2 := (hin h2).2 ▸ h.typed (hin h2).1
  full := h.full

/-- The copy of an inode that nobody is changing stays so, wherever a process goes that has the lock or gets it. -/
theorem Copy.quiet {o o' : Option Pc} {c d : Dinode} (h : Copy dense i o c d) (hup : o ≠ some (.updating i))
    (hin : o ≠ some (.invalidating i)) : Copy dense i o' c d :=
  h.mono (fun _ => hup) fun _ => ⟨hin, rfl⟩

/-- What holds of one entry. -/
@[grind cases eager]
structure Sound (dense : Prop) (s : State P) (i : Slot) : Prop where
  count : Total (Thread.weight i) s.thread (s.entry i).ref
  placed : ∀ p, (s.thread p).pc.locks i = true → (s.entry i).lock = some p
  held : ∀ p, (s.entry i).lock = some p →
    (s.thread p).Uses i ∧ ((s.entry i).valid = true ∨ (s.thread p).pc.unread i = true)
  copy : s.Live i → Copy dense i (s.holder i) (s.entry i).din (s.disk (s.entry i).key)

@[grind cases eager]
structure Inv (dense : Prop) (s : State P) : Prop where
  sound : ∀ i, Sound dense s i
  unique : ∀ i j, 0 < (s.entry i).ref → 0 < (s.entry j).ref → (s.entry i).key = (s.entry j).key → i = j
  image : dense → ∀ k, NoHoles (s.disk k)

theorem Sound.ref_pos (h : Sound dense s i) (hp : (s.thread p).Uses i) : 0 < (s.entry i).ref :=
  lt_of_lt_of_le hp.weight_pos (h.count.le p)

theorem holder_of_lock (h : (s.entry i).lock = some p) : s.holder i = some (s.thread p).pc := by
  rw [State.holder, h, Option.map_some]

theorem holder_of_free (h : (s.entry i).lock = none) : s.holder i = none := by
  rw [State.holder, h, Option.map_none]

theorem Sound.frame (h : Sound dense s j) (hentry : s'.entry j = s.entry j)
    (hthread : ∀ q, (s.thread q).Alike j (s'.thread q))
    (hdisk : s.Live j → s.holder j ≠ some (.invalidating j) →
      s'.disk (s.entry j).key = s.disk (s.entry j).key) : Sound dense s' j := by
  have hlive : s'.Live j ↔ s.Live j := by rw [State.Live, State.Live, hentry]
  have hholder : ∀ {pc : Pc}, pc.about = some j → (s'.holder j = some pc ↔ s.holder j = some pc) := by
    intro pc hpc
    rw [State.holder, State.holder, hentry]
    cases (s.entry j).lock with
    | none => simp
    | some p => simpa using (hthread p).pc_iff hpc
  refine ⟨?_, fun p hp => ?_, fun p hp => ?_, fun hl => ?_⟩
  · rw [hentry]
    exact h.count.congr fun q => (hthread q).weight
  · rw [hentry]
    exact h.placed p ((hthread p).locks ▸ hp)
  · rw [hentry] at hp ⊢
    rw [(hthread p).uses, (hthread p).unread]
    exact h.held p hp
  · rw [hlive] at hl
    rw [hentry]
    refine (h.copy hl).mono (mt (hholder rfl).2) fun hin => ?_
    have hin' := mt (hholder rfl).2 hin
    exact ⟨hin', hdisk hl hin'⟩

theorem Inv.act (h : Inv dense s) (hpos : 0 < (s.entry i).ref) (hothers : ∀ j ≠ i, s'.entry j = s.entry j)
    (hthread : ∀ j ≠ i, ∀ q, (s.thread q).Alike j (s'.thread q))
    (hkey : (s'.entry i).key = (s.entry i).key)
    (hdisk : ∀ k ≠ (s.entry i).key, s'.disk k = s.disk k)
    (himage : dense → NoHoles (s'.disk (s.entry i).key)) (hsound : Sound dense s' i) : Inv dense s' where
  sound j := by
    rcases eq_or_ne j i with rfl | hj
    · exact hsound
    · refine (h.sound j).frame (hothers j hj) (hthread j hj) fun hlive _ => hdisk _ ?_
      intro hsame
      exact hj (h.unique j i hlive.1 hpos hsame)
  unique := by
    grind
  image hd k := by
    rcases eq_or_ne k (s.entry i).key with rfl | hk
    · exact himage hd
    · rw [hdisk k hk]
      exact h.image hd k

/-- The entry a process acts on: what the process answers for, the other processes being as before. -/
theorem Sound.actor [DecidableEq P] (h : Sound dense s i) {t : Thread}
    (hthread : s'.thread = Function.update s.thread p t)
    (hcount : (s'.entry i).ref + (s.thread p).weight i = (s.entry i).ref + t.weight i)
    (hlock : ∀ q ≠ p, (s'.entry i).lock = some q ↔ (s.entry i).lock = some q)
    (hvalid : ∀ q ≠ p, (s.entry i).lock = some q → (s.entry i).valid = true → (s'.entry i).valid = true)
    (hplaced : t.pc.locks i = true → (s'.entry i).lock = some p)
    (hheld : (s'.entry i).lock = some p → t.Uses i ∧ ((s'.entry i).valid = true ∨ t.pc.unread i = true))
    (hcopy : s'.Live i → Copy dense i (s'.holder i) (s'.entry i).din (s'.disk (s'.entry i).key)) :
    Sound dense s' i where
  count := by
    rw [hthread]
    exact h.count.goto rfl hcount
  placed q hq := by
    rcases eq_or_ne q p with rfl | hne
    · rw [hthread, update_self] at hq
      exact hplaced hq
    · rw [hthread, update_of_ne hne] at hq
      exact (hlock q hne).2 (h.placed q hq)
  held q hq := by
    rcases eq_or_ne q p with rfl | hne
    · rw [hthread, update_self]
      exact hheld hq
    · rw [hthread, update_of_ne hne]
      grind
  copy := hcopy

section Moves

variable [DecidableEq P] {e : Entry P} {t : Thread} {d : Dinode}

theorem alike_update (ht : ∀ j ≠ i, (s.thread p).Alike j t) :
    ∀ j ≠ i, ∀ q, (s.thread q).Alike j (Function.update s.thread p t q) := by
  intro j hj q
  rcases eq_or_ne q p with rfl | hq
  · rw [update_self]
    exact ht j hj
  · rw [update_of_ne hq]
    exact .refl ..

theorem Inv.recount (h : Inv dense s) {r : Nat} (hpos : 0 < (s.entry i).ref)
    (hentry : s'.entry = Function.update s.entry i ((s.entry i).setRef r))
    (hthread : s'.thread = Function.update s.thread p t) (hdisk : s'.disk = s.disk)
    (ht : ∀ j ≠ i, (s.thread p).Alike j t)
    (hcount : r + (s.thread p).weight i = (s.entry i).ref + t.weight i)
    (hmove : t.pc = (s.thread p).pc ∨ t.pc.locks i = false ∧ (s.thread p).pc.locks i = false)
    (huses : (s.entry i).lock = some p → (s.thread p).Uses i → t.Uses i) : Inv dense s' := by
  have hself : s'.entry i = (s.entry i).setRef r := by rw [hentry, update_self]
  have hlocks : t.pc.locks i = (s.thread p).pc.locks i := by aesop
  have hpc : ∀ {pc : Pc}, pc.locks i = true → (s'.holder i = some pc ↔ s.holder i = some pc) := by
    intro pc hpc
    rw [State.holder, State.holder, hself, hthread]
    simp only [Entry.setRef]
    cases hl : (s.entry i).lock with
    | none => simp
    | some q =>
      rcases eq_or_ne q p with rfl | hq
      · simp only [Option.map_some, update_self, Option.some.injEq]
        rcases hmove with hsame | ⟨hfalse, hfalse'⟩
        · rw [hsame]
        · constructor
          · rintro rfl
            rw [hfalse] at hpc
            cases hpc
          · rintro rfl
            rw [hfalse'] at hpc
            cases hpc
      · simp [update_of_ne hq]
  have hlive : s'.Live i → s.Live i := fun hl => ⟨hpos, by simpa [hself, Entry.setRef] using hl.2⟩
  refine h.act hpos (fun j hj => by rw [hentry, update_of_ne hj]) ?_ (by rw [hself]; rfl)
    (fun k _ => by rw [hdisk]) (fun hd => by rw [hdisk]; exact h.image hd _) ?_
  · rw [hthread]
    exact alike_update ht
  · have hi := h.sound i
    refine hi.actor hthread (by rw [hself]; exact hcount) (fun q _ => by rw [hself]; rfl) ?_ ?_ ?_ ?_
    · intro q _ _ hv
      rw [hself]
      exact hv
    · intro hl
      rw [hself]
      exact hi.placed p (hlocks ▸ hl)
    · intro hl
      rw [hself] at hl ⊢
      obtain ⟨hu, hread⟩ := hi.held p hl
      refine ⟨huses hl hu, hread.imp_right fun hunread => ?_⟩
      rcases hmove with hsame | ⟨-, hfalse⟩
      · rwa [hsame]
      · rw [Pc.locks_of_unread hunread] at hfalse
        cases hfalse
    · intro hl
      rw [hself, hdisk]
      exact (hi.copy (hlive hl)).mono (mt (hpc (by simp [Pc.locks])).2) fun hin =>
        ⟨mt (hpc (by simp [Pc.locks])).2 hin, rfl⟩

/-- A process that has the sleep-lock, or has just got it, changes the entry and the inode on disk. -/
theorem Inv.hold (h : Inv dense s) (hentry : s'.entry = Function.update s.entry i e)
    (hthread : s'.thread = Function.update s.thread p t)
    (hdisk : s'.disk = Function.update s.disk (s.entry i).key d)
    (ht : ∀ j ≠ i, (s.thread p).Alike j t)
    (hbefore : (s.entry i).lock = none ∨ (s.entry i).lock = some p) (hlock : e.lock = some p)
    (hkey : e.key = (s.entry i).key) (href : e.ref = (s.entry i).ref)
    (hweight : t.weight i = (s.thread p).weight i) (huses : t.Uses i)
    (hread : e.valid = true ∨ t.pc.unread i = true) (himage : dense → NoHoles d)
    (hcopy : e.valid = true → Copy dense i (some t.pc) e.din d) : Inv dense s' := by
  have hi := h.sound i
  have hself : s'.entry i = e := by rw [hentry, update_self]
  have hpos : 0 < (s.entry i).ref := lt_of_lt_of_le (hweight ▸ huses.weight_pos) (hi.count.le p)
  have hd : s'.disk (s.entry i).key = d := by rw [hdisk, update_self]
  have hholder : s'.holder i = some t.pc := by
    rw [State.holder, hself, hlock, Option.map_some, hthread, update_self]
  refine h.act hpos (fun j hj => by rw [hentry, update_of_ne hj]) ?_ (by rw [hself, hkey])
    (fun k hk => by rw [hdisk, update_of_ne hk]) (by rw [hd]; exact himage) ?_
  · rw [hthread]
    exact alike_update ht
  · have hnone : ∀ q ≠ p, (s.entry i).lock ≠ some q := by grind
    refine hi.actor hthread (by rw [hself, href, hweight]) (fun q hq => ?_) ?_ ?_ ?_ ?_
    · grind
    · exact fun q hq heq => absurd heq (hnone q hq)
    · exact fun _ => by rw [hself, hlock]
    · intro _
      rw [hself]
      exact ⟨huses, hread⟩
    · intro hl
      rw [hholder, hself, hkey, hd]
      exact hcopy (hself ▸ hl.2)

theorem Inv.letGo (h : Inv dense s) (hlock : (s.entry i).lock = some p)
    (hentry : s'.entry = Function.update s.entry i ((s.entry i).setLock none))
    (hthread : s'.thread = Function.update s.thread p t) (hdisk : s'.disk = s.disk)
    (ht : ∀ j ≠ i, (s.thread p).Alike j t)
    (hweight : t.weight i = (s.thread p).weight i) (hlocks : t.pc.locks i = false)
    (hup : (s.thread p).pc ≠ .updating i) (hin : (s.thread p).pc ≠ .invalidating i) : Inv dense s' := by
  have hi := h.sound i
  have hself : s'.entry i = (s.entry i).setLock none := by rw [hentry, update_self]
  have hpos : 0 < (s.entry i).ref := hi.ref_pos (hi.held p hlock).1
  have hlive : s'.Live i → s.Live i := fun hl => by
    unfold State.Live at *
    rwa [hself] at hl
  refine h.act hpos (fun j hj => by rw [hentry, update_of_ne hj]) ?_ (by rw [hself]; rfl)
    (fun k _ => by rw [hdisk]) (fun hd => by rw [hdisk]; exact h.image hd _) ?_
  · rw [hthread]
    exact alike_update ht
  · refine hi.actor hthread (by rw [hself, hweight]; rfl) (fun q hq => ?_) ?_ ?_ ?_ ?_
    · rw [hself, hlock]
      exact iff_of_false nofun fun heq => hq (Option.some.inj heq).symm
    · intro q _ _ hv
      rw [hself]
      exact hv
    · rw [hlocks]
      exact nofun
    · intro hl
      rw [hself] at hl
      cases hl
    · intro hl
      have hcopy := hi.copy (hlive hl)
      rw [holder_of_lock hlock] at hcopy
      rw [hself, hdisk]
      exact hcopy.quiet (by simpa using hup) (by simpa using hin)

end Moves

/-! ## The steps -/

section Steps

variable {k : Key}

theorem Thread.weight_of_about {t : Thread} (h : t.pc.about ≠ some i) : t.weight i = t.refs i := by
  rw [Thread.weight, Pc.puts_of_about h]
  rfl

theorem weight_stage {pc' : Pc} (h : (s.thread p).pc.puts i = pc'.puts i) :
    ((s.thread p).goto pc').weight i = (s.thread p).weight i := by
  rw [Thread.weight, Thread.weight, h]
  rfl

theorem Pc.only_of_none {pc : Pc} (h : pc.about = none) : pc.Only i := .inl h

theorem Pc.about_ne {pc : Pc} (h : pc.about = none) : pc.about ≠ some i := by
  rw [h]
  exact nofun

theorem alike_take_goto {t : Thread} (h : t.pc.about = none) : ∀ j ≠ i, t.Alike j ((t.take i).goto .idle) :=
  fun _ hj => (Thread.alike_take hj).trans (Thread.alike_goto (Pc.only_of_none h) (.inl rfl) hj)

theorem cached_eq_some (h : s.cached k = some i) : 0 < (s.entry i).ref ∧ (s.entry i).key = k := by
  have hfound := List.find?_some h
  simpa only [decide_eq_true_eq] using hfound

theorem cached_eq_none (h : s.cached k = none) (i : Slot) (hpos : 0 < (s.entry i).ref) : (s.entry i).key ≠ k := by
  have hnot := List.find?_eq_none.1 h i (List.mem_finRange i)
  simp only [decide_eq_true_eq, not_and] at hnot
  exact hnot hpos

theorem empty_eq_some (h : s.empty = some i) : (s.entry i).ref = 0 := by
  have hfound := List.find?_some h
  simpa only [decide_eq_true_eq] using hfound

theorem Sound.of_empty (h : Sound dense s i) (hzero : (s.entry i).ref = 0) :
    (s.entry i).lock = none ∧ ∀ q, (s.thread q).weight i = 0 ∧ (s.thread q).pc.locks i = false := by
  have hweight : ∀ q, (s.thread q).weight i = 0 := fun q => Nat.le_zero.1 (hzero ▸ h.count.le q)
  have hfree : (s.entry i).lock = none := by
    cases hl : (s.entry i).lock with
    | none => rfl
    | some q =>
      have hpos := (h.held q hl).1.weight_pos
      rw [hweight q] at hpos
      exact absurd hpos (lt_irrefl 0)
  grind

theorem State.Refers.uses (h : s.Refers p i) : (s.thread p).Uses i := .inl h.2

theorem State.Refers.about (h : s.Refers p i) : (s.thread p).pc.about = none := by
  rw [h.1]
  rfl

theorem State.Locked.about (h : s.Locked p i) : (s.thread p).pc.about = none := by
  rw [h.1]
  rfl

theorem Inv.locked (h : Inv dense s) (hl : s.Locked p i) :
    (s.thread p).Uses i ∧ s.Live i ∧ Matches dense (s.entry i).din (s.disk (s.entry i).key) ∧
      (s.entry i).din.type ≠ 0 ∧ (dense → NoHoles (s.entry i).din) := by
  have hi := h.sound i
  obtain ⟨huses, hread⟩ := hi.held p hl.2
  have hvalid : (s.entry i).valid = true := by
    refine hread.resolve_right fun hunread => ?_
    rw [hl.1] at hunread
    cases hunread
  have hlive : s.Live i := ⟨hi.ref_pos huses, hvalid⟩
  have hcopy := hi.copy hlive
  rw [holder_of_lock hl.2, hl.1] at hcopy
  exact ⟨huses, hlive, hcopy.clean nofun nofun, (hcopy.typed nofun).2, hcopy.full⟩

theorem Inv.inCall (h : Inv dense s) {pc : Pc} (hpc : (s.thread p).pc = pc) (hlocks : pc.locks i = true)
    (hread : pc.unread i = false) : (s.entry i).lock = some p ∧ (s.thread p).Uses i ∧ (s.entry i).valid = true ∧
      Copy dense i (some pc) (s.entry i).din (s.disk (s.entry i).key) := by
  have hi := h.sound i
  have hlock := hi.placed p (hpc ▸ hlocks)
  obtain ⟨huses, hor⟩ := hi.held p hlock
  rw [hpc, hread] at hor
  have hvalid : (s.entry i).valid = true := hor.resolve_right nofun
  have hcopy := hi.copy ⟨hi.ref_pos huses, hvalid⟩
  rw [holder_of_lock hlock, hpc] at hcopy
  exact ⟨hlock, huses, hvalid, hcopy⟩

theorem key_update {e : Entry P} (hentry : s'.entry = Function.update s.entry j e)
    (he : e.key = (s.entry j).key) : (s'.entry i).key = (s.entry i).key := by
  rw [hentry]
  grind

variable [DecidableEq P]

theorem Inv.install (h : Inv dense s) (hzero : (s.entry i).ref = 0)
    (hnone : ∀ j, 0 < (s.entry j).ref → (s.entry j).key ≠ k) (hpc : (s.thread p).pc.about = none)
    (hentry : s'.entry = Function.update s.entry i ((s.entry i).recycle k))
    (hthread : s'.thread = Function.update s.thread p (((s.thread p).take i).goto .idle))
    (hdisk : s'.disk = s.disk) : Inv dense s' := by
  obtain ⟨hfree, hquiet⟩ := (h.sound i).of_empty hzero
  have hself : s'.entry i = (s.entry i).recycle k := by rw [hentry, update_self]
  have hother : ∀ j ≠ i, s'.entry j = s.entry j := fun j hj => by rw [hentry, update_of_ne hj]
  have hlock : (s'.entry i).lock = none := by
    rw [hself]
    exact hfree
  have hdead : ¬ s'.Live i := by
    rintro ⟨-, hv⟩
    rw [hself] at hv
    cases hv
  refine ⟨fun j => ?_, fun a b ha hb hab => ?_, by rw [hdisk]; exact h.image⟩
  · rcases eq_or_ne j i with rfl | hj
    · refine (h.sound j).actor hthread ?_ (fun q _ => ?_) (fun q _ hl => ?_) nofun (fun hl => ?_)
        fun hl => absurd hl hdead
      · have hw := (hquiet p).1
        rw [Thread.weight_of_about (Pc.about_ne hpc)] at hw
        rw [Thread.weight_of_about (Pc.about_ne hpc), Thread.weight_of_about (Pc.about_ne rfl), hself]
        aesop
      all_goals grind
    · refine (h.sound j).frame (hother j hj) ?_ fun _ _ => by rw [hdisk]
      rw [hthread]
      exact alike_update (alike_take_goto hpc) j hj
  · by_cases hai : a = i <;> by_cases hbi : b = i
    · rw [hai, hbi]
    · rw [hai, hself, hother b hbi] at hab
      rw [hother b hbi] at hb
      exact absurd hab.symm (hnone b hb)
    · aesop
    grind

theorem Inv.iget (h : Inv dense s) (hpc : (s.thread p).pc.about = none) (hs : iget s p k = some s') :
    Inv dense s' := by
  unfold Icache.iget at hs
  split at hs
  next i hi =>
    cases hs
    refine h.recount (cached_eq_some hi).1 rfl rfl rfl (alike_take_goto hpc) ?_
      (.inr ⟨rfl, Pc.locks_of_about (Pc.about_ne hpc)⟩) fun _ _ => .inl (by simp)
    rw [Thread.weight_of_about (Pc.about_ne hpc), Thread.weight_of_about (Pc.about_ne rfl)]
    simp only [Thread.refs_goto, Thread.refs_take_self]
    omega
  next hnone =>
    obtain ⟨i, hi, rfl⟩ := Option.map_eq_some_iff.1 hs
    exact h.install (empty_eq_some hi) (cached_eq_none hnone) hpc rfl rfl rfl

theorem Inv.idup (h : Inv dense s) (hpos : 0 < (s.entry i).ref) : Inv dense (Icache.idup s q i) := by
  refine h.recount hpos rfl rfl rfl (fun j hj => Thread.alike_take hj) ?_ (.inl rfl) ?_
  · rw [Thread.weight_take]
    omega
  · exact fun _ _ => .inl (by simp)

theorem Inv.pass (h : Inv dense s) (hr : s.Refers p i) (hlock : (s.entry i).lock ≠ some p) :
    Inv dense (Icache.pass s p q i) := by
  have hpos := (h.sound i).ref_pos hr.uses
  have hdup := h.idup (q := q) hpos
  have hentry : (Icache.idup s q i).entry i = (s.entry i).setRef ((s.entry i).ref + 1) := update_self ..
  have hrefs : 0 < ((Icache.idup s q i).thread p).refs i := by
    rcases eq_or_ne p q with rfl | hne
    · simp only [Icache.idup, State.setThread, update_self, Thread.refs_take_self]
      omega
    · simp only [Icache.idup, State.setThread, update_of_ne hne]
      exact hr.2
  refine hdup.recount (i := i) (p := p) (r := (s.entry i).ref) ?_ ?_ rfl rfl
    (fun j hj => Thread.alike_give hj) ?_ (.inl rfl) ?_
  · rw [hentry]
    exact Nat.succ_pos _
  · rw [hentry]
    simp only [Icache.idup, State.setThread, State.setEntry, Function.update_idem]
    exact (update_eq_self i s.entry).symm
  · rw [hentry, ← Thread.weight_give hrefs, Nat.add_comm _ 1, ← Nat.add_assoc]
    rfl
  · intro hl
    rw [hentry] at hl
    exact absurd hl hlock

theorem Inv.ilock (h : Inv dense s) (hr : s.Refers p i) (hfree : (s.entry i).lock = none) :
    Inv dense ((s.setEntry i ((s.entry i).setLock (some p))).goto p (.loading i)) := by
  have hi := h.sound i
  have hholder := holder_of_free hfree
  have hpos := hi.ref_pos hr.uses
  refine h.hold (d := s.disk (s.entry i).key) rfl rfl (update_eq_self ..).symm
    (fun j hj => Thread.alike_goto (Pc.only_of_none hr.about) (.inr rfl) hj) (.inl hfree) rfl rfl rfl
    ?_ (.inl hr.2) (.inr (by simp [Pc.unread])) (fun hd => h.image hd _)
    fun hv => (hi.copy ⟨hpos, hv⟩).quiet (by simp [hholder]) (by simp [hholder])
  rw [Thread.weight_of_about (Pc.about_ne hr.about)]
  rfl

theorem Inv.iunlock (h : Inv dense s) (hl : s.Locked p i) : Inv dense (s.setEntry i ((s.entry i).setLock none)) := by
  refine h.letGo hl.2 rfl (update_eq_self p s.thread).symm rfl (fun j _ => .refl ..) rfl ?_ ?_ ?_
  · rw [hl.1]
    rfl
  · rw [hl.1]
    exact nofun
  · rw [hl.1]
    exact nofun

theorem Inv.edit (h : Inv dense s) (hl : s.Locked p i) (d : Dinode) (htype : d.type = (s.entry i).din.type)
    (hd : dense → NoHoles d) : Inv dense ((s.setEntry i ((s.entry i).setDin d)).goto p (.updating i)) := by
  obtain ⟨huses, hlive, hsame, hne, -⟩ := h.locked hl
  refine h.hold (d := s.disk (s.entry i).key) rfl rfl (update_eq_self ..).symm
    (fun j hj => Thread.alike_goto (Pc.only_of_none hl.about) (.inr rfl) hj) (.inr hl.2) hl.2 rfl rfl
    ?_ ?_ (.inl hlive.2) (fun hd => h.image hd _)
    fun _ => ⟨fun hup => absurd rfl hup, fun _ => ⟨hsame.type ▸ hne, htype ▸ hne⟩, hd⟩
  · rw [Thread.weight_of_about (Pc.about_ne hl.about)]
    rfl
  · exact .inl (huses.refs_pos (by rw [hl.1]; rfl))

theorem Inv.remap (h : Inv dense s) (hl : s.Locked p i) {d : Dinode}
    (hmatch : Matches False d (s.entry i).din) (hd : dense → d = (s.entry i).din) :
    Inv dense (s.setEntry i ((s.entry i).setDin d)) := by
  obtain ⟨huses, hlive, hsame, hne, hfull⟩ := h.locked hl
  have hmatch' : Matches dense d (s.entry i).din :=
    ⟨hmatch.type, hmatch.major, hmatch.minor, hmatch.nlink, hmatch.size, fun hdense => by rw [hd hdense]⟩
  exact h.hold (d := s.disk (s.entry i).key) rfl (update_eq_self p s.thread).symm
    (update_eq_self ..).symm (fun j _ => .refl ..) (.inr hl.2) hl.2 rfl rfl rfl huses
    (.inl hlive.2) (fun hd => h.image hd _) fun _ =>
      ⟨fun _ _ => hmatch'.trans hsame, fun _ => ⟨hsame.type ▸ hne, hmatch.type ▸ hne⟩, fun hdense =>
        hd hdense ▸ hfull hdense⟩

theorem Inv.readi (h : Inv dense s) (hl : s.Locked p i) {off n : Nat}
    (hr : Readable (s.entry i).din off) (fresh : Nat → UInt32) :
    Inv dense (Icache.readi s i off n fresh) := by
  refine h.remap hl (foldl_bmap fresh _ _).1 fun hd => ?_
  apply mapBlocks_of_le ((h.locked hl).2.2.2.2 hd)
  have hoff := hr.2
  unfold readCount
  omega

theorem Inv.writei (h : Inv dense s) (hl : s.Locked p i) {off n : Nat}
    (hw : Writable (s.entry i).din off n) {fresh : Nat → UInt32} (hfresh : dense → ∀ bn, fresh bn ≠ 0) :
    Inv dense (Icache.writei s p i off n fresh) := by
  obtain ⟨-, -, -, -, hfull⟩ := h.locked hl
  obtain ⟨⟨-, hoff⟩, hlt, -⟩ := hw
  have hmatch := (foldl_bmap fresh (visited off n) (s.entry i).din).1
  unfold Icache.writei
  split
  next => exact h.edit hl _ hmatch.type fun hd => (hfull hd).grow (hfresh hd) hoff hlt
  next hno =>
    -- all the blocks written lie below the size, or nothing is written
    refine h.remap hl hmatch fun hd => mapBlocks_of_le (hfull hd) ?_
    omega

theorem Inv.load (h : Inv dense s) (hpc : (s.thread p).pc = .loading i) (hs : load s p i = some s') :
    Inv dense s' := by
  have hi := h.sound i
  have hlock := hi.placed p (by rw [hpc]; simp [Pc.locks])
  have hholder : s.holder i = some (.loading i) := by rw [holder_of_lock hlock, hpc]
  obtain ⟨huses, -⟩ := hi.held p hlock
  have hrefs := huses.refs_pos (by rw [hpc]; rfl)
  have hpos := hi.ref_pos huses
  have hweight : ((s.thread p).goto .idle).weight i = (s.thread p).weight i := weight_stage (by rw [hpc]; rfl)
  have halike : ∀ j ≠ i, (s.thread p).Alike j ((s.thread p).goto .idle) :=
    fun j hj => Thread.alike_goto (by rw [hpc]; exact .inr rfl) (.inl rfl) hj
  have hsame := (update_eq_self (s.entry i).key s.disk).symm
  unfold Icache.load at hs
  split at hs
  next hvalid =>
    cases hs
    exact h.hold (update_eq_self i s.entry).symm rfl hsame halike (.inr hlock) hlock rfl
      rfl hweight (.inl hrefs) (.inl hvalid) (fun hd => h.image hd _)
      fun hv => (hi.copy ⟨hpos, hv⟩).quiet (by simp [hholder]) (by simp [hholder])
  next =>
    split at hs
    next => cases hs
    next htype =>
      cases hs
      exact h.hold rfl rfl hsame halike (.inr hlock) hlock rfl rfl hweight (.inl hrefs)
        (.inl rfl) (fun hd => h.image hd _)
        fun _ => ⟨fun _ _ => .refl .., fun _ => ⟨htype, htype⟩, fun hd => h.image hd _⟩

theorem Inv.update (h : Inv dense s) (hpc : (s.thread p).pc = .updating i) :
    Inv dense ((s.iupdate i).goto p .idle) := by
  obtain ⟨hlock, huses, hvalid, hcopy⟩ := h.inCall (i := i) hpc (by simp [Pc.locks]) rfl
  have hrefs := huses.refs_pos (by rw [hpc]; rfl)
  have htyped := hcopy.typed nofun
  exact h.hold (update_eq_self i s.entry).symm rfl rfl
    (fun j hj => Thread.alike_goto (by rw [hpc]; exact .inr rfl) (.inl rfl) hj) (.inr hlock) hlock
    rfl rfl (weight_stage (s := s) (by rw [hpc]; rfl)) (.inl hrefs) (.inl hvalid) hcopy.full
    fun _ => ⟨fun _ _ => .refl .., fun _ => ⟨htyped.2, htyped.2⟩, hcopy.full⟩

end Steps

/-! ## The stages of `iput` -/

section Iput

variable {pc' : Pc}

theorem alike_stage (h : (s.thread p).pc.Only i) (h' : pc'.Only i) :
    ∀ j ≠ i, (s.thread p).Alike j ((s.thread p).goto pc') :=
  fun _ hj => Thread.alike_goto h h' hj

variable [DecidableEq P]

theorem Inv.stage (h : Inv dense s) (pc' : Pc) {e : Entry P} {d : Dinode}
    (hputs : (s.thread p).pc.puts i = true) (hpc' : pc'.puts i = true) (hdrop : pc' ≠ .dropping i)
    (hentry : s'.entry = Function.update s.entry i e)
    (hthread : s'.thread = Function.update s.thread p ((s.thread p).goto pc'))
    (hdisk : s'.disk = Function.update s.disk (s.entry i).key d)
    (hbefore : (s.entry i).lock = none ∨ (s.entry i).lock = some p) (hlock : e.lock = some p)
    (hkey : e.key = (s.entry i).key) (href : e.ref = (s.entry i).ref)
    (hread : e.valid = true ∨ pc'.unread i = true) (himage : dense → NoHoles d)
    (hcopy : e.valid = true → Copy dense i (some pc') e.din d) : Inv dense s' :=
  h.hold hentry hthread hdisk (alike_stage (Pc.only_of_puts hputs) (Pc.only_of_puts hpc')) hbefore hlock hkey href
    (weight_stage (hputs.trans hpc'.symm)) (.inr ⟨hpc', hdrop⟩) hread himage hcopy

theorem Inv.acquire (h : Inv dense s) (hpc : (s.thread p).pc = .put i) (hfree : (s.entry i).lock = none) :
    Inv dense ((s.setEntry i ((s.entry i).setLock (some p))).goto p (.checking i)) := by
  have hi := h.sound i
  have hholder := holder_of_free hfree
  have hpos : 0 < (s.entry i).ref := hi.ref_pos (p := p) (.inr (by rw [hpc]; simp [Pc.puts]))
  exact h.stage (.checking i) (d := s.disk (s.entry i).key) (by simp [hpc, Pc.puts]) (by simp [Pc.puts]) nofun rfl rfl
    (update_eq_self ..).symm (.inl hfree) rfl rfl rfl (.inr (by simp [Pc.unread])) (fun hd => h.image hd _)
    fun hv => (hi.copy ⟨hpos, hv⟩).quiet (by simp [hholder]) (by simp [hholder])

theorem Inv.check (h : Inv dense s) (hpc : (s.thread p).pc = .checking i) : Inv dense (Icache.check s p i) := by
  have hi := h.sound i
  have hlock := hi.placed p (by rw [hpc]; simp [Pc.locks])
  have hholder : s.holder i = some (.checking i) := by rw [holder_of_lock hlock, hpc]
  have hpos := hi.ref_pos (hi.held p hlock).1
  have hstage : ∀ pc', pc'.puts i = true → pc' ≠ .dropping i →
      ((s.entry i).valid = true ∨ pc'.unread i = true) → Inv dense (s.goto p pc') := by
    intro pc' hputs hdrop hread
    exact h.stage pc' (by simp [hpc, Pc.puts]) hputs hdrop
      (update_eq_self i s.entry).symm rfl (update_eq_self _ s.disk).symm (.inr hlock)
      hlock rfl rfl hread (fun hd => h.image hd _)
      fun hv => (hi.copy ⟨hpos, hv⟩).quiet (by simp [hholder]) (by simp [hholder])
  unfold Icache.check
  split
  next hall => exact hstage _ (by simp [Pc.puts]) nofun (.inl hall.1)
  next => exact hstage _ (by simp [Pc.puts]) nofun (.inr (by simp [Pc.unread]))

theorem Inv.itrunc (h : Inv dense s) (hpc : (s.thread p).pc = .truncating i) : Inv dense (Icache.itrunc s p i) := by
  obtain ⟨hlock, -, hvalid, hcopy⟩ := h.inCall (i := i) hpc (by simp [Pc.locks]) rfl
  have htyped := hcopy.typed nofun
  have hempty : NoHoles (truncated (s.entry i).din) := noHoles_of_size rfl
  have hself : (s.setEntry i ((s.entry i).setDin (truncated (s.entry i).din))).entry i =
      (s.entry i).setDin (truncated (s.entry i).din) := update_self ..
  refine h.stage (.clearing i) (d := truncated (s.entry i).din) (e := (s.entry i).setDin (truncated (s.entry i).din))
    (by simp [hpc, Pc.puts]) (by simp [Pc.puts]) nofun rfl rfl ?_ (.inr hlock) hlock rfl rfl (.inl hvalid)
    (fun _ => hempty) fun _ => ⟨fun _ _ => .refl .., fun _ => ⟨htyped.2, htyped.2⟩, fun _ => hempty⟩
  simp only [Icache.itrunc, State.goto, State.setThread, State.iupdate, State.setDisk, hself]
  rfl

theorem Inv.clear (h : Inv dense s) (hpc : (s.thread p).pc = .clearing i) : Inv dense (Icache.clear s p i) := by
  obtain ⟨hlock, -, hvalid, hcopy⟩ := h.inCall (i := i) hpc (by simp [Pc.locks]) rfl
  have hfull : dense → NoHoles { (s.entry i).din with type := 0 } :=
    fun hd => (hcopy.full hd).congr rfl rfl
  have hself : (s.setEntry i ((s.entry i).setDin { (s.entry i).din with type := 0 })).entry i =
      (s.entry i).setDin { (s.entry i).din with type := 0 } := update_self ..
  refine h.stage (.invalidating i) (d := { (s.entry i).din with type := 0 })
    (e := (s.entry i).setDin { (s.entry i).din with type := 0 })
    (by simp [hpc, Pc.puts]) (by simp [Pc.puts]) nofun rfl rfl ?_ (.inr hlock) hlock rfl rfl (.inl hvalid) hfull
    fun _ => ⟨fun _ hin => absurd rfl hin, fun hin => absurd rfl hin, hfull⟩
  simp only [Icache.clear, State.goto, State.setThread, State.iupdate, State.setDisk, hself]
  rfl

theorem Inv.invalidate (h : Inv dense s) (hpc : (s.thread p).pc = .invalidating i) :
    Inv dense ((s.setEntry i { s.entry i with valid := false }).goto p (.unlocking i)) := by
  obtain ⟨hlock, -, -, -⟩ := h.inCall (i := i) hpc (by simp [Pc.locks]) rfl
  exact h.stage (.unlocking i) (by simp [hpc, Pc.puts]) (by simp [Pc.puts]) nofun rfl rfl
    (update_eq_self _ s.disk).symm (.inr hlock) hlock rfl rfl
    (.inr (by simp [Pc.unread])) (fun hd => h.image hd _) nofun

theorem Inv.releasesleep (h : Inv dense s) (hpc : (s.thread p).pc = .unlocking i) :
    Inv dense ((s.setEntry i ((s.entry i).setLock none)).goto p (.dropping i)) := by
  have hlock := (h.sound i).placed p (by rw [hpc]; simp [Pc.locks])
  exact h.letGo hlock rfl rfl rfl (alike_stage (by rw [hpc]; exact .inr rfl) (.inr rfl))
    (weight_stage (s := s) (by rw [hpc]; rfl)) rfl (by rw [hpc]; exact nofun) (by rw [hpc]; exact nofun)

theorem Inv.drop (h : Inv dense s) (hpc : (s.thread p).pc = .dropping i) : Inv dense (Icache.drop s p i) := by
  have hweight : (s.thread p).weight i = ((s.thread p).goto .idle).weight i + 1 := by
    rw [Thread.weight, Thread.weight, hpc]
    simp [Pc.puts]
  have hle := (h.sound i).count.le p
  have hmove : ∀ s' : State P, s'.entry = Function.update s.entry i ((s.entry i).setRef ((s.entry i).ref - 1)) →
      s'.thread = Function.update s.thread p ((s.thread p).goto .idle) → s'.disk = s.disk → Inv dense s' := by
    intro s' hentry hthread hdisk
    refine h.recount (by omega) hentry hthread hdisk (alike_stage (by rw [hpc]; exact .inr rfl) (.inl rfl))
      (by omega) (.inr ⟨rfl, by rw [hpc]; rfl⟩) fun _ huses => ?_
    -- whoever is about to drop its reference uses another one, or none
    rcases huses with hrefs | ⟨-, hne⟩
    · exact .inl hrefs
    · exact absurd hpc hne
  unfold Icache.drop
  split
  · exact hmove _ rfl rfl rfl
  · exact hmove _ rfl rfl rfl

theorem Inv.iput (h : Inv dense s) (hr : s.Refers p i) :
    Inv dense (s.setThread p (((s.thread p).give i).goto (.put i))) := by
  have hweight : (((s.thread p).give i).goto (.put i)).weight i = (s.thread p).weight i := by
    rw [← Thread.weight_give hr.2, Thread.weight, Thread.weight, Thread.pc_give, hr.1]
    simp [Pc.puts]
  have halike : ∀ j ≠ i, (s.thread p).Alike j (((s.thread p).give i).goto (.put i)) :=
    fun j hj => (Thread.alike_give hj).trans (Thread.alike_goto (Pc.only_of_none hr.about) (.inr rfl) hj)
  refine h.recount (r := (s.entry i).ref) ((h.sound i).ref_pos hr.uses)
    (update_eq_self i s.entry).symm rfl rfl halike (by rw [hweight])
    (.inr ⟨rfl, Pc.locks_of_about (Pc.about_ne hr.about)⟩) fun _ _ => .inr ?_
  exact ⟨by simp [Pc.puts], nofun⟩

end Iput

/-! ## Runs -/

section Runs

variable {disk : Key → Dinode}

theorem inv_boot (himage : dense → ∀ k, NoHoles (disk k)) : Inv dense (boot P disk) where
  sound _ := {
    count := Total.zero _ fun _ => rfl
    placed := nofun
    held := nofun
    copy := fun hl => nomatch hl.2 }
  unique _ _ hi := absurd hi (lt_irrefl 0)
  image := himage

variable [DecidableEq P]

theorem Inv.ialloc (h : Inv dense s) {k : Key} {type : UInt16} (hpc : (s.thread p).pc = .idle)
    (hfree : (s.disk k).type = 0) (hentry : s'.entry = s.entry)
    (hthread : s'.thread = Function.update s.thread p ((s.thread p).goto (.allocated k)))
    (hdisk : s'.disk = Function.update s.disk k (newInode type)) : Inv dense s' where
  sound i := by
    refine (h.sound i).frame (by rw [hentry]) (fun q => ?_) fun hlive hin => ?_
    · rw [hthread]
      rcases eq_or_ne q p with rfl | hq
      · rw [update_self]
        exact ⟨rfl, .inr ⟨by rw [hpc]; exact nofun, nofun⟩⟩
      · rw [update_of_ne hq]
        exact .refl ..
    · -- an inode in the cache that has been read is not free
      have hne : (s.entry i).key ≠ k := by
        rintro rfl
        exact (((h.sound i).copy hlive).typed hin).1 hfree
      rw [hdisk, update_of_ne hne]
  unique := by
    rw [hentry]
    exact h.unique
  image hd j := by
    rw [hdisk]
    all_goals grind [newInode, noHoles_of_size]

theorem Inv.run (h : Inv dense s) (hs : run s p = some s') : Inv dense s' := by
  unfold Icache.run at hs
  split at hs
  next => cases hs
  next hpc => exact h.load hpc hs
  next hpc =>
    cases hs
    exact h.update hpc
  next hpc => exact h.iget (by rw [hpc]; rfl) hs
  next hpc =>
    obtain ⟨hfree, ⟨⟩⟩ := ite_none_right_eq_some.1 hs
    exact h.acquire hpc hfree
  next hpc =>
    cases hs
    exact h.check hpc
  next hpc =>
    cases hs
    exact h.itrunc hpc
  next hpc =>
    cases hs
    exact h.clear hpc
  next hpc =>
    cases hs
    exact h.invalidate hpc
  next hpc =>
    cases hs
    exact h.releasesleep hpc
  next hpc =>
    cases hs
    exact h.drop hpc

/-- Every event keeps the invariant; where there are no holes, if `balloc` returns no block 0. -/
theorem Inv.step {e : Event P} (h : Inv dense s) (hmarked : dense → e.Marked) (he : step s e = some s') :
    Inv dense s' := by
  cases e with
  | run p => exact h.run he
  | iget p k =>
    obtain ⟨hpc, he⟩ := ite_none_right_eq_some.1 he
    exact h.iget (by rw [hpc]; rfl) he
  | idup p q i =>
    obtain ⟨hr, ⟨⟩⟩ := ite_none_right_eq_some.1 he
    exact h.idup ((h.sound i).ref_pos hr.uses)
  | pass p q i =>
    obtain ⟨⟨hr, hlock⟩, ⟨⟩⟩ := ite_none_right_eq_some.1 he
    exact h.pass hr hlock
  | ilock p i =>
    obtain ⟨⟨hr, hfree⟩, ⟨⟩⟩ := ite_none_right_eq_some.1 he
    exact h.ilock hr hfree
  | iunlock p i =>
    obtain ⟨hl, ⟨⟩⟩ := ite_none_right_eq_some.1 he
    exact h.iunlock hl
  | edit p i major minor nlink =>
    obtain ⟨hl, ⟨⟩⟩ := ite_none_right_eq_some.1 he
    exact h.edit hl _ rfl fun hd => ((h.locked hl).2.2.2.2 hd).congr rfl rfl
  | readi p i off n fresh =>
    obtain ⟨⟨hl, hoff⟩, ⟨⟩⟩ := ite_none_right_eq_some.1 he
    exact h.readi hl hoff fresh
  | writei p i off n fresh =>
    obtain ⟨⟨hl, hw⟩, ⟨⟩⟩ := ite_none_right_eq_some.1 he
    exact h.writei hl hw hmarked
  | ialloc p k type =>
    obtain ⟨⟨hpc, hfree, -⟩, ⟨⟩⟩ := ite_none_right_eq_some.1 he
    exact h.ialloc hpc hfree rfl rfl rfl
  | iput p i =>
    obtain ⟨hr, ⟨⟩⟩ := ite_none_right_eq_some.1 he
    exact h.iput hr

theorem inv_of_reachable (h : Relation.ReflTransGen Step (boot P disk) s) : Inv False s := by
  refine invariant_of_reachable (Inv False) (inv_boot False.elim) ?_ h
  rintro s s' hi ⟨e, he⟩
  exact hi.step False.elim he

theorem inv_of_marked (himage : ∀ k, NoHoles (disk k)) (h : Relation.ReflTransGen MarkedStep (boot P disk) s) :
    Inv True s := by
  refine invariant_of_reachable (Inv True) (inv_boot fun _ => himage) ?_ h
  rintro s s' hi ⟨e, hmarked, he⟩
  exact hi.step (fun _ => hmarked) he

theorem key_of_iget {k : Key} (hs : iget s p k = some s') (hne : (s'.entry i).key ≠ (s.entry i).key) :
    (s.entry i).ref = 0 := by
  unfold Icache.iget at hs
  split at hs
  next =>
    cases hs
    exact (hne (key_update rfl rfl)).elim
  next =>
    obtain ⟨j, hempty, rfl⟩ := Option.map_eq_some_iff.1 hs
    rcases eq_or_ne i j with rfl | hij
    · exact empty_eq_some hempty
    · exact absurd (congrArg Entry.key (update_of_ne hij ..)) hne

theorem key_of_run (hs : run s p = some s') (hne : (s'.entry i).key ≠ (s.entry i).key) : (s.entry i).ref = 0 := by
  unfold Icache.run at hs
  split at hs
  next => cases hs
  next =>
    unfold Icache.load at hs
    split at hs
    next =>
      cases hs
      exact absurd rfl hne
    next =>
      split at hs
      next => cases hs
      next =>
        cases hs
        exact (hne (key_update rfl rfl)).elim
  next =>
    cases hs
    exact absurd rfl hne
  next => exact key_of_iget hs hne
  next =>
    obtain ⟨-, ⟨⟩⟩ := ite_none_right_eq_some.1 hs
    exact (hne (key_update rfl rfl)).elim
  next =>
    cases hs
    unfold Icache.check at hne
    split at hne
    · exact absurd rfl hne
    · exact absurd rfl hne
  next =>
    cases hs
    exact (hne (key_update rfl rfl)).elim
  next =>
    cases hs
    exact (hne (key_update rfl rfl)).elim
  next =>
    cases hs
    exact (hne (key_update rfl rfl)).elim
  next =>
    cases hs
    exact (hne (key_update rfl rfl)).elim
  next =>
    cases hs
    unfold Icache.drop at hne
    split at hne
    · exact (hne (key_update rfl rfl)).elim
    · exact (hne (key_update rfl rfl)).elim

theorem key_of_step (hs : Step s s') (hne : (s'.entry i).key ≠ (s.entry i).key) : (s.entry i).ref = 0 := by
  obtain ⟨e, he⟩ := hs
  cases e with
  | run p => exact key_of_run he hne
  | iget p k => exact key_of_iget (ite_none_right_eq_some.1 he).2 hne
  | writei p j off n fresh =>
    obtain ⟨-, ⟨⟩⟩ := ite_none_right_eq_some.1 he
    unfold Icache.writei at hne
    split at hne
    · exact (hne (key_update rfl rfl)).elim
    · exact (hne (key_update rfl rfl)).elim
  | _ =>
    -- the other events change no entry, or one that keeps its inode
    obtain ⟨-, ⟨⟩⟩ := ite_none_right_eq_some.1 he
    first | exact absurd rfl hne | exact (hne (key_update rfl rfl)).elim

/-- In every interleaving of the calls: an inode has at most one entry in use, `ref` counts the references, and an
entry is given to another inode only while it is empty.  On an image without holes whose bitmap marks the boot block
as in use, an unlocked entry in use is what is on disk. -/
theorem icache_coherent (hreach : Relation.ReflTransGen Step (boot P disk) s) :
    (∀ i j, 0 < (s.entry i).ref → 0 < (s.entry j).ref → (s.entry i).key = (s.entry j).key → i = j) ∧
      (∀ i, Total (Thread.weight i) s.thread (s.entry i).ref) ∧
      (∀ s', Step s s' → ∀ i, (s'.entry i).key ≠ (s.entry i).key → (s.entry i).ref = 0) ∧
      ((∀ k, NoHoles (disk k)) → Relation.ReflTransGen MarkedStep (boot P disk) s →
        ∀ i, 0 < (s.entry i).ref → (s.entry i).valid = true → (s.entry i).lock = none →
          (s.entry i).din = s.disk (s.entry i).key) := by
  have h := inv_of_reachable hreach
  refine ⟨h.unique, fun i => (h.sound i).count, fun s' hs i hne => key_of_step hs hne, fun himage hmarked => ?_⟩
  have hdense := inv_of_marked himage hmarked
  intro i hpos hvalid hfree
  have hholder := holder_of_free hfree
  exact Matches.eq (((hdense.sound i).copy ⟨hpos, hvalid⟩).clean (by simp [hholder]) (by simp [hholder])) trivial

end Runs

/-- A disk on which every inode is an empty file with one link. -/
def fileDisk : Key → Dinode := fun _ => { newInode T_FILE with nlink := 1 }

theorem noHoles_fileDisk (k : Key) : NoHoles (fileDisk k) := noHoles_of_size rfl

/-- Inode 1 is read into the second entry, all references are put, and then it is linked through the
first entry. -/
def relinkRun : List (Event Unit) :=
  [.iget () (1, 2), .iget () (1, 1), .ilock () 1, .run (), .iunlock () 1,
    .iput () 1, .run (), .run (), .run (), .run (),
    .iput () 0, .run (), .run (), .run (), .run (),
    .iget () (1, 1), .ilock () 0, .run (), .edit () 0 0 0 2, .run (), .iunlock () 0]

/-- No block is asked for in the run. -/
theorem relinkRun_marked {s : State Unit} (h : relinkRun.foldlM step (boot Unit fileDisk) = some s) :
    Relation.ReflTransGen MarkedStep (boot Unit fileDisk) s := by
  have hmarked : ∀ e ∈ relinkRun, e.Marked := by simp [relinkRun, Event.Marked]
  exact reachable_of_forall relinkRun (fun e he _ _ hstep => ⟨e, hmarked e he, hstep⟩) h

theorem icache_coherent_relinkRun :
    ∃ s : State Unit, (s.entry 0).key = (1, 1) ∧ (s.entry 0).valid = true ∧ (s.entry 0).lock = none ∧
      (s.entry 0).din = s.disk (1, 1) ∧ (s.disk (1, 1)).nlink = 2 := by
  have hrun : (relinkRun.foldlM step (boot Unit fileDisk)).map (fun s =>
      ((s.entry 0).key, (s.entry 0).ref, (s.entry 0).valid, (s.entry 0).lock, (s.disk (1, 1)).nlink)) =
      some ((1, 1), 1, true, none, 2) := by
    decide +kernel
  obtain ⟨s, hs, hend⟩ := Option.map_eq_some_iff.1 hrun
  simp only [Prod.mk.injEq] at hend
  obtain ⟨hkey, href, hvalid, hlock, hlinks⟩ := hend
  have hsame := (icache_coherent (reachable_of_foldlM relinkRun hs)).2.2.2 noHoles_fileDisk (relinkRun_marked hs) 0
    (by omega) hvalid hlock
  exact ⟨s, hkey, hvalid, hlock, hkey ▸ hsame, hlinks⟩

/-- A byte is written to inode 1 while `balloc` returns block 0, and is read again. -/
def bootBlockRun : List (Event Unit) :=
  [.iget () (1, 1), .ilock () 0, .run (), .writei () 0 0 1 fun _ => 0, .run (), .readi () 0 0 1 fun _ => 70,
    .iunlock () 0]

/-- The second entry of the first run is empty, unlocked and still marked as valid, with the old number of links.
The entry of the second run is in use, and its copy has an address that is not on disk. -/
theorem icache_stale : (∀ k, NoHoles (fileDisk k)) ∧
    (∃ s : State Unit, Relation.ReflTransGen MarkedStep (boot Unit fileDisk) s ∧
      (s.entry 1).ref = 0 ∧ (s.entry 1).valid = true ∧ (s.entry 1).lock = none ∧
      (s.entry 1).din.nlink ≠ (s.disk (s.entry 1).key).nlink) ∧
    ∃ s : State Unit, Relation.ReflTransGen Step (boot Unit fileDisk) s ∧
      (s.entry 0).ref = 1 ∧ (s.entry 0).valid = true ∧ (s.entry 0).lock = none ∧
      (s.entry 0).din.addrs 0 ≠ (s.disk (s.entry 0).key).addrs 0 := by
  have hrelink : (relinkRun.foldlM step (boot Unit fileDisk)).map (fun s => ((s.entry 1).ref,
      (s.entry 1).valid, (s.entry 1).lock, (s.entry 1).din.nlink, (s.disk (s.entry 1).key).nlink)) =
      some (0, true, none, 1, 2) := by
    decide +kernel
  have hboot : (bootBlockRun.foldlM step (boot Unit fileDisk)).map (fun s => ((s.entry 0).ref,
      (s.entry 0).valid, (s.entry 0).lock, (s.entry 0).din.addrs 0, (s.disk (s.entry 0).key).addrs 0)) =
      some (1, true, none, 70, 0) := by
    decide +kernel
  obtain ⟨s, hs, hend⟩ := Option.map_eq_some_iff.1 hrelink
  obtain ⟨t, ht, hend'⟩ := Option.map_eq_some_iff.1 hboot
  simp only [Prod.mk.injEq] at hend hend'
  refine ⟨noHoles_fileDisk, ⟨s, relinkRun_marked hs, hend.1, hend.2.1, hend.2.2.1, ?_⟩,
    t, reachable_of_foldlM bootBlockRun ht, hend'.1, hend'.2.1, hend'.2.2.1, ?_⟩
  · rw [hend.2.2.2.1, hend.2.2.2.2]
    decide
  · rw [hend'.2.2.2.1, hend'.2.2.2.2]
    decide

end Invariant

end AsoPracticas.Xv6.Icache
