import AsoPracticas.Xv6.Walks

/-!
# Syscalls — each call of the file system, one process at a time

What a process knows through every function of `fs.c` and `sysfile.c`, from the rules of `Walks`.  A
call starts and ends with the references of the current directory and the open files, without a lock
and with all link counts accounted for (`knows_body`).
-/

namespace AsoPracticas.Xv6.Naming

open Lib
open Function (update update_eq_self update_idem update_of_ne update_self)
open Lib.Logic (wp_bind wp_mono wp_then)

/-! ## References and locks of a process -/

namespace Local

variable {l : Local} {i j : Inum} {nd nd' : Node}

theorem refs_take_pos : 0 < (l.take i).refs i := by
  rw [take_refs_self]
  exact Nat.succ_pos _

theorem take_drop : (l.take i).drop i = l := by
  simp [take, drop]

theorem take_comm : (l.take i).take j = (l.take j).take i := by
  simp only [take, mk.injEq, and_true]
  grind

theorem take_take_drop : ((l.take i).take j).drop i = l.take j := by
  rw [take_comm, take_drop]

theorem update_held (h : l.held i = none) : update l.held i none = l.held := by
  rw [← h, update_eq_self]

theorem leaving_none (h : l.leaving = none) : { l with leaving := none } = l := by
  rw [← h]

/-- No lock, and nothing begun but for links. -/
@[grind cases eager]
structure Calm (l : Local) : Prop where
  held : ∀ i, l.held i = none
  credit : ∀ i, 0 < l.credit i → 0 < l.refs i
  fresh : l.fresh = none
  dying : l.dying = none
  leaving : l.leaving = none

theorem Calm.take (h : l.Calm) (i : Inum) : (l.take i).Calm where
  __ := h
  credit j hj := (h.credit j hj).trans_le (refs_le_take j)

/-- A directory `i` is unlocked and given back, when inode `j` has been found in it or put into it. -/
theorem Calm.give_back {m : Local} (h : l.Calm) (nd : Node) (hne : i ≠ j) (hrefs : m.refs = ((l.take i).take j).refs)
    (hheld : ∀ x, x ≠ i → m.held x = update l.held j (some nd) x) (hfresh : m.fresh = none) (hdying : m.dying = none) :
    { (m.unlock i).drop i with leaving := none } = { (l.take j).see j nd with credit := m.credit } := by
  ext1
  · show update m.refs i (m.refs i - 1) = (l.take j).refs
    rw [hrefs]
    exact congrArg Local.refs take_take_drop
  · funext x
    by_cases hx : x = i
    · subst hx
      simp [Local.take, see, drop, unlock, hne, h.held]
    · simpa [Local.take, see, drop, unlock, hx] using hheld x hx
  · rfl
  · exact hfresh.trans h.fresh.symm
  · exact hdying.trans h.dying.symm
  · exact h.leaving.symm

theorem Calm.below (h : l.Calm) (i : Inum) : l.Below i := by
  intro x nd hx
  cases (h.held x).symm.trans hx

end Local

section Functions

variable {P : Type} [DecidableEq P] {strict : Prop} {p : P} {l : Local} {i : Inum} {nd : Node} {path : List UInt8}
  {cwd : Inum} {name : Name} {dp : Inum} {k : Kind}

/-! ## fs.c -/

theorem knows_peek_then {α : Type} {f : Node → Fs α} {Q : α → Local → Prop} (hdying : l.dying = none)
    (hheld : l.held i = some nd) (hf : Knows strict p (f nd) Q l) :
    Knows strict p (do let nd ← peek i; f nd) Q l := by
  refine wp_bind (knows_peek hdying hheld) ?_
  rintro _ _ ⟨rfl, rfl⟩
  exact hf

theorem knows_ilock (hdying : l.dying = none) (hrefs : 0 < l.refs i)
    (hfresh : l.fresh = none ∨ ∃ k, l.fresh = some (i, k)) (hbelow : strict → l.Below i) :
    Knows strict p (ilock i) (fun _ l' => ∃ nd, l.Finds i nd ∧ l' = { l.see i nd with leaving := none }) l := by
  refine wp_bind (knows_acquiresleep hdying hrefs hfresh hbelow) ?_
  rintro _ _ ⟨nd, hfinds, rfl⟩
  refine wp_mono (knows_load hdying hrefs) ?_
  rintro _ _ rfl
  exact ⟨nd, hfinds, rfl⟩

theorem knows_ifree (hheld : l.held i = some nd) (hdying : l.dying = some (i, .doomed))
    (hfresh : l.fresh = none) (hcredit : l.credit i = 0) :
    Knows strict p (ifree i nd.nlink) (fun _ l' => ∃ nd', l' = { l.see i nd' with dying := some (i, .freed) }) l := by
  refine wp_then (knows_itrunc hheld hdying hfresh) fun _ => ?_
  refine wp_then (knows_clear (update_self ..) rfl hfresh hcredit) fun _ => ?_
  refine wp_mono knows_invalidate ?_
  rintro _ _ rfl
  exact ⟨{ kind := none, nlink := nd.nlink, ents := [] }, by simp [Local.see]⟩

/-- After the test of `iput` the inode is as it was, or it is free and the process has the only
reference to it. -/
theorem knows_ifreeUnused {valid : Bool} (hdying : l.dying = none) (hfresh : l.fresh = none)
    (hheld : l.held i = some nd) :
    Knows strict p (ifreeUnused i valid nd)
      (fun _ l' => l' = l ∨ (∃ nd', l' = { l.see i nd' with dying := some (i, .freed) }) ∧
        l.refs i = 1 ∧ l.credit i = 0) l := by
  unfold ifreeUnused
  split
  · rename_i hcond
    refine wp_bind (knows_readRef hdying hfresh hheld hcond.2) ?_
    rintro r _ ⟨hone, rfl⟩
    split
    · obtain ⟨hrefs, hcredit⟩ := hone ‹_›
      refine wp_mono (knows_ifree hheld rfl hfresh hcredit) ?_
      rintro _ _ ⟨nd', rfl⟩
      exact .inr ⟨⟨nd', rfl⟩, hrefs, hcredit⟩
    · exact .inl rfl
  · exact .inl rfl

theorem knows_iput (hdying : l.dying = none) (hfresh : l.fresh = none) (hrefs : 0 < l.refs i)
    (hcredit : 0 < l.credit i → 1 < l.refs i) (hbelow : strict → l.Below i) :
    Knows strict p (iput i) (fun _ l' => l' = { l.drop i with leaving := none }) l := by
  refine wp_bind (knows_acquiresleep hdying hrefs (.inl hfresh) hbelow) ?_
  rintro _ _ ⟨nd, hfinds, rfl⟩
  refine wp_then knows_isValid fun valid => ?_
  refine knows_peek_then hdying (update_self ..) ?_
  refine wp_bind (knows_ifreeUnused hdying hfresh (update_self ..)) ?_
  rintro _ _ (rfl | ⟨⟨nd', rfl⟩, hone, hzero⟩)
  · refine wp_then (knows_releasesleep (update_self ..) (.inl hdying) hfresh hfinds.plain) fun _ => ?_
    refine wp_mono (knows_dropRef hrefs ?_ hcredit (.inl hdying) hfresh) ?_
    · simp [Local.unlock]
    · rintro _ _ rfl
      simp [Local.drop, Local.unlock, Local.see, Local.update_held hfinds.free, hdying]
  · refine wp_then (knows_releasesleep (update_self ..) (.inr rfl) hfresh fun hpos => absurd hzero hpos.ne') fun _ => ?_
    refine wp_mono (knows_dropRef hrefs ?_ hcredit (.inr ⟨rfl, hone⟩) hfresh) ?_
    · simp [Local.unlock]
    · rintro _ _ rfl
      simp [Local.drop, Local.unlock, Local.see, Local.update_held hfinds.free, hdying]

theorem knows_iunlockput (hdying : l.dying = none) (hfresh : l.fresh = none)
    (hheld : l.held i = some nd) (hrefs : 0 < l.refs i) (hplain : 0 < l.credit i → nd.kind ≠ some .dir)
    (hcredit : 0 < l.credit i → 1 < l.refs i)
    (hbelow : strict → Local.Below { l.unlock i with leaving := none } i) :
    Knows strict p (iunlockput i) (fun _ l' => l' = { (l.unlock i).drop i with leaving := none }) l := by
  refine wp_then (knows_releasesleep hheld (.inl hdying) hfresh hplain) fun _ => ?_
  exact knows_iput hdying hfresh hrefs hcredit hbelow

theorem knows_iunlockputKeeping (hdying : l.dying = none) (hfresh : l.fresh = none)
    (hheld : l.held i = some nd) (hrefs : 0 < l.refs i) (hcredit : l.credit i = 0) :
    Knows strict p (iunlockputKeeping i) (fun _ l' => l' = { (l.unlock i).drop i with leaving := none }) l := by
  have hzero : ¬ 0 < l.credit i := by omega
  refine wp_then (knows_releasesleep hheld (.inl hdying) hfresh fun h => absurd h hzero) fun _ => ?_
  refine knows_iput hdying hfresh hrefs (fun h => absurd h hzero) fun _ x nd' hx => ?_
  have hne : x ≠ i := by
    rintro rfl
    simp [Local.unlock] at hx
  exact .inr ⟨hne, .inl rfl⟩

theorem knows_dirlookup (hdying : l.dying = none) (hfresh : l.fresh = none) (hheld : l.held i = some nd) :
    Knows strict p (dirlookup i name)
      (fun r l' => nd.kind = some .dir ∧ r = findEntry name nd.ents ∧
        l' = match r with | none => l | some (j, _) => l.take j) l := by
  refine knows_peek_then hdying hheld ?_
  split
  · exact knows_panic
  · rename_i hdir
    split
    · rename_i hnone
      exact ⟨not_not.1 hdir, hnone.symm, rfl⟩
    · rename_i j off hsome
      have hmem := List.mem_of_getElem? (findEntry_eq_some hsome)
      refine wp_then (knows_iget hdying (.inr (.inr (.inr ⟨hfresh, i, _, name, hheld, hmem⟩)))) fun _ => ?_
      exact ⟨not_not.1 hdir, hsome.symm, rfl⟩

theorem knows_dirlookup_none (hdying : l.dying = none) (hheld : l.held i = some nd)
    (hnone : findEntry name nd.ents = none) :
    Knows strict p (dirlookup i name) (fun r l' => r = none ∧ l' = l) l := by
  refine knows_peek_then hdying hheld ?_
  split
  · exact knows_panic
  · rw [hnone]
    exact ⟨rfl, rfl⟩

theorem knows_dirlink_none {j : Inum} {Q : Local → Prop} (hdying : l.dying = none)
    (hheld : l.held i = some nd) (hnone : findEntry name nd.ents = none)
    (hwrite : Knows strict p (writei i (freeEntry nd.ents) (some (name, j))) (fun _ l' => Q l') l) :
    Knows strict p (dirlink i name j) (fun r l' => r = true ∧ Q l') l := by
  refine wp_bind (knows_dirlookup_none hdying hheld hnone) ?_
  rintro _ _ ⟨rfl, rfl⟩
  refine knows_peek_then hdying hheld ?_
  refine wp_bind hwrite ?_
  intro _ l' hQ
  exact ⟨rfl, hQ⟩

/-! ### Paths -/

/-- The last element of a path, or `name` if there is none. -/
def lastName : (fuel : Nat) → (path name : List UInt8) → Name
  | 0, _, name => name
  | fuel + 1, path, name =>
    match skipelem path with
    | none => name
    | some (name, path) => lastName fuel path name

theorem lastName_nil {fuel : Nat} : lastName fuel [] name = name := by
  cases fuel <;> rfl

theorem lastName_of_none {fuel : Nat} {path name : List UInt8} (h : skipelem path = none) :
    lastName (fuel + 1) path name = name := by
  rw [lastName, h]

theorem lastName_of_some {fuel : Nat} {path name path' name' : List UInt8} (h : skipelem path = some (name', path')) :
    lastName (fuel + 1) path name = lastName fuel path' name' := by
  rw [lastName, h]

theorem take_credit (h : l.Calm) (hpos : 0 < (l.take i).credit i) : 1 < (l.take i).refs i := by
  have := h.credit i hpos
  rw [take_refs_self]
  omega

theorem knows_iunlockput_walk (h : l.Calm) (hplain : 0 < l.credit i → nd.kind ≠ some .dir) :
    Knows strict p (iunlockput i) (fun _ l' => l' = l) ((l.take i).see i nd) := by
  have hunlock : ((l.take i).see i nd).unlock i = l.take i := by
    have hheld : update l.held i none = l.held := Local.update_held (h.held i)
    simp [Local.take, Local.see, Local.unlock, hheld]
  refine wp_mono (knows_iunlockput h.dying h.fresh (update_self ..) Local.refs_take_pos hplain (take_credit h) ?_) ?_
  · rw [hunlock, Local.leaving_none (h.take i).leaving]
    exact fun _ => (h.take i).below i
  · rintro _ _ rfl
    rw [hunlock, Local.take_drop, Local.leaving_none h.leaving]

theorem knows_iput_walk (h : l.Calm) : Knows strict p (iput i) (fun _ l' => l' = l) (l.take i) := by
  refine wp_mono (knows_iput h.dying h.fresh Local.refs_take_pos (take_credit h) fun _ => (h.take i).below i) ?_
  rintro _ _ rfl
  rw [Local.take_drop, Local.leaving_none h.leaving]

theorem knows_ilock_walk (h : l.Calm) :
    Knows strict p (ilock i)
      (fun _ l' => ∃ nd, nd.kind ≠ none ∧ (0 < l.credit i → nd.kind ≠ some .dir) ∧
        l' = (l.take i).see i nd) (l.take i) := by
  refine wp_mono (knows_ilock h.dying Local.refs_take_pos (.inl h.fresh) fun _ => (h.take i).below i) ?_
  rintro _ _ ⟨nd, hfinds, rfl⟩
  exact ⟨nd, hfinds.allocated, hfinds.plain, Local.leaving_none h.leaving⟩

theorem knows_iunlock_walk (h : l.Calm) (hplain : 0 < l.credit i → nd.kind ≠ some .dir) :
    Knows strict p (iunlock i) (fun _ l' => l' = l.take i) ((l.take i).see i nd) := by
  refine wp_mono (knows_releasesleep (update_self ..) (.inl h.dying) h.fresh hplain) ?_
  rintro _ _ rfl
  have hheld : update l.held i none = l.held := Local.update_held (h.held i)
  simp [Local.take, Local.see, Local.unlock, hheld, h.leaving]

/-- The directory in which an inode has been found is given back, the inode is kept. -/
theorem knows_iunlockput_found {j : Inum} (h : l.Calm) (hplain : 0 < l.credit i → nd.kind ≠ some .dir) :
    Knows strict p (iunlockput i) (fun _ l' => l' = l.take j) (((l.take i).see i nd).take j) := by
  show Knows strict p _ _ (((l.take i).take j).see i nd)
  rw [Local.take_comm]
  exact knows_iunlockput_walk (h.take j) hplain

/-- The inode at the end of a walk is locked and looked at. -/
theorem knows_look {α : Type} {f : Node → Fs α} {Q : α → Local → Prop} (h : l.Calm)
    (hf : ∀ nd, (0 < l.credit i → nd.kind ≠ some .dir) → Knows strict p (f nd) Q ((l.take i).see i nd)) :
    Knows strict p (do ilock i; let nd ← peek i; f nd) Q (l.take i) := by
  refine wp_bind (knows_ilock_walk h) ?_
  rintro _ _ ⟨nd, -, hplain, rfl⟩
  exact knows_peek_then h.dying (update_self ..) (hf nd hplain)

theorem knows_namexLoop {nameiparent : Bool} {fuel : Nat} {path name : List UInt8} (h : l.Calm) :
    Knows strict p (namexLoop nameiparent fuel path name i)
      (fun r l' => match r with
        | none => l' = l
        | some (j, n) => l' = l.take j ∧ (nameiparent = true → n = lastName fuel path name))
      (l.take i) := by
  -- a walk has one reference, and at most one lock, which it gives back before it goes on
  induction fuel generalizing path name i with
  | zero => exact wp_then (knows_iput_walk h) fun _ => rfl
  | succ fuel ih =>
    rw [namexLoop]
    cases hskip : skipelem path with
    | none =>
      dsimp only
      split
      · exact wp_then (knows_iput_walk h) fun _ => rfl
      · exact ⟨rfl, fun _ => (lastName_of_none hskip).symm⟩
    | some np =>
      refine knows_look h fun nd hplain => ?_
      split
      · exact wp_then (knows_iunlockput_walk h hplain) fun _ => rfl
      · split
        · rename_i hlast
          refine wp_then (knows_iunlock_walk h hplain) fun _ => ⟨rfl, fun _ => ?_⟩
          rw [lastName_of_some hskip, hlast.2, lastName_nil]
        · refine wp_bind (knows_dirlookup h.dying h.fresh (update_self ..)) ?_
          rintro (_ | ⟨next, off⟩) _ ⟨-, hfind, rfl⟩
          · exact wp_then (knows_iunlockput_walk h hplain) fun _ => rfl
          · rw [lastName_of_some hskip]
            exact wp_then (knows_iunlockput_found h hplain) fun _ => ih

theorem knows_namex {nameiparent : Bool} (h : l.Calm) (hcwd : 0 < l.refs cwd) :
    Knows strict p (namex cwd path nameiparent)
      (fun r l' => match r with
        | none => l' = l
        | some (j, n) => l' = l.take j ∧
            (nameiparent = true → n = lastName (path.length + 1) path [])) l := by
  refine wp_then (knows_iget h.dying ?_) fun _ => knows_namexLoop h
  split
  · exact .inl rfl
  · exact .inr (.inl hcwd)

theorem knows_namei (h : l.Calm) (hcwd : 0 < l.refs cwd) :
    Knows strict p (namei cwd path) (fun r l' => match r with | none => l' = l | some j => l' = l.take j) l := by
  refine wp_bind (knows_namex h hcwd) ?_
  rintro (_ | ⟨j, n⟩) _ hr
  · exact hr
  · exact hr.1

theorem knows_nameiparent (h : l.Calm) (hcwd : 0 < l.refs cwd) :
    Knows strict p (nameiparent cwd path)
      (fun r l' => match r with
        | none => l' = l
        | some (j, n) => l' = l.take j ∧ n = lastName (path.length + 1) path []) l := by
  refine wp_mono (knows_namex h hcwd) ?_
  rintro (_ | ⟨j, n⟩) _ hr
  · exact hr
  · exact ⟨hr.1, hr.2 rfl⟩

/-! ## sysfile.c -/

/-- No link count is ahead of the names. -/
@[grind cases eager]
structure Local.Settled (l : Local) : Prop extends l.Calm where
  zero : l.credit = fun _ => 0

theorem Local.Settled.take (h : l.Settled) (i : Inum) : (l.take i).Settled := ⟨h.toCalm.take i, h.zero⟩

theorem Local.Settled.no_credit {C : Prop} (h : l.Settled) (hpos : 0 < l.credit i) : C := by
  simp [h.zero] at hpos

theorem knows_iunlockput_done (h : l.Settled) : Knows strict p (do iunlockput i; return Outcome.done)
    (fun o l' => o = .done ∧ l' = l) ((l.take i).see i nd) :=
  wp_then (knows_iunlockput_walk h.toCalm h.no_credit) fun _ => ⟨rfl, rfl⟩

/-- What `createDots` leaves of the two inodes, and the link of `..` that has no name yet. -/
theorem knows_createDots {dnd : Node} (hdying : l.dying = none)
    (hfresh : l.fresh = some (i, k)) (hne : dp ≠ i) (hdp : l.held dp = some dnd)
    (hdir : dnd.kind = some .dir) (hnlink : 0 < dnd.nlink) (hcredit : l.credit dp = 0)
    (hheld : l.held i = some { kind := some k, nlink := 1, ents := [] }) :
    Knows strict p (createDots k dp i)
      (fun _ l' => ∃ dnd' ndi, dnd'.kind = some .dir ∧ dnd'.ents = dnd.ents ∧
        ((if k = .dir then 1 else 0 : ℕ) : ℤ) < dnd'.nlink ∧
        (k = .dir → ndi.ents = [some (dot, i), some (dotdot, dp)]) ∧
        l' = { (l.see dp dnd').see i ndi with credit := update l.credit dp (if k = .dir then 1 else 0) }) l := by
  unfold createDots
  split
  · rename_i hk
    subst hk
    refine knows_peek_then hdying hdp ?_
    refine wp_then (knows_relink (c := 1) hdying hdp rfl (by rw [hcredit]; push_cast; ring)) fun _ => ?_
    have hi : update l.held dp (some { dnd with nlink := dnd.nlink + 1 }) i =
        some { kind := some .dir, nlink := 1, ents := [] } := by
      rw [update_of_ne (Ne.symm hne), hheld]
    refine wp_bind (knows_dirlink_none hdying hi rfl (knows_dots hfresh hi hdying (.inl ⟨rfl, rfl⟩))) ?_
    rintro _ _ ⟨rfl, rfl⟩
    have hdots : findEntry dotdot [some (dot, i)] = none := by simp [findEntry, dot, dotdot]
    refine wp_bind (knows_dirlink_none hdying (update_self ..) hdots
      (knows_dots hfresh (update_self ..) hdying  (.inr ⟨rfl, { dnd with nlink := dnd.nlink + 1 }, ?_, hdir, ?_⟩))) ?_
    · exact (update_of_ne hne ..).trans (update_self ..)
    · show ((update l.credit dp 1 dp : ℕ) : ℤ) < dnd.nlink + 1
      rw [update_self]
      omega
    · rintro _ _ ⟨rfl, rfl⟩
      refine ⟨{ dnd with nlink := dnd.nlink + 1 },
        { kind := some .dir, nlink := 1, ents := [some (dot, i), some (dotdot, dp)] }, hdir, rfl, ?_, fun _ => rfl, ?_⟩
      · simpa using hnlink
      · simp [Local.see, writeEntry_some, writeEntry_nil]
  · rename_i hk
    refine ⟨dnd, { kind := some k, nlink := 1, ents := [] }, hdir, rfl, hnlink, fun h => absurd h hk, ?_⟩
    have hheldi : update (update l.held dp (some dnd)) i (some { kind := some k, nlink := 1, ents := [] }) =
        l.held := by
      rw [← hdp, update_eq_self, ← hheld, update_eq_self]
    have hzero : update l.credit dp 0 = l.credit := by rw [← hcredit, update_eq_self]
    simp only [Local.see, hheldi, hzero]

theorem knows_ialloc_iget (hdying : l.dying = none) (hfresh : l.fresh = none) :
    Knows strict p (ialloc dp k)
      (fun i l' => l' = { l.take i with fresh := some (i, k) } ∧ l.refs i = 0 ∧
        ∀ nd, l.held dp = some nd → 0 < nd.nlink) l := by
  refine wp_bind (knows_ialloc hdying hfresh) ?_
  rintro (i : Inum) _ ⟨rfl, hzero, hnlink⟩
  exact wp_then (knows_iget hdying (.inr (.inr (.inl ⟨k, rfl⟩)))) fun _ => ⟨rfl, hzero, hnlink⟩

/-- The last part of `create`: the new inode gets its name, and the directory is given back. -/
theorem knows_enterNew {l0 : Local} {ndi : Node} (h : l0.Settled)
    (hdying : l.dying = none) (hdp : l.held dp = some nd) (hdir : nd.kind = some .dir)
    (hnone : findEntry name nd.ents = none) (hne : dp ≠ i) (hnlink : (l.credit dp : Int) < nd.nlink)
    (hfresh : l.fresh = some (i, k)) (hdots : k = .dir → ndi.ents = [some (dot, i), some (dotdot, dp)])
    (hcredit : ∀ j, l.credit j = (if j = i then 1 else 0) + if j = dp ∧ k = .dir then 1 else 0)
    (hrefs : l.refs = ((l0.take dp).take i).refs) (hheld : ∀ x, x ≠ dp → l.held x = update l0.held i (some ndi) x) :
    Knows strict p (do
        if ← dirlink dp name i then
          iunlockputKeeping dp
          return some i
        else panic) (fun r l' => r = some i ∧ l' = (l0.take i).see i ndi) l := by
  have hpos : 0 < l.credit i := by
    rw [hcredit i, if_pos rfl]
    omega
  have hrefsdp : 0 < l.refs dp := by
    rw [hrefs, take_refs_of_ne hne]
    exact Local.refs_take_pos
  have hi : l.held i = some ndi := (hheld i hne.symm).trans (update_self ..)
  refine wp_bind (knows_dirlink_none hdying hdp hnone
    (knows_enter_fresh (c := fun _ => 0) hdying hdp hdir hnone hne hnlink hpos hfresh hi hdots ?_)) ?_
  · simpa using hcredit
  · rintro _ _ ⟨rfl, rfl⟩
    refine wp_then (knows_iunlockputKeeping hdying rfl (update_self ..) hrefsdp rfl) fun _ => ⟨rfl, ?_⟩
    rw [h.give_back ndi hne]
    · simp [Local.see, Local.take, h.zero]
    · exact hrefs
    · intro x hx
      simpa [Local.see, hx] using hheld x hx
    · rfl
    · exact hdying

theorem knows_createNew (h : l.Settled)
    (hdir : nd.kind = some .dir) (hnone : findEntry name nd.ents = none) :
    Knows strict p (createNew dp name k)
      (fun r l' => match r with
        | none => l' = l
        | some ip => ∃ nd, l' = (l.take ip).see ip nd) ((l.take dp).see dp nd) := by
  refine wp_bind (knows_ialloc_iget h.dying h.fresh) ?_
  rintro ip _ ⟨rfl, hzero, hnlink⟩
  have hnlink := hnlink nd (update_self ..)
  have hne : dp ≠ ip := by grind [findEntry, createNew, Local.see, take_refs_self]
  -- the new inode comes after the directory
  refine wp_bind (knows_ilock h.dying ?_ (.inr ⟨k, rfl⟩) ?_) ?_
  · grind [take_refs_self]
  · intro _ x nd' hx
    have hxdp : x = dp := by
      by_contra hxdp
      have hnone : l.held x = some nd' := (update_of_ne hxdp ..).symm.trans hx
      cases (h.held x).symm.trans hnone
    subst hxdp
    have hnd : some nd = some nd' := by simpa [Local.take, Local.see] using hx
    cases hnd
    exact .inr ⟨hne, .inr ⟨hdir, k, rfl⟩⟩
  rintro _ _ ⟨nd', hfinds, rfl⟩
  obtain rfl := hfinds.fresh k rfl
  refine wp_then (knows_relink (m := 1) (c := 1) h.dying (update_self ..) rfl (by simp [Local.see, Local.take, h.zero]))
    fun _ => ?_
  refine wp_bind (knows_createDots h.dying rfl hne ?_ hdir hnlink ?_ (update_self ..)) ?_
  · simp [Local.see, Local.take, hne]
  · simp [Local.see, Local.take, hne, h.zero]
  rintro _ _ ⟨nd', ndi, hdir', hents, hlt, hdots, rfl⟩
  refine wp_mono (knows_enterNew h h.dying ((update_of_ne hne ..).trans (update_self ..)) hdir' (hents ▸ hnone) hne
    ?_ rfl
    hdots ?_ rfl ?_) ?_
  · simpa using hlt
  · intro j
    simp [Local.see, Local.take, h.zero]
    grind
  · intro x hx
    by_cases hxi : x = ip <;> simp [Local.see, Local.take, hx, hxi]
  · rintro _ _ ⟨rfl, rfl⟩
    exact ⟨_, rfl⟩

theorem knows_create (h : l.Settled) (hcwd : 0 < l.refs cwd) :
    Knows strict p (create cwd path k)
      (fun r l' => match r with
        | none => l' = l
        | some ip => ∃ nd, l' = (l.take ip).see ip nd) l := by
  refine wp_bind (knows_nameiparent h.toCalm hcwd) ?_
  rintro (_ | ⟨dp, name⟩) _ hr
  · exact hr
  · obtain ⟨rfl, -⟩ := hr
    refine wp_bind (knows_ilock_walk h.toCalm) ?_
    rintro _ _ ⟨nd, -, hplain, rfl⟩
    refine wp_bind (knows_dirlookup h.dying h.fresh (update_self ..)) ?_
    rintro (_ | ⟨ip, off⟩) _ ⟨hdir, hfind, rfl⟩
    · exact knows_createNew h hdir hfind.symm
    · refine wp_then (knows_iunlockput_found h.toCalm hplain) fun _ => ?_
      refine knows_look h.toCalm fun ndi hplaini => ?_
      split
      · exact ⟨ndi, rfl⟩
      · exact wp_then (knows_iunlockput_walk h.toCalm hplaini) fun _ => rfl

theorem knows_sysOpen {omode : UInt32} {fdOk : Bool} (h : l.Settled)
    (hcwd : 0 < l.refs cwd) :
    Knows strict p (sysOpen cwd path omode fdOk)
      (fun o l' => o = .done ∧ l' = l ∨ ∃ ip, o = .opened ip ∧ l' = l.take ip) l := by
  have hfinish : ∀ ip nd, Knows strict p (sysOpen.finish fdOk ip)
      (fun o l' => o = .done ∧ l' = l ∨ ∃ ip, o = .opened ip ∧ l' = l.take ip)
      ((l.take ip).see ip nd) := by
    intro ip nd
    unfold sysOpen.finish
    split
    · exact wp_then (knows_iunlock_walk h.toCalm h.no_credit) fun _ => .inr ⟨ip, rfl, rfl⟩
    · exact wp_then (knows_iunlockput_walk h.toCalm h.no_credit) fun _ => .inl ⟨rfl, rfl⟩
  unfold sysOpen
  split
  · refine wp_bind (knows_create h hcwd) ?_
    rintro (_ | ip) l' hr
    · exact .inl ⟨rfl, hr⟩
    · obtain ⟨nd, rfl⟩ := hr
      exact hfinish ip nd
  · refine wp_bind (knows_namei h.toCalm hcwd) ?_
    rintro (_ | ip) l' hr
    · exact .inl ⟨rfl, hr⟩
    · subst hr
      refine knows_look h.toCalm fun nd hplain => ?_
      split
      · exact wp_then (knows_iunlockput_walk h.toCalm hplain) fun _ => .inl ⟨rfl, rfl⟩
      · exact hfinish ip nd

theorem knows_createAndPut (h : l.Settled) (hcwd : 0 < l.refs cwd) :
    Knows strict p (createAndPut cwd path k) (fun o l' => o = .done ∧ l' = l) l := by
  refine wp_bind (knows_create h hcwd) ?_
  rintro (_ | ip) l' hr
  · exact ⟨rfl, hr⟩
  · obtain ⟨nd, rfl⟩ := hr
    exact knows_iunlockput_done h

theorem knows_sysChdir (h : l.Settled) (hcwd : 0 < l.refs cwd) :
    Knows strict p (sysChdir cwd path)
      (fun o l' => o = .done ∧ l' = l ∨ ∃ ip, o = .moved ip ∧ l' = (l.take ip).drop cwd) l := by
  refine wp_bind (knows_namei h.toCalm hcwd) ?_
  rintro (_ | ip) l' hr
  · exact .inl ⟨rfl, hr⟩
  · subst hr
    refine knows_look h.toCalm fun nd hplain => ?_
    split
    · exact wp_then (knows_iunlockput_walk h.toCalm hplain) fun _ => .inl ⟨rfl, rfl⟩
    · refine wp_then (knows_iunlock_walk h.toCalm hplain) fun _ => ?_
      have hcalm := h.toCalm.take ip
      refine wp_then (knows_iput hcalm.dying hcalm.fresh (hcwd.trans_le (refs_le_take cwd))
        (h.take ip).no_credit fun _ => hcalm.below cwd) fun _ => ?_
      exact .inr ⟨ip, rfl, Local.leaving_none h.leaving⟩

theorem knows_exec (h : l.Settled) (hcwd : 0 < l.refs cwd) :
    Knows strict p (exec cwd path) (fun o l' => o = .done ∧ l' = l) l := by
  refine wp_bind (knows_namei h.toCalm hcwd) ?_
  rintro (_ | ip) l' hr
  · exact ⟨rfl, hr⟩
  · subst hr
    exact knows_look h.toCalm fun _ _ => knows_iunlockput_done h

theorem knows_access (h : l.Settled) :
    Knows strict p (access i) (fun o l' => o = .done ∧ l' = l.take i) (l.take i) := by
  refine knows_look h.toCalm fun _ hplain => ?_
  exact wp_then (knows_iunlock_walk h.toCalm hplain) fun _ => ⟨rfl, rfl⟩

/-- The process after it has counted a link that has no name yet. -/
def Local.owing (l : Local) (ip : Inum) : Local :=
  { l.take ip with credit := update (fun _ => 0) ip 1 }

theorem Local.Settled.owing (h : l.Settled) (ip : Inum) : (l.owing ip).Calm where
  __ := h
  credit j hj := by
    by_cases hji : j = ip
    · subst hji
      exact Local.refs_take_pos
    · simp [Local.owing, hji] at hj

/-- The link is taken back, and with it the inode. -/
theorem knows_settle {ip : Inum} (h : l.Settled) :
    Knows strict p (do
      iupdate ip nd.kind (nd.nlink - 1)
      iunlockput ip
      return Outcome.done) (fun o l' => o = .done ∧ l' = l) ((l.owing ip).see ip nd) := by
  refine wp_bind (knows_relink (c := 0) h.dying (update_self ..) rfl ?_) ?_
  · simp [Local.owing, Local.see]
  rintro _ _ rfl
  have hstate : { ((l.owing ip).see ip nd).see ip { nd with nlink := nd.nlink - 1 } with
      credit := update ((l.owing ip).see ip nd).credit ip 0 } =
      (l.take ip).see ip { nd with nlink := nd.nlink - 1 } := by
    simp [Local.owing, Local.see, Local.take, h.zero]
  rw [hstate]
  exact knows_iunlockput_done h

theorem knows_unlinkParent {ndi : Node} {c : Inum → Nat} (hdying : l.dying = none)
    (hdp : l.held dp = some nd) (hc : ndi.kind = some .dir → l.credit dp = 1)
    (hl : l.credit = if ndi.kind = some .dir then update c dp 1 else c)
    (hzero : c dp = 0) :
    Knows strict p (sysUnlink.unlinkParent dp ndi) (fun _ l' => ∃ nd', l' = { l.see dp nd' with credit := c }) l := by
  unfold sysUnlink.unlinkParent
  split
  · rename_i hdir
    refine wp_bind (knows_peek hdying hdp) ?_
    grind [wp_mono, knows_relink, update_idem, update_eq_self]
  · rename_i hdir
    rw [if_neg hdir] at hl
    refine ⟨nd, ?_⟩
    have hheld : update l.held dp (some nd) = l.held := by rw [← hdp, update_eq_self]
    simp [Local.see, hheld, ← hl]

theorem knows_remove {dp ip : Inum} {off : Nat} {ndi : Node} (h : l.Settled)
    (hne : dp ≠ ip) (hfind : findEntry name nd.ents = some (ip, off)) (hn : Proper name)
    (hempty : ndi.kind = some .dir → isdirempty ndi.ents = true) :
    Knows strict p (sysUnlink.remove dp ip off ndi) (fun o l' => o = .done ∧ l' = l)
      ((((l.take dp).take ip).see dp nd).see ip ndi) := by
  have hc : (fun j => (if j = ip then 1 else 0) +
      if j = dp ∧ ndi.kind = some .dir then 1 else 0) =
      if ndi.kind = some .dir then update (update (fun _ => 0) ip 1) dp 1
      else update (fun _ => 0) ip 1 := by
    funext j
    by_cases hk : ndi.kind = some .dir
    · grind
    · by_cases hji : j = ip <;> simp [hk, hji]
  refine wp_then (knows_erase h.dying h.fresh ((update_of_ne hne ..).trans (update_self ..)) (update_self ..)
    (findEntry_eq_some hfind) hn hempty (c := fun j => (if j = ip then 1 else 0) +
      if j = dp ∧ ndi.kind = some .dir then 1 else 0) ?_) fun _ => ?_
  · intro j
    show _ = l.credit j + _ + _
    rw [h.zero, Nat.zero_add]
  refine wp_bind (knows_unlinkParent h.dying (update_self ..) (fun hk => ?_) hc (update_of_ne hne ..)) ?_
  · simp [hk, hne]
  rintro _ _ ⟨ndd, rfl⟩
  refine wp_then (knows_iunlockputKeeping h.dying h.fresh (update_self ..) ?_ ?_) fun _ => ?_
  · simp [Local.see, take_refs_of_ne hne, Local.refs_take_pos]
  · simp [hne]
  -- only the inode is left, with one link more than it has names
  rw [h.give_back ndi hne]
  · exact knows_settle h
  · rfl
  · intro x hx
    simp [Local.see, Local.take, Function.update_apply, hx]
  · exact h.fresh
  · exact h.dying

theorem knows_sysUnlink (h : l.Settled) (hcwd : 0 < l.refs cwd) :
    Knows strict p (sysUnlink cwd path) (fun o l' => o = .done ∧ l' = l) l := by
  refine wp_bind (knows_nameiparent h.toCalm hcwd) ?_
  rintro (_ | ⟨dp, name⟩) _ hr
  · exact ⟨rfl, hr⟩
  · obtain ⟨rfl, -⟩ := hr
    refine wp_bind (knows_ilock_walk h.toCalm) ?_
    rintro _ _ ⟨nd, -, hplain, rfl⟩
    split
    · exact knows_iunlockput_done h
    · rename_i hn
      push Not at hn
      refine wp_bind (knows_dirlookup h.dying h.fresh (update_self ..)) ?_
      rintro (_ | ⟨ip, off⟩) _ ⟨hdir, hfind, rfl⟩
      · exact knows_iunlockput_done h
      · -- the inode is below the directory, before and after it is looked at
        have hmem := List.mem_of_getElem? (findEntry_eq_some hfind.symm)
        have hbelow : ∀ m : Local, m.held = update l.held dp (some nd) → m.Below ip := by
          intro m hm x nd' hx
          rw [hm] at hx
          by_cases hxd : x = dp
          · subst hxd
            rw [update_self] at hx
            cases hx
            exact .inl ⟨name, hn, hmem⟩
          grind
        refine wp_bind (knows_ilock h.dying Local.refs_take_pos (.inl h.fresh) fun _ => hbelow _ rfl) ?_
        rintro _ m ⟨ndi, hfinds, hm⟩
        obtain rfl : m = (((l.take dp).take ip).see dp nd).see ip ndi := hm.trans (Local.leaving_none h.leaving)
        have hne : dp ≠ ip := by
          rintro rfl
          have hnone : update l.held dp (some nd) dp = none := hfinds.free
          rw [update_self] at hnone
          cases hnone
        refine knows_peek_then h.dying (update_self ..) ?_
        split
        · exact knows_panic
        · split
          · have hunlock : update (update (update l.held dp (some nd)) ip
                (some ndi)) ip none = update l.held dp (some nd) := by
              rw [update_idem, ← hfinds.free]
              exact update_eq_self ip (update l.held dp (some nd))
            refine wp_then (g := fun _ => (l.take dp).see dp nd) ?_ fun _ => knows_iunlockput_done h
            refine wp_mono (knows_iunlockput h.dying h.fresh (update_self ..) Local.refs_take_pos h.no_credit
              h.no_credit fun _ => hbelow _ hunlock) ?_
            rintro _ _ rfl
            ext1
            · show (((l.take dp).take ip).drop ip).refs = (l.take dp).refs
              rw [Local.take_drop]
            · exact hunlock
            · rfl
            · rfl
            · rfl
            · exact h.leaving.symm
          · rename_i hcond
            refine knows_remove h hne hfind.symm hn fun hk => ?_
            simpa [hk] using hcond

theorem knows_dirlink_plain {c : Inum → Nat} (h : l.Calm)
    (hplain : 0 < l.credit dp → nd.kind ≠ some .dir) (hn : strict → Proper name)
    (hi : 0 < l.credit i) (hc : ∀ j, l.credit j = c j + if j = i then 1 else 0) :
    Knows strict p (dirlink dp name i)
      (fun r l' => r = false ∧ l' = (l.take dp).see dp nd ∨
        r = true ∧ ∃ nd', l' = { (l.take dp).see dp nd' with credit := c }) ((l.take dp).see dp nd) := by
  refine wp_bind (knows_dirlookup h.dying h.fresh (update_self ..)) ?_
  rintro (_ | ⟨found, off⟩) _ ⟨hdir, hfind, rfl⟩
  · refine knows_peek_then h.dying (update_self ..) ?_
    have hd : l.credit dp = 0 := by
      by_contra hpos
      exact hplain (Nat.pos_of_ne_zero hpos) hdir
    have hne : i ≠ dp := by
      rintro rfl
      omega
    refine wp_then (knows_enter_plain h.dying (update_self ..) hdir hfind.symm hd hi h.fresh
      ((update_of_ne hne ..).trans (h.held i)) hc) fun _ => ?_
    refine .inr ⟨rfl, { nd with ents := writeEntry nd.ents (freeEntry nd.ents) (some (name, i)) }, ?_⟩
    simp [Local.see, Local.take, h.fresh]
  · have hmem := List.mem_of_getElem? (findEntry_eq_some hfind.symm)
    refine wp_then (knows_iput h.dying h.fresh Local.refs_take_pos ?_ ?_) fun _ => .inl ⟨rfl, ?_⟩
    · intro hpos
      have hle : 0 < (l.take dp).refs found := (h.credit found hpos).trans_le (refs_le_take found)
      rw [take_refs_self]
      exact Nat.succ_lt_succ hle
    · -- what is found is below the directory, unless the name is `.` or `..`
      intro hstrict x nd' hx
      by_cases hxd : x = dp
      · subst hxd
        have hnd : some nd = some nd' := by simpa [Local.see, Local.take] using hx
        cases hnd
        exact .inl ⟨name, hn hstrict, hmem⟩
      · have hnone : l.held x = some nd' := by simpa [Local.see, Local.take, hxd] using hx
        cases (h.held x).symm.trans hnone
    · rw [Local.take_drop]
      exact Local.leaving_none h.leaving

theorem knows_link_bad {ip : Inum} (h : l.Settled) :
    Knows strict p (sysLink.bad ip) (fun o l' => o = .done ∧ l' = l) (l.owing ip) := by
  refine wp_bind (knows_ilock h.dying Local.refs_take_pos (.inl h.fresh) fun _ => (h.owing ip).below ip) ?_
  rintro _ _ ⟨nd, -, rfl⟩
  refine knows_peek_then h.dying (update_self ..) ?_
  have hleaving : { (l.owing ip).see ip nd with leaving := none } = (l.owing ip).see ip nd :=
    Local.leaving_none (h.owing ip).leaving
  rw [hleaving]
  exact knows_settle h

theorem knows_sysLink {old new : List UInt8} (h : l.Settled) (hcwd : 0 < l.refs cwd)
    (hnew : strict → Proper (lastName (new.length + 1) new [])) :
    Knows strict p (sysLink cwd old new) (fun o l' => o = .done ∧ l' = l) l := by
  refine wp_bind (knows_namei h.toCalm hcwd) ?_
  rintro (_ | ip) l' hr
  · exact ⟨rfl, hr⟩
  · subst hr
    refine knows_look h.toCalm fun nd hplain => ?_
    split
    · exact knows_iunlockput_done h
    · rename_i hkind
      refine wp_then (knows_relink (c := 1) h.dying (update_self ..) rfl ?_) fun _ => ?_
      · simp [Local.see, Local.take, h.zero]
      refine wp_then (g := fun _ => l.owing ip) ?_ fun _ => ?_
      · refine wp_mono (knows_releasesleep (update_self ..) (.inl h.dying) h.fresh fun _ => hkind) ?_
        rintro _ _ rfl
        have hupdate : update l.held ip none = l.held := Local.update_held (h.held ip)
        simp [Local.unlock, Local.see, Local.take, Local.owing, h.zero, h.leaving, hupdate]
      have hcalm := h.owing ip
      refine wp_bind (knows_nameiparent hcalm (hcwd.trans_le (refs_le_take cwd))) ?_
      rintro (_ | ⟨dp, name⟩) _ hr
      · rw [hr]
        exact knows_link_bad h
      · obtain ⟨rfl, rfl⟩ := hr
        refine wp_bind (knows_ilock_walk hcalm) ?_
        rintro _ _ ⟨ndd, -, hplaind, rfl⟩
        refine wp_bind (knows_dirlink_plain (c := fun _ => 0) hcalm hplaind hnew ?_ ?_) ?_
        · simp [Local.owing]
        · intro j
          by_cases hj : j = ip <;> simp [Local.owing, hj]
        · rintro r _ (⟨rfl, rfl⟩ | ⟨rfl, nd', rfl⟩)
          · exact wp_then (knows_iunlockput_walk hcalm hplaind) fun _ => knows_link_bad h
          · have hstate : ({ ((l.owing ip).take dp).see dp nd' with credit := fun _ => 0 } : Local) =
                ((l.take ip).take dp).see dp nd' := by
              simp [Local.owing, Local.take, Local.see, h.zero]
            rw [hstate]
            refine wp_then (knows_iunlockput_walk (h.take ip).toCalm (h.take ip).no_credit) fun _ => ?_
            exact wp_then (knows_iput_walk h.toCalm) fun _ => ⟨rfl, rfl⟩

/-! ## Calls -/

def Local.nothing : Local where
  refs _ := 0
  held _ := none
  credit _ := 0
  fresh := none
  dying := none
  leaving := none

def Local.takeAll (l : Local) : List Inum → Local
  | [] => l
  | i :: is => (l.takeAll is).take i

/-- What a process knows between calls: it has the references of its current directory and of its open
files. -/
def rest (h : Home) : Local :=
  (match h.cwd with
    | none => Local.nothing
    | some cwd => Local.nothing.take cwd).takeAll h.files

theorem Local.takeAll_take {is : List Inum} : (l.take i).takeAll is = (l.takeAll is).take i := by
  induction is with
  | nil => rfl
  | cons j is ih => rw [Local.takeAll, ih, Local.take_comm, Local.takeAll]

theorem Local.takeAll_eraseIdx {is : List Inum} {fd : Nat} (h : is[fd]? = some i) :
    l.takeAll is = (l.takeAll (is.eraseIdx fd)).take i := by
  induction is generalizing fd with
  | nil => simp at h
  | cons j is ih =>
    cases fd with
    | zero =>
      obtain rfl : j = i := by simpa using h
      rfl
    | succ fd =>
      rw [Local.takeAll, ih (by simpa using h), Local.take_comm]
      rfl

theorem Local.nothing_settled : Local.nothing.Settled where
  held _ := rfl
  credit _ h := absurd h (lt_irrefl 0)
  fresh := rfl
  dying := rfl
  leaving := rfl
  zero := rfl

theorem Local.Settled.takeAll (h : l.Settled) (is : List Inum) : (l.takeAll is).Settled := by
  induction is with
  | nil => exact h
  | cons i is ih => exact ih.take i

theorem rest_settled (h : Home) : (rest h).Settled := by
  apply Local.Settled.takeAll
  split
  · exact Local.nothing_settled
  · exact Local.nothing_settled.take _

theorem rest_eq_take {files : List Inum} :
    rest { cwd := some cwd, files := files } = (Local.nothing.takeAll files).take cwd :=
  Local.takeAll_take

theorem knows_iputAll {is : List Inum} (h : l.Settled) :
    Knows strict p (iputAll is) (fun _ l' => l' = l) (l.takeAll is) := by
  induction is with
  | nil => exact rfl
  | cons i is ih => exact wp_then (knows_iput_walk (h.takeAll is).toCalm) fun _ => ih

/-- What is asked of the calls of a run: with `strict`, `link` does not name a path that ends in `.` or
`..`. -/
def Asked (strict : Prop) : Call → Prop
  | .link _ new => strict → Proper (lastName (new.length + 1) new [])
  | _ => True

/-- Every call keeps the invariant and ends with the references that the process then has. -/
theorem knows_body {h : Home} {c : Call} {m : Fs Outcome} (hc : Asked strict c) (hm : body h c = some m) :
    Knows strict p m (fun o l' => l' = rest (finish h o)) (rest h) := by
  obtain ⟨cwd | cwd, files⟩ := h
  · simp [body] at hm
  have hsettled := rest_settled { cwd := some cwd, files := files }
  have hcwd : 0 < (rest { cwd := some cwd, files := files }).refs cwd := by
    rw [rest_eq_take]
    exact Local.refs_take_pos
  -- the reference of an open file is one of those that the process has
  have hfile : ∀ {fd ip}, files[fd]? = some ip → rest { cwd := some cwd, files := files } =
      (rest { cwd := some cwd, files := files.eraseIdx fd }).take ip := fun h =>
    Local.takeAll_eraseIdx h
  have hdone : ∀ {m : Fs Outcome}, Knows strict p m
      (fun o l' => o = .done ∧ l' = rest { cwd := some cwd, files := files })
      (rest { cwd := some cwd, files := files }) →
      Knows strict p m (fun o l' => l' = rest (finish { cwd := some cwd, files := files } o))
        (rest { cwd := some cwd, files := files }) := by
    intro m hm
    refine wp_mono hm ?_
    rintro _ _ ⟨rfl, rfl⟩
    rfl
  cases c with
  | «open» path omode fdOk =>
    cases hm
    refine wp_mono (knows_sysOpen hsettled hcwd) ?_
    rintro _ _ (⟨rfl, rfl⟩ | ⟨ip, rfl, rfl⟩)
    · rfl
    · rfl
  | mkdir path | mknod path =>
    cases hm
    exact hdone (knows_createAndPut hsettled hcwd)
  | link old new =>
    cases hm
    exact hdone (knows_sysLink hsettled hcwd hc)
  | unlink path =>
    cases hm
    exact hdone (knows_sysUnlink hsettled hcwd)
  | chdir path =>
    grind [Asked, body, rest, finish, wp_mono, knows_sysChdir, rest_eq_take, Local.take_take_drop]
  | exec path =>
    cases hm
    exact hdone (knows_exec hsettled hcwd)
  | read fd | write fd =>
    obtain ⟨ip, hip, rfl⟩ := Option.map_eq_some_iff.1 hm
    rw [hfile hip]
    refine wp_mono (knows_access (rest_settled _)) ?_
    rintro _ _ ⟨rfl, rfl⟩
    exact (hfile hip).symm
  | close fd =>
    obtain ⟨ip, hip, rfl⟩ := Option.map_eq_some_iff.1 hm
    rw [hfile hip]
    exact wp_then (knows_iput_walk (rest_settled _).toCalm) fun _ => rfl
  | exit =>
    cases hm
    refine wp_then (knows_iputAll (Local.nothing_settled.take cwd)) fun _ => ?_
    exact wp_then (knows_iput_walk Local.nothing_settled.toCalm) fun _ => rfl

end Functions

end AsoPracticas.Xv6.Naming
