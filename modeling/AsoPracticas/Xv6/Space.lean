import AsoPracticas.Lib.Ownership
import AsoPracticas.Xv6.Vm

/-!
# Space — an address space and the pages it is made of

A page directory is read as two maps: from directory indices to page tables, and from pages of the address space to
present entries.  Its pages are the directory, the page tables and the pages that the entries below `KERNBASE` map.
`Space F loose d s` says that of the pages in `F` each is on the free list once, or in the hands of the function
that runs (`loose`), or in exactly one place of the space of directory `d`.

* `kalloc_ensures`, `walkpgdir_ensures`, `mapPage_ensures` — what the allocator, a walk and a mapping do to a space.
-/

namespace AsoPracticas.Xv6.Vm

open Lib
open Function (update update_of_ne update_self)

/-! ## Words -/

theorem or_eq_add (f : Nat) {x : Nat} (hx : x < PGSIZE) : f * PGSIZE ||| x = f * PGSIZE + x := by
  have h := Nat.shiftLeft_add_eq_or_of_lt (i := 12) hx f
  rw [Nat.shiftLeft_eq] at h
  exact h.symm

theorem pageOf_or (f : Nat) {x : Nat} (hx : x < PGSIZE) : pageOf (f * PGSIZE ||| x) = f := by
  rw [or_eq_add f hx, pageOf]
  unfold PGSIZE at *
  omega

theorem testBit_or_low (f x : Nat) {k : Nat} (hk : k < 12) : (f * PGSIZE ||| x).testBit k = x.testBit k := by
  have hpage : (f * PGSIZE).testBit k = false := by
    have h := Nat.testBit_mul_two_pow f k 12
    rw [decide_eq_false (Nat.not_le.2 hk), Bool.false_and] at h
    exact h
  rw [Nat.testBit_or, hpage, Bool.false_or]

theorem or_lt (f : Nat) {x : Nat} (hx : x < PGSIZE) (hf : f < 2 ^ 20) : f * PGSIZE ||| x < 2 ^ 32 := by
  rw [or_eq_add f hx]
  unfold PGSIZE at *
  omega

/-- An entry as `mappages` makes it. -/
@[grind cases eager]
structure Pte (w f perm : Nat) : Prop where
  present : present w = true
  page : pageOf w = f
  user : user w = perm.testBit 2
  lt : w < 2 ^ 32

theorem pte_or {f perm : Nat} (hf : f < 2 ^ 20) (hperm : perm < PGSIZE) :
    Pte (f * PGSIZE ||| perm ||| PTE_P) f perm := by
  have hlow : perm ||| PTE_P < PGSIZE := Nat.or_lt_two_pow (n := 12) hperm (by decide)
  rw [Nat.or_assoc]
  refine ⟨?_, pageOf_or f hlow, ?_, or_lt f hlow hf⟩
  · rw [Vm.present, testBit_or_low f _ (by decide), Nat.testBit_or]
    simp [PTE_P]
  · rw [Vm.user, testBit_or_low f _ (by decide), Nat.testBit_or, show PTE_P.testBit 2 = false by decide, Bool.or_false]

theorem pde_or {f : Nat} (hf : f < 2 ^ 20) : present (f * PGSIZE ||| PTE_P ||| PTE_W ||| PTE_U) = true ∧
    pageOf (f * PGSIZE ||| PTE_P ||| PTE_W ||| PTE_U) = f ∧ f * PGSIZE ||| PTE_P ||| PTE_W ||| PTE_U < 2 ^ 32 := by
  rw [Nat.or_assoc, Nat.or_assoc]
  refine ⟨?_, pageOf_or f (by decide), or_lt f (by decide) hf⟩
  rw [Vm.present, testBit_or_low f _ (by decide)]
  decide

theorem entry_setU32 (p : Page) {i : Nat} (hi : i < 1024) {w : Nat} (hw : w < 2 ^ 32) :
    entry (setU32 p (4 * i) (UInt32.ofNat w)) i = w := by
  rw [entry, getU32_setU32 _ (by unfold PGSIZE; omega), UInt32.toNat_ofNat', Nat.mod_eq_of_lt hw]

theorem entry_setU32_of_ne (p : Page) {i j : Nat} (h : j ≠ i) (w : UInt32) :
    entry (setU32 p (4 * i) w) j = entry p j := by
  rw [entry, entry, getU32_setU32_of_disjoint w (by omega)]

theorem entry_zero (i : Nat) : entry (fun _ => 0) i = 0 := by
  rw [entry, getU32_zero]
  rfl

/-! ## What a directory maps -/

section Maps

variable {m : Nat → Page} {d i v p t w : Nat} {x : Page}

/-- The page table at index `i` of the directory. -/
def tableOf (m : Nat → Page) (d i : Nat) : Option Nat :=
  if present (entry (m d) i) then some (pageOf (entry (m d) i)) else none

/-- The entry for page `v` of the address space, if it is present. -/
def pteOf (m : Nat → Page) (d v : Nat) : Option Nat :=
  (tableOf m d (v / 1024)).bind fun t =>
    if present (entry (m t) (v % 1024)) then some (entry (m t) (v % 1024)) else none

/-- The entry for page `v` and the bytes behind it. -/
def view (m : Nat → Page) (d v : Nat) : Option (Nat × Page) :=
  (pteOf m d v).map fun w => (w, m (pageOf w))

theorem tableOf_of_le (m : Nat → Page) (d : Nat) (hi : NPDENTRIES ≤ i) : tableOf m d i = none := by
  have hpast : ∀ k, getByte (m d) (4 * i + k) = 0 := fun k =>
    dif_neg (by unfold PGSIZE; unfold NPDENTRIES at hi; omega)
  have hzero : entry (m d) i = 0 := by
    have h0 := hpast 0
    rw [Nat.add_zero] at h0
    rw [entry, getU32, h0, hpast 1, hpast 2, hpast 3]
    rfl
  rw [tableOf, hzero]
  rfl

theorem pteOf_of_le (m : Nat → Page) (d : Nat) (hv : 2 ^ 20 ≤ v) : pteOf m d v = none := by
  have hle : NPDENTRIES ≤ v / 1024 := by
    unfold NPDENTRIES
    omega
  rw [pteOf, tableOf_of_le m d hle]
  rfl

theorem pteOf_of_table (h : tableOf m d (v / 1024) = some t) :
    pteOf m d v = if present (entry (m t) (v % 1024)) then some (entry (m t) (v % 1024)) else none := by
  rw [pteOf, h]
  rfl

theorem pteOf_of_no_table (h : tableOf m d (v / 1024) = none) : pteOf m d v = none := by
  rw [pteOf, h]
  rfl

theorem exists_table_of_pteOf (h : pteOf m d v = some w) :
    ∃ t, tableOf m d (v / 1024) = some t ∧ entry (m t) (v % 1024) = w := by
  grind [pteOf, tableOf, entry]

theorem present_of_pteOf (h : pteOf m d v = some w) : present w = true := by
  obtain ⟨t, -, h⟩ := Option.bind_eq_some_iff.1 h
  split at h
  · cases h
    assumption
  · cases h

theorem tableOf_update (hp : p ≠ d) : tableOf (update m p x) d i = tableOf m d i := by
  unfold tableOf
  rw [update_of_ne (Ne.symm hp)]

theorem pteOf_update (hp : p ≠ d) (htable : tableOf m d (v / 1024) ≠ some p) :
    pteOf (update m p x) d v = pteOf m d v := by
  grind [tableOf, pteOf, tableOf_update]

theorem pteOf_setEntry (htable : tableOf m d (v / 1024) = some t) (htd : t ≠ d)
    (hinj : ∀ j, tableOf m d j = some t → j = v / 1024) (hw : w < 2 ^ 32) (u : Nat) :
    pteOf (update m t (setU32 (m t) (4 * (v % 1024)) (UInt32.ofNat w))) d u =
      if u = v then (if present w then some w else none) else pteOf m d u := by
  by_cases hu : u / 1024 = v / 1024
  · have htable' : tableOf (update m t (setU32 (m t) (4 * (v % 1024)) (UInt32.ofNat w))) d (u / 1024) =
        some t := by
      rw [tableOf_update htd, hu, htable]
    rw [pteOf_of_table htable', pteOf_of_table (hu ▸ htable), update_self]
    by_cases huv : u = v
    all_goals grind [entry_setU32, entry_setU32_of_ne]
  grind [pteOf_update]

theorem tableOf_newTable (htd : t ≠ d) (hi : i < 1024) (hw : w < 2 ^ 32) (hpresent : present w = true) (j : Nat) :
    tableOf (update (update m t fun _ => 0) d (setU32 (update m t (fun _ => 0) d) (4 * i) (UInt32.ofNat w))) d j =
      if j = i then some (pageOf w) else tableOf m d j := by
  unfold tableOf
  by_cases hj : j = i
  all_goals grind [entry_setU32, entry_setU32_of_ne]

end Maps

/-! ## The pages of a space -/

/-- The pages of the address space below `KERNBASE`. -/
def userPages : Nat := KERNBASE / PGSIZE

inductive Slot where
  | dir
  | table (i : Nat)
  | page (v : Nat)

def holds (m : Nat → Page) (d : Nat) : Slot → Option Nat
  | .dir => some d
  | .table i => if i < NPDENTRIES then tableOf m d i else none
  | .page v => if v < userPages then (pteOf m d v).map pageOf else none

/-- Each page of `F` is on the free list, or in `loose`, once, or in one place of the space, and in no other. -/
@[grind cases eager]
structure Space (F : Nat → Prop) (loose : List Nat) (d : Nat) (s : Machine) : Prop where
  nodup : (loose ++ s.freelist).Nodup
  within : ∀ f ∈ loose ++ s.freelist, F f
  own : Exclusive (holds s.mem d) fun f => F f ∧ f ∉ loose ++ s.freelist

/-- The pages the allocator deals in. -/
def Layout.Ram (L : Layout) (F : Nat → Prop) : Prop := ∀ f, F f → L.endPage ≤ f ∧ f < PHYSTOP / PGSIZE

theorem Layout.Ram.lt {L : Layout} {F : Nat → Prop} (h : L.Ram F) {f : Nat} (hf : F f) : f < 2 ^ 20 :=
  Nat.lt_trans (h f hf).2 (by decide)

section Space

variable {F : Nat → Prop} {loose : List Nat} {d i j t v w f : Nat} {s : Machine} {s' : Machine}

theorem holds_table {m : Nat → Page} (hi : i < NPDENTRIES) (ht : tableOf m d i = some t) :
    holds m d (.table i) = some t := by
  rw [holds, if_pos hi, ht]

theorem holds_page {m : Nat → Page} (hv : v < userPages) (hw : pteOf m d v = some w) :
    holds m d (.page v) = some (pageOf w) := by
  rw [holds, if_pos hv, hw]
  rfl

theorem Space.dir_mem (h : Space F loose d s) : F d ∧ d ∉ loose ++ s.freelist :=
  h.own.used_of_own (s := .dir) rfl

theorem Space.table_mem (h : Space F loose d s) (hi : i < NPDENTRIES) (ht : tableOf s.mem d i = some t) :
    F t ∧ t ∉ loose ++ s.freelist :=
  h.own.used_of_own (holds_table hi ht)

theorem Space.page_mem (h : Space F loose d s) (hv : v < userPages) (hw : pteOf s.mem d v = some w) :
    F (pageOf w) ∧ pageOf w ∉ loose ++ s.freelist :=
  h.own.used_of_own (holds_page hv hw)

theorem Space.table_ne_dir (h : Space F loose d s) (hi : i < NPDENTRIES) (ht : tableOf s.mem d i = some t) : t ≠ d := by
  rintro rfl
  exact nomatch h.own.unique (s := .dir) rfl (holds_table hi ht)

theorem Space.table_inj (h : Space F loose d s) (hi : i < NPDENTRIES) (hj : j < NPDENTRIES)
    (ht : tableOf s.mem d i = some t) (ht' : tableOf s.mem d j = some t) : i = j := by
  have hslot := h.own.unique (holds_table hi ht) (holds_table hj ht')
  injection hslot

theorem Space.page_ne_dir (h : Space F loose d s) (hv : v < userPages) (hw : pteOf s.mem d v = some w) :
    pageOf w ≠ d := by
  intro heq
  have hpage := holds_page hv hw
  rw [heq] at hpage
  exact nomatch h.own.unique (s := .dir) rfl hpage

theorem Space.page_ne_table (h : Space F loose d s) (hv : v < userPages) (hw : pteOf s.mem d v = some w)
    (hi : i < NPDENTRIES) : tableOf s.mem d i ≠ some (pageOf w) :=
  fun ht => nomatch h.own.unique (holds_table hi ht) (holds_page hv hw)

theorem Space.page_inj (h : Space F loose d s) {u w' : Nat} (hv : v < userPages) (hu : u < userPages)
    (hw : pteOf s.mem d v = some w) (hw' : pteOf s.mem d u = some w') (heq : pageOf w = pageOf w') : v = u := by
  have hpage' := holds_page hu hw'
  rw [← heq] at hpage'
  have hslot := h.own.unique (holds_page hv hw) hpage'
  injection hslot

theorem div_lt_entries (hv : v < 2 ^ 20) : v / 1024 < NPDENTRIES := by
  unfold NPDENTRIES
  omega

theorem lt_of_lt_userPages (hv : v < userPages) : v < 2 ^ 20 := Nat.lt_trans hv (by decide)

theorem mul_lt_of_lt_userPages (hv : v < userPages) : v * PGSIZE < 2 ^ 32 := by
  unfold userPages KERNBASE at hv
  unfold PGSIZE at *
  omega

theorem Space.holds_update (h : Space F loose d s) (hf : ¬ (F f ∧ f ∉ loose ++ s.freelist)) (x : Page) :
    holds (update s.mem f x) d = holds s.mem d := by
  have hfd : f ≠ d := fun heq => hf (heq ▸ h.dir_mem)
  funext slot
  cases slot with
  | dir => rfl
  | table i => simp only [holds, tableOf_update hfd]
  | page v =>
    simp only [holds]
    split
    · rename_i hv
      rw [pteOf_update hfd]
      exact fun ht => hf (h.table_mem (div_lt_entries (lt_of_lt_userPages hv)) ht)
    · rfl

theorem Space.of_holds {loose' : List Nat} (h : Space F loose d s)
    (hholds : holds s'.mem d = holds s.mem d) (hlist : loose' ++ s'.freelist = loose ++ s.freelist) :
    Space F loose' d s' := by
  refine ⟨?_, ?_, ?_⟩
  · rw [hlist]
    exact h.nodup
  · rw [hlist]
    exact h.within
  · rw [hlist, hholds]
    exact h.own

theorem Space.congr {loose' : List Nat} (h : Space F loose d s) (hmem : s'.mem = s.mem)
    (hlist : loose' ++ s'.freelist = loose ++ s.freelist) : Space F loose' d s' :=
  h.of_holds (by rw [hmem]) hlist

/-! ## The allocator -/

variable {L : Layout} {E : Stop → Prop}

/-- `kalloc` will find at least `n` pages. -/
@[grind cases eager]
structure Machine.Ample (n : Nat) (s : Machine) : Prop where
  fails : ∀ i, s.fails i = false
  freelist : n ≤ s.freelist.length

theorem Machine.Ample.mono {m n : Nat} (h : s.Ample n) (hle : m ≤ n) : s.Ample m :=
  ⟨h.fails, Nat.le_trans hle h.freelist⟩

theorem kalloc_ensures (s : Machine) : Ensures kalloc s (fun r s' => s'.mem = s.mem ∧
    (match r with
    | none => s'.freelist = s.freelist
    | some f => s.freelist = f :: s'.freelist) ∧
    ∀ n, s.Ample (n + 1) → r.isSome ∧ s'.Ample n) E := by
  unfold kalloc
  rw [ensures_bind, ensures_get]
  apply Ensures.bind (R := fun _ s' => s' = { s with fails := fun n => s.fails (n + 1) })
  · rfl
  · rintro - _ rfl
    split
    · rename_i hfails
      refine ⟨rfl, rfl, fun n hample => ?_⟩
      rw [hample.fails 0] at hfails
      cases hfails
    · cases hfree : s.freelist with
      | nil =>
        refine ⟨rfl, rfl, fun n hample => ?_⟩
        grind
      | cons r next =>
        refine ⟨rfl, rfl, fun n hample => ⟨rfl, fun i => hample.fails (i + 1), ?_⟩⟩
        grind

theorem kfree_ensures (hF : L.Ram F) (hf : F f) : Ensures (kfree L f) s (fun _ s' =>
    s'.mem = update s.mem f (fun _ => 1) ∧ s'.freelist = f :: s.freelist) E := by
  unfold kfree
  have hrange := hF f hf
  rw [if_neg (by omega)]
  exact ⟨rfl, rfl⟩

/-! ## `walkpgdir` -/

/-- What the functions that only add page tables leave as it was. -/
@[grind cases eager]
structure Kept (F : Nat → Prop) (loose : List Nat) (d : Nat) (s s' : Machine) : Prop where
  outside : ∀ f, ¬ F f → s'.mem f = s.mem f
  loose : ∀ f ∈ loose, s'.mem f = s.mem f
  pte : ∀ v < 2 ^ 20, pteOf s'.mem d v = pteOf s.mem d v
  page : ∀ v < userPages, ∀ w, pteOf s.mem d v = some w → s'.mem (pageOf w) = s.mem (pageOf w)

theorem Kept.of_mem (h : s'.mem = s.mem) : Kept F loose d s s' := by
  refine ⟨?_, ?_, ?_, ?_⟩ <;> intros <;> simp_all

/-- Nothing of the space is different, page tables that were added below `KERNBASE` apart. -/
@[grind cases eager]
structure Same (F : Nat → Prop) (d : Nat) (s s' : Machine) : Prop where
  outside : ∀ f, ¬ F f → s'.mem f = s.mem f
  table : ∀ i, userPages / 1024 ≤ i → tableOf s'.mem d i = tableOf s.mem d i
  pte : ∀ v < 2 ^ 20, pteOf s'.mem d v = pteOf s.mem d v
  page : ∀ v < userPages, ∀ w, pteOf s.mem d v = some w → s'.mem (pageOf w) = s.mem (pageOf w)

theorem Same.of_mem (h : s'.mem = s.mem) : Same F d s s' := by
  refine ⟨?_, ?_, ?_, ?_⟩ <;> intros <;> simp_all

theorem Same.trans {s1 s2 : Machine} (h : Same F d s s1) (h' : Same F d s1 s2) : Same F d s s2 := by
  refine ⟨fun f hf => ?_, fun i hi => ?_, fun v hv => ?_, fun v hv w hw => ?_⟩
  all_goals grind [lt_of_lt_userPages]

theorem Kept.same (h : Kept F loose d s s') (htable : ∀ i, tableOf s'.mem d i = tableOf s.mem d i) :
    Same F d s s' :=
  ⟨h.outside, fun i _ => htable i, h.pte, h.page⟩

theorem Space.write_loose {x : Page} (h : Space F (f :: loose) d s) (next : List Nat) (s' : Machine)
    (hmem : s'.mem = update s.mem f x) (hlist : next ++ s'.freelist = f :: loose ++ s.freelist) :
    Space F next d s' ∧ Same F d s s' := by
  have hf : f ∈ f :: loose ++ s.freelist := List.mem_cons_self
  have hfd : f ≠ d := fun heq => h.dir_mem.2 (heq ▸ hf)
  have hother : ∀ g, g ≠ f → s'.mem g = s.mem g := fun g hg => by rw [hmem, update_of_ne hg]
  refine ⟨h.of_holds ?_ hlist, fun g hg => ?_, fun i _ => ?_, fun v hv => ?_, fun v hv w hw => ?_⟩
  · rw [hmem]
    exact h.holds_update (fun hused => hused.2 hf) x
  · exact hother g fun heq => hg (heq ▸ h.within f hf)
  · rw [hmem, tableOf_update hfd]
  · rw [hmem, pteOf_update hfd]
    exact fun ht => (h.table_mem (div_lt_entries hv) ht).2 hf
  · exact hother _ fun heq => (h.page_mem hv hw).2 (heq ▸ hf)

theorem PDX_eq {va : Nat} (hva : va < 2 ^ 32) : PDX va = va / PGSIZE / 1024 := by
  unfold PDX PGSIZE
  omega

theorem PTX_eq (va : Nat) : PTX va = va / PGSIZE % 1024 := by
  unfold PTX PGSIZE
  omega

theorem page_lt {va : Nat} (hva : va < 2 ^ 32) : va / PGSIZE < 2 ^ 20 := by
  unfold PGSIZE
  omega

theorem ensures_walkpgdir_find {va : Nat} (hva : va < 2 ^ 32) {Q : Option (Nat × Nat) → Machine → Prop} :
    Ensures (walkpgdir d va false) s Q E ↔
      Q ((tableOf s.mem d (va / PGSIZE / 1024)).map fun t => (t, va / PGSIZE % 1024)) s := by
  unfold walkpgdir getEntry
  rw [PDX_eq hva, PTX_eq]
  simp only [bind_assoc, pure_bind, ensures_bind, ensures_get, tableOf]
  split
  · exact Iff.rfl
  · exact Iff.rfl

theorem Space.newTable (hF : L.Ram F) (h : Space F loose d s) {next : List Nat} (hfree : s.freelist = t :: next)
    (hi : i < NPDENTRIES) (hnone : tableOf s.mem d i = none) (s' : Machine)
    (hmem : s'.mem = update (update s.mem t fun _ => 0) d
      (setU32 (update s.mem t (fun _ => 0) d) (4 * i) (UInt32.ofNat (t * PGSIZE ||| PTE_P ||| PTE_W ||| PTE_U))))
    (hlist : s'.freelist = next) :
    Space F loose d s' ∧ Kept F loose d s s' ∧
      ∀ j, tableOf s'.mem d j = if j = i then some t else tableOf s.mem d j := by
  have hlistmem : t ∈ loose ++ s.freelist := by simp [hfree]
  have htF : F t := h.within t hlistmem
  have htd : t ≠ d := fun heq => h.dir_mem.2 (heq ▸ hlistmem)
  obtain ⟨hpresent, hpage, hlt⟩ := pde_or (hF.lt htF)
  have htable : ∀ j, tableOf s'.mem d j = if j = i then some t else tableOf s.mem d j := by
    intro j
    rw [hmem, tableOf_newTable htd hi hlt hpresent, hpage]
  have hother : ∀ f, f ≠ t → f ≠ d → s'.mem f = s.mem f := by
    intro f hft hfd
    rw [hmem, update_of_ne hfd, update_of_ne hft]
  have hzero : s'.mem t = fun _ => 0 := by rw [hmem, update_of_ne htd, update_self]
  have hpte : ∀ v < 2 ^ 20, pteOf s'.mem d v = pteOf s.mem d v := by
    intro v hv
    by_cases hvi : v / 1024 = i
    · -- the new table is empty
      have hnew : tableOf s'.mem d (v / 1024) = some t := by rw [htable, if_pos hvi]
      rw [pteOf_of_table hnew, hzero, entry_zero, pteOf_of_no_table (hvi ▸ hnone)]
      rfl
    · have hold : tableOf s'.mem d (v / 1024) = tableOf s.mem d (v / 1024) := by rw [htable, if_neg hvi]
      unfold pteOf
      rw [hold]
      cases ht : tableOf s.mem d (v / 1024) with
      | none => rfl
      | some t' =>
        have hmem' := h.table_mem (div_lt_entries hv) ht
        have hne : t' ≠ t := fun heq => hmem'.2 (heq ▸ hlistmem)
        simp only [Option.bind_some, hother t' hne (h.table_ne_dir (div_lt_entries hv) ht)]
  refine ⟨⟨?_, ?_, ?_⟩, ⟨?_, ?_, hpte, ?_⟩, htable⟩
  · grind
  · grind
  · have hnotin : t ∉ loose ++ next := by grind
    refine h.own.take (s := .table i) (b := t) ?_ (fun hused => hused.2 hlistmem) ?_ ?_ ?_
    · rw [holds, if_pos hi, hnone]
    · exact holds_table hi (by rw [htable, if_pos rfl])
    · intro slot hslot
      cases slot with
      | dir => rfl
      | table j =>
        have hji : j ≠ i := fun heq => hslot (by rw [heq])
        simp only [holds, htable, if_neg hji]
      | page v =>
        simp only [holds]
        split
        · rename_i hv
          rw [hpte v (lt_of_lt_userPages hv)]
        · rfl
    · intro c
      rw [hlist, hfree]
      by_cases hc : c = t
      · subst hc
        simp only [htF, hnotin, not_false_eq_true, and_self, true_or]
      · simp only [List.mem_append, List.mem_cons, hc, false_or]
  · intro f hf
    exact hother f (fun heq => hf (heq ▸ htF)) (fun heq => hf (heq ▸ h.dir_mem.1))
  · intro f hf
    refine hother f ?_ fun heq => h.dir_mem.2 (heq ▸ List.mem_append_left _ hf)
    rintro rfl
    have hnodup := h.nodup
    rw [hfree, List.nodup_middle] at hnodup
    exact (List.nodup_cons.1 hnodup).1 (List.mem_append_left _ hf)
  · intro v hv w hw
    have hmem' := h.page_mem hv hw
    exact hother _ (fun heq => hmem'.2 (heq ▸ hlistmem)) (h.page_ne_dir hv hw)

/-- How many page tables are missing at index `i` of the directory. -/
def missing (m : Nat → Page) (d i : Nat) : Nat := if (tableOf m d i).isSome then 0 else 1

theorem missing_le (m : Nat → Page) (d i : Nat) : missing m d i ≤ 1 := by
  unfold missing
  split <;> decide

theorem walkpgdir_ensures (hF : L.Ram F) (h : Space F loose d s) {va : Nat} (hva : va < 2 ^ 32) :
    Ensures (walkpgdir d va true) s (fun r s' => Space F loose d s' ∧ Kept F loose d s s' ∧
      (match r with
      | none => ∀ i, tableOf s'.mem d i = tableOf s.mem d i
      | some (t, i) => i = va / PGSIZE % 1024 ∧ tableOf s'.mem d (va / PGSIZE / 1024) = some t ∧
          ∀ j, j ≠ va / PGSIZE / 1024 → tableOf s'.mem d j = tableOf s.mem d j) ∧
      ∀ n, s.Ample (n + missing s.mem d (va / PGSIZE / 1024)) → r.isSome ∧ s'.Ample n) E := by
  unfold walkpgdir getEntry
  rw [PDX_eq hva, PTX_eq]
  simp only [bind_assoc, pure_bind, ensures_bind, ensures_get]
  split
  · rename_i hpresent
    exact ⟨h, .of_mem rfl, ⟨rfl, if_pos hpresent, fun _ _ => rfl⟩,
      fun n hample => ⟨rfl, hample.mono (Nat.le_add_right n _)⟩⟩
  · rename_i hpresent
    have hnone : tableOf s.mem d (va / PGSIZE / 1024) = none := if_neg hpresent
    have hmissing : missing s.mem d (va / PGSIZE / 1024) = 1 := by
      rw [missing, hnone]
      rfl
    simp only [Bool.not_true, Bool.false_eq_true, if_false, ensures_bind, hmissing]
    refine (kalloc_ensures s).mono fun r s1 ⟨hmem, hr, hample⟩ => ?_
    cases r with
    | none =>
      refine ⟨h.congr hmem (by rw [hr]), .of_mem hmem, fun i => by rw [hmem], fun n hn => ?_⟩
      exact nomatch (hample n hn).1
    | some t =>
      apply Ensures.mono (R := fun r s' => r = some (t, va / PGSIZE % 1024) ∧ (Space F loose d s' ∧
        Kept F loose d s s' ∧
        ∀ j, tableOf s'.mem d j = if j = va / PGSIZE / 1024 then some t else tableOf s.mem d j) ∧
        s'.fails = s1.fails ∧ s'.freelist = s1.freelist)
      · simp only [memset, setEntry, ensures_bind, ensures_modify, ensures_pure, hmem]
        exact ⟨trivial, h.newTable hF hr (div_lt_entries (page_lt hva)) hnone _ rfl rfl, trivial, trivial⟩
      · rintro _ s' ⟨rfl, ⟨hspace, hkept, htable⟩, hfails, hlist⟩
        refine ⟨hspace, hkept, ⟨rfl, ?_, fun j hj => ?_⟩, fun n hn => ⟨rfl, ?_, ?_⟩⟩
        · rw [htable, if_pos rfl]
        · rw [htable, if_neg hj]
        · rw [hfails]
          exact (hample n hn).2.fails
        · rw [hlist]
          exact (hample n hn).2.freelist

/-! ## Setting an entry -/

/-- The machine after `*pte = w`. -/
def Machine.setEntry (s : Machine) (t i w : Nat) : Machine :=
  { s with mem := update s.mem t (setU32 (s.mem t) (4 * i) (UInt32.ofNat w)) }

theorem ensures_setEntry {Q : PUnit → Machine → Prop} : Ensures (setEntry t i w) s Q E ↔ Q ⟨⟩ (s.setEntry t i w) :=
  Iff.rfl

theorem ensures_getEntry {Q : Nat → Machine → Prop} : Ensures (getEntry t i) s Q E ↔ Q (entry (s.mem t) i) s :=
  Iff.rfl

/-- What setting the entry for page `v` leaves as it was, and what it changes. -/
@[grind cases eager]
structure Set (F : Nat → Prop) (loose : List Nat) (d v w : Nat) (s s' : Machine) : Prop where
  outside : ∀ f, ¬ F f → s'.mem f = s.mem f
  loose : ∀ f ∈ loose, s'.mem f = s.mem f
  table : ∀ i, tableOf s'.mem d i = tableOf s.mem d i
  pte : ∀ u, pteOf s'.mem d u = if u = v then (if present w then some w else none) else pteOf s.mem d u
  page : ∀ u < userPages, ∀ w, pteOf s.mem d u = some w → s'.mem (pageOf w) = s.mem (pageOf w)
  freelist : s'.freelist = s.freelist

theorem Space.set (h : Space F loose d s) (hv : v < 2 ^ 20) (ht : tableOf s.mem d (v / 1024) = some t)
    (hw : w < 2 ^ 32) : Set F loose d v w s (s.setEntry t (v % 1024) w) := by
  have hi := div_lt_entries hv
  have htd := h.table_ne_dir hi ht
  have htmem := h.table_mem hi ht
  have hother : ∀ f, f ≠ t → (s.setEntry t (v % 1024) w).mem f = s.mem f := fun f hf => update_of_ne hf _ _
  refine ⟨fun f hf => ?_, fun f hf => ?_, fun i => tableOf_update htd, fun u => ?_, fun u hu w' hw' => ?_, rfl⟩
  · exact hother f fun heq => hf (heq ▸ htmem.1)
  · exact hother f fun heq => htmem.2 (heq ▸ List.mem_append_left _ hf)
  · refine pteOf_setEntry ht htd (fun j hj => ?_) hw u
    refine h.table_inj ?_ hi hj ht
    by_contra hle
    rw [tableOf_of_le _ _ (Nat.le_of_not_lt hle)] at hj
    cases hj
  · exact hother _ fun heq => h.page_ne_table hu hw' hi (heq ▸ ht)

theorem Space.set_kernel (h : Space F loose d s) (hset : Set F loose d v w s s') (hv : userPages ≤ v) :
    Space F loose d s' := by
  refine h.of_holds ?_ (by rw [hset.freelist])
  funext slot
  cases slot with
  | dir => rfl
  | table i => simp only [holds, hset.table]
  | page u => grind [userPages, holds]

theorem Space.set_page (h : Space F [f] d s) (hset : Set F [f] d v w s s') (hv : v < userPages)
    (hnone : pteOf s.mem d v = none) (hpresent : present w = true) (hpage : pageOf w = f) : Space F [] d s' := by
  have hpte : pteOf s'.mem d v = some w := by rw [hset.pte, if_pos rfl, if_pos hpresent]
  have hnodup := h.nodup
  rw [List.singleton_append, List.nodup_cons] at hnodup
  have hmem : f ∈ [f] ++ s.freelist := List.mem_cons_self
  refine ⟨?_, fun g hg => ?_, ?_⟩
  · rw [hset.freelist]
    exact hnodup.2
  · rw [hset.freelist] at hg
    exact h.within g (List.mem_append_right _ hg)
  · refine h.own.take (s := .page v) (b := f) ?_ (fun hused => hused.2 hmem) ?_ ?_ ?_
    · rw [holds, if_pos hv, hnone]
      rfl
    · rw [← hpage]
      exact holds_page hv hpte
    · intro slot hslot
      cases slot with
      | dir => rfl
      | table i => simp only [holds, hset.table]
      | page u => grind [userPages, pteOf, present, pageOf, holds]
    grind

theorem Space.set_flags (h : Space F loose d s) {w' : Nat} (hset : Set F loose d v w s s')
    (hold : pteOf s.mem d v = some w') (hpresent : present w = true) (hpage : pageOf w = pageOf w') :
    Space F loose d s' := by
  refine h.of_holds ?_ (by rw [hset.freelist])
  funext slot
  cases slot with
  | dir => rfl
  | table i => simp only [holds, hset.table]
  | page u =>
    simp only [holds, hset.pte]
    grind

/-! ## `mappages` -/

/-- Page `v` of the address space has got the entry `w`. -/
@[grind cases eager]
structure Mapped (F : Nat → Prop) (loose : List Nat) (d v w : Nat) (s s' : Machine) : Prop where
  outside : ∀ f, ¬ F f → s'.mem f = s.mem f
  loose : ∀ f ∈ loose, s'.mem f = s.mem f
  table : ∀ i, i ≠ v / 1024 → tableOf s'.mem d i = tableOf s.mem d i
  tabled : (tableOf s'.mem d (v / 1024)).isSome
  pte : ∀ u < 2 ^ 20, pteOf s'.mem d u = if u = v then some w else pteOf s.mem d u
  page : ∀ u < userPages, ∀ w, pteOf s.mem d u = some w → s'.mem (pageOf w) = s.mem (pageOf w)

theorem mappagesLoop_step (hF : L.Ram F) (h : Space F loose d s) {last perm fuel a pa : Nat} (ha : a < 2 ^ 32)
    (hnone : pteOf s.mem d (a / PGSIZE) = none) (hlt : pa ||| perm ||| PTE_P < 2 ^ 32)
    (hpresent : present (pa ||| perm ||| PTE_P) = true) {Q : Int → Machine → Prop}
    (hfail : ∀ s', Space F loose d s' → Kept F loose d s s' → (∀ i, tableOf s'.mem d i = tableOf s.mem d i) →
      (∀ n, ¬ s.Ample (n + missing s.mem d (a / PGSIZE / 1024))) → Q (-1) s')
    (hnext : ∀ s1 s', Space F loose d s1 → pteOf s1.mem d (a / PGSIZE) = none →
      Set F loose d (a / PGSIZE) (pa ||| perm ||| PTE_P) s1 s' →
      Mapped F loose d (a / PGSIZE) (pa ||| perm ||| PTE_P) s s' →
      (∀ n, s.Ample (n + missing s.mem d (a / PGSIZE / 1024)) → s'.Ample n) →
      Ensures (if a = last then return 0
        else mappagesLoop d last perm fuel ((a + PGSIZE) % 2 ^ 32) ((pa + PGSIZE) % 2 ^ 32)) s' Q E) :
    Ensures (mappagesLoop d last perm (fuel + 1) a pa) s Q E := by
  have hv := page_lt ha
  refine (walkpgdir_ensures hF h ha).bind fun r s1 ⟨hspace, hkept, hr, hample⟩ => ?_
  cases r with
  | none => exact hfail s1 hspace hkept hr fun n hn => nomatch (hample n hn).1
  | some ti =>
    obtain ⟨t, i⟩ := ti
    obtain ⟨rfl, ht, htables⟩ := hr
    have hnone1 : pteOf s1.mem d (a / PGSIZE) = none := by rw [hkept.pte _ hv, hnone]
    have hfresh : ¬ present (entry (s1.mem t) (a / PGSIZE % 1024)) = true := by grind [pteOf_of_table]
    have hset := hspace.set hv ht hlt
    simp only [ensures_bind, ensures_getEntry, if_neg hfresh, ensures_setEntry]
    refine hnext s1 (s1.setEntry t (a / PGSIZE % 1024) (pa ||| perm ||| PTE_P)) hspace hnone1 hset ?_
      fun n hn => ⟨(hample n hn).2.fails, (hample n hn).2.freelist⟩
    refine ⟨fun f hf => ?_, fun f hf => ?_, fun i hi => ?_, ?_, fun u hu => ?_, fun u hu w hw => ?_⟩
    all_goals grind [lt_of_lt_userPages]

theorem mapPage_ensures (hF : L.Ram F) (h : Space F [f] d s) {perm : Nat} (hv : v < userPages)
    (hnone : pteOf s.mem d v = none) (hperm : perm < PGSIZE) :
    Ensures (mappages d (v * PGSIZE) PGSIZE (f * PGSIZE) perm) s (fun r s' =>
      (r = -1 ∧ Space F [f] d s' ∧ Same F d s s' ∧ ∀ n, ¬ s.Ample (n + 1)) ∨
      (r = 0 ∧ Space F [] d s' ∧ Mapped F [f] d v (f * PGSIZE ||| perm ||| PTE_P) s s' ∧
        ∀ n, s.Ample (n + 1) → s'.Ample n)) E := by
  have hf : F f := h.within f List.mem_cons_self
  have hpte := pte_or (hF.lt hf) hperm
  have hbound := lt_of_lt_userPages hv
  have hdiv : v * PGSIZE / PGSIZE = v := Nat.mul_div_cancel v (by decide)
  have hlast : PGROUNDDOWN ((v * PGSIZE + PGSIZE + (2 ^ 32 - 1)) % 2 ^ 32) = v * PGSIZE := by
    unfold PGROUNDDOWN PGSIZE
    omega
  have hfirst : PGROUNDDOWN (v * PGSIZE) = v * PGSIZE := by rw [PGROUNDDOWN, hdiv]
  rw [mappages, hlast, hfirst]
  refine mappagesLoop_step hF h (by unfold PGSIZE; omega) (by rwa [hdiv]) hpte.lt hpte.present ?_ ?_
  · intro s' hspace hkept htables hshort
    exact .inl ⟨rfl, hspace, hkept.same htables, fun n hn => hshort n
      (hn.mono (Nat.add_le_add_left (missing_le _ _ _) n))⟩
  · intro s1 s' hspace hnone1 hset hmapped hample
    rw [hdiv] at hnone1 hset hmapped
    rw [if_pos rfl]
    exact .inr ⟨rfl, hspace.set_page hset hv hnone1 hpte.present hpte.page, hmapped,
      fun n hn => hample n (hn.mono (Nat.add_le_add_left (missing_le _ _ _) n))⟩

end Space

end AsoPracticas.Xv6.Vm
