import AsoPracticas.Xv6.Space

/-!
# Uvm — the user half of an address space

What `deallocuvm`, `allocuvm` and `freevm` do to a space.  Each of them is described by a relation between the machine
before and the machine after: `Unmapped` and `Grown` name a range of pages and say that all else is as it was, `Same`
that nothing is different, `Free` that no page is in use any more.
-/

namespace AsoPracticas.Xv6.Vm

open Lib

section Uvm

variable {F : Nat → Prop} {loose : List Nat} {d i j t v w f : Nat} {s : Machine} {L : Layout} {E : Stop → Prop}
  {m : Nat → Page} {lo mid hi : Nat}

/-! ## `deallocuvm` -/

/-- How many pages `sz` bytes take. -/
def pagesOf (sz : Nat) : Nat := (sz + PGSIZE - 1) / PGSIZE

theorem PGROUNDUP_eq {sz : Nat} (hsz : sz ≤ KERNBASE) : PGROUNDUP sz = pagesOf sz * PGSIZE := by
  unfold PGROUNDUP pagesOf PGSIZE
  unfold KERNBASE at hsz
  omega

theorem lt_pagesOf {sz : Nat} : v < pagesOf sz ↔ v * PGSIZE < sz := by
  unfold pagesOf PGSIZE
  omega

theorem le_pagesOf_mul (sz : Nat) : sz ≤ pagesOf sz * PGSIZE := by
  unfold pagesOf PGSIZE
  omega

theorem pagesOf_mul (n : Nat) : pagesOf (n * PGSIZE) = n := by
  unfold pagesOf PGSIZE
  omega

theorem div_lt_iff {a n : Nat} : a / PGSIZE < n ↔ a < n * PGSIZE := Nat.div_lt_iff_lt_mul (by decide)

theorem pagesOf_le {sz : Nat} (hsz : sz ≤ KERNBASE) : pagesOf sz ≤ userPages := by
  unfold pagesOf userPages PGSIZE KERNBASE at *
  omega

/-- The pages of the address space from `lo` to `hi` have no entries any more. -/
@[grind cases eager]
structure Unmapped (F : Nat → Prop) (loose : List Nat) (d lo hi : Nat) (s s' : Machine) : Prop where
  outside : ∀ f, ¬ F f → s'.mem f = s.mem f
  loose : ∀ f ∈ loose, s'.mem f = s.mem f
  table : ∀ i, tableOf s'.mem d i = tableOf s.mem d i
  pte : ∀ u < 2 ^ 20, pteOf s'.mem d u = if lo ≤ u ∧ u < hi then none else pteOf s.mem d u
  page : ∀ u < userPages, ¬ (lo ≤ u ∧ u < hi) → ∀ w, pteOf s.mem d u = some w → s'.mem (pageOf w) = s.mem (pageOf w)

theorem Unmapped.refl {lo hi : Nat} (h : ∀ u < 2 ^ 20, lo ≤ u → u < hi → pteOf s.mem d u = none) :
    Unmapped F loose d lo hi s s := by
  refine ⟨fun _ _ => rfl, fun _ _ => rfl, fun _ => rfl, fun u hu => ?_, fun _ _ _ _ _ => rfl⟩
  split
  · rename_i hin
    exact h u hu hin.1 hin.2
  · rfl

theorem Unmapped.trans {s1 s2 : Machine} (h : Unmapped F loose d lo mid s s1)
    (h' : Unmapped F loose d mid hi s1 s2) (hlo : lo ≤ mid) (hhi : mid ≤ hi) : Unmapped F loose d lo hi s s2 := by
  refine ⟨fun f hf => ?_, fun f hf => ?_, fun i => ?_, fun u hu => ?_, fun u hu hout w hw => ?_⟩
  · rw [h'.outside f hf, h.outside f hf]
  · rw [h'.loose f hf, h.loose f hf]
  · rw [h'.table, h.table]
  · grind
  grind [lt_of_lt_userPages]

theorem Space.freePage (h : Space F loose d s) (hv : v < userPages) (hw : pteOf s.mem d v = some w)
    (ht : tableOf s.mem d (v / 1024) = some t) (s' : Machine)
    (hmem : s'.mem = Function.update (s.setEntry t (v % 1024) 0).mem (pageOf w) fun _ => 1)
    (hlist : s'.freelist = pageOf w :: s.freelist) :
    Space F loose d s' ∧ Unmapped F loose d v (v + 1) s s' := by
  have hv20 := lt_of_lt_userPages hv
  have hset := h.set hv20 ht (w := 0) (by decide)
  have hpagemem := h.page_mem hv hw
  have hpd := h.page_ne_dir hv hw
  have hother : ∀ f, f ≠ pageOf w → s'.mem f = (s.setEntry t (v % 1024) 0).mem f := by
    intro f hf
    rw [hmem, Function.update_of_ne hf]
  have htable : ∀ i, tableOf s'.mem d i = tableOf s.mem d i := by
    intro i
    rw [hmem, tableOf_update hpd, hset.table]
  have hpte : ∀ u < 2 ^ 20, pteOf s'.mem d u = if u = v then none else pteOf s.mem d u := by
    intro u hu
    rw [hmem, pteOf_update hpd, hset.pte]
    · rfl
    · rw [hset.table]
      exact h.page_ne_table hv hw (div_lt_entries hu)
  refine ⟨⟨?_, fun f hf => ?_, ?_⟩, ⟨fun f hf => ?_, fun f hf => ?_, htable, fun u hu => ?_,
    fun u hu hout w' hw' => ?_⟩⟩
  · grind
  · grind
  · refine h.own.give (s := .page v) (holds_page hv hw) ?_ ?_ ?_
    · rw [holds, if_pos hv, hpte v hv20, if_pos rfl]
      rfl
    · intro slot hslot
      cases slot with
      | dir => rfl
      | table i => simp only [holds, htable]
      | page u =>
        have huv : u ≠ v := fun heq => hslot (by rw [heq])
        simp only [holds]
        split
        · rename_i hu
          rw [hpte u (lt_of_lt_userPages hu), if_neg huv]
        · rfl
    · intro c
      rw [hlist]
      simp only [List.mem_append, List.mem_cons]
      tauto
  · rw [hother f (fun heq => hf (heq ▸ hpagemem.1)), hset.outside f hf]
  · rw [hother f (fun heq => hpagemem.2 (heq ▸ List.mem_append_left _ hf)), hset.loose f hf]
  · rw [hpte u hu]
    by_cases huv : u = v
    · rw [if_pos huv, if_pos (by omega)]
    · rw [if_neg huv, if_neg (by omega)]
  · rw [hother, hset.page u hu w' hw']
    intro heq
    exact hout (by have := h.page_inj hu hv hw' hw heq; omega)

theorem Unmapped.skip {s' : Machine} (h : Unmapped F loose d mid hi s s') (hlo : lo ≤ mid)
    (hnone : ∀ u, lo ≤ u → u < mid → pteOf s.mem d u = none) : Unmapped F loose d lo hi s s' := by
  refine ⟨h.outside, h.loose, h.table, fun u hu => ?_, fun u hu hout w hw => h.page u hu (by omega) w hw⟩
  grind

theorem lt_userPages_of_lt {sz : Nat} (hsz : sz ≤ KERNBASE) (h : v * PGSIZE < sz) : v < userPages := by
  unfold userPages KERNBASE PGSIZE at *
  omega

theorem next_page (hv : v < userPages) : (v * PGSIZE + PGSIZE) % 2 ^ 32 = (v + 1) * PGSIZE := by
  unfold userPages KERNBASE PGSIZE at *
  omega

theorem next_table (hv : v < userPages) :
    (PGADDR (PDX (v * PGSIZE) + 1) + (2 ^ 32 - PGSIZE) + PGSIZE) % 2 ^ 32 = (v / 1024 + 1) * 1024 * PGSIZE := by
  unfold PGADDR PDX
  unfold userPages KERNBASE PGSIZE at *
  omega

theorem deallocLoop_ensures (hF : L.Ram F) {oldsz : Nat} (hold : oldsz ≤ KERNBASE) (fuel v : Nat) (s : Machine)
    (h : Space F loose d s) (hfuel : pagesOf oldsz - v < fuel) :
    Ensures (deallocLoop L d oldsz fuel (v * PGSIZE)) s (fun _ s' =>
      Space F loose d s' ∧ Unmapped F loose d v (pagesOf oldsz) s s') E := by
  induction fuel generalizing v s with
  | zero => exact absurd hfuel (Nat.not_lt_zero _)
  | succ fuel ih =>
    unfold deallocLoop
    by_cases hlt : v * PGSIZE < oldsz
    · rw [if_pos hlt]
      have hvu := lt_userPages_of_lt hold hlt
      have hva : v * PGSIZE < 2 ^ 32 := Nat.lt_of_lt_of_le hlt (Nat.le_trans hold (by decide))
      have hdiv : v * PGSIZE / PGSIZE = v := Nat.mul_div_cancel v (by decide)
      have hpages := lt_pagesOf.2 hlt
      rw [ensures_bind, ensures_walkpgdir_find hva, hdiv]
      cases ht : tableOf s.mem d (v / 1024) with
      | none =>
        -- no page table: on to the pages of the next directory entry
        simp only [Option.map_none]
        rw [next_table hvu]
        refine (ih ((v / 1024 + 1) * 1024) s h (by omega)).mono fun _ s' ⟨hspace, hun⟩ => ⟨hspace, ?_⟩
        refine hun.skip (by omega) fun u hlo hhi => pteOf_of_no_table ?_
        rw [show u / 1024 = v / 1024 by omega, ht]
      | some t =>
        simp only [Option.map_some, ensures_bind, ensures_getEntry]
        by_cases hp : present (entry (s.mem t) (v % 1024)) = true
        · have hw : pteOf s.mem d v = some (entry (s.mem t) (v % 1024)) := by
            rw [pteOf_of_table ht, if_pos hp]
          have hpage := (h.page_mem hvu hw).1
          have hne : pageOf (entry (s.mem t) (v % 1024)) ≠ t := fun heq =>
            h.page_ne_table hvu hw (div_lt_entries (lt_of_lt_userPages hvu)) (ht.trans (congrArg some heq.symm))
          have hnull : pageOf (entry (s.mem t) (v % 1024)) ≠ 0 := by
            have := (hF _ hpage).1
            have := L.data_lt
            omega
          rw [if_pos hp, if_neg hnull]
          refine (kfree_ensures hF hpage).bind fun _ s1 ⟨hmem, hlist⟩ => ?_
          simp only [ensures_bind, ensures_setEntry]
          rw [next_page hvu]
          -- the frame is not the page table: the two writes may be taken in either order
          obtain ⟨hspace, hun⟩ := h.freePage hvu hw ht (s1.setEntry t (v % 1024) 0)
            (by simp only [Machine.setEntry, hmem, Function.update_of_ne (Ne.symm hne)]
                exact Function.update_comm hne _ _ _) hlist
          refine (ih (v + 1) _ hspace (by omega)).mono fun _ s' ⟨hspace', hun'⟩ => ⟨hspace', ?_⟩
          exact hun.trans hun' (Nat.le_succ v) hpages
        · have hnone : pteOf s.mem d v = none := by rw [pteOf_of_table ht, if_neg hp]
          rw [if_neg hp, next_page hvu]
          refine (ih (v + 1) s h (by omega)).mono fun _ s' ⟨hspace, hun⟩ => ⟨hspace, ?_⟩
          refine hun.skip (Nat.le_succ v) fun u hlo hhi => ?_
          rw [show u = v by omega, hnone]
    · rw [if_neg hlt]
      refine ⟨h, .refl fun u _ hlo hhi => ?_⟩
      exact absurd (lt_pagesOf.1 (Nat.lt_of_le_of_lt hlo hhi)) hlt

theorem deallocuvm_ensures (hF : L.Ram F) (h : Space F loose d s) {oldsz newsz : Nat} (hold : oldsz ≤ KERNBASE) :
    Ensures (deallocuvm L d oldsz newsz) s (fun r s' => r = min oldsz newsz ∧ Space F loose d s' ∧
      Unmapped F loose d (pagesOf newsz) (pagesOf oldsz) s s') E := by
  unfold deallocuvm
  by_cases hle : newsz ≥ oldsz
  · rw [if_pos hle]
    refine ⟨(Nat.min_eq_left hle).symm, h, .refl fun u _ hlo hhi => ?_⟩
    unfold pagesOf PGSIZE at hlo hhi
    omega
  · rw [if_neg hle, PGROUNDUP_eq (by omega)]
    have hfuel : pagesOf oldsz - pagesOf newsz < allPages := by
      have hle := pagesOf_le hold
      unfold userPages KERNBASE PGSIZE at hle
      unfold allPages
      omega
    refine (deallocLoop_ensures hF hold allPages _ s h hfuel).bind fun _ s' ⟨hspace, hun⟩ => ?_
    exact ⟨by omega, hspace, hun⟩

/-! ## `allocuvm` -/

/-- The pages of the address space from `lo` to `hi` are new: zero, and for the user. -/
@[grind cases eager]
structure Grown (F : Nat → Prop) (d lo hi : Nat) (s s' : Machine) : Prop where
  outside : ∀ f, ¬ F f → s'.mem f = s.mem f
  table : ∀ i, userPages / 1024 ≤ i → tableOf s'.mem d i = tableOf s.mem d i
  pte : ∀ u < 2 ^ 20, ¬ (lo ≤ u ∧ u < hi) → pteOf s'.mem d u = pteOf s.mem d u
  page : ∀ u < userPages, ¬ (lo ≤ u ∧ u < hi) → ∀ w, pteOf s.mem d u = some w → s'.mem (pageOf w) = s.mem (pageOf w)
  fresh : ∀ u, lo ≤ u → u < hi → ∃ w, pteOf s'.mem d u = some w ∧ user w = true ∧ s'.mem (pageOf w) = fun _ => 0

theorem Grown.refl {lo hi : Nat} (hle : hi ≤ lo) : Grown F d lo hi s s :=
  ⟨fun _ _ => rfl, fun _ _ => rfl, fun _ _ _ => rfl, fun _ _ _ _ _ => rfl, fun u hlo hhi => by omega⟩

theorem Grown.trans {s1 s2 : Machine} (h : Grown F d lo mid s s1) (h' : Grown F d mid hi s1 s2)
    (hlo : lo ≤ mid) (hhi : mid ≤ hi) (hmid : mid ≤ userPages) : Grown F d lo hi s s2 := by
  refine ⟨fun f hf => ?_, fun i hi => ?_, fun u hu hout => ?_, fun u hu hout w hw => ?_, fun u hul huh => ?_⟩
  · rw [h'.outside f hf, h.outside f hf]
  · rw [h'.table i hi, h.table i hi]
  · rw [h'.pte u hu (by omega), h.pte u hu (by omega)]
  · grind [lt_of_lt_userPages]
  · by_cases hu : u < mid
    all_goals grind [Nat.lt_of_lt_of_le, lt_of_lt_userPages]

theorem Same.grown {s' : Machine} (h : Same F d s s') (v : Nat) : Grown F d v v s s' :=
  ⟨h.outside, h.table, fun u hu _ => h.pte u hu, fun u hu _ => h.page u hu, fun u hlo hhi => by omega⟩

theorem Grown.undo {s1 s2 : Machine} (h : Grown F d lo mid s s1) (h' : Unmapped F loose d lo hi s1 s2)
    (hmid : mid ≤ hi) (hnone : ∀ u, lo ≤ u → u < hi → pteOf s.mem d u = none) : Same F d s s2 := by
  refine ⟨fun f hf => ?_, fun i hi => ?_, fun u hu => ?_, fun u hu w hw => ?_⟩
  all_goals grind [lt_of_lt_userPages]

theorem Mapped.grown {s' : Machine} (h : Mapped F [f] d v w s s') (hzero : s.mem f = fun _ => 0)
    (hw : Pte w f (PTE_W ||| PTE_U)) (hv : v < userPages) : Grown F d v (v + 1) s s' := by
  refine ⟨h.outside, fun i hi => h.table i ?_, fun u hu hout => ?_, fun u hu _ => h.page u hu, fun u hlo hhi => ?_⟩
  all_goals grind [PTE_W, PTE_U, userPages, KERNBASE, PGSIZE, user]

theorem allocLoop_ensures (hF : L.Ram F) {oldsz newsz : Nat} (hnew : newsz < KERNBASE)
    (fuel v : Nat) (s : Machine) (h : Space F [] d s) (hlo : pagesOf oldsz ≤ v) (hhi : v ≤ pagesOf newsz) {s0 : Machine}
    (hgrown : Grown F d (pagesOf oldsz) v s0 s)
    (hnone : ∀ u, pagesOf oldsz ≤ u → u < pagesOf newsz → pteOf s0.mem d u = none)
    (hfuel : pagesOf newsz - v < fuel) :
    Ensures (allocLoop L d oldsz newsz fuel (v * PGSIZE)) s (fun r s' => Space F [] d s' ∧
      ((r = 0 ∧ Same F d s0 s' ∧ ∀ n, ¬ s.Ample (n + 2 * (pagesOf newsz - v))) ∨
      (r = newsz ∧ Grown F d (pagesOf oldsz) (pagesOf newsz) s0 s' ∧
        ∀ n, s.Ample (n + 2 * (pagesOf newsz - v)) → s'.Ample n))) E := by
  have hnew' := Nat.le_of_lt hnew
  have huser := pagesOf_le hnew'
  induction fuel generalizing v s with
  | zero => exact absurd hfuel (Nat.not_lt_zero _)
  | succ fuel ih =>
    unfold allocLoop
    by_cases hlt : v * PGSIZE < newsz
    · rw [if_pos hlt]
      have hvu := lt_userPages_of_lt hnew' hlt
      have hpages := lt_pagesOf.2 hlt
      have hv : pteOf s.mem d v = none := by grind [lt_of_lt_userPages]
      refine (kalloc_ensures s).bind ?_
      rintro r s1 ⟨hmem, hr, hample⟩
      cases r with
      | none =>
        have hspace : Space F [] d s1 := h.congr hmem (by rw [hr])
        have hgrown1 := hgrown.trans ((Same.of_mem hmem).grown v) hlo (Nat.le_refl v) (by omega)
        refine (deallocuvm_ensures hF hspace hnew').bind ?_
        rintro _ s' ⟨-, hspace', hun⟩
        refine ⟨hspace', .inl ⟨rfl, hgrown1.undo hun hhi hnone, fun n hn => ?_⟩⟩
        cases (hample n (hn.mono (by omega))).1
      | some f =>
        simp only at hr
        -- the page is in hand, and zeroed
        have hspace : Space F [f] d s1 := h.congr hmem (by rw [hr]; rfl)
        simp only [memset, ensures_bind, ensures_modify]
        obtain ⟨hspace2, hsame2⟩ := hspace.write_loose [f]
          { s1 with mem := Function.update s1.mem f fun _ => 0 } rfl rfl
        have hsame := (Same.of_mem hmem).trans hsame2
        have hgrown2 := hgrown.trans (hsame.grown v) hlo (Nat.le_refl v) (by omega)
        refine (mapPage_ensures hF hspace2 hvu ?_ (by decide)).mono fun r s3 hmap => ?_
        · rw [hsame.pte v (lt_of_lt_userPages hvu), hv]
        · have hF' := hF.lt (hspace.within f List.mem_cons_self)
          rcases hmap with ⟨rfl, hspace3, hsame3, hshort⟩ | ⟨rfl, hspace3, hmapped, hample3⟩
          · rw [if_pos (by decide)]
            have hgrown3 := hgrown2.trans (hsame3.grown v) hlo (Nat.le_refl v) (by omega)
            refine (deallocuvm_ensures hF hspace3 hnew').bind ?_
            rintro _ s4 ⟨-, hspace4, hun⟩
            refine (kfree_ensures hF (hspace4.within f List.mem_cons_self)).bind ?_
            rintro _ s' ⟨hmem', hlist'⟩
            obtain ⟨hspace', hsame'⟩ := hspace4.write_loose [] s' hmem' (by rw [hlist']; rfl)
            refine ⟨hspace', .inl ⟨rfl, (hgrown3.undo hun hhi hnone).trans hsame', fun n hn => ?_⟩⟩
            have hample1 := (hample (n + 1) (hn.mono (by omega))).2
            exact hshort n ⟨hample1.fails, hample1.freelist⟩
          · rw [if_neg (by decide), next_page hvu]
            have hgrown3 := hgrown2.trans
              (hmapped.grown (Function.update_self _ _ _) (pte_or hF' (by decide)) hvu) hlo (Nat.le_succ v) (by omega)
            refine (ih (v + 1) s3 hspace3 (by omega) hpages hgrown3 (by omega)).mono ?_
            rintro r s' ⟨hspace', hr'⟩
            have hstep : ∀ n, s.Ample (n + 2 * (pagesOf newsz - v)) → s3.Ample (n + 2 * (pagesOf newsz - (v + 1))) := by
              intro n hn
              have hample1 := (hample (n + 2 * (pagesOf newsz - (v + 1)) + 1) (hn.mono (by omega))).2
              exact hample3 _ ⟨hample1.fails, hample1.freelist⟩
            refine ⟨hspace', hr'.imp ?_ ?_⟩
            · rintro ⟨hr, hsame, hshort⟩
              exact ⟨hr, hsame, fun n hn => hshort n (hstep n hn)⟩
            · rintro ⟨hr, hgrown, hample⟩
              exact ⟨hr, hgrown, fun n hn => hample n (hstep n hn)⟩
    · rw [if_neg hlt]
      have hend : v = pagesOf newsz := Nat.le_antisymm hhi (Nat.le_of_not_lt fun hv => hlt (lt_pagesOf.1 hv))
      rw [hend] at hgrown
      exact ⟨h, .inr ⟨rfl, hgrown, fun n hn => hn.mono (by omega)⟩⟩

theorem allocuvm_ensures (hF : L.Ram F) (h : Space F [] d s) {oldsz newsz : Nat}
    (hnone : newsz < KERNBASE → ∀ u, pagesOf oldsz ≤ u → u < pagesOf newsz → pteOf s.mem d u = none) :
    Ensures (allocuvm L d oldsz newsz) s (fun r s' => Space F [] d s' ∧
      ((r = 0 ∧ Same F d s s' ∧ (newsz < KERNBASE → ∀ n, ¬ s.Ample (n + 2 * (pagesOf newsz - pagesOf oldsz)))) ∨
      (newsz < KERNBASE ∧ r = max oldsz newsz ∧ Grown F d (pagesOf oldsz) (pagesOf newsz) s s' ∧
        ∀ n, s.Ample (n + 2 * (pagesOf newsz - pagesOf oldsz)) → s'.Ample n))) E := by
  unfold allocuvm
  by_cases hnew : newsz ≥ KERNBASE
  · rw [if_pos hnew]
    exact ⟨h, .inl ⟨rfl, .of_mem rfl, fun hlt => by omega⟩⟩
  · rw [if_neg hnew]
    have hlt := Nat.lt_of_not_le hnew
    by_cases hold : newsz < oldsz
    · rw [if_pos hold]
      have hle : pagesOf newsz ≤ pagesOf oldsz := by
        unfold pagesOf PGSIZE
        omega
      exact ⟨h, .inr ⟨hlt, by omega, .refl hle, fun n hn => hn.mono (by omega)⟩⟩
    · rw [if_neg hold, PGROUNDUP_eq (by omega)]
      have hle : pagesOf oldsz ≤ pagesOf newsz := by
        unfold pagesOf PGSIZE
        omega
      have hfuel : pagesOf newsz - pagesOf oldsz < allPages := by
        have hle := pagesOf_le (Nat.le_of_lt hlt)
        unfold userPages KERNBASE PGSIZE at hle
        unfold allPages
        omega
      refine (allocLoop_ensures hF hlt allPages _ s h (Nat.le_refl _) hle (.refl (Nat.le_refl _))
        (hnone hlt) hfuel).mono fun r s' ⟨hspace, hr⟩ => ⟨hspace, hr.imp ?_ ?_⟩
      · exact fun ⟨hr, hsame, hshort⟩ => ⟨hr, hsame, fun _ => hshort⟩
      · exact fun ⟨hr, hgrown, hample⟩ => ⟨hlt, by omega, hgrown, hample⟩

/-! ## `freevm` -/

/-- The pages of `F` are all free, those in `loose` apart. -/
@[grind cases eager]
structure Free (F : Nat → Prop) (loose : List Nat) (s : Machine) : Prop where
  nodup : (loose ++ s.freelist).Nodup
  all : ∀ f, F f ↔ f ∈ loose ++ s.freelist

theorem Space.of_zero (h : Free F [d] s) (hzero : s.mem d = fun _ => 0) :
    Space F [] d s ∧ (∀ i, tableOf s.mem d i = none) ∧ ∀ v, pteOf s.mem d v = none := by
  have htable : ∀ i, tableOf s.mem d i = none := by
    intro i
    rw [tableOf, hzero, entry_zero]
    rfl
  have hpte : ∀ v, pteOf s.mem d v = none := fun v => pteOf_of_no_table (htable _)
  obtain ⟨hd, hnodup⟩ := List.nodup_cons.1 h.nodup
  refine ⟨⟨hnodup, fun f hf => (h.all f).2 (List.mem_cons_of_mem d hf), ?_, fun f => ?_⟩, htable, hpte⟩
  · have honly : ∀ {slot : Slot} {f : Nat}, holds s.mem d slot = some f → slot = .dir := by
      intro slot f hslot
      cases slot with
      | dir => rfl
      | table i => simp [holds, htable] at hslot
      | page v => simp [holds, hpte] at hslot
    intro slot slot' f hslot hslot'
    rw [honly hslot, honly hslot']
  · constructor
    · rintro ⟨hf, hfree⟩
      rcases List.mem_cons.1 ((h.all f).1 hf) with rfl | hf
      · exact ⟨.dir, rfl⟩
      · exact absurd hf hfree
    · rintro ⟨slot, hslot⟩
      cases slot with
      | dir =>
        injection hslot with hslot
        subst hslot
        exact ⟨(h.all d).2 List.mem_cons_self, hd⟩
      | table i => simp [holds, htable] at hslot
      | page v => simp [holds, hpte] at hslot

/-- What the space still holds when the page tables below `k` have been freed. -/
def heldFrom (m : Nat → Page) (d k : Nat) : Slot → Option Nat
  | .dir => some d
  | .table i => if k ≤ i then holds m d (.table i) else none
  | .page _ => none

/-- Inside `freevm`, before the page table at index `k` is freed; `m` is the memory at the start of the loop. -/
@[grind cases eager]
structure Freeing (F : Nat → Prop) (loose : List Nat) (d k : Nat) (m : Nat → Page) (s : Machine) : Prop where
  nodup : (loose ++ s.freelist).Nodup
  within : ∀ f ∈ loose ++ s.freelist, F f
  own : Exclusive (heldFrom m d k) fun f => F f ∧ f ∉ loose ++ s.freelist
  dir : s.mem d = m d
  outside : ∀ f, ¬ F f → s.mem f = m f
  loose : ∀ f ∈ loose, s.mem f = m f

theorem Space.freeing (h : Space F loose d s) (hnone : ∀ v < userPages, pteOf s.mem d v = none) :
    Freeing F loose d 0 s.mem s := by
  refine ⟨h.nodup, h.within, ?_, rfl, fun _ _ => rfl, fun _ _ => rfl⟩
  have heq : heldFrom s.mem d 0 = holds s.mem d := by
    funext slot
    cases slot with
    | dir => rfl
    | table i => rfl
    | page v => grind [userPages, pteOf, heldFrom, holds]
  rw [heq]
  exact h.own

theorem Freeing.give {k : Nat} (h : Freeing F loose d k m s) (hk : k < NPDENTRIES)
    (ht : tableOf m d k = some t) (s' : Machine) (hmem : s'.mem = Function.update s.mem t fun _ => 1)
    (hlist : s'.freelist = t :: s.freelist) : Freeing F loose d (k + 1) m s' := by
  have hown : heldFrom m d k (.table k) = some t := (if_pos (Nat.le_refl k)).trans (holds_table hk ht)
  obtain ⟨htF, htfree⟩ := h.own.used_of_own hown
  have htd : d ≠ t := by
    rintro rfl
    exact nomatch h.own.unique (s := .dir) rfl hown
  have hother : ∀ f, f ≠ t → s'.mem f = s.mem f := fun f hf => by rw [hmem, Function.update_of_ne hf]
  refine ⟨?_, fun f hf => ?_, ?_, ?_, fun f hf => ?_, fun f hf => ?_⟩
  · rw [hlist, List.nodup_middle]
    exact List.nodup_cons.2 ⟨htfree, h.nodup⟩
  · rw [hlist, List.mem_append, List.mem_cons] at hf
    rcases hf with hf | rfl | hf
    · exact h.within f (List.mem_append_left _ hf)
    · exact htF
    · exact h.within f (List.mem_append_right _ hf)
  · refine h.own.give hown ?_ ?_ ?_
    · simp only [heldFrom, if_neg (Nat.not_succ_le_self k)]
    · intro slot hslot
      cases slot with
      | dir => rfl
      | table i =>
        have hik : i ≠ k := fun heq => hslot (by rw [heq])
        have hiff : k + 1 ≤ i ↔ k ≤ i := by omega
        simp only [heldFrom, hiff]
      | page v => rfl
    · intro c
      rw [hlist]
      simp only [List.mem_append, List.mem_cons]
      tauto
  · rw [hother d htd, h.dir]
  · rw [hother f (fun heq => hf (heq ▸ htF)), h.outside f hf]
  · rw [hother f (fun heq => htfree (heq ▸ List.mem_append_left _ hf)), h.loose f hf]

theorem Freeing.skip {k : Nat} (h : Freeing F loose d k m s) (ht : tableOf m d k = none) :
    Freeing F loose d (k + 1) m s := by
  refine ⟨h.nodup, h.within, ?_, h.dir, h.outside, h.loose⟩
  have heq : heldFrom m d (k + 1) = heldFrom m d k := by
    funext slot
    cases slot with
    | dir => rfl
    | table i =>
      by_cases hik : i = k
      · subst hik
        simp only [heldFrom, holds, ht, ite_self]
      · have hiff : k + 1 ≤ i ↔ k ≤ i := by omega
        simp only [heldFrom, hiff]
    | page v => rfl
  rw [heq]
  exact h.own

theorem freeTable_ensures (hF : L.Ram F) {k : Nat} (hk : k < NPDENTRIES)
    (h : Freeing F loose d k m s) :
    Ensures (freeTable L d k) s (fun _ s' => Freeing F loose d (k + 1) m s') E := by
  unfold freeTable
  rw [ensures_bind, ensures_getEntry, h.dir]
  by_cases hp : present (entry (m d) k) = true
  · have ht : tableOf m d k = some (pageOf (entry (m d) k)) := if_pos hp
    rw [if_pos hp]
    have hown : heldFrom m d k (.table k) = some (pageOf (entry (m d) k)) :=
      (if_pos (Nat.le_refl k)).trans (holds_table hk ht)
    refine (kfree_ensures hF (h.own.used_of_own hown).1).mono fun _ s' ⟨hmem, hlist⟩ => ?_
    exact h.give hk ht s' hmem hlist
  · rw [if_neg hp]
    exact h.skip (if_neg hp)

theorem freeTables_ensures (hF : L.Ram F) {n : Nat} (hn : n ≤ NPDENTRIES)
    (h : Freeing F loose d 0 m s) :
    Ensures ((List.range n).forM (freeTable L d)) s (fun _ s' => Freeing F loose d n m s') E := by
  refine ensures_forM_range (Freeing F loose d · m) ?_ h
  intro k hk s2 h2
  exact freeTable_ensures hF (Nat.lt_of_lt_of_le hk hn) h2

theorem freevm_ensures (hF : L.Ram F) (h : Space F loose d s) :
    Ensures (freevm L d) s (fun _ s' => Free F loose s' ∧ (∀ f, ¬ F f → s'.mem f = s.mem f) ∧
      ∀ f ∈ loose, s'.mem f = s.mem f) E := by
  unfold freevm
  refine (deallocuvm_ensures hF h (Nat.le_refl KERNBASE)).bind fun _ s1 hdealloc => ?_
  have hspace := hdealloc.2.1
  have hun := hdealloc.2.2
  have hnone : ∀ v < userPages, pteOf s1.mem d v = none := by
    intro v hv
    rw [hun.pte v (lt_of_lt_userPages hv), if_pos]
    unfold pagesOf
    unfold userPages KERNBASE PGSIZE at *
    omega
  -- a variable for the number of turns, or the elaborator unrolls the loop
  generalize hn : NPDENTRIES = n
  refine (freeTables_ensures hF (Nat.le_of_eq hn.symm) (hspace.freeing hnone)).bind fun _ s2 h2 => ?_
  subst hn
  have hdir : heldFrom s1.mem d NPDENTRIES .dir = some d := rfl
  obtain ⟨hdF, hdfree⟩ := h2.own.used_of_own hdir
  refine (kfree_ensures hF hdF).mono fun _ s' ⟨hmem, hlist⟩ => ?_
  have hother : ∀ f, f ≠ d → s'.mem f = s2.mem f := fun f hf => by rw [hmem, Function.update_of_ne hf]
  refine ⟨⟨?_, fun f => ?_⟩, fun f hf => ?_, fun f hf => ?_⟩
  · grind
  · rw [hlist, List.mem_append, List.mem_cons]
    constructor
    · intro hf
      by_cases hfree : f ∈ loose ++ s2.freelist
      · rw [List.mem_append] at hfree
        tauto
      · -- nothing is left but the directory
        obtain ⟨slot, hslot⟩ := (h2.own.used_iff f).1 ⟨hf, hfree⟩
        cases slot with
        | dir => grind
        | table i => grind [Layout.Ram, Ensures, freevm, heldFrom, holds]
        | page v =>
          cases hslot
    grind
  all_goals grind

/-! ## A space that is not written -/

variable {G : Nat → Prop} {s' : Machine}

/-- The pages of the space are as they were. -/
@[grind cases eager]
structure Untouched (d : Nat) (s s' : Machine) : Prop where
  table : ∀ i, tableOf s'.mem d i = tableOf s.mem d i
  pte : ∀ v, pteOf s'.mem d v = pteOf s.mem d v
  page : ∀ v < userPages, ∀ w, pteOf s.mem d v = some w → s'.mem (pageOf w) = s.mem (pageOf w)

theorem Space.unchanged (h : Space F [] d s) (hmem : ∀ f, F f → f ∉ s.freelist → s'.mem f = s.mem f) :
    Untouched d s s' := by
  have hdir : s'.mem d = s.mem d := hmem d h.dir_mem.1 h.dir_mem.2
  have htable : ∀ i, tableOf s'.mem d i = tableOf s.mem d i := by
    intro i
    unfold tableOf
    rw [hdir]
  refine ⟨htable, fun v => ?_, fun v hv w hw => ?_⟩
  · unfold pteOf
    rw [htable]
    cases ht : tableOf s.mem d (v / 1024) with
    | none => rfl
    | some t =>
      have hi : v / 1024 < NPDENTRIES := by
        by_contra hge
        rw [tableOf_of_le _ _ (Nat.le_of_not_lt hge)] at ht
        cases ht
      have hused := h.table_mem hi ht
      simp only [Option.bind_some, hmem t hused.1 hused.2]
  · have hused := h.page_mem hv hw
    exact hmem _ hused.1 hused.2

theorem Untouched.holds (h : Untouched d s s') : holds s'.mem d = holds s.mem d := by
  funext slot
  cases slot with
  | dir => rfl
  | table i => simp only [Vm.holds, h.table]
  | page v => simp only [Vm.holds, h.pte]

/-- Other pages are taken from the free list: what is left of it, with the pages of the space, is enough. -/
theorem Space.narrow (h : Space F [] d s) (hmem : ∀ f, F f → f ∉ s.freelist → s'.mem f = s.mem f)
    (hnodup : s'.freelist.Nodup) (hsub : ∀ f ∈ s'.freelist, f ∈ s.freelist) :
    Space (fun f => (F f ∧ f ∉ s.freelist) ∨ f ∈ s'.freelist) [] d s' := by
  refine ⟨hnodup, fun f hf => .inr hf, ?_⟩
  rw [(h.unchanged hmem).holds]
  refine ⟨h.own.unique, fun f => ?_⟩
  grind

theorem Space.widen {old : List Nat} (h : Space G [] d s) (hG : ∀ f, G f ↔ f ∈ old) (hold : ∀ f ∈ old, F f)
    (hfree : Free (fun f => (F f ∧ f ∉ old) ∨ f ∈ s.freelist) [] s')
    (hmem : ∀ f, ¬ ((F f ∧ f ∉ old) ∨ f ∈ s.freelist) → s'.mem f = s.mem f) :
    Space F [] d s' ∧ Untouched d s s' := by
  have huntouched : Untouched d s s' := h.unchanged fun f hf hno => hmem f (by rw [hG] at hf; tauto)
  have hin : ∀ f, f ∈ s'.freelist ↔ (F f ∧ f ∉ old) ∨ f ∈ s.freelist := fun f => (hfree.all f).symm
  refine ⟨⟨hfree.nodup, fun f hf => ?_, ?_⟩, huntouched⟩
  · grind
  · rw [huntouched.holds]
    refine ⟨h.own.unique, fun f => ?_⟩
    grind

end Uvm

end AsoPracticas.Xv6.Vm
