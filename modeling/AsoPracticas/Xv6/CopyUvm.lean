import AsoPracticas.Xv6.Kvm
import AsoPracticas.Xv6.Sbrk

/-!
# CopyUvm — the address space of a child

`fork` calls `copyuvm`, which makes a new directory and copies the pages of the parent one by one.  All that it writes
are pages that were free, so the parent's space stays as it was, also while the child's is made.

* `Copies` — the pages of the child below some page are copies of the parent's;
* `copyuvm_copies` — the child gets copies of all pages below the size, or nothing is left of it.
-/

namespace AsoPracticas.Xv6.Vm

open Lib

variable {F G : Nat → Prop} {pgdir d v sz : Nat} {s s0 s1 s' : Machine} {L : Layout} {p : Size} {E : Stop → Prop}

/-- The pages of `d` below `n` are copies of those of `pgdir`, and there are no others. -/
structure Copies (pgdir d n : Nat) (s s' : Machine) : Prop where
  copy : ∀ u < n, ∃ w w', pteOf s.mem pgdir u = some w ∧ pteOf s'.mem d u = some w' ∧ user w' = user w ∧
    s'.mem (pageOf w') = s.mem (pageOf w)
  none : ∀ u < userPages, n ≤ u → pteOf s'.mem d u = none

theorem Copies.congr (h : Copies pgdir d v s s1) (hv : v ≤ userPages) (hsame : Same G d s1 s') :
    Copies pgdir d v s s' := by
  refine ⟨fun u hu => ?_, fun u hu hge => ?_⟩
  · obtain ⟨w, w', hw, hw', huser, hpage⟩ := h.copy u hu
    have huv : u < userPages := Nat.lt_of_lt_of_le hu hv
    refine ⟨w, w', hw, ?_, huser, ?_⟩
    · rw [hsame.pte u (lt_of_lt_userPages huv), hw']
    · rw [hsame.page u huv w' hw', hpage]
  · rw [hsame.pte u (lt_of_lt_userPages hu), h.none u hu hge]

/-- Page `f`, a copy of the parent's, is mapped at `v`. -/
theorem Copies.step {f w w' perm : Nat} (h : Copies pgdir d v s s1) (hv : v < userPages)
    (hmapped : Mapped G [f] d v w' s1 s') (hpte : Pte w' f perm) (hw : pteOf s.mem pgdir v = some w)
    (huser : perm.testBit 2 = user w) (hcopy : s1.mem f = s.mem (pageOf w)) : Copies pgdir d (v + 1) s s' := by
  refine ⟨fun u hu => ?_, fun u hu hge => ?_⟩
  · have huu : u < userPages := by omega
    rw [hmapped.pte u (lt_of_lt_userPages huu)]
    by_cases huv : u = v
    · subst huv
      rw [if_pos rfl]
      exact ⟨w, w', hw, rfl, hpte.user.trans huser, by rw [hpte.page, hmapped.loose f List.mem_cons_self, hcopy]⟩
    · obtain ⟨w1, w2, hw1, hw2, huser1, hpage⟩ := h.copy u (by omega)
      rw [if_neg huv]
      exact ⟨w1, w2, hw1, hw2, huser1, by rw [hmapped.page u huu w2 hw2, hpage]⟩
  · rw [hmapped.pte u (lt_of_lt_userPages hu), if_neg (by omega), h.none u hu (by omega)]

/-- A complete copy is a process of the same size. -/
theorem Copies.process (h : Copies pgdir d (pagesOf sz) s s') (hG : L.Ram G) (hspace : Space G [] d s')
    (hsz : sz < KERNBASE) : Process L G { pgdir := d, sz } s' := by
  refine ⟨hG, hspace, hsz, fun v hv => ⟨fun hsome => ?_, fun hlt => ?_⟩⟩
  · by_contra hge
    rw [h.none v hv (Nat.le_of_not_lt hge)] at hsome
    cases hsome
  · obtain ⟨_, w', -, hw', -⟩ := h.copy v hlt
    rw [hw']
    rfl

theorem PTE_FLAGS_user (w : Nat) : (PTE_FLAGS w).testBit 2 = user w := by
  rw [PTE_FLAGS, show PGSIZE = 2 ^ 12 from rfl, Nat.testBit_mod_two_pow]
  rfl

/-- The loop at page `v`.  `s0` is the machine at the start: as only pages of `G` are written, the parent's space is as
it was there. -/
theorem copyLoop_ensures (hG : L.Ram G) (hparent : ∀ s, (∀ f, ¬ G f → s.mem f = s0.mem f) → Untouched pgdir s0 s)
    (hsz : sz < KERNBASE) (hmap : ∀ u < pagesOf sz, (pteOf s0.mem pgdir u).isSome) (fuel v : Nat) (s : Machine)
    (h : Space G [] d s) (hout : ∀ f, ¬ G f → s.mem f = s0.mem f) (hcopies : Copies pgdir d v s0 s)
    (hle : v ≤ pagesOf sz) (hfuel : pagesOf sz - v < fuel) :
    Ensures (copyLoop L pgdir d sz fuel (v * PGSIZE)) s (fun r s' => Space G [] d s' ∧
      (∀ f, ¬ G f → s'.mem f = s0.mem f) ∧
      if r then Copies pgdir d (pagesOf sz) s0 s' else ∀ n, ¬ s.Ample (n + 2 * (pagesOf sz - v))) E := by
  induction fuel generalizing v s with
  | zero => exact absurd hfuel (Nat.not_lt_zero _)
  | succ fuel ih =>
    have huntouched := hparent s hout
    have hpages := pagesOf_le (Nat.le_of_lt hsz)
    unfold copyLoop
    by_cases hlt : v < pagesOf sz
    · have hvu : v < userPages := by omega
      rw [if_pos (lt_pagesOf.1 hlt), ensures_bind, ensures_walkpgdir_find (mul_lt_of_lt_userPages hvu),
        Nat.mul_div_cancel v (by decide)]
      -- the parent has a page there, so `copyuvm` does not panic
      obtain ⟨w, hw⟩ := Option.isSome_iff_exists.1 (hmap v hlt)
      have hpte := hw
      rw [← huntouched.pte] at hpte
      cases ht : tableOf s.mem pgdir (v / 1024) with
      | none =>
        rw [pteOf_of_no_table ht] at hpte
        cases hpte
      | some t =>
        rw [pteOf_of_table ht] at hpte
        obtain ⟨hp, hentry⟩ := Option.ite_none_right_eq_some.1 hpte
        simp only [Option.map_some, ensures_bind, ensures_getEntry]
        rw [if_neg (by simp [hp]), Option.some.inj hentry]
        refine (kalloc_ensures s).bind ?_
        rintro r s1 ⟨hmem, hr, hample⟩
        cases r with
        | none =>
          refine ⟨h.congr hmem (by rw [hr]), fun f hf => by rw [hmem, hout f hf], fun n hn => ?_⟩
          cases (hample _ (hn.mono (by omega : n + 1 ≤ _))).1
        | some f =>
          simp only at hr
          -- the page in hand becomes a copy of the parent's
          have hspace : Space G [f] d s1 := h.congr hmem (by rw [hr]; rfl)
          have hf : G f := hspace.within f List.mem_cons_self
          simp only [copyPage, ensures_bind, ensures_modify]
          obtain ⟨hspace2, hsame2⟩ := hspace.write_loose [f]
            { s1 with mem := Function.update s1.mem f (s1.mem (pageOf w)) } rfl rfl
          have hsame := (Same.of_mem hmem).trans hsame2
          have hcopies2 := hcopies.congr (Nat.le_of_lt hvu) hsame
          refine (mapPage_ensures hG hspace2 hvu (hcopies2.none v hvu (Nat.le_refl v))
            (Nat.mod_lt w (by decide))).mono fun r s3 hmap' => ?_
          rcases hmap' with ⟨rfl, hspace3, hsame3, hshort⟩ | ⟨rfl, hspace3, hmapped, hample3⟩
          · -- no page table: the page in hand goes back
            rw [if_pos (by decide)]
            refine (kfree_ensures hG hf).bind ?_
            rintro _ s' ⟨hmem', hlist'⟩
            obtain ⟨hspace', hsame'⟩ := hspace3.write_loose [] s' hmem' (by rw [hlist']; rfl)
            refine ⟨hspace', fun g hg => ?_, fun n hn => ?_⟩
            · rw [hsame'.outside g hg, hsame3.outside g hg, hsame.outside g hg, hout g hg]
            · have hample1 := (hample (n + 1) (hn.mono (by omega))).2
              exact hshort n ⟨hample1.fails, hample1.freelist⟩
          · rw [if_neg (by decide), next_page hvu]
            refine (ih (v + 1) s3 hspace3 (fun g hg => ?_) ?_ hlt (by omega)).mono ?_
            · rw [hmapped.outside g hg, hsame.outside g hg, hout g hg]
            · refine hcopies2.step hvu hmapped (pte_or (hG.lt hf) (Nat.mod_lt w (by decide))) hw (PTE_FLAGS_user w) ?_
              rw [← huntouched.page v hvu w hw, ← hmem]
              exact Function.update_self f _ _
            · rintro r s' ⟨hspace', hout', hr'⟩
              refine ⟨hspace', hout', ?_⟩
              cases r with
              | true => exact hr'
              | false =>
                intro n hn
                have hample1 := (hample (n + 2 * (pagesOf sz - (v + 1)) + 1) (hn.mono (by omega))).2
                exact hr' n (hample3 _ ⟨hample1.fails, hample1.freelist⟩)
    · rw [if_neg (fun hsz => hlt (lt_pagesOf.2 hsz))]
      obtain rfl : v = pagesOf sz := by omega
      exact ⟨h, hout, hcopies⟩

/-- `copyuvm` of a process, with `kalloc` failing at any of its calls, does not panic and leaves the parent's space
alone.  If it fails then memory was short, and all its pages are free again; else the child is a process of the same
size, in pages that were free, whose pages are copies of the parent's. -/
theorem copyuvm_copies (h : Process L F p s) :
    ∃ r s', copyuvm L p.pgdir p.sz s = .ok (r, s') ∧ Untouched p.pgdir s s' ∧
      match r with
      | none => Free (· ∈ s.freelist) [] s' ∧ ∀ n, ¬ s.Ample (n + 2 * pagesOf p.sz + 68)
      | some d => Process L (· ∈ s.freelist) { pgdir := d, sz := p.sz } s' ∧ Copies p.pgdir d (pagesOf p.sz) s s' := by
  have hG : L.Ram (· ∈ s.freelist) := fun f hf => h.ram f (h.space.within f hf)
  have hparent : ∀ s', (∀ f, f ∉ s.freelist → s'.mem f = s.mem f) → Untouched p.pgdir s s' := fun s' hout =>
    h.space.unchanged fun f _ hf => hout f hf
  have hpages := pagesOf_le (Nat.le_of_lt h.lt)
  have hmap : ∀ u < pagesOf p.sz, (pteOf s.mem p.pgdir u).isSome := fun u hu => (h.mapped u (by omega)).2 hu
  have hfuel : pagesOf p.sz - 0 < allPages := by
    unfold userPages KERNBASE PGSIZE at hpages
    unfold allPages
    omega
  refine ensures_false_iff.1 ((setupkvm_ensures hG ⟨h.space.nodup, fun _ => Iff.rfl⟩).bind ?_)
  rintro r s1 ⟨hout, hr⟩
  cases r with
  | none => exact ⟨hparent s1 hout, hr.1, fun n => hr.2 _⟩
  | some d =>
    obtain ⟨hspace, -, hnone, hample⟩ := hr
    have hloop := copyLoop_ensures (E := fun _ => False) hG hparent h.lt hmap allPages 0 s1 hspace hout
      ⟨fun u hu => absurd hu (Nat.not_lt_zero u), fun u hu _ => hnone u hu⟩ (Nat.zero_le _) hfuel
    rw [Nat.zero_mul] at hloop
    refine hloop.bind ?_
    rintro r s2 ⟨hspace2, hout2, hr2⟩
    cases r with
    | true => exact ⟨hparent s2 hout2, hr2.process hG hspace2 h.lt, hr2⟩
    | false =>
      refine (freevm_ensures hG hspace2).bind ?_
      rintro _ s' ⟨hfree, hout', -⟩
      exact ⟨hparent s' fun f hf => (hout' f hf).trans (hout2 f hf), hfree, fun n hn => hr2 n (hample _ hn)⟩

/-- A process of two pages with memory to spare has a child. -/
theorem copyuvm_copies_two : ∃ s d s', Process smallKernel (emptyPages 76) { pgdir := 258, sz := 8192 } s ∧
    copyuvm smallKernel 258 8192 s = .ok (some d, s') ∧ Untouched 258 s s' ∧
    Process smallKernel (· ∈ s.freelist) { pgdir := d, sz := 8192 } s' ∧ Copies 258 d 2 s s' := by
  obtain ⟨s, hs, hample⟩ := exists_process 8192 72 (by decide) (by decide)
  obtain ⟨r, s', hrun, huntouched, hr⟩ := copyuvm_copies hs
  cases r with
  | none => exact absurd hample (hr.2 0)
  | some d => exact ⟨s, d, s', hs, hrun, huntouched, hr⟩

end AsoPracticas.Xv6.Vm
