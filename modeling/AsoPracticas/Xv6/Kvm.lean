import AsoPracticas.Xv6.Uvm

/-!
# Kvm — the kernel half of an address space

`setupkvm` makes a directory with the kernel's mappings: for the ranges of `kmap`, which lie above `KERNBASE`, there
are page tables and entries that the user may not use; for the addresses between the end of the mapped memory and the
devices there is no page table at all.
-/

namespace AsoPracticas.Xv6.Vm

open Lib

section Kvm

variable {F : Nat → Prop} {loose : List Nat} {d v q : Nat} {s : Machine} {L : Layout} {E : Stop → Prop}

/-! ## A range of kernel pages -/

/-- The pages of the address space from `lo` to `hi`, with the page tables they need, are for the kernel. -/
@[grind cases eager]
structure Kernelled (F : Nat → Prop) (d lo hi : Nat) (s s' : Machine) : Prop where
  outside : ∀ f, ¬ F f → s'.mem f = s.mem f
  table : ∀ i, (tableOf s'.mem d i).isSome ↔ (tableOf s.mem d i).isSome ∨ (lo / 1024 ≤ i ∧ i * 1024 < hi)
  pte : ∀ u < 2 ^ 20, ¬ (lo ≤ u ∧ u < hi) → pteOf s'.mem d u = pteOf s.mem d u
  kernel : ∀ u, lo ≤ u → u < hi → ∃ w, pteOf s'.mem d u = some w ∧ user w = false

theorem Kernelled.trans {s1 s2 : Machine} {lo mid hi : Nat} (h : Kernelled F d lo mid s s1)
    (h' : Kernelled F d mid hi s1 s2) (hlo : lo < mid) (hhi : mid < hi) (hle : hi ≤ 2 ^ 20) :
    Kernelled F d lo hi s s2 := by
  refine ⟨fun f hf => ?_, fun i => ?_, fun u hu hout => ?_, fun u hul huh => ?_⟩
  all_goals grind

theorem Mapped.kernelled {w f perm : Nat} {s' : Machine} (h : Mapped F [] d v w s s') (hw : Pte w f perm)
    (hperm : perm.testBit 2 = false) (hv : v < 2 ^ 20) : Kernelled F d v (v + 1) s s' := by
  refine ⟨h.outside, fun i => ?_, fun u hu hout => ?_, fun u hlo hhi => ⟨w, ?_, ?_⟩⟩
  all_goals grind

/-- The loop over the pages `v` to `v1`, which are above `KERNBASE`; every page table it needs may be missing. -/
theorem mappagesLoop_kernel (hF : L.Ram F) {last perm v1 : Nat} (hperm : perm < PGSIZE) (huser : perm.testBit 2 = false)
    (hlast : last = v1 * PGSIZE) (hv1 : v1 < 2 ^ 20) (fuel v q : Nat) (s : Machine) (h : Space F [] d s)
    (hlo : userPages ≤ v) (hle : v ≤ v1) (hq : q + (v1 - v) < 2 ^ 20)
    (hnone : ∀ u, v ≤ u → u ≤ v1 → pteOf s.mem d u = none) (hfuel : v1 - v < fuel) :
    Ensures (mappagesLoop d last perm fuel (v * PGSIZE) (q * PGSIZE)) s (fun r s' => Space F [] d s' ∧
      ((r = -1 ∧ (∀ f, ¬ F f → s'.mem f = s.mem f) ∧
        ∀ n, ¬ s.Ample (n + (missing s.mem d (v / 1024) + (v1 / 1024 - v / 1024)))) ∨
      (r = 0 ∧ Kernelled F d v (v1 + 1) s s' ∧
        ∀ n, s.Ample (n + (missing s.mem d (v / 1024) + (v1 / 1024 - v / 1024))) → s'.Ample n))) E := by
  induction fuel generalizing v q s with
  | zero => exact absurd hfuel (Nat.not_lt_zero _)
  | succ fuel ih =>
    have hv : v < 2 ^ 20 := by omega
    have hdiv : v * PGSIZE / PGSIZE = v := Nat.mul_div_cancel v (by decide)
    have hpte : Pte (q * PGSIZE ||| perm ||| PTE_P) q perm := pte_or (by omega) hperm
    refine mappagesLoop_step hF h (by unfold PGSIZE; omega) ?_ hpte.lt hpte.present ?_ ?_
    · rw [hdiv]
      exact hnone v (Nat.le_refl v) hle
    · intro s' hspace hkept _ hshort
      rw [hdiv] at hshort
      exact ⟨hspace, .inl ⟨rfl, hkept.outside, fun n hn => hshort n (hn.mono (by omega))⟩⟩
    · intro s1 s' hspace _ hset hmapped hample
      rw [hdiv] at hset hmapped hample
      have hspace' := hspace.set_kernel hset hlo
      have hkern := hmapped.kernelled hpte huser hv
      by_cases heq : v = v1
      · subst heq
        rw [if_pos hlast.symm]
        exact ⟨hspace', .inr ⟨rfl, hkern, fun n hn => hample n (hn.mono (by omega))⟩⟩
      · have hne : v * PGSIZE ≠ last := by
          rw [hlast]
          unfold PGSIZE
          omega
        have hnext : (v * PGSIZE + PGSIZE) % 2 ^ 32 = (v + 1) * PGSIZE := by
          unfold PGSIZE
          omega
        have hnextq : (q * PGSIZE + PGSIZE) % 2 ^ 32 = (q + 1) * PGSIZE := by
          unfold PGSIZE
          omega
        rw [if_neg hne, hnext, hnextq]
        -- only at the start of a page table's range another table can be needed
        have hbudget : missing s'.mem d ((v + 1) / 1024) + (v1 / 1024 - (v + 1) / 1024) ≤ v1 / 1024 - v / 1024 := by
          by_cases hsame : (v + 1) / 1024 = v / 1024
          · rw [hsame, missing, if_pos hmapped.tabled, Nat.zero_add]
          · have := missing_le s'.mem d ((v + 1) / 1024)
            omega
        have hnone' : ∀ u, v + 1 ≤ u → u ≤ v1 → pteOf s'.mem d u = none := by
          intro u hge hle'
          rw [hkern.pte u (by omega) (by omega), hnone u (by omega) hle']
        refine (ih (v + 1) (q + 1) s' hspace' (by omega) (by omega) (by omega) hnone' (by omega)).mono
          fun r s2 hrest => ⟨hrest.1, hrest.2.imp ?_ ?_⟩
        · rintro ⟨rfl, hout, hshort⟩
          refine ⟨rfl, fun f hf => (hout f hf).trans (hkern.outside f hf), fun n hn => ?_⟩
          exact hshort n ((hample (n + (v1 / 1024 - v / 1024)) (hn.mono (by omega))).mono (by omega))
        · rintro ⟨rfl, hkern', hample'⟩
          refine ⟨rfl, hkern.trans hkern' (by omega) (by omega) (by omega), fun n hn => ?_⟩
          exact hample' n ((hample (n + (v1 / 1024 - v / 1024)) (hn.mono (by omega))).mono (by omega))

/-! ## The rows of `kmap` -/

def Kmap.lo (k : Kmap) : Nat := k.virt / PGSIZE
def Kmap.hi (k : Kmap) : Nat := k.lo + (k.phys_end + (2 ^ 32 - k.phys_start)) % 2 ^ 32 / PGSIZE

/-- A row that maps whole pages, at least one, above `KERNBASE` and not for the user. -/
@[grind cases eager]
structure Kmap.Valid (k : Kmap) : Prop where
  virt : k.virt = k.lo * PGSIZE
  start : k.phys_start = k.phys_start / PGSIZE * PGSIZE
  size : (k.phys_end + (2 ^ 32 - k.phys_start)) % 2 ^ 32 = (k.hi - k.lo) * PGSIZE
  kern : userPages ≤ k.lo
  lt : k.lo < k.hi
  le : k.hi ≤ 2 ^ 20
  phys : k.phys_start / PGSIZE + (k.hi - k.lo) ≤ 2 ^ 20
  perm : k.perm < PGSIZE
  user : k.perm.testBit 2 = false

theorem Kmap.Valid.of_pages {k : Kmap} (v q n : Nat) (hvirt : k.virt = v * PGSIZE) (hstart : k.phys_start = q * PGSIZE)
    (hsize : (k.phys_end + (2 ^ 32 - k.phys_start)) % 2 ^ 32 = n * PGSIZE) (hn : 0 < n) (hkern : userPages ≤ v)
    (hle : v + n ≤ 2 ^ 20) (hphys : q + n ≤ 2 ^ 20) (hperm : k.perm < PGSIZE) (huser : k.perm.testBit 2 = false) :
    k.Valid := by
  have hlo : k.lo = v := by rw [Kmap.lo, hvirt, Nat.mul_div_cancel _ (by decide)]
  have hhi : k.hi = v + n := by rw [Kmap.hi, hlo, hsize, Nat.mul_div_cancel _ (by decide)]
  have hq : k.phys_start / PGSIZE = q := by rw [hstart, Nat.mul_div_cancel _ (by decide)]
  refine ⟨?_, ?_, ?_, ?_, ?_, ?_, ?_, hperm, huser⟩
  all_goals grind

def Kmap.tables (k : Kmap) : Nat := 1 + ((k.hi - 1) / 1024 - k.lo / 1024)

theorem mapRow_ensures (hF : L.Ram F) (h : Space F [] d s) {k : Kmap} (hk : k.Valid)
    (hnone : ∀ u, k.lo ≤ u → u < k.hi → pteOf s.mem d u = none) :
    Ensures (mappages d k.virt ((k.phys_end + (2 ^ 32 - k.phys_start)) % 2 ^ 32) k.phys_start k.perm) s
      (fun r s' => Space F [] d s' ∧ ((r = -1 ∧ (∀ f, ¬ F f → s'.mem f = s.mem f) ∧ ∀ n, ¬ s.Ample (n + k.tables)) ∨
        (r = 0 ∧ Kernelled F d k.lo k.hi s s' ∧ ∀ n, s.Ample (n + k.tables) → s'.Ample n))) E := by
  have hlt := hk.lt
  have hle := hk.le
  have hphys := hk.phys
  have hmissing := missing_le s.mem d (k.lo / 1024)
  have hfirst : PGROUNDDOWN (k.lo * PGSIZE) = k.lo * PGSIZE := by
    rw [PGROUNDDOWN, Nat.mul_div_cancel _ (by decide)]
  have hlast : PGROUNDDOWN ((k.lo * PGSIZE + (k.hi - k.lo) * PGSIZE + (2 ^ 32 - 1)) % 2 ^ 32) =
      (k.hi - 1) * PGSIZE := by
    unfold PGROUNDDOWN PGSIZE
    omega
  rw [hk.size, hk.virt, hk.start, mappages, hfirst, hlast]
  have hloop := mappagesLoop_kernel (E := E) hF hk.perm hk.user rfl (by omega) allPages k.lo (k.phys_start / PGSIZE) s h
    hk.kern (Nat.le_sub_one_of_lt hlt) (by omega) (fun u hge hu => hnone u hge (by omega))
    (by unfold allPages; omega)
  refine hloop.mono fun r s' hrun => ⟨hrun.1, hrun.2.imp ?_ ?_⟩
  · rintro ⟨rfl, hout, hshort⟩
    exact ⟨rfl, hout, fun n hn => hshort n (hn.mono (by unfold Kmap.tables; omega))⟩
  · rintro ⟨rfl, hkern, hample⟩
    rw [Nat.sub_add_cancel (by omega)] at hkern
    exact ⟨rfl, hkern, fun n hn => hample n (hn.mono (by unfold Kmap.tables; omega))⟩

@[grind cases eager]
structure KernelledRows (d : Nat) (rows : List Kmap) (s s' : Machine) : Prop where
  table : ∀ i, (tableOf s'.mem d i).isSome ↔ (tableOf s.mem d i).isSome ∨ ∃ k ∈ rows, k.lo / 1024 ≤ i ∧ i * 1024 < k.hi
  pte : ∀ u < 2 ^ 20, (∀ k ∈ rows, ¬ (k.lo ≤ u ∧ u < k.hi)) → pteOf s'.mem d u = pteOf s.mem d u
  kernel : ∀ k ∈ rows, ∀ u, k.lo ≤ u → u < k.hi → ∃ w, pteOf s'.mem d u = some w ∧ user w = false

theorem KernelledRows.nil : KernelledRows d [] s s :=
  ⟨fun i => by simp, fun _ _ _ => rfl, fun k hk => nomatch hk⟩

theorem KernelledRows.cons {k : Kmap} {rows : List Kmap} {s1 s2 : Machine} (h : Kernelled F d k.lo k.hi s s1)
    (h' : KernelledRows d rows s1 s2) (hk : k.Valid) (hdisj : ∀ k' ∈ rows, k.hi ≤ k'.lo) :
    KernelledRows d (k :: rows) s s2 := by
  refine ⟨fun i => ?_, fun u hu hout => ?_, fun k' hk' u hlo hhi => ?_⟩
  all_goals grind

theorem mapKernel_ensures (hF : L.Ram F) (rows : List Kmap) (hvalid : ∀ k ∈ rows, k.Valid)
    (hdisj : rows.Pairwise fun k k' => k.hi ≤ k'.lo) (s : Machine) (h : Space F [] d s)
    (hnone : ∀ k ∈ rows, ∀ u, k.lo ≤ u → u < k.hi → pteOf s.mem d u = none) :
    Ensures (mapKernel L d rows) s (fun r s' => (∀ f, ¬ F f → s'.mem f = s.mem f) ∧
      match r with
      | none => Free F [] s' ∧ ∀ n, ¬ s.Ample (n + (rows.map Kmap.tables).sum)
      | some d' => d' = d ∧ Space F [] d s' ∧ KernelledRows d rows s s' ∧
          ∀ n, s.Ample (n + (rows.map Kmap.tables).sum) → s'.Ample n) E := by
  induction rows generalizing s with
  | nil => exact ⟨fun _ _ => rfl, rfl, h, .nil, fun n hn => hn⟩
  | cons k rows ih =>
    have hk := hvalid k List.mem_cons_self
    obtain ⟨hfirst, hrest⟩ := List.pairwise_cons.1 hdisj
    unfold mapKernel
    refine (mapRow_ensures hF h hk (hnone k List.mem_cons_self)).bind fun r s1 ⟨hspace, hr⟩ => ?_
    rcases hr with ⟨rfl, hout, hshort⟩ | ⟨rfl, hkern, hample⟩
    · rw [if_pos (by decide)]
      refine (freevm_ensures hF hspace).bind fun _ s' ⟨hfree, hout', _⟩ => ?_
      refine ⟨fun f hf => (hout' f hf).trans (hout f hf), hfree, fun n hn => ?_⟩
      rw [List.map_cons, List.sum_cons] at hn
      exact hshort n (hn.mono (by omega))
    · rw [if_neg (by decide)]
      have hnone1 : ∀ k' ∈ rows, ∀ u, k'.lo ≤ u → u < k'.hi → pteOf s1.mem d u = none := by
        intro k' hk' u hlo hhi
        have hle := (hvalid k' (List.mem_cons_of_mem k hk')).le
        have hge := hfirst k' hk'
        rw [hkern.pte u (by omega) (by omega), hnone k' (List.mem_cons_of_mem k hk') u hlo hhi]
      refine (ih (fun k' hk' => hvalid k' (List.mem_cons_of_mem k hk')) hrest s1 hspace hnone1).mono
        fun r s' ⟨hout, hr⟩ => ⟨fun f hf => (hout f hf).trans (hkern.outside f hf), ?_⟩
      have hstep : ∀ n, s.Ample (n + ((k :: rows).map Kmap.tables).sum) →
          s1.Ample (n + (rows.map Kmap.tables).sum) := by
        intro n hn
        rw [List.map_cons, List.sum_cons] at hn
        exact hample _ (hn.mono (by omega))
      cases r with
      | none => exact ⟨hr.1, fun n hn => hr.2 n (hstep n hn)⟩
      | some d' =>
        obtain ⟨rfl, hspace', hrows, hample'⟩ := hr
        exact ⟨rfl, hspace', .cons hkern hrows hk hfirst, fun n hn => hample' n (hstep n hn)⟩

/-! ## `setupkvm` -/

theorem Layout.data_bounds (L : Layout) : 256 < L.data ∧ L.data < 57344 := by
  have htext := L.text_lt
  have hdata := L.data_lt
  have hend := L.end_le
  unfold EXTMEM PGSIZE at htext
  unfold PHYSTOP PGSIZE at hend
  omega

theorem kmap_ranges (L : Layout) : (kmap L).map (fun k => (k.lo, k.hi)) =
    [(524288, 524544), (524544, 524288 + L.data), (524288 + L.data, 581632), (1040384, 1048576)] := by
  have hdata := L.data_bounds
  simp only [kmap, List.map_cons, List.map_nil, Kmap.lo, Kmap.hi, KERNLINK, KERNBASE, EXTMEM, PHYSTOP, DEVSPACE, PGSIZE,
    List.cons.injEq, Prod.mk.injEq, and_true, true_and]
  omega

theorem kmap_valid (L : Layout) : ∀ k ∈ kmap L, k.Valid := by
  have hdata := L.data_bounds
  simp only [kmap, List.forall_mem_cons, List.not_mem_nil, false_imp_iff, implies_true, and_true]
  refine ⟨?_, ?_, ?_, ?_⟩
  · exact .of_pages 524288 0 256 (by decide) (by decide) (by decide) (by decide) (by decide) (by decide) (by decide)
      (by decide) (by decide)
  · refine .of_pages 524544 256 (L.data - 256) rfl rfl ?_ (by omega) (by decide) (by omega) (by omega)
      (show 0 < PGSIZE by decide) (show Nat.testBit 0 2 = false by decide)
    simp only [EXTMEM, PGSIZE]
    omega
  · refine .of_pages (524288 + L.data) L.data (57344 - L.data) ?_ rfl ?_ (by omega) ?_ (by omega) (by omega)
      (show PTE_W < PGSIZE by decide) (show PTE_W.testBit 2 = false by decide)
    · simp only [KERNBASE, PGSIZE]
      omega
    · simp only [PHYSTOP, PGSIZE]
      omega
    · simp only [userPages, KERNBASE, PGSIZE]
      omega
  · exact .of_pages 1040384 1040384 8192 (by decide) (by decide) (by decide) (by decide) (by decide) (by decide)
      (by decide) (by decide) (by decide)

theorem kmap_disjoint (L : Layout) : (kmap L).Pairwise fun k k' => k.hi ≤ k'.lo := by
  have hdata := L.data_bounds
  have hpairs : ((kmap L).map fun k => (k.lo, k.hi)).Pairwise fun a b => a.2 ≤ b.1 := by
    rw [kmap_ranges]
    grind
  exact (List.pairwise_map.1 hpairs)

theorem kmap_tabled (L : Layout) (i : Nat) : (∃ k ∈ kmap L, k.lo / 1024 ≤ i ∧ i * 1024 < k.hi) ↔
    (512 ≤ i ∧ i < 568) ∨ (1016 ≤ i ∧ i < 1024) := by
  have hdata := L.data_bounds
  have hmap : (∃ k ∈ kmap L, k.lo / 1024 ≤ i ∧ i * 1024 < k.hi) ↔
      ∃ a ∈ (kmap L).map fun k => (k.lo, k.hi), a.1 / 1024 ≤ i ∧ i * 1024 < a.2 := by
    simp only [List.mem_map, exists_exists_and_eq_and]
  rw [hmap, kmap_ranges]
  simp only [List.mem_cons, List.not_mem_nil, or_false, exists_eq_or_imp, exists_eq_left]
  omega

theorem kmap_tables (L : Layout) : ((kmap L).map Kmap.tables).sum ≤ 67 := by
  have hdata := L.data_bounds
  have hmap : (kmap L).map Kmap.tables =
      ((kmap L).map fun k => (k.lo, k.hi)).map fun a => 1 + ((a.2 - 1) / 1024 - a.1 / 1024) := by
    rfl
  rw [hmap, kmap_ranges]
  simp only [List.map_cons, List.map_nil, List.sum_cons, List.sum_nil]
  omega

/-- The kernel's half of a directory: page tables up to the end of memory and for the devices, and no entry that the
user may use. -/
@[grind cases eager]
structure Kernel (m : Nat → Page) (d : Nat) : Prop where
  table : ∀ i, userPages / 1024 ≤ i →
    ((tableOf m d i).isSome ↔ i < (KERNBASE + PHYSTOP) / 2 ^ 22 ∨ (DEVSPACE / 2 ^ 22 ≤ i ∧ i < NPDENTRIES))
  pte : ∀ u, userPages ≤ u → u < 2 ^ 20 → ∀ w, pteOf m d u = some w → user w = false

theorem setupkvm_ensures (hF : L.Ram F) (h : Free F [] s) :
    Ensures (setupkvm L) s (fun r s' => (∀ f, ¬ F f → s'.mem f = s.mem f) ∧
      match r with
      | none => Free F [] s' ∧ ∀ n, ¬ s.Ample (n + 68)
      | some d => Space F [] d s' ∧ Kernel s'.mem d ∧ (∀ v < userPages, pteOf s'.mem d v = none) ∧
          ∀ n, s.Ample (n + 68) → s'.Ample n) E := by
  unfold setupkvm
  refine (kalloc_ensures s).bind fun r s1 ⟨hmem, hr, hample⟩ => ?_
  cases r with
  | none =>
    refine ⟨fun f _ => by rw [hmem], ⟨?_, fun f => ?_⟩, fun n hn => ?_⟩
    all_goals grind
  | some d =>
    simp only [memset, ensures_bind, ensures_modify] at hr ⊢
    rw [if_neg (by decide)]
    -- the directory, all zero
    have hfree : Free F [d] { s1 with mem := Function.update s1.mem d fun _ => 0 } := by
      refine ⟨?_, fun f => ?_⟩
      all_goals grind
    obtain ⟨hspace, htable, hpte⟩ := Space.of_zero hfree (Function.update_self _ _ _)
    have hout : ∀ f, ¬ F f → Function.update s1.mem d (fun _ => 0) f = s.mem f := by grind
    refine (mapKernel_ensures hF (kmap L) (kmap_valid L) (kmap_disjoint L) _ hspace fun _ _ u _ _ => hpte u).mono
      fun r s' hrun => ⟨fun f hf => (hrun.1 f hf).trans (hout f hf), ?_⟩
    have hr' := hrun.2
    have htables := kmap_tables L
    have hstart : ∀ n, s.Ample (n + 68) →
        Machine.Ample (n + ((kmap L).map Kmap.tables).sum) { s1 with mem := Function.update s1.mem d fun _ => 0 } := by
      intro n hn
      have hample1 := (hample (n + 67) hn).2
      exact ⟨hample1.fails, Nat.le_trans (by omega) hample1.freelist⟩
    cases r with
    | none => exact ⟨hr'.1, fun n hn => hr'.2 n (hstart n hn)⟩
    | some d' =>
      obtain ⟨rfl, hspace', hrows, hample'⟩ := hr'
      have hnew : ∀ u < 2 ^ 20, (∀ k ∈ kmap L, ¬ (k.lo ≤ u ∧ u < k.hi)) → pteOf s'.mem d' u = none := by
        intro u hu hrow
        rw [hrows.pte u hu hrow, hpte]
      refine ⟨hspace', ⟨fun i hi => ?_, fun u hge hlt w hw => ?_⟩, fun v hv => ?_, fun n hn => hample' n (hstart n hn)⟩
      · rw [hrows.table i, htable, kmap_tabled]
        simp only [Option.isSome_none, Bool.false_eq_true, false_or]
        unfold userPages KERNBASE PGSIZE at hi
        unfold KERNBASE PHYSTOP DEVSPACE NPDENTRIES
        omega
      · by_cases hrow : ∃ k ∈ kmap L, k.lo ≤ u ∧ u < k.hi
        · obtain ⟨k, hk, hlo, hhi⟩ := hrow
          obtain ⟨w', hw', huser⟩ := hrows.kernel k hk u hlo hhi
          rw [hw] at hw'
          cases hw'
          exact huser
        · rw [hnew u hlt fun k hk hin => hrow ⟨k, hk, hin⟩] at hw
          cases hw
      · refine hnew v (lt_of_lt_userPages hv) fun k hk hin => ?_
        have hkern := (kmap_valid L k hk).kern
        omega

end Kvm

end AsoPracticas.Xv6.Vm
