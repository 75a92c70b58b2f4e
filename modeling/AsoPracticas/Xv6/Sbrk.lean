import AsoPracticas.Xv6.Uvm

/-!
# Sbrk — changing the size of a process

`sys_sbrk` and `growproc` on a process whose pages are those below its size.  `growproc` adds a signed number to an
unsigned size and takes the result 0 of `allocuvm` and `deallocuvm` for a failure, so that a request for a size that
is not positive goes wrong: the pages are gone and `-1` is returned, or nothing happens and the call succeeds.
-/

namespace AsoPracticas.Xv6.Vm

open Lib

/-- A process whose address space has exactly the pages below its size. -/
@[grind cases eager]
structure Process (L : Layout) (F : Nat → Prop) (p : Size) (s : Machine) : Prop where
  ram : L.Ram F
  space : Space F [] p.pgdir s
  lt : p.sz < KERNBASE
  mapped : ∀ v < userPages, (pteOf s.mem p.pgdir v).isSome ↔ v < pagesOf p.sz

/-- The call is refused and no page is different, or the size has changed by `n`: the pages below the new size, and no
others, are there, the new ones zero and the old ones as they were. -/
def AllOrNothing (p : Size) (n : Int) (s : Machine) (r : Int) (p' : Size) (s' : Machine) : Prop :=
  (r = -1 ∧ p' = p ∧ ∀ v < userPages, view s'.mem p.pgdir v = view s.mem p.pgdir v) ∨
  (r = p.sz ∧ p'.pgdir = p.pgdir ∧ (p'.sz : Int) = p.sz + n ∧
    (∀ v < userPages, (view s'.mem p.pgdir v).isSome ↔ v < pagesOf p'.sz) ∧
    (∀ v, v < pagesOf p.sz → v < pagesOf p'.sz → view s'.mem p.pgdir v = view s.mem p.pgdir v) ∧
    ∀ v, pagesOf p.sz ≤ v → v < pagesOf p'.sz → ∃ w, view s'.mem p.pgdir v = some (w, fun _ => 0))

section Sbrk

variable {F : Nat → Prop} {d v : Nat} {s s' : Machine} {L : Layout} {E : Stop → Prop} {p : Size} {n : Int}

theorem isSome_view (m : Nat → Page) (d v : Nat) : (view m d v).isSome = (pteOf m d v).isSome :=
  Option.isSome_map

theorem view_congr (hpte : pteOf s'.mem d v = pteOf s.mem d v)
    (hpage : ∀ w, pteOf s.mem d v = some w → s'.mem (pageOf w) = s.mem (pageOf w)) :
    view s'.mem d v = view s.mem d v := by
  unfold view
  rw [hpte]
  cases hw : pteOf s.mem d v with
  | none => rfl
  | some w => simp only [Option.map_some, hpage w hw]

theorem Same.view_eq (h : Same F d s s') (hv : v < userPages) : view s'.mem d v = view s.mem d v :=
  view_congr (h.pte v (lt_of_lt_userPages hv)) (h.page v hv)

theorem Grown.view_eq {lo hi : Nat} (h : Grown F d lo hi s s') (hv : v < userPages) (hout : ¬ (lo ≤ v ∧ v < hi)) :
    view s'.mem d v = view s.mem d v :=
  view_congr (h.pte v (lt_of_lt_userPages hv) hout) (h.page v hv hout)

theorem Unmapped.view_eq {loose : List Nat} {lo hi : Nat} (h : Unmapped F loose d lo hi s s') (hv : v < userPages)
    (hout : ¬ (lo ≤ v ∧ v < hi)) : view s'.mem d v = view s.mem d v :=
  view_congr (by rw [h.pte v (lt_of_lt_userPages hv), if_neg hout]) (h.page v hv hout)

theorem Process.none (h : Process L F p s) (hv : v < userPages) (hle : pagesOf p.sz ≤ v) :
    pteOf s.mem p.pgdir v = none := by
  cases hw : pteOf s.mem p.pgdir v with
  | none => rfl
  | some w =>
    have hlt := (h.mapped v hv).1 (by rw [hw]; rfl)
    omega

/-! ## A machine to try it on -/

def smallKernel : Layout :=
  { data := 257, endPage := 258, text_lt := by decide, data_lt := by decide, end_le := by decide }

/-- A machine with a zeroed page 258 in use and the `n` pages after it free. -/
def emptyMachine (n : Nat) : Machine :=
  { mem := fun _ _ => 0, freelist := List.range' 259 n, fails := fun _ => false }

def emptyPages (n f : Nat) : Prop := 258 ≤ f ∧ f < 259 + n

theorem emptyMachine_free (n : Nat) : Free (emptyPages n) [258] (emptyMachine n) := by
  refine ⟨List.nodup_cons.2 ⟨?_, List.nodup_range'⟩, fun f => ?_⟩
  · show 258 ∉ List.range' 259 n
    rw [List.mem_range'_1]
    omega
  · simp only [emptyPages, emptyMachine, List.singleton_append, List.mem_cons, List.mem_range'_1]
    omega

theorem emptyMachine_process (n : Nat) (hn : n ≤ 57000) :
    Process smallKernel (emptyPages n) { pgdir := 258, sz := 0 } (emptyMachine n) := by
  obtain ⟨hspace, -, hpte⟩ := Space.of_zero (emptyMachine_free n) rfl
  refine ⟨fun f hf => ?_, hspace, by decide, fun v _ => ?_⟩
  · grind [smallKernel, emptyPages, PHYSTOP, PGSIZE]
  · rw [hpte]
    simp only [Option.isSome_none, Bool.false_eq_true, false_iff]
    exact Nat.not_lt_zero v

/-! ## `growproc` -/

theorem plus_of_nonneg (hsz : p.sz < KERNBASE) (hn : n < 2 ^ 31) (h : 0 ≤ p.sz + n) : (p.plus n : Int) = p.sz + n := by
  unfold KERNBASE at hsz
  unfold Size.plus
  omega

theorem le_plus_of_neg (hsz : p.sz < KERNBASE) (hn : -2 ^ 31 ≤ n) (h : p.sz + n < 0) : p.sz ≤ p.plus n := by
  unfold KERNBASE at hsz
  unfold Size.plus
  omega

theorem growproc_grow (h : Process L F p s) (hn : 0 < n) (hlt : n < 2 ^ 31) :
    Ensures (growproc L p n) s (fun a s' => Space F [] p.pgdir s' ∧ ((a = (-1, p) ∧ Same F p.pgdir s s') ∨
      (a = (0, { p with sz := p.plus n }) ∧ p.plus n < KERNBASE ∧
        Grown F p.pgdir (pagesOf p.sz) (pagesOf (p.plus n)) s s'))) E := by
  have hplus := plus_of_nonneg h.lt hlt (by omega)
  unfold growproc
  rw [if_pos hn]
  refine (allocuvm_ensures h.ram h.space fun hkern u hlo hhi => ?_).bind fun sz s' ⟨hspace, hr⟩ => ?_
  · exact h.none (Nat.lt_of_lt_of_le hhi (pagesOf_le (Nat.le_of_lt hkern))) hlo
  · rcases hr with ⟨rfl, hsame, -⟩ | ⟨hkern, rfl, hgrown, -⟩
    · rw [if_pos rfl]
      exact ⟨hspace, .inl ⟨rfl, hsame⟩⟩
    · have hmax : max p.sz (p.plus n) = p.plus n := by omega
      rw [hmax, if_neg (by omega)]
      exact ⟨hspace, .inr ⟨rfl, hkern, hgrown⟩⟩

theorem growproc_shrink (h : Process L F p s) (hn : n < 0) :
    Ensures (growproc L p n) s (fun a s' => Space F [] p.pgdir s' ∧
      Unmapped F [] p.pgdir (pagesOf (p.plus n)) (pagesOf p.sz) s s' ∧
      a = if min p.sz (p.plus n) = 0 then (-1, p) else (0, { p with sz := min p.sz (p.plus n) })) E := by
  unfold growproc
  rw [if_neg (by omega), if_pos hn]
  refine (deallocuvm_ensures h.ram h.space (Nat.le_of_lt h.lt)).bind ?_
  rintro _ s' ⟨rfl, hspace, hun⟩
  by_cases hzero : min p.sz (p.plus n) = 0
  · rw [if_pos hzero]
    exact ⟨hspace, hun, (if_pos hzero).symm⟩
  · rw [if_neg hzero]
    exact ⟨hspace, hun, (if_neg hzero).symm⟩

/-! ## `sys_sbrk` -/

theorem Same.allOrNothing (h : Same F p.pgdir s s') : AllOrNothing p n s (-1) p s' :=
  .inl ⟨rfl, rfl, fun _ hv => h.view_eq hv⟩

theorem Grown.allOrNothing {sz : Nat} (hgrown : Grown F p.pgdir (pagesOf p.sz) (pagesOf sz) s s') (h : Process L F p s)
    (hsz : (sz : Int) = p.sz + n) (hle : p.sz ≤ sz) (hkern : sz < KERNBASE) :
    AllOrNothing p n s p.sz { p with sz } s' := by
  have huser := pagesOf_le (Nat.le_of_lt hkern)
  have hfresh : ∀ v, pagesOf p.sz ≤ v → v < pagesOf sz → ∃ w, view s'.mem p.pgdir v = some (w, fun _ => 0) := by
    intro v hlo hhi
    obtain ⟨w, hw, -, hzero⟩ := hgrown.fresh v hlo hhi
    refine ⟨w, ?_⟩
    rw [view, hw, Option.map_some, hzero]
  refine .inr ⟨rfl, rfl, hsz, fun v hv => ?_, fun v hold hnew => ?_, hfresh⟩
  · by_cases hin : pagesOf p.sz ≤ v ∧ v < pagesOf sz
    · grind
    · rw [hgrown.view_eq hv hin, isSome_view, h.mapped v hv]
      grind [pagesOf, PGSIZE]
  · exact hgrown.view_eq (Nat.lt_of_lt_of_le hnew huser) (by omega)

theorem Unmapped.allOrNothing {sz : Nat} (hun : Unmapped F [] p.pgdir (pagesOf sz) (pagesOf p.sz) s s')
    (h : Process L F p s) (hsz : (sz : Int) = p.sz + n) (hle : sz ≤ p.sz) :
    AllOrNothing p n s p.sz { p with sz } s' := by
  have huser := pagesOf_le (Nat.le_of_lt h.lt)
  have hpages : pagesOf sz ≤ pagesOf p.sz := by
    unfold pagesOf PGSIZE
    omega
  refine .inr ⟨rfl, rfl, hsz, fun v hv => ?_, fun v hold hnew => ?_, fun v hlo hhi => ?_⟩
  · rw [isSome_view, hun.pte v (lt_of_lt_userPages hv)]
    grind
  · simp only at hnew
    exact hun.view_eq (Nat.lt_of_lt_of_le hold huser) (by omega)
  · simp only at hhi
    omega

theorem sys_sbrk_ensures (h : Process L F p s) (hlo : -2 ^ 31 ≤ n) (hhi : n < 2 ^ 31)
    (hwhen : 0 ≤ n ∨ p.sz = 0 ∨ 0 < p.sz + n) :
    Ensures (sys_sbrk L p (some n)) s (fun a s' => AllOrNothing p n s a.1 a.2 s') E := by
  rcases Int.lt_trichotomy n 0 with hneg | rfl | hpos
  · refine (growproc_shrink h hneg).bind ?_
    rintro _ s' ⟨-, hun, rfl⟩
    by_cases hsz : p.sz = 0
    · -- nothing to give back: the result 0 of `deallocuvm` says so
      rw [hsz, Nat.zero_min, if_pos rfl]
      refine .inl ⟨rfl, rfl, fun v hv => hun.view_eq hv ?_⟩
      rw [hsz]
      exact fun hin => Nat.not_lt_zero v hin.2
    · have hplus := plus_of_nonneg h.lt hhi (by omega)
      have hmin : min p.sz (p.plus n) = p.plus n := by omega
      rw [hmin, if_neg (by omega)]
      exact hun.allOrNothing h hplus (by omega)
  · have hgrow : growproc L p 0 = pure (0, p) := by simp [growproc]
    refine Ensures.bind (R := fun a s' => a = (0, p) ∧ s' = s) (by rw [hgrow]; exact ⟨rfl, rfl⟩) ?_
    rintro _ _ ⟨rfl, rfl⟩
    refine .inr ⟨rfl, rfl, by simp, fun v hv => ?_, fun _ _ _ => rfl, fun v hge hlt => absurd hlt (Nat.not_lt.2 hge)⟩
    rw [isSome_view]
    exact h.mapped v hv
  · refine (growproc_grow h hpos hhi).bind fun a s' ⟨_, hr⟩ => ?_
    rcases hr with ⟨rfl, hsame⟩ | ⟨rfl, hkern, hgrown⟩
    · exact hsame.allOrNothing
    · have hplus := plus_of_nonneg h.lt hhi (by omega)
      exact hgrown.allOrNothing h hplus (by omega) hkern

/-- For a size that stays positive, and for a process that has no memory to give, `sbrk` does all or nothing. -/
theorem sbrk_all_or_nothing (h : Process L F p s) (hlo : -2 ^ 31 ≤ n) (hhi : n < 2 ^ 31)
    (hwhen : 0 ≤ n ∨ p.sz = 0 ∨ 0 < p.sz + n) :
    ∃ r p' s', sys_sbrk L p (some n) s = .ok ((r, p'), s') ∧ AllOrNothing p n s r p' s' := by
  obtain ⟨⟨r, p'⟩, s', hrun, hall⟩ := ensures_false_iff.1 (sys_sbrk_ensures h hlo hhi hwhen)
  exact ⟨r, p', s', hrun, hall⟩

/-- One page more. -/
theorem sbrk_all_or_nothing_page : ∃ r p' s',
    sys_sbrk smallKernel { pgdir := 258, sz := 0 } (some 4096) (emptyMachine 4) = .ok ((r, p'), s') ∧
    AllOrNothing { pgdir := 258, sz := 0 } 4096 (emptyMachine 4) r p' s' :=
  sbrk_all_or_nothing (emptyMachine_process 4 (by decide)) (by decide) (by decide) (.inl (by decide))

/-! ## A size that is not positive -/

theorem sys_sbrk_to_zero (h : Process L F p s) (hn : n < 0) (hzero : p.sz + n = 0) :
    Ensures (sys_sbrk L p (some n)) s (fun a s' => a = (-1, p) ∧ ∀ v < userPages, view s'.mem p.pgdir v = none) E := by
  have hplus : p.plus n = 0 := by
    unfold Size.plus
    omega
  refine (growproc_shrink h hn).bind ?_
  rintro _ s' ⟨-, hun, rfl⟩
  rw [hplus, Nat.min_zero, if_pos rfl]
  refine ⟨rfl, fun v hv => ?_⟩
  rw [view, hun.pte v (lt_of_lt_userPages hv)]
  split
  · rfl
  · rename_i hout
    rw [h.none hv]
    · rfl
    · rw [hplus] at hout
      unfold pagesOf PGSIZE at *
      omega

theorem sys_sbrk_below_zero (h : Process L F p s) (hlo : -2 ^ 31 ≤ n) (hneg : p.sz + n < 0) (hsz : 0 < p.sz) :
    sys_sbrk L p (some n) s = .ok ((p.sz, p), s) := by
  have hmin := le_plus_of_neg h.lt hlo hneg
  simp only [sys_sbrk, growproc, deallocuvm]
  rw [if_neg (by omega), if_pos (by omega), if_pos hmin, pure_bind, if_neg (by omega)]
  rfl

theorem Grown.process {sz : Nat} (hgrown : Grown F p.pgdir (pagesOf p.sz) (pagesOf sz) s s') (h : Process L F p s)
    (hspace : Space F [] p.pgdir s') (hle : p.sz ≤ sz) (hkern : sz < KERNBASE) : Process L F { p with sz } s' := by
  refine ⟨h.ram, hspace, hkern, fun v hv => ?_⟩
  have hall := hgrown.allOrNothing (n := sz - p.sz) h (by omega) hle hkern
  rcases hall with ⟨hneg, -⟩ | ⟨-, -, -, hmapped, -⟩
  · omega
  · rw [← isSome_view]
    exact hmapped v hv

theorem exists_process (sz n : Nat) (hsz : sz < KERNBASE) (hn : n + 2 * pagesOf sz ≤ 57000) :
    ∃ s, Process smallKernel (emptyPages (n + 2 * pagesOf sz)) { pgdir := 258, sz } s ∧ s.Ample n := by
  have hempty := emptyMachine_process (n + 2 * pagesOf sz) hn
  have hample : (emptyMachine (n + 2 * pagesOf sz)).Ample (n + 2 * (pagesOf sz - pagesOf 0)) := by
    refine ⟨fun _ => rfl, ?_⟩
    rw [emptyMachine, List.length_range']
    exact Nat.add_le_add_left (Nat.mul_le_mul_left 2 (Nat.sub_le _ _)) n
  have halloc : Ensures (allocuvm smallKernel 258 0 sz) (emptyMachine (n + 2 * pagesOf sz)) _ fun _ => False :=
    allocuvm_ensures hempty.ram hempty.space fun _ u hlo hhi =>
      hempty.none (Nat.lt_of_lt_of_le hhi (pagesOf_le (Nat.le_of_lt hsz))) hlo
  obtain ⟨_, s, -, hspace, ⟨-, -, hshort⟩ | ⟨hkern, -, hgrown, hleft⟩⟩ := ensures_false_iff.1 halloc
  · exact absurd hample (hshort hsz n)
  · exact ⟨s, hgrown.process hempty hspace (Nat.zero_le sz) hkern, hleft n hample⟩

theorem oneByte_process : ∃ s, Process smallKernel (emptyPages 4) { pgdir := 258, sz := 1 } s := by
  obtain ⟨s, hs, -⟩ := exists_process 1 2 (by decide) (by decide)
  exact ⟨s, hs⟩

/-- A process of one byte gives its byte back: `-1` is returned, and its page is gone.  It gives two back: that
succeeds, and its size is still 1. -/
theorem sbrk_slip : ∃ s, Process smallKernel (emptyPages 4) { pgdir := 258, sz := 1 } s ∧
    (∃ s', sys_sbrk smallKernel { pgdir := 258, sz := 1 } (some (-1)) s = .ok ((-1, { pgdir := 258, sz := 1 }), s') ∧
      (view s.mem 258 0).isSome ∧ view s'.mem 258 0 = none) ∧
    sys_sbrk smallKernel { pgdir := 258, sz := 1 } (some (-2)) s = .ok ((1, { pgdir := 258, sz := 1 }), s) := by
  obtain ⟨s, hs⟩ := oneByte_process
  refine ⟨s, hs, ?_, sys_sbrk_below_zero hs (by decide) (by decide) (by decide)⟩
  obtain ⟨_, s', hrun, rfl, hnone⟩ := ensures_false_iff.1 (sys_sbrk_to_zero (n := -1) hs (by decide) (by decide))
  refine ⟨s', hrun, ?_, hnone 0 (by decide)⟩
  rw [isSome_view]
  exact (hs.mapped 0 (by decide)).2 (by decide)

end Sbrk

end AsoPracticas.Xv6.Vm
