import AsoPracticas.Xv6.Sbrk
import AsoPracticas.Xv6.Umalloc

/-!
# Malloc — how much memory `malloc` gives

The size of a request goes through `nunits`, through the argument of `sbrk`, which is signed, and through the sum of a
size and that argument in `growproc`.  Up to 2³¹ − 16 bytes none of it overflows.  Above, `sbrk` is asked for a negative
number of bytes or for none, or the units wrap around to one.

* `sys_sbrk_size` — the system call does that;
* `malloc_enough` — what `malloc` returns up to that bound.
-/

namespace AsoPracticas.Xv6.Umalloc

open Vm (KERNBASE)

/-! ## The kernel -/

/-- The size that `allocuvm` returns; `memory` says whether the pages it needs are there. -/
def allocuvmSize (memory : Bool) (oldsz newsz : Nat) : Nat :=
  if newsz ≥ KERNBASE then 0
  else if newsz < oldsz then oldsz
  else if memory then newsz
  else 0

/-- The size that `deallocuvm` returns. -/
def deallocuvmSize (oldsz newsz : Nat) : Nat := if newsz ≥ oldsz then oldsz else newsz

/-- `growproc(n)` on a process of `sz` bytes: its size after the call, `none` if the call returns -1. -/
def growprocSize (memory : Bool) (sz : Nat) (n : Int) : Option Nat :=
  let newsz := ((sz + n) % 2 ^ 32).toNat
  if n > 0 then
    let sz := allocuvmSize memory sz newsz
    if sz = 0 then none else some sz
  else if n < 0 then
    let sz := deallocuvmSize sz newsz
    if sz = 0 then none else some sz
  else some sz

/-- `sys_sbrk`: the size before the call is the address it returns. -/
def sbrkSize (memory : Bool) (sz : Nat) (n : Int) : Option (Nat × Nat) :=
  (growprocSize memory sz n).map fun sz' => (sz, sz')

/-- The `int` with these bits. -/
def signed (n : Nat) : Int := (n : Int).bmod (2 ^ 32)

/-- `sbrk` in a user program. -/
def sbrk (memory : Bool) : Call := fun h n => sbrkSize memory h.brk (signed n)

/-- What `sys_sbrk` returns, and the process after it. -/
def sbrkResult (p : Vm.Size) : Option (Nat × Nat) → Int × Vm.Size
  | none => (-1, p)
  | some (addr, sz) => (addr, { p with sz })

section Kernel

variable {L : Vm.Layout} {F : Nat → Prop} {p : Vm.Size} {s : Vm.Machine} {n : Int}

theorem growproc_size (h : Vm.Process L F p s) (hhi : n < 2 ^ 31) :
    ∃ memory s', Vm.growproc L p n s =
      .ok (match growprocSize memory p.sz n with
        | none => (-1, p)
        | some sz => (0, { p with sz }), s') := by
  have hlt := h.lt
  rcases Int.lt_trichotomy n 0 with hneg | rfl | hpos
  · obtain ⟨a, s', hrun, -, -, rfl⟩ := Lib.ensures_false_iff.1 (Vm.growproc_shrink h hneg)
    have hsize : deallocuvmSize p.sz (p.plus n) = min p.sz (p.plus n) := by
      unfold deallocuvmSize
      split
      · omega
      · omega
    have hgrow : growprocSize true p.sz n =
        if min p.sz (p.plus n) = 0 then none else some (min p.sz (p.plus n)) := by
      rw [← hsize, growprocSize, if_neg (by omega), if_pos hneg]
      rfl
    refine ⟨true, s', ?_⟩
    rw [hrun, hgrow]
    split
    · rfl
    · rfl
  · exact ⟨true, s, rfl⟩
  · have hplus := Vm.plus_of_nonneg hlt hhi (by omega)
    obtain ⟨a, s', hrun, -, ⟨rfl, -⟩ | ⟨rfl, hkern, -⟩⟩ := Lib.ensures_false_iff.1 (Vm.growproc_grow h hpos hhi)
    · refine ⟨false, s', ?_⟩
      have hgrow : growprocSize false p.sz n = none := by
        rw [growprocSize, if_pos hpos]
        change (if allocuvmSize false p.sz (p.plus n) = 0 then none else _) = none
        grind [allocuvmSize]
      rw [hrun, hgrow]
    · refine ⟨true, s', ?_⟩
      have hsize : allocuvmSize true p.sz (p.plus n) = p.plus n := by
        unfold allocuvmSize
        rw [if_neg (Nat.not_le.2 hkern), if_neg (by omega), if_pos rfl]
      have hgrow : growprocSize true p.sz n = some (p.plus n) := by
        rw [growprocSize, if_pos hpos]
        change (if allocuvmSize true p.sz (p.plus n) = 0 then none else some (allocuvmSize true p.sz (p.plus n))) = _
        rw [hsize, if_neg (by omega)]
      rw [hrun, hgrow]

/-- The system call on page tables does what `sbrkSize` says, whether it finds its pages or not. -/
theorem sys_sbrk_size (h : Vm.Process L F p s) (hhi : n < 2 ^ 31) :
    ∃ memory s', Vm.sys_sbrk L p (some n) s = .ok (sbrkResult p (sbrkSize memory p.sz n), s') := by
  obtain ⟨memory, s', hrun⟩ := growproc_size h hhi
  refine ⟨memory, s', ?_⟩
  simp only [Vm.sys_sbrk, sbrkSize]
  cases hsize : growprocSize memory p.sz n with
  | none | some sz =>
    rw [hsize] at hrun
    simp only [bind, StateT.bind, hrun]
    rfl

/-- A process without pages asks for one. -/
theorem sys_sbrk_size_page : ∃ memory s',
    Vm.sys_sbrk Vm.smallKernel { pgdir := 258, sz := 0 } (some 4096) (Vm.emptyMachine 4) =
      .ok (sbrkResult { pgdir := 258, sz := 0 } (sbrkSize memory 0 4096), s') :=
  sys_sbrk_size (Vm.emptyMachine_process 4 (by decide)) (by decide)

end Kernel

theorem sbrk_fresh (memory : Bool) {h : Heap} (hbrk : h.brk < KERNBASE) : (sbrk memory).FreshAt h := by
  intro n p top hn hcall
  have hsigned : signed n = n := by
    unfold signed
    rw [Int.bmod_eq_of_le] <;> omega
  have hplus : ((h.brk + (n : Int)) % 2 ^ 32).toNat = h.brk + n := by
    unfold KERNBASE at hbrk
    omega
  unfold sbrk sbrkSize at hcall
  obtain ⟨sz, hsz, heq⟩ := Option.map_eq_some_iff.1 hcall
  obtain ⟨rfl, rfl⟩ := Prod.mk.inj heq
  refine ⟨le_rfl, ?_, ?_⟩
  · unfold KERNBASE at hbrk
    omega
  · unfold growprocSize at hsz
    rw [hsigned] at hsz
    split at hsz
    · have hsize : allocuvmSize memory h.brk (h.brk + n) = 0 ∨ allocuvmSize memory h.brk (h.brk + n) = h.brk + n := by
        unfold allocuvmSize
        grind
      grind
    grind

/-! ## `malloc` -/

/-- `nunits` does not overflow, and neither does the number of bytes that `morecore` asks for. -/
theorem nunits_eq {nbytes : Nat} (hn : nbytes ≤ 2 ^ 31 - 16) :
    Heap.nunits nbytes = (nbytes + 7) / 8 + 1 ∧ nbytes + 8 ≤ 8 * Heap.nunits nbytes ∧
      max (Heap.nunits nbytes) 4096 * 8 < 2 ^ 31 := by
  unfold Heap.nunits
  omega

/-- `malloc` has returned a pointer to at least `nbytes` bytes, in a block of its own in the memory that the process has
got from `sbrk`. -/
def Gives (base nbytes : Nat) (live : List Lib.Seg) (p : Nat) (h : Heap) : Prop :=
  ∃ b L, p = b.start + 8 ∧ p + nbytes ≤ b.stop ∧ h.bottom ≤ b.start ∧ b.stop ≤ h.brk ∧ Shape base h L (b :: live)

/-- Up to 2³¹ − 16 bytes `malloc` ends, and returns 0 or a block that is large enough; the process does not shrink, and
the sizes are computed without overflow. -/
theorem malloc_enough {base nbytes : Nat} {s : State} (memory : Bool) (hs : Inv base s)
    (hbrk : s.heap.brk < KERNBASE) (hn : nbytes ≤ 2 ^ 31 - 16) :
    (Heap.nunits nbytes = (nbytes + 7) / 8 + 1 ∧ max (Heap.nunits nbytes) 4096 * 8 < 2 ^ 31) ∧
      ∃ N p h', (∀ fuel, N ≤ fuel → s.heap.malloc base (sbrk memory) fuel nbytes = some (p, h')) ∧
        s.heap.brk ≤ h'.brk ∧ h'.bottom = s.heap.bottom ∧ (p = 0 ∨ Gives base nbytes s.live p h') := by
  obtain ⟨hunits, hlarge, hbytes⟩ := nunits_eq hn
  have hstart : (s.heap.start base).brk < KERNBASE := by
    unfold Heap.start
    split
    · exact hbrk
    · exact hbrk
  obtain ⟨N, hN⟩ := malloc_spec hs (sbrk_fresh memory hstart) hn
  refine ⟨⟨hunits, hbytes⟩, N, ?_⟩
  rcases hN N le_rfl with ⟨h', L, hr, hs', hgrows⟩ | ⟨b, h', L, hr, hlen, hs', hgrows⟩
  · exact ⟨0, h', fun fuel hfuel => Heap.find_mono hr hfuel, hgrows.1, hgrows.2, .inl rfl⟩
  · have hb : b ∈ L ++ b :: s.live := by simp
    have hhigh := hs'.high b hb
    have hlt := hs'.brk_lt
    have hstop : b.stop = b.start + b.len := rfl
    have hplus : plus b.start 1 = b.start + 8 := Heap.plus_eq (by omega)
    refine ⟨_, h', fun fuel hfuel => Heap.find_mono hr hfuel, hgrows.1, hgrows.2,
      .inr ⟨b, L, hplus, ?_, hs'.low b hb, hhigh, hs'⟩⟩
    omega

/-- `malloc(24)` in a program that has allocated nothing. -/
theorem malloc_enough_image : ∃ N p h', (∀ fuel, N ≤ fuel →
      image.init.heap.malloc image.base (sbrk true) fuel 24 = some (p, h')) ∧
    image.init.heap.brk ≤ h'.brk ∧ h'.bottom = 4096 ∧ (p = 0 ∨ Gives image.base 24 [] p h') :=
  (malloc_enough (s := image.init) true image.inv_init (by decide) (by decide)).2

/-- For 2³² − 1 bytes `malloc` returns a block of the size of its header; for 2³¹ bytes a block above all the memory of
the process; and for 2³² − 4096 bytes it gives back 4088 bytes of the 4096 that the process has. -/
theorem malloc_overflow :
    (∃ p h', image.init.heap.malloc image.base (sbrk true) 4 (2 ^ 32 - 1) = some (p, h') ∧ p ≠ 0 ∧
      (h'.block p).len = 8) ∧
    (∃ p h', image.init.heap.malloc image.base (sbrk true) 4 (2 ^ 31) = some (p, h') ∧ p ≠ 0 ∧ h'.brk < p) ∧
    ∃ p h', image.init.heap.malloc image.base (sbrk true) 4 (2 ^ 32 - 4096) = some (p, h') ∧
      h'.brk = 8 ∧ image.init.heap.brk = 4096 := by
  have hone : (image.init.heap.malloc image.base (sbrk true) 4 (2 ^ 32 - 1)).map
      (fun r => (decide (r.1 ≠ 0), (r.2.block r.1).len)) = some (true, 8) := by decide +kernel
  have htwo : (image.init.heap.malloc image.base (sbrk true) 4 (2 ^ 31)).map
      (fun r => (decide (r.1 ≠ 0), decide (r.2.brk < r.1))) = some (true, true) := by decide +kernel
  have hthree : (image.init.heap.malloc image.base (sbrk true) 4 (2 ^ 32 - 4096)).map
      (fun r => r.2.brk) = some 8 := by decide +kernel
  obtain ⟨⟨p, h⟩, hcall, hr⟩ := Option.map_eq_some_iff.1 hone
  obtain ⟨⟨p', h'⟩, hcall', hr'⟩ := Option.map_eq_some_iff.1 htwo
  obtain ⟨⟨p'', h''⟩, hcall'', hr''⟩ := Option.map_eq_some_iff.1 hthree
  obtain ⟨hne, hlen⟩ := Prod.mk.inj hr
  obtain ⟨hne', hlt⟩ := Prod.mk.inj hr'
  exact ⟨⟨p, h, hcall, of_decide_eq_true hne, hlen⟩,
    ⟨p', h', hcall', of_decide_eq_true hne', of_decide_eq_true hlt⟩, p'', h'', hcall'', hr'', rfl⟩

end AsoPracticas.Xv6.Umalloc
