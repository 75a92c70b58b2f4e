import Mathlib.Logic.Function.Basic
import Mathlib.Tactic

/-!
# Memmove — the memmove of the kernel and the one of the user library

`string.c` copies backwards where a forward copy would overwrite bytes that it still has to read.  `ulib.c` always
copies forwards, and counts in an `int`, which is less than 0 from `2 ^ 31` on.  Memory is a byte for each of the
`2 ^ 32` addresses, and pointers wrap around.

* `memmove_moves` — the kernel's version moves every range, the other one exactly those that stay where they are and
  those of less than `2 ^ 31` bytes that do not begin below the destination and reach into it;
* `memmove_overlap` — two bytes moved by one place, and a range of `2 ^ 31` bytes.
-/

namespace AsoPracticas.Xv6.Memmove

abbrev Memory := UInt32 → UInt8

/-- `while(n-- > 0) *d++ = *s++;` -/
def forward : (n : Nat) → (d s : UInt32) → Memory → Memory
  | 0, _, _, m => m
  | n + 1, d, s, m => forward n (d + 1) (s + 1) (Function.update m d (m s))

/-- `while(n-- > 0) *--d = *--s;` -/
def backward : (n : Nat) → (d s : UInt32) → Memory → Memory
  | 0, _, _, m => m
  | n + 1, d, s, m => backward n (d - 1) (s - 1) (Function.update m (d - 1) (m (s - 1)))

/-- `memmove` of `string.c` -/
def memmove (dst src n : UInt32) (m : Memory) : Memory :=
  if src < dst ∧ dst < src + n then backward n.toNat (dst + n) (src + n) m
  else forward n.toNat dst src m

/-- `memmove` of `ulib.c`; `n` has the bits of an `int`. -/
def ulibMemmove (dst src n : UInt32) (m : Memory) : Memory :=
  forward (if n.toNat < 2 ^ 31 then n.toNat else 0) dst src m

/-- From `m` to `m'` the `n` bytes at `src` have been moved to `dst`. -/
structure Moved (dst src : UInt32) (n : Nat) (m m' : Memory) : Prop where
  moved : ∀ i < n, m' (dst + UInt32.ofNat i) = m (src + UInt32.ofNat i)
  frame : ∀ a : UInt32, a.toNat < dst.toNat ∨ dst.toNat + n ≤ a.toNat → m' a = m a

theorem toNat_add_ofNat (d : UInt32) {i : Nat} (h : d.toNat + i < 2 ^ 32) :
    (d + UInt32.ofNat i).toNat = d.toNat + i := by
  rw [UInt32.toNat_add, UInt32.toNat_ofNat']
  omega

theorem add_one_add_ofNat (d : UInt32) (i : Nat) : d + 1 + UInt32.ofNat i = d + UInt32.ofNat (i + 1) := by
  apply UInt32.toNat_inj.1
  simp only [UInt32.toNat_add, UInt32.toNat_ofNat', UInt32.toNat_one]
  omega

theorem add_ofNat_sub_one (d : UInt32) (n : Nat) : d + UInt32.ofNat (n + 1) - 1 = d + UInt32.ofNat n := by
  apply UInt32.toNat_inj.1
  simp only [UInt32.toNat_sub, UInt32.toNat_add, UInt32.toNat_ofNat', UInt32.toNat_one]
  omega

theorem update_other (m : Memory) (d : UInt32) (v : UInt8) {a : UInt32} (h : a.toNat ≠ d.toNat) :
    Function.update m d v a = m a :=
  Function.update_of_ne (fun hda => h (congrArg UInt32.toNat hda)) _ _

/-- The next place; at the end of the address space it wraps, but then there is nothing left to copy. -/
theorem toNat_add_one (d : UInt32) : (d + 1).toNat = (d.toNat + 1) % 2 ^ 32 :=
  UInt32.toNat_add d 1

/-- Whether the ranges overlap or not, a copy writes into its destination only. -/
theorem forward_frame (n : Nat) (d s : UInt32) (m : Memory) (hd : d.toNat + n ≤ 2 ^ 32) (a : UInt32)
    (ha : a.toNat < d.toNat ∨ d.toNat + n ≤ a.toNat) : forward n d s m a = m a := by
  have hd1 := toNat_add_one d
  induction n generalizing d s m with
  | zero => rfl
  | succ n ih =>
    rw [forward, ih _ _ _ (by omega) (by omega) (toNat_add_one _), update_other _ _ _ (by omega)]

theorem forward_self (n : Nat) (d s : UInt32) (m : Memory) (hd : d.toNat + (n + 1) ≤ 2 ^ 32) :
    forward (n + 1) d s m d = m s := by
  have hd1 := toNat_add_one d
  rw [forward, forward_frame n _ _ _ (by omega) d (by omega), Function.update_self]

theorem forward_moved (n : Nat) (d s : UInt32) (m : Memory) (hd : d.toNat + n ≤ 2 ^ 32)
    (hs : s.toNat + n ≤ 2 ^ 32) (h : ¬ (s < d ∧ d.toNat < s.toNat + n)) :
    Moved d s n m (forward n d s m) := by
  refine ⟨?_, forward_frame n d s m hd⟩
  rw [UInt32.lt_iff_toNat_lt] at h
  induction n generalizing d s m with
  | zero => exact fun i hi => absurd hi (Nat.not_lt_zero i)
  | succ n ih =>
    have hd1 := toNat_add_one d
    have hs1 := toNat_add_one s
    intro i hi
    cases i with
    | zero => simpa using forward_self n d s m hd
    | succ i =>
      have hsi := toNat_add_ofNat s (i := i + 1) (by omega)
      have hstep := ih (d + 1) (s + 1) (Function.update m d (m s)) (by omega) (by omega) (by omega) i (by omega)
      rw [add_one_add_ofNat, add_one_add_ofNat, update_other _ _ _ (by omega)] at hstep
      exact hstep

/-- From a source below the destination the first bytes are repeated: each place gets what its source holds at the
end. -/
theorem forward_repeats (n : Nat) (d s : UInt32) (m : Memory) (hd : d.toNat + n ≤ 2 ^ 32)
    (h : 0 < n → s.toNat < d.toNat) :
    ∀ i < n, forward n d s m (d + UInt32.ofNat i) = forward n d s m (s + UInt32.ofNat i) := by
  induction n generalizing d s m with
  | zero => exact fun i hi => absurd hi (Nat.not_lt_zero i)
  | succ n ih =>
    have hd1 := toNat_add_one d
    have hs1 := toNat_add_one s
    intro i hi
    cases i with
    | zero =>
      have hdst := forward_self n d s m hd
      have hsrc := forward_frame (n + 1) d s m hd s (by omega)
      simpa using hdst.trans hsrc.symm
    | succ i =>
      have hstep := ih (d + 1) (s + 1) (Function.update m d (m s)) (by omega) (by omega) i (by omega)
      rwa [add_one_add_ofNat, add_one_add_ofNat] at hstep

theorem backward_moved (n : Nat) (d s : UInt32) (m : Memory) (hd : d.toNat + n ≤ 2 ^ 32)
    (hs : s.toNat + n ≤ 2 ^ 32) (h : s < d) :
    Moved d s n m (backward n (d + UInt32.ofNat n) (s + UInt32.ofNat n) m) := by
  rw [UInt32.lt_iff_toNat_lt] at h
  induction n generalizing m with
  | zero => exact ⟨fun i hi => absurd hi (Nat.not_lt_zero i), fun _ _ => rfl⟩
  | succ n ih =>
    simp only [backward, add_ofNat_sub_one]
    obtain ⟨hmoved, hframe⟩ := ih (Function.update m (d + UInt32.ofNat n) (m (s + UInt32.ofNat n)))
      (by omega) (by omega)
    have hdn := toNat_add_ofNat d (i := n) (by omega)
    constructor
    case moved =>
      intro i hi
      by_cases hin : i = n
      · subst hin
        rw [hframe _ (by omega), Function.update_self]
      · -- the source is below the destination: what is still to be read has not been written
        have hsi := toNat_add_ofNat s (i := i) (by omega)
        rw [hmoved i (by omega), update_other _ _ _ (by omega)]
    case frame =>
      intro a ha
      rw [hframe a (by omega), update_other _ _ _ (by omega)]

/-- For all ranges inside the address space the kernel's `memmove` moves the bytes. -/
theorem memmove_moved (dst src n : UInt32) (m : Memory) (hdst : dst.toNat + n.toNat ≤ 2 ^ 32)
    (hsrc : src.toNat + n.toNat ≤ 2 ^ 32) : Moved dst src n.toNat m (memmove dst src n m) := by
  have hend : (src + n).toNat = (src.toNat + n.toNat) % 2 ^ 32 := UInt32.toNat_add src n
  unfold memmove
  split
  case isTrue hback =>
    have hmoved := backward_moved n.toNat dst src m hdst hsrc hback.1
    rwa [UInt32.ofNat_toNat] at hmoved
  case isFalse hforth =>
    -- the sum wraps only if the source ends with the address space, and then the destination is not above it
    refine forward_moved n.toNat dst src m hdst hsrc fun hover => hforth ⟨hover.1, ?_⟩
    rw [UInt32.lt_iff_toNat_lt] at hover ⊢
    omega

/-- A byte 1 in one place, and zeros. -/
def oneByte (p : UInt32) : Memory := fun a => if a = p then 1 else 0

/-- From a count that is negative as an `int` on, nothing is copied. -/
theorem not_moved_of_negative (dst src n : UInt32) (hn : ¬ n.toNat < 2 ^ 31) (hne : dst ≠ src) :
    ¬ Moved dst src n.toNat (oneByte src) (ulibMemmove dst src n (oneByte src)) := by
  intro hmoved
  have hfirst := hmoved.moved 0 (by omega)
  rw [ulibMemmove, if_neg hn] at hfirst
  simp [forward, oneByte, hne] at hfirst

/-- A destination inside the source gets its own first byte once more, where the second copy of it should be 0. -/
theorem not_moved_of_overlap (dst src : UInt32) (n : Nat) (hdst : dst.toNat + n ≤ 2 ^ 32)
    (h : src < dst ∧ dst.toNat < src.toNat + n) :
    ¬ Moved dst src n (oneByte src) (forward n dst src (oneByte src)) := by
  intro hmoved
  obtain ⟨hlt, hin⟩ := h
  rw [UInt32.lt_iff_toNat_lt] at hlt
  -- the destination is `k` places above the source
  obtain ⟨k, hk⟩ := Nat.exists_eq_add_of_lt hlt
  have hsrc : src + UInt32.ofNat (k + 1) = dst :=
    UInt32.toNat_inj.1 ((toNat_add_ofNat src (by omega)).trans (by omega))
  have hne : dst ≠ src := fun he => absurd (congrArg UInt32.toNat he) (by omega)
  have hfirst := hmoved.moved 0 (by omega)
  have hsecond := hmoved.moved (k + 1) (by omega)
  have hrepeat := forward_repeats n dst src (oneByte src) hdst (fun _ => hlt) (k + 1) (by omega)
  rw [hsecond, hsrc] at hrepeat
  simp [oneByte, hne] at hfirst hrepeat
  exact absurd (hrepeat.trans hfirst) (by decide)

/-- For all ranges inside the address space the kernel's `memmove` moves the bytes.  The one of the user library does
so in every memory exactly if the range stays where it is, or if the count is not negative as an `int` and the source
does not reach into the destination from below. -/
theorem memmove_moves (dst src n : UInt32) (hdst : dst.toNat + n.toNat ≤ 2 ^ 32)
    (hsrc : src.toNat + n.toNat ≤ 2 ^ 32) :
    (∀ m, Moved dst src n.toNat m (memmove dst src n m)) ∧
      ((∀ m, Moved dst src n.toNat m (ulibMemmove dst src n m)) ↔
        dst = src ∨ n.toNat < 2 ^ 31 ∧ ¬ (src < dst ∧ dst.toNat < src.toNat + n.toNat)) := by
  refine ⟨fun m => memmove_moved dst src n m hdst hsrc, fun hall => ?_, ?_⟩
  · refine or_iff_not_imp_left.2 fun hne => ?_
    have hn : n.toNat < 2 ^ 31 := by_contra fun hn => not_moved_of_negative dst src n hn hne (hall _)
    refine ⟨hn, fun hover => not_moved_of_overlap dst src n.toNat hdst hover ?_⟩
    simpa only [ulibMemmove, if_pos hn] using hall (oneByte src)
  · rintro (rfl | ⟨hn, hforth⟩) m
    · -- a range that stays where it is: what was copied and what was not are the same
      by_cases hn : n.toNat < 2 ^ 31
      · rw [ulibMemmove, if_pos hn]
        exact forward_moved n.toNat dst dst m hdst hsrc fun hover => UInt32.lt_irrefl _ hover.1
      · rw [ulibMemmove, if_neg hn]
        exact ⟨fun _ _ => rfl, fun _ _ => rfl⟩
    · rw [ulibMemmove, if_pos hn]
      exact forward_moved n.toNat dst src m hdst hsrc hforth

/-- The bytes 5, 6 and 7, and zeros. -/
def someBytes : Memory := fun a => if a.toNat < 3 then 5 + a.toUInt8 else 0

theorem memmove_moves_three :
    Moved 0 1 2 someBytes (memmove 0 1 2 someBytes) ∧ Moved 0 1 2 someBytes (ulibMemmove 0 1 2 someBytes) := by
  obtain ⟨hkernel, hulib⟩ := memmove_moves 0 1 2 (by decide) (by decide)
  exact ⟨hkernel someBytes, hulib.2 (.inr (by decide)) someBytes⟩

/-- Moved up by one place, the second byte is overwritten before it is read; and nothing is moved for a count that is
negative as an `int`. -/
theorem memmove_overlap : ¬ Moved 1 0 2 someBytes (ulibMemmove 1 0 2 someBytes) ∧
    ¬ Moved 0 0x80000000 0x80000000 (oneByte 0x80000000)
      (ulibMemmove 0 0x80000000 0x80000000 (oneByte 0x80000000)) := by
  constructor
  · intro h
    exact absurd (h.moved 1 (by decide)) (by decide)
  · exact not_moved_of_negative 0 0x80000000 0x80000000 (by decide) (by decide)

end AsoPracticas.Xv6.Memmove
