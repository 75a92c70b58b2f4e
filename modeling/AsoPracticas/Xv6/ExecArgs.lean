import AsoPracticas.Xv6.ExecLoad

/-!
# ExecArgs — the arguments on the stack

`exec` pushes the strings downwards from the end of the stack page, each at an aligned address, and below them the
frame that `main` finds.  As long as there is room, the pointers are `pointers sz argv`.  A string for which there is
no room is copied to an address below the stack page, where the guard page stops `copyout`, or, since the subtraction
wraps around, above `KERNBASE`, where no page is for the user.  There `copyout` fails as well, except for the addresses
between the end of the mapped memory and the devices, which have no page table: `uva2ka` reads its entry at a null
pointer.
-/

namespace AsoPracticas.Xv6.Vm

open Lib
open Function (update update_of_ne update_self)

/-- The addresses above `KERNBASE` that have no page table. -/
def Hole (a : Nat) : Prop := KERNBASE + PHYSTOP ≤ a ∧ a < DEVSPACE

instance (a : Nat) : Decidable (Hole a) := inferInstanceAs (Decidable (_ ∧ _))

section ExecArgs

variable {F : Nat → Prop} {d n va : Nat} {s s' : Machine} {E : Stop → Prop} {buf : List UInt8} {m : Nat → Page}
  {argv : List (List UInt8)}

/-! ## `copyout` to the pages of a program -/

theorem Written.stacked {start : Nat} (hwritten : Written F [] d start buf s s') (h : Stacked F d n s)
    (hspace : Space F [] d s') : Stacked F d n s' := by
  refine ⟨hspace, hwritten.kernel h.kernel, h.lt, fun v hv hvn => ?_, ?_, fun v hv hge => ?_⟩
  · rw [hwritten.forUser]
    exact h.user v hv hvn
  · rw [hwritten.pteOf_eq]
    exact h.guard
  · rw [hwritten.pteOf_eq, h.none v hv hge]

theorem Stacked.not_forUser (h : Stacked F d n s) : ¬ ForUser s.mem d n := by
  rintro ⟨w, hw, huser⟩
  grind

theorem Stacked.lt_two_pow (h : Stacked F d n s) {a : Nat} (ha : a ≤ (n + 2) * PGSIZE) : a < 2 ^ 32 :=
  Nat.lt_of_le_of_lt ha (Nat.lt_trans h.lt (by decide))

theorem copyout_stack (h : Stacked F d n s) (hlo : (n + 1) * PGSIZE ≤ va) (hhi : va + buf.length ≤ (n + 2) * PGSIZE) :
    Ensures (copyout d va buf) s (fun r s' => r = 0 ∧ Stacked F d n s' ∧ Written F [] d va buf s s') E := by
  have huser : ∀ k < buf.length, ForUser s.mem d ((va + k) / PGSIZE) := by
    intro k hk
    have hpage : (va + k) / PGSIZE = n + 1 := by
      unfold PGSIZE at *
      omega
    rw [hpage]
    exact h.user (n + 1) (by omega) (by omega)
  refine ((copyout_ensures h.space h.kernel (h.lt_two_pow (by omega)) buf).mono ?_).mono_stop ?_
  · rintro r s' ⟨k, hreach, hspace, hwritten, ⟨rfl, rfl⟩ | ⟨-, hlt, -⟩⟩
    · rw [List.take_length] at hwritten
      exact ⟨rfl, hwritten.stacked h hspace, hwritten⟩
    · exact absurd (huser k hlt) (hreach.refused hlt)
  · rintro e ⟨-, k, hlt, hreach, -⟩
    exact absurd (huser k hlt) (hreach.refused hlt)

theorem copyout_refused (h : Stacked F d n s) (hlo : va < (n + 1) * PGSIZE) (hhi : n * PGSIZE < va + buf.length)
    (hpos : 0 < buf.length) : Ensures (copyout d va buf) s (fun r s' =>
      r = -1 ∧ Space F [] d s' ∧ ∀ f, ¬ F f → s'.mem f = s.mem f) E := by
  have hguard : ¬ ForUser s.mem d ((va + (n * PGSIZE - va)) / PGSIZE) := by
    have hpage : (va + (n * PGSIZE - va)) / PGSIZE = n := by
      unfold PGSIZE at *
      omega
    rw [hpage]
    exact h.not_forUser
  -- the first page that is refused is the guard page
  have hpage : ∀ k < buf.length, Reaches s.mem d va buf.length k → (va + k) / PGSIZE = n := by
    intro k hk hreach
    by_contra hne
    grind [PGSIZE]
  refine ((copyout_ensures h.space h.kernel (h.lt_two_pow ?_) buf).mono ?_).mono_stop ?_
  · rw [Nat.add_mul] at *
    omega
  · rintro r s' ⟨k, hreach, hspace, hwritten, ⟨-, rfl⟩ | ⟨rfl, -, -⟩⟩
    · exact absurd (hreach.user (n * PGSIZE - va) (by omega)) hguard
    · exact ⟨rfl, hspace, hwritten.outside⟩
  · rintro e ⟨-, k, hlt, hreach, hnone⟩
    obtain ⟨w, hw, -⟩ := h.guard
    rw [hpage k hlt hreach] at hnone
    rw [pteOf_of_no_table hnone] at hw
    cases hw

theorem copyout_kernel (h : Stacked F d n s) (hlo : KERNBASE ≤ va) (hhi : va < 2 ^ 32) (hpos : 0 < buf.length) :
    Ensures (copyout d va buf) s (fun r s' => ¬ Hole va ∧ r = -1 ∧ Space F [] d s' ∧ ∀ f, ¬ F f → s'.mem f = s.mem f)
      fun e => Hole va ∧ e = .nullPte := by
  have hno : ¬ ForUser s.mem d (va / PGSIZE) := by
    intro huser
    have hlt := huser.lt h.kernel (page_lt hhi)
    rw [div_lt_iff] at hlt
    exact absurd hlo (Nat.not_le.2 hlt)
  have hzero : ∀ k, Reaches s.mem d va buf.length k → k = 0 := by
    intro k hreach
    by_contra hk
    exact hno (hreach.user 0 (Nat.pos_of_ne_zero hk))
  have htable : (tableOf s.mem d (va / PGSIZE / 1024)).isSome ↔ ¬ Hole va := by
    grind [KERNBASE, Hole, PHYSTOP, DEVSPACE, NPDENTRIES, PGSIZE, userPages]
  refine ((copyout_ensures h.space h.kernel hhi buf).mono ?_).mono_stop ?_
  · rintro r s' ⟨k, hreach, hspace, hwritten, ⟨-, rfl⟩ | ⟨rfl, -, hsome⟩⟩
    all_goals grind
  · rintro e ⟨rfl, k, -, hreach, hnone⟩
    grind

theorem copyout_hole (h : Stacked F d n s) (hhole : Hole va) (hpos : 0 < buf.length) :
    copyout d va buf s = .error .nullPte := by
  have hlo : KERNBASE ≤ va := Nat.le_trans (Nat.le_add_right _ _) hhole.1
  have hhi : va < 2 ^ 32 := Nat.lt_trans hhole.2 (by decide)
  obtain ⟨e, hrun, -, rfl⟩ := ensures_stop_iff.1 ((copyout_kernel h hlo hhi hpos).mono fun _ _ hno => hno.1 hhole)
  exact hrun

/-! ## The strings -/

/-- The room a string takes: its bytes and the `NUL`, up to a multiple of four. -/
def room (arg : List UInt8) : Nat := (arg.length + 4) / 4 * 4

/-- Where the strings begin if they are pushed from `sp` on. -/
def pointers : (sp : Nat) → (argv : List (List UInt8)) → List Nat
  | _, [] => []
  | sp, arg :: argv => (sp - room arg) :: pointers (sp - room arg) argv

/-- The first string for which there is no room above `base` would be pushed to an address without a page table. -/
def Falls (base : Nat) : (sp : Nat) → (argv : List (List UInt8)) → Prop
  | _, [] => False
  | sp, arg :: argv =>
    if base + room arg ≤ sp then Falls base (sp - room arg) argv else Hole (minus sp (arg.length + 1) / 4 * 4)

def Holds (m : Nat → Page) (d a : Nat) (bytes : List UInt8) : Prop :=
  ∀ j < bytes.length, byteAt m d (a + j) = some (bytes.getD j 0)

theorem Written.holds {start : Nat} (h : Written F [] d start buf s s') (hle : start + buf.length ≤ KERNBASE) :
    Holds s'.mem d start buf := by
  intro j hj
  rw [h.byte _ (by omega), if_pos (by omega), Nat.add_sub_cancel_left]

theorem Holds.congr {m m' : Nat → Page} {a : Nat} (h : Holds m d a buf)
    (hsame : ∀ j < buf.length, byteAt m' d (a + j) = byteAt m d (a + j)) : Holds m' d a buf := by
  intro j hj
  rw [hsame j hj, h j hj]

theorem minus_of_room {base sp : Nat} {arg : List UInt8} (hsp : sp % 4 = 0) (hle : sp < 2 ^ 32)
    (hroom : base + room arg ≤ sp) : minus sp (arg.length + 1) / 4 * 4 = sp - room arg := by
  unfold minus
  unfold room at *
  omega

theorem minus_of_no_room {base sp : Nat} {arg : List UInt8} (hsp : sp % 4 = 0) (hbase : base % 4 = 0) (hle : base ≤ sp)
    (hlt : sp < KERNBASE) (hlen : arg.length < KERNBASE) (hroom : sp < base + room arg) :
    (minus sp (arg.length + 1) / 4 * 4 < base ∧ base < minus sp (arg.length + 1) / 4 * 4 + (arg.length + 1) + 4) ∨
    (KERNBASE ≤ minus sp (arg.length + 1) / 4 * 4 ∧ minus sp (arg.length + 1) / 4 * 4 < 2 ^ 32) := by
  unfold minus
  unfold room at *
  unfold KERNBASE at *
  omega

theorem pushLoop_ensures (argv : List (List UInt8)) (argc sp : Nat) (ustack : Nat → Nat) (s : Machine)
    (h : Stacked F d n s) (hsp : sp % 4 = 0) (hlo : (n + 1) * PGSIZE ≤ sp) (hhi : sp ≤ (n + 2) * PGSIZE)
    (hargc : argc + argv.length ≤ MAXARG) (hlen : ∀ arg ∈ argv, arg.length < KERNBASE) :
    Ensures (pushLoop d argv argc sp ustack) s (fun r s' => (∀ f, ¬ F f → s'.mem f = s.mem f) ∧
      ¬ Falls ((n + 1) * PGSIZE) sp argv ∧
      match r with
      | none => Space F [] d s' ∧ sp < (n + 1) * PGSIZE + (argv.map room).sum
      | some (argc', sp', ustack') => argc' = argc + argv.length ∧ sp = sp' + (argv.map room).sum ∧
          (n + 1) * PGSIZE ≤ sp' ∧ Stacked F d n s' ∧
          (∀ a < KERNBASE, a < sp' ∨ sp ≤ a → byteAt s'.mem d a = byteAt s.mem d a) ∧
          List.Forall₂ (fun p arg => sp' ≤ p ∧ p + (arg.length + 1) ≤ sp ∧ Holds s'.mem d p (arg ++ [0]))
            (pointers sp argv) argv ∧
          ∀ i, ustack' i = if 3 + argc ≤ i ∧ i < 3 + argc + argv.length then (pointers sp argv).getD (i - (3 + argc)) 0
            else ustack i)
      (fun e => Falls ((n + 1) * PGSIZE) sp argv ∧ e = .nullPte) := by
  induction argv generalizing argc sp ustack s with
  | nil =>
    refine ⟨fun _ _ => rfl, not_false, rfl, rfl, hlo, h, fun _ _ _ => rfl, .nil, fun i => ?_⟩
    rw [if_neg]
    rw [List.length_nil]
    omega
  | cons arg argv ih =>
    have hnul : (arg ++ [0]).length = arg.length + 1 := by rw [List.length_append, List.length_singleton]
    have hlt := h.lt
    rw [List.length_cons] at hargc
    unfold pushLoop
    rw [if_neg (by omega)]
    by_cases hroom : (n + 1) * PGSIZE + room arg ≤ sp
    · -- the string, then the others below it
      have hle : arg.length + 1 ≤ room arg := by
        unfold room
        omega
      have hfalls : Falls ((n + 1) * PGSIZE) sp (arg :: argv) ↔ Falls ((n + 1) * PGSIZE) (sp - room arg) argv := by
        rw [Falls, if_pos hroom]
      rw [minus_of_room hsp (h.lt_two_pow hhi) hroom, hfalls]
      refine (copyout_stack h (by omega) (by omega)).bind ?_
      rintro _ s1 ⟨rfl, hstacked, hwritten⟩
      rw [if_neg (by decide), store, if_pos (by omega), pure_bind]
      refine (ih (argc + 1) (sp - room arg) _ s1 hstacked (by unfold room; omega) (by omega) (by omega) (by omega)
        fun arg' harg' => hlen arg' (List.mem_cons_of_mem arg harg')).mono fun r s' ⟨hout, hno, hr⟩ =>
          ⟨fun f hf => (hout f hf).trans (hwritten.outside f hf), hno, ?_⟩
      rw [List.map_cons, List.sum_cons, List.length_cons]
      cases r with
      | none => exact ⟨hr.1, by have := hr.2; omega⟩
      | some r =>
        obtain ⟨argc', sp', ustack'⟩ := r
        obtain ⟨hargc', hsp', hlo', hstacked', hbytes, hholds, hustack⟩ := hr
        refine ⟨by omega, by omega, hlo', hstacked', fun a ha hout => ?_, .cons ?_ ?_, fun i => ?_⟩
        · rw [hbytes a ha (by omega), hwritten.byte a ha, if_neg (by omega)]
        · refine ⟨by omega, by omega, (hwritten.holds (by omega)).congr fun j hj => ?_⟩
          exact hbytes _ (by omega) (.inr (by omega))
        · exact hholds.imp fun p arg' ⟨hge, hle', hh⟩ => ⟨hge, by omega, hh⟩
        · rw [hustack i, pointers]
          by_cases hlater : 3 + (argc + 1) ≤ i ∧ i < 3 + (argc + 1) + argv.length
          · rw [if_pos hlater, if_pos (by omega), show i - (3 + argc) = i - (3 + (argc + 1)) + 1 by omega,
              List.getD_cons_succ]
          · rw [if_neg hlater]
            by_cases hself : i = 3 + argc
            · rw [if_pos (by omega), hself, update_self, Nat.sub_self, List.getD_cons_zero]
            · rw [if_neg (by omega), update_of_ne hself]
    · -- no room: to the guard page, or above `KERNBASE`
      rw [Nat.not_le] at hroom
      have hsum : sp < (n + 1) * PGSIZE + ((arg :: argv).map room).sum := by
        rw [List.map_cons, List.sum_cons]
        omega
      have hfalls : Falls ((n + 1) * PGSIZE) sp (arg :: argv) ↔ Hole (minus sp (arg.length + 1) / 4 * 4) := by
        rw [Falls, if_neg (Nat.not_le.2 hroom)]
      have hbase : (n + 1) * PGSIZE % 4 = 0 := by
        unfold PGSIZE
        omega
      rw [hfalls]
      rcases minus_of_no_room hsp hbase hlo (by omega) (hlen arg List.mem_cons_self) hroom with
        ⟨hbelow, habove⟩ | ⟨hge, hlt32⟩
      · have hno : ¬ Hole (minus sp (arg.length + 1) / 4 * 4) := fun hhole => absurd hhole.1 (by omega)
        have hguard : n * PGSIZE < minus sp (arg.length + 1) / 4 * 4 + (arg ++ [0]).length := by
          have hsize : 4 < PGSIZE := by decide
          rw [Nat.add_mul, Nat.one_mul] at habove
          omega
        refine (copyout_refused h hbelow hguard (by omega)).bind ?_
        rintro _ s' ⟨rfl, hspace, hout⟩
        rw [if_pos (by decide)]
        exact ⟨hout, hno, hspace, hsum⟩
      · refine (copyout_kernel h hge hlt32 (by omega)).bind ?_
        rintro _ s' ⟨hno, rfl, hspace, hout⟩
        rw [if_pos (by decide)]
        exact ⟨hout, hno, hspace, hsum⟩

/-! ## The frame -/

def wordAt (m : Nat → Page) (d a : Nat) : Option Nat := do
  let b0 ← byteAt m d a
  let b1 ← byteAt m d (a + 1)
  let b2 ← byteAt m d (a + 2)
  let b3 ← byteAt m d (a + 3)
  return (le32 b0 b1 b2 b3).toNat

theorem length_bytes32 (w : Nat) : (bytes32 w).length = 4 := by
  rw [bytes32, List.length_map, List.length_range]

theorem Holds.wordAt {a w : Nat} (h : Holds m d a (bytes32 w)) (hw : w < 2 ^ 32) :
    wordAt m d a = some w := by
  have hbyte : ∀ j < 4, byteAt m d (a + j) = some (byte32 (UInt32.ofNat w) j) := by
    intro j hj
    rw [h j (by rw [length_bytes32]; exact hj), bytes32, List.getD_eq_getElem?_getD, List.getElem?_map,
      List.getElem?_range hj]
    rfl
  have h0 := hbyte 0 (by decide)
  rw [Nat.add_zero] at h0
  rw [Vm.wordAt, h0, hbyte 1 (by decide), hbyte 2 (by decide), hbyte 3 (by decide)]
  simp only [Option.bind_eq_bind, Option.bind_some, le32_byte32, UInt32.toNat_ofNat', Nat.mod_eq_of_lt hw]
  rfl

theorem length_words (f : Nat → Nat) (k : Nat) : ((List.range k).flatMap fun i => bytes32 (f i)).length = 4 * k := by
  induction k with
  | zero => rfl
  | succ k ih =>
    rw [List.range_succ, List.flatMap_append, List.length_append, ih, List.flatMap_singleton, length_bytes32]
    omega

theorem Holds.word {a k : Nat} {f : Nat → Nat}
    (h : Holds m d a ((List.range k).flatMap fun i => bytes32 (f i))) {i : Nat} (hi : i < k) :
    Holds m d (a + 4 * i) (bytes32 (f i)) := by
  induction k with
  | zero => exact absurd hi (Nat.not_lt_zero i)
  | succ k ih =>
    have hlen := length_words f k
    rw [List.range_succ, List.flatMap_append, List.flatMap_singleton] at h
    by_cases hik : i = k
    · subst hik
      intro j hj
      have hbyte := h (4 * i + j) (by rw [List.length_append]; omega)
      rw [List.getD_append_right _ _ _ _ (by omega), hlen, Nat.add_sub_cancel_left, ← Nat.add_assoc] at hbyte
      exact hbyte
    · refine ih (fun j hj => ?_) (by omega)
      rw [h j (by rw [List.length_append]; omega), List.getD_append _ _ _ _ hj]

/-- The areas that the arguments take: where they begin, and how long they are. -/
def areas (esp : Nat) (ptrs : List Nat) (argv : List (List UInt8)) : List (Nat × Nat) :=
  (esp, 4 * (3 + argv.length + 1)) :: List.zipWith (fun p arg => (p, arg.length + 1)) ptrs argv

/-- What a program finds on its stack, the page `n + 1`, at `esp`: a return address that is none, `argc`, and a pointer
to `argc + 1` words, the last one 0 and each other a pointer to a string. -/
@[grind cases eager]
structure Encodes (m : Nat → Page) (d n esp : Nat) (argv : List (List UInt8)) (ptrs : List Nat) : Prop where
  aligned : esp % 4 = 0
  pc : wordAt m d esp = some 0xffffffff
  argc : wordAt m d (esp + 4) = some argv.length
  vector : wordAt m d (esp + 8) = some (esp + 12)
  pointer : ∀ i < argv.length, wordAt m d (esp + 12 + 4 * i) = some (ptrs.getD i 0)
  last : wordAt m d (esp + 12 + 4 * argv.length) = some 0
  strings : List.Forall₂ (fun p arg => Holds m d p (arg ++ [0])) ptrs argv
  disjoint : (areas esp ptrs argv).Pairwise fun x y => x.1 + x.2 ≤ y.1 ∨ y.1 + y.2 ≤ x.1
  inside : ∀ x ∈ areas esp ptrs argv, (n + 1) * PGSIZE ≤ x.1 ∧ x.1 + x.2 ≤ (n + 2) * PGSIZE

theorem Encodes.strings_inside {esp : Nat} {ptrs : List Nat}
    (h : Encodes m d n esp argv ptrs) : List.Forall₂ (fun p arg => p + (arg.length + 1) ≤ (n + 2) * PGSIZE ∧
      Holds m d p (arg ++ [0])) ptrs argv := by
  have hinside : ∀ x ∈ List.zipWith (fun p arg => (p, arg.length + 1)) ptrs argv, x.1 + x.2 ≤ (n + 2) * PGSIZE :=
    fun x hx => (h.inside x (List.mem_cons_of_mem _ hx)).2
  have hstrings := h.strings
  clear h
  induction hstrings with
  | nil => exact .nil
  | cons hholds _ ih =>
    rw [List.zipWith_cons_cons, List.forall_mem_cons] at hinside
    exact .cons ⟨hinside.1, hholds⟩ (ih hinside.2)

def encodedSize (argv : List (List UInt8)) : Nat := (argv.map room).sum + 4 * (3 + argv.length + 1)

theorem areas_pointers (argv : List (List UInt8)) (sp low : Nat) (h : sp = low + (argv.map room).sum) :
    (List.zipWith (fun p arg => (p, arg.length + 1)) (pointers sp argv) argv).Pairwise (fun x y => y.1 + y.2 ≤ x.1) ∧
    ∀ x ∈ List.zipWith (fun p arg => (p, arg.length + 1)) (pointers sp argv) argv, low ≤ x.1 ∧ x.1 + x.2 ≤ sp := by
  induction argv generalizing sp with
  | nil => exact ⟨.nil, fun x hx => nomatch hx⟩
  | cons arg argv ih =>
    rw [List.map_cons, List.sum_cons] at h
    obtain ⟨hpair, hall⟩ := ih (sp - room arg) (by omega)
    have hroom : arg.length + 1 ≤ room arg := by
      unfold room
      omega
    rw [pointers, List.zipWith_cons_cons]
    refine ⟨List.pairwise_cons.2 ⟨fun y hy => (hall y hy).2, hpair⟩, ?_⟩
    grind

theorem sum_room_mod (argv : List (List UInt8)) : (argv.map room).sum % 4 = 0 := by
  induction argv with
  | nil => rfl
  | cons arg argv ih =>
    rw [List.map_cons, List.sum_cons]
    unfold room at *
    omega

theorem minus_of_le {sp k : Nat} (hle : k ≤ sp) (hlt : sp < 2 ^ 32) : minus sp k = sp - k := by
  unfold minus
  omega

theorem pointers_le (sp : Nat) (argv : List (List UInt8)) (i : Nat) : (pointers sp argv).getD i 0 ≤ sp := by
  induction argv generalizing sp i with
  | nil => exact Nat.zero_le sp
  | cons arg argv ih =>
    cases i with
    | zero =>
      exact Nat.sub_le sp _
    | succ i =>
      exact Nat.le_trans (ih _ i) (Nat.sub_le sp _)

/-- The words of the frame, as `ustack` has them at the end. -/
@[grind cases eager]
structure Frame (f : Nat → Nat) (esp : Nat) (argv : List (List UInt8)) (ptrs : List Nat) : Prop where
  pc : f 0 = 0xffffffff
  argc : f 1 = argv.length
  vector : f 2 = esp + 12
  pointer : ∀ i < argv.length, f (3 + i) = ptrs.getD i 0
  last : f (3 + argv.length) = 0

theorem Frame.encodes {f : Nat → Nat} {esp top : Nat} (sp : Nat)
    (hf : Frame f esp argv (pointers top argv)) (hesp : esp % 4 = 0) (hlo : (n + 1) * PGSIZE ≤ esp)
    (hsp : sp = esp + 4 * (3 + argv.length + 1)) (htop : top = sp + (argv.map room).sum)
    (hhi : top = (n + 2) * PGSIZE) (hlt : top < 2 ^ 32)
    (hwords : Holds m d esp ((List.range (3 + argv.length + 1)).flatMap fun i => bytes32 (f i)))
    (hstrings : List.Forall₂ (fun p arg => Holds m d p (arg ++ [0])) (pointers top argv) argv) :
    Encodes m d n esp argv (pointers top argv) := by
  obtain ⟨hpair, hall⟩ := areas_pointers argv top sp htop
  have hword : ∀ i < 3 + argv.length + 1, f i < 2 ^ 32 → wordAt m d (esp + 4 * i) = some (f i) :=
    fun i hi hlt => (hwords.word hi).wordAt hlt
  refine ⟨hesp, ?_, ?_, ?_, fun i hi => ?_, ?_, hstrings, ?_, ?_⟩
  · grind
  · grind
  · grind
  · grind [pointers_le]
  · grind
  · refine List.pairwise_cons.2 ⟨fun x hx => .inl ?_, hpair.imp .inr⟩
    have := (hall x hx).1
    simp only
    omega
  · rw [areas, List.forall_mem_cons]
    grind

theorem pushArgs_ensures (h : Stacked F d n s) (hargc : argv.length < MAXARG)
    (hlen : ∀ arg ∈ argv, arg.length < KERNBASE) (junk : Nat → Nat) :
    Ensures (pushArgs d ((n + 2) * PGSIZE) argv junk) s (fun r s' => (∀ f, ¬ F f → s'.mem f = s.mem f) ∧
      ¬ Falls ((n + 1) * PGSIZE) ((n + 2) * PGSIZE) argv ∧
      match r with
      | none => Space F [] d s' ∧ PGSIZE < encodedSize argv
      | some esp => Stacked F d n s' ∧ encodedSize argv ≤ PGSIZE ∧
          (∀ a < (n + 1) * PGSIZE, byteAt s'.mem d a = byteAt s.mem d a) ∧
          Encodes s'.mem d n esp argv (pointers ((n + 2) * PGSIZE) argv))
      (fun e => Falls ((n + 1) * PGSIZE) ((n + 2) * PGSIZE) argv ∧ e = .nullPte) := by
  have hlt := h.lt
  have hpage : (n + 2) * PGSIZE = (n + 1) * PGSIZE + PGSIZE := by
    rw [Nat.add_mul, Nat.add_mul]
    omega
  have haligned : (n + 2) * PGSIZE % 4 = 0 := by
    unfold PGSIZE
    omega
  have hrooms := sum_room_mod argv
  unfold pushArgs
  refine (pushLoop_ensures argv 0 _ junk s h haligned (by omega) (Nat.le_refl _) (by omega) hlen).bind
    fun r s1 ⟨hout, hno, hr⟩ => ?_
  cases r with
  | none =>
    refine ⟨hout, hno, hr.1, ?_⟩
    have := hr.2
    unfold encodedSize
    omega
  | some r =>
    obtain ⟨argc, sp, ustack⟩ := r
    obtain ⟨hargc', hsp, hlo, hstacked, hbytes, hstrings, hustack⟩ := hr
    rw [Nat.zero_add] at hargc'
    subst hargc'
    have hsize : (n + 1) * PGSIZE = n * PGSIZE + PGSIZE := by rw [Nat.add_mul, Nat.one_mul]
    have hpgsize : PGSIZE = 4096 := rfl
    have hmax : MAXARG = 32 := rfl
    have hsp32 : sp < 2 ^ 32 := h.lt_two_pow (by omega)
    simp only
    rw [store, if_pos (by omega), pure_bind, store, if_pos (by decide), pure_bind, store, if_pos (by decide), pure_bind,
      store, if_pos (by decide), pure_bind, minus_of_le (by omega) hsp32, minus_of_le (by omega) hsp32]
    generalize hf : update (update (update (update ustack (3 + argv.length) 0) 0
      0xffffffff) 1 argv.length) 2 (sp - (argv.length + 1) * 4) = f
    generalize hesp : sp - (3 + argv.length + 1) * 4 = esp
    have hwords := length_words f (3 + argv.length + 1)
    by_cases hfit : (n + 1) * PGSIZE ≤ esp
    · refine (copyout_stack hstacked hfit (by omega)).bind ?_
      rintro _ s' ⟨rfl, hstacked', hwritten⟩
      rw [if_neg (by decide)]
      refine ⟨fun g hg => (hwritten.outside g hg).trans (hout g hg), hno, hstacked', ?_, fun a ha => ?_, ?_⟩
      · unfold encodedSize
        omega
      · rw [hwritten.byte a (by omega), if_neg (by omega), hbytes a (by omega) (by omega)]
      · refine Frame.encodes (f := f) sp ?_ (by omega) hfit (by omega) hsp rfl (h.lt_two_pow (Nat.le_refl _))
          (hwritten.holds (by omega)) (hstrings.imp fun p arg ⟨hge, hle, hholds⟩ => hholds.congr fun j hj => ?_)
        · rw [← hf]
          refine ⟨rfl, rfl, ?_, fun i hi => ?_, ?_⟩
          · rw [update_self]
            omega
          · rw [update_of_ne (by omega), update_of_ne (by omega), update_of_ne (by omega),
              update_of_ne (by omega), hustack, if_pos (by omega), Nat.add_zero, Nat.add_sub_cancel_left]
          · rw [update_of_ne (by omega), update_of_ne (by omega), update_of_ne (by omega), update_self]
        · rw [List.length_append, List.length_singleton] at hj
          rw [hwritten.byte _ (by omega), if_neg (by omega)]
    · refine (copyout_refused hstacked (by omega) (by omega) (by omega)).bind ?_
      rintro _ s' ⟨rfl, hspace, hout'⟩
      rw [if_pos (by decide)]
      refine ⟨fun g hg => (hout' g hg).trans (hout g hg), hno, hspace, ?_⟩
      unfold encodedSize
      omega

end ExecArgs

end AsoPracticas.Xv6.Vm
