import Mathlib.Data.List.GetD
import AsoPracticas.Xv6.Exec
import AsoPracticas.Xv6.Kvm

/-!
# UserMem — the bytes of an address space

An address space as its user sees it: a byte for each mapped address below `KERNBASE`.  `Written` says that a list of
bytes has been stored at an address and that nothing else is different; `loaduvm` and `copyout` store their bytes page
by page.
-/

namespace AsoPracticas.Xv6.Vm

open Lib

def byteAt (m : Nat → Page) (d a : Nat) : Option UInt8 :=
  (pteOf m d (a / PGSIZE)).map fun w => getByte (m (pageOf w)) (a % PGSIZE)

/-- The entry for page `v` is present, and the user may use it. -/
def ForUser (m : Nat → Page) (d v : Nat) : Prop := ∃ w, pteOf m d v = some w ∧ user w = true

theorem Untouched.byteAt {d : Nat} {s s' : Machine} (h : Untouched d s s') {a : Nat} (ha : a < KERNBASE) :
    byteAt s'.mem d a = byteAt s.mem d a := by
  have hv : a / PGSIZE < userPages := div_lt_iff.2 ha
  unfold Vm.byteAt
  rw [h.pte]
  cases hw : pteOf s.mem d (a / PGSIZE) with
  | none => rfl
  | some w => simp only [Option.map_some, h.page _ hv w hw]

/-- The bytes have been stored at `start`. -/
@[grind cases eager]
structure Written (F : Nat → Prop) (loose : List Nat) (d start : Nat) (bytes : List UInt8) (s s' : Machine) : Prop where
  outside : ∀ f, ¬ F f → s'.mem f = s.mem f
  loose : ∀ f ∈ loose, s'.mem f = s.mem f
  table : ∀ i, tableOf s'.mem d i = tableOf s.mem d i
  pte : ∀ u < 2 ^ 20, pteOf s'.mem d u = pteOf s.mem d u
  byte : ∀ a < KERNBASE, byteAt s'.mem d a =
    if start ≤ a ∧ a < start + bytes.length then some (bytes.getD (a - start) 0) else byteAt s.mem d a
  frame : ∀ f, s'.mem f = s.mem f ∨ ∃ a w, start ≤ a ∧ a < start + bytes.length ∧
    pteOf s.mem d (a / PGSIZE) = some w ∧ pageOf w = f
  freelist : s'.freelist = s.freelist
  fails : s'.fails = s.fails

section UserMem

variable {F : Nat → Prop} {loose : List Nat} {d start v w o : Nat} {s s' : Machine} {L : Layout} {E : Stop → Prop}
  {buf : List UInt8}

theorem Written.nil (start : Nat) : Written F loose d start [] s s := by
  refine ⟨fun _ _ => rfl, fun _ _ => rfl, fun _ => rfl, fun _ _ => rfl, fun a _ => ?_, fun _ => .inl rfl, rfl, rfl⟩
  rw [if_neg]
  rw [List.length_nil]
  omega

theorem Written.pteOf_eq (h : Written F loose d start buf s s') (v : Nat) : pteOf s'.mem d v = pteOf s.mem d v := by
  by_cases hv : v < 2 ^ 20
  all_goals grind [pteOf_of_le]

theorem Written.trans {s1 s2 : Machine} {b1 b2 : List UInt8} (h : Written F loose d start b1 s s1)
    (h' : Written F loose d (start + b1.length) b2 s1 s2) : Written F loose d start (b1 ++ b2) s s2 := by
  refine ⟨fun f hf => ?_, fun f hf => ?_, fun i => ?_, fun u hu => ?_, fun a ha => ?_, fun f => ?_, ?_, ?_⟩
  · rw [h'.outside f hf, h.outside f hf]
  · rw [h'.loose f hf, h.loose f hf]
  · rw [h'.table, h.table]
  · rw [h'.pte u hu, h.pte u hu]
  · grind
  · rw [List.length_append]
    rcases h'.frame f with hsame | ⟨a, w, hge, hlt, hw, hf⟩
    · grind
    · rw [h.pteOf_eq] at hw
      exact .inr ⟨a, w, by omega, by omega, hw, hf⟩
  · rw [h'.freelist, h.freelist]
  · rw [h'.fails, h.fails]

theorem Written.then_nothing {s1 s2 : Machine} {start' : Nat} (h : Written F loose d start buf s s1)
    (h' : Written F loose d start' [] s1 s2) : Written F loose d start buf s s2 := by
  have hnil : Written F loose d (start + buf.length) [] s1 s2 := by
    refine ⟨h'.outside, h'.loose, h'.table, h'.pte, fun a ha => ?_, fun f => ?_, h'.freelist, h'.fails⟩
    all_goals grind
  rw [← List.append_nil buf]
  exact h.trans hnil

theorem Written.forUser (h : Written F loose d start buf s s') : ForUser s'.mem d v ↔ ForUser s.mem d v := by
  unfold ForUser
  rw [h.pteOf_eq]

theorem Written.kernel (h : Written F loose d start buf s s') (hk : Kernel s.mem d) : Kernel s'.mem d := by
  refine ⟨fun i hi => ?_, fun u hge hlt w hw => ?_⟩
  all_goals grind

theorem Space.store (h : Space F loose d s) (hv : v < userPages) (hw : pteOf s.mem d v = some w)
    (ho : o + buf.length ≤ PGSIZE) (s' : Machine)
    (hmem : s'.mem = Function.update s.mem (pageOf w) (patch (s.mem (pageOf w)) o buf.length fun j => buf.getD j 0))
    (hlist : s'.freelist = s.freelist) (hfails : s'.fails = s.fails) :
    Space F loose d s' ∧ Written F loose d (v * PGSIZE + o) buf s s' := by
  have hpd := h.page_ne_dir hv hw
  have hused := h.page_mem hv hw
  have hother : ∀ f, f ≠ pageOf w → s'.mem f = s.mem f := fun f hf => by rw [hmem, Function.update_of_ne hf]
  have htable : ∀ i, tableOf s'.mem d i = tableOf s.mem d i := by
    intro i
    rw [hmem, tableOf_update hpd]
  have hpte : ∀ u < 2 ^ 20, pteOf s'.mem d u = pteOf s.mem d u := by
    intro u hu
    rw [hmem, pteOf_update hpd (h.page_ne_table hv hw (div_lt_entries hu))]
  refine ⟨h.of_holds ?_ (by rw [hlist]), fun f hf => ?_, fun f hf => ?_, htable, hpte, fun a ha => ?_, fun f => ?_,
    hlist, hfails⟩
  · funext slot
    cases slot with
    | dir => rfl
    | table i => simp only [holds, htable]
    | page u =>
      simp only [holds]
      split
      · rename_i hu
        rw [hpte u (lt_of_lt_userPages hu)]
      · rfl
  · exact hother f fun heq => hf (heq ▸ hused.1)
  · exact hother f fun heq => hused.2 (heq ▸ List.mem_append_left _ hf)
  · have hua : a / PGSIZE < userPages := Nat.div_lt_of_lt_mul ha
    have hdecomp := Nat.div_add_mod a PGSIZE
    have hmod : a % PGSIZE < PGSIZE := Nat.mod_lt a (by decide)
    unfold byteAt
    rw [hpte _ (lt_of_lt_userPages hua)]
    by_cases hpage : a / PGSIZE = v
    · rw [hpage, Nat.mul_comm] at hdecomp
      rw [hpage, hw, Option.map_some, Option.map_some, hmem, Function.update_self]
      by_cases hin : o ≤ a % PGSIZE ∧ a % PGSIZE < o + buf.length
      all_goals grind [getByte_patch_of_mem, getByte_patch_of_notMem]
    · rw [if_neg]
      · cases hw' : pteOf s.mem d (a / PGSIZE) with
        | none => rfl
        | some w' =>
          have hne : pageOf w' ≠ pageOf w := fun heq => hpage (h.page_inj hua hv hw' hw heq)
          simp only [Option.map_some, hother _ hne]
      · -- the range is inside page `v`
        rintro ⟨hge, hlt⟩
        apply hpage
        rw [Nat.div_eq_iff (by decide)]
        omega
  · by_cases hf : f = pageOf w
    · subst hf
      rcases Nat.eq_zero_or_pos buf.length with hzero | hpos
      · left
        rw [hmem, Function.update_self, hzero]
        funext i
        rw [patch, if_neg (by omega)]
      · refine .inr ⟨v * PGSIZE + o, w, Nat.le_refl _, by omega, ?_, rfl⟩
        rw [← hw]
        congr 1
        rw [Nat.div_eq_iff (by decide)]
        omega
    · exact .inl (hother f hf)

theorem memmove_ensures (h : Space F loose d s) (hv : v < userPages) (hw : pteOf s.mem d v = some w)
    (ho : o + buf.length ≤ PGSIZE) : Ensures (memmove (pageOf w) o buf) s (fun _ s' =>
      Space F loose d s' ∧ Written F loose d (v * PGSIZE + o) buf s s') E :=
  ensures_modify.2 (h.store hv hw ho _ rfl rfl rfl)

/-! ## `loaduvm` -/

theorem loaduvmLoop_ensures (file : List UInt8) {sz : Nat} (offset : Nat)
    (hsz : v * PGSIZE + sz ≤ KERNBASE) (fuel k : Nat) (s : Machine) (h : Space F [] d s)
    (hmap : ∀ u, v ≤ u → u * PGSIZE < v * PGSIZE + sz → (pteOf s.mem d u).isSome)
    (hoff : k * PGSIZE < sz → offset + k * PGSIZE < 2 ^ 32) (hfuel : pagesOf sz - k < fuel) :
    Ensures (loaduvmLoop d (v * PGSIZE) file offset sz fuel (k * PGSIZE)) s (fun r s' => Space F [] d s' ∧
      (∀ f, ¬ F f → s'.mem f = s.mem f) ∧
      (r = -1 ∨ (r = 0 ∧ (k * PGSIZE < sz → offset + sz ≤ file.length) ∧
        Written F [] d (v * PGSIZE + k * PGSIZE) ((file.drop (offset + k * PGSIZE)).take (sz - k * PGSIZE))
          s s'))) E := by
  induction fuel generalizing k s with
  | zero => exact absurd hfuel (Nat.not_lt_zero _)
  | succ fuel ih =>
    unfold loaduvmLoop
    by_cases hlt : k * PGSIZE < sz
    · rw [if_pos hlt]
      have hpages := lt_pagesOf.2 hlt
      have hva : (v * PGSIZE + k * PGSIZE) % 2 ^ 32 = (v + k) * PGSIZE := by
        unfold KERNBASE PGSIZE at *
        omega
      have hvu : v + k < userPages := by
        unfold userPages KERNBASE PGSIZE at *
        omega
      have hdiv : (v + k) * PGSIZE / PGSIZE = v + k := Nat.mul_div_cancel _ (by decide)
      have hin : (v + k) * PGSIZE < v * PGSIZE + sz := by
        rw [Nat.add_mul]
        omega
      obtain ⟨w, hw⟩ := Option.isSome_iff_exists.1 (hmap (v + k) (Nat.le_add_right v k) hin)
      obtain ⟨t, ht, hentry⟩ := exists_table_of_pteOf hw
      rw [hva, ensures_bind, ensures_walkpgdir_find (mul_lt_of_lt_userPages hvu), hdiv, ht, Option.map_some]
      simp only [ensures_bind, ensures_getEntry, hentry]
      rw [Nat.mod_eq_of_lt (hoff hlt)]
      -- how much there is to read for this page
      generalize hn : (if sz - k * PGSIZE < PGSIZE then sz - k * PGSIZE else PGSIZE) = n
      have hnle : n ≤ PGSIZE ∧ n ≤ sz - k * PGSIZE := by
        rw [← hn]
        split <;> omega
      unfold readi
      by_cases hread : file.length < offset + k * PGSIZE ∨ 2 ^ 32 ≤ offset + k * PGSIZE + n
      · rw [if_pos hread]
        exact ⟨h, fun _ _ => rfl, .inl rfl⟩
      · rw [if_neg hread]
        rw [not_or, Nat.not_lt, Nat.not_le] at hread
        simp only [ensures_bind]
        have hlen : ((file.drop (offset + k * PGSIZE)).take n).length ≤ n := List.length_take_le n _
        refine (memmove_ensures (o := 0) h hvu hw (by omega)).mono fun _ s1 ⟨hspace, hwritten⟩ => ?_
        rw [Nat.add_zero, Nat.add_mul] at hwritten
        by_cases hshort : ((file.drop (offset + k * PGSIZE)).take n).length ≠ n
        · rw [if_pos hshort]
          exact ⟨hspace, hwritten.outside, .inl rfl⟩
        · rw [if_neg hshort, next_page (v := k) (by omega)]
          rw [not_not] at hshort
          have hend : offset + k * PGSIZE + n ≤ file.length := by
            rw [List.length_take, List.length_drop] at hshort
            omega
          have hmap1 : ∀ u, v ≤ u → u * PGSIZE < v * PGSIZE + sz → (pteOf s1.mem d u).isSome := by
            intro u hu hlt
            rw [hwritten.pte u (lt_of_lt_userPages (lt_userPages_of_lt hsz hlt))]
            exact hmap u hu hlt
          have hfull : (k + 1) * PGSIZE < sz → n = PGSIZE := by
            intro hlt'
            rw [← hn, if_neg]
            rw [Nat.add_mul] at hlt'
            omega
          refine (ih (k + 1) s1 hspace hmap1 ?_ (by omega)).mono fun r s' ⟨hspace', hout, hr⟩ => ⟨hspace', ?_, ?_⟩
          · intro hlt'
            have := hfull hlt'
            rw [Nat.add_mul]
            omega
          · exact fun f hf => (hout f hf).trans (hwritten.outside f hf)
          · refine hr.imp_right fun ⟨hzero, hlen', hwritten'⟩ => ⟨hzero, fun _ => ?_, ?_⟩
            · by_cases hlt' : (k + 1) * PGSIZE < sz
              · exact hlen' hlt'
              · rw [Nat.add_mul] at hlt'
                rw [← hn] at hend
                split at hend <;> omega
            · by_cases hlt' : (k + 1) * PGSIZE < sz
              · rw [hfull hlt'] at hwritten hshort
                rw [Nat.add_mul, Nat.one_mul] at hwritten' hlt'
                have hsplit : sz - k * PGSIZE = PGSIZE + (sz - (k * PGSIZE + PGSIZE)) := by omega
                rw [hsplit, List.take_add, List.drop_drop, Nat.add_assoc offset]
                refine hwritten.trans ?_
                rw [hshort, Nat.add_assoc (v * PGSIZE)]
                exact hwritten'
              · have hlast : n = sz - k * PGSIZE := by
                  rw [← hn]
                  rw [Nat.add_mul] at hlt'
                  split <;> omega
                rw [Nat.sub_eq_zero_of_le (Nat.le_of_not_lt hlt'), List.take_zero] at hwritten'
                rw [hlast] at hwritten
                exact hwritten.then_nothing hwritten'
    · rw [if_neg hlt]
      refine ⟨h, fun _ _ => rfl, .inr ⟨rfl, fun hlt' => absurd hlt' hlt, ?_⟩⟩
      rw [Nat.sub_eq_zero_of_le (Nat.le_of_not_lt hlt), List.take_zero]
      exact .nil _

theorem loaduvm_ensures {file : List UInt8} {addr offset sz : Nat}
    (haddr : addr % PGSIZE = 0) (hsz : addr + sz ≤ KERNBASE) (hoff : offset < 2 ^ 32) (h : Space F [] d s)
    (hmap : ∀ u, addr ≤ u * PGSIZE → u * PGSIZE < addr + sz → (pteOf s.mem d u).isSome) :
    Ensures (loaduvm d addr file offset sz) s (fun r s' => Space F [] d s' ∧ (∀ f, ¬ F f → s'.mem f = s.mem f) ∧
      (r = -1 ∨ (r = 0 ∧ (0 < sz → offset + sz ≤ file.length) ∧
        Written F [] d addr ((file.drop offset).take sz) s s'))) E := by
  have hpages : addr = addr / PGSIZE * PGSIZE := by
    unfold PGSIZE at *
    omega
  have hfuel : pagesOf sz - 0 < allPages := by
    have hle := pagesOf_le (Nat.le_trans (Nat.le_add_left sz addr) hsz)
    unfold userPages KERNBASE PGSIZE at hle
    unfold allPages
    omega
  have hloop := loaduvmLoop_ensures (E := E) file offset (v := addr / PGSIZE) (by rwa [← hpages]) allPages 0 s h
    (fun u hu hlt => ?_) (fun _ => by omega) hfuel
  · rw [← hpages, Nat.zero_mul, Nat.add_zero, Nat.add_zero, Nat.sub_zero] at hloop
    rw [loaduvm, if_neg (not_not.2 haddr)]
    exact hloop
  grind [Nat.mul_le_mul_right]

/-! ## `copyout` -/

/-- The first `k` bytes of the buffer go to pages for the user, and the next one, if there is one, would not. -/
@[grind cases eager]
structure Reaches (m : Nat → Page) (d va n k : Nat) : Prop where
  le : k ≤ n
  user : ∀ j < k, ForUser m d ((va + j) / PGSIZE)
  refused : k < n → ¬ ForUser m d ((va + k) / PGSIZE)

/-- How `copyout` of `n` bytes to `va` ends. -/
def Copied (F : Nat → Prop) (d va : Nat) (buf : List UInt8) (s : Machine) (r : Int) (s' : Machine) : Prop :=
  ∃ k, Reaches s.mem d va buf.length k ∧ Space F [] d s' ∧ Written F [] d va (buf.take k) s s' ∧
    ((r = 0 ∧ k = buf.length) ∨
    (r = -1 ∧ k < buf.length ∧ (tableOf s.mem d ((va + k) / PGSIZE / 1024)).isSome))

theorem ForUser.lt (hk : Kernel s.mem d) (h : ForUser s.mem d v) (hv : v < 2 ^ 20) : v < userPages := by
  by_contra hge
  grind [ForUser]

theorem uva2ka_ensures {va : Nat} (hva : va < 2 ^ 32) {Q : Option Nat → Machine → Prop}
    (hnull : tableOf s.mem d (va / PGSIZE / 1024) = none → E .nullPte)
    (hrefused : (tableOf s.mem d (va / PGSIZE / 1024)).isSome → ¬ ForUser s.mem d (va / PGSIZE) → Q none s)
    (huser : ∀ w, pteOf s.mem d (va / PGSIZE) = some w → user w = true → Q (some (pageOf w)) s) :
    Ensures (uva2ka d va) s Q E := by
  unfold uva2ka
  rw [ensures_bind, ensures_walkpgdir_find hva]
  cases ht : tableOf s.mem d (va / PGSIZE / 1024) with
  | none => exact hnull ht
  | some t =>
    simp only [Option.map_some, ensures_bind, ensures_getEntry]
    have hpte := pteOf_of_table ht
    by_cases hp : present (entry (s.mem t) (va / PGSIZE % 1024)) = true
    · rw [if_pos hp] at hpte
      rw [hp]
      by_cases hu : user (entry (s.mem t) (va / PGSIZE % 1024)) = true
      · rw [hu]
        exact huser _ hpte hu
      · rw [Bool.not_eq_true] at hu
        rw [hu]
        refine hrefused (by rw [ht]; rfl) fun ⟨w, hw, hw'⟩ => ?_
        grind
    · rw [if_neg hp] at hpte
      rw [Bool.not_eq_true] at hp
      rw [hp]
      refine hrefused (by rw [ht]; rfl) fun ⟨w, hw, _⟩ => ?_
      rw [hpte] at hw
      cases hw

theorem Reaches.step {m m' : Nat → Page} {va next n len k : Nat} (hn : n ≤ len)
    (hpage : ∀ j < n, ForUser m d ((va + j) / PGSIZE)) (hnext : n < len → va + n = next)
    (hsame : ∀ v, ForUser m' d v ↔ ForUser m d v) (h : Reaches m' d next (len - n) k) :
    Reaches m d va len (n + k) := by
  have hle := h.le
  refine ⟨by omega, fun j hj => ?_, fun hlt => ?_⟩
  · by_cases hjn : j < n
    · exact hpage j hjn
    · have huser := (hsame _).1 (h.user (j - n) (by omega))
      grind
  grind

theorem copyoutLoop_ensures (fuel va : Nat) (buf : List UInt8) (s : Machine) (h : Space F [] d s)
    (hk : Kernel s.mem d) (hva : va < 2 ^ 32) (hfuel : buf.length < fuel) :
    Ensures (copyoutLoop d fuel va buf) s (fun r s' => Copied F d va buf s r s')
      (fun e => e = .nullPte ∧ ∃ k < buf.length, Reaches s.mem d va buf.length k ∧
        tableOf s.mem d ((va + k) / PGSIZE / 1024) = none) := by
  induction fuel generalizing va buf s with
  | zero => exact absurd hfuel (Nat.not_lt_zero _)
  | succ fuel ih =>
    unfold copyoutLoop
    by_cases hpos : buf.length > 0
    · rw [if_pos hpos]
      have hdown : PGROUNDDOWN va / PGSIZE = va / PGSIZE := by
        rw [PGROUNDDOWN, Nat.mul_div_cancel _ (by decide)]
      have hlt : PGROUNDDOWN va < 2 ^ 32 := Nat.lt_of_le_of_lt (Nat.div_mul_le_self va PGSIZE) hva
      -- nothing is copied if the first page is refused
      have hzero : ¬ ForUser s.mem d (va / PGSIZE) → Reaches s.mem d va buf.length 0 := fun hno =>
        ⟨Nat.zero_le _, fun j hj => absurd hj (Nat.not_lt_zero j), fun _ => hno⟩
      rw [ensures_bind]
      refine uva2ka_ensures hlt ?_ ?_ ?_
      · rw [hdown]
        intro hnone
        refine ⟨rfl, 0, hpos, hzero ?_, hnone⟩
        rintro ⟨w, hw, -⟩
        rw [pteOf_of_no_table hnone] at hw
        cases hw
      · rw [hdown]
        intro htable hno
        exact ⟨0, hzero hno, h, .nil va, .inr ⟨rfl, hpos, htable⟩⟩
      · rw [hdown]
        intro w hw huser
        have hvu := ForUser.lt hk ⟨w, hw, huser⟩ (page_lt hva)
        have hoff : va - PGROUNDDOWN va = va % PGSIZE := by
          unfold PGROUNDDOWN PGSIZE
          omega
        have hmod : va % PGSIZE < PGSIZE := Nat.mod_lt va (by decide)
        have hdecomp := Nat.div_add_mod va PGSIZE
        have hnext : (PGROUNDDOWN va + PGSIZE) % 2 ^ 32 = (va / PGSIZE + 1) * PGSIZE := next_page hvu
        simp only [ensures_bind, hoff, hnext]
        generalize hn : min (PGSIZE - va % PGSIZE) buf.length = n
        have hlen : (buf.take n).length = n := by
          rw [List.length_take]
          omega
        refine (memmove_ensures h hvu hw (by omega)).mono ?_
        rintro _ s1 ⟨hspace, hwritten⟩
        rw [Nat.mul_comm, hdecomp] at hwritten
        have hnextlt : (va / PGSIZE + 1) * PGSIZE < 2 ^ 32 := by
          unfold userPages KERNBASE PGSIZE at *
          omega
        have hstart : n < buf.length → va + n = (va / PGSIZE + 1) * PGSIZE := by
          intro hlt
          rw [Nat.add_mul, Nat.one_mul, Nat.mul_comm]
          omega
        have hpage : ∀ j < n, ForUser s.mem d ((va + j) / PGSIZE) := by
          intro j hj
          have hsame : (va + j) / PGSIZE = va / PGSIZE := by
            rw [Nat.div_eq_iff (by decide), Nat.mul_comm]
            omega
          rw [hsame]
          exact ⟨w, hw, huser⟩
        have hdrop : (buf.drop n).length = buf.length - n := List.length_drop
        have hstep : ∀ k, Reaches s1.mem d ((va / PGSIZE + 1) * PGSIZE) (buf.drop n).length k →
            Reaches s.mem d va buf.length (n + k) := by
          intro k hreach
          rw [hdrop] at hreach
          exact .step (by omega) hpage hstart (fun _ => hwritten.forUser) hreach
        refine ((ih _ (buf.drop n) s1 hspace (hwritten.kernel hk) hnextlt (by omega)).mono ?_).mono_stop ?_
        · rintro r s' ⟨k, hreach, hspace', hwritten', hr⟩
          have hle := hreach.le
          refine ⟨n + k, hstep k hreach, hspace', ?_, hr.imp ?_ ?_⟩
          · rw [List.take_add]
            by_cases hlt : n < buf.length
            · refine hwritten.trans ?_
              rw [hlen, hstart hlt]
              exact hwritten'
            · rw [List.drop_eq_nil_of_le (Nat.le_of_not_lt hlt), List.take_nil] at hwritten' ⊢
              rw [List.append_nil]
              exact hwritten.then_nothing hwritten'
          · exact fun hr => ⟨hr.1, by omega⟩
          · rintro ⟨hr, hlt, htable⟩
            refine ⟨hr, by omega, ?_⟩
            rwa [hwritten.table, ← hstart (by omega), Nat.add_assoc] at htable
        · rintro e ⟨rfl, k, hlt, hreach, htable⟩
          refine ⟨rfl, n + k, by omega, hstep k hreach, ?_⟩
          rwa [hwritten.table, ← hstart (by omega), Nat.add_assoc] at htable
    · rw [if_neg hpos]
      have hnil : buf = [] := List.eq_nil_of_length_eq_zero (Nat.eq_zero_of_not_pos hpos)
      subst hnil
      refine ⟨0, ⟨Nat.le_refl 0, fun j hj => absurd hj (Nat.not_lt_zero j), fun hj => absurd hj (Nat.lt_irrefl 0)⟩, h,
        .nil va, .inl ⟨rfl, rfl⟩⟩

/-- `copyout` copies up to the first page that is not for the user.  There it returns `-1`, or, if even the page table
is missing, reads the entry at a null pointer. -/
theorem copyout_ensures {va : Nat} (h : Space F [] d s) (hk : Kernel s.mem d) (hva : va < 2 ^ 32) (buf : List UInt8) :
    Ensures (copyout d va buf) s (fun r s' => Copied F d va buf s r s')
      (fun e => e = .nullPte ∧ ∃ k < buf.length, Reaches s.mem d va buf.length k ∧
        tableOf s.mem d ((va + k) / PGSIZE / 1024) = none) :=
  copyoutLoop_ensures _ va buf s h hk hva (Nat.lt_succ_self _)

end UserMem

end AsoPracticas.Xv6.Vm
