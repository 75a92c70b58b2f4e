import AsoPracticas.Xv6.UserMem

/-!
# ExecLoad — what `exec` loads

All fields of the headers are any 32-bit numbers.  The memory that the program headers describe is `image`: zero, and
then one loadable segment over the other, in their order.  While the segments are loaded the address space has exactly
the pages below the size (`Loading`); so every page that `loaduvm` asks for is there, and none that `allocuvm` maps.
-/

namespace AsoPracticas.Xv6.Vm

open Lib

/-! ## The memory that a file describes -/

/-- A header that `exec` does not skip. -/
def Proghdr.Loadable (ph : Proghdr) : Prop := ph.type = ELF_PROG_LOAD ∧ ph.memsz ≠ 0

instance (ph : Proghdr) : Decidable ph.Loadable := inferInstanceAs (Decidable (_ ∧ _))

/-- The bytes of a loadable segment over those that were there before. -/
def overlay (file : List UInt8) (mem : Nat → UInt8) (ph : Proghdr) (a : Nat) : UInt8 :=
  if ph.Loadable ∧ ph.vaddr ≤ a ∧ a < ph.vaddr + ph.filesz then file.getD (ph.off + (a - ph.vaddr)) 0 else mem a

def image (file : List UInt8) (phs : List Proghdr) : Nat → UInt8 := phs.foldl (overlay file) fun _ => 0

def headerAt (file : List UInt8) (off : Nat) : Proghdr := proghdr ((file.drop off).take PROGHDRSIZE)

/-- The `n` headers from an offset on. -/
def headers (file : List UInt8) : (n off : Nat) → List Proghdr
  | 0, _ => []
  | n + 1, off => headerAt file off :: headers file n (off + PROGHDRSIZE)

def fileHeader (file : List UInt8) : Elfhdr := elfhdr (file.take ELFHDRSIZE)

def fileHeaders (file : List UInt8) : List Proghdr := headers file (fileHeader file).phnum (fileHeader file).phoff

/-- The segment is in the file, and in memory below `sz`. -/
@[grind cases eager]
structure Proghdr.Fits (ph : Proghdr) (file : List UInt8) (sz : Nat) : Prop where
  filesz_le : ph.filesz ≤ ph.memsz
  end_le : ph.vaddr + ph.memsz ≤ sz
  inside : 0 < ph.filesz → ph.off + ph.filesz ≤ file.length

theorem Proghdr.Fits.mono {ph : Proghdr} {file : List UInt8} {sz sz' : Nat} (h : ph.Fits file sz) (hle : sz ≤ sz') :
    ph.Fits file sz' :=
  ⟨h.filesz_le, Nat.le_trans h.end_le hle, h.inside⟩

theorem u32At_lt (b : List UInt8) (i : Nat) : u32At b i < 2 ^ 32 := UInt32.toNat_lt _

/-! ## The address space while the segments are loaded -/

/-- The pages below `sz` are there, for the user, with the bytes `mem`; nothing but zeros is left for those above. -/
@[grind cases eager]
structure Loading (F : Nat → Prop) (d : Nat) (mem : Nat → UInt8) (sz : Nat) (s : Machine) : Prop where
  space : Space F [] d s
  kernel : Kernel s.mem d
  lt : sz < KERNBASE
  user : ∀ v < pagesOf sz, ForUser s.mem d v
  none : ∀ v < userPages, pagesOf sz ≤ v → pteOf s.mem d v = none
  bytes : ∀ a < pagesOf sz * PGSIZE, byteAt s.mem d a = some (mem a)
  rest : ∀ a, sz ≤ a → mem a = 0

section ExecLoad

variable {F : Nat → Prop} {d v sz : Nat} {s s' : Machine} {L : Layout} {E : Stop → Prop} {file : List UInt8}
  {mem : Nat → UInt8}

theorem Loading.empty (hspace : Space F [] d s) (hkernel : Kernel s.mem d)
    (hnone : ∀ v < userPages, pteOf s.mem d v = Option.none) : Loading F d (fun _ => 0) 0 s := by
  refine ⟨hspace, hkernel, by decide, fun v hv => absurd hv (Nat.not_lt_zero v), fun v hv _ => hnone v hv,
    fun a ha => absurd ha ?_, fun _ _ => rfl⟩
  exact Nat.not_lt_zero a

theorem Grown.kernel {lo hi : Nat} (h : Grown F d lo hi s s') (hk : Kernel s.mem d) (hhi : hi ≤ userPages) :
    Kernel s'.mem d := by
  refine ⟨fun i hi => ?_, fun u hge hlt w hw => ?_⟩
  all_goals grind

theorem Grown.loading {newsz : Nat} (hgrown : Grown F d (pagesOf sz) (pagesOf newsz) s s') (h : Loading F d mem sz s)
    (hspace : Space F [] d s') (hnew : newsz < KERNBASE) : Loading F d mem (max sz newsz) s' := by
  have huser := pagesOf_le (Nat.le_of_lt hnew)
  have huser' := pagesOf_le (Nat.le_of_lt h.lt)
  have hmax : pagesOf (max sz newsz) = max (pagesOf sz) (pagesOf newsz) := by
    unfold pagesOf PGSIZE
    omega
  have hlt := h.lt
  refine ⟨hspace, hgrown.kernel h.kernel huser, by omega, fun v hv => ?_, fun v hv hge => ?_, fun a ha => ?_,
    fun a ha => h.rest a (by omega)⟩
  · by_cases hold : v < pagesOf sz
    · obtain ⟨w, hw, hu⟩ := h.user v hold
      exact ⟨w, by rw [hgrown.pte v (lt_of_lt_userPages (by omega)) (by omega), hw], hu⟩
    · obtain ⟨w, hw, hu, -⟩ := hgrown.fresh v (by omega) (by omega)
      exact ⟨w, hw, hu⟩
  · rw [hgrown.pte v (lt_of_lt_userPages hv) (by omega), h.none v hv (by omega)]
  · rw [hmax] at ha
    by_cases hold : a / PGSIZE < pagesOf sz
    · obtain ⟨w, hw, -⟩ := h.user _ hold
      rw [← h.bytes a ?_]
      · unfold byteAt
        rw [hgrown.pte _ (lt_of_lt_userPages (by omega)) (by omega), hw, Option.map_some, Option.map_some,
          hgrown.page _ (by omega) (by omega) w hw]
      · exact div_lt_iff.1 hold
    · have hnewpage := div_lt_iff.2 ha
      have hge := le_pagesOf_mul sz
      rw [div_lt_iff] at hold
      obtain ⟨w, hw, -, hzero⟩ := hgrown.fresh (a / PGSIZE) (by rw [← div_lt_iff] at hold; omega)
        (by rw [← div_lt_iff] at hold; omega)
      rw [byteAt, hw, Option.map_some, hzero, getByte_zero, h.rest a (by omega)]

theorem Written.loading {ph : Proghdr} (hwritten : Written F [] d ph.vaddr ((file.drop ph.off).take ph.filesz) s s')
    (h : Loading F d mem sz s) (hspace : Space F [] d s') (hph : ph.Loadable) (hfits : ph.Fits file sz) :
    Loading F d (overlay file mem ph) sz s' := by
  have hle := hfits.filesz_le
  have hend := hfits.end_le
  have hpages := pagesOf_le (Nat.le_of_lt h.lt)
  have hlen : ((file.drop ph.off).take ph.filesz).length = ph.filesz := by grind
  refine ⟨hspace, hwritten.kernel h.kernel, h.lt, fun v hv => ?_, fun v hv hge => ?_, fun a ha => ?_, fun a ha => ?_⟩
  · rw [hwritten.forUser]
    exact h.user v hv
  · rw [hwritten.pte v (lt_of_lt_userPages hv), h.none v hv hge]
  · have hkern : a < KERNBASE := by
      have := Nat.mul_le_mul_right PGSIZE hpages
      exact Nat.lt_of_lt_of_le ha this
    rw [hwritten.byte a hkern, hlen, overlay]
    grind
  · rw [overlay, if_neg (by omega), h.rest a ha]

theorem overlay_of_not_loadable {ph : Proghdr} (h : ¬ ph.Loadable) : overlay file mem ph = mem := by
  funext a
  rw [overlay, if_neg fun hand => h hand.1]

/-- What the loop does with a loadable header: it ends, or goes on with the segment in memory. -/
theorem loadSegment_ensures (hF : L.Ram F) (h : Loading F d mem sz s) {ph : Proghdr} (hph : ph.Loadable)
    (hvaddr : ph.vaddr < 2 ^ 32) (hmemsz : ph.memsz < 2 ^ 32) (hoff : ph.off < 2 ^ 32) {next : Nat → K (Option Nat)}
    {Q : Option Nat → Machine → Prop}
    (hbad : ∀ s', Space F [] d s' → (∀ f, ¬ F f → s'.mem f = s.mem f) → Q none s')
    (hnext : ∀ sz' s', sz ≤ sz' → Loading F d (overlay file mem ph) sz' s' → (∀ f, ¬ F f → s'.mem f = s.mem f) →
      ph.vaddr % PGSIZE = 0 → ph.Fits file sz' → Ensures (next sz') s' Q E) :
    Ensures (if ph.memsz < ph.filesz then return none
      else if (ph.vaddr + ph.memsz) % 2 ^ 32 < ph.vaddr then return none
      else do
        let sz ← allocuvm L d sz ((ph.vaddr + ph.memsz) % 2 ^ 32)
        if sz = 0 then return none
        else if ph.vaddr % PGSIZE ≠ 0 then return none
        else if (← loaduvm d ph.vaddr file ph.off ph.filesz) < 0 then return none
        else next sz) s Q E := by
  by_cases hfilesz : ph.memsz < ph.filesz
  · rw [if_pos hfilesz]
    exact hbad s h.space fun _ _ => rfl
  · rw [if_neg hfilesz]
    by_cases hwrap : (ph.vaddr + ph.memsz) % 2 ^ 32 < ph.vaddr
    · rw [if_pos hwrap]
      exact hbad s h.space fun _ _ => rfl
    · -- the sum does not wrap around
      have hsum : (ph.vaddr + ph.memsz) % 2 ^ 32 = ph.vaddr + ph.memsz := by omega
      rw [if_neg hwrap, hsum]
      refine (allocuvm_ensures hF h.space fun hkern u hlo hhi => ?_).bind fun sz' s1 ⟨hspace, hr⟩ => ?_
      · exact h.none u (Nat.lt_of_lt_of_le hhi (pagesOf_le (Nat.le_of_lt hkern))) hlo
      · rcases hr with ⟨rfl, hsame, -⟩ | ⟨hkern, rfl, hgrown, -⟩
        · rw [if_pos rfl]
          exact hbad s1 hspace hsame.outside
        · have hpos : max sz (ph.vaddr + ph.memsz) ≠ 0 := by
            have := hph.2
            omega
          rw [if_neg hpos]
          have hloading := hgrown.loading h hspace hkern
          by_cases halign : ph.vaddr % PGSIZE ≠ 0
          · rw [if_pos halign]
            exact hbad s1 hspace hgrown.outside
          · rw [if_neg halign]
            rw [not_not] at halign
            refine (loaduvm_ensures halign (by omega) hoff hspace fun u _ hlt => ?_).bind
              fun r s2 ⟨hspace2, hout, hr⟩ => ?_
            · obtain ⟨w, hw, -⟩ := hloading.user u (lt_pagesOf.2 (by omega))
              rw [hw]
              rfl
            · have hout2 : ∀ f, ¬ F f → s2.mem f = s.mem f := fun f hf => (hout f hf).trans (hgrown.outside f hf)
              rcases hr with rfl | ⟨rfl, hinside, hwritten⟩
              · rw [if_pos (by decide)]
                exact hbad s2 hspace2 hout2
              · rw [if_neg (by decide)]
                have hfits : ph.Fits file (max sz (ph.vaddr + ph.memsz)) := ⟨by omega, by omega, hinside⟩
                exact hnext _ s2 (by omega) (hwritten.loading hloading hspace2 hph hfits) hout2 halign hfits

theorem loadSegments_ensures (hF : L.Ram F) (n off sz : Nat) (mem : Nat → UInt8) (s : Machine)
    (h : Loading F d mem sz s) :
    Ensures (loadSegments L d file n off sz) s (fun r s' => (∀ f, ¬ F f → s'.mem f = s.mem f) ∧
      match r with
      | none => Space F [] d s'
      | some sz' => sz ≤ sz' ∧ Loading F d ((headers file n off).foldl (overlay file) mem) sz' s' ∧
          ∀ ph ∈ headers file n off, ph.Loadable → ph.vaddr % PGSIZE = 0 ∧ ph.Fits file sz') E := by
  induction n generalizing off sz mem s with
  | zero => exact ⟨fun _ _ => rfl, Nat.le_refl sz, h, fun ph hph => nomatch hph⟩
  | succ n ih =>
    unfold loadSegments readi
    by_cases hread : file.length < off ∨ 2 ^ 32 ≤ off + PROGHDRSIZE
    · rw [if_pos hread]
      exact ⟨fun _ _ => rfl, h.space⟩
    · rw [if_neg hread]
      simp only
      by_cases hlen : ((file.drop off).take PROGHDRSIZE).length ≠ PROGHDRSIZE
      · rw [if_pos hlen]
        exact ⟨fun _ _ => rfl, h.space⟩
      · rw [if_neg hlen, Nat.mod_eq_of_lt (by omega)]
        by_cases hskip : (headerAt file off).type ≠ ELF_PROG_LOAD ∨ (headerAt file off).memsz = 0
        · rw [headerAt] at hskip
          rw [if_pos hskip]
          have hnot : ¬ (headerAt file off).Loadable := by
            rintro ⟨htype, hmemsz⟩
            exact hskip.elim (fun hne => hne htype) fun hzero => hmemsz hzero
          refine (ih (off + PROGHDRSIZE) sz mem s h).mono fun r s' ⟨hout, hr⟩ => ⟨hout, ?_⟩
          cases r with
          | none => exact hr
          | some sz' =>
            obtain ⟨hle, hloading, hall⟩ := hr
            refine ⟨hle, ?_, ?_⟩
            · rw [headers, List.foldl_cons, overlay_of_not_loadable hnot]
              exact hloading
            · rw [headers, List.forall_mem_cons]
              exact ⟨fun hloadable => absurd hloadable hnot, hall⟩
        · have hph : (headerAt file off).Loadable := by
            rw [not_or, not_not] at hskip
            exact hskip
          rw [headerAt] at hskip
          rw [if_neg hskip]
          refine loadSegment_ensures hF h hph (u32At_lt _ _) (u32At_lt _ _) (u32At_lt _ _) ?_ ?_
          · exact fun s' hspace hout => ⟨hout, hspace⟩
          · intro sz1 s1 hle hloading hout halign hfits
            refine (ih (off + PROGHDRSIZE) sz1 _ s1 hloading).mono fun r s' ⟨hout', hr⟩ =>
              ⟨fun f hf => (hout' f hf).trans (hout f hf), ?_⟩
            cases r with
            | none => exact hr
            | some sz' =>
              obtain ⟨hle', hloading', hall⟩ := hr
              refine ⟨Nat.le_trans hle hle', hloading', ?_⟩
              rw [headers, List.forall_mem_cons]
              exact ⟨fun _ => ⟨halign, hfits.mono hle'⟩, hall⟩

/-! ## The stack and its guard page -/

theorem clear_user {w : Nat} (hw : w < 2 ^ 32) (hp : present w = true) :
    present (w &&& (2 ^ 32 - 1 - PTE_U)) = true ∧ user (w &&& (2 ^ 32 - 1 - PTE_U)) = false ∧
    pageOf (w &&& (2 ^ 32 - 1 - PTE_U)) = pageOf w ∧ w &&& (2 ^ 32 - 1 - PTE_U) < 2 ^ 32 := by
  refine ⟨?_, ?_, ?_, Nat.lt_of_le_of_lt Nat.and_le_left hw⟩
  · unfold present at *
    rw [Nat.testBit_and, hp]
    decide
  · unfold user
    rw [Nat.testBit_and]
    have hbit : (2 ^ 32 - 1 - PTE_U).testBit 2 = false := by decide
    rw [hbit, Bool.and_false]
  · apply Nat.eq_of_testBit_eq
    intro i
    have hmask : (2 ^ 32 - 1 - PTE_U).testBit (i + 12) = decide (i + 12 < 32) := by
      have hbits := Nat.testBit_two_pow_sub_succ (x := PTE_U) (n := 32) (by decide) (i + 12)
      have hhigh : PTE_U.testBit (i + 12) = false := Nat.testBit_lt_two_pow
        (Nat.lt_of_lt_of_le (by decide) (Nat.pow_le_pow_right (by decide) (Nat.le_add_left 12 i)))
      rw [hhigh, Bool.not_false, Bool.and_true] at hbits
      exact hbits
    have hdiv : ∀ x, (pageOf x).testBit i = x.testBit (i + 12) := by
      intro x
      rw [pageOf, show PGSIZE = 2 ^ 12 from rfl, Nat.testBit_div_two_pow]
    rw [hdiv, hdiv, Nat.testBit_and, hmask]
    by_cases hi : i + 12 < 32
    · rw [decide_eq_true hi, Bool.and_true]
    · -- there are no bits up there
      rw [Nat.testBit_lt_two_pow (Nat.lt_of_lt_of_le hw (Nat.pow_le_pow_right (by decide) (Nat.le_of_not_lt hi))),
        Bool.false_and]

theorem entry_lt (p : Page) (i : Nat) : entry p i < 2 ^ 32 := UInt32.toNat_lt _

/-- Pages for a program and its stack: `n` for the program, one that the user may not use, and one for the stack. -/
@[grind cases eager]
structure Stacked (F : Nat → Prop) (d n : Nat) (s : Machine) : Prop where
  space : Space F [] d s
  kernel : Kernel s.mem d
  lt : (n + 2) * PGSIZE < KERNBASE
  user : ∀ v < n + 2, v ≠ n → ForUser s.mem d v
  guard : ∃ w, pteOf s.mem d n = some w ∧ Vm.user w = false
  none : ∀ v < userPages, n + 2 ≤ v → pteOf s.mem d v = none

@[grind cases eager]
structure Image (F : Nat → Prop) (d : Nat) (mem : Nat → UInt8) (n : Nat) (s : Machine) : Prop extends
    Stacked F d n s where
  bytes : ∀ a < (n + 2) * PGSIZE, byteAt s.mem d a = some (mem a)
  rest : ∀ a, n * PGSIZE ≤ a → mem a = 0

theorem clearpteu_ensures {n : Nat} (h : Loading F d mem ((n + 2) * PGSIZE) s)
    (hrest : ∀ a, n * PGSIZE ≤ a → mem a = 0) :
    Ensures (clearpteu d (n * PGSIZE)) s (fun _ s' => Image F d mem n s' ∧ ∀ f, ¬ F f → s'.mem f = s.mem f) E := by
  have hpages := pagesOf_mul (n + 2)
  have huser := h.user
  have hnone := h.none
  have hbytes := h.bytes
  rw [hpages] at huser hnone hbytes
  have hnu : n + 2 < userPages := by
    have := h.lt
    unfold userPages KERNBASE PGSIZE at *
    omega
  have hvu : n < userPages := by omega
  obtain ⟨w, hw, -⟩ := huser n (by omega)
  obtain ⟨t, ht, hentry⟩ := exists_table_of_pteOf hw
  have hwlt : w < 2 ^ 32 := by
    rw [← hentry]
    exact entry_lt _ _
  obtain ⟨hp, hu, hpage, hlt⟩ := clear_user hwlt (present_of_pteOf hw)
  have hset := h.space.set (lt_of_lt_userPages hvu) ht hlt
  unfold clearpteu
  rw [ensures_bind, ensures_walkpgdir_find (mul_lt_of_lt_userPages hvu), Nat.mul_div_cancel _ (by decide), ht,
    Option.map_some]
  simp only [ensures_bind, ensures_getEntry, ensures_setEntry, hentry]
  have hother : ∀ u, u ≠ n → pteOf (s.setEntry t (n % 1024) (w &&& (2 ^ 32 - 1 - PTE_U))).mem d u =
      pteOf s.mem d u := by
    intro u hu
    rw [hset.pte, if_neg hu]
  have hself : pteOf (s.setEntry t (n % 1024) (w &&& (2 ^ 32 - 1 - PTE_U))).mem d n =
      some (w &&& (2 ^ 32 - 1 - PTE_U)) := by
    rw [hset.pte, if_pos rfl, if_pos hp]
  refine ⟨⟨⟨h.space.set_flags hset hw hp hpage, ⟨fun i hi => ?_, fun u hge hult w' hw' => ?_⟩, h.lt, fun v hv hvn => ?_,
    ⟨_, hself, hu⟩, fun v hv hge => ?_⟩, fun a ha => ?_, hrest⟩, hset.outside⟩
  · rw [hset.table]
    exact h.kernel.table i hi
  · rw [hother u (by omega)] at hw'
    exact h.kernel.pte u hge hult w' hw'
  · obtain ⟨w', hw', hu'⟩ := huser v hv
    exact ⟨w', by rw [hother v hvn, hw'], hu'⟩
  · rw [hother v (by omega), hnone v hv hge]
  · have hva := div_lt_iff.2 ha
    rw [← hbytes a ha]
    unfold byteAt
    by_cases hpn : a / PGSIZE = n
    · rw [hpn, hself, hw, Option.map_some, Option.map_some, hpage, hset.page n hvu w hw]
    · obtain ⟨w', hw', -⟩ := huser _ hva
      rw [hother _ hpn, hw', Option.map_some, Option.map_some, hset.page _ (by omega) w' hw']

theorem Loading.round (h : Loading F d mem sz s) (hlt : pagesOf sz * PGSIZE < KERNBASE) :
    Loading F d mem (pagesOf sz * PGSIZE) s := by
  have hle := le_pagesOf_mul sz
  refine ⟨h.space, h.kernel, hlt, ?_, ?_, ?_, fun a ha => h.rest a (Nat.le_trans hle ha)⟩
  all_goals grind [pagesOf_mul]

theorem guard_address {n : Nat} (h : (n + 2) * PGSIZE < KERNBASE) :
    ((n + 2) * PGSIZE + (2 ^ 32 - 2 * PGSIZE)) % 2 ^ 32 = n * PGSIZE := by
  unfold KERNBASE at h
  unfold PGSIZE at *
  omega

theorem loadStack_ensures (hF : L.Ram F) (h : Loading F d mem sz s) (entry : Nat) :
    Ensures (loadStack L d sz entry) s (fun r s' => (∀ f, ¬ F f → s'.mem f = s.mem f) ∧
        ((r = .bad (some d) ∧ Space F [] d s' ∧ ((pagesOf sz + 2) * PGSIZE < KERNBASE → ∀ n, ¬ s.Ample (n + 4))) ∨
        (r = .done d ((pagesOf sz + 2) * PGSIZE) entry ∧ Image F d mem (pagesOf sz) s'))) E := by
  generalize hn : pagesOf sz = n
  have hle : n ≤ userPages := hn ▸ pagesOf_le (Nat.le_of_lt h.lt)
  have hround : PGROUNDUP sz = n * PGSIZE := by rw [PGROUNDUP_eq (Nat.le_of_lt h.lt), hn]
  have hsum : (n * PGSIZE + 2 * PGSIZE) % 2 ^ 32 = (n + 2) * PGSIZE := by
    unfold userPages KERNBASE PGSIZE at *
    omega
  unfold loadStack
  rw [hround, hsum]
  refine (allocuvm_ensures hF h.space fun hkern u hlo hhi => ?_).bind fun sz' s1 ⟨hspace, hr⟩ => ?_
  · rw [pagesOf_mul] at hlo hhi
    refine h.none u ?_ (hn ▸ hlo)
    unfold userPages KERNBASE PGSIZE at *
    omega
  · rcases hr with ⟨rfl, hsame, hshort⟩ | ⟨hkern, rfl, hgrown, -⟩
    · rw [if_pos rfl]
      rw [pagesOf_mul, pagesOf_mul] at hshort
      refine ⟨hsame.outside, .inl ⟨rfl, hspace, fun hkern k hk => hshort hkern k (hk.mono ?_)⟩⟩
      omega
    · have hmax : max (n * PGSIZE) ((n + 2) * PGSIZE) = (n + 2) * PGSIZE := by
        rw [Nat.add_mul]
        omega
      have hnonzero : (n + 2) * PGSIZE ≠ 0 := by
        unfold PGSIZE
        omega
      have hold : n * PGSIZE < KERNBASE := by
        omega
      rw [hmax, if_neg hnonzero, guard_address hkern]
      subst hn
      have hrounded := h.round hold
      have hloading := hgrown.loading hrounded hspace hkern
      rw [hmax] at hloading
      refine (clearpteu_ensures hloading hrounded.rest).bind fun _ s' ⟨himage, hout⟩ => ?_
      exact ⟨fun f hf => (hout f hf).trans (hgrown.outside f hf), .inr ⟨rfl, himage⟩⟩

theorem load_ensures (hF : L.Ram F) (h : Free F [] s) :
    Ensures (load L file) s (fun r s' => (∀ f, ¬ F f → s'.mem f = s.mem f) ∧
      match r with
      | .bad none => Free F [] s'
      | .bad (some d) => Space F [] d s'
      | .done d sz entry => entry = (fileHeader file).entry ∧ ∃ n, sz = (n + 2) * PGSIZE ∧
          Image F d (image file (fileHeaders file)) n s' ∧
          ∀ ph ∈ fileHeaders file, ph.Loadable → ph.vaddr % PGSIZE = 0 ∧ ph.Fits file (n * PGSIZE)) E := by
  unfold load readi
  by_cases hread : file.length < 0 ∨ 2 ^ 32 ≤ 0 + ELFHDRSIZE
  · rw [if_pos hread]
    exact ⟨fun _ _ => rfl, h⟩
  · rw [if_neg hread]
    simp only [List.drop_zero]
    by_cases hlen : (file.take ELFHDRSIZE).length ≠ ELFHDRSIZE
    · rw [if_pos hlen]
      exact ⟨fun _ _ => rfl, h⟩
    · rw [if_neg hlen]
      by_cases hmagic : (elfhdr (file.take ELFHDRSIZE)).magic ≠ ELF_MAGIC
      · rw [if_pos hmagic]
        exact ⟨fun _ _ => rfl, h⟩
      · rw [if_neg hmagic]
        refine (setupkvm_ensures hF h).bind fun r s1 ⟨hout, hr⟩ => ?_
        cases r with
        | none => exact ⟨hout, hr.1⟩
        | some d =>
          obtain ⟨hspace, hkernel, hnone, -⟩ := hr
          have hstart := Loading.empty hspace hkernel hnone
          refine (loadSegments_ensures hF _ _ 0 _ s1 hstart).bind fun r s2 ⟨hout2, hr2⟩ => ?_
          have hout' : ∀ f, ¬ F f → s2.mem f = s.mem f := fun f hf => (hout2 f hf).trans (hout f hf)
          cases r with
          | none => exact ⟨hout', hr2⟩
          | some sz =>
            obtain ⟨-, hloading, hall⟩ := hr2
            refine (loadStack_ensures hF hloading _).mono fun r s' ⟨hout3, hr3⟩ =>
              ⟨fun f hf => (hout3 f hf).trans (hout' f hf), ?_⟩
            rcases hr3 with ⟨rfl, hspace', -⟩ | ⟨rfl, himage⟩
            · exact hspace'
            · refine ⟨rfl, pagesOf sz, rfl, himage, fun ph hph hloadable => ?_⟩
              obtain ⟨halign, hfits⟩ := hall ph hph hloadable
              exact ⟨halign, hfits.mono (le_pagesOf_mul sz)⟩

end ExecLoad

end AsoPracticas.Xv6.Vm
