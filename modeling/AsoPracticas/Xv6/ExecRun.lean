import AsoPracticas.Xv6.ByteFiles
import AsoPracticas.Xv6.ExecArgs
import AsoPracticas.Xv6.Sbrk

/-!
# ExecRun — `exec` as a whole

The new address space is made of free pages only, so that the space of the process that calls `exec` stays as it is
until the commit.  A call that fails gives all pages back; one that succeeds frees the old space.

* `exec_loads`, `exec_arguments` — what a program finds in its memory, and on its stack;
* `copyout_present` — `copyout` into a directory that `exec` has made.
-/

namespace AsoPracticas.Xv6.Vm

open Lib

section ExecRun

variable {F G : Nat → Prop} {d n : Nat} {s s' : Machine} {L : Layout} {E : Stop → Prop}

/-! ## The two ways to return -/

/-- The call fails: the process is as it was, the same pages are free and no other page is written. -/
structure ExecFailed (p : Proc) (a : Int × Proc) (s s' : Machine) : Prop where
  result : a = (-1, p)
  nodup : s'.freelist.Nodup
  free : ∀ f, f ∈ s'.freelist ↔ f ∈ s.freelist
  outside : ∀ f, f ∉ s.freelist → s'.mem f = s.mem f

/-- The call succeeds: the process has a space with `n` pages of program, as the file describes them, and the arguments
on its stack. -/
structure ExecDone (F : Nat → Prop) (file path : List UInt8) (argv : List (List UInt8)) (n : Nat) (a : Int × Proc)
    (s' : Machine) : Prop where
  result : a.1 = 0
  sz : a.2.sz = (n + 2) * PGSIZE
  name : a.2.name = safestrcpy (lastLoop path path) 16
  eip : a.2.eip = (fileHeader file).entry
  stacked : Stacked F a.2.pgdir n s'
  bytes : ∀ x < (n + 1) * PGSIZE, byteAt s'.mem a.2.pgdir x = some (image file (fileHeaders file) x)
  fits : encodedSize argv ≤ PGSIZE
  encodes : Encodes s'.mem a.2.pgdir n a.2.esp argv (pointers ((n + 2) * PGSIZE) argv)

variable {p : Proc} {file path : List UInt8} {argv : List (List UInt8)} {junk : Nat → Nat} {a : Int × Proc}
  {s1 : Machine}

theorem Free.failed (h : Free (· ∈ s.freelist) [] s') (hresult : a = (-1, p))
    (hout : ∀ f, f ∉ s.freelist → s'.mem f = s.mem f) : ExecFailed p a s s' :=
  ⟨hresult, h.nodup, fun f => (h.all f).symm, hout⟩

theorem bad_ensures (hG : L.Ram G) (pgdir : Option Nat) (h : match pgdir with
      | none => Free G [] s
      | some d => Space G [] d s) :
    Ensures (bad L pgdir p) s (fun a s' => a = (-1, p) ∧ Free G [] s' ∧ ∀ f, ¬ G f → s'.mem f = s.mem f) E := by
  cases pgdir with
  | none => exact ⟨rfl, h, fun _ _ => rfl⟩
  | some d => exact (freevm_ensures hG h).bind fun _ s' ⟨hfree, hout, _⟩ => ⟨rfl, hfree, hout⟩

theorem Untouched.stacked (h : Untouched d s s') (hstacked : Stacked G d n s) (hspace : Space F [] d s') :
    Stacked F d n s' := by
  refine ⟨hspace, ⟨fun i hi => ?_, fun u hge hlt w hw => ?_⟩, hstacked.lt, fun v hv hvn => ?_, ?_, fun v hv hge => ?_⟩
  all_goals grind [ForUser]

theorem Untouched.wordAt (h : Untouched d s s') {a : Nat} (ha : a + 4 ≤ KERNBASE) :
    wordAt s'.mem d a = wordAt s.mem d a := by
  grind [wordAt, byteAt]

theorem Untouched.encodes {esp : Nat} {ptrs : List Nat} (h : Untouched d s s') (hlt : (n + 2) * PGSIZE < KERNBASE)
    (henc : Encodes s.mem d n esp argv ptrs) : Encodes s'.mem d n esp argv ptrs := by
  have hframe : esp + 4 * (3 + argv.length + 1) ≤ (n + 2) * PGSIZE := (henc.inside _ List.mem_cons_self).2
  refine ⟨henc.aligned, ?_, ?_, ?_, fun i hi => ?_, ?_, ?_, henc.disjoint, henc.inside⟩
  · rw [h.wordAt (by omega), henc.pc]
  · rw [h.wordAt (by omega), henc.argc]
  · rw [h.wordAt (by omega), henc.vector]
  · rw [h.wordAt (by omega), henc.pointer i hi]
  · rw [h.wordAt (by omega), henc.last]
  · refine henc.strings_inside.imp fun p arg ⟨hle, hholds⟩ => hholds.congr fun j hj => h.byteAt ?_
    rw [List.length_append, List.length_singleton] at hj
    omega

/-! ## `exec` -/

/-- Why `exec` stops, if it does: the file has been loaded, and the first argument for which there is no room goes to an
address without a page table. -/
def ExecFalls (L : Layout) (file : List UInt8) (argv : List (List UInt8)) (s : Machine) : Prop :=
  ∃ d sz entry s1, load L file s = .ok (.done d sz entry, s1) ∧ Falls (sz - PGSIZE) sz argv

theorem execArgs_ensures (hF : L.Ram F) (h : Space F [] p.pgdir s)
    (himage : Image (· ∈ s.freelist) d (image file (fileHeaders file)) n s1)
    (hout : ∀ f, f ∉ s.freelist → s1.mem f = s.mem f) (hargc : argv.length < MAXARG)
    (hlen : ∀ arg ∈ argv, arg.length < KERNBASE) :
    Ensures (execArgs L p path argv junk d ((n + 2) * PGSIZE) (fileHeader file).entry) s1
      (fun a s' => ¬ Falls ((n + 1) * PGSIZE) ((n + 2) * PGSIZE) argv ∧
        ((ExecFailed p a s s' ∧ PGSIZE < encodedSize argv) ∨
        (a.2.pgdir = d ∧ (∀ f, ¬ F f → s'.mem f = s.mem f) ∧ ExecDone F file path argv n a s')))
      fun e => Falls ((n + 1) * PGSIZE) ((n + 2) * PGSIZE) argv ∧ e = .nullPte := by
  have hG : L.Ram (· ∈ s.freelist) := fun f hf => hF f (h.within f hf)
  unfold execArgs
  refine (pushArgs_ensures himage.toStacked hargc hlen junk).bind fun r s2 ⟨hout2, hno, hr⟩ => ?_
  have hout' : ∀ f, f ∉ s.freelist → s2.mem f = s.mem f := fun f hf => (hout2 f hf).trans (hout f hf)
  cases r with
  | none =>
    refine (bad_ensures hG (some d) hr.1).mono ?_
    rintro a s' ⟨ha, hfree, hout3⟩
    exact ⟨hno, .inl ⟨hfree.failed ha fun f hf => (hout3 f hf).trans (hout' f hf), hr.2⟩⟩
  | some esp =>
    obtain ⟨hstacked, hfits, hbytes, hencodes⟩ := hr
    -- the old space, and what is left of the free list
    have hold := h.narrow (fun f _ hf => hout' f hf) hstacked.space.nodup hstacked.space.within
    have hold' : L.Ram fun f => (F f ∧ f ∉ s.freelist) ∨ f ∈ s2.freelist := by
      rintro f (hf | hf)
      · exact hF f hf.1
      · exact hG f (hstacked.space.within f hf)
    refine (freevm_ensures hold' hold).bind fun _ s' ⟨hfree, hout3, _⟩ => ?_
    obtain ⟨hspace, huntouched⟩ := hstacked.space.widen (fun _ => Iff.rfl) h.within hfree hout3
    have hlt := hstacked.lt
    refine ⟨hno, .inr ⟨rfl, fun f hf => ?_, rfl, rfl, rfl, rfl, huntouched.stacked hstacked hspace,
      fun x hx => ?_, hfits,
      huntouched.encodes hlt hencodes⟩⟩
    · grind
    have hle : (n + 1) * PGSIZE ≤ (n + 2) * PGSIZE := Nat.mul_le_mul_right PGSIZE (by omega)
    show byteAt s'.mem d x = _
    rw [huntouched.byteAt (by omega), hbytes x hx, himage.bytes x (by omega)]

theorem exec_bad (hF : L.Ram F) (h : Space F [] p.pgdir s) {pgdir : Option Nat}
    (hload : load L file s = .ok (.bad pgdir, s1)) :
    Ensures (exec L p (some file) path argv junk) s (fun a s' => ExecFailed p a s s') E := by
  have hG : L.Ram (· ∈ s.freelist) := fun f hf => hF f (h.within f hf)
  obtain ⟨hout, hr⟩ := (load_ensures (E := E) hG ⟨h.nodup, fun _ => Iff.rfl⟩).of_ok hload
  rw [exec, ensures_bind_of_ok hload]
  have hbad : Ensures (bad L pgdir p) s1 _ E := bad_ensures hG pgdir (by cases pgdir <;> exact hr)
  refine hbad.mono ?_
  rintro a s' ⟨ha, hfree, hout'⟩
  exact hfree.failed ha fun f hf => (hout' f hf).trans (hout f hf)

theorem exec_done (hF : L.Ram F) (h : Space F [] p.pgdir s) {sz entry : Nat}
    (hload : load L file s = .ok (.done d sz entry, s1)) (hargc : argv.length < MAXARG)
    (hlen : ∀ arg ∈ argv, arg.length < KERNBASE) (path : List UInt8) (junk : Nat → Nat) : ∃ n, sz = (n + 2) * PGSIZE ∧
    Ensures (exec L p (some file) path argv junk) s
      (fun a s' => ¬ Falls ((n + 1) * PGSIZE) sz argv ∧ ((ExecFailed p a s s' ∧ PGSIZE < encodedSize argv) ∨
        (a.2.pgdir = d ∧ (∀ f, ¬ F f → s'.mem f = s.mem f) ∧ ExecDone F file path argv n a s')))
      fun e => Falls ((n + 1) * PGSIZE) sz argv ∧ e = .nullPte := by
  have hG : L.Ram (· ∈ s.freelist) := fun f hf => hF f (h.within f hf)
  obtain ⟨hout, rfl, n, rfl, himage, -⟩ :=
    (load_ensures (E := fun _ => False) hG ⟨h.nodup, fun _ => Iff.rfl⟩).of_ok hload
  refine ⟨n, rfl, ?_⟩
  rw [exec, ensures_bind_of_ok hload]
  exact execArgs_ensures hF h himage hout hargc hlen

theorem stack_base (n : Nat) : (n + 2) * PGSIZE - PGSIZE = (n + 1) * PGSIZE := by
  rw [← Nat.sub_one_mul, Nat.add_sub_cancel (n + 1) 1]

theorem exec_fits (hF : L.Ram F) (h : Space F [] p.pgdir s) {sz entry : Nat}
    (hload : load L file s = .ok (.done d sz entry, s1)) (hargc : argv.length < MAXARG)
    (hlen : ∀ arg ∈ argv, arg.length < KERNBASE) (hfits : encodedSize argv ≤ PGSIZE)
    (hrun : exec L p (some file) path argv junk s = .ok (a, s')) : a.1 = 0 := by
  obtain ⟨n, -, hensures⟩ := exec_done hF h hload hargc hlen path junk
  obtain ⟨-, ⟨-, hbig⟩ | ⟨-, -, hdone⟩⟩ := hensures.of_ok hrun
  · exact absurd hfits (Nat.not_le.2 hbig)
  · exact hdone.result

theorem exec_falls (hF : L.Ram F) (h : Space F [] p.pgdir s) {sz entry : Nat}
    (hload : load L file s = .ok (.done d sz entry, s1)) (hargc : argv.length < MAXARG)
    (hlen : ∀ arg ∈ argv, arg.length < KERNBASE) (hfalls : Falls (sz - PGSIZE) sz argv) :
    exec L p (some file) path argv junk s = .error .nullPte := by
  obtain ⟨n, rfl, hensures⟩ := exec_done hF h hload hargc hlen path junk
  rw [stack_base] at hfalls
  obtain ⟨e, hrun, -, rfl⟩ := ensures_stop_iff.1 (hensures.mono fun _ _ hno => hno.1 hfalls)
  exact hrun

/-! ## A program without segments -/

/-- A file of 52 bytes: the magic number, and no program headers. -/
def smallElf : List UInt8 := [0x7f, 0x45, 0x4c, 0x46] ++ List.replicate 48 0

theorem load_smallElf (hF : L.Ram F) (h : Free F [] s) (hample : s.Ample 72) :
    Ensures (load L smallElf) s (fun r s' => ∃ d, r = .done d 8192 0 ∧ Stacked F d 0 s') E := by
  have hread : readi smallElf 0 ELFHDRSIZE = some smallElf := by decide
  have hlen : smallElf.length = ELFHDRSIZE := by decide
  have hmagic : (elfhdr smallElf).magic = ELF_MAGIC := by decide
  have hphnum : (elfhdr smallElf).phnum = 0 := by decide
  have hentry : (elfhdr smallElf).entry = 0 := by decide
  unfold load
  rw [hread]
  simp only [hlen, hmagic, hphnum, hentry, ne_eq, not_true_eq_false, if_false]
  refine (setupkvm_ensures hF h).bind fun r s1 ⟨_, hr⟩ => ?_
  cases r with
  | none => exact absurd hample (hr.2 4)
  | some d =>
    obtain ⟨hspace, hkernel, hnone, hleft⟩ := hr
    have hstart := Loading.empty hspace hkernel hnone
    have hloads : Ensures (loadStack L d 0 0) s1 _ E := loadStack_ensures hF hstart 0
    refine hloads.mono ?_
    rintro r s' ⟨-, ⟨-, -, hshort⟩ | ⟨rfl, himage⟩⟩
    · exact absurd (hleft 4 hample) (hshort (by decide) 0)
    · exact ⟨d, rfl, himage.toStacked⟩

/-- A process that calls `exec`. -/
def caller (sz : Nat) : Proc := { pgdir := 258, sz, name := [], eip := 0, esp := 0 }

theorem exec_smallElf (hF : L.Ram F) (h : Space F [] p.pgdir s) (hample : s.Ample 72) :
    ∃ d s1, load L smallElf s = .ok (.done d 8192 0, s1) ∧ Stacked (· ∈ s.freelist) d 0 s1 := by
  have hG : L.Ram (· ∈ s.freelist) := fun f hf => hF f (h.within f hf)
  have hloads : Ensures (load L smallElf) s _ fun _ => False :=
    load_smallElf hG ⟨h.nodup, fun _ => Iff.rfl⟩ hample
  obtain ⟨_, s1, hload, d, rfl, hstacked⟩ := ensures_false_iff.1 hloads
  exact ⟨d, s1, hload, hstacked⟩

theorem emptyMachine_ample (n : Nat) : (emptyMachine n).Ample n :=
  ⟨fun _ => rfl, Nat.le_of_eq List.length_range'.symm⟩

/-! ## Loading any file -/

/-- The memory below the stack is what the file describes. -/
structure Loaded (file : List UInt8) (d sz : Nat) (s : Machine) : Prop where
  le : sz ≤ KERNBASE
  segments : ∀ ph ∈ fileHeaders file, ph.Loadable → ph.vaddr % PGSIZE = 0 ∧ ph.Fits file (sz - 2 * PGSIZE)
  bytes : ∀ a < sz - PGSIZE, byteAt s.mem d a = some (image file (fileHeaders file) a)

theorem Loaded.of_pages (hlt : (n + 2) * PGSIZE < KERNBASE)
    (hsegments : ∀ ph ∈ fileHeaders file, ph.Loadable → ph.vaddr % PGSIZE = 0 ∧ ph.Fits file (n * PGSIZE))
    (hbytes : ∀ a < (n + 1) * PGSIZE, byteAt s.mem d a = some (image file (fileHeaders file) a)) :
    Loaded file d ((n + 2) * PGSIZE) s := by
  have hprogram : (n + 2) * PGSIZE - 2 * PGSIZE = n * PGSIZE := by rw [← Nat.sub_mul, Nat.add_sub_cancel]
  refine ⟨Nat.le_of_lt hlt, ?_, ?_⟩
  · rw [hprogram]
    exact hsegments
  · rw [stack_base]
    exact hbytes

/-- Whatever the bytes of the file are, loading ends.  If it fails, `exec` returns `-1` and nothing is different; if it
succeeds, the memory is what the file describes, also when the arguments have been pushed and the new space
is in use. -/
theorem exec_loads (hF : L.Ram F) (h : Space F [] p.pgdir s) (file path : List UInt8) (argv : List (List UInt8))
    (junk : Nat → Nat) : ∃ r s1, load L file s = .ok (r, s1) ∧
      match r with
      | .bad _ => ∃ a s', exec L p (some file) path argv junk s = .ok (a, s') ∧ ExecFailed p a s s'
      | .done d sz _ => Loaded file d sz s1 ∧ (∀ f, f ∉ s.freelist → s1.mem f = s.mem f) ∧
          (argv.length < MAXARG → (∀ arg ∈ argv, arg.length < KERNBASE) → ∀ a s',
            exec L p (some file) path argv junk s = .ok (a, s') →
              ExecFailed p a s s' ∨ (a.1 = 0 ∧ a.2.pgdir = d ∧ a.2.sz = sz ∧ Loaded file d sz s')) := by
  have hG : L.Ram (· ∈ s.freelist) := fun f hf => hF f (h.within f hf)
  obtain ⟨r, s1, hload, hout, hr⟩ :=
    ensures_false_iff.1 (load_ensures (E := fun _ => False) hG ⟨h.nodup, fun _ => Iff.rfl⟩)
  refine ⟨r, s1, hload, ?_⟩
  cases r with
  | bad pgdir =>
      exact ensures_false_iff.1 (exec_bad hF h hload)
  | done d sz entry =>
      obtain ⟨-, n, rfl, himage, hsegments⟩ := hr
      refine ⟨.of_pages himage.lt hsegments fun a ha => himage.bytes a ?_, hout, fun hargc hlen a s' hrun => ?_⟩
      · exact Nat.lt_of_lt_of_le ha (Nat.mul_le_mul_right PGSIZE (Nat.le_succ (n + 1)))
      · obtain ⟨m, hm, hensures⟩ := exec_done hF h hload hargc hlen path junk
        obtain rfl : n = m := by
          have := Nat.eq_of_mul_eq_mul_right (by decide) hm
          omega
        obtain ⟨-, ⟨hfailed, -⟩ | ⟨rfl, -, hdone⟩⟩ := hensures.of_ok hrun
        · exact .inl hfailed
        · exact .inr ⟨hdone.result, rfl, hdone.sz, .of_pages himage.lt hsegments hdone.bytes⟩

theorem exec_loads_smallElf : smallKernel.Ram (emptyPages 80) ∧ Space (emptyPages 80) [] 258 (emptyMachine 80) ∧
    ∃ d sz entry s1, load smallKernel smallElf (emptyMachine 80) = .ok (.done d sz entry, s1) ∧
      Loaded smallElf d sz s1 := by
  have hprocess := emptyMachine_process 80 (by decide)
  refine ⟨hprocess.ram, hprocess.space, ?_⟩
  obtain ⟨d, s1, hload, -⟩ := exec_smallElf (p := caller 0) hprocess.ram hprocess.space
    ((emptyMachine_ample 80).mono (by decide))
  obtain ⟨r, s2, hrun, hr⟩ := exec_loads (p := caller 0) hprocess.ram hprocess.space smallElf [] [] fun _ => 0
  rw [hload] at hrun
  cases hrun
  exact ⟨d, _, _, s1, hload, hr.1⟩

/-! ## The arguments -/

theorem not_falls_of_short {base : Nat} (argv : List (List UInt8)) (sp : Nat) (hsp : sp < KERNBASE)
    (hshort : ∀ arg ∈ argv, arg.length < 2 ^ 25) : ¬ Falls base sp argv := by
  induction argv generalizing sp with
  | nil => exact not_false
  | cons arg argv ih => grind [Falls, Hole, minus, DEVSPACE]

theorem not_execFalls_of_short (hF : L.Ram F) (h : Space F [] p.pgdir s)
    (hshort : ∀ arg ∈ argv, arg.length < 2 ^ 25) : ¬ ExecFalls L file argv s := by
  rintro ⟨d, sz, entry, s1, hload, hfalls⟩
  have hG : L.Ram (· ∈ s.freelist) := fun f hf => hF f (h.within f hf)
  obtain ⟨-, -, n, rfl, himage, -⟩ :=
    (load_ensures (E := fun _ => False) hG ⟨h.nodup, fun _ => Iff.rfl⟩).of_ok hload
  exact not_falls_of_short argv _ himage.lt hshort hfalls

/-- The stack page of the process, above the guard page, holds the arguments. -/
def Decodes (p : Proc) (argv : List (List UInt8)) (s : Machine) : Prop :=
  ∃ n ptrs, p.sz = (n + 2) * PGSIZE ∧ ForUser s.mem p.pgdir (n + 1) ∧
    (∃ w, pteOf s.mem p.pgdir n = some w ∧ user w = false) ∧ Encodes s.mem p.pgdir n p.esp argv ptrs

theorem ExecDone.decodes (h : ExecDone F file path argv n a s) : Decodes a.2 argv s :=
  ⟨n, _, h.sz, h.stacked.user (n + 1) (Nat.lt_succ_self _) (Nat.succ_ne_self n), h.stacked.guard, h.encodes⟩

/-- `exec` returns, with the arguments on the stack or with `-1`, unless a string without room is pushed to an address
without a page table. -/
theorem exec_arguments (hF : L.Ram F) (h : Space F [] p.pgdir s) (hargc : argv.length < MAXARG)
    (hlen : ∀ arg ∈ argv, arg.length < KERNBASE) (file : Option (List UInt8))
    (hfalls : ∀ bytes ∈ file, ¬ ExecFalls L bytes argv s) (path : List UInt8) (junk : Nat → Nat) :
    ∃ a s', exec L p file path argv junk s = .ok (a, s') ∧ (a.1 = 0 → Decodes a.2 argv s') ∧
      (PGSIZE < encodedSize argv → a.1 = -1) := by
  have hrefused : ∀ {a : Int × Proc} {s' : Machine}, a = (-1, p) →
      (a.1 = 0 → Decodes a.2 argv s') ∧ (PGSIZE < encodedSize argv → a.1 = -1) := by
    rintro _ s' rfl
    exact ⟨fun hzero => absurd (show (-1 : Int) = 0 from hzero) (by decide), fun _ => rfl⟩
  cases file with
  | none =>
    exact ⟨(-1, p), s, rfl, hrefused rfl⟩
  | some file =>
    have hG : L.Ram (· ∈ s.freelist) := fun f hf => hF f (h.within f hf)
    have hloads : Ensures (load L file) s _ fun _ => False := load_ensures hG ⟨h.nodup, fun _ => Iff.rfl⟩
    obtain ⟨r, s1, hload, -⟩ := ensures_false_iff.1 hloads
    cases r with
    | bad pgdir =>
      obtain ⟨a, s', hrun, hfailed⟩ := ensures_false_iff.1 (exec_bad hF h hload)
      exact ⟨a, s', hrun, hrefused hfailed.result⟩
    | done d sz entry =>
      obtain ⟨n, rfl, hensures⟩ := exec_done hF h hload hargc hlen path junk
      have hno : ¬ Falls ((n + 1) * PGSIZE) ((n + 2) * PGSIZE) argv := by
        intro hfall
        refine hfalls file rfl ⟨d, _, entry, s1, hload, ?_⟩
        rw [stack_base]
        exact hfall
      obtain ⟨a, s', hrun, -, hr⟩ := ensures_false_iff.1 (hensures.mono_stop fun e he => hno he.1)
      refine ⟨a, s', hrun, ?_⟩
      rcases hr with ⟨hfailed, -⟩ | ⟨-, -, hdone⟩
      · exact hrefused hfailed.result
      · exact ⟨fun _ => hdone.decodes, fun hbig => absurd hdone.fits (Nat.not_le.2 hbig)⟩

theorem exec_arguments_hi : ∃ a s', exec smallKernel (caller 0) (some smallElf) [] [[104, 105]] (fun _ => 0)
    (emptyMachine 80) = .ok (a, s') ∧ a.1 = 0 ∧ Decodes a.2 [[104, 105]] s' := by
  have hprocess := emptyMachine_process 80 (by decide)
  have hargc : [([104, 105] : List UInt8)].length < MAXARG := by decide
  have hlen : ∀ arg ∈ [([104, 105] : List UInt8)], arg.length < KERNBASE := by decide
  have hshort : ∀ arg ∈ [([104, 105] : List UInt8)], arg.length < 2 ^ 25 := by decide
  obtain ⟨d, s1, hload, -⟩ := exec_smallElf (p := caller 0) hprocess.ram hprocess.space
    ((emptyMachine_ample 80).mono (by decide))
  obtain ⟨a, s', hrun, hdecodes, -⟩ := exec_arguments (p := caller 0) hprocess.ram hprocess.space hargc hlen
    (some smallElf) (fun _ _ => not_execFalls_of_short (p := caller 0) hprocess.ram hprocess.space hshort)
    [] fun _ => 0
  have hzero := exec_fits (p := caller 0) hprocess.ram hprocess.space hload hargc hlen (by decide) hrun
  exact ⟨a, s', hrun, hzero, hdecodes hzero⟩

def longArg : List UInt8 := List.replicate 33562627 97

theorem length_longArg : longArg.length = 33562627 := List.length_replicate

theorem minus_longArg : minus 8192 (longArg.length + 1) / 4 * 4 = 0xFDFFFFFC := by
  rw [length_longArg]
  decide

theorem longArg_process : ∃ s, Process smallKernel (emptyPages (72 + 2 * pagesOf 33566720))
    { pgdir := 258, sz := 33566720 } s ∧ s.Ample 72 :=
  exists_process 33566720 72 (by decide) (by decide)

/-- The argument does not fit on the stack, and `exec` does not return. -/
theorem exec_longArg : ∃ s, Process smallKernel (emptyPages (72 + 2 * pagesOf 33566720))
    { pgdir := 258, sz := 33566720 } s ∧ PGSIZE < encodedSize [longArg] ∧
    exec smallKernel (caller 33566720) (some smallElf) [] [longArg] (fun _ => 0) s = .error .nullPte := by
  obtain ⟨s, hprocess, hample⟩ := longArg_process
  obtain ⟨d, s1, hload, -⟩ := exec_smallElf (p := caller 33566720) hprocess.ram hprocess.space hample
  have hroom : room longArg = 33562628 := by
    rw [room, length_longArg]
  have hlen : ∀ arg ∈ [longArg], arg.length < KERNBASE := by
    rw [List.forall_mem_singleton, length_longArg]
    decide
  refine ⟨s, hprocess, ?_, exec_falls (p := caller 33566720) hprocess.ram hprocess.space hload ?_ hlen ?_⟩
  · rw [encodedSize, List.map_singleton, List.sum_singleton, hroom]
    decide
  · rw [List.length_singleton]
    decide
  · rw [Falls, hroom, if_neg (by decide), minus_longArg]
    decide

/-! ## Directories that `exec` makes -/

/-- The directories that `exec` makes: when the program is loaded, while something is copied out to it, and when the
process uses it. -/
inductive Produced (L : Layout) (F : Nat → Prop) : Nat → Machine → Prop
  | load {file : List UInt8} {d sz entry : Nat} {s s' : Machine} (free : Free F [] s)
      (run : load L file s = .ok (.done d sz entry, s')) : Produced L F d s'
  | copyout {d va : Nat} {buf : List UInt8} {r : Int} {s s' : Machine} (dir : Produced L F d s) (word : va < 2 ^ 32)
      (run : copyout d va buf s = .ok (r, s')) : Produced L F d s'
  | exec {p : Proc} {file path : List UInt8} {argv : List (List UInt8)} {junk : Nat → Nat} {a : Int × Proc}
      {s s' : Machine} (space : Space F [] p.pgdir s) (argc : argv.length < MAXARG)
      (len : ∀ arg ∈ argv, arg.length < KERNBASE) (run : exec L p (some file) path argv junk s = .ok (a, s'))
      (result : a.1 = 0) : Produced L F a.2.pgdir s'

theorem ExecFailed.ne_zero (h : ExecFailed p a s s') : a.1 ≠ 0 := by
  rw [h.result]
  show (-1 : Int) ≠ 0
  decide

theorem exec_stacked (hF : L.Ram F) (h : Space F [] p.pgdir s) (hargc : argv.length < MAXARG)
    (hlen : ∀ arg ∈ argv, arg.length < KERNBASE)
    (hrun : exec L p (some file) path argv junk s = .ok (a, s')) (hzero : a.1 = 0) : ∃ n, Stacked F a.2.pgdir n s' := by
  have hG : L.Ram (· ∈ s.freelist) := fun f hf => hF f (h.within f hf)
  have hloads : Ensures (load L file) s _ fun _ => False := load_ensures hG ⟨h.nodup, fun _ => Iff.rfl⟩
  obtain ⟨r, s1, hload, -⟩ := ensures_false_iff.1 hloads
  cases r with
  | bad pgdir => exact absurd hzero ((exec_bad (E := fun _ => False) hF h hload).of_ok hrun).ne_zero
  | done d sz entry =>
    obtain ⟨n, rfl, hensures⟩ := exec_done hF h hload hargc hlen path junk
    obtain ⟨-, ⟨hfailed, -⟩ | ⟨-, -, hdone⟩⟩ := hensures.of_ok hrun
    · exact absurd hzero hfailed.ne_zero
    · exact ⟨n, hdone.stacked⟩

theorem Produced.stacked (h : Produced L F d s) (hF : L.Ram F) : ∃ n, Stacked F d n s := by
  induction h with
  | load free run =>
    obtain ⟨-, -, n, -, himage, -⟩ := (load_ensures (E := fun _ => False) hF free).of_ok run
    exact ⟨n, himage.toStacked⟩
  | copyout _ word run ih =>
    obtain ⟨n, hstacked⟩ := ih
    obtain ⟨k, -, hspace, hwritten, -⟩ := (copyout_ensures hstacked.space hstacked.kernel word _).of_ok run
    exact ⟨n, hwritten.stacked hstacked hspace⟩
  | exec space argc len run result => exact exec_stacked hF space argc len run result

/-- If the first page of the range that is not for the user has a page table, `copyout` returns, and all that it writes
are pages of the range whose entries are present and for the user. -/
theorem copyout_present {va : Nat} (hF : L.Ram F) (h : Produced L F d s) (hva : va < 2 ^ 32) (buf : List UInt8)
    (htable : ∀ k < buf.length, Reaches s.mem d va buf.length k →
      (tableOf s.mem d ((va + k) / PGSIZE / 1024)).isSome) :
    ∃ r s', copyout d va buf s = .ok (r, s') ∧ (r = -1 ∨ r = 0) ∧ ∀ f, s'.mem f ≠ s.mem f →
      ∃ k < buf.length, ∃ w, pteOf s.mem d ((va + k) / PGSIZE) = some w ∧ user w = true ∧ pageOf w = f := by
  obtain ⟨n, hstacked⟩ := h.stacked hF
  have hcopies := (copyout_ensures hstacked.space hstacked.kernel hva buf).mono_stop
    (F := fun _ => False) (by
      rintro e ⟨-, k, hk, hreach, hnone⟩
      have hsome := htable k hk hreach
      rw [hnone] at hsome
      cases hsome)
  obtain ⟨r, s', hrun, k, hreach, -, hwritten, hr⟩ := ensures_false_iff.1 hcopies
  refine ⟨r, s', hrun, ?_, fun f hf => ?_⟩
  · rcases hr with ⟨hr, -⟩ | ⟨hr, -⟩
    · exact .inr hr
    · exact .inl hr
  · obtain ⟨a, w, hlo, hhi, hw, hpage⟩ := (hwritten.frame f).resolve_left hf
    obtain ⟨j, rfl⟩ := Nat.exists_eq_add_of_le hlo
    rw [List.length_take] at hhi
    obtain ⟨w', hw', huser⟩ := hreach.user j (by omega)
    rw [hw] at hw'
    cases hw'
    exact ⟨j, by omega, w, hw, huser, hpage⟩

theorem copyout_present_stack : ∃ d s, Produced smallKernel (· ∈ (emptyMachine 80).freelist) d s ∧
    ∃ r s', copyout d 4096 [7] s = .ok (r, s') ∧ (r = -1 ∨ r = 0) ∧ ∀ f, s'.mem f ≠ s.mem f →
      ∃ k < 1, ∃ w, pteOf s.mem d ((4096 + k) / PGSIZE) = some w ∧ user w = true ∧ pageOf w = f := by
  have hprocess := emptyMachine_process 80 (by decide)
  obtain ⟨d, s, hload, hstacked⟩ := exec_smallElf (p := caller 0) hprocess.ram hprocess.space
    ((emptyMachine_ample 80).mono (by decide))
  have hproduced : Produced smallKernel (· ∈ (emptyMachine 80).freelist) d s :=
    .load ⟨hprocess.space.nodup, fun _ => Iff.rfl⟩ hload
  refine ⟨d, s, hproduced, copyout_present (fun f hf => hprocess.ram f (hprocess.space.within f hf)) hproduced
    (by decide) [7] fun k hk hreach => ?_⟩
  obtain rfl : k = 0 := Nat.lt_one_iff.1 hk
  exact absurd (hstacked.user 1 (by decide) (by decide)) (hreach.refused hk)

/-- The address that `exec` computes for the long argument has no page table, and `copyout` reads its entry. -/
theorem copyout_longArg : ∃ s, Process smallKernel (emptyPages (72 + 2 * pagesOf 33566720))
    { pgdir := 258, sz := 33566720 } s ∧ ∃ d s1, load smallKernel smallElf s = .ok (.done d 8192 0, s1) ∧
      copyout d (minus 8192 (longArg.length + 1) / 4 * 4) (longArg ++ [0]) s1 = .error .nullPte := by
  obtain ⟨s, hprocess, hample⟩ := longArg_process
  obtain ⟨d, s1, hload, hstacked⟩ := exec_smallElf (p := caller 33566720) hprocess.ram hprocess.space hample
  refine ⟨s, hprocess, d, s1, hload, ?_⟩
  rw [minus_longArg]
  exact copyout_hole hstacked (by decide) (List.length_pos_iff.2 (List.append_ne_nil_of_right_ne_nil _ (by decide)))

end ExecRun

end AsoPracticas.Xv6.Vm
