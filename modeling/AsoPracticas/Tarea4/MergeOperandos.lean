import AsoPracticas.Tarea4.MergeFiles

/-!
# MergeOperandos — the operands of `merge_files` that cannot be used

Before the merge loop `main` looks for operands that do not exist and opens the others.  It takes one
from `numFicheros` for each operand that does not exist, remembers the position of the last one only, and
opens every later operand twice, for two positions of `arrayFD`.  What `open` returns is not checked, and
a `read` that fails is repeated.

* `merge_files_skips_iff` — it does what it should exactly if every operand is a file that can be read,
  but for the last one, which may be missing, and no flag of a file with bytes is set at the start;
* `merge_files_operand_slips` — a missing operand before a file, and one that cannot be opened.
-/

namespace AsoPracticas.Tarea4.MergeFiles

/-! ## The program -/

/-- An operand, as `access`, `open` and `read` find it. -/
inductive Operando
  | noExiste
  /-- `open` fails -/
  | cerrado
  /-- every `read` fails -/
  | ilegible
  | fichero (contenido : List UInt8)
  deriving DecidableEq, Repr

def Operando.access : Operando → Int
  | .noExiste => -1
  | _ => 0

/-- The next descriptor that `open` gives, and what is behind the descriptors.  The file behind descriptor
`fd` is at `fd + 1`, so that there is a place for `-1`. -/
structure Descriptores where
  siguiente : Nat
  detras : Nat → Operando

/-- `open(argv[i], O_RDONLY)` -/
def openRdonly (d : Descriptores) : Operando → Int × Descriptores
  | .noExiste => (-1, d)
  | .cerrado => (-1, d)
  | op => (d.siguiente,
      { siguiente := d.siguiente + 1, detras := Function.update d.detras (d.siguiente + 1) op })

/-- `read` on a descriptor with this operand behind it. -/
def leerOperando : Operando → Int → Int × List UInt8 × Operando
  | .fichero c, n =>
    let (num_read, bytes, resto) := leerRegular c n
    (num_read, bytes, .fichero resto)
  | op, _ => (-1, [], op)

/-- The body of the first loop: `numFicheros` and `posicionFicheroMalo` after operand `j`. -/
def compruebaAcceso (optind : Nat) (s : Int × Nat) (x : Operando × Nat) : Int × Nat :=
  if x.1.access = -1 then (s.1 - 1, optind + x.2) else s

structure Apertura where
  activador : Nat
  arrayFD : Nat → Int
  desc : Descriptores

/-- `int fdin = open(argv[i], O_RDONLY); arrayFD[pos] = fdin;` -/
def guardaFD (numFicheros pos : Int) (op : Operando) (st : Apertura) : Except Fallo Apertura :=
  let (fdin, desc) := openRdonly st.desc op
  if 0 ≤ pos ∧ pos < numFicheros then
    .ok { st with arrayFD := Function.update st.arrayFD pos.toNat fdin, desc := desc }
  else .error .desbordamiento

def abre (optind : Nat) (numFicheros : Int) (posicionFicheroMalo : Nat) (st : Apertura)
    (x : Operando × Nat) : Except Fallo Apertura := do
  let st ← if st.activador ≠ 0 then guardaFD numFicheros (x.2 - 1) x.1 st else .ok st
  if posicionFicheroMalo ≠ optind + x.2 then guardaFD numFicheros x.2 x.1 st
  else .ok { st with activador := st.activador + 1 }

/-- The two loops of `main` over the operands: the final `numFicheros`, and the variables after them. -/
def apertura (optind : Nat) (numFicheros : Int) (ops : List Operando) (ap : Apertura) :
    Except Fallo (Int × Apertura) := do
  let (numFicheros, posicionFicheroMalo) :=
    ops.zipIdx.foldl (compruebaAcceso optind) (numFicheros, 0)
  let ap ← ops.zipIdx.foldlM (abre optind numFicheros posicionFicheroMalo) { ap with activador := 0 }
  return (numFicheros, ap)

/-- `main` from the operands on, where `numFicheros` is what `comprobarNumFicheros` has returned.
Returns the final `numFicheros` and the state after the opening loop too. -/
def mezclaOperandos (fuel buf_size optind : Nat) (numFicheros : Int) (fdout : Nat) (ops : List Operando)
    (ap : Apertura) (basura : Vars (Ficheros Operando)) :
    Except Fallo (Int × Apertura × Vars (Ficheros Operando)) := do
  let (numFicheros, ap) ← apertura optind numFicheros ops ap
  let st ← main (SO.completo leerOperando) fuel buf_size numFicheros.toNat (fun i => (ap.arrayFD i + 1).toNat) fdout
    { basura with so := { basura.so with entradas := ap.desc.detras } }
  return (numFicheros, ap, st)

/-! ## What is expected -/

def usables (ops : List Operando) : List (List UInt8) :=
  ops.filterMap fun
    | .fichero c => some c
    | _ => none

/-- The program returns, without a store outside `arrayFD`; it has then in `arrayFD` the descriptors of
the usable operands, in their order, and has written the merge of these operands. -/
def Omite (buf_size optind : Nat) (numFicheros : Int) (fdout : Nat) (ops : List Operando)
    (ap : Apertura) (basura : Vars (Ficheros Operando)) : Prop :=
  ∃ N, ∀ fuel, N ≤ fuel → ∃ num ap' st',
    mezclaOperandos fuel buf_size optind numFicheros fdout ops ap basura = .ok (num, ap', st') ∧
    num = (usables ops).length ∧
    (∀ i < (usables ops).length, ∀ j < (usables ops).length, ap'.arrayFD i = ap'.arrayFD j → i = j) ∧
    (∀ i (hi : i < (usables ops).length), 0 ≤ ap'.arrayFD i ∧
      ap'.desc.detras (ap'.arrayFD i + 1).toNat = .fichero (usables ops)[i]) ∧
    st'.so.salidas fdout = basura.so.salidas fdout ++ Lib.interleave (usables ops)

/-- All operands are files that can be read, but for the last one, which may not exist. -/
def Admisibles (ops : List Operando) : Prop :=
  ops = (usables ops).map .fichero ∨ ops = (usables ops).map .fichero ++ [.noExiste]

instance (ops : List Operando) : Decidable (Admisibles ops) := instDecidableOr

/-! ## The first loop -/

theorem zipIdx_concat (ops : List Operando) (op : Operando) :
    (ops ++ [op]).zipIdx = ops.zipIdx ++ [(op, ops.length)] := by
  simp [List.zipIdx_append]

/-- After the first loop: the operands that do not exist have been taken off, and the position is that of
the last one, or 0. -/
theorem accesos_eq (optind : Nat) (num : Int) (ops : List Operando) :
    (ops.zipIdx.foldl (compruebaAcceso optind) (num, 0) = (num, 0) ∧ .noExiste ∉ ops) ∨
    ∃ pre post, ops = pre ++ .noExiste :: post ∧
      ops.zipIdx.foldl (compruebaAcceso optind) (num, 0) = (num - ops.count .noExiste, optind + pre.length) := by
  induction ops using List.reverseRecOn with
  | nil => exact .inl ⟨rfl, by simp⟩
  | append_singleton ops op ih =>
    rw [zipIdx_concat, List.foldl_append, List.foldl_cons, List.foldl_nil]
    by_cases hop : op = .noExiste
    · subst hop
      refine .inr ⟨ops, [], rfl, ?_⟩
      have hnum : (ops.zipIdx.foldl (compruebaAcceso optind) (num, 0)).1 = num - ops.count .noExiste := by
        rcases ih with ⟨h, hnot⟩ | ⟨pre, post, -, h⟩
        · rw [h, List.count_eq_zero.2 hnot]
          simp
        · rw [h]
      simp only [compruebaAcceso, Operando.access, if_true, hnum, List.count_append, List.count_singleton_self]
      push_cast
      ring_nf
    · have hsame : compruebaAcceso optind (ops.zipIdx.foldl (compruebaAcceso optind) (num, 0))
          (op, ops.length) = ops.zipIdx.foldl (compruebaAcceso optind) (num, 0) := by
        cases op <;> first | exact absurd rfl hop | rfl
      rw [hsame]
      rcases ih with ⟨h, hnot⟩ | ⟨pre, post, hops, h⟩
      · refine .inl ⟨h, ?_⟩
        simp [hnot, Ne.symm hop]
      · refine .inr ⟨pre, post ++ [op], by simp [hops], ?_⟩
        rw [h, List.count_append, List.count_singleton]
        simp [hop]

theorem accesos_existen {optind : Nat} {num : Int} {ops : List Operando} (hall : Operando.noExiste ∉ ops) :
    ops.zipIdx.foldl (compruebaAcceso optind) (num, 0) = (num, 0) := by
  rcases accesos_eq optind num ops with ⟨hrun, -⟩ | ⟨pre, post, hsplit, -⟩
  · exact hrun
  · exact absurd (by rw [hsplit]; simp) hall

/-! ## The second loop -/

section Open

variable {optind pos : Nat} {num num' : Int} {ap ap' : Apertura} {ops : List Operando}

theorem guardaFD_lt {i : Int} {op : Operando} (h : guardaFD num i op ap = .ok ap') : i < num := by
  unfold guardaFD at h
  simp only at h
  split at h
  · rename_i hin
    exact hin.2
  · cases h

/-- If the loop returns, every operand but the one at the position remembered fits into the array. -/
theorem lt_of_abre {xs : List (Operando × Nat)} (h : xs.foldlM (abre optind num pos) ap = .ok ap') :
    ∀ x ∈ xs, pos ≠ optind + x.2 → (x.2 : Int) < num := by
  induction xs generalizing ap with
  | nil => simp
  | cons y ys ih =>
    obtain ⟨ap1, hy, hys⟩ := Lib.bind_eq_ok_iff.1 h
    intro x hx hne
    rcases List.mem_cons.1 hx with rfl | hx
    · simp only [abre, if_pos hne] at hy
      split at hy
      · obtain ⟨ap2, -, hstore⟩ := Lib.bind_eq_ok_iff.1 hy
        exact guardaFD_lt hstore
      · exact guardaFD_lt hy
    · exact ih hys x hx hne

/-- If the loops return, no operand is missing and all fit into the array, or all but the last missing one fit into
what the missing ones leave. -/
theorem apertura_cases (hoptind : 1 ≤ optind) (h : apertura optind num ops ap = .ok (num', ap')) :
    (.noExiste ∉ ops ∧ num' = num ∧ ∀ j < ops.length, (j : Int) < num') ∨
    ∃ pre post, ops = pre ++ .noExiste :: post ∧ num' = num - ops.count .noExiste ∧
      ∀ j < ops.length, j ≠ pre.length → (j : Int) < num' := by
  obtain ⟨ap1, hopen, ⟨⟩⟩ := Lib.bind_eq_ok_iff.1 h
  have hlt := lt_of_abre hopen
  have hmem : ∀ j (hj : j < ops.length), (ops[j], j) ∈ ops.zipIdx := fun j hj => by
    simp [List.mem_zipIdx_iff_getElem?, hj]
  rcases accesos_eq optind num ops with ⟨haccess, hnot⟩ | ⟨pre, post, hops, haccess⟩
  · rw [haccess] at hlt ⊢
    exact .inl ⟨hnot, rfl, fun j hj => hlt _ (hmem j hj) (show 0 ≠ _ by omega)⟩
  · rw [haccess] at hlt ⊢
    exact .inr ⟨pre, post, hops, rfl, fun j hj hne => hlt _ (hmem j hj) (show optind + pre.length ≠ _ by omega)⟩

/-- The variables after an operand has been opened for entry `m`. -/
def Apertura.guarda (ap : Apertura) (m : Nat) (op : Operando) : Apertura :=
  { ap with
    arrayFD := Function.update ap.arrayFD m (openRdonly ap.desc op).1
    desc := (openRdonly ap.desc op).2 }

/-- The variables after operands have been opened for the entries from `m` on. -/
def Apertura.guardaDesde (ap : Apertura) (m : Nat) : List Operando → Apertura
  | [] => ap
  | op :: ops => (ap.guarda m op).guardaDesde (m + 1) ops

theorem activador_guardaDesde (ap : Apertura) (m : Nat) (ops : List Operando) :
    (ap.guardaDesde m ops).activador = ap.activador := by
  induction ops generalizing ap m with
  | nil => rfl
  | cons op ops ih => exact ih (ap.guarda m op) (m + 1)

theorem guardaDesde_lt (ap : Apertura) {m j : Nat} (ops : List Operando) (hj : j < m) :
    (ap.guardaDesde m ops).arrayFD j = ap.arrayFD j := by
  induction ops generalizing ap m with
  | nil => rfl
  | cons op ops ih => exact (ih (ap.guarda m op) (by omega)).trans (Function.update_of_ne (by omega) _ _)

/-- The loop, as long as every operand exists and fits. -/
theorem abre_guarda (m : Nat) (ops : List Operando) (hap : ap.activador = 0)
    (hnum : ((m + ops.length : Nat) : Int) ≤ num) (hpos : ∀ j < ops.length, pos ≠ optind + (m + j)) :
    (ops.zipIdx m).foldlM (abre optind num pos) ap = .ok (ap.guardaDesde m ops) := by
  induction ops generalizing m ap with
  | nil => rfl
  | cons op ops ih =>
    rw [List.length_cons] at hnum hpos
    have hin : (0 : Int) ≤ (m : Int) ∧ (m : Int) < num := by omega
    have hstore : abre optind num pos ap (op, m) = .ok (ap.guarda m op) := by
      have hact : ¬ ap.activador ≠ 0 := fun h => h hap
      have hne : pos ≠ optind + m := hpos 0 (Nat.succ_pos _)
      simp only [abre, if_neg hact, if_pos hne, guardaFD, hin, and_self, if_true, Int.toNat_natCast]
      rfl
    rw [List.zipIdx_cons, List.foldlM_cons, hstore]
    refine ih (m + 1) hap (by omega) fun j hj => ?_
    have := hpos (j + 1) (by omega)
    omega

/-- Every operand exists: nothing is remembered, and 0 is the position of no operand. -/
theorem apertura_existen (hoptind : 1 ≤ optind) (hall : .noExiste ∉ ops) (hroom : (ops.length : Int) ≤ num)
    (ap : Apertura) :
    apertura optind num ops ap = .ok (num, { ap with activador := 0 }.guardaDesde 0 ops) := by
  simp only [apertura, accesos_existen hall]
  rw [abre_guarda 0 ops rfl (by omega) fun j _ => by omega]
  rfl

/-- The last operand is missing: it is the one remembered, and nothing comes after it. -/
theorem apertura_ultimo (hall : .noExiste ∉ ops) (ap : Apertura) :
    apertura optind (ops.length + 1 : Nat) (ops ++ [.noExiste]) ap =
      .ok (ops.length, { { ap with activador := 0 }.guardaDesde 0 ops with activador := 1 }) := by
  have hlast : abre optind ops.length (optind + ops.length) ({ ap with activador := 0 }.guardaDesde 0 ops)
      (.noExiste, ops.length) = .ok { { ap with activador := 0 }.guardaDesde 0 ops with activador := 1 } := by
    simp [abre, activador_guardaDesde, bind, Except.bind]
  have hfirst : compruebaAcceso optind (((ops.length + 1 : Nat) : Int), 0) (.noExiste, ops.length) =
      ((ops.length : Int), optind + ops.length) := by
    simp [compruebaAcceso, Operando.access]
  simp only [apertura, zipIdx_concat, List.foldl_append, accesos_existen hall, List.foldl_cons, List.foldl_nil, hfirst]
  rw [List.foldlM_append, abre_guarda 0 ops rfl (by omega) fun j hj => by omega]
  show ([(Operando.noExiste, ops.length)].foldlM _ _ >>= _) = _
  rw [List.foldlM_cons, hlast]
  rfl

theorem guardaDesde_ficheros (ap : Apertura) (m : Nat) (cs : List (List UInt8)) :
    (∀ fd ≤ ap.desc.siguiente, (ap.guardaDesde m (cs.map .fichero)).desc.detras fd = ap.desc.detras fd) ∧
      ∀ j (hj : j < cs.length), (ap.guardaDesde m (cs.map .fichero)).arrayFD (m + j) = ap.desc.siguiente + j ∧
        (ap.guardaDesde m (cs.map .fichero)).desc.detras (ap.desc.siguiente + j + 1) = .fichero cs[j] := by
  induction cs generalizing ap m with
  | nil => exact ⟨fun _ _ => rfl, by simp⟩
  | cons c cs ih =>
    obtain ⟨hkeep, hnew⟩ := ih (ap.guarda m (.fichero c)) (m + 1)
    have hnext : (ap.guarda m (.fichero c)).desc.siguiente = ap.desc.siguiente + 1 := rfl
    refine ⟨fun fd hfd => (hkeep fd (by omega)).trans (Function.update_of_ne (by omega) _ _), fun j hj => ?_⟩
    cases j with
    | zero =>
      refine ⟨(guardaDesde_lt _ _ (Nat.lt_succ_self m)).trans (Function.update_self ..), ?_⟩
      exact (hkeep _ le_rfl).trans (Function.update_self ..)
    | succ j =>
      rw [List.length_cons] at hj
      obtain ⟨hfd, hfile⟩ := hnew j (by omega)
      rw [show m + (j + 1) = m + 1 + j by omega,
        show ap.desc.siguiente + (j + 1) + 1 = ap.desc.siguiente + 1 + j + 1 by omega]
      exact ⟨hfd.trans (by push_cast; omega), hfile⟩

theorem apertura_admisibles (hoptind : 1 ≤ optind) {cs : List (List UInt8)}
    (hops : ops = cs.map .fichero ∨ ops = cs.map .fichero ++ [.noExiste]) (ap : Apertura) :
    ∃ ap', apertura optind ops.length ops ap = .ok (cs.length, ap') ∧
      ∀ j (hj : j < cs.length), ap'.arrayFD j = ap.desc.siguiente + j ∧
        ap'.desc.detras (ap.desc.siguiente + j + 1) = .fichero cs[j] := by
  have hnot : Operando.noExiste ∉ cs.map Operando.fichero := by simp
  obtain ⟨-, hfiles⟩ := guardaDesde_ficheros { ap with activador := 0 } 0 cs
  simp only [Nat.zero_add] at hfiles
  rcases hops with rfl | rfl
  · exact ⟨_, by simpa using apertura_existen hoptind hnot le_rfl ap, hfiles⟩
  · exact ⟨{ { ap with activador := 0 }.guardaDesde 0 (cs.map .fichero) with activador := 1 },
      by simpa using apertura_ultimo hnot ap, hfiles⟩

end Open

/-! ## The whole program -/

section Whole

variable {B optind fdout : Nat} {ops : List Operando} {cs : List (List UInt8)} {ap : Apertura}
  {basura : Vars (Ficheros Operando)}

theorem usables_append (xs ys : List Operando) : usables (xs ++ ys) = usables xs ++ usables ys :=
  List.filterMap_append

theorem length_usables_le (ops : List Operando) : (usables ops).length ≤ ops.length :=
  List.length_filterMap_le ..

theorem eq_map_usables (h : ops.length ≤ (usables ops).length) : ops = (usables ops).map .fichero := by
  induction ops with
  | nil => rfl
  | cons op ops ih =>
    have hle := length_usables_le ops
    cases op with
    | fichero c =>
      have hops := ih (by simpa [usables] using h)
      simpa [usables] using hops
    | _ =>
      simp [usables] at h hle
      omega

def Operando.bytes : Operando → List UInt8
  | .fichero c => c
  | _ => []

theorem lector_operando (B : Nat) : Lector B leerOperando (fun op => ∃ c, op = .fichero c) Operando.bytes where
  cuenta := by
    rintro _ ⟨c, rfl⟩
    exact (lector_regular B).cuenta c trivial
  cabe := by
    rintro _ ⟨c, rfl⟩
    exact (lector_regular B).cabe c trivial
  alcance := by
    rintro _ ⟨c, rfl⟩
    exact (lector_regular B).alcance c trivial
  sigue := by
    rintro _ ⟨c, rfl⟩
    exact ⟨_, rfl⟩

/-- What the merge takes from file `j`: nothing if its flag is set at the start. -/
def tomado (cs : List (List UInt8)) (basura : Vars (Ficheros Operando)) (j : Nat) : List UInt8 :=
  if basura.ficherosTerminados j = 1 then [] else cs.getD j []

theorem main_operandos (hB : 1 ≤ B) {arrayFD : Nat → Nat} (fdout : Nat) (basura : Vars (Ficheros Operando))
    (hfd : ∀ i < cs.length, ∀ j < cs.length, arrayFD i = arrayFD j → i = j)
    (hent : ∀ j (hj : j < cs.length), entrada arrayFD basura j = .fichero cs[j]) :
    ∃ N, ∀ fuel, N ≤ fuel →
      ∃ st', main (SO.completo leerOperando) fuel B cs.length arrayFD fdout basura = .ok st' ∧
        st'.so.salidas fdout = basura.so.salidas fdout ++
          Lib.interleave ((List.range cs.length).map (tomado cs basura)) := by
  by_cases hk : cs.length = 0
  · -- without files the loop is not entered
    refine ⟨1, fun fuel hfuel => ?_⟩
    obtain ⟨f, rfl⟩ := Nat.exists_eq_succ_of_ne_zero (by omega : fuel ≠ 0)
    rw [hk]
    refine ⟨{ basura with contador := 0, punterowrite := 0 }, rfl, ?_⟩
    simp [Lib.interleave, Lib.depth]
  · obtain ⟨N, hN⟩ := main_lector (lector_operando B) fdout hB (by omega : 1 ≤ cs.length) hfd basura
      fun j hj => ⟨_, hent j hj⟩
    have hmap : (List.range cs.length).map (alcanza Operando.bytes arrayFD basura) =
        (List.range cs.length).map (tomado cs basura) := by
      refine List.map_congr_left fun j hj => ?_
      have hj := List.mem_range.1 hj
      simp [alcanza, tomado, hent j hj, Operando.bytes, hj]
    rw [hmap] at hN
    exact ⟨N, hN⟩

theorem mezclaOperandos_run (hB : 1 ≤ B) (hoptind : 1 ≤ optind) (fdout : Nat)
    (hops : ops = cs.map .fichero ∨ ops = cs.map .fichero ++ [.noExiste]) (ap : Apertura)
    (basura : Vars (Ficheros Operando)) :
    ∃ N, ∀ fuel, N ≤ fuel → ∃ ap' st',
      mezclaOperandos fuel B optind ops.length fdout ops ap basura = .ok ((cs.length : Int), ap', st') ∧
      (∀ j (hj : j < cs.length), ap'.arrayFD j = ap.desc.siguiente + j ∧
        ap'.desc.detras (ap.desc.siguiente + j + 1) = .fichero cs[j]) ∧
      st'.so.salidas fdout = basura.so.salidas fdout ++
        Lib.interleave ((List.range cs.length).map (tomado cs basura)) := by
  obtain ⟨ap', hopen, hfiles⟩ := apertura_admisibles hoptind hops ap
  have hplace : ∀ j < cs.length, (ap'.arrayFD j + 1).toNat = ap.desc.siguiente + j + 1 := by
    intro j hj
    rw [(hfiles j hj).1]
    omega
  have hfd : ∀ i < cs.length, ∀ j < cs.length, (ap'.arrayFD i + 1).toNat = (ap'.arrayFD j + 1).toNat → i = j := by
    intro i hi j hj h
    rw [hplace i hi, hplace j hj] at h
    omega
  obtain ⟨N, hN⟩ := main_operandos hB fdout
    { basura with so := { basura.so with entradas := ap'.desc.detras } } hfd fun j hj => by
      rw [entrada, hplace j hj]
      exact (hfiles j hj).2
  refine ⟨N, fun fuel hfuel => ?_⟩
  obtain ⟨st', hmain, hout⟩ := hN fuel hfuel
  refine ⟨ap', st', ?_, hfiles, hout⟩
  rw [mezclaOperandos, hopen]
  show (main _ fuel B (cs.length : Int).toNat _ fdout _ >>= _) = _
  rw [Int.toNat_natCast, hmain]
  rfl

/-- Operands that are skipped as expected are admissible: a store for every operand but one has to fit
into an array that has no room for unusable ones. -/
theorem Omite.admisibles {num : Int} (hoptind : 1 ≤ optind)
    (h : Omite B optind num fdout ops ap basura) : num = ops.length ∧ Admisibles ops := by
  obtain ⟨N, hN⟩ := h
  obtain ⟨num', ap', st', hrun, hnum, -⟩ := hN N (Nat.le_refl N)
  obtain ⟨r, hopen, hrest⟩ := Lib.bind_eq_ok_iff.1 hrun
  obtain ⟨st1, -, ⟨⟩⟩ := Lib.bind_eq_ok_iff.1 hrest
  have hle := length_usables_le ops
  rcases apertura_cases hoptind hopen with ⟨hnot, hnum', hfit⟩ | ⟨pre, post, hops, hnum', hfit⟩
  · -- nothing is missing: all operands fit, so all are usable
    have hall : ops.length ≤ (usables ops).length := by
      by_contra hlt
      have hlast := hfit (ops.length - 1) (by omega)
      omega
    exact ⟨by omega, .inl (eq_map_usables hall)⟩
  · -- the last one missing is the last operand, and the others fit
    have husable : usables ops = usables pre ++ usables post := by
      rw [hops, usables_append]
      rfl
    have hlen : ops.length = pre.length + 1 + post.length := by
      rw [hops]
      simp
      omega
    have hpre := length_usables_le pre
    have hpost := length_usables_le post
    rw [husable, List.length_append] at hnum
    have hlast : post = [] := by
      by_contra hne
      have hpos := List.length_pos_iff.2 hne
      have hfits := hfit (ops.length - 1) (by omega) (by omega)
      omega
    subst hlast
    have hnil : (usables []).length = 0 := rfl
    have hall : pre.length ≤ (usables pre).length := by
      by_contra hlt
      have hfits := hfit (pre.length - 1) (by omega) (by omega)
      omega
    have heq := eq_map_usables hall
    have hcount : pre.count .noExiste = 0 := by
      rw [heq, List.count_eq_zero]
      simp
    refine ⟨?_, .inr ?_⟩
    · have hone : ops.count .noExiste = 1 := by
        rw [hops, List.count_append, hcount]
        rfl
      have hlen' : ops.length = pre.length + 1 := hlen
      omega
    · rw [husable]
      simpa [usables] using hops.trans (congrArg (· ++ [Operando.noExiste]) heq)

/-- The merge of what is taken from the files is the merge of the files exactly if the flag of no file
with bytes is set. -/
theorem interleave_tomado_iff :
    Lib.interleave ((List.range cs.length).map (tomado cs basura)) = Lib.interleave cs ↔
      ∀ j (hj : j < cs.length), basura.ficherosTerminados j = 1 → cs[j] = [] := by
  have hcs : (List.range cs.length).map (fun j => cs.getD j []) = cs := by
    apply List.ext_getElem
    · simp
    · intro j _ hj
      simp [hj]
  constructor
  · intro h j hj hflag
    have hlen := Lib.length_eq_of_interleave (k := cs.length) (c := fun j => cs.getD j [])
      (d := tomado cs basura) (fun j _ => by unfold tomado; split <;> simp) (by rw [h, hcs]) j hj
    rw [tomado, if_pos hflag] at hlen
    simpa [hj] using hlen.symm
  · intro h
    have hmap : (List.range cs.length).map (tomado cs basura) = (List.range cs.length).map fun j => cs.getD j [] := by
      refine List.map_congr_left fun j hj => ?_
      have hj := List.mem_range.1 hj
      unfold tomado
      split
      · rename_i hflag
        simp [hj, h j hj hflag]
      · rfl
    rw [hmap, hcs]

/-- `merge_files` skips the operands that it cannot use, with `numFicheros` the number of operands, if and
only if all operands are files that can be read but for the last one, which may not exist, and the flag
of no file with bytes is set at the start. -/
theorem merge_files_skips_iff {num : Int} (hB : 1 ≤ B) (hoptind : 1 ≤ optind) :
    Omite B optind num fdout ops ap basura ↔ num = ops.length ∧ Admisibles ops ∧
      ∀ j (hj : j < (usables ops).length), basura.ficherosTerminados j = 1 → (usables ops)[j] = [] := by
  constructor
  · intro h
    obtain ⟨hnum, hops⟩ := h.admisibles hoptind
    refine ⟨hnum, hops, interleave_tomado_iff.1 ?_⟩
    obtain ⟨N, hN⟩ := h
    obtain ⟨M, hM⟩ := mezclaOperandos_run hB hoptind fdout hops ap basura
    obtain ⟨_, _, st, hrun, -, -, -, hout⟩ := hN (max M N) (Nat.le_max_right M N)
    obtain ⟨_, st1, hrun', -, hout'⟩ := hM (max M N) (Nat.le_max_left M N)
    rw [hnum, hrun'] at hrun
    cases hrun
    exact List.append_cancel_left (hout'.symm.trans hout)
  · rintro ⟨rfl, hops, hflags⟩
    obtain ⟨N, hN⟩ := mezclaOperandos_run hB hoptind fdout hops ap basura
    refine ⟨N, fun fuel hfuel => ?_⟩
    obtain ⟨ap', st', hrun, hfiles, hout⟩ := hN fuel hfuel
    refine ⟨_, ap', st', hrun, rfl, fun i hi j hj h => ?_, fun i hi => ?_, ?_⟩
    · rw [(hfiles i hi).1, (hfiles j hj).1] at h
      omega
    · have hplace : (ap'.arrayFD i + 1).toNat = ap.desc.siguiente + i + 1 := by
        rw [(hfiles i hi).1]
        omega
      rw [hplace, (hfiles i hi).1]
      exact ⟨by omega, (hfiles i hi).2⟩
    · rw [hout, interleave_tomado_iff.2 hflags]

/-- The state before the operands are opened: 3 is the next descriptor. -/
def apInicial : Apertura where
  activador := 9
  arrayFD := fun _ => 77
  desc := { siguiente := 3, detras := fun _ => .ilegible }

def basuraOps : Vars (Ficheros Operando) where
  contador := 7
  porEscribir := fun _ => 9
  ficherosTerminados := fun _ => 0
  cjtoBuffer := fun _ _ => 170
  bufSalida := fun _ => 170
  punterowrite := 5
  a_Escribir := 5
  escritos := 5
  num_read := 5
  so := { entradas := fun _ => .ilegible, salidas := fun _ => [] }

theorem merge_files_skips_ultimo :
    Omite 2 1 3 1 [.fichero [1, 2, 3], .fichero [4], .noExiste] apInicial basuraOps :=
  (merge_files_skips_iff (by decide) (by decide)).2
    ⟨rfl, by decide, fun _ _ h => absurd h (show ¬ (0 : Int) = 1 by decide)⟩

/-- A `read` that fails every time is repeated for ever. -/
theorem leeEntrada_falla {ρ : Type} {leer : ρ → Int → Int × List UInt8 × ρ} {falla : ρ → Prop}
    (hleer : ∀ r n, falla r → (leer r n).1 = -1 ∧ falla (leer r n).2.2) (fd i fuel : Nat) {a : Int}
    (leidos : Int) (ha : 0 < a) (st : Vars (Ficheros ρ)) (hop : falla (st.so.entradas fd)) :
    leeEntrada (SO.completo leer) fd i fuel a leidos st = .error .combustible := by
  induction fuel generalizing a leidos st with
  | zero => rfl
  | succ fuel ih =>
    obtain ⟨hfail, hnext⟩ := hleer _ a hop
    simp only [leeEntrada, gt_iff_lt, ha, if_true, SO.completo, hfail]
    exact ih _ (by omega) _ (by simpa using hnext)

theorem main_ilegible {k : Nat} {arrayFD : Nat → Nat} (fuel fdout : Nat) (hB : 1 ≤ B)
    (hop : basura.so.entradas (arrayFD 0) = .ilegible) :
    main (SO.completo leerOperando) fuel B (k + 1) arrayFD fdout basura = .error .combustible := by
  cases fuel with
  | zero => rfl
  | succ fuel =>
    have hne : ((0 : Int) ≠ ((k + 1 : Nat) : Int)) := by omega
    have hfail : ∀ (r : Operando) (n : Int), r = .ilegible →
        (leerOperando r n).1 = -1 ∧ (leerOperando r n).2.2 = .ilegible := by
      rintro _ n rfl
      exact ⟨rfl, rfl⟩
    have hread := leeEntrada_falla hfail (arrayFD 0) 0 (fuel + 1) 0 (by omega : (0 : Int) < B)
      { basura with contador := 0, punterowrite := 0 } hop
    rw [main, mezcla, if_pos hne, ronda, List.range_succ_eq_map, List.foldlM_cons, lee, hread]
    rfl

theorem mezclaOperandos_error {fuel : Nat} {num num' : Int} {ap' : Apertura} {e : Fallo}
    (hopen : apertura optind num ops ap = .ok (num', ap'))
    (hmain : main (SO.completo leerOperando) fuel B num'.toNat (fun i => (ap'.arrayFD i + 1).toNat) fdout
      { basura with so := { basura.so with entradas := ap'.desc.detras } } = .error e) :
    mezclaOperandos fuel B optind num fdout ops ap basura = .error e := by
  rw [mezclaOperandos, hopen]
  show (main _ fuel B num'.toNat _ fdout _ >>= _) = _
  rw [hmain]
  rfl

/-- A missing operand before a file: the file is stored behind the end of `arrayFD` too.  And an operand
that exists but cannot be opened: its `-1` is taken for a descriptor, and the program does not return. -/
theorem merge_files_operand_slips :
    (∀ fuel, mezclaOperandos fuel 2 1 2 1 [.noExiste, .fichero [4]] apInicial basuraOps =
      .error .desbordamiento) ∧
    (∀ fuel, mezclaOperandos fuel 2 1 1 1 [.cerrado] apInicial basuraOps = .error .combustible) ∧
    ¬ Omite 2 1 2 1 [.noExiste, .fichero [4]] apInicial basuraOps ∧
    ¬ Omite 2 1 1 1 [.cerrado] apInicial basuraOps := by
  refine ⟨fun fuel => rfl, fun fuel => ?_, fun h => ?_, fun h => ?_⟩
  · exact mezclaOperandos_error rfl (main_ilegible fuel 1 (by decide) rfl)
  · exact absurd (h.admisibles (by decide)).2 (by decide)
  · exact absurd (h.admisibles (by decide)).2 (by decide)

end Whole

end AsoPracticas.Tarea4.MergeFiles
