import AsoPracticas.Tarea4.Argumentos
import AsoPracticas.Tarea4.MergeOperandos

/-!
# Recuento — the number of operands and the array of their descriptors

`merge_files` and `split_files` know how many operands they have in two ways.  `comprobarNumFicheros` takes
one word and two more for each option variable that is set off the vector; the loops that open the operands
run from `optind` to `argc`.  `arrayFD` is as long as the first number and is filled by the second.

* `operand_counts_iff` — the two numbers agree, and the array is filled exactly, if the options take two words
  for each option that is given (and, for `merge_files`, only the last operand may be missing);
* `operand_counts_slip` — an option with its argument attached, and `--`.
-/

namespace AsoPracticas.Tarea4

open Lib Argumentos

/-! ## The loops that open the operands -/

namespace MergeFiles

/-- What `open` returns for the operands, one after the other. -/
def abiertos (d : Descriptores) : List Operando → List Int
  | [] => []
  | op :: ops => (openRdonly d op).1 :: abiertos (openRdonly d op).2 ops

end MergeFiles

namespace SplitFiles

/-- The body of the loop, where `fdout j` is what `open` returns for operand `j`. -/
def abre (numFicheros : Nat) (fdout : Nat → Int) (arrayFD : Nat → Int) (x : Word × Nat) : Except Final (Nat → Int) :=
  if fdout x.2 = -1 then
    .error (.exit exitFailure
      ["Error: No se puede abrir/crear '" ++ String.ofList x.1 ++ "': Permission denied\n"])
  else if x.2 < numFicheros then
    .ok (Function.update arrayFD x.2 (fdout x.2))
  else
    .error .indefinido

/-- The loop of `main` over the operands. -/
def apertura (numFicheros : Nat) (fdout : Nat → Int) (ficheros : List Word) (arrayFD : Nat → Int) :
    Except Final (Nat → Int) :=
  ficheros.zipIdx.foldlM (abre numFicheros fdout) arrayFD

end SplitFiles

/-! ## What is expected -/

/-- `optind` after the option loop. -/
def optind (spec : Char → Option Bool) (argv : List Word) : Nat :=
  1 + (argv.tail.length - (getopt spec argv.tail).2.length)

/-- The program ends with `EXIT_FAILURE`. -/
def Rechaza (f : Final) : Prop :=
  ∃ stderr, f = .exit exitFailure stderr

/-- `merge_files` rejects the vector, or counts the operands, at most 16, stores every descriptor inside `arrayFD`
and has in each entry it then uses the descriptor of the operand at that place. -/
def MergeFiles.Recuento (argv : List Word) (mundo : Word → MergeFiles.Operando) : Prop :=
  match Argumentos.MergeFiles.argumentos argv with
  | .error f => Rechaza f
  | .ok e =>
    e.numFicheros = argv.length - optind (optspec ['t', ':', 'o', ':']) argv ∧ e.numFicheros ≤ 16 ∧
    ∀ ap, ∃ num ap',
      apertura (optind (optspec ['t', ':', 'o', ':']) argv) e.numFicheros (e.ficheros.map mundo) ap = .ok (num, ap') ∧
      ∀ j : Nat, (j : Int) < num → (abiertos ap.desc (e.ficheros.map mundo))[j]? = some (ap'.arrayFD j)

/-- The same for `split_files`, which also ends when an operand cannot be opened. -/
def SplitFiles.Recuento (argv : List Word) : Prop :=
  match Argumentos.SplitFiles.argumentos argv with
  | .error f => Rechaza f
  | .ok e =>
    e.numFicheros = argv.length - optind (optspec ['t', ':', 'h']) argv ∧ e.numFicheros ≤ 16 ∧
    ∀ fdout arrayFD, match apertura e.numFicheros fdout e.ficheros arrayFD with
      | .error f => Rechaza f
      | .ok arrayFD' => ∀ j < e.numFicheros, arrayFD' j = fdout j

def dadas (opciones : List Char) (found : List Found) : Nat :=
  (opciones.map fun c => (lastArg c none found).toList.length).sum

/-- The words in front of the operands are the name of the program and two for each of the options that is
given; or there are no operands, and fewer words. -/
def Separadas (spec : Char → Option Bool) (opciones : List Char) (argv : List Word) : Prop :=
  let (found, ops) := getopt spec argv.tail
  let palabras := 1 + 2 * dadas opciones found
  optind spec argv = palabras ∨ ops = [] ∧ optind spec argv < palabras

instance (spec : Char → Option Bool) (opciones : List Char) (argv : List Word) :
    Decidable (Separadas spec opciones argv) :=
  inferInstanceAs (Decidable (_ ∨ _))

/-- Every operand exists, but for the last one, which may be missing. -/
def Existen (ops : List MergeFiles.Operando) : Prop :=
  .noExiste ∉ ops.dropLast

instance (ops : List MergeFiles.Operando) : Decidable (Existen ops) :=
  inferInstanceAs (Decidable (¬ _))

/-! ## The two numbers -/

/-- A count of what is left of the vector after `palabras` words is the number of operands exactly if the options
take that many words, or there are no operands to count. -/
theorem count_eq_iff (spec : Char → Option Bool) (argv : List Word) {palabras : Nat} (hpos : 1 ≤ palabras) :
    argv.length - palabras = argv.length - optind spec argv ↔
      optind spec argv = palabras ∨ (getopt spec argv.tail).2 = [] ∧ optind spec argv < palabras := by
  have hle := (getopt_operands_suffix spec argv.tail).length_le
  have htail : argv.tail.length = argv.length - 1 := List.length_tail
  rw [← List.length_eq_zero_iff]
  unfold optind
  omega

theorem length_ficheros (spec : Char → Option Bool) (argv : List Word) :
    (getopt spec argv.tail).2.length = argv.length - optind spec argv := by
  have hle := (getopt_operands_suffix spec argv.tail).length_le
  have htail : argv.tail.length = argv.length - 1 := List.length_tail
  unfold optind
  omega

/-! ## `merge_files` -/

namespace MergeFiles

theorem opcion_lastArg {found : List Found} {o o' : Argumentos.MergeFiles.Opciones}
    (h : found.foldlM Argumentos.MergeFiles.opcion o = .ok o') :
    o'.memReservar = lastArg 't' o.memReservar found ∧ o'.ficheroSalida = lastArg 'o' o.ficheroSalida found := by
  induction found generalizing o with
  | nil =>
    cases h
    exact ⟨rfl, rfl⟩
  | cons f found ih =>
    rw [List.foldlM_cons, bind_eq_ok_iff] at h
    obtain ⟨o1, hf, hrest⟩ := h
    obtain ⟨hm, hs⟩ := ih hrest
    rw [hm, hs]
    unfold Argumentos.MergeFiles.opcion at hf
    split at hf
    · obtain ⟨buf_size, -, ⟨⟩⟩ := bind_eq_ok_iff.1 hf
      exact ⟨rfl, rfl⟩
    · cases hf
      exact ⟨rfl, rfl⟩
    · cases hf
      -- no other option has an argument that is kept
      rename_i ht ho
      cases f with
      | unknown => exact ⟨rfl, rfl⟩
      | option c optarg =>
        cases optarg with
        | none => exact ⟨rfl, rfl⟩
        | some v =>
          have hct : c ≠ 't' := fun hc => ht v (by rw [hc])
          have hco : c ≠ 'o' := fun hc => ho v (by rw [hc])
          simp [lastArg, hct, hco]

theorem opcion_error {o : Argumentos.MergeFiles.Opciones} {f : Found} {e : Final}
    (h : Argumentos.MergeFiles.opcion o f = .error e) : Rechaza e := by
  unfold Argumentos.MergeFiles.opcion at h
  split at h
  · rcases bind_eq_error_iff.1 h with hcheck | ⟨_, -, hret⟩
    · exact ⟨_, enRango_error hcheck⟩
    · cases hret
  · cases h
  · cases h

theorem comprobarNumFicheros_error {argc : Nat} {memReservar ficheroSalida : Option Word} {f : Final}
    (h : Argumentos.MergeFiles.comprobarNumFicheros argc memReservar ficheroSalida = .error f) : Rechaza f := by
  unfold Argumentos.MergeFiles.comprobarNumFicheros at h
  split_ifs at h
  · exact ⟨_, cuentaFicheros_error h⟩
  · exact ⟨_, cuentaFicheros_error h⟩
  · exact ⟨_, cuentaFicheros_error h⟩
  · cases h
    exact ⟨_, rfl⟩

theorem argumentos_error {argv : List Word} {f : Final}
    (h : Argumentos.MergeFiles.argumentos argv = .error f) : Rechaza f := by
  unfold Argumentos.MergeFiles.argumentos at h
  split at h
  · cases h
    exact ⟨_, rfl⟩
  · rcases bind_eq_error_iff.1 h with hloop | ⟨o, -, h⟩
    · obtain ⟨o, x, hx⟩ := foldlM_eq_error hloop
      exact opcion_error hx
    · rcases bind_eq_error_iff.1 h with hcount | ⟨n, -, hret⟩
      · exact comprobarNumFicheros_error hcount
      · cases hret

theorem argumentos_ok {argv : List Word} {e : Argumentos.MergeFiles.Ejecucion}
    (h : Argumentos.MergeFiles.argumentos argv = .ok e) :
    e.ficheros = (getopt (optspec ['t', ':', 'o', ':']) argv.tail).2 ∧ e.numFicheros ≤ 16 ∧
      e.numFicheros = argv.length - (1 + 2 * dadas ['t', 'o'] (getopt (optspec ['t', ':', 'o', ':']) argv.tail).1) := by
  unfold Argumentos.MergeFiles.argumentos at h
  split at h
  · cases h
  · obtain ⟨o, hloop, h⟩ := bind_eq_ok_iff.1 h
    obtain ⟨n, hcount, ⟨⟩⟩ := bind_eq_ok_iff.1 h
    obtain ⟨hm, hs⟩ := opcion_lastArg hloop
    obtain ⟨hn, h16⟩ := Argumentos.MergeFiles.comprobarNumFicheros_eq_ok hcount
    refine ⟨rfl, h16, ?_⟩
    rw [hn, hm, hs]
    rfl

section Apertura

variable {optind : Nat}

theorem abiertos_guardaDesde (ap : Apertura) (m : Nat) (ops : List Operando) {j : Nat} (hj : j < ops.length) :
    (abiertos ap.desc ops)[j]? = some ((ap.guardaDesde m ops).arrayFD (m + j)) := by
  induction ops generalizing ap m j with
  | nil => exact absurd hj (Nat.not_lt_zero j)
  | cons op ops ih =>
    cases j with
    | zero =>
      have hfirst : (ap.guardaDesde m (op :: ops)).arrayFD m = (openRdonly ap.desc op).1 :=
        (guardaDesde_lt _ ops (Nat.lt_succ_self m)).trans (Function.update_self ..)
      rw [Nat.add_zero, hfirst]
      rfl
    | succ j =>
      rw [show m + (j + 1) = m + 1 + j by omega]
      exact ih (ap.guarda m op) (m + 1) (Nat.lt_of_succ_lt_succ hj)

theorem abiertos_concat (d : Descriptores) (ops : List Operando) (op : Operando) {j : Nat} (hj : j < ops.length) :
    (abiertos d (ops ++ [op]))[j]? = (abiertos d ops)[j]? := by
  induction ops generalizing d j with
  | nil => exact absurd hj (Nat.not_lt_zero j)
  | cons o ops ih => grind [abiertos]

/-- With a place for every operand, of which only the last may be missing, the loops fill the entries that are
left with the descriptors of the operands at their places. -/
theorem apertura_guarda (hoptind : 1 ≤ optind) {ops : List Operando} (hops : Existen ops) (ap : Apertura) :
    ∃ num ap', apertura optind ops.length ops ap = .ok (num, ap') ∧
      ∀ j : Nat, (j : Int) < num → (abiertos ap.desc ops)[j]? = some (ap'.arrayFD j) := by
  have hfds : ∀ (ini : List Operando) (j : Nat), (j : Int) < ini.length →
      (abiertos ap.desc ini)[j]? = some (({ ap with activador := 0 }.guardaDesde 0 ini).arrayFD j) := fun ini j hj => by
    simpa using abiertos_guardaDesde { ap with activador := 0 } 0 ini (Int.ofNat_lt.1 hj)
  rcases List.eq_nil_or_concat ops with rfl | ⟨ini, op, rfl⟩
  · exact ⟨0, { ap with activador := 0 }, rfl, fun j hj => absurd hj (by omega)⟩
  rw [List.concat_eq_append] at hops ⊢
  have hini : Operando.noExiste ∉ ini := by
    unfold Existen at hops
    rwa [List.dropLast_concat] at hops
  by_cases hop : op = .noExiste
  · subst hop
    refine ⟨_, _, by simpa using apertura_ultimo hini ap, fun j hj => ?_⟩
    rw [abiertos_concat _ _ _ (Int.ofNat_lt.1 hj)]
    exact hfds ini j hj
  · have hall : Operando.noExiste ∉ ini ++ [op] := by simp [hini, Ne.symm hop]
    exact ⟨_, _, apertura_existen hoptind hall le_rfl ap, hfds _⟩

/-- If the loops return, with a place for every operand, only the last operand may have been missing. -/
theorem existen_of_apertura (hoptind : 1 ≤ optind) {num : Int} {ap' : Apertura} {ops : List Operando} {ap : Apertura}
    (h : apertura optind ops.length ops ap = .ok (num, ap')) : Existen ops := by
  rcases apertura_cases hoptind h with ⟨hnot, -⟩ | ⟨pre, post, hsplit, hnum, hfit⟩
  · exact fun hmem => hnot (List.dropLast_subset _ hmem)
  · have hcount : ops.count .noExiste = pre.count .noExiste + (post.count .noExiste + 1) := by
      rw [hsplit, List.count_append, List.count_cons_self]
    have hlen : ops.length = pre.length + 1 + post.length := by
      rw [hsplit]
      simp
      omega
    -- an operand after the one remembered would be stored past the end
    have hpost : post = [] := by
      rw [← List.length_eq_zero_iff]
      by_contra hne
      have hin := hfit (ops.length - 1) (by omega) (by omega)
      omega
    subst hpost
    -- and with two missing the one before it would be
    have hpre : Operando.noExiste ∉ pre := by
      intro hmem
      have hpos := List.count_pos_iff.2 hmem
      have hle := List.length_pos_of_mem hmem
      have hin := hfit (pre.length - 1) (by omega) (by omega)
      simp only [List.length_nil] at hlen
      omega
    rw [Existen, hsplit, List.dropLast_concat]
    exact hpre

end Apertura

/-- `merge_files` counts as it should exactly on the vectors it rejects, and on those with two words for each option
given whose operands exist, but for the last. -/
theorem recuento_iff (argv : List Word) (mundo : Word → Operando) :
    Recuento argv mundo ↔ ∀ e, Argumentos.MergeFiles.argumentos argv = .ok e →
      Separadas (optspec ['t', ':', 'o', ':']) ['t', 'o'] argv ∧ Existen (e.ficheros.map mundo) := by
  unfold Recuento
  cases hargs : Argumentos.MergeFiles.argumentos argv with
  | error f => simp [argumentos_error hargs]
  | ok e =>
    obtain ⟨hfich, h16, hcount⟩ := argumentos_ok hargs
    have hops : (e.ficheros.map mundo).length = argv.length - optind (optspec ['t', ':', 'o', ':']) argv := by
      rw [List.length_map, hfich, length_ficheros]
    have hsep : e.numFicheros = argv.length - optind (optspec ['t', ':', 'o', ':']) argv ↔
        Separadas (optspec ['t', ':', 'o', ':']) ['t', 'o'] argv := by
      rw [hcount]
      exact count_eq_iff _ _ (by omega)
    simp only [Except.ok.injEq, forall_eq']
    constructor
    · rintro ⟨hnum, -, hrun⟩
      obtain ⟨num, ap', hap, -⟩ := hrun apInicial
      rw [hnum, ← hops] at hap
      exact ⟨hsep.1 hnum, existen_of_apertura (Nat.le_add_right 1 _) hap⟩
    · rintro ⟨hwords, hexist⟩
      have hnum := hsep.2 hwords
      refine ⟨hnum, h16, fun ap => ?_⟩
      rw [hnum, ← hops]
      exact apertura_guarda (Nat.le_add_right 1 _) hexist ap

end MergeFiles

/-! ## `split_files` -/

namespace SplitFiles

theorem opcion_lastArg {found : List Found} {bufsize bufsize' : Option Word}
    (h : found.foldlM Argumentos.SplitFiles.opcion bufsize = .ok bufsize') :
    bufsize' = lastArg 't' bufsize found := by
  induction found generalizing bufsize with
  | nil =>
    cases h
    rfl
  | cons f found ih =>
    rw [List.foldlM_cons, bind_eq_ok_iff] at h
    obtain ⟨b1, hf, hrest⟩ := h
    rw [ih hrest]
    unfold Argumentos.SplitFiles.opcion at hf
    split at hf
    · cases hf
      rfl
    · cases hf

theorem opcion_error {bufsize : Option Word} {f : Found} {e : Final}
    (h : Argumentos.SplitFiles.opcion bufsize f = .error e) : Rechaza e := by
  unfold Argumentos.SplitFiles.opcion at h
  split at h
  · cases h
  · cases h
    exact ⟨_, rfl⟩

theorem comprobarNumFicheros_eq (argc : Nat) (bufsize : Option Word) :
    Argumentos.SplitFiles.comprobarNumFicheros argc bufsize =
      cuentaFicheros (1 + 2 * bufsize.toList.length) argc
        ("Error: Demasiados ficheros de salida.\n" :: Argumentos.SplitFiles.imprimirUso) := by
  cases bufsize <;> rfl

theorem argumentos_error {argv : List Word} {f : Final}
    (h : Argumentos.SplitFiles.argumentos argv = .error f) : Rechaza f := by
  rcases bind_eq_error_iff.1 h with hloop | ⟨bufsize, -, h⟩
  · obtain ⟨b, x, hx⟩ := foldlM_eq_error hloop
    exact opcion_error hx
  rcases bind_eq_error_iff.1 h with hsize | ⟨buf_size, -, h⟩
  · cases bufsize with
    | none =>
      cases hsize
    | some w => exact ⟨_, enRango_error hsize⟩
  rcases bind_eq_error_iff.1 h with hcount | ⟨n, -, h⟩
  · rw [comprobarNumFicheros_eq] at hcount
    exact ⟨_, cuentaFicheros_error hcount⟩
  split at h
  · cases h
    exact ⟨_, rfl⟩
  · cases h

theorem argumentos_ok {argv : List Word} {e : Argumentos.SplitFiles.Ejecucion}
    (h : Argumentos.SplitFiles.argumentos argv = .ok e) :
    e.ficheros = (getopt (optspec ['t', ':', 'h']) argv.tail).2 ∧ e.numFicheros ≤ 16 ∧
      e.numFicheros = argv.length - (1 + 2 * dadas ['t'] (getopt (optspec ['t', ':', 'h']) argv.tail).1) := by
  obtain ⟨bufsize, hloop, h⟩ := bind_eq_ok_iff.1 h
  obtain ⟨buf_size, -, h⟩ := bind_eq_ok_iff.1 h
  obtain ⟨n, hcount, h⟩ := bind_eq_ok_iff.1 h
  split at h
  · cases h
  · cases h
    rw [comprobarNumFicheros_eq] at hcount
    obtain ⟨hn, h16⟩ := le_of_cuentaFicheros hcount
    refine ⟨rfl, h16, ?_⟩
    rw [hn, opcion_lastArg hloop]
    rfl

theorem apertura_guarda {num : Nat} (m : Nat) (fdout : Nat → Int) {ficheros : List Word}
    (hnum : m + ficheros.length ≤ num)
    (arrayFD : Nat → Int) :
    match (ficheros.zipIdx m).foldlM (abre num fdout) arrayFD with
    | .error f => Rechaza f
    | .ok arrayFD' => (∀ j < m, arrayFD' j = arrayFD j) ∧
        ∀ j < ficheros.length, arrayFD' (m + j) = fdout (m + j) := by
  induction ficheros generalizing m arrayFD with
  | nil => exact ⟨fun _ _ => rfl, by simp⟩
  | cons f ficheros ih =>
    rw [List.length_cons] at hnum
    rw [List.zipIdx_cons, List.foldlM_cons]
    by_cases hopen : fdout m = -1
    · rw [abre, if_pos hopen]
      exact ⟨_, rfl⟩
    · have hrest := ih (m + 1) (by omega) (Function.update arrayFD m (fdout m))
      rw [abre, if_neg hopen, if_pos (by omega : m < num)]
      simp only [bind, Except.bind]
      split at hrest
      · exact hrest
      · obtain ⟨hlow, hfds⟩ := hrest
        refine ⟨fun j hj => ?_, fun j hj => ?_⟩
        · rw [hlow j (by omega), Function.update_of_ne (by omega)]
        · cases j with
          | zero | succ j => grind

/-- `split_files` counts as it should exactly on the vectors it rejects, and on those with two words for the option
if it is given. -/
theorem recuento_iff (argv : List Word) :
    Recuento argv ↔ ∀ e, Argumentos.SplitFiles.argumentos argv = .ok e →
      Separadas (optspec ['t', ':', 'h']) ['t'] argv := by
  unfold Recuento
  cases hargs : Argumentos.SplitFiles.argumentos argv with
  | error f => simp [argumentos_error hargs]
  | ok e =>
    obtain ⟨hfich, h16, hcount⟩ := argumentos_ok hargs
    have hops : e.ficheros.length = argv.length - optind (optspec ['t', ':', 'h']) argv := by
      rw [hfich, length_ficheros]
    have hsep : e.numFicheros = argv.length - optind (optspec ['t', ':', 'h']) argv ↔
        Separadas (optspec ['t', ':', 'h']) ['t'] argv := by
      rw [hcount]
      exact count_eq_iff _ _ (by omega)
    simp only [Except.ok.injEq, forall_eq']
    constructor
    · rintro ⟨hnum, -⟩
      exact hsep.1 hnum
    · intro hwords
      have hnum := hsep.2 hwords
      refine ⟨hnum, h16, fun fdout arrayFD => ?_⟩
      have hroom : 0 + e.ficheros.length ≤ e.numFicheros := by omega
      have hloop := apertura_guarda 0 fdout hroom arrayFD
      unfold apertura
      grind

end SplitFiles

/-! ## Both programs -/

/-- When the count of the operands agrees with `getopt` and fills `arrayFD` as it should. -/
theorem operand_counts_iff (argv : List Word) (mundo : Word → MergeFiles.Operando) :
    (MergeFiles.Recuento argv mundo ↔ ∀ e, Argumentos.MergeFiles.argumentos argv = .ok e →
      Separadas (optspec ['t', ':', 'o', ':']) ['t', 'o'] argv ∧ Existen (e.ficheros.map mundo)) ∧
    (SplitFiles.Recuento argv ↔ ∀ e, Argumentos.SplitFiles.argumentos argv = .ok e →
      Separadas (optspec ['t', ':', 'h']) ['t'] argv) :=
  ⟨MergeFiles.recuento_iff argv mundo, SplitFiles.recuento_iff argv⟩

/-- `-t 64 a b` after the name of the program. -/
def lineaSeparada : List Word := [['m'], ['-', 't'], ['6', '4'], ['a'], ['b']]

/-- `-t64 a b` after the name of the program. -/
def lineaPegada : List Word := [['m'], ['-', 't', '6', '4'], ['a'], ['b']]

/-- `-- a` after the name of the program. -/
def lineaGuiones : List Word := [['m'], ['-', '-'], ['a']]

theorem operand_counts_separada :
    MergeFiles.Recuento lineaSeparada (fun _ => .fichero []) ∧ SplitFiles.Recuento lineaSeparada := by
  have h := operand_counts_iff lineaSeparada fun _ => .fichero []
  refine ⟨h.1.2 fun e he => ?_, h.2.2 fun e he => ?_⟩
  · have hargs : Argumentos.MergeFiles.argumentos lineaSeparada =
        .ok { buf_size := some 64, ficheroSalida := none, numFicheros := 2, ficheros := [['a'], ['b']] } := rfl
    cases hargs.symm.trans he
    decide
  · decide

/-- With the argument attached, one operand is counted where there are two, and the second descriptor is stored past
the end of `arrayFD`; after `--` two are counted where there is one, and the second entry is used as it was found. -/
theorem operand_counts_slip :
    (∃ e, Argumentos.MergeFiles.argumentos lineaPegada = .ok e ∧ e.numFicheros = 1 ∧
      lineaPegada.length - optind (optspec ['t', ':', 'o', ':']) lineaPegada = 2 ∧
      ∀ ap, MergeFiles.apertura (optind (optspec ['t', ':', 'o', ':']) lineaPegada) e.numFicheros
        (e.ficheros.map fun _ => .fichero []) ap = .error .desbordamiento) ∧
    (∃ e, Argumentos.SplitFiles.argumentos lineaPegada = .ok e ∧ e.numFicheros = 1 ∧
      ∀ arrayFD, SplitFiles.apertura e.numFicheros (fun j => j + 3) e.ficheros arrayFD = .error .indefinido) ∧
    (∃ e, Argumentos.MergeFiles.argumentos lineaGuiones = .ok e ∧
      ∀ ap, ∃ ap', MergeFiles.apertura (optind (optspec ['t', ':', 'o', ':']) lineaGuiones) e.numFicheros
        (e.ficheros.map fun _ => .fichero []) ap = .ok (2, ap') ∧ ap'.arrayFD 1 = ap.arrayFD 1) ∧
    ¬ MergeFiles.Recuento lineaPegada (fun _ => .fichero []) ∧ ¬ SplitFiles.Recuento lineaPegada ∧
    ¬ MergeFiles.Recuento lineaGuiones (fun _ => .fichero []) := by
  refine ⟨⟨_, rfl, rfl, rfl, fun ap => rfl⟩, ⟨_, rfl, rfl, fun arrayFD => rfl⟩, ⟨_, rfl, fun ap => ⟨_, rfl, rfl⟩⟩,
    ?_, ?_, ?_⟩
  · rw [MergeFiles.recuento_iff]
    exact fun h => absurd (h _ rfl).1 (by decide)
  · rw [SplitFiles.recuento_iff]
    exact fun h => absurd (h _ rfl) (by decide)
  · rw [MergeFiles.recuento_iff]
    exact fun h => absurd (h _ rfl).1 (by decide)

end AsoPracticas.Tarea4
