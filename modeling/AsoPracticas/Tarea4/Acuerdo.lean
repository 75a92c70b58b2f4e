import AsoPracticas.Tarea4.Argumentos

/-!
# Acuerdo — do the stages understand the vectors they are started with?

`merge_mystrings_split` is the encoder and the three stages are the decoders.  `pedido` says what a
command line asks for; `Entienden` says that the three stages, reading their vectors with their own
option loops and checks, end up with exactly that.

* `stages_understand_iff` — exactly which accepted command lines are understood.
-/

namespace AsoPracticas.Tarea4.Argumentos

open Lib

/-! ## What a command line asks for -/

/-- A request, as the usage text of `merge_mystrings_split` describes it. -/
structure Peticion where
  bufsize : Int
  minlength : Int
  entradas : List Word
  salidas : List Word
  deriving DecidableEq, Repr

/-- The request of a command line: the last occurrence of each option counts. -/
def pedido (argv : List Word) : Peticion :=
  let (found, salidas) := getopt (optspec ['t', ':', 'i', ':', 'n', ':', 'h']) argv.tail
  { bufsize := ((lastArg 't' none found).map atoi).getD 1024
    minlength := ((lastArg 'n' none found).map atoi).getD 4
    entradas := ((lastArg 'i' none found).map (strtok ',')).getD []
    salidas }

/-- Every stage accepts its vector and takes from it what the request says. -/
def Entienden (v : MergeMystringsSplit.Vectores) (p : Peticion) : Prop :=
  MergeFiles.argumentos v.arrayMergeFiles = .ok
    { buf_size := some p.bufsize
      ficheroSalida := none
      numFicheros := p.entradas.length
      ficheros := p.entradas } ∧
  (∃ stderr, MyStrings.argumentos v.arrayMyStrings = .ok { buf_size := p.bufsize, min_length := p.minlength, stderr }) ∧
  SplitFiles.argumentos v.arraySplitFiles = .ok
    { buf_size := p.bufsize, numFicheros := p.salidas.length, ficheros := p.salidas }

/-! ## One stage each -/

variable {argv : List Word}

theorem MergeFiles.ficheros_eq {e : MergeFiles.Ejecucion} (h : MergeFiles.argumentos argv = .ok e) :
    e.ficheros = (getopt (optspec ['t', ':', 'o', ':']) argv.tail).2 := by
  by_cases hargc : argv.length = 1
  · simp [MergeFiles.argumentos, hargc] at h
  · simp only [MergeFiles.argumentos, hargc, if_false, bind_eq_ok_iff] at h
    obtain ⟨o, -, n, -, ⟨⟩⟩ := h
    rfl

theorem SplitFiles.ficheros_eq {e : SplitFiles.Ejecucion} (h : SplitFiles.argumentos argv = .ok e) :
    e.ficheros = (getopt (optspec ['t', ':', 'h']) argv.tail).2 := by
  simp only [SplitFiles.argumentos, bind_eq_ok_iff] at h
  obtain ⟨bufsize, -, buf_size, -, n, -, hret⟩ := h
  by_cases hn : n = 0
  · simp [hn] at hret
  · rw [if_neg hn] at hret
    cases hret
    rfl

/-- `merge_files` gets its input list exactly when there is one and it does not start with options. -/
theorem mergeFiles_ok_iff (nombre : Word) {buf_size : Word} {entradas : List Word} {b : Int}
    (hb : atoi buf_size = b) (h1 : 1 ≤ b) (hmax : b ≤ 1048576) (hlen : entradas.length ≤ 16) :
    MergeFiles.argumentos (nombre :: ['-', 't'] :: buf_size :: entradas) = .ok
      { buf_size := some b
        ficheroSalida := none
        numFicheros := entradas.length
        ficheros := entradas } ↔
    entradas ≠ [] ∧ ∀ f, entradas.head? = some f → optionLike f = false := by
  have hcheck : MergeFiles.comprobarSizeBuff buf_size = .ok b := enRango_eq_ok_iff.2 ⟨hb, h1, by omega⟩
  have hget := getopt_optarg (optspec ['t', ':', 'o', ':']) (c := 't') (by decide) (by decide) buf_size entradas
  constructor
  · intro h
    refine ⟨?_, ?_⟩
    · -- with no name left the count of the words fails
      rintro rfl
      simp [MergeFiles.argumentos, hget, MergeFiles.opcion, hcheck, MergeFiles.comprobarNumFicheros,
        bind, Except.bind, pure, Except.pure] at h
    · have hfich := MergeFiles.ficheros_eq h
      grind [getopt_operands_eq_iff]
  · rintro ⟨hne, hhead⟩
    obtain ⟨f, fs, rfl⟩ := List.exists_cons_of_ne_nil hne
    have hrest : getopt (optspec ['t', ':', 'o', ':']) (f :: fs) = ([], f :: fs) :=
      getopt_operand (hhead f rfl) fs
    have hcount : cuentaFicheros 3 (fs.length + 1 + 1 + 1 + 1)
        ("Se ha reservado mem o hay fichout\n" :: MergeFiles.demasiados) =
          .ok (fs.length + 1 + 1 + 1 + 1 - 3) :=
      cuentaFicheros_ok _ (by simp at hlen; omega)
    simp [MergeFiles.argumentos, hget, hrest, MergeFiles.opcion, hcheck,
      MergeFiles.comprobarNumFicheros, hcount, bind, Except.bind, pure, Except.pure]

theorem myStrings_ok_iff (nombre min_length : Word) {buf_size : Word} {b n : Int}
    (hb : atoi buf_size = b) (h1 : 1 ≤ b) (hmax : b ≤ 1048576) :
    (∃ stderr, MyStrings.argumentos
        [nombre, ['-', 't'], buf_size, [' ', '-', 'n'], min_length] = .ok
          { buf_size := b, min_length := n, stderr }) ↔ n = 4 ∧ 4 ≤ b := by
  have hget := getopt_optarg (optspec ['t', ':', 'n', ':', 'h']) (c := 't') (by decide)
    (by decide) buf_size [[' ', '-', 'n'], min_length]
  have hrest : getopt (optspec ['t', ':', 'n', ':', 'h']) [[' ', '-', 'n'], min_length] =
      ([], [[' ', '-', 'n'], min_length]) := getopt_operand (by decide) _
  have hargs : MyStrings.argumentos [nombre, ['-', 't'], buf_size, [' ', '-', 'n'], min_length] =
      (MyStrings.comprobarSizeBuff buf_size 4).map fun buf_size =>
        { buf_size, min_length := 4, stderr := [] } := by
    simp only [MyStrings.argumentos, List.tail_cons, hget, hrest, List.foldl_cons, List.foldl_nil,
      MyStrings.opcion, Option.elim_none, Option.elim_some, bind, Except.bind, pure, Except.pure,
      Except.map]
  rw [hargs]
  by_cases h4 : 4 ≤ b
  · have hcheck : MyStrings.comprobarSizeBuff buf_size 4 = .ok b := by
      rw [MyStrings.comprobarSizeBuff, hb]
      exact if_neg (by omega)
    simp [hcheck, Except.map, h4, eq_comm]
  · have hcheck : ∃ e, MyStrings.comprobarSizeBuff buf_size 4 = .error e := by
      exact ⟨_, if_pos (by omega)⟩
    obtain ⟨e, hcheck⟩ := hcheck
    simp [hcheck, Except.map, h4]

theorem splitFiles_ok_iff (nombre : Word) {buf_size : Word} {salidas : List Word} {b : Int}
    (hb : atoi buf_size = b) (h1 : 1 ≤ b) (hmax : b ≤ 1048576) (hne : salidas ≠ [])
    (hlen : salidas.length ≤ 16) :
    SplitFiles.argumentos (nombre :: ['-', 't'] :: buf_size :: salidas) = .ok
      { buf_size := b, numFicheros := salidas.length, ficheros := salidas } ↔
    ∀ f, salidas.head? = some f → optionLike f = false := by
  have hcheck : SplitFiles.comprobarSizeBuff buf_size = .ok b := enRango_eq_ok_iff.2 ⟨hb, h1, hmax⟩
  have hget := getopt_optarg (optspec ['t', ':', 'h']) (c := 't') (by decide) (by decide) buf_size salidas
  constructor
  · intro h
    have hfich := SplitFiles.ficheros_eq h
    exact (getopt_operands_eq_iff salidas).1 hfich.symm
  · intro hhead
    obtain ⟨f, fs, rfl⟩ := List.exists_cons_of_ne_nil hne
    have hrest : getopt (optspec ['t', ':', 'h']) (f :: fs) = ([], f :: fs) := getopt_operand (hhead f rfl) fs
    have hcount : cuentaFicheros 3 (fs.length + 1 + 1 + 1 + 1)
        ("Error: Demasiados ficheros de salida.\n" :: SplitFiles.imprimirUso) =
          .ok (fs.length + 1 + 1 + 1 + 1 - 3) :=
      cuentaFicheros_ok _ (by simp at hlen; omega)
    simp [SplitFiles.argumentos, hget, hrest, SplitFiles.opcion, hcheck,
      SplitFiles.comprobarNumFicheros, hcount, bind, Except.bind, pure, Except.pure]

/-! ## The command lines that are accepted -/

theorem opcion_foldlM {found : List Found} {o o' : MergeMystringsSplit.Opciones}
    (h : found.foldlM MergeMystringsSplit.opcion o = .ok o') :
    o'.bufsize = lastArg 't' o.bufsize found ∧ o'.minlength = lastArg 'n' o.minlength found ∧
      o'.ficherosEntrada = lastArg 'i' o.ficherosEntrada found := by
  induction found generalizing o with
  | nil =>
    cases h
    exact ⟨rfl, rfl, rfl⟩
  | cons f found ih =>
    rw [List.foldlM_cons, bind_eq_ok_iff] at h
    obtain ⟨o1, hf, hrest⟩ := h
    obtain ⟨hb, hm, hi⟩ := ih hrest
    rw [hb, hm, hi]
    -- one case for each arm of the `switch` that goes on
    unfold MergeMystringsSplit.opcion at hf
    split at hf <;> cases hf <;> exact ⟨rfl, rfl, rfl⟩

theorem comprobarSizeBuff_ok {bufsize w : Word} (h : MergeMystringsSplit.comprobarSizeBuff bufsize = .ok w) :
    w = bufsize ∧ 1 ≤ atoi bufsize ∧ atoi bufsize ≤ 1048576 := by
  simp only [MergeMystringsSplit.comprobarSizeBuff, bind_eq_ok_iff] at h
  obtain ⟨aux, hcheck, hret⟩ := h
  obtain ⟨rfl, hrange⟩ := enRango_eq_ok_iff.1 hcheck
  cases hret
  exact ⟨rfl, hrange⟩

/-- What is known about a command line that is accepted: the vectors are built from texts that
denote the request, and the request is within the bounds. -/
structure Aceptada (p : Peticion) (v : MergeMystringsSplit.Vectores) : Prop where
  construida : ∃ buf_size min_length, atoi buf_size = p.bufsize ∧
    v = MergeMystringsSplit.vectores buf_size min_length p.entradas p.salidas
  bufsize : 1 ≤ p.bufsize ∧ p.bufsize ≤ 1048576
  entradas : p.entradas.length ≤ 16
  salidas : p.salidas ≠ [] ∧ p.salidas.length ≤ 16

theorem main_ok {v : MergeMystringsSplit.Vectores}
    (h : MergeMystringsSplit.main argv = .ok v) : Aceptada (pedido argv) v := by
  simp only [MergeMystringsSplit.main, bind_eq_ok_iff] at h
  obtain ⟨o, hloop, h⟩ := h
  obtain ⟨hb, -, hi⟩ := opcion_foldlM hloop
  by_cases hargc : argv.length ≤ 3
  · simp [hargc] at h
  simp only [hargc, if_false, bind_eq_ok_iff] at h
  obtain ⟨buf_size, hbuf, min_length, -, entradas, hent, h⟩ := h
  have hbuf' : atoi buf_size = (pedido argv).bufsize ∧ 1 ≤ (pedido argv).bufsize ∧ (pedido argv).bufsize ≤ 1048576 := by
    simp only [pedido, ← hb]
    cases hopt : o.bufsize with
    | none =>
      rw [hopt] at hbuf
      cases hbuf
      decide
    | some bufsize =>
      rw [hopt] at hbuf
      obtain ⟨rfl, hrange⟩ := comprobarSizeBuff_ok hbuf
      exact ⟨rfl, hrange⟩
  have hent' : entradas = (pedido argv).entradas ∧ (pedido argv).entradas.length ≤ 16 := by
    simp only [pedido, ← hi]
    cases hopt : o.ficherosEntrada with
    | none =>
      rw [hopt] at hent
      cases hent
    | some ficherosEntrada =>
      by_cases hlen : (strtok ',' ficherosEntrada).length > 16
      · simp [hopt, MergeMystringsSplit.ficherosDeEntrada, hlen] at hent
      · simp only [hopt, MergeMystringsSplit.ficherosDeEntrada, hlen, if_false, Except.ok.injEq] at hent
        exact ⟨hent.symm, Nat.le_of_not_lt hlen⟩
  by_cases hmany : (getopt (optspec ['t', ':', 'i', ':', 'n', ':', 'h']) argv.tail).2.length > 16
  · simp [hmany] at h
  by_cases hnone : (getopt (optspec ['t', ':', 'i', ':', 'n', ':', 'h']) argv.tail).2.length = 0
  · simp [hnone] at h
  simp only [hmany, hnone, if_false] at h
  cases h
  exact
    { construida := ⟨buf_size, min_length, hbuf'.1, by rw [hent'.1]; rfl⟩
      bufsize := hbuf'.2
      entradas := hent'.2
      salidas := ⟨fun hnil => hnone (congrArg List.length hnil), Nat.le_of_not_lt hmany⟩ }

/-- What the stages take from their vectors: the request with a minimum length of 4, if the buffer is no smaller, there
is an input, and neither list of names starts with a word that reads as options. -/
theorem entienden_iff {v : MergeMystringsSplit.Vectores} (h : MergeMystringsSplit.main argv = .ok v)
    (minlength : Int) :
    Entienden v { pedido argv with minlength } ↔
      minlength = 4 ∧ 4 ≤ (pedido argv).bufsize ∧ (pedido argv).entradas ≠ [] ∧
      (∀ f, (pedido argv).entradas.head? = some f → optionLike f = false) ∧
      ∀ f, (pedido argv).salidas.head? = some f → optionLike f = false := by
  have hacc := main_ok h
  obtain ⟨buf_size, min_length, hb, rfl⟩ := hacc.construida
  have hmerge := mergeFiles_ok_iff MergeMystringsSplit.nombreMergeFiles hb hacc.bufsize.1
    hacc.bufsize.2 hacc.entradas
  have hmystrings := myStrings_ok_iff MergeMystringsSplit.nombreMyStrings min_length
    (n := minlength) hb hacc.bufsize.1 hacc.bufsize.2
  have hsplit := splitFiles_ok_iff MergeMystringsSplit.nombreSplitFiles hb hacc.bufsize.1
    hacc.bufsize.2 hacc.salidas.1 hacc.salidas.2
  refine (and_congr hmerge (and_congr hmystrings hsplit)).trans ?_
  tauto

/-- The three stages understand an accepted command line exactly when it asks for the default minimum
length and a buffer that is no smaller, names at least one input, and neither list of names starts
with a word that reads as options. -/
theorem stages_understand_iff (argv : List Word) (v : MergeMystringsSplit.Vectores)
    (h : MergeMystringsSplit.main argv = .ok v) :
    Entienden v (pedido argv) ↔
      (pedido argv).minlength = 4 ∧ 4 ≤ (pedido argv).bufsize ∧ (pedido argv).entradas ≠ [] ∧
      (∀ f, (pedido argv).entradas.head? = some f → optionLike f = false) ∧
      ∀ f, (pedido argv).salidas.head? = some f → optionLike f = false :=
  entienden_iff h (pedido argv).minlength

/-- `merge_mystrings_split -i a b` -/
def lineaPorDefecto : List Word := [['m'], ['-', 'i'], ['a'], ['b']]

/-- `merge_mystrings_split -n 7 -i a b` -/
def lineaConLongitud : List Word := [['m'], ['-', 'n'], ['7'], ['-', 'i'], ['a'], ['b']]

theorem stages_understand_default :
    Entienden
      (MergeMystringsSplit.vectores ['1', '0', '2', '4'] ['4'] [['a']] [['b']])
      (pedido lineaPorDefecto) :=
  (stages_understand_iff lineaPorDefecto _ rfl).2 (by decide)

/-- A minimum length of 7 is asked for and accepted; `mystrings` runs with 4. -/
theorem stages_lose_minlength :
    ∃ v, MergeMystringsSplit.main lineaConLongitud = .ok v ∧
      ¬ Entienden v (pedido lineaConLongitud) := by
  refine ⟨_, rfl, ?_⟩
  rintro ⟨-, ⟨stderr, hrun⟩, -⟩
  have hwith4 : MyStrings.argumentos
      (MergeMystringsSplit.vectores ['1', '0', '2', '4'] ['7'] [['a']] [['b']]).arrayMyStrings =
        .ok { buf_size := 1024, min_length := 4, stderr := [] } := rfl
  have hne : (4 : Int) ≠ (pedido lineaConLongitud).minlength := by decide
  have h := Except.ok.inj (hwith4.symm.trans hrun)
  exact hne (congrArg MyStrings.Ejecucion.min_length h)

end AsoPracticas.Tarea4.Argumentos
