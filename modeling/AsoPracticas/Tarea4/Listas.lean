import AsoPracticas.Tarea4.Argumentos

/-!
# Listas — the two lists of names of `merge_mystrings_split`

The program keeps the names of its input files, which it takes out of the argument of `-i` with `strtok_r`, and
those of its output files, the operands, in two arrays of 16 pointers.  It stores every name it meets and never
asks how many there are; that there is an argument of `-i` it concludes from `argc`.

* `lists_in_bounds_iff` — the command lines on which nothing is stored past an array and no null pointer is read.
-/

namespace AsoPracticas.Tarea4.Argumentos.MergeMystringsSplit

open Lib

/-! ## The loops -/

/-- `array[i] = nombre`, for an array of 16 pointers. -/
def guarda (array : Nat → Word) (i : Nat) (nombre : Word) : Except Final (Nat → Word) :=
  if i < 16 then .ok (Function.update array i nombre) else .error .indefinido

/-- The loop over the tokens of `-i`, from the call of `strtok_r` that goes on at `saveptr`.  A token is at least one
character long, so that `fuel` calls are enough for a shorter string. -/
def leeTokens : Nat → Word → Nat → (Nat → Word) → Except Final (Nat × (Nat → Word))
  | 0, _, contadorFichEntrada, array => .ok (contadorFichEntrada, array)
  | fuel + 1, saveptr, contadorFichEntrada, array =>
    match strtok_r ',' saveptr with
    | none => .ok (contadorFichEntrada, array)
    | some (ptrToken, saveptr) => do
        let array ← guarda array contadorFichEntrada ptrToken
        leeTokens fuel saveptr (contadorFichEntrada + 1) array

/-- `arrayFicherosEntrada`, after the copy out of the array of 16.  With no `-i` the first call of `strtok_r` goes on
at the null pointer that `saveptr` holds. -/
def leeEntradas (basura : Nat → Word) : Option Word → Except Final (List Word)
  | none => .error .indefinido
  | some ficherosEntrada => do
      let (contadorFichEntrada, array) ← leeTokens (ficherosEntrada.length + 1) ficherosEntrada 0 basura
      return (List.range contadorFichEntrada).map array

/-- `arrayFicherosSalida`, after the copy out of the array of 16. -/
def leeSalidas (basura : Nat → Word) (operandos : List Word) : Except Final (List Word) := do
  let array ← operandos.zipIdx.foldlM (fun array x => guarda array x.2 x.1) basura
  return (List.range operandos.length).map array

/-- `main` with its loops, where the arrays hold `entradas` and `salidas` at first. -/
def mainBucles (entradas salidas : Nat → Word) (argv : List Word) : Except Final Vectores := do
  let (found, operandos) := getopt (optspec ['t', ':', 'i', ':', 'n', ':', 'h']) argv.tail
  let o ← found.foldlM opcion { bufsize := none, minlength := none, ficherosEntrada := none }
  if argv.length ≤ 3 then
    .error (.exit exitFailure
      ("Error: Deben proporcionarse ficheros de entrada con la opción -i\n" :: imprimirUso))
  else
    let buf_size ← o.bufsize.elim (.ok ['1', '0', '2', '4']) comprobarSizeBuff
    let min_length ← o.minlength.elim (.ok ['4']) comprobarSizeCadena
    let arrayFicherosEntrada ← leeEntradas entradas o.ficherosEntrada
    let arrayFicherosSalida ← leeSalidas salidas operandos
    if arrayFicherosSalida.length = 0 then
      .error (.exit exitFailure
        ("Debe porporcionarse la lista de ficheros de salida\n" :: imprimirUso))
    else
      return vectores buf_size min_length arrayFicherosEntrada arrayFicherosSalida

/-! ## What the loops amount to -/

/-- The names `nombres` in the places from `i` on, after those that are there. -/
def ponDesde (array : Nat → Word) (i : Nat) (nombres : List Word) : Nat → Word :=
  fun j => if i ≤ j then (nombres[j - i]?).getD (array j) else array j

theorem ponDesde_nil (array : Nat → Word) (i : Nat) : ponDesde array i [] = array := by
  funext j
  simp [ponDesde]

theorem ponDesde_cons (array : Nat → Word) (i : Nat) (nombre : Word) (nombres : List Word) :
    ponDesde array i (nombre :: nombres) = ponDesde (Function.update array i nombre) (i + 1) nombres := by
  funext j
  grind [ponDesde]

/-- The names that a loop has put from the start of the array on are those it is then copied from. -/
theorem map_ponDesde (array : Nat → Word) (nombres : List Word) :
    (List.range nombres.length).map (ponDesde array 0 nombres) = nombres := by
  apply List.ext_getElem
  · simp
  · intro j hj hj'
    simp [ponDesde, hj']

/-- The loop stores the tokens one after the other, and leaves the array when there is no place for one. -/
theorem leeTokens_eq {fuel : Nat} {saveptr : Word} (hfuel : saveptr.length < fuel) {i : Nat} (hi : i ≤ 16)
    (array : Nat → Word) :
    leeTokens fuel saveptr i array =
      if i + (strtok ',' saveptr).length ≤ 16 then
        .ok (i + (strtok ',' saveptr).length, ponDesde array i (strtok ',' saveptr))
      else .error .indefinido := by
  induction fuel generalizing saveptr i array with
  | zero => exact absurd hfuel (Nat.not_lt_zero _)
  | succ fuel ih =>
    cases hcall : strtok_r ',' saveptr with
    | none =>
      simp only [leeTokens, hcall, strtok_r_eq_none hcall, List.length_nil, Nat.add_zero, ponDesde_nil, hi, if_true]
    | some found =>
      obtain ⟨ptrToken, rest⟩ := found
      obtain ⟨hstr, hlt⟩ := strtok_r_eq_some hcall
      simp only [leeTokens, hcall, hstr, List.length_cons]
      by_cases hroom : i < 16
      · have hrest := ih (by omega : rest.length < fuel) (by omega : i + 1 ≤ 16) (Function.update array i ptrToken)
        rw [guarda, if_pos hroom]
        refine hrest.trans ?_
        grind [ponDesde_cons]
      · rw [guarda, if_neg hroom, if_neg (by omega)]
        rfl

theorem leeEntradas_eq (basura : Nat → Word) (ficherosEntrada : Option Word) :
    leeEntradas basura ficherosEntrada = ficherosDeEntrada ficherosEntrada := by
  cases ficherosEntrada with
  | none => rfl
  | some w =>
    simp only [leeEntradas, leeTokens_eq (Nat.lt_succ_self w.length) (Nat.zero_le 16) basura, Nat.zero_add,
      ficherosDeEntrada]
    by_cases hlen : (strtok ',' w).length ≤ 16
    · rw [if_pos hlen, if_neg (Nat.not_lt.2 hlen)]
      exact congrArg Except.ok (map_ponDesde basura (strtok ',' w))
    · rw [if_neg hlen, if_pos (Nat.lt_of_not_le hlen)]
      rfl

theorem guarda_operandos {operandos : List Word} {i : Nat} (hi : i ≤ 16) (array : Nat → Word) :
    (operandos.zipIdx i).foldlM (fun array x => guarda array x.2 x.1) array =
      if i + operandos.length ≤ 16 then .ok (ponDesde array i operandos) else .error .indefinido := by
  induction operandos generalizing i array with
  | nil =>
    rw [ponDesde_nil, if_pos (by simpa using hi)]
    rfl
  | cons nombre operandos ih =>
    rw [List.zipIdx_cons, List.foldlM_cons, List.length_cons]
    by_cases hroom : i < 16
    · have hrest := ih (by omega : i + 1 ≤ 16) (Function.update array i nombre)
      simp only [guarda, if_pos hroom]
      refine hrest.trans ?_
      grind [ponDesde_cons]
    · simp only [guarda, if_neg hroom]
      rw [if_neg (by omega)]
      rfl

theorem leeSalidas_eq (basura : Nat → Word) (operandos : List Word) :
    leeSalidas basura operandos = if operandos.length ≤ 16 then .ok operandos else .error .indefinido := by
  simp only [leeSalidas, guarda_operandos (Nat.zero_le 16) basura, Nat.zero_add]
  by_cases hlen : operandos.length ≤ 16
  · simp only [if_pos hlen]
    exact congrArg Except.ok (map_ponDesde basura operandos)
  · simp only [if_neg hlen]
    rfl

/-- What the arrays hold at first makes no difference, and the loops do what `main` says. -/
theorem mainBucles_eq (entradas salidas : Nat → Word) (argv : List Word) :
    mainBucles entradas salidas argv = main argv := by
  unfold mainBucles main
  simp only [leeEntradas_eq, leeSalidas_eq]
  congr 1
  funext o
  split
  · rfl
  congr 1
  funext buf_size
  congr 1
  funext min_length
  congr 1
  funext arrayFicherosEntrada
  by_cases hlen : (getopt (optspec ['t', ':', 'i', ':', 'n', ':', 'h']) argv.tail).2.length ≤ 16
  · simp only [if_pos hlen, if_neg (Nat.not_lt.2 hlen)]
    rfl
  · simp only [if_neg hlen, if_pos (Nat.lt_of_not_le hlen)]
    rfl

/-! ## When the lists fit -/

/-- The words from `optind` on. -/
def operandos (argv : List Word) : List Word :=
  (getopt (optspec ['t', ':', 'i', ':', 'n', ':', 'h']) argv.tail).2

def campos (w : Word) : List Word :=
  (w.splitOn ',').filter fun campo => campo != []

/-- The options have been read into `o` and the checks passed: the program goes on to its lists. -/
structure Llega (argv : List Word) (o : Opciones) : Prop where
  opciones : (getopt (optspec ['t', ':', 'i', ':', 'n', ':', 'h']) argv.tail).1.foldlM opcion
    { bufsize := none, minlength := none, ficherosEntrada := none } = .ok o
  argc : ¬ argv.length ≤ 3
  bufsize : ∃ buf_size, o.bufsize.elim (.ok ['1', '0', '2', '4']) comprobarSizeBuff = .ok buf_size
  minlength : ∃ min_length, o.minlength.elim (.ok ['4']) comprobarSizeCadena = .ok min_length

/-- There is an argument of `-i`, with at most 16 names, and there are at most 16 operands. -/
def Caben (o : Opciones) (argv : List Word) : Prop :=
  ∃ w, o.ficherosEntrada = some w ∧ (campos w).length ≤ 16 ∧ (operandos argv).length ≤ 16

/-- The program rejects the command line, or passes on the fields of the argument of `-i` and the operands. -/
def Acotada (argv : List Word) : Except Final Vectores → Prop
  | .error f => ∃ estado stderr, f = .exit estado stderr
  | .ok v => ∃ o w, Llega argv o ∧ o.ficherosEntrada = some w ∧
      v.arrayMergeFiles.drop 3 = campos w ∧ v.arraySplitFiles.drop 3 = operandos argv

theorem opcion_error {o : Opciones} {f : Found} {e : Final} (h : opcion o f = .error e) :
    ∃ estado stderr, e = .exit estado stderr := by
  unfold opcion at h
  split at h <;> cases h <;> exact ⟨_, _, rfl⟩

theorem elim_error {opt : Option Word} {defecto : Word} {f : Word → Except Final Word} {e : Final}
    (hf : ∀ w e, f w = .error e → ∃ estado stderr, e = .exit estado stderr)
    (h : opt.elim (.ok defecto) f = .error e) : ∃ estado stderr, e = .exit estado stderr := by
  cases opt with
  | none =>
    cases h
  | some w => exact hf w e h

theorem comprobarSizeBuff_error (w : Word) (e : Final) (h : comprobarSizeBuff w = .error e) :
    ∃ estado stderr, e = .exit estado stderr := by
  rcases bind_eq_error_iff.1 h with hcheck | ⟨_, -, hret⟩
  · exact ⟨_, _, enRango_error hcheck⟩
  · cases hret

theorem comprobarSizeCadena_error (w : Word) (e : Final) (h : comprobarSizeCadena w = .error e) :
    ∃ estado stderr, e = .exit estado stderr := by
  rcases bind_eq_error_iff.1 h with hcheck | ⟨_, -, hret⟩
  · exact ⟨_, _, enRango_error hcheck⟩
  · cases hret

theorem rechaza_o_llega (argv : List Word) :
    (∃ estado stderr, main argv = .error (.exit estado stderr)) ∨ ∃ o, Llega argv o := by
  have hreject : ∀ e, (∃ estado stderr, e = Final.exit estado stderr) → main argv = .error e →
      ∃ estado stderr, main argv = .error (.exit estado stderr) := by
    rintro e ⟨estado, stderr, rfl⟩ h
    exact ⟨estado, stderr, h⟩
  cases hloop : (getopt (optspec ['t', ':', 'i', ':', 'n', ':', 'h']) argv.tail).1.foldlM opcion
      { bufsize := none, minlength := none, ficherosEntrada := none } with
  | error e =>
    obtain ⟨o, x, hx⟩ := foldlM_eq_error hloop
    refine .inl (hreject e (opcion_error hx) ?_)
    simp only [main, hloop]
    rfl
  | ok o =>
    by_cases hargc : argv.length ≤ 3
    · have hshort : main argv = .error (.exit exitFailure
          ("Error: Deben proporcionarse ficheros de entrada con la opción -i\n" :: imprimirUso)) := by
        simp only [main, hloop]
        exact if_pos hargc
      exact .inl ⟨_, _, hshort⟩
    cases hbuf : o.bufsize.elim (.ok ['1', '0', '2', '4']) comprobarSizeBuff with
    | error e =>
      refine .inl (hreject e (elim_error comprobarSizeBuff_error hbuf) ?_)
      simp only [main, hloop]
      refine (if_neg hargc).trans ?_
      rw [hbuf]
      rfl
    | ok buf_size =>
      cases hmin : o.minlength.elim (.ok ['4']) comprobarSizeCadena with
      | error e =>
        refine .inl (hreject e (elim_error comprobarSizeCadena_error hmin) ?_)
        simp only [main, hloop]
        refine (if_neg hargc).trans ?_
        rw [hbuf]
        simp only [hmin]
        rfl
      | ok min_length => exact .inr ⟨o, hloop, hargc, ⟨buf_size, hbuf⟩, ⟨min_length, hmin⟩⟩

theorem Llega.main_eq {argv : List Word} {o : Opciones} (h : Llega argv o) :
    ∃ buf_size min_length, main argv =
      ficherosDeEntrada o.ficherosEntrada >>= fun arrayFicherosEntrada =>
        if (operandos argv).length > 16 then
          .error .indefinido
        else if (operandos argv).length = 0 then
          .error (.exit exitFailure
            ("Debe porporcionarse la lista de ficheros de salida\n" :: imprimirUso))
        else
          return vectores buf_size min_length arrayFicherosEntrada (operandos argv) := by
  obtain ⟨hloop, hargc, ⟨buf_size, hbuf⟩, ⟨min_length, hmin⟩⟩ := h
  refine ⟨buf_size, min_length, ?_⟩
  simp only [main, hloop]
  refine (if_neg hargc).trans ?_
  rw [hbuf]
  simp only [hmin]
  rfl

theorem ficherosDeEntrada_some {w : Word} (h : (campos w).length ≤ 16) :
    ficherosDeEntrada (some w) = .ok (campos w) := by
  rw [campos, ← strtok_eq_splitOn] at h ⊢
  exact if_neg (Nat.not_lt.2 h)

theorem Llega.indefinido {argv : List Word} {o : Opciones} (h : Llega argv o) (hno : ¬ Caben o argv) :
    main argv = .error .indefinido := by
  obtain ⟨buf_size, min_length, hmain⟩ := h.main_eq
  rw [hmain]
  cases hent : o.ficherosEntrada with
  | none => rfl
  | some w =>
    by_cases hw : (campos w).length ≤ 16
    · have hops : (operandos argv).length > 16 := by
        by_contra hle
        exact hno ⟨w, hent, hw, Nat.le_of_not_lt hle⟩
      rw [ficherosDeEntrada_some hw]
      exact if_pos hops
    · have hmany : ficherosDeEntrada (some w) = .error .indefinido := by
        rw [campos, ← strtok_eq_splitOn] at hw
        exact if_pos (Nat.lt_of_not_le hw)
      rw [hmany]
      rfl

theorem Llega.acotada {argv : List Word} {o : Opciones} (h : Llega argv o) (hfit : Caben o argv) :
    Acotada argv (main argv) := by
  obtain ⟨buf_size, min_length, hmain⟩ := h.main_eq
  obtain ⟨w, hent, hw, hops⟩ := hfit
  rw [hmain, hent, ficherosDeEntrada_some hw]
  simp only [bind, Except.bind, if_neg (Nat.not_lt.2 hops)]
  split
  · exact ⟨_, _, rfl⟩
  · exact ⟨o, w, h, hent, rfl, rfl⟩

/-- The program stays inside its two arrays, and passes on what it was given, exactly if the lists fit whenever it
comes to them. -/
theorem lists_in_bounds_iff (entradas salidas : Nat → Word) (argv : List Word) :
    Acotada argv (mainBucles entradas salidas argv) ↔ ∀ o, Llega argv o → Caben o argv := by
  rw [mainBucles_eq]
  constructor
  · intro hok o ho
    by_contra hno
    rw [ho.indefinido hno] at hok
    obtain ⟨estado, stderr, ⟨⟩⟩ := hok
  · intro hfit
    rcases rechaza_o_llega argv with ⟨estado, stderr, h⟩ | ⟨o, ho⟩
    · rw [h]
      exact ⟨estado, stderr, rfl⟩
    · exact ho.acotada (hfit o ho)

/-- `-i a,,b c` after the name of the program: an empty field, two names and one operand. -/
def lineaDosNombres : List Word := [['m'], ['-', 'i'], ['a', ',', ',', 'b'], ['c']]

/-- `-t 5 f` after the name of the program: four words and no `-i`. -/
def lineaSinEntrada : List Word := [['m'], ['-', 't'], ['5'], ['f']]

/-- `-i` with 17 names, and one operand. -/
def lineaDiecisiete : List Word :=
  [['m'], ['-', 'i'], (List.replicate 17 ['a', ',']).flatten, ['b']]

def lineaSalidas : List Word :=
  ['m'] :: ['-', 'i'] :: ['a'] :: List.replicate 17 ['b']

theorem lists_in_bounds_dos :
    Acotada lineaDosNombres (mainBucles (fun _ => []) (fun _ => []) lineaDosNombres) :=
  (lists_in_bounds_iff _ _ lineaDosNombres).2 fun o ho => by
    cases ho.opciones
    exact ⟨_, rfl, by decide, by decide⟩

/-- Too many names, too many operands, and no names at all. -/
theorem lists_out_of_bounds :
    mainBucles (fun _ => []) (fun _ => []) lineaDiecisiete = .error .indefinido ∧
    mainBucles (fun _ => []) (fun _ => []) lineaSalidas = .error .indefinido ∧
    mainBucles (fun _ => []) (fun _ => []) lineaSinEntrada = .error .indefinido := by
  exact ⟨by decide +kernel, by decide +kernel, by decide +kernel⟩

end AsoPracticas.Tarea4.Argumentos.MergeMystringsSplit
