import AsoPracticas.Lib.Getopt
import AsoPracticas.Lib.Loop
import Mathlib.Tactic

/-!
# Argumentos — the argument vectors of the Tarea4 programs

`merge_mystrings_split` reads its command line, checks it and builds one argument vector for each of
the three stages it starts; each stage takes its vector apart with an option loop of its own.  This
file models the four argument parsers, with their checks and the texts of their errors.

The sources define `_POSIX_C_SOURCE`, which selects the `getopt` that stops at the first operand.
-/

namespace AsoPracticas.Tarea4.Argumentos

open Lib

inductive Final
  /-- `exit(estado)`, after writing `stderr` -/
  | exit (estado : Nat) (stderr : List String)
  /-- undefined behaviour: a null pointer is read or an array overflows -/
  | indefinido
  deriving DecidableEq, Repr

def exitSuccess : Nat := 0

def exitFailure : Nat := 1

/-- The check the `comprobarSize…` functions share: the number in `texto` lies between the bounds. -/
def enRango (minimo maximo : Int) (error : List String) (texto : Word) : Except Final Int :=
  let aux := atoi texto
  if aux < minimo ∨ aux > maximo then .error (.exit exitFailure error) else .ok aux

/-- The loop the `comprobarNumFicheros` functions share: counts the words of the vector from position
`desde` on and stops at the seventeenth. -/
def cuentaFicheros (desde argc : Nat) (error : List String) : Except Final Nat :=
  (List.range (argc - desde)).foldlM
    (fun contadorAux _ =>
      if contadorAux + 1 > 16 then .error (.exit exitFailure error) else .ok (contadorAux + 1)) 0

/-! ## The shared checks -/

variable {error : List String}

theorem enRango_eq_ok_iff {minimo maximo aux : Int} {texto : Word} :
    enRango minimo maximo error texto = .ok aux ↔ atoi texto = aux ∧ minimo ≤ aux ∧ aux ≤ maximo := by
  by_cases h : atoi texto < minimo ∨ atoi texto > maximo
  · simp only [enRango, h, if_true, reduceCtorEq, false_iff]
    rintro ⟨rfl, hmin, hmax⟩
    omega
  · simp only [enRango, h, if_false, Except.ok.injEq]
    grind

theorem enRango_error {minimo maximo : Int} {texto : Word} {f : Final}
    (h : enRango minimo maximo error texto = .error f) : f = .exit exitFailure error := by
  unfold enRango at h
  simp only at h
  split at h
  · cases h
    rfl
  · cases h

theorem cuentaFicheros_eq (desde argc : Nat) (error : List String) :
    cuentaFicheros desde argc error =
      if argc - desde ≤ 16 then .ok (argc - desde) else .error (.exit exitFailure error) := by
  have hcases := foldlM_range_cases (fun i (n : Nat) => n = i) (fun i => i ≤ 16) (Final.exit exitFailure error)
    (f := fun contadorAux _ =>
      if contadorAux + 1 > 16 then Except.error (Final.exit exitFailure error)
      else .ok (contadorAux + 1)) (n := argc - desde)
    (fun i _ hi => Nat.le_of_succ_le hi)
    (by
      rintro i n - - rfl
      by_cases hn : n + 1 ≤ 16
      · exact .inl ⟨hn, n + 1, if_neg (by omega), rfl⟩
      · exact .inr ⟨hn, if_pos (by omega)⟩)
    (s := 0) (Nat.zero_le 16) rfl
  grind [cuentaFicheros]

theorem le_of_cuentaFicheros {desde argc n : Nat}
    (h : cuentaFicheros desde argc error = .ok n) : n = argc - desde ∧ n ≤ 16 := by
  rw [cuentaFicheros_eq] at h
  split at h
  · cases h
    exact ⟨rfl, by assumption⟩
  · cases h

theorem cuentaFicheros_ok {desde argc : Nat} (error : List String) (h : argc - desde ≤ 16) :
    cuentaFicheros desde argc error = .ok (argc - desde) := by
  rw [cuentaFicheros_eq, if_pos h]

theorem cuentaFicheros_error {desde argc : Nat} {f : Final}
    (h : cuentaFicheros desde argc error = .error f) : f = .exit exitFailure error := by
  rw [cuentaFicheros_eq] at h
  split at h
  · cases h
  · cases h
    rfl

/-! ## `merge_files` -/

namespace MergeFiles

def imprimirUso : List String :=
  ["Uso: merge_files [-t BUFSIZE] [-o FILEOUT] FILEIN1 [FILEIN2 ...FILEINn]\n"]

def imprimirInstrucciones : List String :=
  ["NO admite lectura de la entrada estandar.\n",
    "-t BUFSIZE Tamaño de buffer donde 1<= BUFSIZE <=128MB\n",
    "-o FILEOUT Usa FILEOUT en lugar de la salida estandar\n"]

def comprobarSizeBuff : Word → Except Final Int :=
  enRango 1 134217718
    ("Error: Tamaño de buffer incorrecto.\n" :: imprimirUso ++ imprimirInstrucciones)

def demasiados : List String :=
  "Error: Demasiados ficheros de entrada. Máximo 16 ficheros.\n" :: imprimirInstrucciones

def comprobarNumFicheros (argc : Nat) (memReservar ficheroSalida : Option Word) :
    Except Final Nat :=
  if memReservar.isSome ∧ ficheroSalida.isSome then
    cuentaFicheros 5 argc ("Se ha reservado ambos\n" :: demasiados)
  else if (memReservar.isSome ∨ ficheroSalida.isSome) ∧ argc > 3 then
    cuentaFicheros 3 argc ("Se ha reservado mem o hay fichout\n" :: demasiados)
  else if memReservar.isNone ∧ ficheroSalida.isNone then
    cuentaFicheros 1 argc demasiados
  else if (memReservar.isNone ∨ ficheroSalida.isNone) ∧ argc ≤ 3 then
    .error (.exit exitFailure
      ("Error: No hay ficheros de entrada\n" :: imprimirUso ++ imprimirInstrucciones))
  else
    .ok 0

/-- What the count is, when there is one: the words of the vector after the first, the third or the fifth. -/
theorem comprobarNumFicheros_eq_ok {argc n : Nat} {memReservar ficheroSalida : Option Word}
    (h : comprobarNumFicheros argc memReservar ficheroSalida = .ok n) :
    n = argc - (1 + 2 * (memReservar.toList.length + ficheroSalida.toList.length)) ∧ n ≤ 16 := by
  unfold comprobarNumFicheros at h
  cases memReservar with
  | none =>
    cases ficheroSalida with
    | none =>
      exact le_of_cuentaFicheros h
    | some w =>
      simp only [Option.isSome_none, Option.isSome_some, Bool.false_eq_true, false_and, false_or, true_and, if_false,
        Option.isNone_none, Option.isNone_some, and_false, true_or] at h
      split at h
      · exact le_of_cuentaFicheros h
      · rw [if_pos (by omega)] at h
        cases h
  | some w =>
    cases ficheroSalida with
    | none =>
      simp only [Option.isSome_none, Option.isSome_some, Bool.false_eq_true, and_false, or_false, true_and, if_false,
        Option.isNone_none, Option.isNone_some, false_and, or_true] at h
      split at h
      · exact le_of_cuentaFicheros h
      · rw [if_pos (by omega)] at h
        cases h
    | some w' =>
      exact le_of_cuentaFicheros h

/-- The variables of the option loop; `buf_size` has no value before the first `-t`. -/
structure Opciones where
  memReservar : Option Word
  ficheroSalida : Option Word
  buf_size : Option Int
  deriving DecidableEq, Repr

/-- The `switch` of the option loop. -/
def opcion (o : Opciones) : Found → Except Final Opciones
  | .option 't' (some optarg) => do
      let buf_size ← comprobarSizeBuff optarg
      return { o with memReservar := some optarg, buf_size := some buf_size }
  | .option 'o' (some optarg) => .ok { o with ficheroSalida := some optarg }
  | _ => .ok o

/-- What `main` works with after its arguments; `ficheros` are the words from `optind` on. -/
structure Ejecucion where
  buf_size : Option Int
  ficheroSalida : Option Word
  numFicheros : Nat
  ficheros : List Word
  deriving DecidableEq, Repr

def argumentos (argv : List Word) : Except Final Ejecucion := do
  if argv.length = 1 then
    .error (.exit exitFailure
      ("Error: No hay ficheros de entrada.\n" :: imprimirUso ++ imprimirInstrucciones))
  else
    let (found, ficheros) := getopt (optspec ['t', ':', 'o', ':']) argv.tail
    let o ← found.foldlM opcion { memReservar := none, ficheroSalida := none, buf_size := none }
    let numFicheros ← comprobarNumFicheros argv.length o.memReservar o.ficheroSalida
    return { buf_size := o.buf_size, ficheroSalida := o.ficheroSalida, numFicheros, ficheros }

end MergeFiles

/-! ## `mystrings` -/

namespace MyStrings

def imprimirUso : List String :=
  ["Uso: ./mystrings [-t BUFSIZE] [-n MINLENGTH]\n",
    "Lee de la entrada estándar el flujo de bytes recibido y escribe en la salida estándar las cadenas " ++
      "compuestas por caracteres imprimibles incluyendo espacios, tabuladores y saltos de línea, " ++
      "que tengan una longitud mayor o igual a un tamaño dado,\n",
    "-t BUFSIZE\tTamaño de buffer donde MINLENGTH <= BUFSIZE <= 1MB (por defecto 1024).\n",
    "-n MINLENGTH\tLongitud mínima de la cadena. Mayor que 0 y menor que 256(por defecto 4).\n"]

/-- The only size check that knows about the minimum length. -/
def comprobarSizeBuff (memoria : Word) (min_length : Int) : Except Final Int :=
  let aux := atoi memoria
  if aux < min_length ∨ aux < 1 ∨ aux > 1048576 then
    .error (.exit exitFailure ("Error: Tamaño de buffer incorrecto.\n" :: imprimirUso))
  else
    .ok aux

def comprobarSizeCadena : Word → Except Final Int :=
  enRango 1 255
    ("La longitud mínima de cadena tiene que ser mayor que 0 y menor que 256.\n" :: imprimirUso)

/-- The variables of the option loop, with what it has written to `stderr`: the usage text does not
end the program here. -/
structure Opciones where
  bufsize : Option Word
  minlength : Option Word
  stderr : List String
  deriving DecidableEq, Repr

/-- The `switch` of the option loop. -/
def opcion (o : Opciones) : Found → Opciones
  | .option 't' (some optarg) => { o with bufsize := some optarg }
  | .option 'n' (some optarg) => { o with minlength := some optarg }
  | _ => { o with stderr := o.stderr ++ imprimirUso }

/-- What `main` works with after its arguments. -/
structure Ejecucion where
  buf_size : Int
  min_length : Int
  stderr : List String
  deriving DecidableEq, Repr

def argumentos (argv : List Word) : Except Final Ejecucion := do
  -- the operands are never looked at
  let (found, _) := getopt (optspec ['t', ':', 'n', ':', 'h']) argv.tail
  let o := found.foldl opcion { bufsize := none, minlength := none, stderr := [] }
  let min_length ← o.minlength.elim (.ok 4) comprobarSizeCadena
  let buf_size ← o.bufsize.elim (.ok 1024) fun bufsize => comprobarSizeBuff bufsize min_length
  return { buf_size, min_length, stderr := o.stderr }

end MyStrings

/-! ## `split_files` -/

namespace SplitFiles

def imprimirUso : List String :=
  ["Uso: ./split_files [-t BUFSIZE] FILEOUT1 [FILEOUT2 ... FILEOUTn]\n",
    "Divide en ficheros el flujo de bytes que recibe por la entrada estandar\n",
    "El numero maximo de ficheros de salida es de 16.\n",
    "-t BUFSIZE Tamaño de buffer donde 1 <= BUFSIZE <= 1MB (por defecto 1024).\n",
    "\n"]

def comprobarSizeBuff : Word → Except Final Int :=
  enRango 1 1048576 ("Error: Tamaño de buffer incorrecto.\n" :: imprimirUso)

def comprobarNumFicheros (argc : Nat) (bufsize : Option Word) : Except Final Nat :=
  let demasiados := "Error: Demasiados ficheros de salida.\n" :: imprimirUso
  if bufsize.isNone then cuentaFicheros 1 argc demasiados else cuentaFicheros 3 argc demasiados

/-- The `switch` of the option loop, on `bufsize`. -/
def opcion (_bufsize : Option Word) : Found → Except Final (Option Word)
  | .option 't' (some optarg) => .ok (some optarg)
  | _ => .error (.exit exitFailure imprimirUso)

/-- What `main` works with after its arguments; `ficheros` are the words from `optind` on. -/
structure Ejecucion where
  buf_size : Int
  numFicheros : Nat
  ficheros : List Word
  deriving DecidableEq, Repr

def argumentos (argv : List Word) : Except Final Ejecucion := do
  let (found, ficheros) := getopt (optspec ['t', ':', 'h']) argv.tail
  let bufsize ← found.foldlM opcion none
  let buf_size ← bufsize.elim (.ok 1024) comprobarSizeBuff
  let numFicheros ← comprobarNumFicheros argv.length bufsize
  if numFicheros = 0 then
    .error (.exit exitFailure ("No hay ficheros de salida\n" :: imprimirUso))
  else
    return { buf_size, numFicheros, ficheros }

end SplitFiles

/-! ## `merge_mystrings_split` -/

namespace MergeMystringsSplit

def imprimirUso : List String :=
  ["Uso: ./merge_mystrings_split [-t BUFSIZE] [-n MIN_LENGTH] -i FILEIN1[,FILEIN2,...,FILEINn] " ++
    "FILEOUT1 [FILEOUT2 ...]\n",
    "-t BUFSIZE  Tamaño de buffer donde 1<= BUFSIZE <= 1MB (por defecto 1024).\n",
    "-n MINLENGTH    Longitud mínima de la cadena. Mayor que 0 y menor que 256 (por defecto 4).\n",
    "-i  Lista de ficheros de entrada separados por comas.\n"]

def comprobarSizeBuff (bufsize : Word) : Except Final Word := do
  let _ ← enRango 1 1048576
    ("Error: El tamaño de buffer debe ser mayor que 0 y menor que 1048576.\n" :: imprimirUso) bufsize
  return bufsize

def comprobarSizeCadena (cadena : Word) : Except Final Word := do
  let _ ← enRango 1 255
    ("Error: La longitud mínima de cadena tiene que ser mayor que 0 y menor que 256.\n" ::
      imprimirUso) cadena
  return cadena

structure Opciones where
  bufsize : Option Word
  minlength : Option Word
  ficherosEntrada : Option Word
  deriving DecidableEq, Repr

/-- The `switch` of the option loop. -/
def opcion (o : Opciones) : Found → Except Final Opciones
  | .option 'h' _ => .error (.exit exitSuccess imprimirUso)
  | .option 't' (some optarg) => .ok { o with bufsize := some optarg }
  | .option 'n' (some optarg) => .ok { o with minlength := some optarg }
  | .option 'i' (some optarg) => .ok { o with ficherosEntrada := some optarg }
  | _ => .error (.exit exitFailure
      ("Debe proporcionarse la lista de ficheros de salida\n" :: imprimirUso))

/-- The vectors the three stages are started with, without the final null pointer. -/
structure Vectores where
  arrayMergeFiles : List Word
  arrayMyStrings : List Word
  arraySplitFiles : List Word
  deriving DecidableEq, Repr

/-- `./merge_files`, `./mystrings` and `./split_files` -/
def nombreMergeFiles : Word := ['.', '/', 'm', 'e', 'r', 'g', 'e', '_', 'f', 'i', 'l', 'e', 's']
def nombreMyStrings : Word := ['.', '/', 'm', 'y', 's', 't', 'r', 'i', 'n', 'g', 's']
def nombreSplitFiles : Word := ['.', '/', 's', 'p', 'l', 'i', 't', '_', 'f', 'i', 'l', 'e', 's']

/-- The three vectors; the fourth word of the second one starts with a blank. -/
def vectores (buf_size min_length : Word) (arrayFicherosEntrada arrayFicherosSalida : List Word) : Vectores where
  arrayMergeFiles := nombreMergeFiles :: ['-', 't'] :: buf_size :: arrayFicherosEntrada
  arrayMyStrings := [nombreMyStrings, ['-', 't'], buf_size, [' ', '-', 'n'], min_length]
  arraySplitFiles := nombreSplitFiles :: ['-', 't'] :: buf_size :: arrayFicherosSalida

/-- The names between commas; both arrays of names have room for 16. -/
def ficherosDeEntrada : Option Word → Except Final (List Word)
  | none => .error .indefinido
  | some ficherosEntrada =>
    let arrayFicherosEntrada := strtok ',' ficherosEntrada
    if arrayFicherosEntrada.length > 16 then .error .indefinido else .ok arrayFicherosEntrada

def main (argv : List Word) : Except Final Vectores := do
  let (found, arrayFicherosSalida) := getopt (optspec ['t', ':', 'i', ':', 'n', ':', 'h']) argv.tail
  let o ← found.foldlM opcion { bufsize := none, minlength := none, ficherosEntrada := none }
  if argv.length ≤ 3 then
    .error (.exit exitFailure
      ("Error: Deben proporcionarse ficheros de entrada con la opción -i\n" :: imprimirUso))
  else
    let buf_size ← o.bufsize.elim (.ok ['1', '0', '2', '4']) comprobarSizeBuff
    let min_length ← o.minlength.elim (.ok ['4']) comprobarSizeCadena
    let arrayFicherosEntrada ← ficherosDeEntrada o.ficherosEntrada
    if arrayFicherosSalida.length > 16 then
      .error .indefinido
    else if arrayFicherosSalida.length = 0 then
      .error (.exit exitFailure
        ("Debe porporcionarse la lista de ficheros de salida\n" :: imprimirUso))
    else
      return vectores buf_size min_length arrayFicherosEntrada arrayFicherosSalida

end MergeMystringsSplit

end AsoPracticas.Tarea4.Argumentos
