import AsoPracticas.Lib.Interleave
import AsoPracticas.Lib.Loop
import AsoPracticas.Tarea4.Sistema

/-!
# MergeFiles — the merge loop of `merge_files.c`

The main loop of `merge_files` works in rounds.  A round reads one buffer from every input, then
shuffles the buffers byte by byte into `bufSalida`, which is written out whenever it is full and is
carried over from round to round.  When the last input ends, what is left of `bufSalida` is written
with the `a_Escribir` and `escritos` of the last inner iteration.

* the model follows the source statement by statement, over any operating system `SO`.
-/

namespace AsoPracticas.Tarea4.MergeFiles

open Function (update update_of_ne update_self)

variable {σ : Type}

/-- The variables of `main` that live across the merge loop. -/
structure Vars (σ : Type) where
  contador : Int
  porEscribir : Nat → Int
  ficherosTerminados : Nat → Int
  cjtoBuffer : Nat → Memoria
  bufSalida : Memoria
  punterowrite : Nat
  a_Escribir : Int
  escritos : Int
  num_read : Int
  so : σ

/-! ## The program -/

/-- The read loop of one input.  Its body tests `num_read == 0` although the loop condition has just
found `num_read == -1`. -/
def leeEntrada (so : SO σ) (fd i : Nat) : Nat → (a_Leer leidos : Int) → Vars σ → Except Fallo (Vars σ)
  | 0, _, _, _ => .error .combustible
  | fuel + 1, a_Leer, leidos, st =>
    if a_Leer > 0 then
      let (num_read, bytes, s') := so.read st.so fd a_Leer
      let st := { st with
        cjtoBuffer := update st.cjtoBuffer i ((st.cjtoBuffer i).vuelca leidos bytes)
        num_read := num_read
        so := s' }
      if num_read = -1 then
        let st :=
          if num_read = 0 then
            { st with
              contador := st.contador + 1
              ficherosTerminados := update st.ficherosTerminados i 1 }
          else st
        leeEntrada so fd i fuel (a_Leer - num_read) (leidos + num_read) st
      else
        .ok st
    else
      .ok st

/-- One iteration of the reading `for`: fill the buffer of input `i` and set `porEscribir[i]`. -/
def lee (so : SO σ) (fuel buf_size : Nat) (arrayFD : Nat → Nat) (st : Vars σ) (i : Nat) : Except Fallo (Vars σ) := do
  let st ← leeEntrada so (arrayFD i) i fuel buf_size 0 st
  let porEscribir := if st.num_read = -1 then 1 else st.num_read
  return { st with porEscribir := update st.porEscribir i porEscribir }

/-- The flush at the head of an inner iteration, taken when `bufSalida` is full. -/
def vacia (so : SO σ) (fuel buf_size fdout : Nat) (st : Vars σ) : Except Fallo (Vars σ) := do
  let st := { st with a_Escribir := st.punterowrite, escritos := 0 }
  if st.punterowrite = buf_size then
    let (a_Escribir, escritos, s') ←
      bucleEscritura so fdout st.bufSalida id fuel st.a_Escribir st.escritos st.so
    return { st with a_Escribir := a_Escribir, escritos := escritos, so := s', punterowrite := 0 }
  else
    return st

/-- `bufSalida[punterowrite] = bufAux[v]; punterowrite++` with `bufAux = cjtoBuffer[i]`. -/
def apunta (v i : Nat) (st : Vars σ) : Vars σ :=
  { st with
    bufSalida := st.bufSalida.pon st.punterowrite (st.cjtoBuffer i v)
    punterowrite := st.punterowrite + 1 }

/-- Mark input `i` as finished. -/
def termina (i : Nat) (st : Vars σ) : Vars σ :=
  { st with
    ficherosTerminados := update st.ficherosTerminados i 1
    contador := st.contador + 1 }

/-- The body of the inner `for` at byte `v` of input `i`.  The flag says that `i--` was executed, so
that the same input is visited again. -/
def baraja (buf_size v i : Nat) (st : Vars σ) : Bool × Vars σ :=
  if st.porEscribir i = buf_size ∧ st.ficherosTerminados i ≠ 1 then
    let st := apunta v i st
    if st.porEscribir i = 0 then (false, termina i st) else (false, st)
  else if st.porEscribir i ≤ buf_size ∧ st.ficherosTerminados i ≠ 1 then
    if st.porEscribir i = v then
      (true, termina i { st with porEscribir := update st.porEscribir i (-1) })
    else
      (false, apunta v i st)
  else
    (false, st)

/-- The inner `for (int i = 0; i < numFicheros; i++)`, from input `i` on. -/
def fila (so : SO σ) (fuel buf_size numFicheros fdout v : Nat) : Nat → Nat → Vars σ → Except Fallo (Vars σ)
  | 0, _, _ => .error .combustible
  | n + 1, i, st =>
    if i < numFicheros then do
      let st ← vacia so fuel buf_size fdout st
      let (repite, st) := baraja buf_size v i st
      fila so fuel buf_size numFicheros fdout v n (if repite then i else i + 1) st
    else
      .ok st

/-- The number of inputs marked as finished, counted at the end of a round. -/
def fin (numFicheros : Nat) (st : Vars σ) : Nat :=
  (List.range numFicheros).countP fun i => st.ficherosTerminados i = 1

/-- A round up to the count of finished inputs: one read per input, then the shuffle. -/
def ronda (so : SO σ) (fuel buf_size numFicheros : Nat) (arrayFD : Nat → Nat) (fdout : Nat)
    (st : Vars σ) : Except Fallo (Vars σ) := do
  let st ← (List.range numFicheros).foldlM (lee so fuel buf_size arrayFD) { st with contador := 0 }
  (List.range buf_size).foldlM (fun st v => fila so fuel buf_size numFicheros fdout v fuel 0 st)
    { st with a_Escribir := 0, escritos := 0 }

/-- `while (contador != numFicheros)`; the loop is left by `break` after the last flush. -/
def mezcla (so : SO σ) (fuel buf_size numFicheros : Nat) (arrayFD : Nat → Nat) (fdout : Nat) :
    Nat → Vars σ → Except Fallo (Vars σ)
  | 0, _ => .error .combustible
  | n + 1, st =>
    if st.contador ≠ numFicheros then do
      let st ← ronda so fuel buf_size numFicheros arrayFD fdout st
      if fin numFicheros st = numFicheros then
        let (a_Escribir, escritos, s') ←
          bucleEscritura so fdout st.bufSalida id fuel st.a_Escribir st.escritos st.so
        return { st with a_Escribir := a_Escribir, escritos := escritos, so := s' }
      else
        mezcla so fuel buf_size numFicheros arrayFD fdout n st
    else
      .ok st

/-- The merge loop as `main` enters it: `basura` holds what the uninitialised variables contain. -/
def main (so : SO σ) (fuel buf_size numFicheros : Nat) (arrayFD : Nat → Nat) (fdout : Nat)
    (basura : Vars σ) : Except Fallo (Vars σ) :=
  mezcla so fuel buf_size numFicheros arrayFD fdout fuel { basura with contador := 0, punterowrite := 0 }

/-! ## One visit of the inner loop -/

section Visit

variable {ρ : Type} (leer : ρ → Int → Int × List UInt8 × ρ) {B k fdout : Nat}

/-- What has left the inputs so far: the bytes written and those waiting in `bufSalida`. -/
def flujo (fdout : Nat) (st : Vars (Ficheros ρ)) : List UInt8 :=
  st.so.salidas fdout ++ st.bufSalida.rango 0 st.punterowrite

/-- The state after the flush at the head of a visit, when writes complete. -/
def vaciado (B fdout : Nat) (st : Vars (Ficheros ρ)) : Vars (Ficheros ρ) :=
  if st.punterowrite = B then
    { st with
      a_Escribir := st.punterowrite
      escritos := 0
      punterowrite := 0
      so := st.so.escribe fdout (st.bufSalida.rango 0 st.punterowrite) }
  else
    { st with a_Escribir := st.punterowrite, escritos := 0 }

theorem vacia_completo (hB : 1 ≤ B) (fuel : Nat) (st : Vars (Ficheros ρ)) :
    vacia (SO.completo leer) (fuel + 1) B fdout st = .ok (vaciado B fdout st) := by
  by_cases h : st.punterowrite = B
  · have hpos : (0 : Int) < B := by omega
    simp [vacia, vaciado, h, bucleEscritura_completo leer fdout st.bufSalida id fuel 0 st.so hpos,
      bind, Except.bind, pure, Except.pure]
  · simp [vacia, vaciado, h, pure, Except.pure]

@[simp] theorem vaciado_porEscribir (st : Vars (Ficheros ρ)) : (vaciado B fdout st).porEscribir = st.porEscribir := by
  unfold vaciado; split <;> rfl

@[simp] theorem vaciado_ficherosTerminados (st : Vars (Ficheros ρ)) :
    (vaciado B fdout st).ficherosTerminados = st.ficherosTerminados := by
  unfold vaciado; split <;> rfl

@[simp] theorem vaciado_cjtoBuffer (st : Vars (Ficheros ρ)) : (vaciado B fdout st).cjtoBuffer = st.cjtoBuffer := by
  unfold vaciado; split <;> rfl

@[simp] theorem vaciado_contador (st : Vars (Ficheros ρ)) : (vaciado B fdout st).contador = st.contador := by
  unfold vaciado; split <;> rfl

@[simp] theorem vaciado_entradas (st : Vars (Ficheros ρ)) : (vaciado B fdout st).so.entradas = st.so.entradas := by
  unfold vaciado; split <;> rfl

@[simp] theorem flujo_vaciado (fdout : Nat) (st : Vars (Ficheros ρ)) :
    flujo fdout (vaciado B fdout st) = flujo fdout st := by
  by_cases h : st.punterowrite = B
  · simp [flujo, vaciado, h]
  · simp [flujo, vaciado, h]

theorem vaciado_punterowrite_lt (fdout : Nat) (hB : 1 ≤ B) {st : Vars (Ficheros ρ)} (h : st.punterowrite ≤ B) :
    (vaciado B fdout st).punterowrite < B := by
  by_cases hp : st.punterowrite = B
  · simp [vaciado, hp]
    omega
  · simp [vaciado, hp]
    omega

/-- The counters of the last visit describe exactly what waits in `bufSalida`. -/
def Pendiente (B : Nat) (st : Vars σ) : Prop :=
  st.punterowrite < B ∧ st.a_Escribir = st.punterowrite ∧ st.escritos = 0

theorem pendiente_vaciado {st : Vars (Ficheros ρ)} (h : st.punterowrite < B) : Pendiente B (vaciado B fdout st) := by
  have hp : st.punterowrite ≠ B := by omega
  simp [Pendiente, vaciado, hp, h]

@[simp] theorem flujo_apunta (v i : Nat) (st : Vars (Ficheros ρ)) :
    flujo fdout (apunta v i st) = flujo fdout st ++ [st.cjtoBuffer i v] := by
  have := Memoria.rango_pon_succ st.bufSalida st.punterowrite (st.cjtoBuffer i v)
  simp only [flujo, apunta]
  rw [this, List.append_assoc]

/-! ## Counting finished inputs -/

theorem countP_range_update {p q : Nat → Bool} {i : Nat} (hp : p i = false) (hq : q i = true)
    (hne : ∀ j, j ≠ i → q j = p j) {k : Nat} (hi : i < k) :
    (List.range k).countP q = (List.range k).countP p + 1 := by
  induction k with
  | zero => omega
  | succ k ih =>
    rw [List.range_succ, List.countP_append, List.countP_append]
    by_cases hik : i = k
    all_goals grind [List.countP_congr, List.countP_singleton]

theorem fin_termina {i : Nat} (hi : i < k) {st : Vars σ} (h : st.ficherosTerminados i ≠ 1) :
    fin k (termina i st) = fin k st + 1 := by
  refine countP_range_update (i := i) (by simp [h]) (by simp [termina]) ?_ hi
  intro j hj
  simp [termina, update_of_ne hj]

theorem fin_eq_iff (st : Vars σ) : fin k st = k ↔ ∀ j < k, st.ficherosTerminados j = 1 := by
  have := List.countP_eq_length (p := fun i => decide (st.ficherosTerminados i = 1)) (l := List.range k)
  aesop

end Visit

/-! ## The shuffle of one round -/

section Round

variable {ρ : Type} (leer : ρ → Int → Int × List UInt8 × ρ) {B k fdout : Nat}

/-- Input `j`, of which `c j` is left when the round starts, is finished once the shuffle has passed
its end; `t0` are the flags at the start of the round. -/
def Acabado (B : Nat) (c : Nat → List UInt8) (t0 : Nat → Int) (v i j : Nat) : Prop :=
  t0 j = 1 ∨ ((c j).length < B ∧ ((c j).length < v ∨ (c j).length = v ∧ j < i))

/-- The invariant of a round before byte `v` of input `i`: `c` is what was left of each input when
the round started, `S` what had left the inputs by then and `ent` the rest of each input. -/
@[grind cases eager]
structure EnRonda (B k fdout : Nat) (c : Nat → List UInt8) (t0 : Nat → Int) (S : List UInt8)
    (ent : Nat → ρ) (v i : Nat) (st : Vars (Ficheros ρ)) : Prop where
  terminados : ∀ j < k, st.ficherosTerminados j = 1 ↔ Acabado B c t0 v i j
  porEscribir : ∀ j < k, st.ficherosTerminados j ≠ 1 → st.porEscribir j = (min B (c j).length : Nat)
  buffers : ∀ j < k, ∀ p (hp : p < (c j).length), p < B → st.cjtoBuffer j p = (c j)[p]
  flujo : flujo fdout st = S ++ (List.range v).flatMap (Lib.column ((List.range k).map c)) ++
    (List.range i).filterMap (fun j => (c j)[v]?)
  puntero : st.punterowrite ≤ B
  ultima : (∀ j < k, st.ficherosTerminados j = 1) → Pendiente B st
  contador : st.contador + (List.range k).countP (fun j => t0 j = 1) = fin k st
  entradas : st.so.entradas = ent

variable {c : Nat → List UInt8} {t0 : Nat → Int} {S : List UInt8} {ent : Nat → ρ} {v i : Nat} {st : Vars (Ficheros ρ)}

theorem acabado_succ {j : Nat} (hj : j ≠ i) : Acabado B c t0 v (i + 1) j ↔ Acabado B c t0 v i j := by
  have : j < i + 1 ↔ j < i := by omega
  simp [Acabado, this]

theorem EnRonda.getElem?_eq_none (h : EnRonda B k fdout c t0 S ent v i st)
    (ht0 : ∀ j < k, t0 j = 1 → c j = []) (hi : i < k) (hfin : st.ficherosTerminados i = 1) :
    (c i)[v]? = none := by
  rcases (h.terminados i hi).1 hfin with h0 | ⟨-, hlt | ⟨-, hii⟩⟩
  all_goals grind

theorem EnRonda.salta (hB : 1 ≤ B) (h : EnRonda B k fdout c t0 S ent v i st)
    (ht0 : ∀ j < k, t0 j = 1 → c j = []) (hi : i < k) (hfin : st.ficherosTerminados i = 1) :
    EnRonda B k fdout c t0 S ent v (i + 1) (vaciado B fdout st) where
  terminados := by
    intro j hj
    by_cases hji : j = i
    · subst hji
      have hnow := (h.terminados j hj).1 hfin
      simp only [vaciado_ficherosTerminados, hfin, true_iff]
      rcases hnow with h0 | ⟨hlen, hlt | ⟨-, hii⟩⟩
      · exact .inl h0
      · exact .inr ⟨hlen, .inl hlt⟩
      · omega
    · rw [acabado_succ hji]
      simpa using h.terminados j hj
  porEscribir := by simpa using h.porEscribir
  buffers := by simpa using h.buffers
  flujo := by
    rw [flujo_vaciado, h.flujo, List.range_succ, List.filterMap_append]
    simp [h.getElem?_eq_none ht0 hi hfin]
  puntero := Nat.le_of_lt (vaciado_punterowrite_lt fdout hB h.puntero)
  ultima := by
    intro hall
    exact pendiente_vaciado (h.ultima (by simpa using hall)).1
  contador := by simpa [fin] using h.contador
  entradas := by simpa using h.entradas

theorem EnRonda.apunta (hB : 1 ≤ B) (h : EnRonda B k fdout c t0 S ent v i st) (hv : v < B)
    (hi : i < k) (hfin : st.ficherosTerminados i ≠ 1) (hlen : v < (c i).length) :
    EnRonda B k fdout c t0 S ent v (i + 1) (apunta v i (vaciado B fdout st)) where
  terminados := by
    intro j hj
    have hj' : (MergeFiles.apunta v i (vaciado B fdout st)).ficherosTerminados j =
        st.ficherosTerminados j := by simp [MergeFiles.apunta]
    rw [hj']
    by_cases hji : j = i
    · subst hji
      simp only [hfin, false_iff]
      rintro (h0 | ⟨hlt, hlt' | ⟨hEq, -⟩⟩)
      · exact hfin ((h.terminados j hj).2 (.inl h0))
      · omega
      · omega
    · rw [acabado_succ hji]
      exact h.terminados j hj
  porEscribir := by simpa [MergeFiles.apunta] using h.porEscribir
  buffers := by simpa [MergeFiles.apunta] using h.buffers
  flujo := by
    grind [apunta, vaciado, flujo_apunta, flujo_vaciado, List.range_succ]
  puntero := by
    have := vaciado_punterowrite_lt fdout hB h.puntero
    simp only [MergeFiles.apunta]
    omega
  ultima := by
    intro hall
    exact absurd (by simpa [MergeFiles.apunta] using hall i hi) hfin
  contador := by simpa [fin, MergeFiles.apunta] using h.contador
  entradas := by simpa [MergeFiles.apunta] using h.entradas

/-- Reaching the end of an input marks it, and the repeated visit refreshes the counters. -/
theorem EnRonda.termina (hB : 1 ≤ B) (h : EnRonda B k fdout c t0 S ent v i st) (hv : v < B)
    (hi : i < k) (hfin : st.ficherosTerminados i ≠ 1) (hlen : (c i).length = v) :
    EnRonda B k fdout c t0 S ent v (i + 1)
      (vaciado B fdout (termina i { vaciado B fdout st with
        porEscribir := update (vaciado B fdout st).porEscribir i (-1) })) where
  terminados := by
    intro j hj
    simp only [vaciado_ficherosTerminados, MergeFiles.termina]
    by_cases hji : j = i
    all_goals grind [termina, vaciado, Acabado, acabado_succ]
  porEscribir := by
    intro j hj hne
    simp only [vaciado_ficherosTerminados, vaciado_porEscribir, MergeFiles.termina] at hne ⊢
    grind
  buffers := by simpa [MergeFiles.termina] using h.buffers
  flujo := by
    grind [termina, vaciado, MergeFiles.flujo, MergeFiles.termina, flujo_vaciado, List.getElem?_eq_none,
      List.range_succ]
  puntero := Nat.le_of_lt (vaciado_punterowrite_lt fdout hB (Nat.le_of_lt (vaciado_punterowrite_lt fdout hB h.puntero)))
  ultima := by
    intro _
    exact pendiente_vaciado (vaciado_punterowrite_lt fdout hB h.puntero)
  contador := by
    have hcount := h.contador
    have hstep : fin k (MergeFiles.termina i { vaciado B fdout st with
        porEscribir := update (vaciado B fdout st).porEscribir i (-1) }) =
        fin k st + 1 := by
      rw [fin_termina hi (by simpa using hfin)]
      simp [fin]
    have hfinv : fin k (vaciado B fdout (MergeFiles.termina i { vaciado B fdout st with
        porEscribir := update (vaciado B fdout st).porEscribir i (-1) })) =
        fin k st + 1 := by
      rw [← hstep]
      simp [fin]
    rw [hfinv]
    simp only [vaciado_contador, MergeFiles.termina]
    omega
  entradas := by simpa [MergeFiles.termina] using h.entradas

/-- One input at byte `v`: it is finished already or has that byte, and one visit is made; or it ends
here, and a visit that marks it is followed by one that finds it finished. -/
theorem EnRonda.visita (hB : 1 ≤ B) (ht0 : ∀ j < k, t0 j = 1 → c j = []) (hv : v < B) (hi : i < k)
    (h : EnRonda B k fdout c t0 S ent v i st) :
    (∃ st1, baraja B v i (vaciado B fdout st) = (false, st1) ∧
      st1.ficherosTerminados i = st.ficherosTerminados i ∧ EnRonda B k fdout c t0 S ent v (i + 1) st1) ∨
    ∃ st1, baraja B v i (vaciado B fdout st) = (true, st1) ∧ (c i).length = v ∧ t0 i ≠ 1 ∧
      st1.ficherosTerminados i = 1 ∧
      baraja B v i (vaciado B fdout st1) = (false, vaciado B fdout st1) ∧
      EnRonda B k fdout c t0 S ent v (i + 1) (vaciado B fdout st1) := by
  by_cases hfin : st.ficherosTerminados i = 1
  · refine .inl ⟨vaciado B fdout st, ?_, by simp, h.salta hB ht0 hi hfin⟩
    simp [baraja, hfin]
  have hpor := h.porEscribir i hi hfin
  by_cases hlen : v < (c i).length
  · refine .inl ⟨MergeFiles.apunta v i (vaciado B fdout st), ?_, by simp [MergeFiles.apunta],
      h.apunta hB hv hi hfin hlen⟩
    by_cases hfull : B ≤ (c i).length
    · have hp : st.porEscribir i = B := by rw [hpor, Nat.min_eq_left hfull]
      have hne : B ≠ 0 := by omega
      simp [baraja, hfin, hp, MergeFiles.apunta, hne]
    · have hp : st.porEscribir i = (c i).length := by rw [hpor, Nat.min_eq_right (by omega)]
      have hne : ¬ ((c i).length : Int) = B := by omega
      have hle : ((c i).length : Int) ≤ B := by omega
      have hnv : ¬ ((c i).length : Int) = v := by omega
      simp [baraja, hfin, hp, hne, hle, hnv]
  · have hEq : (c i).length = v := by
      by_contra hne
      have hlt : (c i).length < v := by omega
      exact hfin ((h.terminados i hi).2 (.inr ⟨by omega, .inl hlt⟩))
    have hp : st.porEscribir i = v := by rw [hpor, Nat.min_eq_right (by omega), hEq]
    have hne : ¬ (v : Int) = B := by omega
    have hle : (v : Int) ≤ B := by omega
    refine .inr ⟨MergeFiles.termina i { vaciado B fdout st with
      porEscribir := update (vaciado B fdout st).porEscribir i (-1) }, ?_, hEq, ?_, ?_, ?_,
      h.termina hB hv hi hfin hEq⟩
    · simp [baraja, hfin, hp, hne, hle]
    · exact fun h0 => hfin ((h.terminados i hi).2 (.inl h0))
    · simp [MergeFiles.termina]
    · simp [baraja, MergeFiles.termina]

theorem fila_succ (hB : 1 ≤ B) (fuel n : Nat) (hi : i < k) (st : Vars (Ficheros ρ)) :
    fila (SO.completo leer) (fuel + 1) B k fdout v (n + 1) i st =
      fila (SO.completo leer) (fuel + 1) B k fdout v n (if (baraja B v i (vaciado B fdout st)).1 then i else i + 1)
        (baraja B v i (vaciado B fdout st)).2 := by
  rw [fila, if_pos hi, vacia_completo leer hB]
  rfl

theorem EnRonda.fila (hB : 1 ≤ B) (ht0 : ∀ j < k, t0 j = 1 → c j = []) (hv : v < B) (fuel : Nat) :
    ∀ (m n i : Nat) (st : Vars (Ficheros ρ)), i + m = k → 2 * m < n → EnRonda B k fdout c t0 S ent v i st →
      ∃ st', fila (SO.completo leer) (fuel + 1) B k fdout v n i st = .ok st' ∧
        EnRonda B k fdout c t0 S ent v k st' := by
  intro m
  induction m with
  | zero =>
    intro n i st hik hn h
    obtain ⟨n, rfl⟩ := Nat.exists_eq_succ_of_ne_zero (by omega : n ≠ 0)
    grind [fila, SO.completo, MergeFiles.fila]
  | succ m ih =>
    intro n i st hik hn h
    obtain ⟨n, rfl⟩ := Nat.exists_eq_add_of_le' (by omega : 2 ≤ n)
    have hi : i < k := by omega
    rw [fila_succ leer hB fuel (n + 1) hi]
    rcases h.visita hB ht0 hv hi with ⟨st1, hb, -, h₁⟩ | ⟨st1, hb, -, -, -, hb', h₁⟩
    · rw [hb]
      exact ih (n + 1) (i + 1) _ (by omega) (by omega) h₁
    · rw [hb]
      simp only [if_true]
      rw [fila_succ leer hB fuel n hi, hb']
      exact ih n (i + 1) _ (by omega) (by omega) h₁

theorem EnRonda.siguiente (h : EnRonda B k fdout c t0 S ent v k st) : EnRonda B k fdout c t0 S ent (v + 1) 0 st where
  __ := h
  terminados := by
    grind [Acabado]
  flujo := by
    rw [h.flujo, List.range_succ, List.flatMap_append]
    simp [Lib.column, List.filterMap_map]

theorem EnRonda.filas (hB : 1 ≤ B) (ht0 : ∀ j < k, t0 j = 1 → c j = []) {fuel : Nat}
    (hfuel : 2 * k < fuel) (h : EnRonda B k fdout c t0 S ent 0 0 st) :
    ∃ st', (List.range B).foldlM
        (fun st v => MergeFiles.fila (SO.completo leer) fuel B k fdout v fuel 0 st) st = .ok st' ∧
      EnRonda B k fdout c t0 S ent B 0 st' := by
  refine Lib.foldlM_range_ok (fun v st => EnRonda B k fdout c t0 S ent v 0 st) ?_ h
  intro v st hv hI
  obtain ⟨f, rfl⟩ := Nat.exists_eq_succ_of_ne_zero (by omega : fuel ≠ 0)
  obtain ⟨st', hrun, hend⟩ := EnRonda.fila leer hB ht0 hv f k (f + 1) 0 st (by omega) hfuel hI
  exact ⟨st', hrun, hend.siguiente⟩

end Round

/-! ## Reading the inputs -/

section Read

variable {ρ : Type} {leer : ρ → Int → Int × List UInt8 × ρ} {B k fdout : Nat} {arrayFD : Nat → Nat}
  {vale : ρ → Prop} {alcance : ρ → List UInt8}

/-- A way to read an input through calls for `B` bytes: on the inputs that are fit for it (`vale`) a call
counts the bytes it delivers. -/
structure Fiel (B : Nat) (leer : ρ → Int → Int × List UInt8 × ρ) (vale : ρ → Prop) : Prop where
  cuenta : ∀ r, vale r → (leer r B).1 = (leer r B).2.1.length
  cabe : ∀ r, vale r → (leer r B).2.1.length ≤ B
  sigue : ∀ r, vale r → vale (leer r B).2.2

/-- And `alcance` is what the calls deliver up to the first one that does not fill the buffer. -/
@[grind cases eager]
structure Lector (B : Nat) (leer : ρ → Int → Int × List UInt8 × ρ) (vale : ρ → Prop)
    (alcance : ρ → List UInt8) : Prop extends Fiel B leer vale where
  alcance : ∀ r, vale r → alcance r = (leer r B).2.1 ++
    if (leer r B).2.1.length = B then alcance (leer r B).2.2 else []

/-- The input behind the descriptor of operand `j`. -/
def entrada (arrayFD : Nat → Nat) (st : Vars (Ficheros ρ)) (j : Nat) : ρ := st.so.entradas (arrayFD j)

def Valen (vale : ρ → Prop) (k : Nat) (arrayFD : Nat → Nat) (st : Vars (Ficheros ρ)) : Prop :=
  ∀ j < k, vale (entrada arrayFD st j)

theorem lee_lector (hlee : Fiel B leer vale) (hB : 1 ≤ B) (fuel i : Nat)
    (st : Vars (Ficheros ρ)) (hvale : vale (entrada arrayFD st i)) :
    lee (SO.completo leer) (fuel + 1) B arrayFD st i = .ok { st with
      cjtoBuffer := update st.cjtoBuffer i ((st.cjtoBuffer i).vuelca 0 (leer (entrada arrayFD st i) B).2.1)
      num_read := (leer (entrada arrayFD st i) B).2.1.length
      porEscribir := update st.porEscribir i (leer (entrada arrayFD st i) B).2.1.length
      so := { st.so with
        entradas := update st.so.entradas (arrayFD i) (leer (entrada arrayFD st i) B).2.2 } } := by
  have hpos : (0 : Int) < B := by omega
  have hcount := hlee.cuenta (st.so.entradas (arrayFD i)) hvale
  have hne : ((leer (st.so.entradas (arrayFD i)) B).2.1.length : Int) ≠ -1 := by omega
  simp only [lee, leeEntrada, gt_iff_lt, hpos, if_true, SO.completo, hcount, hne, if_false, entrada, bind,
    Except.bind, pure, Except.pure]

/-- The invariant of the reading `for` before input `i`; `st0` is the state it starts in. -/
@[grind cases eager]
structure Leyendo (leer : ρ → Int → Int × List UInt8 × ρ) (B k : Nat) (arrayFD : Nat → Nat)
    (st0 : Vars (Ficheros ρ)) (i : Nat) (st : Vars (Ficheros ρ)) : Prop where
  porEscribir : ∀ j < i, st.porEscribir j = (leer (entrada arrayFD st0 j) B).2.1.length
  buffers : ∀ j < i, ∀ p (hp : p < (leer (entrada arrayFD st0 j) B).2.1.length),
    st.cjtoBuffer j p = (leer (entrada arrayFD st0 j) B).2.1[p]
  leidos : ∀ j < i, entrada arrayFD st j = (leer (entrada arrayFD st0 j) B).2.2
  porLeer : ∀ j < k, i ≤ j → entrada arrayFD st j = entrada arrayFD st0 j
  igual : st.ficherosTerminados = st0.ficherosTerminados ∧ st.contador = st0.contador ∧
    st.bufSalida = st0.bufSalida ∧ st.punterowrite = st0.punterowrite ∧
    st.so.salidas = st0.so.salidas

theorem leyendo_run (hlee : Lector B leer vale alcance) (hB : 1 ≤ B)
    (hfd : ∀ i < k, ∀ j < k, arrayFD i = arrayFD j → i = j) (fuel : Nat) (st0 : Vars (Ficheros ρ))
    (hvale : Valen vale k arrayFD st0) :
    ∃ st', (List.range k).foldlM (lee (SO.completo leer) (fuel + 1) B arrayFD) st0 = .ok st' ∧
      Leyendo leer B k arrayFD st0 k st' := by
  refine Lib.foldlM_range_ok (Leyendo leer B k arrayFD st0) ?_
    ⟨by omega, by omega, by omega, fun _ _ _ => rfl, rfl, rfl, rfl, rfl, rfl⟩
  intro i st hi h
  have hrest : entrada arrayFD st i = entrada arrayFD st0 i := h.porLeer i hi (Nat.le_refl i)
  refine ⟨_, lee_lector hlee.toFiel hB fuel i st (hrest ▸ hvale i hi), ?_⟩
  rw [hrest]
  refine ⟨?_, ?_, ?_, ?_, h.igual⟩
  · grind
  · intro j hj p hp
    by_cases hji : j = i
    · subst hji
      simp only [update_self]
      exact Memoria.vuelca_zero_apply _ _ hp
    · rw [← h.buffers j (by omega) p hp]
      simp only [update_of_ne hji]
  · intro j hj
    by_cases hji : j = i
    · subst hji
      simp [entrada]
    · rw [← h.leidos j (by omega)]
      have hne : arrayFD j ≠ arrayFD i := fun hEq => hji (hfd j (by omega) i hi hEq)
      exact update_of_ne hne _ _
  · intro j hj hij
    rw [← h.porLeer j hj (by omega)]
    have hne : arrayFD j ≠ arrayFD i := fun hEq => by
      have := hfd j hj i hi hEq
      omega
    exact update_of_ne hne _ _

/-- What the next read delivers from input `j`, for the merge: nothing once its flag is set. -/
def trozo (leer : ρ → Int → Int × List UInt8 × ρ) (B : Nat) (arrayFD : Nat → Nat)
    (st : Vars (Ficheros ρ)) (j : Nat) : List UInt8 :=
  if st.ficherosTerminados j = 1 then [] else (leer (entrada arrayFD st j) B).2.1

/-- What the merge can still take from input `j`. -/
def alcanza (alcance : ρ → List UInt8) (arrayFD : Nat → Nat) (st : Vars (Ficheros ρ)) (j : Nat) :
    List UInt8 :=
  if st.ficherosTerminados j = 1 then [] else alcance (entrada arrayFD st j)

end Read

/-! ## The main loop -/

section Rounds

variable {ρ : Type} {leer : ρ → Int → Int × List UInt8 × ρ} {B k fdout : Nat} {arrayFD : Nat → Nat}
  {vivo : Vars (Ficheros ρ) → Nat → List UInt8} {alcance : ρ → List UInt8} {vale : ρ → Prop}
  {st st' : Vars (Ficheros ρ)} {st : Vars (Ficheros ρ)}

@[grind cases eager]
structure EnCabeza (B k : Nat) (st : Vars (Ficheros ρ)) : Prop where
  puntero : st.punterowrite ≤ B
  quedan : (∃ j < k, st.ficherosTerminados j ≠ 1) ∨ st.punterowrite = 0
  sigue : st.contador ≠ k

/-- What a round does from `st` to `st'`, where `vivo` is what the merge can still take from each input:
it takes the first `B` columns, and the inputs that it leaves unmarked filled their buffers. -/
@[grind cases eager]
structure RondaHecha (B k fdout : Nat) (vivo : Vars (Ficheros ρ) → Nat → List UInt8)
    (st st' : Vars (Ficheros ρ)) : Prop where
  resto : ∀ j < k, vivo st' j = (vivo st j).drop B
  flujo : flujo fdout st' = flujo fdout st ++ (List.range B).flatMap (Lib.column ((List.range k).map (vivo st)))
  acabadas : ∀ j < k, st'.ficherosTerminados j = 1 → vivo st' j = []
  siguen : ∀ j < k, st'.ficherosTerminados j ≠ 1 → B ≤ (vivo st j).length
  puntero : st'.punterowrite ≤ B
  ultima : (∀ j < k, st'.ficherosTerminados j = 1) → Pendiente B st'
  contador : st'.contador ≤ fin k st'

theorem RondaHecha.enCabeza
    (h : RondaHecha B k fdout vivo st st') (hfin : fin k st' ≠ k) :
    (∃ j < k, st'.ficherosTerminados j ≠ 1) ∧ EnCabeza B k st' := by
  have hne : ∃ j < k, st'.ficherosTerminados j ≠ 1 := by
    by_contra hno
    push Not at hno
    exact hfin ((fin_eq_iff st').2 hno)
  refine ⟨hne, h.puntero, .inl hne, ?_⟩
  -- all inputs finishing in one round would have ended the loop
  intro hk
  have hcount := h.contador
  have hle : fin k st' ≤ k := by
    have := List.countP_le_length (p := fun i => decide (st'.ficherosTerminados i = 1)) (l := List.range k)
    simpa [fin] using this
  omega

theorem RondaHecha.map_vivo
    (h : RondaHecha B k fdout vivo st st') :
    (List.range k).map (vivo st') = ((List.range k).map (vivo st)).map (List.drop B) := by
  rw [List.map_map]
  exact List.map_congr_left fun j hj => h.resto j (List.mem_range.1 hj)

theorem RondaHecha.depth_lt
    (hB : 1 ≤ B) (h : RondaHecha B k fdout vivo st st') (hne : ∃ j < k, st'.ficherosTerminados j ≠ 1) :
    Lib.depth ((List.range k).map (vivo st')) < Lib.depth ((List.range k).map (vivo st)) := by
  obtain ⟨j, hj, hj'⟩ := hne
  have hlong := h.siguen j hj hj'
  have hd := Lib.length_le_depth (List.mem_map.2 ⟨j, List.mem_range.2 hj, rfl⟩ :
    vivo st j ∈ (List.range k).map (vivo st))
  have hle : Lib.depth ((List.range k).map (vivo st')) ≤ Lib.depth ((List.range k).map (vivo st)) - B := by
    rw [h.map_vivo]
    refine Lib.depth_le ?_
    intro x hx
    obtain ⟨y, hy, rfl⟩ := List.mem_map.1 hx
    have := Lib.length_le_depth hy
    simp only [List.length_drop]
    omega
  omega

theorem EnCabeza.enRonda (hlee : Lector B leer vale alcance)
    (hB : 1 ≤ B) {st st1 : Vars (Ficheros ρ)} (h : EnCabeza B k st) (hvale : Valen vale k arrayFD st)
    (hl : Leyendo leer B k arrayFD { st with contador := 0 } k st1) :
    EnRonda B k fdout (trozo leer B arrayFD st) st.ficherosTerminados (flujo fdout st)
      st1.so.entradas 0 0 { st1 with a_Escribir := 0, escritos := 0 } := by
  obtain ⟨hterm, hcont, hbuf, hpun, hsal⟩ := hl.igual
  have htrozo : ∀ j, st.ficherosTerminados j ≠ 1 → trozo leer B arrayFD st j = (leer (entrada arrayFD st j) B).2.1 := by
    intro j hj
    simp [trozo, hj]
  refine ⟨?_, ?_, ?_, ?_, ?_, ?_, ?_, rfl⟩
  · intro j hj
    simp [Acabado, hterm]
  · intro j hj hne
    rw [htrozo j (by simpa [hterm] using hne), Nat.min_eq_right (hlee.cabe _ (hvale j hj))]
    exact hl.porEscribir j hj
  · intro j hj p hp hpB
    have hne : st.ficherosTerminados j ≠ 1 := by
      intro h1
      simp [trozo, h1] at hp
    have hp' : p < (leer (entrada arrayFD st j) B).2.1.length := by simpa [htrozo j hne] using hp
    have hget : (trozo leer B arrayFD st j)[p] = (leer (entrada arrayFD st j) B).2.1[p] := by
      simp [htrozo j hne]
    rw [hget]
    exact hl.buffers j hj p hp'
  · simp [flujo, hsal, hbuf, hpun]
  · simpa [hpun] using h.puntero
  · intro hall
    rcases h.quedan with ⟨j, hj, hne⟩ | hzero
    · exact absurd (by simpa [hterm] using hall j hj) hne
    · simp [Pendiente, hpun, hzero]
      omega
  · simp [fin, hterm, hcont]

theorem getElem?_trozo (hlee : Lector B leer vale alcance)
    (hvale : Valen vale k arrayFD st) {j p : Nat} (hj : j < k) (hp : p < B) :
    (trozo leer B arrayFD st j)[p]? = (alcanza alcance arrayFD st j)[p]? := by
  by_cases h1 : st.ficherosTerminados j = 1
  · simp [trozo, alcanza, h1]
  · rw [trozo, alcanza, if_neg h1, if_neg h1, hlee.alcance _ (hvale j hj)]
    grind

theorem flatMap_column_trozo
    (hlee : Lector B leer vale alcance) (hvale : Valen vale k arrayFD st)
    {v : Nat} (hv : v ≤ B) :
    (List.range v).flatMap (Lib.column ((List.range k).map (trozo leer B arrayFD st))) =
      (List.range v).flatMap (Lib.column ((List.range k).map (alcanza alcance arrayFD st))) := by
  refine List.flatMap_congr fun p hp => ?_
  simp only [Lib.column, List.filterMap_map]
  grind [List.filterMap_congr, getElem?_trozo]

theorem ronda_lector (hlee : Lector B leer vale alcance)
    (fdout : Nat) (hB : 1 ≤ B) (hfd : ∀ i < k, ∀ j < k, arrayFD i = arrayFD j → i = j)
    {fuel : Nat} (hfuel : 2 * k < fuel) (hvale : Valen vale k arrayFD st)
    (h : EnCabeza B k st) :
    ∃ st', ronda (SO.completo leer) fuel B k arrayFD fdout st = .ok st' ∧ Valen vale k arrayFD st' ∧
      RondaHecha B k fdout (alcanza alcance arrayFD) st st' := by
  obtain ⟨f, rfl⟩ := Nat.exists_eq_succ_of_ne_zero (by omega : fuel ≠ 0)
  obtain ⟨st1, hread, hl⟩ := leyendo_run hlee hB hfd f { st with contador := 0 } hvale
  have hstart : EnRonda B k fdout (trozo leer B arrayFD st) st.ficherosTerminados (flujo fdout st)
      st1.so.entradas 0 0 { st1 with a_Escribir := 0, escritos := 0 } := h.enRonda hlee hB hvale hl
  obtain ⟨st', hrows, hend⟩ := hstart.filas leer hB (fun j _ h1 => by simp [trozo, h1]) hfuel
  have hrest : ∀ j < k, entrada arrayFD st' j = (leer (entrada arrayFD st j) B).2.2 := by
    intro j hj
    have := hl.leidos j hj
    simpa [entrada, hend.entradas] using this
  refine ⟨st', ?_, ?_, ?_, ?_, ?_, ?_, hend.puntero, hend.ultima, ?_⟩
  · show ((List.range k).foldlM _ _ >>= _) = _
    rw [hread]
    exact hrows
  · intro j hj
    rw [hrest j hj]
    exact hlee.sigue _ (hvale j hj)
  · intro j hj
    have hcabe := hlee.cabe (entrada arrayFD st j) (hvale j hj)
    have hfin := hend.terminados j hj
    by_cases h0 : st.ficherosTerminados j = 1
    · have h1 := hfin.2 (.inl h0)
      simp [alcanza, h1, h0]
    have htrozo : trozo leer B arrayFD st j = (leer (entrada arrayFD st j) B).2.1 := by simp [trozo, h0]
    rw [alcanza, alcanza, if_neg h0, hlee.alcance (entrada arrayFD st j) (hvale j hj), hrest j hj]
    by_cases hfull : (leer (entrada arrayFD st j) B).2.1.length = B
    · have h1 : st'.ficherosTerminados j ≠ 1 := by
        intro h1
        rcases hfin.1 h1 with h0' | ⟨hlt, -⟩
        · exact h0 h0'
        · rw [htrozo] at hlt
          omega
      rw [if_neg h1, if_pos hfull, List.drop_left' hfull]
    · have h1 : st'.ficherosTerminados j = 1 := by
        refine hfin.2 (.inr ?_)
        rw [htrozo]
        omega
      rw [if_pos h1, if_neg hfull, List.append_nil, List.drop_eq_nil_of_le hcabe]
  · have hflow := hend.flujo
    rw [flatMap_column_trozo hlee hvale (Nat.le_refl B)] at hflow
    simpa using hflow
  · intro j _ h1
    simp [alcanza, h1]
  · intro j hj hne
    have h0 : st.ficherosTerminados j ≠ 1 := fun h0 => hne ((hend.terminados j hj).2 (.inl h0))
    have hlong : B ≤ (trozo leer B arrayFD st j).length := by
      by_contra hlt
      exact hne ((hend.terminados j hj).2 (.inr ⟨by omega, .inl (by omega)⟩))
    rw [alcanza, if_neg h0, hlee.alcance _ (hvale j hj), List.length_append]
    rw [trozo, if_neg h0] at hlong
    omega
  · have := hend.contador
    omega

/-- If every round is done, the main loop returns, and has then written what had left the inputs before
it followed by the interleaving of what could still be taken from them. -/
theorem mezcla_of_ronda {Q : Vars (Ficheros ρ) → Prop}
    (hB : 1 ≤ B) {fuel : Nat} (hfuel : fuel ≠ 0)
    (hronda : ∀ st, Q st → EnCabeza B k st →
      ∃ st', ronda (SO.completo leer) fuel B k arrayFD fdout st = .ok st' ∧ Q st' ∧ RondaHecha B k fdout vivo st st') :
    ∀ (n : Nat) (st : Vars (Ficheros ρ)), Lib.depth ((List.range k).map (vivo st)) < n → Q st → EnCabeza B k st →
      ∃ st', mezcla (SO.completo leer) fuel B k arrayFD fdout n st = .ok st' ∧
        st'.so.salidas fdout = flujo fdout st ++ Lib.interleave ((List.range k).map (vivo st)) := by
  intro n
  induction n with
  | zero =>
    intro st hn
    omega
  | succ n ih =>
    intro st hn hq h
    obtain ⟨st1, hrun, hq1, hr⟩ := hronda st hq h
    rw [mezcla, if_pos h.sigue, hrun]
    show ∃ st', (if fin k st1 = k then _ else _) = Except.ok st' ∧ _
    by_cases hfin : fin k st1 = k
    · -- the last round: the final flush writes exactly what waits in `bufSalida`
      rw [if_pos hfin]
      have hall := (fin_eq_iff st1).1 hfin
      obtain ⟨hp, ha, he⟩ := hr.ultima hall
      have hnone : Lib.interleave ((List.range k).map (vivo st1)) = [] := by grind [Lib.interleave_eq_nil]
      have hout : flujo fdout st1 = flujo fdout st ++ Lib.interleave ((List.range k).map (vivo st)) := by
        rw [hr.flujo, Lib.interleave_eq_append_drop ((List.range k).map (vivo st)) B, ← hr.map_vivo,
          hnone, List.append_nil]
      obtain ⟨f, rfl⟩ := Nat.exists_eq_succ_of_ne_zero hfuel
      rw [ha, he]
      by_cases hzero : st1.punterowrite = 0
      · refine ⟨{ st1 with a_Escribir := 0, escritos := 0 }, ?_, ?_⟩
        · rw [hzero]
          rfl
        · rw [← hout]
          simp [flujo, hzero]
      · have hpos : (0 : Int) < st1.punterowrite := by omega
        rw [bucleEscritura_completo leer fdout st1.bufSalida id f 0 st1.so hpos]
        refine ⟨_, rfl, ?_⟩
        rw [← hout]
        simp [flujo]
    · rw [if_neg hfin]
      obtain ⟨hne, hcab⟩ := hr.enCabeza hfin
      have hdepth := hr.depth_lt hB hne
      obtain ⟨st', hrun', hout⟩ := ih st1 (by omega) hq1 hcab
      refine ⟨st', hrun', ?_⟩
      rw [hout, hr.flujo, hr.map_vivo, List.append_assoc, ← Lib.interleave_eq_append_drop]

theorem main_lector (hlee : Lector B leer vale alcance)
    (fdout : Nat) (hB : 1 ≤ B) (hk : 1 ≤ k)
    (hfd : ∀ i < k, ∀ j < k, arrayFD i = arrayFD j → i = j) (basura : Vars (Ficheros ρ))
    (hvale : Valen vale k arrayFD basura) :
    ∃ N, ∀ fuel, N ≤ fuel →
      ∃ st', main (SO.completo leer) fuel B k arrayFD fdout basura = .ok st' ∧
        st'.so.salidas fdout = basura.so.salidas fdout ++
          Lib.interleave ((List.range k).map (alcanza alcance arrayFD basura)) := by
  refine ⟨max (2 * k + 1) (Lib.depth ((List.range k).map (alcanza alcance arrayFD basura)) + 1), ?_⟩
  intro fuel hfuel
  have hcab : EnCabeza B k { basura with contador := 0, punterowrite := 0 } :=
    ⟨Nat.zero_le B, .inr rfl, by show (0 : Int) ≠ k; omega⟩
  obtain ⟨st', hrun, hout⟩ := mezcla_of_ronda hB (by omega : fuel ≠ 0)
    (fun st hst h => ronda_lector hlee fdout hB hfd (by omega : 2 * k < fuel) hst h)
    fuel { basura with contador := 0, punterowrite := 0 }
    (show Lib.depth ((List.range k).map (alcanza alcance arrayFD basura)) < fuel by omega) hvale hcab
  refine ⟨st', hrun, ?_⟩
  rw [hout]
  show _ ++ Lib.interleave ((List.range k).map (alcanza alcance arrayFD basura)) = _
  simp [flujo]

end Rounds

/-! ## Regular files -/

section Loop

variable {B k fdout : Nat} {arrayFD : Nat → Nat}

/-- What is left of input `j`. -/
def resto (arrayFD : Nat → Nat) (st : Vars (Ficheros (List UInt8))) (j : Nat) : List UInt8 :=
  st.so.entradas (arrayFD j)

/-- What the merge can still take from input `j`: nothing once its flag is set. -/
def vivo (arrayFD : Nat → Nat) (st : Vars (Ficheros (List UInt8))) (j : Nat) : List UInt8 :=
  if st.ficherosTerminados j = 1 then [] else resto arrayFD st j

def vivos (k : Nat) (arrayFD : Nat → Nat) (st : Vars (Ficheros (List UInt8))) : List (List UInt8) :=
  (List.range k).map (vivo arrayFD st)

theorem lector_regular (B : Nat) : Lector B leerRegular (fun _ => True) id where
  cuenta r _ := rfl
  cabe r _ := by
    simp only [leerRegular, Int.toNat_natCast, List.length_take]
    omega
  alcance r _ := by
    grind [leerRegular, Int.toNat_natCast, List.length_take, List.take_append_drop, List.take_of_length_le]
  sigue _ _ := trivial

/-- Over regular files and with complete writes `merge_files` returns, whatever the uninitialised
variables hold, and has written the interleaving of the inputs whose flag was not `1`. -/
theorem main_regular (fdout : Nat) (hB : 1 ≤ B) (hk : 1 ≤ k) (hfd : ∀ i < k, ∀ j < k, arrayFD i = arrayFD j → i = j)
    (basura : Vars (Ficheros (List UInt8))) :
    ∃ N, ∀ fuel, N ≤ fuel →
      ∃ st', main (SO.completo leerRegular) fuel B k arrayFD fdout basura = .ok st' ∧
        st'.so.salidas fdout = basura.so.salidas fdout ++ Lib.interleave (vivos k arrayFD basura) := by
  exact main_lector (lector_regular B) fdout hB hk hfd basura fun _ _ => trivial

/-- Over regular files, with complete writes and clear flags, `merge_files` returns for every buffer
size, and the bytes it has written are the inputs read column by column: for `p = 0, 1, …` and, inside
each `p`, for each input in operand order, byte `p` of that input when it has one. -/
theorem merge_files_output (hB : 1 ≤ B) (hk : 1 ≤ k)
    (hfd : ∀ i < k, ∀ j < k, arrayFD i = arrayFD j → i = j)
    (basura : Vars (Ficheros (List UInt8))) (hclear : ∀ i < k, basura.ficherosTerminados i = 0) :
    ∃ N, ∀ fuel, N ≤ fuel →
      ∃ st', main (SO.completo leerRegular) fuel B k arrayFD fdout basura = .ok st' ∧
        st'.so.salidas fdout = basura.so.salidas fdout ++
          (List.range (Lib.depth ((List.range k).map (resto arrayFD basura)))).flatMap (fun p =>
            (List.range k).filterMap fun i => (resto arrayFD basura i)[p]?) := by
  obtain ⟨N, hN⟩ := main_regular fdout hB hk hfd basura
  have hvivos : vivos k arrayFD basura = (List.range k).map (resto arrayFD basura) := by
    refine List.map_congr_left ?_
    intro j hj
    simp [vivo, hclear j (List.mem_range.1 hj)]
  have hcols : Lib.interleave (vivos k arrayFD basura) =
      (List.range (Lib.depth ((List.range k).map (resto arrayFD basura)))).flatMap (fun p =>
        (List.range k).filterMap fun i => (resto arrayFD basura i)[p]?) := by
    rw [hvivos]
    refine List.flatMap_congr ?_
    intro p _
    simp only [Lib.column, List.filterMap_map]
    rfl
  refine ⟨N, ?_⟩
  intro fuel hfuel
  obtain ⟨st', hrun, hout⟩ := hN fuel hfuel
  exact ⟨st', hrun, by rw [hout, hcols]⟩

/-- Uninitialised variables, and two files of three and one bytes behind the descriptors 3 and 4. -/
def basuraDos : Vars (Ficheros (List UInt8)) where
  contador := 7
  porEscribir := fun _ => 9
  ficherosTerminados := fun _ => 0
  cjtoBuffer := fun _ _ => 170
  bufSalida := fun _ => 170
  punterowrite := 5
  a_Escribir := 5
  escritos := 5
  num_read := 5
  so := { entradas := fun fd => if fd = 3 then [1, 2, 3] else [4], salidas := fun _ => [] }

theorem merge_files_output_dos :
    ∃ N, ∀ fuel, N ≤ fuel →
      ∃ st', main (SO.completo leerRegular) fuel 2 2 (· + 3) 1 basuraDos = .ok st' ∧
        st'.so.salidas 1 = [1, 4, 2, 3] :=
  merge_files_output (by decide) (by decide) (fun i _ j _ h => Nat.add_right_cancel h) basuraDos
    (fun _ _ => rfl)

end Loop

end AsoPracticas.Tarea4.MergeFiles
