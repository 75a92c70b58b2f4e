import AsoPracticas.Lib.Interleave
import AsoPracticas.Lib.Loop
import AsoPracticas.Tarea4.Sistema

/-!
# SplitFiles — the split loop of `split_files.c`

`split_files` deals the bytes of the standard input to its output files in turn.  Every output file
has a buffer of its own with a fill count; a full buffer is written just before the next store into
it, and what is left in the buffers is written when the input ends.  The file whose turn it is
(`punteroFicheroReferenciado`) and the fill counts persist from one read to the next.

* the model follows the source statement by statement, over any operating system `SO`.
-/

namespace AsoPracticas.Tarea4.SplitFiles

variable {σ : Type}

/-- The variables of `main` that live across the split loop. -/
structure Vars (σ : Type) where
  a_Leer : Int
  leidos : Int
  num_read : Int
  a_Escribir : Int
  escritos : Int
  punteroFicheroReferenciado : Nat
  llenadoFicheros : Nat → Nat
  bufLectura : Memoria
  cjtoBuffer : Nat → Memoria
  so : σ

/-- `STDIN_FILENO` -/
def fdin : Nat := 0

/-! ## The program -/

/-- `if (punteroFicheroReferenciado == numFicheros) punteroFicheroReferenciado = 0;` -/
def reinicia (numFicheros : Nat) (st : Vars σ) : Vars σ :=
  if st.punteroFicheroReferenciado = numFicheros then
    { st with punteroFicheroReferenciado := 0 }
  else st

/-- The flush of a full buffer before the next store into it. -/
def vacia (so : SO σ) (fuel buf_size : Nat) (arrayFD : Nat → Nat) (st : Vars σ) : Except Fallo (Vars σ) :=
  let p := st.punteroFicheroReferenciado
  if st.llenadoFicheros p = buf_size then do
    let (a_Escribir, escritos, s') ←
      bucleEscritura so (arrayFD p) (st.cjtoBuffer p) id fuel st.a_Escribir st.escritos st.so
    return { st with
      a_Escribir := a_Escribir
      escritos := escritos
      so := s'
      llenadoFicheros := Function.update st.llenadoFicheros p 0 }
  else
    return st

/-- The store of `bufLectura[i]` and the two increments after it. -/
def guarda (i : Nat) (st : Vars σ) : Vars σ :=
  let p := st.punteroFicheroReferenciado
  { st with
    cjtoBuffer := Function.update st.cjtoBuffer p ((st.cjtoBuffer p).pon (st.llenadoFicheros p) (st.bufLectura i))
    llenadoFicheros := Function.update st.llenadoFicheros p (st.llenadoFicheros p + 1)
    punteroFicheroReferenciado := p + 1 }

/-- The body of `for (int i = 0; i < num_read; i++)`. -/
def reparte (so : SO σ) (fuel buf_size numFicheros : Nat) (arrayFD : Nat → Nat) (st : Vars σ)
    (i : Nat) : Except Fallo (Vars σ) := do
  let st ← vacia so fuel buf_size arrayFD (reinicia numFicheros st)
  return guarda i st

/-- One output file at the end of the input: write what its buffer holds. -/
def remata (so : SO σ) (fuel : Nat) (arrayFD : Nat → Nat) (st : Vars σ) (i : Nat) : Except Fallo (Vars σ) :=
  if st.llenadoFicheros i ≠ 0 then do
    let (a_Escribir, escritos, s') ←
      bucleEscritura so (arrayFD i) (st.cjtoBuffer i) (fun _ => st.llenadoFicheros i) fuel
        st.a_Escribir st.escritos st.so
    return { st with a_Escribir := a_Escribir, escritos := escritos, so := s' }
  else
    return st

/-- The read loop, on the variables of `main`. -/
def lee (so : SO σ) (fuel : Nat) (st : Vars σ) : Except Fallo (Vars σ) := do
  let l ← bucleLectura so fdin fuel
    { a_Leer := st.a_Leer
      leidos := st.leidos
      num_read := st.num_read
      buf := st.bufLectura
      so := st.so }
  return { st with
    a_Leer := l.a_Leer
    leidos := l.leidos
    num_read := l.num_read
    bufLectura := l.buf
    so := l.so }

/-- `while (finEntrada != 1)` -/
def divide (so : SO σ) (fuel buf_size numFicheros : Nat) (arrayFD : Nat → Nat) : Nat → Vars σ → Except Fallo (Vars σ)
  | 0, _ => .error .combustible
  | n + 1, st => do
      let st ← lee so fuel st
      let st ← (List.range st.num_read.toNat).foldlM (reparte so fuel buf_size numFicheros arrayFD) st
      if st.num_read = 0 then
        (List.range numFicheros).foldlM (remata so fuel arrayFD) st
      else
        divide so fuel buf_size numFicheros arrayFD n st

/-- The split loop as `main` enters it: `basura` holds what the `malloc`ed buffers contain. -/
def main (so : SO σ) (fuel buf_size numFicheros : Nat) (arrayFD : Nat → Nat) (basura : Vars σ) :
    Except Fallo (Vars σ) :=
  divide so fuel buf_size numFicheros arrayFD fuel { basura with
    a_Leer := buf_size
    leidos := 0
    num_read := 0
    a_Escribir := buf_size
    escritos := 0
    punteroFicheroReferenciado := 0
    llenadoFicheros := fun _ => 0 }

/-! ## Dealing one byte -/

section Deal

variable {B k : Nat} {arrayFD : Nat → Nat}

/-- What output file `i` has received: the bytes written and those waiting in its buffer. -/
def flujo {ρ : Type} (arrayFD : Nat → Nat) (st : Vars (Ficheros ρ)) (i : Nat) : List UInt8 :=
  st.so.salidas (arrayFD i) ++ (st.cjtoBuffer i).rango 0 (st.llenadoFicheros i)

/-- The invariant once the bytes `s` have been dealt; `S` is what the files held before. -/
@[grind cases eager]
structure Repartido {ρ : Type} (B k : Nat) (arrayFD : Nat → Nat) (S : Nat → List UInt8)
    (s : List UInt8) (st : Vars (Ficheros ρ)) : Prop where
  flujo : ∀ i < k, flujo arrayFD st i = S i ++ Lib.stride k i s
  llenado : ∀ i < k, st.llenadoFicheros i ≤ B
  turno : st.punteroFicheroReferenciado ≤ k ∧ st.punteroFicheroReferenciado % k = s.length % k
  contadores : st.a_Escribir = B ∧ st.escritos = 0 ∧ st.a_Leer = B ∧ st.leidos = 0

variable {ρ : Type} (leer : ρ → Int → Int × List UInt8 × ρ) {S : Nat → List UInt8}
  {s : List UInt8} {st : Vars (Ficheros ρ)}

/-- The state after the flush before a store, when writes complete. -/
def vaciado (B : Nat) (arrayFD : Nat → Nat) (st : Vars (Ficheros ρ)) : Vars (Ficheros ρ) :=
  let p := st.punteroFicheroReferenciado
  if st.llenadoFicheros p = B then
    { st with
      so := st.so.escribe (arrayFD p) ((st.cjtoBuffer p).rango st.escritos st.a_Escribir)
      llenadoFicheros := Function.update st.llenadoFicheros p 0 }
  else st

theorem vacia_completo (fuel : Nat) (ha : 0 < st.a_Escribir) :
    vacia (SO.completo leer) (fuel + 1) B arrayFD st = .ok (vaciado B arrayFD st) := by
  by_cases h : st.llenadoFicheros st.punteroFicheroReferenciado = B
  · simp only [vacia, vaciado, h, if_true, bucleEscritura_completo leer _ _ id fuel _ _ ha, bind,
      Except.bind, pure, Except.pure, id]
  · simp only [vacia, vaciado, h, if_false, pure, Except.pure]

/-- The flush keeps what every file has received, and makes room in the file whose turn it is. -/
theorem Repartido.vaciado (hB : 1 ≤ B) (hfd : ∀ i < k, ∀ j < k, arrayFD i = arrayFD j → i = j)
    (h : Repartido B k arrayFD S s st) (hp : st.punteroFicheroReferenciado < k) :
    Repartido B k arrayFD S s (vaciado B arrayFD st) ∧
      (vaciado B arrayFD st).llenadoFicheros st.punteroFicheroReferenciado < B ∧
      (vaciado B arrayFD st).punteroFicheroReferenciado = st.punteroFicheroReferenciado ∧
      (vaciado B arrayFD st).bufLectura = st.bufLectura ∧
      (vaciado B arrayFD st).num_read = st.num_read ∧
      (vaciado B arrayFD st).so.entradas = st.so.entradas := by
  by_cases hfull : st.llenadoFicheros st.punteroFicheroReferenciado = B
  · have hst : SplitFiles.vaciado B arrayFD st = { st with
        so := st.so.escribe (arrayFD st.punteroFicheroReferenciado)
          ((st.cjtoBuffer st.punteroFicheroReferenciado).rango 0 B)
        llenadoFicheros :=
          Function.update st.llenadoFicheros st.punteroFicheroReferenciado 0 } := by
      simp [SplitFiles.vaciado, hfull, h.contadores.1, h.contadores.2.1]
    rw [hst]
    refine ⟨⟨?_, ?_, h.turno, h.contadores⟩, by simp; omega, rfl, rfl, rfl, rfl⟩
    · intro i hi
      rw [← h.flujo i hi]
      by_cases hip : i = st.punteroFicheroReferenciado
      · subst hip
        simp [SplitFiles.flujo, hfull]
      grind [SplitFiles.flujo, Ficheros.escribe_salidas_ne]
    grind
  grind [SplitFiles.vaciado]

theorem Repartido.guarda (h : Repartido B k arrayFD S s st) (hp : st.punteroFicheroReferenciado < k)
    (hroom : st.llenadoFicheros st.punteroFicheroReferenciado < B) (i : Nat) :
    Repartido B k arrayFD S (s ++ [st.bufLectura i]) (guarda i st) := by
  obtain ⟨hle, hmod⟩ := h.turno
  have hturn : s.length % k = st.punteroFicheroReferenciado := by rw [← hmod, Nat.mod_eq_of_lt hp]
  refine ⟨?_, ?_, ?_, h.contadores⟩
  · intro j hj
    rw [Lib.stride_concat, hturn, ← List.append_assoc, ← h.flujo j hj]
    by_cases hjp : j = st.punteroFicheroReferenciado
    · subst hjp
      have := Memoria.rango_pon_succ (st.cjtoBuffer st.punteroFicheroReferenciado)
        (st.llenadoFicheros st.punteroFicheroReferenciado) (st.bufLectura i)
      simp only [SplitFiles.flujo, SplitFiles.guarda, Function.update_self, if_true]
      rw [this, List.append_assoc]
    · have hpj : ¬ st.punteroFicheroReferenciado = j := fun hEq => hjp hEq.symm
      simp [SplitFiles.flujo, SplitFiles.guarda, Function.update_of_ne hjp, hpj]
  · intro j hj
    by_cases hjp : j = st.punteroFicheroReferenciado
    · subst hjp
      simpa [SplitFiles.guarda] using hroom
    · simpa [SplitFiles.guarda, Function.update_of_ne hjp] using h.llenado j hj
  grind [SplitFiles.guarda, Nat.add_mod]

theorem Repartido.reinicia (h : Repartido B k arrayFD S s st) (hk : 1 ≤ k) :
    Repartido B k arrayFD S s (reinicia k st) ∧ (reinicia k st).punteroFicheroReferenciado < k ∧
      (reinicia k st).bufLectura = st.bufLectura ∧
      (reinicia k st).num_read = st.num_read ∧
      (reinicia k st).so.entradas = st.so.entradas := by
  obtain ⟨hle, hmod⟩ := h.turno
  by_cases hEq : st.punteroFicheroReferenciado = k
  · have hst : SplitFiles.reinicia k st = { st with punteroFicheroReferenciado := 0 } := by
      simp [SplitFiles.reinicia, hEq]
    rw [hst]
    refine ⟨⟨h.flujo, h.llenado, ⟨Nat.zero_le k, ?_⟩, h.contadores⟩, hk, rfl, rfl, rfl⟩
    rw [← hmod, hEq]
    simp
  grind [SplitFiles.reinicia]

theorem Repartido.reparte (hB : 1 ≤ B) (hk : 1 ≤ k) (hfd : ∀ i < k, ∀ j < k, arrayFD i = arrayFD j → i = j)
    (h : Repartido B k arrayFD S s st) (fuel i : Nat) :
    ∃ st', reparte (SO.completo leer) (fuel + 1) B k arrayFD st i = .ok st' ∧
      Repartido B k arrayFD S (s ++ [st.bufLectura i]) st' ∧
      st'.bufLectura = st.bufLectura ∧ st'.num_read = st.num_read ∧
      st'.so.entradas = st.so.entradas := by
  obtain ⟨h1, hp, hbuf1, hnum1, hent1⟩ := h.reinicia hk
  obtain ⟨h2, hroom, hptr, hbuf2, hnum2, hent2⟩ := h1.vaciado hB hfd hp
  have ha : 0 < (SplitFiles.reinicia k st).a_Escribir := by
    rw [h1.contadores.1]
    omega
  refine ⟨SplitFiles.guarda i (SplitFiles.vaciado B arrayFD (SplitFiles.reinicia k st)), ?_, ?_, ?_, ?_, ?_⟩
  · rw [SplitFiles.reparte, vacia_completo leer fuel ha]
    rfl
  · have := h2.guarda (by rw [hptr]; exact hp) (by rw [hptr]; exact hroom) i
    rwa [hbuf2, hbuf1] at this
  · exact hbuf2.trans hbuf1
  · exact hnum2.trans hnum1
  · exact hent2.trans hent1

end Deal

/-! ## Whole reads and the end of the input -/

section Stream

variable {B k : Nat} {arrayFD : Nat → Nat} {S : Nat → List UInt8} {s : List UInt8}
  {st : Vars (Ficheros (List (List UInt8)))}

theorem Repartido.trozo (hB : 1 ≤ B) (hk : 1 ≤ k) (hfd : ∀ i < k, ∀ j < k, arrayFD i = arrayFD j → i = j)
    (h : Repartido B k arrayFD S s st) (t : List UInt8) (fuel : Nat)
    (hbuf : ∀ i (hi : i < t.length), st.bufLectura i = t[i]) :
    ∃ st', (List.range t.length).foldlM
        (SplitFiles.reparte (SO.completo leerTrozos) (fuel + 1) B k arrayFD) st = .ok st' ∧
      Repartido B k arrayFD S (s ++ t) st' ∧ st'.num_read = st.num_read ∧
      st'.so.entradas = st.so.entradas := by
  obtain ⟨st', hrun, hI, -, hnum, hent⟩ := Lib.foldlM_range_ok
    (fun i st' => Repartido B k arrayFD S (s ++ t.take i) st' ∧ st'.bufLectura = st.bufLectura ∧
      st'.num_read = st.num_read ∧ st'.so.entradas = st.so.entradas)
    (f := SplitFiles.reparte (SO.completo leerTrozos) (fuel + 1) B k arrayFD) (n := t.length)
    (by
      rintro i st1 hi ⟨hrep, hb, hn, he⟩
      obtain ⟨st2, hrun, hrep', hb', hn', he'⟩ := hrep.reparte leerTrozos hB hk hfd fuel i
      refine ⟨st2, hrun, ?_, hb'.trans hb, hn'.trans hn, he'.trans he⟩
      rw [hb, hbuf i hi, List.append_assoc] at hrep'
      rwa [List.take_add_one, List.getElem?_eq_getElem hi, Option.toList_some])
    (s := st) ⟨by simpa using h, rfl, rfl, rfl⟩
  exact ⟨st', hrun, by simpa using hI, hnum, hent⟩

theorem Repartido.remata (hB : 1 ≤ B) (hfd : ∀ i < k, ∀ j < k, arrayFD i = arrayFD j → i = j)
    (h : Repartido B k arrayFD S s st) (fuel : Nat) :
    ∃ st', (List.range k).foldlM (remata (SO.completo leerTrozos) (fuel + 1) arrayFD) st =
        .ok st' ∧ ∀ i < k, st'.so.salidas (arrayFD i) = S i ++ Lib.stride k i s := by
  obtain ⟨st', hrun, hdone, -⟩ := Lib.foldlM_range_ok
    (fun i st' =>
      (∀ j < i, st'.so.salidas (arrayFD j) = S j ++ Lib.stride k j s) ∧
      (∀ j < k, i ≤ j → SplitFiles.flujo arrayFD st' j = S j ++ Lib.stride k j s) ∧
      st'.a_Escribir = B ∧ st'.escritos = 0)
    (f := SplitFiles.remata (SO.completo leerTrozos) (fuel + 1) arrayFD) (n := k)
    (by
      rintro i st1 hi ⟨hdone, htodo, ha, he⟩
      have hflow := htodo i hi (Nat.le_refl i)
      by_cases hz : st1.llenadoFicheros i = 0
      · refine ⟨st1, by simp [SplitFiles.remata, hz, pure, Except.pure], ?_, ?_, ha, he⟩
        · intro j hj
          rcases Nat.lt_succ_iff_lt_or_eq.1 hj with hlt | rfl
          · exact hdone j hlt
          · simpa [SplitFiles.flujo, hz] using hflow
        · intro j hj hij
          exact htodo j hj (by omega)
      · have hpos : 0 < st1.a_Escribir := by omega
        refine ⟨{ st1 with
            so := st1.so.escribe (arrayFD i) ((st1.cjtoBuffer i).rango 0 (st1.llenadoFicheros i)) },
          ?_, ?_, ?_, ha, he⟩
        · simp only [SplitFiles.remata, ne_eq, hz, not_false_eq_true, if_true,
            bucleEscritura_completo leerTrozos _ _ _ fuel _ _ hpos, he, bind, Except.bind, pure,
            Except.pure]
        · intro j hj
          rcases Nat.lt_succ_iff_lt_or_eq.1 hj with hlt | rfl
          · grind [Ficheros.escribe_salidas_ne]
          · simpa [SplitFiles.flujo] using hflow
        · intro j hj hij
          have hne : arrayFD j ≠ arrayFD i := fun hEq => by
            have := hfd j hj i hi hEq
            omega
          simpa [SplitFiles.flujo, Ficheros.escribe_salidas_ne _ hne] using htodo j hj (by omega))
    (s := st) ⟨by omega, fun j hj _ => h.flujo j hj, h.contadores.1, h.contadores.2.1⟩
  exact ⟨st', hrun, hdone⟩

theorem divide_trozos (hB : 1 ≤ B) (hk : 1 ≤ k) (hfd : ∀ i < k, ∀ j < k, arrayFD i = arrayFD j → i = j) (fuel : Nat) :
    ∀ (trozos : List (List UInt8)) (n : Nat) (s : List UInt8) (st : Vars (Ficheros (List (List UInt8)))),
      trozos.length < n → (∀ t ∈ trozos, 1 ≤ t.length) → st.so.entradas fdin = trozos →
      Repartido B k arrayFD S s st →
      ∃ st', divide (SO.completo leerTrozos) (fuel + 1) B k arrayFD n st = .ok st' ∧
        ∀ i < k, st'.so.salidas (arrayFD i) = S i ++ Lib.stride k i (s ++ trozos.flatten) := by
  intro trozos
  induction trozos with
  | nil =>
    intro n s st hn _ hent h
    obtain ⟨n, rfl⟩ := Nat.exists_eq_succ_of_ne_zero (by omega : n ≠ 0)
    have ha : 0 < st.a_Leer := by
      rw [h.contadores.2.2.1]
      omega
    have h1 : Repartido B k arrayFD S s { st with
        num_read := 0
        bufLectura := st.bufLectura.vuelca st.leidos []
        so := { st.so with entradas := Function.update st.so.entradas fdin [] } } :=
      ⟨h.flujo, h.llenado, h.turno, h.contadores⟩
    obtain ⟨st', hrun, hout⟩ := h1.remata hB hfd fuel
    refine ⟨st', ?_, by simpa using hout⟩
    rw [divide, lee, bucleLectura_trozos fdin fuel (by exact ha), hent]
    exact hrun
  | cons t ts ih =>
    intro n s st hn hne hent h
    obtain ⟨n, rfl⟩ := Nat.exists_eq_succ_of_ne_zero (by omega : n ≠ 0)
    have ha : 0 < st.a_Leer := by
      rw [h.contadores.2.2.1]
      omega
    have h1 : Repartido B k arrayFD S s { st with
        num_read := t.length
        bufLectura := st.bufLectura.vuelca st.leidos t
        so := { st.so with entradas := Function.update st.so.entradas fdin ts } } :=
      ⟨h.flujo, h.llenado, h.turno, h.contadores⟩
    obtain ⟨st2, hdeal, h2, hnum, hent2⟩ := h1.trozo hB hk hfd t fuel (by
      intro i hi
      rw [h.contadores.2.2.2]
      exact Memoria.vuelca_zero_apply _ _ hi)
    have hnum' : ¬ st2.num_read = 0 := by grind
    obtain ⟨st', hrun, hout⟩ := ih n (s ++ t) st2 (by simpa using hn)
      (fun t' ht' => hne t' (by simp [ht'])) (by rw [hent2]; simp) h2
    refine ⟨st', ?_, by simpa using hout⟩
    rw [divide, lee, bucleLectura_trozos fdin fuel (by exact ha), hent]
    simp only [bind, Except.bind, pure, Except.pure, List.headD_cons, List.tail_cons, Int.toNat_natCast] at hdeal ⊢
    rw [hdeal]
    simp only [hnum', if_false]
    exact hrun

/-- With complete writes `split_files` returns however the input is cut into reads, and file `i` has
then received the bytes at the positions congruent to `i` modulo the number of files. -/
theorem main_trozos (hB : 1 ≤ B) (hk : 1 ≤ k) (hfd : ∀ i < k, ∀ j < k, arrayFD i = arrayFD j → i = j)
    (basura : Vars (Ficheros (List (List UInt8))))
    (hne : ∀ t ∈ basura.so.entradas fdin, 1 ≤ t.length) :
    ∃ N, ∀ fuel, N ≤ fuel →
      ∃ st', main (SO.completo leerTrozos) fuel B k arrayFD basura = .ok st' ∧
        ∀ i < k, st'.so.salidas (arrayFD i) = basura.so.salidas (arrayFD i) ++
          Lib.stride k i (basura.so.entradas fdin).flatten := by
  refine ⟨(basura.so.entradas fdin).length + 1, ?_⟩
  intro fuel hfuel
  obtain ⟨f, rfl⟩ := Nat.exists_eq_succ_of_ne_zero (by omega : fuel ≠ 0)
  refine divide_trozos hB hk hfd f (basura.so.entradas fdin) (f + 1) [] _ (by omega) hne rfl ?_
  exact ⟨fun i _ => by simp [flujo], fun _ _ => Nat.zero_le B, ⟨Nat.zero_le k, rfl⟩, rfl, rfl, rfl, rfl⟩

/-- However the input is cut into reads of at most `B` bytes, with complete writes `split_files` returns
and output file `i` has received the bytes at the positions congruent to `i`, in order: its byte `p` is
byte `p * k + i` of the input. -/
theorem split_files_output (hB : 1 ≤ B) (hk : 1 ≤ k)
    (hfd : ∀ i < k, ∀ j < k, arrayFD i = arrayFD j → i = j)
    (basura : Vars (Ficheros (List (List UInt8))))
    (hlegal : TrozosLegales B (basura.so.entradas fdin)) :
    ∃ N, ∀ fuel, N ≤ fuel →
      ∃ st', main (SO.completo leerTrozos) fuel B k arrayFD basura = .ok st' ∧
        ∀ i < k, ∃ recibido, st'.so.salidas (arrayFD i) = basura.so.salidas (arrayFD i) ++ recibido ∧
          ∀ p, recibido[p]? = (basura.so.entradas fdin).flatten[p * k + i]? := by
  obtain ⟨N, hN⟩ := main_trozos hB hk hfd basura fun t ht => (hlegal t ht).1
  refine ⟨N, fun fuel hfuel => ?_⟩
  obtain ⟨st', hrun, hout⟩ := hN fuel hfuel
  refine ⟨st', hrun, fun i hi => ⟨_, hout i hi, ?_⟩⟩
  exact Lib.getElem?_stride hi (basura.so.entradas fdin).flatten

def basuraCinco : Vars (Ficheros (List (List UInt8))) where
  a_Leer := 9
  leidos := 9
  num_read := 9
  a_Escribir := 9
  escritos := 9
  punteroFicheroReferenciado := 9
  llenadoFicheros := fun _ => 9
  bufLectura := fun _ => 170
  cjtoBuffer := fun _ _ => 170
  so := { entradas := fun _ => [[1, 2], [3], [4, 5]], salidas := fun _ => [] }

theorem split_files_output_cinco :
    ∃ N, ∀ fuel, N ≤ fuel →
      ∃ st', main (SO.completo leerTrozos) fuel 2 2 (· + 3) basuraCinco = .ok st' ∧
        ∀ i < 2, ∃ recibido, st'.so.salidas (i + 3) = [] ++ recibido ∧
          ∀ p, recibido[p]? = [1, 2, 3, 4, 5][p * 2 + i]? :=
  split_files_output (by decide) (by decide) (fun i _ j _ h => Nat.add_right_cancel h) basuraCinco
    (by decide)

end Stream

end AsoPracticas.Tarea4.SplitFiles
