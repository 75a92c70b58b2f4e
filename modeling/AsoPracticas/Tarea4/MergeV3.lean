import AsoPracticas.Tarea4.MergeFiles

/-!
# MergeV3 — the earlier version of the merge loop

`merge_files_v3.c`, of the week before, has the same merge loop as `merge_files.c` but for the write of
what is left at the end.  There `a_Escribir` and `escritos` are variables of one inner iteration, and the
end is a single `write(fdout, bufSalida, punterowrite)`.  The later version takes the two variables out
of the loop and ends with the write loop, on the values that they have kept from the last inner iteration.

`merge_v3_same` says that the two versions write the same bytes.  The flush at the head of an iteration
changes `punterowrite` but not `a_Escribir`, so the argument is about the iteration that marks the last
input: it goes on with `i--`, hence another iteration follows it, which finds `bufSalida` not full.
-/

namespace AsoPracticas.Tarea4.MergeV3

open MergeFiles (Vars lee baraja fin)

variable {σ : Type}

/-! ## The program -/

/-- The flush at the head of an inner iteration; `a_Escribir` and `escritos` are local. -/
def vacia (so : SO σ) (fuel buf_size fdout : Nat) (st : Vars σ) : Except Fallo (Vars σ) := do
  let a_Escribir := st.punterowrite
  let escritos := 0
  if st.punterowrite = buf_size then
    let (_, _, s') ← bucleEscritura so fdout st.bufSalida id fuel a_Escribir escritos st.so
    return { st with so := s', punterowrite := 0 }
  else
    return st

/-- The inner `for (int i = 0; i < numFicheros; i++)`, from input `i` on. -/
def fila (so : SO σ) (fuel buf_size numFicheros fdout v : Nat) : Nat → Nat → Vars σ → Except Fallo (Vars σ)
  | 0, _, _ => .error .combustible
  | n + 1, i, st =>
    if i < numFicheros then do
      let st ← vacia so fuel buf_size fdout st
      let (repite, st) := baraja buf_size v i st
      fila so fuel buf_size numFicheros fdout v n (if repite then i else i + 1) st
    else
      .ok st

def ronda (so : SO σ) (fuel buf_size numFicheros : Nat) (arrayFD : Nat → Nat) (fdout : Nat)
    (st : Vars σ) : Except Fallo (Vars σ) := do
  let st ← (List.range numFicheros).foldlM (lee so fuel buf_size arrayFD) { st with contador := 0 }
  (List.range buf_size).foldlM (fun st v => fila so fuel buf_size numFicheros fdout v fuel 0 st) st

/-- `while (contador != numFicheros)`; the result of the last `write` is not looked at. -/
def mezcla (so : SO σ) (fuel buf_size numFicheros : Nat) (arrayFD : Nat → Nat) (fdout : Nat) :
    Nat → Vars σ → Except Fallo (Vars σ)
  | 0, _ => .error .combustible
  | n + 1, st =>
    if st.contador ≠ numFicheros then do
      let st ← ronda so fuel buf_size numFicheros arrayFD fdout st
      if fin numFicheros st = numFicheros then
        let (_, s') := so.write st.so fdout (st.bufSalida.rango 0 st.punterowrite)
        return { st with so := s' }
      else
        mezcla so fuel buf_size numFicheros arrayFD fdout n st
    else
      .ok st

/-- The merge loop as `main` enters it: `basura` holds what the uninitialised variables contain. -/
def main (so : SO σ) (fuel buf_size numFicheros : Nat) (arrayFD : Nat → Nat) (fdout : Nat)
    (basura : Vars σ) : Except Fallo (Vars σ) :=
  -- this version has no such `a_Escribir` and `escritos`: the fields are not looked at
  mezcla so fuel buf_size numFicheros arrayFD fdout fuel
    { basura with contador := 0, punterowrite := 0, a_Escribir := 0, escritos := 0 }

/-! ## Round by round the two versions agree -/

section Rounds

/-- Without what the later version keeps from iteration to iteration. -/
def olvida (st : Vars σ) : Vars σ := { st with a_Escribir := 0, escritos := 0 }

variable (so : SO σ) {fuel B k fdout : Nat} {arrayFD : Nat → Nat}

theorem leeEntrada_olvida (fd i n : Nat) (a_Leer leidos : Int) (st : Vars σ) :
    MergeFiles.leeEntrada so fd i n a_Leer leidos (olvida st) =
      (MergeFiles.leeEntrada so fd i n a_Leer leidos st).map olvida := by
  induction n generalizing a_Leer leidos st with
  | zero => rfl
  | succ n ih =>
    unfold MergeFiles.leeEntrada
    split
    · dsimp only
      rw [show (olvida st).so = st.so from rfl]
      split
      · rename_i hfail
        rw [if_neg (by rw [hfail]; decide), if_neg (by rw [hfail]; decide)]
        exact ih _ _ { st with
          cjtoBuffer := Function.update st.cjtoBuffer i ((st.cjtoBuffer i).vuelca leidos (so.read st.so fd a_Leer).2.1)
          num_read := (so.read st.so fd a_Leer).1
          so := (so.read st.so fd a_Leer).2.2 }
      · rfl
    · rfl

theorem lee_olvida (st : Vars σ) (i : Nat) :
    lee so fuel B arrayFD (olvida st) i = (lee so fuel B arrayFD st i).map olvida := by
  unfold lee
  rw [leeEntrada_olvida]
  cases MergeFiles.leeEntrada so (arrayFD i) i fuel B 0 st with
  | error e => rfl
  | ok st1 => rfl

theorem vacia_olvida (st : Vars σ) :
    vacia so fuel B fdout (olvida st) = (MergeFiles.vacia so fuel B fdout st).map olvida := by
  unfold vacia MergeFiles.vacia
  rw [show (olvida st).punterowrite = st.punterowrite from rfl,
    show (olvida st).bufSalida = st.bufSalida from rfl, show (olvida st).so = st.so from rfl]
  dsimp only
  split
  · cases bucleEscritura so fdout st.bufSalida id fuel st.punterowrite 0 st.so with
    | error e => rfl
    | ok r => rfl
  · rfl

theorem baraja_olvida (v i : Nat) (st : Vars σ) :
    baraja B v i (olvida st) = ((baraja B v i st).1, olvida (baraja B v i st).2) := by
  unfold baraja
  rw [show (olvida st).porEscribir = st.porEscribir from rfl,
    show (olvida st).ficherosTerminados = st.ficherosTerminados from rfl]
  split
  · dsimp only
    rw [show (MergeFiles.apunta v i (olvida st)).porEscribir = (MergeFiles.apunta v i st).porEscribir from rfl]
    split <;> rfl
  · split
    · split <;> rfl
    · rfl

theorem fila_olvida (v n i : Nat) (st : Vars σ) :
    fila so fuel B k fdout v n i (olvida st) = (MergeFiles.fila so fuel B k fdout v n i st).map olvida := by
  induction n generalizing i st with
  | zero => rfl
  | succ n ih =>
    unfold fila MergeFiles.fila
    split
    · rw [vacia_olvida]
      cases MergeFiles.vacia so fuel B fdout st with
      | error e => rfl
      | ok st1 =>
        simp only [Except.map, bind, Except.bind, baraja_olvida]
        exact ih _ _
    · rfl

theorem ronda_olvida (st : Vars σ) :
    ronda so fuel B k arrayFD fdout (olvida st) = (MergeFiles.ronda so fuel B k arrayFD fdout st).map olvida := by
  unfold ronda MergeFiles.ronda
  have hreads := Lib.foldlM_map (lee so fuel B arrayFD) (lee so fuel B arrayFD) (lee_olvida so) (List.range k)
    { st with contador := 0 }
  rw [show ({ olvida st with contador := 0 } : Vars σ) = olvida { st with contador := 0 } from rfl, hreads]
  cases (List.range k).foldlM (lee so fuel B arrayFD) { st with contador := 0 } with
  | error e => rfl
  | ok st1 =>
    exact Lib.foldlM_map (fun st v => MergeFiles.fila so fuel B k fdout v fuel 0 st)
      (fun st v => fila so fuel B k fdout v fuel 0 st) (g := olvida)
      (fun st v => fila_olvida so v fuel 0 st) (List.range B) { st1 with a_Escribir := 0, escritos := 0 }

/-- The first `n` rounds. -/
def rondas (ronda : Vars σ → Except Fallo (Vars σ)) : Nat → Vars σ → Except Fallo (Vars σ)
  | 0, st => .ok st
  | n + 1, st => do rondas ronda n (← ronda st)

theorem rondas_olvida (n : Nat) (st : Vars σ) :
    rondas (ronda so fuel B k arrayFD fdout) n (olvida st) =
      (rondas (MergeFiles.ronda so fuel B k arrayFD fdout) n st).map olvida := by
  induction n generalizing st with
  | zero => rfl
  | succ n ih =>
    unfold rondas
    rw [ronda_olvida]
    cases MergeFiles.ronda so fuel B k arrayFD fdout st with
    | error e => rfl
    | ok st1 => exact ih st1

end Rounds

/-! ## The last write -/

section Last

variable {so : SO σ} {fuel B k fdout : Nat} {arrayFD : Nat → Nat} {st st' : Vars σ}

/-- All inputs have been marked. -/
def Marcados (k : Nat) (st : Vars σ) : Prop := ∀ j < k, st.ficherosTerminados j = 1

/-- Before an inner iteration: once all inputs are marked, `bufSalida` is not full. -/
@[grind cases eager]
structure Holgado (B k : Nat) (st : Vars σ) : Prop where
  puntero : st.punterowrite ≤ B
  hueco : Marcados k st → st.punterowrite < B

/-- After an inner iteration that goes on to the next input: once all inputs are marked, `a_Escribir` and
`escritos` are those of the last write. -/
structure Listo (B k : Nat) (st : Vars σ) : Prop where
  puntero : st.punterowrite ≤ B
  pendiente : Marcados k st → MergeFiles.Pendiente B st

theorem Listo.holgado (h : Listo B k st) : Holgado B k st := ⟨h.puntero, fun hall => (h.pendiente hall).1⟩

theorem leeEntrada_keeps {fd i n : Nat} {a_Leer leidos : Int}
    (h : MergeFiles.leeEntrada so fd i n a_Leer leidos st = .ok st') :
    st'.ficherosTerminados = st.ficherosTerminados ∧ st'.punterowrite = st.punterowrite := by
  induction n generalizing a_Leer leidos st with
  | zero =>
    cases h
  | succ n ih => grind [MergeFiles.leeEntrada]

theorem Holgado.lee {i : Nat} (h : Holgado B k st) (hrun : lee so fuel B arrayFD st i = .ok st') : Holgado B k st' := by
  obtain ⟨st1, hread, hret⟩ := Lib.bind_eq_ok_iff.1 hrun
  obtain ⟨hflags, hptr⟩ := leeEntrada_keeps hread
  cases hret
  refine ⟨hptr ▸ h.puntero, fun hall => ?_⟩
  rw [hptr]
  exact h.hueco fun j hj => by
    rw [← hflags]
    exact hall j hj

variable {ρ : Type} {leer : ρ → Int → Int × List UInt8 × ρ} {s s' : Vars (Ficheros ρ)}

/-- One inner iteration: after `i--` the buffer is not full, else the counters are those of the last
write. -/
theorem Holgado.visita (hB : 1 ≤ B) (h : Holgado B k s) (fdout v : Nat) {i : Nat} (hi : i < k) :
    ((baraja B v i (MergeFiles.vaciado B fdout s)).1 = true →
      Holgado B k (baraja B v i (MergeFiles.vaciado B fdout s)).2) ∧
    ((baraja B v i (MergeFiles.vaciado B fdout s)).1 = false →
      Listo B k (baraja B v i (MergeFiles.vaciado B fdout s)).2) := by
  have hlt := MergeFiles.vaciado_punterowrite_lt fdout hB h.puntero
  have hflags : (MergeFiles.vaciado B fdout s).ficherosTerminados = s.ficherosTerminados :=
    MergeFiles.vaciado_ficherosTerminados s
  -- a byte is taken from an input that is not marked
  have happend : s.ficherosTerminados i ≠ 1 → Listo B k (MergeFiles.apunta v i (MergeFiles.vaciado B fdout s)) := by
    intro hopen
    refine ⟨hlt, fun hall => absurd ?_ hopen⟩
    rw [← hflags]
    exact hall i hi
  unfold baraja
  split
  · rename_i htake
    have hsize : ¬ (MergeFiles.apunta v i (MergeFiles.vaciado B fdout s)).porEscribir i = 0 := by
      show ¬ (MergeFiles.vaciado B fdout s).porEscribir i = 0
      omega
    grind
  · split
    · rename_i hpart
      split
      · exact ⟨fun _ => ⟨hlt.le, fun _ => hlt⟩, fun hno => (Bool.false_ne_true hno.symm).elim⟩
      grind
    · -- nothing happens; if all are marked there was no flush either
      refine ⟨fun hno => (Bool.false_ne_true hno).elim, fun _ => ⟨hlt.le, fun hall => ?_⟩⟩
      refine MergeFiles.pendiente_vaciado (h.hueco fun j hj => ?_)
      rw [← hflags]
      exact hall j hj

theorem Holgado.fila (hB : 1 ≤ B) (v n : Nat) {i : Nat} (h : Holgado B k s) (hi : i < k ∨ Listo B k s)
    (hrun : MergeFiles.fila (SO.completo leer) (fuel + 1) B k fdout v n i s = .ok s') : Listo B k s' := by
  induction n generalizing i s with
  | zero =>
    cases hrun
  | succ n ih =>
    unfold MergeFiles.fila at hrun
    split at hrun
    · rename_i hlt
      rw [MergeFiles.vacia_completo leer hB fuel s] at hrun
      dsimp only [bind, Except.bind] at hrun
      obtain ⟨hagain, hnext⟩ := h.visita hB fdout v hlt
      cases hrep : (baraja B v i (MergeFiles.vaciado B fdout s)).1 with
      | true => grind
      | false =>
        exact ih (hnext hrep).holgado (.inr (hnext hrep)) hrun
    · rename_i hge
      cases hrun
      exact hi.resolve_left hge

theorem Holgado.ronda (hB : 1 ≤ B) (hk : 1 ≤ k) (h : Holgado B k s)
    (hrun : MergeFiles.ronda (SO.completo leer) (fuel + 1) B k arrayFD fdout s = .ok s') : Listo B k s' := by
  obtain ⟨s1, hreads, hrows⟩ := Lib.bind_eq_ok_iff.1 hrun
  have h1 : Holgado B k s1 := by
    refine Lib.foldlM_invariant (Holgado B k) ?_ ?_ hreads
    · exact fun s i s' hs hread => hs.lee hread
    · exact ⟨h.puntero, h.hueco⟩
  obtain ⟨b, rfl⟩ : ∃ b, B = b + 1 := ⟨B - 1, by omega⟩
  -- the last row ends with an iteration that goes on
  rw [List.range_succ, List.foldlM_append] at hrows
  obtain ⟨s2, hfirst, hlast⟩ := Lib.bind_eq_ok_iff.1 hrows
  obtain ⟨s3, hrow, ⟨⟩⟩ := Lib.bind_eq_ok_iff.1 hlast
  have h2 : Holgado (b + 1) k s2 := by
    refine Lib.foldlM_invariant (Holgado (b + 1) k) ?_ ?_ hfirst
    · exact fun s v s' hs hrow => (hs.fila (by omega) v _ (.inl hk) hrow).holgado
    · exact ⟨h1.puntero, h1.hueco⟩
  exact h2.fila (by omega) b _ (.inl hk) hrow

theorem Listo.flush (h : Listo B k s) (hall : Marcados k s) (leer : ρ → Int → Int × List UInt8 × ρ) (fuel fdout : Nat) :
    (bucleEscritura (SO.completo leer) fdout s.bufSalida id (fuel + 1) s.a_Escribir s.escritos s.so).map
      (fun r => r.2.2) = .ok ((SO.completo leer).write s.so fdout (s.bufSalida.rango 0 s.punterowrite)).2 := by
  obtain ⟨-, hcount, hoff⟩ := h.pendiente hall
  rw [hcount, hoff]
  by_cases hzero : s.punterowrite = 0
  · -- nothing is left: a write of no bytes changes nothing
    have hsame : (SO.completo leer).write s.so fdout (s.bufSalida.rango 0 (0 : Nat)) = (0, s.so) := by
      simp [SO.completo]
    rw [hzero, hsame]
    rfl
  · rw [bucleEscritura_completo leer fdout s.bufSalida id fuel 0 s.so (by omega)]
    rfl

theorem mezcla_olvida (hB : 1 ≤ B) (hk : 1 ≤ k) (n : Nat) (h : Holgado B k s) :
    (mezcla (SO.completo leer) (fuel + 1) B k arrayFD fdout n (olvida s)).map Vars.so =
      (MergeFiles.mezcla (SO.completo leer) (fuel + 1) B k arrayFD fdout n s).map Vars.so := by
  induction n generalizing s with
  | zero => rfl
  | succ n ih =>
    unfold mezcla MergeFiles.mezcla
    rw [show (olvida s).contador = s.contador from rfl]
    split
    · rw [ronda_olvida]
      cases hrun : MergeFiles.ronda (SO.completo leer) (fuel + 1) B k arrayFD fdout s with
      | error e => rfl
      | ok s1 =>
        have h1 := h.ronda hB hk hrun
        show (if fin k s1 = k then _ else _ : Except Fallo (Vars (Ficheros ρ))).map Vars.so =
          (if fin k s1 = k then _ else _ : Except Fallo (Vars (Ficheros ρ))).map Vars.so
        by_cases hfin : fin k s1 = k
        · have hflush := h1.flush ((MergeFiles.fin_eq_iff s1).1 hfin) leer fuel fdout
          rw [if_pos hfin, if_pos hfin]
          cases hlast : bucleEscritura (SO.completo leer) fdout s1.bufSalida id (fuel + 1) s1.a_Escribir
              s1.escritos s1.so with
          | error e =>
            rw [hlast] at hflush
            cases hflush
          | ok r =>
            rw [hlast] at hflush
            exact hflush.symm
        · rw [if_neg hfin, if_neg hfin]
          exact ih h1.holgado
    · rfl

/-- The two versions write the same bytes, whatever the reads return and the uninitialised variables
hold, if writes complete: after any number of turns of the loops both have returned, with the same files,
or neither has; and where they go on for ever, they have the same files after every round. -/
theorem merge_v3_same (hB : 1 ≤ B) (basura : Vars (Ficheros ρ)) (fuel : Nat) :
    (main (SO.completo leer) fuel B k arrayFD fdout basura).map Vars.so =
      (MergeFiles.main (SO.completo leer) fuel B k arrayFD fdout basura).map Vars.so ∧
    ∀ n, (rondas (ronda (SO.completo leer) fuel B k arrayFD fdout) n
        { basura with contador := 0, punterowrite := 0, a_Escribir := 0, escritos := 0 }).map Vars.so =
      (rondas (MergeFiles.ronda (SO.completo leer) fuel B k arrayFD fdout) n
        { basura with contador := 0, punterowrite := 0 }).map Vars.so := by
  constructor
  · cases fuel with
    | zero =>
      rfl
    | succ fuel =>
      by_cases hk : 1 ≤ k
      · have hstart : Holgado B k { basura with contador := 0, punterowrite := 0 } :=
          ⟨Nat.zero_le B, fun _ => hB⟩
        exact mezcla_olvida hB hk (fuel + 1) hstart
      · -- without inputs the loops are not entered
        obtain rfl : k = 0 := by omega
        rfl
  · intro n
    refine (congrArg (Except.map Vars.so)
      (rondas_olvida (SO.completo leer) n { basura with contador := 0, punterowrite := 0 })).trans ?_
    cases rondas (MergeFiles.ronda (SO.completo leer) fuel B k arrayFD fdout) n
        { basura with contador := 0, punterowrite := 0 } with
    | error e =>
      rfl
    | ok s1 =>
      rfl

/-- Two files of three bytes and one, in buffers of two bytes, with the flag of the second one set by
chance. -/
theorem merge_v3_same_dos :
    (main (SO.completo leerRegular) 9 2 2 (· + 3) 1 { MergeFiles.basuraDos with
      ficherosTerminados := fun j => j }).map Vars.so =
    (MergeFiles.main (SO.completo leerRegular) 9 2 2 (· + 3) 1 { MergeFiles.basuraDos with
      ficherosTerminados := fun j => j }).map Vars.so :=
  (merge_v3_same (by decide) _ 9).1

end Last

end AsoPracticas.Tarea4.MergeV3
