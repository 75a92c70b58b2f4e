import AsoPracticas.Lib.Loop
import AsoPracticas.Lib.Runs
import AsoPracticas.Tarea4.Argumentos
import AsoPracticas.Tarea4.Sistema

/-!
# MyStrings — the scan loop of `mystrings.c`

`mystrings` copies the printable bytes of its input into `bufEscritura` and writes the buffer out
when a run of at least `min_length` of them ends.  A run ends at a byte that is not printable, at
the end of the input, or in a branch of its own: when a read delivers at most `min_length` bytes
while more than `min_length` are pending, the program copies the printable bytes of that read,
writes the buffer and stops.

* the model follows the source statement by statement; a store past the end of `bufEscritura` is an
  outcome of its own (`Fallo.desbordamiento`);
* `mystrings_output_iff` says exactly for which inputs the output is the concatenation of the runs of
  at least `min_length` printable bytes;
* `mystrings_stores_iff` says exactly for which inputs every store is inside `bufEscritura`.
-/

namespace AsoPracticas.Tarea4.MyStrings

open List (append_assoc append_nil filter_append filter_singleton length_append)

variable {σ : Type}

/-- `isprint` in the C locale. -/
def isprint (b : UInt8) : Bool := 0x20 ≤ b && b ≤ 0x7e

/-- `isprint(b) || b == '\n' || b == '\t'` -/
def imprimible (b : UInt8) : Bool := isprint b || b == 10 || b == 9

/-- The variables of `main` that live across the scan loop. -/
structure Vars (σ : Type) where
  a_Leer : Int
  leidos : Int
  num_read : Int
  puntero : Nat
  contador : Nat
  bufLectura : Memoria
  bufEscritura : Memoria
  so : σ

/-- `STDIN_FILENO` and `STDOUT_FILENO` -/
def fdin : Nat := 0
def fdout : Nat := 1

/-! ## The program -/

/-- The read loop, on the variables of `main`. -/
def lee (so : SO σ) (fuel : Nat) (st : Vars σ) : Except Fallo (Vars σ) := do
  let l ← bucleLectura so fdin fuel
    { a_Leer := st.a_Leer
      leidos := st.leidos
      num_read := st.num_read
      buf := st.bufLectura
      so := st.so }
  return { st with
    a_Leer := l.a_Leer
    leidos := l.leidos
    num_read := l.num_read
    bufLectura := l.buf
    so := l.so }

/-- `bufEscritura[puntero] = bufLectura[i]; puntero++; contador++` -/
def copia (buf_size i : Nat) (st : Vars σ) : Except Fallo (Vars σ) :=
  if st.puntero < buf_size then
    .ok { st with
      bufEscritura := st.bufEscritura.pon st.puntero (st.bufLectura i)
      puntero := st.puntero + 1
      contador := st.contador + 1 }
  else
    .error .desbordamiento

/-- `a_Escribir = puntero; escritos = 0;` and the write loop on `bufEscritura`. -/
def escribe (so : SO σ) (fuel : Nat) (st : Vars σ) : Except Fallo (Vars σ) := do
  let (_, _, s') ← bucleEscritura so fdout st.bufEscritura id fuel st.puntero 0 st.so
  return { st with so := s' }

/-- The body of the `for` of the branch that stops: printable bytes are copied, others skipped. -/
def apura (buf_size : Nat) (st : Vars σ) (i : Nat) : Except Fallo (Vars σ) :=
  if imprimible (st.bufLectura i) then copia buf_size i st else .ok st

/-- The body of the `for` that scans a read. -/
def examina (so : SO σ) (fuel buf_size min_length : Nat) (st : Vars σ) (i : Nat) : Except Fallo (Vars σ) :=
  if imprimible (st.bufLectura i) then
    copia buf_size i st
  else if st.contador < st.puntero ∨ st.contador < min_length then
    .ok { st with puntero := 0, contador := 0 }
  else do
    let st ← if st.contador ≥ min_length then escribe so fuel st else .ok st
    return { st with puntero := 0, contador := 0 }

/-- `while (flag == 0)`; both exits are a `break`. -/
def recorre (so : SO σ) (fuel buf_size min_length : Nat) : Nat → Vars σ → Except Fallo (Vars σ)
  | 0, _ => .error .combustible
  | n + 1, st => do
      let st ← lee so fuel st
      if (st.num_read ≤ min_length ∧ st.contador > min_length) ∧ st.num_read ≠ 0 then
        let st ← (List.range st.num_read.toNat).foldlM (apura buf_size) st
        escribe so fuel st
      else
        let st ← (List.range st.num_read.toNat).foldlM (examina so fuel buf_size min_length) st
        let st ←
          if st.puntero > 0 ∧ st.num_read = 0 ∧ st.contador ≥ min_length then escribe so fuel st
          else .ok st
        if st.num_read = 0 then .ok st else recorre so fuel buf_size min_length n st

/-- The scan loop as `main` enters it: `basura` holds what the `malloc`ed buffers contain. -/
def main (so : SO σ) (fuel buf_size min_length : Nat) (basura : Vars σ) : Except Fallo (Vars σ) :=
  recorre so fuel buf_size min_length fuel { basura with
    a_Leer := buf_size
    leidos := 0
    num_read := 0
    puntero := 0
    contador := 0 }

/-! ## What the program is for -/

/-- The concatenation, in order, of the runs of at least `N` printable bytes of `s`. -/
def cadenas (N : Nat) (s : List UInt8) : List UInt8 :=
  ((Lib.runs imprimible s).filter fun r => N ≤ r.length).flatten

/-- The part of `cadenas` that is already decided when `s` may still go on. -/
def cadenasCerradas (N : Nat) (s : List UInt8) : List UInt8 :=
  ((Lib.closedRuns imprimible s).filter fun r => N ≤ r.length).flatten

/-- No run is longer than the buffer. -/
def Cabe (B : Nat) (s : List UInt8) : Prop :=
  ∀ r ∈ Lib.runs imprimible s, r.length ≤ B

/-- A read never delivers at most `N` bytes while more than `N` are pending, except the last one,
and then no printable byte in it follows one that is not. -/
def SinCorte (N : Nat) (previo : List UInt8) (trozos : List (List UInt8)) : Prop :=
  ∀ antes t despues, trozos = antes ++ t :: despues →
    t.length ≤ N → N < (Lib.tailRun imprimible (previo ++ antes.flatten)).length →
    despues = [] ∧ ∀ b ∈ t.dropWhile imprimible, imprimible b = false

theorem cadenasCerradas_concat_pos (N : Nat) (s : List UInt8) {b : UInt8}
    (hb : imprimible b = true) : cadenasCerradas N (s ++ [b]) = cadenasCerradas N s := by
  rw [cadenasCerradas, Lib.closedRuns_concat_pos s hb, cadenasCerradas]

theorem cadenasCerradas_concat_neg (N : Nat) (s : List UInt8) {b : UInt8} (hb : imprimible b = false) :
    cadenasCerradas N (s ++ [b]) = cadenasCerradas N s ++
      if N ≤ (Lib.tailRun imprimible s).length then Lib.tailRun imprimible s else [] := by
  rw [cadenasCerradas, Lib.closedRuns_concat_neg s hb, filter_append, List.flatten_append, cadenasCerradas]
  grind

theorem cadenas_eq (N : Nat) (s : List UInt8) :
    cadenas N s = cadenasCerradas N s ++
      if N ≤ (Lib.tailRun imprimible s).length then Lib.tailRun imprimible s else [] := by
  rw [cadenas, Lib.runs_eq_closedRuns s, filter_append, List.flatten_append, cadenasCerradas]
  grind

theorem cabe_concat {B : Nat} (s : List UInt8) (b : UInt8) :
    Cabe B (s ++ [b]) ↔ Cabe B s ∧ (imprimible b = true → (Lib.tailRun imprimible s).length < B) := by
  have hs := Lib.runs_eq_closedRuns (p := imprimible) s
  cases hb : imprimible b with
  | true =>
    rw [Cabe, Lib.runs_append_of_all s (by simpa using hb), Cabe, hs]
    grind [length_append, List.length_singleton]
  | false =>
    rw [Cabe, Lib.runs_append_cons s [] hb, Lib.runs_nil, Cabe]
    grind

theorem cabe_of_append {B : Nat} (s t : List UInt8) (h : Cabe B (s ++ t)) : Cabe B s := by
  induction t using List.reverseRecOn with
  | nil => simpa using h
  | append_singleton t b ih =>
    rw [← append_assoc] at h
    exact ih ((cabe_concat (s ++ t) b).1 h).1

theorem length_tailRun_le {B : Nat} {s : List UInt8} (h : Cabe B s) : (Lib.tailRun imprimible s).length ≤ B :=
  h _ (by rw [Lib.runs_eq_closedRuns s]; simp)

theorem sinCorte_nil (N : Nat) (previo : List UInt8) : SinCorte N previo [] := by
  intro antes t despues h
  simp at h

theorem sinCorte_cons (N : Nat) (previo t : List UInt8) (ts : List (List UInt8)) :
    SinCorte N previo (t :: ts) ↔
      (t.length ≤ N → N < (Lib.tailRun imprimible previo).length →
        ts = [] ∧ ∀ b ∈ t.dropWhile imprimible, imprimible b = false) ∧
      SinCorte N (previo ++ t) ts := by
  constructor
  · intro h
    refine ⟨fun ht hN => h [] t ts rfl ht (by simpa using hN), ?_⟩
    grind [SinCorte, Lib.tailRun, imprimible, append_assoc]
  · rintro ⟨hhead, htail⟩ antes t' despues hts ht hN
    cases antes with
    | nil => grind
    | cons a antes =>
      grind [SinCorte, Lib.tailRun, imprimible, List.cons.inj, append_assoc]

/-- The runs of `s ++ t` when `t` has at most `N` bytes: those closed in `s`, the one that crosses
over, and further ones of fewer than `N` bytes. -/
theorem runs_append_short {N : Nat} (s : List UInt8) {t : List UInt8} (ht : t.length ≤ N) :
    ∃ R, Lib.runs imprimible (s ++ t) = Lib.closedRuns imprimible s ++
        [Lib.tailRun imprimible s ++ t.takeWhile imprimible] ++ R ∧ ∀ r ∈ R, r.length < N := by
  have hu : ∀ b ∈ t.takeWhile imprimible, imprimible b = true := fun _ hb =>
    List.mem_takeWhile_imp hb
  have hcut := List.takeWhile_append_dropWhile (p := imprimible) (l := t)
  cases hw : t.dropWhile imprimible with
  | nil =>
    refine ⟨[], ?_, by simp⟩
    grind [Lib.runs_append_of_all]
  | cons x v =>
    have hx : imprimible x = false := by
      have := List.head_dropWhile_not (p := imprimible) (l := t) (by simp [hw])
      simpa [hw] using this
    rw [hw] at hcut
    have hlen : (t.takeWhile imprimible).length + (v.length + 1) = t.length := by
      simpa using congrArg List.length hcut
    refine ⟨Lib.runs imprimible v, ?_, ?_⟩
    · grind [append_assoc, Lib.runs_append_cons, Lib.runs_append_of_all]
    · intro r hr
      have := Lib.length_le_of_mem_runs hr
      omega

/-- What the branch that stops would write is right exactly when no printable byte of the last read
follows one that is not. -/
theorem corte_iff {B N : Nat} {s t : List UInt8} (hNB : N ≤ B) (hc : Cabe B s)
    (hs : N < (Lib.tailRun imprimible s).length) (ht : t.length ≤ N) :
    ((Lib.tailRun imprimible s ++ t.filter imprimible).length ≤ B ∧
      cadenasCerradas N s ++ (Lib.tailRun imprimible s ++ t.filter imprimible) = cadenas N (s ++ t)) ↔
    Cabe B (s ++ t) ∧ ∀ b ∈ t.dropWhile imprimible, imprimible b = false := by
  obtain ⟨R, hruns, hR⟩ := runs_append_short s ht
  have hfilter : t.filter imprimible = t.takeWhile imprimible ++ (t.dropWhile imprimible).filter imprimible := by
    conv_lhs => rw [← List.takeWhile_append_dropWhile (p := imprimible) (l := t)]
    rw [filter_append, List.filter_eq_self.2 fun _ hb => List.mem_takeWhile_imp hb]
  have hcad : cadenas N (s ++ t) = cadenasCerradas N s ++ (Lib.tailRun imprimible s ++ t.takeWhile imprimible) := by
    have hnone : R.filter (fun r => decide (N ≤ r.length)) = [] :=
      List.filter_eq_nil_iff.2 fun r hr => by simpa using hR r hr
    have hcross : N ≤ (Lib.tailRun imprimible s ++ t.takeWhile imprimible).length := by
      rw [length_append]
      omega
    rw [cadenas, hruns, filter_append, hnone, append_nil, filter_append,
      List.flatten_append, cadenasCerradas, filter_singleton, decide_eq_true hcross]
    simp
  have hcabe : Cabe B (s ++ t) ↔ (Lib.tailRun imprimible s ++ t.takeWhile imprimible).length ≤ B := by
    rw [Cabe, hruns]
    constructor
    · intro h
      exact h _ (by simp)
    · grind [Cabe, Lib.tailRun, imprimible, cadenasCerradas, cadenas, append_assoc,
        Lib.runs_eq_closedRuns, List.mem_append_left]
  grind [List.append_cancel_left_eq, List.append_right_eq_self, List.filter_eq_nil_iff]

/-! ## The loops -/

section Bucles

variable {B N : Nat} {S s r : List UInt8} {st : Vars (Ficheros (List (List UInt8)))}

/-- The bytes of `r` are pending in `bufEscritura`. -/
@[grind cases eager]
structure Pendiente (r : List UInt8) (st : Vars σ) : Prop where
  puntero : st.puntero = r.length
  contador : st.contador = r.length
  bytes : st.bufEscritura.rango 0 r.length = r

/-- What neither `for` changes. -/
def fijo {ρ : Type} (st : Vars (Ficheros ρ)) : Int × Int × Int × Memoria × (Nat → ρ) :=
  (st.a_Leer, st.leidos, st.num_read, st.bufLectura, st.so.entradas)

theorem Pendiente.escribe (h : Pendiente r st) (fuel : Nat) :
    escribe (SO.completo leerTrozos) (fuel + 1) st = .ok { st with so := st.so.escribe fdout r } := by
  by_cases hr : r = []
  · subst hr
    have hp : st.puntero = 0 := h.puntero
    simp [MyStrings.escribe, bucleEscritura, hp, Ficheros.escribe, bind, Except.bind, pure, Except.pure]
  · have hp : 0 < (st.puntero : Int) := by
      have := List.length_pos_iff.2 hr
      rw [h.puntero]
      omega
    simp only [MyStrings.escribe, bucleEscritura_completo leerTrozos _ _ _ fuel _ _ hp, bind,
      Except.bind, pure, Except.pure, id]
    rw [h.puntero, h.bytes]

theorem Pendiente.copia (h : Pendiente r st) (B i : Nat) :
    (r.length < B ∧ ∃ st', copia B i st = .ok st' ∧ Pendiente (r ++ [st.bufLectura i]) st' ∧
        fijo st' = fijo st ∧ st'.so.salidas = st.so.salidas) ∨
      (¬ r.length < B ∧ copia B i st = .error .desbordamiento) := by
  by_cases hB : r.length < B
  · have hlt : st.puntero < B := by rwa [h.puntero]
    refine .inl ⟨hB, _, if_pos hlt, ⟨?_, ?_, ?_⟩, rfl, rfl⟩
    all_goals grind [length_append, List.length_singleton, Memoria.rango_pon_succ]
  · exact .inr ⟨hB, if_neg (by rwa [h.puntero])⟩

/-- The `for` of the branch that stops leaves the printable bytes of the read pending as well. -/
theorem Pendiente.apura (h : Pendiente r st) (hr : r.length ≤ B) (t : List UInt8)
    (hbuf : ∀ i (hi : i < t.length), st.bufLectura i = t[i]) :
    ((r ++ t.filter imprimible).length ≤ B ∧
      ∃ st', (List.range t.length).foldlM (apura B) st = .ok st' ∧
        Pendiente (r ++ t.filter imprimible) st' ∧ fijo st' = fijo st ∧
        st'.so.salidas = st.so.salidas) ∨
    (¬ (r ++ t.filter imprimible).length ≤ B ∧ (List.range t.length).foldlM (apura B) st = .error .desbordamiento) := by
  have hcases := Lib.foldlM_range_cases (f := MyStrings.apura B) (n := t.length)
    (fun i st' => Pendiente (r ++ (t.take i).filter imprimible) st' ∧ fijo st' = fijo st ∧
      st'.so.salidas = st.so.salidas)
    (fun i => (r ++ (t.take i).filter imprimible).length ≤ B) Fallo.desbordamiento
    (by
      intro i hi hle
      rw [List.take_add_one, filter_append, ← append_assoc, length_append] at hle
      omega)
    (by
      rintro i st1 hi hle ⟨hp, hf, hs⟩
      have hb : st1.bufLectura i = t[i] := by
        rw [show st1.bufLectura = st.bufLectura from congrArg (fun x => x.2.2.2.1) hf, hbuf i hi]
      rw [List.take_add_one, List.getElem?_eq_getElem hi, Option.toList_some, filter_append,
        ← append_assoc, MyStrings.apura, hb]
      cases hprint : imprimible t[i] with
      | true =>
        rcases hp.copia B i with ⟨hlt, st2, hrun, hp', hf', hs'⟩ | ⟨hge, hrun⟩
        all_goals grind
      | false =>
        refine .inl ⟨?_, st1, rfl, ?_, hf, hs⟩
        · simpa [filter_singleton, hprint] using hle
        · simpa [filter_singleton, hprint] using hp)
    (s := st) (by simpa using hr) ⟨by simpa using h, rfl, rfl⟩
  simpa using hcases

/-- After `s` has been scanned: the run at its end is pending and the long enough runs before it
have been written after `S`. -/
@[grind cases eager]
structure Escaneado (N : Nat) (S s : List UInt8) (st : Vars (Ficheros (List (List UInt8)))) :
    Prop where
  pendiente : Pendiente (Lib.tailRun imprimible s) st
  salida : st.so.salidas fdout = S ++ cadenasCerradas N s

theorem Escaneado.examina (h : Escaneado N S s st) (hc : Cabe B s) (fuel i : Nat) :
    (Cabe B (s ++ [st.bufLectura i]) ∧
      ∃ st', examina (SO.completo leerTrozos) (fuel + 1) B N st i = .ok st' ∧
        Escaneado N S (s ++ [st.bufLectura i]) st' ∧ fijo st' = fijo st) ∨
    (¬ Cabe B (s ++ [st.bufLectura i]) ∧
      examina (SO.completo leerTrozos) (fuel + 1) B N st i = .error .desbordamiento) := by
  rw [cabe_concat, MyStrings.examina]
  cases hprint : imprimible (st.bufLectura i) with
  | true =>
    rcases h.pendiente.copia B i with ⟨hlt, st', hrun, hp, hf, hs⟩ | ⟨hge, hrun⟩
    · refine .inl ⟨⟨hc, fun _ => hlt⟩, st', hrun, ⟨?_, ?_⟩, hf⟩
      · rwa [Lib.tailRun_concat_pos s hprint]
      · rw [hs, h.salida, cadenasCerradas_concat_pos N s hprint]
    · exact .inr ⟨fun hle => hge (hle.2 rfl), hrun⟩
  | false =>
    refine .inl ⟨⟨hc, by simp⟩, ?_⟩
    have hvacio : ∀ so : Ficheros (List (List UInt8)),
        Pendiente (Lib.tailRun imprimible (s ++ [st.bufLectura i]))
          { st with puntero := 0, contador := 0, so := so } := by
      intro so
      rw [Lib.tailRun_concat_neg s hprint]
      exact ⟨rfl, rfl, rfl⟩
    have hcp : ¬ st.contador < st.puntero := by grind
    have hsal := cadenasCerradas_concat_neg N s hprint
    by_cases hN : N ≤ (Lib.tailRun imprimible s).length
    · rw [if_pos hN] at hsal
      have hNc : N ≤ st.contador := by rwa [h.pendiente.contador]
      have hno : ¬ (st.contador < st.puntero ∨ st.contador < N) := by omega
      refine ⟨{ st with
        puntero := 0
        contador := 0
        so := st.so.escribe fdout (Lib.tailRun imprimible s) }, ?_, ⟨hvacio _, ?_⟩, rfl⟩
      · simp only [Bool.false_eq_true, if_false, hno, ge_iff_le, hNc, if_true,
          h.pendiente.escribe fuel, bind, Except.bind, pure, Except.pure]
      grind [append_assoc, Ficheros.escribe_salidas_same]
    · rw [if_neg hN, append_nil] at hsal
      refine ⟨{ st with puntero := 0, contador := 0 }, ?_, ⟨hvacio _, ?_⟩, rfl⟩
      all_goals grind

theorem Escaneado.trozo (h : Escaneado N S s st) (hc : Cabe B s) (fuel : Nat) (t : List UInt8)
    (hbuf : ∀ i (hi : i < t.length), st.bufLectura i = t[i]) :
    (Cabe B (s ++ t) ∧
      ∃ st', (List.range t.length).foldlM (MyStrings.examina (SO.completo leerTrozos) (fuel + 1) B N) st = .ok st' ∧
        Escaneado N S (s ++ t) st' ∧ fijo st' = fijo st) ∨
    (¬ Cabe B (s ++ t) ∧
      (List.range t.length).foldlM
        (MyStrings.examina (SO.completo leerTrozos) (fuel + 1) B N) st = .error .desbordamiento) := by
  have hnext : ∀ i (hi : i < t.length), s ++ t.take (i + 1) = s ++ t.take i ++ [t[i]] := by
    intro i hi
    rw [List.take_add_one, List.getElem?_eq_getElem hi, Option.toList_some, append_assoc]
  have hcases := Lib.foldlM_range_cases (n := t.length) (f := MyStrings.examina (SO.completo leerTrozos) (fuel + 1) B N)
    (fun i st' => Escaneado N S (s ++ t.take i) st' ∧ fijo st' = fijo st)
    (fun i => Cabe B (s ++ t.take i)) Fallo.desbordamiento
    (by
      intro i hi hle
      rw [hnext i hi] at hle
      exact cabe_of_append _ _ hle)
    (by
      rintro i st1 hi hci ⟨hi1, hf⟩
      have hb : st1.bufLectura i = t[i] := by
        rw [show st1.bufLectura = st.bufLectura from congrArg (fun x => x.2.2.2.1) hf, hbuf i hi]
      rw [hnext i hi, ← hb]
      rcases hi1.examina hci fuel i with ⟨hg, st2, hrun, hi2, hf2⟩ | hbad
      · exact .inl ⟨hg, st2, hrun, hi2, hf2.trans hf⟩
      · exact .inr hbad)
    (s := st) (by simpa using hc) ⟨by simpa using h, rfl⟩
  simpa using hcases

/-- The head of the scan loop: `s` has been scanned without an overflow and `trozos` is still to
come. -/
@[grind cases eager]
structure EnEspera (B N : Nat) (S s : List UInt8) (trozos : List (List UInt8))
    (st : Vars (Ficheros (List (List UInt8)))) : Prop extends Escaneado N S s st where
  cabe : Cabe B s
  entrada : st.so.entradas fdin = trozos
  a_Leer : st.a_Leer = B
  leidos : st.leidos = 0

/-- The variables after a read that delivered `t` and left `ts` to come. -/
def leido (st : Vars (Ficheros (List (List UInt8)))) (t : List UInt8) (ts : List (List UInt8)) :
    Vars (Ficheros (List (List UInt8))) :=
  { st with
    num_read := t.length
    bufLectura := st.bufLectura.vuelca st.leidos t
    so := { st.so with entradas := Function.update st.so.entradas fdin ts } }

theorem EnEspera.lee {trozos : List (List UInt8)} (h : EnEspera B N S s trozos st) (hB : 1 ≤ B) (fuel : Nat) :
    lee (SO.completo leerTrozos) (fuel + 1) st = .ok (leido st (trozos.headD []) trozos.tail) := by
  have ha : 0 < st.a_Leer := by
    rw [h.a_Leer]
    omega
  rw [MyStrings.lee, bucleLectura_trozos fdin fuel (by exact ha), h.entrada]
  rfl

theorem EnEspera.bufLectura {trozos : List (List UInt8)} (h : EnEspera B N S s trozos st)
    (t : List UInt8) (ts : List (List UInt8)) :
    ∀ i (hi : i < t.length), (leido st t ts).bufLectura i = t[i] := by
  intro i hi
  show st.bufLectura.vuelca st.leidos t i = t[i]
  rw [h.leidos]
  exact Memoria.vuelca_zero_apply _ _ hi

theorem EnEspera.fin (h : EnEspera B N S s [] st) (hN : 1 ≤ N) (hB : 1 ≤ B) (fuel n : Nat) :
    ∃ st', recorre (SO.completo leerTrozos) (fuel + 1) B N (n + 1) st = .ok st' ∧
      st'.so.salidas fdout = S ++ cadenas N s ∧ st'.so.entradas fdin = [] := by
  have hp : Pendiente (Lib.tailRun imprimible s) (leido st [] []) :=
    ⟨h.pendiente.puntero, h.pendiente.contador, h.pendiente.bytes⟩
  have hnum : (leido st [] []).num_read = 0 := rfl
  have hsal : (leido st [] []).so.salidas fdout = S ++ cadenasCerradas N s := h.salida
  have hent : (leido st [] []).so.entradas fdin = [] := by simp [leido]
  rw [cadenas_eq, recorre, h.lee hB fuel]
  simp only [bind, Except.bind, List.headD_nil, List.tail_nil, hnum, ne_eq, not_true_eq_false,
    and_false, if_false, Int.toNat_zero, List.range_zero, List.foldlM_nil, pure, Except.pure,
    true_and, hp.puntero, hp.contador, if_true]
  by_cases hlong : N ≤ (Lib.tailRun imprimible s).length
  · have hcond : (Lib.tailRun imprimible s).length > 0 ∧ (Lib.tailRun imprimible s).length ≥ N := by omega
    rw [if_pos hcond, if_pos hlong, hp.escribe fuel]
    refine ⟨_, if_pos hnum, ?_, hent⟩
    rw [← append_assoc, ← hsal]
    exact Ficheros.escribe_salidas_same _ _ _
  grind

theorem EnEspera.corte {t : List UInt8} {ts : List (List UInt8)}
    (h : EnEspera B N S s (t :: ts) st) (hB : 1 ≤ B) (ht : 1 ≤ t.length) (htN : t.length ≤ N)
    (hs : N < (Lib.tailRun imprimible s).length) (fuel n : Nat) :
    ((Lib.tailRun imprimible s ++ t.filter imprimible).length ≤ B ∧
      ∃ st', recorre (SO.completo leerTrozos) (fuel + 1) B N (n + 1) st = .ok st' ∧
        st'.so.salidas fdout = S ++ (cadenasCerradas N s ++
          (Lib.tailRun imprimible s ++ t.filter imprimible)) ∧ st'.so.entradas fdin = ts) ∨
    (¬ (Lib.tailRun imprimible s ++ t.filter imprimible).length ≤ B ∧
      recorre (SO.completo leerTrozos) (fuel + 1) B N (n + 1) st = .error .desbordamiento) := by
  have hp : Pendiente (Lib.tailRun imprimible s) (leido st t ts) :=
    ⟨h.pendiente.puntero, h.pendiente.contador, h.pendiente.bytes⟩
  have hnum : (leido st t ts).num_read = t.length := rfl
  have hcond : (((t.length : Int) ≤ N ∧ (Lib.tailRun imprimible s).length > N) ∧ (t.length : Int) ≠ 0) := by omega
  rw [recorre, h.lee hB fuel]
  simp only [bind, Except.bind, List.headD_cons, List.tail_cons, hnum, hp.contador, if_pos hcond, Int.toNat_natCast]
  rcases hp.apura (length_tailRun_le h.cabe) t (h.bufLectura t ts) with
    ⟨hle, st2, hrun, hp2, hf, hs2⟩ | ⟨hgt, hrun⟩
  · refine .inl ⟨hle, _, by rw [hrun]; exact hp2.escribe fuel, ?_, ?_⟩
    · rw [← append_assoc, ← h.salida]
      show (st2.so.escribe fdout _).salidas fdout = _
      rw [Ficheros.escribe_salidas_same, hs2]
      rfl
    · have : st2.so.entradas = (leido st t ts).so.entradas := congrArg (fun x => x.2.2.2.2) hf
      show st2.so.entradas fdin = ts
      rw [this]
      simp [leido]
  · exact .inr ⟨hgt, by rw [hrun]⟩

/-- Any other turn that reads something: the loop goes on behind the piece read, or a run outgrew the
buffer. -/
theorem EnEspera.vuelta {t : List UInt8} {ts : List (List UInt8)}
    (h : EnEspera B N S s (t :: ts) st) (hB : 1 ≤ B) (ht : 1 ≤ t.length)
    (hno : ¬ (t.length ≤ N ∧ N < (Lib.tailRun imprimible s).length)) (fuel n : Nat) :
    (∃ st2, recorre (SO.completo leerTrozos) (fuel + 1) B N (n + 1) st =
        recorre (SO.completo leerTrozos) (fuel + 1) B N n st2 ∧ EnEspera B N S (s ++ t) ts st2) ∨
    (¬ Cabe B (s ++ t) ∧ recorre (SO.completo leerTrozos) (fuel + 1) B N (n + 1) st = .error .desbordamiento) := by
  have hesc : Escaneado N S s (leido st t ts) :=
    ⟨⟨h.pendiente.puntero, h.pendiente.contador, h.pendiente.bytes⟩, h.salida⟩
  have hnum : (leido st t ts).num_read = t.length := rfl
  have hcond : ¬ (((t.length : Int) ≤ N ∧ (Lib.tailRun imprimible s).length > N) ∧ (t.length : Int) ≠ 0) := by omega
  rw [recorre, h.lee hB fuel]
  simp only [bind, Except.bind, List.headD_cons, List.tail_cons, hnum, hesc.pendiente.contador,
    if_neg hcond, Int.toNat_natCast]
  rcases hesc.trozo h.cabe fuel t (h.bufLectura t ts) with
    ⟨hc, st2, hrun, hesc2, hf⟩ | ⟨hbad, hrun⟩
  · have hnum2 : ¬ st2.num_read = 0 := by
      rw [show st2.num_read = t.length from congrArg (fun x => x.2.2.1) hf]
      omega
    refine .inl ⟨st2, ?_, hesc2, hc, ?_, ?_, ?_⟩
    · rw [hrun]
      simp only [hnum2, false_and, and_false, if_false]
    · rw [show st2.so.entradas = (leido st t ts).so.entradas from
        congrArg (fun x => x.2.2.2.2) hf]
      simp [leido]
    · rw [show st2.a_Leer = st.a_Leer from congrArg (fun x => x.1) hf, h.a_Leer]
    · rw [show st2.leidos = st.leidos from congrArg (fun x => x.2.1) hf, h.leidos]
  · exact .inr ⟨hbad, by rw [hrun]⟩

/-- The scan loop from its head: it ends with the right output exactly when no run outgrows the
buffer and the branch that stops does no harm. -/
theorem recorre_iff (hN : 1 ≤ N) (hNB : N ≤ B) (fuel : Nat) :
    ∀ (trozos : List (List UInt8)) (n : Nat) (s : List UInt8) (st : Vars (Ficheros (List (List UInt8)))),
      trozos.length < n → (∀ t ∈ trozos, 1 ≤ t.length) → EnEspera B N S s trozos st →
      ((∃ st', recorre (SO.completo leerTrozos) (fuel + 1) B N n st = .ok st' ∧
          st'.so.salidas fdout = S ++ cadenas N (s ++ trozos.flatten) ∧
          st'.so.entradas fdin = []) ↔
        Cabe B (s ++ trozos.flatten) ∧ SinCorte N s trozos) := by
  have hB : 1 ≤ B := hN.trans hNB
  intro trozos
  induction trozos with
  | nil =>
    intro n s st hn _ h
    obtain ⟨n, rfl⟩ := Nat.exists_eq_succ_of_ne_zero (by omega : n ≠ 0)
    rw [List.flatten_nil, append_nil]
    exact ⟨fun _ => ⟨h.cabe, sinCorte_nil N s⟩, fun _ => h.fin hN hB fuel n⟩
  | cons t ts ih =>
    intro n s st hn hne h
    obtain ⟨n, rfl⟩ := Nat.exists_eq_succ_of_ne_zero (by omega : n ≠ 0)
    have ht : 1 ≤ t.length := hne t (by simp)
    rw [sinCorte_cons, List.flatten_cons]
    by_cases hstop : t.length ≤ N ∧ N < (Lib.tailRun imprimible s).length
    · obtain ⟨htN, hs⟩ := hstop
      have hright := corte_iff hNB h.cabe hs htN
      rcases h.corte hB ht htN hs fuel n with ⟨hle, st1, hrun, hsal, hent⟩ | ⟨hgt, hrun⟩
      · grind [Except.ok.inj, List.flatten_nil, List.append_cancel_left, sinCorte_nil]
      grind
    · have hhead : t.length ≤ N → N < (Lib.tailRun imprimible s).length →
          ts = [] ∧ ∀ b ∈ t.dropWhile imprimible, imprimible b = false :=
        fun htN hs => absurd ⟨htN, hs⟩ hstop
      rcases h.vuelta hB ht hstop fuel n with ⟨st2, hrun, h2⟩ | ⟨hbad, hrun⟩
      all_goals grind [cabe_of_append]

theorem enEspera_inicio (B N : Nat) (basura : Vars (Ficheros (List (List UInt8)))) :
    EnEspera B N (basura.so.salidas fdout) [] (basura.so.entradas fdin)
      { basura with a_Leer := B, leidos := 0, num_read := 0, puntero := 0, contador := 0 } := by
  refine ⟨⟨⟨rfl, rfl, rfl⟩, ?_⟩, ?_, rfl, rfl, rfl⟩
  · simp [cadenasCerradas, Lib.closedRuns]
  · intro r hr
    rw [Lib.runs_nil, List.mem_singleton] at hr
    simp [hr]

/-- `mystrings` ends and leaves the concatenation of the long enough runs, with all its input
consumed, exactly when no run of printable bytes is longer than the buffer and no read of at most
`N` bytes meets more than `N` pending ones, unless it is the last one and no printable byte in it
follows one that is not. -/
theorem mystrings_output_iff (hN : 1 ≤ N) (hNB : N ≤ B)
    (basura : Vars (Ficheros (List (List UInt8))))
    (hleg : TrozosLegales B (basura.so.entradas fdin)) :
    (∃ K, ∀ fuel, K ≤ fuel →
      ∃ st', main (SO.completo leerTrozos) fuel B N basura = .ok st' ∧
        st'.so.salidas fdout = basura.so.salidas fdout ++
          cadenas N (basura.so.entradas fdin).flatten ∧
        st'.so.entradas fdin = []) ↔
    Cabe B (basura.so.entradas fdin).flatten ∧ SinCorte N [] (basura.so.entradas fdin) := by
  have hiff := fun fuel n (hn : (basura.so.entradas fdin).length < n) =>
    recorre_iff hN hNB fuel (basura.so.entradas fdin) n [] _ hn (fun t ht => (hleg t ht).1)
      (enEspera_inicio B N basura)
  simp only [List.nil_append] at hiff
  constructor
  · rintro ⟨K, hK⟩
    have := hK (K + (basura.so.entradas fdin).length + 1) (by omega)
    exact (hiff _ _ (by omega)).1 this
  · intro hcond
    refine ⟨(basura.so.entradas fdin).length + 1, fun fuel hfuel => ?_⟩
    obtain ⟨f, rfl⟩ := Nat.exists_eq_succ_of_ne_zero (by omega : fuel ≠ 0)
    exact (hiff f (f + 1) (by omega)).2 hcond

/-! ## The stores -/

/-- What is read fits into `bufEscritura` as it is copied: no run outgrows the buffer before the branch
that stops, and in that branch the printable bytes of the read fit behind the pending ones. -/
def Contenido (B N : Nat) : List UInt8 → List (List UInt8) → Prop
  | _, [] => True
  | s, t :: ts =>
    if t.length ≤ N ∧ N < (Lib.tailRun imprimible s).length then
      (Lib.tailRun imprimible s ++ t.filter imprimible).length ≤ B
    else Cabe B (s ++ t) ∧ Contenido B N (s ++ t) ts

/-- The scan loop from its head: with enough turns it returns, or it stores outside the buffer, and with
fewer turns it does neither. -/
theorem recorre_cases (hN : 1 ≤ N) (hNB : N ≤ B) (fuel : Nat) :
    ∀ (trozos : List (List UInt8)) (n : Nat) (s : List UInt8) (st : Vars (Ficheros (List (List UInt8)))),
      (∀ t ∈ trozos, 1 ≤ t.length) → EnEspera B N S s trozos st →
      (Contenido B N s trozos → recorre (SO.completo leerTrozos) (fuel + 1) B N n st ≠ .error .desbordamiento) ∧
      (¬ Contenido B N s trozos → trozos.length < n →
        recorre (SO.completo leerTrozos) (fuel + 1) B N n st = .error .desbordamiento) := by
  have hB : 1 ≤ B := hN.trans hNB
  intro trozos
  induction trozos with
  | nil =>
    intro n s st _ h
    refine ⟨fun _ hrun => ?_, fun hno => absurd trivial hno⟩
    cases n with
    | zero =>
      cases hrun
    | succ n =>
      obtain ⟨st', hok, -⟩ := h.fin hN hB fuel n
      rw [hok] at hrun
      cases hrun
  | cons t ts ih =>
    intro n s st hne h
    have ht : 1 ≤ t.length := hne t List.mem_cons_self
    rw [Contenido]
    cases n with
    | zero =>
      refine ⟨fun _ hrun => ?_, fun _ hn => absurd hn (Nat.not_lt_zero _)⟩
      cases hrun
    | succ n =>
      by_cases hstop : t.length ≤ N ∧ N < (Lib.tailRun imprimible s).length
      · rw [if_pos hstop]
        rcases h.corte hB ht hstop.1 hstop.2 fuel n with ⟨hle, st1, hrun, -⟩ | ⟨hgt, hrun⟩
        all_goals grind
      · rw [if_neg hstop]
        rcases h.vuelta hB ht hstop fuel n with ⟨st2, hrun, h2⟩ | ⟨hbad, hrun⟩
        all_goals grind

end Bucles

theorem argumentos_bounds {argv : List Lib.Word} {e : Argumentos.MyStrings.Ejecucion}
    (h : Argumentos.MyStrings.argumentos argv = .ok e) :
    1 ≤ e.min_length ∧ e.min_length ≤ e.buf_size := by
  obtain ⟨min_length, hmin, hrest⟩ := Lib.bind_eq_ok_iff.1 h
  obtain ⟨buf_size, hbuf, ⟨⟩⟩ := Lib.bind_eq_ok_iff.1 hrest
  generalize List.foldl Argumentos.MyStrings.opcion _ _ = o at hmin hbuf
  -- 4 by default, or checked
  have hlength : 1 ≤ min_length ∧ min_length ≤ 255 := by
    cases hcase : o.minlength with
    | none =>
      rw [hcase] at hmin
      cases hmin
      decide
    | some minlength =>
      rw [hcase] at hmin
      obtain ⟨rfl, hrange⟩ := Argumentos.enRango_eq_ok_iff.1 hmin
      exact hrange
  refine ⟨hlength.1, ?_⟩
  -- 1024 by default, or compared with the length
  cases hcase : o.bufsize with
  | none => grind
  | some bufsize =>
    grind [Argumentos.MyStrings.argumentos, Argumentos.MyStrings.comprobarSizeBuff, Lib.atoi]

/-- With the sizes that its arguments ask for, `mystrings` keeps every store inside `bufEscritura`, however
the input is cut into reads, exactly if what is read fits as it is copied. -/
theorem mystrings_stores_iff {argv : List Lib.Word} {e : Argumentos.MyStrings.Ejecucion}
    (hargs : Argumentos.MyStrings.argumentos argv = .ok e) (basura : Vars (Ficheros (List (List UInt8))))
    (hleg : TrozosLegales e.buf_size.toNat (basura.so.entradas fdin)) :
    (∀ fuel, main (SO.completo leerTrozos) fuel e.buf_size.toNat e.min_length.toNat basura ≠
      .error .desbordamiento) ↔
    Contenido e.buf_size.toNat e.min_length.toNat [] (basura.so.entradas fdin) := by
  obtain ⟨hmin, hle⟩ := argumentos_bounds hargs
  have hcases := fun fuel n => recorre_cases (by omega : 1 ≤ e.min_length.toNat)
    (by omega : e.min_length.toNat ≤ e.buf_size.toNat) fuel (basura.so.entradas fdin) n [] _
    (fun t ht => (hleg t ht).1) (enEspera_inicio _ _ basura)
  constructor
  · intro hall
    by_contra hno
    exact hall _ ((hcases (basura.so.entradas fdin).length _).2 hno (Nat.lt_succ_self _))
  · intro hin fuel
    cases fuel with
    | zero =>
      intro hrun
      cases hrun
    | succ fuel =>
      exact (hcases fuel (fuel + 1)).1 hin

/-- Variables over cleared memory, with `trozos` to come on the standard input. -/
def entradaCortada (trozos : List (List UInt8)) : Vars (Ficheros (List (List UInt8))) where
  a_Leer := 0
  leidos := 0
  num_read := 0
  puntero := 0
  contador := 0
  bufLectura := fun _ => 0
  bufEscritura := fun _ => 0
  so := { entradas := fun _ => trozos, salidas := fun _ => [] }

/-- `ab`, then `c` with a byte that is not printable before it: one run of two bytes comes out. -/
theorem mystrings_output_dos :
    ∃ K, ∀ fuel, K ≤ fuel →
      ∃ st', main (SO.completo leerTrozos) fuel 3 2 (entradaCortada [[97, 98], [0, 99]]) =
          .ok st' ∧
        st'.so.salidas fdout = [] ++ cadenas 2 [97, 98, 0, 99] ∧ st'.so.entradas fdin = [] := by
  refine (mystrings_output_iff (by decide) (by decide) (entradaCortada [[97, 98], [0, 99]])
    (by decide)).2 ⟨by unfold Cabe; decide, ?_⟩
  refine (sinCorte_cons _ _ _ _).2 ⟨by decide, (sinCorte_cons _ _ _ _).2 ⟨by decide, ?_⟩⟩
  exact sinCorte_nil _ _

/-- The reads deliver `ab`, a byte that is not printable, and `cd`: with runs of one byte wanted the
program writes `ab` and stops before `cd`. -/
theorem mystrings_stops_early :
    TrozosLegales 3 [[97, 98], [0], [99, 100]] ∧
    ¬ ∃ K, ∀ fuel, K ≤ fuel →
      ∃ st', main (SO.completo leerTrozos) fuel 3 1 (entradaCortada [[97, 98], [0], [99, 100]]) =
          .ok st' ∧
        st'.so.salidas fdout = [] ++ cadenas 1 [97, 98, 0, 99, 100] ∧
        st'.so.entradas fdin = [] := by
  refine ⟨by decide, ?_⟩
  rintro ⟨K, hK⟩
  obtain ⟨st', hrun, -, hent⟩ := hK (K + 3) (Nat.le_add_right K 3)
  -- whatever the bound on the iterations, the third piece is still there at the end
  have hleft : ∃ st1, main (SO.completo leerTrozos) (K + 3) 3 1
      (entradaCortada [[97, 98], [0], [99, 100]]) = .ok st1 ∧
      st1.so.salidas fdout = [97, 98] ∧ st1.so.entradas fdin = [[99, 100]] := ⟨_, rfl, rfl, rfl⟩
  obtain ⟨st1, hrun1, -, hent1⟩ := hleft
  obtain rfl : st1 = st' := Except.ok.inj (hrun1.symm.trans hrun)
  rw [hent1] at hent
  cases hent

/-- `mystrings -t 4` on `abcd`, a byte that is not printable, and `e`. -/
theorem mystrings_stores_cuatro :
    Argumentos.MyStrings.argumentos [['m'], ['-', 't'], ['4']] =
      .ok { buf_size := 4, min_length := 4, stderr := [] } ∧ ∀ fuel,
    main (SO.completo leerTrozos) fuel 4 4 (entradaCortada [[97, 98, 99, 100], [0, 101]]) ≠
      .error .desbordamiento := by
  have hargs : Argumentos.MyStrings.argumentos [['m'], ['-', 't'], ['4']] =
      .ok { buf_size := 4, min_length := 4, stderr := [] } := rfl
  refine ⟨hargs, ?_⟩
  refine (mystrings_stores_iff hargs (entradaCortada [[97, 98, 99, 100], [0, 101]]) (by decide)).2 ?_
  refine ⟨?_, ?_, trivial⟩
  · unfold Cabe
    decide
  · unfold Cabe
    decide

/-- `mystrings -t 4` on `abcde`, a run of one byte more than the buffer. -/
theorem mystrings_stores_outside :
    Argumentos.MyStrings.argumentos [['m'], ['-', 't'], ['4']] =
      .ok { buf_size := 4, min_length := 4, stderr := [] } ∧
    TrozosLegales 4 [[97, 98, 99, 100], [101]] ∧
    main (SO.completo leerTrozos) 2 4 4 (entradaCortada [[97, 98, 99, 100], [101]]) =
      .error .desbordamiento :=
  ⟨rfl, by decide, rfl⟩

end AsoPracticas.Tarea4.MyStrings
