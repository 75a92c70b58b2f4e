import AsoPracticas.Tarea4.MergeFiles

/-!
# Transferencias — partial transfers in the read and write loops

The loops of `merge_files`, `mystrings` and `split_files` are meant to repeat a `read` or a `write` that
transfers less than was asked for.  They go on only while the call fails, and then the count `-1` moves
the range to the left.  This file says for which systems one loop does what it is meant to do.

* `transfer_loops_iff` — one write loop delivers its bytes, inside the buffer, exactly if the first call
  takes all of them, and one read loop stays inside its buffer exactly if the first call does not fail;
* `transfer_loops_slip` — a call that fails once and a call that transfers a part.
-/

namespace AsoPracticas.Tarea4

variable {σ : Type}

/-! ## The ranges of the calls -/

/-- Offset and length of the ranges that `bucleEscritura` passes to `write`. -/
def rangosEscritura (so : SO σ) (fd : Nat) (buf : Memoria) (pedir : Int → Int) : Nat → Int → Int → σ → List (Int × Int)
  | 0, _, _, _ => []
  | fuel + 1, a_Escribir, escritos, s =>
    if a_Escribir > 0 then
      let (num_written, s') := so.write s fd (buf.rango escritos (pedir a_Escribir))
      (escritos, pedir a_Escribir) ::
        if num_written = -1 then
          rangosEscritura so fd buf pedir fuel (a_Escribir - num_written) (escritos + num_written) s'
        else []
    else []

/-- Offset and length of the ranges that `bucleLectura` passes to `read`. -/
def rangosLectura (so : SO σ) (fd : Nat) : Nat → (a_Leer leidos : Int) → σ → List (Int × Int)
  | 0, _, _, _ => []
  | fuel + 1, a_Leer, leidos, s =>
    if a_Leer > 0 then
      let (num_read, _, s') := so.read s fd a_Leer
      (leidos, a_Leer) ::
        if num_read = -1 then
          rangosLectura so fd fuel (a_Leer - num_read) (leidos + num_read) s'
        else []
    else []

/-- The range lies inside a buffer of `n` bytes. -/
def Dentro (n : Int) (r : Int × Int) : Prop := 0 ≤ r.1 ∧ r.1 + r.2 ≤ n

instance (n : Int) (r : Int × Int) : Decidable (Dentro n r) :=
  inferInstanceAs (Decidable (0 ≤ r.1 ∧ r.1 + r.2 ≤ n))

/-- A system whose calls fail and then transfer nothing, or transfer a part of the range from its start;
`entregado` is what has been written and `recibido` what has been read in a state. -/
@[grind cases eager]
structure SO.Legal (so : SO σ) (entregado recibido : σ → List UInt8) : Prop where
  write : ∀ s fd bytes, bytes ≠ [] → ((so.write s fd bytes).1 = -1 ∧ entregado (so.write s fd bytes).2 = entregado s) ∨
    ∃ n : Nat, (so.write s fd bytes).1 = n ∧ 1 ≤ n ∧ n ≤ bytes.length ∧
      entregado (so.write s fd bytes).2 = entregado s ++ bytes.take n
  read : ∀ s fd a, 0 < a →
    ((so.read s fd a).1 = -1 ∧ (so.read s fd a).2.1 = [] ∧ recibido (so.read s fd a).2.2 = recibido s) ∨
    ∃ n : Nat, (so.read s fd a).1 = n ∧ (n : Int) ≤ a ∧ (so.read s fd a).2.1.length = n ∧
      recibido (so.read s fd a).2.2 = recibido s ++ (so.read s fd a).2.1

variable {so : SO σ} {entregado recibido : σ → List UInt8} {fd : Nat}

/-! ## Write loops -/

/-- What is expected of the loop that writes the first `n` bytes of a buffer: it ends, every call stays
inside these bytes, and when it ends they have been delivered, once and in order. -/
structure Escribe (so : SO σ) (entregado : σ → List UInt8) (fd : Nat) (buf : Memoria)
    (pedir : Int → Int) (a_Escribir n : Int) (s : σ) : Prop where
  dentro : ∀ fuel, ∀ r ∈ rangosEscritura so fd buf pedir fuel a_Escribir 0 s, Dentro n r
  acaba : ∃ fuel st, bucleEscritura so fd buf pedir fuel a_Escribir 0 s = .ok st
  entrega : ∀ fuel a e s', bucleEscritura so fd buf pedir fuel a_Escribir 0 s = .ok (a, e, s') →
    entregado s' = entregado s ++ buf.rango 0 n

section Write

variable {buf : Memoria} {pedir : Int → Int} {a n : Int} {s : σ}

theorem bucleEscritura_of_ne (ha : 0 < a) {e : Int} (h : (so.write s fd (buf.rango e (pedir a))).1 ≠ -1) (fuel : Nat) :
    bucleEscritura so fd buf pedir (fuel + 1) a e s = .ok (a, e, (so.write s fd (buf.rango e (pedir a))).2) ∧
      rangosEscritura so fd buf pedir (fuel + 1) a e s = [(e, pedir a)] := by
  simp [bucleEscritura, rangosEscritura, ha, h]

theorem rangosEscritura_of_eq (ha : 0 < a) (h : (so.write s fd (buf.rango 0 (pedir a))).1 = -1) :
    rangosEscritura so fd buf pedir 2 a 0 s = [(0, pedir a), (-1, pedir (a + 1))] := by
  have ha' : 0 < a + 1 := by omega
  simp [rangosEscritura, ha, h, ha']

theorem escribe_iff (hso : so.Legal entregado recibido) (hn : 1 ≤ n) (ha : 0 < a) (hpedir : pedir a = n) :
    Escribe so entregado fd buf pedir a n s ↔ (so.write s fd (buf.rango 0 n)).1 = n := by
  have hne : buf.rango 0 n ≠ [] := by grind [Memoria.rango, List.length_nil]
  constructor
  · intro h
    rcases hso.write s fd _ hne with ⟨hfail, -⟩ | ⟨m, hm, -, hle, hout⟩
    · -- the second call starts before the buffer
      have hranges := rangosEscritura_of_eq ha (hpedir ▸ hfail)
      have hsecond := h.dentro 2 (-1, pedir (a + 1)) (by simp [hranges])
      exact absurd hsecond.1 (show ¬ (0 : Int) ≤ -1 by decide)
    · have hnot : (so.write s fd (buf.rango 0 (pedir a))).1 ≠ -1 := by
        rw [hpedir, hm]
        omega
      have hend := h.entrega 1 _ _ _ (bucleEscritura_of_ne ha hnot 0).1
      rw [hpedir, hout] at hend
      have hlen := congrArg List.length (List.append_cancel_left hend)
      grind [Memoria.rango]
  · intro h
    have hnot : (so.write s fd (buf.rango 0 (pedir a))).1 ≠ -1 := by
      rw [hpedir, h]
      omega
    refine ⟨fun fuel r hr => ?_, ⟨1, _, (bucleEscritura_of_ne ha hnot 0).1⟩, fun fuel a' e s' hrun => ?_⟩
    · cases fuel with
      | zero =>
        cases hr
      | succ fuel =>
        rw [(bucleEscritura_of_ne ha hnot fuel).2, List.mem_singleton] at hr
        rw [hr, hpedir]
        exact ⟨le_rfl, by simp⟩
    · cases fuel with
      | zero =>
        cases hrun
      | succ fuel => grind [Memoria.rango, bucleEscritura_of_ne, List.take_of_length_le]

end Write

/-! ## Read loops -/

/-- What is expected of the loop that reads into a buffer of `B` bytes: it ends, every call stays inside
the buffer, and when it ends the bytes counted in `num_read` are those received and stand at its start. -/
structure Lee (so : SO σ) (recibido : σ → List UInt8) (fd : Nat) (B : Int) (l : Lectura σ) : Prop where
  dentro : ∀ fuel, ∀ r ∈ rangosLectura so fd fuel B 0 l.so, Dentro B r
  acaba : ∃ fuel l', bucleLectura so fd fuel { l with a_Leer := B, leidos := 0 } = .ok l'
  recibe : ∀ fuel l', bucleLectura so fd fuel { l with a_Leer := B, leidos := 0 } = .ok l' →
    recibido l'.so = recibido l.so ++ l'.buf.rango 0 l'.num_read

section Read

variable {B : Int} {l : Lectura σ}

theorem bucleLectura_of_ne (ha : 0 < l.a_Leer) (h : (so.read l.so fd l.a_Leer).1 ≠ -1) (fuel : Nat) :
    bucleLectura so fd (fuel + 1) l = .ok { l with
        num_read := (so.read l.so fd l.a_Leer).1
        buf := l.buf.vuelca l.leidos (so.read l.so fd l.a_Leer).2.1
        so := (so.read l.so fd l.a_Leer).2.2 } ∧
      rangosLectura so fd (fuel + 1) l.a_Leer l.leidos l.so = [(l.leidos, l.a_Leer)] := by
  simp [bucleLectura, rangosLectura, ha, h]

theorem rangosLectura_of_eq {s : σ} (hB : 0 < B) (h : (so.read s fd B).1 = -1) :
    rangosLectura so fd 2 B 0 s = [(0, B), (-1, B + 1)] := by
  have hB' : 0 < B + 1 := by omega
  simp [rangosLectura, hB, h, hB']

theorem Memoria.rango_vuelca_zero (m : Memoria) (bytes : List UInt8) :
    (m.vuelca 0 bytes).rango 0 bytes.length = bytes := by
  apply List.ext_getElem
  all_goals grind [Memoria.vuelca, Memoria.rango]

theorem lee_iff (hso : so.Legal entregado recibido) (hB : 0 < B) :
    Lee so recibido fd B l ↔ (so.read l.so fd B).1 ≠ -1 := by
  constructor
  · intro h hfail
    have hsecond := h.dentro 2 (-1, B + 1) (by simp [rangosLectura_of_eq hB hfail])
    exact absurd hsecond.1 (show ¬ (0 : Int) ≤ -1 by decide)
  · intro h
    have hrun := bucleLectura_of_ne (l := { l with a_Leer := B, leidos := 0 }) hB h
    refine ⟨fun fuel r hr => ?_, ⟨1, _, (hrun 0).1⟩, fun fuel l' hl' => ?_⟩
    · cases fuel with
      | zero =>
        cases hr
      | succ fuel =>
        rw [(hrun fuel).2, List.mem_singleton] at hr
        rw [hr]
        exact ⟨le_rfl, by simp⟩
    · cases fuel with
      | zero =>
        cases hl'
      | succ fuel => grind [Memoria.rango_vuelca_zero]

end Read

/-- The read loop of `merge_files` is the one of the other programs: what its body does for a count of
`0` is never done. -/
theorem MergeFiles.leeEntrada_eq (so : SO σ) (fd i fuel : Nat) (a_Leer leidos : Int) (st : MergeFiles.Vars σ) :
    MergeFiles.leeEntrada so fd i fuel a_Leer leidos st =
      (bucleLectura so fd fuel
        { a_Leer := a_Leer
          leidos := leidos
          num_read := st.num_read
          buf := st.cjtoBuffer i
          so := st.so }).map fun l => { st with
            cjtoBuffer := Function.update st.cjtoBuffer i l.buf
            num_read := l.num_read
            so := l.so } := by
  induction fuel generalizing a_Leer leidos st with
  | zero => rfl
  | succ fuel ih =>
    simp only [MergeFiles.leeEntrada, bucleLectura]
    by_cases ha : a_Leer > 0
    · by_cases hfail : (so.read st.so fd a_Leer).1 = -1
      · simp only [ha, hfail, if_true, ih]
        simp [Function.update_idem]
      · simp [ha, hfail, Except.map]
    · simp [ha, Except.map]

/-! ## All loops -/

/-- One loop on its own, for every system that may fail or transfer a part.  A write loop (with
`pedir = id` where the source asks for `a_Escribir` bytes, and with `pedir` constant in the last flush of
`split_files`) does what is expected exactly if its first call takes all the bytes; a read loop exactly if
its first call does not fail, and the loop of `merge_files` leaves what that loop leaves. -/
theorem transfer_loops_iff (hso : so.Legal entregado recibido) (fd : Nat) :
    (∀ buf pedir a n s, 1 ≤ n → 0 < a → pedir a = n →
      (Escribe so entregado fd buf pedir a n s ↔ (so.write s fd (buf.rango 0 n)).1 = n)) ∧
    (∀ B l, 0 < B → (Lee so recibido fd B l ↔ (so.read l.so fd B).1 ≠ -1)) ∧
    ∀ i fuel a_Leer leidos st, MergeFiles.leeEntrada so fd i fuel a_Leer leidos st =
      (bucleLectura so fd fuel
        { a_Leer := a_Leer
          leidos := leidos
          num_read := st.num_read
          buf := st.cjtoBuffer i
          so := st.so }).map fun l => { st with
            cjtoBuffer := Function.update st.cjtoBuffer i l.buf
            num_read := l.num_read
            so := l.so } :=
  ⟨fun _ _ _ _ _ hn ha hpedir => escribe_iff hso hn ha hpedir, fun _ _ hB => lee_iff hso hB,
    fun i fuel a_Leer leidos st => MergeFiles.leeEntrada_eq so fd i fuel a_Leer leidos st⟩

/-- A system that follows a list of results, where `-1` is a failure, and then completes every call.
The state is the list, what has been written and what has been read. -/
def SO.guion : SO (List Int × List UInt8 × List UInt8) where
  write s _ bytes :=
    match s.1 with
    | [] => (bytes.length, [], s.2.1 ++ bytes, s.2.2)
    | r :: rs =>
      if 1 ≤ r ∧ r ≤ bytes.length then (r, rs, s.2.1 ++ bytes.take r.toNat, s.2.2)
      else (-1, rs, s.2)
  read s _ a :=
    match s.1 with
    | [] => (a, List.replicate a.toNat 65, [], s.2.1, s.2.2 ++ List.replicate a.toNat 65)
    | r :: rs =>
      if 1 ≤ r ∧ r ≤ a then
        (r, List.replicate r.toNat 65, rs, s.2.1, s.2.2 ++ List.replicate r.toNat 65)
      else (-1, [], rs, s.2)

theorem SO.guion_legal : SO.guion.Legal (fun s => s.2.1) fun s => s.2.2 where
  write s fd bytes hne := by
    have hlen : 1 ≤ bytes.length := List.length_pos_iff.2 hne
    obtain ⟨_ | ⟨r, rs⟩, e, i⟩ := s
    · exact .inr ⟨bytes.length, rfl, hlen, le_rfl, by simp [SO.guion]⟩
    · by_cases hr : 1 ≤ r ∧ r ≤ bytes.length
      all_goals grind [SO.guion]
  read s fd a ha := by
    obtain ⟨_ | ⟨r, rs⟩, e, i⟩ := s
    · grind [SO.guion]
    · by_cases hr : 1 ≤ r ∧ r ≤ a
      all_goals grind [SO.guion]

def bufNumerado : Memoria := fun j => UInt8.ofNat j.toNat

theorem transfer_loops_guion :
    Escribe SO.guion (fun s => s.2.1) 1 bufNumerado id 3 3 ([3], [], []) ∧
    Lee SO.guion (fun s => s.2.2) 0 4
      { a_Leer := 4, leidos := 0, num_read := 0, buf := fun _ => 170, so := ([2], [], []) } :=
  ⟨((transfer_loops_iff SO.guion_legal 1).1 bufNumerado id 3 3 _ (by decide) (by decide) rfl).2 (by decide),
    ((transfer_loops_iff SO.guion_legal 0).2.1 4 _ (by decide)).2 (by decide)⟩

/-- Three bytes to write.  If the first `write` fails, the second one is asked for four bytes from one
before the buffer; if the first one takes one byte, the loop ends with two bytes not written.  If the
first `read` fails, the second one stores five bytes from one before the buffer of four. -/
theorem transfer_loops_slip :
    rangosEscritura SO.guion 1 bufNumerado id 2 3 0 ([-1], [], []) = [(0, 3), (-1, 4)] ∧
    (bucleEscritura SO.guion 1 bufNumerado id 2 3 0 ([1], [], [])).map (fun r => r.2.2.2.1) = .ok [0] ∧
    rangosLectura SO.guion 0 2 4 0 ([-1], [], []) = [(0, 4), (-1, 5)] ∧
    ¬ Escribe SO.guion (fun s => s.2.1) 1 bufNumerado id 3 3 ([-1], [], []) ∧
    ¬ Escribe SO.guion (fun s => s.2.1) 1 bufNumerado id 3 3 ([1], [], []) ∧
    ¬ Lee SO.guion (fun s => s.2.2) 0 4
      { a_Leer := 4, leidos := 0, num_read := 0, buf := fun _ => 170, so := ([-1], [], []) } := by
  refine ⟨rfl, rfl, rfl, ?_, ?_, ?_⟩
  · intro h
    exact absurd ((escribe_iff SO.guion_legal (by decide) (by decide) rfl).1 h) (by decide)
  · intro h
    exact absurd ((escribe_iff SO.guion_legal (by decide) (by decide) rfl).1 h) (by decide)
  · rw [lee_iff SO.guion_legal (by decide)]
    decide

end AsoPracticas.Tarea4
