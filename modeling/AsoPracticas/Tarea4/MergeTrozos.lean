import AsoPracticas.Tarea4.MergeFiles

/-!
# MergeTrozos — `merge_files` over inputs that arrive in pieces

A read of a pipe or a terminal may deliver less than was asked for although more is to come.
`merge_files` takes a read that does not fill the buffer for the end of the input: it marks the input in
the middle of the round, and what comes after is read and never placed.

* `merge_files_complete_iff` — all bytes are placed, and inputs are marked only then, exactly if only the
  last piece of an input is short and no flag of an input with bytes is set at the start;
* `merge_files_abandons` — two bytes in two pieces.
-/

namespace AsoPracticas.Tarea4.MergeFiles

variable {σ : Type}

/-! ## The visits of a run -/

/-- Byte, input and state with which the body of the inner loop is entered, after the flush. -/
abbrev Visita (σ : Type) := Nat × Nat × Vars σ

/-- The visits of `fila`. -/
def visitasFila (so : SO σ) (fuel buf_size numFicheros fdout v : Nat) : Nat → Nat → Vars σ → List (Visita σ)
  | 0, _, _ => []
  | n + 1, i, st =>
    if i < numFicheros then
      match vacia so fuel buf_size fdout st with
      | .error _ => []
      | .ok st =>
        let (repite, st') := baraja buf_size v i st
        (v, i, st) :: visitasFila so fuel buf_size numFicheros fdout v n (if repite then i else i + 1) st'
    else []

/-- The visits of the rows `vs`, one after the other. -/
def visitasFilas (so : SO σ) (fuel buf_size numFicheros fdout : Nat) : List Nat → Vars σ → List (Visita σ)
  | [], _ => []
  | v :: vs, st =>
    visitasFila so fuel buf_size numFicheros fdout v fuel 0 st ++
      match fila so fuel buf_size numFicheros fdout v fuel 0 st with
      | .error _ => []
      | .ok st => visitasFilas so fuel buf_size numFicheros fdout vs st

/-- The visits of `ronda`. -/
def visitasRonda (so : SO σ) (fuel buf_size numFicheros : Nat) (arrayFD : Nat → Nat) (fdout : Nat)
    (st : Vars σ) : List (Visita σ) :=
  match (List.range numFicheros).foldlM (lee so fuel buf_size arrayFD) { st with contador := 0 } with
  | .error _ => []
  | .ok st =>
    visitasFilas so fuel buf_size numFicheros fdout (List.range buf_size) { st with a_Escribir := 0, escritos := 0 }

/-- The visits of `mezcla`. -/
def visitasMezcla (so : SO σ) (fuel buf_size numFicheros : Nat) (arrayFD : Nat → Nat) (fdout : Nat) :
    Nat → Vars σ → List (Visita σ)
  | 0, _ => []
  | n + 1, st =>
    if st.contador ≠ numFicheros then
      visitasRonda so fuel buf_size numFicheros arrayFD fdout st ++
        match ronda so fuel buf_size numFicheros arrayFD fdout st with
        | .error _ => []
        | .ok st =>
          if fin numFicheros st = numFicheros then []
          else visitasMezcla so fuel buf_size numFicheros arrayFD fdout n st
    else []

/-- The visits of `main`. -/
def visitas (so : SO σ) (fuel buf_size numFicheros : Nat) (arrayFD : Nat → Nat) (fdout : Nat)
    (basura : Vars σ) : List (Visita σ) :=
  visitasMezcla so fuel buf_size numFicheros arrayFD fdout fuel { basura with contador := 0, punterowrite := 0 }

/-- The visit marks its input as finished. -/
def Marca (buf_size : Nat) (x : Visita σ) : Prop :=
  x.2.2.ficherosTerminados x.2.1 ≠ 1 ∧ (baraja buf_size x.1 x.2.1 x.2.2).2.ficherosTerminados x.2.1 = 1

/-- All bytes of input `i` are placed in `f`: after `S` it has the inputs `c` column by column, up to a
column beyond the end of that input. -/
def Colocado (k : Nat) (c : Nat → List UInt8) (S : List UInt8) (i : Nat) (f : List UInt8) : Prop :=
  ∃ P, (c i).length ≤ P ∧ f = S ++ (List.range P).flatMap (Lib.column ((List.range k).map c)) ++
    (List.range i).filterMap fun j => (c j)[P]?

/-! ## Marks -/

section Marks

variable {ρ : Type} {leer : ρ → Int → Int × List UInt8 × ρ} {B k fdout : Nat} {arrayFD : Nat → Nat}
  {vale : ρ → Prop} {alcance : ρ → List UInt8}

section Row

variable {c : Nat → List UInt8} {t0 : Nat → Int} {S : List UInt8} {ent : Nat → ρ} {v : Nat}

/-- What is known of a visit that marks its input in a round. -/
def BienMarcada (B k fdout : Nat) (c : Nat → List UInt8) (t0 : Nat → Int) (S : List UInt8)
    (x : Visita (Ficheros ρ)) : Prop :=
  x.1 < B ∧ x.2.1 < k ∧ (c x.2.1).length = x.1 ∧ t0 x.2.1 ≠ 1 ∧
    flujo fdout x.2.2 = S ++ (List.range x.1).flatMap (Lib.column ((List.range k).map c)) ++
      (List.range x.2.1).filterMap fun j => (c j)[x.1]?

theorem visitasFila_succ (hB : 1 ≤ B) {i : Nat} (fuel n : Nat) (hi : i < k) (st : Vars (Ficheros ρ)) :
    visitasFila (SO.completo leer) (fuel + 1) B k fdout v (n + 1) i st =
      (v, i, vaciado B fdout st) :: visitasFila (SO.completo leer) (fuel + 1) B k fdout v n
        (if (baraja B v i (vaciado B fdout st)).1 then i else i + 1)
        (baraja B v i (vaciado B fdout st)).2 := by
  rw [visitasFila, if_pos hi, vacia_completo leer hB]

theorem EnRonda.visitasFila (hB : 1 ≤ B) (ht0 : ∀ j < k, t0 j = 1 → c j = []) (hv : v < B) (fuel : Nat) :
    ∀ (m n i : Nat) (st : Vars (Ficheros ρ)), i + m = k → EnRonda B k fdout c t0 S ent v i st →
      ∀ x ∈ visitasFila (SO.completo leer) (fuel + 1) B k fdout v n i st, Marca B x →
        BienMarcada B k fdout c t0 S x := by
  intro m
  induction m with
  | zero =>
    intro n i st hik h x hx
    have hi : ¬ i < k := by omega
    cases n <;> simp [MergeFiles.visitasFila, hi] at hx
  | succ m ih =>
    intro n i st hik h x hx hmark
    have hi : i < k := by omega
    cases n with
    | zero =>
      cases hx
    | succ n =>
      rw [visitasFila_succ hB fuel n hi, List.mem_cons] at hx
      rcases h.visita hB ht0 hv hi with ⟨st1, hb, hsame, h₁⟩ | ⟨st1, hb, hlen, ht, hfin, hb', h₁⟩
      · grind [Marca, vaciado_ficherosTerminados]
      · rw [hb] at hx
        simp only [if_true] at hx
        rcases hx with rfl | hx
        · refine ⟨hv, hi, hlen, ht, ?_⟩
          rw [flujo_vaciado]
          exact h.flujo
        · -- the second visit finds the mark
          cases n with
          | zero =>
            cases hx
          | succ n =>
            rw [visitasFila_succ hB fuel n hi, List.mem_cons, hb'] at hx
            rcases hx with rfl | hx
            · simp [Marca, hfin] at hmark
            · exact ih n (i + 1) _ (by omega) h₁ x hx hmark

theorem EnRonda.visitasFilas (hB : 1 ≤ B) (ht0 : ∀ j < k, t0 j = 1 → c j = []) {fuel : Nat} (hfuel : 2 * k < fuel) :
    ∀ (m v : Nat) (st : Vars (Ficheros ρ)), v + m = B → EnRonda B k fdout c t0 S ent v 0 st →
      ∀ x ∈ visitasFilas (SO.completo leer) fuel B k fdout (List.range' v m) st, Marca B x →
        BienMarcada B k fdout c t0 S x := by
  intro m
  obtain ⟨f, rfl⟩ := Nat.exists_eq_succ_of_ne_zero (by omega : fuel ≠ 0)
  induction m with
  | zero =>
    intro v st _ _ x hx
    cases hx
  | succ m ih =>
    intro v st hvm h x hx hmark
    have hv : v < B := by omega
    obtain ⟨st', hrun, hend⟩ := EnRonda.fila leer hB ht0 hv f k (f + 1) 0 st (by omega) hfuel h
    rw [List.range'_succ, MergeFiles.visitasFilas, hrun, List.mem_append] at hx
    rcases hx with hx | hx
    · exact h.visitasFila hB ht0 hv f k (f + 1) 0 st (by omega) x hx hmark
    · exact ih (v + 1) st' (by omega) hend.siguiente x hx hmark

end Row

theorem BienMarcada.colocado (hlee : Lector B leer vale alcance) {st : Vars (Ficheros ρ)}
    (hvale : Valen vale k arrayFD st) {x : Visita (Ficheros ρ)}
    (h : BienMarcada B k fdout (trozo leer B arrayFD st) st.ficherosTerminados (flujo fdout st) x) :
    Colocado k (alcanza alcance arrayFD st) (flujo fdout st) x.2.1 (flujo fdout x.2.2) := by
  obtain ⟨hv, hi, hlen, ht, hflow⟩ := h
  refine ⟨x.1, ?_, ?_⟩
  · rw [trozo, if_neg ht] at hlen
    have hshort : (leer (entrada arrayFD st x.2.1) B).2.1.length ≠ B := by omega
    rw [alcanza, if_neg ht, hlee.alcance _ (hvale _ hi), if_neg hshort, List.append_nil]
    omega
  · rw [hflow, flatMap_column_trozo hlee hvale hv.le]
    refine congrArg _ (List.filterMap_congr fun j hj => ?_)
    exact getElem?_trozo hlee hvale ((List.mem_range.1 hj).trans hi) hv

theorem Colocado.of_ronda {vivo : Vars (Ficheros ρ) → Nat → List UInt8} {st st' : Vars (Ficheros ρ)}
    {i : Nat} {f : List UInt8} (hr : RondaHecha B k fdout vivo st st') (hi : i < k)
    (h : Colocado k (vivo st') (flujo fdout st') i f) : Colocado k (vivo st) (flujo fdout st) i f := by
  obtain ⟨P, hP, hf⟩ := h
  refine ⟨B + P, ?_, ?_⟩
  · rw [hr.resto i hi, List.length_drop] at hP
    omega
  · have hcols : (List.range P).flatMap (Lib.column ((List.range k).map (vivo st'))) =
        ((List.range P).map (B + ·)).flatMap (Lib.column ((List.range k).map (vivo st))) := by
      rw [hr.map_vivo, List.flatMap_map]
      exact List.flatMap_congr fun p _ => Lib.column_map_drop _ B p
    grind [List.filterMap_congr, List.range_add]

theorem visitasMezcla_colocado (hlee : Lector B leer vale alcance) (hB : 1 ≤ B)
    (hfd : ∀ i < k, ∀ j < k, arrayFD i = arrayFD j → i = j) {fuel : Nat} (hfuel : 2 * k < fuel) :
    ∀ (n : Nat) (st : Vars (Ficheros ρ)), Valen vale k arrayFD st → EnCabeza B k st →
      ∀ x ∈ visitasMezcla (SO.completo leer) fuel B k arrayFD fdout n st, Marca B x →
        x.2.1 < k ∧ Colocado k (alcanza alcance arrayFD st) (flujo fdout st) x.2.1 (flujo fdout x.2.2) := by
  intro n
  induction n with
  | zero =>
    intro st _ _ x hx
    cases hx
  | succ n ih =>
    intro st hvale h x hx hmark
    rw [visitasMezcla, if_pos h.sigue, List.mem_append] at hx
    rcases hx with hx | hx
    · obtain ⟨f, rfl⟩ := Nat.exists_eq_succ_of_ne_zero (by omega : fuel ≠ 0)
      obtain ⟨st1, hread, hl⟩ := leyendo_run hlee hB hfd f { st with contador := 0 } hvale
      have hstart : EnRonda B k fdout (trozo leer B arrayFD st) st.ficherosTerminados
          (flujo fdout st) st1.so.entradas 0 0 { st1 with a_Escribir := 0, escritos := 0 } :=
        h.enRonda hlee hB hvale hl
      rw [visitasRonda, hread, List.range_eq_range'] at hx
      have hgood := hstart.visitasFilas hB (fun j _ h1 => by simp [trozo, h1]) hfuel B 0 _ (Nat.zero_add B) x hx hmark
      exact ⟨hgood.2.1, hgood.colocado hlee hvale⟩
    · obtain ⟨st1, hrun, hvale1, hr⟩ := ronda_lector hlee fdout hB hfd hfuel hvale h
      rw [hrun] at hx
      by_cases hfin : fin k st1 = k
      · simp [hfin] at hx
      · simp only [hfin, if_false] at hx
        obtain ⟨hi, hplaced⟩ := ih st1 hvale1 (hr.enCabeza hfin).2 x hx hmark
        exact ⟨hi, hplaced.of_ronda hr hi⟩

end Marks

/-! ## Inputs in pieces -/

/-- An input that arrives in pieces of 1 to `B` bytes. -/
abbrev Llegada (B : Nat) := { trozos : List (List UInt8) // TrozosLegales B trozos }

/-- `read` delivers the next piece, and 0 bytes once there is none. -/
def leerLlegada {B : Nat} : Llegada B → Int → Int × List UInt8 × Llegada B
  | ⟨[], h⟩, _ => (0, [], ⟨[], h⟩)
  | ⟨t :: ts, h⟩, _ => (t.length, t, ⟨ts, fun u hu => h u (List.mem_cons_of_mem t hu)⟩)

/-- The bytes of an input up to the first piece that does not fill the buffer. -/
def alcance (B : Nat) : List (List UInt8) → List UInt8
  | [] => []
  | t :: ts => t ++ if t.length = B then alcance B ts else []

/-- Only the last piece does not fill the buffer. -/
def Enteros (B : Nat) (trozos : List (List UInt8)) : Prop := ∀ t ∈ trozos.dropLast, t.length = B

instance (B : Nat) (trozos : List (List UInt8)) : Decidable (Enteros B trozos) :=
  inferInstanceAs (Decidable (∀ t ∈ trozos.dropLast, t.length = B))

section Pieces

variable {B k fdout : Nat} {arrayFD : Nat → Nat} {basura : Vars (Ficheros (Llegada B))}

theorem lector_llegada (hB : 1 ≤ B) : Lector B leerLlegada (fun _ => True) fun r : Llegada B => alcance B r.1 where
  cuenta := by
    rintro ⟨- | ⟨t, ts⟩, h⟩ - <;> rfl
  cabe := by
    rintro ⟨- | ⟨t, ts⟩, h⟩ -
    · exact Nat.zero_le B
    · exact (h t List.mem_cons_self).2
  alcance := by
    rintro ⟨- | ⟨t, ts⟩, h⟩ -
    all_goals grind [leerLlegada, alcance]
  sigue _ _ := trivial

theorem length_alcance_le (trozos : List (List UInt8)) : (alcance B trozos).length ≤ trozos.flatten.length := by
  induction trozos with
  | nil => exact Nat.le_refl _
  | cons t ts ih => grind [alcance]

theorem alcance_eq_flatten_iff {trozos : List (List UInt8)} (h : TrozosLegales B trozos) :
    (alcance B trozos).length = trozos.flatten.length ↔ Enteros B trozos := by
  induction trozos with
  | nil => simp [alcance, Enteros]
  | cons t ts ih =>
    have ih := ih fun u hu => h u (List.mem_cons_of_mem t hu)
    cases ts with
    | nil => simp [alcance, Enteros]
    | cons u us =>
      have hu := (h u (by simp)).1
      by_cases ht : t.length = B
      · simp only [alcance, ht, if_true, List.flatten_cons, List.length_append] at ih ⊢
        simpa [Enteros, ht] using ih
      · simp only [alcance, ht, if_false, List.flatten_cons, List.length_append, List.append_nil]
        have hnot : ¬ Enteros B (t :: u :: us) := fun hall => ht (hall t (by simp))
        refine iff_of_false ?_ hnot
        omega

theorem alcance_eq_flatten {trozos : List (List UInt8)} (h : Enteros B trozos) : alcance B trozos = trozos.flatten := by
  induction trozos with
  | nil => rfl
  | cons t ts ih =>
    cases ts with
    | nil => simp [alcance]
    | cons u us => grind [Enteros, alcance]

/-- The bytes of input `j`. -/
def contenido (arrayFD : Nat → Nat) (st : Vars (Ficheros (Llegada B))) (j : Nat) : List UInt8 :=
  (st.so.entradas (arrayFD j)).1.flatten

/-- What is expected of a run: it returns, every byte of every input is in the output exactly once, and
an input is marked only after all its bytes have been placed. -/
def Completa (B k fdout : Nat) (arrayFD : Nat → Nat) (basura : Vars (Ficheros (Llegada B))) (fuel : Nat) :
    Prop :=
  (∃ st' salida, main (SO.completo leerLlegada) fuel B k arrayFD fdout basura = .ok st' ∧
    st'.so.salidas fdout = basura.so.salidas fdout ++ salida ∧
    salida.Perm ((List.range k).map (contenido arrayFD basura)).flatten) ∧
  ∀ x ∈ visitas (SO.completo leerLlegada) fuel B k arrayFD fdout basura, Marca B x →
    Colocado k (contenido arrayFD basura) (basura.so.salidas fdout) x.2.1 (flujo fdout x.2.2)

/-- The inputs on which `merge_files` abandons nothing. -/
def SinCortes (B k : Nat) (arrayFD : Nat → Nat) (basura : Vars (Ficheros (Llegada B))) : Prop :=
  ∀ j < k, (basura.ficherosTerminados j = 1 → (basura.so.entradas (arrayFD j)).1 = []) ∧
    Enteros B (basura.so.entradas (arrayFD j)).1

instance (B k : Nat) (arrayFD : Nat → Nat) (basura : Vars (Ficheros (Llegada B))) :
    Decidable (SinCortes B k arrayFD basura) :=
  inferInstanceAs (Decidable (∀ j < k,
    (basura.ficherosTerminados j = 1 → (basura.so.entradas (arrayFD j)).1 = []) ∧
      Enteros B (basura.so.entradas (arrayFD j)).1))

theorem SinCortes.alcanza_eq (h : SinCortes B k arrayFD basura)
    {j : Nat} (hj : j < k) :
    alcanza (fun r : Llegada B => alcance B r.1) arrayFD basura j = contenido arrayFD basura j := by
  obtain ⟨hflag, hwhole⟩ := h j hj
  by_cases h1 : basura.ficherosTerminados j = 1
  · simp [alcanza, h1, contenido, hflag h1]
  · rw [alcanza, if_neg h1]
    exact alcance_eq_flatten hwhole

/-- A run that places all bytes has no cut: the lengths of what is taken and of the inputs agree. -/
theorem sinCortes_of_completa (hB : 1 ≤ B) (hk : 1 ≤ k)
    (hfd : ∀ i < k, ∀ j < k, arrayFD i = arrayFD j → i = j)
    (h : ∃ N, ∀ fuel, N ≤ fuel → Completa B k fdout arrayFD basura fuel) :
    SinCortes B k arrayFD basura := by
  obtain ⟨N, hN⟩ := main_lector (lector_llegada hB) fdout hB hk hfd basura fun _ _ => trivial
  obtain ⟨M, hM⟩ := h
  obtain ⟨st', hrun, hout⟩ := hN (max M N) (Nat.le_max_right M N)
  obtain ⟨⟨st'', salida, hrun', hout', hperm⟩, -⟩ := hM (max M N) (Nat.le_max_left M N)
  rw [hrun] at hrun'
  cases hrun'
  rw [hout] at hout'
  have hlen : (Lib.interleave ((List.range k).map
      (alcanza (fun r : Llegada B => alcance B r.1) arrayFD basura))).length =
      (Lib.interleave ((List.range k).map (contenido arrayFD basura))).length := by
    rw [List.append_cancel_left hout', hperm.length_eq, (Lib.interleave_perm _).length_eq]
  have hle : ∀ j < k, (alcanza (fun r : Llegada B => alcance B r.1) arrayFD basura j).length ≤
      (contenido arrayFD basura j).length := by
    intro j _
    unfold alcanza contenido
    split
    · exact Nat.zero_le _
    · exact length_alcance_le _
  intro j hj
  have heq := Lib.length_eq_of_interleave hle hlen j hj
  have hlegal := (basura.so.entradas (arrayFD j)).2
  by_cases h1 : basura.ficherosTerminados j = 1
  · rw [alcanza, if_pos h1] at heq
    have hnil : (basura.so.entradas (arrayFD j)).1 = [] := by
      rw [List.eq_nil_iff_forall_not_mem]
      intro t ht
      have hmem : t.length ≤ (basura.so.entradas (arrayFD j)).1.flatten.length := by
        rw [List.length_flatten]
        exact List.le_sum_of_mem (List.mem_map_of_mem ht)
      have hpos := (hlegal t ht).1
      grind [contenido]
    exact ⟨fun _ => hnil, by simp [hnil, Enteros]⟩
  · rw [alcanza, if_neg h1] at heq
    exact ⟨fun h => absurd h h1, (alcance_eq_flatten_iff hlegal).1 heq⟩

theorem completa_of_sinCortes (hB : 1 ≤ B) (hk : 1 ≤ k)
    (hfd : ∀ i < k, ∀ j < k, arrayFD i = arrayFD j → i = j)
    (h : SinCortes B k arrayFD basura) :
    ∃ N, ∀ fuel, N ≤ fuel → Completa B k fdout arrayFD basura fuel := by
  obtain ⟨N, hN⟩ := main_lector (lector_llegada hB) fdout hB hk hfd basura fun _ _ => trivial
  have hmap : (List.range k).map (alcanza (fun r : Llegada B => alcance B r.1) arrayFD basura) =
      (List.range k).map (contenido arrayFD basura) :=
    List.map_congr_left fun j hj => h.alcanza_eq (List.mem_range.1 hj)
  refine ⟨max N (2 * k + 1), fun fuel hfuel => ⟨?_, fun x hx hmark => ?_⟩⟩
  · obtain ⟨st', hrun, hout⟩ := hN fuel (by omega)
    grind [Lib.interleave_perm]
  · have hcab : EnCabeza B k { basura with contador := 0, punterowrite := 0 } :=
      ⟨Nat.zero_le B, .inr rfl, by show (0 : Int) ≠ k; omega⟩
    obtain ⟨hi, P, hP, hflow⟩ := visitasMezcla_colocado (lector_llegada hB) hB hfd
      (by omega : 2 * k < fuel) fuel _ (fun _ _ => trivial) hcab x hx hmark
    refine ⟨P, ?_, ?_⟩
    · rw [← h.alcanza_eq hi]
      exact hP
    · have hstart : flujo fdout { basura with contador := 0, punterowrite := 0 } =
          basura.so.salidas fdout := by simp [flujo]
      have hrow : (List.range x.2.1).filterMap (fun j =>
          (alcanza (fun r : Llegada B => alcance B r.1) arrayFD basura j)[P]?) =
          (List.range x.2.1).filterMap fun j => (contenido arrayFD basura j)[P]? :=
        List.filterMap_congr fun j hj => by rw [h.alcanza_eq ((List.mem_range.1 hj).trans hi)]
      rw [hflow, hstart, ← hmap, ← hrow]
      rfl

/-- With complete writes a run with enough fuel abandons no input exactly if only the last piece of every
input is short and the flag of no input with bytes is set at the start. -/
theorem merge_files_complete_iff (hB : 1 ≤ B) (hk : 1 ≤ k)
    (hfd : ∀ i < k, ∀ j < k, arrayFD i = arrayFD j → i = j) (basura : Vars (Ficheros (Llegada B))) :
    (∃ N, ∀ fuel, N ≤ fuel → Completa B k fdout arrayFD basura fuel) ↔ SinCortes B k arrayFD basura :=
  ⟨sinCortes_of_completa hB hk hfd, completa_of_sinCortes hB hk hfd⟩

/-- Uninitialised variables with clear flags, and one input, behind the descriptor 3, in `trozos`. -/
def basuraUno {B : Nat} (trozos : Llegada B) : Vars (Ficheros (Llegada B)) where
  contador := 7
  porEscribir := fun _ => 9
  ficherosTerminados := fun _ => 0
  cjtoBuffer := fun _ _ => 170
  bufSalida := fun _ => 170
  punterowrite := 5
  a_Escribir := 5
  escritos := 5
  num_read := 5
  so := { entradas := fun _ => trozos, salidas := fun _ => [] }

theorem merge_files_complete_tres :
    ∃ N, ∀ fuel, N ≤ fuel →
      Completa 2 1 1 (· + 3) (basuraUno ⟨[[1, 2], [3]], by decide⟩) fuel :=
  (merge_files_complete_iff (by decide) (by decide) (fun i _ j _ h => Nat.add_right_cancel h) _).2
    (by decide)

/-- Two bytes that arrive one at a time, with a buffer of two. -/
def unoAUno : Llegada 2 := ⟨[[1], [2]], by decide⟩

/-- The first read is taken for the end of the input, and the second byte is lost. -/
theorem merge_files_abandons :
    (∃ st', main (SO.completo leerLlegada) 4 2 1 (· + 3) 1 (basuraUno unoAUno) = .ok st' ∧
      st'.so.salidas 1 = [1]) ∧
    ¬ ∃ N, ∀ fuel, N ≤ fuel → Completa 2 1 1 (· + 3) (basuraUno unoAUno) fuel := by
  constructor
  · exact ⟨_, rfl, rfl⟩
  · intro h
    have hwhole := sinCortes_of_completa (by decide) (by decide)
      (fun i _ j _ h => Nat.add_right_cancel h) h
    exact absurd hwhole (by decide)

end Pieces

end AsoPracticas.Tarea4.MergeFiles
