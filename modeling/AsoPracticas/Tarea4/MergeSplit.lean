import AsoPracticas.Tarea4.MergeFiles
import AsoPracticas.Tarea4.SplitFiles

/-!
# MergeSplit — `merge_files` and `split_files` as inverses

Splitting a stream into `k` files and merging them, and merging `k` balanced files and splitting the
result.  `merge_files` never initialises `ficherosTerminados`, so what it writes depends on what that
array happens to contain: an input whose flag reads `1` from the start is skipped.  The results below
say exactly when the two programs undo each other.
-/

namespace AsoPracticas.Tarea4

/-- `split_files` returns on the state `sp`, and output file `i` then holds `ficheros i`. -/
def DivideEn (B k : Nat) (arrayFD : Nat → Nat)
    (sp : SplitFiles.Vars (Ficheros (List (List UInt8)))) (ficheros : Nat → List UInt8) : Prop :=
  ∃ N, ∀ fuel, N ≤ fuel →
    ∃ st', SplitFiles.main (SO.completo leerTrozos) fuel B k arrayFD sp = .ok st' ∧
      ∀ i < k, st'.so.salidas (arrayFD i) = ficheros i

/-- `merge_files` returns on the state `mg`, and has then written `salida`. -/
def MezclaEn (B k : Nat) (arrayFD : Nat → Nat) (fdout : Nat)
    (mg : MergeFiles.Vars (Ficheros (List UInt8))) (salida : List UInt8) : Prop :=
  ∃ N, ∀ fuel, N ≤ fuel →
    ∃ st', MergeFiles.main (SO.completo leerRegular) fuel B k arrayFD fdout mg = .ok st' ∧ st'.so.salidas fdout = salida

variable {B1 B2 k fdout : Nat} {fdS fdM : Nat → Nat} {sp : SplitFiles.Vars (Ficheros (List (List UInt8)))}
  {mg : MergeFiles.Vars (Ficheros (List UInt8))}

theorem mezclaEn_iff (hB : 1 ≤ B2) (hk : 1 ≤ k)
    (hfd : ∀ i < k, ∀ j < k, fdM i = fdM j → i = j) (hout : mg.so.salidas fdout = [])
    (salida : List UInt8) :
    MezclaEn B2 k fdM fdout mg salida ↔ salida = Lib.interleave (MergeFiles.vivos k fdM mg) := by
  obtain ⟨N, hN⟩ := MergeFiles.main_regular fdout hB hk hfd mg
  constructor
  · rintro ⟨M, hM⟩
    obtain ⟨st1, hrun1, hout1⟩ := hN (max N M) (Nat.le_max_left N M)
    grind [Nat.le_max_right]
  · rintro rfl
    refine ⟨N, ?_⟩
    grind

theorem divideEn_iff (hB : 1 ≤ B1) (hk : 1 ≤ k) (hfd : ∀ i < k, ∀ j < k, fdS i = fdS j → i = j)
    (htrozos : TrozosLegales B1 (sp.so.entradas SplitFiles.fdin))
    (hout : ∀ i < k, sp.so.salidas (fdS i) = []) (ficheros : Nat → List UInt8) :
    DivideEn B1 k fdS sp ficheros ↔ ∀ i < k, ficheros i = Lib.stride k i (sp.so.entradas SplitFiles.fdin).flatten := by
  obtain ⟨N, hN⟩ := SplitFiles.main_trozos hB hk hfd sp fun t ht => (htrozos t ht).1
  constructor
  · rintro ⟨M, hM⟩ i hi
    obtain ⟨st1, hrun1, hout1⟩ := hN (max N M) (Nat.le_max_left N M)
    grind [Nat.le_max_right]
  · intro h
    refine ⟨N, ?_⟩
    grind

/-- The merge is the interleaving of its inputs exactly when no input with a byte in it has its flag
set from the start. -/
theorem interleave_vivos_iff :
    Lib.interleave (MergeFiles.vivos k fdM mg) = Lib.interleave ((List.range k).map fun i => mg.so.entradas (fdM i)) ↔
      ∀ i < k, mg.so.entradas (fdM i) ≠ [] → mg.ficherosTerminados i ≠ 1 := by
  constructor
  · intro h i hi hne h1
    have hle : ∀ j < k, (MergeFiles.vivo fdM mg j).length ≤ (mg.so.entradas (fdM j)).length := by
      intro j _
      by_cases hj : mg.ficherosTerminados j = 1
      · simp [MergeFiles.vivo, hj]
      · simp [MergeFiles.vivo, hj, MergeFiles.resto]
    have hlen := Lib.length_eq_of_interleave hle (congrArg List.length h) i hi
    simp only [MergeFiles.vivo, h1, if_true, List.length_nil] at hlen
    exact hne (List.length_eq_zero_iff.1 hlen.symm)
  · intro h
    have hsame : MergeFiles.vivos k fdM mg = (List.range k).map fun i => mg.so.entradas (fdM i) := by
      refine List.map_congr_left ?_
      intro i hi
      by_cases h1 : mg.ficherosTerminados i = 1
      · have hnil : mg.so.entradas (fdM i) = [] := by
          by_contra hne
          exact h i (List.mem_range.1 hi) hne h1
        simp [MergeFiles.vivo, h1, hnil]
      · simp [MergeFiles.vivo, h1, MergeFiles.resto]
    rw [hsame]

theorem balanced_of_lengths {f : Nat → List UInt8} (hdec : ∀ i, i + 1 < k → (f (i + 1)).length ≤ (f i).length)
    (hone : (f 0).length ≤ (f (k - 1)).length + 1) :
    Lib.Balanced ((List.range k).map f) := by
  have hmono : ∀ j i, i ≤ j → j < k → (f j).length ≤ (f i).length := by
    intro j
    induction j with
    | zero =>
      intro i hij _
      have : i = 0 := by omega
      rw [this]
    | succ j ih => grind
  refine List.pairwise_iff_getElem.2 ?_
  intro i j hi hj hij
  simp only [List.length_map, List.length_range] at hi hj
  simp only [List.getElem_map, List.getElem_range]
  have h0 := hmono i 0 (Nat.zero_le i) hi
  have hlast := hmono (k - 1) j (by omega) (by omega)
  exact ⟨hmono j i (by omega) hj, by omega⟩

/-- `merge_files` and `split_files` undo each other exactly when no input of the merge that holds a
byte has its uninitialised flag equal to `1`:

* splitting a stream, however it is cut into reads, leaves `k` files whose merge is the stream;
* splitting the merge of `k` balanced files gives the files back. -/
theorem merge_split_inverse_iff (fdout : Nat) (hB1 : 1 ≤ B1) (hB2 : 1 ≤ B2) (hk : 1 ≤ k)
    (hS : ∀ i < k, ∀ j < k, fdS i = fdS j → i = j) (hM : ∀ i < k, ∀ j < k, fdM i = fdM j → i = j) :
    (∀ sp, TrozosLegales B1 (sp.so.entradas SplitFiles.fdin) →
      (∀ i < k, sp.so.salidas (fdS i) = []) →
      ∃ ficheros, DivideEn B1 k fdS sp ficheros ∧
        ∀ mg, (∀ i < k, mg.so.entradas (fdM i) = ficheros i) → mg.so.salidas fdout = [] →
          (MezclaEn B2 k fdM fdout mg (sp.so.entradas SplitFiles.fdin).flatten ↔
            ∀ i < k, i < (sp.so.entradas SplitFiles.fdin).flatten.length →
              mg.ficherosTerminados i ≠ 1)) ∧
    (∀ mg, (∀ i, i + 1 < k →
        (mg.so.entradas (fdM (i + 1))).length ≤ (mg.so.entradas (fdM i)).length) →
      (mg.so.entradas (fdM 0)).length ≤ (mg.so.entradas (fdM (k - 1))).length + 1 →
      mg.so.salidas fdout = [] →
      ∃ salida, MezclaEn B2 k fdM fdout mg salida ∧
        ∀ sp, TrozosLegales B1 (sp.so.entradas SplitFiles.fdin) →
          (sp.so.entradas SplitFiles.fdin).flatten = salida → (∀ i < k, sp.so.salidas (fdS i) = []) →
          (DivideEn B1 k fdS sp (fun i => mg.so.entradas (fdM i)) ↔
            ∀ i < k, mg.so.entradas (fdM i) ≠ [] → mg.ficherosTerminados i ≠ 1)) := by
  constructor
  · intro sp htrozos houtS
    refine ⟨fun i => Lib.stride k i (sp.so.entradas SplitFiles.fdin).flatten,
      (divideEn_iff hB1 hk hS htrozos houtS _).2 (fun _ _ => rfl), ?_⟩
    intro mg hfiles houtM
    generalize (sp.so.entradas SplitFiles.fdin).flatten = s at hfiles ⊢
    have hdeal : (List.range k).map (fun i => mg.so.entradas (fdM i)) = Lib.deal k s :=
      List.map_congr_left fun i hi => hfiles i (List.mem_range.1 hi)
    have hback : Lib.interleave ((List.range k).map fun i => mg.so.entradas (fdM i)) = s := by
      rw [hdeal, Lib.interleave_deal (by omega : 0 < k)]
    -- file `i` holds a byte exactly when the stream reaches position `i`
    have hbyte : ∀ i < k, mg.so.entradas (fdM i) ≠ [] ↔ i < s.length := by
      intro i hi
      have hhead : (mg.so.entradas (fdM i))[0]? = s[i]? := by
        rw [hfiles i hi, Lib.getElem?_stride hi, Nat.zero_mul, Nat.zero_add]
      rw [← List.length_pos_iff, ← not_iff_not, Nat.not_lt, Nat.not_lt,
        ← List.getElem?_eq_none_iff, ← List.getElem?_eq_none_iff, hhead]
    rw [mezclaEn_iff hB2 hk hM houtM, eq_comm]
    nth_rewrite 1 [← hback]
    rw [interleave_vivos_iff]
    exact forall₂_congr fun i hi => by rw [hbyte i hi]
  · intro mg hdec hone houtM
    refine ⟨_, (mezclaEn_iff hB2 hk hM houtM _).2 rfl, ?_⟩
    intro sp htrozos hstdin houtS
    rw [divideEn_iff hB1 hk hS htrozos houtS, ← interleave_vivos_iff, hstdin]
    generalize Lib.interleave (MergeFiles.vivos k fdM mg) = s
    have hbal := balanced_of_lengths (k := k) (f := fun i => mg.so.entradas (fdM i)) hdec hone
    constructor
    · intro h
      have hdeal : (List.range k).map (fun i => mg.so.entradas (fdM i)) = Lib.deal k s :=
        List.map_congr_left fun i hi => h i (List.mem_range.1 hi)
      rw [hdeal, Lib.interleave_deal (by omega : 0 < k)]
    · intro h i hi
      have hdeal := Lib.deal_interleave hbal
      simp only [List.length_map, List.length_range] at hdeal
      rw [← h] at hdeal
      have := congrArg (fun l => l[i]?) hdeal
      simpa [Lib.deal, hi] using this.symm

/-- The state of `split_files` for a standard input cut as `trozos` and empty output files. -/
def entradaCortada (trozos : List (List UInt8)) : SplitFiles.Vars (Ficheros (List (List UInt8))) where
  a_Leer := 0
  leidos := 0
  num_read := 0
  a_Escribir := 0
  escritos := 0
  punteroFicheroReferenciado := 0
  llenadoFicheros := fun _ => 0
  bufLectura := fun _ => 170
  cjtoBuffer := fun _ _ => 170
  so := { entradas := fun _ => trozos, salidas := fun _ => [] }

/-- The state of `merge_files` for the inputs `ficheros` behind the descriptors 3, 4, … when every
flag happens to hold `flag`. -/
def entradaFicheros (flag : Int) (ficheros : Nat → List UInt8) : MergeFiles.Vars (Ficheros (List UInt8)) where
  contador := 0
  porEscribir := fun _ => 9
  ficherosTerminados := fun _ => flag
  cjtoBuffer := fun _ _ => 170
  bufSalida := fun _ => 170
  punterowrite := 0
  a_Escribir := 5
  escritos := 5
  num_read := 5
  so := { entradas := fun fd => ficheros (fd - 3), salidas := fun _ => [] }

theorem merge_split_inverse_dos :
    (∃ ficheros, DivideEn 2 2 (· + 3) (entradaCortada [[7, 8], [9]]) ficheros ∧
      ∀ mg, (∀ i < 2, mg.so.entradas (i + 3) = ficheros i) → mg.so.salidas 1 = [] →
        (MezclaEn 5 2 (· + 3) 1 mg [7, 8, 9] ↔
          ∀ i < 2, i < 3 → mg.ficherosTerminados i ≠ 1)) ∧
    (∃ salida, MezclaEn 5 2 (· + 3) 1 (entradaFicheros 0 fun i => [[7, 9], [8]].getD i []) salida ∧
      ∀ sp, TrozosLegales 2 (sp.so.entradas SplitFiles.fdin) →
        (sp.so.entradas SplitFiles.fdin).flatten = salida →
        (∀ i < 2, sp.so.salidas (i + 3) = []) →
        (DivideEn 2 2 (· + 3) sp (fun i => [[7, 9], [8]].getD i []) ↔
          ∀ i < 2, [[7, 9], [8]].getD i ([] : List UInt8) ≠ [] → (0 : Int) ≠ 1)) :=
  have hfd : ∀ i < 2, ∀ j < 2, i + 3 = j + 3 → i = j := fun _ _ _ _ h => Nat.add_right_cancel h
  have h := merge_split_inverse_iff 1 (by decide : 1 ≤ 2) (by decide : 1 ≤ 5)
    (by decide : 1 ≤ 2) hfd hfd
  ⟨h.1 (entradaCortada [[7, 8], [9]]) (by decide) (fun _ _ => rfl),
    h.2 (entradaFicheros 0 fun i => [[7, 9], [8]].getD i [])
      (fun i hi => match i, hi with | 0, _ => by decide) (by decide) rfl⟩

/-- One file of one byte whose flag happens to hold `1`: the split is right, and the merge of its
only file is not the stream. -/
theorem merge_split_inverse_flag_set :
    DivideEn 4 1 (· + 3) (entradaCortada [[65]])
      (fun i => (entradaFicheros 1 fun _ => [65]).so.entradas (i + 3)) ∧
    ¬ MezclaEn 4 1 (· + 3) 1 (entradaFicheros 1 fun _ => [65])
      ((entradaCortada [[65]]).so.entradas SplitFiles.fdin).flatten := by
  have hfd : ∀ i < 1, ∀ j < 1, i + 3 = j + 3 → i = j := fun _ _ _ _ h => Nat.add_right_cancel h
  constructor
  · refine (divideEn_iff (by decide) (by decide) hfd (by decide) (fun _ _ => rfl) _).2 ?_
    intro i hi
    obtain rfl : i = 0 := by omega
    decide
  · rw [mezclaEn_iff (by decide) (by decide) hfd rfl]
    decide

end AsoPracticas.Tarea4
