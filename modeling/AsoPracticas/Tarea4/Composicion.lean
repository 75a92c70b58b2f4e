import AsoPracticas.Tarea4.Acuerdo
import AsoPracticas.Tarea4.MergeSplit
import AsoPracticas.Tarea4.MyStrings

/-!
# Composicion — the bytes through the whole pipeline

`merge_mystrings_split` joins `merge_files`, `mystrings` and `split_files` with two pipes.  What the pipes do to the
bytes is to cut them: each read delivers the next piece, of any length up to what was asked for.  The results of the
three programs compose, and `mystrings` is the only one to which the cuts matter.  It runs with a minimum length of 4,
whatever the command line says.

* `Encadena` — the stages take the request from their vectors and run on it, each over what the one before has written;
* `pipeline_strings` — which command lines and bytes make the output files hold the strings of the inputs.
-/

namespace AsoPracticas.Tarea4

open Argumentos (Peticion pedido Entienden)
open Lib (Word)
open MyStrings (cadenas Cabe SinCorte fdout)

variable (v : Argumentos.MergeMystringsSplit.Vectores) (p : Peticion) (B N : Nat) (fdM fdS : Nat → Nat)
  (mg : MergeFiles.Vars (Ficheros (List UInt8)))
  (ms : MyStrings.Vars (Ficheros (List (List UInt8)))) (sp : SplitFiles.Vars (Ficheros (List (List UInt8))))
  (ficheros : Nat → List UInt8)

/-- What comes through the pipes into `mystrings` and into `split_files`, read by read. -/
abbrev entraM : List (List UInt8) := ms.so.entradas MyStrings.fdin
abbrev entraS : List (List UInt8) := sp.so.entradas SplitFiles.fdin

/-- `mystrings` returns on the state `ms`, with all its input read, and has then written `salida`. -/
def ExtraeEn (salida : List UInt8) : Prop :=
  ∃ K, ∀ fuel, K ≤ fuel →
    ∃ st', MyStrings.main (SO.completo leerTrozos) fuel B N ms = .ok st' ∧
      st'.so.salidas fdout = salida ∧ st'.so.entradas MyStrings.fdin = []

/-- The three programs take the request `p` from their vectors and return, each pipe delivers what the program before
it has written, and output file `i` then holds `ficheros i`. -/
structure Encadena : Prop where
  arranca : Entienden v p
  mezcla : MezclaEn p.bufsize.toNat p.entradas.length fdM fdout mg (entraM ms).flatten
  extrae : ExtraeEn p.bufsize.toNat p.minlength.toNat ms (entraS sp).flatten
  divide : DivideEn p.bufsize.toNat p.salidas.length fdS sp ficheros

variable {v p B N fdM fdS mg ms sp ficheros}

theorem extraeEn_iff (hN : 1 ≤ N) (hNB : N ≤ B) (hleg : TrozosLegales B (entraM ms))
    (hout : ms.so.salidas fdout = []) :
    ExtraeEn B N ms (cadenas N (entraM ms).flatten) ↔
      Cabe B (entraM ms).flatten ∧ SinCorte N [] (entraM ms) := by
  -- what a run leaves does not depend on the bound, once there is a turn for each read
  have hrun := fun fuel (hfuel : (entraM ms).length < fuel + 1) =>
    MyStrings.recorre_iff hN hNB fuel _ (fuel + 1) [] _ hfuel (fun t ht => (hleg t ht).1)
      (MyStrings.enEspera_inicio B N ms)
  simp only [hout, List.nil_append] at hrun
  constructor
  · rintro ⟨K, hK⟩
    exact (hrun (K + (entraM ms).length) (by omega)).1 (hK _ (by omega))
  · intro hcond
    refine ⟨(entraM ms).length + 1, fun fuel hfuel => ?_⟩
    obtain ⟨f, rfl⟩ := Nat.exists_eq_add_of_le' (Nat.le_trans (Nat.le_add_left 1 _) hfuel)
    exact (hrun f (by omega)).2 hcond

theorem ExtraeEn.eq {salida salida' : List UInt8} (h : ExtraeEn B N ms salida) (h' : ExtraeEn B N ms salida') :
    salida = salida' := by
  obtain ⟨K, hK⟩ := h
  obtain ⟨K', hK'⟩ := h'
  obtain ⟨st, hrun, hout, -⟩ := hK (max K K') (Nat.le_max_left K K')
  obtain ⟨st', hrun', hout', -⟩ := hK' (max K K') (Nat.le_max_right K K')
  cases hrun.symm.trans hrun'
  exact hout.symm.trans hout'

/-- The pipeline of an accepted command line, over its inputs and for pipes that cut the bytes in any way.  When no
string is longer than the buffer and no cut makes `mystrings` stop, the programs run to their end exactly when they
understand their vectors and the first pipe carries the inputs column by column, the second one the strings of these,
and the output files these dealt out byte by byte.  When the second pipe carries the strings at the end of a run, no
string was too long and no cut did any harm, and merging the output files gives the strings back. -/
theorem pipeline_strings {argv : List Word} (hmain : Argumentos.MergeMystringsSplit.main argv = .ok v)
    (hp : p = { pedido argv with minlength := 4 })
    (hM : ∀ i < p.entradas.length, ∀ j < p.entradas.length, fdM i = fdM j → i = j)
    (hS : ∀ i < p.salidas.length, ∀ j < p.salidas.length, fdS i = fdS j → i = j)
    (hflags : ∀ i < p.entradas.length, mg.so.entradas (fdM i) ≠ [] → mg.ficherosTerminados i ≠ 1)
    (hmg : mg.so.salidas fdout = []) (hms : ms.so.salidas fdout = [])
    (hsp : ∀ i < p.salidas.length, sp.so.salidas (fdS i) = []) (hleg : TrozosLegales p.bufsize.toNat (entraM ms))
    (hleg' : TrozosLegales p.bufsize.toNat (entraS sp)) :
    (Cabe p.bufsize.toNat (entraM ms).flatten → SinCorte 4 [] (entraM ms) →
      (Encadena v p fdM fdS mg ms sp ficheros ↔
        (4 ≤ p.bufsize ∧ p.entradas ≠ [] ∧ (∀ f, p.entradas.head? = some f → Lib.optionLike f = false) ∧
          ∀ f, p.salidas.head? = some f → Lib.optionLike f = false) ∧
        (entraM ms).flatten =
          Lib.interleave ((List.range p.entradas.length).map fun i => mg.so.entradas (fdM i)) ∧
        (entraS sp).flatten = cadenas 4 (entraM ms).flatten ∧
        ∀ i < p.salidas.length, ficheros i = Lib.stride p.salidas.length i (cadenas 4 (entraM ms).flatten))) ∧
    (Encadena v p fdM fdS mg ms sp ficheros → (entraS sp).flatten = cadenas 4 (entraM ms).flatten →
      (Cabe p.bufsize.toNat (entraM ms).flatten ∧ SinCorte 4 [] (entraM ms)) ∧
      ∀ mg' : MergeFiles.Vars (Ficheros (List UInt8)),
        (∀ i < p.salidas.length, mg'.so.entradas (fdS i) = ficheros i) →
        (∀ i < p.salidas.length, mg'.ficherosTerminados i ≠ 1) → mg'.so.salidas fdout = [] →
        MezclaEn p.bufsize.toNat p.salidas.length fdS fdout mg' (cadenas 4 (entraM ms).flatten)) := by
  have hstart := Argumentos.entienden_iff hmain 4
  obtain ⟨-, ⟨hbuf, -⟩, -, ⟨hout, -⟩⟩ := Argumentos.main_ok hmain
  rw [eq_self, true_and] at hstart
  subst hp
  dsimp only at *
  have hB : 1 ≤ (pedido argv).bufsize.toNat := by omega
  have hn := List.length_pos_iff.2 hout
  have hdivide := divideEn_iff hB hn hS hleg' hsp ficheros
  -- what `mystrings` and `merge_files` do once they have started
  have hextrae (h4 : 4 ≤ (pedido argv).bufsize) := extraeEn_iff (N := 4) (by decide) (by omega) hleg hms
  have hmezcla (hne : (pedido argv).entradas ≠ []) :=
    mezclaEn_iff hB (List.length_pos_iff.2 hne) hM hmg (entraM ms).flatten
  rw [interleave_vivos_iff.2 hflags] at hmezcla
  constructor
  · intro hcabe hcorte
    constructor
    · rintro ⟨harranca, hmez, hext, hdiv⟩
      have hline := hstart.1 harranca
      have hstrings := ExtraeEn.eq hext ((hextrae hline.1).2 ⟨hcabe, hcorte⟩)
      refine ⟨hline, (hmezcla hline.2.1).1 hmez, hstrings, ?_⟩
      rw [← hstrings]
      exact hdivide.1 hdiv
    · rintro ⟨hline, hmez, hstrings, hdealt⟩
      rw [← hstrings] at hdealt
      refine ⟨hstart.2 hline, (hmezcla hline.2.1).2 hmez, ?_, hdivide.2 hdealt⟩
      rw [hstrings]
      exact (hextrae hline.1).2 ⟨hcabe, hcorte⟩
  · rintro ⟨harranca, -, hext, hdiv⟩ hstrings
    rw [hstrings] at hext hdivide
    refine ⟨(hextrae (hstart.1 harranca).1).1 hext, fun mg' hfiles hflags' hmg' => ?_⟩
    rw [mezclaEn_iff hB hn hS hmg' _, interleave_vivos_iff.2 fun i hi _ => hflags' i hi]
    -- the files are the strings dealt out, and dealing is undone by interleaving
    have hdeal : (List.range (pedido argv).salidas.length).map (fun i => mg'.so.entradas (fdS i)) =
        Lib.deal (pedido argv).salidas.length (cadenas 4 (entraM ms).flatten) :=
      List.map_congr_left fun i hi =>
        (hfiles i (List.mem_range.1 hi)).trans (hdivide.1 hdiv i (List.mem_range.1 hi))
    rw [hdeal, Lib.interleave_deal hn]

/-- `merge_mystrings_split -t 5 -i a,b c d` -/
def lineaDos : List Word :=
  [['m'], ['-', 't'], ['5'], ['-', 'i'], ['a', ',', 'b'], ['c'], ['d']]

/-- `ac` and `bd`: the string `abcd` comes out, two bytes in each file. -/
theorem pipeline_strings_dos :
    ∃ v, Argumentos.MergeMystringsSplit.main lineaDos = .ok v ∧
      Encadena v { pedido lineaDos with minlength := 4 } (· + 3) (· + 3)
        { MergeFiles.basuraDos with so := ⟨fun fd => if fd = 3 then [97, 99, 0] else [98, 100], fun _ => []⟩ }
        (MyStrings.entradaCortada [[97, 98], [99, 100, 0]])
        { SplitFiles.basuraCinco with so := ⟨fun _ => [[97, 98, 99], [100]], fun _ => []⟩ }
        fun i => Lib.stride 2 i [97, 98, 99, 100] := by
  refine ⟨_, rfl, ?_⟩
  refine ((pipeline_strings rfl rfl (fun _ _ _ _ => Nat.add_right_cancel) (fun _ _ _ _ => Nat.add_right_cancel)
    (fun _ _ _ => by simp [MergeFiles.basuraDos]) rfl rfl (fun _ _ => rfl) (by decide) (by decide)).1
    (by unfold Cabe; decide) ?_).2 ⟨by decide, by decide, by decide, fun _ _ => rfl⟩
  exact (MyStrings.sinCorte_cons _ _ _ _).2
    ⟨by decide, (MyStrings.sinCorte_cons _ _ _ _).2 ⟨by decide, MyStrings.sinCorte_nil _ _⟩⟩

end AsoPracticas.Tarea4
