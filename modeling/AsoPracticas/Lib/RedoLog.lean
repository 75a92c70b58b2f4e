import Mathlib.Logic.Function.Basic
import Mathlib.Data.List.Basic
import Mathlib.Data.List.Nodup
import Mathlib.Tactic

/-!
# RedoLog — redo logs on a block store

A store maps addresses to blocks and changes by single writes, which reach it in order.  A redo log
sets a header block and some slots aside.  To commit a transaction it writes the new blocks into the
slots, then the header, then the new blocks to their home addresses, and then clears the header.
-/

namespace AsoPracticas.Lib

variable {ι β : Type*}

/-! ## Layouts -/

/-- Where the log lies, and how the header block is read and rewritten. -/
structure Layout (ι β : Type*) where
  header : ι
  slot : Nat → ι
  capacity : Nat
  decode : β → Option (List ι)
  encode : β → List ι → β
  slot_injective : ∀ j < capacity, ∀ k < capacity, slot j = slot k → j = k
  slot_ne_header : ∀ k < capacity, slot k ≠ header
  decode_encode : ∀ b lh, lh.length ≤ capacity → decode (encode b lh) = some lh

namespace Layout

variable (L : Layout ι β)

/-- An address outside the header and the slots. -/
def Home (i : ι) : Prop :=
  i ≠ L.header ∧ ∀ k < L.capacity, i ≠ L.slot k

/-- The header says that nothing is to be replayed. -/
def Clean (d : ι → β) : Prop :=
  L.decode (d L.header) = some []

def fill (v : ι → β) (tx : List ι) : List (ι × β) :=
  tx.zipIdx.map fun p => (L.slot p.2, v p.1)

def install (v : ι → β) (tx : List ι) : List (ι × β) :=
  tx.map fun i => (i, v i)

/-- The writes of a commit; `hb` is the header block before it. -/
def commitWrites (hb : β) (v : ι → β) (tx : List ι) : List (ι × β) :=
  L.fill v tx ++ (L.header, L.encode hb tx) :: (install v tx ++ [(L.header, L.encode (L.encode hb tx) [])])

theorem commitWrites_eq (hb : β) (v : ι → β) (tx : List ι) :
    L.commitWrites hb v tx = (L.fill v tx ++ [(L.header, L.encode hb tx)]) ++
      (install v tx ++ [(L.header, L.encode (L.encode hb tx) [])]) := by
  rw [commitWrites, List.append_cons]

/-- A transaction over the store `d`: distinct home addresses that fit into the slots, and the store
`after` it. -/
structure Transaction (d : ι → β) where
  blocks : List ι
  nodup : blocks.Nodup
  home : ∀ i ∈ blocks, L.Home i
  length_le : blocks.length ≤ L.capacity
  after : ι → β
  after_eq : ∀ i ∉ blocks, after i = d i

variable {L} {d : ι → β} (t : L.Transaction d)

/-- Nothing of the transaction has happened. -/
def Before (d' : ι → β) (d : ι → β) : Prop :=
  L.Clean d' ∧ ∀ i, L.Home i → d' i = d i

/-- The header is written: the transaction will happen, whatever its home addresses hold. -/
@[grind cases eager]
structure Committed (d' : ι → β) : Prop where
  header : L.decode (d' L.header) = some t.blocks
  slots : ∀ k (hk : k < t.blocks.length), d' (L.slot k) = t.after t.blocks[k]
  frame : ∀ i, L.Home i → i ∉ t.blocks → d' i = t.after i

/-- The transaction has happened and the header is cleared. -/
def After (d' : ι → β) : Prop :=
  L.Clean d' ∧ ∀ i, L.Home i → d' i = t.after i

theorem fill_ne_of_home {i : ι} (hi : L.Home i) {w : ι × β} (hw : w ∈ L.fill t.after t.blocks) : w.1 ≠ i := by
  obtain ⟨p, hp, rfl⟩ := List.mem_map.1 hw
  have hlt := List.snd_lt_of_mem_zipIdx hp
  have := t.length_le
  exact (hi.2 p.2 (by omega)).symm

theorem fill_ne_header {w : ι × β} (hw : w ∈ L.fill t.after t.blocks) : w.1 ≠ L.header := by
  obtain ⟨p, hp, rfl⟩ := List.mem_map.1 hw
  have hlt := List.snd_lt_of_mem_zipIdx hp
  have := t.length_le
  exact L.slot_ne_header p.2 (by omega)

end Layout

/-! ## Sequences of writes -/

variable [DecidableEq ι]

/-- The store after the writes `ws`, first to last. -/
def applyWrites (ws : List (ι × β)) (d : ι → β) : ι → β :=
  ws.foldl (fun d w => Function.update d w.1 w.2) d

@[simp] theorem applyWrites_nil (d : ι → β) : applyWrites [] d = d := rfl

@[simp] theorem applyWrites_cons (w : ι × β) (ws : List (ι × β)) (d : ι → β) :
    applyWrites (w :: ws) d = applyWrites ws (Function.update d w.1 w.2) := rfl

theorem applyWrites_append (ws vs : List (ι × β)) (d : ι → β) :
    applyWrites (ws ++ vs) d = applyWrites vs (applyWrites ws d) :=
  List.foldl_append

theorem applyWrites_eq {ws : List (ι × β)} {d : ι → β} {i : ι} {x : β}
    (hws : ∀ w ∈ ws, w.1 = i → w.2 = x) (hd : d i = x ∨ ∃ w ∈ ws, w.1 = i) :
    applyWrites ws d i = x := by
  induction ws generalizing d with
  | nil => simpa using hd
  | cons w ws ih =>
    refine ih (fun v hv => hws v (List.mem_cons_of_mem w hv)) ?_
    grind

theorem applyWrites_of_ne {ws : List (ι × β)} {i : ι} (hws : ∀ w ∈ ws, w.1 ≠ i) (d : ι → β) :
    applyWrites ws d i = d i :=
  applyWrites_eq (fun w hw hi => absurd hi (hws w hw)) (.inl rfl)

/-! ## Crashes -/

namespace Layout

variable {L : Layout ι β} {d : ι → β} (t : L.Transaction d) {d' : ι → β}

theorem fill_take (hclean : L.Clean d) (k : Nat) :
    Before (L := L) (applyWrites ((L.fill t.after t.blocks).take k) d) d := by
  refine ⟨?_, ?_⟩
  · have hheader : applyWrites ((L.fill t.after t.blocks).take k) d L.header = d L.header :=
      applyWrites_of_ne (fun w hw => fill_ne_header t (List.mem_of_mem_take hw)) d
    rw [Clean, hheader]
    exact hclean
  · intro i hi
    exact applyWrites_of_ne (fun w hw => fill_ne_of_home t hi (List.mem_of_mem_take hw)) d

theorem committed_header (hb : β) :
    Committed t (applyWrites (L.fill t.after t.blocks ++ [(L.header, L.encode hb t.blocks)]) d) := by
  rw [applyWrites_append, applyWrites_cons, applyWrites_nil]
  refine ⟨?_, ?_, ?_⟩
  · rw [Function.update_self]
    exact L.decode_encode hb t.blocks t.length_le
  · intro k hk
    have hcap := t.length_le
    rw [Function.update_of_ne (L.slot_ne_header k (by omega))]
    have hmem : (t.blocks[k], k) ∈ t.blocks.zipIdx := by
      rw [List.mk_mem_zipIdx_iff_getElem?, List.getElem?_eq_getElem hk]
    refine applyWrites_eq ?_ (.inr ⟨_, List.mem_map_of_mem hmem, rfl⟩)
    rintro w hw hslot
    obtain ⟨p, hp, rfl⟩ := List.mem_map.1 hw
    have hlt := List.snd_lt_of_mem_zipIdx hp
    -- only the `k`-th block goes to the `k`-th slot
    obtain rfl : p.2 = k := L.slot_injective p.2 (by omega) k (by omega) hslot
    grind
  · intro i hi hni
    rw [Function.update_of_ne hi.1, applyWrites_of_ne (fun w hw => fill_ne_of_home t hi hw), t.after_eq i hni]

theorem Committed.install_take (h : Committed t d') (k : Nat) :
    Committed t (applyWrites ((install t.after t.blocks).take k) d') := by
  have hmem : ∀ w ∈ (install t.after t.blocks).take k, w.1 ∈ t.blocks := by
    intro w hw
    obtain ⟨i, hi, rfl⟩ := List.mem_map.1 (List.mem_of_mem_take hw)
    exact hi
  have hcap := t.length_le
  refine ⟨?_, ?_, ?_⟩
  · rw [applyWrites_of_ne (fun w hw => (t.home w.1 (hmem w hw)).1)]
    exact h.header
  · intro j hj
    rw [applyWrites_of_ne (fun w hw => (t.home w.1 (hmem w hw)).2 j (by omega))]
    exact h.slots j hj
  grind [applyWrites_of_ne]

theorem Committed.clear (h : Committed t d') (hb : β) :
    After t (applyWrites (install t.after t.blocks ++ [(L.header, L.encode hb [])]) d') := by
  rw [applyWrites_append, applyWrites_cons, applyWrites_nil]
  refine ⟨?_, ?_⟩
  · rw [Clean, Function.update_self]
    exact L.decode_encode hb [] (Nat.zero_le _)
  · intro i hi
    rw [Function.update_of_ne hi.1]
    refine applyWrites_eq ?_ ?_
    · rintro w hw rfl
      obtain ⟨j, hj, rfl⟩ := List.mem_map.1 hw
      rfl
    · by_cases hmem : i ∈ t.blocks
      · exact .inr ⟨_, List.mem_map_of_mem hmem, rfl⟩
      · exact .inl (h.frame i hi hmem)

/-- Replaying the log, from any state after the header write, up to a crash or to the end. -/
theorem Committed.redo_take (h : Committed t d') (hb : β) (k : Nat) :
    Committed t (applyWrites ((install t.after t.blocks ++ [(L.header, L.encode hb [])]).take k) d') ∨
    (t.blocks.length < k ∧
      After t (applyWrites ((install t.after t.blocks ++ [(L.header, L.encode hb [])]).take k) d')) := by
  by_cases hk : k ≤ (install t.after t.blocks).length
  · left
    rw [List.take_append_of_le_length hk]
    exact h.install_take t k
  · right
    have hlen : (install t.after t.blocks).length = t.blocks.length := List.length_map _
    rw [List.take_of_length_le (by simp; omega)]
    exact ⟨by omega, h.clear t hb⟩

theorem commit_after (hb : β) : After t (applyWrites (L.commitWrites hb t.after t.blocks) d) := by
  rw [L.commitWrites_eq, applyWrites_append]
  exact (committed_header t hb).clear t _

theorem commit_take (hclean : L.Clean d) (hb : β) (k : Nat) :
    (k ≤ t.blocks.length ∧ Before (L := L) (applyWrites ((L.commitWrites hb t.after t.blocks).take k) d) d) ∨
    Committed t (applyWrites ((L.commitWrites hb t.after t.blocks).take k) d) ∨
    After t (applyWrites ((L.commitWrites hb t.after t.blocks).take k) d) := by
  have hlen : (L.fill t.after t.blocks).length = t.blocks.length := by simp [fill]
  by_cases hk : k ≤ t.blocks.length
  · left
    rw [commitWrites, List.take_append_of_le_length (by omega)]
    exact ⟨hk, fill_take t hclean k⟩
  · right
    have hsplit : (L.commitWrites hb t.after t.blocks).take k =
        (L.fill t.after t.blocks ++ [(L.header, L.encode hb t.blocks)]) ++
          (install t.after t.blocks ++ [(L.header, L.encode (L.encode hb t.blocks) [])]).take
            (k - (t.blocks.length + 1)) := by
      rw [L.commitWrites_eq, List.take_append, List.take_of_length_le (by simp [hlen]; omega)]
      simp [hlen]
    rw [hsplit, applyWrites_append]
    rcases (committed_header t hb).redo_take t (L.encode hb t.blocks) (k - (t.blocks.length + 1)) with h | ⟨-, h⟩
    · exact .inl h
    · exact .inr h

theorem Clean.clear_take (h : L.Clean d') (hb : β) (k : Nat) :
    L.Clean (applyWrites ([(L.header, L.encode hb [])].take k) d') ∧
      ∀ i, L.Home i → applyWrites ([(L.header, L.encode hb [])].take k) d' i = d' i := by
  cases k with
  | zero => exact ⟨h, fun _ _ => rfl⟩
  | succ k =>
    rw [List.take_of_length_le (by simp), applyWrites_cons, applyWrites_nil]
    refine ⟨?_, fun i hi => Function.update_of_ne hi.1 _ _⟩
    rw [Clean, Function.update_self]
    exact L.decode_encode hb [] (Nat.zero_le _)

end Layout
end AsoPracticas.Lib
