import AsoPracticas.Lib.Bytes

/-!
# Bitmap — arrays of bits kept in arrays of bytes

Bit `i` of a map is bit `i % 8`, counted from the low end, of byte `i / 8`.  It is tested, set and
cleared with a mask, as C code does it.
-/

namespace AsoPracticas.Lib

/-- The byte with bit `j` alone. -/
def mask (j : Nat) : UInt8 := 1 <<< UInt8.ofNat j

/-! ## One byte -/

theorem mask_toBitVec {j : Nat} (h : j < 8) : (mask j).toBitVec = BitVec.twoPow 8 j := by
  interval_cases j <;> rfl

theorem and_mask_eq_zero_iff {x : UInt8} {j : Nat} (h : j < 8) : x &&& mask j = 0 ↔ x.toBitVec.getLsbD j = false := by
  rw [← UInt8.toBitVec_inj, UInt8.toBitVec_and, mask_toBitVec h, BitVec.and_twoPow]
  cases x.toBitVec.getLsbD j with
  | false => simp
  | true =>
    interval_cases j <;> decide

theorem or_mask_and_eq_zero_iff {x : UInt8} {i j : Nat} (hi : i < 8) (hj : j < 8) :
    (x ||| mask i) &&& mask j = 0 ↔ j ≠ i ∧ x &&& mask j = 0 := by
  rw [and_mask_eq_zero_iff hj, and_mask_eq_zero_iff hj, UInt8.toBitVec_or, mask_toBitVec hi,
    BitVec.getLsbD_or, BitVec.getLsbD_twoPow]
  cases x.toBitVec.getLsbD j <;> simp [hi, eq_comm (a := j)]

/-! ## A map of bits -/

variable {n : Nat}

/-- Whether bit `i` is set. -/
def bit (b : Fin n → UInt8) (i : Nat) : Bool :=
  getByte b (i / 8) &&& mask (i % 8) != 0

def setBit (b : Fin n → UInt8) (i : Nat) : Fin n → UInt8 :=
  patch b (i / 8) 1 fun _ => getByte b (i / 8) ||| mask (i % 8)

def clearBit (b : Fin n → UInt8) (i : Nat) : Fin n → UInt8 :=
  patch b (i / 8) 1 fun _ => getByte b (i / 8) &&& ~~~ mask (i % 8)

variable {b : Fin n → UInt8} {i j : Nat}

theorem bit_eq_getLsbD (hj : j < 8) : bit b (8 * i + j) = (getByte b i).toBitVec.getLsbD j := by
  have hbyte : (8 * i + j) / 8 = i ∧ (8 * i + j) % 8 = j := by omega
  rw [bit, hbyte.1, hbyte.2, ← Bool.not_inj_iff, bne, Bool.not_not, Bool.eq_iff_iff, beq_iff_eq,
    and_mask_eq_zero_iff hj, Bool.not_eq_true']

/-- A byte is known from its bits. -/
theorem getByte_of_bits {x : UInt8} (h : ∀ j < 8, bit b (8 * i + j) = x.toBitVec.getLsbD j) : getByte b i = x := by
  apply UInt8.toBitVec_inj.1
  apply BitVec.eq_of_getLsbD_eq
  intro j hj
  rw [← bit_eq_getLsbD hj, h j hj]

theorem bit_patch_byte {x : UInt8} (hi : i / 8 < n) :
    bit (patch b (i / 8) 1 fun _ => x) j =
      if j / 8 = i / 8 then x &&& mask (j % 8) != 0 else bit b j := by
  grind [bit, getByte_patch_of_mem, getByte_patch_of_notMem]

theorem bit_setBit (hi : i / 8 < n) : bit (setBit b i) j = (decide (j = i) || bit b j) := by
  rw [setBit, bit_patch_byte hi, ← Bool.not_inj_iff]
  split
  · rename_i hbyte
    have hij : j % 8 = i % 8 ↔ j = i := by omega
    simp only [bne, Bool.not_not, Bool.not_or, bit, hbyte]
    rw [Bool.eq_iff_iff, beq_iff_eq, or_mask_and_eq_zero_iff (Nat.mod_lt i (by decide)) (Nat.mod_lt j (by decide))]
    simp [hij]
  grind

end AsoPracticas.Lib
