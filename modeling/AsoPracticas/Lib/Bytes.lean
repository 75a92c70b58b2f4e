import Mathlib.Tactic

/-!
# Bytes — arrays of bytes and the little-endian integers in them

An array of `n` bytes is a function on `Fin n`.  `patch` overwrites a range of it; integers of 16 and
32 bits are read and written at any offset, low byte first.  Reads past the end give `0` and writes
past the end are lost: the developments below only use offsets inside.
-/

namespace AsoPracticas.Lib

/-! ## Integers as bytes -/

/-- The 16-bit integer with the given bytes, low byte first. -/
def le16 (b0 b1 : UInt8) : UInt16 := UInt16.ofNat (b0.toNat + 2 ^ 8 * b1.toNat)

/-- The 32-bit integer with the given bytes, low byte first. -/
def le32 (b0 b1 b2 b3 : UInt8) : UInt32 :=
  UInt32.ofNat (b0.toNat + 2 ^ 8 * b1.toNat + 2 ^ 16 * b2.toNat + 2 ^ 24 * b3.toNat)

/-- Byte `k` of a 16-bit integer. -/
def byte16 (w : UInt16) (k : Nat) : UInt8 := UInt8.ofNat (w.toNat / 2 ^ (8 * k))

/-- Byte `k` of a 32-bit integer. -/
def byte32 (w : UInt32) (k : Nat) : UInt8 := UInt8.ofNat (w.toNat / 2 ^ (8 * k))

theorem le16_byte16 (w : UInt16) : le16 (byte16 w 0) (byte16 w 1) = w := by
  have hw := w.toNat_lt
  apply UInt16.toNat_inj.1
  simp only [le16, byte16, UInt16.toNat_ofNat', UInt8.toNat_ofNat']
  omega

theorem le32_byte32 (w : UInt32) : le32 (byte32 w 0) (byte32 w 1) (byte32 w 2) (byte32 w 3) = w := by
  have hw := w.toNat_lt
  apply UInt32.toNat_inj.1
  simp only [le32, byte32, UInt32.toNat_ofNat', UInt8.toNat_ofNat']
  omega

/-! ## Arrays of bytes -/

variable {n : Nat}

/-- The byte at offset `i`. -/
def getByte (b : Fin n → UInt8) (i : Nat) : UInt8 :=
  if h : i < n then b ⟨i, h⟩ else 0

/-- The array with the `len` bytes at `off` replaced by `src 0`, `src 1`, …. -/
def patch (b : Fin n → UInt8) (off len : Nat) (src : Nat → UInt8) : Fin n → UInt8 := fun i =>
  if off ≤ i.val ∧ i.val < off + len then src (i.val - off) else b i

def getU16 (b : Fin n → UInt8) (off : Nat) : UInt16 :=
  le16 (getByte b off) (getByte b (off + 1))

def getU32 (b : Fin n → UInt8) (off : Nat) : UInt32 :=
  le32 (getByte b off) (getByte b (off + 1)) (getByte b (off + 2)) (getByte b (off + 3))

def setU32 (b : Fin n → UInt8) (off : Nat) (w : UInt32) : Fin n → UInt8 :=
  patch b off 4 (byte32 w)

variable {b : Fin n → UInt8} {off len : Nat} {src : Nat → UInt8} {i : Nat}

theorem getByte_patch_of_mem (hoff : off ≤ i) (hlen : i < off + len) (hn : i < n) :
    getByte (patch b off len src) i = src (i - off) := by
  simp [getByte, patch, hoff, hlen, hn]

theorem getByte_patch_of_notMem (h : i < off ∨ off + len ≤ i) :
    getByte (patch b off len src) i = getByte b i := by
  have hno : ¬ (off ≤ i ∧ i < off + len) := by omega
  simp [getByte, patch, hno]

theorem getU16_patch_of_mem (hoff : off ≤ i) (hlen : i + 2 ≤ off + len) (hn : i + 2 ≤ n) :
    getU16 (patch b off len src) i = le16 (src (i - off)) (src (i - off + 1)) := by
  rw [getU16, getByte_patch_of_mem (by omega) (by omega) (by omega),
    getByte_patch_of_mem (by omega) (by omega) (by omega), Nat.sub_add_comm hoff]

theorem getU32_patch_of_mem (hoff : off ≤ i) (hlen : i + 4 ≤ off + len) (hn : i + 4 ≤ n) :
    getU32 (patch b off len src) i =
      le32 (src (i - off)) (src (i - off + 1)) (src (i - off + 2)) (src (i - off + 3)) := by
  rw [getU32, getByte_patch_of_mem (by omega) (by omega) (by omega),
    getByte_patch_of_mem (by omega) (by omega) (by omega),
    getByte_patch_of_mem (by omega) (by omega) (by omega),
    getByte_patch_of_mem (by omega) (by omega) (by omega),
    Nat.sub_add_comm hoff, Nat.sub_add_comm hoff, Nat.sub_add_comm hoff]

theorem getU16_patch_of_disjoint (h : i + 2 ≤ off ∨ off + len ≤ i) :
    getU16 (patch b off len src) i = getU16 b i := by
  simp only [getU16]
  rw [getByte_patch_of_notMem (by omega), getByte_patch_of_notMem (by omega)]

theorem getU32_patch_of_disjoint (h : i + 4 ≤ off ∨ off + len ≤ i) :
    getU32 (patch b off len src) i = getU32 b i := by
  simp only [getU32]
  grind [getByte_patch_of_notMem]

theorem getU32_setU32 (w : UInt32) (h : off + 4 ≤ n) : getU32 (setU32 b off w) off = w := by
  rw [setU32, getU32_patch_of_mem le_rfl le_rfl h, Nat.sub_self, le32_byte32]

theorem getByte_zero (i : Nat) : getByte (fun _ : Fin n => 0) i = 0 := by
  simp [getByte]

theorem getU32_zero (i : Nat) : getU32 (fun _ : Fin n => 0) i = 0 := by
  simp only [getU32, getByte_zero]
  rfl

theorem getU32_setU32_of_disjoint (w : UInt32) (h : i + 4 ≤ off ∨ off + 4 ≤ i) :
    getU32 (setU32 b off w) i = getU32 b i :=
  getU32_patch_of_disjoint h

end AsoPracticas.Lib
