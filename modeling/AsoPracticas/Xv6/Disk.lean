import AsoPracticas.Lib.Bytes

/-!
# Disk — blocks and the parameters of the xv6 file system

Block numbers are `uint`, as in the source, and wrap modulo `2 ^ 32`.
-/

namespace AsoPracticas.Xv6

def BSIZE : Nat := 512

/-- Maximum number of blocks any file-system operation writes. -/
def MAXOPBLOCKS : Nat := 10

def LOGSIZE : Nat := MAXOPBLOCKS * 3

abbrev Block := Fin BSIZE → UInt8

abbrev Disk := UInt32 → Block

theorem toNat_ofNat32 {n : Nat} (h : n < 2 ^ 32) : (UInt32.ofNat n).toNat = n := by
  rw [UInt32.toNat_ofNat', Nat.mod_eq_of_lt h]

end AsoPracticas.Xv6
