import Mathlib.Data.BitVec

namespace KiNBOL

/-- The value of 32 bits read as an `int32_t`. -/
def toInt32 (v : Int) : Int := (BitVec.ofInt 32 v).toInt

variable {v : Int}

theorem toInt32_eq (v : Int) : toInt32 v = v.bmod (2^32) := by
  rw [toInt32,BitVec.toInt_ofInt]

theorem toInt32_of_fits (hlo : -2^31 ≤ v) (hhi : v < 2^31) : toInt32 v = v := by
  rw [toInt32_eq,Int.bmod_eq_of_le (by omega) (by omega)]

theorem toInt32_fits (v : Int) : -2^31 ≤ toInt32 v ∧ toInt32 v < 2^31 := by
  rw [toInt32_eq]
  have hlo := @Int.le_bmod v (2^32) (by decide)
  have hhi := @Int.bmod_lt v (2^32) (by decide)
  omega

end KiNBOL
