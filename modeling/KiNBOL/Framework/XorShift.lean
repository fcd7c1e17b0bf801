import Mathlib.Data.BitVec
import Mathlib.Logic.Function.Basic

namespace KiNBOL

/-! Words that are combined with shifts of themselves. -/

variable {n : Nat}

def xorLeft (k : Nat) (x : BitVec n) : BitVec n := x ^^^ (x <<< k)

def xorRight (k : Nat) (x : BitVec n) : BitVec n := x ^^^ (x >>> k)

theorem getLsbD_xorLeft (k : Nat) (x : BitVec n) {i : Nat} (hi : i < n) :
    (xorLeft k x).getLsbD i = (x.getLsbD i ^^ (decide (k ≤ i) && x.getLsbD (i-k))) := by
  simp only [xorLeft,BitVec.getLsbD_xor,BitVec.getLsbD_shiftLeft,hi,decide_true,Bool.true_and]
  by_cases h : i < k
  · simp [h,Nat.not_le_of_lt h]
  · simp [h,Nat.le_of_not_lt h]

theorem getLsbD_xorRight (k : Nat) (x : BitVec n) (i : Nat) :
    (xorRight k x).getLsbD i = (x.getLsbD i ^^ x.getLsbD (i+k)) := by
  rw [xorRight,BitVec.getLsbD_xor,BitVec.getLsbD_ushiftRight,Nat.add_comm]

/-- A bit and those below it give back the bits of the word. -/
theorem xorLeft_injective {k : Nat} (hk : 0 < k) : Function.Injective (xorLeft (n := n) k) := by
  intro x y h
  apply BitVec.eq_of_getLsbD_eq
  intro i hi
  induction i using Nat.strong_induction_on with
  | _ i ih =>
    have hbit := congrArg (fun z => z.getLsbD i) h
    simp only [getLsbD_xorLeft k _ hi] at hbit
    by_cases hki : k ≤ i
    · rw [ih (i-k) (by omega) (by omega)] at hbit
      exact Bool.xor_left_inj.mp hbit
    · simpa [hki] using hbit

theorem xorRight_injective {k : Nat} (hk : 0 < k) : Function.Injective (xorRight (n := n) k) := by
  intro x y h
  have hall : ∀ j i, n ≤ i+j → x.getLsbD i = y.getLsbD i := by
    intro j
    -- from the highest bit down
    induction j using Nat.strong_induction_on with
    | _ j ih =>
      intro i hi
      by_cases hin : n ≤ i
      · rw [BitVec.getLsbD_of_ge x i hin,BitVec.getLsbD_of_ge y i hin]
      · have hbit := congrArg (fun z => z.getLsbD i) h
        simp only [getLsbD_xorRight] at hbit
        rw [ih (j-1) (by omega) (i+k) (by omega)] at hbit
        exact Bool.xor_left_inj.mp hbit
  exact BitVec.eq_of_getLsbD_eq (fun i _ => hall n i (by omega))

/-- Words whose lowest bits are zero. -/
def LowZero (x : BitVec n) (m : Nat) : Prop := ∀ i, i < m → x.getLsbD i = false

theorem LowZero.eq_zero {x : BitVec n} (h : LowZero x n) : x = 0#n := by
  apply BitVec.eq_of_getLsbD_eq
  intro i hi
  rw [h i hi,BitVec.getLsbD_zero]

end KiNBOL
