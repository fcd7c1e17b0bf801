import Mathlib.Data.List.Range
import Mathlib.Logic.Function.Basic

namespace KiNBOL

variable {α : Type*}

/-- `dst` with `n` entries from `pos` on taken from the front of `src`. -/
def overlay (dst : Nat → α) (pos n : Nat) (src : Nat → α) : Nat → α :=
  fun i => if pos ≤ i ∧ i < pos+n then src (i-pos) else dst i

/-- Copying `n` entries one after the other. -/
def copyLoop (dst : Nat → α) (pos : Nat) (src : Nat → α) (start n : Nat) : Nat → α :=
  (List.range n).foldl (fun d i => Function.update d (pos+i) (src (start+i))) dst

variable {dst src : Nat → α} {pos n m i : Nat}

theorem overlay_zero (dst src : Nat → α) (pos : Nat) : overlay dst pos 0 src = dst := by
  funext i
  exact if_neg (by omega)

theorem overlay_in (dst src : Nat → α) (pos : Nat) (h : i < n) : overlay dst pos n src (pos+i) = src i := by
  rw [overlay,if_pos (by omega),Nat.add_sub_cancel_left]

theorem overlay_out (h : i < pos ∨ pos+n ≤ i) : overlay dst pos n src i = dst i :=
  if_neg (by omega)

theorem overlay_congr {src' : Nat → α} (h : ∀ i, i < n → src i = src' i) :
    overlay dst pos n src = overlay dst pos n src' := by
  funext i
  by_cases hi : pos ≤ i ∧ i < pos+n
  · rw [overlay,if_pos hi,overlay,if_pos hi,h (i-pos) (by omega)]
  · rw [overlay,if_neg hi,overlay,if_neg hi]

/-- Two stretches in a row are one. -/
theorem overlay_append (dst src : Nat → α) (pos n m : Nat) :
    overlay (overlay dst pos n src) (pos+n) m (fun i => src (n+i)) = overlay dst pos (n+m) src := by
  funext i
  by_cases h : pos ≤ i ∧ i < pos+n
  · rw [overlay_out (Or.inl h.2),overlay,if_pos h,overlay,if_pos (by omega)]
  · by_cases h' : pos+n ≤ i ∧ i < pos+n+m
    · rw [overlay,if_pos h',overlay,if_pos (by omega)]
      rw [show n+(i-(pos+n)) = i-pos by omega]
    · rw [overlay,if_neg h',overlay,if_neg h,overlay,if_neg (by omega)]

theorem copyLoop_eq (dst : Nat → α) (pos : Nat) (src : Nat → α) (start n : Nat) :
    copyLoop dst pos src start n = overlay dst pos n (fun i => src (start+i)) := by
  induction n with
  | zero => exact (overlay_zero dst _ pos).symm
  | succ n ih =>
    rw [copyLoop,List.range_succ,List.foldl_append]
    change Function.update (copyLoop dst pos src start n) (pos+n) (src (start+n)) = _
    rw [ih]
    funext i
    by_cases h : i = pos+n
    · rw [h,Function.update_self,overlay_in _ _ pos (Nat.lt_succ_self n)]
    · rw [Function.update_of_ne h]
      by_cases h' : pos ≤ i ∧ i < pos+n
      · rw [overlay,if_pos h',overlay,if_pos (by omega)]
      · rw [overlay,if_neg h',overlay,if_neg (by omega)]

end KiNBOL
