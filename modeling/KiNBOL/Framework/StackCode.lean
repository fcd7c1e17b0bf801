import Mathlib.Data.List.Basic
import Mathlib.Data.List.Nodup
import Mathlib.Logic.Function.Basic

namespace KiNBOL

/-! Registers kept on a stack of 8-byte words that grows down. -/

/-- Registers, a stack pointer, and the words of memory by their addresses. -/
structure StackRegs (R W : Type*) where
  regs : R → W
  sp : Nat
  mem : Nat → W

namespace StackRegs

variable {R W : Type*}

def push (s : StackRegs R W) (v : W) : StackRegs R W :=
  { s with sp := s.sp-8, mem := Function.update s.mem (s.sp-8) v }

def pop [DecidableEq R] (s : StackRegs R W) (r : R) : StackRegs R W :=
  { s with sp := s.sp+8, regs := Function.update s.regs r (s.mem s.sp) }

def pushWords (s : StackRegs R W) (vs : List W) : StackRegs R W := vs.foldl push s

def pushAll (s : StackRegs R W) (rs : List R) : StackRegs R W := s.pushWords (rs.map s.regs)

def popAll [DecidableEq R] (s : StackRegs R W) (rs : List R) : StackRegs R W := rs.foldl pop s

variable {s t : StackRegs R W} {rs : List R} {vs : List W} {a k : Nat} {v : W} {r : R}

@[simp] theorem push_sp : (s.push v).sp = s.sp-8 := rfl

@[simp] theorem push_regs : (s.push v).regs = s.regs := rfl

theorem push_mem (s : StackRegs R W) (v : W) (a : Nat) :
    (s.push v).mem a = if a = s.sp-8 then v else s.mem a := Function.update_apply ..

theorem push_above (h : 8 ≤ s.sp) (ha : s.sp ≤ a) (v : W) : (s.push v).mem a = s.mem a := by
  rw [push_mem,if_neg (by omega)]

@[simp] theorem pushWords_regs : (s.pushWords vs).regs = s.regs := by
  induction vs generalizing s with
  | nil => rfl
  | cons v vs ih => exact ih (s := s.push v)

@[simp] theorem pushWords_sp : (s.pushWords vs).sp = s.sp-8*vs.length := by
  induction vs generalizing s with
  | nil => simp [pushWords]
  | cons v vs ih =>
    have h := ih (s := s.push v)
    rw [push_sp] at h
    rw [List.length_cons]
    exact h.trans (by omega)

theorem pushWords_above (h : 8*vs.length ≤ s.sp) (ha : s.sp ≤ a) :
    (s.pushWords vs).mem a = s.mem a := by
  induction vs generalizing s with
  | nil => rfl
  | cons v vs ih =>
    rw [List.length_cons] at h
    have hrest := ih (s := s.push v) (by rw [push_sp]; omega) (by rw [push_sp]; omega)
    exact hrest.trans (push_above (by omega) ha _)

/-- Where a word was put. -/
theorem pushWords_word (h : 8*vs.length ≤ s.sp) (hk : k < vs.length) :
    (s.pushWords vs).mem (s.sp-8*(k+1)) = vs[k] := by
  induction vs generalizing s k with
  | nil => simp at hk
  | cons v vs ih =>
    rw [List.length_cons] at h hk
    have hroom : 8*vs.length ≤ (s.push v).sp := by
      rw [push_sp]
      omega
    cases k with
    | zero =>
      have hkeep := pushWords_above hroom (Nat.le_refl (s.push v).sp)
      rw [push_sp,push_mem,if_pos rfl] at hkeep
      exact hkeep
    | succ k =>
      have hword := ih hroom (show k < vs.length by omega)
      have haddr : (s.push v).sp-8*(k+1) = s.sp-8*(k+1+1) := by
        rw [push_sp]
        omega
      rw [haddr] at hword
      exact hword

@[simp] theorem pushAll_regs : (s.pushAll rs).regs = s.regs := pushWords_regs

@[simp] theorem pushAll_sp : (s.pushAll rs).sp = s.sp-8*rs.length := by
  rw [pushAll,pushWords_sp,List.length_map]

theorem pushAll_above (h : 8*rs.length ≤ s.sp) (ha : s.sp ≤ a) :
    (s.pushAll rs).mem a = s.mem a :=
  pushWords_above (by rw [List.length_map]; exact h) ha

theorem pushAll_word (h : 8*rs.length ≤ s.sp) (hk : k < rs.length) :
    (s.pushAll rs).mem (s.sp-8*(k+1)) = s.regs rs[k] := by
  have hword := pushWords_word (s := s) (k := k)
    (show 8*(rs.map s.regs).length ≤ s.sp by rw [List.length_map]; exact h)
    (by rw [List.length_map]; exact hk)
  rw [List.getElem_map] at hword
  exact hword

variable [DecidableEq R]

@[simp] theorem pop_sp : (s.pop r).sp = s.sp+8 := rfl

@[simp] theorem popAll_sp : (s.popAll rs).sp = s.sp+8*rs.length := by
  induction rs generalizing s with
  | nil => rfl
  | cons r rs ih =>
    rw [List.length_cons]
    exact (ih (s := s.pop r)).trans (by rw [pop_sp]; omega)

@[simp] theorem popAll_mem : (s.popAll rs).mem = s.mem := by
  induction rs generalizing s with
  | nil => rfl
  | cons r rs ih => exact ih (s := s.pop r)

theorem popAll_other (hr : r ∉ rs) : (s.popAll rs).regs r = s.regs r := by
  induction rs generalizing s with
  | nil => rfl
  | cons q rs ih =>
    rw [List.mem_cons,not_or] at hr
    exact (ih (s := s.pop q) hr.2).trans (Function.update_of_ne hr.1 _ _)

/-- What a register gets. -/
theorem popAll_word (hnd : rs.Nodup) (hk : k < rs.length) :
    (s.popAll rs).regs rs[k] = s.mem (s.sp+8*k) := by
  induction rs generalizing s k with
  | nil => simp at hk
  | cons r rs ih =>
    rw [List.length_cons] at hk
    obtain ⟨hr,hnd⟩ := List.nodup_cons.mp hnd
    cases k with
    | zero => exact (popAll_other hr).trans (Function.update_self ..)
    | succ k =>
      have hword := ih (s := s.pop r) hnd (show k < rs.length by omega)
      have haddr : (s.pop r).sp+8*k = s.sp+8*(k+1) := by
        rw [pop_sp]
        omega
      rw [haddr] at hword
      exact hword

end StackRegs

end KiNBOL
