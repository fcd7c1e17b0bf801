import KiNBOL.Mm.Vmm

namespace KiNBOL

/-- A translation of the processor: page frame and permissions. -/
structure Xlat where
  page : Nat
  write : Bool
  user : Bool
  nx : Bool
  deriving DecidableEq

/-- Permissions accumulate over the levels: all must allow writing and user access, one
no-execute bit is enough. -/
def xlat (page : Nat) (es : List (BitVec 64)) : Xlat :=
  ⟨page,es.all (has · vmmWrite),es.all (has · vmmUser),es.any (has · vmmNx)⟩

/-- The x86-64 four-level walk from the PML4 in page `cr3`, with 1 GiB and 2 MiB leaves. -/
def hwWalk (mem : PhysMem) (cr3 : Nat) (va : BitVec 64) : Option Xlat :=
  let e1 := mem cr3 (pml4Idx va)
  if !present e1 then none
  else
    let e2 := mem (framePage e1) (pdptIdx va)
    if !present e2 then none
    else if has e2 vmmHuge then
      some (xlat (framePage e2/2^18*2^18+pageOf va%2^18) [e1,e2])
    else
      let e3 := mem (framePage e2) (pdIdx va)
      if !present e3 then none
      else if has e3 vmmHuge then
        some (xlat (framePage e3/2^9*2^9+pageOf va%2^9) [e1,e2,e3])
      else
        let e4 := mem (framePage e3) (ptIdx va)
        if !present e4 then none else some (xlat (framePage e4) [e1,e2,e3,e4])

/-- The tables below the PML4 that the walk of an address reads. -/
def hwTables (mem : PhysMem) (cr3 : Nat) (va : BitVec 64) : List Nat :=
  let e1 := mem cr3 (pml4Idx va)
  if !present e1 then []
  else
    let e2 := mem (framePage e1) (pdptIdx va)
    if !present e2 || has e2 vmmHuge then [framePage e1]
    else
      let e3 := mem (framePage e2) (pdIdx va)
      if !present e3 || has e3 vmmHuge then [framePage e1,framePage e2]
      else [framePage e1,framePage e2,framePage e3]

/-- Canonical addresses of the lower half. -/
def LowerHalf (va : BitVec 64) : Prop := va.toNat < 2^47

/-- Canonical addresses of the upper half, where the kernel lives. -/
def KernelHalf (va : BitVec 64) : Prop := 2^64-2^47 ≤ va.toNat

instance (va : BitVec 64) : Decidable (LowerHalf va) := inferInstanceAs (Decidable (_ < _))
instance (va : BitVec 64) : Decidable (KernelHalf va) := inferInstanceAs (Decidable (_ ≤ _))

/-- What the processor makes of an address; others than canonical ones fault. -/
def translate (mem : PhysMem) (cr3 : Nat) (va : BitVec 64) : Option Xlat :=
  if LowerHalf va ∨ KernelHalf va then hwWalk mem cr3 va else none

section

variable (va : BitVec 64)

theorem pml4Idx_val : (pml4Idx va).val = va.toNat/2^39%512 := by
  simp [pml4Idx,Nat.shiftRight_eq_div_pow]

theorem pdptIdx_val : (pdptIdx va).val = va.toNat/2^30%512 := by
  simp [pdptIdx,Nat.shiftRight_eq_div_pow]

theorem pdIdx_val : (pdIdx va).val = va.toNat/2^21%512 := by
  simp [pdIdx,Nat.shiftRight_eq_div_pow]

theorem ptIdx_val : (ptIdx va).val = va.toNat/2^12%512 := by
  simp [ptIdx,Nat.shiftRight_eq_div_pow]

end

theorem pml4Idx_lower {va : BitVec 64} (h : LowerHalf va) : (pml4Idx va).val < 256 := by
  rw [pml4Idx_val]
  simp only [LowerHalf] at h
  omega

theorem pml4Idx_kernel {va : BitVec 64} (h : KernelHalf va) : 256 ≤ (pml4Idx va).val := by
  rw [pml4Idx_val]
  have := va.isLt
  simp only [KernelHalf] at h
  omega

/-- A walk reads the PML4 slot and the tables it lists, nothing else. -/
theorem hwWalk_congr {mem mem' : PhysMem} {cr3 cr3' : Nat} {va : BitVec 64}
    (hroot : mem' cr3' (pml4Idx va) = mem cr3 (pml4Idx va))
    (htab : ∀ n ∈ hwTables mem cr3 va, mem' n = mem n) :
    hwWalk mem' cr3' va = hwWalk mem cr3 va ∧ hwTables mem' cr3' va = hwTables mem cr3 va := by
  unfold hwWalk hwTables at *
  dsimp only at *
  rw [hroot]
  by_cases h1 : present (mem cr3 (pml4Idx va)) = true
  · simp only [h1,Bool.not_true,Bool.false_eq_true,if_false] at htab ⊢
    have t1 : mem' (framePage (mem cr3 (pml4Idx va))) =
        mem (framePage (mem cr3 (pml4Idx va))) := by
      apply htab
      split_ifs <;> simp
    rw [t1]
    generalize framePage (mem cr3 (pml4Idx va)) = pdpt at *
    by_cases h2 : present (mem pdpt (pdptIdx va)) = true
    · by_cases g2 : has (mem pdpt (pdptIdx va)) vmmHuge = true
      · simp [h2,g2]
      · simp only [h2,g2,Bool.not_true,Bool.false_or,Bool.false_eq_true,if_false] at htab ⊢
        have t2 : mem' (framePage (mem pdpt (pdptIdx va))) =
            mem (framePage (mem pdpt (pdptIdx va))) := by
          apply htab
          split_ifs <;> simp
        rw [t2]
        generalize framePage (mem pdpt (pdptIdx va)) = pd at *
        by_cases h3 : present (mem pd (pdIdx va)) = true
        · by_cases g3 : has (mem pd (pdIdx va)) vmmHuge = true
          · simp [h3,g3]
          · simp only [h3,g3,Bool.not_true,Bool.false_or,Bool.false_eq_true,if_false] at htab ⊢
            have t3 : mem' (framePage (mem pd (pdIdx va))) =
                mem (framePage (mem pd (pdIdx va))) := htab _ (by simp)
            simp [t3]
        · simp [h3]
    · simp [h2]
  · simp [h1]

/-- A table of a walk is named by a present entry. -/
theorem mem_hwTables {mem : PhysMem} {cr3 n : Nat} {va : BitVec 64} (h : n ∈ hwTables mem cr3 va) :
    ∃ k i, present (mem k i) = true ∧ n = framePage (mem k i) := by
  unfold hwTables at h
  dsimp only at h
  by_cases h1 : present (mem cr3 (pml4Idx va)) = true
  · generalize hpdpt : framePage (mem cr3 (pml4Idx va)) = pdpt at h
    by_cases h2 : present (mem pdpt (pdptIdx va)) = true
    · generalize hpd : framePage (mem pdpt (pdptIdx va)) = pd at h
      by_cases h3 : present (mem pd (pdIdx va)) = true
      · simp only [h1,h2,h3,Bool.not_true,Bool.false_or,Bool.false_eq_true,if_false] at h
        split_ifs at h
        · exact ⟨_,_,h1,by simpa [hpdpt] using h⟩
        · rcases List.mem_cons.mp h with h | h
          · exact ⟨_,_,h1,h.trans hpdpt.symm⟩
          · exact ⟨_,_,h2,by simpa [hpd] using h⟩
        · rcases List.mem_cons.mp h with h | h
          · exact ⟨_,_,h1,h.trans hpdpt.symm⟩
          · rcases List.mem_cons.mp h with h | h
            · exact ⟨_,_,h2,h.trans hpd.symm⟩
            · exact ⟨_,_,h3,by simpa using h⟩
      · simp only [h1,h2,h3,Bool.not_true,Bool.false_or,Bool.false_eq_true,if_false] at h
        split_ifs at h
        · exact ⟨_,_,h1,by simpa [hpdpt] using h⟩
        · rcases List.mem_cons.mp h with h | h
          · exact ⟨_,_,h1,h.trans hpdpt.symm⟩
          · exact ⟨_,_,h2,by simpa [hpd] using h⟩
        · simp_all
    · simp only [h1,h2,Bool.not_true,Bool.false_eq_true,if_false] at h
      simp only [Bool.not_false,Bool.true_or,if_true,List.mem_singleton] at h
      exact ⟨_,_,h1,h.trans hpdpt.symm⟩
  · simp [h1] at h

end KiNBOL
