import KiNBOL.Mm.HwWalk

namespace KiNBOL

/-- `x & ~0xFFF` rounds down to the page. -/
theorem toNat_pageMask (x : BitVec 64) : (x &&& pageMask).toNat = x.toNat/4096*4096 := by
  have hz : (x &&& pageMask) &&& 0xFFF#64 = 0#64 := by
    rw [BitVec.and_assoc,show pageMask &&& 0xFFF#64 = 0#64 by decide,BitVec.and_zero]
  have hm := congrArg BitVec.toNat hz
  rw [BitVec.toNat_and,show (0xFFF#64).toNat = 2^12-1 from rfl,
    Nat.and_two_pow_sub_one_eq_mod] at hm
  have hp := pageOf_pageMask x
  simp only [pageOf] at hp
  simp only [BitVec.toNat_ofNat] at hm
  omega

theorem mem_pageRange {virt len page : BitVec 64} : page ∈ pageRange virt len ↔
    ∃ i, i ≤ (((virt+len-1#64) &&& pageMask)-(virt &&& pageMask)).toNat/4096 ∧
      page = (virt &&& pageMask)+BitVec.ofNat 64 (i*4096) := by
  simp only [pageRange,List.mem_map,List.mem_range,Nat.lt_succ_iff]
  constructor
  · intro h
    obtain ⟨i,hi,he⟩ := h
    exact ⟨i,hi,he.symm⟩
  · intro h
    obtain ⟨i,hi,he⟩ := h
    exact ⟨i,hi,he.symm⟩

/-- The pages of a range that does not wrap. -/
theorem mem_pageRange_nat {virt len page : BitVec 64} (hlen : len ≠ 0#64)
    (hend : virt.toNat+len.toNat ≤ 2^64) : page ∈ pageRange virt len ↔
      page.toNat%4096 = 0 ∧ virt.toNat/4096 ≤ page.toNat/4096 ∧
        page.toNat/4096 ≤ (virt.toNat+len.toNat-1)/4096 := by
  have hpos : 0 < len.toNat := by
    have hne : len.toNat ≠ 0 := fun hz => hlen (BitVec.eq_of_toNat_eq (by simpa using hz))
    omega
  have hv := virt.isLt
  have hl := len.isLt
  have hp := page.isLt
  have hlast : (virt+len-1#64).toNat = virt.toNat+len.toNat-1 := by
    simp only [BitVec.toNat_sub,BitVec.toNat_add,BitVec.toNat_ofNat]
    omega
  have hdiff : (((virt+len-1#64) &&& pageMask)-(virt &&& pageMask)).toNat/4096 =
      (virt.toNat+len.toNat-1)/4096-virt.toNat/4096 := by
    rw [BitVec.toNat_sub,toNat_pageMask,toNat_pageMask,hlast]
    omega
  rw [mem_pageRange,hdiff]
  have hnat : ∀ i, i ≤ (virt.toNat+len.toNat-1)/4096-virt.toNat/4096 →
      ((virt &&& pageMask)+BitVec.ofNat 64 (i*4096)).toNat = (virt.toNat/4096+i)*4096 := by
    intro i hi
    rw [BitVec.toNat_add,toNat_pageMask,BitVec.toNat_ofNat]
    omega
  constructor
  · intro h
    obtain ⟨i,hi,he⟩ := h
    have hn := hnat i hi
    rw [← he] at hn
    omega
  · intro h
    obtain ⟨h1,h2,h3⟩ := h
    refine ⟨page.toNat/4096-virt.toNat/4096,by omega,?_⟩
    apply BitVec.eq_of_toNat_eq
    rw [hnat _ (by omega)]
    omega

/-- A range that ends in the lower half has its pages there. -/
theorem pageRange_lower {virt len page : BitVec 64} (hlen : len ≠ 0#64)
    (hend : virt.toNat+len.toNat ≤ 2^47) (hp : page ∈ pageRange virt len) : LowerHalf page := by
  have h := (mem_pageRange_nat hlen (by omega)).mp hp
  have hpos : 0 < len.toNat := by
    have hne : len.toNat ≠ 0 := fun hz => hlen (BitVec.eq_of_toNat_eq (by simpa using hz))
    omega
  simp only [LowerHalf]
  omega

/-- The page of an address selects the same slots. -/
theorem idx_page (va : BitVec 64) : pml4Idx (va &&& pageMask) = pml4Idx va ∧
    pdptIdx (va &&& pageMask) = pdptIdx va ∧ pdIdx (va &&& pageMask) = pdIdx va ∧
    ptIdx (va &&& pageMask) = ptIdx va := by
  have h := toNat_pageMask va
  refine ⟨Fin.ext ?_,Fin.ext ?_,Fin.ext ?_,Fin.ext ?_⟩
  · rw [pml4Idx_val,pml4Idx_val,h]
    omega
  · rw [pdptIdx_val,pdptIdx_val,h]
    omega
  · rw [pdIdx_val,pdIdx_val,h]
    omega
  · rw [ptIdx_val,ptIdx_val,h]
    omega

end KiNBOL
