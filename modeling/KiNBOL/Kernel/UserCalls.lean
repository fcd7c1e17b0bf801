import KiNBOL.Kernel.Isolation

namespace KiNBOL

variable {roots : Nat → Prop} {pm : Nat} {m m₁ : Machine}

/-- `vmm_map` of a frame just taken, whatever its status. -/
theorem vmmMap_evolves (ho : Owned roots m) (hr : roots pm) {va : BitVec 64} (hva : LowerHalf va)
    {f : Nat} (ht : Taken m m₁ f) (flags : BitVec 64) :
    Owned roots (vmmMap m₁ (some pm) va (pageAddr f) flags).2 ∧
    Evolves roots pm m (vmmMap m₁ (some pm) va (pageAddr f) flags).2 := by
  obtain ⟨ho1,hheld1,hnew1,hev1,-,-⟩ := @Owned.taken roots pm m m₁ f ho ht
  obtain ⟨m2,ho2,hg,-,-,hfail | ⟨mem',-,-,hres⟩⟩ := vmmMap_fresh ho1 hr hva hheld1 hnew1 flags
  · rw [hfail]
    exact ⟨ho2,hev1.trans hr hg.toEvolves⟩
  · have hsp := mapTaken_spec ho hr hva ht flags
    simp only [mapTaken,hres,if_true] at hsp
    rw [hres]
    exact ⟨hsp.owned,hsp.toEvolves⟩

/-- A page taken, filled and mapped in the active pagemap. -/
theorem mapFilled_evolves (ho : Owned roots m) (hr : roots m.cr3) {va : BitVec 64}
    (hva : LowerHalf va) {phys : BitVec 64} {p : Pmm} (ha : pmmAllocPage m.pmm = (some phys,p))
    {mem' : PhysMem} (hmem : ∀ n, n ≠ pageOf phys → mem' n = m.mem n) (flags : BitVec 64) :
    Owned roots (vmmMap ⟨mem',p,m.cr3⟩ (some m.cr3) va phys flags).2 ∧
    Evolves roots m.cr3 m (vmmMap ⟨mem',p,m.cr3⟩ (some m.cr3) va phys flags).2 := by
  obtain ⟨f,rfl,-,htakes,-⟩ := pmmAllocPage_some ha
  rw [ho.free_page (takes_one htakes).1] at hmem
  have ht : Taken m ⟨mem',p,m.cr3⟩ f := ⟨htakes,hmem,rfl⟩
  exact vmmMap_evolves ho hr hva ht flags

/-- The two ways through `mapZeroed`. -/
theorem mapZeroed_cases (m : Machine) (va : BitVec 64) :
    (mapZeroed m va = none ∧ ∃ p, pmmAllocPage m.pmm = (none,p)) ∨
    ∃ phys p, pmmAllocPage m.pmm = (some phys,p) ∧ mapZeroed m va =
      some (vmmMap ⟨zeroPage m.mem (pageOf phys),p,m.cr3⟩ (some m.cr3) va phys vmmFlagsUserData).2 := by
  unfold mapZeroed
  cases pmmAllocPage m.pmm with
  | mk a p =>
    cases a with
    | none => exact Or.inl ⟨rfl,p,rfl⟩
    | some phys => exact Or.inr ⟨phys,p,rfl,rfl⟩

theorem mapZeroed_evolves (ho : Owned roots m) (hr : roots m.cr3) {va : BitVec 64}
    (hva : LowerHalf va) (h : mapZeroed m va = some m₁) :
    Owned roots m₁ ∧ Evolves roots m.cr3 m m₁ := by
  rcases mapZeroed_cases m va with ⟨hno,-⟩ | ⟨phys,p,ha,hres⟩
  · rw [hno] at h
    simp at h
  · rw [hres] at h
    injection h with h
    rw [← h]
    exact mapFilled_evolves ho hr hva ha (fun n hn => zeroPage_other hn) vmmFlagsUserData

theorem mapZeroedAll_evolves (pages : List (BitVec 64)) (hl : ∀ va ∈ pages, LowerHalf va)
    (ho : Owned roots m) (hr : roots m.cr3) : Owned roots (mapZeroedAll pages m).2 ∧
    Evolves roots m.cr3 m (mapZeroedAll pages m).2 := by
  induction pages generalizing m with
  | nil => exact ⟨ho,Evolves.refl roots m.cr3 m⟩
  | cons va rest ih =>
    rw [mapZeroedAll]
    cases h : mapZeroed m va with
    | none => exact ⟨ho,Evolves.refl roots m.cr3 m⟩
    | some m₁ =>
      obtain ⟨ho1,he1⟩ := mapZeroed_evolves ho hr (hl va (by simp)) h
      obtain ⟨ho2,he2⟩ := ih (fun w hw => hl w (by simp [hw])) ho1 (he1.cr3 ▸ hr)
      rw [he1.cr3] at he2
      exact ⟨ho2,he1.trans hr he2⟩

theorem mapZeroedAll_touches (pages : List (BitVec 64)) (hl : ∀ va ∈ pages, LowerHalf va)
    (ho : Owned roots m) (hr : roots m.cr3) : Touches roots m (mapZeroedAll pages m).2 := by
  obtain ⟨ho',he⟩ := mapZeroedAll_evolves pages hl ho hr
  exact he.touches ho hr ho'

theorem sysMunmap_touches (ho : Owned roots m) (hr : roots m.cr3) {addr len : BitVec 64}
    (hl : LowerRange addr len) : Touches roots m (sysMunmap m addr len).2 := by
  unfold sysMunmap
  split_ifs
  · exact Touches.refl ho
  · exact (vmmUnmapRange_unmaps ho hr hl true).touches ho hr

theorem sysMprotect_touches (ho : Owned roots m) (hr : roots m.cr3) {addr len : BitVec 64}
    (hl : LowerRange addr len) (prot : BitVec 32) :
    Touches roots m (sysMprotect m addr len prot).2 := by
  obtain ⟨mem',hres,ho',htrim,-⟩ := vmmProtect_trimmed ho hr hl (mprotectFlags prot)
  have hdone : Touches roots m (vmmProtect m (vmmCurrent m) addr len (mprotectFlags prot)).2 := by
    rw [vmmCurrent,hres]
    exact htrim.evolves.touches ho hr ho'
  unfold sysMprotect
  dsimp only
  by_cases h1 : addr &&& 0xFFF#64 ≠ 0#64
  · rw [if_pos h1]
    exact Touches.refl ho
  rw [if_neg h1]
  by_cases h2 : len = 0#64
  · rw [if_pos h2]
    exact Touches.refl ho
  rw [if_neg h2]
  by_cases h3 : (!vmmCheckUserRange m (vmmCurrent m) addr len false) = true
  · rw [if_pos h3]
    exact Touches.refl ho
  rw [if_neg h3]
  split_ifs
  · exact hdone
  · exact hdone

theorem elfLoad_touches (ho : Owned roots m) (hr : roots pm) (file : Option VfsNode)
    (rand : BitVec 64) (hl : ∀ va ∈ (elfPlan file rand).1, LowerHalf va) :
    Touches roots m (elfLoad m file (some pm) rand).2.machine := by
  have hb := elfLoad_builds hr file rand ho (fun va hva => pml4Idx_lower (hl va hva))
  exact hb.evolves.touches ho hr hb.owned

/-- `(x+4095) & ~0xFFF` when that does not wrap. -/
theorem toNat_pageUp {x : BitVec 64} (h : x.toNat ≤ 2^64-4096) :
    (pageUp x).toNat = (x.toNat+4095)/4096*4096 := by
  rw [pageUp,toNat_pageMask]
  have hval : (x+4096#64-1#64).toNat = x.toNat+4095 := by
    simp only [BitVec.toNat_sub,BitVec.toNat_add,BitVec.toNat_ofNat]
    omega
  rw [hval]

theorem mem_pagesFrom {start va : BitVec 64} {n : Nat} :
    va ∈ pagesFrom start n ↔ ∃ i, i < n ∧ va = start+BitVec.ofNat 64 (i*4096) := by
  simp only [pagesFrom,List.mem_map,List.mem_range]
  constructor
  · rintro ⟨i,hi,he⟩
    exact ⟨i,hi,he.symm⟩
  · rintro ⟨i,hi,he⟩
    exact ⟨i,hi,he.symm⟩

/-- Pages from `start` on that end in the lower half. -/
theorem pagesFrom_lower {start va : BitVec 64} {n : Nat} (h : start.toNat+n*4096 ≤ 2^47)
    (hva : va ∈ pagesFrom start n) : LowerHalf va := by
  obtain ⟨i,hi,rfl⟩ := mem_pagesFrom.mp hva
  simp only [LowerHalf,BitVec.toNat_add,BitVec.toNat_ofNat]
  omega

/-- A break in the lower half asks for lower-half pages. -/
theorem brkPages_lower (t : Task) {addr va : BitVec 64} (ha : addr.toNat ≤ 2^47)
    (hva : va ∈ brkPages t addr) : LowerHalf va := by
  have hup := toNat_pageUp (x := addr) (by omega)
  unfold brkPages at hva
  dsimp only at hva
  split_ifs at hva with hlt
  · rw [BitVec.lt_def] at hlt
    refine pagesFrom_lower ?_ hva
    rw [BitVec.toNat_sub]
    omega
  · simp at hva

theorem mmapPages_lower (t : Task) {len va : BitVec 64} (hl : LowerRange t.userMmapBase (pageUp len))
    (hva : va ∈ mmapPages t len) : LowerHalf va := by
  refine pagesFrom_lower ?_ hva
  simp only [LowerRange] at hl
  omega

/-- The stack page of a new image. -/
theorem execStackVa_lower (rand : BitVec 64) : LowerHalf (execStackVa rand) := by
  have hr : (krandPageAlignedBelow rand (16#64*1024#64*1024#64)).toNat < 2^24 := by
    rw [krandPageAlignedBelow,if_neg (by decide),
      show 16#64*1024#64*1024#64/0x1000#64 = 4096#64 by decide]
    rw [BitVec.toNat_mul,BitVec.toNat_umod,show (4096#64).toNat = 4096 by decide]
    omega
  unfold execStackVa
  generalize krandPageAlignedBelow rand (16#64*1024#64*1024#64) = r at hr
  have htop : userStackTop.toNat = 0x7FFFFFFFF000 := by decide
  have hsub : (userStackTop-r).toNat = 0x7FFFFFFFF000-r.toNat := by
    rw [BitVec.toNat_sub,htop]
    omega
  have hpage : ((userStackTop-r) &&& pageMask).toNat = (0x7FFFFFFFF000-r.toNat)/4096*4096 := by
    rw [toNat_pageMask,hsub]
  rw [LowerHalf,BitVec.toNat_sub,hpage,show (4096#64).toNat = 4096 by decide]
  omega

end KiNBOL
