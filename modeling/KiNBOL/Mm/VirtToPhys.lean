import KiNBOL.Mm.PageMapRun

namespace KiNBOL

/-- The physical address that the processor uses. -/
def hwPhys (mem : PhysMem) (pm : Nat) (va : BitVec 64) : Option (BitVec 64) :=
  (translate mem pm va).map (fun x => pageAddr x.page ||| (va &&& 0xFFF#64))

/-- `vmm_virt_to_phys` gives the address that the processor uses, and 0 just where there is none. -/
structure AgreesWithWalk (m : Machine) (pm : Nat) (va : BitVec 64) : Prop where
  mapped : ∀ phys, hwPhys m.mem pm va = some phys → vmmVirtToPhys m (some pm) va = phys
  zero : vmmVirtToPhys m (some pm) va = 0#64 ↔ hwPhys m.mem pm va = none

/-- The entries that the walk of `va` takes for tables have their bits from 52 up clear: those of
`get_or_create` and of the boot loader. -/
def PlainTables (mem : PhysMem) (pm : Nat) (va : BitVec 64) : Prop :=
  let e1 := mem pm (pml4Idx va)
  let e2 := mem (framePage e1) (pdptIdx va)
  let e3 := mem (framePage e2) (pdIdx va)
  (present e1 = true → e1 >>> 52 = 0#64) ∧
  (present e1 = true → present e2 = true → has e2 vmmHuge = false → e2 >>> 52 = 0#64) ∧
  (present e1 = true → present e2 = true → has e2 vmmHuge = false → present e3 = true →
    has e3 vmmHuge = false → e3 >>> 52 = 0#64)

/-- A word that, read as a page-table entry, names frame `f` with nothing above the frame field, at
an address that does not translate to 0. -/
structure NamesFrame (e : BitVec 64) (f : Nat) (va : BitVec 64) : Prop where
  present : present e = true
  high : e >>> 52 = 0#64
  frame : framePage e = f
  nonzero : f ≠ 0 ∨ va &&& 0xFFF#64 ≠ 0#64

instance (e : BitVec 64) (f : Nat) (va : BitVec 64) : Decidable (NamesFrame e f va) :=
  decidable_of_iff (KiNBOL.present e = true ∧ e >>> 52 = 0#64 ∧ framePage e = f ∧
    (f ≠ 0 ∨ va &&& 0xFFF#64 ≠ 0#64))
    ⟨fun h => ⟨h.1,h.2.1,h.2.2.1,h.2.2.2⟩,fun h => ⟨h.present,h.high,h.frame,h.nonzero⟩⟩

/-- What `vmm_virt_to_phys` needs at an address. Without a large page the page-table entry is absent
or names its frame plainly. Below a large page the word that is taken for a page-table entry lies
among the mapped data, and has to name the frame of `va` by chance. -/
def PlainLeaf (mem : PhysMem) (pm : Nat) (va : BitVec 64) : Prop :=
  let e1 := mem pm (pml4Idx va)
  let e2 := mem (framePage e1) (pdptIdx va)
  let e3 := mem (framePage e2) (pdIdx va)
  let e4 := mem (framePage e3) (ptIdx va)
  if !present e1 then True
  else if !present e2 then True
  else if has e2 vmmHuge then
    present (mem (pageOf e2) (pdIdx va)) = true ∧
    NamesFrame (mem (pageOf (mem (pageOf e2) (pdIdx va))) (ptIdx va))
      (framePage e2/2^18*2^18+pageOf va%2^18) va
  else if !present e3 then True
  else if has e3 vmmHuge then
    NamesFrame (mem (pageOf e3) (ptIdx va)) (framePage e3/2^9*2^9+pageOf va%2^9) va
  else present e4 = true → NamesFrame e4 (framePage e4) va

variable {roots : Nat → Prop} {m : Machine} {mem : PhysMem} {pm f : Nat} {e va : BitVec 64}

theorem high_iff (e : BitVec 64) : e >>> 52 = 0#64 ↔ pageOf e < frameLimit := by
  have hs : (e >>> 52).toNat = e.toNat/2^52 := by
    rw [BitVec.toNat_ushiftRight,Nat.shiftRight_eq_div_pow]
  have hz : e >>> 52 = 0#64 ↔ (e >>> 52).toNat = 0 := by
    rw [← BitVec.toNat_inj]
    simp
  rw [hz,hs,pageOf,frameLimit]
  omega

theorem framePage_of_high (h : e >>> 52 = 0#64) : framePage e = pageOf e := by
  rw [framePage_eq,Nat.mod_eq_of_lt ((high_iff e).mp h)]

/-- All bits of a word from 12 up. -/
theorem pageOf_eq_iff (hf : f < frameLimit) : pageOf e = f ↔ e >>> 52 = 0#64 ∧ framePage e = f := by
  rw [high_iff]
  constructor
  · intro h
    refine ⟨h ▸ hf,?_⟩
    rw [framePage_eq,h,Nat.mod_eq_of_lt hf]
  · intro h
    rw [framePage_eq,Nat.mod_eq_of_lt h.1] at h
    exact h.2

theorem addr_parts (e va : BitVec 64) :
    ((e &&& pageMask) ||| (va &&& 0xFFF#64)).toNat = pageOf e*4096+va.toNat%4096 := by
  have hlow : (va &&& 0xFFF#64).toNat = va.toNat%4096 := by
    rw [BitVec.toNat_and,show (0xFFF#64).toNat = 2^12-1 from rfl,Nat.and_two_pow_sub_one_eq_mod]
  have hshift : pageOf e*4096 = pageOf e <<< 12 := by rw [Nat.shiftLeft_eq]
  have hlt : va.toNat%4096 < 2^12 := by omega
  rw [BitVec.toNat_or,toNat_pageMask,hlow]
  show pageOf e*4096 ||| va.toNat%4096 = _
  rw [hshift,← Nat.shiftLeft_add_eq_or_of_lt hlt]

theorem pageAddr_mask (f : Nat) : pageAddr f &&& pageMask = pageAddr f := by
  apply BitVec.eq_of_toNat_eq
  rw [toNat_pageMask,pageAddr,BitVec.toNat_ofNat]
  omega

/-- The word gives the physical address that frame `f` and the offset make, and it is not 0. -/
theorem namesFrame_iff (hf : f < frameLimit) (hp : present e = true) :
    NamesFrame e f va ↔
      (e &&& pageMask) ||| (va &&& 0xFFF#64) = pageAddr f ||| (va &&& 0xFFF#64) ∧
      (e &&& pageMask) ||| (va &&& 0xFFF#64) ≠ 0#64 := by
  have hoff : va &&& 0xFFF#64 = 0#64 ↔ va.toNat%4096 = 0 := by
    rw [← BitVec.toNat_inj,BitVec.toNat_and,show (0xFFF#64).toNat = 2^12-1 from rfl,
      Nat.and_two_pow_sub_one_eq_mod]
    simp
  have hpage : pageOf (pageAddr f) = f := pageOf_pageAddr (lt_of_lt_of_le hf frameLimit_le)
  have hsame : (e &&& pageMask) ||| (va &&& 0xFFF#64) = pageAddr f ||| (va &&& 0xFFF#64) ↔
      pageOf e = f := by
    rw [← pageAddr_mask f,← BitVec.toNat_inj,addr_parts,addr_parts,hpage]
    omega
  have hzero : (e &&& pageMask) ||| (va &&& 0xFFF#64) = 0#64 ↔ pageOf e = 0 ∧ va.toNat%4096 = 0 := by
    rw [← BitVec.toNat_inj,addr_parts]
    simp only [BitVec.toNat_ofNat]
    omega
  rw [hsame,Ne,hzero]
  constructor
  · intro h
    have he := (pageOf_eq_iff hf).mpr ⟨h.high,h.frame⟩
    refine ⟨he,fun hz => ?_⟩
    rw [← hoff,he] at hz
    exact h.nonzero.elim (fun hn => hn hz.1) (fun hn => hn hz.2)
  · intro h
    obtain ⟨h1,h2⟩ := (pageOf_eq_iff hf).mp h.1
    refine ⟨hp,h1,h2,?_⟩
    rw [Ne,Ne,hoff,← not_and_or,← h.1]
    exact h.2

/-- Where the code comes to a word that it takes for a page-table entry. -/
theorem agrees_at (hv : vmmVirtToPhys m (some pm) va =
      if present e then (e &&& pageMask) ||| (va &&& 0xFFF#64) else 0#64)
    (hw : hwPhys m.mem pm va = some (pageAddr f ||| (va &&& 0xFFF#64))) (hf : f < frameLimit) :
    AgreesWithWalk m pm va ↔ NamesFrame e f va := by
  cases hp : present e with
  | false =>
    constructor
    · intro h
      have hz := h.zero.mp (by rw [hv,hp]; rfl)
      rw [hw] at hz
      simp at hz
    · intro h
      rw [h.present] at hp
      simp at hp
  | true =>
    rw [hp,if_pos rfl] at hv
    rw [namesFrame_iff hf hp]
    constructor
    · intro h
      refine ⟨by rw [← hv,h.mapped _ hw],fun hz => ?_⟩
      have hno := h.zero.mp (hv.trans hz)
      rw [hw] at hno
      simp at hno
    · intro h
      refine ⟨fun phys hphys => ?_,?_⟩
      · rw [hw,Option.some.injEq] at hphys
        rw [hv,h.1,hphys]
      · rw [hv,hw]
        simp [h.2]

/-- Where both find nothing. -/
theorem agrees_none (hv : vmmVirtToPhys m (some pm) va = 0#64) (hw : hwPhys m.mem pm va = none) :
    AgreesWithWalk m pm va := by
  refine ⟨fun phys hphys => ?_,by simp [hv,hw]⟩
  rw [hw] at hphys
  simp at hphys

theorem vmmVirtToPhys_some (m : Machine) (pm : Nat) (va : BitVec 64) :
    vmmVirtToPhys m (some pm) va = match ptSlot present m.mem pm va with
      | none => 0#64
      | some (pt,i) =>
        if present (m.mem pt i) then (m.mem pt i &&& pageMask) ||| (va &&& 0xFFF#64) else 0#64 := rfl


/-- `vmm_virt_to_phys` agrees with the processor exactly where the leaf is plain. -/
theorem virtToPhys_agrees_iff (m : Machine) (pm : Nat) (va : BitVec 64)
    (hva : LowerHalf va ∨ KernelHalf va) (ht : PlainTables m.mem pm va) :
    AgreesWithWalk m pm va ↔ PlainLeaf m.mem pm va := by
  obtain ⟨t1,t2,t3⟩ := ht
  have hphys : hwPhys m.mem pm va =
      (hwWalk m.mem pm va).map (fun x => pageAddr x.page ||| (va &&& 0xFFF#64)) := by
    rw [hwPhys,translate,if_pos hva]
  have hcode := vmmVirtToPhys_some m pm va
  have hframe := framePage_lt
  unfold PlainLeaf
  simp only [ptSlot,pageOf_pageMask] at hcode
  unfold hwWalk at hphys
  dsimp only at hphys t1 t2 t3 ⊢
  cases h1 : present (m.mem pm (pml4Idx va)) with
  | false =>
    simp only [h1,Bool.not_false,Bool.false_eq_true,if_false,if_true,Option.map_none] at hcode hphys ⊢
    exact iff_of_true (agrees_none hcode hphys) trivial
  | true =>
    have p1 := framePage_of_high (t1 h1)
    simp only [h1,Bool.not_true,Bool.false_eq_true,if_false,if_true,← p1] at hcode hphys ⊢
    generalize m.mem pm (pml4Idx va) = e1 at *
    generalize hg2 : m.mem (framePage e1) (pdptIdx va) = e2 at *
    cases h2 : present e2 with
    | false =>
      simp only [h2,Bool.not_false,Bool.false_eq_true,if_false,if_true,Option.map_none]
        at hcode hphys ⊢
      exact iff_of_true (agrees_none hcode hphys) trivial
    | true =>
      simp only [h2,Bool.not_true,Bool.false_eq_true,if_false,if_true] at hcode hphys ⊢
      cases g2 : has e2 vmmHuge with
      | true =>
        -- a 1 GiB page: two words of its data are taken for entries
        have hf : framePage e2/2^18*2^18+pageOf va%2^18 < frameLimit := by
          have := hframe e2
          simp only [frameLimit] at *
          omega
        simp only [g2,if_true,Option.map_some,xlat] at hphys ⊢
        cases h3 : present (m.mem (pageOf e2) (pdIdx va)) with
        | true =>
          simp only [h3,if_true] at hcode
          rw [agrees_at hcode hphys hf]
          simp
        | false =>
          simp only [h3,Bool.false_eq_true,if_false] at hcode
          rw [agrees_at (e := 0#64) (hcode.trans (by simp)) hphys hf]
          exact iff_of_false (fun h => by simpa using h.present) (fun h => by simp at h)
      | false =>
        have p2 := framePage_of_high (t2 h1 h2 g2)
        simp only [g2,Bool.false_eq_true,if_false,← p2] at hcode hphys ⊢
        generalize hg3 : m.mem (framePage e2) (pdIdx va) = e3 at *
        cases h3 : present e3 with
        | false =>
          simp only [h3,Bool.not_false,Bool.false_eq_true,if_false,if_true,Option.map_none]
            at hcode hphys ⊢
          exact iff_of_true (agrees_none hcode hphys) trivial
        | true =>
          simp only [h3,Bool.not_true,Bool.false_eq_true,if_false,if_true] at hcode hphys ⊢
          cases g3 : has e3 vmmHuge with
          | true =>
            -- a 2 MiB page: a word of its data is taken for the page-table entry
            have hf : framePage e3/2^9*2^9+pageOf va%2^9 < frameLimit := by
              have := hframe e3
              simp only [frameLimit] at *
              omega
            simp only [g3,if_true,Option.map_some,xlat] at hphys ⊢
            exact agrees_at hcode hphys hf
          | false =>
            have p3 := framePage_of_high (t3 h1 h2 g2 h3 g3)
            simp only [g3,Bool.false_eq_true,if_false,← p3] at hcode hphys ⊢
            cases h4 : present (m.mem (framePage e3) (ptIdx va)) with
            | false =>
              simp only [h4,Bool.not_false,Bool.false_eq_true,if_false,if_true,Option.map_none]
                at hcode hphys ⊢
              exact iff_of_true (agrees_none hcode hphys) (fun h => h.elim)
            | true =>
              simp only [h4,Bool.not_true,Bool.false_eq_true,if_false,Option.map_some,xlat] at hphys ⊢
              rw [agrees_at hcode hphys (hframe _)]
              simp

/-- The tables of lower halves are plain. -/
theorem TableTree.plainTables (h : TableTree roots mem) (hr : roots pm) (hva : LowerHalf va) :
    PlainTables mem pm va := by
  have h3 : TablePath ([pml4Idx va,pdptIdx va]++[pdIdx va]) := tablePath_va hva
  have h2 : TablePath ([pml4Idx va]++[pdptIdx va]) := h3.left
  have h1 : TablePath ([]++[pml4Idx va]) := h2.left
  have hplain : ∀ {f : Nat} {e : BitVec 64}, TableWord f e → e >>> 52 = 0#64 := by
    intro f e hf
    rw [high_iff,hf.page]
    exact hf.lt
  have hno : ∀ e : BitVec 64, present e = false → ¬present e = true := by
    intro e he
    simp [he]
  rcases h.step hr h1 rfl with ⟨f1,he1,hn1⟩ | ⟨habs,-⟩
  · rcases h.step hr h2 hn1 with ⟨f2,he2,hn2⟩ | ⟨habs,-⟩
    · have he3 : present (mem f2 (pdIdx va)) = true → mem f2 (pdIdx va) >>> 52 = 0#64 := by
        intro hp
        rcases h.step hr h3 hn2 with ⟨f3,he3,-⟩ | ⟨habs,-⟩
        · exact hplain he3
        · exact absurd hp (hno _ habs)
      unfold PlainTables
      dsimp only
      rw [he1.framePage,he2.framePage]
      exact ⟨fun _ => hplain he1,fun _ _ _ => hplain he2,fun _ _ _ hp _ => he3 hp⟩
    · unfold PlainTables
      dsimp only
      rw [he1.framePage]
      exact ⟨fun _ => hplain he1,fun _ hp _ => absurd hp (hno _ habs),
        fun _ hp _ _ _ => absurd hp (hno _ habs)⟩
  · exact ⟨fun hp => absurd hp (hno _ habs),fun hp _ _ => absurd hp (hno _ habs),
      fun hp _ _ _ _ => absurd hp (hno _ habs)⟩

/-- A task's page mapped with `VMM_FLAGS_USER_DATA` (0x8000000000000007): the no-execute bit stays in the address. -/
theorem virtToPhys_nx :
    let m := (vmmMap taskMachine (some 256) 0x400000#64 (pageAddr 300)
      0x8000000000000007#64).2
    PlainTables m.mem 256 0x400000#64 ∧ hwPhys m.mem 256 0x400000#64 = some 0x12C000#64 ∧
    vmmVirtToPhys m (some 256) 0x400000#64 = 0x800000000012C000#64 ∧
    ¬AgreesWithWalk m 256 0x400000#64 := by
  have hphys : hwPhys (vmmMap taskMachine (some 256) 0x400000#64 (pageAddr 300)
      0x8000000000000007#64).2.mem 256 0x400000#64 = some 0x12C000#64 := by decide
  have hcode : vmmVirtToPhys (vmmMap taskMachine (some 256) 0x400000#64 (pageAddr 300)
      0x8000000000000007#64).2 (some 256) 0x400000#64 = 0x800000000012C000#64 := by decide
  refine ⟨by unfold PlainTables; decide,hphys,hcode,fun h => ?_⟩
  have hsame := h.mapped _ hphys
  rw [hcode] at hsame
  exact absurd hsame (by decide)

/-- Without the bit it is right. -/
theorem virtToPhys_agrees_iff_sample :
    let m := (vmmMap taskMachine (some 256) 0x400000#64 (pageAddr 300) 7#64).2
    AgreesWithWalk m 256 0x400123#64 ∧ hwPhys m.mem 256 0x400123#64 = some 0x12C123#64 := by
  have ht : PlainTables (vmmMap taskMachine (some 256) 0x400000#64 (pageAddr 300) 7#64).2.mem 256
      0x400123#64 := by
    unfold PlainTables
    decide
  refine ⟨(virtToPhys_agrees_iff _ 256 0x400123#64 (Or.inl (by decide)) ht).mpr ?_,by decide⟩
  unfold PlainLeaf
  decide

end KiNBOL
