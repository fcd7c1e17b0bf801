import KiNBOL.Mm.VmRun

namespace KiNBOL

/-- The processor lets user code at an address, for writing too when asked. -/
def UserMapped (mem : PhysMem) (pm : Nat) (needWrite : Bool) (va : BitVec 64) : Prop :=
  ∃ x, translate mem pm va = some x ∧ x.user = true ∧ (needWrite = true → x.write = true)

/-- The entries that the low 48 bits of an address select, read as the walkers read them, are
present and user, the last one writable when asked. -/
def UserWalk (mem : PhysMem) (pm : Nat) (needWrite : Bool) (va : BitVec 64) : Prop :=
  ∃ pt i, ptSlot presentUser mem pm va = some (pt,i) ∧ presentUser (mem pt i) = true ∧
    (needWrite = true → has (mem pt i) vmmWrite = true)

/-- An accepted range is not empty, canonical lower half and open to the user throughout. -/
def CheckSound (m : Machine) (pm : Nat) (virt len : BitVec 64) (needWrite : Bool) : Prop :=
  vmmCheckUserRange m (some pm) virt len needWrite = true → 0 < len.toNat ∧
    ∀ a : BitVec 64, virt.toNat ≤ a.toNat → a.toNat < virt.toNat+len.toNat →
      LowerHalf a ∧ UserMapped m.mem pm needWrite a

/-- A lower-half range that is open to the user throughout is accepted. -/
def CheckComplete (m : Machine) (pm : Nat) (virt len : BitVec 64) (needWrite : Bool) : Prop :=
  0 < len.toNat → virt.toNat+len.toNat ≤ 2^47 →
    (∀ a : BitVec 64, virt.toNat ≤ a.toNat → a.toNat < virt.toNat+len.toNat →
      UserMapped m.mem pm needWrite a) →
    vmmCheckUserRange m (some pm) virt len needWrite = true

variable {roots : Nat → Prop} {pm : Nat} {m : Machine} {mem : PhysMem}

theorem checkUserPage_iff (mem : PhysMem) (pm : Nat) (needWrite : Bool) (va : BitVec 64) :
    checkUserPage mem pm needWrite va = true ↔ UserWalk mem pm needWrite va := by
  unfold checkUserPage UserWalk
  cases hs : ptSlot presentUser mem pm va with
  | none => simp
  | some s =>
    obtain ⟨pt,i⟩ := s
    cases needWrite <;> simp

/-- Rounding an address down to its page selects the same entries. -/
theorem ptSlot_page (ok : BitVec 64 → Bool) (mem : PhysMem) (pm : Nat) (va : BitVec 64) :
    ptSlot ok mem pm (va &&& pageMask) = ptSlot ok mem pm va := by
  obtain ⟨h1,h2,h3,h4⟩ := idx_page va
  unfold ptSlot
  rw [h1,h2,h3,h4]

/-- On the lower half the software walk and the processor's agree. -/
theorem userWalk_iff_mapped (h : UserTables roots mem) (hr : roots pm) (needWrite : Bool)
    {va : BitVec 64} (hva : LowerHalf va) :
    UserWalk mem pm needWrite va ↔ UserMapped mem pm needWrite va := by
  unfold UserWalk UserMapped translate
  rw [if_pos (Or.inl hva),h.hwWalk_lower hr hva,h.ptSlot_presentUser hr hva,leafWord,entryAt,slotAt]
  cases hpt : follow entryNode mem pm (tablePath va) with
  | none => simp [leafXlat]
  | some pt =>
    simp only [Option.map_some,Option.some.injEq,Prod.mk.injEq,Option.getD_some,leafXlat]
    constructor
    · intro hw
      obtain ⟨_,_,⟨rfl,rfl⟩,hu,hwr⟩ := hw
      have hu' := Bool.and_eq_true_iff.mp hu
      exact ⟨_,if_pos hu'.1,hu'.2,hwr⟩
    · intro hx
      obtain ⟨x,hx,hu,hwr⟩ := hx
      by_cases hp : present (mem pt (ptIdx va)) = true
      · rw [if_pos hp,Option.some.injEq] at hx
        subst hx
        exact ⟨pt,ptIdx va,⟨rfl,rfl⟩,Bool.and_eq_true_iff.mpr ⟨hp,hu⟩,hwr⟩
      · rw [if_neg hp] at hx
        exact absurd hx (by simp)

/-- What the check computes on a range that is neither empty nor wraps. -/
theorem checkUserRange_iff (m : Machine) (pm : Nat) {virt len : BitVec 64} (needWrite : Bool)
    (hlen : len ≠ 0#64) (hend : virt.toNat+len.toNat < 2^64) :
    vmmCheckUserRange m (some pm) virt len needWrite = true ↔
      ∀ page ∈ pageRange virt len, UserWalk m.mem pm needWrite page := by
  have hwrap : ¬(virt+len < virt) := by
    rw [BitVec.lt_def,BitVec.toNat_add]
    omega
  simp only [vmmCheckUserRange,if_neg hlen,if_neg hwrap,List.all_eq_true,checkUserPage_iff]

theorem pos_of_ne_zero {len : BitVec 64} (h : len ≠ 0#64) : 0 < len.toNat := by
  have hne : len.toNat ≠ 0 := fun hz => h (BitVec.eq_of_toNat_eq (by simpa using hz))
  omega

/-- The page of an address of a range is a page of the range. -/
theorem page_mem_range {virt len a : BitVec 64} (hlen : len ≠ 0#64)
    (hend : virt.toNat+len.toNat ≤ 2^64) (h1 : virt.toNat ≤ a.toNat)
    (h2 : a.toNat < virt.toNat+len.toNat) : a &&& pageMask ∈ pageRange virt len := by
  have hp := toNat_pageMask a
  apply (mem_pageRange_nat hlen hend).mpr
  omega

/-- Accepting implies nothing wrong exactly when the range cannot alias the lower half: it ends
below 2^47, or the check refuses it anyway because it is empty, wraps or fails at some page. -/
theorem checkSound_iff (h : UserTables roots m.mem) (hr : roots pm) (virt len : BitVec 64)
    (needWrite : Bool) : CheckSound m pm virt len needWrite ↔
      virt.toNat+len.toNat ≤ 2^47 ∨ len = 0#64 ∨ 2^64 ≤ virt.toNat+len.toNat ∨
        ∃ page ∈ pageRange virt len, ¬UserWalk m.mem pm needWrite page := by
  by_cases hlen : len = 0#64
  · have hno : vmmCheckUserRange m (some pm) virt len needWrite = false := by
      simp only [vmmCheckUserRange,if_pos hlen]
    constructor
    · exact fun _ => Or.inr (Or.inl hlen)
    · intro _ hyes
      rw [hno] at hyes
      exact Bool.noConfusion hyes
  have hpos := pos_of_ne_zero hlen
  by_cases hend : virt.toNat+len.toNat < 2^64
  · have hiff := checkUserRange_iff m pm needWrite hlen hend
    constructor
    · intro hs
      by_cases hfail : ∃ page ∈ pageRange virt len, ¬UserWalk m.mem pm needWrite page
      · exact Or.inr (Or.inr (Or.inr hfail))
      · left
        have hall : ∀ page ∈ pageRange virt len, UserWalk m.mem pm needWrite page := by
          intro page hp
          by_contra hw
          exact hfail ⟨page,hp,hw⟩
        have hlast : (virt+len-1#64).toNat = virt.toNat+len.toNat-1 := by
          simp only [BitVec.toNat_sub,BitVec.toNat_add,BitVec.toNat_ofNat]
          omega
        have hlow := ((hs (hiff.mpr hall)).2 (virt+len-1#64) (by omega) (by omega)).1
        simp only [LowerHalf] at hlow
        omega
    · intro hcond hyes
      have hall := hiff.mp hyes
      have hlow : virt.toNat+len.toNat ≤ 2^47 := by
        rcases hcond with h1 | h2 | h3 | ⟨page,hp,hw⟩
        · exact h1
        · exact absurd h2 hlen
        · omega
        · exact absurd (hall page hp) hw
      refine ⟨hpos,fun a h1 h2 => ?_⟩
      have hva : LowerHalf a := lt_of_lt_of_le h2 hlow
      refine ⟨hva,(userWalk_iff_mapped h hr needWrite hva).mp ?_⟩
      have hw := hall _ (page_mem_range hlen (by omega) h1 h2)
      unfold UserWalk at hw ⊢
      rw [ptSlot_page] at hw
      exact hw
  · have hwrap : virt+len < virt := by
      have hv := virt.isLt
      have hl := len.isLt
      rw [BitVec.lt_def,BitVec.toNat_add]
      omega
    have hno : vmmCheckUserRange m (some pm) virt len needWrite = false := by
      simp only [vmmCheckUserRange,if_neg hlen,if_pos hwrap]
    constructor
    · exact fun _ => Or.inr (Or.inr (Or.inl (by omega)))
    · intro _ hyes
      rw [hno] at hyes
      exact Bool.noConfusion hyes

theorem checkComplete (h : UserTables roots m.mem) (hr : roots pm) (virt len : BitVec 64)
    (needWrite : Bool) : CheckComplete m pm virt len needWrite := by
  intro hpos hend hall
  have hlen : len ≠ 0#64 := by
    intro hz
    rw [hz] at hpos
    simp at hpos
  apply (checkUserRange_iff m pm needWrite hlen (by omega)).mpr
  intro page hp
  have hmem := (mem_pageRange_nat hlen (by omega)).mp hp
  have hlow := pageRange_lower hlen hend hp
  -- some address of the range lies in this page
  let a : BitVec 64 := if virt.toNat ≤ page.toNat then page else virt
  have ha : virt.toNat ≤ a.toNat ∧ a.toNat < virt.toNat+len.toNat ∧
      a.toNat/4096 = page.toNat/4096 := by
    simp only [a]
    split_ifs <;> omega
  have hpage : a &&& pageMask = page := by
    apply BitVec.eq_of_toNat_eq
    rw [toNat_pageMask]
    omega
  have hva : LowerHalf a := by
    simp only [LowerHalf] at *
    omega
  have hw := (userWalk_iff_mapped h hr needWrite hva).mpr (hall a ha.1 ha.2.1)
  unfold UserWalk at hw ⊢
  rw [← ptSlot_page,hpage] at hw
  exact hw

/-- The user-pointer check on every pagemap built from `vmm_create_pagemap` by lower-half calls. -/
theorem checkUserRange_on_runs (m₀ m₁ : Machine) (pm : Nat) (ops : List VmOp)
    (hlim : m₀.pmm.totalPages ≤ frameLimit) (hnew : vmmCreatePagemap m₀ = (some pm,m₁))
    (hl : ∀ op ∈ ops, op.Lower) (virt len : BitVec 64) (needWrite : Bool) :
    CheckComplete (ops.foldl (fun m op => op.run pm m) m₁) pm virt len needWrite ∧
    (CheckSound (ops.foldl (fun m op => op.run pm m) m₁) pm virt len needWrite ↔
      virt.toNat+len.toNat ≤ 2^47 ∨ len = 0#64 ∨ 2^64 ≤ virt.toNat+len.toNat ∨
        ∃ page ∈ pageRange virt len,
          ¬UserWalk (ops.foldl (fun m op => op.run pm m) m₁).mem pm needWrite page) := by
  cases vmmCreatePagemap_cases (Owned.none m₀ hlim) with
  | inl hno =>
    rw [hno] at hnew
    simp at hnew
  | inr hyes =>
    obtain ⟨f,m',hres,-,-,-,ho,-,-⟩ := hyes
    rw [hres,Prod.mk.injEq,Option.some.injEq] at hnew
    obtain ⟨rfl,rfl⟩ := hnew
    have hrun := VmOp.runs_owned (Or.inl rfl) ops hl ho
    exact ⟨checkComplete hrun.tables (Or.inl rfl) virt len needWrite,
      checkSound_iff hrun.tables (Or.inl rfl) virt len needWrite⟩

/-- Bit 48 of an address is never looked at: beyond a mapped page its alias is accepted too. -/
theorem checkUserRange_alias :
    let ops := [VmOp.map 0x400000#64 7#64]
    vmmCreatePagemap smallMachine = (some 256,(vmmCreatePagemap smallMachine).2) ∧
    (∀ op ∈ ops, op.Lower) ∧
    ¬CheckSound (ops.foldl (fun m op => op.run 256 m) (vmmCreatePagemap smallMachine).2) 256
      0x1000000400000#64 1#64 true := by
  refine ⟨smallMachine_new,?_,fun h => ?_⟩
  · intro op hop
    rw [List.mem_singleton] at hop
    subst hop
    show LowerHalf 0x400000#64
    decide
  · have hin := (h (by decide)).2 0x1000000400000#64 (le_refl _) (by decide)
    exact absurd hin.1 (by decide)

theorem checkUserRange_on_runs_sample :
    let m := [VmOp.map 0x400000#64 7#64].foldl (fun m op => op.run 256 m)
      (vmmCreatePagemap smallMachine).2
    CheckComplete m 256 0x400000#64 4096#64 true ∧
    (CheckSound m 256 0x400000#64 4096#64 true ↔
      (0x400000#64).toNat+(4096#64).toNat ≤ 2^47 ∨ 4096#64 = 0#64 ∨
        2^64 ≤ (0x400000#64).toNat+(4096#64).toNat ∨
        ∃ page ∈ pageRange 0x400000#64 4096#64, ¬UserWalk m.mem 256 true page) := by
  apply checkUserRange_on_runs smallMachine _ 256 _ (by decide) smallMachine_new
  intro op hop
  rw [List.mem_singleton] at hop
  subst hop
  show LowerHalf 0x400000#64
  decide

end KiNBOL
