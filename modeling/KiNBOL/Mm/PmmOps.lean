import KiNBOL.Mm.Pmm

namespace KiNBOL

namespace Pmm

/-- `free_pages` is the number of clear bits below `total_pages`. -/
def Counted (p : Pmm) : Prop :=
  p.totalPages ≤ pageLimit ∧ p.freePages.toNat = downCount p.bmGet p.totalPages

/-- `p'` is `p` with the clear run of `n` pages from `i` taken. -/
structure Takes (p p' : Pmm) (i n : Nat) : Prop where
  run : ∀ j, i ≤ j → j < i+n → p.Free j
  total : p'.totalPages = p.totalPages
  bits : ∀ j, p'.bmGet j = (p.bmGet j || decide (i ≤ j ∧ j < i+n))
  free : p'.freePages = p.freePages-BitVec.ofNat 64 n

/-- The set pages of a run that lie below the limit. -/
def held (p : Pmm) (i n : Nat) : Finset Nat :=
  (Finset.Ico i (i+n)).filter (fun j => j < p.totalPages ∧ p.bmGet j = true)

/-- `p'` is `p` with the run of `n` pages from `i` given back. -/
structure Gives (p p' : Pmm) (i n : Nat) : Prop where
  total : p'.totalPages = p.totalPages
  bits : ∀ j, p'.bmGet j = (p.bmGet j && !decide (j ∈ p.held i n))
  free : p'.freePages = p.freePages+BitVec.ofNat 64 (p.held i n).card

theorem mem_held {p : Pmm} {i n j : Nat} :
    j ∈ p.held i n ↔ (i ≤ j ∧ j < i+n) ∧ j < p.totalPages ∧ p.bmGet j = true := by
  simp [held]

theorem Takes.free_iff {p p' : Pmm} {i n : Nat} (h : Takes p p' i n) (j : Nat) :
    p'.Free j ↔ p.Free j ∧ ¬(i ≤ j ∧ j < i+n) := by
  simp only [Free,h.total,h.bits,Bool.or_eq_false_iff,decide_eq_false_iff_not]
  tauto

theorem Gives.free_iff {p p' : Pmm} {i n : Nat} (h : Gives p p' i n) (j : Nat) :
    p'.Free j ↔ p.Free j ∨ j ∈ p.held i n := by
  have hm := @mem_held p i n j
  simp only [Free,h.total,h.bits] at *
  cases p.bmGet j <;> simp_all

/-- Taking a run lowers the number of free pages by its length. -/
theorem Takes.downCount {p p' : Pmm} {i n : Nat} (h : Takes p p' i n) :
    downCount p'.bmGet p'.totalPages+n = downCount p.bmGet p.totalPages := by
  have hr := downCount_raise (f := p.bmGet) (g := p'.bmGet) (n := p.totalPages)
    (Finset.Ico i (i+n)) (fun j hj => h.run j (Finset.mem_Ico.mp hj).1 (Finset.mem_Ico.mp hj).2)
    (fun j _ => by simp [h.bits j])
  rw [h.total]
  simpa using hr

/-- Giving a run back raises it by the number of pages that were held. -/
theorem Gives.downCount {p p' : Pmm} {i n : Nat} (h : Gives p p' i n) :
    downCount p.bmGet p.totalPages+(p.held i n).card = downCount p'.bmGet p'.totalPages := by
  rw [h.total]
  apply downCount_raise
  · intro j hj
    exact ⟨(mem_held.mp hj).2.1,by simp [h.bits j,hj]⟩
  · intro j _
    have hm := @mem_held p i n j
    rw [h.bits j]
    by_cases hj : j ∈ p.held i n
    · simp [hj,(hm.mp hj).2.2]
    · simp [hj]

/-- Taking a run keeps the counter exact. -/
theorem Takes.counted {p p' : Pmm} {i n : Nat} (h : Takes p p' i n) (hc : p.Counted) :
    p'.Counted := by
  have hcount := h.downCount
  have hle := downCount_le p.bmGet p.totalPages
  have hlim : p.totalPages ≤ 2^52 := hc.1
  refine ⟨h.total ▸ hc.1,?_⟩
  rw [h.free,BitVec.toNat_sub,BitVec.toNat_ofNat,hc.2]
  omega

/-- Giving a run back keeps the counter exact, whatever of it was free already. -/
theorem Gives.counted {p p' : Pmm} {i n : Nat} (h : Gives p p' i n) (hc : p.Counted) :
    p'.Counted := by
  have hcount := h.downCount
  have hle := downCount_le p'.bmGet p'.totalPages
  have hlim : p.totalPages ≤ 2^52 := hc.1
  have htot := h.total
  refine ⟨h.total ▸ hc.1,?_⟩
  rw [h.free,BitVec.toNat_add,BitVec.toNat_ofNat,hc.2]
  omega

/-- Giving back a run that was taken restores every bit and the counter. -/
theorem Takes.gives_back {p p' p'' : Pmm} {i n : Nat} (h : Takes p p' i n)
    (hb : Gives p' p'' i n) :
    p''.totalPages = p.totalPages ∧ (∀ j, p''.bmGet j = p.bmGet j) ∧
      p''.freePages = p.freePages := by
  have hheld : p'.held i n = Finset.Ico i (i+n) := by
    ext j
    rw [mem_held,h.total,h.bits]
    simp only [Finset.mem_Ico,Bool.or_eq_true,decide_eq_true_eq]
    exact ⟨fun hj => hj.1,fun hj => ⟨hj,(h.run j hj.1 hj.2).1,Or.inr hj⟩⟩
  refine ⟨hb.total.trans h.total,fun j => ?_,?_⟩
  · rw [hb.bits,h.bits,hheld]
    by_cases hj : i ≤ j ∧ j < i+n
    · simp [hj,(h.run j hj.1 hj.2).2]
    · simp only [hj,decide_false,Bool.or_false,Finset.mem_Ico,Bool.not_false,Bool.and_true]
  · rw [hb.free,h.free,hheld,Nat.card_Ico,Nat.add_sub_cancel_left,BitVec.sub_add_cancel]

end Pmm

open Pmm

@[simp] theorem bmSetRun_bits (p : Pmm) (i n : Nat) :
    (bmSetRun p i n).totalPages = p.totalPages ∧
    ∀ j, (bmSetRun p i n).bmGet j = (p.bmGet j || decide (i ≤ j ∧ j < i+n)) := by
  induction n with
  | zero => simp [bmSetRun]
  | succ n ih =>
    have hs : bmSetRun p i (n+1) = (bmSetRun p i n).bmSet (i+n) := by
      simp [bmSetRun,List.range_succ]
    rw [hs]
    refine ⟨ih.1,fun j => ?_⟩
    rw [bmGet_bmSet,ih.2,Bool.or_assoc,← Bool.decide_or]
    exact congrArg _ (decide_eq_decide.mpr (by omega))

/-- The single-page search takes the least free page from page 256 on. -/
theorem pmmAllocPage_some {p p' : Pmm} {a : BitVec 64} (h : pmmAllocPage p = (some a,p')) :
    ∃ i, a = pageAddr i ∧ firstPage ≤ i ∧ Takes p p' i 1 ∧
      ∀ j, firstPage ≤ j → j < i → ¬p.Free j := by
  unfold pmmAllocPage at h
  split at h
  · rename_i i hi
    simp only [Prod.mk.injEq,Option.some.injEq] at h
    obtain ⟨rfl,rfl⟩ := h
    obtain ⟨hb,hmem,hmin⟩ := List.find?_range'_eq_some.mp hi
    rw [List.mem_range'_1] at hmem
    simp only [Bool.not_eq_true'] at hb
    have hlt : i < p.totalPages := by omega
    refine ⟨i,rfl,hmem.1,{ run := ?_, total := rfl, bits := ?_, free := rfl },?_⟩
    · intro j h1 h2
      obtain rfl : j = i := by omega
      exact ⟨hlt,hb⟩
    · intro j
      change (p.bmSet i).bmGet j = _
      rw [bmGet_bmSet]
      exact congrArg _ (decide_eq_decide.mpr (by omega))
    · intro j h1 h2 hf
      have := hmin j h1 h2
      simp [hf.2] at this
  · simp at h

theorem pmmAllocPage_none {p p' : Pmm} (h : pmmAllocPage p = (none,p')) :
    p' = p ∧ ∀ j, firstPage ≤ j → ¬p.Free j := by
  unfold pmmAllocPage at h
  split at h
  · simp at h
  · rename_i hi
    simp only [Prod.mk.injEq,true_and] at h
    refine ⟨h.symm,fun j h1 hf => ?_⟩
    have hj := hf.1
    have := List.find?_range'_eq_none.mp hi j h1 (by omega)
    simp [hf.2] at this

/-- How many pages the single-page search can find. -/
def Pmm.room (p : Pmm) : Nat :=
  ((Finset.Ico firstPage p.totalPages).filter (fun i => p.bmGet i = false)).card

theorem Pmm.Takes.room {p p' : Pmm} {i : Nat} (h : Pmm.Takes p p' i 1) (hi : firstPage ≤ i) :
    p'.room+1 = p.room := by
  have hfree := h.run i (le_refl i) (by omega)
  have hmem : i ∈ (Finset.Ico firstPage p.totalPages).filter (fun j => p.bmGet j = false) :=
    Finset.mem_filter.mpr ⟨Finset.mem_Ico.mpr ⟨hi,hfree.1⟩,hfree.2⟩
  have hset : (Finset.Ico firstPage p'.totalPages).filter (fun j => p'.bmGet j = false) =
      ((Finset.Ico firstPage p.totalPages).filter (fun j => p.bmGet j = false)).erase i := by
    ext j
    rw [Finset.mem_erase,Finset.mem_filter,Finset.mem_filter,h.total,h.bits j,
      Bool.or_eq_false_iff,decide_eq_false_iff_not]
    constructor
    · intro hj
      exact ⟨by omega,hj.1,hj.2.1⟩
    · intro hj
      exact ⟨hj.2.1,hj.2.2,by omega⟩
  rw [Pmm.room,Pmm.room,hset]
  exact Finset.card_erase_add_one hmem

/-- The search fails exactly when there is no room, and takes one page else. -/
theorem pmmAllocPage_room (p : Pmm) : (p.room = 0 ∧ pmmAllocPage p = (none,p)) ∨
    ∃ f p', pmmAllocPage p = (some (pageAddr f),p') ∧ Pmm.Takes p p' f 1 ∧ p'.room+1 = p.room := by
  cases h : pmmAllocPage p with
  | mk a p' =>
    cases a with
    | none =>
      obtain ⟨rfl,hno⟩ := pmmAllocPage_none h
      refine Or.inl ⟨?_,rfl⟩
      rw [Pmm.room,Finset.card_eq_zero,Finset.filter_eq_empty_iff]
      intro j hj hb
      rw [Finset.mem_Ico] at hj
      exact hno j hj.1 ⟨hj.2,hb⟩
    | some a =>
      obtain ⟨f,rfl,hf,ht,-⟩ := pmmAllocPage_some h
      exact Or.inr ⟨f,p',rfl,ht,ht.room hf⟩

theorem pmmAllocPagesContiguous_some {p p' : Pmm} {n : Nat} {a : BitVec 64}
    (h : pmmAllocPagesContiguous p n = (some a,p')) :
    ∃ i, a = pageAddr i ∧ firstPage ≤ i ∧ 0 < n ∧ Takes p p' i n := by
  unfold pmmAllocPagesContiguous at h
  split at h
  · simp at h
  · rename_i hn
    split at h
    · rename_i i hi
      simp only [Prod.mk.injEq,Option.some.injEq] at h
      obtain ⟨rfl,rfl⟩ := h
      obtain ⟨hb,hmem,-⟩ := List.find?_range'_eq_some.mp hi
      rw [List.mem_range'_1] at hmem
      refine ⟨i,rfl,hmem.1,by omega,⟨fun j h1 h2 => ?_,(bmSetRun_bits p i n).1,
        (bmSetRun_bits p i n).2,rfl⟩⟩
      have hj := List.all_eq_true.mp hb (j-i) (List.mem_range.mpr (by omega))
      rw [Nat.add_sub_cancel' h1] at hj
      exact ⟨by omega,by simpa using hj⟩
    · simp at h

theorem pmmAllocPagesContiguous_none {p p' : Pmm} {n : Nat}
    (h : pmmAllocPagesContiguous p n = (none,p')) : p' = p := by
  unfold pmmAllocPagesContiguous at h
  split at h
  · simpa using h.symm
  · split at h
    · simp at h
    · simpa using h.symm

/-- Freeing a run lowers exactly its set bits below the limit and counts them. -/
theorem pmmFreePages_gives (p : Pmm) (phys : BitVec 64) (n : Nat) :
    Gives p (pmmFreePages p phys n) (pageOf phys) n := by
  induction n with
  | zero => exact ⟨rfl,fun j => by simp [pmmFreePages,held],by simp [pmmFreePages,held]⟩
  | succ n ih =>
    let q := pmmFreePages p phys n
    let k := pageOf phys+n
    have hs : pmmFreePages p phys (n+1) =
        if k < q.totalPages ∧ q.bmGet k then
          { q.bmClear k with freePages := q.freePages+1 } else q := by
      simp [pmmFreePages,List.range_succ,q,k]
    have hk : k ∉ p.held (pageOf phys) n := by simp [mem_held,k]
    have hqk : q.bmGet k = p.bmGet k := by simp [q,ih.bits,hk]
    have hqt : q.totalPages = p.totalPages := ih.total
    rw [hs,hqk,hqt]
    by_cases hc : k < p.totalPages ∧ p.bmGet k = true
    · rw [if_pos hc]
      have hheld : p.held (pageOf phys) (n+1) = insert k (p.held (pageOf phys) n) := by
        ext j
        rw [Finset.mem_insert,mem_held,mem_held]
        constructor
        · rintro ⟨⟨h1,h2⟩,h3⟩
          by_cases hj : j = k
          · exact Or.inl hj
          · exact Or.inr ⟨⟨h1,by omega⟩,h3⟩
        · rintro (rfl | ⟨⟨h1,h2⟩,h3⟩)
          · exact ⟨⟨by omega,by omega⟩,hc⟩
          · exact ⟨⟨h1,by omega⟩,h3⟩
      refine ⟨hqt,fun j => ?_,?_⟩
      · change (q.bmClear k).bmGet j = _
        rw [bmGet_bmClear,ih.bits,hheld]
        by_cases hj : j = k <;> simp [hj,hk]
      · change q.freePages+1 = _
        rw [hheld,Finset.card_insert_of_notMem hk,ih.free,BitVec.add_assoc]
        congr 1
        apply BitVec.eq_of_toNat_eq
        simp
    · rw [if_neg hc]
      have hheld : p.held (pageOf phys) (n+1) = p.held (pageOf phys) n := by
        ext j
        rw [mem_held,mem_held]
        constructor
        · rintro ⟨⟨h1,h2⟩,h3⟩
          have hj : j ≠ k := by rintro rfl; exact hc h3
          exact ⟨⟨h1,by omega⟩,h3⟩
        · rintro ⟨⟨h1,h2⟩,h3⟩
          exact ⟨⟨h1,by omega⟩,h3⟩
      exact ⟨hqt,fun j => by rw [hheld]; exact ih.bits j,by rw [hheld]; exact ih.free⟩

theorem pmmFreePage_eq (p : Pmm) (phys : BitVec 64) :
    pmmFreePage p phys = pmmFreePages p phys 1 := by
  simp [pmmFreePage,pmmFreePages]

theorem pmmFreePage_gives (p : Pmm) (phys : BitVec 64) :
    Gives p (pmmFreePage p phys) (pageOf phys) 1 :=
  pmmFreePage_eq p phys ▸ pmmFreePages_gives p phys 1

end KiNBOL
