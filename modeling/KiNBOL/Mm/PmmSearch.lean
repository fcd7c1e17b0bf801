import KiNBOL.Mm.PmmOps

namespace KiNBOL

open Pmm

variable {p p' : Pmm} {a : BitVec 64} {n s : Nat}

namespace Pmm

/-- A run of free pages that a search may take. -/
def FreeRun (p : Pmm) (s n : Nat) : Prop := firstPage ≤ s ∧ ∀ j, s ≤ j → j < s+n → p.Free j

/-- The first such run. -/
def LeastRun (p : Pmm) (s n : Nat) : Prop := p.FreeRun s n ∧ ∀ t, p.FreeRun t n → s ≤ t

/-- The bits tell the bitmap. -/
theorem bitmap_ext (h : ∀ j, p'.bmGet j = p.bmGet j) : p'.bitmap = p.bitmap := by
  funext i
  apply BitVec.eq_of_getLsbD_eq
  intro k hk
  have hb := h (8*i+k)
  rw [bmGet_eq,bmGet_eq,show (8*i+k)/8 = i by omega,show (8*i+k)%8 = k by omega] at hb
  exact hb

theorem eq_of_bits (hb : ∀ j, p'.bmGet j = p.bmGet j) (ht : p'.totalPages = p.totalPages)
    (hf : p'.freePages = p.freePages) (hh : p'.highestPhys = p.highestPhys) : p' = p := by
  have he := bitmap_ext hb
  cases p
  cases p'
  simp_all

end Pmm

theorem bmSetRun_highest (p : Pmm) (i n : Nat) : (bmSetRun p i n).highestPhys = p.highestPhys := by
  induction n with
  | zero => rfl
  | succ n ih =>
    rw [bmSetRun,List.range_succ,List.foldl_append]
    exact ih

theorem pmmFreePages_highest (p : Pmm) (phys : BitVec 64) (n : Nat) :
    (pmmFreePages p phys n).highestPhys = p.highestPhys := by
  induction n with
  | zero => rfl
  | succ n ih =>
    rw [pmmFreePages,List.range_succ,List.foldl_append,List.foldl_cons,List.foldl_nil]
    split_ifs
    · exact ih
    · exact ih

/-- The run that the search looks at from a page on is clear. -/
theorem clear_run (ht : s+n ≤ p.totalPages) :
    (List.range n).all (fun j => !p.bmGet (s+j)) = true ↔ ∀ j, s ≤ j → j < s+n → p.Free j := by
  rw [List.all_eq_true]
  constructor
  · intro h j h1 h2
    have hj := h (j-s) (List.mem_range.mpr (by omega))
    rw [Nat.add_sub_cancel' h1] at hj
    exact ⟨by omega,by simpa using hj⟩
  · intro h j hj
    rw [List.mem_range] at hj
    simpa using (h (s+j) (by omega) (by omega)).2

/-- A success of the search: it takes the first run. -/
theorem pmmAllocPagesContiguous_least (h : pmmAllocPagesContiguous p n = (some a,p')) :
    ∃ s, a = pageAddr s ∧ 0 < n ∧ p.LeastRun s n ∧ Takes p p' s n ∧
      p'.highestPhys = p.highestPhys := by
  unfold pmmAllocPagesContiguous at h
  split at h
  · simp at h
  · next hn =>
    split at h
    · next i hi =>
      simp only [Prod.mk.injEq,Option.some.injEq] at h
      obtain ⟨rfl,rfl⟩ := h
      obtain ⟨hb,hmem,hmin⟩ := List.find?_range'_eq_some.mp hi
      rw [List.mem_range'_1] at hmem
      have hrun := (clear_run (p := p) (s := i) (n := n) (by omega)).mp hb
      refine ⟨i,rfl,by omega,⟨⟨hmem.1,hrun⟩,fun t ht => ?_⟩,⟨hrun,(bmSetRun_bits p i n).1,
        (bmSetRun_bits p i n).2,rfl⟩,bmSetRun_highest p i n⟩
      by_contra hlt
      have hlast := (ht.2 (t+n-1) (by omega) (by omega)).1
      have hno := hmin t ht.1 (by omega)
      rw [(clear_run (by omega)).mpr ht.2] at hno
      exact Bool.noConfusion hno
    · simp at h

/-- A failure of the search: there is no run. -/
theorem pmmAllocPagesContiguous_complete (h : pmmAllocPagesContiguous p n = (none,p')) :
    p' = p ∧ (n = 0 ∨ ∀ s, ¬p.FreeRun s n) := by
  refine ⟨pmmAllocPagesContiguous_none h,?_⟩
  unfold pmmAllocPagesContiguous at h
  split at h
  · next hn =>
    rcases hn with hn | hn
    · exact Or.inl hn
    · right
      intro s hs
      have := (hs.2 (s+n-1) (by omega) (by omega)).1
      omega
  · next hn =>
    split at h
    · simp at h
    · next hi =>
      right
      intro s hs
      have hlast := (hs.2 (s+n-1) (by omega) (by omega)).1
      have hno := List.find?_range'_eq_none.mp hi s hs.1 (by omega)
      rw [(clear_run (by omega)).mpr hs.2] at hno
      exact Bool.noConfusion hno

/-- The two searches agree. -/
theorem pmmAllocPage_eq (p : Pmm) : pmmAllocPage p = pmmAllocPagesContiguous p 1 := by
  unfold pmmAllocPage pmmAllocPagesContiguous
  by_cases hz : p.totalPages < 1
  · rw [if_pos (Or.inr hz),show p.totalPages-firstPage = 0 by omega]
    rfl
  · have hone : (fun i => (List.range 1).all (fun j => !p.bmGet (i+j))) = fun i => !p.bmGet i := by
      funext i
      simp
    have hset : ∀ i, bmSetRun p i 1 = p.bmSet i := fun i => by simp [bmSetRun]
    have hbound : p.totalPages-1+1-firstPage = p.totalPages-firstPage := by omega
    simp only [if_neg (show ¬(1 = 0 ∨ p.totalPages < 1) by omega),hone,hset,hbound]
    generalize (List.range' firstPage (p.totalPages-firstPage)).find? (fun i => !p.bmGet i) = r
    cases r <;> rfl

/-- The searches take the first fit, fail only without one, and a run given back leaves the state as
it was. -/
theorem pmm_first_fit (p : Pmm) (hlim : p.totalPages ≤ pageLimit) (count : Nat) :
    (∀ a p', pmmAllocPagesContiguous p count = (some a,p') →
      ∃ s, a.toNat = s*4096 ∧ p.LeastRun s count ∧
        (∀ j, p'.bmGet j = (p.bmGet j || decide (s ≤ j ∧ j < s+count))) ∧
        p'.freePages = p.freePages-BitVec.ofNat 64 count ∧
        (p.Counted → p'.freePages.toNat+count = p.freePages.toNat) ∧
        p'.totalPages = p.totalPages ∧ p'.highestPhys = p.highestPhys ∧
        pmmFreePages p' a count = p) ∧
    (∀ p', pmmAllocPagesContiguous p count = (none,p') → p' = p) ∧
    ((pmmAllocPagesContiguous p count).1 = none ↔ count = 0 ∨ ∀ s, ¬p.FreeRun s count) ∧
    pmmAllocPage p = pmmAllocPagesContiguous p 1 := by
  refine ⟨fun a p' h => ?_,fun p' h => (pmmAllocPagesContiguous_complete h).1,?_,pmmAllocPage_eq p⟩
  · obtain ⟨s,rfl,hpos,hleast,ht,hh⟩ := pmmAllocPagesContiguous_least h
    have hs : s < p.totalPages := (hleast.1.2 s (le_refl s) (by omega)).1
    have hlt : s < 2^52 := lt_of_lt_of_le hs hlim
    have hback := pmmFreePages_gives p' (pageAddr s) count
    rw [pageOf_pageAddr (lt_of_lt_of_le hs hlim)] at hback
    obtain ⟨htot,hbits,hfree⟩ := ht.gives_back hback
    refine ⟨s,?_,hleast,ht.bits,ht.free,fun hc => ?_,ht.total,hh,?_⟩
    · rw [pageAddr,BitVec.toNat_ofNat]
      omega
    · rw [(ht.counted hc).2,hc.2]
      exact ht.downCount
    · exact eq_of_bits hbits htot hfree ((pmmFreePages_highest p' _ count).trans hh)
  · constructor
    · intro h
      have hres : pmmAllocPagesContiguous p count = (none,(pmmAllocPagesContiguous p count).2) :=
        Prod.ext h rfl
      exact (pmmAllocPagesContiguous_complete hres).2
    · intro h
      cases hres : pmmAllocPagesContiguous p count with
      | mk r p' =>
        cases r with
        | none => rfl
        | some a =>
          obtain ⟨s,-,hpos,hleast,-⟩ := pmmAllocPagesContiguous_least hres
          rcases h with h | h
          · omega
          · exact absurd hleast.1 (h s)

/-- Pages 256 and 257 of 258 are free. -/
def twoFree : Pmm := ⟨fun i => if i < 32 then 0xFF#8 else 0#8,258,2#64,0#64⟩

theorem pmm_first_fit_sample : ∃ s, (pageAddr 256).toNat = s*4096 ∧ twoFree.LeastRun s 2 ∧
    pmmFreePages (pmmAllocPagesContiguous twoFree 2).2 (pageAddr 256) 2 = twoFree := by
  obtain ⟨h,-⟩ := pmm_first_fit twoFree (by decide) 2
  have hres : (pmmAllocPagesContiguous twoFree 2).1 = some (pageAddr 256) := by decide
  obtain ⟨s,hs,hleast,-,-,-,-,-,hback⟩ := h _ _ (Prod.ext hres rfl)
  exact ⟨s,hs,hleast,hback⟩

end KiNBOL
