import KiNBOL.Mm.HeapInv

namespace KiNBOL

/-- Page `n` lies in a run. -/
def RunPage (r : PageRun) (n : Nat) : Prop := pageOf r.1 ≤ n ∧ n < pageOf r.1+r.2

/-- The runs out of the PMM are aligned, apart and marked. -/
structure Pmm.Owes (p : Pmm) (rs : List PageRun) : Prop where
  limit : p.totalPages ≤ pageLimit
  aligned : ∀ r ∈ rs, r.1.toNat%4096 = 0 ∧ 0 < r.2
  apart : SpansApart (rs.map runSpan)
  held : ∀ r ∈ rs, ∀ n, RunPage r n → ¬p.Free n

/-- Aligned runs are apart when no page lies in both. -/
theorem apart_of_pages {r s : PageRun} (hr : r.1.toNat%4096 = 0 ∧ 0 < r.2)
    (hs : s.1.toNat%4096 = 0 ∧ 0 < s.2) (h : ∀ n, RunPage r n → ¬RunPage s n) :
    (runSpan r).Apart (runSpan s) := by
  by_contra hno
  simp only [Span.Apart,runSpan,not_or,not_le] at hno
  simp only [RunPage,pageOf] at h
  exact h (max (r.1.toNat/4096) (s.1.toNat/4096)) (by omega) (by omega)

theorem not_both_pages {r s : PageRun} (hr : r.1.toNat%4096 = 0 ∧ 0 < r.2)
    (hs : s.1.toNat%4096 = 0 ∧ 0 < s.2) (h : (runSpan r).Apart (runSpan s)) {n : Nat}
    (hn : RunPage r n) : ¬RunPage s n := by
  intro hn'
  simp only [RunPage,pageOf,Span.Apart,runSpan] at *
  omega

/-- Runs out of the PMM, apart from the pages in `S`, which are marked too. -/
structure Pmm.OwesBut (S : Nat → Prop) (total : Nat) (p : Pmm) (rs : List PageRun) : Prop
    extends p.Owes rs where
  total : p.totalPages = total
  kept : ∀ n, S n → ¬p.Free n ∧ ∀ r ∈ rs, ¬RunPage r n

/-- Some of the runs can be counted among the other pages instead. -/
theorem Pmm.OwesBut.split {S : Nat → Prop} {total : Nat} {p : Pmm} {l₁ l₂ : List PageRun}
    (ho : p.OwesBut S total (l₁++l₂)) :
    p.OwesBut (fun n => S n ∨ ∃ r ∈ l₁, RunPage r n) total l₂ := by
  have hright : ∀ r ∈ l₂, r ∈ l₁++l₂ := fun r hr => List.mem_append_right _ hr
  have hap := ho.apart
  rw [List.map_append] at hap
  obtain ⟨-,h2,h12⟩ := List.pairwise_append.mp hap
  refine ⟨⟨ho.limit,fun r hr => ho.aligned r (hright r hr),h2,fun r hr => ho.held r (hright r hr)⟩,
    ho.total,fun n hn => ?_⟩
  rcases hn with hn | ⟨r,hr,hrn⟩
  · exact ⟨(ho.kept n hn).1,fun s hs => (ho.kept n hn).2 s (hright s hs)⟩
  · have hl : r ∈ l₁++l₂ := List.mem_append_left _ hr
    refine ⟨ho.held r hl n hrn,fun s hs => ?_⟩
    exact not_both_pages (ho.aligned r hl) (ho.aligned s (hright s hs))
      (h12 _ (List.mem_map_of_mem hr) _ (List.mem_map_of_mem hs)) hrn

/-- And back again, after a change to the remaining runs. -/
theorem Pmm.OwesBut.join {S : Nat → Prop} {total : Nat} {p p' : Pmm} {l₁ l₂ l₃ : List PageRun}
    (ho : p.OwesBut S total (l₁++l₂))
    (hn : p'.OwesBut (fun n => S n ∨ ∃ r ∈ l₁, RunPage r n) total l₃) :
    p'.OwesBut S total (l₁++l₃) := by
  have hleft : ∀ r ∈ l₁, r ∈ l₁++l₂ := fun r hr => List.mem_append_left _ hr
  have hap := ho.apart
  rw [List.map_append] at hap
  refine ⟨⟨hn.limit,fun r hr => ?_,?_,fun r hr n hrn => ?_⟩,hn.total,fun n hs => ?_⟩
  · rcases List.mem_append.mp hr with hr | hr
    · exact ho.aligned r (hleft r hr)
    · exact hn.aligned r hr
  · rw [List.map_append]
    refine List.pairwise_append.mpr ⟨(List.pairwise_append.mp hap).1,hn.apart,fun s hs t ht => ?_⟩
    obtain ⟨r,hr,rfl⟩ := List.mem_map.mp hs
    obtain ⟨r',hr',rfl⟩ := List.mem_map.mp ht
    exact apart_of_pages (ho.aligned r (hleft r hr)) (hn.aligned r' hr')
      (fun n hrn => (hn.kept n (Or.inr ⟨r,hr,hrn⟩)).2 r' hr')
  · rcases List.mem_append.mp hr with hr | hr
    · exact (hn.kept n (Or.inr ⟨r,hr,hrn⟩)).1
    · exact hn.held r hr n hrn
  · refine ⟨(hn.kept n (Or.inl hs)).1,fun r hr => ?_⟩
    rcases List.mem_append.mp hr with hr | hr
    · exact (ho.kept n hs).2 r (hleft r hr)
    · exact (hn.kept n (Or.inl hs)).2 r hr

theorem pmmPool_alloc (p : Pmm) (n : Nat) : pmmPool.alloc p n =
    if n = 1 then pmmAllocPage p else pmmAllocPagesContiguous p n := by
  simp only [PagePool.alloc,pmmPool]

/-- A run from the PMM is a run of free pages. -/
theorem pmmPool_takes {p p' : Pmm} {n : Nat} {a : BitVec 64}
    (h : pmmPool.alloc p n = (some a,p')) : ∃ i, a = pageAddr i ∧ Pmm.Takes p p' i n := by
  rw [pmmPool_alloc] at h
  split_ifs at h with hone
  · obtain ⟨i,rfl,-,ht,-⟩ := pmmAllocPage_some h
    exact ⟨i,rfl,hone ▸ ht⟩
  · obtain ⟨i,rfl,-,-,ht⟩ := pmmAllocPagesContiguous_some h
    exact ⟨i,rfl,ht⟩

theorem pmmPool_refused {p p' : Pmm} {n : Nat} (h : pmmPool.alloc p n = (none,p')) : p' = p := by
  rw [pmmPool_alloc] at h
  split_ifs at h with hone
  · exact (pmmAllocPage_none h).1
  · exact pmmAllocPagesContiguous_none h

/-- Taking a run from the PMM. -/
theorem Pmm.Owes.take {p p' : Pmm} {rs : List PageRun} {i n : Nat} (ho : p.Owes rs) (hn : 0 < n)
    (ht : Pmm.Takes p p' i n) : ((pageAddr i).toNat%4096 = 0 ∧ 0 < n) ∧ pageOf (pageAddr i) = i ∧
    (runSpan (pageAddr i,n)).hi ≤ 2^64 ∧
    (∀ r ∈ rs, (runSpan (pageAddr i,n)).Apart (runSpan r)) ∧ p'.Owes ((pageAddr i,n)::rs) := by
  have hlast := (ht.run (i+n-1) (by omega) (by omega)).1
  have hlim := ho.limit
  have hpage : pageOf (pageAddr i) = i := pageOf_pageAddr (by omega)
  have hval : (pageAddr i).toNat = i*4096 := by
    rw [pageAddr,BitVec.toNat_ofNat]
    refine Nat.mod_eq_of_lt ?_
    simp only [pageLimit] at hlim
    omega
  have hal : (pageAddr i).toNat%4096 = 0 ∧ 0 < n := by omega
  have hap : ∀ r ∈ rs, (runSpan (pageAddr i,n)).Apart (runSpan r) := by
    intro r hr
    refine apart_of_pages hal (ho.aligned r hr) (fun j hj hjr => ?_)
    simp only [RunPage,hpage] at hj
    exact ho.held r hr j hjr (ht.run j hj.1 hj.2)
  refine ⟨hal,hpage,?_,hap,ht.total.le.trans hlim,fun r hr => ?_,?_,fun r hr j hj hf => ?_⟩
  · simp only [runSpan,hval]
    simp only [pageLimit] at hlim
    omega
  · rcases List.mem_cons.mp hr with rfl | hr
    · exact hal
    · exact ho.aligned r hr
  · refine List.pairwise_cons.mpr ⟨fun s hs => ?_,ho.apart⟩
    obtain ⟨r,hr,rfl⟩ := List.mem_map.mp hs
    exact hap r hr
  · obtain ⟨hold,hout⟩ := (ht.free_iff j).mp hf
    rcases List.mem_cons.mp hr with rfl | hr
    · simp only [RunPage,hpage] at hj
      exact hout hj
    · exact ho.held r hr j hj hold

/-- Giving a run back. -/
theorem Pmm.Owes.give {p p' : Pmm} {rs : List PageRun} {r : PageRun} (ho : p.Owes rs) (hr : r ∈ rs)
    (hg : Pmm.Gives p p' (pageOf r.1) r.2) : p'.Owes (rs.erase r) := by
  have hsub : ∀ t ∈ rs.erase r, t ∈ rs := fun t ht => List.mem_of_mem_erase ht
  refine ⟨hg.total.le.trans ho.limit,fun t ht => ho.aligned t (hsub t ht),
    ho.apart.sublist (List.Sublist.map _ List.erase_sublist),fun t ht n hn hf => ?_⟩
  rcases (hg.free_iff n).mp hf with hold | hin
  · exact ho.held t (hsub t ht) n hn hold
  · -- a page of two runs that are apart
    have hp := (List.perm_cons_erase hr).map runSpan
    have hap := (hp.pairwise_iff (fun hxy => Span.Apart.symm hxy)).mp ho.apart
    have hrt := (List.pairwise_cons.mp hap).1 _ (List.mem_map_of_mem ht)
    exact not_both_pages (ho.aligned r hr) (ho.aligned t (hsub t ht)) hrt (Pmm.mem_held.mp hin).1 hn

/-- The PMM is a pool as the heap expects one, and it leaves all other pages marked. -/
theorem pmmPool_honest_but (S : Nat → Prop) (total : Nat) :
    pmmPool.Honest (Pmm.OwesBut S total) := by
  refine ⟨fun p rs n a p' ho hn hres => ?_,fun p rs n p' ho hres => ?_,fun p rs r ho hr => ?_⟩
  · obtain ⟨i,rfl,ht⟩ := pmmPool_takes hres
    obtain ⟨hal,hpage,hhi,hap,ho'⟩ := ho.toOwes.take hn ht
    refine ⟨hal.1,hhi,hap,{ ho' with total := ht.total.trans ho.total, kept := fun j hj => ?_ }⟩
    obtain ⟨hnf,hout⟩ := ho.kept j hj
    refine ⟨fun hf => hnf ((ht.free_iff j).mp hf).1,fun r hr hjr => ?_⟩
    rcases List.mem_cons.mp hr with rfl | hr
    · simp only [RunPage,hpage] at hjr
      exact hnf (ht.run j hjr.1 hjr.2)
    · exact hout r hr hjr
  · obtain rfl := pmmPool_refused hres
    exact ho
  · have hg := pmmFreePages_gives p r.1 r.2
    refine { ho.toOwes.give hr hg with total := hg.total.trans ho.total, kept := fun j hj => ?_ }
    obtain ⟨hnf,hout⟩ := ho.kept j hj
    refine ⟨fun hf => ?_,fun t ht => hout t (List.mem_of_mem_erase ht)⟩
    rcases (hg.free_iff j).mp hf with hold | hin
    · exact hnf hold
    · exact hout r hr (Pmm.mem_held.mp hin).1

/-- The PMM is such a pool. -/
theorem pmmPool_honest : pmmPool.Honest Pmm.Owes := by
  have hb := fun p => pmmPool_honest_but (fun _ => False) (Pmm.totalPages p)
  have up : ∀ (p : Pmm) (rs : List PageRun), p.Owes rs →
      Pmm.OwesBut (fun _ => False) p.totalPages p rs :=
    fun p rs ho => { ho with total := rfl, kept := fun _ hn => hn.elim }
  refine ⟨fun p rs n a p' ho hn hres => ?_,fun p rs n p' ho hres => ?_,fun p rs r ho hr => ?_⟩
  · obtain ⟨h1,h2,h3,h4⟩ := (hb p).grant p rs n a p' (up p rs ho) hn hres
    exact ⟨h1,h2,h3,h4.toOwes⟩
  · exact ((hb p).refuse p rs n p' (up p rs ho) hres).toOwes
  · exact ((hb p).free p rs r (up p rs ho) hr).toOwes

/-- Runs out of the PMM that lie below its limit. -/
structure Pmm.OwesIn (p : Pmm) (rs : List PageRun) : Prop extends p.Owes rs where
  below : ∀ r ∈ rs, ∀ n, RunPage r n → n < p.totalPages

/-- The free pages and the pages that are out add up to `total`. -/
structure Pmm.OwesAt (total : BitVec 64) (p : Pmm) (rs : List PageRun) : Prop extends p.OwesIn rs where
  balance : p.freePages+BitVec.ofNat 64 (rs.map Prod.snd).sum = total

/-- All pages of a run that is out are held. -/
theorem Pmm.OwesIn.held_all {p : Pmm} {rs : List PageRun} {r : PageRun} (ho : p.OwesIn rs)
    (hr : r ∈ rs) : (p.held (pageOf r.1) r.2).card = r.2 := by
  have hall : p.held (pageOf r.1) r.2 = Finset.Ico (pageOf r.1) (pageOf r.1+r.2) := by
    ext n
    rw [Pmm.mem_held,Finset.mem_Ico]
    refine ⟨fun hn => hn.1,fun hn => ⟨hn,ho.below r hr n hn,?_⟩⟩
    by_contra hbit
    exact ho.held r hr n hn ⟨ho.below r hr n hn,by simpa using hbit⟩
  rw [hall,Nat.card_Ico,Nat.add_sub_cancel_left]

/-- The PMM loses no page to the runs it hands out and takes back. -/
theorem pmmPool_honest_at (total : BitVec 64) : pmmPool.Honest (Pmm.OwesAt total) := by
  refine ⟨fun p rs n a p' ho hn hres => ?_,fun p rs n p' ho hres => ?_,fun p rs r ho hr => ?_⟩
  · obtain ⟨i,rfl,ht⟩ := pmmPool_takes hres
    obtain ⟨hal,hpage,hhi,hap,ho'⟩ := ho.toOwes.take hn ht
    refine ⟨hal.1,hhi,hap,{ ho' with below := fun r hr j hj => ?_, balance := ?_ }⟩
    · rw [ht.total]
      rcases List.mem_cons.mp hr with rfl | hr
      · simp only [RunPage,hpage] at hj
        exact (ht.run j hj.1 hj.2).1
      · exact ho.below r hr j hj
    · rw [ht.free,List.map_cons,List.sum_cons,BitVec.ofNat_add,← ho.balance]
      grind
  · obtain rfl := pmmPool_refused hres
    exact ho
  · have hg := pmmFreePages_gives p r.1 r.2
    refine { ho.toOwes.give hr hg with below := fun t ht j hj => ?_, balance := ?_ }
    · exact hg.total ▸ ho.below t (List.mem_of_mem_erase ht) j hj
    · have hsum := ((List.perm_cons_erase hr).map Prod.snd).sum_eq
      rw [List.map_cons,List.sum_cons] at hsum
      have hfree : (pmmFreePages p r.1 r.2).freePages = p.freePages+BitVec.ofNat 64 r.2 := by
        rw [hg.free,ho.toOwesIn.held_all hr]
      change (pmmFreePages p r.1 r.2).freePages+_ = _
      rw [hfree,← ho.balance,hsum,BitVec.ofNat_add,BitVec.add_assoc]

theorem pmmPool_honest_in : pmmPool.Honest Pmm.OwesIn := by
  have up : ∀ (p : Pmm) (rs : List PageRun), p.OwesIn rs →
      Pmm.OwesAt (p.freePages+BitVec.ofNat 64 (rs.map Prod.snd).sum) p rs :=
    fun p rs ho => { ho with balance := rfl }
  refine ⟨fun p rs n a p' ho hn hres => ?_,fun p rs n p' ho hres => ?_,fun p rs r ho hr => ?_⟩
  · obtain ⟨h1,h2,h3,h4⟩ := (pmmPool_honest_at _).grant p rs n a p' (up p rs ho) hn hres
    exact ⟨h1,h2,h3,h4.toOwesIn⟩
  · exact ((pmmPool_honest_at _).refuse p rs n p' (up p rs ho) hres).toOwesIn
  · exact ((pmmPool_honest_at _).free p rs r (up p rs ho) hr).toOwesIn

end KiNBOL
