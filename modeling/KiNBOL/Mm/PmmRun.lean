import KiNBOL.Mm.PmmInit

namespace KiNBOL

/-- The allocator together with the pages every live allocation still owns. -/
structure PmmRun where
  pmm : Pmm
  live : List (Finset Nat)

namespace PmmRun

open Pmm

/-- A page that may be passed to a free: owned by a live allocation, or free already (a
repeated free). -/
def MayFree (r : PmmRun) (j : Nat) : Prop := (∃ run ∈ r.live, j ∈ run) ∨ r.pmm.Free j

/-- One call of the allocator's interface. A free takes its pages out of every allocation. -/
inductive Step : PmmRun → PmmRun → Prop
  | allocPage {r : PmmRun} {a : BitVec 64} {p : Pmm} (h : pmmAllocPage r.pmm = (some a,p)) :
      Step r ⟨p,{pageOf a} :: r.live⟩
  | allocPageNull {r : PmmRun} {p : Pmm} (h : pmmAllocPage r.pmm = (none,p)) : Step r ⟨p,r.live⟩
  | allocContiguous {r : PmmRun} {n : Nat} {a : BitVec 64} {p : Pmm}
      (h : pmmAllocPagesContiguous r.pmm n = (some a,p)) :
      Step r ⟨p,Finset.Ico (pageOf a) (pageOf a+n) :: r.live⟩
  | allocContiguousNull {r : PmmRun} {n : Nat} {p : Pmm}
      (h : pmmAllocPagesContiguous r.pmm n = (none,p)) : Step r ⟨p,r.live⟩
  | freePage {r : PmmRun} {phys : BitVec 64} (h : r.MayFree (pageOf phys)) :
      Step r ⟨pmmFreePage r.pmm phys,r.live.map (· \ {pageOf phys})⟩
  | freePages {r : PmmRun} {phys : BitVec 64} {n : Nat}
      (h : ∀ j ∈ Finset.Ico (pageOf phys) (pageOf phys+n), r.MayFree j) :
      Step r ⟨pmmFreePages r.pmm phys n,
        r.live.map (· \ Finset.Ico (pageOf phys) (pageOf phys+n))⟩

/-- A page an allocation may consist of: usable memory from 1 MiB on, outside the bitmap. -/
def Good (memmap : List MemmapEntry) (bitmapAt : BitVec 64) (total page : Nat) : Prop :=
  (∃ e ∈ memmap, e.Usable ∧ e.Holds page) ∧ firstPage ≤ page ∧
    ¬(pageOf bitmapAt ≤ page ∧ page < pageOf bitmapAt+bitmapPages total)

/-- What every call preserves. -/
structure Ok (memmap : List MemmapEntry) (bitmapAt : BitVec 64) (total : Nat) (r : PmmRun) :
    Prop where
  counted : r.pmm.Counted
  limit : r.pmm.totalPages = total
  free : ∀ j, firstPage ≤ j → r.pmm.Free j → Good memmap bitmapAt total j
  live : ∀ run ∈ r.live, ∀ j ∈ run, Good memmap bitmapAt total j ∧ ¬r.pmm.Free j
  disjoint : r.live.Pairwise Disjoint

variable {memmap : List MemmapEntry} {bitmapAt : BitVec 64} {total : Nat}

theorem Ok.below {r : PmmRun} (h : Ok memmap bitmapAt total r) {p : Pmm} {i n : Nat}
    (ht : Takes r.pmm p i n) {j : Nat} (h1 : i ≤ j) (h2 : j < i+n) : j < pageLimit := by
  have hlt := (ht.run j h1 h2).1
  have hlim : r.pmm.totalPages ≤ pageLimit := h.counted.1
  omega

/-- Recording a taken run as a new live allocation. -/
theorem Ok.take {r : PmmRun} (h : Ok memmap bitmapAt total r) {p : Pmm} {i n : Nat}
    (hfirst : firstPage ≤ i) (ht : Takes r.pmm p i n) :
    Ok memmap bitmapAt total ⟨p,Finset.Ico i (i+n) :: r.live⟩ := by
  refine ⟨ht.counted h.counted,ht.total.trans h.limit,?_,?_,?_⟩
  · intro j hj hf
    exact h.free j hj ((ht.free_iff j).mp hf).1
  · intro run hrun j hj
    rw [ht.free_iff]
    rcases List.mem_cons.mp hrun with rfl | hrun
    · have hin := Finset.mem_Ico.mp hj
      exact ⟨h.free j (by omega) (ht.run j hin.1 hin.2),fun hf => hf.2 hin⟩
    · have hold := h.live run hrun j hj
      exact ⟨hold.1,fun hf => hold.2 hf.1⟩
  · refine List.pairwise_cons.mpr ⟨fun run hrun => ?_,h.disjoint⟩
    apply Finset.disjoint_left.mpr
    intro j hj hin
    have hj' := Finset.mem_Ico.mp hj
    exact (h.live run hrun j hin).2 (ht.run j hj'.1 hj'.2)

/-- Giving back pages that are live or free takes them out of every allocation. -/
theorem Ok.give {r : PmmRun} (h : Ok memmap bitmapAt total r) {p : Pmm} {i n : Nat}
    (hmay : ∀ j ∈ Finset.Ico i (i+n), r.MayFree j) (hg : Gives r.pmm p i n) :
    Ok memmap bitmapAt total ⟨p,r.live.map (· \ Finset.Ico i (i+n))⟩ := by
  refine ⟨hg.counted h.counted,hg.total.trans h.limit,?_,?_,?_⟩
  · intro j hj hf
    rcases (hg.free_iff j).mp hf with hf | hheld
    · exact h.free j hj hf
    · have hm := mem_held.mp hheld
      rcases hmay j (Finset.mem_Ico.mpr hm.1) with ⟨run,hrun,hin⟩ | hf
      · exact (h.live run hrun j hin).1
      · exact h.free j hj hf
  · intro run hrun j hj
    obtain ⟨old,hold,rfl⟩ := List.mem_map.mp hrun
    obtain ⟨hin,hout⟩ := Finset.mem_sdiff.mp hj
    have hlive := h.live old hold j hin
    refine ⟨hlive.1,fun hf => ?_⟩
    rcases (hg.free_iff j).mp hf with hf | hheld
    · exact hlive.2 hf
    · exact hout (Finset.mem_Ico.mpr (mem_held.mp hheld).1)
  · refine List.pairwise_map.mpr (h.disjoint.imp ?_)
    intro a b hab
    exact Finset.disjoint_of_subset_left Finset.sdiff_subset
      (Finset.disjoint_of_subset_right Finset.sdiff_subset hab)

private theorem Ico_one (i : Nat) : Finset.Ico i (i+1) = {i} := by
  ext j
  simp only [Finset.mem_Ico,Finset.mem_singleton]
  omega

theorem Ok.step {r s : PmmRun} (h : Ok memmap bitmapAt total r) (hs : Step r s) :
    Ok memmap bitmapAt total s := by
  cases hs with
  | allocPage hp =>
    obtain ⟨i,rfl,hfirst,ht,-⟩ := pmmAllocPage_some hp
    rw [pageOf_pageAddr (h.below ht (le_refl i) (by omega)),← Ico_one]
    exact h.take hfirst ht
  | allocPageNull hp =>
    obtain ⟨rfl,-⟩ := pmmAllocPage_none hp
    exact h
  | allocContiguous hp =>
    obtain ⟨i,rfl,hfirst,hn,ht⟩ := pmmAllocPagesContiguous_some hp
    rw [pageOf_pageAddr (h.below ht (le_refl i) (by omega))]
    exact h.take hfirst ht
  | allocContiguousNull hp =>
    obtain rfl := pmmAllocPagesContiguous_none hp
    exact h
  | freePage hmay =>
    rw [← Ico_one]
    refine h.give ?_ (pmmFreePage_gives r.pmm _)
    intro j hj
    rw [Ico_one,Finset.mem_singleton] at hj
    exact hj ▸ hmay
  | freePages hmay => exact h.give hmay (pmmFreePages_gives r.pmm _ _)

theorem Ok.init {bytes : Nat → BitVec 8} (hm : MemmapOk memmap) {p : Pmm}
    (hinit : pmmInit (pmmBoot bytes) memmap = (some bitmapAt,p)) :
    Ok memmap bitmapAt p.totalPages ⟨p,[]⟩ := by
  obtain ⟨hc,hfree⟩ := pmmInit_spec bytes memmap hm hinit
  refine ⟨hc,rfl,?_,by simp,List.Pairwise.nil⟩
  intro j hj hf
  obtain ⟨huse,hout⟩ := (hfree j).mp hf
  exact ⟨huse,hj,hout⟩

end PmmRun

open PmmRun in
/-- From `pmm_init` on, over any calls that free only live pages: the counter is exact, live
allocations are disjoint runs of usable memory, and so is every run that is handed out. -/
theorem pmm_run_sound (bytes : Nat → BitVec 8) (memmap : List MemmapEntry)
    (hm : MemmapOk memmap)
    (hroom : ∃ e ∈ memmap, e.Usable ∧ 0x100000 ≤ e.base.toNat ∧
      bitmapBytes ((memmapHighest (pmmBoot bytes) memmap).2.toNat/4096) ≤ e.length.toNat) :
    ∃ bitmapAt p, pmmInit (pmmBoot bytes) memmap = (some bitmapAt,p) ∧
    ∀ r, Relation.ReflTransGen Step ⟨p,[]⟩ r →
      r.pmm.freePages.toNat = downCount r.pmm.bmGet r.pmm.totalPages ∧
      (∀ run ∈ r.live, ∀ j ∈ run, Good memmap bitmapAt p.totalPages j) ∧
      r.live.Pairwise Disjoint ∧
      (∀ a p', pmmAllocPage r.pmm = (some a,p') →
        a = pageAddr (pageOf a) ∧ Good memmap bitmapAt p.totalPages (pageOf a)) ∧
      (∀ n a p', pmmAllocPagesContiguous r.pmm n = (some a,p') →
        a = pageAddr (pageOf a) ∧
        ∀ j ∈ Finset.Ico (pageOf a) (pageOf a+n), Good memmap bitmapAt p.totalPages j) := by
  obtain ⟨e,he,hfit⟩ := hroom
  have hsome : ∃ reg, bitmapRegion memmap
      (bitmapBytes ((memmapHighest (pmmBoot bytes) memmap).2.toNat/4096)) = some reg := by
    apply Option.isSome_iff_exists.mp
    rw [bitmapRegion,List.find?_isSome]
    exact ⟨e,he,by simpa using hfit⟩
  obtain ⟨reg,hreg⟩ := hsome
  let p := (pmmInit (pmmBoot bytes) memmap).2
  have hinit : pmmInit (pmmBoot bytes) memmap = (some reg.base,p) := by
    simp only [p,pmmInit,hreg]
  refine ⟨reg.base,p,hinit,fun r hr => ?_⟩
  have hok : Ok memmap reg.base p.totalPages r :=
    reach_invariant (Ok.init hm hinit) (fun a b ha hab => ha.step hab) hr
  refine ⟨hok.counted.2,fun run hrun j hj => (hok.live run hrun j hj).1,hok.disjoint,?_,?_⟩
  · intro a p' ha
    obtain ⟨i,rfl,hfirst,ht,-⟩ := pmmAllocPage_some ha
    have hi := pageOf_pageAddr (hok.below ht (le_refl i) (by omega))
    rw [hi]
    exact ⟨rfl,hok.free i hfirst (ht.run i (le_refl i) (by omega))⟩
  · intro n a p' ha
    obtain ⟨i,rfl,hfirst,hn,ht⟩ := pmmAllocPagesContiguous_some ha
    have hi := pageOf_pageAddr (hok.below ht (le_refl i) (by omega))
    rw [hi]
    refine ⟨rfl,fun j hj => ?_⟩
    have hj' := Finset.mem_Ico.mp hj
    exact hok.free j (by omega) (ht.run j hj'.1 hj'.2)

/-- The map of a small machine: low memory and two regions above 1 MiB are usable, the firmware's
region below 1 MiB and its tables between the two others are reserved. -/
def sampleMemmap : List MemmapEntry :=
  [⟨0x1000,0x9E000,0⟩,⟨0xF0000,0x10000,1⟩,⟨0x100000,0x700000,0⟩,⟨0x800000,0x8000,2⟩,
    ⟨0x808000,0x7F8000,0⟩]

theorem sampleMemmap_ok : MemmapOk sampleMemmap where
  aligned := by decide
  fits := by decide
  disjoint := by
    have hsorted : sampleMemmap.Pairwise fun a b =>
        a.base.toNat/4096+a.length.toNat/4096 ≤ b.base.toNat/4096 := by decide
    refine hsorted.imp fun hle _ _ page hboth => ?_
    exact absurd (hle.trans hboth.2.1) (Nat.not_le.mpr hboth.1.2)

open PmmRun in
theorem pmm_run_sound_sample :
    ∃ bitmapAt p, pmmInit (pmmBoot fun _ => 0) sampleMemmap = (some bitmapAt,p) ∧
    ∀ r, Relation.ReflTransGen Step ⟨p,[]⟩ r →
      r.pmm.freePages.toNat = downCount r.pmm.bmGet r.pmm.totalPages ∧
      (∀ run ∈ r.live, ∀ j ∈ run, Good sampleMemmap bitmapAt p.totalPages j) ∧
      r.live.Pairwise Disjoint ∧
      (∀ a p', pmmAllocPage r.pmm = (some a,p') →
        a = pageAddr (pageOf a) ∧ Good sampleMemmap bitmapAt p.totalPages (pageOf a)) ∧
      (∀ n a p', pmmAllocPagesContiguous r.pmm n = (some a,p') →
        a = pageAddr (pageOf a) ∧
        ∀ j ∈ Finset.Ico (pageOf a) (pageOf a+n), Good sampleMemmap bitmapAt p.totalPages j) :=
  pmm_run_sound _ sampleMemmap sampleMemmap_ok ⟨⟨0x100000,0x700000,0⟩,by decide,by decide⟩

end KiNBOL
