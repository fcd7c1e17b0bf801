import KiNBOL.Mm.HeapInv

namespace KiNBOL

variable {σ : Type} {owes : σ → List PageRun → Prop} {h : Heap (PageLog σ)} {l₁ l₂ : List Blk}
  {m : Blk} {pool : PagePool σ}

/-- Registered runs inside a block. -/
def inside (groups : List HeapGroup) (m : Blk) : List PageRun :=
  (groups.filter (·.within m.addr m.stop)).map (fun g => (g.physBase,g.npages))

theorem mem_inside {runs : List PageRun} (ht : TableOk h.groups runs) {r : PageRun} :
    r ∈ inside h.groups m ↔
      r ∈ regs h.groups ∧ m.addr ≤ (runSpan r).lo ∧ (runSpan r).hi ≤ m.stop := by
  simp only [inside,regs,List.mem_map,List.mem_filter,HeapGroup.within,Bool.and_eq_true,
    decide_eq_true_eq]
  constructor
  · rintro ⟨g,⟨hg,⟨hu,h1⟩,h2⟩,rfl⟩
    rw [ht.base g hg hu] at h1 h2
    exact ⟨⟨g,⟨hg,hu⟩,rfl⟩,h1,h2⟩
  · rintro ⟨⟨g,⟨hg,hu⟩,rfl⟩,h1,h2⟩
    refine ⟨g,⟨hg,⟨hu,?_⟩,?_⟩,rfl⟩
    · rw [ht.base g hg hu]
      exact h1
    · rw [ht.base g hg hu]
      exact h2

theorem inside_nodup {runs : List PageRun} (ht : TableOk h.groups runs) :
    (inside h.groups m).Nodup := by
  refine ht.nodup.sublist (List.Sublist.map _ ?_)
  refine List.monotone_filter_right _ (fun g hg => ?_)
  simp only [HeapGroup.within,Bool.and_eq_true] at hg
  exact hg.1.1

/-- The registered runs inside a block fill it. -/
def Filled (h : Heap (PageLog σ)) (m : Blk) : Prop :=
  ∀ x, m.span.Has x → Covers ((inside h.groups m).map runSpan) x

/-- `covered == blk_end - blk_start`. -/
theorem covered_iff (hc : HeapCore owes h (l₁++m::l₂)) :
    ¬(h.groups.filter (·.within m.addr m.stop) = [] ∨
      ((h.groups.filter (·.within m.addr m.stop)).map (fun g => g.npages*4096)).sum ≠
        m.stop-m.addr) ↔ Filled h m := by
  have hsum : ((h.groups.filter (·.within m.addr m.stop)).map (fun g => g.npages*4096)).sum =
      measure ((inside h.groups m).map runSpan) := by
    unfold measure inside
    rw [List.map_map,List.map_map]
    refine congrArg List.sum (List.map_congr_left (fun g _ => ?_))
    simp [runSpan]
  have hap : SpansApart ((inside h.groups m).map runSpan) :=
    hc.apart.sub (inside_nodup hc.table) (fun r hr => hc.table.sub r ((mem_inside hc.table).mp hr).1)
  have hin : ∀ t ∈ (inside h.groups m).map runSpan, m.addr ≤ t.lo ∧ t.hi ≤ m.stop := by
    intro t ht
    obtain ⟨r,hr,rfl⟩ := List.mem_map.mp ht
    exact ((mem_inside hc.table).mp hr).2
  have hfill := hap.fill_iff hin
  have hpos := m.span_pos
  simp only [Blk.span] at hpos
  rw [hsum,not_or,not_not,hfill]
  constructor
  · intro hh x hx
    exact hh.2 x hx.1 hx.2
  · intro hh
    refine ⟨fun he => ?_,fun x h1 h2 => hh x ⟨h1,h2⟩⟩
    obtain ⟨t,ht,-⟩ := hh m.addr ⟨le_refl _,hpos⟩
    rw [inside,he] at ht
    simp at ht

theorem foldl_sub (l : List HeapGroup) (n : BitVec 32) :
    l.foldl (fun n g => n-BitVec.ofNat 32 g.npages) n =
      n-BitVec.ofNat 32 ((l.map (fun g => (g.physBase,g.npages))).map Prod.snd).sum := by
  induction l generalizing n with
  | nil => simp
  | cons g l ih =>
    rw [List.foldl_cons,ih,List.map_cons,List.map_cons,List.sum_cons,BitVec.ofNat_add]
    grind

theorem regs_release {start stop : Nat} {groups : List HeapGroup} {r : PageRun} :
    r ∈ regs (groups.map (fun g => if g.within start stop then { g with inUse := false } else g)) ↔
      ∃ g ∈ groups, g.inUse = true ∧ g.within start stop = false ∧ r = (g.physBase,g.npages) := by
  simp only [regs,List.mem_map,List.mem_filter]
  constructor
  · rintro ⟨g',⟨⟨g,hg,rfl⟩,hu⟩,rfl⟩
    cases hw : g.within start stop with
    | true => simp [hw] at hu
    | false =>
      simp only [hw,Bool.false_eq_true,if_false] at hu ⊢
      exact ⟨g,hg,hu,hw,rfl⟩
  · rintro ⟨g,hg,hu,hw,rfl⟩
    exact ⟨g,⟨⟨g,hg,by simp [hw]⟩,hu⟩,rfl⟩

/-- The table after a reclaim. -/
theorem TableOk.release {runs runs' : List PageRun} (ht : TableOk h.groups runs)
    (hruns : ∀ r, r ∈ runs' ↔ r ∈ runs ∧ r ∉ inside h.groups m) :
    TableOk (h.groups.map (fun g =>
      if g.within m.addr m.stop then { g with inUse := false } else g)) runs' where
  length := by rw [List.length_map,ht.length]
  base := by
    intro g' hg' hu
    obtain ⟨g,hg,rfl⟩ := List.mem_map.mp hg'
    cases hw : g.within m.addr m.stop with
    | true => simp [hw] at hu
    | false =>
      simp only [hw,Bool.false_eq_true,if_false] at hu ⊢
      exact ht.base g hg hu
  nodup := by
    have hsub : regs (h.groups.map (fun g =>
        if g.within m.addr m.stop then { g with inUse := false } else g)) =
        regs (h.groups.filter (fun g => !g.within m.addr m.stop)) := by
      unfold regs
      generalize h.groups = groups
      induction groups with
      | nil => rfl
      | cons g l ih => cases hw : g.within m.addr m.stop <;> cases hu : g.inUse <;> simp_all
    rw [hsub]
    exact ht.nodup.sublist (List.Sublist.map _ (List.filter_sublist.filter _))
  sub := by
    intro r hr
    obtain ⟨g,hg,hu,hw,rfl⟩ := regs_release.mp hr
    have hreg : (g.physBase,g.npages) ∈ regs h.groups :=
      List.mem_map.mpr ⟨g,List.mem_filter.mpr ⟨hg,hu⟩,rfl⟩
    refine (hruns _).mpr ⟨ht.sub _ hreg,fun hin => ?_⟩
    obtain ⟨-,h1,h2⟩ := (mem_inside ht).mp hin
    have hb := ht.base g hg hu
    have hyes : g.within m.addr m.stop = true := by
      simp only [HeapGroup.within,hu,Bool.true_and,Bool.and_eq_true,decide_eq_true_eq,hb]
      exact ⟨h1,h2⟩
    rw [hw] at hyes
    exact Bool.noConfusion hyes

/-- `heap_try_reclaim`: nothing happens unless whole groups fill the block; then the block leaves
the list and exactly these groups go back. -/
theorem heapTryReclaim_cases (hp : pool.Honest owes) (hc : HeapCore owes h (l₁++m::l₂)) :
    (¬Filled h m ∧ heapTryReclaim pool.logged h m.addr = h) ∨
    (Filled h m ∧ ∃ h', heapTryReclaim pool.logged h m.addr = h' ∧ HeapCore owes h' (l₁++l₂) ∧
      h'.gUsedBytes = h.gUsedBytes ∧ h'.gUsedBlocks = h.gUsedBlocks ∧
      h'.pmm.peak = h.pmm.peak ∧ (∀ r, r ∈ h'.pmm.runs ↔ r ∈ h.pmm.runs ∧ r ∉ inside h.groups m) ∧
      (∀ r, r ∈ regs h.groups → r ∈ h'.pmm.runs → r ∈ regs h'.groups)) := by
  have hstop : m.addr+blockSize+(h.hdr m.addr).size = m.stop := by
    rw [hc.shows.cell.1]
    rfl
  unfold heapTryReclaim
  simp only [hstop]
  by_cases hno : h.groups.filter (·.within m.addr m.stop) = [] ∨
      ((h.groups.filter (·.within m.addr m.stop)).map (fun g => g.npages*4096)).sum ≠
        m.stop-m.addr
  · left
    rw [if_pos hno]
    exact ⟨fun hf => (covered_iff hc).mpr hf hno,rfl⟩
  · right
    rw [if_neg hno]
    have hfill := (covered_iff hc).mp hno
    have hins := fun r (hr : r ∈ inside h.groups m) => (mem_inside hc.table).mp hr
    have hfold : ∀ l : List HeapGroup, l.foldl
        (fun s g => pool.logged.freePages s g.physBase g.npages) h.pmm =
        (l.map (fun g => (g.physBase,g.npages))).foldl
          (fun s r => pool.logged.freePages s r.1 r.2) h.pmm := by
      intro l
      rw [List.foldl_map]
    obtain ⟨how,hnd,hruns,hpeak,hsum,hlen⟩ := PageLog.freeAll hp (inside h.groups m) h.pmm hc.owed
      (inside_nodup hc.table) (fun r hr => hc.table.sub r (hins r hr).1) hc.nodup
    refine ⟨hfill,_,rfl,⟨hc.shows.unlink,?_,?_,?_,?_,?_,?_,?_,?_⟩,rfl,rfl,?_,?_,?_⟩
    · show (if h.freeList = some m.addr then (h.hdr m.addr).next else h.freeList) = _
      rw [hc.head,hc.shows.next]
      cases l₁ with
      | nil => simp
      | cons c l =>
        have hne : c.addr ≠ m.addr := hc.shows.addr_ne c (by simp)
        simp [hne]
    · simp only [hfold]
      change Layout _ (((inside h.groups m).foldl _ h.pmm).runs.map runSpan)
      generalize (inside h.groups m).foldl _ h.pmm = log at hruns
      have hlay := hc.layout
      refine ⟨?_,fun x => ?_,fun b hb => hlay.aligned b (by
        rcases List.mem_append.mp hb with hb | hb <;> simp [hb])⟩
      · exact hlay.apart.sublist (List.Sublist.map _
          (List.Sublist.append_left (List.sublist_cons_self m l₂) l₁))
      · have hcov := hlay.cover x
        rw [List.map_append,List.map_cons,covers_append,covers_cons] at hcov
        rw [List.map_append,covers_append]
        constructor
        · intro hx
          obtain ⟨s,hs,hxs⟩ := hcov.mp (by tauto)
          obtain ⟨r,hr,rfl⟩ := List.mem_map.mp hs
          refine ⟨_,List.mem_map_of_mem ((hruns r).mpr ⟨hr,fun hin => ?_⟩),hxs⟩
          obtain ⟨-,g1,g2⟩ := hins r hin
          have hxm : m.span.Has x := ⟨g1.trans hxs.1,lt_of_lt_of_le hxs.2 g2⟩
          rcases hx with hx | hx
          · obtain ⟨t,ht,hxt⟩ := hx
            obtain ⟨c,hc',rfl⟩ := List.mem_map.mp ht
            exact hlay.outside hxm c (by simp [hc']) hxt
          · obtain ⟨t,ht,hxt⟩ := hx
            obtain ⟨c,hc',rfl⟩ := List.mem_map.mp ht
            exact hlay.outside hxm c (by simp [hc']) hxt
        · intro hx
          obtain ⟨s,hs,hxs⟩ := hx
          obtain ⟨r,hr,rfl⟩ := List.mem_map.mp hs
          obtain ⟨hr1,hr2⟩ := (hruns r).mp hr
          have hold := hcov.mpr ⟨_,List.mem_map_of_mem hr1,hxs⟩
          have hnm : ¬m.span.Has x := by
            intro hxm
            obtain ⟨t,ht,hxt⟩ := hfill x hxm
            obtain ⟨r',hr',rfl⟩ := List.mem_map.mp ht
            have he := hc.apart.unique (hc.table.sub r' (hins r' hr').1) hr1 hxt hxs
            exact hr2 (he ▸ hr')
          tauto
    · simp only [hfold]
      exact hc.apart.sub hnd (fun r hr => ((hruns r).mp hr).1)
    · simp only [hfold]
      exact fun r hr => hc.runs r ((hruns r).mp hr).1
    · simp only [hfold]
      exact hc.table.release hruns
    · simp only [hfold]
      rw [foldl_sub,hc.pages,hsum,BitVec.ofNat_add]
      exact BitVec.add_sub_cancel _ _
    · simp only [hfold]
      exact how
    · simp only [hfold]
      exact hlen.trans (hc.peak.trans hpeak.symm.le)
    · simp only [hfold]
      exact hpeak
    · simp only [hfold]
      exact hruns
    · simp only [hfold]
      intro r hreg hr
      obtain ⟨g,hg,hrun⟩ := List.mem_map.mp hreg
      obtain ⟨hg1,hg2⟩ := List.mem_filter.mp hg
      refine regs_release.mpr ⟨g,hg1,hg2,?_,hrun.symm⟩
      cases hw : g.within m.addr m.stop with
      | false => rfl
      | true =>
        refine absurd ?_ ((hruns r).mp hr).2
        exact List.mem_map.mpr ⟨g,List.mem_filter.mpr ⟨hg1,hw⟩,hrun⟩

end KiNBOL
