import KiNBOL.Mm.HeapReclaim

namespace KiNBOL

variable {σ : Type} {owes : σ → List PageRun → Prop} {h h' : Heap (PageLog σ)}
  {bs l₁ l₂ : List Blk} {b m : Blk} {pool : PagePool σ} {size : Nat}

/-- A used block. -/
abbrev IsUsed (b : Blk) : Prop := b.used = true

/-- Used, or the block an address lies in. -/
def UsedOr (p : Nat) (b : Blk) : Prop := b.used = true ∨ b.span.Has p

theorem usedOr_joins (start stop : Nat → Prop) (p : Nat) :
    Joins (fun bs => Scan start stop (UsedOr p) none bs) := by
  refine ⟨fun l₁ b c l₂ hb hc hadj h => h.merge hadj ?_⟩
  intro hor
  right
  have hspan : b.span.Has p ∨ c.span.Has p := by
    rcases hor with (hu | hs) | (hu | hs)
    · rw [hb] at hu
      exact Bool.noConfusion hu
    · exact Or.inl hs
    · rw [hc] at hu
      exact Bool.noConfusion hu
    · exact Or.inr hs
  simp only [Span.Has,Blk.span,Blk.stop,Blk.join,blockSize] at hspan hadj ⊢
  omega

/-- Outside the block that holds the address nothing but use counts. -/
theorem Layout.used_of_usedOr {gs : List Span} (hl : Layout (l₁++m::l₂) gs) {p : Nat}
    (hp : m.span.Has p) : ∀ c ∈ l₁++l₂, UsedOr p c → IsUsed c :=
  fun c hc hu => hu.resolve_right (hl.outside hp c hc)

/-- What blocks cover is covered by a run. -/
theorem HeapCore.run_of (hc : HeapCore owes h bs) (hb : b ∈ bs) {x : Nat} (hx : b.span.Has x) :
    ∃ r ∈ h.pmm.runs, (runSpan r).Has x := by
  obtain ⟨s,hs,hxs⟩ := (hc.layout.cover x).mp ⟨b.span,List.mem_map_of_mem hb,hx⟩
  obtain ⟨r,hr,rfl⟩ := List.mem_map.mp hs
  exact ⟨r,hr,hxs⟩

/-- A block from the start of a run to the end of a run is filled by runs, when those it meets are
registered. -/
theorem filled_of_alone (hc : HeapCore owes h (l₁++m::l₂))
    (hall : ∀ r ∈ h.pmm.runs, ∀ x, m.span.Has x → (runSpan r).Has x → r ∈ regs h.groups)
    (hs : RunStart h.pmm.runs m.addr) (he : RunEnd h.pmm.runs m.stop) : Filled h m := by
  intro x hx
  obtain ⟨r,hr,hxr⟩ := hc.run_of (b := m) (by simp) hx
  obtain ⟨rs,hrs,hlo⟩ := hs
  obtain ⟨re,hre,hhi⟩ := he
  have p1 := runSpan_pos (hc.runs rs hrs)
  have p2 := runSpan_pos (hc.runs re hre)
  have hx1 : m.addr ≤ x := hx.1
  have hx2 : x < m.stop := hx.2
  refine ⟨_,List.mem_map_of_mem ((mem_inside hc.table).mpr ⟨hall r hr x hx hxr,?_,?_⟩),hxr⟩
  · by_contra hlt
    have hsame := hc.apart.unique hr hrs (x := m.addr)
      ⟨by omega,lt_of_le_of_lt hx1 hxr.2⟩ ⟨hlo.le,by omega⟩
    rw [hsame] at hlt
    omega
  · by_contra hlt
    have hxlo := hxr.1
    have hsame := hc.apart.unique hr hre (x := m.stop-1)
      ⟨by omega,by omega⟩ ⟨by omega,by omega⟩
    rw [hsame] at hlt
    omega

/-- The stretches that are left when a filled block is taken out of the part of the list that lies in
the runs `rs`. -/
theorem scan_removed (pre : List Blk) {rs rs' : List PageRun}
    (hc : HeapCore owes h ((pre++l₁)++m::l₂)) (hsub : ∀ r ∈ rs, r ∈ h.pmm.runs)
    (hin : ∀ c ∈ l₁++m::l₂, ∀ r ∈ h.pmm.runs, ∀ x, c.span.Has x → (runSpan r).Has x → r ∈ rs)
    (hfill : Filled h m) {p : Nat} (hp : m.span.Has p) (hf : Fenced IsUsed l₁ m l₂)
    (hscan : Scan (RunStart rs) (RunEnd rs) (UsedOr p) none (l₁++m::l₂))
    (hruns : ∀ r, r ∈ rs' ↔ r ∈ rs ∧ r ∉ inside h.groups m) :
    Scan (RunStart rs') (RunEnd rs') IsUsed none (l₁++l₂) := by
  have hpos := m.span_pos
  simp only [Blk.span] at hpos
  have hpart : ∀ c ∈ l₁++m::l₂, c ∈ (pre++l₁)++m::l₂ := by
    intro c hcm
    rw [List.append_assoc]
    exact List.mem_append_right _ hcm
  have hother : ∀ c ∈ l₁++l₂, c ∈ (pre++l₁)++l₂ := by
    intro c hcm
    rw [List.append_assoc]
    exact List.mem_append_right _ hcm
  -- the run on either side of the block's ends
  have hleft : ∀ c, l₁.getLast? = some c → c.stop = m.addr → RunEnd rs m.addr := by
    intro c hcl hadj
    have hcpos := c.span_pos
    simp only [Blk.span] at hcpos
    have hcm : c ∈ l₁++m::l₂ := by simp [List.mem_of_getLast? hcl]
    have hlast : c.span.Has (c.stop-1) := ⟨by
      show c.addr ≤ _
      omega,by
      show _ < c.stop
      omega⟩
    obtain ⟨r,hr,hxr⟩ := hc.run_of (hpart c hcm) hlast
    obtain ⟨s,hs,hxs⟩ := hfill m.addr ⟨le_refl _,hpos⟩
    obtain ⟨r',hr',rfl⟩ := List.mem_map.mp hs
    obtain ⟨hreg,hlo,-⟩ := (mem_inside hc.table).mp hr'
    refine ⟨r,hin c hcm r hr _ hlast hxr,le_antisymm ?_ ?_⟩
    · by_contra hlt
      have h1 := hxr.1
      have hsame := hc.apart.unique hr (hc.table.sub r' hreg) (x := m.addr)
        ⟨by omega,by omega⟩ hxs
      rw [hsame] at h1
      omega
    · have h2 := hxr.2
      omega
  have hright : ∀ c, l₂.head? = some c → m.stop = c.addr → RunStart rs m.stop := by
    intro c hcl hadj
    have hcpos := c.span_pos
    simp only [Blk.span] at hcpos
    have hcm : c ∈ l₁++m::l₂ := by simp [List.mem_of_head? hcl]
    have hfirst : c.span.Has c.addr := ⟨le_refl _,hcpos⟩
    obtain ⟨r,hr,hxr⟩ := hc.run_of (hpart c hcm) hfirst
    obtain ⟨s,hs,hxs⟩ := hfill (m.stop-1) ⟨by
      show m.addr ≤ _
      omega,by
      show _ < m.stop
      omega⟩
    obtain ⟨r',hr',rfl⟩ := List.mem_map.mp hs
    obtain ⟨hreg,-,hhi⟩ := (mem_inside hc.table).mp hr'
    refine ⟨r,hin c hcm r hr _ hfirst hxr,le_antisymm (by have := hxr.1; omega) ?_⟩
    by_contra hlt
    have h1 := hxr.2
    have hsame := hc.apart.unique hr (hc.table.sub r' hreg) (x := m.stop-1)
      ⟨by omega,by omega⟩ hxs
    rw [hsame] at h1
    omega
  have hone : ∀ c ∈ l₁++l₂, UsedOr p c → IsUsed c :=
    fun c hcm => hc.layout.used_of_usedOr hp c (hother c hcm)
  have hrem := hscan.remove ⟨fun c hcl hadj => Or.inl (hf.1 c hcl hadj),
    fun c hcl hadj => Or.inl (hf.2 c hcl hadj)⟩ hone hleft hright
  -- the runs at the ends of the other blocks are still out
  have hkeep : ∀ c ∈ l₁++l₂, ∀ x, c.span.Has x → ∀ r ∈ rs, (runSpan r).Has x → r ∈ rs' := by
    intro c hcm x hx r hr hxr
    refine (hruns r).mpr ⟨hr,fun hmem => ?_⟩
    obtain ⟨-,g1,g2⟩ := (mem_inside hc.table).mp hmem
    exact hc.layout.outside ⟨g1.trans hxr.1,lt_of_lt_of_le hxr.2 g2⟩ c (hother c hcm) hx
  refine hrem.mono_none (fun c hcm => ⟨fun hs => ?_,fun he => ?_,id⟩)
  · obtain ⟨r,hr,hlo⟩ := hs
    have hcpos := c.span_pos
    have hrpos := runSpan_pos (hc.runs r (hsub r hr))
    exact ⟨r,hkeep c hcm c.addr ⟨le_refl _,hcpos⟩ r hr ⟨hlo.le,by omega⟩,hlo⟩
  · obtain ⟨r,hr,hhi⟩ := he
    have hcpos := c.span_pos
    simp only [Blk.span] at hcpos
    have hrpos := runSpan_pos (hc.runs r (hsub r hr))
    refine ⟨r,hkeep c hcm (c.stop-1) ⟨?_,?_⟩ r hr ⟨by omega,by omega⟩,hhi⟩
    · show c.addr ≤ _
      omega
    · show _ < c.stop
      omega

/-- The counters do not matter to the lists. -/
theorem HeapCore.congr {h₂ : Heap (PageLog σ)} (hc : HeapCore owes h bs) (h1 : h₂.hdr = h.hdr)
    (h2 : h₂.freeList = h.freeList) (h3 : h₂.pmm = h.pmm) (h4 : h₂.gPages = h.gPages)
    (h5 : h₂.groups = h.groups) : HeapCore owes h₂ bs := by
  constructor
  · rw [h1]
    exact hc.shows
  · rw [h2]
    exact hc.head
  · rw [h3]
    exact hc.layout
  · rw [h3]
    exact hc.apart
  · rw [h3]
    exact hc.runs
  · rw [h3,h5]
    exact hc.table
  · rw [h3,h4]
    exact hc.pages
  · rw [h3]
    exact hc.owed
  · rw [h3]
    exact hc.peak

/-- Counters after a block was freed. -/
def freedBytes (n : BitVec 32) (size : Nat) : BitVec 32 :=
  if size ≤ n.toNat then n-BitVec.ofNat 32 size else n

def freedBlocks (n : BitVec 32) : BitVec 32 := if 0#32 < n then n-1#32 else n

theorem filter_used_middle (hb : b.used = true) :
    ((l₁++b::l₂).filter Blk.used).Perm (b::(l₁++l₂).filter Blk.used) := by
  rw [List.filter_append,List.filter_cons_of_pos hb,List.filter_append]
  exact List.perm_middle

/-- `kfree` of a used block up to `heap_try_reclaim`: the block is free and took its free neighbours
in. -/
theorem kfree_core (pool : PagePool σ) (hc : HeapCore owes h (l₁++b::l₂)) (hu : b.used = true) :
    ∃ h₂, kfree pool.logged h (some (b.addr+blockSize)) =
        heapTryReclaim pool.logged h₂ (coalesced l₁ { b with used := false } l₂).2.1.addr ∧
      HeapCore owes h₂ ((coalesced l₁ { b with used := false } l₂).1++
        (coalesced l₁ { b with used := false } l₂).2.1::
          (coalesced l₁ { b with used := false } l₂).2.2) ∧
      h₂.pmm = h.pmm ∧ h₂.groups = h.groups ∧ h₂.gUsedBytes = freedBytes h.gUsedBytes b.size ∧
      h₂.gUsedBlocks = freedBlocks h.gUsedBlocks := by
  obtain ⟨hsize,hused,hmagic⟩ := hc.shows.cell
  let b₀ : Blk := { b with used := false }
  let hdr₁ := setHdr h.hdr b.addr (fun x => { x with used := false })
  have hsize₁ : (hdr₁ b.addr).size = b.size := by
    show (setHdr h.hdr b.addr _ b.addr).size = _
    rw [setHdr_apply,if_pos rfl]
    exact hsize
  let h₁ : Heap (PageLog σ) := { h with
    hdr := hdr₁
    gUsedBytes := freedBytes h.gUsedBytes b.size
    gUsedBlocks := freedBlocks h.gUsedBlocks }
  have hc₁ : HeapCore owes h₁ (l₁++b₀::l₂) := by
    refine ⟨hc.shows.setUsed false,?_,hc.layout.setUsed false,hc.apart,hc.runs,hc.table,hc.pages,
      hc.owed,hc.peak⟩
    show h.freeList = _
    rw [hc.head]
    cases l₁ <;> rfl
  obtain ⟨hblk,hc₂⟩ := heapCoalesce_core hc₁ (b := b₀) rfl
  refine ⟨_,?_,hc₂,rfl,rfl,rfl,rfl⟩
  unfold kfree
  simp only [Nat.add_sub_cancel,hmagic,hused,hu,ne_eq,not_true_eq_false,if_false,Bool.not_true,
    Bool.false_eq_true]
  rw [show (heapCoalesce (setHdr h.hdr b.addr fun x => { x with used := false }) b.addr).1 = _
    from hblk,show (setHdr h.hdr b.addr (fun x => { x with used := false }) b.addr).size = b.size
    from hsize₁]
  rfl

/-- A stretch in which a block turns free counts as busy where the block was, also after it took its
free neighbours in. -/
theorem scan_freed {start stop : Nat → Prop}
    (hs : Scan start stop IsUsed none (l₁++b::l₂)) :
    Scan start stop (UsedOr b.addr) none ((coalesced l₁ { b with used := false } l₂).1++
      (coalesced l₁ { b with used := false } l₂).2.1::
        (coalesced l₁ { b with used := false } l₂).2.2) := by
  refine (coalesced_spec (usedOr_joins start stop b.addr) rfl ?_).1
  refine hs.context (fun c _ => Or.inl) (fun st' _ hX => ⟨hX.1,?_⟩)
  refine hX.2.mono id (fun _ => Or.inr (Or.inr ⟨le_refl _,?_⟩)) (fun c _ => ⟨id,id,Or.inl⟩)
  exact b.span_pos

/-- The used blocks without one. -/
theorem coalesced_used (l₁ l₂ : List Blk) (hu : b.used = true) :
    ((l₁++b::l₂).filter Blk.used).Perm (b::((coalesced l₁ { b with used := false } l₂).1++
      (coalesced l₁ { b with used := false } l₂).2.2).filter Blk.used) := by
  have hall := coalesced_spec (used_joins ((l₁++{ b with used := false }::l₂).filter Blk.used))
    (b := { b with used := false }) rfl rfl
  have hfree := hall.2.1
  have hlist := hall.1
  have hm0 : ¬((coalesced l₁ { b with used := false } l₂).2.1.used = true) := by simp [hfree]
  have hb0 : ¬(({ b with used := false } : Blk).used = true) := by simp
  rw [List.filter_append,List.filter_cons_of_neg hm0,List.filter_append,
    List.filter_cons_of_neg hb0,← List.filter_append,← List.filter_append] at hlist
  rw [hlist]
  exact filter_used_middle hu

/-- `kfree` of a used block. -/
theorem kfree_spec (hp : pool.Honest owes) (hi : HeapInv owes h bs) (hb : b ∈ bs)
    (hu : b.used = true) :
    ∃ bs', HeapInv owes (kfree pool.logged h (some (b.addr+blockSize))) bs' ∧
      (bs.filter Blk.used).Perm (b::bs'.filter Blk.used) ∧
      (kfree pool.logged h (some (b.addr+blockSize))).pmm.peak = h.pmm.peak ∧
      (kfree pool.logged h (some (b.addr+blockSize))).gUsedBytes = freedBytes h.gUsedBytes b.size ∧
      (kfree pool.logged h (some (b.addr+blockSize))).gUsedBlocks = freedBlocks h.gUsedBlocks := by
  obtain ⟨l₁,l₂,rfl⟩ := List.append_of_mem hb
  -- the block is free, then it takes its free neighbours in
  obtain ⟨h₂,hcall,hc₂,hpmm,hgroups,hbytes,hblocks⟩ := kfree_core pool hi.toHeapCore hu
  obtain ⟨-,hfree,⟨hlo,hhi⟩,hfl,hfr⟩ := coalesced_spec (layout_joins (h.pmm.runs.map runSpan))
    (b := { b with used := false }) rfl (hi.layout.setUsed false)
  have hscan : h₂.pmm.peak ≤ heapMaxGroups → (∀ r ∈ h₂.pmm.runs, r ∈ regs h₂.groups) ∧
      Scan (RunStart h₂.pmm.runs) (RunEnd h₂.pmm.runs) (UsedOr b.addr) none
        ((coalesced l₁ { b with used := false } l₂).1++
          (coalesced l₁ { b with used := false } l₂).2.1::
            (coalesced l₁ { b with used := false } l₂).2.2) := by
    rw [hpmm,hgroups]
    exact fun hpeak => ⟨(hi.full hpeak).all,scan_freed (hi.full hpeak).busy⟩
  have hperm := coalesced_used l₁ l₂ hu
  have hhas : (coalesced l₁ { b with used := false } l₂).2.1.span.Has b.addr :=
    ⟨hlo,lt_of_lt_of_le b.span_pos hhi⟩
  rw [hcall,← hbytes,← hblocks,← hpmm]
  generalize (coalesced l₁ { b with used := false } l₂).1 = k₁ at *
  generalize (coalesced l₁ { b with used := false } l₂).2.1 = m at *
  generalize (coalesced l₁ { b with used := false } l₂).2.2 = k₂ at *
  rcases heapTryReclaim_cases hp hc₂ with ⟨hno,hsame⟩ | ⟨hfill,h₃,hres,hc₃,e1,e2,e3,hruns,hregs⟩
  · rw [hsame]
    refine ⟨k₁++m::k₂,{ hc₂ with full := fun hpeak => ?_ },?_,rfl,rfl,rfl⟩
    · obtain ⟨hall,hbusy⟩ := hscan hpeak
      refine ⟨hall,?_⟩
      cases hbusy.release ⟨fun c hcl hadj => Or.inl (hfl c hcl hadj),
          fun c hcl hadj => Or.inl (hfr c hcl hadj)⟩ (hc₂.layout.used_of_usedOr hhas) with
      | inl hok => exact hok
      | inr halone =>
        exact absurd (filled_of_alone hc₂ (fun r hr _ _ _ => hall r hr) halone.1 halone.2) hno
    · have hm0 : ¬(m.used = true) := by simp [hfree]
      have hout : (k₁++m::k₂).filter Blk.used = (k₁++k₂).filter Blk.used := by
        rw [List.filter_append,List.filter_cons_of_neg hm0,List.filter_append]
      rw [hout]
      exact hperm
  · rw [hres]
    refine ⟨k₁++k₂,{ hc₃ with full := fun hpeak => ?_ },hperm,e3,e1,e2⟩
    rw [e3] at hpeak
    obtain ⟨hall,hbusy⟩ := hscan hpeak
    exact ⟨fun r hr => hregs r (hall r ((hruns r).mp hr).1) hr,
      scan_removed [] hc₂ (fun _ hr => hr) (fun _ _ r hr _ _ _ => hr) hfill hhas ⟨hfl,hfr⟩
        hbusy hruns⟩

end KiNBOL
