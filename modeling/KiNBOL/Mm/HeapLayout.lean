import KiNBOL.Mm.HeapList

namespace KiNBOL

variable {bs l₁ l₂ mid mid' : List Blk} {gs : List Span} {b c : Blk}

theorem Blk.span_pos (b : Blk) : b.span.lo < b.span.hi := by
  simp only [Blk.span,Blk.stop,blockSize]
  omega

/-- Blocks that are apart, aligned, and cover what `gs` covers. -/
structure Layout (bs : List Blk) (gs : List Span) : Prop where
  apart : SpansApart (bs.map Blk.span)
  cover : ∀ x, Covers (bs.map Blk.span) x ↔ Covers gs x
  aligned : ∀ b ∈ bs, b.addr%16 = 0 ∧ b.size%16 = 0

/-- Part of a layout cut up in another way. -/
theorem Layout.replace (h : Layout (l₁++mid++l₂) gs) (hmid : SpansApart (mid'.map Blk.span))
    (hcov : ∀ x, Covers (mid'.map Blk.span) x ↔ Covers (mid.map Blk.span) x)
    (hal : ∀ b ∈ mid', b.addr%16 = 0 ∧ b.size%16 = 0) : Layout (l₁++mid'++l₂) gs := by
  have hap := h.apart
  simp only [List.map_append] at hap
  refine ⟨?_,fun x => ?_,fun b hb => ?_⟩
  · simp only [List.map_append]
    refine hap.replace hmid (fun s hs => ?_) (fun x hx => (hcov x).mp hx)
    simp only [List.mem_append,List.mem_map] at hs
    obtain ((⟨b,-,rfl⟩ | ⟨b,-,rfl⟩) | ⟨b,-,rfl⟩) := hs <;> exact b.span_pos
  · rw [← h.cover]
    simp only [List.map_append,covers_append,hcov]
  · simp only [List.mem_append] at hb
    rcases hb with (hb | hb) | hb
    · exact h.aligned b (by simp [hb])
    · exact hal b hb
    · exact h.aligned b (by simp [hb])

/-- Two neighbours without a gap become one block. -/
theorem Layout.merge (h : Layout (l₁++b::c::l₂) gs) (hadj : b.stop = c.addr) :
    Layout (l₁++b.join c::l₂) gs := by
  have hb := h.aligned b (by simp)
  have hc := h.aligned c (by simp)
  have h' : Layout (l₁++[b,c]++l₂) gs := by simpa using h
  have hjoin : Layout (l₁++[b.join c]++l₂) gs := by
    refine h'.replace (List.pairwise_singleton _ _) (fun x => ?_) (fun d hd => ?_)
    · simp only [Covers,List.map_cons,List.map_nil,List.mem_cons,List.not_mem_nil,or_false,
        exists_eq_left,exists_eq_or_imp]
      simp only [Span.Has,Blk.span,Blk.stop,Blk.join] at hadj ⊢
      omega
    · rw [List.mem_singleton] at hd
      rw [hd]
      refine ⟨hb.1,?_⟩
      simp only [Blk.join,blockSize]
      omega
  simpa using hjoin

/-- Setting `used` moves no block. -/
theorem Layout.setUsed (h : Layout (l₁++b::l₂) gs) (u : Bool) :
    Layout (l₁++{ b with used := u }::l₂) gs := by
  have h' : Layout (l₁++[b]++l₂) gs := by simpa using h
  have hset : Layout (l₁++[{ b with used := u }]++l₂) gs :=
    h'.replace (List.pairwise_singleton _ _) (fun x => Iff.rfl) (fun d hd => by
      rw [List.mem_singleton] at hd
      rw [hd]
      exact h.aligned b (by simp))
  simpa using hset

/-- `heap_split` cuts one block into two without a gap. -/
theorem Layout.split (h : Layout (l₁++b::l₂) gs) {size : Nat} (hsize : size%16 = 0)
    (hsmall : size+heapMinSplit < 2^64) :
    Layout (l₁++splitBlk b size++l₂) gs := by
  obtain ⟨ha,hs⟩ := h.aligned b (by simp)
  have h' : Layout (l₁++[b]++l₂) gs := by simpa using h
  unfold splitBlk
  rw [Nat.mod_eq_of_lt hsmall]
  by_cases hno : b.size < size+heapMinSplit
  · rw [if_pos hno]
    exact h'
  · rw [if_neg hno]
    simp only [heapMinSplit,blockSize] at hno
    refine h'.replace ?_ (fun x => ?_) (fun d hd => ?_)
    · refine List.pairwise_pair.mpr (Or.inl ?_)
      simp [Blk.span,Blk.stop]
    · simp only [Covers,List.map_cons,List.map_nil,List.mem_cons,List.not_mem_nil,or_false,
        exists_eq_left,exists_eq_or_imp]
      simp only [Span.Has,Blk.span,Blk.stop,blockSize]
      omega
    · simp only [List.mem_cons,List.not_mem_nil,or_false] at hd
      rcases hd with rfl | rfl
      · exact ⟨ha,hsize⟩
      · simp only [blockSize]
        omega

/-- A block in the list does not start inside another. -/
theorem Layout.not_start (h : Layout (l₁++b::l₂) gs) {a : Nat} (h1 : b.addr < a) (h2 : a < b.stop) :
    a ∉ (l₁++b::l₂).map Blk.addr := by
  intro hmem
  obtain ⟨c,hc,rfl⟩ := List.mem_map.mp hmem
  have hin : b.span.Has c.addr := ⟨h1.le,h2⟩
  have hself : c.span.Has c.addr := by
    refine ⟨le_refl _,?_⟩
    show c.addr < c.stop
    simp only [Blk.stop,blockSize]
    omega
  have hap := h.apart
  simp only [SpansApart,List.map_append,List.map_cons,List.pairwise_append,List.pairwise_cons] at hap
  obtain ⟨-,⟨hb2,-⟩,h1b⟩ := hap
  rcases List.mem_append.mp hc with hc | hc
  · exact (h1b _ (List.mem_map_of_mem hc) b.span (by simp)).not_both hself hin
  · rcases List.mem_cons.mp hc with rfl | hc
    · exact lt_irrefl _ h1
    · exact (hb2 _ (List.mem_map_of_mem hc)).not_both hin hself

/-- A list of blocks below 2^64 is shorter than `listBound`. -/
theorem Layout.length_lt (h : Layout bs gs) (hgs : ∀ s ∈ gs, s.hi ≤ 2^64) :
    bs.length < listBound := by
  have hlen := h.apart.length_le (n := 2^64) (fun s hs => ?_)
  · rw [List.length_map] at hlen
    exact Nat.lt_succ_of_le hlen
  · obtain ⟨b,hb,rfl⟩ := List.mem_map.mp hs
    refine ⟨b.span_pos,?_⟩
    have hlast : b.span.Has (b.stop-1) := by
      have := b.span_pos
      simp only [Span.Has,Blk.span] at this ⊢
      omega
    obtain ⟨g,hg,-,hlt⟩ := (h.cover (b.stop-1)).mp ⟨b.span,hs,hlast⟩
    have := hgs g hg
    have := b.span_pos
    simp only [Blk.span] at this ⊢
    omega

/-- The list after `heap_coalesce`, around the block that is left. -/
def coalesced (l₁ : List Blk) (b : Blk) (l₂ : List Blk) : List Blk × Blk × List Blk :=
  ((absorbPrev l₁.reverse (absorbNext b l₂).1).1.reverse,
    (absorbPrev l₁.reverse (absorbNext b l₂).1).2,(absorbNext b l₂).2)

/-- A property of lists that survives joining two free neighbours survives the loops. -/
structure Joins (P : List Blk → Prop) : Prop where
  join : ∀ l₁ b c l₂, b.used = false → c.used = false → b.stop = c.addr → P (l₁++b::c::l₂) →
    P (l₁++b.join c::l₂)

theorem absorbNext_spec {P : List Blk → Prop} (hP : Joins P) (hb : b.used = false)
    (h : P (l₁++b::l₂)) :
    P (l₁++(absorbNext b l₂).1::(absorbNext b l₂).2) ∧ (absorbNext b l₂).1.used = false ∧
    b.stop ≤ (absorbNext b l₂).1.stop ∧
    ∀ c, (absorbNext b l₂).2.head? = some c → (absorbNext b l₂).1.stop = c.addr → c.used = true := by
  induction l₂ generalizing b with
  | nil => exact ⟨h,hb,le_refl _,fun c hc => by simp [absorbNext] at hc⟩
  | cons c l ih =>
    rw [absorbNext]
    by_cases hc : (!c.used && decide (b.stop = c.addr)) = true
    · rw [if_pos hc]
      simp only [Bool.and_eq_true,Bool.not_eq_true',decide_eq_true_eq] at hc
      obtain ⟨h1,h2,h3,h4⟩ := ih (b := b.join c) hb (hP.join l₁ b c l hb hc.1 hc.2 h)
      refine ⟨h1,h2,le_trans ?_ h3,h4⟩
      simp only [Blk.stop,Blk.join]
      omega
    · rw [if_neg hc]
      refine ⟨h,hb,le_refl _,fun d hd hadj => ?_⟩
      rw [List.head?_cons,Option.some.injEq] at hd
      subst hd
      by_contra hu
      exact hc (by simp [hadj,hu])

theorem absorbPrev_spec {P : List Blk → Prop} (hP : Joins P) {r : List Blk} (hb : b.used = false)
    (h : P (r.reverse++b::l₂)) :
    P ((absorbPrev r b).1.reverse++(absorbPrev r b).2::l₂) ∧ (absorbPrev r b).2.used = false ∧
    (absorbPrev r b).2.stop = b.stop ∧ (absorbPrev r b).2.addr ≤ b.addr ∧
    ∀ c, (absorbPrev r b).1.head? = some c → c.stop = (absorbPrev r b).2.addr → c.used = true := by
  induction r generalizing b with
  | nil => exact ⟨h,hb,rfl,le_refl _,fun c hc => by simp [absorbPrev] at hc⟩
  | cons c r ih =>
    rw [absorbPrev]
    by_cases hc : (!c.used && decide (c.stop = b.addr)) = true
    · rw [if_pos hc]
      simp only [Bool.and_eq_true,Bool.not_eq_true',decide_eq_true_eq] at hc
      have hjoin : P (r.reverse++c.join b::l₂) :=
        hP.join r.reverse c b l₂ hc.1 hb hc.2 (by simpa using h)
      obtain ⟨h1,h2,h3,h4,h5⟩ := ih (b := c.join b) hc.1 hjoin
      refine ⟨h1,h2,h3.trans ?_,h4.trans ?_,h5⟩
      · have := hc.2
        simp only [Blk.stop,Blk.join] at this ⊢
        omega
      · have := hc.2
        simp only [Blk.stop,Blk.join] at this ⊢
        omega
    · rw [if_neg hc]
      refine ⟨h,hb,rfl,le_refl _,fun d hd hadj => ?_⟩
      rw [List.head?_cons,Option.some.injEq] at hd
      subst hd
      by_contra hu
      exact hc (by simp [hadj,hu])

/-- What `heap_coalesce` achieves around a free block: the block that is left is free, holds the
old one, and its neighbours without a gap are used. -/
theorem coalesced_spec {P : List Blk → Prop} (hP : Joins P) (hb : b.used = false)
    (h : P (l₁++b::l₂)) :
    P ((coalesced l₁ b l₂).1++(coalesced l₁ b l₂).2.1::(coalesced l₁ b l₂).2.2) ∧
    (coalesced l₁ b l₂).2.1.used = false ∧
    ((coalesced l₁ b l₂).2.1.addr ≤ b.addr ∧ b.stop ≤ (coalesced l₁ b l₂).2.1.stop) ∧
    (∀ c, (coalesced l₁ b l₂).1.getLast? = some c → c.stop = (coalesced l₁ b l₂).2.1.addr →
      c.used = true) ∧
    (∀ c, (coalesced l₁ b l₂).2.2.head? = some c → (coalesced l₁ b l₂).2.1.stop = c.addr →
      c.used = true) := by
  obtain ⟨h1,h2,h3,h4⟩ := absorbNext_spec hP hb h
  have haddr := absorbNext_addr b l₂
  have h' : P (l₁.reverse.reverse++(absorbNext b l₂).1::(absorbNext b l₂).2) := by simpa using h1
  obtain ⟨g1,g2,g3,g4,g5⟩ := absorbPrev_spec hP h2 h'
  refine ⟨g1,g2,⟨?_,?_⟩,fun c hc => ?_,fun c hc hadj => ?_⟩
  · rw [← haddr]
    exact g4
  · exact h3.trans g3.symm.le
  · apply g5 c
    simpa [coalesced] using hc
  · apply h4 c hc
    rw [← g3]
    exact hadj

/-- The first block stays the first. -/
theorem coalesced_head (hb : b.used = false) : (l₁++b::l₂).head?.map Blk.addr =
    ((coalesced l₁ b l₂).1++(coalesced l₁ b l₂).2.1::(coalesced l₁ b l₂).2.2).head?.map
      Blk.addr := by
  have hjoins : Joins (fun bs => bs.head?.map Blk.addr = (l₁++b::l₂).head?.map Blk.addr) := by
    refine ⟨fun k₁ x y k₂ _ _ _ h => ?_⟩
    rw [← h]
    cases k₁ <;> rfl
  exact (coalesced_spec hjoins hb rfl).1.symm

theorem layout_joins (gs : List Span) : Joins (fun bs => Layout bs gs) :=
  ⟨fun _ _ _ _ _ _ hadj h => h.merge hadj⟩

/-- Joining free blocks changes no used one. -/
theorem used_joins (us : List Blk) : Joins (fun bs => bs.filter Blk.used = us) := by
  refine ⟨fun l₁ b c l₂ hb hc _ h => ?_⟩
  have hj : (b.join c).used = false := hb
  rw [← h]
  simp [List.filter_append,hb,hc,hj]

end KiNBOL
