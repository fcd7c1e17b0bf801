import KiNBOL.Mm.HeapLayout

namespace KiNBOL

/-! Blocks of the list that follow each other without a gap form a stretch. Reading the list from
the front, the state is the end of the last block and whether its stretch is busy so far. -/

abbrev ScanState := Option (Nat × Prop)

/-- The next block goes on with the stretch, or the stretch ends well and a new one starts. -/
def Enter (start stop : Nat → Prop) : ScanState → Nat → Prop
  | none,a => start a
  | some (e,u),a => a = e ∨ (stop e ∧ u ∧ start a)

/-- Busy already when the block at `a` is reached. -/
def Carry : ScanState → Nat → Prop
  | none,_ => False
  | some (e,u),a => a = e ∧ u

def Finish (stop : Nat → Prop) : ScanState → Prop
  | none => True
  | some (e,u) => stop e ∧ u

/-- Every stretch starts at a start, ends at an end and is busy somewhere. -/
def Scan (start stop : Nat → Prop) (busy : Blk → Prop) : ScanState → List Blk → Prop
  | st,[] => Finish stop st
  | st,b::l => Enter start stop st b.addr ∧
      Scan start stop busy (some (b.stop,Carry st b.addr ∨ busy b)) l

variable {start stop start' stop' : Nat → Prop} {busy busy' : Blk → Prop} {l₁ l₂ l X Y : List Blk}
  {b c m : Blk} {e : Nat} {u u' : Prop} {st : ScanState}

/-- More starts, more ends, more busy blocks, after a block. -/
theorem Scan.mono (h : Scan start stop busy (some (e,u)) l) (he : stop e → stop' e)
    (hu : u → u') (hl : ∀ b ∈ l, (start b.addr → start' b.addr) ∧ (stop b.stop → stop' b.stop) ∧
      (busy b → busy' b)) : Scan start' stop' busy' (some (e,u')) l := by
  induction l generalizing e u u' with
  | nil => exact ⟨he h.1,hu h.2⟩
  | cons b l ih =>
    obtain ⟨hs,ht,hb⟩ := hl b (by simp)
    obtain ⟨henter,hrest⟩ := h
    refine ⟨henter.imp id (fun hh => ⟨he hh.1,hu hh.2.1,hs hh.2.2⟩),
      ih hrest ht ?_ (fun c hc => hl c (by simp [hc]))⟩
    exact Or.imp (fun hc => ⟨hc.1,hu hc.2⟩) hb

theorem Scan.mono_none (h : Scan start stop busy none l)
    (hl : ∀ b ∈ l, (start b.addr → start' b.addr) ∧ (stop b.stop → stop' b.stop) ∧
      (busy b → busy' b)) : Scan start' stop' busy' none l := by
  cases l with
  | nil => trivial
  | cons b l =>
    obtain ⟨hs,ht,hb⟩ := hl b (by simp)
    exact ⟨hs h.1,h.2.mono ht (Or.imp id hb) (fun c hc => hl c (by simp [hc]))⟩

/-- The state after a front part of the list. -/
def After (busy : Blk → Prop) (st : ScanState) (l₁ : List Blk) (st' : ScanState) : Prop :=
  match l₁.getLast? with
  | none => st' = st
  | some c => ∃ u : Prop, st' = some (c.stop,u) ∧ (busy c → u)

theorem after_cons {st' : ScanState} (h : After busy (some (b.stop,u)) l st') (hu : busy b → u) :
    After busy st (b::l) st' := by
  unfold After at h ⊢
  rcases List.eq_nil_or_concat l with rfl | ⟨l,c,rfl⟩
  · exact ⟨u,h,hu⟩
  · rw [List.concat_eq_append,List.getLast?_concat] at h
    rw [List.concat_eq_append,← List.cons_append,List.getLast?_concat]
    exact h

/-- What comes after a front part can be replaced. -/
theorem Scan.context (h : Scan start stop busy st (l₁++X)) (hl₁ : ∀ b ∈ l₁, busy b → busy' b)
    (hXY : ∀ st', After busy st l₁ st' → Scan start stop busy st' X →
      Scan start stop busy' st' Y) : Scan start stop busy' st (l₁++Y) := by
  induction l₁ generalizing st with
  | nil => exact hXY st rfl h
  | cons b l ih =>
    obtain ⟨henter,hrest⟩ := h
    refine ⟨henter,?_⟩
    have hnext := ih hrest (fun c hc => hl₁ c (by simp [hc]))
      (fun st' ha hX => hXY st' (after_cons ha Or.inr) hX)
    exact hnext.mono id (Or.imp id (hl₁ b (by simp))) (fun c _ => ⟨id,id,id⟩)

/-- Joining two neighbours without a gap. -/
theorem Scan.merge (h : Scan start stop busy none (l₁++b::c::l₂)) (hadj : b.stop = c.addr)
    (hb : busy b ∨ busy c → busy (b.join c)) :
    Scan start stop busy none (l₁++b.join c::l₂) := by
  refine h.context (fun _ _ => id) (fun st' _ hX => ?_)
  obtain ⟨h1,-,h2⟩ := hX
  have hstop : (b.join c).stop = c.stop := by
    simp only [Blk.stop,Blk.join] at hadj ⊢
    omega
  refine ⟨h1,?_⟩
  rw [hstop]
  refine h2.mono id ?_ (fun _ _ => ⟨id,id,id⟩)
  rintro (⟨-,hc | hb'⟩ | hc')
  · exact Or.inl hc
  · exact Or.inr (hb (Or.inl hb'))
  · exact Or.inr (hb (Or.inr hc'))

/-- A busy block at the end. -/
theorem Scan.append (h : Scan start stop busy none l) (hs : start b.addr) (he : stop b.stop)
    (hb : busy b) : Scan start stop busy none (l++[b]) := by
  have h' : Scan start stop busy none (l++[]) := by simpa using h
  refine h'.context (fun _ _ => id) (fun st' _ hX => ⟨?_,he,Or.inr hb⟩)
  cases st' with
  | none => exact hs
  | some s => exact Or.inr ⟨hX.1,hX.2,hs⟩

/-- A block becomes busy and may lose its tail to a new block. -/
theorem Scan.take {size : Nat} (h : Scan start stop busy none (l₁++b::l₂))
    (hsize : size+heapMinSplit < 2^64)
    (hl : ∀ c ∈ l₁++l₂, busy c → busy' c) (hb : ∀ c, c.used = true → busy' c) :
    Scan start stop busy' none (l₁++(splitBlk { b with used := true } size++l₂)) := by
  refine h.context (fun c hc => hl c (by simp [hc])) (fun st' _ hX => ?_)
  obtain ⟨h1,h2⟩ := hX
  have hrest : ∀ v : Prop, v → Scan start stop busy' (some (b.stop,v)) l₂ := fun v hv =>
    h2.mono id (fun _ => hv) (fun c hc => ⟨id,id,hl c (by simp [hc])⟩)
  unfold splitBlk
  rw [Nat.mod_eq_of_lt hsize]
  by_cases hno : b.size < size+heapMinSplit
  · rw [if_pos hno]
    exact ⟨h1,hrest _ (Or.inr (hb _ rfl))⟩
  · rw [if_neg hno]
    simp only [heapMinSplit,blockSize] at hno
    have hstop : (⟨b.addr+blockSize+size,b.size-size-blockSize,false⟩ : Blk).stop = b.stop := by
      simp only [Blk.stop,blockSize]
      omega
    refine ⟨h1,Or.inl rfl,?_⟩
    rw [hstop]
    exact hrest _ (Or.inl ⟨rfl,Or.inr (hb _ rfl)⟩)

/-- Neighbours of a block without a gap are busy. -/
def Fenced (busy : Blk → Prop) (l₁ : List Blk) (m : Blk) (l₂ : List Blk) : Prop :=
  (∀ c, l₁.getLast? = some c → c.stop = m.addr → busy c) ∧
  (∀ c, l₂.head? = some c → m.stop = c.addr → busy c)

/-- The state on the left of a fenced block is busy when there is no gap. -/
theorem After.fenced {st' : ScanState} (h : After busy none l₁ st') (hf : Fenced busy l₁ m l₂) :
    ∀ e u, st' = some (e,u) → m.addr = e → u := by
  intro e u he ha
  unfold After at h
  cases hl : l₁.getLast? with
  | none =>
    rw [hl] at h
    simp only at h
    rw [h] at he
    simp at he
  | some c =>
    rw [hl] at h
    obtain ⟨v,hv,hvu⟩ := h
    rw [hv,Option.some.injEq,Prod.mk.injEq] at he
    exact he.2 ▸ hvu (hf.1 c hl (he.1.trans ha.symm))

/-- A fenced block may stop being busy, unless it is a stretch of its own. -/
theorem Scan.release (h : Scan start stop busy none (l₁++m::l₂)) (hf : Fenced busy l₁ m l₂)
    (hl : ∀ c ∈ l₁++l₂, busy c → busy' c) :
    Scan start stop busy' none (l₁++m::l₂) ∨ (start m.addr ∧ stop m.stop) := by
  by_cases halone : start m.addr ∧ stop m.stop
  · exact Or.inr halone
  · left
    refine h.context (fun c hc => hl c (by simp [hc])) (fun st' ha hX => ?_)
    obtain ⟨h1,h2⟩ := hX
    refine ⟨h1,?_⟩
    have hcarry : Carry st' m.addr ∨ start m.addr := by
      cases st' with
      | none => exact Or.inr h1
      | some s =>
        rcases h1 with hj | hs
        · exact Or.inl ⟨hj,ha.fenced hf _ _ rfl hj⟩
        · exact Or.inr hs.2.2
    cases hcarry with
    | inl hc => exact h2.mono id (fun _ => Or.inl hc) (fun c hc => ⟨id,id,hl c (by simp [hc])⟩)
    | inr hs =>
      have hend : ¬stop m.stop := fun he => halone ⟨hs,he⟩
      cases l₂ with
      | nil => exact absurd h2.1 hend
      | cons c l =>
        obtain ⟨g1,g2⟩ := h2
        have hj : c.addr = m.stop := g1.resolve_right (fun hh => hend hh.1)
        have hbusy : busy' c := hl c (by simp) (hf.2 c rfl hj.symm)
        exact ⟨Or.inl hj,g2.mono id (fun _ => Or.inr hbusy)
          (fun d hd => ⟨id,id,hl d (by simp [hd])⟩)⟩

/-- A fenced block can be taken out where its ends are ends of what is left. -/
theorem Scan.remove (h : Scan start stop busy none (l₁++m::l₂)) (hf : Fenced busy l₁ m l₂)
    (hl : ∀ c ∈ l₁++l₂, busy c → busy' c)
    (hleft : ∀ c, l₁.getLast? = some c → c.stop = m.addr → stop m.addr)
    (hright : ∀ c, l₂.head? = some c → m.stop = c.addr → start m.stop) :
    Scan start stop busy' none (l₁++l₂) := by
  refine h.context (fun c hc => hl c (by simp [hc])) (fun st' ha hX => ?_)
  obtain ⟨h1,h2⟩ := hX
  have hfin : Finish stop st' := by
    cases st' with
    | none => trivial
    | some s =>
      obtain ⟨e,u⟩ := s
      rcases h1 with hj | hs
      · refine ⟨?_,ha.fenced hf e u rfl hj⟩
        unfold After at ha
        cases hlast : l₁.getLast? with
        | none =>
          rw [hlast] at ha
          simp at ha
        | some c =>
          rw [hlast] at ha
          obtain ⟨v,hv,-⟩ := ha
          rw [Option.some.injEq,Prod.mk.injEq] at hv
          rw [← hj]
          exact hleft c hlast (hv.1.symm.trans hj.symm)
      · exact ⟨hs.1,hs.2.1⟩
  cases l₂ with
  | nil => exact hfin
  | cons c l =>
    obtain ⟨g1,g2⟩ := h2
    have hstart : start c.addr := by
      rcases g1 with hj | hs
      · rw [hj]
        exact hright c rfl hj.symm
      · exact hs.2.2
    refine ⟨?_,?_⟩
    · cases st' with
      | none => exact hstart
      | some s => exact Or.inr ⟨hfin.1,hfin.2,hstart⟩
    · have hc := hl c (by simp)
      by_cases hj : c.addr = m.stop
      · exact g2.mono id (fun _ => Or.inr (hc (hf.2 c rfl hj.symm)))
          (fun d hd => ⟨id,id,hl d (by simp [hd])⟩)
      · refine g2.mono id (fun hh => ?_) (fun d hd => ⟨id,id,hl d (by simp [hd])⟩)
        exact Or.inr (hc (hh.resolve_left (fun hcar => hj hcar.1)))

/-- Without busy blocks there are no blocks. -/
theorem Scan.empty (h : Scan start stop busy none l) (hno : ∀ b ∈ l, ¬busy b) : l = [] := by
  have hfalse : ∀ (l : List Blk) e, (∀ b ∈ l, ¬busy b) →
      ¬Scan start stop busy (some (e,False)) l := by
    intro l
    induction l with
    | nil => exact fun e _ h => h.2
    | cons b l ih =>
      intro e hb h
      refine ih b.stop (fun c hc => hb c (by simp [hc])) (h.2.mono id ?_ (fun _ _ => ⟨id,id,id⟩))
      rintro (hc | hc)
      · exact hc.2
      · exact hb b (by simp) hc
  cases l with
  | nil => rfl
  | cons b l =>
    refine absurd (h.2.mono id ?_ (fun _ _ => ⟨id,id,id⟩))
      (hfalse l b.stop (fun c hc => hno c (by simp [hc])))
    rintro (hc | hc)
    · exact hc
    · exact hno b (by simp) hc

end KiNBOL
