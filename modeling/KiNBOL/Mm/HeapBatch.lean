import KiNBOL.Mm.HeapRun

namespace KiNBOL

variable {σ : Type} {owes : σ → List PageRun → Prop} {h h' : Heap (PageLog σ)}
  {l l₁ l₂ r t B N F : List Blk} {b m : Blk} {pool : PagePool σ} {size : Nat}

/-- Free neighbours are swallowed as without the rest of the list, when the rest does not go on with
a free block. -/
theorem absorbNext_append (hstop : (absorbNext b l).2 = [] → ∀ c, t.head? = some c →
    c.used = false → (absorbNext b l).1.stop ≠ c.addr) :
    absorbNext b (l++t) = ((absorbNext b l).1,(absorbNext b l).2++t) := by
  induction l generalizing b with
  | nil =>
    cases t with
    | nil => rfl
    | cons c t =>
      have hno : ¬((!c.used && decide (b.stop = c.addr)) = true) := by
        simp only [Bool.and_eq_true,Bool.not_eq_true',decide_eq_true_eq,not_and]
        exact hstop rfl c rfl
      change absorbNext b (c::t) = (b,c::t)
      rw [absorbNext,if_neg hno]
  | cons c l ih =>
    rw [absorbNext] at hstop ⊢
    rw [List.cons_append,absorbNext]
    split_ifs with hc
    · rw [if_pos hc] at hstop
      exact ih hstop
    · rfl

theorem absorbPrev_append (hstop : (absorbPrev r b).1 = [] → ∀ c, t.head? = some c →
    c.used = false → c.stop ≠ (absorbPrev r b).2.addr) :
    absorbPrev (r++t) b = ((absorbPrev r b).1++t,(absorbPrev r b).2) := by
  induction r generalizing b with
  | nil =>
    cases t with
    | nil => rfl
    | cons c t =>
      have hno : ¬((!c.used && decide (c.stop = b.addr)) = true) := by
        simp only [Bool.and_eq_true,Bool.not_eq_true',decide_eq_true_eq,not_and]
        exact hstop rfl c rfl
      change absorbPrev (c::t) b = (c::t,b)
      rw [absorbPrev,if_neg hno]
  | cons c r ih =>
    rw [absorbPrev] at hstop ⊢
    rw [List.cons_append,absorbPrev]
    split_ifs with hc
    · rw [if_pos hc] at hstop
      exact ih hstop
    · rfl

/-- When all blocks behind were swallowed, they were free and the last one ends where the block that
is left does. -/
theorem absorbNext_all (h : (absorbNext b l).2 = []) :
    (∀ c ∈ l, c.used = false) ∧ ∀ c, (b::l).getLast? = some c → (absorbNext b l).1.stop = c.stop := by
  induction l generalizing b with
  | nil =>
    refine ⟨by simp,fun c hc => ?_⟩
    simp only [List.getLast?_singleton,Option.some.injEq] at hc
    rw [← hc]
    rfl
  | cons d l ih =>
    rw [absorbNext] at h ⊢
    split_ifs at h ⊢ with hd
    simp only [Bool.and_eq_true,Bool.not_eq_true',decide_eq_true_eq] at hd
    obtain ⟨h1,h2⟩ := ih h
    refine ⟨?_,fun c hc => ?_⟩
    · intro c hc
      rcases List.mem_cons.mp hc with rfl | hc
      · exact hd.1
      · exact h1 c hc
    · rw [List.getLast?_cons_cons] at hc
      cases l with
      | nil =>
        simp only [List.getLast?_singleton,Option.some.injEq] at hc
        have hj := h2 (b.join d) rfl
        rw [hj,← hc]
        have hadj := hd.2
        simp only [Blk.stop,Blk.join] at hadj ⊢
        omega
      | cons e l =>
        apply h2
        rw [List.getLast?_cons_cons] at hc ⊢
        exact hc

theorem absorbPrev_all (h : (absorbPrev r b).1 = []) :
    (∀ c ∈ r, c.used = false) ∧
      ∀ c, (r.reverse++[b]).head? = some c → (absorbPrev r b).2.addr = c.addr := by
  induction r generalizing b with
  | nil =>
    refine ⟨by simp,fun c hc => ?_⟩
    simp only [List.reverse_nil,List.nil_append,List.head?_cons,Option.some.injEq] at hc
    rw [← hc]
    rfl
  | cons d r ih =>
    rw [absorbPrev] at h ⊢
    split_ifs at h ⊢ with hd
    simp only [Bool.and_eq_true,Bool.not_eq_true',decide_eq_true_eq] at hd
    obtain ⟨h1,h2⟩ := ih h
    refine ⟨?_,fun c hc => ?_⟩
    · intro c hc
      rcases List.mem_cons.mp hc with rfl | hc
      · exact hd.1
      · exact h1 c hc
    · rw [List.reverse_cons,List.append_assoc] at hc
      cases hr : r.reverse with
      | nil =>
        rw [hr] at hc h2
        simp only [List.nil_append,List.cons_append,List.head?_cons,Option.some.injEq] at hc
        rw [h2 _ rfl,← hc]
        rfl
      | cons e t =>
        rw [hr] at hc h2
        apply h2
        exact hc

/-- `heap_coalesce` inside the front part of the list. -/
theorem coalesced_front (hstop : (absorbNext b l₂).2 = [] → ∀ c, t.head? = some c →
    c.used = false → (absorbNext b l₂).1.stop ≠ c.addr) : coalesced l₁ b (l₂++t) =
      ((coalesced l₁ b l₂).1,(coalesced l₁ b l₂).2.1,(coalesced l₁ b l₂).2.2++t) := by
  rw [coalesced,absorbNext_append hstop]
  rfl

/-- `heap_coalesce` inside the back part. -/
theorem coalesced_back (hstop : (absorbPrev l₁.reverse (absorbNext b l₂).1).1 = [] → ∀ c,
    t.getLast? = some c → c.used = false →
      c.stop ≠ (absorbPrev l₁.reverse (absorbNext b l₂).1).2.addr) : coalesced (t++l₁) b l₂ =
      (t++(coalesced l₁ b l₂).1,(coalesced l₁ b l₂).2.1,(coalesced l₁ b l₂).2.2) := by
  have happ := absorbPrev_append (r := l₁.reverse) (t := t.reverse) (b := (absorbNext b l₂).1)
    (by simpa using hstop)
  rw [coalesced,List.reverse_append,happ]
  simp [coalesced]

/-- The block that is left, and its neighbours. -/
theorem coalesced_fenced (l₁ : List Blk) (b : Blk) (l₂ : List Blk) (hb : b.used = false) :
    (coalesced l₁ b l₂).2.1.used = false ∧
    ((coalesced l₁ b l₂).2.1.addr ≤ b.addr ∧ b.stop ≤ (coalesced l₁ b l₂).2.1.stop) ∧
    Fenced IsUsed (coalesced l₁ b l₂).1 (coalesced l₁ b l₂).2.1 (coalesced l₁ b l₂).2.2 := by
  obtain ⟨-,h1,h2,h3,h4⟩ := coalesced_spec (used_joins ((l₁++b::l₂).filter Blk.used)) hb rfl
  exact ⟨h1,h2,h3,h4⟩

/-- The end of the last block when a part of the list is cut up in another way. -/
theorem last_stop {mid mid' : List Blk}
    (hmid : mid'.getLast?.map Blk.stop = mid.getLast?.map Blk.stop) :
    (l₁++(mid'++l₂)).getLast?.map Blk.stop = (l₁++(mid++l₂)).getLast?.map Blk.stop := by
  rw [List.getLast?_append,List.getLast?_append,List.getLast?_append,List.getLast?_append]
  cases l₂.getLast? with
  | some c => simp
  | none =>
    cases h1 : mid.getLast? with
    | none =>
      rw [h1,Option.map_none,Option.map_eq_none_iff] at hmid
      simp [hmid]
    | some c =>
      rw [h1,Option.map_some,Option.map_eq_some_iff] at hmid
      obtain ⟨d,hd,hs⟩ := hmid
      simp [hd,hs]

theorem last_joins (stop : Option Nat) :
    Joins (fun bs => bs.getLast?.map Blk.stop = stop) := by
  refine ⟨fun l₁ b c l₂ _ _ hadj h => ?_⟩
  have hjoin : [b.join c].getLast?.map Blk.stop = [b,c].getLast?.map Blk.stop := by
    simp only [Blk.stop] at hadj
    simp only [List.getLast?_singleton,List.getLast?_cons_cons,Option.map_some,Blk.stop,Blk.join,
      Option.some.injEq]
    omega
  exact (last_stop hjoin).trans h

theorem splitBlk_last (b : Blk) (hsmall : size+heapMinSplit < 2^64) :
    (splitBlk b size).getLast?.map Blk.stop = some b.stop := by
  unfold splitBlk
  rw [Nat.mod_eq_of_lt hsmall]
  split_ifs with hno
  · rfl
  · simp only [heapMinSplit,blockSize] at hno
    simp only [List.getLast?_cons_cons,List.getLast?_singleton,Option.map_some,Blk.stop,blockSize,
      Option.some.injEq]
    omega

/-- Runs that are out now and were not at the start. -/
def newRuns (old runs : List PageRun) : List PageRun := runs.filter (fun r => decide (r ∉ old))

theorem mem_newRuns {old runs : List PageRun} {r : PageRun} :
    r ∈ newRuns old runs ↔ r ∈ runs ∧ r ∉ old := by
  simp [newRuns]

/-- The heap while blocks of a batch come and go: the list is the blocks `B` of the runs `old` that
were out at the start, then the blocks `N` of the runs that came since. The used blocks are those of
the start, `K`, and those of the batch, `F`. -/
structure Batch (owes : σ → List PageRun → Prop) (busy : Blk → Prop) (old : List PageRun)
    (K : List Blk) (stop : Option Nat) (bytes : BitVec 32) (h : Heap (PageLog σ))
    (B N F : List Blk) : Prop where
  core : HeapCore owes h (B++N)
  kept : ∀ r ∈ old, r ∈ h.pmm.runs
  layout : Layout B (old.map runSpan)
  used : ((B++N).filter Blk.used).Perm (K++F)
  start : ∀ k ∈ K, k ∈ B
  last : B.getLast?.map Blk.stop = stop
  met : ∀ r ∈ old, ∃ k ∈ K, ∃ x, k.span.Has x ∧ (runSpan r).Has x
  reg : ∀ r ∈ newRuns old h.pmm.runs, r ∈ regs h.groups
  busy : Scan (RunStart (newRuns old h.pmm.runs)) (RunEnd (newRuns old h.pmm.runs)) busy none N
  bytes : h.gUsedBytes = bytes+BitVec.ofNat 32 (F.map Blk.size).sum

section

variable {busy busy' : Blk → Prop} {old : List PageRun} {K : List Blk} {stop : Option Nat}
  {bytes : BitVec 32}

/-- Blocks of the two parts share no address. -/
theorem Batch.parts (hb : Batch owes busy old K stop bytes h B N F) {c d : Blk} (hc : c ∈ B) (hd : d ∈ N)
    {x : Nat} (hx : c.span.Has x) : ¬d.span.Has x := by
  have hap := hb.core.layout.apart
  simp only [SpansApart,List.map_append,List.pairwise_append] at hap
  exact (hap.2.2 _ (List.mem_map_of_mem hc) _ (List.mem_map_of_mem hd)).not_both hx

/-- A run that meets a block of the back part is new. -/
theorem Batch.run_new (hb : Batch owes busy old K stop bytes h B N F) {c : Blk} (hc : c ∈ N) :
    ∀ r ∈ h.pmm.runs, ∀ x, c.span.Has x → (runSpan r).Has x → r ∈ newRuns old h.pmm.runs := by
  intro r hr x hx hxr
  refine mem_newRuns.mpr ⟨hr,fun hold => ?_⟩
  obtain ⟨s,hs,hxs⟩ := (hb.layout.cover x).mpr ⟨_,List.mem_map_of_mem hold,hxr⟩
  obtain ⟨d,hd,rfl⟩ := List.mem_map.mp hs
  exact hb.parts hd hc hxs hx

/-- Addresses of old runs lie in blocks of the front part. -/
theorem Batch.run_old (hb : Batch owes busy old K stop bytes h B N F) {r : PageRun} (hr : r ∈ old)
    {x : Nat} (hx : (runSpan r).Has x) : ∃ c ∈ B, c.span.Has x := by
  obtain ⟨s,hs,hxs⟩ := (hb.layout.cover x).mpr ⟨_,List.mem_map_of_mem hr,hx⟩
  obtain ⟨d,hd,rfl⟩ := List.mem_map.mp hs
  exact ⟨d,hd,hxs⟩

theorem Batch.run_front (hb : Batch owes busy old K stop bytes h B N F) {c : Blk} (hc : c ∈ B)
    {r : PageRun} (hr : r ∈ h.pmm.runs) {x : Nat} (hx : c.span.Has x) (hxr : (runSpan r).Has x) :
    r ∈ old := by
  obtain ⟨s,hs,hxs⟩ := (hb.layout.cover x).mp ⟨_,List.mem_map_of_mem hc,hx⟩
  obtain ⟨r',hr',rfl⟩ := List.mem_map.mp hs
  exact hb.core.apart.unique (hb.kept r' hr') hr hxs hxr ▸ hr'

/-- With no block of the batch left the runs are those of the start. -/
theorem Batch.done (hb : Batch owes IsUsed old K stop bytes h B N []) : ∀ r ∈ h.pmm.runs, r ∈ old := by
  have hnil : N = [] := hb.busy.empty (fun c hc hu => by
    have hmem : c ∈ K++[] := hb.used.mem_iff.mp
      (List.mem_filter.mpr ⟨List.mem_append_right _ hc,hu⟩)
    rw [List.append_nil] at hmem
    exact hb.parts (hb.start c hmem) hc ⟨le_refl _,c.span_pos⟩ ⟨le_refl _,c.span_pos⟩)
  subst hnil
  intro r hr
  have hpos := runSpan_pos (hb.core.runs r hr)
  obtain ⟨s,hs,hxs⟩ := (hb.core.layout.cover (runSpan r).lo).mpr
    ⟨_,List.mem_map_of_mem hr,le_refl _,hpos⟩
  rw [List.append_nil] at hs
  obtain ⟨c,hc,rfl⟩ := List.mem_map.mp hs
  exact hb.run_front hc hr hxs ⟨le_refl _,hpos⟩

/-- Taking a block of the front part. -/
theorem Batch.take_front (hb : Batch owes IsUsed old K stop bytes h (l₁++b::l₂) N F)
    (hfree : b.used = false) (hle : size ≤ b.size) (hmod : size%16 = 0) (hsize : size ≤ 2^32) :
    ∃ b', (heapTake h b.addr size).1 = some (b'.addr+blockSize) ∧ Batch owes IsUsed old K stop bytes
      (heapTake h b.addr size).2 (l₁++(splitBlk { b with used := true } size++l₂)) N (b'::F) := by
  have hsmall := size_small hsize
  have hc : HeapCore owes h (l₁++b::(l₂++N)) := by simpa using hb.core
  obtain ⟨hcore,-,hpmm,hgroups⟩ := heapTake_core hc hmod hsmall
  obtain ⟨b',hptr,-,hperm,hbytes,-⟩ := heapTake_used hc hfree hle hmod hsmall
  have hlist : l₁++(splitBlk { b with used := true } size++(l₂++N)) =
      (l₁++(splitBlk { b with used := true } size++l₂))++N := by simp
  have hold : l₁++b::(l₂++N) = (l₁++b::l₂)++N := by simp
  rw [hlist] at hcore hperm
  rw [hold] at hperm
  refine ⟨b',hptr,⟨hcore,?_,?_,?_,?_,?_,hb.met,?_,?_,?_⟩⟩
  · rw [hpmm]
    exact hb.kept
  · rw [← List.append_assoc]
    exact (hb.layout.setUsed true).split hmod hsmall
  · exact hperm.trans ((hb.used.cons b').trans List.perm_middle.symm)
  · intro k hk
    have hku : k.used = true := (List.mem_filter.mp (hb.used.mem_iff.mpr
      (List.mem_append_left F hk))).2
    have hkb := hb.start k hk
    simp only [List.mem_append,List.mem_cons] at hkb ⊢
    rcases hkb with hkb | rfl | hkb
    · exact Or.inl hkb
    · rw [hfree] at hku
      exact Bool.noConfusion hku
    · exact Or.inr (Or.inr hkb)
  · rw [← hb.last]
    have hlast : (splitBlk { b with used := true } size).getLast?.map Blk.stop =
        [b].getLast?.map Blk.stop := splitBlk_last _ hsmall
    exact last_stop hlast
  · rw [hpmm,hgroups]
    exact hb.reg
  · rw [hpmm]
    exact hb.busy
  · rw [hbytes,hb.bytes,List.map_cons,List.sum_cons,BitVec.ofNat_add,BitVec.add_assoc]
    congr 1
    exact BitVec.add_comm _ _

/-- Taking a block of the back part. -/
theorem Batch.take_back (hb : Batch owes busy old K stop bytes h B (l₁++b::l₂) F)
    (hbusy : ∀ c ∈ l₁++l₂, busy c → IsUsed c) (hfree : b.used = false) (hle : size ≤ b.size)
    (hmod : size%16 = 0) (hsize : size ≤ 2^32) :
    ∃ b', (heapTake h b.addr size).1 = some (b'.addr+blockSize) ∧ Batch owes IsUsed old K stop bytes
      (heapTake h b.addr size).2 B (l₁++(splitBlk { b with used := true } size++l₂)) (b'::F) := by
  have hsmall := size_small hsize
  have hc : HeapCore owes h ((B++l₁)++b::l₂) := by simpa using hb.core
  obtain ⟨hcore,-,hpmm,hgroups⟩ := heapTake_core hc hmod hsmall
  obtain ⟨b',hptr,-,hperm,hbytes,-⟩ := heapTake_used hc hfree hle hmod hsmall
  rw [List.append_assoc] at hcore hperm
  rw [List.append_assoc] at hperm
  refine ⟨b',hptr,⟨hcore,?_,hb.layout,?_,hb.start,hb.last,hb.met,?_,?_,?_⟩⟩
  · rw [hpmm]
    exact hb.kept
  · exact hperm.trans ((hb.used.cons b').trans List.perm_middle.symm)
  · rw [hpmm,hgroups]
    exact hb.reg
  · rw [hpmm]
    exact hb.busy.take hsmall hbusy (fun _ => id)
  · rw [hbytes,hb.bytes,List.map_cons,List.sum_cons,BitVec.ofNat_add,BitVec.add_assoc]
    congr 1
    exact BitVec.add_comm _ _

/-- The heap grows by a run that does not go on where the front part ends with a free block. -/
theorem Batch.grow {h₂ : Heap (PageLog σ)} {a : BitVec 64} {n : Nat}
    (hb : Batch owes IsUsed old K stop bytes h B N F) (hx : Extended owes h size a n h')
    (hreg : h'.groups = heapRegisterGroup ⟨true,a.toNat,a,n%2^32⟩ h.groups)
    (hroom : ∃ g ∈ h.groups, g.inUse = false)
    (hseam : N = [] → ∀ c, B.getLast? = some c → c.used = false → c.stop ≠ a.toNat)
    (hcore : HeapCore owes h₂ ((coalesced (B++N) (newBlk a n) []).1++
      (coalesced (B++N) (newBlk a n) []).2.1::[]))
    (hpmm : h₂.pmm = h'.pmm) (hgroups : h₂.groups = h'.groups)
    (hbytes : h₂.gUsedBytes = h.gUsedBytes) :
    coalesced (B++N) (newBlk a n) [] = (B++(coalesced N (newBlk a n) []).1,
      (coalesced N (newBlk a n) []).2.1,[]) ∧
    Batch owes (UsedOr a.toNat) old K stop bytes h₂ B ((coalesced N (newBlk a n) []).1++
      (coalesced N (newBlk a n) []).2.1::[]) F := by
  have hnb : (newBlk a n).used = false := rfl
  have hsplit : coalesced (B++N) (newBlk a n) [] = (B++(coalesced N (newBlk a n) []).1,
      (coalesced N (newBlk a n) []).2.1,[]) := by
    refine coalesced_back (fun hall c hc hcf => ?_)
    obtain ⟨hfree,-⟩ := absorbPrev_all hall
    -- a stretch of free blocks alone was given back
    have hnil : N = [] := hb.busy.empty (fun d hd hu =>
      Bool.noConfusion (hu.symm.trans (hfree d (List.mem_reverse.mpr hd))))
    subst hnil
    exact hseam rfl c hc hcf
  refine ⟨hsplit,?_⟩
  rw [hsplit,List.append_assoc] at hcore
  have hold : (a,n) ∉ old := fun hmem => hx.ok.fresh hx.apart (hb.kept _ hmem)
  have hnew : newRuns old h₂.pmm.runs = (a,n)::newRuns old h.pmm.runs := by
    rw [hpmm,hx.runs]
    simp [newRuns,hold]
  have hmem : (a,n) ∈ newRuns old h₂.pmm.runs := by
    rw [hnew]
    exact List.mem_cons_self
  have hspan := newBlk_span hx.ok
  have hscan : Scan (RunStart (newRuns old h₂.pmm.runs)) (RunEnd (newRuns old h₂.pmm.runs))
      (UsedOr a.toNat) none (N++[newBlk a n]) := by
    have hmono : Scan (RunStart (newRuns old h₂.pmm.runs)) (RunEnd (newRuns old h₂.pmm.runs))
        (UsedOr a.toNat) none N := by
      rw [hnew]
      refine hb.busy.mono_none (fun c _ => ⟨?_,?_,Or.inl⟩)
      · rintro ⟨r,hr,he⟩
        exact ⟨r,List.mem_cons_of_mem _ hr,he⟩
      · rintro ⟨r,hr,he⟩
        exact ⟨r,List.mem_cons_of_mem _ hr,he⟩
    exact hmono.append ⟨_,hmem,congrArg Span.lo hspan.symm⟩
      ⟨_,hmem,congrArg Span.hi hspan.symm⟩ (Or.inr (newBlk_has a n))
  have hlist := (coalesced_spec (used_joins ((N++[newBlk a n]).filter Blk.used)) hnb rfl).1
  have hend : (coalesced N (newBlk a n) []).2.2 = [] := rfl
  have hcut : (N++[newBlk a n]).filter Blk.used = N.filter Blk.used := by
    rw [List.filter_append,List.filter_cons_of_neg (by simp [hnb]),List.filter_nil,List.append_nil]
  rw [hend,hcut] at hlist
  refine ⟨hcore,?_,hb.layout,?_,hb.start,hb.last,hb.met,?_,?_,?_⟩
  · rw [hpmm,hx.runs]
    exact fun r hr => List.mem_cons_of_mem _ (hb.kept r hr)
  · rw [List.filter_append,hlist,← List.filter_append]
    exact hb.used
  · -- the table had room for the new run
    obtain ⟨hlen,-,hcase⟩ := heapRegisterGroup_spec ⟨true,a.toNat,a,n%2^32⟩ rfl h.groups
    have hmod : n%2^32 = n := Nat.mod_eq_of_lt hx.ok.2.2.1
    rw [hnew,hgroups,hreg]
    rcases hcase with hperm | ⟨-,hfull⟩
    · intro r hr
      apply hperm.mem_iff.mpr
      rw [hmod]
      rcases List.mem_cons.mp hr with rfl | hr
      · exact List.mem_cons_self
      · exact List.mem_cons_of_mem _ (hb.reg r hr)
    · obtain ⟨g,hg,hfree⟩ := hroom
      rw [regs,List.length_map,List.length_filter_eq_length_iff] at hfull
      rw [hfull g hg] at hfree
      exact Bool.noConfusion hfree
  · exact (coalesced_spec (usedOr_joins _ _ a.toNat) hnb hscan).1
  · rw [hbytes]
    exact hb.bytes

/-- The last block of the front part and the first of the back part follow each other without a gap,
and both are free once `b` is. -/
def SeamOpen (B N : List Blk) (b : Blk) : Prop :=
  ∃ x y, B.getLast? = some x ∧ N.head? = some y ∧ x.stop = y.addr ∧
    (x = b ∨ x.used = false) ∧ (y = b ∨ y.used = false)

theorem freed_sum {n bytes : BitVec 32} {F' : List Blk}
    (hn : n = bytes+BitVec.ofNat 32 (F.map Blk.size).sum) (hF : F.Perm (b::F'))
    (hle : b.size ≤ n.toNat) :
    freedBytes n b.size = bytes+BitVec.ofNat 32 (F'.map Blk.size).sum := by
  rw [freedBytes,if_pos hle,hn,(hF.map Blk.size).sum_eq,List.map_cons,List.sum_cons,BitVec.ofNat_add]
  grind

/-- The blocks of the start are not those of the batch. -/
theorem Batch.not_start (hb : Batch owes busy old K stop bytes h B N F) (hF : b ∈ F) : b ∉ K := by
  have hnd : (B++N).Nodup := hb.core.shows.nodup.of_map
  have hall := hb.used.nodup_iff.mp (hnd.filter _)
  exact fun hK => (List.nodup_append.mp hall).2.2 b hK b hF rfl

/-- Freeing a block of the front part: nothing is given back, each old run still holds a block of the
start. -/
theorem Batch.free_front (hp : pool.Honest owes) {F' : List Blk}
    (hb : Batch owes IsUsed old K stop bytes h (l₁++b::l₂) N F) (hF : F.Perm (b::F'))
    (hu : b.used = true) (hle : b.size ≤ h.gUsedBytes.toNat)
    (hseam : ¬SeamOpen (l₁++b::l₂) N b) :
    Batch owes IsUsed old K stop bytes (kfree pool.logged h (some (b.addr+blockSize)))
      ((coalesced l₁ { b with used := false } l₂).1++
        (coalesced l₁ { b with used := false } l₂).2.1::
          (coalesced l₁ { b with used := false } l₂).2.2) N F' := by
  have hc : HeapCore owes h (l₁++b::(l₂++N)) := by simpa using hb.core
  have hsplit : coalesced l₁ { b with used := false } (l₂++N) =
      ((coalesced l₁ { b with used := false } l₂).1,(coalesced l₁ { b with used := false } l₂).2.1,
        (coalesced l₁ { b with used := false } l₂).2.2++N) := by
    refine coalesced_front (fun hall c hcN hcf hadj => hseam ?_)
    obtain ⟨hfree,hstop⟩ := absorbNext_all hall
    cases hlast : l₂.getLast? with
    | none =>
      rw [List.getLast?_eq_none_iff] at hlast
      subst hlast
      exact ⟨b,c,by simp,hcN,(hstop _ rfl).symm.trans hadj,Or.inl rfl,Or.inr hcf⟩
    | some x =>
      have hx : ∀ d : Blk, (d::l₂).getLast? = some x := by
        intro d
        rw [List.getLast?_cons,hlast]
        rfl
      refine ⟨x,c,?_,hcN,(hstop x (hx _)).symm.trans hadj,
        Or.inr (hfree x (List.mem_of_getLast? hlast)),Or.inr hcf⟩
      rw [List.getLast?_append,hx]
      rfl
  obtain ⟨h₂,hcall,hc₂,hpmm,hgroups,hbytes,-⟩ := kfree_core pool hc hu
  have hperm := coalesced_used l₁ l₂ hu
  have hpermAll := coalesced_used l₁ (l₂++N) hu
  obtain ⟨hlay,hfree,⟨hlo,hhi⟩,-,-⟩ := coalesced_spec (layout_joins (old.map runSpan))
    (b := { b with used := false }) rfl (hb.layout.setUsed false)
  have hsame : [({ b with used := false } : Blk)].getLast?.map Blk.stop = [b].getLast?.map Blk.stop :=
    rfl
  have hlast : (l₁++{ b with used := false }::l₂).getLast?.map Blk.stop = stop :=
    (last_stop hsame).trans hb.last
  have hstop := (coalesced_spec (last_joins stop) rfl hlast).1
  rw [hsplit] at hcall hc₂ hpermAll
  simp only at hcall hc₂ hpermAll
  generalize (coalesced l₁ { b with used := false } l₂).1 = k₁ at *
  generalize (coalesced l₁ { b with used := false } l₂).2.1 = m at *
  generalize (coalesced l₁ { b with used := false } l₂).2.2 = k₂ at *
  have hm0 : ¬(m.used = true) := by simp [hfree]
  have hkept : ∀ k ∈ K, k ∈ k₁++k₂ := by
    intro k hk
    have hmem := List.mem_filter.mp (hb.used.mem_iff.mpr (List.mem_append_left F hk))
    have hfront := hperm.mem_iff.mp (List.mem_filter.mpr ⟨hb.start k hk,hmem.2⟩)
    rcases List.mem_cons.mp hfront with rfl | hin
    · exact absurd hk (hb.not_start (hF.mem_iff.mpr List.mem_cons_self))
    · exact (List.mem_filter.mp hin).1
  have hnew : Batch owes IsUsed old K stop bytes h₂ (k₁++m::k₂) N F' := by
    refine ⟨by simpa using hc₂,?_,hlay,?_,?_,hstop,hb.met,?_,?_,?_⟩
    · rw [hpmm]
      exact hb.kept
    · have hout : ((k₁++m::k₂)++N).filter Blk.used = (k₁++(k₂++N)).filter Blk.used := by
        rw [List.append_assoc,List.cons_append,List.filter_append,List.filter_cons_of_neg hm0,
          List.filter_append,List.filter_append,List.filter_append]
      have hall : (b::(k₁++(k₂++N)).filter Blk.used).Perm (b::(K++F')) := by
        refine hpermAll.symm.trans (List.Perm.trans ?_ List.perm_middle)
        rw [← List.cons_append,← List.append_assoc]
        exact hb.used.trans (hF.append_left K)
      rw [hout]
      exact hall.cons_inv
    · intro k hk
      rcases List.mem_append.mp (hkept k hk) with hk | hk
      · simp [hk]
      · simp [hk]
    · rw [hpmm,hgroups]
      exact hb.reg
    · rw [hpmm]
      exact hb.busy
    · rw [hbytes]
      exact freed_sum hb.bytes hF hle
  rw [hcall]
  rcases heapTryReclaim_cases hp hc₂ with ⟨-,hsame⟩ | ⟨hfill,-⟩
  · rw [hsame]
    exact hnew
  · -- a run inside the block would hold a block of the start
    obtain ⟨s,hs,hxs⟩ := hfill m.addr ⟨le_refl _,m.span_pos⟩
    obtain ⟨r,hr,rfl⟩ := List.mem_map.mp hs
    obtain ⟨hreg,g1,g2⟩ := (mem_inside hc₂.table).mp hr
    have hr₂ := hc₂.table.sub r hreg
    have hmB : m ∈ k₁++m::k₂ := by simp
    obtain ⟨k,hk,x,hkx,hrx⟩ := hb.met r (hnew.run_front hmB hr₂ ⟨le_refl _,m.span_pos⟩ hxs)
    have hmx : m.span.Has x := ⟨g1.trans hrx.1,lt_of_lt_of_le hrx.2 g2⟩
    exact absurd hkx (hlay.outside hmx k (hkept k hk))

/-- `heap_try_reclaim` of a free block of the back part with used neighbours. -/
theorem Batch.reclaim (hp : pool.Honest owes) {p : Nat}
    (hb : Batch owes (UsedOr p) old K stop bytes h B (l₁++m::l₂) F) (hfree : m.used = false)
    (hm : m.span.Has p) (hf : Fenced IsUsed l₁ m l₂) :
    ∃ N, Batch owes IsUsed old K stop bytes (heapTryReclaim pool.logged h m.addr) B N F := by
  have hc : HeapCore owes h ((B++l₁)++m::l₂) := by simpa using hb.core
  have hone : ∀ c ∈ l₁++l₂, UsedOr p c → IsUsed c := by
    intro c hcm
    apply hc.layout.used_of_usedOr hm c
    rw [List.append_assoc]
    exact List.mem_append_right _ hcm
  have hsub : ∀ r ∈ newRuns old h.pmm.runs, r ∈ h.pmm.runs := fun r hr => (mem_newRuns.mp hr).1
  have hmN : m ∈ l₁++m::l₂ := by simp
  rcases heapTryReclaim_cases hp hc with ⟨hno,hsame⟩ | ⟨hfill,h₃,hres,hc₃,e1,-,-,hruns,hregs⟩
  · rw [hsame]
    refine ⟨l₁++m::l₂,{ hb with busy := ?_ }⟩
    cases hb.busy.release ⟨fun c hcl hadj => Or.inl (hf.1 c hcl hadj),
        fun c hcl hadj => Or.inl (hf.2 c hcl hadj)⟩ hone with
    | inl hok => exact hok
    | inr halone =>
      -- a stretch of its own was filled by its runs
      obtain ⟨⟨r₁,hr₁,hlo⟩,r₂,hr₂,hhi⟩ := halone
      exact absurd (filled_of_alone hc (fun r hr x hx hxr => hb.reg r (hb.run_new hmN r hr x hx hxr))
        ⟨r₁,hsub r₁ hr₁,hlo⟩ ⟨r₂,hsub r₂ hr₂,hhi⟩) hno
  · rw [hres]
    have hm0 : ¬(m.used = true) := by simp [hfree]
    have hkept : ∀ r ∈ old, r ∉ inside h.groups m := by
      intro r hr hin
      obtain ⟨-,g1,g2⟩ := (mem_inside hc.table).mp hin
      have hpos := runSpan_pos (hb.core.runs r (hb.kept r hr))
      obtain ⟨c,hcB,hcx⟩ := hb.run_old hr ⟨le_refl _,hpos⟩
      exact hb.parts hcB hmN hcx ⟨g1,lt_of_lt_of_le hpos g2⟩
    refine ⟨l₁++l₂,by simpa using hc₃,?_,hb.layout,?_,hb.start,hb.last,hb.met,?_,?_,?_⟩
    · exact fun r hr => (hruns r).mpr ⟨hb.kept r hr,hkept r hr⟩
    · have hused := hb.used
      rw [List.filter_append,List.filter_append,List.filter_cons_of_neg hm0,← List.filter_append,
        ← List.filter_append] at hused
      exact hused
    · intro r hr
      obtain ⟨hr₁,hr₂⟩ := mem_newRuns.mp hr
      exact hregs r (hb.reg r (mem_newRuns.mpr ⟨((hruns r).mp hr₁).1,hr₂⟩)) hr₁
    · refine scan_removed B hc hsub (fun c hcm => hb.run_new hcm) hfill hm hf hb.busy (fun r => ?_)
      rw [mem_newRuns,mem_newRuns,hruns]
      tauto
    · rw [e1]
      exact hb.bytes

/-- Freeing a block of the back part. -/
theorem Batch.free_back (hp : pool.Honest owes) {F' : List Blk}
    (hb : Batch owes IsUsed old K stop bytes h B (l₁++b::l₂) F) (hF : F.Perm (b::F'))
    (hu : b.used = true) (hle : b.size ≤ h.gUsedBytes.toNat)
    (hseam : ¬SeamOpen B (l₁++b::l₂) b) :
    ∃ N, Batch owes IsUsed old K stop bytes (kfree pool.logged h (some (b.addr+blockSize))) B N F' := by
  have hc : HeapCore owes h ((B++l₁)++b::l₂) := by simpa using hb.core
  have hsplit : coalesced (B++l₁) { b with used := false } l₂ =
      (B++(coalesced l₁ { b with used := false } l₂).1,
        (coalesced l₁ { b with used := false } l₂).2.1,
        (coalesced l₁ { b with used := false } l₂).2.2) := by
    refine coalesced_back (fun hall x hx hxf hadj => hseam ?_)
    obtain ⟨hfree,hstart⟩ := absorbPrev_all hall
    have haddr : (absorbNext { b with used := false } l₂).1.addr = b.addr := absorbNext_addr _ l₂
    cases l₁ with
    | nil => exact ⟨x,b,hx,rfl,hadj.trans ((hstart _ rfl).trans haddr),Or.inr hxf,Or.inl rfl⟩
    | cons d l =>
      have hd : (absorbPrev (d::l).reverse (absorbNext { b with used := false } l₂).1).2.addr =
          d.addr := by
        apply hstart
        rw [List.reverse_reverse]
        rfl
      exact ⟨x,d,hx,rfl,hadj.trans hd,Or.inr hxf,
        Or.inr (hfree d (List.mem_reverse.mpr List.mem_cons_self))⟩
  obtain ⟨h₂,hcall,hc₂,hpmm,hgroups,hbytes,-⟩ := kfree_core pool hc hu
  have hperm := coalesced_used (B++l₁) l₂ hu
  have hscan := scan_freed hb.busy
  obtain ⟨hfree,⟨hlo,hhi⟩,hfen⟩ := coalesced_fenced l₁ { b with used := false } l₂ rfl
  have hhas : (coalesced l₁ { b with used := false } l₂).2.1.span.Has b.addr :=
    ⟨hlo,lt_of_lt_of_le b.span_pos hhi⟩
  rw [hsplit] at hcall hc₂ hperm
  simp only at hcall hc₂ hperm
  generalize (coalesced l₁ { b with used := false } l₂).1 = k₁ at *
  generalize (coalesced l₁ { b with used := false } l₂).2.1 = m at *
  generalize (coalesced l₁ { b with used := false } l₂).2.2 = k₂ at *
  have hm0 : ¬(m.used = true) := by simp [hfree]
  rw [hcall]
  refine Batch.reclaim (p := b.addr) hp ?_ hfree hhas hfen
  refine ⟨by simpa using hc₂,?_,hb.layout,?_,hb.start,hb.last,hb.met,?_,?_,?_⟩
  · rw [hpmm]
    exact hb.kept
  · have hout : (B++(k₁++m::k₂)).filter Blk.used = ((B++k₁)++k₂).filter Blk.used := by
      rw [List.filter_append,List.filter_append,List.filter_cons_of_neg hm0,← List.filter_append,
        ← List.filter_append,List.append_assoc]
    have hall : (b::((B++k₁)++k₂).filter Blk.used).Perm (b::(K++F')) := by
      refine hperm.symm.trans (List.Perm.trans ?_ List.perm_middle)
      rw [List.append_assoc]
      exact hb.used.trans (hF.append_left K)
    rw [hout]
    exact hall.cons_inv
  · rw [hpmm,hgroups]
    exact hb.reg
  · rw [hpmm]
    exact hscan
  · rw [hbytes]
    exact freed_sum hb.bytes hF hle

/-- `kfree` of a block of the batch. -/
theorem Batch.kfree (hp : pool.Honest owes) {F' : List Blk}
    (hb : Batch owes IsUsed old K stop bytes h B N F) (hF : F.Perm (b::F'))
    (hle : b.size ≤ h.gUsedBytes.toNat) (hseam : ¬SeamOpen B N b) :
    ∃ B' N', Batch owes IsUsed old K stop bytes
      (KiNBOL.kfree pool.logged h (some (b.addr+blockSize))) B' N' F' := by
  obtain ⟨hmem,hu⟩ := List.mem_filter.mp (hb.used.mem_iff.mpr
    (List.mem_append_right K (hF.mem_iff.mpr List.mem_cons_self)))
  rcases List.mem_append.mp hmem with hB | hN
  · obtain ⟨l₁,l₂,rfl⟩ := List.append_of_mem hB
    exact ⟨_,N,hb.free_front hp hF hu hle hseam⟩
  · obtain ⟨l₁,l₂,rfl⟩ := List.append_of_mem hN
    obtain ⟨N',hb'⟩ := hb.free_back hp hF hu hle hseam
    exact ⟨B,N',hb'⟩

/-- A block of the list is in one of its parts. -/
theorem append_middle (h : B++N = l₁++b::l₂) : (∃ l, B = l₁++b::l ∧ l₂ = l++N) ∨
    ∃ l, l₁ = B++l ∧ N = l++b::l₂ := by
  rcases List.append_eq_append_iff.mp h with ⟨l,rfl,hN⟩ | ⟨l,rfl,hl⟩
  · exact Or.inr ⟨l,rfl,hN⟩
  · cases l with
    | nil => exact Or.inr ⟨[],by simp,by simpa using hl.symm⟩
    | cons c l =>
      rw [List.cons_append,List.cons.injEq] at hl
      exact Or.inl ⟨l,by rw [hl.1],hl.2⟩

/-- A served request of the batch. -/
theorem Served.batch {r : Option Nat × Heap (PageLog σ)} (hs : Served pool owes h (B++N) size r)
    (hb : Batch owes IsUsed old K stop bytes h B N F) (hmod : size%16 = 0) (hsize : size ≤ 2^32)
    (hroom : (B++N).find? (fun b => !b.used && decide (size ≤ b.size)) = none →
      ∃ g ∈ h.groups, g.inUse = false)
    (hseam : (B++N).find? (fun b => !b.used && decide (size ≤ b.size)) = none → N = [] →
      ∀ a, (pool.alloc h.pmm.pmm (heapPagesFor size)).1 = some a →
        ∀ c, B.getLast? = some c → c.used = false → c.stop ≠ a.toNat) :
    ∃ B' N', (r.1 = none ∧ Batch owes IsUsed old K stop bytes r.2 B' N' F) ∨
      ∃ b, r.1 = some (b.addr+blockSize) ∧ Batch owes IsUsed old K stop bytes r.2 B' N' (b::F) := by
  cases hs with
  | refused s hr hpk how =>
    refine ⟨B,N,Or.inl ⟨rfl,?_⟩⟩
    have hc := hb.core
    refine ⟨⟨hc.shows,hc.head,?_,?_,?_,?_,?_,how,?_⟩,?_,hb.layout,hb.used,hb.start,hb.last,hb.met,?_,?_,
      hb.bytes⟩
    all_goals simp only [hr,hpk]
    · exact hc.layout
    · exact hc.apart
    · exact hc.runs
    · exact hc.table
    · exact hc.pages
    · exact hc.peak
    · exact hb.kept
    · exact hb.reg
    · exact hb.busy
  | found l₁ l₂ b hbs hfree hle =>
    rcases append_middle hbs with ⟨l,rfl,rfl⟩ | ⟨l,rfl,rfl⟩
    · obtain ⟨b',hptr,hb'⟩ := hb.take_front hfree hle hmod hsize
      exact ⟨_,N,Or.inr ⟨b',hptr,hb'⟩⟩
    · obtain ⟨b',hptr,hb'⟩ := hb.take_back (fun _ _ => id) hfree hle hmod hsize
      exact ⟨B,_,Or.inr ⟨b',hptr,hb'⟩⟩
  | grown a h' h₂ hx hrun hreg hfull hcore hpmm hgroups hbytes hblocks hle =>
    obtain ⟨hsplit,hb₂⟩ := hb.grow hx hreg (hroom hfull) (fun hN => hseam hfull hN a hrun) hcore hpmm
      hgroups hbytes
    obtain ⟨hfree,⟨hlo,hhi⟩,-⟩ := coalesced_fenced N (newBlk a (heapPagesFor size)) [] rfl
    rw [hsplit] at hle ⊢
    have hone := hcore.layout.used_of_usedOr (p := a.toNat)
    rw [hsplit] at hone
    have hhas : (coalesced N (newBlk a (heapPagesFor size)) []).2.1.span.Has a.toNat :=
      ⟨hlo,lt_of_lt_of_le (newBlk a (heapPagesFor size)).span_pos hhi⟩
    obtain ⟨b',hptr,hb'⟩ := hb₂.take_back (fun c hc => hone hhas c (by
      rw [List.append_assoc]
      exact List.mem_append_right _ hc)) hfree hle hmod hsize
    exact ⟨B,_,Or.inr ⟨b',hptr,hb'⟩⟩

end

end KiNBOL
