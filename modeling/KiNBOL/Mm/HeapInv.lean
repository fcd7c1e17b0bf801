import KiNBOL.Mm.HeapScan

namespace KiNBOL

/-- A page run: physical address and number of pages. -/
abbrev PageRun := BitVec 64 × Nat

def runSpan (r : PageRun) : Span := ⟨r.1.toNat,r.1.toNat+r.2*4096⟩

/-- The PMM seen from the heap, with the runs handed out and not given back yet, and the most there
ever were. -/
structure PageLog (σ : Type) where
  pmm : σ
  runs : List PageRun
  peak : Nat

variable {σ : Type}

def PageLog.grant (l : PageLog σ) (n : Nat) (r : Option (BitVec 64) × σ) :
    Option (BitVec 64) × PageLog σ :=
  match r with
  | (none,s) => (none,{ l with pmm := s })
  | (some a,s) => (some a,⟨s,(a,n)::l.runs,max l.peak (l.runs.length+1)⟩)

/-- A pool that keeps the log. -/
def PagePool.logged (pool : PagePool σ) : PagePool (PageLog σ) where
  allocPage := fun l => l.grant 1 (pool.allocPage l.pmm)
  allocPages := fun l n => l.grant n (pool.allocPages l.pmm n)
  freePages := fun l a n => ⟨pool.freePages l.pmm a n,l.runs.erase (a,n),l.peak⟩

def PagePool.alloc (pool : PagePool σ) (s : σ) (n : Nat) : Option (BitVec 64) × σ :=
  if n = 1 then pool.allocPage s else pool.allocPages s n

theorem PagePool.logged_alloc (pool : PagePool σ) (l : PageLog σ) (n : Nat) :
    pool.logged.alloc l n = l.grant n (pool.alloc l.pmm n) := by
  unfold PagePool.alloc
  split_ifs with h
  · rw [h]
    rfl
  · rfl

/-- A pool hands out page-aligned runs that are apart from those still out, or none; `owes` relates
its state to the runs that are out. -/
structure PagePool.Honest (pool : PagePool σ) (owes : σ → List PageRun → Prop) : Prop where
  grant : ∀ s rs n a s', owes s rs → 0 < n → pool.alloc s n = (some a,s') →
    a.toNat%4096 = 0 ∧ (runSpan (a,n)).hi ≤ 2^64 ∧
    (∀ r ∈ rs, (runSpan (a,n)).Apart (runSpan r)) ∧ owes s' ((a,n)::rs)
  refuse : ∀ s rs n s', owes s rs → pool.alloc s n = (none,s') → owes s' rs
  free : ∀ s rs r, owes s rs → r ∈ rs → owes (pool.freePages s r.1 r.2) (rs.erase r)

/-- Runs in the group table. -/
def regs (groups : List HeapGroup) : List PageRun :=
  (groups.filter (·.inUse)).map (fun g => (g.physBase,g.npages))

/-- The group table lists runs that are out, each once. -/
structure TableOk (groups : List HeapGroup) (runs : List PageRun) : Prop where
  length : groups.length = heapMaxGroups
  base : ∀ g ∈ groups, g.inUse = true → g.virtBase = g.physBase.toNat
  nodup : (regs groups).Nodup
  sub : ∀ r ∈ regs groups, r ∈ runs

def RunStart (runs : List PageRun) (x : Nat) : Prop := ∃ r ∈ runs, (runSpan r).lo = x
def RunEnd (runs : List PageRun) (x : Nat) : Prop := ∃ r ∈ runs, (runSpan r).hi = x

/-- A run as the heap asks for them. -/
def RunOk (r : PageRun) : Prop :=
  r.1.toNat%4096 = 0 ∧ 0 < r.2 ∧ r.2 < 2^32 ∧ (runSpan r).hi ≤ 2^64

/-- The heap in memory shows the blocks `bs`, which tile the runs that are out. -/
structure HeapCore (owes : σ → List PageRun → Prop) (h : Heap (PageLog σ)) (bs : List Blk) :
    Prop where
  shows : Shows h.hdr bs
  head : h.freeList = bs.head?.map Blk.addr
  layout : Layout bs (h.pmm.runs.map runSpan)
  apart : SpansApart (h.pmm.runs.map runSpan)
  runs : ∀ r ∈ h.pmm.runs, RunOk r
  table : TableOk h.groups h.pmm.runs
  pages : h.gPages = BitVec.ofNat 32 (h.pmm.runs.map Prod.snd).sum
  owed : owes h.pmm.pmm h.pmm.runs
  peak : h.pmm.runs.length ≤ h.pmm.peak

/-- All runs are in the table and every stretch of blocks has a used one. -/
structure HeapFull (h : Heap (PageLog σ)) (bs : List Blk) : Prop where
  all : ∀ r ∈ h.pmm.runs, r ∈ regs h.groups
  busy : Scan (RunStart h.pmm.runs) (RunEnd h.pmm.runs) (fun b => b.used = true) none bs

/-- The invariant; its second half holds while the group table never overflowed. -/
structure HeapInv (owes : σ → List PageRun → Prop) (h : Heap (PageLog σ)) (bs : List Blk) : Prop
    extends HeapCore owes h bs where
  full : h.pmm.peak ≤ heapMaxGroups → HeapFull h bs

variable {owes : σ → List PageRun → Prop} {h : Heap (PageLog σ)} {bs l₁ l₂ : List Blk} {b m : Blk}
  {pool : PagePool σ} {size : Nat}

theorem HeapCore.length_lt (hc : HeapCore owes h bs) : bs.length < listBound :=
  hc.layout.length_lt (fun s hs => by
    obtain ⟨r,hr,rfl⟩ := List.mem_map.mp hs
    exact (hc.runs r hr).2.2.2)

theorem runSpan_pos {r : PageRun} (h : RunOk r) : (runSpan r).lo < (runSpan r).hi := by
  have := h.2.1
  simp only [runSpan]
  omega

theorem HeapCore.nodup (hc : HeapCore owes h bs) : h.pmm.runs.Nodup := by
  have hp := List.pairwise_map.mp hc.apart
  refine List.Pairwise.imp_of_mem (fun {r s} hr _ hap he => ?_) hp
  subst he
  have := runSpan_pos (hc.runs r hr)
  simp only [Span.Apart] at hap
  omega

/-- A sublist of a list of spans that are apart. -/
theorem SpansApart.sub {l l' : List PageRun} (h : SpansApart (l.map runSpan)) (hnd : l'.Nodup)
    (hsub : ∀ r ∈ l', r ∈ l) : SpansApart (l'.map runSpan) := by
  refine List.pairwise_map.mpr (hnd.pairwise_of_forall_ne (fun r hr s hs hne => ?_))
  have : Std.Symm (fun a b : PageRun => (runSpan a).Apart (runSpan b)) := ⟨fun _ _ hab => hab.symm⟩
  exact (List.pairwise_map.mp h).forall (hsub r hr) (hsub s hs) hne

/-- A block of the heap shares its addresses with no other block. -/
theorem Layout.outside {gs : List Span} (hl : Layout (l₁++m::l₂) gs) {x : Nat} (hx : m.span.Has x) :
    ∀ c ∈ l₁++l₂, ¬c.span.Has x := by
  intro c hc hcx
  have hap := hl.apart
  simp only [SpansApart,List.map_append,List.map_cons,List.pairwise_append,List.pairwise_cons] at hap
  obtain ⟨-,⟨h2,-⟩,h1⟩ := hap
  rcases List.mem_append.mp hc with hc | hc
  · exact (h1 _ (List.mem_map_of_mem hc) m.span (by simp)).not_both hcx hx
  · exact (h2 _ (List.mem_map_of_mem hc)).not_both hx hcx

/-- `heap_split` and setting `used` on a free block that is large enough. -/
theorem heapTake_core (hc : HeapCore owes h (l₁++b::l₂)) (hsize : size%16 = 0)
    (hsmall : size+heapMinSplit < 2^64) :
    HeapCore owes (heapTake h b.addr size).2 (l₁++(splitBlk { b with used := true } size++l₂)) ∧
    (heapTake h b.addr size).1 = some (b.addr+blockSize) ∧
    (heapTake h b.addr size).2.pmm = h.pmm ∧ (heapTake h b.addr size).2.groups = h.groups := by
  have hsplit : Shows (heapSplit h.hdr b.addr size) (l₁++splitBlk b size++l₂) := by
    by_cases hno : b.size < (size+heapMinSplit)%2^64
    · have hs : splitBlk b size = [b] := by rw [splitBlk,if_pos hno]
      rw [heapSplit,hc.shows.cell.1,if_pos hno,hs]
      simpa using hc.shows
    · apply hc.shows.split
      rw [Nat.mod_eq_of_lt hsmall] at hno
      simp only [heapMinSplit,blockSize] at hno
      apply hc.layout.not_start
      · simp only [blockSize]
        omega
      · simp only [Blk.stop,blockSize]
        omega
  obtain ⟨b₁,rest,hb₁,haddr,hset⟩ : ∃ b₁ rest, splitBlk b size = b₁::rest ∧ b₁.addr = b.addr ∧
      splitBlk { b with used := true } size = { b₁ with used := true }::rest := by
    unfold splitBlk
    split_ifs
    · exact ⟨b,[],rfl,rfl,rfl⟩
    · exact ⟨_,_,rfl,rfl,rfl⟩
  have hshows : Shows (setHdr (heapSplit h.hdr b.addr size) b.addr (fun x => { x with used := true }))
      (l₁++(splitBlk { b with used := true } size++l₂)) := by
    rw [hb₁,List.append_assoc,List.cons_append] at hsplit
    have hu := hsplit.setUsed true
    rw [haddr] at hu
    rw [hset,haddr,List.cons_append]
    exact hu
  have hlay : Layout (l₁++(splitBlk { b with used := true } size++l₂)) (h.pmm.runs.map runSpan) := by
    rw [← List.append_assoc]
    exact (hc.layout.setUsed true).split hsize hsmall
  refine ⟨⟨hshows,?_,hlay,hc.apart,hc.runs,hc.table,hc.pages,hc.owed,hc.peak⟩,rfl,rfl,rfl⟩
  show h.freeList = _
  rw [hc.head,hset]
  cases l₁ with
  | nil => simp [haddr]
  | cons c l => rfl

/-- `heap_coalesce` around a free block. -/
theorem heapCoalesce_core (hc : HeapCore owes h (l₁++b::l₂)) (hb : b.used = false) :
    (heapCoalesce h.hdr b.addr).1 = (coalesced l₁ b l₂).2.1.addr ∧
    HeapCore owes { h with hdr := (heapCoalesce h.hdr b.addr).2 }
      ((coalesced l₁ b l₂).1++(coalesced l₁ b l₂).2.1::(coalesced l₁ b l₂).2.2) := by
  obtain ⟨haddr,hshows⟩ := heapCoalesce_shows hc.shows hc.length_lt.le
  obtain ⟨hlay,-⟩ := coalesced_spec (layout_joins (h.pmm.runs.map runSpan)) hb hc.layout
  refine ⟨haddr,⟨hshows,?_,hlay,hc.apart,hc.runs,hc.table,hc.pages,hc.owed,hc.peak⟩⟩
  show h.freeList = _
  rw [hc.head]
  exact coalesced_head hb

/-- Registering a run in a table with room. -/
theorem heapRegisterGroup_spec (g : HeapGroup) (hg : g.inUse = true) (groups : List HeapGroup) :
    (heapRegisterGroup g groups).length = groups.length ∧
    (∀ x ∈ heapRegisterGroup g groups, x = g ∨ x ∈ groups) ∧
    ((regs (heapRegisterGroup g groups)).Perm ((g.physBase,g.npages)::regs groups) ∨
      (heapRegisterGroup g groups = groups ∧ (regs groups).length = groups.length)) := by
  induction groups with
  | nil => exact ⟨rfl,fun x hx => Or.inr hx,Or.inr ⟨rfl,rfl⟩⟩
  | cons x rest ih =>
    rw [heapRegisterGroup]
    cases hx : x.inUse with
    | false =>
      simp only [Bool.false_eq_true,if_false]
      refine ⟨rfl,fun y hy => ?_,Or.inl ?_⟩
      · rcases List.mem_cons.mp hy with rfl | hy
        · exact Or.inl rfl
        · exact Or.inr (by simp [hy])
      · simp [regs,hx,hg]
    | true =>
      simp only [if_true]
      obtain ⟨h1,h2,h3⟩ := ih
      refine ⟨by simp [h1],fun y hy => ?_,?_⟩
      · rcases List.mem_cons.mp hy with rfl | hy
        · exact Or.inr (by simp)
        · exact (h2 y hy).imp id (fun hm => by simp [hm])
      · have hcons : ∀ l, regs (x::l) = (x.physBase,x.npages)::regs l := by
          intro l
          simp [regs,hx]
        rw [hcons,hcons]
        rcases h3 with hp | ⟨hsame,hlen⟩
        · exact Or.inl ((hp.cons _).trans (List.Perm.swap _ _ _))
        · exact Or.inr ⟨by rw [hsame],by simp [hlen]⟩

/-- Freeing runs that are out, one after the other. -/
theorem PageLog.freeAll (hp : pool.Honest owes) (ins : List PageRun) (l : PageLog σ)
    (how : owes l.pmm l.runs) (hnd : ins.Nodup) (hsub : ∀ r ∈ ins, r ∈ l.runs)
    (hruns : l.runs.Nodup) :
    let l' := ins.foldl (fun s r => pool.logged.freePages s r.1 r.2) l
    owes l'.pmm l'.runs ∧ l'.runs.Nodup ∧ (∀ r, r ∈ l'.runs ↔ r ∈ l.runs ∧ r ∉ ins) ∧
    l'.peak = l.peak ∧ (l.runs.map Prod.snd).sum = (l'.runs.map Prod.snd).sum+(ins.map Prod.snd).sum ∧
    l'.runs.length ≤ l.runs.length := by
  induction ins generalizing l with
  | nil => exact ⟨how,hruns,fun r => by simp,rfl,by simp,le_refl _⟩
  | cons r rest ih =>
    obtain ⟨hr,hnd'⟩ := List.nodup_cons.mp hnd
    have hmem : r ∈ l.runs := hsub r (by simp)
    let l₁ : PageLog σ := pool.logged.freePages l r.1 r.2
    have hl₁ : l₁.runs = l.runs.erase r := rfl
    obtain ⟨h1,h2,h3,h4,h5,h6⟩ := ih l₁ (hp.free l.pmm l.runs r how hmem) hnd'
      (fun s hs => by
        rw [hl₁,hruns.mem_erase_iff]
        exact ⟨fun he => hr (he ▸ hs),hsub s (by simp [hs])⟩) (hruns.erase r)
    refine ⟨h1,h2,fun s => ?_,h4,?_,?_⟩
    · rw [List.foldl_cons,h3 s,hl₁,hruns.mem_erase_iff,List.mem_cons]
      tauto
    · have hperm := (List.perm_cons_erase hmem).map Prod.snd
      have hsum := hperm.sum_eq
      rw [List.map_cons,List.sum_cons,← hl₁,h5] at hsum
      exact hsum.trans (Nat.add_left_comm _ _ _)
    · refine h6.trans ?_
      rw [hl₁]
      exact List.length_erase_le

end KiNBOL
