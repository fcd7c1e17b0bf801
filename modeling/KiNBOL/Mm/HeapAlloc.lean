import KiNBOL.Mm.HeapOps

namespace KiNBOL

variable {σ : Type} {owes : σ → List PageRun → Prop} {h h' : Heap (PageLog σ)}
  {bs l₁ l₂ : List Blk} {b m : Blk} {pool : PagePool σ} {size n : Nat} {a : BitVec 64}

/-- The pages asked for hold the block, and their number fits 32 bits. -/
theorem heapPagesFor_spec (hsize : size ≤ 2^32) :
    0 < heapPagesFor size ∧ heapPagesFor size < 2^32 ∧ size+blockSize ≤ heapPagesFor size*4096 := by
  have h1 : (size+blockSize)%2^64 = size+blockSize := Nat.mod_eq_of_lt (by
    simp only [blockSize]
    omega)
  have h2 : (size+blockSize+4096-1)%2^64 = size+blockSize+4096-1 := Nat.mod_eq_of_lt (by
    simp only [blockSize]
    omega)
  have hval : heapPagesFor size =
      if (size+32+4096-1)/4096 < 1 then 1 else (size+32+4096-1)/4096 := by
    unfold heapPagesFor
    rw [h1]
    simp only
    rw [h2]
    rfl
  have hpos : ¬((size+32+4096-1)/4096 < 1) := by omega
  rw [hval,if_neg hpos]
  simp only [blockSize]
  omega

/-- Rounding gives a multiple of 16 that is at most 15 larger. -/
theorem roundSize_spec (hsize : size < 2^32) :
    roundSize size%16 = 0 ∧ size ≤ roundSize size ∧ roundSize size ≤ 2^32 := by
  simp only [roundSize]
  omega

/-- What `heap_new_block` did when it got the run `(a,n)`. -/
structure Extended (owes : σ → List PageRun → Prop) (h : Heap (PageLog σ)) (size : Nat)
    (a : BitVec 64) (n : Nat) (h' : Heap (PageLog σ)) : Prop where
  ok : RunOk (a,n)
  fits : size+blockSize ≤ n*4096
  apart : ∀ r ∈ h.pmm.runs, (runSpan (a,n)).Apart (runSpan r)
  hdr : h'.hdr = Function.update h.hdr a.toNat ⟨n*4096-blockSize,false,heapMagic,none,none⟩
  head : h'.freeList = h.freeList
  bytes : h'.gUsedBytes = h.gUsedBytes
  blocks : h'.gUsedBlocks = h.gUsedBlocks
  pages : h'.gPages = h.gPages+BitVec.ofNat 32 n
  runs : h'.pmm.runs = (a,n)::h.pmm.runs
  peak : h'.pmm.peak = max h.pmm.peak (h.pmm.runs.length+1)
  table : TableOk h'.groups h'.pmm.runs
  owed : owes h'.pmm.pmm h'.pmm.runs
  all : h'.pmm.peak ≤ heapMaxGroups → (∀ r ∈ h.pmm.runs, r ∈ regs h.groups) →
    ∀ r ∈ h'.pmm.runs, r ∈ regs h'.groups

/-- A run that is apart from those out is none of them. -/
theorem RunOk.fresh (hr : RunOk (a,n)) {runs : List PageRun}
    (hap : ∀ r ∈ runs, (runSpan (a,n)).Apart (runSpan r)) : (a,n) ∉ runs := by
  intro hmem
  have hpos := runSpan_pos hr
  have := hap _ hmem
  simp only [Span.Apart] at this
  omega

/-- Registering the new run. -/
theorem TableOk.register {groups : List HeapGroup} {runs : List PageRun} (ht : TableOk groups runs)
    (hr : RunOk (a,n)) (hap : ∀ r ∈ runs, (runSpan (a,n)).Apart (runSpan r)) :
    TableOk (heapRegisterGroup ⟨true,a.toNat,a,n%2^32⟩ groups) ((a,n)::runs) ∧
    (runs.length < heapMaxGroups → (∀ r ∈ runs, r ∈ regs groups) →
      ∀ r ∈ (a,n)::runs, r ∈ regs (heapRegisterGroup ⟨true,a.toNat,a,n%2^32⟩ groups)) := by
  have hmod : n%2^32 = n := Nat.mod_eq_of_lt hr.2.2.1
  rw [hmod]
  obtain ⟨hlen,hmem,hregs⟩ := heapRegisterGroup_spec ⟨true,a.toNat,a,n⟩ rfl groups
  have hnew : (a,n) ∉ regs groups := fun hh => hr.fresh hap (ht.sub _ hh)
  have hbase : ∀ g ∈ heapRegisterGroup ⟨true,a.toNat,a,n⟩ groups, g.inUse = true →
      g.virtBase = g.physBase.toNat := by
    intro g hg hu
    rcases hmem g hg with rfl | hold
    · rfl
    · exact ht.base g hold hu
  rcases hregs with hperm | ⟨hsame,hfull⟩
  · refine ⟨⟨hlen.trans ht.length,hbase,?_,fun r hrm => ?_⟩,fun _ hall r hrm => ?_⟩
    · exact hperm.nodup_iff.mpr (List.nodup_cons.mpr ⟨hnew,ht.nodup⟩)
    · rcases List.mem_cons.mp (hperm.mem_iff.mp hrm) with rfl | hold
      · exact List.mem_cons_self
      · exact List.mem_cons_of_mem _ (ht.sub r hold)
    · refine hperm.mem_iff.mpr ?_
      rcases List.mem_cons.mp hrm with rfl | hold
      · exact List.mem_cons_self
      · exact List.mem_cons_of_mem _ (hall r hold)
  · refine ⟨⟨hlen.trans ht.length,hbase,?_,fun r hrm => ?_⟩,fun hlt _ => ?_⟩
    · rw [hsame]
      exact ht.nodup
    · rw [hsame] at hrm
      exact List.mem_cons_of_mem _ (ht.sub r hrm)
    · -- a full table lists 1024 runs that are out
      have hsub := (List.subperm_of_subset ht.nodup ht.sub).length_le
      rw [hfull,ht.length] at hsub
      omega

/-- `heap_new_block`: refused, or one more run. -/
theorem heapNewBlock_cases (hp : pool.Honest owes) (hc : HeapCore owes h bs) (hsize : size ≤ 2^32) :
    (∃ s : PageLog σ, heapNewBlock pool.logged h size = (none,{ h with pmm := s }) ∧
      s.runs = h.pmm.runs ∧ s.peak = h.pmm.peak ∧ owes s.pmm s.runs) ∨
    ∃ a h', heapNewBlock pool.logged h size = (some a.toNat,h') ∧
      Extended owes h size a (heapPagesFor size) h' ∧
      (pool.alloc h.pmm.pmm (heapPagesFor size)).1 = some a ∧
      h'.groups = heapRegisterGroup ⟨true,a.toNat,a,heapPagesFor size%2^32⟩ h.groups := by
  obtain ⟨hpos,hlt,hfits⟩ := heapPagesFor_spec hsize
  unfold heapNewBlock
  simp only
  rw [show (if heapPagesFor size = 1 then pool.logged.allocPage h.pmm
    else pool.logged.allocPages h.pmm (heapPagesFor size)) =
      pool.logged.alloc h.pmm (heapPagesFor size) from rfl,pool.logged_alloc]
  generalize heapPagesFor size = n at hpos hlt hfits
  rcases hg : pool.alloc h.pmm.pmm n with ⟨r,s⟩
  cases r with
  | none =>
    left
    exact ⟨_,rfl,rfl,rfl,hp.refuse _ _ _ _ hc.owed hg⟩
  | some a =>
    right
    obtain ⟨halign,hhi,hap,how⟩ := hp.grant _ _ _ _ _ hc.owed hpos hg
    have hok : RunOk (a,n) := ⟨halign,hpos,hlt,hhi⟩
    obtain ⟨htab,hall⟩ := hc.table.register hok hap
    refine ⟨a,_,rfl,⟨hok,hfits,hap,rfl,rfl,rfl,rfl,rfl,rfl,rfl,htab,how,fun hpk => hall ?_⟩,rfl,rfl⟩
    exact (le_max_right _ _).trans hpk

/-- Another pool with the same runs out. -/
theorem HeapInv.withPool {owes' : σ → List PageRun → Prop} {s : PageLog σ} (hi : HeapInv owes h bs)
    (hr : s.runs = h.pmm.runs) (hpk : s.peak = h.pmm.peak) (how : owes' s.pmm s.runs) :
    HeapInv owes' { h with pmm := s } bs := by
  have hc := hi.toHeapCore
  refine ⟨⟨hc.shows,hc.head,?_,?_,?_,?_,?_,how,?_⟩,fun hpeak => ?_⟩
  · rw [hr]
    exact hc.layout
  · rw [hr]
    exact hc.apart
  · rw [hr]
    exact hc.runs
  · rw [hr]
    exact hc.table
  · rw [hr]
    exact hc.pages
  · rw [hr,hpk]
    exact hc.peak
  · obtain ⟨h1,h2⟩ := hi.full (hpk ▸ hpeak)
    constructor
    · rw [hr]
      exact h1
    · rw [hr]
      exact h2

/-- The block of a new run. -/
def newBlk (a : BitVec 64) (n : Nat) : Blk := ⟨a.toNat,n*4096-blockSize,false⟩

theorem newBlk_span (hok : RunOk (a,n)) : (newBlk a n).span = runSpan (a,n) := by
  have := hok.2.1
  simp only [Blk.span,Blk.stop,newBlk,runSpan,blockSize,Span.mk.injEq,true_and]
  omega

theorem newBlk_has (a : BitVec 64) (n : Nat) : (newBlk a n).span.Has a.toNat :=
  ⟨le_refl _,(newBlk a n).span_pos⟩

/-- The layout with one more run and its block. -/
theorem Layout.extend {runs : List PageRun} (hl : Layout bs (runs.map runSpan)) (hok : RunOk (a,n))
    (hap : ∀ r ∈ runs, (runSpan (a,n)).Apart (runSpan r)) :
    Layout (bs++[newBlk a n]) (((a,n)::runs).map runSpan) := by
  have hspan := newBlk_span hok
  refine ⟨?_,fun x => ?_,fun c hc => ?_⟩
  · rw [List.map_append,List.map_singleton]
    refine List.pairwise_append.mpr ⟨hl.apart,List.pairwise_singleton _ _,?_⟩
    intro s hs t ht
    rw [List.mem_singleton] at ht
    obtain ⟨c,-,rfl⟩ := List.mem_map.mp hs
    subst ht
    refine Span.apart_of_not_both c.span_pos (newBlk a n).span_pos (fun x hx hxn => ?_)
    obtain ⟨g,hg,hxg⟩ := (hl.cover x).mp ⟨c.span,hs,hx⟩
    obtain ⟨r,hr,rfl⟩ := List.mem_map.mp hg
    exact (hap r hr).not_both (hspan ▸ hxn) hxg
  · have hone : Covers [(newBlk a n).span] x ↔ (runSpan (a,n)).Has x := by
      rw [covers_cons,hspan]
      simp [Covers]
    rw [List.map_append,List.map_singleton,List.map_cons,covers_append,hl.cover,hone,covers_cons]
    exact or_comm
  · rcases List.mem_append.mp hc with hc | hc
    · exact hl.aligned c hc
    · rw [List.mem_singleton] at hc
      subst hc
      have h1 : a.toNat%4096 = 0 := hok.1
      have h2 : 0 < n := hok.2.1
      simp only [newBlk,blockSize]
      omega

/-- The part of the invariant that does not look at the list, in front of a list that shows. -/
theorem Extended.core (hx : Extended owes h size a n h') (hc : HeapCore owes h bs)
    {hdr : Nat → BlockHdr} {head : Option Nat} (hs : Shows hdr (bs++[newBlk a n]))
    (hh : head = (bs++[newBlk a n]).head?.map Blk.addr) :
    HeapCore owes { h' with hdr := hdr, freeList := head } (bs++[newBlk a n]) := by
  refine ⟨hs,hh,?_,?_,?_,hx.table,?_,hx.owed,?_⟩
  · show Layout _ (h'.pmm.runs.map runSpan)
    rw [hx.runs]
    exact hc.layout.extend hx.ok hx.apart
  · show SpansApart (h'.pmm.runs.map runSpan)
    rw [hx.runs]
    refine List.pairwise_cons.mpr ⟨fun s hs => ?_,hc.apart⟩
    obtain ⟨r,hr,rfl⟩ := List.mem_map.mp hs
    exact hx.apart r hr
  · show ∀ r ∈ h'.pmm.runs, RunOk r
    rw [hx.runs]
    intro r hr
    rcases List.mem_cons.mp hr with rfl | hr
    · exact hx.ok
    · exact hc.runs r hr
  · show h'.gPages = BitVec.ofNat 32 (h'.pmm.runs.map Prod.snd).sum
    rw [hx.pages,hx.runs,hc.pages,List.map_cons,List.sum_cons,BitVec.ofNat_add]
    exact BitVec.add_comm _ _
  · show h'.pmm.runs.length ≤ h'.pmm.peak
    rw [hx.runs,hx.peak]
    exact le_max_right _ _

/-- The stretches with the new run's block, which counts as busy. -/
theorem Extended.scan (hx : Extended owes h size a n h') (hi : HeapInv owes h bs)
    (hpeak : h'.pmm.peak ≤ heapMaxGroups) :
    Scan (RunStart h'.pmm.runs) (RunEnd h'.pmm.runs) (UsedOr a.toNat) none (bs++[newBlk a n]) := by
  have hold : h.pmm.peak ≤ heapMaxGroups := by
    rw [hx.peak] at hpeak
    exact (le_max_left _ _).trans hpeak
  have hmem : (a,n) ∈ h'.pmm.runs := by
    rw [hx.runs]
    exact List.mem_cons_self
  have hspan := newBlk_span hx.ok
  have hmono : Scan (RunStart h'.pmm.runs) (RunEnd h'.pmm.runs) (UsedOr a.toNat) none bs := by
    refine (hi.full hold).busy.mono_none (fun c _ => ⟨?_,?_,Or.inl⟩)
    · rintro ⟨r,hr,he⟩
      exact ⟨r,hx.runs ▸ List.mem_cons_of_mem _ hr,he⟩
    · rintro ⟨r,hr,he⟩
      exact ⟨r,hx.runs ▸ List.mem_cons_of_mem _ hr,he⟩
  exact hmono.append ⟨_,hmem,congrArg Span.lo hspan.symm⟩ ⟨_,hmem,congrArg Span.hi hspan.symm⟩
    (Or.inr (newBlk_has a n))

/-- All runs are in the table after the extension. -/
theorem Extended.registered (hx : Extended owes h size a n h') (hi : HeapInv owes h bs)
    (hpeak : h'.pmm.peak ≤ heapMaxGroups) : ∀ r ∈ h'.pmm.runs, r ∈ regs h'.groups := by
  have hold : h.pmm.peak ≤ heapMaxGroups := by
    rw [hx.peak] at hpeak
    exact (le_max_left _ _).trans hpeak
  exact hx.all hpeak (hi.full hold).all

/-- What an allocation of `size` bytes leaves, when `us` were the used blocks: nothing but a refusal,
or one used block more, which is counted. -/
def Allocated (owes : σ → List PageRun → Prop) (us : List Blk) (h : Heap (PageLog σ)) (size : Nat)
    (r : Option Nat × Heap (PageLog σ)) : Prop :=
  ∃ bs', HeapInv owes r.2 bs' ∧
    match r.1 with
    | none => bs'.filter Blk.used = us ∧ r.2.gUsedBytes = h.gUsedBytes ∧
        r.2.gUsedBlocks = h.gUsedBlocks
    | some p => ∃ b, p = b.addr+blockSize ∧ size ≤ b.size ∧ (bs'.filter Blk.used).Perm (b::us) ∧
        r.2.gUsedBytes = h.gUsedBytes+BitVec.ofNat 32 b.size ∧ r.2.gUsedBlocks = h.gUsedBlocks+1#32

/-- Counted from an earlier heap with the same counters. -/
theorem Allocated.since {us : List Blk} {r : Option Nat × Heap (PageLog σ)}
    (hr : Allocated owes us h' size r) (hbytes : h'.gUsedBytes = h.gUsedBytes)
    (hblocks : h'.gUsedBlocks = h.gUsedBlocks) : Allocated owes us h size r := by
  obtain ⟨bs',hi,hcase⟩ := hr
  rw [hbytes,hblocks] at hcase
  exact ⟨bs',hi,hcase⟩

/-- Room for more is room for less. -/
theorem Allocated.shrink {us : List Blk} {r : Option Nat × Heap (PageLog σ)} {size' : Nat}
    (hr : Allocated owes us h size' r) (hle : size ≤ size') : Allocated owes us h size r := by
  obtain ⟨bs',hi,hcase⟩ := hr
  refine ⟨bs',hi,?_⟩
  cases hptr : r.1 with
  | none =>
    rw [hptr] at hcase
    exact hcase
  | some p =>
    rw [hptr] at hcase
    obtain ⟨b,hb,hroom,hrest⟩ := hcase
    exact ⟨b,hb,hle.trans hroom,hrest⟩

/-- The used block is the first one `heap_split` makes. -/
theorem splitBlk_used (hle : size ≤ b.size) : ∃ b' rest,
    splitBlk { b with used := true } size = b'::rest ∧ b'.addr = b.addr ∧ b'.used = true ∧
      size ≤ b'.size ∧ rest.filter Blk.used = [] := by
  unfold splitBlk
  split_ifs
  · exact ⟨_,[],rfl,rfl,rfl,hle,rfl⟩
  · exact ⟨_,_,rfl,rfl,rfl,le_refl _,rfl⟩

/-- The used blocks after a free block with room was taken, and the counters. -/
theorem heapTake_used (hc : HeapCore owes h (l₁++b::l₂)) (hb : b.used = false) (hle : size ≤ b.size)
    (hmod : size%16 = 0) (hsmall : size+heapMinSplit < 2^64) :
    ∃ b', (heapTake h b.addr size).1 = some (b'.addr+blockSize) ∧ size ≤ b'.size ∧
      ((l₁++(splitBlk { b with used := true } size++l₂)).filter Blk.used).Perm
        (b'::(l₁++b::l₂).filter Blk.used) ∧
      (heapTake h b.addr size).2.gUsedBytes = h.gUsedBytes+BitVec.ofNat 32 b'.size ∧
      (heapTake h b.addr size).2.gUsedBlocks = h.gUsedBlocks+1#32 := by
  obtain ⟨hcore,hptr,-⟩ := heapTake_core hc hmod hsmall
  obtain ⟨b',rest,hsplit,haddr,hu,hroom,hrest⟩ := splitBlk_used hle
  refine ⟨b',by rw [hptr,haddr],hroom,?_,?_,rfl⟩
  · have hb0 : ¬(b.used = true) := by simp [hb]
    rw [hsplit,List.cons_append,List.filter_append,List.filter_cons_of_pos hu,List.filter_append,
      hrest,List.nil_append,List.filter_append,List.filter_cons_of_neg hb0]
    exact List.perm_middle
  · have hcell := hcore.shows
    rw [hsplit,List.cons_append] at hcell
    rw [← hcell.cell.1,haddr]
    rfl

theorem size_small (hsize : size ≤ 2^32) : size+heapMinSplit < 2^64 := by
  simp only [heapMinSplit,blockSize]
  omega

/-- Taking a free block with room, in a list where it may count as busy already. -/
theorem heapTake_spec {busy : Blk → Prop} (hc : HeapCore owes h (l₁++b::l₂)) (hb : b.used = false)
    (hle : size ≤ b.size) (hmod : size%16 = 0) (hsize : size ≤ 2^32)
    (hfull : h.pmm.peak ≤ heapMaxGroups → (∀ r ∈ h.pmm.runs, r ∈ regs h.groups) ∧
      Scan (RunStart h.pmm.runs) (RunEnd h.pmm.runs) busy none (l₁++b::l₂))
    (hbusy : ∀ c ∈ l₁++l₂, busy c → IsUsed c) :
    Allocated owes ((l₁++b::l₂).filter Blk.used) h size (heapTake h b.addr size) := by
  have hsmall := size_small hsize
  obtain ⟨hcore,-,hpmm,hgroups⟩ := heapTake_core hc hmod hsmall
  obtain ⟨b',hptr,hroom,hperm,hbytes,hblocks⟩ := heapTake_used hc hb hle hmod hsmall
  refine ⟨_,⟨hcore,fun hpeak => ?_⟩,?_⟩
  · rw [hpmm] at hpeak
    obtain ⟨hall,hscan⟩ := hfull hpeak
    constructor
    · rw [hpmm,hgroups]
      exact hall
    · rw [hpmm]
      exact hscan.take hsmall hbusy (fun _ => id)
  · rw [hptr]
    exact ⟨b',rfl,hroom,hperm,hbytes,hblocks⟩

/-- The free blocks before the one that is left were in the list before. -/
theorem absorbPrev_suffix (r : List Blk) (b : Blk) : (absorbPrev r b).1 <:+ r := by
  induction r generalizing b with
  | nil => exact List.suffix_refl _
  | cons c r ih =>
    rw [absorbPrev]
    split_ifs
    · exact (ih (c.join b)).trans (List.suffix_cons c r)
    · exact List.suffix_refl _

theorem coalesced_left (l₁ : List Blk) (b : Blk) (l₂ : List Blk) :
    ∀ c ∈ (coalesced l₁ b l₂).1, c ∈ l₁ := by
  intro c hc
  have hmem := (absorbPrev_suffix l₁.reverse (absorbNext b l₂).1).mem (List.mem_reverse.mp hc)
  exact List.mem_reverse.mp hmem

/-- First fit over a list that shows in memory. -/
theorem HeapCore.fit (hc : HeapCore owes h bs) (size : Nat) :
    heapFit h.hdr size listBound h.freeList =
      (bs.find? (fun b => !b.used && decide (size ≤ b.size))).map Blk.addr := by
  rw [hc.head]
  exact heapFit_shows (show Shows h.hdr ([]++bs) from hc.shows) size hc.length_lt

/-- `tail->next = new_blk; new_blk->prev = tail`. -/
def chain (hdr : Nat → BlockHdr) (tail blk : Nat) : Nat → BlockHdr :=
  setHdr (setHdr hdr tail (fun b => { b with next := some blk })) blk
    (fun b => { b with prev := some tail })

/-- The new block is linked behind the last one. -/
theorem Extended.append (hx : Extended owes h size a n h') (hc : HeapCore owes h bs)
    {head : Nat} (hhead : h'.freeList = some head) :
    HeapCore owes { h' with hdr := chain h'.hdr (heapTail h'.hdr listBound head) a.toNat }
      (bs++[newBlk a n]) := by
  have hnew : a.toNat ∉ bs.map Blk.addr := by
    intro hmem
    obtain ⟨c,hc',he⟩ := List.mem_map.mp hmem
    have hself : c.span.Has a.toNat := ⟨he.le,he ▸ c.span_pos⟩
    obtain ⟨r,hr,hxr⟩ := hc.run_of hc' hself
    exact (hx.apart r hr).not_both (newBlk_span hx.ok ▸ newBlk_has a n) hxr
  have hold : h'.freeList = bs.head?.map Blk.addr := hx.head.trans hc.head
  rcases List.eq_nil_or_concat bs with rfl | ⟨l,c,hbs⟩
  · rw [hhead] at hold
    exact absurd hold (by simp)
  · rw [List.concat_eq_append] at hbs
    have htail : heapTail h'.hdr listBound head = c.addr := by
      -- the new header lies in no block of the list
      have hshows : Shows h'.hdr bs := by
        have hkeep : ∀ d ∈ bs, h'.hdr d.addr = h.hdr d.addr := by
          intro d hd
          rw [hx.hdr]
          exact Function.update_of_ne (fun he => hnew (List.mem_map.mpr ⟨d,hd,he⟩)) _ _
        refine ⟨hc.shows.links.congr (fun x hx => ?_) (fun x hx => ?_),hc.shows.nodup,fun d hd => ?_⟩
        · obtain ⟨d,hd,rfl⟩ := List.mem_map.mp hx
          rw [hkeep d hd]
        · obtain ⟨d,hd,rfl⟩ := List.mem_map.mp hx
          rw [hkeep d hd]
        · rw [hkeep d hd]
          exact hc.shows.cells d hd
      have hlen := hc.length_lt
      cases hb : bs with
      | nil => simp [hb] at hbs
      | cons d rest =>
        rw [hb] at hshows hlen hold
        have hd : head = d.addr := by
          rw [hhead] at hold
          simpa using hold
        have hlen2 : rest.length < listBound := by
          simp only [List.length_cons] at hlen
          omega
        rw [hd,heapTail_shows (show Shows _ ([]++d::rest) from hshows) hlen2]
        have hlast : (d::rest).getLast (by simp) = c := by
          simp only [← hb,hbs,List.getLast_concat]
        rw [hlast]
    rw [htail]
    have hshow : Shows (chain h'.hdr c.addr a.toNat) (bs++[newBlk a n]) := by
      rw [hbs,hx.hdr]
      rw [hbs] at hnew
      exact (hbs ▸ hc.shows).append hnew _
    refine hx.core hc hshow ?_
    rw [hold,hbs]
    cases l <;> rfl

/-- How a rounded request is served: not at all, from a block of the list, or from the last block
after it took a new run in. -/
inductive Served (pool : PagePool σ) (owes : σ → List PageRun → Prop) (h : Heap (PageLog σ))
    (bs : List Blk) (size : Nat) : Option Nat × Heap (PageLog σ) → Prop
  | refused (s : PageLog σ) (runs : s.runs = h.pmm.runs) (peak : s.peak = h.pmm.peak)
      (owed : owes s.pmm s.runs) : Served pool owes h bs size (none,{ h with pmm := s })
  | found (l₁ l₂ : List Blk) (b : Blk) (list : bs = l₁++b::l₂) (free : b.used = false)
      (room : size ≤ b.size) : Served pool owes h bs size (heapTake h b.addr size)
  | grown (a : BitVec 64) (h' h₂ : Heap (PageLog σ))
      (ext : Extended owes h size a (heapPagesFor size) h')
      (run : (pool.alloc h.pmm.pmm (heapPagesFor size)).1 = some a)
      (reg : h'.groups = heapRegisterGroup ⟨true,a.toNat,a,heapPagesFor size%2^32⟩ h.groups)
      (full : bs.find? (fun b => !b.used && decide (size ≤ b.size)) = none)
      (core : HeapCore owes h₂ ((coalesced bs (newBlk a (heapPagesFor size)) []).1++
        (coalesced bs (newBlk a (heapPagesFor size)) []).2.1::[]))
      (pmm : h₂.pmm = h'.pmm) (groups : h₂.groups = h'.groups)
      (bytes : h₂.gUsedBytes = h.gUsedBytes) (blocks : h₂.gUsedBlocks = h.gUsedBlocks)
      (room : size ≤ (coalesced bs (newBlk a (heapPagesFor size)) []).2.1.size) :
      Served pool owes h bs size
        (heapTake h₂ (coalesced bs (newBlk a (heapPagesFor size)) []).2.1.addr size)

/-- The second search of `kmalloc` has found a block. -/
theorem served_of_fit {f : Option Nat} {cur : Nat} {g : Heap (PageLog σ)}
    (hs : Served pool owes h bs size (heapTake g cur size)) : f = some cur →
    Served pool owes h bs size (match f with
      | some cur2 => heapTake g cur2 size
      | none => (none,g)) := by
  intro hf
  rw [hf]
  exact hs


/-- `kmalloc` on a list that is not empty. -/
theorem kmallocFrom_served (hp : pool.Honest owes) (hc : HeapCore owes h bs)
    (hne : h.freeList ≠ none) (hsize : size ≤ 2^32) :
    Served pool owes h bs size (kmallocFrom pool.logged h size) := by
  unfold kmallocFrom
  rw [hc.fit]
  cases hfind : bs.find? (fun b => !b.used && decide (size ≤ b.size)) with
  | some b =>
    obtain ⟨hb,l₁,l₂,rfl,-⟩ := List.find?_eq_some_iff_append.mp hfind
    simp only [Bool.and_eq_true,Bool.not_eq_true',decide_eq_true_eq] at hb
    exact .found l₁ l₂ b rfl hb.1 hb.2
  | none =>
    simp only [Option.map_none]
    rcases heapNewBlock_cases hp hc hsize with ⟨s,hres,hr,hpk,how⟩ | ⟨a,h',hres,hx,hrun,hreg⟩
    · rw [hres]
      exact .refused s hr hpk how
    · rw [hres]
      simp only
      cases hhead : h'.freeList with
      | none => exact absurd (hx.head.symm.trans hhead) hne
      | some head =>
        simp only
        have hcore := hx.append hc hhead
        have hnb : (newBlk a (heapPagesFor size)).used = false := rfl
        obtain ⟨-,hco⟩ := heapCoalesce_core hcore hnb
        obtain ⟨-,hfree,⟨hlo,hhi⟩,-,-⟩ := coalesced_spec
          (layout_joins (h'.pmm.runs.map runSpan)) hnb hcore.layout
        have hleft := coalesced_left bs (newBlk a (heapPagesFor size)) []
        -- the block that is left has room, and the blocks before it have none
        have hroom : size ≤ (coalesced bs (newBlk a (heapPagesFor size)) []).2.1.size := by
          have := hx.fits
          simp only [Blk.stop,newBlk,blockSize] at hlo hhi this ⊢
          omega
        have hfit : ((coalesced bs (newBlk a (heapPagesFor size)) []).1++
            (coalesced bs (newBlk a (heapPagesFor size)) []).2.1::[]).find?
              (fun b => !b.used && decide (size ≤ b.size)) =
            some (coalesced bs (newBlk a (heapPagesFor size)) []).2.1 := by
          refine List.find?_eq_some_iff_append.mpr ⟨by simp [hfree,hroom],_,[],rfl,fun c hck => ?_⟩
          rw [Bool.not_eq_true',← Bool.not_eq_true]
          exact List.find?_eq_none.mp hfind c (hleft c hck)
        let h₂ : Heap (PageLog σ) :=
          { h' with
            hdr := (heapCoalesce (chain h'.hdr (heapTail h'.hdr listBound head) a.toNat) a.toNat).2
            freeList := some head }
        have hco₂ : HeapCore owes h₂ ((coalesced bs (newBlk a (heapPagesFor size)) []).1++
            (coalesced bs (newBlk a (heapPagesFor size)) []).2.1::[]) :=
          hco.congr rfl hhead.symm rfl rfl rfl
        have hsecond : heapFit h₂.hdr size listBound h₂.freeList =
            some (coalesced bs (newBlk a (heapPagesFor size)) []).2.1.addr := by
          rw [hco₂.fit,hfit]
          rfl
        refine served_of_fit (g := h₂) ?_ hsecond
        exact .grown a h' h₂ hx hrun hreg hfind hco₂ rfl rfl hx.bytes hx.blocks hroom

/-- `kmalloc`. -/
theorem kmalloc_served (hp : pool.Honest owes) (hc : HeapCore owes h bs) (hzero : size ≠ 0)
    (hsize : size < 2^32) :
    Served pool owes h bs (roundSize size) (kmalloc pool.logged h size) := by
  obtain ⟨-,-,hround⟩ := roundSize_spec hsize
  unfold kmalloc
  rw [if_neg hzero]
  cases hlist : h.freeList with
  | some head => exact kmallocFrom_served hp hc (by simp [hlist]) hround
  | none =>
    simp only
    rcases heapNewBlock_cases hp hc hround with ⟨s,hres,hr,hpk,how⟩ | ⟨a,h',hres,hx,hrun,hreg⟩
    · rw [hres]
      exact .refused s hr hpk how
    · rw [hres]
      simp only
      -- the list was empty, so the new block is the whole list and has room
      have hnil : bs = [] := by
        have hhead := hc.head
        rw [hlist] at hhead
        cases bs with
        | nil => rfl
        | cons b l => simp at hhead
      subst hnil
      have hroom : roundSize size ≤ (newBlk a (heapPagesFor (roundSize size))).size := by
        have := hx.fits
        simp only [newBlk,blockSize] at this ⊢
        omega
      let h₁ : Heap (PageLog σ) := { h' with freeList := some a.toNat }
      have hcore : HeapCore owes h₁ ([]++newBlk a (heapPagesFor (roundSize size))::[]) := by
        refine hx.core hc ?_ rfl
        rw [hx.hdr]
        exact Shows.first h.hdr _ _
      have hfit : heapFit h₁.hdr (roundSize size) listBound h₁.freeList =
          some (newBlk a (heapPagesFor (roundSize size))).addr := by
        rw [hcore.fit]
        simp only [newBlk] at hroom
        simp [newBlk,hroom]
      have hfrom : kmallocFrom pool.logged h₁ (roundSize size) =
          heapTake h₁ (newBlk a (heapPagesFor (roundSize size))).addr (roundSize size) := by
        unfold kmallocFrom
        rw [hfit]
      change Served pool owes h [] _ (kmallocFrom pool.logged h₁ (roundSize size))
      rw [hfrom]
      exact .grown a h' h₁ hx hrun hreg rfl hcore rfl rfl hx.bytes hx.blocks hroom

/-- What a served request leaves. -/
theorem Served.allocated {r : Option Nat × Heap (PageLog σ)} (hs : Served pool owes h bs size r)
    (hi : HeapInv owes h bs) (hmod : size%16 = 0) (hsize : size ≤ 2^32) :
    Allocated owes (bs.filter Blk.used) h size r := by
  cases hs with
  | refused s hr hpk how => exact ⟨bs,hi.withPool hr hpk how,rfl,rfl,rfl⟩
  | found l₁ l₂ b hbs hfree hroom =>
    subst hbs
    exact heapTake_spec hi.toHeapCore hfree hroom hmod hsize
      (fun hpeak => ⟨(hi.full hpeak).all,(hi.full hpeak).busy⟩) (fun _ _ => id)
  | grown a h' h₂ hx hrun hreg hnone hcore hpmm hgroups hbytes hblocks hroom =>
    have hnb : (newBlk a (heapPagesFor size)).used = false := rfl
    have hlay : Layout (bs++[newBlk a (heapPagesFor size)]) (h'.pmm.runs.map runSpan) := by
      rw [hx.runs]
      exact hi.layout.extend hx.ok hx.apart
    obtain ⟨-,hfree,⟨hlo,hhi⟩,-,-⟩ := coalesced_spec (layout_joins (h'.pmm.runs.map runSpan)) hnb hlay
    have hlist := (coalesced_spec
      (used_joins ((bs++[newBlk a (heapPagesFor size)]).filter Blk.used)) hnb rfl).1
    have hright : (coalesced bs (newBlk a (heapPagesFor size)) []).2.2 = [] := rfl
    rw [hright] at hlist
    have hfull : h₂.pmm.peak ≤ heapMaxGroups → (∀ r ∈ h₂.pmm.runs, r ∈ regs h₂.groups) ∧
        Scan (RunStart h₂.pmm.runs) (RunEnd h₂.pmm.runs) (UsedOr a.toNat) none
          ((coalesced bs (newBlk a (heapPagesFor size)) []).1++
            (coalesced bs (newBlk a (heapPagesFor size)) []).2.1::[]) := by
      rw [hpmm,hgroups]
      exact fun hpeak => ⟨hx.registered hi hpeak,(coalesced_spec (usedOr_joins _ _ a.toNat) hnb
        (hx.scan hi hpeak)).1⟩
    have htake := heapTake_spec hcore hfree hroom hmod hsize hfull (hcore.layout.used_of_usedOr
      ⟨hlo,lt_of_lt_of_le (newBlk a (heapPagesFor size)).span_pos hhi⟩)
    rw [hlist,List.filter_append,List.filter_cons_of_neg (by simp [hnb]),List.filter_nil,
      List.append_nil] at htake
    exact htake.since hbytes hblocks

/-- `kmalloc`. -/
theorem kmalloc_spec (hp : pool.Honest owes) (hi : HeapInv owes h bs) (hsize : size < 2^32) :
    Allocated owes (bs.filter Blk.used) h size (kmalloc pool.logged h size) := by
  obtain ⟨hmod,hle,hround⟩ := roundSize_spec hsize
  by_cases hzero : size = 0
  · rw [kmalloc,if_pos hzero]
    exact ⟨bs,hi,rfl,rfl,rfl⟩
  · exact ((kmalloc_served hp hi.toHeapCore hzero hsize).allocated hi hmod hround).shrink hle

end KiNBOL
