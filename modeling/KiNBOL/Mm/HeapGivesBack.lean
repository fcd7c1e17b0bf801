import KiNBOL.Mm.HeapBatch
import KiNBOL.Mm.HeapSound

namespace KiNBOL

/-- Where the last block of the list ends. -/
def Heap.lastStop {σ : Type} (h : Heap σ) : Option Nat :=
  h.blocks.getLast?.map (fun a => a+blockSize+(h.hdr a).size)

/-- A block of the list ends at `seam`, the next one starts there, and both are free once `blk` is. -/
def Heap.JoinsAt {σ : Type} (h : Heap σ) (blk seam : Nat) : Prop :=
  ∃ x ∈ h.blocks, (h.hdr x).next = some seam ∧ heapAddrAdjacent h.hdr x seam = true ∧
    (x = blk ∨ (h.hdr x).used = false) ∧ (seam = blk ∨ (h.hdr seam).used = false)

/-- The last block of the list is free and ends at `seam`. -/
def Heap.EndsFree {σ : Type} (h : Heap σ) (seam : Nat) : Prop :=
  ∃ x, h.blocks.getLast? = some x ∧ (h.hdr x).used = false ∧ x+blockSize+(h.hdr x).size = seam

namespace HeapRun

/-- Another part of the kernel takes pages from the PMM or gives some back; those of the heap stay
marked. -/
def OtherStep (s s' : HeapRun Pmm) : Prop :=
  ∃ p : Pmm, p.OwesIn s.heap.pmm.runs ∧
    s' = { s with heap := { s.heap with pmm := { s.heap.pmm with pmm := p } } }

def SysStep (s s' : HeapRun Pmm) : Prop := Step pmmPool s s' ∨ OtherStep s s'

/-- Every run of pages of the heap has a used block in it. -/
def RunsMet (s : HeapRun Pmm) : Prop :=
  ∀ r ∈ s.heap.pmm.runs, ∃ a ∈ s.heap.usedBlocks, ∃ x,
    (s.heap.blockSpan a).Has x ∧ (runSpan r).Has x

/-- A call of a batch since `s₀`: a request, or a pointer of the batch is freed. -/
def BatchOp (s₀ s : HeapRun Pmm) : HeapOp → Prop
  | .kmalloc size => size < 2^32
  | .kfree (some p) => p ∈ s.live ∧ p ∉ s₀.live
  | _ => False

def BatchStep (s₀ s s' : HeapRun Pmm) : Prop :=
  ∃ op, BatchOp s₀ s op ∧ s' = s.step pmmPool op

/-- The call joins no free block of the pages held in `s₀` with one of later pages, the counter does
not skip a subtraction, and a new run finds an entry in the group table. -/
def Clear (s₀ s : HeapRun Pmm) : HeapOp → Prop
  | .kmalloc size => heapFit s.heap.hdr (roundSize size) listBound s.heap.freeList = none →
      (∃ g ∈ s.heap.groups, g.inUse = false) ∧
      ∀ seam, s₀.heap.lastStop = some seam → s.heap.EndsFree seam →
        ∀ a, (pmmPool.alloc s.heap.pmm.pmm (heapPagesFor (roundSize size))).1 = some a →
          a.toNat ≠ seam
  | .kfree (some p) => (s.heap.hdr (p-blockSize)).size ≤ s.heap.gUsedBytes.toNat ∧
      ∀ seam, s₀.heap.lastStop = some seam → ¬s.heap.JoinsAt (p-blockSize) seam
  | _ => True

def ClearStep (s₀ s s' : HeapRun Pmm) : Prop :=
  ∃ op, BatchOp s₀ s op ∧ Clear s₀ s op ∧ s' = s.step pmmPool op

end HeapRun

variable {σ : Type} {owes : σ → List PageRun → Prop} {h : Heap (PageLog σ)}
  {bs B N F K us : List Blk} {b : Blk} {old : List PageRun} {stop : Option Nat} {bytes : BitVec 32}

theorem HeapCore.lastStop (hc : HeapCore owes h bs) : h.lastStop = bs.getLast?.map Blk.stop := by
  rw [Heap.lastStop,hc.blocks,List.getLast?_map]
  cases hl : bs.getLast? with
  | none => rfl
  | some b =>
    simp only [Option.map_some,(hc.shows.cells b (List.mem_of_getLast? hl)).1]
    rfl

/-- An open seam shows in memory. -/
theorem HeapCore.joinsAt (hc : HeapCore owes h (B++N)) (hstop : B.getLast?.map Blk.stop = stop)
    (hs : SeamOpen B N b) : ∃ seam, stop = some seam ∧ h.JoinsAt b.addr seam := by
  obtain ⟨x,y,hx,hy,hadj,hxf,hyf⟩ := hs
  rw [hx,Option.map_some,hadj] at hstop
  refine ⟨y.addr,hstop.symm,x.addr,?_,?_,?_,?_,?_⟩
  · rw [hc.blocks]
    exact List.mem_map_of_mem (List.mem_append_left _ (List.mem_of_getLast? hx))
  · obtain ⟨l,rfl⟩ := List.getLast?_eq_some_iff.mp hx
    have hshow : Shows h.hdr (l++x::N) := by simpa using hc.shows
    rw [hshow.next,hy]
    rfl
  · have hcell := hc.shows.cells x (List.mem_append_left _ (List.mem_of_getLast? hx))
    rw [heapAddrAdjacent,hcell.1,decide_eq_true_eq]
    exact hadj
  · have hcell := hc.shows.cells x (List.mem_append_left _ (List.mem_of_getLast? hx))
    rw [hcell.2.1]
    exact hxf.imp (congrArg Blk.addr) id
  · have hcell := hc.shows.cells y (List.mem_append_right _ (List.mem_of_head? hy))
    rw [hcell.2.1]
    exact hyf.imp (congrArg Blk.addr) id

namespace HeapRun

/-- What holds while a batch comes and goes. -/
structure InBatch (s₀ : HeapRun Pmm) (total : BitVec 64) (K : List Blk) (s : HeapRun Pmm)
    (B N F : List Blk) : Prop where
  batch : Batch (Pmm.OwesAt total) IsUsed s₀.heap.pmm.runs K s₀.heap.lastStop s₀.heap.gUsedBytes
    s.heap B N F
  live : s.live.Perm (s₀.live++F.map (fun b => b.addr+blockSize))

variable {s₀ s s' : HeapRun Pmm} {total : BitVec 64}

/-- A request of the batch. -/
theorem InBatch.kmalloc (hb : InBatch s₀ total K s B N F) {size : Nat} (hsize : size < 2^32)
    (hclear : Clear s₀ s (.kmalloc size)) :
    ∃ B' N' F', InBatch s₀ total K (s.step pmmPool (.kmalloc size)) B' N' F' := by
  obtain ⟨hmod,-,hround⟩ := roundSize_spec hsize
  by_cases hzero : size = 0
  · have hres : KiNBOL.kmalloc pmmPool.logged s.heap size = (none,s.heap) := by
      rw [KiNBOL.kmalloc,if_pos hzero]
    refine ⟨B,N,F,?_,?_⟩
    · simp only [HeapRun.step,hres]
      exact hb.batch
    · simp only [HeapRun.step,hres]
      exact hb.live
  · have hc := hb.batch.core
    have hserved := kmalloc_served (pmmPool_honest_at total) hc hzero hsize
    rw [Clear,hc.fit,Option.map_eq_none_iff] at hclear
    obtain ⟨B',N',hcase⟩ := hserved.batch hb.batch hmod hround (fun hfull => (hclear hfull).1)
      (fun hfull hN a ha c hcl hcf hadj => by
        subst hN
        have hstop := hb.batch.last
        rw [hcl,Option.map_some] at hstop
        have hmem : c ∈ B++[] := by simp [List.mem_of_getLast? hcl]
        have hcell := hc.shows.cells c hmem
        refine (hclear hfull).2 _ hstop.symm ⟨c.addr,?_,?_,?_⟩ a ha hadj.symm
        · rw [hc.blocks,List.append_nil,List.getLast?_map,hcl]
          rfl
        · rw [hcell.2.1]
          exact hcf
        · rw [hcell.1]
          rfl)
    rcases hcase with ⟨hnone,hb'⟩ | ⟨b,hsome,hb'⟩
    · refine ⟨B',N',F,hb',?_⟩
      simp only [HeapRun.step,hnone]
      exact hb.live
    · refine ⟨B',N',b::F,hb',?_⟩
      simp only [HeapRun.step,hsome]
      exact (hb.live.cons _).trans List.perm_middle.symm

/-- A pointer of the batch is freed. -/
theorem InBatch.kfree (hb : InBatch s₀ total K s B N F) {p : Nat} (hp : p ∈ s.live)
    (hnew : p ∉ s₀.live) (hclear : Clear s₀ s (.kfree (some p))) :
    ∃ B' N' F', InBatch s₀ total K (s.step pmmPool (.kfree (some p))) B' N' F' := by
  have hmem := hb.live.mem_iff.mp hp
  obtain ⟨b,hbF,rfl⟩ := List.mem_map.mp ((List.mem_append.mp hmem).resolve_left hnew)
  obtain ⟨f₁,f₂,rfl⟩ := List.append_of_mem hbF
  have hc := hb.batch.core
  have hblk := List.mem_filter.mp (hb.batch.used.mem_iff.mpr (List.mem_append_right K hbF))
  obtain ⟨hcount,hseam⟩ := hclear
  rw [Nat.add_sub_cancel] at hcount hseam
  rw [(hc.shows.cells b hblk.1).1] at hcount
  have hopen : ¬SeamOpen B N b := by
    intro hs
    obtain ⟨seam,hstop,hj⟩ := hc.joinsAt hb.batch.last hs
    exact hseam seam hstop hj
  obtain ⟨B',N',hb'⟩ := hb.batch.kfree (pmmPool_honest_at total) List.perm_middle hcount hopen
  refine ⟨B',N',f₁++f₂,hb',?_⟩
  have hlive := (hb.live.trans ((List.perm_middle.map _).append_left s₀.live)).erase (b.addr+blockSize)
  rw [List.map_cons,List.erase_append_right _ hnew,List.erase_cons_head] at hlive
  exact hlive

theorem InBatch.step (hb : InBatch s₀ total K s B N F) (hs : ClearStep s₀ s s') :
    ∃ B' N' F', InBatch s₀ total K s' B' N' F' := by
  obtain ⟨op,hop,hclear,rfl⟩ := hs
  cases op with
  | kmalloc size => exact hb.kmalloc hop hclear
  | kcalloc num size => exact hop.elim
  | krealloc ptr size => exact hop.elim
  | kfree ptr =>
    cases ptr with
    | none => exact hop.elim
    | some p => exact hb.kfree hop.1 hop.2 hclear

/-- Every state of the system has a list of blocks behind it. -/
theorem Ok.sysStep (ho : s.Ok Pmm.OwesIn us) (hs : SysStep s s') : ∃ us', s'.Ok Pmm.OwesIn us' := by
  cases hs with
  | inl hcall => exact ho.step pmmPool_honest_in hcall
  | inr hother =>
    obtain ⟨p,hp,rfl⟩ := hother
    obtain ⟨bs,hi,hbs⟩ := ho.tracked.blocks
    have hi' := hi.withPool (s := { s.heap.pmm with pmm := p }) rfl rfl hp
    have ht : Tracked Pmm.OwesIn { s.heap with pmm := { s.heap.pmm with pmm := p } } us
        s.tally := { ho.tracked with blocks := ⟨bs,hi',hbs⟩ }
    exact ⟨us,ht,ho.live,ht.total.le.trans (ho.tracked.total.symm.le.trans ho.used),
      ht.count.le.trans (ho.tracked.count.symm.le.trans ho.blocks)⟩

/-- The batch at its start. -/
theorem Ok.inBatch (ho : s.Ok Pmm.OwesIn us) (hmet : s.RunsMet) : ∃ K B,
    InBatch s (s.heap.pmm.pmm.freePages+BitVec.ofNat 64 (s.heap.pmm.runs.map Prod.snd).sum) K s B []
      [] := by
  obtain ⟨bs,hi,-⟩ := ho.tracked.blocks
  have hc := hi.toHeapCore
  have hnone : newRuns s.heap.pmm.runs s.heap.pmm.runs = [] := by
    rw [newRuns,List.filter_eq_nil_iff]
    simp
  refine ⟨bs.filter Blk.used,bs,⟨?_,fun _ => id,hc.layout,by simp,?_,hc.lastStop.symm,?_,?_,?_,by simp⟩,
    by simp⟩
  · rw [List.append_nil]
    exact { hc with owed := { hc.owed with balance := rfl } }
  · exact fun k hk => List.mem_of_mem_filter hk
  · intro r hr
    obtain ⟨a,ha,x,hax,hrx⟩ := hmet r hr
    rw [hc.usedBlocks] at ha
    obtain ⟨k,hk,rfl⟩ := List.mem_map.mp ha
    refine ⟨k,hk,x,?_,hrx⟩
    rw [Heap.blockSpan,(hc.shows.cells k (List.mem_of_mem_filter hk)).1] at hax
    exact hax
  · rw [hnone]
    simp
  · trivial

/-- A batch of which nothing is left has given all pages back, and its bytes are counted off. -/
theorem InBatch.done (hb : InBatch s₀ total K s B N F)
    (htotal : total = s₀.heap.pmm.pmm.freePages+
      BitVec.ofNat 64 (s₀.heap.pmm.runs.map Prod.snd).sum)
    (hnd : s₀.heap.pmm.runs.Nodup) (hlive : s.live.Perm s₀.live) :
    s.heap.pmm.pmm.freePages = s₀.heap.pmm.pmm.freePages ∧
      s.heap.gUsedBytes = s₀.heap.gUsedBytes := by
  have hnil : F = [] := by
    have hlen := (hlive.symm.trans hb.live).length_eq
    rw [List.length_append,List.length_map] at hlen
    exact List.eq_nil_of_length_eq_zero (by omega)
  subst hnil
  have hbatch := hb.batch
  have hperm : s.heap.pmm.runs.Perm s₀.heap.pmm.runs := by
    refine (List.perm_ext_iff_of_nodup hbatch.core.nodup hnd).mpr (fun r => ?_)
    exact ⟨hbatch.done r,hbatch.kept r⟩
  constructor
  · have hbal := hbatch.core.owed.balance
    rw [htotal,(hperm.map Prod.snd).sum_eq] at hbal
    exact (BitVec.add_left_inj _).mp hbal
  · rw [hbatch.bytes]
    simp

/-- Blocks that are got and freed again since a reachable state leave the free pages and the bytes in
use as they were, when every step is clear and no run of that state was without a used block. -/
theorem heap_gives_back (hdr : Nat → BlockHdr) (p₀ : Pmm) (h₀ : p₀.OwesIn []) (s₀ s : HeapRun Pmm)
    (hreach : Relation.ReflTransGen SysStep (boot hdr p₀) s₀) (hmet : s₀.RunsMet)
    (hrun : Relation.ReflTransGen (ClearStep s₀) s₀ s) (hlive : s.live.Perm s₀.live) :
    s.heap.pmm.pmm.freePages = s₀.heap.pmm.pmm.freePages ∧
      s.heap.gUsedBytes = s₀.heap.gUsedBytes := by
  obtain ⟨us,ho⟩ : ∃ us, s₀.Ok Pmm.OwesIn us :=
    @reach_invariant _ _ (fun s => ∃ us, HeapRun.Ok Pmm.OwesIn s us) _ _
      ⟨[],HeapRun.Ok.boot hdr h₀⟩ (fun a b ⟨us,ho⟩ hab => ho.sysStep hab) hreach
  obtain ⟨K,B₀,hstart⟩ := ho.inBatch hmet
  obtain ⟨B,N,F,hb⟩ : ∃ B N F, InBatch s₀ (s₀.heap.pmm.pmm.freePages+
      BitVec.ofNat 64 (s₀.heap.pmm.runs.map Prod.snd).sum) K s B N F :=
    @reach_invariant _ _ (fun s => ∃ B N F, InBatch s₀ _ K s B N F) _ _
      ⟨B₀,[],[],hstart⟩ (fun a b ⟨B,N,F,hb⟩ hab => hb.step hab) hrun
  obtain ⟨bs,hi,-⟩ := ho.tracked.blocks
  exact hb.done rfl hi.toHeapCore.nodup hlive

/-- One block of a page is in use. -/
def onePage : HeapRun Pmm := (boot (fun _ => ⟨0,false,0#32,none,none⟩) smallPmm).step pmmPool (.kmalloc 100)

theorem smallPmm_owesIn : smallPmm.OwesIn [] := ⟨smallPmm_owes,by simp⟩

/-- Both blocks of a page are in use; a batch gets two blocks of the two pages behind and frees them. -/
def fullPage : HeapRun Pmm := onePage.step pmmPool (.kmalloc 3920)
def batchLarge : HeapRun Pmm := fullPage.step pmmPool (.kmalloc 5000)
def batchBoth : HeapRun Pmm := batchLarge.step pmmPool (.kmalloc 200)
def batchSmall : HeapRun Pmm := batchBoth.step pmmPool (.kfree (some 0x101020))
def batchGone : HeapRun Pmm := batchSmall.step pmmPool (.kfree (some 0x1023D0))

theorem fullPage_seam : fullPage.heap.lastStop = some 0x101000 := by decide

/-- The seam behind the full page stays shut: the block in front of it is in use. -/
theorem fullPage_shut {h : Heap (PageLog Pmm)} {blk seam : Nat} (hs : fullPage.heap.lastStop = some seam)
    (hnext : ∀ x ∈ h.blocks, (h.hdr x).next = some 0x101000 → x = 0x100090)
    (hused : (h.hdr 0x100090).used = true) (hblk : blk ≠ 0x100090) : ¬h.JoinsAt blk seam := by
  rw [fullPage_seam,Option.some.injEq] at hs
  subst hs
  rintro ⟨x,hx,hn,-,hfree,-⟩
  obtain rfl := hnext x hx hn
  rcases hfree with he | hf
  · exact hblk he.symm
  · rw [hused] at hf
    exact Bool.noConfusion hf

theorem batch_clear : ClearStep fullPage fullPage batchLarge ∧ ClearStep fullPage batchLarge batchBoth ∧
    ClearStep fullPage batchBoth batchSmall ∧ ClearStep fullPage batchSmall batchGone := by
  refine ⟨?_,?_,?_,?_⟩
  · refine ⟨.kmalloc 5000,(by decide : 5000 < 2^32),fun _ => ⟨by decide,?_⟩,rfl⟩
    rintro seam - ⟨x,hx,hfree,-⟩
    have hlast : fullPage.heap.blocks.getLast? = some 0x100090 := by decide
    have hused : (fullPage.heap.hdr 0x100090).used = true := by decide
    rw [hlast,Option.some.injEq] at hx
    rw [← hx,hused] at hfree
    exact Bool.noConfusion hfree
  · refine ⟨.kmalloc 200,(by decide : 200 < 2^32),fun hfull => ?_,rfl⟩
    have hfit : heapFit batchLarge.heap.hdr (roundSize 200) listBound batchLarge.heap.freeList ≠ none := by
      decide
    exact absurd hfull hfit
  · refine ⟨.kfree (some 0x101020),⟨by decide,by decide⟩,⟨by decide,?_⟩,rfl⟩
    exact fun seam hs => fullPage_shut hs (by decide) (by decide) (by decide)
  · refine ⟨.kfree (some 0x1023D0),⟨by decide +kernel,by decide +kernel⟩,⟨by decide +kernel,?_⟩,rfl⟩
    exact fun seam hs => fullPage_shut hs (by decide +kernel) (by decide +kernel) (by decide)

theorem heap_gives_back_sample :
    batchBoth.heap.pmm.pmm.freePages = 13#64 ∧ batchGone.heap.pmm.pmm.freePages = 15#64 ∧
      batchGone.heap.gUsedBytes = 4032#32 := by
  obtain ⟨h1,h2,h3,h4⟩ := batch_clear
  have hback := heap_gives_back (fun _ => ⟨0,false,0#32,none,none⟩) smallPmm smallPmm_owesIn fullPage
    batchGone (.tail (.single (Or.inl ⟨.kmalloc 100,(by decide : 100 < 2^32),rfl⟩))
      (Or.inl ⟨.kmalloc 3920,(by decide : 3920 < 2^32),rfl⟩)) ?_
    (((Relation.ReflTransGen.single h1).tail h2).tail h3 |>.tail h4) ?_
  · have hpages : fullPage.heap.pmm.pmm.freePages = 15#64 := by decide
    have hbytes : fullPage.heap.gUsedBytes = 4032#32 := by decide
    exact ⟨by decide,hback.1.trans hpages,hback.2.trans hbytes⟩
  · intro r hr
    have hruns : fullPage.heap.pmm.runs = [(0x100000#64,1)] := by decide
    rw [hruns,List.mem_singleton] at hr
    subst hr
    refine ⟨0x100000,by decide,0x100000,⟨le_refl _,?_⟩,by unfold Span.Has; decide⟩
    show 0x100000 < 0x100000+32+(fullPage.heap.hdr 0x100000).size
    omega
  · have hl : batchGone.live = fullPage.live := by decide
    rw [hl]

/-- Two pages are got for a block behind the free end of the first page, and the block is freed. -/
def twoPages : HeapRun Pmm := onePage.step pmmPool (.kmalloc 5000)
def twoPagesFreed : HeapRun Pmm := twoPages.step pmmPool (.kfree (some 0x1000B0))

/-- The block that is left reaches into the first page, which is in use: no page is given back. -/
theorem heap_keeps_pages : Relation.ReflTransGen SysStep
      (boot (fun _ => ⟨0,false,0#32,none,none⟩) smallPmm) onePage ∧
    Relation.ReflTransGen (BatchStep onePage) onePage twoPagesFreed ∧
    twoPages.live = 0x1000B0::onePage.live ∧ twoPagesFreed.live = onePage.live ∧
    onePage.heap.pmm.pmm.freePages = 15#64 ∧ twoPagesFreed.heap.pmm.pmm.freePages = 13#64 := by
  refine ⟨.single (Or.inl ⟨.kmalloc 100,(by decide : 100 < 2^32),rfl⟩),?_,?_,?_,?_,?_⟩
  · refine .tail (.single ⟨.kmalloc 5000,(by decide : 5000 < 2^32),rfl⟩)
      ⟨.kfree (some 0x1000B0),⟨?_,?_⟩,rfl⟩
    · decide
    · decide
  · decide
  · decide
  · decide
  · decide +kernel

end HeapRun

end KiNBOL
