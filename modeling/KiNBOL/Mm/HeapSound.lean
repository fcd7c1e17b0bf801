import KiNBOL.Mm.HeapRun
import KiNBOL.Mm.PmmPool

namespace KiNBOL

variable {σ : Type} {owes : σ → List PageRun → Prop} {h : Heap (PageLog σ)} {bs us : List Blk}

/-- Header and payload of a block in memory, and the payload behind a pointer. -/
def Heap.blockSpan (h : Heap (PageLog σ)) (a : Nat) : Span := ⟨a,a+blockSize+(h.hdr a).size⟩
def Heap.payloadSpan (h : Heap (PageLog σ)) (p : Nat) : Span :=
  ⟨p,p+(h.hdr (p-blockSize)).size⟩

/-- The structure of the heap, read off the memory and the runs the pool has not got back.
`g_used_bytes` also holds the bytes that `kfree` missed. -/
structure HeapRun.Sound (owes : σ → List PageRun → Prop) (s : HeapRun σ) : Prop where
  head : s.heap.freeList = s.heap.blocks.head?
  links : Linked (fun a => (s.heap.hdr a).next) (fun a => (s.heap.hdr a).prev) none
    s.heap.blocks none
  nodup : s.heap.blocks.Nodup
  blocksApart : SpansApart (s.heap.blocks.map s.heap.blockSpan)
  runsApart : SpansApart (s.heap.pmm.runs.map runSpan)
  tile : ∀ x, Covers (s.heap.blocks.map s.heap.blockSpan) x ↔
    Covers (s.heap.pmm.runs.map runSpan) x
  pages : s.heap.gPages = BitVec.ofNat 32 (s.heap.pmm.runs.map Prod.snd).sum
  aligned : ∀ a ∈ s.heap.blocks, (a+blockSize)%16 = 0
  live : s.live.Perm (s.heap.usedBlocks.map (fun a => a+blockSize))
  payloads : SpansApart (s.live.map s.heap.payloadSpan)
  usedBlocks : s.tally.peakBlocks < 2^32 → s.heap.gUsedBlocks.toNat = s.heap.usedBlocks.length
  usedBytes : s.heap.gUsedBytes = BitVec.ofNat 32 (s.heap.usedTotal+s.tally.missed)
  missed : s.tally.peakUsed < 2^32 → s.tally.missed = 0
  owed : owes s.heap.pmm.pmm s.heap.pmm.runs
  empty : s.heap.pmm.peak ≤ heapMaxGroups → s.live = [] →
    s.heap.freeList = none ∧ s.heap.gPages = 0#32 ∧ s.heap.pmm.runs = []

theorem HeapCore.spans (hc : HeapCore owes h bs) : h.blocks.map h.blockSpan = bs.map Blk.span := by
  rw [hc.blocks,List.map_map]
  refine List.map_congr_left (fun b hb => ?_)
  show (⟨b.addr,b.addr+blockSize+(h.hdr b.addr).size⟩ : Span) = b.span
  rw [(hc.shows.cells b hb).1]
  rfl

/-- Payloads of used blocks do not overlap. -/
theorem HeapCore.payloads (hc : HeapCore owes h bs) :
    SpansApart (((bs.filter Blk.used).map (fun b => b.addr+blockSize)).map h.payloadSpan) := by
  rw [List.map_map]
  refine List.pairwise_map.mpr ?_
  have hp := (List.pairwise_map.mp hc.layout.apart).sublist (List.filter_sublist (p := Blk.used))
  refine hp.imp_of_mem (fun {b c} hb hc' hap => ?_)
  have hval : ∀ d ∈ bs.filter Blk.used, h.payloadSpan (d.addr+blockSize) =
      ⟨d.addr+blockSize,d.stop⟩ := by
    intro d hd
    rw [Heap.payloadSpan,Nat.add_sub_cancel,
      (hc.shows.cells d (List.mem_of_mem_filter hd)).1]
    rfl
  simp only [Function.comp]
  rw [hval b hb,hval c hc']
  simp only [Span.Apart,Blk.span] at hap ⊢
  omega

/-- Without used blocks nothing is left. -/
theorem HeapInv.empty (hi : HeapInv owes h bs) (hpeak : h.pmm.peak ≤ heapMaxGroups)
    (hno : bs.filter Blk.used = []) :
    h.freeList = none ∧ h.gPages = 0#32 ∧ h.pmm.runs = [] := by
  have hnil : bs = [] := (hi.full hpeak).busy.empty (fun b hb hu => by
    have hmem := List.mem_filter.mpr ⟨hb,hu⟩
    rw [hno] at hmem
    exact absurd hmem List.not_mem_nil)
  subst hnil
  have hruns : h.pmm.runs = [] := by
    refine List.eq_nil_iff_forall_not_mem.mpr (fun r hr => ?_)
    obtain ⟨s,hs,-⟩ := (hi.layout.cover (runSpan r).lo).mpr
      ⟨_,List.mem_map_of_mem hr,le_refl _,runSpan_pos (hi.runs r hr)⟩
    simp at hs
  refine ⟨hi.head,?_,hruns⟩
  rw [hi.pages,hruns]
  rfl

theorem HeapRun.Ok.sound {s : HeapRun σ} (ho : s.Ok owes us) : s.Sound owes := by
  obtain ⟨bs,hi,hbs⟩ := ho.tracked.blocks
  have hc := hi.toHeapCore
  refine ⟨?_,?_,?_,?_,hc.apart,?_,hc.pages,?_,?_,?_,?_,?_,ho.tracked.small,hc.owed,?_⟩
  · rw [hc.blocks,hc.head,List.head?_map]
  · rw [hc.blocks]
    exact hc.shows.links
  · rw [hc.blocks]
    exact hc.shows.nodup
  · rw [hc.spans]
    exact hc.layout.apart
  · rw [hc.spans]
    exact hc.layout.cover
  · intro a ha
    rw [hc.blocks] at ha
    obtain ⟨b,hb,rfl⟩ := List.mem_map.mp ha
    have := (hc.layout.aligned b hb).1
    simp only [blockSize]
    omega
  · rw [hc.usedBlocks,List.map_map]
    exact ho.live.trans (hbs.symm.map _)
  · have hsym : ∀ {x y : Span}, x.Apart y → y.Apart x := fun hxy => hxy.symm
    exact (((ho.live.trans (hbs.symm.map _)).map s.heap.payloadSpan).pairwise_iff hsym).mpr
      hc.payloads
  · intro hlt
    have hle := ho.blocks
    rw [ho.tracked.count] at hle ⊢
    rw [ho.tracked.counted hlt,BitVec.toNat_ofNat]
    exact Nat.mod_eq_of_lt (by omega)
  · rw [ho.tracked.total]
    exact ho.tracked.bytes
  · intro hpeak hlive
    refine hi.empty hpeak ?_
    have hnil := hlive ▸ ho.live
    have hus : us = [] := List.map_eq_nil_iff.mp hnil.nil_eq.symm
    exact (hus ▸ hbs).eq_nil

open HeapRun in
/-- The heap over every run of calls, on every pool that hands out runs apart from those still
out, or none. -/
theorem heap_run_sound (pool : PagePool σ) (owes : σ → List PageRun → Prop)
    (hp : pool.Honest owes) (hdr : Nat → BlockHdr) (pmm : σ) (how : owes pmm []) :
    ∀ s, Relation.ReflTransGen (Step pool) (boot hdr pmm) s → s.Sound owes := by
  intro s hs
  obtain ⟨us,ho⟩ := @reach_invariant _ _ (fun s => ∃ us, HeapRun.Ok owes s us) _ _
    ⟨[],HeapRun.Ok.boot hdr how⟩ (fun a b ⟨us,ho⟩ hab => ho.step hp hab) hs
  exact ho.sound

/-- Sixteen free pages from 1 MiB on. -/
def smallPmm : Pmm := ⟨fun i => if i < 32 then 0xFF#8 else 0#8,272,16#64,0x110000#64⟩

theorem smallPmm_owes : smallPmm.Owes [] :=
  ⟨by decide,by simp,List.Pairwise.nil,by simp⟩

/-- A pool that never hands out a page twice; its state is the next page. -/
def bumpPool : PagePool Nat where
  allocPage := fun s => if s+1 ≤ pageLimit then (some (pageAddr s),s+1) else (none,s)
  allocPages := fun s n => if s+n ≤ pageLimit then (some (pageAddr s),s+n) else (none,s)
  freePages := fun s _ _ => s

def bumpOwes (s : Nat) (rs : List PageRun) : Prop := ∀ r ∈ rs, (runSpan r).hi ≤ s*4096

theorem bumpPool_alloc (s n : Nat) : bumpPool.alloc s n =
    if s+n ≤ pageLimit then (some (pageAddr s),s+n) else (none,s) := by
  unfold PagePool.alloc
  split_ifs with h1 h2 h2
  · subst h1
    exact if_pos h2
  · subst h1
    exact if_neg h2
  · exact if_pos h2
  · exact if_neg h2

theorem bumpPool_honest : bumpPool.Honest bumpOwes := by
  refine ⟨fun s rs n a s' how hn hres => ?_,fun s rs n s' how hres => ?_,fun s rs r how hr => ?_⟩
  · rw [bumpPool_alloc] at hres
    split_ifs at hres with hfit
    · obtain ⟨h1,rfl⟩ := Prod.mk.inj hres
      obtain rfl := Option.some.inj h1
      have hval : (pageAddr s).toNat = s*4096 := by
        rw [pageAddr,BitVec.toNat_ofNat]
        simp only [pageLimit] at hfit
        omega
      simp only [pageLimit] at hfit
      refine ⟨by omega,?_,fun r hr => Or.inr ?_,fun r hr => ?_⟩
      · simp only [runSpan,hval]
        omega
      · show (runSpan r).hi ≤ (pageAddr s).toNat
        rw [hval]
        exact how r hr
      · rcases List.mem_cons.mp hr with rfl | hr
        · simp only [runSpan,hval]
          omega
        · exact (how r hr).trans (Nat.mul_le_mul_right _ (Nat.le_add_right s n))
    · simp at hres
  · rw [bumpPool_alloc] at hres
    split_ifs at hres
    · simp at hres
    · obtain ⟨-,rfl⟩ := Prod.mk.inj hres
      exact how
  · exact fun t ht => how t (List.mem_of_mem_erase ht)

open HeapRun in
/-- A large block, a small one behind it, and the large one freed again. -/
def miscountRun : HeapRun Nat :=
  (((boot (fun _ => ⟨0,false,0#32,none,none⟩) 256).step bumpPool (.kmalloc 0xFFFFFFF0)).step bumpPool
    (.kmalloc 32)).step bumpPool (.kfree (some 0x100020))

theorem miscountRun_steps : Relation.ReflTransGen (HeapRun.Step bumpPool)
    (HeapRun.boot (fun _ => ⟨0,false,0#32,none,none⟩) 256) miscountRun :=
  ((Relation.ReflTransGen.refl.tail ⟨.kmalloc 0xFFFFFFF0,(by decide : 0xFFFFFFF0 < 2^32),rfl⟩).tail
    ⟨.kmalloc 32,(by decide : 32 < 2^32),rfl⟩).tail ⟨.kfree (some 0x100020),by
      rintro p hp
      obtain rfl := Option.some.inj hp
      decide,rfl⟩

theorem heap_run_sound_sample : miscountRun.Sound bumpOwes ∧ miscountRun.tally.missed = 0xFFFFFFF0 :=
  ⟨heap_run_sound bumpPool bumpOwes bumpPool_honest _ 256 (by simp [bumpOwes]) _ miscountRun_steps,
    by decide⟩

/-- The guard `g_used_bytes >= blk->size` skips the subtraction once the counter has wrapped: with
32 bytes in use it shows 16. -/
theorem heap_bytes_miscounted : ∃ s, Relation.ReflTransGen (HeapRun.Step bumpPool)
    (HeapRun.boot (fun _ => ⟨0,false,0#32,none,none⟩) 256) s ∧ bumpPool.Honest bumpOwes ∧
    s.heap.gUsedBytes = 16#32 ∧ s.heap.usedTotal = 32 ∧
    s.heap.gUsedBytes ≠ BitVec.ofNat 32 s.heap.usedTotal := by
  have h1 : miscountRun.heap.gUsedBytes = 16#32 := by decide +kernel
  have h2 : miscountRun.heap.usedTotal = 32 := by decide +kernel
  refine ⟨miscountRun,miscountRun_steps,bumpPool_honest,h1,h2,?_⟩
  rw [h1,h2]
  decide

end KiNBOL
