import KiNBOL.Mm.HeapAlloc
import Mathlib.Logic.Relation

namespace KiNBOL

/-- Blocks in use, and their payload bytes. -/
def Heap.usedBlocks {σ : Type} (h : Heap σ) : List Nat := h.blocks.filter (fun a => (h.hdr a).used)
def Heap.usedTotal {σ : Type} (h : Heap σ) : Nat :=
  (h.usedBlocks.map (fun a => (h.hdr a).size)).sum

/-- A call into the heap. -/
inductive HeapOp
  | kmalloc (size : Nat)
  | kcalloc (num size : Nat)
  | krealloc (ptr : Option Nat) (size : Nat)
  | kfree (ptr : Option Nat)

/-- What has happened to a heap so far: the most payload bytes and the most blocks that were in use
at once, and the bytes that `kfree` did not subtract from `g_used_bytes`. -/
structure HeapTally where
  peakUsed : Nat
  peakBlocks : Nat
  missed : Nat

def HeapTally.see {σ : Type} (t : HeapTally) (h : Heap σ) : HeapTally :=
  { t with peakUsed := max t.peakUsed h.usedTotal, peakBlocks := max t.peakBlocks h.usedBlocks.length }

def HeapTally.miss (t : HeapTally) (n : Nat) : HeapTally := { t with missed := t.missed+n }

/-- The heap, the pointers its clients hold, and what happened so far. -/
structure HeapRun (σ : Type) where
  heap : Heap (PageLog σ)
  live : List Nat
  tally : HeapTally

namespace HeapRun

variable {σ : Type}

/-- A pointer is given up. -/
def drop (live : List Nat) : Option Nat → List Nat
  | none => live
  | some p => live.erase p

/-- The heap inside `krealloc` when the old block and the new one are both in use. -/
def reallocMid (pool : PagePool σ) (h : Heap σ) (ptr : Option Nat) (size : Nat) : Heap σ :=
  match ptr with
  | none => h
  | some p =>
    if size = 0 then h
    else if (h.hdr (p-blockSize)).magic ≠ heapMagic then h
    else if size ≤ (h.hdr (p-blockSize)).size then h
    else (kmalloc pool h size).2

/-- The bytes that `kfree` leaves in `g_used_bytes`: those of a block larger than the counter. -/
def kfreeMisses (h : Heap σ) : Option Nat → Nat
  | none => 0
  | some p =>
    if (h.hdr (p-blockSize)).magic ≠ heapMagic then 0
    else if !(h.hdr (p-blockSize)).used then 0
    else if (h.hdr (p-blockSize)).size ≤ h.gUsedBytes.toNat then 0
    else (h.hdr (p-blockSize)).size

/-- The same for the `kfree` inside `krealloc`, when it comes to one. -/
def kreallocMisses (pool : PagePool σ) (h : Heap σ) (ptr : Option Nat) (size : Nat) : Nat :=
  match ptr with
  | none => 0
  | some p =>
    if size = 0 then kfreeMisses h ptr
    else if (h.hdr (p-blockSize)).magic ≠ heapMagic then 0
    else if size ≤ (h.hdr (p-blockSize)).size then 0
    else if (kmalloc pool h size).1 = none then 0
    else kfreeMisses (kmalloc pool h size).2 ptr

def step (pool : PagePool σ) (s : HeapRun σ) : HeapOp → HeapRun σ
  | .kmalloc size =>
    let r := KiNBOL.kmalloc pool.logged s.heap size
    ⟨r.2,r.1.toList++s.live,s.tally.see r.2⟩
  | .kcalloc num size =>
    let r := KiNBOL.kcalloc pool.logged s.heap num size
    ⟨r.2,r.1.toList++s.live,s.tally.see r.2⟩
  | .krealloc ptr size =>
    let mid := reallocMid pool.logged s.heap ptr size
    let r := KiNBOL.krealloc pool.logged s.heap ptr size
    let live := match r.1 with
      | none => if size = 0 then drop s.live ptr else s.live
      | some q => q::drop s.live ptr
    ⟨r.2,live,((s.tally.see mid).miss (kreallocMisses pool.logged s.heap ptr size)).see r.2⟩
  | .kfree ptr =>
    let h := KiNBOL.kfree pool.logged s.heap ptr
    ⟨h,drop s.live ptr,(s.tally.miss (kfreeMisses s.heap ptr)).see h⟩

/-- Requests below 4 GiB, and pointers that are NULL or held. A `kcalloc` whose product does not
fit 64 bits is a request too. -/
def Legal (s : HeapRun σ) : HeapOp → Prop
  | .kmalloc size => size < 2^32
  | .kcalloc num size => num*size < 2^32 ∨ 2^64 ≤ num*size
  | .krealloc ptr size => size < 2^32 ∧ ∀ p, ptr = some p → p ∈ s.live
  | .kfree ptr => ∀ p, ptr = some p → p ∈ s.live

def Step (pool : PagePool σ) (s s' : HeapRun σ) : Prop := ∃ op, s.Legal op ∧ s' = s.step pool op

/-- The heap at boot on a pool with nothing handed out. -/
def boot (hdr : Nat → BlockHdr) (pmm : σ) : HeapRun σ := ⟨Heap.boot hdr ⟨pmm,[],0⟩,[],⟨0,0,0⟩⟩

end HeapRun

variable {σ : Type} {owes : σ → List PageRun → Prop} {h h' : Heap (PageLog σ)}
  {bs us : List Blk} {b : Blk} {pool : PagePool σ} {size : Nat} {t t' : HeapTally}

theorem HeapCore.blocks (hc : HeapCore owes h bs) : h.blocks = bs.map Blk.addr := by
  rw [Heap.blocks,hc.head]
  exact heapWalk_shows (show Shows h.hdr ([]++bs) from hc.shows) hc.length_lt

theorem HeapCore.usedBlocks (hc : HeapCore owes h bs) :
    h.usedBlocks = (bs.filter Blk.used).map Blk.addr := by
  rw [Heap.usedBlocks,hc.blocks,List.filter_map]
  refine congrArg _ (List.filter_congr (fun b hb => ?_))
  exact (hc.shows.cells b hb).2.1

theorem HeapCore.usedTotal (hc : HeapCore owes h bs) :
    h.usedTotal = ((bs.filter Blk.used).map Blk.size).sum := by
  rw [Heap.usedTotal,hc.usedBlocks,List.map_map]
  refine congrArg _ (List.map_congr_left (fun b hb => ?_))
  exact (hc.shows.cells b (List.mem_of_mem_filter hb)).1

/-- The used blocks are `us` in some order. The counter of bytes also holds the bytes that were
missed; nothing is missed while less than 4 GiB are in use, and the counter of blocks counts them
while it does not overflow. -/
structure Tracked (owes : σ → List PageRun → Prop) (h : Heap (PageLog σ)) (us : List Blk)
    (t : HeapTally) : Prop where
  blocks : ∃ bs, HeapInv owes h bs ∧ (bs.filter Blk.used).Perm us
  sized : ∀ b ∈ us, 0 < b.size
  bytes : h.gUsedBytes = BitVec.ofNat 32 ((us.map Blk.size).sum+t.missed)
  counted : t.peakBlocks < 2^32 → h.gUsedBlocks = BitVec.ofNat 32 us.length
  small : t.peakUsed < 2^32 → t.missed = 0

/-- A later tally. -/
structure HeapTally.Grows (t t' : HeapTally) : Prop where
  used : t.peakUsed ≤ t'.peakUsed
  blocks : t.peakBlocks ≤ t'.peakBlocks
  missed : t'.missed = t.missed

theorem HeapTally.grows_see (t : HeapTally) (h : Heap (PageLog σ)) : t.Grows (t.see h) :=
  ⟨le_max_left _ _,le_max_left _ _,rfl⟩

theorem Tracked.mono (ht : Tracked owes h us t) (hg : t.Grows t') : Tracked owes h us t' :=
  ⟨ht.blocks,ht.sized,hg.missed ▸ ht.bytes,fun hlt => ht.counted (hg.blocks.trans_lt hlt),
    fun hlt => hg.missed.trans (ht.small (hg.used.trans_lt hlt))⟩

theorem Tracked.perm {us' : List Blk} (ht : Tracked owes h us t) (hp : us.Perm us') :
    Tracked owes h us' t := by
  obtain ⟨bs,hi,hbs⟩ := ht.blocks
  refine ⟨⟨bs,hi,hbs.trans hp⟩,fun b hb => ht.sized b (hp.mem_iff.mpr hb),?_,fun hlt => ?_,ht.small⟩
  · rw [← (hp.map Blk.size).sum_eq]
    exact ht.bytes
  · rw [← hp.length_eq]
    exact ht.counted hlt

theorem Tracked.total (ht : Tracked owes h us t) : h.usedTotal = (us.map Blk.size).sum := by
  obtain ⟨bs,hi,hp⟩ := ht.blocks
  rw [hi.toHeapCore.usedTotal]
  exact (hp.map Blk.size).sum_eq

theorem Tracked.count (ht : Tracked owes h us t) : h.usedBlocks.length = us.length := by
  obtain ⟨bs,hi,hp⟩ := ht.blocks
  rw [hi.toHeapCore.usedBlocks,List.length_map,hp.length_eq]

/-- `kmalloc` refuses, or hands out one more used block. -/
theorem Tracked.kmalloc (hp : pool.Honest owes) (ht : Tracked owes h us t) (hsize : size < 2^32) :
    ((KiNBOL.kmalloc pool.logged h size).1 = none ∧
      Tracked owes (KiNBOL.kmalloc pool.logged h size).2 us t) ∨
    ∃ b, (KiNBOL.kmalloc pool.logged h size).1 = some (b.addr+blockSize) ∧ size ≤ b.size ∧
      Tracked owes (KiNBOL.kmalloc pool.logged h size).2 (b::us) t := by
  by_cases hzero : size = 0
  · left
    have hres : KiNBOL.kmalloc pool.logged h size = (none,h) := by rw [KiNBOL.kmalloc,if_pos hzero]
    rw [hres]
    exact ⟨rfl,ht⟩
  · obtain ⟨bs,hi,hbs⟩ := ht.blocks
    obtain ⟨bs',hi',hcase⟩ := kmalloc_spec hp hi hsize
    generalize KiNBOL.kmalloc pool.logged h size = r at *
    cases hptr : r.1 with
    | none =>
      left
      rw [hptr] at hcase
      obtain ⟨h1,h2,h3⟩ := hcase
      exact ⟨rfl,⟨bs',hi',h1 ▸ hbs⟩,ht.sized,h2.trans ht.bytes,fun hlt => h3.trans (ht.counted hlt),
        ht.small⟩
    | some p =>
      right
      rw [hptr] at hcase
      obtain ⟨b,rfl,hroom,hperm,h2,h3⟩ := hcase
      refine ⟨b,rfl,hroom,⟨bs',hi',hperm.trans (hbs.cons b)⟩,fun c hc => ?_,?_,fun hlt => ?_,
        ht.small⟩
      · rcases List.mem_cons.mp hc with rfl | hc
        · omega
        · exact ht.sized c hc
      · rw [h2,ht.bytes,List.map_cons,List.sum_cons,← BitVec.ofNat_add]
        congr 1
        omega
      · rw [h3,ht.counted hlt,List.length_cons,BitVec.ofNat_add]

/-- `kcalloc` refuses or is a `kmalloc` of the product. -/
theorem kcalloc_cases (num size : Nat) (hl : num*size < 2^32 ∨ 2^64 ≤ num*size) :
    kcalloc pool.logged h num size = (none,h) ∨
    (num*size < 2^32 ∧ kcalloc pool.logged h num size = kmalloc pool.logged h (num*size)) := by
  unfold kcalloc
  by_cases hsmall : num*size < 2^32
  · right
    have hmod : num*size%2^64 = num*size := Nat.mod_eq_of_lt (by omega)
    simp only [hmod]
    refine ⟨hsmall,if_neg ?_⟩
    rintro ⟨hnum,hne⟩
    exact hne (Nat.mul_div_cancel_left size (Nat.pos_of_ne_zero hnum))
  · left
    have hbig : 2^64 ≤ num*size := hl.resolve_left hsmall
    have hlt : num*size%2^64 < num*size := (Nat.mod_lt _ (Nat.two_pow_pos 64)).trans_le hbig
    refine if_pos ⟨?_,?_⟩
    · rintro rfl
      simp at hbig
    · intro he
      have hmul := Nat.mul_div_le (num*size%2^64) num
      rw [he] at hmul
      omega

/-- The bytes missed by `kfree` of a used block. -/
theorem Tracked.misses (ht : Tracked owes h (b::us) t) :
    HeapRun.kfreeMisses h (some (b.addr+blockSize)) = if b.size ≤ h.gUsedBytes.toNat then 0 else b.size := by
  obtain ⟨bs,hi,hbs⟩ := ht.blocks
  have hmem := List.mem_filter.mp (hbs.mem_iff.mpr (List.mem_cons_self (a := b) (l := us)))
  obtain ⟨hsize,hused,hmagic⟩ := hi.shows.cells b hmem.1
  simp only [HeapRun.kfreeMisses,Nat.add_sub_cancel,hmagic,hused,hmem.2,hsize,ne_eq,
    not_true_eq_false,if_false,Bool.not_true,Bool.false_eq_true]

/-- `kfree` of a used block. -/
theorem Tracked.kfree (hp : pool.Honest owes) (ht : Tracked owes h (b::us) t)
    (hused : h.usedTotal ≤ t.peakUsed) (hcount : h.usedBlocks.length ≤ t.peakBlocks) :
    Tracked owes (KiNBOL.kfree pool.logged h (some (b.addr+blockSize))) us
      (t.miss (HeapRun.kfreeMisses h (some (b.addr+blockSize)))) := by
  have hmiss := ht.misses
  have hsum := ht.total
  have hlen := ht.count
  obtain ⟨bs,hi,hbs⟩ := ht.blocks
  have hmem := List.mem_filter.mp (hbs.mem_iff.mpr (List.mem_cons_self (a := b) (l := us)))
  obtain ⟨bs',hi',hperm,-,h1,h2⟩ := kfree_spec hp hi hmem.1 hmem.2
  have hbytes := ht.bytes
  rw [List.map_cons,List.sum_cons] at hbytes hsum
  rw [List.length_cons] at hlen
  generalize hrest : (us.map Blk.size).sum = rest at hbytes hsum
  refine ⟨⟨bs',hi',((hbs.symm.trans hperm).cons_inv).symm⟩,
    fun c hc => ht.sized c (List.mem_cons_of_mem _ hc),?_,fun hlt => ?_,fun hlt => ?_⟩
  · rw [h1,hmiss,freedBytes,hrest]
    show _ = BitVec.ofNat 32 (rest+(t.missed+_))
    split_ifs
    · rw [hbytes,show b.size+rest+t.missed = rest+t.missed+b.size by omega,BitVec.ofNat_add,
        Nat.add_zero]
      exact BitVec.add_sub_cancel _ _
    · rw [hbytes]
      congr 1
      omega
  · have hlt' : t.peakBlocks < 2^32 := hlt
    have hpos : 0#32 < BitVec.ofNat 32 (us.length+1) := by
      rw [BitVec.lt_def,BitVec.toNat_ofNat,BitVec.toNat_ofNat,Nat.mod_eq_of_lt (by omega)]
      omega
    rw [h2,ht.counted hlt',List.length_cons,freedBlocks,if_pos hpos,BitVec.ofNat_add]
    exact BitVec.add_sub_cancel _ _
  · -- below 4 GiB the counter is exact, so no block is larger
    have hlt' : t.peakUsed < 2^32 := hlt
    have hexact : h.gUsedBytes.toNat = b.size+rest := by
      rw [hbytes,ht.small hlt',BitVec.toNat_ofNat]
      exact Nat.mod_eq_of_lt (by omega)
    show t.missed+_ = 0
    rw [ht.small hlt',hmiss,if_pos (by omega)]

/-- What the clients of the heap see: the pointers they hold are the payloads of the used blocks. -/
structure HeapRun.Ok (owes : σ → List PageRun → Prop) (s : HeapRun σ) (us : List Blk) : Prop where
  tracked : Tracked owes s.heap us s.tally
  live : s.live.Perm (us.map (fun b => b.addr+blockSize))
  used : s.heap.usedTotal ≤ s.tally.peakUsed
  blocks : s.heap.usedBlocks.length ≤ s.tally.peakBlocks

/-- The block behind a held pointer. -/
theorem HeapRun.Ok.block {s : HeapRun σ} (ho : s.Ok owes us) {p : Nat} (hp : p ∈ s.live) :
    ∃ b us', p = b.addr+blockSize ∧ us.Perm (b::us') ∧
      (s.live.erase p).Perm (us'.map (fun b => b.addr+blockSize)) := by
  obtain ⟨b,hb,rfl⟩ := List.mem_map.mp (ho.live.mem_iff.mp hp)
  obtain ⟨l₁,l₂,rfl⟩ := List.append_of_mem hb
  refine ⟨b,l₁++l₂,rfl,List.perm_middle,?_⟩
  have herase := (ho.live.trans (List.perm_middle.map _)).erase (b.addr+blockSize)
  rw [List.map_cons,List.erase_cons_head] at herase
  exact herase

/-- Pointers come and go with their blocks. -/
theorem HeapRun.Ok.after {h : Heap (PageLog σ)} {live : List Nat} (ht : Tracked owes h us t)
    (hl : live.Perm (us.map (fun b => b.addr+blockSize))) :
    (⟨h,live,t.see h⟩ : HeapRun σ).Ok owes us :=
  ⟨ht.mono (t.grows_see h),hl,le_max_right _ _,le_max_right _ _⟩

theorem HeapRun.Ok.kmalloc (hp : pool.Honest owes) {s : HeapRun σ} (ho : s.Ok owes us)
    (hsize : size < 2^32) : ∃ us', (s.step pool (.kmalloc size)).Ok owes us' := by
  rcases ho.tracked.kmalloc hp hsize with ⟨hnone,ht⟩ | ⟨b,hsome,-,ht⟩
  · refine ⟨us,HeapRun.Ok.after ht ?_⟩
    rw [hnone]
    exact ho.live
  · refine ⟨b::us,HeapRun.Ok.after ht ?_⟩
    rw [hsome]
    exact ho.live.cons _

theorem HeapTally.miss_zero (t : HeapTally) : t.miss 0 = t := rfl

theorem HeapRun.Ok.kfree (hp : pool.Honest owes) {s : HeapRun σ} (ho : s.Ok owes us)
    {ptr : Option Nat} (hl : ∀ p, ptr = some p → p ∈ s.live) :
    ∃ us', (s.step pool (.kfree ptr)).Ok owes us' := by
  cases ptr with
  | none => exact ⟨us,HeapRun.Ok.after ho.tracked ho.live⟩
  | some p =>
    obtain ⟨b,us',rfl,hperm,herase⟩ := ho.block (hl p rfl)
    exact ⟨us',HeapRun.Ok.after ((ho.tracked.perm hperm).kfree hp ho.used ho.blocks) herase⟩

/-- `krealloc` of a held pointer: the block goes, stays, or makes room for a larger one. -/
theorem HeapRun.Ok.krealloc (hp : pool.Honest owes) {s : HeapRun σ} (ho : s.Ok owes us)
    {ptr : Option Nat} (hsize : size < 2^32) (hl : ∀ p, ptr = some p → p ∈ s.live) :
    ∃ us', (s.step pool (.krealloc ptr size)).Ok owes us' := by
  -- the tally at the `kfree`, if there is one
  let mid := HeapRun.reallocMid pool.logged s.heap ptr size
  have hgrow := s.tally.grows_see mid
  have htr : Tracked owes s.heap us (s.tally.see mid) := ho.tracked.mono hgrow
  cases ptr with
  | none =>
    rcases htr.kmalloc hp hsize with ⟨hnone,ht⟩ | ⟨b,hsome,-,ht⟩
    · refine ⟨us,HeapRun.Ok.after ht ?_⟩
      simp only [KiNBOL.krealloc,hnone]
      split_ifs <;> exact ho.live
    · refine ⟨b::us,HeapRun.Ok.after ht ?_⟩
      simp only [KiNBOL.krealloc,hsome]
      exact ho.live.cons _
  | some p =>
    obtain ⟨b,us',rfl,hperm,herase⟩ := ho.block (hl p rfl)
    have htr' := htr.perm hperm
    by_cases hzero : size = 0
    · have hres : KiNBOL.krealloc pool.logged s.heap (some (b.addr+blockSize)) size =
          (none,KiNBOL.kfree pool.logged s.heap (some (b.addr+blockSize))) := by
        simp only [KiNBOL.krealloc,if_pos hzero]
      have hmiss : HeapRun.kreallocMisses pool.logged s.heap (some (b.addr+blockSize)) size =
          HeapRun.kfreeMisses s.heap (some (b.addr+blockSize)) := by
        simp only [HeapRun.kreallocMisses,if_pos hzero]
      refine ⟨us',?_⟩
      rw [HeapRun.step,hres,hmiss]
      refine HeapRun.Ok.after (htr'.kfree hp (ho.used.trans hgrow.used)
        (ho.blocks.trans hgrow.blocks)) ?_
      rw [if_pos hzero]
      exact herase
    · -- the header of a held block is intact
      obtain ⟨bs,hi,hbs⟩ := htr'.blocks
      have hb := List.mem_filter.mp (hbs.mem_iff.mpr (List.mem_cons_self (a := b) (l := us')))
      obtain ⟨hcs,-,hmagic⟩ := hi.shows.cells b hb.1
      by_cases hroom : size ≤ b.size
      · have hres : KiNBOL.krealloc pool.logged s.heap (some (b.addr+blockSize)) size =
            (some (b.addr+blockSize),s.heap) := by
          simp only [KiNBOL.krealloc,if_neg hzero,Nat.add_sub_cancel,hmagic,hcs,if_pos hroom,ne_eq,
            not_true_eq_false,if_false]
        have hmiss : HeapRun.kreallocMisses pool.logged s.heap (some (b.addr+blockSize)) size = 0 := by
          simp only [HeapRun.kreallocMisses,if_neg hzero,Nat.add_sub_cancel,hmagic,hcs,if_pos hroom,
            ne_eq,not_true_eq_false,if_false]
        refine ⟨b::us',?_⟩
        rw [HeapRun.step,hres,hmiss]
        exact HeapRun.Ok.after htr' (herase.cons _)
      · have hmidval : mid = (KiNBOL.kmalloc pool.logged s.heap size).2 := by
          simp only [mid,HeapRun.reallocMid,if_neg hzero,Nat.add_sub_cancel,hmagic,hcs,if_neg hroom,
            ne_eq,not_true_eq_false,if_false]
        have hmiss : HeapRun.kreallocMisses pool.logged s.heap (some (b.addr+blockSize)) size =
            if (KiNBOL.kmalloc pool.logged s.heap size).1 = none then 0
            else HeapRun.kfreeMisses mid (some (b.addr+blockSize)) := by
          simp only [hmidval,HeapRun.kreallocMisses,if_neg hzero,Nat.add_sub_cancel,hmagic,hcs,
            if_neg hroom,ne_eq,not_true_eq_false,if_false]
        have hcase := htr'.kmalloc hp hsize
        rcases hk : KiNBOL.kmalloc pool.logged s.heap size with ⟨q,h⟩
        rw [hk] at hcase hmiss hmidval
        rcases hcase with ⟨rfl,ht⟩ | ⟨c,rfl,-,ht⟩
        · have hres : KiNBOL.krealloc pool.logged s.heap (some (b.addr+blockSize)) size =
              (none,h) := by
            simp only [KiNBOL.krealloc,if_neg hzero,Nat.add_sub_cancel,hmagic,hcs,if_neg hroom,
              ne_eq,not_true_eq_false,if_false,hk]
          refine ⟨b::us',?_⟩
          rw [HeapRun.step,hres,hmiss]
          simp only [if_neg hzero]
          exact HeapRun.Ok.after ht (ho.live.trans (hperm.map _))
        · have hres : KiNBOL.krealloc pool.logged s.heap (some (b.addr+blockSize)) size =
              (some (c.addr+blockSize),KiNBOL.kfree pool.logged h (some (b.addr+blockSize))) := by
            simp only [KiNBOL.krealloc,if_neg hzero,Nat.add_sub_cancel,hmagic,hcs,if_neg hroom,
              ne_eq,not_true_eq_false,if_false,hk]
          rw [if_neg (by simp),hmidval] at hmiss
          refine ⟨c::us',?_⟩
          rw [HeapRun.step,hres,hmiss]
          refine HeapRun.Ok.after ((ht.perm (List.Perm.swap _ _ _)).kfree hp ?_ ?_) (herase.cons _)
          · exact (congrArg Heap.usedTotal hmidval).ge.trans (le_max_right _ _)
          · exact (congrArg (fun h => h.usedBlocks.length) hmidval).ge.trans (le_max_right _ _)

theorem HeapRun.Ok.step (hp : pool.Honest owes) {s s' : HeapRun σ} (ho : s.Ok owes us)
    (hs : HeapRun.Step pool s s') : ∃ us', s'.Ok owes us' := by
  obtain ⟨op,hl,rfl⟩ := hs
  cases op with
  | kmalloc size => exact ho.kmalloc hp hl
  | kcalloc num size =>
    rcases kcalloc_cases (h := s.heap) num size hl with hno | ⟨hlt,hres⟩
    · refine ⟨us,?_⟩
      rw [HeapRun.step,hno]
      exact HeapRun.Ok.after ho.tracked ho.live
    · rw [HeapRun.step,hres]
      exact ho.kmalloc hp hlt
  | krealloc ptr size => exact ho.krealloc hp hl.1 hl.2
  | kfree ptr => exact ho.kfree hp hl

theorem HeapInv.boot (hdr : Nat → BlockHdr) {pmm : σ} (how : owes pmm []) :
    HeapInv owes (Heap.boot hdr ⟨pmm,[],0⟩) [] := by
  have hregs : regs (Heap.boot hdr (⟨pmm,[],0⟩ : PageLog σ)).groups = [] := by
    simp [regs,Heap.boot]
  refine ⟨⟨⟨trivial,List.nodup_nil,by simp⟩,rfl,⟨List.Pairwise.nil,fun x => Iff.rfl,by simp⟩,
    List.Pairwise.nil,fun r hr => absurd hr (by simp [Heap.boot]),?_,rfl,how,le_refl _⟩,
    fun _ => ⟨fun r hr => absurd hr (by simp [Heap.boot]),trivial⟩⟩
  refine ⟨List.length_replicate,fun g hg hu => ?_,?_,?_⟩
  · rw [List.eq_of_mem_replicate hg] at hu
    exact Bool.noConfusion hu
  · rw [hregs]
    exact List.nodup_nil
  · rw [hregs]
    simp

theorem HeapRun.Ok.boot (hdr : Nat → BlockHdr) {pmm : σ} (how : owes pmm []) :
    (HeapRun.boot hdr pmm).Ok owes [] := by
  have ht : Tracked owes (Heap.boot hdr ⟨pmm,[],0⟩) [] ⟨0,0,0⟩ :=
    ⟨⟨[],HeapInv.boot hdr how,List.Perm.refl _⟩,by simp,rfl,fun _ => rfl,fun _ => rfl⟩
  exact ⟨ht,List.Perm.refl _,ht.total.le,ht.count.le⟩

end KiNBOL
