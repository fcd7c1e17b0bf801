import KiNBOL.Mm.PmmOps
import Mathlib.Logic.Function.Basic
import Mathlib.Algebra.Ring.Nat

namespace KiNBOL

/-- The calls through which the heap gets page runs and gives them back, on a state `σ`. -/
structure PagePool (σ : Type) where
  allocPage : σ → Option (BitVec 64) × σ
  allocPages : σ → Nat → Option (BitVec 64) × σ
  freePages : σ → BitVec 64 → Nat → σ

/-- The PMM itself. -/
def pmmPool : PagePool Pmm := ⟨pmmAllocPage,pmmAllocPagesContiguous,pmmFreePages⟩

/-- `block_t`. Pointers are written as offsets in the direct map, which is page aligned. -/
structure BlockHdr where
  size : Nat
  used : Bool
  magic : BitVec 32
  next : Option Nat
  prev : Option Nat

def blockSize : Nat := 32
def heapMagic : BitVec 32 := 0xDEADC0DE#32
def heapFreed : BitVec 32 := 0xFEEFEEFE#32
def heapMinSplit : Nat := blockSize+16
def heapMaxGroups : Nat := 1024

structure HeapGroup where
  inUse : Bool
  virtBase : Nat
  physBase : BitVec 64
  npages : Nat

/-- The headers in memory, the globals of `heap.c` and the PMM. -/
structure Heap (σ : Type) where
  hdr : Nat → BlockHdr
  freeList : Option Nat
  gPages : BitVec 32
  gUsedBytes : BitVec 32
  gUsedBlocks : BitVec 32
  groups : List HeapGroup
  pmm : σ

/-- The statics at boot. -/
def Heap.boot {σ : Type} (hdr : Nat → BlockHdr) (pmm : σ) : Heap σ :=
  ⟨hdr,none,0#32,0#32,0#32,List.replicate heapMaxGroups ⟨false,0,0#64,0⟩,pmm⟩

/-- More turns than a list of blocks in a 64-bit address space can have. -/
def listBound : Nat := 2^64+1

/-- Writing a header field through a pointer. -/
def setHdr (hdr : Nat → BlockHdr) (a : Nat) (f : BlockHdr → BlockHdr) : Nat → BlockHdr :=
  Function.update hdr a (f (hdr a))

/-- The same when the pointer is not NULL. -/
def setHdrIf (hdr : Nat → BlockHdr) (a : Option Nat) (f : BlockHdr → BlockHdr) :
    Nat → BlockHdr :=
  match a with
  | none => hdr
  | some a => setHdr hdr a f

/-- `heap_register_group`: the first unused entry, none when the table is full. -/
def heapRegisterGroup (g : HeapGroup) : List HeapGroup → List HeapGroup
  | [] => []
  | x::rest => if x.inUse then x::heapRegisterGroup g rest else g::rest

/-- An entry in use whose pages lie in `[start,stop)`. -/
def HeapGroup.within (g : HeapGroup) (start stop : Nat) : Bool :=
  g.inUse && decide (start ≤ g.virtBase) && decide (g.virtBase+g.npages*4096 ≤ stop)

/-- `blk->prev->next`, `blk->next->prev` around a block that leaves the list. -/
def heapUnlink (hdr : Nat → BlockHdr) (blk : Nat) : Nat → BlockHdr :=
  let hdr₁ := setHdrIf hdr (hdr blk).prev (fun p => { p with next := (hdr blk).next })
  setHdrIf hdr₁ (hdr₁ blk).next (fun n => { n with prev := (hdr₁ blk).prev })

section

variable {σ : Type} (pool : PagePool σ)

def heapTryReclaim (h : Heap σ) (blk : Nat) : Heap σ :=
  let stop := blk+blockSize+(h.hdr blk).size
  let idx := h.groups.filter (·.within blk stop)
  let covered := (idx.map (fun g => g.npages*4096)).sum
  if idx = [] ∨ covered ≠ stop-blk then h
  else
    { h with
      hdr := setHdr (heapUnlink h.hdr blk) blk (fun b => { b with magic := heapFreed })
      freeList := if h.freeList = some blk then (h.hdr blk).next else h.freeList
      pmm := idx.foldl (fun s g => pool.freePages s g.physBase g.npages) h.pmm
      gPages := idx.foldl (fun n g => n-BitVec.ofNat 32 g.npages) h.gPages
      groups := h.groups.map (fun g => if g.within blk stop then { g with inUse := false } else g) }

/-- Pages for a block with room for `minSize` bytes. -/
def heapPagesFor (minSize : Nat) : Nat :=
  let need := (minSize+blockSize)%2^64
  let pages := (need+4096-1)%2^64/4096
  if pages < 1 then 1 else pages

def heapNewBlock (h : Heap σ) (minSize : Nat) : Option Nat × Heap σ :=
  let pages := heapPagesFor minSize
  match (if pages = 1 then pool.allocPage h.pmm else pool.allocPages h.pmm pages) with
  | (none,s) => (none,{ h with pmm := s })
  | (some phys,s) =>
    let blk := phys.toNat
    (some blk,{ h with
      pmm := s
      gPages := h.gPages+BitVec.ofNat 32 pages
      hdr := Function.update h.hdr blk ⟨pages*4096-blockSize,false,heapMagic,none,none⟩
      groups := heapRegisterGroup ⟨true,blk,phys,pages%2^32⟩ h.groups })

def heapSplit (hdr : Nat → BlockHdr) (blk size : Nat) : Nat → BlockHdr :=
  if (hdr blk).size < (size+heapMinSplit)%2^64 then hdr
  else
    let split := blk+blockSize+size
    let hdr₁ := Function.update hdr split
      ⟨(hdr blk).size-size-blockSize,false,heapMagic,(hdr blk).next,some blk⟩
    let hdr₂ := setHdrIf hdr₁ (hdr₁ blk).next (fun n => { n with prev := some split })
    setHdr hdr₂ blk (fun b => { b with next := some split, size := size })

def heapAddrAdjacent (hdr : Nat → BlockHdr) (a b : Nat) : Bool :=
  decide (a+blockSize+(hdr a).size = b)

/-- The first loop of `heap_coalesce`. -/
def heapAbsorbNext (blk : Nat) : Nat → (Nat → BlockHdr) → Nat → BlockHdr
  | 0,hdr => hdr
  | fuel+1,hdr =>
    match (hdr blk).next with
    | none => hdr
    | some next =>
      if !(hdr next).used && heapAddrAdjacent hdr blk next then
        let hdr₁ := setHdr hdr blk (fun b =>
          { b with size := b.size+(blockSize+(hdr next).size), next := (hdr next).next })
        let hdr₂ := setHdrIf hdr₁ (hdr₁ next).next (fun n => { n with prev := some blk })
        heapAbsorbNext blk fuel (setHdr hdr₂ next (fun b => { b with magic := heapFreed }))
      else hdr

/-- The second loop: the block that is left, and the headers. -/
def heapAbsorbPrev : Nat → Nat → (Nat → BlockHdr) → Nat × (Nat → BlockHdr)
  | 0,blk,hdr => (blk,hdr)
  | fuel+1,blk,hdr =>
    match (hdr blk).prev with
    | none => (blk,hdr)
    | some prev =>
      if !(hdr prev).used && heapAddrAdjacent hdr prev blk then
        let hdr₁ := setHdr hdr prev (fun b =>
          { b with size := b.size+(blockSize+(hdr blk).size), next := (hdr blk).next })
        let hdr₂ := setHdrIf hdr₁ (hdr₁ blk).next (fun n => { n with prev := some prev })
        heapAbsorbPrev fuel prev (setHdr hdr₂ blk (fun b => { b with magic := heapFreed }))
      else (blk,hdr)

def heapCoalesce (hdr : Nat → BlockHdr) (blk : Nat) : Nat × (Nat → BlockHdr) :=
  heapAbsorbPrev listBound blk (heapAbsorbNext blk listBound hdr)

/-- `while (curr)`: the first free block with room for `size` bytes. -/
def heapFit (hdr : Nat → BlockHdr) (size : Nat) : Nat → Option Nat → Option Nat
  | 0,_ => none
  | _,none => none
  | fuel+1,some curr =>
    if !(hdr curr).used && decide (size ≤ (hdr curr).size) then some curr
    else heapFit hdr size fuel (hdr curr).next

/-- `while (tail->next)`. -/
def heapTail (hdr : Nat → BlockHdr) : Nat → Nat → Nat
  | 0,tail => tail
  | fuel+1,tail =>
    match (hdr tail).next with
    | none => tail
    | some next => heapTail hdr fuel next

/-- What `kmalloc` does with the block it found. -/
def heapTake (h : Heap σ) (curr size : Nat) : Option Nat × Heap σ :=
  let hdr₁ := heapSplit h.hdr curr size
  let hdr₂ := setHdr hdr₁ curr (fun b => { b with used := true })
  (some (curr+blockSize),{ h with
    hdr := hdr₂
    gUsedBytes := h.gUsedBytes+BitVec.ofNat 32 (hdr₂ curr).size
    gUsedBlocks := h.gUsedBlocks+1#32 })

/-- `kmalloc` after the list is known not to be empty. -/
def kmallocFrom (h : Heap σ) (size : Nat) : Option Nat × Heap σ :=
  match heapFit h.hdr size listBound h.freeList with
  | some curr => heapTake h curr size
  | none =>
    match heapNewBlock pool h size with
    | (none,h) => (none,h)
    | (some blk,h) =>
      match h.freeList with
      | none => (none,h)
      | some head =>
        let tail := heapTail h.hdr listBound head
        let hdr₁ := setHdr h.hdr tail (fun b => { b with next := some blk })
        let hdr₂ := setHdr hdr₁ blk (fun b => { b with prev := some tail })
        let h := { h with hdr := (heapCoalesce hdr₂ blk).2 }
        match heapFit h.hdr size listBound h.freeList with
        | some cur2 => heapTake h cur2 size
        | none => (none,h)

/-- `size` rounded up to 16. -/
def roundSize (size : Nat) : Nat := (size+15)%2^64/16*16

def kmalloc (h : Heap σ) (size : Nat) : Option Nat × Heap σ :=
  if size = 0 then (none,h)
  else
    match h.freeList with
    | some _ => kmallocFrom pool h (roundSize size)
    | none =>
      match heapNewBlock pool h (roundSize size) with
      | (none,h) => (none,h)
      | (some blk,h) => kmallocFrom pool { h with freeList := some blk } (roundSize size)

def kfree (h : Heap σ) (ptr : Option Nat) : Heap σ :=
  match ptr with
  | none => h
  | some ptr =>
    let blk := ptr-blockSize
    if (h.hdr blk).magic ≠ heapMagic then h
    else if !(h.hdr blk).used then h
    else
      let hdr₁ := setHdr h.hdr blk (fun b => { b with used := false })
      let size := (hdr₁ blk).size
      let r := heapCoalesce hdr₁ blk
      heapTryReclaim pool
        { h with
          gUsedBytes := if size ≤ h.gUsedBytes.toNat then h.gUsedBytes-BitVec.ofNat 32 size
            else h.gUsedBytes
          gUsedBlocks := if 0#32 < h.gUsedBlocks then h.gUsedBlocks-1#32 else h.gUsedBlocks
          hdr := r.2 } r.1

/-- `kcalloc`; the bytes it clears are payload. -/
def kcalloc (h : Heap σ) (num size : Nat) : Option Nat × Heap σ :=
  let total := num*size%2^64
  if num ≠ 0 ∧ total/num ≠ size then (none,h) else kmalloc pool h total

/-- `krealloc`; the bytes it copies are payload. -/
def krealloc (h : Heap σ) (ptr : Option Nat) (size : Nat) : Option Nat × Heap σ :=
  match ptr with
  | none => kmalloc pool h size
  | some p =>
    if size = 0 then (none,kfree pool h (some p))
    else if (h.hdr (p-blockSize)).magic ≠ heapMagic then (none,h)
    else if size ≤ (h.hdr (p-blockSize)).size then (some p,h)
    else
      match kmalloc pool h size with
      | (none,h) => (none,h)
      | (some q,h) => (some q,kfree pool h (some p))

end

/-- Blocks met from a pointer on, as `heap_get_stats` walks them. -/
def heapWalk (hdr : Nat → BlockHdr) : Nat → Option Nat → List Nat
  | 0,_ => []
  | _,none => []
  | fuel+1,some curr => curr::heapWalk hdr fuel (hdr curr).next

def Heap.blocks {σ : Type} (h : Heap σ) : List Nat := heapWalk h.hdr listBound h.freeList

end KiNBOL
