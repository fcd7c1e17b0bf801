import KiNBOL.Framework.RadixForest
import KiNBOL.Mm.Pte
import KiNBOL.Mm.PmmOps

namespace KiNBOL

/-- Physical memory as the kernel sees it through the direct map: 512 words a page. -/
abbrev PhysMem := Nat → Fin 512 → BitVec 64

/-- A `pagemap_t`: the page of a PML4, or NULL. -/
abbrev Pagemap := Option Nat

structure Machine where
  mem : PhysMem
  pmm : Pmm
  cr3 : Nat

/-- `memset` of a whole page to zero. -/
def zeroPage (mem : PhysMem) (page : Nat) : PhysMem :=
  fun n i => if n = page then 0#64 else mem n i

def allocTable (m : Machine) : Option (BitVec 64) × Machine :=
  match pmmAllocPage m.pmm with
  | (none,pmm) => (none,{ m with pmm := pmm })
  | (some phys,pmm) => (some phys,{ m with pmm := pmm, mem := zeroPage m.mem (pageOf phys) })

/-- `get_or_create` on entry `i` of table `tbl`: the physical address of the next table. -/
def getOrCreate (m : Machine) (tbl : Nat) (i : Fin 512) : Option (BitVec 64) × Machine :=
  if has (m.mem tbl i) vmmPresent then (some (m.mem tbl i &&& pageMask),m)
  else
    match allocTable m with
    | (none,m) => (none,m)
    | (some phys,m) => (some phys,{ m with mem := setSlot m.mem tbl i (tableEntry phys) })

def vmmMap (m : Machine) (pm : Pagemap) (virt phys flags : BitVec 64) : Int × Machine :=
  match pm with
  | none => (-1,m)
  | some pml4 =>
    match getOrCreate m pml4 (pml4Idx virt) with
    | (none,m) => (-1,m)
    | (some pdpt,m) =>
      match getOrCreate m (pageOf pdpt) (pdptIdx virt) with
      | (none,m) => (-1,m)
      | (some pd,m) =>
        match getOrCreate m (pageOf pd) (pdIdx virt) with
        | (none,m) => (-1,m)
        | (some pt,m) =>
          (0,{ m with mem := setSlot m.mem (pageOf pt) (ptIdx virt) (leafEntry phys flags) })

/-- The three-level descent that `vmm_unmap`, `vmm_virt_to_phys`, `vmm_protect`,
`vmm_unmap_range` and `vmm_check_user_range` share: the page-table slot of an address, when the
entries above it pass the test. -/
def ptSlot (ok : BitVec 64 → Bool) (mem : PhysMem) (pml4 : Nat) (virt : BitVec 64) :
    Option (Nat × Fin 512) :=
  if ok (mem pml4 (pml4Idx virt)) then
    let pdpt := pageOf (mem pml4 (pml4Idx virt) &&& pageMask)
    if ok (mem pdpt (pdptIdx virt)) then
      let pd := pageOf (mem pdpt (pdptIdx virt) &&& pageMask)
      if ok (mem pd (pdIdx virt)) then
        some (pageOf (mem pd (pdIdx virt) &&& pageMask),ptIdx virt)
      else none
    else none
  else none

/-- `e & VMM_PRESENT`. -/
def present (e : BitVec 64) : Bool := has e vmmPresent

/-- `(e & VMM_PRESENT) && (e & VMM_USER)`. -/
def presentUser (e : BitVec 64) : Bool := has e vmmPresent && has e vmmUser

def vmmUnmap (m : Machine) (pm : Pagemap) (virt : BitVec 64) : Machine :=
  match pm with
  | none => m
  | some pml4 =>
    match ptSlot present m.mem pml4 virt with
    | none => m
    | some (pt,i) => { m with mem := setSlot m.mem pt i 0#64 }

def vmmVirtToPhys (m : Machine) (pm : Pagemap) (virt : BitVec 64) : BitVec 64 :=
  match pm with
  | none => 0#64
  | some pml4 =>
    match ptSlot present m.mem pml4 virt with
    | none => 0#64
    | some (pt,i) =>
      if present (m.mem pt i) then (m.mem pt i &&& pageMask) ||| (virt &&& 0xFFF#64) else 0#64

/-- The pages of `for (page = start; ; page += PAGE_SIZE) { …; if (page == end) break; }`. -/
def pageRange (virt len : BitVec 64) : List (BitVec 64) :=
  let start := virt &&& pageMask
  let last := (virt+len-1#64) &&& pageMask
  (List.range ((last-start).toNat/4096+1)).map (fun i => start+BitVec.ofNat 64 (i*4096))

/-- The loop of `vmm_protect`; it stops at the first page that is not mapped. -/
def protectPages (pml4 : Nat) (flags : BitVec 64) : List (BitVec 64) → PhysMem → Int × PhysMem
  | [],mem => (0,mem)
  | page::rest,mem =>
    match ptSlot present mem pml4 page with
    | none => (-1,mem)
    | some (pt,i) =>
      if present (mem pt i) then
        protectPages pml4 flags rest (setSlot mem pt i
          ((mem pt i &&& vmmPhysMask) ||| (flags &&& 0xFFF#64) ||| (flags &&& vmmNx)))
      else (-1,mem)

def vmmProtect (m : Machine) (pm : Pagemap) (virt len flags : BitVec 64) : Int × Machine :=
  match pm with
  | none => (-1,m)
  | some pml4 =>
    if len = 0#64 then (-1,m)
    else
      let r := protectPages pml4 flags (pageRange virt len) m.mem
      (r.1,{ m with mem := r.2 })

/-- One turn of the loop of `vmm_unmap_range`. -/
def unmapPage (freePhys : Bool) (pml4 : Nat) (m : Machine) (page : BitVec 64) : Machine :=
  match ptSlot present m.mem pml4 page with
  | none => m
  | some (pt,i) =>
    if present (m.mem pt i) then
      { m with
        pmm := if freePhys then pmmFreePage m.pmm (m.mem pt i &&& vmmPhysMask) else m.pmm
        mem := setSlot m.mem pt i 0#64 }
    else m

def vmmUnmapRange (m : Machine) (pm : Pagemap) (virt len : BitVec 64) (freePhys : Bool) :
    Machine :=
  match pm with
  | none => m
  | some pml4 =>
    if len = 0#64 then m else (pageRange virt len).foldl (unmapPage freePhys pml4) m

/-- One turn of the loop of `vmm_check_user_range`. -/
def checkUserPage (mem : PhysMem) (pml4 : Nat) (needWrite : Bool) (page : BitVec 64) : Bool :=
  match ptSlot presentUser mem pml4 page with
  | none => false
  | some (pt,i) => presentUser (mem pt i) && !(needWrite && !has (mem pt i) vmmWrite)

def vmmCheckUserRange (m : Machine) (pm : Pagemap) (virt len : BitVec 64) (needWrite : Bool) :
    Bool :=
  match pm with
  | none => false
  | some pml4 =>
    if len = 0#64 then false
    else if virt+len < virt then false
    else (pageRange virt len).all (checkUserPage m.mem pml4 needWrite)

def vmmCurrent (m : Machine) : Pagemap := some m.cr3

def vmmCreatePagemap (m : Machine) : Pagemap × Machine :=
  match allocTable m with
  | (none,m) => (none,m)
  | (some phys,m) =>
    (some (pageOf phys),{ m with
      mem := fun n i => if n = pageOf phys ∧ 256 ≤ i.val then m.mem m.cr3 i else m.mem n i })

/-- Pages `vmm_destroy_pagemap` frees for one page table, in its order. -/
def destroyPt (mem : PhysMem) (pt : Nat) : List (BitVec 64) :=
  (List.finRange 512).flatMap fun l =>
    if present (mem pt l) then [mem pt l &&& pageMask] else []

def destroyPd (mem : PhysMem) (pd : Nat) : List (BitVec 64) :=
  (List.finRange 512).flatMap fun k =>
    if !present (mem pd k) then []
    else if has (mem pd k) vmmHuge then [mem pd k &&& pageMask]
    else destroyPt mem (pageOf (mem pd k &&& pageMask))++[mem pd k &&& pageMask]

def destroyPdpt (mem : PhysMem) (pdpt : Nat) : List (BitVec 64) :=
  (List.finRange 512).flatMap fun j =>
    if !present (mem pdpt j) then []
    else destroyPd mem (pageOf (mem pdpt j &&& pageMask))++[mem pdpt j &&& pageMask]

/-- The arguments of the `pmm_free_page` calls of `vmm_destroy_pagemap`, in order. -/
def destroyFrees (mem : PhysMem) (pml4 : Nat) : List (BitVec 64) :=
  ((List.finRange 512).flatMap fun i =>
    if 256 ≤ i.val then []
    else if !present (mem pml4 i) then []
    else destroyPdpt mem (pageOf (mem pml4 i &&& pageMask))++[mem pml4 i &&& pageMask])++
  [pageAddr pml4]

def vmmDestroyPagemap (m : Machine) (pm : Pagemap) : Machine :=
  match pm with
  | none => m
  | some pml4 =>
    if pm = vmmCurrent m then m
    else { m with pmm := (destroyFrees m.mem pml4).foldl pmmFreePage m.pmm }

/-- The loop visits the last page once, at its end, so the list is what it runs through. -/
theorem pageRange_stops (virt len : BitVec 64) (i : Nat)
    (hi : i ≤ (((virt+len-1#64) &&& pageMask)-(virt &&& pageMask)).toNat/4096) :
    (virt &&& pageMask)+BitVec.ofNat 64 (i*4096) = ((virt+len-1#64) &&& pageMask) ↔
      i = (((virt+len-1#64) &&& pageMask)-(virt &&& pageMask)).toNat/4096 := by
  have aligned : ∀ x : BitVec 64, (x &&& pageMask).toNat%4096 = 0 := by
    intro x
    have hz : (x &&& pageMask) &&& 0xFFF#64 = 0#64 := by
      rw [BitVec.and_assoc,show pageMask &&& 0xFFF#64 = 0#64 by decide,BitVec.and_zero]
    have hm := congrArg BitVec.toNat hz
    rw [BitVec.toNat_and,show (0xFFF#64).toNat = 2^12-1 from rfl,
      Nat.and_two_pow_sub_one_eq_mod] at hm
    simpa using hm
  have hs := aligned virt
  have he := aligned (virt+len-1#64)
  generalize (virt+len-1#64) &&& pageMask = last at *
  generalize virt &&& pageMask = start at *
  have h1 := start.isLt
  have h2 := last.isLt
  rw [BitVec.toNat_eq,BitVec.toNat_add,BitVec.toNat_ofNat]
  rw [BitVec.toNat_sub] at hi ⊢
  omega

end KiNBOL
