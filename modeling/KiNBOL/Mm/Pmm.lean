import KiNBOL.Framework.FlagCount
import Mathlib.Order.Interval.Finset.Nat

namespace KiNBOL

/-- `PAGE_SIZE`. -/
def pageSize : Nat := 4096

/-- Number of the page that holds a physical address (`phys / PAGE_SIZE`). -/
def pageOf (phys : BitVec 64) : Nat := phys.toNat/4096

/-- Physical address of a page (`i * PAGE_SIZE`). -/
def pageAddr (i : Nat) : BitVec 64 := BitVec.ofNat 64 (i*4096)

/-- Page numbers of a 64-bit address space; every managed page is below it. -/
def pageLimit : Nat := 2^52

theorem pageOf_pageAddr {i : Nat} (h : i < pageLimit) : pageOf (pageAddr i) = i := by
  simp only [pageOf, pageAddr, pageLimit, BitVec.toNat_ofNat] at *
  omega

theorem pageOf_lt (phys : BitVec 64) : pageOf phys < pageLimit := by
  have h := phys.isLt
  simp only [pageOf, pageLimit]
  omega

/-- The static state of the physical memory manager. -/
structure Pmm where
  bitmap : Nat → BitVec 8
  totalPages : Nat
  freePages : BitVec 64
  highestPhys : BitVec 64

namespace Pmm

def bmSet (p : Pmm) (page : Nat) : Pmm :=
  { p with bitmap := fun i =>
      if i = page/8 then p.bitmap i ||| (1#8 <<< (page%8)) else p.bitmap i }

def bmClear (p : Pmm) (page : Nat) : Pmm :=
  { p with bitmap := fun i =>
      if i = page/8 then p.bitmap i &&& ~~~(1#8 <<< (page%8)) else p.bitmap i }

def bmGet (p : Pmm) (page : Nat) : Bool :=
  (p.bitmap (page/8) >>> (page%8)) &&& 1#8 == 1#8

/-- A page the allocator may hand out: below the limit and with a clear bit. -/
def Free (p : Pmm) (page : Nat) : Prop := page < p.totalPages ∧ p.bmGet page = false

instance (p : Pmm) (page : Nat) : Decidable (p.Free page) :=
  inferInstanceAs (Decidable (_ ∧ _))

private theorem low_bit (x : BitVec 8) : ((x &&& 1#8) == 1#8) = x.getLsbD 0 := by
  revert x
  decide

theorem bmGet_eq (p : Pmm) (page : Nat) :
    p.bmGet page = (p.bitmap (page/8)).getLsbD (page%8) := by
  simp [bmGet, low_bit]

private theorem one_shift_bit (k j : Nat) (hk : k < 8) :
    (1#8 <<< k).getLsbD j = decide (j = k) := by
  rcases Nat.lt_or_ge j 8 with hj | hj
  · simp only [BitVec.getLsbD_shiftLeft, BitVec.getLsbD_one]
    by_cases h : j = k
    · subst h; simp [hj]
    · simp only [h, decide_false]
      simp only [hj, decide_true, Bool.true_and, Bool.and_eq_false_imp, Bool.not_eq_true',
        decide_eq_false_iff_not]
      omega
  · simp [BitVec.getLsbD_of_ge _ _ hj]
    omega

private theorem page_split {i j : Nat} (h : i/8 = j/8) : i%8 = j%8 ↔ i = j := by omega

@[simp] theorem bmGet_bmSet (p : Pmm) (i j : Nat) :
    (p.bmSet i).bmGet j = (p.bmGet j || decide (j = i)) := by
  rw [bmGet_eq, bmGet_eq, bmSet]
  by_cases h : j/8 = i/8
  · simp only [h, if_true, BitVec.getLsbD_or, one_shift_bit _ _ (Nat.mod_lt i (by omega)),
      page_split h]
  · have hne : j ≠ i := by intro he; exact h (by rw [he])
    simp [h, hne]

@[simp] theorem bmGet_bmClear (p : Pmm) (i j : Nat) :
    (p.bmClear i).bmGet j = (p.bmGet j && !decide (j = i)) := by
  rw [bmGet_eq, bmGet_eq, bmClear]
  by_cases h : j/8 = i/8
  · have hj : j%8 < 8 := Nat.mod_lt j (by omega)
    simp only [h, if_true, BitVec.getLsbD_and, BitVec.getLsbD_not, hj, decide_true,
      Bool.true_and, one_shift_bit _ _ (Nat.mod_lt i (by omega)), page_split h]
  · have hne : j ≠ i := by intro he; exact h (by rw [he])
    simp [h, hne]

@[simp] theorem bmSet_totalPages (p : Pmm) (i : Nat) : (p.bmSet i).totalPages = p.totalPages := rfl
@[simp] theorem bmSet_freePages (p : Pmm) (i : Nat) : (p.bmSet i).freePages = p.freePages := rfl
@[simp] theorem bmClear_totalPages (p : Pmm) (i : Nat) :
    (p.bmClear i).totalPages = p.totalPages := rfl
@[simp] theorem bmClear_freePages (p : Pmm) (i : Nat) : (p.bmClear i).freePages = p.freePages := rfl

end Pmm

/-- First page a search looks at (`0x100000 / PAGE_SIZE`). -/
def firstPage : Nat := 0x100000/4096

def pmmAllocPage (p : Pmm) : Option (BitVec 64) × Pmm :=
  match (List.range' firstPage (p.totalPages-firstPage)).find? (fun i => !p.bmGet i) with
  | some i => (some (pageAddr i), { p.bmSet i with freePages := p.freePages-1 })
  | none => (none, p)

def pmmFreePage (p : Pmm) (phys : BitVec 64) : Pmm :=
  if pageOf phys < p.totalPages ∧ p.bmGet (pageOf phys) then
    { p.bmClear (pageOf phys) with freePages := p.freePages+1 }
  else p

/-- The `j` loop that raises the bits of a run. -/
def bmSetRun (p : Pmm) (i count : Nat) : Pmm :=
  (List.range count).foldl (fun p j => p.bmSet (i+j)) p

def pmmAllocPagesContiguous (p : Pmm) (count : Nat) : Option (BitVec 64) × Pmm :=
  if count = 0 ∨ p.totalPages < count then (none, p)
  else
    match (List.range' firstPage (p.totalPages-count+1-firstPage)).find?
        (fun i => (List.range count).all (fun j => !p.bmGet (i+j))) with
    | some i => (some (pageAddr i),
        { bmSetRun p i count with freePages := p.freePages-BitVec.ofNat 64 count })
    | none => (none, p)

def pmmFreePages (p : Pmm) (phys : BitVec 64) (count : Nat) : Pmm :=
  (List.range count).foldl (fun p j =>
    if pageOf phys+j < p.totalPages ∧ p.bmGet (pageOf phys+j) then
      { p.bmClear (pageOf phys+j) with freePages := p.freePages+1 }
    else p) p

end KiNBOL
