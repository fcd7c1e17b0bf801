import KiNBOL.Mm.Pmm
import Mathlib.Algebra.Ring.Nat

namespace KiNBOL

def vmmPresent : BitVec 64 := 1#64 <<< 0
def vmmWrite : BitVec 64 := 1#64 <<< 1
def vmmUser : BitVec 64 := 1#64 <<< 2
def vmmHuge : BitVec 64 := 1#64 <<< 7
def vmmNx : BitVec 64 := 1#64 <<< 63

def vmmPhysMask : BitVec 64 := 0x000FFFFFFFFFF000#64

/-- `~0xFFFULL`, the mask the walkers use to reach the next table. -/
def pageMask : BitVec 64 := ~~~0xFFF#64

/-- `e & flag` as a condition. -/
def has (e flag : BitVec 64) : Bool := e &&& flag != 0#64

instance tableEntriesNeZero : NeZero 512 := ⟨by decide⟩

def pml4Idx (virt : BitVec 64) : Fin 512 := Fin.ofNat 512 (virt >>> 39).toNat
def pdptIdx (virt : BitVec 64) : Fin 512 := Fin.ofNat 512 (virt >>> 30).toNat
def pdIdx (virt : BitVec 64) : Fin 512 := Fin.ofNat 512 (virt >>> 21).toNat
def ptIdx (virt : BitVec 64) : Fin 512 := Fin.ofNat 512 (virt >>> 12).toNat

/-- The entry `get_or_create` writes for a new table. -/
def tableEntry (phys : BitVec 64) : BitVec 64 := phys ||| vmmPresent ||| vmmWrite ||| vmmUser

/-- The entry `vmm_map` writes. -/
def leafEntry (phys flags : BitVec 64) : BitVec 64 :=
  (phys &&& pageMask) ||| (flags &&& 0xFFF#64) ||| (flags &&& vmmNx)

/-- Page frame an entry names for the processor (bits 12 to 51). -/
def framePage (e : BitVec 64) : Nat := pageOf (e &&& vmmPhysMask)

/-- The child an entry names, when it is present. -/
def entryNode (e : BitVec 64) : Option Nat :=
  if has e vmmPresent then some (framePage e) else none

/-- Frames that bits 12 to 51 can name. -/
def frameLimit : Nat := 2^40

private theorem bit_mask (k i : Nat) (hk : k < 64) :
    (1#64 <<< k).getLsbD i = decide (i = k) := by
  rw [BitVec.getLsbD_shiftLeft,BitVec.getLsbD_one]
  by_cases h : i = k
  · subst h; simp [hk]
  · simp only [h,decide_false,Bool.and_eq_false_imp,Bool.and_eq_true,decide_eq_true_eq,
      Bool.not_eq_true',decide_eq_false_iff_not]
    omega

theorem has_bit (e : BitVec 64) (k : Nat) (hk : k < 64) : has e (1#64 <<< k) = e.getLsbD k := by
  have hall : (e &&& (1#64 <<< k) = 0#64) ↔ e.getLsbD k = false := by
    constructor
    · intro h
      have hb := congrArg (fun x => BitVec.getLsbD x k) h
      simpa [BitVec.getLsbD_and,bit_mask k k hk] using hb
    · intro h
      apply BitVec.eq_of_getLsbD_eq
      intro i hi
      rw [BitVec.getLsbD_and,bit_mask k i hk]
      by_cases he : i = k
      · simp [he,h]
      · simp [he]
  cases hb : e.getLsbD k with
  | false => simp [has,hall.mpr hb]
  | true =>
    have hne : e &&& (1#64 <<< k) ≠ 0#64 := by
      rw [Ne,hall,hb]
      decide
    simpa [has] using hne

theorem has_present (e : BitVec 64) : has e vmmPresent = e.getLsbD 0 := has_bit e 0 (by omega)
theorem has_write (e : BitVec 64) : has e vmmWrite = e.getLsbD 1 := has_bit e 1 (by omega)
theorem has_user (e : BitVec 64) : has e vmmUser = e.getLsbD 2 := has_bit e 2 (by omega)
theorem has_huge (e : BitVec 64) : has e vmmHuge = e.getLsbD 7 := has_bit e 7 (by omega)
theorem has_nx (e : BitVec 64) : has e vmmNx = e.getLsbD 63 := has_bit e 63 (by omega)

private theorem low_mask (i : Nat) : (0xFFF#64).getLsbD i = decide (i < 12) := by
  rcases Nat.lt_or_ge i 64 with h | h
  · have hall : ∀ i : Fin 64, (0xFFF#64).getLsbD i = decide (i.val < 12) := by decide
    exact hall ⟨i,h⟩
  · rw [BitVec.getLsbD_of_ge _ _ h]
    exact (decide_eq_false (by omega)).symm

private theorem page_mask (i : Nat) : pageMask.getLsbD i = decide (12 ≤ i ∧ i < 64) := by
  rw [pageMask,BitVec.getLsbD_not,low_mask,← decide_not,← Bool.decide_and]
  exact decide_eq_decide.mpr (by omega)

private theorem phys_mask (i : Nat) : vmmPhysMask.getLsbD i = decide (12 ≤ i ∧ i < 52) := by
  rcases Nat.lt_or_ge i 64 with h | h
  · have hall : ∀ i : Fin 64,
        vmmPhysMask.getLsbD i = decide (12 ≤ i.val ∧ i.val < 52) := by decide
    exact hall ⟨i,h⟩
  · rw [BitVec.getLsbD_of_ge _ _ h]
    exact (decide_eq_false (by omega)).symm

theorem pageOf_shift (e : BitVec 64) : pageOf e = (e >>> 12).toNat := by
  rw [pageOf,BitVec.toNat_ushiftRight,Nat.shiftRight_eq_div_pow]

/-- The table pointer of the walkers keeps every bit from 12 up. -/
@[simp] theorem pageOf_pageMask (e : BitVec 64) : pageOf (e &&& pageMask) = pageOf e := by
  rw [pageOf_shift,pageOf_shift]
  congr 1
  apply BitVec.eq_of_getLsbD_eq
  intro i hi
  rw [BitVec.getLsbD_ushiftRight,BitVec.getLsbD_ushiftRight,BitVec.getLsbD_and,page_mask]
  by_cases h : 12+i < 64
  · simp [h]
  · simp [BitVec.getLsbD_of_ge e (12+i) (by omega)]

theorem framePage_eq (e : BitVec 64) : framePage e = pageOf e%frameLimit := by
  have hs : (e &&& vmmPhysMask) >>> 12 = (e >>> 12) &&& (BitVec.ofNat 64 (2^40-1)) := by
    apply BitVec.eq_of_getLsbD_eq
    intro i hi
    rw [BitVec.getLsbD_ushiftRight,BitVec.getLsbD_and,BitVec.getLsbD_and,
      BitVec.getLsbD_ushiftRight,phys_mask,BitVec.getLsbD_ofNat,Nat.testBit_two_pow_sub_one]
    by_cases h : i < 40
    · simp [h,hi,show 12+i < 52 by omega]
    · simp [h,show ¬12+i < 52 by omega]
  rw [framePage,pageOf_shift,hs,BitVec.toNat_and,BitVec.toNat_ofNat,
    Nat.mod_eq_of_lt (show 2^40-1 < 2^64 by decide),Nat.and_two_pow_sub_one_eq_mod,
    ← pageOf_shift,frameLimit]

theorem framePage_lt (e : BitVec 64) : framePage e < frameLimit := by
  rw [framePage_eq]
  exact Nat.mod_lt _ (by decide)

private theorem pageAddr_bit (f i : Nat) :
    (pageAddr f).getLsbD i = (decide (12 ≤ i ∧ i < 64) && f.testBit (i-12)) := by
  rw [pageAddr,BitVec.getLsbD_ofNat,show f*4096 = 2^12*f by omega,Nat.testBit_two_pow_mul]
  by_cases h1 : i < 64 <;> by_cases h2 : 12 ≤ i <;> simp [h1,h2]

private theorem small_bit {f i : Nat} (hf : f < frameLimit) (hi : 40 ≤ i) :
    f.testBit i = false :=
  Nat.testBit_lt_two_pow (lt_of_lt_of_le hf (Nat.pow_le_pow_right (by omega) hi))

theorem frameLimit_le : frameLimit ≤ pageLimit := by decide

private theorem tableEntry_bit (f i : Nat) :
    (tableEntry (pageAddr f)).getLsbD i =
      ((pageAddr f).getLsbD i || decide (i = 0) || decide (i = 1) || decide (i = 2)) := by
  rw [tableEntry,BitVec.getLsbD_or,BitVec.getLsbD_or,BitVec.getLsbD_or,vmmPresent,vmmWrite,vmmUser,
    bit_mask 0 i (by omega),bit_mask 1 i (by omega),bit_mask 2 i (by omega)]

private theorem leafEntry_bit (phys flags : BitVec 64) (i : Nat) :
    (leafEntry phys flags).getLsbD i =
      ((phys.getLsbD i && decide (12 ≤ i ∧ i < 64)) || (flags.getLsbD i && decide (i < 12)) ||
        (flags.getLsbD i && decide (i = 63))) := by
  rw [leafEntry,BitVec.getLsbD_or,BitVec.getLsbD_or,BitVec.getLsbD_and,BitVec.getLsbD_and,
    BitVec.getLsbD_and,page_mask,low_mask,vmmNx,bit_mask 63 i (by omega)]

theorem pageOf_tableEntry {f : Nat} (hf : f < frameLimit) :
    pageOf (tableEntry (pageAddr f)) = f := by
  have hlim := lt_of_lt_of_le hf frameLimit_le
  conv_rhs => rw [← pageOf_pageAddr hlim]
  rw [pageOf_shift,pageOf_shift]
  congr 1
  apply BitVec.eq_of_getLsbD_eq
  intro i hi
  rw [BitVec.getLsbD_ushiftRight,BitVec.getLsbD_ushiftRight,tableEntry_bit,
    decide_eq_false (show ¬12+i = 0 by omega),decide_eq_false (show ¬12+i = 1 by omega),
    decide_eq_false (show ¬12+i = 2 by omega)]
  simp

theorem framePage_tableEntry {f : Nat} (hf : f < frameLimit) :
    framePage (tableEntry (pageAddr f)) = f := by
  rw [framePage_eq,pageOf_tableEntry hf,Nat.mod_eq_of_lt hf]

/-- A new table's entry is present, writable and user, neither huge nor no-execute. -/
theorem tableEntry_flags {f : Nat} (hf : f < frameLimit) :
    has (tableEntry (pageAddr f)) vmmPresent = true ∧
    has (tableEntry (pageAddr f)) vmmWrite = true ∧
    has (tableEntry (pageAddr f)) vmmUser = true ∧
    has (tableEntry (pageAddr f)) vmmHuge = false ∧
    has (tableEntry (pageAddr f)) vmmNx = false := by
  have h51 : f.testBit 51 = false := small_bit hf (by omega)
  rw [has_present,has_write,has_user,has_huge,has_nx,tableEntry_bit,tableEntry_bit,tableEntry_bit,
    tableEntry_bit,tableEntry_bit,pageAddr_bit,pageAddr_bit,pageAddr_bit,pageAddr_bit,pageAddr_bit]
  simp [h51]

/-- An entry for the table `f` that allows every access below it. The bits that the walkers do not
look at are left open: the processor sets the accessed bit of the entries it goes through. -/
structure TableWord (f : Nat) (e : BitVec 64) : Prop where
  lt : f < frameLimit
  page : pageOf e = f
  present : has e vmmPresent = true
  write : has e vmmWrite = true
  user : has e vmmUser = true
  huge : has e vmmHuge = false

theorem tableEntry_word {f : Nat} (hf : f < frameLimit) : TableWord f (tableEntry (pageAddr f)) := by
  obtain ⟨hp,hw,hu,hh,-⟩ := tableEntry_flags hf
  exact ⟨hf,pageOf_tableEntry hf,hp,hw,hu,hh⟩

namespace TableWord

variable {f : Nat} {e : BitVec 64}

theorem framePage (h : TableWord f e) : framePage e = f := by
  rw [framePage_eq,h.page,Nat.mod_eq_of_lt h.lt]

theorem entryNode (h : TableWord f e) : entryNode e = some f := by
  rw [KiNBOL.entryNode,if_pos h.present,h.framePage]

/-- Bit 63 would be part of the page number. -/
theorem nx (h : TableWord f e) : has e vmmNx = false := by
  have hsmall : (e >>> 12).toNat < 2^40 := by
    rw [← pageOf_shift,h.page]
    exact h.lt
  rw [has_nx,show (63 : Nat) = 12+51 from rfl,← BitVec.getLsbD_ushiftRight,BitVec.getLsbD]
  exact Nat.testBit_lt_two_pow (hsmall.trans (by decide))

end TableWord

/-- The processor finds the mapped frame in the entry `vmm_map` writes. -/
theorem framePage_leafEntry {f : Nat} (hf : f < frameLimit) (flags : BitVec 64) :
    framePage (leafEntry (pageAddr f) flags) = f := by
  have hlim := lt_of_lt_of_le hf frameLimit_le
  have hsame : leafEntry (pageAddr f) flags &&& vmmPhysMask = pageAddr f := by
    apply BitVec.eq_of_getLsbD_eq
    intro i hi
    rw [BitVec.getLsbD_and,leafEntry_bit,phys_mask,pageAddr_bit]
    by_cases h1 : 12 ≤ i
    · by_cases h2 : i < 52
      · simp [h1,h2,hi,show ¬i < 12 by omega,show ¬i = 63 by omega]
      · have hz : f.testBit (i-12) = false := small_bit hf (by omega)
        simp [h2,hz]
    · simp [h1]
  rw [framePage,hsame,pageOf_pageAddr hlim]

/-- A leaf entry carries exactly the low twelve flags and `VMM_NX` of its flags. -/
theorem leafEntry_flags {f : Nat} (hf : f < frameLimit) (flags : BitVec 64) :
    has (leafEntry (pageAddr f) flags) vmmPresent = has flags vmmPresent ∧
    has (leafEntry (pageAddr f) flags) vmmWrite = has flags vmmWrite ∧
    has (leafEntry (pageAddr f) flags) vmmUser = has flags vmmUser ∧
    has (leafEntry (pageAddr f) flags) vmmNx = has flags vmmNx := by
  have h51 : f.testBit 51 = false := small_bit hf (by omega)
  simp only [has_present,has_write,has_user,has_nx,leafEntry_bit,pageAddr_bit]
  simp [h51]

/-- Page number the walkers' mask leaves in a leaf entry: `VMM_NX` stays in as bit 51. -/
theorem pageOf_leafEntry {f : Nat} (hf : f < frameLimit) (flags : BitVec 64) :
    pageOf (leafEntry (pageAddr f) flags) = f+(if has flags vmmNx then 2^51 else 0) := by
  have hf51 : f < 2^51 := hf.trans (by decide)
  have hf64 : f < 2^64 := hf51.trans (by decide)
  have hor : leafEntry (pageAddr f) flags >>> 12 =
      BitVec.ofNat 64 f ||| (if flags.getLsbD 63 then BitVec.twoPow 64 51 else 0#64) := by
    apply BitVec.eq_of_getLsbD_eq
    intro i hi
    have hnx : (if flags.getLsbD 63 then BitVec.twoPow 64 51 else 0#64).getLsbD i =
        (flags.getLsbD 63 && decide (i = 51)) := by
      split_ifs with h
      · rw [BitVec.getLsbD_twoPow,h]
        simp [eq_comm]
      · rw [BitVec.getLsbD_zero,(Bool.not_eq_true _).mp h,Bool.false_and]
    rw [BitVec.getLsbD_ushiftRight,BitVec.getLsbD_or,leafEntry_bit,pageAddr_bit,hnx,
      BitVec.getLsbD_ofNat,decide_eq_false (show ¬12+i < 12 by omega),Nat.add_sub_cancel_left]
    by_cases h51 : i = 51
    · subst h51
      simp
    · by_cases hlt : 12+i < 64
      · simp [hlt,hi,h51,show ¬12+i = 63 by omega]
      · simp [hlt,h51,small_bit hf (show 40 ≤ i by omega),show ¬12+i = 63 by omega]
  rw [pageOf_shift,hor,has_nx,BitVec.toNat_or,BitVec.toNat_ofNat,Nat.mod_eq_of_lt hf64]
  split_ifs
  · rw [BitVec.toNat_twoPow,Nat.mod_eq_of_lt (by decide),Nat.or_comm]
    have hadd := Nat.two_pow_add_eq_or_of_lt (i := 51) hf51 1
    rw [Nat.mul_one] at hadd
    rw [← hadd,Nat.add_comm]
  · simp

/-- Re-flagging an entry keeps its frame (`vmm_protect`). -/
theorem protect_entry (e flags : BitVec 64) :
    (e &&& vmmPhysMask) ||| (flags &&& 0xFFF#64) ||| (flags &&& vmmNx) =
      leafEntry (pageAddr (framePage e)) flags := by
  have haddr : pageAddr (framePage e) = e &&& vmmPhysMask := by
    apply BitVec.eq_of_toNat_eq
    have hlow : (e &&& vmmPhysMask).toNat%4096 = 0 := by
      have hz : (e &&& vmmPhysMask) &&& 0xFFF#64 = 0#64 := by
        apply BitVec.eq_of_getLsbD_eq
        intro i hi
        rw [BitVec.getLsbD_and,BitVec.getLsbD_and,phys_mask,low_mask]
        by_cases h : i < 12
        · simp [show ¬12 ≤ i by omega]
        · simp [h]
      have hm := congrArg BitVec.toNat hz
      rw [BitVec.toNat_and,show (0xFFF#64).toNat = 2^12-1 from rfl,
        Nat.and_two_pow_sub_one_eq_mod] at hm
      simpa using hm
    have hlt := (e &&& vmmPhysMask).isLt
    simp only [pageAddr,framePage,pageOf,BitVec.toNat_ofNat]
    omega
  have hmask : (e &&& vmmPhysMask) &&& pageMask = e &&& vmmPhysMask := by
    apply BitVec.eq_of_getLsbD_eq
    intro i hi
    rw [BitVec.getLsbD_and,BitVec.getLsbD_and,phys_mask,page_mask]
    by_cases h : 12 ≤ i ∧ i < 52
    · simp [h,hi]
    · simp [h]
  rw [leafEntry,haddr,hmask]

end KiNBOL
