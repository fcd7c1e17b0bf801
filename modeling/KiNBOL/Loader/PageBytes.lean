import KiNBOL.Loader.Elf

namespace KiNBOL

/-! The bytes of a page of words, and what a program finds at an address. -/

/-- Byte `off` of a page. -/
def memByte (mem : PhysMem) (page off : Nat) : BitVec 8 :=
  (mem page ⟨off/8%512,Nat.mod_lt _ (by decide)⟩ >>> (8*(off%8))).setWidth 8

/-- The byte a program reads at an address. -/
def hwByte (mem : PhysMem) (p : Nat) (va : BitVec 64) : Option (BitVec 8) :=
  (translate mem p va).map (fun y => memByte mem y.page (va.toNat%4096))

/-- What a cleared page holds once bytes were stored from `off` on. -/
def filled (off : Nat) (bytes : List (BitVec 8)) (o : Nat) : BitVec 8 :=
  if off ≤ o ∧ o < off+bytes.length then bytes.getD (o-off) 0#8 else 0#8

variable {mem : PhysMem} {page n off o : Nat} {b : BitVec 8} {bytes : List (BitVec 8)}

theorem byteOf_put {w : BitVec 64} {j k : Nat} (hk : k < 8) :
    ((w &&& ~~~(0xFF#64 <<< (8*j)) ||| (b.setWidth 64 <<< (8*j))) >>> (8*k)).setWidth 8 =
      if k = j then b else (w >>> (8*k)).setWidth 8 := by
  have hff : ∀ i, (0xFF#64).getLsbD i = decide (i < 8) := by
    intro i
    have h : (0xFF#64) = BitVec.setWidth 64 (BitVec.allOnes 8) := by decide
    rw [h,BitVec.getLsbD_setWidth,BitVec.getLsbD_allOnes]
    by_cases hi : i < 8
    · simp [hi]
      omega
    · simp [hi]
  apply BitVec.eq_of_getLsbD_eq
  intro i hi
  have hin : 8*k+i < 64 := by omega
  simp only [BitVec.getLsbD_setWidth,BitVec.getLsbD_ushiftRight,BitVec.getLsbD_or,BitVec.getLsbD_and,
    BitVec.getLsbD_not,BitVec.getLsbD_shiftLeft,hff,hi,hin,decide_true,Bool.true_and]
  by_cases hkj : k = j
  · subst hkj
    have hself : ¬8*k+i < 8*k := by omega
    have h64 : i < 64 := by omega
    simp [hi,hself,h64]
  · rw [if_neg hkj,BitVec.getLsbD_setWidth,BitVec.getLsbD_ushiftRight]
    rcases Nat.lt_or_gt_of_ne hkj with hlt | hgt
    · have hbelow : 8*k+i < 8*j := by omega
      simp [hbelow,hi]
    · have habove : ¬8*k+i-8*j < 8 := by omega
      have hge : ¬8*k+i < 8*j := by omega
      have hb : b.getLsbD (8*k+i-8*j) = false := BitVec.getLsbD_of_ge b _ (by omega)
      simp [habove,hge,hi,hb]

theorem memByte_storeByte (ho : o < 4096) :
    memByte (storeByte mem page off b) page o = if o = off then b else memByte mem page o := by
  unfold memByte storeByte
  dsimp only
  have hmod : o/8%512 = o/8 := Nat.mod_eq_of_lt (by omega)
  by_cases hword : o/8 = off/8
  · rw [if_pos ⟨rfl,hmod.trans hword⟩,byteOf_put (Nat.mod_lt o (by decide))]
    apply if_congr _ rfl rfl
    omega
  · rw [if_neg (fun hh => hword (hmod.symm.trans hh.2)),if_neg (fun he : o = off => hword (congrArg (·/8) he))]

theorem memByte_copyBytes (ho : o < 4096) :
    memByte (copyBytes page off bytes mem) page o =
      if off ≤ o ∧ o < off+bytes.length then bytes.getD (o-off) 0#8 else memByte mem page o := by
  induction bytes generalizing off mem with
  | nil =>
    rw [if_neg (fun hh => by rw [List.length_nil] at hh; omega)]
    rfl
  | cons b bs ih =>
    rw [copyBytes,ih,memByte_storeByte ho,List.length_cons]
    by_cases heq : o = off
    · subst heq
      rw [if_neg (by omega),if_pos rfl,if_pos (by omega),Nat.sub_self]
      rfl
    · rw [if_neg heq]
      by_cases hin : off+1 ≤ o ∧ o < off+1+bs.length
      · rw [if_pos hin,if_pos (by omega)]
        have hsub : o-off = (o-(off+1))+1 := by omega
        rw [hsub,List.getD_cons_succ]
      · rw [if_neg hin,if_neg (by omega)]

theorem memByte_zeroPage (mem : PhysMem) (page o : Nat) :
    memByte (zeroPage mem page) page o = 0#8 := by
  unfold memByte zeroPage
  rw [if_pos rfl]
  simp

theorem memByte_filled (ho : o < 4096) :
    memByte (copyBytes page off bytes (zeroPage mem page)) page o = filled off bytes o := by
  rw [memByte_copyBytes ho,memByte_zeroPage,filled]

theorem memByte_congr {mem' : PhysMem} (h : mem' page = mem page) (o : Nat) :
    memByte mem' page o = memByte mem page o := by
  rw [memByte,h,memByte]

/-- A lower-half address whose page-table entry names a frame reads from the frame. -/
theorem hwByte_lower {roots : Nat → Prop} {p f : Nat} {va : BitVec 64} (h : TableTree roots mem)
    (hr : roots p) (hva : LowerHalf va) (hf : entryNode (leafWord mem p va) = some f) :
    hwByte mem p va = some (memByte mem f (va.toNat%4096)) := by
  obtain ⟨hpres,hframe⟩ := entryNode_eq_some hf
  rw [hwByte,translate,if_pos (Or.inl hva),h.hwWalk_lower hr hva,leafXlat,if_pos hpres,hframe]
  rfl

end KiNBOL
