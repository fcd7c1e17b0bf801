import KiNBOL.Fs.Slot

namespace KiNBOL

variable {leaf : CName} {namelen pos : Nat} {offs : List (Fin 32)} {e : Slot}

/-- The character at an offset. -/
def Slot.charAt (e : Slot) (off : Fin 32) : BitVec 16 :=
  (e off).setWidth 16 ||| (e (off+1)).setWidth 16 <<< 8

/-- Characters at these offsets do not overlap. -/
def OffsetsApart (offs : List (Fin 32)) : Prop :=
  offs.Pairwise (fun a b => a ≠ b ∧ a ≠ b+1 ∧ a+1 ≠ b ∧ a+1 ≠ b+1)

instance : Decidable (OffsetsApart offs) := inferInstanceAs (Decidable (List.Pairwise _ _))

theorem lfnOff_apart : OffsetsApart lfnOff := by decide

theorem Slot.putChar_other {off i : Fin 32} {c : BitVec 16} (h : i ≠ off) (h' : i ≠ off+1) :
    e.putChar off c i = e i := by
  rw [putChar,if_neg h,if_neg h']

theorem Slot.charAt_putChar (off : Fin 32) (c : BitVec 16) : (e.putChar off c).charAt off = c := by
  have hne : off+1 ≠ off := by revert off; decide
  have hlo : e.putChar off c off = c.setWidth 8 := if_pos rfl
  have hhi : e.putChar off c (off+1) = (c >>> 8).setWidth 8 := by
    rw [putChar,if_neg hne,if_pos rfl]
  rw [charAt,hlo,hhi]
  ext i hi
  simp only [BitVec.getElem_or,BitVec.getElem_setWidth,BitVec.getElem_shiftLeft,
    BitVec.getLsbD_setWidth,BitVec.getLsbD_ushiftRight]
  by_cases h : i < 8
  · simp [h,BitVec.getLsbD_eq_getElem hi]
  · have h1 : i-8 < 8 := by omega
    have h2 : 8+(i-8) = i := by omega
    simp [h,h1,h2,BitVec.getLsbD_eq_getElem hi]

/-- Filling leaves the other bytes alone. -/
theorem lfnFill_other {i : Fin 32} (hi : ∀ off ∈ offs, i ≠ off ∧ i ≠ off+1) (ended : Bool) :
    lfnFill leaf namelen offs pos ended e i = e i := by
  induction offs generalizing pos ended e with
  | nil => rfl
  | cons off offs ih =>
    obtain ⟨h1,h2⟩ := hi off (by simp)
    have hrest : ∀ off ∈ offs, i ≠ off ∧ i ≠ off+1 := fun o ho => hi o (by simp [ho])
    rw [lfnFill]
    split_ifs <;> rw [ih hrest,Slot.putChar_other h1 h2]

theorem charAt_fill {off : Fin 32} (h : OffsetsApart (off::offs)) (ended : Bool) (c : BitVec 16) :
    (lfnFill leaf namelen offs pos ended (e.putChar off c)).charAt off = c := by
  obtain ⟨hoff,-⟩ := List.pairwise_cons.mp h
  have hlo : lfnFill leaf namelen offs pos ended (e.putChar off c) off = _ :=
    lfnFill_other (fun o ho => ⟨(hoff o ho).1,(hoff o ho).2.1⟩) ended
  have hhi : lfnFill leaf namelen offs pos ended (e.putChar off c) (off+1) = _ :=
    lfnFill_other (fun o ho => (hoff o ho).2.2) ended
  rw [Slot.charAt,hlo,hhi]
  exact Slot.charAt_putChar off c

/-- Copying the characters of a filled slot back. -/
theorem lfnRead_fill (h0 : 0#8 ∉ leaf) (hn : namelen ≤ leaf.length) (h : OffsetsApart offs)
    (name : Nat → Byte) :
    lfnRead (lfnFill leaf namelen offs pos false e) offs pos name = fun p =>
      if pos ≤ p ∧ p < pos+offs.length ∧ p < namelen ∧ p < vfsNameMax-1 then leaf.getD p 0#8
      else name p := by
  induction offs generalizing pos e name with
  | nil =>
    funext p
    rw [lfnRead,if_neg (by simp only [List.length_nil]; omega)]
  | cons off offs ih =>
    obtain ⟨-,hrest⟩ := List.pairwise_cons.mp h
    rw [lfnRead]
    by_cases hfull : vfsNameMax-1 ≤ pos
    · rw [if_pos hfull]
      funext p
      rw [if_neg (by omega)]
    rw [if_neg hfull]
    by_cases hpos : pos < namelen
    · have hf : lfnFill leaf namelen (off::offs) pos false e = lfnFill leaf namelen offs (pos+1)
          false (e.putChar off ((leaf.getD pos 0#8).setWidth 16)) := by
        rw [lfnFill,if_neg Bool.false_ne_true,if_pos hpos]
      have hc : (lfnFill leaf namelen offs (pos+1) false (e.putChar off _)).charAt off = _ :=
        charAt_fill h false ((leaf.getD pos 0#8).setWidth 16)
      have hget : leaf.getD pos 0#8 = leaf[pos] := by
        rw [List.getD_eq_getElem?_getD,List.getElem?_eq_getElem (by omega),Option.getD_some]
      have hne : leaf.getD pos 0#8 ≠ 0#8 := fun he =>
        h0 (he ▸ hget ▸ List.getElem_mem (by omega))
      have hwide : (leaf.getD pos 0#8).setWidth 16 ≠ 0#16 := by
        revert hne
        generalize leaf.getD pos 0#8 = c
        revert c
        decide
      simp only [Slot.charAt] at hc
      rw [hf]
      dsimp only
      rw [hc,if_neg hwide,ih hrest]
      funext p
      rw [List.length_cons]
      by_cases hp : p = pos
      · rw [if_neg (by omega),if_pos hp,if_pos (by omega),hp]
        generalize leaf.getD pos 0#8 = c
        revert c
        decide
      · by_cases hin : pos+1 ≤ p ∧ p < pos+1+offs.length ∧ p < namelen ∧ p < vfsNameMax-1
        · rw [if_pos hin,if_pos (by omega)]
        · rw [if_neg hin,if_neg hp,if_neg (by omega)]
    · have hf : lfnFill leaf namelen (off::offs) pos false e = lfnFill leaf namelen offs (pos+1)
          true (e.putChar off 0#16) := by
        rw [lfnFill,if_neg Bool.false_ne_true,if_neg hpos]
      have hc : (lfnFill leaf namelen offs (pos+1) true (e.putChar off _)).charAt off = _ :=
        charAt_fill h true 0#16
      simp only [Slot.charAt] at hc
      rw [hf]
      dsimp only
      rw [hc,if_pos rfl]
      funext p
      rw [if_neg (by omega)]

/-- What the scanner holds once sequence number `k` is next. -/
def lfnPartial (leaf : CName) (sum : Byte) (k : Nat) : LfnScan where
  active := true
  nextSeq := k
  sum := sum
  name := fun p =>
    if k*13 ≤ p ∧ p < lfnLength leaf ∧ p < vfsNameMax-1 then leaf.getD p 0#8 else 0#8

/-- Bytes of an LFN slot that are no characters. -/
theorem lfnEntry_byte (leaf : CName) (namelen nentries : Nat) (sum : Byte) (seq : Nat) :
    let e := lfnEntry leaf namelen nentries sum seq
    e 0 = BitVec.ofNat 8 seq ||| (if seq = nentries then 0x40#8 else 0#8) ∧
    e.attr = 0x0F#8 ∧ e 13 = sum := by
  have h0 : ∀ off ∈ lfnOff, (0 : Fin 32) ≠ off ∧ (0 : Fin 32) ≠ off+1 := by decide
  have h11 : ∀ off ∈ lfnOff, (11 : Fin 32) ≠ off ∧ (11 : Fin 32) ≠ off+1 := by decide
  have h13 : ∀ off ∈ lfnOff, (13 : Fin 32) ≠ off ∧ (13 : Fin 32) ≠ off+1 := by decide
  refine ⟨?_,?_,?_⟩
  · rw [lfnEntry,lfnFillChunk,lfnFill_other h0]
    rfl
  · rw [Slot.attr,lfnEntry,lfnFillChunk,lfnFill_other h11]
    rfl
  · rw [lfnEntry,lfnFillChunk,lfnFill_other h13]
    rfl

/-- Sequence bytes are no slot marks and give the number back. -/
theorem seqByte : ∀ seq < 11, 1 ≤ seq → ∀ flag : Byte, flag = 0x40#8 ∨ flag = 0#8 →
    BitVec.ofNat 8 seq ||| flag ≠ 0#8 ∧ BitVec.ofNat 8 seq ||| flag ≠ 0xE5#8 ∧
    ((BitVec.ofNat 8 seq ||| flag) &&& 0x1F#8).toNat = seq ∧
    (BitVec.ofNat 8 seq ||| flag) &&& 0x40#8 = flag := by
  have h1 : ∀ seq < 11, 1 ≤ seq → BitVec.ofNat 8 seq ||| 0x40#8 ≠ 0#8 ∧
      BitVec.ofNat 8 seq ||| 0x40#8 ≠ 0xE5#8 ∧
      ((BitVec.ofNat 8 seq ||| 0x40#8) &&& 0x1F#8).toNat = seq ∧
      (BitVec.ofNat 8 seq ||| 0x40#8) &&& 0x40#8 = 0x40#8 := by decide
  have h2 : ∀ seq < 11, 1 ≤ seq → BitVec.ofNat 8 seq ||| 0#8 ≠ 0#8 ∧
      BitVec.ofNat 8 seq ||| 0#8 ≠ 0xE5#8 ∧
      ((BitVec.ofNat 8 seq ||| 0#8) &&& 0x1F#8).toNat = seq ∧
      (BitVec.ofNat 8 seq ||| 0#8) &&& 0x40#8 = 0#8 := by decide
  rintro seq hlt hseq flag (rfl | rfl)
  · exact h1 seq hlt hseq
  · exact h2 seq hlt hseq

/-- A slot with the first flag starts a name. -/
theorem LfnScan.next_first {raw : Slot} (s : LfnScan) (hf : raw 0 &&& 0x40#8 ≠ 0#8) {seq : Nat}
    (hseq : (raw 0 &&& 0x1F#8).toNat = seq) (h1 : 1 ≤ seq) (h2 : seq ≤ lfnMaxEntries) :
    s.next raw = ⟨true,seq-1,raw 13,lfnRead raw lfnOff ((seq-1)*13) (fun _ => 0#8)⟩ := by
  simp [LfnScan.next,hf,hseq,show ¬seq < 1 by omega,show ¬lfnMaxEntries < seq by omega]

/-- Another slot goes on with it. -/
theorem LfnScan.next_more {raw : Slot} {s : LfnScan} (hf : raw 0 &&& 0x40#8 = 0#8) {seq : Nat}
    (hseq : (raw 0 &&& 0x1F#8).toNat = seq) (h1 : 1 ≤ seq) (h2 : seq ≤ lfnMaxEntries)
    (hs : s.active = true) (hn : s.nextSeq = seq) (hsum : raw 13 = s.sum) :
    s.next raw = ⟨true,seq-1,raw 13,lfnRead raw lfnOff ((seq-1)*13) s.name⟩ := by
  simp [LfnScan.next,hf,hseq,hs,hn,hsum,show ¬seq < 1 by omega,show ¬lfnMaxEntries < seq by omega]

/-- The scanner takes the slot with the sequence number it expects, and the first one always. -/
theorem scan_lfnEntry (h0 : 0#8 ∉ leaf) (sum : Byte) (seq : Nat) (h1 : 1 ≤ seq)
    (h2 : seq ≤ lfnCount leaf) (s : LfnScan)
    (hs : seq = lfnCount leaf ∨ s = lfnPartial leaf sum seq) :
    s.scan (lfnEntry leaf (lfnLength leaf) (lfnCount leaf) sum seq) =
      (.skip,lfnPartial leaf sum (seq-1)) := by
  obtain ⟨hb,hattr,hsum⟩ := lfnEntry_byte leaf (lfnLength leaf) (lfnCount leaf) sum seq
  have hcount : lfnCount leaf ≤ 10 := by
    simp only [lfnCount,lfnLength,lfnMaxEntries]
    omega
  obtain ⟨hne0,hneE,hseq,hflag⟩ := seqByte seq (by omega) h1
    (if seq = lfnCount leaf then 0x40#8 else 0#8) (by split_ifs <;> simp)
  rw [← hb] at hne0 hneE hseq hflag
  have hread : ∀ name, lfnRead (lfnEntry leaf (lfnLength leaf) (lfnCount leaf) sum seq) lfnOff
      ((seq-1)*13) name = fun p => if (seq-1)*13 ≤ p ∧ p < (seq-1)*13+13 ∧ p < lfnLength leaf ∧
        p < vfsNameMax-1 then leaf.getD p 0#8 else name p := by
    intro name
    rw [lfnEntry,lfnFillChunk,lfnRead_fill h0 (by rw [lfnLength]; omega) lfnOff_apart]
    rfl
  have hlast : lfnLength leaf ≤ lfnCount leaf*13 := by
    simp only [lfnCount]
    omega
  generalize lfnEntry leaf (lfnLength leaf) (lfnCount leaf) sum seq = raw at *
  have hscan : s.scan raw = (.skip,s.next raw) := by
    have hlfn : raw.isLfn = true := by
      rw [Slot.isLfn,hattr]
      decide
    rw [LfnScan.scan,Slot.isEnd,Slot.isDeleted,hlfn]
    simp only [decide_eq_true_eq,if_neg hne0,if_neg hneE,if_true]
  have hname : ∀ name, (∀ p, seq*13 ≤ p → p < lfnLength leaf → p < vfsNameMax-1 →
      name p = leaf.getD p 0#8) → (∀ p, ¬(seq*13 ≤ p ∧ p < lfnLength leaf ∧ p < vfsNameMax-1) →
      name p = 0#8) → lfnRead raw lfnOff ((seq-1)*13) name = (lfnPartial leaf sum (seq-1)).name := by
    intro name hin hout
    rw [hread]
    funext p
    simp only [lfnPartial]
    by_cases hp : (seq-1)*13 ≤ p ∧ p < lfnLength leaf ∧ p < vfsNameMax-1
    · rw [if_pos hp]
      by_cases hp2 : p < (seq-1)*13+13
      · rw [if_pos ⟨hp.1,hp2,hp.2⟩]
      · rw [if_neg (by tauto)]
        exact hin p (by omega) hp.2.1 hp.2.2
    · rw [if_neg hp,if_neg (by tauto)]
      exact hout p (fun hh => hp ⟨by omega,hh.2⟩)
  rw [hscan]
  by_cases hfirst : seq = lfnCount leaf
  · rw [if_pos hfirst] at hflag
    rw [LfnScan.next_first s (by rw [hflag]; decide) hseq h1 (by rw [lfnMaxEntries]; omega),hsum,
      hname]
    · rfl
    · intro p hp1 hp2
      omega
    · exact fun _ _ => rfl
  · obtain hs := hs.resolve_left hfirst
    rw [if_neg hfirst] at hflag
    rw [hs,LfnScan.next_more hflag hseq h1 (by rw [lfnMaxEntries]; omega) rfl rfl hsum,hsum,hname]
    · rfl
    · intro p hp1 hp2 hp3
      exact if_pos ⟨hp1,hp2,hp3⟩
    · exact fun p hp => if_neg hp

/-- Slots that all yield no entry, with the scanner's state before and after. -/
def LfnScan.Skips : LfnScan → List Slot → LfnScan → Prop
  | s,[],s' => s = s'
  | s,e::es,s' => ∃ t, s.scan e = (.skip,t) ∧ LfnScan.Skips t es s'

/-- The slots with sequence numbers `k` down to 1. -/
theorem lfnPartial_skips (h0 : 0#8 ∉ leaf) (sum : Byte) (k : Nat) (hk : k ≤ lfnCount leaf)
    (s : LfnScan) (hs : k = lfnCount leaf ∨ s = lfnPartial leaf sum k) :
    s.Skips ((List.range k).map (fun idx =>
      lfnEntry leaf (lfnLength leaf) (lfnCount leaf) sum (k-idx))) (lfnPartial leaf sum 0) := by
  induction k generalizing s with
  | zero =>
    refine hs.resolve_left (fun h => ?_)
    simp only [lfnCount] at h
    omega
  | succ k ih =>
    rw [List.range_succ_eq_map,List.map_cons,List.map_map]
    refine ⟨_,scan_lfnEntry h0 sum (k+1) (by omega) hk s hs,?_⟩
    have hrest : ((fun idx => lfnEntry leaf (lfnLength leaf) (lfnCount leaf) sum (k+1-idx)) ∘
        Nat.succ) = fun idx => lfnEntry leaf (lfnLength leaf) (lfnCount leaf) sum (k-idx) := by
      funext idx
      simp
    rw [hrest]
    exact ih (by omega) _ (Or.inr rfl)

/-- Whatever came before, the LFN slots of a name leave the scanner with all of it. -/
theorem lfnEntries_skips (h0 : 0#8 ∉ leaf) (sum : Byte) (s : LfnScan) :
    s.Skips (lfnEntries leaf sum) (lfnPartial leaf sum 0) :=
  lfnPartial_skips h0 sum (lfnCount leaf) le_rfl s (Or.inl rfl)

/-- A name shorter than the buffer comes out of it whole. -/
theorem lfnPartial_name (h0 : 0#8 ∉ leaf) (hlen : leaf.length < vfsNameMax) (sum : Byte) :
    cString vfsNameMax (lfnPartial leaf sum 0).name = leaf := by
  rw [vfsNameMax] at hlen
  have hmap : (List.range vfsNameMax).map (lfnPartial leaf sum 0).name =
      leaf++0#8::List.replicate (63-leaf.length) 0#8 := by
    apply List.ext_getElem
    · simp [vfsNameMax]
      omega
    · intro i h1 h2
      simp only [List.length_map,List.length_range,vfsNameMax] at h1
      rw [List.getElem_map,List.getElem_range]
      have hin : 0*13 ≤ i ∧ i < lfnLength leaf ∧ i < vfsNameMax-1 ↔ i < leaf.length := by
        simp only [lfnLength,lfnMaxEntries,vfsNameMax]
        omega
      simp only [lfnPartial]
      by_cases hi : i < leaf.length
      · rw [if_pos (hin.mpr hi),List.getElem_append_left hi,List.getD_eq_getElem?_getD,
          List.getElem?_eq_getElem hi,Option.getD_some]
      · rw [if_neg (fun hh => hi (hin.mp hh)),List.getElem_append_right (by omega)]
        simp only [← List.replicate_succ,List.getElem_replicate]
  have hall : ∀ c ∈ leaf, decide (c ≠ 0#8) = true := by
    intro c hc
    rw [decide_eq_true_eq]
    exact fun he => h0 (he ▸ hc)
  rw [cString,hmap,List.takeWhile_append_of_pos hall,List.takeWhile_cons_of_neg (by simp),
    List.append_nil]

/-- A list of known length, read off by position. -/
theorem ofFn_getD {n : Nat} {l : List Byte} (h : l.length = n) :
    List.ofFn (fun i : Fin n => l.getD i 0#8) = l := by
  subst h
  conv_rhs => rw [← @List.ofFn_getElem _ l]
  congr 1
  funext i
  rw [List.getD_eq_getElem?_getD,List.getElem?_eq_getElem i.isLt,Option.getD_some]

theorem short_dirEntry (s : ShortName) (attr : Byte) (cluster size : Nat) :
    (dirEntry s attr cluster size).short = s := by
  obtain ⟨n,x,hn,hx⟩ := s
  rw [Slot.short,ShortName.mk.injEq]
  constructor
  · refine Eq.trans ?_ (ofFn_getD hn)
    congr 1
    funext i
    simp [dirEntry]
  · refine Eq.trans ?_ (ofFn_getD hx)
    congr 1
    funext i
    have hi := i.isLt
    simp [dirEntry,show i.val+8 < 11 by omega]

theorem attr_dirEntry (s : ShortName) (attr : Byte) (cluster size : Nat) :
    (dirEntry s attr cluster size).attr = attr := rfl

theorem first_dirEntry (s : ShortName) (attr : Byte) (cluster size : Nat) :
    dirEntry s attr cluster size 0 = s.name8.getD 0 0#8 := rfl

end KiNBOL
