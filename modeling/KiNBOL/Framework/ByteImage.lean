import Mathlib.Data.BitVec
import Mathlib.Data.List.Pairwise
import Mathlib.Logic.Function.Basic

namespace KiNBOL

/-- Bytes by offset. -/
abbrev ByteImage := Nat → BitVec 8

def putBytes (img : ByteImage) : Nat → List (BitVec 8) → ByteImage
  | _,[] => img
  | off,b::bs => putBytes (Function.update img off b) (off+1) bs

/-- The bytes from an offset on. -/
def HoldsBytes (img : ByteImage) : Nat → List (BitVec 8) → Prop
  | _,[] => True
  | off,b::bs => img off = b ∧ HoldsBytes img (off+1) bs

/-- Pieces one below the other from `hi` down to `lo`, with nothing between. -/
def PlacedDown (img : ByteImage) : Nat → Nat → List (Nat × List (BitVec 8)) → Prop
  | hi,lo,[] => hi = lo
  | hi,lo,(off,bs)::l => off+bs.length = hi ∧ HoldsBytes img off bs ∧ PlacedDown img off lo l

/-- An image of some size as memory from an address on. -/
def window (base : BitVec 64) (size : Nat) (img : ByteImage) (a : BitVec 64) : Option (BitVec 8) :=
  if (a-base).toNat < size then some (img (a-base).toNat) else none

def readBytes (mem : BitVec 64 → Option (BitVec 8)) : Nat → BitVec 64 → Option (List (BitVec 8))
  | 0,_ => some []
  | n+1,a => do
    let b ← mem a
    let bs ← readBytes mem n (a+1#64)
    some (b::bs)

/-- The bytes up to a zero. -/
def readString (mem : BitVec 64 → Option (BitVec 8)) : Nat → BitVec 64 → Option (List (BitVec 8))
  | 0,_ => none
  | n+1,a => do
    let b ← mem a
    if b = 0#8 then some [] else (readString mem n (a+1#64)).map (b::·)

variable {img img' : ByteImage} {off hi lo size n : Nat} {bs cs : List (BitVec 8)}
  {base : BitVec 64} {l : List (Nat × List (BitVec 8))}

theorem putBytes_other {i : Nat} (h : i < off ∨ off+bs.length ≤ i) :
    putBytes img off bs i = img i := by
  induction bs generalizing img off with
  | nil => rfl
  | cons b bs ih =>
    rw [List.length_cons] at h
    rw [putBytes,ih (by omega),Function.update_of_ne (by omega)]

theorem putBytes_holds (img : ByteImage) (off : Nat) (bs : List (BitVec 8)) :
    HoldsBytes (putBytes img off bs) off bs := by
  induction bs generalizing img off with
  | nil => trivial
  | cons b bs ih =>
    refine ⟨?_,ih _ _⟩
    rw [putBytes,putBytes_other (Or.inl (Nat.lt_succ_self off)),Function.update_self]

theorem HoldsBytes.congr (h : HoldsBytes img off bs)
    (heq : ∀ i, off ≤ i → i < off+bs.length → img' i = img i) : HoldsBytes img' off bs := by
  induction bs generalizing off with
  | nil => trivial
  | cons b bs ih =>
    obtain ⟨h1,h2⟩ := h
    rw [List.length_cons] at heq
    refine ⟨?_,ih h2 (fun i hi hlt => heq i (by omega) (by omega))⟩
    rw [heq off (Nat.le_refl _) (by omega),h1]

theorem holds_append : HoldsBytes img off (bs++cs) ↔ HoldsBytes img off bs ∧ HoldsBytes img (off+bs.length) cs := by
  induction bs generalizing off with
  | nil => simp [HoldsBytes]
  | cons b bs ih =>
    rw [List.cons_append,HoldsBytes,HoldsBytes,ih,List.length_cons,and_assoc,Nat.add_right_comm,Nat.add_assoc]

theorem PlacedDown.le (h : PlacedDown img hi lo l) : lo ≤ hi := by
  induction l generalizing hi with
  | nil => exact Nat.le_of_eq h.symm
  | cons x l ih =>
    obtain ⟨h1,-,h3⟩ := h
    have := ih h3
    omega

theorem PlacedDown.mem (h : PlacedDown img hi lo l) {x : Nat × List (BitVec 8)} (hx : x ∈ l) :
    lo ≤ x.1 ∧ x.1+x.2.length ≤ hi ∧ HoldsBytes img x.1 x.2 := by
  induction l generalizing hi with
  | nil => cases hx
  | cons y l ih =>
    obtain ⟨h1,h2,h3⟩ := h
    have hle := h3.le
    rcases List.mem_cons.mp hx with rfl | hx
    · exact ⟨hle,h1.le,h2⟩
    · obtain ⟨g1,g2,g3⟩ := ih h3 hx
      exact ⟨g1,by omega,g3⟩

/-- Pieces that are placed do not overlap. -/
theorem PlacedDown.apart (h : PlacedDown img hi lo l) :
    l.Pairwise (fun x y => y.1+y.2.length ≤ x.1) := by
  induction l generalizing hi with
  | nil => exact List.Pairwise.nil
  | cons x l ih =>
    obtain ⟨-,-,h3⟩ := h
    exact List.pairwise_cons.mpr ⟨fun y hy => (h3.mem hy).2.1,ih h3⟩

theorem PlacedDown.congr (h : PlacedDown img hi lo l) (heq : ∀ i, lo ≤ i → i < hi → img' i = img i) :
    PlacedDown img' hi lo l := by
  induction l generalizing hi with
  | nil => exact h
  | cons x l ih =>
    obtain ⟨h1,h2,h3⟩ := h
    have hle := h3.le
    exact ⟨h1,h2.congr (fun i hi hlt => heq i (by omega) (by omega)),
      ih h3 (fun i hi hlt => heq i hi (by omega))⟩

/-- No wrap at the end of the address space. -/
theorem toNat_base_add (h : base.toNat+size ≤ 2^64) (hoff : off < size) :
    (base+BitVec.ofNat 64 off).toNat = base.toNat+off := by
  rw [BitVec.toNat_add,BitVec.toNat_ofNat,Nat.mod_eq_of_lt (show off < 2^64 by omega)]
  apply Nat.mod_eq_of_lt
  omega

theorem base_add_add (base : BitVec 64) (off n : Nat) :
    base+BitVec.ofNat 64 off+BitVec.ofNat 64 n = base+BitVec.ofNat 64 (off+n) := by
  rw [BitVec.add_assoc,← BitVec.ofNat_add]

theorem window_at (h : base.toNat+size ≤ 2^64) (hoff : off < size) :
    window base size img (base+BitVec.ofNat 64 off) = some (img off) := by
  have hsub : base+BitVec.ofNat 64 off-base = BitVec.ofNat 64 off := by
    rw [BitVec.add_comm,BitVec.add_sub_cancel]
  rw [window,hsub,BitVec.toNat_ofNat,Nat.mod_eq_of_lt (show off < 2^64 by omega),if_pos hoff]

theorem readBytes_window (h : base.toNat+size ≤ 2^64) (hbs : HoldsBytes img off bs)
    (hin : off+bs.length ≤ size) :
    readBytes (window base size img) bs.length (base+BitVec.ofNat 64 off) = some bs := by
  induction bs generalizing off with
  | nil => rfl
  | cons b bs ih =>
    obtain ⟨h1,h2⟩ := hbs
    rw [List.length_cons] at hin
    rw [List.length_cons,readBytes,window_at h (by omega),base_add_add,ih h2 (by omega),h1]
    rfl

theorem readString_window (h : base.toNat+size ≤ 2^64) (hbs : HoldsBytes img off (bs++[0#8]))
    (hz : 0#8 ∉ bs) (hin : off+bs.length+1 ≤ size) (hn : bs.length < n) :
    readString (window base size img) n (base+BitVec.ofNat 64 off) = some bs := by
  induction bs generalizing off n with
  | nil =>
    obtain ⟨n,rfl⟩ := Nat.exists_eq_succ_of_ne_zero (show n ≠ 0 by omega)
    rw [List.length_nil] at hin
    rw [readString,window_at h (by omega),hbs.1]
    rfl
  | cons b bs ih =>
    obtain ⟨n,rfl⟩ := Nat.exists_eq_succ_of_ne_zero (show n ≠ 0 by omega)
    obtain ⟨h1,h2⟩ := hbs
    rw [List.mem_cons,not_or] at hz
    obtain ⟨hb,hz'⟩ := hz
    rw [List.length_cons] at hin hn
    have hrec := ih h2 hz' (by omega) (n := n) (by omega)
    rw [readString,window_at h (by omega),h1,base_add_add,hrec]
    simp [Ne.symm hb]

end KiNBOL
