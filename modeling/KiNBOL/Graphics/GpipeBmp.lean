import KiNBOL.Graphics.GpipeDraw
import Mathlib.Data.List.Flatten

namespace KiNBOL

open GpipeCtx (leWord bmpRowSize)

/-- The sizes of a context, as `gpipe_init` takes them from any framebuffer. -/
structure ScreenSize where
  pw : Nat
  width : Nat
  height : Nat
  pw_lt : pw < 2^32
  width_lt : width < 2^32
  height_lt : height < 2^32

/-- An access of `gpipe_bmp_draw`: to a byte of `bmp_data`, or to a word of the back buffer. -/
inductive BmpAccess where
  | read (i : Nat)
  | write (k : Nat) (v : BitVec 32)

/-- A picture that passes the checks. -/
structure BmpImage (size : Nat) where
  w : Int
  h : Int
  topDown : Bool
  off : Nat
  w_pos : 0 < w
  w_lt : w < 2^31
  h_pos : 0 < h
  h_lt : h < 2^31
  off_lt : off < 2^32
  fits : ((off+bmpRowSize w*h)%2^64).toNat ≤ size

theorem leWord_lt (data : Nat → BitVec 8) (off n : Nat) : leWord data off n < 256^n := by
  induction n generalizing off with
  | zero => simp [leWord]
  | succ n ih =>
    have hb := (data off).isLt
    have hn := ih (off+1)
    rw [leWord,Nat.pow_succ]
    omega

/-- The checks of `gpipe_bmp_draw`. -/
def bmpOpen (data : Nat → BitVec 8) (size : Nat) : Except GpipeBmpStatus (BmpImage size) :=
  if size < 54 then .error .errTooSmall else
  if data 0 ≠ 66 ∨ data 1 ≠ 77 then .error .errBadMagic else
  let imgW := toInt32 (leWord data 18 4)
  let imgHRaw := toInt32 (leWord data 22 4)
  let bpp := leWord data 28 2
  let off := leWord data 10 4
  if bpp ≠ 24 then .error .errBadBpp else
  if hw : imgW ≤ 0 then .error .errBadMagic else
  let topDown := decide (imgHRaw < 0)
  let imgH := toInt32 (if topDown then -imgHRaw else imgHRaw)
  if hh : imgH ≤ 0 then .error .errBadMagic else
  if hn : ((off+bmpRowSize imgW*imgH)%2^64).toNat > size then .error .errOverflow else
  .ok ⟨imgW,imgH,topDown,off,Int.not_le.mp hw,(toInt32_fits _).2,Int.not_le.mp hh,
    (toInt32_fits _).2,leWord_lt data 10 4,Nat.not_lt.mp hn⟩

theorem bmpOpen_width {data : Nat → BitVec 8} {size : Nat} {img : BmpImage size}
    (h : bmpOpen data size = .ok img) : img.w = toInt32 (leWord data 18 4) := by
  simp only [bmpOpen] at h
  split_ifs at h <;> cases h <;> rfl

/-- What the checks read. -/
def headerReads (data : Nat → BitVec 8) (size : Nat) : List BmpAccess :=
  if size < 54 then [] else
  .read 0::if data 0 ≠ 66 then [] else
  .read 1::if data 1 ≠ 77 then [] else
  [18,19,20,21,22,23,24,25,28,29,10,11,12,13].map .read

namespace BmpImage

variable {size : Nat} (img : BmpImage size) (s : ScreenSize) (data : Nat → BitVec 8) (x y : Int)

/-- The row of the screen that a row of the picture comes to. -/
def screenRow (row : Int) : Int := toInt32 (y+if img.topDown then row else img.h-1-row)

/-- Where a byte of the picture is read, in the 64 bits of a pointer. -/
def byteAt (row cx k : Int) : Nat :=
  ((img.off+row*bmpRowSize img.w+toInt32 (cx*3+k))%2^64).toNat

/-- The word that a pixel is written to: `(uint32_t)py * ctx->pw + (uint32_t)px`. -/
def wordAt (px py : Int) : Nat := (toU32 py*s.pw+toU32 px)%2^32

/-- The pixel of the picture is drawn. -/
def Draws (row cx : Int) : Prop :=
  0 ≤ img.screenRow y row ∧ img.screenRow y row < toInt32 s.height ∧
    0 ≤ toInt32 (x+cx) ∧ toInt32 (x+cx) < toInt32 s.width

/-- The color of a pixel, from bytes in the order blue, green, red. -/
def color (row cx : Int) : BitVec 32 :=
  let src := fun k : Int => (data (img.byteAt row cx k)).toNat
  gpipeRgb (src 2) (src 1) (src 0)

def pixelAccesses (row cx : Int) : List BmpAccess :=
  let px := toInt32 (x+cx)
  if px < 0 ∨ px ≥ toInt32 s.width then [] else
  [.read (img.byteAt row cx 0),.read (img.byteAt row cx 1),.read (img.byteAt row cx 2),
    .write (wordAt s px (img.screenRow y row)) (img.color data row cx)]

/-- The two loops. -/
def accesses : List BmpAccess :=
  (intRange 0 img.h).flatMap fun row =>
    if img.screenRow y row < 0 ∨ img.screenRow y row ≥ toInt32 s.height then [] else
    (intRange 0 img.w).flatMap fun cx => img.pixelAccesses s data x y row cx

end BmpImage

/-- `gpipe_bmp_draw`: its result, and its accesses in order. -/
def bmpTrace (s : ScreenSize) (x y : Int) (data : Nat → BitVec 8) (size : Nat) :
    GpipeBmpStatus × List BmpAccess :=
  match bmpOpen data size with
  | .error e => (e,headerReads data size)
  | .ok img => (.ok,headerReads data size++img.accesses s data x y)

/-- The back buffer after these accesses. -/
def bmpStores (back : Nat → BitVec 32) (l : List BmpAccess) : Nat → BitVec 32 :=
  l.foldl (fun back a => match a with
    | .read _ => back
    | .write k v => Function.update back k v) back

/-- The word is that of a pixel of the screen. -/
def ScreenSize.HasWord (s : ScreenSize) (k : Nat) : Prop :=
  ∃ row, row < s.height ∧ ∃ col, col < s.width ∧ k = row*s.pw+col

/-- Reads stay in the data, writes on the screen, and a call that reports an error writes nothing. -/
structure BmpSafe (s : ScreenSize) (size : Nat) (r : GpipeBmpStatus × List BmpAccess) : Prop where
  reads : ∀ i, .read i ∈ r.2 → i < size
  writes : ∀ k v, .write k v ∈ r.2 → s.HasWord k
  refused : r.1 ≠ .ok → ∀ back, bmpStores back r.2 = back

/-- The rows are not too wide for their 32-bit size, or what is drawn of them happens to lie in the
data; and the pixels have 32-bit numbers, or those drawn happen to wrap to the screen. -/
def BmpImage.Tame {size : Nat} (img : BmpImage size) (s : ScreenSize) (x y : Int) : Prop :=
  (img.w*3+3 < 2^31 ∨ ∀ row cx, 0 ≤ row → row < img.h → 0 ≤ cx → cx < img.w →
    img.Draws s x y row cx → ∀ k, 0 ≤ k → k < 3 → img.byteAt row cx k < size) ∧
  ((s.height-1)*s.pw+s.width ≤ 2^32 ∨ ∀ row cx, 0 ≤ row → row < img.h → 0 ≤ cx → cx < img.w →
    img.Draws s x y row cx → s.HasWord (BmpImage.wordAt s (toInt32 (x+cx)) (img.screenRow y row)))

namespace BmpImage

variable {size : Nat} {img : BmpImage size} {s : ScreenSize} {data : Nat → BitVec 8} {x y : Int}

/-- The accesses are those to the bytes and to the word of each pixel drawn. -/
theorem mem_accesses {a : BmpAccess} : a ∈ img.accesses s data x y ↔
    ∃ row cx, (0 ≤ row ∧ row < img.h) ∧ (0 ≤ cx ∧ cx < img.w) ∧ img.Draws s x y row cx ∧
      ((∃ k, 0 ≤ k ∧ k < 3 ∧ a = .read (img.byteAt row cx k)) ∨
        a = .write (wordAt s (toInt32 (x+cx)) (img.screenRow y row)) (img.color data row cx)) := by
  simp only [accesses,List.mem_flatMap,mem_intRange]
  constructor
  · intro h
    obtain ⟨row,hrow,h⟩ := h
    split_ifs at h with hpy
    · cases h
    obtain ⟨cx,hcx,h⟩ := List.mem_flatMap.mp h
    rw [pixelAccesses] at h
    split_ifs at h with hpx
    · cases h
    refine ⟨row,cx,hrow,mem_intRange.mp hcx,⟨by omega,by omega,by omega,by omega⟩,?_⟩
    simp only [List.mem_cons,List.not_mem_nil,or_false] at h
    rcases h with rfl | rfl | rfl | rfl
    · exact Or.inl ⟨0,by decide,by decide,rfl⟩
    · exact Or.inl ⟨1,by decide,by decide,rfl⟩
    · exact Or.inl ⟨2,by decide,by decide,rfl⟩
    · exact Or.inr rfl
  · intro h
    obtain ⟨row,cx,hrow,hcx,⟨hy0,hy1,hx0,hx1⟩,h⟩ := h
    refine ⟨row,hrow,?_⟩
    rw [if_neg (by omega),List.mem_flatMap]
    refine ⟨cx,mem_intRange.mpr hcx,?_⟩
    rw [pixelAccesses]
    rw [if_neg (by omega)]
    rcases h with ⟨k,hk0,hk3,rfl⟩ | rfl
    · have hk : k = 0 ∨ k = 1 ∨ k = 2 := by omega
      rcases hk with rfl | rfl | rfl <;> simp
    · simp

/-- Rows whose size fits 32 bits are read inside the data. -/
theorem byteAt_lt (hnarrow : img.w*3+3 < 2^31) {row cx k : Int} (hr : 0 ≤ row) (hrow : row < img.h)
    (hc : 0 ≤ cx) (hcx : cx < img.w) (hk : 0 ≤ k) (hk3 : k < 3) : img.byteAt row cx k < size := by
  have hsize : bmpRowSize img.w = (img.w*3+3)/4*4 := by
    have := img.w_pos
    rw [bmpRowSize,toInt32_of_fits (by omega) (by omega)]
  have hfits := img.fits
  have hoff := img.off_lt
  have hpos := img.w_pos
  have hh := img.h_lt
  rw [byteAt,toInt32_of_fits (by omega) (by omega)]
  generalize hR : bmpRowSize img.w = R at hsize hfits ⊢
  have hrows : (row+1)*R ≤ img.h*R := Int.mul_le_mul_of_nonneg_right (by omega) (by omega)
  have hmore : img.h*R ≤ 2^31*2^31 := Int.mul_le_mul (by omega) (by omega) (by omega) (by omega)
  have hfirst : 0 ≤ row*R := Int.mul_nonneg hr (by omega)
  rw [Int.add_mul,Int.one_mul] at hrows
  rw [Int.mul_comm R] at hfits
  generalize img.h*R = total at hrows hmore hfits
  generalize row*R = start at hrows hfirst
  rw [Int.emod_eq_of_lt (by omega) (by omega)] at hfits ⊢
  omega

/-- Pixels with 32-bit numbers have their own words. -/
theorem wordAt_screen (hsmall : (s.height-1)*s.pw+s.width ≤ 2^32) {row cx : Int}
    (hd : img.Draws s x y row cx) :
    s.HasWord (wordAt s (toInt32 (x+cx)) (img.screenRow y row)) := by
  obtain ⟨hy0,hy1,hx0,hx1⟩ := hd
  have hw := s.width_lt
  have hh := s.height_lt
  generalize img.screenRow y row = py at hy0 hy1 ⊢
  generalize toInt32 (x+cx) = px at hx0 hx1 ⊢
  have hint : ∀ n : Nat, n < 2^32 → toInt32 n ≤ n := by
    intro n hn
    rw [toInt32_eq,Int.bmod_def]
    omega
  have hheight := hint _ hh
  have hwidth := hint _ hw
  have hcol : toU32 px < s.width := by
    rw [toU32]
    omega
  have hrow : toU32 py < s.height := by
    rw [toU32]
    omega
  have hmul : toU32 py*s.pw ≤ (s.height-1)*s.pw := Nat.mul_le_mul_right _ (by omega)
  refine ⟨toU32 py,hrow,toU32 px,hcol,?_⟩
  rw [wordAt,Nat.mod_eq_of_lt (by omega)]

end BmpImage

theorem mem_headerReads {data : Nat → BitVec 8} {size : Nat} {a : BmpAccess}
    (h : a ∈ headerReads data size) : ∃ i, a = .read i ∧ i < size := by
  rw [headerReads] at h
  split_ifs at h with hsize h0 h1
  · cases h
  all_goals
    simp only [List.mem_cons,List.mem_map,List.not_mem_nil,or_false] at h
  · exact ⟨0,h,by omega⟩
  · rcases h with rfl | rfl
    · exact ⟨0,rfl,by omega⟩
    · exact ⟨1,rfl,by omega⟩
  · rcases h with rfl | rfl | ⟨i,hi,rfl⟩
    · exact ⟨0,rfl,by omega⟩
    · exact ⟨1,rfl,by omega⟩
    · exact ⟨i,rfl,by omega⟩

theorem bmpStores_reads {l : List BmpAccess} (h : ∀ a ∈ l, ∃ i, a = .read i)
    (back : Nat → BitVec 32) : bmpStores back l = back := by
  induction l with
  | nil => rfl
  | cons a l ih =>
    obtain ⟨i,rfl⟩ := h a (by simp)
    exact ih fun a ha => h a (by simp [ha])

/-- Data that are refused are read inside, and nothing is written. -/
theorem refused_safe {s : ScreenSize} {data : Nat → BitVec 8} {size : Nat} {e : GpipeBmpStatus} :
    BmpSafe s size (e,headerReads data size) := by
  refine ⟨fun i hi => ?_,fun k v hk => ?_,fun _ back => ?_⟩
  · obtain ⟨j,hj,hlt⟩ := mem_headerReads hi
    cases hj
    exact hlt
  · obtain ⟨j,hj,-⟩ := mem_headerReads hk
    cases hj
  · apply bmpStores_reads
    intro a ha
    obtain ⟨j,hj,-⟩ := mem_headerReads ha
    exact ⟨j,hj⟩

/-- A tame picture is drawn inside its data and the screen. -/
theorem BmpImage.Tame.safe {size : Nat} {img : BmpImage size} {s : ScreenSize} {x y : Int}
    {data : Nat → BitVec 8} (htame : img.Tame s x y) :
    BmpSafe s size (.ok,headerReads data size++img.accesses s data x y) := by
  obtain ⟨hbytes,hwords⟩ := htame
  refine ⟨fun i hi => ?_,fun k v hk => ?_,fun hne => absurd rfl hne⟩
  · rcases List.mem_append.mp hi with hi | hi
    · obtain ⟨j,hj,hlt⟩ := mem_headerReads hi
      cases hj
      exact hlt
    obtain ⟨row,cx,⟨hr,hrow⟩,⟨hc,hcx⟩,hd,h⟩ := mem_accesses.mp hi
    rcases h with ⟨k,hk,hk3,he⟩ | he
    · cases he
      rcases hbytes with hnarrow | hbytes
      · exact byteAt_lt hnarrow hr hrow hc hcx hk hk3
      · exact hbytes row cx hr hrow hc hcx hd k hk hk3
    · cases he
  · rcases List.mem_append.mp hk with hk | hk
    · obtain ⟨j,hj,-⟩ := mem_headerReads hk
      cases hj
    obtain ⟨row,cx,⟨hr,hrow⟩,⟨hc,hcx⟩,hd,h⟩ := mem_accesses.mp hk
    rcases h with ⟨j,-,-,he⟩ | he
    · cases he
    · cases he
      rcases hwords with hsmall | hwords
      · exact wordAt_screen hsmall hd
      · exact hwords row cx hr hrow hc hcx hd

/-- Drawing a bitmap is safe just for the data that are refused and for tame pictures. -/
theorem bmp_safe_iff (s : ScreenSize) (x y : Int) (data : Nat → BitVec 8) (size : Nat) :
    BmpSafe s size (bmpTrace s x y data size) ↔
      ∀ img, bmpOpen data size = .ok img → img.Tame s x y := by
  rw [bmpTrace]
  cases hopen : bmpOpen data size with
  | error e =>
    refine ⟨fun _ img he => ?_,fun _ => refused_safe⟩
    cases he
  | ok img =>
    constructor
    · intro hsafe img' he
      obtain rfl : img = img' := Except.ok.inj he
      refine ⟨Or.inr ?_,Or.inr ?_⟩
      · intro row cx hr hrow hc hcx hd k hk hk3
        apply hsafe.reads
        apply List.mem_append_right
        exact BmpImage.mem_accesses.mpr
          ⟨row,cx,⟨hr,hrow⟩,⟨hc,hcx⟩,hd,Or.inl ⟨k,hk,hk3,rfl⟩⟩
      · intro row cx hr hrow hc hcx hd
        apply hsafe.writes
        apply List.mem_append_right
        exact BmpImage.mem_accesses.mpr ⟨row,cx,⟨hr,hrow⟩,⟨hc,hcx⟩,hd,Or.inr rfl⟩
    · intro htame
      exact (htame img rfl).safe

/-- Drawing is safe on a screen whose words have 32-bit numbers, for a width whose row size is an
`int` value. -/
theorem bmp_safe_of_bounds {s : ScreenSize} {x y : Int} {data : Nat → BitVec 8} {size : Nat}
    (hscreen : (s.height-1)*s.pw+s.width ≤ 2^32) (hwidth : toInt32 (leWord data 18 4) ≤ 715827881) :
    BmpSafe s size (bmpTrace s x y data size) := by
  rw [bmpTrace]
  cases hopen : bmpOpen data size with
  | error e => exact refused_safe
  | ok img =>
    have hw := bmpOpen_width hopen
    have htame : img.Tame s x y := ⟨Or.inl (by omega),Or.inl hscreen⟩
    exact htame.safe

/-- A file of 58 bytes that says it is 1431655766 pixels wide: 3 times that is 2 in 32 bits, and the
size of a row 4. -/
def wideBmp (i : Nat) : BitVec 8 :=
  ([66,77,58,0,0,0,0,0,0,0,54,0,0,0,40,0,0,0,0x56,0x55,0x55,0x55,1,0,0,0,1,0,24] :
    List (BitVec 8)).getD i 0

def wideImage : BmpImage 58 :=
  ⟨1431655766,1,false,54,by decide,by decide,by decide,by decide,by decide,by decide⟩

theorem bmpOpen_wide : bmpOpen wideBmp 58 = .ok wideImage := rfl

/-- Of the second pixel the byte 58 is read, which is behind the data. -/
theorem bmp_reads_behind :
    ¬BmpSafe ⟨800,800,600,by decide,by decide,by decide⟩ 58
      (bmpTrace ⟨800,800,600,by decide,by decide,by decide⟩ 0 0 wideBmp 58) := by
  intro hsafe
  have hread := hsafe.reads (wideImage.byteAt 0 1 1)
  rw [bmpTrace,bmpOpen_wide] at hread
  have hlt := hread (List.mem_append_right _ (BmpImage.mem_accesses.mpr
    ⟨0,1,by decide,by decide,⟨by decide,by decide,by decide,by decide⟩,
      Or.inl ⟨1,by decide,by decide,rfl⟩⟩))
  exact absurd hlt (by decide)

/-! ## The context -/

section Context

variable {m : GpipeMode} {s : ScreenSize} {data : Nat → BitVec 8} {size : Nat} {x y : Int}

theorem bmpStores_append (back : Nat → BitVec 32) (l l' : List BmpAccess) :
    bmpStores back (l++l') = bmpStores (bmpStores back l) l' := by
  rw [bmpStores,List.foldl_append,bmpStores,bmpStores]

theorem bmpStores_flatMap {α : Type*} (l : List α) (f : α → List BmpAccess)
    (back : Nat → BitVec 32) :
    bmpStores back (l.flatMap f) = l.foldl (fun back a => bmpStores back (f a)) back := by
  rw [bmpStores,List.foldl_flatMap]
  rfl

/-- On a screen whose coordinates are `int` values a wrapped sum is visible just if it is the sum. -/
theorem offscreen_iff {v : Int} {i : Int} {n : Nat} (hv : FitsInt v) (hi : 0 ≤ i) (hi' : i < 2^31)
    (hn : n < 2^31) : (toInt32 (v+i) < 0 ∨ toInt32 (v+i) ≥ toInt32 n ↔ v+i < 0 ∨ v+i ≥ n) ∧
      (¬(v+i < 0 ∨ v+i ≥ n) → toInt32 (v+i) = v+i) := by
  obtain ⟨hlo,hhi⟩ := hv
  rw [@toInt32_of_fits n (by omega) (by omega)]
  by_cases hfits : v+i < 2^31
  · rw [toInt32_of_fits (by omega) hfits]
    exact ⟨Iff.rfl,fun _ => rfl⟩
  · have hwrap : toInt32 (v+i) < 0 := by
      rw [toInt32_eq,Int.bmod_def]
      omega
    exact ⟨⟨fun _ => Or.inr (by omega),fun _ => Or.inl hwrap⟩,fun h => absurd h (by omega)⟩

theorem foldl_back {α : Type*} {l : List α} {f : GpipeCtx m → α → GpipeCtx m}
    {g : (Nat → BitVec 32) → α → Nat → BitVec 32}
    (h : ∀ a ∈ l, ∀ c, g c.back a = (f c a).back) (c : GpipeCtx m) :
    l.foldl g c.back = (l.foldl f c).back := by
  induction l generalizing c with
  | nil => rfl
  | cons a l ih =>
    rw [List.foldl_cons,List.foldl_cons,h a (by simp)]
    exact ih (fun a ha => h a (by simp [ha])) _

/-- The accesses of a picture change the back buffer as the loops of `bmpDraw` do. -/
theorem accesses_back (img : BmpImage size) (hpw : s.pw = m.pw) (hw : s.width = m.width)
    (hh : s.height = m.height) (hx : FitsInt x) (hy : FitsInt y) (c : GpipeCtx m) :
    bmpStores c.back (img.accesses s data x y) =
      ((intRange 0 img.h).foldl (fun c row =>
        if y+(if img.topDown then row else img.h-1-row) < 0 ∨
          y+(if img.topDown then row else img.h-1-row) ≥ m.height then c else
        (intRange 0 img.w).foldl (fun c cx =>
          if x+cx < 0 ∨ x+cx ≥ m.width then c else
          c.store (GpipeCtx.word m (x+cx) (y+if img.topDown then row else img.h-1-row))
            (img.color data row cx)) c) c).back := by
  rw [BmpImage.accesses,bmpStores_flatMap]
  apply foldl_back
  intro row hrow c
  rw [mem_intRange] at hrow
  have hdst : 0 ≤ (if img.topDown then row else img.h-1-row) ∧
      (if img.topDown then row else img.h-1-row) < img.h := by
    split_ifs <;> omega
  have hheight := m.height_lt
  have hwidth := m.width_lt
  have himgh := img.h_lt
  have himgw := img.w_lt
  obtain ⟨hiff,hsame⟩ := @offscreen_iff y _ s.height hy hdst.1 (by omega) (by omega)
  rw [hh] at hiff hsame
  simp only [BmpImage.screenRow,hh,hiff]
  by_cases hpy : y+(if img.topDown then row else img.h-1-row) < 0 ∨
      y+(if img.topDown then row else img.h-1-row) ≥ m.height
  · rw [if_pos hpy,if_pos hpy]
    rfl
  rw [if_neg hpy,if_neg hpy,bmpStores_flatMap]
  apply foldl_back
  intro cx hcx c
  rw [mem_intRange] at hcx
  obtain ⟨hiffx,hsamex⟩ := @offscreen_iff x cx s.width hx hcx.1 (by omega) (by omega)
  rw [hw] at hiffx hsamex
  rw [BmpImage.pixelAccesses,hw]
  simp only [hiffx]
  by_cases hpx : x+cx < 0 ∨ x+cx ≥ m.width
  · rw [if_pos hpx,if_pos hpx]
    rfl
  · rw [if_neg hpx,if_neg hpx,hsamex hpx,BmpImage.screenRow,hsame hpy,BmpImage.wordAt,hpw]
    rfl

/-- The trace is that of `bmpDraw`: the same result and the same back buffer. -/
theorem bmpDraw_trace (hpw : s.pw = m.pw) (hw : s.width = m.width) (hh : s.height = m.height)
    (hx : FitsInt x) (hy : FitsInt y) (c : GpipeCtx m) :
    (c.bmpDraw x y data size).1 = (bmpTrace s x y data size).1 ∧
    (c.bmpDraw x y data size).2.back = bmpStores c.back (bmpTrace s x y data size).2 := by
  have hhead : bmpStores c.back (headerReads data size) = c.back := by
    apply bmpStores_reads
    intro a ha
    obtain ⟨i,hi,-⟩ := mem_headerReads ha
    exact ⟨i,hi⟩
  rw [GpipeCtx.bmpDraw,bmpTrace,bmpOpen]
  by_cases h1 : size < 54
  · simp only [if_pos h1,hhead,and_self]
  by_cases h2 : data 0 ≠ 66 ∨ data 1 ≠ 77
  · simp only [if_neg h1,if_pos h2,hhead,and_self]
  by_cases h3 : leWord data 28 2 ≠ 24
  · simp only [if_neg h1,if_neg h2,if_pos h3,hhead,and_self]
  by_cases h4 : toInt32 (leWord data 18 4) ≤ 0
  · simp only [if_neg h1,if_neg h2,if_neg h3,dif_pos h4,if_pos h4,hhead,and_self]
  simp only [if_neg h1,if_neg h2,if_neg h3,dif_neg h4,if_neg h4]
  have hneg : toInt32 (if decide (toInt32 (leWord data 22 4) < 0) = true then
      -toInt32 (leWord data 22 4) else toInt32 (leWord data 22 4)) =
      if decide (toInt32 (leWord data 22 4) < 0) = true then toInt32 (-toInt32 (leWord data 22 4))
      else toInt32 (leWord data 22 4) := by
    have hraw := toInt32_fits (leWord data 22 4)
    split_ifs
    · rfl
    · exact toInt32_of_fits hraw.1 hraw.2
  simp only [hneg]
  by_cases h5 : (if decide (toInt32 (leWord data 22 4) < 0) = true then
      toInt32 (-toInt32 (leWord data 22 4)) else toInt32 (leWord data 22 4)) ≤ 0
  · simp only [if_pos h5,dif_pos h5,hhead,and_self]
  simp only [if_neg h5,dif_neg h5]
  generalize hH : (if decide (toInt32 (leWord data 22 4) < 0) = true then
    toInt32 (-toInt32 (leWord data 22 4)) else toInt32 (leWord data 22 4)) = imgH at *
  by_cases h6 : (((leWord data 10 4 : Nat)+bmpRowSize (toInt32 (leWord data 18 4))*imgH)%2^64).toNat
      > size
  · simp only [if_pos h6,dif_pos h6,hhead,and_self]
  simp only [if_neg h6,dif_neg h6,GpipeCtx.markDirty_back,true_and]
  rw [bmpStores_append,hhead,accesses_back _ hpw hw hh hx hy]
  rfl

end Context

end KiNBOL
