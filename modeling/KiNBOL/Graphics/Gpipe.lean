import Mathlib.Data.BitVec
import Mathlib.Logic.Function.Basic

namespace KiNBOL

/-- What `gpipe_init` keeps of the framebuffer: words and visible pixels in a row, and rows. Signed
coordinates reach all of it and 32-bit pixel numbers do not wrap. -/
structure GpipeMode where
  pw : Nat
  width : Nat
  height : Nat
  width_le : width ≤ pw
  width_lt : width < 2^31
  height_lt : height < 2^31
  size_lt : pw*height < 2^32

structure GpipeRect where
  x : Int
  y : Int
  w : Int
  h : Int
  deriving DecidableEq, Repr

/-- A context of this mode: the words of the framebuffer, those of the back buffer, and `dirty`. -/
structure GpipeCtx (m : GpipeMode) where
  fb : Nat → BitVec 32
  back : Nat → BitVec 32
  dirty : GpipeRect

/-- The cast of an `int` to 32 unsigned bits. -/
def toU32 (x : Int) : Nat := (x%2^32).toNat

/-- `for (int i = lo; i < hi; i++)`. -/
def intRange (lo hi : Int) : List Int := (List.range (hi-lo).toNat).map (fun (i : Nat) => lo+i)

theorem mem_intRange {lo hi i : Int} : i ∈ intRange lo hi ↔ lo ≤ i ∧ i < hi := by
  simp only [intRange,List.mem_map,List.mem_range]
  constructor
  · rintro ⟨k,hk,rfl⟩
    omega
  · intro h
    exact ⟨(i-lo).toNat,by omega,by omega⟩

def iclamp (v lo hi : Int) : Int :=
  if v < lo then lo else if v > hi then hi else v

namespace GpipeCtx

variable {m : GpipeMode}

/-- `(uint32_t)y * ctx->pw + (uint32_t)x`. -/
def word (m : GpipeMode) (x y : Int) : Nat := (toU32 y*m.pw+toU32 x)%2^32

def store (c : GpipeCtx m) (k : Nat) (v : BitVec 32) : GpipeCtx m :=
  { c with back := Function.update c.back k v }

def markDirty (c : GpipeCtx m) (x y w h : Int) : GpipeCtx m :=
  if w ≤ 0 ∨ h ≤ 0 then c else
  let x0 := iclamp x 0 m.width
  let y0 := iclamp y 0 m.height
  let x1 := iclamp (x+w) 0 m.width
  let y1 := iclamp (y+h) 0 m.height
  if x1 ≤ x0 ∨ y1 ≤ y0 then c else
  if c.dirty.w = 0 ∨ c.dirty.h = 0 then { c with dirty := ⟨x0,y0,x1-x0,y1-y0⟩ } else
  let dx0 := if x0 < c.dirty.x then x0 else c.dirty.x
  let dy0 := if y0 < c.dirty.y then y0 else c.dirty.y
  let dx1 := if x1 > c.dirty.x+c.dirty.w then x1 else c.dirty.x+c.dirty.w
  let dy1 := if y1 > c.dirty.y+c.dirty.h then y1 else c.dirty.y+c.dirty.h
  { c with dirty := ⟨dx0,dy0,dx1-dx0,dy1-dy0⟩ }

def copyWord (c : GpipeCtx m) (k : Nat) : GpipeCtx m :=
  { c with fb := Function.update c.fb k (c.back k) }

/-- `gpipe_copy_row`; both buffers are read and written from the same word on. -/
def copyRow (c : GpipeCtx m) (start pixels : Nat) : GpipeCtx m :=
  (List.range pixels).foldl (fun c i => c.copyWord (start+i)) c

/-- Where row `row` of a rectangle from column `x` on starts: `(uint32_t)row * ctx->pw + x`. -/
def rowStart (m : GpipeMode) (x row : Int) : Nat := (((toU32 row*m.pw)%2^32 : Nat)+x).toNat

def flipRect (c : GpipeCtx m) (x y w h : Int) : GpipeCtx m :=
  (intRange y (y+h)).foldl (fun c row => c.copyRow (rowStart m x row) w.toNat) c

def present (c : GpipeCtx m) : GpipeCtx m :=
  if c.dirty.w ≤ 0 ∨ c.dirty.h ≤ 0 then c else
  { c.flipRect c.dirty.x c.dirty.y c.dirty.w c.dirty.h with dirty := ⟨0,0,0,0⟩ }

/-- `gpipe_take_dirty`; `none` is `false`. -/
def takeDirty (c : GpipeCtx m) : Option (GpipeRect × GpipeCtx m) :=
  if c.dirty.w ≤ 0 ∨ c.dirty.h ≤ 0 then none else some (c.dirty,{ c with dirty := ⟨0,0,0,0⟩ })

def presentRect (c : GpipeCtx m) (r : GpipeRect) : GpipeCtx m :=
  if r.w ≤ 0 ∨ r.h ≤ 0 then c else c.flipRect r.x r.y r.w r.h

end GpipeCtx

/-! ## Pixels and rectangles -/

/-- The pixel is one of the screen's. -/
def GpipeMode.Visible (m : GpipeMode) (p : Int × Int) : Prop :=
  0 ≤ p.1 ∧ p.1 < m.width ∧ 0 ≤ p.2 ∧ p.2 < m.height

instance (m : GpipeMode) (p : Int × Int) : Decidable (m.Visible p) := by
  unfold GpipeMode.Visible
  infer_instance

/-- The pixel lies in the rectangle. -/
def GpipeRect.Has (r : GpipeRect) (p : Int × Int) : Prop :=
  r.x ≤ p.1 ∧ p.1 < r.x+r.w ∧ r.y ≤ p.2 ∧ p.2 < r.y+r.h

instance (r : GpipeRect) (p : Int × Int) : Decidable (r.Has p) := by
  unfold GpipeRect.Has
  infer_instance

theorem toU32_of_nonneg {x : Int} (h0 : 0 ≤ x) (h : x < 2^32) : (toU32 x : Int) = x := by
  unfold toU32
  omega

/-- The unsigned comparison of the source is the two-sided one. -/
theorem toU32_ge_iff {x : Int} {n : Nat} (hlo : -2^31 ≤ x) (hhi : x < 2^31) (hn : n < 2^31) :
    toU32 x ≥ n ↔ ¬ (0 ≤ x ∧ x < n) := by
  unfold toU32
  omega

namespace GpipeCtx

variable {m : GpipeMode} {p q : Int × Int} {x : Int}

theorem row_bound (h : m.Visible p) : toU32 p.2*m.pw+toU32 p.1 < m.pw*m.height ∧
    toU32 p.1 < m.pw := by
  obtain ⟨hx,hxw,hy,hyh⟩ := h
  have hw := m.width_lt
  have hh := m.height_lt
  have hle := m.width_le
  have h1 := toU32_of_nonneg hx (by omega)
  have h2 := toU32_of_nonneg hy (by omega)
  have hcol : toU32 p.1 < m.pw := by omega
  have hrow : toU32 p.2+1 ≤ m.height := by omega
  have hmul : m.pw*(toU32 p.2+1) ≤ m.pw*m.height := Nat.mul_le_mul_left _ hrow
  rw [Nat.mul_add,Nat.mul_one,Nat.mul_comm m.pw] at hmul
  exact ⟨by omega,hcol⟩

theorem word_eq (h : m.Visible p) : word m p.1 p.2 = toU32 p.2*m.pw+toU32 p.1 :=
  Nat.mod_eq_of_lt (Nat.lt_trans (row_bound h).1 m.size_lt)

/-- Two pixels of the screen are two words. -/
theorem word_inj (hp : m.Visible p) (hq : m.Visible q)
    (he : word m p.1 p.2 = word m q.1 q.2) : p = q := by
  rw [word_eq hp,word_eq hq] at he
  have hpc := (row_bound hp).2
  have hqc := (row_bound hq).2
  have hcol : toU32 p.1 = toU32 q.1 := by
    have := congrArg (·%m.pw) he
    simpa [Nat.add_mod,Nat.mod_eq_of_lt hpc,Nat.mod_eq_of_lt hqc] using this
  have hrow : toU32 p.2 = toU32 q.2 := by
    rw [hcol] at he
    exact Nat.eq_of_mul_eq_mul_right (by omega) (Nat.add_right_cancel he)
  have hw := m.width_lt
  have hh := m.height_lt
  obtain ⟨hx,hxw,hy,hyh⟩ := hp
  obtain ⟨hx',hxw',hy',hyh'⟩ := hq
  have h1 := toU32_of_nonneg hx (by omega)
  have h2 := toU32_of_nonneg hy (by omega)
  have h3 := toU32_of_nonneg hx' (by omega)
  have h4 := toU32_of_nonneg hy' (by omega)
  exact Prod.ext (by omega) (by omega)

/-- Along a row the words follow each other. -/
theorem word_add {y : Int} {col : Nat} (hp : m.Visible (x,y)) (hq : m.Visible (x+col,y)) :
    word m x y+col = word m (x+col) y := by
  have hx := word_eq hp
  have hy := word_eq hq
  have h1 := toU32_of_nonneg hp.1 (by have := hp.2.1; have := m.width_lt; omega)
  have h2 := toU32_of_nonneg hq.1 (by have := hq.2.1; have := m.width_lt; omega)
  dsimp only at *
  omega

theorem rowStart_add (h : m.Visible p) (hx : x ≤ p.1) (hx0 : 0 ≤ x) :
    rowStart m x p.2+(p.1-x).toNat = word m p.1 p.2 := by
  have hrow : toU32 p.2*m.pw < 2^32 := by
    have := (row_bound h).1
    have := m.size_lt
    omega
  obtain ⟨hx1,hxw,-,-⟩ := id h
  have hw := m.width_lt
  have h1 := toU32_of_nonneg hx1 (by omega)
  rw [word_eq h]
  unfold rowStart
  rw [Nat.mod_eq_of_lt hrow]
  omega

end GpipeCtx

end KiNBOL
