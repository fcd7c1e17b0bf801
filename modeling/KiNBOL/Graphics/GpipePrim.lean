import KiNBOL.Framework.Int32
import KiNBOL.Graphics.Gpipe

namespace KiNBOL

def gpipeTextTransparent : BitVec 32 := 0xFF000001#32

inductive GpipeBmpStatus where
  | ok | errNoCtx | errTooSmall | errBadMagic | errBadBpp | errOverflow
  deriving DecidableEq, Repr

/-- The byte of a pixel `shift` bits up: `(v >> shift) & 0xFF`. -/
def channel (v : BitVec 32) (shift : Nat) : Nat := (v.toNat/2^shift)%256

def gpipeRgb (r g b : Nat) : BitVec 32 :=
  (BitVec.ofNat 32 r <<< 16) ||| (BitVec.ofNat 32 g <<< 8) ||| BitVec.ofNat 32 b

/-- One channel of `fg` over `bg` with weight `a` of 255. -/
def mixChannel (fg bg a : Nat) : Nat := (fg*a+bg*(255-a))/255

def blendPx (bgc fgc : BitVec 32) (a : BitVec 8) : BitVec 32 :=
  if a = 0 then bgc else if a = 255 then fgc else
  gpipeRgb (mixChannel (channel fgc 16) (channel bgc 16) a.toNat)
    (mixChannel (channel fgc 8) (channel bgc 8) a.toNat)
    (mixChannel (channel fgc 0) (channel bgc 0) a.toNat)

/-- What text is drawn with: the cells that `font_ttf.c` has rasterised. -/
structure FontTtf where
  ready : Bool
  uiCellW : Nat
  uiCellH : Nat
  /-- coverage by character, row and column -/
  uiGlyphRow : BitVec 8 → Nat → Nat → BitVec 8

namespace GpipeCtx

variable {m : GpipeMode}

def clipRect (m : GpipeMode) (x y w h : Int) : Option GpipeRect :=
  if w ≤ 0 ∨ h ≤ 0 then none else
  let x0 := iclamp x 0 m.width
  let y0 := iclamp y 0 m.height
  let x1 := iclamp (x+w) 0 m.width
  let y1 := iclamp (y+h) 0 m.height
  if x1 ≤ x0 ∨ y1 ≤ y0 then none else some ⟨x0,y0,x1-x0,y1-y0⟩

def pixel (c : GpipeCtx m) (x y : Int) (color : BitVec 32) : GpipeCtx m :=
  if toU32 x ≥ m.width ∨ toU32 y ≥ m.height then c else
  (c.store (word m x y) color).markDirty x y 1 1

def pixelBlend (c : GpipeCtx m) (x y : Int) (src : BitVec 32) : GpipeCtx m :=
  if toU32 x ≥ m.width ∨ toU32 y ≥ m.height then c else
  let dst := c.back (word m x y)
  let sa := channel src 24
  let r := mixChannel (channel src 16) (channel dst 16) sa%256
  let g := mixChannel (channel src 8) (channel dst 8) sa%256
  let b := mixChannel (channel src 0) (channel dst 0) sa%256
  (c.store (word m x y) (gpipeRgb r g b)).markDirty x y 1 1

def clear (c : GpipeCtx m) (color : BitVec 32) : GpipeCtx m :=
  ((List.range m.height).foldl (fun c (y : Nat) =>
    (List.range m.pw).foldl (fun c (x : Nat) => c.store ((y*m.pw+x)%2^32) color) c) c).markDirty
      0 0 m.width m.height

def rect (c : GpipeCtx m) (x y w h : Int) (color : BitVec 32) : GpipeCtx m :=
  if w ≤ 0 ∨ h ≤ 0 then c else
  let c := (intRange x (x+w)).foldl
    (fun c i => (c.pixel i y color).pixel i (y+h-1) color) c
  (intRange y (y+h)).foldl (fun c i => (c.pixel x i color).pixel (x+w-1) i color) c

def rectFill (c : GpipeCtx m) (x y w h : Int) (color : BitVec 32) : GpipeCtx m :=
  match clipRect m x y w h with
  | none => c
  | some r =>
    ((intRange r.y (r.y+r.h)).foldl (fun c row =>
      (List.range r.w.toNat).foldl (fun c col => c.store (word m r.x row+col) color) c) c).markDirty
        r.x r.y r.w r.h

/-- The `while (1)` of `gpipe_line` from `(x0, y0)` on; `none` after `fuel` rounds. -/
def lineLoop (x1 y1 dx dy sx sy : Int) (color : BitVec 32) :
    Nat → Int → Int → Int → GpipeCtx m → Option (GpipeCtx m)
  | 0,_,_,_,_ => none
  | fuel+1,x0,y0,err,c =>
    let c := c.pixel x0 y0 color
    if x0 = x1 ∧ y0 = y1 then some c else
    let e2 := 2*err
    let err' := if e2 ≥ dy then err+dy else err
    let x0' := if e2 ≥ dy then x0+sx else x0
    let err'' := if e2 ≤ dx then err'+dx else err'
    let y0' := if e2 ≤ dx then y0+sy else y0
    lineLoop x1 y1 dx dy sx sy color fuel x0' y0' err'' c

def line (c : GpipeCtx m) (x0 y0 x1 y1 : Int) (color : BitVec 32) (fuel : Nat) :
    Option (GpipeCtx m) :=
  let dx : Int := (x1-x0).natAbs
  let sx := if x0 < x1 then 1 else -1
  let dy : Int := -(y1-y0).natAbs
  let sy := if y0 < y1 then 1 else -1
  lineLoop x1 y1 dx dy sx sy color fuel x0 y0 (dx+dy) c

/-- The octant walk that both circles make from `(x, y)` on, with what they draw at a point of it;
`none` after `fuel` rounds. -/
def octants (draw : GpipeCtx m → Int → Int → GpipeCtx m) :
    Nat → Int → Int → Int → GpipeCtx m → Option (GpipeCtx m)
  | 0,_,_,_,_ => none
  | fuel+1,x,y,err,c =>
    if x < y then some c else
    let c := draw c x y
    let y := y+1
    if err ≤ 0 then octants draw fuel x y (err+(2*y+1)) c
    else octants draw fuel (x-1) y (err+(2*(y-(x-1))+1)) c

def circle (c : GpipeCtx m) (cx cy r : Int) (color : BitVec 32) (fuel : Nat) :
    Option (GpipeCtx m) :=
  if r < 0 then some c else
  octants (fun c x y =>
    let c := c.pixel (cx+x) (cy+y) color
    let c := c.pixel (cx+y) (cy+x) color
    let c := c.pixel (cx-y) (cy+x) color
    let c := c.pixel (cx-x) (cy+y) color
    let c := c.pixel (cx-x) (cy-y) color
    let c := c.pixel (cx-y) (cy-x) color
    let c := c.pixel (cx+y) (cy-x) color
    c.pixel (cx+x) (cy-y) color) fuel r 0 0 c

def circleFill (c : GpipeCtx m) (cx cy r : Int) (color : BitVec 32) (fuel : Nat) :
    Option (GpipeCtx m) :=
  if r < 0 then some c else
  octants (fun c x y =>
    let c := c.rectFill (cx-x) (cy+y) (2*x+1) 1 color
    let c := c.rectFill (cx-x) (cy-y) (2*x+1) 1 color
    let c := c.rectFill (cx-y) (cy+x) (2*y+1) 1 color
    c.rectFill (cx-y) (cy-x) (2*y+1) 1 color) fuel r 0 0 c

/-! ## Bitmaps -/

/-- The little-endian word of `n` bytes at an offset. -/
def leWord (data : Nat → BitVec 8) (off : Nat) : Nat → Nat
  | 0 => 0
  | n+1 => (data off).toNat+256*leWord data (off+1) n

/-- `(img_w * 3 + 3) & ~3`. -/
def bmpRowSize (imgW : Int) : Int := toInt32 ((imgW*3+3)/4*4)

/-- `gpipe_bmp_draw` over the bytes from `bmp_data` on; pointers add modulo 2^64. -/
def bmpDraw (c : GpipeCtx m) (x y : Int) (data : Nat → BitVec 8) (size : Nat) :
    GpipeBmpStatus × GpipeCtx m :=
  if size < 54 then (.errTooSmall,c) else
  if data 0 ≠ 66 ∨ data 1 ≠ 77 then (.errBadMagic,c) else
  let imgW := toInt32 (leWord data 18 4)
  let imgHRaw := toInt32 (leWord data 22 4)
  let bpp := leWord data 28 2
  let off := leWord data 10 4
  if bpp ≠ 24 then (.errBadBpp,c) else
  if imgW ≤ 0 then (.errBadMagic,c) else
  let topDown := decide (imgHRaw < 0)
  let imgH := if topDown then toInt32 (-imgHRaw) else imgHRaw
  if imgH ≤ 0 then (.errBadMagic,c) else
  let rowSz := bmpRowSize imgW
  let needed := ((off+rowSz*imgH)%2^64).toNat
  if needed > size then (.errOverflow,c) else
  let c := (intRange 0 imgH).foldl (fun c row =>
    let dstRow := if topDown then row else imgH-1-row
    let py := y+dstRow
    if py < 0 ∨ py ≥ m.height then c else
    (intRange 0 imgW).foldl (fun c cx =>
      let px := x+cx
      if px < 0 ∨ px ≥ m.width then c else
      let src := fun k : Int => (data ((off+row*rowSz+toInt32 (cx*3+k))%2^64).toNat).toNat
      c.store (word m px py) (gpipeRgb (src 2) (src 1) (src 0))) c) c
  (.ok,c.markDirty x y imgW imgH)

/-! ## Text -/

/-- What `gpipe_text` does with column `col` of row `row` of the cell at `(px, y)`. -/
def textCell (F : FontTtf) (fg bg : BitVec 32) (ch : BitVec 8) (px y : Int) (row col : Nat)
    (c : GpipeCtx m) : GpipeCtx m :=
  let cx := px+col
  let py := y+row
  if cx < 0 ∨ cx ≥ m.width then c else
  let a := F.uiGlyphRow ch row col
  if a = 0 then c else
  if bg = gpipeTextTransparent then
    if a = 255 then c.store (word m cx py) fg
    else c.pixelBlend cx py ((a.setWidth 32 <<< 24) ||| (fg &&& 0xFFFFFF))
  else c.store (word m cx py) (blendPx bg fg a)

def textGlyph (F : FontTtf) (fg bg : BitVec 32) (ch : BitVec 8) (px y : Int) (c : GpipeCtx m) :
    GpipeCtx m :=
  (List.range F.uiCellH).foldl (fun c (row : Nat) =>
    if y+row < 0 ∨ y+row ≥ m.height then c else
    (List.range F.uiCellW).foldl (fun c col => c.textCell F fg bg ch px y row col) c) c

/-- `while (*s)`, with the values of `px` and `y` after it. -/
def textLoop (F : FontTtf) (x : Int) (fg bg : BitVec 32) :
    List (BitVec 8) → Int → Int → GpipeCtx m → Int × Int × GpipeCtx m
  | [],px,y,c => (px,y,c)
  | ch::s,px,y,c =>
    if ch = 10 then textLoop F x fg bg s x (y+F.uiCellH) c
    else textLoop F x fg bg s (px+F.uiCellW) y (c.textGlyph F fg bg ch px y)

/-- `gpipe_text` of a string, its terminator left out. The last line's `y` is the one marked. -/
def text (c : GpipeCtx m) (F : FontTtf) (x y : Int) (s : List (BitVec 8)) (fg bg : BitVec 32) :
    GpipeCtx m :=
  if F.ready = false then c else
  let (px,y',c') := textLoop F x fg bg s x y c
  c'.markDirty x y' (px-x) F.uiCellH

end GpipeCtx

end KiNBOL
