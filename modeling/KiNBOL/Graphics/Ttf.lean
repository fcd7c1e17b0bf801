import KiNBOL.Framework.Traced
import KiNBOL.Graphics.Gpipe

namespace KiNBOL

/-! ## The font -/

def rdU16 (data : Nat → BitVec 8) (p : Nat) : Nat := (data p).toNat*2^8+(data (p+1)).toNat

def rdS16 (data : Nat → BitVec 8) (p : Nat) : Int := (BitVec.ofNat 16 (rdU16 data p)).toInt

def rdU32 (data : Nat → BitVec 8) (p : Nat) : Nat := rdU16 data p*2^16+rdU16 data (p+2)

/-- `in_bounds`, which adds in 64 bits. -/
def InFont (size off len : Nat) : Prop := off+len ≤ size

instance (size off len : Nat) : Decidable (InFont size off len) :=
  inferInstanceAs (Decidable (_ ≤ _))

/-- A font of less than 2^31 bytes: the fields that reading a glyph needs. -/
structure TtfFont where
  data : Nat → BitVec 8
  size : Nat
  size_lt : size < 2^31
  locaOff : Nat
  glyfOff : Nat
  hmtxOff : Nat
  locaLong : Bool
  numGlyphs : Nat
  numHmetrics : Nat

/-- What the table directory gives. -/
structure TtfTables where
  head : Option Nat
  maxp : Option Nat
  loca : Option Nat
  glyf : Option Nat
  cmap : Option Nat
  hhea : Nat
  hmtx : Nat

/-- Record `i` of the directory. -/
def ttfTable (data : Nat → BitVec 8) (size : Nat) (t : TtfTables) (i : Nat) : TtfTables :=
  let tag := rdU32 data (12+i*16)
  let off := rdU32 data (12+i*16+8)
  let len := rdU32 data (12+i*16+12)
  if ¬InFont size off len then t
  else if tag = 0x68656164 then { t with head := some off }
  else if tag = 0x6D617870 then { t with maxp := some off }
  else if tag = 0x6C6F6361 then { t with loca := some off }
  else if tag = 0x676C7966 then { t with glyf := some off }
  else if tag = 0x636D6170 then { t with cmap := some off }
  else if tag = 0x68686561 then { t with hhea := off }
  else if tag = 0x686D7478 then { t with hmtx := off }
  else t

/-- How well a `cmap` subtable suits. -/
def cmapScore (plat eid fmt : Nat) : Int :=
  if plat = 3 ∧ eid = 1 ∧ fmt = 4 then 100
  else if plat = 3 ∧ eid = 10 ∧ fmt = 12 then 90
  else if plat = 0 ∧ fmt = 4 then 80
  else if plat = 0 ∧ fmt = 12 then 75
  else if plat = 1 ∧ eid = 0 ∧ fmt = 0 then 10
  else -1

/-- The best score up to subtable `i`. -/
def cmapBest (data : Nat → BitVec 8) (size cmap : Nat) (best : Int) (i : Nat) : Int :=
  let recOff := (cmap+4+i*8)%2^32
  if ¬InFont size recOff 8 then best else
  let subOff := (cmap+rdU32 data (recOff+4))%2^32
  if ¬InFont size subOff 4 then best else
  let score := cmapScore (rdU16 data recOff) (rdU16 data (recOff+2)) (rdU16 data subOff)
  if score > best then score else best

/-- `ttf_init`; `none` is 0. -/
def ttfInit (data : Nat → BitVec 8) (size : Nat) (hsize : size < 2^31) : Option TtfFont := do
  if size < 12 then none
  let ver := rdU32 data 0
  if ver ≠ 0x00010000 ∧ ver ≠ 0x4F54544F ∧ ver ≠ 0x74727565 then none
  let numTables := rdU16 data 4
  if ¬InFont size 12 (numTables*16) then none
  let t := (List.range numTables).foldl (ttfTable data size) ⟨none,none,none,none,none,0,0⟩
  let head ← t.head
  let maxp ← t.maxp
  let loca ← t.loca
  let glyf ← t.glyf
  let cmap ← t.cmap
  if ¬InFont size head 54 ∨ ¬InFont size maxp 6 then none
  if ¬InFont size cmap 4 then none
  if (List.range (rdU16 data (cmap+2))).foldl (cmapBest data size cmap) (-1) < 0 then none
  some {
    data := data
    size := size
    size_lt := hsize
    locaOff := loca
    glyfOff := glyf
    hmtxOff := t.hmtx
    locaLong := decide (rdS16 data (head+50) ≠ 0)
    numGlyphs := rdU16 data (maxp+4)
    numHmetrics := if t.hhea ≠ 0 ∧ InFont size t.hhea 36 then rdU16 data (t.hhea+34) else 0 }

/-! ## Glyphs -/

/-- A read of a byte of the font, or an access to an entry of `flags`, `xs` or `ys`, which have `n`
entries. -/
inductive GlyphAccess where
  | font (i : Nat)
  | point (i n : Nat)

/-- What the memory does during one call of `extract_simple_glyph`: whether its allocations succeed,
and what lies behind `flags`. -/
structure GlyphMemory where
  flags : Bool
  coordinates : Bool
  push : Nat → Bool
  behind : Nat → BitVec 8

/-- The points of a simple glyph as they are decoded, their coordinates left out. -/
structure GlyphPoints where
  n : Nat
  flags : List (BitVec 8)
  ends : List Nat

/-- A component of a composite glyph, and where the next one is. -/
structure GlyphComponent where
  glyph : Nat
  more : Bool
  next : Nat

namespace TtfFont

variable (f : TtfFont)

/-- Reads `n` bytes. -/
def read (p n : Nat) : Traced GlyphAccess Unit :=
  Traced.touch ((List.range n).map (fun i => .font (p+i)))

/-- Checks that `n` bytes are there and reads them; `p` after them. -/
def take (p n : Nat) : Traced GlyphAccess Nat := do
  Traced.check (InFont f.size p n)
  read p n
  pure ((p+n)%2^32)

/-- `take`, for a part that may be missing. -/
def skip (p n : Nat) : Traced GlyphAccess Nat := if n = 0 then pure p else f.take p n

/-- Where the glyph is in the file, and its length. -/
def glyfLoca (gi : Int) : Traced GlyphAccess (Nat × Nat) :=
  if gi < 0 ∨ gi ≥ f.numGlyphs then pure (0,0) else
  let range := fun off1 off2 => if off2 < off1 then (0,0) else ((f.glyfOff+off1)%2^32,off2-off1)
  if f.locaLong then
    let p := (f.locaOff+gi.toNat*4)%2^32
    if ¬InFont f.size p 8 then pure (0,0) else do
    read p 8
    pure (range (rdU32 f.data p) (rdU32 f.data (p+4)))
  else
    let p := (f.locaOff+gi.toNat*2)%2^32
    if ¬InFont f.size p 4 then pure (0,0) else do
    read p 4
    pure (range (rdU16 f.data p*2) (rdU16 f.data (p+2)*2))

/-- `while (fi < n_points)`: the flags, with those decoded so far, and `p` after them. -/
def flagLoop (n p : Nat) (flags : List (BitVec 8)) : Traced GlyphAccess (List (BitVec 8) × Nat) :=
  if flags.length < n then do
    let p₁ ← f.take p 1
    let fl := f.data p
    Traced.touch [.point flags.length n]
    if fl &&& 0x08 ≠ 0 then
      let p₂ ← f.take p₁ 1
      let more := min (f.data p₁).toNat (n-(flags.length+1))
      Traced.touch ((List.range more).map (fun r => .point (flags.length+1+r) n))
      flagLoop n p₂ (flags++fl::List.replicate more fl)
    else flagLoop n p₁ (flags++[fl])
  else pure (flags,p)
termination_by n-flags.length
decreasing_by all_goals simp; omega

/-- A loop over `xs` or `ys`: one byte if the bit `short` is set, none if `same` is, else two. -/
def coordinateLoop (short same : BitVec 8) (flags : List (BitVec 8)) (n p : Nat) :
    Traced GlyphAccess Nat :=
  (List.range n).foldlM (fun p i => do
    Traced.touch [.point i n]
    let fl := flags.getD i 0
    let p ← f.skip p (if fl &&& short ≠ 0 then 1 else if fl &&& same = 0 then 2 else 0)
    Traced.touch [.point i n]
    pure p) p

/-- `extract_simple_glyph` up to its contours. -/
def decodeGlyph (m : GlyphMemory) (off len : Nat) : Traced GlyphAccess GlyphPoints := do
  Traced.check (InFont f.size off len ∧ 10 ≤ len)
  read off 2
  let nContours := rdS16 f.data off
  Traced.check (0 < nContours ∧ nContours ≤ 64)
  let p := (off+10)%2^32
  let p₁ ← f.take p (nContours.toNat*2)
  let ends := (List.range nContours.toNat).map (fun i => rdU16 f.data (p+i*2))
  let n := ends.getLastD 0+1
  let p₂ ← f.take p₁ 2
  let p₃ := (p₂+rdU16 f.data p₁)%2^32
  Traced.check (m.flags = true)
  let (flags,q) ← f.flagLoop n p₃ []
  Traced.check (m.coordinates = true)
  let q' ← f.coordinateLoop 0x02 0x10 flags n q
  let _ ← f.coordinateLoop 0x04 0x20 flags n q'
  pure ⟨n,flags,ends⟩

/-- The contours: first and last point of each. -/
def contours (start : Nat) : List Nat → List (Nat × Nat)
  | [] => []
  | last::ends => (start,last)::contours (last+1) ends

def onCurve (m : GlyphMemory) (pts : GlyphPoints) (i : Nat) : Bool :=
  decide (pts.flags.getD i (m.behind i) &&& 0x01 ≠ 0)

/-- `start_idx`. -/
def startIdx (m : GlyphMemory) (pts : GlyphPoints) (start npc : Nat) : Option Nat :=
  (List.range npc).find? (fun i => onCurve m pts (start+i))

/-- The entries that finding `start_idx` and the first point looks at. -/
def startEntries (m : GlyphMemory) (pts : GlyphPoints) (start npc : Nat) : List Nat :=
  match startIdx m pts start npc with
  | some i => (List.range (i+1)).map (start+·)++[start+i]
  | none => (List.range npc).map (start+·)++[start,start+1%npc]

/-- One round of the loop over a contour: the state is `have_ctrl` and the number of pushes. -/
def contourRound (m : GlyphMemory) (pts : GlyphPoints) (start npc base : Nat) (s : Bool × Nat)
    (k : Nat) : Traced GlyphAccess (Bool × Nat) := do
  let idx := start+(base+(k+1))%npc
  Traced.touch [.point idx pts.n]
  if onCurve m pts idx then
    if s.1 then pure (false,s.2) else do
    Traced.check (m.push s.2 = true)
    pure (false,s.2+1)
  else pure (true,s.2)

/-- One contour, with the number of pushes before and after it. -/
def contour (m : GlyphMemory) (pts : GlyphPoints) (start last pushes : Nat) :
    Traced GlyphAccess Nat := do
  let npc := last+1-start
  Traced.touch ((startEntries m pts start npc).map (.point · pts.n))
  Traced.check (m.push pushes = true)
  let base := (startIdx m pts start npc).getD 0
  let s ← (List.range npc).foldlM (contourRound m pts start npc base) (false,pushes+1)
  pure s.2

def extractSimpleGlyph (m : GlyphMemory) (off len : Nat) : Traced GlyphAccess Unit := do
  let pts ← f.decodeGlyph m off len
  let _ ← (contours 0 pts.ends).foldlM (fun pushes c =>
    if c.1 ≤ c.2 then contour m pts c.1 c.2 pushes else pure pushes) 0
  pure ()

/-- One component record. -/
def component (p : Nat) : Traced GlyphAccess GlyphComponent := do
  let p₁ ← f.take p 4
  let flags := BitVec.ofNat 16 (rdU16 f.data p)
  let p₂ ← f.take p₁ (if flags &&& 0x0001 ≠ 0 then 4 else 2)
  let p₃ ← f.skip p₂ (if flags &&& 0x0008 ≠ 0 then 2 else if flags &&& 0x0040 ≠ 0 then 4
    else if flags &&& 0x0080 ≠ 0 then 8 else 0)
  pure ⟨rdU16 f.data (p+2),decide (flags &&& 0x0020 ≠ 0),p₃⟩

variable {f} in
theorem take_spec {p n q : Nat} (h : (f.take p n).result = some q) :
    p+n ≤ f.size ∧ q = p+n := by
  simp only [take,read,Traced.result_bind,Traced.result_pure] at h
  obtain ⟨⟨⟩,hc,⟨⟩,-,rfl⟩ := h
  have hin := (Traced.result_check _).mp hc
  have hsize := f.size_lt
  simp only [InFont] at hin
  exact ⟨hin,Nat.mod_eq_of_lt (by omega)⟩

variable {f} in
theorem skip_spec {p n q : Nat} (hp : p ≤ f.size) (h : (f.skip p n).result = some q) :
    p+n ≤ f.size ∧ q = p+n := by
  rw [skip] at h
  split_ifs at h with hn
  · obtain rfl := Traced.result_pure.mp h
    omega
  · exact take_spec h

variable {f} in
theorem component_next {p : Nat} {c : GlyphComponent} (h : (f.component p).result = some c) :
    p < c.next ∧ c.next ≤ f.size := by
  simp only [component,Traced.result_bind,Traced.result_pure] at h
  obtain ⟨p₁,h1,p₂,h2,p₃,h3,rfl⟩ := h
  have hs1 := take_spec h1
  have hs2 := take_spec h2
  have hs3 := skip_spec (by omega) h3
  dsimp only
  omega

/-- The component records from `p` on, up to the last or to one that is cut off. -/
def components (p : Nat) : List (Traced GlyphAccess GlyphComponent) :=
  match _h : (f.component p).result with
  | none => [f.component p]
  | some c => f.component p::if c.more then components c.next else []
termination_by f.size-p
decreasing_by
  have := component_next _h
  omega

/-- `extract_glyph_outline`, with the number of levels that `depth` leaves. Each call of
`extract_simple_glyph` finds the memory of its own path of components. -/
def extractGlyphOutline (mem : List Nat → GlyphMemory) :
    Nat → List Nat → Int → Traced GlyphAccess Unit
  | 0,_,_ => pure ()
  | left+1,path,gi => do
    let (off,len) ← f.glyfLoca gi
    if len = 0 then pure () else do
    read off 2
    if 0 ≤ rdS16 f.data off then f.extractSimpleGlyph (mem path) off len else
    Traced.touch ((f.components ((off+10)%2^32)).zipIdx.flatMap fun (r,i) => r.events++
      match r.result with
      | none => []
      | some c => (extractGlyphOutline mem left (i::path) c.glyph).events)

/-- The read of the advance. -/
def readAdvance (gi : Int) : Traced GlyphAccess Unit :=
  let idx := if gi < f.numHmetrics then gi else f.numHmetrics-1
  let p := (f.hmtxOff+toU32 idx*4)%2^32
  if f.hmtxOff ≠ 0 ∧ 0 < f.numHmetrics ∧ InFont f.size p 2 then read p 2 else pure ()

/-- `ttf_rasterize_glyph` as far as it reads the font. -/
def rasterizeGlyph (mem : List Nat → GlyphMemory) (gi : Int) : Traced GlyphAccess Unit := do
  let (goff,len) ← f.glyfLoca gi
  f.readAdvance gi
  if len = 0 then pure () else do
  read (goff+2) 8
  f.extractGlyphOutline mem 7 [] gi

end TtfFont

end KiNBOL
