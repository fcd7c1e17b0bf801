import KiNBOL.Fs.Name
import Mathlib.Data.Nat.Basic

namespace KiNBOL

/-- `struct limine_framebuffer`: pixels of 32 bits in the address space, whole rows of them. -/
structure Framebuffer where
  width : Nat
  height : Nat
  pitch : Nat
  row_le : 4*width ≤ pitch
  size_lt : pitch*height < 2^64

/-- `pw`, a `uint32_t`. -/
def Framebuffer.pw (fb : Framebuffer) : Nat := fb.pitch/4%2^32

/-- Words of the framebuffer, and of the back buffer that `gpipe_init` takes for it. -/
def Framebuffer.words (fb : Framebuffer) : Nat := fb.pitch*fb.height%2^64/4

def fontTtfBaseCellW : Nat := 8
def fontTtfBaseCellH : Nat := 16

/-- The terminal's part of the font: `g_ready`, `term_scale` and the cell. -/
structure TermFont where
  ready : Bool
  scale : Nat
  cellW : Nat
  cellH : Nat
  deriving DecidableEq

namespace TermFont

/-- The font as it is declared. -/
def start : TermFont := ⟨false,1,fontTtfBaseCellW,fontTtfBaseCellH⟩

/-- The sizes that `alloc_term_cache` sets, whether it gets memory or not. -/
def resize (f : TermFont) (scale : Nat) : TermFont :=
  { f with
    scale := scale
    cellW := fontTtfBaseCellW*scale%2^32
    cellH := fontTtfBaseCellH*scale%2^32 }

/-- `font_ttf_init`: `ui` when the font is parsed and the UI cache has memory, `term` when the
terminal's cache has. -/
def init (f : TermFont) (ui term : Bool) : TermFont :=
  if ui then { f.resize 1 with ready := term } else { f with ready := false }

/-- `font_ttf_set_scale`. -/
def setScale (f : TermFont) (scale : Nat) : TermFont :=
  if !f.ready then f
  else
    let scale := if scale < 1 then 1 else scale
    let scale := if 8 < scale then 8 else scale
    if scale = f.scale then f else f.resize scale

end TermFont

/-- The state of `terminal.c`. -/
structure Terminal where
  gx : Nat
  gy : Nat
  fg : BitVec 32
  bg : BitVec 32
  ts : Nat
  font : TermFont
  deriving DecidableEq

/-- A call of `chr`. -/
structure ChrCall where
  x : Nat
  y : Nat
  c : Byte
  cf : BitVec 32
  cb : BitVec 32
  deriving DecidableEq

namespace Terminal

/-- `terminal_init`. -/
def init : Terminal := ⟨8,8,0xEEF1F6#32,0x12141A#32,1,TermFont.start⟩

/-- What `scroll` does to the cursor: `fbi->height` is a `uint64_t`, `gy` a `uint32_t`. -/
def scroll (t : Terminal) (fb : Framebuffer) : Terminal :=
  { t with gy := (fb.height-t.font.cellH)%2^32 }

/-- A new line, with a scroll where it does not fit. -/
def newLine (t : Terminal) (fb : Framebuffer) : Terminal :=
  let t := { t with gx := 8, gy := (t.gy+t.font.cellH)%2^32 }
  if fb.height-t.font.cellH ≤ t.gy then t.scroll fb else t

/-- `putchar_nolock`, with the call of `chr` that it makes. -/
def putcharNolock (t : Terminal) (fb : Framebuffer) (c : Byte) : Terminal × Option ChrCall :=
  if c = ch '\n' then (t.newLine fb,none)
  else if c = 8#8 then
    if (8+t.font.cellW)%2^32 ≤ t.gx then
      let t := { t with gx := t.gx-t.font.cellW }
      (t,some ⟨t.gx,t.gy,ch ' ',t.fg,t.bg⟩)
    else (t,none)
  else
    let drawn := some ⟨t.gx,t.gy,c,t.fg,t.bg⟩
    let t := { t with gx := (t.gx+t.font.cellW)%2^32 }
    if fb.width-t.font.cellW ≤ t.gx then (t.newLine fb,drawn) else (t,drawn)

def putchar (t : Terminal) (fb : Framebuffer) (c : Byte) : Terminal := (t.putcharNolock fb c).1

def print (t : Terminal) (fb : Framebuffer) (s : List Byte) : Terminal :=
  s.foldl (fun t c => t.putchar fb c) t

/-- What `terminal_clear` does to the cursor. -/
def clear (t : Terminal) : Terminal := { t with gx := 8, gy := 8 }

def setScale (t : Terminal) (scale : Nat) : Terminal :=
  let scale := if scale < 1 then 1 else scale
  let scale := if 8 < scale then 8 else scale
  { t with ts := scale, font := t.font.setScale scale, gx := 8, gy := 8 }

/-! ## What is drawn -/

/-- The test at the start of `chr` lets the call pass. -/
def chrFits (t : Terminal) (fb : Framebuffer) (d : ChrCall) : Prop :=
  ¬(fb.width < (d.x+t.font.cellW)%2^32 ∨ fb.height < (d.y+t.font.cellH)%2^32)

/-- The word that `chr` and `terminal_cursor_draw` write for a row and a column of the cell at
(`x`,`y`). -/
def pixelWord (fb : Framebuffer) (x y row co : Nat) : Nat :=
  (((y+row)%2^32*fb.pw+x)%2^32+co)%2^32

/-- `row_start` and `cursor_h` of `terminal_cursor_draw`. -/
def rowStart (t : Terminal) : Nat := 11*t.font.cellH%2^32/16

def cursorH (t : Terminal) : Nat :=
  let h := 2*t.font.cellH%2^32/16
  if h < 1 then 1 else h

/-- `scroll` copies `copyCount` words from `copyFrom` on to the start, and fills the rows from
`copyRows` on. -/
def copyRows (t : Terminal) (fb : Framebuffer) : Nat := (fb.height-t.font.cellH)%2^32

def copyCount (t : Terminal) (fb : Framebuffer) : Nat := t.copyRows fb*fb.pw%2^32

def copyFrom (t : Terminal) (fb : Framebuffer) : Nat := t.font.cellH*fb.pw%2^64

def fillWord (fb : Framebuffer) (r c : Nat) : Nat := r*fb.pw%2^32+c

/-- `total_pixels` of `terminal_clear`. -/
def clearCount (fb : Framebuffer) : Nat := fb.pw*fb.height%2^64%2^32

/-- The cell lies in the framebuffer, and all that is written in the back buffer. -/
structure Inside (t : Terminal) (fb : Framebuffer) : Prop where
  cell : t.gx+t.font.cellW ≤ fb.width ∧ t.gy+t.font.cellH ≤ fb.height
  cursor : ∀ row co, t.rowStart ≤ row → row < t.rowStart+t.cursorH → co < t.font.cellW →
    pixelWord fb t.gx t.gy row co < fb.words
  scroll : t.copyCount fb ≤ fb.words ∧ t.copyFrom fb+t.copyCount fb ≤ fb.words ∧
    ∀ r c, t.copyRows fb ≤ r → r < fb.height → c < fb.width → fillWord fb r c < fb.words
  clear : clearCount fb ≤ fb.words
  drawn : ∀ c d, (t.putcharNolock fb c).2 = some d → t.chrFits fb d ∧
    ∀ row co, row < t.font.cellH → co < t.font.cellW → pixelWord fb d.x d.y row co < fb.words

/-- The states that calls lead to; `putchar` is also a turn of the loop of `terminal_print`. -/
inductive Reach (fb : Framebuffer) : Terminal → Prop where
  | init : Reach fb init
  | fontInit {t : Terminal} (ui term : Bool) : Reach fb t →
      Reach fb { t with font := t.font.init ui term }
  | putchar {t : Terminal} (c : Byte) : Reach fb t → Reach fb (t.putchar fb c)
  | clear {t : Terminal} : Reach fb t → Reach fb t.clear
  | setScale {t : Terminal} (scale : Nat) : Reach fb t → Reach fb (t.setScale scale)
  | setFg {t : Terminal} (color : BitVec 32) : Reach fb t → Reach fb { t with fg := color }
  | setBg {t : Terminal} (color : BitVec 32) : Reach fb t → Reach fb { t with bg := color }

end Terminal

/-- The cell is the base cell scaled up to eight times. -/
structure TermFont.Sized (f : TermFont) : Prop where
  scale : 1 ≤ f.scale ∧ f.scale ≤ 8
  cellW : f.cellW = 8*f.scale
  cellH : f.cellH = 16*f.scale

variable {fb : Framebuffer} {f : TermFont} {t : Terminal}

theorem TermFont.resize_sized {scale : Nat} (h1 : 1 ≤ scale) (h8 : scale ≤ 8) :
    (f.resize scale).Sized := by
  refine ⟨⟨h1,h8⟩,?_,?_⟩
  · change 8*scale%2^32 = 8*scale
    omega
  · change 16*scale%2^32 = 16*scale
    omega

theorem TermFont.Sized.init (h : f.Sized) (ui term : Bool) :
    (f.init ui term).Sized ∧ (f.init ui term).scale ≤ f.scale := by
  cases ui with
  | false => exact ⟨⟨h.scale,h.cellW,h.cellH⟩,le_refl f.scale⟩
  | true =>
    obtain ⟨h1,h2,h3⟩ := f.resize_sized (le_refl 1) (by decide : 1 ≤ 8)
    exact ⟨⟨h1,h2,h3⟩,h.scale.1⟩

theorem TermFont.Sized.setScale (h : f.Sized) (scale : Nat) : (f.setScale scale).Sized := by
  unfold TermFont.setScale
  dsimp only
  split_ifs with hready h1 h2 h3 h4 h5
  all_goals first | exact h | exact TermFont.resize_sized (by omega) (by omega)

namespace Framebuffer

/-- A word of a visible row in a visible column, from the pixel numbers without a bound. -/
theorem word_lt {x y : Nat} (hx : x < fb.width) (hy : y < fb.height) : y*fb.pw+x < fb.words := by
  have hrow := fb.row_le
  have hpw : fb.pw ≤ fb.pitch/4 := Nat.mod_le _ _
  have hmul : y*fb.pw ≤ y*(fb.pitch/4) := Nat.mul_le_mul_left y hpw
  have hnext : (y+1)*(fb.pitch/4) ≤ fb.height*(fb.pitch/4) := Nat.mul_le_mul_right _ hy
  have hall : fb.height*(fb.pitch/4) ≤ fb.pitch*fb.height/4 := by
    rw [Nat.le_div_iff_mul_le (by decide),Nat.mul_assoc,Nat.mul_comm fb.pitch]
    exact Nat.mul_le_mul_left fb.height (Nat.div_mul_le_self fb.pitch 4)
  rw [words,Nat.mod_eq_of_lt fb.size_lt]
  rw [Nat.add_mul,Nat.one_mul] at hnext
  omega

/-- Whole rows. -/
theorem rows_le {n : Nat} (hn : n ≤ fb.height) : n*fb.pw ≤ fb.words := by
  have hpw : fb.pw ≤ fb.pitch/4 := Nat.mod_le _ _
  rw [words,Nat.mod_eq_of_lt fb.size_lt,Nat.le_div_iff_mul_le (by decide),Nat.mul_assoc,
    Nat.mul_comm fb.pitch]
  have h4 : fb.pw*4 ≤ fb.pitch := by omega
  exact Nat.mul_le_mul hn h4

end Framebuffer

namespace Terminal

theorem pixelWord_le (fb : Framebuffer) (x y row co : Nat) :
    pixelWord fb x y row co ≤ (y+row)*fb.pw+(x+co) := by
  have h1 : (y+row)%2^32*fb.pw ≤ (y+row)*fb.pw := Nat.mul_le_mul_right _ (Nat.mod_le _ _)
  have h2 := Nat.mod_le ((y+row)%2^32*fb.pw+x) (2^32)
  have h3 := Nat.mod_le (((y+row)%2^32*fb.pw+x)%2^32+co) (2^32)
  rw [pixelWord]
  omega

/-- A cell on the screen. -/
theorem pixelWord_lt {x y row co w h : Nat} (hx : x+w ≤ fb.width) (hy : y+h ≤ fb.height)
    (hrow : row < h) (hco : co < w) : pixelWord fb x y row co < fb.words := by
  apply Nat.lt_of_le_of_lt (pixelWord_le fb x y row co)
  exact Framebuffer.word_lt (by omega) (by omega)

/-- What every call keeps: the font's sizes and a cell on the screen. -/
structure Good (t : Terminal) (fb : Framebuffer) : Prop where
  font : t.font.Sized
  cell : t.gx+t.font.cellW ≤ fb.width ∧ t.gy+t.font.cellH ≤ fb.height

/-- A cell on the screen passes the test of `chr`. -/
theorem chrFits_of_cell {d : ChrCall} (hx : d.x+t.font.cellW ≤ fb.width)
    (hy : d.y+t.font.cellH ≤ fb.height) : t.chrFits fb d := by
  have h1 := Nat.mod_le (d.x+t.font.cellW) (2^32)
  have h2 := Nat.mod_le (d.y+t.font.cellH) (2^32)
  unfold chrFits
  omega

/-- The bar of the cursor is part of the cell. -/
theorem cursor_le (hf : t.font.Sized) : t.rowStart+t.cursorH ≤ t.font.cellH := by
  have h1 := hf.scale
  have h2 := hf.cellH
  have h3 : 11*t.font.cellH%2^32/16 = 11*t.font.scale := by
    rw [Nat.mod_eq_of_lt (by omega)]
    omega
  have h4 : 2*t.font.cellH%2^32/16 = 2*t.font.scale := by
    rw [Nat.mod_eq_of_lt (by omega)]
    omega
  unfold rowStart cursorH
  rw [h3,h4,if_neg (by omega)]
  omega

section

variable (hw : 8+64 ≤ fb.width) (hh : 8+128 ≤ fb.height)

include hw

/-- The start of a line. -/
theorem lineStart_le (hf : f.Sized) : 8+f.cellW ≤ fb.width := by
  have h1 := hf.scale
  have h2 := hf.cellW
  omega

include hh

theorem home_good {t' : Terminal} (hf : t'.font.Sized) (hx : t'.gx = 8) (hy : t'.gy = 8) :
    t'.Good fb := by
  have h1 := hf.scale
  have h2 := hf.cellH
  refine ⟨hf,?_,?_⟩
  · rw [hx]
    exact lineStart_le hw hf
  · omega

/-- A new line ends above the bottom, or the scroll puts the cursor on the last line. -/
theorem Good.newLine (h : t.Good fb) : (t.newLine fb).Good fb := by
  have h1 := h.font.scale
  have h2 := h.font.cellH
  have hx := lineStart_le hw h.font
  unfold Terminal.newLine
  dsimp only
  split_ifs with hfull
  · refine ⟨h.font,hx,?_⟩
    -- the comparison says that the height of the last line fits 32 bits
    change (fb.height-t.font.cellH)%2^32+t.font.cellH ≤ fb.height
    have hmod := Nat.mod_le (fb.height-t.font.cellH) (2^32)
    omega
  · refine ⟨h.font,hx,?_⟩
    change (t.gy+t.font.cellH)%2^32+t.font.cellH ≤ fb.height
    omega

/-- A character, and the call of `chr` that it makes. -/
theorem Good.putcharNolock (h : t.Good fb) (c : Byte) :
    (t.putcharNolock fb c).1.Good fb ∧ ∀ d, (t.putcharNolock fb c).2 = some d →
      d.x+t.font.cellW ≤ fb.width ∧ d.y+t.font.cellH ≤ fb.height := by
  have h1 := h.font.scale
  have h2 := h.font.cellW
  have hcell := h.cell
  unfold Terminal.putcharNolock
  dsimp only
  split_ifs with hnl hbs hroom hfull
  · exact ⟨h.newLine hw hh,fun d hd => by cases hd⟩
  · have hback : t.gx-t.font.cellW+t.font.cellW ≤ fb.width := by omega
    refine ⟨⟨h.font,hback,hcell.2⟩,fun d hd => ?_⟩
    cases hd
    exact ⟨hback,hcell.2⟩
  · exact ⟨h,fun d hd => by cases hd⟩
  · refine ⟨?_,fun d hd => ?_⟩
    · have hline : { t with gx := (t.gx+t.font.cellW)%2^32 }.newLine fb = t.newLine fb := rfl
      rw [hline]
      exact h.newLine hw hh
    · cases hd
      exact hcell
  · refine ⟨⟨h.font,?_,hcell.2⟩,fun d hd => ?_⟩
    · change (t.gx+t.font.cellW)%2^32+t.font.cellW ≤ fb.width
      omega
    · cases hd
      exact hcell

theorem Reach.good (h : Reach fb t) : t.Good fb := by
  induction h with
  | init => exact home_good hw hh ⟨by decide,rfl,rfl⟩ rfl rfl
  | @fontInit t ui term _ ih =>
    -- the new cell is at most as large as the old one
    obtain ⟨hf,hle⟩ := ih.font.init ui term
    have hcell := ih.cell
    have h1 := ih.font.cellW
    have h2 := ih.font.cellH
    refine ⟨hf,?_,?_⟩
    · change t.gx+(t.font.init ui term).cellW ≤ fb.width
      rw [hf.cellW]
      omega
    · change t.gy+(t.font.init ui term).cellH ≤ fb.height
      rw [hf.cellH]
      omega
  | putchar c _ ih => exact (ih.putcharNolock hw hh c).1
  | clear _ ih => exact home_good hw hh ih.font rfl rfl
  | setScale scale _ ih => exact home_good hw hh (ih.font.setScale _) rfl rfl
  | setFg _ _ ih => exact ⟨ih.font,ih.cell⟩
  | setBg _ _ ih => exact ⟨ih.font,ih.cell⟩

/-- Wherever the calls lead, the cell lies in the framebuffer and everything written in the back
buffer. -/
theorem cursor_on_screen (h : Reach fb t) : t.Inside fb := by
  have hgood := h.good hw hh
  obtain ⟨hx,hy⟩ := hgood.cell
  have hrows : t.copyRows fb+t.font.cellH ≤ fb.height := by
    have := Nat.mod_le (fb.height-t.font.cellH) (2^32)
    unfold copyRows
    omega
  refine ⟨⟨hx,hy⟩,fun row co _ hrow hco => ?_,⟨?_,?_,fun r c _ hr hc => ?_⟩,?_,fun c d hd => ?_⟩
  · have hle := cursor_le hgood.font
    exact pixelWord_lt hx hy (by omega) hco
  · have hle := @Framebuffer.rows_le fb (t.copyRows fb) (by omega)
    exact Nat.le_trans (Nat.mod_le _ _) hle
  · have hle := Framebuffer.rows_le hrows
    have h1 : t.copyFrom fb ≤ t.font.cellH*fb.pw := Nat.mod_le _ _
    have h2 : t.copyCount fb ≤ t.copyRows fb*fb.pw := Nat.mod_le _ _
    rw [Nat.add_mul] at hle
    omega
  · have hlt := Framebuffer.word_lt hc hr
    have h1 := Nat.mod_le (r*fb.pw) (2^32)
    unfold fillWord
    omega
  · have hle := Framebuffer.rows_le (le_refl fb.height)
    rw [Nat.mul_comm] at hle
    exact Nat.le_trans (Nat.le_trans (Nat.mod_le _ _) (Nat.mod_le _ _)) hle
  · obtain ⟨hdx,hdy⟩ := (hgood.putcharNolock hw hh c).2 d hd
    exact ⟨chrFits_of_cell hdx hdy,fun row co hrow hco => pixelWord_lt hdx hdy hrow hco⟩

end

/-- A string leads through the states of its characters. -/
theorem Reach.print (h : Reach fb t) (s : List Byte) : Reach fb (t.print fb s) := by
  induction s generalizing t with
  | nil => exact h
  | cons c s ih => exact ih (h.putchar c)

/-- A screen of 1024 by 768 pixels. -/
def xgaScreen : Framebuffer := ⟨1024,768,4096,by decide,by decide⟩

theorem cursor_on_screen_sample :
    (((init.print xgaScreen [ch 'A',ch '\n',8#8]).setScale 8).print xgaScreen [ch 'B']).Inside
      xgaScreen :=
  cursor_on_screen (by decide) (by decide) (((Reach.init.print _).setScale 8).print _)

end Terminal

end KiNBOL
