import KiNBOL.Graphics.GpipeDraw

namespace KiNBOL

/-- `gpipe_text` stores this cell's pixel itself: it is covered, and not left to
`gpipe_pixel_blend`. -/
def FontTtf.Stores (F : FontTtf) (bg : BitVec 32) (ch : BitVec 8) (row col : Nat) : Prop :=
  row < F.uiCellH ∧ col < F.uiCellW ∧ F.uiGlyphRow ch row col ≠ 0 ∧
  (bg = gpipeTextTransparent → F.uiGlyphRow ch row col = 255)

/-- The pixels that a character at `(px, y)` is stored to. -/
def FontTtf.glyphPixels (F : FontTtf) (bg : BitVec 32) (ch : BitVec 8) (px y : Int) :
    Set (Int × Int) :=
  {p | ∃ row col, F.Stores bg ch row col ∧ p = (px+(col : Nat),y+(row : Nat))}

/-- Those of all characters that another line follows, the rest of the string being at `(px, y)`. -/
def FontTtf.earlyPixels (F : FontTtf) (bg : BitVec 32) (x : Int) :
    List (BitVec 8) → Int → Int → Set (Int × Int)
  | [],_,_ => ∅
  | ch::s,px,y =>
    if ch = 10 then F.earlyPixels bg x s x (y+F.uiCellH)
    else {p | 10 ∈ s ∧ p ∈ F.glyphPixels bg ch px y} ∪ F.earlyPixels bg x s (px+F.uiCellW) y

namespace GpipeCtx

variable {m : GpipeMode} {c : GpipeCtx m} {F : FontTtf} {fg bg : BitVec 32} {ch : BitVec 8}
  {s : List (BitVec 8)} {x y px : Int}

theorem textCell_touches {row col : Nat} (hrow : row < F.uiCellH) (hcol : col < F.uiCellW)
    (hy : ¬ (y+row < 0 ∨ y+row ≥ m.height)) :
    Touches (F.glyphPixels bg ch px y) c (c.textCell F fg bg ch px y row col) := by
  unfold textCell
  dsimp only
  split_ifs with hcx ha hbg h255
  · exact .refl
  · exact .refl
  · exact touches_word (p := (px+col,y+row)) (by simp only [GpipeMode.Visible]; omega)
      ⟨row,col,⟨hrow,hcol,ha,fun _ => h255⟩,rfl⟩
  · have hw := m.width_lt
    have hh := m.height_lt
    exact .of_marks (pixelBlend_marks (by unfold FitsInt; omega) (by unfold FitsInt; omega))
  · exact touches_word (p := (px+col,y+row)) (by simp only [GpipeMode.Visible]; omega)
      ⟨row,col,⟨hrow,hcol,ha,fun h => absurd h hbg⟩,rfl⟩

theorem textGlyph_touches :
    Touches (F.glyphPixels bg ch px y) c (c.textGlyph F fg bg ch px y) := by
  apply Touches.foldl
  intro row hrow d
  split_ifs with hy
  · exact .refl
  apply Touches.foldl
  intro col hcol e
  exact textCell_touches (List.mem_range.mp hrow) (List.mem_range.mp hcol) hy

/-- Only the last line is drawn where `y` ends up, between `x` and where `px` ends up. -/
theorem textLoop_touches (F : FontTtf) (fg bg : BitVec 32) (px y : Int) (hx : x ≤ px) :
    x ≤ (textLoop F x fg bg s px y c).1 ∧
    (10 ∉ s → px ≤ (textLoop F x fg bg s px y c).1 ∧ (textLoop F x fg bg s px y c).2.1 = y) ∧
    Touches (F.earlyPixels bg x s px y ∪ {p | (⟨x,(textLoop F x fg bg s px y c).2.1,
      (textLoop F x fg bg s px y c).1-x,F.uiCellH⟩ : GpipeRect).Has p}) c
      (textLoop F x fg bg s px y c).2.2 := by
  induction s generalizing px y c with
  | nil => exact ⟨hx,fun _ => ⟨Int.le_refl px,rfl⟩,.refl⟩
  | cons ch s ih =>
    by_cases hch : ch = 10
    · simp only [textLoop,FontTtf.earlyPixels,if_pos hch]
      obtain ⟨h1,-,h3⟩ := ih (c := c) x (y+F.uiCellH) (Int.le_refl x)
      exact ⟨h1,fun hn => absurd (hch ▸ List.mem_cons_self) hn,h3⟩
    · simp only [textLoop,FontTtf.earlyPixels,if_neg hch]
      obtain ⟨h1,h2,h3⟩ := ih (c := c.textGlyph F fg bg ch px y) (px+F.uiCellW) y (by omega)
      refine ⟨h1,fun hn => ?_,?_⟩
      · have hrest := h2 fun hs => hn (List.mem_cons_of_mem ch hs)
        exact ⟨by omega,hrest.2⟩
      · refine Touches.trans (textGlyph_touches.mono fun p hp => ?_) (h3.mono fun p hp => ?_)
        · by_cases hs : 10 ∈ s
          · exact Or.inl (Or.inl ⟨hs,hp⟩)
          · obtain ⟨hpx,hy'⟩ := h2 hs
            obtain ⟨row,col,⟨hrow,hcol,-⟩,rfl⟩ := hp
            right
            simp only [Set.mem_ofPred_eq,GpipeRect.Has,hy']
            omega
        · exact hp.imp_left Or.inr

/-- Text whose earlier lines need no mark marks all it draws. -/
theorem text_marks (hearly : F.ready = true → ∀ p ∈ F.earlyPixels bg x s x y, m.Visible p →
    c.dirty.Has p) : Marks c (c.text F x y s fg bg) := by
  unfold text
  split_ifs with hr
  · exact .refl
  obtain ⟨-,-,ht⟩ := textLoop_touches (c := c) (s := s) F fg bg x y (Int.le_refl x)
  generalize textLoop F x fg bg s x y c = r at ht ⊢
  obtain ⟨px',y',c'⟩ := r
  apply Touches.mark (S := {p | (⟨x,y',px'-x,F.uiCellH⟩ : GpipeRect).Has p})
  · apply ht.settle
    intro p hp hv
    exact hp.imp_left fun he => hearly (by simpa using hr) p he hv
  · exact fun p hp _ => Or.inr hp

end GpipeCtx

end KiNBOL
