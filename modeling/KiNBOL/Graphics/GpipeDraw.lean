import KiNBOL.Graphics.GpipeMarks

namespace KiNBOL

/-- The value fits an `int`. -/
def FitsInt (x : Int) : Prop := -2^31 ≤ x ∧ x < 2^31

/-- Something between two `int`s is an `int`. -/
theorem FitsInt.between {x y z : Int} (hx : FitsInt x) (hz : FitsInt z) (hxy : x ≤ y)
    (hyz : y ≤ z) : FitsInt y := by
  unfold FitsInt at *
  omega

namespace GpipeCtx

variable {m : GpipeMode} {c c' : GpipeCtx m} {p : Int × Int} {S : Set (Int × Int)}
  {x y w h : Int} {color : BitVec 32}

theorem store_marks {v : BitVec 32} (hp : m.Visible (x,y)) :
    Marks c ((c.store (word m x y) v).markDirty x y 1 1) := by
  have ht : Touches {(x,y)} c (c.store (word m x y) v) := touches_word hp rfl
  apply ht.mark
  intro q hq _
  rw [Set.mem_singleton_iff.mp hq]
  right
  simp only [GpipeRect.Has]
  omega

theorem visible_of_toU32 (hx : FitsInt x) (hy : FitsInt y)
    (hin : ¬ (toU32 x ≥ m.width ∨ toU32 y ≥ m.height)) : m.Visible (x,y) := by
  rw [toU32_ge_iff hx.1 hx.2 m.width_lt,toU32_ge_iff hy.1 hy.2 m.height_lt] at hin
  unfold GpipeMode.Visible
  tauto

theorem pixel_marks (hx : FitsInt x) (hy : FitsInt y) : Marks c (c.pixel x y color) := by
  unfold pixel
  split_ifs with hin
  · exact .refl
  · exact store_marks (visible_of_toU32 hx hy hin)

theorem pixelBlend_marks (hx : FitsInt x) (hy : FitsInt y) : Marks c (c.pixelBlend x y color) := by
  unfold pixelBlend
  split_ifs with hin
  · exact .refl
  · exact store_marks (visible_of_toU32 hx hy hin)

theorem clear_marks : Marks c (c.clear color) := by
  unfold clear
  apply Touches.mark (S := Set.univ)
  · apply Touches.foldl
    intro y _ d
    apply Touches.foldl
    intro x _ e
    exact touches_store fun _ _ _ => trivial
  · intro p _ hp
    right
    unfold GpipeMode.Visible at hp
    simp only [GpipeRect.Has]
    omega

theorem rect_marks (hx : FitsInt x) (hy : FitsInt y) (hxw : FitsInt (x+w)) (hyh : FitsInt (y+h)) :
    Marks c (c.rect x y w h color) := by
  unfold rect
  split_ifs with he
  · exact .refl
  have hw1 : FitsInt (x+w-1) := hx.between hxw (by omega) (by omega)
  have hh1 : FitsInt (y+h-1) := hy.between hyh (by omega) (by omega)
  refine Touches.trans (Touches.foldl ?_) (Touches.foldl ?_)
  · intro i hi d
    obtain ⟨h1,h2⟩ := mem_intRange.mp hi
    have hi' : FitsInt i := hx.between hxw h1 (by omega)
    exact (pixel_marks hi' hy).trans (pixel_marks hi' hh1)
  · intro i hi d
    obtain ⟨h1,h2⟩ := mem_intRange.mp hi
    have hi' : FitsInt i := hy.between hyh h1 (by omega)
    exact (pixel_marks hx hi').trans (pixel_marks hw1 hi')

theorem clipRect_inside {r : GpipeRect} (hr : clipRect m x y w h = some r) : r.Inside m := by
  have h1 := iclamp_bounds x (Int.natCast_nonneg m.width)
  have h2 := iclamp_bounds (x+w) (Int.natCast_nonneg m.width)
  have h3 := iclamp_bounds y (Int.natCast_nonneg m.height)
  have h4 := iclamp_bounds (y+h) (Int.natCast_nonneg m.height)
  simp only [clipRect] at hr
  split_ifs at hr with he he'
  cases hr
  simp only [GpipeRect.Inside]
  omega

theorem visible_of_inside {r : GpipeRect} (hr : r.Inside m) (hp : r.Has p) :
    m.Visible p := by
  unfold GpipeRect.Inside at hr
  unfold GpipeRect.Has at hp
  unfold GpipeMode.Visible
  omega

theorem rectFill_marks : Marks c (c.rectFill x y w h color) := by
  unfold rectFill
  cases hr : clipRect m x y w h with
  | none => exact .refl
  | some r =>
    have hin := clipRect_inside hr
    apply Touches.mark (S := {p | r.Has p})
    · apply Touches.foldl
      intro row hrow d
      obtain ⟨hr1,hr2⟩ := mem_intRange.mp hrow
      apply Touches.foldl
      intro col hcol e
      have hp : r.Has (r.x+col,row) := by
        rw [List.mem_range] at hcol
        simp only [GpipeRect.Has]
        omega
      have hvis := visible_of_inside hin hp
      rw [word_add (visible_of_inside hin (p := (r.x,row)) ?_) hvis]
      · exact touches_word hvis hp
      · simp only [GpipeRect.Has] at hp ⊢
        omega
    · exact fun p hp _ => Or.inr hp

/-- With `a` of `D` columns and `b` of `E` rows to go: the error term of the line. -/
def lineError (D E a b : Nat) : Int := (D : Int)-E+(a*E : Nat)-(b*D : Nat)

/-- Neither direction is gone beyond its end, and one of them is gone. -/
theorem lineError_moves {D E a b : Nat} (ha : a ≤ D) (hb : b ≤ E) (hne : a ≠ 0 ∨ b ≠ 0) :
    (2*lineError D E a b ≥ -E → 0 < a) ∧ (2*lineError D E a b ≤ D → 0 < b) ∧
    (2*lineError D E a b ≥ -E ∨ 2*lineError D E a b ≤ D) := by
  unfold lineError
  refine ⟨fun hmove => ?_,fun hmove => ?_,by omega⟩
  · by_contra h0
    have ha0 : a = 0 := by omega
    have hbD : 1*D ≤ b*D := Nat.mul_le_mul_right D (by omega)
    rw [ha0,Nat.zero_mul] at hmove
    omega
  · by_contra h0
    have hb0 : b = 0 := by omega
    have haE : 1*E ≤ a*E := Nat.mul_le_mul_right E (by omega)
    rw [hb0,Nat.zero_mul] at hmove
    omega

theorem lineError_column {D E a b : Nat} (ha : 0 < a) :
    lineError D E a b+(-E) = lineError D E (a-1) b := by
  obtain ⟨k,rfl⟩ : ∃ k, a = k+1 := ⟨a-1,by omega⟩
  have hk : (k+1)*E = k*E+E := Nat.succ_mul k E
  simp only [lineError,hk,Nat.add_sub_cancel]
  omega

theorem lineError_row {D E a b : Nat} (hb : 0 < b) :
    lineError D E a b+D = lineError D E a (b-1) := by
  obtain ⟨k,rfl⟩ : ∃ k, b = k+1 := ⟨b-1,by omega⟩
  have hk : (k+1)*D = k*D+D := Nat.succ_mul k D
  simp only [lineError,hk,Nat.add_sub_cancel]
  omega

/-- One coordinate of the line: `n` steps of `s` lead from `v` to its end. -/
structure LineAxis (v s e : Int) (n : Nat) : Prop where
  sign : s = 1 ∨ s = -1
  fits : FitsInt v
  fits_end : FitsInt e
  reach : e = v+s*n

theorem LineAxis.advance {v s e : Int} {n : Nat} (ha : LineAxis v s e n) (hn : 0 < n) :
    LineAxis (v+s) s e (n-1) := by
  obtain ⟨hs,hv,he,hr⟩ := ha
  unfold FitsInt at hv he
  obtain rfl | rfl := hs
  · exact ⟨Or.inl rfl,by unfold FitsInt; omega,he,by omega⟩
  · exact ⟨Or.inr rfl,by unfold FitsInt; omega,he,by omega⟩

theorem LineAxis.start {v e : Int} (hv : FitsInt v) (he : FitsInt e) :
    LineAxis v (if v < e then 1 else -1) e (e-v).natAbs := by
  split_ifs with h
  · exact ⟨Or.inl rfl,hv,he,by omega⟩
  · exact ⟨Or.inr rfl,hv,he,by omega⟩

theorem LineAxis.done {v s e : Int} {n : Nat} (ha : LineAxis v s e n) : v = e ↔ n = 0 := by
  obtain ⟨hs,-,-,hr⟩ := ha
  obtain rfl | rfl := hs <;> omega

/-- The line draws its pixels and ends. -/
theorem lineLoop_spec {x1 y1 sx sy : Int} {D E a b fuel : Nat} (hx : LineAxis x sx x1 a)
    (hy : LineAxis y sy y1 b) (ha : a ≤ D) (hb : b ≤ E) (hfuel : a+b < fuel) : ∃ c',
    lineLoop x1 y1 D (-E) sx sy color fuel x y (lineError D E a b) c = some c' ∧ Marks c c' := by
  induction fuel generalizing a b x y c with
  | zero => omega
  | succ fuel ih =>
    have hpix : Marks c (c.pixel x y color) := pixel_marks hx.fits hy.fits
    rw [lineLoop]
    by_cases hend : x = x1 ∧ y = y1
    · rw [if_pos hend]
      exact ⟨_,rfl,hpix⟩
    rw [if_neg hend]
    rw [hx.done,hy.done] at hend
    obtain ⟨hcol,hrow,hone⟩ := lineError_moves ha hb (by omega)
    dsimp only
    by_cases h1 : 2*lineError D E a b ≥ -E <;> by_cases h2 : 2*lineError D E a b ≤ D
    · have h3 := hcol h1
      have h4 := hrow h2
      obtain ⟨c',hres,hm⟩ := ih (c := c.pixel x y color) (hx.advance h3) (hy.advance h4) (by omega)
        (by omega) (by omega)
      rw [← lineError_row h4,← lineError_column h3] at hres
      exact ⟨c',by simpa only [if_pos h1,if_pos h2] using hres,hpix.trans hm⟩
    · have h3 := hcol h1
      obtain ⟨c',hres,hm⟩ := ih (c := c.pixel x y color) (hx.advance h3) hy (by omega) hb (by omega)
      rw [← lineError_column h3] at hres
      exact ⟨c',by simpa only [if_pos h1,if_neg h2] using hres,hpix.trans hm⟩
    · have h4 := hrow h2
      obtain ⟨c',hres,hm⟩ := ih (c := c.pixel x y color) hx (hy.advance h4) ha (by omega) (by omega)
      rw [← lineError_row h4] at hres
      exact ⟨c',by simpa only [if_neg h1,if_pos h2] using hres,hpix.trans hm⟩
    · exact absurd hone (by tauto)

theorem line_spec {x0 y0 x1 y1 : Int} {fuel : Nat} (hx0 : FitsInt x0) (hy0 : FitsInt y0)
    (hx1 : FitsInt x1) (hy1 : FitsInt y1) (hfuel : (x1-x0).natAbs+(y1-y0).natAbs < fuel) :
    ∃ c', c.line x0 y0 x1 y1 color fuel = some c' ∧ Marks c c' := by
  have herr : ((x1-x0).natAbs : Int)+-((y1-y0).natAbs : Int) =
      lineError (x1-x0).natAbs (y1-y0).natAbs (x1-x0).natAbs (y1-y0).natAbs := by
    rw [lineError,Nat.mul_comm (y1-y0).natAbs]
    omega
  unfold line
  dsimp only
  rw [herr]
  exact lineLoop_spec (.start hx0 hx1) (.start hy0 hy1) (Nat.le_refl _) (Nat.le_refl _) hfuel

/-- The octant walk stays within `0 ≤ y ≤ x ≤ r`. -/
theorem octants_spec {draw : GpipeCtx m → Int → Int → GpipeCtx m} {r : Int} (err : Int)
    {fuel : Nat} (hdraw : ∀ d x y, 0 ≤ y → y ≤ x → x ≤ r → Marks d (draw d x y)) (hy : 0 ≤ y)
    (hx : x ≤ r) (hfuel : (x-y+1).toNat < fuel) :
    ∃ c', octants draw fuel x y err c = some c' ∧ Marks c c' := by
  induction fuel generalizing x y err c with
  | zero => omega
  | succ fuel ih =>
    rw [octants]
    by_cases hend : x < y
    · rw [if_pos hend]
      exact ⟨c,rfl,.refl⟩
    rw [if_neg hend]
    have hd := hdraw c x y hy (by omega) hx
    by_cases herr : err ≤ 0
    · obtain ⟨c',hres,hm⟩ := ih (c := draw c x y) (y := y+1) (err+(2*(y+1)+1)) (by omega) hx
        (by omega)
      exact ⟨c',by simpa only [if_pos herr] using hres,hd.trans hm⟩
    · obtain ⟨c',hres,hm⟩ := ih (c := draw c x y) (x := x-1) (y := y+1)
        (err+(2*(y+1-(x-1))+1)) (by omega) (by omega) (by omega)
      exact ⟨c',by simpa only [if_neg herr] using hres,hd.trans hm⟩

theorem circle_spec {cx cy r : Int} {fuel : Nat} (hx0 : FitsInt (cx-r)) (hx1 : FitsInt (cx+r))
    (hy0 : FitsInt (cy-r)) (hy1 : FitsInt (cy+r)) (hfuel : r.toNat+1 < fuel) :
    ∃ c', c.circle cx cy r color fuel = some c' ∧ Marks c c' := by
  unfold circle
  split_ifs with hr
  · exact ⟨c,rfl,.refl⟩
  refine octants_spec (r := r) 0 ?_ (by omega) (by omega) (by omega)
  intro d x y h0 hyx hxr
  have fx : ∀ k, -r ≤ k → k ≤ r → FitsInt (cx+k) := fun k h1 h2 =>
    hx0.between hx1 (by omega) (by omega)
  have fy : ∀ k, -r ≤ k → k ≤ r → FitsInt (cy+k) := fun k h1 h2 =>
    hy0.between hy1 (by omega) (by omega)
  have hpix : ∀ (e : GpipeCtx m) (i j : Int), -r ≤ i → i ≤ r → -r ≤ j → j ≤ r →
      Marks e (e.pixel (cx+i) (cy+j) color) := fun e i j h1 h2 h3 h4 =>
    pixel_marks (fx i h1 h2) (fy j h3 h4)
  simp only [Int.sub_eq_add_neg]
  iterate 7 refine Touches.trans ?_ (hpix _ _ _ (by omega) (by omega) (by omega) (by omega))
  exact hpix _ _ _ (by omega) (by omega) (by omega) (by omega)

theorem circleFill_spec {cx cy r : Int} {fuel : Nat} (hfuel : r.toNat+1 < fuel) :
    ∃ c', c.circleFill cx cy r color fuel = some c' ∧ Marks c c' := by
  unfold circleFill
  split_ifs with hr
  · exact ⟨c,rfl,.refl⟩
  refine octants_spec (r := r) 0 ?_ (by omega) (by omega) (by omega)
  intro d x y _ _ _
  exact ((rectFill_marks.trans rectFill_marks).trans rectFill_marks).trans rectFill_marks

theorem bmpDraw_marks {data : Nat → BitVec 8} {size : Nat} :
    Marks c (c.bmpDraw x y data size).2 := by
  unfold bmpDraw
  dsimp only
  generalize toInt32 (leWord data 18 4) = imgW
  generalize toInt32 (leWord data 22 4) = imgHRaw
  by_cases h1 : size < 54
  · simpa only [if_pos h1] using Touches.refl
  by_cases h2 : data 0 ≠ 66 ∨ data 1 ≠ 77
  · simpa only [if_neg h1,if_pos h2] using Touches.refl
  by_cases h3 : leWord data 28 2 ≠ 24
  · simpa only [if_neg h1,if_neg h2,if_pos h3] using Touches.refl
  by_cases h4 : imgW ≤ 0
  · simpa only [if_neg h1,if_neg h2,if_neg h3,if_pos h4] using Touches.refl
  simp only [if_neg h1,if_neg h2,if_neg h3,if_neg h4]
  generalize (if decide (imgHRaw < 0) = true then toInt32 (-imgHRaw) else imgHRaw) = imgH
  by_cases h5 : imgH ≤ 0
  · simpa only [if_pos h5] using Touches.refl
  rw [if_neg h5]
  by_cases h6 : (((leWord data 10 4 : Nat)+bmpRowSize imgW*imgH)%2^64).toNat > size
  · simpa only [if_pos h6] using Touches.refl
  rw [if_neg h6]
  apply Touches.mark (S := {p | (⟨x,y,imgW,imgH⟩ : GpipeRect).Has p})
  · apply Touches.foldl
    intro row hrow d
    have hdst : 0 ≤ (if decide (imgHRaw < 0) = true then row else imgH-1-row) ∧
        (if decide (imgHRaw < 0) = true then row else imgH-1-row) < imgH := by
      rw [mem_intRange] at hrow
      split_ifs <;> omega
    generalize (if decide (imgHRaw < 0) = true then row else imgH-1-row) = dstRow at hdst ⊢
    split_ifs with hpy
    · exact .refl
    apply Touches.foldl
    intro cx hcx e
    rw [mem_intRange] at hcx
    split_ifs with hpx
    · exact .refl
    apply touches_word (p := (x+cx,y+dstRow))
    · simp only [GpipeMode.Visible]
      omega
    · simp only [Set.mem_ofPred_eq,GpipeRect.Has]
      omega
  · exact fun p hp _ => Or.inr hp

end GpipeCtx

end KiNBOL
