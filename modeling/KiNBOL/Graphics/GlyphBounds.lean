import KiNBOL.Graphics.Ttf
import Mathlib.Data.Nat.Init

namespace KiNBOL

/-- The byte is one of the font's, the entry one of the array's. -/
def GlyphAccess.InBounds (size : Nat) : GlyphAccess → Prop
  | .font i => i < size
  | .point i n => i < n

/-- No contour goes on behind the last point. -/
def GlyphPoints.ContoursFit (pts : GlyphPoints) : Prop :=
  ∀ c ∈ TtfFont.contours 0 pts.ends, c.1 ≤ c.2 → c.2 < pts.n

namespace TtfFont

variable {f : TtfFont}

/-- The glyphs that a glyph is made of. -/
def parts (f : TtfFont) (gi : Int) : List Nat :=
  match (f.glyfLoca gi).result with
  | none => []
  | some (off,len) =>
    if len ≠ 0 ∧ rdS16 f.data off < 0 then
      (f.components ((off+10)%2^32)).filterMap (fun r => r.result.map (·.glyph))
    else []

/-- A glyph is a part of another, some levels down. -/
def Reaches (f : TtfFont) : Nat → Int → Int → Prop
  | 0,gi,g => gi = g
  | n+1,gi,g => ∃ c ∈ f.parts gi, f.Reaches n c g

/-- The glyph is empty, or the number of its contours lies in the font and, where its points can be
decoded, its contours fit them. -/
def GlyphOk (f : TtfFont) (g : Int) : Prop :=
  ∀ off len, (f.glyfLoca g).result = some (off,len) → len ≠ 0 → off+2 ≤ f.size ∧
    (0 ≤ rdS16 f.data off → ∀ m pts, (f.decodeGlyph m off len).result = some pts →
      pts.ContoursFit)

/-- The glyph is empty, or its header lies in the font. -/
def HeaderInside (f : TtfFont) (gi : Int) : Prop :=
  ∀ off len, (f.glyfLoca gi).result = some (off,len) → len ≠ 0 → off+10 ≤ f.size

/-! ## Checked reads -/

theorem keeps_read {p n size : Nat} (h : p+n ≤ size) : (read p n).Keeps (GlyphAccess.InBounds size) := by
  intro e he
  obtain ⟨i,hi,rfl⟩ := List.mem_map.mp he
  rw [List.mem_range] at hi
  simp only [GlyphAccess.InBounds]
  omega

theorem read_keeps_iff {p n size : Nat} (hn : 0 < n) :
    (read p n).Keeps (GlyphAccess.InBounds size) ↔ p+n ≤ size := by
  refine ⟨fun h => ?_,keeps_read⟩
  have hlast := h (.font (p+(n-1))) (List.mem_map.mpr ⟨n-1,List.mem_range.mpr (by omega),rfl⟩)
  simp only [GlyphAccess.InBounds] at hlast
  omega

theorem keeps_take (p n : Nat) : (f.take p n).Keeps (GlyphAccess.InBounds f.size) := by
  simp only [take,Traced.keeps_bind,Traced.keeps_check,Traced.keeps_pure,true_and,implies_true,
    and_true]
  intro a ha
  cases a
  exact keeps_read ((Traced.result_check _).mp ha)

theorem keeps_skip (p n : Nat) : (f.skip p n).Keeps (GlyphAccess.InBounds f.size) := by
  rw [skip]
  split_ifs
  · exact Traced.keeps_pure p
  · exact keeps_take p n

theorem keeps_glyfLoca (gi : Int) : (f.glyfLoca gi).Keeps (GlyphAccess.InBounds f.size) := by
  -- both formats read what they have checked
  have hread : ∀ {p n : Nat} (a : Nat × Nat),
      (if ¬InFont f.size p n then pure (0,0) else do
        read p n
        pure a : Traced GlyphAccess (Nat × Nat)).Keeps (GlyphAccess.InBounds f.size) := by
    intro p n a
    by_cases hin : InFont f.size p n
    · rw [if_neg (not_not_intro hin)]
      simp only [Traced.keeps_bind,Traced.keeps_pure,implies_true,and_true]
      exact keeps_read hin
    · rw [if_pos hin]
      exact Traced.keeps_pure _
  rw [glyfLoca]
  dsimp only
  split
  · exact Traced.keeps_pure _
  · split
    · exact hread _
    · exact hread _

theorem keeps_component (p : Nat) : (f.component p).Keeps (GlyphAccess.InBounds f.size) := by
  simp only [component,Traced.keeps_bind,keeps_take,keeps_skip,Traced.keeps_pure,true_and,
    implies_true]

theorem keeps_components (p : Nat) :
    ∀ r ∈ f.components p, r.Keeps (GlyphAccess.InBounds f.size) := by
  induction hk : f.size-p using Nat.strong_induction_on generalizing p with
  | _ k ih =>
    intro r hr
    rw [components] at hr
    split at hr
    · rw [List.mem_singleton.mp hr]
      exact keeps_component p
    · rename_i c hc
      rcases List.mem_cons.mp hr with rfl | hr
      · exact keeps_component p
      split_ifs at hr
      · have hnext := component_next hc
        exact ih _ (by omega) _ rfl r hr
      · cases hr

theorem keeps_flagLoop (n p : Nat) (flags : List (BitVec 8)) :
    (f.flagLoop n p flags).Keeps (GlyphAccess.InBounds f.size) := by
  induction hk : n-flags.length using Nat.strong_induction_on generalizing p flags with
  | _ k ih =>
    rw [flagLoop]
    split_ifs with hlt
    · simp only [Traced.keeps_bind,keeps_take,Traced.keeps_touch,true_and]
      intro p₁ _
      refine ⟨?_,fun _ _ => ?_⟩
      · intro e he
        rw [List.mem_singleton.mp he]
        exact hlt
      split_ifs
      · simp only [Traced.keeps_bind,keeps_take,Traced.keeps_touch,true_and]
        intro p₂ _
        refine ⟨?_,fun _ _ => ?_⟩
        · intro e he
          obtain ⟨r,hr,rfl⟩ := List.mem_map.mp he
          rw [List.mem_range] at hr
          simp only [GlyphAccess.InBounds]
          omega
        · apply ih _ _ _ _ rfl
          simp
          omega
      · apply ih _ _ _ _ rfl
        simp
        omega
    · exact Traced.keeps_pure _

theorem keeps_coordinateLoop (short same : BitVec 8) (flags : List (BitVec 8)) (n p : Nat) :
    (f.coordinateLoop short same flags n p).Keeps (GlyphAccess.InBounds f.size) := by
  apply Traced.keeps_foldlM
  intro i hi p
  have hpoint : ∀ e ∈ [GlyphAccess.point i n], e.InBounds f.size := by
    intro e he
    rw [List.mem_singleton.mp he]
    exact List.mem_range.mp hi
  simp only [Traced.keeps_bind,Traced.keeps_touch,keeps_skip,Traced.keeps_pure,true_and,
    implies_true,and_true]
  exact ⟨hpoint,fun _ _ _ _ => hpoint⟩

theorem keeps_decodeGlyph (m : GlyphMemory) (off len : Nat) :
    (f.decodeGlyph m off len).Keeps (GlyphAccess.InBounds f.size) := by
  simp only [decodeGlyph,Traced.keeps_bind,Traced.keeps_check,keeps_take,keeps_flagLoop,
    keeps_coordinateLoop,Traced.keeps_pure,true_and,implies_true,and_true]
  intro a ha
  cases a
  have hhead := (Traced.result_check _).mp ha
  apply keeps_read
  have := hhead.1
  simp only [InFont] at this
  omega

/-! ## Contours -/

variable {m : GlyphMemory} {pts : GlyphPoints} {start last : Nat}

theorem keeps_points {l : List Nat} {n size : Nat} (h : ∀ i ∈ l, i < n) :
    (Traced.touch (l.map (fun i => GlyphAccess.point i n))).Keeps (GlyphAccess.InBounds size) := by
  intro e he
  obtain ⟨i,hi,rfl⟩ := List.mem_map.mp he
  exact h i hi

theorem keeps_contourRound {npc base size : Nat} (hnpc : 0 < npc) (hlast : start+npc ≤ pts.n)
    (s : Bool × Nat) (k : Nat) :
    (contourRound m pts start npc base s k).Keeps (GlyphAccess.InBounds size) := by
  have hidx : ∀ e ∈ [GlyphAccess.point (start+(base+(k+1))%npc) pts.n], e.InBounds size := by
    intro e he
    rw [List.mem_singleton.mp he]
    have := Nat.mod_lt (base+(k+1)) hnpc
    simp only [GlyphAccess.InBounds]
    omega
  rw [contourRound,Traced.keeps_bind]
  refine ⟨hidx,fun _ _ => ?_⟩
  split_ifs
  · exact Traced.keeps_pure _
  · simp only [Traced.keeps_bind,Traced.keeps_check,Traced.keeps_pure,implies_true,and_true]
  · exact Traced.keeps_pure _

theorem startEntries_lt {npc : Nat} (hnpc : 0 < npc) :
    ∀ i ∈ startEntries m pts start npc, i < start+npc := by
  intro i hi
  rw [startEntries] at hi
  have hmod := Nat.mod_lt 1 hnpc
  split at hi
  · rename_i j hj
    have hlt := List.mem_range.mp (List.mem_of_find?_eq_some hj)
    simp only [List.mem_append,List.mem_map,List.mem_range,List.mem_singleton] at hi
    rcases hi with ⟨k,hk,rfl⟩ | rfl <;> omega
  · simp only [List.mem_append,List.mem_map,List.mem_range,List.mem_cons,List.not_mem_nil,
      or_false] at hi
    rcases hi with ⟨k,hk,rfl⟩ | rfl | rfl <;> omega

theorem keeps_contour (size : Nat) (hne : start ≤ last) (hlast : last < pts.n) (pushes : Nat) :
    (contour m pts start last pushes).Keeps (GlyphAccess.InBounds size) := by
  have hnpc : 0 < last+1-start := by omega
  simp only [contour,Traced.keeps_bind,Traced.keeps_check,Traced.keeps_pure,true_and,implies_true,
    and_true]
  constructor
  · apply keeps_points
    intro i hi
    have := startEntries_lt hnpc i hi
    omega
  · intro _ _ _ _
    apply Traced.keeps_foldlM
    intro k _ s
    exact keeps_contourRound hnpc (by omega) s k

theorem contourRound_ends {npc base : Nat} (hpush : ∀ k, m.push k = true) (s : Bool × Nat)
    (k : Nat) : ∃ s', (contourRound m pts start npc base s k).result = some s' := by
  simp only [contourRound,Traced.result_bind]
  split_ifs with hon hctrl
  · exact ⟨_,(),rfl,rfl⟩
  · exact ⟨_,(),rfl,Traced.result_bind.mpr ⟨(),(Traced.result_check _).mpr (hpush _),rfl⟩⟩
  · exact ⟨_,(),rfl,rfl⟩

/-- Some round comes to the last point, wherever the loop starts. -/
theorem round_last {npc base : Nat} (hbase : base < npc) :
    ∃ k, k < npc ∧ (base+(k+1))%npc = npc-1 := by
  by_cases hb : base+1 < npc
  · refine ⟨npc-2-base,by omega,?_⟩
    rw [Nat.mod_eq_of_lt (by omega)]
    omega
  · refine ⟨npc-1,by omega,?_⟩
    rw [show base+(npc-1+1) = npc-1+npc by omega,Nat.add_mod_right,Nat.mod_eq_of_lt (by omega)]

/-- With room for all its points, the loop over a contour comes to the last one. -/
theorem contour_last {size : Nat} (hne : start ≤ last) (hpush : ∀ k, m.push k = true) (pushes : Nat)
    (h : (contour m pts start last pushes).Keeps (GlyphAccess.InBounds size)) : last < pts.n := by
  have hbase : (startIdx m pts start (last+1-start)).getD 0 < last+1-start := by
    cases hs : startIdx m pts start (last+1-start) with
    | none => exact Nat.sub_pos_of_lt (Nat.lt_succ_of_le hne)
    | some i => exact List.mem_range.mp (List.mem_of_find?_eq_some hs)
  obtain ⟨k,hk,hlast⟩ := round_last hbase
  simp only [contour,Traced.keeps_bind] at h
  have hloop := (h.2 () rfl).2 () ((Traced.result_check _).mpr (hpush _))
  obtain ⟨s,hs⟩ := hloop.1.round (fun k _ s => contourRound_ends hpush s k) (List.mem_range.mpr hk)
  rw [contourRound,Traced.keeps_bind] at hs
  have hidx := hs.1 _ (List.mem_singleton.mpr rfl)
  rw [hlast] at hidx
  simp only [GlyphAccess.InBounds] at hidx
  omega

theorem contour_ends (hpush : ∀ k, m.push k = true) (pushes : Nat) :
    ∃ k, (contour m pts start last pushes).result = some k := by
  obtain ⟨s,hs⟩ := Traced.result_foldlM
    (fun k (_ : k ∈ List.range (last+1-start)) s => contourRound_ends hpush s k) (false,pushes+1)
  simp only [contour,Traced.result_bind]
  exact ⟨s.2,(),rfl,(),(Traced.result_check _).mpr (hpush _),s,hs,rfl⟩

/-- A simple glyph stays in its arrays, whatever the memory does, just if its contours fit. -/
theorem simpleGlyph_keeps_iff (f : TtfFont) (off len : Nat) :
    (∀ m, (f.extractSimpleGlyph m off len).Keeps (GlyphAccess.InBounds f.size)) ↔
      ∀ m pts, (f.decodeGlyph m off len).result = some pts → pts.ContoursFit := by
  constructor
  · intro h m pts hpts c hc hne
    -- decoding does not push, so it comes to the contours in a memory with room for their points
    let m' : GlyphMemory := { m with push := fun _ => true }
    have hpts' : (f.decodeGlyph m' off len).result = some pts := hpts
    have hm := h m'
    rw [extractSimpleGlyph,Traced.keeps_bind] at hm
    have hloop := hm.2 pts hpts'
    rw [Traced.keeps_bind] at hloop
    obtain ⟨pushes,hround⟩ := hloop.1.round (fun c _ pushes => by
      split_ifs
      · exact contour_ends (fun _ => rfl) pushes
      · exact ⟨pushes,rfl⟩) hc
    rw [if_pos hne] at hround
    exact contour_last hne (fun _ => rfl) pushes hround
  · intro h m
    rw [extractSimpleGlyph,Traced.keeps_bind]
    refine ⟨keeps_decodeGlyph m off len,fun pts hpts => ?_⟩
    simp only [Traced.keeps_bind,Traced.keeps_pure,implies_true,and_true]
    apply Traced.keeps_foldlM
    intro c hc pushes
    split_ifs with hne
    · exact keeps_contour f.size hne (h m pts hpts c hc hne) pushes
    · exact Traced.keeps_pure _

/-! ## Outlines -/

/-- One level of `extract_glyph_outline`. -/
theorem outline_keeps_iff {mem : List Nat → GlyphMemory} {left : Nat} {path : List Nat} {gi : Int} :
    (f.extractGlyphOutline mem (left+1) path gi).Keeps (GlyphAccess.InBounds f.size) ↔
    ∀ off len, (f.glyfLoca gi).result = some (off,len) → len ≠ 0 → off+2 ≤ f.size ∧
      (0 ≤ rdS16 f.data off →
        (f.extractSimpleGlyph (mem path) off len).Keeps (GlyphAccess.InBounds f.size)) ∧
      (rdS16 f.data off < 0 → ∀ x ∈ (f.components ((off+10)%2^32)).zipIdx, ∀ c,
        x.1.result = some c →
        (f.extractGlyphOutline mem left (x.2::path) c.glyph).Keeps (GlyphAccess.InBounds f.size)) := by
  rw [extractGlyphOutline,Traced.keeps_bind]
  constructor
  · intro h off len hloca hlen
    have hbody := h.2 (off,len) hloca
    dsimp only at hbody
    rw [if_neg hlen,Traced.keeps_bind,read_keeps_iff (by decide)] at hbody
    have hrest := hbody.2 () rfl
    refine ⟨hbody.1,fun hsimple => ?_,fun hcomp x hx c hc e he => ?_⟩
    · rw [if_pos hsimple] at hrest
      exact hrest
    · rw [if_neg (by omega)] at hrest
      apply hrest
      refine List.mem_flatMap.mpr ⟨x,hx,List.mem_append_right _ ?_⟩
      rw [hc]
      exact he
  · intro h
    refine ⟨keeps_glyfLoca gi,fun r hloca => ?_⟩
    obtain ⟨off,len⟩ := r
    dsimp only
    by_cases hlen : len = 0
    · rw [if_pos hlen]
      exact Traced.keeps_pure ()
    obtain ⟨hin,hsimple,hcomp⟩ := h off len hloca hlen
    rw [if_neg hlen,Traced.keeps_bind,read_keeps_iff (by decide)]
    refine ⟨hin,fun _ _ => ?_⟩
    split_ifs with hs
    · exact hsimple hs
    · intro e he
      obtain ⟨x,hx,he⟩ := List.mem_flatMap.mp he
      rcases List.mem_append.mp he with he | he
      · exact keeps_components _ x.1 (List.fst_mem_of_mem_zipIdx hx) e he
      · cases hc : x.1.result with
        | none =>
          rw [hc] at he
          cases he
        | some c =>
          rw [hc] at he
          exact hcomp (by omega) x hx c hc e he

theorem mem_parts {gi : Int} {g : Nat} : g ∈ f.parts gi ↔
    ∃ off len, (f.glyfLoca gi).result = some (off,len) ∧ len ≠ 0 ∧ rdS16 f.data off < 0 ∧
      ∃ x ∈ (f.components ((off+10)%2^32)).zipIdx, ∃ c, x.1.result = some c ∧ c.glyph = g := by
  have hfst (l : List (Traced GlyphAccess GlyphComponent)) : g ∈
      l.filterMap (fun r => r.result.map (·.glyph)) ↔
      ∃ x ∈ l.zipIdx, ∃ c, x.1.result = some c ∧ c.glyph = g := by
    conv_lhs => rw [← List.zipIdx_map_fst 0 l,List.filterMap_map]
    simp only [List.mem_filterMap,Function.comp_apply,Option.map_eq_some_iff]
  rw [parts]
  cases hloca : (f.glyfLoca gi).result with
  | none => simp
  | some r =>
    obtain ⟨off,len⟩ := r
    dsimp only
    split_ifs with hcomp
    · rw [hfst]
      constructor
      · intro h
        exact ⟨off,len,rfl,hcomp.1,hcomp.2,h⟩
      · intro h
        obtain ⟨_,_,he,-,-,h⟩ := h
        cases he
        exact h
    · refine ⟨fun h => absurd h List.not_mem_nil,fun h => ?_⟩
      obtain ⟨_,_,he,hne,hneg,-⟩ := h
      cases he
      exact absurd ⟨hne,hneg⟩ hcomp

/-- Glyphs that are in order, down to the level where the recursion ends, are read in bounds. -/
theorem outline_keeps {mem : List Nat → GlyphMemory} {left : Nat} {path : List Nat} {gi : Int}
    (h : ∀ n, n < left → ∀ g, f.Reaches n gi g → f.GlyphOk g) :
    (f.extractGlyphOutline mem left path gi).Keeps (GlyphAccess.InBounds f.size) := by
  induction left generalizing path gi with
  | zero => exact Traced.keeps_pure ()
  | succ left ih =>
    rw [outline_keeps_iff]
    intro off len hloca hlen
    obtain ⟨hin,hsimple⟩ := h 0 (Nat.zero_lt_succ _) gi rfl off len hloca hlen
    refine ⟨hin,fun hs => (simpleGlyph_keeps_iff f off len).mpr (hsimple hs) _,?_⟩
    intro hneg x hx c hc
    apply ih
    intro n hn g hg
    have hpart : c.glyph ∈ f.parts gi :=
      mem_parts.mpr ⟨off,len,hloca,hlen,hneg,x,hx,c,hc,rfl⟩
    exact h (n+1) (by omega) g ⟨c.glyph,hpart,hg⟩

/-- If no memory leads out of bounds then every glyph reached is in order. -/
theorem ok_of_outline_keeps {left n : Nat} {path : List Nat} {gi g : Int}
    (h : ∀ m, (f.extractGlyphOutline (fun _ => m) left path gi).Keeps
      (GlyphAccess.InBounds f.size)) (hn : n < left) (hg : f.Reaches n gi g) : f.GlyphOk g := by
  induction left generalizing path gi n with
  | zero => exact absurd hn (Nat.not_lt_zero n)
  | succ left ih =>
    have hlevel := fun m => outline_keeps_iff.mp (h m)
    cases n with
    | zero =>
      obtain rfl : gi = g := hg
      intro off len hloca hlen
      let quiet : GlyphMemory := ⟨true,true,fun _ => true,fun _ => 0⟩
      refine ⟨(hlevel quiet off len hloca hlen).1,fun hs => ?_⟩
      exact (simpleGlyph_keeps_iff f off len).mp fun m => (hlevel m off len hloca hlen).2.1 hs
    | succ n =>
      obtain ⟨c,hc,hg⟩ := hg
      obtain ⟨off,len,hloca,hlen,hneg,x,hx,c',hc',rfl⟩ := mem_parts.mp hc
      exact ih (fun m => (hlevel m off len hloca hlen).2.2 hneg x hx c' hc') (by omega) hg

theorem keeps_readAdvance (gi : Int) : (f.readAdvance gi).Keeps (GlyphAccess.InBounds f.size) := by
  rw [readAdvance]
  generalize (if gi < f.numHmetrics then gi else f.numHmetrics-1) = idx
  split_ifs with h
  · exact keeps_read h.2.2
  · exact Traced.keeps_pure _

theorem rasterize_keeps_iff {mem : List Nat → GlyphMemory} {gi : Int} :
    (f.rasterizeGlyph mem gi).Keeps (GlyphAccess.InBounds f.size) ↔
    ∀ off len, (f.glyfLoca gi).result = some (off,len) → len ≠ 0 → off+10 ≤ f.size ∧
      (f.extractGlyphOutline mem 7 [] gi).Keeps (GlyphAccess.InBounds f.size) := by
  rw [rasterizeGlyph,Traced.keeps_bind]
  constructor
  · intro h off len hloca hlen
    have hbody := h.2 (off,len) hloca
    dsimp only at hbody
    rw [Traced.keeps_bind] at hbody
    have hadvance : (f.readAdvance gi).result = some () := by
      rw [readAdvance]
      split_ifs <;> rfl
    have hrest := hbody.2 () hadvance
    rw [if_neg hlen,Traced.keeps_bind,read_keeps_iff (by decide)] at hrest
    exact ⟨hrest.1,hrest.2 () rfl⟩
  · intro h
    refine ⟨keeps_glyfLoca gi,fun r hloca => ?_⟩
    obtain ⟨off,len⟩ := r
    dsimp only
    rw [Traced.keeps_bind]
    refine ⟨keeps_readAdvance gi,fun _ _ => ?_⟩
    split_ifs with hlen
    · exact Traced.keeps_pure ()
    · obtain ⟨hin,hrest⟩ := h off len hloca hlen
      rw [Traced.keeps_bind,read_keeps_iff (by decide)]
      exact ⟨hin,fun _ _ => hrest⟩

/-- An empty glyph is made of nothing. -/
theorem ok_of_empty {n : Nat} {gi g : Int}
    (h : ∀ off len, (f.glyfLoca gi).result = some (off,len) → len = 0) (hg : f.Reaches n gi g) :
    f.GlyphOk g := by
  cases n with
  | zero =>
    obtain rfl : gi = g := hg
    exact fun off len hloca hlen => absurd (h off len hloca) hlen
  | succ n =>
    obtain ⟨c,hc,-⟩ := hg
    obtain ⟨off,len,hloca,hlen,-⟩ := mem_parts.mp hc
    exact absurd (h off len hloca) hlen

/-- Rasterizing a glyph stays in the font and in the arrays of its points, whatever the memory
does, just if the header of the glyph and all glyphs that it is made of are in order. -/
theorem glyph_bounds_iff (f : TtfFont) (gi : Int) :
    (∀ mem, (f.rasterizeGlyph mem gi).Keeps (GlyphAccess.InBounds f.size)) ↔
      f.HeaderInside gi ∧ ∀ n, n ≤ 6 → ∀ g, f.Reaches n gi g → f.GlyphOk g := by
  constructor
  · intro h
    have hraster := fun mem => rasterize_keeps_iff.mp (h mem)
    let quiet : GlyphMemory := ⟨true,true,fun _ => true,fun _ => 0⟩
    refine ⟨fun off len hloca hlen => (hraster (fun _ => quiet) off len hloca hlen).1,?_⟩
    intro n hn g hg
    by_cases hsome : ∃ off len, (f.glyfLoca gi).result = some (off,len) ∧ len ≠ 0
    · obtain ⟨off,len,hloca,hlen⟩ := hsome
      exact ok_of_outline_keeps (fun m => (hraster (fun _ => m) off len hloca hlen).2)
        (Nat.lt_succ_of_le hn) hg
    · apply ok_of_empty _ hg
      intro off len hloca
      by_contra hlen
      exact hsome ⟨off,len,hloca,hlen⟩
  · intro h mem
    refine rasterize_keeps_iff.mpr fun off len hloca hlen => ⟨h.1 off len hloca hlen,?_⟩
    exact outline_keeps fun n hn g hg => h.2 n (Nat.le_of_lt_succ hn) g hg

end TtfFont

/-- A font of 172 bytes whose only glyph has two bytes in `loca`, and whose `glyf` table is empty and
begins where the font ends. -/
def headlessFont (i : Nat) : BitVec 8 :=
  ([0,1,0,0, 0,5, 0,0,0,0,0,0,
    0x68,0x65,0x61,0x64, 0,0,0,0, 0,0,0,92, 0,0,0,54,
    0x6D,0x61,0x78,0x70, 0,0,0,0, 0,0,0,146, 0,0,0,6,
    0x6C,0x6F,0x63,0x61, 0,0,0,0, 0,0,0,152, 0,0,0,4,
    0x67,0x6C,0x79,0x66, 0,0,0,0, 0,0,0,172, 0,0,0,0,
    0x63,0x6D,0x61,0x70, 0,0,0,0, 0,0,0,156, 0,0,0,16]++
    List.replicate 54 0++
    [0,1,0,0,0,1, 0,0,0,1, 0,0,0,1, 0,3,0,1,0,0,0,12, 0,4,0,0] : List (BitVec 8)).getD i 0

/-- `ttf_init` accepts the font, and the header of its glyph is read behind the end. -/
theorem glyph_reads_behind : ∃ f, ttfInit headlessFont 172 (by decide) = some f ∧
    ¬∀ mem, (f.rasterizeGlyph mem 0).Keeps (GlyphAccess.InBounds f.size) := by
  have hfont : (ttfInit headlessFont 172 (by decide)).map
      (fun f => ((f.glyfLoca 0).result,f.size)) = some (some (172,2),172) := by
    decide
  obtain ⟨f,hinit,hf⟩ := Option.map_eq_some_iff.mp hfont
  obtain ⟨hloca,hsize⟩ := Prod.mk.inj hf
  refine ⟨f,hinit,fun h => ?_⟩
  let quiet : GlyphMemory := ⟨true,true,fun _ => true,fun _ => 0⟩
  have hheader := (TtfFont.rasterize_keeps_iff.mp (h fun _ => quiet) 172 2 hloca (by decide)).1
  rw [hsize] at hheader
  exact absurd hheader (by decide)

end KiNBOL
