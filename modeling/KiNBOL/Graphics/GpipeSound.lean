import KiNBOL.Framework.Damage
import KiNBOL.Graphics.GpipeText
import Mathlib.Data.List.Flatten

namespace KiNBOL

open Relation

/-- A drawing call with its arguments; text comes with the font as it is at the call. -/
inductive GpipeCall where
  | pixel (x y : Int) (color : BitVec 32)
  | pixelBlend (x y : Int) (src : BitVec 32)
  | clear (color : BitVec 32)
  | rect (x y w h : Int) (color : BitVec 32)
  | rectFill (x y w h : Int) (color : BitVec 32)
  | line (x0 y0 x1 y1 : Int) (color : BitVec 32)
  | circle (cx cy r : Int) (color : BitVec 32)
  | circleFill (cx cy r : Int) (color : BitVec 32)
  | bmpDraw (x y : Int) (data : Nat → BitVec 8) (size : Nat)
  | text (F : FontTtf) (x y : Int) (s : List (BitVec 8)) (fg bg : BitVec 32)

namespace GpipeCall

variable {m : GpipeMode}

/-- The coordinates do not overflow an `int`. Calls that only clip and compare are the same for any
integers. -/
def Fits : GpipeCall → Prop
  | .pixel x y _ | .pixelBlend x y _ => FitsInt x ∧ FitsInt y
  | .rect x y w h _ => FitsInt x ∧ FitsInt y ∧ FitsInt (x+w) ∧ FitsInt (y+h)
  | .line x0 y0 x1 y1 _ => FitsInt x0 ∧ FitsInt y0 ∧ FitsInt x1 ∧ FitsInt y1
  | .circle cx cy r _ => FitsInt (cx-r) ∧ FitsInt (cx+r) ∧ FitsInt (cy-r) ∧ FitsInt (cy+r)
  | .clear _ | .rectFill .. | .circleFill .. | .bmpDraw .. | .text .. => True

/-- The call; loops get as many rounds as they can need. -/
def run (c : GpipeCtx m) : GpipeCall → Option (GpipeCtx m)
  | .pixel x y color => some (c.pixel x y color)
  | .pixelBlend x y src => some (c.pixelBlend x y src)
  | .clear color => some (c.clear color)
  | .rect x y w h color => some (c.rect x y w h color)
  | .rectFill x y w h color => some (c.rectFill x y w h color)
  | .line x0 y0 x1 y1 color => c.line x0 y0 x1 y1 color ((x1-x0).natAbs+(y1-y0).natAbs+1)
  | .circle cx cy r color => c.circle cx cy r color (r.toNat+2)
  | .circleFill cx cy r color => c.circleFill cx cy r color (r.toNat+2)
  | .bmpDraw x y data size => some (c.bmpDraw x y data size).2
  | .text F x y s fg bg => some (c.text F x y s fg bg)

/-- Text stores pixels of the screen that are not marked yet on its last line only. -/
def LastLineOnly (c : GpipeCtx m) : GpipeCall → Prop
  | .text F x y s _ bg => F.ready = true →
    ∀ p ∈ F.earlyPixels bg x s x y, m.Visible p → c.dirty.Has p
  | _ => True

/-- Every call ends, and marks what it changes. -/
theorem run_marks {d : GpipeCall} {c : GpipeCtx m} (hfit : d.Fits) :
    ∃ c', d.run c = some c' ∧ (d.LastLineOnly c → GpipeCtx.Marks c c') := by
  have hsome : ∀ {c' : GpipeCtx m}, GpipeCtx.Marks c c' →
      ∃ c'', some c' = some c'' ∧ (d.LastLineOnly c → GpipeCtx.Marks c c'') :=
    fun hm => ⟨_,rfl,fun _ => hm⟩
  cases d with
  | pixel x y color => exact hsome (GpipeCtx.pixel_marks hfit.1 hfit.2)
  | pixelBlend x y src => exact hsome (GpipeCtx.pixelBlend_marks hfit.1 hfit.2)
  | clear color => exact hsome GpipeCtx.clear_marks
  | rect x y w h color =>
    obtain ⟨hx,hy,hxw,hyh⟩ := hfit
    exact hsome (GpipeCtx.rect_marks hx hy hxw hyh)
  | rectFill x y w h color => exact hsome GpipeCtx.rectFill_marks
  | line x0 y0 x1 y1 color =>
    obtain ⟨hx0,hy0,hx1,hy1⟩ := hfit
    obtain ⟨c',hres,hm⟩ := GpipeCtx.line_spec (c := c) hx0 hy0 hx1 hy1 (Nat.lt_succ_self _)
    exact ⟨c',hres,fun _ => hm⟩
  | circle cx cy r color =>
    obtain ⟨hx0,hx1,hy0,hy1⟩ := hfit
    obtain ⟨c',hres,hm⟩ := GpipeCtx.circle_spec (c := c) hx0 hx1 hy0 hy1 (Nat.lt_succ_self _)
    exact ⟨c',hres,fun _ => hm⟩
  | circleFill cx cy r color =>
    obtain ⟨c',hres,hm⟩ := GpipeCtx.circleFill_spec (c := c) (Nat.lt_succ_self _)
    exact ⟨c',hres,fun _ => hm⟩
  | bmpDraw x y data size => exact hsome GpipeCtx.bmpDraw_marks
  | text F x y s fg bg => exact ⟨_,rfl,fun hlast => GpipeCtx.text_marks hlast⟩

end GpipeCall

/-! ## The compositor -/

/-- The words that `gpipe_flip_rect` copies, in order. -/
def flipWords (m : GpipeMode) (r : GpipeRect) : List Nat :=
  (intRange r.y (r.y+r.h)).flatMap (fun row =>
    (List.range r.w.toNat).map (fun i => GpipeCtx.rowStart m r.x row+i))

/-- A rectangle that `gpipe_take_dirty` gave out, and what `gpipe_present_rect` has yet to copy. -/
structure TakenRect where
  rect : GpipeRect
  todo : List Nat

structure GpipeSystem (m : GpipeMode) where
  ctx : GpipeCtx m
  taken : List TakenRect

/-- One call of whoever draws, or one step of a compositor: it takes the dirty rectangle, copies the
next word of one it has taken, or is done with it. The calls that `ok` admits are made. -/
inductive GpipeStep {m : GpipeMode} (ok : GpipeCtx m → GpipeCall → Prop) :
    GpipeSystem m → GpipeSystem m → Prop
  | draw {s : GpipeSystem m} {d : GpipeCall} {c' : GpipeCtx m} (hfit : d.Fits) (hok : ok s.ctx d)
      (hrun : d.run s.ctx = some c') : GpipeStep ok s ⟨c',s.taken⟩
  | take {s : GpipeSystem m} {r : GpipeRect} {c' : GpipeCtx m}
      (htake : s.ctx.takeDirty = some (r,c')) : GpipeStep ok s ⟨c',⟨r,flipWords m r⟩::s.taken⟩
  | copy {s : GpipeSystem m} {l₁ l₂ : List TakenRect} {r : GpipeRect} {k : Nat} {ks : List Nat}
      (htaken : s.taken = l₁++⟨r,k::ks⟩::l₂) : GpipeStep ok s ⟨s.ctx.copyWord k,l₁++⟨r,ks⟩::l₂⟩
  | finish {s : GpipeSystem m} {l₁ l₂ : List TakenRect} {r : GpipeRect}
      (htaken : s.taken = l₁++⟨r,[]⟩::l₂) : GpipeStep ok s ⟨s.ctx,l₁++l₂⟩
  | present {s : GpipeSystem m} : GpipeStep ok s ⟨s.ctx.present,s.taken⟩

namespace GpipeCtx

variable {m : GpipeMode} {c : GpipeCtx m} {k : Nat}

theorem copyWords_spec (ks : List Nat) : ∃ fb, ks.foldl copyWord c = { c with fb := fb } ∧
    (∀ k ∈ ks, fb k = c.back k) ∧ ∀ k, fb k = c.fb k ∨ fb k = c.back k := by
  induction ks generalizing c with
  | nil => exact ⟨c.fb,rfl,by simp,fun k => Or.inl rfl⟩
  | cons a ks ih =>
    obtain ⟨fb,hres,hin,hout⟩ := ih (c := c.copyWord a)
    have hone : ∀ k, fb k = c.fb k ∨ fb k = c.back k := by
      intro k
      cases hout k with
      | inr hb => exact Or.inr hb
      | inl hk =>
        by_cases hak : k = a
        · right
          rw [hk,hak]
          exact Function.update_self ..
        · left
          rw [hk]
          exact Function.update_of_ne hak ..
    refine ⟨fb,hres,fun k hk => ?_,hone⟩
    rcases List.mem_cons.mp hk with rfl | hk
    · cases hout k with
      | inr hb => exact hb
      | inl hk => rw [hk]; exact Function.update_self ..
    · exact hin k hk

/-- Copying a rectangle is copying its words. -/
theorem flipRect_eq {x y w h : Int} :
    c.flipRect x y w h = (flipWords m ⟨x,y,w,h⟩).foldl copyWord c := by
  simp only [flipRect,copyRow,flipWords,List.foldl_flatMap,List.foldl_map]

theorem presentRect_eq {r : GpipeRect} : c.presentRect r = (flipWords m r).foldl copyWord c := by
  unfold presentRect
  split_ifs with h
  · have hnil : flipWords m r = [] := by
      apply List.flatMap_eq_nil_iff.mpr
      intro row hrow
      rw [mem_intRange] at hrow
      rw [show r.w.toNat = 0 by omega]
      rfl
    rw [hnil]
    rfl
  · exact flipRect_eq

/-- The pixels of the screen in a rectangle are among its words. -/
theorem mem_flipWords {r : GpipeRect} {p : Int × Int} (hr : r.Inside m) (hv : m.Visible p)
    (hp : r.Has p) : word m p.1 p.2 ∈ flipWords m r := by
  obtain ⟨h1,h2,h3,h4⟩ := hp
  rw [← rowStart_add hv h1 hr.1]
  apply List.mem_flatMap.mpr
  exact ⟨p.2,mem_intRange.mpr ⟨h3,h4⟩,List.mem_map.mpr ⟨_,List.mem_range.mpr (by omega),rfl⟩⟩

theorem inside_zero : (⟨0,0,0,0⟩ : GpipeRect).Inside m := by
  simp only [GpipeRect.Inside]
  omega

/-- `gpipe_present` brings the dirty pixels to the framebuffer and changes none otherwise. -/
theorem present_spec (hin : c.dirty.Inside m) : ∃ fb r, c.present = ⟨fb,c.back,r⟩ ∧ r.Inside m ∧
    (∀ p, m.Visible p → c.dirty.Has p → fb (word m p.1 p.2) = c.back (word m p.1 p.2)) ∧
    ∀ k, fb k = c.fb k ∨ fb k = c.back k := by
  unfold present
  split_ifs with he
  · refine ⟨c.fb,c.dirty,rfl,hin,fun p _ hp => ?_,fun k => Or.inl rfl⟩
    obtain ⟨h1,h2,h3,h4⟩ := hp
    omega
  · obtain ⟨fb,hres,hcopied,hout⟩ := copyWords_spec (c := c) (flipWords m c.dirty)
    refine ⟨fb,⟨0,0,0,0⟩,?_,inside_zero,fun p hv hp => ?_,hout⟩
    · rw [flipRect_eq,hres]
    · exact hcopied _ (mem_flipWords hin hv hp)

theorem takeDirty_spec {r : GpipeRect} {c' : GpipeCtx m} (h : c.takeDirty = some (r,c')) :
    r = c.dirty ∧ c' = { c with dirty := ⟨0,0,0,0⟩ } := by
  unfold takeDirty at h
  split_ifs at h
  cases h
  exact ⟨rfl,rfl⟩

end GpipeCtx

namespace GpipeSystem

variable {m : GpipeMode} {s s' : GpipeSystem m} {ok : GpipeCtx m → GpipeCall → Prop}

/-- What is on the screen, what should be, and what is known to differ. -/
def view (s : GpipeSystem m) : Damage (Int × Int) (Option (BitVec 32)) where
  back p := if m.Visible p then some (s.ctx.back (GpipeCtx.word m p.1 p.2)) else none
  front p := if m.Visible p then some (s.ctx.fb (GpipeCtx.word m p.1 p.2)) else none
  dirty := {p | m.Visible p ∧ s.ctx.dirty.Has p}
  pending := {p | ∃ t ∈ s.taken, t.rect.Has p ∧ GpipeCtx.word m p.1 p.2 ∈ t.todo}

/-- Each visible pixel whose framebuffer value differs from the back buffer lies in `ctx->dirty` or
in the part of a taken rectangle not yet copied. -/
def Complete (s : GpipeSystem m) : Prop :=
  ∀ p, m.Visible p →
    s.ctx.fb (GpipeCtx.word m p.1 p.2) ≠ s.ctx.back (GpipeCtx.word m p.1 p.2) →
    s.ctx.dirty.Has p ∨ ∃ t ∈ s.taken, t.rect.Has p ∧ GpipeCtx.word m p.1 p.2 ∈ t.todo

theorem complete_of_covered (h : s.view.Covered) : s.Complete := by
  intro p hv hne
  have hcov := h p
  simp only [view,if_pos hv] at hcov
  exact (hcov fun he => hne (Option.some.inj he)).imp_left And.right

/-- A step of the system is a step of damage tracking. -/
theorem step_view (hin : s.ctx.dirty.Inside m) (hs : GpipeStep GpipeCall.LastLineOnly s s') :
    Damage.Step s.view s'.view ∧ s'.ctx.dirty.Inside m := by
  cases hs with
  | draw hfit hok hrun =>
    obtain ⟨c'',hres,hmarks⟩ := GpipeCall.run_marks hfit
    rw [hrun] at hres
    cases hres
    have hm := hmarks hok
    refine ⟨.draw ?_ rfl ?_ ?_,hm.inside hin⟩
    · simp only [view,hm.fb]
    · exact fun p hp => ⟨hp.1,hm.keep p hp.2⟩
    · intro p hne
      by_cases hv : m.Visible p
      · simp only [view,if_pos hv] at hne
        have hmark := hm.back p hv fun he => hne (congrArg some he)
        exact ⟨hv,hmark.resolve_right (Set.notMem_empty p)⟩
      · simp only [view,if_neg hv] at hne
        exact absurd rfl hne
  | take htake =>
    obtain ⟨rfl,rfl⟩ := GpipeCtx.takeDirty_spec htake
    refine ⟨.take rfl rfl ?_ ?_,GpipeCtx.inside_zero⟩
    · intro p hp
      right
      exact ⟨_,List.mem_cons_self,hp.2,GpipeCtx.mem_flipWords hin hp.1 hp.2⟩
    · intro p hp
      obtain ⟨t,ht,hrest⟩ := hp
      exact ⟨t,List.mem_cons_of_mem _ ht,hrest⟩
  | @copy l₁ l₂ r k ks htaken =>
    refine ⟨.copy {p | GpipeCtx.word m p.1 p.2 = k} rfl ?_ ?_ ?_ ?_,hin⟩
    · intro p hp
      by_cases hv : m.Visible p
      · simp only [view,if_pos hv]
        rw [show GpipeCtx.word m p.1 p.2 = k from hp]
        exact congrArg some (Function.update_self ..)
      · simp only [view,if_neg hv]
    · intro p
      by_cases hk : GpipeCtx.word m p.1 p.2 = k
      · right
        simp only [view,GpipeCtx.copyWord,hk,Function.update_self]
      · left
        simp only [view,GpipeCtx.copyWord,Function.update_of_ne hk]
    · exact fun p hp _ => hp
    · intro p hp hk
      obtain ⟨t,ht,hhas,hword⟩ := hp
      rw [htaken] at ht
      have hcases : t ∈ l₁ ∨ t = ⟨r,k::ks⟩ ∨ t ∈ l₂ := by simpa using ht
      obtain ht1 | rfl | ht2 := hcases
      · exact ⟨t,List.mem_append_left _ ht1,hhas,hword⟩
      · have hks := (List.mem_cons.mp hword).resolve_left hk
        exact ⟨⟨r,ks⟩,List.mem_append_right _ List.mem_cons_self,hhas,hks⟩
      · exact ⟨t,List.mem_append_right _ (List.mem_cons_of_mem _ ht2),hhas,hword⟩
  | @finish l₁ l₂ r htaken =>
    refine ⟨.take rfl rfl (fun p hp => Or.inl hp) ?_,hin⟩
    intro p hp
    obtain ⟨t,ht,hhas,hword⟩ := hp
    rw [htaken] at ht
    have hcases : t ∈ l₁ ∨ t = ⟨r,[]⟩ ∨ t ∈ l₂ := by simpa using ht
    obtain ht1 | rfl | ht2 := hcases
    · exact ⟨t,List.mem_append_left _ ht1,hhas,hword⟩
    · exact absurd hword List.not_mem_nil
    · exact ⟨t,List.mem_append_right _ ht2,hhas,hword⟩
  | present =>
    obtain ⟨fb,r,hres,hr,hcopied,hout⟩ := GpipeCtx.present_spec hin
    rw [hres]
    refine ⟨.copy {p | m.Visible p ∧ s.ctx.dirty.Has p} rfl ?_ ?_ ?_ ?_,hr⟩
    · intro p hp
      simp only [view,if_pos hp.1]
      exact congrArg some (hcopied p hp.1 hp.2)
    · intro p
      simp only [view]
      exact (hout (GpipeCtx.word m p.1 p.2)).imp (by intro h; rw [h]) (by intro h; rw [h])
    · exact fun p hp hn => absurd hp hn
    · exact fun p hp _ => hp

/-- A run of the system is a run of damage tracking. -/
theorem run_view (hin : s.ctx.dirty.Inside m)
    (hrun : ReflTransGen (GpipeStep GpipeCall.LastLineOnly) s s') :
    ReflTransGen Damage.Step s.view s'.view ∧ s'.ctx.dirty.Inside m := by
  induction hrun with
  | refl => exact ⟨.refl,hin⟩
  | tail _ hstep ih =>
    obtain ⟨hv,hin'⟩ := step_view ih.2 hstep
    exact ⟨ih.1.tail hv,hin'⟩

/-- Over every run whose text stores on its last line only: what is not on the screen yet is known
to be missing, and once the taken rectangles are copied a present shows everything. -/
theorem presented_frame_complete
    (heq : ∀ p, m.Visible p →
      s.ctx.fb (GpipeCtx.word m p.1 p.2) = s.ctx.back (GpipeCtx.word m p.1 p.2))
    (hin : s.ctx.dirty.Inside m)
    (hrun : ReflTransGen (GpipeStep GpipeCall.LastLineOnly) s s') :
    s'.Complete ∧ ((∀ t ∈ s'.taken, t.todo = []) → ∀ p, m.Visible p →
      s'.ctx.present.fb (GpipeCtx.word m p.1 p.2) =
        s'.ctx.present.back (GpipeCtx.word m p.1 p.2)) := by
  have hcov : s.view.Covered := by
    intro p hne
    by_cases hv : m.Visible p
    · simp only [view,if_pos hv] at hne
      exact absurd (congrArg some (heq p hv)) hne
    · simp only [view,if_neg hv] at hne
      exact absurd rfl hne
  obtain ⟨hview,hin'⟩ := run_view hin hrun
  have hcomplete := complete_of_covered (hcov.run hview)
  refine ⟨hcomplete,fun hdone p hv => ?_⟩
  obtain ⟨fb,r,hres,-,hcopied,hout⟩ := GpipeCtx.present_spec hin'
  rw [hres]
  by_contra hne
  have hold : s'.ctx.fb (GpipeCtx.word m p.1 p.2) ≠ s'.ctx.back (GpipeCtx.word m p.1 p.2) :=
    fun he => hne ((hout _).elim (fun h => h.trans he) id)
  cases hcomplete p hv hold with
  | inl hd => exact hne (hcopied p hv hd)
  | inr ht =>
    obtain ⟨t,ht,-,hword⟩ := ht
    rw [hdone t ht] at hword
    exact absurd hword List.not_mem_nil

/-! ### A screen of two lines -/

def twoLines : GpipeMode :=
  ⟨8,8,32,by decide,by decide,by decide,by decide⟩

def blankScreen : GpipeSystem twoLines := ⟨⟨fun _ => 0,fun _ => 0,⟨0,0,0,0⟩⟩,[]⟩

/-- Cells of the size of `font_ttf.c` with one covered pixel in the middle. -/
def dotFont : FontTtf := ⟨true,8,16,fun _ row col => if row = 8 ∧ col = 4 then 255 else 0⟩

/-- The string `"A\nB"` in white on black. -/
def twoLineText : GpipeCall := .text dotFont 0 0 [65,10,66] 0xFFFFFF 0

/-- The first line is drawn and never shown: only the last one is marked. -/
theorem earlier_line_lost : (∀ k, blankScreen.ctx.fb k = blankScreen.ctx.back k) ∧
    ∃ s', GpipeStep (fun _ _ => True) blankScreen s' ∧ ¬ s'.Complete ∧
      s'.ctx.present.fb 68 ≠ s'.ctx.present.back 68 := by
  refine ⟨fun _ => rfl,⟨⟨_,blankScreen.taken⟩,.draw (d := twoLineText) trivial trivial rfl,?_,?_⟩⟩
  · intro hc
    have h := hc (4,8) (by decide) (by decide +kernel)
    have hlost : ¬ ((blankScreen.ctx.text dotFont 0 0 [65,10,66] 0xFFFFFF 0).dirty.Has (4,8)) := by
      decide +kernel
    obtain hd | ⟨t,ht,-⟩ := h
    · exact hlost hd
    · exact absurd ht List.not_mem_nil
  · decide +kernel

/-- One line of text, taken by the compositor. -/
theorem presented_frame_complete_sample : ∃ s' : GpipeSystem twoLines,
    ReflTransGen (GpipeStep GpipeCall.LastLineOnly) blankScreen s' ∧ s'.taken ≠ [] ∧
    s'.Complete := by
  have hdraw : GpipeStep GpipeCall.LastLineOnly blankScreen ⟨_,blankScreen.taken⟩ :=
    .draw (d := .text dotFont 0 0 [65] 0xFFFFFF 0) trivial
      (fun _ p hp => by simp [FontTtf.earlyPixels] at hp) rfl
  have htake : GpipeStep GpipeCall.LastLineOnly
      ⟨blankScreen.ctx.text dotFont 0 0 [65] 0xFFFFFF 0,blankScreen.taken⟩ _ := .take rfl
  have hrun := (ReflTransGen.single hdraw).tail htake
  exact ⟨_,hrun,by simp,(presented_frame_complete (fun _ _ => rfl) GpipeCtx.inside_zero hrun).1⟩

end GpipeSystem

end KiNBOL
