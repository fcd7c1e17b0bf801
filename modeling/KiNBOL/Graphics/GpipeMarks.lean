import KiNBOL.Graphics.GpipePrim
import Mathlib.Data.Set.Insert

namespace KiNBOL

theorem iclamp_bounds (v : Int) {hi : Int} (h : 0 ≤ hi) : 0 ≤ iclamp v 0 hi ∧ iclamp v 0 hi ≤ hi := by
  unfold iclamp
  split_ifs <;> omega

/-- Clamping does not move a bound across a pixel of the screen. -/
theorem iclamp_le_iff (v : Int) {hi q : Int} (h0 : 0 ≤ q) (h : q < hi) : iclamp v 0 hi ≤ q ↔ v ≤ q := by
  unfold iclamp
  split_ifs <;> omega

/-- The rectangle is empty or lies on the screen. -/
def GpipeRect.Inside (m : GpipeMode) (r : GpipeRect) : Prop :=
  0 ≤ r.x ∧ 0 ≤ r.y ∧ 0 ≤ r.w ∧ 0 ≤ r.h ∧ r.x+r.w ≤ m.width ∧ r.y+r.h ≤ m.height

namespace GpipeCtx

variable {m : GpipeMode} {c c' c'' : GpipeCtx m} {p : Int × Int} {S T : Set (Int × Int)}
  {x y w h : Int}

theorem markDirty_fb : (c.markDirty x y w h).fb = c.fb := by
  simp only [markDirty]
  split_ifs <;> rfl

theorem markDirty_back : (c.markDirty x y w h).back = c.back := by
  simp only [markDirty]
  split_ifs <;> rfl

theorem markDirty_keep (hp : c.dirty.Has p) : (c.markDirty x y w h).dirty.Has p := by
  obtain ⟨h1,h2,h3,h4⟩ := id hp
  simp only [markDirty]
  split_ifs <;> first | exact hp | (simp only [GpipeRect.Has]; omega)

theorem markDirty_has (hp : m.Visible p) (hx : x ≤ p.1) (hx' : p.1 < x+w) (hy : y ≤ p.2)
    (hy' : p.2 < y+h) : (c.markDirty x y w h).dirty.Has p := by
  obtain ⟨hx0,hxw,hy0,hyh⟩ := hp
  have h1 := (iclamp_le_iff x hx0 hxw).mpr hx
  have h2 := (iclamp_le_iff (x+w) hx0 hxw).not.mpr (by omega)
  have h3 := (iclamp_le_iff y hy0 hyh).mpr hy
  have h4 := (iclamp_le_iff (y+h) hy0 hyh).not.mpr (by omega)
  simp only [markDirty]
  generalize iclamp x 0 m.width = x0 at h1 ⊢
  generalize iclamp (x+w) 0 m.width = x1 at h2 ⊢
  generalize iclamp y 0 m.height = y0 at h3 ⊢
  generalize iclamp (y+h) 0 m.height = y1 at h4 ⊢
  split_ifs <;> simp only [GpipeRect.Has] <;> omega

theorem markDirty_inside (hi : c.dirty.Inside m) : (c.markDirty x y w h).dirty.Inside m := by
  have h1 := iclamp_bounds x (Int.natCast_nonneg m.width)
  have h2 := iclamp_bounds (x+w) (Int.natCast_nonneg m.width)
  have h3 := iclamp_bounds y (Int.natCast_nonneg m.height)
  have h4 := iclamp_bounds (y+h) (Int.natCast_nonneg m.height)
  obtain ⟨hx,hy,hw,hh,hxw,hyh⟩ := id hi
  simp only [markDirty]
  generalize iclamp x 0 m.width = x0 at h1 ⊢
  generalize iclamp (x+w) 0 m.width = x1 at h2 ⊢
  generalize iclamp y 0 m.height = y0 at h3 ⊢
  generalize iclamp (y+h) 0 m.height = y1 at h4 ⊢
  split_ifs <;> first | exact hi | (simp only [GpipeRect.Inside]; omega)

/-- Drawing that accounts for what it changes: each changed pixel of the screen is marked by the
end, unless it is one of `S`. -/
structure Touches (S : Set (Int × Int)) (c c' : GpipeCtx m) : Prop where
  fb : c'.fb = c.fb
  keep : ∀ p, c.dirty.Has p → c'.dirty.Has p
  back : ∀ p, m.Visible p → c'.back (word m p.1 p.2) ≠ c.back (word m p.1 p.2) →
    c'.dirty.Has p ∨ p ∈ S
  inside : c.dirty.Inside m → c'.dirty.Inside m

theorem Touches.refl : Touches S c c :=
  ⟨rfl,fun _ hp => hp,fun _ _ hne => absurd rfl hne,id⟩

theorem Touches.trans (h1 : Touches S c c') (h2 : Touches S c' c'') : Touches S c c'' := by
  constructor
  · exact h2.fb.trans h1.fb
  · exact fun p hp => h2.keep p (h1.keep p hp)
  · intro p hp hne
    by_cases hb : c''.back (word m p.1 p.2) = c'.back (word m p.1 p.2)
    · rw [hb] at hne
      exact (h1.back p hp hne).imp_left (h2.keep p)
    · exact h2.back p hp hb
  · exact fun hi => h2.inside (h1.inside hi)

theorem Touches.mono (h : Touches S c c') (hS : ∀ p ∈ S, p ∈ T) : Touches T c c' :=
  ⟨h.fb,h.keep,fun p hp hne => (h.back p hp hne).imp_right (hS p),h.inside⟩

/-- What was marked before needs no mark. -/
theorem Touches.settle (h : Touches S c c')
    (hS : ∀ p ∈ S, m.Visible p → c.dirty.Has p ∨ p ∈ T) : Touches T c c' := by
  refine ⟨h.fb,h.keep,fun p hp hne => ?_,h.inside⟩
  cases h.back p hp hne with
  | inl hd => exact Or.inl hd
  | inr hs => exact (hS p hs hp).imp_left (h.keep p)

/-- A loop whose rounds all account for their changes. -/
theorem Touches.foldl {α : Type*} {l : List α} {f : GpipeCtx m → α → GpipeCtx m}
    (hf : ∀ a ∈ l, ∀ d, Touches S d (f d a)) : Touches S c (l.foldl f c) := by
  induction l generalizing c with
  | nil => exact .refl
  | cons a l ih =>
    rw [List.foldl_cons]
    exact (hf a (by simp) c).trans (ih fun b hb => hf b (List.mem_cons_of_mem a hb))

/-- A store changes the pixel whose word it is. -/
theorem touches_store {k : Nat} {v : BitVec 32}
    (hS : ∀ p, m.Visible p → word m p.1 p.2 = k → p ∈ S) : Touches S c (c.store k v) := by
  constructor
  · rfl
  · exact fun p hp => hp
  · intro p hp hne
    by_cases hk : word m p.1 p.2 = k
    · exact Or.inr (hS p hp hk)
    · exact absurd (Function.update_of_ne hk _ _) hne
  · exact id

theorem touches_word {v : BitVec 32} (hp : m.Visible p) (hS : p ∈ S) :
    Touches S c (c.store (word m p.1 p.2) v) :=
  touches_store fun q hq he => by rwa [word_inj hq hp he]

/-- Marking a rectangle accounts for what was changed in it. -/
theorem Touches.mark (ht : Touches S c c')
    (hS : ∀ p ∈ S, m.Visible p → p ∈ T ∨ (⟨x,y,w,h⟩ : GpipeRect).Has p) :
    Touches T c (c'.markDirty x y w h) := by
  constructor
  · rw [markDirty_fb,ht.fb]
  · exact fun p hp => markDirty_keep (ht.keep p hp)
  · intro p hp hne
    rw [markDirty_back] at hne
    cases ht.back p hp hne with
    | inl hd => exact Or.inl (markDirty_keep hd)
    | inr hs =>
      cases hS p hs hp with
      | inl hT => exact Or.inr hT
      | inr hr => exact Or.inl (markDirty_has hp hr.1 hr.2.1 hr.2.2.1 hr.2.2.2)
  · exact fun hi => markDirty_inside (ht.inside hi)

/-- Drawing that marks all it changes. -/
abbrev Marks (c c' : GpipeCtx m) : Prop := Touches ∅ c c'

theorem Touches.of_marks (h : Marks c c') : Touches S c c' :=
  h.mono fun p hp => absurd hp (Set.notMem_empty p)

end GpipeCtx

end KiNBOL
