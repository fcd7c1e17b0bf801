import Mathlib.Algebra.BigOperators.Group.List.Basic
import Mathlib.Data.Finset.Card
import Mathlib.Order.Interval.Finset.Nat
import Mathlib.Algebra.Ring.Nat

namespace KiNBOL

/-- The numbers from `lo` up to `hi`. -/
structure Span where
  lo : Nat
  hi : Nat
  deriving DecidableEq

def Span.Has (s : Span) (x : Nat) : Prop := s.lo ≤ x ∧ x < s.hi

/-- One lies before the other. -/
def Span.Apart (s t : Span) : Prop := s.hi ≤ t.lo ∨ t.hi ≤ s.lo

theorem Span.Apart.symm {s t : Span} (h : s.Apart t) : t.Apart s := Or.symm h

/-- No number lies in both of two spans that are apart. -/
theorem Span.Apart.not_both {s t : Span} (h : s.Apart t) {x : Nat} (hs : s.Has x) : ¬t.Has x := by
  intro ht
  simp only [Span.Apart,Span.Has] at *
  omega

def Covers (l : List Span) (x : Nat) : Prop := ∃ s ∈ l, s.Has x

def SpansApart (l : List Span) : Prop := l.Pairwise Span.Apart

/-- Total length. -/
def measure (l : List Span) : Nat := (l.map (fun s => s.hi-s.lo)).sum

theorem covers_cons {s : Span} {l : List Span} {x : Nat} :
    Covers (s::l) x ↔ s.Has x ∨ Covers l x := by
  simp [Covers]

theorem covers_append {l₁ l₂ : List Span} {x : Nat} :
    Covers (l₁++l₂) x ↔ Covers l₁ x ∨ Covers l₂ x := by
  simp [Covers,or_and_right,exists_or]

/-- The numbers covered. -/
def cells : List Span → Finset Nat
  | [] => ∅
  | s::l => Finset.Ico s.lo s.hi ∪ cells l

theorem mem_cells {l : List Span} {x : Nat} : x ∈ cells l ↔ Covers l x := by
  induction l with
  | nil => simp [cells,Covers]
  | cons s l ih =>
    rw [cells,Finset.mem_union,Finset.mem_Ico,ih,covers_cons]
    rfl

theorem SpansApart.card {l : List Span} (h : SpansApart l) : (cells l).card = measure l := by
  induction l with
  | nil => rfl
  | cons s l ih =>
    obtain ⟨hs,hl⟩ := List.pairwise_cons.mp h
    have hdis : Disjoint (Finset.Ico s.lo s.hi) (cells l) := by
      rw [Finset.disjoint_left]
      intro x hx hc
      obtain ⟨t,ht,hxt⟩ := mem_cells.mp hc
      exact (hs t ht).not_both (Finset.mem_Ico.mp hx) hxt
    rw [cells,Finset.card_union_of_disjoint hdis,Nat.card_Ico,ih hl,measure,measure,List.map_cons,
      List.sum_cons]

/-- Spans inside `[s,e)` fill it exactly when their lengths add up. -/
theorem SpansApart.fill_iff {l : List Span} (h : SpansApart l) {s e : Nat}
    (hin : ∀ t ∈ l, s ≤ t.lo ∧ t.hi ≤ e) :
    measure l = e-s ↔ ∀ x, s ≤ x → x < e → Covers l x := by
  have hsub : cells l ⊆ Finset.Ico s e := by
    intro x hx
    obtain ⟨t,ht,h1,h2⟩ := mem_cells.mp hx
    have := hin t ht
    rw [Finset.mem_Ico]
    omega
  rw [← h.card,← Nat.card_Ico s e]
  constructor
  · intro hc x h1 h2
    have heq := Finset.eq_of_subset_of_card_le hsub hc.ge
    rw [← mem_cells,heq,Finset.mem_Ico]
    exact ⟨h1,h2⟩
  · intro hall
    refine congrArg Finset.card (Finset.Subset.antisymm hsub (fun x hx => ?_))
    rw [Finset.mem_Ico] at hx
    exact mem_cells.mpr (hall x hx.1 hx.2)

/-- Below `n` there is room for `n` spans at most. -/
theorem SpansApart.length_le {l : List Span} (h : SpansApart l) {n : Nat}
    (hin : ∀ t ∈ l, t.lo < t.hi ∧ t.hi ≤ n) : l.length ≤ n := by
  have hlen : l.length ≤ measure l := by
    have hone : ∀ y ∈ l.map (fun s : Span => s.hi-s.lo), 1 ≤ y := by
      intro y hy
      obtain ⟨s,hs,rfl⟩ := List.mem_map.mp hy
      have := hin s hs
      omega
    have := List.length_le_sum_of_one_le _ hone
    rwa [List.length_map] at this
  have hsub : cells l ⊆ Finset.range n := by
    intro x hx
    obtain ⟨t,ht,h1,h2⟩ := mem_cells.mp hx
    have := hin t ht
    rw [Finset.mem_range]
    omega
  have hcard := Finset.card_le_card hsub
  rw [h.card,Finset.card_range] at hcard
  exact hlen.trans hcard

/-- Spans that are not empty are apart when no number lies in both. -/
theorem Span.apart_of_not_both {s t : Span} (hs : s.lo < s.hi) (ht : t.lo < t.hi)
    (h : ∀ x, s.Has x → ¬t.Has x) : s.Apart t := by
  by_contra hno
  simp only [Span.Apart,not_or,not_le] at hno
  have hx := h (max s.lo t.lo)
  simp only [Span.Has] at hx
  omega

/-- A part of a list of spans can be cut up in another way. -/
theorem SpansApart.replace {l₁ l₂ mid mid' : List Span} (h : SpansApart (l₁++mid++l₂))
    (hmid : SpansApart mid') (hpos : ∀ s ∈ l₁++l₂++mid', s.lo < s.hi)
    (hcov : ∀ x, Covers mid' x → Covers mid x) : SpansApart (l₁++mid'++l₂) := by
  have hcross : ∀ s ∈ l₁++l₂, (∀ t ∈ mid, s.Apart t) → ∀ t ∈ mid', s.Apart t := by
    intro s hs hall t ht
    apply Span.apart_of_not_both
    · exact hpos s (List.mem_append_left _ hs)
    · exact hpos t (List.mem_append_right _ ht)
    · intro x hx hxt
      obtain ⟨u,hu,hxu⟩ := hcov x ⟨t,ht,hxt⟩
      exact (hall u hu).not_both hx hxu
  simp only [SpansApart,List.pairwise_append] at h hmid ⊢
  obtain ⟨⟨h1,-,h1m⟩,h2,h12⟩ := h
  refine ⟨⟨h1,hmid,fun s hs t ht => ?_⟩,h2,fun s hs t ht => ?_⟩
  · exact hcross s (by simp [hs]) (fun u hu => h1m s hs u hu) t ht
  · rcases List.mem_append.mp hs with hs | hs
    · exact h12 s (by simp [hs]) t ht
    · exact (hcross t (by simp [ht]) (fun u hu => (h12 u (by simp [hu]) t ht).symm) s hs).symm

theorem measure_cons (s : Span) (l : List Span) : measure (s::l) = s.hi-s.lo+measure l := by
  simp [measure]

/-- In a list of things whose spans are apart a number tells which thing it lies in. -/
theorem SpansApart.unique {α : Type*} {l : List α} {f : α → Span} (h : SpansApart (l.map f))
    {a b : α} (ha : a ∈ l) (hb : b ∈ l) {x : Nat} (hxa : (f a).Has x) (hxb : (f b).Has x) :
    a = b := by
  by_contra hne
  have hp := List.pairwise_map.mp h
  have : Std.Symm (fun a b => (f a).Apart (f b)) := ⟨fun _ _ hab => hab.symm⟩
  exact (hp.forall ha hb hne).not_both hxa hxb

end KiNBOL
