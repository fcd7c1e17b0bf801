import Mathlib.Data.Finset.Card
import Mathlib.Data.Finset.Range
import Mathlib.Logic.Relation

namespace KiNBOL

/-- An invariant of every step holds after any number of steps. -/
theorem reach_invariant {σ : Type*} {step : σ → σ → Prop} {inv : σ → Prop} {s t : σ}
    (hs : inv s) (hstep : ∀ a b, inv a → step a b → inv b)
    (h : Relation.ReflTransGen step s t) : inv t := by
  induction h with
  | refl => exact hs
  | tail _ hab ih => exact hstep _ _ ih hab

/-- How many of the first `n` flags are down. -/
def downCount (f : Nat → Bool) (n : Nat) : Nat :=
  ((Finset.range n).filter (fun i => f i = false)).card

theorem downCount_congr {f g : Nat → Bool} {n : Nat} (h : ∀ i < n, f i = g i) :
    downCount f n = downCount g n := by
  unfold downCount
  congr 1
  apply Finset.filter_congr
  intro i hi
  rw [h i (Finset.mem_range.mp hi)]

theorem downCount_le (f : Nat → Bool) (n : Nat) : downCount f n ≤ n := by
  simpa [downCount] using Finset.card_filter_le (Finset.range n) (fun i => f i = false)

/-- Raising a set of flags that are all down lowers the count by its size. -/
theorem downCount_raise {f g : Nat → Bool} {n : Nat} (s : Finset Nat)
    (hs : ∀ i ∈ s, i < n ∧ f i = false) (hg : ∀ i < n, g i = (f i || decide (i ∈ s))) :
    downCount g n + s.card = downCount f n := by
  have hsplit : (Finset.range n).filter (fun i => f i = false) =
      (Finset.range n).filter (fun i => g i = false) ∪ s := by
    ext i
    simp only [Finset.mem_filter, Finset.mem_range, Finset.mem_union]
    constructor
    · rintro ⟨hi, hf⟩
      by_cases hm : i ∈ s
      · exact Or.inr hm
      · exact Or.inl ⟨hi, by simp [hg i hi, hf, hm]⟩
    · rintro (⟨hi, hgi⟩ | hm)
      · rw [hg i hi] at hgi
        exact ⟨hi, (Bool.or_eq_false_iff.mp hgi).1⟩
      · exact hs i hm
  have hdisj : Disjoint ((Finset.range n).filter (fun i => g i = false)) s := by
    apply Finset.disjoint_left.mpr
    intro i hi hm
    have hgi := (Finset.mem_filter.mp hi).2
    rw [hg i (hs i hm).1] at hgi
    simp [hm] at hgi
  unfold downCount
  rw [hsplit, Finset.card_union_of_disjoint hdisj]

/-- Some flag is down exactly when the count is positive. -/
theorem downCount_pos_iff {f : Nat → Bool} {n : Nat} :
    0 < downCount f n ↔ ∃ i < n, f i = false := by
  unfold downCount
  rw [Finset.card_pos]
  constructor
  · rintro ⟨i, hi⟩
    simp only [Finset.mem_filter, Finset.mem_range] at hi
    exact ⟨i, hi⟩
  · rintro ⟨i, hi⟩
    exact ⟨i, by simpa using hi⟩

end KiNBOL
