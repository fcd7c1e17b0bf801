import Mathlib.Data.List.Basic

namespace KiNBOL

/-! Lists that readers leave at the first end mark. -/

variable {α : Type*} {p : α → Bool} {l pre block new post : List α}

/-- An end mark is followed only by end marks. -/
def Ended (p : α → Bool) (l : List α) : Prop := l.Pairwise (fun a b => p a = true → p b = true)

instance (p : α → Bool) (l : List α) : Decidable (Ended p l) :=
  inferInstanceAs (Decidable (l.Pairwise _))

theorem ended_of_not (h : ∀ x ∈ l, p x = false) : Ended p l := by
  apply List.pairwise_of_forall_mem_list
  intro x hx y hy hp
  rw [h x hx] at hp
  simp at hp

theorem ended_of_all (h : ∀ x ∈ l, p x = true) : Ended p l := by
  apply List.pairwise_of_forall_mem_list
  intro x hx y hy hp
  exact h y hy

namespace Ended

theorem sublist {l' : List α} (h : Ended p l) (hs : l'.Sublist l) : Ended p l' :=
  List.Pairwise.sublist hs h

theorem append (h : Ended p l) (hpost : ∀ x ∈ post, p x = true) : Ended p (l++post) := by
  apply List.pairwise_append.mpr
  refine ⟨h,ended_of_all hpost,?_⟩
  intro x hx y hy hp
  exact hpost y hy

/-- A reader that leaves at the first end mark sees everything that is none. -/
theorem takeWhile_eq (h : Ended p l) : l.takeWhile (fun x => !p x) = l.filter (fun x => !p x) := by
  induction l with
  | nil => rfl
  | cons x l ih =>
    obtain ⟨hx,hl⟩ := List.pairwise_cons.mp h
    cases hp : p x with
    | true =>
      have hnone : l.filter (fun x => !p x) = [] := by
        apply List.filter_eq_nil_iff.mpr
        intro y hy
        simp [hx y hy hp]
      simp [hp,hnone]
    | false => simp [hp,ih hl]

theorem mem_takeWhile (h : Ended p l) (x : α) :
    x ∈ l.takeWhile (fun x => !p x) ↔ x ∈ l ∧ p x = false := by
  rw [h.takeWhile_eq,List.mem_filter,Bool.not_eq_true']

/-- No end mark lies in front of an element that is none. -/
theorem before (h : Ended p (pre++post)) (hlast : ∀ x ∈ pre.getLast?, p x = false) :
    ∀ x ∈ pre, p x = false := by
  intro x hx
  obtain ⟨as,y,rfl⟩ : ∃ as y, pre = as++[y] :=
    ⟨pre.dropLast,pre.getLast (List.ne_nil_of_mem hx),(List.dropLast_append_getLast _).symm⟩
  have hy : p y = false := hlast y (by simp)
  cases List.mem_append.mp hx with
  | inl hx =>
    have hpre := (List.pairwise_append.mp (List.pairwise_append.mp h).1).2.2 x hx y (by simp)
    cases hp : p x with
    | true => exact absurd (hpre hp) (by simp [hy])
    | false => rfl
  | inr hx => rwa [List.mem_singleton.mp hx]

/-- Elements that are no end marks take the place of others with no end mark before them. -/
theorem replace (h : Ended p (pre++block++post)) (hpre : ∀ x ∈ pre, p x = false)
    (hnew : ∀ x ∈ new, p x = false) : Ended p (pre++new++post) := by
  have hpost : Ended p post := h.sublist (List.sublist_append_right _ _)
  have hfront : ∀ x ∈ pre++new, p x = false := by
    intro x hx
    cases List.mem_append.mp hx with
    | inl hx => exact hpre x hx
    | inr hx => exact hnew x hx
  apply List.pairwise_append.mpr
  refine ⟨ended_of_not hfront,hpost,?_⟩
  intro x hx y hy hp
  rw [hfront x hx] at hp
  simp at hp

end Ended

end KiNBOL
