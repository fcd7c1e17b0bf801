import Mathlib.Data.List.Basic
import Mathlib.Data.List.Nodup

namespace KiNBOL

variable {ν : Type*} {next prev next' prev' : ν → Option ν}

/-- Doubly linked nodes: `next` and `prev` run through `l`, from left neighbour `x` to right
neighbour `y`. -/
def Linked (next prev : ν → Option ν) : Option ν → List ν → Option ν → Prop
  | _,[],_ => True
  | x,a::l,y => prev a = x ∧ next a = l.head?.or y ∧ Linked next prev (some a) l y

theorem linked_append {x y : Option ν} {l₁ l₂ : List ν} : Linked next prev x (l₁++l₂) y ↔
    Linked next prev x l₁ (l₂.head?.or y) ∧ Linked next prev (l₁.getLast?.or x) l₂ y := by
  induction l₁ generalizing x with
  | nil => simp [Linked]
  | cons a l ih =>
    simp only [List.cons_append,Linked,ih,List.head?_append,Option.or_assoc]
    have hlast : (l.getLast?.or (some a)) = ((a::l).getLast?.or x) := by
      rcases List.eq_nil_or_concat l with rfl | ⟨l,b,rfl⟩
      · rfl
      · rw [List.concat_eq_append,List.getLast?_concat,← List.cons_append,List.getLast?_concat]
        rfl
    rw [hlast]
    tauto

/-- New neighbours at both ends. -/
theorem Linked.retarget [DecidableEq ν] {x y x' y' : Option ν} {l : List ν} (h : Linked next prev x l y)
    (hd : l.Nodup)
    (hnext : ∀ a ∈ l, next' a = if l.getLast? = some a then y' else next a)
    (hprev : ∀ a ∈ l, prev' a = if l.head? = some a then x' else prev a) :
    Linked next' prev' x' l y' := by
  induction l generalizing x x' with
  | nil => trivial
  | cons a l ih =>
    obtain ⟨hp,hn,hl⟩ := h
    obtain ⟨hout,hd'⟩ := List.nodup_cons.mp hd
    refine ⟨by rw [hprev a (by simp),List.head?_cons,if_pos rfl],?_,?_⟩
    · rw [hnext a (by simp)]
      cases l with
      | nil => simp
      | cons b l =>
        have hne : (a::b::l).getLast? ≠ some a := by
          intro he
          rw [List.getLast?_cons_cons] at he
          exact hout (List.mem_of_getLast? he)
        rw [if_neg hne,hn]
        rfl
    · refine ih hl hd' (fun b hb => ?_) (fun b hb => ?_)
      · rw [hnext b (by simp [hb])]
        cases l with
        | nil => simp at hb
        | cons c l => rw [List.getLast?_cons_cons]
      · have hne : b ≠ a := fun he => hout (he ▸ hb)
        have hhead : (a::l).head? ≠ some b := by
          rw [List.head?_cons,Ne,Option.some.injEq]
          exact hne.symm
        rw [hprev b (by simp [hb]),if_neg hhead]
        by_cases hb2 : l.head? = some b
        · rw [if_pos hb2]
          cases l with
          | nil => simp at hb
          | cons c l =>
            rw [List.head?_cons,Option.some.injEq] at hb2
            exact hb2 ▸ hl.1
        · rw [if_neg hb2]

/-- Links of the listed nodes only matter. -/
theorem Linked.congr {x y : Option ν} {l : List ν} (h : Linked next prev x l y)
    (hnext : ∀ a ∈ l, next' a = next a) (hprev : ∀ a ∈ l, prev' a = prev a) :
    Linked next' prev' x l y := by
  induction l generalizing x with
  | nil => trivial
  | cons a l ih =>
    obtain ⟨hp,hn,hl⟩ := h
    exact ⟨by rw [hprev a (by simp),hp],by rw [hnext a (by simp),hn],
      ih hl (fun b hb => hnext b (by simp [hb])) (fun b hb => hprev b (by simp [hb]))⟩

/-- The neighbours of a node. -/
theorem Linked.node {l₁ l₂ : List ν} {b : ν} (h : Linked next prev none (l₁++b::l₂) none) :
    prev b = l₁.getLast? ∧ next b = l₂.head? := by
  obtain ⟨-,hp,hn,-⟩ := linked_append.mp h
  exact ⟨hp.trans (Option.or_none),hn.trans Option.or_none⟩

/-- Taking a node out: its neighbours point at each other. -/
theorem Linked.unlink [DecidableEq ν] {l₁ l₂ : List ν} {b : ν} (h : Linked next prev none (l₁++b::l₂) none)
    (hd : (l₁++b::l₂).Nodup)
    (hnext : ∀ a, a ≠ b → next' a = if prev b = some a then next b else next a)
    (hprev : ∀ a, a ≠ b → prev' a = if next b = some a then prev b else prev a) :
    Linked next' prev' none (l₁++l₂) none := by
  obtain ⟨hpb,hnb⟩ := h.node
  obtain ⟨h1,-,-,h2⟩ := linked_append.mp h
  obtain ⟨d1,d2,hdis⟩ := List.nodup_append.mp hd
  obtain ⟨hout,d2'⟩ := List.nodup_cons.mp d2
  have hne1 : ∀ a ∈ l₁, a ≠ b := fun a ha => hdis a ha b (by simp)
  have hne2 : ∀ a ∈ l₂, a ≠ b := fun a ha he => hout (he ▸ ha)
  have hne12 : ∀ a ∈ l₁, a ∉ l₂ := fun a ha ha2 => hdis a ha a (by simp [ha2]) rfl
  refine linked_append.mpr ⟨h1.retarget d1 (fun a ha => ?_) (fun a ha => ?_),
    h2.retarget d2' (fun a ha => ?_) (fun a ha => ?_)⟩
  · rw [hnext a (hne1 a ha),hpb,hnb,Option.or_none]
  · have hne : next b ≠ some a := by
      rw [hnb]
      exact fun he => hne12 a ha (List.mem_of_head? he)
    rw [hprev a (hne1 a ha),if_neg hne]
    by_cases hh : l₁.head? = some a
    · rw [if_pos hh]
      cases l₁ with
      | nil => simp at ha
      | cons c l =>
        rw [List.head?_cons,Option.some.injEq] at hh
        exact hh ▸ h1.1
    · rw [if_neg hh]
  · have hne : prev b ≠ some a := by
      rw [hpb]
      exact fun he => hne12 a (List.mem_of_getLast? he) ha
    rw [hnext a (hne2 a ha),if_neg hne]
    by_cases hh : l₂.getLast? = some a
    · rw [if_pos hh]
      obtain ⟨l,rfl⟩ := List.getLast?_eq_some_iff.mp hh
      obtain ⟨-,-,hn,-⟩ := linked_append.mp h2
      exact hn
    · rw [if_neg hh]
  · rw [hprev a (hne2 a ha),hnb,hpb,Option.or_none]

/-- Putting a node in after `b`. -/
theorem Linked.insert [DecidableEq ν] {l₁ l₂ : List ν} {b s : ν} (h : Linked next prev none (l₁++b::l₂) none)
    (hd : (l₁++b::l₂).Nodup) (hs : s ∉ l₁++b::l₂) (hself : next' s = next b ∧ prev' s = some b)
    (hnext : ∀ a, a ≠ s → next' a = if a = b then some s else next a)
    (hprev : ∀ a, a ≠ s → prev' a = if next b = some a then some s else prev a) :
    Linked next' prev' none (l₁++b::s::l₂) none := by
  obtain ⟨hpb,hnb⟩ := h.node
  obtain ⟨h1,hp,hn,h2⟩ := linked_append.mp h
  obtain ⟨d1,d2,hdis⟩ := List.nodup_append.mp hd
  obtain ⟨hout,d2'⟩ := List.nodup_cons.mp d2
  have hs1 : ∀ a ∈ l₁, a ≠ s := fun a ha he => hs (by simp [← he,ha])
  have hs2 : ∀ a ∈ l₂, a ≠ s := fun a ha he => hs (by simp [← he,ha])
  have hsb : b ≠ s := fun he => hs (by simp [he])
  have hback : ∀ a, a ∉ l₂ → next b ≠ some a := by
    intro a ha he
    rw [hnb] at he
    exact ha (List.mem_of_head? he)
  refine linked_append.mpr ⟨?_,?_,?_,?_,?_,?_⟩
  · refine h1.congr (fun a ha => ?_) (fun a ha => ?_)
    · rw [hnext a (hs1 a ha),if_neg (hdis a ha b (by simp))]
    · rw [hprev a (hs1 a ha),if_neg (hback a (fun h2 => hdis a ha a (by simp [h2]) rfl))]
  · rw [hprev b hsb,if_neg (hback b hout),hp]
  · rw [hnext b hsb,if_pos rfl]
    rfl
  · exact hself.2
  · rw [hself.1,hnb,Option.or_none]
  · refine h2.retarget d2' (fun a ha => ?_) (fun a ha => ?_)
    · rw [hnext a (hs2 a ha),if_neg (show a ≠ b from fun he => hout (he ▸ ha))]
      by_cases hh : l₂.getLast? = some a
      · rw [if_pos hh]
        obtain ⟨l,rfl⟩ := List.getLast?_eq_some_iff.mp hh
        obtain ⟨-,-,hn2,-⟩ := linked_append.mp h2
        exact hn2
      · rw [if_neg hh]
    · rw [hprev a (hs2 a ha),hnb]

end KiNBOL
