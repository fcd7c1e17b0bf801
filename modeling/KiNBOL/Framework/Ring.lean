import KiNBOL.Framework.LinkedList
import Mathlib.Data.List.Rotate
import Mathlib.Data.List.Perm.Subperm
import Mathlib.Data.List.Range

namespace KiNBOL

variable {ν : Type*} {next prev next' prev' : ν → Option ν} {a b : ν} {l l₁ l₂ : List ν}

/-- Doubly linked nodes in a circle: what comes after the last one is the first. -/
structure Ring (next prev : ν → Option ν) (l : List ν) : Prop where
  nodup : l.Nodup
  linked : Linked next prev l.getLast? l l.head?

theorem Ring.nil : Ring next prev [] := ⟨List.nodup_nil,trivial⟩

/-- A circle can be read from any of its nodes. -/
theorem Ring.rotate (h : Ring next prev (l₁++l₂)) : Ring next prev (l₂++l₁) := by
  by_cases h1 : l₁ = []
  · simpa [h1] using h
  by_cases h2 : l₂ = []
  · simpa [h2] using h
  obtain ⟨a,ha⟩ : ∃ a, l₁.head? = some a := ⟨_,List.head?_eq_some_head h1⟩
  obtain ⟨b,hb⟩ : ∃ b, l₂.head? = some b := ⟨_,List.head?_eq_some_head h2⟩
  obtain ⟨c,hc⟩ : ∃ c, l₁.getLast? = some c := ⟨_,List.getLast?_eq_some_getLast h1⟩
  obtain ⟨d,hd⟩ : ∃ d, l₂.getLast? = some d := ⟨_,List.getLast?_eq_some_getLast h2⟩
  obtain ⟨g1,g2⟩ := linked_append.mp h.linked
  simp only [List.head?_append,List.getLast?_append,ha,hb,hc,hd,Option.some_or] at g1 g2
  constructor
  · exact List.nodup_append_comm.mp h.nodup
  · apply linked_append.mpr
    simp only [List.head?_append,List.getLast?_append,ha,hb,hc,hd,Option.some_or]
    exact ⟨g2,g1⟩

/-- Links of the nodes in the circle only matter. -/
theorem Ring.congr (h : Ring next prev l) (hnext : ∀ a ∈ l, next' a = next a)
    (hprev : ∀ a ∈ l, prev' a = prev a) : Ring next' prev' l :=
  ⟨h.nodup,h.linked.congr hnext hprev⟩

/-- The neighbours of a node, the circle read from it. -/
theorem Ring.first (h : Ring next prev (a::l)) :
    next a = some (l.head?.getD a) ∧ prev a = some (l.getLast?.getD a) := by
  obtain ⟨hp,hn,-⟩ := h.linked
  constructor
  · rw [hn]
    cases l <;> rfl
  · rw [hp]
    cases l with
    | nil => rfl
    | cons b m =>
      rw [List.getLast?_cons_cons]
      cases hl : (b::m).getLast? with
      | none => simp at hl
      | some c => rfl

/-- The neighbours of any node are in the circle. -/
theorem Ring.neighbours (h : Ring next prev l) (ha : a ∈ l) :
    ∃ b c, next a = some b ∧ prev a = some c ∧ b ∈ l ∧ c ∈ l := by
  obtain ⟨l₁,l₂,rfl⟩ := List.append_of_mem ha
  obtain ⟨hn,hp⟩ := h.rotate.first
  refine ⟨_,_,hn,hp,?_,?_⟩
  · cases hh : (l₂++l₁).head? with
    | none => simp
    | some b =>
      have hb := List.mem_of_head? hh
      simp only [Option.getD_some,List.mem_append,List.mem_cons] at hb ⊢
      tauto
  · cases hh : (l₂++l₁).getLast? with
    | none => simp
    | some b =>
      have hb := List.mem_of_getLast? hh
      simp only [Option.getD_some,List.mem_append,List.mem_cons] at hb ⊢
      tauto

/-- A circle of one. -/
theorem Ring.single (hn : next a = some a) (hp : prev a = some a) : Ring next prev [a] :=
  ⟨List.nodup_singleton a,hp,hn,trivial⟩

/-- A node joins between the last one and the first. -/
theorem Ring.join [DecidableEq ν] (h : Ring next prev (a::l)) (hb : b ∉ a::l)
    (hself : next' b = some a ∧ prev' b = (a::l).getLast?)
    (hnext : ∀ x ∈ a::l, next' x = if (a::l).getLast? = some x then some b else next x)
    (hprev : ∀ x ∈ a::l, prev' x = if x = a then some b else prev x) :
    Ring next' prev' (a::l++[b]) := by
  have hmid : Linked next' prev' (some b) (a::l) (some b) := by
    apply h.linked.retarget h.nodup hnext
    intro x hx
    rw [hprev x hx,List.head?_cons]
    by_cases he : x = a
    · rw [if_pos he,if_pos (congrArg some he.symm)]
    · rw [if_neg he,if_neg (fun h2 => he (Option.some.inj h2).symm)]
  constructor
  · exact List.nodup_append.mpr ⟨h.nodup,List.nodup_singleton b,fun x hx y hy he =>
      hb (List.mem_singleton.mp hy ▸ he ▸ hx)⟩
  · rw [List.getLast?_concat]
    have hlast : (a::l).getLast?.or (some b) = prev' b := by
      rw [hself.2]
      cases hh : (a::l).getLast? with
      | none => simp at hh
      | some c => rfl
    apply linked_append.mpr
    exact ⟨hmid,hlast.symm,hself.1,trivial⟩

/-- A node leaves; its neighbours point at each other. -/
theorem Ring.leave [DecidableEq ν] (h : Ring next prev (a::l)) (hne : l ≠ [])
    (hnext : ∀ x ∈ l, next' x = if prev a = some x then next a else next x)
    (hprev : ∀ x ∈ l, prev' x = if next a = some x then prev a else prev x) :
    Ring next' prev' l := by
  obtain ⟨hout,hd⟩ := List.nodup_cons.mp h.nodup
  obtain ⟨b,m,rfl⟩ := List.exists_cons_of_ne_nil hne
  obtain ⟨hp,hn,hl⟩ := h.linked
  rw [List.getLast?_cons_cons] at hp
  rw [List.head?_cons] at hl
  constructor
  · exact hd
  · apply hl.retarget hd
    · intro x hx
      rw [hnext x hx,hp,hn]
      rfl
    · intro x hx
      rw [hprev x hx,hp,hn]
      rfl

/-- Going around from `a` to the first node with a property, until `stop` comes again. Where a link
is missing the walk ends in `lost`. -/
def seek [DecidableEq ν] (next : ν → Option ν) (p : ν → Bool) (stop : ν) (lost : Option (Option ν)) :
    Nat → ν → Option (Option ν)
  | 0,_ => none
  | n+1,a =>
    if p a then some (some a)
    else match next a with
      | none => lost
      | some b => if b = stop then some none else seek next p stop lost n b

/-- The walk over linked nodes finds what `List.find?` does. -/
theorem seek_linked [DecidableEq ν] {x : Option ν} {stop : ν} {p : ν → Bool}
    {lost : Option (Option ν)} {n : Nat} (h : Linked next prev x (a::l) (some stop))
    (hs : stop ∉ l) (hn : l.length < n) :
    seek next p stop lost n a = some ((a::l).find? p) := by
  induction l generalizing a x n with
  | nil =>
    obtain ⟨n,rfl⟩ := Nat.exists_eq_succ_of_ne_zero (show n ≠ 0 by simp at hn; omega)
    obtain ⟨-,hnext,-⟩ := h
    rw [seek,List.find?_cons]
    cases hp : p a with
    | true => simp
    | false => simp [hnext]
  | cons b m ih =>
    obtain ⟨n,rfl⟩ := Nat.exists_eq_succ_of_ne_zero (show n ≠ 0 by simp at hn; omega)
    obtain ⟨-,hnext,hl⟩ := h
    have hb : b ≠ stop := fun he => hs (by simp [he])
    rw [seek,List.find?_cons]
    cases hp : p a with
    | true => simp
    | false =>
      simp only [Bool.false_eq_true,if_false,hnext,List.head?_cons,Option.some_or,if_neg hb]
      exact ih hl (fun hm => hs (by simp [hm])) (by simpa using hn)

/-- Once around the circle from its first node. -/
theorem Ring.seek_self [DecidableEq ν] {p : ν → Bool} {lost : Option (Option ν)} {n : Nat}
    (h : Ring next prev (a::l)) (hn : l.length < n) :
    seek next p a lost n a = some ((a::l).find? p) :=
  seek_linked h.linked (List.nodup_cons.mp h.nodup).1 hn

/-- Around the circle from the node after `a`, until `a` comes. -/
theorem Ring.seek_next [DecidableEq ν] {p : ν → Bool} {lost : Option (Option ν)} {n : Nat}
    (h : Ring next prev (a::b::l)) (hn : l.length < n) :
    seek next p a lost n b = some ((b::l).find? p) :=
  seek_linked h.linked.2.2 (fun hm => (List.nodup_cons.mp h.nodup).1 (List.mem_cons_of_mem b hm)) hn

/-- Different numbers below a bound. -/
theorem List.Nodup.length_le_bound {l : List Nat} (h : l.Nodup) {n : Nat} (hl : ∀ x ∈ l, x < n) :
    l.length ≤ n := by
  have hsub : l ⊆ List.range n := fun x hx => List.mem_range.mpr (hl x hx)
  have := (h.subperm hsub).length_le
  rwa [List.length_range] at this

end KiNBOL
