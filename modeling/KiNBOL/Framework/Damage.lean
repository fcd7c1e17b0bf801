import Mathlib.Data.Set.Basic
import Mathlib.Logic.Relation

namespace KiNBOL

/-- Damage tracking: `front` is a copy of `back` that lags behind on the places still recorded,
in `dirty` by whoever draws and in `pending` by whoever has taken places over for copying. -/
structure Damage (P V : Type*) where
  back : P → V
  front : P → V
  dirty : Set P
  pending : Set P

namespace Damage

variable {P V : Type*}

/-- Where the two copies differ, the place is recorded. -/
def Covered (d : Damage P V) : Prop :=
  ∀ p, d.front p ≠ d.back p → p ∈ d.dirty ∨ p ∈ d.pending

/-- Drawing records what it changes, taking moves records, copying may drop those it serves. -/
inductive Step : Damage P V → Damage P V → Prop
  | draw {d d' : Damage P V} (hfront : d'.front = d.front)
      (hpending : d'.pending = d.pending) (hkeep : ∀ p ∈ d.dirty, p ∈ d'.dirty)
      (hback : ∀ p, d'.back p ≠ d.back p → p ∈ d'.dirty) : Step d d'
  | take {d d' : Damage P V} (hfront : d'.front = d.front) (hback : d'.back = d.back)
      (hdirty : ∀ p ∈ d.dirty, p ∈ d'.dirty ∨ p ∈ d'.pending)
      (hpending : ∀ p ∈ d.pending, p ∈ d'.pending) : Step d d'
  | copy {d d' : Damage P V} (S : Set P) (hback : d'.back = d.back)
      (hin : ∀ p ∈ S, d'.front p = d.back p)
      (hout : ∀ p, d'.front p = d.front p ∨ d'.front p = d.back p)
      (hdirty : ∀ p ∈ d.dirty, p ∉ S → p ∈ d'.dirty)
      (hpending : ∀ p ∈ d.pending, p ∉ S → p ∈ d'.pending) : Step d d'

variable {d d' : Damage P V}

theorem Covered.step (h : d.Covered) (hs : Step d d') : d'.Covered := by
  intro p hp
  cases hs with
  | draw hfront hpending hkeep hback =>
    by_cases hb : d'.back p = d.back p
    · rw [hfront,hb] at hp
      apply (h p hp).imp (hkeep p)
      rw [hpending]
      exact id
    · exact Or.inl (hback p hb)
  | take hfront hback hdirty hpending =>
    rw [hfront,hback] at hp
    exact (h p hp).elim (hdirty p) (fun hq => Or.inr (hpending p hq))
  | copy S hback hin hout hdirty hpending =>
    rw [hback] at hp
    have hS : p ∉ S := fun hS => hp (hin p hS)
    have hold : d'.front p = d.front p := (hout p).resolve_right hp
    rw [hold] at hp
    exact (h p hp).imp (fun hq => hdirty p hq hS) (fun hq => hpending p hq hS)

theorem Covered.run (h : d.Covered) (hs : Relation.ReflTransGen Step d d') : d'.Covered := by
  induction hs with
  | refl => exact h
  | tail _ hstep ih => exact ih.step hstep

/-- With nothing recorded the copies agree. -/
theorem Covered.settled (h : d.Covered) (hdirty : ∀ p, p ∉ d.dirty)
    (hpending : ∀ p, p ∉ d.pending) : d.front = d.back := by
  funext p
  by_contra hp
  exact (h p hp).elim (hdirty p) (hpending p)

end Damage

end KiNBOL
