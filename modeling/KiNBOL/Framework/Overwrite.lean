import Mathlib.Data.List.Basic

namespace KiNBOL

/-! Files as lists of bytes, and what a write at an offset makes of them. -/

variable {α : Type*} {old mid new data front : List α} {pos : Nat}

/-- `new` is `old` with `data` at `pos`. Where `old` ends before `pos`, anything may lie between. -/
structure Overwritten (old : List α) (pos : Nat) (data new : List α) : Prop where
  length : new.length = max old.length (pos+data.length)
  inside : ∀ k < data.length, new[pos+k]? = data[k]?
  outside : ∀ k < old.length, k < pos ∨ pos+data.length ≤ k → new[k]? = old[k]?

namespace Overwritten

/-- What was written is read back. -/
theorem read (h : Overwritten old pos data new) : (new.drop pos).take data.length = data := by
  apply List.ext_getElem?
  intro k
  by_cases hk : k < data.length
  · rw [List.getElem?_take_of_lt hk,List.getElem?_drop,h.inside k hk]
  · have hlen : ((new.drop pos).take data.length).length ≤ k := by
      rw [List.length_take]
      omega
    rw [List.getElem?_eq_none hlen,List.getElem?_eq_none (by omega)]

/-- What a read elsewhere in the old bytes returns. -/
theorem read_other (h : Overwritten old pos data new) {off len : Nat} (hend : off+len ≤ old.length)
    (ho : off+len ≤ pos ∨ pos+data.length ≤ off) :
    (new.drop off).take len = (old.drop off).take len := by
  apply List.ext_getElem?
  intro k
  by_cases hk : k < len
  · rw [List.getElem?_take_of_lt hk,List.getElem?_take_of_lt hk,List.getElem?_drop,List.getElem?_drop]
    exact h.outside (off+k) (by omega) (by omega)
  · rw [List.getElem?_eq_none (by rw [List.length_take]; omega),
      List.getElem?_eq_none (by rw [List.length_take]; omega)]

/-- A write that leaves no gap has one result only. -/
theorem eq (h : Overwritten old pos data new) (hpos : pos ≤ old.length) :
    new = old.take pos++data++old.drop (pos+data.length) := by
  have htake : (old.take pos).length = pos := by
    rw [List.length_take]
    omega
  apply List.ext_getElem?
  intro k
  rw [List.append_assoc]
  by_cases h1 : k < pos
  · rw [List.getElem?_append_left (by omega),List.getElem?_take_of_lt h1]
    exact h.outside k (by omega) (Or.inl h1)
  rw [List.getElem?_append_right (by omega),htake]
  by_cases h2 : k < pos+data.length
  · rw [List.getElem?_append_left (by omega),← h.inside (k-pos) (by omega)]
    congr 1
    omega
  rw [List.getElem?_append_right (by omega),List.getElem?_drop]
  have hk : pos+data.length+(k-pos-data.length) = k := by omega
  rw [hk]
  by_cases h3 : k < old.length
  · exact h.outside k h3 (Or.inr (by omega))
  · have hlen := h.length
    rw [List.getElem?_eq_none (by omega),List.getElem?_eq_none (by omega)]

/-- Two writes in a row are one. -/
theorem append (h1 : Overwritten old pos front mid)
    (h2 : Overwritten mid (pos+front.length) data new) : Overwritten old pos (front++data) new where
  length := by
    rw [h2.length,h1.length,List.length_append]
    omega
  inside k hk := by
    rw [List.length_append] at hk
    by_cases hf : k < front.length
    · have hm := h1.length
      rw [List.getElem?_append_left hf,← h1.inside k hf]
      exact h2.outside (pos+k) (by omega) (Or.inl (by omega))
    · rw [List.getElem?_append_right (by omega),← h2.inside (k-front.length) (by omega)]
      congr 1
      omega
  outside k hk ho := by
    rw [List.length_append] at ho
    have hm := h1.length
    rw [h2.outside k (by omega) (by omega),h1.outside k hk (by omega)]

end Overwritten

end KiNBOL
