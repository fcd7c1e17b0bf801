import Mathlib.Data.List.Range
import Mathlib.Logic.Function.Basic

namespace KiNBOL

variable {α : Type*} {n head count : Nat} {buf : Nat → α} {log : List α}

/-- The last entries of a list, `n` at most. -/
def latest (n : Nat) (log : List α) : List α := log.drop (log.length-n)

theorem length_latest (n : Nat) (log : List α) : (latest n log).length = min log.length n := by
  rw [latest,List.length_drop]
  omega

/-- A ring of `n` slots, with the next slot and the number of slots in use, holds the last entries
of a log. -/
structure KeepsLast (n : Nat) (buf : Nat → α) (head count : Nat) (log : List α) : Prop where
  head : head = log.length%n
  count : count = min log.length n
  slot : ∀ j (hj : j < log.length), log.length ≤ j+n → buf (j%n) = log[j]

theorem KeepsLast.empty (n : Nat) (buf : Nat → α) : KeepsLast n buf 0 0 [] := by
  refine ⟨(Nat.zero_mod n).symm,(Nat.zero_min n).symm,fun j hj => ?_⟩
  exact absurd hj (Nat.not_lt_zero j)

/-- Entries less than `n` apart have different slots. -/
theorem mod_ne_of_near {i j : Nat} (hij : i < j) (hn : j < i+n) : i%n ≠ j%n := by
  intro he
  have hdvd : n ∣ j-i := Nat.dvd_of_mod_eq_zero (Nat.sub_mod_eq_zero_of_mod_eq he.symm)
  have hle : n ≤ j-i := Nat.le_of_dvd (by omega) hdvd
  omega

theorem KeepsLast.push (h : KeepsLast n buf head count log) (a : α) :
    KeepsLast n (Function.update buf head a) ((head+1)%n)
      (if count < n then count+1 else count) (log++[a]) := by
  have hlen : (log++[a]).length = log.length+1 := by simp
  refine ⟨?_,?_,fun j hj hnear => ?_⟩
  · rw [hlen,h.head,Nat.mod_add_mod]
  · rw [hlen,h.count]
    split_ifs <;> omega
  · rw [hlen] at hj hnear
    by_cases hlast : j = log.length
    · subst hlast
      rw [← h.head,Function.update_self]
      simp
    · have hne : j%n ≠ head := by
        rw [h.head]
        exact mod_ne_of_near (by omega) (by omega)
      rw [Function.update_of_ne hne,h.slot j (by omega) (by omega)]
      exact (List.getElem_append_left (by omega)).symm

/-- Reading the slots in use, from the oldest one on. -/
theorem KeepsLast.read (h : KeepsLast n buf head count log) :
    (List.range count).map (fun i => buf (((if count < n then 0 else head)+i)%n)) =
      latest n log := by
  have hcount := h.count
  apply List.ext_getElem
  · rw [List.length_map,List.length_range,length_latest,hcount]
  · intro i hi hi'
    rw [List.length_map,List.length_range] at hi
    simp only [List.getElem_map,List.getElem_range,latest,List.getElem_drop]
    rw [← h.slot (log.length-n+i) (by omega) (by omega)]
    by_cases hfull : count < n
    · rw [if_pos hfull,show log.length-n+i = 0+i by omega]
    · have hback : log.length%n = (log.length-n)%n :=
        Nat.mod_eq_sub_mod (by omega)
      rw [if_neg hfull,h.head,hback,Nat.mod_add_mod]

end KiNBOL
