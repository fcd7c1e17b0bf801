import Mathlib.Data.Nat.Init

namespace KiNBOL

variable {pending goal helpful : Nat → Prop} {rank : Nat → Nat} {n : Nat}

/-- What holds until a time at which a step helps. -/
theorem until_helpful
    (hstep : ∀ n, pending n → goal (n+1) ∨ pending (n+1) ∧ rank (n+1) ≤ rank n)
    (h : pending n) (d : Nat) :
    (∃ m, n < m ∧ goal m) ∨ pending (n+d) ∧ rank (n+d) ≤ rank n := by
  induction d with
  | zero => exact Or.inr ⟨h,Nat.le_refl _⟩
  | succ d ih =>
    rcases ih with hdone | ⟨hp,hle⟩
    · exact Or.inl hdone
    · rcases hstep (n+d) hp with hg | ⟨hp',hle'⟩
      · exact Or.inl ⟨n+d+1,by omega,hg⟩
      · exact Or.inr ⟨hp',Nat.le_trans hle' hle⟩

/-- In a run with helpful steps again and again, each of which brings the goal or a lower rank, the
goal is reached. -/
theorem reached_of_rank (hfair : ∀ n, ∃ m, n ≤ m ∧ helpful m)
    (hstep : ∀ n, pending n → goal (n+1) ∨ pending (n+1) ∧ rank (n+1) ≤ rank n)
    (hhelp : ∀ n, pending n → helpful n → goal (n+1) ∨ rank (n+1) < rank n)
    (h : pending n) : ∃ m, n < m ∧ goal m := by
  induction hr : rank n using Nat.strong_induction_on generalizing n with
  | _ r ih =>
    obtain ⟨m,hnm,hm⟩ := hfair n
    rcases until_helpful hstep h (m-n) with hdone | ⟨hp,hle⟩
    · exact hdone
    rw [Nat.add_sub_cancel' hnm] at hp hle
    rcases hhelp m hp hm with hg | hlt
    · exact ⟨m+1,by omega,hg⟩
    rcases hstep m hp with hg | ⟨hp',-⟩
    · exact ⟨m+1,by omega,hg⟩
    obtain ⟨k,hk,hg⟩ := ih (rank (m+1)) (by omega) hp' rfl
    exact ⟨k,by omega,hg⟩

end KiNBOL
