import Mathlib.Data.List.Basic

namespace KiNBOL

variable {σ κ : Type*} {run : σ → κ → σ} {p q : σ → κ → Prop} {s : σ}

/-- Along the run of these calls, each call fits the state it meets. -/
def EveryStep (run : σ → κ → σ) (p : σ → κ → Prop) : σ → List κ → Prop
  | _,[] => True
  | s,c::calls => p s c ∧ EveryStep run p (run s c) calls

/-- Two descriptions of good steps that agree under an invariant which good steps keep. -/
theorem everyStep_congr (inv : σ → Prop) (hpq : ∀ s c, inv s → (p s c ↔ q s c))
    (hkeep : ∀ s c, inv s → q s c → inv (run s c)) (calls : List κ) (h : inv s) :
    EveryStep run p s calls ↔ EveryStep run q s calls := by
  induction calls generalizing s with
  | nil => exact Iff.rfl
  | cons c calls ih =>
    constructor
    · intro hall
      have hq := (hpq s c h).mp hall.1
      exact ⟨hq,(ih (hkeep s c h hq)).mp hall.2⟩
    · intro hall
      exact ⟨(hpq s c h).mpr hall.1,(ih (hkeep s c h hall.1)).mpr hall.2⟩

/-- The states behind any number of the calls. -/
theorem everyStep_foldl {ok : σ → Prop} (calls : List κ) (s : σ) :
    (ok s ∧ EveryStep run (fun s c => ok (run s c)) s calls) ↔
      ∀ n, ok ((calls.take n).foldl run s) := by
  induction calls generalizing s with
  | nil =>
    simp [EveryStep]
  | cons c calls ih =>
    constructor
    · intro h n
      cases n with
      | zero => exact h.1
      | succ n => exact (ih (run s c)).mp ⟨h.2.1,h.2.2⟩ n
    · intro h
      obtain ⟨h1,h2⟩ := (ih (run s c)).mpr (fun n => h (n+1))
      exact ⟨h 0,h1,h2⟩

end KiNBOL
