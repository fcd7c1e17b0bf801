import Mathlib.Data.List.Basic

namespace KiNBOL

/-! Calls with their answers, one after the other, on a state. -/

variable {σ τ κ ρ : Type*} {step : σ → κ → ρ → σ → Prop} {step' : τ → κ → ρ → τ → Prop}
  {s s' s'' : σ} {t : τ} {l l' : List (κ × ρ)} {ok : κ → Prop}

/-- The calls and answers of a run and the state behind them. -/
inductive Runs (step : σ → κ → ρ → σ → Prop) : σ → List (κ × ρ) → σ → Prop where
  | nil (s : σ) : Runs step s [] s
  | cons {s s' s'' : σ} {c : κ} {a : ρ} {l : List (κ × ρ)} :
    step s c a s' → Runs step s' l s'' → Runs step s ((c,a)::l) s''

theorem Runs.append (h : Runs step s l s') (h' : Runs step s' l' s'') :
    Runs step s (l++l') s'' := by
  induction h with
  | nil s => exact h'
  | cons hc _ ih => exact .cons hc (ih h')

/-- What the calls of a run keep. -/
theorem Runs.keeps {p : σ → Prop} (h : Runs step s l s')
    (hkeep : ∀ s s' x, p s → x ∈ l → step s x.1 x.2 s' → p s') (hs : p s) : p s' := by
  induction h with
  | nil s => exact hs
  | @cons s s' s'' c a l hc _ ih =>
    exact ih (fun s s' x hp hx => hkeep s s' x hp (by simp [hx]))
      (hkeep s s' (c,a) hs (by simp) hc)

/-- A run of one machine is a run of another whose states are related to those of the first. -/
theorem Runs.simulate {R : σ → τ → Prop} (h : Runs step s l s') (hok : ∀ x ∈ l, ok x.1)
    (hsim : ∀ s t c a s', R s t → ok c → step s c a s' → ∃ t', step' t c a t' ∧ R s' t')
    (hs : R s t) : ∃ t', Runs step' t l t' ∧ R s' t' := by
  induction h generalizing t with
  | nil s => exact ⟨t,.nil t,hs⟩
  | @cons s s' s'' c a l hc _ ih =>
    obtain ⟨t',hstep,ht⟩ := hsim s t c a s' hs (hok (c,a) (by simp)) hc
    obtain ⟨t'',hruns,hR⟩ := ih (fun x hx => hok x (by simp [hx])) ht
    exact ⟨t'',.cons hstep hruns,hR⟩

/-- Where every call is answered, every list of calls is. -/
theorem Runs.exists {p : σ → Prop} (hans : ∀ s c, p s → ok c → ∃ a s', step s c a s' ∧ p s')
    (calls : List κ) (hok : ∀ c ∈ calls, ok c) (hs : p s) :
    ∃ l s', l.map Prod.fst = calls ∧ Runs step s l s' ∧ p s' := by
  induction calls generalizing s with
  | nil => exact ⟨[],s,rfl,.nil s,hs⟩
  | cons c calls ih =>
    obtain ⟨a,s',hc,hp⟩ := hans s c hs (hok c (by simp))
    obtain ⟨l,s'',hl,hruns,hp'⟩ := ih (fun d hd => hok d (by simp [hd])) hp
    exact ⟨(c,a)::l,s'',by rw [List.map_cons,hl],.cons hc hruns,hp'⟩

end KiNBOL
