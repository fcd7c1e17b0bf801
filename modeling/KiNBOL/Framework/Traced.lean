import Mathlib.Data.List.Basic

namespace KiNBOL

/-- A computation with what it touches on its way. Without a result it has left early. -/
structure Traced (ε α : Type) where
  events : List ε
  result : Option α

namespace Traced

variable {ε α β σ : Type} {p : ε → Prop}

instance : Monad (Traced ε) where
  pure a := ⟨[],some a⟩
  bind t k := match t.result with
    | none => ⟨t.events,none⟩
    | some a => ⟨t.events++(k a).events,(k a).result⟩

/-- Touches these. -/
def touch (l : List ε) : Traced ε Unit := ⟨l,some ()⟩

/-- Leaves unless the condition holds. -/
def check (c : Prop) [Decidable c] : Traced ε Unit := ⟨[],if c then some () else none⟩

/-- All that is touched satisfies `p`. -/
def Keeps (p : ε → Prop) (t : Traced ε α) : Prop := ∀ e ∈ t.events, p e

@[simp] theorem keeps_pure (a : α) : (pure a : Traced ε α).Keeps p := by
  intro e he
  cases he

@[simp] theorem keeps_touch {l : List ε} : (touch l).Keeps p ↔ ∀ e ∈ l, p e := Iff.rfl

@[simp] theorem keeps_check (c : Prop) [Decidable c] : (check c : Traced ε Unit).Keeps p := by
  intro e he
  cases he

@[simp] theorem result_pure {a b : α} : (pure a : Traced ε α).result = some b ↔ a = b :=
  Option.some_inj

@[simp] theorem result_touch (l : List ε) : (touch l).result = some () := rfl

@[simp] theorem result_check (c : Prop) [Decidable c] :
    (check c : Traced ε Unit).result = some () ↔ c := by
  rw [check]
  split_ifs with h <;> simp [h]

@[simp] theorem keeps_bind {t : Traced ε α} {k : α → Traced ε β} :
    (t >>= k).Keeps p ↔ t.Keeps p ∧ ∀ a, t.result = some a → (k a).Keeps p := by
  obtain ⟨events,result⟩ := t
  cases result with
  | none => simp [bind,Keeps]
  | some a => simp [bind,Keeps,or_imp,forall_and]

@[simp] theorem result_bind {t : Traced ε α} {k : α → Traced ε β} {b : β} :
    (t >>= k).result = some b ↔ ∃ a, t.result = some a ∧ (k a).result = some b := by
  obtain ⟨events,result⟩ := t
  cases result with
  | none => simp [bind]
  | some a => simp [bind]

/-- All that is touched satisfies `p`, and there is a result, which satisfies `q`. -/
def Ends (p : ε → Prop) (q : α → Prop) (t : Traced ε α) : Prop :=
  t.Keeps p ∧ ∃ a, t.result = some a ∧ q a

theorem ends_pure {q : α → Prop} {a : α} (h : q a) : (pure a : Traced ε α).Ends p q :=
  ⟨keeps_pure a,a,rfl,h⟩

theorem Ends.bind {t : Traced ε α} {k : α → Traced ε β} {q : α → Prop} {r : β → Prop}
    (h : t.Ends p q) (hk : ∀ a, q a → (k a).Ends p r) : (t >>= k).Ends p r := by
  obtain ⟨hkeeps,a,ha,hq⟩ := h
  obtain ⟨hkeeps',b,hb,hr⟩ := hk a hq
  refine ⟨keeps_bind.mpr ⟨hkeeps,fun a' ha' => ?_⟩,b,result_bind.mpr ⟨a,ha,hb⟩,hr⟩
  obtain rfl := Option.some.inj (ha.symm.trans ha')
  exact hkeeps'

theorem Ends.mono {t : Traced ε α} {q r : α → Prop} (h : t.Ends p q) (hr : ∀ a, q a → r a) :
    t.Ends p r := by
  obtain ⟨hkeeps,a,ha,hq⟩ := h
  exact ⟨hkeeps,a,ha,hr a hq⟩

/-- Each round of a loop keeps `p`, so the loop does. -/
theorem keeps_foldlM {l : List α} {f : σ → α → Traced ε σ} (h : ∀ a ∈ l, ∀ s, (f s a).Keeps p)
    (s : σ) : (l.foldlM f s).Keeps p := by
  induction l generalizing s with
  | nil => exact keeps_pure s
  | cons a l ih =>
    rw [List.foldlM_cons,keeps_bind]
    exact ⟨h a (by simp) s,fun s' _ => ih (fun b hb => h b (by simp [hb])) s'⟩

/-- A loop that no round leaves comes to each of its rounds. -/
theorem Keeps.round {l : List α} {f : σ → α → Traced ε σ} {s : σ} (h : (l.foldlM f s).Keeps p)
    (hends : ∀ a ∈ l, ∀ s, ∃ s', (f s a).result = some s') {a : α} (ha : a ∈ l) :
    ∃ s, (f s a).Keeps p := by
  induction l generalizing s with
  | nil => cases ha
  | cons b l ih =>
    rw [List.foldlM_cons,keeps_bind] at h
    obtain ⟨s',hs'⟩ := hends b (by simp) s
    rcases List.mem_cons.mp ha with rfl | ha
    · exact ⟨s,h.1⟩
    · exact ih (h.2 s' hs') (fun b hb => hends b (by simp [hb])) ha

/-- A loop that no round leaves has a result. -/
theorem result_foldlM {l : List α} {f : σ → α → Traced ε σ}
    (h : ∀ a ∈ l, ∀ s, ∃ s', (f s a).result = some s') (s : σ) :
    ∃ s', (l.foldlM f s).result = some s' := by
  induction l generalizing s with
  | nil => exact ⟨s,rfl⟩
  | cons a l ih =>
    obtain ⟨s₁,h₁⟩ := h a (by simp) s
    obtain ⟨s₂,h₂⟩ := ih (fun b hb => h b (by simp [hb])) s₁
    exact ⟨s₂,result_bind.mpr ⟨s₁,h₁,h₂⟩⟩

end Traced

end KiNBOL
