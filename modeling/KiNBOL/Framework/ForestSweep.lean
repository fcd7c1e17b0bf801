import KiNBOL.Framework.RadixForest
import Mathlib.Data.List.Nodup

namespace KiNBOL

variable {ν ι ε : Type*}

/-- One level of a post-order sweep: for every slot that names a child, what `g` lists below the
child and then what the entry itself stands for. -/
def sweep (dec : ε → Option ν) (out : ε → ν) (mem : ν → ι → ε) (slots : List ι) (g : ν → List ν)
    (n : ν) : List ν :=
  slots.flatMap fun i =>
    match dec (mem n i) with
    | none => []
    | some c => g c++[out (mem n i)]

variable {dec : ε → Option ν} {out : ε → ν} {mem : ν → ι → ε} {slots : List ι}
  {g : ν → List ν} {n : ν}

theorem mem_sweep {x : ν} : x ∈ sweep dec out mem slots g n ↔
    ∃ i ∈ slots, ∃ c, dec (mem n i) = some c ∧ (x ∈ g c ∨ x = out (mem n i)) := by
  simp only [sweep,List.mem_flatMap]
  constructor
  · intro h
    obtain ⟨i,hi,hx⟩ := h
    cases hc : dec (mem n i) with
    | none => simp [hc] at hx
    | some c =>
      rw [hc] at hx
      exact ⟨i,hi,c,hc,by simpa using hx⟩
  · intro h
    obtain ⟨i,hi,c,hc,hx⟩ := h
    refine ⟨i,hi,?_⟩
    rw [hc]
    simpa using hx

/-- A list of what the entries below a node stand for, over the paths in `B`. -/
def Reports (dec : ε → Option ν) (out : ε → ν) (mem : ν → ι → ε) (B : List ι → Prop) (n : ν)
    (l : List ν) : Prop :=
  ∀ x, x ∈ l ↔ ∃ p i e, B (p++[i]) ∧ slotAt dec mem n p i = some e ∧ dec e ≠ none ∧ out e = x

variable {B C : List ι → Prop}

theorem Reports.nil (hB : ∀ p i, ¬B (p++[i])) : Reports dec out mem B n [] := by
  intro x
  simp only [List.not_mem_nil,false_iff]
  intro h
  obtain ⟨p,i,-,hp,-⟩ := h
  exact hB p i hp

theorem slotAt_cons (i j : ι) (p : List ι) : slotAt dec mem n (i::p) j =
    (dec (mem n i)).bind (fun c => slotAt dec mem c p j) := by
  rw [slotAt,follow_cons]
  cases dec (mem n i) <;> rfl

/-- Sweeping one more level reports one more level of entries. -/
theorem Reports.sweep (hB : ∀ i p, B (i::p) ↔ i ∈ slots ∧ (p = [] ∨ C p))
    (hg : ∀ i ∈ slots, ∀ c, dec (mem n i) = some c → Reports dec out mem C c (g c)) :
    Reports dec out mem B n (sweep dec out mem slots g n) := by
  intro x
  rw [mem_sweep]
  constructor
  · intro h
    obtain ⟨i,hi,c,hc,hx⟩ := h
    cases hx with
    | inr hself =>
      refine ⟨[],i,mem n i,(hB i []).mpr ⟨hi,Or.inl rfl⟩,rfl,?_,hself.symm⟩
      rw [hc]
      simp
    | inl hbelow =>
      obtain ⟨p,j,e,hp,he,hd,ho⟩ := (hg i hi c hc x).mp hbelow
      refine ⟨i::p,j,e,(hB i (p++[j])).mpr ⟨hi,Or.inr hp⟩,?_,hd,ho⟩
      rw [slotAt_cons,hc]
      exact he
  · intro h
    obtain ⟨p,j,e,hp,he,hd,ho⟩ := h
    cases p with
    | nil =>
      obtain ⟨hi,-⟩ := (hB j []).mp hp
      simp only [slotAt,follow_nil,Option.map_some,Option.some.injEq] at he
      obtain ⟨c,hc⟩ := Option.ne_none_iff_exists'.mp hd
      exact ⟨j,hi,c,he ▸ hc,Or.inr (he ▸ ho.symm)⟩
    | cons i p =>
      obtain ⟨hi,hrest⟩ := (hB i (p++[j])).mp hp
      rw [slotAt_cons] at he
      obtain ⟨c,hc,he⟩ := Option.bind_eq_some_iff.mp he
      have hp' : C (p++[j]) := hrest.resolve_left (by simp)
      exact ⟨i,hi,c,hc,Or.inl ((hg i hi c hc x).mpr ⟨p,j,e,hp',he,hd,ho⟩)⟩

/-- When entries stand for their children, a report lists the nodes below. -/
theorem Reports.nodes {l : List ν} (h : Reports dec out mem B n l)
    (hout : ∀ p i e c, B (p++[i]) → slotAt dec mem n p i = some e → dec e = some c → out e = c)
    (x : ν) : x ∈ l ↔ ∃ p i, B (p++[i]) ∧ follow dec mem n (p++[i]) = some x := by
  rw [h x]
  constructor
  · intro hx
    obtain ⟨p,i,e,hp,he,hd,ho⟩ := hx
    obtain ⟨c,hc⟩ := Option.ne_none_iff_exists'.mp hd
    refine ⟨p,i,hp,?_⟩
    rw [follow_slotAt,he,Option.bind_some,hc,← ho,hout p i e c hp he hc]
  · intro hx
    obtain ⟨p,i,hp,hf⟩ := hx
    rw [follow_slotAt] at hf
    obtain ⟨e,he,hc⟩ := Option.bind_eq_some_iff.mp hf
    exact ⟨p,i,e,hp,he,by simp [hc],hout p i e x hp he hc⟩

/-- A sweep over a tree in which no two paths meet lists every node once. -/
theorem sweep_nodup (hslots : slots.Nodup) (hB : ∀ i p, B (i::p) ↔ i ∈ slots ∧ (p = [] ∨ C p))
    (hout : ∀ i ∈ slots, ∀ c, dec (mem n i) = some c → out (mem n i) = c)
    (hg : ∀ i ∈ slots, ∀ c, dec (mem n i) = some c → (g c).Nodup ∧
      ∀ x ∈ g c, ∃ p, p ≠ [] ∧ C p ∧ follow dec mem c p = some x)
    (hinj : ∀ p q x, B p → B q → follow dec mem n p = some x → follow dec mem n q = some x →
      p = q) : (sweep dec out mem slots g n).Nodup := by
  -- what a slot contributes sits on paths that start with the slot
  have hpath : ∀ i ∈ slots, ∀ c, dec (mem n i) = some c → ∀ x, x ∈ g c++[out (mem n i)] →
      ∃ p, B (i::p) ∧ follow dec mem n (i::p) = some x := by
    intro i hi c hc x hx
    rw [List.mem_append,List.mem_singleton] at hx
    cases hx with
    | inl hbelow =>
      obtain ⟨p,-,hp,hf⟩ := (hg i hi c hc).2 x hbelow
      exact ⟨p,(hB i p).mpr ⟨hi,Or.inr hp⟩,by rw [follow_cons,hc]; exact hf⟩
    | inr hself =>
      refine ⟨[],(hB i []).mpr ⟨hi,Or.inl rfl⟩,?_⟩
      rw [follow_cons,hc,hself,hout i hi c hc]
      rfl
  rw [sweep,List.nodup_flatMap]
  constructor
  · intro i hi
    cases hc : dec (mem n i) with
    | none => exact List.nodup_nil
    | some c =>
      refine List.nodup_append.mpr ⟨(hg i hi c hc).1,List.nodup_singleton _,?_⟩
      intro x hx y hy he
      rw [List.mem_singleton,hout i hi c hc] at hy
      obtain ⟨p,hne,hp,hf⟩ := (hg i hi c hc).2 x hx
      have h1 : follow dec mem n [i] = some c := by
        rw [follow_cons,hc]
        rfl
      have h2 : follow dec mem n (i::p) = some c := by
        rw [follow_cons,hc,Option.bind_some,hf,he,hy]
      have hpq := hinj (i::p) [i] c ((hB i p).mpr ⟨hi,Or.inr hp⟩)
        ((hB i []).mpr ⟨hi,Or.inl rfl⟩) h2 h1
      exact hne (List.cons.inj hpq).2
  · refine List.Nodup.pairwise_of_forall_ne hslots (fun i hi j hj hij => ?_)
    intro x hx hy
    cases hc : dec (mem n i) with
    | none => simp [hc] at hx
    | some c =>
      cases hd : dec (mem n j) with
      | none => simp [hd] at hy
      | some d =>
        simp only [hc] at hx
        simp only [hd] at hy
        obtain ⟨p,hp,hfp⟩ := hpath i hi c hc x hx
        obtain ⟨q,hq,hfq⟩ := hpath j hj d hd x hy
        exact hij (List.cons.inj (hinj _ _ x hp hq hfp hfq)).1

/-- The sweep of everything up to `d` levels below a node. -/
def below (dec : ε → Option ν) (out : ε → ν) (mem : ν → ι → ε) (slots : List ι) :
    Nat → ν → List ν
  | 0 => fun _ => []
  | d+1 => sweep dec out mem slots (below dec out mem slots d)

/-- Paths of at least one and at most `d` slots. -/
def Deep (d : Nat) (p : List ι) : Prop := p ≠ [] ∧ p.length ≤ d

theorem deep_cons (d : Nat) (i : ι) (p : List ι) : Deep (d+1) (i::p) ↔ p = [] ∨ Deep d p := by
  cases p with
  | nil => simp [Deep]
  | cons j p => simp [Deep]

theorem below_reports (hall : ∀ i, i ∈ slots) (d : Nat) (n : ν) :
    Reports dec out mem (Deep d) n (below dec out mem slots d n) := by
  induction d generalizing n with
  | zero =>
    apply Reports.nil
    intro p i h
    have hlen := h.2
    simp at hlen
  | succ d ih =>
    apply Reports.sweep
    · intro i p
      rw [deep_cons,and_iff_right (hall i)]
    · exact fun i _ c _ => ih c

theorem below_nodup (hall : ∀ i, i ∈ slots) (hslots : slots.Nodup) (d : Nat) (n : ν)
    (hout : ∀ p i e c, Deep d (p++[i]) → slotAt dec mem n p i = some e → dec e = some c →
      out e = c)
    (hinj : ∀ p q x, Deep d p → Deep d q → follow dec mem n p = some x →
      follow dec mem n q = some x → p = q) : (below dec out mem slots d n).Nodup := by
  induction d generalizing n with
  | zero => exact List.nodup_nil
  | succ d ih =>
    have hlift : ∀ i c, dec (mem n i) = some c → ∀ p x, follow dec mem c p = some x →
        follow dec mem n (i::p) = some x := by
      intro i c hc p x hx
      rw [follow_cons,hc]
      exact hx
    have hbelow : ∀ i c, dec (mem n i) = some c → ∀ p j e c', Deep d (p++[j]) →
        slotAt dec mem c p j = some e → dec e = some c' → out e = c' := by
      intro i c hc p j e c' hp he hd
      refine hout (i::p) j e c' ((deep_cons d i (p++[j])).mpr (Or.inr hp)) ?_ hd
      rw [slotAt_cons,hc]
      exact he
    apply sweep_nodup hslots (C := Deep d) (B := Deep (d+1))
    · intro i p
      rw [deep_cons,and_iff_right (hall i)]
    · intro i _ c hc
      exact hout [] i (mem n i) c ((deep_cons d i []).mpr (Or.inl rfl)) rfl hc
    · intro i _ c hc
      refine ⟨ih c (hbelow i c hc) (fun p q x hp hq h1 h2 => ?_),fun x hx => ?_⟩
      · exact (List.cons.inj (hinj (i::p) (i::q) x ((deep_cons d i p).mpr (Or.inr hp))
          ((deep_cons d i q).mpr (Or.inr hq)) (hlift i c hc p x h1) (hlift i c hc q x h2))).2
      · obtain ⟨p,j,hp,hf⟩ := ((below_reports hall d c).nodes (hbelow i c hc) x).mp hx
        exact ⟨p++[j],by simp,hp,hf⟩
    · exact hinj

end KiNBOL
