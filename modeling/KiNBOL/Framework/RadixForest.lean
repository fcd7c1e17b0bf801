import Mathlib.Data.List.Basic
import Mathlib.Data.List.Infix

namespace KiNBOL

/-! Radix trees in a memory of nodes. An entry of a node names a child through `dec`; a path of
slot numbers is followed from a root. In a forest no two paths meet, so writing one slot
changes one path. -/

variable {ν ι ε : Type*}

/-- The node reached from `n` along a path. -/
def follow (dec : ε → Option ν) (mem : ν → ι → ε) : ν → List ι → Option ν
  | n,[] => some n
  | n,i::p => (dec (mem n i)).bind (fun c => follow dec mem c p)

/-- Writing one slot of one node. -/
def setSlot [DecidableEq ν] [DecidableEq ι] (mem : ν → ι → ε) (n : ν) (i : ι) (e : ε) :
    ν → ι → ε :=
  fun n' i' => if n' = n ∧ i' = i then e else mem n' i'

section

variable [DecidableEq ν] [DecidableEq ι]

@[simp] theorem setSlot_self (mem : ν → ι → ε) (n : ν) (i : ι) (e : ε) :
    setSlot mem n i e n i = e := by
  simp [setSlot]

theorem setSlot_other {mem : ν → ι → ε} {n m : ν} {i j : ι} {e : ε} (h : ¬(m = n ∧ j = i)) :
    setSlot mem n i e m j = mem m j := by
  rw [setSlot,if_neg h]

theorem setSlot_node {mem : ν → ι → ε} {n m : ν} {i : ι} {e : ε} (h : m ≠ n) :
    setSlot mem n i e m = mem m := by
  funext j
  exact setSlot_other (fun hh => h hh.1)

end

variable {dec : ε → Option ν} {mem mem' : ν → ι → ε}

@[simp] theorem follow_nil (n : ν) : follow dec mem n [] = some n := rfl

theorem follow_cons (n : ν) (i : ι) (p : List ι) :
    follow dec mem n (i::p) = (dec (mem n i)).bind (fun c => follow dec mem c p) := rfl

theorem follow_append (n : ν) (p q : List ι) :
    follow dec mem n (p++q) = (follow dec mem n p).bind (fun c => follow dec mem c q) := by
  induction p generalizing n with
  | nil => rfl
  | cons i p ih =>
    rw [List.cons_append,follow_cons,follow_cons]
    cases h : dec (mem n i) with
    | none => rfl
    | some c => simpa using ih c

theorem follow_snoc (n : ν) (p : List ι) (i : ι) :
    follow dec mem n (p++[i]) = (follow dec mem n p).bind (fun c => dec (mem c i)) := by
  rw [follow_append]
  congr 1
  funext c
  cases h : dec (mem c i) <;> simp [follow_cons,h]

theorem follow_prefix {n m : ν} {p q : List ι} (h : follow dec mem n (p++q) = some m) :
    ∃ c, follow dec mem n p = some c ∧ follow dec mem c q = some m := by
  rw [follow_append] at h
  exact Option.bind_eq_some_iff.mp h

/-- The entry in slot `i` of the node at a path. -/
def slotAt (dec : ε → Option ν) (mem : ν → ι → ε) (r : ν) (p : List ι) (i : ι) : Option ε :=
  (follow dec mem r p).map (fun n => mem n i)

theorem follow_slotAt (r : ν) (p : List ι) (i : ι) :
    follow dec mem r (p++[i]) = (slotAt dec mem r p i).bind dec := by
  rw [follow_snoc,slotAt,Option.bind_map]
  rfl

/-- Roots, the paths that belong to the trees, and the memory they live in. The paths of a tree
are closed under prefixes. -/
structure Forest (dec : ε → Option ν) (A : List ι → Prop) (roots : ν → Prop)
    (mem : ν → ι → ε) : Prop where
  closed : ∀ p q, A (p++q) → A p
  unique : ∀ r r' p q n, roots r → roots r' → A p → A q →
    follow dec mem r p = some n → follow dec mem r' q = some n → r = r' ∧ p = q

/-- A node of some tree. -/
def ForestNode (dec : ε → Option ν) (A : List ι → Prop) (roots : ν → Prop)
    (mem : ν → ι → ε) (n : ν) : Prop :=
  ∃ r p, roots r ∧ A p ∧ follow dec mem r p = some n

/-- The trees of `mem'` are those of `mem` with the node at one path replaced. -/
def Repath (dec : ε → Option ν) (A : List ι → Prop) (roots : ν → Prop)
    (mem mem' : ν → ι → ε) (r₀ : ν) (path : List ι) (v : Option ν) : Prop :=
  ∀ r p, roots r → A p →
    (r = r₀ ∧ p = path → follow dec mem' r p = v) ∧
    (¬(r = r₀ ∧ p = path) → follow dec mem' r p = follow dec mem r p)

variable {A : List ι → Prop} {roots : ν → Prop}

theorem ForestNode.root {r : ν} (hA : A []) (hr : roots r) : ForestNode dec A roots mem r :=
  ⟨r,[],hr,hA,rfl⟩

/-- Trees that only lost paths are still apart. -/
theorem Forest.mono (h : Forest dec A roots mem)
    (hsub : ∀ r p n, roots r → A p → follow dec mem' r p = some n → follow dec mem r p = some n) :
    Forest dec A roots mem' :=
  ⟨h.closed,fun r r' p q n hr hr' hp hq h1 h2 =>
    h.unique r r' p q n hr hr' hp hq (hsub r p n hr hp h1) (hsub r' q n hr' hq h2)⟩

theorem Forest.paths_mono {A' : List ι → Prop} (h : Forest dec A roots mem)
    (hclosed : ∀ p q, A' (p++q) → A' p) (hsub : ∀ p, A' p → A p) : Forest dec A' roots mem :=
  ⟨hclosed,fun r r' p q n hr hr' hp hq => h.unique r r' p q n hr hr' (hsub p hp) (hsub q hq)⟩

theorem Forest.roots_mono {roots' : ν → Prop} (h : Forest dec A roots mem)
    (hsub : ∀ r, roots' r → roots r) : Forest dec A roots' mem :=
  ⟨h.closed,fun r r' p q n hr hr' => h.unique r r' p q n (hsub r hr) (hsub r' hr')⟩

/-- A memory that agrees on every slot of the trees has the same trees. -/
theorem follow_congr (h : Forest dec A roots mem)
    (hsame : ∀ r p i n, roots r → A (p++[i]) → follow dec mem r p = some n → mem' n i = mem n i)
    (r : ν) (p : List ι) (hr : roots r) (hp : A p) :
    follow dec mem' r p = follow dec mem r p := by
  induction p using List.reverseRecOn with
  | nil => rfl
  | append_singleton p i ih =>
    have hpp := h.closed p [i] hp
    rw [follow_snoc,follow_snoc,ih hpp]
    cases hn : follow dec mem r p with
    | none => rfl
    | some n =>
      rw [Option.bind_some,Option.bind_some,hsame r p i n hr hp hn]

theorem slotAt_congr (h : Forest dec A roots mem)
    (hsame : ∀ r p i n, roots r → A (p++[i]) → follow dec mem r p = some n → mem' n i = mem n i)
    (r : ν) (p : List ι) (i : ι) (hr : roots r) (hp : A (p++[i])) :
    slotAt dec mem' r p i = slotAt dec mem r p i := by
  rw [slotAt,slotAt,follow_congr h hsame r p hr (h.closed p [i] hp)]
  cases hn : follow dec mem r p with
  | none => rfl
  | some n => rw [Option.map_some,Option.map_some,hsame r p i n hr hp hn]

section

variable [DecidableEq ν] [DecidableEq ι] {r₀ n₀ : ν} {p₀ : List ι} {i₀ : ι} {e : ε}

/-- Writing a slot of a tree leaves every path that does not run through the slot alone. -/
theorem Forest.follow_setSlot_other (h : Forest dec A roots mem) (hr₀ : roots r₀) (hp₀ : A p₀)
    (hn₀ : follow dec mem r₀ p₀ = some n₀) (r : ν) (p : List ι) (hr : roots r) (hp : A p)
    (hout : ¬(r = r₀ ∧ p₀++[i₀] <+: p)) :
    follow dec (setSlot mem n₀ i₀ e) r p = follow dec mem r p := by
  induction p using List.reverseRecOn with
  | nil => rfl
  | append_singleton p i ih =>
    have hpp := h.closed p [i] hp
    have hshort : ¬(r = r₀ ∧ p₀++[i₀] <+: p) :=
      fun hh => hout ⟨hh.1,hh.2.trans (List.prefix_append p [i])⟩
    rw [follow_snoc,follow_snoc,ih hpp hshort]
    cases hn : follow dec mem r p with
    | none => rfl
    | some n =>
      have hslot : ¬(n = n₀ ∧ i = i₀) := by
        rintro ⟨rfl,rfl⟩
        obtain ⟨hrr,hpq⟩ := h.unique r r₀ p p₀ n hr hr₀ hpp hp₀ hn hn₀
        exact hout ⟨hrr,hpq ▸ List.prefix_rfl⟩
      rw [Option.bind_some,Option.bind_some,setSlot_other hslot]

/-- The written slot itself. -/
theorem Forest.follow_setSlot_self (h : Forest dec A roots mem) (hr₀ : roots r₀) (hp₀ : A p₀)
    (hn₀ : follow dec mem r₀ p₀ = some n₀) :
    follow dec (setSlot mem n₀ i₀ e) r₀ (p₀++[i₀]) = dec e := by
  have hself : follow dec (setSlot mem n₀ i₀ e) r₀ p₀ = some n₀ := by
    rw [h.follow_setSlot_other hr₀ hp₀ hn₀ r₀ p₀ hr₀ hp₀]
    · exact hn₀
    · rintro ⟨-,hpre⟩
      have hlen := hpre.length_le
      rw [List.length_append,List.length_singleton] at hlen
      omega
  rw [follow_snoc,hself,Option.bind_some,setSlot_self]

/-- Writing a slot changes one entry, away from what hangs under the slot. -/
theorem Forest.slotAt_setSlot (h : Forest dec A roots mem) (hr₀ : roots r₀) (hp₀ : A p₀)
    (hn₀ : follow dec mem r₀ p₀ = some n₀) (r : ν) (p : List ι) (i : ι) (hr : roots r) (hp : A p)
    (hout : ¬(r = r₀ ∧ p₀++[i₀] <+: p)) :
    slotAt dec (setSlot mem n₀ i₀ e) r p i =
      if r = r₀ ∧ p = p₀ ∧ i = i₀ then some e else slotAt dec mem r p i := by
  rw [slotAt,slotAt,h.follow_setSlot_other hr₀ hp₀ hn₀ r p hr hp hout]
  by_cases hs : r = r₀ ∧ p = p₀ ∧ i = i₀
  · obtain ⟨rfl,rfl,rfl⟩ := hs
    rw [hn₀]
    simp
  · rw [if_neg hs]
    cases hn : follow dec mem r p with
    | none => rfl
    | some n =>
      have hslot : ¬(n = n₀ ∧ i = i₀) := by
        rintro ⟨rfl,rfl⟩
        obtain ⟨hrr,hpq⟩ := h.unique r r₀ p p₀ n hr hr₀ hp hp₀ hn hn₀
        exact hs ⟨hrr,hpq,rfl⟩
      rw [Option.map_some,Option.map_some,setSlot_other hslot]

/-- Writing a slot at the last level changes one path only. -/
theorem Forest.repath_leaf (h : Forest dec A roots mem) (hr₀ : roots r₀) (hp₀ : A p₀)
    (hn₀ : follow dec mem r₀ p₀ = some n₀) (hlast : ∀ j q, ¬A (p₀++[i₀]++j::q)) :
    Repath dec A roots mem (setSlot mem n₀ i₀ e) r₀ (p₀++[i₀]) (dec e) := by
  intro r p hr hp
  refine ⟨fun ⟨hrr,hpp⟩ => ?_,fun hne => ?_⟩
  · rw [hrr,hpp]
    exact h.follow_setSlot_self hr₀ hp₀ hn₀
  · apply h.follow_setSlot_other hr₀ hp₀ hn₀ r p hr hp
    rintro ⟨hrr,q,hq⟩
    cases q with
    | nil => exact hne ⟨hrr,by rw [← hq,List.append_nil]⟩
    | cons j q => exact hlast j q (hq ▸ hp)

/-- Hanging a childless node outside the trees into an empty slot adds one path only. -/
theorem Forest.repath_create {f : ν} (h : Forest dec A roots mem) (hr₀ : roots r₀) (hp₀ : A p₀)
    (hn₀ : follow dec mem r₀ p₀ = some n₀) (hempty : dec (mem n₀ i₀) = none)
    (hf : dec e = some f) (hne : f ≠ n₀) (hleaf : ∀ j, dec (mem f j) = none) :
    Repath dec A roots mem (setSlot mem n₀ i₀ e) r₀ (p₀++[i₀]) (some f) := by
  intro r p hr hp
  refine ⟨fun ⟨hrr,hpp⟩ => ?_,fun hnp => ?_⟩
  · rw [hrr,hpp,← hf]
    exact h.follow_setSlot_self hr₀ hp₀ hn₀
  · by_cases hthrough : r = r₀ ∧ p₀++[i₀] <+: p
    · obtain ⟨hrr,q,hq⟩ := hthrough
      cases q with
      | nil => exact absurd ⟨hrr,by rw [← hq,List.append_nil]⟩ hnp
      | cons j q =>
        have hnew : follow dec (setSlot mem n₀ i₀ e) r₀ (p₀++[i₀]++j::q) = none := by
          rw [follow_append _ (p₀++[i₀]),h.follow_setSlot_self hr₀ hp₀ hn₀,hf,Option.bind_some,
            follow_cons,setSlot_node hne,hleaf]
          rfl
        have hold : follow dec mem r₀ (p₀++[i₀]++j::q) = none := by
          rw [follow_append _ (p₀++[i₀]),follow_snoc,hn₀,Option.bind_some,hempty]
          rfl
        rw [hrr,← hq,hnew,hold]
    · exact h.follow_setSlot_other hr₀ hp₀ hn₀ r p hr hp hthrough

/-- After hanging a node of blank entries `z` into an empty slot, one entry has changed; a missing
node counts as blank. -/
theorem Forest.slotAt_create {f : ν} {z : ε} (h : Forest dec A roots mem) (hr₀ : roots r₀)
    (hp₀ : A p₀) (hn₀ : follow dec mem r₀ p₀ = some n₀) (hempty : dec (mem n₀ i₀) = none)
    (hf : dec e = some f) (hne : f ≠ n₀) (hz : dec z = none) (hblank : ∀ j, mem f j = z)
    (r : ν) (p : List ι) (i : ι) (hr : roots r) (hp : A p) :
    (slotAt dec (setSlot mem n₀ i₀ e) r p i).getD z =
      if r = r₀ ∧ p = p₀ ∧ i = i₀ then e else (slotAt dec mem r p i).getD z := by
  by_cases hthrough : r = r₀ ∧ p₀++[i₀] <+: p
  · obtain ⟨hrr,q,hq⟩ := hthrough
    have hslot : ¬(r = r₀ ∧ p = p₀ ∧ i = i₀) := by
      intro hh
      have hl := congrArg List.length hq
      rw [hh.2.1,List.length_append,List.length_append,List.length_singleton] at hl
      omega
    have hold : follow dec mem r p = none := by
      rw [hrr,← hq,follow_append,follow_snoc,hn₀,Option.bind_some,hempty]
      rfl
    have hroot : follow dec (setSlot mem n₀ i₀ e) r₀ (p₀++[i₀]) = some f := by
      rw [h.follow_setSlot_self hr₀ hp₀ hn₀,hf]
    rw [if_neg hslot,slotAt,slotAt,hold]
    cases q with
    | nil =>
      rw [hrr,← hq,List.append_nil,hroot,Option.map_some,setSlot_node hne,hblank]
      rfl
    | cons j q =>
      rw [hrr,← hq,follow_append _ (p₀++[i₀]),hroot,Option.bind_some,follow_cons,setSlot_node hne,
        hblank,hz]
      rfl
  · rw [h.slotAt_setSlot hr₀ hp₀ hn₀ r p i hr hp hthrough]
    split_ifs <;> rfl

/-- Writing a slot without changing the child it names changes no path. -/
theorem follow_setSlot_same (hdec : dec e = dec (mem n₀ i₀)) (r : ν) (p : List ι) :
    follow dec (setSlot mem n₀ i₀ e) r p = follow dec mem r p := by
  induction p generalizing r with
  | nil => rfl
  | cons i p ih =>
    have hstep : dec (setSlot mem n₀ i₀ e r i) = dec (mem r i) := by
      by_cases hs : r = n₀ ∧ i = i₀
      · rw [hs.1,hs.2,setSlot_self,hdec]
      · rw [setSlot_other hs]
    rw [follow_cons,follow_cons,hstep]
    congr 1
    funext c
    exact ih c

end

section

variable {r₀ : ν} {path : List ι} {v : Option ν}

/-- Replacing a node by one from outside the trees, or by none, keeps a forest. -/
theorem Forest.repath (h : Forest dec A roots mem) (hu : Repath dec A roots mem mem' r₀ path v)
    (hv : ∀ f, v = some f → ¬ForestNode dec A roots mem f) : Forest dec A roots mem' := by
  refine ⟨h.closed,fun r r' p q n hr hr' hp hq h1 h2 => ?_⟩
  have hp' := hu r p hr hp
  have hq' := hu r' q hr' hq
  by_cases hpe : r = r₀ ∧ p = path
  · by_cases hqe : r' = r₀ ∧ q = path
    · exact ⟨hpe.1.trans hqe.1.symm,hpe.2.trans hqe.2.symm⟩
    · rw [hp'.1 hpe] at h1
      rw [hq'.2 hqe] at h2
      exact absurd ⟨r',q,hr',hq,h2⟩ (hv n h1)
  · rw [hp'.2 hpe] at h1
    by_cases hqe : r' = r₀ ∧ q = path
    · rw [hq'.1 hqe] at h2
      exact absurd ⟨r,p,hr,hp,h1⟩ (hv n h2)
    · rw [hq'.2 hqe] at h2
      exact h.unique r r' p q n hr hr' hp hq h1 h2

/-- The nodes afterwards: the new one and those not at the replaced path. -/
theorem Repath.node (hu : Repath dec A roots mem mem' r₀ path v) {n : ν}
    (hn : ForestNode dec A roots mem' n) : v = some n ∨ ForestNode dec A roots mem n := by
  obtain ⟨r,p,hr,hp,hf⟩ := hn
  by_cases hpe : r = r₀ ∧ p = path
  · exact Or.inl (((hu r p hr hp).1 hpe).symm.trans hf)
  · exact Or.inr ⟨r,p,hr,hp,((hu r p hr hp).2 hpe) ▸ hf⟩

theorem Repath.new_node (hu : Repath dec A roots mem mem' r₀ path v) {n : ν} (hr₀ : roots r₀)
    (hA : A path) (hv : v = some n) : ForestNode dec A roots mem' n :=
  ⟨r₀,path,hr₀,hA,((hu r₀ path hr₀ hA).1 ⟨rfl,rfl⟩).trans hv⟩

theorem Repath.old_node (hu : Repath dec A roots mem mem' r₀ path v) {n : ν} (hn : ForestNode dec A roots mem n)
    (hne : follow dec mem r₀ path ≠ some n) : ForestNode dec A roots mem' n := by
  obtain ⟨r,p,hr,hp,hf⟩ := hn
  have hnp : ¬(r = r₀ ∧ p = path) := by
    rintro ⟨rfl,rfl⟩
    exact hne hf
  exact ⟨r,p,hr,hp,((hu r p hr hp).2 hnp).trans hf⟩

end

/-- A root from outside, without children, joins the forest. -/
theorem Forest.add_root {f : ν} (h : Forest dec A roots mem)
    (hf : ¬ForestNode dec A roots mem f) (hempty : ∀ i p, A (i::p) → dec (mem f i) = none) :
    Forest dec A (fun r => r = f ∨ roots r) mem := by
  have alone : ∀ p n, A p → follow dec mem f p = some n → p = [] ∧ n = f := by
    intro p n hp hn
    cases p with
    | nil => exact ⟨rfl,by simpa using hn.symm⟩
    | cons i p => simp [follow_cons,hempty i p hp] at hn
  refine ⟨h.closed,fun r r' p q n hr hr' hp hq h1 h2 => ?_⟩
  rcases hr with rfl | hr
  · obtain ⟨rfl,rfl⟩ := alone p n hp h1
    rcases hr' with rfl | hr'
    · exact ⟨rfl,(alone q _ hq h2).1.symm⟩
    · exact absurd ⟨r',q,hr',hq,h2⟩ hf
  · rcases hr' with rfl | hr'
    · obtain ⟨rfl,rfl⟩ := alone q n hq h2
      exact absurd ⟨r,p,hr,hp,h1⟩ hf
    · exact h.unique r r' p q n hr hr' hp hq h1 h2

end KiNBOL
