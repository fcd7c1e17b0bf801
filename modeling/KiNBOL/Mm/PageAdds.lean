import KiNBOL.Mm.VmRun

namespace KiNBOL

variable {pm : Nat} {m m' m₁ m₂ : Machine} {va w flags : BitVec 64} {l l' : List (BitVec 64)}

/-- A frame that is free or that the page tables of `pm` reach. -/
def Accounted (pm : Nat) (m : Machine) (f : Nat) : Prop :=
  m.pmm.Free f ∨ UserNode (· = pm) m.mem f

/-- The frame a lower-half address is mapped to. -/
def mappedFrame (m : Machine) (pm : Nat) (va : BitVec 64) : Option Nat :=
  entryNode (leafWord m.mem pm va)

/-- What mapping new pages among `l` does: whatever is allocated was so before or is reached, and
nothing that was reached is lost. -/
structure Adds (pm : Nat) (l : List (BitVec 64)) (m m' : Machine) : Prop where
  owned : Owned (· = pm) m'
  bits : ∀ n, m'.pmm.bmGet n = true ↔ m.pmm.bmGet n = true ∨ UserNode (· = pm) m'.mem n
  kept : ∀ p n, LowerPath p → follow entryNode m.mem pm p = some n →
    follow entryNode m'.mem pm p = some n
  others : ∀ w, LowerHalf w → (∀ v ∈ l, ¬SameLeaf v w) →
    mappedFrame m' pm w = mappedFrame m pm w
  total : m'.pmm.totalPages = m.pmm.totalPages
  cr3 : m'.cr3 = m.cr3

theorem Adds.refl (ho : Owned (· = pm) m) (l : List (BitVec 64)) : Adds pm l m m :=
  ⟨ho,fun n => ⟨Or.inl,fun h => h.elim id (fun hn => (ho.held n hn).2)⟩,fun _ _ _ h => h,
    fun _ _ _ => rfl,rfl,rfl⟩

theorem Adds.node (h : Adds pm l m m') {n : Nat} (hn : UserNode (· = pm) m.mem n) :
    UserNode (· = pm) m'.mem n := by
  obtain ⟨r,p,rfl,hp,hf⟩ := hn
  exact ⟨r,p,rfl,hp,h.kept p n hp hf⟩

theorem Adds.trans (h1 : Adds pm l m m₁) (h2 : Adds pm l' m₁ m₂) : Adds pm (l++l') m m₂ where
  owned := h2.owned
  bits := by
    intro n
    rw [h2.bits,h1.bits]
    constructor
    · rintro ((hb | hn) | hn)
      · exact Or.inl hb
      · exact Or.inr (h2.node hn)
      · exact Or.inr hn
    · rintro (hb | hn)
      · exact Or.inl (Or.inl hb)
      · exact Or.inr hn
  kept := fun p n hp hf => h2.kept p n hp (h1.kept p n hp hf)
  others := fun w hw hl => (h2.others w hw (fun v hv => hl v (List.mem_append_right _ hv))).trans
    (h1.others w hw (fun v hv => hl v (List.mem_append_left _ hv)))
  total := h2.total.trans h1.total
  cr3 := h2.cr3.trans h1.cr3

theorem Adds.mono (h : Adds pm l m m') (hl : ∀ v ∈ l, v ∈ l') : Adds pm l' m m' :=
  { h with others := fun w hw hall => h.others w hw (fun v hv => hall v (hl v hv)) }

theorem Adds.accounted (h : Adds pm l m m') {f : Nat} (hf : Accounted pm m f) :
    Accounted pm m' f := by
  rcases hf with hfree | hn
  · cases hb : m'.pmm.bmGet f with
    | false => exact Or.inl ⟨h.total ▸ hfree.1,hb⟩
    | true =>
      rcases (h.bits f).mp hb with hold | hn
      · exact absurd hold (ne_true_of_eq_false hfree.2)
      · exact Or.inr hn
  · exact Or.inr (h.node hn)

/-- Nothing that is mapped is replaced. -/
theorem Adds.mapped (h : Adds pm l m m') (hw : LowerHalf w) {f : Nat}
    (hf : mappedFrame m pm w = some f) : mappedFrame m' pm w = some f := by
  rw [mappedFrame,← follow_leaf] at hf ⊢
  exact h.kept _ f (lowerPath_va hw) hf

/-- Pages of the lower half that are not mapped, each named once. -/
structure FreshPages (m : Machine) (pm : Nat) (l : List (BitVec 64)) : Prop where
  lower : ∀ v ∈ l, LowerHalf v
  unmapped : ∀ v ∈ l, mappedFrame m pm v = none
  apart : l.Pairwise (fun v w => ¬SameLeaf v w)

theorem FreshPages.left (h : FreshPages m pm (l++l')) : FreshPages m pm l :=
  ⟨fun v hv => h.lower v (List.mem_append_left _ hv),
    fun v hv => h.unmapped v (List.mem_append_left _ hv),(List.pairwise_append.mp h.apart).1⟩

/-- They stay fresh when others are mapped. -/
theorem FreshPages.right (h : FreshPages m pm (l++l')) (ha : Adds pm l m m') :
    FreshPages m' pm l' := by
  obtain ⟨-,h2,h3⟩ := List.pairwise_append.mp h.apart
  refine ⟨fun v hv => h.lower v (List.mem_append_right _ hv),fun v hv => ?_,h2⟩
  rw [ha.others v (h.lower v (List.mem_append_right _ hv)) (fun u hu => h3 u hu v hv)]
  exact h.unmapped v (List.mem_append_right _ hv)

/-- A frame that was taken and is mapped where nothing was, or given back when that fails. -/
theorem mapTaken_adds {f : Nat} (h : Owned (· = pm) m) (hva : LowerHalf va) (ht : Taken m m₁ f)
    (hflags : has flags vmmPresent = true) (hnew : mappedFrame m pm va = none) :
    Adds pm [va] m (mapTaken m₁ pm va (pageAddr f) flags) := by
  have hsp := mapTaken_spec h rfl hva ht flags
  have hbits := (hsp.exact hflags (fun g hg => by
    rw [mappedFrame,hg] at hnew
    simp at hnew)).1
  obtain ⟨ho1,hheld1,hnew1,-,-,hent1⟩ := @Owned.taken (· = pm) pm m m₁ f h ht
  have hslots : ∀ r n i, r = pm → TableSlot m.mem r n i → m₁.mem n i = m.mem n i := by
    intro r n i hr hs
    rw [ht.others n (fun he => h.not_node_of_free (takes_one ht.takes).1 (he ▸ hs.node hr))]
  have hfol1 : ∀ p, LowerPath p → follow entryNode m₁.mem pm p = follow entryNode m.mem pm p :=
    fun p hp => (h.tables.congr hslots).2.1 pm p rfl hp
  obtain ⟨m2,-,hg,-,-,hcase⟩ := vmmMap_fresh ho1 rfl hva hheld1 hnew1 flags
  have hleaf2 : ∀ w, LowerHalf w → leafWord m2.mem pm w = leafWord m.mem pm w := fun w hw =>
    (hg.leaves pm (tablePath w) (ptIdx w) rfl (lowerPath_va hw) rfl).trans
      (hent1 pm (tablePath w) (ptIdx w) rfl (lowerPath_va hw))
  have hkept2 : ∀ p n, LowerPath p → follow entryNode m.mem pm p = some n →
      follow entryNode m2.mem pm p = some n := fun p n hp hf =>
    hg.kept pm p n rfl hp ((hfol1 p hp).trans hf)
  rcases hcase with hfail | ⟨mem',hch,-,hres⟩
  · have hmem : (mapTaken m₁ pm va (pageAddr f) flags).mem = m2.mem := by
      rw [mapTaken,hfail,if_neg (show ¬((-1 : Int) = 0) by decide)]
    refine ⟨hsp.owned,hbits,fun p n hp hf => ?_,fun w hw _ => ?_,hsp.total,hsp.cr3⟩
    · rw [hmem]
      exact hkept2 p n hp hf
    · rw [mappedFrame,mappedFrame,hmem,hleaf2 w hw]
  · have hmem : (mapTaken m₁ pm va (pageAddr f) flags).mem = mem' := by
      rw [mapTaken,hres,if_pos rfl]
    refine ⟨hsp.owned,hbits,fun p n hp hf => ?_,fun w hw hl => ?_,hsp.total,hsp.cr3⟩
    · rw [hmem]
      by_cases hs : p = tablePath va++[ptIdx va]
      · rw [hs,follow_leaf] at hf
        rw [mappedFrame,hf] at hnew
        simp at hnew
      · rw [(hch.paths pm p rfl hp).2 (fun hh => hs hh.2)]
        exact hkept2 p n hp hf
    · rw [mappedFrame,mappedFrame,hmem,hch.leafWord_eq rfl hw,if_neg (fun hh => hl va (by simp) hh.2),
        hleaf2 w hw]

/-- A frame that was taken and is given back at once. -/
theorem Owned.put_back_adds {f : Nat} (h : Owned (· = pm) m) (ht : Taken m m₁ f)
    (l : List (BitVec 64)) :
    Adds pm l m { m₁ with pmm := pmmFreePage m₁.pmm (pageAddr f) } := by
  obtain ⟨ho1,hheld,hnew,hev,-,hent⟩ := @Owned.taken (· = pm) pm m m₁ f h ht
  obtain ⟨hfree,-,hbits1⟩ := takes_one ht.takes
  have hg := pmmFreePage_gives m₁.pmm (pageAddr f)
  rw [h.free_page hfree] at hg
  obtain ⟨-,hbits⟩ := gives_one hg hheld
  have hslots : ∀ r n i, r = pm → TableSlot m.mem r n i → m₁.mem n i = m.mem n i := by
    intro r n i hr hs
    rw [ht.others n (fun he => h.not_node_of_free hfree (he ▸ hs.node hr))]
  have hfol : ∀ p, LowerPath p → follow entryNode m₁.mem pm p = follow entryNode m.mem pm p :=
    fun p hp => (h.tables.congr hslots).2.1 pm p rfl hp
  refine ⟨⟨ho1.tables,fun n hn => ?_,hg.total.le.trans ho1.limit⟩,fun n => ?_,
    fun p n hp hf => (hfol p hp).trans hf,fun w hw _ => ?_,hg.total.trans hev.total,hev.cr3⟩
  · have hold := ho1.held n hn
    exact ⟨hg.total ▸ hold.1,(hbits n).mpr ⟨hold.2,fun he => hnew (he ▸ hn)⟩⟩
  · show (pmmFreePage m₁.pmm (pageAddr f)).bmGet n = true ↔ _
    rw [hbits n,hbits1 n]
    constructor
    · rintro ⟨hb | he,hne⟩
      · exact Or.inl hb
      · exact absurd he hne
    · rintro (hb | hn)
      · refine ⟨Or.inl hb,fun he => ?_⟩
        rw [he] at hb
        exact absurd hb (ne_true_of_eq_false hfree.2)
      · exact ⟨(hbits1 n).mp (ho1.held n hn).2,fun he => hnew (he ▸ hn)⟩
  · show entryNode (leafWord m₁.mem pm w) = _
    rw [mappedFrame,leafWord,hent pm (tablePath w) (ptIdx w) rfl (lowerPath_va hw),leafWord]

/-- Unmapping with the frames given back. -/
theorem Unmaps.accounted (h : Unmaps (· = pm) pm true m m') (ho : Owned (· = pm) m) {f : Nat}
    (hf : Accounted pm m f) : Accounted pm m' f := by
  rcases hf with hfree | hn
  · refine Or.inl ⟨h.total ▸ hfree.1,?_⟩
    cases hb : m'.pmm.bmGet f with
    | false => rfl
    | true => exact absurd (h.bits f hb) (ne_true_of_eq_false hfree.2)
  · by_cases hn' : UserNode (· = pm) m'.mem f
    · exact Or.inr hn'
    · exact Or.inl ⟨h.total ▸ (ho.held f hn).1,h.freed rfl f hn hn'⟩

theorem Trimmed.mapped {mem mem' : PhysMem} (h : Trimmed (· = pm) pm mem mem') (hw : LowerHalf w)
    {f : Nat} (hf : entryNode (leafWord mem' pm w) = some f) :
    entryNode (leafWord mem pm w) = some f := by
  rw [← follow_leaf] at hf ⊢
  exact h.fewer pm _ f rfl (lowerPath_va hw) hf

end KiNBOL
