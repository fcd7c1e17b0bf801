import KiNBOL.Mm.VmmMap

namespace KiNBOL

variable {pm : Nat} {m m' m'' : Machine} {mem mem' : PhysMem} {va w e : BitVec 64}

/-- Tables of the lower half of a pagemap. -/
abbrev TreeNode (pm : Nat) (mem : PhysMem) : Nat → Prop :=
  ForestNode entryNode TablePath (· = pm) mem

theorem tablePath_nil : TablePath [] := ⟨by simp,by simp⟩

theorem LowerPath.init {p : List (Fin 512)} {i : Fin 512} (h : LowerPath (p++[i])) :
    TablePath p := by
  have hlen := h.1
  rw [List.length_append,List.length_singleton] at hlen
  exact ⟨by omega,h.left.2⟩

theorem TableSlot.treeNode {n : Nat} {i : Fin 512} (h : TableSlot mem pm n i) :
    TreeNode pm mem n := by
  obtain ⟨p,hp,hn⟩ := h
  exact ⟨pm,p,rfl,hp.init,hn⟩

/-- Memory that agrees on the table slots holds the same tree. -/
theorem TableTree.congr (h : TableTree (· = pm) mem)
    (hsame : ∀ n i, TableSlot mem pm n i → mem' n i = mem n i) :
    TableTree (· = pm) mem' ∧
    (∀ p, TablePath p → follow entryNode mem' pm p = follow entryNode mem pm p) ∧
    (∀ p i, LowerPath (p++[i]) → entryAt mem' pm p i = entryAt mem pm p i) := by
  have hfol : ∀ p, TablePath p → follow entryNode mem' pm p = follow entryNode mem pm p :=
    fun p hp => follow_congr h.forest (fun r p i n hr hpi hn => by
      rw [hr] at hn
      exact hsame n i ⟨p,hpi.lower,hn⟩) pm p rfl hp
  have hent : ∀ p i, LowerPath (p++[i]) → entryAt mem' pm p i = entryAt mem pm p i := by
    intro p i hp
    rw [entryAt,entryAt,slotAt,slotAt,hfol p hp.init]
    cases hn : follow entryNode mem pm p with
    | none => rfl
    | some n => rw [Option.map_some,Option.map_some,hsame n i ⟨p,hp,hn⟩]
  refine ⟨⟨h.forest.mono (fun r p n hr hp hn => ?_),fun r p i hr hp => ?_⟩,hfol,hent⟩
  · subst hr
    exact hfol p hp ▸ hn
  · subst hr
    rw [hent p i hp.lower]
    exact h.mid r p i rfl hp

/-- Writing a page-table slot changes that entry and no table. -/
theorem TableTree.set_leaf (h : TableTree (· = pm) mem) (hva : LowerHalf va) {pt : Nat}
    (hpt : follow entryNode mem pm (tablePath va) = some pt) (e : BitVec 64) :
    TableTree (· = pm) (setSlot mem pt (ptIdx va) e) ∧
    (∀ p, TablePath p → follow entryNode (setSlot mem pt (ptIdx va) e) pm p =
      follow entryNode mem pm p) ∧
    (∀ p i, LowerPath (p++[i]) → entryAt (setSlot mem pt (ptIdx va) e) pm p i =
      if p = tablePath va ∧ i = ptIdx va then e else entryAt mem pm p i) := by
  have hpath := tablePath_va hva
  have hout : ∀ p, TablePath p → ¬(pm = pm ∧ tablePath va++[ptIdx va] <+: p) := by
    intro p hp hh
    have h1 := hh.2.length_le
    have h2 := hp.1
    simp only [List.length_append,tablePath,List.length_cons,List.length_nil] at h1 h2
    omega
  have hfol : ∀ p, TablePath p → follow entryNode (setSlot mem pt (ptIdx va) e) pm p =
      follow entryNode mem pm p := fun p hp =>
    h.forest.follow_setSlot_other rfl hpath hpt pm p rfl hp (hout p hp)
  have hent : ∀ p i, LowerPath (p++[i]) → entryAt (setSlot mem pt (ptIdx va) e) pm p i =
      if p = tablePath va ∧ i = ptIdx va then e else entryAt mem pm p i := by
    intro p i hp
    rw [entryAt,h.forest.slotAt_setSlot rfl hpath hpt pm p i rfl hp.init (hout p hp.init)]
    by_cases hs : p = tablePath va ∧ i = ptIdx va
    · rw [if_pos ⟨rfl,hs⟩,if_pos hs]
      rfl
    · rw [if_neg (fun hh => hs hh.2),if_neg hs]
      rfl
  refine ⟨⟨h.forest.mono (fun r p n hr hp hn => ?_),fun r p i hr hp => ?_⟩,hfol,hent⟩
  · subst hr
    exact hfol p hp ▸ hn
  · subst hr
    have hne : ¬(p = tablePath va ∧ i = ptIdx va) := by
      intro hh
      have hlen := hp.short
      rw [hh.1] at hlen
      simp [tablePath] at hlen
    rw [hent p i hp.lower,if_neg hne]
    exact h.mid r p i rfl hp

/-- Frames the PMM can hand out fit an entry and are no tables. -/
def FreeOutside (pm : Nat) (m : Machine) : Prop :=
  ∀ n, m.pmm.Free n → n < frameLimit ∧ ¬TreeNode pm m.mem n

/-- What `get_or_create` adds to a tree. -/
structure TreeGrown (pm : Nat) (m m' : Machine) : Prop where
  tree : TableTree (· = pm) m'.mem
  leaves : ∀ p i, LowerPath (p++[i]) → p.length = 3 →
    entryAt m'.mem pm p i = entryAt m.mem pm p i
  fresh : ∀ p n, TablePath p → follow entryNode m'.mem pm p = some n →
    follow entryNode m.mem pm p = some n ∨ m.pmm.Free n
  wrote : ∀ n i, m'.mem n i ≠ m.mem n i → TableSlot m.mem pm n i ∨ m.pmm.Free n
  free : ∀ n, m'.pmm.Free n → m.pmm.Free n
  outside : FreeOutside pm m'

theorem TreeGrown.refl (h : TableTree (· = pm) m.mem) (hf : FreeOutside pm m) :
    TreeGrown pm m m :=
  ⟨h,fun _ _ _ _ => rfl,fun _ _ _ h => Or.inl h,fun _ _ h => absurd rfl h,fun _ h => h,hf⟩

theorem TreeGrown.trans (h1 : TreeGrown pm m m') (h2 : TreeGrown pm m' m'') :
    TreeGrown pm m m'' where
  tree := h2.tree
  leaves := fun p i hp hl => (h2.leaves p i hp hl).trans (h1.leaves p i hp hl)
  fresh := by
    intro p n hp hn
    cases h2.fresh p n hp hn with
    | inl hold => exact h1.fresh p n hp hold
    | inr hfree => exact Or.inr (h1.free n hfree)
  wrote := by
    intro n i hne
    by_cases hmid : m'.mem n i = m.mem n i
    · cases h2.wrote n i (hmid ▸ hne) with
      | inr hfree => exact Or.inr (h1.free n hfree)
      | inl hslot =>
        obtain ⟨p,hp,hn⟩ := hslot
        cases h1.fresh p n hp.init hn with
        | inl hold => exact Or.inl ⟨p,hp,hold⟩
        | inr hfree => exact Or.inr hfree
    · exact h1.wrote n i hmid
  free := fun n hn => h1.free n (h2.free n hn)
  outside := h2.outside

/-- `get_or_create` on a slot above the last level; it fails when no frame is left. -/
theorem TableTree.getOrCreate (h : TableTree (· = pm) m.mem) (hout : FreeOutside pm m)
    {p : List (Fin 512)} {i : Fin 512} {n : Nat} (hp : TablePath (p++[i]))
    (hn : follow entryNode m.mem pm p = some n) :
    (m.pmm.room = 0 ∧ KiNBOL.getOrCreate m n i = (none,m)) ∨
    ∃ m' a, TreeGrown pm m m' ∧ KiNBOL.getOrCreate m n i = (some a,m') ∧
      follow entryNode m'.mem pm (p++[i]) = some (pageOf a) := by
  cases h.step rfl hp hn with
  | inl hyes =>
    obtain ⟨f,he,hchild⟩ := hyes
    have hpage : pageOf (m.mem n i &&& pageMask) = f := by
      rw [pageOf_pageMask,he.page]
    refine Or.inr ⟨m,_,TreeGrown.refl h hout,
      getOrCreate_hit (m := m) (n := n) (i := i) he.isPresent,?_⟩
    rw [hpage]
    exact hchild
  | inr hno =>
    obtain ⟨habs,-⟩ := hno
    rcases pmmAllocPage_room m.pmm with ⟨hroom,halloc⟩ | ⟨f,pmm,halloc,htakes,-⟩
    · refine Or.inl ⟨hroom,?_⟩
      rw [getOrCreate_none habs halloc]
    · right
      obtain ⟨hfree,hheld,hbits⟩ := takes_one htakes
      obtain ⟨hlt,hnew⟩ := hout f hfree
      have hpage : pageOf (pageAddr f) = f := pageOf_pageAddr (lt_of_lt_of_le hlt frameLimit_le)
      have hsame : ∀ k, TreeNode pm m.mem k → zeroPage m.mem f k = m.mem k :=
        fun k hk => zeroPage_other (fun he => hnew (he ▸ hk))
      have hkeep : ∀ k j, TableSlot m.mem pm k j → zeroPage m.mem f k j = m.mem k j :=
        fun k j hs => by rw [hsame k hs.treeNode]
      obtain ⟨ht,hfol,hent⟩ := h.congr hkeep
      have hnode : TreeNode pm m.mem n := ⟨pm,p,rfl,hp.left,hn⟩
      have hn' : follow entryNode (zeroPage m.mem f) pm p = some n := by
        rw [hfol p hp.left,hn]
      have hne : f ≠ n := fun he => hnew (he ▸ hnode)
      have hempty : entryNode (zeroPage m.mem f n i) = none := by
        rw [hsame n hnode]
        exact entryNode_absent habs
      have hnew' : ¬TreeNode pm (zeroPage m.mem f) f := by
        rintro ⟨r,q,rfl,hq,hf'⟩
        exact hnew ⟨r,q,rfl,hq,hfol q hq ▸ hf'⟩
      have hrep := ht.forest.repath_create rfl hp.left hn' hempty (tableEntry_word hlt).entryNode hne
        (fun j => by rw [zeroPage_self,entryNode_zero])
      have hslot := fun p' i' => ht.forest.slotAt_create rfl hp.left hn' hempty
        (tableEntry_word hlt).entryNode hne entryNode_zero (zeroPage_self m.mem f) pm p' i' rfl
      have hent2 : ∀ p' i', TablePath p' →
          entryAt (setSlot (zeroPage m.mem f) n i (tableEntry (pageAddr f))) pm p' i' =
            if p' = p ∧ i' = i then tableEntry (pageAddr f) else
              entryAt (zeroPage m.mem f) pm p' i' := by
        intro p' i' hp'
        rw [entryAt,hslot p' i' hp']
        by_cases hs : p' = p ∧ i' = i
        · rw [if_pos ⟨rfl,hs⟩,if_pos hs]
        · rw [if_neg (fun hh => hs hh.2),if_neg hs]
          rfl
      have hback : ∀ q k, TablePath q →
          follow entryNode (setSlot (zeroPage m.mem f) n i (tableEntry (pageAddr f))) pm q = some k →
          follow entryNode m.mem pm q = some k ∨ k = f := by
        intro q k hq hk
        by_cases hs : q = p++[i]
        · rw [(hrep pm q rfl hq).1 ⟨rfl,hs⟩,Option.some.injEq] at hk
          exact Or.inr hk.symm
        · rw [(hrep pm q rfl hq).2 (fun hh => hs hh.2),hfol q hq] at hk
          exact Or.inl hk
      have htree : TableTree (· = pm) (setSlot (zeroPage m.mem f) n i (tableEntry (pageAddr f))) := by
        refine ⟨ht.forest.repath hrep (fun g hg => ?_),fun r q j hr hq => ?_⟩
        · rw [Option.some.injEq] at hg
          exact hg ▸ hnew'
        · subst hr
          rw [hent2 q j hq.left]
          by_cases hs : q = p ∧ j = i
          · rw [if_pos hs]
            exact fun _ => ⟨f,tableEntry_word hlt⟩
          · rw [if_neg hs]
            exact ht.mid r q j rfl hq
      refine ⟨{ m with
          pmm := pmm, mem := setSlot (zeroPage m.mem f) n i (tableEntry (pageAddr f)) },
        pageAddr f,⟨htree,?_,?_,?_,fun k hk => ((htakes.free_iff k).mp hk).1,fun k hk => ?_⟩,?_,?_⟩
      · intro q j hq hthree
        have hs : ¬(q = p ∧ j = i) := by
          intro hs
          have hshort := hp.short
          rw [← hs.1] at hshort
          omega
        rw [hent2 q j hq.init,if_neg hs,hent q j hq]
      · intro q k hq hk
        rcases hback q k hq hk with hold | rfl
        · exact Or.inl hold
        · exact Or.inr hfree
      · intro k j hkj
        by_cases hs : k = n ∧ j = i
        · rw [hs.1,hs.2]
          exact Or.inl ⟨p,hp.lower,hn⟩
        · by_cases hk : k = f
          · exact Or.inr (hk ▸ hfree)
          · apply absurd _ hkj
            show setSlot (zeroPage m.mem f) n i (tableEntry (pageAddr f)) k j = m.mem k j
            rw [setSlot_other hs,zeroPage_other hk]
      · have hk' := ((htakes.free_iff k).mp hk).1
        obtain ⟨hklt,hkout⟩ := hout k hk'
        refine ⟨hklt,?_⟩
        rintro ⟨r,q,rfl,hq,hkq⟩
        rcases hback q k hq hkq with hold | rfl
        · exact hkout ⟨r,q,rfl,hq,hold⟩
        · exact hheld.not_free hk
      · rw [getOrCreate_some habs halloc,hpage]
      · rw [hpage]
        exact (hrep pm (p++[i]) rfl hp).1 ⟨rfl,rfl⟩

/-- `vmm_map` on a lower-half address: no frame is left for a table, or the tables are there and the
page-table slot is written. -/
theorem TableTree.vmmMap (h : TableTree (· = pm) m.mem) (hout : FreeOutside pm m)
    (hva : LowerHalf va) (phys flags : BitVec 64) :
    ∃ m', TreeGrown pm m m' ∧
      ((m'.pmm.room = 0 ∧ KiNBOL.vmmMap m (some pm) va phys flags = (-1,m')) ∨
       ∃ pt, follow entryNode m'.mem pm (tablePath va) = some pt ∧
        KiNBOL.vmmMap m (some pm) va phys flags =
          (0,{ m' with mem := setSlot m'.mem pt (ptIdx va) (leafEntry phys flags) })) := by
  have h3 : TablePath ([pml4Idx va,pdptIdx va]++[pdIdx va]) := tablePath_va hva
  have h2 : TablePath ([pml4Idx va]++[pdptIdx va]) := h3.left
  have h1 : TablePath ([]++[pml4Idx va]) := h2.left
  rcases h.getOrCreate hout h1 rfl with ⟨c1,hno⟩ | ⟨m1,a1,g1,e1,n1⟩
  · exact ⟨m,TreeGrown.refl h hout,Or.inl ⟨c1,by simp only [KiNBOL.vmmMap,hno]⟩⟩
  rcases g1.tree.getOrCreate g1.outside h2 n1 with ⟨c2,hno⟩ | ⟨m2,a2,g2,e2,n2⟩
  · exact ⟨m1,g1,Or.inl ⟨c2,by simp only [KiNBOL.vmmMap,e1,hno]⟩⟩
  rcases g2.tree.getOrCreate g2.outside h3 n2 with ⟨c3,hno⟩ | ⟨m3,a3,g3,e3,n3⟩
  · exact ⟨m2,g1.trans g2,Or.inl ⟨c3,by simp only [KiNBOL.vmmMap,e1,e2,hno]⟩⟩
  exact ⟨m3,(g1.trans g2).trans g3,Or.inr ⟨_,n3,by simp only [KiNBOL.vmmMap,e1,e2,e3]⟩⟩

end KiNBOL
