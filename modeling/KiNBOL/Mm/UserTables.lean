import KiNBOL.Mm.TableTree

namespace KiNBOL

/-- Well-formed lower halves: table entries as `get_or_create` writes them, leaves as `vmm_map`
and `vmm_protect` write them, both with any marks of the processor, no table or frame in two
places. -/
structure UserTables (roots : Nat → Prop) (mem : PhysMem) : Prop where
  forest : Forest entryNode LowerPath roots mem
  mid : ∀ r p i, roots r → LowerPath (p++[i]) → p.length < 3 →
    present (entryAt mem r p i) = true →
    ∃ f, TableWord f (entryAt mem r p i)
  leaf : ∀ r p i, roots r → LowerPath (p++[i]) → p.length = 3 →
    present (entryAt mem r p i) = true →
    ∃ f flags, f < frameLimit ∧ entryAt mem r p i = leafEntry (pageAddr f) flags

variable {roots : Nat → Prop} {mem mem' : PhysMem} {r : Nat} {va : BitVec 64}

theorem lowerPath_closed (p q : List (Fin 512)) (h : LowerPath (p++q)) : LowerPath p := h.left

theorem UserTables.tree (h : UserTables roots mem) : TableTree roots mem :=
  ⟨h.forest.paths_mono tablePath_closed (fun _ hp => hp.lower),fun r p i hr hp hpres =>
    h.mid r p i hr hp.lower hp.short hpres⟩

/-- One level of a walk through a table. -/
theorem UserTables.step (h : UserTables roots mem) (hr : roots r) {p : List (Fin 512)}
    {i : Fin 512} {n : Nat} (hp : LowerPath (p++[i])) (hlen : p.length < 3)
    (hn : follow entryNode mem r p = some n) :
    (∃ f, TableWord f (mem n i) ∧ follow entryNode mem r (p++[i]) = some f) ∨
    (present (mem n i) = false ∧ follow entryNode mem r (p++[i]) = none) :=
  h.tree.step hr (hp.table hlen) hn

theorem UserTables.ptSlot_present (h : UserTables roots mem) (hr : roots r)
    (hva : LowerHalf va) : ptSlot present mem r va =
      (follow entryNode mem r (tablePath va)).map (fun pt => (pt,ptIdx va)) :=
  h.tree.ptSlot_present hr hva

theorem UserTables.ptSlot_presentUser (h : UserTables roots mem) (hr : roots r)
    (hva : LowerHalf va) : ptSlot presentUser mem r va =
      (follow entryNode mem r (tablePath va)).map (fun pt => (pt,ptIdx va)) :=
  h.tree.ptSlot_presentUser hr hva

theorem UserTables.hwWalk_lower (h : UserTables roots mem) (hr : roots r) (hva : LowerHalf va) :
    hwWalk mem r va = leafXlat (leafWord mem r va) := h.tree.hwWalk_lower hr hva

/-- Memory that agrees on every table slot holds the same tables. -/
theorem UserTables.congr (h : UserTables roots mem)
    (hsame : ∀ r n i, roots r → TableSlot mem r n i → mem' n i = mem n i) :
    UserTables roots mem' ∧
    (∀ r p, roots r → LowerPath p → follow entryNode mem' r p = follow entryNode mem r p) ∧
    (∀ r p i, roots r → LowerPath (p++[i]) → entryAt mem' r p i = entryAt mem r p i) := by
  have hslots : ∀ r p i n, roots r → LowerPath (p++[i]) → follow entryNode mem r p = some n →
      mem' n i = mem n i := fun r p i n hr hp hn => hsame r n i hr ⟨p,hp,hn⟩
  have hfol := follow_congr h.forest hslots
  have hent : ∀ r p i, roots r → LowerPath (p++[i]) → entryAt mem' r p i = entryAt mem r p i := by
    intro r p i hr hp
    rw [entryAt,entryAt,slotAt_congr h.forest hslots r p i hr hp]
  refine ⟨⟨h.forest.mono (fun r p n hr hp hn => hfol r p hr hp ▸ hn),?_,?_⟩,hfol,hent⟩
  · intro r p i hr hp
    rw [hent r p i hr hp]
    exact h.mid r p i hr hp
  · intro r p i hr hp
    rw [hent r p i hr hp]
    exact h.leaf r p i hr hp

/-- Entries of the last level hang on no further slot. -/
theorem no_deeper {p : List (Fin 512)} {i : Fin 512} (hlen : p.length = 3) (j : Fin 512)
    (q : List (Fin 512)) : ¬LowerPath (p++[i]++j::q) := by
  intro h
  have hl := h.1
  simp only [List.length_append,List.length_cons,List.length_nil] at hl
  omega

/-- Writing a page-table slot with a frame of its own, the same frame or nothing. -/
theorem UserTables.set_leaf (h : UserTables roots mem) (hr : roots r) (hva : LowerHalf va)
    {pt : Nat} (hpt : follow entryNode mem r (tablePath va) = some pt) {e : BitVec 64}
    (hshape : present e = true → ∃ f flags, f < frameLimit ∧ e = leafEntry (pageAddr f) flags)
    (hown : ∀ f, entryNode e = some f →
      ¬UserNode roots mem f ∨ entryNode (leafWord mem r va) = some f) :
    UserTables roots (setSlot mem pt (ptIdx va) e) ∧
    Repath entryNode LowerPath roots mem (setSlot mem pt (ptIdx va) e) r
      (tablePath va++[ptIdx va]) (entryNode e) ∧
    (∀ r' p i, roots r' → LowerPath (p++[i]) →
      entryAt (setSlot mem pt (ptIdx va) e) r' p i =
        if r' = r ∧ p = tablePath va ∧ i = ptIdx va then e else entryAt mem r' p i) := by
  have hfull := lowerPath_va hva
  have hlen : (tablePath va).length = 3 := rfl
  have hrep : Repath entryNode LowerPath roots mem (setSlot mem pt (ptIdx va) e) r
      (tablePath va++[ptIdx va]) (entryNode e) :=
    h.forest.repath_leaf hr hfull.left hpt (no_deeper hlen)
  have hent : ∀ r' p i, roots r' → LowerPath (p++[i]) →
      entryAt (setSlot mem pt (ptIdx va) e) r' p i =
        if r' = r ∧ p = tablePath va ∧ i = ptIdx va then e else entryAt mem r' p i := by
    intro r' p i hr' hp
    have hout : ¬(r' = r ∧ tablePath va++[ptIdx va] <+: p) := by
      intro hh
      have h1 := hh.2.length_le
      have h2 := hp.1
      simp only [List.length_append,List.length_singleton,hlen] at h1 h2
      omega
    rw [entryAt,h.forest.slotAt_setSlot hr hfull.left hpt r' p i hr' hp.left hout]
    split_ifs <;> rfl
  have hforest : Forest entryNode LowerPath roots (setSlot mem pt (ptIdx va) e) := by
    by_cases hsame : entryNode e = entryNode (mem pt (ptIdx va))
    · exact h.forest.mono (fun r' p n _ _ hn => follow_setSlot_same hsame r' p ▸ hn)
    · apply h.forest.repath hrep
      intro f hf
      cases hown f hf with
      | inl hnew => exact hnew
      | inr hold =>
        rw [leafWord,entryAt_table hpt] at hold
        exact absurd (hf.trans hold.symm) hsame
  refine ⟨⟨hforest,?_,?_⟩,hrep,hent⟩
  · intro r' p i hr' hp hshort
    have hne : ¬(r' = r ∧ p = tablePath va ∧ i = ptIdx va) := by
      intro hh
      rw [hh.2.1,hlen] at hshort
      omega
    rw [hent r' p i hr' hp,if_neg hne]
    exact h.mid r' p i hr' hp hshort
  · intro r' p i hr' hp hthree
    rw [hent r' p i hr' hp]
    by_cases hs : r' = r ∧ p = tablePath va ∧ i = ptIdx va
    · rw [if_pos hs]
      exact hshape
    · rw [if_neg hs]
      exact h.leaf r' p i hr' hp hthree

/-- Hanging a zeroed page from outside into an empty slot above the last level. -/
theorem UserTables.set_table (h : UserTables roots mem) (hr : roots r) {p : List (Fin 512)}
    {i : Fin 512} {n f : Nat} (hp : LowerPath (p++[i])) (hlen : p.length < 3)
    (hn : follow entryNode mem r p = some n) (habs : present (mem n i) = false)
    (hf : f < frameLimit) (hnew : ¬UserNode roots mem f) (hzero : ∀ j, mem f j = 0#64) :
    UserTables roots (setSlot mem n i (tableEntry (pageAddr f))) ∧
    Repath entryNode LowerPath roots mem (setSlot mem n i (tableEntry (pageAddr f))) r (p++[i])
      (some f) ∧
    (∀ r' p' i', roots r' → LowerPath (p'++[i']) →
      entryAt (setSlot mem n i (tableEntry (pageAddr f))) r' p' i' =
        if r' = r ∧ p' = p ∧ i' = i then tableEntry (pageAddr f) else entryAt mem r' p' i') := by
  have hne : f ≠ n := by
    intro he
    exact hnew ⟨r,p,hr,hp.left,he ▸ hn⟩
  have hempty : entryNode (mem n i) = none := entryNode_absent habs
  have hchildless : ∀ j, entryNode (mem f j) = none := by
    intro j
    rw [hzero,entryNode_zero]
  have hrep := h.forest.repath_create hr hp.left hn hempty (tableEntry_word hf).entryNode hne hchildless
  have hent : ∀ r' p' i', roots r' → LowerPath (p'++[i']) →
      entryAt (setSlot mem n i (tableEntry (pageAddr f))) r' p' i' =
        if r' = r ∧ p' = p ∧ i' = i then tableEntry (pageAddr f) else entryAt mem r' p' i' :=
    fun r' p' i' hr' hp' => h.forest.slotAt_create hr hp.left hn hempty (tableEntry_word hf).entryNode
      hne entryNode_zero hzero r' p' i' hr' hp'.left
  have hforest := h.forest.repath hrep (fun g hg => by
    rw [Option.some.injEq] at hg
    exact hg ▸ hnew)
  refine ⟨⟨hforest,?_,?_⟩,hrep,hent⟩
  · intro r' p' i' hr' hp' hshort
    rw [hent r' p' i' hr' hp']
    by_cases hs : r' = r ∧ p' = p ∧ i' = i
    · rw [if_pos hs]
      exact fun _ => ⟨f,tableEntry_word hf⟩
    · rw [if_neg hs]
      exact h.mid r' p' i' hr' hp' hshort
  · intro r' p' i' hr' hp' hthree
    have hs : ¬(r' = r ∧ p' = p ∧ i' = i) := by
      intro hh
      rw [hh.2.1] at hthree
      omega
    rw [hent r' p' i' hr' hp',if_neg hs]
    exact h.leaf r' p' i' hr' hp' hthree

end KiNBOL
