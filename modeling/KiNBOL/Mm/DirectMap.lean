import KiNBOL.Mm.VmmInit

namespace KiNBOL

def ShortPath (p : List (Fin 512)) : Prop := p.length ≤ 3

/-- What the loop of `vmm_init` starts from: tables below `pm`, regions that are apart, and 1 GiB
pages in the way whose frames are neither tables nor free. -/
structure DirectStart (hhdm : BitVec 64) (N pm : Nat) (m : Machine) : Prop where
  tables : Tables ShortPath pm m
  plain : ∀ q j n, q.length ≤ 1 → tblNode (tblAt m.mem pm q j) = some n →
    tblAt m.mem pm q j >>> 52 = 0#64
  top : ∀ j, present (m.mem pm j) = true → has (m.mem pm j) vmmHuge = false
  regions : ∀ i k, i < N → k < N → tablePath (hhdmVirt hhdm i) = tablePath (hhdmVirt hhdm k) → i = k
  data : ∀ i, i < N → InLarge m.mem pm (hhdmVirt hhdm i) →
    (∀ q, ShortPath q →
      follow tblNode m.mem pm q ≠ some (pageOf (pdptEntry m.mem pm (hhdmVirt hhdm i)))) ∧
    ¬m.pmm.Free (pageOf (pdptEntry m.mem pm (hhdmVirt hhdm i)))

/-- The regions `done` are laid out: the entries above the page directories are the old ones or
those of new tables, the regions have their 2 MiB entries, and nothing else has changed but the
data that lie below a 1 GiB page. -/
structure Laid (hhdm : BitVec 64) (N pm : Nat) (m₁ : Machine) (done : Nat → Prop) (m : Machine) :
    Prop where
  tables : Tables ShortPath pm m
  range : ∀ i, done i → i < N
  upper : ∀ q j, q.length ≤ 1 → tblAt m.mem pm q j = tblAt m₁.mem pm q j ∨
    present (tblAt m₁.mem pm q j) = false ∧
      ∃ f, f < frameLimit ∧ tblAt m.mem pm q j = kernelEntry (pageAddr f)
  laid : ∀ i, done i → ¬InLarge m₁.mem pm (hhdmVirt hhdm i) →
    tblAt m.mem pm [pml4Idx (hhdmVirt hhdm i),pdptIdx (hhdmVirt hhdm i)] (pdIdx (hhdmVirt hhdm i)) =
      largeEntry (hhdmPhys i)
  kept : ∀ q j, 2 ≤ q.length → q.length ≤ 3 →
    (∀ i, done i → ¬tablePath (hhdmVirt hhdm i) <+: q++[j]) →
    tblAt m.mem pm q j = tblAt m₁.mem pm q j
  nodes : ∀ q x, ShortPath q → follow tblNode m.mem pm q = some x →
    follow tblNode m₁.mem pm q = some x ∨ m₁.pmm.Free x ∧ ¬m.pmm.Free x
  wrote : ∀ x y, m.mem x y ≠ m₁.mem x y →
    (∃ q, ShortPath q ∧ follow tblNode m₁.mem pm q = some x) ∨ (m₁.pmm.Free x ∧ ¬m.pmm.Free x) ∨
    ∃ i, done i ∧ InLarge m₁.mem pm (hhdmVirt hhdm i) ∧
      x = pageOf (pdptEntry m₁.mem pm (hhdmVirt hhdm i))
  spilled : ∀ i, done i → InLarge m₁.mem pm (hhdmVirt hhdm i) →
    ∃ k, m.mem (pageOf (pdptEntry m₁.mem pm (hhdmVirt hhdm i))) (pdIdx (hhdmVirt hhdm i)) =
      largeEntry (hhdmPhys k)
  free : ∀ x, m.pmm.Free x → m₁.pmm.Free x

variable {A : List (Fin 512) → Prop} {hhdm : BitVec 64} {N pm n t f i : Nat} {m m₁ m' : Machine}
  {done : Nat → Prop} {q : List (Fin 512)} {j : Fin 512} {mem' : PhysMem}

/-- Memory outside the tables. -/
theorem Tables.outside (h : Tables A pm m)
    (hout : ∀ p n, A p → follow tblNode m.mem pm p = some n → mem' n = m.mem n) :
    Tables A pm { m with mem := mem' } ∧
    (∀ q, A q → follow tblNode mem' pm q = follow tblNode m.mem pm q) ∧
    ∀ q j, A q → tblAt mem' pm q j = tblAt m.mem pm q j := by
  have hslots : ∀ r q j k, r = pm → A (q++[j]) → follow tblNode m.mem r q = some k →
      mem' k j = m.mem k j := by
    intro r q j k hr hq hk
    rw [hout q k (h.forest.closed q [j] hq) (hr ▸ hk)]
  have hfol : ∀ q, A q → follow tblNode mem' pm q = follow tblNode m.mem pm q :=
    fun q hq => follow_congr h.forest hslots pm q rfl hq
  refine ⟨⟨h.forest.mono (fun r q k hr hq hk => ?_),fun q k hq hk => ?_,h.limit⟩,hfol,
    fun q j hq => ?_⟩
  · subst hr
    rw [hfol q hq] at hk
    exact hk
  · rw [hfol q hq] at hk
    exact h.held q k hq hk
  · rw [tblAt,tblAt,slotAt,slotAt,hfol q hq]
    cases hk : follow tblNode m.mem pm q with
    | none => rfl
    | some k => rw [Option.map_some,Option.map_some,hout q k hq hk]

theorem shortPath_closed (p q : List (Fin 512)) (h : ShortPath (p++q)) : ShortPath p := by
  simp only [ShortPath,List.length_append] at h ⊢
  omega

theorem shortPath_pd (va : BitVec 64) : ShortPath [pml4Idx va,pdptIdx va] := show 2 ≤ 3 by omega

/-- A frame below a 1 GiB page is no table at any time. -/
theorem Laid.data (hl : Laid hhdm N pm m₁ done m) (hs : DirectStart hhdm N pm m₁) (hi : i < N)
    (hlarge : InLarge m₁.mem pm (hhdmVirt hhdm i)) :
    (∀ q, ShortPath q →
      follow tblNode m.mem pm q ≠ some (pageOf (pdptEntry m₁.mem pm (hhdmVirt hhdm i)))) ∧
    ¬m.pmm.Free (pageOf (pdptEntry m₁.mem pm (hhdmVirt hhdm i))) := by
  obtain ⟨hno,hheld⟩ := hs.data i hi hlarge
  refine ⟨fun q hq hn => ?_,fun hfree => hheld (hl.free _ hfree)⟩
  cases hl.nodes q _ hq hn with
  | inl hold => exact hno q hq hold
  | inr hnew => exact hheld hnew.1

/-- A new table above the page directories. -/
theorem Laid.grow {pmm : Pmm} (hl : Laid hhdm N pm m₁ done m) (hs : DirectStart hhdm N pm m₁)
    (hq : q.length ≤ 1) (hn : follow tblNode m.mem pm q = some n)
    (habs : present (m.mem n j) = false) (ht : Pmm.Takes m.pmm pmm f 1) :
    Laid hhdm N pm m₁ done { m with
      pmm := pmm, mem := setSlot (zeroPage m.mem f) n j (kernelEntry (pageAddr f)) } ∧
    follow tblNode (setSlot (zeroPage m.mem f) n j (kernelEntry (pageAddr f))) pm (q++[j]) =
      some f := by
  obtain ⟨hfree,hheld,-⟩ := takes_one ht
  have hf : f < frameLimit := lt_of_lt_of_le hfree.1 hl.tables.limit
  have hqj : ShortPath (q++[j]) := by
    simp only [ShortPath,List.length_append,List.length_singleton]
    omega
  have hqs : ShortPath q := shortPath_closed q [j] hqj
  obtain ⟨htab,hfol,hent,hwrote⟩ :=
    hl.tables.create hqj hn (tblNode_absent habs) ht (tblNode_kernelEntry hf)
  have hmono : ∀ x, ¬m.pmm.Free x → ¬pmm.Free x :=
    fun x hx hx' => hx ((ht.free_iff x).mp hx').1
  have hentry : m.mem n j = tblAt m.mem pm q j := (tblAt_table hn j).symm
  refine ⟨⟨htab,hl.range,fun q' j' hq' => ?_,fun i hi hsmall => ?_,fun q' j' h2 h3 hout => ?_,
    fun q' x hq' hx => ?_,fun x y hne => ?_,fun i hi hlarge => ?_,
    fun x hx => hl.free x ((ht.free_iff x).mp hx).1⟩,?_⟩
  · rw [hent q' j' (show q'.length ≤ 3 by omega)]
    split
    · next hsame =>
      obtain ⟨rfl,rfl⟩ := hsame
      refine Or.inr ⟨?_,f,hf,rfl⟩
      rw [hentry] at habs
      cases hl.upper q' j' hq' with
      | inl hold => rw [← hold,habs]
      | inr hnew => exact hnew.1
    · exact hl.upper q' j' hq'
  · rw [hent _ _ (shortPath_pd _),if_neg]
    · exact hl.laid i hi hsmall
    · intro hh
      rw [← hh.1] at hq
      simp at hq
  · rw [hent q' j' h3,if_neg]
    · exact hl.kept q' j' h2 h3 hout
    · intro hh
      rw [hh.1] at h2
      omega
  · rw [hfol q' hq'] at hx
    split at hx
    · rw [Option.some.injEq] at hx
      subst hx
      exact Or.inr ⟨hl.free f hfree,hheld.not_free⟩
    · exact (hl.nodes q' x hq' hx).imp id (fun hh => ⟨hh.1,hmono x hh.2⟩)
  · by_cases hold : m.mem x y = m₁.mem x y
    · rw [← hold] at hne
      cases hwrote x y hne with
      | inl hx =>
        subst hx
        cases hl.nodes q x hqs hn with
        | inl hn => exact Or.inl ⟨q,hqs,hn⟩
        | inr hn => exact Or.inr (Or.inl ⟨hn.1,hmono x hn.2⟩)
      | inr hx =>
        subst hx
        exact Or.inr (Or.inl ⟨hl.free x hfree,hheld.not_free⟩)
    · exact (hl.wrote x y hold).imp id (Or.imp (fun hh => ⟨hh.1,hmono x hh.2⟩) id)
  · obtain ⟨hno,hnofree⟩ := hl.data hs (hl.range i hi) hlarge
    obtain ⟨k,hk⟩ := hl.spilled i hi hlarge
    refine ⟨k,?_⟩
    show setSlot (zeroPage m.mem f) n j (kernelEntry (pageAddr f)) _ _ = _
    have hxn : pageOf (pdptEntry m₁.mem pm (hhdmVirt hhdm i)) ≠ n := fun hh => hno q hqs (hh ▸ hn)
    have hxf : pageOf (pdptEntry m₁.mem pm (hhdmVirt hhdm i)) ≠ f := fun hh => hnofree (hh ▸ hfree)
    rw [setSlot_other (fun hh => hxn hh.1),zeroPage_other hxf]
    exact hk
  · rw [hfol _ hqj,if_pos rfl]

/-- `kernelTable` reaches the table in a slot, or follows a large page. -/
theorem Laid.table (hl : Laid hhdm N pm m₁ done m) (hs : DirectStart hhdm N pm m₁)
    (hq : q.length ≤ 1) (hn : follow tblNode m.mem pm q = some n)
    (h : kernelTable m n j = (some t,m')) : Laid hhdm N pm m₁ done m' ∧
      (follow tblNode m'.mem pm (q++[j]) = some t ∨ m' = m ∧ t = pageOf (tblAt m₁.mem pm q j) ∧
        present (tblAt m₁.mem pm q j) = true ∧ has (tblAt m₁.mem pm q j) vmmHuge = true) := by
  have hentry : m.mem n j = tblAt m.mem pm q j := (tblAt_table hn j).symm
  unfold kernelTable at h
  cases hpres : present (m.mem n j) with
  | true =>
    rw [present] at hpres
    rw [if_pos hpres,Prod.mk.injEq,Option.some.injEq,pageOf_pageMask] at h
    obtain ⟨rfl,rfl⟩ := h
    refine ⟨hl,?_⟩
    rw [← present,hentry] at hpres
    rw [hentry]
    cases hl.upper q j hq with
    | inl hold =>
      rw [hold] at hpres ⊢
      cases hh : has (tblAt m₁.mem pm q j) vmmHuge with
      | true => exact Or.inr ⟨rfl,rfl,hpres,rfl⟩
      | false =>
        have htab := tblNode_table hpres hh
        rw [follow_tblAt,hold,htab,framePage_of_high (hs.plain q j _ hq htab)]
        exact Or.inl rfl
    | inr hnew =>
      obtain ⟨-,f,hf,he⟩ := hnew
      rw [follow_tblAt,he,tblNode_kernelEntry hf,pageOf_kernelEntry hf]
      exact Or.inl rfl
  | false =>
    have hno : ¬(has (m.mem n j) vmmPresent = true) := ne_true_of_eq_false hpres
    rw [if_neg hno] at h
    unfold allocTable at h
    cases pmmAllocPage_room m.pmm with
    | inl hnone =>
      rw [hnone.2] at h
      simp at h
    | inr hsome =>
      obtain ⟨f,pmm,halloc,ht,-⟩ := hsome
      have hf : f < frameLimit := lt_of_lt_of_le (takes_one ht).1.1 hl.tables.limit
      rw [halloc] at h
      dsimp only at h
      rw [pageOf_pageAddr (lt_of_lt_of_le hf frameLimit_le),pageOf_pageMask,pageOf_kernelEntry hf,
        Prod.mk.injEq,Option.some.injEq] at h
      obtain ⟨rfl,rfl⟩ := h
      obtain ⟨hl',hfol⟩ := hl.grow hs hq hn hpres ht
      exact ⟨hl',Or.inl hfol⟩

/-- The 2 MiB entry goes into the page directory. -/
theorem Laid.place (hl : Laid hhdm N pm m₁ done m) (hs : DirectStart hhdm N pm m₁) (hi : i < N)
    (hn : follow tblNode m.mem pm [pml4Idx (hhdmVirt hhdm i),pdptIdx (hhdmVirt hhdm i)] = some n) :
    Laid hhdm N pm m₁ (fun k => k = i ∨ done k)
      { m with mem := setSlot m.mem n (pdIdx (hhdmVirt hhdm i)) (largeEntry (hhdmPhys i)) } := by
  have hnode : tblNode (largeEntry (hhdmPhys i)) = none := by
    rw [hhdmPhys_addr]
    exact tblNode_huge (largeEntry_flags _).2.2
  have hshort : ShortPath [pml4Idx (hhdmVirt hhdm i),pdptIdx (hhdmVirt hhdm i)] :=
    show 2 ≤ 3 by omega
  have hpd := shortPath_pd (hhdmVirt hhdm i)
  obtain ⟨htab,hfol,hent⟩ := hl.tables.set (i := pdIdx (hhdmVirt hhdm i)) hpd hn (fun _ => hnode)
  have hsmall : ¬InLarge m₁.mem pm (hhdmVirt hhdm i) := by
    intro hlarge
    have htop := tblNode_eq_some ((follow_tblAt m.mem pm [pml4Idx (hhdmVirt hhdm i)]
      (pdptIdx (hhdmVirt hhdm i))).symm.trans hn)
    cases hl.upper [pml4Idx (hhdmVirt hhdm i)] (pdptIdx (hhdmVirt hhdm i)) (Nat.le_refl 1) with
    | inl hold =>
      rw [hold] at htop
      exact Bool.noConfusion (htop.2.1.symm.trans hlarge.2)
    | inr hnew => exact Bool.noConfusion (hnew.1.symm.trans hlarge.1)
  have hlong : ∀ q : List (Fin 512), q.length ≤ 2 →
      ¬[pml4Idx (hhdmVirt hhdm i),pdptIdx (hhdmVirt hhdm i)]++[pdIdx (hhdmVirt hhdm i)] <+: q := by
    intro q hq hpre
    have hlen := hpre.length_le
    rw [List.length_append,List.length_cons,List.length_cons,List.length_nil,
      List.length_singleton] at hlen
    omega
  refine ⟨htab,fun k hk => ?_,fun q j hq => ?_,fun k hk hk' => ?_,fun q j h2 h3 hout => ?_,
    fun q x hq hx => ?_,fun x y hne => ?_,fun k hk hlarge => ?_,hl.free⟩
  · cases hk with
    | inl hk => exact hk ▸ hi
    | inr hk => exact hl.range k hk
  · rw [hent q j (show q.length ≤ 3 by omega),if_neg,if_neg (hlong q (by omega))]
    · exact hl.upper q j hq
    · intro hh
      rw [hh.1] at hq
      simp at hq
  · rw [hent _ _ (shortPath_pd _)]
    split
    · next hsame =>
      have hpath : tablePath (hhdmVirt hhdm k) = tablePath (hhdmVirt hhdm i) := by
        have hab := hsame.1
        simp only [List.cons.injEq] at hab
        rw [tablePath,tablePath,hab.1,hab.2.1,hsame.2]
      have hki : k = i := by
        cases hk with
        | inl hk => exact hk
        | inr hk => exact hs.regions k i (hl.range k hk) hi hpath
      rw [hki]
    · next hother =>
      rw [if_neg (hlong _ (by simp))]
      cases hk with
      | inl hk => exact absurd ⟨by rw [hk],by rw [hk]⟩ hother
      | inr hk => exact hl.laid k hk hk'
  · have hnot := hout i (Or.inl rfl)
    rw [hent q j h3,if_neg,if_neg]
    · exact hl.kept q j h2 h3 (fun k hk => hout k (Or.inr hk))
    · intro hpre
      exact hnot (hpre.trans (List.prefix_append q [j]))
    · intro hh
      rw [hh.1,hh.2] at hnot
      exact hnot List.prefix_rfl
  · rw [hfol q hq] at hx
    split at hx
    · simp at hx
    · exact hl.nodes q x hq hx
  · by_cases hold : m.mem x y = m₁.mem x y
    · by_cases hx : x = n
      · subst hx
        cases hl.nodes _ x hpd hn with
        | inl hn => exact Or.inl ⟨_,hpd,hn⟩
        | inr hn => exact Or.inr (Or.inl hn)
      · have hsame : setSlot m.mem n (pdIdx (hhdmVirt hhdm i)) (largeEntry (hhdmPhys i)) x y =
            m.mem x y := setSlot_other (fun hh => hx hh.1)
        exact absurd (hsame.trans hold) hne
    · refine (hl.wrote x y hold).imp id (Or.imp id (fun hh => ?_))
      obtain ⟨k,hk,hh⟩ := hh
      exact ⟨k,Or.inr hk,hh⟩
  · have hdone : done k := by
      cases hk with
      | inl hk => exact absurd (hk ▸ hlarge) hsmall
      | inr hk => exact hk
    obtain ⟨l,hw⟩ := hl.spilled k hdone hlarge
    have hno := (hl.data hs (hl.range k hdone) hlarge).1 _ hpd
    refine ⟨l,?_⟩
    have hne : pageOf (pdptEntry m₁.mem pm (hhdmVirt hhdm k)) ≠ n := fun hh => hno (hh ▸ hn)
    show setSlot m.mem n _ _ _ _ = _
    rw [setSlot_other (fun hh => hne hh.1)]
    exact hw

/-- The 2 MiB entry goes into the frame of a 1 GiB page. -/
theorem Laid.spill (hl : Laid hhdm N pm m₁ done m) (hs : DirectStart hhdm N pm m₁) (hi : i < N)
    (hlarge : InLarge m₁.mem pm (hhdmVirt hhdm i))
    (hn : n = pageOf (pdptEntry m₁.mem pm (hhdmVirt hhdm i))) :
    Laid hhdm N pm m₁ (fun k => k = i ∨ done k)
      { m with mem := setSlot m.mem n (pdIdx (hhdmVirt hhdm i)) (largeEntry (hhdmPhys i)) } := by
  have hno := (hl.data hs hi hlarge).1
  rw [← hn] at hno
  have hout : ∀ p x, ShortPath p → follow tblNode m.mem pm p = some x →
      setSlot m.mem n (pdIdx (hhdmVirt hhdm i)) (largeEntry (hhdmPhys i)) x = m.mem x :=
    fun p x hp hx => setSlot_node (fun hh => hno p hp (hh ▸ hx))
  obtain ⟨htab,hfol,hent⟩ := hl.tables.outside hout
  refine ⟨htab,fun k hk => ?_,fun q j hq => ?_,fun k hk hk' => ?_,fun q j h2 h3 hout => ?_,
    fun q x hq hx => ?_,fun x y hne => ?_,fun k hk hk' => ?_,hl.free⟩
  · cases hk with
    | inl hk => exact hk ▸ hi
    | inr hk => exact hl.range k hk
  · rw [hent q j (show q.length ≤ 3 by omega)]
    exact hl.upper q j hq
  · rw [hent _ _ (shortPath_pd _)]
    cases hk with
    | inl hk => exact absurd (hk ▸ hlarge) hk'
    | inr hk => exact hl.laid k hk hk'
  · rw [hent q j h3]
    exact hl.kept q j h2 h3 (fun k hk => hout k (Or.inr hk))
  · rw [hfol q hq] at hx
    exact hl.nodes q x hq hx
  · by_cases hold : m.mem x y = m₁.mem x y
    · by_cases hx : x = n
      · exact Or.inr (Or.inr ⟨i,Or.inl rfl,hlarge,hx.trans hn⟩)
      · have hsame : setSlot m.mem n (pdIdx (hhdmVirt hhdm i)) (largeEntry (hhdmPhys i)) x y =
            m.mem x y := setSlot_other (fun hh => hx hh.1)
        exact absurd (hsame.trans hold) hne
    · refine (hl.wrote x y hold).imp id (Or.imp id (fun hh => ?_))
      obtain ⟨k,hk,hh⟩ := hh
      exact ⟨k,Or.inr hk,hh⟩
  · show ∃ l, setSlot m.mem _ _ _ _ _ = _
    by_cases hslot : pageOf (pdptEntry m₁.mem pm (hhdmVirt hhdm k)) = n ∧
        pdIdx (hhdmVirt hhdm k) = pdIdx (hhdmVirt hhdm i)
    · rw [hslot.1,hslot.2,setSlot_self]
      exact ⟨i,rfl⟩
    · rw [setSlot_other hslot]
      cases hk with
      | inl hk => exact absurd ⟨by rw [hk,hn],by rw [hk]⟩ hslot
      | inr hk => exact hl.spilled k hk hk'

/-- One turn of the loop lays out its region. -/
theorem Laid.step (hl : Laid hhdm N pm m₁ done m) (hs : DirectStart hhdm N pm m₁) (hi : i < N)
    (h : mapLarge m pm (hhdmVirt hhdm i) (hhdmPhys i) = (true,m')) :
    Laid hhdm N pm m₁ (fun k => k = i ∨ done k) m' := by
  unfold mapLarge at h
  cases h1 : kernelTable m pm (pml4Idx (hhdmVirt hhdm i)) with
  | mk t1 m1 =>
    rw [h1] at h
    cases t1 with
    | none => simp at h
    | some t1 =>
      dsimp only at h
      obtain ⟨hl1,hfol1⟩ := hl.table hs (show ([] : List (Fin 512)).length ≤ 1 by simp) rfl h1
      have hn1 : follow tblNode m1.mem pm [pml4Idx (hhdmVirt hhdm i)] = some t1 := by
        cases hfol1 with
        | inl hn => exact hn
        | inr hh => exact Bool.noConfusion ((hs.top _ hh.2.2.1).symm.trans hh.2.2.2)
      cases h2 : kernelTable m1 t1 (pdptIdx (hhdmVirt hhdm i)) with
      | mk t2 m2 =>
        rw [h2] at h
        cases t2 with
        | none => simp at h
        | some t2 =>
          dsimp only at h
          obtain ⟨hl2,hfol2⟩ := hl1.table hs (q := [pml4Idx (hhdmVirt hhdm i)]) (by simp) hn1 h2
          rw [Prod.mk.injEq] at h
          rw [← h.2]
          cases hfol2 with
          | inl hn2 => exact hl2.place hs hi hn2
          | inr hh =>
            obtain ⟨-,ht,hpres,hlarge⟩ := hh
            exact hl2.spill hs hi ⟨hpres,hlarge⟩ ht

/-- The loop lays out its regions. -/
theorem Laid.loop {is : List Nat} (hl : Laid hhdm N pm m₁ done m) (hs : DirectStart hhdm N pm m₁)
    (his : ∀ i ∈ is, i < N) (h : hhdmLoop pm hhdm is m = (true,m')) :
    Laid hhdm N pm m₁ (fun k => k ∈ is ∨ done k) m' := by
  induction is generalizing m done with
  | nil =>
    rw [hhdmLoop,Prod.mk.injEq] at h
    rw [← h.2]
    have hsame : (fun k => k ∈ ([] : List Nat) ∨ done k) = done := by
      funext k
      simp
    rw [hsame]
    exact hl
  | cons i rest ih =>
    rw [hhdmLoop] at h
    cases h1 : mapLarge m pm (hhdmVirt hhdm i) (hhdmPhys i) with
    | mk b m1 =>
      rw [h1] at h
      cases b with
      | false => simp at h
      | true =>
        have hl1 := hl.step hs (his i List.mem_cons_self) h1
        have hl2 := ih hl1 (fun k hk => his k (List.mem_cons_of_mem i hk)) h
        have hsame : (fun k => k ∈ i::rest ∨ done k) = fun k => k ∈ rest ∨ k = i ∨ done k := by
          funext k
          rw [List.mem_cons,eq_iff_iff]
          tauto
        rw [hsame]
        exact hl2

end KiNBOL
