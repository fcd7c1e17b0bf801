import KiNBOL.Kernel.UserCalls
import KiNBOL.Mm.PageAdds

namespace KiNBOL

variable {roots : Nat → Prop} {pm : Nat} {m m' : Machine} {mem : PhysMem} {va w : BitVec 64}

/-- Frames that mapping some pages takes: one for each, and the tables that are not there. -/
def mapDemand (mem : PhysMem) (pm : Nat) (vas : List (BitVec 64)) : Nat :=
  vas.length+(missingTables mem pm vas).card

theorem tableSlots_lower (hva : LowerHalf va) {p : List (Fin 512)} (hp : p ∈ tableSlots va) :
    LowerPath p ∧ p.length ≤ 3 ∧ ∃ q, p++q = tablePath va := by
  have hfull := lowerPath_va hva
  simp only [tableSlots,Finset.mem_insert,Finset.mem_singleton] at hp
  rcases hp with rfl | rfl | rfl
  · exact ⟨hfull.left (q := [pdptIdx va,pdIdx va,ptIdx va]),by simp,_,rfl⟩
  · exact ⟨hfull.left (q := [pdIdx va,ptIdx va]),by simp,_,rfl⟩
  · exact ⟨hfull.left,by simp [tablePath],[],List.append_nil _⟩

/-- The tables of some pages are fewer than those of more pages. -/
theorem missingTables_le (mem : PhysMem) (pm : Nat) {l l' : List (BitVec 64)} (h : l ⊆ l') :
    (missingTables mem pm l).card ≤ (missingTables mem pm l').card := by
  refine Finset.card_le_card (fun p hp => ?_)
  obtain ⟨⟨v,hv,hpv⟩,hf⟩ := mem_missingTables.mp hp
  exact mem_missingTables.mpr ⟨⟨v,h hv,hpv⟩,hf⟩

theorem mapDemand_le (mem : PhysMem) (pm : Nat) {l l' : List (BitVec 64)} (h : l.Sublist l') :
    mapDemand mem pm l ≤ mapDemand mem pm l' :=
  Nat.add_le_add h.length_le (missingTables_le mem pm h.subset)

theorem mapDemand_dropLast (mem : PhysMem) (pm : Nat) {l : List (BitVec 64)} (h : l ≠ []) :
    mapDemand mem pm l.dropLast < mapDemand mem pm l := by
  have hlen : l.dropLast.length < l.length := by
    rw [List.length_dropLast]
    have := List.length_pos_iff.mpr h
    omega
  exact Nat.add_lt_add_of_lt_of_le hlen (missingTables_le mem pm (List.dropLast_subset l))

/-- Once the tables of a page are there, the others take what is left. -/
theorem mapDemand_cons {mem' : PhysMem} (hr : roots pm) (l : List (BitVec 64)) (hva : LowerHalf va)
    (hl : ∀ v ∈ l, LowerHalf v)
    (hother : ∀ r q, roots r → LowerPath q → q.length ≤ 3 → ¬(r = pm ∧ q ∈ tableSlots va) →
      follow entryNode mem' r q = follow entryNode mem r q)
    (hthere : ∃ pt, follow entryNode mem' pm (tablePath va) = some pt) :
    mapDemand mem pm (va::l) = mapDemand mem pm [va]+mapDemand mem' pm l := by
  obtain ⟨pt,hpt⟩ := hthere
  have hsome : ∀ p ∈ tableSlots va, follow entryNode mem' pm p ≠ none := by
    intro p hp
    obtain ⟨-,-,q,hq⟩ := tableSlots_lower hva hp
    obtain ⟨n,hn,-⟩ := follow_prefix (p := p) (q := q) (hq ▸ hpt)
    rw [hn]
    simp
  have hset : missingTables mem pm (va::l) = missingTables mem pm [va] ∪ missingTables mem' pm l := by
    ext p
    rw [Finset.mem_union,mem_missingTables,mem_missingTables,mem_missingTables]
    constructor
    · rintro ⟨⟨v,hv,hp⟩,hf⟩
      by_cases hpv : p ∈ tableSlots va
      · exact Or.inl ⟨⟨va,by simp,hpv⟩,hf⟩
      · rcases List.mem_cons.mp hv with rfl | hv
        · exact absurd hp hpv
        · obtain ⟨hlow,hlen,-⟩ := tableSlots_lower (hl v hv) hp
          exact Or.inr ⟨⟨v,hv,hp⟩,(hother pm p hr hlow hlen (fun h => hpv h.2)).trans hf⟩
    · rintro (⟨⟨v,hv,hp⟩,hf⟩ | ⟨⟨v,hv,hp⟩,hf⟩)
      · rw [List.mem_singleton] at hv
        exact ⟨⟨v,by simp [hv],hp⟩,hf⟩
      · have hpv : p ∉ tableSlots va := fun hpv => hsome p hpv hf
        obtain ⟨hlow,hlen,-⟩ := tableSlots_lower (hl v hv) hp
        exact ⟨⟨v,List.mem_cons_of_mem _ hv,hp⟩,
          (hother pm p hr hlow hlen (fun h => hpv h.2)).symm.trans hf⟩
  have hdisj : Disjoint (missingTables mem pm [va]) (missingTables mem' pm l) := by
    rw [Finset.disjoint_left]
    intro p h1 h2
    obtain ⟨⟨v,hv,hp⟩,-⟩ := mem_missingTables.mp h1
    rw [List.mem_singleton] at hv
    exact hsome p (hv ▸ hp) (mem_missingTables.mp h2).2
  rw [mapDemand,mapDemand,mapDemand,hset,Finset.card_union_of_disjoint hdisj,List.length_cons,
    List.length_singleton]
  omega

/-- A page that got a frame of its own. -/
structure Maps (roots : Nat → Prop) (va : BitVec 64) (f : Nat) (m m' : Machine) : Prop where
  leaves : ∀ r w, roots r → LowerHalf w → leafWord m'.mem r w =
    if r = m.cr3 ∧ SameLeaf va w then leafEntry (pageAddr f) vmmFlagsUserData
    else leafWord m.mem r w
  demand : ∀ l, (∀ v ∈ l, LowerHalf v) →
    mapDemand m.mem m.cr3 (va::l) = mapDemand m.mem m.cr3 [va]+mapDemand m'.mem m.cr3 l

/-- `vmm_map` of a frame that was taken: no room for its tables, or the page is mapped. -/
theorem Taken.map_exact {m₁ : Machine} {f : Nat} (ht : Taken m m₁ f)
    (hroom : m₁.pmm.room+1 = m.pmm.room) (ho : Owned roots m) (hr : roots m.cr3)
    (hva : LowerHalf va) :
    ∃ m', (m.pmm.room < mapDemand m.mem m.cr3 [va] ∧ m'.pmm.room = 0 ∧
        vmmMap m₁ (some m.cr3) va (pageAddr f) vmmFlagsUserData = (-1,m') ∧
        (∀ r w, roots r → LowerHalf w → leafWord m'.mem r w = leafWord m.mem r w) ∧
        m'.pmm.Held f ∧ ¬UserNode roots m'.mem f) ∨
      (m'.pmm.room+mapDemand m.mem m.cr3 [va] = m.pmm.room ∧
        vmmMap m₁ (some m.cr3) va (pageAddr f) vmmFlagsUserData = (0,m') ∧
        m' = mapTaken m₁ m.cr3 va (pageAddr f) vmmFlagsUserData ∧ Maps roots va f m m' ∧
        ∀ i, m'.mem f i = m₁.mem f i) := by
  have hfree := (takes_one ht.takes).1
  obtain ⟨ho1,hheld1,hnew1,hev1,-,hent1⟩ := @Owned.taken roots m.cr3 m _ f ho ht
  have hfol1 : ∀ r q, roots r → LowerPath q →
      follow entryNode m₁.mem r q = follow entryNode m.mem r q := by
    have hslots : ∀ r n i, roots r → TableSlot m.mem r n i → m₁.mem n i = m.mem n i := by
      intro r n i hr' hs
      rw [ht.others n (fun he => ho.not_node_of_free hfree (he ▸ hs.node hr'))]
    exact (ho.other_pages hslots).2.1
  have hmiss : missingTables m₁.mem m.cr3 [va] = missingTables m.mem m.cr3 [va] := by
    ext q
    rw [mem_missingTables,mem_missingTables]
    refine and_congr_right (fun ⟨v,hv,hq⟩ => ?_)
    rw [List.mem_singleton] at hv
    rw [hfol1 m.cr3 q hr (tableSlots_lower (hv ▸ hva) hq).1]
  have hdem : mapDemand m.mem m.cr3 [va] = 1+(missingTables m.mem m.cr3 [va]).card := rfl
  obtain ⟨m2,ho2,hg,hnew2,hheld2,hcase⟩ := vmmMap_fresh_exact ho1 hr hva hheld1 hnew1 vmmFlagsUserData
  have hleaf : ∀ r w, roots r → LowerHalf w → leafWord m2.mem r w = leafWord m.mem r w := by
    intro r w hr' hw
    exact (hg.leaves r (tablePath w) (ptIdx w) hr' (lowerPath_va hw) rfl).trans
      (hent1 r (tablePath w) (ptIdx w) hr' (lowerPath_va hw))
  rcases hcase with ⟨hlt,hzero,hfail⟩ | ⟨hroom2,hother,hpt,mem',hch,ho3,hok⟩
  · rw [hmiss] at hlt
    exact ⟨m2,Or.inl ⟨by omega,hzero,hfail,hleaf,hheld2,hnew2⟩⟩
  · rw [hmiss] at hroom2
    have hshort : ∀ r q, roots r → LowerPath q → q.length ≤ 3 →
        follow entryNode mem' r q = follow entryNode m2.mem r q := by
      intro r q hr' hq hlen
      refine (hch.paths r q hr' hq).2 (fun hs => ?_)
      rw [hs.2] at hlen
      simp [tablePath] at hlen
    refine ⟨_,Or.inr ⟨?_,hok,by rw [mapTaken,hok,if_pos rfl],⟨fun r w hr' hw => ?_,fun l hl =>
      mapDemand_cons hr l hva hl (fun r q hr' hq hlen hs => ?_) ?_⟩,fun i => ?_⟩⟩
    · show m2.pmm.room+_ = _
      omega
    · show leafWord mem' r w = _
      rw [hch.leafWord_eq hr' hw,hleaf r w hr' hw]
      rfl
    · exact (hshort r q hr' hq hlen).trans ((hother r q hr' hq hs).trans (hfol1 r q hr' hq))
    · obtain ⟨pt,hpt⟩ := hpt
      exact ⟨pt,(hshort m.cr3 _ hr (lowerPath_va hva).left (by simp [tablePath])).trans hpt⟩
    · show mem' f i = m₁.mem f i
      have h1 : mem' f i = m2.mem f i := by
        by_contra hne
        exact hnew2 ((hch.wrote f i hne).node hr)
      have h2 : m2.mem f i = m₁.mem f i := by
        by_contra hne
        exact (hg.wrote f i hne).elim (fun hs => hnew1 (hs.node hr)) hheld1.not_free
      rw [h1,h2]

/-- One turn of the loop: no frame; a frame but no room for its tables; or the page is mapped. -/
theorem mapZeroed_exact (ho : Owned roots m) (hr : roots m.cr3) (hva : LowerHalf va) :
    (m.pmm.room = 0 ∧ mapZeroed m va = none) ∨
    ∃ f m₁ m', Taken m m₁ f ∧ mapZeroed m va = some m' ∧ 0 < m.pmm.room ∧
      ((m.pmm.room < mapDemand m.mem m.cr3 [va] ∧ m'.pmm.room = 0 ∧
        (∀ r w, roots r → LowerHalf w → leafWord m'.mem r w = leafWord m.mem r w) ∧
        m'.pmm.Held f ∧ ¬UserNode roots m'.mem f) ∨
       (m'.pmm.room+mapDemand m.mem m.cr3 [va] = m.pmm.room ∧ (∀ i, m'.mem f i = 0#64) ∧
        m' = mapTaken m₁ m.cr3 va (pageAddr f) vmmFlagsUserData ∧ Maps roots va f m m')) := by
  rcases pmmAllocPage_room m.pmm with ⟨hroom,ha⟩ | ⟨f,p,ha,htakes,hroom⟩
  · rcases mapZeroed_cases m va with ⟨hno,-⟩ | ⟨phys,p,ha',-⟩
    · exact Or.inl ⟨hroom,hno⟩
    · rw [ha] at ha'
      simp at ha'
  right
  have hfree := (takes_one htakes).1
  have hres : mapZeroed m va = some (vmmMap ⟨zeroPage m.mem f,p,m.cr3⟩ (some m.cr3) va (pageAddr f)
      vmmFlagsUserData).2 := by
    rcases mapZeroed_cases m va with ⟨-,q,ha'⟩ | ⟨phys,q,ha',hres⟩
    · rw [ha] at ha'
      simp at ha'
    · rw [ha,Prod.mk.injEq,Option.some.injEq] at ha'
      obtain ⟨rfl,rfl⟩ := ha'
      rw [hres,ho.free_page hfree]
  have ht : Taken m ⟨zeroPage m.mem f,p,m.cr3⟩ f := ⟨htakes,fun n hn => zeroPage_other hn,rfl⟩
  refine ⟨f,_,_,ht,hres,by omega,?_⟩
  obtain ⟨m',⟨hlt,hzero,hfail,hleaf,hheld,hnew⟩ | ⟨hroom',hok,hmade,hmap,hkept⟩⟩ :=
    ht.map_exact hroom ho hr hva
  · rw [hfail]
    exact Or.inl ⟨hlt,hzero,hleaf,hheld,hnew⟩
  · rw [hok]
    exact Or.inr ⟨hroom',fun i => (hkept i).trans (zeroPage_self m.mem f i),hmade,hmap⟩

/-- The address lies on one of the pages for which, and for all before, there is room. -/
def Reached (mem : PhysMem) (pm room : Nat) (pages : List (BitVec 64)) (w : BitVec 64) : Prop :=
  ∃ l v l', pages = l++v::l' ∧ SameLeaf v w ∧ mapDemand mem pm (l++[v]) ≤ room

/-- `w` is mapped, user and writable, to a frame that was free and is clear now. -/
def FreshAt (m m' : Machine) (w : BitVec 64) : Prop :=
  ∃ f, m.pmm.Free f ∧ leafWord m'.mem m.cr3 w = leafEntry (pageAddr f) vmmFlagsUserData ∧
    ∀ i, m'.mem f i = 0#64

theorem entryNode_userData {f : Nat} (hf : f < frameLimit) :
    entryNode (leafEntry (pageAddr f) vmmFlagsUserData) = some f := by
  rw [entryNode,(leafEntry_flags hf vmmFlagsUserData).1,if_pos (by decide),framePage_leafEntry hf]

theorem mapZeroedAll_full (pages : List (BitVec 64)) (hroom : m.pmm.room = 0) :
    mapZeroedAll pages m = (pages.isEmpty,m) := by
  cases pages with
  | nil => rfl
  | cons va rest =>
    rw [mapZeroedAll]
    rcases mapZeroed_cases m va with ⟨hno,-⟩ | ⟨phys,p,ha,-⟩
    · rw [hno]
      rfl
    · rcases pmmAllocPage_room m.pmm with ⟨-,ha'⟩ | ⟨f,q,-,-,hq⟩
      · rw [ha] at ha'
        simp at ha'
      · omega

/-- The loop: whether it came to its end, and what every lower-half address maps to. -/
theorem mapZeroedAll_exact (pages : List (BitVec 64)) (hl : ∀ va ∈ pages, LowerHalf va)
    (ho : Owned roots m) (hr : roots m.cr3) :
    ((mapZeroedAll pages m).1 = true ↔
      pages = [] ∨ mapDemand m.mem m.cr3 pages.dropLast < m.pmm.room) ∧
    ∀ w, LowerHalf w →
      (Reached m.mem m.cr3 m.pmm.room pages w → FreshAt m (mapZeroedAll pages m).2 w) ∧
      (¬Reached m.mem m.cr3 m.pmm.room pages w →
        leafWord (mapZeroedAll pages m).2.mem m.cr3 w = leafWord m.mem m.cr3 w) := by
  induction pages generalizing m with
  | nil =>
    refine ⟨by simp [mapZeroedAll],fun w _ => ⟨fun h => ?_,fun _ => rfl⟩⟩
    obtain ⟨l,v,l',he,-⟩ := h
    simp at he
  | cons va rest ih =>
    have hva := hl va (by simp)
    have hrest : ∀ v ∈ rest, LowerHalf v := fun v hv => hl v (by simp [hv])
    have hone : ∀ l v l', va::rest = l++v::l' →
        mapDemand m.mem m.cr3 [va] ≤ mapDemand m.mem m.cr3 (l++[v]) := by
      intro l v l' he
      refine mapDemand_le _ _ ?_
      cases l with
      | nil =>
        rw [List.nil_append,List.cons.injEq] at he
        rw [he.1]
        exact List.Sublist.refl _
      | cons a l =>
        rw [List.cons_append,List.cons.injEq] at he
        rw [he.1]
        exact (List.nil_sublist _).cons_cons a
    have hlast : mapDemand m.mem m.cr3 (va::rest).dropLast < m.pmm.room → rest ≠ [] →
        mapDemand m.mem m.cr3 [va] < m.pmm.room := by
      intro h hne
      refine lt_of_le_of_lt (mapDemand_le _ _ ?_) h
      rw [List.dropLast_cons_of_ne_nil hne]
      exact (List.nil_sublist _).cons_cons va
    rw [mapZeroedAll]
    rcases mapZeroed_exact ho hr hva with ⟨hroom,hno⟩ | ⟨f,m₂,m₁,ht,hres,hpos,hcase⟩
    · rw [hno]
      refine ⟨⟨fun h => Bool.noConfusion h,fun h => ?_⟩,fun w _ => ⟨fun h => ?_,fun _ => rfl⟩⟩
      · rcases h with h | h
        · simp at h
        · omega
      · obtain ⟨l,v,l',he,-,hd⟩ := h
        have := hone l v l' he
        simp only [mapDemand,List.length_singleton] at this hd
        omega
    rw [hres,Option.elim_some]
    obtain ⟨ho1,he1⟩ := mapZeroed_evolves ho hr hva hres
    rcases hcase with ⟨hlt,hzero,hleaf,-⟩ | ⟨hroom,hclear,-,hmap⟩
    · -- the room is used up
      rw [mapZeroedAll_full rest hzero]
      refine ⟨?_,fun w hw => ⟨fun h => ?_,fun _ => hleaf m.cr3 w hr hw⟩⟩
      · rw [List.isEmpty_iff]
        constructor
        · intro h
          subst h
          exact Or.inr hpos
        · rintro (h | h)
          · simp at h
          · by_contra hne
            have := hlast h hne
            omega
      · obtain ⟨l,v,l',he,-,hd⟩ := h
        have := hone l v l' he
        omega
    · have hdem := hmap.demand
      have hframe := (takes_one ht.takes).1
      obtain ⟨ih1,ih2⟩ := ih hrest ho1 (he1.cr3 ▸ hr)
      rw [he1.cr3] at ih1 ih2
      have hreach : ∀ w, Reached m.mem m.cr3 m.pmm.room (va::rest) w ↔
          (SameLeaf va w ∧ mapDemand m.mem m.cr3 [va] ≤ m.pmm.room) ∨
          Reached m₁.mem m.cr3 m₁.pmm.room rest w := by
        intro w
        constructor
        · rintro ⟨l,v,l',he,hs,hd⟩
          cases l with
          | nil =>
            rw [List.nil_append,List.cons.injEq] at he
            rw [List.nil_append] at hd
            exact Or.inl ⟨he.1 ▸ hs,he.1 ▸ hd⟩
          | cons a l =>
            rw [List.cons_append,List.cons.injEq] at he
            obtain ⟨rfl,he⟩ := he
            refine Or.inr ⟨l,v,l',he,hs,?_⟩
            have hlow : ∀ u ∈ l++[v], LowerHalf u := by
              intro u hu
              refine hrest u ?_
              rw [he]
              rcases List.mem_append.mp hu with hu | hu
              · exact List.mem_append_left _ hu
              · exact List.mem_append_right _ (by simpa using Or.inl (List.mem_singleton.mp hu))
            rw [List.cons_append,hdem _ hlow] at hd
            omega
        · rintro (⟨hs,hd⟩ | ⟨l,v,l',he,hs,hd⟩)
          · exact ⟨[],va,rest,rfl,hs,hd⟩
          · refine ⟨va::l,v,l',by rw [he]; rfl,hs,?_⟩
            have hlow : ∀ u ∈ l++[v], LowerHalf u := by
              intro u hu
              refine hrest u ?_
              rw [he]
              rcases List.mem_append.mp hu with hu | hu
              · exact List.mem_append_left _ hu
              · exact List.mem_append_right _ (by simpa using Or.inl (List.mem_singleton.mp hu))
            rw [List.cons_append,hdem _ hlow]
            omega
      obtain ⟨ho2,he2⟩ := mapZeroedAll_evolves rest hrest ho1 (he1.cr3 ▸ hr)
      rw [he1.cr3] at he2
      refine ⟨?_,fun w hw => ⟨fun h => ?_,fun h => ?_⟩⟩
      · rw [ih1]
        by_cases hne : rest = []
        · subst hne
          simp only [true_or,true_iff,List.dropLast_singleton]
          exact Or.inr hpos
        · have hlow : ∀ u ∈ rest.dropLast, LowerHalf u :=
            fun u hu => hrest u (List.dropLast_subset _ hu)
          rw [List.dropLast_cons_of_ne_nil hne,hdem _ hlow]
          simp only [hne,false_or,reduceCtorEq]
          omega
      · rw [hreach] at h
        by_cases hlater : Reached m₁.mem m.cr3 m₁.pmm.room rest w
        · obtain ⟨g,hg,hgl,hgz⟩ := (ih2 w hw).1 hlater
          exact ⟨g,he1.free g hg,by rw [← he1.cr3]; exact hgl,hgz⟩
        · have hs := (h.resolve_right hlater).1
          have hkept := (ih2 w hw).2 hlater
          have hleaf : leafWord m₁.mem m.cr3 w = leafEntry (pageAddr f) vmmFlagsUserData := by
            rw [hmap.leaves m.cr3 w hr hw,if_pos ⟨rfl,hs⟩]
          refine ⟨f,hframe,hkept.trans hleaf,fun i => ?_⟩
          have hnode : entryNode (leafWord m₁.mem m.cr3 w) = some f := by
            rw [hleaf]
            exact entryNode_userData (ho.free_lt hframe)
          rw [he2.frame_kept ho1 hr hw hnode]
          exact hclear i
      · rw [hreach,not_or] at h
        rw [(ih2 w hw).2 h.2,hmap.leaves m.cr3 w hr hw,if_neg (fun hs => h.1 ⟨hs.2,by omega⟩)]

end KiNBOL
