import KiNBOL.Mm.UserTables

namespace KiNBOL

/-- A page below the limit that is handed out. -/
def Pmm.Held (p : Pmm) (n : Nat) : Prop := n < p.totalPages ∧ p.bmGet n = true

theorem Pmm.Held.not_free {p : Pmm} {n : Nat} (h : p.Held n) : ¬p.Free n := by
  intro hf
  have h1 := h.2
  rw [hf.2] at h1
  exact Bool.noConfusion h1

/-- The pagemaps `roots` have well-formed lower halves made of pages of their own. -/
structure Owned (roots : Nat → Prop) (m : Machine) : Prop where
  tables : UserTables roots m.mem
  held : ∀ n, UserNode roots m.mem n → m.pmm.Held n
  limit : m.pmm.totalPages ≤ frameLimit

/-- What building up the lower half of `pm` can do: it writes its table slots and pages that were
free, and whatever it reaches afterwards it reached before or took from the free pages. -/
structure Evolves (roots : Nat → Prop) (pm : Nat) (m m' : Machine) : Prop where
  fresh : ∀ r p n, roots r → LowerPath p → follow entryNode m'.mem r p = some n →
    follow entryNode m.mem r p = some n ∨ m.pmm.Free n
  wrote : ∀ n i, m'.mem n i ≠ m.mem n i → TableSlot m.mem pm n i ∨ m.pmm.Free n
  free : ∀ n, m'.pmm.Free n → m.pmm.Free n
  total : m'.pmm.totalPages = m.pmm.totalPages
  cr3 : m'.cr3 = m.cr3

/-- What `get_or_create` adds: tables made of pages that were free; no page-table entry changes. -/
structure Grown (roots : Nat → Prop) (pm : Nat) (m m' : Machine) : Prop
    extends Evolves roots pm m m' where
  kept : ∀ r p n, roots r → LowerPath p → follow entryNode m.mem r p = some n →
    follow entryNode m'.mem r p = some n
  leaves : ∀ r p i, roots r → LowerPath (p++[i]) → p.length = 3 →
    entryAt m'.mem r p i = entryAt m.mem r p i
  bits : ∀ n, m'.pmm.bmGet n = true ↔ m.pmm.bmGet n = true ∨ UserNode roots m'.mem n
  counted : m.pmm.Counted → m'.pmm.Counted

variable {roots : Nat → Prop} {pm : Nat} {m m' m'' : Machine}

theorem Evolves.refl (roots : Nat → Prop) (pm : Nat) (m : Machine) : Evolves roots pm m m :=
  ⟨fun _ _ _ _ _ h => Or.inl h,fun _ _ h => absurd rfl h,fun _ h => h,rfl,rfl⟩

theorem Evolves.trans (hr : roots pm) (h1 : Evolves roots pm m m') (h2 : Evolves roots pm m' m'') :
    Evolves roots pm m m'' := by
  refine ⟨?_,?_,fun n h => h1.free n (h2.free n h),h2.total.trans h1.total,h2.cr3.trans h1.cr3⟩
  · intro r p n hr' hp hn
    cases h2.fresh r p n hr' hp hn with
    | inl hold => exact h1.fresh r p n hr' hp hold
    | inr hfree => exact Or.inr (h1.free n hfree)
  · intro n i hne
    by_cases hmid : m'.mem n i = m.mem n i
    · cases h2.wrote n i (hmid ▸ hne) with
      | inr hfree => exact Or.inr (h1.free n hfree)
      | inl hslot =>
        obtain ⟨p,hp,hn⟩ := hslot
        cases h1.fresh pm p n hr hp.left hn with
        | inl hold => exact Or.inl ⟨p,hp,hold⟩
        | inr hfree => exact Or.inr hfree
    · exact h1.wrote n i hmid

theorem Grown.refl (ho : Owned roots m) (pm : Nat) : Grown roots pm m m :=
  { Evolves.refl roots pm m with
    kept := fun _ _ _ _ _ h => h
    leaves := fun _ _ _ _ _ _ => rfl
    bits := fun n => ⟨Or.inl,fun h => h.elim id (fun hn => (ho.held n hn).2)⟩
    counted := id }

/-- Tables stay tables. -/
theorem Grown.node (h : Grown roots pm m m') {n : Nat} (hn : UserNode roots m.mem n) :
    UserNode roots m'.mem n := by
  obtain ⟨r,p,hr,hp,hf⟩ := hn
  exact ⟨r,p,hr,hp,h.kept r p n hr hp hf⟩

theorem Grown.trans (hr : roots pm) (h1 : Grown roots pm m m') (h2 : Grown roots pm m' m'') :
    Grown roots pm m m'' :=
  { h1.toEvolves.trans hr h2.toEvolves with
    kept := fun r p n hr' hp hn => h2.kept r p n hr' hp (h1.kept r p n hr' hp hn)
    leaves := fun r p i hr' hp hl => (h2.leaves r p i hr' hp hl).trans (h1.leaves r p i hr' hp hl)
    bits := by
      intro n
      rw [h2.bits,h1.bits]
      constructor
      · intro h
        cases h with
        | inr hn => exact Or.inr hn
        | inl h =>
          cases h with
          | inl hb => exact Or.inl hb
          | inr hn => exact Or.inr (h2.node hn)
      · intro h
        cases h with
        | inl hb => exact Or.inl (Or.inl hb)
        | inr hn => exact Or.inr hn
    counted := fun h => h2.counted (h1.counted h) }

/-- A taken page is a free one that becomes held. -/
theorem takes_one {p p' : Pmm} {f : Nat} (h : Pmm.Takes p p' f 1) :
    p.Free f ∧ p'.Held f ∧ ∀ n, p'.bmGet n = true ↔ p.bmGet n = true ∨ n = f := by
  have hfree := h.run f (le_refl f) (by omega)
  have hbits : ∀ n, p'.bmGet n = true ↔ p.bmGet n = true ∨ n = f := by
    intro n
    rw [h.bits,Bool.or_eq_true,decide_eq_true_eq]
    have hr : (f ≤ n ∧ n < f+1) ↔ n = f := by omega
    rw [hr]
  exact ⟨hfree,⟨h.total ▸ hfree.1,(hbits f).mpr (Or.inr rfl)⟩,hbits⟩

theorem Owned.not_node_of_free (h : Owned roots m) {n : Nat} (hn : m.pmm.Free n) :
    ¬UserNode roots m.mem n := fun hh => (h.held n hh).not_free hn

theorem Owned.free_lt (h : Owned roots m) {n : Nat} (hn : m.pmm.Free n) : n < frameLimit :=
  lt_of_lt_of_le hn.1 h.limit

theorem Owned.free_page (h : Owned roots m) {n : Nat} (hn : m.pmm.Free n) :
    pageOf (pageAddr n) = n :=
  pageOf_pageAddr (lt_of_lt_of_le (h.free_lt hn) frameLimit_le)

theorem zeroPage_other {mem : PhysMem} {f n : Nat} (h : n ≠ f) : zeroPage mem f n = mem n := by
  funext i
  rw [zeroPage,if_neg h]

theorem zeroPage_self (mem : PhysMem) (f : Nat) (i : Fin 512) : zeroPage mem f f i = 0#64 := by
  rw [zeroPage,if_pos rfl]

theorem getOrCreate_hit {n : Nat} {i : Fin 512} (h : present (m.mem n i) = true) :
    getOrCreate m n i = (some (m.mem n i &&& pageMask),m) := by
  rw [present] at h
  rw [getOrCreate,if_pos h]

theorem getOrCreate_none {n : Nat} {i : Fin 512} {pmm : Pmm} (h : present (m.mem n i) = false)
    (ha : pmmAllocPage m.pmm = (none,pmm)) :
    getOrCreate m n i = (none,{ m with pmm := pmm }) := by
  have hn : ¬(has (m.mem n i) vmmPresent = true) := ne_true_of_eq_false h
  unfold getOrCreate
  rw [if_neg hn]
  unfold allocTable
  rw [ha]

theorem getOrCreate_some {n : Nat} {i : Fin 512} {pmm : Pmm} {a : BitVec 64}
    (h : present (m.mem n i) = false) (ha : pmmAllocPage m.pmm = (some a,pmm)) :
    getOrCreate m n i = (some a,{ m with
      pmm := pmm, mem := setSlot (zeroPage m.mem (pageOf a)) n i (tableEntry a) }) := by
  have hn : ¬(has (m.mem n i) vmmPresent = true) := ne_true_of_eq_false h
  unfold getOrCreate
  rw [if_neg hn]
  unfold allocTable
  rw [ha]

/-- Frames that going down one level takes. -/
def missing (mem : PhysMem) (pm : Nat) (p : List (Fin 512)) : Nat :=
  if follow entryNode mem pm p = none then 1 else 0

/-- `get_or_create` on a slot above the last level, with the frames it takes. -/
theorem getOrCreate_exact (h : Owned roots m) (hr : roots pm) {p : List (Fin 512)} {i : Fin 512}
    {n : Nat} (hp : LowerPath (p++[i])) (hlen : p.length < 3)
    (hn : follow entryNode m.mem pm p = some n) :
    (m.pmm.room < missing m.mem pm (p++[i]) ∧ getOrCreate m n i = (none,m)) ∨
    ∃ m' a f, Owned roots m' ∧ Grown roots pm m m' ∧ getOrCreate m n i = (some a,m') ∧
      pageOf a = f ∧ follow entryNode m'.mem pm (p++[i]) = some f ∧
      m'.pmm.room+missing m.mem pm (p++[i]) = m.pmm.room ∧
      ∀ r q, roots r → LowerPath q → ¬(r = pm ∧ q = p++[i]) →
        follow entryNode m'.mem r q = follow entryNode m.mem r q := by
  cases h.tables.step hr hp hlen hn with
  | inl hyes =>
    obtain ⟨f,he,hchild⟩ := hyes
    have hhit := getOrCreate_hit (m := m) (n := n) (i := i) he.isPresent
    have hpage : pageOf (m.mem n i &&& pageMask) = f := by
      rw [pageOf_pageMask,he.page]
    have hmiss : missing m.mem pm (p++[i]) = 0 := by
      rw [missing,hchild,if_neg (by simp)]
    exact Or.inr ⟨m,_,f,h,Grown.refl h pm,hhit,hpage,hchild,by omega,fun _ _ _ _ _ => rfl⟩
  | inr hno =>
    obtain ⟨habs,hchild⟩ := hno
    have hmiss : missing m.mem pm (p++[i]) = 1 := if_pos hchild
    rw [hmiss]
    rcases pmmAllocPage_room m.pmm with ⟨hroom,halloc⟩ | ⟨f,pmm,halloc,htakes,hroom⟩
    · refine Or.inl ⟨by omega,?_⟩
      rw [getOrCreate_none habs halloc]
    · obtain ⟨hfree,hheld,hbits⟩ := takes_one htakes
      have hnew := h.not_node_of_free hfree
      have hpage := h.free_page hfree
      have hsame : ∀ k, UserNode roots m.mem k → zeroPage m.mem f k = m.mem k :=
        fun k hk => zeroPage_other (fun he => hnew (he ▸ hk))
      have hslots : ∀ r k j, roots r → TableSlot m.mem r k j →
          zeroPage m.mem f k j = m.mem k j := by
        intro r k j hr' hs
        rw [hsame k (hs.node hr')]
      obtain ⟨ht,hfol,hent⟩ := h.tables.congr hslots
      have hn' : follow entryNode (zeroPage m.mem f) pm p = some n := by
        rw [hfol pm p hr hp.left,hn]
      have hnode : UserNode roots m.mem n := ⟨pm,p,hr,hp.left,hn⟩
      have habs' : present (zeroPage m.mem f n i) = false := by
        rw [hsame n hnode]
        exact habs
      have hnew' : ¬UserNode roots (zeroPage m.mem f) f := by
        intro hh
        obtain ⟨r,q,hr',hq,hf'⟩ := hh
        exact hnew ⟨r,q,hr',hq,hfol r q hr' hq ▸ hf'⟩
      obtain ⟨ht2,hrep,hent2⟩ := ht.set_table hr hp hlen hn' habs' (h.free_lt hfree) hnew'
        (zeroPage_self m.mem f)
      have hback : ∀ k, UserNode roots (setSlot (zeroPage m.mem f) n i (tableEntry (pageAddr f))) k →
          k = f ∨ UserNode roots m.mem k := by
        intro k hk
        cases hrep.node hk with
        | inl he => exact Or.inl (by simpa using he.symm)
        | inr hk' =>
          obtain ⟨r,q,hr',hq,hf'⟩ := hk'
          exact Or.inr ⟨r,q,hr',hq,hfol r q hr' hq ▸ hf'⟩
      have hfree' : ∀ k, pmm.Free k → m.pmm.Free k := fun k hk => ((htakes.free_iff k).mp hk).1
      refine Or.inr ⟨{ m with
          pmm := pmm, mem := setSlot (zeroPage m.mem f) n i (tableEntry (pageAddr f)) },
        pageAddr f,f,⟨ht2,?_,?_⟩,⟨⟨?_,?_,hfree',htakes.total,rfl⟩,?_,?_,?_,htakes.counted⟩,?_,hpage,
        (hrep pm (p++[i]) hr hp).1 ⟨rfl,rfl⟩,hroom,?_⟩
      · intro k hk
        cases hback k hk with
        | inl he => exact he ▸ hheld
        | inr hk' =>
          have hold := h.held k hk'
          exact ⟨htakes.total ▸ hold.1,(hbits k).mpr (Or.inl hold.2)⟩
      · show pmm.totalPages ≤ frameLimit
        rw [htakes.total]
        exact h.limit
      · intro r q k hr' hq hk
        by_cases hs : r = pm ∧ q = p++[i]
        · rw [(hrep r q hr' hq).1 hs] at hk
          rw [Option.some.injEq] at hk
          exact Or.inr (hk ▸ hfree)
        · rw [(hrep r q hr' hq).2 hs,hfol r q hr' hq] at hk
          exact Or.inl hk
      · intro k j hne
        by_cases hs : k = n ∧ j = i
        · rw [hs.1,hs.2]
          exact Or.inl ⟨p,hp,hn⟩
        · by_cases hk : k = f
          · exact Or.inr (hk ▸ hfree)
          · apply absurd _ hne
            show setSlot (zeroPage m.mem f) n i (tableEntry (pageAddr f)) k j = m.mem k j
            rw [setSlot_other hs,zeroPage_other hk]
      · intro r q k hr' hq hk
        have hs : ¬(r = pm ∧ q = p++[i]) := by
          intro hs
          rw [hs.1,hs.2,follow_snoc,hn,Option.bind_some,entryNode_absent habs] at hk
          simp at hk
        rw [(hrep r q hr' hq).2 hs,hfol r q hr' hq,hk]
      · intro r q j hr' hq hthree
        have hs : ¬(r = pm ∧ q = p ∧ j = i) := by
          intro hs
          rw [hs.2.1] at hthree
          omega
        rw [hent2 r q j hr' hq,if_neg hs,hent r q j hr' hq]
      · intro k
        rw [hbits k]
        constructor
        · intro hk
          cases hk with
          | inl hb => exact Or.inl hb
          | inr he => exact Or.inr (hrep.new_node hr hp (by rw [he]))
        · intro hk
          cases hk with
          | inl hb => exact Or.inl hb
          | inr hk =>
            cases hback k hk with
            | inl he => exact Or.inr he
            | inr hk' => exact Or.inl (h.held k hk').2
      · rw [getOrCreate_some habs halloc,hpage]
      · intro r q hr' hq hs
        rw [(hrep r q hr' hq).2 hs]
        exact hfol r q hr' hq

/-- The slots of the tables on the way to a page. -/
def tableSlots (va : BitVec 64) : Finset (List (Fin 512)) :=
  {[pml4Idx va],[pml4Idx va,pdptIdx va],tablePath va}

/-- Tables that mapping some pages needs and that are not there. -/
def missingTables (mem : PhysMem) (pm : Nat) (vas : List (BitVec 64)) : Finset (List (Fin 512)) :=
  (vas.toFinset.biUnion tableSlots).filter (fun p => follow entryNode mem pm p = none)

theorem mem_missingTables {mem : PhysMem} {vas : List (BitVec 64)} {p : List (Fin 512)} :
    p ∈ missingTables mem pm vas ↔
      (∃ va ∈ vas, p ∈ tableSlots va) ∧ follow entryNode mem pm p = none := by
  simp only [missingTables,Finset.mem_filter,Finset.mem_biUnion,List.mem_toFinset]

theorem card_missingTables (mem : PhysMem) (pm : Nat) (va : BitVec 64) :
    (missingTables mem pm [va]).card = missing mem pm [pml4Idx va]+
      missing mem pm [pml4Idx va,pdptIdx va]+missing mem pm (tablePath va) := by
  have hset : missingTables mem pm [va] =
      (tableSlots va).filter (fun p => follow entryNode mem pm p = none) := by
    rw [missingTables,List.toFinset_cons,List.toFinset_nil,insert_empty_eq,
      Finset.singleton_biUnion]
  rw [hset,tableSlots,Finset.filter_insert,Finset.filter_insert,Finset.filter_singleton,missing,
    missing,missing]
  split_ifs <;> simp [tablePath]

/-- `vmm_map` on a lower-half address: when the tables it has to add find no room it fails and has
used up the room; else it adds them and writes the page-table slot. -/
theorem vmmMap_exact (h : Owned roots m) (hr : roots pm) {virt : BitVec 64} (hva : LowerHalf virt)
    (phys flags : BitVec 64) :
    ∃ m', Owned roots m' ∧ Grown roots pm m m' ∧
      ((m.pmm.room < (missingTables m.mem pm [virt]).card ∧ m'.pmm.room = 0 ∧
        vmmMap m (some pm) virt phys flags = (-1,m')) ∨
       (m'.pmm.room+(missingTables m.mem pm [virt]).card = m.pmm.room ∧
        (∀ r q, roots r → LowerPath q → ¬(r = pm ∧ q ∈ tableSlots virt) →
          follow entryNode m'.mem r q = follow entryNode m.mem r q) ∧
        ∃ pt, follow entryNode m'.mem pm (tablePath virt) = some pt ∧
        vmmMap m (some pm) virt phys flags =
          (0,{ m' with mem := setSlot m'.mem pt (ptIdx virt) (leafEntry phys flags) }))) := by
  have hfull := lowerPath_va hva
  have h1 : LowerPath ([]++[pml4Idx virt]) := hfull.left (q := [pdptIdx virt,pdIdx virt,ptIdx virt])
  have h2 : LowerPath ([pml4Idx virt]++[pdptIdx virt]) := hfull.left (q := [pdIdx virt,ptIdx virt])
  have h3 : LowerPath ([pml4Idx virt,pdptIdx virt]++[pdIdx virt]) := hfull.left (q := [ptIdx virt])
  have hle : ∀ mem p, missing mem pm p ≤ 1 := by
    intro mem p
    rw [missing]
    split_ifs <;> omega
  have hle1 := hle m.mem [pml4Idx virt]
  have hle2 := hle m.mem [pml4Idx virt,pdptIdx virt]
  have hle3 := hle m.mem (tablePath virt)
  rw [card_missingTables]
  rcases getOrCreate_exact h hr h1 (by simp) rfl with
    ⟨c1,hno⟩ | ⟨m1,a1,f1,o1,g1,e1,p1,n1,c1,other1⟩
  · simp only [List.nil_append] at c1
    exact ⟨m,h,Grown.refl h pm,Or.inl ⟨by omega,by omega,by simp only [vmmMap,hno]⟩⟩
  simp only [List.nil_append] at n1 c1 other1
  have hm2 : missing m1.mem pm [pml4Idx virt,pdptIdx virt] =
      missing m.mem pm [pml4Idx virt,pdptIdx virt] := by
    have he : follow entryNode m1.mem pm [pml4Idx virt,pdptIdx virt] =
        follow entryNode m.mem pm [pml4Idx virt,pdptIdx virt] := other1 pm _ hr h2 (by simp)
    rw [missing,missing,he]
  rcases getOrCreate_exact o1 hr h2 (by simp) n1 with
    ⟨c2,hno⟩ | ⟨m2,a2,f2,o2,g2,e2,p2,n2,c2,other2⟩
  · simp only [List.singleton_append,hm2] at c2
    exact ⟨m1,o1,g1,Or.inl ⟨by omega,by omega,by simp only [vmmMap,e1,p1,hno]⟩⟩
  simp only [List.singleton_append,hm2] at n2 c2 other2
  have g12 := g1.trans hr g2
  have hm3 : missing m2.mem pm (tablePath virt) = missing m.mem pm (tablePath virt) := by
    have he : follow entryNode m2.mem pm (tablePath virt) =
        follow entryNode m.mem pm (tablePath virt) :=
      (other2 pm _ hr h3 (by simp)).trans (other1 pm _ hr h3 (by simp))
    rw [missing,missing,he]
  rcases getOrCreate_exact o2 hr h3 (by simp) n2 with
    ⟨c3,hno⟩ | ⟨m3,a3,f3,o3,g3,e3,p3,n3,c3,other3⟩
  · change m2.pmm.room < missing m2.mem pm (tablePath virt) at c3
    rw [hm3] at c3
    exact ⟨m2,o2,g12,Or.inl ⟨by omega,by omega,by simp only [vmmMap,e1,p1,e2,p2,hno]⟩⟩
  change m3.pmm.room+missing m2.mem pm (tablePath virt) = m2.pmm.room at c3
  rw [hm3] at c3
  refine ⟨m3,o3,g12.trans hr g3,Or.inr ⟨by omega,fun r q hr' hq hs => ?_,f3,n3,
    by simp only [vmmMap,e1,p1,e2,p2,e3,p3]⟩⟩
  have hq1 : ¬(r = pm ∧ q = [pml4Idx virt]) := fun he => hs ⟨he.1,by simp [tableSlots,he.2]⟩
  have hq2 : ¬(r = pm ∧ q = [pml4Idx virt,pdptIdx virt]) :=
    fun he => hs ⟨he.1,by simp [tableSlots,he.2]⟩
  have hq3 : ¬(r = pm ∧ q = [pml4Idx virt,pdptIdx virt]++[pdIdx virt]) :=
    fun he => hs ⟨he.1,by simp [tableSlots,tablePath,he.2]⟩
  rw [other3 r q hr' hq hq3,other2 r q hr' hq hq2,other1 r q hr' hq hq1]

end KiNBOL
