import KiNBOL.Mm.VmmMap

namespace KiNBOL

variable {roots : Nat → Prop} {pm : Nat} {m m' : Machine} {mem mem' mem'' : PhysMem}
  {va : BitVec 64} {e : BitVec 64}

/-- The page-table entry of `va` under `pm` became `e`, everything else stayed. -/
structure LeafChange (roots : Nat → Prop) (pm : Nat) (va e : BitVec 64) (mem mem' : PhysMem) :
    Prop where
  tables : UserTables roots mem'
  paths : Repath entryNode LowerPath roots mem mem' pm (tablePath va++[ptIdx va]) (entryNode e)
  entries : ∀ r p i, roots r → LowerPath (p++[i]) → entryAt mem' r p i =
    if r = pm ∧ p = tablePath va ∧ i = ptIdx va then e else entryAt mem r p i
  nodes : ∀ n, UserNode roots mem' n ↔ entryNode e = some n ∨
    (UserNode roots mem n ∧ entryNode (leafWord mem pm va) ≠ some n)
  wrote : ∀ n i, mem' n i ≠ mem n i → TableSlot mem pm n i

theorem follow_leaf (mem : PhysMem) (r : Nat) (va : BitVec 64) :
    follow entryNode mem r (tablePath va++[ptIdx va]) = entryNode (leafWord mem r va) :=
  follow_entryAt mem r (tablePath va) (ptIdx va)

theorem UserTables.leafChange (h : UserTables roots mem) (hr : roots pm) (hva : LowerHalf va)
    {pt : Nat} (hpt : follow entryNode mem pm (tablePath va) = some pt)
    (hshape : present e = true → ∃ f flags, f < frameLimit ∧ e = leafEntry (pageAddr f) flags)
    (hown : ∀ f, entryNode e = some f →
      ¬UserNode roots mem f ∨ entryNode (leafWord mem pm va) = some f) :
    LeafChange roots pm va e mem (setSlot mem pt (ptIdx va) e) := by
  have hfull := lowerPath_va hva
  obtain ⟨ht,hrep,hent⟩ := h.set_leaf hr hva hpt hshape hown
  refine ⟨ht,hrep,hent,?_,?_⟩
  · intro n
    constructor
    · intro hn
      obtain ⟨r,p,hr',hp,hf⟩ := hn
      by_cases hs : r = pm ∧ p = tablePath va++[ptIdx va]
      · rw [(hrep r p hr' hp).1 hs] at hf
        exact Or.inl hf
      · rw [(hrep r p hr' hp).2 hs] at hf
        refine Or.inr ⟨⟨r,p,hr',hp,hf⟩,fun hold => hs ?_⟩
        rw [← follow_leaf] at hold
        exact h.forest.unique r pm p _ n hr' hr hp hfull hf hold
    · intro hn
      cases hn with
      | inl hnew => exact hrep.new_node hr hfull hnew
      | inr hkept =>
        rw [← follow_leaf] at hkept
        exact hrep.old_node hkept.1 hkept.2
  · intro n i hne
    by_cases hs : n = pt ∧ i = ptIdx va
    · rw [hs.1,hs.2]
      exact ⟨tablePath va,hfull,hpt⟩
    · exact absurd (setSlot_other hs) hne

/-- Entries of other slots, and the entry written. -/
theorem LeafChange.leafWord_eq (h : LeafChange roots pm va e mem mem') {r : Nat}
    {va' : BitVec 64} (hr : roots r) (hva' : LowerHalf va') : leafWord mem' r va' =
      if r = pm ∧ tablePath va' = tablePath va ∧ ptIdx va' = ptIdx va then e
      else leafWord mem r va' :=
  h.entries r (tablePath va') (ptIdx va') hr (lowerPath_va hva')

/-- Trees that only lost nodes, by writes to slots of `pm`. -/
structure Trimmed (roots : Nat → Prop) (pm : Nat) (mem mem' : PhysMem) : Prop where
  fewer : ∀ r p n, roots r → LowerPath p → follow entryNode mem' r p = some n →
    follow entryNode mem r p = some n
  wrote : ∀ n i, mem' n i ≠ mem n i → TableSlot mem pm n i

theorem Trimmed.refl (roots : Nat → Prop) (pm : Nat) (mem : PhysMem) : Trimmed roots pm mem mem :=
  ⟨fun _ _ _ _ _ h => h,fun _ _ h => absurd rfl h⟩

theorem Trimmed.trans (hr : roots pm) (h1 : Trimmed roots pm mem mem')
    (h2 : Trimmed roots pm mem' mem'') : Trimmed roots pm mem mem'' := by
  refine ⟨fun r p n hr' hp hn => h1.fewer r p n hr' hp (h2.fewer r p n hr' hp hn),?_⟩
  intro n i hne
  by_cases hmid : mem' n i = mem n i
  · obtain ⟨p,hp,hn⟩ := h2.wrote n i (hmid ▸ hne)
    exact ⟨p,hp,h1.fewer pm p n hr hp.left hn⟩
  · exact h1.wrote n i hmid

theorem Trimmed.node (h : Trimmed roots pm mem mem') {n : Nat} (hn : UserNode roots mem' n) :
    UserNode roots mem n := by
  obtain ⟨r,p,hr,hp,hf⟩ := hn
  exact ⟨r,p,hr,hp,h.fewer r p n hr hp hf⟩

/-- A changed entry that names the old frame or none loses at most that frame. -/
theorem LeafChange.trimmed (h : LeafChange roots pm va e mem mem')
    (hold : ∀ f, entryNode e = some f → entryNode (leafWord mem pm va) = some f) :
    Trimmed roots pm mem mem' := by
  refine ⟨fun r p n hr hp hn => ?_,h.wrote⟩
  by_cases hs : r = pm ∧ p = tablePath va++[ptIdx va]
  · rw [(h.paths r p hr hp).1 hs] at hn
    rw [hs.1,hs.2,follow_leaf]
    exact hold n hn
  · rw [(h.paths r p hr hp).2 hs] at hn
    exact hn

theorem Trimmed.evolves {mem' : PhysMem} (h : Trimmed roots pm m.mem mem') :
    Evolves roots pm m { m with mem := mem' } :=
  ⟨fun r p n hr hp hn => Or.inl (h.fewer r p n hr hp hn),fun n i hne => Or.inl (h.wrote n i hne),
    fun _ hn => hn,rfl,rfl⟩

/-- Pages outside the tables may change at will. -/
theorem Owned.other_pages (h : Owned roots m)
    (hsame : ∀ r n i, roots r → TableSlot m.mem r n i → mem' n i = m.mem n i) :
    Owned roots { m with mem := mem' } ∧
    (∀ r p, roots r → LowerPath p → follow entryNode mem' r p = follow entryNode m.mem r p) ∧
    (∀ r p i, roots r → LowerPath (p++[i]) → entryAt mem' r p i = entryAt m.mem r p i) := by
  obtain ⟨ht,hfol,hent⟩ := h.tables.congr hsame
  refine ⟨⟨ht,fun n hn => ?_,h.limit⟩,hfol,hent⟩
  obtain ⟨r,p,hr,hp,hf⟩ := hn
  exact h.held n ⟨r,p,hr,hp,hfol r p hr hp ▸ hf⟩

/-- `vmm_map` of a frame of one's own that is in no tree, with the room it takes. -/
theorem vmmMap_fresh_exact (h : Owned roots m) (hr : roots pm) {virt : BitVec 64} (hva : LowerHalf virt)
    {f : Nat} (hheld : m.pmm.Held f) (hnew : ¬UserNode roots m.mem f) (flags : BitVec 64) :
    ∃ m1, Owned roots m1 ∧ Grown roots pm m m1 ∧ ¬UserNode roots m1.mem f ∧ m1.pmm.Held f ∧
      ((m.pmm.room < (missingTables m.mem pm [virt]).card ∧ m1.pmm.room = 0 ∧
        vmmMap m (some pm) virt (pageAddr f) flags = (-1,m1)) ∨
       m1.pmm.room+(missingTables m.mem pm [virt]).card = m.pmm.room ∧
       (∀ r q, roots r → LowerPath q → ¬(r = pm ∧ q ∈ tableSlots virt) →
          follow entryNode m1.mem r q = follow entryNode m.mem r q) ∧
       (∃ pt, follow entryNode m1.mem pm (tablePath virt) = some pt) ∧
       ∃ mem', LeafChange roots pm virt (leafEntry (pageAddr f) flags) m1.mem mem' ∧
        Owned roots { m1 with mem := mem' } ∧
        vmmMap m (some pm) virt (pageAddr f) flags = (0,{ m1 with mem := mem' })) := by
  obtain ⟨m1,ho,hg,hcase⟩ := vmmMap_exact h hr hva (pageAddr f) flags
  have hlt : f < frameLimit := lt_of_lt_of_le hheld.1 h.limit
  have hheld1 : m1.pmm.Held f := ⟨hg.total ▸ hheld.1,(hg.bits f).mpr (Or.inl hheld.2)⟩
  have hnew1 : ¬UserNode roots m1.mem f := by
    intro hn
    obtain ⟨r,p,hr',hp,hf⟩ := hn
    cases hg.fresh r p f hr' hp hf with
    | inl hold => exact hnew ⟨r,p,hr',hp,hold⟩
    | inr hfree => exact hheld.not_free hfree
  refine ⟨m1,ho,hg,hnew1,hheld1,?_⟩
  cases hcase with
  | inl hfail => exact Or.inl hfail
  | inr hok =>
    obtain ⟨hroom,hother,pt,hpt,hres⟩ := hok
    have hnode : ∀ g, entryNode (leafEntry (pageAddr f) flags) = some g → g = f := by
      intro g hg'
      have hfr := (entryNode_eq_some hg').2
      rw [framePage_leafEntry hlt] at hfr
      exact hfr.symm
    have hch := ho.tables.leafChange hr hva hpt (fun _ => ⟨f,flags,hlt,rfl⟩)
      (fun g hg' => Or.inl (hnode g hg' ▸ hnew1))
    refine Or.inr ⟨hroom,hother,⟨pt,hpt⟩,_,hch,⟨hch.tables,fun n hn => ?_,ho.limit⟩,hres⟩
    cases (hch.nodes n).mp hn with
    | inl he => exact hnode n he ▸ hheld1
    | inr hkept => exact ho.held n hkept.1

theorem vmmMap_fresh (h : Owned roots m) (hr : roots pm) {virt : BitVec 64} (hva : LowerHalf virt)
    {f : Nat} (hheld : m.pmm.Held f) (hnew : ¬UserNode roots m.mem f) (flags : BitVec 64) :
    ∃ m1, Owned roots m1 ∧ Grown roots pm m m1 ∧ ¬UserNode roots m1.mem f ∧ m1.pmm.Held f ∧
      (vmmMap m (some pm) virt (pageAddr f) flags = (-1,m1) ∨
       ∃ mem', LeafChange roots pm virt (leafEntry (pageAddr f) flags) m1.mem mem' ∧
        Owned roots { m1 with mem := mem' } ∧
        vmmMap m (some pm) virt (pageAddr f) flags = (0,{ m1 with mem := mem' })) := by
  obtain ⟨m1,ho,hg,hnew1,hheld1,⟨-,-,hfail⟩ | ⟨-,-,-,hok⟩⟩ :=
    vmmMap_fresh_exact h hr hva hheld hnew flags
  · exact ⟨m1,ho,hg,hnew1,hheld1,Or.inl hfail⟩
  · exact ⟨m1,ho,hg,hnew1,hheld1,Or.inr hok⟩

/-- The loop of `vmm_protect` over lower-half pages keeps the trees; with a present flag it keeps
every node. -/
theorem protectPages_trimmed (flags : BitVec 64) (hr : roots pm) (pages : List (BitVec 64))
    (hl : ∀ page ∈ pages, LowerHalf page) (h : UserTables roots mem) :
    UserTables roots (protectPages pm flags pages mem).2 ∧
    Trimmed roots pm mem (protectPages pm flags pages mem).2 ∧
    (has flags vmmPresent = true → ∀ n, UserNode roots mem n →
      UserNode roots (protectPages pm flags pages mem).2 n) := by
  induction pages generalizing mem with
  | nil => exact ⟨h,Trimmed.refl roots pm mem,fun _ _ hn => hn⟩
  | cons page rest ih =>
    have hva := hl page (by simp)
    have hstop : UserTables roots mem ∧ Trimmed roots pm mem mem ∧
        (has flags vmmPresent = true → ∀ n, UserNode roots mem n → UserNode roots mem n) :=
      ⟨h,Trimmed.refl roots pm mem,fun _ _ hn => hn⟩
    rw [protectPages,h.ptSlot_present hr hva]
    cases hpt : follow entryNode mem pm (tablePath page) with
    | none => exact hstop
    | some pt =>
      simp only [Option.map_some]
      have hword : leafWord mem pm page = mem pt (ptIdx page) := entryAt_table hpt (ptIdx page)
      by_cases hpres : present (mem pt (ptIdx page)) = true
      · rw [if_pos hpres,protect_entry]
        have hlt := framePage_lt (mem pt (ptIdx page))
        have hold : ∀ g, entryNode (leafEntry (pageAddr (framePage (mem pt (ptIdx page)))) flags) =
            some g → entryNode (leafWord mem pm page) = some g := by
          intro g hg
          have hfr := (entryNode_eq_some hg).2
          rw [framePage_leafEntry hlt] at hfr
          rw [hword,entryNode_present hpres,hfr]
        have hch := h.leafChange hr hva hpt (fun _ => ⟨_,flags,hlt,rfl⟩)
          (fun g hg => Or.inr (hold g hg))
        obtain ⟨h1,h2,h3⟩ := ih (fun q hq => hl q (by simp [hq])) hch.tables
        refine ⟨h1,(hch.trimmed hold).trans hr h2,fun hp n hn => h3 hp n ((hch.nodes n).mpr ?_)⟩
        by_cases hg : entryNode (leafWord mem pm page) = some n
        · left
          rw [hword] at hg
          have hfr := (entryNode_eq_some hg).2
          rw [entryNode,(leafEntry_flags hlt flags).1,if_pos hp,framePage_leafEntry hlt,hfr]
        · exact Or.inr ⟨hn,hg⟩
      · rw [if_neg hpres]
        exact hstop

/-- One turn of `vmm_unmap_range` on a lower-half page. -/
theorem unmapPage_cases (freePhys : Bool) (h : Owned roots m) (hr : roots pm) {page : BitVec 64}
    (hva : LowerHalf page) :
    (present (leafWord m.mem pm page) = false ∧ unmapPage freePhys pm m page = m) ∨
    (∃ f mem', entryNode (leafWord m.mem pm page) = some f ∧
      LeafChange roots pm page 0#64 m.mem mem' ∧ unmapPage freePhys pm m page =
        { m with
          pmm := if freePhys then pmmFreePage m.pmm (leafWord m.mem pm page &&& vmmPhysMask)
            else m.pmm
          mem := mem' }) := by
  rw [unmapPage,h.tables.ptSlot_present hr hva]
  cases hpt : follow entryNode m.mem pm (tablePath page) with
  | none =>
    left
    rw [leafWord,entryAt,slotAt,hpt]
    exact ⟨by simp,rfl⟩
  | some pt =>
    simp only [Option.map_some]
    have hword : leafWord m.mem pm page = m.mem pt (ptIdx page) := entryAt_table hpt (ptIdx page)
    rw [hword]
    by_cases hpres : present (m.mem pt (ptIdx page)) = true
    · right
      rw [if_pos hpres]
      have hch := h.tables.leafChange (e := 0#64) hr hva hpt (fun hz => by simp at hz)
        (fun g hg => by simp at hg)
      exact ⟨_,_,entryNode_present hpres,hch,rfl⟩
    · left
      rw [if_neg hpres]
      exact ⟨by simpa using hpres,rfl⟩

/-- A held page given back becomes free, the others stay. -/
theorem gives_one {p p' : Pmm} {f : Nat} (h : Pmm.Gives p p' f 1) (hf : p.Held f) :
    p'.Free f ∧ ∀ n, p'.bmGet n = true ↔ p.bmGet n = true ∧ n ≠ f := by
  have hheld : ∀ n, n ∈ p.held f 1 ↔ n = f := by
    intro n
    rw [Pmm.mem_held]
    constructor
    · intro hn
      omega
    · intro hn
      subst hn
      exact ⟨⟨le_refl n,by omega⟩,hf⟩
  have hbits : ∀ n, p'.bmGet n = true ↔ p.bmGet n = true ∧ n ≠ f := by
    intro n
    rw [h.bits,Bool.and_eq_true,Bool.not_eq_true',decide_eq_false_iff_not,hheld]
  refine ⟨⟨h.total ▸ hf.1,?_⟩,hbits⟩
  cases hb : p'.bmGet f with
  | false => rfl
  | true => exact absurd rfl ((hbits f).mp hb).2

/-- What unmapping lower-half pages of `pm` does: frames leave the tree, and with `freePhys` they
become free. -/
structure Unmaps (roots : Nat → Prop) (pm : Nat) (freePhys : Bool) (m m' : Machine) : Prop where
  owned : Owned roots m'
  trimmed : Trimmed roots pm m.mem m'.mem
  free : ∀ n, m'.pmm.Free n → m.pmm.Free n ∨ (UserNode roots m.mem n ∧ ¬UserNode roots m'.mem n)
  bits : ∀ n, m'.pmm.bmGet n = true → m.pmm.bmGet n = true
  kept : ∀ n, m.pmm.bmGet n = true → ¬UserNode roots m.mem n → m'.pmm.bmGet n = true
  freed : freePhys = true → ∀ n, UserNode roots m.mem n → ¬UserNode roots m'.mem n →
    m'.pmm.bmGet n = false
  counted : m.pmm.Counted → m'.pmm.Counted
  total : m'.pmm.totalPages = m.pmm.totalPages
  cr3 : m'.cr3 = m.cr3

theorem Unmaps.refl (h : Owned roots m) (pm : Nat) (freePhys : Bool) :
    Unmaps roots pm freePhys m m :=
  { owned := h
    trimmed := Trimmed.refl roots pm m.mem
    free := fun _ hn => Or.inl hn
    bits := fun _ hn => hn
    kept := fun _ hn _ => hn
    freed := fun _ _ hn hn' => absurd hn hn'
    counted := id
    total := rfl
    cr3 := rfl }

theorem Unmaps.trans {freePhys : Bool} {m'' : Machine} (hr : roots pm)
    (h1 : Unmaps roots pm freePhys m m') (h2 : Unmaps roots pm freePhys m' m'') :
    Unmaps roots pm freePhys m m'' where
  owned := h2.owned
  trimmed := h1.trimmed.trans hr h2.trimmed
  free := by
    intro n hn
    cases h2.free n hn with
    | inr hlost => exact Or.inr ⟨h1.trimmed.node hlost.1,hlost.2⟩
    | inl hfree =>
      cases h1.free n hfree with
      | inl hold => exact Or.inl hold
      | inr hlost => exact Or.inr ⟨hlost.1,fun hh => hlost.2 (h2.trimmed.node hh)⟩
  bits := fun n hn => h1.bits n (h2.bits n hn)
  kept := fun n hn hout => h2.kept n (h1.kept n hn hout) (fun hh => hout (h1.trimmed.node hh))
  freed := by
    intro hfp n hn hout
    by_cases hmid : UserNode roots m'.mem n
    · exact h2.freed hfp n hmid hout
    · have hlow := h1.freed hfp n hn hmid
      cases hb : m''.pmm.bmGet n with
      | false => rfl
      | true =>
        rw [h2.bits n hb] at hlow
        exact hlow
  counted := fun h => h2.counted (h1.counted h)
  total := h2.total.trans h1.total
  cr3 := h2.cr3.trans h1.cr3

theorem unmapPage_unmaps (freePhys : Bool) (h : Owned roots m) (hr : roots pm)
    {page : BitVec 64} (hva : LowerHalf page) :
    Unmaps roots pm freePhys m (unmapPage freePhys pm m page) := by
  cases unmapPage_cases freePhys h hr hva with
  | inl hno =>
    rw [hno.2]
    exact Unmaps.refl h pm freePhys
  | inr hyes =>
    obtain ⟨f,mem',hleaf,hch,hres⟩ := hyes
    have hnode : UserNode roots m.mem f :=
      ⟨pm,_,hr,lowerPath_va hva,(follow_leaf m.mem pm page).trans hleaf⟩
    have hheld := h.held f hnode
    have htrim := hch.trimmed (fun g hg => by simp at hg)
    have hnodes : ∀ n, UserNode roots mem' n ↔ UserNode roots m.mem n ∧ n ≠ f := by
      intro n
      rw [hch.nodes n,hleaf]
      simp [eq_comm]
    rw [hres]
    cases freePhys with
    | false =>
      exact { owned := ⟨hch.tables,fun n hn => h.held n (htrim.node hn),h.limit⟩
              trimmed := htrim
              free := fun _ hn => Or.inl hn
              bits := fun _ hn => hn
              kept := fun _ hn _ => hn
              freed := fun hf => Bool.noConfusion hf
              counted := id
              total := rfl
              cr3 := rfl }
    | true =>
      have hgives := pmmFreePage_gives m.pmm (leafWord m.mem pm page &&& vmmPhysMask)
      have hpage : pageOf (leafWord m.mem pm page &&& vmmPhysMask) = f :=
        (entryNode_eq_some hleaf).2
      rw [hpage] at hgives
      simp only [if_true]
      generalize pmmFreePage m.pmm (leafWord m.mem pm page &&& vmmPhysMask) = pmm at hgives
      obtain ⟨-,hbits⟩ := gives_one hgives hheld
      have hlow : ∀ n, UserNode roots m.mem n → ¬UserNode roots mem' n → n = f := by
        intro n hn hout
        by_contra hne
        exact hout ((hnodes n).mpr ⟨hn,hne⟩)
      exact {
        owned := by
          refine ⟨hch.tables,fun n hn => ?_,?_⟩
          · have hold := h.held n (htrim.node hn)
            exact ⟨hgives.total ▸ hold.1,(hbits n).mpr ⟨hold.2,((hnodes n).mp hn).2⟩⟩
          · show pmm.totalPages ≤ frameLimit
            rw [hgives.total]
            exact h.limit
        trimmed := htrim
        free := by
          intro n hn
          by_cases hne : n = f
          · subst hne
            exact Or.inr ⟨hnode,fun hh => ((hnodes n).mp hh).2 rfl⟩
          · left
            refine ⟨hgives.total ▸ hn.1,?_⟩
            cases hb : m.pmm.bmGet n with
            | false => rfl
            | true => exact (hn.2.symm.trans ((hbits n).mpr ⟨hb,hne⟩)).symm
        bits := fun n hn => ((hbits n).mp hn).1
        kept := fun n hn hout => (hbits n).mpr ⟨hn,fun he => hout (he ▸ hnode)⟩
        freed := by
          intro _ n hn hout
          have he := hlow n hn hout
          cases hb : pmm.bmGet n with
          | false => rfl
          | true => exact absurd he ((hbits n).mp hb).2
        counted := hgives.counted
        total := hgives.total
        cr3 := rfl }

/-- The loop of `vmm_unmap_range` over lower-half pages. -/
theorem unmapPages_unmaps (freePhys : Bool) (hr : roots pm) (pages : List (BitVec 64))
    (hl : ∀ page ∈ pages, LowerHalf page) (h : Owned roots m) :
    Unmaps roots pm freePhys m (pages.foldl (unmapPage freePhys pm) m) := by
  induction pages generalizing m with
  | nil => exact Unmaps.refl h pm freePhys
  | cons page rest ih =>
    have h1 := unmapPage_unmaps freePhys h hr (hl page (by simp))
    exact h1.trans hr (ih (fun q hq => hl q (by simp [hq])) h1.owned)

end KiNBOL
