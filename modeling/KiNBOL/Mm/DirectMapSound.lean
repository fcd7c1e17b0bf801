import KiNBOL.Mm.DirectMap

namespace KiNBOL

variable {hhdm va : BitVec 64} {N pm i : Nat} {m m₁ m' : Machine} {done : Nat → Prop}
  {q : List (Fin 512)} {j : Fin 512}

/-- An absent entry has nothing below it. -/
theorem tblAt_absent {mem : PhysMem} (h : present (tblAt mem pm q j) = false) (k : Fin 512) :
    tblAt mem pm (q++[j]) k = 0#64 :=
  tblAt_missing ((follow_tblAt mem pm q j).trans (tblNode_absent h)) k

/-- Bit 7 of the PML4 entries stays clear, so the walk reads the tree. -/
theorem Laid.walk (hl : Laid hhdm N pm m₁ done m) (hs : DirectStart hhdm N pm m₁) (va : BitVec 64) :
    hwWalk m.mem pm va = treeWalk (tblAt m.mem pm) va := by
  apply hwWalk_tree
  intro hpres
  have hentry : m.mem pm (pml4Idx va) = tblAt m.mem pm [] (pml4Idx va) := rfl
  rw [hentry] at hpres ⊢
  cases hl.upper [] (pml4Idx va) (by simp) with
  | inl hold =>
    rw [hold] at hpres ⊢
    exact hs.top _ hpres
  | inr hnew =>
    obtain ⟨-,f,-,he⟩ := hnew
    rw [he]
    exact (kernelEntry_flags f).2.2

/-- The entries above a 2 MiB entry of the direct map, and what the walk makes of them. -/
theorem Laid.walk_direct (hl : Laid hhdm N pm m₁ done m) (hs : DirectStart hhdm N pm m₁)
    (hi : done i) (hN : N ≤ 2^27) (hsmall : ¬InLarge m₁.mem pm (hhdmVirt hhdm i))
    (hva : tablePath va = tablePath (hhdmVirt hhdm i)) :
    hwWalk m.mem pm va = some (xlat (i*512+pageOf va%2^9) [tblAt m.mem pm [] (pml4Idx va),
      pdptEntry m.mem pm va,largeEntry (hhdmPhys i)]) ∧
    present (tblAt m.mem pm [] (pml4Idx va)) = true ∧ present (pdptEntry m.mem pm va) = true := by
  have hidx : pml4Idx (hhdmVirt hhdm i) = pml4Idx va ∧ pdptIdx (hhdmVirt hhdm i) = pdptIdx va ∧
      pdIdx (hhdmVirt hhdm i) = pdIdx va := by
    simp only [tablePath,List.cons.injEq] at hva
    exact ⟨hva.1.symm,hva.2.1.symm,hva.2.2.1.symm⟩
  have hlaid := hl.laid i hi hsmall
  rw [hidx.1,hidx.2.1,hidx.2.2] at hlaid
  have hiN := hl.range i hi
  have hlt : i*512 < frameLimit := by
    rw [frameLimit]
    omega
  have hflags := largeEntry_flags (i*512)
  have hframe := framePage_largeEntry hlt
  rw [← hhdmPhys_addr] at hflags hframe
  have hpd : ∃ n, follow tblNode m.mem pm [pml4Idx va,pdptIdx va] = some n := by
    cases hn : follow tblNode m.mem pm [pml4Idx va,pdptIdx va] with
    | some n => exact ⟨n,rfl⟩
    | none =>
      rw [tblAt_missing hn] at hlaid
      rw [← hlaid,present_zero] at hflags
      exact Bool.noConfusion hflags.1
  obtain ⟨n,hn⟩ := hpd
  obtain ⟨t,ht,-⟩ := follow_prefix (p := [pml4Idx va]) (q := [pdptIdx va]) hn
  have c1 := tblNode_eq_some ((follow_tblAt m.mem pm [] (pml4Idx va)).symm.trans ht)
  have c2 := tblNode_eq_some ((follow_tblAt m.mem pm [pml4Idx va] (pdptIdx va)).symm.trans hn)
  refine ⟨?_,c1.1,c2.1⟩
  rw [hl.walk hs]
  simp only [treeWalk,hlaid,c1.1,c2.1,c2.2.1,hflags.1,hflags.2.2,hframe,pdptEntry,Bool.not_true,
    Bool.false_eq_true,if_false,if_true]
  rw [show i*512/2^9*2^9 = i*512 by omega]

/-- Other addresses translate as at the start. -/
theorem Laid.walk_other (hl : Laid hhdm N pm m₁ done m)
    (hother : ∀ i, done i → tablePath (hhdmVirt hhdm i) ≠ tablePath va) :
    treeWalk (tblAt m.mem pm) va = treeWalk (tblAt m₁.mem pm) va := by
  have hpd : tblAt m.mem pm [pml4Idx va,pdptIdx va] (pdIdx va) =
      tblAt m₁.mem pm [pml4Idx va,pdptIdx va] (pdIdx va) := by
    apply hl.kept _ _ (by simp) (by simp)
    intro i hi hpre
    exact hother i hi (hpre.eq_of_length (by simp [tablePath]))
  have hpt : tblAt m.mem pm (tablePath va) (ptIdx va) = tblAt m₁.mem pm (tablePath va) (ptIdx va) := by
    apply hl.kept _ _ (by simp [tablePath]) (by simp [tablePath])
    intro i hi hpre
    have hpre' := List.prefix_of_prefix_length_le hpre (List.prefix_append _ _) (by simp [tablePath])
    exact hother i hi (hpre'.eq_of_length (by simp [tablePath]))
  have hnone : ∀ k, present (tblAt m₁.mem pm [pml4Idx va] (pdptIdx va)) = false →
      tblAt m₁.mem pm [pml4Idx va,pdptIdx va] k = 0#64 :=
    fun k h => tblAt_absent h k
  have hnew : ∀ f, f < frameLimit → present (kernelEntry (pageAddr f)) = true ∧
      has (kernelEntry (pageAddr f)) vmmHuge = false :=
    fun f _ => ⟨(kernelEntry_flags f).1,(kernelEntry_flags f).2.2⟩
  simp only [treeWalk,hpd,hpt]
  cases hl.upper [] (pml4Idx va) (by simp) with
  | inl h1 =>
    rw [h1]
    cases hl.upper [pml4Idx va] (pdptIdx va) (by simp) with
    | inl h2 => rw [h2]
    | inr h2 =>
      obtain ⟨habs,f,hf,h2⟩ := h2
      rw [h2,habs,hnone _ habs,(hnew f hf).1,(hnew f hf).2,present_zero]
      simp
  | inr h1 =>
    -- a new PDPT: nothing was there, and what it holds has been put in since
    obtain ⟨habs,f,hf,h1⟩ := h1
    have hz : tblAt m₁.mem pm [pml4Idx va] (pdptIdx va) = 0#64 := tblAt_absent habs (pdptIdx va)
    have hz2 := hnone (pdIdx va) (by rw [hz,present_zero])
    rw [h1,habs,hz2,(hnew f hf).1]
    cases hl.upper [pml4Idx va] (pdptIdx va) (by simp) with
    | inl h2 =>
      rw [h2,hz,present_zero]
      simp
    | inr h2 =>
      obtain ⟨-,g,hg,h2⟩ := h2
      rw [h2,(hnew g hg).1,(hnew g hg).2,present_zero]
      simp

/-- What `vmm_create_pagemap` makes of the boot loader's tables: a root of its own over the same
upper half. -/
structure Copied (m : Machine) (f : Nat) (m₁ : Machine) : Prop where
  free : m.pmm.Free f
  takes : Pmm.Takes m.pmm m₁.pmm f 1
  highest : m₁.pmm.highestPhys = m.pmm.highestPhys
  root : ∀ i, m₁.mem f i = if 256 ≤ i.val then m.mem m.cr3 i else 0#64
  other : ∀ n, n ≠ f → m₁.mem n = m.mem n

theorem vmmCreatePagemap_highest (m : Machine) :
    (vmmCreatePagemap m).2.pmm.highestPhys = m.pmm.highestPhys := by
  have halloc : (pmmAllocPage m.pmm).2.highestPhys = m.pmm.highestPhys := by
    unfold pmmAllocPage
    split <;> rfl
  unfold vmmCreatePagemap allocTable
  cases h : pmmAllocPage m.pmm with
  | mk a pmm =>
    rw [h] at halloc
    cases a with
    | none => exact halloc
    | some a => exact halloc

theorem vmmCreatePagemap_copied (hb : BootTables m) (h : vmmCreatePagemap m = (some pm,m₁)) :
    Copied m pm m₁ := by
  cases vmmCreatePagemap_cases (Owned.none m hb.tables.limit) with
  | inl hno =>
    rw [hno] at h
    simp at h
  | inr hyes =>
    obtain ⟨f,m',hres,hfree,ht,-,-,-,hmem⟩ := hyes
    have hhigh := vmmCreatePagemap_highest m
    rw [h,Prod.mk.injEq,Option.some.injEq] at hres
    obtain ⟨rfl,rfl⟩ := hres
    rw [h] at hhigh
    have hcr3 : m.cr3 ≠ pm := by
      intro he
      exact hb.tables.held [] m.cr3 ⟨by simp,by simp⟩ rfl (he ▸ hfree)
    refine ⟨hfree,ht,hhigh,fun i => ?_,fun n hn => ?_⟩
    · rw [hmem,if_pos rfl,zeroPage_other hcr3]
    · funext i
      rw [hmem,if_neg hn]

namespace Copied

variable {f : Nat}

theorem cr3_ne (hc : Copied m f m₁) (hb : BootTables m) : m.cr3 ≠ f := by
  intro he
  exact hb.tables.held [] m.cr3 ⟨by simp,by simp⟩ rfl (he ▸ hc.free)

/-- The tables of the upper half are reached from either root. -/
theorem follow_upper (hc : Copied m f m₁) (hb : BootTables m) (hq : UpperPath (j::q)) :
    follow tblNode m₁.mem f (j::q) = follow tblNode m.mem m.cr3 (j::q) := by
  have hj : 256 ≤ j.val := hq.2 j (by simp)
  have hslots : ∀ r p i n, r = m.cr3 → UpperPath (p++[i]) → follow tblNode m.mem r p = some n →
      m₁.mem n i = m.mem n i := by
    intro r p i n hr hp hn
    rw [hc.other n]
    intro he
    exact hb.tables.held p n (hb.tables.forest.closed p [i] hp) (hr ▸ hn) (he ▸ hc.free)
  have hsame := follow_congr hb.tables.forest hslots m.cr3 (j::q) rfl hq
  rw [← hsame,follow_cons,follow_cons,hc.root,if_pos hj,hc.other m.cr3 (hc.cr3_ne hb)]

/-- The lower half is empty. -/
theorem follow_lower (hc : Copied m f m₁) (hj : ¬256 ≤ j.val) :
    follow tblNode m₁.mem f (j::q) = none := by
  rw [follow_cons,hc.root,if_neg hj,tblNode_zero]
  rfl

theorem tblAt_root (hc : Copied m f m₁) (j : Fin 512) :
    tblAt m₁.mem f [] j = if 256 ≤ j.val then tblAt m.mem m.cr3 [] j else 0#64 := hc.root j

theorem follow_some {n : Nat} (hc : Copied m f m₁) (hb : BootTables m) (hq : ShortPath (j::q))
    (hn : follow tblNode m₁.mem f (j::q) = some n) :
    UpperPath (j::q) ∧ follow tblNode m.mem m.cr3 (j::q) = some n := by
  by_cases hj : 256 ≤ j.val
  · have hup : UpperPath (j::q) := ⟨hq,fun i hi => by
      rw [List.head?_cons,Option.mem_some_iff] at hi
      exact hi ▸ hj⟩
    exact ⟨hup,(hc.follow_upper hb hup).symm.trans hn⟩
  · rw [hc.follow_lower hj] at hn
    simp at hn

/-- An entry below the root is the boot loader's, or there is none. -/
theorem tblAt_upper (hc : Copied m f m₁) (hb : BootTables m) (hq : UpperPath (j::q)) (k : Fin 512) :
    tblAt m₁.mem f (j::q) k = tblAt m.mem m.cr3 (j::q) k := by
  rw [tblAt,tblAt,slotAt,slotAt,hc.follow_upper hb hq]
  cases hn : follow tblNode m.mem m.cr3 (j::q) with
  | none => rfl
  | some n =>
    have hne : n ≠ f := fun he => hb.tables.held _ n hq hn (he ▸ hc.free)
    rw [Option.map_some,Option.map_some,hc.other n hne]

theorem tables (hc : Copied m f m₁) (hb : BootTables m) : Tables ShortPath f m₁ := by
  have hnode : ∀ q n, ShortPath q → follow tblNode m₁.mem f q = some n →
      q = [] ∧ n = f ∨ n ≠ f ∧ UpperPath q ∧ follow tblNode m.mem m.cr3 q = some n := by
    intro q n hq hn
    cases q with
    | nil => exact Or.inl ⟨rfl,by simpa using hn.symm⟩
    | cons j q =>
      obtain ⟨hup,hn'⟩ := hc.follow_some hb hq hn
      exact Or.inr ⟨fun he => hb.tables.held _ n hup hn' (he ▸ hc.free),hup,hn'⟩
  refine ⟨⟨shortPath_closed,fun r r' p q n hr hr' hp hq h1 h2 => ?_⟩,fun q n hq hn => ?_,
    hc.takes.total.le.trans hb.tables.limit⟩
  · subst hr hr'
    refine ⟨rfl,?_⟩
    cases hnode p n hp h1 with
    | inl h1 =>
      cases hnode q n hq h2 with
      | inl h2 => exact h1.1.trans h2.1.symm
      | inr h2 => exact absurd h1.2 h2.1
    | inr h1 =>
      cases hnode q n hq h2 with
      | inl h2 => exact absurd h2.2 h1.1
      | inr h2 => exact (hb.tables.forest.unique _ _ p q n rfl rfl h1.2.1 h2.2.1 h1.2.2 h2.2.2).2
  · cases hnode q n hq hn with
    | inl h => exact h.2 ▸ (takes_one hc.takes).2.1.not_free
    | inr h =>
      intro hfree
      exact hb.tables.held q n h.2.1 h.2.2 ((hc.takes.free_iff n).mp hfree).1

end Copied

/-- `x & ~0x1FFFFFULL` rounds down to 2 MiB. -/
theorem toNat_largeMask (x : BitVec 64) :
    (x &&& ~~~0x1FFFFF#64).toNat = x.toNat/0x200000*0x200000 := by
  have hmask : ∀ i : Fin 64, (~~~0x1FFFFF#64).getLsbD i = decide (21 ≤ i.val) := by decide
  have hshift : x &&& ~~~0x1FFFFF#64 = (x >>> 21) <<< 21 := by
    apply BitVec.eq_of_getLsbD_eq
    intro i hi
    rw [BitVec.getLsbD_and,hmask ⟨i,hi⟩,BitVec.getLsbD_shiftLeft,BitVec.getLsbD_ushiftRight]
    by_cases h : 21 ≤ i
    · rw [show 21+(i-21) = i by omega]
      simp [h,hi]
    · simp [h,show i < 21 by omega]
  have hlt := x.isLt
  rw [hshift,BitVec.toNat_shiftLeft,BitVec.toNat_ushiftRight,Nat.shiftLeft_eq,
    Nat.shiftRight_eq_div_pow]
  omega

/-- A direct map that fits has its exact count of 2 MiB pages. -/
theorem hhdmPages_bytes {highest : BitVec 64} (h : directBytes highest ≤ 2^48) :
    hhdmPages highest*2^21 = directBytes highest ∧ 2048 ≤ hhdmPages highest := by
  have hsum : (highest+0x1FFFFF#64).toNat = highest.toNat+0x1FFFFF := by
    rw [BitVec.toNat_add,BitVec.toNat_ofNat]
    simp only [directBytes] at h
    omega
  have hround : ((highest+0x1FFFFF#64) &&& ~~~0x1FFFFF#64).toNat =
      (highest.toNat+0x1FFFFF)/0x200000*0x200000 := by
    rw [toNat_largeMask,hsum]
  have hlt : (highest+0x1FFFFF#64) &&& ~~~0x1FFFFF#64 < 0x100000000#64 ↔
      (highest.toNat+0x1FFFFF)/0x200000*0x200000 < 2^32 := by
    rw [BitVec.lt_def,hround]
    simp
  have hdiv : ∀ x : BitVec 64, (x/0x200000#64).toNat = x.toNat/0x200000 := fun x => by
    rw [BitVec.toNat_udiv]
    simp
  rw [directBytes] at h ⊢
  rw [hhdmPages,hdiv]
  split
  · next hs =>
    have h32 := hlt.mp hs
    rw [show (0x100000000#64).toNat = 2^32 from rfl]
    omega
  · next hs =>
    have h32 : ¬(highest.toNat+0x1FFFFF)/0x200000*0x200000 < 2^32 := fun hh => hs (hlt.mpr hh)
    rw [hround]
    omega

/-- The start of a region is canonical when the direct map fits. -/
theorem hhdmVirt_canonical (hh : KernelHalf hhdm) (hfit : hhdm.toNat+N*2^21 ≤ 2^64+2^47) (hi : i < N) :
    LowerHalf (hhdmVirt hhdm i) ∨ KernelHalf (hhdmVirt hhdm i) := by
  rw [LowerHalf,KernelHalf,hhdmVirt_toNat]
  rw [KernelHalf] at hh
  omega

namespace Copied

variable {f : Nat}

theorem pdptEntry_eq (hc : Copied m f m₁) (hb : BootTables m) (hva : LowerHalf va ∨ KernelHalf va) :
    pdptEntry m₁.mem f va = if KernelHalf va then pdptEntry m.mem m.cr3 va else 0#64 := by
  rw [pdptEntry]
  split
  · next hk =>
    apply hc.tblAt_upper hb
    refine ⟨by simp,fun i hi => ?_⟩
    rw [List.head?_cons,Option.mem_some_iff] at hi
    exact hi ▸ pml4Idx_kernel hk
  · next hk =>
    have hlow := pml4Idx_lower (hva.resolve_right hk)
    exact tblAt_missing (hc.follow_lower (by omega)) _

theorem inLarge_iff (hc : Copied m f m₁) (hb : BootTables m)
    (hva : LowerHalf (hhdmVirt hhdm i) ∨ KernelHalf (hhdmVirt hhdm i)) :
    InLarge m₁.mem f (hhdmVirt hhdm i) ↔ BootLarge m hhdm i := by
  rw [InLarge,BootLarge,hc.pdptEntry_eq hb hva]
  split
  · next hk => exact ⟨fun h => ⟨hk,h⟩,fun h => h.2⟩
  · next hk =>
    rw [present_zero]
    exact iff_of_false (fun h => Bool.noConfusion h.1) (fun h => hk h.1)

theorem page_table {n : Nat} (hc : Copied m f m₁) (hb : BootTables m) (hq : ShortPath q)
    (hn : follow tblNode m₁.mem f q = some n) : n = f ∨ IsPageTable m.mem m.cr3 n := by
  cases q with
  | nil => exact Or.inl (by simpa using hn.symm)
  | cons j q => exact Or.inr ⟨j::q,hq,(hc.follow_some hb hq hn).2⟩

/-- What the loop starts from. -/
theorem start (hc : Copied m f m₁) (hb : BootTables m) (hh : KernelHalf hhdm)
    (ha : hhdm.toNat%2^21 = 0) (hfit : hhdm.toNat+N*2^21 ≤ 2^64+2^47)
    (hdata : ∀ i, i < N → BootLarge m hhdm i → ¬IsPageTable m.mem m.cr3 (pageOf (bootEntry m hhdm i)) ∧
      ¬m.pmm.Free (pageOf (bootEntry m hhdm i))) : DirectStart hhdm N f m₁ := by
  refine ⟨hc.tables hb,fun q j n hq hn => ?_,fun j hp => ?_,fun i k hi hk hpath => ?_,
    fun i hi hlarge => ?_⟩
  · cases q with
    | nil =>
      rw [hc.tblAt_root] at hn ⊢
      by_cases hj : 256 ≤ j.val
      · rw [if_pos hj] at hn ⊢
        exact hb.plain [] j n ⟨by simp,by simpa using hj⟩ hn
      · rw [if_neg hj,tblNode_zero] at hn
        simp at hn
    | cons a q =>
      have hqn : q = [] := by
        rw [List.length_cons] at hq
        exact List.length_eq_zero_iff.mp (by omega)
      subst hqn
      by_cases haj : 256 ≤ a.val
      · rw [hc.tblAt_upper hb ⟨by simp,by simpa using haj⟩] at hn ⊢
        exact hb.plain [a] j n ⟨by simp,by simpa using haj⟩ hn
      · rw [tblAt_missing (hc.follow_lower haj),tblNode_zero] at hn
        simp at hn
  · rw [hc.root] at hp ⊢
    by_cases hj : 256 ≤ j.val
    · rw [if_pos hj] at hp ⊢
      exact hb.top j hj hp
    · rw [if_neg hj,present_zero] at hp
      exact Bool.noConfusion hp
  · rw [tablePath_eq_iff,hhdmVirt_toNat,hhdmVirt_toNat] at hpath
    rw [KernelHalf] at hh
    omega
  · have hva := hhdmVirt_canonical hh hfit hi
    have hboot := (hc.inLarge_iff hb hva).mp hlarge
    have hentry : pdptEntry m₁.mem f (hhdmVirt hhdm i) = bootEntry m hhdm i := by
      rw [hc.pdptEntry_eq hb hva,if_pos hboot.1]
      rfl
    obtain ⟨hno,hheld⟩ := hdata i hi hboot
    rw [hentry]
    refine ⟨fun q hq hn => ?_,fun hfree => hheld ((hc.takes.free_iff _).mp hfree).1⟩
    cases hc.page_table hb hq hn with
    | inl he => exact hheld (he ▸ hc.free)
    | inr ht => exact hno ht

end Copied

theorem pair_of_fst {α : Type} {r : Bool × α} (h : r.1 = true) : r = (true,r.2) := Prod.ext h rfl

theorem vmmInitApic_reached {p : Nat} (h : vmmInitApic m p hhdm = (some pm,m')) :
    p = pm ∧ ∃ m₃, mapLarge m p (apicPhys+hhdm) apicPhys = (true,m₃) ∧ m' = { m₃ with cr3 := p } := by
  unfold vmmInitApic at h
  by_cases hb : (mapLarge m p (apicPhys+hhdm) apicPhys).1 = true
  · rw [if_pos hb,Prod.mk.injEq,Option.some.injEq] at h
    exact ⟨h.1,(mapLarge m p (apicPhys+hhdm) apicPhys).2,pair_of_fst hb,h.2.symm⟩
  · rw [if_neg hb] at h
    simp at h

theorem vmmInitMap_reached {p : Nat} (h : vmmInitMap m p hhdm = (some pm,m')) :
    ∃ m₂, hhdmLoop p hhdm (List.range (hhdmPages m.pmm.highestPhys)) m = (true,m₂) ∧
      vmmInitApic m₂ p hhdm = (some pm,m') := by
  unfold vmmInitMap at h
  by_cases hb : (hhdmLoop p hhdm (List.range (hhdmPages m.pmm.highestPhys)) m).1 = true
  · rw [if_pos hb] at h
    exact ⟨(hhdmLoop p hhdm (List.range (hhdmPages m.pmm.highestPhys)) m).2,pair_of_fst hb,h⟩
  · rw [if_neg hb] at h
    simp at h

theorem vmmInit_reached (h : vmmInit m hhdm = (some pm,m')) :
    ∃ m₁ m₂ m₃, vmmCreatePagemap m = (some pm,m₁) ∧
      hhdmLoop pm hhdm (List.range (hhdmPages m₁.pmm.highestPhys)) m₁ = (true,m₂) ∧
      mapLarge m₂ pm (apicPhys+hhdm) apicPhys = (true,m₃) ∧ m' = { m₃ with cr3 := pm } := by
  unfold vmmInit at h
  generalize vmmCreatePagemap m = r at h ⊢
  obtain ⟨a,m₁⟩ := r
  cases a with
  | none => simp at h
  | some p =>
    obtain ⟨m₂,hloop,h⟩ := vmmInitMap_reached h
    obtain ⟨hp,m₃,hmap,hm⟩ := vmmInitApic_reached h
    subst hp
    exact ⟨m₁,m₂,m₃,rfl,hloop,hmap,hm⟩

/-- All regions are laid out when `vmm_init` reaches `vmm_switch`. -/
theorem vmmInit_laid (hb : BootTables m) (hh : KernelHalf hhdm) (ha : hhdm.toNat%2^21 = 0)
    (hfit : hhdm.toNat+directBytes m.pmm.highestPhys ≤ 2^64+2^47)
    (hdata : ∀ i, i < hhdmPages m.pmm.highestPhys → BootLarge m hhdm i →
      ¬IsPageTable m.mem m.cr3 (pageOf (bootEntry m hhdm i)) ∧
      ¬m.pmm.Free (pageOf (bootEntry m hhdm i)))
    (h : vmmInit m hhdm = (some pm,m')) :
    ∃ m₁, Copied m pm m₁ ∧ DirectStart hhdm (hhdmPages m.pmm.highestPhys) pm m₁ ∧
      Laid hhdm (hhdmPages m.pmm.highestPhys) pm m₁ (· < hhdmPages m.pmm.highestPhys) m' := by
  obtain ⟨m₁,m₂,m₃,hnew,hloop,hapic,rfl⟩ := vmmInit_reached h
  have hc := vmmCreatePagemap_copied hb hnew
  have hle : directBytes m.pmm.highestPhys ≤ 2^48 := by
    rw [KernelHalf] at hh
    omega
  obtain ⟨hbytes,hmin⟩ := hhdmPages_bytes hle
  have hfit' : hhdm.toNat+hhdmPages m.pmm.highestPhys*2^21 ≤ 2^64+2^47 := by
    rw [hbytes]
    exact hfit
  have hs := hc.start hb hh ha hfit' hdata
  have hapicN : 0x7F7 < hhdmPages m.pmm.highestPhys := lt_of_lt_of_le (by decide) hmin
  have h0 : Laid hhdm (hhdmPages m.pmm.highestPhys) pm m₁ (fun _ => False) m₁ :=
    ⟨hs.tables,fun _ h => h.elim,fun _ _ _ => Or.inl rfl,fun _ h => h.elim,fun _ _ _ _ _ => rfl,
      fun _ _ _ h => Or.inl h,fun _ _ h => absurd rfl h,fun _ h => h.elim,fun _ h => h⟩
  rw [hc.highest] at hloop
  have h1 := h0.loop hs (fun i hi => List.mem_range.mp hi) hloop
  -- the local APIC lies in region 0x7F7 of the direct map
  have hphys : hhdmPhys 0x7F7 = apicPhys := by decide
  have hvirt : hhdmVirt hhdm 0x7F7 = apicPhys+hhdm := by rw [hhdmVirt,hphys,BitVec.add_comm]
  rw [← hvirt,← hphys] at hapic
  have hdone : (fun k => k = 0x7F7 ∨ k ∈ List.range (hhdmPages m.pmm.highestPhys) ∨ False) =
      (· < hhdmPages m.pmm.highestPhys) := by
    funext k
    rw [List.mem_range,eq_iff_iff,or_false]
    constructor
    · intro hk
      cases hk with
      | inl he =>
        rw [he]
        exact hapicN
      | inr hk => exact hk
    · exact Or.inr
  have h2 : Laid hhdm (hhdmPages m.pmm.highestPhys) pm m₁ (· < hhdmPages m.pmm.highestPhys) m₃ := by
    rw [← hdone]
    exact h1.step hs hapicN hapic
  exact ⟨m₁,hc,hs,⟨h2.tables.forest,h2.tables.held,h2.tables.limit⟩,h2.range,h2.upper,h2.laid,h2.kept,
    h2.nodes,h2.wrote,h2.spilled,h2.free⟩

end KiNBOL
