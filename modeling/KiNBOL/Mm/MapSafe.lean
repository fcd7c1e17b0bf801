import KiNBOL.Mm.TableWalk
import KiNBOL.Mm.VirtToPhys

namespace KiNBOL

/-- A page that serves as a page table of the pagemap. -/
def IsPageTable (mem : PhysMem) (pm n : Nat) : Prop :=
  ∃ p : List (Fin 512), p.length ≤ 3 ∧ follow tblNode mem pm p = some n

/-- The present entries that `get_or_create` takes for pointers to tables. -/
def mapFollows (mem : PhysMem) (pm : Nat) (virt : BitVec 64) : List (BitVec 64) :=
  let e1 := mem pm (pml4Idx virt)
  if !present e1 then []
  else
    let e2 := mem (pageOf (e1 &&& pageMask)) (pdptIdx virt)
    if !present e2 then [e1]
    else
      let e3 := mem (pageOf (e2 &&& pageMask)) (pdIdx virt)
      if !present e3 then [e1,e2] else [e1,e2,e3]

/-- `vmm_map` writes page tables of the pagemap and frames it has taken only, the processor finds
what it mapped, and no large page is followed. -/
structure MapsSafely (m : Machine) (pm : Nat) (virt phys flags : BitVec 64) : Prop where
  writes : ∀ n i, (vmmMap m (some pm) virt phys flags).2.mem n i ≠ m.mem n i →
    IsPageTable m.mem pm n ∨
    m.pmm.Free n ∧ ¬(vmmMap m (some pm) virt phys flags).2.pmm.Free n
  mapped : (vmmMap m (some pm) virt phys flags).1 = 0 →
    translate (vmmMap m (some pm) virt phys flags).2.mem pm virt =
      some ⟨pageOf phys,has flags vmmWrite,has flags vmmUser,has flags vmmNx⟩
  tables : ∀ e ∈ mapFollows m.mem pm virt, has e vmmHuge = false

/-- A pagemap on the way to `virt`: its tables are distinct and none is free, table entries have
their bits from 52 up clear, and so has the PML4 entry its bit 7, which is reserved. -/
structure PathTables (pm : Nat) (m : Machine) (virt : BitVec 64) : Prop where
  tables : Tables (· <+: tablePath virt) pm m
  plain : ∀ p i n, p++[i] <+: tablePath virt → tblNode (tblAt m.mem pm p i) = some n →
    tblAt m.mem pm p i >>> 52 = 0#64
  top : present (m.mem pm (pml4Idx virt)) = true → has (m.mem pm (pml4Idx virt)) vmmHuge = false

/-- No present entry above the page table is a large page. -/
def NoLargePage (mem : PhysMem) (pm : Nat) (virt : BitVec 64) : Prop :=
  ∀ p i, p++[i] <+: tablePath virt → present (tblAt mem pm p i) = true →
    has (tblAt mem pm p i) vmmHuge = false

/-- Tables on the way that are not there. -/
def tableMissing (mem : PhysMem) (pm : Nat) (p : List (Fin 512)) : Nat :=
  if follow tblNode mem pm p = none then 1 else 0

def tablesNeeded (mem : PhysMem) (pm : Nat) (virt : BitVec 64) : Nat :=
  tableMissing mem pm [pml4Idx virt]+tableMissing mem pm [pml4Idx virt,pdptIdx virt]+
    tableMissing mem pm (tablePath virt)

/-- The entry takes nothing away that the flags ask for. -/
def Grants (flags e : BitVec 64) : Prop :=
  (has flags vmmWrite = true → has e vmmWrite = true) ∧
  (has flags vmmUser = true → has e vmmUser = true) ∧
  (has e vmmNx = true → has flags vmmNx = true)

/-- What is asked for can be mapped: a canonical address, a frame that an entry can name, a mapping
that is present, and entries above that grant it. -/
structure Mappable (mem : PhysMem) (pm : Nat) (virt phys flags : BitVec 64) : Prop where
  canonical : LowerHalf virt ∨ KernelHalf virt
  frame : pageOf phys < frameLimit
  present : has flags vmmPresent = true
  grants : ∀ p i, p++[i] <+: tablePath virt → KiNBOL.present (tblAt mem pm p i) = true →
    Grants flags (tblAt mem pm p i)

/-- On the way down: the tables up to path `p` are there, `k` of them new, and `n` is the last. -/
structure Descended (virt : BitVec 64) (pm : Nat) (m₀ : Machine) (p : List (Fin 512)) (k : Nat)
    (m : Machine) (n : Nat) : Prop where
  tables : Tables (· <+: tablePath virt) pm m
  here : follow tblNode m.mem pm p = some n
  below : ∀ q j, p <+: q → q++[j] <+: tablePath virt → tblAt m.mem pm q j = tblAt m₀.mem pm q j
  entries : ∀ q j, q++[j] <+: tablePath virt → tblAt m.mem pm q j = tblAt m₀.mem pm q j ∨
    present (tblAt m₀.mem pm q j) = false ∧
      ∃ f, TableWord f (tblAt m.mem pm q j)
  nodes : ∀ q x, q <+: tablePath virt → follow tblNode m.mem pm q = some x →
    follow tblNode m₀.mem pm q = some x ∨ m₀.pmm.Free x ∧ ¬m.pmm.Free x
  wrote : ∀ x y, m.mem x y ≠ m₀.mem x y →
    IsPageTable m₀.mem pm x ∨ m₀.pmm.Free x ∧ ¬m.pmm.Free x
  free : ∀ x, m.pmm.Free x → m₀.pmm.Free x
  room : m.pmm.room+k = m₀.pmm.room

variable {pm k n : Nat} {m m₀ : Machine} {mem : PhysMem} {p : List (Fin 512)} {i : Fin 512}
  {virt phys flags e : BitVec 64}

theorem TableWord.tblNode {f : Nat} (h : TableWord f e) : tblNode e = some f := by
  rw [tblNode_table h.present h.huge,h.framePage]

/-- The three slots above the page table. -/
theorem prefix_cases (h : p++[i] <+: tablePath virt) :
    p = [] ∧ i = pml4Idx virt ∨ p = [pml4Idx virt] ∧ i = pdptIdx virt ∨
    p = [pml4Idx virt,pdptIdx virt] ∧ i = pdIdx virt := by
  cases p with
  | nil =>
    simp only [tablePath,List.nil_append,List.cons_prefix_cons] at h
    exact Or.inl ⟨rfl,h.1⟩
  | cons a p =>
    cases p with
    | nil =>
      simp only [tablePath,List.cons_append,List.nil_append,List.cons_prefix_cons] at h
      exact Or.inr (Or.inl ⟨by rw [h.1],h.2.1⟩)
    | cons b p =>
      cases p with
      | nil =>
        simp only [tablePath,List.cons_append,List.nil_append,List.cons_prefix_cons] at h
        exact Or.inr (Or.inr ⟨by rw [h.1,h.2.1],h.2.2.1⟩)
      | cons c p =>
        have hlen := h.length_le
        simp only [tablePath,List.length_append,List.length_cons,List.length_nil] at hlen
        omega

theorem prefix_slots (virt : BitVec 64) : []++[pml4Idx virt] <+: tablePath virt ∧
    [pml4Idx virt]++[pdptIdx virt] <+: tablePath virt ∧
    [pml4Idx virt,pdptIdx virt]++[pdIdx virt] <+: tablePath virt :=
  ⟨⟨[pdptIdx virt,pdIdx virt],rfl⟩,⟨[pdIdx virt],rfl⟩,⟨[],rfl⟩⟩

theorem Descended.start (h : PathTables pm m₀ virt) : Descended virt pm m₀ [] 0 m₀ pm :=
  ⟨h.tables,rfl,fun _ _ _ _ => rfl,fun _ _ _ => Or.inl rfl,fun _ _ _ h => Or.inl h,
    fun _ _ h => absurd rfl h,fun _ h => h,Nat.add_zero _⟩

/-- One level: an entry that is there is followed, else a new table is hung in, or no frame is left
for one. -/
theorem Descended.step (hd : Descended virt pm m₀ p k m n) (h : PathTables pm m₀ virt)
    (hno : NoLargePage m₀.mem pm virt) (hp : p++[i] <+: tablePath virt) :
    (m.pmm.room < tableMissing m₀.mem pm (p++[i]) ∧ getOrCreate m n i = (none,m)) ∨
    ∃ a m' n', getOrCreate m n i = (some a,m') ∧ pageOf a = n' ∧
      Descended virt pm m₀ (p++[i]) (k+tableMissing m₀.mem pm (p++[i])) m' n' := by
  have hpp : p <+: tablePath virt := (List.prefix_append p [i]).trans hp
  have hentry : m.mem n i = tblAt m₀.mem pm p i :=
    (tblAt_table hd.here i).symm.trans (hd.below p i List.prefix_rfl hp)
  have hneed : tableMissing m₀.mem pm (p++[i]) =
      if tblNode (tblAt m₀.mem pm p i) = none then 1 else 0 := by
    rw [tableMissing,follow_tblAt]
  cases hpres : present (tblAt m₀.mem pm p i) with
  | true =>
    have htab := tblNode_table hpres (hno p i hp hpres)
    have hmiss : tableMissing m₀.mem pm (p++[i]) = 0 := by
      rw [hneed,htab]
      rfl
    have hpage : pageOf (m.mem n i &&& pageMask) = framePage (tblAt m₀.mem pm p i) := by
      rw [pageOf_pageMask,hentry,framePage_of_high (h.plain p i _ hp htab)]
    rw [hmiss]
    refine Or.inr ⟨_,m,_,getOrCreate_hit (by rw [hentry,hpres]),hpage,
      { hd with here := ?_, below := fun q j hq => hd.below q j ((List.prefix_append p [i]).trans hq) }⟩
    rw [follow_tblAt,hd.below p i List.prefix_rfl hp,htab]
  | false =>
    have hempty : tblNode (m.mem n i) = none := by rw [hentry,tblNode_absent hpres]
    have hmiss : tableMissing m₀.mem pm (p++[i]) = 1 := by
      rw [hneed,tblNode_absent hpres]
      rfl
    rw [hmiss]
    have habs : present (m.mem n i) = false := by rw [hentry,hpres]
    rcases pmmAllocPage_room m.pmm with ⟨hroom,halloc⟩ | ⟨f,pmm,halloc,htakes,hroom⟩
    · refine Or.inl ⟨by omega,?_⟩
      rw [getOrCreate_none habs halloc]
    obtain ⟨hfree,hheld,-⟩ := takes_one htakes
    have hf : f < frameLimit := lt_of_lt_of_le hfree.1 hd.tables.limit
    have hpage : pageOf (pageAddr f) = f := pageOf_pageAddr (lt_of_lt_of_le hf frameLimit_le)
    obtain ⟨htab,hfol,hent,hwrote⟩ := hd.tables.create hp hd.here hempty htakes (tableEntry_word hf).tblNode
    have hmono : ∀ x, ¬m.pmm.Free x → ¬pmm.Free x :=
      fun x hx hx' => hx ((htakes.free_iff x).mp hx').1
    refine Or.inr ⟨pageAddr f,_,f,?_,hpage,htab,?_,fun q j hq hqj => ?_,fun q j hqj => ?_,
      fun q x hq hx => ?_,fun x y hne => ?_,fun x hx => hd.free x ((htakes.free_iff x).mp hx).1,?_⟩
    · rw [getOrCreate_some habs halloc,hpage]
    · rw [hfol _ hp,if_pos rfl]
    · have hne : ¬(q = p ∧ j = i) := by
        intro hh
        have hlen := hq.length_le
        rw [hh.1,List.length_append,List.length_singleton] at hlen
        omega
      rw [hent q j ((List.prefix_append q [j]).trans hqj),if_neg hne]
      exact hd.below q j ((List.prefix_append p [i]).trans hq) hqj
    · rw [hent q j ((List.prefix_append q [j]).trans hqj)]
      split
      · next hs =>
        rw [hs.1,hs.2]
        exact Or.inr ⟨hpres,f,tableEntry_word hf⟩
      · exact hd.entries q j hqj
    · rw [hfol q hq] at hx
      split at hx
      · rw [Option.some.injEq] at hx
        subst hx
        exact Or.inr ⟨hd.free f hfree,hheld.not_free⟩
      · exact (hd.nodes q x hq hx).imp id (fun hh => ⟨hh.1,hmono x hh.2⟩)
    · by_cases hold : m.mem x y = m₀.mem x y
      · rw [← hold] at hne
        rcases hwrote x y hne with hx | hx
        · subst hx
          rcases hd.nodes p x hpp hd.here with hx | hx
          · exact Or.inl ⟨p,hpp.length_le,hx⟩
          · exact Or.inr ⟨hx.1,hmono x hx.2⟩
        · subst hx
          exact Or.inr ⟨hd.free x hfree,hheld.not_free⟩
      · exact (hd.wrote x y hold).imp id (fun hh => ⟨hh.1,hmono x hh.2⟩)
    · have := hd.room
      show pmm.room+(k+1) = m₀.pmm.room
      omega

/-- `vmm_map` where no large page is in the way: no room for the tables, or all of them are there and
the page-table slot is written. -/
theorem vmmMap_descends (h : PathTables pm m₀ virt) (hno : NoLargePage m₀.mem pm virt)
    (phys flags : BitVec 64) :
    (m₀.pmm.room < tablesNeeded m₀.mem pm virt ∧ ∃ p k m n, Descended virt pm m₀ p k m n ∧
      vmmMap m₀ (some pm) virt phys flags = (-1,m)) ∨
    (tablesNeeded m₀.mem pm virt ≤ m₀.pmm.room ∧ ∃ k m pt,
      Descended virt pm m₀ (tablePath virt) k m pt ∧ vmmMap m₀ (some pm) virt phys flags =
        (0,{ m with mem := setSlot m.mem pt (ptIdx virt) (leafEntry phys flags) })) := by
  obtain ⟨s1,s2,s3⟩ := prefix_slots virt
  have h0 := Descended.start h
  unfold tablesNeeded
  rcases h0.step h hno s1 with ⟨c1,g1⟩ | ⟨a1,m1,n1,g1,p1,d1⟩
  · exact Or.inl ⟨by simp only [List.nil_append] at c1; omega,_,_,m₀,pm,h0,by simp only [vmmMap,g1]⟩
  simp only [List.nil_append] at d1
  have r1 := d1.room
  rcases d1.step h hno s2 with ⟨c2,g2⟩ | ⟨a2,m2,n2,g2,p2,d2⟩
  · refine Or.inl ⟨?_,_,_,m1,n1,d1,by simp only [vmmMap,g1,p1,g2]⟩
    simp only [List.cons_append,List.nil_append] at c2
    omega
  simp only [List.cons_append,List.nil_append] at d2
  have r2 := d2.room
  rcases d2.step h hno s3 with ⟨c3,g3⟩ | ⟨a3,m3,n3,g3,p3,d3⟩
  · refine Or.inl ⟨?_,_,_,m2,n2,d2,by simp only [vmmMap,g1,p1,g2,p2,g3]⟩
    simp only [List.cons_append,List.nil_append] at c3
    show m₀.pmm.room < _+_+tableMissing m₀.mem pm [pml4Idx virt,pdptIdx virt,pdIdx virt]
    omega
  simp only [List.cons_append,List.nil_append] at d3
  have r3 := d3.room
  refine Or.inr ⟨?_,_,m3,n3,d3,by simp only [vmmMap,g1,p1,g2,p2,g3,p3]⟩
  show _+_+tableMissing m₀.mem pm [pml4Idx virt,pdptIdx virt,pdIdx virt] ≤ _
  omega

/-- Where the entries of a path are read from when the tables above are no large pages. -/
theorem PathTables.table (h : PathTables pm m virt) (hp : p++[i] <+: tablePath virt)
    (hpres : present (tblAt m.mem pm p i) = true) (hh : has (tblAt m.mem pm p i) vmmHuge = false) :
    follow tblNode m.mem pm (p++[i]) = some (pageOf (tblAt m.mem pm p i)) := by
  have htab := tblNode_table hpres hh
  rw [follow_tblAt,htab,framePage_of_high (h.plain p i _ hp htab)]

theorem follow_absent {j : Fin 512} (h : follow tblNode mem pm p = none) :
    present (tblAt mem pm p j) = false := by
  rw [tblAt_missing h,present_zero]

/-- What the code follows are the entries of the tree, as far as no large page comes. -/
theorem mapFollows_iff (h : PathTables pm m virt) :
    (∀ e ∈ mapFollows m.mem pm virt, has e vmmHuge = false) ↔ NoLargePage m.mem pm virt := by
  obtain ⟨s1,s2,s3⟩ := prefix_slots virt
  have hiff : NoLargePage m.mem pm virt ↔
      (present (tblAt m.mem pm [] (pml4Idx virt)) = true →
        has (tblAt m.mem pm [] (pml4Idx virt)) vmmHuge = false) ∧
      (present (tblAt m.mem pm [pml4Idx virt] (pdptIdx virt)) = true →
        has (tblAt m.mem pm [pml4Idx virt] (pdptIdx virt)) vmmHuge = false) ∧
      (present (tblAt m.mem pm [pml4Idx virt,pdptIdx virt] (pdIdx virt)) = true →
        has (tblAt m.mem pm [pml4Idx virt,pdptIdx virt] (pdIdx virt)) vmmHuge = false) := by
    constructor
    · intro hno
      exact ⟨hno _ _ s1,hno _ _ s2,hno _ _ s3⟩
    · intro hall p i hp
      rcases prefix_cases hp with ⟨rfl,rfl⟩ | ⟨rfl,rfl⟩ | ⟨rfl,rfl⟩
      · exact hall.1
      · exact hall.2.1
      · exact hall.2.2
  have htop : present (tblAt m.mem pm [] (pml4Idx virt)) = true →
      has (tblAt m.mem pm [] (pml4Idx virt)) vmmHuge = false := h.top
  have e1 : m.mem pm (pml4Idx virt) = tblAt m.mem pm [] (pml4Idx virt) := rfl
  rw [hiff]
  unfold mapFollows
  rw [e1]
  simp only [pageOf_pageMask]
  cases p1 : present (tblAt m.mem pm [] (pml4Idx virt)) with
  | false =>
    have n1 : follow tblNode m.mem pm [pml4Idx virt] = none :=
      (follow_tblAt m.mem pm [] (pml4Idx virt)).trans (tblNode_absent p1)
    have n2 : follow tblNode m.mem pm ([pml4Idx virt]++[pdptIdx virt]) = none := by
      rw [follow_tblAt,tblNode_absent (follow_absent n1)]
    simp [follow_absent n1,follow_absent (show follow tblNode m.mem pm
      [pml4Idx virt,pdptIdx virt] = none from n2)]
  | true =>
    have g1 := htop p1
    have f1 : follow tblNode m.mem pm [pml4Idx virt] = _ := h.table s1 p1 g1
    rw [← tblAt_table f1 (pdptIdx virt)]
    cases p2 : present (tblAt m.mem pm [pml4Idx virt] (pdptIdx virt)) with
    | false =>
      have n2 : follow tblNode m.mem pm [pml4Idx virt,pdptIdx virt] = none :=
        (follow_tblAt m.mem pm [pml4Idx virt] (pdptIdx virt)).trans (tblNode_absent p2)
      simp [g1,follow_absent n2]
    | true =>
      cases g2 : has (tblAt m.mem pm [pml4Idx virt] (pdptIdx virt)) vmmHuge with
      | true =>
        refine iff_of_false (fun hall => ?_) (fun hall => by simpa using hall.2.1)
        have hin := hall (tblAt m.mem pm [pml4Idx virt] (pdptIdx virt)) (by
          simp only [Bool.not_true,Bool.false_eq_true,if_false]
          split <;> simp)
        rw [g2] at hin
        exact Bool.noConfusion hin
      | false =>
        have f2 : follow tblNode m.mem pm [pml4Idx virt,pdptIdx virt] = _ := h.table s2 p2 g2
        rw [← tblAt_table f2 (pdIdx virt)]
        cases p3 : present (tblAt m.mem pm [pml4Idx virt,pdptIdx virt] (pdIdx virt)) with
        | false => simp [g1,g2]
        | true => simp [g1,g2]

/-- The walk after the page-table slot is written. -/
theorem Descended.walk {pt : Nat} (hd : Descended virt pm m₀ (tablePath virt) k m pt)
    (e : BitVec 64) : hwWalk (setSlot m.mem pt (ptIdx virt) e) pm virt =
      if present e then some (xlat (framePage e) [tblAt m.mem pm [] (pml4Idx virt),
        tblAt m.mem pm [pml4Idx virt] (pdptIdx virt),
        tblAt m.mem pm [pml4Idx virt,pdptIdx virt] (pdIdx virt),e])
      else none := by
  obtain ⟨s1,s2,s3⟩ := prefix_slots virt
  have hlong : ∀ q, q <+: tablePath virt → ¬tablePath virt++[ptIdx virt] <+: q := by
    intro q hq hh
    have h1 := hh.length_le
    have h2 := hq.length_le
    rw [List.length_append,List.length_singleton] at h1
    omega
  obtain ⟨-,-,hent⟩ := hd.tables.set (i := ptIdx virt) (e := e) List.prefix_rfl hd.here
    (fun hh => absurd List.prefix_rfl (hlong _ hh))
  have hold : ∀ q j, q <+: tablePath virt → q ≠ tablePath virt →
      tblAt (setSlot m.mem pt (ptIdx virt) e) pm q j = tblAt m.mem pm q j := by
    intro q j hq hne
    rw [hent q j hq,if_neg (fun hh => hne hh.1),if_neg (hlong q hq)]
  have hleaf : tblAt (setSlot m.mem pt (ptIdx virt) e) pm (tablePath virt) (ptIdx virt) = e := by
    rw [hent _ _ List.prefix_rfl,if_pos ⟨rfl,rfl⟩]
  obtain ⟨t2,n2,hn3⟩ := follow_prefix (p := [pml4Idx virt,pdptIdx virt]) (q := [pdIdx virt]) hd.here
  obtain ⟨t1,n1,-⟩ := follow_prefix (p := [pml4Idx virt]) (q := [pdptIdx virt]) n2
  have c1 := tblNode_eq_some ((follow_tblAt m.mem pm [] (pml4Idx virt)).symm.trans n1)
  have c2 := tblNode_eq_some ((follow_tblAt m.mem pm [pml4Idx virt] (pdptIdx virt)).symm.trans n2)
  have c3 := tblNode_eq_some ((follow_tblAt m.mem pm [pml4Idx virt,pdptIdx virt]
    (pdIdx virt)).symm.trans hd.here)
  have w1 := hold [] (pml4Idx virt) List.nil_prefix (by simp [tablePath])
  have w2 := hold [pml4Idx virt] (pdptIdx virt) ((List.prefix_append _ _).trans s2)
    (by simp [tablePath])
  have w3 := hold [pml4Idx virt,pdptIdx virt] (pdIdx virt) ((List.prefix_append _ _).trans s3)
    (by simp [tablePath])
  have htop : setSlot m.mem pt (ptIdx virt) e pm (pml4Idx virt) = tblAt m.mem pm [] (pml4Idx virt) := w1
  rw [hwWalk_tree (fun _ => by rw [htop]; exact c1.2.1)]
  simp only [treeWalk,w1,w2,w3,hleaf,c1.1,c2.1,c2.2.1,c3.1,c3.2.1,Bool.not_true,Bool.false_eq_true,
    if_false]
  cases present e <;> rfl

theorem leafEntry_page (phys flags : BitVec 64) :
    leafEntry phys flags = leafEntry (pageAddr (pageOf phys)) flags := by
  have hmask : phys &&& pageMask = pageAddr (pageOf phys) := by
    apply BitVec.eq_of_toNat_eq
    have hlt := phys.isLt
    rw [toNat_pageMask,pageAddr,BitVec.toNat_ofNat,pageOf]
    omega
  rw [leafEntry,leafEntry,pageAddr_mask,hmask]

theorem present_leafEntry (phys flags : BitVec 64) :
    present (leafEntry phys flags) = has flags vmmPresent := by
  have h1 : pageMask.getLsbD 0 = false := by decide
  have h2 : (0xFFF#64).getLsbD 0 = true := by decide
  have h3 : vmmNx.getLsbD 0 = false := by decide
  rw [present,has_present,has_present,leafEntry,BitVec.getLsbD_or,BitVec.getLsbD_or,BitVec.getLsbD_and,
    BitVec.getLsbD_and,BitVec.getLsbD_and,h1,h2,h3]
  simp

/-- The permissions over a path are those of the leaf when the entries above grant them. -/
theorem xlat_grants {f : Nat} {e1 e2 e3 leaf : BitVec 64}
    (hw : has leaf vmmWrite = has flags vmmWrite) (hu : has leaf vmmUser = has flags vmmUser)
    (hx : has leaf vmmNx = has flags vmmNx) :
    xlat f [e1,e2,e3,leaf] = ⟨f,has flags vmmWrite,has flags vmmUser,has flags vmmNx⟩ ↔
      Grants flags e1 ∧ Grants flags e2 ∧ Grants flags e3 := by
  have hall : ∀ a b c d : Bool, (a && (b && (c && d))) = d ↔
      (d = true → a = true) ∧ (d = true → b = true) ∧ (d = true → c = true) := by decide
  have hany : ∀ a b c d : Bool, (a || (b || (c || d))) = d ↔
      (a = true → d = true) ∧ (b = true → d = true) ∧ (c = true → d = true) := by decide
  simp only [xlat,Grants,Xlat.mk.injEq,true_and,List.all_cons,List.all_nil,List.any_cons,List.any_nil,
    Bool.and_true,Bool.or_false,hw,hu,hx,hall,hany]
  tauto

theorem TableWord.grants {f : Nat} (h : TableWord f e) (flags : BitVec 64) : Grants flags e :=
  ⟨fun _ => h.write,fun _ => h.user,fun hx => by rw [h.nx] at hx; exact Bool.noConfusion hx⟩

/-- The entries above the page table grant the flags when those that were there before do. -/
theorem Descended.grants_iff (hd : Descended virt pm m₀ (tablePath virt) k m n) (flags : BitVec 64) :
    (∀ p i, p++[i] <+: tablePath virt → present (tblAt m₀.mem pm p i) = true →
      Grants flags (tblAt m₀.mem pm p i)) ↔
    Grants flags (tblAt m.mem pm [] (pml4Idx virt)) ∧
      Grants flags (tblAt m.mem pm [pml4Idx virt] (pdptIdx virt)) ∧
      Grants flags (tblAt m.mem pm [pml4Idx virt,pdptIdx virt] (pdIdx virt)) := by
  obtain ⟨s1,s2,s3⟩ := prefix_slots virt
  constructor
  · intro h
    have hgrants : ∀ p i, p++[i] <+: tablePath virt → Grants flags (tblAt m.mem pm p i) := by
      intro p i hp
      obtain ⟨t,ht⟩ := hp
      have hnode : ∃ x, follow tblNode m.mem pm (p++[i]) = some x := by
        have hhere := hd.here
        rw [← ht] at hhere
        obtain ⟨x,hx,-⟩ := follow_prefix hhere
        exact ⟨x,hx⟩
      obtain ⟨x,hx⟩ := hnode
      rw [follow_tblAt] at hx
      cases hd.entries p i ⟨t,ht⟩ with
      | inl hold =>
        have hpres := (tblNode_eq_some hx).1
        rw [hold] at hpres ⊢
        exact h p i ⟨t,ht⟩ hpres
      | inr hnew =>
        obtain ⟨-,f,hf⟩ := hnew
        exact hf.grants flags
    exact ⟨hgrants _ _ s1,hgrants _ _ s2,hgrants _ _ s3⟩
  · intro h p i hp hpres
    have hsame : tblAt m.mem pm p i = tblAt m₀.mem pm p i := by
      cases hd.entries p i hp with
      | inl hold => exact hold
      | inr hnew =>
        rw [hnew.1] at hpres
        exact Bool.noConfusion hpres
    rw [← hsame]
    rcases prefix_cases hp with ⟨rfl,rfl⟩ | ⟨rfl,rfl⟩ | ⟨rfl,rfl⟩
    · exact h.1
    · exact h.2.1
    · exact h.2.2

/-- What the processor finds after the page-table slot is written. -/
theorem Descended.translate_iff (hd : Descended virt pm m₀ (tablePath virt) k m n)
    (phys flags : BitVec 64) :
    translate (setSlot m.mem n (ptIdx virt) (leafEntry phys flags)) pm virt =
      some ⟨pageOf phys,has flags vmmWrite,has flags vmmUser,has flags vmmNx⟩ ↔
    Mappable m₀.mem pm virt phys flags := by
  have hwalk := hd.walk (leafEntry phys flags)
  rw [present_leafEntry] at hwalk
  constructor
  · intro h
    have hcan : LowerHalf virt ∨ KernelHalf virt := by
      by_contra hno
      rw [translate,if_neg hno] at h
      simp at h
    rw [translate,if_pos hcan,hwalk] at h
    have hpres : has flags vmmPresent = true := by
      by_contra hno
      rw [if_neg hno] at h
      simp at h
    rw [if_pos hpres,Option.some.injEq] at h
    have hframe : framePage (leafEntry phys flags) = pageOf phys := congrArg Xlat.page h
    have hlt : pageOf phys < frameLimit := hframe ▸ framePage_lt _
    obtain ⟨-,hw,hu,hx⟩ := leafEntry_flags hlt flags
    rw [← leafEntry_page] at hw hu hx
    rw [hframe,xlat_grants hw hu hx] at h
    exact ⟨hcan,hlt,hpres,(hd.grants_iff flags).mpr h⟩
  · intro h
    have hframe := framePage_leafEntry h.frame flags
    obtain ⟨-,hw,hu,hx⟩ := leafEntry_flags h.frame flags
    rw [← leafEntry_page] at hframe hw hu hx
    rw [translate,if_pos h.canonical,hwalk,if_pos h.present,hframe,Option.some.injEq,
      xlat_grants hw hu hx]
    exact (hd.grants_iff flags).mp h.grants

/-- `vmm_map` is safe just when no large page lies on the way and what it is asked for can be
mapped, or there is no room for the tables. -/
theorem vmmMap_safe_iff (h : PathTables pm m virt) :
    MapsSafely m pm virt phys flags ↔ NoLargePage m.mem pm virt ∧
      (m.pmm.room < tablesNeeded m.mem pm virt ∨ Mappable m.mem pm virt phys flags) := by
  rw [← mapFollows_iff h]
  constructor
  · intro hsafe
    refine ⟨hsafe.tables,?_⟩
    rcases vmmMap_descends h ((mapFollows_iff h).mp hsafe.tables) phys flags with
      ⟨hroom,-⟩ | ⟨-,k,m',pt,hd,hmap⟩
    · exact Or.inl hroom
    · have hmapped := hsafe.mapped (by rw [hmap])
      rw [hmap] at hmapped
      exact Or.inr ((hd.translate_iff phys flags).mp hmapped)
  · intro hsafe
    rcases vmmMap_descends h ((mapFollows_iff h).mp hsafe.1) phys flags with
      ⟨-,p,k,m',n,hd,hmap⟩ | ⟨hroom,k,m',pt,hd,hmap⟩
    · refine ⟨?_,fun hok => ?_,hsafe.1⟩
      · rw [hmap]
        exact hd.wrote
      · rw [hmap] at hok
        simp at hok
    · have hok : Mappable m.mem pm virt phys flags := by
        cases hsafe.2 with
        | inl hfew => omega
        | inr hok => exact hok
      refine ⟨fun x y hne => ?_,fun _ => ?_,hsafe.1⟩
      · rw [hmap] at hne ⊢
        by_cases hold : m'.mem x y = m.mem x y
        · by_cases hx : x = pt
          · subst hx
            have hnode := hd.nodes _ _ List.prefix_rfl hd.here
            exact hnode.imp (fun hf => ⟨tablePath virt,Nat.le_refl 3,hf⟩) id
          · have hsame : setSlot m'.mem pt (ptIdx virt) (leafEntry phys flags) x y = m'.mem x y :=
              setSlot_other (fun hh => hx hh.1)
            exact absurd (hsame.trans hold) hne
        · exact hd.wrote x y hold
      · rw [hmap]
        exact (hd.translate_iff phys flags).mpr hok

/-- The lower half of a task's pagemap: tables of `get_or_create`, no large page. -/
theorem TableTree.follow_tblNode {roots : Nat → Prop} (h : TableTree roots mem) (hr : roots pm)
    (hp : TablePath p) : follow tblNode mem pm p = follow entryNode mem pm p := by
  induction p using List.reverseRecOn with
  | nil => rfl
  | append_singleton p i ih =>
    have hsame : tblAt mem pm p i = entryAt mem pm p i := by
      rw [tblAt,entryAt,slotAt,slotAt,ih hp.left]
    rw [follow_tblAt,follow_entryAt,hsame]
    cases hpres : present (entryAt mem pm p i) with
    | false => rw [tblNode_absent hpres,entryNode_absent hpres]
    | true =>
      obtain ⟨f,hf⟩ := h.mid pm p i hr hp hpres
      rw [hf.tblNode,hf.entryNode]

theorem Owned.pathTables {roots : Nat → Prop} (ho : Owned roots m) (hr : roots pm)
    (hva : LowerHalf virt) : PathTables pm m virt ∧ NoLargePage m.mem pm virt ∧
      ∀ flags p i, p++[i] <+: tablePath virt → present (tblAt m.mem pm p i) = true →
        Grants flags (tblAt m.mem pm p i) := by
  have htree := ho.tables.tree
  have hpath : ∀ q, q <+: tablePath virt → TablePath q := by
    intro q hq
    obtain ⟨t,ht⟩ := hq
    exact TablePath.left (ht ▸ tablePath_va hva)
  have hfol : ∀ q, q <+: tablePath virt → follow tblNode m.mem pm q = follow entryNode m.mem pm q :=
    fun q hq => htree.follow_tblNode hr (hpath q hq)
  have hentry : ∀ q i, q++[i] <+: tablePath virt → present (tblAt m.mem pm q i) = true →
      ∃ f, TableWord f (tblAt m.mem pm q i) := by
    intro q i hq hpres
    have hsame : tblAt m.mem pm q i = entryAt m.mem pm q i := by
      rw [tblAt,entryAt,slotAt,slotAt,hfol q ((List.prefix_append q [i]).trans hq)]
    rw [hsame] at hpres ⊢
    exact htree.mid pm q i hr (hpath _ hq) hpres
  have hno : NoLargePage m.mem pm virt := by
    intro q i hq hpres
    obtain ⟨f,hf⟩ := hentry q i hq hpres
    exact hf.huge
  refine ⟨⟨⟨⟨fun q t hq => (List.prefix_append q t).trans hq,fun r r' q q' x hr1 hr2 hq hq' h1 h2 => ?_⟩,
    fun q x hq hx => ?_,ho.limit⟩,fun q i x hq hx => ?_,hno [] (pml4Idx virt) (prefix_slots virt).1⟩,hno,
    fun flags q i hq hpres => ?_⟩
  · subst hr1 hr2
    rw [hfol q hq] at h1
    rw [hfol q' hq'] at h2
    exact htree.forest.unique _ _ q q' x hr hr (hpath q hq) (hpath q' hq') h1 h2
  · rw [hfol q hq] at hx
    exact (ho.held x ⟨pm,q,hr,(hpath q hq).lower,hx⟩).not_free
  · obtain ⟨f,hf⟩ := hentry q i hq (tblNode_eq_some hx).1
    rw [high_iff,hf.page]
    exact hf.lt
  · obtain ⟨f,hf⟩ := hentry q i hq hpres
    exact hf.grants flags

/-- `lapic_init` on the direct map of `vmm_init`: the page directory holds a 2 MiB page for the
controller's registers at 0xFEE00000. -/
def apicMachine : Machine :=
  { smallMachine with mem := fun n i =>
      if n = 1 ∧ i = 256 then 0x2003#64
      else if n = 2 ∧ i = 3 then 0x3003#64
      else if n = 3 ∧ i = 503 then 0xFEE00083#64
      else 0#64 }

/-- The mapping is written into the registers. -/
theorem vmmMap_apic :
    mapFollows apicMachine.mem 1 0xFFFF8000FEE00000#64 = [0x2003#64,0x3003#64,0xFEE00083#64] ∧
    (vmmMap apicMachine (some 1) 0xFFFF8000FEE00000#64 0xFEE00000#64 3#64).2.mem 0xFEE00 0 =
      0xFEE00003#64 ∧
    ¬MapsSafely apicMachine 1 0xFFFF8000FEE00000#64 0xFEE00000#64 3#64 := by
  have hfollows : mapFollows apicMachine.mem 1 0xFFFF8000FEE00000#64 =
      [0x2003#64,0x3003#64,0xFEE00083#64] := by decide
  refine ⟨hfollows,by decide,fun h => ?_⟩
  have hlarge := h.tables 0xFEE00083#64 (by rw [hfollows]; simp)
  exact absurd hlarge (by decide)

/-- A page of a task, where three tables have to be made. -/
theorem vmmMap_safe_iff_sample : MapsSafely taskMachine 256 0x400000#64 (pageAddr 300) 7#64 ∧
    (vmmMap taskMachine (some 256) 0x400000#64 (pageAddr 300) 7#64).1 = 0 := by
  have hva : LowerHalf 0x400000#64 := by decide
  obtain ⟨hpath,hno,hgrants⟩ := taskMachine_owned.1.pathTables rfl hva
  exact ⟨(vmmMap_safe_iff hpath).mpr
    ⟨hno,Or.inr ⟨Or.inl hva,by decide,by decide,hgrants 7#64⟩⟩,by decide⟩

end KiNBOL
