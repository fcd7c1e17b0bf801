import KiNBOL.Loader.ElfPlan
import KiNBOL.Mm.KernelHalf

namespace KiNBOL

variable {roots : Nat → Prop} {p : Nat} {m m₁ : Machine} {node : VfsNode}

/-- `vmm_map` looks at four indices of an address only. -/
theorem vmmMap_alias {va va' : BitVec 64} (pm : Pagemap) (phys flags : BitVec 64)
    (h : tablePath va' = tablePath va ∧ ptIdx va' = ptIdx va) :
    vmmMap m pm va' phys flags = vmmMap m pm va phys flags := by
  obtain ⟨hp,h4⟩ := h
  simp only [tablePath,List.cons.injEq,and_true] at hp
  obtain ⟨h1,h2,h3⟩ := hp
  unfold vmmMap
  rw [h1,h2,h3,h4]

/-- Taking a page, filling it and giving it back. -/
theorem Owned.put_back {f : Nat} (h : Owned roots m) (ht : Taken m m₁ f) :
    Owned roots { m₁ with pmm := pmmFreePage m₁.pmm (pageAddr f) } ∧
    Evolves roots p m { m₁ with pmm := pmmFreePage m₁.pmm (pageAddr f) } := by
  obtain ⟨ho1,hheld,hnew,hev,-,-⟩ := @Owned.taken roots p m m₁ f h ht
  have hfree := (takes_one ht.takes).1
  have hg := pmmFreePage_gives m₁.pmm (pageAddr f)
  rw [h.free_page hfree] at hg
  obtain ⟨-,hbits⟩ := gives_one hg hheld
  refine ⟨⟨ho1.tables,fun n hn => ?_,hg.total.le.trans ho1.limit⟩,
    ⟨hev.fresh,hev.wrote,fun n hn => ?_,hg.total.trans hev.total,hev.cr3⟩⟩
  · have hold := ho1.held n hn
    exact ⟨hg.total ▸ hold.1,(hbits n).mpr ⟨hold.2,fun he => hnew (he ▸ hn)⟩⟩
  · by_cases he : n = f
    · exact he ▸ hfree
    · apply hev.free n
      refine ⟨hg.total ▸ hn.1,?_⟩
      cases hb : m₁.pmm.bmGet n with
      | false => rfl
      | true => exact (hn.2.symm.trans ((hbits n).mpr ⟨hb,he⟩)).symm

/-- A run of the loader that builds up the lower half of `p` and nothing else. -/
structure Builds {α : Type} (roots : Nat → Prop) (p : Nat) (s : Loading)
    (r : Except String α × Loading) : Prop where
  owned : Owned roots r.2.machine
  evolves : Evolves roots p s.machine r.2.machine

theorem Builds.refl {α : Type} {s : Loading} (h : Owned roots s.machine) (x : Except String α) :
    Builds roots p s (x,s) := ⟨h,Evolves.refl roots p s.machine⟩

theorem Builds.next {α β : Type} {s : Loading} {r : Except String α × Loading}
    {k : α → Loading → Except String β × Loading} (hr : roots p) (h1 : Builds roots p s r)
    (h2 : ∀ a s₁, r = (.ok a,s₁) → Owned roots s₁.machine → Builds roots p s₁ (k a s₁)) :
    Builds roots p s (Loading.next r k) := by
  obtain ⟨x,s₁⟩ := r
  cases x with
  | error msg => exact ⟨h1.owned,h1.evolves⟩
  | ok a =>
    have h3 := h2 a s₁ rfl h1.owned
    exact ⟨h3.owned,h1.evolves.trans hr h3.evolves⟩

/-- One page through a lower PML4 slot. -/
theorem elfMapPage_builds (hr : roots p) (flags va start fileOff count : BitVec 64) (s : Loading)
    (h : Owned roots s.machine) (hva : (pageRead node fileOff count).length = count.toNat →
      (pml4Idx va).val < 256) :
    Builds roots p s (elfMapPage (some p) node flags va start fileOff count s) := by
  cases elfMapPage_cases (some p) node flags va start fileOff count s h.limit with
  | inl hoom =>
    rw [hoom.2]
    exact Builds.refl h _
  | inr hrest =>
    obtain ⟨f,m₁,ht,-,hcase⟩ := hrest
    have hmap : (pageRead node fileOff count).length = count.toNat →
        Owned roots (mapTaken m₁ p va (pageAddr f) flags) ∧
        Evolves roots p s.machine (mapTaken m₁ p va (pageAddr f) flags) := by
      intro hfull
      obtain ⟨hlow,hpath⟩ := vaOf_spec (b := pdptIdx va) (c := pdIdx va) (d := ptIdx va) (hva hfull)
      have hsp := mapTaken_spec h hr hlow ht flags
      unfold mapTaken at hsp ⊢
      rw [vmmMap_alias (some p) (pageAddr f) flags hpath] at hsp
      exact ⟨hsp.owned,hsp.toEvolves⟩
    rcases hcase with ⟨-,msg,hres⟩ | ⟨hfull,hfail,msg,hres⟩ | ⟨hfull,hok,hres⟩
    · rw [hres]
      obtain ⟨ho,hev⟩ := h.put_back (p := p) ht
      exact ⟨ho,hev⟩
    · obtain ⟨ho,hev⟩ := hmap hfull
      simp only [mapTaken,if_neg hfail] at ho hev
      rw [hres]
      exact ⟨ho,hev⟩
    · obtain ⟨ho,hev⟩ := hmap hfull
      simp only [mapTaken,if_pos hok] at ho hev
      rw [hres]
      exact ⟨ho,hev⟩

theorem elfMapPages_builds (hr : roots p) (flags pageStart segOff : BitVec 64) (n : Nat)
    (va fileOff fileLeft : BitVec 64) (s : Loading) (h : Owned roots s.machine)
    (hall : ∀ w ∈ (planPages node pageStart segOff n va fileOff fileLeft).1,
      (pml4Idx w).val < 256) :
    Builds roots p s (elfMapPages (some p) node flags pageStart segOff n va fileOff fileLeft s) := by
  induction n generalizing va fileOff fileLeft s with
  | zero =>
    rw [elfMapPages]
    exact Builds.refl h _
  | succ n ih =>
    rw [elfMapPages]
    rw [planPages] at hall
    by_cases hshort : (pageRead node fileOff
        (toCopy fileLeft (copyStart pageStart segOff va))).length ≠
        (toCopy fileLeft (copyStart pageStart segOff va)).toNat
    · apply (elfMapPage_builds hr flags va _ fileOff _ s h (fun hf => absurd hf hshort)).next hr
      intro a s₁ hres _
      exfalso
      cases elfMapPage_cases (some p) node flags va
          (copyStart pageStart segOff va) fileOff (toCopy fileLeft (copyStart pageStart segOff va))
          s h.limit with
      | inl hoom =>
        rw [hoom.2] at hres
        simp at hres
      | inr hrest =>
        obtain ⟨f,m₁,-,-,⟨-,msg,hstop⟩ | ⟨hfull,-⟩ | ⟨hfull,-⟩⟩ := hrest
        · rw [hstop] at hres
          simp at hres
        · exact hshort hfull
        · exact hshort hfull
    · simp only [if_neg hshort] at hall
      have hhead := hall va (by simp)
      apply (elfMapPage_builds hr flags va _ fileOff _ s h (fun _ => hhead)).next hr
      intro a s₁ _ h₁
      exact ih _ _ _ s₁ h₁ (fun w hw => hall w (by simp [hw]))

theorem elfMapSegment_builds (hr : roots p) (ph : Elf64Phdr) (bias : BitVec 64) (s : Loading)
    (h : Owned roots s.machine)
    (hall : ∀ w ∈ (planSegment node ph bias).1, (pml4Idx w).val < 256) :
    Builds roots p s (elfMapSegment (some p) node ph bias s) := by
  unfold planSegment at hall
  unfold elfMapSegment
  split_ifs at hall ⊢
  · exact Builds.refl h _
  · exact Builds.refl h _
  · exact elfMapPages_builds hr _ _ _ _ _ _ _ s h hall

theorem elfLoadSegments_builds (hr : roots p) (bias : BitVec 64) (phs : List Elf64Phdr)
    (highest phdr : BitVec 64) (s : Loading) (h : Owned roots s.machine)
    (hall : ∀ w ∈ (planSegments node bias phs).1, (pml4Idx w).val < 256) :
    Builds roots p s (elfLoadSegments (some p) node bias phs highest phdr s) := by
  induction phs generalizing highest phdr s with
  | nil =>
    rw [elfLoadSegments]
    exact Builds.refl h _
  | cons ph rest ih =>
    rw [elfLoadSegments]
    rw [planSegments] at hall
    by_cases h1 : ph.type = 1
    · rw [if_pos h1] at hall ⊢
      have hperf := elfMapSegment_performs node (p := p) ph bias s h.limit
      have hsub : ∀ w ∈ (planSegment node ph bias).1, (pml4Idx w).val < 256 := by
        intro w hw
        apply hall w
        dsimp only
        split_ifs
        · exact List.mem_append_left _ hw
        · exact hw
      apply (elfMapSegment_builds hr ph bias s h hsub).next hr
      intro a s₁ hres h₁
      have hplan := (hperf.ok a (congrArg Prod.fst hres)).2
      apply ih _ phdr s₁ h₁
      intro w hw
      apply hall w
      dsimp only
      rw [if_pos hplan]
      exact List.mem_append_right _ hw
    · rw [if_neg h1] at hall ⊢
      by_cases h3 : ph.type = 3
      · rw [if_neg (show ¬(ph.type = 6) by omega),if_pos h3]
        exact Builds.refl h _
      · rw [if_neg h3] at hall
        by_cases h6 : ph.type = 6
        · rw [if_pos h6]
          exact ih highest _ s h hall
        · rw [if_neg h6,if_neg h3]
          exact ih highest phdr s h hall

/-- Loading a file whose pages all go through lower PML4 slots builds up the lower half only. -/
theorem elfLoad_builds (hr : roots p) (file : Option VfsNode) (rand : BitVec 64)
    (h : Owned roots m) (hall : ∀ w ∈ (elfPlan file rand).1, (pml4Idx w).val < 256) :
    Builds roots p ⟨m,[]⟩ (elfLoad m file (some p) rand) := by
  cases file with
  | none => exact Builds.refl h _
  | some node =>
    unfold elfPlan at hall
    unfold elfLoad
    cases hh : elfHeaders node with
    | error msg =>
      simp only [hh]
      exact Builds.refl h _
    | ok x =>
      obtain ⟨eh,phdrs⟩ := x
      simp only [hh] at hall ⊢
      apply (elfLoadSegments_builds hr (loadBias eh rand) phdrs 0#64 0#64 ⟨m,[]⟩ h hall).next hr
      intro a s₁ _ h₁
      exact Builds.refl h₁ _

/-- `elf_load` of a file into pagemap `p` keeps to the task: a load that succeeds maps canonical
lower-half pages only; kernel-half translations stay; only slots of the task's lower-half tables
and pages that were free are written. -/
structure LoadConfined (roots : Nat → Prop) (m : Machine) (p : Nat) (file : Option VfsNode)
    (rand : BitVec 64) : Prop where
  lower : ∀ res, (elfLoad m file (some p) rand).1 = .ok res →
    ∀ va ∈ (elfLoad m file (some p) rand).2.maps, LowerHalf va
  kernel : ∀ r, roots r → ∀ va, 256 ≤ (pml4Idx va).val →
    translate (elfLoad m file (some p) rand).2.machine.mem r va = translate m.mem r va
  writes : ∀ n i, (elfLoad m file (some p) rand).2.machine.mem n i ≠ m.mem n i →
    TableSlot m.mem p n i ∨ m.pmm.Free n

/-- In every state with well-formed user tables apart from the kernel half. -/
def AlwaysConfined (file : Option VfsNode) (rand : BitVec 64) : Prop :=
  ∀ (roots : Nat → Prop) (m : Machine) (p : Nat), Owned roots m → KernelApart roots m → roots p →
    LoadConfined roots m p file rand

/-- The file asks for canonical lower-half pages only, or cannot be loaded to the end and asks
for no page through a PML4 slot of the kernel half. -/
def AsksLower (file : Option VfsNode) (rand : BitVec 64) : Prop :=
  (∀ va ∈ (elfPlan file rand).1, LowerHalf va) ∨
  ((elfPlan file rand).2 = false ∧ ∀ va ∈ (elfPlan file rand).1, (pml4Idx va).val < 256)

theorem alwaysConfined_of_asksLower {file : Option VfsNode} {rand : BitVec 64}
    (hask : AsksLower file rand) : AlwaysConfined file rand := by
  intro roots m p ho hk hr
  have hidx : ∀ va ∈ (elfPlan file rand).1, (pml4Idx va).val < 256 := by
    cases hask with
    | inl hlow => exact fun va hva => pml4Idx_lower (hlow va hva)
    | inr hfail => exact hfail.2
  have hb := elfLoad_builds hr file rand ho hidx
  have hperf := elfLoad_performs m file p rand ho.limit
  have hkernel := (hb.evolves.kernel ho hr hk).2
  refine ⟨fun res hres va hva => ?_,fun r hrr va hva => ?_,hb.evolves.wrote⟩
  · obtain ⟨hmaps,hplan⟩ := hperf.ok res hres
    rw [hmaps,List.nil_append] at hva
    cases hask with
    | inl hlow => exact hlow va hva
    | inr hfail =>
      rw [hfail.1] at hplan
      exact Bool.noConfusion hplan
  · exact translate_kernel (fun va' hva' => hkernel r va' hrr hva') va hva

/-- A pagemap whose lower half is empty. -/
theorem Owned.blank (hzero : ∀ i : Fin 512, i.val < 256 → m.mem p i = 0#64) (hheld : m.pmm.Held p)
    (hlim : m.pmm.totalPages ≤ frameLimit) :
    Owned (· = p) m ∧ ∀ n, UserNode (· = p) m.mem n → n = p := by
  have hfol : ∀ q n, LowerPath q → follow entryNode m.mem p q = some n → q = [] ∧ n = p := by
    intro q n hq hn
    cases q with
    | nil => exact ⟨rfl,by simpa using hn.symm⟩
    | cons i q =>
      rw [follow_cons,hzero i (hq.2 i (by simp)),entryNode_zero] at hn
      exact absurd hn (by simp)
  have hent : ∀ q i, LowerPath (q++[i]) → present (entryAt m.mem p q i) = false := by
    intro q i hq
    cases hp : present (entryAt m.mem p q i) with
    | false => rfl
    | true =>
      obtain ⟨n,hn,he⟩ := table_of_present hp
      obtain ⟨rfl,rfl⟩ := hfol q n hq.left hn
      rw [he,hzero i (hq.2 i (by simp)),present_zero] at hp
      exact Bool.noConfusion hp
  have hnode : ∀ n, UserNode (· = p) m.mem n → n = p := by
    intro n hn
    obtain ⟨r,q,rfl,hq,hf⟩ := hn
    exact (hfol q n hq hf).2
  refine ⟨⟨⟨⟨lowerPath_closed,?_⟩,?_,?_⟩,fun n hn => hnode n hn ▸ hheld,hlim⟩,hnode⟩
  · rintro r r' q q' n rfl rfl hq hq' h1 h2
    exact ⟨rfl,(hfol q n hq h1).1.trans (hfol q' n hq' h2).1.symm⟩
  · rintro r q i rfl hq _ hp
    rw [hent q i hq] at hp
    exact Bool.noConfusion hp
  · rintro r q i rfl hq _ hp
    rw [hent q i hq] at hp
    exact Bool.noConfusion hp

/-- All the memory that entries can name, with the first `8*k` pages taken. -/
def heldBelow (k : Nat) : Pmm :=
  ⟨fun i => if i < k then 0xFF#8 else 0#8,2^40,BitVec.ofNat 64 (2^40-8*k),BitVec.ofNat 64 (2^52)⟩

theorem heldBelow_bit (k n : Nat) : (heldBelow k).bmGet n = decide (n < 8*k) := by
  rw [Pmm.bmGet_eq]
  show (if n/8 < k then 0xFF#8 else 0#8).getLsbD (n%8) = _
  have hm : n%8 < 8 := Nat.mod_lt n (by omega)
  have hall : ∀ k < 8, (0xFF#8).getLsbD k = true := by decide
  by_cases h : n < 8*k
  · rw [if_pos (by omega),hall _ hm,decide_eq_true h]
  · rw [if_neg (by omega),decide_eq_false h,BitVec.getLsbD_zero]

theorem heldBelow_held {k n : Nat} (hk : 8*k ≤ 2^40) (hn : n < 8*k) : (heldBelow k).Held n := by
  refine ⟨?_,by rw [heldBelow_bit,decide_eq_true hn]⟩
  show n < 2^40
  omega

theorem heldBelow_count (k : Nat) : downCount (heldBelow k).bmGet (2^40) = 2^40-8*k := by
  have hset : (Finset.range (2^40)).filter (fun i => (heldBelow k).bmGet i = false) =
      Finset.Ico (8*k) (2^40) := by
    ext n
    rw [Finset.mem_filter,Finset.mem_range,Finset.mem_Ico,heldBelow_bit,decide_eq_false_iff_not]
    omega
  rw [downCount,hset,Nat.card_Ico]

/-- A machine with all the memory that entries can name, free from page 256 on, and an empty
pagemap in page 1. -/
def emptyMachine : Machine :=
  { mem := fun _ _ => 0#64
    pmm := ⟨fun i => if i < 32 then 0xFF#8 else 0#8,2^40,BitVec.ofNat 64 (2^40-256),
      BitVec.ofNat 64 (2^52)⟩
    cr3 := 1 }

theorem emptyMachine_low : LowHeld emptyMachine :=
  fun n hn => @heldBelow_held 32 n (by decide) hn

theorem emptyMachine_avail : emptyMachine.avail = 2^40-256 := heldBelow_count 32

theorem emptyMachine_owned : Owned (· = 1) emptyMachine :=
  (Owned.blank (fun _ _ => rfl) (emptyMachine_low 1 (by decide)) (le_refl _)).1

theorem emptyMachine_apart : KernelApart (· = 1) emptyMachine := by
  intro r va _ _ n hn
  obtain ⟨k,i,hp,-⟩ := mem_hwTables hn
  simp [emptyMachine] at hp

theorem emptyMachine_walk (va : BitVec 64) : hwWalk emptyMachine.mem 1 va = none := by
  have h : present 0#64 = false := by decide
  simp only [hwWalk,emptyMachine,h,Bool.not_false,if_true]

/-- A file within reach of a machine's memory that always loads within the task asks for lower-half
pages: run it where memory suffices. -/
theorem asksLower_of_alwaysConfined {file : Option VfsNode} {rand : BitVec 64}
    (hsize : (elfPlan file rand).1.length ≤ 2^37) (hc : AlwaysConfined file rand) :
    AsksLower file rand := by
  have hconf := hc (· = 1) emptyMachine 1 emptyMachine_owned emptyMachine_apart rfl
  have hperf := elfLoad_performs emptyMachine file 1 rand (le_refl _)
  have hroom : 4*((elfPlan file rand).1.length+1) ≤ emptyMachine.avail := by
    rw [emptyMachine_avail]
    omega
  obtain ⟨hmaps,hok⟩ := hperf.ample emptyMachine_low hroom
  rw [List.nil_append] at hmaps
  cases hplan : (elfPlan file rand).2 with
  | true =>
    obtain ⟨res,hres⟩ := hok hplan
    left
    intro va hva
    exact hconf.lower res hres va (hmaps ▸ hva)
  | false =>
    refine Or.inr ⟨hplan,fun va hva => ?_⟩
    obtain ⟨l,hl,-,hpres⟩ := hperf.maps
    rw [List.nil_append] at hl
    have hp := hpres (emptyMachine_low 1 (by decide)) va (by rw [← hl,hmaps]; exact hva)
    have hne : (elfLoad emptyMachine file (some 1) rand).2.machine.mem 1 (pml4Idx va) ≠
        emptyMachine.mem 1 (pml4Idx va) := by
      intro he
      rw [he] at hp
      simp [emptyMachine] at hp
    cases hconf.writes 1 (pml4Idx va) hne with
    | inl hs => exact (root_slot emptyMachine_owned.tables rfl rfl hs).2
    | inr hfree => exact absurd hfree (emptyMachine_low 1 (by decide)).not_free

/-- `elf_load` keeps to the task in every state exactly when the file asks for lower-half pages. -/
theorem elfLoad_confined_iff (file : Option VfsNode) (rand : BitVec 64) :
    (AsksLower file rand → AlwaysConfined file rand) ∧
    ((elfPlan file rand).1.length ≤ 2^37 → AlwaysConfined file rand → AsksLower file rand) :=
  ⟨alwaysConfined_of_asksLower,fun hsize hc => asksLower_of_alwaysConfined hsize hc⟩

/-- The `n` low bytes of a number. -/
def leBytes : Nat → Nat → List (BitVec 8)
  | 0,_ => []
  | n+1,x => BitVec.ofNat 8 x::leBytes n (x/256)

theorem length_leBytes (n x : Nat) : (leBytes n x).length = n := by
  induction n generalizing x with
  | zero => rfl
  | succ n ih => rw [leBytes,List.length_cons,ih]

/-- A smallest `ET_EXEC` file: the header and one writable `PT_LOAD` page at `vaddr`. -/
def onePageElf (vaddr : Nat) : VfsNode :=
  VfsNode.ofBytes
    ([0x7f#8,0x45#8,0x4c#8,0x46#8,2#8,1#8]++leBytes 10 0++leBytes 2 2++leBytes 2 62++leBytes 4 1++
      leBytes 8 vaddr++leBytes 8 64++leBytes 14 0++leBytes 2 56++leBytes 2 1++leBytes 6 0++
      leBytes 4 1++leBytes 4 6++leBytes 8 0++leBytes 8 vaddr++leBytes 8 vaddr++leBytes 8 0++
      leBytes 8 4096++leBytes 8 4096)

/-- A file with a segment at the first kernel-half address replaces the kernel's page there. -/
theorem elfLoad_kernel_segment :
    Owned (· = 256) taskMachine ∧ KernelApart (· = 256) taskMachine ∧
    ¬LoadConfined (· = 256) taskMachine 256 (some (onePageElf 0xFFFF800000000000)) 0#64 := by
  refine ⟨taskMachine_owned.1,taskMachine_apart,fun h => ?_⟩
  have hsame := h.kernel 256 rfl 0xFFFF800000000000#64 (by decide)
  exact absurd hsame (by decide)

theorem elfLoad_confined_iff_sample :
    AlwaysConfined (some (onePageElf 0x400000)) 0#64 ∧
    AsksLower (some (onePageElf 0x400000)) 0#64 := by
  have hlower : AsksLower (some (onePageElf 0x400000)) 0#64 := by
    have hplan : elfPlan (some (onePageElf 0x400000)) 0#64 = ([0x400000#64],true) := by
      decide
    left
    intro va hva
    rw [hplan,List.mem_singleton] at hva
    have hnat : (0x400000#64).toNat = 4194304 := by decide
    rw [hva,LowerHalf,hnat]
    omega
  have hsize : (elfPlan (some (onePageElf 0x400000)) 0#64).1.length ≤ 2^37 := by decide
  have hiff := elfLoad_confined_iff (some (onePageElf 0x400000)) 0#64
  exact ⟨hiff.1 hlower,hiff.2 hsize (hiff.1 hlower)⟩

end KiNBOL
