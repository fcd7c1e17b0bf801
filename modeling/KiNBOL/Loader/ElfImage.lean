import KiNBOL.Loader.ElfConfined

namespace KiNBOL

/-! The pages of an image with the flags of their segments, and what a load that succeeds has done
to the page tables: one page after another, in the order of the program headers. -/

/-- A page of an image and the `p_flags` of the segment it belongs to. -/
abbrev ImagePage := BitVec 64 × BitVec 32

def segmentVas : Nat → BitVec 64 → List (BitVec 64)
  | 0,_ => []
  | n+1,va => va::segmentVas n (va+4096#64)

def segmentImage (ph : Elf64Phdr) (bias : BitVec 64) : List ImagePage :=
  if ph.type = 1 ∧ ph.memsz ≠ 0#64 then
    (segmentVas (segmentPages ph bias) (segmentStart ph bias)).map (fun va => (va,ph.flags))
  else []

/-- The pages of a file's segments. -/
def imagePages (file : Option VfsNode) (rand : BitVec 64) : List ImagePage :=
  match file with
  | none => []
  | some node =>
    match elfHeaders node with
    | .error _ => []
    | .ok (eh,phdrs) => phdrs.flatMap (fun ph => segmentImage ph (loadBias eh rand))

/-- A page of an image with its bytes. -/
structure LoadedPage where
  va : BitVec 64
  flags : BitVec 32
  byte : Nat → BitVec 8

/-- The page loop of `elf_map_segment` as the pages it fills. -/
def pagesData (node : VfsNode) (flags : BitVec 32) (pageStart segOff : BitVec 64) :
    Nat → BitVec 64 → BitVec 64 → BitVec 64 → List LoadedPage
  | 0,_,_,_ => []
  | n+1,va,fileOff,fileLeft =>
    let start := copyStart pageStart segOff va
    let count := toCopy fileLeft start
    ⟨va,flags,filled start.toNat (pageRead node fileOff count)⟩::
      pagesData node flags pageStart segOff n (va+4096#64) (fileOff+count) (fileLeft-count)

def segmentData (node : VfsNode) (ph : Elf64Phdr) (bias : BitVec 64) : List LoadedPage :=
  if ph.type = 1 ∧ ph.memsz ≠ 0#64 then
    pagesData node ph.flags (segmentStart ph bias) (segmentOff ph bias) (segmentPages ph bias)
      (segmentStart ph bias) ph.offset ph.filesz
  else []

def imageData (file : Option VfsNode) (rand : BitVec 64) : List LoadedPage :=
  match file with
  | none => []
  | some node =>
    match elfHeaders node with
    | .error _ => []
    | .ok (eh,phdrs) => phdrs.flatMap (fun ph => segmentData node ph (loadBias eh rand))

/-- `PF_X` and `PF_W`. -/
def execFlag (flags : BitVec 32) : Bool := decide (flags &&& 1#32 ≠ 0#32)
def writeFlag (flags : BitVec 32) : Bool := decide (flags &&& 2#32 ≠ 0#32)

/-- The flags of the last page of the image that goes to the page-table slot of `w`. -/
def lastFlags (w : BitVec 64) : List ImagePage → Option (BitVec 32)
  | [] => none
  | x::l => (lastFlags w l).or (if SameLeaf x.1 w then some x.2 else none)

/-- One page of an image is mapped: a frame is taken and filled and goes through `vmm_map`. -/
def MapsPage (p : Nat) (x : ImagePage) (m m' : Machine) : Prop :=
  ∃ f m₁, Taken m m₁ f ∧ vmmMap m₁ (some p) x.1 (pageAddr f) (elfSegmentFlags x.2) = (0,m')

inductive MapsImage (p : Nat) : List ImagePage → Machine → Machine → Prop
  | done (m : Machine) : MapsImage p [] m m
  | page {x : ImagePage} {l : List ImagePage} {m m₁ m₂ : Machine} (h : MapsPage p x m m₁)
      (hrest : MapsImage p l m₁ m₂) : MapsImage p (x::l) m m₂

/-- The same with the bytes that the frame holds. -/
def LoadsPage (p : Nat) (x : LoadedPage) (m m' : Machine) : Prop :=
  ∃ f m₁, Taken m m₁ f ∧ (∀ o, o < 4096 → memByte m₁.mem f o = x.byte o) ∧
    vmmMap m₁ (some p) x.va (pageAddr f) (elfSegmentFlags x.flags) = (0,m')

inductive LoadsImage (p : Nat) : List LoadedPage → Machine → Machine → Prop
  | done (m : Machine) : LoadsImage p [] m m
  | page {x : LoadedPage} {l : List LoadedPage} {m m₁ m₂ : Machine} (h : LoadsPage p x m m₁)
      (hrest : LoadsImage p l m₁ m₂) : LoadsImage p (x::l) m m₂

def LoadedPage.entry (x : LoadedPage) : ImagePage := (x.va,x.flags)

variable {roots : Nat → Prop} {p : Nat} {m m₁ m₂ m' : Machine} {node : VfsNode} {x : ImagePage}
  {l : List ImagePage} {y : LoadedPage} {ys ys' : List LoadedPage} {w : BitVec 64}

theorem elfSegmentFlags_has (flags : BitVec 32) :
    has (elfSegmentFlags flags) vmmPresent = true ∧
    has (elfSegmentFlags flags) vmmUser = true ∧
    has (elfSegmentFlags flags) vmmWrite = writeFlag flags ∧
    has (elfSegmentFlags flags) vmmNx = !execFlag flags := by
  have hall : ∀ w e : Bool,
      let bits := vmmPresent ||| vmmUser ||| (if w then vmmWrite else 0#64) |||
        (if e then vmmNx else 0#64)
      has bits vmmPresent = true ∧ has bits vmmUser = true ∧ has bits vmmWrite = w ∧
        has bits vmmNx = e := by decide
  have h := hall (writeFlag flags) (!execFlag flags)
  simpa only [elfSegmentFlags,writeFlag,execFlag,decide_eq_true_eq,Bool.not_eq_true',
    decide_eq_false_iff_not,ne_eq,not_not] using h

theorem LoadsImage.append (h1 : LoadsImage p ys m m₁) (h2 : LoadsImage p ys' m₁ m₂) :
    LoadsImage p (ys++ys') m m₂ := by
  induction h1 with
  | done m => exact h2
  | page h _ ih => exact .page h (ih h2)

theorem LoadsPage.maps (h : LoadsPage p y m m') : MapsPage p y.entry m m' := by
  obtain ⟨f,m₁,ht,-,hmap⟩ := h
  exact ⟨f,m₁,ht,hmap⟩

theorem LoadsImage.maps (h : LoadsImage p ys m m') :
    MapsImage p (ys.map LoadedPage.entry) m m' := by
  induction h with
  | done m => exact .done m
  | page h _ ih => exact .page h.maps ih

theorem MapsPage.total (h : MapsPage p x m m') (hlim : m.pmm.totalPages ≤ frameLimit) :
    m'.pmm.totalPages = m.pmm.totalPages := by
  obtain ⟨f,m₁,ht,hmap⟩ := h
  have hf : f < frameLimit := lt_of_lt_of_le (takes_one ht.takes).1.1 hlim
  have hsp := (vmmMap_spends m₁ p x.1 hf (elfSegmentFlags_present x.2)
    (ht.takes.total.le.trans hlim)).1
  rw [hmap] at hsp
  exact hsp.total.trans ht.takes.total

theorem LoadsImage.total (h : LoadsImage p ys m m') (hlim : m.pmm.totalPages ≤ frameLimit) :
    m'.pmm.totalPages = m.pmm.totalPages := by
  induction h with
  | done m => rfl
  | page h _ ih =>
    have h1 := h.maps.total hlim
    exact (ih (h1.le.trans hlim)).trans h1

/-- A turn of the page loop that goes well maps a page. -/
theorem elfMapPage_loads {va start fileOff count : BitVec 64} {flags : BitVec 32} {s s' : Loading}
    {a : Unit} (hlim : s.machine.pmm.totalPages ≤ frameLimit)
    (h : elfMapPage (some p) node (elfSegmentFlags flags) va start fileOff count s = (.ok a,s')) :
    LoadsPage p ⟨va,flags,filled start.toNat (pageRead node fileOff count)⟩ s.machine
      s'.machine := by
  rcases elfMapPage_cases (some p) node (elfSegmentFlags flags) va start fileOff count s hlim with
    ⟨-,hres⟩ | ⟨f,m₁,ht,hbytes,⟨-,msg,hres⟩ | ⟨-,-,msg,hres⟩ | ⟨-,hok,hres⟩⟩
  · rw [hres] at h
    simp at h
  · rw [hres] at h
    simp at h
  · rw [hres] at h
    simp at h
  · rw [hres,Prod.mk.injEq] at h
    rw [← h.2]
    exact ⟨f,m₁,ht,hbytes,Prod.ext hok rfl⟩

theorem elfMapPages_loads {pageStart segOff : BitVec 64} {flags : BitVec 32} (n : Nat)
    (va fileOff fileLeft : BitVec 64) (s s' : Loading) (a : Unit)
    (hlim : s.machine.pmm.totalPages ≤ frameLimit)
    (h : elfMapPages (some p) node (elfSegmentFlags flags) pageStart segOff n va fileOff fileLeft s =
      (.ok a,s')) :
    LoadsImage p (pagesData node flags pageStart segOff n va fileOff fileLeft) s.machine
      s'.machine := by
  induction n generalizing va fileOff fileLeft s with
  | zero =>
    rw [elfMapPages,Prod.mk.injEq] at h
    rw [← h.2]
    exact .done _
  | succ n ih =>
    rw [elfMapPages] at h
    cases hpage : elfMapPage (some p) node (elfSegmentFlags flags) va (copyStart pageStart segOff va)
        fileOff (toCopy fileLeft (copyStart pageStart segOff va)) s with
    | mk r s₁ =>
      rw [hpage] at h
      cases r with
      | error msg => simp [Loading.next] at h
      | ok b =>
        have h1 := elfMapPage_loads hlim hpage
        exact .page h1 (ih _ _ _ s₁ ((h1.maps.total hlim).le.trans hlim) h)

theorem elfMapSegment_loads {ph : Elf64Phdr} {bias : BitVec 64} {s s' : Loading} {a : Unit}
    (hlim : s.machine.pmm.totalPages ≤ frameLimit) (hload : ph.type = 1)
    (h : elfMapSegment (some p) node ph bias s = (.ok a,s')) :
    LoadsImage p (segmentData node ph bias) s.machine s'.machine := by
  unfold elfMapSegment at h
  unfold segmentData
  split at h
  · next hz =>
    rw [if_neg (by simp [hz])]
    rw [Prod.mk.injEq] at h
    rw [← h.2]
    exact .done _
  · next hz =>
    rw [if_pos ⟨hload,hz⟩]
    split at h
    · simp at h
    · exact elfMapPages_loads _ _ _ _ s s' a hlim h

theorem elfLoadSegments_loads {bias : BitVec 64} (phs : List Elf64Phdr) (highest phdr : BitVec 64)
    (s s' : Loading) (res : BitVec 64 × BitVec 64) (hlim : s.machine.pmm.totalPages ≤ frameLimit)
    (h : elfLoadSegments (some p) node bias phs highest phdr s = (.ok res,s')) :
    LoadsImage p (phs.flatMap (fun ph => segmentData node ph bias)) s.machine s'.machine := by
  induction phs generalizing highest phdr s with
  | nil =>
    rw [elfLoadSegments,Prod.mk.injEq] at h
    rw [← h.2]
    exact .done _
  | cons ph rest ih =>
    rw [elfLoadSegments] at h
    rw [List.flatMap_cons]
    split at h
    · next hload =>
      cases hseg : elfMapSegment (some p) node ph bias s with
      | mk r s₁ =>
        rw [hseg] at h
        cases r with
        | error msg => simp [Loading.next] at h
        | ok b =>
          have h1 := elfMapSegment_loads hlim hload hseg
          exact h1.append (ih _ _ s₁ ((h1.total hlim).le.trans hlim) h)
    · next hload =>
      have hnone : segmentData node ph bias = [] := if_neg (fun hh => hload hh.1)
      rw [hnone,List.nil_append]
      split at h
      · exact ih _ _ s hlim h
      · split at h
        · simp at h
        · exact ih _ _ s hlim h

/-- A load that succeeds has mapped the pages of the image, one after the other. -/
theorem elfLoad_loads {file : Option VfsNode} {rand : BitVec 64} {res : ElfLoadResult}
    (hlim : m.pmm.totalPages ≤ frameLimit) (hres : (elfLoad m file (some p) rand).1 = .ok res) :
    LoadsImage p (imageData file rand) m (elfLoad m file (some p) rand).2.machine := by
  obtain ⟨s',h⟩ : ∃ s', elfLoad m file (some p) rand = (.ok res,s') := ⟨_,Prod.ext hres rfl⟩
  rw [h]
  cases file with
  | none => simp [elfLoad] at h
  | some node =>
    unfold elfLoad at h
    unfold imageData
    cases hh : elfHeaders node with
    | error msg =>
      simp only [hh] at h
      simp at h
    | ok y =>
      obtain ⟨eh,phdrs⟩ := y
      simp only [hh] at h ⊢
      cases hsegs : elfLoadSegments (some p) node (loadBias eh rand) phdrs 0#64 0#64 ⟨m,[]⟩ with
      | mk r s₁ =>
        rw [hsegs] at h
        cases r with
        | error msg => simp [Loading.next] at h
        | ok b =>
          rw [Loading.next,Prod.mk.injEq] at h
          rw [← h.2]
          exact elfLoadSegments_loads phdrs 0#64 0#64 ⟨m,[]⟩ s₁ b hlim hsegs

theorem pagesData_entries {flags : BitVec 32} {pageStart segOff : BitVec 64} (n : Nat)
    (va fileOff fileLeft : BitVec 64) :
    (pagesData node flags pageStart segOff n va fileOff fileLeft).map LoadedPage.entry =
      (segmentVas n va).map (fun va => (va,flags)) := by
  induction n generalizing va fileOff fileLeft with
  | zero => rfl
  | succ n ih =>
    rw [pagesData,segmentVas,List.map_cons,List.map_cons,ih]
    rfl

theorem imageData_entries (file : Option VfsNode) (rand : BitVec 64) :
    (imageData file rand).map LoadedPage.entry = imagePages file rand := by
  unfold imageData imagePages
  cases file with
  | none => rfl
  | some node =>
    dsimp only
    cases elfHeaders node with
    | error msg => rfl
    | ok y =>
      dsimp only
      rw [List.map_flatMap]
      congr 1
      funext ph
      unfold segmentData segmentImage
      split
      · exact pagesData_entries _ _ _ _
      · rfl

theorem elfLoad_maps {file : Option VfsNode} {rand : BitVec 64} {res : ElfLoadResult}
    (hlim : m.pmm.totalPages ≤ frameLimit) (hres : (elfLoad m file (some p) rand).1 = .ok res) :
    MapsImage p (imagePages file rand) m (elfLoad m file (some p) rand).2.machine :=
  imageData_entries file rand ▸ (elfLoad_loads hlim hres).maps

/-- A taken frame is mapped: the tables stay a tree, only its slot gets another entry, and what was
put into the frame stays. -/
theorem Taken.mapped {f : Nat} (ht : Taken m m₁ f) {va : BitVec 64} {flags : BitVec 32}
    (hmap : vmmMap m₁ (some p) va (pageAddr f) (elfSegmentFlags flags) = (0,m'))
    (ho : Owned roots m) (hr : roots p) (hva : (pml4Idx va).val < 256) :
    Owned roots m' ∧ Evolves roots p m m' ∧ m'.mem f = m₁.mem f ∧
      ∀ w, LowerHalf w → leafWord m'.mem p w =
        if SameLeaf va w then leafEntry (pageAddr f) (elfSegmentFlags flags)
        else leafWord m.mem p w := by
  obtain ⟨hlow,hpath⟩ := vaOf_spec (b := pdptIdx va) (c := pdIdx va) (d := ptIdx va) hva
  obtain ⟨ho1,hheld1,hnew1,hev1,-,hent1⟩ := @Owned.taken roots p m m₁ f ho ht
  obtain ⟨m2,-,hg,hnew2,hheld2,hcase⟩ := vmmMap_fresh ho1 hr hlow hheld1 hnew1 (elfSegmentFlags flags)
  have hsp := mapTaken_spec ho hr hlow ht (elfSegmentFlags flags)
  rw [mapTaken,vmmMap_alias (some p) (pageAddr f) (elfSegmentFlags flags) hpath,hmap,
    if_pos rfl] at hsp
  rw [vmmMap_alias (some p) (pageAddr f) (elfSegmentFlags flags) hpath,hmap] at hcase
  rcases hcase with hfail | ⟨mem',hch,-,hres⟩
  · simp at hfail
  rw [Prod.mk.injEq] at hres
  have hkept : mem' f = m₁.mem f := by
    funext i
    by_contra hne
    by_cases h2 : m2.mem f i = m₁.mem f i
    · exact hnew2 ((hch.wrote f i (h2 ▸ hne)).node hr)
    · cases hg.wrote f i h2 with
      | inl hs => exact hnew1 (hs.node hr)
      | inr hfree => exact hheld1.not_free hfree
  refine ⟨hsp.owned,hsp.toEvolves,?_,fun w hw => ?_⟩
  · rw [hres.2]
    exact hkept
  rw [hres.2]
  dsimp only
  have hsame : (p = p ∧ tablePath w = tablePath (vaOf (pml4Idx va) (pdptIdx va) (pdIdx va)
      (ptIdx va)) ∧ ptIdx w = ptIdx (vaOf (pml4Idx va) (pdptIdx va) (pdIdx va) (ptIdx va))) ↔
      SameLeaf va w := by
    rw [hpath.1,hpath.2]
    show p = p ∧ tablePath w = tablePath va ∧ ptIdx w = ptIdx va ↔ _
    rw [SameLeaf]
    simp
  have hold : leafWord m2.mem p w = leafWord m.mem p w :=
    (hg.leaves p (tablePath w) (ptIdx w) hr (lowerPath_va hw) rfl).trans
      (hent1 p (tablePath w) (ptIdx w) hr (lowerPath_va hw))
  rw [hch.leafWord_eq hr hw,hold]
  exact if_congr hsame rfl rfl

/-- One page of the image. -/
theorem MapsPage.leaves (h : MapsPage p x m m') (ho : Owned roots m) (hr : roots p)
    (hx : (pml4Idx x.1).val < 256) : Owned roots m' ∧ Evolves roots p m m' ∧
      ∃ f, f < frameLimit ∧ ∀ w, LowerHalf w → leafWord m'.mem p w =
        if SameLeaf x.1 w then leafEntry (pageAddr f) (elfSegmentFlags x.2) else leafWord m.mem p w := by
  obtain ⟨f,m₁,ht,hmap⟩ := h
  obtain ⟨ho',hev,-,hleaf⟩ := ht.mapped hmap ho hr hx
  exact ⟨ho',hev,f,ho.free_lt (takes_one ht.takes).1,hleaf⟩

/-- The image: each slot has the flags of the last page that went there. -/
theorem MapsImage.leaves (h : MapsImage p l m m') (ho : Owned roots m) (hr : roots p)
    (hl : ∀ x ∈ l, (pml4Idx x.1).val < 256) : Owned roots m' ∧ ∀ w, LowerHalf w →
      (lastFlags w l = none → leafWord m'.mem p w = leafWord m.mem p w) ∧
      ∀ g, lastFlags w l = some g → ∃ f, f < frameLimit ∧
        leafWord m'.mem p w = leafEntry (pageAddr f) (elfSegmentFlags g) := by
  induction h with
  | done m => exact ⟨ho,fun w _ => ⟨fun _ => rfl,fun g hg => by simp [lastFlags] at hg⟩⟩
  | @page x l m m₁ m₂ h _ ih =>
    obtain ⟨ho1,-,f,hf,hleaf⟩ := h.leaves ho hr (hl x (by simp))
    obtain ⟨ho2,hrest⟩ := ih ho1 (fun y hy => hl y (by simp [hy]))
    refine ⟨ho2,fun w hw => ?_⟩
    obtain ⟨hnone,hsome⟩ := hrest w hw
    rw [lastFlags]
    cases hlast : lastFlags w l with
    | some g' =>
      refine ⟨fun hn => by simp at hn,fun g hg => hsome g ?_⟩
      rw [hlast]
      simpa using hg
    | none =>
      rw [Option.none_or]
      have hw1 := (hnone hlast).trans (hleaf w hw)
      split
      · next hs =>
        rw [if_pos hs] at hw1
        refine ⟨fun hn => by simp at hn,fun g hg => ⟨f,hf,?_⟩⟩
        rw [Option.some.injEq] at hg
        rw [hw1,hg]
      · next hs =>
        rw [if_neg hs] at hw1
        exact ⟨fun _ => hw1,fun g hg => by simp at hg⟩

end KiNBOL
