import KiNBOL.Loader.ElfImage

namespace KiNBOL

/-- No page of the image is writable and executable: those of executable segments are not writable,
those of the others not executable. -/
structure ImageWx (mem : PhysMem) (p : Nat) (l : List ImagePage) : Prop where
  exec : ∀ x ∈ l, execFlag x.2 = true → ∀ y, hwWalk mem p x.1 = some y → y.write = false
  noexec : ∀ x ∈ l, execFlag x.2 = false → ∀ y, hwWalk mem p x.1 = some y → y.nx = true
  apart : ∀ x ∈ l, ∀ y, hwWalk mem p x.1 = some y → ¬(y.write = true ∧ y.nx = false)

/-- Every load of the file that succeeds keeps to that, into whichever pagemap. -/
def AlwaysWx (file : Option VfsNode) (rand : BitVec 64) : Prop :=
  ∀ (roots : Nat → Prop) (m : Machine) (p : Nat), Owned roots m → KernelApart roots m → roots p →
    ∀ res, (elfLoad m file (some p) rand).1 = .ok res →
      ImageWx (elfLoad m file (some p) rand).2.machine.mem p (imagePages file rand)

/-- The flags that a page ends up with suit all segments it belongs to. -/
def FlagsSuit (l : List ImagePage) : Prop :=
  ∀ x ∈ l, ∀ g, lastFlags x.1 l = some g →
    (execFlag x.2 = true → writeFlag g = false) ∧ (execFlag x.2 = false → execFlag g = false)

/-- The file cannot be loaded to the end, or its pages all go through lower PML4 slots and their
flags suit. -/
def WxPlanned (file : Option VfsNode) (rand : BitVec 64) : Prop :=
  (elfPlan file rand).2 = false ∨
  (∀ x ∈ imagePages file rand, (pml4Idx x.1).val < 256) ∧ FlagsSuit (imagePages file rand)

variable {roots : Nat → Prop} {p : Nat} {m m' : Machine} {mem : PhysMem} {va w : BitVec 64}
  {x : ImagePage} {l : List ImagePage}

/-- The walk looks at the four indices of an address only. -/
theorem hwWalk_alias (mem : PhysMem) (p : Nat) (h : SameLeaf va w) :
    hwWalk mem p w = hwWalk mem p va := by
  obtain ⟨hp,h4⟩ := h
  simp only [tablePath,List.cons.injEq,and_true] at hp
  obtain ⟨h1,h2,h3⟩ := hp
  have e3 := congrArg Fin.val h3
  have e4 := congrArg Fin.val h4
  rw [pdIdx_val,pdIdx_val] at e3
  rw [ptIdx_val,ptIdx_val] at e4
  have hlarge : pageOf w%2^18 = pageOf va%2^18 := by
    simp only [pageOf]
    omega
  have hhuge : pageOf w%2^9 = pageOf va%2^9 := by omega
  unfold hwWalk
  rw [h1,h2,h3,h4,hlarge,hhuge]

theorem lastFlags_alias (h : SameLeaf va w) (l : List ImagePage) :
    lastFlags w l = lastFlags va l := by
  induction l with
  | nil => rfl
  | cons x l ih =>
    have hiff : SameLeaf x.1 w ↔ SameLeaf x.1 va := by
      unfold SameLeaf at *
      rw [h.1,h.2]
    simp only [lastFlags,ih,hiff]

theorem lastFlags_mem (hx : x ∈ l) : ∃ g, lastFlags x.1 l = some g := by
  induction l with
  | nil => simp at hx
  | cons y l ih =>
    rw [lastFlags]
    rcases List.mem_cons.mp hx with h | h
    · subst h
      rw [if_pos (show SameLeaf x.1 x.1 from ⟨rfl,rfl⟩)]
      cases lastFlags x.1 l with
      | none => exact ⟨x.2,rfl⟩
      | some g => exact ⟨g,rfl⟩
    · obtain ⟨g,hg⟩ := ih h
      rw [hg]
      exact ⟨g,rfl⟩

/-- The permissions of a page of an image in the lower half. -/
theorem MapsImage.walk (h : MapsImage p l m m') (ho : Owned roots m) (hr : roots p)
    (hl : ∀ x ∈ l, (pml4Idx x.1).val < 256) (hx : x ∈ l) {g : BitVec 32}
    (hg : lastFlags x.1 l = some g) :
    ∃ f, hwWalk m'.mem p x.1 = some ⟨f,writeFlag g,true,!execFlag g⟩ := by
  obtain ⟨hlow,hpath,hpt⟩ := vaOf_spec (b := pdptIdx x.1) (c := pdIdx x.1) (d := ptIdx x.1) (hl x hx)
  have hs : SameLeaf x.1 (vaOf (pml4Idx x.1) (pdptIdx x.1) (pdIdx x.1) (ptIdx x.1)) := ⟨hpath,hpt⟩
  obtain ⟨ho',hleaf⟩ := h.leaves ho hr hl
  obtain ⟨f,hf,he⟩ := (hleaf _ hlow).2 g (by rw [lastFlags_alias hs,hg])
  obtain ⟨hpres,huser,hwrite,hnx⟩ := elfSegmentFlags_has g
  obtain ⟨k0,k1,k2,k3⟩ := leafEntry_flags hf (elfSegmentFlags g)
  refine ⟨f,?_⟩
  rw [← hwWalk_alias m'.mem p hs,ho'.tables.hwWalk_lower hr hlow,he,leafXlat,present,k0,hpres,
    if_pos rfl,k1,k2,k3,hwrite,huser,hnx,framePage_leafEntry hf]

theorem alwaysWx_of_planned {file : Option VfsNode} {rand : BitVec 64} (h : WxPlanned file rand) :
    AlwaysWx file rand := by
  intro roots m p ho _ hr res hres
  have hok := (elfLoad_performs m file p rand ho.limit).ok res hres
  rcases h with hno | ⟨hlow,hsuit⟩
  · rw [hno] at hok
    exact absurd hok.2 (by simp)
  have hmaps := elfLoad_maps ho.limit hres
  have hperm : ∀ x ∈ imagePages file rand, ∀ y,
      hwWalk (elfLoad m file (some p) rand).2.machine.mem p x.1 = some y →
      (execFlag x.2 = true → y.write = false) ∧ (execFlag x.2 = false → y.nx = true) := by
    intro x hx y hy
    obtain ⟨g,hg⟩ := lastFlags_mem hx
    obtain ⟨f,hf⟩ := hmaps.walk ho hr hlow hx hg
    rw [hf,Option.some.injEq] at hy
    subst hy
    obtain ⟨h1,h2⟩ := hsuit x hx g hg
    refine ⟨h1,fun he => ?_⟩
    dsimp only
    rw [h2 he]
    rfl
  refine ⟨fun x hx he y hy => (hperm x hx y hy).1 he,fun x hx he y hy => (hperm x hx y hy).2 he,
    fun x hx y hy hwx => ?_⟩
  obtain ⟨h1,h2⟩ := hperm x hx y hy
  cases hex : execFlag x.2 with
  | true => simp [h1 hex] at hwx
  | false => simp [h2 hex] at hwx

/-- Pages below `B` that do not change hands, with no table of the pagemap in page 1 among them but
its root. -/
structure LowPages (B : Nat) (m : Machine) : Prop where
  owned : Owned (· = 1) m
  root : 1 < B
  held : ∀ n, n < B → m.pmm.Held n
  nodes : ∀ n, n < B → UserNode (· = 1) m.mem n → n = 1

/-- The software walk from the root in page 1 finds tables all the way. -/
structure WalksTo (mem : PhysMem) (va : BitVec 64) (t2 t3 t4 : Nat) : Prop where
  pml4 : present (mem 1 (pml4Idx va)) = true ∧ pageOf (mem 1 (pml4Idx va) &&& pageMask) = t2
  pdpt : present (mem t2 (pdptIdx va)) = true ∧ pageOf (mem t2 (pdptIdx va) &&& pageMask) = t3
  pd : present (mem t3 (pdIdx va)) = true ∧ pageOf (mem t3 (pdIdx va) &&& pageMask) = t4

/-- A page mapped in the lower half leaves them alone but for the root's lower half. -/
theorem LowPages.lower {B : Nat} (h : LowPages B m) (hx : MapsPage 1 x m m')
    (hlow : (pml4Idx x.1).val < 256) :
    LowPages B m' ∧ ∀ n i, n < B → (n = 1 → 256 ≤ i.val) → m'.mem n i = m.mem n i := by
  obtain ⟨ho',hev,-⟩ := hx.leaves h.owned rfl hlow
  refine ⟨⟨ho',h.root,fun n hn => ⟨hev.total ▸ (h.held n hn).1,?_⟩,fun n hn hnode => ?_⟩,?_⟩
  · cases hb : m'.pmm.bmGet n with
    | true => rfl
    | false =>
      exact absurd (hev.free n ⟨hev.total ▸ (h.held n hn).1,hb⟩) (h.held n hn).not_free
  · obtain ⟨r,q,hr,hq,hf⟩ := hnode
    rcases hev.fresh r q n hr hq hf with hold | hfree
    · exact h.nodes n hn ⟨r,q,hr,hq,hold⟩
    · exact absurd hfree (h.held n hn).not_free
  · intro n i hn hi
    by_contra hne
    rcases hev.wrote n i hne with hs | hf
    · have hone := h.nodes n hn (hs.node rfl)
      rw [hone] at hs
      have := (root_slot h.owned.tables rfl rfl hs).2
      have := hi hone
      omega
    · exact (h.held n hn).not_free hf

/-- A page mapped where the software walk finds tables all the way: only the last is written. -/
theorem LowPages.upper {B t2 t3 t4 : Nat} (h : LowPages B m) (hx : MapsPage 1 x m m')
    (hw : WalksTo m.mem x.1 t2 t3 t4) (ht : t2 < B ∧ t3 < B ∧ t4 < B) (hroot : t4 ≠ 1) :
    LowPages B m' ∧ ∀ n i, n < B → n ≠ t4 → m'.mem n i = m.mem n i := by
  obtain ⟨h1,h2,h3⟩ := hw
  obtain ⟨f,m₁,htake,hmap⟩ := hx
  obtain ⟨hfree,-,hbits⟩ := takes_one htake.takes
  have hsame : ∀ n, n < B → m₁.mem n = m.mem n := by
    intro n hn
    apply htake.others n
    intro he
    exact (h.held n hn).not_free (he ▸ hfree)
  obtain ⟨ho1,-,-,-,hnode1,-⟩ := @Owned.taken (· = 1) 1 m m₁ f h.owned htake
  rw [← hsame 1 h.root] at h1
  rw [← hsame t2 ht.1] at h2
  rw [← hsame t3 ht.2.1] at h3
  have hres : vmmMap m₁ (some 1) x.1 (pageAddr f) (elfSegmentFlags x.2) =
      (0,{ m₁ with
        mem := setSlot m₁.mem t4 (ptIdx x.1) (leafEntry (pageAddr f) (elfSegmentFlags x.2)) }) := by
    simp only [vmmMap,getOrCreate_hit h1.1,h1.2,getOrCreate_hit h2.1,h2.2,getOrCreate_hit h3.1,h3.2]
  rw [hres,Prod.mk.injEq] at hmap
  rw [← hmap.2]
  have hother : ∀ n i, n ≠ t4 → setSlot m₁.mem t4 (ptIdx x.1)
      (leafEntry (pageAddr f) (elfSegmentFlags x.2)) n i = m₁.mem n i :=
    fun n i hn => setSlot_other (fun hh => hn hh.1)
  have hfresh : ¬UserNode (· = 1) m₁.mem t4 :=
    fun hn => hroot (h.nodes t4 ht.2.2 ((hnode1 t4).mp hn))
  obtain ⟨ho2,hfol,-⟩ := ho1.other_pages (fun r n i hr hs =>
    hother n i (fun he => hfresh (he ▸ hs.node hr)))
  refine ⟨⟨ho2,h.root,fun n hn => ?_,fun n hn hnode => ?_⟩,fun n i hn hne => ?_⟩
  · exact ⟨htake.takes.total ▸ (h.held n hn).1,(hbits n).mpr (Or.inl (h.held n hn).2)⟩
  · obtain ⟨r,q,hr,hq,hf⟩ := hnode
    exact h.nodes n hn ((hnode1 n).mp ⟨r,q,hr,hq,(hfol r q hr hq).symm.trans hf⟩)
  · exact (hother n i hne).trans (by rw [hsame n hn])

/-- The empty machine with a kernel half: all of it is one huge page after another, writable and
executable, all on frame 0. -/
def wallMachine : Machine :=
  { emptyMachine with mem := fun n i =>
      if n = 1 ∧ 256 ≤ i.val then 0x2003#64
      else if n = 2 then 0x3003#64
      else if n = 3 then 0x83#64
      else 0#64 }

/-- Its kernel half stands. -/
structure Walled (m : Machine) : Prop where
  owned : Owned (· = 1) m
  held : ∀ n, n < 4 → m.pmm.Held n
  nodes : ∀ n, n < 4 → UserNode (· = 1) m.mem n → n = 1
  pml4 : ∀ i : Fin 512, 256 ≤ i.val → m.mem 1 i = 0x2003#64
  pdpt : ∀ i, m.mem 2 i = 0x3003#64
  pd : ∀ i, m.mem 3 i = 0x83#64

theorem wallMachine_walled : Walled wallMachine := by
  have hheld : ∀ n, n < 4 → wallMachine.pmm.Held n :=
    fun n hn => emptyMachine_low n (lt_trans hn (by decide))
  have hb := @Owned.blank 1 wallMachine (fun i hi => by simp [wallMachine,hi]) (hheld 1 (by omega))
    (le_refl _)
  exact ⟨hb.1,hheld,fun n _ hn => hb.2 n hn,fun i hi => by simp [wallMachine,hi],
    fun i => by simp [wallMachine],fun i => by simp [wallMachine]⟩

theorem wall_entries : present 0x2003#64 = true ∧ present 0x3003#64 = true ∧
    present 0x83#64 = true ∧ has 0x3003#64 vmmHuge = false ∧ has 0x83#64 vmmHuge = true ∧
    framePage 0x2003#64 = 2 ∧ framePage 0x3003#64 = 3 := by decide

theorem wall_perms (f : Nat) : (xlat f [0x2003#64,0x3003#64,0x83#64]).write = true ∧
    (xlat f [0x2003#64,0x3003#64,0x83#64]).nx = false := by
  have h : ([0x2003#64,0x3003#64,0x83#64] : List (BitVec 64)).all (has · vmmWrite) = true ∧
      ([0x2003#64,0x3003#64,0x83#64] : List (BitVec 64)).any (has · vmmNx) = false := by decide
  exact h

theorem Walled.walk (h : Walled m) (hva : 256 ≤ (pml4Idx va).val) :
    ∃ y, hwWalk m.mem 1 va = some y ∧ y.write = true ∧ y.nx = false := by
  obtain ⟨h1,h2,h3,h4,h5,h6,h7⟩ := wall_entries
  refine ⟨xlat (framePage 0x83#64/2^9*2^9+pageOf va%2^9) [0x2003#64,0x3003#64,0x83#64],?_,
    wall_perms _⟩
  simp only [hwWalk,h.pml4 _ hva,h1,h6,h.pdpt,h2,h4,h7,h.pd,h3,h5,Bool.not_true,Bool.false_eq_true,
    if_false,if_true]

theorem wallMachine_apart : KernelApart (· = 1) wallMachine := by
  intro r va hr hva n hn
  subst hr
  have hw := wallMachine_walled
  obtain ⟨h1,h2,h3,h4,h5,h6,h7⟩ := wall_entries
  simp only [hwTables,hw.pml4 _ (pml4Idx_kernel hva),h1,h6,hw.pdpt,h2,h4,h7,hw.pd,h3,h5,Bool.not_true,
    Bool.or_false,Bool.or_true,Bool.false_eq_true,if_false,if_true] at hn
  have hlt : n < 4 ∧ n ≠ 1 := by
    simp only [List.mem_cons,List.not_mem_nil,or_false] at hn
    omega
  exact ⟨fun hnode => hlt.2 (hw.nodes n hlt.1 hnode),(hw.held n hlt.1).not_free⟩

theorem Walled.lowPages (h : Walled m) : LowPages 4 m :=
  ⟨h.owned,by omega,h.held,h.nodes⟩

/-- A page of the image leaves it standing: below it builds up the lower half, in it the software
walk takes the frame of a huge page for a table and writes there. -/
theorem Walled.page (h : Walled m) (hx : MapsPage 1 x m m') : Walled m' := by
  obtain ⟨h1,h2,h3,-⟩ := wall_entries
  obtain ⟨hlow',hkept⟩ : LowPages 4 m' ∧
      ∀ n i, n < 4 → n ≠ 0 → (n = 1 → 256 ≤ i.val) → m'.mem n i = m.mem n i := by
    by_cases hlow : (pml4Idx x.1).val < 256
    · obtain ⟨hl,hk⟩ := h.lowPages.lower hx hlow
      exact ⟨hl,fun n i hn _ hi => hk n i hn hi⟩
    · have hw : WalksTo m.mem x.1 2 3 0 := by
        refine ⟨?_,?_,?_⟩
        · rw [h.pml4 _ (by omega)]
          exact ⟨h1,by decide⟩
        · rw [h.pdpt]
          exact ⟨h2,by decide⟩
        · rw [h.pd]
          exact ⟨h3,by decide⟩
      obtain ⟨hl,hk⟩ := h.lowPages.upper hx hw (by decide) (by decide)
      exact ⟨hl,fun n i hn h0 _ => hk n i hn h0⟩
  refine ⟨hlow'.owned,hlow'.held,hlow'.nodes,fun i hi => ?_,fun i => ?_,fun i => ?_⟩
  · rw [hkept 1 i (by omega) (by omega) (fun _ => hi),h.pml4 i hi]
  · rw [hkept 2 i (by omega) (by omega) (by omega),h.pdpt]
  · rw [hkept 3 i (by omega) (by omega) (by omega),h.pd]

theorem Walled.image (hmaps : MapsImage 1 l m m') (h : Walled m) : Walled m' := by
  induction hmaps with
  | done m => exact h
  | page hx _ ih => exact ih (h.page hx)

/-- A file within reach of a machine's memory that always keeps to W^X is planned so: run it where
memory suffices, over an empty kernel half and over the wall. -/
theorem planned_of_alwaysWx {file : Option VfsNode} {rand : BitVec 64}
    (hsize : (elfPlan file rand).1.length ≤ 2^37) (h : AlwaysWx file rand) :
    WxPlanned file rand := by
  cases hplan : (elfPlan file rand).2 with
  | false => exact Or.inl hplan
  | true =>
    have hroom : 4*((elfPlan file rand).1.length+1) ≤ emptyMachine.avail := by
      rw [emptyMachine_avail]
      omega
    have hlow : ∀ x ∈ imagePages file rand, (pml4Idx x.1).val < 256 := by
      intro x hx
      by_contra hhigh
      obtain ⟨res,hres⟩ := ((elfLoad_performs wallMachine file 1 rand (le_refl _)).ample
        emptyMachine_low hroom).2 hplan
      have hmaps := elfLoad_maps (m := wallMachine) (p := 1) (le_refl _) hres
      have hwx := h (· = 1) wallMachine 1 wallMachine_walled.owned wallMachine_apart rfl res hres
      obtain ⟨y,hy,hw,hn⟩ := (Walled.image hmaps wallMachine_walled).walk
        (show 256 ≤ (pml4Idx x.1).val by omega)
      exact hwx.apart x hx y hy ⟨hw,hn⟩
    refine Or.inr ⟨hlow,fun x hx g hg => ?_⟩
    obtain ⟨res,hres⟩ := ((elfLoad_performs emptyMachine file 1 rand (le_refl _)).ample
      emptyMachine_low hroom).2 hplan
    have hmaps := elfLoad_maps (m := emptyMachine) (p := 1) (le_refl _) hres
    have hwx := h (· = 1) emptyMachine 1 emptyMachine_owned emptyMachine_apart rfl res hres
    obtain ⟨f,hf⟩ := hmaps.walk emptyMachine_owned rfl hlow hx hg
    refine ⟨fun he => hwx.exec x hx he _ hf,fun he => ?_⟩
    have hnx := hwx.noexec x hx he _ hf
    simpa using hnx

/-- `elf_load` keeps to W^X in every state exactly when the file is planned so. -/
theorem elfLoad_wx_iff (file : Option VfsNode) (rand : BitVec 64) :
    (WxPlanned file rand → AlwaysWx file rand) ∧
    ((elfPlan file rand).1.length ≤ 2^37 → AlwaysWx file rand → WxPlanned file rand) :=
  ⟨alwaysWx_of_planned,planned_of_alwaysWx⟩

/-- A smallest `ET_EXEC` file with one `PT_LOAD` page at 4 MiB, of the given `p_flags`. -/
def flaggedElf (flags : Nat) : VfsNode :=
  VfsNode.ofBytes
    ([0x7f#8,0x45#8,0x4c#8,0x46#8,2#8,1#8]++leBytes 10 0++leBytes 2 2++leBytes 2 62++leBytes 4 1++
      leBytes 8 0x400000++leBytes 8 64++leBytes 14 0++leBytes 2 56++leBytes 2 1++leBytes 6 0++
      leBytes 4 1++leBytes 4 flags++leBytes 8 0++leBytes 8 0x400000++leBytes 8 0x400000++
      leBytes 8 0++leBytes 8 4096++leBytes 8 4096)

/-- A segment with `PF_W | PF_X` gets a page that is writable and executable. -/
theorem elfLoad_wx_segment : ¬AlwaysWx (some (flaggedElf 7)) 0#64 := by
  intro h
  have hok : (elfLoad taskMachine (some (flaggedElf 7)) (some 256) 0#64).1 =
      .ok ⟨0x400000#64,64#64,56,1,0#64,0x401000#64,false⟩ := by decide
  have hwx := h (· = 256) taskMachine 256 taskMachine_owned.1 taskMachine_apart rfl _ hok
  have hpages : imagePages (some (flaggedElf 7)) 0#64 = [(0x400000#64,7#32)] := by decide
  have hwalk : hwWalk (elfLoad taskMachine (some (flaggedElf 7)) (some 256) 0#64).2.machine.mem 256
      0x400000#64 = some ⟨257,true,true,false⟩ := by decide
  have hmem : ((0x400000#64,7#32) : ImagePage) ∈ imagePages (some (flaggedElf 7)) 0#64 := by
    rw [hpages]
    exact List.mem_singleton_self _
  exact hwx.apart (0x400000#64,7#32) hmem ⟨257,true,true,false⟩ hwalk ⟨rfl,rfl⟩

/-- A read-only executable page is planned so. -/
theorem elfLoad_wx_iff_sample :
    AlwaysWx (some (flaggedElf 5)) 0#64 ∧ WxPlanned (some (flaggedElf 5)) 0#64 := by
  have hpages : imagePages (some (flaggedElf 5)) 0#64 = [(0x400000#64,5#32)] := by decide
  have hplanned : WxPlanned (some (flaggedElf 5)) 0#64 := by
    right
    rw [hpages]
    refine ⟨fun x hx => ?_,fun x hx g hg => ?_⟩
    · rw [List.mem_singleton] at hx
      rw [hx]
      decide
    · rw [List.mem_singleton] at hx
      rw [hx] at hg ⊢
      have hlast : lastFlags 0x400000#64 [(0x400000#64,5#32)] = some 5#32 := by decide
      rw [hlast,Option.some.injEq] at hg
      rw [← hg]
      decide
  have hsize : (elfPlan (some (flaggedElf 5)) 0#64).1.length ≤ 2^37 := by decide
  have hiff := elfLoad_wx_iff (some (flaggedElf 5)) 0#64
  exact ⟨hiff.1 hplanned,hiff.2 hsize (hiff.1 hplanned)⟩

end KiNBOL
