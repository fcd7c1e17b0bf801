import KiNBOL.Mm.LeafOps
import KiNBOL.Mm.PageRange

namespace KiNBOL

variable {roots : Nat → Prop} {pm : Nat} {m m' : Machine}

/-- `vmm_protect` and `vmm_unmap_range` stay inside the lower half when their range does. -/
def LowerRange (virt len : BitVec 64) : Prop := virt.toNat+len.toNat ≤ 2^47

/-- `vmm_protect` on a lower-half range. -/
theorem vmmProtect_trimmed (h : Owned roots m) (hr : roots pm) {virt len : BitVec 64}
    (hl : LowerRange virt len) (flags : BitVec 64) :
    ∃ mem', (vmmProtect m (some pm) virt len flags).2 = { m with mem := mem' } ∧
      Owned roots { m with mem := mem' } ∧ Trimmed roots pm m.mem mem' ∧
      (has flags vmmPresent = true → ∀ n, UserNode roots m.mem n → UserNode roots mem' n) := by
  by_cases hlen : len = 0#64
  · refine ⟨m.mem,?_,h,Trimmed.refl roots pm m.mem,fun _ _ hn => hn⟩
    simp only [vmmProtect,if_pos hlen]
  · obtain ⟨ht,htrim,hkeep⟩ := protectPages_trimmed flags hr (pageRange virt len)
      (fun page hp => pageRange_lower hlen hl hp) h.tables
    refine ⟨_,?_,⟨ht,fun n hn => h.held n (htrim.node hn),h.limit⟩,htrim,hkeep⟩
    simp only [vmmProtect,if_neg hlen]

/-- `vmm_unmap_range` on a lower-half range. -/
theorem vmmUnmapRange_unmaps (h : Owned roots m) (hr : roots pm) {virt len : BitVec 64}
    (hl : LowerRange virt len) (freePhys : Bool) :
    Unmaps roots pm freePhys m (vmmUnmapRange m (some pm) virt len freePhys) := by
  unfold vmmUnmapRange
  by_cases hlen : len = 0#64
  · simp only [if_pos hlen]
    exact Unmaps.refl h pm freePhys
  · simp only [if_neg hlen]
    exact unmapPages_unmaps freePhys hr _ (fun page hp => pageRange_lower hlen hl hp) h

/-- `vmm_map` of a frame just taken, which goes back to the PMM when that fails. -/
def mapTaken (m : Machine) (pm : Nat) (virt phys flags : BitVec 64) : Machine :=
  let r := vmmMap m (some pm) virt phys flags
  if r.1 = 0 then r.2 else { r.2 with pmm := pmmFreePage r.2.pmm phys }

/-- A frame taken from the PMM and mapped. -/
def mapFresh (m : Machine) (pm : Nat) (virt flags : BitVec 64) : Machine :=
  match pmmAllocPage m.pmm with
  | (none,pmm) => { m with pmm := pmm }
  | (some phys,pmm) => mapTaken { m with pmm := pmm } pm virt phys flags

/-- A page taken from the allocator and filled: `m₁` is `m` after that. -/
structure Taken (m m₁ : Machine) (f : Nat) : Prop where
  takes : Pmm.Takes m.pmm m₁.pmm f 1
  others : ∀ n, n ≠ f → m₁.mem n = m.mem n
  cr3 : m₁.cr3 = m.cr3

theorem Taken.of_alloc {pmm : Pmm} {f : Nat} (h : Pmm.Takes m.pmm pmm f 1) :
    Taken m { m with pmm := pmm } f := ⟨h,fun _ _ => rfl,rfl⟩

/-- Taking and filling a page changes no table. -/
theorem Owned.taken {m₁ : Machine} {f : Nat} (h : Owned roots m) (ht : Taken m m₁ f) :
    Owned roots m₁ ∧ m₁.pmm.Held f ∧ ¬UserNode roots m₁.mem f ∧ Evolves roots pm m m₁ ∧
    (∀ n, UserNode roots m₁.mem n ↔ UserNode roots m.mem n) ∧
    (∀ r p i, roots r → LowerPath (p++[i]) → entryAt m₁.mem r p i = entryAt m.mem r p i) := by
  obtain ⟨hfree,hheld,hbits⟩ := takes_one ht.takes
  have hnew := h.not_node_of_free hfree
  have hslots : ∀ r n i, roots r → TableSlot m.mem r n i → m₁.mem n i = m.mem n i := by
    intro r n i hr hs
    rw [ht.others n (fun he => hnew (he ▸ hs.node hr))]
  obtain ⟨htab,hfol,hent⟩ := h.tables.congr hslots
  have hnode : ∀ n, UserNode roots m₁.mem n ↔ UserNode roots m.mem n := by
    intro n
    constructor
    · intro hn
      obtain ⟨r,p,hr,hp,hf⟩ := hn
      exact ⟨r,p,hr,hp,hfol r p hr hp ▸ hf⟩
    · intro hn
      obtain ⟨r,p,hr,hp,hf⟩ := hn
      exact ⟨r,p,hr,hp,(hfol r p hr hp).trans hf⟩
  refine ⟨⟨htab,fun n hn => ?_,?_⟩,hheld,fun hn => hnew ((hnode f).mp hn),
    ⟨?_,?_,fun n hn => ((ht.takes.free_iff n).mp hn).1,ht.takes.total,ht.cr3⟩,hnode,hent⟩
  · have hold := h.held n ((hnode n).mp hn)
    exact ⟨ht.takes.total ▸ hold.1,(hbits n).mpr (Or.inl hold.2)⟩
  · rw [ht.takes.total]
    exact h.limit
  · intro r p n hr hp hn
    exact Or.inl (hfol r p hr hp ▸ hn)
  · intro n i hne
    by_cases he : n = f
    · exact Or.inr (he ▸ hfree)
    · rw [ht.others n he] at hne
      exact absurd rfl hne

/-- Building up a lower half leaves the contents of mapped frames alone. -/
theorem Evolves.frame_kept (he : Evolves roots pm m m') (ho : Owned roots m) (hr : roots pm)
    {w : BitVec 64} (hw : LowerHalf w) {f : Nat} (hf : entryNode (leafWord m.mem pm w) = some f) :
    m'.mem f = m.mem f := by
  rw [← follow_leaf] at hf
  have hnode : UserNode roots m.mem f := ⟨pm,_,hr,lowerPath_va hw,hf⟩
  funext i
  by_contra hne
  cases he.wrote f i hne with
  | inl hs =>
    obtain ⟨p,hp,hpf⟩ := hs
    have hpath := (ho.tables.forest.unique pm pm p _ f hr hr hp.left (lowerPath_va hw) hpf hf).2
    have hlen := hp.1
    rw [hpath] at hlen
    simp [tablePath] at hlen
  | inr hfree => exact ho.not_node_of_free hfree hnode

/-- What `mapFresh` does: it adds the tables it needs and, when it succeeds, one more frame. -/
structure MapsFresh (roots : Nat → Prop) (pm : Nat) (virt flags : BitVec 64) (m m' : Machine) :
    Prop extends Evolves roots pm m m' where
  owned : Owned roots m'
  exact : has flags vmmPresent = true → (∀ f, entryNode (leafWord m.mem pm virt) ≠ some f) →
    (∀ n, m'.pmm.bmGet n = true ↔ m.pmm.bmGet n = true ∨ UserNode roots m'.mem n) ∧
    (∀ n, UserNode roots m.mem n → UserNode roots m'.mem n)
  counted : m.pmm.Counted → m'.pmm.Counted

theorem mapTaken_spec {m₁ : Machine} {f : Nat} (h : Owned roots m) (hr : roots pm)
    {virt : BitVec 64} (hva : LowerHalf virt) (ht : Taken m m₁ f) (flags : BitVec 64) :
    MapsFresh roots pm virt flags m (mapTaken m₁ pm virt (pageAddr f) flags) := by
  obtain ⟨ho1,hheld1,hnew1,hev1,hnode1,hent1⟩ := @Owned.taken roots pm m m₁ f h ht
  obtain ⟨hfree,-,hbits1⟩ := takes_one ht.takes
  have hlt := h.free_lt hfree
  have hlow : m.pmm.bmGet f = false := hfree.2
  obtain ⟨m2,ho2,hg,hnew2,hheld2,hcase⟩ := vmmMap_fresh ho1 hr hva hheld1 hnew1 flags
  have hev2 : Evolves roots pm m m2 := hev1.trans hr hg.toEvolves
  have hbits2 : ∀ n, m2.pmm.bmGet n = true ↔
      m.pmm.bmGet n = true ∨ n = f ∨ UserNode roots m2.mem n := by
    intro n
    rw [hg.bits n,hbits1 n,or_assoc]
  have hkept2 : ∀ n, UserNode roots m.mem n → UserNode roots m2.mem n :=
    fun n hn => hg.node ((hnode1 n).mpr hn)
  have hleaf : leafWord m2.mem pm virt = leafWord m.mem pm virt :=
    (hg.leaves pm (tablePath virt) (ptIdx virt) hr (lowerPath_va hva) rfl).trans
      (hent1 pm (tablePath virt) (ptIdx virt) hr (lowerPath_va hva))
  unfold mapTaken
  cases hcase with
  | inl hfail =>
    simp only [hfail]
    rw [if_neg (show ¬((-1 : Int) = 0) by decide)]
    have hgives := pmmFreePage_gives m2.pmm (pageAddr f)
    rw [h.free_page hfree] at hgives
    generalize pmmFreePage m2.pmm (pageAddr f) = pmm3 at hgives
    obtain ⟨-,hbits3⟩ := gives_one hgives hheld2
    have hne : ∀ n, UserNode roots m2.mem n → n ≠ f := fun n hn he => hnew2 (he ▸ hn)
    exact {
      fresh := hev2.fresh
      wrote := hev2.wrote
      free := by
        intro n hn
        by_cases he : n = f
        · exact he ▸ hfree
        · apply hev2.free n
          refine ⟨hgives.total ▸ hn.1,?_⟩
          cases hb : m2.pmm.bmGet n with
          | false => rfl
          | true => exact (hn.2.symm.trans ((hbits3 n).mpr ⟨hb,he⟩)).symm
      total := hgives.total.trans hev2.total
      cr3 := hev2.cr3
      owned := by
        refine ⟨ho2.tables,fun n hn => ?_,?_⟩
        · have hold := ho2.held n hn
          exact ⟨hgives.total ▸ hold.1,(hbits3 n).mpr ⟨hold.2,hne n hn⟩⟩
        · show pmm3.totalPages ≤ frameLimit
          rw [hgives.total]
          exact ho2.limit
      exact := by
        intro _ _
        refine ⟨fun n => ?_,hkept2⟩
        rw [hbits3 n,hbits2 n]
        constructor
        · intro hn
          cases hn.1 with
          | inl hb => exact Or.inl hb
          | inr hor => exact Or.inr (hor.resolve_left hn.2)
        · intro hn
          cases hn with
          | inl hb =>
            refine ⟨Or.inl hb,fun he => ?_⟩
            rw [he,hlow] at hb
            exact Bool.noConfusion hb
          | inr hn => exact ⟨Or.inr (Or.inr hn),hne n hn⟩
      counted := fun hc => hgives.counted (hg.counted (ht.takes.counted hc)) }
  | inr hok =>
    obtain ⟨mem',hch,ho3,hres⟩ := hok
    simp only [hres,if_true]
    have hnode : ∀ g, entryNode (leafEntry (pageAddr f) flags) = some g → g = f := by
      intro g hg'
      have hfr := (entryNode_eq_some hg').2
      rw [framePage_leafEntry hlt] at hfr
      exact hfr.symm
    exact {
      fresh := by
        intro r p n hr' hp hn
        by_cases hs : r = pm ∧ p = tablePath virt++[ptIdx virt]
        · rw [(hch.paths r p hr' hp).1 hs] at hn
          exact Or.inr (hnode n hn ▸ hfree)
        · rw [(hch.paths r p hr' hp).2 hs] at hn
          exact hev2.fresh r p n hr' hp hn
      wrote := by
        intro n i hne
        by_cases hmid : m2.mem n i = m.mem n i
        · obtain ⟨p,hp,hn⟩ := hch.wrote n i (hmid ▸ hne)
          cases hev2.fresh pm p n hr hp.left hn with
          | inl hold => exact Or.inl ⟨p,hp,hold⟩
          | inr hfr => exact Or.inr hfr
        · exact hev2.wrote n i hmid
      free := hev2.free
      total := hev2.total
      cr3 := hev2.cr3
      owned := ho3
      exact := by
        intro hpres hempty
        have hnodes : ∀ n, UserNode roots mem' n ↔ n = f ∨ UserNode roots m2.mem n := by
          intro n
          have he : entryNode (leafEntry (pageAddr f) flags) = some f := by
            rw [entryNode,(leafEntry_flags hlt flags).1,if_pos hpres,framePage_leafEntry hlt]
          rw [hch.nodes n,hleaf,he,Option.some.injEq,and_iff_left (hempty n),eq_comm]
        refine ⟨fun n => ?_,fun n hn => (hnodes n).mpr (Or.inr (hkept2 n hn))⟩
        rw [hbits2 n,hnodes n]
      counted := fun hc => hg.counted (ht.takes.counted hc) }

theorem mapFresh_spec (h : Owned roots m) (hr : roots pm) {virt : BitVec 64}
    (hva : LowerHalf virt) (flags : BitVec 64) :
    MapsFresh roots pm virt flags m (mapFresh m pm virt flags) := by
  unfold mapFresh
  cases halloc : pmmAllocPage m.pmm with
  | mk a pmm =>
    cases a with
    | none =>
      have hpm : pmm = m.pmm := (pmmAllocPage_none halloc).1
      subst hpm
      exact { Evolves.refl roots pm m with
        owned := h
        exact := fun _ _ => ⟨fun n => ⟨Or.inl,fun hn => hn.elim id (fun hn => (h.held n hn).2)⟩,
          fun _ hn => hn⟩
        counted := id }
    | some a =>
      obtain ⟨f,rfl,-,htakes,-⟩ := pmmAllocPage_some halloc
      exact mapTaken_spec h hr hva (Taken.of_alloc htakes) flags

/-- Calls on the lower half of one pagemap. -/
inductive VmOp where
  | map (virt flags : BitVec 64)
  | protect (virt len flags : BitVec 64)
  | unmapRange (virt len : BitVec 64) (freePhys : Bool)

/-- The call stays inside the lower half. -/
def VmOp.Lower : VmOp → Prop
  | .map virt _ => LowerHalf virt
  | .protect virt len _ => LowerRange virt len
  | .unmapRange virt len _ => LowerRange virt len

def VmOp.run (pm : Nat) (m : Machine) : VmOp → Machine
  | .map virt flags => mapFresh m pm virt flags
  | .protect virt len flags => (vmmProtect m (some pm) virt len flags).2
  | .unmapRange virt len freePhys => vmmUnmapRange m (some pm) virt len freePhys

/-- Every lower-half call keeps the trees and their ownership. -/
theorem VmOp.run_owned (h : Owned roots m) (hr : roots pm) (op : VmOp) (hl : op.Lower) :
    Owned roots (op.run pm m) := by
  cases op with
  | map virt flags => exact (mapFresh_spec h hr hl flags).owned
  | protect virt len flags =>
    obtain ⟨mem',hres,ho,-,-⟩ := vmmProtect_trimmed h hr hl flags
    rw [VmOp.run,hres]
    exact ho
  | unmapRange virt len freePhys => exact (vmmUnmapRange_unmaps h hr hl freePhys).owned

theorem VmOp.runs_owned (hr : roots pm) (ops : List VmOp) (hl : ∀ op ∈ ops, op.Lower)
    (h : Owned roots m) : Owned roots (ops.foldl (fun m op => op.run pm m) m) := by
  induction ops generalizing m with
  | nil => exact h
  | cons op rest ih =>
    exact ih (fun q hq => hl q (by simp [hq])) (VmOp.run_owned h hr op (hl op (by simp)))

/-- No pagemaps, no tables. -/
theorem Owned.none (m : Machine) (hlim : m.pmm.totalPages ≤ frameLimit) :
    Owned (fun _ => False) m :=
  ⟨⟨⟨lowerPath_closed,fun _ _ _ _ _ hr => hr.elim⟩,fun _ _ _ hr => hr.elim,
    fun _ _ _ hr => hr.elim⟩,fun _ hn => hn.elim (fun _ h => h.elim (fun _ h => h.1.elim)),hlim⟩

/-- A new pagemap: one more root with an empty lower half. -/
theorem vmmCreatePagemap_cases (h : Owned roots m) :
    vmmCreatePagemap m = (Option.none,m) ∨
    ∃ f m', vmmCreatePagemap m = (some f,m') ∧ m.pmm.Free f ∧ Pmm.Takes m.pmm m'.pmm f 1 ∧
      m'.cr3 = m.cr3 ∧ Owned (fun r => r = f ∨ roots r) m' ∧
      (∀ n, UserNode (fun r => r = f ∨ roots r) m'.mem n ↔ n = f ∨ UserNode roots m.mem n) ∧
      (∀ n i, m'.mem n i = if n = f then
        (if 256 ≤ i.val then zeroPage m.mem f m.cr3 i else 0#64) else m.mem n i) := by
  unfold vmmCreatePagemap allocTable
  cases halloc : pmmAllocPage m.pmm with
  | mk a pmm =>
    cases a with
    | none =>
      have hpm : pmm = m.pmm := (pmmAllocPage_none halloc).1
      subst hpm
      exact Or.inl rfl
    | some a =>
      right
      obtain ⟨f,rfl,-,htakes,-⟩ := pmmAllocPage_some halloc
      obtain ⟨ho1,hheld1,hnew1,-⟩ :=
        @Owned.taken roots f m { m with pmm := pmm } f h (Taken.of_alloc htakes)
      obtain ⟨hfree,-,hbits1⟩ := takes_one htakes
      simp only [h.free_page hfree]
      let mem' : PhysMem := fun n i => if n = f ∧ 256 ≤ i.val then zeroPage m.mem f m.cr3 i
        else zeroPage m.mem f n i
      have hmem : ∀ n i, mem' n i = if n = f then
          (if 256 ≤ i.val then zeroPage m.mem f m.cr3 i else 0#64) else m.mem n i := by
        intro n i
        by_cases hn : n = f
        · subst hn
          simp only [mem',true_and,if_true,zeroPage_self]
        · simp only [mem',hn,false_and,if_false]
          rw [zeroPage_other hn]
      have hslots : ∀ r n i, roots r → TableSlot m.mem r n i → mem' n i = m.mem n i := by
        intro r n i hr hs
        have hne : n ≠ f := fun he => hnew1 (he ▸ hs.node hr)
        rw [hmem,if_neg hne]
      obtain ⟨ho2,hfol,hent⟩ := ho1.other_pages hslots
      have hback : ∀ n, UserNode roots mem' n ↔ UserNode roots m.mem n := by
        intro n
        constructor
        · intro hn
          obtain ⟨r,p,hr,hp,hf⟩ := hn
          exact ⟨r,p,hr,hp,hfol r p hr hp ▸ hf⟩
        · intro hn
          obtain ⟨r,p,hr,hp,hf⟩ := hn
          exact ⟨r,p,hr,hp,(hfol r p hr hp).trans hf⟩
      have hlow : ∀ i p, LowerPath (i::p) → mem' f i = 0#64 := by
        intro i p hp
        have hi := hp.2 i (by simp)
        rw [hmem,if_pos rfl,if_neg (by omega)]
      have hforest := ho2.tables.forest.add_root (fun hn => hnew1 ((hback f).mp hn))
        (fun i p hp => (congrArg entryNode (hlow i p hp)).trans entryNode_zero)
      have hempty : ∀ p i, LowerPath (p++[i]) → entryAt mem' f p i = 0#64 := by
        intro p i hp
        cases p with
        | nil => exact hlow i [] hp
        | cons j p =>
          have hno : follow entryNode mem' f (j::p) = Option.none := by
            rw [follow_cons,hlow j (p++[i]) hp,entryNode_zero]
            rfl
          rw [entryAt,slotAt,hno]
          rfl
      have hnodes : ∀ n, UserNode (fun r => r = f ∨ roots r) mem' n ↔
          n = f ∨ UserNode roots m.mem n := by
        intro n
        constructor
        · intro hn
          obtain ⟨r,p,hr,hp,hf⟩ := hn
          cases hr with
          | inr hr => exact Or.inr ((hback n).mp ⟨r,p,hr,hp,hf⟩)
          | inl hr =>
            subst hr
            cases p with
            | nil => exact Or.inl (by simpa using hf.symm)
            | cons j p =>
              rw [follow_cons,hlow j p hp,entryNode_zero] at hf
              exact absurd hf (by simp)
        · intro hn
          cases hn with
          | inl he => exact ⟨f,[],Or.inl rfl,lowerPath_nil,by simp [he]⟩
          | inr hn =>
            obtain ⟨r,p,hr,hp,hf⟩ := (hback n).mpr hn
            exact ⟨r,p,Or.inr hr,hp,hf⟩
      refine ⟨f,{ m with pmm := pmm, mem := mem' },rfl,hfree,htakes,rfl,⟨⟨hforest,?_,?_⟩,?_,ho1.limit⟩,
        hnodes,hmem⟩
      · intro r p i hr hp hlen hpres
        cases hr with
        | inl hr =>
          rw [hr,hempty p i hp] at hpres
          simp at hpres
        | inr hr => exact ho2.tables.mid r p i hr hp hlen hpres
      · intro r p i hr hp hlen hpres
        cases hr with
        | inl hr =>
          rw [hr,hempty p i hp] at hpres
          simp at hpres
        | inr hr => exact ho2.tables.leaf r p i hr hp hlen hpres
      · intro n hn
        cases (hnodes n).mp hn with
        | inl he => exact he ▸ hheld1
        | inr hn => exact ho1.held n hn

/-- A small machine: pages 256 to 271 are free, the PML4 in use is page 1. -/
def smallMachine : Machine :=
  { mem := fun _ _ => 0#64
    pmm := ⟨fun i => if i < 32 then 0xFF#8 else 0#8,272,16#64,0x110000#64⟩
    cr3 := 1 }

theorem smallMachine_new : vmmCreatePagemap smallMachine =
    (some 256,(vmmCreatePagemap smallMachine).2) :=
  Prod.ext (by decide) rfl

/-- The same machine with one page in its kernel half: pages 2, 3, 4 are tables, page 5 is mapped at
the first kernel-half address. -/
def kernelMachine : Machine :=
  { smallMachine with mem := fun n i =>
      if n = 1 ∧ i = 256 then 0x2003#64
      else if n = 2 ∧ i = 0 then 0x3003#64
      else if n = 3 ∧ i = 0 then 0x4003#64
      else if n = 4 ∧ i = 0 then 0x5003#64
      else 0#64 }

/-- A task's pagemap on that machine, loaded. -/
def taskMachine : Machine := { (vmmCreatePagemap kernelMachine).2 with cr3 := 256 }

theorem kernelMachine_new : (vmmCreatePagemap kernelMachine).1 = some 256 := by decide

/-- The entries of the task's machine: those of the kernel half, in two PML4s. -/
theorem taskMachine_mem (n : Nat) (i : Fin 512) : taskMachine.mem n i =
    if n = 256 then (if 256 ≤ i.val then kernelMachine.mem 1 i else 0#64)
    else kernelMachine.mem n i := by
  have hnew := kernelMachine_new
  cases vmmCreatePagemap_cases (Owned.none kernelMachine (by decide)) with
  | inl hno =>
    rw [hno] at hnew
    simp at hnew
  | inr hyes =>
    obtain ⟨f,m',hres,-,-,-,-,-,hmem⟩ := hyes
    rw [hres,Option.some.injEq] at hnew
    subst hnew
    show (vmmCreatePagemap kernelMachine).2.mem n i = _
    rw [hres,hmem n i]
    by_cases hn : n = 256
    · simp only [hn,if_true]
      rfl
    · simp only [hn,if_false]

theorem taskMachine_owned : Owned (· = 256) taskMachine ∧
    ∀ n, UserNode (· = 256) taskMachine.mem n ↔ n = 256 := by
  have hnew := kernelMachine_new
  cases vmmCreatePagemap_cases (Owned.none kernelMachine (by decide)) with
  | inl hno =>
    rw [hno] at hnew
    simp at hnew
  | inr hyes =>
    obtain ⟨f,m',hres,-,-,-,ho,hnodes,-⟩ := hyes
    rw [hres,Option.some.injEq] at hnew
    subst hnew
    have hone : (fun r => r = 256 ∨ False) = (· = 256) := by
      funext r
      simp
    rw [hone] at ho hnodes
    have hm : taskMachine = { m' with cr3 := 256 } := by rw [taskMachine,hres]
    rw [hm]
    refine ⟨⟨ho.tables,ho.held,ho.limit⟩,fun n => (hnodes n).trans ?_⟩
    refine ⟨fun h => h.resolve_right (fun hn => ?_),Or.inl⟩
    obtain ⟨r,p,hr,-⟩ := hn
    exact hr

end KiNBOL
