import KiNBOL.Mm.TreeOps
import KiNBOL.Mm.VmRun

namespace KiNBOL

/-! The lower half of a pagemap as a map from pages to frames with permissions: what the calls of
`vmm.c` are for. -/

/-- What each address translates to. -/
abbrev PageMap := BitVec 64 → Option Xlat

/-- A frame mapped with some flags. -/
def pageXlat (frame : Nat) (flags : BitVec 64) : Option Xlat :=
  if has flags vmmPresent then some ⟨frame,has flags vmmWrite,has flags vmmUser,has flags vmmNx⟩
  else none

namespace PageMap

/-- The page of `va` gets another translation. -/
def put (M : PageMap) (va : BitVec 64) (x : Option Xlat) : PageMap :=
  fun w => if w.toNat/4096 = va.toNat/4096 then x else M w

/-- Some pages are unmapped. -/
def clear (M : PageMap) (pages : List (BitVec 64)) : PageMap :=
  fun w => if w.toNat/4096 ∈ pages.map (fun p => p.toNat/4096) then none else M w

/-- Pages keep their frames and get new flags, up to the first that is not mapped. -/
def protect (flags : BitVec 64) : List (BitVec 64) → PageMap → Int × PageMap
  | [],M => (0,M)
  | page::rest,M =>
    match M page with
    | none => (-1,M)
    | some x => protect flags rest (M.put page (pageXlat x.page flags))

theorem clear_cons (M : PageMap) (page : BitVec 64) (rest : List (BitVec 64)) :
    (M.put page none).clear rest = M.clear (page::rest) := by
  funext w
  simp only [clear,put,List.map_cons,List.mem_cons]
  by_cases h1 : w.toNat/4096 ∈ rest.map (fun p => p.toNat/4096)
  · rw [if_pos h1,if_pos (Or.inr h1)]
  · by_cases h2 : w.toNat/4096 = page.toNat/4096
    · rw [if_neg h1,if_pos h2,if_pos (Or.inl h2)]
    · rw [if_neg h1,if_neg h2,if_neg (by tauto)]

theorem put_same {M : PageMap} {va : BitVec 64} {x : Option Xlat}
    (h : ∀ w, w.toNat/4096 = va.toNat/4096 → M w = x) : M.put va x = M := by
  funext w
  rw [put]
  split_ifs with hw
  · exact (h w hw).symm
  · rfl

end PageMap

/-- A call on the lower half of a pagemap; frames are given by page number. -/
inductive MapOp where
  | map (virt : BitVec 64) (frame : Nat) (flags : BitVec 64)
  | unmap (virt : BitVec 64)
  | protect (virt len flags : BitVec 64)
  | unmapRange (virt len : BitVec 64) (freePhys : Bool)

/-- The named pages are canonical ones of the lower half, the frame fits an entry. -/
def MapOp.Lower : MapOp → Prop
  | .map virt frame _ => LowerHalf virt ∧ frame < frameLimit
  | .unmap virt => LowerHalf virt
  | .protect virt len _ => LowerRange virt len
  | .unmapRange virt len _ => LowerRange virt len

/-- The code, with status 0 where it returns none. -/
def MapOp.run (pm : Nat) (m : Machine) : MapOp → Int × Machine
  | .map virt frame flags => vmmMap m (some pm) virt (pageAddr frame) flags
  | .unmap virt => (0,vmmUnmap m (some pm) virt)
  | .protect virt len flags => vmmProtect m (some pm) virt len flags
  | .unmapRange virt len freePhys => (0,vmmUnmapRange m (some pm) virt len freePhys)

/-- The map before and after a call, with its status. -/
def MapOp.Acts (M M' : PageMap) (status : Int) : MapOp → Prop
  | .map virt frame flags =>
    status = 0 ∧ M' = M.put virt (pageXlat frame flags) ∨ status = -1 ∧ M' = M
  | .unmap virt => status = 0 ∧ M' = M.put virt none
  | .protect virt len flags =>
    if len = 0#64 then status = -1 ∧ M' = M else (status,M') = M.protect flags (pageRange virt len)
  | .unmapRange virt len _ =>
    status = 0 ∧ M' = if len = 0#64 then M else M.clear (pageRange virt len)

variable {pm : Nat} {m m' m₀ m₁ : Machine} {mem mem' : PhysMem} {va w : BitVec 64}

/-- The tree of a pagemap, apart from the tables of its kernel half. -/
structure Paged (pm : Nat) (mem : PhysMem) : Prop where
  tree : TableTree (· = pm) mem
  apart : ∀ va, KernelHalf va → ∀ n ∈ hwTables mem pm va, ¬TreeNode pm mem n

/-- The PMM hands out only frames that fit an entry and that the pagemap does not use. -/
structure Unused (pm : Nat) (m : Machine) : Prop where
  limit : m.pmm.totalPages ≤ frameLimit
  tables : ∀ n, m.pmm.Free n → ¬TreeNode pm m.mem n
  kernel : ∀ n, m.pmm.Free n → ∀ va, KernelHalf va → n ∉ hwTables m.mem pm va

theorem Unused.outside (h : Unused pm m) : FreeOutside pm m :=
  fun n hn => ⟨lt_of_lt_of_le hn.1 h.limit,h.tables n hn⟩

theorem Paged.translate_lower (h : Paged pm mem) (hw : LowerHalf w) :
    translate mem pm w = leafXlat (leafWord mem pm w) := by
  rw [translate,if_pos (Or.inl hw),h.tree.hwWalk_lower rfl hw]

/-- Outside the lower half the translations agree when the walks of the kernel half do. -/
theorem translate_upper {mem mem' : PhysMem} {r r' : Nat}
    (hk : ∀ va, KernelHalf va → hwWalk mem' r' va = hwWalk mem r va) (hw : ¬LowerHalf w) :
    translate mem' r' w = translate mem r w := by
  unfold translate
  split_ifs with hc
  · exact hk w (hc.resolve_left hw)
  · rfl

/-- Writes to the tree and to pages outside it leave the kernel half alone. -/
theorem Paged.frame (h : Paged pm mem) (hw : ∀ n i, mem' n i ≠ mem n i → TableSlot mem pm n i ∨
      ¬TreeNode pm mem n ∧ ∀ va, KernelHalf va → n ∉ hwTables mem pm va) (hva : KernelHalf va) :
    hwWalk mem' pm va = hwWalk mem pm va ∧ hwTables mem' pm va = hwTables mem pm va := by
  have hroot : TreeNode pm mem pm := ForestNode.root tablePath_nil rfl
  apply hwWalk_congr
  · by_contra hne
    rcases hw pm (pml4Idx va) hne with ⟨p,hp,hn⟩ | ⟨hout,-⟩
    · have hnil := (h.tree.forest.unique pm pm p [] pm rfl rfl hp.init tablePath_nil hn rfl).2
      subst hnil
      have h1 := hp.2 (pml4Idx va) (by simp)
      have h2 := pml4Idx_kernel hva
      omega
    · exact hout hroot
  · intro n hn
    funext i
    by_contra hne
    rcases hw n i hne with hs | ⟨-,hk⟩
    · exact h.apart va hva n hn hs.treeNode
    · exact hk va hva hn

/-- A step that turns one map into another. -/
structure Remaps (pm : Nat) (mem mem' : PhysMem) (M' : PageMap) : Prop where
  paged : Paged pm mem'
  view : translate mem' pm = M'

/-- A memory with the same kernel half and a known lower half. -/
theorem Paged.remaps (h : Paged pm mem) (htree : TableTree (· = pm) mem')
    (hnode : ∀ n, TreeNode pm mem' n → TreeNode pm mem n ∨
      ∀ va, KernelHalf va → n ∉ hwTables mem pm va)
    (hw : ∀ n i, mem' n i ≠ mem n i → TableSlot mem pm n i ∨
      ¬TreeNode pm mem n ∧ ∀ va, KernelHalf va → n ∉ hwTables mem pm va) {M' : PageMap}
    (hlow : ∀ w, LowerHalf w → leafXlat (leafWord mem' pm w) = M' w)
    (hup : ∀ w, ¬LowerHalf w → M' w = translate mem pm w) : Remaps pm mem mem' M' := by
  have hk : Paged pm mem' := by
    refine ⟨htree,fun va hva n hn hnode' => ?_⟩
    rw [(h.frame hw hva).2] at hn
    rcases hnode n hnode' with hold | hout
    · exact h.apart va hva n hn hold
    · exact hout va hva hn
  refine ⟨hk,funext (fun w => ?_)⟩
  by_cases hlw : LowerHalf w
  · rw [hk.translate_lower hlw,hlow w hlw]
  · rw [hup w hlw]
    exact translate_upper (fun va hva => (h.frame hw hva).1) hlw

/-- Addresses of other halves lie on other pages. -/
theorem PageMap.put_upper (M : PageMap) (hva : LowerHalf va) (x : Option Xlat) (hw : ¬LowerHalf w) :
    M.put va x w = M w := by
  simp only [LowerHalf] at hva hw
  rw [PageMap.put,if_neg (by omega)]

theorem leafXlat_leafEntry {f : Nat} (hf : f < frameLimit) (flags : BitVec 64) :
    leafXlat (leafEntry (pageAddr f) flags) = pageXlat f flags := by
  obtain ⟨h0,h1,h2,h3⟩ := leafEntry_flags hf flags
  rw [leafXlat,pageXlat,present,h0,h1,h2,h3,framePage_leafEntry hf]

/-- Writing one page-table slot. -/
theorem Paged.set_leaf (h : Paged pm mem) (hva : LowerHalf va) {pt : Nat}
    (hpt : follow entryNode mem pm (tablePath va) = some pt) (e : BitVec 64) :
    Remaps pm mem (setSlot mem pt (ptIdx va) e) (PageMap.put (translate mem pm) va (leafXlat e)) := by
  obtain ⟨htree,hfol,hent⟩ := h.tree.set_leaf hva hpt e
  refine h.remaps htree ?_ ?_ (fun w hw => ?_)
    (fun w hw => PageMap.put_upper (translate mem pm) hva (leafXlat e) hw)
  · rintro n ⟨r,p,rfl,hp,hn⟩
    exact Or.inl ⟨r,p,rfl,hp,hfol p hp ▸ hn⟩
  · intro n i hne
    by_cases hs : n = pt ∧ i = ptIdx va
    · rw [hs.1,hs.2]
      exact Or.inl ⟨tablePath va,lowerPath_va hva,hpt⟩
    · exact absurd (setSlot_other hs) hne
  · rw [leafWord,hent _ _ (lowerPath_va hw),PageMap.put]
    have hiff : tablePath w = tablePath va ∧ ptIdx w = ptIdx va ↔ va.toNat/4096 = w.toNat/4096 :=
      sameLeaf_iff hva hw
    by_cases hs : w.toNat/4096 = va.toNat/4096
    · rw [if_pos (hiff.mpr hs.symm),if_pos hs]
    · rw [if_neg (fun hh => hs (hiff.mp hh).symm),if_neg hs]
      exact (h.translate_lower hw).symm

/-- Pages of one page-table slot translate alike. -/
theorem Paged.page_alike (h : Paged pm mem) (hva : LowerHalf va)
    (hs : w.toNat/4096 = va.toNat/4096) : translate mem pm w = translate mem pm va := by
  have hw : LowerHalf w := by
    simp only [LowerHalf] at hva ⊢
    omega
  obtain ⟨h1,h2⟩ := (sameLeaf_iff hva hw).mpr hs.symm
  rw [h.translate_lower hw,h.translate_lower hva,leafWord,leafWord,h1,h2]

/-- Without a page table, or with no present entry in it, nothing is mapped. -/
theorem Paged.no_table (h : Paged pm mem) (hva : LowerHalf va)
    (hpt : follow entryNode mem pm (tablePath va) = none) : translate mem pm va = none := by
  rw [h.translate_lower hva,leafWord,entryAt,slotAt,hpt]
  simp [leafXlat]

theorem Paged.absent (h : Paged pm mem) (hva : LowerHalf va) {pt : Nat}
    (hpt : follow entryNode mem pm (tablePath va) = some pt)
    (hp : ¬present (mem pt (ptIdx va)) = true) : translate mem pm va = none := by
  rw [h.translate_lower hva,leafWord,entryAt_table hpt,leafXlat,if_neg hp]

/-- Nothing happens where nothing is mapped. -/
theorem Paged.unmapped (h : Paged pm mem) (hva : LowerHalf va) (hno : translate mem pm va = none) :
    Remaps pm mem mem (PageMap.put (translate mem pm) va none) :=
  ⟨h,(PageMap.put_same (fun _ hw => (h.page_alike hva hw).trans hno)).symm⟩

theorem leafXlat_zero : leafXlat 0#64 = none := by decide

theorem unmapPage_remaps (freePhys : Bool) (h : Paged pm m.mem) (hva : LowerHalf va) :
    Remaps pm m.mem (unmapPage freePhys pm m va).mem
      (PageMap.put (translate m.mem pm) va none) := by
  rw [unmapPage,h.tree.ptSlot_present rfl hva]
  cases hpt : follow entryNode m.mem pm (tablePath va) with
  | none => exact h.unmapped hva (h.no_table hva hpt)
  | some pt =>
    simp only [Option.map_some]
    by_cases hp : present (m.mem pt (ptIdx va)) = true
    · rw [if_pos hp,← leafXlat_zero]
      exact h.set_leaf hva hpt 0#64
    · rw [if_neg hp]
      exact h.unmapped hva (h.absent hva hpt hp)

/-- The loop of `vmm_unmap_range`. -/
theorem unmapPages_remaps (freePhys : Bool) (pages : List (BitVec 64))
    (hl : ∀ page ∈ pages, LowerHalf page) (h : Paged pm m.mem) :
    Remaps pm m.mem (pages.foldl (unmapPage freePhys pm) m).mem
      (PageMap.clear (translate m.mem pm) pages) := by
  induction pages generalizing m with
  | nil => exact ⟨h,funext (fun w => by simp [PageMap.clear])⟩
  | cons page rest ih =>
    have h1 := unmapPage_remaps freePhys h (hl page (by simp))
    obtain ⟨h2,hview⟩ := ih (fun q hq => hl q (by simp [hq])) h1.paged
    refine ⟨h2,?_⟩
    rw [List.foldl_cons,hview,h1.view,PageMap.clear_cons]

theorem vmmUnmap_remaps (h : Paged pm m.mem) (hva : LowerHalf va) :
    Remaps pm m.mem (vmmUnmap m (some pm) va).mem (PageMap.put (translate m.mem pm) va none) := by
  unfold vmmUnmap
  dsimp only
  rw [h.tree.ptSlot_present rfl hva]
  cases hpt : follow entryNode m.mem pm (tablePath va) with
  | none => exact h.unmapped hva (h.no_table hva hpt)
  | some pt =>
    simp only [Option.map_some]
    rw [← leafXlat_zero]
    exact h.set_leaf hva hpt 0#64

/-- The loop of `vmm_protect`. -/
theorem protectPages_remaps (flags : BitVec 64) (pages : List (BitVec 64))
    (hl : ∀ page ∈ pages, LowerHalf page) (h : Paged pm mem) :
    Paged pm (protectPages pm flags pages mem).2 ∧
    ((protectPages pm flags pages mem).1,translate (protectPages pm flags pages mem).2 pm) =
      PageMap.protect flags pages (translate mem pm) := by
  induction pages generalizing mem with
  | nil => exact ⟨h,rfl⟩
  | cons page rest ih =>
    have hva := hl page (by simp)
    rw [protectPages,PageMap.protect,h.tree.ptSlot_present rfl hva]
    cases hpt : follow entryNode mem pm (tablePath page) with
    | none =>
      rw [h.no_table hva hpt]
      exact ⟨h,rfl⟩
    | some pt =>
      simp only [Option.map_some]
      by_cases hp : present (mem pt (ptIdx page)) = true
      · have hmapped : translate mem pm page = some ⟨framePage (mem pt (ptIdx page)),
            has (mem pt (ptIdx page)) vmmWrite,has (mem pt (ptIdx page)) vmmUser,
            has (mem pt (ptIdx page)) vmmNx⟩ := by
          rw [h.translate_lower hva,leafWord,entryAt_table hpt,leafXlat,if_pos hp]
        rw [if_pos hp,hmapped,protect_entry]
        have h1 := h.set_leaf hva hpt (leafEntry (pageAddr (framePage (mem pt (ptIdx page)))) flags)
        obtain ⟨h2,hview⟩ := ih (fun q hq => hl q (by simp [hq])) h1.paged
        refine ⟨h2,?_⟩
        rw [hview,h1.view,leafXlat_leafEntry (framePage_lt _)]
      · rw [if_neg hp,h.absent hva hpt hp]
        exact ⟨h,rfl⟩

/-- Adding tables changes no translation. -/
theorem TreeGrown.remaps (hg : TreeGrown pm m m') (h : Paged pm m.mem) (hu : Unused pm m) :
    Remaps pm m.mem m'.mem (translate m.mem pm) := by
  refine h.remaps hg.tree ?_ (fun n i hne => ?_) (fun w hw => ?_) (fun _ _ => rfl)
  · rintro n ⟨r,p,rfl,hp,hn⟩
    rcases hg.fresh p n hp hn with hold | hfree
    · exact Or.inl ⟨r,p,rfl,hp,hold⟩
    · exact Or.inr (hu.kernel n hfree)
  · rcases hg.wrote n i hne with hs | hfree
    · exact Or.inl hs
    · exact Or.inr ⟨hu.tables n hfree,hu.kernel n hfree⟩
  · rw [leafWord,hg.leaves _ _ (lowerPath_va hw) rfl]
    exact (h.translate_lower hw).symm

/-- `vmm_map`: the page gets the frame, or no frame was left for a table and nothing changes. -/
theorem vmmMap_remaps (h : Paged pm m.mem) (hu : Unused pm m) (hva : LowerHalf va) {frame : Nat}
    (hf : frame < frameLimit) (flags : BitVec 64) :
    ∃ m', (vmmMap m (some pm) va (pageAddr frame) flags = (-1,m') ∧ m'.pmm.room = 0 ∧
        Remaps pm m.mem m'.mem (translate m.mem pm)) ∨
      (vmmMap m (some pm) va (pageAddr frame) flags = (0,m') ∧
        Remaps pm m.mem m'.mem (PageMap.put (translate m.mem pm) va (pageXlat frame flags))) := by
  obtain ⟨m1,hg,⟨hroom,hres⟩ | ⟨pt,hpt,hres⟩⟩ := h.tree.vmmMap hu.outside hva (pageAddr frame) flags
  · exact ⟨m1,Or.inl ⟨hres,hroom,hg.remaps h hu⟩⟩
  · have h1 := hg.remaps h hu
    have h2 := h1.paged.set_leaf hva hpt (leafEntry (pageAddr frame) flags)
    rw [h1.view,leafXlat_leafEntry hf] at h2
    exact ⟨_,Or.inr ⟨hres,h2.paged,h2.view⟩⟩

/-- Only `vmm_map` takes frames. -/
def MapOp.Safe (pm : Nat) (m : Machine) : MapOp → Prop
  | .map .. => Unused pm m
  | _ => True

/-- One call acts on the map as it should. -/
theorem MapOp.acts (op : MapOp) (hl : op.Lower) (h : Paged pm m.mem) (hs : op.Safe pm m) :
    Paged pm (op.run pm m).2.mem ∧
    op.Acts (translate m.mem pm) (translate (op.run pm m).2.mem pm) (op.run pm m).1 := by
  cases op with
  | map virt frame flags =>
    obtain ⟨m',⟨hres,-,hr⟩ | ⟨hres,hr⟩⟩ := vmmMap_remaps h hs hl.1 hl.2 flags
    · rw [MapOp.run,hres]
      exact ⟨hr.paged,Or.inr ⟨rfl,hr.view⟩⟩
    · rw [MapOp.run,hres]
      exact ⟨hr.paged,Or.inl ⟨rfl,hr.view⟩⟩
  | unmap virt =>
    have hr := vmmUnmap_remaps h hl
    exact ⟨hr.paged,rfl,hr.view⟩
  | protect virt len flags =>
    rw [MapOp.run,MapOp.Acts,vmmProtect]
    dsimp only
    by_cases hz : len = 0#64
    · rw [if_pos hz,if_pos hz]
      exact ⟨h,rfl,rfl⟩
    · rw [if_neg hz,if_neg hz]
      exact protectPages_remaps flags (pageRange virt len)
        (fun page hp => pageRange_lower hz hl hp) h
  | unmapRange virt len freePhys =>
    rw [MapOp.run,MapOp.Acts,vmmUnmapRange]
    dsimp only
    by_cases hz : len = 0#64
    · rw [if_pos hz,if_pos hz]
      exact ⟨h,rfl,rfl⟩
    · rw [if_neg hz,if_neg hz]
      have hr := unmapPages_remaps freePhys (pageRange virt len)
        (fun page hp => pageRange_lower hz hl hp) h
      exact ⟨hr.paged,rfl,hr.view⟩

end KiNBOL
