import KiNBOL.Loader.ElfImage

namespace KiNBOL

/-! What a program reads from its image. -/

/-- The last page of the image that goes to the page-table slot of `w`. -/
def lastPage (w : BitVec 64) : List LoadedPage → Option LoadedPage
  | [] => none
  | x::l => (lastPage w l).or (if SameLeaf x.va w then some x else none)

/-- The slot of `w` maps a frame with the bytes of a page. -/
def ShowsPage (mem : PhysMem) (p : Nat) (w : BitVec 64) (x : LoadedPage) : Prop :=
  ∃ f, f < frameLimit ∧ leafWord mem p w = leafEntry (pageAddr f) (elfSegmentFlags x.flags) ∧
    ∀ o, o < 4096 → memByte mem f o = x.byte o

variable {roots : Nat → Prop} {p : Nat} {m m' : Machine} {mem : PhysMem} {w : BitVec 64}
  {x : LoadedPage} {l : List LoadedPage}

theorem lastPage_append (w : BitVec 64) (l l' : List LoadedPage) :
    lastPage w (l++l') = (lastPage w l').or (lastPage w l) := by
  induction l with
  | nil =>
    rw [List.nil_append,lastPage,Option.or_none]
  | cons x l ih => rw [List.cons_append,lastPage,ih,lastPage,Option.or_assoc]

theorem lastPage_some (h : lastPage w l = some x) : x ∈ l ∧ SameLeaf x.va w := by
  induction l with
  | nil => simp [lastPage] at h
  | cons y l ih =>
    rw [lastPage] at h
    cases hl : lastPage w l with
    | some z =>
      rw [hl,Option.some_or] at h
      obtain ⟨hmem,hs⟩ := ih (hl.trans h)
      exact ⟨List.mem_cons_of_mem y hmem,hs⟩
    | none =>
      rw [hl,Option.none_or] at h
      split at h
      · next hs =>
        rw [Option.some.injEq] at h
        exact ⟨h ▸ List.mem_cons_self,h ▸ hs⟩
      · simp at h

theorem lastPage_mem (hx : x ∈ l) (hs : SameLeaf x.va w) : ∃ y, lastPage w l = some y := by
  induction l with
  | nil => simp at hx
  | cons y l ih =>
    rw [lastPage]
    cases hl : lastPage w l with
    | some z => exact ⟨z,rfl⟩
    | none =>
      rcases List.mem_cons.mp hx with h | h
      · rw [← h,if_pos hs]
        exact ⟨x,rfl⟩
      · obtain ⟨z,hz⟩ := ih h
        rw [hl] at hz
        simp at hz

theorem entryNode_elf {f : Nat} (hf : f < frameLimit) (flags : BitVec 32) :
    entryNode (leafEntry (pageAddr f) (elfSegmentFlags flags)) = some f := by
  rw [entryNode,(leafEntry_flags hf _).1,if_pos (elfSegmentFlags_has flags).1,
    framePage_leafEntry hf]

theorem ShowsPage.byte (h : ShowsPage mem p w x) (ht : UserTables roots mem) (hr : roots p)
    (hw : LowerHalf w) : hwByte mem p w = some (x.byte (w.toNat%4096)) := by
  obtain ⟨f,hf,hleaf,hbytes⟩ := h
  rw [hwByte_lower ht.tree hr hw (hleaf ▸ entryNode_elf hf x.flags),
    hbytes _ (Nat.mod_lt _ (by decide))]

/-- One page: its slot shows it, the other slots show what they did. -/
theorem LoadsPage.shows (h : LoadsPage p x m m') (ho : Owned roots m) (hr : roots p)
    (hx : (pml4Idx x.va).val < 256) : Owned roots m' ∧ ∀ w, LowerHalf w →
      (SameLeaf x.va w → ShowsPage m'.mem p w x) ∧
      (¬SameLeaf x.va w → leafWord m'.mem p w = leafWord m.mem p w ∧
        ∀ y, ShowsPage m.mem p w y → ShowsPage m'.mem p w y) := by
  obtain ⟨f,m₁,ht,hbytes,hmap⟩ := h
  obtain ⟨ho',hev,hkept,hleaf⟩ := ht.mapped hmap ho hr hx
  refine ⟨ho',fun w hw => ⟨fun hs => ?_,fun hs => ?_⟩⟩
  · refine ⟨f,ho.free_lt (takes_one ht.takes).1,?_,fun o hlt => ?_⟩
    · rw [hleaf w hw,if_pos hs]
    · rw [memByte_congr hkept]
      exact hbytes o hlt
  · have hsame := hleaf w hw
    rw [if_neg hs] at hsame
    refine ⟨hsame,fun y hy => ?_⟩
    obtain ⟨g,hg,hold,hshow⟩ := hy
    refine ⟨g,hg,hsame.trans hold,fun o hlt => ?_⟩
    rw [memByte_congr (hev.frame_kept ho hr hw (hold ▸ entryNode_elf hg y.flags))]
    exact hshow o hlt

/-- The image: each slot shows the last page that went there. -/
theorem LoadsImage.shows (h : LoadsImage p l m m') (ho : Owned roots m) (hr : roots p)
    (hl : ∀ x ∈ l, (pml4Idx x.va).val < 256) : Owned roots m' ∧ ∀ w, LowerHalf w →
      (lastPage w l = none → leafWord m'.mem p w = leafWord m.mem p w ∧
        ∀ y, ShowsPage m.mem p w y → ShowsPage m'.mem p w y) ∧
      ∀ y, lastPage w l = some y → ShowsPage m'.mem p w y := by
  induction h with
  | done m =>
    exact ⟨ho,fun w _ => ⟨fun _ => ⟨rfl,fun _ hy => hy⟩,fun y hy => by simp [lastPage] at hy⟩⟩
  | @page x l m m₁ m₂ h _ ih =>
    obtain ⟨ho1,hstep⟩ := h.shows ho hr (hl x (by simp))
    obtain ⟨ho2,hrest⟩ := ih ho1 (fun y hy => hl y (by simp [hy]))
    refine ⟨ho2,fun w hw => ?_⟩
    obtain ⟨hhere,hother⟩ := hstep w hw
    obtain ⟨hnone,hsome⟩ := hrest w hw
    rw [lastPage]
    cases hlast : lastPage w l with
    | some z => exact ⟨fun hn => by simp at hn,fun y hy => hsome y (by rw [hlast]; simpa using hy)⟩
    | none =>
      rw [Option.none_or]
      obtain ⟨hleaf,hkeep⟩ := hnone hlast
      by_cases hs : SameLeaf x.va w
      · rw [if_pos hs]
        refine ⟨fun hn => by simp at hn,fun y hy => ?_⟩
        rw [Option.some.injEq] at hy
        exact hkeep y (hy ▸ hhere hs)
      · rw [if_neg hs]
        obtain ⟨hleaf1,hkeep1⟩ := hother hs
        exact ⟨fun _ => ⟨hleaf.trans hleaf1,fun y hy => hkeep y (hkeep1 y hy)⟩,
          fun y hy => by simp at hy⟩

/-- What a program reads at a lower-half address that the image covers. -/
theorem LoadsImage.byte (h : LoadsImage p l m m') (ho : Owned roots m) (hr : roots p)
    (hl : ∀ x ∈ l, (pml4Idx x.va).val < 256) (hw : LowerHalf w) (hx : lastPage w l = some x) :
    hwByte m'.mem p w = some (x.byte (w.toNat%4096)) := by
  obtain ⟨ho',hshow⟩ := h.shows ho hr hl
  exact ((hshow w hw).2 x hx).byte ho'.tables hr hw

/-- Elsewhere the slots stay as they were. -/
theorem LoadsImage.leaf_kept (h : LoadsImage p l m m') (ho : Owned roots m) (hr : roots p)
    (hl : ∀ x ∈ l, (pml4Idx x.va).val < 256) (hw : LowerHalf w) (hx : lastPage w l = none) :
    leafWord m'.mem p w = leafWord m.mem p w :=
  (((h.shows ho hr hl).2 w hw).1 hx).1

end KiNBOL
