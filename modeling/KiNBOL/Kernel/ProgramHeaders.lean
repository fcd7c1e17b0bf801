import KiNBOL.Kernel.InitialStack
import KiNBOL.Loader.ElfFile

namespace KiNBOL

/-! What a program finds at the address that `AT_PHDR` tells it. -/

/-- The address in the last `PT_PHDR`, 0 without one. -/
def phdrHeader (bias : BitVec 64) (phdrs : List Elf64Phdr) : BitVec 64 :=
  phdrs.foldl (fun a ph => if ph.type = 6 then bias+ph.vaddr else a) 0#64

/-- Where the headers should be: the address of that header or that of their offset. -/
def phdrAddress (eh : Elf64Ehdr) (phdrs : List Elf64Phdr) (bias : BitVec 64) : BitVec 64 :=
  if phdrHeader bias phdrs = 0#64 then bias+eh.phoff else phdrHeader bias phdrs

/-- The headers lie inside the file and inside the file range of a `PT_LOAD` segment. -/
def TableLoaded (f : FileBytes) (eh : Elf64Ehdr) (phdrs : List Elf64Phdr) : Prop :=
  eh.phoff.toNat+eh.phnum*phdrSize ≤ f.val.length ∧
  ∃ ph ∈ phdrs, ph.type = 1 ∧ ph.offset.toNat ≤ eh.phoff.toNat ∧
    eh.phoff.toNat+eh.phnum*phdrSize ≤ ph.offset.toNat+ph.filesz.toNat

/-- The last page that the segments put at each of the addresses has the byte of the headers there,
and the addresses are those of the lower half. -/
def TablePlaced (f : FileBytes) (eh : Elf64Ehdr) (phdrs : List Elf64Phdr) (bias : BitVec 64) : Prop :=
  ∀ k, k < eh.phnum*phdrSize →
    LowerHalf (phdrAddress eh phdrs bias+BitVec.ofNat 64 k) ∧
    (lastPage (phdrAddress eh phdrs bias+BitVec.ofNat 64 k) (filePages f phdrs bias)).map
      (fun x => x.byte ((phdrAddress eh phdrs bias+BitVec.ofNat 64 k).toNat%4096)) =
        f.val[eh.phoff.toNat+k]?

/-- Every load that succeeds, into whichever pagemap, has the headers where `AT_PHDR` says. -/
def AlwaysPhdr (f : FileBytes) (rand : BitVec 64) : Prop :=
  ∀ (roots : Nat → Prop) (m : Machine) (p : Nat), Owned roots m → KernelApart roots m → roots p →
    ∀ eh phdrs, elfHeaders f.node = .ok (eh,phdrs) → TableLoaded f eh phdrs →
    ∀ res, (elfLoad m (some f.node) (some p) rand).1 = .ok res →
    ∀ a, (atPhdr,a) ∈ auxvPairs res → ∀ k, k < res.phnum*res.phent →
      hwByte (elfLoad m (some f.node) (some p) rand).2.machine.mem p (a+BitVec.ofNat 64 k) =
        f.val[eh.phoff.toNat+k]?

def PagesLower (f : FileBytes) (rand : BitVec 64) : Prop :=
  ∀ x ∈ imagePages (some f.node) rand, (pml4Idx x.1).val < 256

/-- The file cannot be loaded to the end, or its headers are not loaded, or all its pages go through
lower PML4 slots and the segments place the headers. -/
def PhdrSuits (f : FileBytes) (rand : BitVec 64) : Prop :=
  (elfPlan (some f.node) rand).2 = false ∨
  ∀ eh phdrs, elfHeaders f.node = .ok (eh,phdrs) → TableLoaded f eh phdrs →
    PagesLower f rand ∧ TablePlaced f eh phdrs (loadBias eh rand)

variable {f : FileBytes} {rand : BitVec 64} {eh : Elf64Ehdr} {phdrs : List Elf64Phdr}
  {roots : Nat → Prop} {p : Nat} {m m' : Machine} {res : ElfLoadResult} {node : VfsNode}
  {x : LoadedPage} {l : List LoadedPage}

theorem elfLoadSegments_phdr {bias : BitVec 64} (phs : List Elf64Phdr) (highest phdr : BitVec 64)
    (s s' : Loading) (r : BitVec 64 × BitVec 64)
    (h : elfLoadSegments (some p) node bias phs highest phdr s = (.ok r,s')) :
    r.2 = phs.foldl (fun a ph => if ph.type = 6 then bias+ph.vaddr else a) phdr := by
  induction phs generalizing highest phdr s with
  | nil =>
    rw [elfLoadSegments,Prod.mk.injEq,Except.ok.injEq] at h
    rw [← h.1]
    rfl
  | cons ph rest ih =>
    rw [elfLoadSegments] at h
    rw [List.foldl_cons]
    split at h
    · next hload =>
      rw [if_neg (by rw [hload]; decide)]
      cases hseg : elfMapSegment (some p) node ph bias s with
      | mk a s₁ =>
        rw [hseg] at h
        cases a with
        | error msg => simp [Loading.next] at h
        | ok b => exact ih _ _ s₁ h
    · split at h
      · next hphdr =>
        rw [if_pos hphdr]
        exact ih _ _ s h
      · next hother =>
        rw [if_neg hother]
        split at h
        · simp at h
        · exact ih _ _ s h

/-- What `elf_load` reports of the headers. -/
theorem elfLoad_reports (hh : elfHeaders node = .ok (eh,phdrs))
    (hres : (elfLoad m (some node) (some p) rand).1 = .ok res) :
    res.phdrVaddr = phdrAddress eh phdrs (loadBias eh rand) ∧ res.phnum = eh.phnum ∧
      res.phent = eh.phentsize := by
  simp only [elfLoad,hh] at hres
  cases hsegs : elfLoadSegments (some p) node (loadBias eh rand) phdrs 0#64 0#64 ⟨m,[]⟩ with
  | mk r s₁ =>
    rw [hsegs] at hres
    cases r with
    | error msg => simp [Loading.next] at hres
    | ok b =>
      have hphdr := elfLoadSegments_phdr phdrs 0#64 0#64 _ _ _ hsegs
      rw [Loading.next,Except.ok.injEq] at hres
      rw [← hres]
      refine ⟨?_,rfl,rfl⟩
      dsimp only
      rw [hphdr]
      rfl

theorem elfHeaders_phent (hh : elfHeaders node = .ok (eh,phdrs)) : eh.phentsize = phdrSize := by
  unfold elfHeaders at hh
  split at hh
  · simp at hh
  · dsimp only at hh
    generalize Elf64Ehdr.ofBytes (node.read 0 ehdrSize) = e at hh
    cases hval : elfValidateHeader e with
    | error msg => simp [hval] at hh
    | ok u =>
      simp only [hval] at hh
      split at hh
      · simp at hh
      · rw [Except.ok.injEq,Prod.mk.injEq] at hh
        rw [← hh.1]
        unfold elfValidateHeader at hval
        by_contra hne
        simp only [hne,ne_eq,not_false_eq_true,if_true] at hval
        split_ifs at hval

theorem mem_auxvPairs_phdr {a : BitVec 64} : (atPhdr,a) ∈ auxvPairs res ↔ a = res.phdrVaddr := by
  simp [auxvPairs,atPhdr,atPhent,atPhnum,atEntry,atBase]

/-- The pages of the image in the lower half leave the kernel half of the PML4 alone. -/
theorem LoadsImage.kernel_kept (h : LoadsImage p l m m') (ho : Owned roots m) (hr : roots p)
    (hl : ∀ x ∈ l, (pml4Idx x.va).val < 256) {i : Fin 512} (hi : 256 ≤ i.val) :
    m'.mem p i = m.mem p i := by
  induction h with
  | done m => rfl
  | @page x l m m₁ m₂ h _ ih =>
    obtain ⟨ho1,hev,-⟩ := h.maps.leaves ho hr (hl x (by simp))
    rw [ih ho1 (fun y hy => hl y (by simp [hy]))]
    by_contra hne
    cases hev.wrote p i hne with
    | inl hs =>
      have hlow := (root_slot ho.tables hr hr hs).2
      omega
    | inr hfree => exact ho.not_node_of_free hfree (ForestNode.root lowerPath_nil hr)

theorem pagesLower_data (h : PagesLower f rand) :
    ∀ x ∈ imageData (some f.node) rand, (pml4Idx x.va).val < 256 := by
  intro x hx
  apply h x.entry
  rw [← imageData_entries]
  exact List.mem_map_of_mem hx

theorem alwaysPhdr_of_suits (h : PhdrSuits f rand) : AlwaysPhdr f rand := by
  intro roots m p ho _ hr eh phdrs hh hin res hres a ha k hk
  have hok := (elfLoad_performs m (some f.node) p rand ho.limit).ok res hres
  obtain ⟨hvaddr,hnum,hent⟩ := elfLoad_reports hh hres
  rw [hnum,hent,elfHeaders_phent hh] at hk
  rcases h with hno | hsuits
  · rw [hno] at hok
    exact absurd hok.2 (by simp)
  obtain ⟨hlow,hplaced⟩ := hsuits eh phdrs hh hin
  obtain ⟨hw,hbyte⟩ := hplaced k hk
  have hloads := elfLoad_loads ho.limit hres
  have hl := pagesLower_data hlow
  rw [imageData_eq hh hok.2] at hloads hl
  rw [mem_auxvPairs_phdr.mp ha,hvaddr]
  have hthere : eh.phoff.toNat+k < f.val.length := lt_of_lt_of_le (by omega) hin.1
  cases hx : lastPage (phdrAddress eh phdrs (loadBias eh rand)+BitVec.ofNat 64 k)
      (filePages f phdrs (loadBias eh rand)) with
  | none =>
    rw [hx,List.getElem?_eq_getElem hthere] at hbyte
    simp at hbyte
  | some x =>
    rw [hx] at hbyte
    exact (hloads.byte ho hr hl hw hx).trans hbyte

/-- A file within reach of a machine's memory with all pages in the lower half: run it where memory
suffices, in an empty pagemap. -/
theorem suits_of_alwaysPhdr (hlow : PagesLower f rand)
    (hsize : (elfPlan (some f.node) rand).1.length ≤ 2^37) (h : AlwaysPhdr f rand) :
    PhdrSuits f rand := by
  cases hplan : (elfPlan (some f.node) rand).2 with
  | false => exact Or.inl hplan
  | true =>
    refine Or.inr (fun eh phdrs hh hin => ⟨hlow,fun k hk => ?_⟩)
    have hroom : 4*((elfPlan (some f.node) rand).1.length+1) ≤ emptyMachine.avail := by
      rw [emptyMachine_avail]
      omega
    obtain ⟨res,hres⟩ := ((elfLoad_performs emptyMachine (some f.node) 1 rand (le_refl _)).ample
      emptyMachine_low hroom).2 hplan
    obtain ⟨hvaddr,hnum,hent⟩ := elfLoad_reports hh hres
    have hbyte := h (· = 1) emptyMachine 1 emptyMachine_owned emptyMachine_apart rfl eh phdrs hh hin
      res hres res.phdrVaddr (mem_auxvPairs_phdr.mpr rfl) k
      (by rw [hnum,hent,elfHeaders_phent hh]; exact hk)
    rw [hvaddr] at hbyte
    have hloads := elfLoad_loads (m := emptyMachine) (p := 1) (le_refl _) hres
    have hl := pagesLower_data hlow
    rw [imageData_eq hh hplan] at hloads hl
    generalize phdrAddress eh phdrs (loadBias eh rand)+BitVec.ofNat 64 k = w at hbyte ⊢
    have hthere : eh.phoff.toNat+k < f.val.length := lt_of_lt_of_le (by omega) hin.1
    have hsome : f.val[eh.phoff.toNat+k]? ≠ none := by
      rw [List.getElem?_eq_getElem hthere]
      simp
    have hmapped : ∀ y, translate (elfLoad emptyMachine (some f.node) (some 1) rand).2.machine.mem 1
        w = y → y ≠ none := by
      intro y hy hnone
      rw [hwByte,hy,hnone] at hbyte
      exact hsome hbyte.symm
    have hwalk := hmapped _ rfl
    by_cases hw : LowerHalf w
    · refine ⟨hw,?_⟩
      cases hlast : lastPage w (filePages f phdrs (loadBias eh rand)) with
      | none =>
        have hkept := hloads.leaf_kept emptyMachine_owned rfl hl hw hlast
        have ho' := (hloads.shows emptyMachine_owned rfl hl).1
        rw [translate,if_pos (Or.inl hw),ho'.tables.hwWalk_lower rfl hw,hkept,
          ← emptyMachine_owned.tables.hwWalk_lower rfl hw,emptyMachine_walk] at hwalk
        exact absurd rfl hwalk
      | some x => exact (hloads.byte emptyMachine_owned rfl hl hw hlast).symm.trans hbyte
    · exfalso
      apply hwalk
      unfold translate
      split
      · next hcanon =>
        have hkernel := hcanon.resolve_left hw
        have hzero := hloads.kernel_kept emptyMachine_owned rfl hl (pml4Idx_kernel hkernel)
        have hnot : present (emptyMachine.mem 1 (pml4Idx w)) = false := by
          simp only [emptyMachine]
          decide
        simp only [hwWalk,hzero,hnot,Bool.not_false,if_true]
      · rfl

/-- The headers are at the address in `AT_PHDR` after every load exactly when the file suits that;
the converse is for files of lower-half pages within reach of a machine's memory. -/
theorem elfLoad_phdr_iff (f : FileBytes) (rand : BitVec 64) :
    (PhdrSuits f rand → AlwaysPhdr f rand) ∧
    (PagesLower f rand → (elfPlan (some f.node) rand).1.length ≤ 2^37 → AlwaysPhdr f rand →
      PhdrSuits f rand) :=
  ⟨alwaysPhdr_of_suits,suits_of_alwaysPhdr⟩

/-- A file of one segment from its first byte on, without `PT_PHDR`. -/
def headersElf (type vaddr : Nat) : FileBytes :=
  ⟨[0x7f#8,0x45#8,0x4c#8,0x46#8,2#8,1#8]++leBytes 10 0++leBytes 2 type++leBytes 2 62++leBytes 4 1++
      leBytes 8 vaddr++leBytes 8 64++leBytes 14 0++leBytes 2 56++leBytes 2 1++leBytes 6 0++
      leBytes 4 1++leBytes 4 4++leBytes 8 0++leBytes 8 vaddr++leBytes 8 vaddr++leBytes 8 120++
      leBytes 8 120++leBytes 8 4096,by simp [length_leBytes]⟩

/-- At 4 MiB `AT_PHDR` is the file offset of the headers, where nothing is mapped. -/
theorem elfLoad_phdr_unmapped : ¬AlwaysPhdr (headersElf 2 0x400000) 0#64 := by
  intro h
  have hok : (elfLoad taskMachine (some (headersElf 2 0x400000).node) (some 256) 0#64).1 =
      .ok ⟨0x400000#64,64#64,56,1,0#64,0x401000#64,false⟩ := by decide
  obtain ⟨eh,phdrs,hh,hphoff,hin⟩ : ∃ eh phdrs,
      elfHeaders (headersElf 2 0x400000).node = .ok (eh,phdrs) ∧ eh.phoff = 64#64 ∧
      TableLoaded (headersElf 2 0x400000) eh phdrs :=
    ⟨_,_,rfl,by decide,by unfold TableLoaded; decide⟩
  have hbyte := h (· = 256) taskMachine 256 taskMachine_owned.1 taskMachine_apart rfl eh phdrs hh hin
    _ hok 64#64 (by decide) 0 (by decide)
  rw [hphoff] at hbyte
  exact absurd hbyte (by decide)

theorem elfLoad_phdr_iff_sample :
    AlwaysPhdr (headersElf 3 0) 0#64 ∧ PhdrSuits (headersElf 3 0) 0#64 := by
  have hlow : PagesLower (headersElf 3 0) 0#64 := by
    have hall : (imagePages (some (headersElf 3 0).node) 0#64).all
        (fun x => decide ((pml4Idx x.1).val < 256)) = true := by
      decide
    intro x hx
    exact of_decide_eq_true (List.all_eq_true.mp hall x hx)
  have hsize : (elfPlan (some (headersElf 3 0).node) 0#64).1.length ≤ 2^37 := by decide
  have hsuits : PhdrSuits (headersElf 3 0) 0#64 := by
    right
    intro eh phdrs hh hin
    obtain ⟨e,ps,hh',hplaced⟩ : ∃ e ps, elfHeaders (headersElf 3 0).node = .ok (e,ps) ∧
        TablePlaced (headersElf 3 0) e ps (loadBias e 0#64) :=
      ⟨_,_,rfl,by unfold TablePlaced; decide⟩
    rw [hh,Except.ok.injEq,Prod.mk.injEq] at hh'
    rw [hh'.1,hh'.2]
    exact ⟨hlow,hplaced⟩
  have hiff := elfLoad_phdr_iff (headersElf 3 0) 0#64
  exact ⟨hiff.1 hsuits,hiff.2 hlow hsize (hiff.1 hsuits)⟩

end KiNBOL
