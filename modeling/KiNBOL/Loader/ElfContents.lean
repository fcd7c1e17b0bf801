import KiNBOL.Loader.ElfFile
import KiNBOL.Loader.ElfWx

namespace KiNBOL

/-! Whether a program finds at every address of its segments the byte that the headers put there. -/

/-- The address of byte `i` of a segment. -/
def segmentAddr (ph : Elf64Phdr) (bias : BitVec 64) (i : Nat) : BitVec 64 :=
  bias+ph.vaddr+BitVec.ofNat 64 i

/-- The byte that belongs there: one of the file, zero behind `p_filesz`. -/
def segmentByte (f : FileBytes) (ph : Elf64Phdr) (i : Nat) : Option (BitVec 8) :=
  if i < ph.filesz.toNat then f.val[ph.offset.toNat+i]? else some 0#8

/-- No two `PT_LOAD` byte ranges have an address in common. -/
def RangesApart (phdrs : List Elf64Phdr) : Prop :=
  phdrs.Pairwise (fun a b => a.type = 1 → b.type = 1 → ∀ w : BitVec 64,
    (w-a.vaddr).toNat < a.memsz.toNat → ¬(w-b.vaddr).toNat < b.memsz.toNat)

/-- Each byte of each `PT_LOAD` segment is mapped and is the right one. -/
def ImageShown (mem : PhysMem) (p : Nat) (f : FileBytes) (phdrs : List Elf64Phdr)
    (bias : BitVec 64) : Prop :=
  ∀ ph ∈ phdrs, ph.type = 1 → ∀ i, i < ph.memsz.toNat →
    ∃ b, segmentByte f ph i = some b ∧ hwByte mem p (segmentAddr ph bias i) = some b

/-- Every load of the file into a fresh pagemap that succeeds does that, if no ranges overlap. -/
def ImageCorrect (f : FileBytes) (rand : BitVec 64) : Prop :=
  ∀ eh phdrs, elfHeaders f.node = .ok (eh,phdrs) → RangesApart phdrs →
  ∀ (roots : Nat → Prop) (m : Machine) (p : Nat), Owned roots m → KernelApart roots m → roots p →
    (∀ i : Fin 512, i.val < 256 → m.mem p i = 0#64) →
    ∀ res, (elfLoad m (some f.node) (some p) rand).1 = .ok res →
      ImageShown (elfLoad m (some f.node) (some p) rand).2.machine.mem p f phdrs res.loadBias

/-- The segments lie in the lower half and their file bytes in the file; where a segment has a page
in common with a later one, its own bytes in that page are zero. -/
structure ContentsKept (f : FileBytes) (phdrs : List Elf64Phdr) (bias : BitVec 64) : Prop where
  lower : ∀ ph ∈ phdrs, ph.type = 1 → ph.memsz ≠ 0#64 →
    (bias+ph.vaddr).toNat+ph.memsz.toNat ≤ 2^47
  inFile : ∀ ph ∈ phdrs, ph.type = 1 → ∀ i, i < ph.memsz.toNat → i < ph.filesz.toNat →
    ph.offset.toNat+i < f.val.length
  shared : phdrs.Pairwise (fun a b => a.type = 1 → b.type = 1 → ∀ i j, i < a.memsz.toNat →
    j < b.memsz.toNat → (segmentAddr a bias i).toNat/4096 = (segmentAddr b bias j).toNat/4096 →
    segmentByte f a i = some 0#8)

/-- The file cannot be loaded to the end, or has overlapping ranges, or its contents are kept. -/
def ContentsPlanned (f : FileBytes) (rand : BitVec 64) : Prop :=
  (elfPlan (some f.node) rand).2 = false ∨
  ∀ eh phdrs, elfHeaders f.node = .ok (eh,phdrs) → RangesApart phdrs →
    ContentsKept f phdrs (loadBias eh rand)

variable {f : FileBytes} {rand : BitVec 64} {eh : Elf64Ehdr} {ph : Elf64Phdr}
  {phdrs : List Elf64Phdr} {bias w : BitVec 64} {n i : Nat} {m m' : Machine} {x : LoadedPage}

theorem segmentAddr_toNat (ph : Elf64Phdr) (bias : BitVec 64) (i : Nat) :
    (segmentAddr ph bias i).toNat = ((bias+ph.vaddr).toNat+i)%2^64 := by
  rw [segmentAddr,BitVec.toNat_add (bias+ph.vaddr),BitVec.toNat_ofNat,Nat.add_mod_mod]

theorem segmentAddr_sub (hi : i < ph.memsz.toNat) :
    (segmentAddr ph bias i-(bias+ph.vaddr)).toNat = i := by
  have hlt := ph.memsz.isLt
  rw [segmentAddr,BitVec.add_comm,BitVec.add_sub_cancel,BitVec.toNat_ofNat]
  omega

theorem segmentStart_toNat (ph : Elf64Phdr) (bias : BitVec 64) :
    (segmentStart ph bias).toNat = (bias+ph.vaddr).toNat/4096*4096 := toNat_pageMask _

theorem lt_segmentPages : n < segmentPages ph bias ↔
    (bias+ph.vaddr).toNat/4096*4096+4096*n <
      ((bias+ph.vaddr).toNat+ph.memsz.toNat+4095)%2^64/4096*4096 := by
  have hsub : bias+ph.vaddr+ph.memsz+4096#64-1#64 = bias+ph.vaddr+ph.memsz+4095#64 := by
    rw [BitVec.sub_eq_add_neg,BitVec.add_assoc]
    rfl
  have hend : ((bias+ph.vaddr+ph.memsz+4096#64-1#64) &&& pageMask).toNat =
      ((bias+ph.vaddr).toNat+ph.memsz.toNat+4095)%2^64/4096*4096 := by
    rw [toNat_pageMask,hsub,BitVec.toNat_add (bias+ph.vaddr+ph.memsz),
      BitVec.toNat_add (bias+ph.vaddr),Nat.mod_add_mod]
    rfl
  have hstart := segmentStart_toNat ph bias
  unfold segmentPages
  dsimp only
  split
  · next hlt =>
    rw [BitVec.lt_def,hend,hstart] at hlt
    rw [BitVec.toNat_sub_of_le (by rw [BitVec.le_def,hend,hstart]; omega),hend,hstart]
    omega
  · next hge =>
    rw [BitVec.lt_def,hend,hstart] at hge
    omega

theorem segmentPage_va (hn : n < segmentPages ph bias) :
    (segmentPage f ph bias n).va.toNat = (bias+ph.vaddr).toNat/4096*4096+4096*n := by
  rw [lt_segmentPages] at hn
  show (segmentStart ph bias+BitVec.ofNat 64 (4096*n)).toNat = _
  rw [BitVec.toNat_add,segmentStart_toNat,BitVec.toNat_ofNat]
  omega

/-- Each page of a segment has one of its bytes. -/
theorem byte_of_page (hn : n < segmentPages ph bias) (hm : ph.memsz ≠ 0#64) :
    ∃ i, i < ph.memsz.toNat ∧
      (segmentAddr ph bias i).toNat/4096 = (segmentPage f ph bias n).va.toNat/4096 := by
  have hpos : 0 < ph.memsz.toNat := by
    rw [Nat.pos_iff_ne_zero]
    exact fun h => hm (BitVec.eq_of_toNat_eq h)
  have hva := @segmentPage_va f ph bias n hn
  rw [lt_segmentPages] at hn
  have hS := (bias+ph.vaddr).isLt
  have hM := ph.memsz.isLt
  by_cases h0 : n = 0
  · refine ⟨0,hpos,?_⟩
    rw [segmentAddr_toNat,hva,h0]
    omega
  · refine ⟨4096*n-(bias+ph.vaddr).toNat%4096,?_,?_⟩
    · omega
    · rw [segmentAddr_toNat,hva]
      omega

/-- A byte of a segment in the lower half is in one of its pages. -/
theorem page_of_byte (hl : (bias+ph.vaddr).toNat+ph.memsz.toNat ≤ 2^47) (hi : i < ph.memsz.toNat) :
    ∃ n, n < segmentPages ph bias ∧
      (segmentPage f ph bias n).va.toNat/4096 = (segmentAddr ph bias i).toNat/4096 := by
  have hn : ((bias+ph.vaddr).toNat+i)/4096-(bias+ph.vaddr).toNat/4096 < segmentPages ph bias := by
    rw [lt_segmentPages]
    omega
  refine ⟨_,hn,?_⟩
  rw [segmentPage_va hn,segmentAddr_toNat]
  omega

/-- The byte of a page at an address on it, by the distance from the start of the segment. -/
theorem segmentPage_byte (hl : (bias+ph.vaddr).toNat+ph.memsz.toNat ≤ 2^47)
    (hsize : ph.filesz ≤ ph.memsz) (hn : n < segmentPages ph bias)
    (hw : (segmentPage f ph bias n).va.toNat/4096 = w.toNat/4096) :
    (segmentPage f ph bias n).byte (w.toNat%4096) =
      if (w-(bias+ph.vaddr)).toNat < ph.filesz.toNat then
        f.val.getD ((ph.offset.toNat+(w-(bias+ph.vaddr)).toNat)%2^32) 0#8
      else 0#8 := by
  have hoff : (segmentOff ph bias).toNat = (bias+ph.vaddr).toNat%4096 := by
    have hle : segmentStart ph bias ≤ bias+ph.vaddr := by
      rw [BitVec.le_def,segmentStart_toNat]
      omega
    rw [segmentOff,BitVec.toNat_sub_of_le hle,segmentStart_toNat]
    omega
  rw [segmentPage_va hn] at hw
  rw [BitVec.le_def] at hsize
  have hw64 := w.isLt
  unfold segmentPage
  dsimp only
  rw [hoff]
  by_cases hge : (bias+ph.vaddr).toNat ≤ w.toNat
  · have hdist : (w-(bias+ph.vaddr)).toNat = w.toNat-(bias+ph.vaddr).toNat :=
      BitVec.toNat_sub_of_le hge
    have hi : 4096*n+w.toNat%4096-(bias+ph.vaddr).toNat%4096 = (w-(bias+ph.vaddr)).toNat := by
      omega
    rw [hi]
    apply if_congr _ rfl rfl
    omega
  · -- before the segment: the distance wraps around and is beyond `p_filesz`
    have hdist : (w-(bias+ph.vaddr)).toNat = 2^64-(bias+ph.vaddr).toNat+w.toNat := by
      rw [BitVec.toNat_sub]
      omega
    rw [if_neg (by omega),if_neg (by omega)]

/-- What the last page on an address has there, for one segment in the lower half. -/
theorem segmentFill_last (hl : ph.memsz ≠ 0#64 → (bias+ph.vaddr).toNat+ph.memsz.toNat ≤ 2^47)
    (hsize : ph.memsz ≠ 0#64 → ph.filesz ≤ ph.memsz) (hw : LowerHalf w)
    (hx : lastPage w (segmentFill f ph bias) = some x) :
    ph.type = 1 ∧ x.byte (w.toNat%4096) =
      if (w-(bias+ph.vaddr)).toNat < ph.filesz.toNat then
        f.val.getD ((ph.offset.toNat+(w-(bias+ph.vaddr)).toNat)%2^32) 0#8
      else 0#8 := by
  obtain ⟨hmem,hs⟩ := lastPage_some hx
  unfold segmentFill at hmem
  split at hmem
  · next hload =>
    obtain ⟨n,hn,rfl⟩ := List.mem_map.mp hmem
    rw [List.mem_range] at hn
    have hend := hl hload.2
    have hva : LowerHalf (segmentPage f ph bias n).va := by
      have h := @segmentPage_va f ph bias n hn
      rw [lt_segmentPages] at hn
      rw [LowerHalf,h]
      omega
    exact ⟨hload.1,segmentPage_byte hend (hsize hload.2) hn ((sameLeaf_iff hva hw).mp hs)⟩
  · simp at hmem

theorem segmentFill_covers (hl : (bias+ph.vaddr).toNat+ph.memsz.toNat ≤ 2^47) (ht : ph.type = 1)
    (hi : i < ph.memsz.toNat) (hw : LowerHalf w)
    (hpage : (segmentAddr ph bias i).toNat/4096 = w.toNat/4096) :
    ∃ x, lastPage w (segmentFill f ph bias) = some x := by
  have hm : ph.memsz ≠ 0#64 := by
    rintro h
    rw [h] at hi
    exact absurd hi (Nat.not_lt_zero i)
  obtain ⟨n,hn,hva⟩ := @page_of_byte f ph bias i hl hi
  have hlow : LowerHalf (segmentPage f ph bias n).va := by
    unfold LowerHalf at hw ⊢
    omega
  apply @lastPage_mem w (segmentPage f ph bias n)
  · rw [segmentFill,if_pos ⟨ht,hm⟩]
    exact List.mem_map_of_mem (List.mem_range.mpr hn)
  · rw [sameLeaf_iff hlow hw]
    omega

/-- The segments lie in the lower half, and no more of them comes from the file than there is. -/
def SegmentsPlaced (bias : BitVec 64) (phdrs : List Elf64Phdr) : Prop :=
  ∀ ph ∈ phdrs, ph.type = 1 → ph.memsz ≠ 0#64 →
    (bias+ph.vaddr).toNat+ph.memsz.toNat ≤ 2^47 ∧ ph.filesz ≤ ph.memsz

theorem filePages_cons (f : FileBytes) (ph : Elf64Phdr) (rest : List Elf64Phdr) (bias : BitVec 64) :
    filePages f (ph::rest) bias = segmentFill f ph bias++filePages f rest bias := rfl

/-- Where no segment has a byte, the pages of all of them have zero. -/
theorem filePages_zero (hp : SegmentsPlaced bias phdrs) (hw : LowerHalf w)
    (hout : ∀ ph ∈ phdrs, ph.type = 1 → ¬(w-(bias+ph.vaddr)).toNat < ph.memsz.toNat)
    (hx : lastPage w (filePages f phdrs bias) = some x) : x.byte (w.toNat%4096) = 0#8 := by
  induction phdrs with
  | nil => simp [filePages,lastPage] at hx
  | cons ph rest ih =>
    rw [filePages_cons,lastPage_append] at hx
    cases hlast : lastPage w (filePages f rest bias) with
    | some y =>
      rw [hlast,Option.some_or] at hx
      exact ih (fun a ha => hp a (List.mem_cons_of_mem ph ha))
        (fun a ha => hout a (List.mem_cons_of_mem ph ha)) (hlast.trans hx)
    | none =>
      rw [hlast,Option.none_or] at hx
      have hmem : ph ∈ ph::rest := List.mem_cons_self
      have hload : ph.type = 1 ∧ ph.memsz ≠ 0#64 := by
        by_contra hno
        rw [segmentFill,if_neg hno] at hx
        simp [lastPage] at hx
      obtain ⟨hend,hsize⟩ := hp ph hmem hload.1 hload.2
      obtain ⟨-,hbyte⟩ := segmentFill_last (fun _ => hend) (fun _ => hsize) hw hx
      have hno := hout ph hmem hload.1
      rw [BitVec.le_def] at hsize
      rw [hbyte,if_neg (by omega)]

/-- Where a segment has a byte, or another one on its page, there is a page. -/
theorem filePages_some (hp : SegmentsPlaced bias phdrs) (hw : LowerHalf w) (hph : ph ∈ phdrs)
    (ht : ph.type = 1) (hi : i < ph.memsz.toNat)
    (hpage : (segmentAddr ph bias i).toNat/4096 = w.toNat/4096) :
    ∃ x, lastPage w (filePages f phdrs bias) = some x := by
  induction phdrs with
  | nil => simp at hph
  | cons a rest ih =>
    rw [filePages_cons,lastPage_append]
    cases hlast : lastPage w (filePages f rest bias) with
    | some y => exact ⟨y,rfl⟩
    | none =>
      rw [Option.none_or]
      rcases List.mem_cons.mp hph with h | h
      · subst h
        have hm : ph.memsz ≠ 0#64 := by
          intro hz
          rw [hz] at hi
          exact absurd hi (Nat.not_lt_zero i)
        exact segmentFill_covers (hp ph hph ht hm).1 ht hi hw hpage
      · obtain ⟨y,hy⟩ := ih (fun b hb => hp b (List.mem_cons_of_mem a hb)) h
        rw [hlast] at hy
        simp at hy

theorem segmentAddr_lower (hp : SegmentsPlaced bias phdrs) (hph : ph ∈ phdrs) (ht : ph.type = 1)
    (hi : i < ph.memsz.toNat) : LowerHalf (segmentAddr ph bias i) := by
  have hm : ph.memsz ≠ 0#64 := by
    intro hz
    rw [hz] at hi
    exact absurd hi (Nat.not_lt_zero i)
  have h := (hp ph hph ht hm).1
  rw [LowerHalf,segmentAddr_toNat]
  omega

/-- An address of one segment is in no segment behind it. -/
theorem RangesApart.out (h : RangesApart (ph::phdrs)) (ht : ph.type = 1) (hi : i < ph.memsz.toNat) :
    ∀ b ∈ phdrs, b.type = 1 → ¬(segmentAddr ph bias i-(bias+b.vaddr)).toNat < b.memsz.toNat := by
  intro b hb htb
  have hoff : ∀ c : Elf64Phdr, segmentAddr ph bias i-(bias+c.vaddr) =
      ph.vaddr+BitVec.ofNat 64 i-c.vaddr := by
    intro c
    rw [segmentAddr,BitVec.add_assoc,← BitVec.sub_sub,BitVec.add_comm bias,BitVec.add_sub_cancel]
  have hself : (ph.vaddr+BitVec.ofNat 64 i-ph.vaddr).toNat < ph.memsz.toNat := by
    rw [← hoff ph,segmentAddr_sub hi]
    exact hi
  rw [hoff b]
  exact (List.pairwise_cons.mp h).1 b hb ht htb _ hself

/-- The file's bytes against what the pages of the image have at the addresses of its segments. -/
def PagesRight (f : FileBytes) (phdrs : List Elf64Phdr) (bias : BitVec 64) : Prop :=
  ∀ ph ∈ phdrs, ph.type = 1 → ∀ i, i < ph.memsz.toNat →
    ∃ x, lastPage (segmentAddr ph bias i) (filePages f phdrs bias) = some x ∧
      segmentByte f ph i = some (x.byte ((segmentAddr ph bias i).toNat%4096))

/-- A segment's own pages have its bytes. -/
theorem segmentFill_right (hend : (bias+ph.vaddr).toNat+ph.memsz.toNat ≤ 2^47)
    (hsize : ph.filesz ≤ ph.memsz) (hw : LowerHalf (segmentAddr ph bias i))
    (hi : i < ph.memsz.toNat) (hin : i < ph.filesz.toNat → ph.offset.toNat+i < f.val.length)
    (hx : lastPage (segmentAddr ph bias i) (segmentFill f ph bias) = some x) :
    segmentByte f ph i = some (x.byte ((segmentAddr ph bias i).toNat%4096)) := by
  obtain ⟨-,hbyte⟩ := segmentFill_last (fun _ => hend) (fun _ => hsize) hw hx
  rw [hbyte,segmentAddr_sub hi,segmentByte]
  split
  · next hfile =>
    have hlt := hin hfile
    have hlen := f.property
    rw [Nat.mod_eq_of_lt (by omega),List.getElem?_eq_getElem hlt,List.getD_eq_getElem?_getD,
      List.getElem?_eq_getElem hlt,Option.getD_some]
  · rfl

theorem pagesRight_of_kept (hp : SegmentsPlaced bias phdrs) (hk : ContentsKept f phdrs bias)
    (hapart : RangesApart phdrs) : PagesRight f phdrs bias := by
  induction phdrs with
  | nil =>
    intro ph hph
    simp at hph
  | cons a rest ih =>
    have hp' : SegmentsPlaced bias rest := fun b hb => hp b (List.mem_cons_of_mem a hb)
    have hk' : ContentsKept f rest bias :=
      ⟨fun b hb => hk.lower b (List.mem_cons_of_mem a hb),
        fun b hb => hk.inFile b (List.mem_cons_of_mem a hb),(List.pairwise_cons.mp hk.shared).2⟩
    intro ph hph ht i hi
    have hw := segmentAddr_lower hp hph ht hi
    rw [filePages_cons,lastPage_append]
    cases hlast : lastPage (segmentAddr ph bias i) (filePages f rest bias) with
    | some y =>
      refine ⟨y,rfl,?_⟩
      rcases List.mem_cons.mp hph with h | h
      · -- a later segment has the page: the byte is zero there, and so it should be
        subst h
        rw [filePages_zero hp' hw (hapart.out ht hi) hlast]
        obtain ⟨hmem,hs⟩ := lastPage_some hlast
        obtain ⟨b,hb,htb,j,hj,hpage⟩ : ∃ b ∈ rest, b.type = 1 ∧ ∃ j, j < b.memsz.toNat ∧
            (segmentAddr b bias j).toNat/4096 = (segmentAddr ph bias i).toNat/4096 := by
          obtain ⟨b,hb,hfill⟩ := List.mem_flatMap.mp hmem
          unfold segmentFill at hfill
          split at hfill
          · next hload =>
            obtain ⟨n,hn,rfl⟩ := List.mem_map.mp hfill
            rw [List.mem_range] at hn
            obtain ⟨j,hj,hpage⟩ := @byte_of_page f b bias n hn hload.2
            have hlow := segmentAddr_lower hp' hb hload.1 hj
            refine ⟨b,hb,hload.1,j,hj,?_⟩
            have hva : LowerHalf (segmentPage f b bias n).va := by
              unfold LowerHalf at hlow ⊢
              omega
            rw [hpage,(sameLeaf_iff hva hw).mp hs]
          · simp at hfill
        exact (List.pairwise_cons.mp hk.shared).1 b hb ht htb i j hi hj hpage.symm
      · obtain ⟨x,hx,hbyte⟩ := ih hp' hk' (List.pairwise_cons.mp hapart).2 ph h ht i hi
        rw [hlast,Option.some.injEq] at hx
        exact hx ▸ hbyte
    | none =>
      rw [Option.none_or]
      rcases List.mem_cons.mp hph with h | h
      · subst h
        have hm : ph.memsz ≠ 0#64 := by
          intro hz
          rw [hz] at hi
          exact absurd hi (Nat.not_lt_zero i)
        obtain ⟨hend,hsize⟩ := hp ph hph ht hm
        obtain ⟨x,hx⟩ := @segmentFill_covers f ph bias _ i hend ht hi hw rfl
        exact ⟨x,hx,segmentFill_right hend hsize hw hi (hk.inFile ph hph ht i hi) hx⟩
      · obtain ⟨y,hy⟩ := @filePages_some f ph rest bias _ i hp' hw h ht hi rfl
        rw [hlast] at hy
        simp at hy

theorem kept_of_pagesRight (hp : SegmentsPlaced bias phdrs) (hapart : RangesApart phdrs)
    (h : PagesRight f phdrs bias) : ContentsKept f phdrs bias := by
  refine ⟨fun ph hph ht hm => (hp ph hph ht hm).1,fun ph hph ht i hi hfile => ?_,?_⟩
  · obtain ⟨x,-,hbyte⟩ := h ph hph ht i hi
    rw [segmentByte,if_pos hfile] at hbyte
    exact (List.getElem?_eq_some_iff.mp hbyte).1
  · induction phdrs with
    | nil => exact List.Pairwise.nil
    | cons a rest ih =>
      have hp' : SegmentsPlaced bias rest := fun b hb => hp b (List.mem_cons_of_mem a hb)
      refine List.pairwise_cons.mpr ⟨fun b hb ht htb i j hi hj hpage => ?_,ih hp'
        (List.pairwise_cons.mp hapart).2 (fun ph hph ht i hi => ?_)⟩
      · have hw := segmentAddr_lower hp List.mem_cons_self ht hi
        obtain ⟨y,hy⟩ := @filePages_some f b rest bias _ j hp' hw hb htb hj hpage.symm
        obtain ⟨x,hx,hbyte⟩ := h a List.mem_cons_self ht i hi
        rw [filePages_cons,lastPage_append,hy,Option.some_or,Option.some.injEq] at hx
        rw [hbyte,← hx,filePages_zero hp' hw (hapart.out ht hi) hy]
      · have hw := segmentAddr_lower hp' hph ht hi
        obtain ⟨y,hy⟩ := @filePages_some f ph rest bias _ i hp' hw hph ht hi rfl
        obtain ⟨x,hx,hbyte⟩ := h ph (List.mem_cons_of_mem a hph) ht i hi
        rw [filePages_cons,lastPage_append,hy,Option.some_or,Option.some.injEq] at hx
        exact ⟨y,hy,hx ▸ hbyte⟩

theorem SegmentsPlaced.pages (hp : SegmentsPlaced bias phdrs) :
    ∀ x ∈ filePages f phdrs bias, (pml4Idx x.va).val < 256 := by
  intro x hx
  obtain ⟨ph,hph,hfill⟩ := List.mem_flatMap.mp hx
  unfold segmentFill at hfill
  split at hfill
  · next hload =>
    obtain ⟨n,hn,rfl⟩ := List.mem_map.mp hfill
    rw [List.mem_range] at hn
    obtain ⟨j,hj,hpage⟩ := @byte_of_page f ph bias n hn hload.2
    have hlow := segmentAddr_lower hp hph hload.1 hj
    apply pml4Idx_lower
    unfold LowerHalf at hlow ⊢
    omega
  · simp at hfill

theorem planSegments_sizes {node : VfsNode} (hplan : (planSegments node bias phdrs).2 = true) :
    ∀ ph ∈ phdrs, ph.type = 1 → ph.memsz ≠ 0#64 → ph.filesz ≤ ph.memsz := by
  induction phdrs with
  | nil =>
    intro ph hph
    simp at hph
  | cons a rest ih =>
    intro ph hph ht hm
    rw [planSegments] at hplan
    by_cases hload : a.type = 1
    · rw [if_pos hload] at hplan
      dsimp only at hplan
      by_cases hseg : (planSegment node a bias).2 = true
      · rw [if_pos hseg] at hplan
        rcases List.mem_cons.mp hph with h | h
        · subst h
          unfold planSegment at hseg
          rw [if_neg hm] at hseg
          split at hseg
          · simp at hseg
          · next hge => exact BitVec.not_lt.mp hge
        · exact ih hplan ph h ht hm
      · rw [if_neg hseg] at hplan
        simp at hplan
    · have hne : ph ≠ a := fun h => hload (h ▸ ht)
      rw [if_neg hload] at hplan
      split at hplan
      · simp at hplan
      · exact ih hplan ph ((List.mem_cons.mp hph).resolve_left hne) ht hm

theorem elfPlan_sizes (hh : elfHeaders f.node = .ok (eh,phdrs))
    (hplan : (elfPlan (some f.node) rand).2 = true) :
    ∀ ph ∈ phdrs, ph.type = 1 → ph.memsz ≠ 0#64 → ph.filesz ≤ ph.memsz := by
  simp only [elfPlan,hh] at hplan
  exact planSegments_sizes hplan

theorem elfLoad_bias {node : VfsNode} {p : Nat} {res : ElfLoadResult}
    (hh : elfHeaders node = .ok (eh,phdrs))
    (hres : (elfLoad m (some node) (some p) rand).1 = .ok res) : res.loadBias = loadBias eh rand := by
  simp only [elfLoad,hh] at hres
  cases hsegs : elfLoadSegments (some p) node (loadBias eh rand) phdrs 0#64 0#64 ⟨m,[]⟩ with
  | mk r s₁ =>
    rw [hsegs] at hres
    cases r with
    | error msg => simp [Loading.next] at hres
    | ok b =>
      rw [Loading.next,Except.ok.injEq] at hres
      rw [← hres]

theorem imageCorrect_of_planned (h : ContentsPlanned f rand) : ImageCorrect f rand := by
  intro eh phdrs hh hapart roots m p ho _ hr _ res hres
  have hok := (elfLoad_performs m (some f.node) p rand ho.limit).ok res hres
  rcases h with hno | hall
  · rw [hno] at hok
    exact absurd hok.2 (by simp)
  have hk := hall eh phdrs hh hapart
  have hp : SegmentsPlaced (loadBias eh rand) phdrs := fun ph hph ht hm =>
    ⟨hk.lower ph hph ht hm,elfPlan_sizes hh hok.2 ph hph ht hm⟩
  have hloads := elfLoad_loads ho.limit hres
  rw [imageData_eq hh hok.2] at hloads
  rw [elfLoad_bias hh hres]
  intro ph hph ht i hi
  obtain ⟨x,hx,hbyte⟩ := pagesRight_of_kept hp hk hapart ph hph ht i hi
  exact ⟨_,hbyte,hloads.byte ho hr hp.pages (segmentAddr_lower hp hph ht hi) hx⟩

/-- The word of which every byte is `b`. -/
def byteWord (b : BitVec 8) : BitVec 64 := b.setWidth 64*0x0101010101010101#64

/-- A 1 GiB page at frame `2^18`, with and without the PAT bit. -/
def gibEntry (pat : Bool) : BitVec 64 := if pat then 0x40001083#64 else 0x40000083#64

/-- A machine whose kernel half is one 1 GiB page after another, all on the same frames and these
filled with a byte. The software walk takes one of the frames for a page directory: the first, or
with the PAT bit in the entries the second; only in that frame there are entries. -/
def paintedMachine (b : BitVec 8) (pat : Bool) : Machine :=
  { mem := fun n i =>
      if n = 1 ∧ 256 ≤ i.val then 0x2003#64
      else if n = 2 then gibEntry pat
      else if n = 2^18+pat.toNat then 0x3003#64
      else if 2^18 ≤ n ∧ n < 2^19 then byteWord b
      else 0#64
    pmm := heldBelow (2^16)
    cr3 := 1 }

/-- Its kernel half stands. -/
structure Painted (b : BitVec 8) (pat : Bool) (m : Machine) : Prop where
  low : LowPages (2^19) m
  pml4 : ∀ i : Fin 512, 256 ≤ i.val → m.mem 1 i = 0x2003#64
  pdpt : ∀ i, m.mem 2 i = gibEntry pat
  pd : ∀ i, m.mem (2^18+pat.toNat) i = 0x3003#64
  frames : ∀ n i, 2^18 ≤ n → n < 2^19 → n ≠ 2^18+pat.toNat → m.mem n i = byteWord b

variable {b : BitVec 8} {pat : Bool}

theorem paintedMachine_lower (b : BitVec 8) (pat : Bool) {i : Fin 512} (hi : i.val < 256) :
    (paintedMachine b pat).mem 1 i = 0#64 := by
  have hne : ¬(1 = 1 ∧ 256 ≤ i.val) := by omega
  have hne2 : ¬(1 = 2^18+pat.toNat) := by omega
  exact (if_neg hne).trans ((if_neg (by decide)).trans ((if_neg hne2).trans (if_neg (by decide))))

theorem paintedMachine_painted (b : BitVec 8) (pat : Bool) :
    Painted b pat (paintedMachine b pat) := by
  have hheld : ∀ n, n < 2^19 → (paintedMachine b pat).pmm.Held n :=
    fun n hn => @heldBelow_held (2^16) n (by decide) (by omega)
  have hb := @Owned.blank 1 (paintedMachine b pat)
    (fun i hi => paintedMachine_lower b pat hi) (hheld 1 (by decide)) (le_refl _)
  have hpat := Bool.toNat_le pat
  refine ⟨⟨hb.1,by decide,hheld,fun n _ hn => hb.2 n hn⟩,fun i hi => ?_,fun i => ?_,fun i => ?_,
    fun n i h1 h2 h3 => ?_⟩
  · exact if_pos ⟨rfl,hi⟩
  · have hne : ¬(2 = 1 ∧ 256 ≤ i.val) := by omega
    simp only [paintedMachine,if_neg hne,if_true]
  · have hne : ¬(2^18+pat.toNat = 1 ∧ 256 ≤ i.val) := by omega
    have hne2 : ¬(2^18+pat.toNat = 2) := by omega
    exact (if_neg hne).trans ((if_neg hne2).trans (if_pos rfl))
  · have hne : ¬(n = 1 ∧ 256 ≤ i.val) := by omega
    have hne2 : ¬n = 2 := by omega
    exact (if_neg hne).trans ((if_neg hne2).trans ((if_neg h3).trans (if_pos ⟨h1,h2⟩)))

theorem painted_root : present 0x2003#64 = true ∧ framePage 0x2003#64 = 2 ∧
    pageOf (0x2003#64 &&& pageMask) = 2 := by decide

/-- For the processor the PAT bit of a 1 GiB page is none of its address; the software walk takes it
for one. -/
theorem painted_huge (pat : Bool) :
    present (gibEntry pat) = true ∧ has (gibEntry pat) vmmHuge = true ∧
      framePage (gibEntry pat)/2^18*2^18 = 2^18 ∧
      pageOf (gibEntry pat &&& pageMask) = 2^18+pat.toNat := by
  cases pat <;> decide

theorem memByte_byteWord {mem : PhysMem} {n : Nat} (hb : b = 0#8 ∨ b = 1#8)
    (h : ∀ i, mem n i = byteWord b) (o : Nat) : memByte mem n o = b := by
  have hall : ∀ c : BitVec 8, c = 0#8 ∨ c = 1#8 → ∀ k < 8,
      ((byteWord c >>> (8*k)).setWidth 8 : BitVec 8) = c := by
    rintro c (rfl | rfl) <;> decide
  rw [memByte,h,hall b hb _ (Nat.mod_lt o (by decide))]

/-- The addresses of the kernel half that are not on that frame read the byte. -/
theorem Painted.byte (h : Painted b pat m) (hb : b = 0#8 ∨ b = 1#8) (hw : KernelHalf w)
    (hpat : pageOf w%2^18 ≠ pat.toNat) : hwByte m.mem 1 w = some b := by
  obtain ⟨h1,h2,-⟩ := painted_root
  obtain ⟨h3,h4,h5,-⟩ := painted_huge pat
  have hwalk : hwWalk m.mem 1 w = some (xlat (2^18+pageOf w%2^18)
      [0x2003#64,gibEntry pat]) := by
    simp only [hwWalk,h.pml4 _ (pml4Idx_kernel hw),h1,h2,h.pdpt,h3,h4,h5,Bool.not_true,
      Bool.false_eq_true,if_false,if_true]
  rw [hwByte,translate,if_pos (Or.inr hw),hwalk,Option.map_some]
  exact congrArg some (memByte_byteWord hb
    (fun i => h.frames _ i (by simp only [xlat]; omega) (by simp only [xlat]; omega)
      (by simp only [xlat]; omega)) _)

theorem paintedMachine_apart (b : BitVec 8) (pat : Bool) :
    KernelApart (· = 1) (paintedMachine b pat) := by
  intro r va hr hva n hn
  subst hr
  have hp := paintedMachine_painted b pat
  obtain ⟨h1,h2,-⟩ := painted_root
  obtain ⟨h3,h4,-⟩ := painted_huge pat
  simp only [hwTables,hp.pml4 _ (pml4Idx_kernel hva),h1,h2,hp.pdpt,h3,h4,Bool.not_true,
    Bool.or_true,Bool.false_eq_true,if_false,if_true,List.mem_singleton] at hn
  rw [hn]
  have hlow : 2 < 2^19 := by decide
  exact ⟨fun hnode => absurd (hp.low.nodes 2 hlow hnode) (by decide),(hp.low.held 2 hlow).not_free⟩

/-- A page of the image leaves it standing. -/
theorem Painted.page {x : ImagePage} (h : Painted b pat m) (hx : MapsPage 1 x m m') :
    Painted b pat m' := by
  have hpat := Bool.toNat_le pat
  obtain ⟨hlow',hkept⟩ : LowPages (2^19) m' ∧
      ∀ n i, n < 2^19 → n ≠ 3 → (n = 1 → 256 ≤ i.val) → m'.mem n i = m.mem n i := by
    by_cases hlow : (pml4Idx x.1).val < 256
    · obtain ⟨hl,hk⟩ := h.low.lower hx hlow
      exact ⟨hl,fun n i hn _ hi => hk n i hn hi⟩
    · have hw : WalksTo m.mem x.1 2 (2^18+pat.toNat) 3 := by
        refine ⟨?_,?_,?_⟩
        · rw [h.pml4 _ (by omega)]
          exact ⟨painted_root.1,painted_root.2.2⟩
        · rw [h.pdpt]
          exact ⟨(painted_huge pat).1,(painted_huge pat).2.2.2⟩
        · rw [h.pd]
          decide
      obtain ⟨hl,hk⟩ := h.low.upper hx hw ⟨by decide,by omega,by decide⟩ (by decide)
      exact ⟨hl,fun n i hn h3 _ => hk n i hn h3⟩
  refine ⟨hlow',fun i hi => ?_,fun i => ?_,fun i => ?_,fun n i h1 h2 h3 => ?_⟩
  · rw [hkept 1 i (by decide) (by decide) (fun _ => hi),h.pml4 i hi]
  · rw [hkept 2 i (by decide) (by decide) (by omega),h.pdpt]
  · rw [hkept _ i (by omega) (by omega) (by omega),h.pd]
  · rw [hkept n i h2 (by omega) (by omega),h.frames n i h1 h2 h3]

theorem Painted.image {l : List ImagePage} (hmaps : MapsImage 1 l m m') (h : Painted b pat m) :
    Painted b pat m' := by
  induction hmaps with
  | done m => exact h
  | page hx _ ih => exact ih (h.page hx)

theorem frame_avoided (k : Nat) : ∃ pat : Bool, k ≠ pat.toNat := by
  by_cases h0 : k = 0
  · exact ⟨true,by rw [h0]; decide⟩
  · exact ⟨false,h0⟩

/-- A file within reach of a machine's memory that loads correctly has no byte in the kernel half:
load it under kernel halves of different bytes. -/
theorem ImageCorrect.not_kernel (h : ImageCorrect f rand) (hh : elfHeaders f.node = .ok (eh,phdrs))
    (hapart : RangesApart phdrs) (hplan : (elfPlan (some f.node) rand).2 = true)
    (hsize : (elfPlan (some f.node) rand).1.length ≤ 2^37) (hph : ph ∈ phdrs) (ht : ph.type = 1)
    (hi : i < ph.memsz.toNat) : ¬KernelHalf (segmentAddr ph (loadBias eh rand) i) := by
  intro hw
  have hall : ∀ c : BitVec 8, c = 0#8 ∨ c = 1#8 → segmentByte f ph i = some c := by
    intro c hc
    obtain ⟨pat,hpat⟩ := frame_avoided (pageOf (segmentAddr ph (loadBias eh rand) i)%2^18)
    have hp := paintedMachine_painted c pat
    have hlow : LowHeld (paintedMachine c pat) :=
      fun n hn => hp.low.held n (lt_trans hn (by decide))
    have hroom : 4*((elfPlan (some f.node) rand).1.length+1) ≤ (paintedMachine c pat).avail := by
      have havail : (paintedMachine c pat).avail = 2^40-8*2^16 := heldBelow_count (2^16)
      rw [havail]
      omega
    obtain ⟨res,hres⟩ := ((elfLoad_performs (paintedMachine c pat) (some f.node) 1 rand
      (le_refl _)).ample hlow hroom).2 hplan
    have hmaps := @elfLoad_maps 1 (paintedMachine c pat) _ _ _ (le_refl _) hres
    obtain ⟨a,hbyte,hread⟩ := h eh phdrs hh hapart (· = 1) (paintedMachine c pat) 1 hp.low.owned
      (paintedMachine_apart c pat) rfl (fun i hi => paintedMachine_lower c pat hi) res hres ph hph ht i hi
    rw [elfLoad_bias hh hres,(Painted.image hmaps hp).byte hc hw hpat,Option.some.injEq] at hread
    rw [hbyte,hread]
  have h0 := hall 0#8 (Or.inl rfl)
  rw [hall 1#8 (Or.inr rfl),Option.some.injEq] at h0
  exact absurd h0 (by decide)

theorem ImageCorrect.placed (h : ImageCorrect f rand) (hh : elfHeaders f.node = .ok (eh,phdrs))
    (hapart : RangesApart phdrs) (hplan : (elfPlan (some f.node) rand).2 = true)
    (hsize : (elfPlan (some f.node) rand).1.length ≤ 2^37) : SegmentsPlaced (loadBias eh rand) phdrs := by
  have hroom : 4*((elfPlan (some f.node) rand).1.length+1) ≤ emptyMachine.avail := by
    rw [emptyMachine_avail]
    omega
  obtain ⟨res,hres⟩ := ((elfLoad_performs emptyMachine (some f.node) 1 rand (le_refl _)).ample
    emptyMachine_low hroom).2 hplan
  have hshown := h eh phdrs hh hapart (· = 1) emptyMachine 1 emptyMachine_owned emptyMachine_apart rfl
    (fun _ _ => rfl) res hres
  rw [elfLoad_bias hh hres] at hshown
  intro ph hph ht hm
  refine ⟨?_,elfPlan_sizes hh hplan ph hph ht hm⟩
  have hlow : ∀ i, i < ph.memsz.toNat → LowerHalf (segmentAddr ph (loadBias eh rand) i) := by
    intro i hi
    obtain ⟨a,-,hread⟩ := hshown ph hph ht i hi
    by_contra hno
    have hcanon : ¬(LowerHalf (segmentAddr ph (loadBias eh rand) i) ∨
        KernelHalf (segmentAddr ph (loadBias eh rand) i)) :=
      not_or.mpr ⟨hno,h.not_kernel hh hapart hplan hsize hph ht hi⟩
    rw [hwByte,translate,if_neg hcanon] at hread
    simp at hread
  have hpos : 0 < ph.memsz.toNat :=
    Nat.pos_of_ne_zero (fun h0 => hm (BitVec.eq_of_toNat_eq h0))
  have hstart := hlow 0 hpos
  rw [LowerHalf,segmentAddr_toNat] at hstart
  by_contra hend
  have hlast := hlow (2^47-(loadBias eh rand+ph.vaddr).toNat) (by omega)
  rw [LowerHalf,segmentAddr_toNat] at hlast
  omega

theorem planned_of_imageCorrect (hsize : (elfPlan (some f.node) rand).1.length ≤ 2^37)
    (h : ImageCorrect f rand) : ContentsPlanned f rand := by
  cases hplan : (elfPlan (some f.node) rand).2 with
  | false => exact Or.inl hplan
  | true =>
    refine Or.inr (fun eh phdrs hh hapart => ?_)
    have hp := h.placed hh hapart hplan hsize
    have hroom : 4*((elfPlan (some f.node) rand).1.length+1) ≤ emptyMachine.avail := by
      rw [emptyMachine_avail]
      omega
    obtain ⟨res,hres⟩ := ((elfLoad_performs emptyMachine (some f.node) 1 rand (le_refl _)).ample
      emptyMachine_low hroom).2 hplan
    have hshown := h eh phdrs hh hapart (· = 1) emptyMachine 1 emptyMachine_owned emptyMachine_apart
      rfl (fun _ _ => rfl) res hres
    rw [elfLoad_bias hh hres] at hshown
    have hloads := @elfLoad_loads 1 emptyMachine _ _ _ (le_refl _) hres
    rw [imageData_eq hh hplan] at hloads
    apply kept_of_pagesRight hp hapart
    intro ph hph ht i hi
    have hw := segmentAddr_lower hp hph ht hi
    obtain ⟨a,hbyte,hread⟩ := hshown ph hph ht i hi
    obtain ⟨x,hx⟩ := @filePages_some f ph phdrs _ _ i hp hw hph ht hi rfl
    refine ⟨x,hx,?_⟩
    rw [hloads.byte emptyMachine_owned rfl hp.pages hw hx] at hread
    exact hbyte.trans hread.symm

/-- A file's image is right after every load exactly when it is planned so; the converse is for files
within reach of a machine's memory. -/
theorem elfLoad_contents_iff (f : FileBytes) (rand : BitVec 64) :
    (ContentsPlanned f rand → ImageCorrect f rand) ∧
    ((elfPlan (some f.node) rand).1.length ≤ 2^37 → ImageCorrect f rand → ContentsPlanned f rand) :=
  ⟨imageCorrect_of_planned,planned_of_imageCorrect⟩

/-- A file whose first segment is the file itself at 4 MiB, and whose second one has no bytes in the
file. -/
def twoSegmentElf (vaddr : Nat) : FileBytes :=
  ⟨[0x7f#8,0x45#8,0x4c#8,0x46#8,2#8,1#8]++leBytes 10 0++leBytes 2 2++leBytes 2 62++leBytes 4 1++
      leBytes 8 0x400000++leBytes 8 64++leBytes 14 0++leBytes 2 56++leBytes 2 2++leBytes 6 0++
      (leBytes 4 1++leBytes 4 5++leBytes 8 0++leBytes 8 0x400000++leBytes 8 0x400000++leBytes 8 176++
        leBytes 8 176++leBytes 8 4096)++
      (leBytes 4 1++leBytes 4 6++leBytes 8 176++leBytes 8 vaddr++leBytes 8 vaddr++leBytes 8 0++
        leBytes 8 8++leBytes 8 4096),by simp [length_leBytes]⟩

/-- With the second segment on the page of the first one, behind its bytes, these are lost. -/
theorem elfLoad_shared_page : ¬ImageCorrect (twoSegmentElf 0x400800) 0#64 := by
  intro h
  obtain ⟨eh,a,b,hh,ha,hb⟩ : ∃ eh a b, elfHeaders (twoSegmentElf 0x400800).node = .ok (eh,[a,b]) ∧
      (a.type = 1 ∧ a.vaddr = 0x400000#64 ∧ a.memsz = 176#64 ∧ a.filesz = 176#64 ∧ a.offset = 0#64) ∧
      (b.vaddr = 0x400800#64 ∧ b.memsz = 8#64) :=
    ⟨_,_,_,rfl,by decide,by decide⟩
  obtain ⟨ha1,ha2,ha3,ha4,ha5⟩ := ha
  have hapart : RangesApart [a,b] := by
    refine List.pairwise_cons.mpr ⟨fun c hc _ _ w h1 h2 => ?_,List.pairwise_singleton _ _⟩
    rw [List.mem_singleton] at hc
    rw [ha2,ha3] at h1
    rw [hc,hb.1,hb.2] at h2
    bv_omega
  have hok : (elfLoad taskMachine (some (twoSegmentElf 0x400800).node) (some 256) 0#64).1 =
      .ok ⟨0x400000#64,64#64,56,2,0#64,0x401000#64,false⟩ := by decide +kernel
  obtain ⟨c,hbyte,hread⟩ := h eh [a,b] hh hapart (· = 256) taskMachine 256 taskMachine_owned.1
    taskMachine_apart rfl (by decide +kernel) _ hok a List.mem_cons_self ha1 0 (by rw [ha3]; decide)
  have h7f : c = 0x7f#8 := by
    rw [segmentByte,ha4,ha5] at hbyte
    have hfirst : (twoSegmentElf 0x400800).val[0]? = some 0x7f#8 := rfl
    rw [if_pos (by decide)] at hbyte
    exact (Option.some.inj (hfirst.symm.trans hbyte)).symm
  have haddr : segmentAddr a 0#64 0 = 0x400000#64 := by
    rw [segmentAddr,ha2]
    rfl
  have hzero : hwByte (elfLoad taskMachine (some (twoSegmentElf 0x400800).node) (some 256)
      0#64).2.machine.mem 256 0x400000#64 = some 0#8 := by decide +kernel
  rw [haddr,hzero,h7f] at hread
  exact absurd hread (by decide)

/-- On a page of its own it does no harm. -/
theorem elfLoad_contents_iff_sample : ImageCorrect (twoSegmentElf 0x401000) 0#64 ∧
    ContentsPlanned (twoSegmentElf 0x401000) 0#64 := by
  have hplanned : ContentsPlanned (twoSegmentElf 0x401000) 0#64 := by
    refine Or.inr (fun e ps hh' _ => ?_)
    obtain ⟨eh,a,b,hh,hbias,ha,hb⟩ : ∃ eh a b,
        elfHeaders (twoSegmentElf 0x401000).node = .ok (eh,[a,b]) ∧ loadBias eh 0#64 = 0#64 ∧
        (a.vaddr = 0x400000#64 ∧ a.memsz = 176#64 ∧ a.offset = 0#64) ∧
        (b.vaddr = 0x401000#64 ∧ b.memsz = 8#64 ∧ b.filesz = 0#64) :=
      ⟨_,_,_,rfl,by decide,by decide,by decide⟩
    rw [hh,Except.ok.injEq,Prod.mk.injEq] at hh'
    rw [← hh'.1,← hh'.2,hbias]
    obtain ⟨ha2,ha3,ha5⟩ := ha
    obtain ⟨hb2,hb3,hb4⟩ := hb
    have hlen : (twoSegmentElf 0x401000).val.length = 176 := by decide +kernel
    have hna : (0x400000#64).toNat = 0x400000 ∧ (176#64).toNat = 176 := by decide
    have hnb : (0x401000#64).toNat = 0x401000 ∧ (8#64).toNat = 8 := by decide
    refine ⟨fun ph hph _ _ => ?_,fun ph hph _ i hi hfile => ?_,?_⟩
    · rcases List.mem_pair.mp hph with h | h
      · rw [h,ha2,ha3,BitVec.zero_add,hna.1,hna.2]
        omega
      · rw [h,hb2,hb3,BitVec.zero_add,hnb.1,hnb.2]
        omega
    · rcases List.mem_pair.mp hph with h | h
      · rw [h,ha3,hna.2] at hi
        rw [h,ha5,hlen]
        exact lt_of_eq_of_lt (Nat.zero_add i) hi
      · rw [h,hb4] at hfile
        exact absurd hfile (Nat.not_lt_zero i)
    · refine List.pairwise_cons.mpr ⟨fun c hc _ _ i j hi hj hpage => ?_,List.pairwise_singleton _ _⟩
      rw [List.mem_singleton] at hc
      rw [ha3,hna.2] at hi
      rw [hc,hb3,hnb.2] at hj
      rw [hc,segmentAddr_toNat,segmentAddr_toNat,ha2,hb2,BitVec.zero_add,BitVec.zero_add,hna.1,
        hnb.1] at hpage
      omega
  have hsize : (elfPlan (some (twoSegmentElf 0x401000).node) 0#64).1.length ≤ 2^37 := by
    decide
  have hiff := elfLoad_contents_iff (twoSegmentElf 0x401000) 0#64
  exact ⟨hiff.1 hplanned,hiff.2 hsize (hiff.1 hplanned)⟩

end KiNBOL
