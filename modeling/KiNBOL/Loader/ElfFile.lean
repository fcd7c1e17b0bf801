import KiNBOL.Loader.ElfBytes

namespace KiNBOL

/-! The image of a file by its program headers: which byte of the file belongs where. -/

/-- The bytes of a file; `vfs_node_t` keeps their number in 32 bits. -/
abbrev FileBytes := {l : List (BitVec 8) // l.length < 2^32}

def FileBytes.node (f : FileBytes) : VfsNode := VfsNode.ofBytes f.val

/-- Page `n` of a segment. -/
def segmentPage (f : FileBytes) (ph : Elf64Phdr) (bias : BitVec 64) (n : Nat) : LoadedPage where
  va := segmentStart ph bias+BitVec.ofNat 64 (4096*n)
  flags := ph.flags
  byte := fun o =>
    let i := 4096*n+o-(segmentOff ph bias).toNat
    if o < 4096 ∧ (segmentOff ph bias).toNat ≤ 4096*n+o ∧ i < ph.filesz.toNat then
      f.val.getD ((ph.offset.toNat+i)%2^32) 0#8
    else 0#8

def segmentFill (f : FileBytes) (ph : Elf64Phdr) (bias : BitVec 64) : List LoadedPage :=
  if ph.type = 1 ∧ ph.memsz ≠ 0#64 then
    (List.range (segmentPages ph bias)).map (segmentPage f ph bias)
  else []

/-- The pages that the program headers ask for, in their order. -/
def filePages (f : FileBytes) (phdrs : List Elf64Phdr) (bias : BitVec 64) : List LoadedPage :=
  phdrs.flatMap (fun ph => segmentFill f ph bias)

variable {f : FileBytes} {ph : Elf64Phdr} {phdrs : List Elf64Phdr} {bias : BitVec 64} {n k : Nat}

/-- Bytes of the file used up by the first `k` pages of a segment. -/
def consumed (ph : Elf64Phdr) (bias : BitVec 64) (k : Nat) : Nat :=
  if k = 0 then 0 else min ph.filesz.toNat (4096*k-(segmentOff ph bias).toNat)

theorem segmentOff_lt (ph : Elf64Phdr) (bias : BitVec 64) : (segmentOff ph bias).toNat < 4096 := by
  have hmask := toNat_pageMask (bias+ph.vaddr)
  have hle : segmentStart ph bias ≤ bias+ph.vaddr := by
    rw [BitVec.le_def,segmentStart,hmask]
    omega
  rw [segmentOff,BitVec.toNat_sub_of_le hle,segmentStart,hmask]
  omega

theorem segmentPages_le (ph : Elf64Phdr) (bias : BitVec 64) : 4096*segmentPages ph bias ≤ 2^64 := by
  unfold segmentPages
  dsimp only
  split
  · next hlt =>
    have h := (((bias+ph.vaddr+ph.memsz+4096#64-1#64) &&& pageMask)-segmentStart ph bias).isLt
    omega
  · omega

theorem pageRead_getD {off count : BitVec 64} {j : Nat}
    (hfull : (pageRead f.node off count).length = count.toNat) (hj : j < count.toNat) :
    (pageRead f.node off count).getD j 0#8 = f.val.getD ((off.toNat+j)%2^32) 0#8 := by
  have hpos : 0#64 < count := by
    rw [BitVec.lt_def]
    exact lt_of_le_of_lt (Nat.zero_le j) hj
  have hread : pageRead f.node off count = (f.val.drop (off.toNat%2^32)).take count.toNat :=
    if_pos hpos
  rw [hread,List.length_take,List.length_drop] at hfull
  have hlen := f.property
  have hmod : (off.toNat+j)%2^32 = off.toNat%2^32+j := by omega
  rw [hread,hmod,List.getD_eq_getElem?_getD,List.getElem?_take_of_lt hj,List.getElem?_drop,
    List.getD_eq_getElem?_getD]

/-- `file_left` once `k` pages are filled. -/
theorem toNat_left (ph : Elf64Phdr) (bias : BitVec 64) (k : Nat) :
    (ph.filesz-BitVec.ofNat 64 (consumed ph bias k)).toNat =
      ph.filesz.toNat-consumed ph bias k := by
  have hsize := ph.filesz.isLt
  have hle : consumed ph bias k ≤ ph.filesz.toNat := by
    unfold consumed
    split <;> omega
  have hval : (BitVec.ofNat 64 (consumed ph bias k)).toNat = consumed ph bias k := by
    rw [BitVec.toNat_ofNat]
    omega
  rw [BitVec.toNat_sub_of_le (by rw [BitVec.le_def,hval]; exact hle),hval]

theorem copyStart_page (hk : 4096*k < 2^64) :
    (copyStart (segmentStart ph bias) (segmentOff ph bias)
      (segmentStart ph bias+BitVec.ofNat 64 (4096*k))).toNat =
      if k = 0 then (segmentOff ph bias).toNat else 0 := by
  unfold copyStart
  by_cases h0 : k = 0
  · subst h0
    rw [if_pos (BitVec.add_zero _),if_pos rfl]
  · have hne : segmentStart ph bias+BitVec.ofNat 64 (4096*k) ≠ segmentStart ph bias := by
      intro he
      have hn := congrArg BitVec.toNat he
      have hlt := (segmentStart ph bias).isLt
      rw [BitVec.toNat_add,BitVec.toNat_ofNat,Nat.mod_eq_of_lt hk] at hn
      omega
    rw [if_neg hne,if_neg h0]
    rfl

theorem toNat_toCopy {left start : BitVec 64} (hs : start.toNat < 4096) :
    (toCopy left start).toNat = min left.toNat (4096-start.toNat) := by
  have hsub : (4096#64-start).toNat = 4096-start.toNat := by
    have h4096 : (4096#64).toNat = 4096 := rfl
    rw [BitVec.toNat_sub_of_le (by rw [BitVec.le_def,h4096]; omega),h4096]
  unfold toCopy
  split
  · next h =>
    rw [BitVec.lt_def,hsub] at h
    omega
  · next h =>
    rw [BitVec.lt_def,hsub] at h
    rw [hsub]
    omega

/-- One page of the loop against the headers. -/
theorem page_filled {start count : BitVec 64} (hstart : start.toNat =
      if k = 0 then (segmentOff ph bias).toNat else 0)
    (hcount : count.toNat = min (ph.filesz.toNat-consumed ph bias k) (4096-start.toNat))
    (hfull : (pageRead f.node (ph.offset+BitVec.ofNat 64 (consumed ph bias k)) count).length =
      count.toNat) (o : Nat) :
    filled start.toNat (pageRead f.node (ph.offset+BitVec.ofNat 64 (consumed ph bias k)) count) o =
      (segmentPage f ph bias k).byte o := by
  have hoff := segmentOff_lt ph bias
  have hsize := ph.filesz.isLt
  have hin : (start.toNat ≤ o ∧ o < start.toNat+count.toNat) ↔
      (o < 4096 ∧ (segmentOff ph bias).toNat ≤ 4096*k+o ∧
        4096*k+o-(segmentOff ph bias).toNat < ph.filesz.toNat) := by
    rw [hcount,hstart]
    unfold consumed
    split <;> omega
  unfold filled segmentPage
  dsimp only
  rw [hfull]
  by_cases h : start.toNat ≤ o ∧ o < start.toNat+count.toNat
  · rw [if_pos h,if_pos (hin.mp h),pageRead_getD hfull (by omega)]
    have hi : consumed ph bias k+(o-start.toNat) = 4096*k+o-(segmentOff ph bias).toNat := by
      have h' := hin.mp h
      rw [hcount] at h
      rw [hstart] at h ⊢
      unfold consumed at h ⊢
      split <;> split at h <;> omega
    rw [← hi,BitVec.toNat_add,BitVec.toNat_ofNat]
    congr 1
    omega
  · rw [if_neg h,if_neg (fun hh => h (hin.mpr hh))]

/-- The page loop fills the pages as the headers say, when all reads deliver. -/
theorem pagesData_eq (hk : 4096*(k+n) ≤ 2^64)
    (hplan : (planPages f.node (segmentStart ph bias) (segmentOff ph bias) n
      (segmentStart ph bias+BitVec.ofNat 64 (4096*k))
      (ph.offset+BitVec.ofNat 64 (consumed ph bias k))
      (ph.filesz-BitVec.ofNat 64 (consumed ph bias k))).2 = true) :
    pagesData f.node ph.flags (segmentStart ph bias) (segmentOff ph bias) n
      (segmentStart ph bias+BitVec.ofNat 64 (4096*k))
      (ph.offset+BitVec.ofNat 64 (consumed ph bias k))
      (ph.filesz-BitVec.ofNat 64 (consumed ph bias k)) =
      (List.range' k n).map (segmentPage f ph bias) := by
  induction n generalizing k with
  | zero => rfl
  | succ n ih =>
    have hoff := segmentOff_lt ph bias
    have hstart := @copyStart_page ph bias k (by omega)
    rw [pagesData,List.range'_succ,List.map_cons]
    rw [planPages] at hplan
    dsimp only at hplan ⊢
    generalize hst : copyStart (segmentStart ph bias) (segmentOff ph bias)
      (segmentStart ph bias+BitVec.ofNat 64 (4096*k)) = start at hplan hstart ⊢
    have hcount := @toNat_toCopy (ph.filesz-BitVec.ofNat 64 (consumed ph bias k)) start
      (by rw [hstart]; split <;> omega)
    rw [toNat_left] at hcount
    generalize toCopy (ph.filesz-BitVec.ofNat 64 (consumed ph bias k)) start = count
      at hplan hcount ⊢
    split at hplan
    · simp at hplan
    · next hread =>
      have hfull := not_not.mp hread
      have hnext : consumed ph bias k+count.toNat = consumed ph bias (k+1) := by
        rw [hcount,hstart]
        unfold consumed
        rw [if_neg (Nat.succ_ne_zero k)]
        split <;> omega
      have hva : segmentStart ph bias+BitVec.ofNat 64 (4096*k)+4096#64 =
          segmentStart ph bias+BitVec.ofNat 64 (4096*(k+1)) := by
        rw [BitVec.add_assoc,← BitVec.ofNat_add]
        rfl
      have hused : BitVec.ofNat 64 (consumed ph bias k)+count =
          BitVec.ofNat 64 (consumed ph bias (k+1)) := by
        rw [← hnext,BitVec.ofNat_add,BitVec.ofNat_toNat,BitVec.setWidth_eq]
      have hfo : ph.offset+BitVec.ofNat 64 (consumed ph bias k)+count =
          ph.offset+BitVec.ofNat 64 (consumed ph bias (k+1)) := by
        rw [BitVec.add_assoc,hused]
      have hleft : ph.filesz-BitVec.ofNat 64 (consumed ph bias k)-count =
          ph.filesz-BitVec.ofNat 64 (consumed ph bias (k+1)) := by
        rw [BitVec.sub_sub,hused]
      dsimp only at hplan
      rw [hva,hfo,hleft] at hplan ⊢
      congr 1
      · unfold segmentPage
        congr 1
        funext o
        exact page_filled hstart hcount hfull o
      · exact ih (by omega) hplan

theorem segmentData_eq (hload : ph.type = 1) (hplan : (planSegment f.node ph bias).2 = true) :
    segmentData f.node ph bias = segmentFill f ph bias := by
  unfold segmentData segmentFill
  unfold planSegment at hplan
  by_cases hz : ph.memsz = 0#64
  · rw [if_neg (fun hh => hh.2 hz),if_neg (fun hh => hh.2 hz)]
  · rw [if_neg hz] at hplan
    rw [if_pos ⟨hload,hz⟩,if_pos ⟨hload,hz⟩]
    split at hplan
    · simp at hplan
    · have h := @pagesData_eq f ph bias (segmentPages ph bias) 0
        (by rw [Nat.zero_add]; exact segmentPages_le ph bias)
      have hc : consumed ph bias 0 = 0 := rfl
      rw [hc,Nat.mul_zero,BitVec.add_zero,BitVec.add_zero,BitVec.sub_zero] at h
      rw [h hplan,List.range_eq_range']

theorem segmentsData_eq (hplan : (planSegments f.node bias phdrs).2 = true) :
    phdrs.flatMap (fun ph => segmentData f.node ph bias) = filePages f phdrs bias := by
  induction phdrs with
  | nil => rfl
  | cons ph rest ih =>
    rw [planSegments] at hplan
    rw [filePages,List.flatMap_cons,List.flatMap_cons]
    by_cases hload : ph.type = 1
    · rw [if_pos hload] at hplan
      by_cases hseg : (planSegment f.node ph bias).2 = true
      · dsimp only at hplan
        rw [if_pos hseg] at hplan
        rw [segmentData_eq hload hseg,ih hplan]
        rfl
      · dsimp only at hplan
        rw [if_neg hseg] at hplan
        simp at hplan
    · rw [if_neg hload] at hplan
      have hdata : segmentData f.node ph bias = [] := if_neg (fun hh => hload hh.1)
      have hfill : segmentFill f ph bias = [] := if_neg (fun hh => hload hh.1)
      rw [hdata,hfill,List.nil_append,List.nil_append]
      split at hplan
      · simp at hplan
      · exact ih hplan

/-- What a load that succeeds puts into memory, by the program headers. -/
theorem imageData_eq {rand : BitVec 64} {eh : Elf64Ehdr} (hh : elfHeaders f.node = .ok (eh,phdrs))
    (hplan : (elfPlan (some f.node) rand).2 = true) :
    imageData (some f.node) rand = filePages f phdrs (loadBias eh rand) := by
  simp only [elfPlan,hh] at hplan
  simp only [imageData,hh]
  exact segmentsData_eq hplan

end KiNBOL
