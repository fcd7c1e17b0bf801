import KiNBOL.Mm.DirectMapSound

namespace KiNBOL

variable {hhdm va : BitVec 64} {N p pm i : Nat} {m m₁ m' : Machine}

/-- An address of the direct map, its region and its place there. -/
theorem direct_va (hh : KernelHalf hhdm) (ha : hhdm.toNat%2^21 = 0)
    (hfit : hhdm.toNat+N*2^21 ≤ 2^64+2^47) (hp : p < N*2^21) :
    (LowerHalf (hhdm+BitVec.ofNat 64 p) ∨ KernelHalf (hhdm+BitVec.ofNat 64 p)) ∧
    tablePath (hhdm+BitVec.ofNat 64 p) = tablePath (hhdmVirt hhdm (p/2^21)) ∧
    p/2^21*512+pageOf (hhdm+BitVec.ofNat 64 p)%2^9 = p/4096 := by
  have hval : (hhdm+BitVec.ofNat 64 p).toNat = (hhdm.toNat+p)%2^64 := by
    rw [BitVec.toNat_add,BitVec.toNat_ofNat]
    omega
  rw [LowerHalf,KernelHalf,tablePath_eq_iff,pageOf,hval,hhdmVirt_toNat]
  rw [KernelHalf] at hh
  omega

/-- The addresses of a region belong to the direct map. -/
theorem va_direct (hh : KernelHalf hhdm) (ha : hhdm.toNat%2^21 = 0)
    (hfit : hhdm.toNat+N*2^21 ≤ 2^64+2^47) (hi : i < N) (hva : KernelHalf va)
    (hpath : tablePath (hhdmVirt hhdm i) = tablePath va) :
    ∃ p, p < N*2^21 ∧ va = hhdm+BitVec.ofNat 64 p := by
  refine ⟨i*2^21+va.toNat%2^21,by omega,?_⟩
  apply BitVec.eq_of_toNat_eq
  rw [BitVec.toNat_add,BitVec.toNat_ofNat]
  rw [tablePath_eq_iff,hhdmVirt_toNat] at hpath
  rw [KernelHalf] at hh hva
  have := va.isLt
  omega

theorem treeWalk_congr {e e' : List (Fin 512) → Fin 512 → BitVec 64}
    (h1 : e [] (pml4Idx va) = e' [] (pml4Idx va))
    (h2 : e [pml4Idx va] (pdptIdx va) = e' [pml4Idx va] (pdptIdx va))
    (h3 : e [pml4Idx va,pdptIdx va] (pdIdx va) = e' [pml4Idx va,pdptIdx va] (pdIdx va))
    (h4 : e (tablePath va) (ptIdx va) = e' (tablePath va) (ptIdx va)) :
    treeWalk e va = treeWalk e' va := by
  unfold treeWalk
  rw [h1,h2,h3,h4]

/-- The old translation, read from the copy of the root. -/
theorem Copied.translate (hc : Copied m pm m₁) (hb : BootTables m) (hva : KernelHalf va) :
    KiNBOL.translate m.mem m.cr3 va = treeWalk (tblAt m₁.mem pm) va := by
  have hup : UpperPath [pml4Idx va] := by
    refine ⟨by simp,fun j hj => ?_⟩
    rw [List.head?_cons,Option.mem_some_iff] at hj
    exact hj ▸ pml4Idx_kernel hva
  have hidx := pml4Idx_kernel hva
  rw [KiNBOL.translate,if_pos (Or.inr hva),hwWalk_tree (hb.top _ hidx)]
  apply treeWalk_congr
  · rw [hc.tblAt_root,if_pos hidx]
  · exact (hc.tblAt_upper hb hup _).symm
  · exact (hc.tblAt_upper hb (q := [pdptIdx va]) ⟨by simp,hup.2⟩ _).symm
  · exact (hc.tblAt_upper hb (q := [pdptIdx va,pdIdx va]) ⟨by simp,hup.2⟩ _).symm

/-- The entries above a direct-mapped address let it be written when the boot loader's do. -/
theorem Laid.write_iff {done : Nat → Prop} (hl : Laid hhdm N pm m₁ done m')
    (hp1 : present (tblAt m'.mem pm [] (pml4Idx va)) = true)
    (hp2 : present (pdptEntry m'.mem pm va) = true) :
    (has (tblAt m'.mem pm [] (pml4Idx va)) vmmWrite = true ∧
      has (pdptEntry m'.mem pm va) vmmWrite = true) ↔
    (present (tblAt m₁.mem pm [] (pml4Idx va)) = true →
      has (tblAt m₁.mem pm [] (pml4Idx va)) vmmWrite = true) ∧
    (present (pdptEntry m₁.mem pm va) = true → has (pdptEntry m₁.mem pm va) vmmWrite = true) := by
  have hone : ∀ q j, q.length ≤ 1 → present (tblAt m'.mem pm q j) = true →
      (has (tblAt m'.mem pm q j) vmmWrite = true ↔
        (present (tblAt m₁.mem pm q j) = true → has (tblAt m₁.mem pm q j) vmmWrite = true)) := by
    intro q j hq hp
    cases hl.upper q j hq with
    | inl hold =>
      rw [hold] at hp ⊢
      exact ⟨fun h _ => h,fun h => h hp⟩
    | inr hnew =>
      obtain ⟨habs,f,-,he⟩ := hnew
      rw [he,habs]
      exact ⟨fun _ h => Bool.noConfusion h,fun _ => (kernelEntry_flags f).2.1⟩
  rw [hone [] _ (by simp) hp1]
  unfold pdptEntry at hp2 ⊢
  rw [hone [pml4Idx va] _ (by simp) hp2]

/-- The copied entries over a region grant writing when the boot loader's do. -/
theorem Copied.write_iff (hc : Copied m pm m₁) (hb : BootTables m)
    (hva : LowerHalf va ∨ KernelHalf va) :
    ((present (tblAt m₁.mem pm [] (pml4Idx va)) = true →
        has (tblAt m₁.mem pm [] (pml4Idx va)) vmmWrite = true) ∧
      (present (pdptEntry m₁.mem pm va) = true → has (pdptEntry m₁.mem pm va) vmmWrite = true)) ↔
    (KernelHalf va → (present (m.mem m.cr3 (pml4Idx va)) = true →
        has (m.mem m.cr3 (pml4Idx va)) vmmWrite = true) ∧
      (present (pdptEntry m.mem m.cr3 va) = true → has (pdptEntry m.mem m.cr3 va) vmmWrite = true)) := by
  rw [hc.pdptEntry_eq hb hva,hc.tblAt_root]
  by_cases hk : KernelHalf va
  · rw [if_pos hk,if_pos (pml4Idx_kernel hk)]
    exact ⟨fun h _ => h,fun h => h hk⟩
  · have hlow := pml4Idx_lower (hva.resolve_right hk)
    rw [if_neg hk,if_neg (show ¬256 ≤ (pml4Idx va).val by omega),present_zero]
    exact iff_of_true ⟨fun h => Bool.noConfusion h,fun h => Bool.noConfusion h⟩ (fun h => absurd h hk)

theorem tablePath_entries {w : BitVec 64} (h : tablePath va = tablePath w) (mem : PhysMem) (r : Nat) :
    tblAt mem r [] (pml4Idx va) = tblAt mem r [] (pml4Idx w) ∧
    pdptEntry mem r va = pdptEntry mem r w := by
  simp only [tablePath,List.cons.injEq] at h
  rw [pdptEntry,pdptEntry,h.1,h.2.1]
  exact ⟨rfl,rfl⟩

/-- What the processor finds at a direct-mapped address. -/
theorem Laid.direct (hl : Laid hhdm N pm m₁ (· < N) m') (hs : DirectStart hhdm N pm m₁)
    (hc : Copied m pm m₁) (hb : BootTables m) (hh : KernelHalf hhdm) (ha : hhdm.toNat%2^21 = 0)
    (hfit : hhdm.toNat+N*2^21 ≤ 2^64+2^47) (hp : p < N*2^21)
    (hnot : ¬BootLarge m hhdm (p/2^21)) :
    ∃ x, translate m'.mem pm (hhdm+BitVec.ofNat 64 p) = some x ∧ x.page = p/4096 ∧
      (x.write = true ↔ (KernelHalf (hhdmVirt hhdm (p/2^21)) →
        (present (m.mem m.cr3 (pml4Idx (hhdmVirt hhdm (p/2^21)))) = true →
          has (m.mem m.cr3 (pml4Idx (hhdmVirt hhdm (p/2^21)))) vmmWrite = true) ∧
        (present (bootEntry m hhdm (p/2^21)) = true →
          has (bootEntry m hhdm (p/2^21)) vmmWrite = true))) := by
  have hi : p/2^21 < N := by omega
  have hN : N ≤ 2^27 := by
    rw [KernelHalf] at hh
    omega
  obtain ⟨hcan,hpath,hplace⟩ := direct_va hh ha hfit hp
  have hvirt := hhdmVirt_canonical hh hfit hi
  have hsmall : ¬InLarge m₁.mem pm (hhdmVirt hhdm (p/2^21)) :=
    fun hlarge => hnot ((hc.inLarge_iff hb hvirt).mp hlarge)
  obtain ⟨hwalk,hp1,hp2⟩ := hl.walk_direct hs hi hN hsmall hpath
  have hwrite := hl.write_iff hp1 hp2
  obtain ⟨he1,he2⟩ := tablePath_entries hpath m₁.mem pm
  rw [he1,he2,hc.write_iff hb hvirt] at hwrite
  refine ⟨_,by rw [translate,if_pos hcan,hwalk],hplace,?_⟩
  have hlarge : has (largeEntry (hhdmPhys (p/2^21))) vmmWrite = true := by
    rw [hhdmPhys_addr]
    exact (largeEntry_flags _).2.1
  simp only [xlat,List.all_cons,List.all_nil,Bool.and_true,Bool.and_eq_true,hlarge]
  exact hwrite

/-- The direct map comes about when there is room for it. -/
theorem direct_of_room (hb : BootTables m) (hh : KernelHalf hhdm) (ha : hhdm.toNat%2^21 = 0)
    (hroom : DirectRoom m hhdm) (h : vmmInit m hhdm = (some pm,m')) : DirectMapped m hhdm pm m' := by
  obtain ⟨m₁,hc,hs,hl⟩ := vmmInit_laid hb hh ha hroom.fits
    (fun i hi hlarge => absurd hlarge (hroom.small i hi)) h
  have hle : directBytes m.pmm.highestPhys ≤ 2^48 := by
    have := hroom.fits
    rw [KernelHalf] at hh
    omega
  obtain ⟨hbytes,-⟩ := hhdmPages_bytes hle
  have hfit := hroom.fits
  have hsmall := hroom.small
  have hwrite := hroom.write
  rw [← hbytes] at hfit
  refine ⟨fun p hp => ?_,fun va hva hout => ?_,fun n i hne => ?_⟩
  · rw [← hbytes] at hp
    generalize hhdmPages m.pmm.highestPhys = N at hfit hsmall hwrite hs hl hp
    have hi : p/2^21 < N := by omega
    obtain ⟨x,hx,hpage,hw⟩ := hl.direct hs hc hb hh ha hfit hp (hsmall _ hi)
    exact ⟨x,hx,hpage,hw.mpr (hwrite _ hi)⟩
  · rw [← hbytes] at hout
    generalize hhdmPages m.pmm.highestPhys = N at hfit hs hl hout
    rw [hc.translate hb hva,translate,if_pos (Or.inr hva),hl.walk hs]
    apply hl.walk_other
    intro i hi hpath
    obtain ⟨p,hp,he⟩ := va_direct hh ha hfit hi hva hpath
    exact hout p hp he
  · by_cases hsame : m'.mem n i = m₁.mem n i
    · rw [hsame] at hne
      by_cases hn : n = pm
      · subst hn
        refine Or.inr ⟨hc.free,fun hfree => ?_⟩
        exact (takes_one hc.takes).2.1.not_free (hl.free n hfree)
      · rw [hc.other n hn] at hne
        exact absurd rfl hne
    · have hmono : ∀ x, m₁.pmm.Free x → m.pmm.Free x := fun x hx => ((hc.takes.free_iff x).mp hx).1
      rcases hl.wrote n i hsame with htab | hnew | hdata
      · obtain ⟨q,hq,hn⟩ := htab
        cases hc.page_table hb hq hn with
        | inl hn =>
          subst hn
          refine Or.inr ⟨hc.free,fun hfree => ?_⟩
          exact (takes_one hc.takes).2.1.not_free (hl.free n hfree)
        | inr htab => exact Or.inl htab
      · exact Or.inr ⟨hmono n hnew.1,hnew.2⟩
      · obtain ⟨k,hk,hlarge,-⟩ := hdata
        have hvirt := hhdmVirt_canonical hh hfit hk
        exact absurd ((hc.inLarge_iff hb hvirt).mp hlarge) (hsmall k hk)

/-- Without room there is no direct map: an address of it is not canonical, data below a 1 GiB page
are overwritten, or a page cannot be written. -/
theorem room_of_direct (hb : BootTables m) (hh : KernelHalf hhdm) (ha : hhdm.toNat%2^21 = 0)
    (hdata : LargeData m hhdm) (h : vmmInit m hhdm = (some pm,m')) (hd : DirectMapped m hhdm pm m') :
    DirectRoom m hhdm := by
  have hfits : hhdm.toNat+directBytes m.pmm.highestPhys ≤ 2^64+2^47 := by
    by_contra hno
    have hlt := hhdm.isLt
    obtain ⟨x,hx,-⟩ := hd.direct (2^64+2^47-hhdm.toNat) (by omega)
    have hval : (hhdm+BitVec.ofNat 64 (2^64+2^47-hhdm.toNat)).toNat = 2^47 := by
      rw [BitVec.toNat_add,BitVec.toNat_ofNat]
      rw [KernelHalf] at hh
      omega
    rw [translate,if_neg] at hx
    · simp at hx
    · rw [LowerHalf,KernelHalf,hval]
      omega
  obtain ⟨m₁,hc,hs,hl⟩ := vmmInit_laid hb hh ha hfits
    (fun i hi hlarge => ⟨(hdata i hi hlarge).1,(hdata i hi hlarge).2.1⟩) h
  have hle : directBytes m.pmm.highestPhys ≤ 2^48 := by
    rw [KernelHalf] at hh
    omega
  obtain ⟨hbytes,-⟩ := hhdmPages_bytes hle
  have hfit := hfits
  rw [← hbytes] at hfit
  have hsmall : ∀ i, i < hhdmPages m.pmm.highestPhys → ¬BootLarge m hhdm i := by
    intro i hi hlarge
    have hvirt := hhdmVirt_canonical hh hfit hi
    obtain ⟨hno,hheld,hword⟩ := hdata i hi hlarge
    obtain ⟨k,hk⟩ := hl.spilled i hi ((hc.inLarge_iff hb hvirt).mpr hlarge)
    rw [hc.pdptEntry_eq hb hvirt,if_pos hlarge.1] at hk
    have hne : m'.mem (pageOf (bootEntry m hhdm i)) (pdIdx (hhdmVirt hhdm i)) ≠
        m.mem (pageOf (bootEntry m hhdm i)) (pdIdx (hhdmVirt hhdm i)) :=
      fun he => hword k (he.symm.trans hk)
    cases hd.writes _ _ hne with
    | inl htab => exact hno htab
    | inr hfree => exact hheld hfree.1
  refine ⟨hfits,hsmall,fun i hi hk => ?_⟩
  have hp : i*2^21 < hhdmPages m.pmm.highestPhys*2^21 := by omega
  have hdirect := hd.direct (i*2^21)
  rw [← hbytes] at hdirect
  generalize hhdmPages m.pmm.highestPhys = N at hfit hsmall hs hl hp hdirect hi
  have hdiv : i*2^21/2^21 = i := by omega
  obtain ⟨x,hx,-,hw⟩ := hl.direct hs hc hb hh ha hfit hp (by rw [hdiv]; exact hsmall i hi)
  obtain ⟨y,hy,-,hyw⟩ := hdirect hp
  rw [hx,Option.some.injEq] at hy
  rw [hy,hdiv] at hw
  exact hw.mp hyw hk

theorem kernelTable_room (tbl : Nat) (i : Fin 512) (h : 1 ≤ m.pmm.room) :
    ∃ t m', kernelTable m tbl i = (some t,m') ∧ m.pmm.room ≤ m'.pmm.room+1 := by
  unfold kernelTable
  by_cases hp : has (m.mem tbl i) vmmPresent = true
  · rw [if_pos hp]
    exact ⟨_,m,rfl,by omega⟩
  · rw [if_neg hp]
    unfold allocTable
    cases pmmAllocPage_room m.pmm with
    | inl hnone => omega
    | inr hsome =>
      obtain ⟨f,pmm,halloc,-,hroom⟩ := hsome
      rw [halloc]
      exact ⟨_,_,rfl,hroom.ge⟩

theorem mapLarge_room (pml4 : Nat) (virt phys : BitVec 64) (h : 2 ≤ m.pmm.room) :
    ∃ m', mapLarge m pml4 virt phys = (true,m') ∧ m.pmm.room ≤ m'.pmm.room+2 := by
  obtain ⟨t1,m1,h1,r1⟩ := kernelTable_room (m := m) pml4 (pml4Idx virt) (by omega)
  obtain ⟨t2,m2,h2,r2⟩ := kernelTable_room (m := m1) t1 (pdptIdx virt) (by omega)
  refine ⟨{ m2 with mem := setSlot m2.mem t2 (pdIdx virt) (largeEntry phys) },?_,?_⟩
  · simp only [mapLarge,h1,h2]
  · show _ ≤ m2.pmm.room+2
    omega

theorem hhdmLoop_room (pml4 : Nat) (hhdm : BitVec 64) (is : List Nat) (m : Machine)
    (h : 2*is.length ≤ m.pmm.room) :
    ∃ m', hhdmLoop pml4 hhdm is m = (true,m') ∧ m.pmm.room ≤ m'.pmm.room+2*is.length := by
  induction is generalizing m with
  | nil => exact ⟨m,rfl,by simp⟩
  | cons i rest ih =>
    rw [List.length_cons] at h ⊢
    obtain ⟨m1,h1,r1⟩ := mapLarge_room (m := m) pml4 (hhdmVirt hhdm i) (hhdmPhys i) (by omega)
    obtain ⟨m2,h2,r2⟩ := ih m1 (by omega)
    refine ⟨m2,?_,by omega⟩
    rw [hhdmLoop,h1]
    exact h2

/-- `vmm_init` reaches `vmm_switch` when there are pages enough. -/
theorem vmmInit_room (hhdm : BitVec 64) (h : 2*hhdmPages m.pmm.highestPhys+3 ≤ m.pmm.room) :
    ∃ pm m', vmmInit m hhdm = (some pm,m') := by
  have hhigh := vmmCreatePagemap_highest m
  generalize hN : hhdmPages m.pmm.highestPhys = N at h
  have hnew : ∃ f m₁, vmmCreatePagemap m = (some f,m₁) ∧ m₁.pmm.room+1 = m.pmm.room := by
    unfold vmmCreatePagemap allocTable
    cases pmmAllocPage_room m.pmm with
    | inl hnone => omega
    | inr hsome =>
      obtain ⟨f,pmm,halloc,-,hroom⟩ := hsome
      rw [halloc]
      exact ⟨_,_,rfl,hroom⟩
  obtain ⟨f,m₁,hcreate,hroom⟩ := hnew
  rw [hcreate] at hhigh
  obtain ⟨m₂,h2,r2⟩ := hhdmLoop_room f hhdm (List.range (hhdmPages m₁.pmm.highestPhys)) m₁ (by
    rw [List.length_range,hhigh,hN]
    omega)
  rw [List.length_range,hhigh,hN] at r2
  obtain ⟨m₃,h3,-⟩ := mapLarge_room (m := m₂) f (apicPhys+hhdm) apicPhys (by omega)
  have hapic : vmmInitApic m₂ f hhdm = (some f,{ m₃ with cr3 := f }) := by
    unfold vmmInitApic
    rw [h3,if_pos rfl]
  have hmap : vmmInitMap m₁ f hhdm = vmmInitApic m₂ f hhdm := by
    unfold vmmInitMap
    rw [h2,if_pos rfl]
  have hinit : vmmInit m hhdm = vmmInitMap m₁ f hhdm := by
    unfold vmmInit
    rw [hcreate]
  exact ⟨f,{ m₃ with cr3 := f },(hinit.trans hmap).trans hapic⟩
/-- `vmm_init` makes the direct map just when there is room for it. -/
theorem vmmInit_direct_iff (hb : BootTables m) (hh : KernelHalf hhdm) (ha : hhdm.toNat%2^21 = 0)
    (hdata : LargeData m hhdm) (h : vmmInit m hhdm = (some pm,m')) :
    DirectMapped m hhdm pm m' ↔ DirectRoom m hhdm :=
  ⟨room_of_direct hb hh ha hdata h,fun hroom => direct_of_room hb hh ha hroom h⟩

/-- A machine at boot with 32 MiB: the boot loader's tables lie below the pages of the allocator. -/
def bootMachine (mem : PhysMem) : Machine :=
  ⟨mem,⟨fun i => if i < 32 then 0xFF#8 else 0#8,8192,7936#64,0x2000000#64⟩,1⟩

theorem bootMachine_free (mem : PhysMem) (n : Nat) :
    (bootMachine mem).pmm.Free n ↔ 256 ≤ n ∧ n < 8192 := by
  have hbit : (bootMachine mem).pmm.bmGet n = decide (n < 256) := by
    rw [Pmm.bmGet_eq]
    show (if n/8 < 32 then 0xFF#8 else 0#8).getLsbD (n%8) = _
    have hones : ∀ k, k < 8 → (0xFF#8).getLsbD k = true := by decide
    split
    · rw [hones _ (Nat.mod_lt n (by omega)),eq_comm,decide_eq_true_eq]
      omega
    · rw [BitVec.getLsbD_zero,eq_comm,decide_eq_false_iff_not]
      omega
  rw [Pmm.Free,hbit,decide_eq_false_iff_not]
  show n < 8192 ∧ _ ↔ _
  omega

theorem bootMachine_bytes (mem : PhysMem) :
    directBytes (bootMachine mem).pmm.highestPhys = 2^32 ∧
    hhdmPages (bootMachine mem).pmm.highestPhys = 2048 := by
  have hbytes : directBytes (bootMachine mem).pmm.highestPhys = 2^32 := by
    show directBytes 0x2000000#64 = 2^32
    rw [directBytes]
    decide
  have hle : directBytes (bootMachine mem).pmm.highestPhys ≤ 2^48 := by
    rw [hbytes]
    omega
  obtain ⟨hpages,-⟩ := hhdmPages_bytes hle
  rw [hbytes] at hpages
  generalize hhdmPages (bootMachine mem).pmm.highestPhys = N at hpages
  exact ⟨hbytes,by omega⟩

theorem bootMachine_reaches (mem : PhysMem) (hhdm : BitVec 64) :
    ∃ pm m', vmmInit (bootMachine mem) hhdm = (some pm,m') := by
  apply vmmInit_room
  rw [(bootMachine_bytes mem).2]
  have hroom : (bootMachine mem).pmm.room = 7936 := by
    have hall : ∀ i ∈ Finset.Ico firstPage 8192, (bootMachine mem).pmm.bmGet i = false := by
      intro i hi
      rw [Finset.mem_Ico] at hi
      exact ((bootMachine_free mem i).mpr hi).2
    show ((Finset.Ico firstPage 8192).filter _).card = 7936
    rw [Finset.filter_true_of_mem hall,Nat.card_Ico]
    rfl
  rw [hroom]
  omega

theorem upperPath_closed (q t : List (Fin 512)) (h : UpperPath (q++t)) : UpperPath q := by
  refine ⟨?_,fun i hi => h.2 i ?_⟩
  · have hlen := h.1
    rw [List.length_append] at hlen
    omega
  · cases q with
    | nil => simp at hi
    | cons k q => simpa using hi

/-- A table with one entry that leads on. -/
theorem follow_only {mem : PhysMem} {p c n : Nat} {j k : Fin 512} {q : List (Fin 512)}
    (hp : ∀ j, tblNode (mem p j) = if j = k then some c else none)
    (h : follow tblNode mem p (j::q) = some n) : j = k ∧ follow tblNode mem c q = some n := by
  rw [follow_cons,hp] at h
  by_cases hj : j = k
  · rw [if_pos hj,Option.bind_some] at h
    exact ⟨hj,h⟩
  · rw [if_neg hj] at h
    simp at h

/-- The boot loader's tables, given by a list of their paths and pages. -/
theorem bootMachine_tables {mem : PhysMem} (T : List (List (Fin 512) × Nat))
    (hT : ∀ q n, q.length ≤ 3 → follow tblNode mem 1 q = some n → (q,n) ∈ T)
    (hone : ∀ x ∈ T, ∀ y ∈ T, x.2 = y.2 → x.1 = y.1) (hlow : ∀ x ∈ T, x.2 < 256)
    (hplain : ∀ x ∈ T, ∀ hx : x.1 ≠ [], tblAt mem 1 x.1.dropLast (x.1.getLast hx) >>> 52 = 0#64)
    (htop : ∀ j, has (mem 1 j) vmmHuge = false) : BootTables (bootMachine mem) := by
  refine ⟨⟨⟨upperPath_closed,fun r r' q q' n hr hr' hq hq' h1 h2 => ?_⟩,fun q n hq hn hf => ?_,?_⟩,
    fun q j n hq hn => ?_,fun j _ _ => htop j⟩
  · subst hr hr'
    exact ⟨rfl,hone _ (hT q n hq.1 h1) _ (hT q' n hq'.1 h2) rfl⟩
  · have hlt : n < 256 := hlow _ (hT q n hq.1 hn)
    have := (bootMachine_free mem n).mp hf
    omega
  · show 8192 ≤ frameLimit
    decide
  · have hmem := hT (q++[j]) n hq.1 ((follow_tblAt _ _ _ _).trans hn)
    have hword := hplain _ hmem (by simp)
    simp only [List.dropLast_concat,List.getLast_append,List.getLast_singleton] at hword
    exact hword

/-- A 1 GiB page of the boot loader at 0xFFFF800040000000. -/
def largeMem : PhysMem := fun n i =>
  if n = 1 ∧ i = 256 then 0x2003#64 else if n = 2 ∧ i = 1 then 0x40000083#64 else 0#64

theorem largeMem_root (j : Fin 512) : largeMem 1 j = if j = 256 then 0x2003#64 else 0#64 := by
  simp [largeMem]

theorem largeMem_dir (j : Fin 512) : largeMem 2 j = if j = 1 then 0x40000083#64 else 0#64 := by
  simp [largeMem]

theorem largeMem_follow {q : List (Fin 512)} {n : Nat} (h : follow tblNode largeMem 1 q = some n) :
    q = [] ∧ n = 1 ∨ q = [256] ∧ n = 2 := by
  have hroot : ∀ j, tblNode (largeMem 1 j) = if j = 256 then some 2 else none := by
    intro j
    rw [largeMem_root]
    split_ifs <;> decide
  have hdir : ∀ j, tblNode (largeMem 2 j) = none := by
    intro j
    rw [largeMem_dir]
    split_ifs <;> decide
  cases q with
  | nil => exact Or.inl ⟨rfl,by simpa using h.symm⟩
  | cons j q =>
    obtain ⟨rfl,hq⟩ := follow_only hroot h
    cases q with
    | nil => exact Or.inr ⟨rfl,by simpa using hq.symm⟩
    | cons k q =>
      rw [follow_cons,hdir] at hq
      simp at hq

theorem largeMachine_boot : BootTables (bootMachine largeMem) := by
  refine bootMachine_tables [([],1),([256],2)] (fun q n _ h => ?_) (by decide) (by decide)
    (by decide) (fun j => ?_)
  · rcases largeMem_follow h with ⟨rfl,rfl⟩ | ⟨rfl,rfl⟩ <;> simp
  · rw [largeMem_root]
    split_ifs <;> decide

theorem largeMachine_entry {i : Nat} (h : BootLarge (bootMachine largeMem) 0xFFFF800000000000#64 i) :
    bootEntry (bootMachine largeMem) 0xFFFF800000000000#64 i = 0x40000083#64 := by
  obtain ⟨-,hp,-⟩ := h
  have hdir : ∀ j, present (largeMem 2 j) = true → largeMem 2 j = 0x40000083#64 := by
    intro j
    rw [largeMem_dir]
    split_ifs <;> decide
  unfold bootEntry pdptEntry at *
  generalize pml4Idx (hhdmVirt 0xFFFF800000000000#64 i) = a at *
  generalize pdptIdx (hhdmVirt 0xFFFF800000000000#64 i) = b at *
  change present (tblAt largeMem 1 [a] b) = true at hp
  show tblAt largeMem 1 [a] b = _
  cases hn : follow tblNode largeMem 1 [a] with
  | none =>
    rw [tblAt_missing hn,present_zero] at hp
    exact Bool.noConfusion hp
  | some n =>
    rw [tblAt_table hn] at hp ⊢
    rcases largeMem_follow hn with ⟨ha,-⟩ | ⟨-,rfl⟩
    · simp at ha
    · exact hdir b hp

/-- The 2 MiB entries for the second GiB are written into the frame of its 1 GiB page. -/
theorem vmmInit_large : BootTables (bootMachine largeMem) ∧
    ∃ pm m', vmmInit (bootMachine largeMem) 0xFFFF800000000000#64 = (some pm,m') ∧
      ¬DirectMapped (bootMachine largeMem) 0xFFFF800000000000#64 pm m' := by
  refine ⟨largeMachine_boot,?_⟩
  obtain ⟨pm,m',h⟩ := bootMachine_reaches largeMem 0xFFFF800000000000#64
  refine ⟨pm,m',h,fun hd => ?_⟩
  have hdata : LargeData (bootMachine largeMem) 0xFFFF800000000000#64 := by
    intro i _ hlarge
    rw [largeMachine_entry hlarge,show pageOf 0x40000083#64 = 0x40000 by decide]
    refine ⟨fun ht => ?_,fun hf => ?_,fun k => ?_⟩
    · obtain ⟨q,-,hn⟩ := ht
      rcases largeMem_follow hn with ⟨-,hn⟩ | ⟨-,hn⟩
      · omega
      · omega
    · have := (bootMachine_free largeMem _).mp hf
      omega
    · have hz : ∀ j, largeMem 0x40000 j = 0#64 := fun j => by simp [largeMem]
      intro he
      have hpres := (largeEntry_flags (k*512)).1
      rw [← hhdmPhys_addr,← he] at hpres
      rw [show (bootMachine largeMem).mem = largeMem from rfl,hz,present_zero] at hpres
      exact Bool.noConfusion hpres
  have hroom := room_of_direct largeMachine_boot (by decide) (by decide) hdata h hd
  apply hroom.small 512
  · rw [(bootMachine_bytes largeMem).2]
    omega
  · refine ⟨by decide,?_⟩
    constructor
    · decide
    · decide

/-- The first 2 MiB of the direct map in 4 KiB pages, the next in a 2 MiB page. -/
def mixedMem : PhysMem := fun n i =>
  if n = 1 ∧ i = 256 then 0x2003#64
  else if n = 2 ∧ i = 0 then 0x3003#64
  else if n = 3 ∧ i = 0 then 0x4003#64
  else if n = 3 ∧ i = 1 then 0x200083#64
  else if n = 4 then pageAddr i.val ||| 3#64
  else 0#64

theorem mixedMem_root (j : Fin 512) : mixedMem 1 j = if j = 256 then 0x2003#64 else 0#64 := by
  simp [mixedMem]

theorem mixedMem_dir (j : Fin 512) : mixedMem 2 j = if j = 0 then 0x3003#64 else 0#64 := by
  simp [mixedMem]

theorem mixedMem_pages (j : Fin 512) : mixedMem 3 j =
    if j = 0 then 0x4003#64 else if j = 1 then 0x200083#64 else 0#64 := by
  simp [mixedMem]

theorem mixedMem_follow {q : List (Fin 512)} {n : Nat} (hq : q.length ≤ 3)
    (h : follow tblNode mixedMem 1 q = some n) :
    (q,n) ∈ [([],1),([256],2),([256,0],3),([256,0,0],4)] := by
  have h1 : ∀ j, tblNode (mixedMem 1 j) = if j = 256 then some 2 else none := by
    intro j
    rw [mixedMem_root]
    split_ifs <;> decide
  have h2 : ∀ j, tblNode (mixedMem 2 j) = if j = 0 then some 3 else none := by
    intro j
    rw [mixedMem_dir]
    split_ifs <;> decide
  have h3 : ∀ j, tblNode (mixedMem 3 j) = if j = 0 then some 4 else none := by
    intro j
    rw [mixedMem_pages]
    split_ifs <;> decide
  have hnil : ∀ {p : Nat}, follow tblNode mixedMem p [] = some n → n = p :=
    fun h => (Option.some.inj h).symm
  cases q with
  | nil => simp [hnil h]
  | cons a q =>
    obtain ⟨rfl,ha⟩ := follow_only h1 h
    cases q with
    | nil => simp [hnil ha]
    | cons b q =>
      obtain ⟨rfl,hb⟩ := follow_only h2 ha
      cases q with
      | nil => simp [hnil hb]
      | cons c q =>
        obtain ⟨rfl,hc⟩ := follow_only h3 hb
        cases q with
        | nil => simp [hnil hc]
        | cons d q =>
          simp only [List.length_cons] at hq
          omega

theorem mixedMachine_boot : BootTables (bootMachine mixedMem) :=
  bootMachine_tables _ (fun _ _ hq h => mixedMem_follow hq h) (by decide) (by decide)
    (by decide) (fun j => by rw [mixedMem_root]; split_ifs <;> decide)

/-- Tables with 4 KiB and 2 MiB pages of the boot loader in them are gone through and the direct map
is made. -/
theorem vmmInit_direct_iff_sample :
    ∃ pm m', vmmInit (bootMachine mixedMem) 0xFFFF800000000000#64 = (some pm,m') ∧
      DirectMapped (bootMachine mixedMem) 0xFFFF800000000000#64 pm m' := by
  obtain ⟨pm,m',h⟩ := bootMachine_reaches mixedMem 0xFFFF800000000000#64
  have hentry : ∀ i, bootEntry (bootMachine mixedMem) 0xFFFF800000000000#64 i = 0x3003#64 ∨
      bootEntry (bootMachine mixedMem) 0xFFFF800000000000#64 i = 0#64 := by
    intro i
    unfold bootEntry pdptEntry
    generalize pml4Idx (hhdmVirt 0xFFFF800000000000#64 i) = a
    generalize pdptIdx (hhdmVirt 0xFFFF800000000000#64 i) = b
    change tblAt mixedMem 1 [a] b = 0x3003#64 ∨ tblAt mixedMem 1 [a] b = 0#64
    cases hn : follow tblNode mixedMem 1 [a] with
    | none => exact Or.inr (tblAt_missing hn b)
    | some n =>
      have hmem := mixedMem_follow (by simp) hn
      obtain ⟨-,rfl⟩ : a = 256 ∧ n = 2 := by simpa using hmem
      rw [tblAt_table hn,mixedMem_dir]
      by_cases hb : b = 0
      · exact Or.inl (if_pos hb)
      · exact Or.inr (if_neg hb)
  have hnot : ∀ i, ¬BootLarge (bootMachine mixedMem) 0xFFFF800000000000#64 i := by
    intro i hlarge
    have hhuge : has (bootEntry (bootMachine mixedMem) 0xFFFF800000000000#64 i) vmmHuge = true :=
      hlarge.2.2
    rcases hentry i with he | he <;> (rw [he] at hhuge; revert hhuge; decide)
  refine ⟨pm,m',h,(vmmInit_direct_iff mixedMachine_boot (by decide) (by decide)
    (fun i _ hlarge => absurd hlarge (hnot i)) h).mpr ⟨?_,fun i _ => hnot i,fun i _ _ => ⟨?_,?_⟩⟩⟩
  · rw [(bootMachine_bytes _).1]
    decide
  · have htop : ∀ j, present (mixedMem 1 j) = true → has (mixedMem 1 j) vmmWrite = true := by
      intro j
      rw [mixedMem_root]
      split_ifs <;> decide
    exact htop _
  · rcases hentry i with he | he <;> (rw [he]; decide)

end KiNBOL
