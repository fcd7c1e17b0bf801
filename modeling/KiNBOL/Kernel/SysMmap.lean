import KiNBOL.Kernel.SysBrk
import KiNBOL.Kernel.Arena

namespace KiNBOL

variable {roots : Nat → Prop} {k : Kernel} {t : Task} {m m' : Machine} {va w len : BitVec 64}

theorem Kernel.mach_withMach (k : Kernel) (m : Machine) : (k.withMach m).mach = m := rfl

/-- A frame out of the PMM that is no table. -/
def DataFrame (roots : Nat → Prop) (m : Machine) (f : Nat) : Prop :=
  m.pmm.Held f ∧ ¬IsTable roots m.mem f

theorem mapZeroedAll_append (l l' : List (BitVec 64)) (m : Machine) :
    mapZeroedAll (l++l') m = if (mapZeroedAll l m).1 then mapZeroedAll l' (mapZeroedAll l m).2
      else (false,(mapZeroedAll l m).2) := by
  induction l generalizing m with
  | nil => rfl
  | cons va rest ih =>
    rw [List.cons_append,mapZeroedAll,mapZeroedAll]
    cases mapZeroed m va with
    | none => rfl
    | some m₁ => exact ih m₁

/-- Each turn of the loop takes a frame. -/
theorem mapZeroedAll_spent (pages : List (BitVec 64)) (hl : ∀ va ∈ pages, LowerHalf va)
    (ho : Owned roots m) (hr : roots m.cr3) (hdone : (mapZeroedAll pages m).1 = true) :
    (mapZeroedAll pages m).2.pmm.room = 0 ∨
    (mapZeroedAll pages m).2.pmm.room+pages.length ≤ m.pmm.room := by
  induction pages generalizing m with
  | nil => exact Or.inr (by simp [mapZeroedAll])
  | cons va rest ih =>
    have hva := hl va (by simp)
    have hrest : ∀ v ∈ rest, LowerHalf v := fun v hv => hl v (by simp [hv])
    rw [mapZeroedAll] at hdone ⊢
    rcases mapZeroed_exact ho hr hva with ⟨-,hno⟩ | ⟨f,m₂,m₁,ht,hres,hpos,hcase⟩
    · rw [hno] at hdone
      exact Bool.noConfusion hdone
    rw [hres,Option.elim_some] at hdone ⊢
    obtain ⟨ho1,he1⟩ := mapZeroed_evolves ho hr hva hres
    have hstep : m₁.pmm.room = 0 ∨ m₁.pmm.room+1 ≤ m.pmm.room := by
      rcases hcase with ⟨-,hzero,-⟩ | ⟨hroom,-⟩
      · exact Or.inl hzero
      · refine Or.inr ?_
        rw [mapDemand,List.length_singleton] at hroom
        omega
    rw [List.length_cons]
    have := ih hrest ho1 (he1.cr3 ▸ hr) hdone
    omega

/-- With room for a frame the loop takes one as data that it does not give back. -/
theorem mapZeroedAll_takes {rest : List (BitVec 64)} (hl : ∀ v ∈ va::rest, LowerHalf v)
    (ho : Owned roots m) (hr : roots m.cr3) (hroom : 0 < m.pmm.room) :
    ∃ f, m.pmm.Free f ∧ DataFrame roots (mapZeroedAll (va::rest) m).2 f := by
  have hva := hl va (by simp)
  obtain ⟨ho2,he2⟩ := mapZeroedAll_evolves _ hl ho hr
  by_cases hdem : mapDemand m.mem m.cr3 [va] ≤ m.pmm.room
  · -- the first page is mapped
    obtain ⟨f,hfree,hleaf,-⟩ := ((mapZeroedAll_exact _ hl ho hr).2 va hva).1
      ⟨[],va,rest,rfl,⟨rfl,rfl⟩,hdem⟩
    have hf : follow entryNode (mapZeroedAll (va::rest) m).2.mem m.cr3 (tablePath va++[ptIdx va]) =
        some f := by
      rw [follow_leaf,hleaf]
      exact entryNode_userData (ho.free_lt hfree)
    refine ⟨f,hfree,ho2.held f ⟨m.cr3,_,hr,lowerPath_va hva,hf⟩,?_⟩
    rintro ⟨r,p,hr',hp,hlen,hpf⟩
    have heq := (ho2.tables.forest.unique _ _ _ _ _ hr' hr hp (lowerPath_va hva) hpf hf).2
    rw [heq] at hlen
    simp [tablePath] at hlen
  · -- it is not, and the room is used up
    rw [mapZeroedAll]
    rcases mapZeroed_exact ho hr hva with
      ⟨hzero,-⟩ | ⟨f,m₂,m₁,ht,hres,-,⟨-,hzero,-,hheld,hnew⟩ | ⟨h,-⟩⟩
    · omega
    · rw [hres,Option.elim_some,mapZeroedAll_full rest hzero]
      exact ⟨f,(takes_one ht.takes).1,hheld,fun h => hnew h.node⟩
    · omega

/-- The task's guard page and the stack page above it. -/
def OnStack (t : Task) (a : BitVec 64) : Prop :=
  a.toNat/4096 = t.userStackGuardVa.toNat/4096 ∨ a.toNat/4096 = t.userStackGuardVa.toNat/4096+1

/-- What an address from `SYS_MMAP` comes with. -/
structure MmapGranted (k k' : Kernel) (t : Task) (r len : BitVec 64) : Prop where
  aligned : r.toNat%4096 = 0
  fresh : ∀ i, i < len.toNat → translate k.mem k.cr3 (r+BitVec.ofNat 64 i) = none
  mapped : ∀ i, i < len.toNat → ∃ f nx, (∀ j, k'.mem f j = 0#64) ∧
    translate k'.mem k.cr3 (r+BitVec.ofNat 64 i) = some ⟨f,true,true,nx⟩
  stack : ∀ i, i < len.toNat → ¬OnStack t (r+BitVec.ofNat 64 i)

/-- What an error from `SYS_MMAP` leaves as it was. -/
structure MmapRefused (roots : Nat → Prop) (k k' : Kernel) (t : Task) : Prop where
  xlat : ∀ va, translate k'.mem k.cr3 va = translate k.mem k.cr3 va
  frames : ∀ f, DataFrame roots k'.mach f ↔ DataFrame roots k.mach f
  base : ∃ s, k'.self = some s ∧ s.userMmapBase = t.userMmapBase

def MmapContract (roots : Nat → Prop) (k : Kernel) (t : Task) (len : BitVec 64)
    (flags : BitVec 32) : Prop :=
  if (sysMmap k t len flags).1 ∈ mmapErrors then MmapRefused roots k (sysMmap k t len flags).2 t
  else MmapGranted k (sysMmap k t len flags).2 t (sysMmap k t len flags).1 len

/-- The arguments are refused at once, or no frame is left, or there is room for all pages and they
are new ones off the stack. -/
def MmapRoom (k : Kernel) (t : Task) (len : BitVec 64) (flags : BitVec 32) : Prop :=
  MmapRejects t len flags ∨ (len.toNat ≤ 2^64-4096 ∧ (k.pmm.room = 0 ∨
    LowerRange t.userMmapBase (pageUp len) ∧
    (∀ va ∈ mmapPages t len, translate k.mem k.cr3 va = none ∧ ¬OnStack t va) ∧
    mapDemand k.mem k.cr3 (mmapPages t len) ≤ k.pmm.room))

theorem MmapRefused.refl (roots : Nat → Prop) (hself : k.self = some t) : MmapRefused roots k k t :=
  ⟨fun _ => rfl,fun _ => Iff.rfl,t,hself,rfl⟩

/-- An error that changes what is mapped breaks the contract. -/
theorem not_mmapContract {flags : BitVec 32} (va : BitVec 64)
    (herr : (sysMmap k t len flags).1 ∈ mmapErrors)
    (hbad : (translate (sysMmap k t len flags).2.mem k.cr3 va).isSome ≠
      (translate k.mem k.cr3 va).isSome) : ¬MmapContract roots k t len flags := by
  intro hc
  rw [MmapContract,if_pos herr] at hc
  exact hbad (congrArg Option.isSome (hc.xlat va))

/-- Number of pages that are asked for, when the rounding does not wrap. -/
theorem pageUp_pages (hne : len ≠ 0#64) (h : len.toNat ≤ 2^64-4096) :
    (pageUp len).toNat = (pageUp len).toNat/4096*4096 ∧ len.toNat ≤ (pageUp len).toNat ∧
    (pageUp len).toNat < len.toNat+4096 ∧ 0 < (pageUp len).toNat/4096 := by
  have hpos : len.toNat ≠ 0 := fun h0 => hne (BitVec.eq_of_toNat_eq h0)
  rw [toNat_pageUp h]
  omega

theorem pageUp_wraps (h : ¬len.toNat ≤ 2^64-4096) : pageUp len = 0#64 := by
  apply BitVec.eq_of_toNat_eq
  have hlt := len.isLt
  have hval : (len+4096#64-1#64).toNat = len.toNat+4095-2^64 := by
    simp only [BitVec.toNat_sub,BitVec.toNat_add,BitVec.toNat_ofNat]
    omega
  rw [pageUp,toNat_pageMask,hval,BitVec.toNat_ofNat]
  omega

/-- The page of a byte of the new range is one of those that are mapped. -/
theorem mmapPages_byte (hb : ArenaBase t) (hne : len ≠ 0#64) (hlen : len.toNat ≤ 2^64-4096)
    (hrange : LowerRange t.userMmapBase (pageUp len)) {i : Nat} (hi : i < len.toNat) :
    LowerHalf (t.userMmapBase+BitVec.ofNat 64 i) ∧ ∃ v ∈ mmapPages t len,
      SameLeaf v (t.userMmapBase+BitVec.ofNat 64 i) ∧
      v.toNat/4096 = (t.userMmapBase+BitVec.ofNat 64 i).toNat/4096 := by
  obtain ⟨h1,h2,h3,h4⟩ := pageUp_pages hne hlen
  have halign := hb.aligned
  simp only [LowerRange] at hrange
  have hw : (t.userMmapBase+BitVec.ofNat 64 i).toNat = t.userMmapBase.toNat+i := by
    rw [BitVec.toNat_add,BitVec.toNat_ofNat]
    omega
  have hv : (t.userMmapBase+BitVec.ofNat 64 (i/4096*4096)).toNat =
      t.userMmapBase.toNat+i/4096*4096 := by
    rw [BitVec.toNat_add,BitVec.toNat_ofNat]
    omega
  have hmem : t.userMmapBase+BitVec.ofNat 64 (i/4096*4096) ∈ mmapPages t len :=
    mem_pagesFrom.mpr ⟨i/4096,by omega,rfl⟩
  have hlow : LowerHalf (t.userMmapBase+BitVec.ofNat 64 i) := by
    rw [LowerHalf,hw]
    omega
  have hpage : (t.userMmapBase+BitVec.ofNat 64 (i/4096*4096)).toNat/4096 =
      (t.userMmapBase+BitVec.ofNat 64 i).toNat/4096 := by
    rw [hv,hw]
    omega
  exact ⟨hlow,_,hmem,(sameLeaf_iff (mmapPages_lower t hrange hmem) hlow).mpr hpage,hpage⟩

/-- When the last page is reached all are. -/
theorem mmapPages_last (hb : ArenaBase t) (hne : len ≠ 0#64) (hlen : len.toNat ≤ 2^64-4096)
    (hrange : LowerRange t.userMmapBase (pageUp len)) {mem : PhysMem} {pm room : Nat}
    (h : Reached mem pm room (mmapPages t len)
      (t.userMmapBase+BitVec.ofNat 64 (((pageUp len).toNat/4096-1)*4096))) :
    mapDemand mem pm (mmapPages t len) ≤ room := by
  obtain ⟨h1,h2,h3,h4⟩ := pageUp_pages hne hlen
  have halign := hb.aligned
  obtain ⟨l,v,l',he,hs,hd⟩ := h
  have hcount : (mmapPages t len).length = (pageUp len).toNat/4096 := by
    simp [mmapPages,pagesFrom]
  have hsplit := congrArg List.length he
  rw [hcount,List.length_append,List.length_cons] at hsplit
  have hv : v = t.userMmapBase+BitVec.ofNat 64 (l.length*4096) := by
    have hget : (mmapPages t len)[l.length]? = some v := by
      rw [he,List.getElem?_append_right (le_refl _)]
      simp
    simp only [mmapPages,pagesFrom,List.getElem?_map,Option.map_eq_some_iff] at hget
    obtain ⟨i,hi,hiv⟩ := hget
    rw [List.getElem?_range (by omega),Option.some.injEq] at hi
    rw [← hiv,hi]
  have hvm : v ∈ mmapPages t len := by
    rw [he]
    simp
  have hlast : t.userMmapBase+BitVec.ofNat 64 (((pageUp len).toNat/4096-1)*4096) ∈
      mmapPages t len := mem_pagesFrom.mpr ⟨_,by omega,rfl⟩
  have hpage := (sameLeaf_iff (mmapPages_lower t hrange hvm) (mmapPages_lower t hrange hlast)).mp hs
  simp only [LowerRange] at hrange
  have hend : l.length = (pageUp len).toNat/4096-1 := by
    rw [hv,BitVec.toNat_add,BitVec.toNat_add,BitVec.toNat_ofNat,BitVec.toNat_ofNat] at hpage
    omega
  have hnil : l' = [] := List.eq_nil_of_length_eq_zero (by omega)
  rw [he,hnil]
  exact hd

theorem mmapPages_ne_nil (t : Task) (hne : len ≠ 0#64) (hlen : len.toNat ≤ 2^64-4096) :
    mmapPages t len ≠ [] := by
  obtain ⟨-,-,-,h4⟩ := pageUp_pages hne hlen
  intro he
  have hcount := congrArg List.length he
  simp only [mmapPages,pagesFrom,List.length_map,List.length_range,List.length_nil] at hcount
  omega

/-- An error after a frame was found breaks the contract. -/
theorem MmapRefused.none_taken {pages : List (BitVec 64)}
    (h : MmapRefused roots k (k.withMach (mapZeroedAll pages k.mach).2) t) (hne : pages ≠ [])
    (hl : ∀ va ∈ pages, LowerHalf va) (ho : Owned roots k.mach) (hr : roots k.cr3) :
    k.pmm.room = 0 := by
  cases pages with
  | nil => exact absurd rfl hne
  | cons va rest =>
    by_contra hroom
    obtain ⟨f,hfree,hdata⟩ := mapZeroedAll_takes hl ho hr (Nat.pos_of_ne_zero hroom)
    have hold := h.frames f
    rw [Kernel.mach_withMach] at hold
    exact (hold.mp hdata).1.not_free hfree

/-- The arena has room in the lower half for all frames there are, or the request does not wrap. -/
def ArenaFits (k : Kernel) (t : Task) (len : BitVec 64) : Prop :=
  t.userMmapBase.toNat+(pageUp len).toNat < 2^64 ∨ t.userMmapBase.toNat+k.pmm.room*4096 ≤ 2^47

/-- A request that is not refused at once and ends beyond the lower half runs out of frames. -/
theorem mapZeroedAll_endless (ho : Owned roots k.mach) (hr : roots k.cr3) (hb : ArenaBase t)
    {flags : BitVec 32} (hrej : ¬MmapRejects t len flags)
    (hrange : ¬LowerRange t.userMmapBase (pageUp len)) (hfit : ArenaFits k t len) :
    ∃ l, l.length = k.pmm.room ∧ (∀ va ∈ l, LowerHalf va) ∧
      mapZeroedAll (mmapPages t len) k.mach = (false,(mapZeroedAll l k.mach).2) := by
  have hbelow := hb.below
  have hlimit := ho.limit
  simp only [MmapRejects,not_or] at hrej
  have htop := BitVec.not_le.mp hrej.2.2
  rw [BitVec.lt_def] at hbelow htop
  rw [show userStackTop.toNat = 0x7FFFFFFFF000 by decide] at hbelow htop
  rw [BitVec.toNat_add] at htop
  simp only [LowerRange] at hrange
  have hsum := (pageUp len).isLt
  have hroom : t.userMmapBase.toNat+k.pmm.room*4096 ≤ 2^47 := by
    rcases hfit with h | h
    · omega
    · exact h
  have hmany : k.pmm.room < (pageUp len).toNat/4096 := by omega
  have hsplit : mmapPages t len = pagesFrom t.userMmapBase k.pmm.room++
      (mmapPages t len).drop k.pmm.room := by
    have htake : (mmapPages t len).take k.pmm.room = pagesFrom t.userMmapBase k.pmm.room := by
      rw [mmapPages,pagesFrom,pagesFrom,← List.map_take,List.take_range,Nat.min_eq_left (by omega)]
    rw [← htake,List.take_append_drop]
  have hl : ∀ va ∈ pagesFrom t.userMmapBase k.pmm.room, LowerHalf va :=
    fun va hva => pagesFrom_lower hroom hva
  have hcount : (pagesFrom t.userMmapBase k.pmm.room).length = k.pmm.room := by simp [pagesFrom]
  refine ⟨_,hcount,hl,?_⟩
  rw [hsplit,mapZeroedAll_append]
  split_ifs with hdone
  · have hzero : (mapZeroedAll (pagesFrom t.userMmapBase k.pmm.room) k.mach).2.pmm.room = 0 := by
      have hspent := mapZeroedAll_spent _ hl ho hr hdone
      rw [hcount] at hspent
      change _ ∨ _ ≤ k.pmm.room at hspent
      omega
    have hrest : ((mmapPages t len).drop k.pmm.room).isEmpty = false := by
      rw [List.isEmpty_eq_false_iff,ne_eq,List.drop_eq_nil_iff]
      simp only [mmapPages,pagesFrom,List.length_map,List.length_range]
      omega
    rw [mapZeroedAll_full _ hzero,hrest]
  · rfl

/-- With no frame left nothing happens. -/
theorem sysMmap_full {flags : BitVec 32} (hself : k.self = some t)
    (hrej : ¬MmapRejects t len flags) (hlen : len.toNat ≤ 2^64-4096) (hzero : k.pmm.room = 0) :
    MmapContract roots k t len flags := by
  have hres := sysMmap_maps (k := k) hrej
  have hfull := mapZeroedAll_full (m := k.mach) (mmapPages t len) hzero
  have hempty : (mmapPages t len).isEmpty = false :=
    List.isEmpty_eq_false_iff.mpr (mmapPages_ne_nil t (fun h => hrej (Or.inr (Or.inl h))) hlen)
  rw [hfull,hempty,if_neg (by simp)] at hres
  rw [MmapContract,hres,if_pos (by simp [mmapErrors])]
  exact MmapRefused.refl roots hself

/-- When the rounding wraps nothing is mapped and success is reported. -/
theorem sysMmap_wrapped {flags : BitVec 32} (hb : ArenaBase t) (hrej : ¬MmapRejects t len flags)
    (hlen : ¬len.toNat ≤ 2^64-4096) : ¬MmapContract roots k t len flags := by
  intro hc
  have hres := sysMmap_maps (k := k) hrej
  have hnone : mmapPages t len = [] := by
    rw [mmapPages,pageUp_wraps hlen]
    rfl
  rw [hnone,mapZeroedAll,if_pos rfl] at hres
  rw [MmapContract,hres,if_neg hb.no_error] at hc
  obtain ⟨f,nx,-,hx⟩ := hc.mapped 0 (by omega)
  have hold := hc.fresh 0 (by omega)
  exact absurd (hold.symm.trans hx) (by simp)

/-- Room for all pages, which are new: the contract is kept. -/
theorem sysMmap_granted (ho : Owned roots k.mach) (hr : roots k.cr3) (hb : ArenaBase t)
    {flags : BitVec 32} (hrej : ¬MmapRejects t len flags) (hlen : len.toNat ≤ 2^64-4096)
    (hrange : LowerRange t.userMmapBase (pageUp len))
    (hnew : ∀ va ∈ mmapPages t len, translate k.mem k.cr3 va = none ∧ ¬OnStack t va)
    (hdem : mapDemand k.mem k.cr3 (mmapPages t len) ≤ k.pmm.room) :
    MmapContract roots k t len flags := by
  have hres := sysMmap_maps (k := k) hrej
  have hne : len ≠ 0#64 := fun h => hrej (Or.inr (Or.inl h))
  have hpages := mmapPages_ne_nil t hne hlen
  have hl : ∀ va ∈ mmapPages t len, LowerHalf va := fun va hva => mmapPages_lower t hrange hva
  have hdone := (mapZeroedAll_exact _ hl ho hr).1.mpr
    (Or.inr ((mapDemand_dropLast _ _ hpages).trans_le hdem))
  rw [if_pos hdone] at hres
  rw [MmapContract,hres,if_neg hb.no_error]
  refine ⟨hb.aligned,fun i hi => ?_,fun i hi => ?_,fun i hi => ?_⟩
  · obtain ⟨hw,v,hv,hsame,-⟩ := mmapPages_byte hb hne hlen hrange hi
    have hleaf : translate k.mem k.cr3 (t.userMmapBase+BitVec.ofNat 64 i) =
        translate k.mem k.cr3 v := by
      have h1 := translate_lower ho hr hw
      have h2 := translate_lower ho hr (hl v hv)
      rw [leafWord,hsame.1,hsame.2] at h1
      exact h1.trans h2.symm
    rw [hleaf]
    exact (hnew v hv).1
  · obtain ⟨hw,v,hv,hsame,-⟩ := mmapPages_byte hb hne hlen hrange hi
    obtain ⟨l,l',he⟩ := List.append_of_mem hv
    have hsub : (l++[v]).Sublist (mmapPages t len) := by
      rw [he]
      exact (List.Sublist.refl l).append ((List.nil_sublist l').cons_cons v)
    obtain ⟨f,-,hx,hzero⟩ := (mapZeroedAll_translate _ hl ho hr hw).1
      ⟨l,v,l',he,hsame,(mapDemand_le _ _ hsub).trans hdem⟩
    exact ⟨f,true,hzero,hx⟩
  · obtain ⟨hw,v,hv,-,hpage⟩ := mmapPages_byte hb hne hlen hrange hi
    have hoff := (hnew v hv).2
    rwa [OnStack,hpage] at hoff

/-- The other way round, for pages in the lower half. -/
theorem MmapContract.lower {flags : BitVec 32} (hc : MmapContract roots k t len flags)
    (ho : Owned roots k.mach) (hr : roots k.cr3) (hb : ArenaBase t)
    (hrej : ¬MmapRejects t len flags) (hlen : len.toNat ≤ 2^64-4096)
    (hrange : LowerRange t.userMmapBase (pageUp len)) : MmapRoom k t len flags := by
  have hres := sysMmap_maps (k := k) hrej
  have hne : len ≠ 0#64 := fun h => hrej (Or.inr (Or.inl h))
  obtain ⟨hn1,hn2,hn3,hn4⟩ := pageUp_pages hne hlen
  have hl : ∀ va ∈ mmapPages t len, LowerHalf va := fun va hva => mmapPages_lower t hrange hva
  refine Or.inr ⟨hlen,?_⟩
  by_cases hdone : (mapZeroedAll (mmapPages t len) k.mach).1 = true
  · rw [if_pos hdone] at hres
    rw [MmapContract,hres,if_neg hb.no_error] at hc
    refine Or.inr ⟨hrange,fun va hva => ?_,?_⟩
    · obtain ⟨i,hi,rfl⟩ := mem_pagesFrom.mp hva
      exact ⟨hc.fresh (i*4096) (by omega),hc.stack (i*4096) (by omega)⟩
    · -- the last page is there, so all are
      refine mmapPages_last hb hne hlen hrange (by_contra fun hmiss => ?_)
      have hlow : LowerHalf (t.userMmapBase+
          BitVec.ofNat 64 (((pageUp len).toNat/4096-1)*4096)) :=
        hl _ (mem_pagesFrom.mpr ⟨_,by omega,rfl⟩)
      have hsame := (mapZeroedAll_translate _ hl ho hr hlow).2 hmiss
      obtain ⟨f,nx,-,hx⟩ := hc.mapped (((pageUp len).toNat/4096-1)*4096) (by omega)
      have hold := hc.fresh (((pageUp len).toNat/4096-1)*4096) (by omega)
      exact absurd ((hold.symm.trans hsame.symm).trans hx) (by simp)
  · rw [if_neg hdone] at hres
    rw [MmapContract,hres,if_pos (by simp [mmapErrors])] at hc
    exact Or.inl (hc.none_taken (mmapPages_ne_nil t hne hlen) hl ho hr)

/-- And for pages that run beyond it. -/
theorem MmapContract.beyond {flags : BitVec 32} (hc : MmapContract roots k t len flags)
    (ho : Owned roots k.mach) (hr : roots k.cr3) (hb : ArenaBase t)
    (hrej : ¬MmapRejects t len flags) (hrange : ¬LowerRange t.userMmapBase (pageUp len))
    (hfit : ArenaFits k t len) : k.pmm.room = 0 := by
  have hres := sysMmap_maps (k := k) hrej
  obtain ⟨l,hcount,hl,hloop⟩ := mapZeroedAll_endless ho hr hb hrej hrange hfit
  rw [hloop,if_neg (by simp)] at hres
  rw [MmapContract,hres,if_pos (by simp [mmapErrors])] at hc
  by_cases hnil : l = []
  · rw [hnil] at hcount
    exact hcount.symm
  · exact hc.none_taken hnil hl ho hr

/-- `SYS_MMAP` keeps its contract when there is room for the pages, or for none, and only then. -/
theorem sysMmap_contract (ho : Owned roots k.mach) (hr : roots k.cr3) (hself : k.self = some t)
    (hb : ArenaBase t) (len : BitVec 64) (flags : BitVec 32) :
    (MmapRoom k t len flags → MmapContract roots k t len flags) ∧
    (ArenaFits k t len → MmapContract roots k t len flags → MmapRoom k t len flags) := by
  constructor
  · intro hroom
    by_cases hrej : MmapRejects t len flags
    · obtain ⟨herr,hsame⟩ := sysMmap_rejects (k := k) hrej
      rw [MmapContract,if_pos herr,hsame]
      exact MmapRefused.refl roots hself
    rcases hroom.resolve_left hrej with ⟨hlen,hzero | ⟨hrange,hnew,hdem⟩⟩
    · exact sysMmap_full hself hrej hlen hzero
    · exact sysMmap_granted ho hr hb hrej hlen hrange hnew hdem
  · intro hfit hc
    by_cases hrej : MmapRejects t len flags
    · exact Or.inl hrej
    by_cases hlen : len.toNat ≤ 2^64-4096
    · by_cases hrange : LowerRange t.userMmapBase (pageUp len)
      · exact hc.lower ho hr hb hrej hlen hrange
      · exact Or.inr ⟨hlen,Or.inl (hc.beyond ho hr hb hrej hrange hfit)⟩
    · exact absurd hc (sysMmap_wrapped hb hrej hlen)

theorem sampleSelf_arena : ArenaBase sampleSelf :=
  ⟨by decide,by decide⟩

theorem sysMmap_contract_sample :
    (MmapRoom sampleRunning sampleSelf 4096#64 0x22#32 →
      MmapContract (UserRoots sampleRunning.tasks) sampleRunning sampleSelf 4096#64 0x22#32) ∧
    (ArenaFits sampleRunning sampleSelf 4096#64 →
      MmapContract (UserRoots sampleRunning.tasks) sampleRunning sampleSelf 4096#64 0x22#32 →
      MmapRoom sampleRunning sampleSelf 4096#64 0x22#32) :=
  sysMmap_contract sampleRunning_owned.1 sampleRunning_owned.2 (Option.some_get _).symm
    sampleSelf_arena _ _

/-- 64 pages are asked for where fewer are free: the error leaves the first ones mapped. -/
theorem sysMmap_half_done :
    ¬MmapContract (UserRoots sampleRunning.tasks) sampleRunning sampleSelf 0x40000#64 0x22#32 :=
  not_mmapContract 0x700000000000#64 (by decide) (by decide)

end KiNBOL
