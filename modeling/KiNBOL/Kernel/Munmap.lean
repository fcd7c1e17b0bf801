import KiNBOL.Mm.KernelHalf
import KiNBOL.Mm.VmRun

namespace KiNBOL

/-- `SYS_MUNMAP`: the status in RAX and the machine afterwards. -/
def sysMunmap (m : Machine) (addr len : BitVec 64) : BitVec 64 × Machine :=
  if addr &&& 0xFFF#64 ≠ 0#64 ∨ len = 0#64 then (-22#64,m)
  else (0#64,vmmUnmapRange m (vmmCurrent m) addr len true)

/-- The page-table slot of an address when its entry is present. -/
def liveSlot (mem : PhysMem) (pml4 : Nat) (va : BitVec 64) : Option (Nat × Fin 512) :=
  match ptSlot present mem pml4 va with
  | none => none
  | some (pt,i) => if present (mem pt i) then some (pt,i) else none

/-- The slots above it that the walk reads. -/
def midSlots (mem : PhysMem) (pml4 : Nat) (va : BitVec 64) : List (Nat × Fin 512) :=
  let pdpt := pageOf (mem pml4 (pml4Idx va))
  let pd := pageOf (mem pdpt (pdptIdx va))
  [(pml4,pml4Idx va),(pdpt,pdptIdx va),(pd,pdIdx va)]

variable {roots : Nat → Prop} {pm : Nat} {m m' : Machine} {mem mem' : PhysMem}
  {va : BitVec 64} {s : Nat × Fin 512}

/-- A live slot: all four entries are present. -/
theorem liveSlot_eq_some : liveSlot mem pm va = some s ↔
    (∀ t ∈ midSlots mem pm va, present (mem t.1 t.2) = true) ∧
    s = (pageOf (mem (pageOf (mem (pageOf (mem pm (pml4Idx va))) (pdptIdx va))) (pdIdx va)),
      ptIdx va) ∧ present (mem s.1 s.2) = true := by
  unfold liveSlot ptSlot midSlots
  simp only [pageOf_pageMask,List.mem_cons,List.not_mem_nil,or_false,forall_eq_or_imp,forall_eq]
  by_cases h1 : present (mem pm (pml4Idx va)) = true
  · by_cases h2 : present (mem (pageOf (mem pm (pml4Idx va))) (pdptIdx va)) = true
    · by_cases h3 : present (mem (pageOf (mem (pageOf (mem pm (pml4Idx va))) (pdptIdx va)))
          (pdIdx va)) = true
      · simp only [h1,h2,h3,if_true,true_and]
        constructor
        · intro h
          split at h
          · rename_i hp
            rw [Option.some.injEq] at h
            subst h
            exact ⟨rfl,hp⟩
          · exact absurd h (by simp)
        · intro h
          obtain ⟨rfl,hp⟩ := h
          rw [if_pos hp]
      · simp [h1,h2,h3]
    · simp [h1,h2]
  · simp [h1]

/-- One turn of the unmapping loop clears the live slot. -/
theorem unmapPage_live (m : Machine) (pml4 : Nat) (page : BitVec 64) :
    unmapPage true pml4 m page =
      match liveSlot m.mem pml4 page with
      | none => m
      | some (pt,i) => { m with
          pmm := pmmFreePage m.pmm (m.mem pt i &&& vmmPhysMask)
          mem := setSlot m.mem pt i 0#64 } := by
  unfold unmapPage liveSlot
  cases ptSlot present m.mem pml4 page with
  | none => rfl
  | some t =>
    obtain ⟨pt,i⟩ := t
    by_cases hp : present (m.mem pt i) = true
    · simp [hp]
    · simp [hp]

/-- Memory in which some slots became zero. -/
def Zeroed (mem mem' : PhysMem) : Prop := ∀ n i, mem' n i = mem n i ∨ mem' n i = 0#64

theorem Zeroed.present (h : Zeroed mem mem') {n : Nat} {i : Fin 512}
    (hp : present (mem' n i) = true) : mem' n i = mem n i := by
  cases h n i with
  | inl he => exact he
  | inr hz =>
    rw [hz] at hp
    simp at hp

/-- Clearing slots makes no slot live. -/
theorem Zeroed.live (h : Zeroed mem mem') (hs : liveSlot mem' pm va = some s) :
    liveSlot mem pm va = some s := by
  rw [liveSlot_eq_some] at hs ⊢
  obtain ⟨hmid,he,hp⟩ := hs
  simp only [midSlots,List.mem_cons,List.not_mem_nil,or_false,forall_eq_or_imp,
    forall_eq] at hmid ⊢
  obtain ⟨p1,p2,p3⟩ := hmid
  have e1 := h.present p1
  rw [e1] at p1 p2 p3 he
  have e2 := h.present p2
  rw [e2] at p2 p3 he
  have e3 := h.present p3
  rw [e3] at p3 he
  rw [h.present hp] at hp
  exact ⟨⟨p1,p2,p3⟩,he,hp⟩

/-- A slot that is no longer live was cleared, or a slot above it was. -/
theorem Zeroed.dead (h : Zeroed mem mem') (hs : liveSlot mem pm va = some s)
    (hd : liveSlot mem' pm va = none) :
    mem' s.1 s.2 = 0#64 ∨ ∃ t ∈ midSlots mem pm va, mem' t.1 t.2 = 0#64 := by
  by_contra hno
  rw [not_or,not_exists] at hno
  have hkeep : ∀ t ∈ midSlots mem pm va, mem' t.1 t.2 = mem t.1 t.2 := fun t ht =>
    (h t.1 t.2).resolve_right (fun hz => hno.2 t ⟨ht,hz⟩)
  have hself := (h s.1 s.2).resolve_right hno.1
  obtain ⟨hmid,he,hp⟩ := liveSlot_eq_some.mp hs
  have halive : liveSlot mem' pm va = some s := by
    rw [liveSlot_eq_some]
    simp only [midSlots,List.mem_cons,List.not_mem_nil,or_false,forall_eq_or_imp,
      forall_eq] at hmid hkeep ⊢
    obtain ⟨k1,k2,k3⟩ := hkeep
    rw [k1,k2,k3,hself]
    exact ⟨hmid,he,hp⟩
  rw [halive] at hd
  exact absurd hd (by simp)

/-- What the unmapping loop does on any page list, whatever the tables look like: it zeroes live
slots, none of its pages stays live, and it gives back the frames of the slots it zeroed. -/
structure Clears (pm : Nat) (pages : List (BitVec 64)) (m m' : Machine) : Prop where
  zeroed : Zeroed m.mem m'.mem
  slots : ∀ n i, m'.mem n i ≠ m.mem n i → ∃ page ∈ pages, liveSlot m.mem pm page = some (n,i)
  dead : ∀ page ∈ pages, liveSlot m'.mem pm page = none
  frames : ∀ f, m.pmm.bmGet f = true → m'.pmm.bmGet f = false →
    ∃ n i, m'.mem n i ≠ m.mem n i ∧ framePage (m.mem n i) = f
  freed : ∀ n i, m'.mem n i ≠ m.mem n i → framePage (m.mem n i) < m.pmm.totalPages →
    m'.pmm.bmGet (framePage (m.mem n i)) = false
  bits : ∀ f, m'.pmm.bmGet f = true → m.pmm.bmGet f = true
  total : m'.pmm.totalPages = m.pmm.totalPages

theorem unmapPage_clears (m : Machine) (pm : Nat) (page : BitVec 64) :
    Clears pm [page] m (unmapPage true pm m page) := by
  rw [unmapPage_live]
  cases hl : liveSlot m.mem pm page with
  | none =>
    exact ⟨fun _ _ => Or.inl rfl,fun _ _ hne => absurd rfl hne,
      fun p hp => (List.mem_singleton.mp hp).symm ▸ hl,
      fun f h1 h2 => absurd (h1.symm.trans h2) (by simp),fun _ _ hne => absurd rfl hne,
      fun _ hf => hf,rfl⟩
  | some t =>
    obtain ⟨pt,i⟩ := t
    have hp : present (m.mem pt i) = true := (liveSlot_eq_some.mp hl).2.2
    have hg := pmmFreePage_gives m.pmm (m.mem pt i &&& vmmPhysMask)
    have hzero : Zeroed m.mem (setSlot m.mem pt i 0#64) := by
      intro n j
      by_cases hs : n = pt ∧ j = i
      · rw [hs.1,hs.2,setSlot_self]
        exact Or.inr rfl
      · exact Or.inl (setSlot_other hs)
    have hchanged : ∀ n j, setSlot m.mem pt i 0#64 n j ≠ m.mem n j → n = pt ∧ j = i := by
      intro n j hne
      by_contra hs
      exact hne (setSlot_other hs)
    have hbit : ∀ f, (pmmFreePage m.pmm (m.mem pt i &&& vmmPhysMask)).bmGet f =
        (m.pmm.bmGet f && !decide (f ∈ m.pmm.held (framePage (m.mem pt i)) 1)) := hg.bits
    refine ⟨hzero,?_,?_,?_,?_,?_,hg.total⟩
    · intro n j hne
      obtain ⟨rfl,rfl⟩ := hchanged n j hne
      exact ⟨page,by simp,hl⟩
    · intro q hq
      rw [List.mem_singleton] at hq
      subst hq
      cases hd : liveSlot (setSlot m.mem pt i 0#64) pm q with
      | none => rfl
      | some u =>
        have hu := hzero.live hd
        rw [hl,Option.some.injEq] at hu
        subst hu
        have hpu := (liveSlot_eq_some.mp hd).2.2
        rw [setSlot_self] at hpu
        simp at hpu
    · intro f h1 h2
      refine ⟨pt,i,?_,?_⟩
      · show setSlot m.mem pt i 0#64 pt i ≠ m.mem pt i
        rw [setSlot_self]
        intro he
        rw [← he] at hp
        simp at hp
      · have hmem : f ∈ m.pmm.held (framePage (m.mem pt i)) 1 := by
          by_contra hout
          rw [hbit,h1,decide_eq_false hout] at h2
          exact Bool.noConfusion h2
        rw [Pmm.mem_held] at hmem
        omega
    · intro n j hne hlt
      obtain ⟨rfl,rfl⟩ := hchanged n j hne
      show (pmmFreePage m.pmm (m.mem n j &&& vmmPhysMask)).bmGet (framePage (m.mem n j)) = false
      cases hb : m.pmm.bmGet (framePage (m.mem n j)) with
      | false => rw [hbit,hb,Bool.false_and]
      | true =>
        have hmem : framePage (m.mem n j) ∈ m.pmm.held (framePage (m.mem n j)) 1 :=
          Pmm.mem_held.mpr ⟨⟨le_refl _,by omega⟩,hlt,hb⟩
        rw [hbit,decide_eq_true hmem,Bool.not_true,Bool.and_false]
    · intro f hf
      rw [hbit,Bool.and_eq_true] at hf
      exact hf.1

theorem Clears.cons {page : BitVec 64} {rest : List (BitVec 64)} {m1 : Machine}
    (h1 : Clears pm [page] m m1) (h2 : Clears pm rest m1 m') : Clears pm (page::rest) m m' := by
  have hz : Zeroed m.mem m'.mem := by
    intro n i
    cases h2.zeroed n i with
    | inr hzero => exact Or.inr hzero
    | inl he => exact he ▸ h1.zeroed n i
  have hfirst : ∀ n i, m1.mem n i ≠ m.mem n i →
      m'.mem n i = m1.mem n i := by
    intro n i hne
    have hz1 := (h1.zeroed n i).resolve_left hne
    cases h2.zeroed n i with
    | inl he => exact he
    | inr hz2 => exact hz2.trans hz1.symm
  have hsecond : ∀ n i, m'.mem n i ≠ m1.mem n i →
      m1.mem n i = m.mem n i := by
    intro n i hne
    by_contra hne1
    exact hne (hfirst n i hne1)
  refine ⟨hz,?_,?_,?_,?_,fun f hf => h1.bits f (h2.bits f hf),h2.total.trans h1.total⟩
  · intro n i hne
    by_cases he : m1.mem n i = m.mem n i
    · obtain ⟨p,hp,hl⟩ := h2.slots n i (he ▸ hne)
      exact ⟨p,by simp [hp],h1.zeroed.live hl⟩
    · exact ⟨page,by simp,(h1.slots n i he).elim (fun p hp => List.mem_singleton.mp hp.1 ▸ hp.2)⟩
  · intro p hp
    cases List.mem_cons.mp hp with
    | inr hrest => exact h2.dead p hrest
    | inl he =>
      subst he
      cases hl : liveSlot m'.mem pm p with
      | none => rfl
      | some u =>
        have hu := h2.zeroed.live hl
        rw [h1.dead p (by simp)] at hu
        exact absurd hu (by simp)
  · intro f hb hb'
    cases hmid : m1.pmm.bmGet f with
    | true =>
      obtain ⟨n,i,hne,hf⟩ := h2.frames f hmid hb'
      have he := hsecond n i hne
      exact ⟨n,i,he ▸ hne,he ▸ hf⟩
    | false =>
      obtain ⟨n,i,hne,hf⟩ := h1.frames f hb hmid
      exact ⟨n,i,(hfirst n i hne).symm ▸ hne,hf⟩
  · intro n i hne hlt
    by_cases he : m1.mem n i = m.mem n i
    · have hfr := h2.freed n i (he ▸ hne)
      rw [he,h1.total] at hfr
      exact hfr hlt
    · have hfr := h1.freed n i he hlt
      cases hb : m'.pmm.bmGet (framePage (m.mem n i)) with
      | false => rfl
      | true => exact ((h2.bits _ hb).symm.trans hfr)

theorem unmapPages_clears (pm : Nat) (pages : List (BitVec 64)) (m : Machine) :
    Clears pm pages m (pages.foldl (unmapPage true pm) m) := by
  induction pages generalizing m with
  | nil =>
    exact ⟨fun _ _ => Or.inl rfl,fun _ _ hne => absurd rfl hne,fun _ hp => by simp at hp,
      fun f h1 h2 => absurd (h1.symm.trans h2) (by simp),fun _ _ hne => absurd rfl hne,
      fun _ hf => hf,rfl⟩
  | cons page rest ih => exact (unmapPage_clears m pm page).cons (ih _)

/-- `SYS_MUNMAP` keeps to the task: kernel-half translations stay, only slots of its lower-half
tables are written, only frames mapped at lower-half pages of the range are handed back. -/
structure MunmapConfined (roots : Nat → Prop) (m : Machine) (addr len : BitVec 64) : Prop where
  kernel : ∀ r, roots r → ∀ va, 256 ≤ (pml4Idx va).val →
    translate (sysMunmap m addr len).2.mem r va = translate m.mem r va
  writes : ∀ n i, (sysMunmap m addr len).2.mem n i ≠ m.mem n i → TableSlot m.mem m.cr3 n i
  frees : ∀ f, m.pmm.Held f → ¬(sysMunmap m addr len).2.pmm.Held f →
    ∃ page ∈ pageRange addr len, LowerHalf page ∧
      ∃ x, translate m.mem m.cr3 page = some x ∧ x.page = f

/-- Every live slot that a page of the range leads to is one of a lower-half page of the range. -/
def RangeOwnsSlots (m : Machine) (addr len : BitVec 64) : Prop :=
  ∀ page ∈ pageRange addr len, ∀ s, liveSlot m.mem m.cr3 page = some s →
    ∃ q ∈ pageRange addr len, LowerHalf q ∧ liveSlot m.mem m.cr3 q = some s

/-- The walkers find the processor's tables in the kernel half: no high bits in its PML4 entries
and no 1 GiB pages. -/
def PlainKernelHalf (m : Machine) : Prop :=
  ∀ va, 256 ≤ (pml4Idx va).val → present (m.mem m.cr3 (pml4Idx va)) = true →
    pageOf (m.mem m.cr3 (pml4Idx va)) = framePage (m.mem m.cr3 (pml4Idx va)) ∧
    (present (m.mem (pageOf (m.mem m.cr3 (pml4Idx va))) (pdptIdx va)) = true →
      has (m.mem (pageOf (m.mem m.cr3 (pml4Idx va))) (pdptIdx va)) vmmHuge = false)

/-- The live slot of a lower-half page is its page-table slot. -/
theorem liveSlot_lower (h : UserTables roots mem) (hr : roots pm) (hva : LowerHalf va)
    (hs : liveSlot mem pm va = some s) :
    follow entryNode mem pm (tablePath va) = some s.1 ∧ s.2 = ptIdx va ∧
      mem s.1 s.2 = leafWord mem pm va ∧ present (mem s.1 s.2) = true := by
  unfold liveSlot at hs
  rw [h.ptSlot_present hr hva] at hs
  cases hpt : follow entryNode mem pm (tablePath va) with
  | none => simp [hpt] at hs
  | some pt =>
    simp only [hpt,Option.map_some] at hs
    split at hs
    · rename_i hp
      rw [Option.some.injEq] at hs
      subst hs
      exact ⟨rfl,rfl,(entryAt_table hpt (ptIdx va)).symm,hp⟩
    · exact absurd hs (by simp)

/-- A present leaf is a live slot. -/
theorem liveSlot_of_leaf (h : UserTables roots mem) (hr : roots pm) (hva : LowerHalf va) {pt : Nat}
    (hpt : follow entryNode mem pm (tablePath va) = some pt)
    (hp : present (mem pt (ptIdx va)) = true) : liveSlot mem pm va = some (pt,ptIdx va) := by
  unfold liveSlot
  rw [h.ptSlot_present hr hva,hpt]
  simp [hp]

theorem translate_leaf (h : UserTables roots mem) (hr : roots pm) (hva : LowerHalf va)
    (hp : present (leafWord mem pm va) = true) :
    ∃ x, translate mem pm va = some x ∧ x.page = framePage (leafWord mem pm va) := by
  rw [translate,if_pos (Or.inl hva),h.hwWalk_lower hr hva,leafXlat,if_pos hp]
  exact ⟨_,rfl,rfl⟩

/-- A range whose live slots are those of its lower-half pages is unmapped within the task. -/
theorem munmap_confined (ho : Owned roots m) (hk : KernelApart roots m) (hr : roots m.cr3)
    {addr len : BitVec 64} (hc : RangeOwnsSlots m addr len) : MunmapConfined roots m addr len := by
  by_cases hrej : addr &&& 0xFFF#64 ≠ 0#64 ∨ len = 0#64
  · have hsame : (sysMunmap m addr len).2 = m := by
      rw [sysMunmap,if_pos hrej]
    refine ⟨?_,?_,?_⟩
    · intro r _ va _
      rw [hsame]
    · intro n i hne
      rw [hsame] at hne
      exact absurd rfl hne
    · intro f h1 h2
      rw [hsame] at h2
      exact absurd h1 h2
  · have hlen : len ≠ 0#64 := fun hz => hrej (Or.inr hz)
    have hrun : (sysMunmap m addr len).2 =
        (pageRange addr len).foldl (unmapPage true m.cr3) m := by
      simp only [sysMunmap,if_neg hrej,vmmUnmapRange,vmmCurrent,if_neg hlen]
    have hcl := unmapPages_clears m.cr3 (pageRange addr len) m
    rw [← hrun] at hcl
    have hslot : ∀ n i, (sysMunmap m addr len).2.mem n i ≠ m.mem n i →
        ∃ q ∈ pageRange addr len, LowerHalf q ∧ liveSlot m.mem m.cr3 q = some (n,i) := by
      intro n i hne
      obtain ⟨page,hp,hl⟩ := hcl.slots n i hne
      exact hc page hp _ hl
    have hwrites : ∀ n i, (sysMunmap m addr len).2.mem n i ≠ m.mem n i →
        TableSlot m.mem m.cr3 n i := by
      intro n i hne
      obtain ⟨q,-,hq,hl⟩ := hslot n i hne
      obtain ⟨h1,h2,-,-⟩ := liveSlot_lower ho.tables hr hq hl
      simp only at h1 h2
      rw [h2]
      exact ⟨tablePath q,lowerPath_va hq,h1⟩
    refine ⟨?_,hwrites,?_⟩
    · intro r hrr va hva
      apply translate_kernel _ va hva
      intro va' hva'
      exact (hk.frame ho (fun n i hne => Or.inl ⟨m.cr3,hr,hwrites n i hne⟩) hrr hva').1
    · intro f hheld hgone
      have hlow : (sysMunmap m addr len).2.pmm.bmGet f = false := by
        cases hb : (sysMunmap m addr len).2.pmm.bmGet f with
        | false => rfl
        | true => exact absurd ⟨hcl.total ▸ hheld.1,hb⟩ hgone
      obtain ⟨n,i,hne,hf⟩ := hcl.frames f hheld.2 hlow
      obtain ⟨q,hmem,hq,hl⟩ := hslot n i hne
      obtain ⟨-,-,h3,h4⟩ := liveSlot_lower ho.tables hr hq hl
      simp only at h3 h4
      obtain ⟨x,hx,hpage⟩ := translate_leaf ho.tables hr hq (h3 ▸ h4)
      exact ⟨q,hmem,hq,x,hx,by rw [hpage,← h3,hf]⟩

/-- Every address with PML4 index from 256 up selects the slots of a canonical one. -/
theorem kernel_alias (h : 256 ≤ (pml4Idx va).val) : ∃ k, KernelHalf k ∧
    pml4Idx k = pml4Idx va ∧ pdptIdx k = pdptIdx va ∧ pdIdx k = pdIdx va := by
  let k : BitVec 64 := BitVec.ofNat 64 (va.toNat%2^48+(2^64-2^48))
  have hk : k.toNat = va.toNat%2^48+(2^64-2^48) := by
    simp only [k,BitVec.toNat_ofNat]
    omega
  rw [pml4Idx_val] at h
  refine ⟨k,?_,Fin.ext ?_,Fin.ext ?_,Fin.ext ?_⟩
  · simp only [KernelHalf,hk]
    omega
  · rw [pml4Idx_val,pml4Idx_val,hk]
    omega
  · rw [pdptIdx_val,pdptIdx_val,hk]
    omega
  · rw [pdIdx_val,pdIdx_val,hk]
    omega

/-- Tables that a walk through PML4 index 256 or above reads are no user tables. -/
theorem kernel_mid (ho : Owned roots m) (hk : KernelApart roots m) (hr : roots m.cr3)
    (hplain : PlainKernelHalf m) (hva : 256 ≤ (pml4Idx va).val)
    (hmid : ∀ t ∈ midSlots m.mem m.cr3 va, present (m.mem t.1 t.2) = true) :
    ¬UserNode roots m.mem (pageOf (m.mem m.cr3 (pml4Idx va))) ∧
    ¬UserNode roots m.mem
      (pageOf (m.mem (pageOf (m.mem m.cr3 (pml4Idx va))) (pdptIdx va))) := by
  obtain ⟨k,hkk,k1,k2,k3⟩ := kernel_alias hva
  simp only [midSlots,List.mem_cons,List.not_mem_nil,or_false,forall_eq_or_imp,forall_eq] at hmid
  obtain ⟨p1,p2,p3⟩ := hmid
  obtain ⟨hpage,hhuge⟩ := hplain va hva p1
  have h2 := hhuge p2
  have hwalk := hk m.cr3 k hr hkk
  unfold hwTables at hwalk
  dsimp only at hwalk
  rw [k1,k2,k3,← hpage,p1,p2,h2] at hwalk
  simp only [Bool.not_true,Bool.false_eq_true,if_false,Bool.or_false] at hwalk
  constructor
  · apply (hwalk _ _).1
    split_ifs <;> simp
  · intro hn
    have hlt := lt_of_lt_of_le (ho.held _ hn).1 ho.limit
    have hfr := framePage_eq (m.mem (pageOf (m.mem m.cr3 (pml4Idx va))) (pdptIdx va))
    rw [Nat.mod_eq_of_lt hlt] at hfr
    rw [← hfr] at hn
    refine (hwalk _ ?_).1 hn
    split_ifs <;> simp

/-- When the kernel half is plain, unmapping within the task needs its live slots to be those of
lower-half pages of the range. -/
theorem rangeOwnsSlots_of_confined (ho : Owned roots m) (hk : KernelApart roots m)
    (hr : roots m.cr3) (hplain : PlainKernelHalf m) {addr len : BitVec 64}
    (haddr : addr &&& 0xFFF#64 = 0#64) (hlen : len ≠ 0#64)
    (hc : MunmapConfined roots m addr len) : RangeOwnsSlots m addr len := by
  have hrun : (sysMunmap m addr len).2 =
      (pageRange addr len).foldl (unmapPage true m.cr3) m := by
    simp only [sysMunmap,haddr,hlen,ne_eq,not_true_eq_false,or_self,if_false,vmmUnmapRange,
      vmmCurrent]
  have hcl := unmapPages_clears m.cr3 (pageRange addr len) m
  rw [← hrun] at hcl
  have hforest := ho.tables.forest
  -- a slot that was cleared is the leaf slot of a lower-half page of the range
  have howned : ∀ t : Nat × Fin 512, present (m.mem t.1 t.2) = true →
      (sysMunmap m addr len).2.mem t.1 t.2 = 0#64 →
      ∃ q ∈ pageRange addr len, LowerHalf q ∧ liveSlot m.mem m.cr3 q = some t := by
    intro t hp hz
    obtain ⟨n,i⟩ := t
    simp only at hp hz
    have hne : (sysMunmap m addr len).2.mem n i ≠ m.mem n i := by
      rw [hz]
      intro he
      rw [← he] at hp
      simp at hp
    obtain ⟨p,hlow,hn⟩ := hc.writes n i hne
    have hfol : follow entryNode m.mem m.cr3 (p++[i]) = some (framePage (m.mem n i)) := by
      rw [follow_entryAt,entryAt_table hn,entryNode_present hp]
    have hheld := ho.held _ ⟨m.cr3,p++[i],hr,hlow,hfol⟩
    have hgone : ¬(sysMunmap m addr len).2.pmm.Held (framePage (m.mem n i)) := by
      intro hh
      have hfr := hcl.freed n i hne hheld.1
      rw [hh.2] at hfr
      exact Bool.noConfusion hfr
    obtain ⟨q,hq,hql,x,hx,hpage⟩ := hc.frees _ hheld hgone
    rw [translate,if_pos (Or.inl hql),ho.tables.hwWalk_lower hr hql,leafXlat] at hx
    have hleaf : present (leafWord m.mem m.cr3 q) = true := by
      by_contra hno
      rw [if_neg hno] at hx
      exact absurd hx (by simp)
    rw [if_pos hleaf,Option.some.injEq] at hx
    have hqf : follow entryNode m.mem m.cr3 (tablePath q++[ptIdx q]) =
        some (framePage (m.mem n i)) := by
      rw [follow_leaf,entryNode_present hleaf,← hpage,← hx]
    have hpath := (hforest.unique m.cr3 m.cr3 _ _ _ hr hr hlow (lowerPath_va hql) hfol hqf).2
    have hsplit := List.append_inj' hpath rfl
    have hi : i = ptIdx q := by simpa using hsplit.2
    rw [hsplit.1] at hn
    refine ⟨q,hq,hql,?_⟩
    rw [hi]
    exact liveSlot_of_leaf ho.tables hr hql hn (hi ▸ hp)
  intro page hpage s hs
  obtain ⟨hmid,-,hpres⟩ := liveSlot_eq_some.mp hs
  cases hcl.zeroed.dead hs (hcl.dead page hpage) with
  | inl hz => exact howned s hpres hz
  | inr habove =>
    exfalso
    obtain ⟨t,ht,hz⟩ := habove
    obtain ⟨q,-,hql,hlive⟩ := howned t (hmid t ht) hz
    have hdeep := (liveSlot_lower ho.tables hr hql hlive).1
    have hlen3 : (tablePath q).length = 3 := rfl
    have hlow := (lowerPath_va hql).left
    -- a node of less than three slots' depth is not a page table
    have shallow : ∀ p, LowerPath p → p.length < 3 → follow entryNode m.mem m.cr3 p ≠ some t.1 := by
      intro p hp hlt hf
      have hpq := (hforest.unique m.cr3 m.cr3 p _ t.1 hr hr hp hlow hf hdeep).2
      rw [hpq] at hlt
      omega
    have hnode : UserNode roots m.mem t.1 := ⟨m.cr3,tablePath q,hr,hlow,hdeep⟩
    have hroot : t.1 ≠ m.cr3 := by
      intro he
      exact shallow [] lowerPath_nil (by simp) (he ▸ rfl)
    simp only [midSlots,List.mem_cons,List.not_mem_nil,or_false] at ht
    by_cases hi : (pml4Idx page).val < 256
    · have hp1 := hmid _ (List.mem_cons_self)
      have l1 : LowerPath ([]++[pml4Idx page]) := ⟨by simp,fun j hj => by
        simp only [List.nil_append,List.head?_cons,Option.mem_some_iff] at hj
        exact hj ▸ hi⟩
      cases ho.tables.step hr l1 (by simp) rfl with
      | inr hno =>
        simp only at hp1
        rw [hno.1] at hp1
        exact Bool.noConfusion hp1
      | inl hyes =>
        obtain ⟨f1,he1,hn1⟩ := hyes
        rw [he1.page] at ht
        have l2 : LowerPath ([]++[pml4Idx page]++[pdptIdx page]) := l1.snoc (by simp)
        rcases ht with rfl | rfl | rfl
        · exact hroot rfl
        · exact shallow _ l1 (by simp) hn1
        · cases ho.tables.step hr l2 (by simp) hn1 with
          | inr hno =>
            have hp2 := hmid (f1,pdptIdx page) (by
              simp [midSlots,he1.page])
            simp only at hp2
            rw [hno.1] at hp2
            exact Bool.noConfusion hp2
          | inl hyes =>
            obtain ⟨f2,he2,hn2⟩ := hyes
            have hn2' : follow entryNode m.mem m.cr3 ([]++[pml4Idx page]++[pdptIdx page]) =
                some (pageOf (m.mem f1 (pdptIdx page))) := by
              rw [hn2,he2.page]
            exact shallow _ l2 (by simp) hn2'
    · obtain ⟨hno1,hno2⟩ := kernel_mid ho hk hr hplain (by omega) hmid
      rcases ht with rfl | rfl | rfl
      · exact hroot rfl
      · exact hno1 hnode
      · exact hno2 hnode

/-- `SYS_MUNMAP` on any accepted arguments, in any state with well-formed user tables apart from
the kernel half. -/
theorem munmap_confined_iff (roots : Nat → Prop) (m : Machine) (addr len : BitVec 64)
    (ho : Owned roots m) (hk : KernelApart roots m) (hr : roots m.cr3)
    (haddr : addr &&& 0xFFF#64 = 0#64) (hlen : len ≠ 0#64) :
    (RangeOwnsSlots m addr len → MunmapConfined roots m addr len) ∧
    (PlainKernelHalf m → MunmapConfined roots m addr len → RangeOwnsSlots m addr len) :=
  ⟨munmap_confined ho hk hr,fun hp hc => rangeOwnsSlots_of_confined ho hk hr hp haddr hlen hc⟩

/-- `munmap(0xFFFF800000000000, 4096)` by a task unmaps a page of the kernel half. -/
theorem sysMunmap_kernel_page : Owned (· = 256) taskMachine ∧ KernelApart (· = 256) taskMachine ∧
    (sysMunmap taskMachine 0xFFFF800000000000#64 4096#64).1 = 0#64 ∧
    ¬MunmapConfined (· = 256) taskMachine 0xFFFF800000000000#64 4096#64 := by
  refine ⟨taskMachine_owned.1,taskMachine_apart,by decide,fun h => ?_⟩
  have hsame := h.kernel 256 rfl 0xFFFF800000000000#64 (by decide)
  exact absurd hsame (by decide)

/-- Two mapped pages of a task are unmapped. -/
theorem munmap_confined_iff_sample :
    (translate pagesMachine.mem 256 0x400000#64).isSome = true ∧
    (translate pagesMachine.mem 256 0x401000#64).isSome = true ∧
    MunmapConfined (· = 256) pagesMachine 0x400000#64 8192#64 := by
  obtain ⟨ho,hk,hcr3⟩ := pagesMachine_apart
  have hlow : ∀ page ∈ pageRange 0x400000#64 8192#64, LowerHalf page :=
    fun page => pageRange_lower (by decide) (by decide)
  exact ⟨by decide,by decide,(munmap_confined_iff (· = 256) pagesMachine 0x400000#64
    8192#64 ho hk hcr3 (by decide) (by decide)).1 (fun page hpage s hs => ⟨page,hpage,
      hlow page hpage,hs⟩)⟩

end KiNBOL
