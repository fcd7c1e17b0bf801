import KiNBOL.Kernel.ProcessIsolation
import KiNBOL.Mm.PageMapRun
import KiNBOL.Mm.UserRange

namespace KiNBOL

/-- The address lies on a page of the range. -/
def RangePage (addr len a : BitVec 64) : Prop :=
  ∃ b, addr.toNat ≤ b ∧ b < addr.toNat+len.toNat ∧ b/4096 = a.toNat/4096

/-- The page is mapped and user, and keeps its frame with the permissions of `prot`. -/
def Reprotected (m m' : Machine) (prot : BitVec 32) (a : BitVec 64) : Prop :=
  ∃ x, translate m.mem m.cr3 a = some x ∧ x.user = true ∧ translate m'.mem m.cr3 a =
    some ⟨x.page,decide (prot &&& 2#32 ≠ 0#32),true,decide (prot &&& 4#32 = 0#32)⟩

/-- All or nothing: the whole range changes its permissions and nothing else does, or nothing. -/
structure MprotectAtomic (rs : Nat → Prop) (m : Machine) (addr len : BitVec 64) (prot : BitVec 32) :
    Prop where
  done : (sysMprotect m addr len prot).1 = 0#64 → ∀ a, RangePage addr len a →
    Reprotected m (sysMprotect m addr len prot).2 prot a
  rest : (sysMprotect m addr len prot).1 = 0#64 → ∀ r a, rs r →
    ¬(r = m.cr3 ∧ RangePage addr len a) →
    translate (sysMprotect m addr len prot).2.mem r a = translate m.mem r a
  failed : (sysMprotect m addr len prot).1 ≠ 0#64 → ∀ r a, rs r →
    translate (sysMprotect m addr len prot).2.mem r a = translate m.mem r a

variable {K : Nat → Prop} {W : BitVec 64 → Option Xlat} {kpm pm : Nat} {roots : Nat → Prop}
  {rs : List PageRun} {m m' : Machine} {mem mem' : PhysMem}

theorem rangePage_iff {addr len a : BitVec 64} (hlen : len ≠ 0#64)
    (hend : addr.toNat+len.toNat ≤ 2^64) :
    RangePage addr len a ↔ a.toNat/4096 ∈ (pageRange addr len).map (fun p => p.toNat/4096) := by
  have hpos := pos_of_ne_zero hlen
  rw [List.mem_map]
  constructor
  · intro h
    obtain ⟨b,h1,h2,h3⟩ := h
    have hpage := toNat_pageMask a
    refine ⟨a &&& pageMask,(mem_pageRange_nat hlen hend).mpr ?_,?_⟩
    · omega
    · rw [hpage]
      omega
  · intro h
    obtain ⟨p,hp,he⟩ := h
    obtain ⟨h1,h2,h3⟩ := (mem_pageRange_nat hlen hend).mp hp
    by_cases hlow : addr.toNat ≤ p.toNat
    · exact ⟨p.toNat,hlow,by omega,he⟩
    · exact ⟨addr.toNat,le_refl _,by omega,by omega⟩

/-- On pages that are all mapped `vmm_protect` gets to the end, and each page keeps its frame. -/
theorem PageMap.protect_mapped {flags : BitVec 64} (hpres : has flags vmmPresent = true)
    (pages : List (BitVec 64)) (M : PageMap) (hm : ∀ p ∈ pages, ∃ x, M p = some x)
    (halike : ∀ p ∈ pages, ∀ w, w.toNat/4096 = p.toNat/4096 → M w = M p) :
    (M.protect flags pages).1 = 0 ∧ ∀ w, (M.protect flags pages).2 w =
      if w.toNat/4096 ∈ pages.map (fun p => p.toNat/4096) then
        (M w).bind (fun x => pageXlat x.page flags) else M w := by
  induction pages generalizing M with
  | nil => exact ⟨rfl,fun w => by simp [PageMap.protect]⟩
  | cons page rest ih =>
    obtain ⟨x,hx⟩ := hm page (by simp)
    have hnew : pageXlat x.page flags =
        some ⟨x.page,has flags vmmWrite,has flags vmmUser,has flags vmmNx⟩ := if_pos hpres
    rw [PageMap.protect,hx]
    have hput : ∀ w, M.put page (pageXlat x.page flags) w =
        if w.toNat/4096 = page.toNat/4096 then pageXlat x.page flags else M w := fun _ => rfl
    have hsame : ∀ w, w.toNat/4096 = page.toNat/4096 → M w = some x :=
      fun w hw => (halike page (by simp) w hw).trans hx
    obtain ⟨h1,h2⟩ := ih (M.put page (pageXlat x.page flags))
      (fun p hp => by
        rw [hput p]
        by_cases hs : p.toNat/4096 = page.toNat/4096
        · rw [if_pos hs,hnew]
          exact ⟨_,rfl⟩
        · rw [if_neg hs]
          exact hm p (by simp [hp]))
      (fun p hp w hw => by
        rw [hput,hput,hw]
        split_ifs
        · rfl
        · exact halike p (by simp [hp]) w hw)
    refine ⟨h1,fun w => ?_⟩
    rw [h2 w,hput w,List.map_cons]
    by_cases hs : w.toNat/4096 = page.toNat/4096
    · rw [if_pos hs,if_pos (show _ ∈ page.toNat/4096::_ by simp [hs]),hsame w hs,hnew,
        Option.bind_some,Option.bind_some,hnew]
      split_ifs <;> rfl
    · have hcons : w.toNat/4096 ∈ page.toNat/4096::rest.map (fun p => p.toNat/4096) ↔
          w.toNat/4096 ∈ rest.map (fun p => p.toNat/4096) := by
        simp [hs]
      simp only [if_neg hs,hcons]

/-- The tables of one pagemap among others. -/
theorem UserTables.only (h : UserTables roots mem) (hr : roots pm) : UserTables (· = pm) mem := by
  refine ⟨h.forest.roots_mono (fun r hrr => hrr ▸ hr),fun r p i hrr => ?_,fun r p i hrr => ?_⟩
  · exact h.mid r p i (hrr ▸ hr)
  · exact h.leaf r p i (hrr ▸ hr)

/-- A task's pagemap, seen by itself. -/
theorem Separate.paged (hs : Separate K W kpm roots rs m) (hr : roots pm) : Paged pm m.mem := by
  refine ⟨(hs.owned.tables.only hr).tree,fun va hva n hn hnode => ?_⟩
  obtain ⟨r,p,hrr,hp,hf⟩ := hnode.user
  have hk := hs.half pm va (Or.inl ⟨hr,hva⟩) n hn
  exact (hs.kernel n hk).1 ⟨r,p,hrr ▸ hr,hp,hf⟩

/-- Writes to the slots of one pagemap leave the lower halves of the others alone. -/
theorem Trimmed.others (ht : Trimmed roots pm mem mem') (h : UserTables roots mem) (hr : roots pm)
    {r : Nat} (hrr : roots r) (hne : r ≠ pm) {va : BitVec 64} (hva : LowerHalf va) :
    hwWalk mem' r va = hwWalk mem r va := by
  have hsame : ∀ q n i, q = r → TableSlot mem q n i → mem' n i = mem n i := by
    intro q n i hq hslot
    subst hq
    by_contra hw
    obtain ⟨p,hp,hf⟩ := ht.wrote n i hw
    obtain ⟨p',hp',hf'⟩ := hslot
    exact hne (h.forest.unique _ _ _ _ _ hrr hr hp'.left hp.left hf' hf).1
  obtain ⟨htab,-,hent⟩ := (h.only hrr).congr hsame
  rw [htab.hwWalk_lower rfl hva,(h.only hrr).hwWalk_lower rfl hva,leafWord,leafWord,
    hent r _ _ rfl (lowerPath_va hva)]

theorem mprotectFlags_has (prot : BitVec 32) :
    has (mprotectFlags prot) vmmPresent = true ∧
    has (mprotectFlags prot) vmmUser = true ∧
    has (mprotectFlags prot) vmmWrite = decide (prot &&& 2#32 ≠ 0#32) ∧
    has (mprotectFlags prot) vmmNx = decide (prot &&& 4#32 = 0#32) := by
  have hall : ∀ w x : Bool,
      let flags := vmmPresent ||| vmmUser ||| (if w then vmmWrite else 0#64) |||
        (if x then vmmNx else 0#64)
      has flags vmmPresent = true ∧ has flags vmmUser = true ∧ has flags vmmWrite = w ∧
        has flags vmmNx = x := by decide
  simpa only [mprotectFlags,decide_eq_true_eq] using
    hall (decide (prot &&& 2#32 ≠ 0#32)) (decide (prot &&& 4#32 = 0#32))

/-- What `mprotect` computes: an error and nothing written, or `vmm_protect` of the whole range. -/
theorem sysMprotect_cases (m : Machine) (addr len : BitVec 64) (prot : BitVec 32) :
    ((sysMprotect m addr len prot).1 ≠ 0#64 ∧ (sysMprotect m addr len prot).2 = m) ∨
    (len = 0#64 ∧ sysMprotect m addr len prot = (0#64,m)) ∨
    (len ≠ 0#64 ∧ vmmCheckUserRange m (some m.cr3) addr len false = true ∧
      sysMprotect m addr len prot =
        (if (vmmProtect m (some m.cr3) addr len (mprotectFlags prot)).1 ≠ 0 then -12#64 else 0#64,
          (vmmProtect m (some m.cr3) addr len (mprotectFlags prot)).2)) := by
  unfold sysMprotect
  dsimp only
  by_cases h1 : addr &&& 0xFFF#64 ≠ 0#64
  · rw [if_pos h1]
    exact Or.inl ⟨show -22#64 ≠ 0#64 by decide,rfl⟩
  rw [if_neg h1]
  by_cases h2 : len = 0#64
  · rw [if_pos h2]
    exact Or.inr (Or.inl ⟨h2,rfl⟩)
  rw [if_neg h2,vmmCurrent]
  cases h3 : vmmCheckUserRange m (some m.cr3) addr len false with
  | false => exact Or.inl ⟨show -12#64 ≠ 0#64 by decide,rfl⟩
  | true =>
    refine Or.inr (Or.inr ⟨h2,rfl,?_⟩)
    rw [if_neg (by simp)]
    split_ifs <;> rfl

/-- Every page of an accepted range is mapped for the user, so `vmm_protect` goes through and
re-flags just these pages. -/
theorem protect_checked (hs : Separate K W kpm roots rs m) (hr : roots m.cr3)
    {addr len flags : BitVec 64} (hpres : has flags vmmPresent = true) (hlen : len ≠ 0#64)
    (hl : LowerRange addr len)
    (hcheck : vmmCheckUserRange m (some m.cr3) addr len false = true) :
    (vmmProtect m (some m.cr3) addr len flags).1 = 0 ∧
    ∀ a, (RangePage addr len a → ∃ x, translate m.mem m.cr3 a = some x ∧ x.user = true ∧
        translate (vmmProtect m (some m.cr3) addr len flags).2.mem m.cr3 a =
          pageXlat x.page flags) ∧
      (¬RangePage addr len a →
        translate (vmmProtect m (some m.cr3) addr len flags).2.mem m.cr3 a =
          translate m.mem m.cr3 a) := by
  have hlow : ∀ p ∈ pageRange addr len, LowerHalf p := fun p hp => pageRange_lower hlen hl hp
  have hend : addr.toNat+len.toNat ≤ 2^64 := by
    unfold LowerRange at hl
    omega
  have hpaged := hs.paged hr
  have huser : ∀ p ∈ pageRange addr len,
      ∃ x, translate m.mem m.cr3 p = some x ∧ x.user = true := by
    intro p hp
    have hwalk := (checkUserRange_iff m m.cr3 false hlen (by unfold LowerRange at hl; omega)).mp
      hcheck p hp
    obtain ⟨x,hx,hu,-⟩ := (userWalk_iff_mapped hs.owned.tables hr false (hlow p hp)).mp hwalk
    exact ⟨x,hx,hu⟩
  obtain ⟨-,hact⟩ := protectPages_remaps flags (pageRange addr len) hlow hpaged
  obtain ⟨hzero,hview⟩ := PageMap.protect_mapped hpres (pageRange addr len)
    (translate m.mem m.cr3) (fun p hp => (huser p hp).imp (fun _ h => h.1))
    (fun p hp w hw => hpaged.page_alike (hlow p hp) hw)
  rw [← hact] at hzero hview
  simp only [vmmProtect,if_neg hlen]
  refine ⟨hzero,fun a => ⟨fun ha => ?_,fun ha => ?_⟩⟩
  · rw [rangePage_iff hlen hend] at ha
    obtain ⟨p,hp,he⟩ := List.mem_map.mp ha
    obtain ⟨x,hx,hu⟩ := huser p hp
    have hax : translate m.mem m.cr3 a = some x :=
      (hpaged.page_alike (hlow p hp) he.symm).trans hx
    refine ⟨x,hax,hu,?_⟩
    exact (hview a).trans (by rw [if_pos ha,hax,Option.bind_some])
  · rw [rangePage_iff hlen hend] at ha
    exact (hview a).trans (if_neg ha)

/-- `mprotect` on a lower-half range of a task: the whole range or nothing, in every pagemap. -/
theorem mprotect_atomic (hs : Separate K W kpm roots rs m) (hr : roots m.cr3) (addr len : BitVec 64)
    (hl : LowerRange addr len) (prot : BitVec 32) :
    MprotectAtomic (fun r => roots r ∨ r = kpm) m addr len prot := by
  rcases sysMprotect_cases m addr len prot with ⟨hres,hm⟩ | ⟨hz,hres⟩ | ⟨hlen,hcheck,hres⟩
  · exact ⟨fun h => absurd h hres,fun h => absurd h hres,fun _ r a _ => by rw [hm]⟩
  · refine ⟨fun _ a ha => ?_,fun _ r a _ _ => by rw [hres],fun h => absurd (by rw [hres]) h⟩
    obtain ⟨b,h1,h2,-⟩ := ha
    rw [hz] at h2
    simp only [BitVec.toNat_ofNat] at h2
    omega
  obtain ⟨hpres,huser,hwrite,hnx⟩ := mprotectFlags_has prot
  obtain ⟨hzero,hview⟩ := protect_checked hs hr hpres hlen hl hcheck
  rw [hzero,if_neg (by simp)] at hres
  obtain ⟨mem',hmem,ho',htrim,-⟩ := vmmProtect_trimmed hs.owned hr hl (mprotectFlags prot)
  have htouch := htrim.evolves.touches hs.owned hr ho'
  refine ⟨fun _ a ha => ?_,fun _ r a hroot hout => ?_,fun h => absurd (by rw [hres]) h⟩
  · obtain ⟨x,hx,hu,hafter⟩ := (hview a).1 ha
    refine ⟨x,hx,hu,?_⟩
    rw [hres,hafter,pageXlat,if_pos hpres,huser,hwrite,hnx]
  · rw [hres]
    dsimp only
    by_cases hself : r = m.cr3
    · rw [hself]
      exact (hview a).2 (fun ha => hout ⟨hself,ha⟩)
    rw [hmem]
    by_cases hlow : LowerHalf a
    · rw [translate,translate,if_pos (Or.inl hlow),if_pos (Or.inl hlow)]
      rcases hroot with hroot | hk
      · exact htrim.others hs.owned.tables hr hroot hself hlow
      · exact (hs.tables htouch (Or.inr hk)).1
    · refine translate_upper (fun w hw => ?_) hlow
      rcases hroot with hroot | hk
      · exact (hs.tables htouch (Or.inl ⟨hroot,hw⟩)).1
      · exact (hs.tables htouch (Or.inr hk)).1

/-- The grown heap page of a running task becomes read-only; no other address of it or of the
kernel's pagemap translates differently. -/
theorem mprotect_atomic_sample :
    MprotectAtomic (fun r => UserRoots sampleGrown.tasks r ∨ r = sampleBoot.cr3) sampleGrown.mach
      0x80000000#64 4096#64 4#32 ∧
    (sysMprotect sampleGrown.mach 0x80000000#64 4096#64 4#32).1 = 0#64 := by
  have hk := reach_invariant (KernelOk.schedInit sampleBoot_booted 0#64)
    (fun _ _ hk hs => hk.step hs) sampleGrown_steps
  exact ⟨mprotect_atomic hk.holds.apart sampleGrown_owned.2 0x80000000#64 4096#64
    (by unfold LowerRange; decide) 4#32,by decide⟩

end KiNBOL
