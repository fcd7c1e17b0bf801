import KiNBOL.Kernel.ProcessIsolation
import KiNBOL.Kernel.UserPages
import KiNBOL.Mm.UserRange

namespace KiNBOL

variable {roots : Nat → Prop} {k : Kernel} {t : Task} {m m' : Machine} {w addr : BitVec 64}

/-- The current task after writes to its fields. -/
theorem Kernel.self_updateSelf {f : Task → Task} (h : k.self = some t)
    (hf : ∀ s, (f s).addr = s.addr) : (k.updateSelf f).self = some (f t) := by
  obtain ⟨a,ha,hfind⟩ := Option.bind_eq_some_iff.mp h
  have haddr : t.addr = a := by simpa using List.find?_some hfind
  unfold Kernel.self Kernel.updateSelf
  simp only [ha,Option.bind_some]
  rw [List.find?_map]
  have hp : ((fun t : Task => t.addr == a) ∘ fun t => if some t.addr = some a then f t else t) =
      fun t => t.addr == a := by
    funext s
    simp only [Function.comp]
    split_ifs
    · rw [hf]
    · rfl
  rw [hp,hfind,Option.map_some,if_pos (by rw [haddr])]

theorem leafXlat_userData {f : Nat} (hf : f < frameLimit) :
    leafXlat (leafEntry (pageAddr f) vmmFlagsUserData) = some ⟨f,true,true,true⟩ := by
  obtain ⟨h0,h1,h2,h3⟩ := leafEntry_flags hf vmmFlagsUserData
  rw [leafXlat,present,h0,if_pos (by decide),framePage_leafEntry hf,h1,h2,h3,
    show has vmmFlagsUserData vmmWrite = true by decide,
    show has vmmFlagsUserData vmmUser = true by decide,
    show has vmmFlagsUserData vmmNx = true by decide]

/-- Lower-half translations go by the page-table entry. -/
theorem translate_lower (ho : Owned roots m) (hr : roots m.cr3) (hw : LowerHalf w) :
    translate m.mem m.cr3 w = leafXlat (leafWord m.mem m.cr3 w) := by
  rw [translate,if_pos (Or.inl hw),ho.tables.hwWalk_lower hr hw]

theorem FreshAt.translate (hf : FreshAt m m' w) (ho : Owned roots m) (ho' : Owned roots m')
    (hr : roots m.cr3) (hw : LowerHalf w) : ∃ f, m.pmm.Free f ∧
    translate m'.mem m.cr3 w = some ⟨f,true,true,true⟩ ∧ ∀ i, m'.mem f i = 0#64 := by
  obtain ⟨f,hfree,hleaf,hzero⟩ := hf
  refine ⟨f,hfree,?_,hzero⟩
  rw [KiNBOL.translate,if_pos (Or.inl hw),ho'.tables.hwWalk_lower hr hw,hleaf]
  exact leafXlat_userData (ho.free_lt hfree)

/-- What the loop makes of the translation. -/
theorem mapZeroedAll_translate (pages : List (BitVec 64)) (hl : ∀ va ∈ pages, LowerHalf va)
    (ho : Owned roots m) (hr : roots m.cr3) (hw : LowerHalf w) :
    (Reached m.mem m.cr3 m.pmm.room pages w → ∃ f, m.pmm.Free f ∧
      translate (mapZeroedAll pages m).2.mem m.cr3 w = some ⟨f,true,true,true⟩ ∧
      ∀ i, (mapZeroedAll pages m).2.mem f i = 0#64) ∧
    (¬Reached m.mem m.cr3 m.pmm.room pages w →
      translate (mapZeroedAll pages m).2.mem m.cr3 w = translate m.mem m.cr3 w) := by
  obtain ⟨ho',-⟩ := mapZeroedAll_evolves pages hl ho hr
  have hex := (mapZeroedAll_exact pages hl ho hr).2 w hw
  refine ⟨fun h => (hex.1 h).translate ho ho' hr hw,fun h => ?_⟩
  rw [translate,if_pos (Or.inl hw),ho'.tables.hwWalk_lower hr hw,translate_lower ho hr hw]
  exact congrArg leafXlat (hex.2 h)

/-- What `SYS_BRK` owes its caller: a new break with every byte below it mapped for writing, or the
old one and nothing changed. -/
def BrkContract (k : Kernel) (t : Task) (addr : BitVec 64) : Prop :=
  ((sysBrk k t addr).1 = addr ∧
    (∃ s, (sysBrk k t addr).2.self = some s ∧ s.userBrk = addr) ∧
    ∀ a : BitVec 64, t.userBrk.toNat ≤ a.toNat → a.toNat < addr.toNat →
      UserMapped (sysBrk k t addr).2.mem k.cr3 true a) ∨
  ((sysBrk k t addr).1 = t.userBrk ∧
    (∃ s, (sysBrk k t addr).2.self = some s ∧ s.userBrk = t.userBrk) ∧
    ∀ va, translate (sysBrk k t addr).2.mem k.cr3 va = translate k.mem k.cr3 va)

/-- The break does not move up, or it stays in the lower half and every byte it moves over is
writable already or lies on a page for which there is room. -/
def BrkRoom (k : Kernel) (t : Task) (addr : BitVec 64) : Prop :=
  ∀ a : BitVec 64, t.userBrk.toNat ≤ a.toNat → a.toNat < addr.toNat → LowerHalf a ∧
    (UserMapped k.mem k.cr3 true a ∨ Reached k.mem k.cr3 k.pmm.room (brkPages t addr) a)

/-- What the system call comes to when the break moves. -/
theorem sysBrk_moves (hself : k.self = some t) (haddr : userHeapStart ≤ addr)
    (hne : addr ≠ t.userBrk) :
    (sysBrk k t addr).1 = addr ∧ (∃ s, (sysBrk k t addr).2.self = some s ∧ s.userBrk = addr) ∧
    (sysBrk k t addr).2.mem = (mapZeroedAll (brkPages t addr) k.mach).2.mem := by
  have hz : ¬(addr = 0#64 ∨ addr = t.userBrk) := by
    rintro (h | h)
    · rw [h] at haddr
      exact absurd haddr (by decide)
    · exact hne h
  unfold sysBrk
  rw [if_neg hz,if_neg (BitVec.not_lt.mpr haddr)]
  have hs : (k.withMach (mapZeroedAll (brkPages t addr) k.mach).2).self = some t := hself
  exact ⟨rfl,⟨_,Kernel.self_updateSelf hs (fun _ => rfl),rfl⟩,rfl⟩

/-- `SYS_BRK` keeps its contract when there is room; it reports success in every case, so outside
the kernel half it keeps it only then. -/
theorem sysBrk_contract (ho : Owned roots k.mach) (hr : roots k.cr3) (hself : k.self = some t)
    (addr : BitVec 64) (haddr : userHeapStart ≤ addr) :
    (BrkRoom k t addr → BrkContract k t addr) ∧
    (¬KernelHalf t.userBrk → BrkContract k t addr → BrkRoom k t addr) := by
  by_cases hsame : addr = t.userBrk
  · have hres : sysBrk k t addr = (t.userBrk,k) := by
      rw [sysBrk,if_pos (Or.inr hsame)]
    constructor
    · intro _
      refine Or.inr ⟨by rw [hres],⟨t,by rw [hres]; exact hself,rfl⟩,fun va => by rw [hres]⟩
    · intro _ _ a h1 h2
      rw [hsame] at h2
      omega
  obtain ⟨hret,hbrk,hmem⟩ := sysBrk_moves hself haddr hsame
  -- in the lower half, an address is mapped afterwards if it was before or its page was reached
  have hexact : addr.toNat ≤ 2^47 → ∀ a : BitVec 64, LowerHalf a →
      (Reached k.mem k.cr3 k.pmm.room (brkPages t addr) a →
        UserMapped (sysBrk k t addr).2.mem k.cr3 true a) ∧
      (¬Reached k.mem k.cr3 k.pmm.room (brkPages t addr) a →
        (UserMapped (sysBrk k t addr).2.mem k.cr3 true a ↔ UserMapped k.mem k.cr3 true a)) := by
    intro htop a ha
    have hl : ∀ va ∈ brkPages t addr, LowerHalf va := fun va hva => brkPages_lower t htop hva
    obtain ⟨e1,e2⟩ := mapZeroedAll_translate _ hl ho hr ha
    rw [hmem]
    refine ⟨fun h => ?_,fun h => ?_⟩
    · obtain ⟨f,-,hx,-⟩ := e1 h
      exact ⟨_,hx,rfl,fun _ => rfl⟩
    · have hkept : translate (mapZeroedAll (brkPages t addr) k.mach).2.mem k.cr3 a =
          translate k.mem k.cr3 a := e2 h
      rw [UserMapped,UserMapped,hkept]
  constructor
  · intro hroom
    refine Or.inl ⟨hret,hbrk,fun a h1 h2 => ?_⟩
    obtain ⟨hlow,hcase⟩ := hroom a h1 h2
    have htop : addr.toNat ≤ 2^47 := by
      have hlast : (addr-1#64).toNat = addr.toNat-1 := by
        rw [BitVec.toNat_sub]
        have := addr.isLt
        simp only [BitVec.toNat_ofNat]
        omega
      have hle := (hroom (addr-1#64) (by omega) (by omega)).1
      simp only [LowerHalf] at hle
      omega
    obtain ⟨e1,e2⟩ := hexact htop a hlow
    by_cases hreach : Reached k.mem k.cr3 k.pmm.room (brkPages t addr) a
    · exact e1 hreach
    · exact (e2 hreach).mpr (hcase.resolve_right hreach)
  · intro hold hc a h1 h2
    have hgrown : ∀ a : BitVec 64, t.userBrk.toNat ≤ a.toNat → a.toNat < addr.toNat →
        UserMapped (sysBrk k t addr).2.mem k.cr3 true a := by
      rcases hc with ⟨-,-,hall⟩ | ⟨hret',-⟩
      · exact hall
      · exact absurd (hret.symm.trans hret') hsame
    have hcanon : ∀ a : BitVec 64, t.userBrk.toNat ≤ a.toNat → a.toNat < addr.toNat →
        LowerHalf a ∨ KernelHalf a := by
      intro a h1 h2
      obtain ⟨x,hx,-⟩ := hgrown a h1 h2
      rw [translate] at hx
      split_ifs at hx with hor
      exact hor
    have hstart : LowerHalf t.userBrk := by
      exact (hcanon t.userBrk (le_refl _) (by omega)).resolve_right hold
    have htop : addr.toNat ≤ 2^47 := by
      by_contra hbig
      have hmid : (BitVec.ofNat 64 (2^47)).toNat = 2^47 := by decide
      simp only [LowerHalf] at hstart
      rcases hcanon (BitVec.ofNat 64 (2^47)) (by omega) (by omega) with h | h
      · simp only [LowerHalf] at h
        omega
      · simp only [KernelHalf] at h
        omega
    have hlow : LowerHalf a := by
      simp only [LowerHalf]
      omega
    obtain ⟨-,e2⟩ := hexact htop a hlow
    refine ⟨hlow,?_⟩
    by_cases hreach : Reached k.mem k.cr3 k.pmm.room (brkPages t addr) a
    · exact Or.inr hreach
    · exact Or.inl ((e2 hreach).mp (hgrown a h1 h2))

theorem sysBrk_contract_sample :
    (BrkRoom sampleRunning sampleSelf 0x80001000#64 →
      BrkContract sampleRunning sampleSelf 0x80001000#64) ∧
    (¬KernelHalf sampleSelf.userBrk → BrkContract sampleRunning sampleSelf 0x80001000#64 →
      BrkRoom sampleRunning sampleSelf 0x80001000#64) :=
  sysBrk_contract sampleRunning_owned.1 sampleRunning_owned.2 (Option.some_get _).symm _
    (by decide)

/-- A task that asks for 64 pages where fewer are free gets its break and the last page is not
there. -/
theorem sysBrk_unmapped : ¬BrkContract sampleRunning sampleSelf 0x80040000#64 := by
  rintro (⟨-,-,hall⟩ | ⟨hret,-⟩)
  · obtain ⟨x,hx,-⟩ := hall 0x8003F000#64 (by decide) (by decide)
    have hnone : translate (sysBrk sampleRunning sampleSelf 0x80040000#64).2.mem sampleRunning.cr3
        0x8003F000#64 = none := by decide
    rw [hnone] at hx
    simp at hx
  · exact absurd hret (by decide)

end KiNBOL
