import KiNBOL.Fs.AllocFaults
import KiNBOL.Fs.FileWrite
import Mathlib.Data.Set.Basic

namespace KiNBOL

/-! Which clusters the calls on directories touch, transfers may fail. -/

/-- Clusters for directories: the free ones are among them, and a link of one leads to one of them or
ends a walk. -/
structure Area (D : Set Nat) (v : Volume) : Prop where
  layout : DiskLayout v
  range : ∀ c ∈ D, InRange v c
  free : ∀ c, InRange v c → fatAt v c = 0 → c ∈ D
  link : ∀ c ∈ D, InChain (fatAt v c) → fatAt v c ∈ D

/-- A step that changes nothing in the other clusters. -/
structure Within (D : Set Nat) (v w : Volume) : Prop where
  kept : Kept v w
  area : Area D w
  fat : ∀ c, InRange v c → c ∉ D → fatAt w c = fatAt v c
  data : ∀ c, InRange v c → c ∉ D → ∀ a, InCluster v c a → w.disk a = v.disk a

/-- First clusters of directories. -/
def Hub (D : Set Nat) (c : Nat) : Prop := c ∈ D ∨ c < 2

/-- A sector of the area. -/
def InArea (D : Set Nat) (v : Volume) (a : Nat) : Prop := ∃ c ∈ D, InCluster v c a

variable {D : Set Nat} {b v w u : Volume} {c d x a fuel dir last needed : Nat} {k : Kmalloc}
  {loc : Loc} {leaf : CName}

instance (c : Nat) : Decidable (InChain c) := inferInstanceAs (Decidable (_ ∧ _))

theorem Kept.inRange (h : Kept v w) : InRange w c ↔ InRange v c := by rw [InRange,InRange,h.total]

theorem Kept.inCluster (h : Kept v w) : InCluster w c a ↔ InCluster v c a := by
  rw [InCluster,InCluster,h.dataStart,h.spc]

theorem Kept.fatSector (h : Kept v w) (c : Nat) : w.fatSector c = v.fatSector c := by
  rw [Volume.fatSector,Volume.fatSector,h.fatStart]

theorem Kept.clusterToLba (h : Kept v w) (c : Nat) : w.clusterToLba c = v.clusterToLba c := by
  rw [Volume.clusterToLba,Volume.clusterToLba,h.dataStart,h.spc]

theorem Kept.inArea (h : Kept v w) : InArea D w a ↔ InArea D v a := by
  simp only [InArea,h.inCluster]

theorem Kept.lbaToCluster (h : Kept v w) (a : Nat) : w.lbaToCluster a = v.lbaToCluster a := by
  rw [Volume.lbaToCluster,Volume.lbaToCluster,h.dataStart,h.spc]

theorem Hub.leads (h : Hub D c) (hc : InChain c) : c ∈ D := by
  rcases h with h | h
  · exact h
  · have := hc.1
    omega

theorem Hub.mono {D' : Set Nat} (h : Hub D c) (hD : D ⊆ D') : Hub D' c := h.imp (fun hc => hD hc) id

/-- The parts of the layout that are not in the tables. -/
theorem DiskLayout.kept (hl : DiskLayout v) (hk : Kept v w)
    (hf : w.fsinfoValid = true → v.fsinfoValid = true ∧ w.fsinfoLba = v.fsinfoLba)
    (hh : 2 ≤ w.nextFreeHint) : DiskLayout w where
  spc := hk.spc ▸ hl.spc
  fats := hk.numFats ▸ hl.fats
  data := by rw [hk.dataStart,hk.fatStart,hk.numFats,hk.fatSize]; exact hl.data
  entries := by rw [hk.total,hk.fatSize]; exact hl.entries
  sectors := by rw [hk.dataStart,hk.total,hk.spc]; exact hl.sectors
  few := by rw [hk.total]; exact hl.few
  fsinfo := fun hv => by
    obtain ⟨hv',hlba⟩ := hf hv
    rw [hlba,hk.fatStart]
    exact hl.fsinfo hv'
  hint := hh

theorem Within.refl (h : Area D v) : Within D v v :=
  ⟨.refl v,h,fun _ _ _ => rfl,fun _ _ _ _ _ => rfl⟩

theorem Within.trans (h1 : Within D v w) (h2 : Within D w u) : Within D v u where
  kept := h1.kept.trans h2.kept
  area := h2.area
  fat := fun c hc hD => (h2.fat c (h1.kept.inRange.mpr hc) hD).trans (h1.fat c hc hD)
  data := fun c hc hD a ha => (h2.data c (h1.kept.inRange.mpr hc) hD a
    (h1.kept.inCluster.mpr ha)).trans (h1.data c hc hD a ha)

/-- The first FAT as it was, and the data outside the area. -/
theorem Area.step (h : Area D v) (hk : Kept v w) (hl : DiskLayout w)
    (hd : ∀ a, v.fatStart ≤ a → ¬InArea D v a → w.disk a = v.disk a) : Within D v w := by
  have hfat : ∀ c, InRange v c → fatAt w c = fatAt v c := by
    intro c hc
    obtain ⟨hsec,-,-,hlt⟩ := h.layout.fatSector_eq hc.2
    rw [fatAt,fatAt,hk.fatSector,hd _ (by omega)]
    rintro ⟨d,-,hin⟩
    have := hin.data
    omega
  refine ⟨hk,⟨hl,fun c hc => hk.inRange.mpr (h.range c hc),fun c hc h0 => ?_,fun c hc hin => ?_⟩,
    fun c hc _ => hfat c hc,fun c hc hD a ha => hd a ?_ ?_⟩
  · have hc' := hk.inRange.mp hc
    exact h.free c hc' (hfat c hc' ▸ h0)
  · rw [hfat c (h.range c hc)] at hin ⊢
    exact h.link c hc hin
  · have := ha.data
    have := h.layout.data
    omega
  · rintro ⟨d,hdD,hin⟩
    exact hD (InCluster.unique hc.1 (h.range d hdD).1 ha hin ▸ hdD)

theorem OnlyIo.kept (h : OnlyIo v w) : Kept v w := by
  unfold OnlyIo at h
  rw [h]
  constructor <;> rfl

theorem OnlyIo.layout (h : OnlyIo v w) (hl : DiskLayout v) : DiskLayout w := by
  unfold OnlyIo at h
  rw [h]
  exact ⟨hl.spc,hl.fats,hl.data,hl.entries,hl.sectors,hl.few,hl.fsinfo,hl.hint⟩

theorem Area.onlyIo (h : Area D v) (ho : OnlyIo v w) : Within D v w :=
  h.step ho.kept (ho.layout h.layout) (fun a _ _ => by rw [ho.disk])

theorem Volume.writeSector_disk {a' : Nat} (s : Sector) (h : a' ≠ a) :
    (v.writeSector a s).2.disk a' = v.disk a' := by
  rw [writeSector_eq]
  split_ifs
  · exact if_neg h
  · rfl

theorem DiskLayout.writeSector (hl : DiskLayout v) (a : Nat) (s : Sector) :
    DiskLayout (v.writeSector a s).2 := by
  refine hl.kept (v.writeSector_kept a s) ?_ ?_ <;>
    (rw [Volume.writeSector_eq]; split_ifs <;> simp [Volume.setSector,Volume.used,hl.hint])

/-- A sector of the area written. -/
theorem Area.writeSector (h : Area D v) (ha : InArea D v a) (s : Sector) :
    Within D v (v.writeSector a s).2 := by
  refine h.step (v.writeSector_kept a s) (h.layout.writeSector a s) (fun a' _ hout => ?_)
  apply Volume.writeSector_disk
  rintro rfl
  exact hout ha

theorem Area.readSector (h : Area D v) (a : Nat) : Within D v (v.readSector a).2 :=
  h.onlyIo (v.readSector_only a).1

theorem Area.fatGetEntry (h : Area D v) (c : Nat) : Within D v (v.fatGetEntry c).2 :=
  h.onlyIo (v.fatGetEntry_only c).1

/-- The next cluster of a walk is in the area, or the walk ends. -/
theorem Area.next (h : Area D v) (hc : c ∈ D) (hin : InChain (v.fatGetEntry c).1) :
    (v.fatGetEntry c).1 ∈ D := by
  rcases (v.fatGetEntry_only c).2 with he | he
  · rw [he] at hin ⊢
    exact h.link c hc hin
  · rw [he] at hin
    exact absurd hin (by decide)

/-- A cluster of the area written, as far as the transfers go. -/
theorem Area.writeCluster (h : Area D v) (hc : c ∈ D) (buf : Sector) {n : Nat}
    (hn : n ≤ v.sectorsPerCluster) : Within D v (v.writeSectors (v.clusterToLba c) buf n).2 := by
  induction n with
  | zero => exact .refl h
  | succ n ih =>
    have hw := ih (by omega)
    obtain ⟨hlba,hle⟩ := h.layout.clusterToLba_eq (h.range c hc)
    have hin : InArea D v (u32 (v.clusterToLba c+n)) := by
      rw [hlba,u32,Nat.mod_eq_of_lt (by omega)]
      exact ⟨c,hc,by omega,by omega⟩
    rw [Volume.writeSectors]
    split
    next w heq =>
      rw [heq] at hw
      exact hw
    next w heq =>
      rw [heq] at hw
      exact hw.trans (hw.area.writeSector (hw.kept.inArea.mpr hin) _)

/-- One entry of the first FAT may change, and nothing outside the FATs. -/
theorem DiskLayout.fatSetEntry (hl : DiskLayout v) (hc : c < v.totalClusters+2) (x : Nat) :
    DiskLayout (v.fatSetEntry c x) ∧
    (∀ d < v.totalClusters+2, fatAt (v.fatSetEntry c x) d = fatAt v d ∨
      d = c ∧ fatAt (v.fatSetEntry c x) d = x%2^28) ∧
    ∀ a, v.dataStart ≤ a → (v.fatSetEntry c x).disk a = v.disk a := by
  obtain ⟨⟨n,heq⟩,hdisk⟩ := v.fatSetEntry_eq c x
  have hcopy : ∀ a, v.CopyWritten c a → a ∈ fatCopies v c := by
    rintro a ⟨-,f,hf,he,-⟩
    exact List.mem_map.mpr ⟨f,List.mem_range.mpr hf,he⟩
  refine ⟨?_,fun d hd => ?_,fun a ha => (hdisk a).2 (fun hw => ?_)⟩
  · refine hl.kept (v.fatSetEntry_kept c x) ?_ ?_ <;> rw [heq]
    · exact fun hv => ⟨hv,rfl⟩
    · exact hl.hint
  · obtain ⟨hsec,-,hoff,-⟩ := hl.fatSector_eq hc
    obtain ⟨hsec',-,hoff',-⟩ := hl.fatSector_eq hd
    rw [fatAt,(v.fatSetEntry_kept c x).fatSector]
    by_cases hw : v.CopyWritten c (v.fatSector d)
    · have hs : d/128 = c/128 := (hl.fatSector_mem hc hd).mp (hcopy _ hw)
      rw [(hdisk _).1 hw]
      by_cases hdc : d = c
      · right
        rw [hdc,get32_put32,merged_entry]
        exact ⟨rfl,rfl⟩
      · left
        have hsame : v.fatSector d = v.fatSector c := by rw [hsec,hsec',hs]
        rw [get32_put32_other (by omega),fatAt,hsame]
    · left
      rw [(hdisk _).2 hw,fatAt]
  · have := hl.fatCopies_region hc (hcopy a hw)
    omega

/-- The entry of a cluster of the area gets a link into it, or one that ends a walk. -/
theorem Area.fatSetEntry (h : Area D v) (hc : Hub D c)
    (hx : InChain (x%2^28) → x%2^28 ∈ D) : Within D v (v.fatSetEntry c x) := by
  have hlt : c < v.totalClusters+2 := by
    rcases hc with hc | hc
    · exact (h.range c hc).2
    · omega
  have hk := v.fatSetEntry_kept c x
  obtain ⟨hl,hfat,hout⟩ := h.layout.fatSetEntry hlt x
  have hother : ∀ d, InRange v d → d ∉ D → fatAt (v.fatSetEntry c x) d = fatAt v d := by
    intro d hd hD
    rcases hfat d hd.2 with he | ⟨rfl,-⟩
    · exact he
    · have := hd.1
      rcases hc with hc | hc
      · exact absurd hc hD
      · omega
  refine ⟨hk,⟨hl,fun d hd => hk.inRange.mpr (h.range d hd),fun d hd h0 => ?_,fun d hd hin => ?_⟩,
    hother,fun d hd hD a ha => hout a ha.data⟩
  · have hd' := hk.inRange.mp hd
    by_contra hD
    exact hD (h.free d hd' (hother d hd' hD ▸ h0))
  · rcases hfat d (h.range d hd).2 with he | ⟨-,he⟩
    · rw [he] at hin ⊢
      exact h.link d hd hin
    · rw [he] at hin ⊢
      exact hx hin

/-- New counts in the FSInfo copy, and a new hint. -/
theorem Area.counts (h : Area D v) {n m : Nat} (hn : 2 ≤ n) :
    Within D v { v with nextFreeHint := n, fsinfoFreeCount := m } := by
  have hk : Kept v { v with nextFreeHint := n, fsinfoFreeCount := m } := by constructor <;> rfl
  exact h.step hk (h.layout.kept hk (fun hv => ⟨hv,rfl⟩) hn) (fun _ _ _ => rfl)

theorem Area.fsinfoSave (h : Area D v) : Within D v v.fsinfoSave := by
  obtain ⟨hvalid,hlba,hhint⟩ := v.fsinfoSave_fields
  refine h.step v.fsinfoSave_kept (h.layout.kept v.fsinfoSave_kept
    (fun hv => ⟨hvalid hv,hlba⟩) (hhint ▸ h.layout.hint)) (fun a ha _ => ?_)
  apply v.fsinfoSave_disk
  rintro ⟨hv,rfl⟩
  have := h.layout.fsinfo hv
  omega

theorem Area.takeCluster (h : Area D v) (hc : c ∈ D) : Within D v (v.takeCluster c) := by
  have h1 : Within D v (v.fatSetEntry c 0x0FFFFFFF) :=
    h.fatSetEntry (Or.inl hc) (fun hin => absurd hin (by decide))
  have hr := h.range c hc
  have hfew := h.layout.few
  have hnext : 2 ≤ u32 (c+1) := by
    have := hr.1
    have := hr.2
    rw [endOfChain] at hfew
    simp only [u32]
    omega
  rw [Volume.takeCluster]
  refine (h1.trans (h1.area.counts hnext)).trans (Area.fsinfoSave ?_)
  exact (h1.area.counts hnext).area

/-- Clusters are taken from the area. -/
theorem Area.allocCluster (h : Area D v) : Within D v v.allocCluster.2 ∧
    ∀ c, v.allocCluster.1 = some c → c ∈ D := by
  have hused : ∀ n, Within D v (v.used n) := fun n => h.onlyIo rfl
  rcases allocCluster_cases h.layout.hint with ⟨j,c,hf,heq⟩ | ⟨-,heq⟩
  · have hfew := h.layout.few
    have hhint := h.layout.hint
    have hlim : u32 (v.totalClusters+2) = v.totalClusters+2 := by
      rw [endOfChain] at hfew
      simp only [u32]
      omega
    have hmem := List.mem_of_getElem? hf.there
    simp only [allocOrder,List.mem_append,List.mem_range'_1,hlim] at hmem
    have hc : c ∈ D := h.free c ⟨by omega,by omega⟩ hf.zero
    rw [heq]
    refine ⟨(hused _).trans ((hused _).area.takeCluster hc),fun c' hc' => ?_⟩
    rw [← Option.some.inj hc']
    exact hc
  · rw [heq]
    exact ⟨hused _,fun c hc => by simp at hc⟩

/-- A directory grows in the area. -/
theorem Area.extendDir (h : Area D v) (hlast : Hub D last) : Within D v (v.extendDir last).2 ∧
    ∀ c, (v.extendDir last).1 = some c → c ∈ D := by
  obtain ⟨ha,hin⟩ := h.allocCluster
  rw [Volume.extendDir]
  split
  next w heq =>
    rw [heq] at ha
    exact ⟨ha,fun c hc => by simp at hc⟩
  next newc w heq =>
    rw [heq] at ha hin
    have hc : newc ∈ D := hin newc rfl
    have hsmall : newc%2^28 = newc := by
      have := (h.range newc hc).2
      have := h.layout.few
      rw [endOfChain] at this
      omega
    have h2 : Within D v (w.fatSetEntry last newc) :=
      ha.trans (ha.area.fatSetEntry hlast (fun _ => hsmall.symm ▸ hc))
    have h3 := h2.trans (h2.area.fatSetEntry (x := 0x0FFFFFFF) (Or.inl hc)
      (fun hin => absurd hin (by decide)))
    have h4 := h3.trans (h3.area.writeCluster hc (fun _ => 0#8) (le_refl _))
    dsimp only
    split
    next heq' =>
      rw [heq'] at h4
      exact ⟨h4,fun c hc => by simp at hc⟩
    next heq' =>
      rw [heq'] at h4
      exact ⟨h4,fun c hc' => Option.some.inj hc' ▸ hc⟩

end KiNBOL
