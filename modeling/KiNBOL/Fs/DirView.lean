import KiNBOL.Fs.FatTable

namespace KiNBOL

variable {v v' : Volume} {c d : Nat} {loc loc' : Loc} {e : Slot}

/-- The slot at a location. -/
def dirSlotAt (v : Volume) (loc : Loc) : Slot := getSlot (v.disk loc.lba) loc.offset

theorem clusterSlots_eq (v : Volume) (c : Nat) :
    v.clusterSlots c = (v.slotLocs c).map (fun loc => (loc,dirSlotAt v loc)) := rfl

/-- Locations of directory slots. -/
def Loc.Aligned (loc : Loc) : Prop := 32 ∣ loc.offset ∧ loc.offset < 512

/-- Sectors of a cluster. -/
def InCluster (v : Volume) (c a : Nat) : Prop :=
  v.dataStart+(c-2)*v.sectorsPerCluster ≤ a ∧
  a < v.dataStart+(c-2)*v.sectorsPerCluster+v.sectorsPerCluster

instance (v : Volume) (c a : Nat) : Decidable (InCluster v c a) :=
  inferInstanceAs (Decidable (_ ∧ _))

theorem InCluster.unique {a : Nat} (hc : 2 ≤ c) (hd : 2 ≤ d) (h : InCluster v c a)
    (h' : InCluster v d a) : c = d := by
  obtain ⟨h1,h2⟩ := h
  obtain ⟨h3,h4⟩ := h'
  by_contra hne
  rcases Nat.lt_or_gt_of_ne hne with hlt | hlt
  · have hle : (c-2+1)*v.sectorsPerCluster ≤ (d-2)*v.sectorsPerCluster :=
      Nat.mul_le_mul_right _ (by omega)
    rw [Nat.add_mul,Nat.one_mul] at hle
    omega
  · have hle : (d-2+1)*v.sectorsPerCluster ≤ (c-2)*v.sectorsPerCluster :=
      Nat.mul_le_mul_right _ (by omega)
    rw [Nat.add_mul,Nat.one_mul] at hle
    omega

theorem InCluster.data {a : Nat} (h : InCluster v c a) : v.dataStart ≤ a := by
  have := Nat.zero_le ((c-2)*v.sectorsPerCluster)
  have := h.1
  omega

/-- The `j`-th slot of a cluster. -/
def locOf (v : Volume) (c j : Nat) : Loc :=
  ⟨v.dataStart+(c-2)*v.sectorsPerCluster+j/16,32*(j%16)⟩

theorem locOf_inj {i j : Nat} (h : locOf v c i = locOf v c j) : i = j := by
  simp only [locOf,Loc.mk.injEq] at h
  omega

theorem DiskLayout.slotLocs_eq (hl : DiskLayout v) (hc : InRange v c) :
    v.slotLocs c = (List.range (16*v.sectorsPerCluster)).map (locOf v c) := by
  obtain ⟨heq,hle⟩ := hl.clusterToLba_eq hc
  have hsize : v.clusterSize/32 = 16*v.sectorsPerCluster := by
    rw [Volume.clusterSize]
    omega
  rw [Volume.slotLocs,hsize]
  apply List.map_congr_left
  intro j hj
  rw [List.mem_range] at hj
  simp only [locOf,heq,u32,Loc.mk.injEq]
  omega

theorem DiskLayout.mem_slotLocs (hl : DiskLayout v) (hc : InRange v c) :
    loc ∈ v.slotLocs c ↔ InCluster v c loc.lba ∧ loc.Aligned := by
  rw [hl.slotLocs_eq hc,List.mem_map]
  constructor
  · rintro ⟨j,hj,rfl⟩
    rw [List.mem_range] at hj
    simp only [locOf,InCluster,Loc.Aligned]
    omega
  · rintro ⟨⟨h1,h2⟩,⟨k,hk⟩,h4⟩
    refine ⟨16*(loc.lba-(v.dataStart+(c-2)*v.sectorsPerCluster))+k,?_,?_⟩
    · rw [List.mem_range]
      omega
    · simp only [locOf]
      rw [Loc.mk.injEq]
      omega

theorem DiskLayout.slotLocs_nodup (hl : DiskLayout v) (hc : InRange v c) : (v.slotLocs c).Nodup := by
  rw [hl.slotLocs_eq hc]
  exact List.nodup_range.map (fun _ _ h => locOf_inj h)

theorem DiskLayout.slotLocs_apart (hl : DiskLayout v) (hc : InRange v c) (hd : InRange v d)
    (h : loc ∈ v.slotLocs c) (h' : loc ∈ v.slotLocs d) : c = d :=
  InCluster.unique hc.1 hd.1 ((hl.mem_slotLocs hc).mp h).1 ((hl.mem_slotLocs hd).mp h').1

/-- A slot's sector gives its cluster back. -/
theorem DiskLayout.lbaToCluster_eq (hl : DiskLayout v) (hc : InRange v c) {a : Nat}
    (h : InCluster v c a) : v.lbaToCluster a = c := by
  have hspc := hl.spc
  have hfew := hl.few
  obtain ⟨h1,h2⟩ := h
  obtain ⟨hc1,hc2⟩ := hc
  rw [endOfChain] at hfew
  have hge : v.dataStart ≤ a := by
    have := Nat.zero_le ((c-2)*v.sectorsPerCluster)
    omega
  have hdiv : (a-v.dataStart)/v.sectorsPerCluster = c-2 := by
    rw [Nat.div_eq_iff hspc]
    constructor <;> omega
  rw [Volume.lbaToCluster,if_neg (by omega),hdiv,u32]
  omega

/-- Writing a slot. -/
def Volume.putAt (v : Volume) (loc : Loc) (e : Slot) : Volume :=
  v.setSector loc.lba (putSlot (v.disk loc.lba) loc.offset e)

theorem writeSlot_quiet (hq : v.io = []) (loc : Loc) (e : Slot) :
    v.writeSlot loc e = (true,v.putAt loc e) := by
  rw [Volume.writeSlot,Volume.readSector_quiet hq]
  exact Volume.writeSector_quiet hq ..

theorem DiskStep.putAt (v : Volume) (loc : Loc) (e : Slot) : DiskStep v (v.putAt loc e) :=
  DiskStep.setSector ..

theorem getSlot_putSlot (s : Sector) (off : Nat) (e : Slot) : getSlot (putSlot s off e) off = e := by
  funext i
  have hi := i.isLt
  rw [getSlot,putSlot,dif_pos (by omega)]
  congr 1
  exact Fin.ext (by simp)

theorem getSlot_putSlot_other {s : Sector} {off off' : Nat} (h : off'+32 ≤ off ∨ off+32 ≤ off')
    (e : Slot) : getSlot (putSlot s off e) off' = getSlot s off' := by
  funext i
  have hi := i.isLt
  rw [getSlot,putSlot,dif_neg (by omega),getSlot]

theorem slotAt_putAt (h : loc.Aligned) (h' : loc'.Aligned) (e : Slot) :
    dirSlotAt (v.putAt loc e) loc' = if loc' = loc then e else dirSlotAt v loc' := by
  obtain ⟨l,o⟩ := loc
  obtain ⟨l',o'⟩ := loc'
  obtain ⟨⟨i,hi⟩,hlt⟩ := h
  obtain ⟨⟨j,hj⟩,hlt'⟩ := h'
  dsimp only at hi hj
  simp only [dirSlotAt,Volume.putAt,Volume.setSector,Loc.mk.injEq]
  by_cases hl : l' = l
  · subst hl
    rw [if_pos rfl]
    by_cases ho : o' = o
    · rw [if_pos ⟨rfl,ho⟩,ho,getSlot_putSlot]
    · rw [if_neg (fun hh => ho hh.2),getSlot_putSlot_other (by omega)]
  · rw [if_neg hl,if_neg (fun hh => hl hh.1)]

/-- Sectors outside the data region keep their contents. -/
theorem disk_putAt_other {a : Nat} (h : a ≠ loc.lba) : (v.putAt loc e).disk a = v.disk a := if_neg h

/-- Writes to the data region leave the FAT alone. -/
theorem fatAt_data (hl : DiskLayout v) (hs : DiskStep v v')
    (hd : ∀ a, a < v.dataStart → v'.disk a = v.disk a) (hc : c < v.totalClusters+2) :
    fatAt v' c = fatAt v c := by
  obtain ⟨hsec,-,-,hlt⟩ := hl.fatSector_eq hc
  exact fatAt_congr hs (hd _ (by omega))

theorem fatAt_putAt (hl : DiskLayout v) (hloc : v.dataStart ≤ loc.lba) (hc : c < v.totalClusters+2) :
    fatAt (v.putAt loc e) c = fatAt v c :=
  fatAt_data hl (DiskStep.putAt v loc e) (fun _ ha => disk_putAt_other (by omega)) hc

/-- What `write_sectors` makes of a cluster. -/
theorem DiskLayout.disk_setCluster (hl : DiskLayout v) (hc : InRange v c) (buf : Sector) (a : Nat) :
    (v.setSectors (v.clusterToLba c) buf v.sectorsPerCluster).disk a =
      if InCluster v c a then
        fun k => buf ((a-(v.dataStart+(c-2)*v.sectorsPerCluster))*512+k)
      else v.disk a := by
  obtain ⟨heq,hle⟩ := hl.clusterToLba_eq hc
  rw [heq,Volume.disk_setSectors _ _ _ hle]
  rfl

theorem DiskStep.setSectors (v : Volume) (lba : Nat) (buf : Sector) (n : Nat) :
    DiskStep v (v.setSectors lba buf n) := by
  induction n with
  | zero => exact DiskStep.refl v
  | succ n ih => exact ih.trans (DiskStep.setSector ..)

theorem setSectors_hint (v : Volume) (lba : Nat) (buf : Sector) (n : Nat) :
    (v.setSectors lba buf n).nextFreeHint = v.nextFreeHint := by
  induction n with
  | zero => rfl
  | succ n ih => exact ih

/-- A zeroed cluster was linked behind `last`. -/
structure DirGrown (v v' : Volume) (last newc : Nat) : Prop where
  range : InRange v newc
  free : fatAt v newc = 0
  step : DiskStep v v'
  fat : ∀ d < v.totalClusters+2, fatAt v' d =
    if d = newc then 0x0FFFFFFF else if d = last then newc else fatAt v d
  disk : ∀ a, v.dataStart ≤ a → v'.disk a = if InCluster v newc a then fun _ => 0#8 else v.disk a

/-- A directory grows by a cluster, or none is free. -/
theorem extendDir_spec (hq : v.io = []) (hl : DiskLayout v) {last : Nat}
    (hlast : last < v.totalClusters+2) :
    (v.extendDir last = (none,v) ∧ ∀ c, InRange v c → fatAt v c ≠ 0) ∨
    ∃ newc v', v.extendDir last = (some newc,v') ∧ DirGrown v v' last newc := by
  rcases allocCluster_spec hq hl with ⟨hno,hfull⟩ | ⟨newc,v1,halloc,hc,h0,hs1,hfat1,hd1⟩
  · left
    exact ⟨by rw [Volume.extendDir,hno],hfull⟩
  · right
    have hq1 := hs1.io.trans hq
    have hl1 := hs1.layout hl
    have htot1 := hs1.total
    obtain ⟨hs2,hfat2,hd2,-,-⟩ :=
      fatSetEntry_spec hq1 hl1 (c := last) (htot1.symm ▸ hlast) newc
    have hs12 := hs1.trans hs2
    have hq2 := hs12.io.trans hq
    have hl2 := hs12.layout hl
    obtain ⟨hs3,hfat3,hd3,-,-⟩ :=
      fatSetEntry_spec hq2 hl2 (c := newc) (hs12.total.symm ▸ hc.2) 0x0FFFFFFF
    generalize hw2 : v1.fatSetEntry last newc = v2 at *
    generalize hw3 : v2.fatSetEntry newc 0x0FFFFFFF = v3 at *
    have hs123 := hs12.trans hs3
    have hq3 := hs123.io.trans hq
    have hl3 := hs123.layout hl
    have hc3 : InRange v3 newc := ⟨hc.1,hs123.total.symm ▸ hc.2⟩
    have hdisk := hl3.disk_setCluster hc3 (fun _ => 0#8)
    have hs4 := DiskStep.setSectors v3 (v3.clusterToLba newc) (fun _ => 0#8) v3.sectorsPerCluster
    have hcl : ∀ a, InCluster v3 newc a ↔ InCluster v newc a := by
      intro a
      rw [InCluster,InCluster,hs123.dataStart,hs123.spc]
    have hsmall : newc%2^28 = newc := by
      have hfew := hl.few
      have := hc.2
      rw [endOfChain] at hfew
      omega
    refine ⟨newc,_,?_,⟨hc,h0,hs123.trans hs4,fun d hd => ?_,fun a ha => ?_⟩⟩
    · rw [Volume.extendDir,halloc]
      simp only [hw2,hw3,Volume.writeSectors_quiet hq3]
    · have hdata : ∀ a, a < v3.dataStart →
          (v3.setSectors (v3.clusterToLba newc) (fun _ => 0#8) v3.sectorsPerCluster).disk a =
            v3.disk a := by
        intro a ha
        rw [hdisk,if_neg]
        intro hin
        have := hin.data
        omega
      rw [fatAt_data hl3 hs4 hdata (by rw [hs123.total]; exact hd),
        hfat3 d (by rw [hs12.total]; exact hd),hfat2 d (by rw [htot1]; exact hd),hfat1 d hd,hsmall]
      by_cases h1 : d = newc
      · rw [if_pos h1,if_pos h1]
        rfl
      · rw [if_neg h1,if_neg h1,if_neg h1]
    · rw [hdisk a]
      by_cases hin : InCluster v newc a
      · rw [if_pos hin,if_pos ((hcl a).mpr hin)]
      · rw [if_neg hin,if_neg (fun hh => hin ((hcl a).mp hh)),
          hd3 a (Or.inr (by rw [hs12.dataStart]; exact ha)),
          hd2 a (Or.inr (by rw [hs1.dataStart]; exact ha)),hd1 a ha]

end KiNBOL
