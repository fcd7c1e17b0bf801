import KiNBOL.Fs.View

namespace KiNBOL

variable {v v' v'' : Volume}

/-- A volume whose regions fit together: FSInfo before the FATs, the FATs before the data, an entry
for every cluster. -/
structure DiskLayout (v : Volume) : Prop where
  spc : 1 ≤ v.sectorsPerCluster
  fats : 1 ≤ v.numFats
  data : v.dataStart = v.fatStart+v.numFats*v.fatSize32
  entries : 4*(v.totalClusters+2) ≤ 512*v.fatSize32
  sectors : v.dataStart+v.totalClusters*v.sectorsPerCluster ≤ 2^32
  few : v.totalClusters+2 ≤ endOfChain
  fsinfo : v.fsinfoValid = true → v.fsinfoLba < v.fatStart
  hint : 2 ≤ v.nextFreeHint

/-- Clusters of the data region. -/
def InRange (v : Volume) (c : Nat) : Prop := 2 ≤ c ∧ c < v.totalClusters+2

theorem byteOf_toNat (x i : Nat) : (byteOf x i).toNat = x/256^i%256 := by
  rw [byteOf,BitVec.toNat_ofNat]

theorem get32_lt (s : Sector) (off : Nat) : get32 s off < 2^32 := by
  have h0 := (s off).isLt
  have h1 := (s (off+1)).isLt
  have h2 := (s (off+2)).isLt
  have h3 := (s (off+3)).isLt
  simp only [get32,le16]
  omega

theorem get32_put32 (s : Sector) (off x : Nat) : get32 (put32 s off x) off = x%2^32 := by
  have h : ∀ i < 4, put32 s off x (off+i) = byteOf x i := by
    intro i hi
    rw [put32,if_pos (by omega),Nat.add_sub_cancel_left]
  have h0 : put32 s off x off = byteOf x 0 := h 0 (by omega)
  rw [get32,h0,h 1 (by omega),h 2 (by omega),h 3 (by omega)]
  simp only [le16,byteOf_toNat]
  omega

theorem get32_put32_other {s : Sector} {off off' : Nat} (h : off'+4 ≤ off ∨ off+4 ≤ off') (x : Nat) :
    get32 (put32 s off x) off' = get32 s off' := by
  have h : ∀ i < 4, put32 s off x (off'+i) = s (off'+i) := by
    intro i hi
    rw [put32,if_neg (by omega)]
  have h0 : put32 s off x off' = s off' := h 0 (by omega)
  rw [get32,h0,h 1 (by omega),h 2 (by omega),h 3 (by omega),get32]

/-- What a FAT entry becomes when a value is merged into it. -/
theorem merged_entry (old x : Nat) :
    (old/2^28*2^28+x%2^28)%2^32%2^28 = x%2^28 := by
  omega

section

variable (hl : DiskLayout v) {c : Nat}

include hl

theorem DiskLayout.fatSector_eq (hc : c < v.totalClusters+2) :
    v.fatSector c = v.fatStart+c/128 ∧ c/128 < v.fatSize32 ∧
    Volume.fatOffset c = 4*(c%128) ∧ v.fatStart+c/128 < v.dataStart := by
  have hfew := hl.few
  have hent := hl.entries
  have hsec := hl.sectors
  have hdata := hl.data
  have hfats := hl.fats
  rw [endOfChain] at hfew
  have hsize : c/128 < v.fatSize32 := by omega
  have hlast : v.fatSize32 ≤ v.numFats*v.fatSize32 := Nat.le_mul_of_pos_left _ hfats
  have hlt : v.dataStart ≤ 2^32 := by
    have := Nat.zero_le (v.totalClusters*v.sectorsPerCluster)
    omega
  refine ⟨?_,hsize,?_,by omega⟩
  · simp only [Volume.fatSector,u32]
    omega
  · simp only [Volume.fatOffset,u32]
    omega

theorem DiskLayout.clusterToLba_eq (hc : InRange v c) :
    v.clusterToLba c = v.dataStart+(c-2)*v.sectorsPerCluster ∧
    v.dataStart+(c-2)*v.sectorsPerCluster+v.sectorsPerCluster ≤ 2^32 := by
  obtain ⟨h1,h2⟩ := hc
  have hsec := hl.sectors
  have hspc := hl.spc
  have hfew := hl.few
  rw [endOfChain] at hfew
  have hle : (c-2+1)*v.sectorsPerCluster ≤ v.totalClusters*v.sectorsPerCluster :=
    Nat.mul_le_mul_right _ (by omega)
  rw [Nat.add_mul,Nat.one_mul] at hle
  have hwrap : u32 (c+(2^32-2)) = c-2 := by
    simp only [u32]
    omega
  rw [Volume.clusterToLba,hwrap,u32,Nat.mod_eq_of_lt (by omega)]
  exact ⟨rfl,by omega⟩

end

/-- What an operation on the disk leaves alone: everything but the disk, the allocation hint and the
FSInfo copy. -/
structure DiskStep (v v' : Volume) : Prop where
  fatOk : v'.fatOk = v.fatOk
  spc : v'.sectorsPerCluster = v.sectorsPerCluster
  numFats : v'.numFats = v.numFats
  fatSize : v'.fatSize32 = v.fatSize32
  fatStart : v'.fatStart = v.fatStart
  dataStart : v'.dataStart = v.dataStart
  root : v'.rootCluster = v.rootCluster
  total : v'.totalClusters = v.totalClusters
  fsinfoLba : v'.fsinfoLba = v.fsinfoLba
  files : v'.files = v.files
  active : v'.active = v.active
  nodes : v'.nodes = v.nodes
  others : v'.others = v.others
  io : v'.io = v.io
  fsinfo : v'.fsinfoValid = true → v.fsinfoValid = true
  hint : 2 ≤ v.nextFreeHint → 2 ≤ v'.nextFreeHint

@[simp] theorem DiskStep.refl (v : Volume) : DiskStep v v := by
  constructor <;> first | rfl | exact fun h => h

theorem DiskStep.trans (h1 : DiskStep v v') (h2 : DiskStep v' v'') : DiskStep v v'' where
  fatOk := h2.fatOk.trans h1.fatOk
  spc := h2.spc.trans h1.spc
  numFats := h2.numFats.trans h1.numFats
  fatSize := h2.fatSize.trans h1.fatSize
  fatStart := h2.fatStart.trans h1.fatStart
  dataStart := h2.dataStart.trans h1.dataStart
  root := h2.root.trans h1.root
  total := h2.total.trans h1.total
  fsinfoLba := h2.fsinfoLba.trans h1.fsinfoLba
  files := h2.files.trans h1.files
  active := h2.active.trans h1.active
  nodes := h2.nodes.trans h1.nodes
  others := h2.others.trans h1.others
  io := h2.io.trans h1.io
  fsinfo := fun h => h1.fsinfo (h2.fsinfo h)
  hint := fun h => h2.hint (h1.hint h)

theorem DiskStep.setSector (v : Volume) (lba : Nat) (s : Sector) :
    DiskStep v (v.setSector lba s) := by
  constructor <;> first | rfl | exact fun h => h

section

variable (h : DiskStep v v')

include h

theorem DiskStep.layout (hl : DiskLayout v) : DiskLayout v' where
  spc := h.spc ▸ hl.spc
  fats := h.numFats ▸ hl.fats
  data := by rw [h.dataStart,h.fatStart,h.numFats,h.fatSize]; exact hl.data
  entries := by rw [h.total,h.fatSize]; exact hl.entries
  sectors := by rw [h.dataStart,h.total,h.spc]; exact hl.sectors
  few := by rw [h.total]; exact hl.few
  fsinfo := fun hv => by rw [h.fsinfoLba,h.fatStart]; exact hl.fsinfo (h.fsinfo hv)
  hint := h.hint hl.hint

theorem DiskStep.clusterToLba (c : Nat) : v'.clusterToLba c = v.clusterToLba c := by
  rw [Volume.clusterToLba,Volume.clusterToLba,h.dataStart,h.spc]

theorem DiskStep.fatSector (c : Nat) : v'.fatSector c = v.fatSector c := by
  rw [Volume.fatSector,Volume.fatSector,h.fatStart]

theorem DiskStep.slotLocs (c : Nat) : v'.slotLocs c = v.slotLocs c := by
  rw [Volume.slotLocs,Volume.slotLocs,Volume.clusterSize,Volume.clusterSize,h.clusterToLba,h.spc]

end

end KiNBOL
