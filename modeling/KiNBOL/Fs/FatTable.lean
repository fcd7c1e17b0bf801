import KiNBOL.Fs.Layout

namespace KiNBOL

variable {v v' : Volume} {c : Nat}

/-- Writing one sector to several places. -/
def Volume.setAll (v : Volume) (lbas : List Nat) (s : Sector) : Volume :=
  { v with disk := fun a => if a ∈ lbas then s else v.disk a }

theorem foldl_writeSector (hq : v.io = []) (g : Nat → Nat) (l : List Nat) (s : Sector) :
    l.foldl (fun w f => (w.writeSector (g f) s).2) v = v.setAll (l.map g) s := by
  induction l generalizing v with
  | nil => simp [Volume.setAll]
  | cons f l ih =>
    have hq' : (v.setSector (g f) s).io = [] := hq
    rw [List.foldl_cons,Volume.writeSector_quiet hq,ih hq']
    simp only [Volume.setAll,Volume.setSector,List.map_cons,List.mem_cons]
    congr 1
    funext a
    by_cases h1 : a = g f <;> by_cases h2 : a ∈ l.map g <;> simp [h1,h2]

theorem DiskStep.setAll (v : Volume) (lbas : List Nat) (s : Sector) :
    DiskStep v (v.setAll lbas s) := by
  constructor <;> first | rfl | exact fun h => h

/-- The sectors that hold a FAT entry in the different copies. -/
def fatCopies (v : Volume) (c : Nat) : List Nat :=
  (List.range v.numFats).map (fun f => u32 (v.fatSector c+f*v.fatSize32))

theorem fatSetEntry_quiet (hq : v.io = []) (c x : Nat) :
    v.fatSetEntry c x = v.setAll (fatCopies v c)
      (put32 (v.disk (v.fatSector c)) (Volume.fatOffset c)
        (get32 (v.disk (v.fatSector c)) (Volume.fatOffset c)/2^28*2^28+x%2^28)) := by
  rw [Volume.fatSetEntry,Volume.readSector_quiet hq]
  exact foldl_writeSector hq _ _ _

/-- FAT copies lie in the FAT region, the first one where it is read. -/
theorem DiskLayout.mem_fatCopies (hl : DiskLayout v) (hc : c < v.totalClusters+2) (a : Nat) :
    a ∈ fatCopies v c ↔ ∃ f < v.numFats, a = v.fatStart+c/128+f*v.fatSize32 := by
  obtain ⟨hsec,hsize,-,-⟩ := hl.fatSector_eq hc
  have hbound : ∀ f < v.numFats, v.fatStart+c/128+f*v.fatSize32 < v.dataStart := by
    intro f hf
    have hle : (f+1)*v.fatSize32 ≤ v.numFats*v.fatSize32 := Nat.mul_le_mul_right _ hf
    rw [Nat.add_mul,Nat.one_mul] at hle
    rw [hl.data]
    omega
  have hlt : v.dataStart ≤ 2^32 := (Nat.le_add_right _ _).trans hl.sectors
  simp only [fatCopies,List.mem_map,List.mem_range,hsec]
  constructor
  · rintro ⟨f,hf,rfl⟩
    refine ⟨f,hf,?_⟩
    rw [u32,Nat.mod_eq_of_lt]
    have := hbound f hf
    omega
  · rintro ⟨f,hf,rfl⟩
    refine ⟨f,hf,?_⟩
    rw [u32,Nat.mod_eq_of_lt]
    have := hbound f hf
    omega

theorem DiskLayout.fatCopies_region (hl : DiskLayout v) (hc : c < v.totalClusters+2) {a : Nat}
    (ha : a ∈ fatCopies v c) : v.fatStart ≤ a ∧ a < v.dataStart := by
  obtain ⟨f,hf,rfl⟩ := (hl.mem_fatCopies hc a).mp ha
  obtain ⟨-,hsize,-,-⟩ := hl.fatSector_eq hc
  have hle : (f+1)*v.fatSize32 ≤ v.numFats*v.fatSize32 := Nat.mul_le_mul_right _ hf
  rw [Nat.add_mul,Nat.one_mul] at hle
  rw [hl.data]
  omega

/-- Another entry's sector is a copy of this one's only if it is the same sector. -/
theorem DiskLayout.fatSector_mem (hl : DiskLayout v) (hc : c < v.totalClusters+2) {d : Nat}
    (hd : d < v.totalClusters+2) : v.fatSector d ∈ fatCopies v c ↔ d/128 = c/128 := by
  obtain ⟨hsec,hsize,-,-⟩ := hl.fatSector_eq hd
  obtain ⟨-,hsize',-,-⟩ := hl.fatSector_eq hc
  rw [hl.mem_fatCopies hc,hsec]
  constructor
  · rintro ⟨f,hf,he⟩
    cases f with
    | zero => omega
    | succ f =>
      rw [Nat.add_mul,Nat.one_mul] at he
      have := Nat.zero_le (f*v.fatSize32)
      omega
  · intro he
    refine ⟨0,hl.fats,?_⟩
    omega

/-- `fat_set_entry` changes one entry and nothing outside the FAT region. -/
theorem fatSetEntry_spec (hq : v.io = []) (hl : DiskLayout v) (hc : c < v.totalClusters+2) (x : Nat) :
    DiskStep v (v.fatSetEntry c x) ∧
    (∀ d < v.totalClusters+2, fatAt (v.fatSetEntry c x) d = if d = c then x%2^28 else fatAt v d) ∧
    (∀ a, a < v.fatStart ∨ v.dataStart ≤ a → (v.fatSetEntry c x).disk a = v.disk a) ∧
    (v.fatSetEntry c x).nextFreeHint = v.nextFreeHint ∧
    (v.fatSetEntry c x).fsinfoFreeCount = v.fsinfoFreeCount := by
  rw [fatSetEntry_quiet hq]
  have hstep := DiskStep.setAll v (fatCopies v c) (put32 (v.disk (v.fatSector c))
    (Volume.fatOffset c) (get32 (v.disk (v.fatSector c)) (Volume.fatOffset c)/2^28*2^28+x%2^28))
  refine ⟨hstep,fun d hd => ?_,fun a ha => ?_,rfl,rfl⟩
  · obtain ⟨hsec,-,hoff,-⟩ := hl.fatSector_eq hc
    obtain ⟨hsec',-,hoff',-⟩ := hl.fatSector_eq hd
    rw [fatAt,hstep.fatSector]
    simp only [Volume.setAll]
    by_cases hs : d/128 = c/128
    · have hsame : v.fatSector d = v.fatSector c := by rw [hsec,hsec',hs]
      rw [if_pos ((hl.fatSector_mem hc hd).mpr hs)]
      by_cases hdc : d = c
      · rw [if_pos hdc,hdc,get32_put32,merged_entry]
      · rw [if_neg hdc,get32_put32_other (by omega),fatAt,hsame]
    · have hdc : d ≠ c := by
        rintro rfl
        exact hs rfl
      rw [if_neg (fun hm => hs ((hl.fatSector_mem hc hd).mp hm)),if_neg hdc,fatAt]
  · have hout : a ∉ fatCopies v c := by
      intro hm
      have := hl.fatCopies_region hc hm
      omega
    exact if_neg hout

/-- `fsinfo_save` writes nothing but the FSInfo sector. -/
theorem fsinfoSave_spec (hq : v.io = []) (hl : DiskLayout v) :
    DiskStep v v.fsinfoSave ∧ ∀ a, v.fatStart ≤ a → v.fsinfoSave.disk a = v.disk a := by
  rw [Volume.fsinfoSave]
  cases hv : v.fsinfoValid with
  | false => exact ⟨DiskStep.refl v,fun _ _ => rfl⟩
  | true =>
    rw [Volume.readSector_quiet hq]
    simp only [Bool.not_true,Bool.false_eq_true,if_false]
    by_cases hs : Volume.fsinfoSigned (v.disk v.fsinfoLba) = true
    · rw [if_pos hs,Volume.writeSector_quiet hq]
      refine ⟨DiskStep.setSector ..,fun a ha => ?_⟩
      have hlt := hl.fsinfo hv
      exact if_neg (by omega)
    · rw [if_neg hs]
      refine ⟨?_,fun _ _ => rfl⟩
      constructor <;> first | rfl | simp

/-- A step that touches no entry of the first FAT. -/
theorem fatAt_congr (h : DiskStep v v') (hd : v'.disk (v.fatSector c) = v.disk (v.fatSector c)) :
    fatAt v' c = fatAt v c := by
  rw [fatAt,fatAt,h.fatSector,hd]

/-- Taking a free cluster. -/
theorem takeCluster_spec (hq : v.io = []) (hl : DiskLayout v) (hc : InRange v c) :
    DiskStep v (v.takeCluster c) ∧
    (∀ d < v.totalClusters+2,
      fatAt (v.takeCluster c) d = if d = c then 0x0FFFFFFF else fatAt v d) ∧
    ∀ a, v.dataStart ≤ a → (v.takeCluster c).disk a = v.disk a := by
  obtain ⟨h1,hfat,hout,-,-⟩ := fatSetEntry_spec hq hl hc.2 0x0FFFFFFF
  rw [Volume.takeCluster]
  generalize v.fatSetEntry c 0x0FFFFFFF = w at *
  generalize (if w.fsinfoValid && decide (w.fsinfoFreeCount ≠ 0xFFFFFFFF) &&
    decide (0 < w.fsinfoFreeCount) then w.fsinfoFreeCount-1 else w.fsinfoFreeCount) = n
  have hfew := hl.few
  rw [endOfChain] at hfew
  obtain ⟨hc1,hc2⟩ := hc
  have hnext : 2 ≤ u32 (c+1) := by
    simp only [u32]
    omega
  obtain ⟨w2,hw2⟩ : ∃ w2, w2 = { w with nextFreeHint := u32 (c+1), fsinfoFreeCount := n } :=
    ⟨_,rfl⟩
  have h2 : DiskStep w w2 := by
    subst hw2
    constructor <;> first | rfl | exact fun h => h | exact fun _ => hnext
  have hdisk : w2.disk = w.disk := by rw [hw2]
  rw [← hw2]
  have h12 := h1.trans h2
  obtain ⟨h3,hsave⟩ := fsinfoSave_spec (h12.io.trans hq) (h12.layout hl)
  have hkeep : ∀ a, v.fatStart ≤ a → w2.fsinfoSave.disk a = w.disk a := by
    intro a ha
    rw [hsave a (by rw [h12.fatStart]; exact ha),hdisk]
  refine ⟨h12.trans h3,fun d hd => ?_,fun a ha => ?_⟩
  · obtain ⟨hsec,-,-,-⟩ := hl.fatSector_eq hd
    have h23 := h2.trans h3
    rw [fatAt_congr h23 (hkeep _ (by rw [h1.fatSector]; omega)),hfat d hd]
    rfl
  · have hle : v.fatStart ≤ a := by
      have := Nat.zero_le (v.numFats*v.fatSize32)
      have hdata := hl.data
      omega
    rw [hkeep a hle]
    exact hout a (Or.inr ha)

theorem findFree_quiet (hq : v.io = []) (l : List Nat) :
    Volume.findFree l v = (l.find? (fun c => fatAt v c = 0),v) := by
  induction l with
  | nil => rfl
  | cons c l ih =>
    rw [Volume.findFree,Volume.fatGetEntry_quiet hq,List.find?_cons]
    dsimp only
    by_cases h0 : fatAt v c = 0
    · rw [if_pos h0,decide_eq_true h0]
    · rw [if_neg h0,ih,decide_eq_false h0]

/-- What `fat32_alloc_cluster` comes to: the first free cluster from the hint on, then from the
beginning. -/
theorem allocCluster_eq (hq : v.io = []) (hl : DiskLayout v) : v.allocCluster =
    match (List.range' v.nextFreeHint (v.totalClusters+2-v.nextFreeHint)).find?
      (fun c => fatAt v c = 0) with
    | some c => (some c,v.takeCluster c)
    | none =>
      match (List.range' 2 (min v.nextFreeHint (v.totalClusters+2)-2)).find?
        (fun c => fatAt v c = 0) with
      | some c => (some c,v.takeCluster c)
      | none => (none,v) := by
  have hfew := hl.few
  have hhint := hl.hint
  rw [endOfChain] at hfew
  have hlim : u32 (v.totalClusters+2) = v.totalClusters+2 := by
    simp only [u32]
    omega
  simp only [Volume.allocCluster,hlim,findFree_quiet hq]
  split
  next h => rw [Prod.mk.injEq] at h; rw [h.1,h.2]
  next h =>
    rw [Prod.mk.injEq] at h
    have hmem := List.mem_range'_1.mp (List.mem_of_find?_eq_some h.1)
    omega
  next h =>
    rw [Prod.mk.injEq] at h
    rw [h.1,← h.2,findFree_quiet hq]
    split
    next h => rw [Prod.mk.injEq] at h; rw [h.1,h.2]
    next h => rw [Prod.mk.injEq] at h; rw [h.1,h.2]

/-- `fat32_alloc_cluster`: no cluster is free, or a free one becomes a chain of its own. -/
theorem allocCluster_spec (hq : v.io = []) (hl : DiskLayout v) :
    (v.allocCluster = (none,v) ∧ ∀ c, InRange v c → fatAt v c ≠ 0) ∨
    ∃ c v', v.allocCluster = (some c,v') ∧ InRange v c ∧ fatAt v c = 0 ∧ DiskStep v v' ∧
      (∀ d < v.totalClusters+2, fatAt v' d = if d = c then 0x0FFFFFFF else fatAt v d) ∧
      ∀ a, v.dataStart ≤ a → v'.disk a = v.disk a := by
  have hfew := hl.few
  have hhint := hl.hint
  rw [endOfChain] at hfew
  have hfound : ∀ c, InRange v c → fatAt v c = 0 → v.allocCluster = (some c,v.takeCluster c) →
      ∃ c v', v.allocCluster = (some c,v') ∧ InRange v c ∧ fatAt v c = 0 ∧ DiskStep v v' ∧
        (∀ d < v.totalClusters+2, fatAt v' d = if d = c then 0x0FFFFFFF else fatAt v d) ∧
        ∀ a, v.dataStart ≤ a → v'.disk a = v.disk a :=
    fun c hc h0 ha => ⟨c,_,ha,hc,h0,takeCluster_spec hq hl hc⟩
  have halloc := allocCluster_eq hq hl
  cases h1 : (List.range' v.nextFreeHint (v.totalClusters+2-v.nextFreeHint)).find?
      (fun c => fatAt v c = 0) with
  | some c =>
    right
    have hmem := List.mem_range'_1.mp (List.mem_of_find?_eq_some h1)
    have h0 : fatAt v c = 0 := by simpa using List.find?_some h1
    exact hfound c ⟨by omega,by omega⟩ h0 (by rw [halloc,h1])
  | none =>
    cases h2 : (List.range' 2 (min v.nextFreeHint (v.totalClusters+2)-2)).find?
        (fun c => fatAt v c = 0) with
    | some c =>
      right
      have hmem := List.mem_range'_1.mp (List.mem_of_find?_eq_some h2)
      have h0 : fatAt v c = 0 := by simpa using List.find?_some h2
      exact hfound c ⟨by omega,by omega⟩ h0 (by rw [halloc,h1,h2])
    | none =>
      left
      refine ⟨by rw [halloc,h1,h2],fun c hc h0 => ?_⟩
      obtain ⟨hc1,hc2⟩ := hc
      rw [List.find?_eq_none] at h1 h2
      by_cases hc3 : v.nextFreeHint ≤ c
      · exact h1 c (List.mem_range'_1.mpr ⟨hc3,by omega⟩) (decide_eq_true h0)
      · exact h2 c (List.mem_range'_1.mpr ⟨hc1,by omega⟩) (decide_eq_true h0)

end KiNBOL
