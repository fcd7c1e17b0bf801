import KiNBOL.Fs.Mount
import KiNBOL.Framework.Chains

namespace KiNBOL

variable {v : Volume}

/-- The entry of a cluster in the first FAT. -/
def fatAt (v : Volume) (c : Nat) : Nat := get32 (v.disk (v.fatSector c)) (Volume.fatOffset c)%2^28

/-- Clusters that a chain walk visits. -/
def InChain (c : Nat) : Prop := 2 ≤ c ∧ c < endOfChain

/-- The clusters of a chain that a walk leaves. -/
def Walk (v : Volume) : Nat → List Nat → Prop := Chained (fatAt v) InChain (fun c => ¬InChain c)

theorem Walk.unique {c : Nat} {cs ds : List Nat} (h : Walk v c cs) (h' : Walk v c ds) : cs = ds :=
  Chained.unique (fun _ h1 h2 => h2 h1) h h'

/-- The bytes from a sector on. -/
def diskBytes (d : Disk) (lba : Nat) : Sector := fun k => d (u32 (lba+k/512)) (k%512)

namespace Volume

/-- The slots of a cluster. -/
def clusterSlots (v : Volume) (c : Nat) : List (Loc × Slot) :=
  (v.slotLocs c).map (fun loc => (loc,getSlot (v.disk loc.lba) loc.offset))

/-- The slots of a directory, in the order in which they are read. -/
def dirSlots (v : Volume) (cs : List Nat) : List (Loc × Slot) := cs.flatMap v.clusterSlots

/-- The sectors written by `write_sectors`. -/
def setSectors (v : Volume) (lba : Nat) (buf : Sector) : Nat → Volume
  | 0 => v
  | n+1 => (v.setSectors lba buf n).setSector (u32 (lba+n)) (fun k => buf (n*512+k))

section

variable (hq : v.io = [])

include hq

theorem readSector_quiet (lba : Nat) : v.readSector lba = (some (v.disk lba),v) := by
  rw [readSector,hq]

theorem writeSector_quiet (lba : Nat) (s : Sector) :
    v.writeSector lba s = (true,v.setSector lba s) := by
  rw [writeSector,hq]

theorem fatGetEntry_quiet (c : Nat) : v.fatGetEntry c = (fatAt v c,v) := by
  rw [fatGetEntry,readSector_quiet hq]
  rfl

theorem readSectors_quiet (lba n : Nat) : ∃ buf, v.readSectors lba n = (some buf,v) ∧
    ∀ k, k < n*512 → buf k = diskBytes v.disk lba k := by
  induction n with
  | zero => exact ⟨_,rfl,by omega⟩
  | succ n ih =>
    obtain ⟨buf,hread,hbuf⟩ := ih
    refine ⟨_,by rw [readSectors,hread]; dsimp only; rw [readSector_quiet hq],fun k hk => ?_⟩
    by_cases hn : k/512 = n
    · rw [if_pos hn,diskBytes,hn]
    · have hle : k/512 < n+1 := (Nat.div_lt_iff_lt_mul (by omega)).mpr hk
      have hlt : k/512 < n := by omega
      rw [if_neg hn,hbuf k ((Nat.div_lt_iff_lt_mul (by omega)).mp hlt)]

theorem writeSectors_quiet (lba : Nat) (buf : Sector) (n : Nat) :
    v.writeSectors lba buf n = (true,v.setSectors lba buf n) := by
  induction n with
  | zero => rfl
  | succ n ih =>
    have hq' : (v.setSectors lba buf n).io = [] := by
      clear ih
      induction n with
      | zero => exact hq
      | succ n ih => exact ih
    rw [writeSectors,ih]
    exact writeSector_quiet hq' ..

theorem readCluster_quiet (c : Nat) : ∃ buf, v.readCluster c = (some buf,v) ∧
    v.bufSlots c buf = v.clusterSlots c := by
  obtain ⟨buf,hread,hbuf⟩ := readSectors_quiet hq (v.clusterToLba c) v.sectorsPerCluster
  refine ⟨buf,hread,?_⟩
  rw [bufSlots,clusterSlots,slotLocs,List.map_map]
  apply List.map_congr_left
  intro j hj
  rw [List.mem_range,clusterSize] at hj
  simp only [Function.comp,Prod.mk.injEq,true_and]
  funext i
  have hi := i.isLt
  rw [getSlot,hbuf _ (by omega),diskBytes,getSlot]
  have h1 : (32*j+i.val)/512 = 32*j/512 := by omega
  have h2 : (32*j+i.val)%512 = 32*j%512+i.val := by omega
  rw [h1,h2]

end

theorem disk_setSectors (lba : Nat) (buf : Sector) (n : Nat) (hn : lba+n ≤ 2^32) (l : Nat) :
    (v.setSectors lba buf n).disk l =
      if lba ≤ l ∧ l < lba+n then fun k => buf ((l-lba)*512+k) else v.disk l := by
  induction n with
  | zero => rw [setSectors,if_neg (by omega)]
  | succ n ih =>
    rw [setSectors,setSector]
    dsimp only
    rw [u32,Nat.mod_eq_of_lt (by omega)]
    by_cases hl : l = lba+n
    · rw [if_pos hl,if_pos (by omega),hl,Nat.add_sub_cancel_left]
    · rw [if_neg hl,ih (by omega)]
      by_cases hin : lba ≤ l ∧ l < lba+n
      · rw [if_pos hin,if_pos (by omega)]
      · rw [if_neg hin,if_neg (by omega)]

end Volume

/-- Loop bodies over a list of clusters that leave the volume alone until they end the loop. -/
def overClusters {σ ρ : Type} (f : Nat → σ → ρ ⊕ σ) : List Nat → σ → ρ ⊕ σ
  | [],s => .inr s
  | c::cs,s =>
    match f c s with
    | .inl r => .inl r
    | .inr s => overClusters f cs s

/-- What a loop that writes only when it ends leaves. -/
def settle {σ ρ : Type} (v : Volume) : (ρ × Volume) ⊕ σ → (ρ ⊕ σ) × Volume
  | .inl (r,v') => (.inl r,v')
  | .inr s => (.inr s,v)

/-- A walk over a chain that ends. -/
theorem walkChain_walk {σ ρ : Type} {body : Nat → σ → Volume → (ρ ⊕ σ) × Volume}
    {f : Nat → σ → (ρ × Volume) ⊕ σ} (hq : v.io = [])
    (hbody : ∀ c s, body c s v = settle v (f c s))
    {fuel c : Nat} {cs : List Nat} (h : Walk v c cs) (hf : cs.length < fuel) (s : σ) :
    walkChain body fuel c s v = some (settle v (overClusters f cs s)) := by
  induction cs generalizing c fuel s with
  | nil =>
    obtain ⟨fuel,rfl⟩ : ∃ n, fuel = n+1 := ⟨fuel-1,by omega⟩
    have hout : ¬(2 ≤ c ∧ c < endOfChain) := h
    rw [walkChain,if_neg hout]
    rfl
  | cons x cs ih =>
    obtain ⟨rfl,hx,hcs⟩ := h
    obtain ⟨fuel,rfl⟩ : ∃ n, fuel = n+1 := ⟨fuel-1,by omega⟩
    have hin : 2 ≤ c ∧ c < endOfChain := hx
    rw [walkChain,if_pos hin,hbody,overClusters]
    cases f c s with
    | inl r => rfl
    | inr s' =>
      simp only [settle,Volume.fatGetEntry_quiet hq]
      exact ih hcs (by simpa using hf) s'

end KiNBOL
