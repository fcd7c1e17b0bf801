import KiNBOL.Fs.Slot

namespace KiNBOL

abbrev Sector := Nat → Byte

/-- Sectors by block address. -/
abbrev Disk := Nat → Sector

def u32 (x : Nat) : Nat := x%2^32

/-- A little-endian word of a sector. -/
def get32 (s : Sector) (off : Nat) : Nat :=
  le16 (s off) (s (off+1))+65536*le16 (s (off+2)) (s (off+3))

def put32 (s : Sector) (off x : Nat) : Sector :=
  fun i => if off ≤ i ∧ i < off+4 then byteOf x (i-off) else s i

/-- The directory slot at an offset. -/
def getSlot (s : Sector) (off : Nat) : Slot := fun i => s (off+i)

def putSlot (s : Sector) (off : Nat) (e : Slot) : Sector :=
  fun i => if h : off ≤ i ∧ i < off+32 then e ⟨i-off,by omega⟩ else s i

/-- `fat32_file_ctx_t`. -/
structure FileCtx where
  startCluster : Nat
  direntSector : Nat
  direntOffset : Nat
  deriving DecidableEq

def vfsFile : BitVec 32 := 0x01#32
def vfsDirectory : BitVec 32 := 0x02#32

/-- `vfs_node_t`; only directory and file nodes of the driver have a context. -/
structure FsNode where
  name : CName
  flags : BitVec 32
  size : Nat
  device : Option FileCtx
  deriving DecidableEq

/-- A registered node: one outside the driver, or a slot of `fat_files`. -/
inductive NodeRef where
  | other (i : Nat)
  | file (i : Fin 40)
  deriving DecidableEq

def fat32MaxFiles : Nat := 40
def vfsMaxNodes : Nat := 64

/-- The driver's globals, the VFS table, the disk, and the outcomes of the coming sector transfers,
which succeed once the list is used up. -/
structure Volume where
  fatOk : Bool
  sectorsPerCluster : Nat
  numFats : Nat
  fatSize32 : Nat
  fatStart : Nat
  dataStart : Nat
  rootCluster : Nat
  totalClusters : Nat
  nextFreeHint : Nat
  fsinfoLba : Nat
  fsinfoValid : Bool
  fsinfoFreeCount : Nat
  files : Fin 40 → Option FsNode
  active : Nat
  nodes : List NodeRef
  others : Nat → FsNode
  disk : Disk
  io : List Bool

/-- First cluster number that ends a chain. -/
def endOfChain : Nat := 0x0FFFFFF8

namespace Volume

/-- `ahci_read_sector`. -/
def readSector (v : Volume) (lba : Nat) : Option Sector × Volume :=
  match v.io with
  | [] => (some (v.disk lba),v)
  | true::io => (some (v.disk lba),{ v with io := io })
  | false::io => (none,{ v with io := io })

def setSector (v : Volume) (lba : Nat) (s : Sector) : Volume :=
  { v with disk := fun l => if l = lba then s else v.disk l }

/-- `ahci_write_sector`. -/
def writeSector (v : Volume) (lba : Nat) (s : Sector) : Bool × Volume :=
  match v.io with
  | [] => (true,v.setSector lba s)
  | true::io => (true,{ v with io := io }.setSector lba s)
  | false::io => (false,{ v with io := io })

/-- `read_sectors` into a buffer. -/
def readSectors (v : Volume) (lba : Nat) : Nat → Option Sector × Volume
  | 0 => (some (fun _ => 0#8),v)
  | n+1 =>
    match v.readSectors lba n with
    | (none,v) => (none,v)
    | (some buf,v) =>
      match v.readSector (u32 (lba+n)) with
      | (none,v) => (none,v)
      | (some sec,v) => (some (fun k => if k/512 = n then sec (k%512) else buf k),v)

/-- `write_sectors` from a buffer. -/
def writeSectors (v : Volume) (lba : Nat) (buf : Sector) : Nat → Bool × Volume
  | 0 => (true,v)
  | n+1 =>
    match v.writeSectors lba buf n with
    | (false,v) => (false,v)
    | (true,v) => v.writeSector (u32 (lba+n)) (fun k => buf (n*512+k))

def clusterSize (v : Volume) : Nat := 512*v.sectorsPerCluster

/-- `cluster_to_lba`. -/
def clusterToLba (v : Volume) (cluster : Nat) : Nat :=
  u32 (v.dataStart+u32 (cluster+(2^32-2))*v.sectorsPerCluster)

/-- The sector and offset of a FAT entry, in the first copy. -/
def fatSector (v : Volume) (cluster : Nat) : Nat := u32 (v.fatStart+u32 (cluster*4)/512)

def fatOffset (cluster : Nat) : Nat := u32 (cluster*4)%512

/-- `fat_get_entry`. -/
def fatGetEntry (v : Volume) (cluster : Nat) : Nat × Volume :=
  match v.readSector (v.fatSector cluster) with
  | (none,v) => (0x0FFFFFFF,v)
  | (some sec,v) => (get32 sec (fatOffset cluster)%2^28,v)

/-- `fat_set_entry`. -/
def fatSetEntry (v : Volume) (cluster value : Nat) : Volume :=
  match v.readSector (v.fatSector cluster) with
  | (none,v) => v
  | (some sec,v) =>
    let old := get32 sec (fatOffset cluster)
    let sec := put32 sec (fatOffset cluster) (old/2^28*2^28+value%2^28)
    (List.range v.numFats).foldl
      (fun w f => (w.writeSector (u32 (v.fatSector cluster+f*v.fatSize32)) sec).2) v

def fsinfoSigned (s : Sector) : Bool :=
  get32 s 0 = 0x41615252 && get32 s 484 = 0x61417272 && get32 s 508 = 0xAA550000

/-- `fsinfo_save`. -/
def fsinfoSave (v : Volume) : Volume :=
  if !v.fsinfoValid then v
  else
    match v.readSector v.fsinfoLba with
    | (none,v) => v
    | (some sec,v) =>
      if fsinfoSigned sec then
        (v.writeSector v.fsinfoLba
          (put32 (put32 sec 488 v.fsinfoFreeCount) 492 v.nextFreeHint)).2
      else { v with fsinfoValid := false }

/-- `fsinfo_load`. -/
def fsinfoLoad (v : Volume) (fsInfoSector : Nat) : Volume :=
  let v := { v with fsinfoValid := false, fsinfoFreeCount := 0xFFFFFFFF }
  if fsInfoSector = 0 ∨ fsInfoSector = 0xFFFF then v
  else
    match v.readSector fsInfoSector with
    | (none,v) => v
    | (some sec,v) =>
      if fsinfoSigned sec then
        let next := get32 sec 492
        { v with
          fsinfoLba := fsInfoSector
          fsinfoValid := true
          fsinfoFreeCount := get32 sec 488
          nextFreeHint := if next ≠ 0xFFFFFFFF ∧ 2 ≤ next then next else v.nextFreeHint }
      else v

/-- The first cluster of a list whose FAT entry is zero. -/
def findFree : List Nat → Volume → Option Nat × Volume
  | [],v => (none,v)
  | c::cs,v =>
    match v.fatGetEntry c with
    | (e,v) => if e = 0 then (some c,v) else findFree cs v

/-- The part of `fat32_alloc_cluster` after its search. -/
def takeCluster (v : Volume) (found : Nat) : Volume :=
  let v := v.fatSetEntry found 0x0FFFFFFF
  { v with
    nextFreeHint := u32 (found+1)
    fsinfoFreeCount :=
      if v.fsinfoValid && v.fsinfoFreeCount ≠ 0xFFFFFFFF && 0 < v.fsinfoFreeCount then
        v.fsinfoFreeCount-1
      else v.fsinfoFreeCount }.fsinfoSave

/-- `fat32_alloc_cluster`; a cluster 0 would count as none found. -/
def allocCluster (v : Volume) : Option Nat × Volume :=
  let limit := u32 (v.totalClusters+2)
  let hint := v.nextFreeHint
  match findFree (List.range' hint (limit-hint)) v with
  | (some (c+1),v) => (some (c+1),v.takeCluster (c+1))
  | (some 0,v) | (none,v) =>
    match findFree (List.range' 2 (min hint limit-2)) v with
    | (some c,v) => (some c,v.takeCluster c)
    | (none,v) => (none,v)

end Volume

/-- `while (cluster >= 2 && cluster < 0x0FFFFFF8) { body; cluster = fat_get_entry(cluster); }`: the
body may leave the loop with a result; `none` when the loop has not ended after `fuel` turns. -/
def walkChain {σ ρ : Type} (body : Nat → σ → Volume → (ρ ⊕ σ) × Volume) :
    Nat → Nat → σ → Volume → Option ((ρ ⊕ σ) × Volume)
  | 0,_,_,_ => none
  | fuel+1,c,s,v =>
    if 2 ≤ c ∧ c < endOfChain then
      match body c s v with
      | (.inl r,v) => some (.inl r,v)
      | (.inr s,v) =>
        match v.fatGetEntry c with
        | (next,v) => walkChain body fuel next s v
    else some (.inr s,v)

/-- The loop of `free_chain`. -/
def freeLoop : Nat → Nat → Volume → Option Volume
  | 0,_,_ => none
  | fuel+1,c,v =>
    if 2 ≤ c ∧ c < endOfChain then
      match v.fatGetEntry c with
      | (next,v) =>
        let v := v.fatSetEntry c 0
        freeLoop fuel next (if v.fsinfoValid && v.fsinfoFreeCount ≠ 0xFFFFFFFF then
          { v with fsinfoFreeCount := u32 (v.fsinfoFreeCount+1) } else v)
    else some v

/-- `free_chain`. -/
def Volume.freeChain (fuel : Nat) (v : Volume) (start : Nat) : Option Volume :=
  (freeLoop fuel start v).map Volume.fsinfoSave

end KiNBOL
