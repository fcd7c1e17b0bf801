import KiNBOL.Fs.Fat32

namespace KiNBOL

/-- A node found by a mount, as far as there is room and memory for it. -/
def mountNode (k : Kmalloc) (loc : Loc) (n : FsNode) (v : Volume) : Volume :=
  if v.slotFull || !k (.found loc) then v else (v.addNode n).getD v

/-- The loop of `fat32_scan_dir` over the slots of a cluster; `sub` scans a subdirectory. -/
def scanSlots (k : Kmalloc) (pre : CName) (sub : Nat → CName → Volume → Option Volume) :
    List (Loc × Slot) → LfnScan → Volume → Option ((Unit ⊕ LfnScan) × Volume)
  | [],s,v => some (.inr s,v)
  | (loc,e)::rest,s,v =>
    match s.scan e with
    | (.stop,_) => some (.inl (),v)
    | (.skip,s) => scanSlots k pre sub rest s v
    | (.entry name,s) =>
      let full := buildFullName pre name
      let ctx : FileCtx := ⟨e.cluster,loc.lba,loc.offset⟩
      if e.attr &&& 0x10#8 ≠ 0#8 then
        let v := mountNode k loc ⟨full,vfsDirectory,0,some ctx⟩ v
        if 2 ≤ e.cluster && !v.slotFull then
          match sub e.cluster (buildFullName full [ch '/']) v with
          | none => none
          | some v => scanSlots k pre sub rest s v
        else scanSlots k pre sub rest s v
      else scanSlots k pre sub rest s (mountNode k loc ⟨full,vfsFile,e.size,some ctx⟩ v)

/-- The loop of `fat32_scan_dir` over the clusters of the directory. -/
def scanLoop (k : Kmalloc) (pre : CName) (sub : Nat → CName → Volume → Option Volume) :
    Nat → Nat → LfnScan → Volume → Option Volume
  | 0,_,_,_ => none
  | fuel+1,c,s,v =>
    if 2 ≤ c ∧ c < endOfChain then
      match v.readCluster c with
      | (none,v) => some v
      | (some buf,v) =>
        match scanSlots k pre sub (v.bufSlots c buf) s v with
        | none => none
        | some (.inl (),v) => some v
        | some (.inr s,v) =>
          match v.fatGetEntry c with
          | (next,v) => scanLoop k pre sub fuel next s v
    else some v

/-- `fat32_scan_dir` with this many levels left below `FAT32_MAX_DEPTH`. -/
def scanDir (fuel : Nat) (k : Kmalloc) : Nat → Nat → CName → Volume → Option Volume
  | 0,_,_,v => some v
  | levels+1,dir,pre,v =>
    if v.slotFull then some v
    else if !k (.scan dir) then some v
    else scanLoop k pre (scanDir fuel k levels) fuel dir ⟨false,0,0#8,fun _ => 0#8⟩ v

def fat32MaxDepth : Nat := 3

def bpb16 (s : Sector) (off : Nat) : Nat := le16 (s off) (s (off+1))

/-- `fat32_init`. -/
def fat32Init (fuel : Nat) (k : Kmalloc) (v : Volume) : Option Volume :=
  match v.readSector 0 with
  | (none,v) => some v
  | (some bpb,v) =>
    if bpb16 bpb 11 ≠ 512 then some v
    else if get32 bpb 36 = 0 ∨ bpb 13 = 0#8 then some v
    else
      let numFats := if bpb 16 = 0#8 then 2 else (bpb 16).toNat
      let spc := (bpb 13).toNat
      let root := get32 bpb 44
      let dataStart := u32 (bpb16 bpb 14+numFats*get32 bpb 36)
      let totalSectors := if get32 bpb 32 = 0 then bpb16 bpb 19 else get32 bpb 32
      let v := { v with
        sectorsPerCluster := spc
        numFats := numFats
        fatSize32 := get32 bpb 36
        rootCluster := if root = 0 then 2 else root
        fatStart := bpb16 bpb 14
        dataStart := dataStart
        totalClusters := (totalSectors-dataStart)/spc
        nextFreeHint := 2 }.fsinfoLoad (bpb16 bpb 48)
      let v := { v with files := fun _ => none, active := 0 }
      (scanDir fuel k (fat32MaxDepth+1) v.rootCluster [] v).map
        (fun v => { v with fatOk := true })

end KiNBOL
