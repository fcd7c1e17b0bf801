import KiNBOL.Fs.Volume

namespace KiNBOL

/-- Where a directory slot lies. -/
structure Loc where
  lba : Nat
  offset : Nat
  deriving DecidableEq

/-- The `kmalloc` calls of one operation; `probe` and `mark` are made several times, the last two
for each directory and each node found by a mount. -/
inductive AllocSite where
  | slots
  | probe (n : Nat)
  | block
  | context
  | mark (n : Nat)
  | empty
  | buffer
  | scan (dir : Nat)
  | found (loc : Loc)
  deriving DecidableEq

/-- Which of them return memory. -/
abbrev Kmalloc := AllocSite → Bool

namespace Volume

/-- The locations of the slots of a cluster. -/
def slotLocs (v : Volume) (cluster : Nat) : List Loc :=
  (List.range (v.clusterSize/32)).map
    (fun j => ⟨u32 (v.clusterToLba cluster+32*j/512),32*j%512⟩)

/-- The slots of a cluster in a buffer that holds it. -/
def bufSlots (v : Volume) (cluster : Nat) (buf : Sector) : List (Loc × Slot) :=
  (List.range (v.clusterSize/32)).map
    (fun j => (⟨u32 (v.clusterToLba cluster+32*j/512),32*j%512⟩,getSlot buf (32*j)))

/-- Reading a cluster of a directory. -/
def readCluster (v : Volume) (cluster : Nat) : Option Sector × Volume :=
  v.readSectors (v.clusterToLba cluster) v.sectorsPerCluster

/-- `write_raw_entry`, and `write_dir_entry` with the slot it builds. -/
def writeSlot (v : Volume) (loc : Loc) (e : Slot) : Bool × Volume :=
  match v.readSector loc.lba with
  | (none,v) => (false,v)
  | (some sec,v) => v.writeSector loc.lba (putSlot sec loc.offset e)

/-- A new, zeroed cluster linked behind the last one of a directory. -/
def extendDir (v : Volume) (last : Nat) : Option Nat × Volume :=
  match v.allocCluster with
  | (none,v) => (none,v)
  | (some newc,v) =>
    let v := (v.fatSetEntry last newc).fatSetEntry newc 0x0FFFFFFF
    match v.writeSectors (v.clusterToLba newc) (fun _ => 0#8) v.sectorsPerCluster with
    | (false,v) => (none,v)
    | (true,v) => (some newc,v)

end Volume

/-- A turn of the loop of `find_free_dir_slot`. -/
def findFreeBody (c _last : Nat) (v : Volume) : (Option Loc ⊕ Nat) × Volume :=
  match v.readCluster c with
  | (none,v) => (.inl none,v)
  | (some buf,v) =>
    match (v.bufSlots c buf).find? (fun x => x.2.isFree) with
    | some (loc,_) => (.inl (some loc),v)
    | none => (.inr c,v)

/-- `find_free_dir_slot`. -/
def findFreeDirSlot (fuel : Nat) (k : Kmalloc) (dir : Nat) (v : Volume) :
    Option (Option Loc × Volume) :=
  if !k .slots then some (none,v)
  else
    match walkChain findFreeBody fuel dir dir v with
    | none => none
    | some (.inl r,v) => some (r,v)
    | some (.inr last,v) =>
      match v.extendDir last with
      | (none,v) => some (none,v)
      | (some newc,v) => some (some ⟨v.clusterToLba newc,0⟩,v)

/-- Consecutive free slots: the run goes on, or is long enough. -/
def freeRun (needed : Nat) : List (Loc × Slot) → List Loc → List Loc ⊕ List Loc
  | [],run => .inr run
  | (loc,e)::rest,run =>
    if e.isFree then
      if (run++[loc]).length = needed then .inl (run++[loc]) else freeRun needed rest (run++[loc])
    else freeRun needed rest []

/-- A turn of the first loop of `find_free_dir_slots`. -/
def findRunBody (needed c : Nat) (s : Nat × List Loc) (v : Volume) :
    (Option (List Loc) ⊕ (Nat × List Loc)) × Volume :=
  match v.readCluster c with
  | (none,v) => (.inl none,v)
  | (some buf,v) =>
    match freeRun needed (v.bufSlots c buf) s.2 with
    | .inl run => (.inl (some run),v)
    | .inr run => (.inr (c,run),v)

/-- The second loop of `find_free_dir_slots`. -/
def growRun (needed : Nat) : Nat → Nat → List Loc → Volume → Option (Option (List Loc) × Volume)
  | 0,_,_,_ => none
  | fuel+1,last,run,v =>
    if run.length < needed then
      match v.extendDir last with
      | (none,v) => some (none,v)
      | (some newc,v) =>
        growRun needed fuel newc (run++(v.slotLocs newc).take (needed-run.length)) v
    else some (some run,v)

/-- `find_free_dir_slots`. -/
def findFreeDirSlots (fuel : Nat) (k : Kmalloc) (dir needed : Nat) (v : Volume) :
    Option (Option (List Loc) × Volume) :=
  if lfnMaxEntries+1 < needed then some (none,v)
  else if !k .slots then some (none,v)
  else
    match walkChain (findRunBody needed) fuel dir (dir,[]) v with
    | none => none
    | some (.inl r,v) => some (r,v)
    | some (.inr (last,run),v) => growRun needed fuel last run v

/-- The comparison loop of `short_name_exists`. -/
def hasShort (s : ShortName) : List Slot → Bool
  | [] => false
  | e::es =>
    if e.isEnd then false
    else if e.isDeleted || e.isLfn then hasShort s es
    else if e.short = s then true
    else hasShort s es

/-- A turn of the loop of `short_name_exists`. -/
def shortExistsBody (s : ShortName) (c : Nat) (_ : Unit) (v : Volume) : (Bool ⊕ Unit) × Volume :=
  match v.readCluster c with
  | (none,v) => (.inl false,v)
  | (some buf,v) =>
    if hasShort s ((v.bufSlots c buf).map Prod.snd) then (.inl true,(v.fatGetEntry c).2)
    else (.inr (),v)

/-- `short_name_exists`, the `n`-th time. -/
def shortNameExists (fuel : Nat) (k : Kmalloc) (n dir : Nat) (s : ShortName) (v : Volume) :
    Option (Bool × Volume) :=
  if !k (.probe n) then some (false,v)
  else (walkChain (shortExistsBody s) fuel dir () v).map
    (fun r => (match r.1 with | .inl found => found | .inr () => false,r.2))

/-- The short names `gen_short_name` tries: the plain one, then those with a number. -/
def shortCandidate (leaf : CName) (n : Nat) : ShortName :=
  if n = 0 then toShortName leaf
  else
    let origbase := baseUpper leaf 63
    let tag := intToDec n
    let keep := min (max (8-1-tag.length) 1) origbase.length
    { toShortName leaf with
      name8 := padded 8 (origbase.take keep++ch '~'::tag)
      len8 := length_padded .. }

/-- The first of the candidates that `short_name_exists` does not find. -/
def genLoop (fuel : Nat) (k : Kmalloc) (dir : Nat) (leaf : CName) :
    List Nat → Volume → Option (ShortName × Volume)
  | [],v => some (toShortName leaf,v)
  | n::ns,v =>
    match shortNameExists fuel k n dir (shortCandidate leaf n) v with
    | none => none
    | some (false,v) => some (shortCandidate leaf n,v)
    | some (true,v) => genLoop fuel k dir leaf ns v

/-- `gen_short_name`. -/
def genShortName (fuel : Nat) (k : Kmalloc) (dir : Nat) (leaf : CName) (v : Volume) :
    Option (ShortName × Volume) :=
  genLoop fuel k dir leaf (List.range 1000) v

/-- Slots written one after the other, up to the first failure. -/
def writeSlots : List (Loc × Slot) → Volume → Bool × Volume
  | [],v => (true,v)
  | (loc,e)::rest,v =>
    match v.writeSlot loc e with
    | (false,v) => (false,v)
    | (true,v) => writeSlots rest v

/-- `write_lfn_and_short`. -/
def writeLfnAndShort (fuel : Nat) (k : Kmalloc) (dir : Nat) (leaf : CName) (s : ShortName)
    (attr : Byte) (cluster size : Nat) (v : Volume) : Option (Option Loc × Volume) :=
  let nentries := lfnCount leaf
  if lfnMaxEntries < nentries then some (none,v)
  else
    match findFreeDirSlots fuel k dir (nentries+1) v with
    | none => none
    | some (none,v) => some (none,v)
    | some (some locs,v) =>
      match writeSlots (locs.zip (lfnEntries leaf (lfnChecksum s)++[dirEntry s attr cluster size])) v
      with
      | (false,v) => some (none,v)
      | (true,v) => some (locs.getLast?,v)

/-- The short entry without long name of `fat32_create_file` and `fat32_mkdir`. -/
def writeShort (fuel : Nat) (k : Kmalloc) (dir : Nat) (s : ShortName) (attr : Byte)
    (cluster size : Nat) (v : Volume) : Option (Option Loc × Volume) :=
  match findFreeDirSlot fuel k dir v with
  | none => none
  | some (none,v) => some (none,v)
  | some (some loc,v) =>
    match v.writeSlot loc (dirEntry s attr cluster size) with
    | (false,v) => some (none,v)
    | (true,v) => some (some loc,v)

/-- The loop of `dir_is_empty` over the slots of a cluster. -/
def onlyDots : List Slot → Bool
  | [] => true
  | e::es =>
    if e.isEnd then true
    else if e.isDeleted || e.isLfn || e.attr &&& 0x08#8 ≠ 0#8 || e 0 = ch '.' then onlyDots es
    else false

/-- A turn of the loop of `dir_is_empty`. -/
def isEmptyBody (c : Nat) (_ : Unit) (v : Volume) : (Bool ⊕ Unit) × Volume :=
  match v.readCluster c with
  | (none,v) => (.inl true,v)
  | (some buf,v) =>
    if onlyDots ((v.bufSlots c buf).map Prod.snd) then (.inr (),v)
    else (.inl false,(v.fatGetEntry c).2)

/-- `dir_is_empty`. -/
def dirIsEmpty (fuel : Nat) (k : Kmalloc) (dir : Nat) (v : Volume) : Option (Bool × Volume) :=
  if !k .empty then some (false,v)
  else (walkChain isEmptyBody fuel dir () v).map
    (fun r => (match r.1 with | .inl empty => empty | .inr () => true,r.2))

/-- `lba_to_cluster`. -/
def Volume.lbaToCluster (v : Volume) (lba : Nat) : Nat :=
  if lba < v.dataStart ∨ v.sectorsPerCluster = 0 then 0
  else u32 ((lba-v.dataStart)/v.sectorsPerCluster+2)

/-- The locals of `mark_removed_with_lfn`: the LFN slots collected and the sequence number that
comes next. -/
structure MarkScan where
  run : List Loc
  expectSeq : Int

/-- An LFN slot in `mark_removed_with_lfn`. -/
def MarkScan.next (s : MarkScan) (sum : Byte) (loc : Loc) (raw : Slot) : MarkScan :=
  let seq : Int := (raw 0 &&& 0x1F#8).toNat
  let s := if raw 0 &&& 0x40#8 ≠ 0#8 then ⟨[],seq⟩ else s
  if s.run.length < lfnMaxEntries && seq = s.expectSeq && raw 13 = sum then
    ⟨s.run++[loc],seq-1⟩
  else { s with run := [] }

/-- Writing the deletion mark of a slot; failures are ignored. -/
def Volume.markDeleted (v : Volume) (loc : Loc) : Volume :=
  match v.readSector loc.lba with
  | (none,v) => v
  | (some sec,v) =>
    (v.writeSector loc.lba (fun i => if i = loc.offset then 0xE5#8 else sec i)).2

/-- The loop of `mark_removed_with_lfn` over the slots of a cluster. -/
def markSlots (sum : Byte) (target : Loc) :
    List (Loc × Slot) → MarkScan → Volume → (Bool ⊕ MarkScan) × Volume
  | [],s,v => (.inr s,v)
  | (loc,e)::rest,s,v =>
    if e.isEnd then (.inl true,v)
    else if !e.isDeleted && e.isLfn then markSlots sum target rest (s.next sum loc e) v
    else if loc = target then
      let v := v.markDeleted loc
      (.inl true,if s.run ≠ [] ∧ s.expectSeq = 0 then s.run.foldl Volume.markDeleted v else v)
    else markSlots sum target rest { s with run := [] } v

/-- A turn of the loop of `mark_removed_with_lfn`. -/
def markBody (sum : Byte) (target : Loc) (c : Nat) (s : MarkScan) (v : Volume) :
    (Bool ⊕ MarkScan) × Volume :=
  match v.readCluster c with
  | (none,v) => (.inl false,v)
  | (some buf,v) => markSlots sum target (v.bufSlots c buf) s v

/-- `mark_removed_with_lfn`, the `n`-th time; its callers ignore the result. -/
def markRemovedWithLfn (fuel : Nat) (k : Kmalloc) (n start : Nat) (target : Loc) (v : Volume) :
    Option (Bool × Volume) :=
  match v.readSector target.lba with
  | (none,v) => some (false,v)
  | (some tsec,v) =>
    let sum := lfnChecksum (getSlot tsec target.offset).short
    if !k (.mark n) then some (false,v)
    else (walkChain (markBody sum target) fuel start ⟨[],0⟩ v).map
      (fun r => (match r.1 with | .inl done => done | .inr _ => false,r.2))

end KiNBOL
