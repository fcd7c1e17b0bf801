import KiNBOL.Fs.Fat32
import KiNBOL.Framework.Overlay

namespace KiNBOL

/-- The first loop of `fat32_file_read`: the cluster of an offset and the offset in it, or nothing
where the chain ends before. -/
def readSkip : Nat → Nat → Nat → Volume → Option (Option (Nat × Nat) × Volume)
  | 0,_,_,_ => none
  | fuel+1,cluster,skip,v =>
    if v.clusterSize ≤ skip then
      match v.fatGetEntry cluster with
      | (next,v) =>
        if endOfChain ≤ next then some (none,v) else readSkip fuel next (skip-v.clusterSize) v
    else some (some (cluster,skip),v)

/-- The second loop of `fat32_file_read`: how many bytes are done, and the buffer. -/
def readCopy (len : Nat) :
    Nat → Nat → Nat → Nat → Sector → Volume → Option ((Nat × Sector) × Volume)
  | 0,_,_,_,_,_ => none
  | fuel+1,cluster,skip,done,buf,v =>
    if done < len then
      match v.readSectors (v.clusterToLba cluster) v.sectorsPerCluster with
      | (none,v) => some ((done,buf),v)
      | (some cbuf,v) =>
        let chunk := min (v.clusterSize-skip) (len-done)
        let buf := overlay buf done chunk (fun i => cbuf (skip+i))
        match v.fatGetEntry cluster with
        | (next,v) =>
          if endOfChain ≤ next then some ((done+chunk,buf),v)
          else readCopy len fuel next 0 (done+chunk) buf v
    else some ((done,buf),v)

/-- `fat32_file_read` into a buffer; `k` tells whether `kmalloc` returns memory. -/
def fat32FileRead (fuel : Nat) (k : Bool) (n : FsNode) (off len : Nat) (buf : Sector) (v : Volume) :
    Option ((Nat × Sector) × Volume) :=
  match n.device with
  | none => some ((0,buf),v)
  | some ctx =>
    if ctx.startCluster = 0 then some ((0,buf),v)
    else if n.size ≤ off then some ((0,buf),v)
    else
      -- off+len is a uint32_t
      let len := if n.size < u32 (off+len) then n.size-off else len
      match readSkip fuel ctx.startCluster off v with
      | none => none
      | some (none,v) => some ((0,buf),v)
      | some (some (cluster,skip),v) =>
        if k then readCopy len fuel cluster skip 0 buf v else some ((0,buf),v)

namespace Volume

/-- A directory entry read, changed and written back; failures are ignored. -/
def updateDirent (v : Volume) (ctx : FileCtx) (change : Slot → Slot) : Volume :=
  match v.readSector ctx.direntSector with
  | (none,v) => v
  | (some sec,v) =>
    (v.writeSector ctx.direntSector
      (putSlot sec ctx.direntOffset (change (getSlot sec ctx.direntOffset)))).2

/-- `update_dirent_cluster`. -/
def updateDirentCluster (v : Volume) (ctx : FileCtx) : Volume :=
  v.updateDirent ctx (fun e => e.setCluster ctx.startCluster)

/-- `update_dirent_size`. -/
def updateDirentSize (v : Volume) (ctx : FileCtx) (size : Nat) : Volume :=
  v.updateDirent ctx (fun e => e.setSize size)

/-- The cluster behind one of a file; at the end of the chain a new one is linked. -/
def nextOrAlloc (v : Volume) (cluster : Nat) : Option Nat × Volume :=
  match v.fatGetEntry cluster with
  | (next,v) =>
    if endOfChain ≤ next then
      match v.allocCluster with
      | (none,v) => (none,v)
      | (some newc,v) => (some newc,v.fatSetEntry cluster newc)
    else (some next,v)

/-- The context of a file that is written to: a file without clusters gets its first one. -/
def firstCluster (v : Volume) (i : Fin 40) (n : FsNode) (ctx : FileCtx) : Option FileCtx × Volume :=
  if ctx.startCluster = 0 then
    match v.allocCluster with
    | (none,v) => (none,v)
    | (some c,v) =>
      let ctx := { ctx with startCluster := c }
      (some ctx,(v.setNode i { n with device := some ctx }).updateDirentCluster ctx)
  else (some ctx,v)

/-- The last part of `fat32_file_write`: the new size of a file that has become longer. -/
def growFile (v : Volume) (i : Fin 40) (ctx : FileCtx) (size : Nat) : Volume :=
  match v.files i with
  | none => v
  | some n =>
    if n.size < size then (v.setNode i { n with size := size }).updateDirentSize ctx size else v

end Volume

/-- The first loop of `fat32_file_write`: the cluster of an offset and the offset in it, or nothing
where no cluster is free. -/
def writeSkip : Nat → Nat → Nat → Volume → Option (Option (Nat × Nat) × Volume)
  | 0,_,_,_ => none
  | fuel+1,cluster,skip,v =>
    if v.clusterSize ≤ skip then
      match v.nextOrAlloc cluster with
      | (none,v) => some (none,v)
      | (some next,v) => writeSkip fuel next (skip-v.clusterSize) v
    else some (some (cluster,skip),v)

/-- A cluster in the buffer of `fat32_file_write` before bytes are put there; a chunk of a whole
cluster needs no read. -/
def Volume.fillBuffer (v : Volume) (cluster skip chunk : Nat) (cbuf : Sector) : Sector × Volume :=
  if skip ≠ 0 ∨ chunk ≠ v.clusterSize then
    match v.readSectors (v.clusterToLba cluster) v.sectorsPerCluster with
    | (none,v) => (fun _ => 0#8,v)
    | (some cbuf,v) => (cbuf,v)
  else (cbuf,v)

/-- The second loop of `fat32_file_write`: how many bytes are done. -/
def writeCopy (len : Nat) (src : Sector) :
    Nat → Nat → Nat → Nat → Sector → Volume → Option (Nat × Volume)
  | 0,_,_,_,_,_ => none
  | fuel+1,cluster,skip,done,cbuf,v =>
    if done < len then
      let chunk := min (v.clusterSize-skip) (len-done)
      match v.fillBuffer cluster skip chunk cbuf with
      | (cbuf,v) =>
        let cbuf := overlay cbuf skip chunk (fun i => src (done+i))
        match v.writeSectors (v.clusterToLba cluster) cbuf v.sectorsPerCluster with
        | (false,v) => some (done,v)
        | (true,v) =>
          if done+chunk < len then
            match v.nextOrAlloc cluster with
            | (none,v) => some (done+chunk,v)
            | (some next,v) => writeCopy len src fuel next 0 (done+chunk) cbuf v
          else some (done+chunk,v)
    else some (done,v)

/-- `fat32_file_write` of the node in a slot; `mem` is the memory that `kmalloc` returns. -/
def fat32FileWrite (fuel : Nat) (mem : Option Sector) (i : Fin 40) (off len : Nat) (src : Sector)
    (v : Volume) : Option (Nat × Volume) :=
  match v.files i with
  | none => some (0,v)
  | some n =>
    match n.device with
    | none => some (0,v)
    | some ctx =>
      match v.firstCluster i n ctx with
      | (none,v) => some (0,v)
      | (some ctx,v) =>
        match writeSkip fuel ctx.startCluster off v with
        | none => none
        | some (none,v) => some (0,v)
        | some (some (cluster,skip),v) =>
          match mem with
          | none => some (0,v)
          | some cbuf =>
            match writeCopy len src fuel cluster skip 0 cbuf v with
            | none => none
            | some (done,v) => some (done,v.growFile i ctx (u32 (off+done)))

def FsNode.isDir (n : FsNode) : Bool := n.flags &&& vfsDirectory ≠ 0#32

/-- `vfs_read` and `vfs_write` on the node in a slot: directories have neither function. -/
def vfsRead (fuel : Nat) (k : Bool) (i : Fin 40) (off len : Nat) (buf : Sector) (v : Volume) :
    Option ((Nat × Sector) × Volume) :=
  match v.files i with
  | none => some ((0,buf),v)
  | some n => if n.isDir then some ((0,buf),v) else fat32FileRead fuel k n off len buf v

def vfsWrite (fuel : Nat) (mem : Option Sector) (i : Fin 40) (off len : Nat) (src : Sector)
    (v : Volume) : Option (Nat × Volume) :=
  match v.files i with
  | none => some (0,v)
  | some n => if n.isDir then some (0,v) else fat32FileWrite fuel mem i off len src v

end KiNBOL
