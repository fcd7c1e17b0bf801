import KiNBOL.Fs.Directory

namespace KiNBOL

/-- The error codes of `fat32.h`. -/
inductive FatStatus where
  | ok
  | errDisk
  | errNoFs
  | errNoParent
  | errNotFound
  | errNotEmpty
  | errExists
  deriving DecidableEq

namespace Volume

/-- The node a VFS entry refers to. -/
def node (v : Volume) : NodeRef → Option FsNode
  | .other i => some (v.others i)
  | .file i => v.files i

/-- `vfs_register`. -/
def vfsRegister (v : Volume) (r : NodeRef) : Volume :=
  if vfsMaxNodes ≤ v.nodes.length then v else { v with nodes := v.nodes++[r] }

/-- `vfs_unregister`. -/
def vfsUnregister (v : Volume) (r : NodeRef) : Volume := { v with nodes := v.nodes.erase r }

/-- `vfs_find`. -/
def vfsFind (v : Volume) (name : CName) : Option NodeRef :=
  v.nodes.find? (fun r =>
    match v.node r with
    | none => false
    | some n => strEqCi n.name (stripDevPrefix name))

/-- `slot_full`. -/
def slotFull (v : Volume) : Bool := fat32MaxFiles ≤ v.active

/-- `slot_alloc`: the first unused slot. -/
def slotAlloc (v : Volume) : Option (Fin 40 × Volume) :=
  ((List.finRange 40).find? (fun i => v.files i = none)).map (fun i =>
    (i,{ v with
      files := fun j => if j = i then some ⟨[],0#32,0,none⟩ else v.files j
      active := v.active+1 }))

/-- `slot_free`. -/
def slotFree (v : Volume) (r : NodeRef) : Volume :=
  match r with
  | .other _ => v
  | .file i =>
    if v.files i = none then v
    else { v with
      files := fun j => if j = i then none else v.files j
      active := v.active-1 }

def setNode (v : Volume) (i : Fin 40) (n : FsNode) : Volume :=
  { v with files := fun j => if j = i then some n else v.files j }

/-- A slot filled with a node and registered; `none` when all slots are used. -/
def addNode (v : Volume) (n : FsNode) : Option Volume :=
  match v.slotAlloc with
  | none => none
  | some (i,v) => some ((v.setNode i n).vfsRegister (.file i))

end Volume

/-- What `resolve_parent` finds: the cluster of the parent directory, its name as given, the
leaf. -/
structure Parent where
  dirCluster : Nat
  name : CName
  leaf : CName

/-- `resolve_parent`. -/
def resolveParent (v : Volume) (path : CName) : Option Parent :=
  match lastIdx (ch '/') path with
  | none => some ⟨v.rootCluster,[],path⟩
  | some slash =>
    let name := path.take (min slash (vfsNameMax-1))
    match (v.vfsFind name).bind v.node with
    | none => none
    | some p =>
      if p.flags &&& vfsDirectory = 0#32 then none
      else p.device.map (fun ctx => ⟨ctx.startCluster,name,path.drop (slash+1)⟩)

/-- The short name of a new entry: checked for collisions only when a long name is written too. -/
def newShortName (fuel : Nat) (k : Kmalloc) (dir : Nat) (leaf : CName) (v : Volume) :
    Option (ShortName × Volume) :=
  if needsLfn leaf then genShortName fuel k dir leaf v else some (toShortName leaf,v)

/-- The directory entry of a new node, with a long name where the leaf needs one. -/
def writeEntry (fuel : Nat) (k : Kmalloc) (dir : Nat) (leaf : CName) (s : ShortName)
    (attr : Byte) (cluster size : Nat) (v : Volume) : Option (Option Loc × Volume) :=
  if needsLfn leaf then writeLfnAndShort fuel k dir leaf s attr cluster size v
  else writeShort fuel k dir s attr cluster size v

/-- The last part of `fat32_create_file` and `fat32_mkdir`: context, slot, registration. -/
def registerNew (k : Kmalloc) (p : Parent) (flags : BitVec 32) (cluster : Nat) (loc : Loc)
    (v : Volume) : FatStatus × Volume :=
  if !k .context then (.errDisk,v)
  else
    match v.addNode ⟨joinFullName p.name p.leaf,flags,0,some ⟨cluster,loc.lba,loc.offset⟩⟩ with
    | none => (.errDisk,v)
    | some v => (.ok,v)

/-- `fat32_create_file`. -/
def fat32CreateFile (fuel : Nat) (k : Kmalloc) (path : CName) (v : Volume) :
    Option (FatStatus × Volume) :=
  if !v.fatOk then some (.errNoFs,v)
  else if v.slotFull then some (.errDisk,v)
  else
    match resolveParent v (stripDevPrefix path) with
    | none => some (.errNoParent,v)
    | some p =>
      match newShortName fuel k p.dirCluster p.leaf v with
      | none => none
      | some (s,v) =>
        if (v.vfsFind (joinFullName p.name p.leaf)).isSome then some (.errExists,v)
        else
          match writeEntry fuel k p.dirCluster p.leaf s 0x20#8 0 0 v with
          | none => none
          | some (none,v) => some (.errDisk,v)
          | some (some loc,v) => some (registerNew k p vfsFile 0 loc v)

/-- The first cluster of a new directory. -/
def dotSector (newc dir : Nat) : Sector :=
  let dot : ShortName := ⟨padded 8 [ch '.'],padded 3 [],length_padded ..,length_padded ..⟩
  let dotdot : ShortName :=
    ⟨padded 8 [ch '.',ch '.'],padded 3 [],length_padded ..,length_padded ..⟩
  putSlot (putSlot (fun _ => 0#8) 0 (dirEntry dot 0x10#8 newc 0)) 32
    (dirEntry dotdot 0x10#8 dir 0)

/-- `fat32_mkdir`. -/
def fat32Mkdir (fuel : Nat) (k : Kmalloc) (path : CName) (v : Volume) :
    Option (FatStatus × Volume) :=
  if !v.fatOk then some (.errNoFs,v)
  else if v.slotFull then some (.errDisk,v)
  else
    match resolveParent v (stripDevPrefix path) with
    | none => some (.errNoParent,v)
    | some p =>
      if (v.vfsFind (joinFullName p.name p.leaf)).isSome then some (.errExists,v)
      else
        match v.allocCluster with
        | (none,v) => some (.errDisk,v)
        | (some newc,v) =>
          match newShortName fuel k p.dirCluster p.leaf (v.fatSetEntry newc 0x0FFFFFFF) with
          | none => none
          | some (s,v) =>
            match writeEntry fuel k p.dirCluster p.leaf s 0x10#8 newc 0 v with
            | none => none
            | some (none,v) => some (.errDisk,v)
            | some (some loc,v) =>
              if !k .block then some (.errDisk,v)
              else
                let v := (v.writeSectors (v.clusterToLba newc) (dotSector newc p.dirCluster)
                  v.sectorsPerCluster).2
                some (registerNew k p vfsDirectory newc loc v)

/-- `remove_single_node`, the `n`-th time in one call. -/
def removeSingleNode (fuel : Nat) (k : Kmalloc) (n : Nat) (r : NodeRef) (v : Volume) :
    Option Volume :=
  let finish (v : Volume) := (v.vfsUnregister r).slotFree r
  match (v.node r).bind FsNode.device with
  | none => some (finish v)
  | some ctx =>
    match (if 2 ≤ ctx.startCluster then v.freeChain fuel ctx.startCluster else some v) with
    | none => none
    | some v =>
      (markRemovedWithLfn fuel k n (v.lbaToCluster ctx.direntSector)
        ⟨ctx.direntSector,ctx.direntOffset⟩ v).map (fun r => finish r.2)

/-- `path_depth_slashes`. -/
def pathDepthSlashes (name : CName) : Nat := name.count (ch '/')

/-- `is_path_or_child`. -/
def isPathOrChild (name path : CName) : Bool := (path++[ch '/']).isPrefixOf name

/-- The node that the loop of a recursive removal takes next: the deepest one below the path, the
first of several. -/
def deepestChild (v : Volume) (path : CName) (node : NodeRef) : Option (Fin 40) :=
  let step (best : Option (Fin 40 × Nat)) (i : Fin 40) : Option (Fin 40 × Nat) :=
    match v.files i with
    | none => best
    | some cand =>
      if .file i = node ∨ isPathOrChild cand.name path = false then best
      else
        match best with
        | none => some (i,pathDepthSlashes cand.name)
        | some (_,d) =>
          if d < pathDepthSlashes cand.name then some (i,pathDepthSlashes cand.name) else best
  ((List.finRange 40).foldl step none).map Prod.fst

/-- The loop of a recursive removal; `n` counts its turns. -/
def removeChildren (fuel : Nat) (k : Kmalloc) (path : CName) (node : NodeRef) :
    Nat → Nat → Volume → Option (Nat × Volume)
  | 0,_,_ => none
  | turns+1,n,v =>
    match deepestChild v path node with
    | none => some (n,v)
    | some i =>
      match removeSingleNode fuel k n (.file i) v with
      | none => none
      | some v => removeChildren fuel k path node turns (n+1) v

/-- `fat32_remove`. -/
def fat32Remove (fuel : Nat) (k : Kmalloc) (path : CName) (recursive : Bool) (v : Volume) :
    Option (FatStatus × Volume) :=
  if !v.fatOk then some (.errNoFs,v)
  else
    let path := stripDevPrefix path
    match v.vfsFind path with
    | none => some (.errNotFound,v)
    | some r =>
      match v.node r with
      | none => some (.errNotFound,v)
      | some node =>
        if node.flags &&& (vfsFile ||| vfsDirectory) = 0#32 then some (.errNotFound,v)
        else if node.flags &&& vfsDirectory = 0#32 then
          (removeSingleNode fuel k 0 r v).map (fun v => (.ok,v))
        else if recursive then
          match removeChildren fuel k path r fuel 0 v with
          | none => none
          | some (n,v) => (removeSingleNode fuel k n r v).map (fun v => (.ok,v))
        else
          match node.device with
          | none => some (.errNotEmpty,v)
          | some ctx =>
            match dirIsEmpty fuel k ctx.startCluster v with
            | none => none
            | some (false,v) => some (.errNotEmpty,v)
            | some (true,v) => (removeSingleNode fuel k 0 r v).map (fun v => (.ok,v))

end KiNBOL
