import KiNBOL.Fs.OwnReads
import KiNBOL.Kernel.Descriptors

namespace KiNBOL

/-- The file system, as it was right after the mount and as it is, and the descriptors of the tasks.
For each entry in use, `found` is the node that `SYS_OPEN` found, as it was then. -/
structure OpenFiles where
  image : Volume
  vol : Volume
  fds : Nat → FdTable
  found : Nat → Fin 16 → Option (NodeRef × FsNode)

/-- What `vfs_read` of a node gives, and the file system after it: files are read with
`fat32_file_read`, directories have no function to read, and nodes outside the driver have their
own, which may do transfers. -/
inductive VfsReads (v : Volume) (n : FsNode) (off len : Nat) : NodeRef → List Byte → Volume → Prop
  | file {i : Fin 40} {fuel got : Nat} {k : Bool} {buf : Sector} {v' : Volume} :
      n.flags &&& vfsDirectory = 0#32 →
      fat32FileRead fuel k n off len (fun _ => 0#8) v = some ((got,buf),v') →
      VfsReads v n off len (.file i) ((List.range got).map buf) v'
  | dir {i : Fin 40} : n.flags &&& vfsDirectory ≠ 0#32 → VfsReads v n off len (.file i) [] v
  | other {i : Nat} {bs : List Byte} {v' : Volume} : OnlyIo v v' → VfsReads v n off len (.other i) bs v'

namespace OpenFiles

variable (s : OpenFiles) (t : Nat)

def setFds (fds : FdTable) : OpenFiles := { s with fds := fun t' => if t' = t then fds else s.fds t' }

/-- The table of a new task; slots of ended tasks are used again. -/
def start : OpenFiles :=
  { s.setFds t (fun _ => none) with
    found := fun t' i => if t' = t then none else s.found t' i }

/-- `SYS_OPEN`; the entry it takes was not in use. -/
def sysOpen (path : CName) : OpenFiles :=
  let fds := (KiNBOL.sysOpen s.vol (s.fds t) path).2
  { s.setFds t fds with
    found := fun t' i =>
      if t' = t ∧ s.fds t i = none ∧ fds i ≠ none then
        (s.vol.vfsFind path).bind (fun r => (s.vol.node r).map (fun n => (r,n)))
      else s.found t' i }

/-- `SYS_CLOSE`. -/
def sysClose (fd : BitVec 64) : OpenFiles := s.setFds t (KiNBOL.sysClose (s.fds t) fd).2

/-- `SYS_LSEEK`. -/
def sysLseek (fd offset : BitVec 64) (whence : BitVec 32) : OpenFiles :=
  s.setFds t (KiNBOL.sysLseek (fun r => ((s.vol.node r).map FsNode.size).getD 0) (s.fds t) fd offset
    whence).2

/-- `SYS_READ` of so many bytes. -/
def sysRead (i : Fin 16) (e : TaskFd) (got : Nat) (vol : Volume) : OpenFiles :=
  { s.setFds t (KiNBOL.sysRead (s.fds t) i e (BitVec.ofNat 32 got)).2 with vol := vol }

end OpenFiles

/-- Runs of the calls of any tasks from a mount on, in any order; `SYS_FSTAT` changes nothing, and
`ok` is a condition on the calls of the driver. -/
inductive OpenRun (ok : Nat → Kmalloc → OpenFiles → FsCall → Prop) (b : Volume) : OpenFiles → Prop
  | mount {fuel : Nat} {k : Kmalloc} {v : Volume} : fat32Init fuel k b = some v →
      OpenRun ok b ⟨v,v,fun _ _ => none,fun _ _ => none⟩
  | start {s : OpenFiles} (t : Nat) : OpenRun ok b s → OpenRun ok b (s.start t)
  | opened {s : OpenFiles} (t : Nat) (path : CName) : OpenRun ok b s → OpenRun ok b (s.sysOpen t path)
  | closed {s : OpenFiles} (t : Nat) (fd : BitVec 64) : OpenRun ok b s → OpenRun ok b (s.sysClose t fd)
  | seek {s : OpenFiles} (t : Nat) (fd offset : BitVec 64) (whence : BitVec 32) : OpenRun ok b s →
      OpenRun ok b (s.sysLseek t fd offset whence)
  | read {s : OpenFiles} {t len : Nat} {i : Fin 16} {e : TaskFd} {n : FsNode} {bs : List Byte}
      {v' : Volume} : OpenRun ok b s → s.fds t i = some e → s.vol.node e.node = some n →
      VfsReads s.vol n e.offset.toNat len e.node bs v' →
      OpenRun ok b (s.sysRead t i e bs.length v')
  | call {s : OpenFiles} {fuel : Nat} {k : Kmalloc} {st : FatStatus} {v' : Volume} (c : FsCall) :
      OpenRun ok b s → ok fuel k s c → c.run fuel k s.vol = some (st,v') →
      OpenRun ok b { s with vol := v' }

/-- An entry in use refers to the node that its `SYS_OPEN` found, which is still registered and as it
was. -/
structure RefersTo (s : OpenFiles) (t : Nat) (i : Fin 16) (e : TaskFd) (n : FsNode) : Prop where
  found : s.found t i = some (e.node,n)
  registered : e.node ∈ s.vol.nodes
  same : s.vol.node e.node = some n

/-- No entry in use dangles. -/
def NeverDangles (s : OpenFiles) : Prop :=
  ∀ t i e, s.fds t i = some e → ∃ n, RefersTo s t i e n

/-- A read of a file gives no bytes, or bytes of its chain as the mount found them, to which no walk
over another file or over a directory comes. -/
def ReadsOwn (b v : Volume) (i : Fin 40) (n : FsNode) : Prop :=
  ∀ off len bs v', VfsReads v n off len (.file i) bs v' → bs = [] ∨
    ∃ ctx cs, n.device = some ctx ∧ ChainBytes b ctx.startCluster cs off bs ∧ OnlyOf v i cs

/-- Reads through the entries give bytes of the files that were opened, and of no others. -/
def OwnReads (s : OpenFiles) : Prop :=
  ∀ t i e j n, s.fds t i = some e → s.found t i = some (.file j,n) → ReadsOwn s.image s.vol j n

/-- The call takes no node out of the tables that an entry in use refers to. -/
def LeavesOpen (fuel : Nat) (k : Kmalloc) (s : OpenFiles) : FsCall → Prop
  | .create _ | .mkdir _ => True
  | .remove path recursive =>
    ∀ t i e, s.fds t i = some e → ¬Removes fuel k path recursive s.vol e.node

variable {v v' b : Volume} {fuel : Nat} {k : Kmalloc} {s : OpenFiles} {t : Nat} {c : FsCall}

theorem NodesSound.kept (h : NodesSound v) (hk : Kept v v') : NodesSound v' :=
  h.congr hk.nodes (fun r _ => hk.node r)

theorem NodesSound.onlyIo (h : NodesSound v) (ho : OnlyIo v v') : NodesSound v' := by
  obtain ⟨io,rfl⟩ : ∃ io, v' = { v with io := io } := ⟨v'.io,ho⟩
  exact h.congr rfl (fun r _ => by cases r <;> rfl)

theorem NodesSound.added {path : CName} (h : NodesSound v)
    (ha : Kept v v' ∨ ∃ name, NewName v path name ∧ Added v v' name) : NodesSound v' := by
  rcases ha with hk | ⟨name,-,i,flags,ctx,w,hk,hi,rfl⟩
  · exact h.kept hk
  · exact (h.kept hk).withNode (by rw [hk.files]; exact hi) _

/-- A call keeps the table sound. -/
theorem NodesSound.run {st : FatStatus} (h : NodesSound v) (hrun : c.run fuel k v = some (st,v')) :
    NodesSound v' := by
  cases c with
  | create path => exact h.added (fat32CreateFile_tables hrun)
  | mkdir path => exact h.added (fat32Mkdir_tables hrun)
  | remove path recursive => exact h.shrunk (fat32Remove_shrunk hrun)

/-- A registered node is so afterwards, and has not changed. -/
def Stays (v v' : Volume) (r : NodeRef) : Prop := r ∈ v'.nodes ∧ v'.node r = v.node r

theorem Kept.stays {r : NodeRef} (hk : Kept v v') (hr : r ∈ v.nodes) : Stays v v' r :=
  ⟨by rw [hk.nodes]; exact hr,hk.node r⟩

theorem OnlyIo.stays {r : NodeRef} (ho : OnlyIo v v') (hr : r ∈ v.nodes) : Stays v v' r := by
  obtain ⟨io,rfl⟩ : ∃ io, v' = { v with io := io } := ⟨v'.io,ho⟩
  exact ⟨hr,by cases r <;> rfl⟩

/-- A new node takes a slot that no registered node has. -/
theorem NodesSound.stays {r : NodeRef} {path : CName} (h : NodesSound v) (hr : r ∈ v.nodes)
    (ha : Kept v v' ∨ ∃ name, NewName v path name ∧ Added v v' name) : Stays v v' r := by
  rcases ha with hk | ⟨name,-,i,flags,ctx,w,hk,hi,rfl⟩
  · exact hk.stays hr
  · obtain ⟨hmem,hnode⟩ := hk.stays hr
    have hne : r ≠ .file i := by
      rintro rfl
      exact h.used _ hr hi
    refine ⟨?_,?_⟩
    · simp only [Volume.withNode]
      split_ifs
      · exact hmem
      · exact List.mem_append_left _ hmem
    · rw [node_withNode,if_neg hne]
      exact hnode

/-- A call leaves alone the nodes that it does not take out. -/
theorem FsCall.stays {st : FatStatus} {r : NodeRef} (h : NodesSound v) (hr : r ∈ v.nodes)
    (hrun : c.run fuel k v = some (st,v'))
    (hno : ∀ path recursive, c = .remove path recursive → ¬Removes fuel k path recursive v r) :
    Stays v v' r := by
  cases c with
  | create path => exact h.stays hr (fat32CreateFile_tables hrun)
  | mkdir path => exact h.stays hr (fat32Mkdir_tables hrun)
  | remove path recursive =>
    have hs := fat32Remove_shrunk hrun
    have hmem := hs.stay r hr (hno path recursive rfl)
    exact ⟨hmem,hs.live h.once r hmem⟩

theorem VfsReads.only {n : FsNode} {off len : Nat} {r : NodeRef} {bs : List Byte}
    (h : VfsReads v n off len r bs v') : OnlyIo v v' := by
  cases h with
  | file _ hrun => exact fat32FileRead_only hrun
  | dir _ => exact OnlyIo.refl v
  | other ho => exact ho

theorem FdTable.set_some {fds : FdTable} {i j : Fin 16} {x : Option TaskFd} {e : TaskFd}
    (h : fds.set i x j = some e) : j = i ∧ x = some e ∨ j ≠ i ∧ fds j = some e := by
  rw [FdTable.set] at h
  split_ifs at h with hj
  · exact Or.inl ⟨hj,h⟩
  · exact Or.inr ⟨hj,h⟩

theorem FdTable.entry_some {fds : FdTable} {fd : BitVec 64} {i : Fin 16} {e : TaskFd}
    (h : fds.entry fd = some (i,e)) : fds i = some e := by
  rw [FdTable.entry] at h
  split_ifs at h
  obtain ⟨e',he,hp⟩ := Option.map_eq_some_iff.mp h
  obtain ⟨rfl,rfl⟩ := Prod.mk.inj hp
  exact he

/-- Entries in use only have nodes that were there before. -/
def FdTable.Within (fds fds' : FdTable) : Prop :=
  ∀ i e, fds' i = some e → ∃ e', fds i = some e' ∧ e'.node = e.node

theorem FdTable.Within.refl (fds : FdTable) : fds.Within fds := fun _ e h => ⟨e,h,rfl⟩

/-- An entry that is closed, or gets another offset. -/
theorem FdTable.Within.set {fds : FdTable} {i : Fin 16} {e : TaskFd} (h : fds i = some e)
    {x : Option TaskFd} (hx : ∀ e' ∈ x, e'.node = e.node) : fds.Within (fds.set i x) := by
  intro j e' hj
  rcases FdTable.set_some hj with ⟨rfl,hx'⟩ | ⟨-,hj⟩
  · exact ⟨e,h,(hx e' hx').symm⟩
  · exact ⟨e',hj,rfl⟩

theorem sysClose_within (fds : FdTable) (fd : BitVec 64) : fds.Within (sysClose fds fd).2 := by
  rw [sysClose]
  split
  next => exact .refl fds
  next i e h => exact .set (FdTable.entry_some h) (by simp)

theorem sysLseek_within (size : NodeRef → Nat) (fds : FdTable) (fd offset : BitVec 64)
    (whence : BitVec 32) : fds.Within (sysLseek size fds fd offset whence).2 := by
  rw [sysLseek]
  split
  next => exact .refl fds
  next i e h =>
    split
    next => exact .refl fds
    next target _ =>
      split_ifs
      · exact .refl fds
      · exact .set (FdTable.entry_some h) (by simp)

theorem sysRead_within {fds : FdTable} {i : Fin 16} {e : TaskFd} (h : fds i = some e)
    (got : BitVec 32) : fds.Within (sysRead fds i e got).2 :=
  .set h (by simp)

/-- `SYS_OPEN` puts the node that it finds into an entry that was not in use, or does nothing. -/
theorem sysOpen_cases (v : Volume) (fds : FdTable) (path : CName) : (sysOpen v fds path).2 = fds ∨
    ∃ r i, v.vfsFind path = some r ∧ fds i = none ∧
      (sysOpen v fds path).2 = fds.set i (some ⟨r,0#32⟩) := by
  rw [sysOpen]
  split_ifs
  · exact Or.inl rfl
  · split
    next => exact Or.inl rfl
    next r hr =>
      split
      next => exact Or.inl rfl
      next i hi =>
        rw [FdTable.free] at hi
        have hfree := List.find?_some hi
        rw [decide_eq_true_eq] at hfree
        exact Or.inr ⟨r,i,hr,hfree.2,rfl⟩

theorem vfsFind_mem {path : CName} {r : NodeRef} (h : v.vfsFind path = some r) :
    r ∈ v.nodes ∧ ∃ n, v.node r = some n := by
  rw [Volume.vfsFind] at h
  refine ⟨List.mem_of_find?_eq_some h,?_⟩
  cases hn : v.node r with
  | none =>
    have := List.find?_some h
    simp [hn] at this
  | some n => exact ⟨n,rfl⟩

/-- What the calls preserve. -/
structure OpenInv (s : OpenFiles) : Prop where
  sound : NodesSound s.vol
  refs : ∀ t i e, s.fds t i = some e →
    ∃ n, s.found t i = some (e.node,n) ∧ e.node ∈ s.vol.nodes ∧ s.vol.node e.node = some n

theorem OpenInv.never (h : OpenInv s) : NeverDangles s := by
  intro t i e he
  obtain ⟨n,hfound,hmem,hnode⟩ := h.refs t i e he
  exact ⟨n,hfound,hmem,hnode⟩

theorem OpenInv.setFds {fds : FdTable} (h : OpenInv s) (hw : (s.fds t).Within fds) :
    OpenInv (s.setFds t fds) := by
  refine ⟨h.sound,fun t' i e he => ?_⟩
  simp only [OpenFiles.setFds] at he
  split_ifs at he with ht
  · obtain ⟨e',he',hnode⟩ := hw i e he
    rw [ht,← hnode]
    exact h.refs t i e' he'
  · exact h.refs t' i e he

theorem OpenInv.setVol (h : OpenInv s) (hn : NodesSound v')
    (hst : ∀ t i e, s.fds t i = some e → Stays s.vol v' e.node) :
    OpenInv { s with vol := v' } := by
  refine ⟨hn,fun t i e he => ?_⟩
  obtain ⟨n,hfound,-,hnode⟩ := h.refs t i e he
  obtain ⟨hmem,hsame⟩ := hst t i e he
  exact ⟨n,hfound,hmem,hsame.trans hnode⟩

theorem OpenInv.start (h : OpenInv s) (t : Nat) : OpenInv (s.start t) := by
  refine ⟨h.sound,fun t' i e he => ?_⟩
  simp only [OpenFiles.start,OpenFiles.setFds] at he ⊢
  split_ifs at he with ht
  rw [if_neg ht]
  exact h.refs t' i e he

theorem OpenInv.sysOpen (h : OpenInv s) (t : Nat) (path : CName) : OpenInv (s.sysOpen t path) := by
  refine ⟨h.sound,fun t' i e he => ?_⟩
  simp only [OpenFiles.sysOpen,OpenFiles.setFds] at he ⊢
  by_cases ht : t' = t
  · subst ht
    rw [if_pos rfl] at he
    rcases sysOpen_cases s.vol (s.fds t') path with hsame | ⟨r,j,hr,hfree,hset⟩
    · rw [hsame] at he ⊢
      rw [if_neg (by simp [he])]
      exact h.refs t' i e he
    · rw [hset] at he ⊢
      rcases FdTable.set_some he with ⟨rfl,hx⟩ | ⟨hne,he⟩
      · obtain rfl := Option.some.inj hx
        obtain ⟨hmem,n,hn⟩ := vfsFind_mem hr
        refine ⟨n,?_,hmem,hn⟩
        rw [if_pos ⟨rfl,hfree,by simp [FdTable.set]⟩,hr,Option.bind_some,hn]
        rfl
      · rw [if_neg (by simp [he])]
        exact h.refs t' i e he
  · rw [if_neg ht] at he
    rw [if_neg (fun hc => ht hc.1)]
    exact h.refs t' i e he

/-- What a run without a look at its removals keeps of the references. -/
theorem OpenRun.inv {proc : Nat → Bool} {controllers size : Nat} {disk : Disk} {io : List Bool}
    (h : OpenRun LeavesOpen (bootVolume proc controllers size disk io) s) : OpenInv s := by
  induction h with
  | mount hm =>
    exact ⟨bootVolume_names.sound.mount bootVolume_free hm,fun t i e he => by simp at he⟩
  | start t _ ih => exact ih.start t
  | opened t path _ ih => exact ih.sysOpen t path
  | closed t fd _ ih => exact ih.setFds (sysClose_within _ fd)
  | seek t fd offset whence _ ih => exact ih.setFds (sysLseek_within _ _ fd offset whence)
  | @read s t len i e n bs v' _ he hn hread ih =>
    have hfds := ih.setFds (sysRead_within he (BitVec.ofNat 32 bs.length))
    refine hfds.setVol (ih.sound.onlyIo hread.only) (fun t i e he' => ?_)
    obtain ⟨n,-,hmem,-⟩ := hfds.refs t i e he'
    exact hread.only.stays hmem
  | call c _ hok hrun ih =>
    refine ih.setVol (ih.sound.run hrun) (fun t i e he => ?_)
    obtain ⟨n,-,hmem,-⟩ := ih.refs t i e he
    refine FsCall.stays ih.sound hmem hrun (fun path recursive hc => ?_)
    subst hc
    exact hok t i e he

/-- A call keeps the files of the image apart. -/
theorem Apart.run {D : Set Nat} {st : FatStatus} (h : Apart D b v) (hl : DiskLayout b)
    (hrun : c.run fuel k v = some (st,v')) : ∃ D, Apart D b v' := by
  cases c with
  | create path => exact ⟨D,h.create hl hrun⟩
  | mkdir path => exact ⟨D,h.mkdir hl hrun⟩
  | remove path recursive => exact h.remove hl hrun

/-- In every run, whatever it removes, the files of the image keep to themselves. -/
theorem OpenRun.apart {ok : Nat → Kmalloc → OpenFiles → FsCall → Prop} {proc : Nat → Bool}
    {controllers size : Nat} {disk : Disk} {io : List Bool}
    (h : OpenRun ok (bootVolume proc controllers size disk io) s) (hi : FilesApart s.image) :
    ∃ D, Apart D s.image s.vol := by
  induction h with
  | mount hm =>
    refine ⟨_,hi.mounted (fun i => ?_)⟩
    dsimp only
    rw [(fat32Init_foreign hm).others,bootVolume_refs.2]
    exact bootNode_device size i
  | start t _ ih => exact ih hi
  | opened t path _ ih => exact ih hi
  | closed t fd _ ih => exact ih hi
  | seek t fd offset whence _ ih => exact ih hi
  | read _ _ _ hread ih =>
    obtain ⟨D,hD⟩ := ih hi
    exact ⟨D,hD.within hi.layout (hD.area.onlyIo hread.only)⟩
  | call c _ _ hrun ih =>
    obtain ⟨D,hD⟩ := ih hi
    exact hD.run hi.layout hrun

/-- Reads of a file that keeps to itself. -/
theorem Apart.readsOwn {D : Set Nat} {i : Fin 40} {n : FsNode} (h : Apart D b v) (hl : DiskLayout b)
    (hn : v.files i = some n) : ReadsOwn b v i n := by
  intro off len bs v' hread
  cases hread with
  | dir _ => exact Or.inl rfl
  | @file _ fuel got k buf _ hflag hrun =>
    by_cases h0 : got = 0
    · left
      rw [h0]
      rfl
    cases hctx : n.device with
    | none =>
      rw [fat32FileRead,hctx] at hrun
      exact absurd (Prod.mk.inj (Prod.mk.inj (Option.some.inj hrun)).1).1.symm h0
    | some ctx =>
      have hd : n.isDir = false := by simp [FsNode.isDir,hflag]
      rcases (h.node i n ctx hn hctx).file hd with hz | ⟨cs,hcs⟩
      · rw [fat32FileRead,hctx] at hrun
        dsimp only at hrun
        rw [if_pos hz] at hrun
        exact absurd (Prod.mk.inj (Prod.mk.inj (Option.some.inj hrun)).1).1.symm h0
      · right
        obtain ⟨hin,hbytes⟩ :=
          (fat32FileRead_own hcs.start (hcs.now h.same) hctx hrun).resolve_left h0
        rw [h.same.places.clusterSize] at hin
        refine ⟨ctx,cs,rfl,⟨hcs.chain,?_,?_⟩,h.onlyOf hl hn hctx hd hcs.chain⟩
        · rw [List.length_map,List.length_range]
          exact hin
        · rw [List.length_map,List.length_range]
          apply List.map_congr_left
          intro j hj
          have hj' := List.mem_range.mp hj
          rw [hbytes j hj',hcs.fileByte h.same hl (by omega)]

/-- In every run in which no call removes a node that an entry in use refers to, no entry dangles: it
refers to the node that its `SYS_OPEN` found. If the files of the mounted image keep to themselves,
reads through an entry give bytes of the file that was opened and of no other. -/
theorem never_dangles (proc : Nat → Bool) (controllers size : Nat) (disk : Disk) (io : List Bool)
    (h : OpenRun LeavesOpen (bootVolume proc controllers size disk io) s) :
    NeverDangles s ∧ (FilesApart s.image → OwnReads s) := by
  have hinv := h.inv
  refine ⟨hinv.never,fun hi t i e j n he hfound => ?_⟩
  obtain ⟨D,hD⟩ := h.apart hi
  obtain ⟨n',hfound',-,hnode⟩ := hinv.refs t i e he
  obtain ⟨hj,rfl⟩ := Prod.mk.inj (Option.some.inj (hfound.symm.trans hfound'))
  rw [← hj] at hnode
  exact hD.readsOwn hi.layout hnode

/-- The one file of the image keeps to itself. -/
theorem smallFile_apart : ∃ v, fat32Init 3 (fun _ => true) smallFileVolume = some v ∧
    FilesApart v := by
  have hm : (fat32Init 3 (fun _ => true) smallFileVolume).map (fun v => decide (
      (v.sectorsPerCluster = 1 ∧ v.numFats = 1 ∧ v.fatSize32 = 1 ∧ v.fatStart = 1 ∧
        v.dataStart = 2 ∧ v.totalClusters = 8 ∧ v.fsinfoValid = false ∧ v.nextFreeHint = 2 ∧
        v.rootCluster = 2) ∧ fatAt v 2 = 0x0FFFFFFF ∧ fatAt v 3 = 0x0FFFFFFF ∧
        v.lbaToCluster 2 = 2 ∧
        ∀ i, v.files i = if i = 0 then some smallFileNode else none)) = some true := by
    decide +kernel
  obtain ⟨v,hv,he⟩ := Option.map_eq_some_iff.mp hm
  obtain ⟨⟨hspc,hfats,hsize,hstart,hdata,htotal,hvalid,hhint,hroot⟩,h2,h3,hlba,hfiles⟩ :=
    of_decide_eq_true he
  have hl : DiskLayout v := by
    refine ⟨by omega,by omega,by rw [hdata,hstart,hfats,hsize],by omega,?_,by rw [htotal]; decide,
      fun hf => by simp [hvalid] at hf,by omega⟩
    rw [hdata,htotal,hspc]
    decide
  have hend : endOfChain ≤ 0x0FFFFFFF := by decide
  have hchain : ∀ c, c = 2 ∨ c = 3 → IsChain v c [c] := by
    rintro c (rfl | rfl)
    · exact ⟨rfl,⟨by omega,by omega⟩,h2 ▸ hend⟩
    · exact ⟨rfl,⟨by omega,by omega⟩,h3 ▸ hend⟩
  have hnode : ∀ i n, v.files i = some n → i = 0 ∧ n = smallFileNode := by
    intro i n hi
    rw [hfiles] at hi
    split_ifs at hi with h0
    exact ⟨h0,(Option.some.inj hi).symm⟩
  have hfile : ∀ i c, FileStart v i c → i = 0 ∧ c = 3 := by
    rintro i c ⟨n,ctx,hi,-,hctx,rfl⟩
    obtain ⟨rfl,rfl⟩ := hnode i n hi
    rw [← Option.some.inj hctx]
    exact ⟨rfl,rfl⟩
  have hdir : ∀ a, DirStart v a → a = 2 := by
    intro a ha
    cases ha with
    | root => exact hroot
    | dir hi hctx hd =>
      obtain ⟨rfl,rfl⟩ := hnode _ _ hi
      exact absurd hd (by decide)
    | entry hi hctx =>
      obtain ⟨rfl,rfl⟩ := hnode _ _ hi
      rw [← Option.some.inj hctx]
      exact hlba
  have hvisit : ∀ c x, c = 2 ∨ c = 3 → Visits v c x → x = c := by
    intro c x hc hx
    exact List.mem_singleton.mp (((hchain c hc).visits hl).mp hx)
  refine ⟨v,hv,hl,fun a ha => ?_,fun i c hi => ?_,fun i j a b c hi hj _ _ => ?_,
    fun i a b c hi hb hx hx' => ?_⟩
  · obtain rfl := hdir a ha
    refine ⟨by decide,fun c hc => ?_⟩
    rw [hvisit 2 c (Or.inl rfl) hc]
    exact ⟨by omega,by omega⟩
  · obtain ⟨-,rfl⟩ := hfile i c hi
    exact Or.inr ⟨inChain_three,[3],hchain 3 (Or.inr rfl)⟩
  · rw [(hfile i a hi).1,(hfile j b hj).1]
  · obtain ⟨-,rfl⟩ := hfile i a hi
    obtain rfl := hdir b hb
    have := hvisit 3 c (Or.inr rfl) hx
    have := hvisit 2 c (Or.inl rfl) hx'
    omega

/-- Task 1 opens the file A, then the file B is created. -/
theorem never_dangles_sample : ∃ s, OpenRun LeavesOpen smallFileVolume s ∧
    s.fds 1 3 = some ⟨.file 0,0#32⟩ ∧ s.vol.vfsFind (named ['B']) ≠ none ∧
    NeverDangles s ∧ OwnReads s := by
  obtain ⟨v,hv,ha⟩ := smallFile_apart
  have hm : (fat32Init 3 (fun _ => true) smallFileVolume).map (fun v => decide (
      (sysOpen v (fun _ => none) (named ['A'])).2 3 = some ⟨.file 0,0#32⟩ ∧
      (fat32CreateFile 3 (fun _ => true) (named ['B']) v).map (fun r =>
        decide (r.2.vfsFind (named ['B']) = none)) = some false)) = some true := by
    decide
  rw [hv,Option.map_some,Option.some.injEq,decide_eq_true_eq] at hm
  obtain ⟨hopen,hcreate⟩ := hm
  obtain ⟨⟨st,w⟩,hw,hfind⟩ := Option.map_eq_some_iff.mp hcreate
  have hrun : OpenRun LeavesOpen smallFileVolume _ :=
    .call (.create (named ['B'])) (.opened 1 (named ['A']) (.mount hv)) trivial hw
  have hsound := never_dangles _ _ _ _ _ hrun
  exact ⟨_,hrun,hopen,of_decide_eq_false hfind,hsound.1,hsound.2 ha⟩

/-- Task 1 opens the file A; the file is removed, and a new file B gets the slot of its node. -/
theorem removed_while_open : ∃ s, OpenRun (fun _ _ _ _ => True) smallFileVolume s ∧
    ¬NeverDangles s ∧ ∃ e n, s.fds 1 3 = some e ∧ s.vol.node e.node = some n ∧ n.name = named ['B'] := by
  have hm : (fat32Init 3 (fun _ => true) smallFileVolume).map (fun v => decide (
      (sysOpen v (fun _ => none) (named ['A'])).2 3 = some ⟨.file 0,0#32⟩ ∧
      v.vfsFind (named ['A']) = some (.file 0) ∧ (v.node (.file 0)).map FsNode.name = some (named ['A']) ∧
      (((fat32Remove 3 (fun _ => true) (named ['A']) false v).bind
        (fun r => fat32CreateFile 3 (fun _ => true) (named ['B']) r.2)).bind
          (fun r => (r.2.node (.file 0)).map FsNode.name)) = some (named ['B']))) = some true := by
    decide
  obtain ⟨v,hv,he⟩ := Option.map_eq_some_iff.mp hm
  obtain ⟨hopen,hfind,hname,hrun⟩ := of_decide_eq_true he
  obtain ⟨⟨st,x⟩,hx,hnew⟩ := Option.bind_eq_some_iff.mp hrun
  obtain ⟨⟨st',w⟩,hw,hx⟩ := Option.bind_eq_some_iff.mp hx
  obtain ⟨m,hm,hmname⟩ := Option.map_eq_some_iff.mp hname
  obtain ⟨n,hn,hnname⟩ := Option.map_eq_some_iff.mp hnew
  refine ⟨_,.call (.create (named ['B'])) (.call (.remove (named ['A']) false)
    (.opened 1 (named ['A']) (.mount hv)) trivial hw) trivial hx,fun hsound => ?_,
    ⟨.file 0,0#32⟩,n,hopen,hn,hnname⟩
  obtain ⟨n',href⟩ := hsound 1 3 ⟨.file 0,0#32⟩ hopen
  have hfound := href.found
  simp only [OpenFiles.sysOpen,hopen,hfind,Option.bind_some,hm,Option.map_some] at hfound
  rw [if_pos (by simp),Option.some.injEq,Prod.mk.injEq] at hfound
  have hsame := href.same.symm.trans hn
  rw [Option.some.injEq,← hfound.2] at hsame
  rw [← hsame,hmname] at hnname
  revert hnname
  decide

end KiNBOL
