import KiNBOL.Fs.Mount

namespace KiNBOL

variable {v v' v'' : Volume} {fuel : Nat} {k : Kmalloc}

/-- The tables and the geometry are as before; the disk, the FSInfo copy and the transfers to come
may differ. -/
structure Kept (v v' : Volume) : Prop where
  fatOk : v'.fatOk = v.fatOk
  spc : v'.sectorsPerCluster = v.sectorsPerCluster
  numFats : v'.numFats = v.numFats
  fatSize : v'.fatSize32 = v.fatSize32
  fatStart : v'.fatStart = v.fatStart
  dataStart : v'.dataStart = v.dataStart
  root : v'.rootCluster = v.rootCluster
  total : v'.totalClusters = v.totalClusters
  files : v'.files = v.files
  active : v'.active = v.active
  nodes : v'.nodes = v.nodes
  others : v'.others = v.others

@[simp] theorem Kept.refl (v : Volume) : Kept v v := by constructor <;> rfl

theorem Kept.trans (h1 : Kept v v') (h2 : Kept v' v'') : Kept v v'' where
  fatOk := h2.fatOk.trans h1.fatOk
  spc := h2.spc.trans h1.spc
  numFats := h2.numFats.trans h1.numFats
  fatSize := h2.fatSize.trans h1.fatSize
  fatStart := h2.fatStart.trans h1.fatStart
  dataStart := h2.dataStart.trans h1.dataStart
  root := h2.root.trans h1.root
  total := h2.total.trans h1.total
  files := h2.files.trans h1.files
  active := h2.active.trans h1.active
  nodes := h2.nodes.trans h1.nodes
  others := h2.others.trans h1.others

theorem Kept.node (h : Kept v v') (r : NodeRef) : v'.node r = v.node r := by
  cases r <;> simp only [Volume.node,h.others,h.files]

theorem Kept.vfsFind (h : Kept v v') (name : CName) : v'.vfsFind name = v.vfsFind name := by
  simp only [Volume.vfsFind,h.nodes,h.node]

namespace Volume

theorem readSector_kept (v : Volume) (lba : Nat) : Kept v (v.readSector lba).2 := by
  unfold readSector
  split <;> constructor <;> rfl

theorem writeSector_kept (v : Volume) (lba : Nat) (s : Sector) : Kept v (v.writeSector lba s).2 := by
  unfold writeSector
  split <;> constructor <;> rfl

theorem readSectors_kept (v : Volume) (lba n : Nat) : Kept v (v.readSectors lba n).2 := by
  induction n with
  | zero => exact Kept.refl v
  | succ n ih =>
    rw [readSectors]
    split
    next h => rw [h] at ih; exact ih
    next w h =>
      rw [h] at ih
      have hr := w.readSector_kept (u32 (lba+n))
      split
      next h2 => rw [h2] at hr; exact ih.trans hr
      next h2 => rw [h2] at hr; exact ih.trans hr

theorem writeSectors_kept (v : Volume) (lba : Nat) (buf : Sector) (n : Nat) :
    Kept v (v.writeSectors lba buf n).2 := by
  induction n with
  | zero => exact Kept.refl v
  | succ n ih =>
    rw [writeSectors]
    split
    next h => rw [h] at ih; exact ih
    next w h =>
      rw [h] at ih
      exact ih.trans (w.writeSector_kept ..)

theorem readCluster_kept (v : Volume) (c : Nat) : Kept v (v.readCluster c).2 := v.readSectors_kept ..

theorem fatGetEntry_kept (v : Volume) (c : Nat) : Kept v (v.fatGetEntry c).2 := by
  have hr := v.readSector_kept (v.fatSector c)
  rw [fatGetEntry]
  split
  next h => rw [h] at hr; exact hr
  next h => rw [h] at hr; exact hr

theorem foldl_writeSector_kept (g : Nat → Nat) (s : Sector) (l : List Nat) (v : Volume) :
    Kept v (l.foldl (fun w f => (w.writeSector (g f) s).2) v) := by
  induction l generalizing v with
  | nil => exact Kept.refl v
  | cons f l ih => exact (v.writeSector_kept (g f) s).trans (ih _)

theorem fatSetEntry_kept (v : Volume) (c x : Nat) : Kept v (v.fatSetEntry c x) := by
  have hr := v.readSector_kept (v.fatSector c)
  rw [fatSetEntry]
  split
  next h => rw [h] at hr; exact hr
  next h => rw [h] at hr; exact hr.trans (foldl_writeSector_kept ..)

theorem fsinfoSave_kept (v : Volume) : Kept v v.fsinfoSave := by
  have hr := v.readSector_kept v.fsinfoLba
  rw [fsinfoSave]
  split_ifs
  · exact Kept.refl v
  · split
    next h => rw [h] at hr; exact hr
    next w h =>
      rw [h] at hr
      split_ifs
      · exact hr.trans (w.writeSector_kept ..)
      · refine hr.trans ?_
        constructor <;> rfl

theorem findFree_kept (l : List Nat) (v : Volume) : Kept v (findFree l v).2 := by
  induction l generalizing v with
  | nil => exact Kept.refl v
  | cons c l ih =>
    have hr := v.fatGetEntry_kept c
    rw [findFree]
    split
    next e w h =>
      rw [h] at hr
      split_ifs
      · exact hr
      · exact hr.trans (ih w)

theorem takeCluster_kept (v : Volume) (c : Nat) : Kept v (v.takeCluster c) := by
  refine (v.fatSetEntry_kept c 0x0FFFFFFF).trans ?_
  rw [takeCluster]
  refine Kept.trans ?_ (fsinfoSave_kept _)
  constructor <;> rfl

/-- A search for a free cluster, which is taken. -/
theorem findTake_kept {w : Volume} (hw : Kept v w) (l : List Nat) :
    Kept v (match findFree l w with
      | (some c,v) => (some c,v.takeCluster c)
      | (none,v) => (none,v)).2 := by
  have h2 := findFree_kept l w
  split
  next h => rw [h] at h2; exact (hw.trans h2).trans (takeCluster_kept ..)
  next h => rw [h] at h2; exact hw.trans h2

theorem allocCluster_kept (v : Volume) : Kept v v.allocCluster.2 := by
  rw [allocCluster]
  have h1 := findFree_kept (List.range' v.nextFreeHint (u32 (v.totalClusters+2)-v.nextFreeHint)) v
  split
  next h => rw [h] at h1; exact h1.trans (takeCluster_kept ..)
  next h => rw [h] at h1; exact findTake_kept h1 _
  next h => rw [h] at h1; exact findTake_kept h1 _

theorem freeLoop_kept {c : Nat} (h : freeLoop fuel c v = some v') : Kept v v' := by
  induction fuel generalizing c v with
  | zero => simp [freeLoop] at h
  | succ fuel ih =>
    rw [freeLoop] at h
    split_ifs at h
    · have hr := v.fatGetEntry_kept c
      generalize v.fatGetEntry c = r at h hr
      refine (hr.trans (r.2.fatSetEntry_kept c 0)).trans (Kept.trans ?_ (ih h))
      split_ifs <;> constructor <;> rfl
    · rw [← Option.some.inj h]
      exact Kept.refl v

theorem freeChain_kept {c : Nat} (h : v.freeChain fuel c = some v') : Kept v v' := by
  obtain ⟨w,hw,rfl⟩ := Option.map_eq_some_iff.mp h
  exact (freeLoop_kept hw).trans w.fsinfoSave_kept

theorem writeSlot_kept (v : Volume) (loc : Loc) (e : Slot) : Kept v (v.writeSlot loc e).2 := by
  have hr := v.readSector_kept loc.lba
  rw [writeSlot]
  split
  next h => rw [h] at hr; exact hr
  next w _ h => rw [h] at hr; exact hr.trans (writeSector_kept ..)

theorem extendDir_kept (v : Volume) (last : Nat) : Kept v (v.extendDir last).2 := by
  have ha := v.allocCluster_kept
  rw [extendDir]
  split
  next h => rw [h] at ha; exact ha
  next newc w h =>
    rw [h] at ha
    dsimp only
    have hset := (w.fatSetEntry_kept last newc).trans (fatSetEntry_kept _ newc 0x0FFFFFFF)
    generalize (w.fatSetEntry last newc).fatSetEntry newc 0x0FFFFFFF = u at hset
    have hz := u.writeSectors_kept (u.clusterToLba newc) (fun _ => 0#8) u.sectorsPerCluster
    split
    next h => rw [h] at hz; exact (ha.trans hset).trans hz
    next h => rw [h] at hz; exact (ha.trans hset).trans hz

theorem markDeleted_kept (v : Volume) (loc : Loc) : Kept v (v.markDeleted loc) := by
  have hr := v.readSector_kept loc.lba
  rw [markDeleted]
  split
  next h => rw [h] at hr; exact hr
  next w h => rw [h] at hr; exact hr.trans (writeSector_kept ..)

end Volume

/-- A walk whose turns keep the tables keeps them. -/
theorem walkChain_kept {σ ρ : Type} {body : Nat → σ → Volume → (ρ ⊕ σ) × Volume}
    (hb : ∀ c s v, Kept v (body c s v).2) {c : Nat} {s : σ} {r : (ρ ⊕ σ) × Volume}
    (h : walkChain body fuel c s v = some r) : Kept v r.2 := by
  induction fuel generalizing c s v with
  | zero => simp [walkChain] at h
  | succ fuel ih =>
    rw [walkChain] at h
    split_ifs at h
    · have hk := hb c s v
      split at h
      next hbody =>
        rw [hbody] at hk
        rw [← Option.some.inj h]
        exact hk
      next w hbody =>
        rw [hbody] at hk
        have hr := w.fatGetEntry_kept c
        generalize w.fatGetEntry c = e at h hr
        exact (hk.trans hr).trans (ih h)
    · rw [← Option.some.inj h]
      exact Kept.refl v

theorem findFreeBody_kept (c l : Nat) (v : Volume) : Kept v (findFreeBody c l v).2 := by
  have hr := v.readCluster_kept c
  rw [findFreeBody]
  split
  next h => rw [h] at hr; exact hr
  next h =>
    rw [h] at hr
    split <;> exact hr

theorem findFreeDirSlot_kept {dir : Nat} {r : Option Loc × Volume}
    (h : findFreeDirSlot fuel k dir v = some r) : Kept v r.2 := by
  unfold findFreeDirSlot at h
  split_ifs at h
  · rw [← Option.some.inj h]
    exact Kept.refl v
  · split at h
    next => simp at h
    next hw =>
      rw [← Option.some.inj h]
      exact walkChain_kept findFreeBody_kept hw
    next last w hw =>
      have hk := walkChain_kept findFreeBody_kept hw
      have he := w.extendDir_kept last
      split at h
      next h2 => rw [h2] at he; rw [← Option.some.inj h]; exact hk.trans he
      next h2 => rw [h2] at he; rw [← Option.some.inj h]; exact hk.trans he

theorem findRunBody_kept (needed c : Nat) (s : Nat × List Loc) (v : Volume) :
    Kept v (findRunBody needed c s v).2 := by
  have hr := v.readCluster_kept c
  rw [findRunBody]
  split
  next h => rw [h] at hr; exact hr
  next h =>
    rw [h] at hr
    split <;> exact hr

theorem growRun_kept {needed last : Nat} {run : List Loc} {r : Option (List Loc) × Volume}
    (h : growRun needed fuel last run v = some r) : Kept v r.2 := by
  induction fuel generalizing last run v with
  | zero => simp [growRun] at h
  | succ fuel ih =>
    rw [growRun] at h
    split_ifs at h
    · have he := v.extendDir_kept last
      split at h
      next h2 => rw [h2] at he; rw [← Option.some.inj h]; exact he
      next h2 => rw [h2] at he; exact he.trans (ih h)
    · rw [← Option.some.inj h]
      exact Kept.refl v

theorem findFreeDirSlots_kept {dir needed : Nat} {r : Option (List Loc) × Volume}
    (h : findFreeDirSlots fuel k dir needed v = some r) : Kept v r.2 := by
  unfold findFreeDirSlots at h
  split_ifs at h
  · rw [← Option.some.inj h]
    exact Kept.refl v
  · rw [← Option.some.inj h]
    exact Kept.refl v
  · split at h
    next => simp at h
    next hw =>
      rw [← Option.some.inj h]
      exact walkChain_kept (findRunBody_kept needed) hw
    next hw => exact (walkChain_kept (findRunBody_kept needed) hw).trans (growRun_kept h)

theorem shortExistsBody_kept (s : ShortName) (c : Nat) (u : Unit) (v : Volume) :
    Kept v (shortExistsBody s c u v).2 := by
  have hr := v.readCluster_kept c
  rw [shortExistsBody]
  split
  next h => rw [h] at hr; exact hr
  next w h =>
    rw [h] at hr
    split_ifs
    · exact hr.trans (w.fatGetEntry_kept c)
    · exact hr

theorem shortNameExists_kept {n dir : Nat} {s : ShortName} {r : Bool × Volume}
    (h : shortNameExists fuel k n dir s v = some r) : Kept v r.2 := by
  unfold shortNameExists at h
  split_ifs at h
  · rw [← Option.some.inj h]
    exact Kept.refl v
  · obtain ⟨u,hu,rfl⟩ := Option.map_eq_some_iff.mp h
    exact walkChain_kept (shortExistsBody_kept s) hu

theorem genLoop_kept {dir : Nat} {leaf : CName} {ns : List Nat} {r : ShortName × Volume}
    (h : genLoop fuel k dir leaf ns v = some r) : Kept v r.2 := by
  induction ns generalizing v with
  | nil =>
    rw [← Option.some.inj h]
    exact Kept.refl v
  | cons n ns ih =>
    rw [genLoop] at h
    split at h
    next => simp at h
    next hs =>
      rw [← Option.some.inj h]
      exact shortNameExists_kept hs
    next hs => exact (shortNameExists_kept hs).trans (ih h)

theorem newShortName_kept {dir : Nat} {leaf : CName} {r : ShortName × Volume}
    (h : newShortName fuel k dir leaf v = some r) : Kept v r.2 := by
  unfold newShortName at h
  split_ifs at h
  · exact genLoop_kept h
  · rw [← Option.some.inj h]
    exact Kept.refl v

theorem writeSlots_kept (l : List (Loc × Slot)) (v : Volume) : Kept v (writeSlots l v).2 := by
  induction l generalizing v with
  | nil => exact Kept.refl v
  | cons x l ih =>
    obtain ⟨loc,e⟩ := x
    have hw := v.writeSlot_kept loc e
    rw [writeSlots]
    split
    next h => rw [h] at hw; exact hw
    next w h => rw [h] at hw; exact hw.trans (ih w)

theorem writeLfnAndShort_kept {dir cluster size : Nat} {leaf : CName} {s : ShortName} {attr : Byte}
    {r : Option Loc × Volume} (h : writeLfnAndShort fuel k dir leaf s attr cluster size v = some r) :
    Kept v r.2 := by
  unfold writeLfnAndShort at h
  dsimp only at h
  split_ifs at h
  · rw [← Option.some.inj h]
    exact Kept.refl v
  · split at h
    next => simp at h
    next hs =>
      rw [← Option.some.inj h]
      exact findFreeDirSlots_kept hs
    next locs w hs =>
      have hk := findFreeDirSlots_kept hs
      have hw := writeSlots_kept
        (locs.zip (lfnEntries leaf (lfnChecksum s)++[dirEntry s attr cluster size])) w
      split at h
      next h2 => rw [h2] at hw; rw [← Option.some.inj h]; exact hk.trans hw
      next h2 => rw [h2] at hw; rw [← Option.some.inj h]; exact hk.trans hw

theorem writeShort_kept {dir cluster size : Nat} {s : ShortName} {attr : Byte}
    {r : Option Loc × Volume} (h : writeShort fuel k dir s attr cluster size v = some r) :
    Kept v r.2 := by
  unfold writeShort at h
  split at h
  next => simp at h
  next hs =>
    rw [← Option.some.inj h]
    exact findFreeDirSlot_kept hs
  next loc w hs =>
    have hk := findFreeDirSlot_kept hs
    have hw := w.writeSlot_kept loc (dirEntry s attr cluster size)
    split at h
    next h2 => rw [h2] at hw; rw [← Option.some.inj h]; exact hk.trans hw
    next h2 => rw [h2] at hw; rw [← Option.some.inj h]; exact hk.trans hw

theorem writeEntry_kept {dir cluster size : Nat} {leaf : CName} {s : ShortName} {attr : Byte}
    {r : Option Loc × Volume} (h : writeEntry fuel k dir leaf s attr cluster size v = some r) :
    Kept v r.2 := by
  unfold writeEntry at h
  split_ifs at h
  · exact writeLfnAndShort_kept h
  · exact writeShort_kept h

theorem isEmptyBody_kept (c : Nat) (u : Unit) (v : Volume) : Kept v (isEmptyBody c u v).2 := by
  have hr := v.readCluster_kept c
  rw [isEmptyBody]
  split
  next h => rw [h] at hr; exact hr
  next w h =>
    rw [h] at hr
    split_ifs
    · exact hr
    · exact hr.trans (w.fatGetEntry_kept c)

theorem dirIsEmpty_kept {dir : Nat} {r : Bool × Volume} (h : dirIsEmpty fuel k dir v = some r) :
    Kept v r.2 := by
  unfold dirIsEmpty at h
  split_ifs at h
  · rw [← Option.some.inj h]
    exact Kept.refl v
  · obtain ⟨u,hu,rfl⟩ := Option.map_eq_some_iff.mp h
    exact walkChain_kept isEmptyBody_kept hu

theorem foldl_markDeleted_kept (l : List Loc) (v : Volume) :
    Kept v (l.foldl Volume.markDeleted v) := by
  induction l generalizing v with
  | nil => exact Kept.refl v
  | cons loc l ih => exact (v.markDeleted_kept loc).trans (ih _)

theorem markSlots_kept (sum : Byte) (target : Loc) (l : List (Loc × Slot)) (s : MarkScan)
    (v : Volume) : Kept v (markSlots sum target l s v).2 := by
  induction l generalizing s with
  | nil => exact Kept.refl v
  | cons x l ih =>
    obtain ⟨loc,e⟩ := x
    rw [markSlots]
    split_ifs
    · exact Kept.refl v
    · exact ih _
    · exact (v.markDeleted_kept loc).trans (foldl_markDeleted_kept s.run _)
    · exact v.markDeleted_kept loc
    · exact ih _

theorem markBody_kept (sum : Byte) (target : Loc) (c : Nat) (s : MarkScan) (v : Volume) :
    Kept v (markBody sum target c s v).2 := by
  have hr := v.readCluster_kept c
  rw [markBody]
  split
  next h => rw [h] at hr; exact hr
  next w h => rw [h] at hr; exact hr.trans (markSlots_kept ..)

theorem markRemovedWithLfn_kept {n start : Nat} {target : Loc} {r : Bool × Volume}
    (h : markRemovedWithLfn fuel k n start target v = some r) : Kept v r.2 := by
  unfold markRemovedWithLfn at h
  have hr := v.readSector_kept target.lba
  split at h
  next h2 =>
    rw [h2] at hr
    rw [← Option.some.inj h]
    exact hr
  next w h2 =>
    rw [h2] at hr
    dsimp only at h
    split_ifs at h
    · rw [← Option.some.inj h]
      exact hr
    · obtain ⟨u,hu,rfl⟩ := Option.map_eq_some_iff.mp h
      exact hr.trans (walkChain_kept (markBody_kept _ target) hu)

end KiNBOL
