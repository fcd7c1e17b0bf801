import KiNBOL.Fs.Sound
import KiNBOL.Framework.Overwrite

namespace KiNBOL

/-! What a write does to the files of a volume. -/

variable {v v' w : Volume} {ex : List Nat} {n m : FsNode} {ctx : FileCtx} {i j : Fin 40}
  {c off len fuel size : Nat} {cs more : List Nat} {pos r : Nat} {src : Sector} {mem : Option Sector}

/-- The first bytes of a buffer. -/
def firstBytes (src : Sector) (r : Nat) : List Byte := (List.range r).map src

theorem length_content (hn : n.device = some ctx) (v : Volume) : (n.content v).length = n.size := by
  rw [FsNode.content,hn]
  simp

theorem content_getElem (hn : n.device = some ctx) (v : Volume) {k : Nat} (hk : k < n.size) :
    (n.content v)[k]? = some (fileByte v ctx.startCluster k) := by
  rw [FsNode.content,hn]
  simp [hk]

theorem firstBytes_getElem {k : Nat} (hk : k < r) (src : Sector) :
    (firstBytes src r)[k]? = some (src k) := by simp [firstBytes,hk]

@[simp] theorem length_firstBytes (src : Sector) (r : Nat) : (firstBytes src r).length = r := by
  simp [firstBytes]

/-- The bytes of a chain after a write. -/
theorem Wrote.fileByte (hl : DiskLayout v) (h : IsChain v c cs) (hw : Wrote v v' c cs more pos r src)
    {k : Nat} (hk : k < (cs++more).length*v.clusterSize) :
    (pos ≤ k → k < pos+r → KiNBOL.fileByte v' c k = src (k-pos)) ∧
    (k < pos ∨ pos+r ≤ k → k < cs.length*v.clusterSize →
      KiNBOL.fileByte v' c k = KiNBOL.fileByte v c k) := by
  have h0 : 0 < v.clusterSize := by
    have := hl.spc
    rw [Volume.clusterSize]
    omega
  have hsize := hw.step.clusterSize
  have hb : KiNBOL.fileByte v' c k = overlay (listByte v (cs++more)) pos r src k := by
    rw [fileByte_list hw.chain (by rw [hsize]; exact h0) (by rw [hsize]; exact hk),hw.bytes k hk]
  refine ⟨fun h1 h2 => ?_,fun ho hin => ?_⟩
  · rw [hb,overlay,if_pos ⟨h1,h2⟩]
  · rw [hb,overlay_out ho,listByte_append v hin,fileByte_list h h0 hin]

/-- A file that is being written to, after a part of the write. -/
theorem Opened.wrote (h : Opened v ex i n ctx) (hcs : IsChain v ctx.startCluster cs)
    (hw : Wrote v v' ctx.startCluster cs more pos r src) : Opened v' ex i n ctx ∧
      ∀ j, j ≠ i → storeOf v' j = storeOf v j := by
  have ho := startOf_file h.node h.device h.start ex
  have hl := h.sound.consistent.layout
  refine ⟨⟨h.sound.wrote h.node h.file ho hcs hw,by rw [hw.step.files]; exact h.node,h.device,h.file,
    h.start⟩,fun j hj => ?_⟩
  refine h.sound.store_keep hw.step.places (by rw [hw.step.files]) (fun m d ds _ _ ho' hds => ?_)
  obtain ⟨h1,h2⟩ := hw.other_owner h.sound.consistent ho hcs ho' hds
    (fun he => hj (Owner.file.inj he))
  exact ⟨⟨[],by rw [List.append_nil]; exact h1⟩,h2⟩

/-- The new size of a file. -/
theorem Opened.growFile (h : Opened v ex i n ctx) (hcs : IsChain v ctx.startCluster cs)
    (hle : size ≤ cs.length*v.clusterSize) (hsize : size < 2^32) :
    Opened (v.growFile i ctx size) ex i { n with size := max n.size size } ctx ∧
    (∀ j, j ≠ i → storeOf (v.growFile i ctx size) j = storeOf v j) ∧
    (v.growFile i ctx size).totalClusters = v.totalClusters ∧
    (∀ d < v.totalClusters+2, fatAt (v.growFile i ctx size) d = fatAt v d) ∧
    ∀ k < cs.length*v.clusterSize,
      fileByte (v.growFile i ctx size) ctx.startCluster k = fileByte v ctx.startCluster k := by
  have hl := h.sound.consistent.layout
  obtain ⟨ctx₁,hctx,hentry⟩ := h.sound.entry i n h.node
  obtain rfl := Option.some.inj (h.device.symm.trans hctx)
  obtain ⟨-,hdat⟩ := hentry.aligned hl
  rw [Volume.growFile,h.node]
  dsimp only
  split_ifs with hlt
  · have hmax : max n.size size = size := by omega
    have hkeep : ∀ o c ds, startOf v ex o = some c → IsChain v c ds → IsChain v c ds :=
      fun _ _ _ _ hds => hds
    have hcons : Consistent (v.setNode i { n with size := size }) ex := by
      refine (TableStep.setNode v i _).retable h.sound.consistent id (fun o c ho => ?_)
        (fun _ _ _ _ _ _ he => he) (fun j ctx₁ hj => ?_)
      · rw [startOf_setNode] at ho
        split_ifs at ho with heq
        · rw [heq,id,startOf,fileCtx_eq h.node]
          exact ho
        · exact ho
      · refine h.sound.consistent.located j ctx₁ ?_
        rw [fileCtx,Volume.setNode] at hj
        dsimp only at hj
        split_ifs at hj with heq
        · rw [heq,fileCtx_eq h.node]
          exact hj
        · exact hj
    have hrun : (v.setNode i { n with size := size }).updateDirentSize ctx size =
        (v.setNode i { n with size := size }).putAt ctx.loc
          ((dirSlotAt v ctx.loc).setSize size) := by
      have hq : (v.setNode i { n with size := size }).io = [] := h.sound.quiet
      rw [Volume.updateDirentSize,updateDirent_quiet hq]
      rfl
    have hsound := h.sound.update (DiskStep.refl v) hkeep (fun _ _ => rfl) h.node h.device
      (m := { n with size := size }) h.device rfl rfl (fun _ => rfl) hcons
      (e := (dirSlotAt v ctx.loc).setSize size) (by simpa using hentry.shown)
      (by rw [Slot.setSize_cluster]; exact hentry.cluster) (fun _ => h.start)
      (fun _ => ⟨Slot.setSize_size _ hsize,Or.inr ⟨cs,hcs,hle⟩⟩)
    have hstore := h.sound.update_store (DiskStep.refl v) hkeep (fun _ _ => rfl) h.node h.device
      hcons (e := (dirSlotAt v ctx.loc).setSize size)
    have ht := TableStep.setNode v i { n with size := size }
    have hfat : ∀ d < v.totalClusters+2, fatAt ((v.setNode i { n with size := size }).putAt ctx.loc
        ((dirSlotAt v ctx.loc).setSize size)) d = fatAt v d := by
      intro d hd
      rw [fatAt_putAt hcons.layout hdat hd,ht.fatAt]
    rw [hrun,hmax]
    refine ⟨⟨hsound,if_pos rfl,h.device,h.file,h.start⟩,fun j hj => ?_,rfl,hfat,fun k hk => ?_⟩
    · rw [hstore,if_neg hj]
    · have hp := ht.places.trans (DiskStep.putAt (v.setNode i { n with size := size }) ctx.loc
        ((dirSlotAt v ctx.loc).setSize size)).places
      have h0 : 0 < v.clusterSize := by
        have := hl.spc
        rw [Volume.clusterSize]
        omega
      have hchain := (ht.isChain.mpr hcs).keep (DiskStep.putAt _ ctx.loc
        ((dirSlotAt v ctx.loc).setSize size))
        (fun x hx => by rw [hfat x (Chained.all_ok hcs x hx).2,ht.fatAt])
      rw [fileByte_list hchain (by rw [hp.clusterSize]; exact h0) (by rw [hp.clusterSize]; exact hk),
        fileByte_list hcs h0 hk]
      refine listByte_congr hp hl (Chained.all_ok hcs) (fun x hx a ha => ?_) hk
      have hne : a ≠ ctx.loc.lba := by
        rintro rfl
        exact h.sound.entry_apart hentry h.node h.file (startOf_file h.node h.device h.start ex) hcs
          x hx ha
      rw [disk_putAt_other hne,ht.disk]
  · have hmax : max n.size size = n.size := by omega
    rw [hmax]
    exact ⟨h,fun _ _ => rfl,rfl,fun _ _ => rfl,fun _ _ => rfl⟩

/-- What a write of `r` bytes does to the files: nothing, if there is nothing to do, or it changes
one of them. -/
def StoreWrote (s : Fin 40 → Option StoreFile) (i : Fin 40) (off : Nat) (data : List Byte)
    (s' : Fin 40 → Option StoreFile) : Prop :=
  data = [] ∧ s' = s ∨ ∃ f b, s i = some f ∧ f.isDir = false ∧ Overwritten f.bytes off data b ∧
    s' = Function.update s i (some { f with bytes := b })

theorem Opened.storeOf (h : Opened v ex i n ctx) :
    KiNBOL.storeOf v i = some ⟨n.name,false,n.content v⟩ := by
  rw [KiNBOL.storeOf,h.node,Option.map_some,FsNode.shown,h.file,if_neg (by simp)]

theorem Opened.covers (h : Opened v ex i n ctx) (hcs : IsChain v ctx.startCluster cs) :
    n.size ≤ cs.length*v.clusterSize := by
  obtain ⟨ctx₁,hctx,hentry⟩ := h.sound.entry i n h.node
  obtain rfl := Option.some.inj (h.device.symm.trans hctx)
  rcases (hentry.file h.file).2 with h0 | ⟨ds,hds,hle⟩
  · omega
  · rwa [hcs.unique h.sound.consistent.layout hds]

/-- The bytes of a file after a part of a write that may have made it longer. -/
theorem Opened.overwritten (h : Opened v ex i n ctx) (hcs : IsChain v ctx.startCluster cs)
    (hw : Wrote v v' ctx.startCluster cs more pos r src) (hm : m.device = some ctx)
    (hsize : m.size = max n.size (pos+r))
    (hb : ∀ k < (cs++more).length*v.clusterSize,
      fileByte w ctx.startCluster k = fileByte v' ctx.startCluster k) :
    Overwritten (n.content v) pos (firstBytes src r) (m.content w) := by
  have hl := h.sound.consistent.layout
  have hcov := h.covers hcs
  have hcov' := hw.covers
  have hlen : cs.length*v.clusterSize ≤ (cs++more).length*v.clusterSize := by
    rw [List.length_append,Nat.add_mul]
    omega
  refine ⟨?_,fun k hk => ?_,fun k hk ho => ?_⟩
  · rw [length_content hm,length_content h.device,length_firstBytes,hsize]
  · rw [length_firstBytes] at hk
    rw [content_getElem hm w (by omega),firstBytes_getElem hk,hb _ (by omega),
      (hw.fileByte hl hcs (by omega)).1 (by omega) (by omega),Nat.add_sub_cancel_left]
  · rw [length_content h.device] at hk
    rw [length_firstBytes] at ho
    rw [content_getElem hm w (by omega),content_getElem h.device v hk,hb _ (by omega),
      (hw.fileByte hl hcs (by omega)).2 ho (by omega)]

/-- A part of a write without bytes. -/
theorem Opened.wrote_none (h : Opened v ex i n ctx) (hcs : IsChain v ctx.startCluster cs)
    (hw : Wrote v v' ctx.startCluster cs more 0 0 src) :
    KiNBOL.storeOf v' = KiNBOL.storeOf v := by
  obtain ⟨h',hother⟩ := h.wrote hcs hw
  have hover := h.overwritten hcs hw h.device (by omega) (fun _ _ => rfl)
  funext j
  by_cases hj : j = i
  · rw [hj,h.storeOf,h'.storeOf,hover.eq (Nat.zero_le _)]
    rfl
  · exact hother j hj

/-- A write to a file of a sound volume: so many bytes of the buffer are in the file, all of them
where there is memory and the disk is not full, and the other files are as before. -/
theorem fat32FileWrite_sound (h : Sound v ex) (hi : v.files i = some n) (hd : n.isDir = false)
    (hend : off+len < 2^32) (hf : off+len < fuel) (mem : Option Sector) (src : Sector) : ∃ r v',
      fat32FileWrite fuel mem i off len src v = some (r,v') ∧ Sound v' ex ∧ r ≤ len ∧
      StoreWrote (storeOf v) i off (firstBytes src r) (storeOf v') ∧
      (r = len ∨ mem = none ∨ DiskFull v') := by
  obtain ⟨ctx,hn,-⟩ := h.entry i n hi
  rw [fat32FileWrite,hi]
  dsimp only
  rw [hn]
  dsimp only
  rcases h.firstCluster hi hd hn with ⟨hno,hfull⟩ | ⟨ctx',v1,m,hfirst,ho,hname,hsize,hstore⟩
  · rw [hno]
    exact ⟨0,v,rfl,h,Nat.zero_le _,Or.inl ⟨rfl,rfl⟩,Or.inr (Or.inr hfull)⟩
  rw [hfirst]
  dsimp only
  have hown := startOf_file ho.node ho.device ho.start ex
  obtain ⟨hr,cs,hcs⟩ := ho.sound.consistent.chain _ _ hown
  have hl := ho.sound.consistent.layout
  obtain ⟨xs,rfl⟩ := hcs.head hl hr
  have hdiv := Nat.div_le_self off v1.clusterSize
  have hchain : IsChain v1 ctx'.startCluster ([]++ctx'.startCluster::xs) := hcs
  rcases writeSkip_spec ho.sound.quiet hl hr hchain (by omega : off/v1.clusterSize < fuel) src with
    ⟨v2,more,hrun,hw,hfull,-⟩ | ⟨y,j,v2,more,pre,post,hrun,hw,heq,hj,hpos⟩
  · rw [hrun]
    obtain ⟨h2,-⟩ := ho.wrote hcs hw
    exact ⟨0,v2,rfl,h2.sound,Nat.zero_le _,Or.inl ⟨rfl,by rw [ho.wrote_none hcs hw,hstore]⟩,
      Or.inr (Or.inr hfull)⟩
  rw [hrun]
  dsimp only
  obtain ⟨h2,-⟩ := ho.wrote hcs hw
  have hsame := ho.wrote_none hcs hw
  cases mem with
  | none =>
    exact ⟨0,v2,rfl,h2.sound,Nat.zero_le _,Or.inl ⟨rfl,by rw [hsame,hstore]⟩,Or.inr (Or.inl rfl)⟩
  | some cbuf =>
    dsimp only
    have hchain2 := hw.chain
    rw [heq] at hchain2
    have hsize2 := hw.step.clusterSize
    have hpos2 : pre.length*v2.clusterSize+j = off := by
      rw [hsize2,hpos,List.length_nil]
      omega
    obtain ⟨r,v3,more',hcopy,hw3,hle,hwhy⟩ := writeCopy_spec h2.sound.quiet
      h2.sound.consistent.layout (hw.step.inRange.mpr hr) hchain2 (by rw [hsize2]; exact hj)
      (Nat.zero_le len) (by omega : len-0 < fuel) cbuf
    rw [hpos2] at hw3
    simp only [Nat.zero_add] at hw3 hcopy
    rw [hcopy]
    dsimp only
    obtain ⟨h3,hother3⟩ := h2.wrote hchain2 hw3
    have hu32 : u32 (off+r) = off+r := by
      rw [u32,Nat.mod_eq_of_lt]
      omega
    have hcov := hw3.covers
    rw [← hw3.step.clusterSize] at hcov
    obtain ⟨h4,hother4,htotal,hfat,hbytes⟩ := h3.growFile hw3.chain hcov (by omega)
    rw [← hstore,← hsame,hu32]
    rw [hw3.step.clusterSize] at hbytes
    have hover := h2.overwritten hchain2 hw3 (m := { m with size := max m.size (off+r) })
      h4.device rfl hbytes
    refine ⟨r,_,rfl,h4.sound,by omega,Or.inr ⟨_,_,h2.storeOf,rfl,hover,?_⟩,?_⟩
    · funext j
      by_cases hj : j = i
      · rw [hj,h4.storeOf,Function.update_self]
      · rw [hother4 j hj,hother3 j hj,Function.update_of_ne hj]
    · refine hwhy.imp (fun hr => by omega) (fun hend => Or.inr (fun c hc => ?_))
      have hc' : InRange v3 c := ⟨hc.1,by rw [← htotal]; exact hc.2⟩
      rw [hfat c hc'.2]
      exact hend.1 c hc'

namespace Volume

theorem updateDirent_kept (v : Volume) (ctx : FileCtx) (change : Slot → Slot) :
    Kept v (v.updateDirent ctx change) := by
  have hread := v.readSector_kept ctx.direntSector
  rw [updateDirent]
  split
  next hs =>
    rw [hs] at hread
    exact hread
  next hs =>
    rw [hs] at hread
    exact hread.trans (writeSector_kept ..)

theorem nextOrAlloc_kept (v : Volume) (c : Nat) : Kept v (v.nextOrAlloc c).2 := by
  have hnext := v.fatGetEntry_kept c
  rw [nextOrAlloc]
  dsimp only
  split_ifs
  · have halloc := (v.fatGetEntry c).2.allocCluster_kept
    split
    next hs =>
      rw [hs] at halloc
      exact hnext.trans halloc
    next hs =>
      rw [hs] at halloc
      exact hnext.trans (halloc.trans (fatSetEntry_kept ..))
  · exact hnext

theorem firstCluster_others (v : Volume) (i : Fin 40) (n : FsNode) (ctx : FileCtx) :
    (v.firstCluster i n ctx).2.others = v.others := by
  rw [firstCluster]
  split_ifs
  · have halloc := v.allocCluster_kept
    split
    next hs =>
      rw [hs] at halloc
      exact halloc.others
    next hs =>
      rw [hs] at halloc
      exact (updateDirent_kept ..).others.trans halloc.others
  · rfl

theorem growFile_others (v : Volume) (i : Fin 40) (ctx : FileCtx) (size : Nat) :
    (v.growFile i ctx size).others = v.others := by
  rw [growFile]
  split
  · rfl
  · split_ifs
    · exact (updateDirent_kept ..).others
    · rfl

theorem fillBuffer_kept (v : Volume) (c skip chunk : Nat) (cbuf : Sector) :
    Kept v (v.fillBuffer c skip chunk cbuf).2 := by
  rw [fillBuffer]
  split_ifs
  · have hread := v.readSectors_kept (v.clusterToLba c) v.sectorsPerCluster
    split
    next hs =>
      rw [hs] at hread
      exact hread
    next hs =>
      rw [hs] at hread
      exact hread
  · exact Kept.refl v

end Volume

theorem writeSkip_kept {skip : Nat} {x : Option (Nat × Nat)}
    (h : writeSkip fuel c skip v = some (x,v')) : Kept v v' := by
  induction fuel generalizing c skip v with
  | zero => simp [writeSkip] at h
  | succ fuel ih =>
    rw [writeSkip] at h
    split_ifs at h
    · have hnext := v.nextOrAlloc_kept c
      split at h
      next hs =>
        rw [hs] at hnext
        obtain ⟨-,rfl⟩ := Prod.mk.inj (Option.some.inj h)
        exact hnext
      next hs =>
        rw [hs] at hnext
        exact hnext.trans (ih h)
    · obtain ⟨-,rfl⟩ := Prod.mk.inj (Option.some.inj h)
      exact Kept.refl v

theorem writeCopy_kept {skip done : Nat} {cbuf : Sector}
    (h : writeCopy len src fuel c skip done cbuf v = some (r,v')) : Kept v v' := by
  induction fuel generalizing c skip done cbuf v with
  | zero => simp [writeCopy] at h
  | succ fuel ih =>
    rw [writeCopy] at h
    split_ifs at h
    · have hfill := v.fillBuffer_kept c skip (min (v.clusterSize-skip) (len-done)) cbuf
      dsimp only at h
      generalize v.fillBuffer c skip (min (v.clusterSize-skip) (len-done)) cbuf = filled at h hfill
      obtain ⟨cb,u⟩ := filled
      have hwrite := hfill.trans (u.writeSectors_kept (u.clusterToLba c)
        (overlay cb skip (min (v.clusterSize-skip) (len-done)) (fun i => src (done+i)))
        u.sectorsPerCluster)
      dsimp only at h
      split at h
      next hs =>
        rw [hs] at hwrite
        obtain ⟨-,rfl⟩ := Prod.mk.inj (Option.some.inj h)
        exact hwrite
      next w hs =>
        rw [hs] at hwrite
        split_ifs at h
        · have hnext := w.nextOrAlloc_kept c
          split at h
          next hs =>
            rw [hs] at hnext
            obtain ⟨-,rfl⟩ := Prod.mk.inj (Option.some.inj h)
            exact hwrite.trans hnext
          next hs =>
            rw [hs] at hnext
            exact (hwrite.trans hnext).trans (ih h)
        · obtain ⟨-,rfl⟩ := Prod.mk.inj (Option.some.inj h)
          exact hwrite
    · obtain ⟨-,rfl⟩ := Prod.mk.inj (Option.some.inj h)
      exact Kept.refl v

/-- The nodes of the other providers stay as they are. -/
theorem fat32FileWrite_others (h : fat32FileWrite fuel mem i off len src v = some (r,v')) :
    v'.others = v.others := by
  rw [fat32FileWrite] at h
  split at h
  · obtain ⟨-,rfl⟩ := Prod.mk.inj (Option.some.inj h)
    rfl
  split at h
  · obtain ⟨-,rfl⟩ := Prod.mk.inj (Option.some.inj h)
    rfl
  next n _ _ ctx _ =>
    have hfirst := v.firstCluster_others i n ctx
    split at h
    next hs =>
      rw [hs] at hfirst
      obtain ⟨-,rfl⟩ := Prod.mk.inj (Option.some.inj h)
      exact hfirst
    next hs =>
      rw [hs] at hfirst
      split at h
      · simp at h
      next hskip =>
        obtain ⟨-,rfl⟩ := Prod.mk.inj (Option.some.inj h)
        exact (writeSkip_kept hskip).others.trans hfirst
      next hskip =>
        have hothers := (writeSkip_kept hskip).others.trans hfirst
        split at h
        · obtain ⟨-,rfl⟩ := Prod.mk.inj (Option.some.inj h)
          exact hothers
        · split at h
          · simp at h
          next hcopy =>
            obtain ⟨-,rfl⟩ := Prod.mk.inj (Option.some.inj h)
            exact (Volume.growFile_others ..).trans ((writeCopy_kept hcopy).others.trans hothers)

end KiNBOL
