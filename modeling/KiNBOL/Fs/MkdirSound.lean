import KiNBOL.Fs.CreateSound

namespace KiNBOL

/-! New directories in a sound volume. -/

variable {v v' w : Volume} {ex : List Nat} {o : Owner} {dir fuel newc : Nat} {cs : List Nat}
  {loc : Loc} {e : Slot} {buf : Sector} {i : Fin 40} {name : CName}

/-- The slots in the first sector of a new directory. -/
theorem dotSector_slot (newc dir : Nat) {j : Nat} : (getSlot (dotSector newc dir) (32*j)).isEnd =
    decide (2 ≤ j) := by
  rw [dotSector]
  rcases Nat.lt_or_ge j 2 with hj | hj
  · obtain rfl | rfl : j = 0 ∨ j = 1 := by omega
    · rw [getSlot_putSlot_other (by omega),getSlot_putSlot]
      rfl
    · rw [getSlot_putSlot]
      rfl
  · rw [getSlot_putSlot_other (by omega),getSlot_putSlot_other (by omega),decide_eq_true hj]
    rfl

/-- A chain kept for a node that is not registered yet has no cluster of another owner. -/
theorem Consistent.kept_apart (h : Consistent v (ex++[newc])) : InRange v newc ∧
    ∀ o x, Owns v ex o x → x ≠ newc := by
  have hlast : startOf v (ex++[newc]) (.extra ex.length) = some newc := by simp [startOf]
  obtain ⟨hr,ds,hds⟩ := h.chain _ _ hlast
  obtain ⟨xs,rfl⟩ := hds.head h.layout hr
  refine ⟨hr,fun o x hx he => ?_⟩
  obtain ⟨c,cs,ho,hcs,hmem⟩ := hx
  have ho' : startOf v (ex++[newc]) o = some c ∧ o ≠ .extra ex.length := by
    cases o with
    | root => exact ⟨ho,by simp⟩
    | file i => exact ⟨ho,by simp⟩
    | extra j =>
      obtain ⟨hj,-⟩ := List.getElem?_eq_some_iff.mp ho
      refine ⟨?_,fun he => ?_⟩
      · rw [startOf,List.getElem?_append_left hj]
        exact ho
      · rw [Owner.extra.injEq] at he
        omega
  exact ho'.2 (h.apart o _ x ⟨c,cs,ho'.1,hcs,hmem⟩ ⟨newc,_,hlast,hds,by rw [he]; simp⟩)

/-- That cluster is filled. -/
theorem NewEntry.fill (h : NewEntry v ex o dir cs loc e) (hc : Consistent v (ex++[newc]))
    (buf : Sector) (hw : v' = v.setSectors (v.clusterToLba newc) buf v.sectorsPerCluster) :
    NewEntry v' ex o dir cs loc e ∧ storeOf v' = storeOf v ∧ Consistent v' (ex++[newc]) ∧
      (∀ d ds, IsChain v d ds → IsChain v' d ds) ∧ ∀ a, InCluster v newc a →
        v'.disk a = fun k => buf ((a-(v.dataStart+(newc-2)*v.sectorsPerCluster))*512+k) := by
  obtain ⟨hr,hout⟩ := hc.kept_apart
  have hl := hc.layout
  have hs := DiskStep.setSectors v (v.clusterToLba newc) buf v.sectorsPerCluster
  have hdisk := hl.disk_setCluster hr buf
  rw [← hw] at hs hdisk
  have hfat : ∀ d < v.totalClusters+2, fatAt v' d = fatAt v d := by
    refine fun d hd => fatAt_data hl hs (fun a ha => ?_) hd
    rw [hdisk,if_neg]
    intro hin
    have := hin.data
    omega
  have hkeep : ∀ o x, Owns v ex o x → ∀ a, InCluster v x a → v'.disk a = v.disk a := by
    intro o x hx a ha
    rw [hdisk,if_neg]
    exact fun hin => hout o x hx (InCluster.unique hx.inRange.1 hr.1 ha hin)
  obtain ⟨hsound,hstore,hchain⟩ := h.sound.elsewhere hs (fun o x hx => hfat x hx.inRange.2) hkeep
  refine ⟨⟨hsound,hs.dirOwner.mpr h.owner,hchain o dir cs h.owner.1 h.chain,?_,?_,?_⟩,hstore,
    hc.keep hs (fun o x hx => hfat x hx.inRange.2),
    fun d ds hds => hds.keep hs (fun x hx => hfat x (Chained.all_ok hds x hx).2),
    fun a ha => by rw [hdisk,if_pos ha]⟩
  · rw [hs.dirLocs]
    exact h.mem
  · rw [slot_kept hl h.chain (fun x hx => hkeep o x ⟨dir,cs,h.owner.1,h.chain,hx⟩) loc h.mem]
    exact h.slot
  · intro j ctx hj
    rw [fileCtx,hs.files] at hj
    exact h.fresh j ctx hj

/-- The slots of a new directory end with end marks. -/
theorem dotSector_tail (hl : DiskLayout v) (hr : InRange v newc)
    (hd : ∀ a, InCluster v newc a → v.disk a = fun k =>
      dotSector newc dir ((a-(v.dataStart+(newc-2)*v.sectorsPerCluster))*512+k)) :
    EndTail (v.dirSlots [newc]) := by
  have hslots : v.dirSlots [newc] = (List.range (16*v.sectorsPerCluster)).map
      (fun j => (locOf v newc j,getSlot (dotSector newc dir) (32*j))) := by
    rw [dirSlots_eq,dirLocs,List.flatMap_singleton,hl.slotLocs_eq hr,List.map_map]
    apply List.map_congr_left
    intro j hj
    rw [List.mem_range] at hj
    have hin : InCluster v newc (locOf v newc j).lba := by
      simp only [InCluster,locOf]
      omega
    simp only [Function.comp,Prod.mk.injEq,true_and]
    funext b
    rw [dirSlotAt,getSlot,hd _ hin,getSlot]
    simp only [locOf]
    congr 1
    omega
  rw [EndTail,Ended,hslots,List.pairwise_map]
  refine List.pairwise_lt_range.imp (fun hab hend => ?_)
  rw [dotSector_slot] at hend ⊢
  simp only [decide_eq_true_eq] at hend ⊢
  omega

/-- A new directory registered. -/
theorem NewEntry.registerDir (h : NewEntry v ex o dir cs loc e) (hc : Consistent v (ex++[newc]))
    (hchain : IsChain v newc [newc]) (htail : EndTail (v.dirSlots [newc]))
    (hshown : e.isEnd = false ∧ e.counted = true) (hcl : e.cluster = newc) (hi : v.files i = none)
    (name : CName) :
    Sound (v.withNode i ⟨name,vfsDirectory,0,some ⟨newc,loc.lba,loc.offset⟩⟩) ex ∧
      storeOf (v.withNode i ⟨name,vfsDirectory,0,some ⟨newc,loc.lba,loc.offset⟩⟩) =
        Function.update (storeOf v) i (some ⟨name,true,[]⟩) := by
  have hdir : (⟨name,vfsDirectory,0,some ⟨newc,loc.lba,loc.offset⟩⟩ : FsNode).isDir = true := by
    simp [FsNode.isDir,vfsDirectory]
  have hpos : newc ≠ 0 := by
    have := hc.kept_apart.1.1
    omega
  have hcons := hc.addDir (i := i)
    (n := ⟨name,vfsDirectory,0,some ⟨newc,loc.lba,loc.offset⟩⟩) rfl rfl hpos h.located
  obtain ⟨hsound,hupdate⟩ := h.register hi rfl rfl hcons hshown hcl (fun _ => hpos)
    (fun hd => by rw [hdir] at hd; simp at hd)
    (fun _ ds hds => by rw [hds.unique hc.layout hchain]; exact htail)
  refine ⟨hsound,?_⟩
  rw [hupdate,FsNode.shown,hdir]
  rfl

/-- `fat32_mkdir` on a sound volume: a new directory, or the files are as before. -/
theorem fat32Mkdir_sound (h : Sound v ex) (hf : v.totalClusters+2 ≤ fuel) (k : Kmalloc)
    {path : CName} (hp : PlainName path) : ∃ st v',
      fat32Mkdir fuel k path v = some (st,v') ∧ Sound v' ex ∧
      v'.totalClusters = v.totalClusters ∧
      (st = .ok → StoreMade (storeOf v) path true (storeOf v')) ∧
      (st ≠ .ok → storeOf v' = storeOf v) := by
  have hsame : ∀ st, st ≠ .ok → fat32Mkdir fuel k path v = some (st,v) → ∃ st v',
      fat32Mkdir fuel k path v = some (st,v') ∧ Sound v' ex ∧ v'.totalClusters = v.totalClusters ∧
      (st = .ok → StoreMade (storeOf v) path true (storeOf v')) ∧
      (st ≠ .ok → storeOf v' = storeOf v) :=
    fun st hst hrun => ⟨st,v,hrun,h,rfl,fun hok => absurd hok hst,fun _ => rfl⟩
  by_cases hok : v.fatOk = true
  swap
  · exact hsame .errNoFs (by simp) (by rw [fat32Mkdir,if_pos (by simpa using hok)])
  by_cases hfull : v.slotFull = true
  · exact hsame .errDisk (by simp) (by rw [fat32Mkdir,if_neg (by simpa using hok),if_pos hfull])
  cases hparent : resolveParent v (stripDevPrefix path) with
  | none =>
    exact hsame .errNoParent (by simp)
      (by rw [fat32Mkdir,if_neg (by simpa using hok),if_neg hfull,hparent])
  | some p =>
    by_cases hfind : (v.vfsFind (joinFullName p.name p.leaf)).isSome = true
    · exact hsame .errExists (by simp) (by
        rw [fat32Mkdir,if_neg (by simpa using hok),if_neg hfull,hparent]
        dsimp only
        rw [if_pos hfind])
    rcases alloc_fresh h.quiet h.consistent.layout with ⟨hno,-⟩ | ⟨newc,u,halloc,hfresh⟩
    · exact hsame .errDisk (by simp) (by
        rw [fat32Mkdir,if_neg (by simpa using hok),if_neg hfull,hparent]
        dsimp only
        rw [if_neg hfind,hno])
    obtain ⟨cs,hd⟩ := h.consistent.resolveParent hparent
    obtain ⟨o,ho,hcs⟩ := h.dirOwner hparent hd
    have hleaf : PlainName p.leaf := hp.strip.of_subset (resolveParent_leaf hparent)
    rw [fat32Mkdir,if_neg (by simpa using hok),if_neg hfull,hparent]
    dsimp only
    rw [if_neg hfind,halloc]
    dsimp only
    generalize u.fatSetEntry newc 0x0FFFFFFF = v₁ at hfresh ⊢
    obtain ⟨h1,hstore1,howner⟩ := hfresh.sound h
    have hc1 := hfresh.consistent h.consistent
    have ho1 : DirOwner v₁ ex o p.dirCluster := hfresh.step.dirOwner.mpr ho
    have hcs1 := hfresh.keep hcs
    have hf1 : v₁.totalClusters+2 ≤ fuel := by rw [hfresh.step.total]; exact hf
    have hd1 : DirOf v₁ ex p.dirCluster cs := Or.inl ⟨o,ho1,hcs1⟩
    have hfuel := h1.consistent.fuel_le hd1 hf1
    rw [newShortName_spec h1.quiet (h1.consistent.dirChain hd1).walk (by omega)]
    dsimp only
    obtain ⟨nth,hnth⟩ := chosenShort_candidate k v₁ cs p.leaf
    rcases h1.writeEntry ho1 hcs1 hleaf hf1 hnth k 0x10#8 newc with hno |
      ⟨locs,new,w,loc,hrun,hw,hnew,hstore2⟩
    · rw [hno]
      exact ⟨.errDisk,v₁,rfl,h1,hfresh.step.total,fun hok => by simp at hok,fun _ => hstore1⟩
    rw [hrun]
    dsimp only
    have hstore := hstore2.trans hstore1
    have htotal : w.totalClusters = v.totalClusters := hw.step.total.trans hfresh.step.total
    have hcw : Consistent w (ex++[newc]) := hw.consistent hc1 (hfresh.dirOf hd)
    split_ifs with hblock
    · exact ⟨.errDisk,w,rfl,hnew.sound,htotal,fun hok => by simp at hok,fun _ => hstore⟩
    rw [Volume.writeSectors_quiet hnew.sound.quiet]
    dsimp only
    obtain ⟨hfill,hstore3,hc2,hkeep,hdot⟩ :=
      hnew.fill hcw (dotSector newc p.dirCluster) rfl
    have hs := DiskStep.setSectors w (w.clusterToLba newc) (dotSector newc p.dirCluster)
      w.sectorsPerCluster
    generalize w.setSectors (w.clusterToLba newc) (dotSector newc p.dirCluster)
      w.sectorsPerCluster = v₂ at hfill hstore3 hc2 hkeep hdot hs ⊢
    have htail := dotSector_tail hc2.layout hc2.kept_apart.1 (fun a ha => by
      rw [hs.dataStart,hs.spc]
      exact hdot a (hs.inCluster.mp ha))
    have hchain : IsChain v₂ newc [newc] := by
      refine hkeep _ _ (hw.keep_chain hc1 (hfresh.dirOf hd) hfresh.isChain (fun x hx hin => ?_))
      rw [List.mem_singleton.mp hx] at hin
      exact hcs.used newc hin hfresh.free
    have htotal2 := hs.total.trans htotal
    have hstore' := hstore3.trans hstore
    rw [registerNew]
    split_ifs with hk
    · exact ⟨.errDisk,v₂,rfl,hfill.sound,htotal2,fun hok => by simp at hok,fun _ => hstore'⟩
    · rcases addNode_cases v₂ ⟨joinFullName p.name p.leaf,vfsDirectory,0,
        some ⟨newc,loc.lba,loc.offset⟩⟩ with ⟨hno,-⟩ | ⟨i,hi,hadd⟩
      · rw [hno]
        exact ⟨.errDisk,v₂,rfl,hfill.sound,htotal2,fun hok => by simp at hok,fun _ => hstore'⟩
      · rw [hadd]
        have hsmall : newc < 2^32 := by
          have hfew := hc2.layout.few
          have := hc2.kept_apart.1.2
          rw [endOfChain] at hfew
          omega
        have hfirst : FirstOf p.leaf ((chosenShort k v₁ cs p.leaf).name8.getD 0 0#8) := by
          rw [hnth]
          exact shortCandidate_head p.leaf nth
        obtain ⟨hsound,hupdate⟩ := hfill.registerDir hc2 hchain htail
          (dirEntry_shown hleaf hfirst (Or.inr rfl) newc 0) (dirEntry_cluster _ _ hsmall 0) hi
          (joinFullName p.name p.leaf)
        refine ⟨.ok,_,rfl,hsound,htotal2,fun _ => ⟨i,_,?_,joinFullName_path hparent,?_⟩,
          fun hok => absurd rfl hok⟩
        · rw [← hstore',storeOf,hi]
          rfl
        · rw [hupdate,hstore']

end KiNBOL
