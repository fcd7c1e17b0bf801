import KiNBOL.Fs.MkdirSound

namespace KiNBOL

/-! Removals from a sound volume. -/

variable {v v' w : Volume} {ex : List Nat} {o : Owner} {dir fuel c x : Nat} {cs ds : List Nat}
  {loc target : Loc} {e : Slot} {i j : Fin 40} {n : FsNode} {ctx : FileCtx} {sum : Byte} {k : Kmalloc}

/-- A chain given back: its entries are zero, and nothing else has changed. -/
structure Freed (v v' : Volume) (cs : List Nat) : Prop where
  step : DiskStep v v'
  fat : ∀ d < v.totalClusters+2, fatAt v' d = if d ∈ cs then 0 else fatAt v d
  disk : ∀ a, v.dataStart ≤ a → v'.disk a = v.disk a

theorem fatSetEntry_freed (hq : v.io = []) (hl : DiskLayout v) (hc : c < v.totalClusters+2)
    (count : Nat) : Freed v { v.fatSetEntry c 0 with fsinfoFreeCount := count } [c] := by
  obtain ⟨hs,hfat,hdisk,-,-⟩ := fatSetEntry_spec hq hl hc 0
  have h2 : DiskStep (v.fatSetEntry c 0) { v.fatSetEntry c 0 with fsinfoFreeCount := count } := by
    constructor <;> first | rfl | exact fun h => h
  refine ⟨hs.trans h2,fun d hd => ?_,fun a ha => hdisk a (Or.inr ha)⟩
  rw [fatAt_congr h2 rfl,hfat d hd]
  simp only [List.mem_singleton,Nat.zero_mod]

theorem Freed.cons (h1 : Freed v w [c]) (h2 : Freed w v' cs) : Freed v v' (c::cs) where
  step := h1.step.trans h2.step
  fat d hd := by
    rw [h2.fat d (by rw [h1.step.total]; exact hd),h1.fat d hd]
    by_cases hc : d = c
    · simp [hc]
    · simp [hc]
  disk a ha := by rw [h2.disk a (by rw [h1.step.dataStart]; exact ha),h1.disk a ha]

/-- `free_chain`'s loop over a chain. -/
theorem freeLoop_spec (hq : v.io = []) (hl : DiskLayout v) (h : IsChain v c cs)
    (hf : cs.length < fuel) : ∃ v', freeLoop fuel c v = some v' ∧ Freed v v' cs := by
  induction cs generalizing v c fuel with
  | nil =>
    obtain ⟨fuel,rfl⟩ : ∃ n, fuel = n+1 := ⟨fuel-1,by omega⟩
    have hend : endOfChain ≤ c := h
    refine ⟨v,?_,DiskStep.refl v,fun d _ => by simp,fun _ _ => rfl⟩
    rw [freeLoop,if_neg (by omega)]
  | cons y cs ih =>
    obtain ⟨fuel,rfl⟩ : ∃ n, fuel = n+1 := ⟨fuel-1,by omega⟩
    have hnd := h.nodup hl
    obtain ⟨rfl,hr,hcs⟩ := h
    have hin : 2 ≤ c ∧ c < endOfChain := hl.inChain hr
    rw [freeLoop,if_pos hin,Volume.fatGetEntry_quiet hq]
    dsimp only
    obtain ⟨count,hcount⟩ : ∃ count, (if (v.fatSetEntry c 0).fsinfoValid &&
        decide ((v.fatSetEntry c 0).fsinfoFreeCount ≠ 0xFFFFFFFF) then
        { v.fatSetEntry c 0 with fsinfoFreeCount := u32 ((v.fatSetEntry c 0).fsinfoFreeCount+1) }
        else v.fatSetEntry c 0) = { v.fatSetEntry c 0 with fsinfoFreeCount := count } := by
      split_ifs
      · exact ⟨_,rfl⟩
      · exact ⟨_,rfl⟩
    rw [hcount]
    have hfree := fatSetEntry_freed hq hl hr.2 count
    have hrest : IsChain { v.fatSetEntry c 0 with fsinfoFreeCount := count } (fatAt v c) cs := by
      refine IsChain.keep hfree.step hcs (fun z hz => ?_)
      have hne : z ≠ c := fun he => (List.nodup_cons.mp hnd).1 (he ▸ hz)
      rw [hfree.fat z (Chained.all_ok hcs z hz).2,if_neg (by simpa using hne)]
    obtain ⟨v',hrun,hv⟩ := ih (hfree.step.io.trans hq) (hfree.step.layout hl) hrest
      (by simpa using hf)
    exact ⟨v',hrun,hfree.cons hv⟩

/-- `free_chain`. -/
theorem freeChain_spec (hq : v.io = []) (hl : DiskLayout v) (h : IsChain v c cs)
    (hf : cs.length < fuel) : ∃ v', v.freeChain fuel c = some v' ∧ Freed v v' cs := by
  obtain ⟨w,hrun,hw⟩ := freeLoop_spec hq hl h hf
  obtain ⟨hs,hsave⟩ := fsinfoSave_spec (hw.step.io.trans hq) (hw.step.layout hl)
  refine ⟨w.fsinfoSave,by rw [Volume.freeChain,hrun,Option.map_some],hw.step.trans hs,
    fun d hd => ?_,fun a ha => ?_⟩
  · obtain ⟨hsec,-,-,-⟩ := hl.fatSector_eq hd
    rw [fatAt_congr hs (hsave _ (by rw [hw.step.fatSector,hw.step.fatStart]; omega)),hw.fat d hd]
  · have hdata := hl.data
    have := Nat.zero_le (v.numFats*v.fatSize32)
    rw [hsave a (by rw [hw.step.fatStart]; omega),hw.disk a ha]

/-- Slots of a directory marked as deleted: only the target and parts of long names. -/
structure Marked (v v' : Volume) (locs : List Loc) : Prop where
  step : DiskStep v v'
  fat : ∀ d < v.totalClusters+2, fatAt v' d = fatAt v d
  disk : ∀ a, (∀ loc ∈ locs, a ≠ loc.lba) → v'.disk a = v.disk a
  slot : ∀ loc, loc.Aligned → dirSlotAt v' loc = dirSlotAt v loc ∨
    loc ∈ locs ∧ dirSlotAt v' loc = (dirSlotAt v loc).deleted

theorem putSlot_deleted (s : Sector) (off : Nat) :
    putSlot s off (getSlot s off).deleted = fun i => if i = off then 0xE5#8 else s i := by
  funext b
  rw [putSlot]
  by_cases hb : b = off
  · rw [dif_pos (by omega),if_pos hb,Slot.deleted,if_pos (by simp [hb])]
  · rw [if_neg hb]
    split_ifs with hin
    · have hne : (⟨b-off,by omega⟩ : Fin 32) ≠ 0 := by
        intro he
        have := congrArg Fin.val he
        simp only [Fin.val_zero] at this
        omega
      rw [Slot.deleted,if_neg hne,getSlot]
      congr 1
      dsimp only
      omega
    · rfl

theorem markDeleted_quiet (hq : v.io = []) (loc : Loc) :
    v.markDeleted loc = v.putAt loc (dirSlotAt v loc).deleted := by
  rw [Volume.markDeleted,Volume.readSector_quiet hq]
  dsimp only
  rw [Volume.writeSector_quiet hq,Volume.putAt,dirSlotAt,putSlot_deleted]

theorem deleted_deleted (e : Slot) : e.deleted.deleted = e.deleted := by
  funext b
  rw [Slot.deleted]
  split_ifs with hb
  · rw [Slot.deleted,if_pos hb]
  · rfl

theorem Marked.refl (v : Volume) (locs : List Loc) : Marked v v locs where
  step := DiskStep.refl v
  fat := fun _ _ => rfl
  disk := fun _ _ => rfl
  slot := fun _ _ => Or.inl rfl

theorem Marked.trans {locs locs' : List Loc} (h1 : Marked v w locs) (h2 : Marked w v' locs') :
    Marked v v' (locs++locs') where
  step := h1.step.trans h2.step
  fat d hd := by rw [h2.fat d (by rw [h1.step.total]; exact hd),h1.fat d hd]
  disk a ha := by
    rw [h2.disk a (fun loc hloc => ha loc (by simp [hloc])),
      h1.disk a (fun loc hloc => ha loc (by simp [hloc]))]
  slot loc ha := by
    rcases h2.slot loc ha with h | ⟨hm,h⟩
    · rcases h1.slot loc ha with h' | ⟨hm',h'⟩
      · exact Or.inl (h.trans h')
      · exact Or.inr ⟨by simp [hm'],h.trans h'⟩
    · rcases h1.slot loc ha with h' | ⟨hm',h'⟩
      · exact Or.inr ⟨by simp [hm],by rw [h,h']⟩
      · exact Or.inr ⟨by simp [hm],by rw [h,h',deleted_deleted]⟩

/-- One deletion mark in the data region. -/
theorem markDeleted_marked (hq : v.io = []) (hl : DiskLayout v) (ha : loc.Aligned)
    (hd : v.dataStart ≤ loc.lba) : Marked v (v.markDeleted loc) [loc] := by
  rw [markDeleted_quiet hq]
  refine ⟨DiskStep.putAt ..,fun d hdt => fatAt_putAt hl hd hdt,
    fun a hout => disk_putAt_other (hout loc (by simp)),fun loc' ha' => ?_⟩
  rw [slotAt_putAt ha ha']
  split_ifs with heq
  · rw [heq]
    exact Or.inr ⟨by simp,rfl⟩
  · exact Or.inl rfl

theorem foldl_markDeleted (hq : v.io = []) (hl : DiskLayout v) {locs : List Loc}
    (h : ∀ loc ∈ locs, loc.Aligned ∧ v.dataStart ≤ loc.lba) :
    Marked v (locs.foldl Volume.markDeleted v) locs := by
  induction locs generalizing v with
  | nil => exact Marked.refl v []
  | cons loc locs ih =>
    have h1 := markDeleted_marked hq hl (h loc (by simp)).1 (h loc (by simp)).2
    exact h1.trans (ih (h1.step.io.trans hq) (h1.step.layout hl) (fun loc' hloc => by
      rw [h1.step.dataStart]
      exact h loc' (by simp [hloc])))

/-- Parts of long names, as the scan for the slots of a removed node collects them. -/
def LfnPlaces (v : Volume) (cs : List Nat) (locs : List Loc) : Prop :=
  ∀ loc ∈ locs, loc ∈ dirLocs v cs ∧ (dirSlotAt v loc).isLfn = true ∧ (dirSlotAt v loc).isEnd = false

theorem MarkScan.next_places {s : MarkScan} (hs : LfnPlaces v cs s.run) (hloc : loc ∈ dirLocs v cs)
    (hlfn : (dirSlotAt v loc).isLfn = true) (hend : (dirSlotAt v loc).isEnd = false) :
    LfnPlaces v cs (s.next sum loc e).run := by
  have hone : LfnPlaces v cs [loc] := by
    intro l hl
    rw [List.mem_singleton.mp hl]
    exact ⟨hloc,hlfn,hend⟩
  have hnil : LfnPlaces v cs [] := by simp [LfnPlaces]
  rw [MarkScan.next]
  split_ifs
  · exact hone
  · exact hnil
  · intro l hl
    rcases List.mem_append.mp hl with hl | hl
    · exact hs l hl
    · exact hone l hl
  · exact hnil

/-- Slots of a directory that a removal may mark: the target and parts of long names. -/
def MayMark (v : Volume) (cs : List Nat) (target loc : Loc) : Prop :=
  loc ∈ dirLocs v cs ∧ (dirSlotAt v loc).isEnd = false ∧
    (loc = target ∨ (dirSlotAt v loc).isLfn = true)

/-- What the loop over the slots of a cluster does: it leaves the disk alone until it ends. -/
theorem markSlots_cases (hq : v.io = []) (hl : DiskLayout v) (hr : ∀ c ∈ cs, InRange v c)
    (l : List (Loc × Slot)) (hmem : ∀ x ∈ l, x ∈ v.dirSlots cs) {s : MarkScan}
    (hs : LfnPlaces v cs s.run) :
    (∃ s', markSlots sum target l s v = (.inr s',v) ∧ LfnPlaces v cs s'.run) ∨
    ∃ b w locs, markSlots sum target l s v = (.inl b,w) ∧ Marked v w locs ∧
      ∀ loc ∈ locs, MayMark v cs target loc := by
  induction l generalizing s with
  | nil => exact Or.inl ⟨s,rfl,hs⟩
  | cons x l ih =>
    obtain ⟨loc,e⟩ := x
    have hx := hmem (loc,e) (by simp)
    have he : dirSlotAt v loc = e := dirSlots_snd _ hx
    have hloc : loc ∈ dirLocs v cs := by
      rw [← dirSlots_fst]
      exact List.mem_map_of_mem (f := Prod.fst) hx
    have hrest : ∀ x ∈ l, x ∈ v.dirSlots cs := fun x hx => hmem x (by simp [hx])
    have hplace : ∀ loc ∈ dirLocs v cs, loc.Aligned ∧ v.dataStart ≤ loc.lba := by
      intro loc hloc
      obtain ⟨ha,y,-,hin⟩ := (hl.mem_dirLocs hr).mp hloc
      exact ⟨ha,hin.data⟩
    have hmark := markDeleted_marked hq hl (hplace loc hloc).1 (hplace loc hloc).2
    rw [markSlots]
    split_ifs with hend hlfn htarget hrun
    · exact Or.inr ⟨true,v,[],rfl,Marked.refl v [],by simp⟩
    · refine ih hrest (MarkScan.next_places hs hloc ?_ ?_)
      · rw [he]
        simp only [Bool.and_eq_true] at hlfn
        exact hlfn.2
      · rw [he]
        simpa using hend
    · right
      have hrun' := foldl_markDeleted (hmark.step.io.trans hq) (hmark.step.layout hl)
        (fun l hl' => by
          rw [hmark.step.dataStart]
          exact hplace l (hs l hl').1)
      refine ⟨true,_,_,rfl,hmark.trans hrun',fun l hl' => ?_⟩
      rcases List.mem_append.mp hl' with hl' | hl'
      · rw [List.mem_singleton.mp hl']
        exact ⟨hloc,by rw [he]; simpa using hend,Or.inl htarget⟩
      · obtain ⟨h1,h2,h3⟩ := hs l hl'
        exact ⟨h1,h3,Or.inr h2⟩
    · right
      refine ⟨true,_,_,rfl,hmark,fun l hl' => ?_⟩
      rw [List.mem_singleton.mp hl']
      exact ⟨hloc,by rw [he]; simpa using hend,Or.inl htarget⟩
    · exact ih hrest (by simp [LfnPlaces])

theorem markSlots_inr {l : List (Loc × Slot)} {s s' : MarkScan}
    (h : markSlots sum target l s v = (.inr s',w)) : w = v := by
  induction l generalizing s with
  | nil => exact (Prod.mk.inj h).2.symm
  | cons x l ih =>
    obtain ⟨loc,e⟩ := x
    rw [markSlots] at h
    split_ifs at h
    · simp at h
    · exact ih h
    · simp at h
    · simp at h
    · exact ih h

/-- A turn of the loop of `mark_removed_with_lfn`, without its reads. -/
def markStep (v : Volume) (sum : Byte) (target : Loc) (c : Nat) (s : MarkScan) :
    (Bool × Volume) ⊕ MarkScan :=
  match markSlots sum target (v.clusterSlots c) s v with
  | (.inl r,w) => .inl (r,w)
  | (.inr s,_) => .inr s

theorem markBody_quiet (hq : v.io = []) (c : Nat) (s : MarkScan) :
    markBody sum target c s v = settle v (markStep v sum target c s) := by
  obtain ⟨buf,hread,hslots⟩ := Volume.readCluster_quiet hq c
  rw [markBody,hread]
  dsimp only
  rw [hslots,markStep]
  cases hrun : markSlots sum target (v.clusterSlots c) s v with
  | mk r w =>
    cases r with
    | inl r => rfl
    | inr s' =>
      rw [markSlots_inr hrun]
      rfl

theorem overClusters_mark (hq : v.io = []) (hl : DiskLayout v) (hr : ∀ c ∈ cs, InRange v c)
    (hsub : ds ⊆ cs) {s : MarkScan} (hs : LfnPlaces v cs s.run) :
    (∃ s', overClusters (markStep v sum target) ds s = .inr s') ∨
    ∃ b w locs, overClusters (markStep v sum target) ds s = .inl (b,w) ∧ Marked v w locs ∧
      ∀ loc ∈ locs, MayMark v cs target loc := by
  induction ds generalizing s with
  | nil => exact Or.inl ⟨s,rfl⟩
  | cons x ds ih =>
    have hmem : ∀ y ∈ v.clusterSlots x, y ∈ v.dirSlots cs := fun y hy =>
      List.mem_flatMap.mpr ⟨x,hsub (by simp),hy⟩
    rw [overClusters,markStep]
    rcases markSlots_cases hq hl hr (v.clusterSlots x) hmem hs with ⟨s',hrun,hs'⟩ |
      ⟨b,w,locs,hrun,hm,hlocs⟩
    · rw [hrun]
      exact ih (fun y hy => hsub (by simp [hy])) hs'
    · rw [hrun]
      exact Or.inr ⟨b,w,locs,rfl,hm,hlocs⟩

/-- The slots of a removed node in the chain from some cluster of its directory on. -/
theorem markRemovedWithLfn_spec (hq : v.io = []) (hl : DiskLayout v) (hc : IsChain v x cs)
    (hf : cs.length < fuel) (k : Kmalloc) (nth : Nat) (target : Loc) : ∃ b v' locs,
      markRemovedWithLfn fuel k nth x target v = some (b,v') ∧ Marked v v' locs ∧
      ∀ loc ∈ locs, MayMark v cs target loc := by
  have hr := Chained.all_ok hc
  rw [markRemovedWithLfn,Volume.readSector_quiet hq]
  dsimp only
  split_ifs with hk
  · exact ⟨false,v,[],rfl,Marked.refl v [],by simp⟩
  rw [walkChain_walk hq (fun c s => markBody_quiet hq c s) (hc.walk hl) hf]
  have hnil : LfnPlaces v cs (⟨[],0⟩ : MarkScan).run := by simp [LfnPlaces]
  rcases overClusters_mark hq hl hr (List.Subset.refl cs) hnil with
    ⟨s',hrun⟩ | ⟨b,w,locs,hrun,hm,hlocs⟩
  · rw [hrun]
    exact ⟨false,v,[],rfl,Marked.refl v [],by simp⟩
  · rw [hrun]
    exact ⟨b,w,locs,rfl,hm,hlocs⟩

theorem IsChain.length_le (h : IsChain v c cs) (hl : DiskLayout v) (hr : InRange v c) :
    cs.length ≤ v.totalClusters := (h.dirChain hl hr).length_le (h.nodup hl)

/-- A volume without the node in a slot. -/
def Volume.without (v : Volume) (i : Fin 40) : Volume :=
  { v with
    files := fun j => if j = i then none else v.files j
    active := v.active-1
    nodes := v.nodes.erase (.file i) }

theorem unregister_eq (hi : v.files i = some n) :
    (v.vfsUnregister (.file i)).slotFree (.file i) = v.without i := by
  have hne : (v.vfsUnregister (.file i)).files i ≠ none := by
    change v.files i ≠ none
    rw [hi]
    simp
  rw [Volume.slotFree,if_neg hne]
  rfl

theorem TableStep.without (v : Volume) (i : Fin 40) : TableStep v (v.without i) := by
  constructor <;> rfl

theorem DiskStep.without (hs : DiskStep v v') (i : Fin 40) :
    DiskStep (v.without i) (v'.without i) where
  fatOk := hs.fatOk
  spc := hs.spc
  numFats := hs.numFats
  fatSize := hs.fatSize
  fatStart := hs.fatStart
  dataStart := hs.dataStart
  root := hs.root
  total := hs.total
  fsinfoLba := hs.fsinfoLba
  files := by simp only [Volume.without,hs.files]
  active := by simp only [Volume.without,hs.active]
  nodes := by simp only [Volume.without,hs.nodes]
  others := hs.others
  io := hs.io
  fsinfo := hs.fsinfo
  hint := hs.hint

theorem without_files (v : Volume) (i j : Fin 40) :
    (v.without i).files j = if j = i then none else v.files j := rfl

theorem fileCtx_without (v : Volume) (i j : Fin 40) :
    fileCtx (v.without i) j = if j = i then none else fileCtx v j := by
  rw [fileCtx,without_files]
  split_ifs <;> rfl

theorem startOf_without (h : startOf (v.without i) ex o = some c) :
    startOf v ex o = some c ∧ o ≠ .file i := by
  cases o with
  | root => exact ⟨h,by simp⟩
  | extra j => exact ⟨h,by simp⟩
  | file j =>
    rw [startOf,fileCtx_without] at h
    split_ifs at h with hji
    · simp at h
    · exact ⟨h,fun he => hji (Owner.file.inj he)⟩

theorem DirOwner.without (h : DirOwner v ex o c) (hne : o ≠ .file i) :
    DirOwner (v.without i) ex o c := by
  refine ⟨?_,fun j hj => ?_⟩
  · have ho := h.1
    cases o with
    | root => exact ho
    | extra j => exact ho
    | file j =>
      rw [startOf,fileCtx_without,if_neg (fun he => hne (by rw [he]))]
      exact ho
  · obtain ⟨m,hm,hflag⟩ := h.2 j hj
    refine ⟨m,?_,hflag⟩
    rw [without_files,if_neg (fun he => hne (by rw [hj,he]))]
    exact hm

theorem DirOwner.of_without (h : DirOwner (v.without i) ex o c) : DirOwner v ex o c := by
  refine ⟨(startOf_without h.1).1,fun j hj => ?_⟩
  obtain ⟨m,hm,hflag⟩ := h.2 j hj
  rw [without_files] at hm
  split_ifs at hm
  exact ⟨m,hm,hflag⟩

/-- No node has its entry in the directory of this node. -/
def Childless (v : Volume) (ex : List Nat) (i : Fin 40) : Prop :=
  ∀ j ctx dir cs, fileCtx v j = some ctx → DirOwner v ex (.file i) dir → IsChain v dir cs →
    ctx.loc ∉ dirLocs v cs

theorem childless_file (hi : v.files i = some n) (hd : n.isDir = false) : Childless v ex i :=
  fun _ _ _ _ _ ho => absurd rfl (ho.ne_file hi hd)

theorem Childless.home (h : Childless v ex i) {m : FsNode} (hj : v.files j = some m)
    (hm : m.device = some ctx) (he : EntryOk v ex m ctx) :
    ∃ o dir cs, o ≠ .file i ∧ DirOwner v ex o dir ∧ IsChain v dir cs ∧ ctx.loc ∈ dirLocs v cs := by
  obtain ⟨o,dir,cs,ho,hcs,hloc⟩ := he.home
  refine ⟨o,dir,cs,?_,ho,hcs,hloc⟩
  rintro rfl
  exact h j ctx dir cs (by rw [fileCtx_eq hj,hm]) ho hcs hloc

/-- A node in whose directory no entry lies is taken out of the tables. -/
theorem Sound.without (h : Sound v ex) (hno : Childless v ex i) :
    Sound (v.without i) ex ∧ storeOf (v.without i) = Function.update (storeOf v) i none := by
  have ht := TableStep.without v i
  refine ⟨⟨?_,h.quiet,fun j m hj => ?_,fun j j' ctx ctx' hj hj' heq => ?_,
    fun o c ds ho hds => ?_⟩,?_⟩
  · refine ht.retable h.consistent id (fun o c ho => (startOf_without ho).1)
      (fun _ _ _ _ _ _ he => he) (fun j ctx hj => ?_)
    rw [fileCtx_without] at hj
    split_ifs at hj
    exact h.consistent.located j ctx hj
  · rw [without_files] at hj
    split_ifs at hj
    obtain ⟨ctx,hm,he⟩ := h.entry j m hj
    obtain ⟨o,dir,cs,hne,ho,hcs,hloc⟩ := hno.home hj hm he
    refine ⟨ctx,hm,⟨o,dir,cs,ho.without hne,ht.isChain.mpr hcs,?_⟩,he.shown,he.cluster,he.dir,
      fun hd => ?_⟩
    · rw [ht.places.dirLocs]
      exact hloc
    · obtain ⟨hsize,hlen⟩ := he.file hd
      refine ⟨hsize,hlen.imp id ?_⟩
      rintro ⟨cs,hcs,hle⟩
      exact ⟨cs,ht.isChain.mpr hcs,hle⟩
  · rw [fileCtx_without] at hj hj'
    split_ifs at hj hj'
    exact h.apart j j' ctx ctx' hj hj' heq
  · rw [ht.dirSlots]
    exact h.tails o c ds ho.of_without (ht.isChain.mp hds)
  · funext j
    by_cases hji : j = i
    · rw [hji,Function.update_self,storeOf,without_files,if_pos rfl,Option.map_none]
    · rw [Function.update_of_ne hji,storeOf,without_files,if_neg hji]
      rfl

theorem Owns.of_without (h : Owns (v.without i) ex o x) : Owns v ex o x ∧ o ≠ .file i := by
  obtain ⟨c,cs,ho,hcs,hx⟩ := h
  obtain ⟨ho,hne⟩ := startOf_without ho
  exact ⟨⟨c,cs,ho,(TableStep.without v i).isChain.mp hcs,hx⟩,hne⟩

/-- The clusters of a node given back. -/
theorem Sound.freeNode (h : Sound v ex) (hf : v.totalClusters+2 ≤ fuel) (hi : v.files i = some n)
    (hn : n.device = some ctx) : ∃ w cs,
      (if 2 ≤ ctx.startCluster then v.freeChain fuel ctx.startCluster else some v) = some w ∧
      Freed v w cs ∧ ∀ x ∈ cs, Owns v ex (.file i) x := by
  split_ifs with h2
  · have ho := startOf_file hi hn (by omega) ex
    obtain ⟨hr,cs,hcs⟩ := h.consistent.chain _ _ ho
    have hlen := hcs.length_le h.consistent.layout hr
    obtain ⟨w,hrun,hw⟩ := freeChain_spec h.quiet h.consistent.layout hcs
      (show cs.length < fuel by omega)
    exact ⟨w,cs,hrun,hw,fun x hx => ⟨_,cs,ho,hcs,hx⟩⟩
  · exact ⟨v,[],rfl,⟨DiskStep.refl v,fun d _ => by simp,fun _ _ => rfl⟩,by simp⟩

theorem deleted_isEnd (e : Slot) : e.deleted.isEnd = false := by
  rw [Slot.isEnd,Slot.deleted,if_pos rfl]
  rfl

/-- A node's chain freed and its slots marked. -/
structure Cleared (v v' : Volume) (ex : List Nat) (i : Fin 40) (target : Loc) (ds : List Nat) : Prop where
  step : DiskStep v v'
  fat : ∀ o x, Owns v ex o x → o ≠ .file i → fatAt v' x = fatAt v x
  disk : ∀ a, v.dataStart ≤ a → (∀ y ∈ ds, ¬InCluster v y a) → v'.disk a = v.disk a
  slot : ∀ loc, loc.Aligned → v.dataStart ≤ loc.lba → dirSlotAt v' loc = dirSlotAt v loc ∨
    MayMark v ds target loc ∧ dirSlotAt v' loc = (dirSlotAt v loc).deleted

theorem Freed.marked {locs : List Loc} (h : Consistent v ex) (hu : Freed v w cs)
    (hcs : ∀ x ∈ cs, Owns v ex (.file i) x) (hds : ∀ y ∈ ds, InRange v y) (hm : Marked w v' locs)
    (hlocs : ∀ loc ∈ locs, MayMark w ds target loc) : Cleared v v' ex i target ds where
  step := hu.step.trans hm.step
  fat o x hx hne := by
    rw [hm.fat x (by rw [hu.step.total]; exact hx.inRange.2),hu.fat x hx.inRange.2,if_neg]
    exact fun hin => hne (h.apart o _ x hx (hcs x hin))
  disk a ha hout := by
    rw [hm.disk a (fun loc hloc he => ?_),hu.disk a ha]
    have hmem := (hlocs loc hloc).1
    rw [hu.step.dirLocs] at hmem
    obtain ⟨-,y,hy,hin⟩ := (h.layout.mem_dirLocs hds).mp hmem
    exact hout y hy (he ▸ hin)
  slot loc ha hd := by
    have hsame : dirSlotAt w loc = dirSlotAt v loc := by rw [dirSlotAt,dirSlotAt,hu.disk _ hd]
    rcases hm.slot loc ha with hs | ⟨hmem,hs⟩
    · exact Or.inl (hs.trans hsame)
    · obtain ⟨h1,h2,h3⟩ := hlocs loc hmem
      rw [hsame] at h2 h3 hs
      rw [hu.step.dirLocs] at h1
      exact Or.inr ⟨⟨h1,h2,h3⟩,hs⟩

/-- The tables and the disk together. -/
theorem Sound.cleared (h : Sound v ex) (hno : Childless v ex i) (hi : v.files i = some n)
    (hn : n.device = some ctx) (ho : DirOwner v ex o dir) (hds : IsChain v dir ds)
    (hc : Cleared v v' ex i ctx.loc ds) : Sound (v'.without i) ex ∧
      storeOf (v'.without i) = Function.update (storeOf v) i none := by
  have hl := h.consistent.layout
  obtain ⟨hw,hstore⟩ := h.without hno
  have hpair : Sound (v'.without i) ex ∧ storeOf (v'.without i) = storeOf (v.without i) := by
    refine hw.slots_step (hc.step.without i) (fun o' x hx => ?_) (fun j m x hj hd hx a ha => ?_)
      (fun j ctx' hj => ?_) (fun o' c es loc ho' hes hloc => ?_)
    · obtain ⟨hx,hne⟩ := hx.of_without
      rw [(TableStep.without v' i).fatAt,(TableStep.without v i).fatAt]
      exact hc.fat o' x hx hne
    · obtain ⟨hx,hne⟩ := hx.of_without
      have ha' : InCluster v x a := ha
      rw [without_files] at hj
      split_ifs at hj with hji
      refine hc.disk a ha'.data (fun y hy hin => ?_)
      have hy' := Chained.all_ok hds y hy
      rw [← InCluster.unique hx.inRange.1 hy'.1 ha' hin] at hy
      exact ho.ne_file hj hd (h.consistent.apart o _ x ⟨dir,ds,ho.1,hds,hy⟩ hx)
    · rw [fileCtx_without] at hj
      split_ifs at hj with hji
      obtain ⟨m,hm,hctx⟩ := Option.bind_eq_some_iff.mp hj
      obtain ⟨ctx₁,hctx',he⟩ := h.entry j m hm
      obtain rfl := Option.some.inj (hctx.symm.trans hctx')
      obtain ⟨hal,hdat⟩ := he.aligned hl
      rcases hc.slot _ hal hdat with hs | ⟨⟨-,-,hmay⟩,-⟩
      · exact hs
      · rcases hmay with heq | hlfn
        · exact absurd (h.apart j i _ _ hj (by rw [fileCtx_eq hi,hn]) heq) hji
        · have hshown := he.shown.2
          rw [Slot.counted,hlfn] at hshown
          simp at hshown
    · have hes' : IsChain v c es := (TableStep.without v i).isChain.mp hes
      have hmem : loc ∈ dirLocs v es := hloc
      obtain ⟨hal,y,-,hin⟩ := (hl.mem_dirLocs (Chained.all_ok hes')).mp hmem
      rcases hc.slot loc hal hin.data with hs | ⟨⟨-,hend,-⟩,hs⟩
      · exact congrArg Slot.isEnd hs
      · refine (congrArg Slot.isEnd hs).trans ?_
        rw [deleted_isEnd]
        exact hend.symm
  exact ⟨hpair.1,hpair.2.trans hstore⟩

/-- `remove_single_node` on a node of a sound volume. -/
theorem Sound.removeSingle (h : Sound v ex) (hf : v.totalClusters+2 ≤ fuel) (k : Kmalloc)
    (nth : Nat) (hi : v.files i = some n) (hno : Childless v ex i) : ∃ v',
      removeSingleNode fuel k nth (.file i) v = some v' ∧ Sound v' ex ∧
      DiskStep (v.without i) v' ∧ storeOf v' = Function.update (storeOf v) i none := by
  have hl := h.consistent.layout
  obtain ⟨ctx,hn,he⟩ := h.entry i n hi
  obtain ⟨u,cs,hfree,hu,hcs⟩ := h.freeNode hf hi hn
  obtain ⟨o,dir,ds,hne,ho,hds,hloc⟩ := hno.home hi hn he
  have hlu := hu.step.layout hl
  have hdsu : IsChain u dir ds := by
    refine hds.keep hu.step (fun x hx => ?_)
    rw [hu.fat x (Chained.all_ok hds x hx).2,if_neg]
    exact fun hin => hne (h.consistent.apart o _ x ⟨dir,ds,ho.1,hds,hx⟩ (hcs x hin))
  obtain ⟨-,x,hx,hin⟩ := (hl.mem_dirLocs (Chained.all_ok hds)).mp hloc
  -- the scan starts in the cluster of the entry, not at the head of the directory
  obtain ⟨as,bs,hsplit⟩ := List.append_of_mem hx
  have htail : IsChain u x (x::bs) := by
    rw [hsplit] at hdsu
    exact (chained_append.mp hdsu).2
  have hr : InRange u x := Chained.all_ok htail x (by simp)
  have hcl : u.lbaToCluster ctx.direntSector = x :=
    hlu.lbaToCluster_eq hr (hu.step.inCluster.mpr hin)
  have hlen := htail.length_le hlu hr
  rw [hu.step.total] at hlen
  obtain ⟨b,v',locs,hrun,hm,hlocs⟩ := markRemovedWithLfn_spec (hu.step.io.trans h.quiet) hlu htail
    (show (x::bs).length < fuel by omega) k nth ctx.loc
  have hsub : ∀ loc ∈ locs, MayMark u ds ctx.loc loc := by
    intro loc hmem
    obtain ⟨h1,h2⟩ := hlocs loc hmem
    refine ⟨?_,h2⟩
    rw [hsplit,dirLocs,List.flatMap_append]
    exact List.mem_append_right _ h1
  have hc := hu.marked h.consistent hcs (Chained.all_ok hds) hm hsub
  obtain ⟨hsound,hstore⟩ := h.cleared hno hi hn ho hds hc
  refine ⟨v'.without i,?_,hsound,hc.step.without i,hstore⟩
  have hnode : (v.node (.file i)).bind FsNode.device = some ctx := by
    rw [Volume.node,hi]
    exact hn
  rw [removeSingleNode,hnode]
  dsimp only
  rw [hfree]
  dsimp only
  rw [hcl]
  change Option.map _ (markRemovedWithLfn fuel k nth x ctx.loc u) = _
  rw [hrun,Option.map_some,unregister_eq (by rw [hc.step.files]; exact hi)]

/-- `dir_is_empty` on a directory of a sound volume. -/
theorem Sound.dirIsEmpty (h : Sound v ex) (hf : v.totalClusters+2 ≤ fuel) (k : Kmalloc)
    (hi : v.files i = some n) (hn : n.device = some ctx) (hd : n.isDir = true) : ∃ b,
      KiNBOL.dirIsEmpty fuel k ctx.startCluster v = some (b,v) ∧ (b = true → Childless v ex i) := by
  by_cases hk : k .empty = true
  swap
  · exact ⟨false,by rw [KiNBOL.dirIsEmpty,if_pos (by simpa using hk)],by simp⟩
  obtain ⟨ctx₁,hctx,he⟩ := h.entry i n hi
  obtain rfl := Option.some.inj (hn.symm.trans hctx)
  have hl := h.consistent.layout
  have hstart := startOf_file hi hn (he.dir hd) ex
  have ho : DirOwner v ex (.file i) ctx.startCluster := by
    refine ⟨hstart,fun j hj => ?_⟩
    rw [Owner.file.injEq] at hj
    exact ⟨n,hj ▸ hi,by simpa [FsNode.isDir] using hd⟩
  obtain ⟨hr,cs,hcs⟩ := h.consistent.chain _ _ hstart
  have hlen := hcs.length_le hl hr
  refine ⟨_,dirIsEmpty_seen h.quiet (hcs.walk hl) (h.tails _ _ cs ho hcs) (by omega) hk,?_⟩
  intro hempty j ctx' dir ds hj ho' hds hloc
  obtain rfl := Option.some.inj (hstart.symm.trans ho'.1)
  rw [hds.unique hl hcs] at hloc
  obtain ⟨m,hm,hctx'⟩ := Option.bind_eq_some_iff.mp hj
  obtain ⟨ctx₂,hctx₂,he'⟩ := h.entry j m hm
  obtain rfl := Option.some.inj (hctx'.symm.trans hctx₂)
  have hmem : (ctx'.loc,dirSlotAt v ctx'.loc) ∈ v.dirSlots cs := by
    rw [dirSlots_eq]
    exact List.mem_map_of_mem hloc
  simp only [Bool.not_eq_true',List.any_eq_false] at hempty
  apply hempty _ hmem
  simp [he'.shown]

/-- The node of this name gone. -/
def StoreRemoved (s : Fin 40 → Option StoreFile) (path : CName) (s' : Fin 40 → Option StoreFile) :
    Prop :=
  ∃ i f, s i = some f ∧ strEqCi f.name (stripDevPrefix (stripDevPrefix path)) = true ∧
    s' = Function.update s i none

/-- A path that names a node of another provider. -/
def ForeignPath (others : Nat → FsNode) (path : CName) : Prop :=
  ∃ i, strEqCi (others i).name (stripDevPrefix (stripDevPrefix path)) = true

theorem vfsFind_name {name : CName} {r : NodeRef} (h : v.vfsFind name = some r) :
    ∃ m, v.node r = some m ∧ strEqCi m.name (stripDevPrefix name) = true := by
  have hfound := List.find?_some h
  split at hfound
  · simp at hfound
  · next m hm => exact ⟨m,hm,hfound⟩

/-- A node of another provider taken out of the VFS table. -/
theorem Sound.unlisted (h : Sound v ex) (nodes : List NodeRef) :
    Sound { v with nodes := nodes } ex ∧ storeOf { v with nodes := nodes } = storeOf v := by
  have ht : TableStep v { v with nodes := nodes } := by constructor <;> rfl
  refine ⟨⟨?_,h.quiet,fun j m hj => ?_,h.apart,h.tails⟩,rfl⟩
  · exact ht.retable h.consistent id (fun _ _ ho => ho) (fun _ _ _ _ _ _ he => he)
      h.consistent.located
  · obtain ⟨ctx,hm,he⟩ := h.entry j m hj
    exact ⟨ctx,hm,he.home,he.shown,he.cluster,he.dir,he.file⟩

/-- `fat32_remove` on a sound volume, of a file or of an empty directory: the node of the path is
gone, or the files are as before. -/
theorem fat32Remove_sound (h : Sound v ex) (hf : v.totalClusters+2 ≤ fuel) (k : Kmalloc)
    (path : CName) : ∃ st v', fat32Remove fuel k path false v = some (st,v') ∧ Sound v' ex ∧
      v'.totalClusters = v.totalClusters ∧
      (st = .ok → StoreRemoved (storeOf v) path (storeOf v') ∨
        ForeignPath v.others path ∧ storeOf v' = storeOf v) ∧
      (st ≠ .ok → storeOf v' = storeOf v) := by
  have hsame : ∀ st, st ≠ .ok → fat32Remove fuel k path false v = some (st,v) → ∃ st v',
      fat32Remove fuel k path false v = some (st,v') ∧ Sound v' ex ∧
      v'.totalClusters = v.totalClusters ∧
      (st = .ok → StoreRemoved (storeOf v) path (storeOf v') ∨
        ForeignPath v.others path ∧ storeOf v' = storeOf v) ∧
      (st ≠ .ok → storeOf v' = storeOf v) :=
    fun st hst hrun => ⟨st,v,hrun,h,rfl,fun hok => absurd hok hst,fun _ => rfl⟩
  by_cases hok : v.fatOk = true
  swap
  · exact hsame .errNoFs (by simp) (by rw [fat32Remove,if_pos (by simpa using hok)])
  cases hfind : v.vfsFind (stripDevPrefix path) with
  | none =>
    refine hsame .errNotFound (by simp) ?_
    rw [fat32Remove,if_neg (by simpa using hok)]
    dsimp only
    rw [hfind]
  | some r =>
    obtain ⟨m,hm,hname⟩ := vfsFind_name hfind
    have hfile : ∀ i, r = .file i → Childless v ex i → ∃ st v',
        (removeSingleNode fuel k 0 r v).map (fun v => (FatStatus.ok,v)) = some (st,v') ∧
        Sound v' ex ∧ v'.totalClusters = v.totalClusters ∧
        (st = .ok → StoreRemoved (storeOf v) path (storeOf v') ∨
          ForeignPath v.others path ∧ storeOf v' = storeOf v) ∧
        (st ≠ .ok → storeOf v' = storeOf v) := by
      rintro i rfl hno
      obtain ⟨v',hone,hsound,hs,hstore⟩ := h.removeSingle hf k 0 hm hno
      rw [hone]
      exact ⟨.ok,v',rfl,hsound,hs.total,fun _ => Or.inl ⟨i,m.shown v,by
        rw [storeOf,show v.files i = some m from hm,Option.map_some],hname,hstore⟩,
        fun hne => absurd rfl hne⟩
    rw [fat32Remove,if_neg (by simpa using hok)]
    dsimp only
    rw [hfind]
    dsimp only
    rw [hm]
    dsimp only
    rw [if_neg (by simp : ¬(false = true))]
    split_ifs with hkind hdir
    · exact ⟨.errNotFound,v,rfl,h,rfl,fun hst => by simp at hst,fun _ => rfl⟩
    · cases r with
      | other i =>
        have hdev : m.device = none := by
          rw [← Option.some.inj hm]
          exact h.consistent.others i
        obtain ⟨hsound,hstore⟩ := h.unlisted (v.nodes.erase (.other i))
        refine ⟨.ok,_,?_,hsound,rfl,fun _ => Or.inr ⟨⟨i,?_⟩,hstore⟩,fun hne => absurd rfl hne⟩
        · rw [removeSingleNode,hm,Option.bind_some,hdev]
          rfl
        · rw [Option.some.inj hm]
          exact hname
      | file i => exact hfile i rfl (childless_file hm (by simpa [FsNode.isDir] using hdir))
    · cases r with
      | other i =>
        have hdev : m.device = none := by
          rw [← Option.some.inj hm]
          exact h.consistent.others i
        rw [hdev]
        exact ⟨.errNotEmpty,v,rfl,h,rfl,fun hst => by simp at hst,fun _ => rfl⟩
      | file i =>
        obtain ⟨ctx,hn,-⟩ := h.entry i m hm
        have hd : m.isDir = true := by simpa [FsNode.isDir] using hdir
        obtain ⟨b,hempty,hno⟩ := h.dirIsEmpty hf k hm hn hd
        rw [hn]
        dsimp only
        rw [hempty]
        cases b with
        | false => exact ⟨.errNotEmpty,v,rfl,h,rfl,fun hst => by simp at hst,fun _ => rfl⟩
        | true => exact hfile i rfl (hno rfl)

end KiNBOL
