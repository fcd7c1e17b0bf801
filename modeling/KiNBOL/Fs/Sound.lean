import KiNBOL.Fs.FileWrite
import KiNBOL.Fs.SlotSearch

namespace KiNBOL

/-! An invariant of the driver's tables and its disk together. -/

/-- Where the directory entry of a node lies. -/
def FileCtx.loc (ctx : FileCtx) : Loc := ⟨ctx.direntSector,ctx.direntOffset⟩

/-- The bytes of a file. -/
def FsNode.content (n : FsNode) (v : Volume) : List Byte :=
  match n.device with
  | none => []
  | some ctx => (List.range n.size).map (fileByte v ctx.startCluster)

/-- A node as its users see it. -/
structure StoreFile where
  name : CName
  isDir : Bool
  bytes : List Byte
  deriving DecidableEq

def FsNode.shown (n : FsNode) (v : Volume) : StoreFile :=
  ⟨n.name,n.isDir,if n.isDir then [] else n.content v⟩

/-- The files and directories of a volume. -/
def storeOf (v : Volume) (i : Fin 40) : Option StoreFile := (v.files i).map (fun n => n.shown v)

/-- The directory entry of a node lies in a directory, the readers see it, and it says what the node
says; a file has clusters for all of its bytes. -/
structure EntryOk (v : Volume) (ex : List Nat) (n : FsNode) (ctx : FileCtx) : Prop where
  home : ∃ o dir cs, DirOwner v ex o dir ∧ IsChain v dir cs ∧ ctx.loc ∈ dirLocs v cs
  shown : (dirSlotAt v ctx.loc).isEnd = false ∧ (dirSlotAt v ctx.loc).counted = true
  cluster : (dirSlotAt v ctx.loc).cluster = ctx.startCluster
  dir : n.isDir = true → ctx.startCluster ≠ 0
  file : n.isDir = false → (dirSlotAt v ctx.loc).size = n.size ∧
    (n.size = 0 ∨ ∃ cs, IsChain v ctx.startCluster cs ∧ n.size ≤ cs.length*v.clusterSize)

/-- A volume between two calls: nothing is shared, every node has an entry of its own, and end marks
lie at the end of their directories. -/
structure Sound (v : Volume) (ex : List Nat) : Prop where
  consistent : Consistent v ex
  quiet : v.io = []
  entry : ∀ i n, v.files i = some n → ∃ ctx, n.device = some ctx ∧ EntryOk v ex n ctx
  apart : ∀ i j ctx ctx', fileCtx v i = some ctx → fileCtx v j = some ctx' →
    ctx.loc = ctx'.loc → i = j
  tails : EachDir EndTail v ex

/-- Directories are where they were, and the chains of the owners go on where they ended. -/
structure ChainsExtend (v v' : Volume) (ex : List Nat) : Prop where
  places : SamePlaces v v'
  owner : ∀ o c, DirOwner v ex o c → DirOwner v' ex o c
  chain : ∀ o c cs, startOf v ex o = some c → IsChain v c cs → ∃ more, IsChain v' c (cs++more)

variable {v v' w : Volume} {ex : List Nat} {n : FsNode} {ctx : FileCtx} {i : Fin 40} {c : Nat}
  {cs ds more : List Nat} {o o' : Owner} {pos r : Nat} {src : Sector}

namespace Slot

variable (e : Slot) (x : Nat)

/-- Bytes that a change of a slot leaves alone. -/
theorem isEnd_congr {e e' : Slot} (h : e' 0 = e 0) : e'.isEnd = e.isEnd := by rw [isEnd,isEnd,h]

theorem counted_congr {e e' : Slot} (h : e' 0 = e 0) (h' : e' 11 = e 11) :
    e'.counted = e.counted := by
  simp only [counted,isDeleted,isLfn,attr,h,h']
  congr

@[simp] theorem setCluster_isEnd : (e.setCluster x).isEnd = e.isEnd := isEnd_congr rfl

@[simp] theorem setCluster_counted : (e.setCluster x).counted = e.counted := counted_congr rfl rfl

@[simp] theorem setSize_isEnd : (e.setSize x).isEnd = e.isEnd := isEnd_congr rfl

@[simp] theorem setSize_counted : (e.setSize x).counted = e.counted := counted_congr rfl rfl

theorem setCluster_cluster {x : Nat} (h : x < 2^32) : (e.setCluster x).cluster = x := by
  have h20 : e.setCluster x 20 = byteOf x 2 := rfl
  have h21 : e.setCluster x 21 = byteOf x 3 := rfl
  have h26 : e.setCluster x 26 = byteOf x 0 := rfl
  have h27 : e.setCluster x 27 = byteOf x 1 := rfl
  simp only [cluster,le16,h20,h21,h26,h27,byteOf_toNat]
  omega

@[simp] theorem setCluster_size : (e.setCluster x).size = e.size := rfl

theorem setSize_size {x : Nat} (h : x < 2^32) : (e.setSize x).size = x := by
  have h28 : e.setSize x 28 = byteOf x 0 := rfl
  have h29 : e.setSize x 29 = byteOf x 1 := rfl
  have h30 : e.setSize x 30 = byteOf x 2 := rfl
  have h31 : e.setSize x 31 = byteOf x 3 := rfl
  simp only [size,le16,h28,h29,h30,h31,byteOf_toNat]
  omega

@[simp] theorem setSize_cluster : (e.setSize x).cluster = e.cluster := rfl

end Slot

theorem fileCtx_eq (hi : v.files i = some n) : fileCtx v i = n.device := by
  rw [fileCtx,hi]
  rfl

theorem startOf_file (hi : v.files i = some n) (hn : n.device = some ctx) (h0 : ctx.startCluster ≠ 0)
    (ex : List Nat) : startOf v ex (.file i) = some ctx.startCluster := by
  rw [startOf,fileCtx_eq hi,hn,Option.bind_some,if_neg h0]

theorem not_chain_zero : ¬IsChain v 0 cs := by
  intro h
  cases cs with
  | nil =>
    have hend : endOfChain ≤ 0 := h
    rw [endOfChain] at hend
    omega
  | cons x cs =>
    obtain ⟨rfl,hx,-⟩ := h
    have := hx.1
    omega

theorem DiskStep.follows (hs : DiskStep v v')
    (hc : ∀ o c cs, KiNBOL.startOf v ex o = some c → IsChain v c cs →
      ∃ more, IsChain v' c (cs++more)) : ChainsExtend v v' ex where
  places := hs.places
  owner := fun _ _ ho => hs.dirOwner.mpr ho
  chain := hc

theorem ChainsExtend.trans (h1 : ChainsExtend v w ex) (h2 : ChainsExtend w v' ex)
    (ho : ∀ o c, startOf v ex o = some c → startOf w ex o = some c) : ChainsExtend v v' ex where
  places := h1.places.trans h2.places
  owner := fun o c h => h2.owner o c (h1.owner o c h)
  chain := by
    intro o c cs hc hcs
    obtain ⟨more,hmore⟩ := h1.chain o c cs hc hcs
    obtain ⟨more',hmore'⟩ := h2.chain o c _ (ho o c hc) hmore
    exact ⟨more++more',by rw [← List.append_assoc]; exact hmore'⟩

/-- Entries whose slot is kept. -/
theorem EntryOk.carry (h : EntryOk v ex n ctx) (hf : ChainsExtend v v' ex) (hi : v.files i = some n)
    (hn : n.device = some ctx) (hslot : dirSlotAt v' ctx.loc = dirSlotAt v ctx.loc) :
    EntryOk v' ex n ctx where
  home := by
    obtain ⟨o,dir,cs,ho,hcs,hloc⟩ := h.home
    obtain ⟨more,hmore⟩ := hf.chain o dir cs ho.1 hcs
    refine ⟨o,dir,cs++more,hf.owner o dir ho,hmore,?_⟩
    rw [hf.places.dirLocs,dirLocs,List.flatMap_append]
    exact List.mem_append_left _ hloc
  shown := by rw [hslot]; exact h.shown
  cluster := by rw [hslot]; exact h.cluster
  dir := h.dir
  file := by
    intro hd
    obtain ⟨hsize,hlen⟩ := h.file hd
    refine ⟨by rw [hslot]; exact hsize,hlen.imp id ?_⟩
    rintro ⟨cs,hcs,hle⟩
    have h0 : ctx.startCluster ≠ 0 := by
      intro h0
      rw [h0] at hcs
      exact not_chain_zero hcs
    obtain ⟨more,hmore⟩ := hf.chain _ _ cs (startOf_file hi hn h0 ex) hcs
    refine ⟨cs++more,hmore,?_⟩
    rw [hf.places.clusterSize,List.length_append,Nat.add_mul]
    omega

/-- The chain of another owner, and the sectors of its clusters, after a write. -/
theorem Wrote.other_owner (h : Consistent v ex) (ho : startOf v ex o = some c) (hcs : IsChain v c cs)
    (hw : Wrote v v' c cs more pos r src) {d : Nat} (ho' : startOf v ex o' = some d)
    (hds : IsChain v d ds) (hne : o' ≠ o) :
    IsChain v' d ds ∧ ∀ x ∈ ds, ∀ a, InCluster v x a → v'.disk a = v.disk a := by
  have hout : ∀ x ∈ ds, x ∉ cs++more := by
    intro x hx hin
    rcases List.mem_append.mp hin with hin | hin
    · exact hne (h.apart o' o x ⟨d,ds,ho',hds,hx⟩ ⟨c,cs,ho,hcs,hin⟩)
    · exact hds.used x hx (hw.fresh x hin)
  refine ⟨hds.keep hw.step (fun x hx => hw.fat x (Chained.all_ok hds x hx).2 (hout x hx)),
    fun x hx a ha => hw.others a ha.data (fun y hy hin => hout x hx ?_)⟩
  have hx' := Chained.all_ok hds x hx
  rw [InCluster.unique hx'.1 (hw.range y hy).1 ha hin]
  exact hy

/-- Directory slots in clusters whose sectors are kept. -/
theorem slot_kept (hl : DiskLayout v) (hds : IsChain v c ds)
    (hd : ∀ x ∈ ds, ∀ a, InCluster v x a → v'.disk a = v.disk a) :
    ∀ loc ∈ dirLocs v ds, dirSlotAt v' loc = dirSlotAt v loc := by
  intro loc hloc
  obtain ⟨-,x,hx,hin⟩ := (hl.mem_dirLocs (Chained.all_ok hds)).mp hloc
  rw [dirSlotAt,dirSlotAt,hd x hx _ hin]

/-- Only directories are owners of directories. -/
theorem DirOwner.ne_file (h : DirOwner v ex o c) (hi : v.files i = some n) (hd : n.isDir = false) :
    o ≠ .file i := by
  rintro rfl
  obtain ⟨m,hm,hflag⟩ := h.2 i rfl
  obtain rfl := Option.some.inj (hi.symm.trans hm)
  simp [FsNode.isDir,hflag] at hd

/-- A write to the clusters of a file. -/
theorem Sound.wrote (h : Sound v ex) (hi : v.files i = some n) (hd : n.isDir = false)
    (ho : startOf v ex (.file i) = some c) (hcs : IsChain v c cs)
    (hw : Wrote v v' c cs more pos r src) : Sound v' ex where
  consistent := hw.consistent h.consistent ho hcs
  quiet := hw.step.io.trans h.quiet
  entry := by
    intro j m hj
    rw [hw.step.files] at hj
    obtain ⟨ctx',hm,he⟩ := h.entry j m hj
    refine ⟨ctx',hm,he.carry (hw.step.follows (fun o' d ds ho' hds => ?_)) hj hm ?_⟩
    · by_cases heq : o' = .file i
      · subst heq
        obtain rfl := Option.some.inj (ho.symm.trans ho')
        rw [hds.unique h.consistent.layout hcs]
        exact ⟨more,hw.chain⟩
      · exact ⟨[],by rw [List.append_nil]; exact (hw.other_owner h.consistent ho hcs ho' hds heq).1⟩
    · obtain ⟨o',d,ds,hdir,hds,hloc⟩ := he.home
      have hne := hdir.ne_file hi hd
      exact slot_kept h.consistent.layout hds
        (hw.other_owner h.consistent ho hcs hdir.1 hds hne).2 _ hloc
  apart := by
    intro j j' ctx ctx' hj hj'
    rw [fileCtx,hw.step.files] at hj hj'
    exact h.apart j j' ctx ctx' hj hj'
  tails := by
    intro o' d ds hdir hds
    rw [hw.step.dirOwner] at hdir
    have hne := hdir.ne_file hi hd
    obtain ⟨-,es,hes⟩ := h.consistent.chain o' d hdir.1
    obtain ⟨hch,hdisk⟩ := hw.other_owner h.consistent ho hcs hdir.1 hes hne
    rw [hds.unique (hw.step.layout h.consistent.layout) hch,
      dirSlots_congr hw.step (slot_kept h.consistent.layout hes hdisk)]
    exact h.tails o' d es hdir hes

/-- A directory whose slots change without becoming end marks or ceasing to be some. -/
theorem EndTail.congr (h : EndTail (v.dirSlots ds)) (hlocs : dirLocs v' ds = dirLocs v ds)
    (he : ∀ loc ∈ dirLocs v ds, (dirSlotAt v' loc).isEnd = (dirSlotAt v loc).isEnd) :
    EndTail (v'.dirSlots ds) := by
  rw [EndTail,Ended,dirSlots_eq,List.pairwise_map] at h ⊢
  rw [hlocs]
  refine h.imp_of_mem (fun ha hb hab => ?_)
  dsimp only at hab ⊢
  rw [he _ ha,he _ hb]
  exact hab

theorem EntryOk.aligned (h : EntryOk v ex n ctx) (hl : DiskLayout v) :
    ctx.loc.Aligned ∧ v.dataStart ≤ ctx.loc.lba := by
  obtain ⟨o,dir,cs,-,hcs,hloc⟩ := h.home
  obtain ⟨ha,x,hx,hin⟩ := (hl.mem_dirLocs (Chained.all_ok hcs)).mp hloc
  exact ⟨ha,hin.data⟩

theorem startOf_setNode (v : Volume) (i : Fin 40) (n : FsNode) (ex : List Nat) (o : Owner) :
    startOf (v.setNode i n) ex o = if o = .file i then
      n.device.bind (fun ctx => if ctx.startCluster = 0 then none else some ctx.startCluster)
    else startOf v ex o := by
  cases o with
  | root => rfl
  | extra j => rfl
  | file j =>
    simp only [startOf,fileCtx,Volume.setNode,Owner.file.injEq]
    split_ifs <;> rfl

theorem TableStep.setNode (v : Volume) (i : Fin 40) (n : FsNode) : TableStep v (v.setNode i n) := by
  constructor <;> rfl

/-- The bytes of a file whose chain goes on where it ended and whose sectors are kept. -/
theorem EntryOk.content_keep (h : EntryOk v ex n ctx) (hl : DiskLayout v) (hi : v.files i = some n)
    (hn : n.device = some ctx) (hd : n.isDir = false) (hp : SamePlaces v v')
    (hkeep : ∀ c cs, startOf v ex (.file i) = some c → IsChain v c cs →
      (∃ more, IsChain v' c (cs++more)) ∧ ∀ x ∈ cs, ∀ a, InCluster v x a → v'.disk a = v.disk a) :
    n.content v' = n.content v := by
  rw [FsNode.content,FsNode.content,hn]
  rcases (h.file hd).2 with h0 | ⟨cs,hcs,hle⟩
  · rw [h0]
    rfl
  · have h0 : ctx.startCluster ≠ 0 := by
      intro h0
      rw [h0] at hcs
      exact not_chain_zero hcs
    obtain ⟨⟨more,hmore⟩,hdisk⟩ := hkeep _ cs (startOf_file hi hn h0 ex) hcs
    have hpos : 0 < v.clusterSize := by
      have := hl.spc
      rw [Volume.clusterSize]
      omega
    apply List.map_congr_left
    intro k hk
    have hk' : k < cs.length*v.clusterSize := lt_of_lt_of_le (List.mem_range.mp hk) hle
    have hk'' : k < cs.length*v'.clusterSize := by
      rw [hp.clusterSize]
      exact hk'
    have hlong : k < (cs++more).length*v'.clusterSize := by
      rw [List.length_append,Nat.add_mul]
      omega
    rw [fileByte_list hcs hpos hk',fileByte_list hmore (by rw [hp.clusterSize]; exact hpos) hlong,
      listByte_append v' hk'',listByte_congr hp hl (Chained.all_ok hcs) hdisk hk']

/-- What the users see of a node that is not touched. -/
theorem Sound.store_keep (h : Sound v ex) (hp : SamePlaces v v') (hfiles : v'.files i = v.files i)
    (hkeep : ∀ n c cs, v.files i = some n → n.isDir = false → startOf v ex (.file i) = some c →
      IsChain v c cs → (∃ more, IsChain v' c (cs++more)) ∧
        ∀ x ∈ cs, ∀ a, InCluster v x a → v'.disk a = v.disk a) : storeOf v' i = storeOf v i := by
  rw [storeOf,storeOf,hfiles]
  cases hi : v.files i with
  | none => rw [Option.map_none,Option.map_none]
  | some n =>
    obtain ⟨ctx,hn,he⟩ := h.entry i n hi
    rw [Option.map_some,Option.map_some,FsNode.shown,FsNode.shown]
    cases hd : n.isDir with
    | true => rw [if_pos rfl,if_pos rfl]
    | false =>
      rw [he.content_keep h.consistent.layout hi hn hd hp (fun c cs => hkeep n c cs hi hd)]

/-- Directory entries do not lie in the clusters of files. -/
theorem Sound.entry_apart (h : Sound v ex) (he : EntryOk v ex n ctx) {m : FsNode}
    (hj : v.files i = some m) (hd : m.isDir = false) (ho : startOf v ex (.file i) = some c)
    (hcs : IsChain v c cs) : ∀ x ∈ cs, ¬InCluster v x ctx.loc.lba := by
  obtain ⟨o,dir,ds,hdir,hds,hloc⟩ := he.home
  obtain ⟨-,y,hy,hin⟩ := (h.consistent.layout.mem_dirLocs (Chained.all_ok hds)).mp hloc
  intro x hx hin'
  have hxy := InCluster.unique (Chained.all_ok hcs x hx).1 (Chained.all_ok hds y hy).1 hin' hin
  subst hxy
  exact hdir.ne_file hj hd (h.consistent.apart o _ x ⟨dir,ds,hdir.1,hds,hy⟩ ⟨c,cs,ho,hcs,hx⟩)

section

variable {u : Volume} {m : FsNode} {ctx' : FileCtx} {e : Slot}

/-- A node and its directory entry changed together, perhaps after a cluster was taken. -/
theorem Sound.update (h : Sound v ex) (hu : DiskStep v u)
    (hkeep : ∀ o c ds, startOf v ex o = some c → IsChain v c ds → IsChain u c ds)
    (hdata : ∀ a, v.dataStart ≤ a → u.disk a = v.disk a) (hi : v.files i = some n)
    (hn : n.device = some ctx) (hnew : m.device = some ctx') (hloc : ctx'.loc = ctx.loc)
    (hflags : m.flags = n.flags)
    (hstart : ctx.startCluster ≠ 0 → ctx'.startCluster = ctx.startCluster)
    (hcons : Consistent (u.setNode i m) ex) (hshown : e.isEnd = false ∧ e.counted = true)
    (hcl : e.cluster = ctx'.startCluster) (hdir : n.isDir = true → ctx'.startCluster ≠ 0)
    (hfile : n.isDir = false → e.size = m.size ∧ (m.size = 0 ∨
      ∃ cs, IsChain u ctx'.startCluster cs ∧ m.size ≤ cs.length*v.clusterSize)) :
    Sound ((u.setNode i m).putAt ctx.loc e) ex := by
  obtain ⟨ctx₁,hctx,hentry⟩ := h.entry i n hi
  obtain rfl := Option.some.inj (hn.symm.trans hctx)
  have hl := h.consistent.layout
  obtain ⟨hal,hdat⟩ := hentry.aligned hl
  have ht := TableStep.setNode u i m
  have hput := DiskStep.putAt (u.setNode i m) ctx.loc e
  have hfat : ∀ d < u.totalClusters+2, fatAt ((u.setNode i m).putAt ctx.loc e) d = fatAt u d := by
    intro d hd
    rw [fatAt_putAt hcons.layout (by rw [ht.dataStart,hu.dataStart]; exact hdat)
      (by rw [ht.total]; exact hd),ht.fatAt]
  have hchain : ∀ c ds, IsChain u c ds → IsChain ((u.setNode i m).putAt ctx.loc e) c ds := by
    intro c ds hds
    refine (ht.isChain.mpr hds).keep hput (fun x hx => ?_)
    rw [hfat x (Chained.all_ok hds x hx).2,ht.fatAt]
  have hslot : ∀ loc : Loc, loc.Aligned → v.dataStart ≤ loc.lba →
      dirSlotAt ((u.setNode i m).putAt ctx.loc e) loc =
        if loc = ctx.loc then e else dirSlotAt v loc := by
    intro loc ha hd
    rw [slotAt_putAt hal ha,dirSlotAt,ht.disk,hdata _ hd]
    rfl
  have howner : ∀ o c, startOf v ex o = some c →
      startOf ((u.setNode i m).putAt ctx.loc e) ex o = some c := by
    intro o c ho
    rw [hput.startOf,startOf_setNode]
    split_ifs with heq
    · subst heq
      rw [startOf,fileCtx_eq hi,hn,Option.bind_some] at ho
      split_ifs at ho with h0
      rw [hnew,Option.bind_some,hstart h0,if_neg h0]
      exact ho
    · rw [hu.startOf]
      exact ho
  have hplaces : SamePlaces v ((u.setNode i m).putAt ctx.loc e) :=
    (hu.places.trans ht.places).trans hput.places
  have hfiles : ∀ j, ((u.setNode i m).putAt ctx.loc e).files j =
      if j = i then some m else v.files j := by
    intro j
    change (if j = i then some m else u.files j) = _
    rw [hu.files]
  have hfollow : ChainsExtend v ((u.setNode i m).putAt ctx.loc e) ex := by
    refine ⟨hplaces,fun o c ho => ⟨howner o c ho.1,fun j hj => ?_⟩,
      fun o c cs ho hcs => ⟨[],?_⟩⟩
    · obtain ⟨f,hm,hflag⟩ := ho.2 j hj
      rw [hfiles]
      split_ifs with heq
      · rw [heq,hi] at hm
        obtain rfl := Option.some.inj hm
        exact ⟨m,rfl,by rw [hflags]; exact hflag⟩
      · exact ⟨f,hm,hflag⟩
    · rw [List.append_nil]
      exact hchain c cs (hkeep o c cs ho hcs)
  refine ⟨hcons.keep hput (fun o x hx => ?_),hu.io.trans h.quiet,fun j f hj => ?_,
    fun j j' ctx₁ ctx₂ hj hj' heq => ?_,fun o c ds ho hds => ?_⟩
  · rw [hfat x (by rw [← ht.total]; exact hx.inRange.2),ht.fatAt]
  · rw [hfiles] at hj
    split_ifs at hj with heq
    · obtain rfl := Option.some.inj hj
      obtain ⟨o,dir,cs,ho,hcs,hmem⟩ := hentry.home
      obtain ⟨more,hmore⟩ := hfollow.chain o dir cs ho.1 hcs
      have hown : dirSlotAt ((u.setNode i m).putAt ctx.loc e) ctx'.loc = e := by
        rw [hloc,hslot _ hal hdat,if_pos rfl]
      have hdir' : m.isDir = n.isDir := by rw [FsNode.isDir,FsNode.isDir,hflags]
      refine ⟨ctx',hnew,⟨o,dir,cs++more,hfollow.owner o dir ho,hmore,?_⟩,by rw [hown]; exact hshown,
        by rw [hown]; exact hcl,by rw [hdir']; exact hdir,fun hd => ?_⟩
      · rw [hplaces.dirLocs,hloc,dirLocs,List.flatMap_append]
        exact List.mem_append_left _ hmem
      · rw [hown,hplaces.clusterSize]
        obtain ⟨hsize,hlen⟩ := hfile (hdir' ▸ hd)
        refine ⟨hsize,hlen.imp id ?_⟩
        rintro ⟨cs,hcs,hle⟩
        exact ⟨cs,hchain _ cs hcs,hle⟩
    · obtain ⟨ctx₂,hm,hok⟩ := h.entry j f hj
      obtain ⟨hal',hdat'⟩ := hok.aligned hl
      refine ⟨ctx₂,hm,hok.carry hfollow hj hm ?_⟩
      rw [hslot _ hal' hdat',if_neg]
      intro hsame
      exact heq (h.apart j i ctx₂ ctx (by rw [fileCtx_eq hj,hm]) (by rw [fileCtx_eq hi,hn]) hsame)
  · have hctx : ∀ j ctx₃, fileCtx ((u.setNode i m).putAt ctx.loc e) j = some ctx₃ →
        ∃ ctx₄, fileCtx v j = some ctx₄ ∧ ctx₄.loc = ctx₃.loc := by
      intro j ctx₃ hj
      rw [fileCtx,hfiles] at hj
      split_ifs at hj with heq
      · rw [Option.bind_some,hnew] at hj
        obtain rfl := Option.some.inj hj
        exact ⟨ctx,by rw [heq,fileCtx_eq hi,hn],hloc.symm⟩
      · exact ⟨ctx₃,hj,rfl⟩
    obtain ⟨c₁,h1,e1⟩ := hctx j ctx₁ hj
    obtain ⟨c₂,h2,e2⟩ := hctx j' ctx₂ hj'
    exact h.apart j j' c₁ c₂ h1 h2 (by rw [e1,e2,heq])
  · have hold : DirOwner v ex o c := by
      refine ⟨?_,fun j hj => ?_⟩
      · have hs := ho.1
        rw [hput.startOf,startOf_setNode] at hs
        split_ifs at hs with heq
        · obtain ⟨f,hm,hflag⟩ := ho.2 i heq
          rw [hfiles,if_pos rfl] at hm
          obtain rfl := Option.some.inj hm
          have h0 := hentry.dir (by simpa [FsNode.isDir,← hflags] using hflag)
          rw [hnew,Option.bind_some,hstart h0,if_neg h0] at hs
          rw [heq,startOf_file hi hn h0]
          exact hs
        · rwa [hu.startOf] at hs
      · obtain ⟨f,hm,hflag⟩ := ho.2 j hj
        rw [hfiles] at hm
        split_ifs at hm with heq
        · obtain rfl := Option.some.inj hm
          exact ⟨n,by rw [heq]; exact hi,by rw [← hflags]; exact hflag⟩
        · exact ⟨f,hm,hflag⟩
    obtain ⟨-,es,hes⟩ := h.consistent.chain o c hold.1
    have hes' := hchain c es (hkeep o c es hold.1 hes)
    rw [hds.unique (hput.layout hcons.layout) hes']
    refine (h.tails o c es hold hes).congr (hplaces.dirLocs es) (fun loc hmem => ?_)
    obtain ⟨ha,x,-,hin⟩ := (hl.mem_dirLocs (Chained.all_ok hes)).mp hmem
    rw [hslot loc ha hin.data]
    split_ifs with heq
    · rw [hshown.1,heq,hentry.shown.1]
    · rfl

/-- What the users of the files see of it. -/
theorem Sound.update_store (h : Sound v ex) (hu : DiskStep v u)
    (hkeep : ∀ o c ds, startOf v ex o = some c → IsChain v c ds → IsChain u c ds)
    (hdata : ∀ a, v.dataStart ≤ a → u.disk a = v.disk a) (hi : v.files i = some n)
    (hn : n.device = some ctx) (hcons : Consistent (u.setNode i m) ex) (j : Fin 40) :
    storeOf ((u.setNode i m).putAt ctx.loc e) j = if j = i then
      some (m.shown ((u.setNode i m).putAt ctx.loc e)) else storeOf v j := by
  obtain ⟨ctx₁,hctx,hentry⟩ := h.entry i n hi
  obtain rfl := Option.some.inj (hn.symm.trans hctx)
  have hl := h.consistent.layout
  obtain ⟨-,hdat⟩ := hentry.aligned hl
  have ht := TableStep.setNode u i m
  have hput := DiskStep.putAt (u.setNode i m) ctx.loc e
  have hfiles : ((u.setNode i m).putAt ctx.loc e).files j = if j = i then some m else v.files j := by
    change (if j = i then some m else u.files j) = _
    rw [hu.files]
  split_ifs with hji
  · rw [storeOf,hfiles,if_pos hji,Option.map_some]
  · rw [if_neg hji] at hfiles
    refine h.store_keep ((hu.places.trans ht.places).trans hput.places) hfiles
      (fun f c cs hj hd ho hcs => ⟨⟨[],?_⟩,fun x hx a ha => ?_⟩)
    · rw [List.append_nil]
      refine (ht.isChain.mpr (hkeep _ c cs ho hcs)).keep hput (fun x hx => ?_)
      have hx' := (Chained.all_ok (hkeep _ c cs ho hcs) x hx).2
      rw [← ht.total] at hx'
      exact fatAt_putAt hcons.layout (by rw [ht.dataStart,hu.dataStart]; exact hdat) hx'
    · have hne : a ≠ ctx.loc.lba := by
        rintro rfl
        exact h.entry_apart hentry hj hd ho hcs x hx ha
      rw [disk_putAt_other hne,ht.disk,hdata a ha.data]

end

theorem updateDirent_quiet (hq : v.io = []) (ctx : FileCtx) (f : Slot → Slot) :
    v.updateDirent ctx f = v.putAt ctx.loc (f (dirSlotAt v ctx.loc)) := by
  rw [Volume.updateDirent,Volume.readSector_quiet hq]
  dsimp only
  rw [Volume.writeSector_quiet hq]
  rfl

/-- A cluster taken for a file, as an allocation leaves it. -/
theorem allocCluster_fresh (hq : v.io = []) (hl : DiskLayout v) :
    v.allocCluster = (none,v) ∧ DiskFull v ∨
    ∃ newc v', v.allocCluster = (some newc,v') ∧ Fresh v v' newc := by
  rcases allocCluster_spec hq hl with hno | ⟨newc,v',halloc,hr,h0,hs,hfat,hdisk⟩
  · exact Or.inl hno
  · exact Or.inr ⟨newc,v',halloc,hr,h0,hs,hfat,hdisk⟩

/-- The node of a file that is written to, with a chain. -/
structure Opened (v : Volume) (ex : List Nat) (i : Fin 40) (n : FsNode) (ctx : FileCtx) : Prop where
  sound : Sound v ex
  node : v.files i = some n
  device : n.device = some ctx
  file : n.isDir = false
  start : ctx.startCluster ≠ 0

theorem Fresh.setNode_consistent {newc : Nat} (hf : Fresh v w newc) (h : Sound v ex)
    (hi : v.files i = some n) (hn : n.device = some ctx) :
    Consistent (w.setNode i { n with device := some { ctx with startCluster := newc } }) ex := by
  have hpos : newc ≠ 0 := by
    have := hf.range.1
    omega
  refine (TableStep.setNode w i _).give (hf.consistent h.consistent) (i := i) ?_ (fun o ho => ?_)
    (fun j ctx₁ hj => ?_)
  · rw [startOf_setNode,if_pos rfl,Option.bind_some,if_neg hpos]
  · rw [startOf_setNode,if_neg ho]
  · have hold : ∃ ctx₂, fileCtx v j = some ctx₂ ∧ ctx₂.loc = ctx₁.loc := by
      rw [fileCtx,Volume.setNode] at hj
      dsimp only at hj
      split_ifs at hj with heq
      · rw [Option.bind_some] at hj
        obtain rfl := Option.some.inj hj
        exact ⟨ctx,by rw [heq,fileCtx_eq hi,hn],rfl⟩
      · rw [hf.step.files] at hj
        exact ⟨ctx₁,hj,rfl⟩
    obtain ⟨ctx₂,h2,hloc⟩ := hold
    obtain ⟨x,hx,hmem⟩ := h.consistent.located j ctx₂ h2
    refine ⟨x,hf.step.inRange.mpr hx,?_⟩
    rw [hf.step.slotLocs]
    change ctx₁.loc ∈ _
    rw [← hloc]
    exact hmem

/-- A file's first cluster: no cluster is free, or the file has a chain, and its users see no
change. -/
theorem Sound.firstCluster (h : Sound v ex) (hi : v.files i = some n) (hd : n.isDir = false)
    (hn : n.device = some ctx) :
    v.firstCluster i n ctx = (none,v) ∧ DiskFull v ∨
    ∃ ctx' v' n', v.firstCluster i n ctx = (some ctx',v') ∧ Opened v' ex i n' ctx' ∧
      n'.name = n.name ∧ n'.size = n.size ∧ storeOf v' = storeOf v := by
  rw [Volume.firstCluster]
  split_ifs with h0
  · rcases allocCluster_fresh h.quiet h.consistent.layout with ⟨hno,hfull⟩ | ⟨newc,u,halloc,hf⟩
    · exact Or.inl ⟨by rw [hno],hfull⟩
    · right
      obtain ⟨ctx₁,hctx,hentry⟩ := h.entry i n hi
      obtain rfl := Option.some.inj (hn.symm.trans hctx)
      obtain ⟨-,hdat⟩ := hentry.aligned h.consistent.layout
      obtain ⟨hsize,hlen⟩ := hentry.file hd
      have hzero : n.size = 0 := by
        rcases hlen with hz | ⟨cs,hcs,-⟩
        · exact hz
        · rw [h0] at hcs
          exact absurd hcs not_chain_zero
      have hcons := hf.setNode_consistent h hi hn
      have hsmall : newc < 2^32 := by
        have hfew := h.consistent.layout.few
        have := hf.range.2
        rw [endOfChain] at hfew
        omega
      have hpos : newc ≠ 0 := by
        have := hf.range.1
        omega
      have hkeep : ∀ o c ds, startOf v ex o = some c → IsChain v c ds → IsChain u c ds :=
        fun o c ds _ hds => hf.keep hds
      have hslot : dirSlotAt (u.setNode i { n with device := some { ctx with startCluster := newc } })
          ctx.loc = dirSlotAt v ctx.loc := by
        change getSlot (u.disk ctx.loc.lba) _ = _
        rw [hf.disk _ hdat,dirSlotAt]
      have hrun : (u.setNode i { n with device := some { ctx with startCluster := newc } }
          ).updateDirentCluster { ctx with startCluster := newc } =
          (u.setNode i { n with device := some { ctx with startCluster := newc } }).putAt ctx.loc
            ((dirSlotAt v ctx.loc).setCluster newc) := by
        have hq : (u.setNode i { n with device := some { ctx with startCluster := newc } }).io = [] :=
          hf.step.io.trans h.quiet
        rw [Volume.updateDirentCluster,updateDirent_quiet hq]
        change Volume.putAt _ ctx.loc (Slot.setCluster (dirSlotAt _ ctx.loc) newc) = _
        rw [hslot]
      have hsound := h.update hf.step hkeep hf.disk hi hn
        (m := { n with device := some { ctx with startCluster := newc } }) rfl rfl rfl
        (fun hne => absurd h0 hne) hcons (e := (dirSlotAt v ctx.loc).setCluster newc)
        (by simpa using hentry.shown) (Slot.setCluster_cluster _ hsmall)
        (fun hdir => absurd hdir (by simp [hd])) (fun _ => ⟨hsize,Or.inl hzero⟩)
      have hstore := h.update_store hf.step hkeep hf.disk hi hn hcons
        (e := (dirSlotAt v ctx.loc).setCluster newc)
      refine ⟨_,_,_,by rw [halloc]; dsimp only; rw [hrun],
        ⟨hsound,if_pos rfl,rfl,hd,hpos⟩,rfl,rfl,?_⟩
      funext j
      rw [hstore]
      split_ifs with hji
      · rw [hji,storeOf,hi,Option.map_some,FsNode.shown,FsNode.shown,FsNode.content,FsNode.content,hn]
        simp [hzero,FsNode.isDir]
      · rfl
  · right
    exact ⟨ctx,v,n,rfl,⟨h,hi,hn,hd,h0⟩,rfl,rfl,rfl⟩

end KiNBOL
