import KiNBOL.Fs.Store

namespace KiNBOL

/-! How `fat32_file_write` ends, on any volume whose chains are apart. -/

variable {v v' w : Volume} {n : FsNode} {ctx : FileCtx} {i j : Fin 40} {c off len fuel size : Nat}
  {cs ds taken more : List Nat} {pos r : Nat} {src : Sector} {loc : Loc} {o : Owner} {e : Slot}

/-- No cluster is in two chains, every chain ends and lies in the data region, and a file has clusters
for all of its bytes. -/
structure ChainsApart (v : Volume) : Prop where
  chain : ∀ o c, startOf v [] o = some c → InRange v c ∧ ∃ cs, IsChain v c cs
  apart : ∀ o o' x, Owns v [] o x → Owns v [] o' x → o = o'
  covers : ∀ i n ctx, v.files i = some n → n.device = some ctx → n.isDir = false →
    n.size = 0 ∨ ∃ cs, IsChain v ctx.startCluster cs ∧ n.size ≤ cs.length*v.clusterSize

/-- The directory entry of a file lies in the data region, in no free cluster and in none of a file,
and it says what the node says. -/
structure EntryHome (v : Volume) (n : FsNode) (ctx : FileCtx) : Prop where
  data : v.dataStart ≤ ctx.direntSector
  home : ∀ x, InRange v x → InCluster v x ctx.direntSector → fatAt v x ≠ 0 ∧
    ∀ j m, v.files j = some m → m.isDir = false → ¬Owns v [] (.file j) x
  cluster : (dirSlotAt v ctx.loc).cluster = ctx.startCluster
  size : (dirSlotAt v ctx.loc).size = n.size

/-- A sector of the data region in no free cluster and in none of a list. -/
structure Away (v : Volume) (cs : List Nat) (a : Nat) : Prop where
  data : v.dataStart ≤ a
  used : ∀ x, InRange v x → InCluster v x a → fatAt v x ≠ 0 ∧ x ∉ cs

/-- What a write to a file with the chain `cs` has come to: the first of the free clusters are behind
it, `r` bytes of `src` lie from `off` on, and but for them and the sector of the directory entry the
disk is as it was. -/
structure FileWrote (v v' : Volume) (cs taken : List Nat) (loc : Loc) (off r : Nat) (src : Sector) :
    Prop where
  places : SamePlaces v v'
  total : v'.totalClusters = v.totalClusters
  root : v'.rootCluster = v.rootCluster
  range : ∀ x ∈ cs++taken, InRange v x
  fresh : ∀ x ∈ taken, fatAt v x = 0
  order : freeOrder v = taken++freeOrder v'
  fat : ∀ d < v.totalClusters+2, d ∉ cs++taken → fatAt v' d = fatAt v d
  others : ∀ a, v.dataStart ≤ a → a ≠ loc.lba → (∀ x ∈ cs++taken, ¬InCluster v x a) →
    v'.disk a = v.disk a
  bytes : ∀ k < (cs++taken).length*v.clusterSize,
    listByte v' (cs++taken) k = overlay (listByte v (cs++taken)) off r src k

/-- How many bytes a file has room for, with all free clusters behind its own. -/
def roomFor (v : Volume) (cs : List Nat) : Nat := (cs++freeOrder v).length*v.clusterSize

/-- A sector stays away when a chain goes on in free clusters. -/
theorem Away.step {a : Nat} (ha : Away v cs a) (hp : SamePlaces v v')
    (htotal : v'.totalClusters = v.totalClusters)
    (hfat : ∀ d < v.totalClusters+2, d ∉ ds → fatAt v' d = fatAt v d)
    (hsub : ∀ x ∈ ds, x ∈ cs ∨ fatAt v x = 0) : Away v' ds a where
  data := by
    rw [hp.dataStart]
    exact ha.data
  used x hx hin := by
    rw [InRange,htotal] at hx
    rw [InCluster,hp.dataStart,hp.spc] at hin
    obtain ⟨hused,hout⟩ := ha.used x hx hin
    have hds : x ∉ ds := by
      intro hds
      rcases hsub x hds with hcs | hfree
      · exact hout hcs
      · exact hused hfree
    rw [hfat x hx.2 hds]
    exact ⟨hused,hds⟩

/-- The clusters of a list hold no sector that is away from it. -/
theorem Away.apart {a : Nat} (ha : Away v cs a) (hr : ∀ x ∈ ds, InRange v x)
    (hsub : ∀ x ∈ ds, x ∈ cs ∨ fatAt v x = 0) : ∀ x ∈ ds, ¬InCluster v x a := by
  intro x hx hin
  obtain ⟨hused,hout⟩ := ha.used x (hr x hx) hin
  rcases hsub x hx with hcs | hfree
  · exact hout hcs
  · exact hused hfree

theorem Wrote.sub (h : Wrote v v' c cs more pos r src) :
    ∀ x ∈ cs++more, x ∈ cs ∨ fatAt v x = 0 :=
  fun x hx => (List.mem_append.mp hx).imp id (h.fresh x)

/-- Sectors that a part of a write leaves alone. -/
theorem Wrote.kept (h : Wrote v v' c cs more pos r src) {a : Nat} (ha : Away v cs a) :
    v'.disk a = v.disk a := h.others a ha.data (ha.apart h.range h.sub)

/-- The search for a place, counted as a write of nothing there. -/
theorem Wrote.rebase (h : Wrote v v' c cs more 0 0 src)
    (hpos : pos ≤ (cs++more).length*v.clusterSize) (src' : Sector) :
    Wrote v v' c cs more pos 0 src' where
  step := h.step
  chain := h.chain
  range := h.range
  fresh := h.fresh
  order := h.order
  fat := h.fat
  covers := hpos
  bytes k hk := by
    rw [h.bytes k hk,overlay_zero,overlay_zero]
  others := h.others

theorem TableStep.freeOrder (h : TableStep v v') : KiNBOL.freeOrder v' = KiNBOL.freeOrder v := by
  simp only [KiNBOL.freeOrder,allocOrder,h.hint,h.total,h.fatAt]

theorem TableStep.listByte (h : TableStep v v') (cs : List Nat) (k : Nat) :
    KiNBOL.listByte v' cs k = KiNBOL.listByte v cs k := by
  rw [KiNBOL.listByte,KiNBOL.listByte,h.places.clusterSize,clusterByte,clusterByte,h.disk,
    h.places.clusterToLba]

theorem freeOrder_putAt (hl : DiskLayout v) (hloc : v.dataStart ≤ loc.lba) (e : Slot) :
    freeOrder (v.putAt loc e) = freeOrder v :=
  freeOrder_congr hl rfl rfl (fun _ hd => by rw [fatAt_putAt hl hloc hd])

namespace FileWrote

theorem refl (hr : ∀ x ∈ cs, InRange v x) (loc : Loc) (off : Nat) (src : Sector) :
    FileWrote v v cs [] loc off 0 src where
  places := ⟨rfl,rfl⟩
  total := rfl
  root := rfl
  range := by simpa using hr
  fresh := by simp
  order := rfl
  fat := fun _ _ _ => rfl
  others := fun _ _ _ _ => rfl
  bytes := fun _ _ => by rw [overlay_zero]

theorem inRange (h : FileWrote v v' cs taken loc off r src) : InRange v' c ↔ InRange v c := by
  rw [InRange,InRange,h.total]

theorem inCluster (h : FileWrote v v' cs taken loc off r src) {a : Nat} :
    InCluster v' c a ↔ InCluster v c a := by
  rw [InCluster,InCluster,h.places.dataStart,h.places.spc]

theorem sub (h : FileWrote v v' cs taken loc off r src) :
    ∀ x ∈ cs++taken, x ∈ cs ∨ fatAt v x = 0 :=
  fun x hx => (List.mem_append.mp hx).imp id (h.fresh x)

theorem away (h : FileWrote v v' cs taken loc off r src) {a : Nat} (ha : Away v cs a) :
    Away v' (cs++taken) a := ha.step h.places h.total h.fat h.sub

/-- The tables changed, too. -/
theorem table (h : FileWrote v w cs taken loc off r src) (ht : TableStep w v') :
    FileWrote v v' cs taken loc off r src where
  places := h.places.trans ht.places
  total := ht.total.trans h.total
  root := ht.root.trans h.root
  range := h.range
  fresh := h.fresh
  order := by
    rw [h.order,TableStep.freeOrder ht]
  fat d hd hout := (ht.fatAt d).trans (h.fat d hd hout)
  others a ha hne hout := by
    rw [ht.disk]
    exact h.others a ha hne hout
  bytes k hk := by
    rw [ht.listByte,h.bytes k hk]

/-- A directory entry written where no cluster of the file is. -/
theorem entry (h : FileWrote v w cs taken loc off r src) (hl : DiskLayout w)
    (ha : Away w (cs++taken) loc.lba) (e : Slot) :
    FileWrote v (w.putAt loc e) cs taken loc off r src where
  places := h.places.trans (DiskStep.putAt w loc e).places
  total := h.total
  root := h.root
  range := h.range
  fresh := h.fresh
  order := by
    rw [h.order,freeOrder_putAt hl ha.data]
  fat d hd hout := by
    rw [← h.fat d hd hout]
    exact fatAt_putAt hl ha.data (by rw [h.total]; exact hd)
  others a hdat hne hout := by
    rw [disk_putAt_other hne]
    exact h.others a hdat hne hout
  bytes k hk := by
    have hr : ∀ x ∈ cs++taken, InRange w x := fun x hx => h.inRange.mpr (h.range x hx)
    have hapart := ha.apart hr (fun x hx => Or.inl hx)
    rw [← h.bytes k hk]
    refine listByte_congr (DiskStep.putAt w loc e).places hl hr (fun x hx a hin => ?_)
      (by rw [h.places.clusterSize]; exact hk)
    exact disk_putAt_other (fun heq => hapart x hx (heq ▸ hin))

/-- A part of a write, the first one that writes bytes. -/
theorem wrote (h : FileWrote v w cs taken loc off 0 src) (hl : DiskLayout v) (hlw : DiskLayout w)
    (hw : Wrote w v' c (cs++taken) more off r src) (hout : ∀ x ∈ more, ¬InCluster v x loc.lba) :
    FileWrote v v' cs (taken++more) loc off r src := by
  have hnew : ∀ x ∈ more, x ∉ cs++taken := by
    intro x hx hin
    exact (List.nodup_append.mp (hw.chain.nodup (hw.step.layout hlw))).2.2 x hin x hx rfl
  have hrange : ∀ x ∈ cs++taken++more, InRange v x := fun x hx => h.inRange.mp (hw.range x hx)
  refine ⟨h.places.trans hw.step.places,hw.step.total.trans h.total,hw.step.root.trans h.root,?_,
    fun x hx => ?_,?_,fun d hd hd' => ?_,fun a ha hne ha' => ?_,fun k hk => ?_⟩
  · rw [← List.append_assoc]
    exact hrange
  · rcases List.mem_append.mp hx with hx | hx
    · exact h.fresh x hx
    · rw [← h.fat x (hrange x (by simp [hx])).2 (hnew x hx)]
      exact hw.fresh x hx
  · rw [h.order,hw.order,List.append_assoc]
  · rw [← List.append_assoc] at hd'
    rw [hw.fat d (by rw [h.total]; exact hd) hd',
      h.fat d hd (fun hin => hd' (List.mem_append_left _ hin))]
  · rw [← List.append_assoc] at ha'
    rw [hw.others a (by rw [h.places.dataStart]; exact ha)
        (fun x hx hin => ha' x hx (h.inCluster.mp hin)),
      h.others a ha hne (fun x hx => ha' x (List.mem_append_left _ hx))]
  · rw [← List.append_assoc] at hk ⊢
    have hsize := h.places.clusterSize
    have hold : listByte w (cs++taken++more) k = listByte v (cs++taken++more) k := by
      by_cases hin : k < (cs++taken).length*v.clusterSize
      · rw [listByte_append w (by rw [hsize]; exact hin),listByte_append v hin,h.bytes k hin,
          overlay_zero]
      · obtain ⟨x,hx,j,hj,hb⟩ := listByte_behind v (Nat.not_lt.mp hin) hk
        have hx' := hrange x (by simp [hx])
        rw [hb w hsize,hb v rfl]
        refine clusterByte_congr h.places hl hx' (fun a ha => h.others a ha.data ?_ ?_) hj
        · exact fun heq => hout x hx (heq ▸ ha)
        · intro y hy ha'
          rw [InCluster.unique (h.range y hy).1 hx'.1 ha' ha] at hy
          exact hnew x hx hy
    rw [hw.bytes k (by rw [hsize]; exact hk)]
    simp only [overlay,hold]

end FileWrote

theorem Fresh.fileWrote {newc : Nat} (h : Fresh v v' newc) (hl : DiskLayout v)
    (ho : freeOrder v = newc::freeOrder v') (loc : Loc) (off : Nat) (src : Sector) :
    FileWrote v v' [] [newc] loc off 0 src where
  places := h.step.places
  total := h.step.total
  root := h.step.root
  range := by simpa using h.range
  fresh := by simpa using h.free
  order := ho
  fat d hd hout := by
    rw [h.fat d hd,if_neg]
    simpa using hout
  others := fun a ha _ _ => h.disk a ha
  bytes k hk := by
    rw [overlay_zero]
    exact listByte_congr h.step.places hl (by simpa using h.range)
      (fun x _ a ha => h.disk a ha.data) hk

/-- A file that is written to, with its chain. -/
structure Writing (v : Volume) (i : Fin 40) (n : FsNode) (ctx : FileCtx) (cs : List Nat) : Prop where
  layout : DiskLayout v
  quiet : v.io = []
  node : v.files i = some n
  device : n.device = some ctx
  start : InRange v ctx.startCluster
  chain : IsChain v ctx.startCluster cs
  covers : n.size ≤ cs.length*v.clusterSize
  away : Away v cs ctx.loc.lba
  cluster : (dirSlotAt v ctx.loc).cluster = ctx.startCluster
  size : (dirSlotAt v ctx.loc).size = n.size

theorem dirSlotAt_putAt (v : Volume) (loc : Loc) (e : Slot) :
    dirSlotAt (v.putAt loc e) loc = e := by
  rw [dirSlotAt,Volume.putAt,Volume.setSector]
  dsimp only
  rw [if_pos rfl,getSlot_putSlot]

theorem Slot.size_lt (e : Slot) : e.size < 2^32 := by
  have h1 := (e 28).isLt
  have h2 := (e 29).isLt
  have h3 := (e 30).isLt
  have h4 := (e 31).isLt
  simp only [Slot.size,le16]
  omega

namespace Writing

variable (h : Writing v i n ctx cs)

include h

/-- A part of a write. -/
theorem wrote (hw : Wrote v v' ctx.startCluster cs more pos r src) :
    Writing v' i n ctx (cs++more) where
  layout := hw.step.layout h.layout
  quiet := hw.step.io.trans h.quiet
  node := by
    rw [hw.step.files]
    exact h.node
  device := h.device
  start := hw.step.inRange.mpr h.start
  chain := hw.chain
  covers := by
    have := h.covers
    rw [hw.step.clusterSize,List.length_append,Nat.add_mul]
    omega
  away := h.away.step hw.step.places hw.step.total hw.fat hw.sub
  cluster := by
    rw [dirSlotAt,hw.kept h.away]
    exact h.cluster
  size := by
    rw [dirSlotAt,hw.kept h.away]
    exact h.size

/-- The new size of the file. -/
theorem growFile (hle : size ≤ cs.length*v.clusterSize) (hsize : size < 2^32) :
    ∃ w e, v.growFile i ctx size = w ∧
      Writing w i { n with size := max n.size size } ctx cs ∧
      (w = v ∨ TableStep (v.putAt ctx.loc e) w) ∧ ∀ j, j ≠ i → w.files j = v.files j := by
  rw [Volume.growFile,h.node]
  dsimp only
  split_ifs with hlt
  · have hmax : max n.size size = size := by omega
    have hrun : (v.setNode i { n with size := size }).updateDirentSize ctx size =
        (v.putAt ctx.loc ((dirSlotAt v ctx.loc).setSize size)).setNode i { n with size := size } := by
      have hq : (v.setNode i { n with size := size }).io = [] := h.quiet
      rw [Volume.updateDirentSize,updateDirent_quiet hq]
      rfl
    rw [hrun,hmax]
    generalize he : (dirSlotAt v ctx.loc).setSize size = e
    have hput := DiskStep.putAt v ctx.loc e
    have ht := TableStep.setNode (v.putAt ctx.loc e) i { n with size := size }
    have hslot : dirSlotAt ((v.putAt ctx.loc e).setNode i { n with size := size }) ctx.loc = e := by
      rw [dirSlotAt,ht.disk]
      exact dirSlotAt_putAt v ctx.loc e
    refine ⟨_,e,rfl,⟨?_,h.quiet,if_pos rfl,h.device,h.start,?_,hle,?_,?_,?_⟩,Or.inr ht,
      fun j hj => if_neg hj⟩
    · exact ht.layout (hput.layout h.layout)
    · exact ht.isChain.mpr (h.chain.keep hput (fun x hx =>
        fatAt_putAt h.layout h.away.data (Chained.all_ok h.chain x hx).2))
    · exact h.away.step (hput.places.trans ht.places) rfl
        (fun d hd _ => (ht.fatAt d).trans (fatAt_putAt h.layout h.away.data hd))
        (fun x hx => Or.inl hx)
    · rw [hslot,← he,Slot.setSize_cluster]
      exact h.cluster
    · rw [hslot,← he]
      exact Slot.setSize_size _ hsize
  · have hmax : max n.size size = n.size := by omega
    rw [hmax]
    exact ⟨v,dirSlotAt v ctx.loc,rfl,h,Or.inl rfl,fun _ _ => rfl⟩

end Writing

/-- The clusters of a file; one without clusters has none. -/
def FileChain (v : Volume) (ctx : FileCtx) (cs : List Nat) : Prop :=
  ctx.startCluster = 0 ∧ cs = [] ∨ IsChain v ctx.startCluster cs

theorem FileChain.unique (h : FileChain v ctx cs) (h' : FileChain v ctx ds) (hl : DiskLayout v) :
    ds = cs := by
  rcases h with ⟨h0,rfl⟩ | h <;> rcases h' with ⟨h0',rfl⟩ | h'
  · rfl
  · exact absurd (h0 ▸ h') not_chain_zero
  · exact absurd (h0' ▸ h) not_chain_zero
  · exact h'.unique hl h

/-- A write to the file in slot `i`, as far as it has come: the node is now `n'`. -/
structure WriteEnd (v v' : Volume) (i : Fin 40) (n n' : FsNode) (ctx ctx' : FileCtx)
    (cs taken : List Nat) (off r : Nat) (src : Sector) : Prop where
  wrote : FileWrote v v' cs taken ctx.loc off r src
  writing : Writing v' i n' ctx' (cs++taken)
  loc : ctx'.loc = ctx.loc
  name : n'.name = n.name
  flags : n'.flags = n.flags
  chain : FileChain v ctx cs
  own : ∀ x ∈ cs, Owns v [] (.file i) x
  files : ∀ j, j ≠ i → v'.files j = v.files j
  old : n.size ≤ cs.length*v.clusterSize
  oldByte : ∀ k < n.size, fileByte v ctx.startCluster k = listByte v cs k

section

variable {n' : FsNode} {ctx' : FileCtx}

theorem FileWrote.roomFor (h : FileWrote v v' cs taken loc off r src) :
    KiNBOL.roomFor v cs = (cs++taken).length*v.clusterSize+(freeOrder v').length*v.clusterSize := by
  have hlen : (cs++taken++freeOrder v').length = (cs++taken).length+(freeOrder v').length :=
    List.length_append
  rw [KiNBOL.roomFor,h.order,← List.append_assoc,hlen,Nat.add_mul]

theorem WriteEnd.step (h : WriteEnd v w i n n' ctx ctx' cs taken off 0 src) (hl : DiskLayout v)
    (hw : Wrote w v' ctx'.startCluster (cs++taken) more off r src) :
    WriteEnd v v' i n n' ctx ctx' cs (taken++more) off r src := by
  have hout := h.writing.away.apart hw.range hw.sub
  refine ⟨h.wrote.wrote hl h.writing.layout hw (fun x hx hin => ?_),?_,h.loc,h.name,h.flags,h.chain,h.own,
    fun j hj => ?_,h.old,h.oldByte⟩
  · refine hout x (by simp [hx]) (h.wrote.inCluster.mpr ?_)
    rw [h.loc]
    exact hin
  · rw [← List.append_assoc]
    exact h.writing.wrote hw
  · rw [hw.step.files,h.files j hj]

/-- Where no bytes are written yet, the place does not matter. -/
theorem WriteEnd.rebase (h : WriteEnd v w i n n' ctx ctx' cs taken pos 0 src) (off : Nat)
    (src' : Sector) : WriteEnd v w i n n' ctx ctx' cs taken off 0 src' where
  wrote := { h.wrote with
    bytes := fun k hk => by rw [h.wrote.bytes k hk,overlay_zero,overlay_zero] }
  writing := h.writing
  loc := h.loc
  name := h.name
  flags := h.flags
  chain := h.chain
  own := h.own
  files := h.files
  old := h.old
  oldByte := h.oldByte

/-- A write that has come to its end gives the node its size. -/
theorem WriteEnd.grow (h : WriteEnd v w i n n' ctx ctx' cs taken off r src)
    (hle : size ≤ (cs++taken).length*w.clusterSize) (hsize : size < 2^32) :
    WriteEnd v (w.growFile i ctx' size) i n { n' with size := max n'.size size } ctx ctx' cs taken
      off r src := by
  obtain ⟨u,e,hu,hwr,hcase,hfiles⟩ := h.writing.growFile hle hsize
  have haway := h.writing.away
  rw [h.loc] at haway hcase
  rw [hu]
  refine ⟨?_,hwr,h.loc,h.name,h.flags,h.chain,h.own,fun j hj => (hfiles j hj).trans (h.files j hj),h.old,
    h.oldByte⟩
  rcases hcase with rfl | ht
  · exact h.wrote
  · exact (h.wrote.entry h.writing.layout haway e).table ht

end

theorem EntryHome.away (he : EntryHome v n ctx) (hi : v.files i = some n) (hd : n.isDir = false)
    (hown : ∀ x ∈ cs, Owns v [] (.file i) x) : Away v cs ctx.loc.lba where
  data := he.data
  used x hx hin := by
    obtain ⟨hused,hno⟩ := he.home x hx hin
    exact ⟨hused,fun hmem => hno i n hi hd (hown x hmem)⟩

section

variable (hl : DiskLayout v) (hq : v.io = []) (hc : ChainsApart v) (hi : v.files i = some n)
  (hd : n.isDir = false) (hn : n.device = some ctx) (he : EntryHome v n ctx)

include hl hq hc hi hd hn he

omit hc hn in
/-- A file without clusters gets its first one. -/
theorem firstCluster_taken {newc : Nat} {u : Volume} (h0 : ctx.startCluster = 0)
    (hzero : n.size = 0) (halloc : v.allocCluster = (some newc,u)) (hf : Fresh v u newc) (off : Nat)
    (src : Sector) : ∃ ctx' v' n', v.firstCluster i n ctx = (some ctx',v') ∧ n'.size = n.size ∧
      WriteEnd v v' i n n' ctx ctx' [] [newc] off 0 src := by
  rw [Volume.firstCluster,if_pos h0,halloc]
  dsimp only
  generalize hctx : { ctx with startCluster := newc } = ctx'
  have hloc : ctx'.loc = ctx.loc := by rw [← hctx]; rfl
  have hstart : ctx'.startCluster = newc := by rw [← hctx]
  have hslot : dirSlotAt u ctx.loc = dirSlotAt v ctx.loc := by
    rw [dirSlotAt,hf.disk ctx.loc.lba he.data,dirSlotAt]
  have hrun : (u.setNode i { n with device := some ctx' }).updateDirentCluster ctx' =
      (u.putAt ctx.loc ((dirSlotAt v ctx.loc).setCluster newc)).setNode i
        { n with device := some ctx' } := by
    have hqu : (u.setNode i { n with device := some ctx' }).io = [] := hf.step.io.trans hq
    rw [Volume.updateDirentCluster,updateDirent_quiet hqu,hloc,hstart,← hslot]
    rfl
  rw [hrun]
  generalize hes : (dirSlotAt v ctx.loc).setCluster newc = e
  have hlu := hf.step.layout hl
  have hfresh := hf.fileWrote hl (allocCluster_order hq hl halloc) ctx.loc off src
  have haway : Away u [newc] ctx.loc.lba :=
    hfresh.away (he.away hi hd (fun x hx => absurd hx List.not_mem_nil))
  have ht := TableStep.setNode (u.putAt ctx.loc e) i { n with device := some ctx' }
  have hend := (hfresh.entry hlu haway e).table ht
  have hslot' : dirSlotAt ((u.putAt ctx.loc e).setNode i { n with device := some ctx' })
      ctx'.loc = e := by
    rw [hloc,dirSlotAt,ht.disk]
    exact dirSlotAt_putAt u ctx.loc e
  have hr := hf.range
  have hsmall : newc < 2^32 := by
    have hfew := hl.few
    have := hr.2
    rw [endOfChain] at hfew
    omega
  have hchain : IsChain ((u.putAt ctx.loc e).setNode i { n with device := some ctx' }) newc
      [newc] := by
    refine ⟨rfl,hend.inRange.mpr hr,?_⟩
    change endOfChain ≤ fatAt _ newc
    rw [ht.fatAt,fatAt_putAt hlu haway.data (by rw [hf.step.total]; exact hr.2),hf.fat _ hr.2,
      if_pos rfl,endOfChain]
    omega
  refine ⟨ctx',_,{ n with device := some ctx' },rfl,rfl,hend,⟨ht.layout ((DiskStep.putAt u ctx.loc
    e).layout hlu),hf.step.io.trans hq,if_pos rfl,rfl,?_,?_,?_,?_,?_,?_⟩,hloc,rfl,rfl,
    Or.inl ⟨h0,rfl⟩,by simp,fun j hj => ?_,by omega,fun k hk => by omega⟩
  · rw [hstart]
    exact hend.inRange.mpr hr
  · rw [hstart]
    exact hchain
  · dsimp only
    omega
  · rw [hloc]
    exact hend.away (he.away hi hd (fun x hx => absurd hx List.not_mem_nil))
  · rw [hslot',← hes,hstart]
    exact Slot.setCluster_cluster _ hsmall
  · rw [hslot',← hes,Slot.setCluster_size]
    exact he.size
  · have hfiles : u.files = v.files := hf.step.files
    change (if j = i then _ else u.files j) = _
    rw [if_neg hj,hfiles]

/-- A file that is written to has a chain of its own; one without clusters gets one, if a cluster is
free. -/
theorem firstCluster_end (off : Nat) (src : Sector) :
    v.firstCluster i n ctx = (none,v) ∧ DiskFull v ∧ n.size = 0 ∧ ctx.startCluster = 0 ∨
    ∃ ctx' v' n' cs taken, v.firstCluster i n ctx = (some ctx',v') ∧ n'.size = n.size ∧
      WriteEnd v v' i n n' ctx ctx' cs taken off 0 src := by
  by_cases h0 : ctx.startCluster = 0
  · have hzero : n.size = 0 := by
      rcases hc.covers i n ctx hi hn hd with hz | ⟨ds,hds,-⟩
      · exact hz
      · rw [h0] at hds
        exact absurd hds not_chain_zero
    rcases allocCluster_fresh hq hl with ⟨hno,hfull⟩ | ⟨newc,u,halloc,hf⟩
    · left
      rw [Volume.firstCluster,if_pos h0,hno]
      exact ⟨rfl,hfull,hzero,h0⟩
    · obtain ⟨ctx',v',n',hrun,hsize,hend⟩ :=
        firstCluster_taken hl hq hi hd he h0 hzero halloc hf off src
      exact Or.inr ⟨ctx',v',n',_,_,hrun,hsize,hend⟩
  · right
    have hown := startOf_file hi hn h0 []
    obtain ⟨hr,cs,hcs⟩ := hc.chain _ _ hown
    have howns : ∀ x ∈ cs, Owns v [] (.file i) x := fun x hx => ⟨_,cs,hown,hcs,hx⟩
    have hcov : n.size ≤ cs.length*v.clusterSize := by
      rcases hc.covers i n ctx hi hn hd with hz | ⟨ds,hds,hle⟩
      · omega
      · rwa [hcs.unique hl hds]
    have h0 : 0 < v.clusterSize := by
      have := hl.spc
      rw [Volume.clusterSize]
      omega
    refine ⟨ctx,v,n,cs,[],if_neg ‹_›,rfl,.refl (Chained.all_ok hcs) ..,?_,rfl,rfl,rfl,Or.inr hcs,howns,
      fun _ _ => rfl,hcov,fun k hk => fileByte_list hcs h0 (by omega)⟩
    rw [List.append_nil]
    exact ⟨hl,hq,hi,hn,hr,hcs,hcov,he.away hi hd howns,he.cluster,he.size⟩

/-- How `fat32_file_write` ends: there is no first cluster for the file, or as many bytes are written
as there is room for, and the node gets the end as its size if that is more. -/
theorem fat32FileWrite_end (hf : off+len < fuel) (cbuf src : Sector) :
    fat32FileWrite fuel (some cbuf) i off len src v = some (0,v) ∧ DiskFull v ∧ n.size = 0 ∧
      ctx.startCluster = 0 ∨
    ∃ r v' n' ctx' cs taken, fat32FileWrite fuel (some cbuf) i off len src v = some (r,v') ∧
      WriteEnd v v' i n n' ctx ctx' cs taken off r src ∧ r = min len (roomFor v cs-off) ∧
      (r < len → DiskFull v') ∧
      (roomFor v cs ≤ off ∧ n'.size = n.size ∨ n'.size = max n.size (u32 (off+r))) := by
  rw [fat32FileWrite,hi]
  dsimp only
  rw [hn]
  dsimp only
  rcases firstCluster_end hl hq hc hi hd hn he off src with ⟨hno,hfull⟩ |
    ⟨ctx',v1,n',cs,taken,hfirst,hsame,h1⟩
  · rw [hno]
    exact Or.inl ⟨rfl,hfull⟩
  right
  rw [hfirst]
  dsimp only
  have hw1 := h1.writing
  obtain ⟨xs,hxs⟩ := hw1.chain.head hw1.layout hw1.start
  have hdiv := Nat.div_le_self off v1.clusterSize
  have hchain : IsChain v1 ctx'.startCluster ([]++ctx'.startCluster::xs) := hxs ▸ hw1.chain
  have hsize1 := h1.wrote.places.clusterSize
  rcases writeSkip_spec hw1.quiet hw1.layout hw1.start hchain
      (by omega : off/v1.clusterSize < fuel) src with
    ⟨v2,more,hrun,hskip,hfull,hlong⟩ | ⟨y,j,v2,more,pre,post,hrun,hskip,heq,hj,hpos⟩
  · rw [hrun]
    rw [List.nil_append,← hxs] at hskip hlong
    have h2 := ((h1.rebase 0 src).step hl hskip).rebase off src
    have hroom := h2.wrote.roomFor
    rw [(freeOrder_eq_nil h2.writing.layout).mpr hfull,← List.append_assoc,← hsize1,
      List.length_nil,Nat.zero_mul] at hroom
    rw [List.length_nil,Nat.zero_mul] at hlong
    exact ⟨0,v2,n',ctx',cs,_,rfl,h2,by omega,fun _ => hfull,Or.inl ⟨by omega,hsame⟩⟩
  rw [hrun]
  dsimp only
  rw [List.nil_append,← hxs] at hskip heq
  have h2 := ((h1.rebase 0 src).step hl hskip).rebase off src
  have hw2 := h2.writing
  rw [← List.append_assoc] at hw2
  have hsize2 := hskip.step.clusterSize
  have hpos2 : pre.length*v2.clusterSize+j = off := by
    rw [hsize2,hpos,List.length_nil]
    omega
  obtain ⟨r,v3,more',hcopy,hw3,hle,hwhy⟩ := writeCopy_spec hw2.quiet hw2.layout hw2.start
    (heq ▸ hw2.chain) (by rw [hsize2]; exact hj) (Nat.zero_le len) (by omega : len-0 < fuel) cbuf
  rw [hpos2,← heq,List.append_assoc cs] at hw3 hwhy
  simp only [Nat.zero_add] at hw3 hcopy
  rw [hcopy]
  dsimp only
  have h3 := h2.step hl hw3
  have hcov := hw3.covers
  have hsize3 := h2.wrote.places.clusterSize
  have hmod : u32 (off+r) ≤ off+r := Nat.mod_le _ _
  have hlt : u32 (off+r) < 2^32 := Nat.mod_lt _ (by decide)
  have h4 := h3.grow
    (by rw [h3.wrote.places.clusterSize,← hsize3,← List.append_assoc]; omega) hlt
  have hroom := h3.wrote.roomFor
  rw [← List.append_assoc cs,← hsize3] at hroom
  have hfull : r = len ∨ freeOrder v3 = [] ∧ off+r = roomFor v cs := by
    rcases hwhy with hlen | ⟨hfull,hend⟩
    · exact Or.inl (by omega)
    · have hnil := (freeOrder_eq_nil h3.writing.layout).mpr hfull
      rw [hnil,List.length_nil,Nat.zero_mul] at hroom
      exact Or.inr ⟨hnil,by omega⟩
  refine ⟨r,_,_,ctx',cs,_,rfl,h4,?_,fun hlt => ?_,Or.inr (by rw [← hsame])⟩
  · rcases hfull with hlen | ⟨-,hend⟩ <;> omega
  · obtain ⟨hnil,-⟩ := hfull.resolve_left (by omega)
    refine (freeOrder_eq_nil h4.writing.layout).mp ?_
    have horder := h4.wrote.order
    rw [h3.wrote.order,hnil] at horder
    exact (List.append_cancel_left horder).symm

end

end KiNBOL
