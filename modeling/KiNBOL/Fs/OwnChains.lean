import KiNBOL.Fs.AreaCalls
import KiNBOL.Fs.RemoveSound

namespace KiNBOL

/-! Files keep their clusters to themselves under the calls that create and remove, transfers may
fail. -/

/-- A walk from one cluster comes to another. -/
inductive Visits (v : Volume) : Nat → Nat → Prop
  | here {c : Nat} : InChain c → Visits v c c
  | next {c d : Nat} : InChain c → Visits v (fatAt v c) d → Visits v c d

/-- Where the driver starts to walk over a directory: the root, the directory of a node, or the
cluster of a node's entry. -/
inductive DirStart (v : Volume) : Nat → Prop
  | root : DirStart v v.rootCluster
  | dir {i : Fin 40} {n : FsNode} {ctx : FileCtx} : v.files i = some n → n.device = some ctx →
      n.isDir = true → DirStart v ctx.startCluster
  | entry {i : Fin 40} {n : FsNode} {ctx : FileCtx} : v.files i = some n → n.device = some ctx →
      DirStart v (v.lbaToCluster ctx.direntSector)

/-- The first cluster of the file in a slot. -/
def FileStart (v : Volume) (i : Fin 40) (c : Nat) : Prop :=
  ∃ n ctx, v.files i = some n ∧ n.isDir = false ∧ n.device = some ctx ∧ ctx.startCluster = c

/-- The files of a volume keep to themselves: the regions of the disk fit together, no walk over a
directory leaves the volume, the chain of a file ends and shares nothing with that of another file
or with a directory. -/
structure FilesApart (v : Volume) : Prop where
  layout : DiskLayout v
  dirs : ∀ a, DirStart v a → a < endOfChain ∧ ∀ c, Visits v a c → InRange v c
  ends : ∀ i c, FileStart v i c → c = 0 ∨ InChain c ∧ ∃ cs, IsChain v c cs
  apart : ∀ i j a b c, FileStart v i a → FileStart v j b → Visits v a c → Visits v b c → i = j
  dirsApart : ∀ i a b c, FileStart v i a → DirStart v b → Visits v a c → ¬Visits v b c

/-- A chain of an image that lies outside the area and is as it was. -/
structure OwnChain (D : Set Nat) (b v : Volume) (c : Nat) (cs : List Nat) : Prop where
  start : InChain c
  chain : IsChain b c cs
  out : ∀ x ∈ cs, x ∉ D
  fat : ∀ x ∈ cs, fatAt v x = fatAt b x
  data : ∀ x ∈ cs, ∀ a, InCluster b x a → v.disk a = b.disk a

/-- The clusters of a node: those of directories are in the area, those of a file are not. -/
structure NodeApart (D : Set Nat) (b v : Volume) (n : FsNode) (ctx : FileCtx) : Prop where
  entry : Hub D (b.lbaToCluster ctx.direntSector)
  dir : n.isDir = true → Hub D ctx.startCluster
  file : n.isDir = false → ctx.startCluster = 0 ∨ ∃ cs, OwnChain D b v ctx.startCluster cs

/-- The same places and the same clusters. -/
structure SameClusters (b v : Volume) : Prop where
  places : SamePlaces b v
  total : v.totalClusters = b.totalClusters

/-- The files of a volume that was mounted as `b`: their chains are those of the image. -/
structure Apart (D : Set Nat) (b v : Volume) : Prop where
  area : Area D v
  same : SameClusters b v
  root : Hub D v.rootCluster
  node : ∀ i n ctx, v.files i = some n → n.device = some ctx → NodeApart D b v n ctx
  apart : ∀ i j c d cs ds, FileStart v i c → FileStart v j d → IsChain b c cs → IsChain b d ds →
    i ≠ j → ∀ x ∈ cs, x ∉ ds
  others : ∀ i, (v.others i).device = none

variable {D D' : Set Nat} {b v w u : Volume} {c d fuel cnt : Nat} {cs : List Nat} {k : Kmalloc}
  {i : Fin 40} {n m : FsNode} {ctx : FileCtx} {path : CName} {st : FatStatus} {r : NodeRef}

theorem SameClusters.inRange (h : SameClusters b v) : InRange v c ↔ InRange b c := by
  rw [InRange,InRange,h.total]

theorem SameClusters.inCluster (h : SameClusters b v) {a : Nat} :
    InCluster v c a ↔ InCluster b c a := by
  rw [InCluster,InCluster,h.places.dataStart,h.places.spc]

theorem SameClusters.lbaToCluster (h : SameClusters b v) (a : Nat) :
    v.lbaToCluster a = b.lbaToCluster a := by
  rw [Volume.lbaToCluster,Volume.lbaToCluster,h.places.dataStart,h.places.spc]

theorem OwnChain.mono (h : OwnChain D b v c cs) (hs : SameClusters b v) (hw : Within D' v w)
    (hout : ∀ x ∈ cs, x ∉ D') : OwnChain D' b w c cs where
  start := h.start
  chain := h.chain
  out := hout
  fat := fun x hx => (hw.fat x (hs.inRange.mpr (Chained.all_ok h.chain x hx)) (hout x hx)).trans
    (h.fat x hx)
  data := fun x hx a ha => (hw.data x (hs.inRange.mpr (Chained.all_ok h.chain x hx)) (hout x hx) a
    (hs.inCluster.mpr ha)).trans (h.data x hx a ha)

/-- The chain as the volume has it. -/
theorem OwnChain.now (h : OwnChain D b v c cs) (hs : SameClusters b v) : IsChain v c cs :=
  (Chained.congr h.chain h.fat).mono (fun _ _ hx => hs.inRange.mpr hx) (fun _ hx => hx)

theorem Area.table (h : Area D v) (ht : TableStep v w) : Area D w where
  layout := ht.layout h.layout
  range := fun c hc => ht.inRange.mpr (h.range c hc)
  free := fun c hc h0 => h.free c (ht.inRange.mp hc) (by rw [← ht.fatAt]; exact h0)
  link := fun c hc hin => by
    rw [ht.fatAt] at hin ⊢
    exact h.link c hc hin

theorem Kept.sameClusters (h : Kept v w) (hs : SameClusters b v) : SameClusters b w :=
  ⟨⟨h.spc.trans hs.places.spc,h.dataStart.trans hs.places.dataStart⟩,h.total.trans hs.total⟩

theorem TableStep.sameClusters (h : TableStep v w) (hs : SameClusters b v) : SameClusters b w :=
  ⟨⟨h.spc.trans hs.places.spc,h.dataStart.trans hs.places.dataStart⟩,h.total.trans hs.total⟩

/-- A step in a wider area, and then one of the tables: nodes that stay keep out of the area, new
ones have no file's clusters. -/
theorem Apart.step (h : Apart D b v) (hD : D ⊆ D') (hw : Within D' v w) (ht : TableStep w u)
    (hnode : ∀ i n ctx, u.files i = some n → n.device = some ctx →
      (v.files i = some n ∧ ∀ cs, n.isDir = false → IsChain b ctx.startCluster cs →
        ∀ x ∈ cs, x ∉ D') ∨
      (Hub D' (b.lbaToCluster ctx.direntSector) ∧ (n.isDir = true → Hub D' ctx.startCluster) ∧
        (n.isDir = false → ctx.startCluster = 0))) : Apart D' b u := by
  have hold : ∀ i c cs, FileStart u i c → IsChain b c cs → FileStart v i c := by
    rintro i c cs ⟨n,ctx,hi,hd,hctx,rfl⟩ hcs
    rcases hnode i n ctx hi hctx with ⟨hi',-⟩ | ⟨-,-,h0⟩
    · exact ⟨n,ctx,hi',hd,hctx,rfl⟩
    · rw [h0 hd] at hcs
      exact absurd hcs not_chain_zero
  refine ⟨hw.area.table ht,ht.sameClusters (hw.kept.sameClusters h.same),?_,fun i n ctx hi hctx => ?_,
    fun i j c d cs ds hi hj hcs hds => h.apart i j c d cs ds (hold i c cs hi hcs)
      (hold j d ds hj hds) hcs hds,fun i => ?_⟩
  · rw [ht.root,hw.kept.root]
    exact h.root.mono hD
  · rcases hnode i n ctx hi hctx with ⟨hi',hout⟩ | ⟨hentry,hdir,h0⟩
    · have hok := h.node i n ctx hi' hctx
      refine ⟨hok.entry.mono hD,fun hd => (hok.dir hd).mono hD,fun hd => (hok.file hd).imp id ?_⟩
      rintro ⟨cs,hcs⟩
      obtain ⟨hin,hch,hno,hfat,hdata⟩ := hcs.mono h.same hw (hout cs hd hcs.chain)
      exact ⟨cs,hin,hch,hno,fun x hx => (ht.fatAt x).trans (hfat x hx),
        fun x hx a ha => by rw [ht.disk]; exact hdata x hx a ha⟩
    · exact ⟨hentry,hdir,fun hd => Or.inl (h0 hd)⟩
  · rw [ht.others,hw.kept.others]
    exact h.others i

/-- Chains of files lie outside the area. -/
theorem Apart.out (h : Apart D b v) (hl : DiskLayout b) (hi : v.files i = some n)
    (hctx : n.device = some ctx) (hd : n.isDir = false) (hcs : IsChain b ctx.startCluster cs) :
    ∀ x ∈ cs, x ∉ D := by
  rcases (h.node i n ctx hi hctx).file hd with h0 | ⟨ds,hds⟩
  · rw [h0] at hcs
    exact absurd hcs not_chain_zero
  · rw [hcs.unique hl hds.chain]
    exact hds.out

theorem Apart.within (h : Apart D b v) (hl : DiskLayout b) (hw : Within D v w) : Apart D b w := by
  refine h.step subset_rfl hw (.refl w) (fun i n ctx hi hctx => Or.inl ?_)
  rw [hw.kept.files] at hi
  exact ⟨hi,fun cs hd hcs => h.out hl hi hctx hd hcs⟩

/-- A new node: an empty file, or a directory in the area. -/
theorem Apart.withNode (h : Apart D b v) (hl : DiskLayout b) (hn : n.device = some ctx)
    (hentry : Hub D (b.lbaToCluster ctx.direntSector))
    (hdir : n.isDir = true → Hub D ctx.startCluster)
    (hfile : n.isDir = false → ctx.startCluster = 0) : Apart D b (v.withNode i n) := by
  refine h.step subset_rfl (.refl h.area) (.withNode v i n) (fun j m ctx' hj hctx => ?_)
  have hj' : (if j = i then some n else v.files j) = some m := hj
  split_ifs at hj' with hji
  · right
    rw [← Option.some.inj hj',hn,Option.some.injEq] at hctx
    rw [← hctx,← Option.some.inj hj']
    exact ⟨hentry,hdir,hfile⟩
  · exact Or.inl ⟨hj',fun cs hd hcs => h.out hl hj' hctx hd hcs⟩

/-- The cluster of a sector of the area. -/
theorem Area.lbaToCluster (h : Area D v) (hs : SameClusters b v) {a : Nat} (ha : InArea D v a) :
    Hub D (b.lbaToCluster a) := by
  obtain ⟨c,hc,hin⟩ := ha
  left
  rw [← hs.lbaToCluster,h.layout.lbaToCluster_eq (h.range c hc) hin]
  exact hc

/-- The directory of a new node. -/
theorem Apart.parent (h : Apart D b v) {p : Parent} (hp : resolveParent v path = some p) :
    Hub D p.dirCluster := by
  unfold resolveParent at hp
  split at hp
  · rw [← Option.some.inj hp]
    exact h.root
  · dsimp only at hp
    split at hp
    next => simp at hp
    next q hq =>
      split_ifs at hp with hflag
      obtain ⟨ctx,hctx,rfl⟩ := Option.map_eq_some_iff.mp hp
      obtain ⟨r,-,hr⟩ := Option.bind_eq_some_iff.mp hq
      cases r with
      | other i =>
        rw [← Option.some.inj hr,h.others i] at hctx
        simp at hctx
      | file i => exact (h.node i q ctx hr hctx).dir (by simp [FsNode.isDir,hflag])

theorem Apart.registerNew (h : Apart D b v) (hl : DiskLayout b) {p : Parent} {flags : BitVec 32}
    {loc : Loc} (hloc : InArea D v loc.lba)
    (hdir : flags &&& vfsDirectory ≠ 0#32 → Hub D c) (hfile : flags &&& vfsDirectory = 0#32 → c = 0) :
    Apart D b (registerNew k p flags c loc v).2 := by
  unfold KiNBOL.registerNew
  split_ifs
  · exact h
  · rcases addNode_cases v ⟨joinFullName p.name p.leaf,flags,0,some ⟨c,loc.lba,loc.offset⟩⟩ with
      ⟨hno,-⟩ | ⟨i,hi,hsome⟩
    · rw [hno]
      exact h
    · rw [hsome]
      exact h.withNode hl rfl (h.area.lbaToCluster h.same hloc)
        (fun hd => hdir (by simpa [FsNode.isDir] using hd))
        (fun hd => hfile (by simpa [FsNode.isDir] using hd))

theorem Apart.create (h : Apart D b v) (hl : DiskLayout b)
    (hrun : fat32CreateFile fuel k path v = some (st,w)) : Apart D b w := by
  unfold fat32CreateFile at hrun
  split_ifs at hrun
  · rw [← (Prod.mk.inj (Option.some.inj hrun)).2]
    exact h
  · rw [← (Prod.mk.inj (Option.some.inj hrun)).2]
    exact h
  · split at hrun
    next =>
      rw [← (Prod.mk.inj (Option.some.inj hrun)).2]
      exact h
    next p hp =>
      have hd := h.parent hp
      split at hrun
      next => simp at hrun
      next s v1 hs =>
        have h1 := h.within hl (h.area.newShortName hd hs)
        split_ifs at hrun
        · rw [← (Prod.mk.inj (Option.some.inj hrun)).2]
          exact h1
        · split at hrun
          next => simp at hrun
          next v2 he =>
            rw [← (Prod.mk.inj (Option.some.inj hrun)).2]
            exact h1.within hl (h1.area.writeEntry hd he).1
          next loc v2 he =>
            obtain ⟨hw,hloc⟩ := h1.area.writeEntry hd he
            have h2 := h1.within hl hw
            obtain rfl : (KiNBOL.registerNew k p vfsFile 0 loc v2).2 = w :=
              congrArg Prod.snd (Option.some.inj hrun)
            exact h2.registerNew hl (hw.kept.inArea.mpr (hloc loc rfl))
              (fun hflag => absurd rfl hflag) (fun _ => rfl)

theorem Apart.mkdir (h : Apart D b v) (hl : DiskLayout b)
    (hrun : fat32Mkdir fuel k path v = some (st,w)) : Apart D b w := by
  unfold fat32Mkdir at hrun
  split at hrun
  · rw [← (Prod.mk.inj (Option.some.inj hrun)).2]
    exact h
  split at hrun
  · rw [← (Prod.mk.inj (Option.some.inj hrun)).2]
    exact h
  split at hrun
  next =>
    rw [← (Prod.mk.inj (Option.some.inj hrun)).2]
    exact h
  next p hp =>
    have hd := h.parent hp
    split at hrun
    · rw [← (Prod.mk.inj (Option.some.inj hrun)).2]
      exact h
    obtain ⟨ha,hnew⟩ := h.area.allocCluster
    split at hrun
    next u halloc =>
      rw [halloc] at ha
      rw [← (Prod.mk.inj (Option.some.inj hrun)).2]
      exact h.within hl ha
    next newc u halloc =>
      rw [halloc] at ha hnew
      have hc : newc ∈ D := hnew newc rfl
      have h0 := h.within hl (ha.trans (ha.area.fatSetEntry (x := 0x0FFFFFFF) (Or.inl hc)
        (fun hin => absurd hin (by decide))))
      split at hrun
      next => simp at hrun
      next s v1 hs =>
        have h1 := h0.within hl (h0.area.newShortName hd hs)
        split at hrun
        next => simp at hrun
        next v2 he =>
          rw [← (Prod.mk.inj (Option.some.inj hrun)).2]
          exact h1.within hl (h1.area.writeEntry hd he).1
        next loc v2 he =>
          obtain ⟨hw,hloc⟩ := h1.area.writeEntry hd he
          have h2 : Apart D b v2 := h1.within hl hw
          split at hrun
          · rw [← (Prod.mk.inj (Option.some.inj hrun)).2]
            exact h2
          have hw3 := h2.area.writeCluster hc (dotSector newc p.dirCluster) (le_refl _)
          obtain rfl : (KiNBOL.registerNew k p vfsDirectory newc loc
              (v2.writeSectors (v2.clusterToLba newc) (dotSector newc p.dirCluster)
                v2.sectorsPerCluster).2).2 = w := congrArg Prod.snd (Option.some.inj hrun)
          exact (h2.within hl hw3).registerNew hl
            (hw3.kept.inArea.mpr (hw.kept.inArea.mpr (hloc loc rfl))) (fun _ => Or.inl hc)
            (fun hflag => absurd hflag (by decide))

/-- A node taken out of the tables. -/
theorem finish_table (v : Volume) (r : NodeRef) :
    TableStep v ((v.vfsUnregister r).slotFree r) ∧
    ∀ j n, ((v.vfsUnregister r).slotFree r).files j = some n → v.files j = some n ∧ r ≠ .file j := by
  cases r with
  | other i => exact ⟨by constructor <;> rfl,fun j n hj => ⟨hj,by simp⟩⟩
  | file i =>
    rw [Volume.slotFree]
    split_ifs with hnone
    · refine ⟨by constructor <;> rfl,fun j n hj => ⟨hj,?_⟩⟩
      intro he
      rw [NodeRef.file.injEq] at he
      rw [← he,hnone] at hj
      simp at hj
    · refine ⟨by constructor <;> rfl,fun j n hj => ?_⟩
      dsimp only at hj
      split_ifs at hj with hji
      exact ⟨hj,fun he => hji (by rw [NodeRef.file.injEq] at he; exact he.symm)⟩

/-- A removed file's clusters join the area. -/
theorem Area.join (h : Area D v) (hcs : IsChain v c cs) : Area (D ∪ {x | x ∈ cs}) v where
  layout := h.layout
  range := by
    rintro x (hx | hx)
    · exact h.range x hx
    · exact Chained.all_ok hcs x hx
  free := fun x hx h0 => Or.inl (h.free x hx h0)
  link := by
    rintro x (hx | hx) hin
    · exact Or.inl (h.link x hx hin)
    · right
      induction cs generalizing c with
      | nil => simp at hx
      | cons y cs ih =>
        obtain ⟨rfl,-,hrest⟩ := hcs
        rcases List.mem_cons.mp hx with rfl | hx
        · cases cs with
          | nil =>
            have hend : endOfChain ≤ fatAt v x := hrest
            have := hin.2
            omega
          | cons z cs =>
            rw [hrest.1]
            simp
        · exact List.mem_cons_of_mem _ (ih hrest hx)

theorem Apart.removeSingle (h : Apart D b v) (hl : DiskLayout b)
    (hrun : removeSingleNode fuel k cnt r v = some w) : ∃ D', Apart D' b w := by
  unfold removeSingleNode at hrun
  dsimp only at hrun
  split at hrun
  next =>
    obtain ⟨ht,hfiles⟩ := finish_table v r
    rw [← Option.some.inj hrun]
    exact ⟨D,h.step subset_rfl (.refl h.area) ht (fun j n ctx hj hctx =>
      Or.inl ⟨(hfiles j n hj).1,fun cs hd hcs => h.out hl (hfiles j n hj).1 hctx hd hcs⟩)⟩
  next ctx hctx =>
    obtain ⟨n,hn,hdev⟩ := Option.bind_eq_some_iff.mp hctx
    obtain ⟨i,rfl⟩ : ∃ i, r = .file i := by
      cases r with
      | other i =>
        rw [← Option.some.inj hn,h.others i] at hdev
        simp at hdev
      | file i => exact ⟨i,rfl⟩
    have hi : v.files i = some n := hn
    have hok := h.node i n ctx hi hdev
    -- the area with the clusters of the node
    obtain ⟨D',hD,harea,hstart,hsep⟩ : ∃ D', D ⊆ D' ∧ Area D' v ∧
        (InChain ctx.startCluster → ctx.startCluster ∈ D') ∧
        ∀ j m ctx' cs, j ≠ i → v.files j = some m → m.device = some ctx' → m.isDir = false →
          IsChain b ctx'.startCluster cs → ∀ x ∈ cs, x ∉ D' := by
      cases hdir : n.isDir with
      | true => exact ⟨D,subset_rfl,h.area,(hok.dir hdir).leads,
          fun j m ctx' cs _ hj hm hd hcs => h.out hl hj hm hd hcs⟩
      | false =>
        rcases hok.file hdir with h0 | ⟨ds,hds⟩
        · refine ⟨D,subset_rfl,h.area,fun hin => ?_,
            fun j m ctx' cs _ hj hm hd hcs => h.out hl hj hm hd hcs⟩
          have := hin.1
          omega
        · have hnow := hds.now h.same
          refine ⟨D ∪ {x | x ∈ ds},Set.subset_union_left,h.area.join hnow,fun hin => Or.inr ?_,
            fun j m ctx' cs hne hj hm hd hcs x hx hin => ?_⟩
          · cases ds with
            | nil =>
              have hend : endOfChain ≤ ctx.startCluster := hnow
              have := hin.2
              omega
            | cons y ds =>
              rw [hnow.1]
              exact List.mem_cons_self
          · rcases hin with hin | hin
            · exact h.out hl hj hm hd hcs x hx hin
            · exact h.apart j i _ _ cs ds ⟨m,ctx',hj,hd,hm,rfl⟩ ⟨n,ctx,hi,hdir,hdev,rfl⟩ hcs
                hds.chain hne x hx hin
    split at hrun
    next => simp at hrun
    next u hu =>
      obtain ⟨x,hx,rfl⟩ := Option.map_eq_some_iff.mp hrun
      have hw : Within D' v u := by
        split_ifs at hu
        · exact harea.freeChain hstart hu
        · rw [← Option.some.inj hu]
          exact .refl harea
      have hentry : Hub D' (u.lbaToCluster ctx.direntSector) := by
        rw [hw.kept.lbaToCluster,h.same.lbaToCluster]
        exact hok.entry.mono hD
      have hw' := hw.trans (hw.area.markRemovedWithLfn hentry hx)
      obtain ⟨ht,hfiles⟩ := finish_table x.2 (.file i)
      refine ⟨D',h.step hD hw' ht (fun j m ctx' hj hm => Or.inl ?_)⟩
      obtain ⟨hj',hne⟩ := hfiles j m hj
      rw [hw'.kept.files] at hj'
      refine ⟨hj',fun cs hd hcs => hsep j m ctx' cs (fun he => hne (by rw [he])) hj' hm hd hcs⟩

theorem Apart.removeChildren (hl : DiskLayout b) {turns : Nat} {node : NodeRef} {x : Nat × Volume}
    (h : ∃ D, Apart D b v) (hrun : removeChildren fuel k path node turns cnt v = some x) :
    ∃ D, Apart D b x.2 := by
  induction turns generalizing cnt v with
  | zero => simp [KiNBOL.removeChildren] at hrun
  | succ turns ih =>
    rw [KiNBOL.removeChildren] at hrun
    split at hrun
    next =>
      rw [← Option.some.inj hrun]
      exact h
    next i hi =>
      split at hrun
      next => simp at hrun
      next w hw =>
        obtain ⟨D,hD⟩ := h
        exact ih (hD.removeSingle hl hw) hrun

theorem Apart.remove (h : Apart D b v) (hl : DiskLayout b) {recursive : Bool}
    (hrun : fat32Remove fuel k path recursive v = some (st,w)) : ∃ D, Apart D b w := by
  have hmap : ∀ {x : Option Volume}, x.map (fun v => (FatStatus.ok,v)) = some (st,w) →
      x = some w := by
    intro x hx
    obtain ⟨y,hy,he⟩ := Option.map_eq_some_iff.mp hx
    rw [hy,(Prod.mk.inj he).2]
  unfold fat32Remove at hrun
  dsimp only at hrun
  split at hrun
  · rw [← (Prod.mk.inj (Option.some.inj hrun)).2]
    exact ⟨D,h⟩
  split at hrun
  next =>
    rw [← (Prod.mk.inj (Option.some.inj hrun)).2]
    exact ⟨D,h⟩
  next r hr =>
    split at hrun
    next =>
      rw [← (Prod.mk.inj (Option.some.inj hrun)).2]
      exact ⟨D,h⟩
    next node hnode =>
      split at hrun
      · rw [← (Prod.mk.inj (Option.some.inj hrun)).2]
        exact ⟨D,h⟩
      split at hrun
      · exact h.removeSingle hl (hmap hrun)
      next hdir =>
        split at hrun
        · split at hrun
          next => simp at hrun
          next cnt u hu =>
            obtain ⟨D',h'⟩ := Apart.removeChildren hl ⟨D,h⟩ hu
            exact h'.removeSingle hl (hmap hrun)
        · split at hrun
          next =>
            rw [← (Prod.mk.inj (Option.some.inj hrun)).2]
            exact ⟨D,h⟩
          next ctx hctx =>
            have hhub : Hub D ctx.startCluster := by
              cases r with
              | other i =>
                rw [← Option.some.inj hnode,h.others i] at hctx
                simp at hctx
              | file i => exact (h.node i node ctx hnode hctx).dir (by simp [FsNode.isDir,hdir])
            split at hrun
            next => simp at hrun
            next u hu =>
              rw [← (Prod.mk.inj (Option.some.inj hrun)).2]
              exact ⟨D,h.within hl (h.area.dirIsEmpty hhub hu)⟩
            next u hu =>
              exact (h.within hl (h.area.dirIsEmpty hhub hu)).removeSingle hl (hmap hrun)

end KiNBOL
