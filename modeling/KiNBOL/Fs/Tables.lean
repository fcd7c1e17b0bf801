import KiNBOL.Fs.Written

namespace KiNBOL

variable {v v' v'' w : Volume} {c d dir fuel : Nat} {cs ds : List Nat} {ex ex' : List Nat}
  {i : Fin 40} {n : FsNode}

/-- What an operation on the tables leaves alone. -/
structure TableStep (v v' : Volume) : Prop where
  fatOk : v'.fatOk = v.fatOk
  spc : v'.sectorsPerCluster = v.sectorsPerCluster
  numFats : v'.numFats = v.numFats
  fatSize : v'.fatSize32 = v.fatSize32
  fatStart : v'.fatStart = v.fatStart
  dataStart : v'.dataStart = v.dataStart
  root : v'.rootCluster = v.rootCluster
  total : v'.totalClusters = v.totalClusters
  hint : v'.nextFreeHint = v.nextFreeHint
  fsinfoLba : v'.fsinfoLba = v.fsinfoLba
  fsinfoValid : v'.fsinfoValid = v.fsinfoValid
  fsinfoFreeCount : v'.fsinfoFreeCount = v.fsinfoFreeCount
  others : v'.others = v.others
  disk : v'.disk = v.disk
  io : v'.io = v.io

theorem TableStep.refl (v : Volume) : TableStep v v := by constructor <;> rfl

theorem TableStep.trans (h1 : TableStep v v') (h2 : TableStep v' v'') : TableStep v v'' where
  fatOk := h2.fatOk.trans h1.fatOk
  spc := h2.spc.trans h1.spc
  numFats := h2.numFats.trans h1.numFats
  fatSize := h2.fatSize.trans h1.fatSize
  fatStart := h2.fatStart.trans h1.fatStart
  dataStart := h2.dataStart.trans h1.dataStart
  root := h2.root.trans h1.root
  total := h2.total.trans h1.total
  hint := h2.hint.trans h1.hint
  fsinfoLba := h2.fsinfoLba.trans h1.fsinfoLba
  fsinfoValid := h2.fsinfoValid.trans h1.fsinfoValid
  fsinfoFreeCount := h2.fsinfoFreeCount.trans h1.fsinfoFreeCount
  others := h2.others.trans h1.others
  disk := h2.disk.trans h1.disk
  io := h2.io.trans h1.io

section

variable (h : TableStep v v')

include h

theorem TableStep.layout (hl : DiskLayout v) : DiskLayout v' where
  spc := h.spc ▸ hl.spc
  fats := h.numFats ▸ hl.fats
  data := by rw [h.dataStart,h.fatStart,h.numFats,h.fatSize]; exact hl.data
  entries := by rw [h.total,h.fatSize]; exact hl.entries
  sectors := by rw [h.dataStart,h.total,h.spc]; exact hl.sectors
  few := by rw [h.total]; exact hl.few
  fsinfo := fun hv => by
    rw [h.fsinfoLba,h.fatStart]
    exact hl.fsinfo (h.fsinfoValid ▸ hv)
  hint := h.hint ▸ hl.hint

theorem TableStep.inRange : InRange v' c ↔ InRange v c := by
  rw [InRange,InRange,h.total]

theorem TableStep.fatAt (c : Nat) : KiNBOL.fatAt v' c = KiNBOL.fatAt v c := by
  rw [KiNBOL.fatAt,KiNBOL.fatAt,Volume.fatSector,Volume.fatSector,h.fatStart,h.disk]

theorem TableStep.isChain : IsChain v' c cs ↔ IsChain v c cs := by
  constructor
  · intro hc
    exact (Chained.congr hc (fun x _ => (h.fatAt x).symm)).mono
      (fun _ _ hx => h.inRange.mp hx) (fun _ hx => hx)
  · intro hc
    exact (Chained.congr hc (fun x _ => h.fatAt x)).mono
      (fun _ _ hx => h.inRange.mpr hx) (fun _ hx => hx)

theorem TableStep.slotLocs (c : Nat) : v'.slotLocs c = v.slotLocs c := by
  rw [Volume.slotLocs,Volume.slotLocs,Volume.clusterSize,Volume.clusterSize,Volume.clusterToLba,
    Volume.clusterToLba,h.dataStart,h.spc]

theorem TableStep.clusterSlots (c : Nat) : v'.clusterSlots c = v.clusterSlots c := by
  rw [Volume.clusterSlots,Volume.clusterSlots,h.slotLocs,h.disk]

theorem TableStep.dirSlots (cs : List Nat) : v'.dirSlots cs = v.dirSlots cs := by
  rw [Volume.dirSlots,Volume.dirSlots]
  congr 1
  funext c
  exact h.clusterSlots c

theorem TableStep.inCluster {a : Nat} : InCluster v' c a ↔ InCluster v c a := by
  rw [InCluster,InCluster,h.dataStart,h.spc]

/-- Tables in which the owners of chains got other names. -/
theorem TableStep.retable (hv : Consistent v ex') (f : Owner → Owner)
    (hf : ∀ o c, startOf v' ex o = some c → startOf v ex' (f o) = some c)
    (hinj : ∀ o o' c c', startOf v' ex o = some c → startOf v' ex o' = some c' → f o = f o' → o = o')
    (hloc : ∀ i ctx, fileCtx v' i = some ctx →
      ∃ c, InRange v c ∧ (⟨ctx.direntSector,ctx.direntOffset⟩ : Loc) ∈ v.slotLocs c) :
    Consistent v' ex where
  layout := h.layout hv.layout
  chain := by
    intro o c ho
    obtain ⟨hr,cs,hcs⟩ := hv.chain _ c (hf o c ho)
    exact ⟨h.inRange.mpr hr,cs,h.isChain.mpr hcs⟩
  apart := by
    rintro o o' x ⟨c,cs,ho,hcs,hx⟩ ⟨c',cs',ho',hcs',hx'⟩
    apply hinj o o' c c' ho ho'
    exact hv.apart _ _ x ⟨c,cs,hf o c ho,h.isChain.mp hcs,hx⟩
      ⟨c',cs',hf o' c' ho',h.isChain.mp hcs',hx'⟩
  located := by
    intro i ctx hi
    obtain ⟨c,hc,hmem⟩ := hloc i ctx hi
    exact ⟨c,h.inRange.mpr hc,by rw [h.slotLocs]; exact hmem⟩
  others := by
    intro i
    rw [h.others]
    exact hv.others i

end

/-- A chain given up is no concern of the others. -/
theorem Consistent.forget {l : List Nat} (h : Consistent v (ex++l)) : Consistent v ex := by
  refine (TableStep.refl v).retable h id (fun o c ho => ?_) (fun o o' _ _ _ _ he => he) h.located
  cases o with
  | root => exact ho
  | file i => exact ho
  | extra j =>
    simp only [startOf] at ho
    obtain ⟨hj,he⟩ := List.getElem?_eq_some_iff.mp ho
    simp only [id,startOf]
    rw [List.getElem?_append_left hj]
    exact ho

/-- A volume with a node in an unused slot. -/
def Volume.withNode (v : Volume) (i : Fin 40) (n : FsNode) : Volume :=
  { v with
    files := fun j => if j = i then some n else v.files j
    active := v.active+1
    nodes := if vfsMaxNodes ≤ v.nodes.length then v.nodes else v.nodes++[.file i] }

theorem TableStep.withNode (v : Volume) (i : Fin 40) (n : FsNode) :
    TableStep v (v.withNode i n) := by constructor <;> rfl

theorem addNode_cases (v : Volume) (n : FsNode) :
    (v.addNode n = none ∧ ∀ i, v.files i ≠ none) ∨
    ∃ i, v.files i = none ∧ v.addNode n = some (v.withNode i n) := by
  rw [Volume.addNode,Volume.slotAlloc]
  cases hfind : (List.finRange 40).find? (fun i => v.files i = none) with
  | none =>
    left
    refine ⟨rfl,fun i hi => ?_⟩
    rw [List.find?_eq_none] at hfind
    exact hfind i (List.mem_finRange i) (by simpa using hi)
  | some i =>
    right
    have hi : v.files i = none := by simpa using List.find?_some hfind
    refine ⟨i,hi,?_⟩
    simp only [Option.map_some,Volume.setNode,Volume.vfsRegister,Volume.withNode]
    split_ifs <;> congr 2

theorem fileCtx_withNode (v : Volume) (i j : Fin 40) (n : FsNode) :
    fileCtx (v.withNode i n) j = if j = i then n.device else fileCtx v j := by
  simp only [fileCtx,Volume.withNode]
  split_ifs <;> rfl

/-- A new file without clusters. -/
theorem Consistent.addFile (h : Consistent v ex) {ctx : FileCtx} (hn : n.device = some ctx)
    (h0 : ctx.startCluster = 0)
    (hloc : ∃ c, InRange v c ∧ (⟨ctx.direntSector,ctx.direntOffset⟩ : Loc) ∈ v.slotLocs c) :
    Consistent (v.withNode i n) ex := by
  refine (TableStep.withNode v i n).retable h id (fun o c ho => ?_) (fun o o' _ _ _ _ he => he)
    (fun j ctx' hj => ?_)
  · cases o with
    | root => exact ho
    | extra j => exact ho
    | file j =>
      simp only [startOf,fileCtx_withNode,id] at ho ⊢
      by_cases hji : j = i
      · rw [if_pos hji,hn] at ho
        simp [h0] at ho
      · rwa [if_neg hji] at ho
  · rw [fileCtx_withNode] at hj
    by_cases hji : j = i
    · rw [if_pos hji,hn,Option.some.injEq] at hj
      exact hj ▸ hloc
    · rw [if_neg hji] at hj
      exact h.located j ctx' hj

/-- A chain that belonged to nobody is given to a node. -/
theorem TableStep.give (ht : TableStep v v') {newc : Nat} (h : Consistent v (ex++[newc]))
    (hi : startOf v' ex (.file i) = some newc)
    (hother : ∀ o, o ≠ .file i → startOf v' ex o = startOf v ex o)
    (hloc : ∀ i ctx, fileCtx v' i = some ctx →
      ∃ c, InRange v c ∧ (⟨ctx.direntSector,ctx.direntOffset⟩ : Loc) ∈ v.slotLocs c) :
    Consistent v' ex := by
  have hex : ∀ j c, ex[j]? = some c → j < ex.length ∧ (ex++[newc])[j]? = some c := by
    intro j c hj
    obtain ⟨hlt,-⟩ := List.getElem?_eq_some_iff.mp hj
    exact ⟨hlt,by rw [List.getElem?_append_left hlt]; exact hj⟩
  refine ht.retable h (fun o => if o = .file i then .extra ex.length else o) (fun o c ho => ?_)
    (fun o o' c c' ho ho' he => ?_) hloc
  · split_ifs with heq
    · rw [heq,hi] at ho
      rw [startOf]
      simpa using ho
    · rw [hother o heq] at ho
      cases o with
      | root => exact ho
      | file j => exact ho
      | extra j => exact (hex j c ho).2
  · have hlt : ∀ o c, startOf v' ex o = some c → o ≠ .extra ex.length := by
      rintro o c ho rfl
      have := (hex _ c ho).1
      omega
    split_ifs at he with h1 h2 h2
    · rw [h1,h2]
    · exact absurd he.symm (hlt o' c' ho')
    · exact absurd he (hlt o c ho)
    · exact he

/-- A new directory with a chain that belonged to nobody registered. -/
theorem Consistent.addDir {newc : Nat} (h : Consistent v (ex++[newc])) {ctx : FileCtx}
    (hn : n.device = some ctx) (h0 : ctx.startCluster = newc) (hpos : newc ≠ 0)
    (hloc : ∃ c, InRange v c ∧ (⟨ctx.direntSector,ctx.direntOffset⟩ : Loc) ∈ v.slotLocs c) :
    Consistent (v.withNode i n) ex := by
  refine (TableStep.withNode v i n).give h (i := i) ?_ (fun o ho => ?_) (fun j ctx' hj => ?_)
  · rw [startOf,fileCtx_withNode,if_pos rfl,hn,Option.bind_some,h0,if_neg hpos]
  · cases o with
    | root => rfl
    | extra j => rfl
    | file j => rw [startOf,startOf,fileCtx_withNode,if_neg (fun he => ho (by rw [he]))]
  · rw [fileCtx_withNode] at hj
    by_cases hji : j = i
    · rw [if_pos hji,hn,Option.some.injEq] at hj
      exact hj ▸ hloc
    · rw [if_neg hji] at hj
      exact h.located j ctx' hj

end KiNBOL
