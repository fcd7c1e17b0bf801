import KiNBOL.Fs.Reads
import KiNBOL.Fs.NodeTable

namespace KiNBOL

variable {b v v' u w : Volume} {l l' : List CName} {k : Kmalloc} {fuel : Nat} {pre : CName}

/-- The full names of the entries in a list of slots, those below a directory right behind its own,
and the LFN state unless the end of the directory was met. -/
def listSlots (pre : CName) (sub : Nat → CName → List CName) :
    List Slot → LfnScan → List CName × Option LfnScan
  | [],s => ([],some s)
  | e::rest,s =>
    match s.scan e with
    | (.stop,_) => ([],none)
    | (.skip,s) => listSlots pre sub rest s
    | (.entry name,s) =>
      let full := buildFullName pre name
      let below := if e.attr &&& 0x10#8 ≠ 0#8 ∧ 2 ≤ e.cluster then
        sub e.cluster (buildFullName full [ch '/']) else []
      let after := listSlots pre sub rest s
      (full::(below++after.1),after.2)

/-- The names in the clusters of a directory. -/
def listLoop (slots : Nat → List Slot) (next : Nat → Nat) (pre : CName)
    (sub : Nat → CName → List CName) : Nat → Nat → LfnScan → List CName
  | 0,_,_ => []
  | fuel+1,c,s =>
    if 2 ≤ c ∧ c < endOfChain then
      match listSlots pre sub (slots c) s with
      | (l,none) => l
      | (l,some s) => l++listLoop slots next pre sub fuel (next c) s
    else []

/-- The names in a directory tree down to a level. -/
def listDir (slots : Nat → List Slot) (next : Nat → Nat) (fuel : Nat) :
    Nat → Nat → CName → List CName
  | 0,_,_ => []
  | levels+1,dir,pre =>
    listLoop slots next pre (listDir slots next fuel levels) fuel dir ⟨false,0,0#8,fun _ => 0#8⟩

/-- The directories and the FAT are read as before. -/
def SameDisk (b v : Volume) : Prop := v.clusterSlots = b.clusterSlots ∧ fatAt v = fatAt b

theorem SameDisk.refl (v : Volume) : SameDisk v v := ⟨rfl,rfl⟩

theorem SameDisk.trans (h1 : SameDisk b v) (h2 : SameDisk v w) : SameDisk b w :=
  ⟨h2.1.trans h1.1,h2.2.trans h1.2⟩

theorem OnlyIo.same (h : OnlyIo v w) : SameDisk v w :=
  ⟨funext h.clusterSlots,funext h.fatAt⟩

theorem TableStep.same (h : TableStep v w) : SameDisk v w :=
  ⟨funext h.clusterSlots,funext h.fatAt⟩

/-- Nodes with names from a list, in its order, were put into unused slots; nothing else happened
but transfers. -/
inductive Registers : Volume → List CName → Volume → Prop
  | done (v : Volume) : Registers v [] v
  | read {v u w : Volume} {l : List CName} : OnlyIo v u → Registers u l w → Registers v l w
  | skip {v w : Volume} {l : List CName} (name : CName) : Registers v l w → Registers v (name::l) w
  | node {v w : Volume} {l : List CName} (i : Fin 40) (n : FsNode) : v.files i = none →
      Registers (v.withNode i n) l w → Registers v (n.name::l) w

namespace Registers

theorem nothing (v : Volume) (l : List CName) : Registers v l v := by
  induction l with
  | nil => exact .done v
  | cons name l ih => exact .skip name ih

theorem append (h : Registers v l u) (h' : Registers u l' w) : Registers v (l++l') w := by
  induction h with
  | done => exact h'
  | read ho _ ih => exact .read ho (ih h')
  | skip name _ ih => exact .skip name (ih h')
  | node i n hi _ ih => exact .node i n hi (ih h')

theorem same (h : Registers v l w) : SameDisk v w := by
  induction h with
  | done v => exact SameDisk.refl v
  | read ho _ ih => exact ho.same.trans ih
  | skip _ _ ih => exact ih
  | node i n _ _ ih => exact (TableStep.withNode _ i n).same.trans ih

end Registers

theorem mountNode_registers (k : Kmalloc) (loc : Loc) (n : FsNode) (v : Volume) :
    Registers v [n.name] (mountNode k loc n v) := by
  unfold mountNode
  split_ifs
  · exact Registers.nothing v _
  · rcases addNode_cases v n with ⟨hno,-⟩ | ⟨i,hi,hsome⟩
    · rw [hno]
      exact Registers.nothing v _
    · rw [hsome]
      exact .node i n hi (.done _)

section

variable {sub : Nat → CName → Volume → Option Volume} {lsub : Nat → CName → List CName}
  (hsub : ∀ c p v v', SameDisk b v → sub c p v = some v' → Registers v (lsub c p) v')

include hsub

theorem scanSlots_registers {es : List (Loc × Slot)} {s : LfnScan} {r : Unit ⊕ LfnScan}
    (hb : SameDisk b v) (h : scanSlots k pre sub es s v = some (r,v')) :
    Registers v (listSlots pre lsub (es.map Prod.snd) s).1 v' ∧
      (listSlots pre lsub (es.map Prod.snd) s).2 = r.elim (fun _ => none) some := by
  induction es generalizing s v with
  | nil =>
    obtain ⟨rfl,rfl⟩ := Prod.mk.inj (Option.some.inj h)
    exact ⟨.done v,rfl⟩
  | cons x es ih =>
    obtain ⟨loc,e⟩ := x
    rw [scanSlots] at h
    rw [List.map_cons,listSlots]
    split at h
    next hs =>
      obtain ⟨rfl,rfl⟩ := Prod.mk.inj (Option.some.inj h)
      rw [hs]
      exact ⟨.done v,rfl⟩
    next hs =>
      rw [hs]
      exact ih hb h
    next name s' hs =>
      rw [hs]
      dsimp only at h ⊢
      have hone := mountNode_registers k loc
      split at h
      next hdir =>
        have hn := hone ⟨buildFullName pre name,vfsDirectory,0,some ⟨e.cluster,loc.lba,loc.offset⟩⟩ v
        have hb' := hb.trans hn.same
        split at h
        next hgo =>
          rw [Bool.and_eq_true,decide_eq_true_eq] at hgo
          split at h
          next => simp at h
          next w hw =>
            have hbelow := hsub _ _ _ _ hb' hw
            obtain ⟨hrest,he⟩ := ih (hb'.trans hbelow.same) h
            rw [if_pos ⟨hdir,hgo.1⟩]
            exact ⟨hn.append (hbelow.append hrest),he⟩
        next =>
          obtain ⟨hrest,he⟩ := ih hb' h
          exact ⟨hn.append ((Registers.nothing _ _).append hrest),he⟩
      next hdir =>
        have hn := hone ⟨buildFullName pre name,vfsFile,e.size,some ⟨e.cluster,loc.lba,loc.offset⟩⟩ v
        obtain ⟨hrest,he⟩ := ih (hb.trans hn.same) h
        exact ⟨hn.append ((Registers.nothing _ _).append hrest),he⟩

theorem scanLoop_registers {c : Nat} {s : LfnScan} (hb : SameDisk b v)
    (h : scanLoop k pre sub fuel c s v = some v') :
    Registers v (listLoop (fun c => (b.clusterSlots c).map Prod.snd) (fatAt b) pre lsub fuel c s)
      v' := by
  induction fuel generalizing c s v with
  | zero => simp [scanLoop] at h
  | succ fuel ih =>
    rw [scanLoop] at h
    rw [listLoop]
    split at h
    next hc =>
      rw [if_pos hc]
      obtain ⟨ho,hbuf⟩ := v.readCluster_only c
      split at h
      next hr =>
        rw [hr] at ho
        rw [← Option.some.inj h]
        exact .read ho (Registers.nothing _ _)
      next buf w hr =>
        rw [hr] at ho hbuf
        have hb' := hb.trans ho.same
        split at h
        next => simp at h
        next hs =>
          rw [hbuf _ rfl,hb.1] at hs
          obtain ⟨hl,he⟩ := scanSlots_registers hsub hb' hs
          rw [← Option.some.inj h]
          split
          next hlist => rw [hlist] at hl; exact .read ho hl
          next hlist => rw [hlist] at he; simp at he
        next s' x hs =>
          rw [hbuf _ rfl,hb.1] at hs
          obtain ⟨hl,he⟩ := scanSlots_registers hsub hb' hs
          have hb'' := hb'.trans hl.same
          obtain ⟨hof,hval⟩ := x.fatGetEntry_only c
          generalize x.fatGetEntry c = y at h hof hval
          obtain ⟨next,y⟩ := y
          dsimp only at h hof hval
          split
          next hlist => rw [hlist] at he; simp at he
          next hlist =>
            rw [hlist] at hl he
            obtain rfl := Option.some.inj he
            apply Registers.read ho
            apply hl.append
            apply Registers.read hof
            rcases hval with rfl | rfl
            · have hrest := ih (hb''.trans hof.same) h
              rwa [hb''.2] at hrest
            · cases fuel with
              | zero => simp [scanLoop] at h
              | succ fuel =>
                rw [scanLoop,if_neg (by decide)] at h
                rw [← Option.some.inj h]
                exact Registers.nothing _ _
    next hc =>
      rw [← Option.some.inj h,if_neg hc]
      exact .done v

end

theorem scanDir_registers {levels dir : Nat} (hb : SameDisk b v)
    (h : scanDir fuel k levels dir pre v = some v') :
    Registers v (listDir (fun c => (b.clusterSlots c).map Prod.snd) (fatAt b) fuel levels dir pre)
      v' := by
  induction levels generalizing dir pre v v' with
  | zero =>
    rw [← Option.some.inj h]
    exact .done v
  | succ levels ih =>
    rw [scanDir] at h
    rw [listDir]
    split at h
    · rw [← Option.some.inj h]
      exact Registers.nothing _ _
    split at h
    · rw [← Option.some.inj h]
      exact Registers.nothing _ _
    · exact scanLoop_registers (fun c p v v' hv hs => ih hv hs) hb h

namespace Volume

/-- The geometry that sector 0 gives, if it is one that `fat32_init` takes. -/
def mounted (v : Volume) : Option Volume :=
  let bpb := v.disk 0
  if bpb16 bpb 11 ≠ 512 ∨ get32 bpb 36 = 0 ∨ bpb 13 = 0#8 then none
  else
    let numFats := if bpb 16 = 0#8 then 2 else (bpb 16).toNat
    let root := get32 bpb 44
    some { v with
      sectorsPerCluster := (bpb 13).toNat
      numFats := numFats
      fatSize32 := get32 bpb 36
      rootCluster := if root = 0 then 2 else root
      fatStart := bpb16 bpb 14
      dataStart := u32 (bpb16 bpb 14+numFats*get32 bpb 36) }

/-- The full names of the entries in the directory tree of the image. -/
def imageNames (v : Volume) (fuel : Nat) : List CName :=
  match v.mounted with
  | none => []
  | some g => listDir (fun c => (g.clusterSlots c).map Prod.snd) (fatAt g) fuel (fat32MaxDepth+1)
      g.rootCluster []

end Volume

theorem Kept.same (h : Kept v w) (hd : w.disk = v.disk) : SameDisk v w := by
  constructor
  · funext c
    simp only [Volume.clusterSlots,Volume.slotLocs,Volume.clusterSize,Volume.clusterToLba,h.spc,
      h.dataStart,hd]
  · funext c
    simp only [fatAt,Volume.fatSector,h.fatStart,hd]

theorem fsinfoLoad_kept (v : Volume) (s : Nat) : Kept v (v.fsinfoLoad s) ∧
    (v.fsinfoLoad s).disk = v.disk := by
  have hk : Kept v { v with fsinfoValid := false, fsinfoFreeCount := 0xFFFFFFFF } := by
    constructor <;> rfl
  unfold Volume.fsinfoLoad
  dsimp only
  split_ifs
  · exact ⟨hk,rfl⟩
  · obtain ⟨ho,-⟩ := Volume.readSector_only
      { v with fsinfoValid := false, fsinfoFreeCount := 0xFFFFFFFF } s
    have hr := hk.trans (Volume.readSector_kept _ s)
    split
    next h =>
      rw [h] at ho hr
      exact ⟨hr,ho.disk⟩
    next h =>
      rw [h] at ho hr
      split
      · refine ⟨hr.trans ?_,ho.disk⟩
        constructor <;> rfl
      · exact ⟨hr,ho.disk⟩

/-- A mount registers nodes for entries of the image. -/
theorem fat32Init_registers (h : fat32Init fuel k v = some v') : OnlyIo v v' ∨
    ∃ w u, w.nodes = v.nodes ∧ w.others = v.others ∧ (∀ i, w.files i = none) ∧
      Registers w (v.imageNames fuel) u ∧ v' = { u with fatOk := true } := by
  obtain ⟨ho,hs⟩ := v.readSector_only 0
  unfold fat32Init at h
  split at h
  next hr =>
    rw [hr] at ho
    rw [← Option.some.inj h]
    exact Or.inl ho
  next bpb w hr =>
    rw [hr] at ho hs
    obtain rfl := hs bpb rfl
    dsimp only at h
    split at h
    · rw [← Option.some.inj h]
      exact Or.inl ho
    next h512 =>
      split at h
      · rw [← Option.some.inj h]
        exact Or.inl ho
      next hbad =>
        right
        obtain ⟨u,hu,rfl⟩ := Option.map_eq_some_iff.mp h
        obtain ⟨io,rfl⟩ : ∃ io, w = { v with io := io } := ⟨w.io,ho⟩
        generalize hg : Volume.fsinfoLoad _ _ = g at hu
        obtain ⟨hk,hd⟩ := fsinfoLoad_kept _ _
        rw [hg] at hk hd
        obtain ⟨m,hm,hb,hroot⟩ : ∃ m, v.mounted = some m ∧ SameDisk m g ∧
            m.rootCluster = g.rootCluster := by
          have hm : v.mounted = some _ := if_neg (by rw [not_or]; exact ⟨h512,hbad⟩)
          exact ⟨_,hm,hk.same hd,hk.root.symm⟩
        refine ⟨{ g with files := fun _ => none, active := 0 },u,hk.nodes,hk.others,fun _ => rfl,?_,
          rfl⟩
        rw [Volume.imageNames,hm]
        dsimp only
        rw [hroot]
        exact scanDir_registers (v := { g with files := fun _ => none, active := 0 }) hb hu

end KiNBOL
