import KiNBOL.Kernel.SysMmap
import KiNBOL.Loader.ElfAdds
import KiNBOL.Loader.ElfConfined

namespace KiNBOL

variable {roots roots' : Nat → Prop} {pm : Nat} {k k' k₀ : Kernel} {t : Task} {m m' : Machine}
  {va w : BitVec 64}

theorem Owned.mono (h : Owned roots m) (hs : ∀ r, roots' r → roots r) : Owned roots' m :=
  ⟨⟨⟨h.tables.forest.closed,fun r r' p q n hr hr' =>
      h.tables.forest.unique r r' p q n (hs r hr) (hs r' hr')⟩,
    fun r p i hr => h.tables.mid r p i (hs r hr),
    fun r p i hr => h.tables.leaf r p i (hs r hr)⟩,
    fun n ⟨r,p,hr,hp,hf⟩ => h.held n ⟨r,p,hs r hr,hp,hf⟩,h.limit⟩

/-- For each page in turn: when there is a frame left for it then there are frames for its tables,
and nothing is mapped there. -/
def MapsFit (m : Machine) (pages : List (BitVec 64)) : Prop :=
  ∀ i (h : i < pages.length), mapDemand m.mem m.cr3 (pages.take i) < m.pmm.room →
    mapDemand m.mem m.cr3 (pages.take (i+1)) ≤ m.pmm.room ∧ mappedFrame m m.cr3 pages[i] = none

instance (m : Machine) (pages : List (BitVec 64)) : Decidable (MapsFit m pages) :=
  inferInstanceAs (Decidable (∀ i (_ : i < pages.length), _))

theorem mapZeroedAll_adds (pages : List (BitVec 64)) (hl : ∀ v ∈ pages, LowerHalf v)
    (hapart : pages.Pairwise (fun v w => ¬SameLeaf v w)) (ho : Owned (· = m.cr3) m)
    (hfit : MapsFit m pages) : Adds m.cr3 pages m (mapZeroedAll pages m).2 := by
  induction pages generalizing m with
  | nil => exact Adds.refl ho []
  | cons va rest ih =>
    have hva := hl va (by simp)
    have hrest : ∀ v ∈ rest, LowerHalf v := fun v hv => hl v (by simp [hv])
    obtain ⟨hhead,htail⟩ := List.pairwise_cons.mp hapart
    rw [mapZeroedAll]
    rcases mapZeroed_exact ho rfl hva with ⟨-,hno⟩ | ⟨f,m₂,m₁,ht,hres,hpos,hcase⟩
    · rw [hno]
      exact Adds.refl ho _
    rw [hres,Option.elim_some]
    obtain ⟨hdem0,hnew⟩ := hfit 0 (by simp) (by simpa [mapDemand,missingTables] using hpos)
    rw [List.take_succ_cons,List.take_zero] at hdem0
    rcases hcase with ⟨hlt,-⟩ | ⟨hroom,-,hmade,hmap⟩
    · omega
    have hdem := hmap.demand
    have ha := mapTaken_adds ho hva ht (by decide : has vmmFlagsUserData vmmPresent = true) hnew
    rw [← hmade] at ha
    have hnext := ih hrest htail (ha.cr3 ▸ ha.owned) (fun i hi hlt => ?_)
    · rw [ha.cr3] at hnext
      exact ha.trans hnext
    · rw [ha.cr3] at hlt ⊢
      have hlow : ∀ j, ∀ v ∈ rest.take j, LowerHalf v :=
        fun j v hv => hrest v (List.take_subset j rest hv)
      obtain ⟨h1,h2⟩ := hfit (i+1) (by simpa using hi) (by
        rw [List.take_succ_cons,hdem _ (hlow i)]
        omega)
      rw [List.take_succ_cons,hdem _ (hlow (i+1))] at h1
      refine ⟨by omega,?_⟩
      rw [ha.others _ (hrest _ (List.getElem_mem _)) (fun v hv => ?_)]
      · exact h2
      · rw [List.mem_singleton] at hv
        rw [hv]
        exact hhead _ (List.getElem_mem _)

theorem pagesFrom_apart {start : BitVec 64} {n : Nat} (h : start.toNat+n*4096 ≤ 2^47) :
    (pagesFrom start n).Pairwise (fun v w => ¬SameLeaf v w) := by
  refine List.pairwise_map.mpr (List.pairwise_lt_range.imp_of_mem (fun {i j} hi hj hlt => ?_))
  rw [List.mem_range] at hi hj
  rw [sameLeaf_iff (pagesFrom_lower h (mem_pagesFrom.mpr ⟨i,hi,rfl⟩))
    (pagesFrom_lower h (mem_pagesFrom.mpr ⟨j,hj,rfl⟩)),BitVec.toNat_add,BitVec.toNat_add,
    BitVec.toNat_ofNat,BitVec.toNat_ofNat]
  omega

theorem mmapPages_apart {len : BitVec 64} (h : LowerRange t.userMmapBase (pageUp len)) :
    (mmapPages t len).Pairwise (fun v w => ¬SameLeaf v w) := by
  refine pagesFrom_apart ?_
  simp only [LowerRange] at h
  omega

theorem brkPages_apart (t : Task) {addr : BitVec 64} (ha : addr.toNat ≤ 2^47) :
    (brkPages t addr).Pairwise (fun v w => ¬SameLeaf v w) := by
  have hup := toNat_pageUp (x := addr) (by omega)
  unfold brkPages
  dsimp only
  split_ifs with hlt
  · rw [BitVec.lt_def] at hlt
    refine pagesFrom_apart ?_
    rw [BitVec.toNat_sub]
    omega
  · exact List.Pairwise.nil

/-- `exec_run` after `elf_load`: the stack page and the layout of the new image. -/
def execEnter (k : Kernel) (highest : BitVec 64) (page : Fin 512 → BitVec 64)
    (stackRand mmapRand : BitVec 64) : Option Kernel :=
  match pmmAllocPage k.pmm with
  | (none,_) => none
  | (some phys,p) =>
    let m : Machine := ⟨fun n i => if n = pageOf phys then page i else k.mem n i,p,k.cr3⟩
    let stackVa := execStackVa stackRand
    let k := k.withMach (vmmMap m (vmmCurrent m) stackVa phys vmmFlagsUserData).2
    some (k.updateSelf (fun t => { t with
      userBrk := highest
      userStackGuardVa := stackVa-4096#64
      userMmapBase := userMmapStart+krandPageAlignedBelow mmapRand (1024#64*1024#64*1024#64) }))

theorem execRun_enter (k : Kernel) (path : Nat) (file : Option VfsNode) (page : Fin 512 → BitVec 64)
    (biasRand stackRand mmapRand : BitVec 64) :
    execRun k path file page biasRand stackRand mmapRand =
      match elfLoad k.mach file (vmmCurrent k.mach) biasRand with
      | (.error _,s) => taskExit (freeBuffer (k.withMach s.machine) path)
      | (.ok res,s) =>
        match execEnter (k.withMach s.machine) res.highestVaddr page stackRand mmapRand with
        | none => taskExit (freeBuffer (k.withMach s.machine) path)
        | some k => freeBuffer k path := by
  unfold execRun execEnter
  rcases elfLoad k.mach file (vmmCurrent k.mach) biasRand with ⟨res,s⟩
  cases res with
  | error msg => rfl
  | ok res =>
    dsimp only
    rcases ha : pmmAllocPage (k.withMach s.machine).pmm with ⟨phys,p⟩
    cases phys with
    | none =>
      rw [(pmmAllocPage_none ha).1]
      rfl
    | some phys => rfl

/-- What the kernel does for a user task's memory. -/
inductive UserOp where
  | load (file : Option VfsNode) (rand : BitVec 64)
  | enter (highest : BitVec 64) (page : Fin 512 → BitVec 64) (stackRand mmapRand : BitVec 64)
  | brk (addr : BitVec 64)
  | mmap (len : BitVec 64) (flags : BitVec 32)
  | munmap (addr len : BitVec 64)

def UserOp.run (k : Kernel) (self : Task) : UserOp → Kernel
  | .load file rand => k.withMach (elfLoad k.mach file (vmmCurrent k.mach) rand).2.machine
  | .enter highest page stackRand mmapRand =>
    (execEnter k highest page stackRand mmapRand).getD k
  | .brk addr => (sysBrk k self addr).2
  | .mmap len flags => (sysMmap k self len flags).2
  | .munmap addr len => k.withMach (sysMunmap k.mach addr len).2

/-- Arguments in the canonical lower half. -/
def UserOp.Lower (self : Task) : UserOp → Prop
  | .load file rand => ∀ va ∈ (elfPlan file rand).1, LowerHalf va
  | .enter .. => True
  | .brk addr => addr.toNat ≤ 2^47
  | .mmap len flags => MmapRejects self len flags ∨ LowerRange self.userMmapBase (pageUp len)
  | .munmap addr len => LowerRange addr len

/-- New pages only, and frames for the tables wherever there is one for the page. An image that
does not get its frames gives back what it took. -/
def UserOp.Fits (k : Kernel) (self : Task) : UserOp → Prop
  | .load file rand => FreshPages k.mach k.cr3 (elfPlan file rand).1
  | .enter _ _ stackRand _ => MapsFit k.mach [execStackVa stackRand]
  | .brk addr => userHeapStart ≤ addr → MapsFit k.mach (brkPages self addr)
  | .mmap len flags => ¬MmapRejects self len flags → MapsFit k.mach (mmapPages self len)
  | .munmap .. => True

/-- A call of the current task, of the kind `Ok`. -/
def UserStep (Ok : Kernel → Task → UserOp → Prop) (k k' : Kernel) : Prop :=
  ∃ op t, k.self = some t ∧ UserOp.Lower t op ∧ Ok k t op ∧ k' = op.run k t

/-- Frames that are free or in the task's page tables stay so, whatever calls come after, and no
call puts a new frame where one is mapped. -/
def FramesConserved (Ok : Kernel → Task → UserOp → Prop) (k₀ : Kernel) : Prop :=
  ∀ k₁ k₂ k₃, Relation.ReflTransGen (UserStep Ok) k₀ k₁ →
    Relation.ReflTransGen (UserStep Ok) k₁ k₂ → UserStep Ok k₂ k₃ →
    (∀ f, Accounted k₀.cr3 k₁.mach f → Accounted k₀.cr3 k₃.mach f) ∧
    ∀ va x y, LowerHalf va → translate k₂.mem k₀.cr3 va = some x →
      translate k₃.mem k₀.cr3 va = some y → y.page = x.page

/-- What one call does. -/
structure StepKeeps (k k' : Kernel) : Prop where
  owned : Owned (· = k.cr3) k'.mach
  cr3 : k'.cr3 = k.cr3
  accounted : ∀ f, Accounted k.cr3 k.mach f → Accounted k.cr3 k'.mach f
  replaced : ∀ va f g, LowerHalf va → mappedFrame k.mach k.cr3 va = some f →
    mappedFrame k'.mach k.cr3 va = some g → g = f

theorem Adds.keeps {l : List (BitVec 64)} (h : Adds k.cr3 l k.mach m') (hk : k'.mach = m') :
    StepKeeps k k' := by
  subst hk
  refine ⟨h.owned,h.cr3,fun f hf => h.accounted hf,fun va f g hva hf hg => ?_⟩
  rw [h.mapped hva hf,Option.some.injEq] at hg
  exact hg.symm

theorem StepKeeps.refl (ho : Owned (· = k.cr3) k.mach) : StepKeeps k k :=
  ⟨ho,rfl,fun _ hf => hf,fun _ f g _ hf hg => by
    rw [hf,Option.some.injEq] at hg
    exact hg.symm⟩

theorem execEnter_keeps (ho : Owned (· = k.cr3) k.mach) {highest : BitVec 64}
    {page : Fin 512 → BitVec 64} {stackRand mmapRand : BitVec 64}
    (hfit : MapsFit k.mach [execStackVa stackRand])
    (h : execEnter k highest page stackRand mmapRand = some k') : StepKeeps k k' := by
  have hva := execStackVa_lower stackRand
  unfold execEnter at h
  rcases pmmAllocPage_room k.pmm with ⟨-,ha⟩ | ⟨f,p,ha,htakes,hroom⟩
  · rw [ha] at h
    simp at h
  rw [ha] at h
  simp only [Option.some.injEq] at h
  have hfree : k.mach.pmm.Free f := (takes_one htakes).1
  rw [ho.free_page hfree] at h
  have ht : Taken k.mach ⟨fun n i => if n = f then page i else k.mem n i,p,k.cr3⟩ f :=
    ⟨htakes,fun n hn => funext (fun i => if_neg hn),rfl⟩
  obtain ⟨hdem,hnew⟩ := hfit 0 (by simp) (by
    show 0+_ < k.pmm.room
    simp [missingTables]
    omega)
  rw [List.take_succ_cons,List.take_zero] at hdem
  obtain ⟨m',⟨hlt,-⟩ | ⟨-,hok,hmade,-⟩⟩ := ht.map_exact hroom ho rfl hva
  · omega
  have hadds := mapTaken_adds ho hva ht (by decide : has vmmFlagsUserData vmmPresent = true) hnew
  have hres : (vmmMap ⟨fun n i => if n = f then page i else k.mem n i,p,k.cr3⟩
      (vmmCurrent ⟨fun n i => if n = f then page i else k.mem n i,p,k.cr3⟩) (execStackVa stackRand)
      (pageAddr f) vmmFlagsUserData).2 = m' := congrArg Prod.snd hok
  rw [hres,hmade] at h
  refine hadds.keeps ?_
  rw [← h]
  rfl

theorem UserOp.keeps (ho : Owned (· = k.cr3) k.mach) (op : UserOp) (hl : op.Lower t)
    (hfit : op.Fits k t) : StepKeeps k (op.run k t) := by
  cases op with
  | load file rand => exact (elfLoad_adds file rand ho hfit).keeps rfl
  | enter highest page stackRand mmapRand =>
    show StepKeeps k ((execEnter k highest page stackRand mmapRand).getD k)
    cases h : execEnter k highest page stackRand mmapRand with
    | none => exact StepKeeps.refl ho
    | some k' => exact execEnter_keeps ho hfit h
  | brk addr =>
    show StepKeeps k (sysBrk k t addr).2
    have htop : addr.toNat ≤ 2^47 := hl
    unfold sysBrk
    split_ifs with h1 h2
    · exact StepKeeps.refl ho
    · exact StepKeeps.refl ho
    · have hlow : ∀ v ∈ brkPages t addr, LowerHalf v := fun v hv => brkPages_lower t htop hv
      have hadds := mapZeroedAll_adds (brkPages t addr) hlow (brkPages_apart t htop) ho
        (hfit (BitVec.not_lt.mp h2))
      exact hadds.keeps rfl
  | mmap len flags =>
    show StepKeeps k (sysMmap k t len flags).2
    by_cases hrej : MmapRejects t len flags
    · rw [(sysMmap_rejects (k := k) hrej).2]
      exact StepKeeps.refl ho
    · have hrange := hl.resolve_left hrej
      have hlow : ∀ v ∈ mmapPages t len, LowerHalf v := fun v hv => mmapPages_lower t hrange hv
      have hadds := mapZeroedAll_adds (mmapPages t len) hlow (mmapPages_apart hrange) ho (hfit hrej)
      rw [sysMmap_maps (k := k) hrej]
      split_ifs
      · exact hadds.keeps rfl
      · exact hadds.keeps rfl
  | munmap addr len =>
    show StepKeeps k (k.withMach (sysMunmap k.mach addr len).2)
    unfold sysMunmap
    split_ifs
    · exact StepKeeps.refl ho
    · have hu := vmmUnmapRange_unmaps ho rfl hl true
      refine ⟨hu.owned,hu.cr3,fun f hf => hu.accounted ho hf,fun va f g hva hf hg => ?_⟩
      have hold := hu.trimmed.mapped hva hg
      rw [mappedFrame] at hf
      exact Option.some.inj (hold.symm.trans hf)

/-- One call of the kind. -/
theorem UserStep.keeps (ho : Owned (· = k.cr3) k.mach)
    (h : UserStep (fun k t op => op.Fits k t) k k') : StepKeeps k k' := by
  obtain ⟨op,t,-,hl,hfit,rfl⟩ := h
  exact op.keeps ho hl hfit

/-- A run of such calls. -/
theorem UserStep.run_keeps (ho : Owned (· = k.cr3) k.mach)
    (h : Relation.ReflTransGen (UserStep (fun k t op => op.Fits k t)) k k') :
    Owned (· = k'.cr3) k'.mach ∧ k'.cr3 = k.cr3 ∧
    ∀ f, Accounted k.cr3 k.mach f → Accounted k.cr3 k'.mach f := by
  induction h with
  | refl => exact ⟨ho,rfl,fun _ hf => hf⟩
  | @tail a b _ hs ih =>
    obtain ⟨ho1,hc1,hf1⟩ := ih
    have hk := UserStep.keeps ho1 hs
    refine ⟨?_,hk.cr3.trans hc1,fun f hf => ?_⟩
    · rw [hk.cr3]
      exact hk.owned
    · have hnext := hk.accounted f (hc1 ▸ hf1 f hf)
      rwa [hc1] at hnext

/-- In every run of calls that only map new pages and find frames for the tables with those for the
pages, no frame is lost and no mapping replaced. -/
theorem frames_conserved (ho : Owned (· = k₀.cr3) k₀.mach) :
    FramesConserved (fun k t op => op.Fits k t) k₀ := by
  intro k₁ k₂ k₃ h1 h2 h3
  obtain ⟨ho1,hc1,-⟩ := UserStep.run_keeps ho h1
  obtain ⟨ho2,hc2,hf2⟩ := UserStep.run_keeps ho1 h2
  have hk := UserStep.keeps ho2 h3
  have hcr : k₂.cr3 = k₀.cr3 := hc2.trans hc1
  refine ⟨fun f hf => ?_,fun va x y hva hx hy => ?_⟩
  · have hmid := hf2 f (by rwa [hc1])
    have hnext := hk.accounted f (by rwa [hc2])
    rwa [hcr] at hnext
  · rw [← hcr] at hx hy
    have ho3 := hk.owned
    have hleaf := mapped_leaf ho2.tables rfl hva hx
    have hleaf' := mapped_leaf ho3.tables rfl hva hy
    rw [follow_leaf] at hleaf hleaf'
    exact hk.replaced va _ _ hva hleaf hleaf'

theorem frames_conserved_sample : FramesConserved (fun k t op => op.Fits k t) sampleRunning :=
  frames_conserved (sampleRunning_owned.1.mono (fun _ hr => hr ▸ sampleRunning_owned.2))

theorem UserStep.of {Ok : Kernel → Task → UserOp → Prop} {op : UserOp} (hs : k.self = some t)
    (hl : op.Lower t) (hok : Ok k t op) : UserStep Ok k (op.run k t) := ⟨op,t,hs,hl,hok,rfl⟩

/-- The running task loads an image and moves its break up by a page, down and up again. -/
def sampleLoaded : Kernel :=
  UserOp.run sampleRunning sampleSelf (.load (some (onePageElf 0x400000)) 0#64)

def sampleLoadedSelf : Task := sampleLoaded.self.get (by decide)

def sampleUp : Kernel := UserOp.run sampleLoaded sampleLoadedSelf (.brk 0x80001000#64)

def sampleUpSelf : Task := sampleUp.self.get (by decide)

def sampleDown : Kernel := UserOp.run sampleUp sampleUpSelf (.brk 0x80000000#64)

def sampleDownSelf : Task := sampleDown.self.get (by decide)

def sampleAgain : Kernel := UserOp.run sampleDown sampleDownSelf (.brk 0x80001000#64)

theorem sampleDown_steps :
    Relation.ReflTransGen (UserStep (fun _ _ _ => True)) sampleRunning sampleDown := by
  have hload : UserOp.Lower sampleSelf (.load (some (onePageElf 0x400000)) 0#64) := by
    have hplan : elfPlan (some (onePageElf 0x400000)) 0#64 = ([0x400000#64],true) := by
      decide
    intro va hva
    rw [hplan,List.mem_singleton] at hva
    rw [hva]
    decide
  have h1 : UserStep (fun _ _ _ => True) sampleRunning sampleLoaded :=
    UserStep.of (Option.some_get _).symm hload trivial
  have h2 : UserStep (fun _ _ _ => True) sampleLoaded sampleUp :=
    UserStep.of (Option.some_get _).symm (by decide : (0x80001000#64).toNat ≤ 2^47) trivial
  have h3 : UserStep (fun _ _ _ => True) sampleUp sampleDown :=
    UserStep.of (Option.some_get _).symm (by decide : (0x80000000#64).toNat ≤ 2^47) trivial
  exact ((Relation.ReflTransGen.refl.tail h1).tail h2).tail h3

/-- The page is mapped a second time: its first frame is in no page table any more. -/
theorem brk_replaces : ¬FramesConserved (fun _ _ _ => True) sampleRunning := by
  intro hc
  have h4 : UserStep (fun _ _ _ => True) sampleDown sampleAgain :=
    UserStep.of (Option.some_get _).symm (by decide : (0x80001000#64).toNat ≤ 2^47) trivial
  have hx : translate sampleDown.mem sampleRunning.cr3 0x80000000#64 =
      some ⟨281,true,true,true⟩ := by decide
  have hy : translate sampleAgain.mem sampleRunning.cr3 0x80000000#64 =
      some ⟨284,true,true,true⟩ := by decide
  have hsame := (hc sampleDown sampleDown sampleAgain sampleDown_steps .refl h4).2 0x80000000#64
    _ _ (by decide) hx hy
  exact absurd hsame (by decide)

end KiNBOL
