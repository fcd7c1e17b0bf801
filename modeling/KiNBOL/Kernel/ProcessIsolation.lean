import KiNBOL.Kernel.Boot
import KiNBOL.Mm.Marks

namespace KiNBOL

variable {K : Nat → Prop} {W : BitVec 64 → Option Xlat} {kpm r n : Nat} {roots : Nat → Prop}
  {rs stk : List PageRun} {live : List Nat} {k : Kernel} {m m' : Machine} {mem : PhysMem} {t : Task}
  {va : BitVec 64}

/-- Another pagemap is loaded. -/
theorem Holds.load (hk : Holds K W kpm roots stk live k) (hr : roots r ∨ r = kpm) :
    Holds K W kpm roots stk live { k with cr3 := r } :=
  ⟨⟨⟨hk.apart.owned.tables,hk.apart.owned.held,hk.apart.owned.limit⟩,hk.apart.owes,hk.apart.plain,
    hk.apart.kernel,hk.apart.half,hk.apart.same,hk.apart.own,hr⟩,hk.heap⟩

theorem TaskOk.setState (hok : TaskOk kpm t) {st : TaskState} (h : st = .dead → t.Stacked) :
    TaskOk kpm { t with state := st } := ⟨hok.pagemap,hok.kernel,hok.user,h⟩

theorem KernelOk.switchTo (hk : KernelOk K W kpm k) (ht : t ∈ k.tasks) :
    KernelOk K W kpm (switchTo k t) := by
  let f := fun t : Task => if t.state = .running then { t with state := .ready } else t
  have h1 : KernelOk K W kpm (k.updateSelf f) := by
    refine hk.updateSelf (fun s hs _ => ?_)
    simp only [f]
    split_ifs
    · exact ⟨⟨rfl,rfl,rfl,rfl,rfl,rfl⟩,(hk.tasks s hs).setState (fun hd => TaskState.noConfusion hd)⟩
    · exact ⟨Task.Same.refl s,hk.tasks s hs⟩
  obtain ⟨t',ht',hta,htc⟩ : ∃ t' ∈ (k.updateSelf f).tasks, t'.addr = t.addr ∧ t'.cr3 = t.cr3 := by
    refine ⟨_,List.mem_map_of_mem ht,?_⟩
    simp only [f]
    split_ifs <;> exact ⟨rfl,rfl⟩
  have hroot : UserRoots (k.updateSelf f).tasks t.cr3 ∨ t.cr3 = kpm := by
    cases ho : t'.ownsPagemap with
    | true => exact Or.inl ⟨t',ht',ho,htc⟩
    | false => exact Or.inr (htc ▸ (h1.tasks t' ht').kernel ho)
  have h2 : KernelOk K W kpm { k.updateSelf f with current := some t.addr, cr3 := t.cr3 } := by
    have hh := h1.holds.load hroot
    refine ⟨⟨hh.apart,hh.heap⟩,h1.tasks,h1.distinct,fun a ha => ?_,fun hn => ?_⟩
    · obtain rfl := Option.some.inj ha
      exact ⟨t',ht',hta,htc.symm⟩
    · simp at hn
  exact h2.updateSelf (fun s hs _ =>
    ⟨⟨rfl,rfl,rfl,rfl,rfl,rfl⟩,(h2.tasks s hs).setState (fun hd => TaskState.noConfusion hd)⟩)

/-- `task_exit` of a task with a stack to give back. -/
theorem KernelOk.taskExit (hk : KernelOk K W kpm k) (h : k.self = some t) (hst : t.Stacked) :
    KernelOk K W kpm (taskExit k) := by
  obtain ⟨hmem,hcur,-⟩ := hk.self h
  refine hk.updateSelf (fun s hs hsc => ?_)
  obtain rfl : s = t := hk.addr_inj hs hmem (Option.some.inj (hsc.trans hcur))
  exact ⟨⟨rfl,rfl,rfl,rfl,rfl,rfl⟩,(hk.tasks s hs).setState (fun _ => hst)⟩

theorem KernelOk.sleepMs (hk : KernelOk K W kpm k) : KernelOk K W kpm (sleepMs k) :=
  hk.updateSelf (fun s hs _ =>
    ⟨⟨rfl,rfl,rfl,rfl,rfl,rfl⟩,(hk.tasks s hs).setState (fun hd => TaskState.noConfusion hd)⟩)

theorem KernelOk.wake (hk : KernelOk K W kpm k) (woken : Nat → Bool) :
    KernelOk K W kpm (schedUpdateBlockedTasks k woken) := by
  refine hk.retask (fun t ht => ?_)
  split_ifs
  · exact ⟨⟨rfl,rfl,rfl,rfl,rfl,rfl⟩,(hk.tasks t ht).setState (fun hd => TaskState.noConfusion hd)⟩
  · exact ⟨Task.Same.refl t,hk.tasks t ht⟩

/-- A call that works on the lower half and then on fields of no interest here. -/
theorem KernelOk.touchSelf (hk : KernelOk K W kpm k) (ht : Touches (UserRoots k.tasks) k.mach m')
    {f : Task → Task} (hf : ∀ s, (f s).Same s) (hok : ∀ s, TaskOk kpm s → TaskOk kpm (f s)) :
    KernelOk K W kpm ((k.withMach m').updateSelf f) :=
  (hk.touch ht).updateSelf (fun s hs _ => ⟨hf s,hok s (hk.tasks s hs)⟩)

theorem KernelOk.sysBrk (hk : KernelOk K W kpm k) (hr : UserRoots k.tasks k.cr3) {addr : BitVec 64}
    (ha : addr.toNat ≤ 2^47) : KernelOk K W kpm (sysBrk k t addr).2 := by
  have ht := mapZeroedAll_touches (brkPages t addr) (fun va hva => brkPages_lower t ha hva)
    hk.holds.apart.owned hr
  unfold KiNBOL.sysBrk
  split_ifs
  · exact hk
  · exact hk
  · exact hk.touchSelf ht (fun _ => ⟨rfl,rfl,rfl,rfl,rfl,rfl⟩)
      (fun s hs => ⟨hs.pagemap,hs.kernel,hs.user,hs.dead⟩)

theorem KernelOk.sysMmap (hk : KernelOk K W kpm k) (hr : UserRoots k.tasks k.cr3) {len : BitVec 64}
    {flags : BitVec 32} (hl : LowerRange t.userMmapBase (pageUp len)) :
    KernelOk K W kpm (sysMmap k t len flags).2 := by
  have ht := mapZeroedAll_touches (mmapPages t len) (fun va hva => mmapPages_lower t hl hva)
    hk.holds.apart.owned hr
  unfold KiNBOL.sysMmap
  by_cases h1 : flags &&& 0x22#32 ≠ 0x22#32
  · rw [if_pos h1]
    exact hk
  by_cases h2 : len = 0#64
  · rw [if_neg h1,if_pos h2]
    exact hk
  by_cases h3 : userStackTop ≤ t.userMmapBase+pageUp len
  · rw [if_neg h1,if_neg h2,if_pos h3]
    exact hk
  rw [if_neg h1,if_neg h2,if_neg h3]
  dsimp only
  split_ifs
  · exact hk.touchSelf ht (fun _ => ⟨rfl,rfl,rfl,rfl,rfl,rfl⟩)
      (fun s hs => ⟨hs.pagemap,hs.kernel,hs.user,hs.dead⟩)
  · exact hk.touch ht

theorem KernelOk.allocBuffer (hk : KernelOk K W kpm k) {size : Nat} (hsize : size < 2^32) :
    KernelOk K W kpm (allocBuffer k size) := by
  have h1 := hk.holds.kmalloc hsize
  unfold KiNBOL.allocBuffer
  rcases hm : k.kmalloc size with ⟨x,k₁⟩
  have hk₁ : k₁.tasks = k.tasks ∧ k₁.current = k.current ∧ k₁.buffers = k.buffers ∧
      k₁.cr3 = k.cr3 ∧ k₁.pages = k.pages := by
    have := congrArg Prod.snd hm
    subst this
    exact ⟨rfl,rfl,rfl,rfl,rfl⟩
  obtain ⟨e1,e2,e3,e4,e5⟩ := hk₁
  rw [hm] at h1
  cases x with
  | none =>
    obtain ⟨-,h1⟩ := h1.resolve_right (by simp)
    exact ⟨by simp only [e1,e3,e5]; exact h1,e1 ▸ hk.tasks,e1 ▸ hk.distinct,
      fun a ha => by rw [e1,e4]; exact hk.running a (e2 ▸ ha),fun hn => e4.trans (hk.idle (e2 ▸ hn))⟩
  | some p =>
    obtain ⟨q,hq,h1⟩ := h1.resolve_left (by simp)
    obtain rfl := Option.some.inj hq
    refine ⟨?_,fun s hs => hk.tasks s (e1 ▸ hs),e1 ▸ hk.distinct,fun a ha => ?_,
      fun hn => e4.trans (hk.idle (e2 ▸ hn))⟩
    · have h2 := h1.perm (@List.perm_middle _ p (k.tasks.flatMap Task.ptrs) _).symm
      rw [← e1,← e3,← e5] at h2
      exact ⟨h2.apart,h2.heap⟩
    · obtain ⟨s,hs,hsa,hsc⟩ := hk.running a (e2 ▸ ha)
      exact ⟨s,e1 ▸ hs,hsa,e4.trans hsc⟩

theorem KernelOk.freeBuffer (hk : KernelOk K W kpm k) {p : Nat} (hp : p ∈ k.buffers) :
    KernelOk K W kpm (freeBuffer k p) := by
  have hnot : p ∉ k.tasks.flatMap Task.ptrs := fun hin =>
    (List.nodup_append.mp hk.holds.nodup).2.2 p hin p hp rfl
  have h1 := hk.holds.kfree (List.mem_append_right (k.tasks.flatMap Task.ptrs) hp)
  rw [List.erase_append_right _ hnot] at h1
  exact ⟨⟨h1.apart,h1.heap⟩,hk.tasks,hk.distinct,hk.running,hk.idle⟩

theorem KernelOk.takePages (hk : KernelOk K W kpm k) {n : Nat} (hn : 0 < n) :
    KernelOk K W kpm (takePages k n) := by
  unfold KiNBOL.takePages
  rcases hres : pmmPool.alloc k.pmm n with ⟨x,p⟩
  cases x with
  | none =>
    obtain rfl := pmmPool_refused hres
    exact hk
  | some a =>
    have h1 := (hk.holds.takeRun hn hres).perm_stacks List.perm_middle.symm
    exact ⟨⟨h1.apart,h1.heap⟩,hk.tasks,hk.distinct,hk.running,hk.idle⟩

theorem KernelOk.givePages (hk : KernelOk K W kpm k) {r : PageRun} (hr : r ∈ k.pages) :
    KernelOk K W kpm (givePages k r) := by
  have hperm : (k.tasks.flatMap Task.stacks++k.pages).Perm
      (r::(k.tasks.flatMap Task.stacks++k.pages.erase r)) :=
    ((List.perm_cons_erase hr).append_left _).trans List.perm_middle
  have h1 := (hk.holds.perm_stacks hperm).freeRun List.mem_cons_self
  rw [List.erase_cons_head] at h1
  exact ⟨⟨h1.apart,h1.heap⟩,hk.tasks,hk.distinct,hk.running,hk.idle⟩

theorem KernelOk.elfLoad (hk : KernelOk K W kpm k) (hr : UserRoots k.tasks k.cr3)
    {file : Option VfsNode} {rand : BitVec 64} (hl : ∀ va ∈ (elfPlan file rand).1, LowerHalf va) :
    KernelOk K W kpm (k.withMach (KiNBOL.elfLoad k.mach file (some k.cr3) rand).2.machine) :=
  hk.touch (elfLoad_touches hk.holds.apart.owned hr file rand hl)

/-- `exec_run` of an image in the lower half. -/
theorem KernelOk.execRun (hk : KernelOk K W kpm k) (h : k.self = some t)
    (ho : t.ownsPagemap = true) {path : Nat} (hpath : path ∈ k.buffers) {file : Option VfsNode}
    (page : Fin 512 → BitVec 64) {biasRand : BitVec 64} (stackRand mmapRand : BitVec 64)
    (hl : ∀ va ∈ (elfPlan file biasRand).1, LowerHalf va) :
    KernelOk K W kpm (execRun k path file page biasRand stackRand mmapRand) := by
  have hr := hk.self_root h ho
  have hst := (hk.tasks t (hk.self h).1).user ho
  have h1 := hk.elfLoad hr hl
  have hcr3 : (KiNBOL.elfLoad k.mach file (some k.cr3) biasRand).2.machine.cr3 = k.cr3 :=
    (elfLoad_touches hk.holds.apart.owned hr file biasRand hl).cr3
  unfold KiNBOL.execRun
  change KernelOk K W kpm (k.withMach (KiNBOL.elfLoad k.mach file (vmmCurrent k.mach) biasRand).2.machine)
    at h1
  change (KiNBOL.elfLoad k.mach file (vmmCurrent k.mach) biasRand).2.machine.cr3 = k.cr3 at hcr3
  generalize KiNBOL.elfLoad k.mach file (vmmCurrent k.mach) biasRand = x at h1 hcr3 ⊢
  obtain ⟨msg | res,s⟩ := x
  · exact (h1.freeBuffer hpath).taskExit h hst
  · dsimp only at h1 hcr3 ⊢
    generalize hk' : k.withMach s.machine = k' at h1 ⊢
    have hfields : k'.tasks = k.tasks ∧ k'.buffers = k.buffers ∧ k'.self = k.self ∧
        k'.cr3 = k.cr3 := by
      subst hk'
      exact ⟨rfl,rfl,rfl,hcr3⟩
    obtain ⟨e1,e2,e3,e4⟩ := hfields
    cases ha : pmmAllocPage k'.pmm with
    | mk x p =>
    cases x with
    | none =>
      have hp : k'.withPmm p = k' := by
        rw [(pmmAllocPage_none ha).1]
        rfl
      dsimp only
      rw [hp]
      have h2 : (KiNBOL.freeBuffer k' path).self = some t := e3.trans h
      exact (h1.freeBuffer (e2 ▸ hpath)).taskExit h2 hst
    | some phys =>
      have hmem : ∀ n, n ≠ pageOf phys →
          (fun n i => if n = pageOf phys then page i else k'.mem n i) n = k'.mem n :=
        fun n hn => funext (fun i => if_neg hn)
      have hroot : UserRoots k'.tasks k'.mach.cr3 := by
        show UserRoots k'.tasks k'.cr3
        rw [e1,e4]
        exact hr
      obtain ⟨ho',he⟩ := mapFilled_evolves h1.holds.apart.owned hroot
        (execStackVa_lower stackRand) ha hmem vmmFlagsUserData
      have h2 := h1.touchSelf (he.touches h1.holds.apart.owned hroot ho') (f := fun t => { t with
        userBrk := res.highestVaddr
        userStackGuardVa := execStackVa stackRand-4096#64
        userMmapBase := userMmapStart+krandPageAlignedBelow mmapRand (1024#64*1024#64*1024#64) })
        (fun _ => ⟨rfl,rfl,rfl,rfl,rfl,rfl⟩) (fun s hs => ⟨hs.pagemap,hs.kernel,hs.user,hs.dead⟩)
      have h3 := h2.freeBuffer (p := path) (e2 ▸ hpath)
      exact h3

/-- A lower-half address translates to a node of the tree four levels down. -/
theorem mapped_leaf (ho : UserTables roots mem) (hr : roots r) (hva : LowerHalf va) {x : Xlat}
    (hx : translate mem r va = some x) :
    follow entryNode mem r (tablePath va++[ptIdx va]) = some x.page := by
  rw [translate,if_pos (Or.inl hva),ho.hwWalk_lower hr hva,leafXlat] at hx
  split_ifs at hx with hp
  obtain rfl := Option.some.inj hx
  rw [follow_leaf,entryNode_present hp]

theorem mapped_node (ho : UserTables roots mem) (hr : roots r) (hva : LowerHalf va) {x : Xlat}
    (hx : translate mem r va = some x) : UserNode roots mem x.page ∧ ¬IsTable roots mem x.page := by
  have hl := mapped_leaf ho hr hva hx
  refine ⟨⟨r,_,hr,lowerPath_va hva,hl⟩,fun ht => ?_⟩
  obtain ⟨s,p,hs,hp,hlen,hf⟩ := ht
  have he := (ho.forest.unique s r p _ _ hs hr hp (lowerPath_va hva) hf hl).2
  rw [he] at hlen
  simp [tablePath] at hlen

/-- The tables that a lower-half walk reads are tables of the tree. -/
theorem hwTables_lower (ho : UserTables roots mem) (hr : roots r) (hva : LowerHalf va)
    (hn : n ∈ hwTables mem r va) : IsTable roots mem n := by
  have hfull := lowerPath_va hva
  have h1 : LowerPath ([]++[pml4Idx va]) := hfull.left (q := [pdptIdx va,pdIdx va,ptIdx va])
  have h2 : LowerPath ([pml4Idx va]++[pdptIdx va]) := hfull.left (q := [pdIdx va,ptIdx va])
  have h3 : LowerPath ([pml4Idx va,pdptIdx va]++[pdIdx va]) := hfull.left (q := [ptIdx va])
  unfold hwTables at hn
  dsimp only at hn
  rcases ho.step hr h1 (by simp) rfl with ⟨f1,he1,hn1⟩ | ⟨habs,-⟩
  · have t1 : IsTable roots mem f1 := ⟨r,_,hr,h1,by simp,hn1⟩
    rw [he1.isPresent,he1.framePage] at hn
    rcases ho.step hr h2 (by simp) hn1 with ⟨f2,he2,hn2⟩ | ⟨habs,-⟩
    · have t2 : IsTable roots mem f2 := ⟨r,_,hr,h2,by simp,hn2⟩
      rw [he2.isPresent,he2.framePage,he2.huge] at hn
      rcases ho.step hr h3 (by simp) hn2 with ⟨f3,he3,hn3⟩ | ⟨habs,-⟩
      · have t3 : IsTable roots mem f3 := ⟨r,_,hr,h3,by simp,hn3⟩
        rw [he3.isPresent,he3.framePage,he3.huge] at hn
        simp only [Bool.not_true,Bool.or_self,Bool.false_eq_true,if_false,List.mem_cons,
          List.not_mem_nil,or_false] at hn
        rcases hn with rfl | rfl | rfl
        · exact t1
        · exact t2
        · exact t3
      · simp only [habs,Bool.not_true,Bool.not_false,Bool.or_self,Bool.true_or,Bool.false_eq_true,
          if_false,if_true,List.mem_cons,List.not_mem_nil,or_false] at hn
        rcases hn with rfl | rfl
        · exact t1
        · exact t2
    · simp only [habs,Bool.not_true,Bool.not_false,Bool.true_or,Bool.false_eq_true,if_false,if_true,
        List.mem_cons,List.not_mem_nil,or_false] at hn
      exact hn ▸ t1
  · simp [habs] at hn

/-- Pages whose contents are data: kernel stacks, pages of drivers, heap pages and what user tasks
have mapped. -/
def DataPage (k : Kernel) (n : Nat) : Prop :=
  (∃ r ∈ k.tasks.flatMap Task.stacks++k.pages++k.heap.pmm.runs, RunPage r n) ∨
  ∃ r va x, UserRoots k.tasks r ∧ LowerHalf va ∧ translate k.mem r va = some x ∧ x.page = n

theorem KernelOk.data (hk : KernelOk K W kpm k) {mem' : PhysMem}
    (hw : ∀ n, mem' n ≠ k.mem n → DataPage k n) : KernelOk K W kpm { k with mem := mem' } := by
  have hplain : ∀ n, mem' n ≠ k.mem n → ¬K n ∧ ¬IsTable (UserRoots k.tasks) k.mem n := by
    intro n hne
    rcases hw n hne with ⟨r,hr,hrn⟩ | ⟨r,va,x,hr,hva,hx,rfl⟩
    · obtain ⟨h1,h2⟩ := hk.holds.apart.plain r hr n hrn
      exact ⟨h2,fun ht => h1 ht.node⟩
    · obtain ⟨h1,h2⟩ := mapped_node hk.holds.apart.owned.tables hr hva hx
      exact ⟨fun hkn => (hk.holds.apart.kernel _ hkn).1 h1,h2⟩
  have hh := hk.holds.data hplain
  exact ⟨⟨hh.apart,hh.heap⟩,hk.tasks,hk.distinct,hk.running,hk.idle⟩

/-- A mark in any table changes nothing for the tables. -/
theorem Separate.mark (hs : Separate K W kpm roots rs m) (n : Nat) (i : Fin 512) (dirty : Bool) :
    Separate K W kpm roots rs { m with mem := markSlot m.mem n i dirty } := by
  have hnode : ∀ x, UserNode roots (markSlot m.mem n i dirty) x → UserNode roots m.mem x :=
    fun x => (userNode_markSlot n i dirty x).mp
  have hwalk := hwWalk_same (markSlot_same m.mem n i dirty)
  refine ⟨hs.owned.mark n i dirty,hs.owes,fun r hr x hx => ?_,fun x hx => ?_,fun r va hw x hx => ?_,
    fun r va hw => (hwalk r va).1.trans (hs.same r va hw),hs.own,hs.cr3⟩
  · exact ⟨fun h => (hs.plain r hr x hx).1 (hnode x h),(hs.plain r hr x hx).2⟩
  · exact ⟨fun h => (hs.kernel x hx).1 (hnode x h),(hs.kernel x hx).2⟩
  · rw [(hwalk r va).2] at hx
    exact hs.half r va hw x hx

theorem KernelOk.mark (hk : KernelOk K W kpm k) (n : Nat) (i : Fin 512) (dirty : Bool) :
    KernelOk K W kpm { k with mem := markSlot k.mem n i dirty } :=
  ⟨⟨hk.holds.apart.mark n i dirty,hk.holds.heap⟩,hk.tasks,hk.distinct,hk.running,hk.idle⟩

theorem planPages_mem (node : VfsNode) (pageStart segOff : BitVec 64) {w : BitVec 64} {n : Nat}
    {va fileOff fileLeft : BitVec 64}
    (hw : w ∈ (planPages node pageStart segOff n va fileOff fileLeft).1) : w ∈ pagesFrom va n := by
  induction n generalizing va fileOff fileLeft with
  | zero => simp [planPages] at hw
  | succ n ih =>
    rw [planPages] at hw
    dsimp only at hw
    split_ifs at hw with hshort
    · simp at hw
    · rcases List.mem_cons.mp hw with rfl | hw
      · exact mem_pagesFrom.mpr ⟨0,by omega,by simp⟩
      · obtain ⟨i,hi,rfl⟩ := mem_pagesFrom.mp (ih hw)
        refine mem_pagesFrom.mpr ⟨i+1,by omega,BitVec.eq_of_toNat_eq ?_⟩
        simp only [BitVec.toNat_add,BitVec.toNat_ofNat]
        omega

/-- The segments that an image loads end in the lower half. -/
def SegmentsLower (node : VfsNode) (rand : BitVec 64) : Prop :=
  ∀ eh phdrs, elfHeaders node = .ok (eh,phdrs) → ∀ ph ∈ phdrs, ph.type = 1 →
    (loadBias eh rand+ph.vaddr).toNat+ph.memsz.toNat ≤ 2^47

/-- Such an image asks for lower-half pages only. -/
theorem elfPlan_lower {node : VfsNode} {rand : BitVec 64} (h : SegmentsLower node rand) :
    ∀ w ∈ (elfPlan (some node) rand).1, LowerHalf w := by
  have hseg : ∀ (ph : Elf64Phdr) (bias : BitVec 64), (bias+ph.vaddr).toNat+ph.memsz.toNat ≤ 2^47 →
      ∀ w ∈ (planSegment node ph bias).1, LowerHalf w := by
    intro ph bias hle w hw
    unfold planSegment at hw
    split_ifs at hw
    · simp at hw
    · simp at hw
    · have hend : (bias+ph.vaddr+ph.memsz).toNat = (bias+ph.vaddr).toNat+ph.memsz.toNat := by
        rw [BitVec.toNat_add]
        omega
      have hup := toNat_pageUp (x := bias+ph.vaddr+ph.memsz) (by omega)
      have hstart : (segmentStart ph bias).toNat = (bias+ph.vaddr).toNat/4096*4096 := by
        rw [segmentStart,toNat_pageMask]
      refine pagesFrom_lower ?_ (planPages_mem node _ _ hw)
      unfold segmentPages
      change (segmentStart ph bias).toNat+
        (if segmentStart ph bias < pageUp (bias+ph.vaddr+ph.memsz) then
          (pageUp (bias+ph.vaddr+ph.memsz)-segmentStart ph bias).toNat/4096 else 0)*4096 ≤ 2^47
      split_ifs with hlt
      · rw [BitVec.lt_def] at hlt
        rw [BitVec.toNat_sub]
        omega
      · omega
  intro w hw
  unfold elfPlan at hw
  cases hh : elfHeaders node with
  | error msg => simp [hh] at hw
  | ok x =>
    obtain ⟨eh,phdrs⟩ := x
    simp only [hh] at hw
    have hall := h eh phdrs hh
    clear hh
    induction phdrs with
    | nil => simp [planSegments] at hw
    | cons ph rest ih =>
      have hrest := fun hw => ih hw (fun p hp => hall p (List.mem_cons_of_mem _ hp))
      rw [planSegments] at hw
      dsimp only at hw
      split_ifs at hw with h1 h2 h3
      · rcases List.mem_append.mp hw with hw | hw
        · exact hseg ph _ (hall ph (by simp) h1) w hw
        · exact hrest hw
      · exact hseg ph _ (hall ph (by simp) h1) w hw
      · simp at hw
      · exact hrest hw

/-- What happens in the kernel: tasks that are created, sleep, exit and are reaped, loading of images
and system calls in the running user task, the scheduler, the heap and PMM calls of everything else,
stores to data pages, and the marks of the processor in the tables in use. -/
inductive KernelOp where
  | taskCreate
  | createUser
  | elfLoad (file : Option VfsNode) (rand : BitVec 64)
  | execRun (path : Nat) (file : Option VfsNode) (page : Fin 512 → BitVec 64)
      (biasRand stackRand mmapRand : BitVec 64)
  | brk (addr : BitVec 64)
  | mmap (len : BitVec 64) (flags : BitVec 32)
  | munmap (addr len : BitVec 64)
  | mprotect (addr len : BitVec 64) (prot : BitVec 32)
  | exit
  | sleep
  | wake (woken : Nat → Bool)
  | reap (fuel : Nat)
  | switchTo (t : Task)
  | kmalloc (size : Nat)
  | kfree (p : Nat)
  | takePages (n : Nat)
  | givePages (r : PageRun)
  | store (mem : PhysMem)
  | mark (n : Nat) (i : Fin 512) (dirty : Bool)

/-- `self` is the task that makes the call. -/
def KernelOp.run (k : Kernel) (self : Task) : KernelOp → Kernel
  | .taskCreate => (KiNBOL.taskCreate k).2
  | .createUser => (taskCreateUser k).2
  | .elfLoad file rand => k.withMach (KiNBOL.elfLoad k.mach file (vmmCurrent k.mach) rand).2.machine
  | .execRun path file page biasRand stackRand mmapRand =>
    KiNBOL.execRun k path file page biasRand stackRand mmapRand
  | .brk addr => (sysBrk k self addr).2
  | .mmap len flags => (sysMmap k self len flags).2
  | .munmap addr len => k.withMach (sysMunmap k.mach addr len).2
  | .mprotect addr len prot => k.withMach (sysMprotect k.mach addr len prot).2
  | .exit => taskExit k
  | .sleep => sleepMs k
  | .wake woken => schedUpdateBlockedTasks k woken
  | .reap fuel => taskReaper fuel k
  | .switchTo t => KiNBOL.switchTo k t
  | .kmalloc size => allocBuffer k size
  | .kfree p => freeBuffer k p
  | .takePages n => KiNBOL.takePages k n
  | .givePages r => KiNBOL.givePages k r
  | .store mem => { k with mem := mem }
  | .mark n i dirty => { k with mem := markSlot k.mem n i dirty }

/-- Images and ranges lie in the canonical lower half; kernel tasks create kernel tasks, and the tasks
that exit are those of `task_create` and `task_create_user` (`kmain` never does); the kernel frees
buffers and pages it has, runs tasks that are ready and writes data to data pages; the processor
marks present entries of the tables it walks. -/
def KernelOp.Legal (k : Kernel) (self : Task) : KernelOp → Prop
  | .taskCreate => k.self = some self ∧ self.ownsPagemap = false
  | .createUser => True
  | .elfLoad file rand => ∀ va ∈ (elfPlan file rand).1, LowerHalf va
  | .execRun path file _ biasRand _ _ =>
    path ∈ k.buffers ∧ ∀ va ∈ (elfPlan file biasRand).1, LowerHalf va
  | .brk addr => addr.toNat ≤ 2^47
  | .mmap len _ => LowerRange self.userMmapBase (pageUp len)
  | .munmap addr len => LowerRange addr len
  | .mprotect addr len _ => LowerRange addr len
  | .exit => k.self = some self ∧ self.Stacked
  | .sleep => True
  | .wake _ => True
  | .reap _ => True
  | .switchTo t => t ∈ k.tasks ∧ t.state = .ready
  | .kmalloc size => size < 2^32
  | .kfree p => p ∈ k.buffers
  | .takePages n => 0 < n
  | .givePages r => r ∈ k.pages
  | .store mem => ∀ n, mem n ≠ k.mem n → DataPage k n
  | .mark n i _ => bootTable k n ∧ present (k.mem n i) = true

/-- The operation is one of a user task. -/
def KernelOp.User : KernelOp → Prop
  | .elfLoad .. | .execRun .. | .brk .. | .mmap .. | .munmap .. | .mprotect .. => True
  | _ => False

def KernelStep (k k' : Kernel) : Prop :=
  ∃ op self, (KernelOp.User op → k.self = some self ∧ self.ownsPagemap = true) ∧
    op.Legal k self ∧ k' = op.run k self

theorem KernelOk.step {k' : Kernel} (hk : KernelOk K W kpm k) (h : KernelStep k k') :
    KernelOk K W kpm k' := by
  obtain ⟨op,self,huser,hl,rfl⟩ := h
  cases op with
  | taskCreate =>
    obtain ⟨hmem,-,hcr3⟩ := hk.self hl.1
    exact hk.taskCreate (hcr3.trans ((hk.tasks self hmem).kernel hl.2))
  | createUser => exact hk.createUser
  | elfLoad file rand =>
    obtain ⟨hs,ho⟩ := huser trivial
    exact hk.elfLoad (hk.self_root hs ho) hl
  | execRun path file page biasRand stackRand mmapRand =>
    obtain ⟨hs,ho⟩ := huser trivial
    exact hk.execRun hs ho hl.1 page stackRand mmapRand hl.2
  | brk addr =>
    obtain ⟨hs,ho⟩ := huser trivial
    exact hk.sysBrk (hk.self_root hs ho) hl
  | mmap len flags =>
    obtain ⟨hs,ho⟩ := huser trivial
    exact hk.sysMmap (hk.self_root hs ho) hl
  | munmap addr len =>
    obtain ⟨hs,ho⟩ := huser trivial
    exact hk.touch (sysMunmap_touches hk.holds.apart.owned (hk.self_root hs ho) hl)
  | mprotect addr len prot =>
    obtain ⟨hs,ho⟩ := huser trivial
    exact hk.touch (sysMprotect_touches hk.holds.apart.owned (hk.self_root hs ho) hl prot)
  | exit => exact hk.taskExit hl.1 hl.2
  | sleep => exact hk.sleepMs
  | wake woken => exact hk.wake woken
  | reap fuel => exact hk.taskReaper fuel
  | switchTo t => exact hk.switchTo hl.1
  | kmalloc size => exact hk.allocBuffer hl
  | kfree p => exact hk.freeBuffer hl
  | takePages n => exact hk.takePages hl
  | givePages r => exact hk.givePages hl
  | store mem => exact hk.data hl
  | mark n i dirty => exact hk.mark n i dirty

/-- A frame mapped in the lower half of a user task is the task's own: other tasks reach it through
what the kernel half mapped at boot only (its direct map), it is no table of any pagemap, no kernel
stack, driver or heap page, and it is marked in the PMM. -/
structure Isolated (k₀ k : Kernel) (t : Task) (x : Xlat) : Prop where
  others : ∀ s ∈ k.tasks, s.addr ≠ t.addr → ∀ va y, translate k.mem s.cr3 va = some y →
    y.page = x.page → KernelHalf va ∧ translate k₀.mem k₀.cr3 va = some y
  tables : ∀ s ∈ k.tasks, x.page ≠ s.cr3 ∧
    ∀ va, LowerHalf va ∨ KernelHalf va → x.page ∉ hwTables k.mem s.cr3 va
  kernelStacks : ∀ s ∈ k.tasks, ∀ r ∈ s.stacks, ¬RunPage r x.page
  drivers : ∀ r ∈ k.pages, ¬RunPage r x.page
  heap : ∀ r ∈ k.heap.pmm.runs, ¬RunPage r x.page
  marked : k.pmm.Held x.page

theorem KernelOk.isolated {k₀ : Kernel} (hlow : ∀ va, LowerHalf va → hwWalk k₀.mem k₀.cr3 va = none)
    (hk : KernelOk (bootTable k₀) (hwWalk k₀.mem k₀.cr3) k₀.cr3 k) (ht : t ∈ k.tasks)
    (ho : t.ownsPagemap = true) (hva : LowerHalf va) {x : Xlat}
    (hx : translate k.mem t.cr3 va = some x) : Isolated k₀ k t x := by
  have hap := hk.holds.apart
  have htab := hap.owned.tables
  have hr : UserRoots k.tasks t.cr3 := ⟨t,ht,ho,rfl⟩
  obtain ⟨hnode,hnot⟩ := mapped_node htab hr hva hx
  have hleaf := mapped_leaf htab hr hva hx
  have hnk : ¬bootTable k₀ x.page := fun hb => (hap.kernel _ hb).1 hnode
  have hroot : ∀ s ∈ k.tasks, UserRoots k.tasks s.cr3 ∨ s.cr3 = k₀.cr3 := by
    intro s hs
    cases hso : s.ownsPagemap with
    | true => exact Or.inl ⟨s,hs,hso,rfl⟩
    | false => exact Or.inr ((hk.tasks s hs).kernel hso)
  have hkernel : ∀ s ∈ k.tasks, ∀ w, KernelWalk k₀.cr3 (UserRoots k.tasks) s.cr3 w →
      translate k.mem s.cr3 w = translate k₀.mem k₀.cr3 w := by
    intro s _ w hw
    have hsame : hwWalk k.mem s.cr3 w = hwWalk k₀.mem k₀.cr3 w := hap.same _ w hw
    rw [translate,translate,hsame]
  refine ⟨fun s hs hne w y hy hpage => ?_,fun s hs => ⟨fun he => ?_,fun w hw hmem => ?_⟩,
    fun s hs r hrs hrun => ?_,fun r hrs hrun => ?_,fun r hrs hrun => ?_,hap.owned.held _ hnode⟩
  · rcases hroot s hs with hsr | hsk
    · by_cases hw : LowerHalf w
      · have hleaf' := mapped_leaf htab hsr hw hy
        rw [hpage] at hleaf'
        have hcr := (htab.forest.unique _ _ _ _ _ hsr hr (lowerPath_va hw) (lowerPath_va hva)
          hleaf' hleaf).1
        obtain ⟨u,hu,huo,huc⟩ := hsr
        have huniq : ∀ a ∈ k.tasks, ∀ b ∈ k.tasks, a.ownsPagemap = true → b.ownsPagemap = true →
            a.cr3 = b.cr3 → a = b := by
          intro a ha b hb hao hbo hab
          by_contra hab'
          have hsym : Std.Symm (fun s t : Task =>
              s.ownsPagemap = true → t.ownsPagemap = true → s.cr3 ≠ t.cr3) :=
            ⟨fun _ _ h h1 h2 => (h h2 h1).symm⟩
          exact hk.distinct.forall ha hb hab' hao hbo hab
        cases hso : s.ownsPagemap with
        | true => exact absurd (congrArg Task.addr (huniq s hs t ht hso ho hcr)) hne
        | false =>
          have hkp := (hk.tasks s hs).kernel hso
          exact absurd (ForestNode.root lowerPath_nil hr)
            (hap.kernel _ (Or.inl (hcr.symm.trans hkp))).1
      · have hwk : KernelHalf w := by
          rw [translate] at hy
          split_ifs at hy with hc
          exact hc.resolve_left hw
        exact ⟨hwk,(hkernel s hs w (Or.inl ⟨hsr,hwk⟩)) ▸ hy⟩
    · have hy' := hkernel s hs w (Or.inr hsk) ▸ hy
      refine ⟨?_,hy'⟩
      rw [translate] at hy'
      split_ifs at hy' with hc
      refine hc.resolve_left (fun hw => ?_)
      rw [hlow w hw] at hy'
      simp at hy'
  · rcases hroot s hs with hsr | hsk
    · exact hnot ⟨s.cr3,[],hsr,lowerPath_nil,by simp,by simp [he]⟩
    · exact hnk (Or.inl (he.trans hsk))
  · rcases hroot s hs with hsr | hsk
    · rcases hw with hw | hw
      · exact hnot (hwTables_lower htab hsr hw hmem)
      · exact hnk (hap.half _ w (Or.inl ⟨hsr,hw⟩) _ hmem)
    · exact hnk (hap.half _ w (Or.inr hsk) _ hmem)
  · refine (hap.plain r (List.mem_append_left _ (List.mem_append_left _ ?_)) _ hrun).1 hnode
    exact List.mem_flatMap.mpr ⟨s,hs,hrs⟩
  · exact (hap.plain r (List.mem_append_left _ (List.mem_append_right _ hrs)) _ hrun).1 hnode
  · exact (hap.plain r (List.mem_append_right _ hrs) _ hrun).1 hnode

/-- Isolation in every state that a booted kernel reaches. -/
theorem process_isolation (k₀ : Kernel) (junk : BitVec 64) (hb : Booted k₀) (k : Kernel)
    (hrun : Relation.ReflTransGen KernelStep (schedInit k₀ junk) k) (t : Task) (ht : t ∈ k.tasks)
    (ho : t.ownsPagemap = true) (va : BitVec 64) (hva : LowerHalf va) (x : Xlat)
    (hx : translate k.mem t.cr3 va = some x) : Isolated k₀ k t x := by
  have hk := reach_invariant (KernelOk.schedInit hb junk) (fun _ _ hk hs => hk.step hs) hrun
  refine hk.isolated (fun w hw => ?_) ht ho hva hx
  have h := hb.lower w hw
  rwa [translate,if_pos (Or.inl hw)] at h

/-- A machine with 64 free pages from 1 MiB on, nothing mapped. -/
def sampleReady : Kernel :=
  { mem := fun _ _ => 0#64
    cr3 := 1
    heap := Heap.boot (fun _ => ⟨0,false,0#32,none,none⟩)
      ⟨⟨fun i => if i < 32 then 0xFF#8 else 0#8,320,64#64,0x140000#64⟩,[],0⟩
    tasks := []
    current := none
    nextPid := 0#32
    buffers := []
    pages := [] }

/-- The font has a buffer, the frame buffer has its pages. -/
def sampleBoot : Kernel := takePages (allocBuffer sampleReady 100) 2

theorem sampleBoot_fields : sampleBoot.mem = sampleReady.mem ∧ sampleBoot.cr3 = 1 ∧
    sampleBoot.pages = [(0x101000#64,2)] ∧ sampleBoot.heap.pmm.runs = [(0x100000#64,1)] := by
  refine ⟨rfl,rfl,by decide,by decide⟩

theorem sampleBoot_booted : Booted sampleBoot := by
  obtain ⟨hmem,hcr3,hpages,hruns⟩ := sampleBoot_fields
  have hnone : ∀ va, hwTables sampleBoot.mem sampleBoot.cr3 va = [] := by
    intro va
    simp [hwTables,hmem,sampleReady]
  have hready : PmmReady sampleReady := ⟨⟨_,_,rfl⟩,by decide,rfl,rfl⟩
  refine ⟨⟨rfl,by decide⟩,⟨sampleReady,hready,?_⟩,fun n hn => ?_,fun va hva => ?_⟩
  · exact (Relation.ReflTransGen.single (BootStep.kmalloc (by decide))).tail
      (BootStep.takePages (by decide))
  · have hone : n = 1 := by
      rcases hn with hn | ⟨va,hva⟩
      · exact hn
      · rw [hnone va] at hva
        simp at hva
    subst hone
    refine ⟨by decide,?_⟩
    rw [hpages,hruns]
    simp [RunPage,pageOf]
  · simp [translate,hva,hwWalk,hmem,sampleReady]

/-- There a kernel task is created, then a user task, which runs and moves its break up by a page. -/
def sampleKmain : Task := (schedInit sampleBoot 0#64).self.get (by decide)

def sampleStarted : Kernel := (taskCreate (schedInit sampleBoot 0#64)).2

def sampleCreated : Kernel := (taskCreateUser sampleStarted).2

def sampleUser : Task :=
  (sampleCreated.tasks.find? Task.ownsPagemap).get (by decide)

def sampleRunning : Kernel := switchTo sampleCreated sampleUser

def sampleSelf : Task := sampleRunning.self.get (by decide)

def sampleGrown : Kernel := (sysBrk sampleRunning sampleSelf 0x80001000#64).2

def sampleGrownSelf : Task := sampleGrown.self.get (by decide)

theorem sampleRunning_steps :
    Relation.ReflTransGen KernelStep (schedInit sampleBoot 0#64) sampleRunning := by
  have h0 : KernelStep (schedInit sampleBoot 0#64) sampleStarted := by
    exact ⟨.taskCreate,sampleKmain,False.elim,⟨(Option.some_get _).symm,by decide⟩,rfl⟩
  have h1 : KernelStep sampleStarted sampleCreated :=
    ⟨.createUser,sampleUser,False.elim,trivial,rfl⟩
  have h2 : KernelStep sampleCreated sampleRunning := by
    have hmem := List.mem_of_find?_eq_some
      (Option.some_get (x := sampleCreated.tasks.find? Task.ownsPagemap) (by decide)).symm
    exact ⟨.switchTo sampleUser,sampleUser,False.elim,⟨hmem,by decide⟩,rfl⟩
  exact ((Relation.ReflTransGen.single h0).tail h1).tail h2

theorem sampleGrown_steps :
    Relation.ReflTransGen KernelStep (schedInit sampleBoot 0#64) sampleGrown := by
  have h : KernelStep sampleRunning sampleGrown :=
    ⟨.brk 0x80001000#64,sampleSelf,fun _ => ⟨(Option.some_get _).symm,by decide⟩,
      (by decide : (0x80001000#64).toNat ≤ 2^47),rfl⟩
  exact sampleRunning_steps.tail h

theorem mem_of_self {k : Kernel} {t : Task} (h : k.self = some t) : t ∈ k.tasks := by
  obtain ⟨a,-,hfind⟩ := Option.bind_eq_some_iff.mp h
  exact List.mem_of_find?_eq_some hfind

/-- The running task's tables are owned. -/
theorem sampleRunning_owned : Owned (UserRoots sampleRunning.tasks) sampleRunning.mach ∧
    UserRoots sampleRunning.tasks sampleRunning.cr3 := by
  have hk := reach_invariant (KernelOk.schedInit sampleBoot_booted 0#64)
    (fun _ _ hk hs => hk.step hs) sampleRunning_steps
  have hmem : sampleSelf ∈ sampleRunning.tasks := mem_of_self (Option.some_get _).symm
  exact ⟨hk.holds.apart.owned,sampleSelf,hmem,by decide,by decide⟩

theorem sampleGrown_owned : Owned (UserRoots sampleGrown.tasks) sampleGrown.mach ∧
    UserRoots sampleGrown.tasks sampleGrown.cr3 := by
  have hk := reach_invariant (KernelOk.schedInit sampleBoot_booted 0#64)
    (fun _ _ hk hs => hk.step hs) sampleGrown_steps
  have hmem : sampleGrownSelf ∈ sampleGrown.tasks := mem_of_self (Option.some_get _).symm
  exact ⟨hk.holds.apart.owned,sampleGrownSelf,hmem,by decide,by decide⟩

theorem process_isolation_sample :
    Isolated sampleBoot sampleGrown sampleGrownSelf ⟨277,true,true,true⟩ := by
  have hmem : sampleGrownSelf ∈ sampleGrown.tasks := mem_of_self (Option.some_get _).symm
  exact process_isolation sampleBoot 0#64 sampleBoot_booted sampleGrown sampleGrown_steps
    sampleGrownSelf hmem (by decide) 0x80000000#64 (by decide) _ (by decide)

end KiNBOL
