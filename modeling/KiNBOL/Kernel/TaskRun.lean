import KiNBOL.Kernel.TaskOps
import KiNBOL.Kernel.UserCalls

namespace KiNBOL

/-- The kernel stack of a task, as a run of pages. -/
def Task.stacks (t : Task) : List PageRun :=
  t.kernelStack.toList.map (fun a => (a,t.stackSize/pageSize))

/-- The heap pointers of a task. -/
def Task.ptrs (t : Task) : List Nat := t.addr::t.fpuState.toList

/-- The pagemaps of user tasks. -/
def UserRoots (ts : List Task) (r : Nat) : Prop := ∃ t ∈ ts, t.ownsPagemap = true ∧ t.cr3 = r

/-- The task has the stack that `task_create_internal` gives. The first task's `phys_stack` is not
written. -/
def Task.Stacked (t : Task) : Prop :=
  t.kernelStack = some t.physStack ∧ t.stackSize = taskStackPages*pageSize

/-- What the list of tasks says about one of them. -/
structure TaskOk (kpm : Nat) (t : Task) : Prop where
  pagemap : t.pagemap = some t.cr3
  kernel : t.ownsPagemap = false → t.cr3 = kpm
  user : t.ownsPagemap = true → t.Stacked
  dead : t.state = .dead → t.Stacked

/-- The invariant of the running kernel: every page out of the PMM has one owner. -/
structure KernelOk (K : Nat → Prop) (W : BitVec 64 → Option Xlat) (kpm : Nat) (k : Kernel) :
    Prop where
  holds : Holds K W kpm (UserRoots k.tasks) (k.tasks.flatMap Task.stacks++k.pages)
    (k.tasks.flatMap Task.ptrs++k.buffers) k
  tasks : ∀ t ∈ k.tasks, TaskOk kpm t
  distinct : k.tasks.Pairwise (fun s t =>
    s.ownsPagemap = true → t.ownsPagemap = true → s.cr3 ≠ t.cr3)
  running : ∀ a, k.current = some a → ∃ t ∈ k.tasks, t.addr = a ∧ k.cr3 = t.cr3
  idle : k.current = none → k.cr3 = kpm

variable {K : Nat → Prop} {W : BitVec 64 → Option Xlat} {kpm pm : Nat} {roots : Nat → Prop}
  {stk : List PageRun} {live : List Nat} {k : Kernel} {m' : Machine} {t : Task}

theorem Holds.roots_congr {roots' : Nat → Prop} (hk : Holds K W kpm roots stk live k)
    (h : ∀ r, roots' r ↔ roots r) : Holds K W kpm roots' stk live k :=
  ⟨hk.apart.roots_congr h,hk.heap⟩

/-- Fields that the invariant goes by. -/
structure Task.Same (s t : Task) : Prop where
  addr : s.addr = t.addr
  fpu : s.fpuState = t.fpuState
  stack : s.kernelStack = t.kernelStack
  size : s.stackSize = t.stackSize
  owns : s.ownsPagemap = t.ownsPagemap
  cr3 : s.cr3 = t.cr3

theorem Task.Same.refl (t : Task) : t.Same t := ⟨rfl,rfl,rfl,rfl,rfl,rfl⟩

theorem Task.Same.lists {s t : Task} (h : s.Same t) : s.stacks = t.stacks ∧ s.ptrs = t.ptrs := by
  rw [Task.stacks,Task.stacks,Task.ptrs,Task.ptrs,h.addr,h.fpu,h.stack,h.size]
  exact ⟨rfl,rfl⟩

/-- Tasks change in fields that the invariant does not go by. -/
theorem KernelOk.retask (hk : KernelOk K W kpm k) {g : Task → Task}
    (hg : ∀ t ∈ k.tasks, (g t).Same t ∧ TaskOk kpm (g t)) :
    KernelOk K W kpm { k with tasks := k.tasks.map g } := by
  have hstk : (k.tasks.map g).flatMap Task.stacks = k.tasks.flatMap Task.stacks := by
    rw [List.flatMap_map]
    exact List.flatMap_congr (fun t ht => (hg t ht).1.lists.1)
  have hptr : (k.tasks.map g).flatMap Task.ptrs = k.tasks.flatMap Task.ptrs := by
    rw [List.flatMap_map]
    exact List.flatMap_congr (fun t ht => (hg t ht).1.lists.2)
  have hroots : ∀ r, UserRoots (k.tasks.map g) r ↔ UserRoots k.tasks r := by
    intro r
    constructor
    · intro h
      obtain ⟨s,hs,hso,hsr⟩ := h
      obtain ⟨t,ht,rfl⟩ := List.mem_map.mp hs
      have hsame := (hg t ht).1
      exact ⟨t,ht,hsame.owns ▸ hso,hsame.cr3 ▸ hsr⟩
    · intro h
      obtain ⟨t,ht,hto,htr⟩ := h
      have hsame := (hg t ht).1
      exact ⟨g t,List.mem_map_of_mem ht,hsame.owns.trans hto,hsame.cr3.trans htr⟩
  refine ⟨?_,fun s hs => ?_,?_,fun a ha => ?_,hk.idle⟩
  · show Holds K W kpm (UserRoots (k.tasks.map g)) ((k.tasks.map g).flatMap Task.stacks++k.pages)
      ((k.tasks.map g).flatMap Task.ptrs++k.buffers) _
    rw [hstk,hptr]
    have hh := hk.holds.roots_congr hroots
    exact ⟨hh.apart,hh.heap⟩
  · obtain ⟨t,ht,rfl⟩ := List.mem_map.mp hs
    exact (hg t ht).2
  · refine List.pairwise_map.mpr (hk.distinct.imp_of_mem (fun {s t} hs ht hd h1 h2 => ?_))
    have hs' := (hg s hs).1
    have ht' := (hg t ht).1
    rw [hs'.cr3,ht'.cr3]
    exact hd (hs'.owns ▸ h1) (ht'.owns ▸ h2)
  · obtain ⟨t,ht,hta,htc⟩ := hk.running a ha
    have hsame := (hg t ht).1
    exact ⟨g t,List.mem_map_of_mem ht,hsame.addr.trans hta,htc.trans hsame.cr3.symm⟩

theorem KernelOk.updateSelf (hk : KernelOk K W kpm k) {f : Task → Task}
    (hf : ∀ t ∈ k.tasks, some t.addr = k.current → (f t).Same t ∧ TaskOk kpm (f t)) :
    KernelOk K W kpm (k.updateSelf f) := by
  refine hk.retask (fun t ht => ?_)
  split_ifs with hcur
  · exact hf t ht hcur
  · exact ⟨Task.Same.refl t,hk.tasks t ht⟩

/-- Tasks have addresses of their own. -/
theorem KernelOk.nodup (hk : KernelOk K W kpm k) : (k.tasks.map Task.addr).Nodup := by
  have hptrs := (List.nodup_append.mp hk.holds.nodup).1
  have hsub : ∀ ts : List Task, List.Sublist (ts.map Task.addr) (ts.flatMap Task.ptrs) := by
    intro ts
    induction ts with
    | nil => exact List.Sublist.refl _
    | cons t rest ih =>
      rw [List.map_cons,List.flatMap_cons,Task.ptrs,List.cons_append]
      exact (ih.trans (List.sublist_append_right _ _)).cons_cons _
  exact hptrs.sublist (hsub k.tasks)

theorem KernelOk.addr_inj (hk : KernelOk K W kpm k) {s t : Task} (hs : s ∈ k.tasks)
    (ht : t ∈ k.tasks) (h : s.addr = t.addr) : s = t :=
  List.inj_on_of_nodup_map hk.nodup hs ht h

/-- The current task runs in its pagemap. -/
theorem KernelOk.self (hk : KernelOk K W kpm k) (h : k.self = some t) :
    t ∈ k.tasks ∧ k.current = some t.addr ∧ k.cr3 = t.cr3 := by
  unfold Kernel.self at h
  obtain ⟨a,ha,hfind⟩ := Option.bind_eq_some_iff.mp h
  have hmem := List.mem_of_find?_eq_some hfind
  have haddr : t.addr = a := by simpa using List.find?_some hfind
  obtain ⟨s,hs,hsa,hcr3⟩ := hk.running a ha
  have heq := hk.addr_inj hs hmem (hsa.trans haddr.symm)
  exact ⟨hmem,haddr ▸ ha,heq ▸ hcr3⟩

theorem KernelOk.self_root (hk : KernelOk K W kpm k) (h : k.self = some t)
    (ho : t.ownsPagemap = true) : UserRoots k.tasks k.cr3 := by
  obtain ⟨hmem,-,hcr3⟩ := hk.self h
  exact ⟨t,hmem,ho,hcr3.symm⟩

/-- A call of a user task that works on its lower half. -/
theorem KernelOk.touch (hk : KernelOk K W kpm k) (ht : Touches (UserRoots k.tasks) k.mach m') :
    KernelOk K W kpm (k.withMach m') :=
  ⟨hk.holds.touch ht,hk.tasks,hk.distinct,
    fun a ha => (hk.running a ha).imp (fun _ h => ⟨h.1,h.2.1,ht.cr3.trans h.2.2⟩),
    fun h => ht.cr3.trans (hk.idle h)⟩

/-- What `task_create_internal` puts into the list. -/
structure NewTask (pm : Nat) (owns : Bool) (t : Task) : Prop where
  pagemap : t.pagemap = some pm
  owns : t.ownsPagemap = owns
  cr3 : t.cr3 = pm
  state : t.state = .ready
  stack : t.Stacked

theorem Holds.taskCreateInternal (hk : Holds K W kpm roots stk live k) (pm : Nat) (owns : Bool) :
    ∃ x k', taskCreateInternal k pm owns = (x,k') ∧ k'.current = k.current ∧
      k'.buffers = k.buffers ∧ k'.pages = k.pages ∧ k'.cr3 = k.cr3 ∧
    ((x = none ∧ k'.tasks = k.tasks ∧ Holds K W kpm roots stk live k') ∨
     ∃ t, x = some t.addr ∧ k'.tasks = k.tasks++[t] ∧ NewTask pm owns t ∧
      Holds K W kpm roots (t.stacks++stk) (t.ptrs++live) k') := by
  unfold KiNBOL.taskCreateInternal
  have h1 := hk.kmalloc (show taskSize < 2^32 by decide)
  rcases hm : k.kmalloc taskSize with ⟨a,k1⟩
  have hk1 : k1.tasks = k.tasks ∧ k1.current = k.current ∧ k1.buffers = k.buffers ∧
      k1.pages = k.pages ∧ k1.cr3 = k.cr3 := by
    have := congrArg Prod.snd hm
    subst this
    exact ⟨rfl,rfl,rfl,rfl,rfl⟩
  obtain ⟨e1,e2,e3,e4,e5⟩ := hk1
  rw [hm] at h1
  cases a with
  | none =>
    obtain ⟨-,h1⟩ := h1.resolve_right (by simp)
    exact ⟨none,k1,rfl,e2,e3,e4,e5,Or.inl ⟨rfl,e1,h1⟩⟩
  | some task =>
    obtain ⟨q,hq,h1⟩ := h1.resolve_left (by simp)
    obtain rfl := Option.some.inj hq
    dsimp only at h1 ⊢
    rcases hs : pmmAllocPagesContiguous k1.pmm taskStackPages with ⟨b,p⟩
    cases b with
    | none =>
      have hp : k1.withPmm p = k1 := by
        rw [pmmAllocPagesContiguous_none hs]
        rfl
      have h2 := h1.kfree (p := task) (by simp)
      rw [List.erase_cons_head] at h2
      exact ⟨none,k1.kfree (some task),by simp only [hp],e2,e3,e4,e5,Or.inl ⟨rfl,e1,h2⟩⟩
    | some stack =>
      have h2 := (h1.takeStack hs).kmalloc (show fpuStateSize < 2^32 by decide)
      dsimp only
      generalize hr : (k1.withPmm p).kmalloc fpuStateSize = r at h2 ⊢
      have hr' : r.2.tasks = k1.tasks ∧ r.2.current = k1.current ∧ r.2.buffers = k1.buffers ∧
          r.2.pages = k1.pages ∧ r.2.cr3 = k1.cr3 := by
        subst hr
        exact ⟨rfl,rfl,rfl,rfl,rfl⟩
      obtain ⟨f1,f2,f3,f4,f5⟩ := hr'
      refine ⟨_,_,rfl,f2.trans e2,f3.trans e3,f4.trans e4,f5.trans e5,Or.inr ⟨_,rfl,by rw [f1,e1],
        ⟨rfl,rfl,rfl,rfl,⟨rfl,rfl⟩⟩,?_⟩⟩
      have hpages : taskStackPages*pageSize/pageSize = taskStackPages := by decide
      rcases h2 with ⟨h0,h2⟩ | ⟨f,h0,h2⟩
      · simp only [Task.stacks,Task.ptrs,h0,hpages,Option.toList_some,Option.toList_none,
          List.map_cons,List.map_nil]
        exact ⟨h2.apart,h2.heap⟩
      · simp only [Task.stacks,Task.ptrs,h0,hpages,Option.toList_some,List.map_cons,List.map_nil]
        have h3 := h2.perm (List.Perm.swap task f live)
        exact ⟨h3.apart,h3.heap⟩

/-- A new task joins the list. -/
theorem KernelOk.join {k' : Kernel} (hk : KernelOk K W kpm k) (hcur : k'.current = k.current)
    (hbuf : k'.buffers = k.buffers) (hpages : k'.pages = k.pages) (hcr3 : k'.cr3 = k.cr3)
    (htasks : k'.tasks = k.tasks++[t])
    (hok : TaskOk kpm t) (hnew : t.ownsPagemap = true → ¬UserRoots k.tasks t.cr3)
    (hh : Holds K W kpm (UserRoots (k.tasks++[t])) (t.stacks++(k.tasks.flatMap Task.stacks++k.pages))
      (t.ptrs++(k.tasks.flatMap Task.ptrs++k.buffers)) k') : KernelOk K W kpm k' := by
  have hperm : ∀ {α : Type} (x y z : List α), (x++(y++z)).Perm (y++x++z) := by
    intro α x y z
    rw [← List.append_assoc]
    exact List.perm_append_comm.append_right _
  refine ⟨?_,fun s hs => ?_,?_,fun a ha => ?_,fun hn => ?_⟩
  · rw [htasks,hbuf,hpages,List.flatMap_append,List.flatMap_append,List.flatMap_singleton,
      List.flatMap_singleton]
    exact (hh.perm_stacks (hperm _ _ _)).perm (hperm _ _ _)
  · rw [htasks] at hs
    rcases List.mem_append.mp hs with hs | hs
    · exact hk.tasks s hs
    · exact List.mem_singleton.mp hs ▸ hok
  · rw [htasks]
    refine List.pairwise_append.mpr ⟨hk.distinct,List.pairwise_singleton _ _,fun s hs u hu => ?_⟩
    obtain rfl := List.mem_singleton.mp hu
    intro hso huo he
    exact hnew huo ⟨s,hs,hso,he⟩
  · obtain ⟨s,hs,hsa,hsc⟩ := hk.running a (hcur ▸ ha)
    exact ⟨s,htasks ▸ List.mem_append_left _ hs,hsa,hcr3.trans hsc⟩
  · exact hcr3.trans (hk.idle (hcur ▸ hn))

theorem NewTask.ok {owns : Bool} (hn : NewTask pm owns t) (hb : owns = false → pm = kpm) :
    TaskOk kpm t := by
  exact ⟨hn.pagemap.trans (congrArg some hn.cr3.symm),
    fun ho => hn.cr3.trans (hb (hn.owns.symm.trans ho)),fun _ => hn.stack,fun _ => hn.stack⟩

theorem userRoots_append (ts : List Task) (t : Task) (r : Nat) : UserRoots (ts++[t]) r ↔
    UserRoots ts r ∨ (t.ownsPagemap = true ∧ t.cr3 = r) := by
  simp only [UserRoots,List.mem_append,List.mem_singleton]
  constructor
  · rintro ⟨s,hs | rfl,h⟩
    · exact Or.inl ⟨s,hs,h⟩
    · exact Or.inr h
  · rintro (⟨s,hs,h⟩ | h)
    · exact ⟨s,Or.inl hs,h⟩
    · exact ⟨t,Or.inr rfl,h⟩

/-- `task_create_user`, whether or not it runs out of memory. -/
theorem KernelOk.createUser (hk : KernelOk K W kpm k) : KernelOk K W kpm (taskCreateUser k).2 := by
  unfold taskCreateUser
  rcases hc : vmmCreatePagemap k.mach with ⟨x,m₁⟩
  cases x with
  | none =>
    have hm : m₁ = k.mach := by
      rcases vmmCreatePagemap_cases hk.holds.apart.owned with hno | ⟨f,m',hres,-⟩
      · exact (congrArg Prod.snd (hc.symm.trans hno))
      · rw [hc] at hres
        simp at hres
    rw [hm]
    exact hk
  | some f =>
    obtain ⟨h1,hnew,hcr3⟩ := hk.holds.create hc
    obtain ⟨x,k2,hres,hcur,hbuf,hpages,hc3,hcase⟩ := h1.taskCreateInternal f true
    have hcr3' : k2.cr3 = k.cr3 := hc3.trans hcr3
    dsimp only
    rw [hres]
    rcases hcase with ⟨rfl,htasks,h2⟩ | ⟨t,rfl,htasks,ht,h2⟩
    · have hne : f ≠ k2.cr3 := by
        intro he
        rcases hk.holds.apart.cr3 with hr | hb
        · exact hnew (he.trans hcr3' ▸ hr)
        · have hfk : f = kpm := he.trans (hcr3'.trans hb)
          exact (h2.apart.kernel kpm h2.apart.own).1
            (hfk ▸ ForestNode.root lowerPath_nil (Or.inl rfl))
      have h3 := h2.destroy (Or.inl rfl) hne
      have hroots : ∀ r, UserRoots k.tasks r ↔ (r = f ∨ UserRoots k.tasks r) ∧ r ≠ f := by
        intro r
        constructor
        · exact fun hr => ⟨Or.inr hr,fun he => hnew (he ▸ hr)⟩
        · exact fun hr => hr.1.resolve_left hr.2
      have h4 := h3.roots_congr hroots
      have hd3 : (vmmDestroyPagemap k2.mach (some f)).cr3 = k2.cr3 := by
        rw [vmmDestroyPagemap]
        split_ifs <;> rfl
      show KernelOk K W kpm (k2.withMach (vmmDestroyPagemap k2.mach (some f)))
      refine ⟨?_,?_,?_,fun a ha => ?_,fun hn => ?_⟩
      · show Holds K W kpm (UserRoots k2.tasks) (k2.tasks.flatMap Task.stacks++k2.pages)
          (k2.tasks.flatMap Task.ptrs++k2.buffers) _
        rw [htasks,hbuf,hpages]
        exact h4
      · exact htasks ▸ hk.tasks
      · exact htasks ▸ hk.distinct
      · obtain ⟨s,hs,hsa,hsc⟩ := hk.running a (hcur ▸ ha)
        exact ⟨s,htasks ▸ hs,hsa,hd3.trans (hcr3'.trans hsc)⟩
      · exact hd3.trans (hcr3'.trans (hk.idle (hcur ▸ hn)))
    · refine hk.join hcur hbuf hpages hcr3' htasks (ht.ok (by simp)) (fun _ => ht.cr3 ▸ hnew) ?_
      refine h2.roots_congr (fun r => ?_)
      rw [userRoots_append,ht.cr3,ht.owns]
      constructor
      · rintro (h | ⟨-,h⟩)
        · exact Or.inr h
        · exact Or.inl h.symm
      · rintro (h | h)
        · exact Or.inr ⟨rfl,h.symm⟩
        · exact Or.inl h

/-- `task_destroy` of a task that has its stack, and whose pagemap is not loaded if it owns one. -/
theorem Holds.taskDestroy (hk : Holds K W kpm roots (t.stacks++stk) (t.ptrs++live) k)
    (hst : t.Stacked) (ho : t.ownsPagemap = true →
      t.pagemap = some t.cr3 ∧ roots t.cr3 ∧ t.cr3 ≠ k.cr3) :
    Holds K W kpm (fun r => roots r ∧ (t.ownsPagemap = true → r ≠ t.cr3)) stk live
      (taskDestroy k t) := by
  obtain ⟨hks,hsize⟩ := hst
  have h1 : Holds K W kpm roots (t.stacks++stk) (t.addr::live) (k.kfree t.fpuState) := by
    cases hf : t.fpuState with
    | none =>
      rw [Task.ptrs,hf] at hk
      exact ⟨hk.apart,hk.heap⟩
    | some f =>
      have hp : (t.ptrs++live).Perm (f::t.addr::live) := by
        rw [Task.ptrs,hf]
        exact List.Perm.swap f t.addr live
      have h := (hk.perm hp).kfree (p := f) (by simp)
      rwa [List.erase_cons_head] at h
  have hstk : t.stacks = [(t.physStack,taskStackPages)] := by
    rw [Task.stacks,hks,hsize]
    rfl
  rw [hstk] at h1
  have h2 := h1.freeRun (r := (t.physStack,taskStackPages)) (by simp)
  rw [List.singleton_append,List.erase_cons_head] at h2
  have hpages : t.stackSize ≠ 0 ∧ t.stackSize/pageSize = taskStackPages := by
    rw [hsize]
    decide
  rw [KiNBOL.taskDestroy]
  simp only [if_pos hpages.1,hpages.2]
  cases hown : t.ownsPagemap with
  | true =>
    obtain ⟨hpm,hr,hne⟩ := ho hown
    have h3 := (h2.destroy hr hne).kfree (p := t.addr) (by simp)
    rw [List.erase_cons_head] at h3
    simp only [if_true,hpm,true_imp_iff]
    exact h3
  | false =>
    have h3 := h2.kfree (p := t.addr) (by simp)
    rw [List.erase_cons_head] at h3
    simp only [Bool.false_eq_true,if_false,false_imp_iff,and_true]
    exact h3

/-- Taking a task with an address of its own out of the list. -/
theorem filter_addr_perm {ts : List Task} (hnd : (ts.map Task.addr).Nodup) (ht : t ∈ ts) :
    ts.Perm (t::ts.filter (fun s => s.addr != t.addr)) := by
  obtain ⟨l₁,l₂,rfl⟩ := List.append_of_mem ht
  rw [List.map_append,List.map_cons] at hnd
  obtain ⟨-,h2,h12⟩ := List.nodup_append.mp hnd
  have hkeep : ∀ l : List Task, (∀ s ∈ l, s.addr ≠ t.addr) →
      l.filter (fun s => s.addr != t.addr) = l := by
    intro l hl
    exact List.filter_eq_self.mpr (fun s hs => by simpa using hl s hs)
  have hl1 := hkeep l₁ (fun s hs => h12 _ (List.mem_map_of_mem hs) _ (by simp))
  have hl2 := hkeep l₂ (fun s hs he =>
    (List.nodup_cons.mp h2).1 (he ▸ List.mem_map_of_mem hs))
  rw [List.filter_append,List.filter_cons,if_neg (by simp),hl1,hl2]
  exact List.perm_middle

/-- One turn of the reaper. -/
theorem KernelOk.reapOne {k' : Kernel} (hk : KernelOk K W kpm k) (h : reapOne k = some k') :
    KernelOk K W kpm k' := by
  unfold KiNBOL.reapOne at h
  cases hfind : k.tasks.find? (fun t => decide (t.state = .dead ∧ some t.addr ≠ k.current)) with
  | none =>
    rw [hfind] at h
    simp at h
  | some t =>
    rw [hfind] at h
    injection h with h
    have hmem := List.mem_of_find?_eq_some hfind
    have htest := List.find?_some hfind
    simp only [decide_eq_true_eq] at htest
    obtain ⟨hdead,hcur⟩ := htest
    have hok := hk.tasks t hmem
    have hperm := filter_addr_perm hk.nodup hmem
    generalize hrest : k.tasks.filter (fun s => s.addr != t.addr) = rest at hperm h
    have hd := (hperm.pairwise_iff (fun {x y} hxy h1 h2 => (hxy h2 h1).symm)).mp hk.distinct
    have hsub : ∀ s ∈ rest, s ∈ k.tasks := fun s hs => hperm.mem_iff.mpr (List.mem_cons_of_mem _ hs)
    -- a pagemap that goes is a user's and not the loaded one
    have hown : t.ownsPagemap = true →
        t.pagemap = some t.cr3 ∧ UserRoots k.tasks t.cr3 ∧ t.cr3 ≠ k.cr3 := by
      intro ho
      have hroot : UserRoots k.tasks t.cr3 := ⟨t,hmem,ho,rfl⟩
      have hnotkpm : t.cr3 ≠ kpm := by
        intro he
        exact (hk.holds.apart.kernel kpm hk.holds.apart.own).1
          (he ▸ ForestNode.root lowerPath_nil hroot)
      refine ⟨hok.pagemap,hroot,fun he => ?_⟩
      cases hc : k.current with
      | none => exact hnotkpm (he.trans (hk.idle hc))
      | some a =>
        obtain ⟨s,hs,hsa,hsc⟩ := hk.running a hc
        have hst : s ≠ t := fun hst => hcur (by rw [hc,← hsa,hst])
        cases hso : s.ownsPagemap with
        | false => exact hnotkpm (he.trans (hsc.trans ((hk.tasks s hs).kernel hso)))
        | true =>
          have hsr : s ∈ rest := ((List.mem_cons.mp (hperm.mem_iff.mp hs)).resolve_left hst)
          exact (List.pairwise_cons.mp hd).1 s hsr ho hso (he.trans hsc)
    have hh : Holds K W kpm (UserRoots k.tasks) (t.stacks++(rest.flatMap Task.stacks++k.pages))
        (t.ptrs++(rest.flatMap Task.ptrs++k.buffers)) { k with tasks := rest } := by
      have h1 := hk.holds.perm_stacks ((hperm.flatMap_right Task.stacks).append_right k.pages)
      have h2 := h1.perm ((hperm.flatMap_right Task.ptrs).append_right k.buffers)
      rw [List.flatMap_cons,List.flatMap_cons,List.append_assoc,List.append_assoc] at h2
      exact ⟨h2.apart,h2.heap⟩
    have hdes := hh.taskDestroy (hok.dead hdead) hown
    have hfield : (taskDestroy { k with tasks := rest } t).tasks = rest ∧
        (taskDestroy { k with tasks := rest } t).current = k.current ∧
        (taskDestroy { k with tasks := rest } t).buffers = k.buffers ∧
        (taskDestroy { k with tasks := rest } t).pages = k.pages ∧
        (taskDestroy { k with tasks := rest } t).cr3 = k.cr3 := by
      simp only [taskDestroy,vmmDestroyPagemap]
      split_ifs <;> (try split) <;> exact ⟨rfl,rfl,rfl,rfl,rfl⟩
    obtain ⟨f1,f2,f3,f5,f4⟩ := hfield
    rw [← h]
    generalize taskDestroy { k with tasks := rest } t = k₂ at *
    refine ⟨?_,fun s hs => hk.tasks s (hsub s (f1 ▸ hs)),?_,fun a ha => ?_,fun hn => ?_⟩
    · rw [f1,f3,f5]
      refine hdes.roots_congr (fun r => ?_)
      constructor
      · rintro ⟨s,hs,hso,rfl⟩
        exact ⟨⟨s,hsub s hs,hso,rfl⟩,fun ho => ((List.pairwise_cons.mp hd).1 s hs ho hso).symm⟩
      · rintro ⟨⟨s,hs,hso,rfl⟩,hr⟩
        refine ⟨s,(List.mem_cons.mp (hperm.mem_iff.mp hs)).resolve_left (fun he => ?_),hso,rfl⟩
        exact hr (he ▸ hso) (he ▸ rfl)
    · rw [f1]
      exact (List.pairwise_cons.mp hd).2
    · obtain ⟨s,hs,hsa,hsc⟩ := hk.running a (f2 ▸ ha)
      refine ⟨s,?_,hsa,f4.trans hsc⟩
      rw [f1]
      refine (List.mem_cons.mp (hperm.mem_iff.mp hs)).resolve_left (fun he => ?_)
      exact hcur (by rw [← he,hsa,← f2,ha])
    · exact f4.trans (hk.idle (f2 ▸ hn))

theorem KernelOk.taskReaper (fuel : Nat) (hk : KernelOk K W kpm k) :
    KernelOk K W kpm (taskReaper fuel k) := by
  induction fuel generalizing k with
  | zero => exact hk
  | succ fuel ih =>
    rw [KiNBOL.taskReaper]
    cases h : KiNBOL.reapOne k with
    | none => exact hk
    | some k' => exact ih (hk.reapOne h)

end KiNBOL
