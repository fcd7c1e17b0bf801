import KiNBOL.Kernel.TaskRun
import KiNBOL.Mm.HeapRun

namespace KiNBOL

variable {K : Nat → Prop} {W : BitVec 64 → Option Xlat} {kpm : Nat} {k k' : Kernel}

/-- What runs before `sched_init`: heap calls, drivers that take pages and give them back, and
`vmm.c`, which leaves the pages of the heap and of the drivers marked. -/
inductive BootStep : Kernel → Kernel → Prop
  | kmalloc {k : Kernel} {size : Nat} (hsize : size < 2^32) : BootStep k (allocBuffer k size)
  | kfree {k : Kernel} {p : Nat} (hp : p ∈ k.buffers) : BootStep k (freeBuffer k p)
  | takePages {k : Kernel} {n : Nat} (hn : 0 < n) : BootStep k (takePages k n)
  | givePages {k : Kernel} {r : PageRun} (hr : r ∈ k.pages) : BootStep k (givePages k r)
  | vmm {k : Kernel} {m : Machine} (htotal : m.pmm.totalPages = k.pmm.totalPages)
      (hheld : ∀ r ∈ k.pages++k.heap.pmm.runs, ∀ n, RunPage r n → ¬m.pmm.Free n) :
      BootStep k (k.withMach m)

/-- The tables of the loaded pagemap; at boot they are the kernel's. -/
def bootTable (k : Kernel) (n : Nat) : Prop := n = k.cr3 ∨ ∃ va, n ∈ hwTables k.mem k.cr3 va

/-- The kernel right after `pmm_init`: nothing taken from the heap, no pages with a driver. -/
structure PmmReady (k : Kernel) : Prop where
  heap : ∃ hdr pmm, k.heap = Heap.boot hdr ⟨pmm,[],0⟩
  limit : k.pmm.totalPages ≤ frameLimit
  taken : k.buffers = [] ∧ k.pages = []

/-- The kernel before `sched_init`: no task yet, and a heap that may have served any calls since
`pmm_init`. The tables in use are no free pages, nor pages of the heap or of a driver, and the
kernel's pagemap has an empty lower half. -/
structure Booted (k : Kernel) : Prop where
  tasks : k.tasks = [] ∧ k.current = none
  run : ∃ k₀, PmmReady k₀ ∧ Relation.ReflTransGen BootStep k₀ k
  tables : ∀ n, bootTable k n → ¬k.pmm.Free n ∧ ∀ r ∈ k.pages++k.heap.pmm.runs, ¬RunPage r n
  lower : ∀ va, LowerHalf va → translate k.mem k.cr3 va = none

/-- The heap before `sched_init`: it serves its clients, and its pages and those of the drivers are
apart and marked. -/
structure BootOk (k : Kernel) : Prop where
  limit : k.pmm.totalPages ≤ frameLimit
  owes : k.pmm.Owes (k.pages++k.heap.pmm.runs)
  heap : HeapServes k.heap k.buffers

theorem Pmm.Owes.but {p : Pmm} {rs : List PageRun} (ho : p.Owes rs) :
    p.OwesBut (fun _ => False) p.totalPages rs :=
  { ho with total := rfl, kept := fun _ hn => hn.elim }

theorem PmmReady.ok (hk : PmmReady k) : BootOk k := by
  obtain ⟨hdr,pmm,hheap⟩ := hk.heap
  have hruns : k.heap.pmm.runs = [] := by
    rw [hheap]
    rfl
  refine ⟨hk.limit,⟨hk.limit.trans frameLimit_le,?_,?_,?_⟩,?_⟩
  · simp [hruns,hk.taken.2]
  · simp [hruns,hk.taken.2,SpansApart]
  · simp [hruns,hk.taken.2]
  · rw [hheap,hk.taken.1]
    exact ⟨[],HeapInv.boot hdr trivial,List.Perm.refl _⟩

theorem BootOk.step (hk : BootOk k) (h : BootStep k k') : BootOk k' := by
  cases h with
  | @kmalloc size hsize =>
    obtain ⟨ho,hcase⟩ := hk.heap.kmalloc hk.owes.but hsize
    unfold allocBuffer Kernel.kmalloc
    generalize KiNBOL.kmalloc pmmPool.logged k.heap size = r at ho hcase
    obtain ⟨x,h⟩ := r
    cases x with
    | none =>
      obtain ⟨-,hs⟩ := hcase.resolve_right (by simp)
      exact ⟨ho.total.le.trans hk.limit,ho.toOwes,hs⟩
    | some p =>
      obtain ⟨q,hq,hs⟩ := hcase.resolve_left (by simp)
      obtain rfl := Option.some.inj hq
      exact ⟨ho.total.le.trans hk.limit,ho.toOwes,hs⟩
  | kfree hp =>
    obtain ⟨ho,hs⟩ := hk.heap.kfree hk.owes.but hp
    exact ⟨ho.total.le.trans hk.limit,ho.toOwes,hs⟩
  | @takePages n hn =>
    unfold KiNBOL.takePages
    rcases hres : pmmPool.alloc k.pmm n with ⟨x,p⟩
    cases x with
    | none =>
      obtain rfl := pmmPool_refused hres
      exact ⟨hk.limit,hk.owes,hk.heap.withPmm _⟩
    | some a =>
      obtain ⟨-,-,-,ho⟩ := (pmmPool_honest_but _ _).grant _ _ _ _ _ hk.owes.but hn hres
      exact ⟨ho.total.le.trans hk.limit,ho.toOwes,hk.heap.withPmm _⟩
  | @givePages r hr =>
    have ho := (pmmPool_honest_but _ _).free _ _ _ hk.owes.but (List.mem_append_left _ hr)
    rw [List.erase_append_left _ hr] at ho
    exact ⟨ho.total.le.trans hk.limit,ho.toOwes,hk.heap.withPmm _⟩
  | @vmm m htotal hheld =>
    exact ⟨htotal.le.trans hk.limit,⟨htotal.le.trans hk.owes.limit,hk.owes.aligned,hk.owes.apart,
      hheld⟩,hk.heap.withPmm _⟩

theorem Booted.ok (hb : Booted k) : BootOk k := by
  obtain ⟨k₀,hready,hrun⟩ := hb.run
  exact reach_invariant hready.ok (fun _ _ hk hs => hk.step hs) hrun

theorem Booted.holds (hb : Booted k) :
    Holds (bootTable k) (hwWalk k.mem k.cr3) k.cr3 (UserRoots []) k.pages k.buffers k := by
  have hok := hb.ok
  have hnone : ∀ r, ¬UserRoots [] r := fun r hr => by
    obtain ⟨t,ht,-⟩ := hr
    simp at ht
  have hnode : ∀ n, ¬UserNode (UserRoots []) k.mem n := fun n hn => by
    obtain ⟨r,p,hr,-⟩ := hn
    exact hnone r hr
  refine ⟨⟨⟨⟨⟨lowerPath_closed,fun r _ _ _ _ hr => absurd hr (hnone r)⟩,
    fun r _ _ hr => absurd hr (hnone r),fun r _ _ hr => absurd hr (hnone r)⟩,
    fun n hn => absurd hn (hnode n),hok.limit⟩,hok.owes,
    fun r hr n hn => ⟨hnode n,fun hbt => (hb.tables n hbt).2 r hr hn⟩,
    fun n hn => ⟨hnode n,(hb.tables n hn).1⟩,?_,?_,Or.inl rfl,Or.inr rfl⟩,hok.heap⟩
  · intro r va hw n hn
    rcases hw with hw | rfl
    · exact absurd hw.1 (hnone r)
    · exact Or.inr ⟨va,hn⟩
  · intro r va hw
    rcases hw with hw | rfl
    · exact absurd hw.1 (hnone r)
    · rfl

/-- A kernel task joins the list, if memory allows. -/
theorem KernelOk.taskCreate (hk : KernelOk K W kpm k) (hc : k.cr3 = kpm) :
    KernelOk K W kpm (taskCreate k).2 := by
  obtain ⟨x,k₂,hres,hcur,hbuf,hpages,hcr3,hcase⟩ := hk.holds.taskCreateInternal kpm false
  rw [KiNBOL.taskCreate,hc,hres]
  rcases hcase with ⟨rfl,htasks,h2⟩ | ⟨t,rfl,htasks,ht,h2⟩
  · refine ⟨?_,htasks ▸ hk.tasks,htasks ▸ hk.distinct,fun a ha => ?_,
      fun hn => hcr3.trans (hk.idle (hcur ▸ hn))⟩
    · show Holds K W kpm (UserRoots k₂.tasks) (k₂.tasks.flatMap Task.stacks++k₂.pages)
        (k₂.tasks.flatMap Task.ptrs++k₂.buffers) k₂
      rw [htasks,hbuf,hpages]
      exact h2
    · obtain ⟨s,hs,hsa,hsc⟩ := hk.running a (hcur ▸ ha)
      exact ⟨s,htasks ▸ hs,hsa,hcr3.trans hsc⟩
  · refine hk.join hcur hbuf hpages hcr3 htasks (ht.ok (fun _ => rfl)) (fun ho => ?_) ?_
    · rw [ht.owns] at ho
      exact Bool.noConfusion ho
    · refine h2.roots_congr (fun r => ?_)
      rw [userRoots_append,ht.owns]
      exact ⟨fun h => h.resolve_right (fun h => Bool.noConfusion h.1),Or.inl⟩

/-- `sched_init` on a booted kernel. -/
theorem KernelOk.schedInit (hb : Booted k) (junk : BitVec 64) :
    KernelOk (bootTable k) (hwWalk k.mem k.cr3) k.cr3 (schedInit k junk) := by
  have h0 := hb.holds
  obtain ⟨ht0,hc0⟩ := hb.tasks
  unfold KiNBOL.schedInit
  have h1 := h0.kmalloc (show taskSize < 2^32 by decide)
  rcases hm : k.kmalloc taskSize with ⟨x,k₁⟩
  have hk₁ : k₁.tasks = [] ∧ k₁.current = none ∧ k₁.buffers = k.buffers ∧ k₁.pages = k.pages ∧
      k₁.cr3 = k.cr3 := by
    have := congrArg Prod.snd hm
    subst this
    exact ⟨ht0,hc0,rfl,rfl,rfl⟩
  obtain ⟨e1,e2,e3,e4,e5⟩ := hk₁
  rw [hm] at h1
  cases x with
  | none =>
    obtain ⟨-,h1⟩ := h1.resolve_right (by simp)
    refine ⟨?_,by simp [e1],by simp [e1],fun a ha => by simp [e2] at ha,fun _ => e5⟩
    simp only [e1,e3,e4]
    exact h1
  | some task =>
    obtain ⟨q,hq,h1⟩ := h1.resolve_left (by simp)
    obtain rfl := Option.some.inj hq
    dsimp only at h1 ⊢
    have hstack : ∃ stk : List PageRun,
        stk = (pmmAllocPagesContiguous k₁.pmm taskStackPages).1.toList.map
          (fun a => (a,taskStackPages)) ∧
        Holds (bootTable k) (hwWalk k.mem k.cr3) k.cr3 (UserRoots []) (stk++k.pages)
          (task::k.buffers) (k₁.withPmm (pmmAllocPagesContiguous k₁.pmm taskStackPages).2) := by
      rcases hs : pmmAllocPagesContiguous k₁.pmm taskStackPages with ⟨y,p⟩
      cases y with
      | none =>
        refine ⟨[],rfl,?_⟩
        rw [pmmAllocPagesContiguous_none hs]
        exact ⟨h1.apart,h1.heap⟩
      | some a => exact ⟨[(a,taskStackPages)],rfl,h1.takeStack hs⟩
    obtain ⟨stk,hstk,h2⟩ := hstack
    have h3 := h2.kmalloc (show fpuStateSize < 2^32 by decide)
    generalize pmmAllocPagesContiguous k₁.pmm taskStackPages = s at hstk h2 h3 ⊢
    generalize hr : (k₁.withPmm s.2).kmalloc fpuStateSize = r at h3 ⊢
    have hr' : r.2.tasks = [] ∧ r.2.buffers = k.buffers ∧ r.2.pages = k.pages ∧ r.2.cr3 = k.cr3 := by
      subst hr
      exact ⟨e1,e3,e4,e5⟩
    obtain ⟨f1,f2,f3,f4⟩ := hr'
    generalize hT : ({
      addr := task
      id := k₁.nextPid
      state := .running
      physStack := junk
      kernelStack := s.1
      stackSize := if s.1 = none then 0 else taskStackPages*pageSize
      pagemap := vmmCurrent k₁.mach
      ownsPagemap := false
      cr3 := k₁.cr3
      userBrk := userHeapStart
      userMmapBase := userMmapStart
      userStackGuardVa := 0#64
      fpuState := r.1 } : Task) = t
    have hstacks : t.stacks = stk := by
      rw [← hT,hstk,Task.stacks]
      cases s.1 with
      | none => rfl
      | some a =>
        have hpages : taskStackPages*pageSize/pageSize = taskStackPages := by decide
        simp [hpages]
    have hptrs : t.ptrs = task::r.1.toList := by
      rw [← hT]
      rfl
    have hcr : t.cr3 = k.cr3 ∧ t.addr = task ∧ t.ownsPagemap = false := by
      rw [← hT]
      exact ⟨e5,rfl,rfl⟩
    have hok : TaskOk k.cr3 t := by
      rw [← hT]
      exact ⟨rfl,fun _ => e5,fun ho => Bool.noConfusion ho,fun hd => TaskState.noConfusion hd⟩
    have hlive : Holds (bootTable k) (hwWalk k.mem k.cr3) k.cr3 (UserRoots []) (stk++k.pages)
        (task::r.1.toList++k.buffers) r.2 := by
      rcases h3 with ⟨h0,h3⟩ | ⟨f,h0,h3⟩
      · rw [h0]
        exact h3
      · rw [h0]
        exact h3.perm (List.Perm.swap task f k.buffers)
    have hk₂ : KernelOk (bootTable k) (hwWalk k.mem k.cr3) k.cr3
        { r.2 with nextPid := k₁.nextPid+1#32, tasks := r.2.tasks++[t], current := some task } := by
      have hroots : ∀ x, UserRoots [t] x ↔ UserRoots [] x := by
        intro x
        rw [← List.nil_append [t],userRoots_append,hcr.2.2]
        exact ⟨fun h => h.resolve_right (fun h => Bool.noConfusion h.1),Or.inl⟩
      have h4 := hlive.roots_congr hroots
      refine ⟨?_,fun u hu => ?_,?_,fun a ha => ?_,fun hn => by simp at hn⟩
      · simp only [f1,f2,f3,List.nil_append,List.flatMap_singleton,hstacks,hptrs]
        exact ⟨h4.apart,h4.heap⟩
      · simp only [f1,List.nil_append,List.mem_singleton] at hu
        exact hu ▸ hok
      · simp [f1]
      · obtain rfl := Option.some.inj ha
        exact ⟨t,by simp,hcr.2.1,f4.trans hcr.1.symm⟩
    subst hT
    exact hk₂.taskCreate f4

end KiNBOL
