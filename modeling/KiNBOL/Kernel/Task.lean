import KiNBOL.Kernel.Munmap
import KiNBOL.Loader.Elf
import KiNBOL.Mm.PmmPool

namespace KiNBOL

inductive TaskState
  | ready
  | running
  | blocked
  | dead
  deriving DecidableEq

/-- `task_t`: the block it lives in and the fields that memory management goes by. Stacks and
pagemaps are given by physical address and page. -/
structure Task where
  addr : Nat
  id : BitVec 32
  state : TaskState
  physStack : BitVec 64
  kernelStack : Option (BitVec 64)
  stackSize : Nat
  pagemap : Pagemap
  ownsPagemap : Bool
  cr3 : Nat
  userBrk : BitVec 64
  userMmapBase : BitVec 64
  userStackGuardVa : BitVec 64
  fpuState : Option Nat

/-- `sizeof(task_t)`. -/
def taskSize : Nat := 440
def taskStackPages : Nat := 4
def fpuStateSize : Nat := 512

def userHeapStart : BitVec 64 := 0x80000000#64
def userMmapStart : BitVec 64 := 0x700000000000#64
def userStackTop : BitVec 64 := 0x7FFFFFFFF000#64
def vmmFlagsUserData : BitVec 64 := vmmPresent ||| vmmWrite ||| vmmUser ||| vmmNx

/-- Memory, heap and PMM, the circle of tasks from `head_task` on, and the heap pointers and the runs
of pages that the rest of the kernel holds. -/
structure Kernel where
  mem : PhysMem
  cr3 : Nat
  heap : Heap (PageLog Pmm)
  tasks : List Task
  current : Option Nat
  nextPid : BitVec 32
  buffers : List Nat
  pages : List PageRun

namespace Kernel

def pmm (k : Kernel) : Pmm := k.heap.pmm.pmm

def withPmm (k : Kernel) (p : Pmm) : Kernel :=
  { k with heap := { k.heap with pmm := { k.heap.pmm with pmm := p } } }

/-- What `vmm.c` works on. -/
def mach (k : Kernel) : Machine := ⟨k.mem,k.pmm,k.cr3⟩

def withMach (k : Kernel) (m : Machine) : Kernel := { k.withPmm m.pmm with mem := m.mem, cr3 := m.cr3 }

def kmalloc (k : Kernel) (size : Nat) : Option Nat × Kernel :=
  let r := KiNBOL.kmalloc pmmPool.logged k.heap size
  (r.1,{ k with heap := r.2 })

def kfree (k : Kernel) (ptr : Option Nat) : Kernel :=
  { k with heap := KiNBOL.kfree pmmPool.logged k.heap ptr }

/-- `sched_current`. -/
def self (k : Kernel) : Option Task :=
  k.current.bind (fun a => k.tasks.find? (fun t => t.addr == a))

/-- Writing fields of the current task. -/
def updateSelf (k : Kernel) (f : Task → Task) : Kernel :=
  { k with tasks := k.tasks.map (fun t => if some t.addr = k.current then f t else t) }

end Kernel

/-- `task_create_internal`. The frame it builds on the new stack is data. -/
def taskCreateInternal (k : Kernel) (pm : Nat) (owns : Bool) : Option Nat × Kernel :=
  match k.kmalloc taskSize with
  | (none,k) => (none,k)
  | (some task,k) =>
    match pmmAllocPagesContiguous k.pmm taskStackPages with
    | (none,p) => (none,(k.withPmm p).kfree (some task))
    | (some stack,p) =>
      let r := (k.withPmm p).kmalloc fpuStateSize
      let t : Task :=
        { addr := task
          id := k.nextPid
          state := .ready
          physStack := stack
          kernelStack := some stack
          stackSize := taskStackPages*pageSize
          pagemap := some pm
          ownsPagemap := owns
          cr3 := pm
          userBrk := userHeapStart
          userMmapBase := userMmapStart
          userStackGuardVa := 0#64
          fpuState := r.1 }
      (some task,{ r.2 with nextPid := k.nextPid+1#32, tasks := r.2.tasks++[t] })

/-- `task_create`: the new task gets the loaded pagemap. -/
def taskCreate (k : Kernel) : Option Nat × Kernel := taskCreateInternal k k.cr3 false

def taskCreateUser (k : Kernel) : Option Nat × Kernel :=
  match vmmCreatePagemap k.mach with
  | (none,m) => (none,k.withMach m)
  | (some pm,m) =>
    match taskCreateInternal (k.withMach m) pm true with
    | (some task,k) => (some task,k)
    | (none,k) => (none,k.withMach (vmmDestroyPagemap k.mach (some pm)))

/-- `sched_init`: the task of the running kernel and the idle task. The first one's `phys_stack` is
never written, `junk` is what stands there. -/
def schedInit (k : Kernel) (junk : BitVec 64) : Kernel :=
  match k.kmalloc taskSize with
  | (none,k) => k
  | (some task,k) =>
    let s := pmmAllocPagesContiguous k.pmm taskStackPages
    let r := (k.withPmm s.2).kmalloc fpuStateSize
    let t : Task :=
      { addr := task
        id := k.nextPid
        state := .running
        physStack := junk
        kernelStack := s.1
        stackSize := if s.1 = none then 0 else taskStackPages*pageSize
        pagemap := vmmCurrent k.mach
        ownsPagemap := false
        cr3 := k.cr3
        userBrk := userHeapStart
        userMmapBase := userMmapStart
        userStackGuardVa := 0#64
        fpuState := r.1 }
    let k := { r.2 with nextPid := k.nextPid+1#32, tasks := r.2.tasks++[t], current := some task }
    (taskCreate k).2

def taskDestroy (k : Kernel) (t : Task) : Kernel :=
  let k := k.kfree t.fpuState
  let pages := if t.stackSize ≠ 0 then t.stackSize/pageSize else taskStackPages
  let k := k.withPmm (pmmFreePages k.pmm t.physStack pages)
  let k := if t.ownsPagemap then k.withMach (vmmDestroyPagemap k.mach t.pagemap) else k
  k.kfree (some t.addr)

/-- The first dead task that is not running, out of the list and destroyed. -/
def reapOne (k : Kernel) : Option Kernel :=
  match k.tasks.find? (fun t => decide (t.state = .dead ∧ some t.addr ≠ k.current)) with
  | none => none
  | some t => some (taskDestroy { k with tasks := k.tasks.filter (fun s => s.addr != t.addr) } t)

/-- `task_reaper` starts over after each task it destroyed. -/
def taskReaper : Nat → Kernel → Kernel
  | 0,k => k
  | fuel+1,k =>
    match reapOne k with
    | none => k
    | some k => taskReaper fuel k

/-- The end of `sched_schedule`, from the choice of the next task on. -/
def switchTo (k : Kernel) (chosen : Task) : Kernel :=
  let k := k.updateSelf (fun t => if t.state = .running then { t with state := .ready } else t)
  let k := { k with current := some chosen.addr }
  { k.updateSelf (fun t => { t with state := .running }) with cr3 := chosen.cr3 }

/-- `task_exit` up to the yield. -/
def taskExit (k : Kernel) : Kernel := k.updateSelf (fun t => { t with state := .dead })

/-- `sleep_ms` up to the yield. -/
def sleepMs (k : Kernel) : Kernel := k.updateSelf (fun t => { t with state := .blocked })

/-- `sched_update_blocked_tasks`; `woken` says whose time has come. -/
def schedUpdateBlockedTasks (k : Kernel) (woken : Nat → Bool) : Kernel :=
  { k with tasks := k.tasks.map (fun t =>
      if t.state = .blocked ∧ woken t.addr = true then { t with state := .ready } else t) }

/-- `(x+PAGE_SIZE-1) & ~(PAGE_SIZE-1)`. -/
def pageUp (x : BitVec 64) : BitVec 64 := (x+4096#64-1#64) &&& pageMask

def pagesFrom (start : BitVec 64) (n : Nat) : List (BitVec 64) :=
  (List.range n).map (fun i => start+BitVec.ofNat 64 (i*4096))

/-- One turn of the loops of `SYS_BRK` and `SYS_MMAP`: a cleared frame, and `vmm_map`, whose status
is not looked at. -/
def mapZeroed (m : Machine) (va : BitVec 64) : Option Machine :=
  match pmmAllocPage m.pmm with
  | (none,_) => none
  | (some phys,p) => some (vmmMap { m with pmm := p, mem := zeroPage m.mem (pageOf phys) }
      (vmmCurrent m) va phys vmmFlagsUserData).2

/-- The loop, which stops when there is no frame left. -/
def mapZeroedAll : List (BitVec 64) → Machine → Bool × Machine
  | [],m => (true,m)
  | va::rest,m => (mapZeroed m va).elim (false,m) (mapZeroedAll rest)

/-- Pages that `SYS_BRK` maps. -/
def brkPages (t : Task) (addr : BitVec 64) : List (BitVec 64) :=
  let oldPageEnd := pageUp t.userBrk
  let newPageEnd := pageUp addr
  if oldPageEnd < newPageEnd then pagesFrom oldPageEnd ((newPageEnd-oldPageEnd).toNat/4096) else []

def sysBrk (k : Kernel) (t : Task) (addr : BitVec 64) : BitVec 64 × Kernel :=
  if addr = 0#64 ∨ addr = t.userBrk then (t.userBrk,k)
  else if addr < userHeapStart then (t.userBrk,k)
  else
    let k := k.withMach (mapZeroedAll (brkPages t addr) k.mach).2
    (addr,k.updateSelf (fun t => { t with userBrk := addr }))

/-- Pages that `SYS_MMAP` maps. -/
def mmapPages (t : Task) (len : BitVec 64) : List (BitVec 64) :=
  pagesFrom t.userMmapBase ((pageUp len).toNat/4096)

def sysMmap (k : Kernel) (t : Task) (len : BitVec 64) (flags : BitVec 32) : BitVec 64 × Kernel :=
  if flags &&& 0x22#32 ≠ 0x22#32 then (-22#64,k)
  else if len = 0#64 then (-22#64,k)
  else if userStackTop ≤ t.userMmapBase+pageUp len then (-12#64,k)
  else
    let r := mapZeroedAll (mmapPages t len) k.mach
    let k := k.withMach r.2
    if r.1 then
      (t.userMmapBase,k.updateSelf (fun t => { t with userMmapBase := t.userMmapBase+pageUp len }))
    else (-12#64,k)

def mprotectFlags (prot : BitVec 32) : BitVec 64 :=
  vmmPresent ||| vmmUser ||| (if prot &&& 2#32 ≠ 0#32 then vmmWrite else 0#64) |||
    (if prot &&& 4#32 = 0#32 then vmmNx else 0#64)

def sysMprotect (m : Machine) (addr len : BitVec 64) (prot : BitVec 32) : BitVec 64 × Machine :=
  if addr &&& 0xFFF#64 ≠ 0#64 then (-22#64,m)
  else if len = 0#64 then (0#64,m)
  else if !vmmCheckUserRange m (vmmCurrent m) addr len false then (-12#64,m)
  else
    let r := vmmProtect m (vmmCurrent m) addr len (mprotectFlags prot)
    if r.1 ≠ 0 then (-12#64,r.2) else (0#64,r.2)

/-- The rest of the kernel takes a buffer. -/
def allocBuffer (k : Kernel) (size : Nat) : Kernel :=
  match k.kmalloc size with
  | (none,k) => k
  | (some p,k) => { k with buffers := p::k.buffers }

/-- A buffer of the rest of the kernel goes back. -/
def freeBuffer (k : Kernel) (p : Nat) : Kernel :=
  { k.kfree (some p) with buffers := k.buffers.erase p }

/-- A driver takes pages. -/
def takePages (k : Kernel) (n : Nat) : Kernel :=
  match pmmPool.alloc k.pmm n with
  | (none,p) => k.withPmm p
  | (some a,p) => { k.withPmm p with pages := (a,n)::k.pages }

/-- A driver gives pages back. -/
def givePages (k : Kernel) (r : PageRun) : Kernel :=
  { k.withPmm (pmmFreePages k.pmm r.1 r.2) with pages := k.pages.erase r }

/-- The page below the stack top that `exec_run` draws. -/
def execStackVa (rand : BitVec 64) : BitVec 64 :=
  ((userStackTop-krandPageAlignedBelow rand (16#64*1024#64*1024#64)) &&& pageMask)-4096#64

/-- `exec_run` up to the jump to ring 3. `page` is what `build_initial_user_stack` writes; the three
numbers are those drawn for load bias, stack and `mmap` base. -/
def execRun (k : Kernel) (path : Nat) (file : Option VfsNode) (page : Fin 512 → BitVec 64)
    (biasRand stackRand mmapRand : BitVec 64) : Kernel :=
  match elfLoad k.mach file (vmmCurrent k.mach) biasRand with
  | (.error _,s) => taskExit (freeBuffer (k.withMach s.machine) path)
  | (.ok res,s) =>
    let k := k.withMach s.machine
    match pmmAllocPage k.pmm with
    | (none,p) => taskExit (freeBuffer (k.withPmm p) path)
    | (some phys,p) =>
      let m : Machine := ⟨fun n i => if n = pageOf phys then page i else k.mem n i,p,k.cr3⟩
      let stackVa := execStackVa stackRand
      let k := k.withMach (vmmMap m (vmmCurrent m) stackVa phys vmmFlagsUserData).2
      let k := k.updateSelf (fun t => { t with
        userBrk := res.highestVaddr
        userStackGuardVa := stackVa-4096#64
        userMmapBase := userMmapStart+krandPageAlignedBelow mmapRand (1024#64*1024#64*1024#64) })
      freeBuffer k path

end KiNBOL
