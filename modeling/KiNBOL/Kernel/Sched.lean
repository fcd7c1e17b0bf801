import KiNBOL.Kernel.Task
import KiNBOL.Framework.Ring

namespace KiNBOL

/-- `task_t` as the scheduler uses it; pointers into a stack are its address and size. -/
structure SchedTask where
  id : BitVec 32
  state : TaskState
  wakeTimeMs : Nat
  kernelStack : Option Nat
  stackSize : Nat
  next : Option Nat
  prev : Option Nat

/-- The task structs by address, the globals of `sched.c` and the TSS. -/
structure Sched where
  task : Nat → SchedTask
  headTask : Option Nat
  currentTask : Option Nat
  idleTask : Option Nat
  nextPid : BitVec 32
  rsp0 : Nat

namespace Sched

def next (s : Sched) (a : Nat) : Option Nat := (s.task a).next
def prev (s : Sched) (a : Nat) : Option Nat := (s.task a).prev
def state (s : Sched) (a : Nat) : TaskState := (s.task a).state

/-- Writing fields of a task. -/
def setTask (s : Sched) (a : Nat) (f : SchedTask → SchedTask) : Sched :=
  { s with task := Function.update s.task a (f (s.task a)) }

def setNext (s : Sched) (a : Nat) (p : Option Nat) : Sched :=
  s.setTask a (fun t => { t with next := p })
def setPrev (s : Sched) (a : Nat) (p : Option Nat) : Sched :=
  s.setTask a (fun t => { t with prev := p })
def setState (s : Sched) (a : Nat) (st : TaskState) : Sched :=
  s.setTask a (fun t => { t with state := st })

/-- `task_list_insert`; no result where NULL is dereferenced. -/
def taskListInsert (s : Sched) (task : Nat) : Option Sched :=
  match s.headTask with
  | none => some { (s.setNext task (some task)).setPrev task (some task) with headTask := some task }
  | some head =>
    match s.prev head with
    | none => none
    | some tail => some ((((s.setNext tail (some task)).setPrev task (some tail)).setNext task
        (some head)).setPrev head (some task))

/-- The links of the neighbours in `task_list_remove`. -/
def unlink (s : Sched) (task : Nat) : Option Sched :=
  match s.prev task,s.next task with
  | some p,some n =>
    let s := (s.setNext p (some n)).setPrev n (some p)
    some (if s.headTask = some task then { s with headTask := s.next task } else s)
  | _,_ => none

/-- `task_list_remove`. -/
def taskListRemove (s : Sched) (task : Nat) : Option Sched :=
  if s.headTask = none then some s
  else if s.next task = some task then
    some ((({ s with headTask := none }).setNext task none).setPrev task none)
  else (s.unlink task).map (fun s => (s.setNext task none).setPrev task none)

/-- `task_create_internal`: `task` and `stack` are what `kmalloc` and `pmm_alloc_pages_contiguous`
return. `wake_time_ms` keeps what is there. -/
def taskCreateInternal (s : Sched) (task stack : Option Nat) : Option (Option Nat × Sched) :=
  match task,stack with
  | some a,some stack =>
    let s := { s.setTask a (fun t => { t with
      id := s.nextPid
      state := .ready
      kernelStack := some stack
      stackSize := taskStackPages*pageSize }) with nextPid := s.nextPid+1#32 }
    (s.taskListInsert a).map (fun s => (some a,s))
  | _,_ => some (none,s)

/-- The task of the running kernel in `sched_init`, in the list. -/
def initKernelTask (s : Sched) (a : Nat) (stack : Option Nat) : Option Sched :=
  let size := if stack = none then 0 else taskStackPages*pageSize
  let s := { s.setTask a (fun t => { t with
    id := s.nextPid
    state := .running
    kernelStack := stack
    stackSize := size }) with
    nextPid := s.nextPid+1#32
    rsp0 := stack.elim s.rsp0 (fun k => k+size) }
  (s.taskListInsert a).map (fun s => { s with currentTask := some a })

/-- `sched_init`, with what the allocations for the kernel's task and the idle task return. -/
def schedInit (s : Sched) (task stack idle idleStack : Option Nat) : Option Sched :=
  match task with
  | none => some s
  | some a => (s.initKernelTask a stack).bind (fun s =>
    (s.taskCreateInternal idle idleStack).map (fun r => { r.2 with idleTask := r.1 }))

/-- One turn of `sched_update_blocked_tasks`. -/
def wakeTask (now : Nat) (s : Sched) (a : Nat) : Sched :=
  if s.state a = .blocked ∧ 0 < (s.task a).wakeTimeMs ∧ (s.task a).wakeTimeMs ≤ now then
    s.setTask a (fun t => { t with state := .ready, wakeTimeMs := 0 })
  else s

def updateLoop (now head : Nat) : Nat → Nat → Sched → Option Sched
  | 0,_,_ => none
  | n+1,iter,s =>
    let s := s.wakeTask now iter
    match s.next iter with
    | none => some s
    | some iter => if iter = head then some s else updateLoop now head n iter s

/-- `sched_update_blocked_tasks` when it is `now` ms. -/
def schedUpdateBlockedTasks (s : Sched) (now : Nat) : Option Sched :=
  match s.headTask with
  | none => some s
  | some head => updateLoop now head listBound head s

/-- The loop that looks for the next task to run. -/
def pickReady (s : Sched) (start first : Nat) : Option (Option Nat) :=
  seek s.next (fun a => decide (some a ≠ s.idleTask ∧ s.state a = .ready)) start none listBound first

/-- Whom `sched_schedule` takes when no other task is ready; the current task goes on when it is
taken. -/
def fallback (s : Sched) (cur : Nat) : Option Nat :=
  if s.idleTask.any (fun i => s.state i = .ready) then s.idleTask
  else if s.state cur = .running then some cur
  else s.idleTask

/-- The old task in `sched_schedule`: one that runs is ready from now on. -/
def leave (s : Sched) (cur : Nat) : Sched :=
  if s.state cur = .running then s.setState cur .ready else s

/-- From the choice to `context_switch`. -/
def switchTo (s : Sched) (cur chosen : Nat) : Sched :=
  let s := (s.leave cur).setState chosen .running
  { s with
    currentTask := some chosen
    rsp0 := (s.task chosen).kernelStack.elim s.rsp0 (fun k => k+(s.task chosen).stackSize) }

/-- `sched_schedule`, to the point where the chosen task has the processor. -/
def schedSchedule (s : Sched) (now : Nat) : Option Sched :=
  match s.currentTask,s.headTask with
  | some cur,some head => do
    let s ← s.schedUpdateBlockedTasks now
    let start := if (s.next cur).isSome then cur else head
    match s.next start with
    | none => some s
    | some first =>
      let found ← s.pickReady start first
      let chosen ← found.or (s.fallback cur)
      if chosen = cur then some s else some (s.switchTo cur chosen)
  | _,_ => some s

/-- `sleep_ms` up to the yield. -/
def sleepMs (s : Sched) (now ms : Nat) : Sched :=
  match s.currentTask with
  | none => s
  | some cur => s.setTask cur (fun t => { t with wakeTimeMs := (now+ms)%2^64, state := .blocked })

/-- `task_exit` up to the yield. -/
def taskExit (s : Sched) : Sched :=
  match s.currentTask with
  | none => s
  | some cur => s.setState cur .dead

/-- The scan of `task_reaper` for a dead task. -/
def findDead (s : Sched) : Option (Option Nat) :=
  match s.headTask with
  | none => some none
  | some head => seek s.next (fun a => decide (s.state a = .dead ∧ some a ≠ s.currentTask)) head
      (some none) listBound head

/-- `task_reaper`, with the tasks that it passed to `task_destroy`. -/
def reapLoop : Nat → Sched → Option (List Nat × Sched)
  | 0,_ => none
  | n+1,s => do
    match ← s.findDead with
    | none => some ([],s)
    | some a =>
      let s ← s.taskListRemove a
      let (freed,s) ← reapLoop n s
      some (a::freed,s)

def taskReaper (s : Sched) : Option (List Nat × Sched) := reapLoop listBound s

end Sched

end KiNBOL
