import KiNBOL.Kernel.SchedRun

namespace KiNBOL

/-- The scheduler and the tasks that were created and not reaped. -/
structure SchedRun where
  sched : Sched
  alive : List Nat

/-- One call into the scheduler, or a write of other code to memory that is no task's. A sleep or an
exit is followed by the yield as a step of its own, so that timer interrupts may come between. -/
inductive SchedOp
  | create (task stack : Option Nat)
  | schedule (now : Nat)
  | sleep (now ms : Nat)
  | exit
  | reap
  | others (task : Nat → SchedTask)

namespace SchedRun

def step (r : SchedRun) : SchedOp → Option SchedRun
  | .create task stack =>
    (r.sched.taskCreateInternal task stack).map (fun x => ⟨x.2,r.alive++x.1.toList⟩)
  | .schedule now => (r.sched.schedSchedule now).map (fun s => ⟨s,r.alive⟩)
  | .sleep now ms => some ⟨r.sched.sleepMs now ms,r.alive⟩
  | .exit => some ⟨r.sched.taskExit,r.alive⟩
  | .reap => r.sched.taskReaper.map (fun x => ⟨x.2,r.alive.diff x.1⟩)
  | .others task => some ⟨{ r.sched with task := task },r.alive⟩

/-- `kmalloc` hands out memory that is no live task's, a task that has exited only yields, and
`idle_task_entry` has no exit. -/
def Legal (r : SchedRun) : SchedOp → Prop
  | .create task _ => ∀ a, task = some a → a < 2^64 ∧ a ∉ r.alive
  | .sleep _ _ => ∀ c, r.sched.currentTask = some c → r.sched.state c ≠ .dead
  | .exit => r.sched.currentTask ≠ r.sched.idleTask
  | .others task => ∀ a ∈ r.alive, task a = r.sched.task a
  | _ => True

def Step (r r' : SchedRun) : Prop := ∃ op, r.Legal op ∧ r.step op = some r'

/-- After `sched_init` with an idle task. The idle task's stack is asked for after the kernel's, with
nothing freed in between. -/
structure Boots (r : SchedRun) (s : Sched) (task idle : Nat) (stack idleStack : Option Nat) :
    Prop where
  statics : s.headTask = none
  apart : task ≠ idle
  bound : task < 2^64 ∧ idle < 2^64
  refused : stack = none → idleStack = none
  init : s.schedInit (some task) stack (some idle) idleStack = some r.sched
  online : r.sched.idleTask ≠ none
  alive : r.alive = [task,idle]

end SchedRun

namespace Sched

variable {s s' : Sched} {a c now : Nat} {l alive : List Nat}

/-- Links change, and the list with them. -/
theorem Inv.relink (h : Inv s alive) (hlinks : LinksOnly s s') {alive' : List Nat}
    (hl : RingOk s' l) (hp : l.Perm alive') (hsub : ∀ a ∈ alive', a ∈ alive)
    (hcur : ∀ c, s.currentTask = some c → c ∈ alive') (hidle : ∀ i, s.idleTask = some i → i ∈ alive') :
    Inv s' alive' := by
  have htop : ∀ b top, StackTop s b top → StackTop s' b top := by
    intro b top ht
    obtain ⟨k,hk,hsize⟩ := ht
    obtain ⟨h1,h2⟩ := hlinks.stack b
    exact ⟨k,h1.trans hk,by rw [h2,hsize]⟩
  constructor
  · exact ⟨l,hl,hp⟩
  · obtain ⟨c,hc,he,ht⟩ := h.current
    exact ⟨c,hcur c he,hlinks.current.trans he,hlinks.rsp0 ▸ htop _ _ ht⟩
  · obtain ⟨i,hi,he,hd⟩ := h.idle
    exact ⟨i,hidle i he,hlinks.idle.trans he,(hlinks.state i).symm ▸ hd⟩
  · intro a ha hr
    rw [hlinks.current]
    exact h.running a (hsub a ha) ((hlinks.state a) ▸ hr)
  · intro a ha
    obtain ⟨top,ht⟩ := h.tops a (hsub a ha)
    exact ⟨top,htop _ _ ht⟩

/-- The scan of the reaper. -/
theorem findDead_spec (h : RingOk s l) : ∃ found, s.findDead = some found ∧
    ∀ a, found = some a → a ∈ l ∧ s.state a = .dead ∧ s.currentTask ≠ some a := by
  rw [findDead,h.head]
  cases l with
  | nil => exact ⟨none,rfl,by simp⟩
  | cons b m =>
    have hlen := h.length
    rw [List.length_cons] at hlen
    refine ⟨_,h.ring.seek_self (by omega),fun a ha => ?_⟩
    have hfound := List.find?_some ha
    obtain ⟨h1,h2⟩ := of_decide_eq_true hfound
    exact ⟨List.mem_of_find?_eq_some ha,h1,Ne.symm h2⟩

/-- `task_reaper` comes to an end, and what it destroys is dead and not current. -/
theorem reapLoop_spec (h : Inv s alive) {n : Nat} (hn : alive.length < n) :
    ∃ freed s', reapLoop n s = some (freed,s') ∧ Inv s' (alive.diff freed) ∧
      ∀ a ∈ freed, a ∈ alive ∧ s.state a = .dead ∧ s.currentTask ≠ some a := by
  induction n generalizing s alive with
  | zero => omega
  | succ n ih =>
    obtain ⟨l,hl,hp⟩ := h.list
    obtain ⟨found,hfind,hspec⟩ := findDead_spec hl
    cases found with
    | none =>
      refine ⟨[],s,?_,h,by simp⟩
      rw [reapLoop,hfind]
      rfl
    | some a =>
      obtain ⟨ha,hd,hc⟩ := hspec a rfl
      have hal := hp.mem_iff.mp ha
      obtain ⟨s₁,hrem,hl₁,hlinks⟩ := taskListRemove_spec hl ha
      have hother : ∀ b ∈ alive, b ≠ a → b ∈ alive.erase a := fun b hb hne =>
        (List.mem_erase_of_ne hne).mpr hb
      have h₁ : Inv s₁ (alive.erase a) := by
        apply h.relink hlinks hl₁ (hp.erase a) (fun b hb => List.mem_of_mem_erase hb)
        · intro c hcc
          obtain ⟨c',hc',he,-⟩ := h.current
          obtain rfl := Option.some.inj (he.symm.trans hcc)
          exact hother c' hc' (fun heq => hc (heq ▸ he))
        · intro i hi
          obtain ⟨i',hi',he,hid⟩ := h.idle
          obtain rfl := Option.some.inj (he.symm.trans hi)
          exact hother i' hi' (fun heq => hid (heq ▸ hd))
      have hlen : (alive.erase a).length < n := by
        rw [List.length_erase_of_mem hal]
        have := List.length_pos_of_mem hal
        omega
      obtain ⟨freed,s',hres,hinv,hfreed⟩ := ih h₁ hlen
      refine ⟨a::freed,s',?_,by rwa [List.diff_cons],?_⟩
      · rw [reapLoop,hfind]
        simp [hrem,hres]
      · intro b hb
        rcases List.mem_cons.mp hb with rfl | hb
        · exact ⟨hal,hd,hc⟩
        · obtain ⟨h1,h2,h3⟩ := hfreed b hb
          exact ⟨List.mem_of_mem_erase h1,(hlinks.state b) ▸ h2,hlinks.current ▸ h3⟩

theorem Inv.taskReaper (h : Inv s alive) :
    ∃ freed s', s.taskReaper = some (freed,s') ∧ Inv s' (alive.diff freed) ∧
      ∀ a ∈ freed, a ∈ alive ∧ s.state a = .dead ∧ s.currentTask ≠ some a := by
  obtain ⟨l,hl,hp⟩ := h.list
  exact reapLoop_spec h (hp.length_eq ▸ hl.length)

/-- The fields of a task are written; its links stay. -/
theorem RingOk.setTask (h : RingOk s l) {f : SchedTask → SchedTask}
    (hf : ∀ t, (f t).next = t.next ∧ (f t).prev = t.prev) (a : Nat) : RingOk (s.setTask a f) l := by
  have hlinks : ∀ b, (s.setTask a f).next b = s.next b ∧ (s.setTask a f).prev b = s.prev b := by
    intro b
    rw [next,prev,task_setTask]
    split_ifs with hb
    · rw [hb]
      exact hf _
    · exact ⟨rfl,rfl⟩
  exact h.congr hlinks rfl

/-- A task is written; it does not come to run, and the idle task does not die. -/
theorem Inv.stop (h : Inv s alive) {f : SchedTask → SchedTask}
    (hf : ∀ t, (f t).next = t.next ∧ (f t).prev = t.prev)
    (hstk : ∀ t, (f t).kernelStack = t.kernelStack ∧ (f t).stackSize = t.stackSize)
    (hrun : ∀ t, (f t).state = .running → t.state = .running)
    (hidle : s.idleTask = some a → ∀ t, (f t).state = .dead → t.state = .dead) :
    Inv (s.setTask a f) alive := by
  have htop : ∀ b top, StackTop s b top → StackTop (s.setTask a f) b top := by
    intro b top ht
    obtain ⟨k,hk,hsize⟩ := ht
    rw [StackTop,task_setTask]
    split_ifs with hb
    · rw [hb] at hk hsize
      exact ⟨k,(hstk _).1.trans hk,by rw [(hstk _).2,hsize]⟩
    · exact ⟨k,hk,hsize⟩
  constructor
  · obtain ⟨l,hl,hp⟩ := h.list
    exact ⟨l,hl.setTask hf a,hp⟩
  · obtain ⟨c,hc,he,ht⟩ := h.current
    exact ⟨c,hc,he,htop _ _ ht⟩
  · obtain ⟨i,hi,he,hd⟩ := h.idle
    refine ⟨i,hi,he,?_⟩
    rw [state,task_setTask]
    split_ifs with hia
    · exact fun h2 => hd (hia ▸ hidle (hia ▸ he) _ h2)
    · exact hd
  · intro b hb hr
    rw [state,task_setTask] at hr
    split_ifs at hr with hba
    · exact h.running b hb (hba ▸ hrun _ hr)
    · exact h.running b hb hr
  · intro b hb
    obtain ⟨top,ht⟩ := h.tops b hb
    exact ⟨top,htop _ _ ht⟩

theorem Inv.sleepMs (h : Inv s alive) (now ms : Nat) : Inv (s.sleepMs now ms) alive := by
  unfold Sched.sleepMs
  cases s.currentTask with
  | none => exact h
  | some c =>
    refine h.stop (fun t => ?_) (fun t => ?_) (fun t => ?_) (fun _ t => ?_)
    · exact ⟨rfl,rfl⟩
    · exact ⟨rfl,rfl⟩
    · exact fun h2 => TaskState.noConfusion h2
    · exact fun h2 => TaskState.noConfusion h2

theorem Inv.taskExit (h : Inv s alive) (hi : s.currentTask ≠ s.idleTask) : Inv s.taskExit alive := by
  unfold Sched.taskExit
  cases hc : s.currentTask with
  | none => exact h
  | some c =>
    refine h.stop (fun t => ?_) (fun t => ?_) (fun t => ?_) (fun he t => ?_)
    · exact ⟨rfl,rfl⟩
    · exact ⟨rfl,rfl⟩
    · exact fun h2 => TaskState.noConfusion h2
    · exact absurd (hc.trans he.symm) hi

/-- Writes outside the live tasks. -/
theorem Inv.others (h : Inv s alive) {task : Nat → SchedTask} (ht : ∀ a ∈ alive, task a = s.task a) :
    Inv { s with task := task } alive := by
  obtain ⟨l,hl,hp⟩ := h.list
  have htl : ∀ a ∈ l, task a = s.task a := fun a ha => ht a (hp.mem_iff.mp ha)
  have htop : ∀ b ∈ alive, ∀ top, StackTop s b top → StackTop { s with task := task } b top := by
    intro b hb top hk
    obtain ⟨k,h1,h2⟩ := hk
    exact ⟨k,(congrArg SchedTask.kernelStack (ht b hb)).trans h1,
      h2.trans (congrArg (k+·) (congrArg SchedTask.stackSize (ht b hb)).symm)⟩
  constructor
  · have hring : Ring (next { s with task := task }) (prev { s with task := task }) l :=
      hl.ring.congr (fun a ha => congrArg SchedTask.next (htl a ha))
        (fun a ha => congrArg SchedTask.prev (htl a ha))
    exact ⟨l,⟨hring,hl.head,hl.bound⟩,hp⟩
  · obtain ⟨c,hc,he,hk⟩ := h.current
    exact ⟨c,hc,he,htop c hc _ hk⟩
  · obtain ⟨i,hi,he,hd⟩ := h.idle
    exact ⟨i,hi,he,fun h2 => hd ((congrArg SchedTask.state (ht i hi)).symm.trans h2)⟩
  · intro a ha hr
    exact h.running a ha ((congrArg SchedTask.state (ht a ha)).symm.trans hr)
  · intro a ha
    obtain ⟨top,hk⟩ := h.tops a ha
    exact ⟨top,htop a ha _ hk⟩

/-- What a new task is like, and that the others stay. -/
structure Joined (s s' : Sched) (a stack : Nat) (st : TaskState) : Prop where
  task : ∀ b, b ≠ a → bare (s'.task b) = bare (s.task b)
  state : s'.state a = st
  top : StackTop s' a (stack+taskStackPages*pageSize)
  idle : s'.idleTask = s.idleTask

theorem Joined.stackTop {stack : Nat} {st : TaskState} (h : Joined s s' a stack st) {b top : Nat}
    (hb : b ≠ a) (ht : StackTop s b top) : StackTop s' b top := by
  obtain ⟨k,hk,hsize⟩ := ht
  have h1 := congrArg SchedTask.kernelStack (h.task b hb)
  have h2 := congrArg SchedTask.stackSize (h.task b hb)
  exact ⟨k,h1.trans hk,hsize.trans (congrArg (k+·) h2.symm)⟩

theorem Joined.state_other {stack : Nat} {st : TaskState} (h : Joined s s' a stack st) {b : Nat}
    (hb : b ≠ a) : s'.state b = s.state b := by
  have h1 := congrArg SchedTask.state (h.task b hb)
  exact h1

/-- A task struct is filled in and joins the list. -/
theorem enlist_spec (h : RingOk s l) (ha : a ∉ l) (hb : a < 2^64) (id : BitVec 32) (st : TaskState)
    (stack : Nat) (s₁ : Sched) (htask : s₁.task = (s.setTask a (fun t => { t with
      id := id, state := st, kernelStack := some stack,
      stackSize := taskStackPages*pageSize })).task) (hhead : s₁.headTask = s.headTask)
    (hidle : s₁.idleTask = s.idleTask) :
    ∃ s', s₁.taskListInsert a = some s' ∧ RingOk s' (l++[a]) ∧ Joined s s' a stack st ∧
      s'.currentTask = s₁.currentTask ∧ s'.rsp0 = s₁.rsp0 := by
  have hlinks : ∀ b, s₁.next b = s.next b ∧ s₁.prev b = s.prev b := by
    intro b
    rw [next,prev,htask,task_setTask]
    split_ifs with hba
    · rw [hba]
      exact ⟨rfl,rfl⟩
    · exact ⟨rfl,rfl⟩
  obtain ⟨s',hres,hl,hlo⟩ := taskListInsert_spec (h.congr hlinks hhead) ha hb
  refine ⟨s',hres,hl,⟨fun b hba => ?_,?_,?_,hlo.idle.trans hidle⟩,hlo.current,hlo.rsp0⟩
  · rw [hlo.task b,htask,task_setTask,if_neg hba]
  · rw [hlo.state a,state,htask,task_setTask,if_pos rfl]
  · obtain ⟨h1,h2⟩ := hlo.stack a
    rw [htask,task_setTask,if_pos rfl] at h1 h2
    exact ⟨stack,h1,by rw [h2]⟩

/-- `task_create`. -/
theorem Inv.create (h : Inv s alive) {task : Option Nat} (stack : Option Nat)
    (ht : ∀ a, task = some a → a < 2^64 ∧ a ∉ alive) :
    ∃ p s', s.taskCreateInternal task stack = some (p,s') ∧ Inv s' (alive++p.toList) := by
  cases task with
  | none => exact ⟨none,s,rfl,by simpa using h⟩
  | some a =>
    cases stack with
    | none => exact ⟨none,s,rfl,by simpa using h⟩
    | some stack =>
      obtain ⟨hb,ha⟩ := ht a rfl
      obtain ⟨l,hl,hp⟩ := h.list
      obtain ⟨s',hres,hl',hj,hcur,hrsp⟩ := enlist_spec hl (fun hm => ha (hp.mem_iff.mp hm)) hb
        s.nextPid .ready stack { s.setTask a (fun t => { t with
          id := s.nextPid, state := .ready, kernelStack := some stack,
          stackSize := taskStackPages*pageSize }) with nextPid := s.nextPid+1#32 } rfl rfl rfl
      have hother : ∀ b ∈ alive, b ≠ a := fun b hm he => ha (he ▸ hm)
      refine ⟨some a,s',?_,⟨⟨_,hl',hp.append_right _⟩,?_,?_,?_,?_⟩⟩
      · rw [taskCreateInternal]
        simp [hres]
      · obtain ⟨c,hc,he,htop⟩ := h.current
        exact ⟨c,List.mem_append_left _ hc,hcur.trans he,hrsp ▸ hj.stackTop (hother c hc) htop⟩
      · obtain ⟨i,hi,he,hd⟩ := h.idle
        exact ⟨i,List.mem_append_left _ hi,hj.idle.trans he,hj.state_other (hother i hi) ▸ hd⟩
      · intro b hm hr
        rcases List.mem_append.mp hm with hm | hm
        · rw [hj.state_other (hother b hm)] at hr
          exact hcur.trans (h.running b hm hr)
        · obtain rfl := List.mem_singleton.mp hm
          rw [hj.state] at hr
          cases hr
      · intro b hm
        rcases List.mem_append.mp hm with hm | hm
        · obtain ⟨top,htop⟩ := h.tops b hm
          exact ⟨top,hj.stackTop (hother b hm) htop⟩
        · obtain rfl := List.mem_singleton.mp hm
          exact ⟨_,hj.top⟩

end Sched

namespace SchedRun

variable {r r' : SchedRun}

/-- The invariant after `sched_init`. -/
theorem Boots.inv {s : Sched} {task idle : Nat} {stack idleStack : Option Nat}
    (h : r.Boots s task idle stack idleStack) : r.sched.Inv r.alive := by
  have hinit := h.init
  have honline := h.online
  rw [h.alive]
  generalize r.sched = s₂ at hinit honline
  have hempty : s.RingOk [] := ⟨Ring.nil,h.statics,by simp⟩
  cases stack with
  | none =>
    -- without a stack for the kernel there is no idle task
    rw [h.refused rfl,Sched.schedInit] at hinit
    cases hk : s.initKernelTask task none with
    | none => simp [hk] at hinit
    | some s₁ =>
      simp only [hk,Option.bind_some,Sched.taskCreateInternal,Option.map_some,
        Option.some.injEq] at hinit
      rw [← hinit] at honline
      exact absurd rfl honline
  | some k =>
    obtain ⟨s₁,hins,hl₁,hj₁,-,hrsp₁⟩ := Sched.enlist_spec hempty List.not_mem_nil h.bound.1
      s.nextPid .running k { s.setTask task (fun t => { t with
        id := s.nextPid, state := .running, kernelStack := some k,
        stackSize := taskStackPages*pageSize }) with
        nextPid := s.nextPid+1#32, rsp0 := k+taskStackPages*pageSize } rfl rfl rfl
    have hkern : s.initKernelTask task (some k) = some { s₁ with currentTask := some task } := by
      rw [Sched.initKernelTask]
      simp [hins]
    cases idleStack with
    | none =>
      simp only [Sched.schedInit,hkern,Option.bind_some,Sched.taskCreateInternal,Option.map_some,
        Option.some.injEq] at hinit
      rw [← hinit] at honline
      exact absurd rfl honline
    | some ks =>
      have hl₁' : Sched.RingOk { s₁ with currentTask := some task } [task] :=
        hl₁.congr (fun _ => ⟨rfl,rfl⟩) rfl
      have hidle : idle ∉ [task] := fun hm => h.apart (List.mem_singleton.mp hm).symm
      obtain ⟨s₃,hins₃,hl₃,hj₃,hcur₃,hrsp₃⟩ := Sched.enlist_spec hl₁' hidle h.bound.2 s₁.nextPid
        .ready ks { Sched.setTask { s₁ with currentTask := some task } idle (fun t => { t with
          id := s₁.nextPid, state := .ready, kernelStack := some ks,
          stackSize := taskStackPages*pageSize }) with nextPid := s₁.nextPid+1#32 } rfl rfl rfl
      have hs₂ : s₂ = { s₃ with idleTask := some idle } := by
        simp only [Sched.schedInit,hkern,Option.bind_some,Sched.taskCreateInternal,hins₃,
          Option.map_some,Option.some.injEq] at hinit
        exact hinit.symm
      have hne : task ≠ idle := h.apart
      have htask : s₃.state task = .running := (hj₃.state_other hne).trans hj₁.state
      have htop : Sched.StackTop s₃ task (k+taskStackPages*pageSize) := hj₃.stackTop hne hj₁.top
      rw [hs₂]
      constructor
      · exact ⟨[task,idle],hl₃.congr (fun _ => ⟨rfl,rfl⟩) rfl,List.Perm.refl _⟩
      · refine ⟨task,by simp,hcur₃,?_⟩
        have hr : s₃.rsp0 = k+taskStackPages*pageSize := hrsp₃.trans hrsp₁
        change Sched.StackTop s₃ task s₃.rsp0
        exact hr ▸ htop
      · refine ⟨idle,by simp,rfl,?_⟩
        have hst : s₃.state idle = .ready := hj₃.state
        change s₃.state idle ≠ .dead
        rw [hst]
        exact TaskState.noConfusion
      · intro b hb hr
        have hst : s₃.state idle = .ready := hj₃.state
        change s₃.state b = .running at hr
        rcases List.mem_cons.mp hb with he | hb
        · rw [he]
          exact hcur₃
        · rw [List.mem_singleton.mp hb,hst] at hr
          cases hr
      · intro b hb
        rcases List.mem_cons.mp hb with he | hb
        · exact ⟨_,he ▸ htop⟩
        · exact ⟨_,List.mem_singleton.mp hb ▸ hj₃.top⟩

/-- One step keeps the invariant, and does not fail. -/
theorem step_inv (h : r.sched.Inv r.alive) {op : SchedOp} (hop : r.Legal op) :
    ∃ r', r.step op = some r' ∧ r'.sched.Inv r'.alive := by
  cases op with
  | create task stack =>
    obtain ⟨p,s',hres,hinv⟩ := h.create stack hop
    exact ⟨⟨s',r.alive++p.toList⟩,by rw [step,hres]; rfl,hinv⟩
  | schedule now =>
    obtain ⟨s',c,hres,hinv,-⟩ := h.schedSchedule now
    exact ⟨⟨s',r.alive⟩,by rw [step,hres]; rfl,hinv⟩
  | sleep now ms => exact ⟨_,rfl,h.sleepMs now ms⟩
  | exit => exact ⟨_,rfl,h.taskExit hop⟩
  | reap =>
    obtain ⟨freed,s',hres,hinv,-⟩ := h.taskReaper
    exact ⟨⟨s',r.alive.diff freed⟩,by rw [step,hres]; rfl,hinv⟩
  | others task => exact ⟨_,rfl,h.others hop⟩

/-- What is claimed of the scheduler between any two calls. -/
structure Sound (r : SchedRun) : Prop where
  ring : ∃ l, Ring r.sched.next r.sched.prev l ∧ r.sched.headTask = l.head? ∧ l.Perm r.alive
  current : ∃ c ∈ r.alive, r.sched.currentTask = some c
  running : ∀ a ∈ r.alive, r.sched.state a = .running → r.sched.currentTask = some a
  schedule : ∀ now, ∃ s' c, r.sched.schedSchedule now = some s' ∧ s'.currentTask = some c ∧
    c ∈ r.alive ∧ r.sched.state c ≠ .dead ∧
    (r.sched.currentTask ≠ some c → s'.state c = .running ∧ Sched.StackTop s' c s'.rsp0)
  reap : ∃ freed s', r.sched.taskReaper = some (freed,s') ∧
    ∀ a ∈ freed, a ∈ r.alive ∧ r.sched.state a = .dead ∧ r.sched.currentTask ≠ some a
  returns : ∀ op, r.Legal op → ∃ r', r.step op = some r'

/-- The scheduler in every run from `sched_init`. -/
theorem sched_run_sound {r₀ r : SchedRun} {s : Sched} {task idle : Nat} {stack idleStack : Option Nat}
    (h₀ : r₀.Boots s task idle stack idleStack) (hr : Relation.ReflTransGen Step r₀ r) :
    r.Sound := by
  have h : r.sched.Inv r.alive := by
    induction hr with
    | refl => exact h₀.inv
    | tail _ hstep ih =>
      obtain ⟨op,hop,hres⟩ := hstep
      obtain ⟨r',hres',hinv⟩ := step_inv ih hop
      obtain rfl := Option.some.inj (hres.symm.trans hres')
      exact hinv
  constructor
  · obtain ⟨l,hl,hp⟩ := h.list
    exact ⟨l,hl.ring,hl.head,hp⟩
  · obtain ⟨c,hc,he,-⟩ := h.current
    exact ⟨c,hc,he⟩
  · exact h.running
  · intro now
    obtain ⟨s',c,hres,-,hc⟩ := h.schedSchedule now
    exact ⟨s',c,hres,hc.current,hc.mem,hc.alive,hc.switched⟩
  · obtain ⟨freed,s',hres,-,hfreed⟩ := h.taskReaper
    exact ⟨freed,s',hres,hfreed⟩
  · intro op hop
    obtain ⟨r',hres,-⟩ := step_inv h hop
    exact ⟨r',hres⟩

/-- The statics at boot. -/
def bootSched : Sched := ⟨fun _ => ⟨0#32,.ready,0,none,0,none,none⟩,none,none,none,0#32,0⟩

/-- After `sched_init` with structs at 4096 and 8192. -/
def onlineRun : SchedRun :=
  ⟨((bootSched.schedInit (some 4096) (some 65536) (some 8192) (some 131072)).getD bootSched),
    [4096,8192]⟩

def startedRun : SchedRun :=
  (onlineRun.step (.create (some 12288) (some 196608))).getD onlineRun
def sleepingRun : SchedRun := (startedRun.step (.sleep 5 10)).getD onlineRun
def switchedRun : SchedRun := (sleepingRun.step (.schedule 6)).getD onlineRun

theorem onlineRun_boots : onlineRun.Boots bootSched 4096 8192 (some 65536) (some 131072) :=
  ⟨rfl,by decide,by decide,by simp,rfl,by decide,rfl⟩

theorem startedRun_step : Step onlineRun startedRun := by
  refine ⟨.create (some 12288) (some 196608),fun a ha => ?_,rfl⟩
  obtain rfl := Option.some.inj ha
  decide

theorem sched_run_sound_sample : switchedRun.Sound ∧ switchedRun.sched.currentTask = some 12288 := by
  have h2 : Step startedRun sleepingRun := ⟨.sleep 5 10,by
    intro c hc
    obtain rfl : 4096 = c := Option.some.inj hc
    decide,rfl⟩
  have hsome : (sleepingRun.step (.schedule 6)).isSome = true := by decide
  have h3 : Step sleepingRun switchedRun := ⟨.schedule 6,trivial,by
    cases hx : sleepingRun.step (.schedule 6) with
    | none => simp [hx] at hsome
    | some r => rw [switchedRun,hx,Option.getD_some]⟩
  have hrun := ((Relation.ReflTransGen.refl.tail startedRun_step).tail h2).tail h3
  exact ⟨sched_run_sound onlineRun_boots hrun,by decide⟩

end SchedRun

end KiNBOL
