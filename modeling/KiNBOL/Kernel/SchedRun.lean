import KiNBOL.Kernel.SchedList
import Mathlib.Data.List.Basic
import Mathlib.Logic.Relation

namespace KiNBOL

namespace Sched

variable {s s' : Sched} {a c now : Nat} {l alive : List Nat}

theorem RingOk.congr (h : RingOk s l) (hlinks : ∀ a, s'.next a = s.next a ∧ s'.prev a = s.prev a)
    (hhead : s'.headTask = s.headTask) : RingOk s' l :=
  ⟨h.ring.congr (fun a _ => (hlinks a).1) (fun a _ => (hlinks a).2),hhead.trans h.head,h.bound⟩

/-- Sleepers whose time has come may be ready, and nothing else changed. -/
structure Woken (s s' : Sched) : Prop where
  task : ∀ a, s'.task a = s.task a ∨
    s.state a = .blocked ∧ s'.task a = { s.task a with state := .ready, wakeTimeMs := 0 }
  rest : s' = { s with task := s'.task }

theorem Woken.refl (s : Sched) : Woken s s := ⟨fun _ => Or.inl rfl,rfl⟩

theorem Woken.links (h : Woken s s') (a : Nat) : s'.next a = s.next a ∧ s'.prev a = s.prev a := by
  rw [next,prev,next,prev]
  rcases h.task a with h1 | ⟨-,h1⟩ <;> rw [h1] <;> exact ⟨rfl,rfl⟩

theorem Woken.step (h : Woken s s') (now a : Nat) : Woken s (s'.wakeTask now a) := by
  unfold wakeTask
  split_ifs with hb
  · constructor
    · intro b
      rw [task_setTask]
      split_ifs with hba
      · rw [hba]
        rcases h.task a with h1 | ⟨h0,h1⟩
        · have hst : s.state a = .blocked := by
            rw [state,← h1]
            exact hb.1
          exact Or.inr ⟨hst,by rw [h1]⟩
        · exact Or.inr ⟨h0,by rw [h1]⟩
      · exact h.task b
    · rw [h.rest]
      rfl
  · exact h

theorem Woken.foldl {s₁ : Sched} (hw : Woken s s₁) (now : Nat) (l : List Nat) :
    Woken s (l.foldl (wakeTask now) s₁) := by
  induction l generalizing s₁ with
  | nil => exact hw
  | cons a l ih =>
    rw [List.foldl_cons]
    exact ih (hw.step now a)

/-- The loop of `sched_update_blocked_tasks` ends once it is around. -/
theorem updateLoop_spec {x : Option Nat} {head n : Nat} {s₁ : Sched} (hw : Woken s s₁)
    (h : Linked s.next s.prev x (a::l) (some head)) (hs : head ∉ l) (hn : l.length < n) :
    updateLoop now head n a s₁ = some ((a::l).foldl (wakeTask now) s₁) := by
  induction l generalizing a x n s₁ with
  | nil =>
    obtain ⟨n,rfl⟩ := Nat.exists_eq_succ_of_ne_zero (show n ≠ 0 by simp at hn; omega)
    obtain ⟨-,hnext,-⟩ := h
    have hw' := hw.step now a
    rw [updateLoop]
    simp [(hw'.links a).1,hnext]
  | cons b m ih =>
    obtain ⟨n,rfl⟩ := Nat.exists_eq_succ_of_ne_zero (show n ≠ 0 by simp at hn; omega)
    obtain ⟨-,hnext,hl⟩ := h
    have hb : b ≠ head := fun he => hs (by simp [he])
    have hw' := hw.step now a
    have hrec := ih hw' hl (fun hm => hs (by simp [hm])) (by simpa using hn)
    rw [updateLoop]
    simp only [(hw'.links a).1,hnext,List.head?_cons,Option.some_or,if_neg hb]
    exact hrec

/-- `sched_update_blocked_tasks` looks at each task of the list. -/
theorem schedUpdateBlockedTasks_eq (h : RingOk s l) (now : Nat) :
    s.schedUpdateBlockedTasks now = some (l.foldl (wakeTask now) s) := by
  rw [schedUpdateBlockedTasks,h.head]
  cases l with
  | nil => rfl
  | cons a m =>
    have hlen := h.length
    rw [List.length_cons] at hlen
    exact updateLoop_spec (Woken.refl s) h.ring.linked (List.nodup_cons.mp h.ring.nodup).1
      (by omega)

/-- Whether the search may stop at a task. -/
def runnable (s : Sched) (a : Nat) : Bool := decide (some a ≠ s.idleTask ∧ s.state a = .ready)

/-- The search for a ready task goes around once, from the task after the current one; a task that
is alone comes to itself. -/
theorem pickReady_find {l₁ l₂ : List Nat} (h : RingOk s (l₁++c::l₂)) : ∃ first,
    s.next c = some first ∧ s.pickReady c first =
      some ((if l₂++l₁ = [] then [c] else l₂++l₁).find? s.runnable) := by
  have hrot : Ring s.next s.prev (c::(l₂++l₁)) := h.ring.rotate
  have hlen := h.length
  rw [List.length_append,List.length_cons] at hlen
  obtain ⟨hn,-⟩ := hrot.first
  cases hrest : l₂++l₁ with
  | nil =>
    rw [hrest] at hrot hn
    exact ⟨c,hn,hrot.seek_self (by simp [listBound])⟩
  | cons b m =>
    have hm : m.length < listBound := by
      have := congrArg List.length hrest
      rw [List.length_append,List.length_cons] at this
      omega
    rw [hrest] at hrot hn
    exact ⟨b,hn,hrot.seek_next hm⟩

/-- The top of a task's kernel stack. -/
def StackTop (s : Sched) (a top : Nat) : Prop :=
  ∃ k, (s.task a).kernelStack = some k ∧ top = k+(s.task a).stackSize

/-- What holds between any two calls; `alive` are the tasks that were created and not reaped. -/
structure Inv (s : Sched) (alive : List Nat) : Prop where
  list : ∃ l, RingOk s l ∧ l.Perm alive
  current : ∃ c ∈ alive, s.currentTask = some c ∧ StackTop s c s.rsp0
  idle : ∃ i ∈ alive, s.idleTask = some i ∧ s.state i ≠ .dead
  running : ∀ a ∈ alive, s.state a = .running → s.currentTask = some a
  tops : ∀ a ∈ alive, ∃ top, StackTop s a top

/-- Whom `sched_schedule` runs next is in the list and not dead. -/
structure Chosen (s s' : Sched) (alive : List Nat) (c : Nat) : Prop where
  mem : c ∈ alive
  alive : s.state c ≠ .dead
  current : s'.currentTask = some c
  switched : s.currentTask ≠ some c → s'.state c = .running ∧ StackTop s' c s'.rsp0

theorem Woken.state (h : Woken s s') (a : Nat) :
    s'.state a = s.state a ∨ s.state a = .blocked ∧ s'.state a = .ready := by
  rw [Sched.state,Sched.state]
  rcases h.task a with h1 | ⟨h0,h1⟩
  · exact Or.inl (by rw [h1])
  · exact Or.inr ⟨h0,by rw [h1]⟩

theorem Woken.stackTop (h : Woken s s') {a top : Nat} (ht : StackTop s a top) :
    StackTop s' a top := by
  obtain ⟨k,hk,hsize⟩ := ht
  rcases h.task a with h1 | ⟨-,h1⟩
  · exact ⟨k,by rw [h1,hk],by rw [h1,hsize]⟩
  · exact ⟨k,by rw [h1,hk],by rw [h1,hsize]⟩

/-- Waking sleepers keeps the invariant. -/
theorem Inv.woken (h : Inv s alive) (hw : Woken s s') : Inv s' alive := by
  have hcur : s'.currentTask = s.currentTask := by rw [hw.rest]
  have hidle : s'.idleTask = s.idleTask := by rw [hw.rest]
  have hhead : s'.headTask = s.headTask := by rw [hw.rest]
  have hrsp : s'.rsp0 = s.rsp0 := by rw [hw.rest]
  constructor
  · obtain ⟨l,hl,hp⟩ := h.list
    exact ⟨l,hl.congr hw.links hhead,hp⟩
  · obtain ⟨c,hc,he,ht⟩ := h.current
    exact ⟨c,hc,hcur.trans he,hrsp ▸ hw.stackTop ht⟩
  · obtain ⟨i,hi,he,hd⟩ := h.idle
    refine ⟨i,hi,hidle.trans he,?_⟩
    rcases hw.state i with h1 | ⟨-,h1⟩
    · rwa [h1]
    · rw [h1]
      decide
  · intro a ha hr
    rw [hcur]
    rcases hw.state a with h1 | ⟨-,h1⟩
    · exact h.running a ha (h1 ▸ hr)
    · rw [h1] at hr
      cases hr
  · intro a ha
    obtain ⟨top,ht⟩ := h.tops a ha
    exact ⟨top,hw.stackTop ht⟩

theorem state_setState (s : Sched) (a : Nat) (st : TaskState) (b : Nat) :
    (s.setState a st).state b = if b = a then st else s.state b := by
  rw [state,setState,task_setTask]
  split_ifs <;> rfl

/-- Changing the state of one task. -/
theorem setState_spec (s : Sched) (a : Nat) (st : TaskState) :
    (∀ b, (s.setState a st).next b = s.next b ∧ (s.setState a st).prev b = s.prev b) ∧
    ∀ b top, StackTop (s.setState a st) b top ↔ StackTop s b top := by
  constructor
  · intro b
    rw [next,prev,setState,task_setTask]
    split_ifs with hb
    · rw [hb]
      exact ⟨rfl,rfl⟩
    · exact ⟨rfl,rfl⟩
  · intro b top
    rw [StackTop,StackTop,setState,task_setTask]
    split_ifs with hb
    · rw [hb]
    · rfl

theorem leave_spec (s : Sched) (cur : Nat) : (∀ b, (s.leave cur).next b = s.next b ∧
    (s.leave cur).prev b = s.prev b) ∧ (∀ b top, StackTop (s.leave cur) b top ↔ StackTop s b top) ∧
    (∀ b, (s.leave cur).state b = s.state b ∨
      b = cur ∧ s.state b = .running ∧ (s.leave cur).state b = .ready) ∧
    (s.leave cur).state cur ≠ .running ∧ (s.leave cur).headTask = s.headTask ∧
    (s.leave cur).idleTask = s.idleTask := by
  unfold leave
  split_ifs with hr
  · obtain ⟨h1,h2⟩ := setState_spec s cur .ready
    refine ⟨h1,h2,fun b => ?_,?_,rfl,rfl⟩
    · rw [state_setState]
      split_ifs with hb
      · exact Or.inr ⟨hb,hb ▸ hr,rfl⟩
      · exact Or.inl rfl
    · rw [state_setState,if_pos rfl]
      decide
  · exact ⟨fun _ => ⟨rfl,rfl⟩,fun _ _ => Iff.rfl,fun _ => Or.inl rfl,hr,rfl,rfl⟩

/-- A switch from the current task to another one of the list. -/
theorem Inv.switchTo (h : Inv s alive) (hcur : s.currentTask = some a) (hc : c ∈ alive) :
    Inv (s.switchTo a c) alive ∧ (s.switchTo a c).currentTask = some c ∧
      (s.switchTo a c).state c = .running ∧ StackTop (s.switchTo a c) c (s.switchTo a c).rsp0 := by
  obtain ⟨l1,t1,st1,hleft,hh1,hi1⟩ := leave_spec s a
  obtain ⟨l2,t2⟩ := setState_spec (s.leave a) c .running
  obtain ⟨top,k,hk,hsize⟩ := h.tops c hc
  have htop : ∀ b top, StackTop (s.switchTo a c) b top ↔ StackTop s b top :=
    fun b top => (t2 b top).trans (t1 b top)
  have hstate : ∀ b, (s.switchTo a c).state b = if b = c then .running else (s.leave a).state b :=
    fun b => state_setState (s.leave a) c .running b
  have hrun : (s.switchTo a c).state c = .running := by rw [hstate,if_pos rfl]
  have hrsp : StackTop (s.switchTo a c) c (s.switchTo a c).rsp0 := by
    obtain ⟨k',hk',hsize'⟩ := (htop c top).mpr ⟨k,hk,hsize⟩
    refine ⟨k',hk',?_⟩
    change (((s.leave a).setState c .running).task c).kernelStack.elim _ _ = _
    have hk2 : (((s.leave a).setState c .running).task c).kernelStack = some k' := hk'
    rw [hk2]
    rfl
  refine ⟨⟨?_,⟨c,hc,rfl,hrsp⟩,?_,?_,?_⟩,rfl,hrun,hrsp⟩
  · obtain ⟨l,hl,hp⟩ := h.list
    exact ⟨l,hl.congr (fun b => ⟨(l2 b).1.trans (l1 b).1,(l2 b).2.trans (l1 b).2⟩) hh1,hp⟩
  · obtain ⟨i,hi,he,hd⟩ := h.idle
    refine ⟨i,hi,hi1.trans he,?_⟩
    rw [hstate]
    split_ifs with hic
    · decide
    · rcases st1 i with h1 | ⟨-,-,h1⟩
      · rwa [h1]
      · rw [h1]
        decide
  · intro b hb hr
    rw [hstate] at hr
    split_ifs at hr with hbc
    · rw [hbc]
      rfl
    · have hba : b ≠ a := by
        intro he
        rw [he] at hr
        exact hleft hr
      rcases st1 b with h1 | ⟨he,-,-⟩
      · have hb2 := h.running b hb (h1 ▸ hr)
        rw [hcur] at hb2
        exact absurd (Option.some.inj hb2).symm hba
      · exact absurd he hba
  · intro b hb
    obtain ⟨top,ht⟩ := h.tops b hb
    exact ⟨top,(htop b top).mpr ht⟩

/-- `sched_schedule` called by the task `c` of the list: sleepers are woken, and the first task after
`c` that may run is taken, or what `fallback` says. -/
theorem schedSchedule_eq {l₁ l₂ : List Nat} (h : RingOk s (l₁++c::l₂))
    (hcur : s.currentTask = some c) (now : Nat) : ∃ s₁, s.schedUpdateBlockedTasks now = some s₁ ∧
    Woken s s₁ ∧ s.schedSchedule now =
      (((if l₂++l₁ = [] then [c] else l₂++l₁).find? s₁.runnable).or (s₁.fallback c)).bind
        (fun a => if a = c then some s₁ else some (s₁.switchTo c a)) := by
  obtain ⟨head,hhead⟩ : ∃ head, s.headTask = some head := by
    rw [h.head]
    exact ⟨_,List.head?_eq_some_head (by simp)⟩
  obtain ⟨s₁,hupd,hw⟩ : ∃ s₁, s.schedUpdateBlockedTasks now = some s₁ ∧ Woken s s₁ :=
    ⟨_,schedUpdateBlockedTasks_eq h now,(Woken.refl s).foldl now _⟩
  have h₁ : RingOk s₁ (l₁++c::l₂) := h.congr hw.links (by rw [hw.rest])
  obtain ⟨first,hnext,hpick⟩ := pickReady_find h₁
  refine ⟨s₁,hupd,hw,?_⟩
  rw [Sched.schedSchedule,hcur,hhead]
  simp only [hupd,hnext,hpick,Option.isSome_some,if_true,Option.bind_eq_bind,Option.bind_some]

/-- `sched_schedule` comes to an end; it chooses a task that is ready, the current one where that
runs, or the idle task. -/
theorem Inv.choice (h : Inv s alive) (now : Nat) : ∃ s₁ cur c,
    s.schedUpdateBlockedTasks now = some s₁ ∧ Woken s s₁ ∧ s.currentTask = some cur ∧ c ∈ alive ∧
    (s₁.state c = .ready ∨ s₁.state c = .running ∨ s.idleTask = some c) ∧
    s.schedSchedule now = some (if c = cur then s₁ else s₁.switchTo cur c) := by
  obtain ⟨l,hl,hp⟩ := h.list
  obtain ⟨cur,hcur,hce,-⟩ := h.current
  obtain ⟨l₁,l₂,rfl⟩ := List.append_of_mem (hp.mem_iff.mpr hcur)
  obtain ⟨s₁,hupd,hw,hres⟩ := schedSchedule_eq hl hce now
  obtain ⟨c,hchosen,hc,hcd⟩ : ∃ c, ((if l₂++l₁ = [] then [cur] else l₂++l₁).find? s₁.runnable).or
      (s₁.fallback cur) = some c ∧ c ∈ alive ∧
      (s₁.state c = .ready ∨ s₁.state c = .running ∨ s.idleTask = some c) := by
    cases hfound : (if l₂++l₁ = [] then [cur] else l₂++l₁).find? s₁.runnable with
    | some a =>
      have hmem := List.mem_of_find?_eq_some hfound
      have hrun : s₁.runnable a = true := List.find?_some hfound
      have hr := of_decide_eq_true hrun
      refine ⟨a,rfl,hp.mem_iff.mp ?_,Or.inl hr.2⟩
      split at hmem
      · simp at hmem
        simp [hmem]
      · simp only [List.mem_append,List.mem_cons] at hmem ⊢
        tauto
    | none =>
      obtain ⟨i,hi,hie,-⟩ := h.idle
      have hie₁ : s₁.idleTask = some i := by
        rw [hw.rest]
        exact hie
      rw [Option.none_or,fallback,hie₁]
      split_ifs with h1 h2
      · exact ⟨i,rfl,hi,Or.inr (Or.inr hie)⟩
      · exact ⟨cur,rfl,hcur,Or.inr (Or.inl h2)⟩
      · exact ⟨i,rfl,hi,Or.inr (Or.inr hie)⟩
  refine ⟨s₁,cur,c,hupd,hw,hce,hc,hcd,?_⟩
  rw [hres,hchosen,Option.bind_some]
  split <;> rfl

/-- `sched_schedule` keeps the invariant and chooses no dead task. -/
theorem Inv.schedSchedule (h : Inv s alive) (now : Nat) :
    ∃ s' c, s.schedSchedule now = some s' ∧ Inv s' alive ∧ Chosen s s' alive c := by
  obtain ⟨s₁,cur,c,-,hw,hce,hc,hst,hres⟩ := h.choice now
  have h₁ := h.woken hw
  have hcur₁ : s₁.currentTask = some cur := by
    rw [hw.rest]
    exact hce
  have hdead : s.state c ≠ .dead := by
    intro hd
    have hd₁ : s₁.state c = .dead := by
      rcases hw.state c with h1 | ⟨h0,-⟩
      · rw [h1,hd]
      · rw [h0] at hd
        cases hd
    rw [hd₁] at hst
    obtain ⟨i,-,hie,hid⟩ := h.idle
    rcases hst with h1 | h1 | h1
    · cases h1
    · cases h1
    · exact hid (Option.some.inj (hie.symm.trans h1) ▸ hd)
  by_cases he : c = cur
  · rw [if_pos he] at hres
    exact ⟨s₁,c,hres,h₁,hc,hdead,he ▸ hcur₁,fun hne => absurd (he ▸ hce) hne⟩
  · rw [if_neg he] at hres
    obtain ⟨g1,g2,g3⟩ := h₁.switchTo hcur₁ hc
    exact ⟨_,c,hres,g1,hc,hdead,g2,fun _ => g3⟩

end Sched

end KiNBOL
