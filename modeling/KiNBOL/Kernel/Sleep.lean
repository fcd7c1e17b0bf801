import KiNBOL.Kernel.SchedSound
import KiNBOL.Kernel.Uptime

namespace KiNBOL

namespace Sched

def wakeTimeMs (s : Sched) (a : Nat) : Nat := (s.task a).wakeTimeMs

/-- The first write of `sleep_ms`; the second one is `setState` with `blocked`. -/
def setWakeTime (s : Sched) (a wake : Nat) : Sched :=
  s.setTask a (fun t => { t with wakeTimeMs := wake })

/-- Ready or running. -/
def Awake (s : Sched) (a : Nat) : Prop := s.state a = .ready ∨ s.state a = .running

/-- What `sched_update_blocked_tasks` makes of a task. -/
def wakened (now : Nat) (t : SchedTask) : SchedTask :=
  if t.state = .blocked ∧ 0 < t.wakeTimeMs ∧ t.wakeTimeMs ≤ now then
    { t with state := .ready, wakeTimeMs := 0 }
  else t

variable {s s' s₁ : Sched} {a b c t now : Nat} {l alive : List Nat}

/-- The two writes make up `sleep_ms`. -/
theorem sleepMs_eq (h : s.currentTask = some c) (ms : Nat) :
    s.sleepMs now ms = (s.setWakeTime c ((now+ms)%2^64)).setState c .blocked := by
  simp only [sleepMs,h,setState,setWakeTime,setTask,Function.update_self,Function.update_idem]

theorem task_wakeTask : (s.wakeTask now a).task b =
    if b = a then wakened now (s.task a) else s.task b := by
  rw [wakeTask,wakened]
  split
  · next h =>
    rw [task_setTask,if_pos (show (s.task a).state = .blocked ∧ _ from h)]
  · next h =>
    rw [if_neg (show ¬((s.task a).state = .blocked ∧ _) from h)]
    split
    · next hb => rw [hb]
    · rfl

theorem task_foldl_wakeTask (hnd : l.Nodup) : (l.foldl (wakeTask now) s).task b =
    if b ∈ l then wakened now (s.task b) else s.task b := by
  induction l generalizing s with
  | nil => simp
  | cons a l ih =>
    obtain ⟨hal,hnd⟩ := List.nodup_cons.mp hnd
    rw [List.foldl_cons,ih hnd,task_wakeTask]
    by_cases hba : b = a
    · rw [hba,if_neg hal,if_pos rfl,if_pos (by simp)]
    · simp [hba]

/-- The scan wakes those of the list whose time has come. -/
theorem task_schedUpdateBlockedTasks (h : RingOk s l)
    (hres : s.schedUpdateBlockedTasks now = some s₁) (b : Nat) :
    s₁.task b = if b ∈ l then wakened now (s.task b) else s.task b := by
  obtain rfl := Option.some.inj ((schedUpdateBlockedTasks_eq h now).symm.trans hres)
  exact task_foldl_wakeTask h.ring.nodup

theorem wakeTimeMs_switchTo : (s.switchTo a c).wakeTimeMs b = s.wakeTimeMs b := by
  change (((s.leave a).setState c .running).task b).wakeTimeMs = (s.task b).wakeTimeMs
  rw [setState,task_setTask,leave]
  split
  · next h =>
    rw [h]
    split
    · rw [setState,task_setTask]
      split
      · next h => rw [h]
      · rfl
    · rfl
  · split
    · rw [setState,task_setTask]
      split
      · next h => rw [h]
      · rfl
    · rfl

theorem Awake.leave (h : s.Awake t) (a : Nat) : (s.leave a).Awake t := by
  obtain ⟨-,-,hstate,-,-,-⟩ := leave_spec s a
  rcases hstate t with h1 | ⟨-,-,h1⟩
  · rwa [Awake,h1]
  · exact Or.inl h1

theorem Awake.switchTo (h : s.Awake t) : (s.switchTo a c).Awake t := by
  have hl := h.leave a
  change ((s.leave a).setState c .running).Awake t
  rw [Awake,state_setState]
  split
  · exact Or.inr rfl
  · exact hl

/-- What `sched_schedule` does to a task: the scan first; then one that is awake stays so, and one
that is blocked stays so and is not chosen. -/
theorem Inv.schedSchedule_task (h : Inv s alive) (ht : t ∈ alive) (hi : s.idleTask ≠ some t)
    (now : Nat) : ∃ s₁ s', s.schedUpdateBlockedTasks now = some s₁ ∧
    s.schedSchedule now = some s' ∧ Inv s' alive ∧ s'.idleTask = s.idleTask ∧
    s₁.task t = wakened now (s.task t) ∧ s'.wakeTimeMs t = s₁.wakeTimeMs t ∧
    (s₁.Awake t → s'.Awake t) ∧
    (s₁.state t = .blocked → s'.state t = .blocked ∧ s'.currentTask ≠ some t) := by
  obtain ⟨s₁,cur,c,hupd,hw,hce,hc,hst,hres⟩ := h.choice now
  obtain ⟨s',-,hres',hinv,-⟩ := h.schedSchedule now
  obtain ⟨l,hl,hp⟩ := h.list
  have hscan := task_schedUpdateBlockedTasks hl hupd t
  rw [if_pos (hp.mem_iff.mpr ht)] at hscan
  have hidle : s₁.idleTask = s.idleTask := by rw [hw.rest]
  have hcur : s₁.currentTask = some cur := by
    rw [hw.rest]
    exact hce
  have hct : s₁.state t = .blocked → c ≠ t := by
    intro hb he
    rw [he,hb] at hst
    rcases hst with h1 | h1 | h1
    · cases h1
    · cases h1
    · exact hi h1
  refine ⟨s₁,s',hupd,hres',hinv,?_⟩
  obtain rfl := Option.some.inj (hres.symm.trans hres')
  by_cases he : c = cur
  · rw [if_pos he]
    refine ⟨hidle,hscan,rfl,id,fun hb => ⟨hb,fun hct' => ?_⟩⟩
    rw [hcur] at hct'
    exact hct hb (he.trans (Option.some.inj hct'))
  · rw [if_neg he]
    obtain ⟨-,-,hstate,-,-,hi2⟩ := leave_spec s₁ cur
    refine ⟨hi2.trans hidle,hscan,wakeTimeMs_switchTo,Awake.switchTo,fun hb => ⟨?_,?_⟩⟩
    · change ((s₁.leave cur).setState c .running).state t = _
      rw [state_setState,if_neg (Ne.symm (hct hb))]
      rcases hstate t with h1 | ⟨-,h1,-⟩
      · rw [h1,hb]
      · rw [hb] at h1
        cases h1
    · intro hct'
      exact hct hb (Option.some.inj hct')

/-! What other code does to a task that is not current. -/

theorem taskListInsert_links (h : s.taskListInsert a = some s') : LinksOnly s s' := by
  unfold taskListInsert at h
  cases hh : s.headTask with
  | none =>
    simp only [hh,Option.some.injEq] at h
    exact h ▸ (((LinksOnly.refl s).setNext _ _).setPrev _ _).setHead _
  | some head =>
    cases hp : s.prev head with
    | none => simp [hh,hp] at h
    | some tail =>
      simp only [hh,hp,Option.some.injEq] at h
      exact h ▸ ((((LinksOnly.refl s).setNext _ _).setPrev _ _).setNext _ _).setPrev _ _

theorem taskListRemove_links (h : s.taskListRemove a = some s') : LinksOnly s s' := by
  unfold taskListRemove at h
  split at h
  · exact Option.some.inj h ▸ LinksOnly.refl s
  split at h
  · exact Option.some.inj h ▸ (((LinksOnly.refl s).setHead none).setNext _ _).setPrev _ _
  · obtain ⟨s₁,hun,rfl⟩ := Option.map_eq_some_iff.mp h
    have hl : LinksOnly s s₁ := by
      unfold unlink at hun
      split at hun
      · next p n _ _ =>
        have hlinks := ((LinksOnly.refl s).setNext p (some n)).setPrev n (some p)
        dsimp only at hun
        split at hun
        · exact Option.some.inj hun ▸ hlinks.setHead _
        · exact Option.some.inj hun ▸ hlinks
      · simp at hun
    exact (hl.setNext _ _).setPrev _ _

theorem reapLoop_links {n : Nat} {freed : List Nat} (h : reapLoop n s = some (freed,s')) :
    LinksOnly s s' := by
  induction n generalizing s freed with
  | zero => simp [reapLoop] at h
  | succ n ih =>
    rw [reapLoop] at h
    cases hf : s.findDead with
    | none => simp [hf] at h
    | some found =>
      cases found with
      | none =>
        simp only [hf,Option.bind_eq_bind,Option.bind_some,Option.some.injEq,Prod.mk.injEq] at h
        exact h.2 ▸ LinksOnly.refl s
      | some a =>
        cases hr : s.taskListRemove a with
        | none => simp [hf,hr] at h
        | some s₁ =>
          cases hrec : reapLoop n s₁ with
          | none => simp [hf,hr,hrec] at h
          | some x =>
            simp only [hf,hr,hrec,Option.bind_eq_bind,Option.bind_some,Option.some.injEq,
              Prod.mk.injEq] at h
            have hx : reapLoop n s₁ = some (x.1,s') := by rw [hrec,← h.2]
            exact (taskListRemove_links hr).trans (ih hx)

end Sched

namespace SchedRun

variable {r r' : SchedRun} {t : Nat}

/-- A task is still there, with its fields as they were. -/
structure Left (r r' : SchedRun) (t : Nat) : Prop where
  mem : t ∈ r'.alive
  task : Sched.bare (r'.sched.task t) = Sched.bare (r.sched.task t)
  idle : r'.sched.idleTask = r.sched.idleTask

theorem Left.state (h : Left r r' t) : r'.sched.state t = r.sched.state t := by
  have hs := congrArg SchedTask.state h.task
  exact hs

theorem Left.wakeTimeMs (h : Left r r' t) : r'.sched.wakeTimeMs t = r.sched.wakeTimeMs t := by
  have hw := congrArg SchedTask.wakeTimeMs h.task
  exact hw

/-- Writing another task. -/
theorem left_setTask {a : Nat} {f : SchedTask → SchedTask} (ht : t ∈ r.alive) (hta : t ≠ a) :
    Left r ⟨r.sched.setTask a f,r.alive⟩ t := by
  refine ⟨ht,?_,rfl⟩
  change Sched.bare ((r.sched.setTask a f).task t) = _
  rw [Sched.task_setTask,if_neg hta]

/-- What runs while a live task is not current leaves it alone, `sched_schedule` apart. -/
theorem step_left {op : SchedOp} (h : r.sched.Inv r.alive) (ht : t ∈ r.alive)
    (hd : r.sched.state t ≠ .dead) (hc : r.sched.currentTask ≠ some t) (hop : r.Legal op)
    (hs : ∀ now, op ≠ .schedule now) (hres : r.step op = some r') : Left r r' t := by
  cases op with
  | create task stack =>
    obtain ⟨x,hx,rfl⟩ := Option.map_eq_some_iff.mp hres
    unfold Sched.taskCreateInternal at hx
    split at hx
    · next a k =>
      obtain ⟨s₁,hins,rfl⟩ := Option.map_eq_some_iff.mp hx
      have hlinks := Sched.taskListInsert_links hins
      have hta : t ≠ a := fun he => (hop a rfl).2 (he ▸ ht)
      refine ⟨List.mem_append_left _ ht,?_,hlinks.idle⟩
      change Sched.bare (s₁.task t) = _
      rw [hlinks.task t]
      exact congrArg Sched.bare (Function.update_of_ne hta _ r.sched.task)
    · obtain rfl := Option.some.inj hx
      exact ⟨List.mem_append_left _ ht,rfl,rfl⟩
  | schedule now => exact absurd rfl (hs now)
  | sleep now ms =>
    obtain rfl := Option.some.inj hres
    unfold Sched.sleepMs
    split
    · exact ⟨ht,rfl,rfl⟩
    · next c hcur => exact left_setTask ht (fun he => hc (he ▸ hcur))
  | exit =>
    obtain rfl := Option.some.inj hres
    unfold Sched.taskExit
    split
    · exact ⟨ht,rfl,rfl⟩
    · next c hcur => exact left_setTask ht (fun he => hc (he ▸ hcur))
  | reap =>
    obtain ⟨freed,s',hreap,-,hdead⟩ := h.taskReaper
    simp only [step,hreap,Option.map_some,Option.some.injEq] at hres
    have hlinks := Sched.reapLoop_links hreap
    have hfreed : t ∉ freed := fun hm => hd (hdead t hm).2.1
    rw [← hres]
    exact ⟨List.mem_diff_of_mem ht hfreed,hlinks.task t,hlinks.idle⟩
  | others task =>
    obtain rfl := Option.some.inj hres
    exact ⟨ht,congrArg Sched.bare (hop t ht),rfl⟩

end SchedRun

end KiNBOL
