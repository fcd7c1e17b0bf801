import KiNBOL.Kernel.Sleep

namespace KiNBOL

/-- How far `sleep_ms` has come: called, `wake_time_ms` written, `TASK_BLOCKED` written. -/
inductive SleepPhase
  | called
  | marked
  | asleep
  deriving DecidableEq

/-- The scheduler while a task is in `sleep_ms`, and the uptime at the last look at it. -/
structure SleepRun where
  run : SchedRun
  phase : SleepPhase
  now : Nat

/-- One step until `t` returns from `sleep_ms` with the deadline `wake`. Every task goes to sleep by
two writes, and `sched_schedule` may come anywhere: from the yield, from a timer interrupt between
the writes, or from other tasks. -/
inductive SleepStep (t wake : Nat) (r : SleepRun) : SleepRun → Prop
  | mark : r.run.sched.currentTask = some t → r.phase = .called →
      SleepStep t wake r ⟨⟨r.run.sched.setWakeTime t wake,r.run.alive⟩,.marked,r.now⟩
  | block : r.run.sched.currentTask = some t → r.phase = .marked →
      SleepStep t wake r ⟨⟨r.run.sched.setState t .blocked,r.run.alive⟩,.asleep,r.now⟩
  | schedule {now : Nat} {s : Sched} : r.now ≤ now → r.run.sched.schedSchedule now = some s →
      SleepStep t wake r ⟨⟨s,r.run.alive⟩,r.phase,now⟩
  | markOther {c time : Nat} : r.run.sched.currentTask = some c → c ≠ t →
      SleepStep t wake r ⟨⟨r.run.sched.setWakeTime c time,r.run.alive⟩,r.phase,r.now⟩
  | blockOther {c : Nat} : r.run.sched.currentTask = some c → c ≠ t →
      SleepStep t wake r ⟨⟨r.run.sched.setState c .blocked,r.run.alive⟩,r.phase,r.now⟩
  | other {op : SchedOp} {run : SchedRun} : r.run.sched.currentTask ≠ some t → r.run.Legal op →
      (∀ now, op ≠ .schedule now) → r.run.step op = some run →
      SleepStep t wake r ⟨run,r.phase,r.now⟩

namespace SleepRun

/-- A running task calls `sleep_ms(ms)` when `uptime_ms` returns `uptime`. -/
structure Called (r : SleepRun) (t : Nat) (uptime : BitVec 64) : Prop where
  inv : r.run.sched.Inv r.run.alive
  current : r.run.sched.currentTask = some t
  running : r.run.sched.state t = .running
  idle : r.run.sched.idleTask ≠ some t
  phase : r.phase = .called
  now : r.now = uptime.toNat
  clock : ∃ cycles bootTsc tsc, uptime = uptimeMs (tscCalibrate cycles) bootTsc tsc

/-- The next `sched_schedule` does not choose a sleeper before its deadline and wakes it after, and
its scan touches no `wake_time_ms` but those of the tasks that it wakes. -/
structure Exact (r : SleepRun) (t deadline : Nat) : Prop where
  early : r.phase = .asleep → ∀ now, r.now ≤ now → now < deadline →
    ∃ s, r.run.sched.schedSchedule now = some s ∧ s.currentTask ≠ some t
  due : ∀ now, r.now ≤ now → deadline ≤ now →
    ∃ s, r.run.sched.schedSchedule now = some s ∧ s.Awake t
  others : ∀ now s, r.run.sched.schedUpdateBlockedTasks now = some s → ∀ a,
    s.wakeTimeMs a = r.run.sched.wakeTimeMs a ∨ r.run.sched.state a = .blocked ∧
      r.run.sched.wakeTimeMs a ≤ now ∧ s.state a = .ready

/-- What holds of a task in `sleep_ms`. -/
structure SleepInv (r : SleepRun) (t wake : Nat) : Prop where
  inv : r.run.sched.Inv r.run.alive
  mem : t ∈ r.run.alive
  idle : r.run.sched.idleTask ≠ some t
  before : r.phase ≠ .asleep → r.run.sched.Awake t
  marked : r.phase = .marked → r.run.sched.wakeTimeMs t = wake
  asleep : r.phase = .asleep →
    r.run.sched.state t = .blocked ∧ r.run.sched.wakeTimeMs t = wake ∨
    wake ≤ r.now ∧ r.run.sched.Awake t

end SleepRun

namespace Sched

variable {s : Sched} {a t now : Nat} {alive : List Nat}

theorem wakened_awake {x : SchedTask} (h : x.state ≠ .blocked) : wakened now x = x := by
  rw [wakened,if_neg (fun hb => h hb.1)]

theorem wakened_early {x : SchedTask} (h : now < x.wakeTimeMs) : wakened now x = x := by
  rw [wakened,if_neg (fun hb => by omega)]

theorem wakened_due {x : SchedTask} (hb : x.state = .blocked) (h0 : 0 < x.wakeTimeMs)
    (h : x.wakeTimeMs ≤ now) : (wakened now x).state = .ready := by
  rw [wakened,if_pos ⟨hb,h0,h⟩]

theorem Awake.ne_blocked (h : s.Awake t) : s.state t ≠ .blocked ∧ s.state t ≠ .dead := by
  rcases h with h1 | h1
  · rw [h1]
    decide
  · rw [h1]
    decide

theorem Inv.setWakeTime (h : Inv s alive) (a wake : Nat) : Inv (s.setWakeTime a wake) alive := by
  apply h.stop
  · exact fun t => ⟨rfl,rfl⟩
  · exact fun t => ⟨rfl,rfl⟩
  · exact fun t h => h
  · exact fun _ t h => h

theorem Inv.block (h : Inv s alive) (a : Nat) : Inv (s.setState a .blocked) alive := by
  apply h.stop
  · exact fun t => ⟨rfl,rfl⟩
  · exact fun t => ⟨rfl,rfl⟩
  · exact fun t h => TaskState.noConfusion h
  · exact fun _ t h => TaskState.noConfusion h

end Sched

namespace SleepRun

variable {r r' : SleepRun} {t wake : Nat}

theorem SleepInv.live (h : SleepInv r t wake) : r.run.sched.state t ≠ .dead := by
  by_cases hp : r.phase = .asleep
  · rcases h.asleep hp with ⟨h1,-⟩ | ⟨-,h1⟩
    · rw [h1]
      decide
    · exact h1.ne_blocked.2
  · exact (h.before hp).ne_blocked.2

theorem SleepInv.intro (hinv : r.run.sched.Inv r.run.alive) (ht : t ∈ r.run.alive)
    (hi : r.run.sched.idleTask ≠ some t) (hp : r.phase = .asleep)
    (h : r.run.sched.state t = .blocked ∧ r.run.sched.wakeTimeMs t = wake ∨
      wake ≤ r.now ∧ r.run.sched.Awake t) : SleepInv r t wake := by
  refine ⟨hinv,ht,hi,fun h2 => absurd hp h2,fun h2 => ?_,fun _ => h⟩
  rw [hp] at h2
  cases h2

/-- Steps that leave the sleeper alone. -/
theorem SleepInv.left (h : SleepInv r t wake) {run : SchedRun} (hinv : run.sched.Inv run.alive)
    (hl : SchedRun.Left r.run run t) : SleepInv ⟨run,r.phase,r.now⟩ t wake := by
  refine ⟨hinv,hl.mem,?_,fun hp => ?_,fun hp => ?_,fun hp => ?_⟩
  · rw [hl.idle]
    exact h.idle
  · rw [Sched.Awake,hl.state]
    exact h.before hp
  · rw [hl.wakeTimeMs]
    exact h.marked hp
  · rw [Sched.Awake,hl.state,hl.wakeTimeMs]
    exact h.asleep hp

/-- The two writes of the sleeper itself. -/
theorem SleepInv.mark (h : SleepInv r t wake) (hp : r.phase = .called) :
    SleepInv ⟨⟨r.run.sched.setWakeTime t wake,r.run.alive⟩,.marked,r.now⟩ t wake := by
  have hst : (r.run.sched.setWakeTime t wake).state t = r.run.sched.state t := by
    rw [Sched.state,Sched.setWakeTime,Sched.task_setTask,if_pos rfl]
    rfl
  refine ⟨h.inv.setWakeTime t wake,h.mem,h.idle,fun _ => ?_,fun _ => ?_,fun h2 => ?_⟩
  · rw [Sched.Awake,hst]
    exact h.before (by rw [hp]; decide)
  · rw [Sched.wakeTimeMs,Sched.setWakeTime,Sched.task_setTask,if_pos rfl]
  · cases h2

theorem SleepInv.block (h : SleepInv r t wake) (hp : r.phase = .marked) :
    SleepInv ⟨⟨r.run.sched.setState t .blocked,r.run.alive⟩,.asleep,r.now⟩ t wake := by
  refine ⟨h.inv.block t,h.mem,h.idle,fun h2 => absurd rfl h2,fun h2 => ?_,fun _ => Or.inl ⟨?_,?_⟩⟩
  · cases h2
  · rw [Sched.state_setState,if_pos rfl]
  · rw [Sched.wakeTimeMs,Sched.setState,Sched.task_setTask,if_pos rfl]
    exact h.marked hp

/-- `sched_schedule` while the task is in `sleep_ms`. -/
theorem SleepInv.scheduled (h : SleepInv r t wake) (hw : 0 < wake) {now : Nat} (hn : r.now ≤ now) :
    ∃ s, r.run.sched.schedSchedule now = some s ∧
      SleepInv ⟨⟨s,r.run.alive⟩,r.phase,now⟩ t wake ∧ (wake ≤ now → s.Awake t) ∧
      (r.phase = .asleep → now < wake → s.currentTask ≠ some t) := by
  obtain ⟨s₁,s,-,hres,hinv,hidle,hscan,hwt,hawake,hblocked⟩ :=
    h.inv.schedSchedule_task h.mem h.idle now
  have hid : s.idleTask ≠ some t := by
    rw [hidle]
    exact h.idle
  have hstate : s₁.state t = (Sched.wakened now (r.run.sched.task t)).state := by
    rw [Sched.state,hscan]
  have hkeep : r.run.sched.Awake t →
      s.Awake t ∧ s.wakeTimeMs t = r.run.sched.wakeTimeMs t := by
    intro ha
    rw [Sched.wakened_awake ha.ne_blocked.1] at hstate hscan
    exact ⟨hawake (by rwa [Sched.Awake,hstate]),by rw [hwt,Sched.wakeTimeMs,hscan]; rfl⟩
  refine ⟨s,hres,?_⟩
  by_cases hp : r.phase = .asleep
  · rcases h.asleep hp with ⟨hb,hwake⟩ | ⟨hpast,ha⟩
    · by_cases hdue : wake ≤ now
      · -- the scan of this call wakes it
        have hready : s₁.state t = .ready := by
          rw [hstate]
          apply Sched.wakened_due hb
          · rwa [← hwake] at hw
          · rwa [← hwake] at hdue
        have ha := hawake (Or.inl hready)
        exact ⟨.intro hinv h.mem hid hp (Or.inr ⟨hdue,ha⟩),fun _ => ha,fun _ _ => by omega⟩
      · have hsame : Sched.wakened now (r.run.sched.task t) = r.run.sched.task t := by
          apply Sched.wakened_early
          change now < r.run.sched.wakeTimeMs t
          rw [hwake]
          omega
        rw [hsame] at hscan hstate
        obtain ⟨hb',hcur⟩ := hblocked (hstate.trans hb)
        have hwt' : s.wakeTimeMs t = wake := by
          rw [hwt,Sched.wakeTimeMs,hscan]
          exact hwake
        exact ⟨.intro hinv h.mem hid hp (Or.inl ⟨hb',hwt'⟩),fun h2 => absurd h2 hdue,
          fun _ _ => hcur⟩
    · obtain ⟨ha',-⟩ := hkeep ha
      have hpast' : wake ≤ now := Nat.le_trans hpast hn
      exact ⟨.intro hinv h.mem hid hp (Or.inr ⟨hpast',ha'⟩),fun _ => ha',fun _ _ => by omega⟩
  · obtain ⟨ha',hwt'⟩ := hkeep (h.before hp)
    refine ⟨⟨hinv,h.mem,hid,fun _ => ha',fun h2 => ?_,fun h2 => absurd h2 hp⟩,fun _ => ha',
      fun h2 => absurd h2 hp⟩
    exact hwt'.trans (h.marked h2)

theorem SleepInv.step (h : SleepInv r t wake) (hw : 0 < wake) (hs : SleepStep t wake r r') :
    SleepInv r' t wake := by
  cases hs with
  | mark _ hp => exact h.mark hp
  | block _ hp => exact h.block hp
  | schedule hn hres =>
    obtain ⟨s,hres',hinv,-⟩ := h.scheduled hw hn
    obtain rfl := Option.some.inj (hres.symm.trans hres')
    exact hinv
  | markOther _ hc =>
    exact h.left (h.inv.setWakeTime _ _) (SchedRun.left_setTask h.mem (Ne.symm hc))
  | blockOther _ hc => exact h.left (h.inv.block _) (SchedRun.left_setTask h.mem (Ne.symm hc))
  | other hc hop hns hres =>
    obtain ⟨run,hres',hinv⟩ := SchedRun.step_inv h.inv hop
    obtain rfl := Option.some.inj (hres.symm.trans hres')
    exact h.left hinv (SchedRun.step_left h.inv h.mem h.live hc hop hns hres)

theorem scan_others {s s₁ : Sched} {alive : List Nat} (h : s.Inv alive) {now : Nat}
    (hres : s.schedUpdateBlockedTasks now = some s₁) (a : Nat) :
    s₁.wakeTimeMs a = s.wakeTimeMs a ∨
      s.state a = .blocked ∧ s.wakeTimeMs a ≤ now ∧ s₁.state a = .ready := by
  obtain ⟨l,hl,-⟩ := h.list
  have hscan := Sched.task_schedUpdateBlockedTasks hl hres a
  split at hscan
  · rw [Sched.wakened] at hscan
    split at hscan
    · next hb => exact Or.inr ⟨hb.1,hb.2.2,by rw [Sched.state,hscan]⟩
    · exact Or.inl (congrArg SchedTask.wakeTimeMs hscan)
  · exact Or.inl (congrArg SchedTask.wakeTimeMs hscan)

theorem SleepInv.exact (h : SleepInv r t wake) (hw : 0 < wake) : Exact r t wake := by
  constructor
  · intro hp now hn hlt
    obtain ⟨s,hres,-,-,hearly⟩ := h.scheduled hw hn
    exact ⟨s,hres,hearly hp hlt⟩
  · intro now hn hle
    obtain ⟨s,hres,-,hdue,-⟩ := h.scheduled hw hn
    exact ⟨s,hres,hdue hle⟩
  · exact fun now s hres a => scan_others h.inv hres a

variable {uptime : BitVec 64} {ms : BitVec 32}

theorem Called.sleepInv (h : Called r t uptime) (wake : Nat) : SleepInv r t wake := by
  have hp := h.phase
  refine ⟨h.inv,?_,h.idle,fun _ => Or.inr h.running,fun h2 => ?_,fun h2 => ?_⟩
  · obtain ⟨c,hc,he,-⟩ := h.inv.current
    exact Option.some.inj (he.symm.trans h.current) ▸ hc
  · rw [hp] at h2
    cases h2
  · rw [hp] at h2
    cases h2

/-- The deadline is computed without overflow. -/
theorem Called.deadline (h : Called r t uptime) (ms : BitVec 32) :
    (wakeTime uptime ms).toNat = uptime.toNat+ms.toNat := by
  obtain ⟨cycles,bootTsc,tsc,hu⟩ := h.clock
  have hle := uptimeMs_le cycles bootTsc tsc
  rw [← hu] at hle
  have hms := ms.isLt
  rw [wakeTime,BitVec.toNat_add,BitVec.toNat_setWidth,Nat.mod_eq_of_lt (show ms.toNat < 2^64 by omega)]
  apply Nat.mod_eq_of_lt
  omega

/-- Asleep with the deadline 0. -/
theorem Called.lost (h : Called r t uptime) :
    ∃ r', Relation.ReflTransGen (SleepStep t 0) r r' ∧ ¬Exact r' t 0 := by
  have h1 := (h.sleepInv 0).mark h.phase
  have h2 := h1.block rfl
  have hmark : SleepStep t 0 r _ := .mark h.current h.phase
  have hblock : SleepStep t 0 ⟨⟨r.run.sched.setWakeTime t 0,r.run.alive⟩,.marked,r.now⟩ _ :=
    .block h.current rfl
  refine ⟨_,(Relation.ReflTransGen.single hmark).tail hblock,fun hex => ?_⟩
  obtain ⟨hb,hwake⟩ : Sched.state _ t = .blocked ∧ Sched.wakeTimeMs _ t = 0 := by
    rcases h2.asleep rfl with h3 | ⟨-,h3⟩
    · exact h3
    · refine absurd ?_ h3.ne_blocked.1
      rw [Sched.state_setState,if_pos rfl]
  obtain ⟨s,hres,hawake⟩ := hex.due r.now (Nat.le_refl _) (Nat.zero_le _)
  obtain ⟨s₁,s',-,hres',-,-,hscan,-,-,hblocked⟩ := h2.inv.schedSchedule_task h2.mem h2.idle r.now
  obtain rfl := Option.some.inj (hres.symm.trans hres')
  refine absurd (hblocked ?_).1 hawake.ne_blocked.1
  rw [Sched.state,hscan,Sched.wakened,if_neg]
  · exact hb
  · intro hw
    have h0 := hw.2.1
    rw [Sched.wakeTimeMs] at hwake
    omega

/-- `sleep_ms` is exact in every run unless its deadline is 0. -/
theorem sleep_exact_iff (h : Called r t uptime) :
    (∀ r', Relation.ReflTransGen (SleepStep t (wakeTime uptime ms).toNat) r r' →
      Exact r' t (uptime.toNat+ms.toNat)) ↔ uptime.toNat+ms.toNat ≠ 0 := by
  rw [h.deadline]
  constructor
  · intro hall h0
    rw [h0] at hall
    obtain ⟨r',hrun,hno⟩ := h.lost
    exact hno (hall r' hrun)
  · intro hne r' hrun
    have hpos : 0 < uptime.toNat+ms.toNat := Nat.pos_of_ne_zero hne
    have hinv : SleepInv r' t (uptime.toNat+ms.toNat) := by
      induction hrun with
      | refl => exact h.sleepInv _
      | tail _ hstep ih => exact ih.step hpos hstep
    exact hinv.exact hpos

/-- The kernel's task calls `sleep_ms` in the first millisecond, or 5 ms after boot. -/
def sleeperRun (now : Nat) : SleepRun := ⟨SchedRun.startedRun,.called,now⟩

theorem sleeperRun_called (uptime : BitVec 64) (hclock : ∃ cycles bootTsc tsc,
    uptime = uptimeMs (tscCalibrate cycles) bootTsc tsc) :
    Called (sleeperRun uptime.toNat) 4096 uptime := by
  have hinv : SchedRun.startedRun.sched.Inv SchedRun.startedRun.alive := by
    obtain ⟨op,hop,hres⟩ := SchedRun.startedRun_step
    obtain ⟨r',hres',hinv⟩ := SchedRun.step_inv SchedRun.onlineRun_boots.inv hop
    obtain rfl := Option.some.inj (hres.symm.trans hres')
    exact hinv
  have hidle : SchedRun.startedRun.sched.idleTask ≠ some 4096 := by decide
  exact ⟨hinv,rfl,rfl,hidle,rfl,rfl,hclock⟩

/-- `sleep_ms(0)` in the first millisecond is never woken. -/
theorem sleep_zero : ¬∀ r', Relation.ReflTransGen (SleepStep 4096 (wakeTime 0#64 0#32).toNat)
    (sleeperRun 0) r' → Exact r' 4096 0 := by
  intro hall
  have hcalled : Called (sleeperRun 0) 4096 0#64 := sleeperRun_called 0#64
    ⟨fun _ => 0#64,0#64,0#64,by decide⟩
  obtain ⟨r',hrun,hno⟩ := hcalled.lost
  exact hno (hall r' hrun)

theorem sleep_exact_iff_sample : wakeTime 5#64 10#32 = 15#64 ∧ ∀ r',
    Relation.ReflTransGen (SleepStep 4096 (wakeTime 5#64 10#32).toNat) (sleeperRun 5) r' →
      Exact r' 4096 15 :=
  ⟨by decide,(@sleep_exact_iff _ _ _ 10#32 (sleeperRun_called 5#64
    ⟨fun _ => 0#64,0#64,5000000#64,by decide⟩)).mpr (by decide)⟩

end SleepRun

end KiNBOL
