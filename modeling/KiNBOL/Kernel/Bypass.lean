import KiNBOL.Kernel.SchedSound

namespace KiNBOL

/-- A call of the scheduler, or what may come between two: `task_reaper`, and other tasks that block,
wake or die. -/
inductive RingOp
  | schedule (now : Nat)
  | reap
  | others (task : Nat → SchedTask)

namespace RingOp

def isCall : RingOp → Bool
  | .schedule _ => true
  | _ => false

end RingOp

namespace Sched

def ringStep (s : Sched) : RingOp → Option Sched
  | .schedule now => s.schedSchedule now
  | .reap => s.taskReaper.map Prod.snd
  | .others task => some { s with task := task }

/-- Nobody touches links of the ring, and `t` stays ready. -/
def Spares (s : Sched) (t : Nat) : RingOp → Prop
  | .others task => (∀ l, s.RingOk l → ∀ a ∈ l, (task a).next = s.next a ∧ (task a).prev = s.prev a) ∧
      (task t).state = .ready
  | _ => True

/-- Whom the calls choose, up to the one that chooses `t`. -/
def choices (t : Nat) : Sched → List RingOp → Option (List Nat)
  | _,[] => some []
  | s,op::ops => do
    let s' ← s.ringStep op
    if op.isCall then
      let c ← s'.currentTask
      if c = t then some [t] else (choices t s' ops).map (c::·)
    else choices t s' ops

/-- Until `t` is chosen it is spared. -/
def SparesAll (t : Nat) : Sched → List RingOp → Prop
  | _,[] => True
  | s,op::ops => s.Spares t op ∧ ∀ s', s.ringStep op = some s' →
      op.isCall = true ∧ s'.currentTask = some t ∨ SparesAll t s' ops

/-- `t` is ready and lies in the ring `l` behind the current task `c` and the tasks of `arc`. -/
structure Waiting (s : Sched) (l : List Nat) (t c : Nat) (arc : List Nat) : Prop where
  ring : s.RingOk l
  order : ∃ rest, l.IsRotated (c::(arc++t::rest))
  current : s.currentTask = some c
  idle : s.idleTask ≠ some t
  ready : s.state t = .ready

variable {s s' : Sched} {t c a : Nat} {l arc : List Nat}

/-- The ring from one of its tasks on. -/
theorem split_rotated {m : List Nat} (h : l.IsRotated (c::m)) :
    ∃ m₁ m₂, l = m₁++c::m₂ ∧ m₂++m₁ = m := by
  obtain ⟨n,hn⟩ := h
  rw [List.rotate_eq_drop_append_take_mod] at hn
  have hl := List.take_append_drop (n%l.length) l
  generalize l.take (n%l.length) = m₁ at hn hl
  generalize l.drop (n%l.length) = m₂ at hn hl
  cases m₂ with
  | nil =>
    rw [List.nil_append] at hn
    exact ⟨[],m,by rw [← hl,hn]; simp,by simp⟩
  | cons b m₂ =>
    rw [List.cons_append,List.cons.injEq] at hn
    exact ⟨m₁,m₂,by rw [← hl,hn.1],hn.2⟩

theorem Waiting.arc_ne (h : Waiting s l t c arc) : c ≠ t ∧ c ∉ arc ∧ t ∉ arc := by
  obtain ⟨rest,hr⟩ := h.order
  obtain ⟨h1,h2⟩ := List.nodup_cons.mp (hr.nodup_iff.mp h.ring.ring.nodup)
  obtain ⟨-,-,h3⟩ := List.nodup_append.mp h2
  refine ⟨?_,?_,?_⟩
  · intro hc
    exact h1 (by simp [hc])
  · intro hc
    exact h1 (by simp [hc])
  · intro ht
    exact h3 t ht t (by simp) rfl

/-- Waking sleepers leaves a ready task as it is. -/
theorem Woken.ready (h : Woken s s') (ht : s.state t = .ready) : s'.state t = .ready := by
  rcases h.state t with h1 | ⟨-,h1⟩
  · rw [h1,ht]
  · exact h1

theorem state_switchTo (hta : t ≠ a) (htc : t ≠ c) : (s.switchTo c a).state t = s.state t := by
  change ((s.leave c).setState a .running).state t = _
  rw [state_setState,if_neg hta,leave]
  split
  · rw [state_setState,if_neg htc]
  · rfl

/-- A call chooses `t`, or a task of the arc and what lies behind it is the arc left. -/
theorem Waiting.schedule (h : Waiting s l t c arc) (now : Nat) : ∃ s' a,
    s.schedSchedule now = some s' ∧ s'.currentTask = some a ∧ s'.idleTask = s.idleTask ∧
    (a = t ∨ s.idleTask ≠ some a ∧ ∃ arc₁ arc₂, arc = arc₁++a::arc₂ ∧ Waiting s' l t a arc₂) := by
  obtain ⟨hct,-,-⟩ := h.arc_ne
  have hm := h.ring
  obtain ⟨rest,hr⟩ := h.order
  have hnd := hr.nodup_iff.mp hm.ring.nodup
  have hrot := hr
  obtain ⟨m₁,m₂,rfl,hme⟩ := split_rotated hr
  have hne : m₂++m₁ ≠ [] := by simp [hme]
  obtain ⟨s₁,-,hw,hres⟩ := schedSchedule_eq hm h.current now
  have hidle : s₁.idleTask = s.idleTask := by rw [hw.rest]
  have hready := hw.ready h.ready
  have hl₁ : s₁.RingOk (m₁++c::m₂) := hm.congr hw.links (by rw [hw.rest])
  rw [if_neg hne,hme] at hres
  have hrun : s₁.runnable t = true := by
    apply decide_eq_true
    exact ⟨fun hi => h.idle (hidle.symm.trans hi.symm),hready⟩
  obtain ⟨hleave,-,-,-,hhead,hi2⟩ := leave_spec s₁ c
  -- the search does not go past `t`
  obtain ⟨a,hfind⟩ : ∃ a, (arc++t::rest).find? s₁.runnable = some a := by
    apply Option.isSome_iff_exists.mp
    rw [List.find?_isSome]
    exact ⟨t,by simp,hrun⟩
  have hra : s₁.runnable a = true := List.find?_some hfind
  obtain ⟨hai,-⟩ := of_decide_eq_true hra
  have hac : a ≠ c := by
    intro hac
    exact (List.nodup_cons.mp hnd).1 (hac ▸ List.mem_of_find?_eq_some hfind)
  rw [hfind,Option.some_or,Option.bind_some,if_neg hac] at hres
  refine ⟨_,a,hres,rfl,hi2.trans hidle,?_⟩
  by_cases hat : a = t
  · exact Or.inl hat
  right
  refine ⟨fun hi => hai (hi.symm.trans hidle.symm),?_⟩
  rw [List.find?_append] at hfind
  have harc : arc.find? s₁.runnable = some a := by
    cases hx : arc.find? s₁.runnable with
    | some b => rwa [hx,Option.some_or] at hfind
    | none =>
      rw [hx,Option.none_or,List.find?_cons_of_pos hrun] at hfind
      exact absurd (Option.some.inj hfind).symm hat
  obtain ⟨-,arc₁,arc₂,rfl,-⟩ := List.find?_eq_some_iff_append.mp harc
  have hidle' : (s₁.switchTo c a).idleTask = s.idleTask := hi2.trans hidle
  refine ⟨arc₁,arc₂,rfl,⟨?_,?_,rfl,?_,?_⟩⟩
  · exact hl₁.congr (fun b => ⟨((setState_spec _ _ _).1 b).1.trans (hleave b).1,
      ((setState_spec _ _ _).1 b).2.trans (hleave b).2⟩) hhead
  · have hcomm := @List.isRotated_append _ (c::arc₁) (a::(arc₂++t::rest))
    refine ⟨rest++c::arc₁,hrot.trans ?_⟩
    simpa using hcomm
  · rw [hidle']
    exact h.idle
  · rw [state_switchTo (Ne.symm hat) (Ne.symm hct)]
    exact hready

theorem isRotated_filter {l' : List Nat} (h : l.IsRotated l') (p : Nat → Bool) :
    (l.filter p).IsRotated (l'.filter p) := by
  obtain ⟨n,rfl⟩ := h
  rw [List.rotate_eq_drop_append_take_mod,List.filter_append]
  have hl := congrArg (List.filter p) (List.take_append_drop (n%l.length) l)
  rw [List.filter_append] at hl
  exact hl ▸ List.isRotated_append

/-- Another task leaves the ring; those that stay keep their order. -/
theorem Waiting.remove (h : Waiting s l t c arc) (ha : a ∈ l) (hac : a ≠ c) (hat : a ≠ t) :
    ∃ s' arc', s.taskListRemove a = some s' ∧ LinksOnly s s' ∧ arc'.Sublist arc ∧
      Waiting s' (l.erase a) t c arc' := by
  obtain ⟨s',hres,hl,hlinks⟩ := taskListRemove_spec h.ring ha
  obtain ⟨rest,hr⟩ := h.order
  refine ⟨s',arc.filter (· != a),hres,hlinks,List.filter_sublist,⟨hl,?_,?_,?_,?_⟩⟩
  · refine ⟨rest.filter (· != a),?_⟩
    have hfil := isRotated_filter hr (· != a)
    rw [← h.ring.ring.nodup.erase_eq_filter] at hfil
    simpa [List.filter_append,List.filter_cons,Ne.symm hac,Ne.symm hat] using hfil
  · exact hlinks.current.trans h.current
  · rw [hlinks.idle]
    exact h.idle
  · rw [hlinks.state]
    exact h.ready

/-- `task_reaper` takes no task that is ready, nor the current one. -/
theorem Waiting.reapLoop {n : Nat} (h : Waiting s l t c arc) (hn : l.length < n) :
    ∃ freed s' l' arc', Sched.reapLoop n s = some (freed,s') ∧ s'.idleTask = s.idleTask ∧
      arc'.Sublist arc ∧ Waiting s' l' t c arc' := by
  induction n generalizing s l arc with
  | zero => omega
  | succ n ih =>
    obtain ⟨found,hfind,hspec⟩ := findDead_spec h.ring
    cases found with
    | none =>
      refine ⟨[],s,l,arc,?_,rfl,List.Sublist.refl _,h⟩
      rw [Sched.reapLoop,hfind]
      rfl
    | some a =>
      obtain ⟨ha,hd,hc⟩ := hspec a rfl
      have hac : a ≠ c := fun he => hc (he ▸ h.current)
      have hat : a ≠ t := by
        intro he
        rw [he,h.ready] at hd
        cases hd
      obtain ⟨s₁,arc₁,hrem,hlinks,hsub,hw⟩ := h.remove ha hac hat
      have hlen : (l.erase a).length < n := by
        rw [List.length_erase_of_mem ha]
        have := List.length_pos_of_mem ha
        omega
      obtain ⟨freed,s',l',arc',hres,hidle,hsub',hw'⟩ := ih hw hlen
      refine ⟨a::freed,s',l',arc',?_,hidle.trans hlinks.idle,hsub'.trans hsub,hw'⟩
      rw [Sched.reapLoop,hfind]
      simp [hrem,hres]

/-- What comes between two calls leaves `t` waiting, and no longer. -/
theorem Waiting.between {op : RingOp} (h : Waiting s l t c arc) (hop : s.Spares t op)
    (hcall : op.isCall = false) : ∃ s' l' arc', s.ringStep op = some s' ∧
      s'.idleTask = s.idleTask ∧ arc'.Sublist arc ∧ Waiting s' l' t c arc' := by
  cases op with
  | schedule now => simp [RingOp.isCall] at hcall
  | reap =>
    obtain ⟨freed,s',l',arc',hres,hrest⟩ := h.reapLoop h.ring.length
    exact ⟨s',l',arc',by rw [ringStep,taskReaper,hres]; rfl,hrest⟩
  | others task =>
    obtain ⟨hlinks,hready⟩ := hop
    have hl := hlinks l h.ring
    refine ⟨_,l,arc,rfl,rfl,List.Sublist.refl _,⟨⟨?_,h.ring.head,h.ring.bound⟩,h.order,h.current,
      h.idle,hready⟩⟩
    exact h.ring.ring.congr (fun a ha => (hl a ha).1) (fun a ha => (hl a ha).2)

/-- Tasks of the arc are chosen in the order of the ring, and then `t`. -/
theorem Waiting.choices {ops : List RingOp} (h : Waiting s l t c arc) (hops : s.SparesAll t ops) :
    ∃ m cs, Sched.choices t s ops = some cs ∧ m.Sublist arc ∧
      (∀ i, s.idleTask = some i → i ∉ m) ∧
      (cs = m ∧ m.length = ops.countP RingOp.isCall ∨ cs = m++[t]) := by
  induction ops generalizing s l c arc with
  | nil => exact ⟨[],[],rfl,List.nil_sublist _,by simp,Or.inl ⟨rfl,rfl⟩⟩
  | cons op ops ih =>
    obtain ⟨hop,hrest⟩ := hops
    cases hcall : op.isCall with
    | false =>
      obtain ⟨s',l',arc',hres,hidle,hsub,hw⟩ := h.between hop hcall
      have hops' : s'.SparesAll t ops := by
        rcases hrest s' hres with ⟨hc,-⟩ | hs
        · simp [hcall] at hc
        · exact hs
      obtain ⟨m,cs,hcs,hm,hi,hend⟩ := ih hw hops'
      refine ⟨m,cs,?_,hm.trans hsub,hidle ▸ hi,?_⟩
      · rw [Sched.choices,hres]
        simp [hcall,hcs]
      · rwa [List.countP_cons_of_neg (by simp [hcall])]
    | true =>
      cases op with
      | reap => simp [RingOp.isCall] at hcall
      | others task => simp [RingOp.isCall] at hcall
      | schedule now =>
        obtain ⟨s',a,hres,hcur,hidle,hcase⟩ := h.schedule now
        have hstep : s.ringStep (.schedule now) = some s' := hres
        by_cases hat : a = t
        · refine ⟨[],[t],?_,List.nil_sublist _,by simp,Or.inr rfl⟩
          rw [Sched.choices,hstep]
          simp [hcall,hcur,hat]
        obtain ⟨hai,arc₁,arc₂,rfl,hw⟩ := hcase.resolve_left hat
        have hops' : s'.SparesAll t ops := by
          rcases hrest s' hstep with ⟨-,hc⟩ | hs
          · exact absurd (Option.some.inj (hcur.symm.trans hc)) hat
          · exact hs
        obtain ⟨m,cs,hcs,hm,hi,hend⟩ := ih hw hops'
        refine ⟨a::m,a::cs,?_,?_,?_,?_⟩
        · rw [Sched.choices,hstep]
          simp [hcall,hcur,hat,hcs]
        · exact (hm.cons_cons a).trans (List.sublist_append_right _ _)
        · intro i hi'
          rw [List.mem_cons,not_or]
          exact ⟨fun he => hai (he ▸ hi'),hi i (hidle.trans hi')⟩
        · rw [List.countP_cons_of_pos hcall]
          rcases hend with ⟨rfl,hlen⟩ | rfl
          · exact Or.inl ⟨rfl,by rw [List.length_cons,hlen]⟩
          · exact Or.inr rfl

/-- A ready task that is not the idle one is chosen within `N-1` calls, no other task is chosen twice
before it, and the idle task is not chosen. -/
theorem bounded_bypass {ops : List RingOp} (hl : s.RingOk l) (hc : c ∈ l)
    (hcur : s.currentTask = some c) (ht : t ∈ l) (htc : t ≠ c) (hidle : s.idleTask ≠ some t)
    (hready : s.state t = .ready) (hops : s.SparesAll t ops) : ∃ cs,
    choices t s ops = some cs ∧ cs.Nodup ∧ cs.length ≤ l.length-1 ∧
    (∀ i, s.idleTask = some i → i ∉ cs) ∧ (l.length-1 ≤ ops.countP RingOp.isCall → t ∈ cs) := by
  obtain ⟨l₁,l₂,rfl⟩ := List.append_of_mem hc
  have hrot : (l₁++c::l₂).IsRotated (c::(l₂++l₁)) := List.isRotated_append
  have htm : t ∈ l₂++l₁ := by
    simp only [List.mem_append,List.mem_cons] at ht ⊢
    tauto
  obtain ⟨arc,rest,harc⟩ := List.append_of_mem htm
  have hw : Waiting s (l₁++c::l₂) t c arc := ⟨hl,⟨rest,harc ▸ hrot⟩,hcur,hidle,hready⟩
  obtain ⟨m,cs,hcs,hm,hi,hend⟩ := hw.choices hops
  obtain ⟨-,-,hta⟩ := hw.arc_ne
  have hnd : (c::(arc++t::rest)).Nodup := by
    rw [← harc]
    exact hrot.nodup_iff.mp hl.ring.nodup
  have hmnd : m.Nodup := hm.nodup (List.nodup_append.mp (List.nodup_cons.mp hnd).2).1
  have htm' : t ∉ m := fun h => hta (hm.subset h)
  have hlen : arc.length+2 ≤ (l₁++c::l₂).length := by
    rw [hrot.perm.length_eq,harc,List.length_cons,List.length_append,List.length_cons]
    omega
  have hmlen := hm.length_le
  refine ⟨cs,hcs,?_⟩
  rcases hend with ⟨rfl,hcount⟩ | rfl
  · refine ⟨hmnd,by omega,hi,fun hcalls => ?_⟩
    omega
  · refine ⟨?_,?_,?_,fun _ => by simp⟩
    · rw [List.nodup_append]
      exact ⟨hmnd,List.nodup_singleton t,fun a ha b hb he =>
        htm' (List.mem_singleton.mp hb ▸ he ▸ ha)⟩
    · rw [List.length_append,List.length_singleton]
      omega
    · intro i hi'
      rw [List.mem_append,List.mem_singleton,not_or]
      exact ⟨hi i hi',fun he => hidle (he ▸ hi')⟩

/-- Waiting behind the idle task while the reaper runs. -/
theorem bounded_bypass_sample : ∃ cs,
    choices 12288 SchedRun.startedRun.sched [.reap,.schedule 6,.schedule 7] = some cs ∧ cs.Nodup ∧
    cs.length ≤ 2 ∧ (∀ i, SchedRun.startedRun.sched.idleTask = some i → i ∉ cs) ∧ 12288 ∈ cs := by
  have hring : SchedRun.startedRun.sched.RingOk [4096,8192,12288] :=
    ⟨⟨by decide,⟨rfl,rfl,rfl,rfl,rfl,rfl,trivial⟩⟩,rfl,by decide⟩
  have hops : SchedRun.startedRun.sched.SparesAll 12288 [.reap,.schedule 6,.schedule 7] :=
    ⟨trivial,fun _ _ => Or.inr ⟨trivial,fun _ _ => Or.inr ⟨trivial,fun _ _ => Or.inr trivial⟩⟩⟩
  obtain ⟨cs,hcs,hnd,hlen,hi,hmem⟩ := bounded_bypass hring (c := 4096) (by decide) rfl
    (by decide) (by decide) (by decide) rfl hops
  exact ⟨cs,hcs,hnd,hlen,hi,hmem (by decide)⟩

end Sched

end KiNBOL
