import KiNBOL.Kernel.Sched

namespace KiNBOL

namespace Sched

variable {s s' s₁ : Sched} {a b : Nat} {l : List Nat} {p : Option Nat}

theorem task_setTask (s : Sched) (a : Nat) (f : SchedTask → SchedTask) (b : Nat) :
    (s.setTask a f).task b = if b = a then f (s.task a) else s.task b :=
  Function.update_apply ..

@[simp] theorem next_setNext : (s.setNext a p).next b = if b = a then p else s.next b := by
  rw [next,setNext,task_setTask]
  split_ifs <;> rfl

@[simp] theorem prev_setNext : (s.setNext a p).prev b = s.prev b := by
  rw [prev,setNext,task_setTask]
  split_ifs with h
  · rw [h,prev]
  · rfl

@[simp] theorem next_setPrev : (s.setPrev a p).next b = s.next b := by
  rw [next,setPrev,task_setTask]
  split_ifs with h
  · rw [h,next]
  · rfl

@[simp] theorem prev_setPrev : (s.setPrev a p).prev b = if b = a then p else s.prev b := by
  rw [prev,setPrev,task_setTask]
  split_ifs <;> rfl

@[simp] theorem headTask_setNext : (s.setNext a p).headTask = s.headTask := rfl
@[simp] theorem headTask_setPrev : (s.setPrev a p).headTask = s.headTask := rfl

/-- A task without its links. -/
def bare (t : SchedTask) : SchedTask := { t with next := none, prev := none }

/-- Only links and the head of the list changed. -/
structure LinksOnly (s s' : Sched) : Prop where
  task : ∀ a, bare (s'.task a) = bare (s.task a)
  current : s'.currentTask = s.currentTask
  idle : s'.idleTask = s.idleTask
  rsp0 : s'.rsp0 = s.rsp0

theorem LinksOnly.state (h : LinksOnly s s') (a : Nat) : s'.state a = s.state a := by
  have ht := congrArg SchedTask.state (h.task a)
  exact ht

theorem LinksOnly.stack (h : LinksOnly s s') (a : Nat) :
    (s'.task a).kernelStack = (s.task a).kernelStack ∧
    (s'.task a).stackSize = (s.task a).stackSize := by
  have hk := congrArg SchedTask.kernelStack (h.task a)
  have hs := congrArg SchedTask.stackSize (h.task a)
  exact ⟨hk,hs⟩

theorem LinksOnly.trans (h : LinksOnly s s₁) (h' : LinksOnly s₁ s') : LinksOnly s s' :=
  ⟨fun a => (h'.task a).trans (h.task a),h'.current.trans h.current,h'.idle.trans h.idle,
    h'.rsp0.trans h.rsp0⟩

theorem LinksOnly.setNext (h : LinksOnly s s') (a : Nat) (p : Option Nat) :
    LinksOnly s (s'.setNext a p) := by
  apply h.trans
  constructor
  · intro b
    rw [Sched.setNext,task_setTask]
    split_ifs with hb
    · rw [hb]
      rfl
    · rfl
  all_goals rfl

theorem LinksOnly.setPrev (h : LinksOnly s s') (a : Nat) (p : Option Nat) :
    LinksOnly s (s'.setPrev a p) := by
  apply h.trans
  constructor
  · intro b
    rw [Sched.setPrev,task_setTask]
    split_ifs with hb
    · rw [hb]
      rfl
    · rfl
  all_goals rfl

theorem LinksOnly.setHead (h : LinksOnly s s') (p : Option Nat) :
    LinksOnly s { s' with headTask := p } :=
  ⟨h.task,h.current,h.idle,h.rsp0⟩

theorem LinksOnly.refl (s : Sched) : LinksOnly s s := ⟨fun _ => rfl,rfl,rfl,rfl⟩

/-- The list from `head_task` on is a circle of these tasks. -/
structure RingOk (s : Sched) (l : List Nat) : Prop where
  ring : Ring s.next s.prev l
  head : s.headTask = l.head?
  bound : ∀ a ∈ l, a < 2^64

theorem RingOk.length (h : RingOk s l) : l.length < listBound := by
  have := List.Nodup.length_le_bound h.ring.nodup h.bound
  rw [listBound]
  omega

/-- `task_list_insert` puts a task at the end. -/
theorem taskListInsert_spec (h : RingOk s l) (ha : a ∉ l) (hb : a < 2^64) :
    ∃ s', s.taskListInsert a = some s' ∧ RingOk s' (l++[a]) ∧ LinksOnly s s' := by
  have hbound : ∀ b ∈ l++[a], b < 2^64 := by
    intro b hb'
    rcases List.mem_append.mp hb' with hl | he
    · exact h.bound b hl
    · exact List.mem_singleton.mp he ▸ hb
  cases l with
  | nil =>
    have hhead : s.headTask = none := h.head
    refine ⟨_,by rw [taskListInsert,hhead],⟨Ring.single ?_ ?_,rfl,hbound⟩,
      (((LinksOnly.refl s).setNext _ _).setPrev _ _).setHead _⟩
    · change ((s.setNext a (some a)).setPrev a (some a)).next a = some a
      simp
    · change ((s.setNext a (some a)).setPrev a (some a)).prev a = some a
      simp
  | cons c m =>
    have hhead : s.headTask = some c := h.head
    obtain ⟨-,hp⟩ := h.ring.first
    have hlast : (c::m).getLast? = some (m.getLast?.getD c) := by
      cases m with
      | nil => rfl
      | cons d m =>
        rw [List.getLast?_cons_cons]
        cases hm : (d::m).getLast? with
        | none => simp at hm
        | some e => rfl
    generalize m.getLast?.getD c = t at hp hlast
    have htl : t ∈ c::m := List.mem_of_getLast? hlast
    have hta : t ≠ a := fun he => ha (he ▸ htl)
    have hca : c ≠ a := fun he => ha (by simp [he])
    have hres : s.taskListInsert a = some ((((s.setNext t (some a)).setPrev a (some t)).setNext a
        (some c)).setPrev c (some a)) := by
      rw [taskListInsert,hhead]
      simp only [hp]
    refine ⟨_,hres,⟨?_,?_,hbound⟩,
      ((((LinksOnly.refl s).setNext _ _).setPrev _ _).setNext _ _).setPrev _ _⟩
    · apply h.ring.join ha
      · rw [hlast]
        simp [Ne.symm hca]
      · intro x hx
        have hxa : x ≠ a := fun he => ha (he ▸ hx)
        simp [hlast,hxa,eq_comm]
      · intro x hx
        have hxa : x ≠ a := fun he => ha (he ▸ hx)
        simp [hxa]
    · exact hhead

/-- What `unlink` does to links and head. -/
theorem unlink_spec {c : Nat} (hp : s.prev a = some c) (hn : s.next a = some b) (hca : c ≠ a) :
    ∃ s', s.unlink a = some s' ∧ LinksOnly s s' ∧
      (∀ x, s'.next x = if x = c then some b else s.next x) ∧
      (∀ x, s'.prev x = if x = b then some c else s.prev x) ∧
      s'.headTask = if s.headTask = some a then some b else s.headTask := by
  have hlinks := ((LinksOnly.refl s).setNext c (some b)).setPrev b (some c)
  by_cases hh : s.headTask = some a
  · have hres : s.unlink a = some { (s.setNext c (some b)).setPrev b (some c) with
        headTask := some b } := by
      rw [unlink,hp,hn]
      simp [hh,Ne.symm hca,hn]
    refine ⟨_,hres,hlinks.setHead _,fun x => ?_,fun x => ?_,(if_pos hh).symm⟩
    · change ((s.setNext c (some b)).setPrev b (some c)).next x = _
      simp
    · change ((s.setNext c (some b)).setPrev b (some c)).prev x = _
      simp
  · have hres : s.unlink a = some ((s.setNext c (some b)).setPrev b (some c)) := by
      rw [unlink,hp,hn]
      simp [hh]
    exact ⟨_,hres,hlinks,fun x => by simp,fun x => by simp,(if_neg hh).symm⟩

/-- `task_list_remove` of a task of the list. -/
theorem taskListRemove_spec (h : RingOk s l) (ha : a ∈ l) :
    ∃ s', s.taskListRemove a = some s' ∧ RingOk s' (l.erase a) ∧ LinksOnly s s' := by
  obtain ⟨l₁,l₂,rfl⟩ := List.append_of_mem ha
  have hnd := h.ring.nodup
  obtain ⟨-,hnd2,hdis⟩ := List.nodup_append.mp hnd
  have ha1 : a ∉ l₁ := fun hm => hdis a hm a (by simp) rfl
  have ha2 : a ∉ l₂ := (List.nodup_cons.mp hnd2).1
  have herase : (l₁++a::l₂).erase a = l₁++l₂ := by
    rw [List.erase_append_right _ ha1,List.erase_cons_head]
  have hsome : s.headTask ≠ none := by
    rw [h.head]
    cases l₁ <;> simp
  have hbound : ∀ b ∈ l₁++l₂, b < 2^64 := fun b hb => h.bound b (by
    simp only [List.mem_append,List.mem_cons] at hb ⊢
    tauto)
  have hrot : Ring s.next s.prev (a::(l₂++l₁)) := h.ring.rotate
  obtain ⟨hn,hp⟩ := hrot.first
  rw [herase,taskListRemove,if_neg hsome]
  by_cases hrest : l₂++l₁ = []
  · obtain ⟨rfl,rfl⟩ := List.append_eq_nil_iff.mp hrest
    refine ⟨_,if_pos hn,⟨Ring.nil,rfl,by simp⟩,
      (((LinksOnly.refl s).setHead none).setNext _ _).setPrev _ _⟩
  · have hmem : ∀ b ∈ l₂++l₁, b ≠ a := by
      intro b hb he
      rcases List.mem_append.mp hb with hm | hm
      · exact ha2 (he ▸ hm)
      · exact ha1 (he ▸ hm)
    obtain ⟨b,hb⟩ : ∃ b, (l₂++l₁).head? = some b := ⟨_,List.head?_eq_some_head hrest⟩
    obtain ⟨c,hc⟩ : ∃ c, (l₂++l₁).getLast? = some c := ⟨_,List.getLast?_eq_some_getLast hrest⟩
    rw [hb,Option.getD_some] at hn
    rw [hc,Option.getD_some] at hp
    have hba := hmem b (List.mem_of_head? hb)
    have hca := hmem c (List.mem_of_getLast? hc)
    have hne : s.next a ≠ some a := by
      rw [hn]
      exact fun he => hba (Option.some.inj he)
    obtain ⟨s₁,hres,hlinks,hnext,hprev,hhead⟩ := unlink_spec hp hn hca
    rw [if_neg hne,hres]
    refine ⟨_,rfl,⟨?_,?_,hbound⟩,(hlinks.setNext a none).setPrev a none⟩
    · apply Ring.rotate
      apply hrot.leave hrest
      · intro x hx
        simp [hnext,hmem x hx,hp,hn,eq_comm]
      · intro x hx
        simp [hprev,hmem x hx,hp,hn,eq_comm]
    · change s₁.headTask = _
      rw [hhead,h.head]
      cases l₁ with
      | nil =>
        rw [List.append_nil] at hb
        simp [hb]
      | cons d m =>
        have hda : d ≠ a := hmem d (by simp)
        simp [hda]

end Sched

end KiNBOL
