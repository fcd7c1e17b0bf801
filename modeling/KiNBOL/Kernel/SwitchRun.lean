import KiNBOL.Kernel.ContextSwitch
import Mathlib.Data.List.Basic

namespace KiNBOL

namespace Switching

variable {F : Type} {s : Switching F} {c : Cpu F}

/-- The words that `context_switch` leaves on the stack, return address last. -/
structure Frame (mem : Nat → BitVec 64) (a : Nat) (c : Cpu F) : Prop where
  r15 : mem a = c.r15
  r14 : mem (a+8) = c.r14
  r13 : mem (a+16) = c.r13
  r12 : mem (a+24) = c.r12
  rbp : mem (a+32) = c.rbp
  rbx : mem (a+40) = c.rbx
  rip : mem (a+48) = c.rip

theorem Frame.congr {mem mem' : Nat → BitVec 64} {a : Nat} (h : Frame mem a c)
    (hm : ∀ x, a ≤ x → x < a+56 → mem' x = mem x) : Frame mem' a c :=
  ⟨(hm _ (by omega) (by omega)).trans h.r15,(hm _ (by omega) (by omega)).trans h.r14,
    (hm _ (by omega) (by omega)).trans h.r13,(hm _ (by omega) (by omega)).trans h.r12,
    (hm _ (by omega) (by omega)).trans h.rbp,(hm _ (by omega) (by omega)).trans h.rbx,
    (hm _ (by omega) (by omega)).trans h.rip⟩

/-- A run of pushes, first one first. -/
def pushAll (s : Switching F) (vs : List (BitVec 64)) : Switching F := vs.foldl push s

theorem pushAll_spec {vs : List (BitVec 64)} (h : 8*vs.length ≤ s.cpu.rsp) : ∃ mem,
    s.pushAll vs = { s with cpu := { s.cpu with rsp := s.cpu.rsp-8*vs.length }, mem := mem } ∧
    (∀ a, (a < s.cpu.rsp-8*vs.length ∨ s.cpu.rsp ≤ a) → mem a = s.mem a) ∧
    ∀ i v, vs[i]? = some v → mem (s.cpu.rsp-8*(i+1)) = v := by
  induction vs generalizing s with
  | nil => exact ⟨s.mem,rfl,fun _ _ => rfl,by simp⟩
  | cons v vs ih =>
    rw [List.length_cons] at h
    have hrsp : (s.push v).cpu.rsp = s.cpu.rsp-8 := rfl
    obtain ⟨mem,hres,hout,hin⟩ := ih (show 8*vs.length ≤ (s.push v).cpu.rsp by omega)
    have hpush : ∀ a, a ≠ s.cpu.rsp-8 → (s.push v).mem a = s.mem a :=
      fun a ha => Function.update_of_ne ha _ _
    rw [hrsp] at hout hin
    refine ⟨mem,?_,?_,?_⟩
    · have hlen : s.cpu.rsp-8-8*vs.length = s.cpu.rsp-8*(vs.length+1) := by omega
      rw [pushAll,List.foldl_cons,List.length_cons,← hlen]
      exact hres
    · intro a ha
      rw [List.length_cons] at ha
      rw [hout a (by omega),hpush a (by omega)]
    · intro i w hw
      cases i with
      | zero =>
        obtain rfl : v = w := by simpa using hw
        rw [hout _ (by omega)]
        exact Function.update_self _ _ _
      | succ i =>
        have hi := hin i w (by simpa using hw)
        rwa [show s.cpu.rsp-8*(i+1+1) = s.cpu.rsp-8-8*(i+1) by omega]

/-- The pushes of `context_switch` and of its call. -/
theorem saveRegs_spec (h : 56 ≤ s.cpu.rsp) : ∃ mem,
    (s.push s.cpu.rip).saveRegs = { s with cpu := { s.cpu with rsp := s.cpu.rsp-56 }, mem := mem } ∧
    Frame mem (s.cpu.rsp-56) s.cpu ∧ ∀ a, (a < s.cpu.rsp-56 ∨ s.cpu.rsp ≤ a) → mem a = s.mem a := by
  let c := s.cpu
  obtain ⟨mem,hres,hout,hin⟩ := pushAll_spec (s := s)
    (show 8*[c.rip,c.rbx,c.rbp,c.r12,c.r13,c.r14,c.r15].length ≤ s.cpu.rsp from h)
  have hat : ∀ i v, [c.rip,c.rbx,c.rbp,c.r12,c.r13,c.r14,c.r15][i]? = some v → i < 7 →
      mem (s.cpu.rsp-56+(48-8*i)) = v := by
    intro i v hv hi
    rw [show s.cpu.rsp-56+(48-8*i) = s.cpu.rsp-8*(i+1) by omega]
    exact hin i v hv
  refine ⟨mem,hres,?_,hout⟩
  constructor
  · exact hat 6 _ rfl (by omega)
  · exact hat 5 _ rfl (by omega)
  · exact hat 4 _ rfl (by omega)
  · exact hat 3 _ rfl (by omega)
  · exact hat 2 _ rfl (by omega)
  · exact hat 1 _ rfl (by omega)
  · exact hat 0 _ rfl (by omega)

/-- The pops of `context_switch` and its return. -/
theorem restoreRegs_spec (h : Frame s.mem s.cpu.rsp c) :
    s.restoreRegs = { s with cpu := { c with
      rsp := s.cpu.rsp+56, cr3 := s.cpu.cr3, fsBase := s.cpu.fsBase, fpu := s.cpu.fpu } } := by
  simp only [restoreRegs,popR15,popR14,popR13,popR12,popRbp,popRbx,ret,drop,top,Nat.add_assoc,
    h.r15,h.r14,h.r13,h.r12,h.rbp,h.rbx,h.rip,Nat.reduceAdd]

/-- A task that does not run: its frame and its saved stack pointer, CR3 and FPU image. -/
structure Saved (s : Switching F) (t : Nat) (c : Cpu F) : Prop where
  rsp : s.taskRsp t+56 = c.rsp
  frame : Frame s.mem (s.taskRsp t) c
  cr3 : s.taskCr3 t = c.cr3
  fpu : ∀ p, s.fpuState t = some p → s.area p = c.fpu

/-- What a task that goes on finds in the processor. -/
structure Resumed (s : Switching F) (t : Nat) (c : Cpu F) : Prop where
  regs : s.cpu.rip = c.rip ∧ s.cpu.rbx = c.rbx ∧ s.cpu.rbp = c.rbp ∧ s.cpu.r12 = c.r12 ∧
    s.cpu.r13 = c.r13 ∧ s.cpu.r14 = c.r14 ∧ s.cpu.r15 = c.r15
  rsp : s.cpu.rsp = c.rsp
  cr3 : s.cpu.cr3 = c.cr3
  fpu : s.fpuState t ≠ none → s.cpu.fpu = c.fpu

/-- The frame that `task_create_internal` builds. -/
theorem newFrame_spec {stackTop : Nat} (h16 : stackTop%16 = 0) (h : 72 ≤ stackTop)
    (arg entry trampoline : BitVec 64) {c : Cpu F} (hc : c.rip = trampoline)
    (hz : c.rbx = 0#64 ∧ c.rbp = 0#64 ∧ c.r12 = 0#64 ∧ c.r13 = 0#64 ∧ c.r14 = 0#64 ∧ c.r15 = 0#64) :
    (s.newFrame stackTop arg entry trampoline).cpu.rsp = stackTop-72 ∧
    Frame (s.newFrame stackTop arg entry trampoline).mem (stackTop-72) c ∧
    ∀ a, (a < stackTop-72 ∨ stackTop ≤ a) →
      (s.newFrame stackTop arg entry trampoline).mem a = s.mem a := by
  let vs := [arg,entry,trampoline,0#64,0#64,0#64,0#64,0#64,0#64]
  have htop : stackTop/16*16 = stackTop := by omega
  have hnew : s.newFrame stackTop arg entry trampoline =
      ({ s with cpu := { s.cpu with rsp := stackTop } } : Switching F).pushAll vs := by
    rw [newFrame,htop]
    rfl
  obtain ⟨mem,hres,hout,hin⟩ := @pushAll_spec F { s with cpu := { s.cpu with rsp := stackTop } } vs h
  rw [hnew,hres]
  have hat : ∀ i v, vs[i]? = some v → 2 ≤ i → i < 9 → mem (stackTop-72+(64-8*i)) = v := by
    intro i v hv h2 h9
    rw [show stackTop-72+(64-8*i) = stackTop-8*(i+1) by omega]
    exact hin i v hv
  obtain ⟨z1,z2,z3,z4,z5,z6⟩ := hz
  refine ⟨rfl,?_,hout⟩
  constructor
  · exact (hat 8 _ rfl (by omega) (by omega)).trans z6.symm
  · exact (hat 7 _ rfl (by omega) (by omega)).trans z5.symm
  · exact (hat 6 _ rfl (by omega) (by omega)).trans z4.symm
  · exact (hat 5 _ rfl (by omega) (by omega)).trans z3.symm
  · exact (hat 4 _ rfl (by omega) (by omega)).trans z2.symm
  · exact (hat 3 _ rfl (by omega) (by omega)).trans z1.symm
  · exact (hat 2 _ rfl (by omega) (by omega)).trans hc.symm

theorem loadCr3_eq {n : Nat} (hn : n ≠ 0) :
    s.loadCr3 n = { s with cpu := { s.cpu with cr3 := n } } := by
  unfold loadCr3
  split_ifs with h
  · rw [← h.resolve_left hn]
  · rfl

/-- `context_switch` from one task to another whose stack and FXSAVE area are its own. -/
theorem contextSwitch_spec {old new : Nat} (hroom : 56 ≤ s.cpu.rsp)
    (hc : s.Saved new c) (hcr3 : s.taskCr3 new ≠ 0)
    (hstk : ∀ a, s.taskRsp new ≤ a → a < s.taskRsp new+56 → a < s.cpu.rsp-56 ∨ s.cpu.rsp ≤ a)
    (harea : ∀ p, s.fpuState new = some p → s.fpuState old ≠ some p) :
    (s.contextSwitch old new).Resumed new c ∧ (s.contextSwitch old new).Saved old
      { s.cpu with cr3 := s.taskCr3 old } ∧
    (s.contextSwitch old new).cpu.fsBase = s.cpu.fsBase ∧
    (∀ a, (a < s.cpu.rsp-56 ∨ s.cpu.rsp ≤ a) → (s.contextSwitch old new).mem a = s.mem a) ∧
    (∀ p, s.fpuState old ≠ some p → (s.contextSwitch old new).area p = s.area p) ∧
    (∀ t, t ≠ old → (s.contextSwitch old new).taskRsp t = s.taskRsp t) ∧
    (s.contextSwitch old new).taskCr3 = s.taskCr3 ∧
    (s.contextSwitch old new).fpuState = s.fpuState := by
  obtain ⟨mem,hsave,hframe,hother⟩ := saveRegs_spec hroom
  have hnew : Frame mem (s.taskRsp new) c :=
    hc.frame.congr (fun a h1 h2 => hother a (hstk a h1 h2))
  -- the state after the pushes, the FXSAVE and the switch of stacks
  let s₁ : Switching F := ({ s with cpu := { s.cpu with rsp := s.cpu.rsp-56 }, mem := mem }.fxsave
    (s.fpuState old)).swapStacks old (s.taskRsp new)
  have harea₁ : ∀ p, s.fpuState old ≠ some p → s₁.area p = s.area p := by
    intro p hp
    cases ho : s.fpuState old with
    | none => simp [s₁,ho,fxsave,swapStacks]
    | some q =>
      have hpq : p ≠ q := fun he => hp (ho.trans (congrArg some he.symm))
      simp [s₁,ho,fxsave,swapStacks,hpq]
  have hold₁ : ∀ p, s.fpuState old = some p → s₁.area p = s.cpu.fpu := by
    intro p hp
    simp [s₁,hp,fxsave,swapStacks]
  have hrest : s₁.cpu = { s.cpu with rsp := s.taskRsp new } ∧ s₁.mem = mem ∧
      s₁.taskRsp = Function.update s.taskRsp old (s.cpu.rsp-56) ∧ s₁.taskCr3 = s.taskCr3 ∧
      s₁.fpuState = s.fpuState := by
    cases ho : s.fpuState old <;> simp [s₁,ho,fxsave,swapStacks]
  obtain ⟨hcpu₁,hmem₁,hrsp₁,hcr3₁,hfpu₁⟩ := hrest
  have hfs : s₁.cpu.fsBase = s.cpu.fsBase := by rw [hcpu₁]
  have hres : s.contextSwitch old new =
      ((s₁.fxrstor (s.fpuState new)).loadCr3 (s.taskCr3 new)).restoreRegs := by
    rw [contextSwitch,hsave]
  obtain ⟨fpu,hfpu,hload⟩ : ∃ fpu, (s.fpuState new ≠ none → fpu = c.fpu) ∧
      s₁.fxrstor (s.fpuState new) = { s₁ with cpu := { s₁.cpu with fpu := fpu } } := by
    cases hn : s.fpuState new with
    | none => exact ⟨s₁.cpu.fpu,by simp,rfl⟩
    | some p =>
      refine ⟨s₁.area p,fun _ => ?_,rfl⟩
      rw [harea₁ p (harea p hn),hc.fpu p hn]
  rw [hload,loadCr3_eq hcr3,restoreRegs_spec (by rw [hcpu₁,hmem₁]; exact hnew)] at hres
  rw [hres]
  refine ⟨⟨⟨rfl,rfl,rfl,rfl,rfl,rfl,rfl⟩,?_,hc.cr3,?_⟩,⟨?_,?_,?_,?_⟩,?_,?_,harea₁,?_,hcr3₁,hfpu₁⟩
  · rw [← hc.rsp]
    simp [hcpu₁]
  · intro hn
    exact hfpu (hfpu₁ ▸ hn)
  · simp only [hrsp₁,Function.update_self]
    omega
  · simp only [hrsp₁,Function.update_self,hmem₁]
    exact ⟨hframe.r15,hframe.r14,hframe.r13,hframe.r12,hframe.rbp,hframe.rbx,hframe.rip⟩
  · exact congrFun hcr3₁ old
  · intro p hp
    exact hold₁ p (hfpu₁ ▸ hp)
  · exact hfs
  · intro a ha
    exact (congrFun hmem₁ a).trans (hother a ha)
  · intro t ht
    simp only [hrsp₁,Function.update_of_ne ht]

end Switching

/-- The machine, the tasks that may run, the stacks they own, and each task's registers when it was
last switched out. -/
structure SwitchRun (F : Type) where
  mach : Switching F
  alive : List Nat
  current : Nat
  stackBase : Nat → Nat
  stackEnd : Nat → Nat
  user : Nat → Bool
  last : Nat → Option (Cpu F)

/-- What the running task does, a switch, or the end of a task. -/
inductive SwitchOp (F : Type)
  | work (cpu : Cpu F) (mem : Nat → BitVec 64) (area : Nat → F)
  | archPrctl (code : BitVec 32) (addr : BitVec 64)
  | enterUserspace
  | switch (new : Nat)
  | create (task stack cr3 : Nat) (user : Bool) (fpu : Option Nat) (image : F)
      (arg entry trampoline : BitVec 64)
  | reap (task : Nat)

namespace SwitchRun

variable {F : Type}

def step (r : SwitchRun F) : SwitchOp F → SwitchRun F
  | .work cpu mem area => { r with mach := { r.mach with cpu := cpu, mem := mem, area := area } }
  | .archPrctl code addr => { r with mach := (r.mach.sysArchPrctl code addr).2 }
  | .enterUserspace => { r with mach := r.mach.enterUserspace }
  | .switch new => { r with
      mach := r.mach.contextSwitch r.current new
      current := new
      last := Function.update r.last r.current (some r.mach.cpu) }
  | .create task stack cr3 user fpu image arg entry trampoline => { r with
      mach := r.mach.createTask task (stack+16384) cr3 fpu image arg entry trampoline
      alive := task::r.alive
      stackBase := Function.update r.stackBase task stack
      stackEnd := Function.update r.stackEnd task (stack+16384)
      user := Function.update r.user task user
      last := Function.update r.last task none }
  | .reap task => { r with alive := r.alive.erase task }

/-- A word of a task's stack. -/
def OnStack (r : SwitchRun F) (t a : Nat) : Prop := r.stackBase t ≤ a ∧ a < r.stackEnd t

/-- Code runs on its own stack, writes no other task's stack or FXSAVE area, and changes CR3 and FS
base by the calls above only; a new task gets memory that no task has; tasks are switched to and
reaped while they are there. -/
def Legal (r : SwitchRun F) : SwitchOp F → Prop
  | .work cpu mem area => cpu.cr3 = r.mach.cpu.cr3 ∧ cpu.fsBase = r.mach.cpu.fsBase ∧
      r.stackBase r.current+56 ≤ cpu.rsp ∧ cpu.rsp ≤ r.stackEnd r.current ∧
      ∀ t ∈ r.alive, t ≠ r.current → (∀ a, r.OnStack t a → mem a = r.mach.mem a) ∧
        ∀ p, r.mach.fpuState t = some p → area p = r.mach.area p
  | .switch new => new ∈ r.alive ∧ new ≠ r.current
  | .create task stack cr3 _ fpu _ _ _ _ => task ∉ r.alive ∧ stack%16 = 0 ∧ cr3 ≠ 0 ∧
      ∀ t ∈ r.alive, (∀ a, stack ≤ a → a < stack+16384 → ¬r.OnStack t a) ∧
        ∀ p, fpu = some p → r.mach.fpuState t ≠ some p
  | .reap task => task ≠ r.current
  | _ => True

def Step (r r' : SwitchRun F) : Prop := ∃ op, r.Legal op ∧ r' = r.step op

end SwitchRun

end KiNBOL
