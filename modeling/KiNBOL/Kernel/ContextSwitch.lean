import KiNBOL.Framework.FlagCount
import Mathlib.Logic.Function.Basic
import Mathlib.Logic.Relation

namespace KiNBOL

/-- What `context_switch` saves, restores or leaves alone. `fpu` is the image that `fxsave64` writes;
`rip` is where the running code goes on. -/
structure Cpu (F : Type) where
  rip : BitVec 64
  rbx : BitVec 64
  rbp : BitVec 64
  r12 : BitVec 64
  r13 : BitVec 64
  r14 : BitVec 64
  r15 : BitVec 64
  rsp : Nat
  cr3 : Nat
  fsBase : BitVec 64
  fpu : F

/-- The processor, the words of the kernel stacks, the FXSAVE areas, and `rsp`, `cr3` and `fpu_state`
of the tasks. -/
structure Switching (F : Type) where
  cpu : Cpu F
  mem : Nat → BitVec 64
  area : Nat → F
  taskRsp : Nat → Nat
  taskCr3 : Nat → Nat
  fpuState : Nat → Option Nat

namespace Switching

variable {F : Type}

def push (s : Switching F) (v : BitVec 64) : Switching F :=
  { s with
    cpu := { s.cpu with rsp := s.cpu.rsp-8 }
    mem := Function.update s.mem (s.cpu.rsp-8) v }

/-- The word on top of the stack. -/
def top (s : Switching F) : BitVec 64 := s.mem s.cpu.rsp

def drop (s : Switching F) : Switching F := { s with cpu := { s.cpu with rsp := s.cpu.rsp+8 } }

def popR15 (s : Switching F) : Switching F := { s.drop with cpu := { s.drop.cpu with r15 := s.top } }
def popR14 (s : Switching F) : Switching F := { s.drop with cpu := { s.drop.cpu with r14 := s.top } }
def popR13 (s : Switching F) : Switching F := { s.drop with cpu := { s.drop.cpu with r13 := s.top } }
def popR12 (s : Switching F) : Switching F := { s.drop with cpu := { s.drop.cpu with r12 := s.top } }
def popRbp (s : Switching F) : Switching F := { s.drop with cpu := { s.drop.cpu with rbp := s.top } }
def popRbx (s : Switching F) : Switching F := { s.drop with cpu := { s.drop.cpu with rbx := s.top } }
def ret (s : Switching F) : Switching F := { s.drop with cpu := { s.drop.cpu with rip := s.top } }

/-- Steps 1 and 2 of `context_switch`. -/
def saveRegs (s : Switching F) : Switching F :=
  (((((s.push s.cpu.rbx).push s.cpu.rbp).push s.cpu.r12).push s.cpu.r13).push s.cpu.r14).push
    s.cpu.r15

def fxsave (s : Switching F) : Option Nat → Switching F
  | none => s
  | some p => { s with area := Function.update s.area p s.cpu.fpu }

/-- Step 3. -/
def swapStacks (s : Switching F) (old newRsp : Nat) : Switching F :=
  { s with
    taskRsp := Function.update s.taskRsp old s.cpu.rsp
    cpu := { s.cpu with rsp := newRsp } }

/-- Step 4. -/
def fxrstor (s : Switching F) : Option Nat → Switching F
  | none => s
  | some p => { s with cpu := { s.cpu with fpu := s.area p } }

/-- Step 5. -/
def loadCr3 (s : Switching F) (newCr3 : Nat) : Switching F :=
  if newCr3 = 0 ∨ s.cpu.cr3 = newCr3 then s else { s with cpu := { s.cpu with cr3 := newCr3 } }

/-- Steps 6 and 7. -/
def restoreRegs (s : Switching F) : Switching F :=
  s.popR15.popR14.popR13.popR12.popRbp.popRbx.ret

/-- The call of `context_switch` at the end of `sched_schedule`, until the new task goes on. -/
def contextSwitch (s : Switching F) (old new : Nat) : Switching F :=
  (((((s.push s.cpu.rip).saveRegs.fxsave (s.fpuState old)).swapStacks old (s.taskRsp new)).fxrstor
    (s.fpuState new)).loadCr3 (s.taskCr3 new)).restoreRegs

/-- `SYS_ARCH_PRCTL`, with RAX. -/
def sysArchPrctl (s : Switching F) (code : BitVec 32) (addr : BitVec 64) :
    BitVec 64 × Switching F :=
  if code = 0x1002#32 then (0#64,{ s with cpu := { s.cpu with fsBase := addr } }) else (-22#64,s)

/-- `enter_userspace` loads FS with a flat segment. -/
def enterUserspace (s : Switching F) : Switching F :=
  { s with cpu := { s.cpu with fsBase := 0#64 } }

/-- The frame of a new task: six zeros under the trampoline, the entry and its argument. -/
def newFrame (s : Switching F) (stackTop : Nat) (arg entry trampoline : BitVec 64) : Switching F :=
  let s := ((({ s with cpu := { s.cpu with rsp := stackTop/16*16 } }.push arg).push entry).push
    trampoline)
  (((((s.push 0#64).push 0#64).push 0#64).push 0#64).push 0#64).push 0#64

/-- What `task_create_internal` leaves for `context_switch`: frame, saved stack pointer, CR3 and a
default FPU image. The running code's registers stay. -/
def createTask (s : Switching F) (task stackTop cr3 : Nat) (fpu : Option Nat) (image : F)
    (arg entry trampoline : BitVec 64) : Switching F :=
  let s' := s.newFrame stackTop arg entry trampoline
  { s with
    mem := s'.mem
    area := fpu.elim s.area (fun p => Function.update s.area p image)
    taskRsp := Function.update s.taskRsp task s'.cpu.rsp
    taskCr3 := Function.update s.taskCr3 task cr3
    fpuState := Function.update s.fpuState task fpu }

section Create

variable (s : Switching F) (task stackTop cr3 : Nat) (fpu : Option Nat) (image : F)
  (arg entry trampoline : BitVec 64) (t p : Nat)

theorem createTask_mem : (s.createTask task stackTop cr3 fpu image arg entry trampoline).mem =
    (s.newFrame stackTop arg entry trampoline).mem := by
  unfold createTask
  generalize s.newFrame stackTop arg entry trampoline = s'
  rfl

theorem createTask_area : (s.createTask task stackTop cr3 fpu image arg entry trampoline).area p =
    if fpu = some p then image else s.area p := by
  unfold createTask
  generalize s.newFrame stackTop arg entry trampoline = s'
  cases fpu with
  | none => rfl
  | some q =>
    change Function.update s.area q image p = _
    rw [Function.update_apply]
    simp [eq_comm]

theorem createTask_taskRsp :
    (s.createTask task stackTop cr3 fpu image arg entry trampoline).taskRsp t =
      if t = task then (s.newFrame stackTop arg entry trampoline).cpu.rsp else s.taskRsp t := by
  unfold createTask
  generalize s.newFrame stackTop arg entry trampoline = s'
  exact Function.update_apply s.taskRsp task s'.cpu.rsp t

theorem createTask_taskCr3 :
    (s.createTask task stackTop cr3 fpu image arg entry trampoline).taskCr3 t =
      if t = task then cr3 else s.taskCr3 t := by
  unfold createTask
  generalize s.newFrame stackTop arg entry trampoline = s'
  exact Function.update_apply s.taskCr3 task cr3 t

theorem createTask_fpuState :
    (s.createTask task stackTop cr3 fpu image arg entry trampoline).fpuState t =
      if t = task then fpu else s.fpuState t := by
  unfold createTask
  generalize s.newFrame stackTop arg entry trampoline = s'
  exact Function.update_apply s.fpuState task fpu t

theorem createTask_cpu : (s.createTask task stackTop cr3 fpu image arg entry trampoline).cpu =
    s.cpu := by
  unfold createTask
  generalize s.newFrame stackTop arg entry trampoline = s'
  rfl

end Create

end Switching

end KiNBOL
