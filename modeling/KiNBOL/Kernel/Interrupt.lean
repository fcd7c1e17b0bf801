import KiNBOL.Framework.StackCode
import Mathlib.Data.BitVec
import Mathlib.Data.List.FinRange

namespace KiNBOL

/-- The registers that `isr_common` pushes, in its order. -/
inductive Gpr where
  | rax | rbx | rcx | rdx | rsi | rdi | rbp | r8 | r9 | r10 | r11 | r12 | r13 | r14 | r15
  deriving DecidableEq

structure Fpu where
  xmm : Fin 16 → BitVec 128
  mxcsr : BitVec 32

/-- The interrupted code. -/
structure Context where
  gpr : Gpr → BitVec 64
  rip : BitVec 64
  cs : BitVec 64
  rflags : BitVec 64
  rsp : BitVec 64
  ss : BitVec 64
  fpu : Fpu

/-- The CPU in the interrupt code: registers, stack words, and the SSE registers. -/
structure Isr where
  stack : StackRegs Gpr (BitVec 64)
  fpu : Fpu

abbrev Words := Nat → BitVec 64

/-- The vectors for which the CPU pushes an error code. -/
def cpuErrorCode : List (Fin 256) := [8,10,11,12,13,14,17,21,29,30]

/-- What the CPU pushes on the stack it switched to. -/
def cpuFrame (vec : Fin 256) (err : BitVec 64) (c : Context) : List (BitVec 64) :=
  [c.ss,c.rsp,c.rflags,c.cs,c.rip]++if vec ∈ cpuErrorCode then [err] else []

/-- The stack pointer is brought to a multiple of 16 first. -/
def enter (vec : Fin 256) (err : BitVec 64) (top : Nat) (mem : Words) (c : Context) : Isr where
  stack := StackRegs.pushWords { regs := c.gpr, sp := top/16*16, mem } (cpuFrame vec err c)
  fpu := c.fpu

/-- `isr8`, `isr13`, `isr14` and `EXC_STUB_ERR`. -/
def excStubErr : List (Fin 256) := [8,13,14,10,11,12,17,21,29,30]

/-- The gates that `idt_init` moves from `isr_common` to a stub. -/
def stubGates : List (Fin 256) :=
  [0,6,8,13,14,1,2,3,4,5,7,9,10,11,12,15,16,17,18,19,20,21,22,23,24,25,26,27,28,29,30,31,
    32,33,34,35,36,37,38,39,40,41,42,43,44,45,46,47]

/-- What the gate of a vector pushes before `isr_common`. -/
def gateWords (vec : Fin 256) : List (BitVec 64) :=
  if vec ∈ stubGates then
    (if vec ∈ excStubErr then [] else [0#64])++[BitVec.ofNat 64 vec]
  else []

def gate (vec : Fin 256) (s : Isr) : Isr := { s with stack := s.stack.pushWords (gateWords vec) }

def isrPushed : List Gpr :=
  [.rax,.rbx,.rcx,.rdx,.rsi,.rdi,.rbp,.r8,.r9,.r10,.r11,.r12,.r13,.r14,.r15]

def isrPopped : List Gpr :=
  [.r15,.r14,.r13,.r12,.r11,.r10,.r9,.r8,.rbp,.rdi,.rsi,.rdx,.rcx,.rbx,.rax]

/-- The index of a register in the `regs` of a handler. -/
def regsIndex : Gpr → Nat
  | .r15 => 0 | .r14 => 1 | .r13 => 2 | .r12 => 3 | .r11 => 4 | .r10 => 5 | .r9 => 6 | .r8 => 7
  | .rbp => 8 | .rdi => 9 | .rsi => 10 | .rdx => 11 | .rcx => 12 | .rbx => 13 | .rax => 14

/-- An unaligned store of 16 bytes. -/
def movdquStore (m : Words) (a : Nat) (x : BitVec 128) : Words :=
  Function.update (Function.update m a (x.extractLsb' 0 64)) (a+8) (x.extractLsb' 64 64)

def movdquLoad (m : Words) (a : Nat) : BitVec 128 := m (a+8) ++ m a

/-- Only the low half of the word is written. -/
def stmxcsr (m : Words) (a : Nat) (v : BitVec 32) : Words :=
  Function.update m a ((m a).extractLsb' 32 32 ++ v)

def ldmxcsr (m : Words) (a : Nat) : BitVec 32 := (m a).extractLsb' 0 32

def saveXmm (m : Words) (a : Nat) (f : Fin 16 → BitVec 128) : Words :=
  (List.finRange 16).foldl (fun m i => movdquStore m (a+16*i.val) (f i)) m

/-- `isr_common` up to its call. -/
def isrSave (s : Isr) : Isr :=
  let s₁ := s.stack.pushAll isrPushed
  let regs := Function.update s₁.regs .rdi (s₁.mem (s₁.sp+120))
  let regs := Function.update regs .rsi (s₁.mem (s₁.sp+128))
  let regs := Function.update regs .rdx (s₁.mem (s₁.sp+136))
  let regs := Function.update regs .rcx (BitVec.ofNat 64 s₁.sp)
  let sp := s₁.sp-288
  let mem := saveXmm (stmxcsr s₁.mem (sp+16) s.fpu.mxcsr) (sp+32) s.fpu.xmm
  { stack := { regs, sp, mem }, fpu := s.fpu }

/-- What `irq_dispatcher` may do before it returns: it keeps its caller's stack, apart from the
array it was given. -/
structure Called (s t : Isr) (gpr : Gpr → BitVec 64) : Prop where
  sp : t.stack.sp = s.stack.sp
  regs : ∀ r, t.stack.mem (s.stack.sp+288+8*regsIndex r) = gpr r
  kept : ∀ a, s.stack.sp ≤ a → a < s.stack.sp+288 ∨ s.stack.sp+288+8*15 ≤ a →
    t.stack.mem a = s.stack.mem a

/-- `isr_common` from its call to `iretq`. -/
def isrRestore (s : Isr) : Isr :=
  let fpu : Fpu :=
    { xmm := fun i => movdquLoad s.stack.mem (s.stack.sp+32+16*i.val)
      mxcsr := ldmxcsr s.stack.mem (s.stack.sp+16) }
  let s₁ := StackRegs.popAll { s.stack with sp := s.stack.sp+288 } isrPopped
  { stack := { s₁ with sp := s₁.sp+16 }, fpu }

def iretq (s : Isr) : Context where
  gpr := s.stack.regs
  rip := s.stack.mem s.stack.sp
  cs := s.stack.mem (s.stack.sp+8)
  rflags := s.stack.mem (s.stack.sp+16)
  rsp := s.stack.mem (s.stack.sp+24)
  ss := s.stack.mem (s.stack.sp+32)
  fpu := s.fpu

/-- `c'` goes on after an interrupt of `c` whose handler left `gpr` in its array. -/
def Interrupted (vec : Fin 256) (err : BitVec 64) (top : Nat) (mem : Words) (c : Context)
    (gpr : Gpr → BitVec 64) (c' : Context) : Prop :=
  ∃ t, Called (isrSave (gate vec (enter vec err top mem c))) t gpr ∧ c' = iretq (isrRestore t)

section Gates

variable {vec : Fin 256} {top k : Nat} {mem : Words} (err : BitVec 64) (c : Context)

theorem mem_stubGates : vec ∈ stubGates ↔ vec < 48 := by
  revert vec
  decide +kernel

theorem excStubErr_eq : vec ∈ excStubErr ↔ vec ∈ cpuErrorCode := by
  revert vec
  decide +kernel

/-- What lies above the registers, from the top down. -/
theorem stub_frame (h : vec < 48) : cpuFrame vec err c++gateWords vec =
    [c.ss,c.rsp,c.rflags,c.cs,c.rip,if vec ∈ cpuErrorCode then err else 0#64,
      BitVec.ofNat 64 vec] := by
  rw [cpuFrame,gateWords,if_pos (mem_stubGates.mpr h),if_congr excStubErr_eq rfl rfl]
  by_cases hv : vec ∈ cpuErrorCode <;> simp [hv]

theorem common_frame (h : ¬vec < 48) : cpuFrame vec err c++gateWords vec =
    [c.ss,c.rsp,c.rflags,c.cs,c.rip] := by
  have hv : vec ∉ cpuErrorCode := by
    revert vec
    decide +kernel
  rw [cpuFrame,gateWords,if_neg (fun hm => h (mem_stubGates.mp hm)),if_neg hv,List.append_nil,
    List.append_nil]

variable {err c} in
theorem gate_stack : (gate vec (enter vec err top mem c)).stack = StackRegs.pushWords
    { regs := c.gpr, sp := top/16*16, mem } (cpuFrame vec err c++gateWords vec) :=
  (List.foldl_append ..).symm

end Gates

section Common

variable {m : Words} {a b d : Nat} {x : BitVec 128} {f : Fin 16 → BitVec 128} {i : Fin 16}
  {s t : Isr} {gpr : Gpr → BitVec 64}

theorem movdquStore_other (h : b ≠ a) (h8 : b ≠ a+8) : movdquStore m a x b = m b := by
  rw [movdquStore,Function.update_of_ne h8,Function.update_of_ne h]

theorem movdquLoad_store : movdquLoad (movdquStore m a x) a = x := by
  have hlow : movdquStore m a x a = x.extractLsb' 0 64 := by
    rw [movdquStore,Function.update_of_ne (by omega),Function.update_self]
  have hhigh : movdquStore m a x (a+8) = x.extractLsb' 64 64 := Function.update_self ..
  rw [movdquLoad,hlow,hhigh]
  exact BitVec.extractLsb'_append_extractLsb' (w := 64)

theorem ldmxcsr_stmxcsr {v : BitVec 32} : ldmxcsr (stmxcsr m a v) a = v := by
  rw [ldmxcsr,stmxcsr,Function.update_self]
  exact BitVec.extractLsb'_append_eq_right

theorem movdquStores_other {l : List (Fin 16)} (h : ∀ i ∈ l, b ≠ a+16*i.val ∧ b ≠ a+16*i.val+8) :
    l.foldl (fun m i => movdquStore m (a+16*i.val) (f i)) m b = m b := by
  induction l generalizing m with
  | nil => rfl
  | cons j l ih =>
    have hj := h j List.mem_cons_self
    exact (ih (fun i hi => h i (List.mem_cons_of_mem _ hi))).trans (movdquStore_other hj.1 hj.2)

theorem movdquStores_load {l : List (Fin 16)} (hnd : l.Nodup) (hi : i ∈ l) :
    movdquLoad (l.foldl (fun m i => movdquStore m (a+16*i.val) (f i)) m) (a+16*i.val) = f i := by
  induction l generalizing m with
  | nil => simp at hi
  | cons j l ih =>
    obtain ⟨hj,hnd⟩ := List.nodup_cons.mp hnd
    rcases List.mem_cons.mp hi with rfl | hi
    · have hne : ∀ k ∈ l, k.val ≠ i.val := fun k hk hv => hj (Fin.ext hv ▸ hk)
      have hlow := movdquStores_other (m := movdquStore m (a+16*i.val) (f i)) (f := f) (a := a)
        (b := a+16*i.val) (l := l) (fun k hk => by have := hne k hk; omega)
      have hhigh := movdquStores_other (m := movdquStore m (a+16*i.val) (f i)) (f := f) (a := a)
        (b := a+16*i.val+8) (l := l) (fun k hk => by have := hne k hk; omega)
      rw [List.foldl_cons,movdquLoad,hlow,hhigh]
      exact movdquLoad_store
    · exact ih hnd hi

theorem saveXmm_load : movdquLoad (saveXmm m a f) (a+16*i.val) = f i :=
  movdquStores_load (List.nodup_finRange 16) (List.mem_finRange i)

theorem saveXmm_other (h : b < a ∨ a+256 ≤ b) : saveXmm m a f b = m b :=
  movdquStores_other (fun i _ => by have := i.isLt; omega)

/-- What the call of `irq_dispatcher` finds on the stack. -/
structure Saved (s t : Isr) : Prop where
  sp : t.stack.sp = s.stack.sp-408
  regs : ∀ r, t.stack.mem (t.stack.sp+288+8*regsIndex r) = s.stack.regs r
  xmm : ∀ i : Fin 16, movdquLoad t.stack.mem (t.stack.sp+32+16*i.val) = s.fpu.xmm i
  mxcsr : ldmxcsr t.stack.mem (t.stack.sp+16) = s.fpu.mxcsr
  above : ∀ a, s.stack.sp ≤ a → t.stack.mem a = s.stack.mem a

theorem regsIndex_pushed (r : Gpr) : regsIndex r < 15 ∧ isrPushed[14-regsIndex r]? = some r := by
  cases r <;> decide

theorem regsIndex_popped (r : Gpr) : isrPopped[regsIndex r]? = some r := by
  cases r <;> rfl

/-- The stack after the pushes stays below what `isr_common` stores. -/
theorem isrSave_mem (h : 408 ≤ s.stack.sp) (ha : s.stack.sp-120 ≤ a) :
    (isrSave s).stack.mem a = (s.stack.pushAll isrPushed).mem a := by
  have hsp : (s.stack.pushAll isrPushed).sp = s.stack.sp-120 := StackRegs.pushAll_sp
  change saveXmm _ ((s.stack.pushAll isrPushed).sp-288+32) _ a = _
  rw [saveXmm_other (by omega),stmxcsr,Function.update_of_ne (by omega)]

/-- The arguments of the call. -/
theorem isrSave_args (s : Isr) :
    (isrSave s).stack.regs .rdi = (s.stack.pushAll isrPushed).mem (s.stack.sp-120+120) ∧
    (isrSave s).stack.regs .rsi = (s.stack.pushAll isrPushed).mem (s.stack.sp-120+128) ∧
    (isrSave s).stack.regs .rdx = (s.stack.pushAll isrPushed).mem (s.stack.sp-120+136) ∧
    (isrSave s).stack.regs .rcx = BitVec.ofNat 64 (s.stack.sp-120) := by
  have hlen : isrPushed.length = 15 := rfl
  simp [isrSave,hlen]

theorem isrSave_saved (h : 408 ≤ s.stack.sp) : Saved s (isrSave s) := by
  have hpush : (s.stack.pushAll isrPushed).sp = s.stack.sp-120 := StackRegs.pushAll_sp
  have hsp : (isrSave s).stack.sp = s.stack.sp-408 := by
    change (s.stack.pushAll isrPushed).sp-288 = _
    omega
  have hmem : (isrSave s).stack.mem = saveXmm
      (stmxcsr (s.stack.pushAll isrPushed).mem ((isrSave s).stack.sp+16) s.fpu.mxcsr)
      ((isrSave s).stack.sp+32) s.fpu.xmm := rfl
  refine ⟨hsp,fun r => ?_,fun i => ?_,?_,fun a ha => ?_⟩
  · obtain ⟨hlt,hr⟩ := regsIndex_pushed r
    obtain ⟨hk,hget⟩ := List.getElem?_eq_some_iff.mp hr
    have hword := @StackRegs.pushAll_word _ _ s.stack isrPushed
      (14-regsIndex r) (show 8*15 ≤ s.stack.sp by omega) hk
    have haddr : (isrSave s).stack.sp+288+8*regsIndex r = s.stack.sp-8*(14-regsIndex r+1) := by
      omega
    rw [haddr,isrSave_mem h (by omega),hword,hget]
  · rw [hmem]
    exact saveXmm_load
  · rw [hmem,ldmxcsr,saveXmm_other (by omega)]
    exact ldmxcsr_stmxcsr
  · rw [isrSave_mem h (by omega)]
    exact StackRegs.pushAll_above (show 8*15 ≤ s.stack.sp by omega) ha

/-- What comes back from a handler. -/
theorem isrRestore_called (h : 408 ≤ s.stack.sp) (hc : Called (isrSave s) t gpr) :
    (isrRestore t).stack.regs = gpr ∧ (isrRestore t).stack.sp = s.stack.sp+16 ∧
      (isrRestore t).fpu = s.fpu ∧
      ∀ a, s.stack.sp ≤ a → (isrRestore t).stack.mem a = s.stack.mem a := by
  have hs := isrSave_saved h
  have hsp := hc.sp.trans hs.sp
  have hmem : (isrRestore t).stack.mem = t.stack.mem := StackRegs.popAll_mem
  have hload : ∀ a, s.stack.sp-408 ≤ a → a < s.stack.sp-120 →
      t.stack.mem a = (isrSave s).stack.mem a := by
    intro a hlo hhi
    exact hc.kept a (by rw [hs.sp]; exact hlo) (Or.inl (by rw [hs.sp]; omega))
  refine ⟨funext fun r => ?_,?_,?_,fun a ha => ?_⟩
  · obtain ⟨hk,hget⟩ := List.getElem?_eq_some_iff.mp (regsIndex_popped r)
    have hword := StackRegs.popAll_word (s := { t.stack with sp := t.stack.sp+288 })
      (show isrPopped.Nodup by decide) hk
    rw [hget] at hword
    refine hword.trans ?_
    rw [← hc.regs r,hc.sp]
  · change (StackRegs.popAll { t.stack with sp := t.stack.sp+288 } isrPopped).sp+16 = _
    rw [StackRegs.popAll_sp]
    change t.stack.sp+288+8*15+16 = _
    omega
  · have hxmm : (fun i : Fin 16 => movdquLoad t.stack.mem (t.stack.sp+32+16*i.val)) =
        s.fpu.xmm := by
      funext i
      have hi := i.isLt
      rw [← hs.xmm i,movdquLoad,movdquLoad,hsp,hs.sp,hload _ (by omega) (by omega),
        hload _ (by omega) (by omega)]
    have hmxcsr : ldmxcsr t.stack.mem (t.stack.sp+16) = s.fpu.mxcsr := by
      rw [← hs.mxcsr,ldmxcsr,ldmxcsr,hsp,hs.sp,hload _ (by omega) (by omega)]
    exact congrArg₂ Fpu.mk hxmm hmxcsr
  · rw [hmem,hc.kept a (by rw [hs.sp]; omega) (Or.inr (by rw [hs.sp]; omega))]
    exact hs.above a ha

end Common

/-- The arguments of `irq_dispatcher`, and what `exception_fatal` prints from `regs`. The stack is
aligned as the C code expects. -/
structure HandlerSees (vec : Fin 256) (err : BitVec 64) (c : Context) (s : Isr) : Prop where
  irqNum : s.stack.regs .rdi = BitVec.ofNat 64 vec
  errorCode : s.stack.regs .rsi = if vec ∈ cpuErrorCode then err else 0#64
  rip : s.stack.regs .rdx = c.rip
  regsAddr : s.stack.regs .rcx = BitVec.ofNat 64 (s.stack.sp+288)
  regs : ∀ r, s.stack.mem (s.stack.sp+288+8*regsIndex r) = c.gpr r
  cs : s.stack.mem (s.stack.sp+288+8*18) = c.cs
  rflags : s.stack.mem (s.stack.sp+288+8*19) = c.rflags
  aligned : s.stack.sp%16 = 0

/-- The handler is told what happened, and the interrupted code goes on where it was, with the
registers that the handler left in its array. -/
structure InterruptServed (vec : Fin 256) : Prop where
  sees : ∀ err top mem c, 464 ≤ top →
    HandlerSees vec err c (isrSave (gate vec (enter vec err top mem c)))
  resumes : ∀ err top mem c gpr c', 464 ≤ top → Interrupted vec err top mem c gpr c' →
    c' = { c with gpr := gpr }

section Gate

variable {vec : Fin 256} {err : BitVec 64} {top k : Nat} {mem : Words} {c c' : Context}
  {gpr : Gpr → BitVec 64} {v : BitVec 64}

theorem gate_sp : (gate vec (enter vec err top mem c)).stack.sp =
    top/16*16-8*(cpuFrame vec err c++gateWords vec).length := by
  rw [gate_stack,StackRegs.pushWords_sp]

theorem gate_word (mem : Words) (hroom : 8*(cpuFrame vec err c++gateWords vec).length ≤ top/16*16)
    (hk : (cpuFrame vec err c++gateWords vec)[k]? = some v) :
    (gate vec (enter vec err top mem c)).stack.mem (top/16*16-8*(k+1)) = v := by
  obtain ⟨hlt,rfl⟩ := List.getElem?_eq_some_iff.mp hk
  rw [gate_stack]
  exact StackRegs.pushWords_word hroom hlt

/-- The stack under a stub. -/
structure StubFrame (vec : Fin 256) (err : BitVec 64) (c : Context) (s : Isr) : Prop where
  vector : s.stack.mem s.stack.sp = BitVec.ofNat 64 vec
  errorCode : s.stack.mem (s.stack.sp+8) = if vec ∈ cpuErrorCode then err else 0#64
  rip : s.stack.mem (s.stack.sp+16) = c.rip
  cs : s.stack.mem (s.stack.sp+24) = c.cs
  rflags : s.stack.mem (s.stack.sp+32) = c.rflags
  rsp : s.stack.mem (s.stack.sp+40) = c.rsp
  ss : s.stack.mem (s.stack.sp+48) = c.ss
  room : 408 ≤ s.stack.sp
  aligned : (s.stack.sp+56)%16 = 0

theorem stub_stack (err : BitVec 64) (mem : Words) (c : Context) (h : vec < 48)
    (htop : 464 ≤ top) :
    StubFrame vec err c (gate vec (enter vec err top mem c)) := by
  have hframe := stub_frame err c h
  have hsp : (gate vec (enter vec err top mem c)).stack.sp = top/16*16-56 := by
    rw [gate_sp,hframe]
    rfl
  have hword : ∀ k v, (cpuFrame vec err c++gateWords vec)[k]? = some v → k < 7 →
      (gate vec (enter vec err top mem c)).stack.mem
        ((gate vec (enter vec err top mem c)).stack.sp+8*(6-k)) = v := by
    intro k v hk hlt
    rw [hsp,← gate_word mem (show 8*_ ≤ top/16*16 by rw [hframe]; simp; omega) hk]
    congr 1
    omega
  rw [hframe] at hword
  exact ⟨hword 6 _ rfl (by omega),hword 5 _ rfl (by omega),hword 4 _ rfl (by omega),
    hword 3 _ rfl (by omega),hword 2 _ rfl (by omega),hword 1 _ rfl (by omega),
    hword 0 _ rfl (by omega),by omega,by omega⟩

theorem stub_sees (h : vec < 48) (htop : 464 ≤ top) :
    HandlerSees vec err c (isrSave (gate vec (enter vec err top mem c))) := by
  have hf := stub_stack err mem c h htop
  have hregs : (gate vec (enter vec err top mem c)).stack.regs = c.gpr := by
    rw [gate_stack,StackRegs.pushWords_regs]
  generalize gate vec (enter vec err top mem c) = s at hf hregs
  have hroom := hf.room
  have hs := isrSave_saved hroom
  obtain ⟨hrdi,hrsi,hrdx,hrcx⟩ := isrSave_args s
  have hkept : ∀ d, (s.stack.pushAll isrPushed).mem (s.stack.sp+d) = s.stack.mem (s.stack.sp+d) :=
    fun d => StackRegs.pushAll_above (show 8*15 ≤ s.stack.sp by omega) (by omega)
  have habove : ∀ d, (isrSave s).stack.mem ((isrSave s).stack.sp+288+(120+d)) =
      s.stack.mem (s.stack.sp+d) := by
    intro d
    rw [hs.sp,show s.stack.sp-408+288+(120+d) = s.stack.sp+d by omega]
    exact hs.above _ (by omega)
  have hsp : s.stack.sp-120+120 = s.stack.sp := by omega
  refine ⟨?_,?_,?_,?_,fun r => (hs.regs r).trans (congrFun hregs r),(habove 24).trans hf.cs,
    (habove 32).trans hf.rflags,by have := hf.aligned; have := hs.sp; omega⟩
  · rw [hrdi,hsp]
    exact (hkept 0).trans hf.vector
  · rw [hrsi,show s.stack.sp-120+128 = s.stack.sp+8 by omega,hkept]
    exact hf.errorCode
  · rw [hrdx,show s.stack.sp-120+136 = s.stack.sp+16 by omega,hkept]
    exact hf.rip
  · rw [hrcx,hs.sp,show s.stack.sp-408+288 = s.stack.sp-120 by omega]

theorem stub_resumes (h : vec < 48) (htop : 464 ≤ top)
    (hi : Interrupted vec err top mem c gpr c') : c' = { c with gpr := gpr } := by
  have hf := stub_stack err mem c h htop
  have hfpu : (gate vec (enter vec err top mem c)).fpu = c.fpu := rfl
  obtain ⟨t,hc,rfl⟩ := hi
  generalize gate vec (enter vec err top mem c) = s at hf hc hfpu
  obtain ⟨hregs,hsp,hfpu',hmem⟩ := isrRestore_called hf.room hc
  have hword : ∀ d, 16 ≤ d → (isrRestore t).stack.mem (s.stack.sp+d) =
    s.stack.mem (s.stack.sp+d) := fun d _ => hmem _ (by omega)
  simp only [iretq,hregs,hsp,hfpu',Nat.add_assoc]
  rw [hword 16 (by omega),hword (16+8) (by omega),hword (16+16) (by omega),
    hword (16+24) (by omega),hword (16+32) (by omega),hf.rip,hf.cs,hf.rflags,hf.rsp,hf.ss,hfpu]

/-- Without a stub, `iretq` is two words off. -/
theorem common_returns (h : ¬vec < 48) (htop : 464 ≤ top)
    (hi : Interrupted vec err top mem c gpr c') : c'.rip = c.rflags := by
  have hframe := common_frame err c h
  have hsp : (gate vec (enter vec err top mem c)).stack.sp = top/16*16-40 := by
    rw [gate_sp,hframe]
    rfl
  have hword := gate_word mem (k := 2) (v := c.rflags)
    (show 8*(cpuFrame vec err c++gateWords vec).length ≤ top/16*16 by rw [hframe]; simp; omega)
    (by rw [hframe]; rfl)
  obtain ⟨t,hc,rfl⟩ := hi
  obtain ⟨-,hback,-,hmem⟩ := isrRestore_called (by omega) hc
  change (isrRestore t).stack.mem (isrRestore t).stack.sp = _
  rw [hback,hmem _ (by omega),hsp,← hword]
  congr 1
  omega

end Gate

/-- A handler that changes nothing. -/
theorem called_self {s : Isr} (h : 408 ≤ s.stack.sp) : Called (isrSave s) (isrSave s) s.stack.regs :=
  ⟨rfl,(isrSave_saved h).regs,fun _ _ _ => rfl⟩

/-- An interrupt is served exactly when its gate is a stub: the spurious vector 255 is not. -/
theorem interrupt_served_iff (vec : Fin 256) : InterruptServed vec ↔ vec < 48 := by
  constructor
  · intro hserved
    by_contra h
    let c : Context := ⟨fun _ => 0#64,1#64,0#64,0#64,0#64,0#64,⟨fun _ => 0#128,0#32⟩⟩
    have hsp : (gate vec (enter vec 0#64 1024 (fun _ => 0#64) c)).stack.sp = 984 := by
      rw [gate_sp,common_frame _ _ h]
      rfl
    have hi : Interrupted vec 0#64 1024 (fun _ => 0#64) c _ _ :=
      ⟨_,called_self (by omega),rfl⟩
    have hrip := common_returns h (by omega) hi
    rw [hserved.resumes _ _ _ _ _ _ (by omega) hi] at hrip
    exact absurd hrip (show ¬(1#64 = 0#64) by decide)
  · intro h
    exact ⟨fun _ _ _ _ htop => stub_sees h htop,fun _ _ _ _ _ _ htop hi => stub_resumes h htop hi⟩

end KiNBOL
