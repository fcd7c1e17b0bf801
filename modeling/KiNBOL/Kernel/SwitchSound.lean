import KiNBOL.Kernel.SwitchRun

namespace KiNBOL

namespace SwitchRun

variable {F : Type} {r r' : SwitchRun F} {t u : Nat} {c : Cpu F}

/-- A suspended task: its frame lies on its stack and holds the registers it was switched out with. -/
structure Suspended (r : SwitchRun F) (t : Nat) (c : Cpu F) : Prop where
  saved : r.mach.Saved t c
  stack : ∀ a, r.mach.taskRsp t ≤ a → a < r.mach.taskRsp t+56 → r.OnStack t a
  last : ∀ c', r.last t = some c' → c' = c

/-- What holds between any two steps. -/
structure Inv (r : SwitchRun F) : Prop where
  current : r.current ∈ r.alive
  stack : r.stackBase r.current+56 ≤ r.mach.cpu.rsp ∧ r.mach.cpu.rsp ≤ r.stackEnd r.current
  cr3 : r.mach.cpu.cr3 = r.mach.taskCr3 r.current
  nonzero : ∀ t ∈ r.alive, r.mach.taskCr3 t ≠ 0
  apart : ∀ t ∈ r.alive, ∀ u ∈ r.alive, t ≠ u → ∀ a, r.OnStack t a → ¬r.OnStack u a
  areas : ∀ t ∈ r.alive, ∀ u ∈ r.alive, t ≠ u →
    ∀ p, r.mach.fpuState t = some p → r.mach.fpuState u ≠ some p
  suspended : ∀ t ∈ r.alive, t ≠ r.current → ∃ c, r.Suspended t c

/-- A suspended task's frame and image are untouched by what changes elsewhere. -/
theorem Suspended.keep (h : r.Suspended t c) (hrsp : r'.mach.taskRsp t = r.mach.taskRsp t)
    (hcr3 : r'.mach.taskCr3 t = r.mach.taskCr3 t) (hfpu : r'.mach.fpuState t = r.mach.fpuState t)
    (hon : ∀ a, r'.OnStack t a ↔ r.OnStack t a) (hlast : r'.last t = r.last t)
    (hmem : ∀ a, r.OnStack t a → r'.mach.mem a = r.mach.mem a)
    (harea : ∀ p, r.mach.fpuState t = some p → r'.mach.area p = r.mach.area p) :
    r'.Suspended t c := by
  constructor
  · constructor
    · rw [hrsp,h.saved.rsp]
    · rw [hrsp]
      exact h.saved.frame.congr (fun a h1 h2 => hmem a (h.stack a h1 h2))
    · rw [hcr3,h.saved.cr3]
    · intro p hp
      rw [hfpu] at hp
      rw [harea p hp,h.saved.fpu p hp]
  · intro a h1 h2
    rw [hrsp] at h1 h2
    exact (hon a).mpr (h.stack a h1 h2)
  · intro c' hc
    exact h.last c' (hlast ▸ hc)

/-- Work of the running task. -/
theorem Inv.work (h : r.Inv) {cpu : Cpu F} {mem : Nat → BitVec 64} {area : Nat → F}
    (hl : r.Legal (.work cpu mem area)) : (r.step (.work cpu mem area)).Inv := by
  obtain ⟨hcr3,-,hlo,hhi,hother⟩ := hl
  refine ⟨h.current,⟨hlo,hhi⟩,hcr3.trans h.cr3,h.nonzero,h.apart,h.areas,fun t ht hne => ?_⟩
  obtain ⟨c,hc⟩ := h.suspended t ht hne
  obtain ⟨hm,ha⟩ := hother t ht hne
  exact ⟨c,hc.keep rfl rfl rfl (fun _ => Iff.rfl) rfl hm ha⟩

/-- Writing FS base. -/
theorem Inv.setFs (h : r.Inv) (v : BitVec 64) :
    Inv { r with mach := { r.mach with cpu := { r.mach.cpu with fsBase := v } } } := by
  refine ⟨h.current,h.stack,h.cr3,h.nonzero,h.apart,h.areas,fun t ht hne => ?_⟩
  obtain ⟨c,hc⟩ := h.suspended t ht hne
  exact ⟨c,hc.keep rfl rfl rfl (fun _ => Iff.rfl) rfl (fun _ _ => rfl) (fun _ _ => rfl)⟩

/-- A switch, and what the new task finds. -/
theorem Inv.switch (h : r.Inv) {new : Nat} (hl : r.Legal (.switch new)) :
    (r.step (.switch new)).Inv ∧ (r.step (.switch new)).mach.cpu.fsBase = r.mach.cpu.fsBase ∧
    ∀ c, r.last new = some c → (r.step (.switch new)).mach.Resumed new c := by
  obtain ⟨hnew,hne⟩ := hl
  obtain ⟨c,hc⟩ := h.suspended new hnew hne
  obtain ⟨hlo,hhi⟩ := h.stack
  have hstk : ∀ t ∈ r.alive, t ≠ r.current → ∀ a, r.OnStack t a →
      a < r.mach.cpu.rsp-56 ∨ r.mach.cpu.rsp ≤ a := by
    intro t ht hne a ha
    by_contra hin
    exact h.apart t ht r.current h.current hne a ha ⟨by omega,by omega⟩
  obtain ⟨hres,hold,hfs,hmem,harea,hrsp,hcr3,hfpu⟩ := Switching.contextSwitch_spec
    (show 56 ≤ r.mach.cpu.rsp by omega) hc.saved (h.nonzero new hnew)
    (fun a h1 h2 => hstk new hnew hne a (hc.stack a h1 h2))
    (fun p hp => h.areas new hnew r.current h.current hne p hp)
  refine ⟨?_,hfs,fun c' hlast => hc.last c' hlast ▸ hres⟩
  constructor
  · exact hnew
  · have hlow := hc.stack _ (le_refl _) (by omega)
    have hhigh := hc.stack (r.mach.taskRsp new+55) (by omega) (by omega)
    have he : (r.step (.switch new)).mach.cpu.rsp = r.mach.taskRsp new+56 :=
      hres.rsp.trans hc.saved.rsp.symm
    obtain ⟨h1,-⟩ := hlow
    obtain ⟨-,h2⟩ := hhigh
    rw [he]
    change r.stackBase new+56 ≤ _ ∧ _ ≤ r.stackEnd new
    omega
  · exact (hres.cr3.trans hc.saved.cr3.symm).trans (congrFun hcr3 new).symm
  · intro t ht
    exact (congrFun hcr3 t).trans_ne (h.nonzero t ht)
  · exact h.apart
  · intro t ht u hu htu p hp
    change (r.mach.contextSwitch r.current new).fpuState u ≠ some p
    change (r.mach.contextSwitch r.current new).fpuState t = some p at hp
    rw [hfpu] at hp ⊢
    exact h.areas t ht u hu htu p hp
  · intro t ht htn
    by_cases htc : t = r.current
    · refine ⟨r.mach.cpu,⟨?_,?_,?_⟩⟩
      · rw [← h.cr3] at hold
        exact htc ▸ hold
      · intro a h1 h2
        have he := hold.rsp
        rw [htc] at h1 h2 ⊢
        change (r.mach.contextSwitch r.current new).taskRsp r.current ≤ a at h1
        change a < (r.mach.contextSwitch r.current new).taskRsp r.current+56 at h2
        change r.stackBase r.current ≤ a ∧ a < r.stackEnd r.current
        change _ = r.mach.cpu.rsp at he
        omega
      · intro c' hlast
        change Function.update r.last r.current (some r.mach.cpu) t = some c' at hlast
        rw [htc,Function.update_self] at hlast
        exact (Option.some.inj hlast).symm
    · obtain ⟨c',hc'⟩ := h.suspended t ht htc
      refine ⟨c',hc'.keep (hrsp t htc) (congrFun hcr3 t) (congrFun hfpu t) (fun _ => Iff.rfl)
        (Function.update_of_ne htc _ _) (fun a ha => hmem a (hstk t ht htc a ha)) ?_⟩
      intro p hp
      exact harea p (fun ho => h.areas t ht r.current h.current htc p hp ho)

/-- A new task, which waits for its first switch. -/
theorem Inv.create (h : r.Inv) {task stack cr3 : Nat} {user : Bool} {fpu : Option Nat} {image : F}
    {arg entry trampoline : BitVec 64}
    (hl : r.Legal (.create task stack cr3 user fpu image arg entry trampoline)) :
    (r.step (.create task stack cr3 user fpu image arg entry trampoline)).Inv := by
  obtain ⟨hout,h16,hnz,hapart⟩ := hl
  let c : Cpu F := ⟨trampoline,0#64,0#64,0#64,0#64,0#64,0#64,stack+16384-16,cr3,0#64,image⟩
  have hspec := @Switching.newFrame_spec F r.mach (stack+16384) (by omega) (by omega) arg entry
    trampoline c rfl ⟨rfl,rfl,rfl,rfl,rfl,rfl⟩
  obtain ⟨hrsp,hframe,hmem⟩ := hspec
  have hne : ∀ t ∈ r.alive, t ≠ task := fun t ht he => hout (he ▸ ht)
  generalize hr' : r.step (.create task stack cr3 user fpu image arg entry trampoline) = r'
  have hmach : r'.mach = r.mach.createTask task (stack+16384) cr3 fpu image arg entry trampoline := by
    rw [← hr',step]
  have hcr3 := fun t => r.mach.createTask_taskCr3 task (stack+16384) cr3 fpu image arg entry
    trampoline t
  have hfpu := fun t => r.mach.createTask_fpuState task (stack+16384) cr3 fpu image arg entry
    trampoline t
  have hrsp' := fun t => r.mach.createTask_taskRsp task (stack+16384) cr3 fpu image arg entry
    trampoline t
  have harea := fun p => r.mach.createTask_area task (stack+16384) cr3 fpu image arg entry
    trampoline p
  have hmem' := r.mach.createTask_mem task (stack+16384) cr3 fpu image arg entry trampoline
  have hcpu := r.mach.createTask_cpu task (stack+16384) cr3 fpu image arg entry trampoline
  rw [← hmach] at hcr3 hfpu hrsp' harea hmem' hcpu
  have hon : ∀ t a, r'.OnStack t a ↔
      if t = task then stack ≤ a ∧ a < stack+16384 else r.OnStack t a := by
    intro t a
    rw [← hr',step,OnStack]
    dsimp only
    rw [Function.update_apply,Function.update_apply]
    split_ifs <;> exact Iff.rfl
  have hlast : ∀ t, r'.last t = if t = task then none else r.last t := by
    intro t
    rw [← hr',step]
    exact Function.update_apply r.last task none t
  have hcur : r'.current = r.current := by rw [← hr',step]
  have halive : r'.alive = task::r.alive := by rw [← hr',step]
  have hcne := hne r.current h.current
  constructor
  · rw [hcur,halive]
    exact List.mem_cons_of_mem task h.current
  · have hbase : r'.stackBase r.current = r.stackBase r.current := by
      rw [← hr',step]
      exact Function.update_of_ne hcne stack r.stackBase
    have hend : r'.stackEnd r.current = r.stackEnd r.current := by
      rw [← hr',step]
      exact Function.update_of_ne hcne (stack+16384) r.stackEnd
    rw [hcur,hbase,hend,hcpu]
    exact h.stack
  · rw [hcur,hcr3,if_neg hcne,hcpu]
    exact h.cr3
  · intro t ht
    rw [halive] at ht
    rw [hcr3]
    split_ifs with he
    · exact hnz
    · exact h.nonzero t ((List.mem_cons.mp ht).resolve_left he)
  · intro t ht u hu htu a hta hua
    rw [halive] at ht hu
    rw [hon] at hta hua
    split_ifs at hta hua with ht' hu' hu'
    · exact htu (ht'.trans hu'.symm)
    · exact (hapart u ((List.mem_cons.mp hu).resolve_left hu')).1 a hta.1 hta.2 hua
    · exact (hapart t ((List.mem_cons.mp ht).resolve_left ht')).1 a hua.1 hua.2 hta
    · exact h.apart t ((List.mem_cons.mp ht).resolve_left ht') u
        ((List.mem_cons.mp hu).resolve_left hu') htu a hta hua
  · intro t ht u hu htu p hp hq
    rw [halive] at ht hu
    rw [hfpu] at hp hq
    split_ifs at hp hq with ht' hu' hu'
    · exact htu (ht'.trans hu'.symm)
    · exact (hapart u ((List.mem_cons.mp hu).resolve_left hu')).2 p hp hq
    · exact (hapart t ((List.mem_cons.mp ht).resolve_left ht')).2 p hq hp
    · exact h.areas t ((List.mem_cons.mp ht).resolve_left ht') u
        ((List.mem_cons.mp hu).resolve_left hu') htu p hp hq
  · intro t ht htc
    rw [halive] at ht
    by_cases he : t = task
    · -- the frame is the new one, and nothing is remembered of the task
      have hrspt : r'.mach.taskRsp t = stack+16384-72 := by rw [hrsp',if_pos he,hrsp]
      refine ⟨c,⟨⟨?_,?_,?_,?_⟩,?_,?_⟩⟩
      · rw [hrspt]
        change stack+16384-72+56 = stack+16384-16
        omega
      · rw [hrspt,hmem']
        exact hframe
      · rw [hcr3,if_pos he]
      · intro p hp
        rw [hfpu,if_pos he] at hp
        rw [harea,if_pos hp]
      · intro a h1 h2
        rw [hrspt] at h1 h2
        rw [hon,if_pos he]
        omega
      · intro c' hc
        rw [hlast,if_pos he] at hc
        cases hc
    · have htr := (List.mem_cons.mp ht).resolve_left he
      obtain ⟨c',hc'⟩ := h.suspended t htr (hcur ▸ htc)
      refine ⟨c',hc'.keep ?_ ?_ ?_ (fun a => ?_) ?_ (fun a ha => ?_) (fun p hp => ?_)⟩
      · rw [hrsp',if_neg he]
      · rw [hcr3,if_neg he]
      · rw [hfpu,if_neg he]
      · rw [hon,if_neg he]
      · rw [hlast,if_neg he]
      · rw [hmem']
        apply hmem
        by_contra hin
        exact (hapart t htr).1 a (by omega) (by omega) ha
      · rw [harea,if_neg (fun hq => (hapart t htr).2 p hq hp)]

/-- A dead task goes. -/
theorem Inv.reap (h : r.Inv) {task : Nat} (hl : r.Legal (.reap task)) : (r.step (.reap task)).Inv := by
  have hsub : ∀ t ∈ r.alive.erase task, t ∈ r.alive := fun t ht => List.mem_of_mem_erase ht
  refine ⟨(List.mem_erase_of_ne (Ne.symm hl)).mpr h.current,h.stack,h.cr3,
    fun t ht => h.nonzero t (hsub t ht),fun t ht u hu => h.apart t (hsub t ht) u (hsub u hu),
    fun t ht u hu => h.areas t (hsub t ht) u (hsub u hu),fun t ht hne => ?_⟩
  obtain ⟨c,hc⟩ := h.suspended t (hsub t ht) hne
  exact ⟨c,hc.keep rfl rfl rfl (fun _ => Iff.rfl) rfl (fun _ _ => rfl) (fun _ _ => rfl)⟩

theorem step_inv (h : r.Inv) {op : SwitchOp F} (hl : r.Legal op) : (r.step op).Inv := by
  cases op with
  | work cpu mem area => exact h.work hl
  | archPrctl code addr =>
    rw [step,Switching.sysArchPrctl]
    split_ifs
    · exact h.setFs addr
    · exact h
  | enterUserspace => exact h.setFs 0#64
  | switch new => exact (h.switch hl).1
  | create task stack cr3 user fpu image arg entry trampoline => exact h.create hl
  | reap task => exact h.reap hl

/-- One task runs, on a stack with room and in its own pagemap. -/
structure Boots (r : SwitchRun F) : Prop where
  alone : r.alive = [r.current]
  stack : r.stackBase r.current+56 ≤ r.mach.cpu.rsp ∧ r.mach.cpu.rsp ≤ r.stackEnd r.current
  cr3 : r.mach.cpu.cr3 = r.mach.taskCr3 r.current ∧ r.mach.cpu.cr3 ≠ 0
  last : ∀ t, r.last t = none

theorem Boots.inv (h : r.Boots) : r.Inv := by
  have hone : ∀ t ∈ r.alive, t = r.current := by
    intro t ht
    rw [h.alone] at ht
    exact List.mem_singleton.mp ht
  refine ⟨by simp [h.alone],h.stack,h.cr3.1,fun t ht => ?_,fun t ht u hu hne => ?_,
    fun t ht u hu hne => ?_,fun t ht hne => absurd (hone t ht) hne⟩
  · rw [hone t ht,← h.cr3.1]
    exact h.cr3.2
  · exact absurd ((hone t ht).trans (hone u hu).symm) hne
  · exact absurd ((hone t ht).trans (hone u hu).symm) hne

theorem run_inv {r₀ : SwitchRun F} (h₀ : r₀.Boots) (hr : Relation.ReflTransGen Step r₀ r) :
    r.Inv := by
  induction hr with
  | refl => exact h₀.inv
  | tail _ hstep ih =>
    obtain ⟨op,hop,rfl⟩ := hstep
    exact step_inv ih hop

/-- Whatever task goes on next finds the registers, stack pointer, CR3 and FPU image it was last
switched out with. -/
theorem registers_restored {r₀ : SwitchRun F} (h₀ : r₀.Boots)
    (hr : Relation.ReflTransGen Step r₀ r) {new : Nat} (hl : r.Legal (.switch new))
    (hc : r.last new = some c) : (r.step (.switch new)).mach.Resumed new c :=
  ((run_inv h₀ hr).switch hl).2.2 c hc

/-- The value that a step writes to FS base. -/
def fsWrite : SwitchOp F → Option (BitVec 64)
  | .archPrctl code addr => if code = 0x1002#32 then some addr else none
  | .enterUserspace => some 0#64
  | _ => none

/-- FS base is given no value but the one that every suspended user task left there. -/
def KeepsFs (r : SwitchRun F) (op : SwitchOp F) : Prop :=
  ∀ v, fsWrite op = some v → ∀ t ∈ r.alive, t ≠ r.current → r.user t = true →
    ∀ c, r.last t = some c → c.fsBase = v

theorem keepsFs_none {op : SwitchOp F} (h : fsWrite op = none) : r.KeepsFs op := by
  intro v hv
  rw [h] at hv
  cases hv

def KeepingStep (r r' : SwitchRun F) : Prop := ∃ op, r.Legal op ∧ r.KeepsFs op ∧ r' = r.step op

/-- A suspended user task's FS base is still in the processor. -/
def FsKept (r : SwitchRun F) : Prop :=
  ∀ t ∈ r.alive, t ≠ r.current → r.user t = true → ∀ c, r.last t = some c →
    c.fsBase = r.mach.cpu.fsBase

theorem FsKept.step (hi : r.Inv) (h : r.FsKept) {op : SwitchOp F} (hl : r.Legal op)
    (hk : r.KeepsFs op) : (r.step op).FsKept := by
  cases op with
  | work cpu mem area =>
    intro t ht hne hu c hc
    rw [SwitchRun.step,hl.2.1]
    exact h t ht hne hu c hc
  | archPrctl code addr =>
    rw [SwitchRun.step,Switching.sysArchPrctl]
    split_ifs with hcode
    · exact hk addr (if_pos hcode)
    · exact h
  | enterUserspace => exact hk 0#64 rfl
  | switch new =>
    intro t ht hne hu c hc
    rw [(hi.switch hl).2.1]
    by_cases htc : t = r.current
    · change Function.update r.last r.current (some r.mach.cpu) t = some c at hc
      rw [htc,Function.update_self] at hc
      rw [← Option.some.inj hc]
    · change Function.update r.last r.current (some r.mach.cpu) t = some c at hc
      rw [Function.update_of_ne htc] at hc
      exact h t ht htc hu c hc
  | create task stack cr3 user fpu image arg entry trampoline =>
    rw [SwitchRun.step,FsKept]
    dsimp only
    rw [Switching.createTask_cpu]
    intro t ht hne hu c hc
    by_cases he : t = task
    · rw [he,Function.update_self] at hc
      cases hc
    · rw [Function.update_of_ne he] at hc hu
      exact h t ((List.mem_cons.mp ht).resolve_left he) hne hu c hc
  | reap task => exact fun t ht => h t (List.mem_of_mem_erase ht)

/-- Everything a task has when it goes on is what it had when it was switched out. -/
def Restores (r : SwitchRun F) : Prop :=
  ∀ new, r.Legal (.switch new) → ∀ c, r.last new = some c →
    (r.step (.switch new)).mach.Resumed new c ∧
    (r.user new = true → (r.step (.switch new)).mach.cpu.fsBase = c.fsBase)

/-- Per-task registers in every run whose writes of FS base are of the value it has for all. -/
theorem task_state_restored {r₀ : SwitchRun F} (h₀ : r₀.Boots)
    (hr : Relation.ReflTransGen KeepingStep r₀ r) : r.Restores := by
  have h : r.Inv ∧ r.FsKept := by
    induction hr with
    | refl => exact ⟨h₀.inv,fun t _ _ _ c hc => absurd (h₀.last t) (by simp [hc])⟩
    | tail _ hstep ih =>
      obtain ⟨op,hop,hk,rfl⟩ := hstep
      exact ⟨step_inv ih.1 hop,ih.2.step ih.1 hop hk⟩
  intro new hl c hc
  obtain ⟨-,hfs,hres⟩ := h.1.switch hl
  exact ⟨hres c hc,fun hu => hfs.trans (h.2 new hl.1 hl.2 hu c hc).symm⟩

section Samples

/-- The kernel's task alone. -/
def soloRun : SwitchRun Nat where
  mach := ⟨⟨0#64,0#64,0#64,0#64,0#64,0#64,0#64,4096,8192,0#64,0⟩,fun _ => 0#64,fun _ => 0,
    fun _ => 0,fun _ => 8192,fun _ => none⟩
  alive := [1]
  current := 1
  stackBase := fun _ => 0
  stackEnd := fun _ => 4096
  user := fun _ => false
  last := fun _ => none

theorem soloRun_boots : soloRun.Boots :=
  ⟨rfl,by decide,by decide,fun _ => rfl⟩

/-- Two user tasks, at 2 and 3. -/
def firstTask : SwitchOp Nat := .create 2 16384 12288 true none 0 0#64 0#64 0#64
def secondTask : SwitchOp Nat := .create 3 32768 20480 true none 0 0#64 0#64 0#64
def oneTaskRun : SwitchRun Nat := soloRun.step firstTask
def twoTaskRun : SwitchRun Nat := oneTaskRun.step secondTask

theorem firstTask_legal : soloRun.Legal firstTask := by
  refine ⟨by decide,by decide,by decide,fun t ht => ⟨fun a h1 h2 ho => ?_,fun p hp => ?_⟩⟩
  · obtain ⟨-,ho⟩ := ho
    change a < 4096 at ho
    omega
  · cases hp

theorem secondTask_legal : oneTaskRun.Legal secondTask := by
  refine ⟨by decide,by decide,by decide,fun t ht => ⟨fun a h1 h2 ho => ?_,fun p hp => ?_⟩⟩
  · obtain ⟨-,ho⟩ := ho
    change a < Function.update (fun _ => 4096) 2 32768 t at ho
    rw [Function.update_apply] at ho
    split_ifs at ho <;> omega
  · cases hp

def enteredRun : SwitchRun Nat := oneTaskRun.step (.switch 2)
def setRun : SwitchRun Nat := enteredRun.step (.archPrctl 0x1002#32 7#64)

/-- The first task sets its FS base and is switched out. -/
def parkedRun : SwitchRun Nat := setRun.step (.switch 1)

theorem task_state_restored_sample : parkedRun.Restores ∧
    (parkedRun.last 2).map Cpu.fsBase = some 7#64 := by
  have h1 : KeepingStep soloRun oneTaskRun := ⟨firstTask,firstTask_legal,keepsFs_none rfl,rfl⟩
  have h2 : KeepingStep oneTaskRun enteredRun :=
    ⟨.switch 2,⟨by decide,by decide⟩,keepsFs_none rfl,rfl⟩
  have h3 : KeepingStep enteredRun setRun := by
    refine ⟨.archPrctl 0x1002#32 7#64,True.intro,fun v _ t ht hne hu => ?_,rfl⟩
    -- only the kernel's task is suspended
    have h12 : t = 2 ∨ t = 1 := by simpa using (show t ∈ [2,1] from ht)
    rcases h12 with he | he
    · exact absurd he hne
    · rw [he] at hu
      exact absurd hu (by decide)
  have h4 : KeepingStep setRun parkedRun :=
    ⟨.switch 1,⟨by decide,by decide⟩,keepsFs_none rfl,rfl⟩
  exact ⟨task_state_restored soloRun_boots
    ((((Relation.ReflTransGen.refl.tail h1).tail h2).tail h3).tail h4),by decide⟩

def firstSetRun : SwitchRun Nat :=
  (twoTaskRun.step (.switch 2)).step (.archPrctl 0x1002#32 7#64)

/-- Both tasks set FS base; the first one goes on with the other's. -/
def mixedRun : SwitchRun Nat := (firstSetRun.step (.switch 3)).step (.archPrctl 0x1002#32 9#64)

theorem fsBase_lost : ¬∀ r₀ r : SwitchRun Nat, r₀.Boots → Relation.ReflTransGen Step r₀ r →
    r.Restores := by
  intro h
  have h1 : Step soloRun oneTaskRun := ⟨firstTask,firstTask_legal,rfl⟩
  have h2 : Step oneTaskRun twoTaskRun := ⟨secondTask,secondTask_legal,rfl⟩
  have h3 : Step twoTaskRun (twoTaskRun.step (.switch 2)) :=
    ⟨.switch 2,⟨by decide,by decide⟩,rfl⟩
  have h4 : Step (twoTaskRun.step (.switch 2)) firstSetRun :=
    ⟨.archPrctl 0x1002#32 7#64,True.intro,rfl⟩
  have h5 : Step firstSetRun (firstSetRun.step (.switch 3)) :=
    ⟨.switch 3,⟨by decide,by decide⟩,rfl⟩
  have h6 : Step (firstSetRun.step (.switch 3)) mixedRun :=
    ⟨.archPrctl 0x1002#32 9#64,True.intro,rfl⟩
  have hrun := (((((Relation.ReflTransGen.refl.tail h1).tail h2).tail h3).tail h4).tail h5).tail h6
  have hlast : (mixedRun.last 2).map Cpu.fsBase = some 7#64 := by decide
  obtain ⟨c,hc,hfs⟩ := Option.map_eq_some_iff.mp hlast
  have hfound := ((h soloRun mixedRun soloRun_boots hrun) 2
    ⟨by decide,by decide⟩ c hc).2 (by decide)
  have hnow : (mixedRun.step (.switch 2)).mach.cpu.fsBase = 9#64 := by decide
  rw [hnow,hfs] at hfound
  cases hfound

end Samples

end SwitchRun

end KiNBOL
