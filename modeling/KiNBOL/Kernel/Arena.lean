import KiNBOL.Kernel.ProcessIsolation

namespace KiNBOL

variable {k : Kernel} {t : Task} {len : BitVec 64} {flags : BitVec 32}

/-- What `user_mmap_base` always is. -/
structure ArenaBase (t : Task) : Prop where
  aligned : t.userMmapBase.toNat%4096 = 0
  below : t.userMmapBase < userStackTop

def mmapErrors : List (BitVec 64) := [-22#64,-12#64]

theorem ArenaBase.no_error (hb : ArenaBase t) : t.userMmapBase ∉ mmapErrors := by
  have hlt := hb.below
  simp only [mmapErrors,List.mem_cons,List.not_mem_nil,or_false,not_or]
  refine ⟨fun h => ?_,fun h => ?_⟩
  · rw [h] at hlt
    exact absurd hlt (by decide)
  · rw [h] at hlt
    exact absurd hlt (by decide)

/-- The arguments are refused at once. -/
def MmapRejects (t : Task) (len : BitVec 64) (flags : BitVec 32) : Prop :=
  flags &&& 0x22#32 ≠ 0x22#32 ∨ len = 0#64 ∨ userStackTop ≤ t.userMmapBase+pageUp len

/-- The system call on arguments that are not refused at once. -/
theorem sysMmap_maps (h : ¬MmapRejects t len flags) :
    sysMmap k t len flags =
      if (mapZeroedAll (mmapPages t len) k.mach).1 then
        (t.userMmapBase,(k.withMach (mapZeroedAll (mmapPages t len) k.mach).2).updateSelf
          (fun t => { t with userMmapBase := t.userMmapBase+pageUp len }))
      else (-12#64,k.withMach (mapZeroedAll (mmapPages t len) k.mach).2) := by
  simp only [MmapRejects,not_or] at h
  unfold sysMmap
  rw [if_neg h.1,if_neg h.2.1,if_neg h.2.2]

theorem sysMmap_rejects (h : MmapRejects t len flags) :
    (sysMmap k t len flags).1 ∈ mmapErrors ∧ (sysMmap k t len flags).2 = k := by
  unfold sysMmap
  by_cases h1 : flags &&& 0x22#32 ≠ 0x22#32
  · rw [if_pos h1]
    exact ⟨by simp [mmapErrors],rfl⟩
  rw [if_neg h1]
  by_cases h2 : len = 0#64
  · rw [if_pos h2]
    exact ⟨by simp [mmapErrors],rfl⟩
  rw [if_neg h2,if_pos ((h.resolve_left h1).resolve_left h2)]
  exact ⟨by simp [mmapErrors],rfl⟩

def Arenas (k : Kernel) : Prop := ∀ t ∈ k.tasks, ArenaBase t

/-- The arena of a new task, and of one that runs a new image. -/
theorem arenaBase_start {r : BitVec 64} (hr : r.toNat%4096 = 0) (hlt : r.toNat < 2^30)
    (h : t.userMmapBase = userMmapStart+r) : ArenaBase t := by
  have hstart : userMmapStart.toNat = 0x700000000000 := by decide
  have hval : t.userMmapBase.toNat = 0x700000000000+r.toNat := by
    rw [h,BitVec.toNat_add,hstart]
    omega
  refine ⟨by omega,?_⟩
  rw [BitVec.lt_def,hval,show userStackTop.toNat = 0x7FFFFFFFF000 by decide]
  omega

theorem krand_below (rand : BitVec 64) :
    (krandPageAlignedBelow rand (1024#64*1024#64*1024#64)).toNat%4096 = 0 ∧
    (krandPageAlignedBelow rand (1024#64*1024#64*1024#64)).toNat < 2^30 := by
  rw [krandPageAlignedBelow,if_neg (by decide),
    show 1024#64*1024#64*1024#64/0x1000#64 = 262144#64 by decide]
  rw [BitVec.toNat_mul,BitVec.toNat_umod,show (262144#64).toNat = 262144 by decide,
    show (0x1000#64).toNat = 4096 by decide]
  omega

/-- `SYS_MMAP` moves the base up to another page below the stack top. -/
theorem ArenaBase.grow (hb : ArenaBase t) (h : t.userMmapBase+pageUp len < userStackTop) :
    ArenaBase { t with userMmapBase := t.userMmapBase+pageUp len } := by
  refine ⟨?_,h⟩
  have hpage := toNat_pageMask (len+4096#64-1#64)
  have halign := hb.aligned
  rw [BitVec.toNat_add,pageUp,hpage]
  omega

theorem Arenas.updateSelf (hk : Arenas k) {f : Task → Task}
    (hf : ∀ t ∈ k.tasks, some t.addr = k.current → ArenaBase (f t)) : Arenas (k.updateSelf f) := by
  intro s hs
  obtain ⟨t,ht,rfl⟩ := List.mem_map.mp hs
  split_ifs with hcur
  · exact hf t ht hcur
  · exact hk t ht

theorem Kernel.kmalloc_tasks {k₁ : Kernel} {size : Nat} {ptr : Option Nat}
    (h : k.kmalloc size = (ptr,k₁)) : k₁.tasks = k.tasks :=
  (congrArg (fun r => r.2.tasks) h).symm

theorem Arenas.append (hk : Arenas k) {s : Task} (hs : s.userMmapBase = userMmapStart) :
    ∀ t ∈ k.tasks++[s], ArenaBase t := by
  intro t ht
  rcases List.mem_append.mp ht with ht | ht
  · exact hk t ht
  · rw [List.mem_singleton] at ht
    rw [ht]
    exact arenaBase_start (r := 0#64) (by decide) (by decide) (by rw [hs]; rfl)

theorem taskCreateInternal_arenas (hk : Arenas k) (pm : Nat) (owns : Bool) :
    Arenas (taskCreateInternal k pm owns).2 := by
  unfold taskCreateInternal
  rcases hm : k.kmalloc taskSize with ⟨ptr,k₁⟩
  have hk₁ : Arenas k₁ := by
    rw [Arenas,Kernel.kmalloc_tasks hm]
    exact hk
  cases ptr with
  | none => exact hk₁
  | some task =>
    rcases hs : pmmAllocPagesContiguous k₁.pmm taskStackPages with ⟨stack,p⟩
    cases stack with
    | none =>
      simp only [hs]
      exact hk₁
    | some a =>
      simp only [hs]
      exact hk₁.append rfl

theorem taskCreateUser_arenas (hk : Arenas k) : Arenas (taskCreateUser k).2 := by
  unfold taskCreateUser
  split
  · exact hk
  · rename_i pm m hm
    have h := taskCreateInternal_arenas (k := k.withMach m) hk pm true
    split
    · rename_i he
      rw [he] at h
      exact h
    · rename_i he
      rw [he] at h
      exact h

theorem schedInit_arenas (hk : Arenas k) (junk : BitVec 64) : Arenas (schedInit k junk) := by
  unfold schedInit
  rcases hm : k.kmalloc taskSize with ⟨ptr,k₁⟩
  have hk₁ : Arenas k₁ := by
    rw [Arenas,Kernel.kmalloc_tasks hm]
    exact hk
  cases ptr with
  | none => exact hk₁
  | some task =>
    refine taskCreateInternal_arenas ?_ _ _
    exact hk₁.append rfl

theorem taskReaper_arenas (fuel : Nat) (hk : Arenas k) : Arenas (taskReaper fuel k) := by
  induction fuel generalizing k with
  | zero => exact hk
  | succ fuel ih =>
    rw [taskReaper]
    unfold reapOne
    split
    · exact hk
    · rename_i k' he
      split at he
      · simp at he
      · rename_i t ht
        rw [Option.some.injEq] at he
        refine ih (fun s hs => hk s ?_)
        have htasks : k'.tasks = k.tasks.filter (fun s => s.addr != t.addr) := by
          rw [← he]
          unfold taskDestroy
          dsimp only
          split_ifs <;> rfl
        rw [htasks] at hs
        exact (List.mem_filter.mp hs).1

theorem switchTo_arenas (hk : Arenas k) (t : Task) : Arenas (switchTo k t) := by
  have h1 : Arenas (k.updateSelf (fun t =>
      if t.state = .running then { t with state := .ready } else t)) := by
    refine hk.updateSelf (fun t ht _ => ?_)
    split_ifs
    · exact ⟨(hk t ht).aligned,(hk t ht).below⟩
    · exact hk t ht
  unfold switchTo
  dsimp only
  generalize k.updateSelf (fun t => if t.state = .running then { t with state := .ready } else t) = k₁
    at h1 ⊢
  have h2 : Arenas { k₁ with current := some t.addr } := h1
  exact h2.updateSelf (f := fun t => { t with state := .running })
    (fun u hu _ => ⟨(h1 u hu).aligned,(h1 u hu).below⟩)

theorem sysMmap_arenas (hk : Arenas k) (hb : ArenaBase t)
    (hself : ∀ s ∈ k.tasks, some s.addr = k.current → s = t) (len : BitVec 64) (flags : BitVec 32) :
    Arenas (sysMmap k t len flags).2 := by
  by_cases hrej : MmapRejects t len flags
  · rw [(sysMmap_rejects (k := k) hrej).2]
    exact hk
  · rw [sysMmap_maps (k := k) hrej]
    simp only [MmapRejects,not_or] at hrej
    split_ifs
    · have hk' : Arenas (k.withMach (mapZeroedAll (mmapPages t len) k.mach).2) := hk
      refine hk'.updateSelf (fun s hs hcur => ?_)
      rw [hself s hs hcur]
      exact hb.grow (BitVec.not_le.mp hrej.2.2)
    · exact hk

theorem execRun_arenas (hk : Arenas k) (path : Nat) (file : Option VfsNode)
    (page : Fin 512 → BitVec 64) (biasRand stackRand mmapRand : BitVec 64) :
    Arenas (execRun k path file page biasRand stackRand mmapRand) := by
  have hdead : ∀ k' : Kernel, Arenas k' → Arenas (taskExit k') := fun k' hk' =>
    hk'.updateSelf (fun t ht _ => ⟨(hk' t ht).aligned,(hk' t ht).below⟩)
  unfold execRun
  rcases elfLoad k.mach file (vmmCurrent k.mach) biasRand with ⟨res,s⟩
  have hk₁ : Arenas (k.withMach s.machine) := hk
  cases res with
  | error msg => exact hdead _ hk₁
  | ok res =>
    dsimp only
    rcases pmmAllocPage (k.withMach s.machine).pmm with ⟨phys,p⟩
    cases phys with
    | none => exact hdead _ hk₁
    | some phys =>
      dsimp only
      obtain ⟨h1,h2⟩ := krand_below mmapRand
      intro t ht
      exact Arenas.updateSelf (k := (k.withMach s.machine).withMach _) hk₁
        (fun t _ _ => arenaBase_start h1 h2 rfl) t ht

theorem Arenas.step {k' : Kernel} (hk : Arenas k) {K : Nat → Prop} {W : BitVec 64 → Option Xlat}
    {kpm : Nat} (hok : KernelOk K W kpm k) (hs : KernelStep k k') : Arenas k' := by
  obtain ⟨op,self,huser,hl,rfl⟩ := hs
  cases op with
  | taskCreate => exact taskCreateInternal_arenas hk _ _
  | createUser => exact taskCreateUser_arenas hk
  | elfLoad file rand => exact hk
  | execRun path file page biasRand stackRand mmapRand => exact execRun_arenas hk path file page biasRand stackRand mmapRand
  | brk addr =>
    unfold KernelOp.run sysBrk
    dsimp only
    split_ifs
    · exact hk
    · exact hk
    · exact Arenas.updateSelf (k := k.withMach _) hk
        (fun t ht _ => ⟨(hk t ht).aligned,(hk t ht).below⟩)
  | mmap len flags =>
    obtain ⟨hmem,hcur,-⟩ := hok.self (huser trivial).1
    refine sysMmap_arenas hk (hk self hmem) (fun s hs hc => ?_) len flags
    rw [hcur,Option.some.injEq] at hc
    exact hok.addr_inj hs hmem hc
  | munmap addr len => exact hk
  | mprotect addr len prot => exact hk
  | exit => exact hk.updateSelf (fun t ht _ => ⟨(hk t ht).aligned,(hk t ht).below⟩)
  | sleep => exact hk.updateSelf (fun t ht _ => ⟨(hk t ht).aligned,(hk t ht).below⟩)
  | wake woken =>
    intro s hs
    obtain ⟨t,ht,rfl⟩ := List.mem_map.mp hs
    split_ifs
    · exact ⟨(hk t ht).aligned,(hk t ht).below⟩
    · exact hk t ht
  | reap fuel => exact taskReaper_arenas fuel hk
  | switchTo t => exact switchTo_arenas hk t
  | kmalloc size =>
    show Arenas (allocBuffer k size)
    unfold allocBuffer
    rcases hm : k.kmalloc size with ⟨ptr,k₁⟩
    have hk₁ : Arenas k₁ := by
      rw [Arenas,Kernel.kmalloc_tasks hm]
      exact hk
    cases ptr with
    | none => exact hk₁
    | some q => exact hk₁
  | kfree q => exact hk
  | takePages n =>
    show Arenas (takePages k n)
    unfold takePages
    rcases pmmPool.alloc k.pmm n with ⟨x,p⟩
    cases x <;> exact hk
  | givePages r => exact hk
  | store mem => exact hk
  | mark n i dirty => exact hk

/-- The arena base in every state that a booted kernel reaches. -/
theorem arenaBase_run {k₀ : Kernel} (hb : Booted k₀) {junk : BitVec 64}
    (hrun : Relation.ReflTransGen KernelStep (schedInit k₀ junk) k) : Arenas k := by
  have hall : KernelOk (bootTable k₀) (hwWalk k₀.mem k₀.cr3) k₀.cr3 k ∧ Arenas k := by
    induction hrun with
    | refl =>
      refine ⟨KernelOk.schedInit hb junk,schedInit_arenas (fun t ht => ?_) junk⟩
      rw [hb.tasks.1] at ht
      simp at ht
    | tail _ hs ih => exact ⟨ih.1.step hs,ih.2.step ih.1 hs⟩
  exact hall.2

end KiNBOL
