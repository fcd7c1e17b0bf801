import Mathlib.Data.Fin.VecNotation
import Mathlib.Logic.Function.Basic
import Mathlib.Logic.Nontrivial.Basic
import Mathlib.Logic.Relation

namespace KiNBOL

open Relation

/-! The lock of `lock.h`, statement by statement, under any number of threads. -/

/-- Where a thread is in `bkl_acquire`, behind it, or in `bkl_release`. -/
inductive SpinPc where
  | out
  | test
  | swap
  | inside
  | unlock
  deriving DecidableEq

/-- The thread is between `bkl_acquire` and the end of `bkl_release`. -/
def SpinPc.inSection : SpinPc → Bool
  | .inside => true
  | .unlock => true
  | _ => false

/-- `bkl`, `bkl_ready` and the threads. -/
structure Bkl (T : Type*) where
  lock : Int
  ready : Bool
  pc : T → SpinPc

/-- The next statement of a thread, or the store to `bkl_ready` in `sched_init`. -/
inductive BklEvent (T : Type*) where
  | acquire (t : T)
  | test (t : T)
  | swap (t : T)
  | release (t : T)
  | unlock (t : T)
  | setReady

def BklEvent.thread {T : Type*} : BklEvent T → Option T
  | .acquire t => some t
  | .test t => some t
  | .swap t => some t
  | .release t => some t
  | .unlock t => some t
  | .setReady => none

namespace Bkl

variable {T : Type*} [DecidableEq T]

def goto (s : Bkl T) (t : T) (pc : SpinPc) : Bkl T := { s with pc := Function.update s.pc t pc }

def Enabled (s : Bkl T) : BklEvent T → Prop
  | .acquire t => s.pc t = .out
  | .test t => s.pc t = .test
  | .swap t => s.pc t = .swap
  | .release t => s.pc t = .inside
  | .unlock t => s.pc t = .unlock
  | .setReady => True

def next (s : Bkl T) : BklEvent T → Bkl T
  -- the calls read `bkl_ready` first
  | .acquire t => s.goto t (if s.ready then .test else .inside)
  -- `while (*lock)`
  | .test t => s.goto t (if s.lock = 0 then .swap else .test)
  -- the exchange and the test of its result
  | .swap t => { s.goto t (if s.lock = 0 then .inside else .test) with lock := 1 }
  | .release t => s.goto t (if s.ready then .unlock else .out)
  | .unlock t => { s.goto t .out with lock := 0 }
  | .setReady => { s with ready := true }

def init : Bkl T := ⟨0,false,fun _ => .out⟩

def Step (s s' : Bkl T) : Prop := ∃ e, s.Enabled e ∧ s' = s.next e

/-- A step of a thread: `bkl_ready` is left alone. -/
def ThreadStep (s s' : Bkl T) : Prop := ∃ e, e.thread.isSome ∧ s.Enabled e ∧ s' = s.next e

def InSection (s : Bkl T) (t : T) : Prop := (s.pc t).inSection = true

def Exclusive (s : Bkl T) : Prop := ∀ t t', s.InSection t → s.InSection t' → t = t'

/-- Before `bkl_ready` is set nobody touches the lock. -/
structure Boot (s : Bkl T) : Prop where
  ready : s.ready = false
  lock : s.lock = 0
  pc : ∀ t, s.pc t = .out ∨ s.pc t = .inside

/-- Afterwards the lock is taken exactly when a thread is in its section. -/
structure Locked (s : Bkl T) : Prop where
  ready : s.ready = true
  exclusive : s.Exclusive
  lock : s.lock = 0 ↔ ∀ t, ¬s.InSection t

variable {s s' : Bkl T} {t t' : T} {e : BklEvent T} {pc : SpinPc}

theorem goto_pc (s : Bkl T) (t t' : T) (pc : SpinPc) :
    (s.goto t pc).pc t' = if t' = t then pc else s.pc t' := Function.update_apply ..

theorem goto_inSection (s : Bkl T) (t t' : T) (pc : SpinPc) : (s.goto t pc).InSection t' ↔
    if t' = t then pc.inSection = true else s.InSection t' := by
  rw [InSection,goto_pc]
  split_ifs <;> exact Iff.rfl

/-- Moves of a thread that stays out of its section or in it. -/
theorem goto_same (h : (s.pc t).inSection = pc.inSection) (t' : T) :
    (s.goto t pc).InSection t' ↔ s.InSection t' := by
  rw [goto_inSection]
  split_ifs with ht
  · rw [ht,InSection,h]
  · exact Iff.rfl

theorem Boot.step (h : s.Boot) (hs : s.ThreadStep s') : s'.Boot := by
  obtain ⟨e,hthread,hen,rfl⟩ := hs
  have hmove : ∀ t pc, pc = .out ∨ pc = .inside → ∀ t', (s.goto t pc).pc t' = .out ∨
      (s.goto t pc).pc t' = .inside := by
    intro t pc hpc t'
    rw [goto_pc]
    split_ifs
    · exact hpc
    · exact h.pc t'
  have hnot : ∀ t, s.pc t ≠ .test ∧ s.pc t ≠ .swap ∧ s.pc t ≠ .unlock := by
    intro t
    rcases h.pc t with ht | ht <;> simp [ht]
  cases e with
  | acquire t => exact ⟨h.ready,h.lock,hmove t _ (by simp [h.ready])⟩
  | release t => exact ⟨h.ready,h.lock,hmove t _ (by simp [h.ready])⟩
  | test t => exact absurd hen (hnot t).1
  | swap t => exact absurd hen (hnot t).2.1
  | unlock t => exact absurd hen (hnot t).2.2
  | setReady => simp [BklEvent.thread] at hthread

theorem Boot.run (h : s.Boot) (hs : ReflTransGen ThreadStep s s') : s'.Boot := by
  induction hs with
  | refl => exact h
  | tail _ hstep ih => exact ih.step hstep

omit [DecidableEq T] in
theorem Locked.keep (h : s.Locked) (hr : s'.ready = s.ready) (hl : s'.lock = 0 ↔ s.lock = 0)
    (hin : ∀ t, s'.InSection t ↔ s.InSection t) : s'.Locked where
  ready := hr.trans h.ready
  exclusive t t' ht ht' := h.exclusive t t' ((hin t).mp ht) ((hin t').mp ht')
  lock := by
    rw [hl,h.lock]
    exact forall_congr' (fun t => not_congr (hin t).symm)

theorem Locked.step (h : s.Locked) (hs : s.Step s') : s'.Locked := by
  obtain ⟨e,hen,rfl⟩ := hs
  cases e with
  | acquire t =>
    have hout : s.pc t = .out := hen
    refine h.keep rfl Iff.rfl (goto_same ?_)
    rw [hout,if_pos h.ready]
    rfl
  | test t =>
    have htest : s.pc t = .test := hen
    refine h.keep rfl Iff.rfl (goto_same ?_)
    rw [htest]
    split_ifs <;> rfl
  | swap t =>
    have hswap : s.pc t = .swap := hen
    rw [next]
    by_cases h0 : s.lock = 0
    · have hnone := h.lock.mp h0
      have hin : ∀ t', (s.goto t .inside).InSection t' ↔ t' = t := by
        intro t'
        rw [goto_inSection]
        split_ifs with ht
        · exact ⟨fun _ => ht,fun _ => rfl⟩
        · exact ⟨fun hin => absurd hin (hnone t'),fun he => absurd he ht⟩
      rw [if_pos h0]
      refine ⟨h.ready,fun u u' hu hu' => ((hin u).mp hu).trans ((hin u').mp hu').symm,?_⟩
      constructor
      · intro hone
        simp at hone
      · intro hall
        exact absurd ((hin t).mpr rfl) (hall t)
    · rw [if_neg h0]
      refine h.keep rfl ?_ (goto_same (by rw [hswap]; rfl))
      simp [h0]
  | release t =>
    have hinside : s.pc t = .inside := hen
    refine h.keep rfl Iff.rfl (goto_same ?_)
    rw [hinside,if_pos h.ready]
    rfl
  | unlock t =>
    have hunlock : s.pc t = .unlock := hen
    have ht : s.InSection t := by
      rw [InSection,hunlock]
      rfl
    have hnone : ∀ t', ¬(s.goto t .out).InSection t' := by
      intro t'
      rw [goto_inSection]
      split_ifs with he
      · simp [SpinPc.inSection]
      · exact fun hin => he (h.exclusive t' t hin ht)
    exact ⟨h.ready,fun u _ hu => absurd hu (hnone u),iff_of_true rfl hnone⟩
  | setReady => exact h.keep h.ready.symm Iff.rfl (fun _ => Iff.rfl)

theorem Locked.run (h : s.Locked) (hs : ReflTransGen Step s s') : s'.Locked := by
  induction hs with
  | refl => exact h
  | tail _ hstep ih => exact ih.step hstep

/-- Whenever `bkl_ready` may be set, sections exclude each other ever after exactly when no thread
is in one: that thread has not taken the lock. -/
theorem bkl_exclusive_iff [Nontrivial T] (hs : ReflTransGen ThreadStep init s) :
    (∀ s', ReflTransGen Step (s.next .setReady) s' → s'.Exclusive) ↔ ∀ t, s.pc t = .out := by
  have hboot : s.Boot := Boot.run ⟨rfl,rfl,fun _ => Or.inl rfl⟩ hs
  constructor
  · intro hall t
    rcases hboot.pc t with hout | hin
    · exact hout
    exfalso
    obtain ⟨t',hne⟩ := exists_ne t
    have hsec : s.InSection t := by
      rw [InSection,hin]
      rfl
    rcases hboot.pc t' with hout' | hin'
    · -- the other thread takes the lock, which is free
      let s1 := (s.next .setReady).goto t' .test
      let s2 := s1.goto t' .swap
      have h1 : Step (s.next .setReady) s1 := ⟨.acquire t',hout',rfl⟩
      have hfree : s1.lock = 0 := hboot.lock
      have h2 : Step s1 s2 := by
        refine ⟨.test t',by rw [Enabled,goto_pc,if_pos rfl],?_⟩
        rw [next,if_pos hfree]
      have hfree : s2.lock = 0 := hboot.lock
      have h3 : Step s2 { s2.goto t' .inside with lock := 1 } := by
        refine ⟨.swap t',by rw [Enabled,goto_pc,if_pos rfl],?_⟩
        rw [next,if_pos hfree]
      have hex := hall _ (((ReflTransGen.single h1).tail h2).tail h3)
      have hkeep : (s2.goto t' .inside).InSection t := by
        rw [goto_inSection,if_neg hne.symm,goto_inSection,if_neg hne.symm,goto_inSection,
          if_neg hne.symm]
        exact hsec
      have hnew : (s2.goto t' .inside).InSection t' := by
        rw [goto_inSection,if_pos rfl]
        rfl
      exact hne (hex t' t hnew hkeep)
    · have hsec' : s.InSection t' := by
        rw [InSection,hin']
        rfl
      exact hne (hall _ .refl t' t hsec' hsec)
  · intro hout s' hrun
    have hnone : ∀ t, ¬s.InSection t := fun t => by rw [InSection,hout]; simp [SpinPc.inSection]
    have hlocked : (s.next .setReady).Locked :=
      ⟨rfl,fun u _ hu => absurd hu (hnone u),iff_of_true hboot.lock hnone⟩
    exact (hlocked.run hrun).exclusive

/-- Two threads: one is in its section, the other one tests the lock. -/
theorem bkl_exclusive_iff_two : ∃ s' : Bkl (Fin 2), s'.pc 0 = .inside ∧ s'.pc 1 = .test ∧
    s'.Exclusive := by
  let s0 : Bkl (Fin 2) := (init : Bkl (Fin 2)).next .setReady
  let s1 := s0.next (.acquire 0)
  let s2 := s1.next (.test 0)
  let s3 := s2.next (.acquire 1)
  let s4 := s3.next (.swap 0)
  have h1 : Step s0 s1 := ⟨.acquire 0,rfl,rfl⟩
  have h2 : Step s1 s2 := ⟨.test 0,rfl,rfl⟩
  have h3 : Step s2 s3 := ⟨.acquire 1,rfl,rfl⟩
  have h4 : Step s3 s4 := ⟨.swap 0,rfl,rfl⟩
  have hrun := (((ReflTransGen.single h1).tail h2).tail h3).tail h4
  exact ⟨s4,rfl,rfl,(bkl_exclusive_iff .refl).mpr (fun _ => rfl) s4 hrun⟩

end Bkl

/-! One processor: `timer_isr` switches tasks only where it finds the lock free. -/

structure BklCpu (T : Type*) where
  bkl : Bkl T
  running : T

namespace BklCpu

variable {T : Type*} [DecidableEq T]

/-- A statement of the running thread, a timer interrupt, or a call of `sched_schedule`, which takes
the lock and gives it back with interrupts off. -/
inductive Step : BklCpu T → BklCpu T → Prop where
  | run {c : BklCpu T} {e : BklEvent T} (hthread : e.thread = some c.running)
    (hen : c.bkl.Enabled e) : Step c ⟨c.bkl.next e,c.running⟩
  | timer {c : BklCpu T} (t : T) (hfree : c.bkl.lock = 0) : Step c ⟨c.bkl,t⟩
  | schedule {c : BklCpu T} (t : T) (hout : c.bkl.pc c.running = .out) : Step c ⟨c.bkl,t⟩

/-- Only the running thread is ever in its section. -/
structure Solo (c : BklCpu T) : Prop where
  locked : c.bkl.Locked
  only : ∀ t, c.bkl.InSection t → t = c.running

variable {c c' : BklCpu T} {t : T}

omit [DecidableEq T] in
theorem Solo.switch (h : c.Solo) (hout : ¬c.bkl.InSection c.running) (t : T) :
    Solo ⟨c.bkl,t⟩ := by
  refine ⟨h.locked,fun u hu => ?_⟩
  have he := h.only u hu
  rw [he] at hu
  exact absurd hu hout

theorem Solo.step (h : c.Solo) (hs : Step c c') : c'.Solo := by
  cases hs with
  | @run e hthread hen =>
    refine ⟨h.locked.step ⟨e,hen,rfl⟩,fun u hu => ?_⟩
    by_contra hne
    have hother : ∀ pc, (c.bkl.goto c.running pc).InSection u ↔ c.bkl.InSection u := by
      intro pc
      rw [Bkl.goto_inSection,if_neg hne]
    have hold : c.bkl.InSection u := by
      cases e with
      | setReady => simp [BklEvent.thread] at hthread
      | acquire t => rw [Option.some.inj hthread] at hu; exact (hother _).mp hu
      | test t => rw [Option.some.inj hthread] at hu; exact (hother _).mp hu
      | swap t => rw [Option.some.inj hthread] at hu; exact (hother _).mp hu
      | release t => rw [Option.some.inj hthread] at hu; exact (hother _).mp hu
      | unlock t => rw [Option.some.inj hthread] at hu; exact (hother _).mp hu
    exact hne (h.only u hold)
  | timer t hfree => exact h.switch (h.locked.lock.mp hfree _) t
  | schedule t hout => exact h.switch (by rw [Bkl.InSection,hout]; simp [SpinPc.inSection]) t

/-- On one processor only the running thread can be in its section, and a thread that asks for the
lock finds it free: neither loop of `spin_acquire` ever turns. -/
theorem bkl_never_waits {t₀ : T} (hs : ReflTransGen Step ⟨⟨0,true,fun _ => .out⟩,t₀⟩ c) :
    (∀ t, c.bkl.InSection t → t = c.running) ∧
      (c.bkl.pc c.running = .test ∨ c.bkl.pc c.running = .swap → c.bkl.lock = 0) := by
  have hsolo : c.Solo := by
    have hnone : ∀ t : T, ¬(⟨0,true,fun _ => .out⟩ : Bkl T).InSection t := by
      simp [Bkl.InSection,SpinPc.inSection]
    induction hs with
    | refl =>
      exact ⟨⟨rfl,fun u _ hu => absurd hu (hnone u),iff_of_true rfl hnone⟩,
        fun u hu => absurd hu (hnone u)⟩
    | tail _ hstep ih => exact ih.step hstep
  refine ⟨hsolo.only,fun hpc => hsolo.locked.lock.mpr (fun u hu => ?_)⟩
  have he := hsolo.only u hu
  rw [he,Bkl.InSection] at hu
  rcases hpc with hpc | hpc <;> simp [hpc,SpinPc.inSection] at hu

/-- A thread about to take the lock is interrupted; the next one finds the lock free. -/
theorem bkl_never_waits_two : ∃ c : BklCpu (Fin 2), c.bkl.pc 0 = .swap ∧ c.bkl.pc 1 = .test ∧
    c.running = 1 ∧ c.bkl.lock = 0 := by
  let b0 : Bkl (Fin 2) := ⟨0,true,fun _ => .out⟩
  let b1 := b0.next (.acquire 0)
  let b2 := b1.next (.test 0)
  let b3 := b2.next (.acquire 1)
  have h1 : Step ⟨b0,0⟩ ⟨b1,0⟩ := .run rfl rfl
  have h2 : Step ⟨b1,0⟩ ⟨b2,0⟩ := .run rfl rfl
  have h3 : Step ⟨b2,0⟩ ⟨b2,1⟩ := .timer 1 rfl
  have h4 : Step ⟨b2,1⟩ ⟨b3,1⟩ := .run rfl rfl
  have hrun := (((ReflTransGen.single h1).tail h2).tail h3).tail h4
  exact ⟨⟨b3,1⟩,rfl,rfl,rfl,(bkl_never_waits hrun).2 (Or.inl rfl)⟩

end BklCpu

end KiNBOL
