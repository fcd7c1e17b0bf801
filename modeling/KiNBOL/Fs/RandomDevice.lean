import KiNBOL.Framework.XorShift
import KiNBOL.Framework.EveryStep
import KiNBOL.Fs.Name

namespace KiNBOL

/-- `rng_state` as it is declared. -/
def rngInit : BitVec 64 := 0x123456789ABCDEF0#64

/-- What `rng_next` makes of `rng_state`. -/
def rngStep (s : BitVec 64) : BitVec 64 :=
  let s := s ^^^ (s <<< 13)
  let s := s ^^^ (s >>> 7)
  s ^^^ (s <<< 17)

def rngNext (s : BitVec 64) : Byte × BitVec 64 := ((rngStep s).setWidth 8,rngStep s)

/-- `random_read`: the bytes stored and the state behind them. -/
def randomRead : Nat → BitVec 64 → List Byte × BitVec 64
  | 0,s => ([],s)
  | len+1,s =>
    let (b,s) := rngNext s
    let (bs,s) := randomRead len s
    (b::bs,s)

/-- The loop of `random_write` from byte `i` on. -/
def randomWrite : Nat → List Byte → BitVec 64 → BitVec 64
  | _,[],s => s
  | i,b::buf,s => randomWrite (i+1) buf (s ^^^ (b.setWidth 64 <<< (i%8*8)))

inductive RandomCall where
  | read (len : Nat)
  | write (buf : List Byte)

def RandomCall.run (s : BitVec 64) : RandomCall → BitVec 64
  | .read len => (randomRead len s).2
  | .write buf => randomWrite 0 buf s

/-- A generator that is not stuck: reads from it deliver something else than zero bytes. -/
def Alive (s : BitVec 64) : Prop := s ≠ 0#64 ∧ ∃ len, ∃ b ∈ (randomRead len s).1, b ≠ 0#8

/-- The bytes of a write, combined as the state will be with them. -/
def writeMask (buf : List Byte) : BitVec 64 := randomWrite 0 buf 0#64

/-- The call is no write of bytes that combine to the state. -/
def RandomCall.Misses (s : BitVec 64) : RandomCall → Prop
  | .read _ => True
  | .write buf => writeMask buf ≠ s

variable {s : BitVec 64} {m : Nat}

theorem rngStep_eq (s : BitVec 64) : rngStep s = xorLeft 17 (xorRight 7 (xorLeft 13 s)) := rfl

theorem rngStep_injective : Function.Injective rngStep := by
  intro s t h
  rw [rngStep_eq,rngStep_eq] at h
  apply xorLeft_injective (by decide : 0 < 13)
  apply xorRight_injective (by decide : 0 < 7)
  exact xorLeft_injective (by decide : 0 < 17) h

theorem rngStep_ne_zero (h : s ≠ 0#64) : rngStep s ≠ 0#64 := by
  intro hz
  apply h
  apply rngStep_injective
  rw [hz]
  decide

/-- If the low bits of two states in a row are zero, then seven more are in the first one. -/
theorem LowZero.grow (hm : 8 ≤ m) (h : LowZero s m) (hnext : LowZero (rngStep s) m) :
    LowZero s (m+7) := by
  have hfirst : LowZero (xorLeft 13 s) m := by
    intro i hi
    by_cases hin : i < 64
    · rw [getLsbD_xorLeft 13 s hin,h i hi]
      by_cases hk : 13 ≤ i
      · rw [h (i-13) (by omega)]
        simp
      · simp [hk]
    · exact BitVec.getLsbD_of_ge _ i (by omega)
  have hsecond : ∀ i, i+7 < m → (xorRight 7 (xorLeft 13 s)).getLsbD i = false := by
    intro i hi
    rw [getLsbD_xorRight,hfirst i (by omega),hfirst (i+7) hi]
    rfl
  intro i hi
  by_cases hlow : i < m
  · exact h i hlow
  by_cases hin : i < 64
  · -- bit `i` of the state comes back in bit `i-7` of the next one
    have hbit := hnext (i-7) (by omega)
    rw [rngStep_eq,getLsbD_xorLeft 17 _ (by omega),getLsbD_xorRight,hfirst (i-7) (by omega),
      show i-7+7 = i by omega,getLsbD_xorLeft 13 s hin,h (i-13) (by omega)] at hbit
    have hpast : (decide (17 ≤ i-7) && (xorRight 7 (xorLeft 13 s)).getLsbD (i-7-17)) = false := by
      by_cases hk : 17 ≤ i-7
      · rw [hsecond (i-7-17) (by omega),Bool.and_false]
      · simp [hk]
    rw [hpast] at hbit
    simpa using hbit
  · exact BitVec.getLsbD_of_ge _ i (by omega)

theorem lowZero_of_states (n : Nat) (h : ∀ j, j ≤ n → LowZero (rngStep^[j] s) 8) :
    LowZero s (8+7*n) := by
  induction n generalizing s with
  | zero => exact h 0 (le_refl 0)
  | succ n ih =>
    have hhere : LowZero s (8+7*n) := ih (fun j hj => h j (Nat.le_succ_of_le hj))
    have hnext : LowZero (rngStep s) (8+7*n) := by
      apply ih
      intro j hj
      rw [← Function.iterate_succ_apply]
      exact h (j+1) (Nat.succ_le_succ hj)
    have hmore : LowZero s (8+7*n+7) := hhere.grow (Nat.le_add_right 8 _) hnext
    rwa [Nat.mul_succ,← Nat.add_assoc]

theorem randomRead_mem (len : Nat) (s : BitVec 64) {j : Nat} (hj : j < len) :
    (rngStep^[j+1] s).setWidth 8 ∈ (randomRead len s).1 := by
  induction len generalizing s j with
  | zero => omega
  | succ len ih =>
    simp only [randomRead,rngNext,List.mem_cons]
    cases j with
    | zero => exact Or.inl rfl
    | succ j =>
      right
      rw [Function.iterate_succ_apply]
      exact ih (rngStep s) (by omega)

/-- Nine zero bytes in a row come from the zero state only. -/
theorem alive_iff : Alive s ↔ s ≠ 0#64 := by
  refine ⟨fun h => h.1,fun h => ⟨h,9,?_⟩⟩
  by_contra hno
  push Not at hno
  have hlow : ∀ j, j ≤ 8 → LowZero (rngStep^[j] (rngStep s)) 8 := by
    intro j hj i hi
    have hbyte := hno _ (randomRead_mem 9 s (show j < 9 by omega))
    rw [Function.iterate_succ_apply] at hbyte
    have hbit := congrArg (fun b => b.getLsbD i) hbyte
    simpa [BitVec.getLsbD_setWidth,hi] using hbit
  have hall : LowZero (rngStep s) 64 := lowZero_of_states 8 hlow
  exact rngStep_ne_zero h hall.eq_zero

theorem randomRead_ne_zero (len : Nat) (h : s ≠ 0#64) : (randomRead len s).2 ≠ 0#64 := by
  induction len generalizing s with
  | zero => exact h
  | succ len ih => exact ih (rngStep_ne_zero h)

theorem randomWrite_xor (buf : List Byte) (i : Nat) (s t : BitVec 64) :
    randomWrite i buf (s ^^^ t) = s ^^^ randomWrite i buf t := by
  induction buf generalizing i t with
  | nil => rfl
  | cons b buf ih => rw [randomWrite,BitVec.xor_assoc,ih,randomWrite]

theorem randomWrite_eq (buf : List Byte) (s : BitVec 64) :
    randomWrite 0 buf s = s ^^^ writeMask buf := by
  have h := randomWrite_xor buf 0 s 0#64
  rwa [BitVec.xor_zero] at h

/-- One call keeps the state away from zero exactly if it misses it. -/
theorem RandomCall.run_ne_zero (c : RandomCall) (h : s ≠ 0#64) :
    c.run s ≠ 0#64 ↔ c.Misses s := by
  cases c with
  | read len => exact iff_of_true (randomRead_ne_zero len h) trivial
  | write buf =>
    simp only [RandomCall.run,RandomCall.Misses,randomWrite_eq,ne_eq,BitVec.xor_eq_zero_iff]
    exact not_congr eq_comm

/-- The generator is alive in every state of a run exactly if no write meets the state that its
bytes combine to. -/
theorem random_alive_iff (calls : List RandomCall) :
    (∀ n, Alive ((calls.take n).foldl RandomCall.run rngInit)) ↔
      EveryStep RandomCall.run RandomCall.Misses rngInit calls := by
  have hinit : rngInit ≠ 0#64 := by decide
  have hstep : ∀ s c, s ≠ 0#64 → (Alive (RandomCall.run s c) ↔ RandomCall.Misses s c) :=
    fun s c hs => alive_iff.trans (c.run_ne_zero hs)
  have hkeep : ∀ s c, s ≠ 0#64 → RandomCall.Misses s c → RandomCall.run s c ≠ 0#64 :=
    fun s c hs hc => (c.run_ne_zero hs).mpr hc
  rw [← everyStep_foldl calls rngInit,and_iff_right (alive_iff.mpr hinit)]
  exact everyStep_congr (· ≠ 0#64) hstep hkeep calls hinit

/-- Writing the bytes of the first state. -/
theorem random_stuck : ¬∀ calls n, Alive ((List.take n calls).foldl RandomCall.run rngInit) := by
  intro hall
  have h := hall [.write [0xF0#8,0xDE#8,0xBC#8,0x9A#8,0x78#8,0x56#8,0x34#8,0x12#8]] 1
  exact h.1 (by decide)

end KiNBOL
