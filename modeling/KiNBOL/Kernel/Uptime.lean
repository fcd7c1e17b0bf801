import Mathlib.Data.BitVec
import Mathlib.Tactic.Ring

namespace KiNBOL

/-- `CALIB_SAMPLES`. -/
def calibSamples : Nat := 7

/-- What `tsc_calibrate_sample` makes of the cycles that it counted. -/
def calibSample (cycles : BitVec 64) : BitVec 64 := cycles*1193182#64/40000#64

/-- The inner loop of `sort_u64`: larger elements move up, the key takes the place left. -/
def shiftInto (key : BitVec 64) : Nat → (Nat → BitVec 64) → Nat → BitVec 64
  | 0,a => Function.update a 0 key
  | j+1,a =>
    if key < a j then shiftInto key j (Function.update a (j+1) (a j))
    else Function.update a (j+1) key

def sortU64 (a : Nat → BitVec 64) (n : Nat) : Nat → BitVec 64 :=
  (List.range' 1 (n-1)).foldl (fun a i => shiftInto (a i) i a) a

/-- The `tsc_hz` that `tsc_calibrate` leaves, from the cycles counted for each sample. -/
def tscCalibrate (cycles : Nat → BitVec 64) : BitVec 64 :=
  let hz := sortU64 (fun i => calibSample (cycles i)) calibSamples (calibSamples/2)
  if hz < 100000000#64 ∨ 10000000000#64 < hz then 1000000000#64 else hz

/-- `uptime_ms` when the TSC reads `tsc`. -/
def uptimeMs (tscHz bootTsc tsc : BitVec 64) : BitVec 64 :=
  if tscHz = 0#64 then 0#64 else (tsc-bootTsc)*1000#64/tscHz

/-- The `wake_time_ms` that `sleep_ms` computes. -/
def wakeTime (uptime : BitVec 64) (ms : BitVec 32) : BitVec 64 := uptime+ms.zeroExtend 64

/-- Uptime at two readings of the TSC: the milliseconds since boot, in order, and whoever goes to
sleep at the first is due at the second when its time has passed. -/
structure UptimeExact (tscHz bootTsc t1 t2 : BitVec 64) : Prop where
  mono : uptimeMs tscHz bootTsc t1 ≤ uptimeMs tscHz bootTsc t2
  first : (uptimeMs tscHz bootTsc t1).toNat = (t1.toNat-bootTsc.toNat)*1000/tscHz.toNat
  second : (uptimeMs tscHz bootTsc t2).toNat = (t2.toNat-bootTsc.toNat)*1000/tscHz.toNat
  due : ∀ ms : BitVec 32, (ms.toNat+1)*tscHz.toNat ≤ (t2.toNat-t1.toNat)*1000 →
    wakeTime (uptimeMs tscHz bootTsc t1) ms ≤ uptimeMs tscHz bootTsc t2

/-- The frequency is always plausible. -/
theorem tscCalibrate_range (cycles : Nat → BitVec 64) :
    10^8 ≤ (tscCalibrate cycles).toNat ∧ (tscCalibrate cycles).toNat ≤ 10^10 := by
  unfold tscCalibrate
  dsimp only
  split
  · decide
  · next h =>
    rw [not_or,BitVec.lt_def,BitVec.lt_def] at h
    simp only [BitVec.toNat_ofNat] at h
    omega

variable {tscHz bootTsc t t1 t2 : BitVec 64}

theorem toNat_uptimeMs (hz : 0 < tscHz.toNat) (h : bootTsc ≤ t) : (uptimeMs tscHz bootTsc t).toNat =
    (t.toNat-bootTsc.toNat)*1000%2^64/tscHz.toNat := by
  have hne : tscHz ≠ 0#64 := by
    intro he
    rw [he] at hz
    simp at hz
  rw [BitVec.le_def] at h
  have hlt := t.isLt
  have hsub : (t-bootTsc).toNat = t.toNat-bootTsc.toNat := BitVec.toNat_sub_of_le h
  rw [uptimeMs,if_neg hne,BitVec.toNat_udiv,BitVec.toNat_mul,hsub]
  rfl

/-- Uptime stays far below `2^64`. -/
theorem uptimeMs_le (cycles : Nat → BitVec 64) (bootTsc tsc : BitVec 64) :
    (uptimeMs (tscCalibrate cycles) bootTsc tsc).toNat ≤ 2^64/10^8 := by
  obtain ⟨hlow,-⟩ := tscCalibrate_range cycles
  generalize tscCalibrate cycles = hz at hlow
  unfold uptimeMs
  split
  · decide
  · rw [BitVec.toNat_udiv]
    exact Nat.div_le_div (Nat.le_of_lt (BitVec.isLt _)) hlow (by decide)

/-- A quotient survives the reduction modulo `2^64` of its dividend just when there is nothing to
reduce. -/
theorem div_mod_eq_iff {x d : Nat} (hd : 0 < d) (hle : d ≤ 2^64) : x%2^64/d = x/d ↔ x < 2^64 := by
  constructor
  · intro h
    by_contra hno
    have hsplit : x = x%2^64+2^64*(x/2^64) := (Nat.mod_add_div x (2^64)).symm
    have hq : 1 ≤ x/2^64 := by omega
    have hbig : x%2^64+d ≤ x := by omega
    have hstep : (x%2^64+d)/d ≤ x/d := Nat.div_le_div_right hbig
    rw [Nat.add_div_right _ hd] at hstep
    omega
  · intro h
    rw [Nat.mod_eq_of_lt h]

/-- Uptime is exact just as long as the milliseconds since boot, times the TSC frequency, fit 64
bits. -/
theorem uptime_exact_iff (cycles : Nat → BitVec 64) (h1 : bootTsc ≤ t1) (h2 : t1 ≤ t2) :
    UptimeExact (tscCalibrate cycles) bootTsc t1 t2 ↔ (t2.toNat-bootTsc.toNat)*1000 < 2^64 := by
  obtain ⟨hlow,hhigh⟩ := tscCalibrate_range cycles
  generalize tscCalibrate cycles = hz at hlow hhigh
  have hpos : 0 < hz.toNat := by omega
  have hle : hz.toNat ≤ 2^64 := by omega
  have e1 := toNat_uptimeMs hpos h1
  have e2 := toNat_uptimeMs hpos (BitVec.le_trans h1 h2)
  rw [BitVec.le_def] at h1 h2
  constructor
  · intro h
    have hsec := h.second
    rw [e2,div_mod_eq_iff hpos hle] at hsec
    exact hsec
  · intro h
    have hfirst : (t1.toNat-bootTsc.toNat)*1000 < 2^64 :=
      lt_of_le_of_lt (Nat.mul_le_mul_right _ (Nat.sub_le_sub_right h2 _)) h
    rw [Nat.mod_eq_of_lt hfirst] at e1
    rw [Nat.mod_eq_of_lt h] at e2
    refine ⟨?_,e1,e2,fun ms hms => ?_⟩
    · rw [BitVec.le_def,e1,e2]
      exact Nat.div_le_div_right (by omega)
    · have hreach : (t1.toNat-bootTsc.toNat)*1000+(ms.toNat+1)*hz.toNat ≤
          (t2.toNat-bootTsc.toNat)*1000 := by omega
      have hdiv := Nat.div_le_div_right (c := hz.toNat) hreach
      rw [Nat.add_mul_div_right _ _ hpos] at hdiv
      have hsmall : (uptimeMs hz bootTsc t2).toNat < 2^64 := (uptimeMs hz bootTsc t2).isLt
      have hms32 := ms.isLt
      rw [BitVec.le_def,wakeTime,BitVec.toNat_add,BitVec.toNat_setWidth,e1,
        Nat.mod_eq_of_lt (show ms.toNat < 2^64 by omega)]
      rw [e2] at hsmall ⊢
      rw [Nat.mod_eq_of_lt (by omega)]
      omega

/-- At 1 GHz uptime falls from 18446744073 ms to 0 after 213 days. -/
theorem uptime_backwards : ¬UptimeExact (tscCalibrate (fun _ => 0#64)) 0#64 18446744073709551#64
    18446744073709552#64 := by
  intro h
  exact absurd h.mono (by decide)

/-- Half an hour after boot, asleep for a second. -/
theorem uptime_exact_iff_sample : tscCalibrate (fun _ => 0#64) = 1000000000#64 ∧
    UptimeExact (tscCalibrate (fun _ => 0#64)) 5#64 1800000000005#64 1801001000005#64 :=
  ⟨by decide,(uptime_exact_iff (fun _ => 0#64) (by decide) (by decide)).mpr (by decide)⟩

end KiNBOL
