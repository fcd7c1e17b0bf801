import KiNBOL.Framework.XorShift
import KiNBOL.Loader.Elf

namespace KiNBOL.Rand

/-- What `krand_init` mixes: the time stamp, the timer ticks, and what `rdseed` delivers, if the
processor has it and it succeeds. -/
structure SeedMaterial where
  tsc : BitVec 64
  ticks : BitVec 64
  rdseed : Option (BitVec 64)

/-- `g_state` and `g_seeded`. -/
structure Krand where
  state : BitVec 64
  seeded : Bool
  deriving DecidableEq

/-- The generator as it is declared. -/
def krandStart : Krand := ⟨0#64,false⟩

def hwEntropy (m : SeedMaterial) : BitVec 64 := m.rdseed.getD 0#64

def krandInit (m : SeedMaterial) : Krand :=
  let seed := m.tsc
  let seed := seed ^^^ (m.ticks <<< 17)
  let seed := seed ^^^ hwEntropy m
  let seed := seed ^^^ 0x9E3779B97F4A7C15#64
  ⟨if seed = 0#64 then 0xD1B54A32D192ED03#64 else seed,true⟩

/-- What `krand_u64` makes of `g_state`. -/
def krandStep (x : BitVec 64) : BitVec 64 :=
  let x := x ^^^ (x >>> 12)
  let x := x ^^^ (x <<< 25)
  x ^^^ (x >>> 27)

/-- `krand_u64`; the material counts when the generator is not seeded yet. -/
def krandU64 (m : SeedMaterial) (g : Krand) : BitVec 64 × Krand :=
  let g := if g.seeded then g else krandInit m
  let x := krandStep g.state
  (x*0x2545F4914F6CDD1D#64,{ g with state := x })

def krandBelow (m : SeedMaterial) (bound : BitVec 64) (g : Krand) : BitVec 64 × Krand :=
  if bound = 0#64 then (0#64,g)
  else
    let (x,g) := krandU64 m g
    (x % bound,g)

def krandPageAlignedBelow (m : SeedMaterial) (bound : BitVec 64) (g : Krand) : BitVec 64 × Krand :=
  if bound < 0x1000#64 then (0#64,g)
  else
    let pages := bound/0x1000#64
    let (x,g) := krandBelow m pages g
    (x*0x1000#64,g)

inductive KrandCall where
  | init (m : SeedMaterial)
  | u64 (m : SeedMaterial)
  | below (m : SeedMaterial) (bound : BitVec 64)
  | pageAlignedBelow (m : SeedMaterial) (bound : BitVec 64)

def KrandCall.run (g : Krand) : KrandCall → Krand
  | .init m => krandInit m
  | .u64 m => (krandU64 m g).2
  | .below m bound => (krandBelow m bound g).2
  | .pageAlignedBelow m bound => (krandPageAlignedBelow m bound g).2

/-- A generator that is seeded is not stuck. -/
def Krand.Sound (g : Krand) : Prop := g.seeded = true → g.state ≠ 0#64

variable {g : Krand} {m : SeedMaterial} {x y : BitVec 64}

theorem krandStep_eq (x : BitVec 64) : krandStep x = xorRight 27 (xorLeft 25 (xorRight 12 x)) := rfl

theorem krandStep_injective : Function.Injective krandStep := by
  intro x y h
  rw [krandStep_eq,krandStep_eq] at h
  apply xorRight_injective (by decide : 0 < 12)
  apply xorLeft_injective (by decide : 0 < 25)
  exact xorRight_injective (by decide : 0 < 27) h

theorem krandStep_eq_zero : krandStep x = 0#64 ↔ x = 0#64 := by
  have h0 : krandStep 0#64 = 0#64 := by decide
  rw [← h0]
  exact krandStep_injective.eq_iff

/-- The multiplier is odd, so it has an inverse and loses nothing. -/
theorem krandMul_eq_zero : x*0x2545F4914F6CDD1D#64 = 0#64 ↔ x = 0#64 := by
  have hinv : 0x2545F4914F6CDD1D#64*0x59071D96D81ECD35#64 = 1#64 := by decide
  constructor
  · intro h
    have hx : x*0x2545F4914F6CDD1D#64*0x59071D96D81ECD35#64 = x := by
      rw [BitVec.mul_assoc,hinv,BitVec.mul_one]
    rw [← hx,h,BitVec.zero_mul]
  · intro h
    rw [h,BitVec.zero_mul]

theorem krandInit_sound (m : SeedMaterial) :
    (krandInit m).seeded = true ∧ (krandInit m).state ≠ 0#64 := by
  refine ⟨rfl,?_⟩
  rw [krandInit]
  dsimp only
  split_ifs with h
  · decide
  · exact h

/-- A call from a sound generator. -/
theorem krandU64_sound (h : g.Sound) (m : SeedMaterial) :
    (krandU64 m g).1 ≠ 0#64 ∧ (krandU64 m g).2.seeded = true ∧
    (krandU64 m g).2.state ≠ 0#64 := by
  have hseed : (if g.seeded then g else krandInit m).seeded = true ∧
      (if g.seeded then g else krandInit m).state ≠ 0#64 := by
    split_ifs with hs
    · exact ⟨hs,h hs⟩
    · exact krandInit_sound m
  obtain ⟨h1,h2⟩ := hseed
  have hstep := mt krandStep_eq_zero.mp h2
  exact ⟨mt krandMul_eq_zero.mp hstep,h1,hstep⟩

theorem krandBelow_sound (h : g.Sound) (m : SeedMaterial) (bound : BitVec 64) :
    (krandBelow m bound g).2.Sound := by
  rw [krandBelow]
  split_ifs
  · exact h
  · intro _
    exact (krandU64_sound h m).2.2

theorem KrandCall.run_sound (h : g.Sound) (c : KrandCall) : (c.run g).Sound := by
  cases c with
  | init m => exact fun _ => (krandInit_sound m).2
  | u64 m => exact fun _ => (krandU64_sound h m).2.2
  | below m bound => exact krandBelow_sound h m bound
  | pageAlignedBelow m bound =>
    rw [KrandCall.run,krandPageAlignedBelow]
    split_ifs
    · exact h
    · exact krandBelow_sound h m _

theorem krand_run_sound (h : g.Sound) (calls : List KrandCall) :
    (calls.foldl KrandCall.run g).Sound := by
  induction calls generalizing g with
  | nil => exact h
  | cons c calls ih => exact ih (c.run_sound h)

theorem krandBelow_seeded (hs : g.seeded = true) (m : SeedMaterial) (bound : BitVec 64) :
    (krandBelow m bound g).2.seeded = true := by
  rw [krandBelow]
  split_ifs
  · exact hs
  · rw [krandU64,if_pos hs]
    exact hs

theorem krand_run_seeded (hs : g.seeded = true) (calls : List KrandCall) :
    (calls.foldl KrandCall.run g).seeded = true := by
  induction calls generalizing g with
  | nil => exact hs
  | cons c calls ih =>
    apply ih
    cases c with
    | init m => rfl
    | u64 m =>
      rw [KrandCall.run,krandU64,if_pos hs]
      exact hs
    | below m bound => exact krandBelow_seeded hs m bound
    | pageAlignedBelow m bound =>
      rw [KrandCall.run,krandPageAlignedBelow]
      split_ifs
      · exact hs
      · exact krandBelow_seeded hs m _

theorem krandBelow_lt (m : SeedMaterial) {bound : BitVec 64} (hb : bound ≠ 0#64) (g : Krand) :
    (krandBelow m bound g).1.toNat < bound.toNat := by
  have hpos : 0 < bound.toNat := by
    apply Nat.pos_of_ne_zero
    intro h
    exact hb (BitVec.eq_of_toNat_eq h)
  rw [krandBelow,if_neg hb]
  dsimp only
  rw [BitVec.toNat_umod]
  exact Nat.mod_lt _ hpos

/-- A bound of a page or more holds whole pages. -/
theorem pages_of_bound {bound : BitVec 64} (hb : ¬bound < 0x1000#64) :
    (bound/0x1000#64).toNat = bound.toNat/4096 ∧ bound/0x1000#64 ≠ 0#64 := by
  have hle : 4096 ≤ bound.toNat := by simpa [BitVec.lt_def] using hb
  have hdiv : (bound/0x1000#64).toNat = bound.toNat/4096 := BitVec.toNat_udiv
  refine ⟨hdiv,?_⟩
  intro h
  rw [h,BitVec.toNat_zero] at hdiv
  omega

/-- The loader and the mappings take what is left of the number that `krand_u64` delivers. -/
theorem krandPageAlignedBelow_eq (m : SeedMaterial) (bound : BitVec 64) (g : Krand) :
    (krandPageAlignedBelow m bound g).1 =
    KiNBOL.krandPageAlignedBelow (krandU64 m g).1 bound := by
  rw [krandPageAlignedBelow,KiNBOL.krandPageAlignedBelow]
  split_ifs with hb
  · rfl
  · dsimp only
    rw [krandBelow,if_neg (pages_of_bound hb).2]

/-- A random number of whole pages, and none of them reaches the bound. -/
theorem krandPageAlignedBelow_spec (m : SeedMaterial) (bound : BitVec 64) (g : Krand) :
    4096 ∣ (krandPageAlignedBelow m bound g).1.toNat ∧
    ((krandPageAlignedBelow m bound g).1 = 0#64 ∨
      (krandPageAlignedBelow m bound g).1.toNat < bound.toNat) := by
  rw [krandPageAlignedBelow]
  split_ifs with hb
  · exact ⟨Nat.dvd_zero 4096,Or.inl rfl⟩
  · obtain ⟨hdiv,hpages⟩ := pages_of_bound hb
    have hlt := krandBelow_lt m hpages g
    dsimp only
    generalize (krandBelow m (bound/0x1000#64) g).1 = x at *
    have hmul : (x*0x1000#64).toNat = x.toNat*4096 := by
      rw [BitVec.toNat_mul]
      apply Nat.mod_eq_of_lt
      have := bound.isLt
      change x.toNat*4096 < 2^64
      omega
    rw [hmul]
    exact ⟨Nat.dvd_mul_left 4096 x.toNat,Or.inr (by omega)⟩

/-- The generator is seeded with something else than zero, loses no state, and never gets to zero;
page offsets stay below their bound. -/
theorem krand_never_sticks (calls : List KrandCall) (m m' : SeedMaterial) (x y bound : BitVec 64)
    (g : Krand) :
    (krandInit m).state ≠ 0#64 ∧
    ((krandU64 m ⟨x,true⟩).2 = (krandU64 m' ⟨y,true⟩).2 ↔ x = y) ∧
    ((krandU64 m ⟨x,true⟩).2.state = 0#64 ↔ x = 0#64) ∧
    (calls.foldl KrandCall.run krandStart).Sound ∧
    (calls.foldl KrandCall.run (krandInit m)).state ≠ 0#64 ∧
    (krandU64 m (calls.foldl KrandCall.run krandStart)).1 ≠ 0#64 ∧
    4096 ∣ (krandPageAlignedBelow m bound g).1.toNat ∧
    ((krandPageAlignedBelow m bound g).1 = 0#64 ∨
      (krandPageAlignedBelow m bound g).1.toNat < bound.toNat) := by
  have hstart : krandStart.Sound := fun h => absurd h (by decide)
  have hrun := krand_run_sound hstart calls
  have hinit : (krandInit m).Sound := fun _ => (krandInit_sound m).2
  refine ⟨(krandInit_sound m).2,?_,krandStep_eq_zero,hrun,?_,(krandU64_sound hrun m).1,
    krandPageAlignedBelow_spec m bound g⟩
  · constructor
    · intro h
      exact krandStep_injective (congrArg Krand.state h)
    · intro h
      rw [h]
      rfl
  · exact krand_run_sound hinit calls (krand_run_seeded rfl calls)

end KiNBOL.Rand
