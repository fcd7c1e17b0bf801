import KiNBOL.Framework.Traced
import KiNBOL.Fs.Name
import Mathlib.Data.Nat.Basic

namespace KiNBOL

/-- A computation that reads characters: a value, and `calc_ptr` behind what it stands for. There is
no result when the fuel is used up. -/
abbrev Calc := Traced Nat (BitVec 64 × Nat)

/-- The operator at a place, if it is one of those looked for: its length and what it does. -/
abbrev OpAt := Nat → Traced Nat (Option (Nat × (BitVec 64 → BitVec 64 → BitVec 64)))

def decDigit (c : Byte) : Option (BitVec 64) :=
  if ch '0' ≤ c ∧ c ≤ ch '9' then some (c.setWidth 64-48#64) else none

def hexDigit (c : Byte) : Option (BitVec 64) :=
  if ch '0' ≤ c ∧ c ≤ ch '9' then some (c.setWidth 64-48#64)
  else if ch 'a' ≤ c ∧ c ≤ ch 'f' then some (c.setWidth 64-97#64+10#64)
  else if ch 'A' ≤ c ∧ c ≤ ch 'F' then some (c.setWidth 64-65#64+10#64)
  else none

section

variable (mem : Nat → Byte)

/-- `*p`. -/
def peek (p : Nat) : Traced Nat Byte := do
  Traced.touch [p]
  pure (mem p)

/-- `while (*calc_ptr == ' ') calc_ptr++`. -/
def skipBlanks : Nat → Nat → Traced Nat Nat
  | 0,_ => ⟨[],none⟩
  | fuel+1,p => do
    let c ← peek mem p
    if c = ch ' ' then skipBlanks fuel (p+1) else pure p

/-- The digit loops of `calc_num`. -/
def digitLoop (base : BitVec 64) (digit : Byte → Option (BitVec 64)) :
    Nat → BitVec 64 → Nat → Calc
  | 0,_,_ => ⟨[],none⟩
  | fuel+1,val,p => do
    let c ← peek mem p
    match digit c with
    | some d => digitLoop base digit fuel (val*base+d) (p+1)
    | none => pure (val,p)

def calcNum (fuel p : Nat) : Calc := do
  let p ← skipBlanks mem fuel p
  let c ← peek mem p
  if c = ch '0' then
    let x ← peek mem (p+1)
    if x = ch 'x' ∨ x = ch 'X' then digitLoop mem 16#64 hexDigit fuel 0#64 (p+2)
    else digitLoop mem 10#64 decDigit fuel 0#64 p
  else digitLoop mem 10#64 decDigit fuel 0#64 p

/-- `calc_primary`; `expr` is `calc_expr`. -/
def calcPrimary (expr : Nat → Calc) : Nat → Nat → Calc
  | 0,_ => ⟨[],none⟩
  | fuel+1,p => do
    let p ← skipBlanks mem (fuel+1) p
    let c ← peek mem p
    if c = ch '(' then
      let (v,p) ← expr (p+1)
      let c ← peek mem p
      pure (v,if c = ch ')' then p+1 else p)
    else if c = ch '~' then
      let (v,p) ← calcPrimary expr fuel (p+1)
      pure (~~~v,p)
    else if c = ch '-' then
      let (v,p) ← calcPrimary expr fuel (p+1)
      pure (-v,p)
    else calcNum mem (fuel+1) p

/-- The loops over operators of one rank; those of `calc_mul`, `calc_add` and `calc_shift` skip
blanks first. -/
def opLoop (blanks : Bool) (op : OpAt) (operand : Nat → Calc) : Nat → BitVec 64 → Nat → Calc
  | 0,_,_ => ⟨[],none⟩
  | fuel+1,v,p => do
    let p ← (if blanks then skipBlanks mem (fuel+1) p else pure p)
    match ← op p with
    | some (width,f) =>
      let (d,p) ← operand (p+width)
      opLoop blanks op operand fuel (f v d) p
    | none => pure (v,p)

/-- An operand, and the loop behind it. -/
def binary (blanks : Bool) (op : OpAt) (operand : Nat → Calc) (fuel p : Nat) : Calc := do
  let (v,p) ← operand p
  opLoop mem blanks op operand fuel v p

def mulOp : OpAt := fun p => do
  let c ← peek mem p
  pure (if c = ch '*' then some (1,fun v d => v*d)
    else if c = ch '/' then some (1,fun v d => if d ≠ 0#64 then v/d else 0#64)
    else if c = ch '%' then some (1,fun v d => if d ≠ 0#64 then v%d else 0#64)
    else none)

def calcMul (expr : Nat → Calc) (fuel : Nat) : Nat → Calc :=
  binary mem true (mulOp mem) (calcPrimary mem expr fuel) fuel

def addOp : OpAt := fun p => do
  let c ← peek mem p
  pure (if c = ch '+' then some (1,fun v d => v+d)
    else if c = ch '-' then some (1,fun v d => v-d)
    else none)

def calcAdd (expr : Nat → Calc) (fuel : Nat) : Nat → Calc :=
  binary mem true (addOp mem) (calcMul mem expr fuel) fuel

/-- Shifts by 64 or more are those of the processor. -/
def shiftOp : OpAt := fun p => do
  let c ← peek mem p
  if c = ch '<' then
    let x ← peek mem (p+1)
    pure (if x = ch '<' then some (2,fun v d => v <<< (d.toNat%64)) else none)
  else if c = ch '>' then
    let x ← peek mem (p+1)
    pure (if x = ch '>' then some (2,fun v d => v >>> (d.toNat%64)) else none)
  else pure none

def calcShift (expr : Nat → Calc) (fuel : Nat) : Nat → Calc :=
  binary mem true (shiftOp mem) (calcAdd mem expr fuel) fuel

/-- An operator that is not doubled. -/
def singleOp (c : Byte) (f : BitVec 64 → BitVec 64 → BitVec 64) : OpAt := fun p => do
  let x ← peek mem p
  if x = c then
    let y ← peek mem (p+1)
    pure (if y ≠ c then some (1,f) else none)
  else pure none

def bandOp : OpAt := singleOp mem (ch '&') (fun v d => v &&& d)

def calcBand (expr : Nat → Calc) (fuel : Nat) : Nat → Calc :=
  binary mem false (bandOp mem) (calcShift mem expr fuel) fuel

def bxorOp : OpAt := fun p => do
  let c ← peek mem p
  pure (if c = ch '^' then some (1,fun v d => v ^^^ d) else none)

def calcBxor (expr : Nat → Calc) (fuel : Nat) : Nat → Calc :=
  binary mem false (bxorOp mem) (calcBand mem expr fuel) fuel

def borOp : OpAt := singleOp mem (ch '|') (fun v d => v ||| d)

def calcBor (expr : Nat → Calc) (fuel : Nat) : Nat → Calc :=
  binary mem false (borOp mem) (calcBxor mem expr fuel) fuel

/-- `calc_expr`. -/
def calcExpr : Nat → Nat → Calc
  | 0,_ => ⟨[],none⟩
  | fuel+1,p => calcBor mem (calcExpr fuel) fuel p

end

/-! ## The end of the string

Nothing goes on behind a NUL, so reads and results stay at or before it. -/

section

variable {mem : Nat → Byte} {e p fuel limit : Nat} (he : mem e = 0#8)

/-- Reads up to the NUL at `e` only, and a result with a place between `p` and `e`. -/
abbrev StaysBefore (e p : Nat) (t : Calc) : Prop :=
  t.Ends (fun a => a ≤ e) (fun r => p ≤ r.2 ∧ r.2 ≤ e)

/-- An operator is found in front of the NUL. -/
def OpBefore (e : Nat) (op : OpAt) : Prop :=
  ∀ p ≤ e, (op p).Ends (fun a => a ≤ e) (fun o => ∀ width f, o = some (width,f) →
    1 ≤ width ∧ p+width ≤ e)

include he

theorem peek_ends (hp : p ≤ e) :
    (peek mem p).Ends (fun a => a ≤ e) (fun c => c = mem p ∧ (c ≠ 0#8 → p+1 ≤ e)) := by
  refine ⟨?_,mem p,rfl,rfl,fun hc => ?_⟩
  · simpa [peek] using hp
  · by_contra hlt
    obtain rfl : p = e := by omega
    exact hc he

theorem skipBlanks_ends (hp : p ≤ e) (hf : e-p < fuel) :
    (skipBlanks mem fuel p).Ends (fun a => a ≤ e) (fun q => p ≤ q ∧ q ≤ e) := by
  induction fuel generalizing p with
  | zero => omega
  | succ fuel ih =>
    apply (peek_ends he hp).bind
    intro c hc
    split_ifs with hblank
    · have hlt := hc.2 (by rw [hblank]; decide)
      apply (ih hlt (by omega)).mono
      intro q hq
      omega
    · exact Traced.ends_pure ⟨le_refl p,hp⟩

theorem digitLoop_ends {base : BitVec 64} {digit : Byte → Option (BitVec 64)}
    (hdigit : digit 0#8 = none) (hp : p ≤ e) (hf : e-p < fuel) (val : BitVec 64) :
    StaysBefore e p (digitLoop mem base digit fuel val p) := by
  induction fuel generalizing p val with
  | zero => omega
  | succ fuel ih =>
    apply (peek_ends he hp).bind
    intro c hc
    cases hd : digit c with
    | none => exact Traced.ends_pure ⟨le_refl p,hp⟩
    | some d =>
      have hlt := hc.2 (by rintro rfl; rw [hdigit] at hd; cases hd)
      apply (ih hlt (by omega) (val*base+d)).mono
      intro r hr
      omega

theorem calcNum_ends (hp : p ≤ e) (hf : e-p < fuel) : StaysBefore e p (calcNum mem fuel p) := by
  apply (skipBlanks_ends he hp hf).bind
  intro q hq
  have hdec : StaysBefore e p (digitLoop mem 10#64 decDigit fuel 0#64 q) := by
    apply (digitLoop_ends he (by decide) hq.2 (by omega) 0#64).mono
    intro r hr
    omega
  apply (peek_ends he hq.2).bind
  intro c hc
  split_ifs with hzero
  · have hlt := hc.2 (by rw [hzero]; decide)
    apply (peek_ends he hlt).bind
    intro x hx
    split_ifs with hhex
    · have hlt2 := hx.2 (by rcases hhex with rfl | rfl <;> decide)
      apply (digitLoop_ends he (by decide) hlt2 (by omega) 0#64).mono
      intro r hr
      omega
    · exact hdec
  · exact hdec

/-- `calc_primary`, from what `calc_expr` does behind a parenthesis. -/
theorem calcPrimary_ends {expr : Nat → Calc}
    (hexpr : ∀ p ≤ e, e-p < limit → StaysBefore e p (expr p)) (hp : p ≤ e) (hl : e-p ≤ limit)
    (hf : e-p < fuel) : StaysBefore e p (calcPrimary mem expr fuel p) := by
  induction fuel generalizing p with
  | zero => omega
  | succ fuel ih =>
    apply (skipBlanks_ends he hp hf).bind
    intro q hq
    apply (peek_ends he hq.2).bind
    intro c hc
    split_ifs with hopen hnot hneg
    · have hlt := hc.2 (by rw [hopen]; decide)
      apply (hexpr (q+1) hlt (by omega)).bind
      intro r hr
      apply (peek_ends he hr.2).bind
      intro c' hc'
      apply Traced.ends_pure
      dsimp only
      split_ifs with hclose
      · have := hc'.2 (by rw [hclose]; decide)
        omega
      · omega
    · have hlt := hc.2 (by rw [hnot]; decide)
      apply (ih hlt (by omega) (by omega)).bind
      intro r hr
      exact Traced.ends_pure (by dsimp only; omega)
    · have hlt := hc.2 (by rw [hneg]; decide)
      apply (ih hlt (by omega) (by omega)).bind
      intro r hr
      exact Traced.ends_pure (by dsimp only; omega)
    · apply (calcNum_ends he hq.2 (by omega)).mono
      intro r hr
      omega

theorem opLoop_ends {blanks : Bool} {op : OpAt} {operand : Nat → Calc} (hop : OpBefore e op)
    (hoperand : ∀ p ≤ e, e-p ≤ limit → StaysBefore e p (operand p)) (hp : p ≤ e)
    (hl : e-p ≤ limit) (hf : e-p < fuel) (v : BitVec 64) :
    StaysBefore e p (opLoop mem blanks op operand fuel v p) := by
  induction fuel generalizing p v with
  | zero => omega
  | succ fuel ih =>
    have hskip : (if blanks then skipBlanks mem (fuel+1) p else pure p).Ends (fun a => a ≤ e)
        (fun q => p ≤ q ∧ q ≤ e) := by
      split_ifs
      · exact skipBlanks_ends he hp hf
      · exact Traced.ends_pure ⟨le_refl p,hp⟩
    apply hskip.bind
    intro q hq
    apply (hop q hq.2).bind
    intro o ho
    cases o with
    | none => exact Traced.ends_pure hq
    | some wf =>
      have hwidth := ho wf.1 wf.2 rfl
      apply (hoperand (q+wf.1) hwidth.2 (by omega)).bind
      intro r hr
      apply (ih hr.2 (by omega) (by omega) (wf.2 v r.1)).mono
      intro r' hr'
      omega

theorem binary_ends {blanks : Bool} {op : OpAt} {operand : Nat → Calc} (hop : OpBefore e op)
    (hoperand : ∀ p ≤ e, e-p ≤ limit → StaysBefore e p (operand p)) (hf : limit < fuel) :
    ∀ p ≤ e, e-p ≤ limit → StaysBefore e p (binary mem blanks op operand fuel p) := by
  intro p hp hl
  apply (hoperand p hp hl).bind
  intro r hr
  apply (opLoop_ends he hop hoperand hr.2 (by omega) (by omega) r.1).mono
  intro r' hr'
  omega

/-- An operator of one character, told from the NUL. -/
theorem charOp_before {op : Byte → Option (Nat × (BitVec 64 → BitVec 64 → BitVec 64))}
    (h0 : op 0#8 = none) (h1 : ∀ c width f, op c = some (width,f) → width = 1) :
    OpBefore e (fun p => do
      let c ← peek mem p
      pure (op c)) := by
  intro p hp
  apply (peek_ends he hp).bind
  intro c hc
  apply Traced.ends_pure
  intro width f ho
  obtain rfl := h1 c width f ho
  exact ⟨le_refl 1,hc.2 (by rintro rfl; rw [h0] at ho; cases ho)⟩

theorem mulOp_before : OpBefore e (mulOp mem) := by
  apply charOp_before he
  · rfl
  · intro c width f ho
    split_ifs at ho <;> cases ho <;> rfl

theorem addOp_before : OpBefore e (addOp mem) := by
  apply charOp_before he
  · rfl
  · intro c width f ho
    split_ifs at ho <;> cases ho <;> rfl

theorem bxorOp_before : OpBefore e (bxorOp mem) := by
  apply charOp_before he
  · rfl
  · intro c width f ho
    split_ifs at ho
    cases ho
    rfl

theorem shiftOp_before : OpBefore e (shiftOp mem) := by
  have hnext : ∀ p ≤ e, ∀ c f, c ≠ 0#8 → (peek mem p >>= fun x =>
      pure (if x = c then some (2,f) else none) : Traced Nat _).Ends (fun a => a ≤ e)
        (fun o => ∀ width (g : BitVec 64 → BitVec 64 → BitVec 64), o = some (width,g) →
          1 ≤ width ∧ p+width ≤ e+1) := by
    intro p hp c f hc0
    apply (peek_ends he hp).bind
    intro x hx
    apply Traced.ends_pure
    intro width g ho
    split_ifs at ho with hxc
    cases ho
    have := hx.2 (by rw [hxc]; exact hc0)
    omega
  intro p hp
  apply (peek_ends he hp).bind
  intro c hc
  split_ifs with hleft hright
  · have hlt := hc.2 (by rw [hleft]; decide)
    apply (hnext (p+1) hlt (ch '<') _ (by decide)).mono
    intro o ho width g hog
    have := ho width g hog
    omega
  · have hlt := hc.2 (by rw [hright]; decide)
    apply (hnext (p+1) hlt (ch '>') _ (by decide)).mono
    intro o ho width g hog
    have := ho width g hog
    omega
  · exact Traced.ends_pure (fun width g ho => by cases ho)

theorem singleOp_before {c : Byte} (hc0 : c ≠ 0#8) (f : BitVec 64 → BitVec 64 → BitVec 64) :
    OpBefore e (singleOp mem c f) := by
  intro p hp
  apply (peek_ends he hp).bind
  intro x hx
  split_ifs with hxc
  · have hlt := hx.2 (by rw [hxc]; exact hc0)
    apply (peek_ends he hlt).bind
    intro y hy
    apply Traced.ends_pure
    intro width g ho
    split_ifs at ho
    cases ho
    exact ⟨le_refl 1,hlt⟩
  · exact Traced.ends_pure (fun width g ho => by cases ho)

/-- One unit of fuel for each level of parentheses, and as much for each loop, is enough. -/
theorem calcExpr_ends (hp : p ≤ e) (hf : e-p+1 < fuel) : StaysBefore e p (calcExpr mem fuel p) := by
  induction fuel generalizing p with
  | zero => omega
  | succ fuel ih =>
    have hexpr : ∀ q ≤ e, e-q < e-p → StaysBefore e q (calcExpr mem fuel q) :=
      fun q hq hlt => ih hq (by omega)
    have hfuel : e-p < fuel := by omega
    have hprimary : ∀ q ≤ e, e-q ≤ e-p →
        StaysBefore e q (calcPrimary mem (calcExpr mem fuel) fuel q) :=
      fun q hq hle => calcPrimary_ends he hexpr hq hle (by omega)
    have hmul : ∀ q ≤ e, e-q ≤ e-p → StaysBefore e q (calcMul mem (calcExpr mem fuel) fuel q) :=
      binary_ends he (mulOp_before he) hprimary hfuel
    have hadd : ∀ q ≤ e, e-q ≤ e-p → StaysBefore e q (calcAdd mem (calcExpr mem fuel) fuel q) :=
      binary_ends he (addOp_before he) hmul hfuel
    have hshift : ∀ q ≤ e, e-q ≤ e-p →
        StaysBefore e q (calcShift mem (calcExpr mem fuel) fuel q) :=
      binary_ends he (shiftOp_before he) hadd hfuel
    have hband : ∀ q ≤ e, e-q ≤ e-p → StaysBefore e q (calcBand mem (calcExpr mem fuel) fuel q) :=
      binary_ends he (singleOp_before he (by decide) _) hshift hfuel
    have hbxor : ∀ q ≤ e, e-q ≤ e-p → StaysBefore e q (calcBxor mem (calcExpr mem fuel) fuel q) :=
      binary_ends he (bxorOp_before he) hband hfuel
    exact binary_ends he (singleOp_before he (by decide) _) hbxor hfuel p hp (le_refl _)

end

end KiNBOL
