import KiNBOL.Shell.Calc
import Mathlib.Data.Fin.Basic
import Mathlib.Tactic.IntervalCases

namespace KiNBOL

/-! The language of the calculator: trees, their values, and the ways of writing them. -/

inductive CalcOp where
  | mul
  | div
  | mod
  | add
  | sub
  | shl
  | shr
  | band
  | bxor
  | bor
  deriving DecidableEq

namespace CalcOp

/-- Operators of a lower rank bind tighter. -/
def rank : CalcOp → Nat
  | mul | div | mod => 1
  | add | sub => 2
  | shl | shr => 3
  | band => 4
  | bxor => 5
  | bor => 6

def text : CalcOp → List Byte
  | mul => [ch '*']
  | div => [ch '/']
  | mod => [ch '%']
  | add => [ch '+']
  | sub => [ch '-']
  | shl => [ch '<',ch '<']
  | shr => [ch '>',ch '>']
  | band => [ch '&']
  | bxor => [ch '^']
  | bor => [ch '|']

/-- Arithmetic modulo 2^64; division and remainder by zero give 0. -/
def apply : CalcOp → BitVec 64 → BitVec 64 → BitVec 64
  | mul,x,y => x*y
  | div,x,y => if y = 0#64 then 0#64 else x/y
  | mod,x,y => if y = 0#64 then 0#64 else x%y
  | add,x,y => x+y
  | sub,x,y => x-y
  | shl,x,y => x <<< y.toNat
  | shr,x,y => x >>> y.toNat
  | band,x,y => x &&& y
  | bxor,x,y => x ^^^ y
  | bor,x,y => x ||| y

end CalcOp

inductive CalcTree where
  | num (n : Nat)
  | not (e : CalcTree)
  | neg (e : CalcTree)
  | bin (op : CalcOp) (a b : CalcTree)

namespace CalcTree

def eval : CalcTree → BitVec 64
  | num n => BitVec.ofNat 64 n
  | not e => ~~~e.eval
  | neg e => -e.eval
  | bin op a b => op.apply a.eval b.eval

/-- Every shift is by less than 64. -/
def ShiftsFit : CalcTree → Prop
  | num _ => True
  | not e => e.ShiftsFit
  | neg e => e.ShiftsFit
  | bin op a b => a.ShiftsFit ∧ b.ShiftsFit ∧ (op = .shl ∨ op = .shr → b.eval.toNat < 64)

end CalcTree

def decChar (d : Fin 10) : Byte := BitVec.ofNat 8 (48+d.val)

/-- A hexadecimal digit, a letter as a capital or not. -/
def hexChar (d : Fin 16 × Bool) : Byte :=
  BitVec.ofNat 8 (if d.1.val < 10 then 48+d.1.val else if d.2 then 55+d.1.val else 87+d.1.val)

/-- The numerals for a number. -/
inductive Numeral : Nat → List Byte → Prop where
  | dec (ds : List (Fin 10)) : ds ≠ [] → Numeral (ds.foldl (fun n d => n*10+d.val) 0) (ds.map decChar)
  | hex (ds : List (Fin 16 × Bool)) (x : Byte) : ds ≠ [] → x = ch 'x' ∨ x = ch 'X' →
      Numeral (ds.foldl (fun n d => n*16+d.1.val) 0) (ch '0'::x::ds.map hexChar)

def blankChars (k : Nat) : List Byte := List.replicate k (ch ' ')

/-- The ways of writing a tree where operators of at most a rank may stand without parentheses:
blanks before any token, parentheses around anything. -/
inductive Writes : Nat → CalcTree → List Byte → Prop where
  | num {n : Nat} {t : List Byte} (k : Nat) : Numeral n t → Writes 0 (.num n) (blankChars k++t)
  | paren {e : CalcTree} {t : List Byte} (j k : Nat) : Writes 6 e t →
      Writes 0 e (blankChars j++(ch '('::(t++(blankChars k++[ch ')']))))
  | not {e : CalcTree} {t : List Byte} (k : Nat) : Writes 0 e t →
      Writes 0 (.not e) (blankChars k++(ch '~'::t))
  | neg {e : CalcTree} {t : List Byte} (k : Nat) : Writes 0 e t →
      Writes 0 (.neg e) (blankChars k++(ch '-'::t))
  | bin {r : Nat} {op : CalcOp} {a b : CalcTree} {s t : List Byte} (k : Nat) : op.rank = r+1 →
      Writes (r+1) a s → Writes r b t → Writes (r+1) (.bin op a b) (s++(blankChars k++(op.text++t)))
  | loosen {r : Nat} {e : CalcTree} {t : List Byte} : Writes r e t → Writes (r+1) e t

/-- An expression: a tree with blanks behind it. -/
def IsExpr (e : CalcTree) (s : List Byte) : Prop := ∃ t k, Writes 6 e t ∧ s = t++blankChars k

/-- What may follow an expression of this rank: nothing, a parenthesis, an operator that does not
bind tighter. -/
def Follows (r : Nat) (u : List Byte) : Prop :=
  u = [] ∨ (∃ s, u = ch ')'::s) ∨ ∃ (op : CalcOp) (s : List Byte), r ≤ op.rank ∧ u = op.text++s

/-! ## Places in a text -/

/-- The NUL-terminated string at a place. -/
def TextAt (mem : Nat → Byte) : Nat → List Byte → Prop
  | p,[] => mem p = 0#8
  | p,c::s => mem p = c ∧ TextAt mem (p+1) s

variable {mem : Nat → Byte} {p q k r n fuel m : Nat} {s t u : List Byte} {v : BitVec 64}
  {res : BitVec 64 × Nat}

theorem TextAt.head (h : TextAt mem p s) : mem p = s.headD 0#8 := by
  cases s with
  | nil => exact h
  | cons c s => exact h.1

theorem TextAt.append (h : TextAt mem p (s++t)) : TextAt mem (p+s.length) t := by
  induction s generalizing p with
  | nil => exact h
  | cons c s ih =>
    have := ih h.2
    rwa [List.length_cons,← Nat.add_assoc,Nat.add_right_comm]

theorem TextAt.end (h : TextAt mem p s) : mem (p+s.length) = 0#8 := by
  have h' : TextAt mem p (s++[]) := by rwa [List.append_nil]
  exact h'.append

/-- What an expression is followed by begins with one of these. -/
theorem Follows.head (h : Follows r u) : u.headD 0#8 = 0#8 ∨ u.headD 0#8 = ch ')' ∨
    ∃ op : CalcOp, r ≤ op.rank ∧ u.headD 0#8 = op.text.headD 0#8 := by
  rcases h with rfl | ⟨s,rfl⟩ | ⟨op,s,hr,rfl⟩
  · exact Or.inl rfl
  · exact Or.inr (Or.inl rfl)
  · refine Or.inr (Or.inr ⟨op,hr,?_⟩)
    cases op <;> rfl

theorem Follows.mono {r' : Nat} (h : Follows r u) (hr : r' ≤ r) : Follows r' u := by
  rcases h with h | h | ⟨op,s,hop,h⟩
  · exact Or.inl h
  · exact Or.inr (Or.inl h)
  · exact Or.inr (Or.inr ⟨op,s,hr.trans hop,h⟩)

/-- A byte with which no numeral goes on. -/
def EndsNumeral (c : Byte) : Prop := hexDigit c = none ∧ decDigit c = none ∧ c ≠ ch 'x' ∧ c ≠ ch 'X'

theorem Follows.endsNumeral (h : Follows r u) (k : Nat) :
    EndsNumeral ((blankChars k++u).headD 0#8) := by
  cases k with
  | succ k => exact (by decide : hexDigit (ch ' ') = none ∧ decDigit (ch ' ') = none ∧
      ch ' ' ≠ ch 'x' ∧ ch ' ' ≠ ch 'X')
  | zero =>
    change EndsNumeral (u.headD 0#8)
    unfold EndsNumeral
    rcases h.head with h | h | ⟨op,-,h⟩
    · rw [h]
      decide
    · rw [h]
      decide
    · rw [h]
      cases op <;> decide

theorem Follows.not_blank (h : Follows r u) : u.headD 0#8 ≠ ch ' ' := by
  rcases h.head with h | h | ⟨op,-,h⟩
  · rw [h]
    decide
  · rw [h]
    decide
  · rw [h]
    cases op <;> decide

/-! ## Tokens -/

@[simp] theorem peek_result {c : Byte} : (peek mem p).result = some c ↔ mem p = c :=
  Option.some_inj

theorem skipBlanks_eq (ht : TextAt mem p (blankChars k++u)) (hu : u.headD 0#8 ≠ ch ' ')
    (h : (skipBlanks mem fuel p).result = some q) : q = p+k := by
  induction k generalizing p fuel with
  | zero =>
    cases fuel with
    | zero => cases h
    | succ fuel =>
      have hp : mem p ≠ ch ' ' := by rwa [ht.head]
      simp only [skipBlanks,Traced.result_bind,peek_result] at h
      obtain ⟨c,rfl,h⟩ := h
      rw [if_neg hp,Traced.result_pure] at h
      exact h.symm
  | succ k ih =>
    cases fuel with
    | zero => cases h
    | succ fuel =>
      have hp : mem p = ch ' ' := ht.1
      simp only [skipBlanks,Traced.result_bind,peek_result] at h
      obtain ⟨c,rfl,h⟩ := h
      rw [if_pos hp] at h
      have := ih ht.2 h
      omega

theorem skipBlanks_here (hp : mem p ≠ ch ' ') (m : Nat) :
    (skipBlanks mem (m+1) p).result = some p := by
  simp only [skipBlanks,Traced.result_bind,peek_result]
  exact ⟨mem p,rfl,by rw [if_neg hp,Traced.result_pure]⟩

/-- The digits of a numeral, up to a byte that is none. -/
theorem digitLoop_eq {α : Type} {digit : Byte → Option (BitVec 64)} {char : α → Byte}
    {val : α → Nat} (hdigit : ∀ d, digit (char d) = some (BitVec.ofNat 64 (val d))) (b : Nat)
    (ds : List α) (ht : TextAt mem p (ds.map char++u)) (hu : digit (u.headD 0#8) = none)
    (h : (digitLoop mem (BitVec.ofNat 64 b) digit fuel (BitVec.ofNat 64 n) p).result = some res) :
    res = (BitVec.ofNat 64 (ds.foldl (fun n d => n*b+val d) n),p+ds.length) := by
  induction ds generalizing p fuel n with
  | nil =>
    cases fuel with
    | zero => cases h
    | succ fuel =>
      have hp : mem p = u.headD 0#8 := ht.head
      simp only [digitLoop,Traced.result_bind,peek_result] at h
      obtain ⟨c,rfl,h⟩ := h
      rw [hp,hu] at h
      exact (Traced.result_pure.mp h).symm
  | cons d ds ih =>
    cases fuel with
    | zero => cases h
    | succ fuel =>
      have hp : mem p = char d := ht.1
      simp only [digitLoop,Traced.result_bind,peek_result] at h
      obtain ⟨c,rfl,h⟩ := h
      rw [hp,hdigit] at h
      dsimp only at h
      rw [← BitVec.ofNat_mul,← BitVec.ofNat_add] at h
      rw [ih ht.2 h,List.length_cons,List.foldl_cons,Nat.add_assoc,Nat.add_comm 1]

theorem decDigit_decChar : ∀ d : Fin 10, decDigit (decChar d) = some (BitVec.ofNat 64 d.val) := by
  decide

theorem hexDigit_hexChar (d : Fin 16 × Bool) :
    hexDigit (hexChar d) = some (BitVec.ofNat 64 d.1.val) := by
  have hall : ∀ (d : Fin 16) (b : Bool),
      hexDigit (hexChar (d,b)) = some (BitVec.ofNat 64 d.val) := by
    decide
  exact hall d.1 d.2

/-- The first byte of a numeral. -/
theorem Numeral.head (h : Numeral n t) : ∃ d : Fin 10, t.headD 0#8 = decChar d := by
  cases h with
  | dec ds hds =>
    cases ds with
    | nil => exact absurd rfl hds
    | cons d ds => exact ⟨d,rfl⟩
  | hex ds x hds hx => exact ⟨0,by rfl⟩

theorem decChar_other : ∀ d : Fin 10, decChar d ≠ ch ' ' ∧ decChar d ≠ ch 'x' ∧
    decChar d ≠ ch 'X' ∧ decChar d ≠ ch '(' ∧ decChar d ≠ ch '~' ∧ decChar d ≠ ch '-' ∧
    decChar d ≠ ch '&' ∧ decChar d ≠ ch '|' := by
  decide

theorem headD_append (hs : s ≠ []) : (s++t).headD 0#8 = s.headD 0#8 := by
  cases s with
  | nil => exact absurd rfl hs
  | cons c s => rfl

theorem Numeral.ne_nil (h : Numeral n t) : t ≠ [] := by
  cases h with
  | dec ds hds => simpa using hds
  | hex ds x hds hx => simp

theorem calcNum_eq (hn : Numeral n t) (ht : TextAt mem p (t++u)) (hu : EndsNumeral (u.headD 0#8))
    (h : (calcNum mem fuel p).result = some res) : res = (BitVec.ofNat 64 n,p+t.length) := by
  obtain ⟨hhex,hdec,hx1,hx2⟩ := hu
  obtain ⟨d,hd⟩ := hn.head
  have hp : mem p = decChar d := by rw [ht.head,headD_append hn.ne_nil,hd]
  have hblank : (t++u).headD 0#8 ≠ ch ' ' := by
    rw [← ht.head,hp]
    exact (decChar_other d).1
  simp only [calcNum,Traced.result_bind,peek_result] at h
  obtain ⟨q,hq,c,rfl,h⟩ := h
  have hqp : q = p := skipBlanks_eq (k := 0) ht hblank hq
  rw [hqp] at h
  cases hn with
  | dec ds hds =>
    have hloop : ∀ {fuel}, (digitLoop mem 10#64 decDigit fuel 0#64 p).result = some res →
        res = (BitVec.ofNat 64 (ds.foldl (fun n d => n*10+d.val) 0),p+(ds.map decChar).length) := by
      intro fuel h
      rw [List.length_map]
      exact digitLoop_eq decDigit_decChar 10 ds ht hdec h
    split_ifs at h with hzero
    · simp only [Traced.result_bind,peek_result] at h
      obtain ⟨x,rfl,h⟩ := h
      have hnext : mem (p+1) ≠ ch 'x' ∧ mem (p+1) ≠ ch 'X' := by
        cases ds with
        | nil => exact absurd rfl hds
        | cons d' ds =>
          have hrest : TextAt mem (p+1) (ds.map decChar++u) := ht.2
          rw [hrest.head]
          cases ds with
          | nil => exact ⟨hx1,hx2⟩
          | cons d' ds => exact ⟨(decChar_other d').2.1,(decChar_other d').2.2.1⟩
      rw [if_neg (by simpa using hnext)] at h
      exact hloop h
    · exact hloop h
  | hex ds x hds hx =>
    have h0 : mem p = ch '0' := ht.1
    have h1 : mem (p+1) = x := ht.2.1
    rw [if_pos h0] at h
    simp only [Traced.result_bind,peek_result] at h
    obtain ⟨x',rfl,h⟩ := h
    rw [h1,if_pos hx] at h
    rw [digitLoop_eq hexDigit_hexChar 16 ds ht.2.2 hhex h]
    simp only [List.length_cons,List.length_map,Prod.mk.injEq,true_and]
    omega

/-! ## The ranks -/

/-- The operators that the function of a rank looks for. -/
def opAt (mem : Nat → Byte) : Nat → OpAt
  | 1 => mulOp mem
  | 2 => addOp mem
  | 3 => shiftOp mem
  | 4 => bandOp mem
  | 5 => bxorOp mem
  | _ => borOp mem

/-- The functions from `calc_primary` to `calc_bor`, with `calc_expr` running on fuel `n`. -/
def parseAt (mem : Nat → Byte) (n fuel : Nat) : Nat → Nat → Calc
  | 0 => calcPrimary mem (calcExpr mem n) fuel
  | r+1 => binary mem (decide (r+1 ≤ 3)) (opAt mem (r+1)) (parseAt mem n fuel r) fuel

/-- The loop of the function of a rank. -/
def loopAt (mem : Nat → Byte) (n fuel r : Nat) : Nat → BitVec 64 → Nat → Calc :=
  opLoop mem (decide (r+1 ≤ 3)) (opAt mem (r+1)) (parseAt mem n fuel r)

theorem calcExpr_succ (mem : Nat → Byte) (n : Nat) : calcExpr mem (n+1) = parseAt mem n n 6 := rfl

theorem parseAt_result : (parseAt mem n fuel (r+1) p).result = some res ↔
    ∃ v q, (parseAt mem n fuel r p).result = some (v,q) ∧
      (loopAt mem n fuel r fuel v q).result = some res := by
  simp only [parseAt,binary,Traced.result_bind,Prod.exists]
  rfl

/-- Operators of different ranks begin differently. -/
theorem CalcOp.head_ne {op op' : CalcOp} (h : op.rank ≠ op'.rank) :
    op.text.headD 0#8 ≠ op'.text.headD 0#8 := by
  cases op <;> cases op' <;> first | decide | exact absurd rfl h

/-- No operator of the rank is found where none begins. -/
theorem opAt_none (hr : 1 ≤ r) (hr6 : r ≤ 6)
    (hno : ∀ op : CalcOp, op.rank = r → mem p ≠ op.text.headD 0#8) :
    (opAt mem r p).result = some none := by
  interval_cases r
  · have h1 := hno .mul rfl
    have h2 := hno .div rfl
    have h3 := hno .mod rfl
    simp_all [opAt,mulOp,CalcOp.text]
  · have h1 := hno .add rfl
    have h2 := hno .sub rfl
    simp_all [opAt,addOp,CalcOp.text]
  · have h1 : mem p ≠ ch '<' := hno .shl rfl
    have h2 : mem p ≠ ch '>' := hno .shr rfl
    simp [opAt,shiftOp,h1,h2]
  · have h1 : mem p ≠ ch '&' := hno .band rfl
    simp [opAt,bandOp,singleOp,h1]
  · have h1 : mem p ≠ ch '^' := hno .bxor rfl
    simp [opAt,bxorOp,h1]
  · have h1 : mem p ≠ ch '|' := hno .bor rfl
    simp [opAt,borOp,singleOp,h1]

/-- An operator is found in the function of its rank. -/
theorem opAt_some {op : CalcOp} (ht : TextAt mem p (op.text++t)) (h1 : t.headD 0#8 ≠ ch '&')
    (h2 : t.headD 0#8 ≠ ch '|') : ∃ f, (opAt mem op.rank p).result = some (some (op.text.length,f)) ∧
      ∀ x y : BitVec 64, (op = .shl ∨ op = .shr → y.toNat < 64) → f x y = op.apply x y := by
  have hp := ht.head
  cases op with
  | mul =>
    replace hp : mem p = ch '*' := hp
    exact ⟨fun v d => v*d,by simp [CalcOp.rank,opAt,mulOp,hp,CalcOp.text],fun _ _ _ => rfl⟩
  | div =>
    replace hp : mem p = ch '/' := hp
    refine ⟨fun v d => if d ≠ 0#64 then v/d else 0#64,?_,fun x y _ => ?_⟩
    · simp [CalcOp.rank,opAt,mulOp,hp,CalcOp.text,ch]
    · simp [CalcOp.apply]
  | mod =>
    replace hp : mem p = ch '%' := hp
    refine ⟨fun v d => if d ≠ 0#64 then v%d else 0#64,?_,fun x y _ => ?_⟩
    · simp [CalcOp.rank,opAt,mulOp,hp,CalcOp.text,ch]
    · simp [CalcOp.apply]
  | add =>
    replace hp : mem p = ch '+' := hp
    exact ⟨fun v d => v+d,by simp [CalcOp.rank,opAt,addOp,hp,CalcOp.text],fun _ _ _ => rfl⟩
  | sub =>
    replace hp : mem p = ch '-' := hp
    exact ⟨fun v d => v-d,by simp [CalcOp.rank,opAt,addOp,hp,CalcOp.text,ch],fun _ _ _ => rfl⟩
  | shl =>
    replace hp : mem p = ch '<' := hp
    have hp1 : mem (p+1) = ch '<' := ht.2.1
    refine ⟨fun v d => v <<< (d.toNat%64),?_,fun x y hy => ?_⟩
    · simp [CalcOp.rank,opAt,shiftOp,hp,hp1,CalcOp.text]
    · dsimp only
      rw [Nat.mod_eq_of_lt (hy (Or.inl rfl))]
      rfl
  | shr =>
    replace hp : mem p = ch '>' := hp
    have hp1 : mem (p+1) = ch '>' := ht.2.1
    refine ⟨fun v d => v >>> (d.toNat%64),?_,fun x y hy => ?_⟩
    · simp [CalcOp.rank,opAt,shiftOp,hp,hp1,CalcOp.text,ch]
    · dsimp only
      rw [Nat.mod_eq_of_lt (hy (Or.inr rfl))]
      rfl
  | band =>
    replace hp : mem p = ch '&' := hp
    have hp1 : mem (p+1) ≠ ch '&' := by
      rw [TextAt.head (s := t) ht.2]
      exact h1
    exact ⟨fun v d => v &&& d,by simp [CalcOp.rank,opAt,bandOp,singleOp,hp,hp1,CalcOp.text],
      fun _ _ _ => rfl⟩
  | bxor =>
    replace hp : mem p = ch '^' := hp
    exact ⟨fun v d => v ^^^ d,by simp [CalcOp.rank,opAt,bxorOp,hp,CalcOp.text],fun _ _ _ => rfl⟩
  | bor =>
    replace hp : mem p = ch '|' := hp
    have hp1 : mem (p+1) ≠ ch '|' := by
      rw [TextAt.head (s := t) ht.2]
      exact h2
    exact ⟨fun v d => v ||| d,by simp [CalcOp.rank,opAt,borOp,singleOp,hp,hp1,CalcOp.text],
      fun _ _ _ => rfl⟩

/-- Nothing of the rank is found behind an expression that something looser follows. -/
theorem Follows.opAt_none (h : Follows (r+1) u) (hr : 1 ≤ r) (hr6 : r ≤ 6) (ht : TextAt mem p u) :
    (opAt mem r p).result = some none := by
  apply KiNBOL.opAt_none hr hr6
  intro op hop
  rw [ht.head]
  rcases h.head with h0 | hclose | ⟨op',hop',he⟩
  · rw [h0]
    cases op <;> decide
  · rw [hclose]
    cases op <;> decide
  · rw [he]
    exact CalcOp.head_ne (by omega)

/-! ## The loops -/

/-- A loop at something that it does not take ends there. -/
theorem loopAt_stop (hr : r < 6) (hu : Follows (r+2) u) (ht : TextAt mem p u)
    (h : (loopAt mem n fuel r m v p).result = some res) : res = (v,p) := by
  cases m with
  | zero => cases h
  | succ m =>
    have hnone := hu.opAt_none (by omega) (by omega) ht
    simp only [loopAt,opLoop,Traced.result_bind] at h
    obtain ⟨q,hq,o,ho,h⟩ := h
    have hqp : q = p := by
      split_ifs at hq
      · exact skipBlanks_eq (k := 0) ht hu.not_blank hq
      · exact (Traced.result_pure.mp hq).symm
    rw [hqp,hnone] at ho
    cases ho
    rw [hqp] at h
    exact (Traced.result_pure.mp h).symm

/-- The loops that skip blanks may as well start behind them. -/
theorem loopAt_skip (hr : r+1 ≤ 3) (ht : TextAt mem p (blankChars k++u)) (hu : u.headD 0#8 ≠ ch ' ')
    (h : (loopAt mem n fuel r m v p).result = some res) :
    (loopAt mem n fuel r m v (p+k)).result = some res := by
  cases m with
  | zero => cases h
  | succ m =>
    have hk : mem (p+k) ≠ ch ' ' := by
      have hend := ht.append
      rw [blankChars,List.length_replicate] at hend
      rwa [hend.head]
    simp only [loopAt,opLoop,Traced.result_bind,decide_eq_true hr,if_true] at h ⊢
    obtain ⟨q,hq,h⟩ := h
    obtain rfl := skipBlanks_eq ht hu hq
    exact ⟨p+k,skipBlanks_here hk m,h⟩

/-- What `calc_primary` does at the first character that is no blank. -/
theorem calcPrimary_at {expr : Nat → Calc} (ht : TextAt mem p (blankChars k++u))
    (hu : u.headD 0#8 ≠ ch ' ') (h : (calcPrimary mem expr fuel p).result = some res) :
    ∃ f, fuel = f+1 ∧
    (mem (p+k) = ch '(' → ∃ v q, (expr (p+k+1)).result = some (v,q) ∧
      res = (v,if mem q = ch ')' then q+1 else q)) ∧
    (mem (p+k) = ch '~' → ∃ v q, (calcPrimary mem expr f (p+k+1)).result = some (v,q) ∧
      res = (~~~v,q)) ∧
    (mem (p+k) = ch '-' → ∃ v q, (calcPrimary mem expr f (p+k+1)).result = some (v,q) ∧
      res = (-v,q)) ∧
    (mem (p+k) ∉ [ch '(',ch '~',ch '-'] → (calcNum mem fuel (p+k)).result = some res) := by
  cases fuel with
  | zero => cases h
  | succ f =>
    simp only [calcPrimary,Traced.result_bind,peek_result] at h
    obtain ⟨q,hq,c,rfl,h⟩ := h
    obtain rfl := skipBlanks_eq ht hu hq
    refine ⟨f,rfl,fun hc => ?_,fun hc => ?_,fun hc => ?_,fun hc => ?_⟩
    · rw [if_pos hc] at h
      simp only [Traced.result_bind,peek_result,Traced.result_pure] at h
      obtain ⟨⟨v,q⟩,hexpr,c,rfl,h⟩ := h
      exact ⟨v,q,hexpr,h.symm⟩
    · rw [if_neg (by rw [hc]; decide),if_pos hc] at h
      simp only [Traced.result_bind,Traced.result_pure] at h
      obtain ⟨⟨v,q⟩,hprim,h⟩ := h
      exact ⟨v,q,hprim,h.symm⟩
    · rw [if_neg (by rw [hc]; decide),if_neg (by rw [hc]; decide),if_pos hc] at h
      simp only [Traced.result_bind,Traced.result_pure] at h
      obtain ⟨⟨v,q⟩,hprim,h⟩ := h
      exact ⟨v,q,hprim,h.symm⟩
    · simp only [List.mem_cons,List.not_mem_nil,or_false,not_or] at hc
      rwa [if_neg hc.1,if_neg hc.2.1,if_neg hc.2.2] at h

/-! ## Reading what was written -/

/-- What the function of a rank still has to do behind an expression of this rank with value `v`
that ends at `q`, followed by blanks up to `q'`: its loop. -/
def Rejoins (mem : Nat → Byte) (n fuel r : Nat) (v : BitVec 64) (q q' : Nat) (res : BitVec 64 × Nat) :
    Prop :=
  match r with
  | 0 => res = (v,q)
  | r+1 => ∃ m, (loopAt mem n fuel r m v q').result = some res

/-- Behind the expression the function of the rank is done, and the loop of the next rank goes on
behind the blanks. -/
theorem Rejoins.settle {d : BitVec 64} {q₁ : Nat} (h : Rejoins mem n fuel r v q (q+k) (d,q₁))
    (hr : r < 6) (hu : Follows (r+1) u) (ht : TextAt mem q (blankChars k++u)) :
    d = v ∧ ∀ {m w res}, (loopAt mem n fuel r m w q₁).result = some res →
      (loopAt mem n fuel r m w (q+k)).result = some res := by
  cases r with
  | zero =>
    obtain ⟨rfl,rfl⟩ := Prod.mk.inj h
    exact ⟨rfl,fun h => loopAt_skip (by omega) ht hu.not_blank h⟩
  | succ r =>
    obtain ⟨m,hm⟩ := h
    have hend := ht.append
    rw [blankChars,List.length_replicate] at hend
    obtain ⟨rfl,rfl⟩ := Prod.mk.inj (loopAt_stop (by omega) hu hend hm)
    exact ⟨rfl,fun h => h⟩

/-- An expression begins with a blank, a parenthesis, a unary operator or a digit. -/
theorem Writes.head {e : CalcTree} (h : Writes r e t) :
    t ≠ [] ∧ t.headD 0#8 ≠ ch '&' ∧ t.headD 0#8 ≠ ch '|' := by
  have hblank : ∀ {k s}, s ≠ [] ∧ s.headD 0#8 ≠ ch '&' ∧ s.headD 0#8 ≠ ch '|' →
      blankChars k++s ≠ [] ∧ (blankChars k++s).headD 0#8 ≠ ch '&' ∧
        (blankChars k++s).headD 0#8 ≠ ch '|' := by
    intro k s hs
    cases k with
    | zero => exact hs
    | succ k => exact ⟨by simp [blankChars,List.replicate_succ],
        (by decide : ch ' ' ≠ ch '&'),(by decide : ch ' ' ≠ ch '|')⟩
  induction h with
  | num k hn =>
    obtain ⟨d,hd⟩ := hn.head
    obtain ⟨-,-,-,-,-,-,h1,h2⟩ := decChar_other d
    exact hblank ⟨hn.ne_nil,hd ▸ h1,hd ▸ h2⟩
  | paren j k _ _ => exact hblank ⟨by simp,(by decide : ch '(' ≠ ch '&'),(by decide : ch '(' ≠ ch '|')⟩
  | not k _ _ => exact hblank ⟨by simp,(by decide : ch '~' ≠ ch '&'),(by decide : ch '~' ≠ ch '|')⟩
  | neg k _ _ => exact hblank ⟨by simp,(by decide : ch '-' ≠ ch '&'),(by decide : ch '-' ≠ ch '|')⟩
  | bin k _ _ _ iha _ =>
    rw [headD_append iha.1]
    exact ⟨by simp [iha.1],iha.2⟩
  | loosen _ ih => exact ih

theorem blankChars_length (k : Nat) : (blankChars k).length = k := List.length_replicate

/-- The place behind blanks. -/
theorem TextAt.skip (h : TextAt mem p (blankChars k++u)) : TextAt mem (p+k) u := by
  have := h.append
  rwa [blankChars_length] at this

/-- A written tree is read as its value, up to the loop of its rank. -/
theorem Writes.parsed {e : CalcTree} (h : Writes r e t) (hr : r ≤ 6) (hfit : e.ShiftsFit)
    (ht : TextAt mem p (t++(blankChars k++u))) (hu : Follows r u)
    (hres : (parseAt mem n fuel r p).result = some res) :
    Rejoins mem n fuel r e.eval (p+t.length) (p+t.length+k) res := by
  induction h generalizing n fuel p k u res with
  | @num x t j hn =>
    rw [List.append_assoc] at ht
    obtain ⟨d,hd⟩ := hn.head
    have hhead : (t++(blankChars k++u)).headD 0#8 = decChar d := by
      rw [headD_append hn.ne_nil,hd]
    obtain ⟨h1,-,-,h2,h3,h4,-,-⟩ := decChar_other d
    obtain ⟨f,-,-,-,-,hnum⟩ := calcPrimary_at ht (by rw [hhead]; exact h1) hres
    have hplace := ht.skip
    have hc : mem (p+j) ∉ [ch '(',ch '~',ch '-'] := by
      rw [hplace.head,hhead]
      simp [h2,h3,h4]
    rw [Rejoins,calcNum_eq hn hplace (hu.endsNumeral k) (hnum hc),List.length_append,
      blankChars_length,Nat.add_assoc]
    rfl
  | @paren e t j i hw ih =>
    simp only [List.append_assoc,List.cons_append,List.nil_append] at ht
    obtain ⟨f,-,hopen,-,-,-⟩ := calcPrimary_at ht (by simp; decide) hres
    have hplace := ht.skip
    obtain ⟨v,q,hexpr,rfl⟩ := hopen hplace.1
    cases n with
    | zero => cases hexpr
    | succ n =>
      rw [calcExpr_succ] at hexpr
      have hclose : Follows 7 (ch ')'::(blankChars k++u)) := Or.inr (Or.inl ⟨_,rfl⟩)
      obtain ⟨m,hm⟩ := ih (le_refl 6) hfit hplace.2 (hclose.mono (by decide)) hexpr
      have hend := hplace.2.append.skip
      obtain ⟨rfl,rfl⟩ := Prod.mk.inj (loopAt_stop (by decide) hclose hend hm)
      rw [if_pos hend.1,Rejoins]
      simp only [List.length_append,List.length_cons,List.length_nil,blankChars_length,
        Prod.mk.injEq,true_and]
      omega
  | @not e t j hw ih =>
    simp only [List.append_assoc,List.cons_append] at ht
    obtain ⟨f,-,-,hnot,-,-⟩ := calcPrimary_at ht (by simp; decide) hres
    have hplace := ht.skip
    obtain ⟨v,q,hprim,rfl⟩ := hnot hplace.1
    obtain ⟨rfl,rfl⟩ := Prod.mk.inj (ih (Nat.zero_le 6) hfit hplace.2 hu hprim)
    rw [Rejoins]
    simp only [List.length_append,List.length_cons,blankChars_length,CalcTree.eval,Prod.mk.injEq,
      true_and]
    omega
  | @neg e t j hw ih =>
    simp only [List.append_assoc,List.cons_append] at ht
    obtain ⟨f,-,-,-,hneg,-⟩ := calcPrimary_at ht (by simp; decide) hres
    have hplace := ht.skip
    obtain ⟨v,q,hprim,rfl⟩ := hneg hplace.1
    obtain ⟨rfl,rfl⟩ := Prod.mk.inj (ih (Nat.zero_le 6) hfit hplace.2 hu hprim)
    rw [Rejoins]
    simp only [List.length_append,List.length_cons,blankChars_length,CalcTree.eval,Prod.mk.injEq,
      true_and]
    omega
  | @bin r op a b s t j hop ha hb iha ihb =>
    simp only [List.append_assoc] at ht
    obtain ⟨hfa,hfb,hshift⟩ := hfit
    -- the left operand leaves its value to the loop, which stands before the operator
    have hfollow : Follows (r+1) (op.text++(t++(blankChars k++u))) :=
      Or.inr (Or.inr ⟨op,_,by omega,rfl⟩)
    obtain ⟨m,hm⟩ := iha hr hfa ht hfollow hres
    have hplace := ht.append.skip
    cases m with
    | zero => cases hm
    | succ m =>
      obtain ⟨hne,h1,h2⟩ := hb.head
      obtain ⟨g,hg,happly⟩ := opAt_some hplace (by rwa [headD_append hne]) (by rwa [headD_append hne])
      simp only [loopAt,opLoop,Traced.result_bind] at hm
      obtain ⟨q,hq,o,ho,hm⟩ := hm
      have hqp : q = p+s.length+j := by
        split_ifs at hq
        · exact skipBlanks_eq (k := 0) hplace hfollow.not_blank hq
        · exact (Traced.result_pure.mp hq).symm
      rw [hqp,← hop,hg] at ho
      obtain rfl := Option.some.inj ho
      simp only [Traced.result_bind,Prod.exists] at hm
      obtain ⟨d,q₁,hd,hm⟩ := hm
      rw [hqp] at hd
      -- the right operand, and back in the loop
      have hafter := ihb (by omega) hfb hplace.append (hu.mono (by omega)) hd
      obtain ⟨rfl,hgo⟩ := hafter.settle (by omega) hu hplace.append.append
      rw [happly _ _ hshift] at hm
      refine ⟨m,?_⟩
      have := hgo hm
      simpa only [List.length_append,blankChars_length,Nat.add_assoc,CalcTree.eval] using this
  | @loosen r e t hw ih =>
    obtain ⟨v,q,hparse,hloop⟩ := parseAt_result.mp hres
    have hafter := ih (by omega) hfit ht (hu.mono (by omega)) hparse
    obtain ⟨rfl,hgo⟩ := hafter.settle (by omega) hu ht.append
    exact ⟨fuel,hgo hloop⟩

/-- `calc_expr` comes to an end on every string and does not read behind its NUL; on an expression
it returns the value, with everything consumed. -/
theorem calcExpr_correct (ht : TextAt mem p s) (hf : s.length+2 ≤ fuel) :
    (calcExpr mem fuel p).Keeps (fun a => a ≤ p+s.length) ∧
    (∃ v q, (calcExpr mem fuel p).result = some (v,q) ∧ p ≤ q ∧ q ≤ p+s.length) ∧
    ∀ e, IsExpr e s → e.ShiftsFit → (calcExpr mem fuel p).result = some (e.eval,p+s.length) := by
  obtain ⟨hkeeps,⟨v,q⟩,hres,hq⟩ := calcExpr_ends ht.end (Nat.le_add_right p s.length)
    (by omega : p+s.length-p+1 < fuel)
  refine ⟨hkeeps,⟨v,q,hres,hq⟩,fun e he hfit => ?_⟩
  obtain ⟨t,k,hw,rfl⟩ := he
  cases fuel with
  | zero => cases hres
  | succ n =>
    have htext : TextAt mem p (t++(blankChars k++[])) := by rwa [List.append_nil]
    rw [calcExpr_succ] at hres
    obtain ⟨m,hm⟩ := hw.parsed (le_refl 6) hfit htext (Or.inl rfl) hres
    have hlast := loopAt_stop (by decide) (Or.inl rfl) htext.append.skip hm
    rw [calcExpr_succ,hres,hlast,List.length_append,blankChars_length,Nat.add_assoc]

/-- -(1+2) << 0x4 with a blank at the end. -/
def shiftText : List Byte :=
  ['-','(','1','+','2',')',' ','<','<',' ','0','x','4',' '].map ch

def shiftTree : CalcTree := .bin .shl (.neg (.bin .add (.num 1) (.num 2))) (.num 4)

theorem shiftTree_isExpr : IsExpr shiftTree shiftText := by
  have h1 : Writes 0 (.num 1) [ch '1'] := .num 0 (.dec [1] (by simp))
  have h2 : Writes 0 (.num 2) [ch '2'] := .num 0 (.dec [2] (by simp))
  have h4 : Writes 0 (.num 4) [ch ' ',ch '0',ch 'x',ch '4'] :=
    .num 1 (.hex [(4,false)] (ch 'x') (by simp) (Or.inl rfl))
  have hsum : Writes 6 (.bin .add (.num 1) (.num 2)) [ch '1',ch '+',ch '2'] :=
    .loosen (.loosen (.loosen (.loosen (.bin 0 rfl h1.loosen.loosen h2.loosen))))
  have hneg : Writes 0 (.neg (.bin .add (.num 1) (.num 2)))
      [ch '-',ch '(',ch '1',ch '+',ch '2',ch ')'] :=
    .neg 0 (.paren 0 0 hsum)
  have hshift : Writes 3 shiftTree _ := .bin 1 rfl hneg.loosen.loosen.loosen h4.loosen.loosen
  exact ⟨_,1,hshift.loosen.loosen.loosen,rfl⟩

theorem calcExpr_correct_sample :
    (calcExpr (fun i => shiftText.getD i 0#8) 16 0).result = some (-48#64,14) := by
  have ht : TextAt (fun i => shiftText.getD i 0#8) 0 shiftText := by
    simp [TextAt,shiftText]
  have hfit : shiftTree.ShiftsFit := by
    simp [CalcTree.ShiftsFit,shiftTree,CalcTree.eval]
  have hf : shiftText.length+2 ≤ 16 := by decide
  exact (calcExpr_correct ht hf).2.2 shiftTree shiftTree_isExpr hfit

end KiNBOL
