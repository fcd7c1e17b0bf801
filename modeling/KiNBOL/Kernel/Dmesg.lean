import KiNBOL.Framework.LogRing
import KiNBOL.Fs.Name

namespace KiNBOL

def dmesgBufSize : Nat := 4096

/-- The globals of the kernel log. -/
structure Dmesg where
  buf : Nat → Byte
  head : Nat
  count : Nat
  seq : BitVec 32

namespace Dmesg

def init : Dmesg := ⟨fun _ => 0#8,0,0,0#32⟩

def putc (d : Dmesg) (c : Byte) : Dmesg where
  buf := Function.update d.buf d.head c
  head := (d.head+1)%dmesgBufSize
  count := if d.count < dmesgBufSize then d.count+1 else d.count
  seq := d.seq

/-- `dmesg` of a string; `none` is NULL. -/
def msg (d : Dmesg) : Option CName → Dmesg
  | none => d
  | some s =>
    let d := s.foldl putc d
    { d with seq := d.seq+1#32 }

/-- The loop of `dmesg_int` that fills `tmp` from its end. -/
def intLoop (n : Nat) (tmp : CName) : CName :=
  if n = 0 then tmp else intLoop (n/10) ((ch '0'+BitVec.ofNat 8 (n%10))::tmp)
decreasing_by exact Nat.div_lt_self (Nat.pos_of_ne_zero ‹_›) (by decide)

def int (d : Dmesg) (n : BitVec 32) : Dmesg :=
  if n = 0#32 then d.putc (ch '0') else d.msg (some (intLoop n.toNat []))

/-- The digits of `dmesg_hex`. -/
def hexDigits : List Byte := "0123456789ABCDEF".toList.map ch

/-- The loop of `dmesg_hex`. -/
def hexLoop (n : BitVec 64) : Nat → Dmesg → Dmesg
  | 0,d => d
  | i+1,d => hexLoop n i (d.putc (hexDigits.getD ((n >>> (i*4)) &&& 0xF#64).toNat 0#8))

def hex (d : Dmesg) (n : BitVec 64) : Dmesg :=
  hexLoop n 16 ((d.putc (ch '0')).putc (ch 'x'))

/-- What `dmesg_foreach` hands to its callback. -/
def foreach (d : Dmesg) : List Byte :=
  if d.count = 0 then []
  else
    let start := if d.count < dmesgBufSize then 0 else d.head
    let len := if d.count < dmesgBufSize then d.count else dmesgBufSize
    (List.range len).map (fun i => d.buf ((start+i)%dmesgBufSize))

def len (d : Dmesg) : Nat := d.count

def clear (d : Dmesg) : Dmesg := { d with head := 0, count := 0 }

end Dmesg

/-- The calls that write to the log. -/
inductive DmesgCall where
  | init
  | msg (s : Option CName)
  | int (n : BitVec 32)
  | hex (n : BitVec 64)
  | clear

def DmesgCall.run (d : Dmesg) : DmesgCall → Dmesg
  | .init => Dmesg.init
  | .msg s => d.msg s
  | .int n => d.int n
  | .hex n => d.hex n
  | .clear => d.clear

/-- The numeral of a number in upper case. -/
def numeral (base n : Nat) : CName := (Nat.toDigits base n).map (fun c => ch c.toUpper)

/-- The numeral with 16 digits. -/
def hexNumeral (n : BitVec 64) : CName := (numeral 16 n.toNat).leftpad 16 (ch '0')

/-- The log without a bound: everything that was logged since it was empty. -/
def DmesgCall.log (l : CName) : DmesgCall → CName
  | .init => []
  | .msg s => l++s.getD []
  | .int n => l++numeral 10 n.toNat
  | .hex n => l++([ch '0',ch 'x']++hexNumeral n)
  | .clear => []

variable {d : Dmesg} {l : CName}

/-- The ring holds the end of this log. -/
def Dmesg.Logs (d : Dmesg) (l : CName) : Prop := KeepsLast dmesgBufSize d.buf d.head d.count l

namespace Dmesg.Logs

theorem putc (h : d.Logs l) (c : Byte) : (d.putc c).Logs (l++[c]) := KeepsLast.push h c

theorem foldl (h : d.Logs l) (s : CName) : (s.foldl Dmesg.putc d).Logs (l++s) := by
  induction s generalizing d l with
  | nil => rwa [List.append_nil]
  | cons c s ih =>
    have hrest := ih (h.putc c)
    rwa [List.append_assoc] at hrest

theorem msg (h : d.Logs l) (s : Option CName) : (d.msg s).Logs (l++s.getD []) := by
  cases s with
  | none => rwa [Option.getD_none,List.append_nil]
  | some s => exact h.foldl s

end Dmesg.Logs

theorem numeral_lt {base n : Nat} (h : n < base) : numeral base n = [ch n.digitChar.toUpper] := by
  rw [numeral,Nat.toDigits_of_lt_base h,List.map_singleton]

theorem numeral_ge {base n : Nat} (hb : 1 < base) (h : base ≤ n) :
    numeral base n = numeral base (n/base)++[ch (n%base).digitChar.toUpper] := by
  rw [numeral,Nat.toDigits_of_base_le hb h,List.map_append,List.map_singleton]
  rfl

theorem digit_ten : ∀ k < 10, ch '0'+BitVec.ofNat 8 k = ch k.digitChar.toUpper := by decide

theorem digit_sixteen : ∀ k < 16, Dmesg.hexDigits.getD k 0#8 = ch k.digitChar.toUpper := by decide

namespace Dmesg

/-- The loop of `dmesg_int` writes the decimal numeral. -/
theorem intLoop_eq {n : Nat} (hn : n ≠ 0) (tmp : CName) :
    intLoop n tmp = numeral 10 n++tmp := by
  induction n using Nat.strong_induction_on generalizing tmp with
  | _ n ih =>
    rw [intLoop,if_neg hn]
    by_cases h : n < 10
    · rw [Nat.div_eq_of_lt h,Nat.mod_eq_of_lt h,intLoop,if_pos rfl,numeral_lt h,digit_ten n h]
      rfl
    · rw [ih (n/10) (by omega) (by omega),@numeral_ge 10 n (by decide) (by omega),
        digit_ten (n%10) (by omega),List.append_assoc]
      rfl

theorem Logs.int (h : d.Logs l) (n : BitVec 32) : (d.int n).Logs (l++numeral 10 n.toNat) := by
  rw [Dmesg.int]
  split_ifs with hn
  · rw [hn]
    exact h.putc (ch '0')
  · have hne : n.toNat ≠ 0 := fun he => hn (BitVec.eq_of_toNat_eq he)
    rw [intLoop_eq hne,List.append_nil]
    exact h.msg (some (numeral 10 n.toNat))

/-- The lowest `k` hexadecimal digits of a number, the highest of them first. -/
def lowDigits (k n : Nat) : CName :=
  ((List.range k).map (fun i => hexDigits.getD (n/16^i%16) 0#8)).reverse

theorem lowDigits_succ (k n : Nat) :
    lowDigits (k+1) n = lowDigits k (n/16)++[hexDigits.getD (n%16) 0#8] := by
  have hrest : (fun i => hexDigits.getD (n/16^i%16) 0#8) ∘ Nat.succ =
      fun i => hexDigits.getD (n/16/16^i%16) 0#8 := by
    funext i
    rw [Function.comp_apply,Nat.pow_succ',Nat.div_div_eq_div_mul]
  rw [lowDigits,List.range_succ_eq_map,List.map_cons,List.map_map,List.reverse_cons,hrest,
    Nat.pow_zero,Nat.div_one]
  rfl

theorem lowDigits_zero (k : Nat) : lowDigits k 0 = List.replicate k (ch '0') := by
  induction k with
  | zero => rfl
  | succ k ih =>
    rw [lowDigits_succ,Nat.zero_div,ih,List.replicate_succ']
    rfl

/-- Padding the numeral gives these digits. -/
theorem leftpad_numeral {k n : Nat} (hk : 0 < k) (h : n < 16^k) :
    (numeral 16 n).leftpad k (ch '0') = lowDigits k n := by
  induction k generalizing n with
  | zero => omega
  | succ k ih =>
    rw [lowDigits_succ,digit_sixteen (n%16) (Nat.mod_lt n (by decide))]
    by_cases hn : n < 16
    · rw [Nat.div_eq_of_lt hn,Nat.mod_eq_of_lt hn,lowDigits_zero,numeral_lt hn,List.leftpad]
      rfl
    · have hk' : 0 < k := by
        by_contra hzero
        obtain rfl : k = 0 := by omega
        omega
      have hlt : n/16 < 16^k := by
        rw [Nat.div_lt_iff_lt_mul (by decide),← Nat.pow_succ]
        exact h
      rw [← ih hk' hlt,@numeral_ge 16 n (by decide) (by omega),List.leftpad,List.leftpad,
        List.length_append,List.length_singleton,Nat.add_sub_add_right,List.append_assoc]

theorem hexLoop_logs (n : BitVec 64) (k : Nat) (h : d.Logs l) : (hexLoop n k d).Logs
    (l++lowDigits k n.toNat) := by
  induction k generalizing d l with
  | zero =>
    rw [lowDigits,List.range_zero,List.map_nil,List.reverse_nil,List.append_nil]
    exact h
  | succ k ih =>
    have hdigit : ((n >>> (k*4)) &&& 0xF#64).toNat = n.toNat/16^k%16 := by
      rw [BitVec.toNat_and,BitVec.toNat_ushiftRight,Nat.shiftRight_eq_div_pow,Nat.mul_comm,
        Nat.pow_mul]
      exact Nat.and_two_pow_sub_one_eq_mod _ 4
    have hrest := ih (h.putc (hexDigits.getD (n.toNat/16^k%16) 0#8))
    rw [List.append_assoc] at hrest
    rw [hexLoop,hdigit,lowDigits,List.range_succ,List.map_append,List.reverse_append]
    exact hrest

theorem Logs.hex (h : d.Logs l) (n : BitVec 64) :
    (d.hex n).Logs (l++([ch '0',ch 'x']++hexNumeral n)) := by
  have hlog := hexLoop_logs n 16 ((h.putc (ch '0')).putc (ch 'x'))
  rw [← leftpad_numeral (by decide) n.isLt,List.append_assoc,List.append_assoc] at hlog
  exact hlog

theorem Logs.run (h : d.Logs l) (c : DmesgCall) : (c.run d).Logs (c.log l) := by
  cases c with
  | init => exact KeepsLast.empty _ _
  | msg s => exact h.msg s
  | int n => exact h.int n
  | hex n => exact h.hex n
  | clear => exact KeepsLast.empty _ _

theorem Logs.foreach (h : d.Logs l) : d.foreach = latest dmesgBufSize l := by
  have hcount := h.count
  rw [Dmesg.foreach]
  split_ifs with h0 hfull
  · have hread := h.read
    rw [h0] at hread
    exact hread
  · have hread := h.read
    rwa [if_pos hfull] at hread
  · have hread := h.read
    rw [if_neg hfull] at hread
    have hlen : d.count = dmesgBufSize := by omega
    rw [← hread,hlen]

end Dmesg

/-- After `dmesg_init` and any calls the log is the end of what was logged. -/
theorem dmesg_faithful (calls : List DmesgCall) :
    (calls.foldl DmesgCall.run Dmesg.init).foreach =
      latest dmesgBufSize (calls.foldl DmesgCall.log []) ∧
    (calls.foldl DmesgCall.run Dmesg.init).len =
      min (calls.foldl DmesgCall.log []).length dmesgBufSize := by
  have hrun : ∀ (d : Dmesg) (l : CName), d.Logs l →
      (calls.foldl DmesgCall.run d).Logs (calls.foldl DmesgCall.log l) := by
    induction calls with
    | nil => exact fun d l h => h
    | cons c calls ih => exact fun d l h => ih _ _ (h.run c)
  have h := hrun Dmesg.init [] (KeepsLast.empty _ _)
  exact ⟨h.foreach,h.count⟩

end KiNBOL
