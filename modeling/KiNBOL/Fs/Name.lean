import Mathlib.Data.BitVec

namespace KiNBOL

abbrev Byte := BitVec 8

/-- A C string without its terminator. -/
abbrev CName := List Byte

def ch (c : Char) : Byte := BitVec.ofNat 8 c.toNat

/-- `VFS_NAME_MAX`, the terminator included. -/
def vfsNameMax : Nat := 64

/-- The string in a buffer of `n` bytes. -/
def cString (n : Nat) (buf : Nat → Byte) : CName :=
  ((List.range n).map buf).takeWhile (· ≠ 0#8)

/-- The two fields of a short name, padded with spaces. -/
structure ShortName where
  name8 : List Byte
  ext3 : List Byte
  len8 : name8.length = 8
  len3 : ext3.length = 3
  deriving DecidableEq

/-- A field filled up with spaces. -/
def padded (n : Nat) (l : List Byte) : List Byte := (l++List.replicate n (ch ' ')).take n

theorem length_padded (n : Nat) (l : List Byte) : (padded n l).length = n := by
  simp [padded]

/-- A short name from its two parts. -/
def ShortName.ofParts (base ext : List Byte) : ShortName where
  name8 := padded 8 base
  ext3 := padded 3 ext
  len8 := length_padded ..
  len3 := length_padded ..

def toUpperC (c : Byte) : Byte := if ch 'a' ≤ c ∧ c ≤ ch 'z' then c-32#8 else c

def toLower (c : Byte) : Byte := if ch 'A' ≤ c ∧ c ≤ ch 'Z' then c+32#8 else c

/-- `str_eq_ci`. -/
def strEqCi : CName → CName → Bool
  | a::as,b::bs => if toLower a = toLower b then strEqCi as bs else a = b
  | [],[] => true
  | _,_ => false

/-- `format_name`: the 8.3 name of an entry. -/
def formatName (s : ShortName) : CName :=
  let part (l : List Byte) := l.takeWhile (fun c => c ≠ 0#8 ∧ c ≠ ch ' ')
  let ext := part s.ext3
  part s.name8++(if ext = [] then [] else ch '.'::ext)

/-- `build_full_name` into a buffer of `VFS_NAME_MAX` bytes. -/
def buildFullName (pre leaf : CName) : CName := (pre++leaf).take (vfsNameMax-1)

/-- `join_full_name`. -/
def joinFullName (parent leaf : CName) : CName :=
  if parent = [] then leaf.take (vfsNameMax-1) else (parent++ch '/'::leaf).take (vfsNameMax-1)

/-- `to_short_name`. -/
def toShortName (name : CName) : ShortName where
  name8 := padded 8 (((name.takeWhile (· ≠ ch '.')).take 8).map toUpperC)
  ext3 := padded 3 ((((name.dropWhile (· ≠ ch '.')).drop 1).take 3).map toUpperC)
  len8 := length_padded ..
  len3 := length_padded ..

/-- `base_upper` with room for `maxlen` characters. -/
def baseUpper (name : CName) (maxlen : Nat) : CName :=
  (((name.takeWhile (· ≠ ch '.')).filter (· ≠ ch ' ')).take maxlen).map toUpperC

/-- The position of the last occurrence, if any. -/
def lastIdx (c : Byte) (name : CName) : Option Nat :=
  (List.range name.length).reverse.find? (fun i => name.getD i 0#8 = c)

/-- `needs_lfn`. -/
def needsLfn (name : CName) : Bool :=
  let len := name.length
  let dot := lastIdx (ch '.') name
  let baselen := dot.getD len
  let extlen := match dot with
    | none => 0
    | some d => len-d-1
  len = 0 || 12 < len || 8 < baselen || baselen = 0 || 3 < extlen ||
    (List.range len).any (fun i =>
      let c := name.getD i 0#8
      ch 'a' ≤ c && c ≤ ch 'z' || c = ch ' ' || some i ≠ dot && c = ch '.')

/-- `int_to_dec` for the numbers it is called with. -/
def intToDec (v : Nat) : CName := (Nat.toDigits 10 v).map ch

/-- `lfn_checksum`. -/
def lfnChecksum (s : ShortName) : Byte :=
  (s.name8++s.ext3).foldl (fun sum c => (if sum.getLsbD 0 then 0x80#8 else 0#8)+(sum >>> 1)+c) 0#8

/-- A prefix taken off. -/
def stripPrefix (p path : CName) : CName := if p.isPrefixOf path then path.drop p.length else path

/-- `strip_dev_prefix`. -/
def stripDevPrefix (path : CName) : CName :=
  stripPrefix [ch 's',ch 'd',ch 'a',ch '/']
    (stripPrefix [ch '/',ch 'd',ch 'e',ch 'v',ch '/'] path)

end KiNBOL
