import Mathlib.Data.Fin.VecNotation
import Mathlib.Data.Fintype.Pi
import KiNBOL.Fs.Name

namespace KiNBOL

/-- A directory slot. -/
abbrev Slot := Fin 32 → Byte

instance slotBytesNeZero : NeZero 32 := ⟨by decide⟩

/-- Little-endian numbers. -/
def le16 (a b : Byte) : Nat := a.toNat+256*b.toNat

def byteOf (x i : Nat) : Byte := BitVec.ofNat 8 (x/256^i)

namespace Slot

def attr (e : Slot) : Byte := e 11

/-- `name` and `ext`. -/
def short (e : Slot) : ShortName where
  name8 := List.ofFn (fun i : Fin 8 => e (i.castLE (by omega)))
  ext3 := List.ofFn (fun i : Fin 3 => e ⟨i+8,by omega⟩)
  len8 := by simp
  len3 := by simp

def cluster (e : Slot) : Nat := le16 (e 20) (e 21)*65536+le16 (e 26) (e 27)

def size (e : Slot) : Nat := le16 (e 28) (e 29)+65536*le16 (e 30) (e 31)

def isEnd (e : Slot) : Bool := e 0 = 0#8

def isDeleted (e : Slot) : Bool := e 0 = 0xE5#8

/-- Slots the driver may write to. -/
def isFree (e : Slot) : Bool := e.isEnd || e.isDeleted

def isLfn (e : Slot) : Bool := e.attr &&& 0x0F#8 = 0x0F#8

/-- A slot marked as deleted. -/
def deleted (e : Slot) : Slot := fun i => if i = 0 then 0xE5#8 else e i

def zero : Slot := fun _ => 0#8

end Slot

/-- What `write_dir_entry` writes. -/
def dirEntry (s : ShortName) (attr : Byte) (cluster size : Nat) : Slot := fun i =>
  if i.val < 8 then s.name8.getD i 0#8
  else if i.val < 11 then s.ext3.getD (i-8) 0#8
  else if i.val = 11 then attr
  else if i.val = 20 then byteOf cluster 2
  else if i.val = 21 then byteOf cluster 3
  else if i.val = 26 then byteOf cluster 0
  else if i.val = 27 then byteOf cluster 1
  else if 28 ≤ i.val then byteOf size (i-28)
  else 0#8

/-- `update_dirent_cluster` on the slot. -/
def Slot.setCluster (e : Slot) (cluster : Nat) : Slot := fun i =>
  if i = 20 then byteOf cluster 2
  else if i = 21 then byteOf cluster 3
  else if i = 26 then byteOf cluster 0
  else if i = 27 then byteOf cluster 1
  else e i

/-- `update_dirent_size` on the slot. -/
def Slot.setSize (e : Slot) (size : Nat) : Slot := fun i =>
  if 28 ≤ i.val then byteOf size (i-28) else e i

/-- The offsets of the characters of an LFN slot. -/
def lfnOff : List (Fin 32) := [1,3,5,7,9,14,16,18,20,22,24,28,30]

def lfnMaxEntries : Nat := 10

/-- Writing one character. -/
def Slot.putChar (e : Slot) (off : Fin 32) (c : BitVec 16) : Slot := fun i =>
  if i = off then c.setWidth 8 else if i = off+1 then (c >>> 8).setWidth 8 else e i

/-- The loop of `lfn_fill_chunk`. -/
def lfnFill (leaf : CName) (namelen : Nat) : List (Fin 32) → Nat → Bool → Slot → Slot
  | [],_,_,e => e
  | off::offs,pos,ended,e =>
    if ended then lfnFill leaf namelen offs (pos+1) true (e.putChar off 0xFFFF#16)
    else if pos < namelen then
      lfnFill leaf namelen offs (pos+1) false (e.putChar off ((leaf.getD pos 0#8).setWidth 16))
    else lfnFill leaf namelen offs (pos+1) true (e.putChar off 0#16)

/-- `lfn_fill_chunk`. -/
def lfnFillChunk (e : Slot) (leaf : CName) (namelen chunkIndex : Nat) : Slot :=
  lfnFill leaf namelen lfnOff (chunkIndex*13) false e

/-- The LFN slot with sequence number `seq` of `nentries`. -/
def lfnEntry (leaf : CName) (namelen nentries : Nat) (sum : Byte) (seq : Nat) : Slot :=
  let blank : Slot := fun i =>
    if i = 0 then BitVec.ofNat 8 seq ||| (if seq = nentries then 0x40#8 else 0#8)
    else if i = 11 then 0x0F#8
    else if i = 12 then 0#8
    else if i = 13 then sum
    else if i = 26 then 0#8
    else if i = 27 then 0#8
    else 0xFF#8
  lfnFillChunk blank leaf namelen (seq-1)

/-- The length of a leaf as `write_lfn_and_short` counts it. -/
def lfnLength (leaf : CName) : Nat := min leaf.length (lfnMaxEntries*13)

def lfnCount (leaf : CName) : Nat := max ((lfnLength leaf+12)/13) 1

/-- The LFN slots of `write_lfn_and_short`, in the order in which it writes them. -/
def lfnEntries (leaf : CName) (sum : Byte) : List Slot :=
  (List.range (lfnCount leaf)).map (fun idx =>
    lfnEntry leaf (lfnLength leaf) (lfnCount leaf) sum (lfnCount leaf-idx))

/-- The long-name state of `fat32_scan_dir`. -/
structure LfnScan where
  active : Bool
  nextSeq : Nat
  sum : Byte
  name : Nat → Byte

/-- The loop that copies the characters of an LFN slot. -/
def lfnRead (raw : Slot) : List (Fin 32) → Nat → (Nat → Byte) → Nat → Byte
  | [],_,name => name
  | off::offs,pos,name =>
    if vfsNameMax-1 ≤ pos then name
    else
      let c := (raw off).setWidth 16 ||| (raw (off+1)).setWidth 16 <<< 8
      if c = 0#16 then name
      else lfnRead raw offs (pos+1) (fun p => if p = pos then c.setWidth 8 else name p)

/-- An LFN slot in `fat32_scan_dir`. -/
def LfnScan.next (s : LfnScan) (raw : Slot) : LfnScan :=
  let seq := (raw 0 &&& 0x1F#8).toNat
  let s := if raw 0 &&& 0x40#8 ≠ 0#8 then ⟨true,seq,raw 13,fun _ => 0#8⟩ else s
  if !s.active || seq ≠ s.nextSeq || raw 13 ≠ s.sum || seq < 1 || lfnMaxEntries < seq then
    { s with active := false }
  else { s with name := lfnRead raw lfnOff ((seq-1)*13) s.name, nextSeq := seq-1 }

/-- What `fat32_scan_dir` makes of a slot. -/
inductive Scanned where
  | stop
  | skip
  | entry (name : CName)

/-- The name part of the body of `fat32_scan_dir`. -/
def LfnScan.scan (s : LfnScan) (e : Slot) : Scanned × LfnScan :=
  let off := { s with active := false }
  if e.isEnd then (.stop,s)
  else if e.isDeleted then (.skip,off)
  else if e.isLfn then (.skip,s.next e)
  else if e.attr &&& 0x08#8 ≠ 0#8 then (.skip,off)
  else if e 0 = ch '.' then (.skip,off)
  else
    let sname := formatName e.short
    if sname = [] then (.skip,off)
    else if s.active && s.nextSeq = 0 && lfnChecksum e.short = s.sum then
      (.entry (cString vfsNameMax s.name),off)
    else (.entry sname,off)

end KiNBOL
