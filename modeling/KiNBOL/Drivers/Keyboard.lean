import KiNBOL.Framework.Int32
import KiNBOL.Framework.LogRing
import KiNBOL.Fs.Name
import Mathlib.Data.List.GetD

namespace KiNBOL

def backspace : Byte := 0x08#8
def newline : Byte := 0x0A#8

/-- The characters of the scancodes. -/
def lo : List Byte := [
  '\x00','\x00','1','2','3','4','5','6','7','8','9','0','-','=','\x08','\x09',
  'q','w','e','r','t','y','u','i','o','p','[',']','\x0a','\x00',
  'a','s','d','f','g','h','j','k','l',';','\x27','\x60','\x00','\x5c',
  'z','x','c','v','b','n','m',',','.','/','\x00','*','\x00',' '].map ch

/-- The characters with shift or caps lock. -/
def up : List Byte := [
  '\x00','\x00','!','@','#','$','%','^','&','*','(',')','_','+','\x08','\x09',
  'Q','W','E','R','T','Y','U','I','O','P','\x7b','\x7d','\x0a','\x00',
  'A','S','D','F','G','H','J','K','L',':','\x22','~','\x00','|',
  'Z','X','C','V','B','N','M','<','>','?','\x00','*','\x00',' '].map ch

theorem length_tables : lo.length = 58 ∧ up.length = 58 := ⟨rfl,rfl⟩

/-- An access to one of the arrays of the line editor. -/
inductive LineAccess where
  | table (i : Nat)
  | buf (i : Nat)
  | history (slot : Int) (i : Nat)
  deriving DecidableEq

/-- The access stays in its array, where `buf` has `max` bytes. -/
def LineAccess.InBounds (max : Nat) : LineAccess → Prop
  | .table i => i < 58
  | .buf i => i < max
  | .history slot i => 0 ≤ slot ∧ slot < 16 ∧ i < 256

/-- `history` with `hist_count` and `hist_head`. -/
structure History where
  slots : Int → Nat → Byte
  count : Int
  head : Int

namespace History

def init : History := ⟨fun _ _ => 0#8,0,0⟩

/-- `hist_add`. -/
def add (h : History) (buf : Nat → Byte) : History :=
  if buf 0 = 0#8 then h else
  let slot := h.head.tmod 16
  let text := cString 255 buf
  { slots := Function.update h.slots slot
      (Function.update (fun j => text.getD j (h.slots slot j)) text.length 0#8)
    head := toInt32 (h.head+1)
    count := if h.count < 16 then toInt32 (h.count+1) else h.count }

/-- What `hist_add` reads and writes. -/
def addAccesses (h : History) (buf : Nat → Byte) : List LineAccess :=
  if buf 0 = 0#8 then [.buf 0] else
  (List.range ((cString 255 buf).length+1)).map .buf++
    (List.range ((cString 255 buf).length+1)).map (.history (h.head.tmod 16))

end History

/-- The variables of `keyboard_readline`, with what it has put on the screen and the accesses it has
made. -/
structure Editor where
  buf : Nat → Byte
  i : Nat
  shift : Bool
  caps : Bool
  extended : Bool
  histPos : Int
  closed : Bool
  echoed : List Byte
  accesses : List LineAccess

namespace Editor

/-- `while (i > 0) { i--; terminal_putchar('\b'); }`. -/
def eraseAll (s : Editor) : Editor :=
  { s with i := 0, echoed := s.echoed++List.replicate s.i backspace }

/-- Copies the slot of `hist_pos` into `buf`. -/
def recallLine (s : Editor) (h : History) (max : Nat) : Editor :=
  let slot := s.histPos.tmod 16
  let text := cString (max-1) (h.slots slot)
  { s with
    buf := fun j => text.getD j (s.buf j)
    i := text.length
    echoed := s.echoed++text
    accesses := s.accesses++(List.range (text.length+1)).map (.history slot)++
      (List.range text.length).map .buf }

/-- Scancode 0x48 after 0xE0. -/
def keyUp (s : Editor) (h : History) (max : Nat) : Editor :=
  let target := toInt32 (s.histPos-1)
  if target < toInt32 (h.head-h.count) then s
  else ({ s with histPos := target }.eraseAll).recallLine h max

/-- Scancode 0x50 after 0xE0. -/
def keyDown (s : Editor) (h : History) (max : Nat) : Editor :=
  let target := toInt32 (s.histPos+1)
  if target > h.head then s
  else if target = h.head then { s with histPos := target }.eraseAll
  else ({ s with histPos := target }.eraseAll).recallLine h max

/-- A scancode that is looked up. Past the end of a table lies what `behind` has there. -/
def keyChar (s : Editor) (behind : Nat → Byte) (sc : Byte) : Editor :=
  let c := (if xor s.shift s.caps then up else lo).getD sc.toNat (behind sc.toNat)
  let s := { s with accesses := s.accesses++[.table sc.toNat] }
  if c = 0#8 then s
  else if c = newline then { s with echoed := s.echoed++[newline], closed := true }
  else if c = backspace then
    if 0 < s.i then { s with i := s.i-1, echoed := s.echoed++[backspace] } else s
  else { s with
    buf := Function.update s.buf s.i c
    i := s.i+1
    echoed := s.echoed++[c]
    accesses := s.accesses++[.buf s.i] }

/-- One scancode. Nothing sets `completion_cb`, so Tab does nothing. -/
def key (s : Editor) (h : History) (max : Nat) (behind : Nat → Byte) (sc : Byte) : Editor :=
  if sc = 0xE0#8 then { s with extended := true }
  else if s.extended then
    let s := { s with extended := false }
    if sc = 0x48#8 then s.keyUp h max
    else if sc = 0x50#8 then s.keyDown h max
    else s
  else if sc = 0x0F#8 then s
  else if sc = 0x2A#8 ∨ sc = 0x36#8 then { s with shift := true }
  else if sc = 0xAA#8 ∨ sc = 0xB6#8 then { s with shift := false }
  else if sc = 0x3A#8 then { s with caps := !s.caps }
  else if 0x80#8 ≤ sc then s
  else s.keyChar behind sc

/-- A scancode, and the test of the loop after it. -/
def step (h : History) (max : Nat) (behind : Nat → Byte) (s : Editor) (sc : Byte) : Editor :=
  if s.closed then s else
  let s := s.key h max behind sc
  if s.i < max-1 then s else { s with closed := true }

def start (h : History) (max : Nat) (buf : Nat → Byte) : Editor :=
  ⟨buf,0,false,false,false,h.head,decide (¬0 < max-1),[],[]⟩

/-- `buf` as the caller gets it. -/
def returned (s : Editor) : Nat → Byte := Function.update s.buf s.i 0#8

/-- What `keyboard_readline` accesses: after the loop, the terminator and `hist_add` too. -/
def allAccesses (s : Editor) (h : History) : List LineAccess :=
  s.accesses++if s.closed then .buf s.i::h.addAccesses s.returned else []

end Editor

/-- `keyboard_readline` up to the point where it has popped these scancodes. -/
def keyboardReadline (h : History) (max : Nat) (behind buf : Nat → Byte) (bytes : List Byte) :
    Editor :=
  bytes.foldl (Editor.step h max behind) (Editor.start h max buf)

/-- What is on the screen after one more character. -/
def shownChar (text : List Byte) (c : Byte) : List Byte :=
  if c = backspace then text.dropLast else if c = newline then text else text++[c]

/-- The characters that were echoed and not erased afterwards. -/
def shown (echoed : List Byte) : List Byte := echoed.foldl shownChar []

/-- A character that the editor takes into a line. -/
def Typed (c : Byte) : Prop := c ≠ 0#8 ∧ c ≠ newline ∧ c ≠ backspace

/-- The history after these lines: the ring holds the last 16 of them. -/
structure History.Holds (h : History) (lines : List (List Byte)) : Prop where
  head : h.head = lines.length
  count : h.count = min lines.length 16
  slot : ∀ j (hj : j < lines.length), lines.length ≤ j+16 →
    cString 256 (h.slots (j%16 : Nat)) = lines[j]
  short : ∀ line ∈ lines, line.length < 256
  typed : ∀ line ∈ lines, ∀ c ∈ line, Typed c

/-- All accesses stay in their arrays, and a call that returns hands out the line on the screen and
leaves it in the history. -/
structure LineSafe (h : History) (max : Nat) (lines : List (List Byte)) (s : Editor) : Prop where
  inBounds : ∀ a ∈ s.allAccesses h, a.InBounds max
  line : s.closed → (shown s.echoed).length < max ∧ cString max s.returned = shown s.echoed
  stored : s.closed → (h.add s.returned).Holds
    (if shown s.echoed = [] then lines else lines++[shown s.echoed])

/-- No scancode from 0x3B to 0x7F comes without 0xE0 before it. -/
def NoFunctionKeys (extended : Bool) : List Byte → Prop
  | [] => True
  | sc::rest => (extended = false → ¬(0x3B#8 ≤ sc ∧ sc ≤ 0x7F#8)) ∧
    NoFunctionKeys (decide (sc = 0xE0#8)) rest

/-! ## Strings -/

variable {buf : Nat → Byte} {n : Nat}

theorem cString_take {m : Nat} (h : m ≤ n) (buf : Nat → Byte) :
    (cString n buf).take m = cString m buf := by
  rw [cString,List.take_takeWhile,← List.map_take,List.take_range,Nat.min_eq_left h,cString]

theorem cString_length_le (n : Nat) (buf : Nat → Byte) : (cString n buf).length ≤ n := by
  rw [← cString_take (le_refl n),List.length_take]
  exact Nat.min_le_left _ _

/-- A line with its terminator in a buffer. -/
theorem cString_line {text : List Byte} (hne : ∀ c ∈ text, c ≠ 0#8)
    (hbuf : ∀ j (hj : j < text.length), buf j = text[j]) (hend : buf text.length = 0#8)
    (hlen : text.length < n) : cString n buf = text := by
  obtain ⟨k,rfl⟩ := Nat.exists_eq_add_of_lt hlen
  have htext : (List.range text.length).map buf = text := by
    apply List.ext_getElem
    · simp
    · intro j hj hj'
      simp [hbuf j hj']
  rw [cString,Nat.add_assoc,List.range_add,List.map_append,htext,
    List.takeWhile_append_of_pos (by simpa using hne),List.range_succ_eq_map]
  simp [hend]

theorem shown_append (a b : List Byte) : shown (a++b) = b.foldl shownChar (shown a) := by
  rw [shown,List.foldl_append,shown]

theorem shown_erase (text : List Byte) :
    (List.replicate text.length backspace).foldl shownChar text = [] := by
  induction hn : text.length generalizing text with
  | zero => exact List.eq_nil_of_length_eq_zero hn
  | succ n ih =>
    rw [List.replicate_succ,List.foldl_cons,shownChar,if_pos rfl]
    exact ih _ (by rw [List.length_dropLast,hn,Nat.add_sub_cancel])

theorem shown_typed {text : List Byte} (h : ∀ c ∈ text, Typed c) (before : List Byte) :
    text.foldl shownChar before = before++text := by
  induction text generalizing before with
  | nil => simp
  | cons c text ih =>
    have hc := h c (by simp)
    rw [List.foldl_cons,shownChar,if_neg hc.2.2,if_neg hc.2.1,
      ih (fun c hc => h c (by simp [hc])),List.append_assoc,List.singleton_append]

/-! ## The history -/

variable {h : History} {lines : List (List Byte)} {max : Nat}

theorem History.init_holds : History.init.Holds [] := by
  refine ⟨rfl,rfl,fun j hj => ?_,by simp,by simp⟩
  exact absurd hj (Nat.not_lt_zero j)

theorem History.Holds.add {text : List Byte} (hh : h.Holds lines)
    (hfits : lines.length+1 < 2^31) (htext : cString 256 buf = text) (hlen : text.length < 256)
    (htyped : ∀ c ∈ text, Typed c) :
    (h.add buf).Holds (if text = [] then lines else lines++[text]) := by
  have hcopy : cString 255 buf = text := by
    rw [← cString_take (show 255 ≤ 256 by decide),htext,List.take_of_length_le (by omega)]
  have hfirst : buf 0 = 0#8 ↔ text = [] := by
    rw [← htext,cString,List.range_succ_eq_map,List.map_cons,List.takeWhile_cons]
    by_cases h0 : buf 0 = 0#8 <;> simp [h0]
  rw [History.add]
  by_cases hempty : text = []
  · rw [if_pos (hfirst.mpr hempty),if_pos hempty]
    exact hh
  rw [if_neg (fun h0 => hempty (hfirst.mp h0)),if_neg hempty]
  have hhead := hh.head
  have hcount := hh.count
  have hslot : h.head.tmod 16 = ((lines.length%16 : Nat) : Int) := by
    rw [hhead]
    rfl
  have hadd : (lines++[text]).length = lines.length+1 := by simp
  dsimp only
  rw [hcopy,hslot]
  constructor
  · rw [hadd]
    dsimp only
    rw [hhead,toInt32_of_fits (by omega) (by omega)]
    rfl
  · rw [hadd]
    dsimp only
    rw [hcount]
    split_ifs with hlt
    · rw [toInt32_of_fits (by omega) (by omega)]
      omega
    · omega
  · intro j hj hnear
    rw [hadd] at hj hnear
    dsimp only
    by_cases hlast : j = lines.length
    · subst hlast
      rw [Function.update_self]
      have hrow := @cString_line
        (Function.update (fun j => text.getD j (h.slots (lines.length%16 : Nat) j)) text.length 0#8)
        256 text (fun c hc => (htyped c hc).1) (fun j hj => by
          rw [Function.update_of_ne (Nat.ne_of_lt hj),List.getD_eq_getElem _ _ hj])
        (Function.update_self _ _ _) hlen
      rw [hrow]
      simp
    · have hne : ((j%16 : Nat) : Int) ≠ ((lines.length%16 : Nat) : Int) := by
        intro he
        exact mod_ne_of_near (show j < lines.length by omega) (by omega) (Int.ofNat.inj he)
      rw [Function.update_of_ne hne,hh.slot j (by omega) (by omega)]
      exact (List.getElem_append_left (by omega)).symm
  · intro line hline
    rcases List.mem_append.mp hline with hline | hline
    · exact hh.short line hline
    · rw [List.mem_singleton.mp hline]
      exact hlen
  · intro line hline
    rcases List.mem_append.mp hline with hline | hline
    · exact hh.typed line hline
    · rw [List.mem_singleton.mp hline]
      exact htyped

/-! ## The line -/

namespace Editor

variable {s : Editor} {behind : Nat → Byte}

/-- The line in `buf` is the one on the screen, and `hist_pos` is at one of the lines kept, or behind
the newest. -/
structure Sound (h : History) (max : Nat) (s : Editor) : Prop where
  room : s.i < max
  text : shown s.echoed = (List.range s.i).map s.buf
  typed : ∀ c ∈ shown s.echoed, Typed c
  posLo : h.head-h.count ≤ s.histPos
  posHi : s.histPos ≤ h.head
  inBounds : ∀ a ∈ s.accesses, a.InBounds max

theorem Sound.length (hs : s.Sound h max) : (shown s.echoed).length = s.i := by
  rw [hs.text]
  simp

theorem Sound.eraseAll (hs : s.Sound h max) : s.eraseAll.Sound h max := by
  have hnone : shown s.eraseAll.echoed = [] := by
    rw [Editor.eraseAll,shown_append,← hs.length]
    exact shown_erase _
  refine ⟨Nat.zero_lt_of_lt hs.room,hnone,?_,hs.posLo,hs.posHi,hs.inBounds⟩
  rw [hnone]
  simp

/-- Recalling one of the lines that are kept. -/
theorem Sound.recallLine (hs : s.Sound h max) (hh : h.Holds lines) (hmax : 2 ≤ max) (hlen : max ≤ 256)
    (hi : s.i = 0) (hpos : s.histPos < h.head) : (s.recallLine h max).Sound h max := by
  have hhead := hh.head
  have hcount := hh.count
  have hlo := hs.posLo
  obtain ⟨p,hp⟩ := Int.eq_ofNat_of_zero_le (show 0 ≤ s.histPos by omega)
  have hslot : s.histPos.tmod 16 = ((p%16 : Nat) : Int) := by
    rw [hp]
    rfl
  have hnone : shown s.echoed = [] := by
    rw [hs.text,hi]
    rfl
  let text := cString (max-1) (h.slots (s.histPos.tmod 16))
  have htext : text = lines[p].take (max-1) := by
    rw [← hh.slot p (by omega) (by omega),cString_take (by omega),← hslot]
  have htyped : ∀ c ∈ text, Typed c := by
    intro c hc
    rw [htext] at hc
    exact hh.typed _ (List.getElem_mem _) c (List.mem_of_mem_take hc)
  have hroom : text.length ≤ max-1 := cString_length_le _ _
  have hecho : shown (s.recallLine h max).echoed = text := by
    change shown (s.echoed++text) = text
    rw [shown_append,hnone,shown_typed htyped]
    rfl
  refine ⟨?_,?_,?_,hs.posLo,hs.posHi,?_⟩
  · change text.length < max
    omega
  · rw [hecho]
    change text = (List.range text.length).map (fun j => text.getD j (s.buf j))
    apply List.ext_getElem
    · simp
    · intro j hj hj'
      simp [hj]
  · rw [hecho]
    exact htyped
  · intro a ha
    change a ∈ s.accesses++(List.range (text.length+1)).map (.history (s.histPos.tmod 16))++
      (List.range text.length).map .buf at ha
    simp only [List.mem_append,List.mem_map,List.mem_range] at ha
    rcases ha with (ha | ⟨j,hj,rfl⟩) | ⟨j,hj,rfl⟩
    · exact hs.inBounds a ha
    · rw [hslot]
      simp only [LineAccess.InBounds]
      omega
    · simp only [LineAccess.InBounds]
      omega

theorem Sound.at {pos : Int} (hs : s.Sound h max) (hlo : h.head-h.count ≤ pos)
    (hhi : pos ≤ h.head) : Sound h max { s with histPos := pos } :=
  ⟨hs.room,hs.text,hs.typed,hlo,hhi,hs.inBounds⟩

theorem Sound.keyUp (hs : s.Sound h max) (hh : h.Holds lines) (hmax : 2 ≤ max) (hlen : max ≤ 256)
    (hfits : lines.length+1 < 2^31) : (s.keyUp h max).Sound h max := by
  have hhead := hh.head
  have hcount := hh.count
  have hlo := hs.posLo
  have hhi := hs.posHi
  rw [Editor.keyUp,toInt32_of_fits (by omega) (by omega),toInt32_of_fits (by omega) (by omega)]
  split_ifs with hold
  · exact hs
  · exact (hs.at (by omega) (by omega)).eraseAll.recallLine hh hmax hlen rfl (by
      change s.histPos-1 < h.head
      omega)

theorem Sound.keyDown (hs : s.Sound h max) (hh : h.Holds lines) (hmax : 2 ≤ max) (hlen : max ≤ 256)
    (hfits : lines.length+1 < 2^31) : (s.keyDown h max).Sound h max := by
  have hhead := hh.head
  have hcount := hh.count
  have hlo := hs.posLo
  have hhi := hs.posHi
  rw [Editor.keyDown,toInt32_of_fits (by omega) (by omega)]
  split_ifs with hnew hlast
  · exact hs
  · exact (hs.at (by omega) (by omega)).eraseAll
  · exact (hs.at (by omega) (by omega)).eraseAll.recallLine hh hmax hlen rfl (by
      change s.histPos+1 < h.head
      omega)

theorem Sound.keyChar (hs : s.Sound h max) (hroom : s.i < max-1) {sc : Byte} (hsc : sc.toNat < 58) :
    (s.keyChar behind sc).Sound h max := by
  have hbounds : ∀ a ∈ s.accesses++[.table sc.toNat], a.InBounds max := by
    intro a ha
    rcases List.mem_append.mp ha with ha | ha
    · exact hs.inBounds a ha
    · rw [List.mem_singleton.mp ha]
      exact hsc
  rw [Editor.keyChar]
  generalize (if xor s.shift s.caps then up else lo).getD sc.toNat (behind sc.toNat) = c
  dsimp only
  split_ifs with hnul hnl hback hi
  · exact ⟨hs.room,hs.text,hs.typed,hs.posLo,hs.posHi,hbounds⟩
  · have hecho : shown (s.echoed++[newline]) = shown s.echoed := by
      rw [shown_append]
      rfl
    refine ⟨hs.room,?_,?_,hs.posLo,hs.posHi,hbounds⟩
    · rw [hecho]
      exact hs.text
    · rw [hecho]
      exact hs.typed
  · have hecho : shown (s.echoed++[backspace]) = (shown s.echoed).dropLast := by
      rw [shown_append]
      rfl
    obtain ⟨i,he⟩ := Nat.exists_eq_add_of_lt hi
    have hroom' := hs.room
    refine ⟨by dsimp only; omega,?_,?_,hs.posLo,hs.posHi,hbounds⟩
    · rw [hecho,hs.text]
      dsimp only
      rw [← List.map_dropLast,show s.i = i+1 by omega,List.range_succ,List.dropLast_concat,
        Nat.add_sub_cancel]
    · rw [hecho]
      intro c hc
      exact hs.typed c (List.dropLast_subset _ hc)
  · exact ⟨hs.room,hs.text,hs.typed,hs.posLo,hs.posHi,hbounds⟩
  · have htyped : Typed c := ⟨hnul,hnl,hback⟩
    have hecho : shown (s.echoed++[c]) = shown s.echoed++[c] := by
      rw [shown_append]
      exact shown_typed (by simpa using htyped) _
    refine ⟨by dsimp only; omega,?_,?_,hs.posLo,hs.posHi,?_⟩
    · rw [hecho,hs.text]
      dsimp only
      rw [List.range_succ,List.map_append,List.map_singleton,Function.update_self]
      congr 1
      apply List.map_congr_left
      intro j hj
      rw [Function.update_of_ne (Nat.ne_of_lt (List.mem_range.mp hj))]
    · rw [hecho]
      intro d hd
      rcases List.mem_append.mp hd with hd | hd
      · exact hs.typed d hd
      · rw [List.mem_singleton.mp hd]
        exact htyped
    · intro a ha
      dsimp only at ha
      rcases List.mem_append.mp ha with ha | ha
      · exact hbounds a ha
      · rw [List.mem_singleton.mp ha]
        exact hs.room

theorem Sound.key (behind : Nat → Byte) (hs : s.Sound h max) (hh : h.Holds lines) (hmax : 2 ≤ max)
    (hlen : max ≤ 256) (hfits : lines.length+1 < 2^31) (hroom : s.i < max-1) {sc : Byte}
    (hkey : s.extended = false → ¬(0x3B#8 ≤ sc ∧ sc ≤ 0x7F#8)) :
    (s.key h max behind sc).Sound h max := by
  have hflags : ∀ shift caps extended, Sound h max
      { s with shift := shift, caps := caps, extended := extended } := fun _ _ _ =>
    ⟨hs.room,hs.text,hs.typed,hs.posLo,hs.posHi,hs.inBounds⟩
  rw [Editor.key]
  split_ifs with he0 hext hup hdown htab hshift hunshift hcaps hrelease
  · exact hflags _ _ _
  · exact (hflags _ _ _).keyUp hh hmax hlen hfits
  · exact (hflags _ _ _).keyDown hh hmax hlen hfits
  · exact hflags _ _ _
  · exact hs
  · exact hflags _ _ _
  · exact hflags _ _ _
  · exact hflags _ _ _
  · exact hs
  · have hplain := hkey (Bool.eq_false_iff.mpr hext)
    apply hs.keyChar hroom
    bv_omega

/-- The loop goes on only while there is room. -/
theorem step_room (h : History) (max : Nat) (behind : Nat → Byte) (s : Editor) (sc : Byte)
    (hopen : (step h max behind s sc).closed = false) : (step h max behind s sc).i < max-1 := by
  rw [step] at hopen ⊢
  dsimp only at hopen ⊢
  split_ifs at hopen ⊢ with hclosed hroom
  · rw [hclosed] at hopen
    cases hopen
  · exact hroom

theorem Sound.step (hs : s.Sound h max) (hh : h.Holds lines) (hmax : 2 ≤ max) (hlen : max ≤ 256)
    (hfits : lines.length+1 < 2^31) (hroom : s.i < max-1) {sc : Byte}
    (hkey : s.extended = false → ¬(0x3B#8 ≤ sc ∧ sc ≤ 0x7F#8)) :
    (Editor.step h max behind s sc).Sound h max := by
  have hnext := hs.key behind hh hmax hlen hfits hroom hkey
  rw [Editor.step]
  dsimp only
  split_ifs
  · exact hs
  · exact hnext
  · exact ⟨hnext.room,hnext.text,hnext.typed,hnext.posLo,hnext.posHi,hnext.inBounds⟩

theorem start_sound (hh : h.Holds lines) (hmax : 2 ≤ max) (buf : Nat → Byte) :
    (start h max buf).Sound h max := by
  have hcount := hh.count
  refine ⟨Nat.lt_of_lt_of_le Nat.zero_lt_two hmax,rfl,?_,?_,Int.le_refl h.head,?_⟩
  · intro c hc
    cases hc
  · change h.head-h.count ≤ h.head
    omega
  · intro a ha
    cases ha

/-- `extended` is set by 0xE0 alone. -/
theorem step_extended (h : History) (max : Nat) (behind : Nat → Byte) (hopen : s.closed = false)
    (sc : Byte) :
    (step h max behind s sc).extended = decide (sc = 0xE0#8) := by
  have hkey : (s.key h max behind sc).extended = decide (sc = 0xE0#8) := by
    rw [key]
    split_ifs with he0 hext hup hdown htab hshift hunshift hcaps hrelease
    · exact (decide_eq_true he0).symm
    all_goals rw [decide_eq_false he0]
    · rw [keyUp]
      dsimp only
      split_ifs <;> rfl
    · rw [keyDown]
      dsimp only
      split_ifs <;> rfl
    · exact Bool.eq_false_iff.mpr hext
    · exact Bool.eq_false_iff.mpr hext
    · exact Bool.eq_false_iff.mpr hext
    · exact Bool.eq_false_iff.mpr hext
    · exact Bool.eq_false_iff.mpr hext
    · rw [keyChar]
      generalize (if xor s.shift s.caps then up else lo).getD sc.toNat (behind sc.toNat) = c
      dsimp only
      split_ifs <;> exact Bool.eq_false_iff.mpr hext
  rw [step,if_neg (by rw [hopen]; exact Bool.false_ne_true)]
  dsimp only
  split_ifs
  · exact hkey
  · exact hkey

theorem step_accesses (h : History) (max : Nat) (behind : Nat → Byte) (s : Editor) (sc : Byte) :
    s.accesses <+: (step h max behind s sc).accesses := by
  have hkey : s.accesses <+: (s.key h max behind sc).accesses := by
    have hrecall : ∀ s' : Editor, s'.accesses = s.accesses →
        s.accesses <+: (s'.recallLine h max).accesses := by
      intro s' he
      rw [recallLine]
      dsimp only
      rw [he,List.append_assoc]
      exact List.prefix_append _ _
    rw [key]
    split_ifs with he0 hext hup hdown htab hshift hunshift hcaps hrelease
    all_goals try exact List.prefix_refl _
    · rw [keyUp]
      dsimp only
      split_ifs
      · exact List.prefix_refl _
      · exact hrecall _ rfl
    · rw [keyDown]
      dsimp only
      split_ifs
      · exact List.prefix_refl _
      · exact List.prefix_refl _
      · exact hrecall _ rfl
    · rw [keyChar]
      generalize (if xor s.shift s.caps then up else lo).getD sc.toNat (behind sc.toNat) = c
      dsimp only
      split_ifs
      · exact List.prefix_append _ _
      · exact List.prefix_append _ _
      · exact List.prefix_append _ _
      · exact List.prefix_append _ _
      · rw [List.append_assoc]
        exact List.prefix_append _ _
  rw [step]
  dsimp only
  split_ifs
  · exact List.prefix_refl _
  · exact hkey
  · exact hkey

theorem foldl_accesses (bytes : List Byte) (s : Editor) :
    s.accesses <+: (bytes.foldl (step h max behind) s).accesses := by
  induction bytes generalizing s with
  | nil => exact List.prefix_refl _
  | cons sc bytes ih => exact (step_accesses h max behind s sc).trans (ih _)

/-- The bytes are ones that the call pops: it has not returned before the last of them. -/
def Pops (h : History) (max : Nat) (behind : Nat → Byte) (s : Editor) (bytes : List Byte) : Prop :=
  ∀ k, k < bytes.length → ((bytes.take k).foldl (step h max behind) s).closed = false

theorem Pops.cons {sc : Byte} {bytes : List Byte} (hp : Pops h max behind s (sc::bytes)) :
    s.closed = false ∧ Pops h max behind (step h max behind s sc) bytes :=
  ⟨hp 0 (Nat.zero_lt_succ _),fun k hk => hp (k+1) (Nat.succ_lt_succ hk)⟩

theorem Sound.run (hh : h.Holds lines) (hmax : 2 ≤ max) (hlen : max ≤ 256)
    (hfits : lines.length+1 < 2^31) (bytes : List Byte) (hs : s.Sound h max)
    (hroom : s.closed = false → s.i < max-1) (hp : Pops h max behind s bytes)
    (hkeys : NoFunctionKeys s.extended bytes) :
    (bytes.foldl (Editor.step h max behind) s).Sound h max := by
  induction bytes generalizing s with
  | nil => exact hs
  | cons sc bytes ih =>
    obtain ⟨hopen,hrest⟩ := hp.cons
    have hext := step_extended h max behind hopen sc
    apply ih (hs.step hh hmax hlen hfits (hroom hopen) hkeys.1) (step_room _ _ _ _ _) hrest
    rw [hext]
    exact hkeys.2

/-- A function key is looked up behind the tables. -/
theorem step_functionKey (h : History) (max : Nat) (behind : Nat → Byte)
    (hopen : s.closed = false) (hext : s.extended = false) {sc : Byte}
    (hlo : 0x3B#8 ≤ sc) (hhi : sc ≤ 0x7F#8) :
    .table sc.toNat ∈ (step h max behind s sc).accesses := by
  have hkey : .table sc.toNat ∈ (s.key h max behind sc).accesses := by
    have hne : sc ≠ 0xE0#8 ∧ sc ≠ 0x0F#8 ∧ sc ≠ 0x2A#8 ∧ sc ≠ 0x36#8 ∧ sc ≠ 0xAA#8 ∧ sc ≠ 0xB6#8 ∧
        sc ≠ 0x3A#8 ∧ ¬0x80#8 ≤ sc := by
      bv_omega
    obtain ⟨h1,h2,h3,h4,h5,h6,h7,h8⟩ := hne
    rw [key,if_neg h1,hext,if_neg Bool.false_ne_true,if_neg h2,if_neg (not_or.mpr ⟨h3,h4⟩),
      if_neg (not_or.mpr ⟨h5,h6⟩),if_neg h7,if_neg h8,keyChar]
    generalize (if xor s.shift s.caps then up else lo).getD sc.toNat (behind sc.toNat) = c
    dsimp only
    split_ifs <;> simp
  rw [step,if_neg (by rw [hopen]; exact Bool.false_ne_true)]
  dsimp only
  split_ifs
  · exact hkey
  · exact hkey

theorem noFunctionKeys_of_inBounds (bytes : List Byte) (hp : Pops h max behind s bytes)
    (hb : ∀ a ∈ (bytes.foldl (step h max behind) s).accesses, a.InBounds max) :
    NoFunctionKeys s.extended bytes := by
  induction bytes generalizing s with
  | nil => trivial
  | cons sc bytes ih =>
    obtain ⟨hopen,hrest⟩ := hp.cons
    refine ⟨fun hext hsc => ?_,?_⟩
    · have hmem := (@foldl_accesses h max behind bytes _).subset
        (step_functionKey h max behind hopen hext hsc.1 hsc.2)
      have hlt : sc.toNat < 58 := hb _ hmem
      bv_omega
    · rw [← step_extended h max behind hopen sc]
      exact ih hrest hb

/-- What the call hands out when it returns. -/
theorem Sound.returned (hs : s.Sound h max) {n : Nat} (hn : s.i < n) :
    cString n s.returned = shown s.echoed := by
  apply cString_line
  · intro c hc
    exact (hs.typed c hc).1
  · intro j hj
    have hj' := hj
    rw [hs.length] at hj'
    rw [Editor.returned,Function.update_of_ne (Nat.ne_of_lt hj')]
    simp [hs.text]
  · rw [hs.length,Editor.returned,Function.update_self]
  · rw [hs.length]
    exact hn

theorem Sound.lineSafe (hs : s.Sound h max) (hh : h.Holds lines) (hlen : max ≤ 256)
    (hfits : lines.length+1 < 2^31) : LineSafe h max lines s := by
  have hroom := hs.room
  refine ⟨?_,fun _ => ⟨?_,hs.returned hroom⟩,fun _ => ?_⟩
  · have hslot : h.head.tmod 16 = ((lines.length%16 : Nat) : Int) := by
      rw [hh.head]
      rfl
    have hcopy : (cString 255 s.returned).length ≤ s.i := by
      rw [← cString_take (show 255 ≤ 256 by decide),hs.returned (by omega),List.length_take,
        hs.length]
      exact Nat.min_le_right _ _
    intro a ha
    rw [allAccesses] at ha
    rcases List.mem_append.mp ha with ha | ha
    · exact hs.inBounds a ha
    split_ifs at ha
    · rw [History.addAccesses] at ha
      split_ifs at ha
      · simp only [List.mem_cons,List.not_mem_nil,or_false] at ha
        rcases ha with rfl | rfl
        · exact hroom
        · exact Nat.zero_lt_of_lt hroom
      · simp only [List.mem_cons,List.mem_append,List.mem_map,List.mem_range] at ha
        rcases ha with rfl | ⟨j,hj,rfl⟩ | ⟨j,hj,rfl⟩
        · exact hroom
        · simp only [LineAccess.InBounds]
          omega
        · rw [hslot]
          simp only [LineAccess.InBounds]
          omega
    · cases ha
  · rw [hs.length]
    exact hroom
  · exact hh.add hfits (hs.returned (by omega)) (by rw [hs.length]; omega) hs.typed

end Editor

/-- The line editor is safe in just the calls that see no function key. -/
theorem readline_safe_iff (hh : h.Holds lines) (hfits : lines.length+1 < 2^31) (hmax : 2 ≤ max)
    (hlen : max ≤ 256) (behind buf : Nat → Byte) (bytes : List Byte)
    (hp : Editor.Pops h max behind (Editor.start h max buf) bytes) :
    LineSafe h max lines (keyboardReadline h max behind buf bytes) ↔
      NoFunctionKeys false bytes := by
  constructor
  · intro hsafe
    exact Editor.noFunctionKeys_of_inBounds bytes hp fun a ha =>
      hsafe.inBounds a (List.mem_append_left _ ha)
  · intro hkeys
    have hstart : (Editor.start h max buf).closed = false → 0 < max-1 := fun _ => by omega
    exact ((Editor.start_sound hh hmax buf).run hh hmax hlen hfits bytes hstart hp hkeys).lineSafe
      hh hlen hfits

/-- The scancodes of "a" and Enter. -/
theorem readline_safe_iff_sample :
    LineSafe History.init 256 [] (keyboardReadline History.init 256 (fun _ => 0#8) (fun _ => 0#8)
      [0x1E#8,0x1C#8]) := by
  apply (readline_safe_iff History.init_holds (by decide) (by decide) (by decide) _ _ _ ?_).mpr
  · simp [NoFunctionKeys]
  · intro k hk
    have hk' : k = 0 ∨ k = 1 := by
      simp only [List.length_cons,List.length_nil] at hk
      omega
    rcases hk' with rfl | rfl <;> decide

/-- F1 as the first key: `lo[59]`. -/
theorem readline_f1 :
    ¬LineSafe History.init 256 [] (keyboardReadline History.init 256 (fun _ => 0#8) (fun _ => 0#8)
      [0x3B#8]) := by
  intro hsafe
  have hlt : 59 < 58 := hsafe.inBounds (.table 59) (by decide)
  exact absurd hlt (by decide)

end KiNBOL
