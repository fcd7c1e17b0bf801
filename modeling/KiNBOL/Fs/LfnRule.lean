import KiNBOL.Fs.Mount

namespace KiNBOL

/-! When `fat32_scan_dir` uses a long name. -/

namespace Slot

/-- A slot that carries a part of a long name. -/
def isPart (e : Slot) : Bool := !e.isEnd && !e.isDeleted && e.isLfn

def seq (e : Slot) : Nat := (e 0 &&& 0x1F#8).toNat

def isFirst (e : Slot) : Bool := e 0 &&& 0x40#8 ≠ 0#8

/-- Part `j` of a name of `k` parts, which come in the order `k`, ..., 1. -/
def PartOf (e : Slot) (sum : Byte) (k j : Nat) : Prop :=
  e.isPart = true ∧ e.seq = j ∧ e 13 = sum ∧ (e.isFirst = true ↔ j = k)

instance (e : Slot) (sum : Byte) (k j : Nat) : Decidable (e.PartOf sum k j) :=
  inferInstanceAs (Decidable (_ ∧ _))

end Slot

/-- The slots right before a place, of which `past` gives the nearest first, are the parts `k` to
`n+1` of a name of `k` parts. -/
structure Parts (past : List Slot) (sum : Byte) (n k : Nat) : Prop where
  pos : n < k
  le : k ≤ lfnMaxEntries
  part : ∀ i, i < k-n → ∃ e ∈ past[i]?, e.PartOf sum k (n+1+i)

instance (past : List Slot) (sum : Byte) (n k : Nat) : Decidable (Parts past sum n k) :=
  decidable_of_iff (n < k ∧ k ≤ lfnMaxEntries ∧
    ∀ i, i < k-n → ∃ e ∈ past[i]?, e.PartOf sum k (n+1+i))
    ⟨fun ⟨h1,h2,h3⟩ => ⟨h1,h2,h3⟩,fun ⟨h1,h2,h3⟩ => ⟨h1,h2,h3⟩⟩

/-- The `k` slots right before the slot hold its long name. -/
def HasLongName (past : List Slot) (e : Slot) (k : Nat) : Prop :=
  Parts past (lfnChecksum e.short) 0 k

instance (past : List Slot) (e : Slot) : Decidable (∃ k, HasLongName past e k) :=
  decidable_of_iff (∃ k, k < lfnMaxEntries+1 ∧ Parts past (lfnChecksum e.short) 0 k)
    ⟨fun ⟨k,_,h⟩ => ⟨k,h⟩,fun ⟨k,h⟩ => ⟨k,Nat.lt_succ_of_le h.le,h⟩⟩

/-- The characters of the parts right before a place. -/
def lfnText : List Slot → Nat → Byte
  | [] => fun _ => 0#8
  | e::past => lfnRead e lfnOff ((e.seq-1)*13) (if e.isFirst then fun _ => 0#8 else lfnText past)

/-- What `fat32_scan_dir` should make of a slot, given those before it. -/
def ruleScan (past : List Slot) (e : Slot) : Scanned :=
  if e.isEnd then .stop
  else if e.isDeleted || e.isLfn || e.attr &&& 0x08#8 ≠ 0#8 || e 0 = ch '.' ||
    formatName e.short = [] then .skip
  else if ∃ k, HasLongName past e k then .entry (cString vfsNameMax (lfnText past))
  else .entry (formatName e.short)

/-- `fat32_scan_dir` over the slots of a cluster, with the slots before it in place of the LFN
state. -/
def ruleSlots (k : Kmalloc) (pre : CName) (sub : Nat → CName → Volume → Option Volume) :
    List (Loc × Slot) → List Slot → Volume → Option ((Unit ⊕ List Slot) × Volume)
  | [],past,v => some (.inr past,v)
  | (loc,e)::rest,past,v =>
    match ruleScan past e with
    | .stop => some (.inl (),v)
    | .skip => ruleSlots k pre sub rest (e::past) v
    | .entry name =>
      let full := buildFullName pre name
      let ctx : FileCtx := ⟨e.cluster,loc.lba,loc.offset⟩
      if e.attr &&& 0x10#8 ≠ 0#8 then
        let v := mountNode k loc ⟨full,vfsDirectory,0,some ctx⟩ v
        if 2 ≤ e.cluster && !v.slotFull then
          match sub e.cluster (buildFullName full [ch '/']) v with
          | none => none
          | some v => ruleSlots k pre sub rest (e::past) v
        else ruleSlots k pre sub rest (e::past) v
      else ruleSlots k pre sub rest (e::past) (mountNode k loc ⟨full,vfsFile,e.size,some ctx⟩ v)

def ruleLoop (k : Kmalloc) (pre : CName) (sub : Nat → CName → Volume → Option Volume) :
    Nat → Nat → List Slot → Volume → Option Volume
  | 0,_,_,_ => none
  | fuel+1,c,past,v =>
    if 2 ≤ c ∧ c < endOfChain then
      match v.readCluster c with
      | (none,v) => some v
      | (some buf,v) =>
        match ruleSlots k pre sub (v.bufSlots c buf) past v with
        | none => none
        | some (.inl (),v) => some v
        | some (.inr past,v) =>
          match v.fatGetEntry c with
          | (next,v) => ruleLoop k pre sub fuel next past v
    else some v

def ruleDir (fuel : Nat) (k : Kmalloc) : Nat → Nat → CName → Volume → Option Volume
  | 0,_,_,v => some v
  | levels+1,dir,pre,v =>
    if v.slotFull then some v
    else if !k (.scan dir) then some v
    else ruleLoop k pre (ruleDir fuel k levels) fuel dir [] v

/-- The LFN state after these slots. -/
structure Remembers (s : LfnScan) (past : List Slot) : Prop where
  parts : s.active = true → (∃ k, Parts past s.sum s.nextSeq k) ∧ s.name = lfnText past
  active : ∀ sum n k, Parts past sum n k → s.active = true ∧ s.nextSeq = n ∧ s.sum = sum

variable {s : LfnScan} {past : List Slot} {e raw : Slot} {sum : Byte} {n m : Nat} {k : Kmalloc}

theorem parts_cons : Parts (raw::past) sum n m ↔
    n < m ∧ m ≤ lfnMaxEntries ∧ raw.PartOf sum m (n+1) ∧ (n+1 = m ∨ Parts past sum (n+1) m) := by
  constructor
  · intro h
    obtain ⟨e,he,hpart⟩ := h.part 0 (by have := h.pos; omega)
    have hraw : raw = e := Option.some.inj he
    refine ⟨h.pos,h.le,hraw ▸ hpart,?_⟩
    by_cases hlast : n+1 = m
    · exact Or.inl hlast
    · right
      have hpos := h.pos
      refine ⟨by omega,h.le,fun i hi => ?_⟩
      obtain ⟨e,he,hpart⟩ := h.part (i+1) (by omega)
      rw [List.getElem?_cons_succ] at he
      rw [show n+1+(i+1) = n+1+1+i by omega] at hpart
      exact ⟨e,he,hpart⟩
  · intro h
    obtain ⟨hpos,hle,hraw,hrest⟩ := h
    refine ⟨hpos,hle,fun i hi => ?_⟩
    cases i with
    | zero => exact ⟨raw,rfl,hraw⟩
    | succ i =>
      cases hrest with
      | inl hlast => omega
      | inr hrest =>
        obtain ⟨e,he,hpart⟩ := hrest.part i (by omega)
        rw [show n+1+1+i = n+1+(i+1) by omega] at hpart
        exact ⟨e,he,hpart⟩

theorem Remembers.start : Remembers ⟨false,0,0#8,fun _ => 0#8⟩ [] := by
  refine ⟨fun h => ?_,fun sum n m h => ?_⟩
  · simp at h
  · obtain ⟨e,he,-⟩ := h.part 0 (by have := h.pos; omega)
    simp at he

/-- A slot without a part ends the run of parts. -/
theorem Remembers.off (h : e.isPart = false) : Remembers { s with active := false } (e::past) := by
  refine ⟨fun hs => ?_,fun sum n m hp => ?_⟩
  · simp at hs
  · have hpart := (parts_cons.mp hp).2.2.1.1
    rw [h] at hpart
    simp at hpart

/-- The first part of a name. -/
theorem Remembers.next_first (hraw : raw.isPart = true) (hf : raw.isFirst = true) :
    Remembers (s.next raw) (raw::past) := by
  have hflag : raw 0 &&& 0x40#8 ≠ 0#8 := by simpa [Slot.isFirst] using hf
  have hnext : s.next raw = if raw.seq < 1 ∨ lfnMaxEntries < raw.seq then
      ⟨false,raw.seq,raw 13,fun _ => 0#8⟩
    else ⟨true,raw.seq-1,raw 13,lfnRead raw lfnOff ((raw.seq-1)*13) (fun _ => 0#8)⟩ := by
    have hseq : (raw 0 &&& 0x1F#8).toNat = raw.seq := rfl
    simp only [LfnScan.next,if_pos hflag,hseq]
    by_cases hbad : raw.seq < 1 ∨ lfnMaxEntries < raw.seq
    · rw [if_pos hbad,if_pos (by simpa using hbad)]
    · rw [if_neg hbad,if_neg (by simpa using hbad)]
  rw [hnext]
  split_ifs with hbad
  · refine ⟨fun hs => ?_,fun sum n m hp => ?_⟩
    · simp at hs
    · obtain ⟨hpos,hle,⟨-,hseq,-⟩,-⟩ := parts_cons.mp hp
      omega
  · refine ⟨fun _ => ⟨⟨raw.seq,?_⟩,?_⟩,fun sum n m hp => ?_⟩
    · dsimp only
      rw [parts_cons]
      have hone : raw.seq-1+1 = raw.seq := by omega
      rw [hone]
      exact ⟨by omega,by omega,⟨hraw,rfl,rfl,by simp [hf]⟩,Or.inl rfl⟩
    · rw [lfnText,if_pos hf]
    · obtain ⟨-,-,⟨-,hseq,hsum,-⟩,-⟩ := parts_cons.mp hp
      exact ⟨rfl,by dsimp only; omega,hsum⟩

/-- A later part. -/
theorem Remembers.next_more (h : Remembers s past) (hraw : raw.isPart = true)
    (hf : raw.isFirst = false) : Remembers (s.next raw) (raw::past) := by
  have hflag : ¬raw 0 &&& 0x40#8 ≠ 0#8 := by simpa [Slot.isFirst] using hf
  have hlater : ∀ sum n m, Parts (raw::past) sum n m → raw.seq = n+1 ∧ raw 13 = sum ∧
      n+1 ≤ lfnMaxEntries ∧ s.active = true ∧ s.nextSeq = n+1 ∧ s.sum = sum := by
    intro sum n m hp
    obtain ⟨hpos,hle,⟨-,hseq,hsum,hlast⟩,hrest⟩ := parts_cons.mp hp
    rw [hf] at hlast
    have hmore : n+1 ≠ m := fun he => by simp [he] at hlast
    obtain ⟨hs,hn,hc⟩ := h.active sum (n+1) m (hrest.resolve_left hmore)
    exact ⟨hseq,hsum,by omega,hs,hn,hc⟩
  have hnext : s.next raw = if s.active = false ∨ raw.seq ≠ s.nextSeq ∨ raw 13 ≠ s.sum ∨
      raw.seq < 1 ∨ lfnMaxEntries < raw.seq then { s with active := false }
    else { s with name := lfnRead raw lfnOff ((raw.seq-1)*13) s.name, nextSeq := raw.seq-1 } := by
    have hseq : (raw 0 &&& 0x1F#8).toNat = raw.seq := rfl
    simp only [LfnScan.next,if_neg hflag,hseq]
    by_cases hbad : s.active = false ∨ raw.seq ≠ s.nextSeq ∨ raw 13 ≠ s.sum ∨ raw.seq < 1 ∨
        lfnMaxEntries < raw.seq
    · rw [if_pos hbad,if_pos (by simpa [or_assoc] using hbad)]
    · rw [if_neg hbad,if_neg (by simpa [or_assoc] using hbad)]
  rw [hnext]
  split_ifs with hbad
  · refine ⟨fun hs => ?_,fun sum n m hp => ?_⟩
    · simp at hs
    · obtain ⟨hseq,hsum,hle,hs,hn,hc⟩ := hlater sum n m hp
      rcases hbad with hb | hb | hb | hb | hb
      · simp [hs] at hb
      · exact absurd (hseq.trans hn.symm) hb
      · exact absurd (hsum.trans hc.symm) hb
      · omega
      · omega
  · rw [not_or,not_or,not_or,not_or,Bool.not_eq_false,not_not,not_not] at hbad
    obtain ⟨hs,hseq,hsum,hlo,hhi⟩ := hbad
    obtain ⟨⟨m,hm⟩,hname⟩ := h.parts hs
    refine ⟨fun _ => ⟨⟨m,?_⟩,?_⟩,fun sum n m hp => ?_⟩
    · dsimp only
      have hpos := hm.pos
      rw [parts_cons,show raw.seq-1+1 = raw.seq by omega]
      refine ⟨by omega,hm.le,⟨hraw,rfl,hsum,?_⟩,Or.inr (hseq ▸ hm)⟩
      rw [hf]
      constructor
      · intro hno
        simp at hno
      · omega
    · dsimp only
      rw [lfnText,hf,hname]
      rfl
    · obtain ⟨hseq',-,-,-,-,hc⟩ := hlater sum n m hp
      exact ⟨hs,by dsimp only; omega,hc⟩

/-- The name part of the loop's body follows the rule. -/
theorem Remembers.scan (h : Remembers s past) (e : Slot) : ∃ s', s.scan e = (ruleScan past e,s') ∧
    (e.isEnd = false → Remembers s' (e::past)) := by
  rw [LfnScan.scan,ruleScan]
  dsimp only
  by_cases hend : e.isEnd = true
  · rw [if_pos hend,if_pos hend]
    exact ⟨s,rfl,fun hno => by simp [hend] at hno⟩
  rw [if_neg hend,if_neg hend]
  by_cases hdel : e.isDeleted = true
  · rw [if_pos hdel,if_pos (by simp [hdel])]
    exact ⟨_,rfl,fun _ => .off (by simp [Slot.isPart,hdel])⟩
  rw [if_neg hdel]
  by_cases hlfn : e.isLfn = true
  · rw [if_pos hlfn,if_pos (by simp [hlfn])]
    have hpart : e.isPart = true := by simp [Slot.isPart,hend,hdel,hlfn]
    refine ⟨_,rfl,fun _ => ?_⟩
    cases hf : e.isFirst with
    | true => exact .next_first hpart hf
    | false => exact h.next_more hpart hf
  rw [if_neg hlfn]
  have hoff : Remembers { s with active := false } (e::past) := .off (by simp [Slot.isPart,hlfn])
  by_cases hlabel : e.attr &&& 0x08#8 ≠ 0#8
  · rw [if_pos hlabel,if_pos (by simp [hlabel])]
    exact ⟨_,rfl,fun _ => hoff⟩
  rw [if_neg hlabel]
  by_cases hdot : e 0 = ch '.'
  · rw [if_pos hdot,if_pos (by simp [hdot])]
    exact ⟨_,rfl,fun _ => hoff⟩
  rw [if_neg hdot]
  by_cases hempty : formatName e.short = []
  · rw [if_pos hempty,if_pos (by simp [hempty])]
    exact ⟨_,rfl,fun _ => hoff⟩
  have hentry : ¬(e.isDeleted || e.isLfn || decide (e.attr &&& 0x08#8 ≠ 0#8) ||
      decide (e 0 = ch '.') || decide (formatName e.short = [])) = true := by
    simpa [hdel,hlfn,hdot,hempty] using hlabel
  rw [if_neg hempty,if_neg hentry]
  by_cases hlong : ∃ k, HasLongName past e k
  · obtain ⟨m,hm⟩ := hlong
    obtain ⟨hs,hn,hc⟩ := h.active _ _ _ hm
    rw [if_pos (by simp [hs,hn,hc]),if_pos ⟨m,hm⟩,← (h.parts hs).2]
    exact ⟨_,rfl,fun _ => hoff⟩
  · have hno : ¬(s.active && decide (s.nextSeq = 0) && decide (lfnChecksum e.short = s.sum)) =
        true := by
      intro hyes
      simp only [Bool.and_eq_true,decide_eq_true_eq] at hyes
      obtain ⟨⟨hs,hn⟩,hc⟩ := hyes
      obtain ⟨⟨m,hm⟩,-⟩ := h.parts hs
      rw [hn,← hc] at hm
      exact hlong ⟨m,hm⟩
    rw [if_neg hno,if_neg hlong]
    exact ⟨_,rfl,fun _ => hoff⟩

theorem not_end_of_rule {r : Scanned} (h : ruleScan past e = r) (hr : r ≠ .stop) :
    e.isEnd = false := by
  by_contra hend
  rw [Bool.not_eq_false] at hend
  apply hr
  rw [← h]
  exact if_pos hend

/-- Results of the two loops over a cluster that belong together. -/
inductive SameScan : Option ((Unit ⊕ LfnScan) × Volume) → Option ((Unit ⊕ List Slot) × Volume) →
    Prop
  | out : SameScan none none
  | stop (v : Volume) : SameScan (some (.inl (),v)) (some (.inl (),v))
  | more (v : Volume) {s : LfnScan} {past : List Slot} : Remembers s past →
      SameScan (some (.inr s,v)) (some (.inr past,v))

theorem scanSlots_rule (k : Kmalloc) (pre : CName) (sub : Nat → CName → Volume → Option Volume)
    (es : List (Loc × Slot)) (v : Volume) (h : Remembers s past) :
    SameScan (scanSlots k pre sub es s v) (ruleSlots k pre sub es past v) := by
  induction es generalizing s past v with
  | nil => exact .more v h
  | cons x es ih =>
    obtain ⟨loc,e⟩ := x
    obtain ⟨s',hs,hnext⟩ := h.scan e
    rw [scanSlots,ruleSlots,hs]
    cases hrule : ruleScan past e with
    | stop => exact .stop v
    | skip =>
      have hend : e.isEnd = false := not_end_of_rule hrule (by simp)
      exact ih _ (hnext hend)
    | entry name =>
      have hend : e.isEnd = false := not_end_of_rule hrule (by simp)
      dsimp only
      split_ifs
      · cases sub e.cluster (buildFullName (buildFullName pre name) [ch '/']) _ with
        | none => exact .out
        | some v => exact ih _ (hnext hend)
      · exact ih _ (hnext hend)
      · exact ih _ (hnext hend)

theorem scanLoop_rule {pre : CName} {sub : Nat → CName → Volume → Option Volume} {fuel c : Nat}
    {v : Volume} (h : Remembers s past) :
    scanLoop k pre sub fuel c s v = ruleLoop k pre sub fuel c past v := by
  induction fuel generalizing c s past v with
  | zero => rfl
  | succ fuel ih =>
    rw [scanLoop,ruleLoop]
    split_ifs
    · obtain ⟨buf,v⟩ := v.readCluster c
      cases buf with
      | none => rfl
      | some buf =>
        have hsame := scanSlots_rule k pre sub (v.bufSlots c buf) v h
        dsimp only
        generalize scanSlots k pre sub (v.bufSlots c buf) s v = a at hsame
        generalize ruleSlots k pre sub (v.bufSlots c buf) past v = b at hsame
        cases hsame with
        | out => rfl
        | stop v => rfl
        | more v hs => exact ih hs
    · rfl

/-- `fat32_scan_dir` uses a long name exactly where the rule says so. -/
theorem scanDir_rule (fuel : Nat) (k : Kmalloc) (levels : Nat) :
    scanDir fuel k levels = ruleDir fuel k levels := by
  induction levels with
  | zero => rfl
  | succ levels ih =>
    funext dir pre v
    rw [scanDir,ruleDir,ih,scanLoop_rule Remembers.start]

end KiNBOL
