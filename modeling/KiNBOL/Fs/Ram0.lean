import KiNBOL.Drivers.Sda

namespace KiNBOL

/-! The bounds of the block devices. -/

/-- `ram0_dev`; `data` is `none` where it is NULL. -/
structure Ram0 where
  data : Option (Nat → Byte)
  size : BitVec 32

namespace Ram0

/-- The index of `data` in turn `i`. -/
def index (off : BitVec 32) (i : Nat) : Nat := (off+BitVec.ofNat 32 i).toNat

def clamp (d : Ram0) (off len : BitVec 32) : BitVec 32 :=
  if off+len > d.size then d.size-off else len

/-- `ram0_read`: the value returned, the caller's buffer, and the indices of `data` in use. -/
def read (d : Ram0) (off len : BitVec 32) (buf : Nat → Byte) :
    BitVec 32 × (Nat → Byte) × List Nat :=
  match d.data with
  | none => (0,buf,[])
  | some data =>
    if off ≥ d.size then (0,buf,[])
    else
      let len := d.clamp off len
      (len,copyLoop buf 0 (fun i => data (index off i)) 0 len.toNat,
        (List.range len.toNat).map (index off))

/-- `ram0_write`: the value returned, the device, and the indices of `data` in use. -/
def write (d : Ram0) (off len : BitVec 32) (buf : Nat → Byte) : BitVec 32 × Ram0 × List Nat :=
  match d.data with
  | none => (0,d,[])
  | some data =>
    if off ≥ d.size then (0,d,[])
    else
      let len := d.clamp off len
      let data := (List.range len.toNat).foldl
        (fun data i => Function.update data (index off i) (buf i)) data
      (len,{ d with data := some data },(List.range len.toNat).map (index off))

/-- A read within the device: `min(len, size - off)` bytes, and none behind the end. -/
structure ReadOk (d : Ram0) (off len : BitVec 32) (buf : Nat → Byte) : Prop where
  inside : ∀ i ∈ (d.read off len buf).2.2, i < d.size.toNat
  returns : (d.read off len buf).1.toNat = min len.toNat (d.size.toNat-off.toNat)
  stores : ∀ data, d.data = some data → (d.read off len buf).2.1 =
    overlay buf 0 (d.read off len buf).1.toNat (fun i => data (off.toNat+i))

structure WriteOk (d : Ram0) (off len : BitVec 32) (buf : Nat → Byte) : Prop where
  inside : ∀ i ∈ (d.write off len buf).2.2, i < d.size.toNat
  returns : (d.write off len buf).1.toNat = min len.toNat (d.size.toNat-off.toNat)
  stores : ∀ data, d.data = some data → (d.write off len buf).2.1 =
    { d with data := some (overlay data off.toNat (d.write off len buf).1.toNat buf) }

end Ram0

/-- The comparison of `off + len` with the size is the one of the sum without overflow. -/
def SumSeen (size : Nat) (off len : BitVec 32) : Prop :=
  off.toNat+len.toNat ≤ size ∨ size < (off.toNat+len.toNat)%2^32

/-- There is memory behind the device, and the clamp sees the end. -/
def Ram0.Fits (d : Ram0) (off len : BitVec 32) : Prop :=
  d.size.toNat ≤ off.toNat ∨ len.toNat = 0 ∨ d.data ≠ none ∧ SumSeen d.size.toNat off len

/-- What `sda_read` should do: `min(len, size - off)` bytes, fewer only after a failing read. -/
structure SdaReadOk (s : Sda) (o : SectorTurns) (off len : BitVec 32) (buf : Nat → Byte) : Prop where
  atMost : (sdaRead s o off len buf).done ≤ min len.toNat (s.size-off.toNat)
  fewer : (sdaRead s o off len buf).done < min len.toNat (s.size-off.toNat) →
    (sdaRead s o off len buf).failed = true
  stores : (sdaRead s o off len buf).buf =
    overlay buf 0 (sdaRead s o off len buf).done (fun i => diskByte s.disk (off.toNat+i))

/-- There is a disk; the clamp sees its end, or a failure stops the loop before it; and the first
failure before the end of the request is not an allocation. -/
def SdaFits (s : Sda) (o : SectorTurns) (off len : BitVec 32) : Prop :=
  s.size ≤ off.toNat ∨ len.toNat = 0 ∨ s.active = true ∧
    (SumSeen s.size off len ∨
      ∃ t, StopsAt o 0 t ∧ turnStart (off.toNat%512) t ≤ s.size-off.toNat) ∧
    ∀ t, StopsAt o 0 t → turnStart (off.toNat%512) t < min len.toNat (s.size-off.toNat) →
      o.page t = true

variable {d : Ram0} {s : Sda} {o : SectorTurns} {off len : BitVec 32} {buf : Nat → Byte}

theorem StopsAt.unique {k t u : Nat} (h : StopsAt o k t) (h' : StopsAt o k u) : t = u := by
  rcases Nat.lt_trichotomy t u with hlt | he | hlt
  · exact absurd (h'.before t h.le hlt) h.fails
  · exact he
  · exact absurd (h.before u h'.le hlt) h'.fails

namespace Ram0

theorem index_eq {i : Nat} (h : off.toNat+i < 2^32) : index off i = off.toNat+i := by
  rw [index,BitVec.toNat_add,BitVec.toNat_ofNat,Nat.mod_eq_of_lt (by omega : i < 2^32),
    Nat.mod_eq_of_lt h]

theorem clamp_eq (hoff : off.toNat < d.size.toNat) : (d.clamp off len).toNat =
    if d.size.toNat < (off.toNat+len.toNat)%2^32 then d.size.toNat-off.toNat else len.toNat := by
  have hsub : (d.size-off).toNat = d.size.toNat-off.toNat :=
    BitVec.toNat_sub_of_le (BitVec.le_def.mpr (by omega))
  rw [clamp]
  by_cases h : off+len > d.size
  · have h' : d.size.toNat < (off.toNat+len.toNat)%2^32 := by
      rw [← BitVec.toNat_add]
      exact BitVec.lt_def.mp h
    rw [if_pos h,if_pos h',hsub]
  · have h' : ¬d.size.toNat < (off.toNat+len.toNat)%2^32 := by
      rw [← BitVec.toNat_add]
      exact fun hlt => h (BitVec.lt_def.mpr hlt)
    rw [if_neg h,if_neg h']

/-- The clamp gives what is left of the device exactly if it sees the sum. -/
theorem clamp_min (hoff : off.toNat < d.size.toNat) :
    (d.clamp off len).toNat = min len.toNat (d.size.toNat-off.toNat) ↔
      SumSeen d.size.toNat off len := by
  have hmod := Nat.mod_le (off.toNat+len.toNat) (2^32)
  rw [clamp_eq hoff,SumSeen]
  split_ifs with h
  · exact iff_of_true (by omega) (Or.inr h)
  · constructor
    · intro he
      left
      omega
    · intro hs
      have hle := hs.resolve_right h
      omega

theorem fits_iff (hoff : off.toNat < d.size.toNat) {data : Nat → Byte} (hd : d.data = some data) :
    d.Fits off len ↔ SumSeen d.size.toNat off len := by
  constructor
  · intro h
    rcases h with h | h | h
    · omega
    · left
      omega
    · exact h.2
  · intro h
    refine Or.inr (Or.inr ⟨?_,h⟩)
    rw [hd]
    simp

/-- A device without memory, or an offset behind its end. -/
theorem fits_none (h : d.data = none ∨ d.size.toNat ≤ off.toNat) :
    min len.toNat (d.size.toNat-off.toNat) = 0 ↔ d.Fits off len := by
  rw [Fits]
  constructor
  · intro hmin
    omega
  · intro hfit
    rcases h with h | h
    · rcases hfit with hfit | hfit | hfit
      · omega
      · omega
      · exact absurd h hfit.1
    · omega

theorem read_idle (h : d.data = none ∨ d.size.toNat ≤ off.toNat) :
    d.read off len buf = (0,buf,[]) := by
  rw [read]
  cases hd : d.data with
  | none => rfl
  | some data =>
    rw [hd] at h
    exact if_pos (BitVec.le_def.mpr (h.resolve_left (by simp)))

theorem write_idle (h : d.data = none ∨ d.size.toNat ≤ off.toNat) :
    d.write off len buf = (0,d,[]) := by
  rw [write]
  cases hd : d.data with
  | none => rfl
  | some data =>
    rw [hd] at h
    exact if_pos (BitVec.le_def.mpr (h.resolve_left (by simp)))

theorem read_some {data : Nat → Byte} (hd : d.data = some data) (hoff : off.toNat < d.size.toNat) :
    d.read off len buf = (d.clamp off len,
      copyLoop buf 0 (fun i => data (index off i)) 0 (d.clamp off len).toNat,
      (List.range (d.clamp off len).toNat).map (index off)) := by
  rw [read,hd]
  exact if_neg (fun hge => by have := BitVec.le_def.mp hge; omega)

theorem write_some {data : Nat → Byte} (hd : d.data = some data)
    (hoff : off.toNat < d.size.toNat) : d.write off len buf = (d.clamp off len,
      { d with data := some ((List.range (d.clamp off len).toNat).foldl
        (fun data i => Function.update data (index off i) (buf i)) data) },
      (List.range (d.clamp off len).toNat).map (index off)) := by
  rw [write,hd]
  exact if_neg (fun hge => by have := BitVec.le_def.mp hge; omega)

/-- The indices that a clamped transfer uses. -/
theorem index_lt {n : Nat} (hn : off.toNat+n ≤ d.size.toNat) :
    (∀ i, i < n → index off i = off.toNat+i) ∧
      ∀ j ∈ (List.range n).map (index off), j < d.size.toNat := by
  have hsize := d.size.isLt
  have hindex : ∀ i, i < n → index off i = off.toNat+i := fun i hi => index_eq (by omega)
  refine ⟨hindex,fun j hj => ?_⟩
  obtain ⟨i,hi,rfl⟩ := List.mem_map.mp hj
  rw [List.mem_range] at hi
  rw [hindex i hi]
  omega

/-- The loop of `ram0_write`, in bounds. -/
theorem foldl_index {n : Nat} (hindex : ∀ i, i < n → index off i = off.toNat+i)
    (data : Nat → Byte) : (List.range n).foldl
      (fun data i => Function.update data (index off i) (buf i)) data =
      overlay data off.toNat n buf := by
  have hcopy := copyLoop_eq data off.toNat buf 0 n
  simp only [Nat.zero_add] at hcopy
  rw [← hcopy,copyLoop]
  apply List.foldl_ext
  intro data i hi
  rw [hindex i (List.mem_range.mp hi),Nat.zero_add]

theorem read_ok_iff (d : Ram0) (off len : BitVec 32) (buf : Nat → Byte) :
    d.ReadOk off len buf ↔ d.Fits off len := by
  by_cases hidle : d.data = none ∨ d.size.toNat ≤ off.toNat
  · rw [← fits_none hidle]
    constructor
    · intro h
      have hret := h.returns
      rw [read_idle hidle] at hret
      exact hret.symm
    · intro h
      refine ⟨fun i hi => ?_,?_,fun data hd => ?_⟩
      · rw [read_idle hidle] at hi
        simp at hi
      · rw [read_idle hidle,h]
        rfl
      · rw [read_idle hidle]
        exact (overlay_zero buf _ 0).symm
  · rw [not_or,← ne_eq,Option.ne_none_iff_exists',not_le] at hidle
    obtain ⟨⟨data,hd⟩,hoff⟩ := hidle
    rw [fits_iff hoff hd,← clamp_min hoff]
    constructor
    · intro h
      have hret := h.returns
      rwa [read_some hd hoff] at hret
    · intro h
      have hn : off.toNat+(d.clamp off len).toNat ≤ d.size.toNat := by omega
      obtain ⟨hindex,hlt⟩ := index_lt hn
      refine ⟨?_,?_,fun data' hd' => ?_⟩
      · rw [read_some hd hoff]
        exact hlt
      · rw [read_some hd hoff]
        exact h
      · obtain rfl : data = data' := Option.some.inj (hd.symm.trans hd')
        rw [read_some hd hoff]
        dsimp only
        rw [copyLoop_eq]
        apply overlay_congr
        intro i hi
        rw [Nat.zero_add,hindex i hi]

theorem write_ok_iff (d : Ram0) (off len : BitVec 32) (buf : Nat → Byte) :
    d.WriteOk off len buf ↔ d.Fits off len := by
  by_cases hidle : d.data = none ∨ d.size.toNat ≤ off.toNat
  · rw [← fits_none hidle]
    constructor
    · intro h
      have hret := h.returns
      rw [write_idle hidle] at hret
      exact hret.symm
    · intro h
      refine ⟨fun i hi => ?_,?_,fun data hd => ?_⟩
      · rw [write_idle hidle] at hi
        simp at hi
      · rw [write_idle hidle,h]
        rfl
      · rw [write_idle hidle]
        change d = { d with data := some (overlay data off.toNat 0 buf) }
        rw [overlay_zero,← hd]
  · rw [not_or,← ne_eq,Option.ne_none_iff_exists',not_le] at hidle
    obtain ⟨⟨data,hd⟩,hoff⟩ := hidle
    rw [fits_iff hoff hd,← clamp_min hoff]
    constructor
    · intro h
      have hret := h.returns
      rwa [write_some hd hoff] at hret
    · intro h
      have hn : off.toNat+(d.clamp off len).toNat ≤ d.size.toNat := by omega
      obtain ⟨hindex,hlt⟩ := index_lt hn
      refine ⟨?_,?_,fun data' hd' => ?_⟩
      · rw [write_some hd hoff]
        exact hlt
      · rw [write_some hd hoff]
        exact h
      · obtain rfl : data = data' := Option.some.inj (hd.symm.trans hd')
        rw [write_some hd hoff,foldl_index hindex]

end Ram0

/-- The length that `sda_read` goes on with. -/
def sdaLen (s : Sda) (off len : BitVec 32) : Nat :=
  if (off+len).toNat > s.size then u32 (s.size-off.toNat) else len.toNat

theorem sdaLen_ge (hoff : off.toNat < s.size) :
    min len.toNat (s.size-off.toNat) ≤ sdaLen s off len ∧ sdaLen s off len ≤ len.toNat ∧
    (sdaLen s off len ≤ s.size-off.toNat ↔ SumSeen s.size off len) := by
  have hmod := Nat.mod_le (off.toNat+len.toNat) (2^32)
  have hlt := Nat.mod_lt (off.toNat+len.toNat) (by decide : 0 < 2^32)
  rw [sdaLen,BitVec.toNat_add,SumSeen]
  split_ifs with h
  · rw [u32,Nat.mod_eq_of_lt (by omega)]
    exact ⟨by omega,by omega,iff_of_true (by omega) (Or.inr h)⟩
  · refine ⟨by omega,by omega,fun hle => Or.inl (by omega),fun hs => ?_⟩
    have hle := hs.resolve_right h
    omega

theorem sdaRead_idle (h : s.active = false ∨ s.size ≤ off.toNat) :
    sdaRead s o off len buf = ⟨0,buf,false⟩ := by
  rw [sdaRead]
  cases hactive : s.active with
  | false => rfl
  | true =>
    rw [hactive] at h
    exact if_pos (h.resolve_left (by simp))

theorem sdaRead_loop (hactive : s.active = true) (hoff : off.toNat < s.size) :
    sdaRead s o off len buf = sdaReadLoop s.disk o (sdaLen s off len) 0 (off.toNat/512)
      ⟨off.toNat%512,Nat.mod_lt _ (by decide)⟩ 0 buf := by
  rw [sdaRead,hactive]
  exact if_neg (Nat.not_le_of_lt hoff)

theorem sdaRead_ok_iff (s : Sda) (o : SectorTurns) (off len : BitVec 32) (buf : Nat → Byte) :
    SdaReadOk s o off len buf ↔ SdaFits s o off len := by
  by_cases hidle : s.active = false ∨ s.size ≤ off.toNat
  · have hr := @sdaRead_idle s o off len buf hidle
    have hmin : SdaReadOk s o off len buf ↔ min len.toNat (s.size-off.toNat) = 0 := by
      constructor
      · intro h
        by_contra hpos
        have hfailed := h.fewer
        rw [hr] at hfailed
        simp only [Bool.false_eq_true] at hfailed
        exact hfailed (Nat.pos_of_ne_zero hpos)
      · intro h
        refine ⟨?_,fun hlt => ?_,?_⟩
        · rw [hr]
          exact Nat.zero_le _
        · rw [h] at hlt
          exact absurd hlt (Nat.not_lt_zero _)
        · rw [hr]
          exact (overlay_zero buf _ 0).symm
    rw [hmin,SdaFits]
    constructor
    · intro h
      omega
    · intro h
      rcases h with h | h | h
      · omega
      · omega
      · rcases hidle with hoff | hoff
        · rw [hoff] at h
          simp at h
        · omega
  · rw [not_or,Bool.not_eq_false,not_le] at hidle
    obtain ⟨hactive,hoff⟩ := hidle
    have hr := @sdaRead_loop s o off len buf hactive hoff
    generalize hloop : sdaReadLoop s.disk o (sdaLen s off len) 0 _ _ 0 buf = r at hr
    obtain ⟨hge,hlen,hseen⟩ := @sdaLen_ge s off len hoff
    obtain ⟨-,hdone,hbuf⟩ := sdaReadLoop_stores (Aligned.start off.toNat _) hloop
    have hends := sdaReadLoop_ends (AtTurn.start _ _) hloop
    have hok : SdaReadOk s o off len buf ↔ r.done ≤ min len.toNat (s.size-off.toNat) ∧
        (r.done < min len.toNat (s.size-off.toNat) → r.failed = true) := by
      constructor
      · intro h
        exact ⟨hr ▸ h.atMost,fun hlt => hr ▸ h.fewer (hr ▸ hlt)⟩
      · intro h
        refine ⟨hr ▸ h.1,fun hlt => hr ▸ h.2 (hr ▸ hlt),?_⟩
        rw [hr,hbuf,Nat.sub_zero,Nat.add_zero]
    rw [hok,SdaFits]
    dsimp only at hends
    generalize off.toNat%512 = first at hends
    generalize sdaLen s off len = n at hge hlen hseen hdone hends
    generalize s.size-off.toNat = left at hge hseen
    rcases hends with ⟨t,ht,hlt,hat,hfailed⟩ | ⟨hall,hat,hfailed⟩
    · constructor
      · intro h
        refine Or.inr (Or.inr ⟨hactive,Or.inr ⟨t,ht,by omega⟩,fun u hu hearly => ?_⟩)
        obtain rfl := hu.unique ht
        rw [← hfailed]
        exact h.2 (hat ▸ hearly)
      · intro h
        rcases h with h | h | ⟨-,hend,hpage⟩
        · omega
        · exact ⟨by omega,fun _ => by omega⟩
        · refine ⟨?_,fun hearly => ?_⟩
          · rcases hend with hs | ⟨u,hu,hle⟩
            · have := hseen.mpr hs
              omega
            · obtain rfl := hu.unique ht
              omega
          · rw [hfailed]
            exact hpage t ht (hat ▸ hearly)
    · have hlate : ∀ t, StopsAt o 0 t → n ≤ turnStart first t := by
        intro t ht
        by_contra hearly
        exact ht.fails (hall t ht.le (by omega))
      constructor
      · intro h
        refine Or.inr (Or.inr ⟨hactive,Or.inl (hseen.mp (by omega)),fun u hu hearly => ?_⟩)
        have := hlate u hu
        omega
      · intro h
        refine ⟨?_,fun hearly => by omega⟩
        rcases h with h | h | ⟨-,hs | ⟨u,hu,hle⟩,-⟩
        · omega
        · omega
        · have := hseen.mpr hs
          omega
        · have := hlate u hu
          omega

/-- Reads and writes of the block devices stay in bounds and move `min(len, size - off)` bytes
exactly for the requests that fit. -/
theorem block_bounds_iff (d : Ram0) (s : Sda) (o : SectorTurns) (off len : BitVec 32)
    (buf : Nat → Byte) :
    (d.ReadOk off len buf ↔ d.Fits off len) ∧ (d.WriteOk off len buf ↔ d.Fits off len) ∧
      (SdaReadOk s o off len buf ↔ SdaFits s o off len) :=
  ⟨d.read_ok_iff off len buf,d.write_ok_iff off len buf,sdaRead_ok_iff s o off len buf⟩

/-- With an offset of 1, a length of `2^32-1` reads the byte behind the end of `/dev/ram0`. -/
theorem ram0_reads_behind : ¬∀ (off len : BitVec 32),
    Ram0.ReadOk ⟨some (fun _ => 0#8),65536#32⟩ off len (fun _ => 0#8) := by
  intro hall
  have h := (hall 1#32 0xFFFFFFFF#32).inside 65536
  have hin : 65536 ∈ (Ram0.read ⟨some (fun _ => 0#8),65536#32⟩ 1#32 0xFFFFFFFF#32
      (fun _ => 0#8)).2.2 := by
    have hlen : (Ram0.clamp ⟨some (fun _ => 0#8),65536#32⟩ 1#32 0xFFFFFFFF#32).toNat =
        0xFFFFFFFF := by rw [Ram0.clamp_eq (by decide)]; decide
    rw [Ram0.read_some rfl (by decide),List.mem_map,hlen]
    exact ⟨65535,List.mem_range.mpr (by omega),Ram0.index_eq (by decide)⟩
  exact absurd (h hin) (by decide)

end KiNBOL
