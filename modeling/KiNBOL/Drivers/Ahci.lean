import KiNBOL.Fs.Name

namespace KiNBOL

/-- `hba_prdt_entry_t`. -/
structure PrdtEntry where
  dba : BitVec 32
  dbau : BitVec 32
  dbc : BitVec 22
  i : Bool

/-- The command that `ahci_read` and `ahci_write` leave for the drive. -/
structure AhciRequest where
  w : Bool
  prdtl : BitVec 16
  prdt : List PrdtEntry
  command : Byte
  device : Byte
  lba : List Byte
  countl : Byte
  counth : Byte

/-- A descriptor for `bytes + 1` bytes. -/
def prdtEntry (phys : BitVec 64) (bytes : BitVec 32) : PrdtEntry :=
  ⟨phys.setWidth 32,(phys >>> 32).setWidth 32,bytes.setWidth 22,true⟩

/-- The loop of `ahci_read` over the descriptors before the last one: those, and `buf_phys` and
`count` behind it. -/
def prdtLoop : Nat → BitVec 64 → BitVec 32 → List PrdtEntry × BitVec 64 × BitVec 32
  | 0,phys,count => ([],phys,count)
  | n+1,phys,count =>
    let r := prdtLoop n (phys+8192#64) (count-16#32)
    (prdtEntry phys (8192#32-1#32)::r.1,r.2)

/-- `lba0` to `lba5`. -/
def fisLba (starth : BitVec 64) (startl : BitVec 32) : List Byte :=
  [startl.setWidth 8,(startl >>> 8).setWidth 8,(startl >>> 16).setWidth 8,(startl >>> 24).setWidth 8,
    starth.setWidth 8,(starth >>> 8).setWidth 8]

/-- `ahci_read`, up to the point where the command is issued. -/
def ahciReadRequest (hhdm starth : BitVec 64) (startl count : BitVec 32) (buf : BitVec 64) :
    AhciRequest :=
  let prdtl : BitVec 16 := ((count-1#32) >>> 4).setWidth 16+1#16
  let (prdt,phys,count) := prdtLoop (prdtl.toNat-1) (buf-hhdm) count
  { w := false
    prdtl := prdtl
    prdt := prdt++[prdtEntry phys ((count <<< 9)-1#32)]
    command := 0x24#8
    device := 0x40#8
    lba := fisLba starth startl
    countl := count.setWidth 8
    counth := (count >>> 8).setWidth 8 }

/-- `ahci_write`, up to the point where the command is issued. -/
def ahciWriteRequest (hhdm starth : BitVec 64) (startl count : BitVec 32) (buf : BitVec 64) :
    AhciRequest where
  w := true
  prdtl := 1#16
  prdt := [prdtEntry (buf-hhdm) ((count <<< 9)-1#32)]
  command := 0x35#8
  device := 0x40#8
  lba := fisLba starth startl
  countl := count.setWidth 8
  counth := (count >>> 8).setWidth 8

/-- Where a descriptor starts, and how many bytes it stands for. -/
def PrdtEntry.start (e : PrdtEntry) : BitVec 64 := e.dbau.setWidth 64 <<< 32 ||| e.dba.setWidth 64

def PrdtEntry.bytes (e : PrdtEntry) : Nat := e.dbc.toNat+1

/-- The descriptors follow each other in memory, from this address on. -/
def Consecutive : BitVec 64 → List PrdtEntry → Prop
  | _,[] => True
  | phys,e::es => e.start = phys ∧ Consecutive (phys+BitVec.ofNat 64 e.bytes) es

/-- How many sectors the drive is asked for. -/
def AhciRequest.sectors (r : AhciRequest) : Nat := r.countl.toNat+256*r.counth.toNat

/-- The request is for `count` sectors, and its descriptors are the memory for them. -/
structure RequestFits (r : AhciRequest) (count : Nat) (phys : BitVec 64) : Prop where
  sectors : r.sectors = count
  length : r.prdt.length = r.prdtl.toNat
  bytes : (r.prdt.map PrdtEntry.bytes).sum = count*512
  consecutive : Consecutive phys r.prdt

variable {hhdm starth buf phys : BitVec 64} {startl count bytes : BitVec 32} {n : Nat}

theorem prdtEntry_start (phys : BitVec 64) (bytes : BitVec 32) :
    (prdtEntry phys bytes).start = phys := by
  rw [PrdtEntry.start,prdtEntry]
  ext i hi
  simp only [BitVec.getElem_or,BitVec.getElem_shiftLeft,BitVec.getElem_setWidth,
    BitVec.getLsbD_setWidth,BitVec.getLsbD_ushiftRight]
  by_cases h : i < 32
  · simp [h,BitVec.getLsbD_eq_getElem hi]
  · have h1 : i-32 < 32 := by omega
    have h3 : 32+(i-32) = i := by omega
    simp [h,h1,h3,BitVec.getLsbD_eq_getElem hi]

theorem prdtEntry_bytes {k : Nat} (h : bytes.toNat = 512*k-1) (h0 : 0 < k) (hk : k ≤ 8192) :
    (prdtEntry phys bytes).bytes = 512*k := by
  rw [PrdtEntry.bytes,prdtEntry,BitVec.toNat_setWidth,h,Nat.mod_eq_of_lt (by omega)]
  omega

/-- The number of bytes in the last descriptor. -/
theorem shiftLeft_sub_one (h0 : 0 < count.toNat) (hk : count.toNat ≤ 8192) :
    ((count <<< 9)-1#32).toNat = 512*count.toNat-1 := by
  have hshift : (count <<< 9).toNat = 512*count.toNat := by
    rw [BitVec.toNat_shiftLeft,Nat.shiftLeft_eq,Nat.mod_eq_of_lt (by omega)]
    omega
  rw [BitVec.toNat_sub_of_le,hshift]
  · rfl
  · rw [BitVec.le_def,hshift]
    change 1 ≤ _
    omega

/-- The FIS says how many sectors the variable `count` stands for. -/
theorem fis_count (h : count.toNat < 2^16) :
    (count.setWidth 8).toNat+256*((count >>> 8).setWidth 8).toNat = count.toNat := by
  rw [BitVec.toNat_setWidth,BitVec.toNat_setWidth,BitVec.toNat_ushiftRight,Nat.shiftRight_eq_div_pow]
  omega

theorem Consecutive.append {es : List PrdtEntry} {e : PrdtEntry}
    (h : Consecutive phys es)
    (he : e.start = phys+BitVec.ofNat 64 (es.map PrdtEntry.bytes).sum) :
    Consecutive phys (es++[e]) := by
  induction es generalizing phys with
  | nil =>
    refine ⟨?_,trivial⟩
    rw [he]
    simp
  | cons a es ih =>
    refine ⟨h.1,ih h.2 ?_⟩
    rw [he,List.map_cons,List.sum_cons,BitVec.ofNat_add,BitVec.add_assoc]

/-- The descriptors before the last one. -/
theorem prdtLoop_spec (h : 16*n ≤ count.toNat) :
    (prdtLoop n phys count).1.length = n ∧
    ((prdtLoop n phys count).1.map PrdtEntry.bytes).sum = 8192*n ∧
    Consecutive phys (prdtLoop n phys count).1 ∧
    (prdtLoop n phys count).2.1 = phys+BitVec.ofNat 64 (8192*n) ∧
    (prdtLoop n phys count).2.2.toNat = count.toNat-16*n := by
  induction n generalizing phys count with
  | zero => simp [prdtLoop,Consecutive]
  | succ n ih =>
    have hsub : (count-16#32).toNat = count.toNat-16 := by
      rw [BitVec.toNat_sub_of_le]
      · rfl
      · rw [BitVec.le_def]
        change 16 ≤ _
        omega
    obtain ⟨hlen,hsum,hcons,hphys,hcount⟩ := @ih (phys+8192#64) (count-16#32) (by omega)
    have hbytes : (prdtEntry phys (8192#32-1#32)).bytes = 8192 := rfl
    rw [prdtLoop]
    dsimp only
    refine ⟨by rw [List.length_cons,hlen],?_,⟨prdtEntry_start _ _,?_⟩,?_,by omega⟩
    · rw [List.map_cons,List.sum_cons,hsum,hbytes]
      omega
    · rw [hbytes]
      exact hcons
    · rw [hphys,BitVec.add_assoc,← BitVec.ofNat_add]
      rw [show 8192+8192*n = 8192*(n+1) by omega]


theorem prdtl_eq (h0 : 0 < count.toNat) (hk : count.toNat ≤ 3968) :
    (((count-1#32) >>> 4).setWidth 16+1#16 : BitVec 16).toNat = (count.toNat-1)/16+1 := by
  have hsub : (count-1#32).toNat = count.toNat-1 := by
    rw [BitVec.toNat_sub_of_le]
    · rfl
    · rw [BitVec.le_def]
      exact h0
  rw [BitVec.toNat_add,BitVec.toNat_setWidth,BitVec.toNat_ushiftRight,hsub,
    Nat.shiftRight_eq_div_pow]
  change ((count.toNat-1)/2^4%2^16+1)%2^16 = _
  omega

/-- The request of `ahci_read` is right but for the number of sectors in the FIS, which is that of
the last descriptor. -/
theorem ahciRead_spec (hhdm starth : BitVec 64) (startl : BitVec 32) (buf : BitVec 64)
    (h0 : 0 < count.toNat) (hk : count.toNat ≤ 3968) :
    (ahciReadRequest hhdm starth startl count buf).sectors =
      count.toNat-16*((count.toNat-1)/16) ∧
    ((ahciReadRequest hhdm starth startl count buf).sectors = count.toNat →
      RequestFits (ahciReadRequest hhdm starth startl count buf) count.toNat (buf-hhdm)) := by
  have hl := prdtl_eq h0 hk
  have hn : (count.toNat-1)/16+1-1 = (count.toNat-1)/16 := Nat.add_sub_cancel _ 1
  have hmul : 16*((count.toNat-1)/16) ≤ count.toNat := by omega
  obtain ⟨hlen,hsum,hcons,hphys,hcount⟩ := @prdtLoop_spec (buf-hhdm) count _ hmul
  generalize hr : prdtLoop ((count.toNat-1)/16) (buf-hhdm) count = r at hlen hsum hcons hphys hcount
  have hread : ahciReadRequest hhdm starth startl count buf =
      ⟨false,((count-1#32) >>> 4).setWidth 16+1#16,
        r.1++[prdtEntry r.2.1 ((r.2.2 <<< 9)-1#32)],0x24#8,0x40#8,fisLba starth startl,
        r.2.2.setWidth 8,(r.2.2 >>> 8).setWidth 8⟩ := by
    rw [ahciReadRequest,hl,hn,hr]
  have hsectors : (ahciReadRequest hhdm starth startl count buf).sectors = r.2.2.toNat := by
    rw [hread]
    exact fis_count (by omega)
  refine ⟨hsectors.trans hcount,fun hfis => ⟨hfis,?_,?_,?_⟩⟩
  · rw [hread]
    dsimp only
    rw [List.length_append,hlen,hl]
    rfl
  · have hlast := @shiftLeft_sub_one r.2.2 (by omega) (by omega)
    have hbytes := @prdtEntry_bytes r.2.1 _ _ hlast (by omega) (by omega)
    rw [hread]
    dsimp only
    rw [List.map_append,List.sum_append,hsum,List.map_singleton,List.sum_singleton,hbytes]
    omega
  · rw [hread]
    apply hcons.append
    rw [prdtEntry_start,hphys,hsum]

/-- The requests of `ahci_read` fit for up to 16 sectors, those of `ahci_write` for any number but
zero. -/
theorem ahci_requests_iff (hhdm starth : BitVec 64) (startl : BitVec 32) (buf : BitVec 64) :
    (∀ count : BitVec 32, 1 ≤ count.toNat → count.toNat ≤ 3968 →
      (RequestFits (ahciReadRequest hhdm starth startl count buf) count.toNat (buf-hhdm) ↔
        count.toNat ≤ 16)) ∧
    ∀ count : BitVec 32, count.toNat ≤ 8192 →
      (RequestFits (ahciWriteRequest hhdm starth startl count buf) count.toNat (buf-hhdm) ↔
        count.toNat ≠ 0) := by
  constructor
  · intro count h0 hk
    obtain ⟨hsectors,hfits⟩ := ahciRead_spec hhdm starth startl buf h0 hk
    constructor
    · intro h
      have he := hsectors.symm.trans h.sectors
      omega
    · intro h
      apply hfits
      rw [hsectors]
      omega
  · intro count hk
    constructor
    · intro h hzero
      have hbytes := h.bytes
      have hcount : count = 0#32 := BitVec.eq_of_toNat_eq hzero
      rw [hcount] at hbytes
      simp [ahciWriteRequest,prdtEntry,PrdtEntry.bytes] at hbytes
    · intro h
      have hpos : 0 < count.toNat := Nat.pos_of_ne_zero h
      have hlast := shiftLeft_sub_one hpos hk
      refine ⟨fis_count (by omega),rfl,?_,⟨prdtEntry_start _ _,trivial⟩⟩
      rw [ahciWriteRequest,List.map_singleton,List.sum_singleton,
        prdtEntry_bytes hlast hpos hk,Nat.mul_comm]

/-- For 17 sectors the FIS asks for one. -/
theorem ahci_read_short :
    ¬RequestFits (ahciReadRequest 0#64 0#64 0#32 17#32 0x100000#64) 17 0x100000#64 := by
  intro h
  exact absurd h.sectors (by decide)

theorem ahci_requests_iff_sample :
    RequestFits (ahciReadRequest 0#64 0#64 0#32 16#32 0x100000#64) 16 0x100000#64 ∧
    RequestFits (ahciWriteRequest 0#64 0#64 0#32 8192#32 0x100000#64) 8192 0x100000#64 := by
  obtain ⟨hread,hwrite⟩ := ahci_requests_iff 0#64 0#64 0#32 0x100000#64
  exact ⟨(hread 16#32 (by decide) (by decide)).mpr (by decide),
    (hwrite 8192#32 (by decide)).mpr (by decide)⟩

end KiNBOL
