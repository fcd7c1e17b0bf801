import KiNBOL.Mm.PmmOps

namespace KiNBOL

/-- `struct limine_memmap_entry`. -/
structure MemmapEntry where
  base : BitVec 64
  length : BitVec 64
  type : BitVec 64
  deriving DecidableEq

/-- `LIMINE_MEMMAP_USABLE`. -/
def limineUsable : BitVec 64 := 0

namespace MemmapEntry

/-- The page lies inside the entry. -/
def Holds (e : MemmapEntry) (page : Nat) : Prop :=
  e.base.toNat/4096 ≤ page ∧ page < e.base.toNat/4096+e.length.toNat/4096

def Usable (e : MemmapEntry) : Prop := e.type = limineUsable

instance (e : MemmapEntry) : Decidable e.Usable := inferInstanceAs (Decidable (_ = _))
instance (e : MemmapEntry) (page : Nat) : Decidable (e.Holds page) :=
  inferInstanceAs (Decidable (_ ∧ _))

end MemmapEntry

open MemmapEntry

/-- What the boot protocol promises about the usable entries: page-aligned regions of the
physical address space that do not overlap. -/
structure MemmapOk (memmap : List MemmapEntry) : Prop where
  aligned : ∀ e ∈ memmap, e.Usable → e.base.toNat%4096 = 0 ∧ e.length.toNat%4096 = 0
  fits : ∀ e ∈ memmap, e.Usable → e.base.toNat+e.length.toNat < 2^64
  disjoint : memmap.Pairwise
    (fun a b => a.Usable → b.Usable → ∀ page, ¬(a.Holds page ∧ b.Holds page))

/-- One entry of the first pass: `highest_phys` and the highest usable end so far. -/
def highStep (hi : BitVec 64 × BitVec 64) (e : MemmapEntry) : BitVec 64 × BitVec 64 :=
  (if hi.1 < e.base+e.length then e.base+e.length else hi.1,
   if e.Usable ∧ hi.2 < e.base+e.length then e.base+e.length else hi.2)

def memmapHighest (p : Pmm) (memmap : List MemmapEntry) : BitVec 64 × BitVec 64 :=
  memmap.foldl highStep (p.highestPhys,0)

/-- Second pass: the region that is to hold the bitmap. -/
def bitmapRegion (memmap : List MemmapEntry) (bitmapBytes : Nat) : Option MemmapEntry :=
  memmap.find? (fun e => e.Usable ∧ 0x100000 ≤ e.base.toNat ∧ bitmapBytes ≤ e.length.toNat)

/-- Third pass, one entry: its pages become free and are counted. -/
def clearEntry (p : Pmm) (e : MemmapEntry) : Pmm :=
  if e.Usable then
    (List.range (e.length.toNat/4096)).foldl (fun p j =>
      { p.bmClear (e.base.toNat/4096+j) with freePages := p.freePages+1 }) p
  else p

/-- Fourth pass: the bitmap's own pages are taken out again. -/
def reserveBitmap (p : Pmm) (page bmPages : Nat) : Pmm :=
  (List.range bmPages).foldl (fun p j =>
    if !p.bmGet (page+j) then { p.bmSet (page+j) with freePages := p.freePages-1 } else p) p

def bitmapBytes (total : Nat) : Nat := (total+7)/8

def bitmapPages (total : Nat) : Nat := (bitmapBytes total+4096-1)/4096

/-- `pmm_init`; the first component is the physical address of the bitmap (NULL if no region
is large enough, and then nothing else is set up). -/
def pmmInit (p : Pmm) (memmap : List MemmapEntry) : Option (BitVec 64) × Pmm :=
  let hi := memmapHighest p memmap
  let total := hi.2.toNat/4096
  let p := { p with highestPhys := hi.1, totalPages := total }
  match bitmapRegion memmap (bitmapBytes total) with
  | none => (none,p)
  | some r =>
    let p := bmSetRun p 0 total
    let p := memmap.foldl clearEntry p
    (some r.base,reserveBitmap p (pageOf r.base) (bitmapPages total))

/-- The static state before `pmm_init`; the bytes the bitmap will occupy are arbitrary. -/
def pmmBoot (bytes : Nat → BitVec 8) : Pmm := ⟨bytes,0,0,0⟩

open Pmm

theorem highStep_bounds (hi : BitVec 64 × BitVec 64) (e : MemmapEntry) :
    hi.2.toNat ≤ (highStep hi e).2.toNat ∧
    (e.Usable → e.base.toNat+e.length.toNat < 2^64 →
      e.base.toNat+e.length.toNat ≤ (highStep hi e).2.toNat) := by
  unfold highStep
  dsimp only
  split_ifs with h
  · refine ⟨(BitVec.lt_def.mp h.2).le,fun _ hf => ?_⟩
    rw [BitVec.toNat_add,Nat.mod_eq_of_lt hf]
  · refine ⟨le_refl _,fun hu hf => ?_⟩
    have hend : (e.base+e.length).toNat = e.base.toNat+e.length.toNat := by
      rw [BitVec.toNat_add,Nat.mod_eq_of_lt hf]
    rw [← hend]
    exact Nat.le_of_not_lt (fun hlt => h ⟨hu,BitVec.lt_def.mpr hlt⟩)

theorem memmapHighest_usable (p : Pmm) (memmap : List MemmapEntry) (hm : MemmapOk memmap) :
    ∀ e ∈ memmap, e.Usable →
      e.base.toNat+e.length.toNat ≤ (memmapHighest p memmap).2.toNat := by
  have grow : ∀ (l : List MemmapEntry) (hi : BitVec 64 × BitVec 64),
      (∀ e ∈ l, e.Usable → e.base.toNat+e.length.toNat < 2^64) →
      hi.2.toNat ≤ (l.foldl highStep hi).2.toNat ∧
      ∀ e ∈ l, e.Usable → e.base.toNat+e.length.toNat ≤ (l.foldl highStep hi).2.toNat := by
    intro l
    induction l with
    | nil => intro hi _; simp
    | cons a l ih =>
      intro hi hfit
      rw [List.foldl_cons]
      obtain ⟨hle,hall⟩ := ih (highStep hi a) (fun e he => hfit e (List.mem_cons_of_mem _ he))
      obtain ⟨hmono,hcover⟩ := highStep_bounds hi a
      refine ⟨hmono.trans hle,fun e he hu => ?_⟩
      rcases List.mem_cons.mp he with rfl | he
      · exact (hcover hu (hfit e (List.mem_cons_self ..) hu)).trans hle
      · exact hall e he hu
  exact (grow memmap _ hm.fits).2

/-- Clearing an entry whose pages are all set is giving them back. -/
theorem clearEntry_gives (p : Pmm) (e : MemmapEntry) (hu : e.Usable)
    (hset : ∀ j, e.Holds j → j < p.totalPages ∧ p.bmGet j = true) :
    Gives p (clearEntry p e) (e.base.toNat/4096) (e.length.toNat/4096) := by
  have heq : clearEntry p e = pmmFreePages p e.base (e.length.toNat/4096) := by
    have loop : ∀ n ≤ e.length.toNat/4096,
        (List.range n).foldl (fun p j =>
          { p.bmClear (e.base.toNat/4096+j) with freePages := p.freePages+1 }) p =
        pmmFreePages p e.base n := by
      intro n
      induction n with
      | zero => intro _; rfl
      | succ n ih =>
        intro hn
        have hg := pmmFreePages_gives p e.base n
        have hk := hset (e.base.toNat/4096+n) ⟨by omega,by omega⟩
        have hup : (pmmFreePages p e.base n).bmGet (pageOf e.base+n) = true := by
          rw [hg.bits]
          simp [mem_held,pageOf,hk.2]
        rw [List.range_succ,List.foldl_append,ih (by omega)]
        conv_rhs => rw [pmmFreePages,List.range_succ,List.foldl_append]
        change _ = List.foldl _ (pmmFreePages p e.base n) [n]
        simp only [List.foldl_cons,List.foldl_nil]
        rw [if_pos ⟨by rw [hg.total]; exact hk.1,hup⟩]
        rfl
    rw [clearEntry,if_pos hu]
    exact loop _ (le_refl _)
  rw [heq]
  exact pmmFreePages_gives p e.base _

theorem reserveBitmap_spec (p : Pmm) (page n : Nat) (hc : p.Counted)
    (hlt : page+n ≤ p.totalPages) :
    (reserveBitmap p page n).Counted ∧ (reserveBitmap p page n).totalPages = p.totalPages ∧
    ∀ j, (reserveBitmap p page n).bmGet j =
      (p.bmGet j || decide (page ≤ j ∧ j < page+n)) := by
  induction n with
  | zero => exact ⟨hc,rfl,fun j => by simp [reserveBitmap]⟩
  | succ n ih =>
    obtain ⟨hq,ht,hb⟩ := ih (by omega)
    let q := reserveBitmap p page n
    have hs : reserveBitmap p page (n+1) =
        if !q.bmGet (page+n) then { q.bmSet (page+n) with freePages := q.freePages-1 }
        else q := by
      simp [reserveBitmap,List.range_succ,q]
    have hor : ∀ j, (p.bmGet j || decide (page ≤ j ∧ j < page+(n+1))) =
        (q.bmGet j || decide (j = page+n)) := by
      intro j
      rw [hb,Bool.or_assoc,← Bool.decide_or]
      exact congrArg _ (decide_eq_decide.mpr (by omega))
    rw [hs]
    by_cases hup : q.bmGet (page+n) = true
    · rw [if_neg (by simp [hup])]
      refine ⟨hq,ht,fun j => ?_⟩
      rw [hor]
      by_cases hj : j = page+n
      · simp [hj,hup]
      · simp [hj,q]
    · rw [if_pos (by simpa using hup)]
      have htake : Takes q { q.bmSet (page+n) with freePages := q.freePages-1 } (page+n) 1 := by
        refine ⟨fun j h1 h2 => ?_,rfl,fun j => ?_,rfl⟩
        · obtain rfl : j = page+n := by omega
          exact ⟨by rw [ht]; omega,by simpa using hup⟩
        · change (q.bmSet (page+n)).bmGet j = _
          rw [bmGet_bmSet]
          exact congrArg _ (decide_eq_decide.mpr (by omega))
      refine ⟨htake.counted hq,ht,fun j => ?_⟩
      rw [hor]
      exact bmGet_bmSet q (page+n) j

/-- After the third pass exactly the pages of usable entries are clear, and all are counted. -/
theorem clearEntries_spec (memmap : List MemmapEntry) (p : Pmm) (hc : p.Counted)
    (hdisj : memmap.Pairwise
      (fun a b => a.Usable → b.Usable → ∀ page, ¬(a.Holds page ∧ b.Holds page)))
    (hset : ∀ e ∈ memmap, e.Usable → ∀ j, e.Holds j → j < p.totalPages ∧ p.bmGet j = true) :
    (memmap.foldl clearEntry p).Counted ∧
    (memmap.foldl clearEntry p).totalPages = p.totalPages ∧
    ∀ j, (memmap.foldl clearEntry p).bmGet j = true ↔
      p.bmGet j = true ∧ ¬∃ e ∈ memmap, e.Usable ∧ e.Holds j := by
  induction memmap generalizing p with
  | nil => simpa using hc
  | cons a l ih =>
    rw [List.foldl_cons]
    rw [List.pairwise_cons] at hdisj
    by_cases hu : a.Usable
    · have hg := clearEntry_gives p a hu (hset a (List.mem_cons_self ..) hu)
      have hheld : ∀ j, j ∈ p.held (a.base.toNat/4096) (a.length.toNat/4096) ↔ a.Holds j := by
        intro j
        rw [mem_held]
        exact ⟨fun h => h.1,fun h => ⟨h,hset a (List.mem_cons_self ..) hu j h⟩⟩
      have hset' : ∀ e ∈ l, e.Usable → ∀ j, e.Holds j →
          j < (clearEntry p a).totalPages ∧ (clearEntry p a).bmGet j = true := by
        intro e he hue j hj
        have hold := hset e (List.mem_cons_of_mem _ he) hue j hj
        have hnot : j ∉ p.held (a.base.toNat/4096) (a.length.toNat/4096) :=
          fun hin => hdisj.1 e he hu hue j ⟨(hheld j).mp hin,hj⟩
        rw [hg.total,hg.bits]
        simp [hold,hnot]
      obtain ⟨h1,h2,h3⟩ := ih (clearEntry p a) (hg.counted hc) hdisj.2 hset'
      refine ⟨h1,h2.trans hg.total,fun j => ?_⟩
      rw [h3,hg.bits]
      simp only [Bool.and_eq_true,Bool.not_eq_true',decide_eq_false_iff_not,hheld,
        List.mem_cons,exists_eq_or_imp,hu,true_and,not_or,and_assoc]
    · have ha : clearEntry p a = p := by rw [clearEntry,if_neg hu]
      rw [ha]
      obtain ⟨h1,h2,h3⟩ := ih p hc hdisj.2 (fun e he => hset e (List.mem_cons_of_mem _ he))
      refine ⟨h1,h2,fun j => ?_⟩
      rw [h3]
      simp only [List.mem_cons,exists_eq_or_imp,hu,false_and,false_or]

/-- State left by `pmm_init` when it finds room for its bitmap: exact counter, and free are the
pages of usable entries outside the bitmap. -/
theorem pmmInit_spec (bytes : Nat → BitVec 8) (memmap : List MemmapEntry) (hm : MemmapOk memmap)
    {a : BitVec 64} {p : Pmm} (h : pmmInit (pmmBoot bytes) memmap = (some a,p)) :
    p.Counted ∧ ∀ j, p.Free j ↔ (∃ e ∈ memmap, e.Usable ∧ e.Holds j) ∧
      ¬(pageOf a ≤ j ∧ j < pageOf a+bitmapPages p.totalPages) := by
  let total := (memmapHighest (pmmBoot bytes) memmap).2.toNat/4096
  let p0 : Pmm := { pmmBoot bytes with
    highestPhys := (memmapHighest (pmmBoot bytes) memmap).1, totalPages := total }
  have htop := memmapHighest_usable (pmmBoot bytes) memmap hm
  have hlim : total ≤ pageLimit := by
    have := (memmapHighest (pmmBoot bytes) memmap).2.isLt
    simp only [pageLimit,total]
    omega
  have hbelow : ∀ e ∈ memmap, e.Usable → ∀ j, e.Holds j → j < total := by
    intro e he hu j hj
    have h1 := htop e he hu
    have h2 := hm.aligned e he hu
    have h3 := hj.2
    simp only [total]
    omega
  simp only [pmmInit] at h
  split at h
  · simp at h
  · rename_i r hr
    simp only [Prod.mk.injEq,Option.some.injEq] at h
    obtain ⟨rfl,rfl⟩ := h
    have hr' := List.find?_some hr
    have hrm := List.mem_of_find?_eq_some hr
    simp only [decide_eq_true_eq] at hr'
    obtain ⟨hsett,hsetb⟩ := bmSetRun_bits p0 0 total
    have hup : ∀ j < total, (bmSetRun p0 0 total).bmGet j = true := by
      intro j hj
      rw [hsetb]
      simp [hj]
    have hc0 : (bmSetRun p0 0 total).Counted := by
      refine ⟨by rw [hsett]; exact hlim,?_⟩
      have hz : downCount (bmSetRun p0 0 total).bmGet total = 0 := by
        by_contra hne
        obtain ⟨i,hi,hf⟩ := downCount_pos_iff.mp (Nat.pos_of_ne_zero hne)
        simp [hup i hi] at hf
      have hfree : (bmSetRun p0 0 total).freePages = 0 := by
        have hkeep : ∀ n, (bmSetRun p0 0 n).freePages = p0.freePages := by
          intro n
          induction n with
          | zero => rfl
          | succ n ih => simpa [bmSetRun,List.range_succ] using ih
        exact hkeep total
      rw [hsett]
      change _ = downCount _ total
      rw [hz,hfree]
      rfl
    obtain ⟨hc1,ht1,hb1⟩ := clearEntries_spec memmap (bmSetRun p0 0 total) hc0 hm.disjoint
      (fun e he hu j hj => ⟨by rw [hsett]; exact hbelow e he hu j hj,hup j (hbelow e he hu j hj)⟩)
    have htot : (memmap.foldl clearEntry (bmSetRun p0 0 total)).totalPages = total :=
      ht1.trans hsett
    have hin : ∀ j, pageOf r.base ≤ j → j < pageOf r.base+bitmapPages total → r.Holds j := by
      intro j h1 h2
      have h3 := hm.aligned r hrm hr'.1
      have h4 : bitmapBytes total ≤ r.length.toNat := hr'.2.2
      simp only [Holds,pageOf,bitmapPages] at *
      omega
    have hroom : pageOf r.base+bitmapPages total ≤ total := by
      by_cases hz : bitmapPages total = 0
      · have hzero : total = 0 := by simp only [bitmapPages,bitmapBytes] at hz; omega
        have h1 := htop r hrm hr'.1
        have h2 : 0x100000 ≤ r.base.toNat := hr'.2.1
        simp only [total] at hzero
        omega
      · have := hbelow r hrm hr'.1 _ (hin (pageOf r.base+bitmapPages total-1) (by omega) (by omega))
        omega
    obtain ⟨hc2,ht2,hb2⟩ := reserveBitmap_spec (memmap.foldl clearEntry (bmSetRun p0 0 total))
      (pageOf r.base) (bitmapPages total) hc1 (by rw [htot]; exact hroom)
    refine ⟨hc2,fun j => ?_⟩
    have hbj := hb1 j
    change (reserveBitmap (memmap.foldl clearEntry (bmSetRun p0 0 total)) (pageOf r.base)
      (bitmapPages total)).Free j ↔ _ ∧ ¬(_ ∧ _ < _+bitmapPages (reserveBitmap
        (memmap.foldl clearEntry (bmSetRun p0 0 total)) (pageOf r.base)
        (bitmapPages total)).totalPages)
    rw [Free,ht2,htot,hb2,Bool.or_eq_false_iff,decide_eq_false_iff_not]
    constructor
    · rintro ⟨hj,hf,hout⟩
      refine ⟨?_,hout⟩
      by_contra hno
      rw [hbj.mpr ⟨hup j hj,hno⟩] at hf
      simp at hf
    · rintro ⟨⟨e,he,hu,hj⟩,hout⟩
      refine ⟨hbelow e he hu j hj,?_,hout⟩
      rw [← Bool.not_eq_true,hbj]
      exact fun hn => hn.2 ⟨e,he,hu,hj⟩

end KiNBOL
