import Mathlib.Data.BitVec
import Mathlib.Data.List.Pairwise

namespace KiNBOL

/-- `acpi_ioapic_t`. -/
structure AcpiIoapic where
  id : BitVec 8
  physAddr : BitVec 32
  gsiBase : BitVec 32
  deriving DecidableEq

/-- The inner loop of `acpi_gsi_to_ioapic`: pins of the record at index `i`. -/
def gsiSpan (ioapics : List AcpiIoapic) (i : Nat) (io : AcpiIoapic) : BitVec 32 :=
  ioapics.zipIdx.foldl (fun span (r,j) =>
    if j ≠ i ∧ io.gsiBase < r.gsiBase then
      let d := r.gsiBase-io.gsiBase
      if d < span then d else span
    else span) 24#32

/-- `acpi_gsi_to_ioapic`. -/
def acpiGsiToIoapic (ioapics : List AcpiIoapic) (gsi : BitVec 32) :
    Option (AcpiIoapic × BitVec 32) :=
  ioapics.zipIdx.findSome? (fun (io,i) =>
    if io.gsiBase ≤ gsi ∧ gsi < io.gsiBase+gsiSpan ioapics i io then some (io,gsi-io.gsiBase)
    else none)

/-- No two records have the same base. -/
def DistinctBases (ioapics : List AcpiIoapic) : Prop :=
  ioapics.Pairwise (fun a b => a.gsiBase ≠ b.gsiBase)

/-- The record with the greatest base that is not above the GSI. -/
def OwnsGsi (ioapics : List AcpiIoapic) (gsi : BitVec 32) (io : AcpiIoapic) : Prop :=
  io ∈ ioapics ∧ io.gsiBase ≤ gsi ∧ ∀ r ∈ ioapics, r.gsiBase ≤ gsi → r.gsiBase ≤ io.gsiBase

/-- Which interrupt goes to which pin is well defined. -/
structure RoutesWell (ioapics : List AcpiIoapic) : Prop where
  owner : ∀ gsi io pin, acpiGsiToIoapic ioapics gsi = some (io,pin) →
    OwnsGsi ioapics gsi io ∧ io.gsiBase.toNat+pin.toNat = gsi.toNat ∧ pin.toNat < 24
  order : ∀ other, ioapics.Perm other → acpiGsiToIoapic other = acpiGsiToIoapic ioapics
  injective : ∀ gsi gsi' p, acpiGsiToIoapic ioapics gsi = some p →
    acpiGsiToIoapic ioapics gsi' = some p → gsi = gsi'
  found : ∀ gsi io, OwnsGsi ioapics gsi io → gsi.toNat < io.gsiBase.toNat+24 →
    acpiGsiToIoapic ioapics gsi ≠ none

variable {l l' : List AcpiIoapic} {io r : AcpiIoapic} {gsi pin : BitVec 32} {i : Nat}

/-- Keeping the smaller one of a value and those of the elements that count. -/
theorem foldl_smaller {α : Type*} (p : α → Prop) [DecidablePred p] (f : α → BitVec 32) (xs : List α)
    (s : BitVec 32) :
    let t := xs.foldl (fun s a => if p a then (if f a < s then f a else s) else s) s
    t ≤ s ∧ (∀ a ∈ xs, p a → t ≤ f a) ∧ (t = s ∨ ∃ a ∈ xs, p a ∧ t = f a) := by
  induction xs generalizing s with
  | nil => simp
  | cons a xs ih =>
    rw [List.foldl_cons]
    generalize hs : (if p a then (if f a < s then f a else s) else s) = s'
    obtain ⟨h1,h2,h3⟩ := ih s'
    generalize xs.foldl _ s' = t at *
    have hle : s' ≤ s ∧ (p a → s' ≤ f a) ∧ (s' = s ∨ p a ∧ s' = f a) := by
      rw [← hs]
      split_ifs with hp hlt
      · exact ⟨BitVec.le_of_lt hlt,fun _ => BitVec.le_refl _,Or.inr ⟨hp,rfl⟩⟩
      · exact ⟨BitVec.le_refl _,fun _ => BitVec.not_lt.mp hlt,Or.inl rfl⟩
      · exact ⟨BitVec.le_refl _,fun h => absurd h hp,Or.inl rfl⟩
    obtain ⟨k1,k2,k3⟩ := hle
    refine ⟨BitVec.le_trans h1 k1,fun b hb hp => ?_,?_⟩
    · rcases List.mem_cons.mp hb with rfl | hb
      · exact BitVec.le_trans h1 (k2 hp)
      · exact h2 b hb hp
    · rcases h3 with rfl | ⟨b,hb,hp,rfl⟩
      · rcases k3 with rfl | ⟨hp,rfl⟩
        · exact Or.inl rfl
        · exact Or.inr ⟨a,by simp,hp,rfl⟩
      · exact Or.inr ⟨b,by simp [hb],hp,rfl⟩

/-- The span of a record ends at 24 pins or at the next base. -/
theorem gsiSpan_spec (hi : (io,i) ∈ l.zipIdx) :
    (gsiSpan l i io).toNat ≤ 24 ∧
    (∀ r ∈ l, io.gsiBase < r.gsiBase →
      io.gsiBase.toNat+(gsiSpan l i io).toNat ≤ r.gsiBase.toNat) ∧
    ((gsiSpan l i io).toNat = 24 ∨ ∃ r ∈ l, io.gsiBase < r.gsiBase ∧
      io.gsiBase.toNat+(gsiSpan l i io).toNat = r.gsiBase.toNat) := by
  obtain ⟨h1,h2,h3⟩ := foldl_smaller (fun a : AcpiIoapic × Nat => a.2 ≠ i ∧ io.gsiBase < a.1.gsiBase)
    (fun a => a.1.gsiBase-io.gsiBase) l.zipIdx 24#32
  change gsiSpan l i io ≤ _ at h1
  change ∀ a ∈ _,_ → gsiSpan l i io ≤ _ at h2
  change gsiSpan l i io = _ ∨ ∃ a ∈ _,_ ∧ gsiSpan l i io = _ at h3
  have hsub : ∀ r : AcpiIoapic, io.gsiBase < r.gsiBase →
      io.gsiBase.toNat+(r.gsiBase-io.gsiBase).toNat = r.gsiBase.toNat := by
    intro r hr
    rw [BitVec.lt_def] at hr
    rw [BitVec.toNat_sub_of_le (BitVec.le_def.mpr hr.le)]
    omega
  refine ⟨BitVec.le_def.mp h1,fun r hr hlt => ?_,?_⟩
  · obtain ⟨j,hj⟩ := List.mem_iff_getElem?.mp hr
    have hmem : (r,j) ∈ l.zipIdx := List.mk_mem_zipIdx_iff_getElem?.mpr hj
    have hji : j ≠ i := by
      rintro rfl
      rw [List.mk_mem_zipIdx_iff_getElem?.mp hi,Option.some.injEq] at hj
      rw [hj,BitVec.lt_def] at hlt
      exact absurd hlt (Nat.lt_irrefl _)
    have hle := BitVec.le_def.mp (h2 (r,j) hmem ⟨hji,hlt⟩)
    have := hsub r hlt
    dsimp only at hle
    omega
  · rcases h3 with h3 | ⟨⟨r,j⟩,hmem,⟨-,hlt⟩,h3⟩
    · exact Or.inl (congrArg BitVec.toNat h3)
    · have hr : r ∈ l := List.mem_of_getElem? (List.mk_mem_zipIdx_iff_getElem?.mp hmem)
      exact Or.inr ⟨r,hr,hlt,h3 ▸ hsub r hlt⟩

/-- What the test of the outer loop says; it fails for a record whose span wraps. -/
def Accepts (l : List AcpiIoapic) (gsi : BitVec 32) (io : AcpiIoapic) : Prop :=
  io.gsiBase ≤ gsi ∧ gsi.toNat < io.gsiBase.toNat+24 ∧
  (∀ r ∈ l, io.gsiBase < r.gsiBase → gsi < r.gsiBase) ∧
  (io.gsiBase.toNat+24 < 2^32 ∨ ∃ r ∈ l, io.gsiBase < r.gsiBase)

theorem accepts_iff (hi : (io,i) ∈ l.zipIdx) (gsi : BitVec 32) :
    io.gsiBase ≤ gsi ∧ gsi < io.gsiBase+gsiSpan l i io ↔ Accepts l gsi io := by
  obtain ⟨h1,h2,h3⟩ := gsiSpan_spec hi
  generalize gsiSpan l i io = s at *
  have hgsi := gsi.isLt
  simp only [Accepts,BitVec.le_def,BitVec.lt_def,BitVec.toNat_add] at *
  constructor
  · rintro ⟨hle,hlt⟩
    rcases h3 with h3 | ⟨r,hr,hrlt,h3⟩
    · have hmod := Nat.mod_le (io.gsiBase.toNat+s.toNat) (2^32)
      refine ⟨hle,by omega,fun r hr hrlt => ?_,?_⟩
      · have := h2 r hr hrlt
        omega
      · left
        omega
    · have := r.gsiBase.isLt
      refine ⟨hle,by omega,fun r' hr' hrlt' => ?_,Or.inr ⟨r,hr,hrlt⟩⟩
      have := h2 r' hr' hrlt'
      omega
  · rintro ⟨hle,hlt,hnext,hwrap⟩
    refine ⟨hle,?_⟩
    rcases h3 with h3 | ⟨r,hr,hrlt,h3⟩
    · have hfit : io.gsiBase.toNat+24 < 2^32 := by
        rcases hwrap with hwrap | ⟨r,hr,hrlt⟩
        · exact hwrap
        · have := h2 r hr hrlt
          have := r.gsiBase.isLt
          omega
      omega
    · have := r.gsiBase.isLt
      have := hnext r hr hrlt
      omega

/-- A record that accepts the GSI is its owner. -/
theorem Accepts.owns (hio : io ∈ l) (h : Accepts l gsi io) : OwnsGsi l gsi io := by
  obtain ⟨hle,-,hnext,-⟩ := h
  refine ⟨hio,hle,fun r hr hrle => ?_⟩
  by_contra hlt
  have hgsi := hnext r hr (BitVec.not_le.mp hlt)
  exact absurd hrle (BitVec.not_le.mpr hgsi)

theorem OwnsGsi.unique (hd : DistinctBases l) (h : OwnsGsi l gsi io) (h' : OwnsGsi l gsi r) :
    io = r := by
  have hbase : io.gsiBase = r.gsiBase :=
    BitVec.le_antisymm (h'.2.2 io h.1 h.2.1) (h.2.2 r h'.1 h'.2.1)
  have hsymm : Std.Symm (fun a b : AcpiIoapic => a.gsiBase ≠ b.gsiBase) := ⟨fun _ _ => Ne.symm⟩
  by_contra hne
  exact List.Pairwise.forall hd h.1 h'.1 hne hbase

/-- `acpi_gsi_to_ioapic` finds the record that accepts the GSI. -/
theorem acpiGsiToIoapic_eq_some (hd : DistinctBases l) :
    acpiGsiToIoapic l gsi = some (io,pin) ↔ io ∈ l ∧ Accepts l gsi io ∧ pin = gsi-io.gsiBase := by
  constructor
  · intro h
    obtain ⟨⟨r,i⟩,hmem,hr⟩ := List.exists_of_findSome?_eq_some h
    dsimp only at hr
    split_ifs at hr with htest
    obtain ⟨rfl,rfl⟩ := Prod.mk.inj (Option.some.inj hr)
    exact ⟨List.mem_of_getElem? (List.mk_mem_zipIdx_iff_getElem?.mp hmem),
      (accepts_iff hmem gsi).mp htest,rfl⟩
  · rintro ⟨hio,hacc,rfl⟩
    obtain ⟨i,hi⟩ := List.mem_iff_getElem?.mp hio
    have hmem : (io,i) ∈ l.zipIdx := List.mk_mem_zipIdx_iff_getElem?.mpr hi
    have hsome : (acpiGsiToIoapic l gsi).isSome = true := by
      rw [acpiGsiToIoapic,List.findSome?_isSome_iff]
      refine ⟨(io,i),hmem,?_⟩
      dsimp only
      rw [if_pos ((accepts_iff hmem gsi).mpr hacc)]
      rfl
    obtain ⟨⟨r,p⟩,hr⟩ := Option.isSome_iff_exists.mp hsome
    obtain ⟨⟨r',j⟩,hmem',hr'⟩ := List.exists_of_findSome?_eq_some hr
    dsimp only at hr'
    split_ifs at hr' with htest
    obtain ⟨rfl,rfl⟩ := Prod.mk.inj (Option.some.inj hr')
    have hr'l : r' ∈ l := List.mem_of_getElem? (List.mk_mem_zipIdx_iff_getElem?.mp hmem')
    have hacc' := (accepts_iff hmem' gsi).mp htest
    rw [hr,(hacc.owns hio).unique hd (hacc'.owns hr'l)]

theorem DistinctBases.perm (hd : DistinctBases l) (h : l.Perm l') : DistinctBases l' :=
  h.pairwise hd (fun h => Ne.symm h)

theorem Accepts.perm (h : l.Perm l') : Accepts l' gsi io ↔ Accepts l gsi io := by
  simp only [Accepts,h.mem_iff]

/-- The GSI is base plus pin. -/
theorem Accepts.pin_spec (h : Accepts l gsi io) :
    io.gsiBase.toNat+(gsi-io.gsiBase).toNat = gsi.toNat ∧ (gsi-io.gsiBase).toNat < 24 := by
  obtain ⟨hle,hlt,-,-⟩ := h
  rw [BitVec.toNat_sub_of_le hle]
  have hle' := BitVec.le_def.mp hle
  omega

/-- A base in front of the last 24 GSIs: its span does not wrap. -/
def NoWrap (l : List AcpiIoapic) : Prop := ∀ r ∈ l, r.gsiBase.toNat+24 < 2^32

/-- Some record has the greatest base. -/
theorem exists_greatest (hr : r ∈ l) : ∃ m ∈ l, ∀ r ∈ l, r.gsiBase ≤ m.gsiBase := by
  induction l generalizing r with
  | nil => cases hr
  | cons a l ih =>
    cases l with
    | nil => exact ⟨a,by simp,fun r hr => by rw [List.mem_singleton.mp hr]; exact BitVec.le_refl _⟩
    | cons b l =>
      obtain ⟨m,hm,hall⟩ := ih (List.mem_cons_self (a := b))
      rcases BitVec.le_total a.gsiBase m.gsiBase with hle | hle
      · refine ⟨m,List.mem_cons_of_mem a hm,fun r hr => ?_⟩
        rcases List.mem_cons.mp hr with rfl | hr
        · exact hle
        · exact hall r hr
      · refine ⟨a,List.mem_cons_self,fun r hr => ?_⟩
        rcases List.mem_cons.mp hr with rfl | hr
        · exact BitVec.le_refl _
        · exact BitVec.le_trans (hall r hr) hle

/-- Routing is well defined exactly when no base lies among the last 24 GSIs. -/
theorem routesWell_iff (hd : DistinctBases l) : RoutesWell l ↔ NoWrap l := by
  constructor
  · intro h r hr
    by_contra hwrap
    obtain ⟨m,hm,hall⟩ := exists_greatest hr
    have howns : OwnsGsi l m.gsiBase m := ⟨hm,BitVec.le_refl _,fun r hr _ => hall r hr⟩
    have hsome := h.found m.gsiBase m howns (by omega)
    obtain ⟨⟨io,pin⟩,hio⟩ := Option.ne_none_iff_exists'.mp hsome
    obtain ⟨hmem,hacc,-⟩ := (acpiGsiToIoapic_eq_some hd).mp hio
    obtain rfl := (hacc.owns hmem).unique hd howns
    have hle := BitVec.le_def.mp (hall r hr)
    rcases hacc.2.2.2 with hfit | ⟨r',hr',hlt⟩
    · omega
    · exact absurd (hall r' hr') (BitVec.not_le.mpr hlt)
  · intro hno
    refine ⟨fun gsi io pin h => ?_,fun other h => ?_,fun gsi gsi' p h h' => ?_,
      fun gsi io howns hlt => ?_⟩
    · obtain ⟨hio,hacc,rfl⟩ := (acpiGsiToIoapic_eq_some hd).mp h
      exact ⟨hacc.owns hio,hacc.pin_spec⟩
    · funext gsi
      apply Option.ext
      rintro ⟨io,pin⟩
      rw [acpiGsiToIoapic_eq_some hd,acpiGsiToIoapic_eq_some (hd.perm h),h.mem_iff,Accepts.perm h]
    · obtain ⟨io,pin⟩ := p
      obtain ⟨hio,hacc,rfl⟩ := (acpiGsiToIoapic_eq_some hd).mp h
      obtain ⟨-,hacc',hpin⟩ := (acpiGsiToIoapic_eq_some hd).mp h'
      apply BitVec.eq_of_toNat_eq
      rw [← hacc.pin_spec.1,hpin,hacc'.pin_spec.1]
    · have hacc : Accepts l gsi io := by
        refine ⟨howns.2.1,hlt,fun r hr hbase => ?_,Or.inl (hno io howns.1)⟩
        by_contra hle
        exact absurd (howns.2.2 r hr (BitVec.not_lt.mp hle)) (BitVec.not_le.mpr hbase)
      rw [(acpiGsiToIoapic_eq_some hd).mpr ⟨howns.1,hacc,rfl⟩]
      simp

/-- Three IOAPICs, the middle one with fewer than 24 pins. -/
def threeIoapics : List AcpiIoapic :=
  [⟨2,0xFEC02000#32,40#32⟩,⟨0,0xFEC00000#32,0#32⟩,⟨1,0xFEC01000#32,24#32⟩]

theorem routesWell_iff_sample : RoutesWell threeIoapics := by
  refine (routesWell_iff ?_).mpr ?_
  · simp [DistinctBases,threeIoapics]
  · simp [NoWrap,threeIoapics]

/-- The span of the only IOAPIC ends at 2^32, so its first GSI has no owner. -/
theorem gsi_not_found : ¬RoutesWell [⟨0,0xFEC00000#32,0xFFFFFFE8#32⟩] := by
  intro h
  have hno := h.found 0xFFFFFFE8#32 ⟨0,0xFEC00000#32,0xFFFFFFE8#32⟩ (by simp [OwnsGsi]) (by decide)
  exact hno (by decide)

end KiNBOL
