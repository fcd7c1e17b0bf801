import KiNBOL.Mm.MapSafe

namespace KiNBOL

/-- The entry that `vmm_init` writes for a new table. -/
def kernelEntry (phys : BitVec 64) : BitVec 64 := phys ||| vmmPresent ||| vmmWrite

/-- The entry that `vmm_init` writes for 2 MiB. -/
def largeEntry (phys : BitVec 64) : BitVec 64 := phys ||| vmmPresent ||| vmmWrite ||| vmmHuge

/-- `if (!(t[i] & VMM_PRESENT)) { p = alloc_table(); … }` and the table that `t[i]` then names. -/
def kernelTable (m : Machine) (tbl : Nat) (i : Fin 512) : Option Nat × Machine :=
  if has (m.mem tbl i) vmmPresent then (some (pageOf (m.mem tbl i &&& pageMask)),m)
  else
    match allocTable m with
    | (none,m) => (none,m)
    | (some phys,m) =>
      (some (pageOf (kernelEntry phys &&& pageMask)),
        { m with mem := setSlot m.mem tbl i (kernelEntry phys) })

/-- One turn of the loop of `vmm_init`; the same again maps the local APIC. -/
def mapLarge (m : Machine) (pml4 : Nat) (virt phys : BitVec 64) : Bool × Machine :=
  match kernelTable m pml4 (pml4Idx virt) with
  | (none,m) => (false,m)
  | (some pdpt,m) =>
    match kernelTable m pdpt (pdptIdx virt) with
    | (none,m) => (false,m)
    | (some pd,m) => (true,{ m with mem := setSlot m.mem pd (pdIdx virt) (largeEntry phys) })

/-- `i * 0x200000ULL`. -/
def hhdmPhys (i : Nat) : BitVec 64 := BitVec.ofNat 64 i*0x200000#64

def hhdmVirt (hhdm : BitVec 64) (i : Nat) : BitVec 64 := hhdm+hhdmPhys i

def hhdmLoop (pml4 : Nat) (hhdm : BitVec 64) : List Nat → Machine → Bool × Machine
  | [],m => (true,m)
  | i::rest,m =>
    match mapLarge m pml4 (hhdmVirt hhdm i) (hhdmPhys i) with
    | (false,m) => (false,m)
    | (true,m) => hhdmLoop pml4 hhdm rest m

/-- The count of 2 MiB pages that `vmm_init` maps. -/
def hhdmPages (highest : BitVec 64) : Nat :=
  let bytes := (highest+0x1FFFFF#64) &&& ~~~0x1FFFFF#64
  let bytes := if bytes < 0x100000000#64 then 0x100000000#64 else bytes
  (bytes/0x200000#64).toNat

def apicPhys : BitVec 64 := 0xFEE00000#64

/-- The end of `vmm_init`: the local APIC is mapped and the pagemap loaded. -/
def vmmInitApic (m : Machine) (pml4 : Nat) (hhdm : BitVec 64) : Pagemap × Machine :=
  let r := mapLarge m pml4 (apicPhys+hhdm) apicPhys
  if r.1 then (some pml4,{ r.2 with cr3 := pml4 }) else (none,r.2)

/-- `vmm_init` from its loop on. -/
def vmmInitMap (m : Machine) (pml4 : Nat) (hhdm : BitVec 64) : Pagemap × Machine :=
  let r := hhdmLoop pml4 hhdm (List.range (hhdmPages m.pmm.highestPhys)) m
  if r.1 then vmmInitApic r.2 pml4 hhdm else (none,r.2)

/-- `vmm_init`: the kernel pagemap when `vmm_switch` is reached. -/
def vmmInit (m : Machine) (hhdm : BitVec 64) : Pagemap × Machine :=
  match vmmCreatePagemap m with
  | (none,m) => (none,m)
  | (some pml4,m) => vmmInitMap m pml4 hhdm

/-- Bytes of the direct map: the highest physical address rounded up to 2 MiB, at least 4 GiB. -/
@[irreducible] def directBytes (highest : BitVec 64) : Nat :=
  max ((highest.toNat+0x1FFFFF)/0x200000*0x200000) (2^32)

/-- What `vmm_init` is for: physical memory at `hhdm`, the rest of the upper half as it was, and no
other memory written. -/
structure DirectMapped (m : Machine) (hhdm : BitVec 64) (pm : Nat) (m' : Machine) : Prop where
  direct : ∀ p, p < directBytes m.pmm.highestPhys →
    ∃ x, translate m'.mem pm (hhdm+BitVec.ofNat 64 p) = some x ∧ x.page = p/4096 ∧ x.write = true
  rest : ∀ va, KernelHalf va →
    (∀ p, p < directBytes m.pmm.highestPhys → va ≠ hhdm+BitVec.ofNat 64 p) →
    translate m'.mem pm va = translate m.mem m.cr3 va
  writes : ∀ n i, m'.mem n i ≠ m.mem n i →
    IsPageTable m.mem m.cr3 n ∨ m.pmm.Free n ∧ ¬m'.pmm.Free n

/-- Paths of tables in the upper half. -/
def UpperPath (p : List (Fin 512)) : Prop := p.length ≤ 3 ∧ ∀ i ∈ p.head?, 256 ≤ i.val

/-- The upper half that the boot loader hands over: a tree of tables, none free, with large pages
anywhere among its leaves. -/
structure BootTables (m : Machine) : Prop where
  tables : Tables UpperPath m.cr3 m
  plain : ∀ q j n, UpperPath (q++[j]) → tblNode (tblAt m.mem m.cr3 q j) = some n →
    tblAt m.mem m.cr3 q j >>> 52 = 0#64
  top : ∀ j, 256 ≤ j.val → present (m.mem m.cr3 j) = true → has (m.mem m.cr3 j) vmmHuge = false

/-- The PDPT entry over an address. -/
def pdptEntry (mem : PhysMem) (pm : Nat) (va : BitVec 64) : BitVec 64 :=
  tblAt mem pm [pml4Idx va] (pdptIdx va)

/-- The address lies in a 1 GiB page. -/
def InLarge (mem : PhysMem) (pm : Nat) (va : BitVec 64) : Prop :=
  present (pdptEntry mem pm va) = true ∧ has (pdptEntry mem pm va) vmmHuge = true

/-- The PDPT entry over region `i` of the direct map, as the boot loader left it. -/
def bootEntry (m : Machine) (hhdm : BitVec 64) (i : Nat) : BitVec 64 :=
  pdptEntry m.mem m.cr3 (hhdmVirt hhdm i)

/-- Region `i` of the direct map lies in a 1 GiB page of the boot loader. -/
def BootLarge (m : Machine) (hhdm : BitVec 64) (i : Nat) : Prop :=
  KernelHalf (hhdmVirt hhdm i) ∧ InLarge m.mem m.cr3 (hhdmVirt hhdm i)

/-- The direct map fits, no 1 GiB page of the boot loader lies in it, and the tables that are there
grant writing. -/
structure DirectRoom (m : Machine) (hhdm : BitVec 64) : Prop where
  fits : hhdm.toNat+directBytes m.pmm.highestPhys ≤ 2^64+2^47
  small : ∀ i, i < hhdmPages m.pmm.highestPhys → ¬BootLarge m hhdm i
  write : ∀ i, i < hhdmPages m.pmm.highestPhys → KernelHalf (hhdmVirt hhdm i) →
    (present (m.mem m.cr3 (pml4Idx (hhdmVirt hhdm i))) = true →
      has (m.mem m.cr3 (pml4Idx (hhdmVirt hhdm i))) vmmWrite = true) ∧
    (present (bootEntry m hhdm i) = true → has (bootEntry m hhdm i) vmmWrite = true)

/-- The frames of 1 GiB pages in the way hold data: no tables, nothing free, and other words than
2 MiB entries. -/
def LargeData (m : Machine) (hhdm : BitVec 64) : Prop :=
  ∀ i, i < hhdmPages m.pmm.highestPhys → BootLarge m hhdm i →
    ¬IsPageTable m.mem m.cr3 (pageOf (bootEntry m hhdm i)) ∧
    ¬m.pmm.Free (pageOf (bootEntry m hhdm i)) ∧
    ∀ k, m.mem (pageOf (bootEntry m hhdm i)) (pdIdx (hhdmVirt hhdm i)) ≠ largeEntry (hhdmPhys k)

section

variable {f k : Nat} {hhdm va w : BitVec 64}

theorem hhdmPhys_addr (i : Nat) : hhdmPhys i = pageAddr (i*512) := by
  apply BitVec.eq_of_toNat_eq
  rw [hhdmPhys,pageAddr,BitVec.toNat_mul,BitVec.toNat_ofNat,BitVec.toNat_ofNat,BitVec.toNat_ofNat]
  omega

theorem hhdmVirt_toNat (hhdm : BitVec 64) (i : Nat) :
    (hhdmVirt hhdm i).toNat = (hhdm.toNat+i*2^21)%2^64 := by
  rw [hhdmVirt,hhdmPhys,BitVec.toNat_add,BitVec.toNat_mul,BitVec.toNat_ofNat,BitVec.toNat_ofNat]
  omega

/-- Two addresses have the slots down to the page directory in common when they lie in one 2 MiB
region of the 48-bit space. -/
theorem tablePath_eq_iff : tablePath va = tablePath w ↔ va.toNat/2^21%2^27 = w.toNat/2^21%2^27 := by
  simp only [tablePath,List.cons.injEq,and_true,Fin.ext_iff,pml4Idx_val,pdptIdx_val,pdIdx_val]
  omega

/-- An entry made of an address and low bits. -/
theorem pageAddr_or (hf : f < pageLimit) (low : BitVec 64) (hlow : low &&& 0xFFF#64 = low) :
    (pageAddr f ||| low).toNat = f*4096+low.toNat%4096 := by
  rw [← pageAddr_mask f,← hlow,addr_parts,pageOf_pageAddr hf,hlow]

theorem pageAddr_or_bit (f : Nat) (low : BitVec 64) (hk : k < 12) :
    has (pageAddr f ||| low) (1#64 <<< k) = has low (1#64 <<< k) := by
  have hmask : ∀ k, k < 12 → pageMask.getLsbD k = false := by decide
  rw [has_bit _ k (by omega),has_bit _ k (by omega),BitVec.getLsbD_or,← pageAddr_mask f,
    BitVec.getLsbD_and,hmask k hk,Bool.and_false,Bool.false_or]

theorem kernelEntry_or (phys : BitVec 64) : kernelEntry phys = phys ||| 3#64 := by
  rw [kernelEntry,BitVec.or_assoc]
  rfl

theorem largeEntry_or (phys : BitVec 64) : largeEntry phys = phys ||| 0x83#64 := by
  rw [largeEntry,BitVec.or_assoc,BitVec.or_assoc]
  rfl

theorem pageOf_kernelEntry (hf : f < frameLimit) : pageOf (kernelEntry (pageAddr f)) = f := by
  rw [kernelEntry_or,pageOf,pageAddr_or (lt_of_lt_of_le hf frameLimit_le) 3#64 (by decide)]
  have : (3#64).toNat = 3 := rfl
  omega

/-- A new table's entry is present and writable, not huge. -/
theorem kernelEntry_flags (f : Nat) : present (kernelEntry (pageAddr f)) = true ∧
    has (kernelEntry (pageAddr f)) vmmWrite = true ∧
    has (kernelEntry (pageAddr f)) vmmHuge = false := by
  rw [kernelEntry_or,present,vmmPresent,vmmWrite,vmmHuge,pageAddr_or_bit f 3#64 (by omega),
    pageAddr_or_bit f 3#64 (by omega),pageAddr_or_bit f 3#64 (by omega)]
  decide

theorem largeEntry_flags (f : Nat) : present (largeEntry (pageAddr f)) = true ∧
    has (largeEntry (pageAddr f)) vmmWrite = true ∧
    has (largeEntry (pageAddr f)) vmmHuge = true := by
  rw [largeEntry_or,present,vmmPresent,vmmWrite,vmmHuge,pageAddr_or_bit f 0x83#64 (by omega),
    pageAddr_or_bit f 0x83#64 (by omega),pageAddr_or_bit f 0x83#64 (by omega)]
  decide

theorem framePage_kernelEntry (hf : f < frameLimit) : framePage (kernelEntry (pageAddr f)) = f := by
  rw [framePage_eq,pageOf_kernelEntry hf,Nat.mod_eq_of_lt hf]

theorem tblNode_kernelEntry (hf : f < frameLimit) :
    tblNode (kernelEntry (pageAddr f)) = some f := by
  rw [tblNode_table (kernelEntry_flags f).1 (kernelEntry_flags f).2.2,framePage_kernelEntry hf]

theorem framePage_largeEntry (hf : f < frameLimit) : framePage (largeEntry (pageAddr f)) = f := by
  have hpage : pageOf (largeEntry (pageAddr f)) = f := by
    rw [largeEntry_or,pageOf,pageAddr_or (lt_of_lt_of_le hf frameLimit_le) 0x83#64 (by decide)]
    have : (0x83#64).toNat = 0x83 := rfl
    omega
  rw [framePage_eq,hpage,Nat.mod_eq_of_lt hf]

end

end KiNBOL
