import KiNBOL.Mm.VmmMap

namespace KiNBOL

/-! Page tables of any pagemap and any shape: large pages stand among the leaves, and the entries
above them are whatever the boot loader or the kernel wrote. -/

/-- The table an entry names, when it is present and no large page. -/
def tblNode (e : BitVec 64) : Option Nat :=
  if present e && !has e vmmHuge then some (framePage e) else none

/-- The entry in slot `i` of the table at path `p`, zero where there is no table. -/
def tblAt (mem : PhysMem) (pm : Nat) (p : List (Fin 512)) (i : Fin 512) : BitVec 64 :=
  (slotAt tblNode mem pm p i).getD 0#64

/-- What the processor makes of the entries on the way to an address. -/
def treeWalk (entry : List (Fin 512) → Fin 512 → BitVec 64) (va : BitVec 64) : Option Xlat :=
  let e1 := entry [] (pml4Idx va)
  if !present e1 then none
  else
    let e2 := entry [pml4Idx va] (pdptIdx va)
    if !present e2 then none
    else if has e2 vmmHuge then
      some (xlat (framePage e2/2^18*2^18+pageOf va%2^18) [e1,e2])
    else
      let e3 := entry [pml4Idx va,pdptIdx va] (pdIdx va)
      if !present e3 then none
      else if has e3 vmmHuge then
        some (xlat (framePage e3/2^9*2^9+pageOf va%2^9) [e1,e2,e3])
      else
        let e4 := entry (tablePath va) (ptIdx va)
        if !present e4 then none else some (xlat (framePage e4) [e1,e2,e3,e4])

/-- The tables at the paths `A` under a pagemap: no table in two places, none of them free. -/
structure Tables (A : List (Fin 512) → Prop) (pm : Nat) (m : Machine) : Prop where
  forest : Forest tblNode A (· = pm) m.mem
  held : ∀ p n, A p → follow tblNode m.mem pm p = some n → ¬m.pmm.Free n
  limit : m.pmm.totalPages ≤ frameLimit

variable {A : List (Fin 512) → Prop} {pm n f : Nat} {m : Machine} {mem : PhysMem}
  {p q : List (Fin 512)} {i : Fin 512} {e va : BitVec 64}

theorem tblNode_eq_some (h : tblNode e = some f) :
    present e = true ∧ has e vmmHuge = false ∧ framePage e = f := by
  unfold tblNode at h
  split at h
  · next hc =>
    rw [Bool.and_eq_true,Bool.not_eq_true'] at hc
    exact ⟨hc.1,hc.2,by simpa using h⟩
  · simp at h

theorem tblNode_table (hp : present e = true) (hh : has e vmmHuge = false) :
    tblNode e = some (framePage e) := by
  rw [tblNode,hp,hh]
  rfl

theorem tblNode_absent (h : present e = false) : tblNode e = none := by
  rw [tblNode,h]
  rfl

theorem tblNode_huge (h : has e vmmHuge = true) : tblNode e = none := by
  rw [tblNode,h,Bool.not_true,Bool.and_false]
  rfl

@[simp] theorem tblNode_zero : tblNode 0#64 = none := by decide

theorem tblAt_table (h : follow tblNode mem pm p = some n) (i : Fin 512) :
    tblAt mem pm p i = mem n i := by
  rw [tblAt,slotAt,h]
  rfl

theorem tblAt_missing (h : follow tblNode mem pm p = none) (i : Fin 512) :
    tblAt mem pm p i = 0#64 := by
  rw [tblAt,slotAt,h]
  rfl

theorem follow_tblAt (mem : PhysMem) (pm : Nat) (p : List (Fin 512)) (i : Fin 512) :
    follow tblNode mem pm (p++[i]) = tblNode (tblAt mem pm p i) := by
  rw [follow_slotAt,tblAt]
  cases slotAt tblNode mem pm p i with
  | none => simp
  | some e => rfl

/-- The walk reads the entries of the tree; bit 7 of a PML4 entry is reserved. -/
theorem hwWalk_tree (htop : present (mem pm (pml4Idx va)) = true →
      has (mem pm (pml4Idx va)) vmmHuge = false) :
    hwWalk mem pm va = treeWalk (tblAt mem pm) va := by
  have h1 : tblAt mem pm [] (pml4Idx va) = mem pm (pml4Idx va) := rfl
  unfold hwWalk treeWalk
  rw [h1]
  cases p1 : present (mem pm (pml4Idx va)) with
  | false => simp only [p1,Bool.not_false,if_true]
  | true =>
    have f1 : follow tblNode mem pm [pml4Idx va] = some (framePage (mem pm (pml4Idx va))) := by
      rw [follow_cons,tblNode_table p1 (htop p1)]
      rfl
    have h2 := tblAt_table f1 (pdptIdx va)
    simp only [p1,Bool.not_true,Bool.false_eq_true,if_false,h2]
    generalize mem (framePage (mem pm (pml4Idx va))) (pdptIdx va) = e2 at *
    cases p2 : present e2 with
    | false => simp only [Bool.not_false,if_true]
    | true =>
      cases g2 : has e2 vmmHuge with
      | true => simp only [Bool.not_true,Bool.false_eq_true,if_false,if_true]
      | false =>
        have f2 : follow tblNode mem pm [pml4Idx va,pdptIdx va] = some (framePage e2) :=
          (follow_tblAt mem pm [pml4Idx va] (pdptIdx va)).trans (by rw [h2,tblNode_table p2 g2])
        have h3 := tblAt_table f2 (pdIdx va)
        simp only [Bool.not_true,Bool.false_eq_true,if_false,h3]
        generalize mem (framePage e2) (pdIdx va) = e3 at *
        cases p3 : present e3 with
        | false => simp only [Bool.not_false,if_true]
        | true =>
          cases g3 : has e3 vmmHuge with
          | true => simp only [Bool.not_true,Bool.false_eq_true,if_false,if_true]
          | false =>
            have f3 : follow tblNode mem pm (tablePath va) = some (framePage e3) :=
              (follow_tblAt mem pm [pml4Idx va,pdptIdx va] (pdIdx va)).trans
                (by rw [h3,tblNode_table p3 g3])
            simp only [Bool.not_true,Bool.false_eq_true,if_false,tblAt_table f3 (ptIdx va)]

/-- Hanging a cleared page, just taken, into a slot that names no table. -/
theorem Tables.create {pmm : Pmm} (h : Tables A pm m) (hp : A (p++[i]))
    (hn : follow tblNode m.mem pm p = some n) (hempty : tblNode (m.mem n i) = none)
    (ht : Pmm.Takes m.pmm pmm f 1) (he : tblNode e = some f) :
    Tables A pm { m with pmm := pmm, mem := setSlot (zeroPage m.mem f) n i e } ∧
    (∀ q, A q → follow tblNode (setSlot (zeroPage m.mem f) n i e) pm q =
      if q = p++[i] then some f else follow tblNode m.mem pm q) ∧
    (∀ q j, A q → tblAt (setSlot (zeroPage m.mem f) n i e) pm q j =
      if q = p ∧ j = i then e else tblAt m.mem pm q j) ∧
    ∀ x y, setSlot (zeroPage m.mem f) n i e x y ≠ m.mem x y → x = n ∨ x = f := by
  obtain ⟨hfree,hheld,hbits⟩ := takes_one ht
  have hpp : A p := h.forest.closed p [i] hp
  have hnode : ∀ q k, A q → follow tblNode m.mem pm q = some k → k ≠ f :=
    fun q k hq hk hkf => h.held q k hq hk (hkf ▸ hfree)
  have hslots : ∀ r q j k, r = pm → A (q++[j]) → follow tblNode m.mem r q = some k →
      zeroPage m.mem f k j = m.mem k j := by
    intro r q j k hr hq hk
    rw [zeroPage_other (hnode q k (h.forest.closed q [j] hq) (hr ▸ hk))]
  have hfol : ∀ q, A q → follow tblNode (zeroPage m.mem f) pm q = follow tblNode m.mem pm q :=
    fun q hq => follow_congr h.forest hslots pm q rfl hq
  have hforest : Forest tblNode A (· = pm) (zeroPage m.mem f) :=
    h.forest.mono (fun r q k hr hq hk => by
      subst hr
      rw [← hfol q hq]
      exact hk)
  have hn' : follow tblNode (zeroPage m.mem f) pm p = some n := (hfol p hpp).trans hn
  have hnf : f ≠ n := fun hh => hnode p n hpp hn hh.symm
  have hempty' : tblNode (zeroPage m.mem f n i) = none := by
    rw [zeroPage_other hnf.symm]
    exact hempty
  have hrep := hforest.repath_create rfl hpp hn' hempty' he hnf
    (fun j => by rw [zeroPage_self,tblNode_zero])
  have hfol' : ∀ q, A q → follow tblNode (setSlot (zeroPage m.mem f) n i e) pm q =
      if q = p++[i] then some f else follow tblNode m.mem pm q := by
    intro q hq
    split
    · next hs => exact (hrep pm q rfl hq).1 ⟨rfl,hs⟩
    · next hs =>
      rw [(hrep pm q rfl hq).2 (fun hh => hs hh.2)]
      exact hfol q hq
  refine ⟨⟨hforest.repath hrep (fun g hg hnodeg => ?_),fun q k hq hk => ?_,ht.total.le.trans h.limit⟩,
    hfol',fun q j hq => ?_,fun x y hne => ?_⟩
  · rw [Option.some.injEq] at hg
    obtain ⟨r,q,hr,hq,hk⟩ := hnodeg
    subst hr
    rw [hfol q hq] at hk
    exact hnode q g hq hk hg.symm
  · rw [hfol' q hq] at hk
    intro hkf
    split at hk
    · rw [Option.some.injEq] at hk
      exact hheld.not_free (hk ▸ hkf)
    · exact h.held q k hq hk ((ht.free_iff k).mp hkf).1
  · have hs := hforest.slotAt_create rfl hpp hn' hempty' he hnf tblNode_zero (zeroPage_self m.mem f)
      pm q j rfl hq
    rw [tblAt,hs]
    have hold : (slotAt tblNode (zeroPage m.mem f) pm q j).getD 0#64 = tblAt m.mem pm q j := by
      rw [tblAt,slotAt,slotAt,hfol q hq]
      cases hk : follow tblNode m.mem pm q with
      | none => rfl
      | some k =>
        rw [Option.map_some,Option.map_some,zeroPage_other (hnode q k hq hk)]
    rw [hold]
    simp only [true_and]
  · by_contra hno
    rw [not_or] at hno
    rw [setSlot_other (fun hh => hno.1 hh.1),zeroPage_other hno.2] at hne
    exact hne rfl

/-- Writing an entry that is no table: the slot has it, and nothing hangs under it. -/
theorem Tables.set (h : Tables A pm m) (hp : A p) (hn : follow tblNode m.mem pm p = some n)
    (he : A (p++[i]) → tblNode e = none) :
    Tables A pm { m with mem := setSlot m.mem n i e } ∧
    (∀ q, A q → follow tblNode (setSlot m.mem n i e) pm q =
      if p++[i] <+: q then none else follow tblNode m.mem pm q) ∧
    ∀ q j, A q → tblAt (setSlot m.mem n i e) pm q j =
      if q = p ∧ j = i then e else if p++[i] <+: q then 0#64 else tblAt m.mem pm q j := by
  have hfol : ∀ q, A q → follow tblNode (setSlot m.mem n i e) pm q =
      if p++[i] <+: q then none else follow tblNode m.mem pm q := by
    intro q hq
    split
    · next hs =>
      obtain ⟨t,rfl⟩ := hs
      rw [follow_append,h.forest.follow_setSlot_self rfl hp hn,he (h.forest.closed _ t hq)]
      rfl
    · next hs => exact h.forest.follow_setSlot_other rfl hp hn pm q rfl hq (fun hh => hs hh.2)
  refine ⟨⟨h.forest.mono (fun r q k hr hq hk => ?_),fun q k hq hk => ?_,h.limit⟩,hfol,fun q j hq => ?_⟩
  · subst hr
    rw [hfol q hq] at hk
    split at hk
    · simp at hk
    · exact hk
  · rw [hfol q hq] at hk
    split at hk
    · simp at hk
    · exact h.held q k hq hk
  · by_cases hs : p++[i] <+: q
    · have hne : ¬(q = p ∧ j = i) := by
        intro hh
        have hlen := hs.length_le
        rw [hh.1,List.length_append,List.length_singleton] at hlen
        omega
      rw [if_neg hne,if_pos hs]
      exact tblAt_missing ((hfol q hq).trans (if_pos hs)) j
    · rw [if_neg hs,tblAt,h.forest.slotAt_setSlot rfl hp hn pm q j rfl hq (fun hh => hs hh.2)]
      simp only [true_and]
      split
      · rfl
      · rfl

end KiNBOL
