import KiNBOL.Mm.HwWalk

namespace KiNBOL

/-- Paths in user tables: a PML4 slot below 256, then up to three more levels. -/
def LowerPath (p : List (Fin 512)) : Prop := p.length ≤ 4 ∧ ∀ i ∈ p.head?, i.val < 256

theorem lowerPath_nil : LowerPath [] := ⟨by simp,by simp⟩

theorem LowerPath.left {p q : List (Fin 512)} (h : LowerPath (p++q)) : LowerPath p := by
  have hlen := h.1
  rw [List.length_append] at hlen
  refine ⟨by omega,fun i hi => h.2 i ?_⟩
  cases p with
  | nil => simp at hi
  | cons j p => simpa using hi

theorem LowerPath.snoc {p : List (Fin 512)} {i j : Fin 512} (h : LowerPath (p++[i]))
    (hlen : p.length < 3) : LowerPath (p++[i]++[j]) := by
  refine ⟨by simp only [List.length_append,List.length_singleton]; omega,fun k hk => h.2 k ?_⟩
  cases p <;> simpa using hk

/-- The slots of an address above its page-table slot. -/
def tablePath (va : BitVec 64) : List (Fin 512) := [pml4Idx va,pdptIdx va,pdIdx va]

/-- The address whose slots are `a`, `b`, `c`, `d`. -/
def vaOf (a b c d : Fin 512) : BitVec 64 :=
  BitVec.ofNat 64 (a.val*2^39+b.val*2^30+c.val*2^21+d.val*2^12)

theorem vaOf_spec {a b c d : Fin 512} (ha : a.val < 256) :
    LowerHalf (vaOf a b c d) ∧ tablePath (vaOf a b c d) = [a,b,c] ∧ ptIdx (vaOf a b c d) = d := by
  have hb := b.isLt
  have hc := c.isLt
  have hd := d.isLt
  have hval : (vaOf a b c d).toNat = a.val*2^39+b.val*2^30+c.val*2^21+d.val*2^12 := by
    rw [vaOf,BitVec.toNat_ofNat]
    omega
  have h1 : pml4Idx (vaOf a b c d) = a := Fin.ext (by rw [pml4Idx_val,hval]; omega)
  have h2 : pdptIdx (vaOf a b c d) = b := Fin.ext (by rw [pdptIdx_val,hval]; omega)
  have h3 : pdIdx (vaOf a b c d) = c := Fin.ext (by rw [pdIdx_val,hval]; omega)
  have h4 : ptIdx (vaOf a b c d) = d := Fin.ext (by rw [ptIdx_val,hval]; omega)
  refine ⟨?_,by rw [tablePath,h1,h2,h3],h4⟩
  simp only [LowerHalf,hval]
  omega

theorem lowerPath_va {va : BitVec 64} (h : LowerHalf va) : LowerPath (tablePath va++[ptIdx va]) := by
  refine ⟨by simp [tablePath],fun i hi => ?_⟩
  simp only [tablePath,List.cons_append,List.head?_cons,Option.mem_some_iff] at hi
  rw [← hi]
  exact pml4Idx_lower h

/-- Two addresses with one page-table slot. -/
def SameLeaf (va w : BitVec 64) : Prop := tablePath w = tablePath va ∧ ptIdx w = ptIdx va

instance (va w : BitVec 64) : Decidable (SameLeaf va w) := inferInstanceAs (Decidable (_ ∧ _))

/-- Lower-half addresses share a page-table slot when they lie on one page. -/
theorem sameLeaf_iff {va w : BitVec 64} (hva : LowerHalf va) (hw : LowerHalf w) :
    SameLeaf va w ↔ va.toNat/4096 = w.toNat/4096 := by
  simp only [LowerHalf] at hva hw
  simp only [SameLeaf,tablePath,List.cons.injEq,and_true,Fin.ext_iff,pml4Idx_val,pdptIdx_val,
    pdIdx_val,ptIdx_val]
  omega

/-- Tables and mapped frames of the lower halves of some pagemaps. -/
abbrev UserNode (roots : Nat → Prop) (mem : PhysMem) : Nat → Prop :=
  ForestNode entryNode LowerPath roots mem

/-- The entry in a slot, zero where there is no table. -/
def entryAt (mem : PhysMem) (r : Nat) (p : List (Fin 512)) (i : Fin 512) : BitVec 64 :=
  (slotAt entryNode mem r p i).getD 0#64

/-- Slot `i` of page `n` is an entry of the lower-half tables of pagemap `r`. -/
def TableSlot (mem : PhysMem) (r n : Nat) (i : Fin 512) : Prop :=
  ∃ p, LowerPath (p++[i]) ∧ follow entryNode mem r p = some n

/-- The page-table entry of an address. -/
def leafWord (mem : PhysMem) (r : Nat) (va : BitVec 64) : BitVec 64 :=
  entryAt mem r (tablePath va) (ptIdx va)

theorem TableSlot.node {roots : Nat → Prop} {mem : PhysMem} {r n : Nat} {i : Fin 512}
    (h : TableSlot mem r n i) (hr : roots r) : UserNode roots mem n := by
  obtain ⟨p,hp,hn⟩ := h
  exact ⟨r,p,hr,hp.left,hn⟩

@[simp] theorem present_zero : present 0#64 = false := by decide

@[simp] theorem entryNode_zero : entryNode 0#64 = none := by decide

theorem entryNode_eq_some {e : BitVec 64} {f : Nat} (h : entryNode e = some f) :
    present e = true ∧ framePage e = f := by
  unfold entryNode at h
  split at h
  · exact ⟨by assumption,by simpa using h⟩
  · simp at h

theorem entryNode_present {e : BitVec 64} (h : present e = true) :
    entryNode e = some (framePage e) := if_pos h

theorem entryNode_absent {e : BitVec 64} (h : present e = false) : entryNode e = none :=
  if_neg (by simpa [present] using h)

theorem follow_entryAt (mem : PhysMem) (r : Nat) (p : List (Fin 512)) (i : Fin 512) :
    follow entryNode mem r (p++[i]) = entryNode (entryAt mem r p i) := by
  rw [follow_slotAt,entryAt]
  cases slotAt entryNode mem r p i with
  | none => simp
  | some e => rfl

theorem entryAt_table {mem : PhysMem} {r n : Nat} {p : List (Fin 512)}
    (h : follow entryNode mem r p = some n) (i : Fin 512) : entryAt mem r p i = mem n i := by
  rw [entryAt,slotAt,h]
  rfl

/-- Where an entry is present there is a table. -/
theorem table_of_present {mem : PhysMem} {r : Nat} {p : List (Fin 512)} {i : Fin 512}
    (h : present (entryAt mem r p i) = true) :
    ∃ n, follow entryNode mem r p = some n ∧ entryAt mem r p i = mem n i := by
  cases hn : follow entryNode mem r p with
  | none => simp [entryAt,slotAt,hn] at h
  | some n => exact ⟨n,rfl,entryAt_table hn i⟩

/-- Paths of tables: at most three slots, the first of the lower half. -/
def TablePath (p : List (Fin 512)) : Prop := p.length ≤ 3 ∧ ∀ i ∈ p.head?, i.val < 256

theorem TablePath.lower {p : List (Fin 512)} (h : TablePath p) : LowerPath p :=
  ⟨h.1.trans (by omega),h.2⟩

theorem TablePath.left {p q : List (Fin 512)} (h : TablePath (p++q)) : TablePath p := by
  have hlen := h.1
  rw [List.length_append] at hlen
  exact ⟨by omega,h.lower.left.2⟩

theorem tablePath_closed (p q : List (Fin 512)) (h : TablePath (p++q)) : TablePath p := h.left

theorem TablePath.short {p : List (Fin 512)} {i : Fin 512} (h : TablePath (p++[i])) :
    p.length < 3 := by
  have hlen := h.1
  rw [List.length_append,List.length_singleton] at hlen
  omega

theorem LowerPath.table {p : List (Fin 512)} {i : Fin 512} (h : LowerPath (p++[i]))
    (hlen : p.length < 3) : TablePath (p++[i]) :=
  ⟨by rw [List.length_append,List.length_singleton]; omega,h.2⟩

theorem tablePath_va {va : BitVec 64} (h : LowerHalf va) : TablePath (tablePath va) :=
  ⟨by simp [tablePath],(lowerPath_va h).left.2⟩

/-- Well-formed tables of lower halves, whatever the pages they map: entries as `get_or_create`
writes them and the processor marks them, no table in two places. -/
structure TableTree (roots : Nat → Prop) (mem : PhysMem) : Prop where
  forest : Forest entryNode TablePath roots mem
  mid : ∀ r p i, roots r → TablePath (p++[i]) → present (entryAt mem r p i) = true →
    ∃ f, TableWord f (entryAt mem r p i)

variable {roots : Nat → Prop} {mem mem' : PhysMem} {r : Nat} {va : BitVec 64}

/-- One level of a walk through a table. -/
theorem TableTree.step (h : TableTree roots mem) (hr : roots r) {p : List (Fin 512)}
    {i : Fin 512} {n : Nat} (hp : TablePath (p++[i]))
    (hn : follow entryNode mem r p = some n) :
    (∃ f, TableWord f (mem n i) ∧ follow entryNode mem r (p++[i]) = some f) ∨
    (present (mem n i) = false ∧ follow entryNode mem r (p++[i]) = none) := by
  have he := entryAt_table hn i
  rw [follow_entryAt,he]
  cases hpres : present (mem n i) with
  | false => exact Or.inr ⟨rfl,entryNode_absent hpres⟩
  | true =>
    obtain ⟨f,hf⟩ := h.mid r p i hr hp (he.symm ▸ hpres)
    rw [he] at hf
    exact Or.inl ⟨f,hf,hf.entryNode⟩

theorem TableWord.isPresent {f : Nat} {e : BitVec 64} (h : TableWord f e) :
    KiNBOL.present e = true :=
  h.present

theorem TableWord.presentUser {f : Nat} {e : BitVec 64} (h : TableWord f e) :
    presentUser e = true := by
  simp [KiNBOL.presentUser,h.present,h.user]

/-- The software descent finds the page table of a lower-half address. -/
theorem TableTree.ptSlot_lower (h : TableTree roots mem) (hr : roots r) (hva : LowerHalf va)
    (ok : BitVec 64 → Bool) (hok : ∀ e, present e = false → ok e = false)
    (htab : ∀ f e, TableWord f e → ok e = true) :
    ptSlot ok mem r va = (follow entryNode mem r (tablePath va)).map (fun pt => (pt,ptIdx va)) := by
  have h3 : TablePath ([pml4Idx va,pdptIdx va]++[pdIdx va]) := tablePath_va hva
  have h2 : TablePath ([pml4Idx va]++[pdptIdx va]) := h3.left
  have h1 : TablePath ([]++[pml4Idx va]) := h2.left
  have hpath : tablePath va = [pml4Idx va,pdptIdx va]++[pdIdx va] := rfl
  have absent : ∀ q q', follow entryNode mem r q = none →
      follow entryNode mem r (q++q') = none := by
    intro q q' hq
    rw [follow_append,hq]
    rfl
  unfold ptSlot
  cases h.step hr h1 rfl with
  | inr hno =>
    rw [hok _ hno.1,if_neg (by simp)]
    have hn : follow entryNode mem r (tablePath va) = none := absent _ [pdptIdx va,pdIdx va] hno.2
    rw [hn]
    rfl
  | inl hyes =>
    obtain ⟨f1,he1,hn1⟩ := hyes
    rw [if_pos (htab f1 _ he1)]
    simp only [pageOf_pageMask,he1.page]
    cases h.step hr h2 hn1 with
    | inr hno =>
      rw [hok _ hno.1,if_neg (by simp)]
      have hn : follow entryNode mem r (tablePath va) = none := absent _ [pdIdx va] hno.2
      rw [hn]
      rfl
    | inl hyes =>
      obtain ⟨f2,he2,hn2⟩ := hyes
      rw [if_pos (htab f2 _ he2)]
      simp only [he2.page]
      cases h.step hr h3 hn2 with
      | inr hno =>
        rw [hok _ hno.1,if_neg (by simp),hpath,hno.2]
        rfl
      | inl hyes =>
        obtain ⟨f3,he3,hn3⟩ := hyes
        rw [if_pos (htab f3 _ he3),he3.page,hpath,hn3]
        rfl

theorem TableTree.ptSlot_present (h : TableTree roots mem) (hr : roots r)
    (hva : LowerHalf va) : ptSlot present mem r va =
      (follow entryNode mem r (tablePath va)).map (fun pt => (pt,ptIdx va)) :=
  h.ptSlot_lower hr hva present (fun _ he => he) (fun _ _ hf => hf.isPresent)

theorem TableTree.ptSlot_presentUser (h : TableTree roots mem) (hr : roots r)
    (hva : LowerHalf va) : ptSlot presentUser mem r va =
      (follow entryNode mem r (tablePath va)).map (fun pt => (pt,ptIdx va)) := by
  apply h.ptSlot_lower hr hva presentUser
  · intro e he
    simp only [present] at he
    simp [presentUser,he]
  · exact fun _ _ hf => hf.presentUser

/-- What the processor reads off a page-table entry under user tables. -/
def leafXlat (e : BitVec 64) : Option Xlat :=
  if present e then some ⟨framePage e,has e vmmWrite,has e vmmUser,has e vmmNx⟩ else none

/-- The processor's walk of a lower-half address is decided by its page-table entry. -/
theorem TableTree.hwWalk_lower (h : TableTree roots mem) (hr : roots r) (hva : LowerHalf va) :
    hwWalk mem r va = leafXlat (leafWord mem r va) := by
  have h3 : TablePath ([pml4Idx va,pdptIdx va]++[pdIdx va]) := tablePath_va hva
  have h2 : TablePath ([pml4Idx va]++[pdptIdx va]) := h3.left
  have h1 : TablePath ([]++[pml4Idx va]) := h2.left
  have nowhere : follow entryNode mem r (tablePath va) = none →
      leafXlat (leafWord mem r va) = none := by
    intro hn
    rw [leafWord,entryAt,slotAt,hn]
    simp [leafXlat]
  have absent : ∀ q q', follow entryNode mem r q = none →
      follow entryNode mem r (q++q') = none := by
    intro q q' hq
    rw [follow_append,hq]
    rfl
  unfold hwWalk
  dsimp only
  cases h.step hr h1 rfl with
  | inr hno =>
    rw [hno.1,nowhere (absent _ [pdptIdx va,pdIdx va] hno.2)]
    rfl
  | inl hyes =>
    obtain ⟨f1,he1,hn1⟩ := hyes
    rw [he1.isPresent,he1.framePage,if_neg (by simp)]
    cases h.step hr h2 hn1 with
    | inr hno =>
      rw [hno.1,nowhere (absent _ [pdIdx va] hno.2)]
      rfl
    | inl hyes =>
      obtain ⟨f2,he2,hn2⟩ := hyes
      rw [he2.isPresent,he2.framePage,he2.huge,if_neg (by simp),if_neg (by simp)]
      cases h.step hr h3 hn2 with
      | inr hno =>
        rw [hno.1,nowhere hno.2]
        rfl
      | inl hyes =>
        obtain ⟨f3,he3,hn3⟩ := hyes
        have hleaf : leafWord mem r va = mem f3 (ptIdx va) := entryAt_table hn3 (ptIdx va)
        rw [he3.isPresent,he3.framePage,he3.huge,if_neg (by simp),if_neg (by simp),hleaf,leafXlat]
        cases hp4 : present (mem f3 (ptIdx va)) with
        | false => rfl
        | true =>
          simp [xlat,he1.write,he1.user,he1.nx,he2.write,he2.user,he2.nx,he3.write,he3.user,
            he3.nx]

end KiNBOL
