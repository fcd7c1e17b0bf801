import KiNBOL.Mm.VmmMap

namespace KiNBOL

/-! The accessed and dirty bits, which the processor sets in the entries that it goes through. -/

/-- Bits 5 and, for a page that is written, 6. -/
def markBits (dirty : Bool) : BitVec 64 := if dirty then 0x60#64 else 0x20#64

def markWord (e : BitVec 64) (dirty : Bool) : BitVec 64 := e ||| markBits dirty

def markSlot (mem : PhysMem) (n : Nat) (i : Fin 512) (dirty : Bool) : PhysMem :=
  setSlot mem n i (markWord (mem n i) dirty)

/-- No walk tells two entries apart. -/
structure SameWord (e e' : BitVec 64) : Prop where
  page : pageOf e' = pageOf e
  present : present e' = present e
  write : has e' vmmWrite = has e vmmWrite
  user : has e' vmmUser = has e vmmUser
  huge : has e' vmmHuge = has e vmmHuge
  nx : has e' vmmNx = has e vmmNx

variable {roots : Nat → Prop} {mem mem' : PhysMem} {m : Machine} {r n : Nat} {i : Fin 512}
  {e e' : BitVec 64} {dirty : Bool}

namespace SameWord

theorem refl (e : BitVec 64) : SameWord e e := ⟨rfl,rfl,rfl,rfl,rfl,rfl⟩

theorem framePage (h : SameWord e e') : framePage e' = framePage e := by
  rw [framePage_eq,framePage_eq,h.page]

theorem entryNode (h : SameWord e e') : entryNode e' = entryNode e := by
  have hp : has e' vmmPresent = has e vmmPresent := h.present
  rw [KiNBOL.entryNode,KiNBOL.entryNode,hp,h.framePage]

end SameWord

theorem TableWord.same {f : Nat} (h : TableWord f e) (hs : SameWord e e') : TableWord f e' where
  lt := h.lt
  page := hs.page.trans h.page
  present := hs.present.trans h.present
  write := hs.write.trans h.write
  user := hs.user.trans h.user
  huge := hs.huge.trans h.huge

theorem markWord_same (e : BitVec 64) (dirty : Bool) : SameWord e (markWord e dirty) := by
  have hshift : markBits dirty >>> 12 = 0#64 := by cases dirty <;> decide
  have hbit : ∀ k, (markBits dirty).getLsbD k = false →
      (markWord e dirty).getLsbD k = e.getLsbD k := by
    intro k hk
    rw [markWord,BitVec.getLsbD_or,hk,Bool.or_false]
  constructor
  · rw [pageOf_shift,pageOf_shift,markWord,BitVec.ushiftRight_or_distrib,hshift,BitVec.or_zero]
  · rw [present,present,has_present,has_present,hbit 0 (by cases dirty <;> decide)]
  · rw [has_write,has_write,hbit 1 (by cases dirty <;> decide)]
  · rw [has_user,has_user,hbit 2 (by cases dirty <;> decide)]
  · rw [has_huge,has_huge,hbit 7 (by cases dirty <;> decide)]
  · rw [has_nx,has_nx,hbit 63 (by cases dirty <;> decide)]

/-- A marked leaf is one whose flags have the marks. -/
theorem markWord_leaf (phys flags : BitVec 64) (dirty : Bool) :
    markWord (leafEntry phys flags) dirty = leafEntry phys (flags ||| markBits dirty) := by
  have hlow : markBits dirty &&& 0xFFF#64 = markBits dirty := by cases dirty <;> decide
  have hnx : markBits dirty &&& vmmNx = 0#64 := by cases dirty <;> decide
  have hdistrib : ∀ x : BitVec 64,
      (flags ||| markBits dirty) &&& x = flags &&& x ||| markBits dirty &&& x := by
    intro x
    apply BitVec.eq_of_getLsbD_eq
    intro i _
    simp only [BitVec.getLsbD_and,BitVec.getLsbD_or,Bool.and_or_distrib_right]
  rw [markWord,leafEntry,leafEntry,hdistrib,hdistrib,hlow,hnx,BitVec.or_zero]
  ac_rfl

theorem markSlot_same (mem : PhysMem) (n : Nat) (i : Fin 512) (dirty : Bool) (k : Nat)
    (j : Fin 512) : SameWord (mem k j) (markSlot mem n i dirty k j) := by
  by_cases hs : k = n ∧ j = i
  · rw [hs.1,hs.2,markSlot,setSlot_self]
    exact markWord_same _ _
  · rw [markSlot,setSlot_other hs]
    exact SameWord.refl _

/-- Walks do not see marks. -/
theorem hwWalk_same (h : ∀ k j, SameWord (mem k j) (mem' k j)) (r : Nat) (va : BitVec 64) :
    hwWalk mem' r va = hwWalk mem r va ∧ hwTables mem' r va = hwTables mem r va := by
  have hpresent := fun k j => (h k j).present
  have hframe := fun k j => (h k j).framePage
  have hhuge := fun k j => (h k j).huge
  have hxlat : ∀ k j, has (mem' k j) vmmWrite = has (mem k j) vmmWrite ∧
      has (mem' k j) vmmUser = has (mem k j) vmmUser ∧
      has (mem' k j) vmmNx = has (mem k j) vmmNx := fun k j => ⟨(h k j).write,(h k j).user,(h k j).nx⟩
  constructor
  · simp only [hwWalk,xlat,hpresent,hframe,hhuge,hxlat,List.all_cons,List.all_nil,List.any_cons,
      List.any_nil]
  · simp only [hwTables,hpresent,hframe,hhuge]

theorem translate_markSlot (mem : PhysMem) (n : Nat) (i : Fin 512) (dirty : Bool) (r : Nat)
    (va : BitVec 64) : translate (markSlot mem n i dirty) r va = translate mem r va := by
  rw [translate,translate,(hwWalk_same (markSlot_same mem n i dirty) r va).1]

theorem follow_markSlot (mem : PhysMem) (n : Nat) (i : Fin 512) (dirty : Bool) (r : Nat)
    (p : List (Fin 512)) :
    follow entryNode (markSlot mem n i dirty) r p = follow entryNode mem r p :=
  follow_setSlot_same (markWord_same _ _).entryNode r p

/-- An entry of a table is as before, or it is the one that is marked. -/
theorem entryAt_markSlot (mem : PhysMem) (n : Nat) (i : Fin 512) (dirty : Bool) (r : Nat)
    (p : List (Fin 512)) (j : Fin 512) :
    entryAt (markSlot mem n i dirty) r p j = entryAt mem r p j ∨
      entryAt (markSlot mem n i dirty) r p j = markWord (entryAt mem r p j) dirty := by
  cases hn : follow entryNode mem r p with
  | none =>
    left
    rw [entryAt,entryAt,slotAt,slotAt,follow_markSlot,hn]
    rfl
  | some k =>
    rw [entryAt_table hn,entryAt_table ((follow_markSlot mem n i dirty r p).trans hn)]
    by_cases hs : k = n ∧ j = i
    · right
      rw [hs.1,hs.2,markSlot,setSlot_self]
    · left
      rw [markSlot,setSlot_other hs]

/-- Marks leave well-formed tables well formed. -/
theorem UserTables.mark (h : UserTables roots mem) (n : Nat) (i : Fin 512) (dirty : Bool) :
    UserTables roots (markSlot mem n i dirty) where
  forest := h.forest.mono (fun r p k _ _ hk => follow_markSlot mem n i dirty r p ▸ hk)
  mid r p j hr hp hlen hpres := by
    rcases entryAt_markSlot mem n i dirty r p j with he | he
    · rw [he] at hpres ⊢
      exact h.mid r p j hr hp hlen hpres
    · have hsame := markWord_same (entryAt mem r p j) dirty
      rw [he,hsame.present] at hpres
      obtain ⟨f,hf⟩ := h.mid r p j hr hp hlen hpres
      rw [he]
      exact ⟨f,hf.same hsame⟩
  leaf r p j hr hp hlen hpres := by
    rcases entryAt_markSlot mem n i dirty r p j with he | he
    · rw [he] at hpres ⊢
      exact h.leaf r p j hr hp hlen hpres
    · have hsame := markWord_same (entryAt mem r p j) dirty
      rw [he,hsame.present] at hpres
      obtain ⟨f,flags,hf,hleaf⟩ := h.leaf r p j hr hp hlen hpres
      rw [he,hleaf,markWord_leaf]
      exact ⟨f,_,hf,rfl⟩

theorem userNode_markSlot (n : Nat) (i : Fin 512) (dirty : Bool) (k : Nat) :
    UserNode roots (markSlot mem n i dirty) k ↔ UserNode roots mem k := by
  simp only [UserNode,ForestNode,follow_markSlot]

theorem Owned.mark (h : Owned roots m) (n : Nat) (i : Fin 512) (dirty : Bool) :
    Owned roots { m with mem := markSlot m.mem n i dirty } :=
  ⟨h.tables.mark n i dirty,fun k hk => h.held k ((userNode_markSlot n i dirty k).mp hk),h.limit⟩

end KiNBOL
