import KiNBOL.Framework.ForestSweep
import KiNBOL.Mm.VmRun

namespace KiNBOL

variable {roots : Nat → Prop} {pm : Nat} {m m' : Machine} {mem : PhysMem}

/-- Every slot number of a table. -/
abbrev allSlots : List (Fin 512) := List.finRange 512

/-- The PML4 slots of the lower half. -/
def lowSlots : List (Fin 512) := allSlots.filter (fun i => i.val < 256)

/-- Pages given back for what hangs under a table, by the entries' own page numbers. -/
abbrev sweepPages (mem : PhysMem) : Nat → Nat → List Nat :=
  below entryNode pageOf mem allSlots

theorem entryNode_dec (e : BitVec 64) :
    entryNode e = if present e then some (framePage e) else none := rfl

theorem destroyPt_pages (mem : PhysMem) (pt : Nat) :
    (destroyPt mem pt).map pageOf = sweepPages mem 1 pt := by
  unfold destroyPt sweepPages below sweep below
  rw [List.map_flatMap]
  apply List.flatMap_congr
  intro l _
  rw [entryNode_dec]
  by_cases hp : present (mem pt l) = true
  · simp [hp]
  · simp [hp]

/-- The entries of a table above the last level, as the walk from a root meets them. -/
def TableRow (mem : PhysMem) (n : Nat) : Prop :=
  ∀ i, present (mem n i) = true → ∃ f, TableWord f (mem n i)

theorem destroyPd_pages {pd : Nat} (h : TableRow mem pd) :
    (destroyPd mem pd).map pageOf = sweepPages mem 2 pd := by
  rw [destroyPd,List.map_flatMap,sweepPages,below,sweep]
  apply List.flatMap_congr
  intro k _
  rw [entryNode_dec]
  cases hp : present (mem pd k) with
  | false => rfl
  | true =>
    obtain ⟨f,he⟩ := h k hp
    rw [he.huge,pageOf_pageMask,he.page,he.framePage]
    simp [destroyPt_pages,he.page]

theorem destroyPdpt_pages {pdpt : Nat} (h : TableRow mem pdpt)
    (hbelow : ∀ i f, entryNode (mem pdpt i) = some f → TableRow mem f) :
    (destroyPdpt mem pdpt).map pageOf = sweepPages mem 3 pdpt := by
  rw [destroyPdpt,List.map_flatMap,sweepPages,below,sweep]
  apply List.flatMap_congr
  intro j _
  rw [entryNode_dec]
  cases hp : present (mem pdpt j) with
  | false => rfl
  | true =>
    obtain ⟨f,he⟩ := h j hp
    have hrow : TableRow mem f := hbelow j f he.entryNode
    rw [pageOf_pageMask,he.page,he.framePage]
    simp [destroyPd_pages hrow,he.page]

/-- A node at most two levels down has a row of table entries. -/
theorem UserTables.row (h : UserTables roots mem) (hr : roots pm) {p : List (Fin 512)} {n : Nat}
    (hp : ∀ i, LowerPath (p++[i])) (hlen : p.length < 3)
    (hn : follow entryNode mem pm p = some n) : TableRow mem n := by
  intro i hpres
  cases h.step hr (hp i) hlen hn with
  | inl hyes =>
    obtain ⟨f,he,-⟩ := hyes
    exact ⟨f,he⟩
  | inr hno =>
    rw [hno.1] at hpres
    exact Bool.noConfusion hpres

/-- Below a lower PML4 slot every path of at most three slots is a lower path. -/
theorem lowerPath_cons {i : Fin 512} (hi : i.val < 256) {p : List (Fin 512)}
    (hlen : p.length ≤ 3) : LowerPath (i::p) := by
  refine ⟨by simp only [List.length_cons]; omega,fun j hj => ?_⟩
  simp only [List.head?_cons,Option.mem_some_iff] at hj
  exact hj ▸ hi

/-- Pages of the `pmm_free_page` calls of `vmm_destroy_pagemap`, in order. -/
theorem destroyFrees_pages (h : UserTables roots mem) (hr : roots pm) (hlim : pm < pageLimit) :
    (destroyFrees mem pm).map pageOf =
      sweep entryNode pageOf mem lowSlots (sweepPages mem 3) pm++[pm] := by
  rw [destroyFrees,List.map_append,List.map_singleton,pageOf_pageAddr hlim,List.map_flatMap]
  refine congrArg (fun l => l++[pm]) ?_
  have hfilter : ∀ g : Fin 512 → List Nat, lowSlots.flatMap g =
      allSlots.flatMap (fun i => if 256 ≤ i.val then [] else g i) := by
    intro g
    rw [lowSlots]
    generalize allSlots = l
    induction l with
    | nil => rfl
    | cons i l ih =>
      by_cases hi : i.val < 256
      · rw [List.filter_cons_of_pos (by simpa using hi),List.flatMap_cons,List.flatMap_cons,ih,
          if_neg (by omega)]
      · rw [List.filter_cons_of_neg (by simpa using hi),List.flatMap_cons,ih,if_pos (by omega)]
        rfl
  rw [sweep,hfilter]
  apply List.flatMap_congr
  intro i _
  by_cases hi : 256 ≤ i.val
  · rw [if_pos hi,if_pos hi]
    rfl
  · rw [if_neg hi,if_neg hi,entryNode_dec]
    have hlow : i.val < 256 := by omega
    cases hp : present (mem pm i) with
    | false => rfl
    | true =>
      cases h.step hr (p := []) (i := i) (lowerPath_cons hlow (by simp)) (by simp) rfl with
      | inr hno =>
        rw [hno.1] at hp
        exact Bool.noConfusion hp
      | inl hyes =>
        obtain ⟨f,he,hchild⟩ := hyes
        have hrow1 : TableRow mem f :=
          h.row hr (p := [i]) (fun j => lowerPath_cons hlow (by simp)) (by simp) hchild
        have hrow2 : ∀ j g, entryNode (mem f j) = some g → TableRow mem g := by
          intro j g hg
          have hn : follow entryNode mem pm ([i]++[j]) = some g := by
            rw [follow_snoc]
            rw [List.nil_append] at hchild
            rw [hchild]
            exact hg
          exact h.row hr (p := [i,j]) (fun k => lowerPath_cons hlow (by simp)) (by simp) hn
        rw [pageOf_pageMask,he.page,he.framePage]
        simp [destroyPdpt_pages hrow1 hrow2,he.page]

theorem mem_lowSlots (i : Fin 512) : i ∈ lowSlots ↔ i.val < 256 := by
  simp [lowSlots,allSlots]

theorem lowerPath_iff (i : Fin 512) (p : List (Fin 512)) :
    LowerPath (i::p) ↔ i ∈ lowSlots ∧ (p = [] ∨ Deep 3 p) := by
  rw [mem_lowSlots]
  constructor
  · intro h
    have hlen := h.1
    rw [List.length_cons] at hlen
    refine ⟨h.2 i (by simp),?_⟩
    cases p with
    | nil => exact Or.inl rfl
    | cons j p => exact Or.inr ⟨by simp,by omega⟩
  · intro h
    apply lowerPath_cons h.1
    cases h.2 with
    | inl hnil => simp [hnil]
    | inr hdeep => exact hdeep.2

theorem sweep_reports (mem : PhysMem) (pm : Nat) : Reports entryNode pageOf mem LowerPath pm
    (sweep entryNode pageOf mem lowSlots (sweepPages mem 3) pm) :=
  Reports.sweep lowerPath_iff (fun _ _ c _ => below_reports (by simp) 3 c)

/-- No page of the lower half is mapped no-execute. -/
def NoNxLeaf (mem : PhysMem) (pm : Nat) : Prop :=
  ∀ va x, LowerHalf va → translate mem pm va = some x → x.nx = false

/-- The leaf at a path of four slots. -/
theorem leafWord_vaOf {a b c d : Fin 512} (ha : a.val < 256) :
    leafWord mem pm (vaOf a b c d) = entryAt mem pm [a,b,c] d := by
  obtain ⟨-,h1,h2⟩ := vaOf_spec (b := b) (c := c) (d := d) ha
  rw [leafWord,h1,h2]

theorem noNxLeaf_iff (h : UserTables roots mem) (hr : roots pm) : NoNxLeaf mem pm ↔
    ∀ va, LowerHalf va → present (leafWord mem pm va) = true →
      has (leafWord mem pm va) vmmNx = false := by
  constructor
  · intro hno va hva hp
    have hx : translate mem pm va = some ⟨framePage (leafWord mem pm va),
        has (leafWord mem pm va) vmmWrite,has (leafWord mem pm va) vmmUser,
        has (leafWord mem pm va) vmmNx⟩ := by
      rw [translate,if_pos (Or.inl hva),h.hwWalk_lower hr hva,leafXlat,if_pos hp]
    exact hno va _ hva hx
  · intro hno va x hva hx
    rw [translate,if_pos (Or.inl hva),h.hwWalk_lower hr hva,leafXlat] at hx
    by_cases hp : present (leafWord mem pm va) = true
    · rw [if_pos hp,Option.some.injEq] at hx
      rw [← hx]
      exact hno va hva hp
    · rw [if_neg hp] at hx
      exact absurd hx (by simp)

/-- Without no-execute leaves every entry's own page number is that of its child. -/
theorem pageOf_child (h : UserTables roots mem) (hr : roots pm) (hno : NoNxLeaf mem pm) :
    ∀ p i e c, LowerPath (p++[i]) → slotAt entryNode mem pm p i = some e →
      entryNode e = some c → pageOf e = c := by
  intro p i e c hp he hc
  obtain ⟨hpres,hfr⟩ := entryNode_eq_some hc
  have hent : entryAt mem pm p i = e := by
    rw [entryAt,he]
    rfl
  have hle := hp.1
  rw [List.length_append,List.length_singleton] at hle
  by_cases hlen : p.length < 3
  · obtain ⟨f,hfe⟩ := h.mid pm p i hr hp hlen (hent ▸ hpres)
    rw [hent] at hfe
    rw [hfe.page,← hfr,hfe.framePage]
  · have hthree : p.length = 3 := by omega
    obtain ⟨f,flags,hf,hfe⟩ := h.leaf pm p i hr hp hthree (hent ▸ hpres)
    rw [hent] at hfe
    rw [hfe,framePage_leafEntry hf] at hfr
    have hnx : has flags vmmNx = false := by
      obtain ⟨a,b,d,rfl⟩ := List.length_eq_three.mp hthree
      have ha : a.val < 256 := hp.2 a (by simp)
      have hword : leafWord mem pm (vaOf a b d i) = entryAt mem pm [a,b,d] i := leafWord_vaOf ha
      have hleaf := (noNxLeaf_iff h hr).mp hno (vaOf a b d i) (vaOf_spec ha).1
        (by rw [hword,hent]; exact hpres)
      rw [hword,hent,hfe,(leafEntry_flags hf flags).2.2.2] at hleaf
      exact hleaf
    rw [hfe,pageOf_leafEntry hf,hnx,hfr]
    rfl

/-- The nodes of a pagemap: its PML4 and what lies at nonempty lower paths. -/
theorem userNode_iff (mem : PhysMem) (pm n : Nat) : UserNode (· = pm) mem n ↔
    n = pm ∨ ∃ p i, LowerPath (p++[i]) ∧ follow entryNode mem pm (p++[i]) = some n := by
  constructor
  · intro h
    obtain ⟨r,p,rfl,hp,hf⟩ := h
    cases p using List.reverseRecOn with
    | nil => exact Or.inl (by simpa using hf.symm)
    | append_singleton p i => exact Or.inr ⟨p,i,hp,hf⟩
  · intro h
    cases h with
    | inl he => exact ⟨pm,[],rfl,lowerPath_nil,by simp [he]⟩
    | inr hn =>
      obtain ⟨p,i,hp,hf⟩ := hn
      exact ⟨pm,p++[i],rfl,hp,hf⟩

/-- Without no-execute leaves the calls free every node of the pagemap exactly once. -/
theorem destroyFrees_exact (h : UserTables (· = pm) mem) (hlim : pm < pageLimit)
    (hno : NoNxLeaf mem pm) : ((destroyFrees mem pm).map pageOf).Nodup ∧
      ∀ n, n ∈ (destroyFrees mem pm).map pageOf ↔ UserNode (· = pm) mem n := by
  have hchild := pageOf_child h rfl hno
  have hnodes := (sweep_reports mem pm).nodes hchild
  rw [destroyFrees_pages h rfl hlim]
  constructor
  · refine List.nodup_append.mpr ⟨?_,List.nodup_singleton pm,?_⟩
    · have hslots : lowSlots.Nodup := (List.nodup_finRange 512).filter _
      have hlift : ∀ i c, entryNode (mem pm i) = some c → ∀ p x, follow entryNode mem c p = some x →
          follow entryNode mem pm (i::p) = some x := by
        intro i c hc p x hx
        rw [follow_cons,hc]
        exact hx
      have hbelow : ∀ i c, i ∈ lowSlots → entryNode (mem pm i) = some c → ∀ p j e c', Deep 3 (p++[j]) →
          slotAt entryNode mem c p j = some e → entryNode e = some c' → pageOf e = c' := by
        intro i c hi hc p j e c' hp he hd
        refine hchild (i::p) j e c' ((lowerPath_iff i (p++[j])).mpr ⟨hi,Or.inr hp⟩) ?_ hd
        rw [slotAt_cons,hc]
        exact he
      apply sweep_nodup hslots (B := LowerPath) (C := Deep 3) lowerPath_iff
      · intro i hi c hc
        exact hchild [] i (mem pm i) c ((lowerPath_iff i []).mpr ⟨hi,Or.inl rfl⟩) rfl hc
      · intro i hi c hc
        constructor
        · apply below_nodup (by simp) (List.nodup_finRange 512) 3 c (hbelow i c hi hc)
          intro p q x hp hq h1 h2
          exact (List.cons.inj (h.forest.unique pm pm (i::p) (i::q) x rfl rfl
            ((lowerPath_iff i p).mpr ⟨hi,Or.inr hp⟩) ((lowerPath_iff i q).mpr ⟨hi,Or.inr hq⟩)
            (hlift i c hc p x h1) (hlift i c hc q x h2)).2).2
        · intro x hx
          obtain ⟨p,j,hp,hf⟩ :=
            ((below_reports (by simp) 3 c).nodes (hbelow i c hi hc) x).mp hx
          exact ⟨p++[j],by simp,hp,hf⟩
      · exact fun p q x hp hq h1 h2 => (h.forest.unique pm pm p q x rfl rfl hp hq h1 h2).2
    · intro x hx y hy he
      rw [List.mem_singleton] at hy
      obtain ⟨p,i,hp,hf⟩ := (hnodes x).mp hx
      rw [he,hy] at hf
      have hnil := (h.forest.unique pm pm _ [] pm rfl rfl hp lowerPath_nil hf rfl).2
      simp at hnil
  · intro n
    rw [List.mem_append,List.mem_singleton,hnodes,userNode_iff,or_comm]

/-- A run of `pmm_free_page` calls lowers the bits of its pages below the limit. -/
theorem pmmFreeAll (l : List (BitVec 64)) (p : Pmm) :
    (l.foldl pmmFreePage p).totalPages = p.totalPages ∧
    (∀ n, (l.foldl pmmFreePage p).bmGet n = true ↔
      p.bmGet n = true ∧ ¬(n < p.totalPages ∧ n ∈ l.map pageOf)) ∧
    (p.Counted → (l.foldl pmmFreePage p).Counted) := by
  induction l generalizing p with
  | nil => exact ⟨rfl,fun n => by simp,id⟩
  | cons a l ih =>
    have hg := pmmFreePage_gives p a
    obtain ⟨h1,h2,h3⟩ := ih (pmmFreePage p a)
    refine ⟨h1.trans hg.total,fun n => ?_,fun hc => h3 (hg.counted hc)⟩
    rw [List.foldl_cons,h2 n,hg.total,hg.bits,Bool.and_eq_true,Bool.not_eq_true',
      decide_eq_false_iff_not,Pmm.mem_held,List.map_cons,List.mem_cons]
    constructor
    · intro h
      refine ⟨h.1.1,fun hh => ?_⟩
      cases hh.2 with
      | inl he => exact h.1.2 ⟨by omega,hh.1,h.1.1⟩
      | inr hm => exact h.2 ⟨hh.1,hm⟩
    · intro h
      refine ⟨⟨h.1,fun hh => h.2 ⟨hh.2.1,Or.inl (by omega)⟩⟩,fun hh => h.2 ⟨hh.1,Or.inr hh.2⟩⟩

/-- Equal bits are an equal bitmap. -/
theorem bitmap_ext {p q : Pmm} (h : ∀ n, p.bmGet n = true ↔ q.bmGet n = true) :
    p.bitmap = q.bitmap := by
  funext i
  apply BitVec.eq_of_getLsbD_eq
  intro j hj
  have hb : p.bmGet (8*i+j) = q.bmGet (8*i+j) := Bool.eq_iff_iff.mpr (h (8*i+j))
  rw [Pmm.bmGet_eq,Pmm.bmGet_eq,show (8*i+j)/8 = i by omega,show (8*i+j)%8 = j by omega] at hb
  exact hb

/-- One call on the lower half of a private pagemap: frames are fresh, pages are mapped once, a
page keeps its present flag and unmapping gives the frames back. -/
inductive PrivateStep (pm : Nat) : Machine → Machine → Prop
  | map {m : Machine} (virt flags : BitVec 64) (hva : LowerHalf virt)
      (hflags : has flags vmmPresent = true) (hnew : translate m.mem pm virt = none) :
      PrivateStep pm m (mapFresh m pm virt flags)
  | protect {m : Machine} (virt len flags : BitVec 64) (hl : LowerRange virt len)
      (hflags : has flags vmmPresent = true) :
      PrivateStep pm m (vmmProtect m (some pm) virt len flags).2
  | unmapRange {m : Machine} (virt len : BitVec 64) (hl : LowerRange virt len) :
      PrivateStep pm m (vmmUnmapRange m (some pm) virt len true)

/-- The books: what is allocated was allocated before the pagemap or is one of its nodes. -/
structure Ledger (m₀ : Machine) (pm : Nat) (m : Machine) : Prop where
  owned : Owned (· = pm) m
  bits : ∀ n, m.pmm.bmGet n = true ↔ m₀.pmm.bmGet n = true ∨ UserNode (· = pm) m.mem n
  fresh : ∀ n, UserNode (· = pm) m.mem n → m₀.pmm.bmGet n = false
  total : m.pmm.totalPages = m₀.pmm.totalPages
  counted : m.pmm.Counted
  cr3 : m.cr3 = m₀.cr3

theorem low_of_free {p : Pmm} {n : Nat} (h : p.Free n) : p.bmGet n = false := h.2

/-- One call keeps the books. -/
theorem PrivateStep.ledger {m₀ : Machine} (h : Ledger m₀ pm m) (hs : PrivateStep pm m m') :
    Ledger m₀ pm m' := by
  have hbase : ∀ n, m.pmm.Free n → m₀.pmm.bmGet n = false := by
    intro n hn
    cases hb : m₀.pmm.bmGet n with
    | false => rfl
    | true => exact ((low_of_free hn).symm.trans ((h.bits n).mpr (Or.inl hb))).symm
  cases hs with
  | map virt flags hva hflags hnew =>
    have hsp := mapFresh_spec h.owned rfl hva flags
    have hempty : ∀ f, entryNode (leafWord m.mem pm virt) ≠ some f := by
      intro f hf
      rw [translate,if_pos (Or.inl hva),h.owned.tables.hwWalk_lower rfl hva,leafXlat,
        if_pos (entryNode_eq_some hf).1] at hnew
      exact absurd hnew (by simp)
    obtain ⟨hbits,hkept⟩ := hsp.exact hflags hempty
    refine ⟨hsp.owned,fun n => ?_,fun n hn => ?_,hsp.total.trans h.total,hsp.counted h.counted,
      hsp.cr3.trans h.cr3⟩
    · rw [hbits n,h.bits n,or_assoc]
      constructor
      · intro hor
        cases hor with
        | inl hb => exact Or.inl hb
        | inr hor => exact Or.inr (hor.elim (hkept n) id)
      · intro hor
        cases hor with
        | inl hb => exact Or.inl hb
        | inr hn => exact Or.inr (Or.inr hn)
    · obtain ⟨r,p,hr,hp,hf⟩ := hn
      cases hsp.fresh r p n hr hp hf with
      | inl hold => exact h.fresh n ⟨r,p,hr,hp,hold⟩
      | inr hfree => exact hbase n hfree
  | protect virt len flags hl hflags =>
    obtain ⟨mem',hres,ho,htrim,hkeep⟩ := vmmProtect_trimmed h.owned rfl hl flags
    rw [hres]
    refine ⟨ho,fun n => ?_,fun n hn => h.fresh n (htrim.node hn),h.total,h.counted,h.cr3⟩
    have hiff : UserNode (· = pm) mem' n ↔ UserNode (· = pm) m.mem n :=
      ⟨htrim.node,hkeep hflags n⟩
    rw [hiff]
    exact h.bits n
  | unmapRange virt len hl =>
    have hu := vmmUnmapRange_unmaps h.owned rfl hl true
    refine ⟨hu.owned,fun n => ?_,fun n hn => h.fresh n (hu.trimmed.node hn),
      hu.total.trans h.total,hu.counted h.counted,hu.cr3.trans h.cr3⟩
    constructor
    · intro hb
      cases (h.bits n).mp (hu.bits n hb) with
      | inl hb₀ => exact Or.inl hb₀
      | inr hn =>
        right
        by_contra hout
        rw [hu.freed rfl n hn hout] at hb
        exact Bool.noConfusion hb
    · intro hor
      cases hor with
      | inr hn => exact (hu.owned.held n hn).2
      | inl hb₀ =>
        apply hu.kept n ((h.bits n).mpr (Or.inl hb₀))
        intro hn
        rw [h.fresh n hn] at hb₀
        exact Bool.noConfusion hb₀

/-- The books of a new pagemap. -/
theorem ledger_new {m₀ m₁ : Machine} (hcount : m₀.pmm.Counted)
    (hlim : m₀.pmm.totalPages ≤ frameLimit) (hnew : vmmCreatePagemap m₀ = (some pm,m₁)) :
    Ledger m₀ pm m₁ ∧ m₀.pmm.Free pm := by
  cases vmmCreatePagemap_cases (Owned.none m₀ hlim) with
  | inl hno =>
    rw [hno] at hnew
    simp at hnew
  | inr hyes =>
    obtain ⟨f,m',hres,hfree,htakes,hcr3,ho,hnodes,-⟩ := hyes
    rw [hres,Prod.mk.injEq,Option.some.injEq] at hnew
    obtain ⟨rfl,rfl⟩ := hnew
    have hone : (fun r => r = f ∨ False) = (· = f) := by
      funext r
      simp
    rw [hone] at ho hnodes
    obtain ⟨-,-,hbits⟩ := takes_one htakes
    have hnode : ∀ n, UserNode (· = f) m'.mem n ↔ n = f := by
      intro n
      rw [hnodes n]
      refine ⟨fun h => h.resolve_right (fun hn => ?_),Or.inl⟩
      obtain ⟨r,p,hr,-⟩ := hn
      exact hr
    refine ⟨⟨ho,fun n => by rw [hbits n,hnode n],fun n hn => ?_,htakes.total,htakes.counted hcount,
      hcr3⟩,hfree⟩
    rw [(hnode n).mp hn]
    exact hfree.2

/-- Everything of the pagemap was given back once, nothing else, and the PMM is as it was. -/
structure TornDown (m₀ m : Machine) (pm : Nat) : Prop where
  once : ((destroyFrees m.mem pm).map pageOf).Nodup
  all : ∀ n, n ∈ (destroyFrees m.mem pm).map pageOf ↔ UserNode (· = pm) m.mem n
  bitmap : (vmmDestroyPagemap m (some pm)).pmm.bitmap = m₀.pmm.bitmap
  freePages : (vmmDestroyPagemap m (some pm)).pmm.freePages = m₀.pmm.freePages

/-- After any run of lower-half calls `vmm_destroy_pagemap` restores the PMM exactly when no page
is mapped no-execute: the bit stays in the address handed to `pmm_free_page`. -/
theorem vmmDestroyPagemap_exact_iff (m₀ m₁ m : Machine) (pm : Nat) (hcount : m₀.pmm.Counted)
    (hlim : m₀.pmm.totalPages ≤ frameLimit) (hcr3 : ¬m₀.pmm.Free m₀.cr3)
    (hnew : vmmCreatePagemap m₀ = (some pm,m₁))
    (hrun : Relation.ReflTransGen (PrivateStep pm) m₁ m) :
    TornDown m₀ m pm ↔ NoNxLeaf m.mem pm := by
  obtain ⟨hstart,hfree⟩ := ledger_new hcount hlim hnew
  have h : Ledger m₀ pm m := reach_invariant hstart (fun _ _ hi hs => hs.ledger hi) hrun
  have htables := h.owned.tables
  have hpm : pm < pageLimit := lt_of_lt_of_le (lt_of_lt_of_le hfree.1 hlim) frameLimit_le
  have hother : ¬(some pm = vmmCurrent m) := by
    intro he
    rw [vmmCurrent,Option.some.injEq,h.cr3] at he
    exact hcr3 (he ▸ hfree)
  constructor
  · intro ht
    rw [noNxLeaf_iff htables rfl]
    intro va hva hp
    by_contra hnx
    rw [Bool.not_eq_false] at hnx
    obtain ⟨f,flags,hf,he⟩ := htables.leaf pm (tablePath va) (ptIdx va) rfl (lowerPath_va hva) rfl hp
    have hword : leafWord m.mem pm va = leafEntry (pageAddr f) flags := he
    obtain ⟨n,hn,-⟩ := table_of_present hp
    have hin : pageOf (leafWord m.mem pm va) ∈ (destroyFrees m.mem pm).map pageOf := by
      rw [destroyFrees_pages htables rfl hpm,List.mem_append]
      left
      apply (sweep_reports m.mem pm _).mpr
      refine ⟨tablePath va,ptIdx va,leafWord m.mem pm va,lowerPath_va hva,?_,?_,rfl⟩
      · rw [leafWord,entryAt_table hn,slotAt,hn]
        rfl
      · rw [entryNode_present hp]
        simp
    have hheld := h.owned.held _ ((ht.all _).mp hin)
    have hbig : 2^51 ≤ pageOf (leafWord m.mem pm va) := by
      rw [hword,pageOf_leafEntry hf]
      rw [hword,(leafEntry_flags hf flags).2.2.2] at hnx
      rw [hnx]
      simp
    have hlt := lt_of_lt_of_le hheld.1 h.owned.limit
    have h51 : frameLimit ≤ 2^51 := by decide
    omega
  · intro hno
    obtain ⟨hnodup,hall⟩ := destroyFrees_exact htables hpm hno
    obtain ⟨htot,hbits,hcnt⟩ := pmmFreeAll (destroyFrees m.mem pm) m.pmm
    have hres : (vmmDestroyPagemap m (some pm)).pmm =
        (destroyFrees m.mem pm).foldl pmmFreePage m.pmm := by
      simp only [vmmDestroyPagemap,if_neg hother]
    have hback : ∀ n, ((destroyFrees m.mem pm).foldl pmmFreePage m.pmm).bmGet n = true ↔
        m₀.pmm.bmGet n = true := by
      intro n
      rw [hbits n,hall n,h.bits n]
      constructor
      · intro hn
        cases hn.1 with
        | inl hb => exact hb
        | inr hnode => exact absurd ⟨(h.owned.held n hnode).1,hnode⟩ hn.2
      · intro hb
        refine ⟨Or.inl hb,fun hn => ?_⟩
        rw [h.fresh n hn.2] at hb
        exact Bool.noConfusion hb
    refine ⟨hnodup,hall,?_,?_⟩
    · rw [hres]
      exact bitmap_ext hback
    · rw [hres]
      apply BitVec.eq_of_toNat_eq
      rw [(hcnt h.counted).2,hcount.2,htot,h.total]
      exact downCount_congr (fun n _ => Bool.eq_iff_iff.mpr (hback n))

theorem smallMachine_counted : smallMachine.pmm.Counted := ⟨by decide,by decide⟩

/-- One no-execute page is enough: its frame stays allocated for good. -/
theorem vmmDestroyPagemap_leaks :
    let m₁ := (vmmCreatePagemap smallMachine).2
    let m := mapFresh m₁ 256 0x400000#64 (vmmPresent ||| vmmUser ||| vmmNx)
    vmmCreatePagemap smallMachine = (some 256,m₁) ∧
    Relation.ReflTransGen (PrivateStep 256) m₁ m ∧ ¬TornDown smallMachine m 256 := by
  refine ⟨smallMachine_new,.single (.map _ _ (by decide) (by decide) (by decide)),?_⟩
  intro h
  exact absurd h.freePages (by decide +kernel)

theorem vmmDestroyPagemap_exact_iff_sample :
    let m := mapFresh (vmmCreatePagemap smallMachine).2 256 0x400000#64
      (vmmPresent ||| vmmWrite ||| vmmUser)
    TornDown smallMachine m 256 ↔ NoNxLeaf m.mem 256 :=
  vmmDestroyPagemap_exact_iff smallMachine _ _ 256 smallMachine_counted (by decide) (by decide)
    smallMachine_new (.single (.map _ _ (by decide) (by decide) (by decide)))

end KiNBOL
