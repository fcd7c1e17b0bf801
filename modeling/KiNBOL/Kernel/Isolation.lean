import KiNBOL.Kernel.Task
import KiNBOL.Loader.ElfConfined
import KiNBOL.Mm.Teardown

namespace KiNBOL

variable {K : Nat → Prop} {W : BitVec 64 → Option Xlat} {kpm pm : Nat} {roots roots' : Nat → Prop} {rs rs' : List PageRun}
  {m m' m'' : Machine}

/-- The tables of an address belong to the kernel: it lies in the kernel half, or the pagemap is the
kernel's own. -/
def KernelWalk (kpm : Nat) (roots : Nat → Prop) (r : Nat) (va : BitVec 64) : Prop :=
  (roots r ∧ KernelHalf va) ∨ r = kpm

/-- Pagemaps, reserved runs and kernel tables keep apart. `K` are the kernel's tables, `kpm` is its
own PML4 and `W` are the walks from there; the runs `rs` are kernel stacks and heap pages. -/
structure Separate (K : Nat → Prop) (W : BitVec 64 → Option Xlat) (kpm : Nat) (roots : Nat → Prop)
    (rs : List PageRun) (m : Machine) : Prop where
  owned : Owned roots m
  owes : m.pmm.Owes rs
  plain : ∀ r ∈ rs, ∀ n, RunPage r n → ¬UserNode roots m.mem n ∧ ¬K n
  kernel : ∀ n, K n → ¬UserNode roots m.mem n ∧ ¬m.pmm.Free n
  half : ∀ r va, KernelWalk kpm roots r va → ∀ n ∈ hwTables m.mem r va, K n
  same : ∀ r va, KernelWalk kpm roots r va → hwWalk m.mem r va = W va
  own : K kpm
  cr3 : roots m.cr3 ∨ m.cr3 = kpm

/-- What calls on the lower halves can do: they write pages of the trees, but no kernel-half slot of
a PML4, and free pages; they take free pages and give back pages of the trees. -/
structure Touches (roots : Nat → Prop) (m m' : Machine) : Prop where
  owned : Owned roots m'
  fresh : ∀ n, UserNode roots m'.mem n → UserNode roots m.mem n ∨ m.pmm.Free n
  wrote : ∀ n i, m'.mem n i ≠ m.mem n i → UserNode roots m.mem n ∨ m.pmm.Free n
  upper : ∀ r i, roots r → 256 ≤ i.val → m'.mem r i = m.mem r i
  free : ∀ n, m'.pmm.Free n → m.pmm.Free n ∨ UserNode roots m.mem n
  total : m'.pmm.totalPages = m.pmm.totalPages
  cr3 : m'.cr3 = m.cr3

theorem Touches.refl (ho : Owned roots m) : Touches roots m m :=
  ⟨ho,fun _ hn => Or.inl hn,fun _ _ hne => absurd rfl hne,fun _ _ _ _ => rfl,fun _ hn => Or.inl hn,
    rfl,rfl⟩

theorem Touches.trans (h1 : Touches roots m m') (h2 : Touches roots m' m'') :
    Touches roots m m'' := by
  refine ⟨h2.owned,fun n hn => ?_,fun n i hne => ?_,fun r i hr hi => ?_,fun n hn => ?_,
    h2.total.trans h1.total,h2.cr3.trans h1.cr3⟩
  · rcases h2.fresh n hn with h | h
    · exact h1.fresh n h
    · exact (h1.free n h).symm
  · by_cases hmid : m'.mem n i = m.mem n i
    · rcases h2.wrote n i (hmid ▸ hne) with h | h
      · exact h1.fresh n h
      · exact (h1.free n h).symm
    · exact h1.wrote n i hmid
  · exact (h2.upper r i hr hi).trans (h1.upper r i hr hi)
  · rcases h2.free n hn with h | h
    · exact h1.free n h
    · exact (h1.fresh n h).symm

/-- Writes to lower-half slots of one pagemap and to free pages. -/
theorem upper_kept (ho : Owned roots m) (hr : roots pm)
    (hw : ∀ n i, m'.mem n i ≠ m.mem n i → TableSlot m.mem pm n i ∨ m.pmm.Free n) :
    ∀ r i, roots r → 256 ≤ i.val → m'.mem r i = m.mem r i := by
  intro r i hroot hi
  by_contra hne
  cases hw r i hne with
  | inl hslot =>
    have := (root_slot ho.tables hr hroot hslot).2
    omega
  | inr hf => exact ho.not_node_of_free hf (ForestNode.root lowerPath_nil hroot)

theorem Evolves.touches (he : Evolves roots pm m m') (ho : Owned roots m) (hr : roots pm)
    (ho' : Owned roots m') : Touches roots m m' := by
  refine ⟨ho',fun n hn => ?_,fun n i hne => (he.wrote n i hne).imp (fun h => h.node hr) id,
    upper_kept ho hr he.wrote,fun n hn => Or.inl (he.free n hn),he.total,he.cr3⟩
  obtain ⟨r,p,hr',hp,hf⟩ := hn
  exact (he.fresh r p n hr' hp hf).imp (fun h => ⟨r,p,hr',hp,h⟩) id

theorem Unmaps.touches {freePhys : Bool} (hu : Unmaps roots pm freePhys m m') (ho : Owned roots m)
    (hr : roots pm) : Touches roots m m' :=
  ⟨hu.owned,fun _ hn => Or.inl (hu.trimmed.node hn),
    fun n i hne => Or.inl ((hu.trimmed.wrote n i hne).node hr),
    upper_kept ho hr (fun n i hne => Or.inl (hu.trimmed.wrote n i hne)),
    fun n hn => (hu.free n hn).imp id And.left,hu.total,hu.cr3⟩

/-- Such calls leave the kernel's walks alone. -/
theorem Separate.tables (hs : Separate K W kpm roots rs m) (ht : Touches roots m m') {r : Nat}
    {va : BitVec 64} (hw : KernelWalk kpm roots r va) :
    hwWalk m'.mem r va = hwWalk m.mem r va ∧ hwTables m'.mem r va = hwTables m.mem r va := by
  have hkept : ∀ n, K n → m'.mem n = m.mem n := by
    intro n hn
    obtain ⟨hnode,hfree⟩ := hs.kernel n hn
    funext i
    by_contra hne
    exact (ht.wrote n i hne).elim hnode hfree
  refine hwWalk_congr ?_ (fun n hn => hkept n (hs.half r va hw n hn))
  rcases hw with ⟨hr,hva⟩ | rfl
  · exact ht.upper r _ hr (pml4Idx_kernel hva)
  · rw [hkept r hs.own]

theorem Separate.touch (hs : Separate K W kpm roots rs m) (ht : Touches roots m m') :
    Separate K W kpm roots rs m' := by
  have hfree : ∀ n, ¬UserNode roots m.mem n → ¬m.pmm.Free n → ¬m'.pmm.Free n := by
    intro n h1 h2 hf
    exact (ht.free n hf).elim h2 h1
  have hnode : ∀ n, ¬UserNode roots m.mem n → ¬m.pmm.Free n → ¬UserNode roots m'.mem n := by
    intro n h1 h2 hn
    exact (ht.fresh n hn).elim h1 h2
  refine ⟨ht.owned,⟨ht.total.le.trans hs.owes.limit,hs.owes.aligned,hs.owes.apart,?_⟩,?_,?_,?_,?_,
    hs.own,ht.cr3 ▸ hs.cr3⟩
  · intro r hrm n hn
    exact hfree n (hs.plain r hrm n hn).1 (hs.owes.held r hrm n hn)
  · intro r hrm n hn
    exact ⟨hnode n (hs.plain r hrm n hn).1 (hs.owes.held r hrm n hn),(hs.plain r hrm n hn).2⟩
  · intro n hn
    obtain ⟨h1,h2⟩ := hs.kernel n hn
    exact ⟨hnode n h1 h2,hfree n h1 h2⟩
  · intro r va hw n hn
    rw [(hs.tables ht hw).2] at hn
    exact hs.half r va hw n hn
  · intro r va hw
    rw [(hs.tables ht hw).1]
    exact hs.same r va hw

/-- A page that serves as a table in the lower half of a pagemap. -/
def IsTable (roots : Nat → Prop) (mem : PhysMem) (n : Nat) : Prop :=
  ∃ r p, roots r ∧ LowerPath p ∧ p.length ≤ 3 ∧ follow entryNode mem r p = some n

theorem IsTable.node {mem : PhysMem} {n : Nat} (h : IsTable roots mem n) : UserNode roots mem n := by
  obtain ⟨r,p,hr,hp,-,hf⟩ := h
  exact ⟨r,p,hr,hp,hf⟩

theorem TableSlot.isTable {mem : PhysMem} {r n : Nat} {i : Fin 512} (h : TableSlot mem r n i)
    (hr : roots r) : IsTable roots mem n := by
  obtain ⟨p,hp,hf⟩ := h
  have hlen := hp.1
  rw [List.length_append,List.length_singleton] at hlen
  exact ⟨r,p,hr,hp.left,by omega,hf⟩

/-- Data written to pages that are no tables. -/
theorem Separate.data (hs : Separate K W kpm roots rs m) {mem' : PhysMem}
    (hw : ∀ n, mem' n ≠ m.mem n → ¬K n ∧ ¬IsTable roots m.mem n) :
    Separate K W kpm roots rs { m with mem := mem' } := by
  have hsame : ∀ n, IsTable roots m.mem n → mem' n = m.mem n := by
    intro n hn
    by_contra hne
    exact (hw n hne).2 hn
  have hkept : ∀ n, K n → mem' n = m.mem n := by
    intro n hn
    by_contra hne
    exact (hw n hne).1 hn
  have hslots : ∀ r n i, roots r → TableSlot m.mem r n i → mem' n i = m.mem n i := by
    intro r n i hr hslot
    rw [hsame n (hslot.isTable hr)]
  obtain ⟨ho,hfol,-⟩ := hs.owned.other_pages hslots
  have hnode : ∀ n, UserNode roots mem' n → UserNode roots m.mem n := by
    intro n hn
    obtain ⟨r,p,hr,hp,hf⟩ := hn
    exact ⟨r,p,hr,hp,hfol r p hr hp ▸ hf⟩
  have hwalk : ∀ r va, KernelWalk kpm roots r va →
      hwWalk mem' r va = hwWalk m.mem r va ∧ hwTables mem' r va = hwTables m.mem r va := by
    intro r va hw
    refine hwWalk_congr ?_ (fun n hn => hkept n (hs.half r va hw n hn))
    rcases hw with ⟨hr,-⟩ | rfl
    · rw [hsame r ⟨r,[],hr,lowerPath_nil,by simp,rfl⟩]
    · rw [hkept r hs.own]
  refine ⟨ho,hs.owes,fun r hr n hn => ?_,fun n hn => ?_,fun r va hw n hn => ?_,
    fun r va hw => ?_,hs.own,hs.cr3⟩
  · exact ⟨fun h => (hs.plain r hr n hn).1 (hnode n h),(hs.plain r hr n hn).2⟩
  · exact ⟨fun h => (hs.kernel n hn).1 (hnode n h),(hs.kernel n hn).2⟩
  · rw [(hwalk r va hw).2] at hn
    exact hs.half r va hw n hn
  · rw [(hwalk r va hw).1]
    exact hs.same r va hw

/-- Pages that belong to pagemaps or to the kernel half. -/
def Mapped (K : Nat → Prop) (roots : Nat → Prop) (mem : PhysMem) (n : Nat) : Prop :=
  UserNode roots mem n ∨ K n

theorem Separate.owesBut (hs : Separate K W kpm roots rs m) :
    m.pmm.OwesBut (Mapped K roots m.mem) m.pmm.totalPages rs := by
  refine { hs.owes with total := rfl, kept := fun n hn => ⟨?_,fun r hr hrn => ?_⟩ }
  · cases hn with
    | inl hnode => exact (hs.owned.held n hnode).not_free
    | inr hk => exact (hs.kernel n hk).2
  · cases hn with
    | inl hnode => exact (hs.plain r hr n hrn).1 hnode
    | inr hk => exact (hs.plain r hr n hrn).2 hk

/-- Runs were taken from the PMM or went back, all other pages stayed marked. -/
theorem Separate.reserve (hs : Separate K W kpm roots rs m) {p : Pmm}
    (ho : p.OwesBut (Mapped K roots m.mem) m.pmm.totalPages rs') :
    Separate K W kpm roots rs' { m with pmm := p } := by
  refine ⟨⟨hs.owned.tables,fun n hn => ?_,ho.total.le.trans hs.owned.limit⟩,ho.toOwes,
    fun r hr n hn => ?_,fun n hn => ⟨(hs.kernel n hn).1,(ho.kept n (Or.inr hn)).1⟩,hs.half,hs.same,
    hs.own,hs.cr3⟩
  · have hlt := (hs.owned.held n hn).1
    have hnf := (ho.kept n (Or.inl hn)).1
    refine ⟨ho.total ▸ hlt,?_⟩
    by_contra hb
    exact hnf ⟨ho.total ▸ hlt,by simpa using hb⟩
  · exact ⟨fun h => (ho.kept n (Or.inl h)).2 r hr hn,fun h => (ho.kept n (Or.inr h)).2 r hr hn⟩

theorem Separate.perm (hs : Separate K W kpm roots rs m) (hp : rs.Perm rs') :
    Separate K W kpm roots rs' m := by
  have hmem : ∀ r, r ∈ rs' → r ∈ rs := fun r hr => hp.mem_iff.mpr hr
  refine ⟨hs.owned,⟨hs.owes.limit,fun r hr => hs.owes.aligned r (hmem r hr),?_,
    fun r hr => hs.owes.held r (hmem r hr)⟩,fun r hr => hs.plain r (hmem r hr),hs.kernel,hs.half,
    hs.same,hs.own,hs.cr3⟩
  exact ((hp.map runSpan).pairwise_iff (fun hxy => Span.Apart.symm hxy)).mp hs.owes.apart

/-- The same pagemaps under another description. -/
theorem Separate.roots_congr (hs : Separate K W kpm roots rs m) (h : ∀ r, roots' r ↔ roots r) :
    Separate K W kpm roots' rs m := by
  have he : roots' = roots := funext (fun r => propext (h r))
  exact he ▸ hs

/-- `vmm_create_pagemap` adds a pagemap with the kernel half of the active one. -/
theorem Separate.create (hs : Separate K W kpm roots rs m) {f : Nat} (hc : vmmCreatePagemap m = (some f,m')) :
    Separate K W kpm (fun r => r = f ∨ roots r) rs m' ∧ ¬roots f ∧ m'.cr3 = m.cr3 := by
  rcases vmmCreatePagemap_cases hs.owned with hno | ⟨f',m₁,hres,hfree,ht,hcr3,ho,hnode,hmem⟩
  · rw [hno] at hc
    simp at hc
  · rw [hres] at hc
    obtain ⟨h1,rfl⟩ := Prod.mk.inj hc
    obtain rfl := Option.some.inj h1
    have hnew : ¬UserNode roots m.mem f' := hs.owned.not_node_of_free hfree
    have hnk : ¬K f' := fun hk => (hs.kernel f' hk).2 hfree
    have hcur : m.cr3 ≠ f' := by
      intro he
      cases hs.cr3 with
      | inl hr => exact hnew (he ▸ ForestNode.root lowerPath_nil hr)
      | inr hb => exact hnk (he ▸ hb ▸ hs.own)
    have hother : ∀ n, n ≠ f' → m₁.mem n = m.mem n := by
      intro n hn
      funext i
      rw [hmem,if_neg hn]
    have hout : ∀ n, ¬UserNode roots m.mem n → n ≠ f' →
        ¬UserNode (fun r => r = f' ∨ roots r) m₁.mem n :=
      fun n h1 h2 h => ((hnode n).mp h).elim h2 h1
    have hnf : ∀ n, ¬m.pmm.Free n → n ≠ f' ∧ ¬m₁.pmm.Free n :=
      fun n hn => ⟨fun he => hn (he ▸ hfree),fun hf => hn ((ht.free_iff n).mp hf).1⟩
    have hwalk : ∀ r s va, KernelWalk kpm roots s va →
        m₁.mem r (pml4Idx va) = m.mem s (pml4Idx va) →
        hwWalk m₁.mem r va = hwWalk m.mem s va ∧ hwTables m₁.mem r va = hwTables m.mem s va := by
      intro r s va hsw he
      refine hwWalk_congr he (fun x hx => hother x (fun hxf => ?_))
      exact hnk (hxf ▸ hs.half s va hsw x hx)
    have hback : ∀ r va, KernelWalk kpm (fun r => r = f' ∨ roots r) r va →
        ∃ s, KernelWalk kpm roots s va ∧ m₁.mem r (pml4Idx va) = m.mem s (pml4Idx va) := by
      intro r va hw
      by_cases hrf : r = f'
      · -- the new PML4 holds the kernel half of the active one
        have hva : KernelHalf va := by
          rcases hw with ⟨-,hva⟩ | hk
          · exact hva
          · exact absurd (hrf.symm.trans hk ▸ hs.own) hnk
        refine ⟨m.cr3,hs.cr3.imp (fun h => ⟨h,hva⟩) id,?_⟩
        rw [hmem,if_pos hrf,if_pos (pml4Idx_kernel hva),zeroPage_other hcur]
      · exact ⟨r,hw.imp (fun h => ⟨h.1.resolve_left hrf,h.2⟩) id,by rw [hother r hrf]⟩
    refine ⟨⟨ho,⟨ht.total.le.trans hs.owes.limit,hs.owes.aligned,hs.owes.apart,fun r hr n hn =>
      (hnf n (hs.owes.held r hr n hn)).2⟩,fun r hr n hn => ?_,fun n hn => ?_,?_,?_,hs.own,?_⟩,
      fun hr => hnew (ForestNode.root lowerPath_nil hr),hcr3⟩
    · obtain ⟨h1,h2⟩ := hs.plain r hr n hn
      exact ⟨hout n h1 (hnf n (hs.owes.held r hr n hn)).1,h2⟩
    · obtain ⟨h1,h2⟩ := hs.kernel n hn
      exact ⟨hout n h1 (hnf n h2).1,(hnf n h2).2⟩
    · intro r va hw n hn
      obtain ⟨s,hsw,he⟩ := hback r va hw
      rw [(hwalk r s va hsw he).2] at hn
      exact hs.half s va hsw n hn
    · intro r va hw
      obtain ⟨s,hsw,he⟩ := hback r va hw
      rw [(hwalk r s va hsw he).1]
      exact hs.same s va hsw
    · rw [hcr3]
      exact hs.cr3.imp Or.inr id

/-- Pages that `vmm_destroy_pagemap` gives back: nodes of the pagemap, or numbers that no frame has
(a no-execute leaf keeps its high bit). -/
theorem destroyFrees_bound {mem : PhysMem} (h : UserTables roots mem) (hr : roots pm)
    (hlim : pm < pageLimit) : ∀ n ∈ (destroyFrees mem pm).map pageOf,
      (∃ p, LowerPath p ∧ follow entryNode mem pm p = some n) ∨ frameLimit ≤ n := by
  intro n hn
  rw [destroyFrees_pages h hr hlim,List.mem_append,List.mem_singleton] at hn
  rcases hn with hn | rfl
  · obtain ⟨p,i,e,hp,he,hd,rfl⟩ := (sweep_reports mem pm n).mp hn
    obtain ⟨c,hc⟩ := Option.ne_none_iff_exists'.mp hd
    obtain ⟨hpres,hfr⟩ := entryNode_eq_some hc
    have hent : entryAt mem pm p i = e := by
      rw [entryAt,he]
      rfl
    have hchild : follow entryNode mem pm (p++[i]) = some c := by
      rw [follow_entryAt,hent,hc]
    have hle := hp.1
    rw [List.length_append,List.length_singleton] at hle
    by_cases hlen : p.length < 3
    · obtain ⟨f,hfe⟩ := h.mid pm p i hr hp hlen (hent ▸ hpres)
      rw [hent] at hfe
      exact Or.inl ⟨p++[i],hp,by rw [hchild,hfe.page,← hfr,hfe.framePage]⟩
    · obtain ⟨f,flags,hf,hfe⟩ := h.leaf pm p i hr hp (by omega) (hent ▸ hpres)
      rw [hent] at hfe
      rw [hfe,framePage_leafEntry hf] at hfr
      rw [hfe,pageOf_leafEntry hf]
      cases hnx : has flags vmmNx with
      | false =>
        refine Or.inl ⟨p++[i],hp,?_⟩
        rw [hchild,hfr]
        rfl
      | true => exact Or.inr ((show frameLimit ≤ 2^51 by decide).trans (Nat.le_add_left _ _))
  · exact Or.inl ⟨[],lowerPath_nil,rfl⟩

/-- `vmm_destroy_pagemap` of a pagemap that is not active. -/
theorem Separate.destroy (hs : Separate K W kpm roots rs m) (hr : roots pm) (hne : pm ≠ m.cr3) :
    Separate K W kpm (fun r => roots r ∧ r ≠ pm) rs (vmmDestroyPagemap m (some pm)) := by
  have hlt : pm < pageLimit := by
    have h1 := (hs.owned.held pm (ForestNode.root lowerPath_nil hr)).1
    have h2 := hs.owes.limit
    omega
  have hpm : vmmDestroyPagemap m (some pm) =
      { m with pmm := (destroyFrees m.mem pm).foldl pmmFreePage m.pmm } := by
    rw [vmmDestroyPagemap,vmmCurrent]
    exact if_neg (fun he => hne (Option.some.inj he))
  obtain ⟨htotal,hbits,-⟩ := pmmFreeAll (destroyFrees m.mem pm) m.pmm
  have hbound := destroyFrees_bound hs.owned.tables hr hlt
  rw [hpm]
  generalize (destroyFrees m.mem pm).foldl pmmFreePage m.pmm = p at htotal hbits
  have hgone : ∀ n, p.Free n → ¬m.pmm.Free n → ∃ q, LowerPath q ∧
      follow entryNode m.mem pm q = some n := by
    intro n hf hnf
    have hup : m.pmm.bmGet n = true := by
      by_contra hb
      exact hnf ⟨htotal ▸ hf.1,by simpa using hb⟩
    have hmem : n ∈ (destroyFrees m.mem pm).map pageOf := by
      by_contra hout
      have h1 := (hbits n).mpr ⟨hup,fun h => hout h.2⟩
      rw [hf.2] at h1
      exact Bool.noConfusion h1
    refine (hbound n hmem).resolve_right (fun hbig => ?_)
    have h1 := hf.1
    have h2 := hs.owned.limit
    rw [htotal] at h1
    omega
  have hsub : ∀ n, UserNode (fun r => roots r ∧ r ≠ pm) m.mem n → UserNode roots m.mem n := by
    intro n hn
    obtain ⟨r,q,hrr,hq,hf⟩ := hn
    exact ⟨r,q,hrr.1,hq,hf⟩
  have hkeep : ∀ n, ¬UserNode roots m.mem n → ¬m.pmm.Free n → ¬p.Free n := by
    intro n hnode hnf hf
    obtain ⟨q,hq,hfo⟩ := hgone n hf hnf
    exact hnode ⟨pm,q,hr,hq,hfo⟩
  refine ⟨⟨⟨hs.owned.tables.forest.roots_mono (fun r hrr => hrr.1),
      fun r q i hrr => hs.owned.tables.mid r q i hrr.1,fun r q i hrr => hs.owned.tables.leaf r q i hrr.1⟩,
      fun n hn => ?_,htotal.le.trans hs.owned.limit⟩,
    ⟨htotal.le.trans hs.owes.limit,hs.owes.aligned,hs.owes.apart,fun r hrm n hn => ?_⟩,
    fun r hrm n hn => ?_,fun n hn => ?_,fun r va hw n hn => ?_,
    fun r va hw => hs.same r va (hw.imp (fun h => ⟨h.1.1,h.2⟩) id),hs.own,?_⟩
  · have hheld := hs.owned.held n (hsub n hn)
    refine ⟨htotal ▸ hheld.1,?_⟩
    by_contra hb
    obtain ⟨q,hq,hfo⟩ := hgone n ⟨htotal ▸ hheld.1,by simpa using hb⟩ hheld.not_free
    obtain ⟨r,q',hrr,hq',hfo'⟩ := hn
    exact hrr.2 (hs.owned.tables.forest.unique r pm q' q n hrr.1 hr hq' hq hfo' hfo).1
  · exact hkeep n (hs.plain r hrm n hn).1 (hs.owes.held r hrm n hn)
  · exact ⟨fun h => (hs.plain r hrm n hn).1 (hsub n h),(hs.plain r hrm n hn).2⟩
  · obtain ⟨h1,h2⟩ := hs.kernel n hn
    exact ⟨fun h => h1 (hsub n h),hkeep n h1 h2⟩
  · exact hs.half r va (hw.imp (fun h => ⟨h.1.1,h.2⟩) id) n hn
  · exact hs.cr3.imp (fun h => ⟨h,fun he => hne he.symm⟩) id

end KiNBOL
