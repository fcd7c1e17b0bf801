import KiNBOL.Fs.Insert

namespace KiNBOL

variable {v v' w : Volume} {c d dir : Nat} {cs cs' ds : List Nat} {k : Kmalloc} {locs : List Loc}
  {ex : List Nat}

/-- Who a chain belongs to: the root directory, a registered node, or an entry on the disk that is
not registered. -/
inductive Owner where
  | root
  | file (i : Fin 40)
  | extra (j : Nat)
  deriving DecidableEq

/-- The context of a node in a slot. -/
def fileCtx (v : Volume) (i : Fin 40) : Option FileCtx := (v.files i).bind FsNode.device

/-- The first cluster of an owner's chain. -/
def startOf (v : Volume) (ex : List Nat) : Owner → Option Nat
  | .root => some v.rootCluster
  | .file i => (fileCtx v i).bind (fun ctx =>
      if ctx.startCluster = 0 then none else some ctx.startCluster)
  | .extra j => ex[j]?

/-- The clusters of an owner's chain. -/
def Owns (v : Volume) (ex : List Nat) (o : Owner) (x : Nat) : Prop :=
  ∃ c cs, startOf v ex o = some c ∧ IsChain v c cs ∧ x ∈ cs

/-- A volume in which nothing is shared: every owner has a chain of its own, and the entry of every
registered node is a slot of the data region. -/
structure Consistent (v : Volume) (ex : List Nat) : Prop where
  layout : DiskLayout v
  chain : ∀ o c, startOf v ex o = some c → InRange v c ∧ ∃ cs, IsChain v c cs
  apart : ∀ o o' x, Owns v ex o x → Owns v ex o' x → o = o'
  located : ∀ i ctx, fileCtx v i = some ctx →
    ∃ c, InRange v c ∧ (⟨ctx.direntSector,ctx.direntOffset⟩ : Loc) ∈ v.slotLocs c
  others : ∀ i, (v.others i).device = none

theorem DiskStep.startOf (h : DiskStep v v') (ex : List Nat) (o : Owner) :
    KiNBOL.startOf v' ex o = KiNBOL.startOf v ex o := by
  cases o <;> simp only [KiNBOL.startOf,fileCtx,h.root,h.files]

theorem DiskStep.inRange (h : DiskStep v v') : InRange v' c ↔ InRange v c := by
  rw [InRange,InRange,h.total]

/-- Chains whose entries are kept. -/
theorem IsChain.keep (hs : DiskStep v v') (h : IsChain v c cs)
    (hf : ∀ x ∈ cs, fatAt v' x = fatAt v x) : IsChain v' c cs :=
  (Chained.congr h hf).mono (fun _ _ hx => hs.inRange.mpr hx) (fun _ hx => hx)

theorem IsChain.head (hl : DiskLayout v) (h : IsChain v c cs) (hc : InRange v c) :
    ∃ xs, cs = c::xs := Chained.head h (hl.chain_apart c hc)

/-- A free cluster was linked behind `last`. -/
structure ChainLinked (v v' : Volume) (last newc : Nat) : Prop where
  range : InRange v newc
  free : fatAt v newc = 0
  step : DiskStep v v'
  fat : ∀ d < v.totalClusters+2, fatAt v' d =
    if d = newc then 0x0FFFFFFF else if d = last then newc else fatAt v d

theorem DirGrown.linked {last : Nat} (h : DirGrown v v' last d) : ChainLinked v v' last d :=
  ⟨h.range,h.free,h.step,h.fat⟩

/-- A cluster linked behind the last one of a chain. -/
theorem IsChain.link (hl : DiskLayout v) (h : IsChain v c cs) (hc : InRange v c)
    (hg : ChainLinked v v' (lastOf dir cs) d) : IsChain v' c (cs++[d]) := by
  obtain ⟨xs,rfl⟩ := h.head hl hc
  obtain ⟨as,l,has⟩ : ∃ as l, c::xs = as++[l] :=
    ⟨(c::xs).dropLast,(c::xs).getLast (by simp),(List.dropLast_append_getLast (by simp)).symm⟩
  have hlast : lastOf dir (c::xs) = l := by
    rw [lastOf,has,List.getLast?_concat]
    rfl
  rw [hlast] at hg
  rw [has] at h ⊢
  have hnd := h.nodup hl
  have hused := h.used
  have hin := Chained.all_ok h
  have hd : ∀ x ∈ as++[l], x ≠ d := fun x hx he => hused x hx (he ▸ hg.free)
  have hch : Chained (fatAt v) (InRange v) (fun c => endOfChain ≤ c) c (as++[l]) := h
  have hlim := (hin l (by simp)).2
  have h2 : Chained (fatAt v') (InRange v) (fun c => endOfChain ≤ c) c (as++[l]++[d]) :=
    hch.snoc (fun x hx => ?_) ?_ hg.range ?_
  · exact h2.mono (fun _ _ hx => hg.step.inRange.mpr hx) (fun _ hx => hx)
  · have hxl : x ≠ l := by
      rintro rfl
      exact (List.nodup_append.mp hnd).2.2 x hx x (by simp) rfl
    rw [hg.fat x (hin x (by simp [hx])).2,if_neg (hd x (by simp [hx])),if_neg hxl]
  · rw [hg.fat l hlim,if_neg (hd l (by simp)),if_pos rfl]
  · rw [hg.fat d hg.range.2,if_pos rfl,endOfChain]
    omega

theorem IsChain.grow (hl : DiskLayout v) (h : IsChain v c cs) (hc : InRange v c)
    (hg : DirGrown v v' (lastOf dir cs) d) : IsChain v' c (cs++[d]) := h.link hl hc hg.linked

/-- Growing a chain leaves the others alone. -/
theorem IsChain.grow_other (h : IsChain v c cs) {last : Nat} (hlast : last ∉ cs)
    (hg : DirGrown v v' last d) : IsChain v' c cs := by
  refine h.keep hg.step (fun x hx => ?_)
  have hne : x ≠ d := fun he => h.used x hx (he ▸ hg.free)
  have hne' : x ≠ last := fun he => hlast (he ▸ hx)
  rw [hg.fat x (Chained.all_ok h x hx).2,if_neg hne,if_neg hne']

theorem Owns.inRange {o : Owner} {x : Nat} (h : Owns v ex o x) : InRange v x := by
  obtain ⟨c,cs,-,hch,hx⟩ := h
  exact Chained.all_ok hch x hx

theorem Owns.used {o : Owner} {x : Nat} (h : Owns v ex o x) : fatAt v x ≠ 0 := by
  obtain ⟨c,cs,-,hch,hx⟩ := h
  exact hch.used x hx

/-- How the chains of a volume come out of those of another. -/
theorem Consistent.carry (h : Consistent v ex) (hs : DiskStep v v')
    (hc : ∀ o c cs, startOf v ex o = some c → IsChain v c cs → ∃ cs', IsChain v' c cs' ∧
      ∀ x ∈ cs', x ∈ cs ∨ (fatAt v x = 0 ∧ ∀ o' c' ds, startOf v ex o' = some c' →
        IsChain v' c' ds → x ∈ ds → o' = o)) : Consistent v' ex where
  layout := hs.layout h.layout
  chain := by
    intro o c ho
    rw [hs.startOf] at ho
    obtain ⟨hr,cs,hcs⟩ := h.chain o c ho
    obtain ⟨cs',hcs',-⟩ := hc o c cs ho hcs
    exact ⟨hs.inRange.mpr hr,cs',hcs'⟩
  apart := by
    rintro o o' x ⟨c,cs1,ho,hch,hx⟩ ⟨c',cs1',ho',hch',hx'⟩
    rw [hs.startOf] at ho ho'
    have hl' := hs.layout h.layout
    obtain ⟨hr,cs,hcs⟩ := h.chain o c ho
    obtain ⟨hr',ds,hds⟩ := h.chain o' c' ho'
    obtain ⟨cs2,hcs2,hfrom⟩ := hc o c cs ho hcs
    obtain ⟨ds2,hds2,hfrom'⟩ := hc o' c' ds ho' hds
    rw [hch.unique hl' hcs2] at hx
    rw [hch'.unique hl' hds2] at hx'
    rcases hfrom x hx with hin | ⟨h0,honly⟩
    · rcases hfrom' x hx' with hin' | ⟨h0,-⟩
      · exact h.apart o o' x ⟨c,cs,ho,hcs,hin⟩ ⟨c',ds,ho',hds,hin'⟩
      · exact absurd h0 (hcs.used x hin)
    · exact (honly o' c' ds2 ho' hds2 hx').symm
  located := by
    intro i ctx hi
    rw [fileCtx,hs.files] at hi
    obtain ⟨c,hc,hloc⟩ := h.located i ctx hi
    exact ⟨c,hs.inRange.mpr hc,by rw [hs.slotLocs]; exact hloc⟩
  others := by
    intro i
    rw [hs.others]
    exact h.others i

/-- Entries of the FAT that belong to nobody do not matter. -/
theorem Consistent.keep (h : Consistent v ex) (hs : DiskStep v v')
    (hf : ∀ o x, Owns v ex o x → fatAt v' x = fatAt v x) : Consistent v' ex :=
  h.carry hs (fun o c cs ho hcs =>
    ⟨cs,hcs.keep hs (fun x hx => hf o x ⟨c,cs,ho,hcs,hx⟩),fun _ hx => Or.inl hx⟩)

/-- The chain of a directory grows by a free cluster. -/
theorem Consistent.grow (h : Consistent v ex) {o : Owner} (ho : startOf v ex o = some c)
    (hcs : IsChain v c cs) (hg : DirGrown v v' (lastOf dir cs) d) : Consistent v' ex := by
  obtain ⟨hc,-⟩ := h.chain o c ho
  obtain ⟨xs,hxs⟩ := hcs.head h.layout hc
  have hlast : lastOf dir cs ∈ cs := by
    rw [lastOf]
    cases hl : cs.getLast? with
    | none =>
      rw [List.getLast?_eq_none_iff] at hl
      rw [hl] at hxs
      simp at hxs
    | some l => exact List.mem_of_getLast? hl
  have hother : ∀ o' c' ds, startOf v ex o' = some c' → IsChain v c' ds → o' ≠ o →
      IsChain v' c' ds := by
    intro o' c' ds ho' hds hne
    refine hds.grow_other (fun hin => hne ?_) hg
    exact h.apart o' o _ ⟨c',ds,ho',hds,hin⟩ ⟨c,cs,ho,hcs,hlast⟩
  refine h.carry hg.step (fun o' c' ds ho' hds => ?_)
  by_cases he : o' = o
  · subst he
    rw [ho,Option.some.injEq] at ho'
    subst ho'
    rw [hds.unique h.layout hcs]
    refine ⟨cs++[d],hcs.grow h.layout hc hg,fun x hx => ?_⟩
    rcases List.mem_append.mp hx with hx | hx
    · exact Or.inl hx
    · rw [List.mem_singleton.mp hx]
      refine Or.inr ⟨hg.free,fun o2 c2 ds2 ho2 hds2 hx2 => ?_⟩
      by_contra hne
      obtain ⟨-,es,hes⟩ := h.chain o2 c2 ho2
      have hes' := hother o2 c2 es ho2 hes hne
      rw [hds2.unique (hg.step.layout h.layout) hes'] at hx2
      exact hes.used d hx2 hg.free
  · exact ⟨ds,hother o' c' ds ho' hds he,fun x hx => Or.inl hx⟩

end KiNBOL
