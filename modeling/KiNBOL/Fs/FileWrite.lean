import KiNBOL.Fs.FileRead
import KiNBOL.Fs.Creation
import KiNBOL.Fs.FreeOrder

namespace KiNBOL

/-! `fat32_file_write` when no transfer fails. -/

/-- A byte of a cluster. -/
def clusterByte (v : Volume) (x k : Nat) : Byte := diskBytes v.disk (v.clusterToLba x) k

/-- The bytes of a list of clusters. -/
def listByte (v : Volume) (cs : List Nat) (k : Nat) : Byte :=
  clusterByte v (cs.getD (k/v.clusterSize) 0) (k%v.clusterSize)

/-- No cluster is free. -/
def DiskFull (v : Volume) : Prop := ∀ c, InRange v c → fatAt v c ≠ 0

/-- What a part of a write has done: `r` bytes of `src` are at `pos` in the file whose chain is `c`,
the chain grew by the free clusters `more`, and nothing else has changed. -/
structure Wrote (v v' : Volume) (c : Nat) (cs more : List Nat) (pos r : Nat) (src : Sector) :
    Prop where
  step : DiskStep v v'
  chain : IsChain v' c (cs++more)
  range : ∀ x ∈ cs++more, InRange v x
  fresh : ∀ x ∈ more, fatAt v x = 0
  order : freeOrder v = more++freeOrder v'
  fat : ∀ d < v.totalClusters+2, d ∉ cs++more → fatAt v' d = fatAt v d
  covers : pos+r ≤ (cs++more).length*v.clusterSize
  bytes : ∀ k < (cs++more).length*v.clusterSize,
    listByte v' (cs++more) k = overlay (listByte v (cs++more)) pos r src k
  others : ∀ a, v.dataStart ≤ a → (∀ x ∈ cs++more, ¬InCluster v x a) → v'.disk a = v.disk a

variable {v v' v'' : Volume} {c x newc : Nat} {cs ds more more' pre post : List Nat}
  {pos r r' n skip len done fuel : Nat} {src src' : Sector} {ex : List Nat} {o : Owner}

section

variable (h : DiskStep v v')

include h

theorem DiskStep.clusterSize : v'.clusterSize = v.clusterSize := by
  rw [Volume.clusterSize,Volume.clusterSize,h.spc]

theorem DiskStep.inCluster {a : Nat} : InCluster v' c a ↔ InCluster v c a := by
  rw [InCluster,InCluster,h.dataStart,h.spc]

end

/-- Where a byte of a cluster is. -/
theorem clusterByte_eq (hl : DiskLayout v) (hx : InRange v x) {k : Nat} (hk : k < v.clusterSize) :
    InCluster v x (v.dataStart+(x-2)*v.sectorsPerCluster+k/512) ∧
    clusterByte v x k = v.disk (v.dataStart+(x-2)*v.sectorsPerCluster+k/512) (k%512) := by
  obtain ⟨hlba,hle⟩ := hl.clusterToLba_eq hx
  rw [Volume.clusterSize] at hk
  have hdiv : k/512 < v.sectorsPerCluster := by omega
  refine ⟨⟨by omega,by omega⟩,?_⟩
  rw [clusterByte,diskBytes,hlba,u32,Nat.mod_eq_of_lt (by omega)]

/-- The same places for the clusters of the data region. -/
structure SamePlaces (v v' : Volume) : Prop where
  spc : v'.sectorsPerCluster = v.sectorsPerCluster
  dataStart : v'.dataStart = v.dataStart

theorem DiskStep.places (h : DiskStep v v') : SamePlaces v v' := ⟨h.spc,h.dataStart⟩

theorem TableStep.places (h : TableStep v v') : SamePlaces v v' := ⟨h.spc,h.dataStart⟩

section

variable (h : SamePlaces v v')

include h

theorem SamePlaces.trans (h' : SamePlaces v' v'') : SamePlaces v v'' :=
  ⟨h'.spc.trans h.spc,h'.dataStart.trans h.dataStart⟩

theorem SamePlaces.clusterSize : v'.clusterSize = v.clusterSize := by
  rw [Volume.clusterSize,Volume.clusterSize,h.spc]

theorem SamePlaces.clusterToLba (x : Nat) : v'.clusterToLba x = v.clusterToLba x := by
  rw [Volume.clusterToLba,Volume.clusterToLba,h.spc,h.dataStart]

theorem SamePlaces.dirLocs (cs : List Nat) : KiNBOL.dirLocs v' cs = KiNBOL.dirLocs v cs := by
  rw [KiNBOL.dirLocs,KiNBOL.dirLocs]
  congr 1
  funext x
  rw [Volume.slotLocs,Volume.slotLocs,h.clusterSize,h.clusterToLba]

end

/-- Sectors that are kept keep the bytes of their clusters. -/
theorem clusterByte_congr (hs : SamePlaces v v') (hl : DiskLayout v) (hx : InRange v x)
    (hd : ∀ a, InCluster v x a → v'.disk a = v.disk a) {k : Nat} (hk : k < v.clusterSize) :
    clusterByte v' x k = clusterByte v x k := by
  obtain ⟨hin,heq⟩ := clusterByte_eq hl hx hk
  obtain ⟨hlba,hle⟩ := hl.clusterToLba_eq hx
  have hdiv : k/512 < v.sectorsPerCluster := by
    rw [Volume.clusterSize] at hk
    omega
  rw [heq,← hd _ hin,clusterByte,diskBytes,hs.clusterToLba,hlba,u32,Nat.mod_eq_of_lt (by omega)]

theorem listByte_congr (hs : SamePlaces v v') (hl : DiskLayout v) (hr : ∀ x ∈ cs, InRange v x)
    (hd : ∀ x ∈ cs, ∀ a, InCluster v x a → v'.disk a = v.disk a) {k : Nat}
    (hk : k < cs.length*v.clusterSize) : listByte v' cs k = listByte v cs k := by
  have h0 : 0 < v.clusterSize := Nat.pos_of_ne_zero (fun h0 => by simp [h0] at hk)
  have hmem : cs.getD (k/v.clusterSize) 0 ∈ cs := by
    rw [List.getD_eq_getElem _ _ ((Nat.div_lt_iff_lt_mul h0).mpr hk)]
    exact List.getElem_mem _
  rw [listByte,listByte,hs.clusterSize]
  exact clusterByte_congr hs hl (hr _ hmem) (hd _ hmem) (Nat.mod_lt _ h0)

/-- The bytes of a file in terms of its clusters. -/
theorem chainAt_getD (h : IsChain v c cs) {j : Nat} (hj : j < cs.length) :
    chainAt v c j = cs.getD j 0 := by
  induction cs generalizing c j with
  | nil => simp at hj
  | cons y cs ih =>
    obtain ⟨rfl,-,hcs⟩ := h
    cases j with
    | zero => rfl
    | succ j =>
      rw [chainAt_succ,List.getD_cons_succ]
      exact ih hcs (by simpa using hj)

theorem fileByte_list (h : IsChain v c cs) {k : Nat} (h0 : 0 < v.clusterSize)
    (hk : k < cs.length*v.clusterSize) : fileByte v c k = listByte v cs k := by
  rw [fileByte,listByte,clusterByte,chainAt_getD h ((Nat.div_lt_iff_lt_mul h0).mpr hk)]

theorem listByte_append (v : Volume) {k : Nat} (hk : k < cs.length*v.clusterSize) (ds : List Nat) :
    listByte v (cs++ds) k = listByte v cs k := by
  have h0 : 0 < v.clusterSize := Nat.pos_of_ne_zero (fun h0 => by simp [h0] at hk)
  rw [listByte,listByte,List.getD_append _ _ _ _ ((Nat.div_lt_iff_lt_mul h0).mpr hk)]

/-- Bytes of clusters behind a list. -/
theorem listByte_behind (v : Volume) {k : Nat} (hk : cs.length*v.clusterSize ≤ k)
    (hk' : k < (cs++ds).length*v.clusterSize) : ∃ x ∈ ds, ∃ j < v.clusterSize, ∀ w : Volume,
      w.clusterSize = v.clusterSize → listByte w (cs++ds) k = clusterByte w x j := by
  have h0 : 0 < v.clusterSize := Nat.pos_of_ne_zero (fun h0 => by simp [h0] at hk')
  have hdiv : cs.length ≤ k/v.clusterSize := (Nat.le_div_iff_mul_le h0).mpr hk
  have hlt := (Nat.div_lt_iff_lt_mul h0).mpr hk'
  rw [List.length_append] at hlt
  have hj : k/v.clusterSize-cs.length < ds.length := by omega
  refine ⟨ds[k/v.clusterSize-cs.length],List.getElem_mem _,k%v.clusterSize,Nat.mod_lt _ h0,
    fun w hw => ?_⟩
  rw [listByte,hw,List.getD_append_right _ _ _ _ hdiv,List.getD_eq_getElem _ _ hj]

theorem Wrote.refl (h : IsChain v c cs) (hpos : pos ≤ cs.length*v.clusterSize) (src : Sector) :
    Wrote v v c cs [] pos 0 src where
  step := DiskStep.refl v
  chain := by rwa [List.append_nil]
  range := by simpa using Chained.all_ok h
  fresh := by simp
  order := rfl
  fat := fun _ _ _ => rfl
  covers := by simpa using hpos
  bytes := fun _ _ => by rw [overlay_zero]
  others := fun _ _ _ => rfl

/-- One part of a write after another. -/
theorem Wrote.trans (hl : DiskLayout v) (h1 : Wrote v v' c cs more pos r src)
    (h2 : Wrote v' v'' c (cs++more) more' (pos+r) r' (fun i => src (r+i))) :
    Wrote v v'' c cs (more++more') pos (r+r') src := by
  have hsize := h1.step.clusterSize
  have hfresh : ∀ x ∈ more', x ∉ cs++more ∧ fatAt v x = 0 := by
    intro x hx
    have h0 := h2.fresh x hx
    have hout : x ∉ cs++more := fun hin => h1.chain.used x hin h0
    have hlt := (h2.range x (List.mem_append_right _ hx)).2
    rw [h1.step.total] at hlt
    exact ⟨hout,by rw [← h1.fat x hlt hout]; exact h0⟩
  have hrange : ∀ x ∈ cs++more++more', InRange v x :=
    fun x hx => h1.step.inRange.mp (h2.range x hx)
  refine ⟨h1.step.trans h2.step,?_,?_,fun x hx => ?_,?_,fun d hd hout => ?_,?_,fun k hk => ?_,
    fun a ha hout => ?_⟩
  · rw [← List.append_assoc]
    exact h2.chain
  · rw [← List.append_assoc]
    exact hrange
  · rcases List.mem_append.mp hx with hx | hx
    · exact h1.fresh x hx
    · exact (hfresh x hx).2
  · rw [h1.order,h2.order,List.append_assoc]
  · rw [← List.append_assoc] at hout
    rw [h2.fat d (by rw [h1.step.total]; exact hd) hout,
      h1.fat d hd (fun hin => hout (List.mem_append_left _ hin))]
  · have hcov := h2.covers
    rw [hsize] at hcov
    rw [← List.append_assoc]
    omega
  · rw [← List.append_assoc] at hk ⊢
    rw [h2.bytes k (by rw [hsize]; exact hk)]
    have hold : listByte v' (cs++more++more') k =
        overlay (listByte v (cs++more++more')) pos r src k := by
      by_cases hin : k < (cs++more).length*v.clusterSize
      · rw [listByte_append v' (by rw [hsize]; exact hin),h1.bytes k hin]
        simp only [overlay,listByte_append v hin]
      · have hcov := h1.covers
        rw [overlay_out (by omega)]
        obtain ⟨x,hx,j,hj,hb⟩ := listByte_behind v (Nat.not_lt.mp hin) hk
        rw [hb v' hsize,hb v rfl]
        refine clusterByte_congr h1.step.places hl (hrange x (by simp [hx])) (fun a ha => ?_) hj
        refine h1.others a ha.data (fun y hy ha' => (hfresh x hx).1 ?_)
        have hy' := h1.range y hy
        rw [← InCluster.unique hy'.1 (hrange x (by simp [hx])).1 ha' ha]
        exact hy
    rw [← overlay_append (listByte v (cs++more++more')) src pos r r']
    simp only [overlay,hold]
  · rw [← List.append_assoc] at hout
    rw [h2.others a (by rw [h1.step.dataStart]; exact ha)
        (fun x hx => by rw [h1.step.inCluster]; exact hout x hx),
      h1.others a ha (fun x hx => hout x (List.mem_append_left _ hx))]

/-- A write to the chain of one owner leaves a volume in which nothing is shared. -/
theorem Wrote.consistent (h : Consistent v ex) (ho : startOf v ex o = some c) (hcs : IsChain v c cs)
    (hw : Wrote v v' c cs more pos r src) : Consistent v' ex := by
  have hother : ∀ o' c' ds, startOf v ex o' = some c' → IsChain v c' ds → o' ≠ o →
      IsChain v' c' ds := by
    intro o' c' ds ho' hds hne
    refine hds.keep hw.step (fun x hx => hw.fat x (Chained.all_ok hds x hx).2 (fun hin => ?_))
    rcases List.mem_append.mp hin with hin | hin
    · exact hne (h.apart o' o x ⟨c',ds,ho',hds,hx⟩ ⟨c,cs,ho,hcs,hin⟩)
    · exact hds.used x hx (hw.fresh x hin)
  refine h.carry hw.step (fun o' c' ds ho' hds => ?_)
  by_cases he : o' = o
  · subst he
    rw [ho,Option.some.injEq] at ho'
    subst ho'
    rw [hds.unique h.layout hcs]
    refine ⟨cs++more,hw.chain,fun x hx => ?_⟩
    rcases List.mem_append.mp hx with hx | hx
    · exact Or.inl hx
    · refine Or.inr ⟨hw.fresh x hx,fun o2 c2 ds2 ho2 hds2 hx2 => ?_⟩
      by_contra hne
      obtain ⟨-,es,hes⟩ := h.chain o2 c2 ho2
      rw [hds2.unique (hw.step.layout h.layout) (hother o2 c2 es ho2 hes hne)] at hx2
      exact hes.used x hx2 (hw.fresh x hx)
  · exact ⟨ds,hother o' c' ds ho' hds he,fun x hx => Or.inl hx⟩

/-- A free cluster linked behind the last one of a file. -/
theorem ChainLinked.wrote (hl : DiskLayout v) (h : IsChain v c cs) (hc : InRange v c)
    (hg : ChainLinked v v' (lastOf c cs) newc) (ho : freeOrder v = newc::freeOrder v')
    (hd : ∀ a, v.dataStart ≤ a → v'.disk a = v.disk a) (hpos : pos ≤ cs.length*v.clusterSize) (src : Sector) : Wrote v v' c cs [newc] pos 0 src := by
  obtain ⟨xs,hxs⟩ := h.head hl hc
  have hrange : ∀ x ∈ cs++[newc], InRange v x := by
    intro x hx
    rcases List.mem_append.mp hx with hx | hx
    · exact Chained.all_ok h x hx
    · rw [List.mem_singleton.mp hx]
      exact hg.range
  refine ⟨hg.step,h.link hl hc hg,hrange,by simpa using hg.free,ho,fun d hdt hout => ?_,?_,
    fun k hk => ?_,fun a ha _ => hd a ha⟩
  · have hlast := lastOf_mem (by rw [hxs]; simp : cs ≠ []) c
    rw [hg.fat d hdt,if_neg (fun he => hout (by simp [he])),
      if_neg (fun he => hout (by rw [he]; simp [hlast]))]
  · rw [List.length_append,Nat.add_mul]
    omega
  · rw [overlay_zero]
    exact listByte_congr hg.step.places hl hrange (fun x _ a ha => hd a ha.data) hk

/-- The cluster that comes next in a file, old or new. -/
theorem nextOrAlloc_cases (hq : v.io = []) (hl : DiskLayout v) (hx : x < v.totalClusters+2) :
    fatAt v x < endOfChain ∧ v.nextOrAlloc x = (some (fatAt v x),v) ∨
    endOfChain ≤ fatAt v x ∧ (v.nextOrAlloc x = (none,v) ∧ DiskFull v ∨
      ∃ newc v', v.nextOrAlloc x = (some newc,v') ∧ ChainLinked v v' x newc ∧
        freeOrder v = newc::freeOrder v' ∧ ∀ a, v.dataStart ≤ a → v'.disk a = v.disk a) := by
  rw [Volume.nextOrAlloc,Volume.fatGetEntry_quiet hq]
  dsimp only
  by_cases hend : endOfChain ≤ fatAt v x
  · right
    rw [if_pos hend]
    refine ⟨hend,?_⟩
    rcases allocCluster_spec hq hl with ⟨hno,hfull⟩ | ⟨newc,w,halloc,hc,h0,hs,hfat,hdisk⟩
    · exact Or.inl ⟨by rw [hno],hfull⟩
    · right
      have hsmall : newc%2^28 = newc := by
        have hfew := hl.few
        have := hc.2
        rw [endOfChain] at hfew
        omega
      have hne : x ≠ newc := by
        rintro rfl
        rw [h0,endOfChain] at hend
        omega
      obtain ⟨hs2,hfat2,hdisk2,hhint2,-⟩ :=
        fatSetEntry_spec (hs.io.trans hq) (hs.layout hl) (by rw [hs.total]; exact hx) newc
      have hx0 : fatAt w x ≠ 0 := by
        rw [hfat x hx,if_neg hne]
        rw [endOfChain] at hend
        omega
      refine ⟨newc,_,by rw [halloc],⟨hc,h0,hs.trans hs2,fun d hd => ?_⟩,?_,fun a ha => ?_⟩
      · rw [hfat2 d (by rw [hs.total]; exact hd),hfat d hd,hsmall]
        by_cases hdx : d = x
        · rw [if_pos hdx,if_neg (by rw [hdx]; exact hne),if_pos hdx]
        · rw [if_neg hdx,if_neg hdx]
      · -- the link marks no free cluster
        rw [allocCluster_order hq hl halloc,freeOrder_congr (hs.layout hl) hs2.total hhint2]
        intro d hd
        rw [hfat2 d hd,hsmall]
        by_cases hdx : d = x
        · rw [if_pos hdx,hdx]
          have := hc.1
          exact iff_of_false (by omega) hx0
        · rw [if_neg hdx]
      · rw [hdisk2 a (Or.inr (by rw [hs.dataStart]; exact ha)),hdisk a ha]
  · left
    rw [if_neg hend]
    exact ⟨by omega,rfl⟩

/-- The buffer holds the cluster, but for the chunk that is put there next. -/
theorem fillBuffer_quiet (hq : v.io = []) (x skip chunk : Nat) (cbuf : Sector) :
    ∃ buf, v.fillBuffer x skip chunk cbuf = (buf,v) ∧
      ∀ k < v.clusterSize, k < skip ∨ skip+chunk ≤ k → buf k = clusterByte v x k := by
  rw [Volume.fillBuffer]
  split_ifs with hpart
  · obtain ⟨buf,hread,hbuf⟩ := Volume.readSectors_quiet hq (v.clusterToLba x) v.sectorsPerCluster
    refine ⟨buf,by rw [hread],fun k hk _ => hbuf k ?_⟩
    rw [Volume.clusterSize] at hk
    omega
  · exact ⟨cbuf,rfl,fun k hk hout => by omega⟩

/-- Where a byte of the cluster behind `pre` is in the file. -/
theorem mem_middle {b m k n : Nat} (h0 : 0 < b) (hs : skip+n ≤ b) :
    (m*b+skip ≤ k ∧ k < m*b+skip+n) ↔ k/b = m ∧ skip ≤ k%b ∧ k%b < skip+n := by
  have hk := Nat.div_add_mod' k b
  have hlt := Nat.mod_lt k h0
  constructor
  · intro ⟨h1,h2⟩
    have hdiv : k/b = m := by
      rw [Nat.div_eq_iff h0]
      constructor <;> omega
    rw [hdiv] at hk
    exact ⟨hdiv,by omega,by omega⟩
  · rintro ⟨hdiv,h1,h2⟩
    rw [hdiv] at hk
    omega

/-- A chunk written to one cluster of a file. -/
theorem setCluster_wrote (hl : DiskLayout v) (h : IsChain v c (pre++x::post))
    (hs : skip+n ≤ v.clusterSize) (src : Sector) {buf : Sector}
    (hb : ∀ k < v.clusterSize, k < skip ∨ skip+n ≤ k → buf k = clusterByte v x k) :
    Wrote v (v.setSectors (v.clusterToLba x) (overlay buf skip n src) v.sectorsPerCluster) c
      (pre++x::post) [] (pre.length*v.clusterSize+skip) n src := by
  have hr := Chained.all_ok h
  have hx : InRange v x := hr x (by simp)
  have hstep := DiskStep.setSectors v (v.clusterToLba x) (overlay buf skip n src) v.sectorsPerCluster
  have hdisk := hl.disk_setCluster hx (overlay buf skip n src)
  have hhint := setSectors_hint v (v.clusterToLba x) (overlay buf skip n src) v.sectorsPerCluster
  generalize v.setSectors (v.clusterToLba x) (overlay buf skip n src) v.sectorsPerCluster = w at *
  have hfat : ∀ d < v.totalClusters+2, fatAt w d = fatAt v d := by
    refine fun d hd => fatAt_data hl hstep (fun a ha => ?_) hd
    rw [hdisk,if_neg]
    intro hin
    have := hin.data
    omega
  have hother : ∀ y, InRange v y → y ≠ x → ∀ a, InCluster v y a → w.disk a = v.disk a := by
    intro y hy hne a ha
    rw [hdisk,if_neg (fun hin => hne (InCluster.unique hy.1 hx.1 ha hin))]
  have hown : ∀ k < v.clusterSize, clusterByte w x k = overlay buf skip n src k := by
    intro k hk
    obtain ⟨hin,-⟩ := clusterByte_eq hl hx hk
    obtain ⟨-,heq⟩ := clusterByte_eq (hstep.layout hl) (hstep.inRange.mpr hx)
      (by rw [hstep.clusterSize]; exact hk)
    rw [heq,hstep.dataStart,hstep.spc,hdisk,if_pos hin,Nat.add_sub_cancel_left,
      Nat.div_add_mod']
  refine ⟨hstep,?_,by simpa using hr,by simp,?_,fun d hd _ => hfat d hd,?_,fun k hk => ?_,
    fun a ha hout => ?_⟩
  · rw [List.append_nil]
    exact h.keep hstep (fun y hy => hfat y (hr y hy).2)
  · exact (freeOrder_congr hl hstep.total hhint (fun d hd => by rw [hfat d hd])).symm
  · rw [List.append_nil,List.length_append,List.length_cons,Nat.add_mul,Nat.add_mul]
    omega
  · rw [List.append_nil] at hk ⊢
    have h0 : 0 < v.clusterSize := Nat.pos_of_ne_zero (fun h0 => by simp [h0] at hk)
    have hlt := (Nat.div_lt_iff_lt_mul h0).mpr hk
    have hmod := Nat.mod_lt k h0
    by_cases hdiv : k/v.clusterSize = pre.length
    · have hget : (pre++x::post).getD pre.length 0 = x := by
        rw [List.getD_append_right _ _ _ _ le_rfl]
        simp
      have hval : listByte w (pre++x::post) k = overlay buf skip n src (k%v.clusterSize) := by
        rw [listByte,hstep.clusterSize,hdiv,hget,hown _ hmod]
      have hmid := mem_middle (m := pre.length) (k := k) h0 hs
      rw [hval]
      by_cases hin : skip ≤ k%v.clusterSize ∧ k%v.clusterSize < skip+n
      · have hk' := Nat.div_add_mod' k v.clusterSize
        rw [hdiv] at hk'
        rw [overlay,if_pos hin,overlay,if_pos (hmid.mpr ⟨hdiv,hin⟩)]
        congr 1
        omega
      · rw [overlay,if_neg hin,overlay,if_neg (fun hh => hin (hmid.mp hh).2),listByte,hdiv,hget]
        exact hb _ hmod (by omega)
    · have hmid := mem_middle (m := pre.length) (k := k) h0 hs
      rw [overlay,if_neg (fun hh => hdiv (hmid.mp hh).1),listByte,listByte,hstep.clusterSize]
      rw [List.getD_eq_getElem _ _ hlt]
      have hy := hr _ (List.getElem_mem hlt)
      refine clusterByte_congr hstep.places hl hy (hother _ hy (fun he => hdiv ?_)) hmod
      have hmid' : pre.length < (pre++x::post).length := by simp
      have hx' : (pre++x::post)[pre.length] = x := by simp
      exact (List.Nodup.getElem_inj_iff (h.nodup hl)).mp (he.trans hx'.symm)
  · rw [hdisk,if_neg (hout x (by simp))]

/-- The cluster of a file that comes next, and the chain with it. -/
theorem next_wrote (hq : v.io = []) (hl : DiskLayout v) (hc : InRange v c)
    (h : IsChain v c (pre++x::post)) (hpos : pos ≤ (pre++x::post).length*v.clusterSize)
    (src : Sector) :
    v.nextOrAlloc x = (none,v) ∧ DiskFull v ∧ post = [] ∨
    ∃ y v' more post', v.nextOrAlloc x = (some y,v') ∧ Wrote v v' c (pre++x::post) more pos 0 src ∧
      pre++x::post++more = pre++[x]++y::post' := by
  have hr := Chained.all_ok h
  have hlast : endOfChain ≤ fatAt v x → post = [] := by
    intro hend
    cases post with
    | nil => rfl
    | cons y post =>
      obtain ⟨hy,hy',-⟩ := ((chained_append.mp h).2).2.2
      exact absurd (hy ▸ hend) (hl.chain_apart y hy')
  rcases nextOrAlloc_cases hq hl (hr x (by simp)).2 with ⟨hlt,hnext⟩ | ⟨hend,⟨hno,hfull⟩ | hnew⟩
  · right
    obtain ⟨-,-,htail⟩ := (chained_append.mp h).2
    cases post with
    | nil =>
      have hend : endOfChain ≤ fatAt v x := htail
      omega
    | cons y post =>
      obtain ⟨hy,-,-⟩ := htail
      exact ⟨_,v,[],post,hnext,.refl h hpos src,by rw [hy]; simp⟩
  · exact Or.inl ⟨hno,hfull,hlast hend⟩
  · right
    obtain ⟨newc,v',hnew,hg,ho,hd⟩ := hnew
    obtain rfl := hlast hend
    have hlast : lastOf c (pre++[x]) = x := by
      rw [lastOf,List.getLast?_concat]
      rfl
    exact ⟨newc,v',[newc],[],hnew,ChainLinked.wrote hl h hc (by rw [hlast]; exact hg) ho hd hpos src,
      by simp⟩

/-- The loop that looks for the cluster of an offset. -/
theorem writeSkip_spec (hq : v.io = []) (hl : DiskLayout v) (hc : InRange v c)
    (h : IsChain v c (pre++x::post)) (hf : skip/v.clusterSize < fuel) (src : Sector) :
    (∃ v' more, writeSkip fuel x skip v = some (none,v') ∧
      Wrote v v' c (pre++x::post) more 0 0 src ∧ DiskFull v' ∧
      (pre++x::post++more).length*v.clusterSize ≤ pre.length*v.clusterSize+skip) ∨
    ∃ y j v' more pre' post', writeSkip fuel x skip v = some (some (y,j),v') ∧
      Wrote v v' c (pre++x::post) more 0 0 src ∧ pre++x::post++more = pre'++y::post' ∧
      j < v.clusterSize ∧ pre'.length*v.clusterSize+j = pre.length*v.clusterSize+skip := by
  have h0 : 0 < v.clusterSize := by
    have := hl.spc
    rw [Volume.clusterSize]
    omega
  induction fuel generalizing pre x post skip v src with
  | zero => exact absurd hf (Nat.not_lt_zero _)
  | succ fuel ih =>
    rw [writeSkip]
    by_cases hle : v.clusterSize ≤ skip
    · rw [if_pos hle]
      have hstep := Nat.div_eq_sub_div h0 hle
      rcases next_wrote hq hl hc h (Nat.zero_le _) src with ⟨hno,hfull,rfl⟩ |
        ⟨y,v',more,post',hnext,hw,heq⟩
      · left
        refine ⟨v,[],by rw [hno],.refl h (Nat.zero_le _) src,hfull,?_⟩
        rw [List.append_nil,List.length_append,List.length_singleton,Nat.add_mul]
        omega
      · have hsize := hw.step.clusterSize
        have hchain := hw.chain
        rw [heq] at hchain
        rw [hnext]
        dsimp only
        have hf' : (skip-v'.clusterSize)/v'.clusterSize < fuel := by
          rw [hsize]
          omega
        rcases ih (hw.step.io.trans hq) (hw.step.layout hl) (hw.step.inRange.mpr hc) hchain hf' (fun i => src (0+i)) (by rw [hsize]; exact h0) with
          ⟨w,more',hrun,hw',hfull,hlong⟩ | ⟨z,j,w,more',pre',post2,hrun,hw',heq',hj,hpos⟩
        · rw [← heq] at hw'
          refine Or.inl ⟨w,more++more',hrun,hw.trans hl hw',hfull,?_⟩
          have hp : (pre++[x]).length*v.clusterSize = pre.length*v.clusterSize+v.clusterSize := by
            rw [List.length_append,List.length_singleton,Nat.add_mul,Nat.one_mul]
          rw [hsize,← heq,List.append_assoc _ more more',hp] at hlong
          omega
        · rw [hsize] at hj hpos
          rw [← heq] at hw' heq'
          refine Or.inr ⟨z,j,w,more++more',pre',post2,hrun,hw.trans hl hw',?_,hj,?_⟩
          · rw [← List.append_assoc]
            exact heq'
          · rw [List.length_append,List.length_singleton,Nat.add_mul] at hpos
            omega
    · right
      rw [if_neg hle]
      exact ⟨x,skip,v,[],pre,post,rfl,.refl h (Nat.zero_le _) src,by simp,by omega,rfl⟩

/-- The loop that writes the bytes: it stops early only when no cluster is free. -/
theorem writeCopy_spec (hq : v.io = []) (hl : DiskLayout v) (hc : InRange v c)
    (h : IsChain v c (pre++x::post)) (hs : skip < v.clusterSize) (hd : done ≤ len)
    (hf : len-done < fuel) (cbuf : Sector) : ∃ r v' more,
      writeCopy len src fuel x skip done cbuf v = some (done+r,v') ∧
      Wrote v v' c (pre++x::post) more (pre.length*v.clusterSize+skip) r (fun i => src (done+i)) ∧
      r ≤ len-done ∧ (r = len-done ∨ DiskFull v' ∧
        pre.length*v.clusterSize+skip+r = (pre++x::post++more).length*v.clusterSize) := by
  induction fuel generalizing pre x post skip done cbuf v with
  | zero => exact absurd hf (Nat.not_lt_zero _)
  | succ fuel ih =>
    have hpos : pre.length*v.clusterSize+skip ≤ (pre++x::post).length*v.clusterSize := by
      rw [List.length_append,List.length_cons,Nat.add_mul,Nat.add_mul]
      omega
    rw [writeCopy]
    by_cases hlt : done < len
    · obtain ⟨buf,hfill,hbuf⟩ :=
        fillBuffer_quiet hq x skip (min (v.clusterSize-skip) (len-done)) cbuf
      rw [if_pos hlt]
      dsimp only
      rw [hfill]
      dsimp only
      have h1 := Nat.min_le_left (v.clusterSize-skip) (len-done)
      have h2 := Nat.min_le_right (v.clusterSize-skip) (len-done)
      have h3 := min_choice (v.clusterSize-skip) (len-done)
      generalize min (v.clusterSize-skip) (len-done) = chunk at *
      rw [Volume.writeSectors_quiet hq]
      dsimp only
      have hw := setCluster_wrote hl h (by omega) (fun i => src (done+i)) hbuf
      generalize v.setSectors (v.clusterToLba x)
        (overlay buf skip chunk (fun i => src (done+i))) v.sectorsPerCluster = w at *
      by_cases hmore : done+chunk < len
      · -- the chunk ends with its cluster
        have hcs : skip+chunk = v.clusterSize := by omega
        have hchain := hw.chain
        have hsize := hw.step.clusterSize
        have hqw := hw.step.io.trans hq
        have hlw := hw.step.layout hl
        have hcw := hw.step.inRange.mpr hc
        have hcov := hw.covers
        rw [List.append_nil] at hchain hcov
        rw [← hsize] at hcov
        rw [if_pos hmore]
        rcases next_wrote hqw hlw hcw hchain hcov (fun i => src (done+(chunk+i))) with
          ⟨hno,hfull,rfl⟩ | ⟨y,u,more,post',hnext,hu,heq⟩
        · rw [hno]
          refine ⟨chunk,w,[],rfl,hw,h2,Or.inr ⟨hfull,?_⟩⟩
          rw [List.append_nil,List.length_append,List.length_singleton,Nat.add_mul]
          omega
        · have hu' : Wrote w u c (pre++x::post++[]) more (pre.length*v.clusterSize+skip+chunk) 0
              (fun i => src (done+(chunk+i))) := by
            rw [List.append_nil,← hsize]
            exact hu
          have hwu := hw.trans hl hu'
          have hsize' := hwu.step.clusterSize
          have hchain' := hu.chain
          rw [heq] at hchain'
          obtain ⟨r,v',more',hrun,hv,hle,hwhy⟩ := ih (hwu.step.io.trans hq) (hwu.step.layout hl)
            (hwu.step.inRange.mpr hc) hchain' (by rw [hsize']; omega : 0 < u.clusterSize)
            (by omega : done+chunk ≤ len) (by omega) (overlay buf skip chunk (fun i => src (done+i)))
          have hv' : Wrote u v' c (pre++x::post++([]++more)) more'
              (pre.length*v.clusterSize+skip+(chunk+0)) r (fun i => src (done+(chunk+0+i))) := by
            have hp : (pre++[x]).length*u.clusterSize+0 = pre.length*v.clusterSize+skip+(chunk+0) := by
              rw [hsize',List.length_append,List.length_singleton,Nat.add_mul]
              omega
            rw [List.nil_append,heq,← hp]
            simpa only [Nat.add_zero,Nat.add_assoc] using hv
          rw [hnext]
          dsimp only
          rw [hrun]
          refine ⟨chunk+r,v',more++more',by rw [Nat.add_assoc],hwu.trans hl hv',by omega,
            hwhy.imp (fun hr => by omega) (fun hend => ⟨hend.1,?_⟩)⟩
          have hlong := hend.2
          have hp : (pre++[x]).length*v.clusterSize = pre.length*v.clusterSize+v.clusterSize := by
            rw [List.length_append,List.length_singleton,Nat.add_mul,Nat.one_mul]
          rw [hsize',← heq,List.append_assoc _ more more',hp] at hlong
          omega
      · rw [if_neg hmore]
        exact ⟨chunk,w,[],rfl,hw,h2,Or.inl (by omega)⟩
    · rw [if_neg hlt]
      exact ⟨0,v,[],rfl,.refl h hpos _,by omega,Or.inl (by omega)⟩

end KiNBOL
