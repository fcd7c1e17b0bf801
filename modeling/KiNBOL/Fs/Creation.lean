import KiNBOL.Fs.Tables

namespace KiNBOL

variable {v v' w : Volume} {c d dir fuel newc : Nat} {cs cs' ds : List Nat} {k : Kmalloc}
  {locs : List Loc} {ex : List Nat} {path leaf : CName} {p : Parent}

/-- A call gets past its checks: the parent is there, the name is new. -/
def CreateReady (v : Volume) (path : CName) (p : Parent) : Prop :=
  v.fatOk = true ∧ v.slotFull = false ∧ resolveParent v (stripDevPrefix path) = some p ∧
  (v.vfsFind (joinFullName p.name p.leaf)).isSome = false

theorem CreateReady.unique {q : Parent} (h : CreateReady v path p) (h' : CreateReady v path q) :
    p = q := Option.some.inj (h.2.2.1.symm.trans h'.2.2.1)

/-- The new slots for a leaf in a directory. -/
def entrySlots (k : Kmalloc) (v : Volume) (cs : List Nat) (leaf : CName) (attr : Byte)
    (cluster : Nat) : List Slot :=
  newSlots leaf (chosenShort k v cs leaf) attr cluster

/-- What `writeEntry` does: nothing, for want of a place, or it writes the slots. -/
theorem writeEntry_cases (hq : v.io = []) (h : Consistent v ex) (hd : DirOf v ex dir cs)
    (hf : v.totalClusters+2 ≤ fuel) (k : Kmalloc) (leaf : CName) (s : ShortName) (attr : Byte)
    (cluster : Nat) :
    (NoPlace k (newSlots leaf s attr cluster).length v cs ∧
      writeEntry fuel k dir leaf s attr cluster 0 v = some (none,v)) ∨
    ¬NoPlace k (newSlots leaf s attr cluster).length v cs ∧ ∃ locs new w loc,
      Written v w dir cs new locs (newSlots leaf s attr cluster) ∧ locs.getLast? = some loc ∧
      writeEntry fuel k dir leaf s attr cluster 0 v = some (some loc,w) := by
  have hchain := h.dirChain hd
  obtain ⟨h1,hn⟩ := length_newSlots leaf s attr cluster
  rw [writeEntry_spec hq h.layout hchain (h.fuel_le hd hf)]
  rcases placeFor_cases h.layout hq hchain hd.used k h1 hn with
    ⟨hno,hwhy⟩ | ⟨hplace,locs,w,new,hfor,hp,hlen,pre,block,post,hs,-,hfree,hfst⟩
  · left
    refine ⟨hwhy,?_⟩
    rw [hno]
  · right
    have hne : locs ≠ [] := by
      rintro rfl
      rw [List.length_nil] at hlen
      omega
    refine ⟨hplace,locs,new,_,locs.getLast hne,hp.written h.layout hchain.range (h.dir_nodup hd)
      hd.used hs hfree hfst hlen.symm,List.getLast?_eq_some_getLast hne,?_⟩
    rw [hfor]
    dsimp only
    rw [List.getLast?_eq_some_getLast hne]

/-- `fat32_create_file` stops at a check, finds no place, or writes the entry and goes on. -/
theorem fat32CreateFile_cases (hq : v.io = []) (h : Consistent v ex)
    (hf : v.totalClusters+2 ≤ fuel) (k : Kmalloc) (path : CName) :
    ((¬∃ p, CreateReady v path p) ∧
      ∃ st, st ≠ .ok ∧ fat32CreateFile fuel k path v = some (st,v)) ∨
    ∃ p cs, CreateReady v path p ∧ DirOf v ex p.dirCluster cs ∧
      ((NoPlace k (entrySlots k v cs p.leaf 0x20#8 0).length v cs ∧
          fat32CreateFile fuel k path v = some (.errDisk,v)) ∨
        ¬NoPlace k (entrySlots k v cs p.leaf 0x20#8 0).length v cs ∧ ∃ locs new w loc,
          Written v w p.dirCluster cs new locs (entrySlots k v cs p.leaf 0x20#8 0) ∧
          locs.getLast? = some loc ∧
          writeEntry fuel k p.dirCluster p.leaf (chosenShort k v cs p.leaf) 0x20#8 0 0 v =
            some (some loc,w) ∧
          fat32CreateFile fuel k path v = some (registerNew k p vfsFile 0 loc w)) := by
  unfold fat32CreateFile
  by_cases hok : v.fatOk = true
  swap
  · left
    exact ⟨fun ⟨p,hp⟩ => hok hp.1,.errNoFs,by simp,if_pos (by simpa using hok)⟩
  rw [if_neg (by simpa using hok)]
  by_cases hfull : v.slotFull = true
  · left
    refine ⟨fun ⟨p,hp⟩ => ?_,.errDisk,by simp,if_pos hfull⟩
    have hnot := hp.2.1
    rw [hfull] at hnot
    simp at hnot
  rw [if_neg hfull]
  cases hres : resolveParent v (stripDevPrefix path) with
  | none =>
    left
    refine ⟨fun ⟨p,hp⟩ => ?_,.errNoParent,by simp,rfl⟩
    have hsome := hp.2.2.1
    rw [hres] at hsome
    simp at hsome
  | some p =>
    obtain ⟨cs,hd⟩ := h.resolveParent hres
    have hfuel := h.fuel_le hd hf
    dsimp only
    rw [newShortName_spec hq (h.dirChain hd).walk (by omega)]
    dsimp only
    by_cases hfind : (v.vfsFind (joinFullName p.name p.leaf)).isSome = true
    · left
      refine ⟨fun ⟨q,hq⟩ => ?_,.errExists,by simp,if_pos hfind⟩
      obtain ⟨-,-,hq1,hq2⟩ := hq
      rw [hres,Option.some.injEq] at hq1
      rw [← hq1,hfind] at hq2
      simp at hq2
    · right
      rw [if_neg hfind]
      refine ⟨p,cs,⟨hok,by simpa using hfull,hres,by simpa using hfind⟩,hd,?_⟩
      rcases writeEntry_cases hq h hd hf k p.leaf (chosenShort k v cs p.leaf) 0x20#8 0 with
        ⟨hno,hres⟩ | ⟨hplace,locs,new,w,loc,hw,hlast,hres⟩
      · exact Or.inl ⟨hno,by rw [hres]⟩
      · exact Or.inr ⟨hplace,locs,new,w,loc,hw,hlast,hres,by rw [hres]⟩

/-- A cluster was taken and is a chain of its own, nobody's yet. -/
structure Fresh (v v' : Volume) (newc : Nat) : Prop where
  range : InRange v newc
  free : fatAt v newc = 0
  step : DiskStep v v'
  fat : ∀ d < v.totalClusters+2, fatAt v' d = if d = newc then 0x0FFFFFFF else fatAt v d
  disk : ∀ a, v.dataStart ≤ a → v'.disk a = v.disk a

/-- The allocation of `fat32_mkdir`. -/
theorem alloc_fresh (hq : v.io = []) (hl : DiskLayout v) :
    (v.allocCluster = (none,v) ∧ ∀ c, InRange v c → fatAt v c ≠ 0) ∨
    ∃ newc v', v.allocCluster = (some newc,v') ∧
      Fresh v (v'.fatSetEntry newc 0x0FFFFFFF) newc := by
  rcases allocCluster_spec hq hl with hno | ⟨newc,v',halloc,hr,h0,hs,hfat,hdisk⟩
  · exact Or.inl hno
  · right
    have hl' := hs.layout hl
    obtain ⟨hs2,hfat2,hdisk2,-,-⟩ :=
      fatSetEntry_spec (hs.io.trans hq) hl' (hs.total.symm ▸ hr.2) 0x0FFFFFFF
    refine ⟨newc,v',halloc,hr,h0,hs.trans hs2,fun d hd => ?_,fun a ha => ?_⟩
    · rw [hfat2 d (by rw [hs.total]; exact hd),hfat d hd]
      split_ifs <;> rfl
    · rw [hdisk2 a (Or.inr (by rw [hs.dataStart]; exact ha)),hdisk a ha]

section

variable (hf : Fresh v v' newc)

include hf

theorem Fresh.isChain : IsChain v' newc [newc] := by
  refine ⟨rfl,hf.step.inRange.mpr hf.range,?_⟩
  show endOfChain ≤ fatAt v' newc
  rw [hf.fat newc hf.range.2,if_pos rfl,endOfChain]
  omega

/-- Chains in use do not change. -/
theorem Fresh.keep (h : IsChain v c cs) : IsChain v' c cs := by
  refine h.keep hf.step (fun x hx => ?_)
  have hne : x ≠ newc := fun he => h.used x hx (he ▸ hf.free)
  rw [hf.fat x (Chained.all_ok h x hx).2,if_neg hne]

theorem Fresh.dirSlots (h : Consistent v ex) (hr : ∀ c ∈ cs, InRange v c) :
    v'.dirSlots cs = v.dirSlots cs := by
  apply dirSlots_congr hf.step
  intro loc hloc
  obtain ⟨-,c,hc,hin⟩ := (h.layout.mem_dirLocs hr).mp hloc
  rw [dirSlotAt,hf.disk _ hin.data,dirSlotAt]

/-- The new cluster is one more owner's. -/
theorem Fresh.consistent (h : Consistent v ex) : Consistent v' (ex++[newc]) := by
  have hold : Consistent v' ex := by
    refine h.keep hf.step (fun o x hx => ?_)
    have hne : x ≠ newc := fun he => hx.used (he ▸ hf.free)
    rw [hf.fat x hx.inRange.2,if_neg hne]
  have hl' := hold.layout
  have hstart : ∀ o c, startOf v' (ex++[newc]) o = some c →
      startOf v' ex o = some c ∨ o = .extra ex.length ∧ c = newc := by
    intro o c ho
    cases o with
    | root => exact Or.inl ho
    | file i => exact Or.inl ho
    | extra j =>
      simp only [startOf] at ho ⊢
      rcases Nat.lt_or_ge j ex.length with hj | hj
      · rw [List.getElem?_append_left hj] at ho
        exact Or.inl ho
      · rw [List.getElem?_append_right hj] at ho
        obtain ⟨hlt,he⟩ := List.getElem?_eq_some_iff.mp ho
        simp only [List.length_singleton] at hlt
        have hj0 : j-ex.length = 0 := by omega
        refine Or.inr ⟨by rw [Owner.extra.injEq]; omega,?_⟩
        simp [hj0] at he
        exact he.symm
  have hout : ∀ o, ¬Owns v' ex o newc := by
    rintro o ⟨c,cs,ho,hcs,hx⟩
    rw [hf.step.startOf] at ho
    obtain ⟨-,ds,hds⟩ := h.chain o c ho
    rw [hcs.unique hl' (hf.keep hds)] at hx
    exact hds.used newc hx hf.free
  refine ⟨hl',fun o c ho => ?_,?_,hold.located,hold.others⟩
  · rcases hstart o c ho with ho | ⟨-,rfl⟩
    · exact hold.chain o c ho
    · exact ⟨hf.step.inRange.mpr hf.range,[c],hf.isChain⟩
  · rintro o o' x ⟨c,cs,ho,hcs,hx⟩ ⟨c',cs',ho',hcs',hx'⟩
    rcases hstart o c ho with ho1 | ⟨rfl,rfl⟩
    · rcases hstart o' c' ho' with ho1' | ⟨rfl,rfl⟩
      · exact hold.apart o o' x ⟨c,cs,ho1,hcs,hx⟩ ⟨c',cs',ho1',hcs',hx'⟩
      · rw [hcs'.unique hl' hf.isChain,List.mem_singleton] at hx'
        exact absurd ⟨c,cs,ho1,hcs,hx' ▸ hx⟩ (hout o)
    · rcases hstart o' c' ho' with ho1' | ⟨rfl,rfl⟩
      · rw [hcs.unique hl' hf.isChain,List.mem_singleton] at hx
        exact absurd ⟨c',cs',ho1',hcs',hx ▸ hx'⟩ (hout o')
      · rfl

theorem Fresh.dirOf (hd : DirOf v ex dir cs) : DirOf v' (ex++[newc]) dir cs := by
  rcases hd with ⟨o,ho,hcs⟩ | h0
  · refine Or.inl ⟨o,⟨?_,?_⟩,hf.keep hcs⟩
    · cases o with
      | root => rw [hf.step.startOf]; exact ho.1
      | file i => rw [hf.step.startOf]; exact ho.1
      | extra j =>
        have hj := ho.1
        simp only [startOf] at hj ⊢
        obtain ⟨hlt,-⟩ := List.getElem?_eq_some_iff.mp hj
        rw [List.getElem?_append_left hlt]
        exact hj
    · rw [hf.step.files]
      exact ho.2
  · exact Or.inr h0

end

end KiNBOL
