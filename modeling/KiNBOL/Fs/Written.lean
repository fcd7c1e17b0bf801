import KiNBOL.Fs.Create

namespace KiNBOL

variable {v v' w : Volume} {c d dir fuel : Nat} {cs cs' ds : List Nat} {k : Kmalloc}
  {locs : List Loc} {ex new : List Nat} {es : List Slot}

/-- Slots of a new cluster. -/
def zeroSlots (v : Volume) (new : List Nat) : List (Loc × Slot) :=
  (dirLocs v new).map (fun loc => (loc,Slot.zero))

/-- How a directory's FAT chain and zeroed slots look after a search: `new` is empty or the one
cluster by which the directory grew. -/
structure Placed (v w : Volume) (dir : Nat) (cs new : List Nat) : Prop where
  step : DiskStep v w
  how : w = v ∧ new = [] ∨ ∃ newc, new = [newc] ∧ DirGrown v w (lastOf dir cs) newc
  slots : w.dirSlots (cs++new) = v.dirSlots cs++zeroSlots v new
  others : ∀ a, v.dataStart ≤ a → (∀ c ∈ new, ¬InCluster v c a) → w.disk a = v.disk a

theorem dirSlots_append (v : Volume) (cs ds : List Nat) :
    v.dirSlots (cs++ds) = v.dirSlots cs++v.dirSlots ds := List.flatMap_append

/-- A directory before and after it grew. -/
theorem DirGrown.placed (hl : DiskLayout v) (hr : ∀ c ∈ cs, InRange v c) (hu : ∀ c ∈ cs, fatAt v c ≠ 0)
    (hg : DirGrown v w (lastOf dir cs) d) : Placed v w dir cs [d] where
  step := hg.step
  how := Or.inr ⟨d,rfl,hg⟩
  slots := by
    rw [dirSlots_append]
    congr 1
    · apply dirSlots_congr hg.step
      intro loc hloc
      obtain ⟨-,c,hc,hin⟩ := (hl.mem_dirLocs hr).mp hloc
      have hne : ¬InCluster v d loc.lba := by
        intro hd
        have := InCluster.unique (hr c hc).1 hg.range.1 hin hd
        exact hu c hc (this ▸ hg.free)
      rw [dirSlotAt,hg.disk _ hin.data,if_neg hne,dirSlotAt]
    · rw [dirSlots_eq,zeroSlots,hg.step.dirLocs]
      apply List.map_congr_left
      intro loc hloc
      obtain ⟨-,c,hc,hin⟩ := (hl.mem_dirLocs (by simpa using hg.range)).mp hloc
      rw [List.mem_singleton.mp hc] at hin
      rw [dirSlotAt,hg.disk _ hin.data,if_pos hin]
      rfl
  others := by
    intro a ha hout
    rw [hg.disk a ha,if_neg (hout d (by simp))]

theorem Placed.refl (v : Volume) (dir : Nat) (cs : List Nat) : Placed v v dir cs [] where
  step := DiskStep.refl v
  how := Or.inl ⟨rfl,rfl⟩
  slots := by simp [zeroSlots,dirLocs]
  others := fun _ _ _ => rfl

/-- No place for so many slots: neither a run nor a free cluster, or no memory to look for one. -/
def NoPlace (k : Kmalloc) (needed : Nat) (v : Volume) (cs : List Nat) : Prop :=
  k .slots = false ∨
  (∃ run, freeRun needed (v.dirSlots cs) [] = .inr run) ∧ ∀ c, InRange v c → fatAt v c ≠ 0

/-- The search for free slots of a directory. -/
theorem placeFor_cases (hl : DiskLayout v) (hq : v.io = []) (hd : DirChain v dir cs)
    (hu : ∀ c ∈ cs, fatAt v c ≠ 0) (k : Kmalloc) {needed : Nat} (h1 : 1 ≤ needed)
    (hn : needed ≤ 11) :
    (placeFor k needed v dir cs = (none,v) ∧ NoPlace k needed v cs) ∨
    ¬NoPlace k needed v cs ∧ ∃ locs w new, placeFor k needed v dir cs = (some locs,w) ∧
      Placed v w dir cs new ∧ locs.length = needed ∧
      ∃ pre block post, w.dirSlots (cs++new) = pre++block++post ∧
        (∀ x ∈ pre.getLast?, x.2.isFree = false) ∧
        (∀ x ∈ block, x.2.isFree = true) ∧ block.map Prod.fst = locs := by
  have hspec := freeRun_spec needed (v.dirSlots cs) [] [] (by simp) (by simp)
    (by rw [List.length_nil]; omega)
  rw [List.map_nil] at hspec
  cases hk : k .slots with
  | false => exact Or.inl ⟨by rw [placeFor,if_pos hk],Or.inl hk⟩
  | true =>
    have hk' : ¬k .slots = false := by simp [hk]
    cases hrun : freeRun needed (v.dirSlots cs) [] with
    | inl run =>
      rw [hrun] at hspec
      obtain ⟨pre,block,post,hsplit,hlast,hfree,hfst,hlen⟩ := hspec
      refine Or.inr ⟨?_,run,v,[],by rw [placeFor,if_neg hk',hrun],Placed.refl v dir cs,hlen,
        pre,block,post,?_,hlast,hfree,hfst⟩
      · rintro (hno | ⟨⟨run',hrun'⟩,-⟩)
        · exact hk' hno
        · rw [hrun] at hrun'
          simp at hrun'
      · rw [List.append_nil]
        simpa using hsplit
    | inr run =>
      rw [hrun] at hspec
      obtain ⟨pre,block,hsplit,hlast,hfree,hfst,hlen⟩ := hspec
      rcases extendDir_spec hq hl hd.last with ⟨hno,hfull⟩ | ⟨newc,w,hext,hg⟩
      · exact Or.inl ⟨by rw [placeFor,if_neg hk',hrun]; dsimp only; rw [hno],
          Or.inr ⟨⟨run,hrun⟩,hfull⟩⟩
      · have hp := hg.placed hl hd.range hu
        have hsplit' : v.dirSlots cs = pre++block := by simpa using hsplit
        have hzero : zeroSlots v [newc] = (v.slotLocs newc).map (fun loc => (loc,Slot.zero)) := by
          simp [zeroSlots,dirLocs]
        refine Or.inr ⟨?_,run++(v.slotLocs newc).take (needed-run.length),w,[newc],?_,hp,?_,pre,
          block++(zeroSlots v [newc]).take (needed-run.length),
          (zeroSlots v [newc]).drop (needed-run.length),?_,hlast,?_,?_⟩
        · rintro (hno | ⟨-,hfull⟩)
          · exact hk' hno
          · exact hfull newc hg.range hg.free
        · rw [placeFor,if_neg hk',hrun]
          dsimp only
          rw [hext]
          dsimp only
          rw [hg.slotLocs]
        · have hspc := hl.spc
          rw [List.length_append,List.length_take,hl.slotLocs_eq hg.range,List.length_map,
            List.length_range]
          omega
        · rw [hp.slots,hsplit',List.append_assoc,List.append_assoc,List.append_assoc,
            List.take_append_drop]
        · intro x hx
          rcases List.mem_append.mp hx with hx | hx
          · exact hfree x hx
          · rw [hzero] at hx
            obtain ⟨loc,-,rfl⟩ := List.mem_map.mp (List.mem_of_mem_take hx)
            rfl
        · rw [List.map_append,hfst,hzero,← List.map_take,List.map_map]
          congr 1
          exact List.map_id _

/-- Slots written into a directory: what the call has done to the disk. -/
structure Written (v v' : Volume) (dir : Nat) (cs new : List Nat) (locs : List Loc)
    (es : List Slot) : Prop where
  step : DiskStep v v'
  fat : new = [] ∧ (∀ d < v.totalClusters+2, fatAt v' d = fatAt v d) ∨
    ∃ newc w, new = [newc] ∧ DirGrown v w (lastOf dir cs) newc ∧ DiskStep w v' ∧
      ∀ d < v.totalClusters+2, fatAt v' d = fatAt w d
  slots : ∃ pre block post, v.dirSlots cs++zeroSlots v new = pre++block++post ∧
    v'.dirSlots (cs++new) = pre++locs.zip es++post ∧ (∀ x ∈ block, x.2.isFree = true) ∧
    block.map Prod.fst = locs
  length : locs.length = es.length
  others : ∀ a, v.dataStart ≤ a → (∀ c ∈ cs++new, ¬InCluster v c a) → v'.disk a = v.disk a

theorem Placed.new_spec (hp : Placed v w dir cs new) (hu : ∀ c ∈ cs, fatAt v c ≠ 0) :
    (∀ c ∈ new, InRange v c) ∧ new.Nodup ∧ ∀ c ∈ new, c ∉ cs := by
  rcases hp.how with ⟨-,rfl⟩ | ⟨newc,rfl,hg⟩
  · simp
  · refine ⟨by simpa using hg.range,by simp,fun c hc hin => ?_⟩
    rw [List.mem_singleton.mp hc] at hin
    exact hu newc hin hg.free

/-- Writing the slots that were found. -/
theorem Placed.written (hl : DiskLayout v) (hp : Placed v w dir cs new) (hr : ∀ c ∈ cs, InRange v c)
    (hnd : cs.Nodup) (hu : ∀ c ∈ cs, fatAt v c ≠ 0) {pre block post : List (Loc × Slot)}
    (hs : w.dirSlots (cs++new) = pre++block++post) (hfree : ∀ x ∈ block, x.2.isFree = true)
    (hfst : block.map Prod.fst = locs) (hlen : es.length = locs.length) :
    Written v (w.putAll (locs.zip es)) dir cs new locs es := by
  obtain ⟨hrn,hnn,hout⟩ := hp.new_spec hu
  have hl' := hp.step.layout hl
  have hr' : ∀ c ∈ cs++new, InRange w c := by
    intro c hc
    rw [hp.step.inRange]
    rcases List.mem_append.mp hc with hc | hc
    · exact hr c hc
    · exact hrn c hc
  have hnd' : (cs++new).Nodup :=
    List.nodup_append.mpr ⟨hnd,hnn,fun a ha b hb he => hout b hb (he ▸ ha)⟩
  have hlba : ∀ x ∈ locs.zip es, ∃ c ∈ cs++new, InCluster v c x.1.lba := by
    intro x hx
    have hx1 : x.1 ∈ locs := (List.of_mem_zip (a := x.1) (b := x.2) hx).1
    rw [← hfst,List.mem_map] at hx1
    obtain ⟨y,hy,he⟩ := hx1
    have hmem : y.1 ∈ dirLocs w (cs++new) := by
      rw [← dirSlots_fst,hs]
      exact List.mem_map_of_mem (by simp [hy])
    obtain ⟨-,c,hc,hin⟩ := (hl'.mem_dirLocs hr').mp hmem
    refine ⟨c,hc,?_⟩
    rw [InCluster,hp.step.dataStart,hp.step.spc] at hin
    exact he ▸ hin
  have hput := DiskStep.putAll w (locs.zip es)
  have hdata : ∀ a, a < w.dataStart → (w.putAll (locs.zip es)).disk a = w.disk a := by
    intro a ha
    refine disk_putAll (fun x hx he => ?_)
    obtain ⟨c,-,hin⟩ := hlba x hx
    have := hin.data
    rw [hp.step.dataStart] at ha
    omega
  have hfat : ∀ d < v.totalClusters+2, fatAt (w.putAll (locs.zip es)) d = fatAt w d :=
    fun d hd => fatAt_data hl' hput hdata (by rw [hp.step.total]; exact hd)
  refine ⟨hp.step.trans hput,?_,⟨pre,block,post,hp.slots ▸ hs,?_,hfree,hfst⟩,hlen.symm,?_⟩
  · rcases hp.how with ⟨rfl,rfl⟩ | ⟨newc,rfl,hg⟩
    · exact Or.inl ⟨rfl,hfat⟩
    · exact Or.inr ⟨newc,w,rfl,hg,hput,hfat⟩
  · rw [← hfst]
    exact dirSlots_putAll hl' hr' hnd' hs (by rw [hlen,← hfst,List.length_map])
  · intro a ha hno
    rw [disk_putAll (fun x hx he => ?_)]
    · exact hp.others a ha (fun c hc => hno c (List.mem_append_right _ hc))
    · obtain ⟨c,hc,hin⟩ := hlba x hx
      exact hno c hc (he ▸ hin)

theorem lastOf_mem (h : cs ≠ []) (dir : Nat) : lastOf dir cs ∈ cs := by
  rw [lastOf]
  cases hl : cs.getLast? with
  | none => exact absurd (List.getLast?_eq_none_iff.mp hl) h
  | some l => exact List.mem_of_getLast? hl

/-- Where a directory grows. -/
theorem Consistent.last_cases (h : Consistent v ex) (hd : DirOf v ex dir cs) :
    lastOf dir cs ∈ cs ∨ lastOf dir cs = 0 := by
  rcases hd with ⟨o,ho,hcs⟩ | ⟨rfl,rfl⟩
  · obtain ⟨xs,rfl⟩ := hcs.head h.layout (h.chain o dir ho.1).1
    exact Or.inl (lastOf_mem (by simp) dir)
  · exact Or.inr rfl

/-- Chains with no cluster in the directory written to are kept. -/
theorem Written.keep_chain (h : Consistent v ex) (hd : DirOf v ex dir cs)
    (hw : Written v v' dir cs new locs es) (hc : IsChain v c ds) (hdis : ∀ x ∈ ds, x ∉ cs) :
    IsChain v' c ds := by
  rcases hw.fat with ⟨-,hf⟩ | ⟨newc,w,-,hg,hs,hf⟩
  · exact hc.keep hw.step (fun x hx => hf x (Chained.all_ok hc x hx).2)
  · have hlast : lastOf dir cs ∉ ds := by
      intro hin
      rcases h.last_cases hd with hl | hl
      · exact hdis _ hin hl
      · have := (Chained.all_ok hc _ hin).1
        omega
    have hc' := hc.grow_other hlast hg
    exact hc'.keep hs (fun x hx => hf x (Chained.all_ok hc x hx).2)

/-- The chain of the directory itself goes on with its new cluster. -/
theorem Written.grow_chain (hl : DiskLayout v) (hw : Written v v' dir cs new locs es)
    (hc : IsChain v dir cs) (hr : InRange v dir) : IsChain v' dir (cs++new) := by
  rcases hw.fat with ⟨rfl,hf⟩ | ⟨newc,w,rfl,hg,hs,hf⟩
  · rw [List.append_nil]
    exact hc.keep hw.step (fun x hx => hf x (Chained.all_ok hc x hx).2)
  · have hc' := hc.grow hl hr hg
    refine hc'.keep hs (fun x hx => hf x ?_)
    have := (Chained.all_ok hc' x hx).2
    rwa [hg.step.total] at this

theorem Written.consistent (h : Consistent v ex) (hd : DirOf v ex dir cs)
    (hw : Written v v' dir cs new locs es) : Consistent v' ex := by
  rcases hw.fat with ⟨-,hf⟩ | ⟨newc,w,-,hg,hs,hf⟩
  · exact h.keep hw.step (fun o x hx => hf x hx.inRange.2)
  · have hw' : Consistent w ex := by
      rcases hd with ⟨o,ho,hcs⟩ | ⟨rfl,rfl⟩
      · exact h.grow ho.1 hcs hg
      · refine h.keep hg.step (fun o x hx => ?_)
        have hne : x ≠ newc := fun he => hx.used (he ▸ hg.free)
        have hne0 : x ≠ lastOf 0 [] := by
          have := hx.inRange.1
          rw [lastOf]
          simp only [List.getLast?_nil,Option.getD_none]
          omega
        rw [hg.fat x hx.inRange.2,if_neg hne,if_neg hne0]
    refine hw'.keep hs (fun o x hx => hf x ?_)
    have := hx.inRange.2
    rwa [hg.step.total] at this

/-- The slots of other directories are kept. -/
theorem Written.other_slots (h : Consistent v ex) (hd : DirOf v ex dir cs)
    (hw : Written v v' dir cs new locs es) (hr : ∀ c ∈ ds, InRange v c)
    (hdis : ∀ x ∈ ds, x ∉ cs ∧ fatAt v x ≠ 0) : v'.dirSlots ds = v.dirSlots ds := by
  apply dirSlots_congr hw.step
  intro loc hloc
  obtain ⟨-,c,hc,hin⟩ := (h.layout.mem_dirLocs hr).mp hloc
  have hrange : ∀ d ∈ cs++new, 2 ≤ d := by
    intro d hmem
    rcases List.mem_append.mp hmem with hmem | hmem
    · exact ((h.dirChain hd).range d hmem).1
    · rcases hw.fat with ⟨rfl,-⟩ | ⟨newc,w,rfl,hg,-,-⟩
      · simp at hmem
      · rw [List.mem_singleton.mp hmem]
        exact hg.range.1
  rw [dirSlotAt,hw.others _ hin.data,dirSlotAt]
  intro d hmem hin'
  have he : c = d := InCluster.unique (hr c hc).1 (hrange d hmem) hin hin'
  rcases List.mem_append.mp hmem with hmem | hmem
  · exact (hdis c hc).1 (he ▸ hmem)
  · rcases hw.fat with ⟨rfl,-⟩ | ⟨newc,w,rfl,hg,-,-⟩
    · simp at hmem
    · rw [List.mem_singleton] at hmem
      exact (hdis c hc).2 (he ▸ hmem ▸ hg.free)

/-- Something that holds of the slots of every directory. -/
def EachDir (P : List (Loc × Slot) → Prop) (v : Volume) (ex : List Nat) : Prop :=
  ∀ o c cs, DirOwner v ex o c → IsChain v c cs → P (v.dirSlots cs)

theorem DiskStep.dirOwner (h : DiskStep v v') {o : Owner} :
    DirOwner v' ex o c ↔ DirOwner v ex o c := by
  rw [DirOwner,DirOwner,h.startOf,h.files]

/-- Directories after slots were written to one of them. -/
theorem Written.eachDir {P : List (Loc × Slot) → Prop} (h : Consistent v ex)
    (hd : DirOf v ex dir cs) (hw : Written v v' dir cs new locs es) (hp : EachDir P v ex)
    (hstep : P (v.dirSlots cs) → P (v'.dirSlots (cs++new))) : EachDir P v' ex := by
  intro o c ds ho hds
  have hl' := hw.step.layout h.layout
  rw [hw.step.dirOwner] at ho
  obtain ⟨hr,es',hes⟩ := h.chain o c ho.1
  by_cases hsame : ∃ x ∈ es', x ∈ cs
  · obtain ⟨x,hx,hx'⟩ := hsame
    rcases hd with ⟨o',ho',hcs⟩ | ⟨rfl,rfl⟩
    · have he : o = o' := h.apart o o' x ⟨c,es',ho.1,hes,hx⟩ ⟨dir,cs,ho'.1,hcs,hx'⟩
      subst he
      have hc : c = dir := Option.some.inj (ho.1.symm.trans ho'.1)
      subst hc
      rw [hds.unique hl' (hw.grow_chain h.layout hcs hr)]
      exact hstep (hp o c cs ho hcs)
    · simp at hx'
  · have hdis : ∀ x ∈ es', x ∉ cs := fun x hx hx' => hsame ⟨x,hx,hx'⟩
    rw [hds.unique hl' (hw.keep_chain h hd hes hdis),
      hw.other_slots h hd (Chained.all_ok hes) (fun x hx => ⟨hdis x hx,hes.used x hx⟩)]
    exact hp o c es' ho hes

end KiNBOL
