import KiNBOL.Fs.Area

namespace KiNBOL

/-! The loops over directories stay in their clusters. -/

variable {D : Set Nat} {b v w : Volume} {c dir fuel last needed n : Nat} {k : Kmalloc} {loc : Loc}
  {leaf : CName}

/-- A walk from a cluster of the area; `P` holds of what goes from turn to turn, `Q` of what a turn
leaves the loop with. -/
theorem Area.walkChain {σ ρ : Type} {body : Nat → σ → Volume → (ρ ⊕ σ) × Volume} {P : σ → Prop}
    {Q : ρ → Prop} (hb : ∀ c s v, Within D b v → c ∈ D → P s →
      Within D v (body c s v).2 ∧ (∀ r, (body c s v).1 = .inl r → Q r) ∧
        ∀ s', (body c s v).1 = .inr s' → P s')
    (hv : Within D b v) {s : σ} (hc : InChain c → c ∈ D) (hs : P s) {r : (ρ ⊕ σ) × Volume}
    (h : walkChain body fuel c s v = some r) :
    Within D b r.2 ∧ (∀ x, r.1 = .inl x → Q x) ∧ ∀ s', r.1 = .inr s' → P s' := by
  induction fuel generalizing c s v with
  | zero => simp [KiNBOL.walkChain] at h
  | succ fuel ih =>
    rw [KiNBOL.walkChain] at h
    split_ifs at h with hin
    · obtain ⟨hw,hl,hr⟩ := hb c s v hv (hc hin) hs
      have hv' := hv.trans hw
      split at h
      next x w heq =>
        rw [heq] at hv' hl
        rw [← Option.some.inj h]
        exact ⟨hv',fun y hy => hl y (by rw [← Sum.inl.inj hy]),fun s' hs' => by simp at hs'⟩
      next s' w heq =>
        rw [heq] at hv' hr
        exact ih (hv'.trans (hv'.area.fatGetEntry c)) (hv'.area.next (hc hin)) (hr s' rfl) h
    · rw [← Option.some.inj h]
      exact ⟨hv,fun x hx => by simp at hx,fun s' hs' => by rwa [← Sum.inr.inj hs']⟩

theorem Area.readCluster (h : Area D v) (c : Nat) : Within D v (v.readCluster c).2 :=
  h.onlyIo (v.readCluster_only c).1

/-- The slots of a cluster of the area. -/
theorem Area.slotLocs (h : Area D v) (hc : c ∈ D) (hloc : loc ∈ v.slotLocs c) :
    InArea D v loc.lba := ⟨c,hc,((h.layout.mem_slotLocs (h.range c hc)).mp hloc).1⟩

theorem Area.bufSlots (h : Area D v) (hc : c ∈ D) (buf : Sector) {x : Loc × Slot}
    (hx : x ∈ v.bufSlots c buf) : InArea D v x.1.lba := by
  refine h.slotLocs hc ?_
  obtain ⟨j,hj,rfl⟩ := List.mem_map.mp hx
  exact List.mem_map.mpr ⟨j,hj,rfl⟩

theorem Area.findFreeBody (h : Within D b v) (hc : c ∈ D) (l : Nat) :
    Within D v (findFreeBody c l v).2 ∧
    (∀ r, (KiNBOL.findFreeBody c l v).1 = .inl r → ∀ loc ∈ r, InArea D b loc.lba) ∧
    ∀ s, (KiNBOL.findFreeBody c l v).1 = .inr s → Hub D s := by
  have hr := h.area.readCluster c
  rw [KiNBOL.findFreeBody]
  split
  next w heq =>
    rw [heq] at hr
    exact ⟨hr,fun r he => by simp [← Sum.inl.inj he],fun s he => by simp at he⟩
  next buf w heq =>
    rw [heq] at hr
    split
    next loc e hfind =>
      refine ⟨hr,fun r he loc' hloc => ?_,fun s he => by simp at he⟩
      rw [← Sum.inl.inj he,Option.mem_some_iff] at hloc
      rw [← hloc]
      exact (h.trans hr).kept.inArea.mp (hr.area.bufSlots hc buf (List.mem_of_find?_eq_some hfind))
    next =>
      exact ⟨hr,fun r he => by simp at he,fun s he => Or.inl (Sum.inr.inj he ▸ hc)⟩

/-- A slot that a search gives is in the area. -/
theorem Area.findFreeDirSlot (h : Area D v) (hd : Hub D dir) {r : Option Loc × Volume}
    (hrun : findFreeDirSlot fuel k dir v = some r) :
    Within D v r.2 ∧ ∀ loc ∈ r.1, InArea D v loc.lba := by
  unfold KiNBOL.findFreeDirSlot at hrun
  split_ifs at hrun
  · rw [← Option.some.inj hrun]
    exact ⟨.refl h,by simp⟩
  · have hwalk := fun x (hx : KiNBOL.walkChain KiNBOL.findFreeBody fuel dir dir v = some x) =>
      Area.walkChain (fun c s v hv hc (_ : Hub D s) => Area.findFreeBody hv hc s) (.refl h) hd.leads
        hd hx
    split at hrun
    next => simp at hrun
    next x w heq =>
      obtain ⟨hw,hloc,-⟩ := hwalk _ heq
      rw [← Option.some.inj hrun]
      exact ⟨hw,hloc x rfl⟩
    next last w heq =>
      obtain ⟨hw,-,hlast⟩ := hwalk _ heq
      obtain ⟨he,hnew⟩ := hw.area.extendDir (hlast last rfl)
      split at hrun
      next u heq' =>
        rw [heq'] at he
        rw [← Option.some.inj hrun]
        exact ⟨hw.trans he,by simp⟩
      next newc u heq' =>
        rw [heq'] at he hnew
        rw [← Option.some.inj hrun]
        have hc : newc ∈ D := hnew newc rfl
        have hl : DiskLayout u := he.area.layout
        obtain ⟨hlba,-⟩ := hl.clusterToLba_eq (he.area.range newc hc)
        have hspc := hl.spc
        refine ⟨hw.trans he,fun loc hloc => (hw.trans he).kept.inArea.mp ⟨newc,hc,?_⟩⟩
        rw [← Option.mem_some_iff.mp hloc]
        exact ⟨by simp only [hlba]; omega,by simp only [hlba]; omega⟩

theorem freeRun_mem {l : List (Loc × Slot)} {run run' : List Loc} {P : Loc → Prop}
    (hl : ∀ x ∈ l, P x.1) (hrun : ∀ loc ∈ run, P loc)
    (h : freeRun needed l run = .inl run' ∨ freeRun needed l run = .inr run') :
    ∀ loc ∈ run', P loc := by
  induction l generalizing run with
  | nil =>
    rcases h with h | h
    · simp [freeRun] at h
    · rw [← Sum.inr.inj h]
      exact hrun
  | cons x l ih =>
    obtain ⟨loc,e⟩ := x
    have hadd : ∀ loc' ∈ run++[loc], P loc' := by
      intro loc' hmem
      rcases List.mem_append.mp hmem with hmem | hmem
      · exact hrun loc' hmem
      · rw [List.mem_singleton.mp hmem]
        exact hl _ List.mem_cons_self
    have hl' : ∀ y ∈ l, P y.1 := fun y hy => hl y (List.mem_cons_of_mem _ hy)
    rw [freeRun] at h
    split_ifs at h
    · rcases h with h | h
      · rw [← Sum.inl.inj h]
        exact hadd
      · simp at h
    · exact ih hl' hadd h
    · exact ih hl' (by simp) h

theorem Area.findRunBody (h : Within D b v) (hc : c ∈ D) {s : Nat × List Loc}
    (hs : Hub D s.1 ∧ ∀ loc ∈ s.2, InArea D b loc.lba) :
    Within D v (findRunBody needed c s v).2 ∧
    (∀ r, (KiNBOL.findRunBody needed c s v).1 = .inl r →
      ∀ run ∈ r, ∀ loc ∈ run, InArea D b loc.lba) ∧
    ∀ s', (KiNBOL.findRunBody needed c s v).1 = .inr s' →
      Hub D s'.1 ∧ ∀ loc ∈ s'.2, InArea D b loc.lba := by
  have hr := h.area.readCluster c
  rw [KiNBOL.findRunBody]
  split
  next w heq =>
    rw [heq] at hr
    exact ⟨hr,fun r he => by simp [← Sum.inl.inj he],fun s he => by simp at he⟩
  next buf w heq =>
    rw [heq] at hr
    have hrun := fun (run' : List Loc) (hfree : freeRun needed (w.bufSlots c buf) s.2 = .inl run' ∨
        freeRun needed (w.bufSlots c buf) s.2 = .inr run') =>
      freeRun_mem (P := fun loc => InArea D b loc.lba)
        (fun x hx => (h.trans hr).kept.inArea.mp (hr.area.bufSlots hc buf hx)) hs.2 hfree
    split
    next run hfree =>
      refine ⟨hr,fun r he run' hmem => ?_,fun s he => by simp at he⟩
      rw [← Sum.inl.inj he,Option.mem_some_iff] at hmem
      exact hrun run' (Or.inl (hmem ▸ hfree))
    next run hfree =>
      refine ⟨hr,fun r he => by simp at he,fun s' he => ?_⟩
      rw [← Sum.inr.inj he]
      exact ⟨Or.inl hc,hrun run (Or.inr hfree)⟩

theorem Area.growRun (h : Within D b v) (hlast : Hub D last) {run : List Loc}
    (hrun : ∀ loc ∈ run, InArea D b loc.lba) {r : Option (List Loc) × Volume}
    (hr : growRun needed fuel last run v = some r) :
    Within D b r.2 ∧ ∀ run ∈ r.1, ∀ loc ∈ run, InArea D b loc.lba := by
  induction fuel generalizing last run v with
  | zero => simp [KiNBOL.growRun] at hr
  | succ fuel ih =>
    rw [KiNBOL.growRun] at hr
    split_ifs at hr
    · obtain ⟨he,hnew⟩ := h.area.extendDir hlast
      split at hr
      next w heq =>
        rw [heq] at he
        rw [← Option.some.inj hr]
        exact ⟨h.trans he,by simp⟩
      next newc w heq =>
        rw [heq] at he hnew
        have hc : newc ∈ D := hnew newc rfl
        refine ih (h.trans he) (Or.inl hc) (fun loc hloc => ?_) hr
        rcases List.mem_append.mp hloc with hloc | hloc
        · exact hrun loc hloc
        · exact (h.trans he).kept.inArea.mp (he.area.slotLocs hc (List.mem_of_mem_take hloc))
    · rw [← Option.some.inj hr]
      refine ⟨h,fun run' hmem => ?_⟩
      rw [← Option.mem_some_iff.mp hmem]
      exact hrun

theorem Area.findFreeDirSlots (h : Area D v) (hd : Hub D dir) {r : Option (List Loc) × Volume}
    (hrun : findFreeDirSlots fuel k dir needed v = some r) :
    Within D v r.2 ∧ ∀ run ∈ r.1, ∀ loc ∈ run, InArea D v loc.lba := by
  unfold KiNBOL.findFreeDirSlots at hrun
  split_ifs at hrun
  · rw [← Option.some.inj hrun]
    exact ⟨.refl h,by simp⟩
  · rw [← Option.some.inj hrun]
    exact ⟨.refl h,by simp⟩
  · have hwalk := fun x
        (hx : KiNBOL.walkChain (KiNBOL.findRunBody needed) fuel dir (dir,[]) v = some x) =>
      Area.walkChain (P := fun (s : Nat × List Loc) => Hub D s.1 ∧ ∀ loc ∈ s.2, InArea D v loc.lba)
        (fun _ _ _ hw hc hs => Area.findRunBody hw hc hs) (.refl h) hd.leads ⟨hd,by simp⟩ hx
    split at hrun
    next => simp at hrun
    next x w heq =>
      obtain ⟨hw,hloc,-⟩ := hwalk _ heq
      rw [← Option.some.inj hrun]
      exact ⟨hw,hloc x rfl⟩
    next last run w heq =>
      obtain ⟨hw,-,hlast⟩ := hwalk _ heq
      obtain ⟨hhub,hrun'⟩ := hlast _ rfl
      exact Area.growRun hw hhub hrun' hrun

theorem Area.writeSlot (h : Area D v) (hloc : InArea D v loc.lba) (e : Slot) :
    Within D v (v.writeSlot loc e).2 := by
  have hr := h.readSector loc.lba
  rw [Volume.writeSlot]
  split
  next heq =>
    rw [heq] at hr
    exact hr
  next heq =>
    rw [heq] at hr
    exact hr.trans (hr.area.writeSector (hr.kept.inArea.mpr hloc) _)

theorem Area.writeSlots (h : Within D b v) (l : List (Loc × Slot))
    (hl : ∀ x ∈ l, InArea D b x.1.lba) : Within D b (writeSlots l v).2 := by
  induction l generalizing v with
  | nil => exact h
  | cons x l ih =>
    obtain ⟨loc,e⟩ := x
    have hw := h.trans (h.area.writeSlot (h.kept.inArea.mpr (hl _ List.mem_cons_self)) e)
    rw [KiNBOL.writeSlots]
    split
    next heq =>
      rw [heq] at hw
      exact hw
    next heq =>
      rw [heq] at hw
      exact ih hw (fun y hy => hl y (List.mem_cons_of_mem _ hy))

/-- The entry of a new node is in the area. -/
theorem Area.writeEntry (h : Area D v) (hd : Hub D dir) {s : ShortName} {attr : Byte}
    {cluster size : Nat} {r : Option Loc × Volume}
    (hrun : writeEntry fuel k dir leaf s attr cluster size v = some r) :
    Within D v r.2 ∧ ∀ loc ∈ r.1, InArea D v loc.lba := by
  unfold KiNBOL.writeEntry at hrun
  split_ifs at hrun
  · unfold writeLfnAndShort at hrun
    dsimp only at hrun
    split_ifs at hrun
    · rw [← Option.some.inj hrun]
      exact ⟨.refl h,by simp⟩
    · split at hrun
      next => simp at hrun
      next w heq =>
        rw [← Option.some.inj hrun]
        exact ⟨(h.findFreeDirSlots hd heq).1,by simp⟩
      next locs w heq =>
        obtain ⟨hw,hlocs⟩ := h.findFreeDirSlots hd heq
        have hin := hlocs locs rfl
        have hws := Area.writeSlots hw
          (locs.zip (lfnEntries leaf (lfnChecksum s)++[dirEntry s attr cluster size]))
          (fun x hx => hin x.1 (List.of_mem_zip hx).1)
        split at hrun
        next heq' =>
          rw [heq'] at hws
          rw [← Option.some.inj hrun]
          exact ⟨hws,by simp⟩
        next heq' =>
          rw [heq'] at hws
          rw [← Option.some.inj hrun]
          exact ⟨hws,fun loc hloc => hin loc (List.mem_of_getLast? hloc)⟩
  · unfold writeShort at hrun
    split at hrun
    next => simp at hrun
    next w heq =>
      rw [← Option.some.inj hrun]
      exact ⟨(h.findFreeDirSlot hd heq).1,by simp⟩
    next loc w heq =>
      obtain ⟨hw,hloc⟩ := h.findFreeDirSlot hd heq
      have hin := hloc loc rfl
      have hws := hw.trans (hw.area.writeSlot (hw.kept.inArea.mpr hin) (dirEntry s attr cluster size))
      split at hrun
      next heq' =>
        rw [heq'] at hws
        rw [← Option.some.inj hrun]
        exact ⟨hws,by simp⟩
      next heq' =>
        rw [heq'] at hws
        rw [← Option.some.inj hrun]
        exact ⟨hws,fun loc' hloc' => Option.mem_some_iff.mp hloc' ▸ hin⟩

/-- A walk that only reads. -/
theorem Area.walkReads {σ ρ : Type} {body : Nat → σ → Volume → (ρ ⊕ σ) × Volume}
    (hb : ∀ c s v, OnlyIo v (body c s v).2) (h : Area D v) {s : σ} (hd : Hub D dir)
    {r : (ρ ⊕ σ) × Volume} (hrun : KiNBOL.walkChain body fuel dir s v = some r) : Within D v r.2 :=
  (Area.walkChain (P := fun _ => True) (Q := fun _ => True)
    (fun c s _ hv _ _ => ⟨hv.area.onlyIo (hb c s _),fun _ _ => trivial,fun _ _ => trivial⟩)
    (.refl h) hd.leads trivial hrun).1

theorem shortExistsBody_only (s : ShortName) (c : Nat) (t : Unit) (v : Volume) :
    OnlyIo v (shortExistsBody s c t v).2 := by
  obtain ⟨hr,-⟩ := v.readCluster_only c
  rw [shortExistsBody]
  split
  next heq =>
    rw [heq] at hr
    exact hr
  next w heq =>
    rw [heq] at hr
    split_ifs
    · exact hr.trans (w.fatGetEntry_only c).1
    · exact hr

theorem isEmptyBody_only (c : Nat) (t : Unit) (v : Volume) : OnlyIo v (isEmptyBody c t v).2 := by
  obtain ⟨hr,-⟩ := v.readCluster_only c
  rw [isEmptyBody]
  split
  next heq =>
    rw [heq] at hr
    exact hr
  next w heq =>
    rw [heq] at hr
    split_ifs
    · exact hr
    · exact hr.trans (w.fatGetEntry_only c).1

theorem Area.newShortName (h : Area D v) (hd : Hub D dir) {r : ShortName × Volume}
    (hrun : newShortName fuel k dir leaf v = some r) : Within D v r.2 := by
  have hexists : ∀ {v : Volume} {n : Nat} {s : ShortName} {r : Bool × Volume}, Area D v →
      shortNameExists fuel k n dir s v = some r → Within D v r.2 := by
    intro v n s r h hrun
    unfold shortNameExists at hrun
    split_ifs at hrun
    · rw [← Option.some.inj hrun]
      exact .refl h
    · obtain ⟨x,hx,rfl⟩ := Option.map_eq_some_iff.mp hrun
      exact h.walkReads (shortExistsBody_only s) hd hx
  unfold KiNBOL.newShortName genShortName at hrun
  split_ifs at hrun
  · generalize List.range 1000 = ns at hrun
    induction ns generalizing v with
    | nil =>
      rw [← Option.some.inj hrun]
      exact .refl h
    | cons n ns ih =>
      rw [genLoop] at hrun
      split at hrun
      next => simp at hrun
      next heq =>
        rw [← Option.some.inj hrun]
        exact hexists h heq
      next heq =>
        have hw := hexists h heq
        exact hw.trans (ih hw.area hrun)
  · rw [← Option.some.inj hrun]
    exact .refl h

theorem Area.dirIsEmpty (h : Area D v) (hd : Hub D dir) {r : Bool × Volume}
    (hrun : dirIsEmpty fuel k dir v = some r) : Within D v r.2 := by
  unfold KiNBOL.dirIsEmpty at hrun
  split_ifs at hrun
  · rw [← Option.some.inj hrun]
    exact .refl h
  · obtain ⟨x,hx,rfl⟩ := Option.map_eq_some_iff.mp hrun
    exact h.walkReads isEmptyBody_only hd hx

theorem Area.markDeleted (h : Within D b v) (hloc : InArea D b loc.lba) :
    Within D b (v.markDeleted loc) := by
  have hr := h.trans (h.area.readSector loc.lba)
  rw [Volume.markDeleted]
  split
  next heq =>
    rw [heq] at hr
    exact hr
  next heq =>
    rw [heq] at hr
    exact hr.trans (hr.area.writeSector (hr.kept.inArea.mpr hloc) _)

theorem Area.markSlots (h : Within D b v) (sum : Byte) (target : Loc) (l : List (Loc × Slot))
    (hl : ∀ x ∈ l, InArea D b x.1.lba) {s : MarkScan} (hs : ∀ loc ∈ s.run, InArea D b loc.lba) :
    Within D b (markSlots sum target l s v).2 ∧ ∀ s', (KiNBOL.markSlots sum target l s v).1 = .inr s' →
      ∀ loc ∈ s'.run, InArea D b loc.lba := by
  induction l generalizing s with
  | nil => exact ⟨h,fun s' he => Sum.inr.inj he ▸ hs⟩
  | cons x l ih =>
    obtain ⟨loc,e⟩ := x
    have hloc : InArea D b loc.lba := hl _ List.mem_cons_self
    have hl' : ∀ y ∈ l, InArea D b y.1.lba := fun y hy => hl y (List.mem_cons_of_mem _ hy)
    rw [KiNBOL.markSlots]
    split_ifs
    · exact ⟨h,fun s' he => by simp at he⟩
    · refine ih hl' ?_
      simp only [MarkScan.next]
      split_ifs <;> simp_all [or_imp,forall_and]
    · refine ⟨?_,fun s' he => by simp at he⟩
      have hm := Area.markDeleted h hloc
      dsimp only
      generalize v.markDeleted loc = u at hm
      generalize s.run = run at hs
      induction run generalizing u with
      | nil => exact hm
      | cons loc' run ihr =>
        exact ihr _ (Area.markDeleted hm (hs loc' List.mem_cons_self))
          (fun x hx => hs x (List.mem_cons_of_mem _ hx))
    · exact ⟨Area.markDeleted h hloc,fun s' he => by simp at he⟩
    · exact ih hl' (by simp)

theorem Area.markRemovedWithLfn (h : Area D v) {start : Nat} (hd : Hub D start) {target : Loc}
    {r : Bool × Volume} (hrun : markRemovedWithLfn fuel k n start target v = some r) :
    Within D v r.2 := by
  unfold KiNBOL.markRemovedWithLfn at hrun
  have hr := h.readSector target.lba
  split at hrun
  next heq =>
    rw [heq] at hr
    rw [← Option.some.inj hrun]
    exact hr
  next tsec w heq =>
    rw [heq] at hr
    dsimp only at hrun
    split_ifs at hrun
    · rw [← Option.some.inj hrun]
      exact hr
    · obtain ⟨x,hx,rfl⟩ := Option.map_eq_some_iff.mp hrun
      refine (Area.walkChain (P := fun (s : MarkScan) => ∀ loc ∈ s.run, InArea D v loc.lba)
        (Q := fun _ => True) (fun c s u hu hc hs => ?_) hr hd.leads (by simp) hx).1
      have hread := hu.area.readCluster c
      rw [markBody]
      split
      next heq' =>
        rw [heq'] at hread
        exact ⟨hread,fun _ _ => trivial,fun s' he => by simp at he⟩
      next buf u' heq' =>
        rw [heq'] at hread
        have hu' := hu.trans hread
        obtain ⟨hm,hs'⟩ := Area.markSlots hread
          (lfnChecksum (getSlot tsec target.offset).short) target (u'.bufSlots c buf)
          (fun x hx => hread.kept.inArea.mp (hread.area.bufSlots hc buf hx))
          (s := s) (fun loc hloc => hu.kept.inArea.mpr (hs loc hloc))
        exact ⟨hm,fun _ _ => trivial,fun s' he loc hloc => hu.kept.inArea.mp (hs' s' he loc hloc)⟩

/-- A chain of the area is freed. -/
theorem Area.freeChain (h : Area D v) (hc : InChain c → c ∈ D)
    (hrun : v.freeChain fuel c = some w) : Within D v w := by
  obtain ⟨u,hu,rfl⟩ := Option.map_eq_some_iff.mp hrun
  have hloop : ∀ {fuel c : Nat} {v : Volume}, Area D v → (InChain c → c ∈ D) →
      freeLoop fuel c v = some u → Within D v u := by
    intro fuel
    induction fuel with
    | zero =>
      intro c v h hc hu
      simp [freeLoop] at hu
    | succ fuel ih =>
      intro c v h hc hu
      rw [freeLoop] at hu
      split_ifs at hu with hin
      · have hcD : c ∈ D := hc hin
        have hnext := h.next hcD
        have h1 := h.fatGetEntry c
        dsimp only at hu
        generalize v.fatGetEntry c = e at hu hnext h1
        have h2 := h1.trans (h1.area.fatSetEntry (x := 0) (Or.inl hcD)
          (fun hin => absurd hin (by decide)))
        have h3 : ∀ p : Prop, ∀ [Decidable p], Within D v (if p then
            { e.2.fatSetEntry c 0 with
              fsinfoFreeCount := u32 ((e.2.fatSetEntry c 0).fsinfoFreeCount+1) }
            else e.2.fatSetEntry c 0) := by
          intro p _
          split_ifs
          · exact h2.trans (h2.area.counts h2.area.layout.hint)
          · exact h2
        exact (h3 _).trans (ih (h3 _).area hnext hu)
      · rw [← Option.some.inj hu]
        exact .refl h
  have hw := hloop h hc hu
  exact hw.trans hw.area.fsinfoSave

end KiNBOL
