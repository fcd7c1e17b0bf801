import KiNBOL.Fs.Search

namespace KiNBOL

variable {v v' w : Volume} {c dir : Nat} {cs ds : List Nat} {k : Kmalloc} {fuel : Nat}

/-- What the searches for free slots come to: a run that is there, or the rest of one in a new
cluster. -/
def placeFor (k : Kmalloc) (needed : Nat) (v : Volume) (dir : Nat) (cs : List Nat) :
    Option (List Loc) × Volume :=
  if k .slots = false then (none,v)
  else
    match freeRun needed (v.dirSlots cs) [] with
    | .inl run => (some run,v)
    | .inr run =>
      match v.extendDir (lastOf dir cs) with
      | (none,v) => (none,v)
      | (some newc,v) => (some (run++(v.slotLocs newc).take (needed-run.length)),v)

theorem freeRun_short {needed : Nat} (hn : 1 ≤ needed) {l : List (Loc × Slot)} {run : List Loc}
    (h : freeRun needed l [] = .inr run) : run.length < needed := by
  have hs := freeRun_spec needed l [] [] (by simp) (by simp) (by rw [List.length_nil]; omega)
  simp only [List.map_nil,h] at hs
  obtain ⟨_,_,_,_,_,_,hlt⟩ := hs
  exact hlt

theorem DirGrown.slotLocs (h : DirGrown v v' dir c) (d : Nat) : v'.slotLocs d = v.slotLocs d :=
  h.step.slotLocs d

/-- One new cluster is enough for any run. -/
theorem growRun_spec (hq : v.io = []) (hl : DiskLayout v) {needed last : Nat} {run : List Loc}
    (hn : needed ≤ 11) (hrun : run.length < needed) (hlast : last < v.totalClusters+2) (fuel : Nat) :
    growRun needed (fuel+2) last run v =
      some (match v.extendDir last with
        | (none,v) => (none,v)
        | (some newc,v) => (some (run++(v.slotLocs newc).take (needed-run.length)),v)) := by
  rw [growRun,if_pos hrun]
  rcases extendDir_spec hq hl hlast with ⟨hno,-⟩ | ⟨newc,v1,hext,hg⟩
  · rw [hno]
  · rw [hext]
    dsimp only
    have hspc := hl.spc
    have hlen : (v1.slotLocs newc).length = 16*v.sectorsPerCluster := by
      rw [hg.slotLocs,hl.slotLocs_eq hg.range]
      simp
    rw [growRun,if_neg]
    simp only [List.length_append,List.length_take,hlen]
    omega

theorem findFreeDirSlots_spec (hq : v.io = []) (hl : DiskLayout v) (hd : DirChain v dir cs)
    {needed : Nat} (h1 : 1 ≤ needed) (hn : needed ≤ 11) (hf : cs.length+2 ≤ fuel) :
    findFreeDirSlots fuel k dir needed v = some (placeFor k needed v dir cs) := by
  rw [findFreeDirSlots,if_neg (by rw [lfnMaxEntries]; omega),placeFor]
  cases hk : k .slots with
  | false => rfl
  | true =>
    rw [if_neg (by simp),if_neg (by simp)]
    have hbody : ∀ c (s : Nat × List Loc), findRunBody needed c s v = settle v (runStep v needed c s) := by
      intro c s
      obtain ⟨buf,hread,hslots⟩ := Volume.readCluster_quiet hq c
      rw [findRunBody,hread,runStep]
      dsimp only
      rw [hslots]
      cases freeRun needed (v.clusterSlots c) s.2 <;> rfl
    rw [walkChain_walk hq hbody hd.walk (by omega),overClusters_findRun]
    cases hrun : freeRun needed (v.dirSlots cs) [] with
    | inl run => rfl
    | inr run =>
      obtain ⟨fuel,rfl⟩ : ∃ n, fuel = n+2 := ⟨fuel-2,by omega⟩
      exact growRun_spec hq hl hn (freeRun_short h1 hrun) hd.last fuel

/-- The search for a single slot is the search for a run of one. -/
theorem findFreeDirSlot_spec (hq : v.io = []) (hl : DiskLayout v) (hd : DirChain v dir cs)
    (hf : cs.length < fuel) :
    findFreeDirSlot fuel k dir v =
      some ((placeFor k 1 v dir cs).1.bind List.head?,(placeFor k 1 v dir cs).2) := by
  rw [findFreeDirSlot,placeFor]
  cases hk : k .slots with
  | false => rfl
  | true =>
    rw [if_neg (by simp),if_neg (by simp)]
    have hbody : ∀ c (s : Nat), findFreeBody c s v = settle v (freeStep v c s) := by
      intro c s
      obtain ⟨buf,hread,hslots⟩ := Volume.readCluster_quiet hq c
      rw [findFreeBody,hread,freeStep]
      dsimp only
      rw [hslots]
      cases (v.clusterSlots c).find? (fun x => x.2.isFree) <;> rfl
    rw [walkChain_walk hq hbody hd.walk hf,overClusters_findFree,freeRun_one]
    cases (v.dirSlots cs).find? (fun x => x.2.isFree) with
    | some x => rfl
    | none =>
      rcases extendDir_spec hq hl hd.last with ⟨hno,-⟩ | ⟨newc,v1,hext,hg⟩
      · simp only [settle,hno]
        rfl
      · simp only [settle,hext]
        have hspc := hl.spc
        have hl1 := hg.step.layout hl
        have hr1 : InRange v1 newc := ⟨hg.range.1,hg.step.total.symm ▸ hg.range.2⟩
        obtain ⟨n,hn⟩ : ∃ n, 16*v1.sectorsPerCluster = n+1 :=
          ⟨16*v1.sectorsPerCluster-1,by have := hl1.spc; omega⟩
        rw [hl1.slotLocs_eq hr1,hn,List.range_succ_eq_map]
        simp only [List.map_cons,List.nil_append,List.length_nil,Nat.sub_zero,List.take_succ_cons,
          List.take_zero,Option.bind_some,List.head?_cons,locOf,(hl1.clusterToLba_eq hr1).1,
          Nat.zero_div,Nat.add_zero,Nat.zero_mod,Nat.mul_zero]

/-- The slots of a new entry. -/
def newSlots (leaf : CName) (s : ShortName) (attr : Byte) (cluster : Nat) : List Slot :=
  if needsLfn leaf then lfnEntries leaf (lfnChecksum s)++[dirEntry s attr cluster 0]
  else [dirEntry s attr cluster 0]

/-- Slots written one after the other. -/
def Volume.putAll (v : Volume) (l : List (Loc × Slot)) : Volume :=
  l.foldl (fun w x => w.putAt x.1 x.2) v

theorem DiskStep.putAll (v : Volume) (l : List (Loc × Slot)) : DiskStep v (v.putAll l) := by
  induction l generalizing v with
  | nil => exact DiskStep.refl v
  | cons x l ih => exact (DiskStep.putAt v x.1 x.2).trans (ih _)

theorem writeSlots_quiet (hq : v.io = []) (l : List (Loc × Slot)) :
    writeSlots l v = (true,v.putAll l) := by
  induction l generalizing v with
  | nil => rfl
  | cons x l ih =>
    obtain ⟨loc,e⟩ := x
    rw [writeSlots,writeSlot_quiet hq]
    exact ih (v := v.putAt loc e) hq

theorem length_lfnEntries (leaf : CName) (sum : Byte) :
    (lfnEntries leaf sum).length = lfnCount leaf := by
  simp [lfnEntries]

theorem lfnCount_le (leaf : CName) : lfnCount leaf ≤ 10 := by
  simp only [lfnCount,lfnLength,lfnMaxEntries]
  omega

theorem length_newSlots (leaf : CName) (s : ShortName) (attr : Byte) (cluster : Nat) :
    1 ≤ (newSlots leaf s attr cluster).length ∧ (newSlots leaf s attr cluster).length ≤ 11 := by
  have := lfnCount_le leaf
  rw [newSlots]
  split_ifs
  · rw [List.length_append,length_lfnEntries,List.length_singleton]
    omega
  · simp

/-- The places found are as many as were needed. -/
theorem placeFor_length (hq : v.io = []) (hl : DiskLayout v) (hd : DirChain v dir cs) {needed : Nat}
    (h1 : 1 ≤ needed) (hn : needed ≤ 11) {locs : List Loc}
    (h : placeFor k needed v dir cs = (some locs,w)) : locs.length = needed := by
  have hspec := freeRun_spec needed (v.dirSlots cs) [] [] (by simp) (by simp)
    (by rw [List.length_nil]; omega)
  rw [List.map_nil] at hspec
  simp only [placeFor] at h
  split_ifs at h
  · simp at h
  · cases hrun : freeRun needed (v.dirSlots cs) [] with
    | inl run =>
      rw [hrun] at h hspec
      obtain ⟨_,_,_,-,-,-,-,hlen⟩ := hspec
      simp only [Prod.mk.injEq,Option.some.injEq] at h
      rw [← h.1,hlen]
    | inr run =>
      rw [hrun] at h hspec
      obtain ⟨_,_,-,-,-,-,hlen⟩ := hspec
      dsimp only at h
      rcases extendDir_spec hq hl hd.last with ⟨hno,-⟩ | ⟨newc,v1,hext,hg⟩
      · rw [hno] at h
        simp at h
      · rw [hext] at h
        simp only [Prod.mk.injEq,Option.some.injEq] at h
        rw [← h.1,List.length_append,List.length_take,hg.slotLocs,hl.slotLocs_eq hg.range]
        have hspc := hl.spc
        simp only [List.length_map,List.length_range]
        omega

/-- Both ways of writing an entry. -/
theorem writeEntry_spec (hq : v.io = []) (hl : DiskLayout v) (hd : DirChain v dir cs)
    (hf : cs.length+2 ≤ fuel) (leaf : CName) (s : ShortName) (attr : Byte) (cluster : Nat) :
    writeEntry fuel k dir leaf s attr cluster 0 v =
      some (match placeFor k (newSlots leaf s attr cluster).length v dir cs with
        | (none,w) => (none,w)
        | (some locs,w) => (locs.getLast?,w.putAll (locs.zip (newSlots leaf s attr cluster)))) := by
  have hstep : ∀ needed, ∀ locs w, placeFor k needed v dir cs = (some locs,w) → w.io = [] := by
    intro needed locs w h
    simp only [placeFor] at h
    split_ifs at h
    · simp at h
    · cases hrun : freeRun needed (v.dirSlots cs) [] with
      | inl run =>
        rw [hrun] at h
        simp only [Prod.mk.injEq] at h
        exact h.2 ▸ hq
      | inr run =>
        rw [hrun] at h
        dsimp only at h
        rcases extendDir_spec hq hl hd.last with ⟨hno,-⟩ | ⟨newc,v1,hext,hg⟩
        · rw [hno] at h
          simp at h
        · rw [hext] at h
          simp only [Prod.mk.injEq] at h
          exact h.2 ▸ hg.step.io.trans hq
  rw [writeEntry,newSlots]
  cases hlfn : needsLfn leaf with
  | true =>
    have hlen := lfnCount_le leaf
    rw [if_pos rfl,if_pos rfl,writeLfnAndShort,if_neg (by rw [lfnMaxEntries]; omega),
      findFreeDirSlots_spec hq hl hd (by omega) (by omega) hf,List.length_append,length_lfnEntries,
      List.length_singleton]
    rcases hplace : placeFor k (lfnCount leaf+1) v dir cs with ⟨locs | locs,w⟩
    · rfl
    · dsimp only
      rw [writeSlots_quiet (hstep _ _ _ hplace)]
  | false =>
    rw [if_neg Bool.false_ne_true,if_neg Bool.false_ne_true,writeShort,
      findFreeDirSlot_spec hq hl hd (by omega),List.length_singleton]
    rcases hplace : placeFor k 1 v dir cs with ⟨locs | locs,w⟩
    · rfl
    · have hone := placeFor_length hq hl hd le_rfl (by omega) hplace
      obtain ⟨loc,rfl⟩ := List.length_eq_one_iff.mp hone
      dsimp only [Option.bind_some,List.head?_cons]
      rw [writeSlot_quiet (hstep _ _ _ hplace)]
      rfl

end KiNBOL
