import KiNBOL.Fs.Owners

namespace KiNBOL

variable {v v' w : Volume} {c d dir fuel : Nat} {cs cs' ds : List Nat} {k : Kmalloc}
  {locs : List Loc} {ex : List Nat} {path leaf : CName} {p : Parent}

/-- Owners whose chains are directories. -/
def DirOwner (v : Volume) (ex : List Nat) (o : Owner) (c : Nat) : Prop :=
  startOf v ex o = some c ∧
  ∀ i, o = .file i → ∃ n, v.files i = some n ∧ n.flags &&& vfsDirectory ≠ 0#32

/-- A directory as `resolve_parent` finds it: one with a chain, or a node without a cluster. -/
def DirOf (v : Volume) (ex : List Nat) (dir : Nat) (cs : List Nat) : Prop :=
  (∃ o, DirOwner v ex o dir ∧ IsChain v dir cs) ∨ dir = 0 ∧ cs = []

section

variable (h : Consistent v ex)

include h

theorem Consistent.dirChain (hd : DirOf v ex dir cs) : DirChain v dir cs := by
  rcases hd with ⟨o,ho,hcs⟩ | ⟨rfl,rfl⟩
  · exact hcs.dirChain h.layout (h.chain o dir ho.1).1
  · refine ⟨?_,by simp,by omega⟩
    rw [Walk,Chained,InChain]
    omega

theorem Consistent.dir_nodup (hd : DirOf v ex dir cs) : cs.Nodup := by
  rcases hd with ⟨o,ho,hcs⟩ | ⟨rfl,rfl⟩
  · exact hcs.nodup h.layout
  · exact List.nodup_nil

omit h in
theorem DirOf.used (hd : DirOf v ex dir cs) : ∀ x ∈ cs, fatAt v x ≠ 0 := by
  rcases hd with ⟨o,ho,hcs⟩ | ⟨rfl,rfl⟩
  · exact hcs.used
  · simp

omit h in
/-- A chain visits each cluster of the volume at most once. -/
theorem DirChain.length_le (hd : DirChain v dir cs) (hn : cs.Nodup) :
    cs.length ≤ v.totalClusters := by
  have hsub : cs ⊆ List.range' 2 v.totalClusters := by
    intro c hc
    have := hd.range c hc
    rw [List.mem_range'_1]
    simp only [InRange] at this
    omega
  have hlen := (hn.subperm hsub).length_le
  rwa [List.length_range'] at hlen

theorem Consistent.fuel_le (hd : DirOf v ex dir cs) (hf : v.totalClusters+2 ≤ fuel) :
    cs.length+2 ≤ fuel := by
  have := (h.dirChain hd).length_le (h.dir_nodup hd)
  omega

/-- The parent that `resolve_parent` finds is a directory of the volume. -/
theorem Consistent.resolveParent (hp : resolveParent v path = some p) :
    ∃ cs, DirOf v ex p.dirCluster cs := by
  have hroot : ∃ cs, DirOf v ex v.rootCluster cs := by
    obtain ⟨-,cs,hcs⟩ := h.chain .root _ rfl
    exact ⟨cs,Or.inl ⟨.root,⟨rfl,by simp⟩,hcs⟩⟩
  rw [KiNBOL.resolveParent] at hp
  cases hslash : lastIdx (ch '/') path with
  | none =>
    rw [hslash] at hp
    simp only [Option.some.injEq] at hp
    rw [← hp]
    exact hroot
  | some slash =>
    rw [hslash] at hp
    dsimp only at hp
    cases hfind : (v.vfsFind (path.take (min slash (vfsNameMax-1)))).bind v.node with
    | none =>
      rw [hfind] at hp
      simp at hp
    | some n =>
      rw [hfind] at hp
      dsimp only at hp
      by_cases hflag : n.flags &&& vfsDirectory = 0#32
      · rw [if_pos hflag] at hp
        simp at hp
      · rw [if_neg hflag,Option.map_eq_some_iff] at hp
        obtain ⟨ctx,hctx,rfl⟩ := hp
        obtain ⟨r,-,hr⟩ := Option.bind_eq_some_iff.mp hfind
        cases r with
        | other i =>
          have hnone := h.others i
          simp only [Volume.node,Option.some.injEq] at hr
          rw [hr,hctx] at hnone
          simp at hnone
        | file i =>
          have hi : v.files i = some n := hr
          by_cases h0 : ctx.startCluster = 0
          · exact ⟨[],Or.inr ⟨h0,rfl⟩⟩
          · have hs : startOf v ex (.file i) = some ctx.startCluster := by
              simp [startOf,fileCtx,hi,hctx,h0]
            obtain ⟨-,cs,hcs⟩ := h.chain _ _ hs
            refine ⟨cs,Or.inl ⟨.file i,⟨hs,fun j hj => ?_⟩,hcs⟩⟩
            rw [Owner.file.injEq] at hj
            exact hj ▸ ⟨n,hi,hflag⟩

end

/-- What `short_name_exists` finds when nothing fails: it does not look behind the first end mark
of a cluster. -/
def shortTaken (v : Volume) (cs : List Nat) (s : ShortName) : Bool :=
  cs.any (fun c => hasShort s ((v.clusterSlots c).map Prod.snd))

theorem shortNameExists_spec (hq : v.io = []) (hw : Walk v dir cs) (hf : cs.length < fuel) (n : Nat)
    (s : ShortName) : shortNameExists fuel k n dir s v =
      some (k (.probe n) && shortTaken v cs s,v) := by
  rw [shortNameExists]
  cases hk : k (.probe n) with
  | false => rfl
  | true =>
    rw [if_neg (by simp)]
    have hbody : ∀ c (t : Unit), shortExistsBody s c t v = settle v
        (if hasShort s ((v.clusterSlots c).map Prod.snd) then .inl (true,v) else .inr ()) := by
      intro c t
      obtain ⟨buf,hread,hslots⟩ := Volume.readCluster_quiet hq c
      rw [shortExistsBody,hread]
      dsimp only
      rw [hslots,Volume.fatGetEntry_quiet hq]
      split_ifs <;> rfl
    rw [walkChain_walk hq hbody hw hf]
    have hover : overClusters (fun c (_ : Unit) =>
        if hasShort s ((v.clusterSlots c).map Prod.snd) then
          (.inl (true,v) : (Bool × Volume) ⊕ Unit) else .inr ()) cs () =
        if shortTaken v cs s then .inl (true,v) else .inr () := by
      clear hw hf
      induction cs with
      | nil => rfl
      | cons x cs ih =>
        rw [overClusters,shortTaken,List.any_cons]
        cases hasShort s ((v.clusterSlots x).map Prod.snd) with
        | true => rfl
        | false => exact ih
    rw [hover]
    cases shortTaken v cs s <;> rfl

/-- The short name a new entry gets. -/
def chosenShort (k : Kmalloc) (v : Volume) (cs : List Nat) (leaf : CName) : ShortName :=
  if needsLfn leaf then
    match (List.range 1000).find?
      (fun n => !(k (.probe n) && shortTaken v cs (shortCandidate leaf n))) with
    | some n => shortCandidate leaf n
    | none => toShortName leaf
  else toShortName leaf

theorem newShortName_spec (hq : v.io = []) (hw : Walk v dir cs) (hf : cs.length < fuel)
    (leaf : CName) :
    newShortName fuel k dir leaf v = some (chosenShort k v cs leaf,v) := by
  rw [newShortName,chosenShort]
  cases needsLfn leaf with
  | false => rfl
  | true =>
    rw [if_pos rfl,if_pos rfl,genShortName]
    induction List.range 1000 with
    | nil => rfl
    | cons n ns ih =>
      rw [genLoop,shortNameExists_spec hq hw hf,List.find?_cons]
      cases k (.probe n) && shortTaken v cs (shortCandidate leaf n) with
      | false => rfl
      | true => exact ih

end KiNBOL
