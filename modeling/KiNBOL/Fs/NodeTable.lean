import KiNBOL.Fs.Kept
import KiNBOL.Fs.Tables

namespace KiNBOL

variable {v v' v'' w : Volume} {fuel n : Nat} {k : Kmalloc} {r : NodeRef}
  {gone gone' : NodeRef → Prop}

/-- A node of this name was put into an unused slot; the tables are otherwise as before. -/
def Added (v v' : Volume) (name : CName) : Prop :=
  ∃ i flags ctx w, Kept v w ∧ v.files i = none ∧ v' = w.withNode i ⟨name,flags,0,some ctx⟩

/-- The name that a call of `fat32_create_file` or `fat32_mkdir` registers, past its checks. -/
def NewName (v : Volume) (path name : CName) : Prop :=
  ∃ p, resolveParent v (stripDevPrefix path) = some p ∧ name = joinFullName p.name p.leaf ∧
    v.vfsFind name = none

theorem registerNew_tables {p : Parent} {flags : BitVec 32} {cluster : Nat} {loc : Loc}
    (hk : Kept v w) {st : FatStatus} (h : registerNew k p flags cluster loc w = (st,v')) :
    Kept v v' ∨ Added v v' (joinFullName p.name p.leaf) := by
  unfold registerNew at h
  split_ifs at h
  · obtain ⟨-,rfl⟩ := Prod.mk.inj h
    exact Or.inl hk
  · rcases addNode_cases w ⟨joinFullName p.name p.leaf,flags,0,some ⟨cluster,loc.lba,loc.offset⟩⟩
      with ⟨hno,-⟩ | ⟨i,hi,hsome⟩
    · rw [hno] at h
      obtain ⟨-,rfl⟩ := Prod.mk.inj h
      exact Or.inl hk
    · rw [hsome] at h
      obtain ⟨-,rfl⟩ := Prod.mk.inj h
      rw [hk.files] at hi
      exact Or.inr ⟨i,flags,_,w,hk,hi,rfl⟩

/-- `fat32_create_file` adds the node of its path or leaves the tables alone. -/
theorem fat32CreateFile_tables {path : CName} {st : FatStatus}
    (h : fat32CreateFile fuel k path v = some (st,v')) :
    Kept v v' ∨ ∃ name, NewName v path name ∧ Added v v' name := by
  unfold fat32CreateFile at h
  split_ifs at h
  · obtain ⟨-,rfl⟩ := Prod.mk.inj (Option.some.inj h)
    exact Or.inl (Kept.refl v)
  · obtain ⟨-,rfl⟩ := Prod.mk.inj (Option.some.inj h)
    exact Or.inl (Kept.refl v)
  · split at h
    next =>
      obtain ⟨-,rfl⟩ := Prod.mk.inj (Option.some.inj h)
      exact Or.inl (Kept.refl v)
    next p hp =>
      split at h
      next => simp at h
      next s w hs =>
        have hk := newShortName_kept hs
        split_ifs at h with hfind
        · obtain ⟨-,rfl⟩ := Prod.mk.inj (Option.some.inj h)
          exact Or.inl hk
        · rw [hk.vfsFind] at hfind
          split at h
          next => simp at h
          next he =>
            obtain ⟨-,rfl⟩ := Prod.mk.inj (Option.some.inj h)
            exact Or.inl (hk.trans (writeEntry_kept he))
          next he =>
            rcases registerNew_tables (hk.trans (writeEntry_kept he)) (Option.some.inj h) with
              hkept | hadd
            · exact Or.inl hkept
            · exact Or.inr ⟨_,⟨p,hp,rfl,by simpa using hfind⟩,hadd⟩

theorem fat32Mkdir_tables {path : CName} {st : FatStatus}
    (h : fat32Mkdir fuel k path v = some (st,v')) :
    Kept v v' ∨ ∃ name, NewName v path name ∧ Added v v' name := by
  unfold fat32Mkdir at h
  split at h
  · obtain ⟨-,rfl⟩ := Prod.mk.inj (Option.some.inj h)
    exact Or.inl (Kept.refl v)
  split at h
  · obtain ⟨-,rfl⟩ := Prod.mk.inj (Option.some.inj h)
    exact Or.inl (Kept.refl v)
  split at h
  next =>
    obtain ⟨-,rfl⟩ := Prod.mk.inj (Option.some.inj h)
    exact Or.inl (Kept.refl v)
  next p hp =>
    split at h
    · obtain ⟨-,rfl⟩ := Prod.mk.inj (Option.some.inj h)
      exact Or.inl (Kept.refl v)
    · next hfind =>
      have ha := v.allocCluster_kept
      split at h
      next hno =>
        rw [hno] at ha
        obtain ⟨-,rfl⟩ := Prod.mk.inj (Option.some.inj h)
        exact Or.inl ha
      next newc u halloc =>
        rw [halloc] at ha
        have hk₁ := ha.trans (u.fatSetEntry_kept newc 0x0FFFFFFF)
        split at h
        next => simp at h
        next s w hs =>
          have hk₂ := hk₁.trans (newShortName_kept hs)
          split at h
          next => simp at h
          next he =>
            obtain ⟨-,rfl⟩ := Prod.mk.inj (Option.some.inj h)
            exact Or.inl (hk₂.trans (writeEntry_kept he))
          next he =>
            have hk₃ := hk₂.trans (writeEntry_kept he)
            split at h
            · obtain ⟨-,rfl⟩ := Prod.mk.inj (Option.some.inj h)
              exact Or.inl hk₃
            · rcases registerNew_tables (hk₃.trans (Volume.writeSectors_kept ..))
                  (Option.some.inj h) with hkept | hadd
              · exact Or.inl hkept
              · exact Or.inr ⟨_,⟨p,hp,rfl,by simpa using hfind⟩,hadd⟩

/-- No slot of the driver is registered twice. -/
def FilesOnce (v : Volume) : Prop := ∀ i, v.nodes.count (.file i) ≤ 1

theorem FilesOnce.sublist (h : FilesOnce v) (hs : v'.nodes.Sublist v.nodes) : FilesOnce v' :=
  fun i => (hs.count_le (.file i)).trans (h i)

/-- Only nodes among `gone` have left the tables. -/
structure Shrunk (gone : NodeRef → Prop) (v v' : Volume) : Prop where
  others : v'.others = v.others
  files : ∀ i, v'.files i = v.files i ∨ gone (.file i) ∧ v'.files i = none
  sub : v'.nodes.Sublist v.nodes
  stay : ∀ r ∈ v.nodes, ¬gone r → r ∈ v'.nodes
  live : FilesOnce v → ∀ r ∈ v'.nodes, v'.node r = v.node r

theorem Kept.shrunk (h : Kept v v') (gone : NodeRef → Prop) : Shrunk gone v v' where
  others := h.others
  files i := Or.inl (by rw [h.files])
  sub := by rw [h.nodes]
  stay r hr _ := by rw [h.nodes]; exact hr
  live _ r _ := h.node r

theorem Shrunk.mono (h : Shrunk gone v v') (hg : ∀ r, gone r → gone' r) : Shrunk gone' v v' where
  others := h.others
  files i := (h.files i).imp id (fun hi => ⟨hg _ hi.1,hi.2⟩)
  sub := h.sub
  stay r hr hno := h.stay r hr (fun hgone => hno (hg r hgone))
  live := h.live

theorem Shrunk.trans (h1 : Shrunk gone v v') (h2 : Shrunk gone v' v'') : Shrunk gone v v'' where
  others := h2.others.trans h1.others
  files i := by
    rcases h2.files i with he | he
    · rw [he]
      exact h1.files i
    · exact Or.inr he
  sub := h2.sub.trans h1.sub
  stay r hr hno := h2.stay r (h1.stay r hr hno) hno
  live ho r hr := (h2.live (ho.sublist h1.sub) r hr).trans (h1.live ho r (h2.sub.mem hr))

/-- A node of the smaller tables was there before. -/
theorem Shrunk.node_before (h : Shrunk gone v v') {i : Fin 40} {f : FsNode}
    (hi : v'.files i = some f) : v.files i = some f := by
  rcases h.files i with he | ⟨-,he⟩
  · rw [← he]
    exact hi
  · rw [hi] at he
    exact absurd he (by simp)

/-- `vfs_unregister` and `slot_free`. -/
theorem unregister_shrunk (v : Volume) (r : NodeRef) :
    Shrunk (· = r) v ((v.vfsUnregister r).slotFree r) := by
  have hnodes : ((v.vfsUnregister r).slotFree r).nodes = v.nodes.erase r := by
    unfold Volume.slotFree
    split
    next => rfl
    next => split_ifs <;> rfl
  have hfiles : ∀ i, ((v.vfsUnregister r).slotFree r).files i =
      if r = .file i then none else v.files i := by
    intro i
    unfold Volume.slotFree
    split
    next => rw [if_neg (by simp)]; rfl
    next j =>
      split_ifs with h1 h2 h2
      · rw [NodeRef.file.injEq] at h2
        rw [← h2]
        exact h1
      · rfl
      · rw [NodeRef.file.injEq] at h2
        exact if_pos h2.symm
      · rw [NodeRef.file.injEq] at h2
        exact if_neg (Ne.symm h2)
  have hothers : ((v.vfsUnregister r).slotFree r).others = v.others := by
    unfold Volume.slotFree
    split
    next => rfl
    next => split_ifs <;> rfl
  refine ⟨hothers,fun i => ?_,?_,fun s hs hne => ?_,fun ho s hs => ?_⟩
  · rw [hfiles]
    split_ifs with hr
    · exact Or.inr ⟨hr.symm,rfl⟩
    · exact Or.inl rfl
  · rw [hnodes]
    exact List.erase_sublist
  · rw [hnodes]
    exact (List.mem_erase_of_ne hne).mpr hs
  · rw [hnodes] at hs
    cases s with
    | other i => simp only [Volume.node,hothers]
    | file i =>
      have hne : r ≠ .file i := by
        rintro rfl
        have hpos := List.count_pos_iff.mpr hs
        have hone := ho i
        rw [List.count_erase_self] at hpos
        omega
      simp only [Volume.node,hfiles]
      exact if_neg hne

theorem removeSingleNode_shrunk (h : removeSingleNode fuel k n r v = some v') :
    Shrunk (· = r) v v' := by
  unfold removeSingleNode at h
  dsimp only at h
  split at h
  next =>
    rw [← Option.some.inj h]
    exact unregister_shrunk v r
  next ctx _ =>
    split at h
    next => simp at h
    next w hw =>
      have hk : Kept v w := by
        split_ifs at hw
        · exact Volume.freeChain_kept hw
        · rw [← Option.some.inj hw]
          exact Kept.refl v
      obtain ⟨x,hx,rfl⟩ := Option.map_eq_some_iff.mp h
      exact ((hk.trans (markRemovedWithLfn_kept hx)).shrunk _).trans (unregister_shrunk x.2 r)

/-- A node in the driver's slots below a path, other than the one of the path. -/
def Below (v : Volume) (path : CName) (node r : NodeRef) : Prop :=
  ∃ i f, r = .file i ∧ v.files i = some f ∧ r ≠ node ∧ isPathOrChild f.name path = true

/-- A turn of the search of `deepestChild`. -/
theorem deepestChild_below {path : CName} {node : NodeRef} {i : Fin 40}
    (h : deepestChild v path node = some i) : Below v path node (.file i) := by
  unfold deepestChild at h
  dsimp only at h
  obtain ⟨⟨j,d⟩,hj,rfl⟩ := Option.map_eq_some_iff.mp h
  clear h
  refine List.foldlRecOn
    (motive := fun best => ∀ x, best = some x → Below v path node (.file x.1)) _ _ ?_ ?_ (j,d) hj
  · simp
  · intro best hb a _ x hx
    split at hx
    next => exact hb x hx
    next cand hcand =>
      have hnew : ¬(NodeRef.file a = node ∨ isPathOrChild cand.name path = false) →
          Below v path node (.file a) := by
        rw [not_or]
        exact fun hno => ⟨a,cand,rfl,hcand,hno.1,by simpa using hno.2⟩
      split_ifs at hx with hskip
      · exact hb x hx
      · split at hx
        next =>
          rw [← Option.some.inj hx]
          exact hnew hskip
        next =>
          split_ifs at hx
          · rw [← Option.some.inj hx]
            exact hnew hskip
          · exact hb x hx

theorem removeChildren_shrunk {path : CName} {node : NodeRef} {turns m : Nat}
    (h : removeChildren fuel k path node turns n v = some (m,v')) :
    Shrunk (Below v path node) v v' := by
  induction turns generalizing n v with
  | zero => simp [removeChildren] at h
  | succ turns ih =>
    rw [removeChildren] at h
    split at h
    next =>
      obtain ⟨-,rfl⟩ := Prod.mk.inj (Option.some.inj h)
      exact (Kept.refl v).shrunk _
    next i hi =>
      split at h
      next => simp at h
      next w hw =>
        have hone := removeSingleNode_shrunk hw
        have hbelow := deepestChild_below hi
        refine (hone.mono (fun r hr => hr ▸ hbelow)).trans ((ih h).mono ?_)
        rintro r ⟨j,f,rfl,hf,hne,hp⟩
        exact ⟨j,f,rfl,hone.node_before hf,hne,hp⟩

/-- The nodes that a call of `fat32_remove` takes out of the tables. -/
def Removes (fuel : Nat) (k : Kmalloc) (path : CName) (recursive : Bool) (v : Volume)
    (x : NodeRef) : Prop :=
  v.fatOk = true ∧ ∃ r f, v.vfsFind (stripDevPrefix path) = some r ∧ v.node r = some f ∧
    f.flags &&& (vfsFile ||| vfsDirectory) ≠ 0#32 ∧
    (if f.flags &&& vfsDirectory = 0#32 then x = r
     else if recursive then x = r ∨ Below v (stripDevPrefix path) r x
     else x = r ∧ ∃ ctx w, f.device = some ctx ∧
      dirIsEmpty fuel k ctx.startCluster v = some (true,w))

theorem fat32Remove_shrunk {path : CName} {recursive : Bool} {st : FatStatus}
    (h : fat32Remove fuel k path recursive v = some (st,v')) :
    Shrunk (Removes fuel k path recursive v) v v' := by
  unfold fat32Remove at h
  split at h
  · obtain ⟨-,rfl⟩ := Prod.mk.inj (Option.some.inj h)
    exact (Kept.refl v).shrunk _
  · next hok =>
    have hok' : v.fatOk = true := by simpa using hok
    dsimp only at h
    split at h
    next =>
      obtain ⟨-,rfl⟩ := Prod.mk.inj (Option.some.inj h)
      exact (Kept.refl v).shrunk _
    next r hr =>
      split at h
      next =>
        obtain ⟨-,rfl⟩ := Prod.mk.inj (Option.some.inj h)
        exact (Kept.refl v).shrunk _
      next f hf =>
        split_ifs at h with hkind hdir hrec
        · obtain ⟨-,rfl⟩ := Prod.mk.inj (Option.some.inj h)
          exact (Kept.refl v).shrunk _
        · obtain ⟨w,hw,he⟩ := Option.map_eq_some_iff.mp h
          obtain ⟨-,rfl⟩ := Prod.mk.inj he
          exact (removeSingleNode_shrunk hw).mono
            (fun x hx => ⟨hok',r,f,hr,hf,hkind,by rw [if_pos hdir]; exact hx⟩)
        · have hgone : ∀ x, x = r ∨ Below v (stripDevPrefix path) r x →
              Removes fuel k path recursive v x :=
            fun x hx => ⟨hok',r,f,hr,hf,hkind,by rw [if_neg hdir,if_pos hrec]; exact hx⟩
          split at h
          next => simp at h
          next hw =>
            obtain ⟨u,hu,he⟩ := Option.map_eq_some_iff.mp h
            obtain ⟨-,rfl⟩ := Prod.mk.inj he
            exact ((removeChildren_shrunk hw).mono (fun x hx => hgone x (Or.inr hx))).trans
              ((removeSingleNode_shrunk hu).mono (fun x hx => hgone x (Or.inl hx)))
        · split at h
          next =>
            obtain ⟨-,rfl⟩ := Prod.mk.inj (Option.some.inj h)
            exact (Kept.refl v).shrunk _
          next ctx hctx =>
            split at h
            next => simp at h
            next hd =>
              obtain ⟨-,rfl⟩ := Prod.mk.inj (Option.some.inj h)
              exact (dirIsEmpty_kept hd).shrunk _
            next w hd =>
              obtain ⟨u,hu,he⟩ := Option.map_eq_some_iff.mp h
              obtain ⟨-,rfl⟩ := Prod.mk.inj he
              refine ((dirIsEmpty_kept hd).shrunk _).trans ((removeSingleNode_shrunk hu).mono ?_)
              intro x hx
              exact ⟨hok',r,f,hr,hf,hkind,by
                rw [if_neg hdir,if_neg hrec]
                exact ⟨hx,ctx,w,hctx,hd⟩⟩

end KiNBOL
