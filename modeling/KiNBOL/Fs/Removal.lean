import KiNBOL.Fs.UniqueNames

namespace KiNBOL

/-! Which nodes a removal takes out of the VFS table. -/

/-- A call that removes only nodes of the driver's slots, or fails; the other nodes stay
registered in any case. -/
structure FatOnly (st : FatStatus) (v v' : Volume) : Prop where
  removed : st ≠ .ok ∨ ∀ r ∈ v.nodes, r ∉ v'.nodes → ∃ i, r = .file i
  stay : ∀ i, .other i ∈ v.nodes → .other i ∈ v'.nodes

/-- The path does not name a node of another provider that is marked as a file. -/
def NoForeignFile (v : Volume) (path : CName) : Prop :=
  v.fatOk = true → ∀ i, v.vfsFind (stripDevPrefix path) = some (.other i) →
    (v.others i).flags &&& vfsFile = 0#32

/-- The other providers' nodes are as they were, none is registered more often. -/
structure ForeignKept (v w : Volume) : Prop where
  others : w.others = v.others
  count : ∀ i, w.nodes.count (.other i) ≤ v.nodes.count (.other i)

variable {b v v' w : Volume} {k : Kmalloc} {fuel : Nat} {path : CName} {recursive : Bool}
  {st : FatStatus} {proc : Nat → Bool} {controllers size : Nat} {disk : Disk} {io : List Bool}

theorem ForeignKept.same (ho : w.others = v.others) (hn : w.nodes = v.nodes) : ForeignKept v w :=
  ⟨ho,fun i => by rw [hn]⟩

theorem ForeignKept.trans (h1 : ForeignKept v w) (h2 : ForeignKept w v') : ForeignKept v v' :=
  ⟨h2.others.trans h1.others,fun i => (h2.count i).trans (h1.count i)⟩

theorem Kept.foreign (h : Kept v w) : ForeignKept v w := .same h.others h.nodes

theorem Shrunk.foreign {gone : NodeRef → Prop} (h : Shrunk gone v w) : ForeignKept v w :=
  ⟨h.others,fun i => h.sub.count_le (.other i)⟩

theorem withNode_foreign (v : Volume) (i : Fin 40) (n : FsNode) : ForeignKept v (v.withNode i n) := by
  refine ⟨rfl,fun j => ?_⟩
  simp only [Volume.withNode]
  split_ifs
  · exact le_refl _
  · rw [List.count_append,List.count_singleton,if_neg (by simp)]
    omega

theorem Registers.foreign {l : List CName} (h : Registers v l w) : ForeignKept v w := by
  induction h with
  | done v => exact .same rfl rfl
  | @read v u w l ho _ ih =>
    obtain ⟨io,rfl⟩ : ∃ io, u = { v with io := io } := ⟨u.io,ho⟩
    exact ⟨ih.others,ih.count⟩
  | skip name _ ih => exact ih
  | node i n _ _ ih => exact (withNode_foreign _ i n).trans ih

theorem Added.foreign {name : CName} (h : Added v w name) : ForeignKept v w := by
  obtain ⟨i,flags,ctx,u,hk,-,rfl⟩ := h
  exact hk.foreign.trans (withNode_foreign u i _)

theorem FsCall.foreign {c : FsCall} (h : c.run fuel k v = some (st,v')) : ForeignKept v v' := by
  cases c with
  | create path =>
    exact (fat32CreateFile_tables h).elim Kept.foreign (fun ⟨_,_,ha⟩ => ha.foreign)
  | mkdir path => exact (fat32Mkdir_tables h).elim Kept.foreign (fun ⟨_,_,ha⟩ => ha.foreign)
  | remove path recursive => exact (fat32Remove_shrunk h).foreign

theorem fat32Init_foreign (h : fat32Init fuel k v = some v') : ForeignKept v v' := by
  rcases fat32Init_registers h with ho | ⟨w,u,hn,ho,-,hreg,rfl⟩
  · obtain ⟨io,rfl⟩ : ∃ io, v' = { v with io := io } := ⟨v'.io,ho⟩
    exact .same rfl rfl
  · have hu := (ForeignKept.same ho hn).trans hreg.foreign
    exact ⟨hu.others,hu.count⟩

theorem FsReach.foreign {ok : Volume → FsCall → Prop} (h : FsReach ok b v) : ForeignKept b v := by
  induction h with
  | mount hm => exact fat32Init_foreign hm
  | call c _ _ hrun ih => exact ih.trans (FsCall.foreign hrun)

/-- The boot registers a node of `procfs_init` once at most. -/
theorem bootRefs_count {i : Nat} (hi : i < 11) :
    (bootRefs proc controllers).count (.other i) ≤ 1 := by
  have hinj : ∀ l : List Nat, (l.map NodeRef.other).count (.other i) = l.count i := by
    intro l
    induction l with
    | nil => rfl
    | cons a l ih =>
      rw [List.map_cons,List.count_cons,List.count_cons,ih]
      simp
  have hnodup : (List.range 6++(List.range' 6 5).filter proc).Nodup := by
    have hall : (List.range 6++List.range' 6 5).Nodup := by decide
    exact hall.sublist ((List.filter_sublist ..).append_left _)
  rw [bootRefs,hinj,List.count_append,List.count_replicate,if_neg (by simp; omega),Nat.add_zero]
  exact List.nodup_iff_count_le_one.mp hnodup i

theorem bootVolume_refs : (bootVolume proc controllers size disk io).nodes.Sublist
    (bootRefs proc controllers) ∧
    (bootVolume proc controllers size disk io).others = bootNode size := by
  obtain ⟨hs,ho,-⟩ : (bootVolume proc controllers size disk io).nodes.Sublist
      ([]++bootRefs proc controllers) ∧ _ ∧ _ := foldl_vfsRegister ..
  exact ⟨hs,ho⟩

/-- The nodes of other providers that the driver would take for files or directories: those of
`procfs_init`, which have no context. -/
theorem bootNode_kinds (size : Nat) : ∀ i < 12,
    ((bootNode size i).flags &&& (vfsFile ||| vfsDirectory) ≠ 0#32 ↔
      (bootNode size i).flags &&& vfsFile ≠ 0#32) ∧
    ((bootNode size i).flags &&& vfsFile ≠ 0#32 → i < 11 ∧
      (bootNode size i).flags &&& vfsDirectory = 0#32 ∧ (bootNode size i).device = none) := by
  intro i hi
  interval_cases i <;> simp [bootNode,vfsFile,vfsDirectory]

theorem bootNode_device (size i : Nat) : (bootNode size i).device = none := by
  by_cases hi : i < 11
  · interval_cases i <;> rfl
  · rw [bootNode]
    dsimp only
    rw [List.getD_eq_default _ _ (by simpa using hi)]

/-- What a run keeps of them. -/
theorem FsReach.boot_nodes {ok : Volume → FsCall → Prop}
    (h : FsReach ok (bootVolume proc controllers size disk io) v) :
    v.others = bootNode size ∧ (∀ i, .other i ∈ v.nodes → i < 12) ∧
      ∀ i, i < 11 → v.nodes.count (.other i) ≤ 1 := by
  obtain ⟨hsub,hboot⟩ := @bootVolume_refs proc controllers size disk io
  obtain ⟨hothers,hcount⟩ := h.foreign
  refine ⟨hothers.trans hboot,fun i hi => ?_,fun i hi => ?_⟩
  · have hpos := lt_of_lt_of_le (List.count_pos_iff.mpr hi) (hcount i)
    obtain ⟨j,hj,he⟩ := bootRefs_lt (hsub.mem (List.count_pos_iff.mp hpos))
    rw [NodeRef.other.injEq] at he
    omega
  · exact (hcount i).trans ((hsub.count_le (.other i)).trans (bootRefs_count hi))

theorem fatOnly_of_noForeign {ok : Volume → FsCall → Prop}
    (h : FsReach ok (bootVolume proc controllers size disk io) v) (hno : NoForeignFile v path)
    (hrun : fat32Remove fuel k path recursive v = some (st,v')) : FatOnly st v v' := by
  obtain ⟨hothers,hlt,-⟩ := h.boot_nodes
  have hshrunk := fat32Remove_shrunk hrun
  have hstay : ∀ i, .other i ∈ v.nodes → .other i ∈ v'.nodes := by
    intro i hi
    apply hshrunk.stay (.other i) hi
    intro hgone
    obtain ⟨hok,r,f,hfind,hf,hkind,hwhich⟩ := hgone
    have hr : r = .other i := by
      split_ifs at hwhich with hdir hrec
      · exact hwhich.symm
      · rcases hwhich with he | ⟨j,g,he,-⟩
        · exact he.symm
        · simp at he
      · exact hwhich.1.symm
    subst hr
    obtain ⟨hfile,-⟩ := bootNode_kinds size i (hlt i hi)
    have hnode : bootNode size i = f := by
      simp only [Volume.node,hothers,Option.some.injEq] at hf
      exact hf
    rw [← hnode] at hkind
    exact hfile.mp hkind (hothers ▸ hno hok i hfind)
  refine ⟨Or.inr (fun r hr hgone => ?_),hstay⟩
  cases r with
  | other i => exact absurd (hstay i hr) hgone
  | file i => exact ⟨i,rfl⟩

/-- A file of another provider is taken out of the table. -/
theorem remove_foreign_file {ok : Volume → FsCall → Prop} {i : Nat}
    (h : FsReach ok (bootVolume proc controllers size disk io) v) (hok : v.fatOk = true)
    (hfind : v.vfsFind (stripDevPrefix path) = some (.other i))
    (hfile : (v.others i).flags &&& vfsFile ≠ 0#32) (fuel : Nat) (k : Kmalloc)
    (recursive : Bool) : ∃ v', fat32Remove fuel k path recursive v = some (.ok,v') ∧
      .other i ∈ v.nodes ∧ .other i ∉ v'.nodes := by
  obtain ⟨hothers,hlt,honce⟩ := h.boot_nodes
  have hmem : .other i ∈ v.nodes := List.mem_of_find?_eq_some hfind
  rw [hothers] at hfile
  obtain ⟨hkind,hplain⟩ := bootNode_kinds size i (hlt i hmem)
  obtain ⟨hi,hdir,hdevice⟩ := hplain hfile
  have hnode : v.node (.other i) = some (bootNode size i) := by
    simp only [Volume.node,hothers]
  refine ⟨v.vfsUnregister (.other i),?_,hmem,fun hin => ?_⟩
  · simp only [fat32Remove,hok,hfind,hnode,removeSingleNode,Option.bind_some,hdevice,
      Volume.slotFree,Option.map_some,Bool.not_true,Bool.false_eq_true,if_false]
    rw [if_neg (hkind.mpr hfile),if_pos hdir]
  · have hpos : 0 < (v.nodes.erase (.other i)).count (.other i) := List.count_pos_iff.mpr hin
    rw [List.count_erase_self] at hpos
    have hone := honce i hi
    omega

/-- In every state of a run a removal takes only nodes of the driver's slots exactly when its path
does not name a file of another provider. -/
theorem remove_fat_only_iff (proc : Nat → Bool) (controllers size : Nat) (disk : Disk)
    (io : List Bool) (path : CName) (recursive : Bool)
    (h : FsReach (fun _ _ => True) (bootVolume proc controllers size disk io) v) :
    (∀ fuel k st v', fat32Remove fuel k path recursive v = some (st,v') → FatOnly st v v') ↔
      NoForeignFile v path := by
  constructor
  · intro hall hok i hfind
    by_contra hfile
    obtain ⟨v',hrun,hmem,hgone⟩ :=
      remove_foreign_file h hok hfind hfile 0 (fun _ => true) recursive
    exact hgone ((hall 0 _ .ok v' hrun).stay i hmem)
  · intro hno fuel k st v' hrun
    exact fatOnly_of_noForeign h hno hrun

/-- The path of a file of the image and that of a file of `procfs_init`. -/
theorem oneFile_found : ∃ v, FsReach (fun _ _ => True) (oneFileVolume ['A']) v ∧ v.fatOk = true ∧
    v.vfsFind (named ['A']) = some (.file 0) ∧
    v.vfsFind (named ['p','r','o','c','/','v','e','r','s','i','o','n']) = some (.other 6) ∧
    (v.others 6).flags &&& vfsFile ≠ 0#32 := by
  have hm : (fat32Init 1 (fun _ => true) (oneFileVolume ['A'])).map
      (fun v => (v.fatOk,v.vfsFind (named ['A']),
        v.vfsFind (named ['p','r','o','c','/','v','e','r','s','i','o','n']),
        decide ((v.others 6).flags &&& vfsFile ≠ 0#32))) =
      some (true,some (.file 0),some (.other 6),true) := by decide
  obtain ⟨v,hv,he⟩ := Option.map_eq_some_iff.mp hm
  simp only [Prod.mk.injEq,decide_eq_true_eq] at he
  exact ⟨v,.mount hv,he.1,he.2.1,he.2.2.1,he.2.2.2⟩

/-- The file proc/version can be removed. -/
theorem remove_proc_version : ∃ v, FsReach (fun _ _ => True) (oneFileVolume ['A']) v ∧
    ¬∀ fuel k st v', fat32Remove fuel k (named ['p','r','o','c','/','v','e','r','s','i','o','n'])
      false v = some (st,v') → FatOnly st v v' := by
  obtain ⟨v,hv,hok,-,hfind,hfile⟩ := oneFile_found
  refine ⟨v,hv,fun hall => ?_⟩
  have hfind' : v.vfsFind (stripDevPrefix (named
      ['p','r','o','c','/','v','e','r','s','i','o','n'])) = some (.other 6) := hfind
  obtain ⟨v',hrun,hmem,hgone⟩ := remove_foreign_file hv hok hfind' hfile 0 (fun _ => true) false
  exact hgone ((hall 0 _ .ok v' hrun).stay 6 hmem)

theorem remove_fat_only_iff_sample : ∃ v, FsReach (fun _ _ => True) (oneFileVolume ['A']) v ∧
    ∀ fuel k st v', fat32Remove fuel k (named ['A']) false v = some (st,v') → FatOnly st v v' := by
  obtain ⟨v,hv,-,hfind,-⟩ := oneFile_found
  refine ⟨v,hv,(remove_fat_only_iff _ _ _ _ _ (named ['A']) false hv).mpr (fun _ i hi => ?_)⟩
  have hplain : stripDevPrefix (named ['A']) = named ['A'] := by decide
  rw [hplain,hfind] at hi
  simp at hi

end KiNBOL
