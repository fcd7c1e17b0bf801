import Mathlib.Data.List.GetD
import Mathlib.Tactic.IntervalCases
import KiNBOL.Fs.Listing

namespace KiNBOL

variable {b v v' w : Volume} {k : Kmalloc} {fuel : Nat} {r r' : NodeRef} {a : CName}

def named (l : List Char) : CName := l.map ch

/-- The nodes made before the mount: those of `vfs_init`, those of `procfs_init`, and the disk of
`ahci_init` with its size. -/
def bootNode (size : Nat) (i : Nat) : FsNode :=
  let proc (name : List Char) : FsNode := ⟨named name,vfsFile,512,none⟩
  let dev (name : List Char) : FsNode := ⟨named name,0x04#32,0,none⟩
  [dev ['n','u','l','l'],dev ['z','e','r','o'],dev ['r','a','n','d','o','m'],dev ['t','t','y'],
    dev ['d','m','e','s','g'],⟨named ['r','a','m','0'],0x08#32,65536,none⟩,
    proc ['p','r','o','c','/','v','e','r','s','i','o','n'],
    proc ['p','r','o','c','/','c','p','u','i','n','f','o'],
    proc ['p','r','o','c','/','u','p','t','i','m','e'],
    proc ['p','r','o','c','/','s','e','l','f','/','s','t','a','t','u','s'],
    proc ['p','r','o','c','/','s','e','l','f','/','e','x','e']].getD i
    ⟨named ['s','d','a'],0x08#32,size,none⟩

/-- The registrations of the boot: a node of `procfs_init` needs memory, and each controller with a
drive registers the disk. -/
def bootRefs (proc : Nat → Bool) (controllers : Nat) : List NodeRef :=
  ((List.range 6++(List.range' 6 5).filter proc)++List.replicate controllers 11).map .other

/-- The state before the mount. -/
def bootVolume (proc : Nat → Bool) (controllers size : Nat) (disk : Disk) (io : List Bool) :
    Volume :=
  (bootRefs proc controllers).foldl Volume.vfsRegister
    { fatOk := false
      sectorsPerCluster := 0
      numFats := 0
      fatSize32 := 0
      fatStart := 0
      dataStart := 0
      rootCluster := 0
      totalClusters := 0
      nextFreeHint := 2
      fsinfoLba := 0
      fsinfoValid := false
      fsinfoFreeCount := 0
      files := fun _ => none
      active := 0
      nodes := []
      others := bootNode size
      disk := disk
      io := io }

/-- The calls that change which nodes there are. -/
inductive FsCall where
  | create (path : CName)
  | mkdir (path : CName)
  | remove (path : CName) (recursive : Bool)

def FsCall.run (fuel : Nat) (k : Kmalloc) : FsCall → Volume → Option (FatStatus × Volume)
  | .create path => fat32CreateFile fuel k path
  | .mkdir path => fat32Mkdir fuel k path
  | .remove path recursive => fat32Remove fuel k path recursive

/-- The states of runs from a boot whose calls all meet a condition. -/
inductive FsReach (ok : Volume → FsCall → Prop) (b : Volume) : Volume → Prop
  | mount {fuel : Nat} {k : Kmalloc} {v : Volume} : fat32Init fuel k b = some v → FsReach ok b v
  | call {fuel : Nat} {k : Kmalloc} {v v' : Volume} {st : FatStatus} (c : FsCall) :
      FsReach ok b v → ok v c → c.run fuel k v = some (st,v') → FsReach ok b v'

/-- A registered node and its name. -/
def Named (v : Volume) (r : NodeRef) (a : CName) : Prop :=
  r ∈ v.nodes ∧ ∃ n, v.node r = some n ∧ n.name = a

/-- No two nodes have the same name but for case, and each is found by its name. -/
def UniqueNames (v : Volume) : Prop :=
  (∀ r r' a a', Named v r a → Named v r' a' → strEqCi a a' = true → r = r') ∧
    ∀ r a, Named v r a → v.vfsFind a = some r

/-- The entries of the image have different names, which are not those of nodes made before the
mount and do not begin with the prefix of a device. -/
def ImageNamesOk (b : Volume) : Prop :=
  ∀ fuel, (b.imageNames fuel).Pairwise (fun a a' => strEqCi a a' = false) ∧
    ∀ a ∈ b.imageNames fuel, stripDevPrefix a = a ∧ ∀ r a', Named b r a' → strEqCi a' a = false

/-- A new node's path has no second prefix of a device behind the one that is taken off. -/
def CallNamesOk (v : Volume) : FsCall → Prop
  | .create path | .mkdir path =>
    ∀ p, resolveParent v (stripDevPrefix path) = some p →
      v.vfsFind (joinFullName p.name p.leaf) = none →
      stripDevPrefix (stripDevPrefix path) = stripDevPrefix path
  | .remove _ _ => True

theorem strEqCi_iff (a a' : CName) : strEqCi a a' = true ↔ a.map toLower = a'.map toLower := by
  induction a generalizing a' with
  | nil => cases a' <;> simp [strEqCi]
  | cons c cs ih =>
    cases a' with
    | nil => simp [strEqCi]
    | cons d ds =>
      rw [strEqCi,List.map_cons,List.map_cons,List.cons.injEq]
      split_ifs with h
      · rw [ih]
        exact ⟨fun he => ⟨h,he⟩,fun he => he.2⟩
      · constructor
        · intro he
          exact absurd (congrArg toLower (of_decide_eq_true he)) h
        · exact fun he => absurd he.1 h

theorem strEqCi_symm {a a' : CName} (h : strEqCi a a' = true) : strEqCi a' a = true :=
  (strEqCi_iff a' a).mpr ((strEqCi_iff a a').mp h).symm

/-- Registered nodes are there, and those of the driver once. -/
structure NodesSound (v : Volume) : Prop where
  once : FilesOnce v
  used : ∀ r ∈ v.nodes, v.node r ≠ none

theorem NodesSound.congr (h : NodesSound v) (hn : w.nodes = v.nodes)
    (hnode : ∀ r ∈ v.nodes, w.node r = v.node r) : NodesSound w := by
  refine ⟨fun i => ?_,fun r hr => ?_⟩
  · rw [hn]
    exact h.once i
  · rw [hn] at hr
    rw [hnode r hr]
    exact h.used r hr

theorem NodesSound.shrunk {gone : NodeRef → Prop} (h : NodesSound v) (hs : Shrunk gone v w) :
    NodesSound w := by
  refine ⟨h.once.sublist hs.sub,fun r hr => ?_⟩
  rw [hs.live h.once r hr]
  exact h.used r (hs.sub.mem hr)

theorem node_withNode (v : Volume) (i : Fin 40) (n : FsNode) (r : NodeRef) :
    (v.withNode i n).node r = if r = .file i then some n else v.node r := by
  cases r with
  | other j => rfl
  | file j => simp only [Volume.node,Volume.withNode,NodeRef.file.injEq]

/-- The nodes after a registration. -/
theorem mem_withNode {i : Fin 40} {n : FsNode} (hr : r ∈ (v.withNode i n).nodes) :
    r ∈ v.nodes ∨ r = .file i := by
  simp only [Volume.withNode] at hr
  split_ifs at hr
  · exact Or.inl hr
  · rw [List.mem_append,List.mem_singleton] at hr
    exact hr

theorem NodesSound.withNode (h : NodesSound v) {i : Fin 40} (hi : v.files i = none) (n : FsNode) :
    NodesSound (v.withNode i n) := by
  have hfree : NodeRef.file i ∉ v.nodes := fun hmem => h.used _ hmem hi
  refine ⟨fun j => ?_,fun r hr => ?_⟩
  · simp only [Volume.withNode]
    split_ifs
    · exact h.once j
    · rw [List.count_append]
      by_cases hj : j = i
      · subst hj
        rw [List.count_eq_zero.mpr hfree]
        simp
      · rw [List.count_singleton,if_neg (by simpa using fun he => hj he.symm)]
        exact h.once j
  · rw [node_withNode]
    split_ifs with hri
    · simp
    · exact h.used r ((mem_withNode hr).resolve_right hri)

theorem NodesSound.registers {l : List CName} (hreg : Registers v l w) (h : NodesSound v) :
    NodesSound w := by
  induction hreg with
  | done v => exact h
  | @read v u w l ho _ ih =>
    obtain ⟨io,rfl⟩ : ∃ io, u = { v with io := io } := ⟨u.io,ho⟩
    exact ih (h.congr rfl (fun r _ => by cases r <;> rfl))
  | skip name _ ih => exact ih h
  | node i n hi _ ih => exact ih (h.withNode hi n)

/-- What keeps names unique: registered nodes are there once, with different names that look-ups
take as they are. -/
structure TableNames (v : Volume) : Prop where
  once : FilesOnce v
  used : ∀ r ∈ v.nodes, v.node r ≠ none
  apart : ∀ r r' a a', Named v r a → Named v r' a' → strEqCi a a' = true → r = r'
  plain : ∀ r a, Named v r a → stripDevPrefix a = a

theorem TableNames.sound (h : TableNames v) : NodesSound v := ⟨h.once,h.used⟩

theorem TableNames.unique (h : TableNames v) : UniqueNames v := by
  refine ⟨h.apart,fun r a hr => ?_⟩
  cases hfind : v.vfsFind a with
  | none =>
    exfalso
    rw [Volume.vfsFind,List.find?_eq_none] at hfind
    obtain ⟨hmem,n,hn,rfl⟩ := hr
    apply hfind r hmem
    rw [hn,h.plain r n.name ⟨hmem,n,hn,rfl⟩]
    exact (strEqCi_iff _ _).mpr rfl
  | some r' =>
    rw [Volume.vfsFind] at hfind
    have hp := List.find?_some hfind
    have hmem := List.mem_of_find?_eq_some hfind
    split at hp
    next => simp at hp
    next n hn =>
      rw [h.plain r a hr] at hp
      rw [h.apart r' r n.name a ⟨hmem,n,hn,rfl⟩ hr hp]

theorem named_congr (hn : w.nodes = v.nodes) (hnode : ∀ r ∈ v.nodes, w.node r = v.node r) :
    Named w r a ↔ Named v r a := by
  rw [Named,Named,hn]
  exact and_congr_right (fun hr => by rw [hnode r hr])

/-- The same nodes under the same names. -/
theorem TableNames.congr (h : TableNames v) (hn : w.nodes = v.nodes)
    (hnode : ∀ r ∈ v.nodes, w.node r = v.node r) : TableNames w := by
  obtain ⟨honce,hused⟩ := h.sound.congr hn hnode
  refine ⟨honce,hused,fun r r' a a' hr hr' => ?_,fun r a hr => ?_⟩
  · exact h.apart r r' a a' ((named_congr hn hnode).mp hr) ((named_congr hn hnode).mp hr')
  · exact h.plain r a ((named_congr hn hnode).mp hr)

theorem TableNames.kept (h : TableNames v) (hk : Kept v w) : TableNames w :=
  h.congr hk.nodes (fun r _ => hk.node r)

theorem TableNames.shrunk {gone : NodeRef → Prop} (h : TableNames v) (hs : Shrunk gone v w) :
    TableNames w := by
  have hnamed : ∀ r a, Named w r a → Named v r a := by
    rintro r a ⟨hr,n,hn,ha⟩
    rw [hs.live h.once r hr] at hn
    exact ⟨hs.sub.mem hr,n,hn,ha⟩
  obtain ⟨honce,hused⟩ := h.sound.shrunk hs
  refine ⟨honce,hused,fun r r' a a' hr hr' => ?_,fun r a hr => ?_⟩
  · exact h.apart r r' a a' (hnamed r a hr) (hnamed r' a' hr')
  · exact h.plain r a (hnamed r a hr)

/-- The names after a registration. -/
theorem named_withNode {i : Fin 40} {n : FsNode} (hr : Named (v.withNode i n) r a) : Named v r a ∨ r = .file i ∧ a = n.name := by
  obtain ⟨hmem,m,hm,rfl⟩ := hr
  rw [node_withNode] at hm
  split_ifs at hm with hri
  · rw [Option.some.injEq] at hm
    exact Or.inr ⟨hri,by rw [hm]⟩
  · left
    exact ⟨(mem_withNode hmem).resolve_right hri,m,hm,rfl⟩

/-- A node whose name is new. -/
theorem TableNames.withNode (h : TableNames v) {i : Fin 40} (hi : v.files i = none) {n : FsNode}
    (hplain : stripDevPrefix n.name = n.name)
    (hnew : ∀ r a, Named v r a → strEqCi a n.name = false) : TableNames (v.withNode i n) := by
  obtain ⟨honce,hused⟩ := h.sound.withNode hi n
  refine ⟨honce,hused,fun r r' a a' hr hr' he => ?_,fun r a hr => ?_⟩
  · rcases named_withNode hr with hr | ⟨rfl,rfl⟩
    · rcases named_withNode hr' with hr' | ⟨rfl,rfl⟩
      · exact h.apart r r' a a' hr hr' he
      · exact Bool.noConfusion (he.symm.trans (hnew r a hr))
    · rcases named_withNode hr' with hr' | ⟨rfl,rfl⟩
      · exact Bool.noConfusion ((strEqCi_symm he).symm.trans (hnew r' a' hr'))
      · rfl
  · rcases named_withNode hr with hr | ⟨rfl,rfl⟩
    · exact h.plain r a hr
    · exact hplain

/-- A mount that registers different new names. -/
theorem TableNames.registers {l : List CName} (hreg : Registers v l w) (h : TableNames v)
    (hl : l.Pairwise (fun a a' => strEqCi a a' = false))
    (hnew : ∀ a ∈ l, stripDevPrefix a = a ∧ ∀ r a', Named v r a' → strEqCi a' a = false) :
    TableNames w := by
  induction hreg with
  | done v => exact h
  | @read v u w l ho _ ih =>
    obtain ⟨io,rfl⟩ : ∃ io, u = { v with io := io } := ⟨u.io,ho⟩
    exact ih (h.congr rfl (fun r _ => by cases r <;> rfl)) hl hnew
  | skip name _ ih =>
    exact ih h (List.pairwise_cons.mp hl).2 (fun a ha => hnew a (List.mem_cons_of_mem _ ha))
  | node i n hi _ ih =>
    obtain ⟨hfirst,hl⟩ := List.pairwise_cons.mp hl
    obtain ⟨hplain,hn⟩ := hnew n.name (List.mem_cons_self ..)
    refine ih (h.withNode hi hplain hn) hl (fun a ha => ?_)
    obtain ⟨hp,hno⟩ := hnew a (List.mem_cons_of_mem _ ha)
    refine ⟨hp,fun r a' hr => ?_⟩
    rcases named_withNode hr with hr | ⟨rfl,rfl⟩
    · exact hno r a' hr
    · exact hfirst a ha

theorem isPrefixOf_strip (p q : CName) (hp : p ≠ []) :
    (stripPrefix p q).length ≤ q.length ∧ (p.isPrefixOf q = true → (stripPrefix p q).length < q.length) := by
  have hpos : 0 < p.length := List.length_pos_iff.mpr hp
  unfold stripPrefix
  split_ifs with h
  · have hle := (List.isPrefixOf_iff_prefix.mp h).length_le
    rw [List.length_drop]
    exact ⟨by omega,fun _ => by omega⟩
  · exact ⟨le_refl _,fun hc => absurd hc h⟩

/-- The names that look-ups take as they are. -/
theorem stripDevPrefix_eq (q : CName) : stripDevPrefix q = q ↔
    (named ['/','d','e','v','/']).isPrefixOf q = false ∧
      (named ['s','d','a','/']).isPrefixOf q = false := by
  constructor
  · intro h
    have h1 := isPrefixOf_strip (named ['/','d','e','v','/']) q (by decide)
    have h2 := isPrefixOf_strip (named ['s','d','a','/']) (stripPrefix (named ['/','d','e','v','/']) q)
      (by decide)
    have he : (stripPrefix (named ['s','d','a','/'])
        (stripPrefix (named ['/','d','e','v','/']) q)).length = q.length := congrArg List.length h
    have hdev : ¬(named ['/','d','e','v','/']).isPrefixOf q = true := by
      intro hp
      have := h1.2 hp
      omega
    have hdev' : stripPrefix (named ['/','d','e','v','/']) q = q := if_neg hdev
    rw [hdev'] at h2 he
    refine ⟨Bool.eq_false_iff.mpr hdev,?_⟩
    by_contra hp
    have := h2.2 (by simpa using hp)
    omega
  · rintro ⟨h1,h2⟩
    have hdev : stripPrefix (named ['/','d','e','v','/']) q = q := if_neg (by simp [h1])
    change stripPrefix (named ['s','d','a','/']) (stripPrefix (named ['/','d','e','v','/']) q) = q
    rw [hdev]
    exact if_neg (by simp [h2])

theorem lastIdx_spec {c : Byte} {q : CName} {i : Nat} (h : lastIdx c q = some i) :
    i < q.length ∧ q.getD i 0#8 = c ∧ c ∉ q.drop (i+1) := by
  obtain ⟨hc,as,bs,hl,has⟩ := List.find?_eq_some_iff_append.mp h
  have hi : i ∈ (List.range q.length).reverse := by
    rw [hl]
    simp
  rw [List.mem_reverse,List.mem_range] at hi
  refine ⟨hi,of_decide_eq_true hc,fun hmem => ?_⟩
  obtain ⟨j,hj,he⟩ := List.mem_iff_getElem.mp hmem
  rw [List.length_drop] at hj
  rw [List.getElem_drop] at he
  have hlater : i+1+j ∈ as := by
    have hsorted : (as++i::bs).Pairwise (fun x y => y < x) := by
      rw [← hl]
      exact List.pairwise_reverse.mpr List.pairwise_lt_range
    have hin : i+1+j ∈ as++i::bs := by
      rw [← hl,List.mem_reverse,List.mem_range]
      omega
    rcases List.mem_append.mp hin with hin | hin
    · exact hin
    · have hbs := (List.pairwise_cons.mp (List.pairwise_append.mp hsorted).2.1).1
      rcases List.mem_cons.mp hin with hin | hin
      · omega
      · have := hbs _ hin
        omega
  have hno := has _ hlater
  rw [List.getD_eq_getElem _ _ (by omega : i+1+j < q.length)] at hno
  simp [he] at hno

/-- The full name of a new node is the front of its path, or has no slash. -/
theorem joinFullName_path {q : CName} {p : Parent} (h : resolveParent v q = some p) :
    joinFullName p.name p.leaf = q.take (vfsNameMax-1) ∨
      ch '/' ∉ joinFullName p.name p.leaf := by
  unfold resolveParent at h
  split at h
  next =>
    rw [← Option.some.inj h]
    exact Or.inl rfl
  next slash hslash =>
    obtain ⟨hlt,hc,hno⟩ := lastIdx_spec hslash
    have hp : p.name = q.take (min slash (vfsNameMax-1)) ∧ p.leaf = q.drop (slash+1) := by
      dsimp only at h
      split at h
      · simp at h
      · split_ifs at h
        obtain ⟨ctx,-,rfl⟩ := Option.map_eq_some_iff.mp h
        exact ⟨rfl,rfl⟩
    rw [joinFullName,hp.1,hp.2]
    split_ifs with hnil
    · right
      exact fun hmem => hno (List.mem_of_mem_take hmem)
    · left
      by_cases hs : slash ≤ vfsNameMax-1
      · rw [Nat.min_eq_left hs]
        have hq : q.take slash++ch '/'::q.drop (slash+1) = q := by
          rw [← hc,List.getD_eq_getElem _ _ hlt,← List.drop_eq_getElem_cons hlt,
            List.take_append_drop]
        rw [hq]
      · rw [Nat.min_eq_right (by omega),List.take_append_of_le_length
          (by rw [List.length_take]; omega),List.take_take,Nat.min_self]

theorem newName_plain {path name : CName} (h : NewName v path name)
    (hq : stripDevPrefix (stripDevPrefix path) = stripDevPrefix path) :
    stripDevPrefix name = name := by
  obtain ⟨p,hp,rfl,-⟩ := h
  rw [stripDevPrefix_eq] at hq ⊢
  have hfront : ∀ m : CName, ch '/' ∈ m → m.isPrefixOf (stripDevPrefix path) = false →
      m.isPrefixOf (joinFullName p.name p.leaf) = false := by
    intro m hm hno
    rw [Bool.eq_false_iff,ne_eq,List.isPrefixOf_iff_prefix] at hno ⊢
    intro hpre
    rcases joinFullName_path hp with he | he
    · rw [he] at hpre
      exact hno (hpre.trans (List.take_prefix ..))
    · exact he (hpre.subset hm)
  exact ⟨hfront _ (by decide) hq.1,hfront _ (by decide) hq.2⟩

theorem vfsFind_none (hp : stripDevPrefix a = a) (hno : v.vfsFind a = none) :
    ∀ r a', Named v r a' → strEqCi a' a = false := by
  rintro r a' ⟨hr,n,hn,rfl⟩
  rw [Volume.vfsFind,List.find?_eq_none] at hno
  have := hno r hr
  rw [hn,hp] at this
  simpa using this

/-- A node added by `fat32_create_file` or `fat32_mkdir`. -/
theorem TableNames.added {path : CName} (h : TableNames v)
    (hq : ∀ p, resolveParent v (stripDevPrefix path) = some p →
      v.vfsFind (joinFullName p.name p.leaf) = none →
      stripDevPrefix (stripDevPrefix path) = stripDevPrefix path)
    (hc : Kept v v' ∨ ∃ name, NewName v path name ∧ Added v v' name) : TableNames v' := by
  rcases hc with hk | ⟨name,hnew,i,flags,ctx,w,hk,hi,rfl⟩
  · exact h.kept hk
  · have hplain : stripDevPrefix name = name := by
      apply newName_plain hnew
      obtain ⟨p,hp,rfl,hno⟩ := hnew
      exact hq p hp hno
    have hno := vfsFind_none hplain (by obtain ⟨p,-,rfl,hno⟩ := hnew; exact hno)
    have hw : ∀ r a', Named w r a' → Named v r a' := by
      rintro r a' ⟨hr,n,hn,ha⟩
      rw [hk.nodes] at hr
      rw [hk.node] at hn
      exact ⟨hr,n,hn,ha⟩
    exact (h.kept hk).withNode (by rw [hk.files]; exact hi) hplain
      (fun r a' hr => hno r a' (hw r a' hr))

theorem TableNames.run {c : FsCall} {st : FatStatus} (h : TableNames v) (hc : CallNamesOk v c)
    (hrun : c.run fuel k v = some (st,v')) : TableNames v' := by
  cases c with
  | create path => exact h.added hc (fat32CreateFile_tables hrun)
  | mkdir path => exact h.added hc (fat32Mkdir_tables hrun)
  | remove path recursive => exact h.shrunk (fat32Remove_shrunk hrun)

theorem foldl_vfsRegister (l : List NodeRef) (v : Volume) :
    (l.foldl Volume.vfsRegister v).nodes.Sublist (v.nodes++l) ∧
      (l.foldl Volume.vfsRegister v).others = v.others ∧
      (l.foldl Volume.vfsRegister v).files = v.files := by
  induction l generalizing v with
  | nil => simp
  | cons r l ih =>
    obtain ⟨hs,ho,hf⟩ := ih (v.vfsRegister r)
    rw [List.foldl_cons]
    have hone : (v.vfsRegister r).nodes.Sublist (v.nodes++[r]) ∧
        (v.vfsRegister r).others = v.others ∧ (v.vfsRegister r).files = v.files := by
      unfold Volume.vfsRegister
      split_ifs
      · exact ⟨List.sublist_append_left .., rfl,rfl⟩
      · exact ⟨List.Sublist.refl _,rfl,rfl⟩
    refine ⟨?_,ho.trans hone.2.1,hf.trans hone.2.2⟩
    have := hs.trans (hone.1.append_right l)
    rwa [List.append_assoc] at this

theorem bootNode_apart (size : Nat) : ∀ i < 12, ∀ j < 12,
    strEqCi (bootNode size i).name (bootNode size j).name = true → i = j := by
  have hname : ∀ i < 12, (bootNode size i).name = (bootNode 0 i).name := by
    intro i hi
    interval_cases i <;> rfl
  intro i hi j hj
  rw [hname i hi,hname j hj]
  revert i j
  decide

theorem bootNode_plain (size : Nat) : ∀ i < 12,
    stripDevPrefix (bootNode size i).name = (bootNode size i).name := by
  intro i hi
  interval_cases i <;> rfl

variable {proc : Nat → Bool} {controllers size : Nat} {disk : Disk} {io : List Bool}

theorem bootRefs_lt {r : NodeRef} (h : r ∈ bootRefs proc controllers) :
    ∃ i < 12, r = .other i := by
  simp only [bootRefs,List.mem_map,List.mem_append,List.mem_range,List.mem_filter,
    List.mem_range'_1,List.mem_replicate] at h
  obtain ⟨i,(hi | ⟨hi,-⟩) | ⟨-,hi⟩,rfl⟩ := h
  · exact ⟨i,by omega,rfl⟩
  · exact ⟨i,by omega,rfl⟩
  · exact ⟨i,by omega,rfl⟩

theorem bootVolume_names : TableNames (bootVolume proc controllers size disk io) := by
  obtain ⟨hs,ho,-⟩ : (bootVolume proc controllers size disk io).nodes.Sublist
      (bootRefs proc controllers) ∧
      (bootVolume proc controllers size disk io).others = bootNode size ∧
      (bootVolume proc controllers size disk io).files = fun _ => none := foldl_vfsRegister ..
  have hmem : ∀ r ∈ (bootVolume proc controllers size disk io).nodes, ∃ i < 12, r = .other i :=
    fun r hr => bootRefs_lt (hs.mem hr)
  have hnamed : ∀ r a, Named (bootVolume proc controllers size disk io) r a →
      ∃ i < 12, r = .other i ∧ a = (bootNode size i).name := by
    rintro r a ⟨hr,n,hn,rfl⟩
    obtain ⟨i,hi,rfl⟩ := hmem r hr
    simp only [Volume.node,ho,Option.some.injEq] at hn
    exact ⟨i,hi,rfl,by rw [hn]⟩
  refine ⟨fun i => ?_,fun r hr => ?_,fun r r' a a' hr hr' he => ?_,fun r a hr => ?_⟩
  · rw [List.count_eq_zero.mpr]
    · omega
    · intro hi
      obtain ⟨j,-,hj⟩ := hmem _ hi
      simp at hj
  · obtain ⟨i,-,rfl⟩ := hmem r hr
    simp [Volume.node]
  · obtain ⟨i,hi,rfl,rfl⟩ := hnamed r a hr
    obtain ⟨j,hj,rfl,rfl⟩ := hnamed r' a' hr'
    rw [bootNode_apart size i hi j hj he]
  · obtain ⟨i,hi,rfl,rfl⟩ := hnamed r a hr
    exact bootNode_plain size i hi

/-- A mount registers names of the image, or nothing, on top of what was registered before. -/
theorem fat32Init_nodes (hfree : ∀ i, .file i ∉ b.nodes) (hm : fat32Init fuel k b = some v) :
    ∃ w u l, w.nodes = b.nodes ∧ (∀ r ∈ b.nodes, w.node r = b.node r) ∧
      (l = [] ∨ l = b.imageNames fuel) ∧ Registers w l u ∧ v.nodes = u.nodes ∧
      ∀ r, v.node r = u.node r := by
  rcases fat32Init_registers hm with ho | ⟨w,u,hn,ho,-,hreg,rfl⟩
  · obtain ⟨io,rfl⟩ : ∃ io, v = { b with io := io } := ⟨v.io,ho⟩
    exact ⟨b,b,[],rfl,fun _ _ => rfl,Or.inl rfl,.done b,rfl,fun r => by cases r <;> rfl⟩
  · refine ⟨w,u,_,hn,fun r hr => ?_,Or.inr rfl,hreg,rfl,fun r => by cases r <;> rfl⟩
    cases r with
    | other i => simp only [Volume.node,ho]
    | file i => exact absurd hr (hfree i)

theorem NodesSound.mount (h : NodesSound b) (hfree : ∀ i, .file i ∉ b.nodes)
    (hm : fat32Init fuel k b = some v) : NodesSound v := by
  obtain ⟨w,u,l,hn,hnode,-,hreg,hn',hnode'⟩ := fat32Init_nodes hfree hm
  exact (NodesSound.registers hreg (h.congr hn hnode)).congr hn' (fun r _ => hnode' r)

/-- The names after the mount of an image with different names. -/
theorem TableNames.mount (h : TableNames b) (hfree : ∀ i, .file i ∉ b.nodes)
    (hb : ImageNamesOk b) (hm : fat32Init fuel k b = some v) : TableNames v := by
  obtain ⟨w,u,l,hn,hnode,hl,hreg,hn',hnode'⟩ := fat32Init_nodes hfree hm
  have hu : TableNames u := by
    obtain ⟨hd,hnew⟩ := hb fuel
    rcases hl with rfl | rfl
    · exact TableNames.registers hreg (h.congr hn hnode) List.Pairwise.nil (by simp)
    · exact TableNames.registers hreg (h.congr hn hnode) hd (fun a ha =>
        ⟨(hnew a ha).1,fun r a' hr => (hnew a ha).2 r a' ((named_congr hn hnode).mp hr)⟩)
  exact hu.congr hn' (fun r _ => hnode' r)

theorem bootVolume_free (i : Fin 40) :
    .file i ∉ (bootVolume proc controllers size disk io).nodes := by
  intro hi
  obtain ⟨hs,-,-⟩ : (bootVolume proc controllers size disk io).nodes.Sublist
      (bootRefs proc controllers) ∧ _ ∧ _ := foldl_vfsRegister ..
  obtain ⟨j,-,hj⟩ := bootRefs_lt (hs.mem hi)
  simp at hj

/-- Names are unique in every state of a run from the mount of an image with different names, as
long as new nodes' paths have one device prefix at most. -/
theorem names_unique (proc : Nat → Bool) (controllers size : Nat) (disk : Disk) (io : List Bool)
    (hb : ImageNamesOk (bootVolume proc controllers size disk io))
    (h : FsReach CallNamesOk (bootVolume proc controllers size disk io) v) : UniqueNames v := by
  apply TableNames.unique
  induction h with
  | mount hm => exact bootVolume_names.mount bootVolume_free hb hm
  | call c _ hc hrun ih => exact ih.run hc hrun

/-- A sector with the given bytes, zero elsewhere. -/
def sectorOf (l : List (Nat × Byte)) : Sector := fun i => (l.lookup i).getD 0#8

/-- A volume of ten sectors: one FAT in sector 1, the root directory in sector 2. -/
def smallBpb : Sector :=
  sectorOf [(12,2#8),(13,1#8),(14,1#8),(16,1#8),(32,10#8),(36,1#8),(44,2#8)]

/-- The image of a volume with a file in its root directory. -/
def oneFileDisk (name : ShortName) : Disk := fun lba =>
  if lba = 0 then smallBpb
  else if lba = 2 then putSlot (fun _ => 0#8) 0 (dirEntry name 0x20#8 0 0)
  else fun _ => 0#8

def oneFileVolume (name : List Char) : Volume :=
  bootVolume (fun _ => true) 1 0 (oneFileDisk (toShortName (named name))) []

theorem oneFile_imageNames (fuel : Nat) : (oneFileVolume ['A']).imageNames fuel = [] ∨
    (oneFileVolume ['A']).imageNames fuel = [named ['A']] := by
  obtain ⟨g,hg⟩ := Option.isSome_iff_exists.mp
    (by decide : (oneFileVolume ['A']).mounted.isSome = true)
  have hview : (oneFileVolume ['A']).mounted.map
      (fun g => (g.rootCluster,(g.clusterSlots 2).map Prod.snd)) =
      some (2,dirEntry (toShortName (named ['A'])) 0x20#8 0 0::Slot.zero::List.replicate 14 Slot.zero) := by
    decide
  rw [hg,Option.map_some,Option.some.injEq,Prod.mk.injEq] at hview
  obtain ⟨hroot,hslots⟩ := hview
  have hscan : (⟨false,0,0#8,fun _ => 0#8⟩ : LfnScan).scan
      (dirEntry (toShortName (named ['A'])) 0x20#8 0 0) =
      (.entry (named ['A']),⟨false,0,0#8,fun _ => 0#8⟩) := by
    unfold LfnScan.scan
    rw [if_neg (by decide),if_neg (by decide),if_neg (by decide),if_neg (by decide),
      if_neg (by decide)]
    rfl
  have hend : (⟨false,0,0#8,fun _ => 0#8⟩ : LfnScan).scan Slot.zero =
      (.stop,⟨false,0,0#8,fun _ => 0#8⟩) := rfl
  rw [Volume.imageNames,hg]
  dsimp only
  rw [hroot,fat32MaxDepth,listDir]
  cases fuel with
  | zero => exact Or.inl rfl
  | succ fuel =>
    right
    rw [listLoop,if_pos (by decide),hslots,listSlots,hscan]
    dsimp only
    rw [listSlots,hend,if_neg (by decide)]
    rfl

theorem oneFile_namesOk : ImageNamesOk (oneFileVolume ['A']) := by
  intro fuel
  have hnew : ∀ r a', Named (oneFileVolume ['A']) r a' → strEqCi a' (named ['A']) = false := by
    have hall : ∀ r ∈ (oneFileVolume ['A']).nodes,
        ((oneFileVolume ['A']).node r).all (fun n => !strEqCi n.name (named ['A'])) = true := by
      decide
    rintro r a' ⟨hr,n,hn,rfl⟩
    simpa [hn] using hall r hr
  change ((oneFileVolume ['A']).imageNames fuel).Pairwise _ ∧
    ∀ a ∈ (oneFileVolume ['A']).imageNames fuel, _
  rcases oneFile_imageNames fuel with hl | hl
  · rw [hl]
    simp
  · rw [hl]
    refine ⟨List.pairwise_singleton ..,fun a ha => ?_⟩
    rw [List.mem_singleton] at ha
    subst ha
    exact ⟨by decide,hnew⟩

/-- The image with the file A is mounted, then sda/B is created. -/
theorem names_unique_sample : ∃ v, FsReach CallNamesOk (oneFileVolume ['A']) v ∧
    v.vfsFind (named ['A']) = some (.file 0) ∧ v.vfsFind (named ['B']) = some (.file 1) ∧
    UniqueNames v := by
  have hm : ((fat32Init 1 (fun _ => true) (oneFileVolume ['A'])).bind
      (fun v => fat32CreateFile 1 (fun _ => true) (named ['s','d','a','/','B']) v)).map
        (fun r => decide (r.2.vfsFind (named ['A']) = some (.file 0) ∧
          r.2.vfsFind (named ['B']) = some (.file 1))) = some true := by decide
  obtain ⟨⟨st,w⟩,hw,hfind⟩ := Option.map_eq_some_iff.mp hm
  obtain ⟨v,hv,hcreate⟩ := Option.bind_eq_some_iff.mp hw
  have hok : CallNamesOk v (.create (named ['s','d','a','/','B'])) := fun _ _ _ => by decide
  have hrun : FsReach CallNamesOk (oneFileVolume ['A']) w := .call _ (.mount hv) hok hcreate
  obtain ⟨hA,hB⟩ := of_decide_eq_true hfind
  exact ⟨w,hrun,hA,hB,names_unique _ _ _ _ _ oneFile_namesOk hrun⟩

/-- The file NULL of an image hides behind the device of that name. -/
theorem names_not_unique : ∃ v,
    FsReach (fun _ _ => True) (oneFileVolume ['N','U','L','L']) v ∧ ¬UniqueNames v := by
  have hm : (fat32Init 1 (fun _ => true) (oneFileVolume ['N','U','L','L'])).map
      (fun v => (decide (.other 0 ∈ v.nodes),decide (.file 0 ∈ v.nodes),
        (v.others 0).name,(v.files 0).map FsNode.name)) =
      some (true,true,named ['n','u','l','l'],some (named ['N','U','L','L'])) := by decide
  obtain ⟨v,hv,he⟩ := Option.map_eq_some_iff.mp hm
  simp only [Prod.mk.injEq,decide_eq_true_eq,Option.map_eq_some_iff] at he
  obtain ⟨h0,hf,hname0,n,hn,hname⟩ := he
  refine ⟨v,.mount hv,fun hu => ?_⟩
  have := hu.1 (.other 0) (.file 0) _ _ ⟨h0,_,rfl,hname0⟩ ⟨hf,n,hn,hname⟩ (by decide)
  simp at this

end KiNBOL
