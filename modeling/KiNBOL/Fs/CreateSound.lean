import KiNBOL.Fs.WriteSound

namespace KiNBOL

/-! New files and directories in a sound volume. -/

variable {v v' w : Volume} {ex : List Nat} {n m : FsNode} {ctx : FileCtx} {i j : Fin 40} {o o' : Owner}
  {c d dir fuel : Nat} {cs ds new : List Nat} {locs : List Loc} {es : List Slot} {k : Kmalloc}

/-- The clusters of another owner, and those of a directory that slots were written to. -/
theorem Written.apart (h : Consistent v ex) (ho : DirOwner v ex o dir) (hcs : IsChain v dir cs)
    (hw : Written v v' dir cs new locs es) (ho' : startOf v ex o' = some d) (hds : IsChain v d ds)
    (hne : o' ≠ o) : ∀ x ∈ ds, ∀ y ∈ cs++new, ∀ a, InCluster v x a → ¬InCluster v y a := by
  intro x hx y hy a ha hin
  have hx' := Chained.all_ok hds x hx
  rcases List.mem_append.mp hy with hy | hy
  · rw [← InCluster.unique hx'.1 (Chained.all_ok hcs y hy).1 ha hin] at hy
    exact hne (h.apart o' o x ⟨d,ds,ho',hds,hx⟩ ⟨dir,cs,ho.1,hcs,hy⟩)
  · rcases hw.fat with ⟨rfl,-⟩ | ⟨newc,u,rfl,hg,-,-⟩
    · simp at hy
    · rw [List.mem_singleton.mp hy] at hin
      rw [InCluster.unique hx'.1 hg.range.1 ha hin] at hx
      exact hds.used newc hx hg.free

/-- The chain of another owner, and its sectors, after slots were written to a directory. -/
theorem Written.other_owner (h : Consistent v ex) (ho : DirOwner v ex o dir) (hcs : IsChain v dir cs)
    (hw : Written v v' dir cs new locs es) (ho' : startOf v ex o' = some d) (hds : IsChain v d ds)
    (hne : o' ≠ o) :
    IsChain v' d ds ∧ ∀ x ∈ ds, ∀ a, InCluster v x a → v'.disk a = v.disk a := by
  have hdis : ∀ x ∈ ds, x ∉ cs :=
    fun x hx hin => hne (h.apart o' o x ⟨d,ds,ho',hds,hx⟩ ⟨dir,cs,ho.1,hcs,hin⟩)
  refine ⟨hw.keep_chain h (Or.inl ⟨o,ho,hcs⟩) hds hdis,fun x hx a ha => ?_⟩
  exact hw.others a ha.data (fun y hy => hw.apart h ho hcs ho' hds hne x hx y hy a ha)

/-- The places written to are places of the directory. -/
theorem Written.places (h : Consistent v ex) (ho : DirOwner v ex o dir) (hcs : IsChain v dir cs)
    (hw : Written v v' dir cs new locs es) {loc : Loc} (hloc : loc ∈ locs) :
    loc.Aligned ∧ loc ∈ dirLocs v (cs++new) ∧ ∃ y ∈ cs++new, InCluster v y loc.lba := by
  obtain ⟨pre,block,post,-,hnew,-,-⟩ := hw.slots
  have hchain := hw.grow_chain h.layout hcs (h.chain o dir ho.1).1
  have hmem : loc ∈ dirLocs v' (cs++new) := by
    rw [← dirSlots_fst,hnew,List.map_append,List.map_append,List.map_fst_zip (by rw [hw.length])]
    simp [hloc]
  obtain ⟨hal,y,hy,hin⟩ :=
    ((hw.step.layout h.layout).mem_dirLocs (Chained.all_ok hchain)).mp hmem
  rw [hw.step.dirLocs] at hmem
  exact ⟨hal,hmem,y,hy,hw.step.inCluster.mp hin⟩

/-- Slots in use of the directory written to are kept, and none of them was written. -/
theorem Written.slot_kept (h : Consistent v ex) (ho : DirOwner v ex o dir) (hcs : IsChain v dir cs)
    (hw : Written v v' dir cs new locs es) {loc : Loc} (hloc : loc ∈ dirLocs v cs)
    (hlive : (dirSlotAt v loc).isFree = false) :
    dirSlotAt v' loc = dirSlotAt v loc ∧ loc ∉ locs := by
  obtain ⟨pre,block,post,hold,hnew,hfree,hfst⟩ := hw.slots
  have hr := h.chain o dir ho.1
  have hchain := hw.grow_chain h.layout hcs hr.1
  have hl' := hw.step.layout h.layout
  have hmem : (loc,dirSlotAt v loc) ∈ pre++block++post := by
    rw [← hold,dirSlots_eq]
    exact List.mem_append_left _ (List.mem_map_of_mem hloc)
  have hnot : (loc,dirSlotAt v loc) ∉ block := by
    intro hin
    have := hfree _ hin
    rw [hlive] at this
    simp at this
  have hput : (loc,dirSlotAt v loc) ∈ v'.dirSlots (cs++new) := by
    rw [hnew]
    rcases List.mem_append.mp hmem with hmem | hmem
    · rcases List.mem_append.mp hmem with hmem | hmem
      · exact List.mem_append_left _ (List.mem_append_left _ hmem)
      · exact absurd hmem hnot
    · exact List.mem_append_right _ hmem
  refine ⟨dirSlots_snd _ hput,fun hin => ?_⟩
  have hnd := hl'.dirLocs_nodup (Chained.all_ok hchain) (hchain.nodup hl')
  rw [← dirSlots_fst,hnew,List.map_append,List.map_append,
    List.map_fst_zip (by rw [hw.length])] at hnd
  obtain ⟨h12,-,h123⟩ := List.nodup_append.mp hnd
  obtain ⟨-,-,h12⟩ := List.nodup_append.mp h12
  rcases List.mem_append.mp hmem with hmem | hmem
  · rcases List.mem_append.mp hmem with hmem | hmem
    · exact h12 loc (List.mem_map_of_mem (f := Prod.fst) hmem) loc hin rfl
    · exact hnot hmem
  · exact h123 loc (List.mem_append_right _ hin) loc (List.mem_map_of_mem (f := Prod.fst) hmem) rfl

/-- A node's slot is in use. -/
theorem EntryOk.not_free (h : EntryOk v ex n ctx) : (dirSlotAt v ctx.loc).isFree = false := by
  obtain ⟨h1,h2⟩ := h.shown
  rw [Slot.isFree,h1]
  simp only [Slot.counted,Bool.and_eq_true,Bool.not_eq_true'] at h2
  simpa using h2.1.1.1

section

variable (h : Sound v ex) (ho : DirOwner v ex o dir) (hcs : IsChain v dir cs)
  (hw : Written v v' dir cs new locs es)

include h ho hcs hw

theorem Sound.written_follows : ChainsExtend v v' ex := by
  have hl := h.consistent.layout
  refine hw.step.follows (fun o' d ds ho' hds => ?_)
  by_cases heq : o' = o
  · subst heq
    obtain rfl := Option.some.inj (ho.1.symm.trans ho')
    rw [hds.unique hl hcs]
    exact ⟨new,hw.grow_chain hl hcs (h.consistent.chain o' dir ho.1).1⟩
  · exact ⟨[],by rw [List.append_nil]; exact (hw.other_owner h.consistent ho hcs ho' hds heq).1⟩

/-- No entry of a node is written over. -/
theorem Sound.written_slot (hi : v.files i = some n) (hn : n.device = some ctx) :
    dirSlotAt v' ctx.loc = dirSlotAt v ctx.loc ∧ ctx.loc ∉ locs := by
  obtain ⟨ctx₁,hctx,he⟩ := h.entry i n hi
  obtain rfl := Option.some.inj (hn.symm.trans hctx)
  obtain ⟨o',d,ds,hdir,hds,hloc⟩ := he.home
  by_cases heq : o' = o
  · subst heq
    obtain rfl := Option.some.inj (ho.1.symm.trans hdir.1)
    rw [hds.unique h.consistent.layout hcs] at hloc
    exact hw.slot_kept h.consistent ho hcs hloc he.not_free
  · refine ⟨KiNBOL.slot_kept h.consistent.layout hds
      (hw.other_owner h.consistent ho hcs hdir.1 hds heq).2 _ hloc,fun hin => ?_⟩
    obtain ⟨-,x,hx,hxin⟩ := (h.consistent.layout.mem_dirLocs (Chained.all_ok hds)).mp hloc
    obtain ⟨-,-,y,hy,hyin⟩ := hw.places h.consistent ho hcs hin
    exact hw.apart h.consistent ho hcs hdir.1 hds heq x hx y hy _ hxin hyin

/-- A directory whose end marks stay at its end. -/
theorem Sound.written (htail : EndTail (v'.dirSlots (cs++new))) :
    Sound v' ex ∧ storeOf v' = storeOf v := by
  have hf := h.written_follows ho hcs hw
  have hl := h.consistent.layout
  refine ⟨⟨hw.consistent h.consistent (Or.inl ⟨o,ho,hcs⟩),hw.step.io.trans h.quiet,fun i n hi => ?_,
    fun i j ctx ctx' hi hj => ?_,fun o' d ds hdir hds => ?_⟩,?_⟩
  · rw [hw.step.files] at hi
    obtain ⟨ctx,hn,he⟩ := h.entry i n hi
    exact ⟨ctx,hn,he.carry hf hi hn (h.written_slot ho hcs hw hi hn).1⟩
  · rw [fileCtx,hw.step.files] at hi hj
    exact h.apart i j ctx ctx' hi hj
  · rw [hw.step.dirOwner] at hdir
    obtain ⟨hr,es',hes⟩ := h.consistent.chain o' d hdir.1
    by_cases heq : o' = o
    · subst heq
      obtain rfl := Option.some.inj (ho.1.symm.trans hdir.1)
      rw [hds.unique (hw.step.layout hl) (hw.grow_chain hl hcs hr)]
      exact htail
    · obtain ⟨hch,hdisk⟩ := hw.other_owner h.consistent ho hcs hdir.1 hes heq
      rw [hds.unique (hw.step.layout hl) hch,dirSlots_congr hw.step (KiNBOL.slot_kept hl hes hdisk)]
      exact h.tails o' d es' hdir hes
  · funext i
    refine h.store_keep hw.step.places (by rw [hw.step.files]) (fun n c ds hi hd ho' hds => ?_)
    obtain ⟨h1,h2⟩ := hw.other_owner h.consistent ho hcs ho' hds (ho.ne_file hi hd).symm
    exact ⟨⟨[],by rw [List.append_nil]; exact h1⟩,h2⟩

end

/-- What a short name may begin with. -/
def FirstOf (leaf : CName) (c : Byte) : Prop :=
  c = ch ' ' ∨ c = ch '~' ∨ ∃ d ∈ leaf, d ≠ ch '.' ∧ c = toUpperC d

theorem padded_head {leaf : CName} {l : List Byte} (hl : ∀ c ∈ l.head?, FirstOf leaf c) :
    FirstOf leaf ((padded 8 l).getD 0 0#8) := by
  cases l with
  | nil => exact Or.inl rfl
  | cons c l => simpa [padded] using hl c rfl

theorem shortCandidate_head (leaf : CName) (n : Nat) :
    FirstOf leaf ((shortCandidate leaf n).name8.getD 0 0#8) := by
  have hupper : ∀ l : List Byte, (∀ d ∈ l, d ∈ leaf ∧ d ≠ ch '.') →
      ∀ c ∈ l.map toUpperC, FirstOf leaf c := by
    intro l hl c hc
    obtain ⟨d,hd,rfl⟩ := List.mem_map.mp hc
    exact Or.inr (Or.inr ⟨d,(hl d hd).1,(hl d hd).2,rfl⟩)
  have hbase : ∀ d ∈ leaf.takeWhile (· ≠ ch '.'), d ∈ leaf ∧ d ≠ ch '.' :=
    fun d hd => ⟨(List.takeWhile_sublist _).mem hd,by simpa using List.all_eq_true.mp List.all_takeWhile d hd⟩
  rw [shortCandidate]
  split_ifs with hn
  · exact padded_head (fun c hc => hupper _ (fun d hd => hbase d (List.mem_of_mem_take hd)) c
      (List.mem_of_mem_head? hc))
  · apply padded_head
    intro c hc
    have hmem := List.mem_of_mem_head? hc
    cases hk : (baseUpper leaf 63).take
        (min (max (8-1-(intToDec n).length) 1) (baseUpper leaf 63).length) with
    | nil =>
      rw [hk,List.nil_append,List.head?_cons,Option.mem_some_iff] at hc
      exact Or.inr (Or.inl hc.symm)
    | cons d base =>
      rw [hk,List.cons_append,List.head?_cons,Option.mem_some_iff] at hc
      have hd : d ∈ baseUpper leaf 63 := List.mem_of_mem_take (hk ▸ List.mem_cons_self)
      rw [← hc]
      exact hupper _ (fun e he => hbase e (List.mem_of_mem_filter (List.mem_of_mem_take he))) d hd

/-- A name as the callers pass it; 0xE5 marks deleted slots. -/
def PlainName (leaf : CName) : Prop := 0#8 ∉ leaf ∧ 0xE5#8 ∉ leaf

theorem toUpperC_special : ∀ c : Byte, c ≠ 0#8 → c ≠ 0xE5#8 → c ≠ ch '.' →
    toUpperC c ≠ 0#8 ∧ toUpperC c ≠ 0xE5#8 ∧ toUpperC c ≠ ch '.' := by decide

/-- The entry of a new node is one that the readers see. -/
theorem dirEntry_shown {leaf : CName} (hp : PlainName leaf) {s : ShortName} {attr : Byte}
    (hs : FirstOf leaf (s.name8.getD 0 0#8)) (ha : attr = 0x20#8 ∨ attr = 0x10#8)
    (cluster size : Nat) : (dirEntry s attr cluster size).isEnd = false ∧
      (dirEntry s attr cluster size).counted = true := by
  have hfirst : s.name8.getD 0 0#8 ≠ 0#8 ∧ s.name8.getD 0 0#8 ≠ 0xE5#8 ∧
      s.name8.getD 0 0#8 ≠ ch '.' := by
    rcases hs with h | h | ⟨d,hd,hdot,h⟩
    · rw [h]
      decide
    · rw [h]
      decide
    · rw [h]
      exact toUpperC_special d (fun he => hp.1 (he ▸ hd)) (fun he => hp.2 (he ▸ hd)) hdot
  rw [← first_dirEntry s attr cluster size] at hfirst
  obtain ⟨h0,h1,h2⟩ := hfirst
  refine ⟨decide_eq_false h0,?_⟩
  simp only [Slot.counted,Slot.isDeleted,Slot.isLfn,attr_dirEntry,decide_eq_false h1,
    decide_eq_true h2]
  rcases ha with rfl | rfl <;> simp

theorem dirEntry_cluster (s : ShortName) (attr : Byte) {cluster : Nat} (h : cluster < 2^32)
    (size : Nat) : (dirEntry s attr cluster size).cluster = cluster := by
  have h20 : dirEntry s attr cluster size 20 = byteOf cluster 2 := rfl
  have h21 : dirEntry s attr cluster size 21 = byteOf cluster 3 := rfl
  have h26 : dirEntry s attr cluster size 26 = byteOf cluster 0 := rfl
  have h27 : dirEntry s attr cluster size 27 = byteOf cluster 1 := rfl
  simp only [Slot.cluster,le16,h20,h21,h26,h27,byteOf_toNat]
  omega

theorem dirEntry_size (s : ShortName) (attr : Byte) (cluster : Nat) :
    (dirEntry s attr cluster 0).size = 0 := rfl

theorem chosenShort_candidate (k : Kmalloc) (v : Volume) (cs : List Nat) (leaf : CName) :
    ∃ n, chosenShort k v cs leaf = shortCandidate leaf n := by
  rw [chosenShort]
  split_ifs
  · split
    · exact ⟨_,rfl⟩
    · exact ⟨0,rfl⟩
  · exact ⟨0,rfl⟩

theorem withNode_files (v : Volume) (i j : Fin 40) (n : FsNode) :
    (v.withNode i n).files j = if j = i then some n else v.files j := rfl

/-- A node put into an unused slot, with an entry of its own. -/
theorem Sound.withNode (h : Sound v ex) (hi : v.files i = none) (hn : n.device = some ctx)
    (hcons : Consistent (v.withNode i n) ex) (hok : EntryOk (v.withNode i n) ex n ctx)
    (hnew : ∀ j ctx', fileCtx v j = some ctx' → ctx'.loc ≠ ctx.loc)
    (htail : n.isDir = true → ∀ cs, IsChain v ctx.startCluster cs → EndTail (v.dirSlots cs)) :
    Sound (v.withNode i n) ex ∧
      storeOf (v.withNode i n) = Function.update (storeOf v) i (some (n.shown v)) := by
  have ht := TableStep.withNode v i n
  have howner : ∀ o, o ≠ .file i → startOf (v.withNode i n) ex o = startOf v ex o := by
    intro o hne
    cases o with
    | root => rfl
    | extra j => rfl
    | file j =>
      rw [startOf,startOf,fileCtx_withNode,if_neg (fun he => hne (by rw [he]))]
  have hunused : startOf v ex (.file i) = none := by
    rw [startOf,fileCtx,hi]
    rfl
  have hf : ChainsExtend v (v.withNode i n) ex := by
    refine ⟨ht.places,fun o c ho => ?_,fun o c cs ho hcs => ⟨[],?_⟩⟩
    · have hne : o ≠ .file i := by
        rintro rfl
        rw [DirOwner,hunused] at ho
        simp at ho
      refine ⟨by rw [howner o hne]; exact ho.1,fun j hj => ?_⟩
      obtain ⟨m,hm,hflag⟩ := ho.2 j hj
      refine ⟨m,?_,hflag⟩
      rw [withNode_files,if_neg (fun he => hne (by rw [hj,he]))]
      exact hm
    · rw [List.append_nil]
      exact ht.isChain.mpr hcs
  refine ⟨⟨hcons,h.quiet,fun j m hj => ?_,fun j j' ctx₁ ctx₂ hj hj' heq => ?_,
    fun o c ds ho hds => ?_⟩,?_⟩
  · rw [withNode_files] at hj
    split_ifs at hj with hji
    · obtain rfl := Option.some.inj hj
      exact ⟨ctx,hn,hok⟩
    · obtain ⟨ctx',hm,he⟩ := h.entry j m hj
      exact ⟨ctx',hm,he.carry hf hj hm rfl⟩
  · rw [fileCtx_withNode] at hj hj'
    split_ifs at hj hj' with h1 h2 h2
    · rw [h1,h2]
    · obtain rfl := Option.some.inj (hn.symm.trans hj)
      exact absurd heq.symm (hnew j' ctx₂ hj')
    · obtain rfl := Option.some.inj (hn.symm.trans hj')
      exact absurd heq (hnew j ctx₁ hj)
    · exact h.apart j j' ctx₁ ctx₂ hj hj' heq
  · rw [ht.dirSlots]
    by_cases heq : o = .file i
    · obtain ⟨m,hm,hflag⟩ := ho.2 i heq
      rw [withNode_files,if_pos rfl] at hm
      obtain rfl := Option.some.inj hm
      have hs := ho.1
      rw [heq,startOf,fileCtx_withNode,if_pos rfl,hn,Option.bind_some] at hs
      split_ifs at hs with h0
      obtain rfl := Option.some.inj hs
      exact htail (by simpa [FsNode.isDir] using hflag) ds (ht.isChain.mp hds)
    · refine h.tails o c ds ⟨by rw [← howner o heq]; exact ho.1,fun j hj => ?_⟩ (ht.isChain.mp hds)
      obtain ⟨m,hm,hflag⟩ := ho.2 j hj
      rw [withNode_files,if_neg (fun he => heq (by rw [hj,he]))] at hm
      exact ⟨m,hm,hflag⟩
  · funext j
    by_cases hji : j = i
    · rw [hji,Function.update_self,storeOf,withNode_files,if_pos rfl,Option.map_some]
      rfl
    · rw [Function.update_of_ne hji,storeOf,withNode_files,if_neg hji]
      rfl

theorem stripPrefix_subset (p path : CName) : stripPrefix p path ⊆ path := by
  rw [stripPrefix]
  split_ifs
  · exact List.drop_subset ..
  · exact List.Subset.refl _

theorem PlainName.of_subset {path leaf : CName} (h : PlainName path) (hs : leaf ⊆ path) :
    PlainName leaf := ⟨fun hin => h.1 (hs hin),fun hin => h.2 (hs hin)⟩

theorem PlainName.strip {path : CName} (h : PlainName path) : PlainName (stripDevPrefix path) :=
  h.of_subset (List.Subset.trans (stripPrefix_subset ..) (stripPrefix_subset ..))

theorem resolveParent_leaf {path : CName} {p : Parent} (h : resolveParent v path = some p) :
    p.leaf ⊆ path := by
  rw [resolveParent] at h
  split at h
  next =>
    obtain rfl := Option.some.inj h
    exact List.Subset.refl _
  next slash _ =>
    dsimp only at h
    split at h
    · simp at h
    · split_ifs at h
      obtain ⟨ctx,-,rfl⟩ := Option.map_eq_some_iff.mp h
      exact List.drop_subset ..

/-- A parent that is found is a directory with a chain. -/
theorem Sound.parent_ne_zero (h : Sound v ex) {path : CName} {p : Parent}
    (hp : resolveParent v path = some p) : p.dirCluster ≠ 0 := by
  rw [resolveParent] at hp
  split at hp
  next =>
    obtain rfl := Option.some.inj hp
    have := (h.consistent.chain .root _ rfl).1.1
    change v.rootCluster ≠ 0
    omega
  next slash _ =>
    dsimp only at hp
    split at hp
    · simp at hp
    · next f hfind =>
      split_ifs at hp with hflag
      obtain ⟨ctx,hctx,rfl⟩ := Option.map_eq_some_iff.mp hp
      obtain ⟨r,-,hr⟩ := Option.bind_eq_some_iff.mp hfind
      cases r with
      | other i =>
        have hnone := h.consistent.others i
        simp only [Volume.node,Option.some.injEq] at hr
        rw [hr,hctx] at hnone
        simp at hnone
      | file i =>
        obtain ⟨ctx',hn,he⟩ := h.entry i f hr
        obtain rfl := Option.some.inj (hctx.symm.trans hn)
        exact he.dir (by simpa [FsNode.isDir] using hflag)

theorem Sound.dirOwner (h : Sound v ex) {path : CName} {p : Parent}
    (hp : resolveParent v path = some p) (hd : DirOf v ex p.dirCluster cs) :
    ∃ o, DirOwner v ex o p.dirCluster ∧ IsChain v p.dirCluster cs := by
  rcases hd with hd | ⟨h0,-⟩
  · exact hd
  · exact absurd h0 (h.parent_ne_zero hp)

/-- A new node with this name, empty; the name is the path as it was given, or has no slash. -/
def StoreMade (s : Fin 40 → Option StoreFile) (path : CName) (isDir : Bool)
    (s' : Fin 40 → Option StoreFile) : Prop :=
  ∃ i name, s i = none ∧ (name = (stripDevPrefix path).take (vfsNameMax-1) ∨ ch '/' ∉ name) ∧
    s' = Function.update s i (some ⟨name,isDir,[]⟩)

/-- The entry of a new node, once it is written. -/
structure NewEntry (v : Volume) (ex : List Nat) (o : Owner) (dir : Nat) (cs : List Nat) (loc : Loc)
    (e : Slot) : Prop where
  sound : Sound v ex
  owner : DirOwner v ex o dir
  chain : IsChain v dir cs
  mem : loc ∈ dirLocs v cs
  slot : dirSlotAt v loc = e
  fresh : ∀ j ctx, fileCtx v j = some ctx → ctx.loc ≠ loc

theorem newSlots_last (leaf : CName) (s : ShortName) (attr : Byte) (cluster : Nat) :
    ∃ front, newSlots leaf s attr cluster = front++[dirEntry s attr cluster 0] := by
  rw [newSlots]
  split_ifs
  · exact ⟨_,rfl⟩
  · exact ⟨[],rfl⟩

theorem Written.last_slot {front : List Slot} {e : Slot} {loc : Loc}
    (hw : Written v v' dir cs new locs (front++[e])) (hlast : locs.getLast? = some loc) :
    dirSlotAt v' loc = e := by
  obtain ⟨pre,block,post,-,hnew,-,-⟩ := hw.slots
  obtain ⟨ls,rfl⟩ := List.getLast?_eq_some_iff.mp hlast
  have hlen := hw.length
  rw [List.length_append,List.length_append,List.length_singleton,List.length_singleton] at hlen
  have hmem : (loc,e) ∈ v'.dirSlots (cs++new) := by
    rw [hnew,List.zip_append (by omega)]
    simp
  exact dirSlots_snd _ hmem

/-- What writing the slots of a new entry leaves. -/
theorem Sound.newEntry (h : Sound v ex) (ho : DirOwner v ex o dir) (hcs : IsChain v dir cs)
    {leaf : CName} (hp : PlainName leaf) (hf : cs.length+2 ≤ fuel) {s : ShortName} {nth : Nat}
    (hs : s = shortCandidate leaf nth) {attr : Byte} {cluster : Nat} {loc : Loc}
    (hw : Written v w dir cs new locs (newSlots leaf s attr cluster))
    (hlast : locs.getLast? = some loc)
    (hrun : writeEntry fuel k dir leaf s attr cluster 0 v = some (some loc,w)) :
    NewEntry w ex o dir (cs++new) loc (dirEntry s attr cluster 0) ∧ storeOf w = storeOf v := by
  subst hs
  have hl := h.consistent.layout
  have hr := (h.consistent.chain o dir ho.1).1
  obtain ⟨new',hchain,htail,-⟩ := writeEntry_seen hl h.quiet hr hcs (h.tails o dir cs ho hcs) hf hp.1
    nth attr cluster hrun
  have hgrow := hw.grow_chain hl hcs hr
  rw [hchain.unique (hw.step.layout hl) hgrow] at htail
  obtain ⟨hsound,hstore⟩ := h.written ho hcs hw htail
  refine ⟨⟨hsound,hw.step.dirOwner.mpr ho,hgrow,?_,?_,fun j ctx hj hloc => ?_⟩,hstore⟩
  · have hmem := (hw.places h.consistent ho hcs (List.mem_of_getLast? hlast)).2.1
    rwa [hw.step.dirLocs]
  · obtain ⟨front,hfront⟩ := newSlots_last leaf (shortCandidate leaf nth) attr cluster
    rw [hfront] at hw
    exact hw.last_slot hlast
  · rw [fileCtx,hw.step.files] at hj
    obtain ⟨n,hn,hctx⟩ := Option.bind_eq_some_iff.mp hj
    have hout := (h.written_slot ho hcs hw hn hctx).2
    rw [hloc] at hout
    exact hout (List.mem_of_getLast? hlast)

theorem NewEntry.located {loc : Loc} {e : Slot} (h : NewEntry v ex o dir cs loc e) :
    ∃ c, InRange v c ∧ loc ∈ v.slotLocs c := by
  have hmem := h.mem
  rw [dirLocs,List.mem_flatMap] at hmem
  obtain ⟨c,hc,hloc⟩ := hmem
  exact ⟨c,Chained.all_ok h.chain c hc,hloc⟩

/-- A new entry registered. -/
theorem NewEntry.register {loc : Loc} {e : Slot} (h : NewEntry v ex o dir cs loc e)
    (hi : v.files i = none) (hn : n.device = some ctx) (hloc : ctx.loc = loc)
    (hcons : Consistent (v.withNode i n) ex) (hshown : e.isEnd = false ∧ e.counted = true)
    (hcl : e.cluster = ctx.startCluster) (hdir : n.isDir = true → ctx.startCluster ≠ 0)
    (hfile : n.isDir = false → e.size = n.size ∧ n.size = 0)
    (htail : n.isDir = true → ∀ cs, IsChain v ctx.startCluster cs → EndTail (v.dirSlots cs)) :
    Sound (v.withNode i n) ex ∧
      storeOf (v.withNode i n) = Function.update (storeOf v) i (some (n.shown v)) := by
  have ht := TableStep.withNode v i n
  subst hloc
  have hne : ∀ j, o = .file j → j ≠ i := by
    rintro j rfl rfl
    obtain ⟨m,hm,-⟩ := h.owner.2 j rfl
    rw [hi] at hm
    simp at hm
  refine h.sound.withNode hi hn hcons ⟨⟨o,dir,cs,⟨?_,fun j hj => ?_⟩,ht.isChain.mpr h.chain,?_⟩,?_,?_,
    hdir,fun hd => ?_⟩ h.fresh htail
  · have ho := h.owner.1
    cases o with
    | root => exact ho
    | extra j => exact ho
    | file j =>
      rw [startOf,fileCtx_withNode,if_neg (hne j rfl)]
      exact ho
  · obtain ⟨m,hm,hflag⟩ := h.owner.2 j hj
    refine ⟨m,?_,hflag⟩
    rw [withNode_files,if_neg (hne j hj)]
    exact hm
  · rw [ht.places.dirLocs]
    exact h.mem
  · change (dirSlotAt v ctx.loc).isEnd = false ∧ (dirSlotAt v ctx.loc).counted = true
    rw [h.slot]
    exact hshown
  · change (dirSlotAt v ctx.loc).cluster = _
    rw [h.slot]
    exact hcl
  · obtain ⟨h1,h2⟩ := hfile hd
    refine ⟨?_,Or.inl h2⟩
    change (dirSlotAt v ctx.loc).size = _
    rw [h.slot]
    exact h1

/-- `fat32_create_file` on a sound volume: a new empty file, or the files are as before. -/
theorem fat32CreateFile_sound (h : Sound v ex) (hf : v.totalClusters+2 ≤ fuel) (k : Kmalloc)
    {path : CName} (hp : PlainName path) : ∃ st v',
      fat32CreateFile fuel k path v = some (st,v') ∧ Sound v' ex ∧
      v'.totalClusters = v.totalClusters ∧
      (st = .ok → StoreMade (storeOf v) path false (storeOf v')) ∧
      (st ≠ .ok → storeOf v' = storeOf v) := by
  rcases fat32CreateFile_cases h.quiet h.consistent hf k path with ⟨-,st,hst,hrun⟩ |
    ⟨p,cs,hready,hd,⟨-,hrun⟩ | ⟨-,locs,new,w,loc,hw,hlast,hwrite,hrun⟩⟩
  · exact ⟨st,v,hrun,h,rfl,fun hok => absurd hok hst,fun _ => rfl⟩
  · exact ⟨.errDisk,v,hrun,h,rfl,fun hok => by simp at hok,fun _ => rfl⟩
  have hparent := hready.2.2.1
  obtain ⟨o,ho,hcs⟩ := h.dirOwner hparent hd
  have hleaf : PlainName p.leaf := hp.strip.of_subset (resolveParent_leaf hparent)
  obtain ⟨nth,hnth⟩ := chosenShort_candidate k v cs p.leaf
  obtain ⟨hnew,hstore⟩ := h.newEntry ho hcs hleaf (h.consistent.fuel_le hd hf) hnth hw hlast hwrite
  have hfirst : FirstOf p.leaf ((chosenShort k v cs p.leaf).name8.getD 0 0#8) := by
    rw [hnth]
    exact shortCandidate_head p.leaf nth
  rw [hrun,registerNew]
  split_ifs with hk
  · exact ⟨.errDisk,w,rfl,hnew.sound,hw.step.total,fun hok => by simp at hok,fun _ => hstore⟩
  · rcases addNode_cases w ⟨joinFullName p.name p.leaf,vfsFile,0,some ⟨0,loc.lba,loc.offset⟩⟩ with
      ⟨hno,-⟩ | ⟨i,hi,hadd⟩
    · rw [hno]
      exact ⟨.errDisk,w,rfl,hnew.sound,hw.step.total,fun hok => by simp at hok,fun _ => hstore⟩
    · rw [hadd]
      have hfile : (⟨joinFullName p.name p.leaf,vfsFile,0,some ⟨0,loc.lba,loc.offset⟩⟩ :
          FsNode).isDir = false := by simp [FsNode.isDir,vfsFile,vfsDirectory]
      have hcons := hnew.sound.consistent.addFile (i := i)
        (n := ⟨joinFullName p.name p.leaf,vfsFile,0,some ⟨0,loc.lba,loc.offset⟩⟩) rfl rfl
        hnew.located
      obtain ⟨hsound,hupdate⟩ := hnew.register hi rfl rfl hcons
        (dirEntry_shown hleaf hfirst (Or.inl rfl) 0 0) (dirEntry_cluster _ _ (by omega) 0)
        (fun hd => by rw [hfile] at hd; simp at hd) (fun _ => ⟨rfl,rfl⟩)
        (fun hd => by rw [hfile] at hd; simp at hd)
      refine ⟨.ok,_,rfl,hsound,hw.step.total,fun _ => ⟨i,_,?_,joinFullName_path hparent,?_⟩,
        fun hok => absurd rfl hok⟩
      · rw [← hstore,storeOf,hi]
        rfl
      · rw [hupdate,hstore,FsNode.shown,hfile]
        rfl

/-- A step that leaves the chains of the owners alone, what is in the clusters of files, the entries
of the nodes, and the end marks. -/
theorem Sound.slots_step (h : Sound v ex) (hs : DiskStep v v')
    (hfat : ∀ o x, Owns v ex o x → fatAt v' x = fatAt v x)
    (hfile : ∀ i n x, v.files i = some n → n.isDir = false → Owns v ex (.file i) x →
      ∀ a, InCluster v x a → v'.disk a = v.disk a)
    (hentry : ∀ i ctx, fileCtx v i = some ctx → dirSlotAt v' ctx.loc = dirSlotAt v ctx.loc)
    (hends : ∀ o dir cs loc, DirOwner v ex o dir → IsChain v dir cs → loc ∈ dirLocs v cs →
      (dirSlotAt v' loc).isEnd = (dirSlotAt v loc).isEnd) :
    Sound v' ex ∧ storeOf v' = storeOf v := by
  have hl := h.consistent.layout
  have hchain : ∀ o c cs, startOf v ex o = some c → IsChain v c cs → IsChain v' c cs :=
    fun o c cs ho hcs => hcs.keep hs (fun x hx => hfat o x ⟨c,cs,ho,hcs,hx⟩)
  have hf : ChainsExtend v v' ex := hs.follows (fun o c cs ho hcs =>
    ⟨[],by rw [List.append_nil]; exact hchain o c cs ho hcs⟩)
  refine ⟨⟨h.consistent.keep hs hfat,hs.io.trans h.quiet,fun i n hi => ?_,fun i j ctx ctx' hi hj => ?_,
    fun o c ds hdir hds => ?_⟩,?_⟩
  · rw [hs.files] at hi
    obtain ⟨ctx,hn,he⟩ := h.entry i n hi
    exact ⟨ctx,hn,he.carry hf hi hn (hentry i ctx (by rw [fileCtx_eq hi,hn]))⟩
  · rw [fileCtx,hs.files] at hi hj
    exact h.apart i j ctx ctx' hi hj
  · rw [hs.dirOwner] at hdir
    obtain ⟨-,es,hes⟩ := h.consistent.chain o c hdir.1
    rw [hds.unique (hs.layout hl) (hchain o c es hdir.1 hes)]
    exact (h.tails o c es hdir hes).congr (hs.dirLocs es)
      (fun loc hloc => hends o c es loc hdir hes hloc)
  · funext i
    exact h.store_keep hs.places (by rw [hs.files]) (fun n c cs hi hd ho hcs =>
      ⟨⟨[],by rw [List.append_nil]; exact hchain _ c cs ho hcs⟩,
        fun x hx => hfile i n x hi hd ⟨c,cs,ho,hcs,hx⟩⟩)

/-- A step that leaves the chains of the owners alone and what is in their clusters. -/
theorem Sound.elsewhere (h : Sound v ex) (hs : DiskStep v v')
    (hfat : ∀ o x, Owns v ex o x → fatAt v' x = fatAt v x)
    (hdisk : ∀ o x, Owns v ex o x → ∀ a, InCluster v x a → v'.disk a = v.disk a) :
    Sound v' ex ∧ storeOf v' = storeOf v ∧
      ∀ o c cs, startOf v ex o = some c → IsChain v c cs → IsChain v' c cs := by
  have hslot : ∀ o c cs, startOf v ex o = some c → IsChain v c cs →
      ∀ loc ∈ dirLocs v cs, dirSlotAt v' loc = dirSlotAt v loc :=
    fun o c cs ho hcs => slot_kept h.consistent.layout hcs
      (fun x hx => hdisk o x ⟨c,cs,ho,hcs,hx⟩)
  obtain ⟨h1,h2⟩ := h.slots_step hs hfat (fun i n x _ _ hx => hdisk _ x hx) (fun i ctx hi => by
    obtain ⟨n,hn,hctx⟩ := Option.bind_eq_some_iff.mp hi
    obtain ⟨ctx',hctx',he⟩ := h.entry i n hn
    obtain rfl := Option.some.inj (hctx.symm.trans hctx')
    obtain ⟨o,dir,cs,ho,hcs,hloc⟩ := he.home
    exact hslot o dir cs ho.1 hcs _ hloc)
    (fun o dir cs loc ho hcs hloc => by rw [hslot o dir cs ho.1 hcs loc hloc])
  exact ⟨h1,h2,fun o c cs ho hcs => hcs.keep hs (fun x hx => hfat o x ⟨c,cs,ho,hcs,hx⟩)⟩

/-- A cluster was taken that is nobody's yet. -/
theorem Fresh.sound {newc : Nat} (hf : Fresh v v' newc) (h : Sound v ex) :
    Sound v' ex ∧ storeOf v' = storeOf v ∧ DirOwner v' ex = DirOwner v ex := by
  have hfat : ∀ o x, Owns v ex o x → fatAt v' x = fatAt v x := by
    intro o x hx
    have hne : x ≠ newc := fun he => hx.used (he ▸ hf.free)
    rw [hf.fat x hx.inRange.2,if_neg hne]
  obtain ⟨h1,h2,-⟩ := h.elsewhere hf.step hfat (fun o x _ a ha => hf.disk a ha.data)
  refine ⟨h1,h2,?_⟩
  funext o c
  exact propext hf.step.dirOwner

/-- Writing the entry of a new node: there is no place for it, or it is there. -/
theorem Sound.writeEntry (h : Sound v ex) (ho : DirOwner v ex o dir) (hcs : IsChain v dir cs)
    {leaf : CName} (hp : PlainName leaf) (hf : v.totalClusters+2 ≤ fuel) {s : ShortName} {nth : Nat}
    (hs : s = shortCandidate leaf nth) (k : Kmalloc) (attr : Byte) (cluster : Nat) :
    KiNBOL.writeEntry fuel k dir leaf s attr cluster 0 v = some (none,v) ∨
    ∃ locs new w loc, KiNBOL.writeEntry fuel k dir leaf s attr cluster 0 v = some (some loc,w) ∧
      Written v w dir cs new locs (newSlots leaf s attr cluster) ∧
      NewEntry w ex o dir (cs++new) loc (dirEntry s attr cluster 0) ∧ storeOf w = storeOf v := by
  have hd : DirOf v ex dir cs := Or.inl ⟨o,ho,hcs⟩
  rcases writeEntry_cases h.quiet h.consistent hd hf k leaf s attr cluster with ⟨-,hno⟩ |
    ⟨-,locs,new,w,loc,hw,hlast,hrun⟩
  · exact Or.inl hno
  · exact Or.inr ⟨locs,new,w,loc,hrun,hw,
      h.newEntry ho hcs hp (h.consistent.fuel_le hd hf) hs hw hlast hrun⟩

end KiNBOL
