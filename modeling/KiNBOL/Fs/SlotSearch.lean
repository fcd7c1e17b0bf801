import KiNBOL.Fs.DirReaders
import KiNBOL.Fs.Lfn

namespace KiNBOL

/-- A search for this many slots has returned these places; for one slot also
`find_free_dir_slot`. -/
def Searched (fuel : Nat) (k : Kmalloc) (dir needed : Nat) (v : Volume) (locs : List Loc)
    (w : Volume) : Prop :=
  findFreeDirSlots fuel k dir needed v = some (some locs,w) ∨
  needed = 1 ∧ ∃ loc, locs = [loc] ∧ findFreeDirSlot fuel k dir v = some (some loc,w)

/-- What a search has found in a directory that then has the clusters `cs++new`: a block of free
slots, one behind the other, with no end mark before it, and no entry is lost. -/
structure SlotsFound (v w : Volume) (dir : Nat) (cs new : List Nat) (locs : List Loc)
    (pre block post : List (Loc × Slot)) : Prop where
  chain : IsChain w dir (cs++new)
  slots : w.dirSlots (cs++new) = pre++block++post
  places : block.map Prod.fst = locs
  free : ∀ x ∈ block, x.2.isFree = true
  before : ∀ x ∈ pre, x.2.isEnd = false
  kept : ∀ x ∈ v.dirSlots cs, x.2.isFree = false → x ∈ pre++post

/-- What is left once entries are written to the places found. -/
structure EntriesPut (w : Volume) (dir : Nat) (cs : List Nat) (pre post put : List (Loc × Slot)) :
    Prop where
  chain : IsChain w dir cs
  slots : w.dirSlots cs = pre++put++post
  tail : EndTail (w.dirSlots cs)
  seen : Seen w dir cs

variable {v w : Volume} {dir fuel needed : Nat} {cs new : List Nat} {k : Kmalloc} {locs : List Loc}
  {es : List Slot}

theorem Searched.placeFor (h : Searched fuel k dir needed v locs w) (hq : v.io = [])
    (hl : DiskLayout v) (hd : DirChain v dir cs) (h1 : 1 ≤ needed) (hn : needed ≤ 11)
    (hf : cs.length+2 ≤ fuel) : KiNBOL.placeFor k needed v dir cs = (some locs,w) := by
  cases h with
  | inl h =>
    rw [findFreeDirSlots_spec hq hl hd h1 hn hf] at h
    exact Option.some.inj h
  | inr h =>
    obtain ⟨rfl,loc,rfl,h⟩ := h
    rw [findFreeDirSlot_spec hq hl hd (by omega)] at h
    cases hp : KiNBOL.placeFor k 1 v dir cs with
    | mk r u =>
      rw [hp] at h
      obtain ⟨hloc,rfl⟩ := Prod.mk.inj (Option.some.inj h)
      cases r with
      | none => simp at hloc
      | some locs =>
        have hlen := placeFor_length hq hl hd le_rfl (by omega) hp
        obtain ⟨loc',rfl⟩ := List.length_eq_one_iff.mp hlen
        rw [Option.bind_some,List.head?_cons] at hloc
        rw [Option.some.inj hloc]

theorem EndTail.grown (h : EndTail (v.dirSlots cs)) (new : List Nat) :
    EndTail (v.dirSlots cs++zeroSlots v new) := by
  apply Ended.append h
  intro x hx
  obtain ⟨loc,-,rfl⟩ := List.mem_map.mp hx
  rfl

theorem Placed.chain (hp : Placed v w dir cs new) (hl : DiskLayout v) (hr : InRange v dir)
    (hc : IsChain v dir cs) : IsChain w dir (cs++new) := by
  rcases hp.how with ⟨rfl,rfl⟩ | ⟨newc,rfl,hg⟩
  · rwa [List.append_nil]
  · exact hc.grow hl hr hg

/-- Places found, and entries written there. -/
theorem placeFor_found (hl : DiskLayout v) (hq : v.io = []) (hr : InRange v dir)
    (hc : IsChain v dir cs) (ht : EndTail (v.dirSlots cs)) (h1 : 1 ≤ needed) (hn : needed ≤ 11)
    (hplace : KiNBOL.placeFor k needed v dir cs = (some locs,w)) :
    locs.length = needed ∧ ∃ new pre block post, SlotsFound v w dir cs new locs pre block post ∧
      ∀ es, es.length = needed → (∀ e ∈ es, e.isEnd = false) →
        writeSlots (locs.zip es) w = (true,w.putAll (locs.zip es)) ∧
        EntriesPut (w.putAll (locs.zip es)) dir (cs++new) pre post (locs.zip es) := by
  have hd := hc.dirChain hl hr
  rcases placeFor_cases hl hq hd hc.used k h1 hn with ⟨hno,-⟩ | ⟨-,locs',w',new,hfor,hp,hlen,hfound⟩
  · rw [hplace] at hno
    simp at hno
  rw [hplace] at hfor
  obtain ⟨hlocs,rfl⟩ := Prod.mk.inj hfor
  obtain rfl := Option.some.inj hlocs
  obtain ⟨pre,block,post,hs,hlast,hfree,hfst⟩ := hfound
  have hqw : w.io = [] := hp.step.io.trans hq
  have hlw := hp.step.layout hl
  have hcw := hp.chain hl hr hc
  have htail : EndTail (pre++block++post) := by
    rw [← hs,hp.slots]
    exact ht.grown new
  have hbefore : ∀ x ∈ pre, x.2.isEnd = false := by
    have hfront : Ended (fun x => x.2.isEnd) (pre++(block++post)) := by
      rw [← List.append_assoc]
      exact htail
    apply hfront.before
    intro x hx
    have hlive := hlast x hx
    rw [Slot.isFree,Bool.or_eq_false_iff] at hlive
    exact hlive.1
  refine ⟨hlen,new,pre,block,post,⟨hcw,hs,hfst,hfree,hbefore,?_⟩,?_⟩
  · intro x hx hlive
    have hmem : x ∈ pre++block++post := by
      rw [← hs,hp.slots]
      exact List.mem_append_left _ hx
    rcases List.mem_append.mp hmem with hmem | hmem
    · rcases List.mem_append.mp hmem with hmem | hmem
      · exact List.mem_append_left _ hmem
      · rw [hfree x hmem] at hlive
        simp at hlive
    · exact List.mem_append_right _ hmem
  · intro es hes hlive
    have hwritten := hp.written hl hd.range (hc.nodup hl) hc.used hs hfree hfst (hes.trans hlen.symm)
    have hslots : (w.putAll (locs.zip es)).dirSlots (cs++new) = pre++locs.zip es++post := by
      have hput := dirSlots_putAll hlw (Chained.all_ok hcw) (hcw.nodup hlw) hs
        (by rw [hes,← hlen,← hfst,List.length_map])
      rwa [hfst] at hput
    have hchain := hwritten.grow_chain hl hc hr
    have htail' : EndTail ((w.putAll (locs.zip es)).dirSlots (cs++new)) := by
      rw [hslots]
      apply Ended.replace htail hbefore
      intro x hx
      exact hlive x.2 (List.of_mem_zip (a := x.1) (b := x.2) hx).2
    refine ⟨writeSlots_quiet hqw _,hchain,hslots,htail',?_⟩
    exact htail'.seen (hwritten.step.io.trans hq) (hchain.walk (hwritten.step.layout hl))

/-- An LFN slot begins with its sequence number. -/
theorem lfnEntry_not_end (leaf : CName) (len nentries : Nat) (sum : Byte) {seq : Nat} (h1 : 1 ≤ seq)
    (hs : seq ≤ 10) : (lfnEntry leaf len nentries sum seq).isEnd = false := by
  obtain ⟨hfirst,-⟩ := lfnEntry_byte leaf len nentries sum seq
  obtain ⟨hne,-⟩ := seqByte seq (by omega) h1 (if seq = nentries then 0x40#8 else 0#8)
    (by split_ifs <;> simp)
  rw [Slot.isEnd,hfirst]
  exact decide_eq_false hne

theorem toUpperC_ne_zero {c : Byte} (h : c ≠ 0#8) : toUpperC c ≠ 0#8 := by
  revert c
  decide

theorem padded_first {l : List Byte} (h : ∀ c ∈ l.head?, c ≠ 0#8) :
    (padded 8 l).getD 0 0#8 ≠ 0#8 := by
  cases l with
  | nil => decide
  | cons c l => simpa [padded] using h c rfl

/-- No candidate for a short name begins with a zero byte. -/
theorem shortCandidate_first {leaf : CName} (h0 : 0#8 ∉ leaf) (n : Nat) :
    (shortCandidate leaf n).name8.getD 0 0#8 ≠ 0#8 := by
  have hupper : ∀ l : List Byte, l ⊆ leaf → ∀ c ∈ l.map toUpperC, c ≠ 0#8 := by
    intro l hl c hc
    obtain ⟨d,hd,rfl⟩ := List.mem_map.mp hc
    apply toUpperC_ne_zero
    rintro rfl
    exact h0 (hl hd)
  rw [shortCandidate]
  split_ifs with hn
  · apply padded_first
    intro c hc
    refine hupper _ ?_ c (List.mem_of_mem_head? hc)
    exact ((List.take_sublist _ _).trans (List.takeWhile_sublist _)).subset
  · apply padded_first
    cases hbase : (baseUpper leaf 63).take
        (min (max (8-1-(intToDec n).length) 1) (baseUpper leaf 63).length) with
    | nil =>
      intro c hc
      rw [List.nil_append,List.head?_cons,Option.mem_some_iff] at hc
      rw [← hc]
      decide
    | cons d base =>
      intro c hc
      rw [List.cons_append,List.head?_cons,Option.mem_some_iff] at hc
      have hmem : d ∈ baseUpper leaf 63 := by
        apply List.mem_of_mem_take (i := min (max (8-1-(intToDec n).length) 1) _)
        rw [hbase]
        exact List.mem_cons_self
      rw [← hc]
      refine hupper _ ?_ d hmem
      exact ((List.take_sublist _ _).trans
        (List.filter_sublist.trans (List.takeWhile_sublist _))).subset

/-- None of the slots that the driver writes for a name is an end mark. -/
theorem newSlots_not_end {leaf : CName} (h0 : 0#8 ∉ leaf) (n : Nat) (attr : Byte) (cluster : Nat) :
    ∀ e ∈ newSlots leaf (shortCandidate leaf n) attr cluster, e.isEnd = false := by
  have hshort : (dirEntry (shortCandidate leaf n) attr cluster 0).isEnd = false := by
    have hfirst := shortCandidate_first h0 n
    simpa [Slot.isEnd,dirEntry] using hfirst
  intro e he
  rw [newSlots] at he
  split_ifs at he
  · rcases List.mem_append.mp he with he | he
    · obtain ⟨i,hi,rfl⟩ := List.mem_map.mp he
      rw [List.mem_range] at hi
      have hle := lfnCount_le leaf
      exact lfnEntry_not_end _ _ _ _ (by omega) (by omega)
    · rw [List.mem_singleton.mp he]
      exact hshort
  · rw [List.mem_singleton.mp he]
    exact hshort

/-- Writing a new entry leaves a directory in which the readers see everything. -/
theorem writeEntry_seen (hl : DiskLayout v) (hq : v.io = []) (hr : InRange v dir)
    (hc : IsChain v dir cs) (ht : EndTail (v.dirSlots cs)) (hf : cs.length+2 ≤ fuel) {leaf : CName}
    (h0 : 0#8 ∉ leaf) (n : Nat) (attr : Byte) (cluster : Nat) {loc : Loc}
    (h : writeEntry fuel k dir leaf (shortCandidate leaf n) attr cluster 0 v = some (some loc,w)) :
    ∃ new, IsChain w dir (cs++new) ∧ EndTail (w.dirSlots (cs++new)) ∧ Seen w dir (cs++new) := by
  obtain ⟨h1,hn⟩ := length_newSlots leaf (shortCandidate leaf n) attr cluster
  rw [writeEntry_spec hq hl (hc.dirChain hl hr) hf] at h
  cases hp : KiNBOL.placeFor k (newSlots leaf (shortCandidate leaf n) attr cluster).length v dir cs with
  | mk r u =>
    rw [hp] at h
    cases r with
    | none => simp at h
    | some locs =>
      obtain ⟨-,new,pre,block,post,-,hput⟩ := placeFor_found hl hq hr hc ht h1 hn hp
      obtain ⟨-,hentries⟩ := hput _ rfl (newSlots_not_end h0 n attr cluster)
      obtain ⟨-,rfl⟩ := Prod.mk.inj (Option.some.inj h)
      exact ⟨new,hentries.chain,hentries.tail,hentries.seen⟩

/-- A slot search finds free slots in a row with no end mark before them; when entries have been
written there the readers still see everything, and the end marks lie at the end again. -/
theorem slot_search_sound (hl : DiskLayout v) (hq : v.io = []) (hr : InRange v dir)
    (hc : IsChain v dir cs) (ht : EndTail (v.dirSlots cs)) (h1 : 1 ≤ needed) (hn : needed ≤ 11)
    (hf : cs.length+2 ≤ fuel) (h : Searched fuel k dir needed v locs w) :
    locs.length = needed ∧ ∃ new pre block post, SlotsFound v w dir cs new locs pre block post ∧
      ∀ es, es.length = needed → (∀ e ∈ es, e.isEnd = false) →
        ∃ w', writeSlots (locs.zip es) w = (true,w') ∧
          EntriesPut w' dir (cs++new) pre post (locs.zip es) := by
  have hplace := h.placeFor hq hl (hc.dirChain hl hr) h1 hn hf
  obtain ⟨hlen,new,pre,block,post,hfound,hput⟩ := placeFor_found hl hq hr hc ht h1 hn hplace
  refine ⟨hlen,new,pre,block,post,hfound,fun es hes hlive => ?_⟩
  obtain ⟨hwrite,hentries⟩ := hput es hes hlive
  exact ⟨_,hwrite,hentries⟩

/-- The image of a volume with a directory D in its root, after the driver has started. -/
theorem fullDir_root : ∃ v, fat32Init 3 (fun _ => true) (fullDirVolume []) = some v ∧
    DiskLayout v ∧ v.io = [] ∧ InRange v 2 ∧ IsChain v 2 [2] ∧ EndTail (v.dirSlots [2]) ∧
    ∃ locs w, Searched 4 (fun _ => true) 2 3 v locs w := by
  have hm : (fat32Init 3 (fun _ => true) (fullDirVolume [])).map (fun v => decide (
      (v.sectorsPerCluster = 1 ∧ v.numFats = 1 ∧ v.fatStart = 1 ∧ v.dataStart = 2 ∧
        v.fatSize32 = 1 ∧ v.totalClusters = 8 ∧ v.fsinfoValid = false ∧ v.nextFreeHint = 2) ∧
      v.io = [] ∧ endOfChain ≤ fatAt v 2 ∧ EndTail (v.dirSlots [2]) ∧
      ((findFreeDirSlots 4 (fun _ => true) 2 3 v).bind Prod.fst).isSome = true)) = some true := by
    decide
  obtain ⟨v,hv,he⟩ := Option.map_eq_some_iff.mp hm
  obtain ⟨⟨hspc,hfats,hstart,hdata,hsize,htotal,hinfo,hhint⟩,hio,hend,htail,hfound⟩ :=
    of_decide_eq_true he
  have hr : InRange v 2 := ⟨le_rfl,by omega⟩
  refine ⟨v,hv,?_,hio,hr,⟨rfl,hr,hend⟩,htail,?_⟩
  · constructor
    · omega
    · omega
    · rw [hdata,hstart,hfats,hsize]
    · omega
    · rw [hdata,htotal,hspc]
      omega
    · rw [endOfChain]
      omega
    · intro hvalid
      rw [hinfo] at hvalid
      simp at hvalid
    · omega
  · obtain ⟨locs,hlocs⟩ := Option.isSome_iff_exists.mp hfound
    obtain ⟨⟨r,w⟩,hrun,rfl⟩ := Option.bind_eq_some_iff.mp hlocs
    exact ⟨locs,w,Or.inl hrun⟩

theorem slot_search_sound_sample : ∃ v w locs new pre block post,
    fat32Init 3 (fun _ => true) (fullDirVolume []) = some v ∧
    Searched 4 (fun _ => true) 2 3 v locs w ∧ SlotsFound v w 2 [2] new locs pre block post := by
  obtain ⟨v,hv,hl,hq,hr,hc,ht,locs,w,hs⟩ := fullDir_root
  obtain ⟨-,new,pre,block,post,hfound,-⟩ :=
    slot_search_sound hl hq hr hc ht (by decide) (by decide) (by decide) hs
  exact ⟨v,w,locs,new,pre,block,post,hv,hs,hfound⟩

/-- A volume with 398 clusters and a FAT of one sector, which has entries for 128. All of these are
in use, and of the root directory, which lies right behind, all slots but the last. -/
def shortFatDisk : Disk := fun lba =>
  if lba = 0 then
    sectorOf [(12,2#8),(13,1#8),(14,1#8),(16,1#8),(32,0x90#8),(33,1#8),(36,1#8),(44,2#8)]
  else if lba = 1 then fun _ => 0xFF#8
  else if lba = 2 then fun i => if i < 480 then ch 'A' else 0#8
  else fun _ => 0#8

def shortFatVolume : Volume := bootVolume (fun _ => true) 1 0 shortFatDisk []

/-- The search for two slots takes the last slot of the root directory for the FAT entry of a free
cluster and marks it; then it returns this slot. -/
theorem slot_used_as_fat : ∃ v w locs, fat32Init 3 (fun _ => true) shortFatVolume = some v ∧
    v.io = [] ∧ InRange v 2 ∧ IsChain v 2 [2] ∧ EndTail (v.dirSlots [2]) ∧
    Searched 4 (fun _ => true) 2 2 v locs w ∧ ∃ loc ∈ locs, (dirSlotAt w loc).isFree = false := by
  have hm : (fat32Init 3 (fun _ => true) shortFatVolume).map (fun v => decide (
      v.io = [] ∧ v.totalClusters = 398 ∧ endOfChain ≤ fatAt v 2 ∧ EndTail (v.dirSlots [2]) ∧
      ((findFreeDirSlots 4 (fun _ => true) 2 2 v).bind (fun r => r.1.bind (fun locs =>
        locs.find? (fun loc => !(dirSlotAt r.2 loc).isFree)))).isSome = true)) = some true := by
    decide +kernel
  obtain ⟨v,hv,he⟩ := Option.map_eq_some_iff.mp hm
  obtain ⟨hio,htotal,hend,htail,hfound⟩ := of_decide_eq_true he
  have hr : InRange v 2 := ⟨le_rfl,by omega⟩
  obtain ⟨loc,hloc⟩ := Option.isSome_iff_exists.mp hfound
  obtain ⟨⟨r,w⟩,hrun,hr'⟩ := Option.bind_eq_some_iff.mp hloc
  obtain ⟨locs,rfl,hfind⟩ := Option.bind_eq_some_iff.mp hr'
  refine ⟨v,w,locs,hv,hio,hr,⟨rfl,hr,hend⟩,htail,Or.inl hrun,loc,List.mem_of_find?_eq_some hfind,?_⟩
  simpa using List.find?_some hfind

end KiNBOL
