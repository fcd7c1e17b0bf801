import KiNBOL.Fs.WriteEnds

namespace KiNBOL

/-! `fat32_file_write` as an overlay of the file. -/

variable {v v' : Volume} {n n' : FsNode} {ctx ctx' : FileCtx} {i : Fin 40} {c off len : Nat}
  {cs ds taken : List Nat} {r : Nat} {src : Sector} {loc : Loc} {o : Owner}

/-- A registered file with these bytes: reads within it return them, and its directory entry says
what the node says. -/
structure FileHolds (v : Volume) (i : Fin 40) (n : FsNode) (loc : Loc) (byte : Nat → Byte) : Prop where
  node : v.files i = some n
  entry : ∃ ctx, n.device = some ctx ∧ ctx.loc = loc ∧
    (dirSlotAt v loc).cluster = ctx.startCluster ∧ (dirSlotAt v loc).size = n.size
  read : ∀ fuel pos k buf, pos+k ≤ n.size → pos+k < fuel →
    fat32FileRead fuel true n pos k buf v =
      some ((k,overlay buf 0 k (fun j => byte (pos+j))),v)

/-- `r` of the `len` bytes of `src` lie over the file in slot `i` from `off` on, and the other files
are as before. -/
structure Overlays (v v' : Volume) (i : Fin 40) (n : FsNode) (ctx : FileCtx) (off len r : Nat)
    (src : Sector) : Prop where
  le : r ≤ len
  full : r < len → DiskFull v'
  file : ∃ n', FileHolds v' i n' ctx.loc (overlay (fileByte v ctx.startCluster) off r src) ∧
    n'.name = n.name ∧ n'.flags = n.flags ∧ n'.size = max n.size (off+r)
  others : ∀ j, j ≠ i → v'.files j = v.files j
  chains : ∀ o c cs, o ≠ .file i → startOf v [] o = some c → IsChain v c cs →
    startOf v' [] o = some c ∧ IsChain v' c cs
  contents : ∀ j m, j ≠ i → v.files j = some m → m.isDir = false → m.content v' = m.content v

/-- Every write to the file that starts within it, its end a 32-bit number, is such an overlay. -/
def WriteOverlays (v : Volume) (i : Fin 40) (n : FsNode) (ctx : FileCtx) : Prop :=
  ∀ off len fuel cbuf src, off ≤ n.size → off+len < 2^32 → off+len < fuel →
    ∃ r v', fat32FileWrite fuel (some cbuf) i off len src v = some (r,v') ∧
      Overlays v v' i n ctx off len r src

/-- The chains of the other owners have no cluster in common with a file's. -/
theorem ChainsApart.other (hc : ChainsApart v) (hown : ∀ x ∈ cs, Owns v [] (.file i) x)
    (hne : o ≠ .file i) (ho : startOf v [] o = some c) (hds : IsChain v c ds) : ∀ x ∈ ds, x ∉ cs :=
  fun x hx hin => hne (hc.apart o _ x ⟨c,ds,ho,hds,hx⟩ (hown x hin))

namespace FileWrote

/-- A chain in use that is not the file's. -/
theorem not_taken (h : FileWrote v v' cs taken loc off r src) (hds : IsChain v c ds)
    (hout : ∀ x ∈ ds, x ∉ cs) : ∀ x ∈ ds, x ∉ cs++taken := by
  intro x hx hin
  rcases h.sub x hin with hcs | hfree
  · exact hout x hx hcs
  · exact hds.used x hx hfree

theorem isChain (h : FileWrote v v' cs taken loc off r src) (hds : IsChain v c ds)
    (hout : ∀ x ∈ ds, x ∉ cs) : IsChain v' c ds := by
  have hfat : ∀ x ∈ ds, fatAt v' x = fatAt v x := fun x hx =>
    h.fat x (Chained.all_ok hds x hx).2 (h.not_taken hds hout x hx)
  exact (Chained.congr hds hfat).mono (fun _ _ hx => h.inRange.mpr hx) (fun _ hx => hx)

/-- The sectors of such a chain, but for that of the directory entry. -/
theorem disk (h : FileWrote v v' cs taken loc off r src) (hds : IsChain v c ds)
    (hout : ∀ x ∈ ds, x ∉ cs) {x a : Nat} (hx : x ∈ ds) (ha : InCluster v x a) (hne : a ≠ loc.lba) :
    v'.disk a = v.disk a := by
  refine h.others a ha.data hne (fun y hy hin => h.not_taken hds hout x hx ?_)
  rw [InCluster.unique (Chained.all_ok hds x hx).1 (h.range y hy).1 ha hin]
  exact hy

/-- The other files have their bytes where they were. -/
theorem content {j : Fin 40} {m : FsNode} (h : FileWrote v v' cs taken ctx.loc off r src)
    (hl : DiskLayout v) (hc : ChainsApart v) (he : EntryHome v n ctx)
    (hown : ∀ x ∈ cs, Owns v [] (.file i) x) (hj : j ≠ i) (hm : v.files j = some m)
    (hdir : m.isDir = false) : m.content v' = m.content v := by
  cases hctx : m.device with
  | none => rw [FsNode.content,FsNode.content,hctx]
  | some ctx₁ =>
    rw [FsNode.content,FsNode.content,hctx]
    rcases hc.covers j m ctx₁ hm hctx hdir with hz | ⟨ds,hds,hlen⟩
    · rw [hz]
      rfl
    · have hstart : ctx₁.startCluster ≠ 0 := by
        intro h0
        rw [h0] at hds
        exact not_chain_zero hds
      have ho := startOf_file hm hctx hstart []
      have hout := hc.other hown (fun heq => hj (Owner.file.inj heq)) ho hds
      have h0 : 0 < v.clusterSize := by
        have := hl.spc
        rw [Volume.clusterSize]
        omega
      have hsize := h.places.clusterSize
      apply List.map_congr_left
      intro k hk
      have hk' : k < ds.length*v.clusterSize := lt_of_lt_of_le (List.mem_range.mp hk) hlen
      rw [fileByte_list hds h0 hk',fileByte_list (h.isChain hds hout) (by rw [hsize]; exact h0)
        (by rw [hsize]; exact hk')]
      refine listByte_congr h.places hl (Chained.all_ok hds) (fun x hx a ha => ?_) hk'
      refine h.disk hds hout hx ha (fun heq => ?_)
      rw [heq] at ha
      exact (he.home x (Chained.all_ok hds x hx) ha).2 j m hm hdir ⟨_,ds,ho,hds,hx⟩

end FileWrote

/-- Reads of the file return the bytes of its chain. -/
theorem Writing.holds (h : Writing v i n ctx cs) :
    FileHolds v i n ctx.loc (fileByte v ctx.startCluster) where
  node := h.node
  entry := ⟨ctx,h.device,rfl,h.cluster,h.size⟩
  read := by
    intro fuel pos k buf hin hf
    have hsize := (dirSlotAt v ctx.loc).size_lt
    rw [h.size] at hsize
    have h0 : 0 < v.clusterSize := by
      have := h.layout.spc
      rw [Volume.clusterSize]
      omega
    have hmin : min k (n.size-pos) = k := by omega
    rw [fat32FileRead_fits buf h.quiet h0 h.device (h.chain.hasClusters h.layout h.covers) hf
      (by omega),hmin]

/-- Bytes behind the end do not matter. -/
theorem FileHolds.bytes {byte byte' : Nat → Byte} (h : FileHolds v i n loc byte)
    (hb : ∀ k < n.size, byte k = byte' k) : FileHolds v i n loc byte' where
  node := h.node
  entry := h.entry
  read := by
    intro fuel pos k buf hin hf
    rw [h.read fuel pos k buf hin hf]
    rw [overlay_congr (fun j hj => hb (pos+j) (by omega))]

/-- The bytes of a file that is written to, by its old ones. -/
theorem WriteEnd.byte (h : WriteEnd v v' i n n' ctx ctx' cs taken off r src) (hl : DiskLayout v)
    {k : Nat} (hk : k < n'.size) : fileByte v' ctx'.startCluster k =
      overlay (listByte v (cs++taken)) off r src k := by
  have hsize := h.wrote.places.clusterSize
  have h0 : 0 < v.clusterSize := by
    have := hl.spc
    rw [Volume.clusterSize]
    omega
  have hcov := h.writing.covers
  rw [fileByte_list h.writing.chain (by rw [hsize]; exact h0) (by omega)]
  exact h.wrote.bytes k (by rw [← hsize]; omega)

/-- A write that ends with such a size is an overlay. -/
theorem WriteEnd.overlays (h : WriteEnd v v' i n n' ctx ctx' cs taken off r src) (hl : DiskLayout v)
    (hc : ChainsApart v) (he : EntryHome v n ctx) (hle : r ≤ len) (hfull : r < len → DiskFull v')
    (hsize : n'.size = max n.size (off+r)) (hoff : off ≤ n.size) :
    Overlays v v' i n ctx off len r src where
  le := hle
  full := hfull
  file := by
    refine ⟨n',?_,h.name,h.flags,hsize⟩
    rw [← h.loc]
    refine h.writing.holds.bytes (fun k hk => ?_)
    rw [h.byte hl hk]
    by_cases hin : off ≤ k ∧ k < off+r
    · rw [overlay,if_pos hin,overlay,if_pos hin]
    · have hk' : k < n.size := by omega
      have hold := h.old
      rw [overlay,if_neg hin,overlay,if_neg hin,h.oldByte k hk',listByte_append v (by omega)]
  others := h.files
  chains := by
    intro o c ds hne ho hds
    refine ⟨?_,h.wrote.isChain hds (hc.other h.own hne ho hds)⟩
    rw [← ho]
    cases o with
    | root => rw [startOf,startOf,h.wrote.root]
    | file j =>
      have hj : j ≠ i := fun heq => hne (heq ▸ rfl)
      rw [startOf,startOf,fileCtx,fileCtx,h.files j hj]
    | extra j => rfl
  contents := fun _ _ hj hm hdir => h.wrote.content hl hc he h.own hj hm hdir

/-- A write for which there is no first cluster. -/
theorem EntryHome.overlays_none (he : EntryHome v n ctx) (hi : v.files i = some n)
    (hn : n.device = some ctx) (hz : n.size = 0) (hoff : off = 0) (hfull : DiskFull v) (len : Nat)
    (src : Sector) : Overlays v v i n ctx off len 0 src where
  le := Nat.zero_le _
  full := fun _ => hfull
  file := by
    refine ⟨n,⟨hi,⟨ctx,hn,rfl,he.cluster,he.size⟩,fun fuel pos k buf hin hf => ?_⟩,rfl,rfl,by omega⟩
    obtain rfl : k = 0 := by omega
    rw [fat32FileRead_past (by omega),overlay_zero]
  others := fun _ _ => rfl
  chains := fun _ _ _ _ ho hds => ⟨ho,hds⟩
  contents := fun _ _ _ _ _ => rfl

/-- `fat32_file_write` lays the bytes that it counts over the file and changes no other file; it
stops before the end only where no cluster is free. -/
theorem file_write_overlays (hl : DiskLayout v) (hq : v.io = []) (hc : ChainsApart v)
    (hi : v.files i = some n) (hd : n.isDir = false) (hn : n.device = some ctx)
    (he : EntryHome v n ctx) : WriteOverlays v i n ctx := by
  intro off len fuel cbuf src hoff hend hf
  rcases fat32FileWrite_end hl hq hc hi hd hn he hf cbuf src with ⟨hrun,hfull,hzero,-⟩ |
    ⟨r,v',n',ctx',cs,taken,hrun,h,hr,hfull,hsize⟩
  · exact ⟨0,v,hrun,he.overlays_none hi hn hzero (by omega) hfull len src⟩
  · have hu32 : u32 (off+r) = off+r := by
      rw [u32,Nat.mod_eq_of_lt]
      omega
    exact ⟨r,v',hrun,h.overlays hl hc he (by omega) hfull (by omega) hoff⟩

theorem isChain_one (hr : InRange v c) (hend : endOfChain ≤ fatAt v c) : IsChain v c [c] :=
  ⟨rfl,hr,hend⟩

/-- Chains of one cluster each. -/
theorem ChainsApart.singles (hfew : v.totalClusters+2 ≤ endOfChain)
    (hone : ∀ o c, startOf v [] o = some c → InRange v c ∧ endOfChain ≤ fatAt v c)
    (hne : ∀ o o' c, startOf v [] o = some c → startOf v [] o' = some c → o = o')
    (hcov : ∀ i n ctx, v.files i = some n → n.device = some ctx → n.isDir = false →
      ctx.startCluster ≠ 0 ∧ n.size ≤ v.clusterSize) : ChainsApart v := by
  have hchain : ∀ o c, startOf v [] o = some c → IsChain v c [c] :=
    fun o c ho => isChain_one (hone o c ho).1 (hone o c ho).2
  have honly : ∀ o c cs x, startOf v [] o = some c → IsChain v c cs → x ∈ cs → x = c := by
    intro o c cs x ho hcs hx
    obtain ⟨hr,hend⟩ := hone o c ho
    cases cs with
    | nil => exact absurd hx List.not_mem_nil
    | cons y cs =>
      obtain ⟨rfl,-,hrest⟩ := hcs
      cases cs with
      | nil => exact List.mem_singleton.mp hx
      | cons z cs =>
        obtain ⟨rfl,hz,-⟩ := hrest
        have := hz.2
        omega
  refine ⟨fun o c ho => ⟨(hone o c ho).1,_,hchain o c ho⟩,?_,fun i n ctx hi hn hd => Or.inr ?_⟩
  · rintro o o' x ⟨c,cs,ho,hcs,hx⟩ ⟨c',cs',ho',hcs',hx'⟩
    obtain rfl := honly o c cs x ho hcs hx
    obtain rfl := honly o' c' cs' x ho' hcs' hx'
    exact hne o o' x ho ho'
  · obtain ⟨h0,hle⟩ := hcov i n ctx hi hn hd
    exact ⟨_,hchain _ _ (startOf_file hi hn h0 []),by simpa using hle⟩

/-- A volume with two files and sectors of one cluster each. -/
def pairVolume (root total : Nat) (disk : Disk) (n m : FsNode) : Volume :=
  { bootVolume (fun _ => true) 1 0 disk [] with
    fatOk := true
    sectorsPerCluster := 1
    numFats := 1
    fatSize32 := 1
    fatStart := 1
    dataStart := 2
    rootCluster := root
    totalClusters := total
    files := fun i => if i = 0 then some n else if i = 1 then some m else none
    active := 2 }

theorem pairVolume_apart {root total : Nat} {disk : Disk} {n m : FsNode} {ctx ctx' : FileCtx}
    (hn : n.device = some ctx) (hm : m.device = some ctx')
    (hne : root ≠ ctx.startCluster ∧ root ≠ ctx'.startCluster ∧
      ctx.startCluster ≠ ctx'.startCluster)
    (hr : ∀ c ∈ [root,ctx.startCluster,ctx'.startCluster], 2 ≤ c ∧ c < total+2 ∧
      endOfChain ≤ fatAt (pairVolume root total disk n m) c)
    (htotal : total+2 ≤ endOfChain) (hsize : n.size ≤ 512 ∧ m.size ≤ 512) :
    ChainsApart (pairVolume root total disk n m) := by
  have hfiles : ∀ i k, (pairVolume root total disk n m).files i = some k →
      i = 0 ∧ k = n ∨ i = 1 ∧ k = m := by
    intro i k hi
    change (if i = 0 then some n else if i = 1 then some m else none) = some k at hi
    split_ifs at hi with h0 h1
    · exact Or.inl ⟨h0,(Option.some.inj hi).symm⟩
    · exact Or.inr ⟨h1,(Option.some.inj hi).symm⟩
  have hstart : ∀ o c, startOf (pairVolume root total disk n m) [] o = some c →
      o = .root ∧ c = root ∨ o = .file 0 ∧ c = ctx.startCluster ∨
        o = .file 1 ∧ c = ctx'.startCluster := by
    intro o c ho
    cases o with
    | root => exact Or.inl ⟨rfl,(Option.some.inj ho).symm⟩
    | extra j => simp [startOf] at ho
    | file i =>
      rw [startOf,fileCtx] at ho
      cases hi : (pairVolume root total disk n m).files i with
      | none => rw [hi] at ho; simp at ho
      | some k =>
        right
        rw [hi,Option.bind_some] at ho
        rcases hfiles i k hi with ⟨rfl,rfl⟩ | ⟨rfl,rfl⟩
        · rw [hn,Option.bind_some] at ho
          split_ifs at ho
          exact Or.inl ⟨rfl,(Option.some.inj ho).symm⟩
        · rw [hm,Option.bind_some] at ho
          split_ifs at ho
          exact Or.inr ⟨rfl,(Option.some.inj ho).symm⟩
  refine .singles htotal (fun o c ho => ?_) (fun o o' c ho ho' => ?_) (fun i k ctx₁ hi hk _ => ?_)
  · obtain ⟨h2,hlt,hend⟩ : 2 ≤ c ∧ c < total+2 ∧
        endOfChain ≤ fatAt (pairVolume root total disk n m) c := by
      apply hr
      rcases hstart o c ho with ⟨-,rfl⟩ | ⟨-,rfl⟩ | ⟨-,rfl⟩ <;> simp
    exact ⟨⟨h2,hlt⟩,hend⟩
  · rcases hstart o c ho with ⟨rfl,rfl⟩ | ⟨rfl,rfl⟩ | ⟨rfl,rfl⟩ <;>
      rcases hstart o' _ ho' with ⟨rfl,h⟩ | ⟨rfl,h⟩ | ⟨rfl,h⟩ <;>
      first | rfl | exact absurd h (by omega)
  · have hpos : ∀ c ∈ [root,ctx.startCluster,ctx'.startCluster], c ≠ 0 :=
      fun c hc => by have := (hr c hc).1; omega
    rcases hfiles i k hi with ⟨-,rfl⟩ | ⟨-,rfl⟩
    · obtain rfl := Option.some.inj (hn.symm.trans hk)
      exact ⟨hpos _ (by simp),hsize.1⟩
    · obtain rfl := Option.some.inj (hm.symm.trans hk)
      exact ⟨hpos _ (by simp),hsize.2⟩

/-- Clusters of directories are not those of files. -/
theorem ChainsApart.not_file (hc : ChainsApart v) (ho : DirOwner v [] o c) (hcs : IsChain v c cs)
    {x : Nat} (hx : x ∈ cs) : ∀ j m, v.files j = some m → m.isDir = false → ¬Owns v [] (.file j) x :=
  fun j _ hj hd hown => ho.ne_file hj hd (hc.apart o (.file j) x ⟨c,cs,ho.1,hcs,hx⟩ hown)

theorem rootOwner (v : Volume) : DirOwner v [] .root v.rootCluster := ⟨rfl,by simp⟩

/-- The entry of the second file lies in the cluster of the first. -/
def spillDisk : Disk := fun lba =>
  if lba = 1 then put32 (put32 (put32 (fun _ => 0#8) 8 0x0FFFFFFF) 12 0x0FFFFFFF) 16 0x0FFFFFFF
  else if lba = 2 then putSlot (fun _ => 0#8) 0 (dirEntry (toShortName (named ['A'])) 0x20#8 3 100)
  else if lba = 3 then putSlot (fun _ => 0#8) 0 (dirEntry (toShortName (named ['B'])) 0x20#8 4 1)
  else fun _ => 0#8

def spillNode : FsNode := ⟨named ['B'],vfsFile,1,some ⟨4,3,0⟩⟩

def spillVolume : Volume := pairVolume 2 8 spillDisk smallFileNode spillNode

theorem spillVolume_apart : ChainsApart spillVolume :=
  pairVolume_apart rfl rfl (by decide) (by decide) (by decide) (by decide)

theorem spillVolume_layout : DiskLayout spillVolume := by
  constructor <;> decide

/-- A file that gets longer changes the bytes of the one where its directory entry lies. -/
theorem spill_entry : ¬WriteOverlays spillVolume 1 spillNode ⟨4,3,0⟩ := by
  intro h
  obtain ⟨r,v',hrun,ho⟩ := h 1 1 10 (fun _ => 0#8) (fun _ => 7#8) (by decide) (by decide) (by decide)
  have hm : (fat32FileWrite 10 (some (fun _ => 0#8)) 1 1 1 (fun _ => 7#8) spillVolume).map
      (fun x => (fileByte x.2 3 28,fileByte spillVolume 3 28)) = some (2#8,1#8) := by decide
  rw [hrun,Option.map_some,Option.some.injEq,Prod.mk.injEq] at hm
  have hdev : smallFileNode.device = some ⟨3,2,0⟩ := rfl
  have hsame := congrArg (·[28]?) (ho.contents 0 smallFileNode (by decide) rfl rfl)
  rw [content_getElem hdev v' (by decide),content_getElem hdev spillVolume (by decide)] at hsame
  have hbyte := Option.some.inj hsame
  rw [hm.1,hm.2] at hbyte
  revert hbyte
  decide

/-- A FAT of one sector for 200 clusters: the entry of cluster 130 lies in cluster 2. -/
def narrowDisk : Disk := fun lba =>
  if lba = 1 then put32 (put32 (fun _ => 0#8) 8 0x0FFFFFFF) 20 0x0FFFFFFF
  else if lba = 2 then put32 (fun _ => 0#8) 8 0x0FFFFFFF
  else if lba = 5 then
    putSlot (putSlot (fun _ => 0#8) 0 (dirEntry (toShortName (named ['A'])) 0x20#8 2 16)) 32
      (dirEntry (toShortName (named ['B'])) 0x20#8 130 0)
  else fun _ => 0#8

def narrowNode : FsNode := ⟨named ['A'],vfsFile,16,some ⟨2,5,0⟩⟩

def narrowOther : FsNode := ⟨named ['B'],vfsFile,0,some ⟨130,5,32⟩⟩

def narrowVolume : Volume := pairVolume 5 200 narrowDisk narrowNode narrowOther

theorem narrowVolume_apart : ChainsApart narrowVolume :=
  pairVolume_apart rfl rfl (by decide) (by decide) (by decide) (by decide)

theorem narrowVolume_home : EntryHome narrowVolume narrowNode ⟨2,5,0⟩ where
  data := by decide
  home := by
    have hroot : IsChain narrowVolume 5 [5] :=
      isChain_one ⟨by decide,by decide⟩ (by decide)
    intro x hx hin
    obtain rfl : x = 5 := InCluster.unique hx.1 (by decide) hin (by decide)
    exact ⟨hroot.used 5 (by simp),
      narrowVolume_apart.not_file (rootOwner narrowVolume) hroot (by simp)⟩
  cluster := by decide
  size := by decide

/-- The bytes of one file are the FAT entry of another. -/
theorem spill_fat : ¬WriteOverlays narrowVolume 0 narrowNode ⟨2,5,0⟩ := by
  intro h
  obtain ⟨r,v',hrun,ho⟩ := h 0 16 20 (fun _ => 0#8) (fun _ => 0#8) (by decide) (by decide) (by decide)
  have hm : (fat32FileWrite 20 (some (fun _ => 0#8)) 0 0 16 (fun _ => 0#8) narrowVolume).map
      (fun x => fatAt x.2 130) = some 0 := by decide
  rw [hrun,Option.map_some,Option.some.injEq] at hm
  have hchain : IsChain narrowVolume 130 [130] :=
    isChain_one ⟨by decide,by decide⟩ (by decide)
  obtain ⟨-,-,-,hend⟩ := ho.chains (.file 1) 130 [130] (by decide) rfl hchain
  have hend' : endOfChain ≤ fatAt v' 130 := hend
  rw [hm] at hend'
  revert hend'
  decide

def staleNode : FsNode := ⟨named ['A'],vfsFile,50,some ⟨3,2,0⟩⟩

def staleVolume : Volume := pairVolume 2 8 spillDisk staleNode spillNode

theorem staleVolume_apart : ChainsApart staleVolume :=
  pairVolume_apart rfl rfl (by decide) (by decide) (by decide) (by decide)

/-- An entry that does not say what the node says is not put right by a write of nothing. -/
theorem spill_stale : ¬WriteOverlays staleVolume 0 staleNode ⟨3,2,0⟩ := by
  intro h
  obtain ⟨r,v',hrun,ho⟩ := h 0 0 10 (fun _ => 0#8) (fun _ => 0#8) (by decide) (by decide) (by decide)
  have hm : (fat32FileWrite 10 (some (fun _ => 0#8)) 0 0 0 (fun _ => 0#8) staleVolume).map
      (fun x => (x.1,(dirSlotAt x.2 ⟨2,0⟩).size)) = some (0,100) := by decide
  rw [hrun,Option.map_some,Option.some.injEq,Prod.mk.injEq] at hm
  obtain ⟨n',hn',-,-,hsize⟩ := ho.file
  obtain ⟨ctx',-,hloc,-,hentry⟩ := hn'.entry
  have hslot : (dirSlotAt v' ⟨2,0⟩).size = n'.size := hentry
  have hr : r = 0 := hm.1
  rw [hm.2,hsize,hr] at hslot
  revert hslot
  decide

/-- Writes that are no overlays: the entry lies in another file's cluster, the FAT lies in a file's
cluster, the entry does not say what the node says. -/
theorem file_write_spills :
    (∃ v i n ctx, v.io = [] ∧ ChainsApart v ∧ DiskLayout v ∧ v.files i = some n ∧ n.isDir = false ∧
      n.device = some ctx ∧ (dirSlotAt v ctx.loc).cluster = ctx.startCluster ∧
      (dirSlotAt v ctx.loc).size = n.size ∧ ¬WriteOverlays v i n ctx) ∧
    (∃ v i n ctx, v.io = [] ∧ ChainsApart v ∧ v.files i = some n ∧ n.isDir = false ∧
      n.device = some ctx ∧ EntryHome v n ctx ∧ ¬WriteOverlays v i n ctx) ∧
    ∃ v i n ctx, v.io = [] ∧ ChainsApart v ∧ DiskLayout v ∧ v.files i = some n ∧ n.isDir = false ∧
      n.device = some ctx ∧ (∀ x, InRange v x → InCluster v x ctx.direntSector → fatAt v x ≠ 0 ∧
        ∀ j m, v.files j = some m → m.isDir = false → ¬Owns v [] (.file j) x) ∧
      ¬WriteOverlays v i n ctx := by
  refine ⟨⟨spillVolume,1,spillNode,⟨4,3,0⟩,rfl,spillVolume_apart,spillVolume_layout,by decide,rfl,rfl,
    by decide,by decide,spill_entry⟩,⟨narrowVolume,0,narrowNode,⟨2,5,0⟩,rfl,
    narrowVolume_apart,by decide,rfl,rfl,narrowVolume_home,spill_fat⟩,
    staleVolume,0,staleNode,⟨3,2,0⟩,rfl,staleVolume_apart,?_,by decide,rfl,rfl,
    fun x hx hin => ?_,spill_stale⟩
  · constructor <;> decide
  · have hroot : IsChain staleVolume 2 [2] :=
      isChain_one ⟨by decide,by decide⟩ (by decide)
    obtain rfl : x = 2 := InCluster.unique hx.1 (by decide) hin (by decide)
    exact ⟨hroot.used 2 (by simp),staleVolume_apart.not_file (rootOwner staleVolume) hroot (by simp)⟩

/-- What the mount of an image with the small file shows. -/
def SmallFile (v : Volume) : Prop :=
  (v.sectorsPerCluster = 1 ∧ v.numFats = 1 ∧ v.fatStart = 1 ∧ v.dataStart = 2 ∧ v.fatSize32 = 1 ∧
    v.totalClusters = 8 ∧ v.fsinfoValid = false ∧ v.nextFreeHint = 2) ∧ v.io = [] ∧
  v.rootCluster = 2 ∧ (∀ i, v.files i = if i = 0 then some smallFileNode else none) ∧
  endOfChain ≤ fatAt v 2 ∧ endOfChain ≤ fatAt v 3 ∧
  (dirSlotAt v ⟨2,0⟩).cluster = 3 ∧ (dirSlotAt v ⟨2,0⟩).size = 100

instance (v : Volume) : Decidable (SmallFile v) := inferInstanceAs (Decidable (_ ∧ _))

namespace SmallFile

variable (h : SmallFile v)

include h

theorem layout : DiskLayout v := by
  obtain ⟨⟨hspc,hfats,hstart,hdata,hsize,htotal,hinfo,hhint⟩,-⟩ := h
  constructor
  · omega
  · omega
  · rw [hdata,hstart,hfats,hsize]
  · omega
  · rw [hdata,htotal,hspc]
    omega
  · rw [endOfChain]
    omega
  · intro hvalid
    rw [hinfo] at hvalid
    simp at hvalid
  · omega

theorem file {n : FsNode} (hi : v.files i = some n) : i = 0 ∧ n = smallFileNode := by
  obtain ⟨-,-,-,hfiles,-⟩ := h
  rw [hfiles] at hi
  split_ifs at hi with h0
  exact ⟨h0,(Option.some.inj hi).symm⟩

theorem owner (ho : startOf v [] o = some c) : o = .root ∧ c = 2 ∨ o = .file 0 ∧ c = 3 := by
  cases o with
  | root => exact Or.inl ⟨rfl,(Option.some.inj ho).symm.trans h.2.2.1⟩
  | extra j => simp [startOf] at ho
  | file i =>
    cases hi : v.files i with
    | none =>
      rw [startOf,fileCtx,hi] at ho
      simp at ho
    | some n =>
      obtain ⟨rfl,rfl⟩ := h.file hi
      rw [startOf_file hi (rfl : smallFileNode.device = some ⟨3,2,0⟩) (by decide)] at ho
      exact Or.inr ⟨rfl,(Option.some.inj ho).symm⟩

theorem inRange (h2 : 2 ≤ c) (hlt : c < 10) : InRange v c := by
  obtain ⟨⟨-,-,-,-,-,htotal,-⟩,-⟩ := h
  exact ⟨h2,by omega⟩

theorem apart : ChainsApart v := by
  obtain ⟨⟨hspc,-⟩,-,-,-,h2,h3,-⟩ := id h
  refine .singles h.layout.few (fun o c ho => ?_) (fun o o' c ho ho' => ?_)
    (fun i n ctx hi hn _ => ?_)
  · rcases h.owner ho with ⟨-,rfl⟩ | ⟨-,rfl⟩
    · exact ⟨h.inRange le_rfl (by decide),h2⟩
    · exact ⟨h.inRange (by decide) (by decide),h3⟩
  · rcases h.owner ho with ⟨rfl,rfl⟩ | ⟨rfl,rfl⟩ <;>
      rcases h.owner ho' with ⟨rfl,hc⟩ | ⟨rfl,hc⟩ <;>
      first | rfl | exact absurd hc (by decide)
  · obtain ⟨-,rfl⟩ := h.file hi
    obtain rfl := Option.some.inj hn
    rw [Volume.clusterSize,hspc]
    exact ⟨by decide,by decide⟩

theorem home : EntryHome v smallFileNode ⟨3,2,0⟩ := by
  obtain ⟨⟨hspc,-,-,hdata,-⟩,-,hroot,-,h2,-,hcl,hsz⟩ := id h
  have hchain : IsChain v v.rootCluster [2] := by
    rw [hroot]
    exact isChain_one (h.inRange le_rfl (by decide)) h2
  refine ⟨by rw [hdata],fun x hx hin => ?_,hcl,hsz⟩
  obtain rfl : x = 2 := InCluster.unique hx.1 le_rfl hin (by
    rw [InCluster,hdata,hspc]
    decide)
  exact ⟨hchain.used 2 (by simp),h.apart.not_file (rootOwner v) hchain (by simp)⟩

end SmallFile

/-- A write over the end of the file of the image, into a cluster that is free. -/
theorem file_write_overlays_sample : ∃ v r v', fat32Init 3 (fun _ => true) smallFileVolume = some v ∧
    fat32FileWrite 700 (some (fun _ => 0#8)) 0 50 600 (fun _ => 7#8) v = some (r,v') ∧
    Overlays v v' 0 smallFileNode ⟨3,2,0⟩ 50 600 r (fun _ => 7#8) := by
  have hm : (fat32Init 3 (fun _ => true) smallFileVolume).map (fun v => decide (SmallFile v)) =
      some true := by decide +kernel
  obtain ⟨v,hv,he⟩ := Option.map_eq_some_iff.mp hm
  have h : SmallFile v := of_decide_eq_true he
  obtain ⟨r,v',hrun,ho⟩ := file_write_overlays h.layout h.2.1 h.apart (h.2.2.2.1 0) rfl rfl h.home
    50 600 700 (fun _ => 0#8) (fun _ => 7#8) (by decide) (by decide) (by decide)
  exact ⟨v,r,v',hv,hrun,ho⟩

end KiNBOL
