import KiNBOL.Fs.OwnChains
import KiNBOL.Fs.Removal

namespace KiNBOL

/-! Reads of files that keep their clusters to themselves. -/

/-- Bytes of the chain of a file from an offset on. -/
structure ChainBytes (b : Volume) (c : Nat) (cs : List Nat) (off : Nat) (bs : List Byte) : Prop where
  chain : IsChain b c cs
  inside : off+bs.length ≤ cs.length*b.clusterSize
  bytes : bs = (List.range bs.length).map (fun j => fileByte b c (off+j))

/-- Clusters that no walk comes to but that over the file in a slot. -/
structure OnlyOf (v : Volume) (i : Fin 40) (cs : List Nat) : Prop where
  files : ∀ j a x, j ≠ i → FileStart v j a → Visits v a x → x ∉ cs
  dirs : ∀ a x, DirStart v a → Visits v a x → x ∉ cs

/-- The clusters of the directories, and the free ones. -/
def dirArea (v : Volume) : Set Nat :=
  {c | InRange v c ∧ (fatAt v c = 0 ∨ ∃ a, DirStart v a ∧ Visits v a c)}

variable {D : Set Nat} {b v v' w : Volume} {a c x fuel skip done len off got : Nat} {cs ds : List Nat}
  {k : Bool} {buf buf' : Sector} {i : Fin 40} {n : FsNode} {ctx : FileCtx}

theorem Visits.link (h : Visits v a c) (hin : InChain (fatAt v c)) : Visits v a (fatAt v c) := by
  induction h with
  | here hc => exact .next hc (.here hin)
  | next hc _ ih => exact .next hc (ih hin)

theorem OnlyIo.clusterSize (h : OnlyIo v w) : w.clusterSize = v.clusterSize := by
  unfold OnlyIo at h
  rw [h]
  rfl

/-- A walk does not leave clusters whose links lead to each other. -/
theorem Visits.closed {S : Set Nat} (h : Visits v a c) (ha : InChain a → a ∈ S)
    (hS : ∀ x ∈ S, InChain (fatAt v x) → fatAt v x ∈ S) : c ∈ S := by
  induction h with
  | here hc => exact ha hc
  | next hc _ ih => exact ih (hS _ (ha hc))

/-- A walk over a chain comes to its clusters. -/
theorem IsChain.visits (h : IsChain v c cs) (hl : DiskLayout v) : Visits v c x ↔ x ∈ cs := by
  constructor
  · intro hx
    induction hx generalizing cs with
    | @here c hc =>
      cases cs with
      | nil =>
        have hend : endOfChain ≤ c := h
        have := hc.2
        omega
      | cons y cs =>
        rw [h.1]
        exact List.mem_cons_self
    | @next c d hc _ ih =>
      cases cs with
      | nil =>
        have hend : endOfChain ≤ c := h
        have := hc.2
        omega
      | cons y cs =>
        obtain ⟨rfl,-,hrest⟩ := h
        exact List.mem_cons_of_mem _ (ih hrest)
  · intro hx
    induction cs generalizing c with
    | nil => simp at hx
    | cons y cs ih =>
      obtain ⟨rfl,hy,hrest⟩ := h
      have hin := hl.inChain hy
      rcases List.mem_cons.mp hx with rfl | hx
      · exact .here hin
      · exact .next hin (ih hrest hx)

theorem FilesApart.hub (h : FilesApart v) (ha : DirStart v a) : Hub (dirArea v) a := by
  obtain ⟨hlt,hin⟩ := h.dirs a ha
  by_cases h2 : 2 ≤ a
  · have hv := Visits.here (v := v) ⟨h2,hlt⟩
    exact Or.inl ⟨hin a hv,Or.inr ⟨a,ha,hv⟩⟩
  · exact Or.inr (by omega)

/-- Right after a mount. -/
theorem FilesApart.mounted (h : FilesApart v) (ho : ∀ i, (v.others i).device = none) :
    Apart (dirArea v) v v := by
  refine ⟨⟨h.layout,fun c hc => hc.1,fun c hc h0 => ⟨hc,Or.inl h0⟩,fun c hc hin => ?_⟩,
    ⟨⟨rfl,rfl⟩,rfl⟩,h.hub .root,fun i n ctx hi hctx => ⟨h.hub (.entry hi hctx),
      fun hd => h.hub (.dir hi hctx hd),fun hd => ?_⟩,
    fun i j c d cs ds hi hj hcs hds hne x hx hx' => ?_,ho⟩
  · obtain ⟨-,h0 | ⟨a,ha,hv⟩⟩ := hc
    · rw [h0] at hin
      exact absurd hin (by decide)
    · have hv' := hv.link hin
      exact ⟨(h.dirs a ha).2 _ hv',Or.inr ⟨a,ha,hv'⟩⟩
  · have hstart : FileStart v i ctx.startCluster := ⟨n,ctx,hi,hd,hctx,rfl⟩
    refine (h.ends i _ hstart).imp id ?_
    rintro ⟨hin,cs,hcs⟩
    refine ⟨cs,hin,hcs,fun x hx hD => ?_,fun _ _ => rfl,fun _ _ _ _ => rfl⟩
    obtain ⟨-,h0 | ⟨a,ha,hv⟩⟩ := hD
    · exact hcs.used x hx h0
    · exact h.dirsApart i _ a x hstart ha ((hcs.visits h.layout).mpr hx) hv
  · exact hne (h.apart i j c d x hi hj ((hcs.visits h.layout).mpr hx)
      ((hds.visits h.layout).mpr hx'))

/-- Nobody else comes to the clusters of a file. -/
theorem Apart.onlyOf (h : Apart D b v) (hl : DiskLayout b) (hi : v.files i = some n)
    (hctx : n.device = some ctx) (hd : n.isDir = false) (hcs : IsChain b ctx.startCluster cs) :
    OnlyOf v i cs := by
  have hout := h.out hl hi hctx hd hcs
  constructor
  · rintro j a x hne ⟨m,ctx',hj,hd',hm,rfl⟩ hv hx
    rcases (h.node j m ctx' hj hm).file hd' with h0 | ⟨ds,hds⟩
    · rw [h0] at hv
      cases hv with
      | here hin => exact absurd hin (by decide)
      | next hin _ => exact absurd hin (by decide)
    · have hmem := ((hds.now h.same).visits h.area.layout).mp hv
      exact h.apart j i _ _ ds cs ⟨m,ctx',hj,hd',hm,rfl⟩ ⟨n,ctx,hi,hd,hctx,rfl⟩ hds.chain hcs hne x
        hmem hx
  · intro a x ha hv hx
    have hhub : Hub D a := by
      cases ha with
      | root => exact h.root
      | dir hj hm hd' => exact (h.node _ _ _ hj hm).dir hd'
      | entry hj hm =>
        rw [h.same.lbaToCluster]
        exact (h.node _ _ _ hj hm).entry
    exact hout x hx (hv.closed hhub.leads h.area.link)

theorem IsChain.uncons (h : IsChain v c cs) (hc : InChain c) :
    ∃ ys, cs = c::ys ∧ IsChain v (fatAt v c) ys := by
  obtain ⟨ys,rfl⟩ : ∃ ys, cs = c::ys := Chained.head h (fun he => Nat.not_lt.mpr he hc.2)
  exact ⟨ys,rfl,h.2.2⟩

/-- Where a chain does not end it goes on with one of its clusters. -/
theorem IsChain.goes (h : IsChain v c cs) (hc : ¬endOfChain ≤ c) : InChain c := by
  cases cs with
  | nil => exact absurd h hc
  | cons y ys =>
    obtain ⟨rfl,hr,-⟩ := h
    exact ⟨hr.1,Nat.not_le.mp hc⟩

/-- A FAT entry that does not end a walk was read. -/
theorem OnlyIo.entry (ho : OnlyIo b v) (h : ¬endOfChain ≤ (v.fatGetEntry c).1) :
    (v.fatGetEntry c).1 = KiNBOL.fatAt b c := by
  rcases (v.fatGetEntry_only c).2 with he | he
  · rw [he,ho.fatAt]
  · rw [he] at h
    exact absurd h (by decide)

theorem readSkip_only {cluster skip : Nat} {r : Option (Nat × Nat)}
    (h : readSkip fuel cluster skip v = some (r,v')) : OnlyIo v v' := by
  induction fuel generalizing cluster skip v with
  | zero => simp [readSkip] at h
  | succ fuel ih =>
    rw [readSkip] at h
    split_ifs at h with hskip
    · obtain ⟨ho,-⟩ := v.fatGetEntry_only cluster
      dsimp only at h
      split_ifs at h
      · rw [← (Prod.mk.inj (Option.some.inj h)).2]
        exact ho
      · exact ho.trans (ih h)
    · rw [← (Prod.mk.inj (Option.some.inj h)).2]
      exact OnlyIo.refl v

theorem readCopy_only {len cluster skip done : Nat} {buf : Sector} {r : Nat × Sector}
    (h : readCopy len fuel cluster skip done buf v = some (r,v')) : OnlyIo v v' := by
  induction fuel generalizing cluster skip done buf v with
  | zero => simp [readCopy] at h
  | succ fuel ih =>
    rw [readCopy] at h
    split_ifs at h
    · obtain ⟨ho,-⟩ := v.readSectors_only (v.clusterToLba cluster) v.sectorsPerCluster
      split at h
      next w hw =>
        rw [hw] at ho
        rw [← (Prod.mk.inj (Option.some.inj h)).2]
        exact ho
      next cbuf w hw =>
        rw [hw] at ho
        obtain ⟨ho',-⟩ := w.fatGetEntry_only cluster
        dsimp only at h
        split_ifs at h
        · rw [← (Prod.mk.inj (Option.some.inj h)).2]
          exact ho.trans ho'
        · exact (ho.trans ho').trans (ih h)
    · rw [← (Prod.mk.inj (Option.some.inj h)).2]
      exact OnlyIo.refl v

/-- `fat32_file_read` changes nothing. -/
theorem fat32FileRead_only {k : Bool} {n : FsNode} {off len : Nat} {buf : Sector} {r : Nat × Sector}
    (h : fat32FileRead fuel k n off len buf v = some (r,v')) : OnlyIo v v' := by
  have hsame : ∀ {x : Nat × Sector} {w : Volume}, some (x,w) = some (r,v') → w = v' :=
    fun he => (Prod.mk.inj (Option.some.inj he)).2
  rw [fat32FileRead] at h
  split at h
  next =>
    rw [← hsame h]
    exact OnlyIo.refl v
  next ctx _ =>
    by_cases hzero : ctx.startCluster = 0
    · rw [if_pos hzero] at h
      rw [← hsame h]
      exact OnlyIo.refl v
    rw [if_neg hzero] at h
    by_cases hpast : n.size ≤ off
    · rw [if_pos hpast] at h
      rw [← hsame h]
      exact OnlyIo.refl v
    rw [if_neg hpast] at h
    dsimp only at h
    split at h
    next => simp at h
    next hskip =>
      rw [← hsame h]
      exact readSkip_only hskip
    next hskip =>
      by_cases hk : k = true
      · rw [if_pos hk] at h
        exact (readSkip_only hskip).trans (readCopy_only h)
      · rw [if_neg hk] at h
        rw [← hsame h]
        exact readSkip_only hskip

section

variable (ho : OnlyIo b v)

include ho

/-- The skip loop comes to a cluster of the chain, if it does not leave the read. -/
theorem readSkip_own (hin : InChain c) (hcs : IsChain b c cs) {d r : Nat}
    (hrun : readSkip fuel c skip v = some (some (d,r),w)) : ∃ j ds, skip = j*b.clusterSize+r ∧
      r < b.clusterSize ∧ d = chainAt b c j ∧ InChain d ∧ IsChain b d ds ∧
      ds.length+j = cs.length := by
  induction fuel generalizing c skip v cs with
  | zero => simp [readSkip] at hrun
  | succ fuel ih =>
    rw [readSkip,ho.clusterSize] at hrun
    split_ifs at hrun with hle
    · obtain ⟨ho',-⟩ := v.fatGetEntry_only c
      dsimp only at hrun
      rw [(ho.trans ho').clusterSize] at hrun
      split_ifs at hrun with hend
      · simp at hrun
      · have heq := ho.entry hend
        rw [heq] at hrun hend
        obtain ⟨ys,rfl,hrest⟩ := hcs.uncons hin
        obtain ⟨j,ds,hskip,hr,hd,hdin,hds,hlen⟩ := ih (ho.trans ho') (hrest.goes hend) hrest hrun
        refine ⟨j+1,ds,?_,hr,by rw [hd,chainAt_succ],hdin,hds,by rw [List.length_cons]; omega⟩
        rw [Nat.succ_mul]
        omega
    · obtain ⟨rfl,rfl⟩ := Prod.mk.inj (Option.some.inj (Prod.mk.inj (Option.some.inj hrun)).1)
      exact ⟨0,cs,by omega,by omega,rfl,hin,hcs,rfl⟩

/-- The copy loop stores bytes of the chain, however it ends. -/
theorem readCopy_own (hin : InChain c) (hcs : IsChain b c cs) (hs : skip < b.clusterSize)
    (hrun : readCopy len fuel c skip done buf v = some ((got,buf'),w)) : ∃ r, got = done+r ∧
      r ≤ len-done ∧ (r = 0 ∨ skip+r ≤ cs.length*b.clusterSize) ∧
      buf' = overlay buf done r (fun j => fileByte b c (skip+j)) := by
  induction fuel generalizing c skip done buf v cs with
  | zero => simp [readCopy] at hrun
  | succ fuel ih =>
    obtain ⟨ys,rfl,hrest⟩ := hcs.uncons hin
    have hlen : (c::ys).length*b.clusterSize = ys.length*b.clusterSize+b.clusterSize := by
      rw [List.length_cons,Nat.succ_mul]
    have hstop : ∀ {x : Nat × Sector} {u : Volume}, some (x,u) = some ((got,buf'),w) →
        x = (got,buf') := fun he => (Prod.mk.inj (Option.some.inj he)).1
    rw [readCopy] at hrun
    split_ifs at hrun with hlt
    · obtain ⟨ho1,hread⟩ := v.readSectors_only (v.clusterToLba c) v.sectorsPerCluster
      split at hrun
      next u heq =>
        obtain ⟨rfl,rfl⟩ := Prod.mk.inj (hstop hrun)
        exact ⟨0,rfl,Nat.zero_le _,Or.inl rfl,by rw [overlay_zero]⟩
      next cbuf u heq =>
        rw [heq] at ho1 hread
        have hou : OnlyIo b u := ho.trans ho1
        obtain ⟨ho2,-⟩ := u.fatGetEntry_only c
        dsimp only at hrun
        rw [hou.clusterSize] at hrun
        have hmin : min (b.clusterSize-skip) (len-done) ≤ b.clusterSize-skip := Nat.min_le_left ..
        have hfull : min (b.clusterSize-skip) (len-done) = b.clusterSize-skip ∨
            min (b.clusterSize-skip) (len-done) = len-done := min_choice ..
        have hle : min (b.clusterSize-skip) (len-done) ≤ len-done := Nat.min_le_right ..
        generalize min (b.clusterSize-skip) (len-done) = chunk at hrun hmin hfull hle
        have hbytes : overlay buf done chunk (fun j => cbuf (skip+j)) =
            overlay buf done chunk (fun j => fileByte b c (skip+j)) := by
          apply overlay_congr
          intro j hj
          have hv : v.sectorsPerCluster = b.sectorsPerCluster := by rw [ho]
          have hlba : v.clusterToLba c = b.clusterToLba c := by rw [ho]; rfl
          rw [fileByte_small (by omega),hread cbuf rfl _ (by
            rw [hv]
            rw [Volume.clusterSize] at *
            omega),ho.disk,hlba]
        rw [hbytes] at hrun
        split_ifs at hrun with hend
        · obtain ⟨rfl,rfl⟩ := Prod.mk.inj (hstop hrun)
          exact ⟨chunk,rfl,hle,Or.inr (by omega),rfl⟩
        · have heq' := hou.entry hend
          rw [heq'] at hrun hend
          obtain ⟨r,hgot,hrle,hr,hbuf⟩ := ih (hou.trans ho2) (hrest.goes hend) hrest (by omega) hrun
          by_cases hz : r = 0
          · subst hz
            rw [overlay_zero] at hbuf
            exact ⟨chunk,by omega,hle,Or.inr (by omega),hbuf⟩
          · -- more bytes come from the next cluster, so the chunk ended with this one
            have hcs' : skip+chunk = b.clusterSize := by omega
            have hrest' : (fun j => fileByte b (fatAt b c) (0+j)) =
                fun j => fileByte b c (skip+(chunk+j)) := by
              funext j
              rw [Nat.zero_add,← Nat.add_assoc skip,hcs',fileByte_next (by omega)]
            refine ⟨chunk+r,by omega,by omega,Or.inr (by omega),?_⟩
            rw [hbuf,hrest',overlay_append buf (fun j => fileByte b c (skip+j))]
    · obtain ⟨rfl,rfl⟩ := Prod.mk.inj (hstop hrun)
      exact ⟨0,rfl,Nat.zero_le _,Or.inl rfl,by rw [overlay_zero]⟩

end

/-- What `fat32_file_read` returns of a file: no bytes, or bytes of its chain. -/
theorem fat32FileRead_own (hin : InChain ctx.startCluster) (hcs : IsChain v ctx.startCluster cs)
    (hn : n.device = some ctx)
    (hrun : fat32FileRead fuel k n off len buf v = some ((got,buf'),w)) : got = 0 ∨
      off+got ≤ cs.length*v.clusterSize ∧
      ∀ j < got, buf' j = fileByte v ctx.startCluster (off+j) := by
  have hnone : ∀ {x : Sector} {u : Volume}, some ((0,x),u) = some ((got,buf'),w) → got = 0 :=
    fun he => (Prod.mk.inj (Prod.mk.inj (Option.some.inj he)).1).1.symm
  rw [fat32FileRead,hn] at hrun
  dsimp only at hrun
  by_cases hzero : ctx.startCluster = 0
  · rw [if_pos hzero] at hrun
    exact Or.inl (hnone hrun)
  rw [if_neg hzero] at hrun
  by_cases hpast : n.size ≤ off
  · rw [if_pos hpast] at hrun
    exact Or.inl (hnone hrun)
  rw [if_neg hpast] at hrun
  split at hrun
  next => simp at hrun
  next => exact Or.inl (hnone hrun)
  next d r u hskip =>
    by_cases hk : k = true
    · rw [if_pos hk] at hrun
      obtain ⟨j,ds,hoff,hr,hd,hdin,hds,hlen⟩ := readSkip_own (.refl v) hin hcs hskip
      obtain ⟨x,hgot,-,hx,hbuf⟩ := readCopy_own (readSkip_only hskip) hdin hds hr hrun
      rw [Nat.zero_add] at hgot
      subst hgot
      refine hx.imp id (fun hx => ⟨?_,fun y hy => ?_⟩)
      · rw [← hlen,Nat.add_mul]
        omega
      · rw [hbuf,overlay,if_pos (by omega),hd,Nat.sub_zero,← fileByte_skip (by omega),hoff,
          ← Nat.add_assoc]
    · rw [if_neg hk] at hrun
      exact Or.inl (hnone hrun)

/-- Bytes of a chain that is as the mount found it. -/
theorem OwnChain.fileByte (h : OwnChain D b v c cs) (hs : SameClusters b v) (hl : DiskLayout b)
    {j : Nat} (hj : j < cs.length*b.clusterSize) :
    KiNBOL.fileByte v c j = KiNBOL.fileByte b c j := by
  have h0 : 0 < b.clusterSize := Nat.pos_of_ne_zero (fun h0 => by simp [h0] at hj)
  have hsize := hs.places.clusterSize
  rw [fileByte_list (h.now hs) (by rw [hsize]; exact h0) (by rw [hsize]; exact hj),
    fileByte_list h.chain h0 hj,listByte_congr hs.places hl (Chained.all_ok h.chain) h.data hj]

end KiNBOL
