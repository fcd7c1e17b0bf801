import KiNBOL.Fs.EmptyCheck
import KiNBOL.Fs.FileIo

namespace KiNBOL

variable {v : Volume} {c i j n off len size fuel skip done : Nat} {buf : Sector} {k : Bool}

/-- The bytes of a file, cluster after cluster. -/
def fileByte (v : Volume) (c i : Nat) : Byte :=
  diskBytes v.disk (v.clusterToLba (chainAt v c (i/v.clusterSize))) (i%v.clusterSize)

/-- A chain has at least `n` clusters. -/
def HasClusters (v : Volume) (c n : Nat) : Prop := ∀ i < n, InChain (chainAt v c i)

theorem chainAt_succ (v : Volume) (c i : Nat) : chainAt v c (i+1) = chainAt v (fatAt v c) i := rfl

theorem chainAt_one (v : Volume) (c : Nat) : chainAt v c 1 = fatAt v c := rfl

theorem chainAt_add (v : Volume) (c i j : Nat) :
    chainAt v c (i+j) = chainAt v (chainAt v c i) j := by
  rw [chainAt,chainAt,chainAt,← Function.iterate_add_apply,Nat.add_comm]

theorem fileByte_small (h : i < v.clusterSize) (c : Nat) :
    fileByte v c i = diskBytes v.disk (v.clusterToLba c) i := by
  rw [fileByte,Nat.div_eq_of_lt h,Nat.mod_eq_of_lt h]
  rfl

/-- Bytes behind the first cluster are those of the rest of the chain. -/
theorem fileByte_next (h0 : 0 < v.clusterSize) (c i : Nat) :
    fileByte v c (v.clusterSize+i) = fileByte v (fatAt v c) i := by
  rw [fileByte,Nat.add_div_left i h0,Nat.add_mod_left]
  rfl

theorem fileByte_skip (h0 : 0 < v.clusterSize) (c j i : Nat) :
    fileByte v c (j*v.clusterSize+i) = fileByte v (chainAt v c j) i := by
  induction j generalizing c with
  | zero => rw [Nat.zero_mul,Nat.zero_add]; rfl
  | succ j ih =>
    rw [Nat.succ_mul,Nat.add_comm (j*v.clusterSize),Nat.add_assoc,fileByte_next h0,ih]
    rfl

/-- So many bytes from an offset in a cluster on reach to a length, or to the end of the chain. -/
structure ReadsTo (v : Volume) (c skip len r : Nat) : Prop where
  le : r ≤ len
  linked : ∀ i, 0 < i → i*v.clusterSize < skip+r → chainAt v c i < endOfChain
  stop : r = len ∨ ∃ m, 0 < m ∧ skip+r = m*v.clusterSize ∧ endOfChain ≤ chainAt v c m

/-- A chunk that ends the copy. -/
theorem ReadsTo.first (hin : skip+n ≤ v.clusterSize)
    (h : n = len ∨ n ≤ len ∧ skip+n = v.clusterSize ∧ endOfChain ≤ fatAt v c) :
    ReadsTo v c skip len n where
  le := by omega
  linked i hi hlt := by
    have := Nat.le_mul_of_pos_left v.clusterSize hi
    omega
  stop := by
    rw [← chainAt_one] at h
    exact h.imp id (fun h => ⟨1,Nat.one_pos,by omega,h.2.2⟩)

/-- A chunk up to the end of a cluster, and what comes from those behind it. -/
theorem ReadsTo.next {r : Nat} (h : ReadsTo v (fatAt v c) 0 (len-n) r)
    (hcs : skip+n = v.clusterSize) (hn : n ≤ len) (hlink : fatAt v c < endOfChain) :
    ReadsTo v c skip len (n+r) where
  le := by
    have := h.le
    omega
  linked i hi hlt := by
    cases i with
    | zero => exact absurd hi (Nat.lt_irrefl 0)
    | succ i =>
      rw [chainAt_succ]
      by_cases hi0 : i = 0
      · rw [hi0]
        exact hlink
      · refine h.linked i (by omega) ?_
        rw [Nat.succ_mul] at hlt
        omega
  stop := by
    cases h.stop with
    | inl hr => exact Or.inl (by omega)
    | inr hr =>
      obtain ⟨m,hm,he,hend⟩ := hr
      refine Or.inr ⟨m+1,Nat.succ_pos m,?_,?_⟩
      · rw [Nat.succ_mul]
        omega
      · rw [chainAt_succ]
        exact hend

section

variable (hq : v.io = [])

include hq

/-- The skip loop arrives at the cluster of the offset. -/
theorem readSkip_eq (hs : skip < v.clusterSize) (hf : j < fuel)
    (hc : ∀ i, 0 < i → i ≤ j → chainAt v c i < endOfChain) :
    readSkip fuel c (j*v.clusterSize+skip) v = some (some (chainAt v c j,skip),v) := by
  induction j generalizing c fuel with
  | zero =>
    obtain ⟨fuel,rfl⟩ : ∃ n, fuel = n+1 := ⟨fuel-1,by omega⟩
    rw [Nat.zero_mul,Nat.zero_add,readSkip,if_neg (by omega)]
    rfl
  | succ j ih =>
    obtain ⟨fuel,rfl⟩ : ∃ n, fuel = n+1 := ⟨fuel-1,by omega⟩
    have hnext : fatAt v c < endOfChain := hc 1 Nat.one_pos (by omega)
    rw [Nat.succ_mul,readSkip,if_pos (by omega),Volume.fatGetEntry_quiet hq]
    dsimp only
    have hrest : j*v.clusterSize+v.clusterSize+skip-v.clusterSize = j*v.clusterSize+skip := by omega
    rw [if_neg (by omega),hrest]
    exact ih (by omega) (fun i hi hij => hc (i+1) (by omega) (by omega))

/-- The copy loop stores bytes of the chain, up to the length or the end of the chain. -/
theorem readCopy_eq (c : Nat) (buf : Sector) (h0 : 0 < v.clusterSize) (hs : skip < v.clusterSize) (hd : done ≤ len)
    (hf : len-done < fuel) : ∃ r, ReadsTo v c skip (len-done) r ∧
      readCopy len fuel c skip done buf v =
        some ((done+r,overlay buf done r (fun i => fileByte v c (skip+i))),v) := by
  induction fuel generalizing c skip done buf with
  | zero => omega
  | succ fuel ih =>
    rw [readCopy]
    by_cases hlt : done < len
    · obtain ⟨cbuf,hread,hcbuf⟩ :=
        Volume.readSectors_quiet hq (v.clusterToLba c) v.sectorsPerCluster
      rw [if_pos hlt,hread]
      dsimp only
      have h1 := Nat.min_le_left (v.clusterSize-skip) (len-done)
      have h2 := Nat.min_le_right (v.clusterSize-skip) (len-done)
      have h3 := min_choice (v.clusterSize-skip) (len-done)
      generalize min (v.clusterSize-skip) (len-done) = chunk at *
      have hbytes : overlay buf done chunk (fun i => cbuf (skip+i)) =
          overlay buf done chunk (fun i => fileByte v c (skip+i)) := by
        apply overlay_congr
        intro i hi
        rw [fileByte_small (by omega),hcbuf _ (by rw [Volume.clusterSize] at *; omega)]
      rw [hbytes,Volume.fatGetEntry_quiet hq]
      dsimp only
      by_cases hend : endOfChain ≤ fatAt v c
      · rw [if_pos hend]
        exact ⟨chunk,.first (by omega) (h3.symm.imp id (fun h => ⟨by omega,by omega,hend⟩)),rfl⟩
      · rw [if_neg hend]
        obtain ⟨r,hr,hrun⟩ := ih (fatAt v c)
          (overlay buf done chunk (fun i => fileByte v c (skip+i))) h0
          (by omega : done+chunk ≤ len) (by omega)
        rw [hrun]
        have hle := hr.le
        by_cases hfull : chunk = len-done
        · obtain rfl : r = 0 := by omega
          rw [overlay_zero]
          exact ⟨chunk,.first (by omega) (Or.inl hfull),rfl⟩
        · -- the chunk ends with its cluster, the rest comes from the next one
          have hcs : skip+chunk = v.clusterSize := by omega
          rw [Nat.sub_add_eq] at hr
          have hrest : (fun i => fileByte v (fatAt v c) (0+i)) =
              fun i => fileByte v c (skip+(chunk+i)) := by
            funext i
            rw [Nat.zero_add,← Nat.add_assoc skip,hcs,fileByte_next h0]
          have hjoin := overlay_append buf (fun i => fileByte v c (skip+i)) done chunk r
          refine ⟨chunk+r,hr.next hcs h2 (by omega),?_⟩
          rw [hrest,hjoin,Nat.add_assoc]
    · rw [if_neg hlt]
      exact ⟨0,.first (by omega) (Or.inl (by omega)),by rw [overlay_zero]; rfl⟩

end

/-- The length that `fat32_file_read` goes on with: `off+len` is a `uint32_t`. -/
def readLen (size off len : Nat) : Nat := if size < u32 (off+len) then size-off else len

theorem readLen_le (size off len : Nat) : readLen size off len ≤ len := by
  have := Nat.mod_le (off+len) (2^32)
  rw [readLen,u32]
  split_ifs
  · omega
  · exact le_rfl

section

variable {node : FsNode} {ctx : FileCtx} (hq : v.io = []) (h0 : 0 < v.clusterSize)
  (hn : node.device = some ctx) (hoff : off < node.size)
  (hc : HasClusters v ctx.startCluster ((node.size+(v.clusterSize-1))/v.clusterSize))
  (hf : off+len < fuel)

include hq h0 hn hoff hc hf

/-- A read at an offset in the file copies from its cluster on, if it gets memory. -/
theorem fat32FileRead_copy : fat32FileRead fuel k node off len buf v =
    if k then readCopy (readLen node.size off len) fuel
      (chainAt v ctx.startCluster (off/v.clusterSize)) (off%v.clusterSize) 0 buf v
    else some ((0,buf),v) := by
  have hcount : ∀ i, i ≤ off/v.clusterSize → InChain (chainAt v ctx.startCluster i) := by
    intro i hi
    apply hc
    rw [Nat.lt_div_iff_mul_lt h0]
    have := Nat.div_mul_le_self off v.clusterSize
    have := Nat.mul_le_mul_right v.clusterSize hi
    omega
  have hstart : ctx.startCluster ≠ 0 := by
    have := (hcount 0 (Nat.zero_le _)).1
    rw [chainAt,Function.iterate_zero_apply] at this
    omega
  have hj := Nat.div_le_self off v.clusterSize
  have hskip := readSkip_eq (c := ctx.startCluster) hq (Nat.mod_lt off h0)
    (by omega : off/v.clusterSize < fuel) (fun i _ hi => (hcount i hi).2)
  rw [Nat.div_add_mod'] at hskip
  rw [fat32FileRead,hn]
  dsimp only
  rw [if_neg hstart,if_neg (Nat.not_le.mpr hoff),hskip]
  rfl

/-- What a read that gets memory does at an offset in the file. -/
theorem fat32FileRead_eq (buf : Sector) :
    ∃ r, ReadsTo v (chainAt v ctx.startCluster (off/v.clusterSize)) (off%v.clusterSize)
        (readLen node.size off len) r ∧
      fat32FileRead fuel true node off len buf v =
        some ((r,overlay buf 0 r (fun i => fileByte v ctx.startCluster (off+i))),v) := by
  have hlen := readLen_le node.size off len
  obtain ⟨r,hr,hrun⟩ := readCopy_eq hq (chainAt v ctx.startCluster (off/v.clusterSize)) buf h0
    (Nat.mod_lt off h0) (Nat.zero_le (readLen node.size off len)) (by omega : _ < fuel)
  have hbytes : (fun i => fileByte v (chainAt v ctx.startCluster (off/v.clusterSize))
      (off%v.clusterSize+i)) = fun i => fileByte v ctx.startCluster (off+i) := by
    funext i
    rw [← fileByte_skip h0,← Nat.add_assoc,Nat.div_add_mod']
  refine ⟨r,hr,?_⟩
  rw [fat32FileRead_copy hq h0 hn hoff hc hf,if_pos rfl,hrun,hbytes,Nat.zero_add]

end

theorem fat32FileRead_past {node : FsNode} (hoff : node.size ≤ off) (k : Bool) (buf : Sector) :
    fat32FileRead fuel k node off len buf v = some ((0,buf),v) := by
  rw [fat32FileRead]
  cases node.device with
  | none => rfl
  | some ctx =>
    dsimp only
    rw [if_pos hoff,ite_self]

/-- Where the chain of a file does not end before the file, a copy within the file is complete. -/
theorem ReadsTo.complete {r : Nat} (h0 : 0 < v.clusterSize)
    (hc : HasClusters v c ((size+(v.clusterSize-1))/v.clusterSize)) (hin : off+len ≤ size)
    (h : ReadsTo v (chainAt v c (off/v.clusterSize)) (off%v.clusterSize) len r) : r = len := by
  have hle := h.le
  cases h.stop with
  | inl hr => exact hr
  | inr hr =>
    obtain ⟨m,-,he,hend⟩ := hr
    by_contra hne
    rw [← chainAt_add] at hend
    have hsplit := Nat.div_add_mod' off v.clusterSize
    have hin' : off/v.clusterSize+m < (size+(v.clusterSize-1))/v.clusterSize := by
      rw [Nat.lt_div_iff_mul_lt h0,Nat.add_mul]
      omega
    exact absurd (hc _ hin').2 (Nat.not_lt.mpr hend)

/-- A copy that is not limited by the file ends with it when the chain ends there. -/
theorem ReadsTo.at_end {r : Nat} (h0 : 0 < v.clusterSize)
    (hc : HasClusters v c ((size+(v.clusterSize-1))/v.clusterSize)) (hoff : off < size)
    (hlen : size < off+len)
    (h : ReadsTo v (chainAt v c (off/v.clusterSize)) (off%v.clusterSize) len r) :
    r = size-off ↔ v.clusterSize ∣ size ∧ endOfChain ≤ chainAt v c (size/v.clusterSize) := by
  have hsplit := Nat.div_add_mod' off v.clusterSize
  constructor
  · intro hr
    obtain ⟨m,-,he,hend⟩ := h.stop.resolve_left (by omega)
    have hsize : size = (off/v.clusterSize+m)*v.clusterSize := by
      rw [Nat.add_mul]
      omega
    rw [← chainAt_add] at hend
    rw [hsize,Nat.mul_div_cancel _ h0]
    exact ⟨Nat.dvd_mul_left ..,hend⟩
  · intro hend
    obtain ⟨⟨m,rfl⟩,hend⟩ := hend
    rw [Nat.mul_div_cancel_left _ h0] at hend
    have hm : off/v.clusterSize < m := by
      rw [Nat.div_lt_iff_lt_mul h0,Nat.mul_comm]
      exact hoff
    obtain ⟨d,rfl⟩ := Nat.exists_eq_add_of_lt hm
    rw [Nat.add_assoc,chainAt_add] at hend
    have hmul : v.clusterSize*(off/v.clusterSize+d+1) =
        off/v.clusterSize*v.clusterSize+(d+1)*v.clusterSize := by
      rw [Nat.add_assoc,Nat.mul_comm,Nat.add_mul]
    have hnot : ¬(d+1)*v.clusterSize < off%v.clusterSize+r :=
      fun hlt => absurd (h.linked (d+1) (Nat.succ_pos d) hlt) (Nat.not_lt.mpr hend)
    cases h.stop with
    | inl hr => omega
    | inr hr =>
      obtain ⟨m',-,he,hend'⟩ := hr
      rw [← chainAt_add] at hend'
      by_contra hne
      have hin : off/v.clusterSize+m' <
          (v.clusterSize*(off/v.clusterSize+d+1)+(v.clusterSize-1))/v.clusterSize := by
        rw [Nat.lt_div_iff_mul_lt h0,Nat.add_mul]
        omega
      exact absurd (hc _ hin).2 (Nat.not_lt.mpr hend')

/-- A read whose end is a 32-bit number. -/
theorem fat32FileRead_fits (buf : Sector) {node : FsNode} {ctx : FileCtx} (hq : v.io = []) (h0 : 0 < v.clusterSize)
    (hn : node.device = some ctx)
    (hc : HasClusters v ctx.startCluster ((node.size+(v.clusterSize-1))/v.clusterSize))
    (hf : off+len < fuel) (hend : off+len < 2^32) : fat32FileRead fuel true node off len buf v =
      some ((min len (node.size-off),overlay buf 0 (min len (node.size-off))
        (fun i => fileByte v ctx.startCluster (off+i))),v) := by
  by_cases hoff : off < node.size
  · have hmin : readLen node.size off len = min len (node.size-off) := by
      rw [readLen,u32,Nat.mod_eq_of_lt hend]
      split_ifs <;> omega
    obtain ⟨r,hr,hrun⟩ := fat32FileRead_eq hq h0 hn hoff hc hf buf
    rw [hrun,hr.complete h0 hc (by omega),hmin]
  · rw [fat32FileRead_past (by omega),Nat.sub_eq_zero_of_le (by omega),Nat.min_zero,overlay_zero]

/-- `fat32_file_read` returns the number of bytes left in the file, if that is less than the length,
and stores these bytes and no more. -/
def ReadsRight (k : Bool) (node : FsNode) (ctx : FileCtx) (off len : Nat) (v : Volume) : Prop :=
  ∀ fuel buf, off+len < fuel → fat32FileRead fuel k node off len buf v =
    some ((min len (node.size-off),overlay buf 0 (min len (node.size-off))
      (fun i => fileByte v ctx.startCluster (off+i))),v)

/-- The read is at the end of the file, or it gets the memory it needs and its end is a 32-bit
number, or else the end of the chain ends it where the file ends. -/
def ReadFits (k : Bool) (node : FsNode) (ctx : FileCtx) (off len : Nat) (v : Volume) : Prop :=
  node.size ≤ off ∨ (k = true ∨ len = 0) ∧ (off+len < 2^32 ∨ v.clusterSize ∣ node.size ∧
    endOfChain ≤ chainAt v ctx.startCluster (node.size/v.clusterSize))

/-- `fat32_file_read` returns the bytes of the file and no others exactly when the read fits. -/
theorem file_read_iff {node : FsNode} {ctx : FileCtx} (hq : v.io = [])
    (h0 : 0 < v.sectorsPerCluster) (hn : node.device = some ctx) (hsize : node.size < 2^32)
    (hoff : off < 2^32) (hlen : len < 2^32)
    (hc : HasClusters v ctx.startCluster ((node.size+(v.clusterSize-1))/v.clusterSize)) :
    ReadsRight k node ctx off len v ↔ ReadFits k node ctx off len v := by
  have h0' : 0 < v.clusterSize := by
    rw [Volume.clusterSize]
    omega
  by_cases hpast : node.size ≤ off
  · refine ⟨fun _ => Or.inl hpast,fun _ fuel buf _ => ?_⟩
    rw [fat32FileRead_past hpast,Nat.sub_eq_zero_of_le hpast,Nat.min_zero,overlay_zero]
  have hoff' : off < node.size := Nat.not_le.mp hpast
  cases k with
  | false =>
    have hnone : ∀ fuel buf, off+len < fuel →
        fat32FileRead fuel false node off len buf v = some ((0,buf),v) :=
      fun fuel buf hf => fat32FileRead_copy hq h0' hn hoff' hc hf
    constructor
    · intro h
      have hzero := h (off+len+1) (fun _ => 0#8) (Nat.lt_succ_self _)
      rw [hnone _ _ (Nat.lt_succ_self _),Option.some.injEq,Prod.mk.injEq,Prod.mk.injEq] at hzero
      have hlen0 : len = 0 := by omega
      exact Or.inr ⟨Or.inr hlen0,Or.inl (by omega)⟩
    · intro h fuel buf hf
      have hlen0 : len = 0 := by
        rcases h with h | ⟨h | h,-⟩
        · exact absurd h hpast
        · exact absurd h Bool.false_ne_true
        · exact h
      rw [hnone fuel buf hf,hlen0,Nat.zero_min,overlay_zero]
  | true =>
    by_cases hwrap : off+len < 2^32
    · refine ⟨fun _ => Or.inr ⟨Or.inl rfl,Or.inl hwrap⟩,fun _ fuel buf hf => ?_⟩
      exact fat32FileRead_fits buf hq h0' hn hc hf hwrap
    · -- the sum wraps to less than the offset, so that the length stays as it is
      have hlong : readLen node.size off len = len := by
        rw [readLen,u32,if_neg]
        omega
      have hmin : min len (node.size-off) = node.size-off := by omega
      have hiff : ∀ r, ReadsTo v (chainAt v ctx.startCluster (off/v.clusterSize))
          (off%v.clusterSize) (readLen node.size off len) r → (r = node.size-off ↔ _) :=
        fun r hr => (hlong ▸ hr).at_end h0' hc hoff' (by omega)
      constructor
      · intro h
        obtain ⟨r,hr,hrun⟩ := fat32FileRead_eq hq h0' hn hoff' hc
          (Nat.lt_succ_self (off+len)) (fun _ => 0#8)
        rw [h _ _ (Nat.lt_succ_self _),hmin,Option.some.injEq,Prod.mk.injEq,Prod.mk.injEq] at hrun
        exact Or.inr ⟨Or.inl rfl,Or.inr ((hiff r hr).mp hrun.1.1.symm)⟩
      · intro h fuel buf hf
        have hend := (h.resolve_left hpast).2.resolve_left hwrap
        obtain ⟨r,hr,hrun⟩ := fat32FileRead_eq hq h0' hn hoff' hc hf buf
        rw [hrun,(hiff r hr).mpr hend,hmin]

/-- An image whose root holds a file of 100 bytes in one cluster. -/
def smallFileDisk : Disk := fun lba =>
  if lba = 0 then smallBpb
  else if lba = 1 then put32 (put32 (fun _ => 0#8) 8 0x0FFFFFFF) 12 0x0FFFFFFF
  else if lba = 2 then putSlot (fun _ => 0#8) 0 (dirEntry (toShortName (named ['A'])) 0x20#8 3 100)
  else fun _ => 0#8

def smallFileVolume : Volume := bootVolume (fun _ => true) 1 0 smallFileDisk []

def smallFileNode : FsNode := ⟨named ['A'],vfsFile,100,some ⟨3,2,0⟩⟩

theorem inChain_three : InChain 3 := ⟨by decide,by decide⟩

theorem smallFile_found : ∃ v, fat32Init 3 (fun _ => true) smallFileVolume = some v ∧ v.io = [] ∧
    v.sectorsPerCluster = 1 ∧ v.node (.file 0) = some smallFileNode ∧
    HasClusters v 3 ((100+(v.clusterSize-1))/v.clusterSize) := by
  have hm : (fat32Init 3 (fun _ => true) smallFileVolume).map (fun v => decide (
      v.io = [] ∧ v.sectorsPerCluster = 1 ∧ v.node (.file 0) = some smallFileNode)) =
      some true := by decide +kernel
  obtain ⟨v,hv,he⟩ := Option.map_eq_some_iff.mp hm
  obtain ⟨hio,hspc,hnode⟩ := of_decide_eq_true he
  refine ⟨v,hv,hio,hspc,hnode,?_⟩
  rw [Volume.clusterSize,hspc]
  intro i hi
  obtain rfl : i = 0 := by omega
  exact inChain_three

theorem file_read_iff_sample : ∃ v, fat32Init 3 (fun _ => true) smallFileVolume = some v ∧
    v.node (.file 0) = some smallFileNode ∧ ReadsRight true smallFileNode ⟨3,2,0⟩ 10 200 v := by
  obtain ⟨v,hv,hio,hspc,hnode,hc⟩ := smallFile_found
  have hfits : ReadFits true smallFileNode ⟨3,2,0⟩ 10 200 v :=
    Or.inr ⟨Or.inl rfl,Or.inl (by decide)⟩
  refine ⟨v,hv,hnode,?_⟩
  exact (file_read_iff hio (by omega) rfl (by decide) (by decide) (by decide)
    hc).mpr hfits

/-- A read of the file from its tenth byte on with the greatest length runs to the end of the
cluster. -/
theorem read_behind_file : ∃ v, fat32Init 3 (fun _ => true) smallFileVolume = some v ∧ v.io = [] ∧
    v.node (.file 0) = some smallFileNode ∧
    HasClusters v 3 ((100+(v.clusterSize-1))/v.clusterSize) ∧
    ¬ReadsRight true smallFileNode ⟨3,2,0⟩ 10 (2^32-1) v := by
  obtain ⟨v,hv,hio,hspc,hnode,hc⟩ := smallFile_found
  refine ⟨v,hv,hio,hnode,hc,fun hright => ?_⟩
  have h0 : 0 < v.clusterSize := by
    rw [Volume.clusterSize,hspc]
    decide
  have hoff : 10 < smallFileNode.size := by decide
  obtain ⟨r,hr,hrun⟩ := fat32FileRead_eq hio h0 rfl hoff hc
    (Nat.lt_succ_self (10+(2^32-1))) (fun _ => 0#8)
  rw [hright _ _ (Nat.lt_succ_self _),Option.some.injEq,Prod.mk.injEq,Prod.mk.injEq] at hrun
  have hdvd := ((hr.at_end h0 hc (by decide) (by decide)).mp hrun.1.1.symm).1
  rw [Volume.clusterSize,hspc] at hdvd
  revert hdvd
  decide

theorem map_overlay (buf src : Nat → Byte) (n : Nat) :
    (List.range n).map (overlay buf 0 n src) = (List.range n).map src := by
  apply List.map_congr_left
  intro i hi
  have hin := overlay_in buf src 0 (List.mem_range.mp hi)
  rwa [Nat.zero_add] at hin

end KiNBOL
