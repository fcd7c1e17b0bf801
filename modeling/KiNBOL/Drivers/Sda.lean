import KiNBOL.Framework.Overlay
import KiNBOL.Fs.Volume

namespace KiNBOL

/-- What the turns of a loop over sectors meet: whether the page allocation, the sector read and the
sector write of each turn succeed, and what the allocated page holds. -/
structure SectorTurns where
  page : Nat → Bool
  read : Nat → Bool
  write : Nat → Bool
  fresh : Nat → Sector

/-- `active_port`, `disk_size` and the contents of the disk. -/
structure Sda where
  active : Bool
  diskSize : Nat
  disk : Disk

/-- The value returned, the caller's buffer, and whether `ahci_read` failed. -/
structure SdaRead where
  done : Nat
  buf : Nat → Byte
  failed : Bool

/-- The part of a sector that a turn is about. -/
def sdaChunk (len : Nat) (skip : Fin 512) (done : Nat) : Nat :=
  if 512-skip.val > len-done then len-done else 512-skip.val

theorem sdaChunk_eq (len : Nat) (skip : Fin 512) (done : Nat) :
    sdaChunk len skip done = min (512-skip.val) (len-done) := by
  unfold sdaChunk
  split_ifs <;> omega

/-- The loop of `sda_read`, from turn `k` on. -/
def sdaReadLoop (d : Disk) (o : SectorTurns) (len k sector : Nat) (skip : Fin 512) (done : Nat)
    (buf : Nat → Byte) : SdaRead :=
  if done < len then
    if !o.page k then ⟨done,buf,false⟩
    else if !o.read k then ⟨done,buf,true⟩
    else
      let chunk := sdaChunk len skip done
      sdaReadLoop d o len (k+1) (sector+1) 0 (done+chunk) (copyLoop buf done (d sector) skip chunk)
  else ⟨done,buf,false⟩
termination_by len-done
decreasing_by
  have hskip := skip.isLt
  rw [sdaChunk_eq]
  omega

/-- The size of the disk for the driver, 512 MiB where it is not known. -/
def Sda.size (s : Sda) : Nat := if s.diskSize = 0 then 512*1024*1024 else s.diskSize

def sdaRead (s : Sda) (o : SectorTurns) (off len : BitVec 32) (buf : Nat → Byte) : SdaRead :=
  if !s.active then ⟨0,buf,false⟩
  else if s.size ≤ off.toNat then ⟨0,buf,false⟩
  else
    let len := if (off+len).toNat > s.size then u32 (s.size-off.toNat) else len.toNat
    sdaReadLoop s.disk o len 0 (off.toNat/512) ⟨off.toNat%512,Nat.mod_lt _ (by decide)⟩ 0 buf

/-- The loop of `sda_write`: the value returned and the disk. -/
def sdaWriteLoop (o : SectorTurns) (len : Nat) (buf : Nat → Byte) (k sector : Nat) (skip : Fin 512)
    (done : Nat) (d : Disk) : Nat × Disk :=
  if done < len then
    if !o.page k then (done,d)
    else
      let chunk := sdaChunk len skip done
      let whole := skip = 0 ∧ chunk = 512
      if ¬whole ∧ !o.read k then (done,d)
      else
        let tmp := if whole then o.fresh k else d sector
        let tmp := copyLoop tmp skip buf done chunk
        if !o.write k then (done,d)
        else sdaWriteLoop o len buf (k+1) (sector+1) 0 (done+chunk) (Function.update d sector tmp)
  else (done,d)
termination_by len-done
decreasing_by
  have hskip := skip.isLt
  rw [sdaChunk_eq]
  omega

def sdaWrite (s : Sda) (o : SectorTurns) (off len : BitVec 32) (buf : Nat → Byte) : Nat × Sda :=
  if !s.active then (0,s)
  else
    let r := sdaWriteLoop o len.toNat buf 0 (off.toNat/512)
      ⟨off.toNat%512,Nat.mod_lt _ (by decide)⟩ 0 s.disk
    (r.1,{ s with disk := r.2 })

/-- The disk byte by byte. -/
def diskByte (d : Disk) (b : Nat) : Byte := d (b/512) (b%512)

/-- The place on the disk at which a turn continues. -/
def Aligned (off len sector : Nat) (skip : Fin 512) (done : Nat) : Prop :=
  done ≤ len ∧ (done < len → off+done = 512*sector+skip)

/-- The loop stops at turn `t`: the first one without a page or with a failing read. -/
structure StopsAt (o : SectorTurns) (k t : Nat) : Prop where
  le : k ≤ t
  before : ∀ j, k ≤ j → j < t → o.page j = true ∧ o.read j = true
  fails : ¬(o.page t = true ∧ o.read t = true)

/-- How much is done when turn `t` begins, in turns that reach the end of a sector. -/
def turnStart (skip t : Nat) : Nat := 512*t-skip

/-- Turn `k` begins. -/
def AtTurn (first : Fin 512) (len k : Nat) (skip : Fin 512) (done : Nat) : Prop :=
  done = min len (turnStart first k) ∧ (done < len → skip = if k = 0 then first else 0)

variable {d : Disk} {o : SectorTurns} {off len k sector done : Nat} {skip first : Fin 512}
  {buf : Nat → Byte}

theorem Aligned.start (off len : Nat) :
    Aligned off len (off/512) ⟨off%512,Nat.mod_lt _ (by decide)⟩ 0 := by
  refine ⟨Nat.zero_le _,fun _ => ?_⟩
  dsimp only
  omega

theorem Aligned.next (h : Aligned off len sector skip done) (hlt : done < len) :
    Aligned off len (sector+1) 0 (done+sdaChunk len skip done) ∧
      done < done+sdaChunk len skip done := by
  have hskip := skip.isLt
  have hat := h.2 hlt
  rw [sdaChunk_eq,Aligned]
  refine ⟨⟨by omega,fun hmore => ?_⟩,by omega⟩
  rw [Fin.val_zero]
  omega

/-- The bytes of a sector behind its first `skip` ones. -/
theorem diskByte_chunk (h : Aligned off len sector skip done) (hlt : done < len) {i : Nat}
    (hi : i < sdaChunk len skip done) : diskByte d (off+done+i) = d sector (skip+i) := by
  have hskip := skip.isLt
  rw [sdaChunk_eq] at hi
  rw [h.2 hlt,diskByte,show (512*sector+skip.val+i)/512 = sector by omega,
    show (512*sector+skip.val+i)%512 = skip.val+i by omega]

/-- What the loop of `sda_read` returns and stores. -/
theorem sdaReadLoop_stores {r : SdaRead} (h : Aligned off len sector skip done)
    (hr : sdaReadLoop d o len k sector skip done buf = r) : done ≤ r.done ∧ r.done ≤ len ∧
    r.buf = overlay buf done (r.done-done) (fun i => diskByte d (off+done+i)) := by
  induction k, sector, skip, done, buf using sdaReadLoop.induct d o len with
  | case1 k sector skip done buf hlt hpage =>
    rw [sdaReadLoop,if_pos hlt,if_pos hpage] at hr
    subst hr
    rw [Nat.sub_self,overlay_zero]
    exact ⟨le_refl _,h.1,rfl⟩
  | case2 k sector skip done buf hlt hpage hread =>
    rw [sdaReadLoop,if_pos hlt,if_neg hpage,if_pos hread] at hr
    subst hr
    rw [Nat.sub_self,overlay_zero]
    exact ⟨le_refl _,h.1,rfl⟩
  | case3 k sector skip done buf hlt hpage hread chunk ih =>
    rw [sdaReadLoop,if_pos hlt,if_neg hpage,if_neg hread] at hr
    obtain ⟨hnext,hmore⟩ := h.next hlt
    obtain ⟨hlo,hhi,hbuf⟩ := ih hnext hr
    refine ⟨by omega,hhi,?_⟩
    have hfirst : copyLoop buf done (d sector) skip chunk =
        overlay buf done chunk (fun i => diskByte d (off+done+i)) := by
      rw [copyLoop_eq]
      exact overlay_congr (fun i hi => (diskByte_chunk h hlt hi).symm)
    have hrest : (fun i => diskByte d (off+(done+chunk)+i)) =
        fun i => diskByte d (off+done+(chunk+i)) := by
      funext i
      rw [show off+(done+chunk)+i = off+done+(chunk+i) by omega]
    rw [hbuf,hfirst,hrest,overlay_append]
    rw [show chunk+(r.done-(done+chunk)) = r.done-done by omega]
  | case4 k sector skip done buf hlt =>
    rw [sdaReadLoop,if_neg hlt] at hr
    subst hr
    rw [Nat.sub_self,overlay_zero]
    exact ⟨le_refl _,h.1,rfl⟩


theorem AtTurn.next (h : AtTurn first len k skip done) (hlt : done < len) :
    done = turnStart first k ∧ AtTurn first len (k+1) 0 (done+sdaChunk len skip done) := by
  obtain ⟨hdone,hskip⟩ := h
  have hfirst := first.isLt
  have hs := congrArg Fin.val (hskip hlt)
  simp only [turnStart] at hdone ⊢
  refine ⟨by omega,?_,fun _ => rfl⟩
  rw [sdaChunk_eq,hs,turnStart]
  split_ifs with hk
  · omega
  · rw [Fin.val_zero]
    omega

/-- Where the loop of `sda_read` ends. -/
theorem sdaReadLoop_ends {r : SdaRead} (h : AtTurn first len k skip done)
    (hr : sdaReadLoop d o len k sector skip done buf = r) :
    (∃ t, StopsAt o k t ∧ turnStart first t < len ∧ r.done = turnStart first t ∧
      r.failed = o.page t) ∨
    (∀ j, k ≤ j → turnStart first j < len → o.page j = true ∧ o.read j = true) ∧ r.done = len ∧
      r.failed = false := by
  induction k, sector, skip, done, buf using sdaReadLoop.induct d o len with
  | case1 k sector skip done buf hlt hpage =>
    rw [sdaReadLoop,if_pos hlt,if_pos hpage] at hr
    subst hr
    obtain ⟨hdone,-⟩ := h.next hlt
    rw [Bool.not_eq_true'] at hpage
    left
    refine ⟨k,⟨le_refl k,fun j h1 h2 => by omega,fun hall => ?_⟩,hdone ▸ hlt,hdone,hpage.symm⟩
    rw [hpage] at hall
    simp at hall
  | case2 k sector skip done buf hlt hpage hread =>
    rw [sdaReadLoop,if_pos hlt,if_neg hpage,if_pos hread] at hr
    subst hr
    obtain ⟨hdone,-⟩ := h.next hlt
    rw [Bool.not_eq_true',Bool.not_eq_false] at hpage
    rw [Bool.not_eq_true'] at hread
    left
    refine ⟨k,⟨le_refl k,fun j h1 h2 => by omega,fun hall => ?_⟩,hdone ▸ hlt,hdone,hpage.symm⟩
    rw [hread] at hall
    simp at hall
  | case3 k sector skip done buf hlt hpage hread chunk ih =>
    rw [sdaReadLoop,if_pos hlt,if_neg hpage,if_neg hread] at hr
    rw [Bool.not_eq_true',Bool.not_eq_false] at hpage hread
    have hk : ∀ j, k ≤ j → ¬k+1 ≤ j → o.page j = true ∧ o.read j = true := by
      intro j h1 h2
      rw [show j = k by omega]
      exact ⟨hpage,hread⟩
    rcases ih (h.next hlt).2 hr with ⟨t,ht,hrest⟩ | ⟨hall,hrest⟩
    · left
      refine ⟨t,⟨by have := ht.le; omega,fun j h1 h2 => ?_,ht.fails⟩,hrest⟩
      by_cases hj : k+1 ≤ j
      · exact ht.before j hj h2
      · exact hk j h1 hj
    · right
      refine ⟨fun j h1 h2 => ?_,hrest⟩
      by_cases hj : k+1 ≤ j
      · exact hall j hj h2
      · exact hk j h1 hj
  | case4 k sector skip done buf hlt =>
    rw [sdaReadLoop,if_neg hlt] at hr
    subst hr
    obtain ⟨hdone,-⟩ := h
    right
    refine ⟨fun j h1 h2 => ?_,by dsimp only; omega,rfl⟩
    simp only [turnStart] at hdone h2
    omega

/-- A sector with a chunk of the caller's bytes. -/
theorem diskByte_update {tmp : Sector} (h : Aligned off len sector skip done) (hlt : done < len)
    (htmp : ¬(skip = 0 ∧ sdaChunk len skip done = 512) → tmp = d sector) :
    diskByte (Function.update d sector (copyLoop tmp skip buf done (sdaChunk len skip done))) =
      overlay (diskByte d) (off+done) (sdaChunk len skip done) (fun i => buf (done+i)) := by
  have hskip := skip.isLt
  have hat := h.2 hlt
  have hchunk := sdaChunk_eq len skip done
  rw [copyLoop_eq]
  funext b
  rw [diskByte]
  by_cases hb : b/512 = sector
  · rw [hb,Function.update_self]
    by_cases hin : off+done ≤ b ∧ b < off+done+sdaChunk len skip done
    · rw [overlay,if_pos (by omega),overlay,if_pos hin]
      rw [show b%512-skip.val = b-(off+done) by omega]
    · rw [overlay,if_neg (by omega),overlay,if_neg hin]
      rw [htmp,diskByte,hb]
      intro hwhole
      have hzero : skip.val = 0 := congrArg Fin.val hwhole.1
      omega
  · rw [Function.update_of_ne hb,overlay_out (by omega)]
    rfl

/-- What the loop of `sda_write` returns and stores. -/
theorem sdaWriteLoop_stores {r : Nat × Disk} (h : Aligned off len sector skip done)
    (hr : sdaWriteLoop o len buf k sector skip done d = r) : done ≤ r.1 ∧ r.1 ≤ len ∧
    diskByte r.2 = overlay (diskByte d) (off+done) (r.1-done) (fun i => buf (done+i)) := by
  induction k, sector, skip, done, d using sdaWriteLoop.induct o len buf with
  | case1 k sector skip done d hlt hpage =>
    rw [sdaWriteLoop,if_pos hlt,if_pos hpage] at hr
    subst hr
    rw [Nat.sub_self,overlay_zero]
    exact ⟨le_refl _,h.1,rfl⟩
  | case2 k sector skip done d hlt hpage chunk whole hread =>
    rw [sdaWriteLoop,if_pos hlt,if_neg hpage] at hr
    dsimp only at hr
    rw [if_pos hread] at hr
    subst hr
    rw [Nat.sub_self,overlay_zero]
    exact ⟨le_refl _,h.1,rfl⟩
  | case3 k sector skip done d hlt hpage chunk whole hread hwrite =>
    rw [sdaWriteLoop,if_pos hlt,if_neg hpage] at hr
    dsimp only at hr
    rw [if_neg hread,if_pos hwrite] at hr
    subst hr
    rw [Nat.sub_self,overlay_zero]
    exact ⟨le_refl _,h.1,rfl⟩
  | case4 k sector skip done d hlt hpage chunk whole hread tmp tmp' hwrite ih =>
    rw [sdaWriteLoop,if_pos hlt,if_neg hpage] at hr
    dsimp only at hr
    rw [if_neg hread,if_neg hwrite] at hr
    obtain ⟨hnext,hmore⟩ := h.next hlt
    obtain ⟨hlo,hhi,hdisk⟩ := ih hnext hr
    refine ⟨by omega,hhi,?_⟩
    have hfirst : diskByte (Function.update d sector tmp') =
        overlay (diskByte d) (off+done) chunk (fun i => buf (done+i)) :=
      diskByte_update h hlt (fun hno => if_neg hno)
    have hrest : (fun i => buf (done+chunk+i)) = fun i => buf (done+(chunk+i)) := by
      funext i
      rw [Nat.add_assoc]
    rw [hdisk,hfirst,hrest,← Nat.add_assoc off,overlay_append]
    rw [show chunk+(r.1-(done+chunk)) = r.1-done by omega]
  | case5 k sector skip done d hlt =>
    rw [sdaWriteLoop,if_neg hlt] at hr
    subst hr
    rw [Nat.sub_self,overlay_zero]
    exact ⟨le_refl _,h.1,rfl⟩


/-- No allocation and no sector read fails. -/
def SectorTurns.Reads (o : SectorTurns) : Prop := ∀ k, o.page k = true ∧ o.read k = true

theorem AtTurn.start (first : Fin 512) (len : Nat) : AtTurn first len 0 first 0 := by
  refine ⟨?_,fun _ => rfl⟩
  rw [turnStart]
  omega

/-- Reading a part of the disk without failures. -/
theorem sdaRead_window (s : Sda) (buf : Nat → Byte) {off len : BitVec 32} (hactive : s.active = true)
    (hsize : s.size < 2^32) (hfit : off.toNat+len.toNat ≤ s.size) (ho : o.Reads) :
    (sdaRead s o off len buf).done = len.toNat ∧
    (sdaRead s o off len buf).buf =
      overlay buf 0 len.toNat (fun i => diskByte s.disk (off.toNat+i)) := by
  rw [sdaRead,hactive]
  by_cases hend : s.size ≤ off.toNat
  · have hlen : len.toNat = 0 := by omega
    rw [if_neg (by simp),if_pos hend,hlen,overlay_zero]
    exact ⟨rfl,rfl⟩
  · have hsum : (off+len).toNat = off.toNat+len.toNat := by
      rw [BitVec.toNat_add,Nat.mod_eq_of_lt (by omega)]
    rw [if_neg (by simp),if_neg hend,hsum,if_neg (by omega)]
    generalize hr : sdaReadLoop s.disk o len.toNat 0 _ _ 0 buf = r
    obtain ⟨-,-,hbuf⟩ := sdaReadLoop_stores (Aligned.start off.toNat len.toNat) hr
    have hdone : r.done = len.toNat := by
      rcases sdaReadLoop_ends (AtTurn.start _ _) hr with ⟨t,ht,-⟩ | ⟨-,hdone,-⟩
      · exact absurd (ho t) ht.fails
      · exact hdone
    rw [hdone,Nat.sub_zero] at hbuf
    exact ⟨hdone,by simpa using hbuf⟩

/-- `sda_write` puts the bytes it reports over those of the disk, and a read that does not fail
gives the bytes of the disk back. -/
theorem sdaWrite_overlay (s : Sda) (o : SectorTurns) (off len : BitVec 32) (buf : Nat → Byte)
    (hactive : s.active = true) (hsize : s.size < 2^32) :
    ∃ done d, sdaWrite s o off len buf = (done,{ s with disk := d }) ∧ done ≤ len.toNat ∧
      (∀ i, i < done → diskByte d (off.toNat+i) = buf i) ∧
      (∀ b, b < off.toNat ∨ off.toNat+done ≤ b → diskByte d b = diskByte s.disk b) ∧
      ∀ (o' : SectorTurns) (off' len' : BitVec 32) (buf' : Nat → Byte), o'.Reads →
        off'.toNat+len'.toNat ≤ s.size →
        (sdaRead { s with disk := d } o' off' len' buf').done = len'.toNat ∧
        ∀ i, i < len'.toNat →
          (sdaRead { s with disk := d } o' off' len' buf').buf i = diskByte d (off'.toNat+i) := by
  generalize hr : sdaWriteLoop o len.toNat buf 0 (off.toNat/512)
    ⟨off.toNat%512,Nat.mod_lt _ (by decide)⟩ 0 s.disk = r
  obtain ⟨-,hle,hdisk⟩ := sdaWriteLoop_stores (Aligned.start off.toNat len.toNat) hr
  rw [Nat.sub_zero,Nat.add_zero] at hdisk
  refine ⟨r.1,r.2,?_,hle,fun i hi => ?_,fun b hb => ?_,fun o' off' len' buf' ho' hfit' => ?_⟩
  · rw [sdaWrite,hactive,if_neg (by simp),hr]
  · rw [hdisk,overlay_in _ _ _ hi,Nat.zero_add]
  · rw [hdisk,overlay_out hb]
  · obtain ⟨hdone,hbuf⟩ := sdaRead_window { s with disk := r.2 } buf' hactive hsize hfit' ho'
    refine ⟨hdone,fun i hi => ?_⟩
    have hin := overlay_in buf' (fun i => diskByte r.2 (off'.toNat+i)) 0 hi
    rw [Nat.zero_add] at hin
    rw [hbuf]
    exact hin

/-- A write across three sectors, of which the second write fails, on a disk of four. -/
theorem sdaWrite_overlay_sample : ∃ done d,
    sdaWrite ⟨true,2048,fun _ _ => 0#8⟩ ⟨fun _ => true,fun _ => true,fun k => k ≠ 1,fun _ _ => 1#8⟩
      500#32 600#32 (fun _ => 7#8) = (done,⟨true,2048,d⟩) ∧
      (∀ i, i < done → diskByte d (500+i) = 7#8) ∧ ∀ b, b < 500 → diskByte d b = 0#8 := by
  obtain ⟨done,d,hrun,-,hin,hout,-⟩ := sdaWrite_overlay ⟨true,2048,fun _ _ => 0#8⟩
    ⟨fun _ => true,fun _ => true,fun k => k ≠ 1,fun _ _ => 1#8⟩ 500#32 600#32 (fun _ => 7#8) rfl
    (by decide)
  exact ⟨done,d,hrun,hin,fun b hb => hout b (Or.inl hb)⟩

end KiNBOL
