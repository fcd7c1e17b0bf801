import KiNBOL.Fs.View

namespace KiNBOL

variable {v w u : Volume}

/-- Only transfers were used up. -/
def OnlyIo (v w : Volume) : Prop := w = { v with io := w.io }

theorem OnlyIo.refl (v : Volume) : OnlyIo v v := rfl

theorem OnlyIo.trans (h1 : OnlyIo v w) (h2 : OnlyIo w u) : OnlyIo v u := by
  unfold OnlyIo at *
  rw [h2,h1]

theorem OnlyIo.disk (h : OnlyIo v w) : w.disk = v.disk := by
  unfold OnlyIo at h
  rw [h]

theorem OnlyIo.fatAt (h : OnlyIo v w) (c : Nat) : KiNBOL.fatAt w c = KiNBOL.fatAt v c := by
  unfold OnlyIo at h
  rw [h]
  rfl

theorem OnlyIo.clusterSlots (h : OnlyIo v w) (c : Nat) : w.clusterSlots c = v.clusterSlots c := by
  unfold OnlyIo at h
  rw [h]
  rfl

theorem OnlyIo.bufSlots (h : OnlyIo v w) (c : Nat) (buf : Sector) :
    w.bufSlots c buf = v.bufSlots c buf := by
  unfold OnlyIo at h
  rw [h]
  rfl

namespace Volume

theorem readSector_only (v : Volume) (lba : Nat) : OnlyIo v (v.readSector lba).2 ∧
    ∀ s, (v.readSector lba).1 = some s → s = v.disk lba := by
  unfold readSector OnlyIo
  split
  · exact ⟨rfl,fun s hs => (Option.some.inj hs).symm⟩
  · exact ⟨rfl,fun s hs => (Option.some.inj hs).symm⟩
  · exact ⟨rfl,fun s hs => by simp at hs⟩

theorem readSectors_only (v : Volume) (lba n : Nat) : OnlyIo v (v.readSectors lba n).2 ∧
    ∀ buf, (v.readSectors lba n).1 = some buf → ∀ i, i < n*512 → buf i = diskBytes v.disk lba i := by
  induction n with
  | zero => exact ⟨rfl,fun buf _ i hi => absurd hi (by omega)⟩
  | succ n ih =>
    obtain ⟨ho,hb⟩ := ih
    rw [readSectors]
    split
    next h =>
      rw [h] at ho
      exact ⟨ho,fun buf hbuf => by simp at hbuf⟩
    next buf w h =>
      rw [h] at ho hb
      obtain ⟨hr,hs⟩ := w.readSector_only (u32 (lba+n))
      split
      next h2 =>
        rw [h2] at hr
        exact ⟨ho.trans hr,fun buf hbuf => by simp at hbuf⟩
      next sec _ h2 =>
        rw [h2] at hr hs
        refine ⟨ho.trans hr,fun buf' hbuf i hi => ?_⟩
        rw [← Option.some.inj hbuf]
        beta_reduce
        by_cases hn : i/512 = n
        · rw [if_pos hn,hs _ rfl,ho.disk,diskBytes,hn]
        · have hlt : i/512 < n+1 := (Nat.div_lt_iff_lt_mul (by omega)).mpr hi
          rw [if_neg hn]
          exact hb buf rfl i ((Nat.div_lt_iff_lt_mul (by omega)).mp (by omega))

theorem readCluster_only (v : Volume) (c : Nat) : OnlyIo v (v.readCluster c).2 ∧
    ∀ buf, (v.readCluster c).1 = some buf →
      (v.readCluster c).2.bufSlots c buf = v.clusterSlots c := by
  obtain ⟨ho,hb⟩ := v.readSectors_only (v.clusterToLba c) v.sectorsPerCluster
  refine ⟨ho,fun buf hbuf => ?_⟩
  have ho' : OnlyIo v (v.readCluster c).2 := ho
  rw [ho'.bufSlots,bufSlots,clusterSlots,slotLocs,List.map_map]
  apply List.map_congr_left
  intro j hj
  rw [List.mem_range,clusterSize] at hj
  simp only [Function.comp,Prod.mk.injEq,true_and]
  funext i
  have hi := i.isLt
  rw [getSlot,hb buf hbuf _ (by omega),diskBytes,getSlot]
  have h1 : (32*j+i.val)/512 = 32*j/512 := by omega
  have h2 : (32*j+i.val)%512 = 32*j%512+i.val := by omega
  rw [h1,h2]

theorem fatGetEntry_only (v : Volume) (c : Nat) : OnlyIo v (v.fatGetEntry c).2 ∧
    ((v.fatGetEntry c).1 = KiNBOL.fatAt v c ∨ (v.fatGetEntry c).1 = 0x0FFFFFFF) := by
  obtain ⟨ho,hs⟩ := v.readSector_only (v.fatSector c)
  rw [fatGetEntry]
  split
  next h =>
    rw [h] at ho
    exact ⟨ho,Or.inr rfl⟩
  next sec h =>
    rw [h] at ho hs
    refine ⟨ho,Or.inl ?_⟩
    rw [hs _ rfl]
    rfl

end Volume

end KiNBOL
