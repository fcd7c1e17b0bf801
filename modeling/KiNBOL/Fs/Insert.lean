import KiNBOL.Fs.Place

namespace KiNBOL

variable {v v' w : Volume} {c d dir : Nat} {cs cs' ds : List Nat} {k : Kmalloc} {locs : List Loc}

/-- The locations of the slots of a directory. -/
def dirLocs (v : Volume) (cs : List Nat) : List Loc := cs.flatMap v.slotLocs

theorem dirSlots_eq (v : Volume) (cs : List Nat) :
    v.dirSlots cs = (dirLocs v cs).map (fun loc => (loc,dirSlotAt v loc)) := by
  rw [Volume.dirSlots,dirLocs,List.map_flatMap]
  rfl

theorem DiskStep.dirLocs (h : DiskStep v v') (cs : List Nat) :
    KiNBOL.dirLocs v' cs = KiNBOL.dirLocs v cs := by
  rw [KiNBOL.dirLocs,KiNBOL.dirLocs]
  congr 1
  funext c
  exact h.slotLocs c

theorem DiskLayout.mem_dirLocs (hl : DiskLayout v) (hr : ∀ c ∈ cs, InRange v c) {loc : Loc} :
    loc ∈ dirLocs v cs ↔ loc.Aligned ∧ ∃ c ∈ cs, InCluster v c loc.lba := by
  rw [dirLocs,List.mem_flatMap]
  constructor
  · rintro ⟨c,hc,hloc⟩
    obtain ⟨h1,h2⟩ := (hl.mem_slotLocs (hr c hc)).mp hloc
    exact ⟨h2,c,hc,h1⟩
  · rintro ⟨h2,c,hc,h1⟩
    exact ⟨c,hc,(hl.mem_slotLocs (hr c hc)).mpr ⟨h1,h2⟩⟩

theorem DiskLayout.dirLocs_nodup (hl : DiskLayout v) (hr : ∀ c ∈ cs, InRange v c) (hd : cs.Nodup) :
    (dirLocs v cs).Nodup := by
  rw [dirLocs,List.nodup_flatMap]
  refine ⟨fun c hc => hl.slotLocs_nodup (hr c hc),?_⟩
  rw [List.nodup_iff_pairwise_ne] at hd
  refine hd.imp_of_mem (fun hx hy hne => ?_)
  exact fun loc h1 h2 => hne (hl.slotLocs_apart (hr _ hx) (hr _ hy) h1 h2)

/-- Directories with no cluster in common have no slot in common. -/
theorem DiskLayout.dirLocs_apart (hl : DiskLayout v) (hr : ∀ c ∈ cs, InRange v c)
    (hr' : ∀ c ∈ ds, InRange v c) (h : ∀ x ∈ cs, x ∉ ds) {loc : Loc} (h1 : loc ∈ dirLocs v cs) :
    loc ∉ dirLocs v ds := by
  intro h2
  obtain ⟨-,c,hc,hin⟩ := (hl.mem_dirLocs hr).mp h1
  obtain ⟨-,d,hd,hin'⟩ := (hl.mem_dirLocs hr').mp h2
  have := InCluster.unique (hr c hc).1 (hr' d hd).1 hin hin'
  exact h c hc (this ▸ hd)

/-- Slots that keep their contents. -/
theorem dirSlots_congr (h : DiskStep v v') (hs : ∀ loc ∈ dirLocs v cs, dirSlotAt v' loc = dirSlotAt v loc) :
    v'.dirSlots cs = v.dirSlots cs := by
  rw [dirSlots_eq,dirSlots_eq,h.dirLocs]
  exact List.map_congr_left (fun loc hloc => by rw [hs loc hloc])

theorem slotAt_putAll_other {l : List (Loc × Slot)} {loc : Loc} (ha : loc.Aligned)
    (hal : ∀ x ∈ l, x.1.Aligned) (hout : loc ∉ l.map Prod.fst) :
    dirSlotAt (v.putAll l) loc = dirSlotAt v loc := by
  induction l generalizing v with
  | nil => rfl
  | cons x l ih =>
    simp only [List.map_cons,List.mem_cons,not_or] at hout
    have h1 : dirSlotAt (v.putAt x.1 x.2) loc = dirSlotAt v loc := by
      rw [slotAt_putAt (hal x (by simp)) ha,if_neg hout.1]
    rw [← h1]
    exact ih (fun y hy => hal y (by simp [hy])) hout.2

theorem slotAt_putAll {l : List (Loc × Slot)} (hal : ∀ x ∈ l, x.1.Aligned)
    (hd : (l.map Prod.fst).Nodup) : ∀ x ∈ l, dirSlotAt (v.putAll l) x.1 = x.2 := by
  induction l generalizing v with
  | nil => simp
  | cons y l ih =>
    rw [List.map_cons,List.nodup_cons] at hd
    intro x hx
    rcases List.mem_cons.mp hx with rfl | hx
    · have h1 : dirSlotAt (v.putAt x.1 x.2) x.1 = x.2 := by
        rw [slotAt_putAt (hal x (by simp)) (hal x (by simp)),if_pos rfl]
      exact (slotAt_putAll_other (v := v.putAt x.1 x.2) (hal x (by simp))
        (fun z hz => hal z (by simp [hz])) hd.1).trans h1
    · exact ih (fun z hz => hal z (by simp [hz])) hd.2 x hx

theorem disk_putAll {l : List (Loc × Slot)} {a : Nat} (h : ∀ x ∈ l, a ≠ x.1.lba) :
    (v.putAll l).disk a = v.disk a := by
  induction l generalizing v with
  | nil => rfl
  | cons x l ih =>
    refine (ih (v := v.putAt x.1 x.2) (fun y hy => h y (by simp [hy]))).trans ?_
    exact disk_putAt_other (h x (by simp))

theorem dirSlots_fst (v : Volume) (cs : List Nat) : (v.dirSlots cs).map Prod.fst = dirLocs v cs := by
  rw [dirSlots_eq,List.map_map]
  exact List.map_id _

theorem dirSlots_snd : ∀ x ∈ v.dirSlots cs, dirSlotAt v x.1 = x.2 := by
  intro x hx
  rw [dirSlots_eq,List.mem_map] at hx
  obtain ⟨loc,-,rfl⟩ := hx
  rfl

/-- Slots that hold what a list says. -/
theorem map_slotAt {l : List (Loc × Slot)} (h : ∀ x ∈ l, dirSlotAt v x.1 = x.2) :
    (l.map Prod.fst).map (fun loc => (loc,dirSlotAt v loc)) = l := by
  rw [List.map_map]
  conv_rhs => rw [← List.map_id l]
  apply List.map_congr_left
  intro x hx
  simp only [Function.comp,id]
  rw [h x hx]

/-- Writing a block of slots of a directory replaces that block. -/
theorem dirSlots_putAll (hl : DiskLayout v) (hr : ∀ c ∈ cs, InRange v c) (hd : cs.Nodup)
    {pre block post : List (Loc × Slot)} (h : v.dirSlots cs = pre++block++post) {es : List Slot}
    (hlen : es.length = block.length) :
    (v.putAll ((block.map Prod.fst).zip es)).dirSlots cs =
      pre++(block.map Prod.fst).zip es++post := by
  have hfst : ((block.map Prod.fst).zip es).map Prod.fst = block.map Prod.fst :=
    List.map_fst_zip (by rw [List.length_map]; omega)
  have hold : ∀ x ∈ v.dirSlots cs, dirSlotAt v x.1 = x.2 := dirSlots_snd
  have hloc := (dirSlots_fst v cs).symm
  have hnd := hl.dirLocs_nodup hr hd
  have hal : ∀ x ∈ v.dirSlots cs, x.1.Aligned := by
    intro x hx
    have hmem := List.mem_map_of_mem (f := Prod.fst) hx
    rw [dirSlots_fst] at hmem
    exact ((hl.mem_dirLocs hr).mp hmem).1
  rw [h] at hold hal hloc
  rw [List.map_append,List.map_append] at hloc
  rw [hloc] at hnd
  have hzal : ∀ x ∈ (block.map Prod.fst).zip es, x.1.Aligned := by
    intro x hx
    have hx1 := List.mem_map_of_mem (f := Prod.fst) hx
    rw [hfst,List.mem_map] at hx1
    obtain ⟨y,hy,he⟩ := hx1
    exact he ▸ hal y (by simp [hy])
  obtain ⟨h12,-,hd123⟩ := List.nodup_append.mp hnd
  obtain ⟨-,hd2,hd12⟩ := List.nodup_append.mp h12
  have hkeep : ∀ x ∈ pre++block++post, x.1 ∉ block.map Prod.fst →
      dirSlotAt (v.putAll ((block.map Prod.fst).zip es)) x.1 = x.2 := by
    intro x hx hout
    rw [slotAt_putAll_other (hal x hx) hzal (by rw [hfst]; exact hout)]
    exact hold x hx
  have hblock := slotAt_putAll (v := v) hzal (by rw [hfst]; exact hd2)
  rw [dirSlots_eq,(DiskStep.putAll v _).dirLocs,hloc,List.map_append,List.map_append]
  congr 1
  · congr 1
    · refine map_slotAt (fun x hx => hkeep x (by simp [hx]) (fun hb => ?_))
      exact hd12 x.1 (List.mem_map_of_mem hx) x.1 hb rfl
    · rw [← hfst]
      have := map_slotAt hblock
      rwa [hfst] at this ⊢
  · refine map_slotAt (fun x hx => hkeep x (by simp [hx]) (fun hb => ?_))
    exact hd123 x.1 (List.mem_append_right _ hb) x.1 (List.mem_map_of_mem hx) rfl

end KiNBOL
