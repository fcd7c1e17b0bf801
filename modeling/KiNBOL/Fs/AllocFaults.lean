import KiNBOL.Fs.Transfers
import KiNBOL.Fs.UniqueNames

namespace KiNBOL

/-! `fat32_alloc_cluster` when transfers fail. -/

/-- The clusters whose entries `fat32_alloc_cluster` looks at, in its order. -/
def allocOrder (v : Volume) : List Nat :=
  let limit := u32 (v.totalClusters+2)
  List.range' v.nextFreeHint (limit-v.nextFreeHint)++List.range' 2 (min v.nextFreeHint limit-2)

/-- What an allocation promises. -/
structure AllocSpec (v : Volume) : Prop where
  found : ∀ c, v.allocCluster.1 = some c → InRange v c ∧ fatAt v c = 0 ∧
    endOfChain ≤ fatAt v.allocCluster.2 c
  full : v.allocCluster.1 = none → v.allocCluster.2.disk = v.disk ∧
    ∀ d, InRange v d → (∃ j, (allocOrder v)[j]? = some d ∧ ¬v.Passes j) ∨ fatAt v d ≠ 0

/-- The `j`-th read of a search is the first that delivers a zero entry. -/
structure FirstFree (v : Volume) (l : List Nat) (j c : Nat) : Prop where
  there : l[j]? = some c
  read : v.Passes j
  zero : fatAt v c = 0
  before : ∀ i d, i < j → l[i]? = some d → v.Passes i → fatAt v d ≠ 0

/-- A volume whose cluster numbers fit in 32 bits, with a hint that is one, and whose FSInfo sector
holds no FAT entry. -/
structure AllocSane (v : Volume) : Prop where
  hint : 2 ≤ v.nextFreeHint
  total : v.totalClusters+2 < 2^32
  fsinfo : v.fsinfoValid = true → ∀ c, c < v.totalClusters+2 → v.fsinfoLba ≠ v.fatSector c

/-- Behind the first read that delivers a zero entry, the entry's sector is read again and a copy is
written to it. -/
def MarkPasses (v : Volume) : Prop :=
  ∀ j c, FirstFree v (allocOrder v) j c →
    v.Passes (j+1) ∧ ∃ f < v.numFats, f*v.fatSize32%2^32 = 0 ∧ v.Passes (j+2+f)

/-- No copy of a FAT sector overwrites another sector of the first FAT. -/
def CopiesApart (v : Volume) : Prop :=
  ∀ c d f, c < v.totalClusters+2 → d < v.totalClusters+2 → f < v.numFats →
    u32 (v.fatSector c+f*v.fatSize32) = v.fatSector d → v.fatSector d = v.fatSector c

/-- Allocations, each with its transfers as needed, between steps that free no cluster; the
clusters so far. -/
inductive AllocRun (v : Volume) : List Nat → Volume → Prop
  | start : AllocRun v [] v
  | alloc {w : Volume} {l : List Nat} {c : Nat} (h : AllocRun v l w) (hs : AllocSane w)
      (hm : MarkPasses w) (ha : CopiesApart w) (hc : w.allocCluster.1 = some c) :
      AllocRun v (c::l) w.allocCluster.2
  | other {w w' : Volume} {l : List Nat} (h : AllocRun v l w)
      (htotal : w'.totalClusters = w.totalClusters)
      (hkeep : ∀ d, InRange w d → fatAt w d ≠ 0 → fatAt w' d ≠ 0) : AllocRun v l w'

variable {v w : Volume} {l : List Nat} {j c d : Nat}

/-- The search with failing reads. -/
theorem findFree_cases (l : List Nat) (v : Volume) :
    (∃ j c, FirstFree v l j c ∧ Volume.findFree l v = (some c,v.used (j+1))) ∨
    (∀ i d, l[i]? = some d → v.Passes i → fatAt v d ≠ 0) ∧
      Volume.findFree l v = (none,v.used l.length) := by
  induction l generalizing v with
  | nil => exact Or.inr ⟨fun i d hi => by simp at hi,rfl⟩
  | cons a l ih =>
    rw [Volume.findFree,v.fatGetEntry_eq]
    dsimp only
    by_cases h : v.Passes 0 ∧ fatAt v a = 0
    · left
      obtain ⟨hpass,hzero⟩ := h
      rw [if_pos hpass,if_pos hzero]
      exact ⟨0,a,⟨rfl,hpass,hzero,fun i d hi => by omega⟩,rfl⟩
    · have hne : (if v.Passes 0 then fatAt v a else 0x0FFFFFFF) ≠ 0 := by
        split
        · next hpass => exact fun hzero => h ⟨hpass,hzero⟩
        · decide
      rw [if_neg hne]
      have hshift : ∀ i, (v.used 1).Passes i ↔ v.Passes (i+1) := by
        intro i
        rw [Volume.used_passes,Nat.add_comm]
      have hhead : ∀ d, (a::l)[0]? = some d → v.Passes 0 → fatAt v d ≠ 0 := by
        intro d hd hpass hzero
        rw [List.getElem?_cons_zero,Option.some.injEq] at hd
        exact h ⟨hpass,hd ▸ hzero⟩
      cases ih (v.used 1) with
      | inl hfound =>
        obtain ⟨j,c,hf,hres⟩ := hfound
        left
        refine ⟨j+1,c,⟨?_,(hshift j).mp hf.read,hf.zero,fun i d hi hd hp => ?_⟩,?_⟩
        · rw [List.getElem?_cons_succ]
          exact hf.there
        · cases i with
          | zero => exact hhead d hd hp
          | succ i =>
            rw [List.getElem?_cons_succ] at hd
            exact hf.before i d (by omega) hd ((hshift i).mpr hp)
        · rw [hres,Volume.used_used]
          exact congrArg (fun n => (some c,v.used n)) (by omega)
      | inr hnone =>
        right
        obtain ⟨hall,hres⟩ := hnone
        refine ⟨fun i d hd hp => ?_,?_⟩
        · cases i with
          | zero => exact hhead d hd hp
          | succ i =>
            rw [List.getElem?_cons_succ] at hd
            exact hall i d hd ((hshift i).mpr hp)
        · rw [hres,Volume.used_used]
          exact congrArg (fun n => (none,v.used n)) (by rw [List.length_cons]; omega)

/-- An allocation takes the first cluster that its reads show to be free. -/
theorem allocCluster_cases (hh : 2 ≤ v.nextFreeHint) :
    (∃ j c, FirstFree v (allocOrder v) j c ∧
      v.allocCluster = (some c,(v.used (j+1)).takeCluster c)) ∨
    (∀ i d, (allocOrder v)[i]? = some d → v.Passes i → fatAt v d ≠ 0) ∧
      v.allocCluster = (none,v.used (allocOrder v).length) := by
  unfold Volume.allocCluster allocOrder
  dsimp only
  generalize hl : List.range' v.nextFreeHint (u32 (v.totalClusters+2)-v.nextFreeHint) = l
  generalize List.range' 2 (min v.nextFreeHint (u32 (v.totalClusters+2))-2) = l'
  cases findFree_cases l v with
  | inl hfound =>
    obtain ⟨j,c,hf,hres⟩ := hfound
    have hlt : j < l.length := (List.getElem?_eq_some_iff.mp hf.there).1
    have hpos : 2 ≤ c := by
      have hmem := List.mem_of_getElem? hf.there
      rw [← hl,List.mem_range'_1] at hmem
      omega
    obtain ⟨c,rfl⟩ : ∃ b, c = b+1 := ⟨c-1,by omega⟩
    left
    refine ⟨j,c+1,⟨?_,hf.read,hf.zero,fun i d hi hd hp => ?_⟩,by rw [hres]⟩
    · rw [List.getElem?_append_left hlt]
      exact hf.there
    · rw [List.getElem?_append_left (by omega)] at hd
      exact hf.before i d hi hd hp
  | inr hnone =>
    obtain ⟨hall,hres⟩ := hnone
    rw [hres]
    dsimp only
    have hfirst : ∀ i d, i < l.length → (l++l')[i]? = some d → v.Passes i → fatAt v d ≠ 0 := by
      intro i d hi hd hp
      rw [List.getElem?_append_left hi] at hd
      exact hall i d hd hp
    cases findFree_cases l' (v.used l.length) with
    | inl hfound =>
      obtain ⟨j,c,hf,hres'⟩ := hfound
      left
      rw [hres',Volume.used_used]
      refine ⟨l.length+j,c,⟨?_,(v.used_passes _ _).mp hf.read,hf.zero,fun i d hi hd hp => ?_⟩,rfl⟩
      · rw [List.getElem?_append_right (by omega),Nat.add_sub_cancel_left]
        exact hf.there
      · by_cases hlt : i < l.length
        · exact hfirst i d hlt hd hp
        · rw [List.getElem?_append_right (by omega)] at hd
          apply hf.before (i-l.length) d (by omega) hd
          rw [Volume.used_passes,Nat.add_sub_cancel' (by omega)]
          exact hp
    | inr hnone' =>
      obtain ⟨hall',hres'⟩ := hnone'
      right
      rw [hres',Volume.used_used,List.length_append]
      refine ⟨fun i d hd hp => ?_,rfl⟩
      by_cases hlt : i < l.length
      · exact hfirst i d hlt hd hp
      · rw [List.getElem?_append_right (by omega)] at hd
        apply hall' (i-l.length) d hd
        rw [Volume.used_passes,Nat.add_sub_cancel' (by omega)]
        exact hp

/-- The FAT entries after a cluster was taken, for an FSInfo sector elsewhere. -/
theorem takeCluster_fatAt (v : Volume) (c d : Nat)
    (hf : v.fsinfoValid = true → v.fsinfoLba ≠ v.fatSector d) :
    (v.CopyWritten c (v.fatSector d) → fatAt (v.takeCluster c) d =
      get32 (put32 (v.disk (v.fatSector c)) (Volume.fatOffset c)
        (get32 (v.disk (v.fatSector c)) (Volume.fatOffset c)/2^28*2^28+0x0FFFFFFF%2^28))
        (Volume.fatOffset d)%2^28) ∧
    (¬v.CopyWritten c (v.fatSector d) → fatAt (v.takeCluster c) d = fatAt v d) := by
  have hsec : (v.takeCluster c).fatSector d = v.fatSector d := by
    rw [Volume.fatSector,(v.takeCluster_kept c).fatStart,Volume.fatSector]
  obtain ⟨⟨n,heq⟩,hdisk⟩ := v.fatSetEntry_eq c 0x0FFFFFFF
  obtain ⟨hyes,hno⟩ := hdisk (v.fatSector d)
  have hsave : (v.takeCluster c).disk (v.fatSector d) =
      (v.fatSetEntry c 0x0FFFFFFF).disk (v.fatSector d) := by
    unfold Volume.takeCluster
    apply Volume.fsinfoSave_disk
    intro h
    obtain ⟨hvalid,hlba⟩ := h
    dsimp only at hvalid hlba
    rw [heq] at hvalid hlba
    exact hf hvalid hlba.symm
  unfold fatAt
  rw [hsec,hsave]
  constructor
  · intro h
    rw [hyes h]
  · intro h
    rw [hno h]

/-- The entry of the cluster itself. -/
theorem takeCluster_mark (v : Volume) (c : Nat)
    (hf : v.fsinfoValid = true → v.fsinfoLba ≠ v.fatSector c) :
    (v.CopyWritten c (v.fatSector c) → fatAt (v.takeCluster c) c = 0x0FFFFFFF) ∧
    (¬v.CopyWritten c (v.fatSector c) → fatAt (v.takeCluster c) c = fatAt v c) := by
  obtain ⟨hyes,hno⟩ := takeCluster_fatAt v c c hf
  refine ⟨fun h => ?_,hno⟩
  rw [hyes h,get32_put32,merged_entry]
  rfl

/-- The copies that land on the first FAT. -/
theorem copyWritten_iff (v : Volume) (j c : Nat) :
    (v.used j).CopyWritten c (v.fatSector c) ↔
      v.Passes j ∧ ∃ f < v.numFats, f*v.fatSize32%2^32 = 0 ∧ v.Passes (j+1+f) := by
  have hsame : ∀ f, u32 (v.fatSector c+f*v.fatSize32) = v.fatSector c ↔
      f*v.fatSize32%2^32 = 0 := by
    intro f
    have hlt : v.fatSector c < 2^32 := Nat.mod_lt _ (by decide)
    rw [u32]
    omega
  unfold Volume.CopyWritten
  rw [Volume.used_passes,Nat.add_zero]
  apply and_congr_right
  intro _
  constructor
  · intro h
    obtain ⟨f,hf,hs,hp⟩ := h
    rw [Volume.used_passes,← Nat.add_assoc] at hp
    exact ⟨f,hf,(hsame f).mp hs,hp⟩
  · intro h
    obtain ⟨f,hf,hs,hp⟩ := h
    refine ⟨f,hf,(hsame f).mpr hs,?_⟩
    rw [Volume.used_passes,← Nat.add_assoc]
    exact hp

theorem mem_allocOrder (h : v.totalClusters+2 < 2^32) (hh : 2 ≤ v.nextFreeHint) :
    d ∈ allocOrder v ↔ InRange v d := by
  have hlim : u32 (v.totalClusters+2) = v.totalClusters+2 := Nat.mod_eq_of_lt h
  simp only [allocOrder,hlim,List.mem_append,List.mem_range'_1,InRange]
  omega

theorem FirstFree.inRange (h : FirstFree v (allocOrder v) j c) (hs : AllocSane v) : InRange v c :=
  (mem_allocOrder hs.total hs.hint).mp (List.mem_of_getElem? h.there)

/-- What happens to the entry of the cluster that an allocation finds. -/
theorem FirstFree.entry (h : FirstFree v (allocOrder v) j c) (hs : AllocSane v) :
    (v.Passes (j+1) ∧ (∃ f < v.numFats, f*v.fatSize32%2^32 = 0 ∧ v.Passes (j+2+f)) →
      fatAt ((v.used (j+1)).takeCluster c) c = 0x0FFFFFFF) ∧
    (¬(v.Passes (j+1) ∧ ∃ f < v.numFats, f*v.fatSize32%2^32 = 0 ∧ v.Passes (j+2+f)) →
      fatAt ((v.used (j+1)).takeCluster c) c = 0) := by
  obtain ⟨hyes,hno⟩ := takeCluster_mark (v.used (j+1)) c
    (fun hvalid => hs.fsinfo hvalid c (h.inRange hs).2)
  have hiff := copyWritten_iff v (j+1) c
  exact ⟨fun hp => hyes (hiff.mpr hp),fun hp => (hno (fun hw => hp (hiff.mp hw))).trans h.zero⟩

theorem allocSpec_of_passes (hs : AllocSane v) (hm : MarkPasses v) : AllocSpec v := by
  cases allocCluster_cases hs.hint with
  | inl hfound =>
    obtain ⟨j,c,hf,hres⟩ := hfound
    refine ⟨fun d hd => ?_,fun hn => by rw [hres] at hn; simp at hn⟩
    rw [hres,Option.some.injEq] at hd
    rw [hres,← hd]
    refine ⟨hf.inRange hs,hf.zero,?_⟩
    rw [(hf.entry hs).1 (hm j c hf)]
    decide
  | inr hnone =>
    obtain ⟨hall,hres⟩ := hnone
    refine ⟨fun d hd => by rw [hres] at hd; simp at hd,fun _ => ?_⟩
    rw [hres]
    refine ⟨rfl,fun d hd => ?_⟩
    obtain ⟨i,hi⟩ := List.getElem?_of_mem ((mem_allocOrder hs.total hs.hint).mpr hd)
    by_cases hp : v.Passes i
    · exact Or.inr (hall i d hi hp)
    · exact Or.inl ⟨i,hi,hp⟩

theorem FirstFree.unique {j' c' : Nat} (h : FirstFree v l j c) (h' : FirstFree v l j' c') :
    j = j' ∧ c = c' := by
  have hj : j = j' := by
    rcases Nat.lt_trichotomy j j' with hlt | he | hlt
    · exact absurd h.zero (h'.before j c hlt h.there h.read)
    · exact he
    · exact absurd h'.zero (h.before j' c' hlt h'.there h'.read)
  subst hj
  exact ⟨rfl,Option.some.inj (h.there.symm.trans h'.there)⟩

theorem passes_of_allocSpec (hs : AllocSane v) (h : AllocSpec v) : MarkPasses v := by
  intro j c hf
  by_contra hno
  cases allocCluster_cases hs.hint with
  | inl hfound =>
    obtain ⟨j',c',hf',hres⟩ := hfound
    obtain ⟨rfl,rfl⟩ := hf.unique hf'
    have hmark := (h.found c (by rw [hres])).2.2
    rw [hres,(hf.entry hs).2 hno] at hmark
    exact absurd hmark (by decide)
  | inr hnone => exact hnone.1 j c hf.there hf.read hf.zero

/-- An allocation leaves no other entry zero that was not. -/
theorem alloc_keeps (hs : AllocSane v) (hm : MarkPasses v) (ha : CopiesApart v)
    (hc : v.allocCluster.1 = some c) :
    (∀ d, InRange v d → fatAt v d ≠ 0 → fatAt v.allocCluster.2 d ≠ 0) ∧
    InRange v c ∧ fatAt v c = 0 ∧ fatAt v.allocCluster.2 c ≠ 0 := by
  obtain ⟨hin,hzero,hmark⟩ := (allocSpec_of_passes hs hm).found c hc
  refine ⟨fun d hd hne => ?_,hin,hzero,fun he => by rw [he] at hmark; simp [endOfChain] at hmark⟩
  cases allocCluster_cases hs.hint with
  | inr hnone =>
    rw [hnone.2] at hc
    simp at hc
  | inl hfound =>
    obtain ⟨j,c',hf,hres⟩ := hfound
    rw [hres,Option.some.injEq] at hc
    subst hc
    rw [hres]
    obtain ⟨hyes,hno⟩ := takeCluster_fatAt (v.used (j+1)) c' d (fun hvalid => hs.fsinfo hvalid d hd.2)
    by_cases hw : (v.used (j+1)).CopyWritten c' ((v.used (j+1)).fatSector d)
    · have hcopy := hw
      obtain ⟨-,f,hf',hsec,-⟩ := hcopy
      have hsame : v.fatSector d = v.fatSector c' := ha c' d f hin.2 hd.2 hf' hsec
      rw [hyes hw]
      dsimp only [Volume.used_disk]
      have hentry : get32 (v.disk (v.fatSector c')) (Volume.fatOffset d)%2^28 ≠ 0 := by
        rw [← hsame]
        exact hne
      change get32 (put32 (v.disk (v.fatSector c')) (Volume.fatOffset c') _) (Volume.fatOffset d)%2^28 ≠ 0
      by_cases hoff : Volume.fatOffset d = Volume.fatOffset c'
      · rw [hoff,get32_put32,merged_entry]
        decide
      · have hfar : Volume.fatOffset d+4 ≤ Volume.fatOffset c' ∨
            Volume.fatOffset c'+4 ≤ Volume.fatOffset d := by
          simp only [Volume.fatOffset,u32] at hoff ⊢
          omega
        rw [get32_put32_other hfar]
        exact hentry
    · rw [hno hw]
      exact hne

/-- Clusters allocated along a run stay marked. -/
theorem AllocRun.marked (h : AllocRun v l w) : l.Nodup ∧
    ∀ c ∈ l, InRange w c ∧ fatAt w c ≠ 0 := by
  induction h with
  | start => exact ⟨List.nodup_nil,fun c hc => by simp at hc⟩
  | @alloc w l c h hs hm ha hc ih =>
    obtain ⟨hnodup,hmarked⟩ := ih
    obtain ⟨hkeep,hin,hzero,hne⟩ := alloc_keeps hs hm ha hc
    have htotal := w.allocCluster_kept.total
    have hrange : ∀ d, InRange w d → InRange w.allocCluster.2 d := fun d hd => by
      rw [InRange,htotal]
      exact hd
    refine ⟨List.nodup_cons.mpr ⟨fun hmem => (hmarked c hmem).2 hzero,hnodup⟩,fun d hd => ?_⟩
    cases List.mem_cons.mp hd with
    | inl he => exact he ▸ ⟨hrange c hin,hne⟩
    | inr hmem =>
      obtain ⟨hd1,hd2⟩ := hmarked d hmem
      exact ⟨hrange d hd1,hkeep d hd1 hd2⟩
  | @other w w' l h htotal hkeep ih =>
    refine ⟨ih.1,fun c hc => ?_⟩
    obtain ⟨hin,hne⟩ := ih.2 c hc
    exact ⟨by rw [InRange,htotal]; exact hin,hkeep c hin hne⟩

/-- An allocation keeps its promises on a sane volume exactly when the transfers that mark its
cluster pass, and then no cluster is allocated twice unless it is freed. -/
theorem alloc_marks_iff (v : Volume) :
    (AllocSane v → (AllocSpec v ↔ MarkPasses v)) ∧ ∀ l w, AllocRun v l w → l.Nodup :=
  ⟨fun hs => ⟨passes_of_allocSpec hs,allocSpec_of_passes hs⟩,fun _ _ h => h.marked.1⟩

/-- The image of an empty volume: its root directory has the only cluster in use. -/
def emptyRootDisk : Disk := fun lba =>
  if lba = 0 then smallBpb
  else if lba = 1 then
    put32 (put32 (put32 (fun _ => 0#8) 0 0x0FFFFFF8) 4 0x0FFFFFFF) 8 0x0FFFFFFF
  else fun _ => 0#8

/-- Its state before the mount, with the outcomes of the transfers to come. -/
def emptyRootVolume (io : List Bool) : Volume :=
  bootVolume (fun _ => true) 1 0 emptyRootDisk io

/-- The write of the FAT entry fails: cluster 3 is returned and still free. -/
theorem alloc_unmarked : ∃ v,
    FsReach (fun _ _ => True) (emptyRootVolume [true,true,true,true,true,false]) v ∧
    ¬AllocSpec v := by
  have hm : (fat32Init 1 (fun _ => true) (emptyRootVolume [true,true,true,true,true,false])).map
      (fun v => (v.allocCluster.1,fatAt v.allocCluster.2 3)) = some (some 3,0) := by decide
  obtain ⟨v,hv,he⟩ := Option.map_eq_some_iff.mp hm
  rw [Prod.mk.injEq] at he
  refine ⟨v,.mount hv,fun hs => ?_⟩
  have hmark := (hs.found 3 he.1).2.2
  rw [he.2] at hmark
  exact absurd hmark (by decide)

theorem alloc_marks_iff_sample : ∃ v, FsReach (fun _ _ => True) (emptyRootVolume []) v ∧
    v.allocCluster.1 = some 3 ∧ AllocSpec v ∧ MarkPasses v := by
  have hm : (fat32Init 1 (fun _ => true) (emptyRootVolume [])).map (fun v =>
      (v.allocCluster.1,v.io,v.numFats,v.nextFreeHint,v.totalClusters,v.fsinfoValid)) =
      some (some 3,[],1,2,8,false) := by decide
  obtain ⟨v,hv,he⟩ := Option.map_eq_some_iff.mp hm
  simp only [Prod.mk.injEq] at he
  obtain ⟨hfound,hio,hfats,hhint,htotal,hvalid⟩ := he
  have hs : AllocSane v := ⟨hhint.ge,by rw [htotal]; decide,fun h => by simp [hvalid] at h⟩
  have hpass : ∀ n, v.Passes n := fun n => by simp [Volume.Passes,hio]
  have hmark : MarkPasses v := fun j c _ => ⟨hpass _,0,by omega,by simp,hpass _⟩
  exact ⟨v,.mount hv,hfound,((alloc_marks_iff v).1 hs).mpr hmark,hmark⟩

end KiNBOL
