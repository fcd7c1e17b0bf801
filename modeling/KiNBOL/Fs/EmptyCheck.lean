import KiNBOL.Fs.AllocFaults

namespace KiNBOL

/-! The check for emptiness in front of a removal, when reads or the buffer's allocation fail. -/

/-- The entries `.` and `..`. -/
def dotName : ShortName := .ofParts [ch '.'] []
def dotdotName : ShortName := .ofParts [ch '.',ch '.'] []

namespace Slot

/-- A slot in use for a file or a directory, `.` and `..` apart. -/
def live (e : Slot) : Bool :=
  !e.isDeleted && !e.isLfn && e.attr &&& 0x08#8 = 0#8 && e.short ≠ dotName && e.short ≠ dotdotName

/-- What `dir_is_empty` counts: its name does not begin with a dot. -/
def counted (e : Slot) : Bool :=
  !e.isDeleted && !e.isLfn && e.attr &&& 0x08#8 = 0#8 && e 0 ≠ ch '.'

end Slot

/-- The slots of a cluster up to the end mark. -/
def slotsBeforeEnd (v : Volume) (c : Nat) : List Slot :=
  ((v.clusterSlots c).map Prod.snd).takeWhile (fun e => !e.isEnd)

/-- The `i`-th cluster of the directory that starts at `dir`, if it has that many. -/
def chainAt (v : Volume) (dir i : Nat) : Nat := (fatAt v)^[i] dir

def OnChain (v : Volume) (dir i : Nat) : Prop := ∀ j, j ≤ i → InChain (chainAt v dir j)

/-- The transfers that read the `i`-th cluster pass, and the one that reads its FAT entry, for reads
of a whole chain that start now. -/
def ClusterRead (v : Volume) (i : Nat) : Prop :=
  ∀ j, j < v.sectorsPerCluster → v.Passes (i*(v.sectorsPerCluster+1)+j)

def LinkRead (v : Volume) (i : Nat) : Prop :=
  v.Passes (i*(v.sectorsPerCluster+1)+v.sectorsPerCluster)

instance (v : Volume) (i : Nat) : Decidable (LinkRead v i) := inferInstanceAs (Decidable (_ ≠ _))

/-- There is an `i`-th cluster, and the reads up to it pass. -/
structure Examined (v : Volume) (dir i : Nat) : Prop where
  chain : OnChain v dir i
  clusters : ∀ j, j ≤ i → ClusterRead v j
  links : ∀ j, j < i → LinkRead v j

/-- All clusters of the directory are read, and none has a live slot. -/
def Clear (v : Volume) (dir : Nat) : Prop :=
  ∀ i, OnChain v dir i → Examined v dir i ∧ ∀ e ∈ slotsBeforeEnd v (chainAt v dir i), e.live = false

/-- The path names a directory of the driver. -/
def NamesDir (v : Volume) (path : CName) (ctx : FileCtx) : Prop :=
  v.fatOk = true ∧ ∃ r node, v.vfsFind (stripDevPrefix path) = some r ∧ v.node r = some node ∧
    node.flags &&& vfsDirectory ≠ 0#32 ∧ node.device = some ctx

/-- A call that is not recursive removes no directory with contents: it frees only directories
without live entries; with a live entry, or one that could not be examined, it fails and leaves the
disk alone. -/
structure SafeRemoval (k : Kmalloc) (path : CName) (v : Volume) (dir : Nat) : Prop where
  frees : ∀ fuel w, fat32Remove fuel k path false v = some (.ok,w) →
    ∀ i, OnChain v dir i → ∀ e ∈ slotsBeforeEnd v (chainAt v dir i), e.live = false
  refuses : k .empty = false ∨ ¬Clear v dir →
    (∃ fuel r, fat32Remove fuel k path false v = some r) ∧
    ∀ fuel st w, fat32Remove fuel k path false v = some (st,w) →
      st = .errNotEmpty ∧ w.disk = v.disk

/-- A counted slot is reached by reads that pass. -/
def Met (v : Volume) (dir : Nat) : Prop :=
  ∃ i, Examined v dir i ∧ ∃ e ∈ slotsBeforeEnd v (chainAt v dir i), e.counted = true

variable {v w : Volume} {k : Kmalloc} {fuel dir c i : Nat} {path : CName} {ctx : FileCtx}

theorem Slot.counted_live {e : Slot} (h : e.counted = true) : e.live = true := by
  have hdot : ∀ s : ShortName, s.name8.head? = some (ch '.') → e 0 ≠ ch '.' → e.short ≠ s := by
    intro s hs h0 he
    rw [← he] at hs
    simp only [Slot.short,List.ofFn_succ,List.head?_cons,Option.some.injEq] at hs
    exact h0 hs
  simp only [Slot.counted,Bool.and_eq_true,decide_eq_true_eq] at h
  obtain ⟨⟨⟨h1,h2⟩,h3⟩,h4⟩ := h
  simp only [Slot.live,Bool.and_eq_true,decide_eq_true_eq]
  exact ⟨⟨⟨⟨h1,h2⟩,h3⟩,hdot dotName (by decide) h4⟩,hdot dotdotName (by decide) h4⟩

/-- What the loop over the slots of a cluster looks for. -/
theorem onlyDots_iff (es : List Slot) :
    onlyDots es = false ↔ ∃ e ∈ es.takeWhile (fun e => !e.isEnd), e.counted = true := by
  induction es with
  | nil => simp [onlyDots]
  | cons e es ih =>
    rw [onlyDots]
    by_cases hend : e.isEnd = true
    · simp [hend]
    · rw [if_neg hend,List.takeWhile_cons_of_pos (by simpa using hend)]
      by_cases hskip : (e.isDeleted || e.isLfn || decide (e.attr &&& 0x08#8 ≠ 0#8) ||
          decide (e 0 = ch '.')) = true
      · have hno : e.counted = false := by
          unfold Slot.counted
          revert hskip
          generalize e.isDeleted = a
          generalize e.isLfn = b
          by_cases hl : e.attr &&& 0x08#8 = 0#8 <;> by_cases hd : e 0 = ch '.' <;>
            cases a <;> cases b <;> simp [hl,hd]
        rw [if_pos hskip,ih]
        simp [hno]
      · have hyes : e.counted = true := by
          unfold Slot.counted
          revert hskip
          generalize e.isDeleted = a
          generalize e.isLfn = b
          by_cases hl : e.attr &&& 0x08#8 = 0#8 <;> by_cases hd : e 0 = ch '.' <;>
            cases a <;> cases b <;> simp [hl,hd]
        rw [if_neg hskip]
        simp [hyes]

/-- Reading sectors one after the other: all transfers pass, or the reading ends early. -/
theorem readSectors_eq (v : Volume) (lba n : Nat) :
    ((∀ j, j < n → v.Passes j) → ∃ buf, v.readSectors lba n = (some buf,v.used n)) ∧
    (¬(∀ j, j < n → v.Passes j) → ∃ m, v.readSectors lba n = (none,v.used m)) := by
  induction n with
  | zero => exact ⟨fun _ => ⟨_,rfl⟩,fun h => absurd (fun j hj => by omega) h⟩
  | succ n ih =>
    obtain ⟨hyes,hno⟩ := ih
    rw [Volume.readSectors]
    by_cases hn : ∀ j, j < n → v.Passes j
    · obtain ⟨buf,hbuf⟩ := hyes hn
      rw [hbuf]
      dsimp only
      rw [Volume.readSector_eq,Volume.used_used]
      have hpass : (v.used n).Passes 0 ↔ v.Passes n := Volume.used_passes v n 0
      by_cases hp : v.Passes n
      · rw [if_pos (hpass.mpr hp)]
        refine ⟨fun _ => ⟨_,rfl⟩,fun h => absurd (fun j hj => ?_) h⟩
        rcases Nat.lt_succ_iff_lt_or_eq.mp hj with hlt | he
        · exact hn j hlt
        · exact he ▸ hp
      · rw [if_neg (fun h => hp (hpass.mp h))]
        exact ⟨fun h => absurd (h n (by omega)) hp,fun _ => ⟨n+1,rfl⟩⟩
    · obtain ⟨m,hm⟩ := hno hn
      rw [hm]
      exact ⟨fun h => absurd (fun j hj => h j (by omega)) hn,fun _ => ⟨m,rfl⟩⟩

theorem readCluster_eq (v : Volume) (c : Nat) :
    (ClusterRead v 0 → ∃ buf, v.readCluster c = (some buf,v.used v.sectorsPerCluster) ∧
      (v.used v.sectorsPerCluster).bufSlots c buf = v.clusterSlots c) ∧
    (¬ClusterRead v 0 → ∃ m, v.readCluster c = (none,v.used m)) := by
  have hall : ClusterRead v 0 ↔ ∀ j, j < v.sectorsPerCluster → v.Passes j := by
    simp only [ClusterRead,Nat.zero_mul,Nat.zero_add]
  obtain ⟨hyes,hno⟩ := readSectors_eq v (v.clusterToLba c) v.sectorsPerCluster
  refine ⟨fun h => ?_,fun h => hno (fun hh => h (hall.mpr hh))⟩
  obtain ⟨buf,hbuf⟩ := hyes (hall.mp h)
  obtain ⟨-,hslots⟩ := v.readCluster_only c
  have hread : v.readCluster c = (some buf,v.used v.sectorsPerCluster) := hbuf
  rw [hread] at hslots
  exact ⟨buf,hread,hslots buf rfl⟩

/-- The state behind the reads of a cluster and its FAT entry. -/
def afterCluster (v : Volume) : Volume := v.used (v.sectorsPerCluster+1)

theorem afterCluster_passes (v : Volume) (i j : Nat) :
    (afterCluster v).Passes (i*(v.sectorsPerCluster+1)+j) ↔
      v.Passes ((i+1)*(v.sectorsPerCluster+1)+j) := by
  rw [afterCluster,Volume.used_passes,Nat.add_mul,Nat.one_mul]
  rw [show v.sectorsPerCluster+1+(i*(v.sectorsPerCluster+1)+j) =
    i*(v.sectorsPerCluster+1)+(v.sectorsPerCluster+1)+j by omega]

theorem clusterRead_succ : ClusterRead (afterCluster v) i ↔ ClusterRead v (i+1) :=
  forall_congr' (fun j => imp_congr_right (fun _ => afterCluster_passes v i j))

theorem linkRead_succ : LinkRead (afterCluster v) i ↔ LinkRead v (i+1) :=
  afterCluster_passes v i _

/-- The clusters behind the first one. -/
theorem examined_succ : Examined v dir (i+1) ↔
    InChain dir ∧ ClusterRead v 0 ∧ LinkRead v 0 ∧ Examined (afterCluster v) (fatAt v dir) i := by
  constructor
  · intro h
    refine ⟨h.chain 0 (by omega),h.clusters 0 (by omega),h.links 0 (by omega),
      fun j hj => h.chain (j+1) (by omega),fun j hj => ?_,fun j hj => ?_⟩
    · exact clusterRead_succ.mpr (h.clusters (j+1) (by omega))
    · exact linkRead_succ.mpr (h.links (j+1) (by omega))
  · intro h
    obtain ⟨hdir,hread,hlink,hrest⟩ := h
    refine ⟨fun j hj => ?_,fun j hj => ?_,fun j hj => ?_⟩
    · cases j with
      | zero => exact hdir
      | succ j => exact hrest.chain j (by omega)
    · cases j with
      | zero => exact hread
      | succ j => exact clusterRead_succ.mp (hrest.clusters j (by omega))
    · cases j with
      | zero => exact hlink
      | succ j => exact linkRead_succ.mp (hrest.links j (by omega))

/-- One turn of the loop of `dir_is_empty`. -/
theorem emptyWalk_cases (fuel c : Nat) (v : Volume) :
    (¬InChain c ∧ walkChain isEmptyBody (fuel+1) c () v = some (.inr (),v)) ∨
    (InChain c ∧ ¬ClusterRead v 0 ∧
      ∃ m, walkChain isEmptyBody (fuel+1) c () v = some (.inl true,v.used m)) ∨
    InChain c ∧ ClusterRead v 0 ∧
      (((∃ e ∈ slotsBeforeEnd v c, e.counted = true) ∧
        ∃ m, walkChain isEmptyBody (fuel+1) c () v = some (.inl false,v.used m)) ∨
       (¬∃ e ∈ slotsBeforeEnd v c, e.counted = true) ∧
        walkChain isEmptyBody (fuel+1) c () v = walkChain isEmptyBody fuel
          (if LinkRead v 0 then fatAt v c else 0x0FFFFFFF) () (afterCluster v)) := by
  rw [walkChain]
  by_cases hc : 2 ≤ c ∧ c < endOfChain
  · right
    rw [if_pos hc]
    obtain ⟨hyes,hno⟩ := readCluster_eq v c
    by_cases hread : ClusterRead v 0
    · right
      obtain ⟨buf,hbuf,hslots⟩ := hyes hread
      refine ⟨hc,hread,?_⟩
      have hget : (v.used v.sectorsPerCluster).fatGetEntry c =
          (if LinkRead v 0 then fatAt v c else 0x0FFFFFFF,afterCluster v) := by
        rw [Volume.fatGetEntry_eq,Volume.used_used]
        have hpass : (v.used v.sectorsPerCluster).Passes 0 ↔ LinkRead v 0 := by
          rw [Volume.used_passes,LinkRead,Nat.zero_mul,Nat.zero_add,Nat.add_zero]
        simp only [hpass]
        rfl
      have hbody : isEmptyBody c () v = if onlyDots ((v.clusterSlots c).map Prod.snd) then
          (.inr (),v.used v.sectorsPerCluster) else (.inl false,afterCluster v) := by
        rw [isEmptyBody,hbuf]
        dsimp only
        rw [hslots,hget]
      rw [hbody]
      cases hdots : onlyDots ((v.clusterSlots c).map Prod.snd) with
      | false =>
        left
        exact ⟨(onlyDots_iff _).mp hdots,v.sectorsPerCluster+1,rfl⟩
      | true =>
        right
        refine ⟨fun hh => ?_,?_⟩
        · rw [(onlyDots_iff _).mpr hh] at hdots
          simp at hdots
        · simp only [if_true,hget]
    · left
      obtain ⟨m,hm⟩ := hno hread
      refine ⟨hc,hread,m,?_⟩
      rw [isEmptyBody,hm]
  · left
    rw [if_neg hc]
    exact ⟨hc,rfl⟩

/-- An answer that the directory is not empty comes from a counted slot. -/
theorem emptyWalk_met (h : walkChain isEmptyBody fuel c () v = some (.inl false,w)) :
    Met v c ∧ w.disk = v.disk := by
  induction fuel generalizing c v with
  | zero => simp [walkChain] at h
  | succ fuel ih =>
    rcases emptyWalk_cases fuel c v with ⟨-,he⟩ | ⟨-,-,m,he⟩ | ⟨hc,hread,⟨hlive,m,he⟩ | ⟨-,he⟩⟩
    · rw [he] at h
      simp at h
    · rw [he] at h
      simp at h
    · rw [he,Option.some.injEq,Prod.mk.injEq] at h
      refine ⟨⟨0,⟨fun j hj => ?_,fun j hj => ?_,fun j hj => by omega⟩,hlive⟩,by rw [← h.2]; rfl⟩
      · rw [Nat.le_zero.mp hj]
        exact hc
      · rw [Nat.le_zero.mp hj]
        exact hread
    · rw [he] at h
      obtain ⟨⟨i,hex,hlive⟩,hdisk⟩ := ih h
      by_cases hlink : LinkRead v 0
      · rw [if_pos hlink] at hex hlive
        exact ⟨⟨i+1,examined_succ.mpr ⟨hc,hread,hlink,hex⟩,hlive⟩,hdisk⟩
      · rw [if_neg hlink] at hex
        have hin := hex.chain 0 (by omega)
        exact absurd hin.2 (by simp [chainAt,endOfChain])

/-- A counted slot that is reached decides the answer. -/
theorem Met.walk (h : Met v c) :
    (∃ fuel w, walkChain isEmptyBody fuel c () v = some (.inl false,w)) ∧
    ∀ fuel r w, walkChain isEmptyBody fuel c () v = some (r,w) → r = .inl false := by
  obtain ⟨i,hex,hlive⟩ := h
  induction i generalizing c v with
  | zero =>
    have hstep : ∀ fuel, ∃ m, walkChain isEmptyBody (fuel+1) c () v = some (.inl false,v.used m) := by
      intro fuel
      rcases emptyWalk_cases fuel c v with ⟨hc,-⟩ | ⟨-,hread,-⟩ | ⟨-,-,⟨-,hm⟩ | ⟨hno,-⟩⟩
      · exact absurd (hex.chain 0 (le_refl _)) hc
      · exact absurd (hex.clusters 0 (le_refl _)) hread
      · exact hm
      · exact absurd hlive hno
    refine ⟨?_,fun fuel r w hr => ?_⟩
    · obtain ⟨m,hm⟩ := hstep 0
      exact ⟨1,_,hm⟩
    · cases fuel with
      | zero => simp [walkChain] at hr
      | succ fuel =>
        obtain ⟨m,hm⟩ := hstep fuel
        rw [hm,Option.some.injEq,Prod.mk.injEq] at hr
        exact hr.1.symm
  | succ i ih =>
    obtain ⟨hc,hread,hlink,hrest⟩ := examined_succ.mp hex
    obtain ⟨⟨fuel₀,w₀,hw₀⟩,hall⟩ := ih hrest hlive
    have hstep : ∀ fuel, (∃ m, walkChain isEmptyBody (fuel+1) c () v = some (.inl false,v.used m)) ∨
        walkChain isEmptyBody (fuel+1) c () v =
          walkChain isEmptyBody fuel (fatAt v c) () (afterCluster v) := by
      intro fuel
      rcases emptyWalk_cases fuel c v with ⟨hno,-⟩ | ⟨-,hno,-⟩ | ⟨-,-,⟨-,hm⟩ | ⟨-,he⟩⟩
      · exact absurd hc hno
      · exact absurd hread hno
      · exact Or.inl hm
      · rw [if_pos hlink] at he
        exact Or.inr he
    refine ⟨?_,fun fuel r w hr => ?_⟩
    · cases hstep fuel₀ with
      | inl hm =>
        obtain ⟨m,hm⟩ := hm
        exact ⟨fuel₀+1,_,hm⟩
      | inr he => exact ⟨fuel₀+1,w₀,he.trans hw₀⟩
    · cases fuel with
      | zero => simp [walkChain] at hr
      | succ fuel =>
        cases hstep fuel with
        | inl hm =>
          obtain ⟨m,hm⟩ := hm
          rw [hm,Option.some.injEq,Prod.mk.injEq] at hr
          exact hr.1.symm
        | inr he => exact hall fuel r w (he ▸ hr)

theorem dirIsEmpty_eq (hk : k .empty = true) : dirIsEmpty fuel k dir v =
    (walkChain isEmptyBody fuel dir () v).map
      (fun r => (match r.1 with | .inl empty => empty | .inr () => true,r.2)) := by
  rw [dirIsEmpty,hk]
  rfl

theorem dirIsEmpty_met (hk : k .empty = true) (h : dirIsEmpty fuel k dir v = some (false,w)) :
    Met v dir ∧ w.disk = v.disk := by
  rw [dirIsEmpty_eq hk] at h
  obtain ⟨⟨r,u⟩,hr,he⟩ := Option.map_eq_some_iff.mp h
  rw [Prod.mk.injEq] at he
  obtain ⟨hb,rfl⟩ := he
  cases r with
  | inr _ => simp at hb
  | inl b =>
    dsimp only at hb
    subst hb
    exact emptyWalk_met hr

theorem Met.dirIsEmpty (h : Met v dir) (hk : k .empty = true) :
    (∃ fuel w, KiNBOL.dirIsEmpty fuel k dir v = some (false,w)) ∧
    ∀ fuel b w, KiNBOL.dirIsEmpty fuel k dir v = some (b,w) → b = false := by
  obtain ⟨⟨fuel,w,hw⟩,hall⟩ := h.walk
  refine ⟨⟨fuel,w,by rw [dirIsEmpty_eq hk,hw]; rfl⟩,fun fuel b w hb => ?_⟩
  rw [dirIsEmpty_eq hk] at hb
  obtain ⟨⟨r,u⟩,hr,he⟩ := Option.map_eq_some_iff.mp hb
  rw [Prod.mk.injEq] at he
  rw [← he.1,hall fuel r u hr]

/-- A removal of a directory that is not recursive asks `dir_is_empty`. -/
theorem remove_dir_eq (k : Kmalloc) (fuel : Nat) (h : NamesDir v path ctx) : ∃ r,
    fat32Remove fuel k path false v = match dirIsEmpty fuel k ctx.startCluster v with
    | none => none
    | some (false,v) => some (.errNotEmpty,v)
    | some (true,v) => (removeSingleNode fuel k 0 r v).map (fun v => (.ok,v)) := by
  obtain ⟨hok,r,node,hfind,hnode,hdir,hctx⟩ := h
  have hkind : node.flags &&& (vfsFile ||| vfsDirectory) ≠ 0#32 := by
    intro he
    apply hdir
    have hand := congrArg (· &&& vfsDirectory) he
    have hmask : (vfsFile ||| vfsDirectory) &&& vfsDirectory = vfsDirectory := by decide
    simpa [BitVec.and_assoc,hmask] using hand
  refine ⟨r,?_⟩
  cases hempty : dirIsEmpty fuel k ctx.startCluster v with
  | none =>
    simp only [fat32Remove,hok,hfind,hnode,Bool.not_true,Bool.false_eq_true,if_false,if_neg hkind,
      if_neg hdir,hctx,hempty]
  | some x =>
    obtain ⟨b,u⟩ := x
    cases b with
    | false =>
      simp only [fat32Remove,hok,hfind,hnode,Bool.not_true,Bool.false_eq_true,if_false,
        if_neg hkind,if_neg hdir,hctx,hempty]
    | true =>
      simp only [fat32Remove,hok,hfind,hnode,Bool.not_true,Bool.false_eq_true,if_false,
        if_neg hkind,if_neg hdir,hctx,hempty]

theorem removeSingle_status {r : NodeRef} {n : Nat} {st : FatStatus}
    (h : (removeSingleNode fuel k n r v).map (fun v => (FatStatus.ok,v)) = some (st,w)) :
    st = .ok := by
  obtain ⟨u,-,he⟩ := Option.map_eq_some_iff.mp h
  exact (Prod.mk.inj he).1.symm

theorem safe_of_cond (h : NamesDir v path ctx)
    (hc : k .empty = false ∨ Met v ctx.startCluster ∨ Clear v ctx.startCluster) :
    SafeRemoval k path v ctx.startCluster := by
  have hrefuse : (∃ fuel w, dirIsEmpty fuel k ctx.startCluster v = some (false,w)) →
      (∀ fuel b w, dirIsEmpty fuel k ctx.startCluster v = some (b,w) → b = false ∧
        w.disk = v.disk) → SafeRemoval k path v ctx.startCluster := by
    intro hex hall
    have hst : ∀ fuel st w, fat32Remove fuel k path false v = some (st,w) →
        st = .errNotEmpty ∧ w.disk = v.disk := by
      intro fuel st w hrun
      obtain ⟨r,hr⟩ := remove_dir_eq k fuel h
      rw [hr] at hrun
      cases hd : dirIsEmpty fuel k ctx.startCluster v with
      | none =>
        rw [hd] at hrun
        simp at hrun
      | some x =>
        obtain ⟨b,u⟩ := x
        obtain ⟨rfl,hdisk⟩ := hall fuel b u hd
        rw [hd] at hrun
        dsimp only at hrun
        rw [Option.some.injEq,Prod.mk.injEq] at hrun
        exact ⟨hrun.1.symm,hrun.2 ▸ hdisk⟩
    refine ⟨fun fuel w hrun => ?_,fun _ => ⟨?_,hst⟩⟩
    · have hno := (hst fuel .ok w hrun).1
      simp at hno
    · obtain ⟨fuel,w,hw⟩ := hex
      obtain ⟨r,hr⟩ := remove_dir_eq k fuel h
      exact ⟨fuel,_,by rw [hr,hw]⟩
  cases hk : k .empty with
  | false =>
    have hall : ∀ fuel, dirIsEmpty fuel k ctx.startCluster v = some (false,v) := by
      intro fuel
      rw [dirIsEmpty,hk]
      rfl
    refine hrefuse ⟨0,v,hall 0⟩ (fun fuel b w hb => ?_)
    rw [hall,Option.some.injEq,Prod.mk.injEq] at hb
    exact ⟨hb.1.symm,by rw [← hb.2]⟩
  | true =>
    rw [hk] at hc
    rcases hc with hno | hmet | hclear
    · simp at hno
    · obtain ⟨hex,hall⟩ := hmet.dirIsEmpty hk
      refine hrefuse hex (fun fuel b w hb => ?_)
      have hbf := hall fuel b w hb
      subst hbf
      exact ⟨rfl,(dirIsEmpty_met hk hb).2⟩
    · refine ⟨fun fuel w _ i hi => (hclear i hi).2,fun hbad => ?_⟩
      rcases hbad with hno | hno
      · rw [hk] at hno
        simp at hno
      · exact absurd hclear hno

theorem cond_of_safe (h : NamesDir v path ctx) (hs : SafeRemoval k path v ctx.startCluster) :
    k .empty = false ∨ Met v ctx.startCluster ∨ Clear v ctx.startCluster := by
  by_contra hno
  rw [not_or,not_or] at hno
  obtain ⟨hk,hmet,hclear⟩ := hno
  rw [Bool.not_eq_false] at hk
  obtain ⟨⟨fuel,⟨st,w⟩,hrun⟩,hall⟩ := hs.refuses (Or.inr hclear)
  obtain ⟨rfl,-⟩ := hall fuel st w hrun
  obtain ⟨r,hr⟩ := remove_dir_eq k fuel h
  rw [hr] at hrun
  cases hd : dirIsEmpty fuel k ctx.startCluster v with
  | none =>
    rw [hd] at hrun
    simp at hrun
  | some x =>
    obtain ⟨b,u⟩ := x
    rw [hd] at hrun
    cases b with
    | false => exact hmet (dirIsEmpty_met hk hd).1
    | true => exact absurd (removeSingle_status hrun) (by simp)

/-- A removal that is not recursive is safe for a directory exactly when the buffer's allocation
fails, reads that pass reach a counted slot, or reads that pass show that no slot is live. -/
theorem remove_safe_iff (k : Kmalloc) (h : NamesDir v path ctx) :
    SafeRemoval k path v ctx.startCluster ↔
      k .empty = false ∨ Met v ctx.startCluster ∨ Clear v ctx.startCluster :=
  ⟨cond_of_safe h,safe_of_cond h⟩

/-- An image whose root holds one directory, and that directory one file. -/
def fullDirDisk : Disk := fun lba =>
  if lba = 0 then smallBpb
  else if lba = 1 then
    put32 (put32 (put32 (put32 (fun _ => 0#8) 0 0x0FFFFFF8) 4 0x0FFFFFFF) 8 0x0FFFFFFF) 12 0x0FFFFFFF
  else if lba = 2 then
    putSlot (fun _ => 0#8) 0 (dirEntry (toShortName (named ['D'])) 0x10#8 3 0)
  else if lba = 3 then
    putSlot (putSlot (putSlot (fun _ => 0#8) 0 (dirEntry dotName 0x10#8 3 0)) 32
      (dirEntry dotdotName 0x10#8 0 0)) 64 (dirEntry (toShortName (named ['F'])) 0x20#8 0 0)
  else fun _ => 0#8

def fullDirVolume (io : List Bool) : Volume := bootVolume (fun _ => true) 1 0 fullDirDisk io

/-- The directory of the image after the driver has started; three transfers pass before. -/
theorem fullDir_found (io : List Bool)
    (h : io = [] ∨ io = [true,true,true,false]) : ∃ v,
    FsReach (fun _ _ => True) (fullDirVolume io) v ∧ v.io = io.drop 3 ∧ v.sectorsPerCluster = 1 ∧
    (slotsBeforeEnd v 3).any Slot.counted = true ∧
    ∃ ctx, NamesDir v (named ['D']) ctx ∧ ctx.startCluster = 3 := by
  have hm : (fat32Init 3 (fun _ => true) (fullDirVolume io)).map (fun v => decide (
      v.io = io.drop 3 ∧ v.sectorsPerCluster = 1 ∧ (slotsBeforeEnd v 3).any Slot.counted = true ∧
      v.fatOk = true ∧ v.vfsFind (stripDevPrefix (named ['D'])) = some (.file 0) ∧
      v.node (.file 0) = some ⟨named ['D'],vfsDirectory,0,some ⟨3,2,0⟩⟩)) = some true := by
    rcases h with rfl | rfl
    · decide +kernel
    · decide +kernel
  obtain ⟨v,hv,he⟩ := Option.map_eq_some_iff.mp hm
  obtain ⟨hio,hspc,hany,hok,hfind,hnode⟩ := of_decide_eq_true he
  exact ⟨v,.mount hv,hio,hspc,hany,⟨3,2,0⟩,⟨hok,.file 0,_,hfind,hnode,by decide,rfl⟩,rfl⟩

/-- With a failing read the directory is removed, and its file is lost. -/
theorem remove_unread : ∃ v, FsReach (fun _ _ => True) (fullDirVolume [true,true,true,false]) v ∧
    ∃ ctx, NamesDir v (named ['D']) ctx ∧
      ¬SafeRemoval (fun _ => true) (named ['D']) v ctx.startCluster := by
  obtain ⟨v,hv,hio,hspc,-,ctx,hdir,hc⟩ := fullDir_found _ (Or.inr rfl)
  refine ⟨v,hv,ctx,hdir,fun hs => ?_⟩
  have hfail : ¬v.Passes 0 := by
    simp [Volume.Passes,hio]
  have hunread : ¬ClusterRead v 0 := by
    intro hr
    apply hfail
    simpa only [Nat.zero_mul,Nat.zero_add] using hr 0 (by omega)
  rcases cond_of_safe hdir hs with hk | ⟨i,hex,-⟩ | hclear
  · simp at hk
  · exact hunread (hex.clusters 0 (by omega))
  · have hon : OnChain v ctx.startCluster 0 := by
      intro j hj
      rw [Nat.le_zero.mp hj,hc]
      exact (by decide : 2 ≤ 3 ∧ 3 < endOfChain)
    exact hunread ((hclear 0 hon).1.clusters 0 (by omega))

theorem remove_safe_iff_sample : ∃ v, FsReach (fun _ _ => True) (fullDirVolume []) v ∧
    SafeRemoval (fun _ => true) (named ['D']) v 3 := by
  obtain ⟨v,hv,hio,hspc,hany,ctx,hdir,hc⟩ := fullDir_found _ (Or.inl rfl)
  have hall : ∀ n, v.Passes n := by
    intro n
    simp [Volume.Passes,hio]
  refine ⟨v,hv,hc ▸ (remove_safe_iff (fun _ => true) hdir).mpr (Or.inr (Or.inl ⟨0,⟨?_,?_,?_⟩,?_⟩))⟩
  · intro j hj
    rw [Nat.le_zero.mp hj,hc]
    exact (by decide : 2 ≤ 3 ∧ 3 < endOfChain)
  · exact fun j _ i _ => hall _
  · exact fun j _ => hall _
  · rw [hc]
    exact List.any_eq_true.mp hany

end KiNBOL
