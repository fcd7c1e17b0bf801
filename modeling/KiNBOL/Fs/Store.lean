import KiNBOL.Framework.Runs
import KiNBOL.Fs.Removal
import KiNBOL.Fs.RemoveSound

namespace KiNBOL

/-! The files and directories of a volume as its users see them, over any calls. -/

variable {v v' w : Volume} {ex : List Nat} {n : FsNode} {ctx : FileCtx} {i j : Fin 40}
  {c off len fuel size : Nat} {cs : List Nat} {mem : Option Sector} {src buf : Sector}

/-- What a read of a file returns. -/
def storeRead (s : Fin 40 → Option StoreFile) (i : Fin 40) (off len : Nat) : List Byte :=
  match s i with
  | none => []
  | some f => (f.bytes.drop off).take len

theorem IsChain.hasClusters (h : IsChain v c cs) (hl : DiskLayout v)
    (hle : size ≤ cs.length*v.clusterSize) :
    HasClusters v c ((size+(v.clusterSize-1))/v.clusterSize) := by
  intro i hi
  have h0 : 0 < v.clusterSize := by
    have := hl.spc
    rw [Volume.clusterSize]
    omega
  have hlt : i < cs.length := by
    rw [Nat.lt_div_iff_mul_lt h0] at hi
    by_contra hge
    have := Nat.mul_le_mul_right v.clusterSize (Nat.le_of_not_lt hge)
    omega
  rw [chainAt_getD h hlt,List.getD_eq_getElem _ _ hlt]
  exact hl.inChain (Chained.all_ok h _ (List.getElem_mem hlt))

/-- The bytes of a file from an offset on. -/
theorem content_window (hn : n.device = some ctx) (v : Volume) (off len : Nat) :
    ((n.content v).drop off).take len =
      (List.range (min len (n.size-off))).map (fun k => fileByte v ctx.startCluster (off+k)) := by
  apply List.ext_getElem?
  intro k
  by_cases hk : k < min len (n.size-off)
  · rw [List.getElem?_take_of_lt (by omega),List.getElem?_drop,content_getElem hn v (by omega)]
    simp [hk]
  · rw [List.getElem?_eq_none (by rw [List.length_take,List.length_drop,length_content hn]; omega),
      List.getElem?_eq_none (by rw [List.length_map,List.length_range]; omega)]

/-- A read on a sound volume. -/
theorem vfsRead_sound (h : Sound v ex) (hend : off+len < 2^32) (hf : off+len < fuel) (k : Bool)
    (i : Fin 40) (buf : Sector) : ∃ r, vfsRead fuel k i off len buf v = some (r,v) ∧
      (List.range r.1).map r.2 = if k then storeRead (storeOf v) i off len else [] := by
  have hnone : ∀ l : List Byte, l = [] → (List.range 0).map buf = if k then l else [] := by
    rintro l rfl
    cases k <;> rfl
  rw [vfsRead,storeRead,storeOf]
  cases hi : v.files i with
  | none => exact ⟨(0,buf),rfl,hnone _ rfl⟩
  | some n =>
    rw [Option.map_some,FsNode.shown]
    dsimp only
    cases hd : n.isDir with
    | true => exact ⟨(0,buf),rfl,hnone _ (by simp)⟩
    | false =>
      obtain ⟨ctx,hn,he⟩ := h.entry i n hi
      simp only [Bool.false_eq_true,if_false,content_window hn]
      rcases (he.file hd).2 with h0 | ⟨cs,hcs,hle⟩
      · rw [fat32FileRead_past (by omega)]
        exact ⟨(0,buf),rfl,hnone _ (by simp [h0])⟩
      · have hl := h.consistent.layout
        have hpos : 0 < v.clusterSize := by
          have := hl.spc
          rw [Volume.clusterSize]
          omega
        have hc := hcs.hasClusters hl hle
        cases k with
        | true =>
          rw [fat32FileRead_fits buf h.quiet hpos hn hc hf hend]
          exact ⟨_,rfl,by rw [map_overlay]; rfl⟩
        | false =>
          by_cases hoff : off < n.size
          · rw [fat32FileRead_copy h.quiet hpos hn hoff hc hf]
            exact ⟨(0,buf),rfl,rfl⟩
          · rw [fat32FileRead_past (by omega)]
            exact ⟨(0,buf),rfl,rfl⟩

/-- The calls of the file system's users, with what `kmalloc` answers them. -/
inductive FileCall where
  | create (k : Kmalloc) (path : CName)
  | mkdir (k : Kmalloc) (path : CName)
  | remove (k : Kmalloc) (path : CName)
  | write (i : Fin 40) (off len : Nat) (mem : Option Sector) (src : Sector)
  | read (i : Fin 40) (off len : Nat) (mem : Bool) (buf : Sector)

inductive FileAnswer where
  | status (st : FatStatus)
  | wrote (r : Nat)
  | bytes (l : List Byte)

def FileCall.run (fuel : Nat) (v : Volume) : FileCall → Option (FileAnswer × Volume)
  | .create k path => (fat32CreateFile fuel k path v).map (fun r => (.status r.1,r.2))
  | .mkdir k path => (fat32Mkdir fuel k path v).map (fun r => (.status r.1,r.2))
  | .remove k path => (fat32Remove fuel k path false v).map (fun r => (.status r.1,r.2))
  | .write i off len mem src =>
    (vfsWrite fuel mem i off len src v).map (fun r => (.wrote r.1,r.2))
  | .read i off len mem buf =>
    (vfsRead fuel mem i off len buf v).map (fun r => (.bytes ((List.range r.1.1).map r.1.2),r.2))

/-- Names as the callers pass them, ends of transfers that are 32-bit numbers. -/
def FileCall.Ok : FileCall → Prop
  | .create _ path => PlainName path
  | .mkdir _ path => PlainName path
  | .remove .. => True
  | .write _ off len _ _ => off+len < 2^32
  | .read _ off len _ _ => off+len < 2^32

def fileStep (fuel : Nat) (v : Volume) (c : FileCall) (a : FileAnswer) (v' : Volume) : Prop :=
  c.run fuel v = some (a,v')

/-- What a call does to the files and directories. -/
def StoreStep (others : Nat → FsNode) (s : Fin 40 → Option StoreFile) (c : FileCall)
    (a : FileAnswer) (s' : Fin 40 → Option StoreFile) : Prop :=
  match c,a with
  | .create _ path,.status st => if st = .ok then StoreMade s path false s' else s' = s
  | .mkdir _ path,.status st => if st = .ok then StoreMade s path true s' else s' = s
  | .remove _ path,.status st =>
    if st = .ok then StoreRemoved s path s' ∨ ForeignPath others path ∧ s' = s else s' = s
  | .write i off len _ src,.wrote r => r ≤ len ∧ StoreWrote s i off (firstBytes src r) s'
  | .read i off len mem _,.bytes l => l = (if mem then storeRead s i off len else []) ∧ s' = s
  | _,_ => False

/-- `vfs_write` on a sound volume. -/
theorem vfsWrite_sound (h : Sound v ex) (hend : off+len < 2^32) (hf : off+len < fuel)
    (mem : Option Sector) (i : Fin 40) (src : Sector) : ∃ r v',
      vfsWrite fuel mem i off len src v = some (r,v') ∧ Sound v' ex ∧ v'.others = v.others ∧
      r ≤ len ∧ StoreWrote (storeOf v) i off (firstBytes src r) (storeOf v') := by
  rw [vfsWrite]
  cases hi : v.files i with
  | none => exact ⟨0,v,rfl,h,rfl,Nat.zero_le _,Or.inl ⟨rfl,rfl⟩⟩
  | some n =>
    dsimp only
    cases hd : n.isDir with
    | true => exact ⟨0,v,rfl,h,rfl,Nat.zero_le _,Or.inl ⟨rfl,rfl⟩⟩
    | false =>
      obtain ⟨r,v',hrun,hsound,hle,hwrote,-⟩ := fat32FileWrite_sound h hi hd hend hf mem src
      exact ⟨r,v',hrun,hsound,fat32FileWrite_others hrun,hle,hwrote⟩

/-- Every call on a sound volume returns and does to the files what it should. -/
theorem FileCall.run_sound (h : Sound v ex) (hf : 2^32 ≤ fuel) {c : FileCall} (hc : c.Ok) : ∃ a v',
    c.run fuel v = some (a,v') ∧ Sound v' ex ∧ v'.others = v.others ∧
    StoreStep v.others (storeOf v) c a (storeOf v') := by
  have hfuel : v.totalClusters+2 ≤ fuel := by
    have hfew := h.consistent.layout.few
    rw [endOfChain] at hfew
    omega
  have hothers : ∀ {c : FsCall} {k st v'}, c.run fuel k v = some (st,v') → v'.others = v.others :=
    fun hrun => (FsCall.foreign hrun).others
  cases c with
  | create k path =>
    obtain ⟨st,v',hrun,hsound,-,hok,hno⟩ := fat32CreateFile_sound h hfuel k hc
    refine ⟨.status st,v',by rw [FileCall.run,hrun]; rfl,hsound,hothers (c := .create path) hrun,?_⟩
    rw [StoreStep]
    split_ifs with hst
    · exact hok hst
    · exact hno hst
  | mkdir k path =>
    obtain ⟨st,v',hrun,hsound,-,hok,hno⟩ := fat32Mkdir_sound h hfuel k hc
    refine ⟨.status st,v',by rw [FileCall.run,hrun]; rfl,hsound,hothers (c := .mkdir path) hrun,?_⟩
    rw [StoreStep]
    split_ifs with hst
    · exact hok hst
    · exact hno hst
  | remove k path =>
    obtain ⟨st,v',hrun,hsound,-,hok,hno⟩ := fat32Remove_sound h hfuel k path
    refine ⟨.status st,v',by rw [FileCall.run,hrun]; rfl,hsound,
      hothers (c := .remove path false) hrun,?_⟩
    rw [StoreStep]
    split_ifs with hst
    · exact hok hst
    · exact hno hst
  | write i off len mem src =>
    have hend : off+len < 2^32 := hc
    obtain ⟨r,v',hrun,hsound,ho,hwrote⟩ := vfsWrite_sound h hend (by omega : off+len < fuel) mem i src
    exact ⟨.wrote r,v',by rw [FileCall.run,hrun]; rfl,hsound,ho,hwrote⟩
  | read i off len mem buf =>
    have hend : off+len < 2^32 := hc
    obtain ⟨r,hrun,hbytes⟩ := vfsRead_sound h hend (by omega : off+len < fuel) mem i buf
    exact ⟨.bytes _,v,by rw [FileCall.run,hrun]; rfl,h,rfl,hbytes,rfl⟩

/-- A run of calls on a sound volume is one of the files that the users see. -/
theorem Sound.runs (h : Sound v ex) (hf : 2^32 ≤ fuel) {l : List (FileCall × FileAnswer)}
    (hruns : Runs (fileStep fuel) v l w) (hok : ∀ x ∈ l, x.1.Ok) :
    Sound w ex ∧ Runs (StoreStep v.others) (storeOf v) l (storeOf w) := by
  have hsim : ∀ (u : Volume) s c a (u' : Volume),
      (Sound u ex ∧ u.others = v.others ∧ s = storeOf u) → FileCall.Ok c → fileStep fuel u c a u' →
      ∃ s', StoreStep v.others s c a s' ∧ Sound u' ex ∧ u'.others = v.others ∧ s' = storeOf u' := by
    rintro u s c a u' ⟨hs,ho,rfl⟩ hc hstep
    obtain ⟨a',w,hrun,hsound,ho',hstore⟩ := c.run_sound hs hf hc
    obtain ⟨rfl,rfl⟩ := Prod.mk.inj (Option.some.inj (hstep.symm.trans hrun))
    rw [ho] at hstore ho'
    exact ⟨_,hstore,hsound,ho',rfl⟩
  obtain ⟨s',hstore,hsound,-,rfl⟩ := hruns.simulate hok hsim ⟨h,rfl,rfl⟩
  exact ⟨hsound,hstore⟩

/-- The call does not write to the file in this slot and does not remove it. -/
def FileCall.Spares (i : Fin 40) (name : CName) : FileCall → Prop
  | .remove _ path => strEqCi name (stripDevPrefix (stripDevPrefix path)) = false
  | .write j _ _ _ _ => j ≠ i
  | _ => True

theorem StoreStep.keeps {others : Nat → FsNode} {s s' : Fin 40 → Option StoreFile} {c : FileCall}
    {a : FileAnswer} {f : StoreFile} (h : StoreStep others s c a s') (hc : c.Spares i f.name)
    (hi : s i = some f) : s' i = some f := by
  have hmade : ∀ {path : CName} {isDir st}, (if st = FatStatus.ok then StoreMade s path isDir s'
      else s' = s) → s' i = some f := by
    intro path isDir st hst
    split_ifs at hst
    · obtain ⟨j,name,hj,-,rfl⟩ := hst
      rw [Function.update_of_ne,hi]
      rintro rfl
      rw [hi] at hj
      simp at hj
    · rw [hst,hi]
  cases c with
  | create k path =>
    cases a with
    | status st => exact hmade h
    | wrote r => exact h.elim
    | bytes l => exact h.elim
  | mkdir k path =>
    cases a with
    | status st => exact hmade h
    | wrote r => exact h.elim
    | bytes l => exact h.elim
  | remove k path =>
    cases a with
    | status st =>
      rw [StoreStep] at h
      split_ifs at h
      · rcases h with ⟨j,g,hj,hname,rfl⟩ | ⟨-,rfl⟩
        · rw [Function.update_of_ne,hi]
          rintro rfl
          obtain rfl := Option.some.inj (hi.symm.trans hj)
          have hspare : strEqCi f.name (stripDevPrefix (stripDevPrefix path)) = false := hc
          rw [hname] at hspare
          simp at hspare
        · exact hi
      · rw [h,hi]
    | wrote r => exact h.elim
    | bytes l => exact h.elim
  | write j off len mem src =>
    cases a with
    | wrote r =>
      obtain ⟨-,⟨-,rfl⟩ | ⟨g,b,-,-,-,rfl⟩⟩ := h
      · exact hi
      · rw [Function.update_of_ne (fun he => hc he.symm),hi]
    | status st => exact h.elim
    | bytes l => exact h.elim
  | read j off len mem buf =>
    cases a with
    | bytes l =>
      obtain ⟨-,rfl⟩ := h
      exact hi
    | status st => exact h.elim
    | wrote r => exact h.elim

theorem StoreWrote.read {s s' : Fin 40 → Option StoreFile} {data : List Byte}
    (h : StoreWrote s i off data s') : storeRead s' i off data.length = data := by
  rcases h with ⟨rfl,-⟩ | ⟨f,b,-,-,hover,rfl⟩
  · rw [storeRead,List.length_nil]
    split <;> rfl
  · rw [storeRead,Function.update_self]
    exact hover.read

end KiNBOL
