import KiNBOL.Fs.DirReaders
import KiNBOL.Fs.Lfn
import KiNBOL.Fs.UniqueNames

namespace KiNBOL

/-- A short name that a scan takes for a name: of an entry in use, no dot entry and not blank. -/
structure ShortName.Valid (s : ShortName) : Prop where
  live : s.name8.getD 0 0#8 ≠ 0#8 ∧ s.name8.getD 0 0#8 ≠ 0xE5#8
  noDot : s.name8.getD 0 0#8 ≠ ch '.'
  shown : formatName s ≠ []

instance (s : ShortName) : Decidable s.Valid :=
  decidable_of_iff ((s.name8.getD 0 0#8 ≠ 0#8 ∧ s.name8.getD 0 0#8 ≠ 0xE5#8) ∧
    s.name8.getD 0 0#8 ≠ ch '.' ∧ formatName s ≠ [])
    ⟨fun ⟨h1,h2,h3⟩ => ⟨h1,h2,h3⟩,fun ⟨h1,h2,h3⟩ => ⟨h1,h2,h3⟩⟩

/-- The scanner has a whole long name for this short name, and no slot of it is missing. -/
structure LfnScan.Holds (s : LfnScan) (leaf : CName) (short : ShortName) : Prop where
  active : s.active = true
  last : s.nextSeq = 0
  sum : s.sum = lfnChecksum short
  name : cString vfsNameMax s.name = leaf

variable {leaf pre : CName} {short : ShortName} {s t : LfnScan} {k : Kmalloc} {attr : Byte}
  {sub : Nat → CName → Volume → Option Volume}

theorem lfnPartial_holds (h0 : 0#8 ∉ leaf) (hlen : leaf.length < vfsNameMax) (short : ShortName) :
    (lfnPartial leaf (lfnChecksum short) 0).Holds leaf short where
  active := rfl
  last := rfl
  sum := rfl
  name := lfnPartial_name h0 hlen _

theorem notLfn_of_notVolume : ∀ attr : Byte, attr &&& 0x08#8 = 0#8 → attr &&& 0x0F#8 ≠ 0x0F#8 := by
  decide

/-- The short entry behind a whole long name gets this name. -/
theorem LfnScan.Holds.scan (h : s.Holds leaf short) (hs : short.Valid) (ha : attr &&& 0x08#8 = 0#8)
    (cluster size : Nat) :
    s.scan (dirEntry short attr cluster size) = (.entry leaf,{ s with active := false }) := by
  have hfirst := first_dirEntry short attr cluster size
  have hend : (dirEntry short attr cluster size).isEnd = false := by
    rw [Slot.isEnd,hfirst]
    exact decide_eq_false hs.live.1
  have hdel : (dirEntry short attr cluster size).isDeleted = false := by
    rw [Slot.isDeleted,hfirst]
    exact decide_eq_false hs.live.2
  have hlfn : (dirEntry short attr cluster size).isLfn = false := by
    rw [Slot.isLfn,attr_dirEntry]
    exact decide_eq_false (notLfn_of_notVolume attr ha)
  have hdot : dirEntry short attr cluster size 0 ≠ ch '.' := by
    rw [hfirst]
    exact hs.noDot
  have hlong : (s.active && s.nextSeq = 0 &&
      lfnChecksum (dirEntry short attr cluster size).short = s.sum) = true := by
    rw [short_dirEntry]
    simp [h.active,h.last,h.sum]
  rw [LfnScan.scan]
  dsimp only
  rw [hend,hdel,hlfn,attr_dirEntry,if_neg Bool.false_ne_true,if_neg Bool.false_ne_true,
    if_neg Bool.false_ne_true,if_neg (not_not.mpr ha),if_neg hdot,if_neg,if_pos hlong,h.name]
  rw [short_dirEntry]
  exact hs.shown

/-- Slots that yield no entry are left behind. -/
theorem LfnScan.Skips.scanSlots {es : List Slot} (h : s.Skips es t) {locs : List Loc}
    (hlen : locs.length = es.length) (rest : List (Loc × Slot)) (v : Volume) :
    KiNBOL.scanSlots k pre sub (locs.zip es++rest) s v = KiNBOL.scanSlots k pre sub rest t v := by
  induction es generalizing locs s with
  | nil =>
    obtain rfl : s = t := h
    rw [List.zip_nil_right,List.nil_append]
  | cons e es ih =>
    obtain ⟨s',hskip,hrest⟩ := h
    cases locs with
    | nil => simp at hlen
    | cons loc locs =>
      rw [List.zip_cons_cons,List.cons_append,KiNBOL.scanSlots,hskip]
      exact ih hrest (by simpa using hlen)

/-- Whatever the scanner has seen before: the slots written for a name leave it with this name,
which the short entry then gets; and wherever these slots lie in the clusters of a directory, a
scan of the directory comes to its short entry so. -/
theorem long_name_codec (h0 : 0#8 ∉ leaf) (hlen : leaf.length ≤ 63) (hs : short.Valid)
    (ha : attr &&& 0x08#8 = 0#8) (cluster size : Nat) :
    (∀ s : LfnScan, ∃ t, s.Skips (lfnEntries leaf (lfnChecksum short)) t ∧ t.Holds leaf short ∧
      t.scan (dirEntry short attr cluster size) = (.entry leaf,{ t with active := false })) ∧
    ∀ (v : Volume) (dir : Nat) (cs : List Nat) (fuel : Nat) (k : Kmalloc) (levels : Nat) (pre : CName)
      (before : List (Loc × Slot)) (locs : List Loc) (loc : Loc) (behind : List (Loc × Slot))
      (s : LfnScan) (u : Volume), v.io = [] → Walk v dir cs → cs.length < fuel →
      v.slotFull = false → k (.scan dir) = true → locs.length = lfnCount leaf →
      v.dirSlots cs = before++(locs.zip (lfnEntries leaf (lfnChecksum short))++
        (loc,dirEntry short attr cluster size)::behind) →
      scanSlots k pre (scanDir fuel k levels) before lfnStart v = some (.inr s,u) →
      ∃ t, t.Holds leaf short ∧
        t.scan (dirEntry short attr cluster size) = (.entry leaf,{ t with active := false }) ∧
        scanDir fuel k (levels+1) dir pre v = (scanSlots k pre (scanDir fuel k levels)
          ((loc,dirEntry short attr cluster size)::behind) t u).map Prod.snd := by
  have hholds : (lfnPartial leaf (lfnChecksum short) 0).Holds leaf short :=
    lfnPartial_holds h0 (by rw [vfsNameMax]; omega) short
  have hscan := hholds.scan hs ha cluster size
  constructor
  · intro s
    exact ⟨_,lfnEntries_skips h0 _ s,hholds,hscan⟩
  · intro v dir cs fuel k levels pre before locs loc behind s u hq hw hf hroom hk hlocs hslots hbefore
    have hsub : ∀ c p u w, Undisturbed v u → scanDir fuel k levels c p u = some w →
        Undisturbed v w := fun c p u w hu hw => scanDir_undisturbed hu hw
    have hcount : locs.length = (lfnEntries leaf (lfnChecksum short)).length := by
      rw [hlocs,lfnEntries,List.length_map,List.length_range]
    refine ⟨_,hholds,hscan,?_⟩
    have hloop : scanDir fuel k (levels+1) dir pre v =
        scanLoop k pre (scanDir fuel k levels) fuel dir lfnStart v := by
      rw [scanDir,if_neg (by simp [hroom]),if_neg (by simp [hk])]
      rfl
    rw [hloop,scanLoop_walk hsub hw hf ⟨SameDisk.refl v,hq⟩,hslots,scanSlots_append,hbefore]
    dsimp only
    rw [(lfnEntries_skips h0 _ s).scanSlots hcount]

/-- An image whose root directory lies in the clusters 2 and 3. The last slot of the first of them is
the LFN slot of a name, and the first of the second is its short entry. -/
def splitNameDisk : Disk := fun lba =>
  if lba = 0 then smallBpb
  else if lba = 1 then put32 (put32 (fun _ => 0#8) 8 3) 12 0x0FFFFFFF
  else if lba = 2 then
    putSlot (fun i => if i < 480 then 0xE5#8 else 0#8) 480
      (lfnEntry (named ['a',' ','b']) 3 1 (lfnChecksum (toShortName (named ['A']))) 1)
  else if lba = 3 then
    putSlot (fun _ => 0#8) 0 (dirEntry (toShortName (named ['A'])) 0x20#8 0 7)
  else fun _ => 0#8

def splitNameVolume : Volume := bootVolume (fun _ => true) 1 0 splitNameDisk []

theorem long_name_codec_sample : ∃ v u t behind, fat32Init 3 (fun _ => true) splitNameVolume = some v ∧
    t.Holds (named ['a',' ','b']) (toShortName (named ['A'])) ∧
    scanDir 3 (fun _ => true) 4 2 [] v = (scanSlots (fun _ => true) []
      (scanDir 3 (fun _ => true) 3)
      ((⟨3,0⟩,dirEntry (toShortName (named ['A'])) 0x20#8 0 7)::behind) t u).map Prod.snd := by
  have hm : (fat32Init 3 (fun _ => true) splitNameVolume).map (fun v => decide (
      v.io = [] ∧ fatAt v 2 = 3 ∧ endOfChain ≤ fatAt v 3 ∧ v.slotFull = false ∧
      v.dirSlots [2,3] = (v.dirSlots [2,3]).take 15++
        ([⟨2,480⟩].zip (lfnEntries (named ['a',' ','b']) (lfnChecksum (toShortName (named ['A']))))++
          (⟨3,0⟩,dirEntry (toShortName (named ['A'])) 0x20#8 0 7)::(v.dirSlots [2,3]).drop 17) ∧
      ((scanSlots (fun _ => true) [] (scanDir 3 (fun _ => true) 3)
        ((v.dirSlots [2,3]).take 15) lfnStart v).bind (fun r => r.1.getRight?)).isSome = true)) =
      some true := by
    decide +kernel
  obtain ⟨v,hv,he⟩ := Option.map_eq_some_iff.mp hm
  obtain ⟨hq,hnext,hend,hroom,hslots,hbefore⟩ := of_decide_eq_true he
  obtain ⟨s,hstate⟩ := Option.isSome_iff_exists.mp hbefore
  obtain ⟨⟨r,u⟩,hrun,hr⟩ := Option.bind_eq_some_iff.mp hstate
  obtain rfl := Sum.getRight?_eq_some_iff.mp hr
  have hw : Walk v 2 [2,3] := by
    have hlast : ¬InChain (fatAt v 3) := fun hc => absurd hc.2 (Nat.not_lt.mpr hend)
    exact ⟨rfl,⟨by decide,by decide⟩,hnext,⟨by decide,by decide⟩,hlast⟩
  have h0 : 0#8 ∉ named ['a',' ','b'] := by decide
  have hs : (toShortName (named ['A'])).Valid := by decide
  have ha : (0x20#8 : Byte) &&& 0x08#8 = 0#8 := by decide
  obtain ⟨-,hread⟩ := long_name_codec h0 (by decide) hs ha 0 7
  obtain ⟨t,ht,-,hscan⟩ := hread v 2 [2,3] 3 _ 3 [] _ [⟨2,480⟩] ⟨3,0⟩ _ s u hq hw (by decide) hroom rfl rfl hslots hrun
  exact ⟨v,u,t,_,hv,ht,hscan⟩

end KiNBOL
