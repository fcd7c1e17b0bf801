import KiNBOL.Fs.EmptyCheck
import KiNBOL.Fs.Listing
import KiNBOL.Framework.EndMark

namespace KiNBOL

/-! What the readers of a directory see of it, when transfers pass. -/

/-- An end mark is followed only by end marks. -/
def EndTail (l : List (Loc × Slot)) : Prop := Ended (fun x => x.2.isEnd) l

instance (l : List (Loc × Slot)) : Decidable (EndTail l) := inferInstanceAs (Decidable (Ended _ l))

/-- The LFN state at the beginning of a directory. -/
def lfnStart : LfnScan := ⟨false,0,0#8,fun _ => 0#8⟩

/-- The three readers see every slot of a directory that is no end mark, given their buffers. -/
structure Seen (v : Volume) (dir : Nat) (cs : List Nat) : Prop where
  shorts : ∀ fuel k n s, cs.length < fuel → k (.probe n) = true →
    shortNameExists fuel k n dir s v =
      some ((v.dirSlots cs).any (fun x => !x.2.isFree && !x.2.isLfn && x.2.short = s),v)
  empty : ∀ fuel k, cs.length < fuel → k .empty = true →
    dirIsEmpty fuel k dir v = some (!(v.dirSlots cs).any (fun x => !x.2.isEnd && x.2.counted),v)
  scan : ∀ fuel k levels pre, cs.length < fuel → v.slotFull = false → k (.scan dir) = true →
    scanDir fuel k (levels+1) dir pre v = (scanSlots k pre (scanDir fuel k levels)
      ((v.dirSlots cs).filter (fun x => !x.2.isEnd)) lfnStart v).map Prod.snd

variable {b u v w : Volume} {c dir fuel : Nat} {cs : List Nat} {k : Kmalloc} {pre : CName}
  {l : List (Loc × Slot)} {s : LfnScan}

theorem EndTail.cluster (h : EndTail (v.dirSlots cs)) (hc : c ∈ cs) : EndTail (v.clusterSlots c) := by
  apply Ended.sublist h
  obtain ⟨as,bs,rfl⟩ := List.append_of_mem hc
  rw [Volume.dirSlots,List.flatMap_append,List.flatMap_cons]
  exact (List.sublist_append_left _ _).trans (List.sublist_append_right _ _)

/-- The slots before the end mark of a cluster are those that are none. -/
theorem EndTail.mem_beforeEnd (h : EndTail (v.clusterSlots c)) (e : Slot) :
    e ∈ ((v.clusterSlots c).map Prod.snd).takeWhile (fun e => !e.isEnd) ↔
      ∃ x ∈ v.clusterSlots c, x.2.isEnd = false ∧ x.2 = e := by
  rw [List.takeWhile_map,List.mem_map]
  constructor
  · intro he
    obtain ⟨x,hx,rfl⟩ := he
    obtain ⟨hmem,hend⟩ := (Ended.mem_takeWhile h x).mp hx
    exact ⟨x,hmem,hend,rfl⟩
  · intro he
    obtain ⟨x,hmem,hend,rfl⟩ := he
    exact ⟨x,(Ended.mem_takeWhile h x).mpr ⟨hmem,hend⟩,rfl⟩

/-- Searches cluster by cluster up to the end marks are searches of the whole directory. -/
theorem EndTail.any_clusters (h : EndTail (v.dirSlots cs)) {f : List Slot → Bool} {q : Slot → Bool}
    (hf : ∀ es, f es = true ↔ ∃ e ∈ es.takeWhile (fun e => !e.isEnd), q e = true) :
    cs.any (fun c => f ((v.clusterSlots c).map Prod.snd)) =
      (v.dirSlots cs).any (fun x => !x.2.isEnd && q x.2) := by
  rw [Bool.eq_iff_iff,List.any_eq_true,List.any_eq_true]
  constructor
  · intro hany
    obtain ⟨c,hc,hfound⟩ := hany
    obtain ⟨e,he,hq⟩ := (hf _).mp hfound
    obtain ⟨x,hx,hend,rfl⟩ := ((h.cluster hc).mem_beforeEnd e).mp he
    exact ⟨x,List.mem_flatMap.mpr ⟨c,hc,hx⟩,by simp [hend,hq]⟩
  · intro hany
    obtain ⟨x,hx,hq⟩ := hany
    rw [Bool.and_eq_true,Bool.not_eq_true'] at hq
    obtain ⟨c,hc,hmem⟩ := List.mem_flatMap.mp hx
    refine ⟨c,hc,(hf _).mpr ⟨x.2,?_,hq.2⟩⟩
    exact ((h.cluster hc).mem_beforeEnd x.2).mpr ⟨x,hmem,hq.1,rfl⟩

/-- What `short_name_exists` looks for in a cluster. -/
theorem hasShort_iff (n : ShortName) (es : List Slot) : hasShort n es = true ↔
    ∃ e ∈ es.takeWhile (fun e => !e.isEnd),
      (!e.isDeleted && !e.isLfn && decide (e.short = n)) = true := by
  induction es with
  | nil => simp [hasShort]
  | cons e es ih =>
    rw [hasShort]
    by_cases hend : e.isEnd = true
    · simp [hend]
    · rw [if_neg hend,List.takeWhile_cons_of_pos (by simpa using hend)]
      by_cases hskip : (e.isDeleted || e.isLfn) = true
      · rw [if_pos hskip,ih]
        cases hd : e.isDeleted <;> simp_all
      · rw [if_neg hskip]
        rw [Bool.or_eq_true,not_or,Bool.not_eq_true,Bool.not_eq_true] at hskip
        by_cases hs : e.short = n
        · simp [hs,hskip.1,hskip.2]
        · rw [if_neg hs,ih]
          simp [hs]

theorem shortNameExists_seen (hq : v.io = []) (hw : Walk v dir cs) (ht : EndTail (v.dirSlots cs))
    (hf : cs.length < fuel) {n : Nat} (hk : k (.probe n) = true) (name : ShortName) :
    shortNameExists fuel k n dir name v = some ((v.dirSlots cs).any
      (fun x => !x.2.isFree && !x.2.isLfn && x.2.short = name),v) := by
  rw [shortNameExists_spec hq hw hf,hk,Bool.true_and,shortTaken,ht.any_clusters (hasShort_iff name)]
  congr 2
  apply congrArg (List.any _)
  funext x
  rw [Slot.isFree,Bool.not_or,Bool.and_assoc,Bool.and_assoc,Bool.and_assoc]

theorem dirIsEmpty_seen (hq : v.io = []) (hw : Walk v dir cs) (ht : EndTail (v.dirSlots cs))
    (hf : cs.length < fuel) (hk : k .empty = true) :
    dirIsEmpty fuel k dir v = some (!(v.dirSlots cs).any (fun x => !x.2.isEnd && x.2.counted),v) := by
  have hbody : ∀ c (t : Unit), isEmptyBody c t v = settle v
      (if onlyDots ((v.clusterSlots c).map Prod.snd) then .inr () else .inl (false,v)) := by
    intro c t
    obtain ⟨buf,hread,hslots⟩ := Volume.readCluster_quiet hq c
    rw [isEmptyBody,hread]
    dsimp only
    rw [hslots,Volume.fatGetEntry_quiet hq]
    split_ifs <;> rfl
  have hover : overClusters (fun c (_ : Unit) =>
      if onlyDots ((v.clusterSlots c).map Prod.snd) then
        (.inr () : (Bool × Volume) ⊕ Unit) else .inl (false,v)) cs () =
      if cs.any (fun c => !onlyDots ((v.clusterSlots c).map Prod.snd)) then .inl (false,v)
      else .inr () := by
    clear hw ht hf
    induction cs with
    | nil => rfl
    | cons x cs ih =>
      rw [overClusters,List.any_cons]
      cases onlyDots ((v.clusterSlots x).map Prod.snd) with
      | true => exact ih
      | false => rfl
  rw [dirIsEmpty_eq hk,walkChain_walk hq hbody hw hf,hover]
  have hany := ht.any_clusters (f := fun es => !onlyDots es) (q := Slot.counted) (fun es => by
    rw [Bool.not_eq_true',onlyDots_iff])
  rw [hany]
  cases (v.dirSlots cs).any (fun x => !x.2.isEnd && x.2.counted) <;> rfl

/-- The directories are read as in `b`, and transfers pass. -/
def Undisturbed (b v : Volume) : Prop := SameDisk b v ∧ v.io = []

theorem mountNode_undisturbed (hb : Undisturbed b v) (k : Kmalloc) (loc : Loc) (n : FsNode) :
    Undisturbed b (mountNode k loc n v) := by
  have hstep : TableStep v (mountNode k loc n v) := by
    rw [mountNode]
    split_ifs
    · exact TableStep.refl v
    · rcases addNode_cases v n with ⟨hno,-⟩ | ⟨i,-,hsome⟩
      · rw [hno]
        exact TableStep.refl v
      · rw [hsome]
        exact TableStep.withNode v i n
  exact ⟨hb.1.trans hstep.same,hstep.io.trans hb.2⟩

section

variable {sub : Nat → CName → Volume → Option Volume}
  (hsub : ∀ c p u w, Undisturbed b u → sub c p u = some w → Undisturbed b w)

include hsub

theorem scanSlots_undisturbed {r : Unit ⊕ LfnScan} (hb : Undisturbed b v)
    (h : scanSlots k pre sub l s v = some (r,w)) : Undisturbed b w := by
  induction l generalizing s v with
  | nil =>
    obtain ⟨-,rfl⟩ := Prod.mk.inj (Option.some.inj h)
    exact hb
  | cons x l ih =>
    obtain ⟨loc,e⟩ := x
    rw [scanSlots] at h
    split at h
    next =>
      obtain ⟨-,rfl⟩ := Prod.mk.inj (Option.some.inj h)
      exact hb
    next => exact ih hb h
    next =>
      dsimp only at h
      split at h
      · split at h
        · split at h
          next => simp at h
          next hw => exact ih (hsub _ _ _ _ (mountNode_undisturbed hb _ _ _) hw) h
        · exact ih (mountNode_undisturbed hb _ _ _) h
      · exact ih (mountNode_undisturbed hb _ _ _) h

theorem scanLoop_undisturbed (hb : Undisturbed b v) (h : scanLoop k pre sub fuel c s v = some w) :
    Undisturbed b w := by
  induction fuel generalizing c s v with
  | zero => simp [scanLoop] at h
  | succ fuel ih =>
    rw [scanLoop] at h
    split_ifs at h
    · obtain ⟨buf,hread,-⟩ := Volume.readCluster_quiet hb.2 c
      rw [hread] at h
      dsimp only at h
      cases hscan : scanSlots k pre sub (v.bufSlots c buf) s v with
      | none => simp [hscan] at h
      | some r =>
        obtain ⟨r,u⟩ := r
        have hu := scanSlots_undisturbed hsub hb hscan
        rw [hscan] at h
        cases r with
        | inl t =>
          rw [← Option.some.inj h]
          exact hu
        | inr s' =>
          dsimp only at h
          rw [Volume.fatGetEntry_quiet hu.2] at h
          exact ih hu h
    · rw [← Option.some.inj h]
      exact hb

omit hsub in
theorem scanSlots_append (as bs : List (Loc × Slot)) (s : LfnScan) (v : Volume) :
    scanSlots k pre sub (as++bs) s v =
      match scanSlots k pre sub as s v with
      | none => none
      | some (.inl (),v) => some (.inl (),v)
      | some (.inr s,v) => scanSlots k pre sub bs s v := by
  induction as generalizing s v with
  | nil => rfl
  | cons x as ih =>
    obtain ⟨loc,e⟩ := x
    rw [List.cons_append,scanSlots,scanSlots]
    cases hs : s.scan e with
    | mk r s' =>
      cases r with
      | stop => rfl
      | skip => exact ih s' v
      | entry name =>
        dsimp only
        split_ifs
        · cases sub e.cluster (buildFullName (buildFullName pre name) [ch '/']) _ with
          | none => rfl
          | some w => exact ih s' w
        · exact ih s' _
        · exact ih s' _

/-- The scan cluster by cluster is a scan of the whole directory. -/
theorem scanLoop_walk (hw : Walk b c cs) (hf : cs.length < fuel) (hv : Undisturbed b v) :
    scanLoop k pre sub fuel c s v = (scanSlots k pre sub (b.dirSlots cs) s v).map Prod.snd := by
  induction cs generalizing c fuel s v with
  | nil =>
    obtain ⟨fuel,rfl⟩ : ∃ n, fuel = n+1 := ⟨fuel-1,by omega⟩
    have hout : ¬(2 ≤ c ∧ c < endOfChain) := hw
    rw [scanLoop,if_neg hout]
    rfl
  | cons x cs ih =>
    obtain ⟨rfl,hx,hcs⟩ := hw
    obtain ⟨fuel,rfl⟩ : ∃ n, fuel = n+1 := ⟨fuel-1,by omega⟩
    have hin : 2 ≤ c ∧ c < endOfChain := hx
    obtain ⟨buf,hread,hslots⟩ := Volume.readCluster_quiet hv.2 c
    rw [scanLoop,if_pos hin,hread]
    dsimp only
    rw [hslots,hv.1.1,Volume.dirSlots,List.flatMap_cons,scanSlots_append]
    cases hscan : scanSlots k pre sub (b.clusterSlots c) s v with
    | none => rfl
    | some r =>
      obtain ⟨r,w⟩ := r
      have hw := scanSlots_undisturbed hsub hv hscan
      cases r with
      | inl t => rfl
      | inr s' =>
        dsimp only
        rw [Volume.fatGetEntry_quiet hw.2,hw.1.2]
        exact ih hcs (by simpa using hf) hw

end

theorem scanDir_undisturbed {levels : Nat} (hv : Undisturbed b v)
    (h : scanDir fuel k levels dir pre v = some w) : Undisturbed b w := by
  induction levels generalizing dir pre v w with
  | zero =>
    rw [← Option.some.inj h]
    exact hv
  | succ levels ih =>
    rw [scanDir] at h
    split_ifs at h
    · rw [← Option.some.inj h]
      exact hv
    · rw [← Option.some.inj h]
      exact hv
    · exact scanLoop_undisturbed (fun c p u w hu hw => ih hu hw) hv h

/-- Behind an end mark the scan looks at nothing. -/
theorem EndTail.scanSlots (h : EndTail l) (k : Kmalloc) (pre : CName)
    (sub : Nat → CName → Volume → Option Volume) (s : LfnScan) (v : Volume) :
    (KiNBOL.scanSlots k pre sub l s v).map Prod.snd =
      (KiNBOL.scanSlots k pre sub (l.filter (fun x => !x.2.isEnd)) s v).map Prod.snd := by
  rw [← Ended.takeWhile_eq h]
  clear h
  induction l generalizing s v with
  | nil => rfl
  | cons x l ih =>
    obtain ⟨loc,e⟩ := x
    by_cases hend : e.isEnd = true
    · have hstop : s.scan e = (.stop,s) := if_pos hend
      rw [List.takeWhile_cons_of_neg (by simpa using hend)]
      simp only [KiNBOL.scanSlots,hstop,Option.map_some]
    · rw [List.takeWhile_cons_of_pos (by simpa using hend),KiNBOL.scanSlots,KiNBOL.scanSlots]
      cases hs : s.scan e with
      | mk r s' =>
        cases r with
        | stop => rfl
        | skip => exact ih s' v
        | entry name =>
          dsimp only
          split_ifs
          · cases sub e.cluster (buildFullName (buildFullName pre name) [ch '/']) _ with
            | none => rfl
            | some w => exact ih s' w
          · exact ih s' _
          · exact ih s' _

theorem scanDir_seen (hq : v.io = []) (hw : Walk v dir cs) (ht : EndTail (v.dirSlots cs))
    (hf : cs.length < fuel) (hroom : v.slotFull = false) (hk : k (.scan dir) = true) (levels : Nat)
    (pre : CName) : scanDir fuel k (levels+1) dir pre v = (scanSlots k pre (scanDir fuel k levels)
      ((v.dirSlots cs).filter (fun x => !x.2.isEnd)) lfnStart v).map Prod.snd := by
  have hsub : ∀ c p u w, Undisturbed v u → scanDir fuel k levels c p u = some w →
      Undisturbed v w := fun c p u w hu hw => scanDir_undisturbed hu hw
  rw [scanDir,if_neg (by simp [hroom]),if_neg (by simp [hk]),
    scanLoop_walk hsub hw hf ⟨SameDisk.refl v,hq⟩]
  exact ht.scanSlots k pre (scanDir fuel k levels) lfnStart v

/-- The readers see all of a directory whose end marks lie at its end. -/
theorem EndTail.seen (ht : EndTail (v.dirSlots cs)) (hq : v.io = []) (hw : Walk v dir cs) :
    Seen v dir cs where
  shorts _ _ _ name hf hk := shortNameExists_seen hq hw ht hf hk name
  empty _ _ hf hk := dirIsEmpty_seen hq hw ht hf hk
  scan _ _ levels pre hf hroom hk := scanDir_seen hq hw ht hf hroom hk levels pre

end KiNBOL
