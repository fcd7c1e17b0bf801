import KiNBOL.Fs.DirView

namespace KiNBOL

variable {v v' : Volume} {c dir : Nat} {cs : List Nat} {k : Kmalloc} {fuel : Nat}

/-- A chain of clusters with an end mark. -/
def IsChain (v : Volume) : Nat → List Nat → Prop :=
  Chained (fatAt v) (InRange v) (fun c => endOfChain ≤ c)

theorem DiskLayout.inChain (hl : DiskLayout v) (h : InRange v c) : InChain c := by
  have := hl.few
  simp only [InRange,InChain] at *
  omega

theorem IsChain.walk (hl : DiskLayout v) (h : IsChain v c cs) : Walk v c cs :=
  h.mono (fun _ _ hx => hl.inChain hx) (fun x hx hin => by simp only [InChain] at hin; omega)

theorem DiskLayout.chain_apart (hl : DiskLayout v) (c : Nat) (h : InRange v c) : ¬endOfChain ≤ c := by
  have := hl.inChain h
  simp only [InChain] at this
  omega

theorem IsChain.unique {ds : List Nat} (hl : DiskLayout v) (h : IsChain v c cs)
    (h' : IsChain v c ds) : cs = ds := Chained.unique hl.chain_apart h h'

theorem IsChain.nodup (hl : DiskLayout v) (h : IsChain v c cs) : cs.Nodup :=
  Chained.nodup hl.chain_apart h

/-- The clusters of a chain are in use. -/
theorem IsChain.used (h : IsChain v c cs) : ∀ x ∈ cs, fatAt v x ≠ 0 := by
  induction cs generalizing c with
  | nil => simp
  | cons y cs ih =>
    obtain ⟨-,-,hcs⟩ := h
    intro x hx
    rcases List.mem_cons.mp hx with rfl | hx
    · cases cs with
      | nil =>
        have hend : endOfChain ≤ fatAt v x := hcs
        rw [endOfChain] at hend
        omega
      | cons z cs =>
        obtain ⟨hz,hr,-⟩ := hcs
        have := hr.1
        omega
    · exact ih hcs x hx

/-- The clusters that the loops over a directory visit. -/
structure DirChain (v : Volume) (dir : Nat) (cs : List Nat) : Prop where
  walk : Walk v dir cs
  range : ∀ c ∈ cs, InRange v c
  start : dir < v.totalClusters+2

theorem IsChain.dirChain (hl : DiskLayout v) (h : IsChain v c cs) (hc : InRange v c) :
    DirChain v c cs := ⟨h.walk hl,Chained.all_ok h,hc.2⟩

/-- The cluster behind which a directory grows. -/
def lastOf (dir : Nat) (cs : List Nat) : Nat := cs.getLast?.getD dir

theorem DirChain.last (h : DirChain v dir cs) : lastOf dir cs < v.totalClusters+2 := by
  rw [lastOf]
  cases hlast : cs.getLast? with
  | none => exact h.start
  | some l => exact (h.range l (List.mem_of_getLast? hlast)).2

theorem lastOf_cons (dir x : Nat) (cs : List Nat) : lastOf dir (x::cs) = lastOf x cs := by
  cases cs with
  | nil => rfl
  | cons y cs => simp [lastOf,List.getLast?_cons]

theorem freeRun_append (needed : Nat) (as bs : List (Loc × Slot)) (run : List Loc) :
    freeRun needed (as++bs) run =
      match freeRun needed as run with
      | .inl r => .inl r
      | .inr run => freeRun needed bs run := by
  induction as generalizing run with
  | nil => rfl
  | cons x as ih =>
    obtain ⟨loc,e⟩ := x
    rw [List.cons_append,freeRun,freeRun]
    split_ifs
    · rfl
    · exact ih _
    · exact ih _

/-- The first free slot is a run of length one. -/
theorem freeRun_one (l : List (Loc × Slot)) :
    freeRun 1 l [] = match l.find? (fun x => x.2.isFree) with
      | some x => .inl [x.1]
      | none => .inr [] := by
  induction l with
  | nil => rfl
  | cons x l ih =>
    obtain ⟨loc,e⟩ := x
    rw [freeRun,List.find?_cons]
    cases e.isFree with
    | true => rfl
    | false => exact ih

/-- Where a run of free slots lies in the slots read, or what is left of one at their end; right
before it there is no free slot. -/
theorem freeRun_spec (needed : Nat) (l : List (Loc × Slot)) (pre block : List (Loc × Slot))
    (hp : ∀ x ∈ pre.getLast?, x.2.isFree = false) (hb : ∀ x ∈ block, x.2.isFree = true)
    (hlen : block.length < needed) :
    match freeRun needed l (block.map Prod.fst) with
    | .inl run => ∃ pre' block' post, pre++block++l = pre'++block'++post ∧
        (∀ x ∈ pre'.getLast?, x.2.isFree = false) ∧
        (∀ x ∈ block', x.2.isFree = true) ∧ block'.map Prod.fst = run ∧ run.length = needed
    | .inr run => ∃ pre' block', pre++block++l = pre'++block' ∧
        (∀ x ∈ pre'.getLast?, x.2.isFree = false) ∧
        (∀ x ∈ block', x.2.isFree = true) ∧ block'.map Prod.fst = run ∧ run.length < needed := by
  induction l generalizing pre block with
  | nil => exact ⟨pre,block,by simp,hp,hb,rfl,by simpa using hlen⟩
  | cons x l ih =>
    obtain ⟨loc,e⟩ := x
    have hmap : block.map Prod.fst++[loc] = (block++[(loc,e)]).map Prod.fst := by simp
    rw [freeRun]
    by_cases he : e.isFree = true
    · have hb' : ∀ x ∈ block++[(loc,e)], x.2.isFree = true := by
        intro x hx
        rcases List.mem_append.mp hx with hx | hx
        · exact hb x hx
        · rw [List.mem_singleton.mp hx]
          exact he
      rw [if_pos he,hmap]
      by_cases hn : ((block++[(loc,e)]).map Prod.fst).length = needed
      · rw [if_pos hn]
        exact ⟨pre,block++[(loc,e)],l,by simp,hp,hb',rfl,hn⟩
      · rw [if_neg hn]
        have hsplit : pre++block++(loc,e)::l = pre++(block++[(loc,e)])++l := by simp
        rw [hsplit]
        refine ih pre (block++[(loc,e)]) hp hb' ?_
        rw [List.length_map] at hn
        simp only [List.length_append,List.length_singleton] at hn ⊢
        omega
    · rw [if_neg he]
      have hsplit : pre++block++(loc,e)::l = (pre++block++[(loc,e)])++[]++l := by simp
      rw [hsplit]
      refine ih (pre++block++[(loc,e)]) [] ?_ (by simp) (by simp; omega)
      intro x hx
      rw [List.getLast?_concat,Option.mem_some_iff] at hx
      rw [← hx]
      simpa using he

/-- A turn of the first loop of `find_free_dir_slots`, without its reads. -/
def runStep (v : Volume) (needed c : Nat) (s : Nat × List Loc) :
    (Option (List Loc) × Volume) ⊕ (Nat × List Loc) :=
  match freeRun needed (v.clusterSlots c) s.2 with
  | .inl run => .inl (some run,v)
  | .inr run => .inr (c,run)

/-- A turn of the loop of `find_free_dir_slot`, without its reads. -/
def freeStep (v : Volume) (c _last : Nat) : (Option Loc × Volume) ⊕ Nat :=
  match (v.clusterSlots c).find? (fun x => x.2.isFree) with
  | some (loc,_) => .inl (some loc,v)
  | none => .inr c

theorem overClusters_findRun (needed last : Nat) (run : List Loc) (cs : List Nat) :
    overClusters (runStep v needed) cs (last,run) =
    match freeRun needed (v.dirSlots cs) run with
    | .inl run => .inl (some run,v)
    | .inr run => .inr (lastOf last cs,run) := by
  induction cs generalizing last run with
  | nil => rfl
  | cons x cs ih =>
    rw [overClusters,Volume.dirSlots,List.flatMap_cons,freeRun_append,runStep]
    cases freeRun needed (v.clusterSlots x) run with
    | inl r => rfl
    | inr r =>
      rw [lastOf_cons]
      exact ih x r

theorem overClusters_findFree (last : Nat) (cs : List Nat) :
    overClusters (freeStep v) cs last =
    match (v.dirSlots cs).find? (fun x => x.2.isFree) with
    | some x => .inl (some x.1,v)
    | none => .inr (lastOf last cs) := by
  induction cs generalizing last with
  | nil => rfl
  | cons x cs ih =>
    rw [overClusters,Volume.dirSlots,List.flatMap_cons,List.find?_append,freeStep]
    cases (v.clusterSlots x).find? (fun x => x.2.isFree) with
    | some y => rfl
    | none =>
      rw [lastOf_cons]
      exact ih x

end KiNBOL
