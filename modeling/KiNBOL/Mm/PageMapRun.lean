import KiNBOL.Mm.PageMap

namespace KiNBOL

variable {pm : Nat} {m m' m₀ m₁ : Machine}

/-- The pagemap in use when another is created: its PML4 and the tables of its kernel half are not
free. -/
structure ActiveTables (m : Machine) : Prop where
  limit : m.pmm.totalPages ≤ frameLimit
  root : ¬m.pmm.Free m.cr3
  kernel : ∀ n, m.pmm.Free n → ∀ va, KernelHalf va → n ∉ hwTables m.mem m.cr3 va

theorem TreeNode.user {mem : PhysMem} {n : Nat} (h : TreeNode pm mem n) :
    UserNode (· = pm) mem n := by
  obtain ⟨r,p,hr,hp,hn⟩ := h
  exact ⟨r,p,hr,hp.lower,hn⟩

/-- A new pagemap maps nothing in its lower half and shares the kernel half. -/
theorem vmmCreatePagemap_paged (hnew : vmmCreatePagemap m₀ = (some pm,m₁)) (ha : ActiveTables m₀) :
    Paged pm m₁.mem ∧ Unused pm m₁ ∧
    ∀ va, translate m₁.mem pm va = if LowerHalf va then none else translate m₀.mem m₀.cr3 va := by
  rcases vmmCreatePagemap_cases (Owned.none m₀ ha.limit) with
    hno | ⟨f,m',hres,hfree,htakes,-,ho,hnodes,hmem⟩
  · rw [hno] at hnew
    simp at hnew
  rw [hres,Prod.mk.injEq,Option.some.injEq] at hnew
  obtain ⟨rfl,rfl⟩ := hnew
  have hone : (fun r => r = f ∨ False) = (· = f) := by
    funext r
    simp
  rw [hone] at ho hnodes
  have hnode : ∀ n, UserNode (· = f) m'.mem n → n = f := by
    intro n hn
    refine ((hnodes n).mp hn).resolve_right (fun hh => ?_)
    obtain ⟨r,p,hr,-⟩ := hh
    exact hr
  have hwalk : ∀ va, KernelHalf va → hwWalk m'.mem f va = hwWalk m₀.mem m₀.cr3 va ∧
      hwTables m'.mem f va = hwTables m₀.mem m₀.cr3 va := by
    intro va hva
    apply hwWalk_congr
    · have hne : m₀.cr3 ≠ f := fun he => ha.root (he ▸ hfree)
      rw [hmem,if_pos rfl,if_pos (pml4Idx_kernel hva),zeroPage_other hne]
    · intro n hn
      have hne : n ≠ f := fun he => ha.kernel f hfree va hva (he ▸ hn)
      funext i
      rw [hmem,if_neg hne]
  have hpaged : Paged f m'.mem := by
    refine ⟨ho.tables.tree,fun va hva n hn hn' => ?_⟩
    rw [(hwalk va hva).2] at hn
    rw [hnode n hn'.user] at hn
    exact ha.kernel f hfree va hva hn
  obtain ⟨-,hheld,-⟩ := takes_one htakes
  refine ⟨hpaged,⟨ho.limit,fun n hn hn' => ?_,fun n hn va hva => ?_⟩,fun va => ?_⟩
  · rw [hnode n hn'.user] at hn
    exact hheld.not_free hn
  · rw [(hwalk va hva).2]
    exact ha.kernel n ((htakes.free_iff n).mp hn).1 va hva
  · by_cases hva : LowerHalf va
    · rw [if_pos hva]
      refine hpaged.no_table hva ?_
      cases hpt : follow entryNode m'.mem f (tablePath va) with
      | none => rfl
      | some pt =>
        have hn : pt = f := hnode pt ⟨f,tablePath va,rfl,(tablePath_va hva).lower,hpt⟩
        rw [hn] at hpt
        have hnil := (hpaged.tree.forest.unique f f (tablePath va) [] f rfl rfl (tablePath_va hva)
          tablePath_nil hpt (follow_nil f)).2
        simp [tablePath] at hnil
    · rw [if_neg hva]
      exact translate_upper (fun w hw => (hwalk w hw).1) hva

/-- The history of a pagemap: calls on its lower half, and whatever else happens to the PMM and to
pages that are not its tables. -/
inductive MapStep (pm : Nat) : Machine → Machine → Prop
  | op {m : Machine} (op : MapOp) (hl : op.Lower) (hs : op.Safe pm m) :
      MapStep pm m (op.run pm m).2
  | other {m m' : Machine} (hw : ∀ n i, m'.mem n i ≠ m.mem n i →
      ¬TreeNode pm m.mem n ∧ ∀ va, KernelHalf va → n ∉ hwTables m.mem pm va) : MapStep pm m m'

/-- One call on the map. -/
def MapActs (M M' : PageMap) : Prop := ∃ (op : MapOp) (status : Int), op.Lower ∧ op.Acts M M' status

/-- What else happens changes no translation. -/
theorem Paged.other (h : Paged pm m.mem) (hw : ∀ n i, m'.mem n i ≠ m.mem n i →
      ¬TreeNode pm m.mem n ∧ ∀ va, KernelHalf va → n ∉ hwTables m.mem pm va) :
    Remaps pm m.mem m'.mem (translate m.mem pm) := by
  have hkeep : ∀ n i, TableSlot m.mem pm n i → m'.mem n i = m.mem n i := fun n i hs => by
    by_contra hne
    exact (hw n i hne).1 hs.treeNode
  obtain ⟨htree,hfol,hent⟩ := h.tree.congr hkeep
  refine h.remaps htree ?_ (fun n i hne => Or.inr (hw n i hne)) (fun w hlw => ?_) (fun _ _ => rfl)
  · rintro n ⟨r,p,rfl,hp,hn⟩
    exact Or.inl ⟨r,p,rfl,hp,hfol p hp ▸ hn⟩
  · rw [leafWord,hent _ _ (lowerPath_va hlw)]
    exact (h.translate_lower hlw).symm

/-- A history of the pagemap is one of the map. -/
theorem MapStep.runs (h : Paged pm m₁.mem) (hrun : Relation.ReflTransGen (MapStep pm) m₁ m) :
    Paged pm m.mem ∧
    Relation.ReflTransGen MapActs (translate m₁.mem pm) (translate m.mem pm) := by
  induction hrun with
  | refl => exact ⟨h,.refl⟩
  | tail _ hs ih =>
    obtain ⟨hp,hr⟩ := ih
    cases hs with
    | op op hl hs =>
      obtain ⟨hp',hact⟩ := op.acts hl hp hs
      exact ⟨hp',hr.tail ⟨op,_,hl,hact⟩⟩
    | other hw =>
      have ho := hp.other hw
      rw [ho.view]
      exact ⟨ho.paged,hr⟩

/-- The calls of `vmm.c` on the lower half of a pagemap act on the processor's translation as
updates of a map, in every history from `vmm_create_pagemap` on; `vmm_map` fails only when no frame
is left. -/
theorem pagemap_refines (m₀ m₁ m : Machine) (pm : Nat) (ha : ActiveTables m₀)
    (hnew : vmmCreatePagemap m₀ = (some pm,m₁))
    (hrun : Relation.ReflTransGen (MapStep pm) m₁ m) :
    (∀ va, translate m₁.mem pm va = if LowerHalf va then none else translate m₀.mem m₀.cr3 va) ∧
    Relation.ReflTransGen MapActs (translate m₁.mem pm) (translate m.mem pm) ∧
    (∀ op : MapOp, op.Lower → op.Safe pm m →
      op.Acts (translate m.mem pm) (translate (op.run pm m).2.mem pm) (op.run pm m).1) ∧
    ∀ virt frame flags, (MapOp.map virt frame flags).Lower → Unused pm m →
      ((MapOp.map virt frame flags).run pm m).1 ≠ 0 →
      ((MapOp.map virt frame flags).run pm m).2.pmm.room = 0 := by
  obtain ⟨hp,-,hview⟩ := vmmCreatePagemap_paged hnew ha
  obtain ⟨hp',hr⟩ := MapStep.runs hp hrun
  refine ⟨hview,hr,fun op hl hs => (op.acts hl hp' hs).2,fun virt frame flags hl hu hne => ?_⟩
  obtain ⟨m',⟨hres,hroom,-⟩ | ⟨hres,-⟩⟩ := vmmMap_remaps hp' hu hl.1 hl.2 flags
  · rw [MapOp.run,hres]
    exact hroom
  · rw [MapOp.run,hres] at hne
    exact absurd rfl hne

theorem smallMachine_active : ActiveTables smallMachine := by
  refine ⟨by decide,by decide,fun n _ va _ => ?_⟩
  have hempty : ∀ i, smallMachine.mem smallMachine.cr3 i = 0#64 := fun _ => rfl
  simp [hwTables,hempty]

/-- Page 300 mapped for reading at `0x401000`. -/
def sampleMap : MapOp := .map 0x401000#64 300 5#64

theorem sampleMap_lower : sampleMap.Lower := ⟨by decide,by decide⟩

/-- A new pagemap after that call. -/
def mappedMachine : Machine := (sampleMap.run 256 (vmmCreatePagemap smallMachine).2).2

theorem mappedMachine_runs : Relation.ReflTransGen (MapStep 256) (vmmCreatePagemap smallMachine).2
    mappedMachine :=
  .single (.op sampleMap sampleMap_lower
    (vmmCreatePagemap_paged smallMachine_new smallMachine_active).2.1)

/-- `vmm_protect` stops at a page that is not mapped: a mapped page behind it keeps its flags. -/
theorem vmmProtect_stops : ¬∀ m₀ m₁ m pm, ActiveTables m₀ → vmmCreatePagemap m₀ = (some pm,m₁) →
    Relation.ReflTransGen (MapStep pm) m₁ m → ∀ virt len flags, LowerRange virt len →
    ∀ page ∈ pageRange virt len, ∀ x, translate m.mem pm page = some x →
      translate (vmmProtect m (some pm) virt len flags).2.mem pm page = pageXlat x.page flags := by
  intro h
  have hx := h smallMachine _ mappedMachine 256 smallMachine_active smallMachine_new
    mappedMachine_runs 0x400000#64 0x2000#64 7#64 (by simp [LowerRange]) 0x401000#64 (by decide)
    ⟨300,false,true,false⟩ (by decide)
  revert hx
  decide

theorem pagemap_refines_sample :
    let M := translate mappedMachine.mem 256
    Relation.ReflTransGen MapActs (translate (vmmCreatePagemap smallMachine).2.mem 256) M ∧
    (MapOp.unmap 0x401000#64).Acts M
      (translate ((MapOp.unmap 0x401000#64).run 256 mappedMachine).2.mem 256) 0 := by
  obtain ⟨-,hr,hacts,-⟩ := pagemap_refines smallMachine _ mappedMachine 256 smallMachine_active
    smallMachine_new mappedMachine_runs
  exact ⟨hr,hacts (.unmap 0x401000#64) (by show LowerHalf 0x401000#64; decide) trivial⟩

end KiNBOL
