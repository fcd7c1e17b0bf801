import KiNBOL.Mm.VmRun

namespace KiNBOL

variable {roots : Nat → Prop} {pm : Nat} {m m' : Machine}

/-- The tables of the kernel half, of whichever pagemap, are neither user tables or frames nor
free pages. -/
def KernelApart (roots : Nat → Prop) (m : Machine) : Prop :=
  ∀ r va, roots r → KernelHalf va → ∀ n ∈ hwTables m.mem r va,
    ¬UserNode roots m.mem n ∧ ¬m.pmm.Free n

/-- A root has no lower-half slot but its own first 256. -/
theorem root_slot (h : UserTables roots m.mem) (hr : roots pm) {r : Nat} (hroot : roots r)
    {i : Fin 512} (hs : TableSlot m.mem pm r i) : r = pm ∧ i.val < 256 := by
  obtain ⟨p,hp,hn⟩ := hs
  obtain ⟨hrr,hnil⟩ := h.forest.unique pm r p [] r hr hroot hp.left lowerPath_nil hn rfl
  subst hnil
  exact ⟨hrr.symm,hp.2 i (by simp)⟩

/-- Writes to slots of lower-half tables and to free pages leave the kernel half alone. -/
theorem KernelApart.frame (ho : Owned roots m) (hk : KernelApart roots m)
    (hw : ∀ n i, m'.mem n i ≠ m.mem n i →
      (∃ p, roots p ∧ TableSlot m.mem p n i) ∨ m.pmm.Free n) {r : Nat} {va : BitVec 64}
    (hr : roots r) (hva : KernelHalf va) :
    hwWalk m'.mem r va = hwWalk m.mem r va ∧ hwTables m'.mem r va = hwTables m.mem r va := by
  apply hwWalk_congr
  · by_contra hne
    cases hw r (pml4Idx va) hne with
    | inl hs =>
      obtain ⟨p,hp,hs⟩ := hs
      have h1 := (root_slot ho.tables hp hr hs).2
      have h2 := pml4Idx_kernel hva
      omega
    | inr hfree => exact ho.not_node_of_free hfree (ForestNode.root lowerPath_nil hr)
  · intro n hn
    obtain ⟨hnode,hfree⟩ := hk r va hr hva n hn
    funext i
    by_contra hne
    cases hw n i hne with
    | inl hs =>
      obtain ⟨p,hp,hs⟩ := hs
      exact hnode (hs.node hp)
    | inr hf => exact hfree hf

/-- Addresses with PML4 index from 256 up translate as before. -/
theorem translate_kernel {mem mem' : PhysMem} {r : Nat}
    (h : ∀ va, KernelHalf va → hwWalk mem' r va = hwWalk mem r va) (va : BitVec 64)
    (hva : 256 ≤ (pml4Idx va).val) : translate mem' r va = translate mem r va := by
  unfold translate
  have hlow : ¬LowerHalf va := by
    intro hl
    have := pml4Idx_lower hl
    omega
  by_cases hk : KernelHalf va
  · rw [if_pos (Or.inr hk),if_pos (Or.inr hk),h va hk]
  · rw [if_neg (by tauto),if_neg (by tauto)]

/-- Building up a lower half leaves every kernel half alone and apart. -/
theorem Evolves.kernel (ho : Owned roots m) (hr : roots pm) (hk : KernelApart roots m)
    (he : Evolves roots pm m m') : KernelApart roots m' ∧
      ∀ r va, roots r → KernelHalf va → hwWalk m'.mem r va = hwWalk m.mem r va := by
  have hw : ∀ n i, m'.mem n i ≠ m.mem n i →
      (∃ p, roots p ∧ TableSlot m.mem p n i) ∨ m.pmm.Free n := by
    intro n i hne
    cases he.wrote n i hne with
    | inl hs => exact Or.inl ⟨pm,hr,hs⟩
    | inr hf => exact Or.inr hf
  refine ⟨fun r va hrr hva n hn => ?_,fun r va hrr hva => (hk.frame ho hw hrr hva).1⟩
  rw [(hk.frame ho hw hrr hva).2] at hn
  obtain ⟨hnode,hfree⟩ := hk r va hrr hva n hn
  refine ⟨fun hn' => ?_,fun hf => hfree (he.free n hf)⟩
  obtain ⟨r',p,hr',hp,hf⟩ := hn'
  cases he.fresh r' p n hr' hp hf with
  | inl hold => exact hnode ⟨r',p,hr',hp,hold⟩
  | inr hf => exact hfree hf

theorem kernelMachine_entry {n : Nat} {i : Fin 512} (h : present (kernelMachine.mem n i) = true) :
    framePage (kernelMachine.mem n i) ∈ [2,3,4,5] := by
  simp only [kernelMachine] at h ⊢
  split_ifs at h ⊢
  · decide
  · decide
  · decide
  · decide
  · simp at h

theorem taskMachine_apart : KernelApart (· = 256) taskMachine := by
  intro r va _ _ n hn
  obtain ⟨k,i,hp,he⟩ := mem_hwTables hn
  have hlist : n ∈ [2,3,4,5] := by
    rw [taskMachine_mem] at hp he
    split_ifs at hp he
    · exact he ▸ kernelMachine_entry hp
    · simp at hp
    · exact he ▸ kernelMachine_entry hp
  have hfree : ∀ k ∈ [2,3,4,5], ¬taskMachine.pmm.Free k := by decide
  refine ⟨fun hnode => ?_,hfree n hlist⟩
  rw [taskMachine_owned.2 n] at hnode
  subst hnode
  exact absurd hlist (by decide)

/-- The same task with pages mapped at 0x400000 and 0x401000. -/
def pagesMachine : Machine := mapFresh (mapFresh taskMachine 256 0x400000#64 7#64) 256 0x401000#64 7#64

theorem pagesMachine_apart : Owned (· = 256) pagesMachine ∧ KernelApart (· = 256) pagesMachine ∧
    pagesMachine.cr3 = 256 := by
  have h1 := mapFresh_spec taskMachine_owned.1 rfl (by decide : LowerHalf 0x400000#64) 7#64
  have h2 := mapFresh_spec h1.owned rfl (by decide : LowerHalf 0x401000#64) 7#64
  have hk1 := (h1.toEvolves.kernel taskMachine_owned.1 rfl taskMachine_apart).1
  exact ⟨h2.owned,(h2.toEvolves.kernel h1.owned rfl hk1).1,h2.cr3.trans h1.cr3⟩

end KiNBOL
