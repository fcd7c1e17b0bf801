import KiNBOL.Loader.ElfPlan
import KiNBOL.Mm.PageAdds

namespace KiNBOL

variable {p : Nat} {m : Machine} {node : VfsNode} {l l' : List (BitVec 64)} {s : Loading}

theorem Adds.next {α β : Type} {r : Except String α × Loading}
    {k : α → Loading → Except String β × Loading} (h1 : Adds p l s.machine r.2.machine)
    (h2 : ∀ a s₁, r = (.ok a,s₁) → Adds p l' s₁.machine (k a s₁).2.machine) :
    Adds p (l++l') s.machine (Loading.next r k).2.machine := by
  obtain ⟨x,s₁⟩ := r
  cases x with
  | error msg => exact h1.mono (fun v hv => List.mem_append_left _ hv)
  | ok a => exact h1.trans (h2 a s₁ rfl)

/-- A page of the image: its frame is mapped or given back. -/
theorem elfMapPage_adds (flags va start fileOff count : BitVec 64)
    (hflags : has flags vmmPresent = true) (s : Loading) (h : Owned (· = p) s.machine)
    (hva : (pageRead node fileOff count).length = count.toNat → FreshPages s.machine p [va]) :
    Adds p (if (pageRead node fileOff count).length ≠ count.toNat then [] else [va]) s.machine
      (elfMapPage (some p) node flags va start fileOff count s).2.machine := by
  rcases elfMapPage_cases (some p) node flags va start fileOff count s h.limit with
    ⟨-,hres⟩ | ⟨f,m₁,ht,-,⟨hshort,msg,hres⟩ | ⟨hfull,hfail,msg,hres⟩ | ⟨hfull,hok,hres⟩⟩
  · rw [hres]
    exact Adds.refl h _
  · rw [hres]
    exact h.put_back_adds ht _
  · have hf := hva hfull
    have ha := mapTaken_adds h (hf.lower va (by simp)) ht hflags (hf.unmapped va (by simp))
    rw [mapTaken,if_neg hfail] at ha
    rw [hres,if_neg (not_not.mpr hfull)]
    exact ha
  · have hf := hva hfull
    have ha := mapTaken_adds h (hf.lower va (by simp)) ht hflags (hf.unmapped va (by simp))
    rw [mapTaken,if_pos hok] at ha
    rw [hres,if_neg (not_not.mpr hfull)]
    exact ha

/-- A page of the image that is read in full before the next one. -/
theorem elfMapPage_ok {flags va start fileOff count : BitVec 64} {a : Unit} {s₁ : Loading}
    (hlim : s.machine.pmm.totalPages ≤ frameLimit)
    (h : elfMapPage (some p) node flags va start fileOff count s = (.ok a,s₁)) :
    (pageRead node fileOff count).length = count.toNat := by
  rcases elfMapPage_cases (some p) node flags va start fileOff count s hlim with
    ⟨-,hres⟩ | ⟨f,m₁,-,-,⟨-,msg,hres⟩ | ⟨hfull,-⟩ | ⟨hfull,-⟩⟩
  · rw [hres] at h
    simp at h
  · rw [hres] at h
    simp at h
  · exact hfull
  · exact hfull

theorem elfMapPages_adds (flags pageStart segOff : BitVec 64) (hflags : has flags vmmPresent = true)
    (n : Nat) (va fileOff fileLeft : BitVec 64) (s : Loading) (h : Owned (· = p) s.machine)
    (hf : FreshPages s.machine p (planPages node pageStart segOff n va fileOff fileLeft).1) :
    Adds p (planPages node pageStart segOff n va fileOff fileLeft).1 s.machine
      (elfMapPages (some p) node flags pageStart segOff n va fileOff fileLeft s).2.machine := by
  induction n generalizing va fileOff fileLeft s with
  | zero => exact Adds.refl h _
  | succ n ih =>
    rw [planPages] at hf ⊢
    rw [elfMapPages]
    generalize hc : toCopy fileLeft (copyStart pageStart segOff va) = count at hf ⊢
    by_cases hshort : (pageRead node fileOff count).length ≠ count.toNat
    · rw [if_pos hshort] at hf ⊢
      have h1 := @elfMapPage_adds p node flags va (copyStart pageStart segOff va) fileOff
        count hflags s h (fun hfull => absurd hfull hshort)
      rw [if_pos hshort] at h1
      refine h1.next (fun a s₁ hres => ?_)
      exact absurd (elfMapPage_ok h.limit hres) hshort
    · rw [if_neg hshort] at hf ⊢
      dsimp only at hf ⊢
      have hsplit : va::(planPages node pageStart segOff n (va+4096#64) (fileOff+count)
          (fileLeft-count)).1 = [va]++(planPages node pageStart segOff n (va+4096#64)
          (fileOff+count) (fileLeft-count)).1 := rfl
      rw [hsplit] at hf ⊢
      have h1 := @elfMapPage_adds p node flags va (copyStart pageStart segOff va) fileOff
        count hflags s h (fun _ => hf.left)
      rw [if_neg hshort] at h1
      refine h1.next (fun a s₁ hres => ?_)
      rw [hres] at h1
      exact ih _ _ _ s₁ h1.owned (hf.right h1)

theorem elfMapSegment_adds (ph : Elf64Phdr) (bias : BitVec 64) (s : Loading)
    (h : Owned (· = p) s.machine) (hf : FreshPages s.machine p (planSegment node ph bias).1) :
    Adds p (planSegment node ph bias).1 s.machine
      (elfMapSegment (some p) node ph bias s).2.machine := by
  unfold planSegment at hf ⊢
  unfold elfMapSegment
  split_ifs at hf ⊢
  · exact Adds.refl h _
  · exact Adds.refl h _
  · exact elfMapPages_adds _ _ _ (elfSegmentFlags_present ph.flags) _ _ _ _ s h hf

theorem elfLoadSegments_adds (bias : BitVec 64) (phs : List Elf64Phdr) (highest phdr : BitVec 64)
    (s : Loading) (h : Owned (· = p) s.machine)
    (hf : FreshPages s.machine p (planSegments node bias phs).1) :
    Adds p (planSegments node bias phs).1 s.machine
      (elfLoadSegments (some p) node bias phs highest phdr s).2.machine := by
  induction phs generalizing highest phdr s with
  | nil => exact Adds.refl h _
  | cons ph rest ih =>
    rw [elfLoadSegments]
    rw [planSegments] at hf ⊢
    by_cases h1 : ph.type = 1
    · rw [if_pos h1] at hf ⊢
      rw [if_pos h1]
      have hperf := elfMapSegment_performs node (p := p) ph bias s h.limit
      dsimp only at hf ⊢
      by_cases hplan : (planSegment node ph bias).2 = true
      · rw [if_pos hplan] at hf ⊢
        have ha := elfMapSegment_adds ph bias s h hf.left
        refine ha.next (fun a s₁ hres => ?_)
        rw [hres] at ha
        exact ih _ phdr s₁ ha.owned (hf.right ha)
      · rw [if_neg hplan] at hf ⊢
        have ha := elfMapSegment_adds ph bias s h hf
        have hn := ha.next (k := fun _ s =>
          let last := bias+ph.vaddr+ph.memsz
          elfLoadSegments (some p) node bias rest (if highest < last then last else highest) phdr s)
          (fun a s₁ hres => show Adds p [] s₁.machine _ from
            absurd (hperf.ok a (congrArg Prod.fst hres)).2 hplan)
        rw [List.append_nil] at hn
        exact hn
    · rw [if_neg h1] at hf ⊢
      rw [if_neg h1]
      by_cases h3 : ph.type = 3
      · rw [if_neg (show ¬(ph.type = 6) by omega),if_pos h3,if_pos h3]
        exact Adds.refl h []
      · rw [if_neg h3] at hf ⊢
        by_cases h6 : ph.type = 6
        · rw [if_pos h6]
          exact ih highest _ s h hf
        · rw [if_neg h6,if_neg h3]
          exact ih highest phdr s h hf

/-- `elf_load` of a file whose pages are new ones. -/
theorem elfLoad_adds (file : Option VfsNode) (rand : BitVec 64) (h : Owned (· = p) m)
    (hf : FreshPages m p (elfPlan file rand).1) :
    Adds p (elfPlan file rand).1 m (elfLoad m file (some p) rand).2.machine := by
  cases file with
  | none => exact Adds.refl h _
  | some node =>
    unfold elfPlan at hf ⊢
    unfold elfLoad
    cases hh : elfHeaders node with
    | error msg =>
      simp only [hh] at hf ⊢
      exact Adds.refl h _
    | ok x =>
      obtain ⟨eh,phdrs⟩ := x
      simp only [hh] at hf ⊢
      have ha := elfLoadSegments_adds (loadBias eh rand) phdrs 0#64 0#64 ⟨m,[]⟩ h hf
      have hn := ha.next (k := fun x s => (.ok
          { entry := loadBias eh rand+eh.entry
            phdrVaddr := if x.2 = 0#64 then loadBias eh rand+eh.phoff else x.2
            phent := eh.phentsize
            phnum := eh.phnum
            loadBias := loadBias eh rand
            highestVaddr := (x.1+4096#64-1#64) &&& pageMask
            isPie := eh.type = 3 : ElfLoadResult },s)) (fun a s₁ hres => by
        rw [hres] at ha
        exact Adds.refl ha.owned [])
      rw [List.append_nil] at hn
      exact hn

end KiNBOL
