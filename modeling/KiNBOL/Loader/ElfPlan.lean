import KiNBOL.Loader.PageBytes

namespace KiNBOL

/-! What a file makes the loader do when memory does not run out: the pages it maps, in order, and
whether it gets to the end. The file's content decides it. -/

def planPages (node : VfsNode) (pageStart segOff : BitVec 64) :
    Nat → BitVec 64 → BitVec 64 → BitVec 64 → List (BitVec 64) × Bool
  | 0,_,_,_ => ([],true)
  | n+1,va,fileOff,fileLeft =>
    let count := toCopy fileLeft (copyStart pageStart segOff va)
    if (pageRead node fileOff count).length ≠ count.toNat then ([],false)
    else
      let r := planPages node pageStart segOff n (va+4096#64) (fileOff+count) (fileLeft-count)
      (va::r.1,r.2)

def planSegment (node : VfsNode) (ph : Elf64Phdr) (bias : BitVec 64) : List (BitVec 64) × Bool :=
  if ph.memsz = 0#64 then ([],true)
  else if ph.memsz < ph.filesz then ([],false)
  else planPages node (segmentStart ph bias) (segmentOff ph bias) (segmentPages ph bias)
    (segmentStart ph bias) ph.offset ph.filesz

def planSegments (node : VfsNode) (bias : BitVec 64) : List Elf64Phdr → List (BitVec 64) × Bool
  | [] => ([],true)
  | ph::rest =>
    if ph.type = 1 then
      let a := planSegment node ph bias
      if a.2 then (a.1++(planSegments node bias rest).1,(planSegments node bias rest).2)
      else (a.1,false)
    else if ph.type = 3 then ([],false)
    else planSegments node bias rest

def elfPlan (file : Option VfsNode) (rand : BitVec 64) : List (BitVec 64) × Bool :=
  match file with
  | none => ([],false)
  | some node =>
    match elfHeaders node with
    | .error _ => ([],false)
    | .ok (eh,phdrs) => planSegments node (loadBias eh rand) phdrs

variable (pm : Pagemap) (node : VfsNode)

theorem copyBytes_other {page off n : Nat} {bytes : List (BitVec 8)} {mem : PhysMem}
    (h : n ≠ page) : copyBytes page off bytes mem n = mem n := by
  induction bytes generalizing off mem with
  | nil => rfl
  | cons b bs ih =>
    rw [copyBytes,ih]
    funext i
    rw [storeByte,if_neg (fun hh => h hh.1)]

/-- One turn of the loop: out of memory, a short read, a failed mapping or one more page. -/
theorem elfMapPage_cases (flags va start fileOff count : BitVec 64) (s : Loading)
    (hlim : s.machine.pmm.totalPages ≤ frameLimit) :
    (pmmAllocPage s.machine.pmm = (none,s.machine.pmm) ∧
      elfMapPage pm node flags va start fileOff count s =
        (.error "[elf] out of memory mapping segment\n",s)) ∨
    ∃ f m₁, Taken s.machine m₁ f ∧
      (∀ o, o < 4096 → memByte m₁.mem f o = filled start.toNat (pageRead node fileOff count) o) ∧
      (((pageRead node fileOff count).length ≠ count.toNat ∧
          ∃ msg, elfMapPage pm node flags va start fileOff count s =
            (.error msg,{ s with machine := { m₁ with pmm := pmmFreePage m₁.pmm (pageAddr f) } })) ∨
       ((pageRead node fileOff count).length = count.toNat ∧
          (vmmMap m₁ pm va (pageAddr f) flags).1 ≠ 0 ∧
          ∃ msg, elfMapPage pm node flags va start fileOff count s =
            (.error msg,{ s with machine :=
              { (vmmMap m₁ pm va (pageAddr f) flags).2 with
                pmm := pmmFreePage (vmmMap m₁ pm va (pageAddr f) flags).2.pmm (pageAddr f) } })) ∨
       ((pageRead node fileOff count).length = count.toNat ∧
          (vmmMap m₁ pm va (pageAddr f) flags).1 = 0 ∧
          elfMapPage pm node flags va start fileOff count s =
            (.ok (),⟨(vmmMap m₁ pm va (pageAddr f) flags).2,s.maps++[va]⟩))) := by
  unfold elfMapPage
  cases halloc : pmmAllocPage s.machine.pmm with
  | mk a pmm =>
    cases a with
    | none =>
      have hpm : pmm = s.machine.pmm := (pmmAllocPage_none halloc).1
      subst hpm
      exact Or.inl ⟨rfl,rfl⟩
    | some a =>
      right
      obtain ⟨f,rfl,-,htakes,-⟩ := pmmAllocPage_some halloc
      have hpage : pageOf (pageAddr f) = f := by
        have hlt := (takes_one htakes).1.1
        exact pageOf_pageAddr (lt_of_lt_of_le (lt_of_lt_of_le hlt hlim) frameLimit_le)
      simp only [hpage]
      let m₁ : Machine := { s.machine with
        pmm := pmm
        mem := copyBytes f start.toNat (pageRead node fileOff count) (zeroPage s.machine.mem f) }
      have htaken : Taken s.machine m₁ f := by
        refine ⟨htakes,fun n hn => ?_,rfl⟩
        show copyBytes f start.toNat (pageRead node fileOff count) (zeroPage s.machine.mem f) n = _
        rw [copyBytes_other hn,zeroPage_other hn]
      refine ⟨f,m₁,htaken,fun o ho => memByte_filled ho,?_⟩
      by_cases hshort : (pageRead node fileOff count).length ≠ count.toNat
      · exact Or.inl ⟨hshort,_,by rw [if_pos hshort]⟩
      · right
        have hfull : (pageRead node fileOff count).length = count.toNat := by
          simpa using hshort
        rw [if_neg hshort]
        by_cases hfail : (vmmMap m₁ pm va (pageAddr f) flags).1 ≠ 0
        · exact Or.inl ⟨hfull,hfail,_,by rw [if_pos hfail]⟩
        · have hok : (vmmMap m₁ pm va (pageAddr f) flags).1 = 0 := by simpa using hfail
          exact Or.inr ⟨hfull,hok,by rw [if_neg hfail]⟩

/-- Number of free pages. -/
def Machine.avail (m : Machine) : Nat := downCount m.pmm.bmGet m.pmm.totalPages

/-- A step that uses at most `k` free pages, frees none that was held before and clears no present
entry of such a page. It holds of the loader whatever the tables contain. -/
structure Spends (k : Nat) (m m' : Machine) : Prop where
  total : m'.pmm.totalPages = m.pmm.totalPages
  avail : m.avail ≤ m'.avail+k
  held : ∀ n, m.pmm.Held n → m'.pmm.Held n
  kept : ∀ n i, m.pmm.Held n → present (m.mem n i) = true → present (m'.mem n i) = true

theorem Spends.refl (k : Nat) (m : Machine) : Spends k m m :=
  ⟨rfl,by omega,fun _ h => h,fun _ _ _ h => h⟩

theorem Spends.trans {j k : Nat} {m m' m'' : Machine} (h1 : Spends j m m') (h2 : Spends k m' m'') :
    Spends (j+k) m m'' := by
  have a1 := h1.avail
  have a2 := h2.avail
  exact ⟨h2.total.trans h1.total,by omega,fun n hn => h2.held n (h1.held n hn),
    fun n i hn hp => h2.kept n i (h1.held n hn) (h1.kept n i hn hp)⟩

theorem Spends.weaken {j k : Nat} {m m' : Machine} (h : Spends j m m') (hjk : j ≤ k) :
    Spends k m m' := by
  have a := h.avail
  exact ⟨h.total,by omega,h.held,h.kept⟩

/-- The pages below the first one searched are held. -/
def LowHeld (m : Machine) : Prop := ∀ n, n < firstPage → m.pmm.Held n

theorem Spends.lowHeld {k : Nat} {m m' : Machine} (h : Spends k m m') (hl : LowHeld m) :
    LowHeld m' := fun n hn => h.held n (hl n hn)

/-- With free pages left the allocator finds one. -/
theorem pmmAllocPage_avail {m : Machine} (hl : LowHeld m) (ha : 0 < m.avail) :
    ∃ f pmm, pmmAllocPage m.pmm = (some (pageAddr f),pmm) ∧ Pmm.Takes m.pmm pmm f 1 := by
  cases halloc : pmmAllocPage m.pmm with
  | mk a pmm =>
    cases a with
    | some a =>
      obtain ⟨f,rfl,-,htakes,-⟩ := pmmAllocPage_some halloc
      exact ⟨f,pmm,rfl,htakes⟩
    | none =>
      exfalso
      have hnone := (pmmAllocPage_none halloc).2
      obtain ⟨n,hn,hbit⟩ := downCount_pos_iff.mp ha
      rcases Nat.lt_or_ge n firstPage with hlow | hhigh
      · exact (hl n hlow).not_free ⟨hn,hbit⟩
      · exact hnone n hhigh ⟨hn,hbit⟩

theorem Taken.spends {m m₁ : Machine} {f : Nat} (h : Taken m m₁ f) : Spends 1 m m₁ := by
  obtain ⟨hfree,-,hbits⟩ := takes_one h.takes
  have hne : ∀ n, m.pmm.Held n → n ≠ f := fun n hn he => hn.not_free (he ▸ hfree)
  refine ⟨h.takes.total,?_,fun n hn => ?_,fun n i hn hp => ?_⟩
  · have hd := h.takes.downCount
    simp only [Machine.avail]
    omega
  · exact ⟨h.takes.total ▸ hn.1,(hbits n).mpr (Or.inl hn.2)⟩
  · rw [h.others n (hne n hn)]
    exact hp

/-- Writing a present entry. -/
theorem setSlot_spends {m : Machine} (n : Nat) (i : Fin 512) {e : BitVec 64}
    (he : present e = true) : Spends 0 m { m with mem := setSlot m.mem n i e } := by
  refine ⟨rfl,le_refl _,fun _ h => h,fun k j _ hp => ?_⟩
  by_cases hs : k = n ∧ j = i
  · rw [hs.1,hs.2]
    show present (setSlot m.mem n i e n i) = true
    rw [setSlot_self]
    exact he
  · show present (setSlot m.mem n i e k j) = true
    rw [setSlot_other hs]
    exact hp

theorem getOrCreate_spends (m : Machine) (n : Nat) (i : Fin 512)
    (hlim : m.pmm.totalPages ≤ frameLimit) : Spends 1 m (getOrCreate m n i).2 ∧
      (∀ a, (getOrCreate m n i).1 = some a → present ((getOrCreate m n i).2.mem n i) = true) ∧
      (LowHeld m → 0 < m.avail → ∃ a, (getOrCreate m n i).1 = some a) := by
  cases hpres : present (m.mem n i) with
  | true =>
    rw [getOrCreate_hit hpres]
    exact ⟨Spends.refl 1 m,fun _ _ => hpres,fun _ _ => ⟨_,rfl⟩⟩
  | false =>
    cases halloc : pmmAllocPage m.pmm with
    | mk a pmm =>
      cases a with
      | none =>
        have hpm : pmm = m.pmm := (pmmAllocPage_none halloc).1
        rw [getOrCreate_none hpres halloc,hpm]
        refine ⟨Spends.refl 1 m,fun a ha => by simp at ha,fun hl ha => ?_⟩
        obtain ⟨f,pmm',hsome,-⟩ := pmmAllocPage_avail hl ha
        rw [halloc] at hsome
        simp at hsome
      | some a =>
        obtain ⟨f,rfl,-,htakes,-⟩ := pmmAllocPage_some halloc
        have hlt : f < frameLimit := lt_of_lt_of_le (takes_one htakes).1.1 hlim
        have hpage : pageOf (pageAddr f) = f :=
          pageOf_pageAddr (lt_of_lt_of_le hlt frameLimit_le)
        rw [getOrCreate_some hpres halloc,hpage]
        have htaken : Taken m { m with pmm := pmm, mem := zeroPage m.mem f } f :=
          ⟨htakes,fun k hk => zeroPage_other hk,rfl⟩
        have hset := setSlot_spends (m := { m with pmm := pmm, mem := zeroPage m.mem f }) n i
          (tableEntry_word hlt).isPresent
        refine ⟨htaken.spends.trans hset,fun _ _ => ?_,fun _ _ => ⟨_,rfl⟩⟩
        show present (setSlot (zeroPage m.mem f) n i (tableEntry (pageAddr f)) n i) = true
        rw [setSlot_self]
        exact (tableEntry_word hlt).isPresent

/-- `vmm_map` of a frame with a present flag, whatever the tables contain. -/
theorem vmmMap_spends (m : Machine) (pm : Nat) (va : BitVec 64) {f : Nat} {flags : BitVec 64}
    (hf : f < frameLimit) (hflags : has flags vmmPresent = true)
    (hlim : m.pmm.totalPages ≤ frameLimit) :
    Spends 3 m (vmmMap m (some pm) va (pageAddr f) flags).2 ∧
    ((vmmMap m (some pm) va (pageAddr f) flags).1 = 0 → m.pmm.Held pm →
      present ((vmmMap m (some pm) va (pageAddr f) flags).2.mem pm (pml4Idx va)) = true) ∧
    (LowHeld m → 3 ≤ m.avail → (vmmMap m (some pm) va (pageAddr f) flags).1 = 0) := by
  obtain ⟨s1,p1,a1⟩ := getOrCreate_spends m pm (pml4Idx va) hlim
  cases h1 : getOrCreate m pm (pml4Idx va) with
  | mk r1 m1 =>
    rw [h1] at s1 p1 a1
    cases r1 with
    | none =>
      have hres : vmmMap m (some pm) va (pageAddr f) flags = (-1,m1) := by simp only [vmmMap,h1]
      rw [hres]
      refine ⟨s1.weaken (by omega),fun h => by simp at h,fun hl ha => ?_⟩
      obtain ⟨a,ha⟩ := a1 hl (by omega)
      simp at ha
    | some t1 =>
      have lim1 : m1.pmm.totalPages ≤ frameLimit := s1.total.le.trans hlim
      obtain ⟨s2,-,a2⟩ := getOrCreate_spends m1 (pageOf t1) (pdptIdx va) lim1
      have b1 : m.avail ≤ m1.avail+1 := s1.avail
      cases h2 : getOrCreate m1 (pageOf t1) (pdptIdx va) with
      | mk r2 m2 =>
        rw [h2] at s2 a2
        have s12 : Spends 2 m m2 := s1.trans s2
        have b2 : m.avail ≤ m2.avail+2 := s12.avail
        cases r2 with
        | none =>
          have hres : vmmMap m (some pm) va (pageAddr f) flags = (-1,m2) := by
            simp only [vmmMap,h1,h2]
          rw [hres]
          refine ⟨s12.weaken (by omega),fun h => by simp at h,fun hl ha => ?_⟩
          obtain ⟨a,ha⟩ := a2 (s1.lowHeld hl) (by omega)
          simp at ha
        | some t2 =>
          have lim2 : m2.pmm.totalPages ≤ frameLimit := s2.total.le.trans lim1
          obtain ⟨s3,-,a3⟩ := getOrCreate_spends m2 (pageOf t2) (pdIdx va) lim2
          cases h3 : getOrCreate m2 (pageOf t2) (pdIdx va) with
          | mk r3 m3 =>
            rw [h3] at s3 a3
            have s123 : Spends 3 m m3 := s12.trans s3
            cases r3 with
            | none =>
              have hres : vmmMap m (some pm) va (pageAddr f) flags = (-1,m3) := by
                simp only [vmmMap,h1,h2,h3]
              rw [hres]
              refine ⟨s123,fun h => by simp at h,fun hl ha => ?_⟩
              obtain ⟨a,ha⟩ := a3 (s12.lowHeld hl) (by omega)
              simp at ha
            | some t3 =>
              have hres : vmmMap m (some pm) va (pageAddr f) flags = (0,{ m3 with
                  mem := setSlot m3.mem (pageOf t3) (ptIdx va) (leafEntry (pageAddr f) flags) }) := by
                simp only [vmmMap,h1,h2,h3]
              rw [hres]
              have hleaf : present (leafEntry (pageAddr f) flags) = true :=
                (leafEntry_flags hf flags).1.trans hflags
              have hset := setSlot_spends (m := m3) (pageOf t3) (ptIdx va) hleaf
              refine ⟨s123.trans hset,fun _ hpm => ?_,fun _ _ => rfl⟩
              exact (s2.trans (s3.trans hset)).kept pm (pml4Idx va) (s1.held pm hpm) (p1 t1 rfl)

/-- Giving back the page just taken. -/
theorem free_taken_spends {k : Nat} {m m₁ m' : Machine} {f : Nat} (ht : Taken m m₁ f)
    (hs : Spends k m m') (hlim : m.pmm.totalPages ≤ frameLimit) :
    Spends k m { m' with pmm := pmmFreePage m'.pmm (pageAddr f) } := by
  have hfree := (takes_one ht.takes).1
  have hpage : pageOf (pageAddr f) = f :=
    pageOf_pageAddr (lt_of_lt_of_le (lt_of_lt_of_le hfree.1 hlim) frameLimit_le)
  have hg := pmmFreePage_gives m'.pmm (pageAddr f)
  rw [hpage] at hg
  refine ⟨hg.total.trans hs.total,?_,fun n hn => ?_,hs.kept⟩
  · have h1 := hs.avail
    have h2 := hg.downCount
    simp only [Machine.avail] at h1 ⊢
    omega
  · have hold := hs.held n hn
    refine ⟨hg.total ▸ hold.1,?_⟩
    have hout : n ∉ m'.pmm.held f 1 := by
      intro hmem
      rw [Pmm.mem_held] at hmem
      have he : n = f := by omega
      exact hn.not_free (he ▸ hfree)
    show (pmmFreePage m'.pmm (pageAddr f)).bmGet n = true
    rw [hg.bits,hold.2,decide_eq_false hout]
    rfl

/-- One turn of the loop, whatever the tables contain: with four pages to spare only a short read
stops it. -/
theorem elfMapPage_spends {p : Nat} (flags va start fileOff count : BitVec 64) (s : Loading)
    (hflags : has flags vmmPresent = true) (hlim : s.machine.pmm.totalPages ≤ frameLimit) :
    let r := elfMapPage (some p) node flags va start fileOff count s
    Spends 4 s.machine r.2.machine ∧
    (r.1 = .ok () → r.2.maps = s.maps++[va] ∧
      (pageRead node fileOff count).length = count.toNat ∧
      (s.machine.pmm.Held p → present (r.2.machine.mem p (pml4Idx va)) = true)) ∧
    (r.1 ≠ .ok () → r.2.maps = s.maps) ∧
    (LowHeld s.machine → 4 ≤ s.machine.avail →
      (pageRead node fileOff count).length = count.toNat → r.1 = .ok ()) := by
  intro r
  cases elfMapPage_cases (some p) node flags va start fileOff count s hlim with
  | inl hoom =>
    obtain ⟨halloc,hres⟩ := hoom
    have hr : r = (.error "[elf] out of memory mapping segment\n",s) := hres
    rw [hr]
    refine ⟨Spends.refl 4 _,fun h => by simp at h,fun _ => rfl,fun hl ha _ => ?_⟩
    obtain ⟨f,pmm,hsome,-⟩ := pmmAllocPage_avail hl (by omega)
    rw [halloc] at hsome
    simp at hsome
  | inr hrest =>
    obtain ⟨f,m₁,ht,-,hcase⟩ := hrest
    have hf : f < frameLimit := lt_of_lt_of_le (takes_one ht.takes).1.1 hlim
    have hlim1 : m₁.pmm.totalPages ≤ frameLimit := ht.takes.total.le.trans hlim
    obtain ⟨hsp,hpres,hamp⟩ := vmmMap_spends m₁ p va hf hflags hlim1
    have hs4 : Spends 4 s.machine (vmmMap m₁ (some p) va (pageAddr f) flags).2 :=
      (ht.spends.trans hsp)
    have hav : s.machine.avail ≤ m₁.avail+1 := ht.spends.avail
    rcases hcase with ⟨hshort,msg,hres⟩ | ⟨hfull,hfail,msg,hres⟩ | ⟨hfull,hok,hres⟩
    · have hr : r = _ := hres
      rw [hr]
      exact ⟨free_taken_spends ht (ht.spends.weaken (by omega)) hlim,fun h => by simp at h,
        fun _ => rfl,fun _ _ hfull => absurd hfull hshort⟩
    · have hr : r = _ := hres
      rw [hr]
      exact ⟨free_taken_spends ht hs4 hlim,fun h => by simp at h,fun _ => rfl,
        fun hl ha _ => absurd (hamp (ht.spends.lowHeld hl) (by omega)) hfail⟩
    · have hr : r = _ := hres
      rw [hr]
      exact ⟨hs4,fun _ => ⟨rfl,hfull,fun hp => hpres hok (ht.spends.held p hp)⟩,
        fun h => absurd rfl h,fun _ _ _ => rfl⟩

/-- A run of the loader performs a plan: it maps an initial part of it, all of it when it succeeds or
when there is memory enough, and it succeeds only if the plan does. -/
structure Performs {α : Type} (p : Nat) (plan : List (BitVec 64) × Bool) (s : Loading)
    (r : Except String α × Loading) : Prop where
  spends : Spends (4*(plan.1.length+1)) s.machine r.2.machine
  spendsOk : ∀ a, r.1 = .ok a → Spends (4*plan.1.length) s.machine r.2.machine
  maps : ∃ l, r.2.maps = s.maps++l ∧ l <+: plan.1 ∧
    (s.machine.pmm.Held p → ∀ va ∈ l, present (r.2.machine.mem p (pml4Idx va)) = true)
  ok : ∀ a, r.1 = .ok a → r.2.maps = s.maps++plan.1 ∧ plan.2 = true
  ample : LowHeld s.machine → 4*(plan.1.length+1) ≤ s.machine.avail →
    r.2.maps = s.maps++plan.1 ∧ (plan.2 = true → ∃ a, r.1 = .ok a)

/-- A part that succeeds before the rest. -/
theorem Performs.cons {α β : Type} {p : Nat} {l₁ : List (BitVec 64)}
    {plan : List (BitVec 64) × Bool} {s s₁ : Loading} {r : Except String β × Loading} {a : α}
    (h1 : Performs p (l₁,true) s (.ok a,s₁)) (h2 : Performs p plan s₁ r) :
    Performs p (l₁++plan.1,plan.2) s r := by
  have hs1 : Spends (4*l₁.length) s.machine s₁.machine := h1.spendsOk a rfl
  have hm1 : s₁.maps = s.maps++l₁ := (h1.ok a rfl).1
  obtain ⟨k1,hk1,-,hheld1⟩ := h1.maps
  obtain ⟨k2,hk2,hpre2,hheld2⟩ := h2.maps
  have hk : k1 = l₁ := List.append_cancel_left (hk1.symm.trans hm1)
  subst hk
  have hlen : 4*((k1++plan.1).length+1) = 4*k1.length+4*(plan.1.length+1) := by
    rw [List.length_append]
    omega
  refine ⟨?_,fun b hb => ?_,?_,fun b hb => ?_,fun hl ha => ?_⟩
  · rw [hlen]
    exact hs1.trans h2.spends
  · have ht := hs1.trans (h2.spendsOk b hb)
    rw [← Nat.mul_add,← List.length_append] at ht
    exact ht
  · refine ⟨k1++k2,by rw [hk2,hm1,List.append_assoc],(List.prefix_append_right_inj k1).mpr hpre2,?_⟩
    intro hp va hva
    cases List.mem_append.mp hva with
    | inl h => exact h2.spends.kept p _ (hs1.held p hp) (hheld1 hp va h)
    | inr h => exact hheld2 (hs1.held p hp) va h
  · obtain ⟨hm,hpl⟩ := h2.ok b hb
    exact ⟨by rw [hm,hm1,List.append_assoc],hpl⟩
  · rw [hlen] at ha
    have hav := hs1.avail
    obtain ⟨hm,hex⟩ := h2.ample (hs1.lowHeld hl) (by omega)
    exact ⟨by rw [hm,hm1,List.append_assoc],hex⟩

/-- A part that fails ends the run. -/
theorem Performs.stop {α β : Type} {p : Nat} {l₁ l₂ : List (BitVec 64)} {b₁ b₂ : Bool}
    {s s₁ : Loading} {msg : String} (h1 : Performs p (l₁,b₁) s ((.error msg,s₁) : Except String α × Loading))
    (hpre : b₁ = true ∨ (l₂ = [] ∧ b₂ = false)) :
    Performs p (l₁++l₂,b₂) s ((.error msg,s₁) : Except String β × Loading) := by
  obtain ⟨k,hk,hkp,hheld⟩ := h1.maps
  refine ⟨h1.spends.weaken ?_,fun b hb => by simp at hb,⟨k,hk,?_,hheld⟩,fun b hb => by simp at hb,
    fun hl ha => ?_⟩
  · simp only [List.length_append]
    omega
  · exact hkp.trans (List.prefix_append l₁ l₂)
  · simp only [List.length_append] at ha
    obtain ⟨hm,hex⟩ := h1.ample hl (by simp only; omega)
    cases hpre with
    | inl hb =>
      obtain ⟨a,ha⟩ := hex hb
      simp at ha
    | inr hnil =>
      rw [hnil.1,hnil.2,List.append_nil]
      exact ⟨hm,fun h => by simp at h⟩

/-- A part and what comes after it. -/
theorem Performs.next {α β : Type} {p : Nat} {l₁ : List (BitVec 64)} {b₁ : Bool} {s : Loading}
    {r : Except String α × Loading} {k : α → Loading → Except String β × Loading}
    (plan : List (BitVec 64) × Bool) (h1 : Performs p (l₁,b₁) s r)
    (h2 : ∀ a s₁, r = (.ok a,s₁) → Performs p plan s₁ (k a s₁)) :
    Performs p (if b₁ then (l₁++plan.1,plan.2) else (l₁,false)) s (Loading.next r k) := by
  obtain ⟨x,s₁⟩ := r
  cases x with
  | error msg =>
    cases b₁ with
    | true => exact h1.stop (Or.inl rfl)
    | false =>
      have hstop : Performs p (l₁++[],false) s ((.error msg,s₁) : Except String β × Loading) :=
        h1.stop (Or.inr ⟨rfl,rfl⟩)
      rw [List.append_nil] at hstop
      exact hstop
  | ok a =>
    cases b₁ with
    | true => exact h1.cons (h2 a s₁ rfl)
    | false =>
      have hpl := (h1.ok a rfl).2
      simp at hpl

/-- Nothing to map. -/
theorem Performs.done {α : Type} (p : Nat) (s : Loading) (a : α) :
    Performs p ([],true) s (.ok a,s) :=
  ⟨Spends.refl _ _,fun _ _ => Spends.refl _ _,⟨[],by simp,List.prefix_rfl,by simp⟩,
    fun _ _ => ⟨by simp,rfl⟩,fun _ _ => ⟨by simp,fun _ => ⟨a,rfl⟩⟩⟩

theorem Performs.refused {α : Type} (p : Nat) (s : Loading) (msg : String) :
    Performs p ([],false) s ((.error msg,s) : Except String α × Loading) :=
  ⟨Spends.refl _ _,fun _ h => by simp at h,⟨[],by simp,List.prefix_rfl,by simp⟩,
    fun _ h => by simp at h,fun _ _ => ⟨by simp,fun h => by simp at h⟩⟩

theorem elfMapPage_performs {p : Nat} (flags va start fileOff count : BitVec 64) (s : Loading)
    (hflags : has flags vmmPresent = true) (hlim : s.machine.pmm.totalPages ≤ frameLimit) :
    Performs p
      (if (pageRead node fileOff count).length ≠ count.toNat then ([],false) else ([va],true)) s
      (elfMapPage (some p) node flags va start fileOff count s) := by
  obtain ⟨hsp,hok,hno,hamp⟩ := elfMapPage_spends node (p := p) flags va start fileOff count
    s hflags hlim
  generalize elfMapPage (some p) node flags va start fileOff count s = r at hsp hok hno hamp
  by_cases hshort : (pageRead node fileOff count).length ≠ count.toNat
  · rw [if_pos hshort]
    have herr : r.1 ≠ .ok () := fun h => hshort (hok h).2.1
    exact ⟨hsp.weaken (by simp),fun a ha => absurd ha herr,
      ⟨[],by rw [hno herr,List.append_nil],List.prefix_rfl,fun _ va hva => by simp at hva⟩,
      fun a ha => absurd ha herr,fun _ _ => ⟨by rw [hno herr,List.append_nil],fun h => by simp at h⟩⟩
  · rw [if_neg hshort]
    have hfull : (pageRead node fileOff count).length = count.toNat := by simpa using hshort
    by_cases hr : r.1 = .ok ()
    · obtain ⟨hm,-,hp⟩ := hok hr
      refine ⟨hsp.weaken (by simp),fun _ _ => hsp.weaken (by simp),⟨[va],hm,List.prefix_rfl,?_⟩,
        fun _ _ => ⟨hm,rfl⟩,fun _ _ => ⟨hm,fun _ => ⟨(),hr⟩⟩⟩
      intro hheld w hw
      rw [List.mem_singleton] at hw
      exact hw ▸ hp hheld
    · refine ⟨hsp.weaken (by simp),fun a ha => absurd ha hr,
        ⟨[],by rw [hno hr,List.append_nil],List.nil_prefix,fun _ va hva => by simp at hva⟩,
        fun a ha => absurd ha hr,fun hl ha => ?_⟩
      exact absurd (hamp hl (by simp only [List.length_singleton] at ha; omega) hfull) hr

theorem elfMapPages_performs {p : Nat} (flags pageStart segOff : BitVec 64)
    (hflags : has flags vmmPresent = true) (n : Nat) (va fileOff fileLeft : BitVec 64)
    (s : Loading) (hlim : s.machine.pmm.totalPages ≤ frameLimit) :
    Performs p (planPages node pageStart segOff n va fileOff fileLeft) s
      (elfMapPages (some p) node flags pageStart segOff n va fileOff fileLeft s) := by
  induction n generalizing va fileOff fileLeft s with
  | zero =>
    rw [elfMapPages,planPages]
    exact Performs.done p s ()
  | succ n ih =>
    rw [elfMapPages,planPages]
    have h1 := elfMapPage_performs node (p := p) flags va (copyStart pageStart segOff va)
      fileOff (toCopy fileLeft (copyStart pageStart segOff va)) s hflags hlim
    have h2 := fun s₁ (hlim1 : s₁.machine.pmm.totalPages ≤ frameLimit) => ih (va+4096#64)
      (fileOff+toCopy fileLeft (copyStart pageStart segOff va))
      (fileLeft-toCopy fileLeft (copyStart pageStart segOff va)) s₁ hlim1
    split_ifs at h1 ⊢ with hshort
    · exact h1.next ([],true) (fun a s₁ hr => by
        have hpl := (h1.ok a (congrArg Prod.fst hr)).2
        simp at hpl)
    · refine h1.next _ (fun a s₁ hr => h2 s₁ ?_)
      have htot := h1.spends.total
      rw [hr] at htot
      exact htot.le.trans hlim

theorem elfSegmentFlags_present (f : BitVec 32) : has (elfSegmentFlags f) vmmPresent = true := by
  rw [has_present,elfSegmentFlags]
  split_ifs <;> decide

theorem elfMapSegment_performs {p : Nat} (ph : Elf64Phdr) (bias : BitVec 64) (s : Loading)
    (hlim : s.machine.pmm.totalPages ≤ frameLimit) :
    Performs p (planSegment node ph bias) s (elfMapSegment (some p) node ph bias s) := by
  unfold planSegment elfMapSegment
  split_ifs
  · exact Performs.done p s ()
  · exact Performs.refused p s _
  · exact elfMapPages_performs node _ _ _ (elfSegmentFlags_present ph.flags) _ _ _ _ s hlim

theorem elfLoadSegments_performs {p : Nat} (bias : BitVec 64) (phs : List Elf64Phdr)
    (highest phdr : BitVec 64) (s : Loading) (hlim : s.machine.pmm.totalPages ≤ frameLimit) :
    Performs p (planSegments node bias phs) s
      (elfLoadSegments (some p) node bias phs highest phdr s) := by
  induction phs generalizing highest phdr s with
  | nil =>
    rw [elfLoadSegments,planSegments]
    exact Performs.done p s _
  | cons ph rest ih =>
    rw [elfLoadSegments,planSegments]
    by_cases h1 : ph.type = 1
    · rw [if_pos h1,if_pos h1]
      have hseg := elfMapSegment_performs node (p := p) ph bias s hlim
      refine hseg.next _ (fun a s₁ hr => ih _ phdr s₁ ?_)
      have htot := hseg.spends.total
      rw [hr] at htot
      exact htot.le.trans hlim
    · rw [if_neg h1,if_neg h1]
      by_cases h3 : ph.type = 3
      · rw [if_neg (show ¬(ph.type = 6) by omega),if_pos h3,if_pos h3]
        exact Performs.refused p s _
      · rw [if_neg h3]
        by_cases h6 : ph.type = 6
        · rw [if_pos h6]
          exact ih highest _ s hlim
        · rw [if_neg h6,if_neg h3]
          exact ih highest phdr s hlim

/-- `elf_load` performs the plan of its file. -/
theorem elfLoad_performs (m : Machine) (file : Option VfsNode) (p : Nat) (rand : BitVec 64)
    (hlim : m.pmm.totalPages ≤ frameLimit) :
    Performs p (elfPlan file rand) ⟨m,[]⟩ (elfLoad m file (some p) rand) := by
  cases file with
  | none => exact Performs.refused p ⟨m,[]⟩ _
  | some node =>
    unfold elfPlan elfLoad
    cases hh : elfHeaders node with
    | error msg =>
      simp only [hh]
      exact Performs.refused p ⟨m,[]⟩ _
    | ok x =>
      obtain ⟨eh,phdrs⟩ := x
      simp only [hh]
      have hs := elfLoadSegments_performs node (p := p) (loadBias eh rand) phdrs 0#64 0#64
        ⟨m,[]⟩ hlim
      have hnext := hs.next ([],true) (fun a s₁ _ => Performs.done p s₁ (ElfLoadResult.mk
        (loadBias eh rand+eh.entry) (if a.2 = 0#64 then loadBias eh rand+eh.phoff else a.2)
        eh.phentsize eh.phnum (loadBias eh rand) ((a.1+4096#64-1#64) &&& pageMask) (eh.type = 3)))
      generalize planSegments node (loadBias eh rand) phdrs = plan at hnext ⊢
      obtain ⟨l,b⟩ := plan
      cases b <;> simpa using hnext

end KiNBOL
