import KiNBOL.Kernel.Isolation
import KiNBOL.Mm.HeapAlloc

namespace KiNBOL

variable {K : Nat → Prop} {W : BitVec 64 → Option Xlat} {kpm pm : Nat} {roots roots' : Nat → Prop} {stk : List PageRun}
  {live : List Nat} {k : Kernel} {m' : Machine}

/-- The heap's structure is intact and its clients hold the pointers `live`. -/
def HeapServes (h : Heap (PageLog Pmm)) (live : List Nat) : Prop :=
  ∃ bs, HeapInv (fun _ _ => True) h bs ∧
    live.Perm ((bs.filter Blk.used).map (fun b => b.addr+blockSize))

/-- Pagemaps, stacks and heap keep apart; the intermediate states of the task calls hold this with
lists of their own. -/
structure Holds (K : Nat → Prop) (W : BitVec 64 → Option Xlat) (kpm : Nat) (roots : Nat → Prop)
    (stk : List PageRun) (live : List Nat) (k : Kernel) : Prop where
  apart : Separate K W kpm roots (stk++k.heap.pmm.runs) k.mach
  heap : HeapServes k.heap live

/-- `kmalloc` on a heap that serves its clients; the runs `l` and the pages in `S` belong to others. -/
theorem HeapServes.kmalloc {S : Nat → Prop} {total : Nat} {l : List PageRun}
    {h : Heap (PageLog Pmm)} (hs : HeapServes h live)
    (ho : h.pmm.pmm.OwesBut S total (l++h.pmm.runs)) {size : Nat} (hsize : size < 2^32) :
    (KiNBOL.kmalloc pmmPool.logged h size).2.pmm.pmm.OwesBut S total
      (l++(KiNBOL.kmalloc pmmPool.logged h size).2.pmm.runs) ∧
    (((KiNBOL.kmalloc pmmPool.logged h size).1 = none ∧
      HeapServes (KiNBOL.kmalloc pmmPool.logged h size).2 live) ∨
     ∃ p, (KiNBOL.kmalloc pmmPool.logged h size).1 = some p ∧
      HeapServes (KiNBOL.kmalloc pmmPool.logged h size).2 (p::live)) := by
  obtain ⟨bs,hi,hlive⟩ := hs
  have hi' := hi.withPool (s := h.pmm) rfl rfl ho.split
  obtain ⟨bs',hi₁,hcase⟩ := kmalloc_spec (pmmPool_honest_but _ _) hi' hsize
  refine ⟨ho.join hi₁.owed,?_⟩
  have hserves : HeapInv (fun _ _ => True) (KiNBOL.kmalloc pmmPool.logged h size).2 bs' :=
    hi₁.withPool (s := (KiNBOL.kmalloc pmmPool.logged h size).2.pmm) rfl rfl trivial
  generalize KiNBOL.kmalloc pmmPool.logged h size = r at *
  cases hptr : r.1 with
  | none =>
    rw [hptr] at hcase
    refine Or.inl ⟨rfl,bs',hserves,?_⟩
    rw [hcase.1]
    exact hlive
  | some p =>
    rw [hptr] at hcase
    obtain ⟨b,rfl,-,hperm,-⟩ := hcase
    exact Or.inr ⟨_,rfl,bs',hserves,(hlive.cons _).trans (hperm.map (fun b : Blk => b.addr+blockSize)).symm⟩

theorem HeapServes.kfree {S : Nat → Prop} {total : Nat} {l : List PageRun}
    {h : Heap (PageLog Pmm)} (hs : HeapServes h live)
    (ho : h.pmm.pmm.OwesBut S total (l++h.pmm.runs)) {p : Nat} (hp : p ∈ live) :
    (KiNBOL.kfree pmmPool.logged h (some p)).pmm.pmm.OwesBut S total
      (l++(KiNBOL.kfree pmmPool.logged h (some p)).pmm.runs) ∧
    HeapServes (KiNBOL.kfree pmmPool.logged h (some p)) (live.erase p) := by
  obtain ⟨bs,hi,hlive⟩ := hs
  have hi' := hi.withPool (s := h.pmm) rfl rfl ho.split
  obtain ⟨b,hb,rfl⟩ := List.mem_map.mp (hlive.mem_iff.mp hp)
  obtain ⟨hmem,hused⟩ := List.mem_filter.mp hb
  obtain ⟨bs',hi₁,hperm,-⟩ := kfree_spec (pmmPool_honest_but _ _) hi' hmem hused
  have herase := (hlive.trans (hperm.map (fun b : Blk => b.addr+blockSize))).erase (b.addr+blockSize)
  rw [List.map_cons,List.erase_cons_head] at herase
  exact ⟨ho.join hi₁.owed,bs',hi₁.withPool (s := (KiNBOL.kfree pmmPool.logged h
    (some (b.addr+blockSize))).pmm) rfl rfl trivial,herase⟩

theorem Holds.kmalloc (hk : Holds K W kpm roots stk live k) {size : Nat} (hsize : size < 2^32) :
    ((k.kmalloc size).1 = none ∧ Holds K W kpm roots stk live (k.kmalloc size).2) ∨
    ∃ p, (k.kmalloc size).1 = some p ∧ Holds K W kpm roots stk (p::live) (k.kmalloc size).2 := by
  obtain ⟨ho,hcase⟩ := hk.heap.kmalloc hk.apart.owesBut hsize
  have hap := hk.apart.reserve ho
  rcases hcase with ⟨h1,hs⟩ | ⟨p,h1,hs⟩
  · exact Or.inl ⟨h1,hap,hs⟩
  · exact Or.inr ⟨p,h1,hap,hs⟩

theorem Holds.kfree (hk : Holds K W kpm roots stk live k) {p : Nat} (hp : p ∈ live) :
    Holds K W kpm roots stk (live.erase p) (k.kfree (some p)) := by
  obtain ⟨ho,hs⟩ := hk.heap.kfree hk.apart.owesBut hp
  exact ⟨hk.apart.reserve ho,hs⟩

/-- Pointers that are held are different. -/
theorem Holds.nodup (hk : Holds K W kpm roots stk live k) : live.Nodup := by
  obtain ⟨bs,hi,hlive⟩ := hk.heap
  refine hlive.nodup_iff.mpr ?_
  have hsub := hi.shows.nodup.sublist (List.Sublist.map Blk.addr (List.filter_sublist (p := Blk.used)))
  have hinj : Function.Injective (fun a : Nat => a+blockSize) := fun a b h => Nat.add_right_cancel h
  have hmap := hsub.map hinj
  rw [List.map_map] at hmap
  exact hmap

theorem Holds.perm {live' : List Nat} (hk : Holds K W kpm roots stk live k) (hp : live.Perm live') :
    Holds K W kpm roots stk live' k := by
  obtain ⟨bs,hi,hlive⟩ := hk.heap
  exact ⟨hk.apart,bs,hi,hp.symm.trans hlive⟩

theorem Holds.perm_stacks {stk' : List PageRun} (hk : Holds K W kpm roots stk live k)
    (hp : stk.Perm stk') : Holds K W kpm roots stk' live k :=
  ⟨hk.apart.perm (hp.append_right _),hk.heap⟩

/-- What the heap serves does not hang on the PMM. -/
theorem HeapServes.withPmm {h : Heap (PageLog Pmm)} (hs : HeapServes h live) (p : Pmm) :
    HeapServes { h with pmm := { h.pmm with pmm := p } } live := by
  obtain ⟨bs,hi,hlive⟩ := hs
  exact ⟨bs,hi.withPool rfl rfl trivial,hlive⟩

/-- Calls into `vmm.c` on the lower half of live pagemaps. -/
theorem Holds.touch (hk : Holds K W kpm roots stk live k) (ht : Touches roots k.mach m') :
    Holds K W kpm roots stk live (k.withMach m') :=
  ⟨hk.apart.touch ht,hk.heap.withPmm _⟩

theorem Holds.data (hk : Holds K W kpm roots stk live k) {mem' : PhysMem}
    (hw : ∀ n, mem' n ≠ k.mem n → ¬K n ∧ ¬IsTable roots k.mem n) :
    Holds K W kpm roots stk live { k with mem := mem' } :=
  ⟨hk.apart.data hw,hk.heap⟩

theorem Holds.create (hk : Holds K W kpm roots stk live k) {f : Nat}
    (hc : vmmCreatePagemap k.mach = (some f,m')) :
    Holds K W kpm (fun r => r = f ∨ roots r) stk live (k.withMach m') ∧ ¬roots f ∧ m'.cr3 = k.cr3 := by
  obtain ⟨h1,h2⟩ := hk.apart.create hc
  exact ⟨⟨h1,hk.heap.withPmm _⟩,h2⟩

theorem Holds.destroy (hk : Holds K W kpm roots stk live k) (hr : roots pm) (hne : pm ≠ k.cr3) :
    Holds K W kpm (fun r => roots r ∧ r ≠ pm) stk live
      (k.withMach (vmmDestroyPagemap k.mach (some pm))) :=
  ⟨hk.apart.destroy hr hne,hk.heap.withPmm _⟩

/-- A run of pages is taken. -/
theorem Holds.takeRun (hk : Holds K W kpm roots stk live k) {n : Nat} {a : BitVec 64} {p : Pmm}
    (hn : 0 < n) (hres : pmmPool.alloc k.pmm n = (some a,p)) :
    Holds K W kpm roots ((a,n)::stk) live (k.withPmm p) := by
  obtain ⟨-,-,-,ho⟩ := (pmmPool_honest_but _ _).grant _ _ _ _ _ hk.apart.owesBut hn hres
  exact ⟨hk.apart.reserve ho,hk.heap.withPmm p⟩

theorem Holds.takeStack (hk : Holds K W kpm roots stk live k) {a : BitVec 64} {p : Pmm}
    (hres : pmmAllocPagesContiguous k.pmm taskStackPages = (some a,p)) :
    Holds K W kpm roots ((a,taskStackPages)::stk) live (k.withPmm p) := by
  refine hk.takeRun (by decide) ?_
  rw [pmmPool_alloc,if_neg (by decide)]
  exact hres

/-- A run of pages goes back. -/
theorem Holds.freeRun (hk : Holds K W kpm roots stk live k) {r : PageRun} (hr : r ∈ stk) :
    Holds K W kpm roots (stk.erase r) live (k.withPmm (pmmFreePages k.pmm r.1 r.2)) := by
  have ho := (pmmPool_honest_but _ _).free _ _ _ hk.apart.owesBut (List.mem_append_left _ hr)
  rw [List.erase_append_left _ hr] at ho
  exact ⟨hk.apart.reserve ho,hk.heap.withPmm _⟩

end KiNBOL
