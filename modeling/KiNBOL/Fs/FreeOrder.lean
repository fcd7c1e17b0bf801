import KiNBOL.Fs.AllocFaults
import KiNBOL.Fs.FatTable

namespace KiNBOL

/-! The order in which allocations take the free clusters. -/

variable {v v' : Volume} {c h lim : Nat} {p : Nat → Bool}

/-- The free clusters, the first one first that an allocation takes. -/
def freeOrder (v : Volume) : List Nat := (allocOrder v).filter (fun c => fatAt v c = 0)

/-- Numbers below a limit from `h` on and then those below `h`. -/
def turn (h lim : Nat) : List Nat := List.range' h (lim-h)++List.range' 2 (min h lim-2)

theorem range'_cut {a b n : Nat} (ha : a ≤ b) (hb : b < a+n) :
    List.range' a n = List.range' a (b-a)++b::List.range' (b+1) (a+n-(b+1)) := by
  have hn : n = (b-a)+(1+(a+n-(b+1))) := by omega
  conv_lhs => rw [hn]
  rw [← List.range'_append_1,← List.range'_append_1,List.range'_one]
  have hb' : a+(b-a) = b := by omega
  rw [hb']
  rfl

theorem range'_split {a b n : Nat} (ha : a ≤ b) (hb : b ≤ a+n) :
    List.range' a n = List.range' a (b-a)++List.range' b (a+n-b) := by
  have hn : n = (b-a)+(a+n-b) := by omega
  conv_lhs => rw [hn]
  rw [← List.range'_append_1]
  have hb' : a+(b-a) = b := by omega
  rw [hb']

/-- Behind a number of the order the same order starts anew. -/
theorem turn_rotate (hh : 2 ≤ h) (hc : c ∈ turn h lim) : ∃ pre post,
    turn h lim = pre++c::post ∧ turn (c+1) lim = post++pre++[c] ∧ c ∉ pre ∧ c ∉ post := by
  rw [turn,List.mem_append,List.mem_range'_1,List.mem_range'_1] at hc
  by_cases hle : h ≤ c
  · have hlt : c < lim := by omega
    have h1 : min h lim = h := by omega
    have h2 : min (c+1) lim = c+1 := by omega
    have h3 : h+(lim-h)-(c+1) = lim-(c+1) := by omega
    have h4 : List.range' 2 (c+1-2) =
        List.range' 2 (h-2)++(List.range' h (c-h)++[c]) := by
      rw [range'_split (b := h) hh (by omega),range'_cut (b := c) hle (by omega)]
      have h5 : h+(2+(c+1-2)-h)-(c+1) = 0 := by omega
      rw [h5,List.range'_zero]
    refine ⟨List.range' h (c-h),List.range' (c+1) (lim-(c+1))++List.range' 2 (h-2),?_,?_,?_,?_⟩
    · rw [turn,h1,range'_cut hle (by omega : c < h+(lim-h)),h3]
      simp
    · rw [turn,h2,h4]
      simp
    · rw [List.mem_range'_1]
      omega
    · rw [List.mem_append,List.mem_range'_1,List.mem_range'_1]
      omega
  · have hlt : c < lim := by omega
    have h2 : min (c+1) lim = c+1 := by omega
    have h3 : 2+(min h lim-2)-(c+1) = min h lim-(c+1) := by omega
    have h4 : List.range' 2 (c+1-2) = List.range' 2 (c-2)++[c] := by
      rw [range'_cut (b := c) (by omega) (by omega)]
      have h5 : 2+(c+1-2)-(c+1) = 0 := by omega
      rw [h5,List.range'_zero]
    have h6 : List.range' (c+1) (lim-(c+1)) =
        List.range' (c+1) (min h lim-(c+1))++List.range' h (lim-h) := by
      by_cases hlim : h ≤ lim
      · have h7 : min h lim = h := by omega
        have h8 : c+1+(lim-(c+1))-h = lim-h := by omega
        rw [range'_split (b := h) (by omega) (by omega),h7,h8]
      · have h7 : min h lim = lim := by omega
        have h8 : lim-h = 0 := by omega
        rw [h7,h8,List.range'_zero,List.append_nil]
    refine ⟨List.range' h (lim-h)++List.range' 2 (c-2),List.range' (c+1) (min h lim-(c+1)),
      ?_,?_,?_,?_⟩
    · rw [turn,range'_cut (by omega : 2 ≤ c) (by omega : c < 2+(min h lim-2)),h3]
      simp
    · rw [turn,h2,h4,h6]
      simp
    · rw [List.mem_append,List.mem_range'_1,List.mem_range'_1]
      omega
    · rw [List.mem_range'_1]
      omega

/-- When the first of the numbers that pass is taken, those behind it come next. -/
theorem turn_next (hh : 2 ≤ h) (hf : (turn h lim).find? p = some c) :
    (turn h lim).filter p = c::(turn (c+1) lim).filter (fun x => p x && x ≠ c) := by
  obtain ⟨pre,post,heq,hnext,hpre,hpost⟩ := turn_rotate hh (List.mem_of_find?_eq_some hf)
  have hc : p c = true := List.find?_some hf
  have hnone : pre.find? p = none := by
    rw [heq,List.find?_append] at hf
    cases hp : pre.find? p with
    | none => rfl
    | some a =>
      rw [hp] at hf
      obtain rfl := Option.some.inj hf
      exact absurd (List.mem_of_find?_eq_some hp) hpre
  have hskip : pre.filter p = [] := by
    rw [List.filter_eq_nil_iff]
    exact List.find?_eq_none.mp hnone
  have hsame : ∀ l : List Nat, c ∉ l → l.filter (fun x => p x && x ≠ c) = l.filter p := by
    intro l hl
    apply List.filter_congr
    intro x hx
    have hne : x ≠ c := fun he => hl (he ▸ hx)
    simp [hne]
  rw [heq,hnext]
  simp only [List.filter_append,List.filter_cons,hc,hskip,hsame pre hpre,hsame post hpost]
  simp

theorem DiskLayout.allocOrder_eq (hl : DiskLayout v) :
    allocOrder v = turn v.nextFreeHint (v.totalClusters+2) := by
  have hfew := hl.few
  rw [endOfChain] at hfew
  have hlim : u32 (v.totalClusters+2) = v.totalClusters+2 := by
    rw [u32,Nat.mod_eq_of_lt]
    omega
  simp only [allocOrder,turn,hlim]

/-- Volumes with the same hint and the same free clusters. -/
theorem freeOrder_congr (hl : DiskLayout v) (htotal : v'.totalClusters = v.totalClusters)
    (hhint : v'.nextFreeHint = v.nextFreeHint)
    (hfat : ∀ d < v.totalClusters+2, fatAt v' d = 0 ↔ fatAt v d = 0) :
    freeOrder v' = freeOrder v := by
  have hsame : allocOrder v' = allocOrder v := by
    simp only [allocOrder,htotal,hhint]
  rw [freeOrder,freeOrder,hsame]
  apply List.filter_congr
  intro d hd
  rw [hl.allocOrder_eq,turn,List.mem_append,List.mem_range'_1,List.mem_range'_1] at hd
  simp only [hfat d (by omega)]

theorem takeCluster_hint (hl : DiskLayout v) (hc : InRange v c) :
    (v.takeCluster c).nextFreeHint = c+1 := by
  have hfew := hl.few
  have hlt := hc.2
  rw [endOfChain] at hfew
  obtain ⟨w,hw,hhint⟩ : ∃ w : Volume, v.takeCluster c = w.fsinfoSave ∧ w.nextFreeHint = u32 (c+1) :=
    ⟨_,rfl,rfl⟩
  obtain ⟨-,-,hsave⟩ := w.fsinfoSave_fields
  rw [hw,hsave,hhint,u32,Nat.mod_eq_of_lt (by omega)]

/-- An allocation takes the first free cluster. -/
theorem allocCluster_order (hq : v.io = []) (hl : DiskLayout v)
    (h : v.allocCluster = (some c,v')) : freeOrder v = c::freeOrder v' := by
  have hfew := hl.few
  rw [endOfChain] at hfew
  have hfind : (turn v.nextFreeHint (v.totalClusters+2)).find? (fun c => fatAt v c = 0) = some c ∧
      v' = v.takeCluster c := by
    have halloc := allocCluster_eq hq hl
    rw [h] at halloc
    rw [turn,List.find?_append]
    split at halloc
    next hfst =>
      obtain ⟨hc,hv⟩ := Prod.mk.inj halloc
      rw [hfst,Option.some_or,hc]
      exact ⟨rfl,by rw [hv,Option.some.inj hc]⟩
    next hfst =>
      rw [hfst,Option.none_or]
      split at halloc
      next hsnd =>
        obtain ⟨hc,hv⟩ := Prod.mk.inj halloc
        rw [hsnd,hc]
        exact ⟨rfl,by rw [hv,Option.some.inj hc]⟩
      next => exact absurd (Prod.mk.inj halloc).1 (by simp)
  obtain ⟨hfind,rfl⟩ := hfind
  have hmem := List.mem_of_find?_eq_some hfind
  rw [turn,List.mem_append,List.mem_range'_1,List.mem_range'_1] at hmem
  have hc : InRange v c := by
    have := hl.hint
    exact ⟨by omega,by omega⟩
  obtain ⟨hstep,hfat,-⟩ := takeCluster_spec hq hl hc
  rw [freeOrder,hl.allocOrder_eq,turn_next hl.hint hfind,freeOrder,(hstep.layout hl).allocOrder_eq,
    hstep.total,takeCluster_hint hl hc]
  congr 1
  apply List.filter_congr
  intro d hd
  rw [turn,List.mem_append,List.mem_range'_1,List.mem_range'_1] at hd
  rw [hfat d (by omega)]
  by_cases he : d = c
  · simp [he]
  · simp [he]

theorem freeOrder_eq_nil (hl : DiskLayout v) :
    freeOrder v = [] ↔ ∀ c, InRange v c → fatAt v c ≠ 0 := by
  have hhint := hl.hint
  rw [freeOrder,List.filter_eq_nil_iff,hl.allocOrder_eq]
  constructor
  · intro h c hc h0
    obtain ⟨h1,h2⟩ := hc
    refine h c ?_ (decide_eq_true h0)
    rw [turn,List.mem_append,List.mem_range'_1,List.mem_range'_1]
    omega
  · intro h c hc h0
    rw [turn,List.mem_append,List.mem_range'_1,List.mem_range'_1] at hc
    exact h c ⟨by omega,by omega⟩ (of_decide_eq_true h0)

end KiNBOL
