import KiNBOL.Framework.LinkedList
import KiNBOL.Framework.Spans
import KiNBOL.Mm.Heap

namespace KiNBOL

/-- A block of the heap's list. -/
structure Blk where
  addr : Nat
  size : Nat
  used : Bool

/-- End of the payload. -/
def Blk.stop (b : Blk) : Nat := b.addr+blockSize+b.size

/-- Header and payload. -/
def Blk.span (b : Blk) : Span := ⟨b.addr,b.stop⟩

/-- The headers in memory are those of the list `bs`, linked in both directions. -/
structure Shows (hdr : Nat → BlockHdr) (bs : List Blk) : Prop where
  links : Linked (fun a => (hdr a).next) (fun a => (hdr a).prev) none (bs.map Blk.addr) none
  nodup : (bs.map Blk.addr).Nodup
  cells : ∀ b ∈ bs, (hdr b.addr).size = b.size ∧ (hdr b.addr).used = b.used ∧
    (hdr b.addr).magic = heapMagic

variable {hdr hdr' : Nat → BlockHdr} {bs l₁ l₂ : List Blk} {b c : Blk}

theorem setHdr_apply (hdr : Nat → BlockHdr) (a x : Nat) (f : BlockHdr → BlockHdr) :
    setHdr hdr a f x = if x = a then f (hdr x) else hdr x := by
  rw [setHdr,Function.update_apply]
  split_ifs with h
  · rw [h]
  · rfl

theorem setHdrIf_apply (hdr : Nat → BlockHdr) (a : Option Nat) (x : Nat)
    (f : BlockHdr → BlockHdr) : setHdrIf hdr a f x = if a = some x then f (hdr x) else hdr x := by
  cases a with
  | none => simp [setHdrIf]
  | some a =>
    rw [setHdrIf,setHdr_apply]
    simp only [Option.some.injEq,eq_comm]

theorem Shows.next (h : Shows hdr (l₁++b::l₂)) : (hdr b.addr).next = l₂.head?.map Blk.addr := by
  have hl := h.links
  rw [List.map_append,List.map_cons] at hl
  rw [hl.node.2,List.head?_map]

theorem Shows.prev (h : Shows hdr (l₁++b::l₂)) : (hdr b.addr).prev = l₁.getLast?.map Blk.addr := by
  have hl := h.links
  rw [List.map_append,List.map_cons] at hl
  rw [hl.node.1,List.getLast?_map]

theorem Shows.cell (h : Shows hdr (l₁++b::l₂)) : (hdr b.addr).size = b.size ∧
    (hdr b.addr).used = b.used ∧ (hdr b.addr).magic = heapMagic :=
  h.cells b (by simp)

/-- Addresses tell blocks apart. -/
theorem Shows.addr_inj (h : Shows hdr bs) (hb : b ∈ bs) (hc : c ∈ bs) (he : b.addr = c.addr) :
    b = c := List.inj_on_of_nodup_map h.nodup hb hc he

theorem Shows.addr_ne (h : Shows hdr (l₁++b::l₂)) : ∀ c ∈ l₁++l₂, c.addr ≠ b.addr := by
  intro c hc he
  have hd := h.nodup
  rw [List.map_append,List.map_cons,List.nodup_middle,List.nodup_cons,← List.map_append] at hd
  exact hd.1 (he ▸ List.mem_map_of_mem hc)

theorem Shows.bool {p : Blk → Bool} {q : BlockHdr → Bool} (h : Shows hdr (l₁++b::l₂))
    (hq : ∀ x : BlockHdr, x.size = b.size → x.used = b.used → q x = p b) :
    q (hdr b.addr) = p b := hq _ h.cell.1 h.cell.2.1

/-- Walking the list. -/
theorem heapWalk_shows (h : Shows hdr (l₁++l₂)) {fuel : Nat} (hf : l₂.length < fuel) :
    heapWalk hdr fuel (l₂.head?.map Blk.addr) = l₂.map Blk.addr := by
  induction l₂ generalizing l₁ fuel with
  | nil =>
    cases fuel with
    | zero => simp at hf
    | succ n => rfl
  | cons b l ih =>
    cases fuel with
    | zero => simp at hf
    | succ n =>
      rw [List.head?_cons,Option.map_some,heapWalk,h.next]
      have h' : Shows hdr (l₁++[b]++l) := by simpa using h
      rw [ih h' (by simpa using hf),List.map_cons]

/-- The first-fit search. -/
theorem heapFit_shows (h : Shows hdr (l₁++l₂)) (size : Nat) {fuel : Nat} (hf : l₂.length < fuel) :
    heapFit hdr size fuel (l₂.head?.map Blk.addr) =
      (l₂.find? (fun b => !b.used && decide (size ≤ b.size))).map Blk.addr := by
  induction l₂ generalizing l₁ fuel with
  | nil =>
    cases fuel with
    | zero => simp at hf
    | succ n => rfl
  | cons b l ih =>
    cases fuel with
    | zero => simp at hf
    | succ n =>
      obtain ⟨hs,hu,-⟩ := h.cell
      have h' : Shows hdr (l₁++[b]++l) := by simpa using h
      rw [List.head?_cons,Option.map_some,heapFit,hs,hu,h.next,List.find?_cons,
        ih h' (by simpa using hf)]
      cases hc : (!b.used && decide (size ≤ b.size)) with
      | true => rfl
      | false => rfl

theorem heapTail_shows (h : Shows hdr (l₁++b::l₂)) {fuel : Nat} (hf : l₂.length < fuel) :
    heapTail hdr fuel b.addr = ((b::l₂).getLast (by simp)).addr := by
  induction l₂ generalizing l₁ b fuel with
  | nil =>
    cases fuel with
    | zero => simp at hf
    | succ n =>
      rw [heapTail,h.next]
      rfl
  | cons c l ih =>
    cases fuel with
    | zero => simp at hf
    | succ n =>
      rw [heapTail,h.next,List.head?_cons,Option.map_some]
      have h' : Shows hdr ((l₁++[b])++c::l) := by simpa using h
      exact ih h' (by simpa using hf)

/-- Headers that changed in size, use and magic only. -/
theorem Shows.relabel {b' : Blk} (h : Shows hdr (l₁++b::l₂)) (ha : b'.addr = b.addr)
    (hself : (hdr' b.addr).next = (hdr b.addr).next ∧ (hdr' b.addr).prev = (hdr b.addr).prev ∧
      (hdr' b.addr).size = b'.size ∧ (hdr' b.addr).used = b'.used ∧
      (hdr' b.addr).magic = heapMagic)
    (hother : ∀ x, x ≠ b.addr → hdr' x = hdr x) : Shows hdr' (l₁++b'::l₂) := by
  have hmap : (l₁++b'::l₂).map Blk.addr = (l₁++b::l₂).map Blk.addr := by
    simp [ha]
  refine ⟨?_,hmap ▸ h.nodup,fun x hx => ?_⟩
  · rw [hmap]
    refine h.links.congr (fun x _ => ?_) (fun x _ => ?_)
    · by_cases hx : x = b.addr
      · rw [hx]
        exact hself.1
      · rw [hother x hx]
    · by_cases hx : x = b.addr
      · rw [hx]
        exact hself.2.1
      · rw [hother x hx]
  · rcases List.mem_append.mp hx with hx | hx
    · rw [hother x.addr (h.addr_ne x (by simp [hx]))]
      exact h.cells x (by simp [hx])
    · rcases List.mem_cons.mp hx with rfl | hx
      · rw [ha]
        exact hself.2.2
      · rw [hother x.addr (h.addr_ne x (by simp [hx]))]
        exact h.cells x (by simp [hx])

/-- Setting `used`. -/
theorem Shows.setUsed (h : Shows hdr (l₁++b::l₂)) (u : Bool) :
    Shows (setHdr hdr b.addr (fun x => { x with used := u })) (l₁++{ b with used := u }::l₂) := by
  refine h.relabel rfl ?_ (fun x hx => ?_)
  · rw [setHdr_apply,if_pos rfl]
    exact ⟨rfl,rfl,h.cell.1,rfl,h.cell.2.2⟩
  · rw [setHdr_apply,if_neg hx]

/-- A block leaves the list: its neighbours point at each other. -/
theorem Shows.drop {ds : List Blk} (h : Shows hdr (l₁++b::l₂))
    (hmap : ds.map Blk.addr = (l₁++l₂).map Blk.addr)
    (hnext : ∀ a, a ≠ b.addr → (hdr' a).next =
      if (hdr b.addr).prev = some a then (hdr b.addr).next else (hdr a).next)
    (hprev : ∀ a, a ≠ b.addr → (hdr' a).prev =
      if (hdr b.addr).next = some a then (hdr b.addr).prev else (hdr a).prev)
    (hcells : ∀ d ∈ ds, (hdr' d.addr).size = d.size ∧ (hdr' d.addr).used = d.used ∧
      (hdr' d.addr).magic = heapMagic) : Shows hdr' ds := by
  have hl := h.links
  have hd := h.nodup
  rw [List.map_append,List.map_cons] at hl hd
  refine ⟨?_,?_,hcells⟩
  · rw [hmap,List.map_append]
    exact hl.unlink hd hnext hprev
  · rw [hmap,List.map_append]
    rw [List.nodup_middle] at hd
    exact (List.nodup_cons.mp hd).2

theorem Shows.rest (h : Shows hdr (l₁++b::l₂)) : ∀ c ∈ l₁++l₂, (hdr c.addr).size = c.size ∧
    (hdr c.addr).used = c.used ∧ (hdr c.addr).magic = heapMagic := by
  intro c hc
  apply h.cells c
  rcases List.mem_append.mp hc with hc | hc
  · simp [hc]
  · simp [hc]

/-- `heap_try_reclaim` takes a block out. -/
theorem Shows.unlink (h : Shows hdr (l₁++b::l₂)) :
    Shows (setHdr (heapUnlink hdr b.addr) b.addr (fun x => { x with magic := heapFreed }))
      (l₁++l₂) := by
  have hself : (hdr b.addr).prev ≠ some b.addr := by
    rw [h.prev,Ne,Option.map_eq_some_iff]
    rintro ⟨c,hc,he⟩
    exact h.addr_ne c (by simp [List.mem_of_getLast? hc]) he
  have hblk : setHdrIf hdr (hdr b.addr).prev (fun p => { p with next := (hdr b.addr).next })
      b.addr = hdr b.addr := by
    rw [setHdrIf_apply,if_neg hself]
  have hval : ∀ a, a ≠ b.addr →
      setHdr (heapUnlink hdr b.addr) b.addr (fun x => { x with magic := heapFreed }) a =
      { hdr a with
        next := if (hdr b.addr).prev = some a then (hdr b.addr).next else (hdr a).next
        prev := if (hdr b.addr).next = some a then (hdr b.addr).prev else (hdr a).prev } := by
    intro a ha
    rw [setHdr_apply,if_neg ha,heapUnlink,hblk,setHdrIf_apply,setHdrIf_apply]
    split_ifs <;> rfl
  refine h.drop rfl (fun a ha => by rw [hval a ha]) (fun a ha => by rw [hval a ha])
    (fun c hc => ?_)
  rw [hval c.addr (h.addr_ne c hc)]
  exact h.rest c hc

/-- Two neighbours become one. -/
def Blk.join (b c : Blk) : Blk := ⟨b.addr,b.size+(blockSize+c.size),b.used⟩

/-- A block swallows its successor. -/
theorem Shows.merge (h : Shows hdr (l₁++b::c::l₂)) :
    let hdr₁ := setHdr hdr b.addr (fun x =>
      { x with size := x.size+(blockSize+(hdr c.addr).size), next := (hdr c.addr).next })
    let hdr₂ := setHdrIf hdr₁ (hdr₁ c.addr).next (fun n => { n with prev := some b.addr })
    Shows (setHdr hdr₂ c.addr (fun x => { x with magic := heapFreed })) (l₁++b.join c::l₂) := by
  intro hdr₁ hdr₂
  have hc : Shows hdr ((l₁++[b])++c::l₂) := by simpa using h
  have hbc : b.addr ≠ c.addr := hc.addr_ne b (by simp)
  have hprev : (hdr c.addr).prev = some b.addr := by
    rw [hc.prev,List.getLast?_concat]
    rfl
  have hback : (hdr c.addr).next ≠ some b.addr := by
    rw [hc.next,Ne,Option.map_eq_some_iff]
    rintro ⟨d,hd,he⟩
    exact h.addr_ne d (by simp [List.mem_of_head? hd]) he
  have hval : ∀ a, a ≠ c.addr → setHdr hdr₂ c.addr (fun x => { x with magic := heapFreed }) a =
      { hdr a with
        size := if a = b.addr then (hdr a).size+(blockSize+(hdr c.addr).size) else (hdr a).size
        next := if a = b.addr then (hdr c.addr).next else (hdr a).next
        prev := if (hdr c.addr).next = some a then some b.addr else (hdr a).prev } := by
    intro a ha
    have e1 : ∀ x, hdr₁ x = _ := fun x => setHdr_apply hdr b.addr x _
    have e2 : ∀ x, hdr₂ x = _ := fun x => setHdrIf_apply hdr₁ (hdr₁ c.addr).next x _
    rw [setHdr_apply,if_neg ha,e2,e1 c.addr,if_neg hbc.symm,e1 a]
    by_cases hab : a = b.addr
    · rw [if_pos hab,if_pos hab,if_pos hab,hab,if_neg hback,if_neg hback]
    · rw [if_neg hab,if_neg hab,if_neg hab]
      split_ifs <;> rfl
  refine hc.drop (by simp [Blk.join]) (fun a ha => ?_) (fun a ha => ?_) (fun d hd => ?_)
  · rw [hval a ha,hprev]
    simp only [Option.some.injEq,eq_comm]
  · rw [hval a ha,hprev]
  · have hrest : ∀ d ∈ l₁++l₂, _ := fun d hd => hc.rest d (by
      rcases List.mem_append.mp hd with hd | hd
      · simp [hd]
      · simp [hd])
    have hne : ∀ d ∈ l₁++l₂, d.addr ≠ b.addr := fun d hd => h.addr_ne d (by
      rcases List.mem_append.mp hd with hd | hd
      · simp [hd]
      · simp [hd])
    have hne' : ∀ d ∈ l₁++l₂, d.addr ≠ c.addr := fun d hd => hc.addr_ne d (by
      rcases List.mem_append.mp hd with hd | hd
      · simp [hd]
      · simp [hd])
    by_cases hself : d = b.join c
    · subst hself
      rw [show (b.join c).addr = b.addr from rfl,hval b.addr hbc,if_pos rfl,h.cell.1,hc.cell.1]
      exact ⟨rfl,h.cell.2⟩
    · have hd' : d ∈ l₁++l₂ := by
        rcases List.mem_append.mp hd with hd | hd
        · simp [hd]
        · exact List.mem_append_right _ (List.mem_of_ne_of_mem hself hd)
      rw [hval d.addr (hne' d hd'),if_neg (hne d hd')]
      exact hrest d hd'

/-- The blocks `heap_split` makes of one. -/
def splitBlk (b : Blk) (size : Nat) : List Blk :=
  if b.size < (size+heapMinSplit)%2^64 then [b]
  else [{ b with size := size },⟨b.addr+blockSize+size,b.size-size-blockSize,false⟩]

theorem Shows.split (h : Shows hdr (l₁++b::l₂)) (size : Nat)
    (hnew : b.addr+blockSize+size ∉ (l₁++b::l₂).map Blk.addr) :
    Shows (heapSplit hdr b.addr size) (l₁++splitBlk b size++l₂) := by
  unfold heapSplit splitBlk
  rw [h.cell.1]
  by_cases hsmall : b.size < (size+heapMinSplit)%2^64
  · rw [if_pos hsmall,if_pos hsmall]
    simpa using h
  · rw [if_neg hsmall,if_neg hsmall]
    set s := b.addr+blockSize+size with hs
    have hsb : s ≠ b.addr := by
      intro he
      exact hnew (he ▸ by simp)
    have hnext : (hdr b.addr).next ≠ some s := by
      rw [h.next,Ne,Option.map_eq_some_iff]
      rintro ⟨c,hc,he⟩
      exact hnew (List.mem_map.mpr ⟨c,by simp [List.mem_of_head? hc],he⟩)
    have hback : (hdr b.addr).next ≠ some b.addr := by
      rw [h.next,Ne,Option.map_eq_some_iff]
      rintro ⟨c,hc,he⟩
      exact h.addr_ne c (by simp [List.mem_of_head? hc]) he
    generalize hfin : setHdr _ b.addr _ = hdr'
    have hother : ∀ a, a ≠ s → hdr' a =
        { hdr a with
          size := if a = b.addr then size else (hdr a).size
          next := if a = b.addr then some s else (hdr a).next
          prev := if (hdr b.addr).next = some a then some s else (hdr a).prev } := by
      intro a ha
      rw [← hfin,setHdr_apply,setHdrIf_apply,Function.update_of_ne hsb.symm,Function.update_of_ne ha]
      by_cases hab : a = b.addr
      · rw [if_pos hab,if_pos hab,if_pos hab,hab,if_neg hback,if_neg hback]
      · rw [if_neg hab,if_neg hab,if_neg hab]
        split_ifs <;> rfl
    have hself : hdr' s = ⟨b.size-size-blockSize,false,heapMagic,(hdr b.addr).next,some b.addr⟩ := by
      rw [← hfin,setHdr_apply,if_neg hsb,setHdrIf_apply,Function.update_of_ne hsb.symm,if_neg hnext,
        Function.update_self]
    have hl := h.links
    have hd := h.nodup
    rw [List.map_append,List.map_cons] at hl hd hnew
    have hmap : (l₁++[{ b with size := size },⟨s,b.size-size-blockSize,false⟩]++l₂).map Blk.addr =
        l₁.map Blk.addr++b.addr::s::l₂.map Blk.addr := by simp
    refine ⟨?_,?_,fun d hdmem => ?_⟩
    · rw [hmap]
      refine hl.insert hd hnew ⟨by rw [hself],by rw [hself]⟩ (fun a ha => ?_) (fun a ha => ?_)
      · rw [hother a ha]
      · rw [hother a ha]
    · rw [hmap,List.nodup_append]
      obtain ⟨d1,d2,hdis⟩ := List.nodup_append.mp hd
      obtain ⟨hout,d2'⟩ := List.nodup_cons.mp d2
      simp only [List.mem_append,List.mem_cons,not_or] at hnew
      refine ⟨d1,?_,fun x hx y hy => ?_⟩
      · refine List.nodup_cons.mpr ⟨?_,List.nodup_cons.mpr ⟨hnew.2.2,d2'⟩⟩
        rw [List.mem_cons,not_or]
        exact ⟨hsb.symm,hout⟩
      · rcases List.mem_cons.mp hy with rfl | hy
        · exact hdis x hx _ (by simp)
        · rcases List.mem_cons.mp hy with rfl | hy
          · exact fun he => hnew.1 (he ▸ hx)
          · exact hdis x hx y (by simp [hy])
    · by_cases hds : d.addr = s
      · have hdd : d = ⟨s,b.size-size-blockSize,false⟩ := by
          simp only [List.mem_append,List.mem_cons,List.not_mem_nil,or_false] at hdmem
          simp only [List.mem_append,List.mem_cons,not_or] at hnew
          rcases hdmem with (hx | rfl | rfl) | hx
          · exact absurd (hds ▸ List.mem_map_of_mem hx) hnew.1
          · exact absurd hds hsb.symm
          · rfl
          · exact absurd (hds ▸ List.mem_map_of_mem hx) hnew.2.2
        rw [hds,hself,hdd]
        exact ⟨rfl,rfl,rfl⟩
      · rw [hother d.addr hds]
        simp only [List.mem_append,List.mem_cons,List.not_mem_nil,or_false] at hdmem
        rcases hdmem with (hx | rfl | rfl) | hx
        · rw [if_neg (h.addr_ne d (by simp [hx]))]
          exact h.cells d (by simp [hx])
        · rw [if_pos rfl]
          exact ⟨rfl,h.cell.2⟩
        · exact absurd rfl hds
        · rw [if_neg (h.addr_ne d (by simp [hx]))]
          exact h.cells d (by simp [hx])

/-- A new block after the last one. -/
theorem Shows.append (h : Shows hdr (l₁++[b])) {n : Nat} (hn : n ∉ (l₁++[b]).map Blk.addr)
    (size : Nat) :
    let hdr₀ := Function.update hdr n ⟨size,false,heapMagic,none,none⟩
    Shows (setHdr (setHdr hdr₀ b.addr (fun x => { x with next := some n })) n
      (fun x => { x with prev := some b.addr })) (l₁++[b]++[⟨n,size,false⟩]) := by
  intro hdr₀
  have hnb : n ≠ b.addr := by
    intro he
    exact hn (he ▸ by simp)
  generalize hfin : setHdr _ n _ = hdr'
  have hother : ∀ a, a ≠ n → hdr' a =
      { hdr a with next := if a = b.addr then some n else (hdr a).next } := by
    intro a ha
    have h0 : hdr₀ a = hdr a := Function.update_of_ne ha _ _
    rw [← hfin,setHdr_apply,if_neg ha,setHdr_apply,h0]
    split_ifs <;> rfl
  have hself : hdr' n = ⟨size,false,heapMagic,none,some b.addr⟩ := by
    have h0 : hdr₀ n = ⟨size,false,heapMagic,none,none⟩ := Function.update_self _ _ _
    rw [← hfin,setHdr_apply,if_pos rfl,setHdr_apply,if_neg hnb,h0]
  have hnone : (hdr b.addr).next = none := h.next
  have hl := h.links
  have hd := h.nodup
  have hmap : (l₁++[b]++[(⟨n,size,false⟩ : Blk)]).map Blk.addr = l₁.map Blk.addr++b.addr::n::[] := by
    simp
  have hold : (l₁++[b]).map Blk.addr = l₁.map Blk.addr++b.addr::[] := by simp
  rw [hold] at hl hd hn
  refine ⟨?_,?_,fun d hdm => ?_⟩
  · rw [hmap]
    refine hl.insert hd hn ⟨by rw [hself,hnone],by rw [hself]⟩ (fun a ha => ?_) (fun a ha => ?_)
    · rw [hother a ha]
    · rw [hother a ha,hnone]
      simp
  · rw [hmap,← List.singleton_append,← List.append_assoc]
    exact List.nodup_append.mpr ⟨hd,List.nodup_singleton n,fun x hx y hy he => by
      rw [List.mem_singleton] at hy
      exact hn (hy ▸ he ▸ hx)⟩
  · rcases List.mem_append.mp hdm with hdm | hdm
    · have hne : d.addr ≠ n := fun he => hn (he ▸ hold ▸ List.mem_map_of_mem hdm)
      rw [hother d.addr hne]
      exact h.cells d hdm
    · rw [List.mem_singleton] at hdm
      rw [hdm,hself]
      exact ⟨rfl,rfl,rfl⟩

/-- The first block alone. -/
theorem Shows.first (hdr : Nat → BlockHdr) (n size : Nat) :
    Shows (Function.update hdr n ⟨size,false,heapMagic,none,none⟩) [⟨n,size,false⟩] := by
  refine ⟨⟨?_,?_,trivial⟩,List.nodup_singleton n,fun d hd => ?_⟩
  · simp [Function.update_self]
  · simp [Function.update_self]
  · rw [List.mem_singleton] at hd
    rw [hd]
    simp [Function.update_self]

/-- Free blocks that follow without a gap are swallowed. -/
def absorbNext : Blk → List Blk → Blk × List Blk
  | b,[] => (b,[])
  | b,c::l => if !c.used && decide (b.stop = c.addr) then absorbNext (b.join c) l else (b,c::l)

/-- A block is swallowed by the free blocks before it; the list is given backwards. -/
def absorbPrev : List Blk → Blk → List Blk × Blk
  | [],b => ([],b)
  | c::r,b => if !c.used && decide (c.stop = b.addr) then absorbPrev r (c.join b) else (c::r,b)

theorem absorbNext_addr (b : Blk) (l : List Blk) : (absorbNext b l).1.addr = b.addr := by
  induction l generalizing b with
  | nil => rfl
  | cons c l ih =>
    rw [absorbNext]
    split_ifs
    · exact ih (b.join c)
    · rfl

theorem heapAbsorbNext_shows (h : Shows hdr (l₁++b::l₂)) {fuel : Nat} (hf : l₂.length < fuel) :
    Shows (heapAbsorbNext b.addr fuel hdr)
      (l₁++(absorbNext b l₂).1::(absorbNext b l₂).2) := by
  induction l₂ generalizing b fuel hdr with
  | nil =>
    cases fuel with
    | zero => simp at hf
    | succ n =>
      rw [heapAbsorbNext,h.next]
      exact h
  | cons c l ih =>
    cases fuel with
    | zero => simp at hf
    | succ n =>
      have hc : Shows hdr ((l₁++[b])++c::l) := by simpa using h
      rw [heapAbsorbNext,h.next,absorbNext]
      simp only [List.head?_cons,Option.map_some]
      rw [heapAddrAdjacent,h.cell.1,hc.cell.2.1]
      change Shows (if !c.used && decide (b.stop = c.addr) then _ else hdr) _
      split_ifs
      · exact ih h.merge (by simpa using hf)
      · exact h

theorem heapAbsorbPrev_shows {r : List Blk} (h : Shows hdr (r.reverse++b::l₂)) {fuel : Nat}
    (hf : r.length < fuel) :
    (heapAbsorbPrev fuel b.addr hdr).1 = (absorbPrev r b).2.addr ∧
    Shows (heapAbsorbPrev fuel b.addr hdr).2
      ((absorbPrev r b).1.reverse++(absorbPrev r b).2::l₂) := by
  induction r generalizing b fuel hdr with
  | nil =>
    cases fuel with
    | zero => simp at hf
    | succ n =>
      rw [heapAbsorbPrev,h.prev]
      exact ⟨rfl,h⟩
  | cons c r ih =>
    cases fuel with
    | zero => simp at hf
    | succ n =>
      have hb : Shows hdr ((r.reverse++[c])++b::l₂) := by simpa using h
      have hc : Shows hdr (r.reverse++c::b::l₂) := by simpa using h
      rw [heapAbsorbPrev,hb.prev,absorbPrev]
      simp only [List.getLast?_concat,Option.map_some]
      rw [heapAddrAdjacent,hc.cell.1,hc.cell.2.1]
      change _ = (if !c.used && decide (c.stop = b.addr) then _ else (c::r,b)).2.addr ∧ _
      change (if !c.used && decide (c.stop = b.addr) then _ else (b.addr,hdr)).1 = _ ∧ _
      change _ ∧ Shows (if !c.used && decide (c.stop = b.addr) then _ else (b.addr,hdr)).2 _
      split_ifs
      · exact ih hc.merge (by simpa using hf)
      · exact ⟨rfl,h⟩

/-- What `heap_coalesce` leaves: the block that swallowed its free neighbours, and the list. -/
theorem heapCoalesce_shows (h : Shows hdr (l₁++b::l₂)) (hlen : (l₁++b::l₂).length ≤ listBound) :
    (heapCoalesce hdr b.addr).1 = (absorbPrev l₁.reverse (absorbNext b l₂).1).2.addr ∧
    Shows (heapCoalesce hdr b.addr).2
      ((absorbPrev l₁.reverse (absorbNext b l₂).1).1.reverse++
        (absorbPrev l₁.reverse (absorbNext b l₂).1).2::(absorbNext b l₂).2) := by
  rw [List.length_append,List.length_cons] at hlen
  have h1 := heapAbsorbNext_shows h (show l₂.length < listBound by omega)
  have h2 : Shows (heapAbsorbNext b.addr listBound hdr)
      (l₁.reverse.reverse++(absorbNext b l₂).1::(absorbNext b l₂).2) := by simpa using h1
  have h3 := heapAbsorbPrev_shows h2 (show l₁.reverse.length < listBound by
    rw [List.length_reverse]
    omega)
  rw [absorbNext_addr] at h3
  exact h3

end KiNBOL
