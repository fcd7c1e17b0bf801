import KiNBOL.Kernel.SmapDiscipline

namespace KiNBOL

/-- What a descriptor stands for: a node and a position in it, without a bound. -/
structure Cursor where
  node : NodeRef
  position : Nat

abbrev Cursors := Fin 16 → Option Cursor

def FdTable.cursors (fds : FdTable) : Cursors :=
  fun i => (fds i).map (fun e => ⟨e.node,e.offset.toNat⟩)

/-- A system call of the task, in whatever state the rest of the system is then. -/
structure FdCall where
  state : SyscallState
  env : SyscallEnv
  task : Task
  regs : SyscallRegs

namespace FdCall

def before (c : FdCall) (fds : FdTable) : SyscallState := { c.state with fds := fds }

def result (c : FdCall) (fds : FdTable) : SyscallResult :=
  (c.before fds).dispatch c.env c.task c.regs

/-- How many bytes a read from a cursor gets. -/
def got (c : FdCall) (node : NodeRef) (position : Nat) : BitVec 32 :=
  (c.env.read node (BitVec.ofNat 32 position) (c.regs.rdx.setWidth 32)).2

/-- Where `SYS_LSEEK` counts from. -/
def seekBase (c : FdCall) (e : TaskFd) : Option (BitVec 64) :=
  if c.regs.rdx.setWidth 32 = 0#32 then some 0#64
  else if c.regs.rdx.setWidth 32 = 1#32 then some (e.offset.setWidth 64)
  else if c.regs.rdx.setWidth 32 = 2#32 then
    some (BitVec.ofNat 64 (((c.state.vol.node e.node).map FsNode.size).getD 0))
  else none

/-- A call moves cursors as POSIX has it: the returned value tells what happened to the descriptor
`(int)rdi`, and no other one changes. -/
structure Posix (c : FdCall) (fds : FdTable) : Prop where
  error : ∀ x, (c.result fds).rax = some x → x.slt 0#64 = true → (c.result fds).fds = fds
  other : c.regs.rax ∉ [0#64,2#64,3#64,8#64] → (c.result fds).fds = fds
  opened : c.regs.rax = 2#64 → ∀ x, (c.result fds).rax = some x → x.slt 0#64 = false →
    ∃ (i : Fin 16) (node : NodeRef), x = BitVec.ofNat 64 i.val ∧ 3 ≤ i.val ∧ fds i = none ∧
      (∀ j : Fin 16, 3 ≤ j.val → j < i → fds j ≠ none) ∧
      (c.result fds).fds.cursors = Function.update fds.cursors i (some ⟨node,0⟩)
  closed : c.regs.rax = 3#64 → ∀ x, (c.result fds).rax = some x → x.slt 0#64 = false →
    ∃ i : Fin 16, i.val = (c.regs.rdi.setWidth 32).toNat ∧ fds i ≠ none ∧
      (c.result fds).fds.cursors = Function.update fds.cursors i none
  sought : c.regs.rax = 8#64 → ∀ x, (c.result fds).rax = some x → x.slt 0#64 = false →
    ∃ (i : Fin 16) (k : Cursor), i.val = (c.regs.rdi.setWidth 32).toNat ∧ fds.cursors i = some k ∧
      (c.result fds).fds.cursors = Function.update fds.cursors i (some ⟨k.node,x.toNat⟩)
  reads : c.regs.rax = 0#64 → ∀ x, (c.result fds).rax = some x → x.slt 0#64 = false →
    ∃ (i : Fin 16) (k : Cursor), i.val = (c.regs.rdi.setWidth 32).toNat ∧ fds.cursors i = some k ∧
      x = (c.got k.node k.position).setWidth 64 ∧
      (c.result fds).fds.cursors = Function.update fds.cursors i (some ⟨k.node,k.position+x.toNat⟩)

/-- The new position of a read and of a seek fits 32 bits; a seek to a negative number fails. -/
structure Fits (c : FdCall) (fds : FdTable) : Prop where
  read : c.regs.rax = 0#64 → (c.before fds).checkUserRsp = true →
    (c.before fds).checkUserPtr c.regs.rsi c.regs.rdx true = true →
    ∀ i e, fds.entry c.regs.rdi = some (i,e) →
      e.offset.toNat+(c.got e.node e.offset.toNat).toNat < 2^32
  lseek : c.regs.rax = 8#64 → (c.before fds).checkUserRsp = true →
    ∀ i e base, fds.entry c.regs.rdi = some (i,e) → c.seekBase e = some base →
      (base+c.regs.rsi).toNat < 2^32 ∨ (base+c.regs.rsi).slt 0#64 = true

/-- A property of all calls of a run, up to one that does not return. -/
def Along (P : FdCall → FdTable → Prop) : FdTable → List FdCall → Prop
  | _,[] => True
  | fds,c::cs => P c fds ∧ ((c.result fds).rax ≠ none → Along P (c.result fds).fds cs)

variable {c : FdCall} {fds : FdTable}

theorem result_of_rsp (h : (c.before fds).checkUserRsp = false) :
    (c.result fds).rax = none ∧ (c.result fds).fds = fds := by
  rw [result,SyscallState.dispatch,h]
  exact ⟨rfl,rfl⟩

theorem result_read (h : (c.before fds).checkUserRsp = true) (hn : c.regs.rax = 0#64) :
    (c.result fds).rax = ((c.before fds).readCall c.env c.regs.rdi c.regs.rsi c.regs.rdx).rax ∧
    (c.result fds).fds = ((c.before fds).readCall c.env c.regs.rdi c.regs.rsi c.regs.rdx).fds := by
  rw [result,SyscallState.dispatch,h,hn]
  exact ⟨rfl,rfl⟩

theorem result_open (h : (c.before fds).checkUserRsp = true) (hn : c.regs.rax = 2#64) :
    (c.result fds).rax = ((c.before fds).openCall c.regs.rdi).rax ∧
    (c.result fds).fds = ((c.before fds).openCall c.regs.rdi).fds := by
  rw [result,SyscallState.dispatch,h,hn]
  exact ⟨rfl,rfl⟩

theorem result_close (h : (c.before fds).checkUserRsp = true) (hn : c.regs.rax = 3#64) :
    (c.result fds).rax = some (sysClose fds c.regs.rdi).1 ∧
    (c.result fds).fds = (sysClose fds c.regs.rdi).2 := by
  rw [result,SyscallState.dispatch,h,hn]
  exact ⟨rfl,rfl⟩

/-- The size of a node as `SYS_LSEEK` finds it. -/
def size (c : FdCall) (n : NodeRef) : Nat := ((c.state.vol.node n).map FsNode.size).getD 0

theorem result_lseek (h : (c.before fds).checkUserRsp = true) (hn : c.regs.rax = 8#64) :
    (c.result fds).rax =
      some (sysLseek c.size fds c.regs.rdi c.regs.rsi (c.regs.rdx.setWidth 32)).1 ∧
    (c.result fds).fds = (sysLseek c.size fds c.regs.rdi c.regs.rsi (c.regs.rdx.setWidth 32)).2 := by
  rw [result,SyscallState.dispatch,h,hn]
  exact ⟨rfl,rfl⟩

theorem writeCall_fds (s : SyscallState) (p len : BitVec 64) : (s.writeCall p len).fds = s.fds := by
  unfold SyscallState.writeCall
  split <;> rfl

theorem statCall_fds (s : SyscallState) (p q : BitVec 64) : (s.statCall p q).fds = s.fds := by
  unfold SyscallState.statCall
  split
  · rfl
  split
  · rfl
  dsimp only
  split <;> rfl

theorem fstatCall_fds (s : SyscallState) (fd q : BitVec 64) : (s.fstatCall fd q).fds = s.fds := by
  unfold SyscallState.fstatCall
  split
  · rfl
  split <;> rfl

/-- The other calls leave the descriptors alone. -/
theorem result_other (hn : c.regs.rax ∉ [0#64,2#64,3#64,8#64]) : (c.result fds).fds = fds := by
  simp only [List.mem_cons,List.not_mem_nil,or_false,not_or] at hn
  obtain ⟨h0,h2,h3,h8⟩ := hn
  rw [← BitVec.toNat_inj] at h0 h2 h3 h8
  unfold result SyscallState.dispatch
  split
  · rfl
  · dsimp only
    split
    case h_1 h => exact absurd h h0
    case h_2 => exact writeCall_fds _ _ _
    case h_3 h => exact absurd h h2
    case h_4 h => exact absurd h h3
    case h_5 => exact statCall_fds _ _ _
    case h_6 => exact fstatCall_fds _ _ _
    case h_7 h => exact absurd h h8
    all_goals rfl

end FdCall

section

variable {fds : FdTable} {fd : BitVec 64} {i : Fin 16} {e : TaskFd}

theorem FdTable.entry_eq_some : fds.entry fd = some (i,e) ↔
    i.val = (fd.setWidth 32).toNat ∧ fds i = some e := by
  unfold FdTable.entry
  split
  · next h =>
    constructor
    · intro he
      obtain ⟨e',h1,h2⟩ := Option.map_eq_some_iff.mp he
      obtain ⟨rfl,rfl⟩ := Prod.mk.inj h2
      exact ⟨rfl,h1⟩
    · intro he
      obtain ⟨h1,h2⟩ := he
      have hi : i = ⟨(fd.setWidth 32).toNat,h⟩ := Fin.ext h1
      rw [← hi,h2]
      rfl
  · next h =>
    constructor
    · intro he
      cases he
    · intro he
      exact absurd (he.1 ▸ i.isLt) h

theorem FdTable.cursors_set (o : Option TaskFd) : (fds.set i o).cursors =
    Function.update fds.cursors i (o.map (fun e => ⟨e.node,e.offset.toNat⟩)) := by
  funext j
  rw [Function.update_apply,FdTable.cursors,FdTable.set]
  split
  · rfl
  · rfl

theorem FdTable.free_spec (h : fds.free = some i) : 3 ≤ i.val ∧ fds i = none ∧
    ∀ j : Fin 16, 3 ≤ j.val → j < i → fds j ≠ none := by
  have hp := List.find?_some h
  obtain ⟨h3,hn⟩ := of_decide_eq_true hp
  refine ⟨h3,hn,fun j hj hlt hnone => ?_⟩
  obtain ⟨-,l₁,l₂,hl,hno⟩ := List.find?_eq_some_iff_append.mp h
  have hjm : j ∈ l₁++i::l₂ := hl ▸ List.mem_finRange j
  have hsorted : (l₁++i::l₂).Pairwise (· < ·) := hl ▸ List.pairwise_lt_finRange 16
  obtain ⟨-,h2,-⟩ := List.pairwise_append.mp hsorted
  rcases List.mem_append.mp hjm with hj1 | hj2
  · have := hno j hj1
    simp [hj,hnone] at this
  · rcases List.mem_cons.mp hj2 with rfl | hj2
    · exact absurd hlt (lt_irrefl _)
    · exact absurd hlt (lt_asymm ((List.pairwise_cons.mp h2).1 j hj2))

end

namespace FdCall

variable {c : FdCall} {fds : FdTable} {x : BitVec 64}

theorem sysOpen_cases (v : Volume) (fds : FdTable) (path : CName) :
    (∃ x, sysOpen v fds path = (x,fds) ∧ x.slt 0#64 = true) ∨
    ∃ i node, sysOpen v fds path = (BitVec.ofNat 64 i.val,fds.set i (some ⟨node,0#32⟩)) ∧
      fds.free = some i := by
  unfold sysOpen
  split
  · exact Or.inl ⟨_,rfl,by decide⟩
  split
  · exact Or.inl ⟨_,rfl,by decide⟩
  split
  · exact Or.inl ⟨_,rfl,by decide⟩
  · next i hi => exact Or.inr ⟨i,_,rfl,hi⟩

theorem openCall_cases (s : SyscallState) (p : BitVec 64) :
    (∃ x, (s.openCall p).rax = some x ∧ (s.openCall p).fds = s.fds ∧ x.slt 0#64 = true) ∨
    ∃ i node, (s.openCall p).rax = some (BitVec.ofNat 64 i.val) ∧
      (s.openCall p).fds = s.fds.set i (some ⟨node,0#32⟩) ∧ s.fds.free = some i := by
  unfold SyscallState.openCall
  split
  · exact Or.inl ⟨_,rfl,rfl,by decide⟩
  · rcases sysOpen_cases s.vol s.fds (cString vfsNameMax (s.userByte p)) with
      ⟨x,h,hx⟩ | ⟨i,node,h,hi⟩
    · exact Or.inl ⟨x,by simp only [h],by simp only [h],hx⟩
    · exact Or.inr ⟨i,node,by simp only [h],by simp only [h],hi⟩

theorem sysClose_cases (fds : FdTable) (fd : BitVec 64) : sysClose fds fd = (-9#64,fds) ∨
    ∃ i e, sysClose fds fd = (0#64,fds.set i none) ∧ fds.entry fd = some (i,e) := by
  unfold sysClose
  split
  · exact Or.inl rfl
  · next i e h => exact Or.inr ⟨i,e,rfl,h⟩

theorem seekTarget_eq (c : FdCall) (e : TaskFd) :
    seekTarget (c.size e.node) e c.regs.rsi (c.regs.rdx.setWidth 32) =
      (c.seekBase e).map (·+c.regs.rsi) := by
  unfold seekTarget seekBase
  split
  · simp
  split
  · rfl
  split <;> rfl

/-- `SYS_LSEEK` of a descriptor with a base to count from. -/
theorem sysLseek_ok {i : Fin 16} {e : TaskFd} {base : BitVec 64}
    (he : fds.entry c.regs.rdi = some (i,e)) (hb : c.seekBase e = some base) :
    sysLseek c.size fds c.regs.rdi c.regs.rsi (c.regs.rdx.setWidth 32) =
      if (base+c.regs.rsi).slt 0#64 then (-22#64,fds)
      else (base+c.regs.rsi,fds.set i (some { e with offset := (base+c.regs.rsi).setWidth 32 })) := by
  unfold sysLseek
  simp only [he,seekTarget_eq,hb,Option.map_some]

/-- `SYS_LSEEK` fails, or goes to base plus offset. -/
theorem sysLseek_cases (c : FdCall) (fds : FdTable) :
    (∃ x, sysLseek c.size fds c.regs.rdi c.regs.rsi (c.regs.rdx.setWidth 32) = (x,fds) ∧
      x.slt 0#64 = true) ∨
    ∃ i e base, fds.entry c.regs.rdi = some (i,e) ∧ c.seekBase e = some base ∧
      (base+c.regs.rsi).slt 0#64 = false ∧
      sysLseek c.size fds c.regs.rdi c.regs.rsi (c.regs.rdx.setWidth 32) = (base+c.regs.rsi,
        fds.set i (some { e with offset := (base+c.regs.rsi).setWidth 32 })) := by
  cases he : fds.entry c.regs.rdi with
  | none => exact Or.inl ⟨-9#64,by simp only [sysLseek,he],by decide⟩
  | some ie =>
    obtain ⟨i,e⟩ := ie
    cases hb : c.seekBase e with
    | none => exact Or.inl ⟨-22#64,by simp only [sysLseek,he,seekTarget_eq,hb,Option.map_none],
        by decide⟩
    | some base =>
      have hok := sysLseek_ok he hb
      cases hs : (base+c.regs.rsi).slt 0#64 with
      | true =>
        rw [hs,if_pos rfl] at hok
        exact Or.inl ⟨_,hok,by decide⟩
      | false =>
        rw [hs,if_neg Bool.false_ne_true] at hok
        exact Or.inr ⟨i,e,base,rfl,hb,hs,hok⟩

/-- `SYS_READ` moves the descriptor by what it got. -/
theorem readCall_ok {i : Fin 16} {e : TaskFd}
    (hp : (c.before fds).checkUserPtr c.regs.rsi c.regs.rdx true = true)
    (he : fds.entry c.regs.rdi = some (i,e)) :
    ((c.before fds).readCall c.env c.regs.rdi c.regs.rsi c.regs.rdx).rax =
      some ((c.got e.node e.offset.toNat).setWidth 64) ∧
    ((c.before fds).readCall c.env c.regs.rdi c.regs.rsi c.regs.rdx).fds =
      fds.set i (some { e with offset := e.offset+c.got e.node e.offset.toNat }) := by
  have hb : (c.before fds).fds = fds := rfl
  unfold SyscallState.readCall
  simp only [hp,hb,he,sysRead,got,BitVec.ofNat_toNat,BitVec.setWidth_eq]
  exact ⟨rfl,rfl⟩

/-- `SYS_READ` fails, or it is as in `readCall_ok`. -/
theorem readCall_cases (c : FdCall) (fds : FdTable) :
    (∃ x, ((c.before fds).readCall c.env c.regs.rdi c.regs.rsi c.regs.rdx).rax = some x ∧
      ((c.before fds).readCall c.env c.regs.rdi c.regs.rsi c.regs.rdx).fds = fds ∧
      x.slt 0#64 = true) ∨
    ∃ i e, (c.before fds).checkUserPtr c.regs.rsi c.regs.rdx true = true ∧
      fds.entry c.regs.rdi = some (i,e) := by
  unfold SyscallState.readCall
  split
  · exact Or.inl ⟨_,rfl,rfl,by decide⟩
  · next hp =>
    have hb : (c.before fds).fds = fds := rfl
    rw [hb]
    split
    · exact Or.inl ⟨_,rfl,rfl,by decide⟩
    · next i e he => exact Or.inr ⟨i,e,by simpa using hp,he⟩

theorem not_slt_iff : x.slt 0#64 = false ↔ x.toNat < 2^63 := by
  rw [BitVec.slt_eq_decide,decide_eq_false_iff_not,BitVec.toInt_zero,BitVec.toInt_eq_toNat_cond]
  have hx := x.isLt
  split <;> omega

/-- A call returns, or it left the descriptors alone. -/
theorem rsp_of_rax (h : (c.result fds).rax = some x) : (c.before fds).checkUserRsp = true := by
  cases hb : (c.before fds).checkUserRsp with
  | true => rfl
  | false =>
    rw [(result_of_rsp hb).1] at h
    cases h

theorem setWidth_not_slt (n : BitVec 32) : (n.setWidth 64).slt 0#64 = false := by
  rw [not_slt_iff,BitVec.toNat_setWidth]
  have hn := n.isLt
  omega

theorem toNat_setWidth64 (n : BitVec 32) : (n.setWidth 64).toNat = n.toNat := by
  rw [BitVec.toNat_setWidth]
  have hn := n.isLt
  omega

/-- What errors, opening and closing do needs no condition. -/
theorem error_unchanged (h : (c.result fds).rax = some x) (hx : x.slt 0#64 = true) :
    (c.result fds).fds = fds := by
  have hrsp := rsp_of_rax h
  by_cases hn : c.regs.rax ∈ [0#64,2#64,3#64,8#64]
  · simp only [List.mem_cons,List.not_mem_nil,or_false] at hn
    rcases hn with hn | hn | hn | hn
    · obtain ⟨h1,h2⟩ := result_read hrsp hn
      rcases readCall_cases c fds with ⟨-,-,h3,-⟩ | ⟨i,e,hp,he⟩
      · exact h2.trans h3
      · obtain ⟨h3,-⟩ := readCall_ok hp he
        obtain rfl := Option.some.inj (h.symm.trans (h1.trans h3))
        rw [setWidth_not_slt] at hx
        cases hx
    · obtain ⟨h1,h2⟩ := result_open hrsp hn
      rcases openCall_cases (c.before fds) c.regs.rdi with ⟨-,-,h3,-⟩ | ⟨i,node,h3,-,-⟩
      · exact h2.trans h3
      · obtain rfl := Option.some.inj (h.symm.trans (h1.trans h3))
        have hi := i.isLt
        have hno := not_slt_iff.mpr (show (BitVec.ofNat 64 i.val).toNat < 2^63 by
          rw [BitVec.toNat_ofNat]
          omega)
        rw [hno] at hx
        cases hx
    · obtain ⟨h1,h2⟩ := result_close hrsp hn
      rcases sysClose_cases fds c.regs.rdi with h3 | ⟨i,e,h3,-⟩
      · rw [h2,h3]
      · rw [h3] at h1
        obtain rfl := Option.some.inj (h.symm.trans h1)
        exact absurd (show (0#64).slt 0#64 = true from hx) (by decide)
    · obtain ⟨h1,h2⟩ := result_lseek hrsp hn
      rcases sysLseek_cases c fds with ⟨y,h3,-⟩ | ⟨i,e,base,-,-,hs,h3⟩
      · rw [h2,h3]
      · rw [h3] at h1
        obtain rfl := Option.some.inj (h.symm.trans h1)
        rw [hs] at hx
        cases hx
  · exact result_other hn

theorem opened_lowest (hn : c.regs.rax = 2#64) (h : (c.result fds).rax = some x)
    (hx : x.slt 0#64 = false) :
    ∃ (i : Fin 16) (node : NodeRef), x = BitVec.ofNat 64 i.val ∧ 3 ≤ i.val ∧ fds i = none ∧
      (∀ j : Fin 16, 3 ≤ j.val → j < i → fds j ≠ none) ∧
      (c.result fds).fds.cursors = Function.update fds.cursors i (some ⟨node,0⟩) := by
  obtain ⟨h1,h2⟩ := result_open (rsp_of_rax h) hn
  rcases openCall_cases (c.before fds) c.regs.rdi with ⟨y,h3,-,hy⟩ | ⟨i,node,h3,h4,hfree⟩
  · obtain rfl := Option.some.inj (h.symm.trans (h1.trans h3))
    rw [hx] at hy
    cases hy
  · obtain ⟨g1,g2,g3⟩ := FdTable.free_spec hfree
    refine ⟨i,node,Option.some.inj (h.symm.trans (h1.trans h3)),g1,g2,g3,?_⟩
    rw [h2,h4,FdTable.cursors_set]
    rfl

theorem closed_entry (hn : c.regs.rax = 3#64) (h : (c.result fds).rax = some x)
    (hx : x.slt 0#64 = false) :
    ∃ i : Fin 16, i.val = (c.regs.rdi.setWidth 32).toNat ∧ fds i ≠ none ∧
      (c.result fds).fds.cursors = Function.update fds.cursors i none := by
  obtain ⟨h1,h2⟩ := result_close (rsp_of_rax h) hn
  rcases sysClose_cases fds c.regs.rdi with h3 | ⟨i,e,h3,he⟩
  · rw [h3] at h1
    obtain rfl := Option.some.inj (h.symm.trans h1)
    exact absurd (show (-9#64).slt 0#64 = false from hx) (by decide)
  · obtain ⟨hi,he'⟩ := FdTable.entry_eq_some.mp he
    refine ⟨i,hi,by simp [he'],?_⟩
    rw [h2,h3,FdTable.cursors_set]
    rfl

/-- A call moves cursors as POSIX has it just when the new position fits. -/
theorem posix_iff (c : FdCall) (fds : FdTable) : c.Posix fds ↔ c.Fits fds := by
  constructor
  · intro h
    constructor
    · intro hn hrsp hp i e he
      obtain ⟨h1,h2⟩ := result_read hrsp hn
      obtain ⟨h3,h4⟩ := readCall_ok hp he
      obtain ⟨i',k,hi',hk,-,hcur⟩ := h.reads hn _ (h1.trans h3) (setWidth_not_slt _)
      obtain ⟨hi,he'⟩ := FdTable.entry_eq_some.mp he
      obtain rfl : i' = i := Fin.ext (hi'.trans hi.symm)
      rw [h2,h4,FdTable.cursors_set,toNat_setWidth64] at hcur
      have hpos := congrFun hcur i'
      rw [FdTable.cursors,he',Option.map_some,Option.some.injEq] at hk
      subst hk
      simp only [Function.update_self,Option.map_some,Option.some.injEq,Cursor.mk.injEq,true_and,
        BitVec.toNat_add] at hpos
      omega
    · intro hn hrsp i e base he hb
      obtain ⟨h1,h2⟩ := result_lseek hrsp hn
      have hok := sysLseek_ok he hb
      cases hs : (base+c.regs.rsi).slt 0#64 with
      | true => exact Or.inr rfl
      | false =>
        rw [hs,if_neg Bool.false_ne_true] at hok
        rw [hok] at h1 h2
        obtain ⟨i',k,hi',hk,hcur⟩ := h.sought hn _ h1 hs
        obtain ⟨hi,he'⟩ := FdTable.entry_eq_some.mp he
        obtain rfl : i' = i := Fin.ext (hi'.trans hi.symm)
        rw [h2,FdTable.cursors_set] at hcur
        have hpos := congrFun hcur i'
        simp only [Function.update_self,Option.map_some,Option.some.injEq,Cursor.mk.injEq,
          BitVec.toNat_setWidth] at hpos
        left
        rw [← hpos.2]
        exact Nat.mod_lt _ (by decide)
  · intro h
    refine ⟨fun x => error_unchanged,result_other,fun hn x => opened_lowest hn,
      fun hn x => closed_entry hn,fun hn x hx hs => ?_,fun hn x hx hs => ?_⟩
    · have hrsp := rsp_of_rax hx
      obtain ⟨h1,h2⟩ := result_lseek hrsp hn
      rcases sysLseek_cases c fds with ⟨y,h3,hy⟩ | ⟨i,e,base,he,hb,hs',h3⟩
      · rw [h3] at h1
        obtain rfl := Option.some.inj (hx.symm.trans h1)
        rw [hs] at hy
        cases hy
      · rw [h3] at h1 h2
        obtain rfl := Option.some.inj (hx.symm.trans h1)
        obtain ⟨hi,he'⟩ := FdTable.entry_eq_some.mp he
        have hfit : (base+c.regs.rsi).toNat < 2^32 := by
          rcases h.lseek hn hrsp i e base he hb with hf | hf
          · exact hf
          · rw [hs] at hf
            cases hf
        refine ⟨i,⟨e.node,e.offset.toNat⟩,hi,by simp [FdTable.cursors,he'],?_⟩
        rw [h2,FdTable.cursors_set,Option.map_some,BitVec.toNat_setWidth,Nat.mod_eq_of_lt hfit]
    · have hrsp := rsp_of_rax hx
      obtain ⟨h1,h2⟩ := result_read hrsp hn
      rcases readCall_cases c fds with ⟨y,h3,-,hy⟩ | ⟨i,e,hp,he⟩
      · obtain rfl := Option.some.inj (hx.symm.trans (h1.trans h3))
        rw [hs] at hy
        cases hy
      · obtain ⟨h3,h4⟩ := readCall_ok hp he
        obtain ⟨hi,he'⟩ := FdTable.entry_eq_some.mp he
        have hfit := h.read hn hrsp hp i e he
        have hx' := Option.some.inj (hx.symm.trans (h1.trans h3))
        refine ⟨i,⟨e.node,e.offset.toNat⟩,hi,by simp [FdTable.cursors,he'],hx',?_⟩
        rw [h2,h4,FdTable.cursors_set,Option.map_some,BitVec.toNat_add,Nat.mod_eq_of_lt hfit,hx',
          toNat_setWidth64]

/-- Descriptors are POSIX cursors in a run just as long as all positions fit 32 bits. -/
theorem descriptors_posix_iff (fds : FdTable) (cs : List FdCall) :
    Along Posix fds cs ↔ Along Fits fds cs := by
  induction cs generalizing fds with
  | nil => exact Iff.rfl
  | cons c cs ih => rw [Along,Along,posix_iff,ih]

/-- The caller of `SmapDiscipline` where `/dev/zero` is registered and its path lies in memory. -/
def zeroCaller : SyscallState := { SyscallState.sampleCaller with
  ubyte := fun a => [ch 'z',ch 'e',ch 'r',ch 'o'].getD (a.toNat-0x80000100) 0#8
  vol := { SyscallState.sampleCaller.vol with
    nodes := [.other 0]
    others := fun _ => ⟨[ch 'z',ch 'e',ch 'r',ch 'o'],4#32,0,none⟩ } }

def zeroCall (regs : SyscallRegs) : FdCall :=
  ⟨zeroCaller,⟨fun _ _ len => ([],len),none⟩,sampleGrownSelf,regs⟩

def openZero : FdCall := zeroCall ⟨2#64,0x80000100#64,0#64,0#64,0#64⟩
def seekZero (offset : BitVec 64) : FdCall := zeroCall ⟨8#64,3#64,offset,0#64,0#64⟩

/-- `lseek(3, 0x100000005, SEEK_SET)` returns 0x100000005 and leaves the position at 5. -/
theorem lseek_narrows : ¬Along Posix (fun _ => none) [openZero,seekZero 0x100000005#64] := by
  intro h
  obtain ⟨-,hnext⟩ := h
  obtain ⟨hseek,-⟩ := hnext (by decide)
  have hfits := (posix_iff _ _).mp hseek
  have hpos := hfits.lseek rfl (by decide) 3 ⟨.other 0,0#32⟩ 0#64 (by decide) rfl
  exact absurd hpos (by decide)

end FdCall

end KiNBOL
