import KiNBOL.Kernel.ProcessIsolation
import KiNBOL.Kernel.Syscall
import KiNBOL.Mm.UserRange

namespace KiNBOL

/-- Memory of the user is accessed in a window, with AC set on a CPU that has SMAP; outside the
windows AC is clear. -/
def MemEvent.Ok (smap ac w : Bool) : MemEvent → Prop
  | .user .. => w = true ∧ (smap = true → ac = true)
  | .kernel => w = false → ac = false
  | .stac | .clac | .resume _ => True

/-- The discipline over what a call does, from these values of AC and window on. -/
def Disciplined (smap : Bool) : Bool → Bool → List MemEvent → Prop
  | _,_,[] => True
  | ac,w,e::es => e.Ok smap ac w ∧ Disciplined smap (e.ac smap ac) (e.window w) es

instance (smap ac w : Bool) (e : MemEvent) : Decidable (e.Ok smap ac w) := by
  cases e <;> unfold MemEvent.Ok <;> infer_instance

instance decidableDisciplined (smap : Bool) : (ac w : Bool) → (l : List MemEvent) →
    Decidable (Disciplined smap ac w l)
  | _,_,[] => isTrue trivial
  | ac,w,e::es =>
    have := decidableDisciplined smap (e.ac smap ac) (e.window w) es
    inferInstanceAs (Decidable (e.Ok smap ac w ∧ Disciplined smap (e.ac smap ac) (e.window w) es))

/-- The processor refuses ring 0 a write to a page that is not writable (CR0.WP is set), and any
access to a user page while SMAP is on and AC clear. -/
def Xlat.refuses (x : Xlat) (write smap ac : Bool) : Bool :=
  (write && !x.write) || (x.user && smap && !ac)

/-- An access that has no translation or is refused. -/
def MemEvent.Faults (k : Kernel) (smap ac : Bool) : MemEvent → Prop
  | .user va write => ((translate k.mem k.cr3 va).map (·.refuses write smap ac)).getD true = true
  | .kernel | .stac | .clac | .resume _ => False

/-- No access of a call faults, from this value of AC on. -/
def FaultFree (k : Kernel) (smap : Bool) : Bool → List MemEvent → Prop
  | _,[] => True
  | ac,e::es => ¬e.Faults k smap ac ∧ FaultFree k smap (e.ac smap ac) es

instance (k : Kernel) (smap ac : Bool) (e : MemEvent) : Decidable (e.Faults k smap ac) := by
  cases e <;> unfold MemEvent.Faults <;> infer_instance

instance decidableFaultFree (k : Kernel) (smap : Bool) : (ac : Bool) → (l : List MemEvent) →
    Decidable (FaultFree k smap ac l)
  | _,[] => isTrue trivial
  | ac,e::es =>
    have := decidableFaultFree k smap (e.ac smap ac) es
    inferInstanceAs (Decidable (¬e.Faults k smap ac ∧ FaultFree k smap (e.ac smap ac) es))

/-- The page of an access is there, for writing too when the access writes. -/
def MemEvent.Mapped (k : Kernel) : MemEvent → Prop
  | .user va write => ∃ x, translate k.mem k.cr3 va = some x ∧ (write = true → x.write = true)
  | .kernel | .stac | .clac | .resume _ => True

/-- An access, to user or kernel memory. -/
def MemEvent.IsAccess : MemEvent → Prop
  | .user .. | .kernel => True
  | .stac | .clac | .resume _ => False

variable {smap ac w : Bool} {l l' : List MemEvent}

/-- Under the discipline only the translation of an access can fail. -/
theorem faultFree_iff {k : Kernel} (hd : Disciplined smap ac w l) :
    FaultFree k smap ac l ↔ ∀ e ∈ l, e.Mapped k := by
  induction l generalizing ac w with
  | nil => simp [FaultFree]
  | cons e l ih =>
    obtain ⟨he,hd⟩ := hd
    rw [FaultFree,ih hd,List.forall_mem_cons]
    refine and_congr_left' ?_
    cases e with
    | user va write =>
      have hac : ¬(smap = true ∧ ac = false) := by
        rintro ⟨h1,h2⟩
        rw [he.2 h1] at h2
        exact Bool.noConfusion h2
      cases hx : translate k.mem k.cr3 va with
      | none => simp [MemEvent.Faults,MemEvent.Mapped,hx]
      | some x =>
        have hrefuse : x.refuses write smap ac = (write && !x.write) := by
          cases smap <;> cases ac <;> simp [Xlat.refuses] at hac ⊢
        simp [MemEvent.Faults,MemEvent.Mapped,hx,hrefuse]
    | kernel | stac | clac | resume b => simp [MemEvent.Faults,MemEvent.Mapped]

/-- Accesses inside a window keep to the discipline and leave AC and window alone. -/
theorem disciplined_inside (hl : ∀ e ∈ l, e.IsAccess) (hac : smap = true → ac = true) :
    Disciplined smap ac true (l++l') ↔ Disciplined smap ac true l' := by
  induction l with
  | nil => exact Iff.rfl
  | cons e l ih =>
    have hrest := ih fun e he => hl e (List.mem_cons_of_mem _ he)
    have he := hl e List.mem_cons_self
    cases e with
    | user va write =>
      rw [← hrest]
      exact and_iff_right ⟨rfl,hac⟩
    | kernel =>
      rw [← hrest]
      exact and_iff_right nofun
    | stac | clac | resume b => exact he.elim

theorem disciplined_kernel :
    Disciplined smap ac false (.kernel::l) ↔ ac = false ∧ Disciplined smap ac false l := by
  simp [Disciplined,MemEvent.Ok,MemEvent.ac,MemEvent.window]

/-- The shape of the calls with a window. -/
theorem disciplined_window (hl : ∀ e ∈ l, e.IsAccess) :
    Disciplined smap ac false (.kernel::.stac::(l++[.clac,.kernel])) ↔ ac = false := by
  rw [disciplined_kernel]
  apply and_iff_left_of_imp
  intro hac
  refine ⟨trivial,(disciplined_inside hl ?_).mpr ⟨trivial,?_⟩⟩
  · intro h
    simp [MemEvent.ac,h]
  · cases smap <;> simp [Disciplined,MemEvent.Ok,MemEvent.ac,MemEvent.window,hac]

theorem userBytes_access {ptr : BitVec 64} {write : Bool} {offs : List Nat} :
    ∀ e ∈ userBytes ptr write offs, e.IsAccess := by
  intro e he
  obtain ⟨i,-,rfl⟩ := List.mem_map.mp he
  trivial

theorem writeLoop_access {s : SyscallState} {buf : BitVec 64} {i n : Nat} :
    ∀ e ∈ writeLoop s buf i n, e.IsAccess := by
  induction n generalizing i with
  | zero => simp [writeLoop]
  | succ n ih =>
    intro e he
    rw [writeLoop] at he
    split at he
    · exact userBytes_access e he
    · cases List.mem_append.mp he with
      | inl h => exact userBytes_access e h
      | inr h =>
        cases List.mem_cons.mp h with
        | inl hk => rw [hk]; trivial
        | inr hr => exact ih e hr

/-- What a node's `read` writes in the buffer stays within the length it is given. -/
def SyscallEnv.Within (env : SyscallEnv) : Prop :=
  ∀ node off len, ∀ i ∈ (env.read node off len).1, i < len.toNat

namespace SyscallState

variable {s : SyscallState} {env : SyscallEnv} {a b c : BitVec 64}

/-- The call leaves the discipline to AC as it came in. -/
def Keeps (smap ac : Bool) (r : SyscallResult) : Prop :=
  Disciplined smap ac false (.kernel::r.events) ↔ ac = false

theorem plain_keeps {rax : BitVec 64} {k : Kernel} {fds : FdTable} :
    Keeps smap ac (plain rax k fds) := by
  simp [Keeps,plain,Disciplined,MemEvent.Ok,MemEvent.ac,MemEvent.window]

theorem keeps_window {r : SyscallResult} (hl : ∀ e ∈ l, e.IsAccess)
    (hr : r.events = .kernel::.stac::(l++[.clac,.kernel])) : Keeps smap ac r := by
  rw [Keeps,hr,disciplined_kernel,disciplined_window hl,and_self]

theorem writeCall_keeps : Keeps smap ac (s.writeCall a b) := by
  unfold writeCall
  split
  · exact plain_keeps
  · exact keeps_window writeLoop_access rfl

theorem readCall_keeps : Keeps smap ac (s.readCall env a b c) := by
  unfold readCall
  split
  · exact plain_keeps
  · split
    · exact plain_keeps
    · apply keeps_window (l := .kernel::userBytes b true _) _ rfl
      intro e he
      cases List.mem_cons.mp he with
      | inl hk => rw [hk]; trivial
      | inr hu => exact userBytes_access e hu

theorem fstatCall_keeps : Keeps smap ac (s.fstatCall a b) := by
  unfold fstatCall
  split
  · exact plain_keeps
  · split
    · exact plain_keeps
    · rw [Keeps]
      show Disciplined smap ac false
        (.kernel::.kernel::.kernel::.stac::(userBytes b true (List.range 144)++[.clac,.kernel])) ↔ _
      rw [disciplined_kernel,disciplined_kernel,disciplined_window userBytes_access]
      simp

theorem yieldCall_iff : Disciplined smap ac false (.kernel::(s.yieldCall env).events) ↔
    ac = false ∧ env.resume ≠ some true := by
  unfold yieldCall
  cases hr : env.resume with
  | none => simp [Disciplined,MemEvent.Ok,MemEvent.ac,MemEvent.window]
  | some b => simp [Disciplined,MemEvent.Ok,MemEvent.ac,MemEvent.window]

/-- An access to user memory before any window. -/
theorem not_disciplined_user {ptr : BitVec 64} {write : Bool} {i : Nat} {offs : List Nat} :
    ¬Disciplined smap ac false (userBytes ptr write (i::offs)++l) := by
  intro h
  exact absurd h.1.1 (by decide)

theorem openCall_iff : Disciplined smap ac false (.kernel::(s.openCall a).events) ↔
    ac = false ∧ s.checkUserPtr a (BitVec.ofNat 64 vfsNameMax) false = false := by
  unfold openCall
  by_cases hcheck : s.checkUserPtr a (BitVec.ofNat 64 vfsNameMax) false = false
  · simp only [hcheck,Bool.not_false,if_true,and_true]
    exact plain_keeps
  · have hc : s.checkUserPtr a (BitVec.ofNat 64 vfsNameMax) false = true := by simpa using hcheck
    simp only [hc,Bool.not_true,Bool.false_eq_true,if_false,Bool.true_eq_false,and_false,iff_false]
    intro h
    have h1 := (disciplined_kernel.mp (disciplined_kernel.mp h).2).2
    have hlen : min ((cString vfsNameMax (s.userByte a)).length+1) vfsNameMax =
        min (cString vfsNameMax (s.userByte a)).length 63+1 := by
      unfold vfsNameMax
      omega
    rw [hlen,List.range_succ_eq_map] at h1
    exact not_disciplined_user h1

/-- `vfs_find` looks at the first byte of the string it is given. -/
theorem vfsFindReads_cons (v : Volume) (f : Nat → Byte) (found : Option NodeRef) :
    ∃ offs, vfsFindReads v f found = 0::offs := by
  exact ⟨_,rfl⟩

theorem statCall_iff : Disciplined smap ac false (.kernel::(s.statCall a b).events) ↔
    ac = false ∧ ¬(s.checkUserPtr b 144#64 true = true ∧
      s.checkUserPtr a (BitVec.ofNat 64 vfsNameMax) false = true) := by
  unfold statCall
  cases hb : s.checkUserPtr b 144#64 true with
  | false =>
    simp only [Bool.not_false,if_true,Bool.false_eq_true,false_and,not_false_eq_true,and_true]
    exact plain_keeps
  | true =>
    cases ha : s.checkUserPtr a (BitVec.ofNat 64 vfsNameMax) false with
    | false =>
      simp only [Bool.not_false,Bool.not_true,if_true,Bool.false_eq_true,if_false,and_false,
        not_false_eq_true,and_true]
      exact plain_keeps
    | true =>
      simp only [Bool.not_true,Bool.false_eq_true,if_false,and_self,not_true_eq_false,and_false,
        iff_false]
      obtain ⟨offs,hoffs⟩ := vfsFindReads_cons s.vol (s.userByte a) (s.vol.vfsFind (s.statPath a))
      rw [hoffs]
      split
      · exact fun h => not_disciplined_user (disciplined_kernel.mp (disciplined_kernel.mp h).2).2
      · unfold statCopy
        rw [List.append_assoc,List.append_assoc]
        exact fun h => not_disciplined_user (disciplined_kernel.mp (disciplined_kernel.mp h).2).2

/-- `SYS_OPEN` or `SYS_STAT` with pointers that pass the checks. -/
def ReadsPath (s : SyscallState) (r : SyscallRegs) : Prop :=
  (r.rax.toNat = 2 ∧ s.checkUserPtr r.rdi (BitVec.ofNat 64 vfsNameMax) false = true) ∨
  (r.rax.toNat = 4 ∧ s.checkUserPtr r.rsi 144#64 true = true ∧
    s.checkUserPtr r.rdi (BitVec.ofNat 64 vfsNameMax) false = true)

/-- `SYS_YIELD` or `SYS_SLEEP`. -/
def Yields (r : SyscallRegs) : Prop := r.rax.toNat = 24 ∨ r.rax.toNat = 35

theorem flagAc_syscall {rflags : BitVec 64} : flagAc (syscallFlags rflags) = flagAc rflags := by
  simp [flagAc,syscallFlags,msrFmask]

/-- What the call and the flags the user had must not be for the discipline to hold. -/
def Guarded (s : SyscallState) (env : SyscallEnv) (r : SyscallRegs) (rflags : BitVec 64) : Prop :=
  flagAc rflags = false ∧ (s.checkUserRsp = true →
    (Yields r → env.resume ≠ some true) ∧ ¬s.ReadsPath r)

/-- The discipline over a whole system call. -/
theorem dispatch_disciplined_iff (s : SyscallState) (env : SyscallEnv) (t : Task) (r : SyscallRegs)
    (smap : Bool) (rflags : BitVec 64) :
    Disciplined smap (flagAc (syscallFlags rflags)) false (s.dispatch env t r).events ↔
      s.Guarded env r rflags := by
  rw [flagAc_syscall]
  unfold Guarded
  generalize flagAc rflags = ac
  unfold dispatch Yields ReadsPath
  cases hrsp : s.checkUserRsp with
  | false => simp [Disciplined,MemEvent.Ok]
  | true =>
    simp only [Bool.not_true,Bool.false_eq_true,if_false,forall_const]
    generalize r.rax.toNat = n
    split
    · simpa [Keeps] using readCall_keeps
    · simpa [Keeps] using writeCall_keeps
    · simpa using openCall_iff
    · simpa [Keeps] using plain_keeps
    · simpa using statCall_iff
    · simpa [Keeps] using fstatCall_keeps
    · simpa [Keeps] using plain_keeps
    · simpa [Keeps] using plain_keeps
    · simpa [Keeps] using plain_keeps
    · simpa [Keeps] using plain_keeps
    · simpa [Keeps] using plain_keeps
    · simpa [Keeps] using plain_keeps
    · simpa using yieldCall_iff
    · simpa using yieldCall_iff
    · simp [Disciplined,MemEvent.Ok,MemEvent.ac,MemEvent.window]
    · simpa [Keeps] using plain_keeps
    · simpa [Keeps] using plain_keeps
    · next h2 _ h4 _ _ _ _ _ _ _ h24 h35 _ _ _ =>
      have hne : n ≠ 2 ∧ n ≠ 4 ∧ n ≠ 24 ∧ n ≠ 35 := ⟨h2,h4,h24,h35⟩
      simpa [Keeps,hne] using plain_keeps

/-- A buffer that passes its check and that the call then reads or writes: in `SYS_READ` when the
node's `read` writes any byte, in `SYS_WRITE`, and in `SYS_FSTAT` of an entry in use. -/
def Uses (s : SyscallState) (env : SyscallEnv) (r : SyscallRegs) (ptr len : BitVec 64) : Prop :=
  (r.rax.toNat = 0 ∧ ptr = r.rsi ∧ len = r.rdx ∧ s.checkUserPtr ptr len true = true ∧
    ∃ i e, s.fds.entry r.rdi = some (i,e) ∧ (env.read e.node e.offset (len.setWidth 32)).1 ≠ []) ∨
  (r.rax.toNat = 1 ∧ ptr = r.rsi ∧ len = r.rdx ∧ s.checkUserPtr ptr len false = true) ∨
  (r.rax.toNat = 5 ∧ ptr = r.rsi ∧ len = 144#64 ∧ s.checkUserPtr ptr len true = true ∧
    ∃ i e, s.fds.entry r.rdi = some (i,e))

/-- The buffers that the call uses end in the lower half. -/
def BuffersLow (s : SyscallState) (env : SyscallEnv) (r : SyscallRegs) : Prop :=
  ∀ ptr len, s.checkUserRsp = true → s.Uses env r ptr len → ptr.toNat+len.toNat ≤ 2^47

/-- No address of the upper half of the PML4 passes the page check. -/
def KernelShut (k : Kernel) : Prop := ∀ va, va.getLsbD 47 = true → ¬UserWalk k.mem k.cr3 false va

theorem checkUserPtr_iff {ptr len : BitVec 64} {needWrite : Bool} :
    s.checkUserPtr ptr len needWrite = true ↔ ptr.toNat+len.toNat < 2^64 ∧ len ≠ 0#64 ∧
      ∀ page ∈ pageRange ptr len, UserWalk s.k.mem s.k.cr3 needWrite page := by
  have hval : s.checkUserPtr ptr len needWrite = true ↔ len ≠ 0#64 ∧
      vmmCheckUserRange s.k.mach (some s.k.cr3) ptr len needWrite = true := by
    rw [checkUserPtr,Bool.and_eq_true,decide_eq_true_eq]
    exact Iff.rfl
  rw [hval]
  by_cases hlen : len = 0#64
  · simp [hlen]
  by_cases hend : ptr.toNat+len.toNat < 2^64
  · rw [checkUserRange_iff s.k.mach s.k.cr3 needWrite hlen hend]
    simp only [hlen,hend,true_and,ne_eq,not_false_eq_true]
    exact Iff.rfl
  · have hwrap : ptr+len < ptr := by
      have hp := ptr.isLt
      have hl := len.isLt
      rw [BitVec.lt_def,BitVec.toNat_add]
      omega
    have hno : vmmCheckUserRange s.k.mach (some s.k.cr3) ptr len needWrite = false := by
      simp only [vmmCheckUserRange,if_neg hlen,if_pos hwrap]
    rw [hno]
    exact ⟨fun h => Bool.noConfusion h.2,fun h => absurd h.1 hend⟩

theorem toNat_offset {ptr len : BitVec 64} {i : Nat} (hend : ptr.toNat+len.toNat < 2^64)
    (hi : i < len.toNat) : (ptr+BitVec.ofNat 64 i).toNat = ptr.toNat+i := by
  rw [BitVec.toNat_add,BitVec.toNat_ofNat]
  omega

/-- Every address of a buffer that passed the check passes the page check. -/
theorem check_walks {ptr len : BitVec 64} {needWrite : Bool}
    (hc : s.checkUserPtr ptr len needWrite = true) {a : BitVec 64} (h1 : ptr.toNat ≤ a.toNat)
    (h2 : a.toNat < ptr.toNat+len.toNat) : UserWalk s.k.mem s.k.cr3 needWrite a := by
  obtain ⟨hend,hlen,hall⟩ := checkUserPtr_iff.mp hc
  have hw := hall _ (page_mem_range hlen hend.le h1 h2)
  unfold UserWalk at hw ⊢
  rwa [ptSlot_page] at hw

/-- Accesses to a lower-half buffer that passed the check do not fault. -/
theorem check_mapped {roots : Nat → Prop} (ht : UserTables roots s.k.mem) (hr : roots s.k.cr3)
    {ptr len : BitVec 64} {write : Bool} (hc : s.checkUserPtr ptr len write = true)
    (hlow : ptr.toNat+len.toNat ≤ 2^47) {i : Nat} (hi : i < len.toNat) :
    (MemEvent.user (ptr+BitVec.ofNat 64 i) write).Mapped s.k := by
  have hval := toNat_offset (checkUserPtr_iff.mp hc).1 hi
  have hwalk := check_walks hc (a := ptr+BitVec.ofNat 64 i) (by omega) (by omega)
  have hva : LowerHalf (ptr+BitVec.ofNat 64 i) := by
    simp only [LowerHalf]
    omega
  obtain ⟨x,hx,-,hw⟩ := (userWalk_iff_mapped ht hr write hva).mp hwalk
  exact ⟨x,hx,hw⟩

/-- With the kernel half shut, a buffer that passed the check and of which one byte can be reached
ends in the lower half. -/
theorem low_of_mapped (hshut : KernelShut s.k) {ptr len : BitVec 64} {write : Bool}
    (hc : s.checkUserPtr ptr len write = true) {i : Nat} (hi : i < len.toNat)
    (hm : (MemEvent.user (ptr+BitVec.ofNat 64 i) write).Mapped s.k) :
    ptr.toNat+len.toNat ≤ 2^47 := by
  have hend := (checkUserPtr_iff.mp hc).1
  have hbit : ∀ a : BitVec 64, ptr.toNat ≤ a.toNat → a.toNat < ptr.toNat+len.toNat →
      a.toNat/2^47%2 = 0 := by
    intro a h1 h2
    obtain ⟨pt,j,hs,hu,-⟩ := check_walks hc h1 h2
    have hclear : a.getLsbD 47 = false := by
      by_contra hset
      exact hshut a (by simpa using hset) ⟨pt,j,hs,hu,nofun⟩
    rw [BitVec.getLsbD,Nat.testBit_eq_decide_div_mod_eq,decide_eq_false_iff_not] at hclear
    omega
  have hval := toNat_offset hend hi
  obtain ⟨x,hx,-⟩ := hm
  have hcanon : LowerHalf (ptr+BitVec.ofNat 64 i) ∨ KernelHalf (ptr+BitVec.ofNat 64 i) := by
    by_contra hno
    rw [translate,if_neg hno] at hx
    simp at hx
  have hb := hbit _ (by omega : ptr.toNat ≤ (ptr+BitVec.ofNat 64 i).toNat) (by omega)
  have hlower : ptr.toNat < 2^47 := by
    have hlt := (ptr+BitVec.ofNat 64 i).isLt
    simp only [LowerHalf,KernelHalf] at hcanon
    omega
  by_contra hover
  have htop : (BitVec.ofNat 64 (2^47)).toNat = 2^47 := by decide
  have := hbit (BitVec.ofNat 64 (2^47)) (by omega) (by omega)
  rw [htop] at this
  omega

/-- The accesses of the loop of `SYS_WRITE`: it starts with the first byte and stays in the buffer. -/
theorem writeLoop_events {buf : BitVec 64} {i n : Nat} : ∀ e ∈ writeLoop s buf i n,
    e = .kernel ∨ ∃ j < i+n, e = .user (buf+BitVec.ofNat 64 j) false := by
  induction n generalizing i with
  | zero => simp [writeLoop]
  | succ n ih =>
    intro e he
    have hfirst : ∀ e ∈ userBytes buf false [i,i],
        ∃ j < i+(n+1), e = .user (buf+BitVec.ofNat 64 j) false := by
      intro e he
      obtain ⟨j,hj,rfl⟩ := List.mem_map.mp he
      exact ⟨i,by omega,by simp_all⟩
    rw [writeLoop] at he
    split at he
    · exact Or.inr (hfirst e (List.mem_cons_of_mem _ he))
    · rcases List.mem_append.mp he with h | h
      · exact Or.inr (hfirst e h)
      · rcases List.mem_cons.mp h with h | h
        · exact Or.inl h
        · refine (ih e h).imp id ?_
          rintro ⟨j,hj,rfl⟩
          exact ⟨j,by omega,rfl⟩

theorem writeLoop_first {buf : BitVec 64} {n : Nat} (hn : 0 < n) :
    .user (buf+BitVec.ofNat 64 0) false ∈ writeLoop s buf 0 n := by
  obtain ⟨n,rfl⟩ := Nat.exists_eq_succ_of_ne_zero hn.ne'
  rw [writeLoop]
  split <;> simp [userBytes]

theorem plain_mapped (rax : BitVec 64) (k : Kernel) (fds : FdTable) :
    ∀ e ∈ (plain rax k fds).events, e.Mapped s.k := by
  intro e he
  rw [plain,List.mem_singleton] at he
  exact he ▸ trivial

/-- What a window lets through is mapped when its accesses are. -/
theorem window_mapped {k : Kernel} {p l : List MemEvent} (hpre : ∀ e ∈ p, e = .kernel) :
    (∀ e ∈ p++[.kernel,.stac]++l++[.clac,.kernel], e.Mapped k) ↔ ∀ e ∈ l, e.Mapped k := by
  have hp : ∀ e ∈ p, e.Mapped k := fun e he => hpre e he ▸ trivial
  simp only [List.forall_mem_append,List.forall_mem_cons,List.not_mem_nil,false_imp_iff,
    implies_true,and_true]
  exact ⟨fun h => h.1.2,fun h => ⟨⟨⟨hp,trivial,trivial⟩,h⟩,trivial,trivial⟩⟩

/-- The accesses of a call are mapped if `q` holds, and only then when the kernel half is shut. -/
def MappedIff (s : SyscallState) (q : Prop) (r : SyscallResult) : Prop :=
  (q → ∀ e ∈ r.events, e.Mapped s.k) ∧
  (KernelShut s.k → (∀ e ∈ r.events, e.Mapped s.k) → q)

theorem mappedIff_plain {rax : BitVec 64} {k : Kernel} {fds : FdTable} {q : Prop} (hq : q) :
    s.MappedIff q (plain rax k fds) := ⟨fun _ => plain_mapped rax k fds,fun _ _ => hq⟩

/-- A window in which a buffer that passed its check is accessed. -/
theorem mappedIff_window {roots : Nat → Prop} (ht : UserTables roots s.k.mem) (hr : roots s.k.cr3)
    {ptr len : BitVec 64} {write : Bool} (hc : s.checkUserPtr ptr len write = true)
    {p l : List MemEvent} (hpre : ∀ e ∈ p, e = .kernel)
    (hl : ∀ e ∈ l, e = .kernel ∨ ∃ j < len.toNat, e = .user (ptr+BitVec.ofNat 64 j) write)
    {r : SyscallResult} (hres : r.events = p++[.kernel,.stac]++l++[.clac,.kernel]) :
    s.MappedIff ((∃ e ∈ l, e ≠ .kernel) → ptr.toNat+len.toNat ≤ 2^47) r := by
  rw [MappedIff,hres,window_mapped hpre]
  constructor
  · intro hlow e he
    rcases hl e he with rfl | ⟨j,hj,rfl⟩
    · trivial
    · exact check_mapped ht hr hc (hlow ⟨_,he,nofun⟩) hj
  · rintro hshut hm ⟨e,he,hne⟩
    obtain ⟨j,hj,rfl⟩ := (hl e he).resolve_left hne
    exact low_of_mapped hshut hc hj (hm _ he)

theorem MappedIff.congr {q q' : Prop} {r : SyscallResult} (h : s.MappedIff q r) (hq : q' ↔ q) :
    s.MappedIff q' r := ⟨fun h' => h.1 (hq.mp h'),fun hs hm => hq.mpr (h.2 hs hm)⟩

theorem userBytes_events {ptr : BitVec 64} {write : Bool} {offs : List Nat} {n : Nat}
    (h : ∀ i ∈ offs, i < n) : ∀ e ∈ userBytes ptr write offs,
      e = .kernel ∨ ∃ j < n, e = .user (ptr+BitVec.ofNat 64 j) write := by
  intro e he
  obtain ⟨i,hi,rfl⟩ := List.mem_map.mp he
  exact Or.inr ⟨i,h i hi,rfl⟩

theorem writeCall_mapped {roots : Nat → Prop} (ht : UserTables roots s.k.mem) (hr : roots s.k.cr3) :
    s.MappedIff (s.checkUserPtr a b false = true → a.toNat+b.toNat ≤ 2^47) (s.writeCall a b) := by
  unfold writeCall
  by_cases hc : s.checkUserPtr a b false = true
  · rw [if_neg (by simp [hc])]
    have hpos := pos_of_ne_zero (checkUserPtr_iff.mp hc).2.1
    refine (mappedIff_window ht hr hc (p := []) (l := writeLoop s a 0 b.toNat) (by simp) ?_
      rfl).congr ?_
    · intro e he
      have := writeLoop_events e he
      rwa [Nat.zero_add] at this
    · simp only [hc,true_imp_iff]
      exact ⟨fun h _ => h,fun h => h ⟨_,writeLoop_first hpos,nofun⟩⟩
  · rw [if_pos (by simpa using hc)]
    exact mappedIff_plain (fun h => absurd h hc)

theorem readCall_mapped {roots : Nat → Prop} (ht : UserTables roots s.k.mem) (hr : roots s.k.cr3)
    (henv : env.Within) : s.MappedIff (s.checkUserPtr b c true = true → ∀ i e,
      s.fds.entry a = some (i,e) → (env.read e.node e.offset (c.setWidth 32)).1 ≠ [] →
      b.toNat+c.toNat ≤ 2^47) (s.readCall env a b c) := by
  unfold readCall
  by_cases hc : s.checkUserPtr b c true = true
  · rw [if_neg (by simp [hc])]
    cases he : s.fds.entry a with
    | none => exact mappedIff_plain (by simp)
    | some x =>
      obtain ⟨i,e⟩ := x
      have hoffs : ∀ j ∈ (env.read e.node e.offset (c.setWidth 32)).1, j < c.toNat := by
        intro j hj
        refine (henv _ _ _ j hj).trans_le ?_
        rw [BitVec.toNat_setWidth]
        exact Nat.mod_le _ _
      refine (mappedIff_window ht hr hc (p := [])
        (l := .kernel::userBytes b true (env.read e.node e.offset (c.setWidth 32)).1) (by simp)
        (List.forall_mem_cons.mpr ⟨Or.inl rfl,userBytes_events hoffs⟩) rfl).congr ?_
      simp only [hc,true_imp_iff,Option.some.injEq,Prod.mk.injEq,and_imp]
      constructor
      · rintro h ⟨u,hu,hne⟩
        refine h i e rfl rfl (fun hnil => ?_)
        rw [hnil] at hu
        simp [userBytes,hne] at hu
      · rintro h i' e' rfl rfl hne
        obtain ⟨j,hj⟩ := List.exists_mem_of_ne_nil _ hne
        exact h ⟨_,List.mem_cons_of_mem _ (List.mem_map_of_mem hj),nofun⟩
  · rw [if_pos (by simpa using hc)]
    exact mappedIff_plain (fun h => absurd h hc)

theorem fstatCall_mapped {roots : Nat → Prop} (ht : UserTables roots s.k.mem) (hr : roots s.k.cr3) :
    s.MappedIff (s.checkUserPtr b 144#64 true = true → ∀ i e, s.fds.entry a = some (i,e) →
      b.toNat+(144#64).toNat ≤ 2^47) (s.fstatCall a b) := by
  unfold fstatCall
  by_cases hc : s.checkUserPtr b 144#64 true = true
  · rw [if_neg (by simp [hc])]
    cases he : s.fds.entry a with
    | none => exact mappedIff_plain (by simp)
    | some x =>
      obtain ⟨i,e⟩ := x
      refine (mappedIff_window ht hr hc (p := [.kernel]) (l := userBytes b true (List.range 144))
        (by simp) (userBytes_events fun j hj => List.mem_range.mp hj) rfl).congr ?_
      simp only [hc,true_imp_iff,Option.some.injEq,Prod.mk.injEq,and_imp]
      refine ⟨fun h _ => h i e rfl rfl,fun h i' e' _ _ => h ⟨.user (b+BitVec.ofNat 64 0) true,?_,nofun⟩⟩
      exact List.mem_map_of_mem (List.mem_range.mpr (by decide))
  · rw [if_pos (by simpa using hc)]
    exact mappedIff_plain (fun h => absurd h hc)

theorem yieldCall_mapped {q : Prop} (hq : q) : s.MappedIff q (s.yieldCall env) := by
  refine ⟨fun _ => ?_,fun _ _ => hq⟩
  unfold yieldCall
  cases env.resume <;> simp [MemEvent.Mapped]

/-- Calls other than `SYS_OPEN` and `SYS_STAT` with good pointers: their accesses are mapped when the
buffers end in the lower half. -/
theorem dispatch_mapped {roots : Nat → Prop} (ht : UserTables roots s.k.mem) (hr : roots s.k.cr3)
    (henv : env.Within) (t : Task) {r : SyscallRegs}
    (hpath : s.checkUserRsp = true → ¬s.ReadsPath r) :
    s.MappedIff (s.BuffersLow env r) (s.dispatch env t r) := by
  unfold BuffersLow dispatch
  cases hrsp : s.checkUserRsp with
  | false =>
    refine ⟨fun _ e he => ?_,fun _ _ _ _ h => Bool.noConfusion h⟩
    simp only [Bool.not_false,if_true,List.mem_singleton] at he
    exact he ▸ trivial
  | true =>
    have hnot := hpath hrsp
    simp only [Bool.not_true,Bool.false_eq_true,if_false,true_imp_iff]
    unfold ReadsPath at hnot
    unfold Uses
    -- the first event of a call is its own access to kernel memory
    have hcons : ∀ {q : Prop} {res : SyscallResult}, s.MappedIff q res →
        s.MappedIff q { res with events := .kernel::res.events } := by
      intro q res h
      exact ⟨fun hq => List.forall_mem_cons.mpr ⟨trivial,h.1 hq⟩,
        fun hs hm => h.2 hs (List.forall_mem_cons.mp hm).2⟩
    refine hcons ?_
    generalize r.rax.toNat = n at hnot ⊢
    split
    · refine (readCall_mapped ht hr henv).congr ?_
      simp
    · refine (writeCall_mapped ht hr).congr ?_
      simp
    · have hno : s.checkUserPtr r.rdi (BitVec.ofNat 64 vfsNameMax) false = false := by
        simpa using hnot
      rw [openCall,hno]
      exact mappedIff_plain (by simp)
    · exact mappedIff_plain (by simp)
    · have hno : s.checkUserPtr r.rsi 144#64 true = true →
          s.checkUserPtr r.rdi (BitVec.ofNat 64 vfsNameMax) false = false := by
        simpa using hnot
      rw [statCall]
      cases hb : s.checkUserPtr r.rsi 144#64 true with
      | false => exact mappedIff_plain (by simp)
      | true =>
        rw [hno hb]
        exact mappedIff_plain (by simp)
    · refine (fstatCall_mapped ht hr).congr ?_
      simp
    · exact mappedIff_plain (by simp)
    · exact mappedIff_plain (by simp)
    · exact mappedIff_plain (by simp)
    · exact mappedIff_plain (by simp)
    · exact mappedIff_plain (by simp)
    · exact mappedIff_plain (by simp)
    · exact yieldCall_mapped (by simp)
    · exact yieldCall_mapped (by simp)
    · exact ⟨fun _ => plain_mapped 0#64 s.k s.fds,fun _ _ => by simp⟩
    · exact mappedIff_plain (by simp)
    · exact mappedIff_plain (by simp)
    · next h0 h1 _ _ _ h5 _ _ _ _ _ _ _ _ _ _ _ =>
      have hne : n ≠ 0 ∧ n ≠ 1 ∧ n ≠ 5 := ⟨h0,h1,h5⟩
      exact mappedIff_plain (by simp [hne])

/-- The discipline holds over a call, and no access of it faults in ring 0. -/
def Safe (s : SyscallState) (env : SyscallEnv) (t : Task) (r : SyscallRegs) (smap : Bool)
    (rflags : BitVec 64) : Prop :=
  Disciplined smap (flagAc (syscallFlags rflags)) false (s.dispatch env t r).events ∧
  FaultFree s.k smap (flagAc (syscallFlags rflags)) (s.dispatch env t r).events

/-- When a system call accesses user memory as it should and without a fault. -/
theorem dispatch_safe {roots : Nat → Prop} (s : SyscallState) (env : SyscallEnv) (t : Task)
    (r : SyscallRegs) (smap : Bool) (rflags : BitVec 64) (ht : UserTables roots s.k.mem)
    (hr : roots s.k.cr3) (henv : env.Within) :
    (s.Guarded env r rflags → s.BuffersLow env r → s.Safe env t r smap rflags) ∧
    (s.Safe env t r smap rflags → s.Guarded env r rflags) ∧
    (KernelShut s.k → s.Safe env t r smap rflags → s.BuffersLow env r) := by
  have hiff := dispatch_disciplined_iff s env t r smap rflags
  have hmap : s.Guarded env r rflags → s.MappedIff (s.BuffersLow env r) (s.dispatch env t r) :=
    fun hg => dispatch_mapped ht hr henv t (fun h => (hg.2 h).2)
  refine ⟨fun hg hlow => ?_,fun hs => hiff.mp hs.1,fun hshut hs => ?_⟩
  · exact ⟨hiff.mpr hg,(faultFree_iff (hiff.mpr hg)).mpr ((hmap hg).1 hlow)⟩
  · exact (hmap (hiff.mp hs.1)).2 hshut ((faultFree_iff hs.1).mp hs.2)

/-- The task of the sample run with one page of heap, that holds its stack and the string `"x"`. -/
def sampleCaller : SyscallState where
  k := sampleGrown
  userRsp := 0x80000800#64
  fds := fun _ => none
  ubyte := fun a => if a = 0x80000100#64 then ch 'x' else 0#8
  vol := ⟨false,1,2,1,32,34,2,100,2,0,false,0,fun _ => none,0,[],fun _ => ⟨[],0#32,0,none⟩,
    fun _ _ => 0#8,[]⟩

/-- The same task with a node on descriptor 3, from which a read gets one byte. -/
def sampleReader : SyscallState :=
  { sampleCaller with fds := fun i => if i = 3 then some ⟨.other 0,0#32⟩ else none }

def byteEnv : SyscallEnv where
  read _ _ len := (if len = 0#32 then [] else [0],if len = 0#32 then 0#32 else 1#32)
  resume := none

theorem byteEnv_within : byteEnv.Within := by
  intro node off len i hi
  have hne : len.toNat ≠ 0 := by
    intro hz
    have hlen : len = 0#32 := BitVec.eq_of_toNat_eq hz
    simp [byteEnv,hlen] at hi
  simp only [byteEnv] at hi
  split_ifs at hi
  · simp at hi
  · rw [List.mem_singleton] at hi
    omega

/-- A read into the heap page is safe. -/
theorem dispatch_safe_sample :
    sampleReader.Safe byteEnv sampleGrownSelf ⟨0#64,3#64,0x80000200#64,8#64,0#64⟩ true 0x202#64 := by
  refine (dispatch_safe sampleReader byteEnv sampleGrownSelf _ true 0x202#64
    sampleGrown_owned.1.tables sampleGrown_owned.2 byteEnv_within).1 ?_ ?_
  · refine ⟨by decide,fun _ => ⟨fun h => absurd h (by unfold Yields; decide),fun h => ?_⟩⟩
    rcases h with h | h
    · exact absurd h.1 (by decide)
    · exact absurd h.1 (by decide)
  · intro ptr len _ h
    rcases h with ⟨-,rfl,rfl,-⟩ | h | h
    · decide
    · exact absurd h.1 (by decide)
    · exact absurd h.1 (by decide)

/-- `open` of a mapped path by a task with AC clear reads the path with AC clear; any call of a task
with AC set runs with AC set; and a read into the heap page through an address with bit 51 set, which
the check does not look at, keeps to the discipline and faults. -/
theorem open_unguarded :
    let call := sampleCaller.dispatch ⟨fun _ _ _ => ([],0#32),none⟩ sampleGrownSelf
    let read := sampleReader.dispatch byteEnv sampleGrownSelf
      ⟨0#64,3#64,0x8000080000000#64,1#64,0#64⟩
    flagAc 0x202#64 = false ∧ sampleCaller.checkUserRsp = true ∧
    ¬Disciplined true (flagAc (syscallFlags 0x202#64)) false
      (call ⟨2#64,0x80000100#64,0#64,0#64,0#64⟩).events ∧
    ¬Disciplined true (flagAc (syscallFlags 0x40202#64)) false
      (call ⟨16#64,0#64,0#64,0#64,0#64⟩).events ∧
    sampleReader.checkUserPtr 0x8000080000000#64 1#64 true = true ∧
    Disciplined true (flagAc (syscallFlags 0x202#64)) false read.events ∧
    ¬FaultFree sampleReader.k true (flagAc (syscallFlags 0x202#64)) read.events := by
  refine ⟨by decide,by decide,?_,?_,?_,?_,?_⟩
  · decide
  · decide
  · decide
  · decide
  · decide

end SyscallState

end KiNBOL
