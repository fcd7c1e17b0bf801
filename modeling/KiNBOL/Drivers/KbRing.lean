import KiNBOL.Framework.Fairness
import KiNBOL.Framework.LogRing
import KiNBOL.Fs.Name

namespace KiNBOL

def kbRingSize : Nat := 64

/-- Where a call of `kb_ring_pop` is, with what it has loaded. The two loads of its comparison come
in either order. -/
inductive PopPc where
  | idle
  | gotTail (tail : Nat)
  | gotHead (head : Nat)
  | compared
  | gotSlotIndex (tail : Nat)
  | gotByte (sc : Byte)
  | gotTailAgain (sc : Byte) (tail : Nat)

/-- The variables of the scancode queue and the running pop, with the bytes that came in, those
that were put into the queue, and those that pops have returned. -/
structure KbRing where
  ring : Nat → Byte
  head : Nat
  tail : Nat
  pc : PopPc
  received : List Byte
  queued : List Byte
  popped : List Byte

inductive KbStep where
  | isr (sc : Byte)
  | pop (headFirst : Bool)

namespace KbRing

def init : KbRing := ⟨fun _ => 0#8,0,0,.idle,[],[],[]⟩

/-- `keyboard_isr` finds no slot for its byte. -/
def Full (s : KbRing) : Prop := (s.head+1)%kbRingSize = s.tail

instance (s : KbRing) : Decidable s.Full := inferInstanceAs (Decidable (_ = _))

/-- `keyboard_isr`, which is not interrupted. -/
def isr (s : KbRing) (sc : Byte) : KbRing :=
  let s := { s with received := s.received++[sc] }
  if s.Full then s
  else { s with
    ring := Function.update s.ring s.head sc
    head := (s.head+1)%kbRingSize
    queued := s.queued++[sc] }

/-- The next load or store of `kb_ring_pop`. -/
def pop (s : KbRing) (headFirst : Bool) : KbRing :=
  match s.pc with
  | .idle => { s with pc := if headFirst then .gotHead s.head else .gotTail s.tail }
  | .gotTail tail => { s with pc := if tail = s.head then .idle else .compared }
  | .gotHead head => { s with pc := if s.tail = head then .idle else .compared }
  | .compared => { s with pc := .gotSlotIndex s.tail }
  | .gotSlotIndex tail => { s with pc := .gotByte (s.ring tail) }
  | .gotByte sc => { s with pc := .gotTailAgain sc s.tail }
  | .gotTailAgain sc tail =>
    { s with tail := (tail+1)%kbRingSize, pc := .idle, popped := s.popped++[sc] }

def step (s : KbRing) : KbStep → KbRing
  | .isr sc => s.isr sc
  | .pop headFirst => s.pop headFirst

/-- The bytes that are queued and not read yet. -/
def unread (s : KbRing) : List Byte := s.queued.drop s.popped.length

/-- What the running pop knows. -/
def Knows (s : KbRing) : PopPc → Prop
  | .idle => True
  | .gotTail tail => tail = s.tail
  | .gotHead head => ∃ m, s.popped.length ≤ m ∧ m ≤ s.queued.length ∧ head = m%kbRingSize
  | .compared => s.popped.length < s.queued.length
  | .gotSlotIndex tail => tail = s.tail ∧ s.popped.length < s.queued.length
  | .gotByte sc => s.queued[s.popped.length]? = some sc
  | .gotTailAgain sc tail => tail = s.tail ∧ s.queued[s.popped.length]? = some sc

/-- The ring holds the bytes between those popped and those queued. -/
structure Sound (s : KbRing) : Prop where
  tail : s.tail = s.popped.length%kbRingSize
  head : s.head = s.queued.length%kbRingSize
  room : s.queued.length < s.popped.length+kbRingSize
  popped : s.popped <+: s.queued
  queued : s.queued.Sublist s.received
  slot : ∀ j (hj : j < s.queued.length), s.popped.length ≤ j → s.ring (j%kbRingSize) = s.queued[j]
  pc : s.Knows s.pc

variable {s : KbRing}

theorem init_sound : init.Sound := by
  refine ⟨rfl,rfl,by decide,List.prefix_refl _,List.Sublist.refl _,fun j hj => ?_,trivial⟩
  exact absurd hj (Nat.not_lt_zero j)

/-- Two counts at most 63 apart agree in the ring only if they are the same. -/
theorem Sound.same {m : Nat} (h : s.Sound) (hlo : s.popped.length ≤ m) (hhi : m ≤ s.queued.length)
    (he : s.tail = m%kbRingSize) : m = s.popped.length := by
  by_contra hne
  have hroom := h.room
  exact mod_ne_of_near (by omega) (by omega) (h.tail.symm.trans he)

theorem Sound.full_iff (h : s.Sound) : s.Full ↔ s.queued.length = s.popped.length+63 := by
  have hroom := h.room
  rw [Full,h.head,h.tail,Nat.mod_add_mod]
  simp only [kbRingSize] at hroom ⊢
  have hle := h.popped.length_le
  omega

/-- More bytes in the queue do not change what the pop knows. -/
theorem Knows.mono {s' : KbRing} {pc : PopPc} (h : s.Knows pc) (htail : s'.tail = s.tail)
    (hpopped : s'.popped = s.popped) (hqueued : s.queued <+: s'.queued) : s'.Knows pc := by
  have hlen := hqueued.length_le
  have hget : ∀ sc, s.queued[s.popped.length]? = some sc →
      s'.queued[s'.popped.length]? = some sc := by
    intro sc hsc
    obtain ⟨more,hmore⟩ := hqueued
    obtain ⟨hlt,-⟩ := List.getElem?_eq_some_iff.mp hsc
    rw [hpopped,← hmore,List.getElem?_append_left hlt]
    exact hsc
  cases pc with
  | idle => trivial
  | gotTail tail => exact Eq.trans h htail.symm
  | gotHead head =>
    obtain ⟨m,hlo,hhi,he⟩ := h
    exact ⟨m,by rw [hpopped]; exact hlo,by omega,he⟩
  | compared =>
    simp only [Knows] at h ⊢
    rw [hpopped]
    omega
  | gotSlotIndex tail =>
    simp only [Knows] at h ⊢
    rw [hpopped,htail]
    exact ⟨h.1,by omega⟩
  | gotByte sc => exact hget sc h
  | gotTailAgain sc tail => exact ⟨h.1.trans htail.symm,hget sc h.2⟩

theorem Sound.isr (h : s.Sound) (sc : Byte) : (s.isr sc).Sound := by
  have hreceived : s.queued.Sublist (s.received++[sc]) :=
    h.queued.trans (List.sublist_append_left _ _)
  rw [KbRing.isr]
  by_cases hfull : s.Full
  · rw [if_pos (show Full { s with received := s.received++[sc] } from hfull)]
    exact ⟨h.tail,h.head,h.room,h.popped,hreceived,h.slot,
      h.pc.mono rfl rfl (List.prefix_refl _)⟩
  · rw [if_neg (show ¬Full { s with received := s.received++[sc] } from hfull)]
    have hroom := h.room
    have hle := h.popped.length_le
    have hlt : s.queued.length ≠ s.popped.length+63 := fun he => hfull (h.full_iff.mpr he)
    have hlen : (s.queued++[sc]).length = s.queued.length+1 := by simp
    simp only [kbRingSize] at hroom
    refine ⟨h.tail,?_,?_,h.popped.trans (List.prefix_append _ _),h.queued.append_right [sc],?_,?_⟩
    · dsimp only
      rw [hlen,h.head,Nat.mod_add_mod]
    · dsimp only
      rw [hlen,kbRingSize]
      omega
    · intro j hj hlo
      dsimp only at hj hlo ⊢
      rw [hlen] at hj
      by_cases hlast : j = s.queued.length
      · subst hlast
        rw [← h.head,Function.update_self]
        simp
      · have hne : j%kbRingSize ≠ s.head := by
          rw [h.head]
          exact mod_ne_of_near (by omega) (by rw [kbRingSize]; omega)
        rw [Function.update_of_ne hne,h.slot j (by omega) hlo]
        exact (List.getElem_append_left (by omega)).symm
    · exact h.pc.mono rfl rfl (List.prefix_append _ _)

theorem Sound.pop (h : s.Sound) (headFirst : Bool) : (s.pop headFirst).Sound := by
  have hle := h.popped.length_le
  have hpc := h.pc
  -- all but the last step change the program counter only
  have hgo : ∀ pc, s.Knows pc → Sound { s with pc := pc } := fun pc hk =>
    ⟨h.tail,h.head,h.room,h.popped,h.queued,h.slot,hk.mono rfl rfl (List.prefix_refl _)⟩
  rw [KbRing.pop]
  cases hs : s.pc with
  | idle =>
    apply hgo
    cases headFirst with
    | true => exact ⟨s.queued.length,hle,le_refl _,h.head⟩
    | false => rfl
  | gotTail tail =>
    rw [hs] at hpc
    apply hgo
    split_ifs with he
    · trivial
    · by_contra hempty
      have hlen : s.queued.length = s.popped.length := by
        simp only [Knows] at hempty
        omega
      apply he
      rw [show tail = s.tail from hpc,h.tail,h.head,hlen]
  | gotHead head =>
    rw [hs] at hpc
    obtain ⟨m,hlo,hhi,hm⟩ := hpc
    apply hgo
    split_ifs with he
    · trivial
    · have hne : m ≠ s.popped.length := by
        intro hsame
        apply he
        rw [hm,hsame,h.tail]
      simp only [Knows]
      omega
  | compared =>
    rw [hs] at hpc
    exact hgo _ ⟨rfl,hpc⟩
  | gotSlotIndex tail =>
    rw [hs] at hpc
    obtain ⟨htail,hlt⟩ := hpc
    apply hgo
    change s.queued[s.popped.length]? = some (s.ring tail)
    rw [htail,h.tail,h.slot _ hlt (le_refl _)]
    exact List.getElem?_eq_getElem hlt
  | gotByte sc =>
    rw [hs] at hpc
    exact hgo _ ⟨rfl,hpc⟩
  | gotTailAgain sc tail =>
    rw [hs] at hpc
    obtain ⟨htail,hsc⟩ := hpc
    obtain ⟨hlt,-⟩ := List.getElem?_eq_some_iff.mp hsc
    have hroom := h.room
    have hlen : (s.popped++[sc]).length = s.popped.length+1 := by simp
    refine ⟨?_,h.head,?_,?_,h.queued,fun j hj hlo => h.slot j hj ?_,trivial⟩
    · dsimp only
      rw [htail,h.tail,hlen,Nat.mod_add_mod]
    · dsimp only
      omega
    · dsimp only
      obtain ⟨rest,hrest⟩ := h.popped
      rw [← hrest,List.getElem?_append_right (le_refl _),Nat.sub_self] at hsc
      cases rest with
      | nil => simp at hsc
      | cons a rest =>
        obtain rfl : a = sc := Option.some.inj hsc
        exact ⟨rest,by rw [List.append_assoc]; exact hrest⟩
    · dsimp only at hlo
      omega

theorem Sound.step (h : s.Sound) (a : KbStep) : (s.step a).Sound := by
  cases a with
  | isr sc => exact h.isr sc
  | pop headFirst => exact h.pop headFirst

/-- The states that a schedule goes through. -/
def states (acts : Nat → KbStep) : Nat → KbRing
  | 0 => init
  | n+1 => (states acts n).step (acts n)

variable {acts : Nat → KbStep} {n : Nat}

theorem states_sound (acts : Nat → KbStep) (n : Nat) : (states acts n).Sound := by
  induction n with
  | zero => exact init_sound
  | succ n ih => exact ih.step (acts n)

theorem step_queued (s : KbRing) (a : KbStep) : s.queued <+: (s.step a).queued := by
  cases a with
  | isr sc =>
    simp only [step,isr]
    split_ifs
    · exact List.prefix_refl _
    · exact List.prefix_append _ _
  | pop headFirst =>
    simp only [step,pop]
    split <;> exact List.prefix_refl _

theorem states_queued {m : Nat} (h : n ≤ m) :
    (states acts n).queued <+: (states acts m).queued := by
  induction h with
  | refl => exact List.prefix_refl _
  | step _ ih => exact ih.trans (step_queued _ _)

/-- How many steps of pops it may take until a byte is popped. -/
def popsLeft (s : KbRing) : Nat :=
  match s.pc with
  | .idle => 6
  | .gotTail _ => 5
  | .gotHead head => if s.tail = head then 7 else 5
  | .compared => 4
  | .gotSlotIndex _ => 3
  | .gotByte _ => 2
  | .gotTailAgain _ _ => 1

theorem isr_frame (s : KbRing) (sc : Byte) : (s.isr sc).popped = s.popped ∧
    (s.isr sc).popsLeft = s.popsLeft := by
  rw [isr]
  split_ifs
  · exact ⟨rfl,rfl⟩
  · exact ⟨rfl,rfl⟩

/-- A step of a pop, while bytes wait: one more is popped, or one is closer. -/
theorem Sound.pop_progress (h : s.Sound) (hwait : s.popped.length < s.queued.length)
    (headFirst : Bool) : (s.pop headFirst).popped.length = s.popped.length+1 ∨
      (s.pop headFirst).popped = s.popped ∧ (s.pop headFirst).popsLeft < s.popsLeft := by
  have hne : s.tail ≠ s.head := by
    intro he
    have := h.same (Nat.le_of_lt hwait) (le_refl _) (he.trans h.head)
    omega
  have hpc := h.pc
  have hleft (pc : PopPc) (hlt : popsLeft { s with pc := pc } < s.popsLeft)
      (hpop : s.pop headFirst = { s with pc := pc }) :
      (s.pop headFirst).popped = s.popped ∧ (s.pop headFirst).popsLeft < s.popsLeft := by
    rw [hpop]
    exact ⟨rfl,hlt⟩
  cases hs : s.pc with
  | idle =>
    right
    cases headFirst with
    | true => exact hleft (.gotHead s.head) (by simp [popsLeft,hs,hne]) (by simp [KbRing.pop,hs])
    | false => exact hleft (.gotTail s.tail) (by simp [popsLeft,hs]) (by simp [KbRing.pop,hs])
  | gotTail tail =>
    rw [hs] at hpc
    obtain rfl : tail = s.tail := hpc
    right
    exact hleft .compared (by simp [popsLeft,hs]) (by simp [KbRing.pop,hs,hne])
  | gotHead head =>
    right
    by_cases he : s.tail = head
    · exact hleft .idle (by simp [popsLeft,hs,he]) (by simp [KbRing.pop,hs,he])
    · exact hleft .compared (by simp [popsLeft,hs,he]) (by simp [KbRing.pop,hs,he])
  | compared =>
    exact Or.inr (hleft (.gotSlotIndex s.tail) (by simp [popsLeft,hs]) (by simp [KbRing.pop,hs]))
  | gotSlotIndex tail =>
    exact Or.inr (hleft (.gotByte (s.ring tail)) (by simp [popsLeft,hs])
      (by simp [KbRing.pop,hs]))
  | gotByte sc =>
    exact Or.inr (hleft (.gotTailAgain sc s.tail) (by simp [popsLeft,hs]) (by simp [KbRing.pop,hs]))
  | gotTailAgain sc tail =>
    left
    simp [KbRing.pop,hs]

/-- Pops go on. -/
def PopsContinue (acts : Nat → KbStep) : Prop :=
  ∀ n, ∃ m, n ≤ m ∧ ∃ headFirst, acts m = .pop headFirst

/-- A byte that waits for its pop is popped. -/
theorem next_popped (hfair : PopsContinue acts)
    (hwait : (states acts n).popped.length < (states acts n).queued.length) :
    ∃ m, n < m ∧ (states acts m).popped.length = (states acts n).popped.length+1 := by
  generalize hp : (states acts n).popped.length = p at hwait ⊢
  have hstep : ∀ k, (states acts k).popped.length = p ∧ p < (states acts k).queued.length →
      (states acts (k+1)).popped.length = p+1 ∨
      ((states acts (k+1)).popped.length = p ∧ p < (states acts (k+1)).queued.length) ∧
      (states acts (k+1)).popsLeft ≤ (states acts k).popsLeft ∧
      ((∃ headFirst, acts k = .pop headFirst) →
        (states acts (k+1)).popsLeft < (states acts k).popsLeft) := by
    intro k hk
    have hmore := (step_queued (states acts k) (acts k)).length_le
    rw [states]
    cases ha : acts k with
    | isr sc =>
      rw [ha] at hmore
      obtain ⟨hpopped,hleft⟩ := isr_frame (states acts k) sc
      right
      rw [step] at hmore ⊢
      rw [hpopped,hleft]
      refine ⟨⟨hk.1,by omega⟩,le_refl _,fun hpop => ?_⟩
      obtain ⟨_,hpop⟩ := hpop
      simp at hpop
    | pop headFirst =>
      rw [ha] at hmore
      rw [step] at hmore ⊢
      rcases (states_sound acts k).pop_progress (hk.1.trans_lt hk.2) headFirst with hg | ⟨hsame,hlt⟩
      · left
        omega
      · right
        rw [hsame]
        exact ⟨⟨hk.1,by omega⟩,Nat.le_of_lt hlt,fun _ => hlt⟩
  let pending : Nat → Prop := fun k =>
    (states acts k).popped.length = p ∧ p < (states acts k).queued.length
  let helpful : Nat → Prop := fun k => ∃ headFirst, acts k = .pop headFirst
  let rank : Nat → Nat := fun k => (states acts k).popsLeft
  apply @reached_of_rank pending _ helpful rank n hfair
  · intro k hk
    rcases hstep k hk with hg | ⟨hp',hle,-⟩
    · exact Or.inl hg
    · exact Or.inr ⟨hp',hle⟩
  · intro k hk hpop
    rcases hstep k hk with hg | ⟨-,-,hlt⟩
    · exact Or.inl hg
    · exact Or.inr (hlt hpop)
  · exact ⟨hp,hwait⟩

theorem popped_all (hfair : PopsContinue acts) (n p : Nat)
    (hp : p ≤ (states acts n).queued.length) :
    ∃ m, n ≤ m ∧ p ≤ (states acts m).popped.length := by
  induction p with
  | zero => exact ⟨n,le_refl _,Nat.zero_le _⟩
  | succ p ih =>
    obtain ⟨m,hnm,hm⟩ := ih (by omega)
    by_cases hmore : p+1 ≤ (states acts m).popped.length
    · exact ⟨m,hnm,hmore⟩
    · have hqueued := (@states_queued acts n m hnm).length_le
      obtain ⟨k,hk,hlen⟩ := next_popped (n := m) hfair (by omega)
      exact ⟨k,by omega,by omega⟩

/-- A byte that comes in is queued, unless 63 bytes wait. -/
theorem Sound.isr_queued (h : s.Sound) (sc : Byte) : (s.isr sc).queued = s.queued++[sc] ∨
    (s.isr sc).queued = s.queued ∧ s.unread.length = 63 := by
  rw [KbRing.isr]
  by_cases hfull : s.Full
  · right
    rw [if_pos (show Full { s with received := s.received++[sc] } from hfull)]
    have hlen := h.full_iff.mp hfull
    refine ⟨rfl,?_⟩
    rw [unread,List.length_drop]
    omega
  · left
    rw [if_neg (show ¬Full { s with received := s.received++[sc] } from hfull)]

/-- Interrupts at any point of a pop lose no byte but those that find 63 bytes waiting, and pops
return the others in order. -/
theorem scancodes_in_order (acts : Nat → KbStep) :
    (∀ n, (states acts n).popped <+: (states acts n).queued ∧
      (states acts n).queued.Sublist (states acts n).received) ∧
    (∀ n sc, acts n = .isr sc →
      (states acts (n+1)).received = (states acts n).received++[sc] ∧
      ((states acts (n+1)).queued = (states acts n).queued++[sc] ∨
        (states acts (n+1)).queued = (states acts n).queued ∧
        (states acts n).unread.length = 63)) ∧
    (PopsContinue acts → ∀ n i, i < (states acts n).queued.length →
      ∃ m, (states acts m).popped[i]? = (states acts n).queued[i]?) := by
  refine ⟨fun n => ⟨(states_sound acts n).popped,(states_sound acts n).queued⟩,?_,?_⟩
  · intro n sc ha
    have hnext : states acts (n+1) = (states acts n).isr sc := by
      rw [states,ha,step]
    rw [hnext]
    refine ⟨?_,(states_sound acts n).isr_queued sc⟩
    rw [isr]
    split_ifs <;> rfl
  · intro hfair n i hi
    obtain ⟨m,hnm,hm⟩ := popped_all hfair n (i+1) hi
    refine ⟨m,?_⟩
    rw [List.getElem?_eq_getElem hm,List.getElem?_eq_getElem hi,
      (states_sound acts m).popped.getElem hm,(states_queued hnm).getElem hi]

/-- One interrupt, then pops for ever: its byte is popped. -/
theorem scancodes_in_order_sample :
    ∃ m, (states (fun n => if n = 0 then .isr 0x1C#8 else .pop false) m).popped[0]? =
      some 0x1C#8 := by
  have hfair : PopsContinue (fun n => if n = 0 then .isr 0x1C#8 else .pop false) :=
    fun n => ⟨n+1,Nat.le_succ n,false,rfl⟩
  exact (scancodes_in_order _).2.2 hfair 1 0 (by decide)

end KbRing

end KiNBOL
