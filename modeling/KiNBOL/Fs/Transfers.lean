import KiNBOL.Fs.Reads
import KiNBOL.Fs.Kept
import KiNBOL.Fs.Layout

namespace KiNBOL

/-! Operations whose sector transfers may fail. -/

namespace Volume

/-- The `n`-th of the coming transfers succeeds. -/
def Passes (v : Volume) (n : Nat) : Prop := v.io[n]? ≠ some false

instance (v : Volume) (n : Nat) : Decidable (v.Passes n) := inferInstanceAs (Decidable (_ ≠ _))

/-- The state once `n` transfers are over that changed nothing. -/
def used (v : Volume) (n : Nat) : Volume := { v with io := v.io.drop n }

variable {v w : Volume} {c : Nat}

@[simp] theorem used_disk (v : Volume) (n : Nat) : (v.used n).disk = v.disk := rfl

@[simp] theorem used_fatAt (v : Volume) (n c : Nat) : fatAt (v.used n) c = fatAt v c := rfl

theorem used_zero (v : Volume) : v.used 0 = v := rfl

theorem used_used (v : Volume) (n m : Nat) : (v.used n).used m = v.used (n+m) := by
  simp only [used,List.drop_drop]

theorem used_passes (v : Volume) (n m : Nat) : (v.used n).Passes m ↔ v.Passes (n+m) := by
  simp only [Passes,used,List.getElem?_drop]

theorem readSector_eq (v : Volume) (lba : Nat) :
    v.readSector lba = (if v.Passes 0 then some (v.disk lba) else none,v.used 1) := by
  cases hio : v.io with
  | nil =>
    have hused : v.used 1 = v := by
      rw [used,hio]
      exact congrArg (fun io => { v with io := io }) hio.symm
    simp [readSector,hio,Passes,hused]
  | cons b io => cases b <;> simp [readSector,hio,Passes,used]

theorem writeSector_eq (v : Volume) (lba : Nat) (s : Sector) : v.writeSector lba s =
    if v.Passes 0 then (true,(v.used 1).setSector lba s) else (false,v.used 1) := by
  cases hio : v.io with
  | nil => simp [writeSector,hio,Passes,used,setSector]
  | cons b io => cases b <;> simp [writeSector,hio,Passes,used]

def withDisk (v : Volume) (d : Disk) : Volume := { v with disk := d }

/-- `s` written to `g 0`, `g 1`, ...: the transfers that succeed count. -/
def writes (v : Volume) (g : Nat → Nat) (s : Sector) (n : Nat) : Volume :=
  (v.used n).withDisk (fun a => if ∃ f < n, g f = a ∧ v.Passes f then s else v.disk a)

theorem fatGetEntry_eq (v : Volume) (c : Nat) :
    v.fatGetEntry c = (if v.Passes 0 then fatAt v c else 0x0FFFFFFF,v.used 1) := by
  rw [fatGetEntry,readSector_eq]
  by_cases h : v.Passes 0
  · rw [if_pos h,if_pos h]
    rfl
  · rw [if_neg h,if_neg h]

theorem writes_eq (g : Nat → Nat) (s : Sector) (n : Nat) (v : Volume) :
    (List.range n).foldl (fun w f => (w.writeSector (g f) s).2) v = v.writes g s n := by
  induction n with
  | zero => simp [writes,used,withDisk]
  | succ n ih =>
    rw [List.range_succ,List.foldl_append,ih,List.foldl_cons,List.foldl_nil,writeSector_eq]
    have hpass : (v.writes g s n).Passes 0 ↔ v.Passes n := used_passes v n 0
    have hsplit : ∀ a, (∃ f < n+1, g f = a ∧ v.Passes f) ↔
        (∃ f < n, g f = a ∧ v.Passes f) ∨ g n = a ∧ v.Passes n := by
      intro a
      constructor
      · intro h
        obtain ⟨f,hf,h⟩ := h
        cases Nat.lt_succ_iff_lt_or_eq.mp hf with
        | inl hlt => exact Or.inl ⟨f,hlt,h⟩
        | inr he => exact Or.inr (he ▸ h)
      · intro h
        cases h with
        | inl h =>
          obtain ⟨f,hf,h⟩ := h
          exact ⟨f,by omega,h⟩
        | inr h => exact ⟨n,by omega,h⟩
    have hrest : (v.writes g s n).used 1 = (v.used (n+1)).withDisk (v.writes g s n).disk := by
      simp only [writes,used,withDisk,List.drop_drop]
    by_cases h : v.Passes n
    · rw [if_pos (hpass.mpr h),hrest]
      apply congrArg (v.used (n+1)).withDisk
      funext a
      by_cases ha : a = g n
      · rw [if_pos ha,if_pos ((hsplit a).mpr (Or.inr ⟨ha.symm,h⟩))]
      · rw [if_neg ha]
        apply if_congr _ rfl rfl
        rw [hsplit a]
        simp [Ne.symm ha]
    · rw [if_neg (fun hh => h (hpass.mp hh)),hrest]
      apply congrArg (v.used (n+1)).withDisk
      funext a
      apply if_congr _ rfl rfl
      rw [hsplit a]
      simp [h]

/-- One of the copies that `fat_set_entry` writes is written to a sector: the one read first, then
copy after copy. -/
def CopyWritten (v : Volume) (c a : Nat) : Prop :=
  v.Passes 0 ∧ ∃ f < v.numFats, u32 (v.fatSector c+f*v.fatSize32) = a ∧ v.Passes (1+f)

/-- `fat_set_entry` with failing transfers. -/
theorem fatSetEntry_eq (v : Volume) (c x : Nat) :
    (∃ n, v.fatSetEntry c x = (v.used n).withDisk (v.fatSetEntry c x).disk) ∧
    ∀ a, (v.CopyWritten c a → (v.fatSetEntry c x).disk a =
        put32 (v.disk (v.fatSector c)) (fatOffset c)
          (get32 (v.disk (v.fatSector c)) (fatOffset c)/2^28*2^28+x%2^28)) ∧
      (¬v.CopyWritten c a → (v.fatSetEntry c x).disk a = v.disk a) := by
  unfold fatSetEntry CopyWritten
  rw [readSector_eq]
  by_cases h : v.Passes 0
  · rw [if_pos h]
    dsimp only
    rw [writes_eq]
    refine ⟨⟨1+v.numFats,?_⟩,fun a => ?_⟩
    · rw [← used_used]
      rfl
    · have hiff : (∃ f < (v.used 1).numFats,
          u32 ((v.used 1).fatSector c+f*(v.used 1).fatSize32) = a ∧ (v.used 1).Passes f) ↔
          v.Passes 0 ∧ ∃ f < v.numFats, u32 (v.fatSector c+f*v.fatSize32) = a ∧ v.Passes (1+f) := by
        simp only [used_passes]
        exact ⟨fun hh => ⟨h,hh⟩,fun hh => hh.2⟩
      exact ⟨fun hh => if_pos (hiff.mpr hh),fun hh => if_neg (fun hx => hh (hiff.mp hx))⟩
  · rw [if_neg h]
    exact ⟨⟨1,rfl⟩,fun a => ⟨fun hh => absurd hh.1 h,fun _ => rfl⟩⟩

theorem fsinfoSave_fields (v : Volume) :
    (v.fsinfoSave.fsinfoValid = true → v.fsinfoValid = true) ∧
    v.fsinfoSave.fsinfoLba = v.fsinfoLba ∧ v.fsinfoSave.nextFreeHint = v.nextFreeHint := by
  unfold fsinfoSave
  split
  · exact ⟨id,rfl,rfl⟩
  · rw [readSector_eq]
    split
    next w hw =>
      rw [← (Prod.mk.inj hw).2]
      exact ⟨id,rfl,rfl⟩
    next sec w hw =>
      obtain ⟨-,rfl⟩ := Prod.mk.inj hw
      split
      · rw [writeSector_eq]
        split <;> exact ⟨id,rfl,rfl⟩
      · exact ⟨fun hf => by simp at hf,rfl,rfl⟩

/-- `fsinfo_save` writes its sector at most. -/
theorem fsinfoSave_disk (v : Volume) {a : Nat} (ha : ¬(v.fsinfoValid = true ∧ a = v.fsinfoLba)) :
    v.fsinfoSave.disk a = v.disk a := by
  unfold fsinfoSave
  split
  · rfl
  · next hvalid =>
    rw [readSector_eq]
    split
    next w hw =>
      rw [Prod.mk.injEq] at hw
      rw [← hw.2]
      rfl
    next sec w hw =>
      rw [Prod.mk.injEq] at hw
      obtain ⟨-,rfl⟩ := hw
      split
      · rw [writeSector_eq]
        split
        · exact if_neg (fun he => ha ⟨by simpa using hvalid,he⟩)
        · rfl
      · rfl

end Volume

end KiNBOL
