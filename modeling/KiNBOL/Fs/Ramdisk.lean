import Mathlib.Data.Fintype.Card
import Mathlib.Data.Finset.Card
import KiNBOL.Framework.EveryStep
import KiNBOL.Fs.Name

namespace KiNBOL

def maxRamfiles : Nat := 64

/-- `ramfile_t`. The empty name marks a free slot, and `data` is `none` where it is NULL. -/
structure RamFile where
  name : CName
  data : Option (List Byte)
  size : Nat

/-- A C string that fits into `name`. -/
structure RamName where
  str : CName
  fits : str.length < 64
  noNul : 0#8 ∉ str

/-- Contents whose length is a `uint32_t`. -/
structure RamContent where
  bytes : List Byte
  fits : bytes.length < 2^32

/-- `ramfiles` and `ramfile_count`. -/
structure Ramdisk where
  files : Fin maxRamfiles → RamFile
  count : Int

namespace Ramdisk

/-- `ramdisk_init`. -/
def init : Ramdisk := ⟨fun _ => ⟨[],none,0⟩,0⟩

/-- `ramdisk_find`; `none` is -1. -/
def find (r : Ramdisk) (name : CName) : Option (Fin maxRamfiles) :=
  (List.finRange maxRamfiles).find? (fun i => (r.files i).name ≠ [] && (r.files i).name = name)

/-- The loop of `ramdisk_create` that looks for a free slot. -/
def free (r : Ramdisk) : Option (Fin maxRamfiles) :=
  (List.finRange maxRamfiles).find? (fun i => (r.files i).name = [])

def setFile (r : Ramdisk) (i : Fin maxRamfiles) (f : RamFile) : Ramdisk :=
  { r with files := Function.update r.files i f }

/-- The outcome of `kmalloc(size + 1)`: the size is computed in 32 bits, and a `kmalloc` of nothing
gives NULL. -/
def allocates (k : Bool) (data : RamContent) : Bool := k && (data.bytes.length+1)%2^32 ≠ 0

/-- `ramdisk_create` once the slot has its name. -/
def fill (r : Ramdisk) (i : Fin maxRamfiles) (k : Bool) (data : RamContent) : Int × Ramdisk :=
  if !allocates k data then (-1,r.setFile i ⟨[],none,(r.files i).size⟩)
  else (0,r.setFile i ⟨(r.files i).name,some (data.bytes++[0#8]),data.bytes.length⟩)

/-- `ramdisk_create`, where `k` tells whether `kmalloc` has memory. -/
def create (r : Ramdisk) (name : RamName) (data : RamContent) (k : Bool) : Int × Ramdisk :=
  match r.find name.str with
  | some i => r.fill i k data
  | none =>
    match r.free with
    | none => (-1,r)
    | some i =>
      let r := r.setFile i { r.files i with name := name.str }
      { r with count := r.count+1 }.fill i k data

def delete (r : Ramdisk) (name : RamName) : Int × Ramdisk :=
  match r.find name.str with
  | none => (-1,r)
  | some i => (0,{ r.setFile i ⟨[],none,0⟩ with count := r.count-1 })

/-- The slots in use. -/
def used (r : Ramdisk) : Finset (Fin maxRamfiles) :=
  Finset.univ.filter (fun i => (r.files i).name ≠ [])

/-- The counter is right, and no name is there twice. -/
structure Consistent (r : Ramdisk) : Prop where
  count : r.count = r.used.card
  distinct : ∀ i j, (r.files i).name ≠ [] → (r.files i).name = (r.files j).name → i = j

/-- Every file has its name and its content, and the counter its value. -/
structure Unchanged (r r' : Ramdisk) : Prop where
  count : r'.count = r.count
  name : ∀ i, (r'.files i).name = (r.files i).name
  content : ∀ i, (r.files i).name ≠ [] →
    (r'.files i).data = (r.files i).data ∧ (r'.files i).size = (r.files i).size

end Ramdisk

/-- A call, with the outcome of the `kmalloc` it may make. -/
inductive RamCall where
  | create (name : RamName) (data : RamContent) (k : Bool)
  | delete (name : RamName)

namespace RamCall

def result (r : Ramdisk) : RamCall → Int × Ramdisk
  | .create name data k => r.create name data k
  | .delete name => r.delete name

def run (r : Ramdisk) (c : RamCall) : Ramdisk := (c.result r).2

/-- What a call promises. -/
structure Sound (r : Ramdisk) (c : RamCall) : Prop where
  consistent : (c.run r).Consistent
  created : ∀ name data k, c = .create name data k → (c.result r).1 = 0 →
    ∃ i, (c.run r).find name.str = some i ∧
      ((c.run r).files i).data = some (data.bytes++[0#8]) ∧
      ((c.run r).files i).size = data.bytes.length
  failed : (c.result r).1 = -1 → r.Unchanged (c.run r)

/-- A file that is created, and for which there is a slot, has a name and gets memory. -/
def Provided (r : Ramdisk) : RamCall → Prop
  | .create name data k => r.find name.str ≠ none ∨ r.free ≠ none →
    name.str ≠ [] ∧ Ramdisk.allocates k data = true
  | .delete _ => True

end RamCall

namespace Ramdisk

variable {r : Ramdisk} {i : Fin maxRamfiles} {name : CName}

theorem init_consistent : init.Consistent := by
  refine ⟨?_,fun i j h => absurd rfl h⟩
  simp [init,used]

theorem mem_used : i ∈ r.used ↔ (r.files i).name ≠ [] := by
  simp [used]

theorem find_some (h : r.find name = some i) : (r.files i).name = name ∧ name ≠ [] := by
  have hi := List.find?_some h
  simp only [Bool.and_eq_true,decide_eq_true_eq] at hi
  exact ⟨hi.2,hi.2 ▸ hi.1⟩

theorem find_none (h : r.find name = none) : name = [] ∨ ∀ i, (r.files i).name ≠ name := by
  by_cases hn : name = []
  · exact Or.inl hn
  · right
    intro i hi
    have hno := List.find?_eq_none.mp h i (List.mem_finRange i)
    simp only [Bool.and_eq_true,decide_eq_true_eq] at hno
    exact hno ⟨hi ▸ hn,hi⟩

/-- A name is found where it is. -/
theorem Consistent.find (h : r.Consistent) (hi : (r.files i).name = name) (hn : name ≠ []) :
    r.find name = some i := by
  cases hf : r.find name with
  | none =>
    rcases find_none hf with he | hno
    · exact absurd he hn
    · exact absurd hi (hno i)
  | some j =>
    obtain ⟨hj,-⟩ := find_some hf
    exact congrArg some (h.distinct j i (hj ▸ hn) (hj.trans hi.symm))

theorem free_some (h : r.free = some i) : (r.files i).name = [] := by
  simpa using List.find?_some h

/-- A slot gets a name that no other slot has, or none, and the counter follows. -/
theorem Consistent.setName (h : r.Consistent) (f : RamFile) (n : Int)
    (hn : n = (if f.name = [] then r.used.erase i else insert i r.used).card)
    (hnew : ∀ j, j ≠ i → f.name ≠ [] → (r.files j).name ≠ f.name) :
    Consistent { r.setFile i f with count := n } := by
  have hused : used { r.setFile i f with count := n } =
      if f.name = [] then r.used.erase i else insert i r.used := by
    ext j
    rw [mem_used]
    by_cases hj : j = i
    · subst hj
      simp only [setFile,Function.update_self]
      split_ifs with he
      · simp [he]
      · simp [he]
    · simp only [setFile,Function.update_of_ne hj]
      split_ifs
      · rw [Finset.mem_erase,mem_used]
        simp [hj]
      · rw [Finset.mem_insert,mem_used]
        simp [hj]
  refine ⟨by rw [hused]; exact hn,fun j k hne he => ?_⟩
  simp only [setFile] at hne he
  by_cases hj : j = i
  · by_cases hk : k = i
    · rw [hj,hk]
    · rw [hj,Function.update_self] at hne
      rw [hj,Function.update_self,Function.update_of_ne hk] at he
      exact absurd he.symm (hnew k hk hne)
  · rw [Function.update_of_ne hj] at hne he
    by_cases hk : k = i
    · rw [hk,Function.update_self] at he
      exact absurd he (hnew j hj (he ▸ hne))
    · rw [Function.update_of_ne hk] at he
      exact h.distinct j k hne he

theorem Unchanged.refl (r : Ramdisk) : r.Unchanged r := ⟨rfl,fun _ => rfl,fun _ _ => ⟨rfl,rfl⟩⟩

variable {k : Bool} {data : RamContent}

theorem fill_ok (r : Ramdisk) (i : Fin maxRamfiles) (h : allocates k data = true) :
    r.fill i k data =
      (0,r.setFile i ⟨(r.files i).name,some (data.bytes++[0#8]),data.bytes.length⟩) := by
  rw [fill,h]
  rfl

theorem fill_fail (r : Ramdisk) (i : Fin maxRamfiles) (h : allocates k data = false) :
    r.fill i k data = (-1,r.setFile i ⟨[],none,(r.files i).size⟩) := by
  rw [fill,h]
  rfl

theorem setFile_setFile (r : Ramdisk) (i : Fin maxRamfiles) (f g : RamFile) (n : Int) :
    setFile { r.setFile i f with count := n } i g = { r.setFile i g with count := n } := by
  simp only [setFile,Function.update_idem]

end Ramdisk

namespace RamCall

open Ramdisk

variable {r : Ramdisk} {i : Fin maxRamfiles} {name : RamName} {data : RamContent} {k : Bool}

/-- Overwriting a file. -/
theorem sound_overwrite (h : r.Consistent) (hf : r.find name.str = some i) :
    (create name data k).Sound r ↔ allocates k data = true := by
  obtain ⟨hi,hn⟩ := find_some hf
  have hresult : (create name data k).result r = r.fill i k data := by
    simp only [result,Ramdisk.create,hf]
  constructor
  · intro hs
    by_contra hno
    rw [Bool.not_eq_true] at hno
    have hun := hs.failed
    rw [run,hresult,fill_fail r i hno] at hun
    have hname := (hun rfl).name i
    simp only [setFile,Function.update_self] at hname
    exact hn (hi.symm.trans hname.symm)
  · intro ha
    rw [fill_ok r i ha,hi] at hresult
    have hrun : ((create name data k).run r).Consistent := by
      rw [run,hresult]
      apply h.setName ⟨name.str,some (data.bytes++[0#8]),data.bytes.length⟩ r.count
      · rw [if_neg hn,Finset.insert_eq_of_mem (mem_used.mpr (hi ▸ hn)),h.count]
      · intro j hj _ he
        exact hj (h.distinct j i (he ▸ hn) (he.trans hi.symm))
    refine ⟨hrun,fun name' data' k' he _ => ?_,fun hbad => ?_⟩
    · obtain ⟨rfl,rfl,rfl⟩ := RamCall.create.inj he
      refine ⟨i,hrun.find ?_ hn,?_,?_⟩ <;>
        simp only [run,hresult,setFile,Function.update_self]
    · rw [hresult] at hbad
      simp at hbad

/-- Creating a file in a free slot. -/
theorem sound_fresh (h : r.Consistent) (hf : r.find name.str = none) (hfree : r.free = some i) :
    (create name data k).Sound r ↔ name.str ≠ [] ∧ allocates k data = true := by
  have hi := free_some hfree
  have hresult : (create name data k).result r = Ramdisk.fill
      { r.setFile i { r.files i with name := name.str } with count := r.count+1 } i k data := by
    simp only [result,Ramdisk.create,hf,hfree]
    rfl
  cases ha : allocates k data with
  | false =>
    refine iff_of_false (fun hs => ?_) (by simp)
    have hun := hs.failed
    rw [run,hresult,fill_fail _ i ha,setFile_setFile] at hun
    have hcount := (hun rfl).count
    dsimp only at hcount
    omega
  | true =>
    rw [fill_ok _ i ha,setFile_setFile] at hresult
    simp only [setFile,Function.update_self] at hresult
    rw [and_iff_left rfl]
    constructor
    · intro hs
      obtain ⟨j,hj,-⟩ := hs.created name data k rfl (by rw [hresult])
      exact (find_some hj).2
    · intro hn
      have hnew : ∀ j, (r.files j).name ≠ name.str := (find_none hf).resolve_left hn
      have hrun : ((create name data k).run r).Consistent := by
        rw [run,hresult]
        apply h.setName ⟨name.str,some (data.bytes++[0#8]),data.bytes.length⟩ (r.count+1)
        · have hout : i ∉ r.used := fun hin => mem_used.mp hin hi
          rw [if_neg hn,Finset.card_insert_of_notMem hout,h.count]
          push_cast
          rfl
        · exact fun j _ _ => hnew j
      refine ⟨hrun,fun name' data' k' he _ => ?_,fun hbad => ?_⟩
      · obtain ⟨rfl,rfl,rfl⟩ := RamCall.create.inj he
        refine ⟨i,hrun.find ?_ hn,?_,?_⟩ <;> simp only [run,hresult,Function.update_self]
      · rw [hresult] at hbad
        simp at hbad

/-- A call that is refused. -/
theorem sound_refused (h : r.Consistent) {c : RamCall} (hc : c.result r = (-1,r)) : c.Sound r := by
  have hrun : c.run r = r := by rw [run,hc]
  refine ⟨by rw [hrun]; exact h,fun _ _ _ _ hz => ?_,fun _ => by rw [hrun]; exact Unchanged.refl r⟩
  rw [hc] at hz
  simp at hz

theorem sound_delete (h : r.Consistent) (name : RamName) : (delete name).Sound r := by
  cases hf : r.find name.str with
  | none => exact sound_refused h (by simp only [result,Ramdisk.delete,hf])
  | some i =>
    obtain ⟨hi,hn⟩ := find_some hf
    have hresult : (delete name).result r =
        (0,{ r.setFile i ⟨[],none,0⟩ with count := r.count-1 }) := by
      simp only [result,Ramdisk.delete,hf]
    have hin : i ∈ r.used := mem_used.mpr (hi ▸ hn)
    have hpos := Finset.card_pos.mpr ⟨i,hin⟩
    refine ⟨?_,fun _ _ _ he => by simp at he,fun hbad => ?_⟩
    · rw [run,hresult]
      apply h.setName ⟨[],none,0⟩ (r.count-1)
      · rw [if_pos rfl,Finset.card_erase_of_mem hin,h.count]
        omega
      · exact fun _ _ hne => absurd rfl hne
    · rw [hresult] at hbad
      simp at hbad

/-- A call keeps its promises exactly if what it creates has a name and gets memory. -/
theorem sound_iff (h : r.Consistent) (c : RamCall) : c.Sound r ↔ c.Provided r := by
  cases c with
  | delete name => exact iff_of_true (sound_delete h name) trivial
  | create name data k =>
    rw [Provided]
    cases hf : r.find name.str with
    | some i =>
      rw [sound_overwrite h hf]
      simp [(find_some hf).2]
    | none =>
      cases hfree : r.free with
      | none =>
        refine iff_of_true (sound_refused h ?_) (by simp)
        simp only [result,Ramdisk.create,hf,hfree]
      | some i =>
        rw [sound_fresh h hf hfree]
        simp

end RamCall

/-- In a run every call keeps its promises exactly if every file that is created has a name and
gets memory. -/
theorem ramdisk_consistent_iff (calls : List RamCall) :
    (Ramdisk.init.Consistent ∧
      EveryStep RamCall.run (fun r c => c.Sound r) Ramdisk.init calls) ↔
      EveryStep RamCall.run (fun r c => c.Provided r) Ramdisk.init calls := by
  rw [and_iff_right Ramdisk.init_consistent]
  apply everyStep_congr Ramdisk.Consistent
  · exact fun _ c h => RamCall.sound_iff h c
  · exact fun _ c h hc => ((RamCall.sound_iff h c).mpr hc).consistent
  · exact Ramdisk.init_consistent

/-- Without memory the first file is counted all the same. -/
theorem ramdisk_miscounts :
    ¬∀ calls, EveryStep RamCall.run (fun r c => c.Sound r) Ramdisk.init calls := by
  intro hall
  obtain ⟨hs,-⟩ := hall [.create ⟨[ch 'a'],by decide,by decide⟩ ⟨[],by decide⟩ false]
  have hcount := (hs.failed (by decide)).count
  exact absurd hcount (by decide)

end KiNBOL
