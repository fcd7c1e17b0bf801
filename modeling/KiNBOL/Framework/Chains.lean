import Mathlib.Data.List.Nodup
import Mathlib.Data.List.Infix

namespace KiNBOL

/-! Chains in a table of successors: `c`, `next c`, … up to the first node at which they end. -/

variable {ν : Type*} {next next' : ν → ν} {ok fin ok' fin' : ν → Prop}

/-- The nodes from `c` on; each is `ok`, and after the last one `fin` holds. -/
def Chained (next : ν → ν) (ok fin : ν → Prop) : ν → List ν → Prop
  | c,[] => fin c
  | c,x::xs => c = x ∧ ok x ∧ Chained next ok fin (next x) xs

theorem Chained.all_ok {c : ν} {cs : List ν} (h : Chained next ok fin c cs) : ∀ x ∈ cs, ok x := by
  induction cs generalizing c with
  | nil => simp
  | cons y cs ih =>
    obtain ⟨-,hy,hcs⟩ := h
    intro x hx
    rcases List.mem_cons.mp hx with rfl | hx
    · exact hy
    · exact ih hcs x hx

theorem Chained.mono {c : ν} {cs : List ν} (h : Chained next ok fin c cs)
    (hok : ∀ x ∈ cs, ok x → ok' x) (hfin : ∀ x, fin x → fin' x) :
    Chained next ok' fin' c cs := by
  induction cs generalizing c with
  | nil => exact hfin _ h
  | cons y cs ih =>
    obtain ⟨rfl,hy,hcs⟩ := h
    exact ⟨rfl,hok _ (by simp) hy,ih hcs (fun x hx => hok x (by simp [hx]))⟩

/-- Only the entries of its own nodes matter to a chain. -/
theorem Chained.congr {c : ν} {cs : List ν} (h : Chained next ok fin c cs)
    (hsame : ∀ x ∈ cs, next' x = next x) : Chained next' ok fin c cs := by
  induction cs generalizing c with
  | nil => exact h
  | cons y cs ih =>
    obtain ⟨rfl,hy,hcs⟩ := h
    refine ⟨rfl,hy,?_⟩
    rw [hsame _ (by simp)]
    exact ih hcs (fun x hx => hsame x (by simp [hx]))

theorem Chained.head {c : ν} {cs : List ν} (h : Chained next ok fin c cs) (hc : ¬fin c) :
    ∃ xs, cs = c::xs := by
  cases cs with
  | nil => exact absurd h hc
  | cons x xs => exact ⟨xs,by rw [h.1]⟩

/-- Two chains that go on with each other. -/
theorem chained_append {c d : ν} {cs ds : List ν} :
    Chained next ok fin c (cs++d::ds) ↔
      Chained next ok (fun x => x = d) c cs ∧ Chained next ok fin d (d::ds) := by
  induction cs generalizing c with
  | nil =>
    constructor
    · rintro ⟨rfl,hd,hds⟩
      exact ⟨rfl,rfl,hd,hds⟩
    · rintro ⟨rfl,-,hd,hds⟩
      exact ⟨rfl,hd,hds⟩
  | cons x cs ih =>
    simp only [List.cons_append,Chained,ih]
    tauto

/-- The last node is followed by an end. -/
theorem Chained.last {c l : ν} {cs : List ν} (h : Chained next ok fin c (cs++[l])) :
    fin (next l) := ((chained_append.mp h).2).2.2

section

variable (hdis : ∀ x, ok x → ¬fin x)

include hdis

theorem Chained.unique {c : ν} {cs ds : List ν} (h : Chained next ok fin c cs)
    (h' : Chained next ok fin c ds) : cs = ds := by
  induction cs generalizing c ds with
  | nil =>
    cases ds with
    | nil => rfl
    | cons y ds =>
      obtain ⟨rfl,hy,-⟩ := h'
      exact absurd h (hdis _ hy)
  | cons x cs ih =>
    obtain ⟨rfl,hx,hcs⟩ := h
    cases ds with
    | nil => exact absurd h' (hdis _ hx)
    | cons y ds =>
      obtain ⟨rfl,-,hds⟩ := h'
      rw [ih hcs hds]

/-- A chain that ends visits no node twice. -/
theorem Chained.nodup {c : ν} {cs : List ν} (h : Chained next ok fin c cs) : cs.Nodup := by
  induction cs generalizing c with
  | nil => exact List.nodup_nil
  | cons x cs ih =>
    obtain ⟨rfl,hx,hcs⟩ := h
    refine List.nodup_cons.mpr ⟨fun hmem => ?_,ih hcs⟩
    obtain ⟨as,bs,rfl⟩ := List.append_of_mem hmem
    have h1 : Chained next ok fin c (c::bs) := (chained_append.mp hcs).2
    have h2 : Chained next ok fin c (c::(as++c::bs)) := ⟨rfl,hx,hcs⟩
    have hlen := congrArg List.length (h1.unique hdis h2)
    simp only [List.length_cons,List.length_append] at hlen
    omega

end

/-- Linking a node behind the last one. -/
theorem Chained.snoc {c l n : ν} {cs : List ν} (h : Chained next ok fin c (cs++[l]))
    (hsame : ∀ x ∈ cs, next' x = next x) (hl : next' l = n) (hn : ok n) (hend : fin (next' n)) :
    Chained next' ok fin c (cs++[l]++[n]) := by
  obtain ⟨h1,-,hok,-⟩ := chained_append.mp h
  rw [List.append_assoc,List.singleton_append]
  refine chained_append.mpr ⟨h1.congr hsame,rfl,hok,?_⟩
  rw [hl]
  exact ⟨rfl,hn,hend⟩

end KiNBOL
