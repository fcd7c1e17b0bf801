import KiNBOL.Framework.ByteImage
import KiNBOL.Fs.Name
import KiNBOL.Loader.ElfConfined

namespace KiNBOL

/-- `default_envp`. -/
def defaultEnvp : List CName :=
  [[ch 'P',ch 'A',ch 'T',ch 'H',ch '=',ch '/'],
    [ch 'H',ch 'O',ch 'M',ch 'E',ch '=',ch '/'],
    [ch 'T',ch 'E',ch 'R',ch 'M',ch '=',ch 'k',ch 'i',ch 'n',ch 'b',ch 'o',ch 'l'],
    [ch 'U',ch 'S',ch 'E',ch 'R',ch '=',ch 'r',ch 'o',ch 'o',ch 't']]

def atNull : BitVec 64 := 0#64
def atPhdr : BitVec 64 := 3#64
def atPhent : BitVec 64 := 4#64
def atPhnum : BitVec 64 := 5#64
def atBase : BitVec 64 := 7#64
def atEntry : BitVec 64 := 9#64

/-- The stack page while strings are pushed, and `off`. -/
structure StackPage where
  page : ByteImage
  off : BitVec 64

/-- A string goes below the ones before. -/
def StackPage.push (b : StackPage) (s : CName) : StackPage :=
  let off := b.off-BitVec.ofNat 64 (s.length+1)
  ⟨putBytes b.page off.toNat (s++[0#8]),off⟩

/-- The loop over `default_envp`, with `envp_va`. -/
def pushEnvp (stackVa : BitVec 64) : List CName → StackPage → List (BitVec 64) × StackPage
  | [],b => ([],b)
  | s::ss,b =>
    let b := b.push s
    let r := pushEnvp stackVa ss b
    ((stackVa+b.off)::r.1,r.2)

def wordBytes (w : BitVec 64) : List Byte := leBytes 8 w.toNat

/-- `w[i++] = ...` for one word after another. -/
def putWords (page : ByteImage) : Nat → List (BitVec 64) → ByteImage
  | _,[] => page
  | off,w::ws => putWords (putBytes page off (wordBytes w)) (off+8) ws

/-- The pairs that the auxiliary vector gets, `AT_NULL` apart. -/
def auxvPairs (res : ElfLoadResult) : List (BitVec 64 × BitVec 64) :=
  [(atPhdr,res.phdrVaddr),(atPhent,BitVec.ofNat 64 res.phent),(atPhnum,BitVec.ofNat 64 res.phnum),
    (atEntry,res.entry),(atBase,res.loadBias)]

/-- `build_initial_user_stack`: what it returns and the page. -/
def buildInitialUserStack (stackVa : BitVec 64) (page : ByteImage) (argv0 : CName)
    (res : ElfLoadResult) : BitVec 64 × ByteImage :=
  let envc := defaultEnvp.length
  let b := StackPage.push ⟨page,4096#64⟩ argv0
  let argv0Va := stackVa+b.off
  let (envpVa,b) := pushEnvp stackVa defaultEnvp b
  let words := 1+2+(envc+1)+12
  let blockBytes := BitVec.ofNat 64 (words*8)
  let off := ((b.off &&& ~~~0xF#64)-blockBytes) &&& ~~~0xF#64
  let w := [1#64,argv0Va,0#64]++envpVa++[0#64]++
    (auxvPairs res).flatMap (fun x => [x.1,x.2])++[atNull,0#64]
  (stackVa+off,putWords b.page off.toNat w)

/-! How a program finds its arguments, by the System V rules. -/

def readWord (mem : BitVec 64 → Option Byte) (a : BitVec 64) : Option (BitVec 64) :=
  (readBytes mem 8 a).map (fun bs => BitVec.ofNat 64 (leNat bs))

/-- Pointers up to a null one, and the address behind that. -/
def readPointers (mem : BitVec 64 → Option Byte) : Nat → BitVec 64 →
    Option (List (BitVec 64) × BitVec 64)
  | 0,_ => none
  | n+1,a => do
    let p ← readWord mem a
    if p = 0#64 then some ([],a+8#64)
    else (readPointers mem n (a+8#64)).map (fun r => (p::r.1,r.2))

/-- Pairs of type and value up to `AT_NULL`. -/
def readAuxv (mem : BitVec 64 → Option Byte) : Nat → BitVec 64 →
    Option (List (BitVec 64 × BitVec 64))
  | 0,_ => none
  | n+1,a => do
    let type ← readWord mem a
    if type = atNull then some []
    else
      let val ← readWord mem (a+8#64)
      (readAuxv mem n (a+16#64)).map ((type,val)::·)

structure InitialStack where
  argc : BitVec 64
  argvVa : List (BitVec 64)
  envpVa : List (BitVec 64)
  argv : List CName
  envp : List CName
  auxv : List (BitVec 64 × BitVec 64)

def parseStack (mem : BitVec 64 → Option Byte) (sp : BitVec 64) : Option InitialStack := do
  let argc ← readWord mem sp
  let argv ← readPointers mem pageSize (sp+8#64)
  let envp ← readPointers mem pageSize argv.2
  let auxv ← readAuxv mem pageSize envp.2
  let argvStr ← argv.1.mapM (readString mem pageSize)
  let envpStr ← envp.1.mapM (readString mem pageSize)
  some ⟨argc,argv.1,envp.1,argvStr,envpStr,auxv⟩

/-- First address and length of the pointer block and of every string. -/
def InitialStack.pieces (st : InitialStack) (sp : BitVec 64) : List (Nat × Nat) :=
  (sp.toNat,8*(1+(st.argvVa.length+1)+(st.envpVa.length+1)+2*(st.auxv.length+1)))::
    ((st.argvVa++st.envpVa).zip (st.argv++st.envp)).map (fun x => (x.1.toNat,x.2.length+1))

variable {page : ByteImage} {stackVa : BitVec 64} {b : StackPage} {n off : Nat}

theorem leNat_leBytes (n x : Nat) : leNat (leBytes n x) = x%256^n := by
  induction n generalizing x with
  | zero => simp [leBytes,leNat,Nat.mod_one]
  | succ n ih =>
    have hpow : 256^(n+1) = 256*256^n := by rw [Nat.pow_succ,Nat.mul_comm]
    rw [leBytes,leNat,ih,BitVec.toNat_ofNat,hpow,Nat.mod_mul]

theorem length_wordBytes (w : BitVec 64) : (wordBytes w).length = 8 := length_leBytes _ _

theorem readWord_window {w : BitVec 64} (ha : stackVa.toNat+4096 ≤ 2^64)
    (hw : HoldsBytes page off (wordBytes w)) (hin : off+8 ≤ 4096) :
    readWord (window stackVa 4096 page) (stackVa+BitVec.ofNat 64 off) = some w := by
  have hlen := length_wordBytes w
  have hread := readBytes_window ha hw (by omega)
  rw [hlen] at hread
  rw [readWord,hread,Option.map_some,wordBytes,leNat_leBytes]
  have hlt : w.toNat < 256^8 := w.isLt
  rw [Nat.mod_eq_of_lt hlt,BitVec.ofNat_toNat,BitVec.setWidth_eq]

theorem putWords_other {ws : List (BitVec 64)} {i : Nat} (h : i < off ∨ off+8*ws.length ≤ i) :
    putWords page off ws i = page i := by
  induction ws generalizing page off with
  | nil => rfl
  | cons w ws ih =>
    rw [List.length_cons] at h
    rw [putWords,ih (by omega),putBytes_other (by rw [length_wordBytes]; omega)]

theorem putWords_holds (page : ByteImage) (off : Nat) (ws : List (BitVec 64)) :
    HoldsBytes (putWords page off ws) off (ws.flatMap wordBytes) := by
  induction ws generalizing page off with
  | nil => trivial
  | cons w ws ih =>
    rw [List.flatMap_cons,holds_append,length_wordBytes]
    refine ⟨(putBytes_holds page off (wordBytes w)).congr (fun i hi hlt => ?_),ih _ _⟩
    rw [length_wordBytes] at hlt
    rw [putWords,putWords_other (Or.inl hlt)]

/-- A pushed string lies just below what was there. -/
theorem push_spec {s : CName} (h : s.length+1 ≤ b.off.toNat) :
    (b.push s).off.toNat+(s.length+1) = b.off.toNat ∧
    HoldsBytes (b.push s).page (b.push s).off.toNat (s++[0#8]) ∧
    ∀ i, b.off.toNat ≤ i → (b.push s).page i = b.page i := by
  have hlt := b.off.isLt
  have hn : (BitVec.ofNat 64 (s.length+1)).toNat = s.length+1 := by
    rw [BitVec.toNat_ofNat]
    omega
  have hoff : (b.push s).off.toNat = b.off.toNat-(s.length+1) := by
    change (b.off-BitVec.ofNat 64 (s.length+1)).toNat = _
    rw [BitVec.toNat_sub_of_le (by rw [BitVec.le_def,hn]; exact h),hn]
  refine ⟨by omega,putBytes_holds _ _ _,fun i hi => ?_⟩
  change putBytes b.page (b.push s).off.toNat (s++[0#8]) i = b.page i
  apply putBytes_other
  rw [List.length_append,List.length_singleton]
  omega

/-- The bytes that strings take. -/
def stringsSize (ss : List CName) : Nat := (ss.map (fun s => s.length+1)).sum

theorem pushEnvp_spec (ss : List CName) (h : stringsSize ss ≤ b.off.toNat) : ∃ offs : List Nat,
    (pushEnvp stackVa ss b).1 = offs.map (fun o => stackVa+BitVec.ofNat 64 o) ∧
    offs.length = ss.length ∧
    PlacedDown (pushEnvp stackVa ss b).2.page b.off.toNat (pushEnvp stackVa ss b).2.off.toNat
      (offs.zip (ss.map (·++[0#8]))) ∧
    (pushEnvp stackVa ss b).2.off.toNat+stringsSize ss = b.off.toNat ∧
    ∀ i, b.off.toNat ≤ i → (pushEnvp stackVa ss b).2.page i = b.page i := by
  induction ss generalizing b with
  | nil => exact ⟨[],rfl,rfl,rfl,rfl,fun i hi => rfl⟩
  | cons s ss ih =>
    have hsize : stringsSize (s::ss) = s.length+1+stringsSize ss := by
      simp [stringsSize]
    obtain ⟨h1,h2,h3⟩ := push_spec (b := b) (s := s) (by omega)
    obtain ⟨offs,g1,g2,g3,g4,g5⟩ := ih (b := b.push s) (by omega)
    refine ⟨(b.push s).off.toNat::offs,?_,by simp [g2],?_,?_,fun i hi => ?_⟩
    · rw [pushEnvp,List.map_cons,← g1]
      simp
    · refine ⟨?_,h2.congr (fun i hi hlt => g5 i hi),g3⟩
      rw [List.length_append,List.length_singleton]
      exact h1
    · change (pushEnvp stackVa ss (b.push s)).2.off.toNat+_ = _
      omega
    · change (pushEnvp stackVa ss (b.push s)).2.page i = _
      rw [g5 i (by omega),h3 i hi]

theorem readPointers_window {ws : List (BitVec 64)} (ha : stackVa.toNat+4096 ≤ 2^64)
    (hw : HoldsBytes page off ((ws++[0#64]).flatMap wordBytes)) (hin : off+8*(ws.length+1) ≤ 4096)
    (h0 : 0#64 ∉ ws) (hn : ws.length < n) :
    readPointers (window stackVa 4096 page) n (stackVa+BitVec.ofNat 64 off) =
      some (ws,stackVa+BitVec.ofNat 64 (off+8*(ws.length+1))) := by
  induction ws generalizing off n with
  | nil =>
    obtain ⟨n,rfl⟩ := Nat.exists_eq_succ_of_ne_zero (show n ≠ 0 by omega)
    rw [List.nil_append,List.flatMap_singleton] at hw
    rw [readPointers,readWord_window ha hw (by simpa using hin),base_add_add]
    rfl
  | cons w ws ih =>
    obtain ⟨n,rfl⟩ := Nat.exists_eq_succ_of_ne_zero (show n ≠ 0 by omega)
    rw [List.cons_append,List.flatMap_cons,holds_append,length_wordBytes] at hw
    rw [List.mem_cons,not_or] at h0
    rw [List.length_cons] at hin hn
    have hrec := ih hw.2 (by omega) h0.2 (n := n) (by omega)
    rw [readPointers,readWord_window ha hw.1 (by omega),base_add_add,hrec,List.length_cons]
    have hend : off+8+8*(ws.length+1) = off+8*(ws.length+1+1) := by omega
    simp [Ne.symm h0.1,hend]

theorem readAuxv_window {xs : List (BitVec 64 × BitVec 64)} (ha : stackVa.toNat+4096 ≤ 2^64)
    (hw : HoldsBytes page off ((xs.flatMap (fun x => [x.1,x.2])++[atNull,0#64]).flatMap wordBytes))
    (hin : off+16*(xs.length+1) ≤ 4096) (h0 : ∀ x ∈ xs, x.1 ≠ atNull) (hn : xs.length < n) :
    readAuxv (window stackVa 4096 page) n (stackVa+BitVec.ofNat 64 off) = some xs := by
  induction xs generalizing off n with
  | nil =>
    obtain ⟨n,rfl⟩ := Nat.exists_eq_succ_of_ne_zero (show n ≠ 0 by omega)
    rw [List.flatMap_nil,List.nil_append,List.flatMap_cons,holds_append] at hw
    rw [readAuxv,readWord_window ha hw.1 (by simp at hin; omega)]
    rfl
  | cons x xs ih =>
    obtain ⟨n,rfl⟩ := Nat.exists_eq_succ_of_ne_zero (show n ≠ 0 by omega)
    simp only [List.flatMap_cons,List.cons_append,List.nil_append,holds_append,
      length_wordBytes] at hw
    obtain ⟨h1,h2,h3⟩ := hw
    rw [List.length_cons] at hin hn
    have hx := h0 x (by simp)
    have hrec := ih h3 (by omega) (fun y hy => h0 y (by simp [hy])) (n := n) (by omega)
    rw [readAuxv,readWord_window ha h1 (by omega),base_add_add,readWord_window ha h2 (by omega),
      base_add_add,hrec]
    simp [hx]

/-- `off &= ~0xF`. -/
theorem toNat_and_not_15 (x : BitVec 64) : (x &&& ~~~0xF#64).toNat = x.toNat/16*16 := by
  have hmask : ∀ i : Fin 64, (~~~0xF#64).getLsbD i = decide (4 ≤ i.val) := by decide
  have hshift : x &&& ~~~0xF#64 = (x >>> 4) <<< 4 := by
    apply BitVec.eq_of_getLsbD_eq
    intro i hi
    rw [BitVec.getLsbD_and,hmask ⟨i,hi⟩,BitVec.getLsbD_shiftLeft,BitVec.getLsbD_ushiftRight]
    by_cases h : i < 4
    · simp [h]
    · simp [h,hi,show 4+(i-4) = i by omega,Nat.not_lt.mp h]
  have hx := x.isLt
  rw [hshift,BitVec.toNat_shiftLeft,BitVec.toNat_ushiftRight,Nat.shiftRight_eq_div_pow,
    Nat.shiftLeft_eq]
  exact Nat.mod_eq_of_lt (by omega)

/-- The strings of the page, from the first one pushed on. -/
def stackStrings (argv0 : CName) : List CName := argv0::defaultEnvp

theorem stringsSize_stackStrings (argv0 : CName) :
    stringsSize (stackStrings argv0) = argv0.length+37 := by
  have henv : stringsSize defaultEnvp = 36 := by decide
  rw [stackStrings,stringsSize,List.map_cons,List.sum_cons]
  rw [stringsSize] at henv
  omega

theorem readStrings_window {offs : List Nat} {ss : List CName} (ha : stackVa.toNat+4096 ≤ 2^64)
    (hp : ∀ x ∈ offs.zip (ss.map (·++[0#8])), x.1+x.2.length ≤ 4096 ∧ HoldsBytes page x.1 x.2)
    (hlen : offs.length = ss.length) (hz : ∀ s ∈ ss, 0#8 ∉ s) :
    (offs.map (fun o => stackVa+BitVec.ofNat 64 o)).mapM
      (readString (window stackVa 4096 page) pageSize) = some ss := by
  induction offs generalizing ss with
  | nil =>
    obtain rfl := List.eq_nil_of_length_eq_zero hlen.symm
    rfl
  | cons o offs ih =>
    cases ss with
    | nil => simp at hlen
    | cons s ss =>
      obtain ⟨h1,h2⟩ := hp (o,s++[0#8]) (by simp)
      rw [List.length_append,List.length_singleton] at h1
      have hrec := @ih ss (fun x hx => hp x (by
        rw [List.map_cons,List.zip_cons_cons]
        exact List.mem_cons_of_mem _ hx)) (by simpa using hlen) (fun t ht => hz t (by simp [ht]))
      have hstr := readString_window ha h2 (hz s (by simp)) (by omega)
        (show s.length < pageSize by rw [pageSize]; omega)
      rw [List.map_cons,List.mapM_cons,hstr,hrec]
      rfl

theorem pieces_strings {offs : List Nat} {ss : List CName} (ha : stackVa.toNat+4096 ≤ 2^64)
    (hp : ∀ x ∈ offs.zip (ss.map (·++[0#8])), x.1 < 4096) (hlen : offs.length = ss.length) :
    ((offs.map (fun o => stackVa+BitVec.ofNat 64 o)).zip ss).map (fun x =>
      (x.1.toNat,x.2.length+1)) =
    (offs.zip (ss.map (·++[0#8]))).map (fun x => (stackVa.toNat+x.1,x.2.length)) := by
  induction offs generalizing ss with
  | nil => rfl
  | cons o offs ih =>
    cases ss with
    | nil => rfl
    | cons s ss =>
      have ho := hp (o,s++[0#8]) (by simp)
      have hrec := @ih ss (fun x hx => hp x (by
        rw [List.map_cons,List.zip_cons_cons]
        exact List.mem_cons_of_mem _ hx)) (by simpa using hlen)
      rw [List.map_cons,List.zip_cons_cons,List.map_cons,hrec,List.map_cons,List.zip_cons_cons,
        List.map_cons,toNat_base_add ha ho]
      simp

/-- `off` once the block has its place. -/
def blockOff (off : BitVec 64) : BitVec 64 := ((off &&& ~~~0xF#64)-160#64) &&& ~~~0xF#64

theorem toNat_blockOff {x : BitVec 64} (h : 176 ≤ x.toNat) :
    (blockOff x).toNat = x.toNat/16*16-160 := by
  have hle : 160#64 ≤ x &&& ~~~0xF#64 := by
    rw [BitVec.le_def,toNat_and_not_15,BitVec.toNat_ofNat]
    omega
  rw [blockOff,toNat_and_not_15,BitVec.toNat_sub_of_le hle,toNat_and_not_15,BitVec.toNat_ofNat]
  omega

/-- The words of the block, with what the string pointers are. -/
def blockWords (argv0Va : BitVec 64) (envpVa : List (BitVec 64)) (res : ElfLoadResult) :
    List (BitVec 64) :=
  [1#64]++(([argv0Va]++[0#64])++((envpVa++[0#64])++
    ((auxvPairs res).flatMap (fun x => [x.1,x.2])++[atNull,0#64])))

theorem build_eq (stackVa : BitVec 64) (page : ByteImage) (argv0 : CName) (res : ElfLoadResult)
    {r : List (BitVec 64) × StackPage} {argv0Va : BitVec 64} {envpVa : List (BitVec 64)}
    (hr : pushEnvp stackVa (stackStrings argv0) ⟨page,4096#64⟩ = r) (hva : r.1 = argv0Va::envpVa) :
    buildInitialUserStack stackVa page argv0 res = (stackVa+blockOff r.2.off,
      putWords r.2.page (blockOff r.2.off).toNat (blockWords argv0Va envpVa res)) := by
  subst hr
  obtain ⟨rfl,rfl⟩ := List.cons.inj hva
  rfl

/-- What a program finds on its stack. -/
structure StackOk (stackVa : BitVec 64) (argv0 : CName) (res : ElfLoadResult) (sp : BitVec 64)
    (st : InitialStack) : Prop where
  argc : st.argc = 1#64
  argv : st.argv = [argv0]
  envp : st.envp = defaultEnvp
  auxv : st.auxv = auxvPairs res
  aligned : sp.toNat%16 = 0
  inside : ∀ x ∈ st.pieces sp, stackVa.toNat ≤ x.1 ∧ x.1+x.2 ≤ stackVa.toNat+4096
  apart : (st.pieces sp).Pairwise (fun x y => x.1+x.2 ≤ y.1 ∨ y.1+y.2 ≤ x.1)

theorem holds_words {as bs : List (BitVec 64)} : HoldsBytes page off ((as++bs).flatMap wordBytes) ↔
    HoldsBytes page off (as.flatMap wordBytes) ∧
      HoldsBytes page (off+8*as.length) (bs.flatMap wordBytes) := by
  have hlen : (as.flatMap wordBytes).length = 8*as.length := by
    rw [List.length_flatMap]
    simp [length_wordBytes,Nat.mul_comm]
  rw [List.flatMap_append,holds_append,hlen]

/-- The block of words reads back. -/
theorem parse_block {argv0 : CName} {argv0Va : BitVec 64} {envpVa : List (BitVec 64)}
    {res : ElfLoadResult} (ha : stackVa.toNat+4096 ≤ 2^64)
    (hw : HoldsBytes page off ((blockWords argv0Va envpVa res).flatMap wordBytes))
    (hin : off+160 ≤ 4096) (henv : envpVa.length = 4) (h0 : 0#64 ∉ argv0Va::envpVa)
    (hargs : [argv0Va].mapM (readString (window stackVa 4096 page) pageSize) = some [argv0])
    (hstrs : envpVa.mapM (readString (window stackVa 4096 page) pageSize) = some defaultEnvp) :
    parseStack (window stackVa 4096 page) (stackVa+BitVec.ofNat 64 off) =
      some ⟨1#64,[argv0Va],envpVa,[argv0],defaultEnvp,auxvPairs res⟩ := by
  rw [List.mem_cons,not_or] at h0
  obtain ⟨h1,hw⟩ := holds_words.mp hw
  obtain ⟨h2,hw⟩ := holds_words.mp hw
  obtain ⟨h3,h4⟩ := holds_words.mp hw
  rw [List.flatMap_singleton] at h1
  simp only [List.length_append,List.length_singleton,henv] at h2 h3 h4
  have hargc := readWord_window ha h1 (by omega)
  have hargv := readPointers_window ha h2 (by simp; omega) (by simpa using h0.1) (n := pageSize)
    (by rw [pageSize]; simp)
  have henvp := readPointers_window ha h3 (by rw [henv]; omega) h0.2 (n := pageSize)
    (by rw [henv,pageSize]; omega)
  have hauxv := readAuxv_window ha h4 (by simp [auxvPairs]; omega)
    (by simp [auxvPairs,atPhdr,atPhent,atPhnum,atEntry,atBase,atNull]) (n := pageSize)
    (by simp [auxvPairs,pageSize])
  simp only [List.length_singleton,henv] at hargv henvp
  rw [parseStack,hargc,base_add_add,Option.bind_eq_bind,Option.bind_some,hargv]
  simp only [Option.bind_eq_bind,Option.bind_some,henvp,hauxv,hargs,hstrs]

/-- The page of `build_initial_user_stack` gives a program its arguments, its environment and what
the loader found out. -/
theorem initialStack_layout (page : ByteImage) {argv0 : CName} (res : ElfLoadResult)
    (hva : stackVa.toNat%4096 = 0) (hlen : argv0.length ≤ 255) (hz : 0#8 ∉ argv0) :
    ∃ st, parseStack (window stackVa 4096 (buildInitialUserStack stackVa page argv0 res).2)
        (buildInitialUserStack stackVa page argv0 res).1 = some st ∧
      StackOk stackVa argv0 res (buildInitialUserStack stackVa page argv0 res).1 st := by
  have ha : stackVa.toNat+4096 ≤ 2^64 := by
    have hlt := stackVa.isLt
    omega
  have hsize := stringsSize_stackStrings argv0
  have htop : (4096#64).toNat = 4096 := rfl
  obtain ⟨offs,g1,g2,g3,g4,-⟩ := @pushEnvp_spec stackVa ⟨page,4096#64⟩
    (stackStrings argv0) (by rw [hsize,htop]; omega)
  change _ = 4096 at g4
  change PlacedDown _ 4096 _ _ at g3
  obtain ⟨o,eoffs,rfl⟩ : ∃ o eoffs, offs = o::eoffs := by
    cases offs with
    | nil => simp [stackStrings] at g2
    | cons o eoffs => exact ⟨o,eoffs,rfl⟩
  have henv : eoffs.length = 4 := by
    rw [List.length_cons,stackStrings,List.length_cons] at g2
    have h4 : defaultEnvp.length = 4 := rfl
    omega
  have hbuild := build_eq stackVa page argv0 res rfl g1
  generalize pushEnvp stackVa (stackStrings argv0) ⟨page,4096#64⟩ = r at g1 g3 g4 hbuild
  have hblk := toNat_blockOff (x := r.2.off) (by omega)
  rw [hbuild]
  generalize hwords : blockWords (stackVa+BitVec.ofNat 64 o)
    (eoffs.map (fun o => stackVa+BitVec.ofNat 64 o)) res = ws
  have hws : ws.length = 20 := by
    rw [← hwords]
    simp [blockWords,auxvPairs,henv]
  generalize hp : putWords r.2.page (blockOff r.2.off).toNat ws = P
  -- the block lies below the strings
  have hplaced : PlacedDown P 4096 r.2.off.toNat
      ((o::eoffs).zip ((stackStrings argv0).map (·++[0#8]))) := by
    apply g3.congr
    intro i hi _
    rw [← hp,putWords_other (Or.inr (by rw [hws]; omega))]
  have hblock : HoldsBytes P (blockOff r.2.off).toNat (ws.flatMap wordBytes) := by
    rw [← hp]
    exact putWords_holds _ _ _
  have hstr : ∀ x ∈ (o::eoffs).zip ((stackStrings argv0).map (·++[0#8])),
      x.1+x.2.length ≤ 4096 ∧ HoldsBytes P x.1 x.2 := fun x hx => (hplaced.mem hx).2
  have hlo : ∀ x ∈ (o::eoffs).zip ((stackStrings argv0).map (·++[0#8])),
      r.2.off.toNat ≤ x.1 ∧ x.1 < 4096 := by
    intro x hx
    obtain ⟨hle,hin,-⟩ := hplaced.mem hx
    obtain ⟨t,-,ht⟩ := List.mem_map.mp (List.of_mem_zip hx).2
    rw [← ht,List.length_append,List.length_singleton] at hin
    exact ⟨hle,by omega⟩
  have hmem : ∀ x ∈ eoffs.zip (defaultEnvp.map (·++[0#8])),
      x ∈ (o::eoffs).zip ((stackStrings argv0).map (·++[0#8])) :=
    fun x hx => List.mem_cons_of_mem _ hx
  have hargs : ([o].map (fun o => stackVa+BitVec.ofNat 64 o)).mapM
      (readString (window stackVa 4096 P) pageSize) = some [argv0] :=
    readStrings_window ha (fun x hx => hstr x (List.mem_singleton.mp hx ▸ List.mem_cons_self)) rfl
      (by simpa using hz)
  have hstrs := readStrings_window ha (fun x hx => hstr x (hmem x hx)) henv
    (show ∀ s ∈ defaultEnvp, 0#8 ∉ s by decide)
  have hfst : ((o::eoffs).zip ((stackStrings argv0).map (·++[0#8]))).map Prod.fst = o::eoffs :=
    List.map_fst_zip (by rw [g2,List.length_map])
  have hnull : 0#64 ∉ (o::eoffs).map (fun o => stackVa+BitVec.ofNat 64 o) := by
    intro hm
    obtain ⟨x,hx,h0⟩ := List.mem_map.mp hm
    rw [← hfst] at hx
    obtain ⟨y,hy,rfl⟩ := List.mem_map.mp hx
    obtain ⟨hle,hlt⟩ := hlo y hy
    have hnat := toNat_base_add ha hlt
    rw [h0] at hnat
    simp at hnat
    omega
  have hoff : stackVa+blockOff r.2.off = stackVa+BitVec.ofNat 64 (blockOff r.2.off).toNat := by
    rw [BitVec.ofNat_toNat,BitVec.setWidth_eq]
  have hsp : (stackVa+blockOff r.2.off).toNat = stackVa.toNat+(blockOff r.2.off).toNat := by
    rw [hoff]
    exact toNat_base_add ha (by omega)
  have hpieces := pieces_strings ha (fun x hx => (hlo x hx).2) g2
  have hparse := parse_block ha (hwords ▸ hblock) (by omega) (by simp [henv]) hnull hargs hstrs
  rw [← hoff] at hparse
  have hall : ∀ sp, InitialStack.pieces ⟨1#64,[stackVa+BitVec.ofNat 64 o],
      eoffs.map (fun o => stackVa+BitVec.ofNat 64 o),[argv0],defaultEnvp,auxvPairs res⟩ sp =
      (sp.toNat,160)::((o::eoffs).zip ((stackStrings argv0).map (·++[0#8]))).map
        (fun x => (stackVa.toNat+x.1,x.2.length)) := by
    intro sp
    rw [← hpieces,InitialStack.pieces]
    simp [auxvPairs,henv,stackStrings]
  refine ⟨_,hparse,rfl,rfl,rfl,rfl,?_,?_,?_⟩
  · rw [hsp]
    omega
  · rw [hall]
    intro x hx
    rcases List.mem_cons.mp hx with rfl | hx
    · dsimp only
      omega
    · obtain ⟨y,hy,rfl⟩ := List.mem_map.mp hx
      obtain ⟨h1,-⟩ := hstr y hy
      dsimp only
      omega
  · rw [hall,List.pairwise_cons,List.pairwise_map]
    constructor
    · intro x hx
      obtain ⟨y,hy,rfl⟩ := List.mem_map.mp hx
      obtain ⟨h1,-⟩ := hlo y hy
      left
      dsimp only
      omega
    · apply hplaced.apart.imp
      intro x y hxy
      right
      dsimp only
      omega

/-- `/bin/sh` with its stack at 0x7FFFFF000 and the headers of a program at 0x400000. -/
theorem initialStack_layout_sample :
    let res : ElfLoadResult := ⟨0x401000#64,0x400040#64,56,1,0#64,0x402000#64,false⟩
    let r := buildInitialUserStack 0x7FFFFF000#64 (fun _ => 0#8)
      [ch '/',ch 'b',ch 'i',ch 'n',ch '/',ch 's',ch 'h'] res
    ∃ st, parseStack (window 0x7FFFFF000#64 4096 r.2) r.1 = some st ∧
      StackOk 0x7FFFFF000#64 [ch '/',ch 'b',ch 'i',ch 'n',ch '/',ch 's',ch 'h'] res r.1 st :=
  initialStack_layout (fun _ => 0#8) _ (by decide) (by decide) (by decide)

end KiNBOL
