import KiNBOL.Mm.VmRun

namespace KiNBOL

/-- A file as `vfs_read` sees it: the bytes a read at an offset delivers, never more than asked. -/
structure VfsNode where
  read : Nat → Nat → List (BitVec 8)
  read_le : ∀ off len, (read off len).length ≤ len

/-- A file with these bytes. -/
def VfsNode.ofBytes (bytes : List (BitVec 8)) : VfsNode where
  read := fun off len => (bytes.drop off).take len
  read_le := fun _ _ => List.length_take_le _ _

/-- A little-endian number. -/
def leNat : List (BitVec 8) → Nat
  | [] => 0
  | b::bs => b.toNat+256*leNat bs

/-- Field of `n` bytes at an offset of a structure read from a file. -/
def field (bytes : List (BitVec 8)) (off n : Nat) : Nat := leNat ((bytes.drop off).take n)

structure Elf64Ehdr where
  ident : List (BitVec 8)
  type : Nat
  machine : Nat
  entry : BitVec 64
  phoff : BitVec 64
  phentsize : Nat
  phnum : Nat

/-- `sizeof(elf64_ehdr_t)`. -/
def ehdrSize : Nat := 64

def Elf64Ehdr.ofBytes (bytes : List (BitVec 8)) : Elf64Ehdr where
  ident := bytes.take 16
  type := field bytes 16 2
  machine := field bytes 18 2
  entry := BitVec.ofNat 64 (field bytes 24 8)
  phoff := BitVec.ofNat 64 (field bytes 32 8)
  phentsize := field bytes 54 2
  phnum := field bytes 56 2

structure Elf64Phdr where
  type : Nat
  flags : BitVec 32
  offset : BitVec 64
  vaddr : BitVec 64
  filesz : BitVec 64
  memsz : BitVec 64

/-- `sizeof(elf64_phdr_t)`. -/
def phdrSize : Nat := 56

def Elf64Phdr.ofBytes (bytes : List (BitVec 8)) : Elf64Phdr where
  type := field bytes 0 4
  flags := BitVec.ofNat 32 (field bytes 4 4)
  offset := BitVec.ofNat 64 (field bytes 8 8)
  vaddr := BitVec.ofNat 64 (field bytes 16 8)
  filesz := BitVec.ofNat 64 (field bytes 32 8)
  memsz := BitVec.ofNat 64 (field bytes 40 8)

def elfLoadBasePie : BitVec 64 := 0x555555554000#64
def elfMaxPhdrs : Nat := 32
def elfAslrRange : BitVec 64 := 256#64*1024#64*1024#64

/-- `krand_page_aligned_below` on the number `krand_u64` returned. -/
def krandPageAlignedBelow (rand bound : BitVec 64) : BitVec 64 :=
  if bound < 0x1000#64 then 0#64 else (rand%(bound/0x1000#64))*0x1000#64

def elfValidateHeader (eh : Elf64Ehdr) : Except String Unit :=
  if eh.ident.take 4 ≠ [0x7f#8,0x45#8,0x4c#8,0x46#8] then .error "[elf] bad magic\n"
  else if eh.ident.getD 4 0 ≠ 2#8 then .error "[elf] not 64-bit\n"
  else if eh.ident.getD 5 0 ≠ 1#8 then .error "[elf] not little-endian\n"
  else if eh.machine ≠ 62 then .error "[elf] wrong machine type\n"
  else if eh.type ≠ 2 ∧ eh.type ≠ 3 then .error "[elf] unsupported e_type\n"
  else if eh.phnum = 0 ∨ elfMaxPhdrs < eh.phnum then .error "[elf] bad phnum\n"
  else if eh.phentsize ≠ phdrSize then .error "[elf] bad phentsize\n"
  else .ok ()

def elfSegmentFlags (pFlags : BitVec 32) : BitVec 64 :=
  vmmPresent ||| vmmUser ||| (if pFlags &&& 2#32 ≠ 0#32 then vmmWrite else 0#64) |||
    (if pFlags &&& 1#32 = 0#32 then vmmNx else 0#64)

/-- Storing a byte into a page of words. -/
def storeByte (mem : PhysMem) (page off : Nat) (b : BitVec 8) : PhysMem := fun n i =>
  if n = page ∧ i.val = off/8 then
    (mem n i &&& ~~~(0xFF#64 <<< (8*(off%8)))) ||| (b.setWidth 64 <<< (8*(off%8)))
  else mem n i

/-- The bytes `vfs_read` delivers into a page. -/
def copyBytes (page : Nat) : Nat → List (BitVec 8) → PhysMem → PhysMem
  | _,[],mem => mem
  | off,b::bs,mem => copyBytes page (off+1) bs (storeByte mem page off b)

/-- The machine while an image is loaded, and the addresses `vmm_map` succeeded at so far. -/
structure Loading where
  machine : Machine
  maps : List (BitVec 64)

/-- Going on after a step that did not fail. -/
def Loading.next {α β : Type} (r : Except String α × Loading)
    (k : α → Loading → Except String β × Loading) : Except String β × Loading :=
  match r with
  | (.error msg,s) => (.error msg,s)
  | (.ok a,s) => k a s

/-- `copy_start_in_page`: only the first page of a segment starts inside. -/
def copyStart (pageStart segOff va : BitVec 64) : BitVec 64 :=
  if va = pageStart then segOff else 0#64

/-- Bytes of the file that go into the next page of a segment, from `start` in the page. -/
def toCopy (left start : BitVec 64) : BitVec 64 :=
  if left < 4096#64-start then left else 4096#64-start

/-- The bytes `vfs_read` delivers for a page; nothing is read when there is nothing to copy. -/
def pageRead (node : VfsNode) (fileOff count : BitVec 64) : List (BitVec 8) :=
  if 0#64 < count then node.read (fileOff.toNat%2^32) count.toNat else []

/-- One turn of the page loop of `elf_map_segment`: page `va`, `count` bytes from `fileOff` of the
file to `start` in the page. -/
def elfMapPage (pm : Pagemap) (node : VfsNode) (flags va start fileOff count : BitVec 64)
    (s : Loading) : Except String Unit × Loading :=
  match pmmAllocPage s.machine.pmm with
  | (none,pmm) => (.error "[elf] out of memory mapping segment\n",{ s with machine.pmm := pmm })
  | (some phys,pmm) =>
    let got := pageRead node fileOff count
    let m := { s.machine with
      pmm := pmm
      mem := copyBytes (pageOf phys) start.toNat got (zeroPage s.machine.mem (pageOf phys)) }
    if got.length ≠ count.toNat then
      (.error "[elf] short read on segment data\n",
        { s with machine := { m with pmm := pmmFreePage m.pmm phys } })
    else
      let r := vmmMap m pm va phys flags
      if r.1 ≠ 0 then
        (.error "[elf] vmm_map failed for segment page\n",
          { s with machine := { r.2 with pmm := pmmFreePage r.2.pmm phys } })
      else (.ok (),⟨r.2,s.maps++[va]⟩)

/-- The page loop of `elf_map_segment`, with the number of pages still to come. -/
def elfMapPages (pm : Pagemap) (node : VfsNode) (flags pageStart segOff : BitVec 64) :
    Nat → BitVec 64 → BitVec 64 → BitVec 64 → Loading → Except String Unit × Loading
  | 0,_,_,_,s => (.ok (),s)
  | n+1,va,fileOff,fileLeft,s =>
    let count := toCopy fileLeft (copyStart pageStart segOff va)
    Loading.next (elfMapPage pm node flags va (copyStart pageStart segOff va) fileOff count s)
      (fun _ s => elfMapPages pm node flags pageStart segOff n (va+4096#64) (fileOff+count)
        (fileLeft-count) s)

/-- First page, offset in it and number of pages of a segment. -/
def segmentStart (ph : Elf64Phdr) (bias : BitVec 64) : BitVec 64 := (bias+ph.vaddr) &&& pageMask

def segmentOff (ph : Elf64Phdr) (bias : BitVec 64) : BitVec 64 :=
  bias+ph.vaddr-segmentStart ph bias

def segmentPages (ph : Elf64Phdr) (bias : BitVec 64) : Nat :=
  let pageEnd := (bias+ph.vaddr+ph.memsz+4096#64-1#64) &&& pageMask
  if segmentStart ph bias < pageEnd then (pageEnd-segmentStart ph bias).toNat/4096 else 0

def elfMapSegment (pm : Pagemap) (node : VfsNode) (ph : Elf64Phdr) (bias : BitVec 64)
    (s : Loading) : Except String Unit × Loading :=
  if ph.memsz = 0#64 then (.ok (),s)
  else if ph.memsz < ph.filesz then (.error "[elf] filesz > memsz, rejecting\n",s)
  else elfMapPages pm node (elfSegmentFlags ph.flags) (segmentStart ph bias) (segmentOff ph bias)
    (segmentPages ph bias) (segmentStart ph bias) ph.offset ph.filesz s

structure ElfLoadResult where
  entry : BitVec 64
  phdrVaddr : BitVec 64
  phent : Nat
  phnum : Nat
  loadBias : BitVec 64
  highestVaddr : BitVec 64
  isPie : Bool
  deriving DecidableEq

/-- The loop over the program headers; it carries `highest_vaddr` and then `phdr_vaddr`. -/
def elfLoadSegments (pm : Pagemap) (node : VfsNode) (bias : BitVec 64) :
    List Elf64Phdr → BitVec 64 → BitVec 64 → Loading →
      Except String (BitVec 64 × BitVec 64) × Loading
  | [],highest,phdr,s => (.ok (highest,phdr),s)
  | ph::rest,highest,phdr,s =>
    if ph.type = 1 then
      Loading.next (elfMapSegment pm node ph bias s) (fun _ s =>
        let last := bias+ph.vaddr+ph.memsz
        elfLoadSegments pm node bias rest (if highest < last then last else highest) phdr s)
    else if ph.type = 6 then
      elfLoadSegments pm node bias rest highest (bias+ph.vaddr) s
    else if ph.type = 3 then
      (.error "[elf] PT_INTERP present, dynamic linking not supported yet\n",s)
    else elfLoadSegments pm node bias rest highest phdr s

/-- The program headers read from `e_phoff` on. -/
def phdrTable (bytes : List (BitVec 8)) (phnum : Nat) : List Elf64Phdr :=
  (List.range phnum).map (fun i => Elf64Phdr.ofBytes ((bytes.drop (i*phdrSize)).take phdrSize))

/-- `load_bias`, with the random number drawn for it. -/
def loadBias (eh : Elf64Ehdr) (rand : BitVec 64) : BitVec 64 :=
  if eh.type = 3 then elfLoadBasePie+krandPageAlignedBelow rand elfAslrRange else 0#64

/-- What `elf_load` reads before it maps anything: the checked header and the headers table. -/
def elfHeaders (node : VfsNode) : Except String (Elf64Ehdr × List Elf64Phdr) :=
  if (node.read 0 ehdrSize).length ≠ ehdrSize then .error "[elf] short read on ehdr\n"
  else
    let eh := Elf64Ehdr.ofBytes (node.read 0 ehdrSize)
    match elfValidateHeader eh with
    | .error msg => .error msg
    | .ok () =>
      let table := node.read (eh.phoff.toNat%2^32) (eh.phnum*phdrSize)
      if table.length ≠ eh.phnum*phdrSize then .error "[elf] short read on phdrs\n"
      else .ok (eh,phdrTable table eh.phnum)

/-- `elf_load`: an error is its message and status -1. `rand` is the number drawn for the bias. -/
def elfLoad (m : Machine) (file : Option VfsNode) (pm : Pagemap) (rand : BitVec 64) :
    Except String ElfLoadResult × Loading :=
  match file with
  | none => (.error "[elf] file not found: ",⟨m,[]⟩)
  | some node =>
    match elfHeaders node with
    | .error msg => (.error msg,⟨m,[]⟩)
    | .ok (eh,phdrs) =>
      let bias := loadBias eh rand
      Loading.next (elfLoadSegments pm node bias phdrs 0#64 0#64 ⟨m,[]⟩) (fun x s =>
        (.ok
          { entry := bias+eh.entry
            phdrVaddr := if x.2 = 0#64 then bias+eh.phoff else x.2
            phent := eh.phentsize
            phnum := eh.phnum
            loadBias := bias
            highestVaddr := (x.1+4096#64-1#64) &&& pageMask
            isPie := eh.type = 3 },s))

end KiNBOL
