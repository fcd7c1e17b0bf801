import KiNBOL.Kernel.Descriptors
import KiNBOL.Kernel.Munmap
import KiNBOL.Kernel.Task

namespace KiNBOL

/-- What a system call does to memory and to `RFLAGS.AC`. `kernel` stands for the accesses to kernel
memory up to the next event, `resume` for the return of a switch to other tasks, which leave AC as
they last had it. -/
inductive MemEvent
  | stac
  | clac
  | kernel
  | user (va : BitVec 64) (write : Bool)
  | resume (ac : Bool)
  deriving DecidableEq

/-- AC after an event; `smap` is `g_smap_supported`. -/
def MemEvent.ac (smap ac : Bool) : MemEvent → Bool
  | .stac => smap || ac
  | .clac => !smap && ac
  | .resume b => b
  | .kernel | .user .. => ac

/-- Whether an access window is open after an event. -/
def MemEvent.window (w : Bool) : MemEvent → Bool
  | .stac => true
  | .clac => false
  | .resume _ | .kernel | .user .. => w

/-- The saved user registers that `syscall_dispatch` reads. -/
structure SyscallRegs where
  rax : BitVec 64
  rdi : BitVec 64
  rsi : BitVec 64
  rdx : BitVec 64
  r10 : BitVec 64

/-- The kernel and the calling task's part of it: what `syscall_entry` saved as `user_rsp`, the
descriptors, the bytes at its user addresses, the file system. -/
structure SyscallState where
  k : Kernel
  userRsp : BitVec 64
  fds : FdTable
  ubyte : BitVec 64 → Byte
  vol : Volume

/-- What the code outside a call decides: where a node's `read` writes in the buffer it gets and how
much it returns, and AC after the switch of a yield, if it switches. -/
structure SyscallEnv where
  read : NodeRef → BitVec 32 → BitVec 32 → List Nat × BitVec 32
  resume : Option Bool

/-- `MSR_FMASK`: the flags that the instruction clears. -/
def msrFmask : BitVec 64 := 0x200#64

/-- `RFLAGS.AC`. -/
def flagAc (rflags : BitVec 64) : Bool := rflags.getLsbD 18

/-- `RFLAGS` after `syscall`. -/
def syscallFlags (rflags : BitVec 64) : BitVec 64 := rflags &&& ~~~msrFmask

def userRspGuard : BitVec 64 := 16#64

namespace SyscallState

variable (s : SyscallState)

def checkUserPtr (ptr len : BitVec 64) (needWrite : Bool) : Bool :=
  len ≠ 0#64 && vmmCheckUserRange s.k.mach (vmmCurrent s.k.mach) ptr len needWrite

def checkUserRsp : Bool :=
  userRspGuard ≤ s.userRsp &&
    vmmCheckUserRange s.k.mach (vmmCurrent s.k.mach) (s.userRsp-userRspGuard) userRspGuard true

/-- The bytes of a user string. -/
def userByte (ptr : BitVec 64) (i : Nat) : Byte := s.ubyte (ptr+BitVec.ofNat 64 i)

end SyscallState

/-- Accesses to bytes from a user address on, in order. -/
def userBytes (ptr : BitVec 64) (write : Bool) (offs : List Nat) : List MemEvent :=
  offs.map (fun i => .user (ptr+BitVec.ofNat 64 i) write)

/-- The loop of `SYS_WRITE`, `n` bytes from the end: the byte is read for the test and once more to
print it. -/
def writeLoop (s : SyscallState) (buf : BitVec 64) : Nat → Nat → List MemEvent
  | _,0 => []
  | i,n+1 =>
    if s.userByte buf i = 0#8 then userBytes buf false [i]
    else userBytes buf false [i,i]++.kernel::writeLoop s buf (i+1) n

/-- Where a comparison with `prefix` from position `i` on reads. -/
def prefixReads (b : Nat → Byte) : CName → Nat → List Nat
  | [],_ => []
  | c::cs,i => i::(if b i = c then prefixReads b cs (i+1) else [])

/-- Past the prefix, if it is there. -/
def skipPrefix (b : Nat → Byte) (p : CName) (i : Nat) : Nat :=
  if (List.range p.length).map (fun j => b (i+j)) = p then i+p.length else i

/-- Where `str_eq_ci` of a name and the string from position `i` on reads the latter. -/
def strEqCiReads (b : Nat → Byte) : CName → Nat → List Nat
  | [],i => [i]
  | a::as,i =>
    i::(if b i ≠ 0#8 ∧ toLower a = toLower (b i) then strEqCiReads b as (i+1) else [])

/-- Where the loop of `vfs_find` reads the string, up to the node it finds. -/
def findReads (v : Volume) (b : Nat → Byte) (i : Nat) (found : Option NodeRef) :
    List NodeRef → List Nat
  | [] => []
  | r::rs =>
    (match v.node r with
      | none => []
      | some n => strEqCiReads b n.name i)++
    (if found = some r then [] else findReads v b i found rs)

/-- Where `vfs_find` reads the string it is given. -/
def vfsFindReads (v : Volume) (b : Nat → Byte) (found : Option NodeRef) : List Nat :=
  let dev := [ch '/',ch 'd',ch 'e',ch 'v',ch '/']
  let sda := [ch 's',ch 'd',ch 'a',ch '/']
  let i := skipPrefix b dev 0
  prefixReads b dev 0++prefixReads b sda i++findReads v b (skipPrefix b sda i) found v.nodes

/-- What a call returns in `RAX`, `none` when it does not, and the kernel after it. -/
structure SyscallResult where
  events : List MemEvent
  rax : Option (BitVec 64)
  k : Kernel
  fds : FdTable

namespace SyscallState

variable (s : SyscallState)

/-- A call that touches kernel memory only. -/
def plain (rax : BitVec 64) (k : Kernel) (fds : FdTable) : SyscallResult :=
  ⟨[.kernel],some rax,k,fds⟩

def writeCall (uptr len : BitVec 64) : SyscallResult :=
  if !s.checkUserPtr uptr len false then plain (-1#64) s.k s.fds
  else ⟨[.kernel,.stac]++writeLoop s uptr 0 len.toNat++[.clac,.kernel],some len,s.k,s.fds⟩

def readCall (env : SyscallEnv) (fd bufPtr len : BitVec 64) : SyscallResult :=
  if !s.checkUserPtr bufPtr len true then plain (-14#64) s.k s.fds
  else
    match s.fds.entry fd with
    | none => plain (-9#64) s.k s.fds
    | some (i,e) =>
      let (offs,got) := env.read e.node e.offset (len.setWidth 32)
      let (rax,fds) := sysRead s.fds i e got
      ⟨[.kernel,.stac,.kernel]++userBytes bufPtr true offs++[.clac,.kernel],some rax,s.k,fds⟩

def openCall (pathPtr : BitVec 64) : SyscallResult :=
  if !s.checkUserPtr pathPtr (BitVec.ofNat 64 vfsNameMax) false then plain (-14#64) s.k s.fds
  else
    let path := cString vfsNameMax (s.userByte pathPtr)
    let scan := userBytes pathPtr false (List.range (min (path.length+1) vfsNameMax))
    let find := userBytes pathPtr false
      (vfsFindReads s.vol (s.userByte pathPtr) (s.vol.vfsFind path))
    let (rax,fds) := sysOpen s.vol s.fds path
    ⟨[.kernel]++scan++(if path.length = vfsNameMax then [] else find++[.kernel]),some rax,s.k,fds⟩

/-- The copy of the filled-in `statbuf`, and what is returned. -/
def statCopy (before : List MemEvent) (statbufPtr : BitVec 64) : SyscallResult :=
  ⟨before++[.kernel,.stac]++userBytes statbufPtr true (List.range 144)++[.clac,.kernel],
    some 0#64,s.k,s.fds⟩

/-- A name is shorter than `VFS_NAME_MAX`, so that `vfs_find` never looks beyond these bytes. -/
def statPath (pathPtr : BitVec 64) : CName := cString (9+vfsNameMax) (s.userByte pathPtr)

def statCall (pathPtr statbufPtr : BitVec 64) : SyscallResult :=
  if !s.checkUserPtr statbufPtr 144#64 true then plain (-14#64) s.k s.fds
  else if !s.checkUserPtr pathPtr (BitVec.ofNat 64 vfsNameMax) false then plain (-14#64) s.k s.fds
  else
    let found := s.vol.vfsFind (s.statPath pathPtr)
    let find := .kernel::userBytes pathPtr false (vfsFindReads s.vol (s.userByte pathPtr) found)
    match found with
    | none => ⟨find++[.kernel],some (-2#64),s.k,s.fds⟩
    | some _ => s.statCopy find statbufPtr

def fstatCall (fd statbufPtr : BitVec 64) : SyscallResult :=
  if !s.checkUserPtr statbufPtr 144#64 true then plain (-14#64) s.k s.fds
  else
    match s.fds.entry fd with
    | none => plain (-9#64) s.k s.fds
    | some _ => s.statCopy [.kernel] statbufPtr

/-- `sched_yield` from a system call; what the other tasks do meanwhile is theirs. -/
def yieldCall (env : SyscallEnv) : SyscallResult :=
  ⟨[.kernel]++(env.resume.map MemEvent.resume).toList++[.kernel],some 0#64,s.k,s.fds⟩

/-- `syscall_dispatch` in task `t`. -/
def dispatch (env : SyscallEnv) (t : Task) (r : SyscallRegs) : SyscallResult :=
  if !s.checkUserRsp then ⟨[.kernel],none,taskExit s.k,s.fds⟩
  else
    let res : SyscallResult :=
      match r.rax.toNat with
      | 0 => s.readCall env r.rdi r.rsi r.rdx
      | 1 => s.writeCall r.rsi r.rdx
      | 2 => s.openCall r.rdi
      | 3 => let c := sysClose s.fds r.rdi; plain c.1 s.k c.2
      | 4 => s.statCall r.rdi r.rsi
      | 5 => s.fstatCall r.rdi r.rsi
      | 8 =>
        let c := sysLseek (fun n => ((s.vol.node n).map FsNode.size).getD 0) s.fds r.rdi r.rsi
          (r.rdx.setWidth 32)
        plain c.1 s.k c.2
      | 9 => let c := sysMmap s.k t r.rsi (r.r10.setWidth 32); plain c.1 c.2 s.fds
      | 10 =>
        let c := sysMprotect s.k.mach r.rdi r.rsi (r.rdx.setWidth 32)
        plain c.1 (s.k.withMach c.2) s.fds
      | 11 => let c := sysMunmap s.k.mach r.rdi r.rsi; plain c.1 (s.k.withMach c.2) s.fds
      | 12 => let c := sysBrk s.k t r.rdi; plain c.1 c.2 s.fds
      | 16 => plain (-25#64) s.k s.fds
      | 24 | 35 => s.yieldCall env
      | 60 => ⟨[.kernel],none,taskExit s.k,s.fds⟩
      | 158 => plain (if r.rdi.setWidth 32 = 0x1002#32 then 0#64 else -22#64) s.k s.fds
      | 218 => plain (t.id.setWidth 64) s.k s.fds
      | _ => plain (-38#64) s.k s.fds
    { res with events := .kernel::res.events }

end SyscallState

end KiNBOL
