import KiNBOL.Fs.Fat32

namespace KiNBOL

def taskMaxFds : Nat := 16

/-- `task_fd_t` of an entry in use. -/
structure TaskFd where
  node : NodeRef
  offset : BitVec 32
  deriving DecidableEq

/-- `fds` of a task; an entry not in use is `none`. -/
abbrev FdTable := Fin 16 → Option TaskFd

def FdTable.set (fds : FdTable) (i : Fin 16) (e : Option TaskFd) : FdTable :=
  fun j => if j = i then e else fds j

/-- The entry that `(int)fd` names, if it is in range and in use. -/
def FdTable.entry (fds : FdTable) (fd : BitVec 64) : Option (Fin 16 × TaskFd) :=
  if h : (fd.setWidth 32).toNat < taskMaxFds then
    (fds ⟨(fd.setWidth 32).toNat,h⟩).map (fun e => (⟨(fd.setWidth 32).toNat,h⟩,e))
  else none

/-- The first entry from 3 on that is not in use. -/
def FdTable.free (fds : FdTable) : Option (Fin 16) :=
  (List.finRange 16).find? (fun i => 3 ≤ i.val ∧ fds i = none)

/-- `SYS_OPEN` of a path, from the length check on. -/
def sysOpen (v : Volume) (fds : FdTable) (path : CName) : BitVec 64 × FdTable :=
  if path.length = vfsNameMax then (-36#64,fds)
  else
    match v.vfsFind path with
    | none => (-2#64,fds)
    | some node =>
      match fds.free with
      | none => (-24#64,fds)
      | some slot => (BitVec.ofNat 64 slot.val,fds.set slot (some ⟨node,0#32⟩))

def sysClose (fds : FdTable) (fd : BitVec 64) : BitVec 64 × FdTable :=
  match fds.entry fd with
  | none => (-9#64,fds)
  | some (i,_) => (0#64,fds.set i none)

/-- Where `SYS_LSEEK` goes; offsets add as `int64_t`. -/
def seekTarget (size : Nat) (e : TaskFd) (offset : BitVec 64) (whence : BitVec 32) :
    Option (BitVec 64) :=
  if whence = 0#32 then some offset
  else if whence = 1#32 then some (e.offset.setWidth 64+offset)
  else if whence = 2#32 then some (BitVec.ofNat 64 size+offset)
  else none

/-- `SYS_LSEEK`; `size` is what stands in a node. -/
def sysLseek (size : NodeRef → Nat) (fds : FdTable) (fd offset : BitVec 64) (whence : BitVec 32) :
    BitVec 64 × FdTable :=
  match fds.entry fd with
  | none => (-9#64,fds)
  | some (i,e) =>
    match seekTarget (size e.node) e offset whence with
    | none => (-22#64,fds)
    | some target =>
      if target.slt 0#64 then (-22#64,fds)
      else (target,fds.set i (some { e with offset := target.setWidth 32 }))

/-- `SYS_READ` past its checks: `got` bytes were read. -/
def sysRead (fds : FdTable) (i : Fin 16) (e : TaskFd) (got : BitVec 32) : BitVec 64 × FdTable :=
  (got.setWidth 64,fds.set i (some { e with offset := e.offset+got }))

end KiNBOL
