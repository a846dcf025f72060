import OsLab.Kernel.Blkfs.Directory
import OsLab.Kernel.Path

/-!
# The calls of blkfs (`vfs/blkfs.c`)

`fs_mkdir`, `fs_rm` and `fs_link` work on the disk alone. `fs_lookup` makes a handle, which keeps a
copy of the inode it found; `inode_open` and `inode_write` work on a handle. Each call is one
atomic step of a `State`.
-/

namespace OsLab.Kernel.Blkfs

open OsLab.Memory OsLab.Klib

/-! ## Path resolution -/

/-- The loop of `get_path_inode`. Every turn goes on with a shorter path, so that the fuel lasts. -/
def getPathInodeLoop (fs : Info) (d : Disk) : Nat → Inode → CStr → Except Halt (Option Inode)
  | 0, _, _ => .error .diverge
  | fuel + 1, bnode, cur =>
    match pathNextName cur with
    | none => .ok (some bnode)
    | some (name, nxt) => do
      let chiId ← getFiledir fs d bnode name
      if chiId = -1 then .ok none
      else
        match ← inodeGet fs d (ofInt32 chiId) with
        | none => .error (.assert "child inode %d get failed")
        | some chi =>
          match nxt with
          | none => .ok (some chi)
          | some cur => getPathInodeLoop fs d fuel chi cur

/-- `get_path_inode`: the inode of a path, `none` if there is none. -/
def getPathInode (fs : Info) (d : Disk) (path : CStr) : Except Halt (Option Inode) := do
  match ← inodeGet fs d 0 with
  | none => .error (.assert "root inode get failed")
  | some root => getPathInodeLoop fs d (path.length + 1) root path

/-! ## Calls on paths -/

/-- What `fs_mkdir` and `fs_rm` do once the parent directory is resolved: `act` on it. -/
def onParent (fs : Info) (d : Disk) (path : CStr)
    (act : Inode → CStr → Except Halt (Int × Disk)) : Except Halt (Int × Disk) := do
  let dirname := pathGetName path
  let node ← getPathInode fs d (pathGetDirectory path)
  if strlen dirname ≠ 0 then
    match node with
    | none => .ok (-1, d)
    | some node => if node.type = InodeType.dir.code then act node dirname else .ok (-1, d)
  else .ok (-1, d)

/-- The result of a call that reports an id, or -1, as success or failure. -/
def resultOf (id : Int) : Int := if id = -1 then -1 else 0

/-- `fs_mkdir` -/
def fsMkdir (fs : Info) (d : Disk) (path : CStr) : Except Halt (Int × Disk) :=
  onParent fs d path fun node dirname => do
    let (id, d) ← createFiledir fs d node .dir (-1) dirname
    .ok (resultOf id, d)

/-- `fs_rm` -/
def fsRm (fs : Info) (d : Disk) (path : CStr) : Except Halt (Int × Disk) :=
  onParent fs d path fun node dirname => do
    let d ← deleteFiledir fs d node dirname
    .ok (0, d)

/-- `fs_link` -/
def fsLink (fs : Info) (d : Disk) (oldpath newpath : CStr) : Except Halt (Int × Disk) := do
  match ← getPathInode fs d oldpath with
  | none => .ok (-1, d)
  | some old =>
    match ← getPathInode fs d (pathGetDirectory newpath) with
    | none => .ok (-1, d)
    | some newdir =>
      let (id, d) ← createFiledir fs d newdir .link old.id (pathGetName newpath)
      .ok (resultOf id, d)

/-- `fs_readdir`: the empty list is `NULL`. -/
def fsReaddir (fs : Info) (d : Disk) (path : CStr) : Except Halt (List Item) := do
  match ← getPathInode fs d path with
  | none => .ok []
  | some node => listDir fs d node

/-! ## Handles -/

/-- `enum access_flag`; `other` is any other value. -/
inductive AccessFlag where
  | dirExist
  | fileExist
  | fileRead
  | fileWrite
  | fileAppend
  | other
  deriving DecidableEq

/-- A `file` with its `inode`: `ptr` is the private copy of the inode on the disk. -/
structure Handle where
  path : CStr
  ptr : Option Inode
  flags : AccessFlag
  offset : Nat
  deriving DecidableEq

/-- `fs_lookup`, in a cleared `file` -/
def fsLookup (fs : Info) (d : Disk) (path : CStr) : Except Halt Handle := do
  kassert (charAt path 0 = slash) "path %s must start with /"
  let bnode ← getPathInode fs d path
  .ok { path, ptr := bnode, flags := .dirExist, offset := 0 }

/-- `inode_access` -/
def inodeAccess (f : Handle) (flags : AccessFlag) : Int :=
  match f.ptr with
  | none => -1
  | some node =>
    match flags with
    | .dirExist => if node.type = InodeType.dir.code then 0 else -1
    | .other => -1
    | _ => if node.type = InodeType.file.code then 0 else -1

/-- `inode_open` creates a missing file. -/
def openCreate (fs : Info) (d : Disk) (f : Handle) : Except Halt (Int × Handle × Disk) := do
  let filename := pathGetName f.path
  if strlen filename = 0 then .ok (-1, f, d)
  else
    match ← getPathInode fs d (pathGetDirectory f.path) with
    | none => .ok (-1, f, d)
    | some par =>
      let (id, d) ← createFiledir fs d par .file (-1) filename
      if id = -1 then .ok (-1, f, d)
      else
        match ← inodeGet fs d (ofInt32 id) with
        | none => .error (.assert "inode get failed")
        | some node => .ok (0, { f with ptr := some node }, d)

/-- `inode_open` has to create the file. -/
def Missing (f : Handle) (flags : AccessFlag) : Prop :=
  f.ptr = none ∧ (flags = .fileWrite ∨ flags = .fileAppend)

instance (f : Handle) (flags : AccessFlag) : Decidable (Missing f flags) :=
  inferInstanceAs (Decidable (_ ∧ _))

/-- `inode_open` on an inode that is there: the result and the handle. -/
def openFound (res : Int) (f : Handle) (flags : AccessFlag) : Int × Handle :=
  if res = -1 ∨ inodeAccess f flags = -1 then (-1, f)
  else
    match flags with
    | .dirExist => (-1, f)
    | .fileRead => (res, { f with flags := flags, offset := 0 })
    | .fileWrite => (res, { f with flags := flags, offset := 0 })
    | .fileAppend =>
      (res, { f with flags := .fileWrite, offset := f.ptr.elim 0 fun node => node.size })
    | _ => (res, f)

/-- `inode_open` -/
def inodeOpen (fs : Info) (d : Disk) (f : Handle) (flags : AccessFlag) :
    Except Halt (Int × Handle × Disk) := do
  let (res, f, d) ← if Missing f flags then openCreate fs d f else .ok (0, f, d)
  let (res, f) := openFound res f flags
  .ok (res, f, d)

/-- The room `inode_write` computes for `size` bytes at an offset, a `size_t`. -/
def writeCount (offset size : Nat) : Nat :=
  let rem := ofInt32 (blockDataSize - offset)
  if size > rem then rem else size

/-- `inode_write` stores the size of a grown file with the rest of its copy. -/
def storeSize (fs : Info) (d : Disk) (f : Handle) (node : Inode) : Except Halt (Handle × Disk) :=
  if f.offset > node.size then do
    let node := { node with size := f.offset % 2 ^ 32 }
    let d ← inodeSet fs d (ofInt32 node.id) node
    .ok ({ f with ptr := some node }, d)
  else .ok (f, d)

/-- `inode_write` -/
def inodeWrite (fs : Info) (d : Disk) (f : Handle) (buf : Mem) (size : Nat) :
    Except Halt (Int × Handle × Disk) := do
  if f.flags ≠ .fileWrite then .ok (-1, f, d)
  else
    match f.ptr with
    | none => .ok (-1, f, d)
    | some node =>
      kassert (node.blockId ≠ -1) "The inode do not have block"
      let count := writeCount f.offset size
      let d ← blockWritedata fs d buf count (ofInt32 node.blockId) (f.offset % 2 ^ 32)
      let f := { f with offset := (f.offset + count) % 2 ^ 64 }
      let (f, d) ← storeSize fs d f node
      .ok (count, f, d)

/-! ## The system -/

/-- The disk and the handles made so far. -/
structure State where
  disk : Disk
  handles : List Handle

/-- A call; handles are named by their number. -/
inductive Call where
  | mkdir (path : CStr)
  | rm (path : CStr)
  | link (oldpath newpath : CStr)
  | lookup (path : CStr)
  | open (handle : Nat) (flags : AccessFlag)
  | write (handle : Nat) (buf : Mem) (size : UInt32)

/-- Run a call: the value it returns and the state it leaves. -/
def exec (fs : Info) (s : State) : Call → Except Halt (Int × State)
  | .mkdir path => do
    let (res, d) ← fsMkdir fs s.disk path
    .ok (res, { s with disk := d })
  | .rm path => do
    let (res, d) ← fsRm fs s.disk path
    .ok (res, { s with disk := d })
  | .link oldpath newpath => do
    let (res, d) ← fsLink fs s.disk oldpath newpath
    .ok (res, { s with disk := d })
  | .lookup path => do
    let f ← fsLookup fs s.disk path
    .ok (0, { s with handles := s.handles ++ [f] })
  | .open h flags =>
    match s.handles[h]? with
    | none => .ok (-1, s)
    | some f => do
      let (res, f, d) ← inodeOpen fs s.disk f flags
      .ok (res, { disk := d, handles := s.handles.set h f })
  | .write h buf size =>
    match s.handles[h]? with
    | none => .ok (-1, s)
    | some f => do
      let (res, f, d) ← inodeWrite fs s.disk f buf size.toNat
      .ok (res, { disk := d, handles := s.handles.set h f })

section Exec

variable {fs : Info} {s : State} {path : CStr} {res : Int} {d' : Disk}

theorem exec_mkdir (call : fsMkdir fs s.disk path = .ok (res, d')) :
    exec fs s (.mkdir path) = .ok (res, { s with disk := d' }) := by
  unfold exec
  dsimp only
  rw [call]
  rfl

theorem exec_rm (call : fsRm fs s.disk path = .ok (res, d')) :
    exec fs s (.rm path) = .ok (res, { s with disk := d' }) := by
  unfold exec
  dsimp only
  rw [call]
  rfl

end Exec

end OsLab.Kernel.Blkfs
