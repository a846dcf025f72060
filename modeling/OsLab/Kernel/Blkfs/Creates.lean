import OsLab.Kernel.Blkfs.Access

/-!
# Creating files on two CPUs (`vfs/vfs.c`, `vfs/blkfs.c`)

`open` and `mkdir` of the VFS as they run on one of two CPUs: each device access and each operation
on a spinlock is an action. `mkdir` and the lookup hold the lock of the file system throughout;
`inode_open`, which creates the file, takes no lock, and `open` has dropped `vfs_lock` around it. The
history notes when `create_filedir` reads the directory and when it has written it back.
-/

namespace OsLab.Kernel.Blkfs.Stepwise

open OsLab.Memory OsLab.Klib OsLab.Interleave

/-- The locks the calls take around their accesses of the device; `mount_list_lock` and
`file_list_lock` are taken and given back between two accesses. -/
inductive Lock where
  /-- `vfs_lock` -/
  | vfs
  /-- `info->lock` of the file system -/
  | info
  deriving DecidableEq

/-- What the history notes of `create_filedir` on a CPU: the disk whose directory it has read, and the
disk it leaves when it has written the directory. -/
inductive Event where
  | began (cpu : Bool) (d : Disk)
  | ended (cpu : Bool) (d : Disk)

def Event.cpu : Event → Bool
  | began cpu _ => cpu
  | ended cpu _ => cpu

/-- What the two CPUs share, with the history, the latest event first. -/
structure Shared where
  disk : Disk
  holder : Lock → Option Bool
  history : List Event

/-- A call on one of the CPUs. -/
abbrev Thread := Prog Shared Halt

/-- `spin_lock` -/
def spinLock (cpu : Bool) (l : Lock) : Thread Unit :=
  .act (fun s => s.holder l = none) (fun s => { s with holder := Function.update s.holder l (some cpu) })
    fun _ => .done ()

/-- `spin_unlock` -/
def spinUnlock (l : Lock) : Thread Unit :=
  .act (fun _ => true) (fun s => { s with holder := Function.update s.holder l none })
    fun _ => .done ()

/-- Accesses of the device. -/
def onDisk {α : Type} : Access α → Thread α := Prog.lift Shared.disk fun s d => { s with disk := d }

/-- An access that the history notes. -/
def noted {α : Type} (e : Disk → Event) : Access α → Thread α :=
  Prog.lift Shared.disk fun s d => { s with disk := d, history := e d :: s.history }

/-- `create_filedir` of a new inode -/
def createFiledir (cpu : Bool) (fs : Info) (dir : Inode) (type : InodeType) (name : CStr) :
    Thread Int := do
  ofExcept (kassert (dir.type = InodeType.dir.code) "dir is not a DIR")
  ofExcept (kassert (strlen name < inodeNameLen - 1) "name is too long")
  let items ← noted (.began cpu) (blockReaddata fs blockDataSize (ofInt32 dir.blockId) 0)
  match direntryFindName items name with
  | some _ => pure (-1)
  | none =>
    match direntryFindFree items with
    | none => pure (-1)
    | some ind =>
      let res ← onDisk (inodeAlloc fs type)
      onDisk (countEntry fs res)
      let items := putEntry items (sizeofDirEntry * ind) name res
      noted (.ended cpu) (blockWritedata fs items blockDataSize (ofInt32 dir.blockId) 0)
      pure res

/-- `fs_mkdir` -/
def fsMkdir (cpu : Bool) (fs : Info) (path : CStr) : Thread Int := do
  spinLock cpu .info
  let dirname := pathGetName path
  let node ← onDisk (getPathInode fs (pathGetDirectory path))
  let res ←
    if strlen dirname ≠ 0 then
      match node with
      | none => pure (-1)
      | some node =>
        if node.type = InodeType.dir.code then do
          let id ← createFiledir cpu fs node .dir dirname
          pure (resultOf id)
        else pure (-1)
    else pure (-1)
  spinUnlock .info
  pure res

/-- `fs_lookup` -/
def fsLookup (cpu : Bool) (fs : Info) (path : CStr) : Thread Handle := do
  ofExcept (kassert (charAt path 0 = slash) "path %s must start with /")
  spinLock cpu .info
  let bnode ← onDisk (getPathInode fs path)
  spinUnlock .info
  pure { path, ptr := bnode, flags := .dirExist, offset := 0 }

/-- `inode_open` creates a missing file. -/
def openCreate (cpu : Bool) (fs : Info) (f : Handle) : Thread (Int × Handle) := do
  let filename := pathGetName f.path
  if strlen filename = 0 then pure (-1, f)
  else
    match ← onDisk (getPathInode fs (pathGetDirectory f.path)) with
    | none => pure (-1, f)
    | some par =>
      let id ← createFiledir cpu fs par .file filename
      if id = -1 then pure (-1, f)
      else
        match ← onDisk (inodeGet fs (ofInt32 id)) with
        | none => .fail (.assert "inode get failed")
        | some node => pure (0, { f with ptr := some node })

/-- `inode_open` -/
def inodeOpen (cpu : Bool) (fs : Info) (f : Handle) (flags : AccessFlag) : Thread (Int × Handle) := do
  let (res, f) ← if Missing f flags then openCreate cpu fs f else pure (0, f)
  pure (openFound res f flags)

/-- `fs_close` -/
def fsClose (cpu : Bool) : Thread Unit := do
  spinLock cpu .info
  spinUnlock .info

/-- `open` of the VFS on a path of the file system: 0, for the descriptor, or -1. -/
def vfsOpen (cpu : Bool) (fs : Info) (path : CStr) (flags : AccessFlag) : Thread Int := do
  spinLock cpu .vfs
  spinUnlock .vfs
  let f ← fsLookup cpu fs path
  spinLock cpu .vfs
  spinUnlock .vfs
  let (res, _) ← inodeOpen cpu fs f flags
  spinLock cpu .vfs
  if res = 0 then
    spinUnlock .vfs
    pure 0
  else do
    spinUnlock .vfs
    fsClose cpu
    spinLock cpu .vfs
    spinUnlock .vfs
    pure (-1)

/-- `mkdir` of the VFS -/
def vfsMkdir (cpu : Bool) (fs : Info) (path : CStr) : Thread Int := do
  spinLock cpu .vfs
  spinUnlock .vfs
  let res ← fsMkdir cpu fs path
  spinLock cpu .vfs
  spinUnlock .vfs
  pure res

/-- The calls that create an entry. -/
inductive Create where
  /-- `open` to write, or to append -/
  | file (append : Bool)
  /-- `mkdir` -/
  | dir

def Create.type : Create → InodeType
  | file _ => .file
  | dir => .dir

/-- Run the call on a CPU. -/
def Create.call (cpu : Bool) (fs : Info) (path : CStr) : Create → Thread Int
  | file append => vfsOpen cpu fs path (if append then .fileAppend else .fileWrite)
  | dir => vfsMkdir cpu fs path

end OsLab.Kernel.Blkfs.Stepwise
