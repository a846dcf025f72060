import OsLab.Kernel.Blkfs.Calls
import OsLab.Kernel.Vfs.Mounts
import OsLab.Lib.Triples
import Mathlib.Data.Finset.Basic

/-!
# The virtual file system (`vfs/vfs.c`)

The calls of the VFS as the calling processor runs them. Its state has the spinlocks it holds, the
mount list, the list of open files, the current task, and a `World` that the operations of the
filesystems work on. The operations are parameters: they may do to the state what they like, which
also covers what other processors do while `vfs_lock` is dropped.

`alloc` returns cleared memory or halts. `None` is a `NULL` argument.
-/

namespace OsLab.Kernel.Vfs

open OsLab.Klib OsLab.Triples
open OsLab.Kernel.Blkfs (AccessFlag Item ItemType)

/-- The spinlocks of the VFS. -/
inductive Lock where
  | vfs
  | mountList
  | fileList
  deriving DecidableEq

/-- `N_FILE` -/
def nFile : Nat := 16

/-- `struct _file`; `Node` is its inode. -/
structure File (Node : Type) where
  refcnt : Int
  flags : AccessFlag
  inode : Node
  offset : Nat

/-- The open files of a task, by their addresses. -/
structure Task where
  fildes : Nat → Option Nat

/-- What a processor in the VFS works on. -/
structure State (FS Node World : Type) where
  /-- The spinlocks it holds. -/
  held : Finset Lock
  /-- `mountlist_head` -/
  mounts : List (Mount FS)
  /-- `filelist_head` -/
  files : List Nat
  /-- The allocated `file`s and the next address. -/
  file : Nat → Option (File Node)
  next : Nat
  /-- The task of the processor. -/
  current : Option Task
  world : World

/-- A function of the kernel that may halt. -/
abbrev M (FS Node World : Type) := StateT (State FS Node World) (Except Halt)

/-- The operations of the filesystems (`fsops`) and of their inodes (`inodeops`). -/
structure Ops (FS Node World : Type) where
  /-- `inode->fs` -/
  fs : Node → FS
  /-- The byte in memory before a path. -/
  before : CStr → UInt8
  lookup : FS → CStr → AccessFlag → M FS Node World (Option Node)
  closeInode : FS → Node → M FS Node World Int
  mkdir : FS → CStr → M FS Node World Int
  rm : FS → CStr → M FS Node World Int
  link : FS → CStr → CStr → M FS Node World Int
  readdir : FS → CStr → M FS Node World (List Item)
  /-- The operations of inodes take the address of the file. -/
  access : Nat → AccessFlag → M FS Node World Int
  «open» : Nat → AccessFlag → M FS Node World Int
  close : Nat → M FS Node World Int
  read : Nat → Nat → Nat → M FS Node World Int
  write : Nat → Nat → Nat → M FS Node World Int
  lseek : Nat → Int → Int → M FS Node World Int

section Model

variable {FS Node World : Type}

/-- `Assert` -/
def assert (p : Prop) [Decidable p] (msg : String) : M FS Node World Unit :=
  if p then pure () else throw (.assert msg)

/-- `NULL` is read through. -/
def deref {α : Type} : Option α → M FS Node World α
  | none => throw .nullDeref
  | some a => pure a

/-- `spin_lock`, once the lock is free. -/
def spinLock (l : Lock) : M FS Node World Unit := do
  let held ← gets State.held
  if l ∈ held then throw (.assert "acquire %s when holding from %s on cpu %d")
  else modify fun s => { s with held := insert l s.held }

/-- `spin_unlock` -/
def spinUnlock (l : Lock) : M FS Node World Unit := do
  let held ← gets State.held
  if l ∈ held then modify fun s => { s with held := s.held.erase l }
  else throw (.assert "release %s when not holding")

/-- `current_task` -/
def currentTask : M FS Node World Task := do
  match ← gets State.current with
  | none => throw (.assert "task node is NULL")
  | some tk => pure tk

/-- The `file` at an address. -/
def fileAt (tf : Nat) : M FS Node World (File Node) := do
  deref (← gets fun s => s.file tf)

/-- `pmm->alloc(sizeof(file))` with `tf->inode = node`. -/
def allocFile (node : Node) : M FS Node World Nat := do
  let tf ← gets State.next
  modify fun s => { s with
    file := Function.update s.file tf (some ⟨0, .dirExist, node, 0⟩), next := s.next + 1 }
  pure tf

/-- `pmm->free` of a `file` -/
def freeFile (tf : Nat) : M FS Node World Unit :=
  modify fun s => { s with file := Function.update s.file tf none }

/-! ## The mount list -/

/-- `mount_list_find`: the place of the first mount with the path. -/
def mountListFind (path : Option CStr) : M FS Node World (Option Nat) := do
  match path with
  | none => pure none
  | some path =>
    spinLock .mountList
    let mounts ← gets State.mounts
    let cur := mounts.findIdx? fun cur => streq path cur.path
    spinUnlock .mountList
    pure cur

/-- The path with a slash at its end that `mount_list_readdir` compares directories with. -/
def targetDir (path : CStr) : CStr :=
  if lastChar path = slash then path else path ++ [slash]

/-- The loop body of `mount_list_readdir`: a mount in the directory goes to the head of the list. -/
def listMount (path : CStr) (head : List Item) (cur : Mount FS) : List Item :=
  if streq (targetDir path) (pathGetDirectory cur.path) then
    let name := pathGetName cur.path
    if strlen name = 0 then head else ⟨name, .dir⟩ :: head
  else head

/-- `mount_list_readdir` -/
def mountListReaddir (path : Option CStr) : M FS Node World (List Item) := do
  match path with
  | none => throw (.assert "path is NULL")
  | some path =>
    spinLock .mountList
    let mounts ← gets State.mounts
    let head := mounts.foldl (listMount path) []
    spinUnlock .mountList
    pure head

/-- `mount_list_append` -/
def mountListAppend (path : Option CStr) (fs : FS) : M FS Node World Unit := do
  match path with
  | none => throw (.assert "append mount.path is NULL")
  | some name =>
    let cur ← mountListFind path
    assert (cur = none) "The mount path %s exists."
    spinLock .mountList
    modify fun s => { s with mounts := ⟨name, fs⟩ :: s.mounts }
    spinUnlock .mountList

/-- `mount_list_remove` -/
def mountListRemove (path : Option CStr) : M FS Node World Unit := do
  match path with
  | none => pure ()
  | some _ =>
    match ← mountListFind path with
    | none => pure ()
    | some cur =>
      spinLock .mountList
      modify fun s => { s with mounts := s.mounts.eraseIdx cur }
      spinUnlock .mountList

/-- `get_mount_fs` with its lock: the mount and the subpath. -/
def getMountFsLocked (ops : Ops FS Node World) (path : Option CStr) :
    M FS Node World (Option (Mount FS) × CStr) := do
  match path with
  | none => throw (.assert "query path is NULL")
  | some path =>
    spinLock .mountList
    let mounts ← gets State.mounts
    let (res, subpath) := getMountFs (ops.before path) mounts path
    spinUnlock .mountList
    pure (res, subpath.chars (ops.before path) path)

/-! ## The open files -/

/-- `file_list_append` -/
def fileListAppend (tf : Nat) : M FS Node World Unit := do
  spinLock .fileList
  modify fun s => { s with files := tf :: s.files }
  spinUnlock .fileList

/-- `file_list_remove` -/
def fileListRemove (tf : Nat) : M FS Node World Unit := do
  let files ← gets State.files
  match files.findIdx? fun cur => cur = tf with
  | none => pure ()
  | some cur =>
    spinLock .fileList
    modify fun s => { s with files := s.files.eraseIdx cur }
    spinUnlock .fileList

/-- `find_filde_index` for `NULL`: the first descriptor not in use. -/
def findFildeIndex (tk : Task) : Option Nat :=
  (List.range nFile).find? fun i => (tk.fildes i).isNone

/-- `get_file`; the file of a descriptor. -/
def getFile (fd : Int) : M FS Node World (Option Nat) := do
  let tk ← currentTask
  if 0 ≤ fd ∧ fd < nFile then pure (tk.fildes fd.toNat) else throw .outside

/-- `current_task()->fildes[fd] = tf` -/
def setFilde (fd : Nat) (tf : Option Nat) : M FS Node World Unit := do
  let tk ← currentTask
  modify fun s => { s with current := some ⟨Function.update tk.fildes fd tf⟩ }

/-! ## The calls -/

section Calls

variable (ops : Ops FS Node World)

/-- `access` -/
def access (path : Option CStr) (flags : AccessFlag) : M FS Node World Int := do
  let _ ← currentTask
  spinLock .vfs
  let (mn, subpath) ← getMountFsLocked ops path
  match mn with
  | none =>
    spinUnlock .vfs
    pure (-1)
  | some mn =>
    spinUnlock .vfs
    let node ← ops.lookup mn.fs subpath flags
    spinLock .vfs
    match node with
    | none =>
      spinUnlock .vfs
      pure (-1)
    | some node =>
      let tf ← allocFile node
      spinUnlock .vfs
      let res ← ops.access tf flags
      let closed ← ops.closeInode (ops.fs node) node
      assert (closed = 0) "FS close inode failed"
      spinLock .vfs
      freeFile tf
      spinUnlock .vfs
      pure res

/-- `mount` -/
def mount (path : Option CStr) (fs : Option FS) : M FS Node World Int := do
  match fs with
  | none => throw (.assert "Mount fs is NULL")
  | some fs =>
    spinLock .vfs
    let cur ← mountListFind path
    let res ← match cur with
      | none => do
        mountListAppend path fs
        pure 0
      | some _ => pure (-1)
    spinUnlock .vfs
    pure res

/-- `unmount` -/
def unmount (path : Option CStr) : M FS Node World Int := do
  spinLock .vfs
  mountListRemove path
  spinUnlock .vfs
  pure 0

/-- What `mkdir` and `rm` share: `act` on the filesystem of a path. -/
def onMount (path : Option CStr) (act : FS → CStr → M FS Node World Int) : M FS Node World Int := do
  let _ ← currentTask
  spinLock .vfs
  let (mn, subpath) ← getMountFsLocked ops path
  match mn with
  | none =>
    spinUnlock .vfs
    pure (-1)
  | some mn =>
    spinUnlock .vfs
    let res ← act mn.fs subpath
    spinLock .vfs
    spinUnlock .vfs
    pure res

/-- `mkdir` -/
def mkdir (path : Option CStr) : M FS Node World Int := onMount ops path ops.mkdir

/-- `rm` -/
def rm (path : Option CStr) : M FS Node World Int := onMount ops path ops.rm

/-- `link`. Of two mounts with one path `get_mount_fs` only ever finds the first, so that two nodes of
the list are the same if their paths are. -/
def link (oldpath newpath : Option CStr) : M FS Node World Int := do
  let _ ← currentTask
  spinLock .vfs
  let (mn, oldSubpath) ← getMountFsLocked ops oldpath
  let (tmn, newSubpath) ← getMountFsLocked ops newpath
  if mn.map Mount.path ≠ tmn.map Mount.path then
    -- the warning prints both mount paths; `vfs_lock` is not released
    let _ ← deref mn
    let _ ← deref tmn
    pure (-1)
  else
    match mn with
    | none =>
      spinUnlock .vfs
      pure (-1)
    | some mn =>
      spinUnlock .vfs
      let res ← ops.link mn.fs oldSubpath newSubpath
      spinLock .vfs
      spinUnlock .vfs
      pure res

/-- What `open` does with a file after the operation: `empty_fd` or -1. -/
def openFile (node : Node) (tf emptyFd : Nat) (res : Int) : M FS Node World Int := do
  let f ← fileAt tf
  modify fun s => { s with file := Function.update s.file tf (some { f with refcnt := 0 }) }
  if res = 0 then
    fileListAppend tf
    setFilde emptyFd (some tf)
  else
    spinUnlock .vfs
    let closed ← ops.closeInode (ops.fs node) node
    assert (closed = 0) "FS close inode failed"
    spinLock .vfs
    freeFile tf
  spinUnlock .vfs
  pure (if res = 0 then (emptyFd : Int) else -1)

/-- `open` -/
def «open» (path : Option CStr) (flags : AccessFlag) : M FS Node World Int := do
  let _ ← currentTask
  spinLock .vfs
  match findFildeIndex (← currentTask) with
  | none =>
    spinUnlock .vfs
    pure (-1)
  | some emptyFd =>
    let (mn, subpath) ← getMountFsLocked ops path
    match mn with
    | none =>
      spinUnlock .vfs
      pure (-1)
    | some mn =>
      spinUnlock .vfs
      let node ← ops.lookup mn.fs subpath flags
      spinLock .vfs
      match node with
      | none =>
        spinUnlock .vfs
        pure (-1)
      | some node =>
        let tf ← allocFile node
        spinUnlock .vfs
        let res ← ops.open tf flags
        spinLock .vfs
        openFile ops node tf emptyFd res

/-- What `read`, `write` and `lseek` share: `act` on the file of a descriptor. -/
def onFile (fd : Int) (act : Nat → M FS Node World Int) : M FS Node World Int := do
  let _ ← currentTask
  spinLock .vfs
  match ← getFile fd with
  | none => throw (.assert "fd %d not found")
  | some tf =>
    spinUnlock .vfs
    let _ ← fileAt tf
    let res ← act tf
    spinLock .vfs
    spinUnlock .vfs
    pure res

/-- `read`; `buf` is the address of the buffer. -/
def read (fd : Int) (buf nbyte : Nat) : M FS Node World Int :=
  onFile fd fun tf => ops.read tf buf nbyte

/-- `write` -/
def write (fd : Int) (buf nbyte : Nat) : M FS Node World Int :=
  onFile fd fun tf => ops.write tf buf nbyte

/-- `lseek` -/
def lseek (fd : Int) (offset whence : Int) : M FS Node World Int :=
  onFile fd fun tf => ops.lseek tf offset whence

/-- `readdir` -/
def readdir (path : Option CStr) : M FS Node World (List Item) := do
  let _ ← currentTask
  spinLock .vfs
  let res ← mountListReaddir path
  let (mn, subpath) ← getMountFsLocked ops path
  match mn with
  | none =>
    spinUnlock .vfs
    pure res
  | some mn =>
    spinUnlock .vfs
    let subfs ← ops.readdir mn.fs subpath
    spinLock .vfs
    spinUnlock .vfs
    pure (res ++ subfs)

/-- `close` -/
def close (fd : Int) : M FS Node World Int := do
  let _ ← currentTask
  spinLock .vfs
  match ← getFile fd with
  | none => throw (.assert "fd %d not found")
  | some tf =>
    let fs := ops.fs (← fileAt tf).inode
    spinUnlock .vfs
    let res ← ops.close tf
    spinLock .vfs
    if res = 0 then
      spinUnlock .vfs
      let closed ← ops.closeInode fs (← fileAt tf).inode
      assert (closed = 0) "FS close inode failed"
      spinLock .vfs
      fileListRemove tf
      setFilde fd.toNat none
    spinUnlock .vfs
    pure res

end Calls

/-- A call of the VFS. -/
inductive Call (FS : Type) where
  | access (path : Option CStr) (flags : AccessFlag)
  | mount (path : Option CStr) (fs : Option FS)
  | unmount (path : Option CStr)
  | mkdir (path : Option CStr)
  | rm (path : Option CStr)
  | link (oldpath newpath : Option CStr)
  | open (path : Option CStr) (flags : AccessFlag)
  | read (fd : Int) (buf nbyte : Nat)
  | write (fd : Int) (buf nbyte : Nat)
  | lseek (fd : Int) (offset whence : Int)
  | readdir (path : Option CStr)
  | close (fd : Int)

/-- What a call returns: a number or a list. -/
inductive Result where
  | int (res : Int)
  | list (res : List Item)

/-- Run a call. -/
def Call.run (ops : Ops FS Node World) : Call FS → M FS Node World Result
  | .access path flags => Result.int <$> Vfs.access ops path flags
  | .mount path fs => Result.int <$> Vfs.mount path fs
  | .unmount path => Result.int <$> Vfs.unmount path
  | .mkdir path => Result.int <$> Vfs.mkdir ops path
  | .rm path => Result.int <$> Vfs.rm ops path
  | .link oldpath newpath => Result.int <$> Vfs.link ops oldpath newpath
  | .open path flags => Result.int <$> Vfs.open ops path flags
  | .read fd buf nbyte => Result.int <$> Vfs.read ops fd buf nbyte
  | .write fd buf nbyte => Result.int <$> Vfs.write ops fd buf nbyte
  | .lseek fd offset whence => Result.int <$> Vfs.lseek ops fd offset whence
  | .readdir path => Result.list <$> Vfs.readdir ops path
  | .close fd => Result.int <$> Vfs.close ops fd

end Model

end OsLab.Kernel.Vfs
