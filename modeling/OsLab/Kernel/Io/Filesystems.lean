import OsLab.Kernel.Io.Stream
import OsLab.Kernel.Blkfs.Files
import OsLab.Kernel.Vfs.Descriptors
import OsLab.Lib.Decimal

/-!
# The mounted filesystems

The operations the VFS finds in the filesystems: those of blkfs on its disk, those of procfs
(`procfs.c`), and those of devfs, which are a parameter as they depend on the devices. An `inode` of
the VFS and its `file` make up what blkfs sees as a `Handle`. The lock of a blkfs is free between the
calls.
-/

namespace OsLab.Kernel.Io

open OsLab.Klib OsLab.Memory OsLab.Triples
open OsLab.Kernel.Blkfs (Disk Info Inode Handle AccessFlag Item cstrAt)
open OsLab.Kernel.Vfs (M fileAt deref)
open OsLab.Decimal (decimal)

/-- `filesystem`: a blkfs by the number of its disk, procfs, or devfs. -/
inductive Filesystem where
  | blkfs (disk : Nat)
  | procfs
  | devfs
  deriving DecidableEq

/-- `inode`; `ptr` is that of a blkfs, `info` the `ptr` of a procfs. -/
structure Node where
  fs : Filesystem
  path : CStr
  ptr : Option Inode
  info : Option Nat

/-- The state of the kernel a shell runs in. -/
abbrev Sys := Vfs.State Filesystem Node World

/-- A function of the kernel. -/
abbrev SysM := M Filesystem Node World

/-- What the kernel was started with: the sizes of the disks, `_ncpu()` and devfs. -/
structure Machine where
  info : Nat → Info
  ncpu : Nat
  rest : Vfs.Ops Filesystem Node World

/-- The state with another disk of a number. -/
def withDisk (s : Sys) (n : Nat) (d : Disk) : Sys :=
  { s with world := { s.world with disk := Function.update s.world.disk n d } }

/-- Run a call of blkfs on its disk. -/
def onDisk {α : Type} (n : Nat) (act : Disk → Except Halt (α × Disk)) : SysM α := do
  let d ← gets fun s => s.world.disk n
  let (res, d) ← lifted (act d)
  modify fun s => withDisk s n d
  pure res

/-- A `file` as blkfs sees it. -/
def handleOf (f : Vfs.File Node) : Handle where
  path := f.inode.path
  ptr := f.inode.ptr
  flags := f.flags
  offset := f.offset

/-- What blkfs leaves in a `file`. -/
def putHandle (f : Vfs.File Node) (h : Handle) : Vfs.File Node :=
  { f with flags := h.flags, inode := { f.inode with ptr := h.ptr }, offset := h.offset }

/-- `*f = …` -/
def setFile (tf : Nat) (f : Vfs.File Node) : SysM Unit :=
  modify fun s => { s with file := Function.update s.file tf (some f) }

/-- `fs_lookup` of blkfs -/
def lookup (fs : Info) (n : Nat) (path : CStr) : SysM (Option Node) := do
  let d ← gets fun s => s.world.disk n
  let f ← lifted (Blkfs.fsLookup fs d path)
  pure (some ⟨.blkfs n, f.path, f.ptr, none⟩)

/-- `inode_open` of blkfs -/
def inodeOpen (fs : Info) (n tf : Nat) (f : Vfs.File Node) (flags : AccessFlag) : SysM Int := do
  let (res, h) ← onDisk n fun d => do
    let (res, h, d) ← Blkfs.inodeOpen fs d (handleOf f) flags
    .ok ((res, h), d)
  setFile tf (putHandle f h)
  pure res

/-- `inode_close` of blkfs -/
def inodeClose (f : Vfs.File Node) : Int :=
  match f.inode.ptr with
  | none => -1
  | some _ => 0

/-- `inode_read` of blkfs -/
def inodeRead (fs : Info) (n tf : Nat) (f : Vfs.File Node) (buf size : Nat) : SysM Int := do
  let d ← gets fun s => s.world.disk n
  let (res, bs, h) ← lifted (Blkfs.inodeRead fs d (handleOf f) size)
  modify fun s => { s with
    world := { s.world with mem := store s.world.mem buf bs.length fun i => bs.getD i 0 } }
  setFile tf (putHandle f h)
  pure res

/-- `inode_write` of blkfs -/
def inodeWrite (fs : Info) (n tf : Nat) (f : Vfs.File Node) (buf size : Nat) : SysM Int := do
  let m ← gets fun s => s.world.mem
  let (res, h) ← onDisk n fun d => do
    let (res, h, d) ← Blkfs.inodeWrite fs d (handleOf f) (fun i => m (buf + i)) size
    .ok ((res, h), d)
  setFile tf (putHandle f h)
  pure res

/-- `inode_lseek` of blkfs -/
def inodeLseek (tf : Nat) (f : Vfs.File Node) (offset : Int) : SysM Int := do
  let (res, h) := Blkfs.inodeLseek (handleOf f) (Int32.ofInt offset)
  setFile tf (putHandle f h)
  pure res

/-! ## `procfs.c` -/

namespace Procfs

/-- The `task_info` at an address. -/
def infoAt (tki : Option Nat) : SysM TaskInfo := do
  let tki ← deref tki
  deref (← gets fun s => s.world.info tki)

/-- `*tki = …` -/
def setInfo (tki : Nat) (info : Option TaskInfo) : SysM Unit :=
  modify fun s => { s with world := { s.world with info := Function.update s.world.info tki info } }

/-- A node of procfs with a new `task_info`. -/
def newInfo (path : CStr) (type : TaskInfoType) (obj : Option TaskEntry) : SysM (Option Node) := do
  let tki ← gets fun s => s.world.nextInfo
  setInfo tki (some ⟨type, false, obj, [], 0⟩)
  modify fun s => { s with world := { s.world with nextInfo := tki + 1 } }
  pure (some ⟨.procfs, path, none, some tki⟩)

/-- `fs_lookup` -/
def lookup (path : CStr) : SysM (Option Node) := do
  Vfs.assert (charAt path 0 = slash) "path %s must start with /"
  if strlen path = 1 then pure (some ⟨.procfs, path, none, none⟩)
  else
    let tpath := path.drop 1
    if streq tpath (text "cpuinfo") then newInfo path .cpuInfo none
    else if streq tpath (text "meminfo") then newInfo path .memInfo none
    else
      let tasks ← gets fun s => s.world.tasks
      match tasks.find? fun cur => streq cur.name tpath with
      | none => pure none
      | some tk => newInfo path .taskInfo (some tk)

/-- `fs_close` -/
def closeInode (node : Node) : SysM Int := do
  match node.info with
  | none => pure 0
  | some tki =>
    setInfo tki none
    pure 0

/-- `fs_readdir` -/
def readdir (path : CStr) : SysM (List Item) := do
  if streq path [slash] then
    let tasks ← gets fun s => s.world.tasks
    let head := tasks.foldl (fun head cur => ⟨cur.name, .file⟩ :: head) []
    pure (⟨text "meminfo", .file⟩ :: ⟨text "cpuinfo", .file⟩ :: head)
  else pure []

/-- `inode_access` -/
def inodeAccess (f : Vfs.File Node) : AccessFlag → Int
  | .dirExist => if f.inode.info = none then 0 else -1
  | .fileExist | .fileRead => if f.inode.info = none then -1 else 0
  | .fileWrite | .fileAppend | .other => -1

/-- The text of a file, which `inode_open` prints into 128 bytes. -/
def contentOf (ncpu : Nat) (tki : TaskInfo) : SysM CStr :=
  match tki.type, tki.obj with
  | .cpuInfo, _ => pure (text "Number of CPU: " ++ decimal ncpu ++ text "\n")
  | .memInfo, _ => pure (text "Memory informention: demo.\n")
  | .taskInfo, none => throw (.assert "No task ptr for task_info")
  | .taskInfo, some tk => pure (text "Tid: " ++ decimal tk.tid ++ text "\nName: " ++ tk.name ++
      text "\nCPU: " ++ decimal tk.cpu ++ text "\n")

/-- `inode_open` -/
def inodeOpen (ncpu tf : Nat) (f : Vfs.File Node) (flags : AccessFlag) : SysM Int := do
  if inodeAccess f flags = -1 then pure (-1)
  else if flags = .dirExist then pure (-1)
  else
    let tki ← infoAt f.inode.info
    if tki.hasOpened then pure (-1)
    else
      let content ← contentOf ncpu tki
      if 128 ≤ strlen content then throw .outside
      else
        setInfo (f.inode.info.getD 0) (some { tki with content, size := strlen content, hasOpened := true })
        setFile tf { f with flags, offset := 0 }
        pure 0

/-- `inode_close` -/
def inodeClose (f : Vfs.File Node) : SysM Int := do
  match f.inode.info with
  | none => pure 0
  | some addr =>
    let tki ← infoAt (some addr)
    if tki.hasOpened = false then pure (-1)
    else
      setInfo addr (some { tki with content := [], size := 0, hasOpened := false })
      pure 0

/-- `strncpy` into memory, for an `n` of at most `strlen(src)`: `inode_read` gives it no more than is left of the text, so
that no NUL goes behind a source that is shorter. -/
def strncpy (m : Mem) (dst : Nat) (src : CStr) (n : Nat) : Mem :=
  if n = 0 then store m dst 1 fun _ => 0 else store m dst n fun i => charAt src i

/-- `strlen` in memory. -/
def strlenAt (m : Mem) (a : Nat) : Nat := strlen (cstrAt m a (2 ^ 32))

/-- `inode_read` -/
def inodeRead (tf : Nat) (f : Vfs.File Node) (buf size : Nat) : SysM Int := do
  if f.flags ≠ .fileRead then pure (-1)
  else
    let tki ← infoAt f.inode.info
    if tki.hasOpened = false then pure (-1)
    else
      Vfs.assert (f.offset ≤ tki.size) "Offset too large: max %d but %d"
      let rem := tki.size - f.offset
      modify fun s => { s with world := { s.world with
        mem := strncpy s.world.mem buf (tki.content.drop f.offset) (if rem > size then size else rem) } }
      let res ← gets fun s => strlenAt s.world.mem buf
      setFile tf { f with offset := f.offset + res }
      pure res

/-- `inode_lseek` -/
def inodeLseek (tf : Nat) (f : Vfs.File Node) (offset : Int) : SysM Int := do
  if f.flags ≠ .fileRead then pure (-1)
  else
    let tki ← infoAt f.inode.info
    if tki.hasOpened = false then pure (-1)
    else
      -- the comparison is unsigned
      let target := if ofInt32 offset > tki.size then tki.size else ofInt32 offset
      setFile tf { f with offset := target }
      pure target

end Procfs

/-- The operations of the filesystems. procfs and devfs make, remove and link nothing. -/
def Machine.ops (mach : Machine) : Vfs.Ops Filesystem Node World where
  fs := Node.fs
  before := mach.rest.before
  lookup
    | .blkfs n, path, _ => lookup (mach.info n) n path
    | .procfs, path, _ => Procfs.lookup path
    | .devfs, path, flags => mach.rest.lookup .devfs path flags
  closeInode
    | .blkfs _, _ => pure 0
    | .procfs, node => Procfs.closeInode node
    | .devfs, node => mach.rest.closeInode .devfs node
  mkdir
    | .blkfs n, path => onDisk n fun d => Blkfs.fsMkdir (mach.info n) d path
    | .procfs, _ | .devfs, _ => pure (-1)
  rm
    | .blkfs n, path => onDisk n fun d => Blkfs.fsRm (mach.info n) d path
    | .procfs, _ | .devfs, _ => pure (-1)
  link
    | .blkfs n, oldpath, newpath =>
      onDisk n fun d => Blkfs.fsLink (mach.info n) d oldpath newpath
    | .procfs, _, _ | .devfs, _, _ => pure (-1)
  readdir
    | .blkfs n, path => onDisk n fun d => do
      let items ← Blkfs.fsReaddir (mach.info n) d path
      .ok (items, d)
    | .procfs, path => Procfs.readdir path
    | .devfs, path => mach.rest.readdir .devfs path
  access tf flags := do
    let f ← fileAt tf
    match f.inode.fs with
    | .blkfs _ => pure (Blkfs.inodeAccess (handleOf f) flags)
    | .procfs => pure (Procfs.inodeAccess f flags)
    | .devfs => mach.rest.access tf flags
  «open» tf flags := do
    let f ← fileAt tf
    match f.inode.fs with
    | .blkfs n => inodeOpen (mach.info n) n tf f flags
    | .procfs => Procfs.inodeOpen mach.ncpu tf f flags
    | .devfs => mach.rest.open tf flags
  close tf := do
    let f ← fileAt tf
    match f.inode.fs with
    | .blkfs _ => pure (inodeClose f)
    | .procfs => Procfs.inodeClose f
    | .devfs => mach.rest.close tf
  read tf buf size := do
    let f ← fileAt tf
    match f.inode.fs with
    | .blkfs n => inodeRead (mach.info n) n tf f buf size
    | .procfs => Procfs.inodeRead tf f buf size
    | .devfs => mach.rest.read tf buf size
  write tf buf size := do
    let f ← fileAt tf
    match f.inode.fs with
    | .blkfs n => inodeWrite (mach.info n) n tf f buf size
    | .procfs => pure (-1)
    | .devfs => mach.rest.write tf buf size
  lseek tf offset whence := do
    let f ← fileAt tf
    match f.inode.fs with
    | .blkfs _ => inodeLseek tf f offset
    | .procfs => Procfs.inodeLseek tf f offset
    | .devfs => mach.rest.lseek tf offset whence

/-! ## What the filesystems leave alone -/

section Leave

variable {α : Type}

theorem lifted_inv {x : Except Halt α} {s s' : Sys} {a : α} (run : (lifted x : SysM α) s = .ok (a, s')) :
    x = .ok a ∧ s' = s := by
  cases x with
  | error e => cases run
  | ok b =>
    cases run
    exact ⟨rfl, rfl⟩

theorem keeps_lifted {τ : Type} (f : Sys → τ) (x : Except Halt α) : Keeps f (lifted x) := by
  intro s a s' run
  rw [(lifted_inv run).2]

theorem keeps_lookup {τ : Type} (f : Sys → τ) (fs : Info) (n : Nat) (path : CStr) : Keeps f (lookup fs n path) := by
  unfold lookup
  exact Keeps.bind (Keeps.gets _) fun d => Keeps.bind (keeps_lifted f _) fun h => Keeps.pure _

/-- A part of the state without the disks and the `task_info`s. -/
structure Aside {τ : Type} (f : Sys → τ) : Prop where
  disk : ∀ s n d, f (withDisk s n d) = f s
  info : ∀ s info next, f { s with world := { s.world with info := info, nextInfo := next } } = f s

namespace Aside

variable {τ : Type} {f : Sys → τ}

theorem onDisk (aside : Aside f) (n : Nat) (act : Disk → Except Halt (α × Disk)) : Keeps f (onDisk n act) := by
  unfold Io.onDisk
  refine Keeps.bind (Keeps.gets _) fun d => Keeps.bind (keeps_lifted f _) fun res => ?_
  exact Keeps.bind (Keeps.modify fun s => aside.disk s _ _) fun _ => Keeps.pure _

theorem setInfo (aside : Aside f) (tki : Nat) (info : Option TaskInfo) : Keeps f (Procfs.setInfo tki info) :=
  Keeps.modify fun s => aside.info s _ s.world.nextInfo

theorem newInfo (aside : Aside f) (path : CStr) (type : TaskInfoType) (obj : Option TaskEntry) :
    Keeps f (Procfs.newInfo path type obj) := by
  unfold Procfs.newInfo
  refine Keeps.bind (Keeps.gets _) fun tki => Keeps.bind (aside.setInfo _ _) fun _ => ?_
  exact Keeps.bind (Keeps.modify fun s => aside.info s s.world.info _) fun _ => Keeps.pure _

theorem procfsLookup (aside : Aside f) (path : CStr) : Keeps f (Procfs.lookup path) := by
  unfold Procfs.lookup Vfs.assert
  refine Keeps.bind (Keeps.ite (Keeps.pure _) (Keeps.throw _)) fun _ => Keeps.ite (Keeps.pure _) ?_
  refine Keeps.ite (aside.newInfo _ _ _) (Keeps.ite (aside.newInfo _ _ _) ?_)
  refine Keeps.bind (Keeps.gets _) fun tasks => ?_
  cases tasks.find? fun cur => streq cur.name (path.drop 1) with
  | none => exact Keeps.pure _
  | some tk => exact aside.newInfo _ _ _

theorem procfsClose (aside : Aside f) (node : Node) : Keeps f (Procfs.closeInode node) := by
  unfold Procfs.closeInode
  cases node.info with
  | none => exact Keeps.pure _
  | some tki => exact Keeps.bind (aside.setInfo _ _) fun _ => Keeps.pure _

end Aside

end Leave

end OsLab.Kernel.Io
