import OsLab.Kernel.Blkfs.Files
import OsLab.Lib.Logged

/-!
# blkfs with its accesses (`vfs/blkfs.c`)

The functions of blkfs once more, with a log of the ranges that are passed to the device and of the
indices into the inode table. The device here is one array of bytes. It is read and written at the
position that the code computes, wherever this position lies. What works on buffers alone is shared
with the functions that keep no log.
-/

namespace OsLab.Kernel.Blkfs

open OsLab.Memory OsLab.Klib OsLab.ByteFile

/-- What blkfs asks of its device and of its table. -/
inductive Request where
  /-- `dev->ops->read` or `dev->ops->write` of `count` bytes at `pos`, for a block and an offset. -/
  | range (pos count blockId offset : Nat)
  /-- An index into the inode table. -/
  | slot (id : Nat)
  deriving DecidableEq

/-- Computations on a disk that log their accesses. -/
abbrev Traced := Logged Disk Request Halt

/-- The `count` bytes at `pos`. Nothing reads a buffer behind the bytes that were asked for. -/
def deviceRead (d : Disk) (pos count : Nat) : Mem := fun k =>
  if k < count then d ((pos + k) / blockSize) ((pos + k) % blockSize)
  else d (pos / blockSize) (pos % blockSize + k)

/-- The device with `count` bytes written at `pos`. -/
def deviceWrite (d : Disk) (pos count : Nat) (buf : Mem) : Disk := fun b o =>
  if o < blockSize ∧ pos ≤ b * blockSize + o ∧ b * blockSize + o < pos + count then
    buf (b * blockSize + o - pos)
  else d b o

namespace Traced

open Logged

/-! ## Blocks -/

/-- `pos` in `block_read` and `block_write`, computed in 32 bits. -/
def position (blockId offset : Nat) : Nat := (blockId * blockSize + offset) % 2 ^ 32

/-- `block_read` -/
def blockRead (fs : Info) (count blockId offset : Nat) : Traced Mem := do
  kassert (blockId < fs.totalBlockNum) "block_id %u is too large, needs to smaller than %u"
  kassert ((offset + count) % 2 ^ 32 ≤ blockSize)
    "offset + count %u is too large for block_size %u"
  let d ← read
  if count = 0 then pure fun k => d blockId (offset + k)
  else do
    let pos := position blockId offset
    log (.range pos count blockId offset)
    pure (deviceRead d pos count)

/-- `block_write` -/
def blockWrite (fs : Info) (buf : Mem) (count blockId offset : Nat) : Traced Unit := do
  kassert (blockId < fs.totalBlockNum) "block_id %u is too large, needs to smaller than %u"
  kassert ((offset + count) % 2 ^ 32 ≤ blockSize)
    "offset + count %u is too large for block_size %u"
  let d ← read
  if count = 0 then pure ()
  else do
    let pos := position blockId offset
    log (.range pos count blockId offset)
    write (deviceWrite d pos count buf)
    pure ()

/-- `block_check` -/
def blockCheck (fs : Info) (blockId : Nat) : Traced Int := do
  kassert (blockId < fs.totalBlockNum) "block_id %u is too large, needs to smaller than %u"
  let buf ← blockRead fs sizeofBlock blockId 0
  pure (if (readBlock buf).magic = magic then 0 else 1)

/-- `block_getinfo` -/
def blockGetinfo (fs : Info) (blockId : Nat) : Traced BlkfsBlock := do
  kassert (blockId < fs.totalBlockNum) "block_id %u is too large, needs to smaller than %u"
  let buf ← blockRead fs sizeofBlock blockId 0
  kassert ((readBlock buf).magic = magic) "block %u magic check failed."
  pure (readBlock buf)

/-- `block_setinfo` -/
def blockSetinfo (fs : Info) (blk : BlkfsBlock) (blockId : Nat) : Traced Unit := do
  kassert (blockId < fs.totalBlockNum) "block_id %u is too large, needs to smaller than %u"
  kassert (blk.magic = magic) "block magic check failed."
  blockWrite fs (wordBytes blk.words) sizeofBlock blockId 0

/-- `block_readdata` -/
def blockReaddata (fs : Info) (count blockId offset : Nat) : Traced Mem := do
  kassert (blockId < fs.totalBlockNum) "block_id %u is too large, needs to smaller than %u"
  kassert ((offset + count) % 2 ^ 32 ≤ blockDataSize) "count %u is too large for block_data_size %u"
  blockRead fs count blockId ((sizeofBlock + offset) % 2 ^ 32)

/-- `block_writedata` -/
def blockWritedata (fs : Info) (buf : Mem) (count blockId offset : Nat) : Traced Unit := do
  kassert (blockId < fs.totalBlockNum) "block_id %u is too large, needs to smaller than %u"
  kassert ((offset + count) % 2 ^ 32 ≤ blockDataSize) "count %u is too large for block_data_size %u"
  blockWrite fs buf count blockId ((offset + sizeofBlock) % 2 ^ 32)

/-- `block_init` -/
def blockInit (fs : Info) (blockId : Nat) : Traced Unit := do
  kassert (blockId < fs.totalBlockNum) "block_id %u is too large, needs to smaller than %u"
  blockSetinfo fs ⟨magic, BlockType.free.code⟩ blockId

/-- The loop of `block_alloc` over the `n` blocks from `i`. -/
def blockAllocLoop (fs : Info) : Nat → Nat → Traced Int
  | 0, _ => pure (-1)
  | n + 1, i => do
    let blk ← blockGetinfo fs i
    if blk.type = BlockType.free.code then do
      blockSetinfo fs { blk with type := BlockType.used.code } i
      pure i
    else blockAllocLoop fs n (i + 1)

/-- `block_alloc` -/
def blockAlloc (fs : Info) : Traced Int :=
  blockAllocLoop fs (fs.totalBlockNum - fs.inodeBlockNum) fs.inodeBlockNum

/-- `block_free` -/
def blockFree (fs : Info) (blockId : Nat) : Traced Unit := do
  let blk ← blockGetinfo fs blockId
  kassert (blk.type = BlockType.used.code) "block %u is not using."
  blockSetinfo fs { blk with type := BlockType.free.code } blockId

/-! ## Inodes -/

/-- `inode_get` -/
def inodeGet (fs : Info) (id : Nat) : Traced (Option Inode) := do
  let blkid := id / inodePerBlock
  let tid := id % inodePerBlock
  let items ← blockReaddata fs blockDataSize blkid 0
  log (.slot id)
  let item := readInode items (sizeofInode * tid)
  if item.type = InodeType.empty.code then pure none else pure (some item)

/-- `inode_set` -/
def inodeSet (fs : Info) (id : Nat) (data : Inode) : Traced Unit := do
  let blkid := id / inodePerBlock
  let tid := id % inodePerBlock
  let items ← blockReaddata fs blockDataSize blkid 0
  log (.slot id)
  blockWritedata fs (writeInode items (sizeofInode * tid) data) blockDataSize blkid 0

/-- The body that `inode_block_init` and `dir_block_init` share. -/
def initBlock (fs : Info) (stride : Nat) (type : Int) (n blockId : Nat) : Traced Unit := do
  let entries ← blockReaddata fs blockDataSize blockId 0
  blockWritedata fs (setTypes entries 0 stride type n) blockDataSize blockId 0

/-- The first `n` inodes in block `bk` of the table. -/
def slotsOf (bk n : Nat) : List Request := (List.range n).map fun i => .slot (bk * inodePerBlock + i)

/-- `inode_block_init` -/
def inodeBlockInit (fs : Info) (blockId : Nat) : Traced Unit := do
  logAll (slotsOf blockId inodePerBlock)
  initBlock fs sizeofInode InodeType.empty.code inodePerBlock blockId

/-- `dir_block_init` -/
def dirBlockInit (fs : Info) (blockId : Nat) : Traced Unit :=
  initBlock fs sizeofDirEntry BlockType.free.code childPerDir blockId

/-- `inode_alloc` clears the block of a new directory. -/
def prepareBlock (fs : Info) (type : InodeType) (blockId : Int) : Traced Unit :=
  if blockId ≠ -1 ∧ type = .dir then dirBlockInit fs (ofInt32 blockId) else pure ()

/-- The loop of `inode_alloc` over the `n` table blocks from `bk`. -/
def inodeAllocLoop (fs : Info) (type : InodeType) : Nat → Nat → Traced Int
  | 0, _ => pure (-1)
  | n + 1, bk => do
    let items ← blockReaddata fs blockDataSize bk 0
    match findEmpty items with
    | none => do
      logAll (slotsOf bk inodePerBlock)
      inodeAllocLoop fs type n (bk + 1)
    | some i => do
      logAll (slotsOf bk (i + 1))
      let res := bk * inodePerBlock + i
      let blockId ← blockAlloc fs
      prepareBlock fs type blockId
      let item : Inode := { type := type.code, id := res, blockId, refcnt := 0, size := 0 }
      blockWritedata fs (writeInode items (sizeofInode * i) item) blockDataSize bk 0
      pure res

/-- `inode_alloc` -/
def inodeAlloc (fs : Info) (type : InodeType) : Traced Int :=
  inodeAllocLoop fs type fs.inodeBlockNum 0

/-- `inode_bfree` frees the block of an inode that has one. -/
def releaseBlock (fs : Info) (blockId : Int) : Traced Unit :=
  if blockId ≠ -1 then blockFree fs (ofInt32 blockId) else pure ()

/-- `inode_bfree` -/
def inodeBfree (fs : Info) (id : Nat) : Traced Unit := do
  let blkid := id / inodePerBlock
  let tid := id % inodePerBlock
  let items ← blockReaddata fs blockDataSize blkid 0
  log (.slot id)
  let item := readInode items (sizeofInode * tid)
  kassert (item.type ≠ InodeType.empty.code) "inode has been freed"
  let items := writeInt32 items (sizeofInode * tid) InodeType.empty.code
  releaseBlock fs item.blockId
  blockWritedata fs items blockDataSize blkid 0

/-! ## Directories -/

/-- `get_filedir` -/
def getFiledir (fs : Info) (dir : Inode) (name : CStr) : Traced Int := do
  kassert (dir.type = InodeType.dir.code) "dir is not a DIR"
  kassert (strlen name < inodeNameLen - 1) "name is too long"
  let items ← blockReaddata fs blockDataSize (ofInt32 dir.blockId) 0
  match direntryFindName items name with
  | none => pure (-1)
  | some ind => pure (entryId items (sizeofDirEntry * ind))

/-- The inode that `create_filedir` enters: the linked one or a new one. -/
def targetInode (fs : Info) (type : InodeType) (linkId : Int) : Traced Int :=
  if type = .link then pure linkId else inodeAlloc fs type

/-- `create_filedir` -/
def createFiledir (fs : Info) (dir : Inode) (type : InodeType) (linkId : Int) (name : CStr) :
    Traced Int := do
  kassert (dir.type = InodeType.dir.code) "dir is not a DIR"
  kassert (strlen name < inodeNameLen - 1) "name is too long"
  let items ← blockReaddata fs blockDataSize (ofInt32 dir.blockId) 0
  match direntryFindName items name with
  | some _ => pure (-1)
  | none =>
    match direntryFindFree items with
    | none => pure (-1)
    | some ind => do
      let res ← targetInode fs type linkId
      match ← inodeGet fs (ofInt32 res) with
      | none => throw .nullDeref
      | some node => do
        let node ← addRefcnt node 1
        inodeSet fs (ofInt32 node.id) node
        let items := putEntry items (sizeofDirEntry * ind) name res
        blockWritedata fs items blockDataSize (ofInt32 dir.blockId) 0
        pure res

/-- `delete_filedir` stores the inode with one reference less, or frees it with its last one. -/
def dropInode (fs : Info) (node : Inode) : Traced Unit :=
  if node.refcnt = 0 then inodeBfree fs (ofInt32 node.id) else inodeSet fs (ofInt32 node.id) node

/-- `delete_filedir` -/
def deleteFiledir (fs : Info) (dir : Inode) (name : CStr) : Traced Unit := do
  kassert (dir.type = InodeType.dir.code) "dir is not a DIR"
  let items ← blockReaddata fs blockDataSize (ofInt32 dir.blockId) 0
  match direntryFindName items name with
  | none => pure ()
  | some ind =>
    match ← inodeGet fs (ofInt32 (entryId items (sizeofDirEntry * ind))) with
    | none => throw .nullDeref
    | some node => do
      let node ← addRefcnt node (-1)
      dropInode fs node
      let items := writeInt32 items (sizeofDirEntry * ind) BlockType.free.code
      blockWritedata fs items blockDataSize (ofInt32 dir.blockId) 0

/-- The loop body of `list_dir`. -/
def listEntry (fs : Info) (items : Mem) (head : List Item) (i : Nat) : Traced (List Item) :=
  if entryType items (sizeofDirEntry * i) = BlockType.free.code then pure head
  else do
    match ← inodeGet fs (ofInt32 (entryId items (sizeofDirEntry * i))) with
    | none => throw .nullDeref
    | some node => pure (⟨entryName items (sizeofDirEntry * i), itemType node.type⟩ :: head)

/-- `list_dir` -/
def listDir (fs : Info) (dir : Inode) : Traced (List Item) := do
  kassert (dir.type = InodeType.dir.code) "dir is not a DIR"
  let items ← blockReaddata fs blockDataSize (ofInt32 dir.blockId) 0
  (List.range childPerDir).foldlM (listEntry fs items) []

/-! ## Calls on paths -/

/-- The loop of `get_path_inode`. -/
def getPathInodeLoop (fs : Info) : Nat → Inode → CStr → Traced (Option Inode)
  | 0, _, _ => throw .diverge
  | fuel + 1, bnode, cur =>
    match pathNextName cur with
    | none => pure (some bnode)
    | some (name, nxt) => do
      let chiId ← getFiledir fs bnode name
      if chiId = -1 then pure none
      else
        match ← inodeGet fs (ofInt32 chiId) with
        | none => throw (.assert "child inode %d get failed")
        | some chi =>
          match nxt with
          | none => pure (some chi)
          | some cur => getPathInodeLoop fs fuel chi cur

/-- `get_path_inode` -/
def getPathInode (fs : Info) (path : CStr) : Traced (Option Inode) := do
  match ← inodeGet fs 0 with
  | none => throw (.assert "root inode get failed")
  | some root => getPathInodeLoop fs (path.length + 1) root path

/-- What `fs_mkdir` and `fs_rm` do once the parent directory is resolved: `act` on it. -/
def onParent (fs : Info) (path : CStr) (act : Inode → CStr → Traced Int) : Traced Int := do
  let dirname := pathGetName path
  let node ← getPathInode fs (pathGetDirectory path)
  if strlen dirname ≠ 0 then
    match node with
    | none => pure (-1)
    | some node => if node.type = InodeType.dir.code then act node dirname else pure (-1)
  else pure (-1)

/-- `fs_mkdir` -/
def fsMkdir (fs : Info) (path : CStr) : Traced Int :=
  onParent fs path fun node dirname => do
    let id ← createFiledir fs node .dir (-1) dirname
    pure (resultOf id)

/-- `fs_rm` -/
def fsRm (fs : Info) (path : CStr) : Traced Int :=
  onParent fs path fun node dirname => do
    deleteFiledir fs node dirname
    pure 0

/-- `fs_link` -/
def fsLink (fs : Info) (oldpath newpath : CStr) : Traced Int := do
  match ← getPathInode fs oldpath with
  | none => pure (-1)
  | some old =>
    match ← getPathInode fs (pathGetDirectory newpath) with
    | none => pure (-1)
    | some newdir => do
      let id ← createFiledir fs newdir .link old.id (pathGetName newpath)
      pure (resultOf id)

/-- `fs_readdir` -/
def fsReaddir (fs : Info) (path : CStr) : Traced (List Item) := do
  match ← getPathInode fs path with
  | none => pure []
  | some node => listDir fs node

/-! ## Calls on handles -/

/-- `fs_lookup` -/
def fsLookup (fs : Info) (path : CStr) : Traced Handle := do
  kassert (charAt path 0 = slash) "path %s must start with /"
  let bnode ← getPathInode fs path
  pure { path, ptr := bnode, flags := .dirExist, offset := 0 }

/-- `inode_open` creates a missing file. -/
def openCreate (fs : Info) (f : Handle) : Traced (Int × Handle) :=
  let filename := pathGetName f.path
  if strlen filename = 0 then pure (-1, f)
  else do
    match ← getPathInode fs (pathGetDirectory f.path) with
    | none => pure (-1, f)
    | some par => do
      let id ← createFiledir fs par .file (-1) filename
      if id = -1 then pure (-1, f)
      else
        match ← inodeGet fs (ofInt32 id) with
        | none => throw (.assert "inode get failed")
        | some node => pure (0, { f with ptr := some node })

/-- `inode_open` -/
def inodeOpen (fs : Info) (f : Handle) (flags : AccessFlag) : Traced (Int × Handle) := do
  let (res, f) ← if Missing f flags then openCreate fs f else pure (0, f)
  pure (openFound res f flags)

/-- `inode_read` -/
def inodeRead (fs : Info) (f : Handle) (size : Nat) : Traced (Int × List UInt8 × Handle) :=
  if f.flags ≠ .fileRead then pure (-1, [], f)
  else
    match f.ptr with
    | none => pure (-1, [], f)
    | some node => do
      kassert (f.offset ≤ node.size) "offset is too large"
      kassert (node.blockId ≠ -1) "The inode do not have block"
      let count := readCount f.offset node.size size
      let buf ← blockReaddata fs count (ofInt32 node.blockId) (f.offset % 2 ^ 32)
      pure (count, bytes buf count, { f with offset := (f.offset + count) % 2 ^ 64 })

/-- `inode_write` stores the size of a grown file with the rest of its copy. -/
def storeSize (fs : Info) (f : Handle) (node : Inode) : Traced Handle :=
  if f.offset > node.size then do
    let node := { node with size := f.offset % 2 ^ 32 }
    inodeSet fs (ofInt32 node.id) node
    pure { f with ptr := some node }
  else pure f

/-- `inode_write` -/
def inodeWrite (fs : Info) (f : Handle) (buf : Mem) (size : Nat) : Traced (Int × Handle) :=
  if f.flags ≠ .fileWrite then pure (-1, f)
  else
    match f.ptr with
    | none => pure (-1, f)
    | some node => do
      kassert (node.blockId ≠ -1) "The inode do not have block"
      let count := writeCount f.offset size
      blockWritedata fs buf count (ofInt32 node.blockId) (f.offset % 2 ^ 32)
      let f := { f with offset := (f.offset + count) % 2 ^ 64 }
      let f ← storeSize fs f node
      pure (count, f)

/-! ## Formatting -/

/-- A `for` loop over the `n` blocks from `i`. -/
def forBlocks (body : Nat → Traced Unit) : Nat → Nat → Traced Unit
  | 0, _ => pure ()
  | n + 1, i => do
    body i
    forBlocks body n (i + 1)

/-- `fs_init` makes block `i` a block of the inode table. -/
def initTableBlock (fs : Info) (i : Nat) : Traced Unit := do
  let blk ← blockGetinfo fs i
  blockSetinfo fs { blk with type := BlockType.used.code } i
  inodeBlockInit fs i

/-- `fs_init` gives the root directory its first name and its block. -/
def initRoot (fs : Info) : Traced Unit := do
  match ← inodeGet fs 0 with
  | none => throw .nullDeref
  | some root => do
    let root ← addRefcnt root 1
    inodeSet fs (ofInt32 root.id) root
    kassert (root.blockId = fs.inodeBlockNum) "Create root dir failed, expected %d but actual %d"
    dirBlockInit fs (ofInt32 root.blockId)

/-- `fs_init` on a device without a blkfs. -/
def format (fs : Info) : Traced Unit := do
  forBlocks (blockInit fs) fs.totalBlockNum 0
  forBlocks (initTableBlock fs) fs.inodeBlockNum 0
  let rootdir ← inodeAlloc fs .dir
  kassert (rootdir = 0) "rootdir inode not at 0, it's at %d"
  initRoot fs

/-- `fs_init` checks that block `i` carries the magic. -/
def checkBlock (fs : Info) (i : Nat) : Traced Unit := do
  let res ← blockCheck fs i
  kassert (res = 0) "Block %d check for %s failed."
  pure ()

/-- `fs_init` on a device of `fullSize` bytes. -/
def fsInit (fullSize : UInt32) : Traced Info := do
  kassert (0 < fullSize.toNat) "The device of blkfs %s is too small: %u bytes"
  if room : inodeBlocks (fullSize.toNat / blockSize) < fullSize.toNat / blockSize then do
    let fs : Info := { fullSize, room }
    let res ← blockCheck fs 0
    if res = 0 then forBlocks (checkBlock fs) fs.totalBlockNum 0 else format fs
    pure fs
  else throw (.assert "No more block for data.")

/-! ## The system -/

/-- A call that works on the disk. -/
def onDisk {α : Type} (m : Traced α) : Logged State Request Halt α :=
  within State.disk (fun s d => { s with disk := d }) m

/-- Change handle `h` to `f`. -/
def setHandle (h : Nat) (f : Handle) : Logged State Request Halt Unit := do
  let s ← read
  write { s with handles := s.handles.set h f }

/-- Run a call: the value it returns. -/
def exec (fs : Info) : Call → Logged State Request Halt Int
  | .mkdir path => onDisk (fsMkdir fs path)
  | .rm path => onDisk (fsRm fs path)
  | .link oldpath newpath => onDisk (fsLink fs oldpath newpath)
  | .lookup path => do
    let f ← onDisk (fsLookup fs path)
    let s ← read
    write { s with handles := s.handles ++ [f] }
    pure 0
  | .open h flags => do
    let s ← read
    match s.handles[h]? with
    | none => pure (-1)
    | some f => do
      let (res, f) ← onDisk (inodeOpen fs f flags)
      setHandle h f
      pure res
  | .write h buf size => do
    let s ← read
    match s.handles[h]? with
    | none => pure (-1)
    | some f => do
      let (res, f) ← onDisk (inodeWrite fs f buf size.toNat)
      setHandle h f
      pure res

/-- Run a call through handle `h`. -/
def fileCall (fs : Info) (h : Nat) : FileCall → Logged State Request Halt Output
  | .read size => do
    let s ← read
    match s.handles[h]? with
    | none => pure ⟨-1, []⟩
    | some f => do
      let (res, bs, f) ← onDisk (inodeRead fs f size.toNat)
      setHandle h f
      pure ⟨res, bs⟩
  | .write buf size => do
    let res ← exec fs (.write h buf size)
    pure ⟨res, []⟩
  | .lseek offset => do
    let s ← read
    match s.handles[h]? with
    | none => pure ⟨-1, []⟩
    | some f => do
      let (res, f) := inodeLseek f offset
      setHandle h f
      pure ⟨res, []⟩

end Traced

end OsLab.Kernel.Blkfs
