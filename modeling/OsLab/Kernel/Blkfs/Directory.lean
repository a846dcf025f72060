import OsLab.Kernel.Blkfs.Inode
import OsLab.Klib.String

/-!
# Directories (`vfs/blkfs.c`)

The block of a directory holds `child_per_dir` entries of 24 bytes: a type, 16 bytes of name and
the id of an inode. `createFiledir_ok` and `deleteFiledir_ok` say what a call that returns has
changed, in the order of the source's writes.
-/

namespace OsLab.Kernel.Blkfs

open OsLab.Memory OsLab.Klib

/-- `INODE_NAME_LEN` -/
def inodeNameLen : Nat := 16

/-- The C string at `a`, in a buffer with `n` bytes from there. -/
def cstrAt (m : Mem) (a : Nat) : Nat → CStr
  | 0 => []
  | n + 1 => if m a = 0 then [] else m a :: cstrAt m (a + 1) n

/-- The type, the name and the inode id of the entry at `a`. -/
def entryType (m : Mem) (a : Nat) : Int := readInt32 m a

def entryName (m : Mem) (a : Nat) : CStr := cstrAt m (a + 4) (blockDataSize - (a + 4))

def entryId (m : Mem) (a : Nat) : Int := readInt32 m (a + 20)

/-- `strcpy(name)`, `type = USING` and `inode_id = id` on the entry at `a`. -/
def putEntry (m : Mem) (a : Nat) (name : CStr) (id : Int) : Mem :=
  let m := store m (a + 4) (strlen name + 1) (charAt name)
  let m := writeInt32 m a BlockType.used.code
  writeInt32 m (a + 20) id

/-- `direntry_find_name`, with `none` for -1. -/
def direntryFindName (items : Mem) (name : CStr) : Option Nat :=
  (List.range childPerDir).find? fun i =>
    entryType items (sizeofDirEntry * i) ≠ BlockType.free.code ∧
      streq name (entryName items (sizeofDirEntry * i))

/-- `direntry_find_free`, with `none` for -1. -/
def direntryFindFree (items : Mem) : Option Nat :=
  (List.range childPerDir).find? fun i =>
    entryType items (sizeofDirEntry * i) = BlockType.free.code

/-- `get_filedir`: the inode id of a name, or -1. -/
def getFiledir (fs : Info) (d : Disk) (dir : Inode) (name : CStr) : Except Halt Int := do
  kassert (dir.type = InodeType.dir.code) "dir is not a DIR"
  kassert (strlen name < inodeNameLen - 1) "name is too long"
  let items ← blockReaddata fs d blockDataSize (ofInt32 dir.blockId) 0
  match direntryFindName items name with
  | none => .ok (-1)
  | some ind => .ok (entryId items (sizeofDirEntry * ind))

/-- `node->refcnt` changed by one. -/
def addRefcnt (node : Inode) (delta : Int) : Except Halt Inode :=
  if FitsInt32 (node.refcnt + delta) then .ok { node with refcnt := node.refcnt + delta }
  else .error .overflow

/-- The inode that `create_filedir` enters: the linked one or a new one. -/
def targetInode (fs : Info) (d : Disk) (type : InodeType) (linkId : Int) :
    Except Halt (Int × Disk) :=
  if type = .link then .ok (linkId, d) else inodeAlloc fs d type

/-- `create_filedir`: the inode id of the new entry, or -1. -/
def createFiledir (fs : Info) (d : Disk) (dir : Inode) (type : InodeType) (linkId : Int)
    (name : CStr) : Except Halt (Int × Disk) := do
  kassert (dir.type = InodeType.dir.code) "dir is not a DIR"
  kassert (strlen name < inodeNameLen - 1) "name is too long"
  let items ← blockReaddata fs d blockDataSize (ofInt32 dir.blockId) 0
  match direntryFindName items name with
  | some _ => .ok (-1, d)
  | none =>
    match direntryFindFree items with
    | none => .ok (-1, d)
    | some ind =>
      let (res, d) ← targetInode fs d type linkId
      match ← inodeGet fs d (ofInt32 res) with
      | none => .error .nullDeref
      | some node =>
        let node ← addRefcnt node 1
        let d ← inodeSet fs d (ofInt32 node.id) node
        let items := putEntry items (sizeofDirEntry * ind) name res
        let d ← blockWritedata fs d items blockDataSize (ofInt32 dir.blockId) 0
        .ok (res, d)

/-- `delete_filedir` stores the inode with one reference less, or frees it with its last one. -/
def dropInode (fs : Info) (d : Disk) (node : Inode) : Except Halt Disk :=
  if node.refcnt = 0 then inodeBfree fs d (ofInt32 node.id)
  else inodeSet fs d (ofInt32 node.id) node

/-- `delete_filedir` -/
def deleteFiledir (fs : Info) (d : Disk) (dir : Inode) (name : CStr) : Except Halt Disk := do
  kassert (dir.type = InodeType.dir.code) "dir is not a DIR"
  let items ← blockReaddata fs d blockDataSize (ofInt32 dir.blockId) 0
  match direntryFindName items name with
  | none => .ok d
  | some ind =>
    match ← inodeGet fs d (ofInt32 (entryId items (sizeofDirEntry * ind))) with
    | none => .error .nullDeref
    | some node =>
      let node ← addRefcnt node (-1)
      let d ← dropInode fs d node
      let items := writeInt32 items (sizeofDirEntry * ind) BlockType.free.code
      blockWritedata fs d items blockDataSize (ofInt32 dir.blockId) 0

/-! ## Listing -/

/-- `enum fslist_type` -/
inductive ItemType where
  | dir
  | file
  | link
  deriving DecidableEq

/-- An item of a `fslist`, without the rest of the list. -/
structure Item where
  name : CStr
  type : ItemType
  deriving DecidableEq

/-- The type `list_dir` gives an item for the type of its inode. -/
def itemType (type : Int) : ItemType :=
  if type = InodeType.dir.code then .dir
  else if type = InodeType.file.code then .file
  else .link

/-- The loop body of `list_dir`: an entry in use goes to the head of the list. -/
def listEntry (fs : Info) (d : Disk) (items : Mem) (head : List Item) (i : Nat) :
    Except Halt (List Item) := do
  if entryType items (sizeofDirEntry * i) = BlockType.free.code then .ok head
  else
    match ← inodeGet fs d (ofInt32 (entryId items (sizeofDirEntry * i))) with
    | none => .error .nullDeref
    | some node =>
      .ok (⟨entryName items (sizeofDirEntry * i), itemType node.type⟩ :: head)

/-- `list_dir` -/
def listDir (fs : Info) (d : Disk) (dir : Inode) : Except Halt (List Item) := do
  kassert (dir.type = InodeType.dir.code) "dir is not a DIR"
  let items ← blockReaddata fs d blockDataSize (ofInt32 dir.blockId) 0
  (List.range childPerDir).foldlM (listEntry fs d items) []

/-! ## What they do -/

/-- Where entry `i` lies in its block. -/
def entryOffset (i : Nat) : Nat := sizeofBlock + sizeofDirEntry * i

/-- The inode id in entry `i` of block `b`, if the entry is in use. -/
def entryAt (d : Disk) (b i : Nat) : Option Int :=
  if entryType (d b) (entryOffset i) = BlockType.free.code then none
  else some (entryId (d b) (entryOffset i))

/-- The entry of block `b` under a name. -/
def findName (d : Disk) (b : Nat) (name : CStr) : Option Nat := direntryFindName (dataOf d b) name

/-- The first free entry of block `b`. -/
def findFree (d : Disk) (b : Nat) : Option Nat := direntryFindFree (dataOf d b)

/-- Block `b` with an entry for `id` in place `i`. -/
def setEntry (d : Disk) (b i : Nat) (name : CStr) (id : Int) : Disk :=
  Function.update d b (putEntry (d b) (entryOffset i) name id)

/-- Block `b` with entry `i` free. -/
def freeEntry (d : Disk) (b i : Nat) : Disk :=
  Function.update d b (writeInt32 (d b) (entryOffset i) BlockType.free.code)

section Spec

variable {fs : Info} {d d' : Disk} {dir : Inode} {name : CStr}

theorem readInt32_dataOf (d : Disk) (b a : Nat) :
    readInt32 (dataOf d b) a = readInt32 (d b) (sizeofBlock + a) := by
  unfold readInt32 read32 dataOf
  simp only [Nat.add_assoc]

theorem entryType_dataOf (d : Disk) (b i : Nat) :
    entryType (dataOf d b) (sizeofDirEntry * i) = entryType (d b) (entryOffset i) :=
  readInt32_dataOf ..

theorem entryId_dataOf (d : Disk) (b i : Nat) :
    entryId (dataOf d b) (sizeofDirEntry * i) = entryId (d b) (entryOffset i) := by
  unfold entryId entryOffset
  rw [readInt32_dataOf, Nat.add_assoc]

theorem findName_some {b i : Nat} (h : findName d b name = some i) :
    i < 42 ∧ entryAt d b i = some (entryId (dataOf d b) (sizeofDirEntry * i)) := by
  obtain ⟨found, bound, -⟩ := List.find?_range_eq_some.1 h
  have busy := (of_decide_eq_true found).1
  rw [entryType_dataOf] at busy
  refine ⟨List.mem_range.1 bound, ?_⟩
  unfold entryAt
  rw [if_neg busy, entryId_dataOf]

theorem findFree_some {b i : Nat} (h : findFree d b = some i) : i < 42 ∧ entryAt d b i = none := by
  obtain ⟨found, bound, -⟩ := List.find?_range_eq_some.1 h
  have free := of_decide_eq_true found
  rw [entryType_dataOf] at free
  exact ⟨List.mem_range.1 bound, if_pos free⟩

theorem addRefcnt_eq_ok {node node' : Inode} {delta : Int} :
    addRefcnt node delta = .ok node' ↔
      FitsInt32 (node.refcnt + delta) ∧ node' = { node with refcnt := node.refcnt + delta } := by
  unfold addRefcnt
  by_cases fits : FitsInt32 (node.refcnt + delta)
  · rw [if_pos fits, Except.ok.injEq]
    exact ⟨fun same => ⟨fits, same.symm⟩, fun both => both.2.symm⟩
  · rw [if_neg fits]
    constructor
    · intro h
      contradiction
    · intro both
      exact absurd both.1 fits

theorem getFiledir_ok {id : Int} (h : getFiledir fs d dir name = .ok id) :
    dir.type = InodeType.dir.code ∧ ofInt32 dir.blockId < fs.totalBlockNum ∧
      (id = -1 ∨ ∃ i < 42, entryAt d (ofInt32 dir.blockId) i = some id) := by
  unfold getFiledir at h
  obtain ⟨isDir, h⟩ := kassert_bind_eq_ok.1 h
  obtain ⟨-, h⟩ := kassert_bind_eq_ok.1 h
  obtain ⟨items, read, h⟩ := bind_eq_ok.1 h
  obtain ⟨inside, rfl⟩ := blockReaddata_eq_ok.1 read
  refine ⟨isDir, inside, ?_⟩
  cases search : findName d (ofInt32 dir.blockId) name with
  | none =>
    rw [findName] at search
    rw [search] at h
    cases h
    exact .inl rfl
  | some i =>
    obtain ⟨bound, entry⟩ := findName_some search
    rw [findName] at search
    rw [search] at h
    cases h
    exact .inr ⟨i, bound, entry⟩

/-- `create_filedir` has found no entry of the name and a place for one, entered the inode `res` on
the disk `d1` and counted the new name. -/
structure Entered (fs : Info) (d : Disk) (b : Nat) (type : InodeType) (linkId : Int) (name : CStr)
    (res : Int) (d1 : Disk) (ind : Nat) (node : Inode) : Prop where
  missing : findName d b name = none
  place : findFree d b = some ind
  target : targetInode fs d type linkId = .ok (res, d1)
  inside : ofInt32 res / inodePerBlock < fs.totalBlockNum
  busy : InUse d1 (ofInt32 res)
  node_eq : node = inodeOf d1 (ofInt32 res)
  fits : FitsInt32 (node.refcnt + 1)
  inside' : ofInt32 node.id / inodePerBlock < fs.totalBlockNum

/-- The disk `create_filedir` leaves, with the entries of block `b` as they were read at first. -/
def enteredDisk (d : Disk) (b : Nat) (name : CStr) (res : Int) (d1 : Disk) (ind : Nat)
    (node : Inode) : Disk :=
  patch (setInode d1 (ofInt32 node.id) { node with refcnt := node.refcnt + 1 }) b sizeofBlock
    blockDataSize (putEntry (dataOf d b) (sizeofDirEntry * ind) name res)

theorem createFiledir_eq_ok {type : InodeType} {linkId res : Int} :
    createFiledir fs d dir type linkId name = .ok (res, d') ↔
      dir.type = InodeType.dir.code ∧ strlen name < inodeNameLen - 1 ∧
      ofInt32 dir.blockId < fs.totalBlockNum ∧
      ((findName d (ofInt32 dir.blockId) name ≠ none ∨
          findFree d (ofInt32 dir.blockId) = none) ∧ res = -1 ∧ d' = d ∨
        ∃ d1 ind node, Entered fs d (ofInt32 dir.blockId) type linkId name res d1 ind node ∧
          d' = enteredDisk d (ofInt32 dir.blockId) name res d1 ind node) := by
  unfold createFiledir
  rw [kassert_bind_eq_ok, kassert_bind_eq_ok, bind_eq_ok]
  apply and_congr_right
  intro _
  apply and_congr_right
  intro _
  constructor
  · rintro ⟨items, read, h⟩
    obtain ⟨inside, rfl⟩ := blockReaddata_eq_ok.1 read
    refine ⟨inside, ?_⟩
    cases missing : direntryFindName (dataOf d (ofInt32 dir.blockId)) name with
    | some i =>
      rw [missing] at h
      cases h
      exact .inl ⟨.inl (by unfold findName; rw [missing]; exact Option.some_ne_none i), rfl, rfl⟩
    | none =>
      rw [missing] at h
      cases place : direntryFindFree (dataOf d (ofInt32 dir.blockId)) with
      | none =>
        rw [place] at h
        cases h
        exact .inl ⟨.inr place, rfl, rfl⟩
      | some ind =>
        simp only [place, bind_eq_ok] at h
        obtain ⟨⟨id, d1⟩, target, found, get, h⟩ := h
        cases found with
        | none => cases h
        | some node =>
          simp only [bind_eq_ok] at h
          obtain ⟨counted, add, d2, set, d3, write, done⟩ := h
          cases done
          obtain ⟨busy, node_eq⟩ := inodeGet_some get
          obtain ⟨fits, rfl⟩ := addRefcnt_eq_ok.1 add
          obtain ⟨inside', rfl⟩ := inodeSet_eq_ok.1 set
          obtain ⟨-, rfl⟩ := blockWritedata_eq_ok.1 write
          have table := (inodeGet_eq_ok.1 get).1
          exact .inr ⟨d1, ind, node,
            ⟨missing, place, target, table, busy, node_eq, fits, inside'⟩, rfl⟩
  · rintro ⟨inside, result⟩
    refine ⟨_, blockReaddata_eq_ok.2 ⟨inside, rfl⟩, ?_⟩
    obtain ⟨stop, rfl, rfl⟩ | ⟨d1, ind, node, entered, rfl⟩ := result
    · cases search : direntryFindName (dataOf d' (ofInt32 dir.blockId)) name with
      | some i => rfl
      | none =>
        have full : direntryFindFree (dataOf d' (ofInt32 dir.blockId)) = none :=
          stop.resolve_left (not_not.2 search)
        simp only [full]
    · have missing : direntryFindName (dataOf d (ofInt32 dir.blockId)) name = none := entered.missing
      have place : direntryFindFree (dataOf d (ofInt32 dir.blockId)) = some ind := entered.place
      have get : inodeGet fs d1 (ofInt32 res) = .ok (some node) :=
        inodeGet_eq_ok.2 ⟨entered.inside, .inr ⟨entered.busy, congrArg some entered.node_eq⟩⟩
      have set := inodeSet_eq_ok.2 ⟨entered.inside', Eq.refl (setInode d1 (ofInt32 node.id)
        { node with refcnt := node.refcnt + 1 })⟩
      simp only [missing, place, entered.target, get, addRefcnt_eq_ok.2 ⟨entered.fits, rfl⟩, set,
        blockWritedata_of_lt inside, ok_bind]
      rfl

/-- `delete_filedir` has found the entry and taken one reference off its inode. -/
structure Removed (fs : Info) (d : Disk) (b : Nat) (name : CStr) (ind : Nat) (d1 : Disk) : Prop where
  found : findName d b name = some ind
  busy : InUse d (ofInt32 (entryId (dataOf d b) (sizeofDirEntry * ind)))
  fits : FitsInt32
    ((inodeOf d (ofInt32 (entryId (dataOf d b) (sizeofDirEntry * ind)))).refcnt - 1)
  drop : dropInode fs d
    { inodeOf d (ofInt32 (entryId (dataOf d b) (sizeofDirEntry * ind))) with
      refcnt := (inodeOf d (ofInt32 (entryId (dataOf d b) (sizeofDirEntry * ind)))).refcnt - 1 } =
    .ok d1

theorem deleteFiledir_ok (h : deleteFiledir fs d dir name = .ok d') :
    dir.type = InodeType.dir.code ∧ ofInt32 dir.blockId < fs.totalBlockNum ∧
      (findName d (ofInt32 dir.blockId) name = none ∧ d' = d ∨
        ∃ ind d1, Removed fs d (ofInt32 dir.blockId) name ind d1 ∧
          d' = patch d1 (ofInt32 dir.blockId) sizeofBlock blockDataSize
            (writeInt32 (dataOf d (ofInt32 dir.blockId)) (sizeofDirEntry * ind)
              BlockType.free.code)) := by
  unfold deleteFiledir at h
  obtain ⟨isDir, h⟩ := kassert_bind_eq_ok.1 h
  obtain ⟨items, read, h⟩ := bind_eq_ok.1 h
  obtain ⟨inside, rfl⟩ := blockReaddata_eq_ok.1 read
  refine ⟨isDir, inside, ?_⟩
  cases search : direntryFindName (dataOf d (ofInt32 dir.blockId)) name with
  | none =>
    rw [search] at h
    cases h
    exact .inl ⟨search, rfl⟩
  | some ind =>
    simp only [search, bind_eq_ok] at h
    obtain ⟨found, get, h⟩ := h
    cases found with
    | none => cases h
    | some node =>
      simp only [bind_eq_ok] at h
      obtain ⟨counted, sub, d1, drop, write⟩ := h
      obtain ⟨busy, rfl⟩ := inodeGet_some get
      obtain ⟨fits, rfl⟩ := addRefcnt_eq_ok.1 sub
      obtain ⟨-, rfl⟩ := blockWritedata_eq_ok.1 write
      exact .inr ⟨ind, d1, ⟨search, busy, fits, drop⟩, rfl⟩

/-! ## The entries written back -/

/-- The changed entries written back over a disk with the same directory block. -/
theorem writeback_putEntry {d2 : Disk} {b i : Nat} {id : Int} (place : i < 42)
    (short : strlen name < inodeNameLen - 1) (same : dataOf d2 b = dataOf d b) :
    patch d2 b sizeofBlock blockDataSize (putEntry (dataOf d b) (sizeofDirEntry * i) name id) =
      setEntry d2 b i name id := by
  have length : strlen name < 15 := short
  have fits : ∀ o, o ≤ 24 → sizeofDirEntry * i + o ≤ blockDataSize := by
    intro o small
    show 24 * i + o ≤ 1024
    omega
  have nameFits : sizeofDirEntry * i + 4 + (strlen name + 1) ≤ blockDataSize := by
    rw [Nat.add_assoc]
    exact fits _ (by omega)
  rw [← same]
  unfold patch setEntry putEntry dataOf entryOffset
  dsimp only
  rw [store_writeInt32 (fits 24 (by omega)), store_writeInt32 (fits 4 (by omega)),
    store_of_store nameFits, store_readback, Nat.add_assoc, Nat.add_assoc]

theorem writeback_freeEntry {d2 : Disk} {b i : Nat} (place : i < 42)
    (same : dataOf d2 b = dataOf d b) :
    patch d2 b sizeofBlock blockDataSize
        (writeInt32 (dataOf d b) (sizeofDirEntry * i) BlockType.free.code) = freeEntry d2 b i := by
  have fits : sizeofDirEntry * i + 4 ≤ blockDataSize := by
    show 24 * i + 4 ≤ 1024
    omega
  rw [← same]
  unfold patch freeEntry dataOf entryOffset
  rw [store_writeInt32 fits, store_readback]

end Spec

end OsLab.Kernel.Blkfs
