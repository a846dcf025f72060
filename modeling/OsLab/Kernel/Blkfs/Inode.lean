import OsLab.Kernel.Blkfs.Disk

/-!
# The inode table (`vfs/blkfs.c`)

Inode `n` is record `n % 51` of block `n / 51`. The functions read the whole block, change the
buffer and write it back; `inodeSet_eq_ok`, `inodeAlloc_ok` and `inodeBfree_ok` say which bytes
change.
-/

namespace OsLab.Kernel.Blkfs

open OsLab.Memory

/-- `enum blkfs_inode_type` -/
inductive InodeType where
  | empty
  | file
  | dir
  | link
  deriving DecidableEq

def InodeType.code : InodeType → Int
  | empty => 0
  | file => 1
  | dir => 2
  | link => 3

/-- `blkfs_inode` -/
@[ext]
structure Inode where
  type : Int
  id : Int
  blockId : Int
  refcnt : Int
  size : Nat
  deriving DecidableEq, Repr

namespace Inode

/-- The inode as it is stored. -/
def words (node : Inode) : Nat → Nat
  | 0 => ofInt32 node.type
  | 1 => ofInt32 node.id
  | 2 => ofInt32 node.blockId
  | 3 => ofInt32 node.refcnt
  | _ => node.size

/-- The fields are in the range of their types. -/
structure Fits (node : Inode) : Prop where
  type : FitsInt32 node.type
  id : FitsInt32 node.id
  blockId : FitsInt32 node.blockId
  refcnt : FitsInt32 node.refcnt
  size : node.size < 2 ^ 32

end Inode

/-- The inode at offset `a`. -/
def readInode (m : Mem) (a : Nat) : Inode where
  type := readInt32 m a
  id := readInt32 m (a + 4)
  blockId := readInt32 m (a + 8)
  refcnt := readInt32 m (a + 12)
  size := read32 m (a + 16)

/-- Store an inode at offset `a`. -/
def writeInode (m : Mem) (a : Nat) (node : Inode) : Mem :=
  store m a sizeofInode (wordBytes node.words)

theorem readInode_fits (m : Mem) (a : Nat) : (readInode m a).Fits :=
  ⟨fits_readInt32 .., fits_readInt32 .., fits_readInt32 .., fits_readInt32 .., read32_lt ..⟩

theorem readInode_congr {m m' : Mem} {a : Nat} (h : AgreeOn m m' a sizeofInode) :
    readInode m' a = readInode m a := by
  have word : ∀ o, o + 4 ≤ 20 → AgreeOn m m' (a + o) 4 := by
    intro o fits
    apply h.sub (Nat.le_add_right a o)
    show a + o + 4 ≤ a + 20
    omega
  have first : AgreeOn m m' a 4 := word 0 (by omega)
  unfold readInode
  rw [readInt32_congr first, readInt32_congr (word 4 (by omega)),
    readInt32_congr (word 8 (by omega)), readInt32_congr (word 12 (by omega)),
    read32_congr (word 16 (by omega))]

/-- A stored inode reads back. -/
theorem readInode_writeInode {m : Mem} {a : Nat} {node : Inode} (fits : node.Fits) :
    readInode (writeInode m a node) a = node := by
  have word : ∀ j < 5, node.words j < 2 ^ 32 → read32 (writeInode m a node) (a + 4 * j) = node.words j :=
    fun j hj hw => read32_writeWords (n := 5) hj hw
  have signed : ∀ j < 5, ∀ v, FitsInt32 v → node.words j = ofInt32 v →
      readInt32 (writeInode m a node) (a + 4 * j) = v := by
    intro j hj v hv hw
    unfold readInt32
    rw [word j hj (hw ▸ ofInt32_lt v), hw, toInt32_ofInt32 hv]
  apply Inode.ext
  · exact signed 0 (by omega) _ fits.type rfl
  · exact signed 1 (by omega) _ fits.id rfl
  · exact signed 2 (by omega) _ fits.blockId rfl
  · exact signed 3 (by omega) _ fits.refcnt rfl
  · exact word 4 (by omega) fits.size

/-- Set the type field, the first word, of the `n` records of `stride` bytes from `base`. -/
def setTypes (m : Mem) (base stride : Nat) (type : Int) : Nat → Mem
  | 0 => m
  | n + 1 => writeInt32 (setTypes m base stride type n) (base + stride * n) type

section SetTypes

variable {m : Mem} {base stride : Nat} {type : Int}

/-- Setting the types in a buffer before it is stored. -/
theorem store_setTypes {g : Nat → UInt8} {a k n : Nat} (large : 4 ≤ stride) (h : stride * n ≤ k) :
    store m a k (setTypes g 0 stride type n) = setTypes (store m a k g) a stride type n := by
  induction n with
  | zero => rfl
  | succ n ih =>
    rw [Nat.mul_succ] at h
    rw [setTypes, setTypes, ← ih (by omega), Nat.zero_add]
    exact store_writeInt32 (by omega)

theorem readInt32_setTypes_apart {n x : Nat} (h : ∀ i < n, Apart (base + stride * i) 4 x 4) :
    readInt32 (setTypes m base stride type n) x = readInt32 m x := by
  induction n with
  | zero => rfl
  | succ n ih =>
    rw [setTypes, ← ih fun i hi => h i (by omega)]
    exact readInt32_writeInt32_apart (h n (Nat.lt_succ_self n))

theorem readInt32_setTypes {n i : Nat} (large : 4 ≤ stride) (fits : FitsInt32 type) (h : i < n) :
    readInt32 (setTypes m base stride type n) (base + stride * i) = type := by
  induction n with
  | zero => exact absurd h (Nat.not_lt_zero i)
  | succ n ih =>
    by_cases last : i = n
    · subst last
      exact readInt32_writeInt32 fits
    · have below : stride * (i + 1) ≤ stride * n := Nat.mul_le_mul_left stride (by omega)
      rw [Nat.mul_succ] at below
      rw [setTypes, readInt32_writeInt32_apart (by omega)]
      exact ih (by omega)

end SetTypes

/-! ## The functions on inodes -/

/-- `inode_get`: `none` is the `NULL` of an empty slot. -/
def inodeGet (fs : Info) (d : Disk) (id : Nat) : Except Halt (Option Inode) := do
  let blkid := id / inodePerBlock
  let tid := id % inodePerBlock
  let items ← blockReaddata fs d blockDataSize blkid 0
  let item := readInode items (sizeofInode * tid)
  if item.type = InodeType.empty.code then .ok none else .ok (some item)

/-- `inode_set` -/
def inodeSet (fs : Info) (d : Disk) (id : Nat) (data : Inode) : Except Halt Disk := do
  let blkid := id / inodePerBlock
  let tid := id % inodePerBlock
  let items ← blockReaddata fs d blockDataSize blkid 0
  blockWritedata fs d (writeInode items (sizeofInode * tid) data) blockDataSize blkid 0

/-- The body that `inode_block_init` and `dir_block_init` share: set the types of the `n` records
of a block. -/
def initBlock (fs : Info) (d : Disk) (stride : Nat) (type : Int) (n blockId : Nat) :
    Except Halt Disk := do
  let entries ← blockReaddata fs d blockDataSize blockId 0
  blockWritedata fs d (setTypes entries 0 stride type n) blockDataSize blockId 0

/-- `inode_block_init` -/
def inodeBlockInit (fs : Info) (d : Disk) (blockId : Nat) : Except Halt Disk :=
  initBlock fs d sizeofInode InodeType.empty.code inodePerBlock blockId

/-- `dir_block_init` -/
def dirBlockInit (fs : Info) (d : Disk) (blockId : Nat) : Except Halt Disk :=
  initBlock fs d sizeofDirEntry BlockType.free.code childPerDir blockId

/-- The empty record `inode_alloc` finds first in a block of the table. -/
def findEmpty (items : Mem) : Option Nat :=
  (List.range inodePerBlock).find? fun i =>
    (readInode items (sizeofInode * i)).type = InodeType.empty.code

/-- `inode_alloc` clears the block of a new directory. -/
def prepareBlock (fs : Info) (d : Disk) (type : InodeType) (blockId : Int) : Except Halt Disk :=
  if blockId ≠ -1 ∧ type = .dir then dirBlockInit fs d (ofInt32 blockId) else .ok d

/-- The loop of `inode_alloc` over the `n` table blocks from `bk`. -/
def inodeAllocLoop (fs : Info) (d : Disk) (type : InodeType) : Nat → Nat → Except Halt (Int × Disk)
  | 0, _ => .ok (-1, d)
  | n + 1, bk => do
    let items ← blockReaddata fs d blockDataSize bk 0
    match findEmpty items with
    | none => inodeAllocLoop fs d type n (bk + 1)
    | some i =>
      let res := bk * inodePerBlock + i
      let (blockId, d) ← blockAlloc fs d
      let d ← prepareBlock fs d type blockId
      let item : Inode := { type := type.code, id := res, blockId, refcnt := 0, size := 0 }
      let d ← blockWritedata fs d (writeInode items (sizeofInode * i) item) blockDataSize bk 0
      .ok (res, d)

/-- `inode_alloc`: the first empty inode, with a block if there is a free one, or -1. -/
def inodeAlloc (fs : Info) (d : Disk) (type : InodeType) : Except Halt (Int × Disk) :=
  inodeAllocLoop fs d type fs.inodeBlockNum 0

/-- `inode_bfree` frees the block of an inode that has one. -/
def releaseBlock (fs : Info) (d : Disk) (blockId : Int) : Except Halt Disk :=
  if blockId ≠ -1 then blockFree fs d (ofInt32 blockId) else .ok d

/-- `inode_bfree` -/
def inodeBfree (fs : Info) (d : Disk) (id : Nat) : Except Halt Disk := do
  let blkid := id / inodePerBlock
  let tid := id % inodePerBlock
  let items ← blockReaddata fs d blockDataSize blkid 0
  let item := readInode items (sizeofInode * tid)
  kassert (item.type ≠ InodeType.empty.code) "inode has been freed"
  let items := writeInt32 items (sizeofInode * tid) InodeType.empty.code
  let d ← releaseBlock fs d item.blockId
  blockWritedata fs d items blockDataSize blkid 0

/-! ## What they do -/

/-- Where inode `n` lies in its block. -/
def inodeOffset (n : Nat) : Nat := sizeofBlock + sizeofInode * (n % inodePerBlock)

/-- Inode `n` of the table. -/
def inodeOf (d : Disk) (n : Nat) : Inode := readInode (d (n / inodePerBlock)) (inodeOffset n)

/-- Inode `n` is in use. -/
def InUse (d : Disk) (n : Nat) : Prop := (inodeOf d n).type ≠ InodeType.empty.code

instance (d : Disk) (n : Nat) : Decidable (InUse d n) := inferInstanceAs (Decidable (_ ≠ _))

/-- The table with `node` in slot `n`. -/
def setInode (d : Disk) (n : Nat) (node : Inode) : Disk :=
  patch d (n / inodePerBlock) (inodeOffset n) sizeofInode (wordBytes node.words)

/-- Inode `n` marked empty. -/
def clearInode (d : Disk) (n : Nat) : Disk :=
  Function.update d (n / inodePerBlock)
    (writeInt32 (d (n / inodePerBlock)) (inodeOffset n) InodeType.empty.code)

/-- Block `b` with the types of its records set. -/
def clearTypes (d : Disk) (b stride : Nat) (type : Int) (n : Nat) : Disk :=
  Function.update d b (setTypes (d b) sizeofBlock stride type n)

/-- Block `b` with no entries. -/
def clearDir (d : Disk) (b : Nat) : Disk :=
  clearTypes d b sizeofDirEntry BlockType.free.code childPerDir

/-- The inode `inode_alloc` stores, with its later reference count. -/
def newInode (type : InodeType) (id : Nat) (blockId refcnt : Int) : Inode :=
  { type := type.code, id := id, blockId := blockId, refcnt := refcnt, size := 0 }

/-- Block `b` taken for a new inode. -/
def newBlock (d : Disk) (type : InodeType) (b : Nat) : Disk :=
  if type = .dir then clearDir (setType d b .used) b else setType d b .used

/-- Slot `k` is the first empty one. -/
structure FirstEmpty (fs : Info) (d : Disk) (k : Nat) : Prop where
  slot : k < fs.slots
  empty : ¬ InUse d k
  first : ∀ n < k, InUse d n

section Spec

variable {fs : Info} {d d' : Disk} {n : Nat}

theorem inodeOf_fits (d : Disk) (n : Nat) : (inodeOf d n).Fits := readInode_fits ..

/-- The inode as it is found in the buffer of its block. -/
theorem readInode_dataOf (d : Disk) (n : Nat) :
    readInode (dataOf d (n / inodePerBlock)) (sizeofInode * (n % inodePerBlock)) = inodeOf d n := by
  unfold inodeOf inodeOffset readInode readInt32 read32 dataOf
  simp only [Nat.add_assoc]

theorem inodeOffset_fits (n : Nat) :
    sizeofInode * (n % inodePerBlock) + sizeofInode ≤ blockDataSize := by
  have below : n % 51 < 51 := Nat.mod_lt n (by omega)
  show 20 * (n % 51) + 20 ≤ 1024
  omega

theorem inodeGet_eq_ok {r : Option Inode} :
    inodeGet fs d n = .ok r ↔ n / inodePerBlock < fs.totalBlockNum ∧
      (¬ InUse d n ∧ r = none ∨ InUse d n ∧ r = some (inodeOf d n)) := by
  unfold inodeGet
  rw [bind_eq_ok]
  constructor
  · rintro ⟨items, read, rest⟩
    obtain ⟨inside, rfl⟩ := blockReaddata_eq_ok.1 read
    rw [readInode_dataOf] at rest
    by_cases empty : (inodeOf d n).type = InodeType.empty.code
    · rw [if_pos empty] at rest
      cases rest
      exact ⟨inside, .inl ⟨not_not.2 empty, rfl⟩⟩
    · rw [if_neg empty] at rest
      cases rest
      exact ⟨inside, .inr ⟨empty, rfl⟩⟩
  · rintro ⟨inside, result⟩
    refine ⟨_, blockReaddata_eq_ok.2 ⟨inside, rfl⟩, ?_⟩
    rw [readInode_dataOf]
    obtain ⟨empty, rfl⟩ | ⟨busy, rfl⟩ := result
    · exact if_pos (not_not.1 empty)
    · exact if_neg busy

/-- `inode_get` of an inode in use. -/
theorem inodeGet_some {node : Inode} (h : inodeGet fs d n = .ok (some node)) :
    InUse d n ∧ node = inodeOf d n := by
  obtain ⟨-, ⟨-, none⟩ | ⟨busy, same⟩⟩ := inodeGet_eq_ok.1 h
  · contradiction
  · exact ⟨busy, Option.some.inj same⟩

/-- The changed block written back over block `b` as it was read. -/
theorem writeback_inode (d : Disk) (n : Nat) (node : Inode) :
    patch d (n / inodePerBlock) sizeofBlock blockDataSize
      (writeInode (dataOf d (n / inodePerBlock)) (sizeofInode * (n % inodePerBlock)) node) =
    setInode d n node := by
  unfold writeInode
  rw [patch_store (inodeOffset_fits n), patch_dataOf]
  rfl

theorem inodeSet_eq_ok {node : Inode} :
    inodeSet fs d n node = .ok d' ↔
      n / inodePerBlock < fs.totalBlockNum ∧ d' = setInode d n node := by
  unfold inodeSet
  rw [bind_eq_ok]
  constructor
  · rintro ⟨items, read, write⟩
    obtain ⟨inside, rfl⟩ := blockReaddata_eq_ok.1 read
    obtain ⟨-, rfl⟩ := blockWritedata_eq_ok.1 write
    exact ⟨inside, writeback_inode d n node⟩
  · rintro ⟨inside, rfl⟩
    refine ⟨_, blockReaddata_eq_ok.2 ⟨inside, rfl⟩, ?_⟩
    exact blockWritedata_eq_ok.2 ⟨inside, (writeback_inode d n node).symm⟩

theorem initBlock_eq_ok {stride n b : Nat} {type : Int} (large : 4 ≤ stride)
    (fits : stride * n ≤ blockDataSize) : initBlock fs d stride type n b = .ok d' ↔
      b < fs.totalBlockNum ∧ d' = clearTypes d b stride type n := by
  have written : patch d b sizeofBlock blockDataSize
      (setTypes (dataOf d b) 0 stride type n) = clearTypes d b stride type n := by
    unfold patch clearTypes
    rw [store_setTypes large fits]
    unfold dataOf
    rw [store_readback]
  unfold initBlock
  rw [bind_eq_ok]
  constructor
  · rintro ⟨items, read, write⟩
    obtain ⟨inside, rfl⟩ := blockReaddata_eq_ok.1 read
    obtain ⟨-, rfl⟩ := blockWritedata_eq_ok.1 write
    exact ⟨inside, written⟩
  · rintro ⟨inside, rfl⟩
    refine ⟨_, blockReaddata_eq_ok.2 ⟨inside, rfl⟩, ?_⟩
    exact blockWritedata_eq_ok.2 ⟨inside, written.symm⟩

theorem dirBlockInit_eq_ok {b : Nat} :
    dirBlockInit fs d b = .ok d' ↔ b < fs.totalBlockNum ∧ d' = clearDir d b :=
  initBlock_eq_ok (by decide) (by decide)

theorem findEmpty_none {bk : Nat} (h : findEmpty (dataOf d bk) = none) (here : n / 51 = bk) :
    InUse d n := by
  have below : n % 51 < 51 := Nat.mod_lt n (by omega)
  have busy := List.find?_range_eq_none.1 h (n % 51) below
  subst here
  rw [show (readInode (dataOf d (n / 51)) (sizeofInode * (n % 51))) = inodeOf d n
    from readInode_dataOf d n] at busy
  intro empty
  rw [decide_eq_true empty] at busy
  contradiction

theorem findEmpty_some {bk i : Nat} (h : findEmpty (dataOf d bk) = some i) :
    i < 51 ∧ ¬ InUse d (bk * 51 + i) ∧ ∀ m, bk * 51 ≤ m → m < bk * 51 + i → InUse d m := by
  obtain ⟨empty, bound, before⟩ := List.find?_range_eq_some.1 h
  have small : i < 51 := List.mem_range.1 bound
  have found : ∀ m, m / 51 = bk → readInode (dataOf d bk) (sizeofInode * (m % 51)) = inodeOf d m := by
    rintro m rfl
    exact readInode_dataOf d m
  refine ⟨small, ?_, fun m lo hi => ?_⟩
  · have here := found (bk * 51 + i) (by omega)
    rw [show (bk * 51 + i) % 51 = i by omega] at here
    rw [here] at empty
    exact not_not.2 (of_decide_eq_true empty)
  · have busy := before (m % 51) (by omega)
    rw [found m (by omega)] at busy
    intro empty
    rw [decide_eq_true empty] at busy
    contradiction

theorem dataOf_setType (d : Disk) (b c : Nat) (t : BlockType) :
    dataOf (setType d b t) c = dataOf d c := by
  funext k
  unfold dataOf setType
  by_cases same : c = b
  · subst same
    rw [patch_same, store_outside (by omega)]
  · rw [patch_other same]

theorem dataOf_newBlock {type : InodeType} {b c : Nat} (h : c ≠ b) :
    dataOf (newBlock d type b) c = dataOf d c := by
  unfold newBlock
  by_cases dir : type = .dir
  · rw [if_pos dir, ← dataOf_setType d b c .used]
    unfold dataOf clearDir clearTypes
    rw [Function.update_of_ne h]
  · rw [if_neg dir, dataOf_setType]

/-- Slot `k` is taken by a new inode with `refcnt` names, which has the first free block or, when
all are in use, none. -/
inductive Allocated (fs : Info) (d : Disk) (type : InodeType) (k : Nat) (refcnt : Int) : Disk → Prop
  | bare (full : ∀ c, fs.IsData c → blockType d c ≠ BlockType.free.code) :
      Allocated fs d type k refcnt (setInode d k (newInode type k (-1) refcnt))
  | withBlock (b : Nat) (data : fs.IsData b) (found : FirstFree d fs.inodeBlockNum b) :
      Allocated fs d type k refcnt (setInode (newBlock d type b) k (newInode type k b refcnt))

theorem ofInt32_block {b : Nat} (h : b < fs.totalBlockNum) : ofInt32 b = b := by
  have := fs.totalBlockNum_lt
  exact ofInt32_natCast (by omega)

theorem prepareBlock_none {type : InodeType} : prepareBlock fs d type (-1) = .ok d :=
  if_neg fun both => both.1 rfl

theorem prepareBlock_block {type : InodeType} {b : Nat} (data : fs.IsData b) :
    prepareBlock fs (setType d b .used) type b = .ok (newBlock d type b) := by
  have notMinus : (b : Int) ≠ -1 := by omega
  unfold prepareBlock newBlock
  by_cases dir : type = .dir
  · rw [if_pos ⟨notMinus, dir⟩, if_pos dir, ofInt32_block data.2]
    exact dirBlockInit_eq_ok.2 ⟨data.2, rfl⟩
  · rw [if_neg (fun both => dir both.2), if_neg dir]

/-- The table block written back over a disk that has the same table block. -/
theorem writeback_slot {d2 : Disk} {bk i : Nat} {node : Inode} (small : i < 51)
    (same : dataOf d2 bk = dataOf d bk) :
    patch d2 bk sizeofBlock blockDataSize (writeInode (dataOf d bk) (sizeofInode * i) node) =
      setInode d2 (bk * 51 + i) node := by
  have slot := writeback_inode d2 (bk * 51 + i) node
  rw [show (bk * 51 + i) / inodePerBlock = bk by show (bk * 51 + i) / 51 = bk; omega,
    show (bk * 51 + i) % inodePerBlock = i by show (bk * 51 + i) % 51 = i; omega, same] at slot
  exact slot

theorem inodeAllocLoop_ok {type : InodeType} {count bk : Nat} {res : Int}
    (table : bk + count ≤ fs.inodeBlockNum)
    (h : inodeAllocLoop fs d type count bk = .ok (res, d')) :
    (res = -1 ∧ d' = d ∧ ∀ m, bk * 51 ≤ m → m < (bk + count) * 51 → InUse d m) ∨
    ∃ k, k < (bk + count) * 51 ∧ ¬ InUse d k ∧ (∀ m, bk * 51 ≤ m → m < k → InUse d m) ∧
      res = k ∧ Allocated fs d type k 0 d' := by
  induction count generalizing bk with
  | zero =>
    cases h
    exact .inl ⟨rfl, rfl, fun m lo hi => absurd lo (by omega)⟩
  | succ count ih =>
    rw [inodeAllocLoop, bind_eq_ok] at h
    obtain ⟨items, read, rest⟩ := h
    obtain ⟨-, rfl⟩ := blockReaddata_eq_ok.1 read
    cases search : findEmpty (dataOf d bk) with
    | none =>
      rw [search] at rest
      have skip : ∀ m, bk * 51 ≤ m → m < (bk + 1) * 51 → InUse d m :=
        fun m lo hi => findEmpty_none search (by omega)
      obtain ⟨res_eq, same, busy⟩ | ⟨k, bound, empty, before, res_eq, done⟩ := ih (by omega) rest
      · refine .inl ⟨res_eq, same, fun m lo hi => ?_⟩
        by_cases later : (bk + 1) * 51 ≤ m
        · exact busy m later (by omega)
        · exact skip m lo (by omega)
      · refine .inr ⟨k, by omega, empty, fun m lo hi => ?_, res_eq, done⟩
        by_cases later : (bk + 1) * 51 ≤ m
        · exact before m later hi
        · exact skip m lo (by omega)
    | some i =>
      rw [search] at rest
      simp only [bind_eq_ok] at rest
      obtain ⟨small, empty, before⟩ := findEmpty_some search
      obtain ⟨⟨blockId, d1⟩, alloc, d2, init, d3, write, done⟩ := rest
      cases done
      obtain ⟨-, rfl⟩ := blockWritedata_eq_ok.1 write
      refine .inr ⟨bk * 51 + i, by omega, empty, before, rfl, ?_⟩
      obtain ⟨rfl, rfl, full⟩ | ⟨b, data, found, rfl, rfl⟩ := blockAlloc_ok alloc
      · cases init.symm.trans prepareBlock_none
        show Allocated fs d1 type (bk * 51 + i) 0 (patch d1 bk sizeofBlock blockDataSize
          (writeInode (dataOf d1 bk) (sizeofInode * i) (newInode type (bk * 51 + i) (-1) 0)))
        rw [writeback_slot small rfl]
        exact .bare full
      · cases init.symm.trans (prepareBlock_block data)
        show Allocated fs d type (bk * 51 + i) 0
          (patch (newBlock d type b) bk sizeofBlock blockDataSize
            (writeInode (dataOf d bk) (sizeofInode * i) (newInode type (bk * 51 + i) b 0)))
        rw [writeback_slot small (dataOf_newBlock (by have := data.1; omega))]
        exact .withBlock b data found

/-- `inode_alloc` takes the first empty slot, if there is one. -/
theorem inodeAlloc_ok {type : InodeType} {res : Int} (h : inodeAlloc fs d type = .ok (res, d')) :
    (res = -1 ∧ d' = d ∧ ∀ m < fs.slots, InUse d m) ∨
    ∃ k, FirstEmpty fs d k ∧ res = k ∧ Allocated fs d type k 0 d' := by
  have bound : (0 + fs.inodeBlockNum) * 51 = fs.slots := by rw [Nat.zero_add, fs.slots_eq]
  obtain ⟨res_eq, same, busy⟩ | ⟨k, below, empty, before, res_eq, done⟩ :=
    inodeAllocLoop_ok (by omega) h
  · exact .inl ⟨res_eq, same, fun m hm => busy m (by omega) (by omega)⟩
  · exact .inr ⟨k, ⟨by omega, empty, fun m hm => before m (by omega) hm⟩, res_eq, done⟩

theorem inodeAllocLoop_progress {type : InodeType} {count bk : Nat}
    (table : bk + count ≤ fs.inodeBlockNum) (block : ∃ r, blockAlloc fs d = .ok r) :
    ∃ r, inodeAllocLoop fs d type count bk = .ok r := by
  have := fs.inodeBlockNum_lt
  induction count generalizing bk with
  | zero => exact ⟨_, rfl⟩
  | succ count ih =>
    rw [inodeAllocLoop, blockReaddata_of_lt (by omega), ok_bind]
    cases search : findEmpty (dataOf d bk) with
    | none => exact ih (by omega)
    | some i =>
      obtain ⟨⟨blockId, d1⟩, alloc⟩ := block
      simp only [alloc, ok_bind]
      obtain ⟨rfl, rfl, -⟩ | ⟨b, data, -, rfl, rfl⟩ := blockAlloc_ok alloc
      · rw [prepareBlock_none, ok_bind, blockWritedata_of_lt (by omega)]
        exact ⟨_, rfl⟩
      · rw [prepareBlock_block data, ok_bind, blockWritedata_of_lt (by omega)]
        exact ⟨_, rfl⟩

/-- `inode_bfree` marks the slot and the block of an inode in use. -/
theorem inodeBfree_ok (h : inodeBfree fs d n = .ok d') :
    InUse d n ∧ ((inodeOf d n).blockId = -1 ∧ d' = clearInode d n ∨
      (inodeOf d n).blockId ≠ -1 ∧
        d' = clearInode (setType d (ofInt32 (inodeOf d n).blockId) .free) n) := by
  have written : ∀ d2 : Disk, dataOf d2 (n / inodePerBlock) = dataOf d (n / inodePerBlock) →
      patch d2 (n / inodePerBlock) sizeofBlock blockDataSize
        (writeInt32 (dataOf d (n / inodePerBlock)) (sizeofInode * (n % inodePerBlock))
          InodeType.empty.code) = clearInode d2 n := by
    intro d2 same
    have fits := inodeOffset_fits n
    rw [← same]
    unfold patch clearInode dataOf inodeOffset
    rw [store_writeInt32 ((Nat.add_le_add_left (by decide) _).trans fits), store_readback]
  unfold inodeBfree at h
  rw [bind_eq_ok] at h
  obtain ⟨items, read, rest⟩ := h
  obtain ⟨-, rfl⟩ := blockReaddata_eq_ok.1 read
  simp only [readInode_dataOf] at rest
  obtain ⟨busy, rest⟩ := kassert_bind_eq_ok.1 rest
  rw [bind_eq_ok] at rest
  obtain ⟨d2, release, write⟩ := rest
  obtain ⟨-, rfl⟩ := blockWritedata_eq_ok.1 write
  refine ⟨busy, ?_⟩
  unfold releaseBlock at release
  by_cases none : (inodeOf d n).blockId = -1
  · rw [if_neg (not_not.2 none)] at release
    cases release
    exact .inl ⟨none, written d rfl⟩
  · rw [if_pos none] at release
    obtain ⟨-, -, -, rfl⟩ := blockFree_eq_ok.1 release
    exact .inr ⟨none, written _ (dataOf_setType ..)⟩

/-! ## The table after a change -/

/-- A change apart from inode `m` leaves it. -/
theorem inodeOf_congr {m : Nat}
    (h : AgreeOn (d (m / inodePerBlock)) (d' (m / inodePerBlock)) (inodeOffset m) sizeofInode) :
    inodeOf d' m = inodeOf d m :=
  readInode_congr h

theorem inodeOf_patch {b a k m : Nat} {f : Nat → UInt8}
    (h : m / inodePerBlock = b → Apart a k (inodeOffset m) sizeofInode) :
    inodeOf (patch d b a k f) m = inodeOf d m := by
  apply inodeOf_congr
  by_cases same : m / inodePerBlock = b
  · rw [same, patch_same]
    exact agreeOn_store (h same)
  · rw [patch_other same]
    exact AgreeOn.refl _ _ _

/-- Two inodes of one block do not overlap. -/
theorem inodeOffset_apart {m : Nat} (h : m ≠ n) (same : m / inodePerBlock = n / inodePerBlock) :
    Apart (inodeOffset n) sizeofInode (inodeOffset m) sizeofInode := by
  have block : m / 51 = n / 51 := same
  show 8 + 20 * (n % 51) + 20 ≤ 8 + 20 * (m % 51) ∨ 8 + 20 * (m % 51) + 20 ≤ 8 + 20 * (n % 51)
  omega

@[simp] theorem inodeOf_setType (d : Disk) (b : Nat) (t : BlockType) (m : Nat) :
    inodeOf (setType d b t) m = inodeOf d m :=
  inodeOf_patch fun _ => .inl (Nat.le_add_right ..)

theorem inodeOf_setInode_self {node : Inode} (fits : node.Fits) :
    inodeOf (setInode d n node) n = node := by
  unfold inodeOf setInode
  rw [patch_same]
  exact readInode_writeInode fits

theorem inodeOf_setInode_ne {m : Nat} {node : Inode} (h : m ≠ n) :
    inodeOf (setInode d n node) m = inodeOf d m :=
  inodeOf_patch (inodeOffset_apart h)

theorem inodeOf_clearTypes {b stride k m : Nat} {type : Int} (h : m / inodePerBlock ≠ b) :
    inodeOf (clearTypes d b stride type k) m = inodeOf d m := by
  unfold inodeOf clearTypes
  rw [Function.update_of_ne h]

theorem inodeOf_newBlock {type : InodeType} {b m : Nat} (h : m / inodePerBlock ≠ b) :
    inodeOf (newBlock d type b) m = inodeOf d m := by
  unfold newBlock
  by_cases dir : type = .dir
  · rw [if_pos dir, clearDir, inodeOf_clearTypes h, inodeOf_setType]
  · rw [if_neg dir, inodeOf_setType]

theorem inodeOf_clearInode_self (d : Disk) (n : Nat) :
    inodeOf (clearInode d n) n = { inodeOf d n with type := InodeType.empty.code } := by
  unfold inodeOf clearInode
  rw [Function.update_self]
  have other : ∀ o, 4 ≤ o → AgreeOn (d (n / inodePerBlock))
      (writeInt32 (d (n / inodePerBlock)) (inodeOffset n) InodeType.empty.code) (inodeOffset n + o) 4 :=
    fun o large => agreeOn_write32 (.inl (by omega))
  apply Inode.ext
  · exact readInt32_writeInt32 (by decide)
  · exact readInt32_congr (other 4 (by omega))
  · exact readInt32_congr (other 8 (by omega))
  · exact readInt32_congr (other 12 (by omega))
  · exact read32_congr (other 16 (by omega))

theorem inodeOf_clearInode_ne {m : Nat} (h : m ≠ n) :
    inodeOf (clearInode d n) m = inodeOf d m := by
  apply inodeOf_congr
  unfold clearInode
  by_cases same : m / inodePerBlock = n / inodePerBlock
  · have apart := inodeOffset_apart h same
    rw [same, Function.update_self]
    apply agreeOn_write32
    unfold sizeofInode at apart ⊢
    omega
  · rw [Function.update_of_ne same]
    exact AgreeOn.refl _ _ _

theorem newInode_fits {type : InodeType} {k : Nat} {blockId refcnt : Int} (slot : k < fs.slots)
    (block : FitsInt32 blockId) (count : FitsInt32 refcnt) :
    (newInode type k blockId refcnt).Fits where
  type := by
    show FitsInt32 type.code
    cases type <;> decide
  id := by
    have := fs.slots_lt
    show -2 ^ 31 ≤ (k : Int) ∧ (k : Int) < 2 ^ 31
    omega
  blockId := block
  refcnt := count
  size := Nat.two_pow_pos 32

theorem fits_block {b : Nat} (h : fs.IsData b) : FitsInt32 b := by
  have := fs.totalBlockNum_lt
  have := h.2
  show -2 ^ 31 ≤ (b : Int) ∧ (b : Int) < 2 ^ 31
  omega

/-- The table block of a slot is no data block. -/
theorem slot_ne_data {k b : Nat} (slot : k < fs.slots) (data : fs.IsData b) :
    k / inodePerBlock ≠ b := by
  have table : k / 51 < fs.inodeBlockNum := fs.slot_block slot
  have behind := data.1
  show k / 51 ≠ b
  omega

theorem setInode_setInode (d : Disk) (n : Nat) (node node' : Inode) :
    setInode (setInode d n node) n node' = setInode d n node' := by
  unfold setInode patch
  rw [Function.update_self, store_store, Function.update_idem]

end Spec

end OsLab.Kernel.Blkfs
