import OsLab.Kernel.Debug
import OsLab.Lib.Memory

/-!
# Blocks of a blkfs device (`vfs/blkfs.c`)

The device is divided into blocks of `block_size` bytes, a header of two words followed by
`block_data_size` bytes of data. A `Disk` gives the bytes of each block, so that position
`block_id * block_size + offset` of the device is byte `offset` of block `block_id`. The ramdisk
behind it reads and writes exactly what it is asked for. Buffers from `alloc` are always there.
-/

namespace OsLab.Kernel.Blkfs

open OsLab.Memory

/-- `MAGIC` -/
def magic : Int := 54987631

/-- `BLOCK_DATA_SIZE` -/
def blockDataSize : Nat := 1024

/-- `sizeof(blkfs_block)` -/
def sizeofBlock : Nat := 8

/-- `sizeof(blkfs_inode)` -/
def sizeofInode : Nat := 20

/-- `sizeof(dir_entry)` -/
def sizeofDirEntry : Nat := 24

/-- `block_size` -/
def blockSize : Nat := sizeofBlock + blockDataSize

/-- `inode_per_block` -/
def inodePerBlock : Nat := blockDataSize / sizeofInode

/-- `child_per_dir` -/
def childPerDir : Nat := blockDataSize / sizeofDirEntry

/-- The number of blocks `fs_init` sets aside for the inode table. -/
def inodeBlocks (totalBlockNum : Nat) : Nat :=
  let inodeSize := totalBlockNum * sizeofInode
  inodeSize / blockDataSize + if inodeSize % blockDataSize = 0 then 0 else 1

theorem inodeBlocks_pos {totalBlockNum : Nat} (h : 0 < totalBlockNum) :
    0 < inodeBlocks totalBlockNum := by
  show 0 < totalBlockNum * 20 / 1024 + if totalBlockNum * 20 % 1024 = 0 then 0 else 1
  by_cases whole : totalBlockNum * 20 % 1024 = 0
  · rw [if_pos whole]
    omega
  · rw [if_neg whole]
    omega

/-- `blkfs_info` of a device whose size `fs_init` accepts. -/
structure Info where
  fullSize : UInt32
  room : inodeBlocks (fullSize.toNat / blockSize) < fullSize.toNat / blockSize

namespace Info

variable (fs : Info)

def totalBlockNum : Nat := fs.fullSize.toNat / blockSize

def inodeBlockNum : Nat := inodeBlocks fs.totalBlockNum

/-- The number of inodes in the table. -/
def slots : Nat := fs.inodeBlockNum * inodePerBlock

/-- The blocks behind the inode table. -/
def IsData (b : Nat) : Prop := fs.inodeBlockNum ≤ b ∧ b < fs.totalBlockNum

instance (b : Nat) : Decidable (fs.IsData b) := inferInstanceAs (Decidable (_ ∧ _))

theorem inodeBlockNum_lt : fs.inodeBlockNum < fs.totalBlockNum := fs.room

theorem totalBlockNum_lt : fs.totalBlockNum < 2 ^ 22 := by
  have h := fs.fullSize.toNat_lt
  show fs.fullSize.toNat / 1032 < 2 ^ 22
  omega

theorem inodeBlockNum_pos : 0 < fs.inodeBlockNum :=
  inodeBlocks_pos (Nat.zero_lt_of_lt fs.inodeBlockNum_lt)

theorem slots_eq : fs.slots = fs.inodeBlockNum * 51 := rfl

theorem slot_block {n : Nat} (h : n < fs.slots) : n / 51 < fs.inodeBlockNum := by
  rw [slots_eq] at h
  omega

theorem slots_lt : fs.slots < 2 ^ 31 := by
  have := fs.inodeBlockNum_lt
  have := fs.totalBlockNum_lt
  rw [slots_eq]
  omega

end Info

/-! ## Bytes of the device -/

/-- The bytes of each block of the device. -/
abbrev Disk := Nat → Mem

/-- Overwrite `n` bytes of block `b` from offset `a`. -/
def patch (d : Disk) (b a n : Nat) (f : Nat → UInt8) : Disk :=
  Function.update d b (store (d b) a n f)

/-- The data of block `b`, as a buffer. -/
def dataOf (d : Disk) (b : Nat) : Mem := fun k => d b (sizeofBlock + k)

theorem patch_same (d : Disk) (b a n : Nat) (f : Nat → UInt8) :
    patch d b a n f b = store (d b) a n f :=
  Function.update_self ..

theorem patch_other {d : Disk} {b c a n : Nat} {f : Nat → UInt8} (h : c ≠ b) :
    patch d b a n f c = d c :=
  Function.update_of_ne h ..

/-- A word of another block, or apart from the patch, stays. -/
theorem read32_patch {d : Disk} {b c a n x : Nat} {f : Nat → UInt8}
    (h : c = b → Apart a n x 4) : read32 (patch d b a n f c) x = read32 (d c) x := by
  by_cases same : c = b
  · subst same
    rw [patch_same, read32_store (h rfl)]
  · rw [patch_other same]

theorem readInt32_patch {d : Disk} {b c a n x : Nat} {f : Nat → UInt8}
    (h : c = b → Apart a n x 4) : readInt32 (patch d b a n f c) x = readInt32 (d c) x := by
  unfold readInt32
  rw [read32_patch h]

/-- Writing the data of a block back as it was read changes nothing. -/
theorem patch_dataOf (d : Disk) (b : Nat) : patch d b sizeofBlock blockDataSize (dataOf d b) = d := by
  unfold patch dataOf
  rw [store_readback, Function.update_eq_self]

/-- A change of a buffer before it is written is a change of the block after it is written. -/
theorem patch_store {d : Disk} {b o k : Nat} {f g : Nat → UInt8} (h : o + k ≤ blockDataSize) :
    patch d b sizeofBlock blockDataSize (store g o k f) =
      patch (patch d b sizeofBlock blockDataSize g) b (sizeofBlock + o) k f := by
  unfold patch
  rw [store_of_store h, Function.update_self, Function.update_idem]

/-! ## Reading and writing blocks -/

/-- `block_read` -/
def blockRead (fs : Info) (d : Disk) (count blockId offset : Nat) : Except Halt Mem := do
  kassert (blockId < fs.totalBlockNum) "block_id %u is too large, needs to smaller than %u"
  kassert ((offset + count) % 2 ^ 32 ≤ blockSize)
    "offset + count %u is too large for block_size %u"
  if blockSize < offset + count then .error .outside else .ok fun k => d blockId (offset + k)

/-- `block_write` -/
def blockWrite (fs : Info) (d : Disk) (buf : Mem) (count blockId offset : Nat) :
    Except Halt Disk := do
  kassert (blockId < fs.totalBlockNum) "block_id %u is too large, needs to smaller than %u"
  kassert ((offset + count) % 2 ^ 32 ≤ blockSize)
    "offset + count %u is too large for block_size %u"
  if blockSize < offset + count then .error .outside else .ok (patch d blockId offset count buf)

/-- `blkfs_block`, the header of a block. -/
structure BlkfsBlock where
  magic : Int
  type : Int

/-- `enum blkfs_block_type`, `FREE` and `USING`. -/
inductive BlockType where
  | free
  | used
  deriving DecidableEq

def BlockType.code : BlockType → Int
  | free => 0
  | used => 1

/-- The header as it is stored. -/
def BlkfsBlock.words (blk : BlkfsBlock) : Nat → Nat
  | 0 => ofInt32 blk.magic
  | _ => ofInt32 blk.type

def readBlock (m : Mem) : BlkfsBlock := ⟨readInt32 m 0, readInt32 m 4⟩

/-- `block_check`: 0 if the block carries the magic. -/
def blockCheck (fs : Info) (d : Disk) (blockId : Nat) : Except Halt Int := do
  kassert (blockId < fs.totalBlockNum) "block_id %u is too large, needs to smaller than %u"
  let buf ← blockRead fs d sizeofBlock blockId 0
  .ok (if (readBlock buf).magic = magic then 0 else 1)

/-- `block_getinfo` -/
def blockGetinfo (fs : Info) (d : Disk) (blockId : Nat) : Except Halt BlkfsBlock := do
  kassert (blockId < fs.totalBlockNum) "block_id %u is too large, needs to smaller than %u"
  let buf ← blockRead fs d sizeofBlock blockId 0
  kassert ((readBlock buf).magic = magic) "block %u magic check failed."
  .ok (readBlock buf)

/-- `block_setinfo` -/
def blockSetinfo (fs : Info) (d : Disk) (blk : BlkfsBlock) (blockId : Nat) : Except Halt Disk := do
  kassert (blockId < fs.totalBlockNum) "block_id %u is too large, needs to smaller than %u"
  kassert (blk.magic = magic) "block magic check failed."
  blockWrite fs d (wordBytes blk.words) sizeofBlock blockId 0

/-- `block_readdata` -/
def blockReaddata (fs : Info) (d : Disk) (count blockId offset : Nat) : Except Halt Mem := do
  kassert (blockId < fs.totalBlockNum) "block_id %u is too large, needs to smaller than %u"
  kassert ((offset + count) % 2 ^ 32 ≤ blockDataSize) "count %u is too large for block_data_size %u"
  blockRead fs d count blockId ((sizeofBlock + offset) % 2 ^ 32)

/-- `block_writedata` -/
def blockWritedata (fs : Info) (d : Disk) (buf : Mem) (count blockId offset : Nat) :
    Except Halt Disk := do
  kassert (blockId < fs.totalBlockNum) "block_id %u is too large, needs to smaller than %u"
  kassert ((offset + count) % 2 ^ 32 ≤ blockDataSize) "count %u is too large for block_data_size %u"
  blockWrite fs d buf count blockId ((offset + sizeofBlock) % 2 ^ 32)

/-- `block_init` -/
def blockInit (fs : Info) (d : Disk) (blockId : Nat) : Except Halt Disk := do
  kassert (blockId < fs.totalBlockNum) "block_id %u is too large, needs to smaller than %u"
  blockSetinfo fs d ⟨magic, BlockType.free.code⟩ blockId

/-- The loop of `block_alloc` over the `n` blocks from `i`. -/
def blockAllocLoop (fs : Info) (d : Disk) : Nat → Nat → Except Halt (Int × Disk)
  | 0, _ => .ok (-1, d)
  | n + 1, i => do
    let blk ← blockGetinfo fs d i
    if blk.type = BlockType.free.code then
      let d ← blockSetinfo fs d { blk with type := BlockType.used.code } i
      .ok (i, d)
    else blockAllocLoop fs d n (i + 1)

/-- `block_alloc`: the first free block, or -1. -/
def blockAlloc (fs : Info) (d : Disk) : Except Halt (Int × Disk) :=
  blockAllocLoop fs d (fs.totalBlockNum - fs.inodeBlockNum) fs.inodeBlockNum

/-- `block_free` -/
def blockFree (fs : Info) (d : Disk) (blockId : Nat) : Except Halt Disk := do
  let blk ← blockGetinfo fs d blockId
  kassert (blk.type = BlockType.used.code) "block %u is not using."
  blockSetinfo fs d { blk with type := BlockType.free.code } blockId

/-! ## What the block functions do -/

/-- The magic in the header of block `b`. -/
def blockMagic (d : Disk) (b : Nat) : Int := readInt32 (d b) 0

/-- The type in the header of block `b`. -/
def blockType (d : Disk) (b : Nat) : Int := readInt32 (d b) 4

/-- Block `b` with the header of type `t`. -/
def setType (d : Disk) (b : Nat) (t : BlockType) : Disk :=
  patch d b 0 sizeofBlock (wordBytes (BlkfsBlock.words ⟨magic, t.code⟩))

section Spec

variable {fs : Info} {d d' : Disk} {b : Nat}

theorem blockRead_eq_ok {count offset : Nat} {buf : Mem} :
    blockRead fs d count b offset = .ok buf ↔
      b < fs.totalBlockNum ∧ offset + count ≤ blockSize ∧ buf = fun k => d b (offset + k) := by
  unfold blockRead
  rw [kassert_bind_eq_ok, kassert_bind_eq_ok]
  by_cases inside : offset + count ≤ blockSize
  · have small : (offset + count) % 2 ^ 32 ≤ blockSize := (Nat.mod_le _ _).trans inside
    simp only [if_neg (Nat.not_lt.2 inside), Except.ok.injEq, inside, small, true_and, eq_comm]
  · simp only [if_pos (Nat.not_le.1 inside), inside, false_and, and_false, reduceCtorEq]

theorem blockWrite_eq_ok {count offset : Nat} {buf : Mem} :
    blockWrite fs d buf count b offset = .ok d' ↔
      b < fs.totalBlockNum ∧ offset + count ≤ blockSize ∧ d' = patch d b offset count buf := by
  unfold blockWrite
  rw [kassert_bind_eq_ok, kassert_bind_eq_ok]
  by_cases inside : offset + count ≤ blockSize
  · have small : (offset + count) % 2 ^ 32 ≤ blockSize := (Nat.mod_le _ _).trans inside
    simp only [if_neg (Nat.not_lt.2 inside), Except.ok.injEq, inside, small, true_and, eq_comm]
  · simp only [if_pos (Nat.not_le.1 inside), inside, false_and, and_false, reduceCtorEq]

theorem blockGetinfo_eq_ok {blk : BlkfsBlock} :
    blockGetinfo fs d b = .ok blk ↔
      b < fs.totalBlockNum ∧ blockMagic d b = magic ∧ blk = ⟨magic, blockType d b⟩ := by
  unfold blockGetinfo
  rw [kassert_bind_eq_ok, bind_eq_ok]
  constructor
  · rintro ⟨inside, buf, read, rest⟩
    obtain ⟨-, -, rfl⟩ := blockRead_eq_ok.1 read
    obtain ⟨good, same⟩ := kassert_bind_eq_ok.1 rest
    have header : readBlock (fun k => d b (0 + k)) = ⟨blockMagic d b, blockType d b⟩ := by
      simp only [Nat.zero_add]
      rfl
    rw [header] at good same
    cases same
    exact ⟨inside, good, by rw [show blockMagic d b = magic from good]⟩
  · rintro ⟨inside, good, rfl⟩
    have header : readBlock (fun k => d b (0 + k)) = ⟨magic, blockType d b⟩ := by
      rw [← good]
      simp only [Nat.zero_add]
      rfl
    refine ⟨inside, _, blockRead_eq_ok.2 ⟨inside, by decide, rfl⟩, ?_⟩
    rw [header]
    exact kassert_bind_eq_ok.2 ⟨rfl, rfl⟩

theorem blockSetinfo_eq_ok {t : BlockType} :
    blockSetinfo fs d ⟨magic, t.code⟩ b = .ok d' ↔ b < fs.totalBlockNum ∧ d' = setType d b t := by
  unfold blockSetinfo
  rw [kassert_bind_eq_ok, kassert_bind_eq_ok, blockWrite_eq_ok]
  constructor
  · rintro ⟨inside, -, -, -, rfl⟩
    exact ⟨inside, rfl⟩
  · rintro ⟨inside, rfl⟩
    exact ⟨inside, rfl, inside, by decide, rfl⟩

theorem blockReaddata_eq_ok {buf : Mem} :
    blockReaddata fs d blockDataSize b 0 = .ok buf ↔ b < fs.totalBlockNum ∧ buf = dataOf d b := by
  unfold blockReaddata
  rw [kassert_bind_eq_ok, kassert_bind_eq_ok, blockRead_eq_ok]
  constructor
  · rintro ⟨inside, -, -, -, rfl⟩
    exact ⟨inside, rfl⟩
  · rintro ⟨inside, rfl⟩
    exact ⟨inside, by decide, inside, by decide, rfl⟩

theorem blockWritedata_eq_ok {buf : Mem} :
    blockWritedata fs d buf blockDataSize b 0 = .ok d' ↔
      b < fs.totalBlockNum ∧ d' = patch d b sizeofBlock blockDataSize buf := by
  unfold blockWritedata
  rw [kassert_bind_eq_ok, kassert_bind_eq_ok, blockWrite_eq_ok]
  constructor
  · rintro ⟨inside, -, -, -, rfl⟩
    exact ⟨inside, rfl⟩
  · rintro ⟨inside, rfl⟩
    exact ⟨inside, by decide, inside, by decide, rfl⟩

theorem blockReaddata_of_lt (h : b < fs.totalBlockNum) :
    blockReaddata fs d blockDataSize b 0 = .ok (dataOf d b) :=
  blockReaddata_eq_ok.2 ⟨h, rfl⟩

theorem blockWritedata_of_lt (h : b < fs.totalBlockNum) (buf : Mem) :
    blockWritedata fs d buf blockDataSize b 0 = .ok (patch d b sizeofBlock blockDataSize buf) :=
  blockWritedata_eq_ok.2 ⟨h, rfl⟩

theorem blockFree_eq_ok :
    blockFree fs d b = .ok d' ↔ b < fs.totalBlockNum ∧ blockMagic d b = magic ∧
      blockType d b = BlockType.used.code ∧ d' = setType d b .free := by
  unfold blockFree
  rw [bind_eq_ok]
  constructor
  · rintro ⟨blk, info, rest⟩
    obtain ⟨inside, good, rfl⟩ := blockGetinfo_eq_ok.1 info
    obtain ⟨busy, set⟩ := kassert_bind_eq_ok.1 rest
    exact ⟨inside, good, busy, (blockSetinfo_eq_ok.1 set).2⟩
  · rintro ⟨inside, good, busy, rfl⟩
    refine ⟨_, blockGetinfo_eq_ok.2 ⟨inside, good, rfl⟩, ?_⟩
    exact kassert_bind_eq_ok.2 ⟨busy, blockSetinfo_eq_ok.2 ⟨inside, rfl⟩⟩

theorem blockType_setType_self (d : Disk) (b : Nat) (t : BlockType) :
    blockType (setType d b t) b = t.code := by
  have fits : FitsInt32 t.code := by cases t <;> decide
  have stored : read32 (writeWords (d b) 0 2 (BlkfsBlock.words ⟨magic, t.code⟩)) (0 + 4 * 1) =
      ofInt32 t.code :=
    read32_writeWords (by omega) (ofInt32_lt t.code)
  unfold blockType setType readInt32
  rw [patch_same]
  show toInt32 (read32 (writeWords (d b) 0 2 (BlkfsBlock.words ⟨magic, t.code⟩)) (0 + 4 * 1)) = _
  rw [stored, toInt32_ofInt32 fits]

theorem blockType_setType_ne {b c : Nat} {t : BlockType} (h : c ≠ b) :
    blockType (setType d b t) c = blockType d c :=
  readInt32_patch fun same => absurd same h

/-- Block `b` is the first free one from block `i`, and the blocks up to it carry the magic. -/
structure FirstFree (d : Disk) (i b : Nat) : Prop where
  from_le : i ≤ b
  free : blockType d b = BlockType.free.code
  first : ∀ c, i ≤ c → c < b → blockType d c ≠ BlockType.free.code
  good : ∀ c, i ≤ c → c ≤ b → blockMagic d c = magic

theorem blockAllocLoop_ok {n i : Nat} {res : Int} (h : blockAllocLoop fs d n i = .ok (res, d')) :
    (res = -1 ∧ d' = d ∧ ∀ c, i ≤ c → c < i + n → blockType d c ≠ BlockType.free.code) ∨
    ∃ b, b < i + n ∧ FirstFree d i b ∧ res = b ∧ d' = setType d b .used := by
  induction n generalizing i with
  | zero =>
    cases h
    exact .inl ⟨rfl, rfl, fun c lo hi => absurd lo (Nat.not_le.2 hi)⟩
  | succ n ih =>
    rw [blockAllocLoop, bind_eq_ok] at h
    obtain ⟨blk, info, rest⟩ := h
    obtain ⟨-, good, rfl⟩ := blockGetinfo_eq_ok.1 info
    by_cases free : blockType d i = BlockType.free.code
    · rw [if_pos free, bind_eq_ok] at rest
      obtain ⟨d1, set, done⟩ := rest
      obtain ⟨-, rfl⟩ := blockSetinfo_eq_ok.1 set
      cases done
      refine .inr ⟨i, by omega, ⟨Nat.le_refl i, free, fun c lo hi => ?_, fun c lo hi => ?_⟩, rfl, rfl⟩
      · exact absurd lo (Nat.not_le.2 hi)
      · rw [Nat.le_antisymm hi lo]
        exact good
    · rw [if_neg free] at rest
      have skip : ∀ {c : Nat}, i ≤ c → ¬ i + 1 ≤ c → blockType d c ≠ BlockType.free.code := by
        intro c lo hi
        have here : c = i := by omega
        rw [here]
        exact free
      obtain ⟨res_eq, same, none_free⟩ | ⟨b, below, found, res_eq, set⟩ := ih rest
      · refine .inl ⟨res_eq, same, fun c lo hi => ?_⟩
        by_cases later : i + 1 ≤ c
        · exact none_free c later (by omega)
        · exact skip lo later
      · have lower := found.from_le
        refine .inr ⟨b, by omega,
          ⟨by omega, found.free, fun c lo hi => ?_, fun c lo hi => ?_⟩, res_eq, set⟩
        · by_cases later : i + 1 ≤ c
          · exact found.first c later hi
          · exact skip lo later
        · by_cases later : i + 1 ≤ c
          · exact found.good c later hi
          · have here : c = i := by omega
            rw [here]
            exact good

/-- The loop ends when the blocks it reads carry the magic. -/
theorem blockAllocLoop_progress {n i : Nat} (inside : i + n ≤ fs.totalBlockNum)
    (found : FirstFree d i b) : ∃ r, blockAllocLoop fs d n i = .ok r := by
  induction n generalizing i with
  | zero => exact ⟨_, rfl⟩
  | succ n ih =>
    have info := blockGetinfo_eq_ok.2
      ⟨show i < fs.totalBlockNum by omega, found.good i (Nat.le_refl i) found.from_le, rfl⟩
    rw [blockAllocLoop, info, ok_bind]
    by_cases free : blockType d i = BlockType.free.code
    · have set : blockSetinfo fs d ⟨magic, BlockType.used.code⟩ i = .ok (setType d i .used) :=
        blockSetinfo_eq_ok.2 ⟨by omega, rfl⟩
      rw [if_pos free, set]
      exact ⟨_, rfl⟩
    · have later : i + 1 ≤ b := by
        have lower := found.from_le
        have other : i ≠ b := by
          rintro rfl
          exact free found.free
        omega
      rw [if_neg free]
      exact ih (by omega) ⟨later, found.free, fun c lo => found.first c (by omega),
        fun c lo => found.good c (by omega)⟩

/-- `block_alloc` takes the first free data block, if there is one. -/
theorem blockAlloc_ok {res : Int} (h : blockAlloc fs d = .ok (res, d')) :
    (res = -1 ∧ d' = d ∧ ∀ c, fs.IsData c → blockType d c ≠ BlockType.free.code) ∨
    ∃ b, fs.IsData b ∧ FirstFree d fs.inodeBlockNum b ∧ res = b ∧ d' = setType d b .used := by
  have := fs.inodeBlockNum_lt
  obtain ⟨res_eq, same, none_free⟩ | ⟨b, below, found, res_eq, set⟩ := blockAllocLoop_ok h
  · exact .inl ⟨res_eq, same, fun c data => none_free c data.1 (by have := data.2; omega)⟩
  · exact .inr ⟨b, ⟨found.from_le, by omega⟩, found, res_eq, set⟩

end Spec

end OsLab.Kernel.Blkfs
