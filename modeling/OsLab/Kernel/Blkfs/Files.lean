import OsLab.Kernel.Blkfs.Handles
import OsLab.Lib.ByteFile

/-!
# Reading and seeking (`vfs/blkfs.c`)

`inode_read` and `inode_lseek` work on a handle like `inode_write` and leave the disk. Offsets of a
handle are 64 bits wide; `size_t` and `off_t` have 32, and `inode_lseek` compares its signed offset
with the unsigned size.
-/

namespace OsLab.Kernel.Blkfs

open OsLab.Memory OsLab.Klib OsLab.ByteFile Volume

/-- What `inode_read` computes to be read of `size` bytes at an offset, a `size_t`. -/
def readCount (offset length size : Nat) : Nat :=
  let rem := ofInt32 (length - offset)
  if size > rem then rem else size

/-- `inode_read`: the result, what reaches the buffer, and the handle. -/
def inodeRead (fs : Info) (d : Disk) (f : Handle) (size : Nat) :
    Except Halt (Int × List UInt8 × Handle) := do
  if f.flags ≠ .fileRead then .ok (-1, [], f)
  else
    match f.ptr with
    | none => .ok (-1, [], f)
    | some node =>
      kassert (f.offset ≤ node.size) "offset is too large"
      kassert (node.blockId ≠ -1) "The inode do not have block"
      let count := readCount f.offset node.size size
      let buf ← blockReaddata fs d count (ofInt32 node.blockId) (f.offset % 2 ^ 32)
      .ok (count, bytes buf count, { f with offset := (f.offset + count) % 2 ^ 64 })

/-- `inode_lseek` -/
def inodeLseek (f : Handle) (offset : Int32) : Int × Handle :=
  if f.flags ≠ .fileRead ∧ f.flags ≠ .fileWrite then (-1, f)
  else
    match f.ptr with
    | none => (-1, f)
    | some node =>
      -- the comparison and the conditional expression are unsigned
      let target := ofInt32 offset.toInt
      let offset := toInt32 (if target > node.size then node.size else target)
      let f := { f with offset := (offset % 2 ^ 64).toNat }
      (toInt32 (f.offset % 2 ^ 32), f)

/-- A call on an open file. -/
inductive FileCall where
  | read (size : UInt32)
  | write (buf : Mem) (size : UInt32)
  | lseek (offset : Int32)

/-- What a call on an open file returns, and the bytes it reads. -/
structure Output where
  result : Int
  bytes : List UInt8
  deriving DecidableEq

/-- Run a call through handle `h`. -/
def fileCall (fs : Info) (s : State) (h : Nat) : FileCall → Except Halt (Output × State)
  | .read size =>
    match s.handles[h]? with
    | none => .ok (⟨-1, []⟩, s)
    | some f => do
      let (res, bs, f) ← inodeRead fs s.disk f size.toNat
      .ok (⟨res, bs⟩, { s with handles := s.handles.set h f })
  | .write buf size => do
    let (res, s) ← exec fs s (.write h buf size)
    .ok (⟨res, []⟩, s)
  | .lseek offset =>
    match s.handles[h]? with
    | none => .ok (⟨-1, []⟩, s)
    | some f =>
      let (res, f) := inodeLseek f offset
      .ok (⟨res, []⟩, { s with handles := s.handles.set h f })

/-- Run calls through handle `h` one after the other. -/
def fileCalls (fs : Info) (s : State) (h : Nat) : List FileCall → Except Halt (List Output × State)
  | [] => .ok ([], s)
  | c :: calls => do
    let (out, s) ← fileCall fs s h c
    let (outs, s) ← fileCalls fs s h calls
    .ok (out :: outs, s)

/-! ## What they do -/

section Spec

variable {fs : Info} {d d' : Disk} {f f' : Handle} {node : Inode} {b : Nat} {buf : Mem} {size : Nat}
  {res : Int}

theorem ofInt32_sub {m n : Nat} (le : m ≤ n) (small : n < 2 ^ 32) :
    ofInt32 ((n : Int) - (m : Int)) = n - m := by
  unfold ofInt32
  omega

theorem writeCount_eq {offset : Nat} (h : offset ≤ blockDataSize) :
    writeCount offset size = min size (blockDataSize - offset) := by
  unfold writeCount
  rw [ofInt32_sub h (by decide)]
  dsimp only
  split <;> omega

theorem readCount_eq {offset length : Nat} (h : offset ≤ length) (small : length < 2 ^ 32) :
    readCount offset length size = min size (length - offset) := by
  unfold readCount
  rw [ofInt32_sub h small]
  dsimp only
  split <;> omega

/-- A read within the data of a block. -/
theorem blockReaddata_inside {count offset : Nat} (inside : b < fs.totalBlockNum)
    (room : offset + count ≤ blockDataSize) :
    blockReaddata fs d count b offset = .ok fun i => dataOf d b (offset + i) := by
  have bound : offset + count ≤ 1024 := room
  have start : (sizeofBlock + offset) % 2 ^ 32 = sizeofBlock + offset := by
    show (8 + offset) % 2 ^ 32 = 8 + offset
    omega
  have fits : (offset + count) % 2 ^ 32 ≤ blockDataSize := (Nat.mod_le _ _).trans room
  unfold blockReaddata
  rw [start, kassert_bind_eq_ok]
  refine ⟨inside, kassert_bind_eq_ok.2 ⟨fits, blockRead_eq_ok.2 ⟨inside, ?_, ?_⟩⟩⟩
  · show 8 + offset + count ≤ 8 + 1024
    omega
  · funext i
    rw [dataOf, Nat.add_assoc]

/-- A write within the data of a block. -/
theorem blockWritedata_inside {count offset : Nat} (inside : b < fs.totalBlockNum)
    (room : offset + count ≤ blockDataSize) :
    blockWritedata fs d buf count b offset = .ok (patch d b (sizeofBlock + offset) count buf) := by
  have bound : offset + count ≤ 1024 := room
  have start : (offset + sizeofBlock) % 2 ^ 32 = sizeofBlock + offset := by
    show (offset + 8) % 2 ^ 32 = 8 + offset
    omega
  have fits : (offset + count) % 2 ^ 32 ≤ blockDataSize := (Nat.mod_le _ _).trans room
  unfold blockWritedata
  rw [start, kassert_bind_eq_ok]
  refine ⟨inside, kassert_bind_eq_ok.2 ⟨fits, blockWrite_eq_ok.2 ⟨inside, ?_, rfl⟩⟩⟩
  show 8 + offset + count ≤ 8 + 1024
  omega

/-- Reading through a copy with block `b`. -/
theorem inodeRead_eq (readable : f.flags = .fileRead) (copy : f.ptr = some node)
    (data : fs.IsData b) (block : node.blockId = b) (start : f.offset ≤ node.size)
    (size_le : node.size ≤ blockDataSize) :
    inodeRead fs d f size = .ok ((min size (node.size - f.offset) : Nat),
      bytes (fun i => dataOf d b (f.offset + i)) (min size (node.size - f.offset)),
      { f with offset := f.offset + min size (node.size - f.offset) }) := by
  have bound : node.size ≤ 1024 := size_le
  have hasBlock : node.blockId ≠ -1 := by
    rw [block]
    omega
  have count : readCount f.offset node.size size = min size (node.size - f.offset) :=
    readCount_eq start (by omega)
  have small : f.offset % 2 ^ 32 = f.offset := Nat.mod_eq_of_lt (by omega)
  have room : f.offset + min size (node.size - f.offset) ≤ blockDataSize := by omega
  have ended : (f.offset + min size (node.size - f.offset)) % 2 ^ 64 =
      f.offset + min size (node.size - f.offset) := Nat.mod_eq_of_lt (by omega)
  unfold inodeRead
  rw [if_neg (not_not.2 readable)]
  simp only [copy]
  rw [kassert_pos start, kassert_pos hasBlock, count, small, block, ofInt32_block data.2, ended,
    ok_bind, ok_bind, blockReaddata_inside data.2 room, ok_bind]

/-- Writing through a copy with block `b` returns the number of bytes there is room for. -/
theorem inodeWrite_returns (writable : f.flags = .fileWrite) (copy : f.ptr = some node)
    (data : fs.IsData b) (block : node.blockId = b) {k : Nat} (slot : k < fs.slots)
    (id_eq : node.id = k) (start : f.offset ≤ blockDataSize) :
    ∃ f' d', inodeWrite fs d f buf size =
      .ok ((min size (blockDataSize - f.offset) : Nat), f', d') := by
  have bound : f.offset ≤ 1024 := start
  have hasBlock : node.blockId ≠ -1 := by
    rw [block]
    omega
  have small : f.offset % 2 ^ 32 = f.offset := Nat.mod_eq_of_lt (by omega)
  have room : f.offset + min size (blockDataSize - f.offset) ≤ blockDataSize := by omega
  have table := (fs.slot_block slot).trans fs.inodeBlockNum_lt
  have stored : ∀ (d : Disk) (f : Handle), ∃ f' d', storeSize fs d f node = .ok (f', d') := by
    intro d f
    unfold storeSize
    by_cases grows : f.offset > node.size
    · rw [if_pos grows]
      dsimp only
      rw [id_eq, ofInt32_slot slot, inodeSet_eq_ok.2 ⟨table, rfl⟩]
      exact ⟨_, _, rfl⟩
    · rw [if_neg grows]
      exact ⟨f, d, rfl⟩
  unfold inodeWrite
  rw [if_neg (not_not.2 writable)]
  simp only [copy]
  rw [kassert_pos hasBlock, writeCount_eq start, small, block, ofInt32_block data.2, ok_bind,
    blockWritedata_inside data.2 room, ok_bind]
  obtain ⟨f', d', done⟩ := stored (patch d b (sizeofBlock + f.offset)
    (min size (blockDataSize - f.offset)) buf)
    { f with ptr := some node, offset := (f.offset + min size (blockDataSize - f.offset)) % 2 ^ 64 }
  rw [done]
  exact ⟨f', d', rfl⟩

/-- What such a write leaves. -/
theorem inodeWrite_wrote (sane : Sane fs f) (writable : f.flags = .fileWrite)
    (copy : f.ptr = some node) (data : fs.IsData b) (block : node.blockId = b) {k : Nat}
    (slot : k < fs.slots) (id_eq : node.id = k) :
    ∃ f' d', inodeWrite fs d f buf size =
        .ok ((min size (blockDataSize - f.offset) : Nat), f', d') ∧
      Wrote d f buf size node b k f' d' := by
  have start := (sane.offset_le node copy).trans (sane.copy node copy).size_le
  obtain ⟨f', d', run⟩ := inodeWrite_returns
    writable copy data block slot id_eq start
  refine ⟨f', d', run, ?_⟩
  obtain ⟨missing, -⟩ | ⟨node', b', k', -, copy', -, block', -, id_eq', wrote⟩ :=
    inodeWrite_ok sane run
  · have none := missing writable
    rw [copy] at none
    contradiction
  · cases copy.symm.trans copy'
    cases Int.ofNat.inj (block.symm.trans block')
    cases Int.ofNat.inj (id_eq.symm.trans id_eq')
    exact wrote

/-- A seek ends at the offset it asks for if the file has it, and at the end of the file if it is
too large or negative. -/
theorem inodeLseek_eq {offset : Int32} (opened : f.flags = .fileRead ∨ f.flags = .fileWrite)
    (copy : f.ptr = some node) (size_le : node.size ≤ blockDataSize) {p : Nat}
    (target : p = if 0 ≤ offset.toInt ∧ offset.toInt ≤ node.size then offset.toInt.toNat
      else node.size) :
    inodeLseek f offset = ((p : Int), { f with offset := p }) := by
  have bound : node.size ≤ 1024 := size_le
  have least := offset.le_toInt
  have most := offset.toInt_lt
  have there : ¬ (f.flags ≠ .fileRead ∧ f.flags ≠ .fileWrite) := by tauto
  have clamped : (if ofInt32 offset.toInt > node.size then node.size else ofInt32 offset.toInt) = p := by
    rw [target]
    unfold ofInt32
    split <;> split <;> omega
  have small : p ≤ 1024 := by
    rw [target]
    split <;> omega
  have signed : toInt32 p = p := if_pos (by omega)
  have wide : ((p : Int) % 2 ^ 64).toNat = p := by omega
  have narrow : p % 2 ^ 32 = p := Nat.mod_eq_of_lt (by omega)
  unfold inodeLseek
  rw [if_neg there]
  simp only [copy]
  rw [clamped, signed, wide, narrow, signed]

/-- The offset of a handle is within its file. -/
def Within (f : Handle) (o : Nat) : Prop :=
  (f.ptr = none → o = f.offset) ∧ ∀ node, f.ptr = some node → o ≤ node.size

theorem Sane.within (sane : Sane fs f) : Within f f.offset := ⟨fun _ => rfl, sane.offset_le⟩

theorem Sane.move (sane : Sane fs f) {o : Nat} (within : Within f o) :
    Sane fs { f with offset := o } := by
  refine ⟨fun missing => ?_, sane.copy, within.2, sane.file⟩
  obtain ⟨zero, other⟩ := sane.unopened missing
  exact ⟨(within.1 missing).trans zero, other⟩

/-- Reading moves the offset of a sane handle within its file. -/
theorem inodeRead_ok {bs : List UInt8} (sane : Sane fs f)
    (h : inodeRead fs d f size = .ok (res, bs, f')) :
    ∃ o, f' = { f with offset := o } ∧ Within f o := by
  unfold inodeRead at h
  by_cases readable : f.flags ≠ .fileRead
  · rw [if_pos readable] at h
    cases h
    exact ⟨_, rfl, sane.within⟩
  · rw [if_neg readable] at h
    obtain copy | ⟨node, copy⟩ := f.ptr.eq_none_or_eq_some
    · simp only [copy] at h
      cases h
      exact ⟨f.offset, rfl, sane.within⟩
    · simp only [copy] at h
      obtain ⟨start, h⟩ := kassert_bind_eq_ok.1 h
      obtain ⟨-, h⟩ := kassert_bind_eq_ok.1 h
      obtain ⟨buf, -, done⟩ := bind_eq_ok.1 h
      cases done
      have bound : node.size ≤ 1024 := (sane.copy node copy).size_le
      have count : readCount f.offset node.size size = min size (node.size - f.offset) :=
        readCount_eq start (by omega)
      refine ⟨_, by rw [copy], fun missing => ?_, fun other eq => ?_⟩
      · rw [copy] at missing
        contradiction
      · cases Option.some.inj (copy.symm.trans eq)
        rw [count]
        exact (Nat.mod_le _ _).trans (by omega)

/-- Seeking moves the offset of a sane handle within its file. -/
theorem inodeLseek_ok {offset : Int32} (sane : Sane fs f) (h : inodeLseek f offset = (res, f')) :
    ∃ o, f' = { f with offset := o } ∧ Within f o := by
  by_cases closed : f.flags ≠ .fileRead ∧ f.flags ≠ .fileWrite
  · unfold inodeLseek at h
    rw [if_pos closed] at h
    cases h
    exact ⟨_, rfl, sane.within⟩
  · obtain copy | ⟨node, copy⟩ := f.ptr.eq_none_or_eq_some
    · unfold inodeLseek at h
      rw [if_neg closed] at h
      simp only [copy] at h
      cases h
      exact ⟨f.offset, rfl, sane.within⟩
    · have size_le := (sane.copy node copy).size_le
      rw [inodeLseek_eq (by tauto) copy size_le rfl] at h
      cases h
      refine ⟨_, rfl, fun missing => ?_, fun other eq => ?_⟩
      · rw [copy] at missing
        contradiction
      · cases Option.some.inj (copy.symm.trans eq)
        split <;> omega

end Spec

end OsLab.Kernel.Blkfs
