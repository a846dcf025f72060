import OsLab.Kernel.Blkfs.Calls
import OsLab.Lib.Interleave

/-!
# The calls as sequences of device accesses

The functions of blkfs again, now as programs in which each read and each write of the device is an
action of its own. The device is shared: what a program reads may have been written by another CPU
since its last access. Alone each program does what the function of the same name does (`_alone`).
-/

namespace OsLab.Kernel.Blkfs.Stepwise

open OsLab.Memory OsLab.Klib OsLab.Interleave

/-- A program on the device. -/
abbrev Access := Prog Disk Halt

section Accesses

variable {σ α : Type}

/-- A computation without an access. -/
def ofExcept : Except Halt α → Prog σ Halt α
  | .ok a => .done a
  | .error e => .fail e

/-- One read of the device. -/
def reading (f : Disk → Except Halt α) : Access α := .act (fun _ => true) id fun d => ofExcept (f d)

/-- One write of the device. -/
def writing (f : Disk → Except Halt Disk) : Access Unit :=
  .act (fun _ => true) (fun d => ((f d).toOption).getD d) fun d => ofExcept ((f d).map fun _ => ())

theorem ofExcept_alone {x : Except Halt α} {s s' : σ} {a : α} :
    (ofExcept x).Alone s a s' ↔ x = .ok a ∧ s = s' := by
  cases x <;> simp [ofExcept, Prog.Alone]

theorem reading_alone {f : Disk → Except Halt α} {d d' : Disk} {a : α} :
    (reading f).Alone d a d' ↔ f d = .ok a ∧ d' = d := by
  simp [reading, Prog.Alone, ofExcept_alone, eq_comm]

theorem reading_bind_alone {β : Type} {f : Disk → Except Halt α} {g : α → Access β} {d d' : Disk}
    {b : β} : (reading f >>= g).Alone d b d' ↔ ∃ a, f d = .ok a ∧ (g a).Alone d b d' := by
  rw [Prog.alone_bind]
  apply exists_congr
  intro a
  constructor
  · rintro ⟨_, read, rest⟩
    obtain ⟨ok, rfl⟩ := reading_alone.1 read
    exact ⟨ok, rest⟩
  · rintro ⟨ok, rest⟩
    exact ⟨d, reading_alone.2 ⟨ok, rfl⟩, rest⟩

theorem writing_alone {f : Disk → Except Halt Disk} {d d' : Disk} {u : Unit} :
    (writing f).Alone d u d' ↔ f d = .ok d' := by
  cases call : f d with
  | error e => simp [writing, Prog.Alone, call, ofExcept, Except.map]
  | ok r => simp [writing, Prog.Alone, call, ofExcept, Except.map, Except.toOption]

end Accesses

/-! ## Blocks -/

/-- `block_getinfo` -/
def blockGetinfo (fs : Info) (blockId : Nat) : Access BlkfsBlock :=
  reading fun d => Blkfs.blockGetinfo fs d blockId

/-- `block_setinfo` -/
def blockSetinfo (fs : Info) (blk : BlkfsBlock) (blockId : Nat) : Access Unit :=
  writing fun d => Blkfs.blockSetinfo fs d blk blockId

/-- `block_readdata` -/
def blockReaddata (fs : Info) (count blockId offset : Nat) : Access Mem :=
  reading fun d => Blkfs.blockReaddata fs d count blockId offset

/-- `block_writedata` -/
def blockWritedata (fs : Info) (buf : Mem) (count blockId offset : Nat) : Access Unit :=
  writing fun d => Blkfs.blockWritedata fs d buf count blockId offset

/-- The loop of `block_alloc` over the `n` blocks from `i`. -/
def blockAllocLoop (fs : Info) : Nat → Nat → Access Int
  | 0, _ => pure (-1)
  | n + 1, i => do
    let blk ← blockGetinfo fs i
    if blk.type = BlockType.free.code then
      blockSetinfo fs { blk with type := BlockType.used.code } i
      pure (i : Int)
    else blockAllocLoop fs n (i + 1)

/-- `block_alloc` -/
def blockAlloc (fs : Info) : Access Int :=
  blockAllocLoop fs (fs.totalBlockNum - fs.inodeBlockNum) fs.inodeBlockNum

/-! ## Inodes -/

/-- `inode_get` -/
def inodeGet (fs : Info) (id : Nat) : Access (Option Inode) :=
  reading fun d => Blkfs.inodeGet fs d id

/-- `inode_set` -/
def inodeSet (fs : Info) (id : Nat) (data : Inode) : Access Unit := do
  let blkid := id / inodePerBlock
  let tid := id % inodePerBlock
  let items ← blockReaddata fs blockDataSize blkid 0
  blockWritedata fs (writeInode items (sizeofInode * tid) data) blockDataSize blkid 0

/-- `dir_block_init` -/
def dirBlockInit (fs : Info) (blockId : Nat) : Access Unit := do
  let entries ← blockReaddata fs blockDataSize blockId 0
  blockWritedata fs (setTypes entries 0 sizeofDirEntry BlockType.free.code childPerDir) blockDataSize
    blockId 0

/-- `inode_alloc` clears the block of a new directory. -/
def prepareBlock (fs : Info) (type : InodeType) (blockId : Int) : Access Unit :=
  if blockId ≠ -1 ∧ type = .dir then dirBlockInit fs (ofInt32 blockId) else pure ()

/-- The loop of `inode_alloc` over the `n` table blocks from `bk`. -/
def inodeAllocLoop (fs : Info) (type : InodeType) : Nat → Nat → Access Int
  | 0, _ => pure (-1)
  | n + 1, bk => do
    let items ← blockReaddata fs blockDataSize bk 0
    match findEmpty items with
    | none => inodeAllocLoop fs type n (bk + 1)
    | some i =>
      let res := bk * inodePerBlock + i
      let blockId ← blockAlloc fs
      prepareBlock fs type blockId
      let item : Inode := { type := type.code, id := res, blockId, refcnt := 0, size := 0 }
      blockWritedata fs (writeInode items (sizeofInode * i) item) blockDataSize bk 0
      pure (res : Int)

/-- `inode_alloc` -/
def inodeAlloc (fs : Info) (type : InodeType) : Access Int :=
  inodeAllocLoop fs type fs.inodeBlockNum 0

/-! ## Directories -/

/-- `get_filedir` -/
def getFiledir (fs : Info) (dir : Inode) (name : CStr) : Access Int :=
  reading fun d => Blkfs.getFiledir fs d dir name

/-- The loop of `get_path_inode`. -/
def getPathInodeLoop (fs : Info) : Nat → Inode → CStr → Access (Option Inode)
  | 0, _, _ => .fail .diverge
  | fuel + 1, bnode, cur =>
    match pathNextName cur with
    | none => pure (some bnode)
    | some (name, nxt) => do
      let chiId ← getFiledir fs bnode name
      if chiId = -1 then pure none
      else
        match ← inodeGet fs (ofInt32 chiId) with
        | none => .fail (.assert "child inode %d get failed")
        | some chi =>
          match nxt with
          | none => pure (some chi)
          | some cur => getPathInodeLoop fs fuel chi cur

/-- `get_path_inode` -/
def getPathInode (fs : Info) (path : CStr) : Access (Option Inode) := do
  match ← inodeGet fs 0 with
  | none => .fail (.assert "root inode get failed")
  | some root => getPathInodeLoop fs (path.length + 1) root path

/-- `create_filedir` counts the new entry in the inode it names. -/
def countEntry (fs : Info) (res : Int) : Access Unit := do
  match ← inodeGet fs (ofInt32 res) with
  | none => .fail .nullDeref
  | some node =>
    let node ← ofExcept (addRefcnt node 1)
    inodeSet fs (ofInt32 node.id) node

/-! ## Alone -/

section Alone

variable {fs : Info} {d d' : Disk}

theorem pure_alone {α : Type} {a b : α} : (pure b : Access α).Alone d a d' ↔ b = a ∧ d = d' := Iff.rfl

theorem blockAllocLoop_alone {n i : Nat} {r : Int} :
    (blockAllocLoop fs n i).Alone d r d' ↔ Blkfs.blockAllocLoop fs d n i = .ok (r, d') := by
  induction n generalizing i with
  | zero => simp [blockAllocLoop, Blkfs.blockAllocLoop, pure_alone]
  | succ n ih =>
    rw [blockAllocLoop, Blkfs.blockAllocLoop, Prog.alone_bind, bind_eq_ok]
    constructor
    · rintro ⟨blk, d1, info, rest⟩
      obtain ⟨info, rfl⟩ := reading_alone.1 info
      refine ⟨blk, info, ?_⟩
      by_cases free : blk.type = BlockType.free.code
      · rw [if_pos free, Prog.alone_bind] at rest
        rw [if_pos free, bind_eq_ok]
        obtain ⟨_, d2, set, rfl, rfl⟩ := rest
        exact ⟨d2, writing_alone.1 set, rfl⟩
      · rw [if_neg free] at rest ⊢
        exact ih.1 rest
    · rintro ⟨blk, info, rest⟩
      refine ⟨blk, d, reading_alone.2 ⟨info, rfl⟩, ?_⟩
      by_cases free : blk.type = BlockType.free.code
      · rw [if_pos free, bind_eq_ok] at rest
        rw [if_pos free, Prog.alone_bind]
        obtain ⟨d2, set, done⟩ := rest
        cases done
        exact ⟨(), d', writing_alone.2 set, rfl, rfl⟩
      · rw [if_neg free] at rest ⊢
        exact ih.2 rest

theorem blockAlloc_alone {r : Int} :
    (blockAlloc fs).Alone d r d' ↔ Blkfs.blockAlloc fs d = .ok (r, d') :=
  blockAllocLoop_alone

theorem inodeGet_alone {id : Nat} {r : Option Inode} :
    (inodeGet fs id).Alone d r d' ↔ Blkfs.inodeGet fs d id = .ok r ∧ d' = d :=
  reading_alone

theorem inodeSet_alone {id : Nat} {node : Inode} {u : Unit} :
    (inodeSet fs id node).Alone d u d' ↔ Blkfs.inodeSet fs d id node = .ok d' := by
  simp [inodeSet, Blkfs.inodeSet, Prog.alone_bind, blockReaddata, blockWritedata, reading_alone,
    writing_alone, bind_eq_ok]

theorem prepareBlock_alone {type : InodeType} {blockId : Int} {u : Unit} :
    (prepareBlock fs type blockId).Alone d u d' ↔ Blkfs.prepareBlock fs d type blockId = .ok d' := by
  unfold prepareBlock Blkfs.prepareBlock
  by_cases dir : blockId ≠ -1 ∧ type = .dir
  · rw [if_pos dir, if_pos dir]
    simp [dirBlockInit, Blkfs.dirBlockInit, initBlock, Prog.alone_bind, blockReaddata,
      blockWritedata, reading_alone, writing_alone, bind_eq_ok]
  · rw [if_neg dir, if_neg dir]
    simp [pure_alone]

theorem inodeAllocLoop_alone {type : InodeType} {n bk : Nat} {r : Int} :
    (inodeAllocLoop fs type n bk).Alone d r d' ↔
      Blkfs.inodeAllocLoop fs d type n bk = .ok (r, d') := by
  induction n generalizing bk with
  | zero => simp [inodeAllocLoop, Blkfs.inodeAllocLoop, pure_alone]
  | succ n ih =>
    simp only [inodeAllocLoop, Blkfs.inodeAllocLoop, Prog.alone_bind, blockReaddata, reading_alone,
      bind_eq_ok]
    apply exists_congr
    intro items
    constructor
    · rintro ⟨_, ⟨read, rfl⟩, rest⟩
      refine ⟨read, ?_⟩
      cases found : findEmpty items with
      | none =>
        simp only [found] at rest
        exact ih.1 rest
      | some i =>
        simp only [found, Prog.alone_bind, blockAlloc_alone, prepareBlock_alone, blockWritedata,
          writing_alone] at rest
        obtain ⟨blockId, d1, alloc, _, d2, prepare, _, d3, write, rfl, rfl⟩ := rest
        simp only [bind_eq_ok]
        exact ⟨(blockId, d1), alloc, d2, prepare, d3, write, rfl⟩
    · rintro ⟨read, rest⟩
      refine ⟨d, ⟨read, rfl⟩, ?_⟩
      cases found : findEmpty items with
      | none =>
        simp only [found] at rest
        exact ih.2 rest
      | some i =>
        simp only [found, bind_eq_ok] at rest
        obtain ⟨⟨blockId, d1⟩, alloc, d2, prepare, d3, write, done⟩ := rest
        cases done
        simp only [Prog.alone_bind, blockAlloc_alone, prepareBlock_alone, blockWritedata,
          writing_alone]
        exact ⟨blockId, d1, alloc, (), d2, prepare, (), d', write, rfl, rfl⟩

theorem inodeAlloc_alone {type : InodeType} {r : Int} :
    (inodeAlloc fs type).Alone d r d' ↔ Blkfs.inodeAlloc fs d type = .ok (r, d') :=
  inodeAllocLoop_alone

theorem getFiledir_alone {dir : Inode} {name : CStr} {r : Int} :
    (getFiledir fs dir name).Alone d r d' ↔ Blkfs.getFiledir fs d dir name = .ok r ∧ d' = d :=
  reading_alone

theorem getPathInodeLoop_alone {fuel : Nat} {bnode : Inode} {cur : CStr} {r : Option Inode} :
    (getPathInodeLoop fs fuel bnode cur).Alone d r d' ↔
      Blkfs.getPathInodeLoop fs d fuel bnode cur = .ok r ∧ d' = d := by
  induction fuel generalizing bnode cur with
  | zero => simp [getPathInodeLoop, Blkfs.getPathInodeLoop, Prog.Alone]
  | succ fuel ih =>
    unfold getPathInodeLoop Blkfs.getPathInodeLoop
    cases pathNextName cur with
    | none => simp [pure_alone, eq_comm]
    | some turn =>
      obtain ⟨name, nxt⟩ := turn
      simp only [getFiledir, reading_bind_alone, bind_eq_ok, ← exists_and_right, and_assoc]
      apply exists_congr
      intro id
      apply and_congr_right
      intro _
      by_cases minus : id = -1
      · simp [minus, pure_alone, eq_comm]
      · simp only [if_neg minus, inodeGet, reading_bind_alone, bind_eq_ok, ← exists_and_right,
          and_assoc]
        apply exists_congr
        intro found
        apply and_congr_right
        intro _
        cases found with
        | none => simp [Prog.Alone]
        | some chi =>
          cases nxt with
          | none => simp [pure_alone, eq_comm]
          | some rest => exact ih

theorem getPathInode_alone {path : CStr} {r : Option Inode} :
    (getPathInode fs path).Alone d r d' ↔ Blkfs.getPathInode fs d path = .ok r ∧ d' = d := by
  simp only [getPathInode, Blkfs.getPathInode, inodeGet, reading_bind_alone, bind_eq_ok,
    ← exists_and_right, and_assoc]
  apply exists_congr
  intro found
  apply and_congr_right
  intro _
  cases found with
  | none => simp [Prog.Alone]
  | some root => exact getPathInodeLoop_alone

/-- `countEntry` in one piece. -/
theorem countEntry_alone {res : Int} {u : Unit} :
    (countEntry fs res).Alone d u d' ↔ ∃ node node', Blkfs.inodeGet fs d (ofInt32 res) = .ok (some node) ∧
      addRefcnt node 1 = .ok node' ∧ Blkfs.inodeSet fs d (ofInt32 node'.id) node' = .ok d' := by
  simp only [countEntry, inodeGet, reading_bind_alone]
  constructor
  · rintro ⟨found, get, rest⟩
    cases found with
    | none => exact rest.elim
    | some node =>
      simp only [Prog.alone_bind, ofExcept_alone, inodeSet_alone, and_assoc] at rest
      obtain ⟨node', _, add, rfl, set⟩ := rest
      exact ⟨node, node', get, add, set⟩
  · rintro ⟨node, node', get, add, set⟩
    refine ⟨some node, get, ?_⟩
    simp only [Prog.alone_bind, ofExcept_alone, inodeSet_alone, and_assoc]
    exact ⟨node', d, add, rfl, set⟩

end Alone

end OsLab.Kernel.Blkfs.Stepwise
