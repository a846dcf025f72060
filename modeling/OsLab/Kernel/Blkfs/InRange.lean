import OsLab.Kernel.Blkfs.Traced

/-!
# Accesses in range

Every function of blkfs does the same with and without its log, and logs accesses in range only.
Positions are exact because a block id is checked against the geometry, which leaves no room for a
wrap-around in 32 bits. An index into the table is in range where it was stored by `inode_alloc`:
this is where the invariant of the volume comes in.
-/

namespace OsLab.Kernel.Blkfs

open OsLab.Memory OsLab.Klib OsLab.ByteFile Volume

/-- The range lies on the device, at the exact position, and the index in the table. -/
def InRange (fs : Info) : Request → Prop
  | .range pos count blockId offset =>
    pos = blockId * blockSize + offset ∧ pos + count ≤ fs.fullSize.toNat
  | .slot id => id < inodePerBlock * fs.inodeBlockNum

instance (fs : Info) : (a : Request) → Decidable (InRange fs a)
  | .range _ _ _ _ => inferInstanceAs (Decidable (_ ∧ _))
  | .slot _ => inferInstanceAs (Decidable (_ < _))

/-- `m` returns what `r` does, in range, and leaves the disk. -/
abbrev Reads {α : Type} (fs : Info) (m : Traced α) (d : Disk) (r : Except Halt α) : Prop :=
  Traces (InRange fs) m d (fun a => (a, d)) r

/-- `m` leaves the disk that `r` returns, in range. -/
abbrev Writes (fs : Info) (m : Traced Unit) (d : Disk) (r : Except Halt Disk) : Prop :=
  Traces (InRange fs) m d (fun d' => ((), d')) r

/-- `m` returns the value and leaves the disk that `r` returns, in range. -/
abbrev Does {α : Type} (fs : Info) (m : Traced α) (d : Disk) (r : Except Halt (α × Disk)) : Prop :=
  Traces (InRange fs) m d (fun p => p) r

section Rules

variable {fs : Info} {d : Disk} {α ρ : Type} {view : ρ → α × Disk} {n : Nat}

/-- Behind an assertion it holds. -/
theorem Traces.assert {p : Prop} [Decidable p] {msg : String} {m : Unit → Traced α}
    {r : Unit → Except Halt ρ} (rest : p → Traces (InRange fs) (m ()) d view (r ())) :
    Traces (InRange fs) (liftM (kassert p msg) >>= m) d view (kassert p msg >>= r) := by
  apply (Traces.lift (kassert p msg)).bind
  intro _ passed
  exact rest (kassert_eq_ok.1 passed)

theorem inRange_slot (slot : n < fs.slots) : InRange fs (.slot n) := by
  have bound : n < fs.inodeBlockNum * 51 := slot
  show n < 51 * fs.inodeBlockNum
  omega

theorem inRange_slotsOf {bk : Nat} (table : bk < fs.inodeBlockNum) (small : n ≤ inodePerBlock) :
    ∀ a ∈ Traced.slotsOf bk n, InRange fs a := by
  intro a mem
  obtain ⟨i, below, rfl⟩ := List.mem_map.1 mem
  have inside := List.mem_range.1 below
  have bound : n ≤ 51 := small
  apply inRange_slot
  show bk * 51 + i < fs.inodeBlockNum * 51
  omega

end Rules

/-! ## Blocks -/

section Block

variable {fs : Info} {d : Disk} {b count offset : Nat} {buf : Mem}

/-- A position within a block of the device is exact. -/
theorem position_eq (inside : b < fs.totalBlockNum) (room : offset + count ≤ blockSize) :
    Traced.position b offset = b * blockSize + offset ∧
      b * blockSize + offset + count ≤ fs.fullSize.toNat := by
  have size := fs.fullSize.toNat_lt
  have inside : b < fs.fullSize.toNat / 1032 := inside
  have room : offset + count ≤ 1032 := room
  have last : b * 1032 + offset + count ≤ fs.fullSize.toNat := by omega
  refine ⟨?_, last⟩
  show (b * 1032 + offset) % 2 ^ 32 = b * 1032 + offset
  omega

theorem deviceRead_inside (some : 0 < count) (room : offset + count ≤ blockSize) :
    deviceRead d (b * blockSize + offset) count = fun k => d b (offset + k) := by
  have room : offset + count ≤ 1032 := room
  funext k
  unfold deviceRead
  show (if k < count then d ((b * 1032 + offset + k) / 1032) ((b * 1032 + offset + k) % 1032)
    else d ((b * 1032 + offset) / 1032) ((b * 1032 + offset) % 1032 + k)) = d b (offset + k)
  by_cases below : k < count
  · have block : (b * 1032 + offset + k) / 1032 = b := by omega
    have place : (b * 1032 + offset + k) % 1032 = offset + k := by omega
    rw [if_pos below, block, place]
  · have block : (b * 1032 + offset) / 1032 = b := by omega
    have place : (b * 1032 + offset) % 1032 = offset := by omega
    rw [if_neg below, block, place]

theorem deviceWrite_inside (room : offset + count ≤ blockSize) :
    deviceWrite d (b * blockSize + offset) count buf = patch d b offset count buf := by
  have room : offset + count ≤ 1032 := room
  funext c o
  unfold deviceWrite
  show (if o < 1032 ∧ b * 1032 + offset ≤ c * 1032 + o ∧ c * 1032 + o < b * 1032 + offset + count then
    buf (c * 1032 + o - (b * 1032 + offset)) else d c o) = patch d b offset count buf c o
  by_cases here : c = b
  · subst here
    rw [patch_same]
    by_cases within : offset ≤ o ∧ o < offset + count
    · have index : c * 1032 + o - (c * 1032 + offset) = o - offset := by omega
      rw [if_pos (by omega), index]
      exact (if_pos within).symm
    · rw [if_neg (by omega)]
      exact (if_neg within).symm
  · rw [patch_other here, if_neg (by omega)]

theorem patch_nothing (d : Disk) (b a : Nat) (buf : Mem) : patch d b a 0 buf = d := by
  have same : store (d b) a 0 buf = d b := by
    funext x
    exact store_outside (by omega)
  unfold patch
  rw [same, Function.update_eq_self]

theorem blockRead_traces (room : offset + count ≤ blockSize) :
    Reads fs (Traced.blockRead fs count b offset) d (blockRead fs d count b offset) := by
  unfold Traced.blockRead blockRead
  apply Traces.assert
  intro inside
  apply Traces.assert
  intro _
  apply Traces.read
  rw [if_neg (Nat.not_lt.2 room)]
  by_cases none : count = 0
  · rw [if_pos none]
    exact Traces.ret rfl
  · obtain ⟨exact, last⟩ := position_eq inside room
    rw [if_neg none]
    dsimp only
    rw [exact]
    apply Traces.log ⟨rfl, last⟩
    rw [deviceRead_inside (Nat.pos_of_ne_zero none) room]
    exact Traces.ret rfl

theorem blockWrite_traces (room : offset + count ≤ blockSize) :
    Writes fs (Traced.blockWrite fs buf count b offset) d (blockWrite fs d buf count b offset) := by
  unfold Traced.blockWrite blockWrite
  apply Traces.assert
  intro inside
  apply Traces.assert
  intro _
  apply Traces.read
  rw [if_neg (Nat.not_lt.2 room)]
  by_cases none : count = 0
  · subst none
    rw [if_pos rfl, patch_nothing]
    exact Traces.ret rfl
  · obtain ⟨exact, last⟩ := position_eq inside room
    rw [if_neg none]
    dsimp only
    rw [exact]
    apply Traces.log ⟨rfl, last⟩
    rw [deviceWrite_inside room]
    apply Traces.write
    exact Traces.ret rfl

theorem blockReaddata_traces (room : offset + count ≤ blockDataSize) :
    Reads fs (Traced.blockReaddata fs count b offset) d (blockReaddata fs d count b offset) := by
  have bound : offset + count ≤ 1024 := room
  unfold Traced.blockReaddata blockReaddata
  apply Traces.assert
  intro _
  apply Traces.assert
  intro _
  apply blockRead_traces
  show (8 + offset) % 2 ^ 32 + count ≤ 1032
  omega

theorem blockWritedata_traces (room : offset + count ≤ blockDataSize) :
    Writes fs (Traced.blockWritedata fs buf count b offset) d
      (blockWritedata fs d buf count b offset) := by
  have bound : offset + count ≤ 1024 := room
  unfold Traced.blockWritedata blockWritedata
  apply Traces.assert
  intro _
  apply Traces.assert
  intro _
  apply blockWrite_traces
  show (offset + 8) % 2 ^ 32 + count ≤ 1032
  omega

/-- The data of a block as a whole. -/
theorem readBlockdata_traces :
    Reads fs (Traced.blockReaddata fs blockDataSize b 0) d (blockReaddata fs d blockDataSize b 0) :=
  blockReaddata_traces (by decide)

theorem writeBlockdata_traces :
    Writes fs (Traced.blockWritedata fs buf blockDataSize b 0) d
      (blockWritedata fs d buf blockDataSize b 0) :=
  blockWritedata_traces (by decide)

theorem blockCheck_traces : Reads fs (Traced.blockCheck fs b) d (blockCheck fs d b) := by
  unfold Traced.blockCheck blockCheck
  apply Traces.assert
  intro _
  apply (blockRead_traces (by decide)).bind
  intro buf _
  exact Traces.ret rfl

theorem blockGetinfo_traces : Reads fs (Traced.blockGetinfo fs b) d (blockGetinfo fs d b) := by
  unfold Traced.blockGetinfo blockGetinfo
  apply Traces.assert
  intro _
  apply (blockRead_traces (by decide)).bind
  intro buf _
  apply Traces.assert
  intro _
  exact Traces.ret rfl

theorem blockSetinfo_traces {blk : BlkfsBlock} :
    Writes fs (Traced.blockSetinfo fs blk b) d (blockSetinfo fs d blk b) := by
  unfold Traced.blockSetinfo blockSetinfo
  apply Traces.assert
  intro _
  apply Traces.assert
  intro _
  exact blockWrite_traces (by decide)

theorem blockInit_traces : Writes fs (Traced.blockInit fs b) d (blockInit fs d b) := by
  unfold Traced.blockInit blockInit
  apply Traces.assert
  intro _
  exact blockSetinfo_traces

theorem blockAllocLoop_traces {n i : Nat} :
    Does fs (Traced.blockAllocLoop fs n i) d (blockAllocLoop fs d n i) := by
  induction n generalizing i with
  | zero => exact Traces.ret rfl
  | succ n ih =>
    rw [Traced.blockAllocLoop, blockAllocLoop]
    apply blockGetinfo_traces.bind
    intro blk _
    apply Traces.ite
    · intro _
      apply blockSetinfo_traces.bind
      intro d' _
      exact Traces.ret rfl
    · intro _
      exact ih

theorem blockAlloc_traces : Does fs (Traced.blockAlloc fs) d (blockAlloc fs d) :=
  blockAllocLoop_traces

theorem blockFree_traces : Writes fs (Traced.blockFree fs b) d (blockFree fs d b) := by
  unfold Traced.blockFree blockFree
  apply blockGetinfo_traces.bind
  intro blk _
  apply Traces.assert
  intro _
  exact blockSetinfo_traces

end Block

/-! ## Inodes -/

section Inode

variable {fs : Info} {d : Disk} {n : Nat} {type : InodeType}

/-- An id is a slot of the table if its block passes the check of `block_read`. -/
def SlotId (fs : Info) (id : Nat) : Prop := id / inodePerBlock < fs.totalBlockNum → id < fs.slots

theorem slotId_of_lt (h : n < fs.slots) : SlotId fs n := fun _ => h

theorem slotId_of_eq {id : Int} {k : Nat} (slot : k < fs.slots) (eq : id = k) :
    SlotId fs (ofInt32 id) := by
  rw [eq, ofInt32_slot slot]
  exact slotId_of_lt slot

theorem slotId_minus_one : SlotId fs (ofInt32 (-1)) := fun inside =>
  absurd inside minus_one_outside.2

theorem inodeGet_traces (slot : SlotId fs n) :
    Reads fs (Traced.inodeGet fs n) d (inodeGet fs d n) := by
  unfold Traced.inodeGet inodeGet
  apply readBlockdata_traces.bind
  intro items read
  apply Traces.log (inRange_slot (slot (blockReaddata_eq_ok.1 read).1))
  apply Traces.ite
  · intro _
    exact Traces.ret rfl
  · intro _
    exact Traces.ret rfl

theorem inodeSet_traces {node : Inode} (slot : SlotId fs n) :
    Writes fs (Traced.inodeSet fs n node) d (inodeSet fs d n node) := by
  unfold Traced.inodeSet inodeSet
  apply readBlockdata_traces.bind
  intro items read
  apply Traces.log (inRange_slot (slot (blockReaddata_eq_ok.1 read).1))
  exact writeBlockdata_traces

theorem initBlock_traces {stride k b : Nat} {type : Int} :
    Writes fs (Traced.initBlock fs stride type k b) d (initBlock fs d stride type k b) := by
  unfold Traced.initBlock initBlock
  apply readBlockdata_traces.bind
  intro items _
  exact writeBlockdata_traces

theorem inodeBlockInit_traces {b : Nat} (table : b < fs.inodeBlockNum) :
    Writes fs (Traced.inodeBlockInit fs b) d (inodeBlockInit fs d b) := by
  unfold Traced.inodeBlockInit inodeBlockInit
  apply Traces.logAll (inRange_slotsOf table (Nat.le_refl _))
  exact initBlock_traces

theorem dirBlockInit_traces {b : Nat} :
    Writes fs (Traced.dirBlockInit fs b) d (dirBlockInit fs d b) :=
  initBlock_traces

theorem prepareBlock_traces {blockId : Int} :
    Writes fs (Traced.prepareBlock fs type blockId) d (prepareBlock fs d type blockId) := by
  unfold Traced.prepareBlock prepareBlock
  apply Traces.ite
  · intro _
    exact dirBlockInit_traces
  · intro _
    exact Traces.ret rfl

theorem inodeAllocLoop_traces {count bk : Nat} (table : bk + count ≤ fs.inodeBlockNum) :
    Does fs (Traced.inodeAllocLoop fs type count bk) d (inodeAllocLoop fs d type count bk) := by
  induction count generalizing bk with
  | zero => exact Traces.ret rfl
  | succ count ih =>
    rw [Traced.inodeAllocLoop, inodeAllocLoop]
    apply readBlockdata_traces.bind
    intro items _
    cases search : findEmpty items with
    | none =>
      apply Traces.logAll (inRange_slotsOf (by omega) (Nat.le_refl _))
      exact ih (by omega)
    | some i =>
      have small : i + 1 ≤ inodePerBlock :=
        List.mem_range.1 (List.mem_of_find?_eq_some search)
      apply Traces.logAll (inRange_slotsOf (by omega) small)
      apply blockAlloc_traces.bind
      rintro ⟨blockId, d1⟩ _
      apply prepareBlock_traces.bind
      intro d2 _
      apply writeBlockdata_traces.bind
      intro d3 _
      exact Traces.ret rfl

theorem inodeAlloc_traces : Does fs (Traced.inodeAlloc fs type) d (inodeAlloc fs d type) :=
  inodeAllocLoop_traces (by omega)

theorem releaseBlock_traces {blockId : Int} :
    Writes fs (Traced.releaseBlock fs blockId) d (releaseBlock fs d blockId) := by
  unfold Traced.releaseBlock releaseBlock
  apply Traces.ite
  · intro _
    exact blockFree_traces
  · intro _
    exact Traces.ret rfl

theorem inodeBfree_traces (slot : SlotId fs n) :
    Writes fs (Traced.inodeBfree fs n) d (inodeBfree fs d n) := by
  unfold Traced.inodeBfree inodeBfree
  apply readBlockdata_traces.bind
  intro items read
  apply Traces.log (inRange_slot (slot (blockReaddata_eq_ok.1 read).1))
  apply Traces.assert
  intro _
  apply releaseBlock_traces.bind
  intro d' _
  exact writeBlockdata_traces

/-- A new inode carries the number of its slot. -/
theorem Allocated.id_eq {d' : Disk} {k : Nat} (h : Allocated fs d type k 0 d') (slot : k < fs.slots) :
    (inodeOf d' k).id = k := by
  cases h with
  | bare full => rw [inodeOf_setInode_self (newInode_fits slot (by decide) (by decide)), newInode]
  | withBlock b data found =>
    rw [inodeOf_setInode_self (newInode_fits slot (fits_block data) (by decide)), newInode]

end Inode

/-! ## Directories -/

section Directory

variable {fs : Info} {d d' : Disk} {dir node : Inode} {name : CStr} {n : Nat}

/-- An inode read off a slot carries a slot number. -/
theorem slotId_of_get (owned : Owned fs (volume fs d)) (slot : SlotId fs n)
    (get : inodeGet fs d n = .ok (some node)) : SlotId fs (ofInt32 node.id) := by
  have below := slot (inodeGet_eq_ok.1 get).1
  have found := found_of_get below get
  apply slotId_of_eq below
  rw [found.copy, owned.id_eq n found.used]

/-- An entry of a directory carries a slot number. -/
theorem slotId_of_entry {i : Nat} {id : Int} (owned : Owned fs (volume fs d))
    (found : Found fs d dir n) (isDir : dir.type = InodeType.dir.code)
    (inside : ofInt32 dir.blockId < fs.totalBlockNum) (place : i < 42)
    (entry : entryAt d (ofInt32 dir.blockId) i = some id) : SlotId fs (ofInt32 id) := by
  obtain ⟨b, data, isDir, block⟩ := found.dir owned isDir inside
  rw [block] at entry
  obtain ⟨k, slot, eq⟩ := entry_slot owned data isDir place entry
  exact slotId_of_eq slot eq

theorem getFiledir_traces :
    Reads fs (Traced.getFiledir fs dir name) d (getFiledir fs d dir name) := by
  unfold Traced.getFiledir getFiledir
  apply Traces.assert
  intro _
  apply Traces.assert
  intro _
  apply readBlockdata_traces.bind
  intro items _
  cases direntryFindName items name with
  | none => exact Traces.ret rfl
  | some ind => exact Traces.ret rfl

theorem targetInode_traces {type : InodeType} {linkId : Int} :
    Does fs (Traced.targetInode fs type linkId) d (targetInode fs d type linkId) := by
  unfold Traced.targetInode targetInode
  apply Traces.ite
  · intro _
    exact Traces.ret rfl
  · intro _
    exact inodeAlloc_traces

/-- The inode that `create_filedir` enters is a slot and carries its number. -/
theorem targetInode_slot {type : InodeType} {linkId res : Int} (owned : Owned fs (volume fs d))
    (link : type = .link → SlotId fs (ofInt32 linkId))
    (target : targetInode fs d type linkId = .ok (res, d')) :
    SlotId fs (ofInt32 res) ∧
      ∀ node, inodeGet fs d' (ofInt32 res) = .ok (some node) → SlotId fs (ofInt32 node.id) := by
  unfold targetInode at target
  by_cases isLink : type = .link
  · rw [if_pos isLink] at target
    cases target
    exact ⟨link isLink, fun node => slotId_of_get owned (link isLink)⟩
  · rw [if_neg isLink] at target
    obtain ⟨rfl, -, -⟩ | ⟨k, first, rfl, taken⟩ := inodeAlloc_ok target
    · exact ⟨slotId_minus_one, fun node get =>
        absurd (inodeGet_eq_ok.1 get).1 minus_one_outside.2⟩
    · refine ⟨slotId_of_eq first.slot rfl, fun node get => ?_⟩
      rw [ofInt32_slot first.slot] at get
      obtain ⟨-, rfl⟩ := inodeGet_some get
      exact slotId_of_eq first.slot (taken.id_eq first.slot)

theorem createFiledir_traces {type : InodeType} {linkId : Int} (owned : Owned fs (volume fs d))
    (link : type = .link → SlotId fs (ofInt32 linkId)) :
    Does fs (Traced.createFiledir fs dir type linkId name) d
      (createFiledir fs d dir type linkId name) := by
  unfold Traced.createFiledir createFiledir
  apply Traces.assert
  intro _
  apply Traces.assert
  intro _
  apply readBlockdata_traces.bind
  intro items _
  cases direntryFindName items name with
  | some _ => exact Traces.ret rfl
  | none =>
    cases direntryFindFree items with
    | none => exact Traces.ret rfl
    | some ind =>
      apply targetInode_traces.bind
      rintro ⟨res, d1⟩ target
      obtain ⟨slot, own⟩ := targetInode_slot owned link target
      apply (inodeGet_traces slot).bind
      intro found get
      cases found with
      | none => exact Traces.fail _
      | some node =>
        apply (Traces.lift _).bind
        intro counted add
        obtain ⟨-, rfl⟩ := addRefcnt_eq_ok.1 add
        apply (inodeSet_traces (own node get)).bind
        intro d2 _
        apply writeBlockdata_traces.bind
        intro d3 _
        exact Traces.ret rfl

theorem createNew_traces {type : InodeType} {linkId : Int} (owned : Owned fs (volume fs d))
    (kind : type = .file ∨ type = .dir) :
    Does fs (Traced.createFiledir fs dir type linkId name) d
      (createFiledir fs d dir type linkId name) :=
  createFiledir_traces owned fun isLink => absurd isLink (kind_ne_link kind)

theorem dropInode_traces (node : Inode) (slot : SlotId fs (ofInt32 node.id)) :
    Writes fs (Traced.dropInode fs node) d (dropInode fs d node) := by
  unfold Traced.dropInode dropInode
  apply Traces.ite
  · intro _
    exact inodeBfree_traces slot
  · intro _
    exact inodeSet_traces slot

theorem deleteFiledir_traces (owned : Owned fs (volume fs d)) (found : Found fs d dir n) :
    Writes fs (Traced.deleteFiledir fs dir name) d (deleteFiledir fs d dir name) := by
  unfold Traced.deleteFiledir deleteFiledir
  apply Traces.assert
  intro isDir
  apply readBlockdata_traces.bind
  intro items read
  obtain ⟨inside, rfl⟩ := blockReaddata_eq_ok.1 read
  cases search : direntryFindName (dataOf d (ofInt32 dir.blockId)) name with
  | none => exact Traces.ret rfl
  | some ind =>
    obtain ⟨place, entry⟩ := findName_some search
    have slot := slotId_of_entry owned found isDir inside place entry
    apply (inodeGet_traces slot).bind
    intro old get
    cases old with
    | none => exact Traces.fail _
    | some node =>
      apply (Traces.lift _).bind
      intro counted sub
      obtain ⟨-, rfl⟩ := addRefcnt_eq_ok.1 sub
      have own := slotId_of_get owned slot get
      apply (dropInode_traces { node with refcnt := node.refcnt + -1 } own).bind
      intro d1 _
      exact writeBlockdata_traces

theorem listDir_traces (owned : Owned fs (volume fs d)) (found : Found fs d dir n) :
    Reads fs (Traced.listDir fs dir) d (listDir fs d dir) := by
  unfold Traced.listDir listDir
  apply Traces.assert
  intro isDir
  apply readBlockdata_traces.bind
  intro items read
  obtain ⟨inside, rfl⟩ := blockReaddata_eq_ok.1 read
  apply Traces.foldlM
  intro i mem head
  unfold Traced.listEntry listEntry
  apply Traces.ite
  · intro _
    exact Traces.ret rfl
  · intro busy
    have entry : entryAt d (ofInt32 dir.blockId) i =
        some (entryId (dataOf d (ofInt32 dir.blockId)) (sizeofDirEntry * i)) := by
      rw [entryType_dataOf] at busy
      unfold entryAt
      rw [if_neg busy, entryId_dataOf]
    have place : i < 42 := List.mem_range.1 mem
    apply (inodeGet_traces (slotId_of_entry owned found isDir inside place entry)).bind
    intro old _
    cases old with
    | none => exact Traces.fail _
    | some node => exact Traces.ret rfl

end Directory

/-! ## Calls on paths -/

section Path

variable {fs : Info} {d : Disk} {path : CStr}

theorem getPathInodeLoop_traces {fuel n : Nat} {bnode : Inode} {cur : CStr}
    (owned : Owned fs (volume fs d)) (found : Found fs d bnode n) :
    Reads fs (Traced.getPathInodeLoop fs fuel bnode cur) d (getPathInodeLoop fs d fuel bnode cur) := by
  induction fuel generalizing bnode cur n with
  | zero => exact Traces.fail _
  | succ fuel ih =>
    rw [Traced.getPathInodeLoop, getPathInodeLoop]
    cases next : pathNextName cur with
    | none => exact Traces.ret rfl
    | some turn =>
      obtain ⟨name, nxt⟩ := turn
      apply getFiledir_traces.bind
      intro chiId getdir
      obtain ⟨isDir, inside, result⟩ := getFiledir_ok getdir
      apply Traces.ite
      · intro _
        exact Traces.ret rfl
      · intro there
        obtain ⟨i, place, entry⟩ := result.resolve_left there
        have slot := slotId_of_entry owned found isDir inside place entry
        apply (inodeGet_traces slot).bind
        intro child get
        cases child with
        | none => exact Traces.fail _
        | some chi =>
          cases nxt with
          | none => exact Traces.ret rfl
          | some rest => exact ih (found_of_get (slot (inodeGet_eq_ok.1 get).1) get)

theorem getPathInode_traces (owned : Owned fs (volume fs d)) :
    Reads fs (Traced.getPathInode fs path) d (getPathInode fs d path) := by
  unfold Traced.getPathInode getPathInode
  apply (inodeGet_traces (slotId_of_lt (root_slot fs))).bind
  intro found get
  cases found with
  | none => exact Traces.fail _
  | some root => exact getPathInodeLoop_traces owned (found_of_get (root_slot fs) get)

theorem onParent_traces {m : Inode → CStr → Traced Int} {act : Inode → CStr → Except Halt (Int × Disk)}
    (owned : Owned fs (volume fs d))
    (acts : ∀ node n name, Found fs d node n → Does fs (m node name) d (act node name)) :
    Does fs (Traced.onParent fs path m) d (onParent fs d path act) := by
  unfold Traced.onParent onParent
  apply (getPathInode_traces owned).bind
  intro node resolved
  apply Traces.ite
  · intro _
    cases node with
    | none => exact Traces.ret rfl
    | some node =>
      obtain ⟨n, found⟩ := getPathInode_found owned resolved
      apply Traces.ite
      · intro _
        exact acts node n _ found
      · intro _
        exact Traces.ret rfl
  · intro _
    exact Traces.ret rfl

theorem fsMkdir_traces (owned : Owned fs (volume fs d)) :
    Does fs (Traced.fsMkdir fs path) d (fsMkdir fs d path) := by
  apply onParent_traces owned
  intro node n name _
  apply (createNew_traces owned (.inr rfl)).bind
  rintro ⟨id, d'⟩ _
  exact Traces.ret rfl

theorem fsRm_traces (owned : Owned fs (volume fs d)) :
    Does fs (Traced.fsRm fs path) d (fsRm fs d path) := by
  apply onParent_traces owned
  intro node n name found
  apply (deleteFiledir_traces owned found).bind
  intro d' _
  exact Traces.ret rfl

theorem fsLink_traces {newpath : CStr} (owned : Owned fs (volume fs d)) :
    Does fs (Traced.fsLink fs path newpath) d (fsLink fs d path newpath) := by
  unfold Traced.fsLink fsLink
  apply (getPathInode_traces owned).bind
  intro old resolved
  cases old with
  | none => exact Traces.ret rfl
  | some old =>
    obtain ⟨k, found⟩ := getPathInode_found owned resolved
    have id_eq : old.id = k := by rw [found.copy, owned.id_eq k found.used]
    apply (getPathInode_traces owned).bind
    intro newdir _
    cases newdir with
    | none => exact Traces.ret rfl
    | some newdir =>
      apply (createFiledir_traces owned fun _ => slotId_of_eq found.slot id_eq).bind
      rintro ⟨id, d'⟩ _
      exact Traces.ret rfl

theorem fsReaddir_traces (owned : Owned fs (volume fs d)) :
    Reads fs (Traced.fsReaddir fs path) d (fsReaddir fs d path) := by
  unfold Traced.fsReaddir fsReaddir
  apply (getPathInode_traces owned).bind
  intro node resolved
  cases node with
  | none => exact Traces.ret rfl
  | some node =>
    obtain ⟨n, found⟩ := getPathInode_found owned resolved
    exact listDir_traces owned found

end Path

/-! ## Calls on handles -/

section Handle

variable {fs : Info} {d : Disk} {path : CStr} {f : Handle} {size : Nat}

theorem fsLookup_traces (owned : Owned fs (volume fs d)) :
    Reads fs (Traced.fsLookup fs path) d (fsLookup fs d path) := by
  unfold Traced.fsLookup fsLookup
  apply Traces.assert
  intro _
  apply (getPathInode_traces owned).bind
  intro bnode _
  exact Traces.ret rfl

theorem openCreate_traces (owned : Owned fs (volume fs d)) :
    Traces (InRange fs) (Traced.openCreate fs f) d (fun p => ((p.1, p.2.1), p.2.2))
      (openCreate fs d f) := by
  unfold Traced.openCreate openCreate
  apply Traces.ite
  · intro _
    exact Traces.ret rfl
  · intro _
    apply (getPathInode_traces owned).bind
    intro par resolved
    cases par with
    | none => exact Traces.ret rfl
    | some par =>
      obtain ⟨n, found⟩ := getPathInode_found owned resolved
      apply (createNew_traces owned (.inl rfl)).bind
      rintro ⟨id, d'⟩ create
      apply Traces.ite
      · intro _
        exact Traces.ret rfl
      · intro made
        obtain ⟨minus, -⟩ | ⟨k, first, id_eq, -⟩ :=
          createFiledir_step owned found (.inl rfl) create
        · exact absurd minus made
        · apply (inodeGet_traces (slotId_of_eq first.slot id_eq)).bind
          intro node _
          cases node with
          | none => exact Traces.fail _
          | some node => exact Traces.ret rfl

theorem inodeOpen_traces {flags : AccessFlag} (owned : Owned fs (volume fs d)) :
    Traces (InRange fs) (Traced.inodeOpen fs f flags) d (fun p => ((p.1, p.2.1), p.2.2))
      (inodeOpen fs d f flags) := by
  unfold Traced.inodeOpen inodeOpen
  dsimp only
  apply Traces.ite
  · intro _
    apply (openCreate_traces owned).bind
    rintro ⟨res, f', d'⟩ _
    exact Traces.ret rfl
  · intro _
    rw [pure_bind, ok_bind]
    exact Traces.ret rfl

/-- The range of a read is within the data of a block. -/
theorem readCount_inside {node : Inode} (start : f.offset ≤ node.size)
    (size_le : node.size ≤ blockDataSize) :
    f.offset % 2 ^ 32 + readCount f.offset node.size size ≤ blockDataSize := by
  have bound : node.size ≤ 1024 := size_le
  rw [readCount_eq start (by omega)]
  show f.offset % 2 ^ 32 + min size (node.size - f.offset) ≤ 1024
  omega

theorem inodeRead_traces (sane : Sane fs f) :
    Reads fs (Traced.inodeRead fs f size) d (inodeRead fs d f size) := by
  unfold Traced.inodeRead inodeRead
  apply Traces.ite
  · intro _
    exact Traces.ret rfl
  · intro _
    cases copy : f.ptr with
    | none => exact Traces.ret rfl
    | some node =>
      apply Traces.assert
      intro start
      apply Traces.assert
      intro _
      apply (blockReaddata_traces (readCount_inside start (sane.copy node copy).size_le)).bind
      intro buf _
      exact Traces.ret rfl

theorem storeSize_traces {node : Inode} (copy : CopyOk fs node) :
    Does fs (Traced.storeSize fs f node) d (storeSize fs d f node) := by
  obtain ⟨k, slot, id_eq⟩ := copy.slot
  unfold Traced.storeSize storeSize
  apply Traces.ite
  · intro _
    apply (inodeSet_traces (slotId_of_eq slot id_eq)).bind
    intro d' _
    exact Traces.ret rfl
  · intro _
    exact Traces.ret rfl

theorem inodeWrite_traces {buf : Mem} (sane : Sane fs f) :
    Traces (InRange fs) (Traced.inodeWrite fs f buf size) d (fun p => ((p.1, p.2.1), p.2.2))
      (inodeWrite fs d f buf size) := by
  unfold Traced.inodeWrite inodeWrite
  apply Traces.ite
  · intro _
    exact Traces.ret rfl
  · intro _
    cases copy : f.ptr with
    | none => exact Traces.ret rfl
    | some node =>
      have ok := sane.copy node copy
      have start := (sane.offset_le node copy).trans ok.size_le
      have small : f.offset % 2 ^ 32 ≤ f.offset := Nat.mod_le _ _
      have last := writeEnd_le start size
      apply Traces.assert
      intro _
      apply (blockWritedata_traces (by omega)).bind
      intro d1 _
      apply (storeSize_traces ok).bind
      rintro ⟨f', d2⟩ _
      exact Traces.ret rfl

end Handle

/-! ## Formatting -/

section Format

variable {fs : Info} {d d' : Disk}

/-- A loop whose body makes accesses in range for the blocks it is over. -/
theorem forBlocks_traces {m : Nat → Traced Unit} {body : Disk → Nat → Except Halt Disk} {n i : Nat}
    (step : ∀ j d, j < i + n → Writes fs (m j) d (body d j)) :
    Writes fs (Traced.forBlocks m n i) d (forBlocks body d n i) := by
  induction n generalizing i d with
  | zero => exact Traces.ret rfl
  | succ n ih =>
    rw [Traced.forBlocks, forBlocks]
    apply (step i d (by omega)).bind
    intro d1 _
    exact ih fun j d below => step j d (by omega)

theorem initTableBlock_traces {i : Nat} (table : i < fs.inodeBlockNum) :
    Writes fs (Traced.initTableBlock fs i) d (initTableBlock fs d i) := by
  unfold Traced.initTableBlock initTableBlock
  apply blockGetinfo_traces.bind
  intro blk _
  apply blockSetinfo_traces.bind
  intro d1 _
  exact inodeBlockInit_traces table

theorem initRoot_traces (id_eq : (inodeOf d 0).id = 0) :
    Writes fs (Traced.initRoot fs) d (initRoot fs d) := by
  have slot := root_slot fs
  unfold Traced.initRoot initRoot
  apply (inodeGet_traces (slotId_of_lt slot)).bind
  intro found get
  cases found with
  | none => exact Traces.fail _
  | some root =>
    obtain ⟨-, rfl⟩ := inodeGet_some get
    apply (Traces.lift _).bind
    intro counted add
    obtain ⟨-, rfl⟩ := addRefcnt_eq_ok.1 add
    apply (inodeSet_traces (slotId_of_eq slot id_eq)).bind
    intro d1 _
    apply Traces.assert
    intro _
    exact dirBlockInit_traces

theorem format_traces : Writes fs (Traced.format fs) d (format fs d) := by
  unfold Traced.format format
  apply (forBlocks_traces fun _ _ _ => blockInit_traces).bind
  intro d1 _
  apply (forBlocks_traces fun j _ below => initTableBlock_traces (by omega)).bind
  intro d2 _
  apply inodeAlloc_traces.bind
  rintro ⟨rootdir, d3⟩ alloc
  apply Traces.assert
  intro atZero
  have atZero : rootdir = 0 := atZero
  obtain ⟨minus, -⟩ | ⟨k, first, rootdir_eq, taken⟩ := inodeAlloc_ok alloc
  · omega
  · have zero : k = 0 := by omega
    subst zero
    exact initRoot_traces (taken.id_eq first.slot)

theorem checkBlock_traces {i : Nat} : Writes fs (Traced.checkBlock fs i) d (checkBlock fs d i) := by
  unfold Traced.checkBlock checkBlock
  apply blockCheck_traces.bind
  intro res _
  apply Traces.assert
  intro _
  exact Traces.ret rfl

end Format

end OsLab.Kernel.Blkfs
