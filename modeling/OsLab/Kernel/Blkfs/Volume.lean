import OsLab.Kernel.Blkfs.Directory

/-!
# What a disk stores

A `Volume` is the content of a blkfs device: its inodes, the types of its data blocks and the
entries of its directory blocks. `volume` reads it off a disk, and each change the functions of
blkfs make to a disk is a change of one component of its volume.
-/

namespace OsLab.Kernel.Blkfs

open OsLab.Memory OsLab.Klib

/-! ## Changes of one range of a block -/

/-- `d'` differs from `d` at most in the bytes `[lo, lo + n)` of block `b`. -/
def OnlyIn (d d' : Disk) (b lo n : Nat) : Prop :=
  ∀ c x, c ≠ b ∨ x < lo ∨ lo + n ≤ x → d' c x = d c x

section OnlyIn

variable {d d' : Disk} {b lo n : Nat}

theorem OnlyIn.agree {c a k : Nat} (h : OnlyIn d d' b lo n) (apart : c = b → Apart lo n a k) :
    AgreeOn (d c) (d' c) a k := by
  intro x above below
  apply h
  by_cases same : c = b
  · have := apart same
    omega
  · exact .inl same

theorem onlyIn_update {m : Mem} (h : ∀ x, x < lo ∨ lo + n ≤ x → m x = d b x) :
    OnlyIn d (Function.update d b m) b lo n := by
  intro c x outside
  by_cases same : c = b
  · subst same
    rw [Function.update_self]
    exact h x (by omega)
  · rw [Function.update_of_ne same]

theorem onlyIn_patch (d : Disk) (b lo n : Nat) (f : Nat → UInt8) :
    OnlyIn d (patch d b lo n f) b lo n :=
  onlyIn_update fun _ outside => store_outside outside

theorem onlyIn_setType (d : Disk) (b : Nat) (t : BlockType) :
    OnlyIn d (setType d b t) b 0 sizeofBlock :=
  onlyIn_patch d b 0 sizeofBlock _

theorem onlyIn_setInode (d : Disk) (k : Nat) (node : Inode) :
    OnlyIn d (setInode d k node) (k / inodePerBlock) (inodeOffset k) sizeofInode :=
  onlyIn_patch d _ _ _ _

theorem onlyIn_clearInode (d : Disk) (k : Nat) :
    OnlyIn d (clearInode d k) (k / inodePerBlock) (inodeOffset k) sizeofInode :=
  onlyIn_update fun _ outside => writeInt32_outside (by unfold sizeofInode at outside; omega)

theorem onlyIn_clearDir (d : Disk) (b : Nat) :
    OnlyIn d (clearDir d b) b sizeofBlock blockDataSize := by
  have within : ∀ k ≤ 42, ∀ x, x < 8 ∨ 8 + 1024 ≤ x →
      setTypes (d b) sizeofBlock sizeofDirEntry BlockType.free.code k x = d b x := by
    intro k small x outside
    induction k with
    | zero => rfl
    | succ k ih =>
      rw [setTypes, ← ih (by omega)]
      apply writeInt32_outside
      show x < 8 + 24 * k ∨ 8 + 24 * k + 4 ≤ x
      omega
  exact onlyIn_update (within 42 (Nat.le_refl _))

theorem onlyIn_setEntry {i : Nat} {name : CStr} (id : Int)
    (short : strlen name < inodeNameLen - 1) :
    OnlyIn d (setEntry d b i name id) b (entryOffset i) sizeofDirEntry := by
  have length : strlen name < 15 := short
  apply onlyIn_update
  intro x outside
  have gap : x < entryOffset i ∨ entryOffset i + 24 ≤ x := outside
  unfold putEntry
  rw [writeInt32_outside (by omega), writeInt32_outside (by omega), store_outside (by omega)]

theorem onlyIn_freeEntry (d : Disk) (b i : Nat) :
    OnlyIn d (freeEntry d b i) b (entryOffset i) sizeofDirEntry :=
  onlyIn_update fun _ outside => writeInt32_outside (by unfold sizeofDirEntry at outside; omega)

theorem inodeOf_onlyIn {m : Nat} (h : OnlyIn d d' b lo n)
    (apart : m / inodePerBlock = b → Apart lo n (inodeOffset m) sizeofInode) :
    inodeOf d' m = inodeOf d m :=
  inodeOf_congr (h.agree apart)

theorem blockType_onlyIn {c : Nat} (h : OnlyIn d d' b lo n) (apart : c = b → 8 ≤ lo) :
    blockType d' c = blockType d c :=
  readInt32_congr (h.agree fun same => .inr (apart same))

theorem entryAt_onlyIn {c i : Nat} (h : OnlyIn d d' b lo n)
    (apart : c = b → Apart lo n (entryOffset i) sizeofDirEntry) :
    entryAt d' c i = entryAt d c i := by
  have agree := h.agree apart
  have type : entryType (d' c) (entryOffset i) = entryType (d c) (entryOffset i) :=
    readInt32_congr (agree.sub (Nat.le_refl _) (by unfold sizeofDirEntry; omega))
  have id : entryId (d' c) (entryOffset i) = entryId (d c) (entryOffset i) :=
    readInt32_congr (agree.sub (by omega) (by unfold sizeofDirEntry; omega))
  unfold entryAt
  rw [type, id]

end OnlyIn

/-! ## Volumes -/

/-- The content of a device. -/
@[ext]
structure Volume where
  /-- The inodes of the table. -/
  inode : Nat → Inode
  /-- The types of the data blocks. -/
  blockType : Nat → Int
  /-- The inode ids of the entries in use, by block and place. -/
  entry : Nat → Nat → Option Int

/-- What `volume` has beyond the inode table. -/
def noInode : Inode := { type := InodeType.empty.code, id := 0, blockId := 0, refcnt := 0, size := 0 }

/-- The volume stored on a disk. -/
def volume (fs : Info) (d : Disk) : Volume where
  inode n := if n < fs.slots then inodeOf d n else noInode
  blockType b := if fs.IsData b then blockType d b else BlockType.used.code
  entry b i := if fs.IsData b ∧ i < childPerDir then entryAt d b i else none

namespace Volume

/-- The volume with `node` as inode `n`. -/
def setInode (v : Volume) (n : Nat) (node : Inode) : Volume :=
  { v with inode := Function.update v.inode n node }

def setType (v : Volume) (b : Nat) (t : BlockType) : Volume :=
  { v with blockType := Function.update v.blockType b t.code }

/-- The volume with the entries `e` in block `b`. -/
def setEntries (v : Volume) (b : Nat) (e : Nat → Option Int) : Volume :=
  { v with entry := Function.update v.entry b e }

def setEntry (v : Volume) (b i : Nat) (e : Option Int) : Volume :=
  v.setEntries b (Function.update (v.entry b) i e)

end Volume

section View

variable {fs : Info} {d d' : Disk} {b lo n : Nat}

theorem volume_inode {k : Nat} (slot : k < fs.slots) : (volume fs d).inode k = inodeOf d k :=
  if_pos slot

theorem volume_blockType {c : Nat} (data : fs.IsData c) :
    (volume fs d).blockType c = blockType d c :=
  if_pos data

theorem volume_entry {c i : Nat} (data : fs.IsData c) (place : i < 42) :
    (volume fs d).entry c i = entryAt d c i :=
  if_pos ⟨data, place⟩

/-- A change in the data of a table block is a change of the inodes. -/
theorem volume_onlyIn_table (h : OnlyIn d d' b lo n) (table : b < fs.inodeBlockNum) :
    volume fs d' = { volume fs d with inode := (volume fs d').inode } := by
  have other : ∀ {c}, fs.IsData c → c ≠ b := fun data same => by
    have := data.1
    omega
  apply Volume.ext
  · rfl
  · funext c
    by_cases data : fs.IsData c
    · show (volume fs d').blockType c = (volume fs d).blockType c
      rw [volume_blockType data, volume_blockType data]
      exact blockType_onlyIn h fun same => absurd same (other data)
    · exact (if_neg data).trans (if_neg data).symm
  · funext c i
    by_cases inside : fs.IsData c ∧ i < childPerDir
    · show (volume fs d').entry c i = (volume fs d).entry c i
      rw [volume_entry inside.1 inside.2, volume_entry inside.1 inside.2]
      exact entryAt_onlyIn h fun same => absurd same (other inside.1)
    · exact (if_neg inside).trans (if_neg inside).symm

/-- A change of a data block leaves the inodes. -/
theorem volume_onlyIn_data (h : OnlyIn d d' b lo n) (data : fs.IsData b) :
    (volume fs d').inode = (volume fs d).inode := by
  funext k
  by_cases slot : k < fs.slots
  · rw [volume_inode slot, volume_inode slot]
    exact inodeOf_onlyIn h fun same => absurd same (slot_ne_data slot data)
  · exact (if_neg slot).trans (if_neg slot).symm

/-- A change of the data of a data block is a change of its entries. -/
theorem volume_onlyIn_entries (h : OnlyIn d d' b lo n) (data : fs.IsData b) (behind : 8 ≤ lo) :
    volume fs d' = (volume fs d).setEntries b ((volume fs d').entry b) := by
  apply Volume.ext
  · exact volume_onlyIn_data h data
  · funext c
    show (volume fs d').blockType c = (volume fs d).blockType c
    by_cases inside : fs.IsData c
    · rw [volume_blockType inside, volume_blockType inside]
      exact blockType_onlyIn h fun _ => behind
    · exact (if_neg inside).trans (if_neg inside).symm
  · funext c i
    show (volume fs d').entry c i = Function.update (volume fs d).entry b _ c i
    by_cases same : c = b
    · subst same
      rw [Function.update_self]
    · rw [Function.update_of_ne same]
      by_cases inside : fs.IsData c ∧ i < childPerDir
      · rw [volume_entry inside.1 inside.2, volume_entry inside.1 inside.2]
        exact entryAt_onlyIn h fun eq => absurd eq same
      · exact (if_neg inside).trans (if_neg inside).symm

theorem volume_setInode {k : Nat} {node : Inode} (slot : k < fs.slots) (fits : node.Fits) :
    volume fs (setInode d k node) = (volume fs d).setInode k node := by
  rw [volume_onlyIn_table (onlyIn_setInode d k node) (fs.slot_block slot)]
  apply Volume.ext
  · funext m
    show (volume fs (setInode d k node)).inode m = Function.update (volume fs d).inode k node m
    by_cases same : m = k
    · subst same
      rw [Function.update_self, volume_inode slot, inodeOf_setInode_self fits]
    · rw [Function.update_of_ne same]
      unfold volume
      dsimp only
      rw [inodeOf_setInode_ne same]
  · rfl
  · rfl

theorem volume_clearInode {k : Nat} (slot : k < fs.slots) :
    volume fs (clearInode d k) =
      (volume fs d).setInode k { (volume fs d).inode k with type := InodeType.empty.code } := by
  rw [volume_onlyIn_table (onlyIn_clearInode d k) (fs.slot_block slot)]
  apply Volume.ext
  · funext m
    show (volume fs (clearInode d k)).inode m = Function.update (volume fs d).inode k _ m
    by_cases same : m = k
    · subst same
      rw [Function.update_self, volume_inode slot, volume_inode slot, inodeOf_clearInode_self]
    · rw [Function.update_of_ne same]
      unfold volume
      dsimp only
      rw [inodeOf_clearInode_ne same]
  · rfl
  · rfl

theorem volume_setType {t : BlockType} (data : fs.IsData b) :
    volume fs (setType d b t) = (volume fs d).setType b t := by
  have only := onlyIn_setType d b t
  apply Volume.ext
  · exact volume_onlyIn_data only data
  · funext c
    show (volume fs (setType d b t)).blockType c = Function.update (volume fs d).blockType b t.code c
    by_cases same : c = b
    · subst same
      rw [Function.update_self, volume_blockType data, blockType_setType_self]
    · rw [Function.update_of_ne same]
      unfold volume
      dsimp only
      rw [blockType_setType_ne same]
  · funext c i
    show (volume fs (setType d b t)).entry c i = (volume fs d).entry c i
    have header : ∀ i, Apart 0 sizeofBlock (entryOffset i) sizeofDirEntry :=
      fun i => .inl (Nat.le_add_right ..)
    unfold volume
    dsimp only
    rw [entryAt_onlyIn only fun _ => header i]

/-- A cleared directory has no entries. -/
theorem entryAt_clearDir {i : Nat} (place : i < 42) : entryAt (clearDir d b) b i = none := by
  have cleared : entryType (clearDir d b b) (entryOffset i) = BlockType.free.code := by
    unfold clearDir clearTypes
    rw [Function.update_self]
    exact readInt32_setTypes (by decide) (by decide) place
  exact if_pos cleared

theorem volume_clearDir (data : fs.IsData b) :
    volume fs (clearDir d b) = (volume fs d).setEntries b fun _ => none := by
  rw [volume_onlyIn_entries (onlyIn_clearDir d b) data (Nat.le_refl 8)]
  congr 1
  funext i
  by_cases place : i < 42
  · rw [volume_entry data place, entryAt_clearDir place]
  · exact if_neg fun both => place both.2

/-- Two entries of one block do not overlap. -/
theorem entryOffset_apart {i j : Nat} (h : j ≠ i) :
    Apart (entryOffset i) sizeofDirEntry (entryOffset j) sizeofDirEntry := by
  show 8 + 24 * i + 24 ≤ 8 + 24 * j ∨ 8 + 24 * j + 24 ≤ 8 + 24 * i
  omega

/-- A change of one entry. -/
theorem volume_onlyIn_entry {i : Nat} (h : OnlyIn d d' b (entryOffset i) sizeofDirEntry)
    (data : fs.IsData b) (place : i < 42) :
    volume fs d' = (volume fs d).setEntry b i (entryAt d' b i) := by
  rw [volume_onlyIn_entries h data (Nat.le_add_right ..), Volume.setEntry]
  congr 1
  funext j
  by_cases same : j = i
  · subst same
    rw [Function.update_self, volume_entry data place]
  · rw [Function.update_of_ne same]
    unfold volume
    dsimp only
    rw [entryAt_onlyIn h fun _ => entryOffset_apart same]

theorem entryType_setEntry {i : Nat} {name : CStr} {id : Int} :
    entryType (setEntry d b i name id b) (entryOffset i) = BlockType.used.code := by
  unfold entryType setEntry putEntry
  rw [Function.update_self, readInt32_writeInt32_apart (by omega), readInt32_writeInt32 (by decide)]

theorem entryId_setEntry {i : Nat} {name : CStr} {id : Int} (fits : FitsInt32 id) :
    entryId (setEntry d b i name id b) (entryOffset i) = id := by
  unfold entryId setEntry putEntry
  rw [Function.update_self, readInt32_writeInt32 fits]

theorem volume_setEntry {i : Nat} {name : CStr} {id : Int} (data : fs.IsData b) (place : i < 42)
    (short : strlen name < inodeNameLen - 1) (fits : FitsInt32 id) :
    volume fs (setEntry d b i name id) = (volume fs d).setEntry b i (some id) := by
  rw [volume_onlyIn_entry (onlyIn_setEntry id short) data place]
  congr 1
  unfold entryAt
  rw [entryType_setEntry, entryId_setEntry fits]
  rfl

theorem volume_freeEntry {i : Nat} (data : fs.IsData b) (place : i < 42) :
    volume fs (freeEntry d b i) = (volume fs d).setEntry b i none := by
  rw [volume_onlyIn_entry (onlyIn_freeEntry d b i) data place]
  congr 1
  apply if_pos
  unfold entryType freeEntry
  rw [Function.update_self, readInt32_writeInt32 (by decide)]

end View

end OsLab.Kernel.Blkfs
