import OsLab.Kernel.Blkfs.Effects

/-!
# Formatting a device (`fs_init` in `vfs/blkfs.c`)
-/

namespace OsLab.Kernel.Blkfs

open OsLab.Memory Volume

/-- A `for` loop over the `n` blocks from `i`. -/
def forBlocks (body : Disk → Nat → Except Halt Disk) (d : Disk) : Nat → Nat → Except Halt Disk
  | 0, _ => .ok d
  | n + 1, i => do
    let d ← body d i
    forBlocks body d n (i + 1)

/-- `fs_init` makes block `i` a block of the inode table. -/
def initTableBlock (fs : Info) (d : Disk) (i : Nat) : Except Halt Disk := do
  let blk ← blockGetinfo fs d i
  let d ← blockSetinfo fs d { blk with type := BlockType.used.code } i
  inodeBlockInit fs d i

/-- `fs_init` gives the root directory its first name and its block. -/
def initRoot (fs : Info) (d : Disk) : Except Halt Disk := do
  match ← inodeGet fs d 0 with
  | none => .error .nullDeref
  | some root =>
    let root ← addRefcnt root 1
    let d ← inodeSet fs d (ofInt32 root.id) root
    kassert (root.blockId = fs.inodeBlockNum) "Create root dir failed, expected %d but actual %d"
    dirBlockInit fs d (ofInt32 root.blockId)

/-- `fs_init` on a device without a blkfs. -/
def format (fs : Info) (d : Disk) : Except Halt Disk := do
  let d ← forBlocks (blockInit fs) d fs.totalBlockNum 0
  let d ← forBlocks (initTableBlock fs) d fs.inodeBlockNum 0
  let (rootdir, d) ← inodeAlloc fs d .dir
  kassert (rootdir = 0) "rootdir inode not at 0, it's at %d"
  initRoot fs d

/-- `fs_init` checks that block `i` carries the magic. -/
def checkBlock (fs : Info) (d : Disk) (i : Nat) : Except Halt Disk := do
  let res ← blockCheck fs d i
  kassert (res = 0) "Block %d check for %s failed."
  .ok d

/-- `fs_init` on a device of `fullSize` bytes. -/
def fsInit (fullSize : UInt32) (d : Disk) : Except Halt (Info × Disk) := do
  kassert (0 < fullSize.toNat) "The device of blkfs %s is too small: %u bytes"
  if room : inodeBlocks (fullSize.toNat / blockSize) < fullSize.toNat / blockSize then
    let fs : Info := { fullSize, room }
    let res ← blockCheck fs d 0
    let d ← if res = 0 then forBlocks (checkBlock fs) d fs.totalBlockNum 0 else format fs d
    .ok (fs, d)
  else .error (.assert "No more block for data.")

/-! ## The formatted device -/

section Loop

variable {body : Disk → Nat → Except Halt Disk}

/-- What the loop has done before block `i` holds on. -/
theorem forBlocks_invariant (inv : Nat → Disk → Prop) {n i : Nat} {d d' : Disk}
    (step : ∀ j d d', j < i + n → inv j d → body d j = .ok d' → inv (j + 1) d') (start : inv i d)
    (h : forBlocks body d n i = .ok d') : inv (i + n) d' := by
  induction n generalizing i d with
  | zero =>
    cases h
    exact start
  | succ n ih =>
    rw [forBlocks, bind_eq_ok] at h
    obtain ⟨d1, first, rest⟩ := h
    have bound : i + 1 + n = i + (n + 1) := by omega
    have done := ih (fun j d d' below => step j d d' (by omega))
      (step i d d1 (by omega) start first) rest
    rwa [bound] at done

end Loop

/-- A formatted volume: the root directory with its block, and nothing else. -/
structure Fresh (fs : Info) (v : Volume) : Prop where
  root : v.inode 0 = newInode .dir 0 fs.inodeBlockNum 1
  empty : ∀ n, n ≠ 0 → ¬ v.Used n
  rootBlock : v.blockType fs.inodeBlockNum = BlockType.used.code
  blocks : ∀ b, fs.IsData b → b ≠ fs.inodeBlockNum → v.blockType b = BlockType.free.code
  entries : ∀ i, v.entry fs.inodeBlockNum i = none

section Format

variable {fs : Info} {d d' : Disk}

theorem isData_first (fs : Info) : fs.IsData fs.inodeBlockNum :=
  ⟨Nat.le_refl _, fs.inodeBlockNum_lt⟩

theorem root_slot (fs : Info) : 0 < fs.slots := by
  have := fs.inodeBlockNum_pos
  rw [fs.slots_eq]
  omega

theorem blockInit_ok {b : Nat} (h : blockInit fs d b = .ok d') : d' = setType d b .free := by
  unfold blockInit at h
  exact (blockSetinfo_eq_ok.1 (kassert_bind_eq_ok.1 h).2).2

theorem initBlocks_ok (h : forBlocks (blockInit fs) d fs.totalBlockNum 0 = .ok d') :
    ∀ b < fs.totalBlockNum, blockType d' b = BlockType.free.code := by
  have done := forBlocks_invariant (fun i d => ∀ b < i, blockType d b = BlockType.free.code)
    (fun j d d' _ before run b below => by
      rw [blockInit_ok run]
      by_cases here : b = j
      · rw [here, blockType_setType_self]
      · rw [blockType_setType_ne here]
        exact before b (by omega))
    (fun b below => absurd below (Nat.not_lt_zero b)) h
  rwa [Nat.zero_add] at done

theorem initTableBlock_ok {i : Nat} (h : initTableBlock fs d i = .ok d') :
    d' = clearTypes (setType d i .used) i sizeofInode InodeType.empty.code inodePerBlock := by
  unfold initTableBlock at h
  obtain ⟨blk, info, h⟩ := bind_eq_ok.1 h
  obtain ⟨-, -, rfl⟩ := blockGetinfo_eq_ok.1 info
  obtain ⟨d1, set, init⟩ := bind_eq_ok.1 h
  obtain ⟨-, rfl⟩ := blockSetinfo_eq_ok.1 set
  exact ((initBlock_eq_ok (by decide) (by decide)).1 init).2

/-- The inodes of an initialised table block are empty. -/
theorem inodeOf_clearTypes_self (d : Disk) (n : Nat) :
    (inodeOf (clearTypes d (n / inodePerBlock) sizeofInode InodeType.empty.code inodePerBlock)
      n).type = InodeType.empty.code := by
  have below : n % 51 < 51 := Nat.mod_lt n (by omega)
  unfold inodeOf clearTypes
  rw [Function.update_self]
  exact readInt32_setTypes (by decide) (by decide) below

theorem initTable_ok (free : ∀ b < fs.totalBlockNum, blockType d b = BlockType.free.code)
    (h : forBlocks (initTableBlock fs) d fs.inodeBlockNum 0 = .ok d') :
    (∀ n < fs.slots, ¬ InUse d' n) ∧ ∀ b, fs.IsData b → blockType d' b = BlockType.free.code := by
  have done := forBlocks_invariant
    (fun i d => (∀ n, n / 51 < i → ¬ InUse d n) ∧
      ∀ b, fs.IsData b → blockType d b = BlockType.free.code)
    (fun j d d' below before run => by
      have written := initTableBlock_ok run
      refine ⟨fun n hn busy => ?_, fun b data => ?_⟩
      · by_cases here : n / inodePerBlock = j
        · subst here
          rw [written] at busy
          exact busy (inodeOf_clearTypes_self _ n)
        · have earlier : n / 51 ≠ j := here
          have same : inodeOf d' n = inodeOf d n := by
            rw [written, inodeOf_clearTypes here, inodeOf_setType]
          unfold InUse at busy
          rw [same] at busy
          exact before.1 n (by omega) busy
      · have other : b ≠ j := by
          have := data.1
          omega
        have cleared : ∀ d : Disk, blockType (clearTypes d j sizeofInode InodeType.empty.code
            inodePerBlock) b = blockType d b := by
          intro d
          unfold blockType clearTypes
          rw [Function.update_of_ne other]
        rw [written, cleared, blockType_setType_ne other]
        exact before.2 b data)
    ⟨fun n hn => absurd hn (Nat.not_lt_zero _), fun b data => free b data.2⟩ h
  rw [Nat.zero_add] at done
  exact ⟨fun n slot => done.1 n (fs.slot_block slot), done.2⟩

/-- The root put into an empty volume. -/
theorem fresh_of_empty {v : Volume} (empty : ∀ n, ¬ v.Used n)
    (free : ∀ b, fs.IsData b → v.blockType b = BlockType.free.code) :
    Fresh fs (((v.take .dir (some fs.inodeBlockNum)).setInode 0
      (newInode .dir 0 fs.inodeBlockNum 1)).setEntries fs.inodeBlockNum fun _ => none) where
  root := setInode_self (v.take .dir (some fs.inodeBlockNum)) 0 _
  empty n differs used := by
    have same : (((v.take .dir (some fs.inodeBlockNum)).setInode 0
        (newInode .dir 0 fs.inodeBlockNum 1)).setEntries fs.inodeBlockNum fun _ => none).inode n =
      v.inode n := setInode_ne differs
    exact empty n fun none => used ((congrArg Inode.type same).trans none)
  rootBlock := if_pos rfl
  blocks b data other := (if_neg fun eq => other (Option.some.inj eq).symm).trans (free b data)
  entries i := congrFun (setEntries_self _ fs.inodeBlockNum fun _ => none) i

/-- The disk that `fs_init` leaves behind is fresh. -/
theorem format_fresh (h : format fs d = .ok d') : Fresh fs (volume fs d') := by
  unfold format at h
  obtain ⟨d1, initBlocks, h⟩ := bind_eq_ok.1 h
  obtain ⟨d2, initTable, h⟩ := bind_eq_ok.1 h
  obtain ⟨⟨rootdir, d3⟩, alloc, h⟩ := bind_eq_ok.1 h
  obtain ⟨atZero, h⟩ := kassert_bind_eq_ok.1 h
  have atZero : rootdir = 0 := atZero
  obtain ⟨empty, free⟩ := initTable_ok (initBlocks_ok initBlocks) initTable
  have first := isData_first fs
  have slot := root_slot fs
  have fits : ∀ r, FitsInt32 r → (newInode .dir 0 fs.inodeBlockNum r).Fits :=
    fun r hr => newInode_fits slot (fits_block first) hr
  obtain ⟨minus, -⟩ | ⟨k, -, rootdir_eq, taken⟩ := inodeAlloc_ok alloc
  · omega
  · have zero : k = 0 := by omega
    subst zero
    cases taken with
    | bare full => exact absurd (free _ first) (full _ first)
    | withBlock b data found =>
      have here : b = fs.inodeBlockNum := by
        by_contra later
        have lower := found.from_le
        exact found.first _ (Nat.le_refl _) (by omega) (free _ first)
      subst here
      unfold initRoot at h
      obtain ⟨root, get, h⟩ := bind_eq_ok.1 h
      cases root with
      | none => cases h
      | some root =>
        obtain ⟨-, copy⟩ := inodeGet_some get
        rw [inodeOf_setInode_self (fits 0 (by decide))] at copy
        subst copy
        obtain ⟨counted, add, h⟩ := bind_eq_ok.1 h
        obtain ⟨-, rfl⟩ := addRefcnt_eq_ok.1 add
        obtain ⟨d4, set, h⟩ := bind_eq_ok.1 h
        obtain ⟨-, rfl⟩ := inodeSet_eq_ok.1 set
        obtain ⟨-, init⟩ := kassert_bind_eq_ok.1 h
        obtain ⟨-, rfl⟩ := dirBlockInit_eq_ok.1 init
        have atRoot : ofInt32 (newInode .dir 0 fs.inodeBlockNum 0).id = 0 := by
          show ofInt32 0 = 0
          decide
        have atBlock : ofInt32 (newInode .dir 0 fs.inodeBlockNum 0).blockId = fs.inodeBlockNum :=
          ofInt32_block first.2
        have counted : ({ newInode .dir 0 fs.inodeBlockNum 0 with
            refcnt := (newInode .dir 0 fs.inodeBlockNum 0).refcnt + 1 } : Inode) =
          newInode .dir 0 fs.inodeBlockNum 1 := rfl
        dsimp only at *
        rw [atRoot, atBlock, volume_clearDir first, counted, setInode_setInode,
          volume_setInode slot (fits 1 (by decide)), volume_newBlock first]
        apply fresh_of_empty
        · intro n used
          have slot := slot_of_used used
          exact empty n slot ((volume_used slot).1 used)
        · intro b data
          exact (volume_blockType data).trans (free b data)

/-- In a fresh volume the root owns its block. -/
theorem Fresh.owned {v : Volume} (h : Fresh fs v) : Owned fs v := by
  have only : ∀ {n}, v.Used n → n = 0 := fun used => not_not.1 fun other => h.empty _ other used
  have first := isData_first fs
  have used : v.Used 0 := by
    unfold Used
    rw [h.root]
    show InodeType.dir.code ≠ InodeType.empty.code
    decide
  refine ⟨fun n hn => ?_, fun n hn => ?_, fun n hn => ?_, fun n hn => ?_, fun m n hm hn _ _ => ?_,
    fun b data busy => ?_, fun b data => ?_, fun n b i id dir entry => ?_, fun n hn => ?_⟩
  · rw [only hn]
    exact root_slot fs
  · rw [only hn, h.root]
    rfl
  · rw [only hn, h.root]
    exact .inr rfl
  · rw [only hn, h.root]
    exact .inr ⟨_, first, rfl, h.rootBlock⟩
  · rw [only hm, only hn]
  · refine ⟨0, used, ?_⟩
    by_cases here : b = fs.inodeBlockNum
    · rw [h.root, here]
      rfl
    · have := (h.blocks b data here).symm.trans busy
      contradiction
  · by_cases here : b = fs.inodeBlockNum
    · exact .inr (here ▸ h.rootBlock)
    · exact .inl (h.blocks b data here)
  · have block := dir.block
    rw [only dir.used, h.root] at block
    have here : fs.inodeBlockNum = b := Int.ofNat.inj block
    rw [← here, h.entries i] at entry
    contradiction
  · rw [only hn, h.root]
    exact Nat.zero_le _

/-- `fs_init` formats a device whose first block lacks the magic. -/
theorem fsInit_format {fullSize : UInt32} (blank : blockMagic d 0 ≠ magic)
    (h : fsInit fullSize d = .ok (fs, d')) : format fs d = .ok d' := by
  unfold fsInit at h
  obtain ⟨-, h⟩ := kassert_bind_eq_ok.1 h
  by_cases room : inodeBlocks (fullSize.toNat / blockSize) < fullSize.toNat / blockSize
  · rw [dif_pos room] at h
    obtain ⟨res, check, h⟩ := bind_eq_ok.1 h
    have failed : res ≠ 0 := by
      unfold blockCheck at check
      obtain ⟨-, check⟩ := kassert_bind_eq_ok.1 check
      obtain ⟨buf, read, check⟩ := bind_eq_ok.1 check
      obtain ⟨-, -, rfl⟩ := blockRead_eq_ok.1 read
      have noMagic : ¬ (readBlock fun k => d 0 (0 + k)).magic = magic := by
        simp only [Nat.zero_add]
        exact blank
      rw [if_neg noMagic] at check
      cases check
      decide
    rw [if_neg failed] at h
    obtain ⟨d1, done, h⟩ := bind_eq_ok.1 h
    cases h
    exact done
  · rw [dif_neg room] at h
    contradiction

theorem fsInit_fresh {fullSize : UInt32} (blank : blockMagic d 0 ≠ magic)
    (h : fsInit fullSize d = .ok (fs, d')) : Fresh fs (volume fs d') :=
  format_fresh (fsInit_format blank h)

end Format

end OsLab.Kernel.Blkfs
