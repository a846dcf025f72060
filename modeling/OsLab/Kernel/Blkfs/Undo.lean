import OsLab.Kernel.Blkfs.Lookup
import OsLab.Kernel.Blkfs.Reach
import OsLab.Kernel.Blkfs.Removal

/-!
# `fs_rm` undoes `fs_mkdir`

What `inode_alloc` and `create_filedir` take, `delete_filedir` and `inode_bfree` give back: the inode, its
block and the entry. The bytes differ, but nothing that is in use does: `mkdir_undone`. A directory whose
block was freed under it loses its entries to `dir_block_init`, and they do not come back.
-/

namespace OsLab.Kernel.Blkfs

open OsLab.Memory OsLab.Klib OsLab.RefCount Volume

/-! ## Disks with the same tree -/

/-- An entry in use of block `b` has the name and the inode id. -/
def HasEntry (d : Disk) (b : Nat) (name : CStr) (id : Int) : Prop :=
  ∃ i < 42, entryAt d b i = some id ∧ nameAt d b i = name

/-- The same inodes are in use, and the directories have the same entries in the same places. -/
structure SameTree (fs : Info) (d d' : Disk) : Prop where
  inUse : ∀ m < fs.slots, (InUse d' m ↔ InUse d m)
  inode : ∀ m < fs.slots, InUse d m → inodeOf d' m = inodeOf d m
  entry : ∀ m c, (volume fs d).IsDir m c → ∀ i < 42, entryAt d' c i = entryAt d c i
  name : ∀ m c, (volume fs d).IsDir m c → ∀ i < 42, entryAt d c i ≠ none →
    nameAt d' c i = nameAt d c i

section SameTree

variable {fs : Info} {d d' : Disk} {node : Inode} {m c : Nat} {name : CStr} {r : Option Inode}

theorem SameTree.isDir_iff (h : SameTree fs d d') :
    (volume fs d').IsDir m c ↔ (volume fs d).IsDir m c := by
  constructor
  · intro dir
    obtain ⟨slot, busy⟩ := inUse_of_isDir dir
    have same := h.inode m slot ((h.inUse m slot).1 busy)
    rw [Blkfs.isDir_iff, same] at dir
    exact Blkfs.isDir_iff.2 dir
  · intro dir
    obtain ⟨slot, busy⟩ := inUse_of_isDir dir
    rw [Blkfs.isDir_iff, h.inode m slot busy]
    exact Blkfs.isDir_iff.1 dir

theorem SameTree.symm (h : SameTree fs d d') : SameTree fs d' d where
  inUse m slot := (h.inUse m slot).symm
  inode m slot busy := (h.inode m slot ((h.inUse m slot).1 busy)).symm
  entry m c dir i place := (h.entry m c (h.isDir_iff.1 dir) i place).symm
  name m c dir i place busy := by
    have old := h.isDir_iff.1 dir
    rw [h.entry m c old i place] at busy
    exact (h.name m c old i place busy).symm

theorem SameTree.hasEntry_iff (h : SameTree fs d d') (dir : (volume fs d).IsDir m c) (id : Int) :
    HasEntry d' c name id ↔ HasEntry d c name id := by
  apply exists_congr
  intro i
  apply and_congr_right
  intro place
  rw [h.entry m c dir i place]
  apply and_congr_right
  intro entry
  rw [h.name m c dir i place (by rw [entry]; exact Option.some_ne_none _)]

theorem SameTree.nameId (h : SameTree fs d d') (dir : (volume fs d).IsDir m c) (fit : FitName name) :
    nameId d' c name = nameId d c name := by
  have same : findName d' c name = findName d c name := by
    apply findName_congr fit
    intro i place
    rw [entryNamed_iff fit place, entryNamed_iff fit place, h.entry m c dir i place]
    apply and_congr_right
    intro busy
    rw [h.name m c dir i place busy]
  cases search : findName d c name with
  | none =>
    unfold Blkfs.nameId
    rw [same, search]
  | some i =>
    apply Option.some.inj
    rw [nameId_some search, nameId_some (same.trans search)]
    exact h.entry m c dir i (findName_some search).1

theorem SameTree.extends (h : SameTree fs d d') : Extends fs d d' :=
  ⟨h.inode, fun _ _ dir _ fit _ => h.nameId dir fit⟩

/-- A turn of `get_path_inode` has the same result. -/
theorem SameTree.childOf (h : SameTree fs d d') (owned : Owned fs (volume fs d))
    (found : Found fs d node m) (ended : 0 ∉ name) (turn : childOf fs d node name = .ok r) :
    childOf fs d' node name = .ok r := by
  cases r with
  | some chi => exact (h.extends.childOf_eq owned found ended turn).1
  | none =>
    obtain ⟨id, get, ⟨minus, -⟩ | ⟨-, chi, -, none⟩⟩ := childOf_eq_ok.1 turn
    · obtain ⟨isDir, short, inside, rfl⟩ := getFiledir_eq_ok.1 get
      obtain ⟨b, data, dir, block⟩ := found.dir owned isDir inside
      have fit := fitName_of_short short ended
      refine childOf_eq_ok.2 ⟨-1, getFiledir_eq_ok.2 ⟨isDir, short, inside, ?_⟩, .inl ⟨rfl, rfl⟩⟩
      rw [block] at minus ⊢
      rw [h.nameId dir fit, minus]
    · contradiction

theorem SameTree.walk (h : SameTree fs d d') (owned : Owned fs (volume fs d))
    (found : Found fs d node m) {names : List CStr} (ended : ∀ name ∈ names, 0 ∉ name)
    (walked : walk fs d node names = .ok r) : walk fs d' node names = .ok r := by
  induction names generalizing node m with
  | nil => exact walked
  | cons name names ih =>
    rw [Blkfs.walk, bind_eq_ok] at walked
    obtain ⟨child, turn, rest⟩ := walked
    have endedName := ended name List.mem_cons_self
    rw [Blkfs.walk, h.childOf owned found endedName turn, ok_bind]
    cases child with
    | none => exact rest
    | some chi =>
      obtain ⟨-, j, foundChi⟩ := h.extends.childOf_eq owned found endedName turn
      exact ih foundChi (fun o mem => ended o (List.mem_cons_of_mem name mem)) rest

/-- A path has the same result. -/
theorem SameTree.getPathInode (h : SameTree fs d d') (owned : Owned fs (volume fs d)) {path : CStr}
    (ended : 0 ∉ path) (resolve : getPathInode fs d path = .ok r) :
    getPathInode fs d' path = .ok r := by
  obtain ⟨root, get, walked⟩ := getPathInode_eq_ok.1 resolve
  have slot := root_slot fs
  exact getPathInode_eq_ok.2 ⟨root, h.extends.inodeGet_eq slot get, h.walk owned
    (found_of_get slot get) (fun _ mem => notMem_of_components ended mem) walked⟩

end SameTree

/-! ## A creation and its removal -/

section Undo

variable {fs : Info} {d d1 d' d2 d3 : Disk} {b c k ind m n : Nat} {name : CStr}

theorem Created.entryAt_ne {type : InodeType} {i : Nat} (made : Created fs d d1 type b name k ind d2)
    (kept : dataOf d2 b = dataOf d b) (differs : i ≠ ind) : entryAt d1 b i = entryAt d b i := by
  rw [made.disk, ← entryAt_congr kept]
  exact entryAt_onlyIn (onlyIn_setEntry k made.short) fun _ => entryOffset_apart differs

theorem Created.nameAt_ne {type : InodeType} {i : Nat} (made : Created fs d d1 type b name k ind d2)
    (kept : dataOf d2 b = dataOf d b) (differs : i ≠ ind) (place : i < 42)
    (short : (nameAt d b i).length ≤ 14) : nameAt d1 b i = nameAt d b i := by
  rw [← nameAt_congr kept] at short ⊢
  rw [made.disk]
  exact nameAt_onlyIn (onlyIn_setEntry k made.short) (entryOffset_apart differs) place short

/-- A creation takes the block of the new inode, which was free, and no other. -/
theorem Created.blockType {type : InodeType} (made : Created fs d d1 type b name k ind d2)
    (isData : fs.IsData b) :
    ((inodeOf d1 k).blockId = c → blockType d c = BlockType.free.code) ∧
      ((inodeOf d1 k).blockId ≠ c → blockType d1 c = blockType d c) := by
  have slot := made.first.slot
  have behind : Blkfs.blockType d1 c = Blkfs.blockType d2 c := by
    rw [made.disk]
    exact blockType_onlyIn (onlyIn_setEntry k made.short) fun _ => Nat.le_add_right ..
  have table : ∀ d0 node, Blkfs.blockType (setInode d0 k node) c = Blkfs.blockType d0 c :=
    fun d0 node => blockType_onlyIn (onlyIn_setInode d0 k node) fun _ => Nat.le_add_right ..
  rw [behind, made.inodeOf_eq isData slot]
  have alloc := made.alloc
  cases alloc with
  | bare full =>
    rw [table, inodeOf_setInode_self (newInode_fits slot (by decide) (by decide))]
    refine ⟨fun same => ?_, fun _ => rfl⟩
    have minus : (-1 : Int) = c := same
    omega
  | withBlock c' data found =>
    rw [table, inodeOf_setInode_self (newInode_fits slot (fits_block data) (by decide))]
    refine ⟨fun same => ?_, fun other => ?_⟩
    · cases Int.ofNat.inj (show (c' : Int) = c from same)
      exact found.free
    · have differs : c ≠ c' := fun same => other (congrArg Int.ofNat same.symm)
      unfold newBlock
      split
      · rw [blockType_onlyIn (onlyIn_clearDir _ c') fun _ => Nat.le_refl _,
          blockType_setType_ne differs]
      · exact blockType_setType_ne differs

/-- The name leads to the new inode, in the place it was entered. -/
theorem Created.entered {type : InodeType} (made : Created fs d d1 type b name k ind d2)
    (kept : dataOf d2 b = dataOf d b) (ended : 0 ∉ name) :
    findName d1 b name = some ind ∧ entryAt d1 b ind = some (k : Int) := by
  have search := made.findName_self kept ended
  refine ⟨search, ?_⟩
  rw [← nameId_some search, made.nameId_self kept ended]

/-- The path still leads to the directory. -/
theorem Created.looksIn {type : InodeType} {path : CStr} {dir : Inode}
    (made : Created fs d d1 type b (pathGetName path) k ind d2) (owned : Owned fs (volume fs d))
    (ended : 0 ∉ path) (named : pathGetName path ≠ [])
    (resolve : getPathInode fs d (pathGetDirectory path) = .ok (some dir)) (found : Found fs d dir n)
    (isData : fs.IsData b) (isDir : (volume fs d).IsDir n b) : LooksIn fs d1 path n b := by
  obtain ⟨slot, type, block⟩ := isDir_iff.1 isDir
  have copy : dir = inodeOf d n := found.copy.trans (volume_inode found.slot)
  have other : n ≠ k := fun same => made.first.empty (same ▸ (volume_used slot).1 isDir.used)
  have same := made.inodeOf_ne isData slot other
  have extended := made.extends isData owned (notMem_pathGetName ended)
  refine ⟨⟨slot, (congrArg _ same).trans type, isData, (congrArg _ same).trans block⟩, ?_, named⟩
  rw [same, ← copy]
  exact extended.getPathInode_eq owned (notMem_pathGetDirectory ended) resolve

theorem Created.refcnt {type : InodeType} (made : Created fs d d1 type b name k ind d2)
    (isData : fs.IsData b) : (inodeOf d1 k).refcnt = 1 := by
  have slot := made.first.slot
  obtain ⟨blockId, stored⟩ := made.alloc.inode slot (by decide)
  rw [made.inodeOf_eq isData slot, stored]
  rfl

variable {type : InodeType} (made : Created fs d d1 type b name k ind d2)
  (gone : Unlinked fs d1 d' b name k ind d3) (isData : fs.IsData b)
include made gone isData

/-- The marks are what they were. -/
theorem blockType_undone : blockType d' c = blockType d c := by
  obtain ⟨free, other⟩ := made.blockType (c := c) isData
  rw [gone.blockType]
  by_cases here : (inodeOf d1 k).blockId = c
  · rw [if_pos ⟨made.refcnt isData, here⟩, free here]
  · rw [if_neg fun both => here both.2, other here]

/-- The tree is what it was. -/
theorem sameTree_undone (owned : Owned fs (volume fs d)) (distinct : Distinct fs d)
    (dir : (volume fs d).IsDir n b) : SameTree fs d d' := by
  have last := made.refcnt isData
  have kept : ∀ {m c}, (volume fs d).IsDir m c → dataOf d2 c = dataOf d c := fun isDir =>
    dataOf_allocated made.alloc (owned.data isDir.used isDir.block).1 made.first.slot
      (not_firstFree owned isDir.used isDir.block)
  have free : entryAt d b ind = none := (findFree_some made.place).2
  refine ⟨fun m slot => ?_, fun m slot busy => ?_, fun m c isDir i place => ?_,
    fun m c isDir i place busy => ?_⟩
  · by_cases here : m = k
    · subst here
      exact iff_of_false (fun busy => (gone.inUse_iff isData).1 busy last) made.first.empty
    · unfold InUse
      rw [gone.inodeOf_ne isData slot here, made.inodeOf_ne isData slot here]
  · have other : m ≠ k := fun here => made.first.empty (here ▸ busy)
    rw [gone.inodeOf_ne isData slot other, made.inodeOf_ne isData slot other]
  · by_cases here : c = b
    · subst here
      by_cases self : i = ind
      · rw [self, gone.entryAt_self, free]
      · rw [gone.entryAt_ne isData self, made.entryAt_ne (kept dir) self]
    · have isDataC := (owned.data isDir.used isDir.block).1
      rw [entryAt_congr (gone.dataOf_ne isDataC here), made.disk,
        entryAt_congr (dataOf_setEntry here), entryAt_congr (kept isDir)]
  · by_cases here : c = b
    · subst here
      have self : i ≠ ind := by
        rintro rfl
        exact busy free
      have short := (distinct m c isDir).short i place busy
      have first := made.nameAt_ne (kept dir) self place short
      rw [gone.nameAt_ne isData self place (first ▸ short), first]
    · have isDataC := (owned.data isDir.used isDir.block).1
      rw [nameAt_congr (gone.dataOf_ne isDataC here), made.disk,
        nameAt_congr (dataOf_setEntry here), nameAt_congr (kept isDir)]

end Undo

/-! ## The calls -/

/-- Whatever is in use on `d` is the same on `d'`: the inodes with their counts, the marks of the blocks,
the entries of the directories and what the paths lead to. -/
structure Restored (fs : Info) (d d' : Disk) : Prop where
  inUse : ∀ n < fs.slots, (InUse d' n ↔ InUse d n)
  inode : ∀ n < fs.slots, InUse d n → inodeOf d' n = inodeOf d n
  marks : ∀ b, blockType d' b = blockType d b
  entries : ∀ n b, Parent fs d n b → ∀ name id, (HasEntry d' b name id ↔ HasEntry d b name id)
  resolves : ∀ path, 0 ∉ path → ∀ r, getPathInode fs d' path = .ok r ↔ getPathInode fs d path = .ok r

section Runs

variable {fs : Info} {s : State} {hist : List Change} {stale : Nat → Prop} {path : CStr} {d1 : Disk}

/-- In every state of a run whose writes through stale handles are harmless a directory that `fs_mkdir`
made is taken away again by `fs_rm`, and all is as before. -/
theorem mkdir_undone (run : Run fs (CleanCalls fs) s hist stale) (ended : 0 ∉ path)
    (call : fsMkdir fs s.disk path = .ok (0, d1)) :
    ∃ d', fsRm fs d1 path = .ok (0, d') ∧ Restored fs s.disk d' := by
  have clean : CleanCalls fs stale s (.mkdir path) := ⟨trivial, ended⟩
  have run1 := run.step clean (exec_mkdir call)
  have owned := (run.sound fun _ _ _ ok => ok.1).owned
  have owned1 : Owned fs (volume fs d1) := (run1.sound fun _ _ _ ok => ok.1).owned
  have unbroken := run1.unbroken fun _ _ _ ok => ok.1
  obtain ⟨minus, -⟩ | ⟨-, named, dir, n, b, k, ind, d2, resolve, found, data, isDir, made⟩ :=
    fsMkdir_created owned call
  · exact absurd minus (by decide)
  · have terminated := notMem_pathGetName ended
    have looks := made.looksIn owned ended named resolve found data isDir
    have kept := dataOf_allocated made.alloc data made.first.slot
      (not_firstFree owned isDir.used isDir.block)
    obtain ⟨search, entry⟩ := made.entered kept terminated
    obtain ⟨d', delete⟩ : ∃ d', deleteFiledir fs d1 (inodeOf d1 n) (pathGetName path) = .ok d' := by
      apply (deleteFiledir_iff owned1 unbroken.stamped unbroken.intact looks.parent looks.isDir).2
      rintro j child
      obtain ⟨i', found', entry'⟩ := (child_iff looks.isDir).1 child
      cases search.symm.trans found'
      cases Int.ofNat.inj (Option.some.inj (entry.symm.trans entry'))
      exact made.inUse data (.inr rfl)
    have rm : fsRm fs d1 path = .ok (0, d') := by
      rw [looks.fsRm_eq, delete]
      rfl
    have clean2 : CleanCalls fs (staleAfter stale s { s with disk := d1 }) { s with disk := d1 }
        (.rm path) := ⟨trivial, ended⟩
    have run2 := run1.step clean2 (exec_rm rm)
    have owned2 : Owned fs (volume fs d') := (run2.sound fun _ _ _ ok => ok.1).owned
    obtain ⟨minus, -⟩ | ⟨-, n', b', looks', ⟨missing, -⟩ | ⟨k', ind', d3, gone⟩⟩ := fsRm_ok owned1 rm
    · exact absurd minus (by decide)
    · obtain ⟨-, rfl⟩ := looks.unique owned1 looks'
      rw [search] at missing
      contradiction
    · obtain ⟨-, rfl⟩ := looks.unique owned1 looks'
      cases search.symm.trans gone.found
      cases Int.ofNat.inj (Option.some.inj (entry.symm.trans gone.entry))
      have tree := sameTree_undone made gone data owned run.distinct.1 isDir
      refine ⟨d', rm, tree.inUse, tree.inode, fun c => blockType_undone made gone data,
        fun m c parent name id => ?_, fun other endedOther r => ⟨?_, ?_⟩⟩
      · exact tree.hasEntry_iff (isDir_iff.2 ⟨parent.slot, parent.type, parent.block⟩) id
      · exact tree.symm.getPathInode owned2 endedOther
      · exact tree.getPathInode owned endedOther

theorem mkdir_undone_made : ∃ d', fsRm fourBlocks (madeDisk .dir) [47, 97] = .ok (0, d') ∧
    Restored fourBlocks (freshDisk 4128) d' :=
  mkdir_undone (run_fresh (by decide +kernel)) (by decide) fsMkdir_made

end Runs

/-! ## A directory without its block -/

section Entered

variable {fs : Info} {d d' : Disk} {dir : Inode} {name : CStr} {b c k ind : Nat}

/-- The entries of the block that a new directory takes do not come back with its removal. -/
theorem entryAt_removed (isData : fs.IsData b) (isDataC : fs.IsData c) (other : c ≠ b)
    (slot : k < fs.slots) (fit : FitName name) (missing : findName d b name = none)
    (place : findFree d b = some ind) (block : ofInt32 dir.blockId = b)
    (delete : deleteFiledir fs (entered d .dir b ind name k c) dir name = .ok d') :
    ∀ i < 42, entryAt d' c i = none := by
  have table : c ≠ k / inodePerBlock := (slot_ne_data slot isDataC).symm
  have fits : (newInode .dir k c 1).Fits := newInode_fits slot (fits_block isDataC) (by decide)
  have kept : dataOf (setInode (newBlock d .dir c) k (newInode .dir k c 1)) b = dataOf d b := by
    rw [dataOf_setInode (slot_ne_data slot isData).symm, dataOf_newBlock other.symm]
  have found : findName (entered d .dir b ind name k c) b name = some ind := by
    apply findName_setEntry fit (findFree_some place).1
    unfold findName
    rw [kept]
    exact missing
  have named : entryId (dataOf (entered d .dir b ind name k c) b) (sizeofDirEntry * ind) = k := by
    apply Option.some.inj
    rw [← (findName_some found).2]
    exact entryAt_setEntry_self fits.id
  have stored : inodeOf (entered d .dir b ind name k c) k = newInode .dir k c 1 := by
    unfold entered
    rw [inodeOf_setEntry isData slot fit.strlen_lt, inodeOf_setInode_self fits]
  obtain ⟨-, -, ⟨none, -⟩ | ⟨i, d1, removed, rfl⟩⟩ := deleteFiledir_ok delete
  · rw [block, found] at none
    contradiction
  · rw [block] at removed ⊢
    cases found.symm.trans removed.found
    have drop := removed.drop
    rw [named, ofInt32_slot slot, stored] at drop
    obtain ⟨-, ⟨minus, -⟩ | ⟨-, rfl⟩⟩ := inodeBfree_ok ((if_pos rfl).symm.trans drop)
    · rw [show ofInt32 (newInode .dir k c 1).id = k from ofInt32_slot slot, stored] at minus
      have minus : (c : Int) = -1 := minus
      omega
    · intro j bound
      have id_eq : ofInt32 (newInode .dir k c 1).id = k := ofInt32_slot slot
      dsimp only
      rw [id_eq]
      have same : dataOf (patch (clearInode (setType (entered d .dir b ind name k c)
          (ofInt32 (inodeOf (entered d .dir b ind name k c) k).blockId) .free) k) b sizeofBlock
          blockDataSize (writeInt32 (dataOf (entered d .dir b ind name k c) b) (sizeofDirEntry * ind)
            BlockType.free.code)) c = dataOf (newBlock d .dir c) c := by
        have before : dataOf (clearInode (setType (entered d .dir b ind name k c)
            (ofInt32 (inodeOf (entered d .dir b ind name k c) k).blockId) .free) k) c =
            dataOf (newBlock d .dir c) c := by
          rw [dataOf_clearInode table, dataOf_setType]
          unfold entered
          rw [dataOf_setEntry other, dataOf_setInode table]
        rw [← before]
        unfold dataOf patch
        rw [Function.update_of_ne other]
      rw [entryAt_congr same]
      exact entryAt_clearDir bound

end Entered

/-- The path `"/"` is the root. -/
theorem getPathInode_slash {fs : Info} {d : Disk} (busy : InUse d 0) :
    getPathInode fs d [slash] = .ok (some (inodeOf d 0)) := by
  have inside := (fs.slot_block (root_slot fs)).trans fs.inodeBlockNum_lt
  exact getPathInode_eq_ok.2 ⟨_, inodeGet_eq_ok.2 ⟨inside, .inr ⟨busy, rfl⟩⟩, rfl⟩

/-- The bytes of two entries in use that name inode 1 `"f"` and inode 0 `"g"`. -/
def forgedPair : Mem := fun i => if i < 24 then forged i else
  if i = 24 then 1 else if i = 28 then 103 else 0

/-- The entries are written into `"/d"` and `"/d/f"` is removed, which frees the block of `"/d"`. -/
def filled : State := after fourBlocks shared (.write 0 forgedPair 48)

def unfilled : State := after fourBlocks filled (.rm [47, 100, 47, 102])

theorem unfilled_run : ∃ hist stale, Run fourBlocks (fun _ _ _ => True) unfilled hist stale := by
  obtain ⟨hist, stale, run⟩ := shared_run
  obtain ⟨r1, call1⟩ := exec_after fourBlocks shared (.write 0 forgedPair 48) (by decide +kernel)
  obtain ⟨r2, call2⟩ := exec_after fourBlocks filled (.rm [47, 100, 47, 102]) (by decide +kernel)
  exact ⟨_, _, (run.step trivial call1).step trivial call2⟩

/-- `mkdir /x` takes the block of `"/d"`, and the entry `"g"` of `"/d"` does not come back. -/
theorem mkdir_loses_entry :
    (∃ hist stale, Run fourBlocks (fun _ _ _ => True) unfilled hist stale) ∧
    (∃ b, fourBlocks.IsData b ∧ blockType unfilled.disk b = BlockType.free.code) ∧
    (∃ n < fourBlocks.slots, ¬ InUse unfilled.disk n) ∧
    ∃ d1, fsMkdir fourBlocks unfilled.disk [47, 120] = .ok (0, d1) ∧
      ¬ ∃ d', fsRm fourBlocks d1 [47, 120] = .ok (0, d') ∧ Restored fourBlocks unfilled.disk d' := by
  obtain ⟨⟨rootType, rootBlock⟩, ⟨type, block⟩, ⟨entry, name⟩, ⟨empty, inUse⟩, ⟨free, taken⟩,
      ⟨stamped, stamped'⟩, missing, place⟩ :
      ((inodeOf unfilled.disk 0).type = 2 ∧ (inodeOf unfilled.disk 0).blockId = 1) ∧
      ((inodeOf unfilled.disk 2).type = 2 ∧ (inodeOf unfilled.disk 2).blockId = 2) ∧
      (entryAt unfilled.disk 2 2 = some 0 ∧ nameAt unfilled.disk 2 2 = [103]) ∧
      (¬ InUse unfilled.disk 1 ∧ InUse unfilled.disk 0) ∧
      (blockType unfilled.disk 2 = 0 ∧ blockType unfilled.disk 1 ≠ 0) ∧
      (blockMagic unfilled.disk 1 = magic ∧ blockMagic unfilled.disk 2 = magic) ∧
      findName unfilled.disk 1 [120] = none ∧ findFree unfilled.disk 1 = some 1 := by
    decide +kernel
  have root : Parent fourBlocks unfilled.disk 0 1 := ⟨by decide, rootType, by decide, rootBlock⟩
  have parent : Parent fourBlocks unfilled.disk 2 2 := ⟨by decide, type, by decide, block⟩
  have first : FirstEmpty fourBlocks unfilled.disk 1 := by
    refine ⟨by decide, empty, fun n below => ?_⟩
    rw [Nat.lt_one_iff.1 below]
    exact inUse
  have found : FirstFree unfilled.disk 1 2 := by
    refine ⟨by decide, free, fun c lo hi => ?_, fun c lo hi => ?_⟩
    · rw [show c = 1 by omega]
      exact taken
    · obtain rfl | rfl : c = 1 ∨ c = 2 := by omega
      · exact stamped
      · exact stamped'
  have valid : ValidName [120] := ⟨by decide, by decide, by decide⟩
  have directory : pathGetDirectory [47, 120] = [slash] := by decide
  have base : pathGetName [47, 120] = [120] := by decide
  have make : createFiledir fourBlocks unfilled.disk (inodeOf unfilled.disk 0) .dir (-1) [120] =
      .ok ((1 : Nat), entered unfilled.disk .dir 1 1 [120] 1 2) :=
    createFiledir_entered root (.inr rfl) valid missing place first (by decide) found (by decide)
  refine ⟨unfilled_run, ⟨2, by decide, free⟩, ⟨1, by decide, empty⟩,
    entered unfilled.disk .dir 1 1 [120] 1 2, ?_, ?_⟩
  · rw [fsMkdir_eq root valid ⟨directory ▸ getPathInode_slash inUse, base⟩, make]
    rfl
  · rintro ⟨d', rm, restored⟩
    have same : inodeOf (entered unfilled.disk .dir 1 1 [120] 1 2) 0 = inodeOf unfilled.disk 0 := by
      unfold entered
      rw [inodeOf_setEntry root.data root.slot valid.fit.strlen_lt, inodeOf_setInode_ne (by decide),
        inodeOf_newBlock (by decide)]
    have looks : LooksIn fourBlocks (entered unfilled.disk .dir 1 1 [120] 1 2) [47, 120] 0 1 := by
      have busy : InUse (entered unfilled.disk .dir 1 1 [120] 1 2) 0 := by
        unfold InUse
        rw [same]
        exact inUse
      exact ⟨⟨root.slot, (congrArg Inode.type same).trans rootType, root.data,
        (congrArg Inode.blockId same).trans rootBlock⟩, directory ▸ getPathInode_slash busy,
        by decide⟩
    rw [looks.fsRm_eq, bind_eq_ok] at rm
    obtain ⟨d2, delete, done⟩ := rm
    cases done
    have none := entryAt_removed root.data (by decide) (by decide) (by decide) valid.fit missing place
      looks.parent.inside delete
    obtain ⟨i, bound, there, -⟩ :=
      (restored.entries 2 2 parent [103] 0).2 ⟨2, by decide, entry, name⟩
    exact Option.some_ne_none _ (there.symm.trans (none i bound))

end OsLab.Kernel.Blkfs
