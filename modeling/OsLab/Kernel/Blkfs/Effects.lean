import OsLab.Kernel.Blkfs.Calls
import OsLab.Kernel.Blkfs.Owned

/-!
# The calls refine the abstract file system

On a disk whose volume is `Owned`, a call on paths that returns has made a `Step` of the volume:
`fsMkdir_step`, `fsRm_step`, `fsLink_step` and `openCreate_step`. Each says which inode the step is about in terms
of the disk before the call.
-/

namespace OsLab.Kernel.Blkfs

open OsLab.Memory OsLab.Klib Volume

section Resolve

variable {fs : Info} {d d' : Disk}

theorem ofInt32_slot {k : Nat} (slot : k < fs.slots) : ofInt32 k = k := by
  have := fs.slots_lt
  exact ofInt32_natCast (by omega)

/-- No block and no inode has the number -1. -/
theorem minus_one_outside : ¬ ofInt32 (-1) < fs.totalBlockNum ∧
    ¬ ofInt32 (-1) / inodePerBlock < fs.totalBlockNum := by
  have := fs.totalBlockNum_lt
  have minus : ofInt32 (-1) = 2 ^ 32 - 1 := by decide
  have table : ofInt32 (-1) / inodePerBlock = 84215045 := by decide
  rw [table, minus]
  omega

theorem volume_used {k : Nat} (slot : k < fs.slots) : (volume fs d).Used k ↔ InUse d k := by
  unfold Used InUse
  rw [volume_inode slot]

theorem slot_of_used {k : Nat} (used : (volume fs d).Used k) : k < fs.slots := by
  by_contra outside
  exact used (congrArg Inode.type (if_neg outside))

/-- `node` is a copy of inode `k`, which is in use. -/
structure Found (fs : Info) (d : Disk) (node : Inode) (k : Nat) : Prop where
  used : (volume fs d).Used k
  copy : node = (volume fs d).inode k

theorem Found.slot {node : Inode} {k : Nat} (h : Found fs d node k) : k < fs.slots :=
  slot_of_used h.used

/-- A found directory whose block can be read has a data block. -/
theorem Found.dir {node : Inode} {n : Nat} (h : Found fs d node n) (owned : Owned fs (volume fs d))
    (isDir : node.type = InodeType.dir.code) (inside : ofInt32 node.blockId < fs.totalBlockNum) :
    ∃ b, fs.IsData b ∧ (volume fs d).IsDir n b ∧ ofInt32 node.blockId = b := by
  rw [h.copy] at isDir inside ⊢
  obtain none | ⟨b, data, owns, -⟩ := owned.block n h.used
  · rw [none] at inside
    exact absurd inside minus_one_outside.1
  · refine ⟨b, data, ⟨isDir, owns⟩, ?_⟩
    rw [owns, ofInt32_block data.2]

/-- An inode read off the table. -/
theorem found_of_get {k : Nat} {node : Inode} (slot : k < fs.slots)
    (get : inodeGet fs d k = .ok (some node)) : Found fs d node k := by
  obtain ⟨busy, same⟩ := inodeGet_some get
  exact ⟨(volume_used slot).2 busy, same.trans (volume_inode slot).symm⟩

/-- The entry under a name in the block of a directory names a slot. -/
theorem entry_slot {n b i : Nat} {id : Int} (owned : Owned fs (volume fs d)) (data : fs.IsData b)
    (dir : (volume fs d).IsDir n b) (place : i < 42) (entry : entryAt d b i = some id) :
    ∃ k : Nat, k < fs.slots ∧ id = k :=
  owned.entries n b i id dir ((volume_entry data place).trans entry)

theorem getPathInodeLoop_found {fuel : Nat} {bnode node : Inode} {cur : CStr} {n : Nat}
    (owned : Owned fs (volume fs d)) (found : Found fs d bnode n)
    (h : getPathInodeLoop fs d fuel bnode cur = .ok (some node)) : ∃ k, Found fs d node k := by
  induction fuel generalizing bnode cur n with
  | zero => contradiction
  | succ fuel ih =>
    rw [getPathInodeLoop] at h
    cases next : pathNextName cur with
    | none =>
      rw [next] at h
      cases h
      exact ⟨n, found⟩
    | some step =>
      obtain ⟨name, nxt⟩ := step
      simp only [next, bind_eq_ok] at h
      obtain ⟨chiId, getdir, h⟩ := h
      obtain ⟨isDir, inside, result⟩ := getFiledir_ok getdir
      by_cases missing : chiId = -1
      · rw [if_pos missing] at h
        cases h
      · rw [if_neg missing, bind_eq_ok] at h
        obtain ⟨child, get, h⟩ := h
        cases child with
        | none => cases h
        | some chi =>
          obtain ⟨b, data, dir, block⟩ := found.dir owned isDir inside
          obtain ⟨i, place, entry⟩ := result.resolve_left missing
          rw [block] at entry
          obtain ⟨k, slot, rfl⟩ := entry_slot owned data dir place entry
          rw [ofInt32_slot slot] at get
          have child := found_of_get slot get
          cases nxt with
          | none =>
            cases h
            exact ⟨k, child⟩
          | some rest => exact ih child h

/-- `get_path_inode` returns a copy of an inode in use. -/
theorem getPathInode_found {path : CStr} {node : Inode} (owned : Owned fs (volume fs d))
    (h : getPathInode fs d path = .ok (some node)) : ∃ k, Found fs d node k := by
  have root : 0 < fs.slots := by
    have := fs.inodeBlockNum_pos
    rw [fs.slots_eq]
    omega
  unfold getPathInode at h
  rw [bind_eq_ok] at h
  obtain ⟨bnode, get, h⟩ := h
  cases bnode with
  | none => cases h
  | some bnode => exact getPathInodeLoop_found owned (found_of_get root get) h

end Resolve

/-! ## Creating -/

section Create

variable {fs : Info} {d d' : Disk} {dir : Inode} {name : CStr}

theorem dataOf_setInode {b k : Nat} {node : Inode} (h : b ≠ k / inodePerBlock) :
    dataOf (setInode d k node) b = dataOf d b := by
  unfold dataOf setInode
  rw [patch_other h]

/-- The block of the new inode is taken and holds no entries if the inode is a directory. -/
theorem volume_newBlock {type : InodeType} {c : Nat} (data : fs.IsData c) :
    volume fs (newBlock d type c) = (volume fs d).take type (some c) := by
  have types : (fun b => if some c = some b then BlockType.used.code else (volume fs d).blockType b) =
      Function.update (volume fs d).blockType c BlockType.used.code := by
    funext b
    by_cases here : b = c
    · rw [here, Function.update_self, if_pos rfl]
    · rw [Function.update_of_ne here, if_neg fun same => here (Option.some.inj same).symm]
  unfold newBlock
  by_cases isDir : type = .dir
  · rw [if_pos isDir, volume_clearDir data, volume_setType data]
    apply Volume.ext
    · rfl
    · exact types.symm
    · funext b
      show Function.update (volume fs d).entry c (fun _ => none) b =
        if some c = some b ∧ type = .dir then fun _ => none else (volume fs d).entry b
      by_cases here : b = c
      · rw [here, Function.update_self, if_pos ⟨rfl, isDir⟩]
      · rw [Function.update_of_ne here, if_neg fun both => here (Option.some.inj both.1).symm]
  · rw [if_neg isDir, volume_setType data]
    apply Volume.ext
    · rfl
    · exact types.symm
    · funext b
      exact (if_neg fun both => isDir both.2).symm

/-- The volume after a new inode is stored. -/
theorem volume_allocated {type : InodeType} {k : Nat} {d2 : Disk} (slot : k < fs.slots)
    (h : Allocated fs d type k 1 d2) :
    ∃ c, (∀ x, c = some x → fs.IsData x ∧ (volume fs d).blockType x = BlockType.free.code) ∧
      volume fs d2 = (volume fs d).add type k c := by
  cases h with
  | bare full =>
    refine ⟨none, nofun, ?_⟩
    rw [volume_setInode slot (newInode_fits slot (by decide) (by decide))]
    rfl
  | withBlock c data found =>
    refine ⟨some c, ?_, ?_⟩
    · rintro x ⟨⟩
      exact ⟨data, (volume_blockType data).trans found.free⟩
    · rw [volume_setInode slot (newInode_fits slot (fits_block data) (by decide)),
        volume_newBlock data]
      rfl

theorem kind_ne_link {type : InodeType} (kind : type = .file ∨ type = .dir) : type ≠ .link := by
  obtain rfl | rfl := kind <;> decide

/-- `create_filedir` of a new inode: it is stored in the first empty slot, with the first free block
if there is one, and entered in the directory's block as that was read at first. -/
theorem createFiledir_new {type : InodeType} {linkId res : Int} {b : Nat}
    (kind : type = .file ∨ type = .dir) (block : ofInt32 dir.blockId = b)
    (h : createFiledir fs d dir type linkId name = .ok (res, d')) :
    strlen name < inodeNameLen - 1 ∧
    ((findName d b name ≠ none ∨ findFree d b = none) ∧ res = -1 ∧ d' = d ∨
      ∃ k ind d2, findName d b name = none ∧ findFree d b = some ind ∧ FirstEmpty fs d k ∧ res = k ∧
        Allocated fs d type k 1 d2 ∧
        d' = patch d2 b sizeofBlock blockDataSize
          (putEntry (dataOf d b) (sizeofDirEntry * ind) name k)) := by
  obtain ⟨-, short, -, stop | ⟨d1, ind, node, entered, rfl⟩⟩ := createFiledir_eq_ok.1 h
  · rw [block] at stop
    exact ⟨short, .inl stop⟩
  · rw [block] at entered
    have target := entered.target
    unfold targetInode at target
    rw [if_neg (kind_ne_link kind)] at target
    obtain ⟨rfl, rfl, -⟩ | ⟨k, first, rfl, alloc⟩ := inodeAlloc_ok target
    · exact absurd entered.inside minus_one_outside.2
    · have slot := first.slot
      have counted : ∀ (d0 : Disk) (blockId : Int), FitsInt32 blockId →
          d1 = setInode d0 k (newInode type k blockId 0) →
          enteredDisk d b name k d1 ind node =
            patch (setInode d0 k (newInode type k blockId 1)) b sizeofBlock blockDataSize
              (putEntry (dataOf d b) (sizeofDirEntry * ind) name k) := by
        rintro d0 blockId fits rfl
        have copy := entered.node_eq
        rw [ofInt32_slot slot, inodeOf_setInode_self (newInode_fits slot fits (by decide))] at copy
        subst copy
        unfold enteredDisk
        rw [show ofInt32 (newInode type k blockId 0).id = k from ofInt32_slot slot,
          setInode_setInode]
        rfl
      refine ⟨short, .inr ?_⟩
      rw [block]
      cases alloc with
      | bare full =>
        exact ⟨k, ind, _, entered.missing, entered.place, first, rfl, .bare full,
          counted d (-1) (by decide) rfl⟩
      | withBlock c data found =>
        exact ⟨k, ind, _, entered.missing, entered.place, first, rfl, .withBlock c data found,
          counted _ c (fits_block data) rfl⟩

/-- Inode `k` is new, stored on the disk `d2`, and entered under `name` in place `ind` of block `b`. -/
structure Created (fs : Info) (d d' : Disk) (type : InodeType) (b : Nat) (name : CStr)
    (k ind : Nat) (d2 : Disk) : Prop where
  short : strlen name < inodeNameLen - 1
  missing : findName d b name = none
  place : findFree d b = some ind
  first : FirstEmpty fs d k
  alloc : Allocated fs d type k 1 d2
  disk : d' = setEntry d2 b ind name k

/-- The data of a block in use stays while a new inode is stored. -/
theorem dataOf_allocated {type : InodeType} {k b : Nat} {refcnt : Int}
    (h : Allocated fs d type k refcnt d') (data : fs.IsData b) (slot : k < fs.slots)
    (other : ¬ FirstFree d fs.inodeBlockNum b) : dataOf d' b = dataOf d b := by
  have table : b ≠ k / inodePerBlock := (slot_ne_data slot data).symm
  cases h with
  | bare full => exact dataOf_setInode table
  | withBlock c isData found =>
    have differs : b ≠ c := fun same => other (same ▸ found)
    rw [dataOf_setInode table, dataOf_newBlock differs]

/-- The block of an inode in use is not the first free one. -/
theorem not_firstFree {n b : Nat} (owned : Owned fs (volume fs d)) (used : (volume fs d).Used n)
    (block : ((volume fs d).inode n).blockId = b) : ¬ FirstFree d fs.inodeBlockNum b := by
  intro found
  obtain ⟨data, busy⟩ := owned.data used block
  rw [volume_blockType data, found.free] at busy
  contradiction

theorem createFiledir_created {type : InodeType} {linkId res : Int} {n : Nat}
    (owned : Owned fs (volume fs d)) (found : Found fs d dir n) (kind : type = .file ∨ type = .dir)
    (h : createFiledir fs d dir type linkId name = .ok (res, d')) :
    ∃ b, fs.IsData b ∧ (volume fs d).IsDir n b ∧ ofInt32 dir.blockId = b ∧
      ((findName d b name ≠ none ∨ findFree d b = none) ∧ res = -1 ∧ d' = d ∨
        ∃ (k : Nat) (ind : Nat) (d2 : Disk), res = k ∧ Created fs d d' type b name k ind d2) := by
  obtain ⟨isDir, -, inside, -⟩ := createFiledir_eq_ok.1 h
  obtain ⟨b, data, isDir, block⟩ := found.dir owned isDir inside
  refine ⟨b, data, isDir, block, ?_⟩
  obtain ⟨short, stop | ⟨k, ind, d2, missing, place, first, res_eq, alloc, rfl⟩⟩ :=
    createFiledir_new kind block h
  · exact .inl stop
  · have same := dataOf_allocated alloc data first.slot (not_firstFree owned isDir.used isDir.block)
    exact .inr ⟨k, ind, d2, res_eq, short, missing, place, first, alloc,
      writeback_putEntry (findFree_some place).1 short same⟩

/-- `create_filedir` of a new inode is a step of the volume. -/
theorem createFiledir_step {type : InodeType} {linkId res : Int} {n : Nat}
    (owned : Owned fs (volume fs d)) (found : Found fs d dir n) (kind : type = .file ∨ type = .dir)
    (h : createFiledir fs d dir type linkId name = .ok (res, d')) :
    res = -1 ∧ d' = d ∨
      ∃ k, FirstEmpty fs d k ∧ res = k ∧ ((volume fs d').inode k).type = type.code ∧
        Step fs (volume fs d) (.create k) (volume fs d') := by
  obtain ⟨b, data, isDir, -, ⟨-, stop⟩ | ⟨k, ind, d2, res_eq, created⟩⟩ :=
    createFiledir_created owned found kind h
  · exact .inl stop
  · obtain ⟨bound, free⟩ := findFree_some created.place
    have slot := created.first.slot
    have entry : (volume fs d).entry b ind = none := (volume_entry data bound).trans free
    have empty : ¬ (volume fs d).Used k := fun used =>
      created.first.empty ((volume_used slot).1 used)
    obtain ⟨c, fresh, volume_eq⟩ := volume_allocated slot created.alloc
    have fits : FitsInt32 k := (newInode_fits slot (by decide) (by decide) :
      (newInode .file k (-1) 1).Fits).id
    have written : volume fs d' = ((volume fs d).add type k c).setEntry b ind (some (k : Int)) := by
      rw [created.disk, volume_setEntry data bound created.short fits, volume_eq]
    refine .inr ⟨k, created.first, res_eq, ?_⟩
    rw [written]
    exact ⟨congrArg Inode.type (add_inode_self ..), .create isDir bound entry slot empty kind fresh⟩

/-- Inode `k` has one name more, entered in place `ind` of block `b`. -/
structure Linked (d d' : Disk) (b : Nat) (name : CStr) (k ind : Nat) : Prop where
  short : strlen name < inodeNameLen - 1
  missing : findName d b name = none
  place : findFree d b = some ind
  busy : InUse d k
  fits : FitsInt32 ((inodeOf d k).refcnt + 1)
  disk : d' = setEntry (setInode d k { inodeOf d k with refcnt := (inodeOf d k).refcnt + 1 })
    b ind name k

theorem createFiledir_linked {linkId res : Int} {n k : Nat} (owned : Owned fs (volume fs d))
    (found : Found fs d dir n) (slot : k < fs.slots) (linked : linkId = k)
    (h : createFiledir fs d dir .link linkId name = .ok (res, d')) :
    ∃ b, fs.IsData b ∧ (volume fs d).IsDir n b ∧ ofInt32 dir.blockId = b ∧
      ((findName d b name ≠ none ∨ findFree d b = none) ∧ res = -1 ∧ d' = d ∨
        ∃ ind, res = k ∧ Linked d d' b name k ind) := by
  obtain ⟨isDir, short, inside, result⟩ := createFiledir_eq_ok.1 h
  obtain ⟨b, data, isDir, block⟩ := found.dir owned isDir inside
  rw [block] at result
  refine ⟨b, data, isDir, block, ?_⟩
  obtain stop | ⟨d1, ind, node, entered, rfl⟩ := result
  · exact .inl stop
  · cases show (.ok (linkId, d) : Except Halt (Int × Disk)) = .ok (res, d1) from entered.target
    subst linked
    have copy := entered.node_eq
    have busy := entered.busy
    rw [ofInt32_slot slot] at copy busy
    have id_eq : ofInt32 node.id = k := by
      rw [copy, ← volume_inode slot, owned.id_eq k ((volume_used slot).2 busy), ofInt32_slot slot]
    have fits := entered.fits
    rw [copy] at fits
    obtain ⟨bound, -⟩ := findFree_some entered.place
    refine .inr ⟨ind, rfl, short, entered.missing, entered.place, busy, fits, ?_⟩
    unfold enteredDisk
    rw [id_eq, writeback_putEntry bound short (dataOf_setInode (slot_ne_data slot data).symm), copy]

/-- `create_filedir` of a link is a step of the volume. -/
theorem createFiledir_link_step {linkId res : Int} {n k : Nat} (owned : Owned fs (volume fs d))
    (found : Found fs d dir n) (slot : k < fs.slots) (linked : linkId = k)
    (h : createFiledir fs d dir .link linkId name = .ok (res, d')) :
    res = -1 ∧ d' = d ∨ res = k ∧ Step fs (volume fs d) (.link n k) (volume fs d') := by
  obtain ⟨b, data, isDir, -, ⟨-, stop⟩ | ⟨ind, res_eq, linked⟩⟩ :=
    createFiledir_linked owned found slot linked h
  · exact .inl stop
  · obtain ⟨bound, free⟩ := findFree_some linked.place
    have used := (volume_used slot).2 linked.busy
    have entry : (volume fs d).entry b ind = none := (volume_entry data bound).trans free
    have old := inodeOf_fits d k
    have idFits : FitsInt32 k := by
      rw [← owned.id_eq k used, volume_inode slot]
      exact old.id
    have fits : ({ inodeOf d k with refcnt := (inodeOf d k).refcnt + 1 } : Inode).Fits :=
      ⟨old.type, old.id, old.blockId, linked.fits, old.size⟩
    refine .inr ⟨res_eq, ?_⟩
    rw [linked.disk, volume_setEntry data bound linked.short idFits, volume_setInode slot fits,
      ← volume_inode slot]
    exact .link isDir bound entry used

end Create

/-! ## Removing -/

section Remove

variable {fs : Info} {d d' : Disk} {dir : Inode} {name : CStr}

theorem dataOf_clearInode {b k : Nat} (h : b ≠ k / inodePerBlock) :
    dataOf (clearInode d k) b = dataOf d b := by
  unfold dataOf clearInode
  rw [Function.update_of_ne h]

/-- The volume after an inode and its block are given back. -/
theorem volume_removed {k c : Nat} (slot : k < fs.slots) (data : fs.IsData c) :
    volume fs (clearInode (setType d c .free) k) = (volume fs d).remove k (some c) := by
  rw [volume_clearInode slot, volume_setType data]
  unfold Volume.remove
  congr 1
  apply Volume.ext
  · rfl
  · funext b
    show Function.update (volume fs d).blockType c BlockType.free.code b =
      if some c = some b then BlockType.free.code else (volume fs d).blockType b
    by_cases here : b = c
    · rw [here, Function.update_self, if_pos rfl]
    · rw [Function.update_of_ne here, if_neg fun same => here (Option.some.inj same).symm]
  · rfl

/-- One name less of inode `k`: it is counted, or the inode is freed with the block it has. -/
inductive Uncounted (fs : Info) (d : Disk) (k : Nat) : Disk → Prop
  | more (others : (inodeOf d k).refcnt ≠ 1) (fits : FitsInt32 ((inodeOf d k).refcnt - 1)) :
      Uncounted fs d k (setInode d k { inodeOf d k with refcnt := (inodeOf d k).refcnt - 1 })
  | bare (last : (inodeOf d k).refcnt = 1) (block : (inodeOf d k).blockId = -1) :
      Uncounted fs d k (clearInode d k)
  | withBlock (c : Nat) (last : (inodeOf d k).refcnt = 1) (data : fs.IsData c)
      (block : (inodeOf d k).blockId = c) : Uncounted fs d k (clearInode (setType d c .free) k)

theorem Uncounted.dataOf {k b : Nat} (h : Uncounted fs d k d') (slot : k < fs.slots)
    (data : fs.IsData b) : dataOf d' b = dataOf d b := by
  have table := (slot_ne_data slot data).symm
  cases h with
  | more others fits => exact dataOf_setInode table
  | bare last block => exact dataOf_clearInode table
  | withBlock c last data block => exact (dataOf_clearInode table).trans (dataOf_setType ..)

theorem Uncounted.inodeOf_ne {k m : Nat} (h : Uncounted fs d k d') (other : m ≠ k) :
    inodeOf d' m = inodeOf d m := by
  cases h with
  | more others fits => exact inodeOf_setInode_ne other
  | bare last block => exact inodeOf_clearInode_ne other
  | withBlock c last data block => exact (inodeOf_clearInode_ne other).trans (inodeOf_setType ..)

/-- The entry `ind` of block `b` under `name` is free, and inode `k` has one name less on the
disk `d1`. -/
structure Unlinked (fs : Info) (d d' : Disk) (b : Nat) (name : CStr) (k ind : Nat) (d1 : Disk) :
    Prop where
  found : findName d b name = some ind
  named : entryId (dataOf d b) (sizeofDirEntry * ind) = k
  slot : k < fs.slots
  busy : InUse d k
  drop : Uncounted fs d k d1
  disk : d' = freeEntry d1 b ind

theorem deleteFiledir_unlinked {n : Nat} (owned : Owned fs (volume fs d)) (found : Found fs d dir n)
    (h : deleteFiledir fs d dir name = .ok d') :
    ∃ b, fs.IsData b ∧ (volume fs d).IsDir n b ∧ ofInt32 dir.blockId = b ∧
      (findName d b name = none ∧ d' = d ∨
        ∃ (k : Nat) (ind : Nat) (d1 : Disk), Unlinked fs d d' b name k ind d1) := by
  obtain ⟨isDir, inside, result⟩ := deleteFiledir_ok h
  obtain ⟨b, data, isDir, block⟩ := found.dir owned isDir inside
  rw [block] at result
  refine ⟨b, data, isDir, block, ?_⟩
  obtain missing | ⟨ind, d1, removed, rfl⟩ := result
  · exact .inl missing
  · obtain ⟨place, entry⟩ := findName_some removed.found
    obtain ⟨k, slot, named⟩ := entry_slot owned data isDir place entry
    have busy := removed.busy
    have drop := removed.drop
    have lower := removed.fits
    rw [named, ofInt32_slot slot] at busy drop lower
    have used := (volume_used slot).2 busy
    have copy : inodeOf d k = (volume fs d).inode k := (volume_inode slot).symm
    have id_eq : ofInt32 (inodeOf d k).id = k := by
      rw [copy, owned.id_eq k used, ofInt32_slot slot]
    have uncounted : Uncounted fs d k d1 := by
      unfold dropInode at drop
      dsimp only at drop
      rw [id_eq] at drop
      by_cases last : (inodeOf d k).refcnt - 1 = 0
      · rw [if_pos last] at drop
        have single : (inodeOf d k).refcnt = 1 := by omega
        obtain ⟨-, ⟨bare, rfl⟩ | ⟨notBare, rfl⟩⟩ := inodeBfree_ok drop
        · exact .bare single bare
        · obtain bare | ⟨c, isData, owns, -⟩ := owned.block k used
          · exact absurd ((congrArg Inode.blockId copy).trans bare) notBare
          · rw [← copy] at owns
            rw [owns, ofInt32_block isData.2]
            exact .withBlock c single isData owns
      · rw [if_neg last] at drop
        obtain ⟨-, rfl⟩ := inodeSet_eq_ok.1 drop
        exact .more (by omega) lower
    exact .inr ⟨k, ind, d1, removed.found, named, slot, busy, uncounted,
      writeback_freeEntry place (uncounted.dataOf slot data)⟩

/-- `delete_filedir` of an entry is a step of the volume. -/
theorem deleteFiledir_step {n : Nat} (owned : Owned fs (volume fs d)) (found : Found fs d dir n)
    (h : deleteFiledir fs d dir name = .ok d') :
    findName d (ofInt32 dir.blockId) name = none ∧ d' = d ∨
      ∃ ind, ∃ k : Nat, findName d (ofInt32 dir.blockId) name = some ind ∧
        entryId (dataOf d (ofInt32 dir.blockId)) (sizeofDirEntry * ind) = k ∧
        Step fs (volume fs d) (.remove k) (volume fs d') := by
  obtain ⟨b, data, isDir, block, result⟩ := deleteFiledir_unlinked owned found h
  rw [block]
  obtain missing | ⟨k, ind, d1, unlinked⟩ := result
  · exact .inl missing
  · refine .inr ⟨ind, k, unlinked.found, unlinked.named, ?_⟩
    have slot := unlinked.slot
    have used := (volume_used slot).2 unlinked.busy
    have copy : inodeOf d k = (volume fs d).inode k := (volume_inode slot).symm
    obtain ⟨place, entry⟩ := findName_some unlinked.found
    have entry : (volume fs d).entry b ind = some (k : Int) := by
      rw [volume_entry data place, entry, unlinked.named]
    have drop := unlinked.drop
    rw [unlinked.disk, volume_freeEntry data place]
    cases drop with
    | bare last bare =>
      rw [volume_clearInode slot]
      exact .drop (c := none) isDir place entry used ((congrArg _ copy).symm.trans last)
        ((congrArg _ copy).symm.trans bare)
    | withBlock c last isData owns =>
      rw [volume_removed slot isData]
      exact .drop (c := some c) isDir place entry used ((congrArg _ copy).symm.trans last)
        ((congrArg _ copy).symm.trans owns)
    | more others lower =>
      have old := inodeOf_fits d k
      have fits : ({ inodeOf d k with refcnt := (inodeOf d k).refcnt - 1 } : Inode).Fits :=
        ⟨old.type, old.id, old.blockId, lower, old.size⟩
      rw [volume_setInode slot fits, copy]
      rw [copy] at others
      exact .unlink isDir place entry used others

end Remove

/-! ## The calls -/

/-- The first empty inode. -/
def firstEmpty (fs : Info) (d : Disk) : Option Nat :=
  (List.range fs.slots).find? fun n => (inodeOf d n).type = InodeType.empty.code

/-- The inode that the last component of a path names. -/
def namedBy (fs : Info) (d : Disk) (path : CStr) : Option Nat :=
  match getPathInode fs d (pathGetDirectory path) with
  | .ok (some dir) =>
    (findName d (ofInt32 dir.blockId) (pathGetName path)).map fun ind =>
      (entryId (dataOf d (ofInt32 dir.blockId)) (sizeofDirEntry * ind)).toNat
  | _ => none

/-- What a successful call does to the references, read off the disk before the call. -/
def changeOf (fs : Info) (s : State) : Call → Change
  | .mkdir _ => (firstEmpty fs s.disk).elim .idle .create
  | .rm path => (namedBy fs s.disk path).elim .idle .remove
  | .link oldpath newpath =>
    match getPathInode fs s.disk oldpath, getPathInode fs s.disk (pathGetDirectory newpath) with
    | .ok (some old), .ok (some newdir) => .link newdir.id.toNat old.id.toNat
    | _, _ => .idle
  | .open h flags =>
    match s.handles[h]? with
    | some f => if Missing f flags then (firstEmpty fs s.disk).elim .idle .create else .idle
    | none => .idle
  | .lookup _ | .write .. => .idle

section Calls

variable {fs : Info} {d d' : Disk} {path : CStr} {res : Int}

theorem firstEmpty_eq {k : Nat} (h : FirstEmpty fs d k) : firstEmpty fs d = some k := by
  apply List.find?_range_eq_some.2
  refine ⟨decide_eq_true (not_not.1 h.empty), List.mem_range.2 h.slot, fun m below => ?_⟩
  rw [decide_eq_false (h.first m below)]
  rfl

theorem onParent_ok {act : Inode → CStr → Except Halt (Int × Disk)}
    (h : onParent fs d path act = .ok (res, d')) :
    res = -1 ∧ d' = d ∨ ∃ dir, getPathInode fs d (pathGetDirectory path) = .ok (some dir) ∧
      pathGetName path ≠ [] ∧ act dir (pathGetName path) = .ok (res, d') := by
  unfold onParent at h
  rw [bind_eq_ok] at h
  obtain ⟨node, resolve, h⟩ := h
  by_cases named : strlen (pathGetName path) ≠ 0
  · rw [if_pos named] at h
    cases node with
    | none =>
      cases h
      exact .inl ⟨rfl, rfl⟩
    | some dir =>
      by_cases isDir : dir.type = InodeType.dir.code
      · rw [strlen_eq] at named
        exact .inr ⟨dir, resolve, fun nil => named (congrArg List.length nil),
          (if_pos isDir).symm.trans h⟩
      · cases (if_neg isDir).symm.trans h
        exact .inl ⟨rfl, rfl⟩
  · rw [if_neg named] at h
    cases h
    exact .inl ⟨rfl, rfl⟩

theorem resultOf_slot (k : Nat) : resultOf k = 0 :=
  if_neg (by omega)

theorem fsMkdir_step (owned : Owned fs (volume fs d)) (h : fsMkdir fs d path = .ok (res, d')) :
    res = -1 ∧ d' = d ∨
      res = 0 ∧ ∃ k, FirstEmpty fs d k ∧ Step fs (volume fs d) (.create k) (volume fs d') := by
  obtain stop | ⟨dir, resolve, -, act⟩ := onParent_ok h
  · exact .inl stop
  · obtain ⟨n, found⟩ := getPathInode_found owned resolve
    obtain ⟨⟨id, d1⟩, create, done⟩ := bind_eq_ok.1 act
    cases done
    obtain ⟨rfl, rfl⟩ | ⟨k, first, rfl, -, step⟩ := createFiledir_step owned found (.inr rfl) create
    · exact .inl ⟨rfl, rfl⟩
    · exact .inr ⟨resultOf_slot k, k, first, step⟩

theorem fsRm_step (owned : Owned fs (volume fs d)) (h : fsRm fs d path = .ok (res, d')) :
    d' = d ∧ (res = -1 ∨ namedBy fs d path = none) ∨
      res = 0 ∧ ∃ k, namedBy fs d path = some k ∧
        Step fs (volume fs d) (.remove k) (volume fs d') := by
  obtain ⟨minus, same⟩ | ⟨dir, resolve, -, act⟩ := onParent_ok h
  · exact .inl ⟨same, .inl minus⟩
  · obtain ⟨n, found⟩ := getPathInode_found owned resolve
    obtain ⟨d1, delete, done⟩ := bind_eq_ok.1 act
    cases done
    unfold namedBy
    rw [resolve]
    dsimp only
    obtain ⟨missing, rfl⟩ | ⟨ind, k, search, named, step⟩ := deleteFiledir_step owned found delete
    · rw [missing]
      exact .inl ⟨rfl, .inr rfl⟩
    · refine .inr ⟨rfl, k, ?_, step⟩
      rw [search, Option.map_some, named]
      rfl

theorem fsLink_step {newpath : CStr} (owned : Owned fs (volume fs d))
    (h : fsLink fs d path newpath = .ok (res, d')) :
    res = -1 ∧ d' = d ∨ res = 0 ∧ ∃ old newdir, ∃ n k : Nat, getPathInode fs d path = .ok (some old) ∧
      getPathInode fs d (pathGetDirectory newpath) = .ok (some newdir) ∧ old.id = k ∧
      newdir.id = n ∧ Step fs (volume fs d) (.link n k) (volume fs d') := by
  unfold fsLink at h
  rw [bind_eq_ok] at h
  obtain ⟨old, resolveOld, h⟩ := h
  cases old with
  | none =>
    cases h
    exact .inl ⟨rfl, rfl⟩
  | some old =>
    dsimp only at h
    rw [bind_eq_ok] at h
    obtain ⟨newdir, resolveNew, h⟩ := h
    cases newdir with
    | none =>
      cases h
      exact .inl ⟨rfl, rfl⟩
    | some newdir =>
      obtain ⟨⟨id, d1⟩, create, done⟩ := bind_eq_ok.1 h
      cases done
      obtain ⟨k, foundOld⟩ := getPathInode_found owned resolveOld
      obtain ⟨n, foundNew⟩ := getPathInode_found owned resolveNew
      have id_eq : old.id = k := by rw [foundOld.copy, owned.id_eq k foundOld.used]
      have dir_eq : newdir.id = n := by rw [foundNew.copy, owned.id_eq n foundNew.used]
      obtain ⟨rfl, rfl⟩ | ⟨rfl, step⟩ :=
        createFiledir_link_step owned foundNew foundOld.slot id_eq create
      · exact .inl ⟨rfl, rfl⟩
      · exact .inr ⟨resultOf_slot k, old, newdir, n, k, resolveOld, resolveNew, id_eq, dir_eq, step⟩

theorem openCreate_step {f f' : Handle} (owned : Owned fs (volume fs d))
    (h : openCreate fs d f = .ok (res, f', d')) :
    res = -1 ∧ f' = f ∧ d' = d ∨
      res = 0 ∧ ∃ k node, FirstEmpty fs d k ∧ Found fs d' node k ∧
        node.type = InodeType.file.code ∧ f' = { f with ptr := some node } ∧
        Step fs (volume fs d) (.create k) (volume fs d') := by
  unfold openCreate at h
  dsimp only at h
  by_cases unnamed : strlen (pathGetName f.path) = 0
  · rw [if_pos unnamed] at h
    cases h
    exact .inl ⟨rfl, rfl, rfl⟩
  · rw [if_neg unnamed, bind_eq_ok] at h
    obtain ⟨par, resolve, h⟩ := h
    cases par with
    | none =>
      cases h
      exact .inl ⟨rfl, rfl, rfl⟩
    | some par =>
      obtain ⟨⟨id, d1⟩, create, rest⟩ := bind_eq_ok.1 h
      obtain ⟨n, found⟩ := getPathInode_found owned resolve
      dsimp only at rest
      obtain ⟨rfl, rfl⟩ | ⟨k, first, rfl, type, step⟩ := createFiledir_step owned found (.inl rfl) create
      · rw [if_pos rfl] at rest
        cases rest
        exact .inl ⟨rfl, rfl, rfl⟩
      · have some : ((k : Nat) : Int) ≠ -1 := by omega
        rw [if_neg some, bind_eq_ok] at rest
        obtain ⟨node, get, result⟩ := rest
        cases node with
        | none => cases result
        | some node =>
          cases result
          rw [ofInt32_slot first.slot] at get
          have copy := found_of_get first.slot get
          exact .inr ⟨rfl, k, node, first, copy, (congrArg _ copy.copy).trans type, rfl, step⟩

/-- A lookup finds a copy of an inode in use, or none. -/
theorem fsLookup_found {f : Handle} {node : Inode} (owned : Owned fs (volume fs d))
    (h : fsLookup fs d path = .ok f) (copy : f.ptr = some node) : ∃ k, Found fs d node k := by
  unfold fsLookup at h
  obtain ⟨-, h⟩ := kassert_bind_eq_ok.1 h
  obtain ⟨bnode, resolve, done⟩ := bind_eq_ok.1 h
  cases done
  exact getPathInode_found owned (resolve.trans (congrArg _ copy))

end Calls

end OsLab.Kernel.Blkfs
