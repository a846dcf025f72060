import OsLab.Kernel.Blkfs.Changes

/-!
# Creating files and directories

`create_filedir` takes an entry, an inode slot and a data block for a new inode. Where the name is
there already or the directory is full it gives up before it changes anything. It looks neither at
the result of `inode_alloc` nor at the block id of the new inode, so that without an empty slot it
halts and without a free block it makes an inode that has no block.
`createFiledir_allOrNothing` says exactly when a creation is all or nothing.
-/

namespace OsLab.Kernel.Blkfs

open OsLab.Memory OsLab.Klib Volume

/-! ## New names -/

/-- A new name: 1 to 14 characters. -/
structure ValidName (name : CStr) : Prop where
  nonempty : 0 < name.length
  short : name.length ≤ 14
  terminated : 0 ∉ name

theorem ValidName.fit {name : CStr} (valid : ValidName name) : FitName name :=
  ⟨valid.short, valid.terminated⟩

theorem ValidName.strlen_lt {name : CStr} (valid : ValidName name) :
    strlen name < inodeNameLen - 1 :=
  valid.fit.strlen_lt

/-! ## All or nothing -/

/-- Inode `n` is a directory with block `b`. -/
structure Parent (fs : Info) (d : Disk) (n b : Nat) : Prop where
  slot : n < fs.slots
  type : (inodeOf d n).type = InodeType.dir.code
  data : fs.IsData b
  block : (inodeOf d n).blockId = b

/-- Inode `n` has a block of its own: one in use that no other inode has. -/
def OwnBlock (fs : Info) (d : Disk) (n : Nat) : Prop :=
  ∃ c, fs.IsData c ∧ (inodeOf d n).blockId = c ∧ blockType d c = BlockType.used.code ∧
    ∀ m < fs.slots, m ≠ n → InUse d m → (inodeOf d m).blockId ≠ c

/-- `name` in the directory `dir` leads to the new inode `k`, which has a block of its own. -/
structure Complete (fs : Info) (d d' : Disk) (dir : Inode) (type : InodeType) (name : CStr)
    (k : Nat) : Prop where
  slot : k < fs.slots
  fresh : ¬ InUse d k
  type : (inodeOf d' k).type = type.code
  entry : getFiledir fs d' dir name = .ok k
  block : OwnBlock fs d' k

/-- The creation fails and leaves the disk, or it reports `success k` and is complete. -/
def AllOrNothing (fs : Info) (d : Disk) (dir : Inode) (type : InodeType) (name : CStr)
    (success : Nat → Int) (r : Except Halt (Int × Disk)) : Prop :=
  r = .ok (-1, d) ∨ ∃ k d', r = .ok (success k, d') ∧ Complete fs d d' dir type name k

/-- The name is there, the directory `b` is full, or there are an empty slot and a free block, the
first of which no inode in use has. -/
def Room (fs : Info) (d : Disk) (b : Nat) (name : CStr) : Prop :=
  findName d b name ≠ none ∨ findFree d b = none ∨
    (∃ n < fs.slots, ¬ InUse d n) ∧ ∃ c, fs.IsData c ∧ FirstFree d fs.inodeBlockNum c ∧
      ∀ n < fs.slots, InUse d n → (inodeOf d n).blockId ≠ c

/-- The disk with a new inode in slot `k` that has block `c`, under `name` in place `i` of the
directory's block `b`. -/
def entered (d : Disk) (type : InodeType) (b i : Nat) (name : CStr) (k c : Nat) : Disk :=
  setEntry (setInode (newBlock d type c) k (newInode type k c 1)) b i name k

section Creation

variable {fs : Info} {d d' : Disk} {dir : Inode} {type : InodeType} {name : CStr} {n b : Nat}

theorem FirstEmpty.unique {k k' : Nat} (h : FirstEmpty fs d k) (h' : FirstEmpty fs d k') :
    k = k' := by
  by_contra other
  by_cases below : k < k'
  · exact h.empty (h'.first k below)
  · exact h'.empty (h.first k' (by omega))

theorem FirstFree.unique {i c c' : Nat} (h : FirstFree d i c) (h' : FirstFree d i c') : c = c' := by
  have lower := h.from_le
  have lower' := h'.from_le
  by_contra other
  by_cases below : c < c'
  · exact h'.first c lower below h.free
  · exact h.first c' lower' (by omega) h'.free

theorem exists_firstEmpty {m : Nat} (slot : m < fs.slots) (empty : ¬ InUse d m) :
    ∃ k, FirstEmpty fs d k := by
  classical
  have exists_empty : ∃ k, ¬ InUse d k := ⟨m, empty⟩
  refine ⟨Nat.find exists_empty, ?_, Nat.find_spec exists_empty, fun j below => ?_⟩
  · exact (Nat.find_min' exists_empty empty).trans_lt slot
  · exact not_not.1 (Nat.find_min exists_empty below)

theorem Parent.inside (parent : Parent fs d n b) : ofInt32 (inodeOf d n).blockId = b := by
  rw [parent.block, ofInt32_block parent.data.2]

theorem Parent.inUse (parent : Parent fs d n b) : InUse d n := by
  intro empty
  have := parent.type.symm.trans empty
  contradiction

/-- With a slot and a block `create_filedir` comes to its end. -/
theorem createFiledir_progress (linkId : Int) {c ind : Nat} (parent : Parent fs d n b)
    (kind : type = .file ∨ type = .dir) (short : strlen name < inodeNameLen - 1)
    (missing : findName d b name = none) (place : findFree d b = some ind)
    (empty : ∃ m < fs.slots, ¬ InUse d m) (found : FirstFree d fs.inodeBlockNum c) :
    ∃ r, createFiledir fs d (inodeOf d n) type linkId name = .ok r := by
  have block : ∃ r, blockAlloc fs d = .ok r :=
    blockAllocLoop_progress (by have := fs.inodeBlockNum_lt; omega) found
  obtain ⟨⟨res, d1⟩, alloc⟩ : ∃ r, inodeAlloc fs d type = .ok r :=
    inodeAllocLoop_progress (by omega) block
  obtain ⟨-, -, busy⟩ | ⟨k, first, rfl, taken⟩ := inodeAlloc_ok alloc
  · obtain ⟨m, slot, free⟩ := empty
    exact absurd (busy m slot) free
  · have slot := first.slot
    have table : k / 51 < fs.totalBlockNum := (fs.slot_block slot).trans fs.inodeBlockNum_lt
    obtain ⟨blockId, stored⟩ := taken.inode slot (by decide)
    have busy : InUse d1 k := by
      have code : (inodeOf d1 k).type = type.code := congrArg Inode.type stored
      unfold InUse
      rw [code]
      obtain rfl | rfl := kind <;> decide
    have entered : Entered fs d b type linkId name k d1 ind (newInode type k blockId 0) := by
      refine ⟨missing, place, (if_neg (kind_ne_link kind)).trans alloc, ?_, ?_, ?_, ?_, ?_⟩
      · rw [ofInt32_slot slot]
        exact table
      · rw [ofInt32_slot slot]
        exact busy
      · rw [ofInt32_slot slot, stored]
      · show FitsInt32 (0 + 1)
        decide
      · rw [show ofInt32 (newInode type k blockId 0).id = k from ofInt32_slot slot]
        exact table
    rw [← parent.inside] at entered
    refine ⟨_, createFiledir_eq_ok.2 ⟨parent.type, short, ?_, .inr ⟨d1, ind, _, entered, rfl⟩⟩⟩
    rw [parent.inside]
    exact parent.data.2

/-- Where the name is there or the directory is full, `create_filedir` fails. -/
theorem createFiledir_stop {linkId : Int} (parent : Parent fs d n b)
    (short : strlen name < inodeNameLen - 1)
    (stop : findName d b name ≠ none ∨ findFree d b = none) :
    createFiledir fs d (inodeOf d n) type linkId name = .ok (-1, d) := by
  rw [← parent.inside] at stop
  refine createFiledir_eq_ok.2 ⟨parent.type, short, ?_, .inl ⟨stop, rfl, rfl⟩⟩
  rw [parent.inside]
  exact parent.data.2

theorem getFiledir_some {i : Nat} (isDir : dir.type = InodeType.dir.code)
    (short : strlen name < inodeNameLen - 1) (block : ofInt32 dir.blockId = b)
    (inside : b < fs.totalBlockNum) (found : findName d b name = some i) :
    getFiledir fs d dir name = .ok (entryId (dataOf d b) (sizeofDirEntry * i)) := by
  have found : direntryFindName (dataOf d b) name = some i := found
  unfold getFiledir
  rw [kassert_bind_eq_ok, kassert_bind_eq_ok]
  refine ⟨isDir, short, ?_⟩
  rw [block, blockReaddata_of_lt inside, ok_bind, found]

theorem blockType_newBlock (d : Disk) (type : InodeType) (c : Nat) :
    blockType (newBlock d type c) c = BlockType.used.code := by
  unfold newBlock
  by_cases asDir : type = .dir
  · rw [if_pos asDir, blockType_onlyIn (onlyIn_clearDir _ c) fun _ => Nat.le_refl 8,
      blockType_setType_self]
  · rw [if_neg asDir, blockType_setType_self]

section Enter

variable {c k ind : Nat}

/-- `create_filedir` takes the first empty slot and the first free block. -/
theorem createFiledir_entered {linkId : Int} (parent : Parent fs d n b)
    (kind : type = .file ∨ type = .dir) (valid : ValidName name)
    (missing : findName d b name = none) (place : findFree d b = some ind)
    (first : FirstEmpty fs d k) (data : fs.IsData c) (found : FirstFree d fs.inodeBlockNum c)
    (other : c ≠ b) : createFiledir fs d (inodeOf d n) type linkId name =
      .ok ((k : Nat), entered d type b ind name k c) := by
  have notParent : ¬ FirstFree d fs.inodeBlockNum b := fun free => other (found.unique free)
  obtain ⟨bound, -⟩ := findFree_some place
  obtain ⟨⟨res, d'⟩, run⟩ := createFiledir_progress linkId parent kind
    valid.strlen_lt missing place ⟨k, first.slot, first.empty⟩ found
  rw [run]
  obtain ⟨-, ⟨there | full, -⟩ | ⟨k', ind', d2, -, place', first', rfl, taken, rfl⟩⟩ :=
    createFiledir_new kind parent.inside run
  · exact absurd missing there
  · rw [full] at place
    contradiction
  · cases place'.symm.trans place
    cases first'.unique first
    rw [writeback_putEntry bound valid.strlen_lt
      (dataOf_allocated taken parent.data first.slot notParent)]
    cases taken with
    | bare full => exact absurd found.free (full c data)
    | withBlock c' data' found' =>
      cases found'.unique found
      rfl

/-- The block of a directory in use is not one that no inode in use has. -/
theorem Parent.ne_block (parent : Parent fs d n b)
    (unowned : ∀ m < fs.slots, InUse d m → (inodeOf d m).blockId ≠ c) : c ≠ b := by
  rintro rfl
  exact unowned n parent.slot parent.inUse parent.block

/-- A new inode with a free block that no inode in use has, entered in its directory. -/
theorem complete_entered (parent : Parent fs d n b) (valid : ValidName name)
    (missing : findName d b name = none) (place : findFree d b = some ind)
    (first : FirstEmpty fs d k) (data : fs.IsData c) (found : FirstFree d fs.inodeBlockNum c)
    (unowned : ∀ m < fs.slots, InUse d m → (inodeOf d m).blockId ≠ c) :
    Complete fs d (entered d type b ind name k c) (inodeOf d n) type name k := by
  have slot := first.slot
  obtain ⟨bound, -⟩ := findFree_some place
  have taken : Allocated fs d type k 1 (setInode (newBlock d type c) k (newInode type k c 1)) :=
    .withBlock c data found
  have fits : (newInode type k c 1).Fits := newInode_fits slot (fits_block data) (by decide)
  have idFits : FitsInt32 k := fits.id
  have inodeOf_entered : ∀ {m}, m < fs.slots → inodeOf (entered d type b ind name k c) m =
      inodeOf (setInode (newBlock d type c) k (newInode type k c 1)) m := fun hm =>
    inodeOf_onlyIn (onlyIn_setEntry _ valid.strlen_lt) fun same =>
      absurd same (slot_ne_data hm parent.data)
  have stored : inodeOf (entered d type b ind name k c) k = newInode type k c 1 := by
    rw [inodeOf_entered slot, inodeOf_setInode_self fits]
  have same := dataOf_allocated taken parent.data slot fun free =>
    parent.ne_block unowned (found.unique free)
  refine ⟨slot, first.empty, congrArg Inode.type stored, ?_, ⟨c, data, ?_, ?_, ?_⟩⟩
  · have still : findName (setInode (newBlock d type c) k (newInode type k c 1)) b name = none := by
      unfold findName
      rw [same]
      exact missing
    unfold entered
    rw [getFiledir_some parent.type valid.strlen_lt parent.inside parent.data.2
      (findName_setEntry valid.fit bound still), entryId_dataOf, entryId_setEntry idFits]
  · rw [stored]
    rfl
  · have table : c ≠ k / inodePerBlock := (slot_ne_data slot data).symm
    unfold entered
    rw [blockType_onlyIn (onlyIn_setEntry _ valid.strlen_lt) fun _ => Nat.le_add_right ..,
      blockType_onlyIn (onlyIn_setInode _ _ _) fun here => absurd here table, blockType_newBlock]
  · intro m hm differs busy
    have old : inodeOf (entered d type b ind name k c) m = inodeOf d m := by
      rw [inodeOf_entered hm, inodeOf_allocated_ne taken hm differs]
    unfold InUse at busy
    rw [old] at busy ⊢
    exact unowned m hm busy

/-- With room a creation fails without a change or is complete. -/
theorem createFiledir_of_room {linkId : Int} (parent : Parent fs d n b)
    (kind : type = .file ∨ type = .dir) (valid : ValidName name) (room : Room fs d b name) :
    createFiledir fs d (inodeOf d n) type linkId name = .ok (-1, d) ∨
      ∃ k d', createFiledir fs d (inodeOf d n) type linkId name = .ok ((k : Nat), d') ∧
        Complete fs d d' (inodeOf d n) type name k := by
  by_cases stop : findName d b name ≠ none ∨ findFree d b = none
  · exact .inl (createFiledir_stop parent valid.strlen_lt stop)
  · obtain ⟨⟨m, slot, empty⟩, c, data, found, unowned⟩ := (or_assoc.2 room).resolve_left stop
    rw [not_or, not_not] at stop
    obtain ⟨missing, notFull⟩ := stop
    obtain ⟨ind, place⟩ := Option.ne_none_iff_exists'.1 notFull
    obtain ⟨k, first⟩ := exists_firstEmpty slot empty
    refine .inr ⟨k, _, ?_, complete_entered parent valid missing place first data found unowned⟩
    exact createFiledir_entered parent kind valid missing place first data found
      (parent.ne_block unowned)

/-- A failed creation has found the name or a full directory. -/
theorem room_of_failed {linkId : Int} (parent : Parent fs d n b)
    (kind : type = .file ∨ type = .dir)
    (run : createFiledir fs d (inodeOf d n) type linkId name = .ok (-1, d')) :
    Room fs d b name := by
  obtain ⟨-, ⟨stop, -⟩ | ⟨k, ind, d2, -, -, -, minus, -⟩⟩ := createFiledir_new kind parent.inside run
  · exact or_assoc.1 (.inl stop)
  · omega

theorem inodeOf_written {d2 : Disk} {m lo count : Nat} {f : Nat → UInt8} (data : fs.IsData b)
    (slot : m < fs.slots) : inodeOf (patch d2 b lo count f) m = inodeOf d2 m :=
  inodeOf_patch fun same => absurd same (slot_ne_data slot data)

/-- The inode that a creation reports has the type asked for. -/
theorem createFiledir_type {linkId res : Int} (parent : Parent fs d n b)
    (kind : type = .file ∨ type = .dir)
    (run : createFiledir fs d (inodeOf d n) type linkId name = .ok (res, d')) :
    res = -1 ∨ ∃ k < fs.slots, res = ((k : Nat) : Int) ∧ (inodeOf d' k).type = type.code := by
  obtain ⟨-, ⟨-, minus, -⟩ | ⟨k, ind, d2, -, -, first, rfl, taken, rfl⟩⟩ :=
    createFiledir_new kind parent.inside run
  · exact .inl minus
  · obtain ⟨blockId, stored⟩ := taken.inode first.slot (by decide)
    refine .inr ⟨k, first.slot, rfl, ?_⟩
    rw [inodeOf_written parent.data first.slot, stored]
    rfl

/-- A complete creation had room. -/
theorem room_of_complete {linkId res : Int} (parent : Parent fs d n b)
    (kind : type = .file ∨ type = .dir)
    (run : createFiledir fs d (inodeOf d n) type linkId name = .ok (res, d'))
    (complete : Complete fs d d' dir type name k) : Room fs d b name := by
  obtain ⟨-, ⟨stop, -⟩ | ⟨k', ind, d2, -, -, first, -, taken, rfl⟩⟩ :=
    createFiledir_new kind parent.inside run
  · exact or_assoc.1 (.inl stop)
  · have entered : ∀ m < fs.slots, inodeOf (patch d2 b sizeofBlock blockDataSize
        (putEntry (dataOf d b) (sizeofDirEntry * ind) name k')) m = inodeOf d2 m :=
      fun m slot => inodeOf_written parent.data slot
    have used : (inodeOf d2 k).type = type.code := by
      rw [← entered k complete.slot]
      exact complete.type
    -- the complete inode is the one taken, since it was empty before
    have here : k = k' := by
      by_contra other
      apply complete.fresh
      unfold InUse
      rw [← inodeOf_allocated_ne taken complete.slot other, used]
      obtain rfl | rfl := kind <;> decide
    subst here
    obtain ⟨c, data, owns, -, unique⟩ := complete.block
    rw [entered k complete.slot] at owns
    cases taken with
    | bare full =>
      rw [inodeOf_setInode_self (newInode_fits complete.slot (by decide) (by decide))] at owns
      have minus : (-1 : Int) = c := owns
      omega
    | withBlock c' data' found =>
      rw [inodeOf_setInode_self (newInode_fits complete.slot (fits_block data') (by decide))] at owns
      cases Int.ofNat.inj owns
      refine .inr (.inr ⟨⟨k, complete.slot, complete.fresh⟩, c, data, found, fun m slot busy => ?_⟩)
      have differs : m ≠ k := fun same => complete.fresh (same ▸ busy)
      have old := (entered m slot).trans
        ((inodeOf_setInode_ne differs).trans (inodeOf_newBlock (slot_ne_data slot data)))
      rw [← old]
      apply unique m slot differs
      unfold InUse
      rw [old]
      exact busy

/-- A call that reports what `create_filedir` reports is all or nothing exactly when there is room. -/
theorem allOrNothing_iff {linkId : Int} {success : Nat → Int} {r : Except Halt (Int × Disk)}
    (parent : Parent fs d n b) (kind : type = .file ∨ type = .dir) (valid : ValidName name)
    (failed : createFiledir fs d (inodeOf d n) type linkId name = .ok (-1, d) → r = .ok (-1, d))
    (done : ∀ k d', createFiledir fs d (inodeOf d n) type linkId name = .ok ((k : Nat), d') →
      Complete fs d d' (inodeOf d n) type name k → r = .ok (success k, d'))
    (back : ∀ res d', r = .ok (res, d') → ∃ id,
      createFiledir fs d (inodeOf d n) type linkId name = .ok (id, d') ∧ (res = -1 → id = -1)) :
    AllOrNothing fs d (inodeOf d n) type name success r ↔ Room fs d b name := by
  constructor
  · rintro (fails | ⟨k, d', succeeds, complete⟩)
    · obtain ⟨id, run, minus⟩ := back _ _ fails
      rw [minus rfl] at run
      exact room_of_failed parent kind run
    · obtain ⟨id, run, -⟩ := back _ _ succeeds
      exact room_of_complete parent kind run complete
  · intro room
    obtain run | ⟨k, d', run, complete⟩ := createFiledir_of_room parent kind valid room
    · exact .inl (failed run)
    · exact .inr ⟨k, d', done k d' run complete, complete⟩

theorem createFiledir_allOrNothing {linkId : Int} (parent : Parent fs d n b)
    (kind : type = .file ∨ type = .dir) (valid : ValidName name) :
    AllOrNothing fs d (inodeOf d n) type name (fun k => k)
      (createFiledir fs d (inodeOf d n) type linkId name) ↔ Room fs d b name :=
  allOrNothing_iff parent kind valid id (fun _ _ run _ => run) fun res _ run => ⟨res, run, id⟩

end Enter

end Creation

/-! ## The calls that create -/

/-- `path` names `name` in directory `n`. -/
structure Resolves (fs : Info) (d : Disk) (path : CStr) (n : Nat) (name : CStr) : Prop where
  parent : getPathInode fs d (pathGetDirectory path) = .ok (some (inodeOf d n))
  name : pathGetName path = name

section Calls

variable {fs : Info} {d d' : Disk} {path name : CStr} {n b : Nat}

theorem fsMkdir_eq (parent : Parent fs d n b) (valid : ValidName name)
    (resolves : Resolves fs d path n name) :
    fsMkdir fs d path = createFiledir fs d (inodeOf d n) .dir (-1) name >>= fun r =>
      .ok (resultOf r.1, r.2) := by
  have named : strlen name ≠ 0 := by
    have := valid.nonempty
    rw [strlen_eq]
    omega
  unfold fsMkdir onParent
  rw [resolves.parent, ok_bind, resolves.name, if_pos named]
  dsimp only
  rw [if_pos parent.type]

theorem resultOf_eq_minus {id : Int} (h : resultOf id = -1) : id = -1 := by
  by_contra other
  unfold resultOf at h
  rw [if_neg other] at h
  contradiction

theorem fsMkdir_allOrNothing (parent : Parent fs d n b) (valid : ValidName name)
    (resolves : Resolves fs d path n name) :
    AllOrNothing fs d (inodeOf d n) .dir name (fun _ => 0) (fsMkdir fs d path) ↔
      Room fs d b name := by
  rw [fsMkdir_eq parent valid resolves]
  apply allOrNothing_iff parent (.inr rfl) valid
  · intro run
    rw [run]
    rfl
  · intro k d' run _
    rw [run, ok_bind, resultOf_slot]
  · intro res d' run
    obtain ⟨⟨id, d1⟩, create, done⟩ := bind_eq_ok.1 run
    cases done
    exact ⟨id, create, resultOf_eq_minus⟩

/-- The result and the disk of `inode_open`. -/
def openResult (r : Except Halt (Int × Handle × Disk)) : Except Halt (Int × Disk) :=
  r >>= fun r => .ok (r.1, r.2.2)

theorem openCreate_ok {f f' : Handle} {res : Int} (valid : ValidName name)
    (resolves : Resolves fs d f.path n name) :
    openCreate fs d f = .ok (res, f', d') ↔
      ∃ id, createFiledir fs d (inodeOf d n) .file (-1) name = .ok (id, d') ∧
        (id = -1 ∧ res = -1 ∧ f' = f ∨ id ≠ -1 ∧ ∃ node,
          inodeGet fs d' (ofInt32 id) = .ok (some node) ∧ res = 0 ∧
            f' = { f with ptr := some node }) := by
  have named : strlen name ≠ 0 := by
    have := valid.nonempty
    rw [strlen_eq]
    omega
  unfold openCreate
  rw [resolves.name, if_neg named, resolves.parent, ok_bind]
  dsimp only
  rw [bind_eq_ok]
  constructor
  · rintro ⟨⟨id, d1⟩, create, rest⟩
    dsimp only at rest
    by_cases minus : id = -1
    · rw [if_pos minus] at rest
      cases rest
      exact ⟨id, create, .inl ⟨minus, rfl, rfl⟩⟩
    · rw [if_neg minus, bind_eq_ok] at rest
      obtain ⟨found, get, done⟩ := rest
      cases found with
      | none => cases done
      | some node =>
        cases done
        exact ⟨id, create, .inr ⟨minus, node, get, rfl, rfl⟩⟩
  · rintro ⟨id, create, ⟨minus, rfl, rfl⟩ | ⟨notMinus, node, get, rfl, rfl⟩⟩
    · exact ⟨(id, d'), create, if_pos minus⟩
    · refine ⟨(id, d'), create, ?_⟩
      dsimp only
      rw [if_neg notMinus, get, ok_bind]

/-- `inode_open` of a file it has created. -/
theorem inodeOpen_created {f : Handle} {flags : AccessFlag} {k : Nat} (valid : ValidName name)
    (missing : Missing f flags) (resolves : Resolves fs d f.path n name) (slot : k < fs.slots)
    (file : (inodeOf d' k).type = InodeType.file.code)
    (create : createFiledir fs d (inodeOf d n) .file (-1) name = .ok ((k : Nat), d')) :
    inodeOpen fs d f flags =
      .ok (0, (openFound 0 { f with ptr := some (inodeOf d' k) } flags).2, d') := by
  have notMinus : ((k : Nat) : Int) ≠ -1 := by omega
  have busy : InUse d' k := by
    unfold InUse
    rw [file]
    decide
  have table : k / 51 < fs.totalBlockNum := (fs.slot_block slot).trans fs.inodeBlockNum_lt
  have get : inodeGet fs d' (ofInt32 k) = .ok (some (inodeOf d' k)) := by
    rw [ofInt32_slot slot]
    exact inodeGet_eq_ok.2 ⟨table, .inr ⟨busy, rfl⟩⟩
  have opened := openFound_created missing file
  unfold inodeOpen
  rw [if_pos missing,
    (openCreate_ok valid resolves).2 ⟨k, create, .inr ⟨notMinus, _, get, rfl, rfl⟩⟩, ok_bind]
  dsimp only
  rw [opened]

theorem inodeOpen_allOrNothing {f : Handle} {flags : AccessFlag} (parent : Parent fs d n b)
    (valid : ValidName name) (missing : Missing f flags) (resolves : Resolves fs d f.path n name) :
    AllOrNothing fs d (inodeOf d n) .file name (fun _ => 0) (openResult (inodeOpen fs d f flags)) ↔
      Room fs d b name := by
  unfold inodeOpen
  rw [if_pos missing]
  apply allOrNothing_iff parent (.inl rfl) valid
  · intro run
    rw [(openCreate_ok valid resolves).2 ⟨-1, run, .inl ⟨rfl, rfl, rfl⟩⟩, ok_bind]
    dsimp only
    rw [openFound_failed]
    rfl
  · intro k d' run complete
    have opened := inodeOpen_created valid missing resolves complete.slot complete.type run
    unfold inodeOpen at opened
    rw [if_pos missing] at opened
    rw [opened]
    rfl
  · intro res d' run
    obtain ⟨r, whole, last⟩ := bind_eq_ok.1 run
    cases last
    obtain ⟨⟨r1, f1, d1⟩, create, done⟩ := bind_eq_ok.1 whole
    cases done
    obtain ⟨id, made, ⟨minus, -, -⟩ | ⟨notMinus, node, get, rfl, rfl⟩⟩ :=
      (openCreate_ok valid resolves).1 create
    · exact ⟨id, made, fun _ => minus⟩
    · obtain ⟨k, slot, rfl, type⟩ :=
        (createFiledir_type parent (.inl rfl) made).resolve_left notMinus
      rw [ofInt32_slot slot] at get
      rw [← (inodeGet_some get).2] at type
      refine ⟨k, made, fun failed => ?_⟩
      have opened := (openFound_created missing type).symm.trans failed
      contradiction

/-- `create_filedir` of a file or a directory, `fs_mkdir`, and `inode_open` of a missing file to
write are all or nothing exactly when there is room. -/
theorem creation_all_or_nothing_iff (parent : Parent fs d n b) (valid : ValidName name) :
    (∀ type linkId, type = .file ∨ type = .dir →
      (AllOrNothing fs d (inodeOf d n) type name (fun k => k)
        (createFiledir fs d (inodeOf d n) type linkId name) ↔ Room fs d b name)) ∧
    (∀ path, Resolves fs d path n name →
      (AllOrNothing fs d (inodeOf d n) .dir name (fun _ => 0) (fsMkdir fs d path) ↔
        Room fs d b name)) ∧
    ∀ f flags, Missing f flags → Resolves fs d f.path n name →
      (AllOrNothing fs d (inodeOf d n) .file name (fun _ => 0)
        (openResult (inodeOpen fs d f flags)) ↔ Room fs d b name) := by
  refine ⟨fun type linkId kind => ?_, fun path resolves => ?_, fun f flags missing resolves => ?_⟩
  · exact createFiledir_allOrNothing parent kind valid
  · exact fsMkdir_allOrNothing parent valid resolves
  · exact inodeOpen_allOrNothing parent valid missing resolves

end Calls

/-! ## Small devices -/

/-- A device with one block for the inode table and one for data. -/
def twoBlocks : Info := ⟨2064, by decide⟩

/-- It is formatted: the root has the only data block. -/
def twoBlocksDisk : Disk := freshDisk 2064

theorem twoBlocks_parent : Parent twoBlocks twoBlocksDisk 0 1 :=
  ⟨by decide, by decide +kernel, by decide, by decide +kernel⟩

/-- The path `"/a"` names the file `"a"` in the root. -/
theorem twoBlocks_resolves : Resolves twoBlocks twoBlocksDisk [47, 97] 0 [97] :=
  ⟨rfl, by decide⟩

theorem twoBlocks_noRoom : ¬ Room twoBlocks twoBlocksDisk 1 [97] := by
  rintro (there | full | ⟨-, c, data, found, -⟩)
  · exact there (by decide +kernel)
  · have place : findFree twoBlocksDisk 1 = some 0 := by decide +kernel
    rw [place] at full
    contradiction
  · have only : c = 1 := by
      have lower : 1 ≤ c := data.1
      have upper : c < 2 := data.2
      omega
    have busy : blockType twoBlocksDisk 1 = BlockType.used.code := by decide +kernel
    have free := found.free
    rw [only, busy] at free
    contradiction

theorem creation_all_or_nothing_iff_root :
    AllOrNothing twoBlocks twoBlocksDisk (inodeOf twoBlocksDisk 0) .dir [97] (fun _ => 0)
      (fsMkdir twoBlocks twoBlocksDisk [47, 97]) ↔ Room twoBlocks twoBlocksDisk 1 [97] :=
  (creation_all_or_nothing_iff twoBlocks_parent ⟨by decide, by decide, by decide⟩).2.1 _
    twoBlocks_resolves

/-- Without a free block a creation makes a directory that has no block. -/
theorem creation_without_block :
    Run twoBlocks (fun _ _ _ => True) ⟨twoBlocksDisk, []⟩ [] (fun _ => False) ∧
    Parent twoBlocks twoBlocksDisk 0 1 ∧ ValidName [97] ∧
    Resolves twoBlocks twoBlocksDisk [47, 97] 0 [97] ∧
    ¬ AllOrNothing twoBlocks twoBlocksDisk (inodeOf twoBlocksDisk 0) .dir [97] (fun k => k)
      (createFiledir twoBlocks twoBlocksDisk (inodeOf twoBlocksDisk 0) .dir (-1) [97]) ∧
    ¬ AllOrNothing twoBlocks twoBlocksDisk (inodeOf twoBlocksDisk 0) .dir [97] (fun _ => 0)
      (fsMkdir twoBlocks twoBlocksDisk [47, 97]) := by
  have valid : ValidName [97] := ⟨by decide, by decide, by decide⟩
  refine ⟨run_fresh (by decide +kernel), twoBlocks_parent, valid, twoBlocks_resolves, ?_, ?_⟩
  · rw [createFiledir_allOrNothing twoBlocks_parent (.inr rfl) valid]
    exact twoBlocks_noRoom
  · rw [fsMkdir_allOrNothing twoBlocks_parent valid twoBlocks_resolves]
    exact twoBlocks_noRoom

/-- A device with one block for the inode table and three for data. -/
def fourBlocks : Info := ⟨4128, by decide⟩

/-- The formatted device with a file or a directory `"/a"`. -/
def madeDisk (type : InodeType) : Disk := entered (freshDisk 4128) type 1 0 [97] 1 2

theorem createFiledir_made {type : InodeType} {linkId : Int} (kind : type = .file ∨ type = .dir) :
    createFiledir fourBlocks (freshDisk 4128) (inodeOf (freshDisk 4128) 0) type linkId [97] =
      .ok ((1 : Nat), madeDisk type) := by
  have parent : Parent fourBlocks (freshDisk 4128) 0 1 :=
    ⟨by decide, by decide +kernel, by decide, by decide +kernel⟩
  have first : FirstEmpty fourBlocks (freshDisk 4128) 1 :=
    ⟨by decide, by decide +kernel, by decide +kernel⟩
  have found : FirstFree (freshDisk 4128) 1 2 :=
    ⟨by decide, by decide +kernel, by decide +kernel, by decide +kernel⟩
  exact createFiledir_entered parent kind ⟨by decide, by decide, by decide⟩ (by decide +kernel)
    (by decide +kernel) first (by decide) found (by decide)

/-- The handle of a file `"/a"` that is not there, and the one of the file created for it. -/
def missingHandle : Handle := ⟨[47, 97], none, .dirExist, 0⟩

def openedHandle : Handle := ⟨[47, 97], some (newInode .file 1 2 1), .fileWrite, 0⟩

theorem inodeOpen_made : inodeOpen fourBlocks (freshDisk 4128) missingHandle .fileWrite =
    .ok (0, openedHandle, madeDisk .file) := by
  have resolves : Resolves fourBlocks (freshDisk 4128) missingHandle.path 0 [97] := ⟨rfl, by decide⟩
  have copy : inodeOf (madeDisk .file) 1 = newInode .file 1 2 1 := by decide +kernel
  rw [inodeOpen_created ⟨by decide, by decide, by decide⟩ ⟨rfl, .inl rfl⟩ resolves (by decide)
    (congrArg Inode.type copy) (createFiledir_made (.inl rfl)), copy]
  rfl

/-- The states of a run that looks up `"/a"` and opens it to write. -/
def startState : State := ⟨freshDisk 4128, []⟩

def lookedUp : State := ⟨freshDisk 4128, [missingHandle]⟩

def opened : State := ⟨madeDisk .file, [openedHandle]⟩

/-- The stale handles of this run: there are none. -/
def openedStale : Nat → Prop :=
  staleAfter (staleAfter (fun _ => False) startState lookedUp) lookedUp opened

theorem not_openedStale (i : Nat) : ¬ openedStale i := by
  rintro ((⟨⟨⟩⟩ | ⟨f, node, handle, -⟩) | ⟨f, node, handle, copy, -⟩)
  · cases i <;> contradiction
  · cases i with
    | zero =>
      cases handle
      contradiction
    | succ i => cases i <;> contradiction

theorem exec_lookedUp : exec fourBlocks startState (.lookup [47, 97]) = .ok (0, lookedUp) := by
  have found : fsLookup fourBlocks (freshDisk 4128) [47, 97] = .ok missingHandle := by
    decide +kernel
  unfold exec startState
  dsimp only
  rw [found]
  rfl

theorem exec_opened : exec fourBlocks lookedUp (.open 0 .fileWrite) = .ok (0, opened) := by
  unfold exec lookedUp
  dsimp only [List.getElem?_cons_zero]
  rw [inodeOpen_made]
  rfl

theorem opened_run {Ok : (Nat → Prop) → State → Call → Prop}
    (lookups : ∀ stale s path, Ok stale s (.lookup path))
    (opens : ∀ stale s i flags, Ok stale s (.open i flags)) :
    Run fourBlocks Ok opened [.create 1, .idle] openedStale := by
  have first := (run_fresh (by decide +kernel)).step (lookups _ _ _) exec_lookedUp
  have second := first.step (opens _ _ _ _) exec_opened
  have history : changed fourBlocks lookedUp (.open 0 .fileWrite) 0 = .create 1 := by decide +kernel
  rw [history] at second
  exact second

end OsLab.Kernel.Blkfs
