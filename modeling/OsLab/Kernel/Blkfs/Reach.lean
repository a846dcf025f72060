import OsLab.Kernel.Blkfs.Intact
import OsLab.Kernel.Blkfs.Lookup

/-!
# Which paths halt the file system

`get_filedir` asserts that the inode it is asked is a directory and that the name is short, and
`get_path_inode` that the inode of an entry is in use; no caller looks before it asks. Resolution is
stated here on the tree of names, and `pathCall_returns_iff` says for each call exactly on which
trees it comes to its end.
-/

namespace OsLab.Kernel.Blkfs

open OsLab.Memory OsLab.Klib Volume

/-! ## The tree of names -/

/-- The call comes to its end. -/
def Returns {α : Type} (r : Except Halt α) : Prop := ∃ x, r = .ok x

/-- The directory `n` names inode `k`. -/
def Child (fs : Info) (d : Disk) (n : Nat) (name : CStr) (k : Nat) : Prop :=
  ∃ b i, (volume fs d).IsDir n b ∧ findName d b name = some i ∧ entryAt d b i = some (k : Int)

/-- The names lead from inode `n` to inode `k`. -/
inductive Leads (fs : Info) (d : Disk) : Nat → List CStr → Nat → Prop
  | nil {n : Nat} : Leads fs d n [] n
  | cons {n m k : Nat} {name : CStr} {names : List CStr} (child : Child fs d n name m)
      (rest : Leads fs d m names k) : Leads fs d n (name :: names) k

/-- A name can be looked up in inode `n`: the inode is a directory, the name has at most 14
characters, and the inode it names is in use if there is one. -/
structure Enterable (fs : Info) (d : Disk) (n : Nat) (name : CStr) : Prop where
  isDir : (inodeOf d n).type = InodeType.dir.code
  short : name.length ≤ 14
  live : ∀ k, Child fs d n name k → InUse d k

/-- Every name that is reached can be looked up. -/
def Walkable (fs : Info) (d : Disk) (n : Nat) (names : List CStr) : Prop :=
  ∀ before name behind, names = before ++ name :: behind → ∀ m, Leads fs d n before m →
    Enterable fs d m name

/-- The path can be walked from the root. -/
def Clear (fs : Info) (d : Disk) (path : CStr) : Prop := Walkable fs d 0 (components path)

/-- The path leads to inode `k`. -/
def LeadsTo (fs : Info) (d : Disk) (path : CStr) (k : Nat) : Prop :=
  Leads fs d 0 (components path) k

/-- A disk with room on which every inode in use has a block. -/
structure Roomy (fs : Info) (d : Disk) : Prop where
  owned : Owned fs (volume fs d)
  stamped : Stamped fs d
  intact : Intact fs (volume fs d)
  blocks : ∀ n < fs.slots, InUse d n → (inodeOf d n).blockId ≠ -1
  free : ∃ b, fs.IsData b ∧ blockType d b = BlockType.free.code
  empty : ∃ n < fs.slots, ¬ InUse d n

section Tree

variable {fs : Info} {d : Disk} {n k : Nat} {name : CStr} {names : List CStr}

theorem strlen_lt_iff : strlen name < inodeNameLen - 1 ↔ name.length ≤ 14 := by
  rw [strlen_eq]
  exact Nat.lt_succ_iff

theorem Child.unique {k' : Nat} (h : Child fs d n name k) (h' : Child fs d n name k') : k = k' := by
  obtain ⟨b, i, dir, found, entry⟩ := h
  obtain ⟨b', i', dir', found', entry'⟩ := h'
  cases dir.unique dir'
  cases found.symm.trans found'
  exact Int.ofNat.inj (Option.some.inj (entry.symm.trans entry'))

theorem Leads.unique {k' : Nat} (h : Leads fs d n names k) (h' : Leads fs d n names k') :
    k = k' := by
  induction h with
  | nil =>
    cases h'
    rfl
  | cons child rest ih =>
    cases h' with
    | cons child' rest' => exact ih (child.unique child' ▸ rest')

theorem leads_cons : Leads fs d n (name :: names) k ↔
    ∃ m, Child fs d n name m ∧ Leads fs d m names k := by
  constructor
  · rintro (_ | ⟨child, rest⟩)
    exact ⟨_, child, rest⟩
  · rintro ⟨m, child, rest⟩
    exact .cons child rest

theorem walkable_nil : Walkable fs d n [] := by
  intro before name behind whole
  cases before <;> contradiction

theorem walkable_cons : Walkable fs d n (name :: names) ↔
    Enterable fs d n name ∧ ∀ m, Child fs d n name m → Walkable fs d m names := by
  constructor
  · intro h
    refine ⟨h [] name names rfl n .nil, fun m child before name' behind whole k leads => ?_⟩
    exact h (name :: before) name' behind (congrArg (name :: ·) whole) k (.cons child leads)
  · rintro ⟨first, rest⟩ before name' behind whole k leads
    cases leads with
    | nil =>
      cases whole
      exact first
    | cons child leads =>
      cases whole
      exact rest _ child _ _ _ rfl k leads

theorem Walkable.last (h : Walkable fs d n (names ++ [name])) (leads : Leads fs d n names k) :
    Enterable fs d k name :=
  h names name [] rfl k leads

/-- A walk ends at an inode in use. -/
theorem Walkable.live (h : Walkable fs d n names) (leads : Leads fs d n names k)
    (busy : InUse d n) : InUse d k := by
  induction leads with
  | nil => exact busy
  | cons child rest ih =>
    obtain ⟨enter, walkable⟩ := walkable_cons.1 h
    exact ih (walkable _ child) (enter.live _ child)

theorem walkable_append (h : Walkable fs d n (names ++ [name])) : Walkable fs d n names := by
  intro before name' behind whole
  apply h before name' (behind ++ [name])
  rw [whole]
  simp

theorem child_iff {b : Nat} (dir : (volume fs d).IsDir n b) :
    Child fs d n name k ↔ ∃ i, findName d b name = some i ∧ entryAt d b i = some (k : Int) := by
  constructor
  · rintro ⟨c, i, dir', found, entry⟩
    cases dir.unique dir'
    exact ⟨i, found, entry⟩
  · rintro ⟨i, found, entry⟩
    exact ⟨b, i, dir, found, entry⟩

theorem child_slot (owned : Owned fs (volume fs d)) (child : Child fs d n name k) : k < fs.slots := by
  obtain ⟨b, i, dir, found, entry⟩ := child
  have data := (owned.data dir.used dir.block).1
  obtain ⟨m, slot, same⟩ := entry_slot owned data dir (findName_some found).1 entry
  cases Int.ofNat.inj same
  exact slot

variable (roomy : Roomy fs d)
include roomy

theorem Roomy.root_inUse : InUse d 0 :=
  (volume_used (root_slot fs)).1 roomy.intact.used

/-- A directory in use has a block. -/
theorem Roomy.parent (slot : n < fs.slots) (isDir : (inodeOf d n).type = InodeType.dir.code) :
    ∃ b, Parent fs d n b ∧ (volume fs d).IsDir n b := by
  have busy : InUse d n := by
    unfold InUse
    rw [isDir]
    decide
  obtain none | ⟨b, data, owns, -⟩ := roomy.owned.block n ((volume_used slot).2 busy)
  · rw [volume_inode slot] at none
    exact absurd none (roomy.blocks n slot busy)
  · rw [volume_inode slot] at owns
    exact ⟨b, ⟨slot, isDir, data, owns⟩, isDir_iff.2 ⟨slot, isDir, owns⟩⟩

theorem Roomy.child_slot (child : Child fs d n name k) : k < fs.slots :=
  Blkfs.child_slot roomy.owned child

/-- What `get_filedir` finds: no child, or the child. -/
theorem Roomy.nameId {b : Nat} (dir : (volume fs d).IsDir n b) (name : CStr) :
    nameId d b name = -1 ∧ (∀ k, ¬ Child fs d n name k) ∨
      ∃ k : Nat, nameId d b name = k ∧ Child fs d n name k := by
  cases search : findName d b name with
  | none =>
    refine .inl ⟨?_, fun k child => ?_⟩
    · unfold Blkfs.nameId
      rw [search]
    · obtain ⟨i, found, -⟩ := (child_iff dir).1 child
      rw [search] at found
      contradiction
  | some i =>
    obtain ⟨place, entry⟩ := findName_some search
    have data := (roomy.owned.data dir.used dir.block).1
    obtain ⟨k, slot, same⟩ := entry_slot roomy.owned data dir place entry
    rw [same] at entry
    refine .inr ⟨k, ?_, (child_iff dir).2 ⟨i, search, entry⟩⟩
    unfold Blkfs.nameId
    rw [search]
    exact same

/-- One turn of `get_path_inode` on the tree. -/
theorem Roomy.childOf_iff {r : Option Inode} (slot : n < fs.slots) :
    childOf fs d (inodeOf d n) name = .ok r ↔ Enterable fs d n name ∧
      ((∀ k, ¬ Child fs d n name k) ∧ r = none ∨ ∃ k, Child fs d n name k ∧ r = some (inodeOf d k)) := by
  have inTable : ∀ {k}, k < fs.slots → k / inodePerBlock < fs.totalBlockNum :=
    fun slot => (fs.slot_block slot).trans fs.inodeBlockNum_lt
  rw [childOf_eq_ok]
  constructor
  · rintro ⟨id, getdir, result⟩
    obtain ⟨isDir, short, -, id_eq⟩ := getFiledir_eq_ok.1 getdir
    obtain ⟨b, parent, dir⟩ := roomy.parent slot isDir
    rw [parent.inside] at id_eq
    obtain ⟨none, childless⟩ | ⟨k, named, child⟩ := roomy.nameId dir name
    · refine ⟨⟨isDir, strlen_lt_iff.1 short, fun k child => absurd child (childless k)⟩,
        .inl ⟨childless, ?_⟩⟩
      obtain ⟨-, rfl⟩ | ⟨some, -⟩ := result
      · rfl
      · exact absurd (id_eq.trans none) some
    · obtain ⟨minus, -⟩ | ⟨-, chi, get, rfl⟩ := result
      · omega
      · rw [id_eq, named, ofInt32_slot (roomy.child_slot child)] at get
        obtain ⟨busy, rfl⟩ := inodeGet_some get
        refine ⟨⟨isDir, strlen_lt_iff.1 short, fun m other => ?_⟩, .inr ⟨k, child, rfl⟩⟩
        exact child.unique other ▸ busy
  · rintro ⟨⟨isDir, short, live⟩, result⟩
    obtain ⟨b, parent, dir⟩ := roomy.parent slot isDir
    refine ⟨Blkfs.nameId d b name, getFiledir_eq_ok.2 ?_, ?_⟩
    · rw [parent.inside]
      exact ⟨isDir, strlen_lt_iff.2 short, parent.data.2, rfl⟩
    · obtain ⟨none, childless⟩ | ⟨k, named, child⟩ := roomy.nameId dir name
      · obtain ⟨-, rfl⟩ | ⟨k, child, -⟩ := result
        · exact .inl ⟨none, rfl⟩
        · exact absurd child (childless k)
      · obtain ⟨childless, -⟩ | ⟨m, other, rfl⟩ := result
        · exact absurd child (childless k)
        · cases child.unique other
          have slotK := roomy.child_slot child
          refine .inr ⟨by omega, _, ?_, rfl⟩
          rw [named, ofInt32_slot slotK]
          exact inodeGet_eq_ok.2 ⟨inTable slotK, .inr ⟨live k child, rfl⟩⟩

/-- The turns of `get_path_inode` on the tree. -/
theorem Roomy.walk_iff {r : Option Inode} (slot : n < fs.slots) :
    walk fs d (inodeOf d n) names = .ok r ↔ Walkable fs d n names ∧
      ((∀ k, ¬ Leads fs d n names k) ∧ r = none ∨ ∃ k, Leads fs d n names k ∧ r = some (inodeOf d k)) := by
  induction names generalizing n with
  | nil =>
    rw [walk]
    constructor
    · intro done
      cases done
      exact ⟨walkable_nil, .inr ⟨n, .nil, rfl⟩⟩
    · rintro ⟨-, ⟨nowhere, -⟩ | ⟨k, leads, rfl⟩⟩
      · exact absurd .nil (nowhere n)
      · cases leads
        rfl
  | cons name names ih =>
    rw [walk, bind_eq_ok, walkable_cons]
    simp only [leads_cons]
    constructor
    · rintro ⟨found, turn, rest⟩
      obtain ⟨enter, ⟨childless, rfl⟩ | ⟨m, child, rfl⟩⟩ := (roomy.childOf_iff slot).1 turn
      · cases rest
        refine ⟨⟨enter, fun m child => absurd child (childless m)⟩, .inl ⟨?_, rfl⟩⟩
        rintro k ⟨m, child, -⟩
        exact childless m child
      · obtain ⟨walkable, result⟩ := (ih (roomy.child_slot child)).1 rest
        refine ⟨⟨enter, fun m' other => child.unique other ▸ walkable⟩, ?_⟩
        obtain ⟨nowhere, rfl⟩ | ⟨k, leads, rfl⟩ := result
        · refine .inl ⟨?_, rfl⟩
          rintro k ⟨m', other, leads⟩
          exact nowhere k (child.unique other ▸ leads)
        · exact .inr ⟨k, ⟨m, child, leads⟩, rfl⟩
    · rintro ⟨⟨enter, walkable⟩, result⟩
      by_cases some : ∃ m, Child fs d n name m
      · obtain ⟨m, child⟩ := some
        refine ⟨_, (roomy.childOf_iff slot).2 ⟨enter, .inr ⟨m, child, rfl⟩⟩, ?_⟩
        refine (ih (roomy.child_slot child)).2 ⟨walkable m child, ?_⟩
        obtain ⟨nowhere, rfl⟩ | ⟨k, ⟨m', other, leads⟩, rfl⟩ := result
        · exact .inl ⟨fun k leads => nowhere k ⟨m, child, leads⟩, rfl⟩
        · exact .inr ⟨k, child.unique other ▸ leads, rfl⟩
      · have childless := not_exists.1 some
        refine ⟨none, (roomy.childOf_iff slot).2 ⟨enter, .inl ⟨childless, rfl⟩⟩, ?_⟩
        obtain ⟨-, rfl⟩ | ⟨k, ⟨m, child, -⟩, -⟩ := result
        · rfl
        · exact absurd child (childless m)

/-- `get_path_inode` on the tree. -/
theorem Roomy.getPathInode_iff {path : CStr} {r : Option Inode} :
    getPathInode fs d path = .ok r ↔ Clear fs d path ∧
      ((∀ k, ¬ LeadsTo fs d path k) ∧ r = none ∨ ∃ k, LeadsTo fs d path k ∧ r = some (inodeOf d k)) := by
  have get : inodeGet fs d 0 = .ok (some (inodeOf d 0)) :=
    inodeGet_eq_ok.2 ⟨Nat.zero_lt_of_lt fs.inodeBlockNum_lt, .inr ⟨roomy.root_inUse, rfl⟩⟩
  rw [getPathInode_eq_ok]
  constructor
  · rintro ⟨root, found, walked⟩
    cases get.symm.trans found
    exact (roomy.walk_iff (root_slot fs)).1 walked
  · intro h
    exact ⟨_, get, (roomy.walk_iff (root_slot fs)).2 h⟩

end Tree

/-! ## Directories -/

section Directory

variable {fs : Info} {d : Disk} {n k b : Nat} {name : CStr}

theorem exists_firstFree (stamped : Stamped fs d)
    (free : ∃ c, fs.IsData c ∧ blockType d c = BlockType.free.code) :
    ∃ c, FirstFree d fs.inodeBlockNum c := by
  classical
  have some : ∃ c, fs.IsData c ∧ blockType d c = BlockType.free.code := free
  obtain ⟨data, unused⟩ := Nat.find_spec some
  refine ⟨Nat.find some, data.1, unused, fun c lo hi busy => ?_, fun c _ hi => ?_⟩
  · exact Nat.find_min some hi ⟨⟨lo, hi.trans data.2⟩, busy⟩
  · exact stamped c (hi.trans_lt data.2)

/-- `inode_bfree` of an inode in use comes to its end. -/
theorem inodeBfree_returns (owned : Owned fs (volume fs d)) (stamped : Stamped fs d)
    (slot : k < fs.slots) (busy : InUse d k) : ∃ d', inodeBfree fs d k = .ok d' := by
  have table : k / inodePerBlock < fs.totalBlockNum :=
    (fs.slot_block slot).trans fs.inodeBlockNum_lt
  obtain ⟨d1, release⟩ : ∃ d1, releaseBlock fs d (inodeOf d k).blockId = .ok d1 := by
    unfold releaseBlock
    obtain none | ⟨c, data, owns, used⟩ := owned.block k ((volume_used slot).2 busy)
    · rw [volume_inode slot] at none
      rw [if_neg (not_not.2 none)]
      exact ⟨d, rfl⟩
    · rw [volume_inode slot] at owns
      rw [volume_blockType data] at used
      rw [if_pos (by omega), owns, ofInt32_block data.2]
      exact ⟨_, blockFree_eq_ok.2 ⟨data.2, stamped c data.2, used, rfl⟩⟩
  have checked : kassert ((inodeOf d k).type ≠ InodeType.empty.code) "inode has been freed" =
      .ok () := if_pos busy
  unfold Blkfs.inodeBfree
  simp only [blockReaddata_of_lt table, ok_bind, readInode_dataOf, checked, release,
    blockWritedata_of_lt table]
  exact ⟨_, rfl⟩

/-- `delete_filedir` halts on an entry that names a free inode. -/
theorem deleteFiledir_iff (owned : Owned fs (volume fs d)) (stamped : Stamped fs d)
    (intact : Intact fs (volume fs d)) (parent : Parent fs d n b)
    (dir : (volume fs d).IsDir n b) : Returns (deleteFiledir fs d (inodeOf d n) name) ↔
      ∀ k, Child fs d n name k → InUse d k := by
  constructor
  · rintro ⟨d', run⟩ k child
    obtain ⟨i, found, entry⟩ := (child_iff dir).1 child
    have slot := child_slot owned child
    obtain ⟨-, -, ⟨missing, -⟩ | ⟨ind, d1, removed, -⟩⟩ := deleteFiledir_ok run
    · rw [parent.inside, found] at missing
      contradiction
    · have same := removed.found
      have busy := removed.busy
      rw [parent.inside] at same busy
      cases found.symm.trans same
      rw [(findName_some found).2] at entry
      rw [Option.some.inj entry, ofInt32_slot slot] at busy
      exact busy
  · intro live
    unfold Returns deleteFiledir
    rw [show kassert ((inodeOf d n).type = InodeType.dir.code) "dir is not a DIR" = .ok () from
      if_pos parent.type, ok_bind, parent.inside, blockReaddata_of_lt parent.data.2, ok_bind]
    cases search : findName d b name with
    | none =>
      unfold findName at search
      rw [search]
      exact ⟨d, rfl⟩
    | some ind =>
      obtain ⟨place, entry⟩ := findName_some search
      obtain ⟨k, slot, named⟩ := entry_slot owned parent.data dir place entry
      have child : Child fs d n name k := (child_iff dir).2 ⟨ind, search, named ▸ entry⟩
      have busy := live k child
      have table : k / inodePerBlock < fs.totalBlockNum :=
        (fs.slot_block slot).trans fs.inodeBlockNum_lt
      have used := (volume_used slot).2 busy
      have counted := intact.positive k used
      have id_eq := owned.id_eq k used
      rw [volume_inode slot] at counted id_eq
      have fits : FitsInt32 ((inodeOf d k).refcnt + -1) := by
        obtain ⟨-, upper⟩ := (inodeOf_fits d k).refcnt
        constructor
        · omega
        · omega
      have get : inodeGet fs d (ofInt32 (entryId (dataOf d b) (sizeofDirEntry * ind))) =
          .ok (some (inodeOf d k)) := by
        rw [named, ofInt32_slot slot]
        exact inodeGet_eq_ok.2 ⟨table, .inr ⟨busy, rfl⟩⟩
      obtain ⟨d1, drop⟩ : ∃ d1, dropInode fs d
          { inodeOf d k with refcnt := (inodeOf d k).refcnt + -1 } = .ok d1 := by
        unfold dropInode
        dsimp only
        rw [id_eq, ofInt32_slot slot]
        by_cases last : (inodeOf d k).refcnt + -1 = 0
        · rw [if_pos last]
          exact inodeBfree_returns owned stamped slot busy
        · rw [if_neg last]
          exact ⟨_, inodeSet_eq_ok.2 ⟨table, rfl⟩⟩
      unfold findName at search
      simp only [search, get, ok_bind, addRefcnt_eq_ok.2 ⟨fits, rfl⟩, drop,
        blockWritedata_of_lt parent.data.2]
      exact ⟨_, rfl⟩

/-- `create_filedir` of a new inode halts on a long name only. -/
theorem Roomy.createFiledir_iff {type : InodeType} (roomy : Roomy fs d) (parent : Parent fs d n b)
    (kind : type = .file ∨ type = .dir) (linkId : Int) :
    Returns (createFiledir fs d (inodeOf d n) type linkId name) ↔ name.length ≤ 14 := by
  constructor
  · rintro ⟨⟨res, d'⟩, run⟩
    exact strlen_lt_iff.1 (createFiledir_eq_ok.1 run).2.1
  · intro short
    have short := strlen_lt_iff.2 short
    by_cases stop : findName d b name ≠ none ∨ findFree d b = none
    · exact ⟨_, createFiledir_stop parent short stop⟩
    · rw [not_or, not_not] at stop
      obtain ⟨missing, notFull⟩ := stop
      obtain ⟨ind, place⟩ := Option.ne_none_iff_exists'.1 notFull
      obtain ⟨c, found⟩ := exists_firstFree roomy.stamped roomy.free
      exact createFiledir_progress linkId parent kind short missing place roomy.empty found

/-- A link to inode `k` counts its new name. -/
def Linkable (d : Disk) (b : Nat) (name : CStr) (k : Nat) : Prop :=
  findName d b name = none → findFree d b ≠ none → FitsInt32 ((inodeOf d k).refcnt + 1)

/-- `create_filedir` of a link. -/
theorem Roomy.createFiledir_link_iff (roomy : Roomy fs d) (parent : Parent fs d n b)
    (slot : k < fs.slots) (busy : InUse d k) :
    Returns (createFiledir fs d (inodeOf d n) .link (inodeOf d k).id name) ↔
      name.length ≤ 14 ∧ Linkable d b name k := by
  have id_eq := roomy.owned.id_eq k ((volume_used slot).2 busy)
  rw [volume_inode slot] at id_eq
  have table : k / inodePerBlock < fs.totalBlockNum :=
    (fs.slot_block slot).trans fs.inodeBlockNum_lt
  constructor
  · rintro ⟨⟨res, d'⟩, run⟩
    obtain ⟨-, short, -, result⟩ := createFiledir_eq_ok.1 run
    rw [parent.inside] at result
    refine ⟨strlen_lt_iff.1 short, fun missing notFull => ?_⟩
    obtain ⟨there | full, -⟩ | ⟨d1, ind, node, entered, -⟩ := result
    · exact absurd missing there
    · exact absurd full notFull
    · cases show (.ok ((inodeOf d k).id, d) : Except Halt (Int × Disk)) = .ok (res, d1) from
        entered.target
      have fits := entered.fits
      rwa [entered.node_eq, id_eq, ofInt32_slot slot] at fits
  · rintro ⟨short, linkable⟩
    have short := strlen_lt_iff.2 short
    by_cases stop : findName d b name ≠ none ∨ findFree d b = none
    · exact ⟨_, createFiledir_stop parent short stop⟩
    · rw [not_or, not_not] at stop
      obtain ⟨missing, notFull⟩ := stop
      obtain ⟨ind, place⟩ := Option.ne_none_iff_exists'.1 notFull
      have entered : Entered fs d b .link (inodeOf d k).id name k d ind (inodeOf d k) := by
        refine ⟨missing, place, ?_, ?_, ?_, ?_, linkable missing notFull, ?_⟩
        · rw [id_eq]
          rfl
        · rwa [ofInt32_slot slot]
        · rwa [ofInt32_slot slot]
        · rw [ofInt32_slot slot]
        · rwa [id_eq, ofInt32_slot slot]
      rw [← parent.inside] at entered
      refine ⟨_, createFiledir_eq_ok.2 ⟨parent.type, short, ?_, .inr ⟨d, ind, _, entered, rfl⟩⟩⟩
      rw [parent.inside]
      exact parent.data.2

/-- All entries of block `b` name inodes in use. -/
def EntriesLive (d : Disk) (b : Nat) : Prop :=
  ∀ i < 42, ∀ k : Nat, entryAt d b i = some (k : Int) → InUse d k

theorem Roomy.listEntry_iff (roomy : Roomy fs d) (data : fs.IsData b) (dir : (volume fs d).IsDir n b)
    (head : List Item) {i : Nat} (place : i < 42) :
    Returns (listEntry fs d (dataOf d b) head i) ↔
      ∀ k : Nat, entryAt d b i = some (k : Int) → InUse d k := by
  unfold listEntry
  rw [entryType_dataOf]
  by_cases free : entryAt d b i = none
  · have code : entryType (d b) (entryOffset i) = BlockType.free.code := by
      by_contra busy
      exact entryAt_ne_none.2 busy free
    rw [if_pos code]
    exact iff_of_true ⟨head, rfl⟩ fun k entry => by rw [free] at entry; contradiction
  · have code := entryAt_ne_none.1 free
    obtain ⟨id, entry⟩ := Option.ne_none_iff_exists'.1 free
    obtain ⟨k, slot, rfl⟩ := entry_slot roomy.owned data dir place entry
    have named : entryId (dataOf d b) (sizeofDirEntry * i) = k := by
      rw [entryId_dataOf]
      unfold entryAt at entry
      rw [if_neg code] at entry
      exact Option.some.inj entry
    rw [if_neg code, named, ofInt32_slot slot]
    constructor
    · rintro ⟨l, run⟩ m same
      cases Int.ofNat.inj (Option.some.inj (entry.symm.trans same))
      obtain ⟨node, get, run⟩ := bind_eq_ok.1 run
      cases node with
      | none => cases run
      | some node => exact (inodeGet_some get).1
    · intro live
      have table : k / inodePerBlock < fs.totalBlockNum :=
        (fs.slot_block slot).trans fs.inodeBlockNum_lt
      rw [inodeGet_eq_ok.2 ⟨table, .inr ⟨live k entry, rfl⟩⟩, ok_bind]
      exact ⟨_, rfl⟩

theorem Roomy.listEntries_iff (roomy : Roomy fs d) (data : fs.IsData b)
    (dir : (volume fs d).IsDir n b) {places : List Nat} {head : List Item}
    (inside : ∀ i ∈ places, i < 42) :
    Returns (places.foldlM (listEntry fs d (dataOf d b)) head) ↔
      ∀ i ∈ places, ∀ k : Nat, entryAt d b i = some (k : Int) → InUse d k := by
  induction places generalizing head with
  | nil => exact iff_of_true ⟨head, rfl⟩ fun i place => absurd place List.not_mem_nil
  | cons i places ih =>
    have first := roomy.listEntry_iff data dir head (inside i List.mem_cons_self)
    have rest := fun head => @ih head fun j place => inside j (List.mem_cons_of_mem _ place)
    rw [List.forall_mem_cons, ← first, ← rest head, List.foldlM_cons]
    constructor
    · rintro ⟨l, run⟩
      obtain ⟨l1, turn, run⟩ := bind_eq_ok.1 run
      exact ⟨⟨l1, turn⟩, (rest head).2 ((rest l1).1 ⟨l, run⟩)⟩
    · rintro ⟨⟨l1, turn⟩, run⟩
      rw [turn, ok_bind]
      exact (rest l1).2 ((rest head).1 run)

/-- `list_dir` halts on an entry that names a free inode. -/
theorem Roomy.listDir_iff (roomy : Roomy fs d) (slot : n < fs.slots) :
    Returns (listDir fs d (inodeOf d n)) ↔ (inodeOf d n).type = InodeType.dir.code ∧
      ∀ b, (volume fs d).IsDir n b → EntriesLive d b := by
  unfold Returns listDir
  simp only [kassert_bind_eq_ok, exists_and_left]
  apply and_congr_right
  intro isDir
  obtain ⟨b, parent, dir⟩ := roomy.parent slot isDir
  rw [parent.inside, blockReaddata_of_lt parent.data.2, ok_bind]
  refine (roomy.listEntries_iff parent.data dir fun i place => List.mem_range.1 place).trans ?_
  constructor
  · intro live c dir' i place
    cases dir.unique dir'
    exact live i (List.mem_range.2 place)
  · intro live i place
    exact live b dir i (List.mem_range.1 place)

end Directory

/-! ## The calls -/

/-- The calls on paths. `open` looks the path up and opens what it finds with some flags. -/
inductive PathCall where
  | lookup (path : CStr)
  | mkdir (path : CStr)
  | rm (path : CStr)
  | link (oldpath newpath : CStr)
  | readdir (path : CStr)
  | open (path : CStr) (flags : AccessFlag)

namespace PathCall

/-- The paths start with a slash. -/
def Absolute : PathCall → Prop
  | lookup path | mkdir path | rm path | readdir path | «open» path _ => charAt path 0 = slash
  | link oldpath newpath => charAt oldpath 0 = slash ∧ charAt newpath 0 = slash

/-- Run a call for nothing but its end. -/
def run (fs : Info) (d : Disk) : PathCall → Except Halt Unit
  | lookup path => do let _ ← fsLookup fs d path; .ok ()
  | mkdir path => do let _ ← fsMkdir fs d path; .ok ()
  | rm path => do let _ ← fsRm fs d path; .ok ()
  | link oldpath newpath => do let _ ← fsLink fs d oldpath newpath; .ok ()
  | readdir path => do let _ ← fsReaddir fs d path; .ok ()
  | «open» path flags => do
    let f ← fsLookup fs d path
    let _ ← inodeOpen fs d f flags
    .ok ()

/-- Every name that is looked up is short, in a directory, and of an inode in use if it is there, and
so are the name that is entered and the directory that is listed. -/
def Safe (fs : Info) (d : Disk) : PathCall → Prop
  | lookup path => Clear fs d path
  | mkdir path => Clear fs d (pathGetDirectory path) ∧ ∀ n, LeadsTo fs d (pathGetDirectory path) n →
      pathGetName path ≠ [] → (inodeOf d n).type = InodeType.dir.code →
        (pathGetName path).length ≤ 14
  | rm path => Clear fs d (pathGetDirectory path) ∧ ∀ n, LeadsTo fs d (pathGetDirectory path) n →
      pathGetName path ≠ [] → ∀ k, Child fs d n (pathGetName path) k → InUse d k
  | link oldpath newpath => Clear fs d oldpath ∧ ∀ k, LeadsTo fs d oldpath k →
      Clear fs d (pathGetDirectory newpath) ∧ ∀ n, LeadsTo fs d (pathGetDirectory newpath) n →
        (inodeOf d n).type = InodeType.dir.code ∧ (pathGetName newpath).length ≤ 14 ∧
        ∀ b, (volume fs d).IsDir n b → Linkable d b (pathGetName newpath) k
  | readdir path => Clear fs d path ∧ ∀ n, LeadsTo fs d path n →
      (inodeOf d n).type = InodeType.dir.code ∧ ∀ b, (volume fs d).IsDir n b → EntriesLive d b
  | «open» path _ => Clear fs d path

end PathCall

section Calls

variable {fs : Info} {d : Disk} {path : CStr}

theorem returns_bind {α β : Type} {x : Except Halt α} {f : α → Except Halt β} :
    Returns (x >>= f) ↔ ∃ a, x = .ok a ∧ Returns (f a) := by
  unfold Returns
  simp only [bind_eq_ok]
  constructor
  · rintro ⟨b, a, run, rest⟩
    exact ⟨a, run, b, rest⟩
  · rintro ⟨a, run, b, rest⟩
    exact ⟨b, a, run, rest⟩

/-- A call run for its end. -/
theorem returns_discard {α : Type} {x : Except Halt α} :
    Returns (do let _ ← x; .ok ()) ↔ Returns x := by
  rw [returns_bind]
  constructor
  · rintro ⟨a, run, -⟩
    exact ⟨a, run⟩
  · rintro ⟨a, run⟩
    exact ⟨a, run, (), rfl⟩

variable (roomy : Roomy fs d)
include roomy

theorem Roomy.leads_slot {n k : Nat} {names : List CStr} (leads : Leads fs d n names k)
    (slot : n < fs.slots) : k < fs.slots := by
  induction leads with
  | nil => exact slot
  | cons child rest ih => exact ih (roomy.child_slot child)

/-- A call that goes on with the inode of a path. -/
theorem Roomy.resolve_iff {α : Type} {rest : Option Inode → Except Halt α}
    (missing : Returns (rest none)) : Returns (getPathInode fs d path >>= rest) ↔
      Clear fs d path ∧ ∀ n, LeadsTo fs d path n → Returns (rest (some (inodeOf d n))) := by
  rw [returns_bind]
  simp only [roomy.getPathInode_iff]
  constructor
  · rintro ⟨found, ⟨clear, ⟨nowhere, rfl⟩ | ⟨k, leads, rfl⟩⟩, returns⟩
    · exact ⟨clear, fun n leads => absurd leads (nowhere n)⟩
    · exact ⟨clear, fun n other => leads.unique other ▸ returns⟩
  · rintro ⟨clear, returns⟩
    by_cases some : ∃ k, LeadsTo fs d path k
    · obtain ⟨k, leads⟩ := some
      exact ⟨_, ⟨clear, .inr ⟨k, leads, rfl⟩⟩, returns k leads⟩
    · exact ⟨none, ⟨clear, .inl ⟨not_exists.1 some, rfl⟩⟩, missing⟩

theorem Roomy.lookup_iff (absolute : charAt path 0 = slash) :
    Returns (fsLookup fs d path) ↔ Clear fs d path := by
  unfold fsLookup
  rw [show kassert (charAt path 0 = slash) "path %s must start with /" = .ok () from
    if_pos absolute, ok_bind]
  refine (roomy.resolve_iff ?_).trans (and_iff_left fun n _ => ?_)
  · exact ⟨_, rfl⟩
  · exact ⟨_, rfl⟩

/-- The calls on the parent directory. -/
theorem Roomy.onParent_iff {act : Inode → CStr → Except Halt (Int × Disk)} :
    Returns (onParent fs d path act) ↔ Clear fs d (pathGetDirectory path) ∧
      ∀ n, LeadsTo fs d (pathGetDirectory path) n → pathGetName path ≠ [] →
        (inodeOf d n).type = InodeType.dir.code → Returns (act (inodeOf d n) (pathGetName path)) := by
  have named_iff : strlen (pathGetName path) ≠ 0 ↔ pathGetName path ≠ [] := by
    rw [strlen_eq, ne_eq, List.length_eq_zero_iff]
  unfold onParent
  by_cases named : pathGetName path = []
  · have unnamed := mt named_iff.1 (not_not.2 named)
    simp only [if_neg unnamed]
    refine (roomy.resolve_iff ?_).trans (and_congr_right fun _ => ?_)
    · exact ⟨_, rfl⟩
    · exact iff_of_true (fun _ _ => ⟨_, rfl⟩) fun _ _ some => absurd named some
  · simp only [if_pos (named_iff.2 named)]
    refine (roomy.resolve_iff ?_).trans (and_congr_right fun _ => ?_)
    · exact ⟨_, rfl⟩
    apply forall₂_congr
    intro n _
    by_cases isDir : (inodeOf d n).type = InodeType.dir.code
    · simp [isDir, named]
    · simp only [if_neg isDir]
      exact iff_of_true ⟨_, rfl⟩ fun _ is => absurd is isDir

theorem Roomy.mkdir_iff : Returns (fsMkdir fs d path) ↔ (PathCall.mkdir path).Safe fs d := by
  unfold fsMkdir
  rw [roomy.onParent_iff]
  apply and_congr_right
  intro _
  refine forall₂_congr fun n leads => forall_congr' fun _ => forall_congr' fun isDir => ?_
  obtain ⟨b, parent, dir⟩ := roomy.parent (roomy.leads_slot leads (root_slot fs)) isDir
  rw [← roomy.createFiledir_iff parent (.inr rfl) (-1)]
  rw [returns_bind]
  exact ⟨fun ⟨r, run, _⟩ => ⟨r, run⟩, fun ⟨r, run⟩ => ⟨r, run, _, rfl⟩⟩

theorem Roomy.rm_iff : Returns (fsRm fs d path) ↔ (PathCall.rm path).Safe fs d := by
  unfold fsRm
  rw [roomy.onParent_iff]
  apply and_congr_right
  intro _
  refine forall₂_congr fun n leads => forall_congr' fun _ => ?_
  constructor
  · intro returns k child
    have isDir := child.choose_spec.choose_spec.1
    obtain ⟨slot, type, -⟩ := isDir_iff.1 isDir
    obtain ⟨b, parent, dir⟩ := roomy.parent slot type
    obtain ⟨d', run, -⟩ := returns_bind.1 (returns type)
    exact (deleteFiledir_iff roomy.owned roomy.stamped roomy.intact parent dir).1 ⟨d', run⟩ k child
  · intro live isDir
    obtain ⟨b, parent, dir⟩ := roomy.parent (roomy.leads_slot leads (root_slot fs)) isDir
    obtain ⟨d', run⟩ := (deleteFiledir_iff roomy.owned roomy.stamped roomy.intact parent dir).2 live
    exact returns_bind.2 ⟨d', run, _, rfl⟩

theorem Roomy.link_iff {newpath : CStr} :
    Returns (fsLink fs d path newpath) ↔ (PathCall.link path newpath).Safe fs d := by
  unfold fsLink
  refine (roomy.resolve_iff ?_).trans (and_congr_right fun clear => ?_)
  · exact ⟨_, rfl⟩
  apply forall₂_congr
  intro k leadsOld
  refine (roomy.resolve_iff ?_).trans (and_congr_right fun _ => ?_)
  · exact ⟨_, rfl⟩
  apply forall₂_congr
  intro n leads
  have slotK := roomy.leads_slot leadsOld (root_slot fs)
  have busy := clear.live leadsOld roomy.root_inUse
  refine returns_bind.trans ?_
  constructor
  · rintro ⟨r, run, -⟩
    have isDir := (createFiledir_eq_ok.1 run).1
    obtain ⟨b, parent, dir⟩ := roomy.parent (roomy.leads_slot leads (root_slot fs)) isDir
    obtain ⟨short, linkable⟩ := (roomy.createFiledir_link_iff parent slotK busy).1 ⟨r, run⟩
    exact ⟨isDir, short, fun c dir' => dir.unique dir' ▸ linkable⟩
  · rintro ⟨isDir, short, linkable⟩
    obtain ⟨b, parent, dir⟩ := roomy.parent (roomy.leads_slot leads (root_slot fs)) isDir
    obtain ⟨r, run⟩ := (roomy.createFiledir_link_iff parent slotK busy).2 ⟨short, linkable b dir⟩
    exact ⟨r, run, _, rfl⟩

theorem Roomy.readdir_iff : Returns (fsReaddir fs d path) ↔ (PathCall.readdir path).Safe fs d := by
  unfold fsReaddir
  refine (roomy.resolve_iff ?_).trans (and_congr_right fun _ => forall₂_congr fun n leads => ?_)
  · exact ⟨_, rfl⟩
  · exact roomy.listDir_iff (roomy.leads_slot leads (root_slot fs))

/-- A path that can be walked can be created. -/
theorem Roomy.openCreate_returns {f : Handle} (clear : Clear fs d f.path) :
    Returns (openCreate fs d f) := by
  unfold openCreate
  dsimp only
  by_cases unnamed : strlen (pathGetName f.path) = 0
  · rw [if_pos unnamed]
    exact ⟨_, rfl⟩
  · have named : pathGetName f.path ≠ [] := fun nil => unnamed (by rw [nil]; rfl)
    have whole : Walkable fs d 0 (components (pathGetDirectory f.path) ++ [pathGetName f.path]) := by
      rw [← components_split named]
      exact clear
    rw [if_neg unnamed]
    refine (roomy.resolve_iff ?_).2 ⟨walkable_append whole, fun n leads => ?_⟩
    · exact ⟨_, rfl⟩
    · have enter := whole.last leads
      obtain ⟨b, parent, dir⟩ := roomy.parent (roomy.leads_slot leads (root_slot fs)) enter.isDir
      obtain ⟨⟨id, d'⟩, run⟩ := (roomy.createFiledir_iff parent (.inl rfl) (-1)).2 enter.short
      refine returns_bind.2 ⟨_, run, ?_⟩
      dsimp only
      by_cases minus : id = -1
      · rw [if_pos minus]
        exact ⟨_, rfl⟩
      · obtain ⟨k, slot, rfl, type⟩ := (createFiledir_type parent (.inl rfl) run).resolve_left minus
        have busy : InUse d' k := by
          unfold InUse
          rw [type]
          decide
        have table : k / inodePerBlock < fs.totalBlockNum :=
          (fs.slot_block slot).trans fs.inodeBlockNum_lt
        rw [if_neg minus, ofInt32_slot slot, inodeGet_eq_ok.2 ⟨table, .inr ⟨busy, rfl⟩⟩, ok_bind]
        exact ⟨_, rfl⟩

theorem Roomy.open_iff (flags : AccessFlag) (absolute : charAt path 0 = slash) :
    Returns (fsLookup fs d path >>= fun f => inodeOpen fs d f flags) ↔ Clear fs d path := by
  rw [← roomy.lookup_iff absolute, returns_bind]
  constructor
  · rintro ⟨f, look, -⟩
    exact ⟨f, look⟩
  · rintro ⟨f, look⟩
    have clear := (roomy.lookup_iff absolute).1 ⟨f, look⟩
    refine ⟨f, look, ?_⟩
    have here : f.path = path := by
      unfold fsLookup at look
      obtain ⟨node, -, done⟩ := bind_eq_ok.1 (kassert_bind_eq_ok.1 look).2
      cases done
      rfl
    unfold inodeOpen
    by_cases missing : Missing f flags
    · obtain ⟨r, create⟩ := roomy.openCreate_returns (here.symm ▸ clear)
      rw [if_pos missing, create]
      exact ⟨_, rfl⟩
    · rw [if_neg missing]
      exact ⟨_, rfl⟩

end Calls

/-! ## Runs -/

section Runs

variable {fs : Info} {s : State} {hist : List Change} {stale : Nat → Prop}

theorem Run.roomy (run : Run fs (Harmless fs) s hist stale)
    (blocks : ∀ n < fs.slots, InUse s.disk n → (inodeOf s.disk n).blockId ≠ -1)
    (free : ∃ b, fs.IsData b ∧ blockType s.disk b = BlockType.free.code)
    (empty : ∃ n < fs.slots, ¬ InUse s.disk n) : Roomy fs s.disk := by
  have unbroken := run.unbroken fun _ _ _ ok => ok
  exact ⟨(run.sound fun _ _ _ ok => ok).owned, unbroken.stamped, unbroken.intact, blocks, free, empty⟩

/-- In a run whose writes through stale handles are harmless, as long as every inode in use has a
block and there is room, a call on absolute paths comes to its end exactly on the trees on which it
is safe. -/
theorem pathCall_returns_iff (run : Run fs (Harmless fs) s hist stale)
    (blocks : ∀ n < fs.slots, InUse s.disk n → (inodeOf s.disk n).blockId ≠ -1)
    (free : ∃ b, fs.IsData b ∧ blockType s.disk b = BlockType.free.code)
    (empty : ∃ n < fs.slots, ¬ InUse s.disk n) {c : PathCall} (absolute : c.Absolute) :
    Returns (c.run fs s.disk) ↔ c.Safe fs s.disk := by
  have roomy := run.roomy blocks free empty
  cases c with
  | lookup path => exact returns_discard.trans (roomy.lookup_iff absolute)
  | mkdir path => exact returns_discard.trans roomy.mkdir_iff
  | rm path => exact returns_discard.trans roomy.rm_iff
  | link oldpath newpath => exact returns_discard.trans roomy.link_iff
  | readdir path => exact returns_discard.trans roomy.readdir_iff
  | «open» path flags =>
    refine Iff.trans ?_ (returns_discard.trans (roomy.open_iff flags absolute))
    unfold PathCall.run
    rw [bind_assoc]

end Runs

theorem pathCall_returns_iff_root :
    Returns ((PathCall.lookup [47, 97]).run fourBlocks (freshDisk 4128)) ↔
      (PathCall.lookup [47, 97]).Safe fourBlocks (freshDisk 4128) := by
  have run : Run fourBlocks (Harmless fourBlocks) ⟨freshDisk 4128, []⟩ [] fun _ => False :=
    run_fresh (by decide +kernel)
  exact pathCall_returns_iff run (by decide +kernel) ⟨2, by decide, by decide +kernel⟩
    ⟨1, by decide, by decide +kernel⟩ rfl

/-- After `"/a"` was opened to write no call survives a path through it, and none survives a
component of 15 characters. -/
theorem pathCalls_halt :
    (∃ hist stale, Run fourBlocks (Harmless fourBlocks) opened hist stale) ∧
    (∀ n < fourBlocks.slots, InUse opened.disk n → (inodeOf opened.disk n).blockId ≠ -1) ∧
    (∃ b, fourBlocks.IsData b ∧ blockType opened.disk b = BlockType.free.code) ∧
    (∃ n < fourBlocks.slots, ¬ InUse opened.disk n) ∧
    let through : CStr := [47, 97, 47, 98, 47, 99]
    let long : CStr := 47 :: List.replicate 15 98
    (∀ c ∈ [PathCall.lookup through, .mkdir through, .rm through, .link through through,
        .readdir through, .open through .fileWrite],
      c.run fourBlocks opened.disk = .error (.assert "dir is not a DIR")) ∧
    ∀ c ∈ [PathCall.lookup long, .mkdir long, .link [47] long, .readdir long,
        .open long .fileWrite],
      c.run fourBlocks opened.disk = .error (.assert "name is too long") := by
  refine ⟨⟨_, _, opened_run (fun _ _ _ => trivial) fun _ _ _ _ => trivial⟩, by decide +kernel,
    ⟨3, by decide, by decide +kernel⟩, ⟨2, by decide, by decide +kernel⟩, ?_, ?_⟩
  · decide +kernel
  · decide +kernel

end OsLab.Kernel.Blkfs
