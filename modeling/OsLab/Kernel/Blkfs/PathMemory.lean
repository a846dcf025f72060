import OsLab.Kernel.Blkfs.Creation
import OsLab.Kernel.Blkfs.Run
import OsLab.Kernel.Blkfs.Walk
import OsLab.Lib.Heap

/-!
# The blocks of `get_path_inode` (`vfs/blkfs.c`)

Path resolution once more, with what it allocates: the buffers of `inode_get` and `get_filedir`, the inodes, and the
names of `path_next_name`. No name is ever freed, and where a name is not found the inode of its directory is not freed
either. `getPathInodeIn_leaks` counts what is lost.
-/

namespace OsLab.Kernel.Blkfs

open OsLab.Memory OsLab.Klib OsLab.Segments

/-- `pmm->free`, which fails for what is not a block. -/
def pmmFree (heap : Heap) (b : Nat) : Except Halt Heap :=
  match heap.free b with
  | none => .error (.assert "Not a block")
  | some heap => .ok heap

/-- An inode in its block. -/
abbrev InodeBlock := Nat × Inode

/-- `inode_get` -/
def inodeGetIn (fs : Info) (d : Disk) (id : Nat) (heap : Heap) : Except Halt (Option InodeBlock × Heap) := do
  let blkid := id / inodePerBlock
  let tid := id % inodePerBlock
  let buf := heap.alloc.1
  let heap := heap.alloc.2
  let items ← blockReaddata fs d blockDataSize blkid 0
  let item := readInode items (sizeofInode * tid)
  if item.type = InodeType.empty.code then
    let heap ← pmmFree heap buf
    .ok (none, heap)
  else
    let res := heap.alloc.1
    let heap := heap.alloc.2
    let heap ← pmmFree heap buf
    .ok (some (res, item), heap)

/-- `get_filedir` -/
def getFiledirIn (fs : Info) (d : Disk) (dir : Inode) (name : CStr) (heap : Heap) : Except Halt (Int × Heap) := do
  kassert (dir.type = InodeType.dir.code) "dir is not a DIR"
  kassert (strlen name < inodeNameLen - 1) "name is too long"
  let buf := heap.alloc.1
  let heap := heap.alloc.2
  let items ← blockReaddata fs d blockDataSize (ofInt32 dir.blockId) 0
  match direntryFindName items name with
  | none => do
    let heap ← pmmFree heap buf
    .ok (-1, heap)
  | some ind => do
    let res := entryId items (sizeofDirEntry * ind)
    let heap ← pmmFree heap buf
    .ok (res, heap)

/-- `path_next_name` with the block of the name. -/
def pathNextNameIn (path : CStr) (heap : Heap) : Option ((Nat × CStr) × Option CStr) × Heap :=
  match pathNextName path with
  | none => (none, heap)
  | some (name, nxt) => (some ((heap.alloc.1, name), nxt), heap.alloc.2)

/-- The loop of `get_path_inode`. -/
def getPathInodeLoopIn (fs : Info) (d : Disk) :
    Nat → InodeBlock → CStr → Heap → Except Halt (Option InodeBlock × Heap)
  | 0, _, _, _ => .error .diverge
  | fuel + 1, bnode, cur, heap =>
    match pathNextNameIn cur heap with
    | (none, heap) => .ok (some bnode, heap)
    | (some ((_, name), nxt), heap) => do
      let (chiId, heap) ← getFiledirIn fs d bnode.2 name heap
      if chiId = -1 then .ok (none, heap)
      else
        match ← inodeGetIn fs d (ofInt32 chiId) heap with
        | (none, _) => .error (.assert "child inode %d get failed")
        | (some chi, heap) => do
          let heap ← pmmFree heap bnode.1
          match nxt with
          | none => .ok (some chi, heap)
          | some cur => getPathInodeLoopIn fs d fuel chi cur heap

/-- `get_path_inode` -/
def getPathInodeIn (fs : Info) (d : Disk) (path : CStr) (heap : Heap) : Except Halt (Option InodeBlock × Heap) := do
  match ← inodeGetIn fs d 0 heap with
  | (none, _) => .error (.assert "root inode get failed")
  | (some root, heap) => getPathInodeLoopIn fs d (path.length + 1) root path heap

/-- The block of the inode that is returned. -/
def resultBlock (r : Option InodeBlock) : Finset Nat := (r.map Prod.fst).toFinset

@[simp] theorem resultBlock_none : resultBlock none = ∅ := rfl

@[simp] theorem resultBlock_some (node : InodeBlock) : resultBlock (some node) = {node.1} := rfl

/-- An inode is returned in a block of its own, and nothing else is kept. -/
structure Fetched (owned : Finset Nat) (r : Option InodeBlock) (plain : Option Inode) (owned' : Finset Nat) : Prop where
  same : r.map Prod.snd = plain
  blocks : owned' = owned ∪ resultBlock r
  apart : Disjoint owned (resultBlock r)

/-- What the rest of a path loses: each name, and with a name that is not found the inode of its directory. -/
structure Lost (leaked : Finset Nat) (cur : CStr) (r : Option InodeBlock) (plain : Option Inode) (owned : Finset Nat) :
    Prop where
  same : r.map Prod.snd = plain
  blocks : ∃ lost, owned = lost ∪ resultBlock r ∧ Disjoint lost (resultBlock r) ∧
    (r ≠ none → lost.card = leaked.card + (components cur).length) ∧
    (r = none → leaked.card + 2 ≤ lost.card ∧ components cur ≠ [])

theorem Lost.cons {leaked leaked' owned : Finset Nat} {cur rest name : CStr} {r : Option InodeBlock}
    {plain : Option Inode} (lost : Lost leaked' rest r plain owned) (more : leaked'.card = leaked.card + 1)
    (whole : components cur = name :: components rest) : Lost leaked cur r plain owned := by
  obtain ⟨all, blocks, apart, found, missing⟩ := lost.blocks
  refine ⟨lost.same, all, blocks, apart, fun some => ?_, fun none => ⟨?_, ?_⟩⟩
  · rw [found some, more, whole, List.length_cons]
    omega
  · have := (missing none).1
    omega
  · rw [whole]
    nofun

section Blocks

variable {fs : Info} {d : Disk} {heap : Heap} {base owned leaked : Finset Nat} {b n : Nat}

theorem pmmFree_run (holds : heap.Holds base (insert b owned)) (other : b ∉ owned) :
    ∃ heap', pmmFree heap b = .ok heap' ∧ heap'.Holds base owned := by
  obtain ⟨heap', run, holds'⟩ := holds.free (Finset.mem_insert_self b owned)
  rw [Finset.erase_insert other] at holds'
  refine ⟨heap', ?_, holds'⟩
  unfold pmmFree
  rw [run]

theorem inodeGet_beside (holds : heap.Holds base owned) :
    Beside base (Fetched owned) (inodeGetIn fs d n heap) (inodeGet fs d n) := by
  unfold inodeGetIn inodeGet
  refine Beside.bindPlain fun items _ => ?_
  dsimp only
  split
  · obtain ⟨freed, free, holds'⟩ := pmmFree_run holds.alloc holds.alloc_notMem
    rw [free, ok_bind]
    exact .ok holds' ⟨rfl, by simp, by simp⟩
  · have both := holds.alloc.alloc
    have new := holds.alloc.alloc_notMem
    rw [Finset.mem_insert, not_or] at new
    rw [Finset.insert_comm] at both
    obtain ⟨freed, free, holds'⟩ := pmmFree_run both (by simp [Ne.symm new.1, holds.alloc_notMem])
    rw [free, ok_bind]
    refine .ok holds' ⟨rfl, ?_, ?_⟩
    · rw [resultBlock_some, Finset.union_singleton]
    · simpa using new.2

theorem getFiledir_beside {dir : Inode} {name : CStr} (holds : heap.Holds base owned) :
    Beside base (fun id id' owned' => id = id' ∧ owned' = owned) (getFiledirIn fs d dir name heap)
      (getFiledir fs d dir name) := by
  obtain ⟨freed, free, holds'⟩ := pmmFree_run holds.alloc holds.alloc_notMem
  unfold getFiledirIn getFiledir
  refine Beside.bindPlain fun _ _ => Beside.bindPlain fun _ _ => Beside.bindPlain fun items _ => ?_
  dsimp only
  cases direntryFindName items name with
  | none =>
    rw [free, ok_bind]
    exact .ok holds' ⟨rfl, rfl⟩
  | some ind =>
    rw [free, ok_bind]
    exact .ok holds' ⟨rfl, rfl⟩

/-- The walk keeps the inode it has come to, and what it has lost. -/
theorem getPathInodeLoop_beside {fuel : Nat} {bnode : InodeBlock} {cur : CStr}
    (holds : heap.Holds base (insert bnode.1 leaked)) (other : bnode.1 ∉ leaked) :
    Beside base (Lost leaked cur) (getPathInodeLoopIn fs d fuel bnode cur heap) (getPathInodeLoop fs d fuel bnode.2 cur) := by
  induction fuel generalizing bnode cur heap leaked with
  | zero => exact .error _
  | succ fuel ih =>
    rw [getPathInodeLoopIn, getPathInodeLoop]
    unfold pathNextNameIn
    cases next : pathNextName cur with
    | none =>
      refine .ok holds ⟨rfl, leaked, ?_, by simpa using other, fun _ => ?_, fun none => ?_⟩
      · rw [resultBlock_some, Finset.union_singleton]
      · rw [pathNextName_none next, List.length_nil, Nat.add_zero]
      · cases none
    | some turn =>
      obtain ⟨name, nxt⟩ := turn
      have whole : components cur = name :: nxt.elim [] components := by
        cases nxt with
        | none => exact pathNextName_last next
        | some rest => exact pathNextName_more next
      have new := holds.alloc_notMem
      rw [Finset.mem_insert, not_or] at new
      dsimp only
      refine (getFiledir_beside holds.alloc).bind ?_
      rintro chiId _ heap₁ _ holds₁ ⟨rfl, rfl⟩
      dsimp only
      split
      · refine .ok holds₁ ⟨rfl, _, (Finset.union_empty _).symm, Finset.disjoint_empty_right _, fun some => absurd rfl some, fun _ => ?_⟩
        rw [Finset.card_insert_of_notMem (by simpa using new), Finset.card_insert_of_notMem other, whole]
        exact ⟨Nat.le_refl _, List.cons_ne_nil _ _⟩
      · refine (inodeGet_beside holds₁).bind ?_
        rintro chi _ heap₂ _ holds₂ ⟨rfl, rfl, apart⟩
        cases chi with
        | none => exact .error _
        | some chi =>
          have chiNew : chi.1 ≠ bnode.1 ∧ chi.1 ≠ heap.alloc.1 ∧ chi.1 ∉ leaked := by
            simpa [and_comm, and_assoc, eq_comm] using apart
          have owned : insert heap.alloc.1 (insert bnode.1 leaked) ∪ resultBlock (some chi) =
              insert bnode.1 (insert chi.1 (insert heap.alloc.1 leaked)) := by
            rw [resultBlock_some, Finset.union_singleton, Finset.insert_comm heap.alloc.1, Finset.insert_comm chi.1]
          rw [owned] at holds₂
          have kept : bnode.1 ∉ insert chi.1 (insert heap.alloc.1 leaked) := by
            simp [Ne.symm chiNew.1, Ne.symm new.1, other]
          obtain ⟨heap₃, free, holds₃⟩ := pmmFree_run holds₂ kept
          dsimp only
          rw [free, ok_bind]
          have count : (insert heap.alloc.1 leaked).card = leaked.card + 1 := Finset.card_insert_of_notMem new.2
          have chiOther : chi.1 ∉ insert heap.alloc.1 leaked := by simp [chiNew]
          cases nxt with
          | none =>
            refine .ok holds₃ ⟨rfl, insert heap.alloc.1 leaked, ?_, Finset.disjoint_singleton_right.2 chiOther, fun _ => ?_,
              fun none => ?_⟩
            · rw [resultBlock_some, Finset.union_singleton]
            · simp [count, whole]
            · cases none
          | some rest =>
            exact (ih holds₃ chiOther).mono fun _ _ _ lost => lost.cons count whole

/-- `get_path_inode` and what it loses. -/
theorem getPathInode_beside {path : CStr} (heap : Heap) :
    Beside heap.live (Lost ∅ path) (getPathInodeIn fs d path heap) (getPathInode fs d path) := by
  unfold getPathInodeIn getPathInode
  refine (inodeGet_beside heap.holds_self).bind ?_
  rintro root _ heap₁ _ holds ⟨rfl, rfl, -⟩
  cases root with
  | none => exact .error _
  | some root =>
    rw [resultBlock_some, Finset.union_singleton] at holds
    exact getPathInodeLoop_beside holds (Finset.notMem_empty _)

/-- A path without a name. -/
theorem components_eq_nil {path : CStr} : components path = [] ↔ path = [] ∨ path = [slash] := by
  constructor
  · intro none
    cases path with
    | nil => exact .inl rfl
    | cons c s =>
      cases next : pathNextName (c :: s) with
      | none =>
        rw [pathNextName_eq] at next
        by_cases empty : (body (c :: s)).length = 0
        · by_cases lead : c = slash
          · subst lead
            rw [body_slash, List.length_eq_zero_iff] at empty
            exact .inr (by rw [empty])
          · have same : body (c :: s) = c :: s := if_neg lead
            rw [same] at empty
            cases empty
        · rw [if_neg empty] at next
          split at next
          · cases next
          · cases next
      | some turn =>
        obtain ⟨name, _ | rest⟩ := turn
        · rw [pathNextName_last next] at none
          cases none
        · rw [pathNextName_more next] at none
          cases none
  · rintro (rfl | rfl)
    · rfl
    · rfl

/-- What a call has lost. -/
theorem getPathInodeIn_leaks {path : CStr} {heap heap' : Heap} {r : Option InodeBlock}
    (run : getPathInodeIn fs d path heap = .ok (r, heap')) : getPathInode fs d path = .ok (r.map Prod.snd) ∧
      ∃ lost, heap'.Holds heap.live (lost ∪ resultBlock r) ∧ Disjoint lost (resultBlock r) ∧
        (r ≠ none → lost.card = (components path).length) ∧ (r = none → 2 ≤ lost.card ∧ components path ≠ []) := by
  obtain ⟨plain, owned, same, holds, rfl, lost, rfl, apart, found, missing⟩ := (getPathInode_beside heap).returned run
  refine ⟨same, lost, holds, apart, ?_, ?_⟩
  · simpa using found
  · simpa using missing

/-- **The blocks of path resolution.** Where `get_path_inode` returns, the live blocks are those before the call and the
returned inode exactly for a path without a name. -/
theorem path_inode_blocks_iff {path : CStr} {heap heap' : Heap} {r : Option InodeBlock}
    (run : getPathInodeIn fs d path heap = .ok (r, heap')) :
    (heap'.live = heap.live ∪ resultBlock r ∧ Disjoint heap.live (resultBlock r)) ↔ path = [] ∨ path = [slash] := by
  obtain ⟨-, lost, holds, apart, found, missing⟩ := getPathInodeIn_leaks run
  have old := Finset.disjoint_union_right.1 holds.apart
  rw [← components_eq_nil, holds.live]
  constructor
  · rintro ⟨same, -⟩
    have nothing : lost = ∅ := by
      apply Finset.disjoint_self_iff_empty lost |>.1
      have inside : lost ⊆ heap.live ∪ resultBlock r := by
        rw [← same]
        exact Finset.subset_union_left.trans Finset.subset_union_right
      exact (Finset.disjoint_union_right.2 ⟨old.1.symm, apart⟩).mono_right inside
    subst nothing
    cases r with
    | none => exact absurd (missing rfl).1 (by simp)
    | some node => exact List.length_eq_zero_iff.1 (found nofun).symm
  · intro empty
    have some : r ≠ none := fun none => (missing none).2 empty
    have nothing : lost = ∅ := by
      rw [← Finset.card_eq_zero, found some, empty]
      rfl
    subst nothing
    exact ⟨by rw [Finset.empty_union], old.2⟩

end Blocks

/-- The root of a formatted device loses nothing. -/
theorem path_inode_blocks_iff_root : ∃ r heap',
    getPathInodeIn fourBlocks (freshDisk 4128) [slash] .empty = .ok (r, heap') ∧
      ((heap'.live = ∅ ∪ resultBlock r ∧ Disjoint ∅ (resultBlock r)) ↔ [slash] = ([] : CStr) ∨ [slash] = [slash]) := by
  have busy : InUse (freshDisk 4128) 0 := by decide +kernel
  have root : inodeGet fourBlocks (freshDisk 4128) 0 = .ok (some (inodeOf (freshDisk 4128) 0)) :=
    inodeGet_eq_ok.2 ⟨by decide, .inr ⟨busy, rfl⟩⟩
  have plain : getPathInode fourBlocks (freshDisk 4128) [slash] = .ok (some (inodeOf (freshDisk 4128) 0)) :=
    getPathInode_eq_ok.2 ⟨_, root, rfl⟩
  obtain ⟨r, heap', owned, run, -, -⟩ := (getPathInode_beside Heap.empty).returns plain
  exact ⟨r, heap', run, path_inode_blocks_iff run⟩

/-- A formatted device has no `"/a"`, and the name and the root's inode stay allocated. -/
theorem path_inode_leaks :
    Run fourBlocks (fun _ _ _ => True) ⟨freshDisk 4128, []⟩ [] (fun _ => False) ∧
    ∃ heap', getPathInodeIn fourBlocks (freshDisk 4128) [slash, 97] .empty = .ok (none, heap') ∧ heap'.live ≠ ∅ := by
  refine ⟨run_fresh (by decide +kernel), ?_⟩
  have busy : InUse (freshDisk 4128) 0 := by decide +kernel
  have root : inodeGet fourBlocks (freshDisk 4128) 0 = .ok (some (inodeOf (freshDisk 4128) 0)) :=
    inodeGet_eq_ok.2 ⟨by decide, .inr ⟨busy, rfl⟩⟩
  have search : getFiledir fourBlocks (freshDisk 4128) (inodeOf (freshDisk 4128) 0) [97] = .ok (-1) :=
    getFiledir_eq_ok.2 ⟨by decide +kernel, by decide, by decide +kernel, by decide +kernel⟩
  have child : walk fourBlocks (freshDisk 4128) (inodeOf (freshDisk 4128) 0) [[97]] = .ok none := by
    rw [walk_single]
    exact childOf_eq_ok.2 ⟨-1, search, .inl ⟨rfl, rfl⟩⟩
  have plain : getPathInode fourBlocks (freshDisk 4128) [slash, 97] = .ok none :=
    getPathInode_eq_ok.2 ⟨_, root, child⟩
  obtain ⟨r, heap', owned, run, -, -⟩ := (getPathInode_beside Heap.empty).returns plain
  obtain ⟨same, lost, holds, -, -, missing⟩ := getPathInodeIn_leaks run
  rw [plain] at same
  have none : r = none := Option.map_eq_none_iff.1 (Except.ok.inj same).symm
  subst none
  refine ⟨heap', run, fun nothing => ?_⟩
  have some : lost ⊆ heap'.live := by
    rw [holds.live]
    exact Finset.subset_union_left.trans Finset.subset_union_right
  rw [nothing, Finset.subset_empty] at some
  have two := (missing rfl).1
  rw [some] at two
  cases two

end OsLab.Kernel.Blkfs
