import OsLab.Kernel.Blkfs.Effects
import OsLab.Kernel.Blkfs.Entries
import OsLab.Kernel.Components

/-!
# Path resolution by components

`get_path_inode` is a walk from the root over the components of the path: `getPathInode_eq`. What a
walk finds depends on the inode table and on the entries of the directories it comes through.
-/

namespace OsLab.Kernel.Blkfs

open OsLab.Memory OsLab.Klib OsLab.Segments Volume

/-- The id that `get_filedir` finds under a name in block `b`, or -1. -/
def nameId (d : Disk) (b : Nat) (name : CStr) : Int :=
  match findName d b name with
  | none => -1
  | some i => entryId (dataOf d b) (sizeofDirEntry * i)

/-- One turn of `get_path_inode`: the child of `bnode` under a name. -/
def childOf (fs : Info) (d : Disk) (bnode : Inode) (name : CStr) : Except Halt (Option Inode) := do
  let chiId ← getFiledir fs d bnode name
  if chiId = -1 then .ok none
  else
    match ← inodeGet fs d (ofInt32 chiId) with
    | none => .error (.assert "child inode %d get failed")
    | some chi => .ok (some chi)

/-- The turns of `get_path_inode` over the names of a path. -/
def walk (fs : Info) (d : Disk) : Inode → List CStr → Except Halt (Option Inode)
  | bnode, [] => .ok (some bnode)
  | bnode, name :: names => do
    match ← childOf fs d bnode name with
    | none => .ok none
    | some chi => walk fs d chi names

section Walk

variable {fs : Info} {d : Disk} {bnode : Inode}

theorem getFiledir_eq_ok {name : CStr} {id : Int} :
    getFiledir fs d bnode name = .ok id ↔ bnode.type = InodeType.dir.code ∧
      strlen name < inodeNameLen - 1 ∧ ofInt32 bnode.blockId < fs.totalBlockNum ∧
      id = nameId d (ofInt32 bnode.blockId) name := by
  unfold getFiledir
  rw [kassert_bind_eq_ok, kassert_bind_eq_ok, bind_eq_ok]
  apply and_congr_right
  intro _
  apply and_congr_right
  intro _
  constructor
  · rintro ⟨items, read, h⟩
    obtain ⟨inside, rfl⟩ := blockReaddata_eq_ok.1 read
    refine ⟨inside, ?_⟩
    unfold nameId findName
    cases search : direntryFindName (dataOf d (ofInt32 bnode.blockId)) name with
    | none =>
      rw [search] at h
      exact (Except.ok.inj h).symm
    | some i =>
      rw [search] at h
      exact (Except.ok.inj h).symm
  · rintro ⟨inside, rfl⟩
    refine ⟨_, blockReaddata_eq_ok.2 ⟨inside, rfl⟩, ?_⟩
    unfold nameId findName
    cases search : direntryFindName (dataOf d (ofInt32 bnode.blockId)) name with
    | none => rfl
    | some i => rfl

theorem childOf_eq_ok {name : CStr} {r : Option Inode} :
    childOf fs d bnode name = .ok r ↔ ∃ id, getFiledir fs d bnode name = .ok id ∧
      (id = -1 ∧ r = none ∨ id ≠ -1 ∧ ∃ chi, inodeGet fs d (ofInt32 id) = .ok (some chi) ∧
        r = some chi) := by
  unfold childOf
  rw [bind_eq_ok]
  apply exists_congr
  intro id
  apply and_congr_right
  intro _
  by_cases minus : id = -1
  · simp [minus, eq_comm]
  · rw [if_neg minus, bind_eq_ok]
    constructor
    · rintro ⟨found, get, h⟩
      cases found with
      | none => cases h
      | some chi =>
        cases h
        exact .inr ⟨minus, chi, get, rfl⟩
    · rintro (⟨same, -⟩ | ⟨-, chi, get, rfl⟩)
      · exact absurd same minus
      · exact ⟨some chi, get, rfl⟩

/-- The loop of `get_path_inode` with enough fuel. -/
theorem getPathInodeLoop_eq {fuel : Nat} {path : CStr} (enough : path.length < fuel) :
    getPathInodeLoop fs d fuel bnode path = walk fs d bnode (components path) := by
  induction fuel generalizing bnode path with
  | zero => exact absurd enough (Nat.not_lt_zero _)
  | succ fuel ih =>
    rw [getPathInodeLoop]
    cases next : pathNextName path with
    | none =>
      rw [pathNextName_none next]
      rfl
    | some turn =>
      obtain ⟨name, nxt⟩ := turn
      have whole : components path = name :: nxt.elim [] components := by
        cases nxt with
        | none => exact pathNextName_last next
        | some rest => exact pathNextName_more next
      rw [whole, walk]
      unfold childOf
      dsimp only
      cases getFiledir fs d bnode name with
      | error e => rfl
      | ok id =>
        rw [ok_bind, ok_bind]
        by_cases minus : id = -1
        · rw [if_pos minus, if_pos minus]
          rfl
        · rw [if_neg minus, if_neg minus]
          cases inodeGet fs d (ofInt32 id) with
          | error e => rfl
          | ok found =>
            cases found with
            | none => rfl
            | some chi =>
              cases nxt with
              | none => rfl
              | some rest =>
                have shorter := pathNextName_shorter next
                exact ih (by omega)

/-- `get_path_inode` walks from the root. -/
theorem getPathInode_eq_ok {path : CStr} {r : Option Inode} :
    getPathInode fs d path = .ok r ↔
      ∃ root, inodeGet fs d 0 = .ok (some root) ∧ walk fs d root (components path) = .ok r := by
  unfold getPathInode
  rw [bind_eq_ok]
  constructor
  · rintro ⟨found, get, h⟩
    cases found with
    | none => cases h
    | some root =>
      exact ⟨root, get, (getPathInodeLoop_eq (Nat.lt_succ_self _)).symm.trans h⟩
  · rintro ⟨root, get, h⟩
    exact ⟨some root, get, (getPathInodeLoop_eq (Nat.lt_succ_self _)).trans h⟩

theorem walk_append (names rest : List CStr) :
    walk fs d bnode (names ++ rest) = walk fs d bnode names >>= fun found =>
      match found with
      | none => .ok none
      | some node => walk fs d node rest := by
  induction names generalizing bnode with
  | nil => rfl
  | cons name names ih =>
    rw [List.cons_append, walk, walk]
    cases childOf fs d bnode name with
    | error e => rfl
    | ok found =>
      cases found with
      | none => rfl
      | some chi => exact ih

theorem walk_single (name : CStr) : walk fs d bnode [name] = childOf fs d bnode name := by
  rw [walk]
  cases childOf fs d bnode name with
  | error e => rfl
  | ok found =>
    cases found with
    | none => rfl
    | some chi => rfl

/-- One component more. -/
theorem getPathInode_append {path path' name : CStr} {node : Inode}
    (more : components path' = components path ++ [name])
    (h : getPathInode fs d path = .ok (some node)) :
    getPathInode fs d path' = childOf fs d node name := by
  obtain ⟨root, get, walked⟩ := getPathInode_eq_ok.1 h
  have last : walk fs d root (components path') = childOf fs d node name := by
    rw [more, walk_append, walked, ok_bind, ← walk_single]
  unfold getPathInode
  rw [get, ok_bind, ← last]
  exact getPathInodeLoop_eq (Nat.lt_succ_self _)

end Walk

end OsLab.Kernel.Blkfs
