import OsLab.Kernel.Vfs.Model
import Mathlib.Logic.Relation

/-!
# `open` and `close` of many tasks

Tasks on several processors call `open` and `close`. What a call does under `vfs_lock` is one step,
and so is each operation of a filesystem it calls with the lock dropped: a call is cut into stages
there, and the calls of the tasks are interleaved stage by stage. The stages of one call, run
without a break, are the call as the calling processor sees it (`finish_open`, `finish_close`).

The tasks share the file list and the allocated `file`s, and each has its own table of descriptors.
-/

namespace OsLab.Kernel.Vfs

open OsLab.Klib OsLab.Triples
open OsLab.Kernel.Blkfs (AccessFlag)

variable {FS Node World Tid : Type}

/-- Where a call of `open` or `close` stands when its processor does not hold `vfs_lock`, with the local
variables that are read from there on. -/
inductive Stage (FS Node : Type) where
  | open (path : Option CStr) (flags : AccessFlag)
  | openLookup (emptyFd : Nat) (mn : Mount FS) (subpath : CStr) (flags : AccessFlag)
  | openAlloc (emptyFd : Nat) (node : Option Node) (flags : AccessFlag)
  | openInode (emptyFd : Nat) (node : Node) (tf : Nat) (flags : AccessFlag)
  | opened (emptyFd : Nat) (node : Node) (tf : Nat) (res : Int)
  | openUndo (node : Node) (tf : Nat)
  | openFree (tf : Nat)
  | close (fd : Int)
  | closeInode (fd : Int) (fs : FS) (tf : Nat)
  | closed (fd : Int) (fs : FS) (tf : Nat) (res : Int)
  | closeNode (fd : Int) (fs : FS) (tf : Nat)
  | closeRemove (fd : Int) (tf : Nat)
  | done (res : Int)

section Stages

variable (ops : Ops FS Node World)

/-- `open` up to the call of `lookup`. -/
def Stage.openBegin (path : Option CStr) (flags : AccessFlag) : M FS Node World (Stage FS Node) := do
  let _ ← currentTask
  spinLock .vfs
  match findFildeIndex (← currentTask) with
  | none =>
    spinUnlock .vfs
    pure (.done (-1))
  | some emptyFd =>
    let (mn, subpath) ← getMountFsLocked ops path
    match mn with
    | none =>
      spinUnlock .vfs
      pure (.done (-1))
    | some mn =>
      spinUnlock .vfs
      pure (.openLookup emptyFd mn subpath flags)

/-- `open` from the end of `lookup` to the `open` of the inode. -/
def Stage.makeFile (emptyFd : Nat) (node : Option Node) (flags : AccessFlag) :
    M FS Node World (Stage FS Node) := do
  spinLock .vfs
  match node with
  | none =>
    spinUnlock .vfs
    pure (.done (-1))
  | some node =>
    let tf ← allocFile node
    spinUnlock .vfs
    pure (.openInode emptyFd node tf flags)

/-- `open` once the `open` of the inode has returned. -/
def Stage.installFile (emptyFd : Nat) (node : Node) (tf : Nat) (res : Int) :
    M FS Node World (Stage FS Node) := do
  spinLock .vfs
  let f ← fileAt tf
  modify fun s => { s with file := Function.update s.file tf (some { f with refcnt := 0 }) }
  if res = 0 then
    fileListAppend tf
    setFilde emptyFd (some tf)
    spinUnlock .vfs
    pure (.done emptyFd)
  else
    spinUnlock .vfs
    pure (.openUndo node tf)

/-- `close` up to the `close` of the inode. -/
def Stage.closeBegin (fd : Int) : M FS Node World (Stage FS Node) := do
  let _ ← currentTask
  spinLock .vfs
  match ← getFile fd with
  | none => throw (.assert "fd %d not found")
  | some tf =>
    let fs := ops.fs (← fileAt tf).inode
    spinUnlock .vfs
    pure (.closeInode fd fs tf)

/-- What a call does next; one that is done has nothing left. -/
def Stage.next : Stage FS Node → M FS Node World (Stage FS Node)
  | .open path flags => Stage.openBegin ops path flags
  | .openLookup emptyFd mn subpath flags => do
    let node ← ops.lookup mn.fs subpath flags
    pure (.openAlloc emptyFd node flags)
  | .openAlloc emptyFd node flags => Stage.makeFile emptyFd node flags
  | .openInode emptyFd node tf flags => do
    let res ← ops.open tf flags
    pure (.opened emptyFd node tf res)
  | .opened emptyFd node tf res => Stage.installFile emptyFd node tf res
  | .openUndo node tf => do
    let closed ← ops.closeInode (ops.fs node) node
    assert (closed = 0) "FS close inode failed"
    pure (.openFree tf)
  | .openFree tf => do
    spinLock .vfs
    freeFile tf
    spinUnlock .vfs
    pure (.done (-1))
  | .close fd => Stage.closeBegin ops fd
  | .closeInode fd fs tf => do
    let res ← ops.close tf
    pure (.closed fd fs tf res)
  | .closed fd fs tf res => do
    spinLock .vfs
    spinUnlock .vfs
    pure (if res = 0 then .closeNode fd fs tf else .done res)
  | .closeNode fd fs tf => do
    let closed ← ops.closeInode fs (← fileAt tf).inode
    assert (closed = 0) "FS close inode failed"
    pure (.closeRemove fd tf)
  | .closeRemove fd tf => do
    spinLock .vfs
    fileListRemove tf
    setFilde fd.toNat none
    spinUnlock .vfs
    pure (.done 0)
  | .done _ => throw .outside

/-- At most `n` stages without a break. -/
def Stage.finish : Nat → Stage FS Node → M FS Node World Int
  | _, .done res => pure res
  | 0, _ => throw .outside
  | n + 1, st => do Stage.finish n (← st.next ops)

/-! ## The stages of one call -/

/-- The end of `open`. -/
theorem finish_opened (emptyFd : Nat) (node : Node) (tf : Nat) (res : Int) :
    (do
      spinLock .vfs
      openFile ops node tf emptyFd res) = Stage.finish ops 3 (.opened emptyFd node tf res) := by
  simp only [Stage.finish, Stage.next, Stage.installFile, openFile, bind_assoc]
  rcases eq_or_ne res 0 with rfl | failed
  · simp only [if_pos, bind_assoc, pure_bind, Stage.finish]
  · simp only [if_neg failed, bind_assoc, pure_bind, Stage.finish, Stage.next]

/-- `open` from the end of `lookup`. -/
theorem finish_openAlloc (emptyFd : Nat) (node : Option Node) (flags : AccessFlag) :
    (do
      spinLock .vfs
      match node with
      | none =>
        spinUnlock .vfs
        pure (-1)
      | some node =>
        let tf ← allocFile node
        spinUnlock .vfs
        let res ← ops.open tf flags
        spinLock .vfs
        openFile ops node tf emptyFd res) = Stage.finish ops 5 (.openAlloc emptyFd node flags) := by
  cases node with
  | none => simp only [Stage.finish, Stage.next, Stage.makeFile, bind_assoc, pure_bind]
  | some node =>
    simp only [finish_opened]
    simp only [Stage.finish, Stage.next, Stage.makeFile, bind_assoc, pure_bind]

/-- **The stages of `open`.** -/
theorem finish_open (path : Option CStr) (flags : AccessFlag) :
    Vfs.open ops path flags = Stage.finish ops 7 (.open path flags) := by
  unfold Vfs.open
  simp only [Stage.finish, Stage.next, Stage.openBegin, bind_assoc]
  congr 1
  funext tk
  congr 1
  funext u
  congr 1
  funext tk
  cases findFildeIndex tk with
  | none => simp only [bind_assoc, pure_bind, Stage.finish]
  | some emptyFd =>
    simp only [bind_assoc]
    congr 1
    funext found
    obtain ⟨mn, subpath⟩ := found
    cases mn with
    | none => simp only [bind_assoc, pure_bind, Stage.finish]
    | some mn =>
      simp only [bind_assoc, pure_bind, Stage.finish, Stage.next]
      congr 1
      funext u
      congr 1
      funext node
      exact finish_openAlloc ops emptyFd node flags

/-- **The stages of `close`.** -/
theorem finish_close (fd : Int) : Vfs.close ops fd = Stage.finish ops 5 (.close fd) := by
  unfold Vfs.close
  simp only [Stage.finish, Stage.next, Stage.closeBegin, bind_assoc]
  congr 1
  funext tk
  congr 1
  funext u
  congr 1
  funext tf
  cases tf with
  | none => rfl
  | some tf =>
    simp only [bind_assoc, pure_bind, Stage.finish, Stage.next]
    congr 1
    funext f
    congr 1
    funext u
    congr 1
    funext res
    rcases eq_or_ne res 0 with rfl | failed
    · simp only [if_pos, bind_assoc, pure_bind, Stage.finish, Stage.next]
    · simp only [if_neg failed, Stage.finish]

end Stages

/-! ## Many tasks -/

/-- The file list and the table of the calling task before and after a step of it. -/
structure Change where
  files : List Nat
  task : Task
  files' : List Nat
  task' : Task

/-- A call that a task is in, and what its steps so far were, the last one first. -/
structure Running (FS Node : Type) where
  call : Call FS
  stage : Stage FS Node
  steps : List Change

/-- All tasks with their tables and calls. What `state` has as `held`, `next` and `current` is the processor's that
has done the last step. -/
structure Config (Tid FS Node World : Type) where
  state : State FS Node World
  task : Tid → Task
  running : Tid → Option (Running FS Node)

/-- The state as the processor of a task sees it: it holds no lock, and `pmm->alloc` gives it the address `a`. -/
def Config.view (c : Config Tid FS Node World) (t : Tid) (a : Nat) : State FS Node World :=
  { c.state with held := ∅, next := a, current := some (c.task t) }

/-- The first stage of a call. -/
def Call.first : Call FS → Option (Stage FS Node)
  | .open path flags => some (.open path flags)
  | .close fd => some (.close fd)
  | _ => none

/-- The task has the descriptor open. -/
def HasOpen (tk : Task) (fd : Int) : Prop := 0 ≤ fd ∧ fd < nFile ∧ tk.fildes fd.toNat ≠ none

section Steps

variable [DecidableEq Tid]

/-- All tasks after a step of the task `t`. -/
def Config.after (c : Config Tid FS Node World) (t : Tid) (r : Running FS Node) (st : Stage FS Node)
    (s' : State FS Node World) : Config Tid FS Node World :=
  let tk := s'.current.getD (c.task t)
  { state := s'
    task := Function.update c.task t tk
    running := Function.update c.running t
      (some ⟨r.call, st, ⟨c.state.files, c.task t, s'.files, tk⟩ :: r.steps⟩) }

/-- A task calls `open`, or `close` on a descriptor it has open; it does the next stage of its call, where `pmm->alloc`
gives any address that is free; or its call returns. -/
inductive Step (ops : Ops FS Node World) : Config Tid FS Node World → Config Tid FS Node World → Prop
  | call {c : Config Tid FS Node World} {t : Tid} {call : Call FS} {st : Stage FS Node} (idle : c.running t = none)
      (first : call.first = some st) (has : ∀ fd, call = .close fd → HasOpen (c.task t) fd) :
      Step ops c { c with running := Function.update c.running t (some ⟨call, st, []⟩) }
  | stage {c : Config Tid FS Node World} {t : Tid} {r : Running FS Node} {a : Nat} {st : Stage FS Node}
      {s' : State FS Node World} (running : c.running t = some r) (free : c.state.file a = none)
      (run : r.stage.next ops (c.view t a) = .ok (st, s')) : Step ops c (c.after t r st s')
  | ret {c : Config Tid FS Node World} {t : Tid} {r : Running FS Node} {res : Int} (running : c.running t = some r)
      (done : r.stage = .done res) : Step ops c { c with running := Function.update c.running t none }

/-- Nothing is open and no call has begun. -/
structure Starts (c : Config Tid FS Node World) : Prop where
  files : c.state.files = []
  fildes : ∀ t i, (c.task t).fildes i = none
  idle : ∀ t, c.running t = none

/-- What calls of the tasks lead to, in any order of their stages. -/
def Reaches (ops : Ops FS Node World) (c : Config Tid FS Node World) : Prop :=
  ∃ c₀, Starts c₀ ∧ Relation.ReflTransGen (Step ops) c₀ c

end Steps

end OsLab.Kernel.Vfs
