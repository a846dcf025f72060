import OsLab.Kernel.Vfs.Model

/-!
# The VFS calls with no lock held

What a call of the VFS does when its processor holds no lock and nothing else runs: the operations
of the filesystem in order, around what the call itself changes.
-/

namespace OsLab.Kernel.Vfs

open OsLab.Klib OsLab.Triples
open OsLab.Kernel.Blkfs (AccessFlag Item)

variable {FS Node World : Type}

/-- No lock is held and `tk` runs. -/
structure Quiet (s : State FS Node World) (tk : Task) : Prop where
  held : s.held = ∅
  task : s.current = some tk

/-- The state with one more lock held. -/
def State.locked (s : State FS Node World) (l : Lock) : State FS Node World :=
  { s with held := insert l s.held }

/-- The state with a `file` more. -/
def State.alloc (s : State FS Node World) (node : Node) : State FS Node World :=
  { s with
    file := Function.update s.file s.next (some ⟨0, .dirExist, node, 0⟩), next := s.next + 1 }

/-- The mount of a path and the path in it. -/
def mountOf (ops : Ops FS Node World) (s : State FS Node World) (path : CStr) :
    Option (Mount FS) × CStr :=
  ((getMountFs (ops.before path) s.mounts path).1,
    (getMountFs (ops.before path) s.mounts path).2.chars (ops.before path) path)

section Locks

variable {s : State FS Node World} {l : Lock} {tk : Task}

theorem spinLock_run (free : l ∉ s.held) : spinLock l s = .ok ((), s.locked l) := by
  unfold spinLock
  rw [run_bind (run_gets _), if_neg free]
  rfl

theorem spinUnlock_run (free : l ∉ s.held) : spinUnlock l (s.locked l) = .ok ((), s) := by
  have held : l ∈ (s.locked l).held := Finset.mem_insert_self ..
  unfold spinUnlock
  rw [run_bind (run_gets _), if_pos held]
  show Except.ok ((), { s with held := (insert l s.held).erase l }) = _
  rw [Finset.erase_insert free]

theorem Quiet.free (quiet : Quiet s tk) (l : Lock) : l ∉ s.held := by
  rw [quiet.held]
  exact Finset.notMem_empty l

theorem Quiet.lock (quiet : Quiet s tk) : spinLock .vfs s = .ok ((), s.locked .vfs) :=
  spinLock_run (quiet.free .vfs)

theorem Quiet.unlock (quiet : Quiet s tk) : spinUnlock .vfs (s.locked .vfs) = .ok ((), s) :=
  spinUnlock_run (quiet.free .vfs)

theorem Quiet.inner (quiet : Quiet s tk) {l : Lock} (other : l ≠ .vfs) : l ∉ (s.locked .vfs).held := by
  show l ∉ insert Lock.vfs s.held
  rw [quiet.held]
  simpa using other

theorem Quiet.current (quiet : Quiet s tk) : currentTask s = .ok (tk, s) := by
  unfold currentTask
  rw [run_bind (run_gets _), quiet.task]
  rfl

theorem Quiet.current_locked (quiet : Quiet s tk) :
    currentTask (s.locked .vfs) = .ok (tk, s.locked .vfs) := by
  have task : (s.locked .vfs).current = some tk := quiet.task
  unfold currentTask
  rw [run_bind (run_gets _), task]
  rfl

theorem Quiet.mount (quiet : Quiet s tk) (ops : Ops FS Node World) (path : CStr) :
    getMountFsLocked ops (some path) (s.locked .vfs) = .ok (mountOf ops s path, s.locked .vfs) := by
  have free := quiet.inner (l := .mountList) nofun
  unfold getMountFsLocked
  dsimp only
  rw [run_bind (spinLock_run free), run_bind (run_gets _), run_bind (spinUnlock_run free)]
  rfl

theorem fileAt_run {tf : Nat} {f : File Node} (file : s.file tf = some f) :
    fileAt tf s = .ok (f, s) := by
  unfold fileAt
  rw [run_bind (run_gets _), file]
  rfl

theorem fileAt_ok {tf : Nat} {f : File Node} {s' : State FS Node World} (run : fileAt tf s = .ok (f, s')) :
    s.file tf = some f := by
  unfold fileAt at run
  rw [run_bind (run_gets _)] at run
  cases file : s.file tf with
  | none =>
    rw [file] at run
    cases run
  | some g =>
    rw [file] at run
    obtain ⟨rfl, -⟩ := Prod.mk.inj (Except.ok.inj run)
    rfl

theorem fileListAppend_run {tf : Nat} (free : Lock.fileList ∉ s.held) :
    fileListAppend tf s = .ok ((), { s with files := tf :: s.files }) := by
  unfold fileListAppend
  rw [run_bind (spinLock_run free), run_bind (run_modify _)]
  exact spinUnlock_run (s := { s with files := tf :: s.files }) free

/-- `file_list_remove` under `vfs_lock`. -/
theorem fileListRemove_erase {tf : Nat} (free : Lock.fileList ∉ s.held) :
    fileListRemove tf s = .ok ((), { s with files := s.files.erase tf }) := by
  have erased := @List.eraseP_eq_eraseIdx _ s.files fun cur => decide (cur = tf)
  have same : s.files.erase tf = s.files.eraseP fun cur => decide (cur = tf) := List.erase_eq_eraseP' tf s.files
  rw [same, erased]
  unfold fileListRemove
  rw [run_bind (run_gets _)]
  cases s.files.findIdx? fun cur => cur = tf with
  | none => rfl
  | some cur =>
    dsimp only
    rw [run_bind (spinLock_run free), run_bind (run_modify _)]
    exact spinUnlock_run (s := { s with files := s.files.eraseIdx cur }) free

theorem setFilde_run {fd : Nat} {tf : Option Nat} (task : s.current = some tk) :
    setFilde fd tf s =
      .ok ((), { s with current := some ⟨Function.update tk.fildes fd tf⟩ }) := by
  have current : currentTask s = .ok (tk, s) := by
    unfold currentTask
    rw [run_bind (run_gets _), task]
    rfl
  unfold setFilde
  rw [run_bind current]
  rfl

theorem Quiet.getFile (quiet : Quiet s tk) {fd : Nat} (inside : fd < nFile) :
    getFile fd (s.locked .vfs) = .ok (tk.fildes fd, s.locked .vfs) := by
  unfold Vfs.getFile
  rw [run_bind quiet.current_locked, if_pos ⟨Int.natCast_nonneg fd, Int.ofNat_lt.2 inside⟩]
  rfl

end Locks

section Calls

variable {ops : Ops FS Node World} {s s' s2 : State FS Node World} {tk tk' : Task} {path : CStr}
  {m : Mount FS} {sub : CStr} {flags : AccessFlag} {node : Node} {res : Int}

/-- The state after `open`: the file is in the list and has the descriptor. -/
def State.opened (s : State FS Node World) (tk : Task) (fd tf : Nat) (f : File Node) :
    State FS Node World :=
  { s with
    files := tf :: s.files, file := Function.update s.file tf (some { f with refcnt := 0 })
    current := some ⟨Function.update tk.fildes fd (some tf)⟩ }

section Files

variable {fd tf : Nat} {f : File Node} {act : Nat → M FS Node World Int}

/-- `read`, `write` and `lseek` of an open file. -/
theorem onFile_run (quiet : Quiet s tk) (inside : fd < nFile) (filde : tk.fildes fd = some tf)
    (file : s.file tf = some f) (run : act tf s = .ok (res, s')) (quiet' : Quiet s' tk') :
    onFile fd act s = .ok (res, s') := by
  unfold onFile
  rw [run_bind quiet.current, run_bind quiet.lock, run_bind (quiet.getFile inside), filde]
  dsimp only
  rw [run_bind quiet.unlock, run_bind (fileAt_run file), run_bind run, run_bind quiet'.lock,
    run_bind quiet'.unlock]
  rfl

theorem onFile_halts {e : Halt} (quiet : Quiet s tk) (inside : fd < nFile)
    (filde : tk.fildes fd = some tf) (file : s.file tf = some f) (halts : act tf s = .error e) :
    onFile fd act s = .error e := by
  unfold onFile
  rw [run_bind quiet.current, run_bind quiet.lock, run_bind (quiet.getFile inside), filde]
  dsimp only
  rw [run_bind quiet.unlock, run_bind (fileAt_run file)]
  exact run_bind_error halts

/-- `close` of an open file that its filesystem closes. -/
theorem close_run {s₁ s₂ : State FS Node World} {f₁ : File Node} (quiet : Quiet s tk) (inside : fd < nFile)
    (filde : tk.fildes fd = some tf) (file : s.file tf = some f) (run : ops.close tf s = .ok (0, s₁))
    (quiet₁ : Quiet s₁ tk) (file₁ : s₁.file tf = some f₁)
    (closed : ops.closeInode (ops.fs f.inode) f₁.inode s₁ = .ok (0, s₂)) (quiet₂ : Quiet s₂ tk) :
    ∃ files, close ops fd s =
      .ok (0, { s₂ with files, current := some ⟨Function.update tk.fildes fd none⟩ }) := by
  have found : fileAt tf (s.locked .vfs) = .ok (f, s.locked .vfs) := fileAt_run file
  obtain ⟨files, removed⟩ : ∃ files, fileListRemove tf (s₂.locked .vfs) =
      .ok ((), { s₂.locked .vfs with files }) := ⟨_, fileListRemove_erase (quiet₂.inner nofun)⟩
  refine ⟨files, ?_⟩
  unfold close
  rw [run_bind quiet.current, run_bind quiet.lock, run_bind (quiet.getFile inside), filde]
  dsimp only
  rw [run_bind found, run_bind quiet.unlock, run_bind run, run_bind quiet₁.lock, if_pos rfl,
    run_bind quiet₁.unlock, run_bind (fileAt_run file₁), run_bind closed,
    run_bind (show assert _ _ _ = .ok ((), s₂) from rfl), run_bind quiet₂.lock, run_bind removed]
  have task : (State.mk (s₂.locked .vfs).held s₂.mounts files s₂.file s₂.next s₂.current
      s₂.world).current = some tk := quiet₂.task
  refine (run_bind (setFilde_run task)).trans ?_
  let s3 : State FS Node World :=
    { s₂ with files, current := some ⟨Function.update tk.fildes fd none⟩ }
  have quiet3 : Quiet s3 ⟨Function.update tk.fildes fd none⟩ := ⟨quiet₂.held, rfl⟩
  exact run_bind quiet3.unlock

end Files

end Calls

end OsLab.Kernel.Vfs
