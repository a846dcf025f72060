import OsLab.Kernel.Vfs.Quiet

/-!
# What a run of the VFS has done

The runs of `open`, of a successful `close` and of a use of a file, whatever locks are held: the operations of the
filesystem that were called, and the state around them. `OpenRun` has a constructor for each way an `open` can end.
-/

namespace OsLab.Kernel.Vfs

open OsLab.Klib OsLab.Triples
open OsLab.Kernel.Blkfs (AccessFlag)

variable {FS Node World : Type}

/-- The state with `refcnt` cleared in a file. -/
def State.cleared (s : State FS Node World) (tf : Nat) (f : File Node) : State FS Node World :=
  { s with file := Function.update s.file tf (some { f with refcnt := 0 }) }

/-- The state with a `file` freed. -/
def State.freed (s : State FS Node World) (tf : Nat) : State FS Node World :=
  { s with file := Function.update s.file tf none }

/-- The runs of `open`, by where they end. -/
inductive OpenRun (ops : Ops FS Node World) (flags : AccessFlag) (s : State FS Node World) :
    Option CStr → Int → State FS Node World → Prop
  | noDescriptor {path : Option CStr} {tk : Task} (task : s.current = some tk) (full : findFildeIndex tk = none) :
      OpenRun ops flags s path (-1) s
  | noMount {path : CStr} (mount : (mountOf ops s path).1 = none) : OpenRun ops flags s (some path) (-1) s
  | missing {path : CStr} {mn : Mount FS} {s₁ : State FS Node World} (mount : (mountOf ops s path).1 = some mn)
      (lookup : ops.lookup mn.fs (mountOf ops s path).2 flags s = .ok (none, s₁)) :
      OpenRun ops flags s (some path) (-1) s₁
  | refused {path : CStr} {mn : Mount FS} {node : Node} {s₁ s₂ s₃ : State FS Node World} {f : File Node} {res : Int}
      (mount : (mountOf ops s path).1 = some mn)
      (lookup : ops.lookup mn.fs (mountOf ops s path).2 flags s = .ok (some node, s₁))
      (opened : ops.open s₁.next flags (s₁.alloc node) = .ok (res, s₂)) (file : s₂.file s₁.next = some f)
      (nonzero : res ≠ 0) (closed : ops.closeInode (ops.fs node) node (s₂.cleared s₁.next f) = .ok (0, s₃)) :
      OpenRun ops flags s (some path) (-1) (s₃.freed s₁.next)
  | opened {path : CStr} {tk tk₂ : Task} {emptyFd : Nat} {mn : Mount FS} {node : Node} {s₁ s₂ : State FS Node World}
      {f : File Node} (task : s.current = some tk) (room : findFildeIndex tk = some emptyFd)
      (mount : (mountOf ops s path).1 = some mn)
      (lookup : ops.lookup mn.fs (mountOf ops s path).2 flags s = .ok (some node, s₁))
      (opened : ops.open s₁.next flags (s₁.alloc node) = .ok (0, s₂)) (file : s₂.file s₁.next = some f)
      (task₂ : s₂.current = some tk₂) : OpenRun ops flags s (some path) emptyFd (s₂.opened tk₂ emptyFd s₁.next f)

section Inversion

variable {ops : Ops FS Node World} {s s' : State FS Node World} {l : Lock} {tk : Task}

theorem spinLock_ok {u : Unit} (run : spinLock l s = .ok (u, s')) : l ∉ s.held ∧ s' = s.locked l := by
  unfold spinLock at run
  rw [run_bind (run_gets _)] at run
  split at run
  · cases run
  · next free =>
    cases run
    exact ⟨free, rfl⟩

theorem currentTask_ok (run : currentTask s = .ok (tk, s')) : s.current = some tk ∧ s' = s := by
  unfold currentTask at run
  rw [run_bind (run_gets _)] at run
  cases task : s.current with
  | none =>
    rw [task] at run
    cases run
  | some tk' =>
    rw [task] at run
    cases run
    exact ⟨rfl, rfl⟩

section Behind

variable {α : Type} {r : α × State FS Node World}

theorem behind_currentTask {k : Task → M FS Node World α} (run : (currentTask >>= k) s = .ok r) :
    ∃ tk, s.current = some tk ∧ k tk s = .ok r := by
  obtain ⟨tk, s', task, run⟩ := bind_run_eq_ok.1 run
  obtain ⟨task, same⟩ := currentTask_ok task
  rw [same] at run
  exact ⟨tk, task, run⟩

theorem behind_spinLock {k : Unit → M FS Node World α} (run : (spinLock l >>= k) s = .ok r) :
    l ∉ s.held ∧ k () (s.locked l) = .ok r := by
  obtain ⟨_, s', lock, run⟩ := bind_run_eq_ok.1 run
  obtain ⟨free, rfl⟩ := spinLock_ok lock
  exact ⟨free, run⟩

/-- A lock that is taken is given back. -/
theorem behind_spinUnlock {k : Unit → M FS Node World α} (free : l ∉ s.held)
    (run : (spinUnlock l >>= k) (s.locked l) = .ok r) : k () s = .ok r := by
  rwa [run_bind (spinUnlock_run free)] at run

theorem behind_fileAt {tf : Nat} {k : File Node → M FS Node World α} (run : (fileAt tf >>= k) s = .ok r) :
    ∃ f, s.file tf = some f ∧ k f s = .ok r := by
  obtain ⟨f, s', read, run⟩ := bind_run_eq_ok.1 run
  have file := fileAt_ok read
  rw [fileAt_run file] at read
  cases read
  exact ⟨f, file, run⟩

theorem behind_assert {p : Prop} [Decidable p] {msg : String} {k : Unit → M FS Node World α}
    (run : (assert p msg >>= k) s = .ok r) : p ∧ k () s = .ok r := by
  obtain ⟨_, s', check, run⟩ := bind_run_eq_ok.1 run
  unfold assert at check
  split at check
  · next holds =>
    cases check
    exact ⟨holds, run⟩
  · cases check

end Behind

theorem getFile_ok {fd : Int} {found : Option Nat} (run : getFile fd s = .ok (found, s')) :
    ∃ tk, s.current = some tk ∧ 0 ≤ fd ∧ tk.fildes fd.toNat = found ∧ s' = s := by
  unfold getFile at run
  obtain ⟨tk, task, run⟩ := behind_currentTask run
  split at run
  · next inside =>
    cases run
    exact ⟨tk, task, inside.1, rfl, rfl⟩
  · cases run

/-- `read`, `write` and `lseek` do what the operation does. -/
theorem onFile_act {fd res : Int} {act : Nat → M FS Node World Int} {t : State FS Node World}
    (run : onFile fd act s = .ok (res, t)) : ∃ tf, act tf s = .ok (res, t) := by
  unfold onFile at run
  obtain ⟨_, -, run⟩ := behind_currentTask run
  obtain ⟨free, run⟩ := behind_spinLock run
  obtain ⟨found, _, get, run⟩ := bind_run_eq_ok.1 run
  obtain ⟨-, -, -, -, same⟩ := getFile_ok get
  rw [same] at run
  cases found with
  | none => cases run
  | some tf =>
    have run := behind_spinUnlock free run
    obtain ⟨f, -, run⟩ := behind_fileAt run
    obtain ⟨_, s₁, acted, run⟩ := bind_run_eq_ok.1 run
    obtain ⟨free₁, run⟩ := behind_spinLock run
    have run := behind_spinUnlock free₁ run
    cases run
    exact ⟨tf, acted⟩

theorem getMountFsLocked_ok {path : Option CStr} {r : Option (Mount FS) × CStr}
    (run : getMountFsLocked ops path s = .ok (r, s')) : ∃ p, path = some p ∧ r = mountOf ops s p ∧ s' = s := by
  cases path with
  | none => cases run
  | some p =>
    obtain ⟨free, run⟩ := behind_spinLock run
    rw [run_bind (run_gets _)] at run
    have run := behind_spinUnlock free run
    cases run
    exact ⟨p, rfl, rfl, rfl⟩

theorem fileListAppend_ok {u : Unit} {tf : Nat} (run : fileListAppend tf s = .ok (u, s')) :
    s' = { s with files := tf :: s.files } := by
  obtain ⟨free, -⟩ := behind_spinLock run
  rw [fileListAppend_run free] at run
  cases run
  rfl

theorem fileListRemove_ok {u : Unit} {tf : Nat} (run : fileListRemove tf s = .ok (u, s')) :
    s' = { s with files := s.files.erase tf } := by
  by_cases member : tf ∈ s.files
  · have copy := run
    obtain ⟨cur, here⟩ : ∃ cur, s.files.findIdx? (fun cur => decide (cur = tf)) = some cur := by
      rw [← Option.isSome_iff_exists, List.findIdx?_isSome]
      simpa using member
    unfold fileListRemove at run
    rw [run_bind (run_gets _), here] at run
    obtain ⟨free, -⟩ := behind_spinLock run
    rw [fileListRemove_erase free] at copy
    cases copy
    rfl
  · have nowhere : s.files.findIdx? (fun cur => decide (cur = tf)) = none := by
      rw [List.findIdx?_eq_none_iff]
      rintro x inside
      exact decide_eq_false (ne_of_mem_of_not_mem inside member)
    unfold fileListRemove at run
    rw [run_bind (run_gets _), nowhere] at run
    cases run
    rw [List.erase_of_not_mem member]

theorem setFilde_ok {u : Unit} {fd : Nat} {tf : Option Nat} (run : setFilde fd tf s = .ok (u, s')) :
    ∃ tk, s.current = some tk ∧ s' = { s with current := some ⟨Function.update tk.fildes fd tf⟩ } := by
  obtain ⟨tk, task, -⟩ := behind_currentTask run
  rw [setFilde_run task] at run
  cases run
  exact ⟨tk, task, rfl⟩

/-- The end of `open`. -/
theorem openFile_ok {path : CStr} {flags : AccessFlag} {emptyFd : Nat} {mn : Mount FS} {node : Node}
    {s₁ s₂ t : State FS Node World} {res value : Int} (task : s.current = some tk) (room : findFildeIndex tk = some emptyFd)
    (mount : (mountOf ops s path).1 = some mn)
    (lookup : ops.lookup mn.fs (mountOf ops s path).2 flags s = .ok (some node, s₁))
    (opened : ops.open s₁.next flags (s₁.alloc node) = .ok (res, s₂)) (free : Lock.vfs ∉ s₂.held)
    (run : openFile ops node s₁.next emptyFd res (s₂.locked .vfs) = .ok (value, t)) : OpenRun ops flags s (some path) value t := by
  unfold openFile at run
  obtain ⟨f, file, run⟩ := behind_fileAt run
  rw [run_bind (run_modify _)] at run
  by_cases zero : res = 0
  · subst zero
    simp only at run
    obtain ⟨_, s₃, append, run⟩ := bind_run_eq_ok.1 run
    rw [fileListAppend_ok append] at run
    obtain ⟨_, s₄, install, run⟩ := bind_run_eq_ok.1 run
    obtain ⟨tk₂, task₂, same⟩ := setFilde_ok install
    rw [same] at run
    have run := behind_spinUnlock (s := s₂.opened tk₂ emptyFd s₁.next f) free run
    cases run
    exact .opened task room mount lookup opened file task₂
  · simp only [if_neg zero] at run
    have run := behind_spinUnlock (s := s₂.cleared s₁.next f) free run
    obtain ⟨closed, s₃, close, run⟩ := bind_run_eq_ok.1 run
    obtain ⟨success, run⟩ := behind_assert run
    rw [success] at close
    obtain ⟨free₃, run⟩ := behind_spinLock run
    rw [run_bind (show freeFile s₁.next (s₃.locked .vfs) = .ok ((), (s₃.freed s₁.next).locked .vfs) from rfl)] at run
    have run := behind_spinUnlock (s := s₃.freed s₁.next) free₃ run
    cases run
    exact .refused mount lookup opened file zero close

/-- Every run of `open` is one of these. -/
theorem open_run {path : Option CStr} {flags : AccessFlag} {value : Int} {t : State FS Node World}
    (run : Vfs.open ops path flags s = .ok (value, t)) : OpenRun ops flags s path value t := by
  unfold Vfs.open at run
  obtain ⟨_, -, run⟩ := behind_currentTask run
  obtain ⟨free, run⟩ := behind_spinLock run
  obtain ⟨tk, task, run⟩ := behind_currentTask run
  cases room : findFildeIndex tk with
  | none =>
    rw [room] at run
    have run := behind_spinUnlock free run
    cases run
    exact .noDescriptor task room
  | some emptyFd =>
    rw [room] at run
    obtain ⟨_, _, mounted, run⟩ := bind_run_eq_ok.1 run
    obtain ⟨p, rfl, rfl, rfl⟩ := getMountFsLocked_ok mounted
    have same : mountOf ops (s.locked .vfs) p = mountOf ops s p := rfl
    rw [same] at run
    rcases pair : mountOf ops s p with ⟨_ | mn, sub⟩
    · rw [pair] at run
      have run := behind_spinUnlock free run
      cases run
      exact .noMount (congrArg Prod.fst pair)
    · have mount : (mountOf ops s p).1 = some mn := congrArg Prod.fst pair
      have part : (mountOf ops s p).2 = sub := congrArg Prod.snd pair
      rw [pair] at run
      have run := behind_spinUnlock free run
      obtain ⟨found, s₁, lookup, run⟩ := bind_run_eq_ok.1 run
      rw [← part] at lookup
      obtain ⟨free₁, run⟩ := behind_spinLock run
      cases found with
      | none =>
        have run := behind_spinUnlock free₁ run
        cases run
        exact .missing mount lookup
      | some node =>
        dsimp only at run
        rw [run_bind (show allocFile node (s₁.locked .vfs) = .ok (s₁.next, (s₁.alloc node).locked .vfs) from rfl)] at run
        have run := behind_spinUnlock (s := s₁.alloc node) free₁ run
        obtain ⟨res, s₂, opened, run⟩ := bind_run_eq_ok.1 run
        obtain ⟨free₂, run⟩ := behind_spinLock run
        exact openFile_ok task room mount lookup opened free₂ run

/-- A successful `close`. -/
theorem close_ok {fd : Int} {t : State FS Node World} (run : Vfs.close ops fd s = .ok (0, t)) :
    ∃ tk tf f f₁ s₁ s₂ tk₂, s.current = some tk ∧ 0 ≤ fd ∧ tk.fildes fd.toNat = some tf ∧ s.file tf = some f ∧
      ops.close tf s = .ok (0, s₁) ∧ s₁.file tf = some f₁ ∧ ops.closeInode (ops.fs f.inode) f₁.inode s₁ = .ok (0, s₂) ∧
      s₂.current = some tk₂ ∧
      t = { s₂ with files := s₂.files.erase tf, current := some ⟨Function.update tk₂.fildes fd.toNat none⟩ } := by
  unfold Vfs.close at run
  obtain ⟨_, -, run⟩ := behind_currentTask run
  obtain ⟨free, run⟩ := behind_spinLock run
  obtain ⟨found, _, get, run⟩ := bind_run_eq_ok.1 run
  obtain ⟨tk, task, inside, filde, same⟩ := getFile_ok get
  rw [same] at run
  cases found with
  | none => cases run
  | some tf =>
    obtain ⟨f, file, run⟩ := behind_fileAt run
    have run := behind_spinUnlock free run
    obtain ⟨res, s₁, close, run⟩ := bind_run_eq_ok.1 run
    obtain ⟨free₁, run⟩ := behind_spinLock run
    by_cases zero : res = 0
    · rw [zero] at close
      simp only [if_pos zero] at run
      have run := behind_spinUnlock free₁ run
      obtain ⟨f₁, file₁, run⟩ := behind_fileAt run
      obtain ⟨closed, s₂, freed, run⟩ := bind_run_eq_ok.1 run
      obtain ⟨success, run⟩ := behind_assert run
      rw [success] at freed
      obtain ⟨free₂, run⟩ := behind_spinLock run
      obtain ⟨_, _, remove, run⟩ := bind_run_eq_ok.1 run
      rw [fileListRemove_ok remove] at run
      obtain ⟨_, _, uninstall, run⟩ := bind_run_eq_ok.1 run
      obtain ⟨tk₂, task₂, same₂⟩ := setFilde_ok uninstall
      rw [same₂] at run
      have run := behind_spinUnlock (s := { s₂ with
        files := s₂.files.erase tf, current := some ⟨Function.update tk₂.fildes fd.toNat none⟩ }) free₂ run
      cases run
      exact ⟨tk, tf, f, f₁, s₁, s₂, tk₂, task, inside, filde, file, close, file₁, freed, task₂, rfl⟩
    · simp only [if_neg zero] at run
      have run := behind_spinUnlock free₁ run
      cases run
      exact absurd rfl zero

/-- What a successful `open` has done, where the filesystem leaves the locks and the task alone. -/
theorem open_inv {path : CStr} {m : Mount FS} {sub : CStr} {flags : AccessFlag} {fd : Int} {t : State FS Node World}
    (quiet : Quiet s tk) (mounted : mountOf ops s path = (some m, sub))
    (run : Vfs.open ops (some path) flags s = .ok (fd, t)) (success : fd ≠ -1)
    (openQuiet : ∀ node s₁ res s₂, ops.lookup m.fs sub flags s = .ok (some node, s₁) →
      ops.open s₁.next flags (s₁.alloc node) = .ok (res, s₂) → Quiet s₂ tk) :
    ∃ emptyFd node s₁ s₂ f, findFildeIndex tk = some emptyFd ∧ fd = emptyFd ∧
      ops.lookup m.fs sub flags s = .ok (some node, s₁) ∧ ops.open s₁.next flags (s₁.alloc node) = .ok (0, s₂) ∧
      s₂.file s₁.next = some f ∧ Quiet s₂ tk ∧ t = s₂.opened tk emptyFd s₁.next f := by
  cases open_run run with
  | opened task room mount lookup opened file task₂ =>
    rw [mounted] at mount lookup
    cases mount
    have quiet₂ := openQuiet _ _ _ _ lookup opened
    rw [quiet.task] at task
    cases task
    rw [quiet₂.task] at task₂
    cases task₂
    exact ⟨_, _, _, _, _, room, rfl, lookup, opened, file, quiet₂, rfl⟩
  | _ => exact absurd rfl success

end Inversion

end OsLab.Kernel.Vfs
