import OsLab.Kernel.Blkfs.Format

/-!
# Runs of blkfs

A run starts on a freshly formatted device and makes one call after the other. It keeps the history
of what the calls did to the references, and which handles are stale: the inode of their copy
has been freed since. `Run.sound` is the invariant of all runs in which no write through a stale handle
does harm.
-/

namespace OsLab.Kernel.Blkfs

open OsLab.Memory OsLab.Klib Volume

/-- What a call has done to the references, by the value it returned. -/
def changed (fs : Info) (s : State) (c : Call) (res : Int) : Change :=
  if res = 0 then changeOf fs s c else .idle

/-- The inode of the copy `node` is freed between two disks. -/
def Freed (d d' : Disk) (node : Inode) : Prop :=
  ∃ k : Nat, node.id = k ∧ InUse d k ∧ ¬ InUse d' k

/-- The stale handles after a call. -/
def staleAfter (stale : Nat → Prop) (s s' : State) (h : Nat) : Prop :=
  stale h ∨ ∃ f node, s.handles[h]? = some f ∧ f.ptr = some node ∧ Freed s.disk s'.disk node

/-- The runs on a formatted device whose calls all satisfy `Ok`, with the history of changes and
the stale handles. -/
inductive Run (fs : Info) (Ok : (Nat → Prop) → State → Call → Prop) :
    State → List Change → (Nat → Prop) → Prop
  | init {fullSize : UInt32} {d d' : Disk} (blank : blockMagic d 0 ≠ magic)
      (format : fsInit fullSize d = .ok (fs, d')) : Run fs Ok ⟨d', []⟩ [] fun _ => False
  | step {s s' : State} {hist : List Change} {stale : Nat → Prop} {c : Call} {res : Int}
      (run : Run fs Ok s hist stale) (ok : Ok stale s c) (call : exec fs s c = .ok (res, s')) :
      Run fs Ok s' (changed fs s c res :: hist) (staleAfter stale s s')

theorem Run.mono {fs : Info} {Ok Ok' : (Nat → Prop) → State → Call → Prop} {s : State}
    {hist : List Change} {stale : Nat → Prop} (run : Run fs Ok s hist stale)
    (weaker : ∀ stale s c, Ok stale s c → Ok' stale s c) : Run fs Ok' s hist stale := by
  induction run with
  | init blank format => exact .init blank format
  | step run ok call ih => exact ih.step (weaker _ _ _ ok) call

/-- A device of `fullSize` zero bytes, formatted. -/
def freshDisk (fullSize : UInt32) : Disk :=
  match fsInit fullSize fun _ _ => 0 with
  | .ok (_, d) => d
  | .error _ => fun _ _ => 0

theorem fsInit_fullSize {fs : Info} {fullSize : UInt32} {d d' : Disk}
    (h : fsInit fullSize d = .ok (fs, d')) : fs.fullSize = fullSize := by
  unfold fsInit at h
  obtain ⟨-, h⟩ := kassert_bind_eq_ok.1 h
  by_cases room : inodeBlocks (fullSize.toNat / blockSize) < fullSize.toNat / blockSize
  · rw [dif_pos room] at h
    obtain ⟨res, -, h⟩ := bind_eq_ok.1 h
    by_cases found : res = 0
    · rw [if_pos found] at h
      obtain ⟨d1, -, done⟩ := bind_eq_ok.1 h
      cases done
      rfl
    · rw [if_neg found] at h
      obtain ⟨d1, -, done⟩ := bind_eq_ok.1 h
      cases done
      rfl
  · rw [dif_neg room] at h
    contradiction

/-- The run that has made no call yet. -/
theorem run_fresh {fs : Info} {Ok : (Nat → Prop) → State → Call → Prop}
    (formats : (fsInit fs.fullSize fun _ _ => 0).toBool = true) :
    Run fs Ok ⟨freshDisk fs.fullSize, []⟩ [] fun _ => False := by
  cases init : fsInit fs.fullSize fun _ _ => 0 with
  | error e =>
    rw [init] at formats
    contradiction
  | ok r =>
    obtain ⟨fs', d⟩ := r
    have same := fsInit_fullSize init
    cases fs
    cases fs'
    subst same
    unfold freshDisk
    rw [init]
    exact .init (by decide) init

/-- The state after a call that returns. -/
def after (fs : Info) (s : State) (c : Call) : State :=
  match exec fs s c with
  | .ok (_, s') => s'
  | .error _ => s

theorem exec_after (fs : Info) (s : State) (c : Call) (returns : (exec fs s c).toBool = true) :
    ∃ res, exec fs s c = .ok (res, after fs s c) := by
  unfold after
  cases call : exec fs s c with
  | error e =>
    rw [call] at returns
    contradiction
  | ok r => exact ⟨r.1, rfl⟩

theorem exec_after_eq {fs : Info} {s : State} {c : Call} {res : Int}
    (returns : (exec fs s c).map Prod.fst = .ok res) : exec fs s c = .ok (res, after fs s c) := by
  unfold after
  cases call : exec fs s c with
  | error e =>
    rw [call] at returns
    contradiction
  | ok r =>
    rw [call] at returns
    cases returns
    rfl

/-- The call is a write. -/
def Call.IsWrite : Call → Prop
  | .write .. => True
  | _ => False

theorem Call.IsWrite.eq {c : Call} (h : c.IsWrite) : ∃ i buf size, c = .write i buf size := by
  cases c with
  | write i buf size => exact ⟨i, buf, size, rfl⟩
  | mkdir => contradiction
  | rm => contradiction
  | link => contradiction
  | lookup => contradiction
  | «open» => contradiction

/-! ## Opening -/

section Open

variable {fs : Info} {d d' : Disk} {f f' : Handle} {flags : AccessFlag} {res : Int}

/-- What `inode_open` has done before it looks at the inode: the file was there, could not be
created, or is now created. -/
inductive Opened (fs : Info) (d : Disk) (f : Handle) (flags : AccessFlag) :
    Int → Handle → Disk → Prop
  | found (there : ¬ Missing f flags) : Opened fs d f flags 0 f d
  | failed (missing : Missing f flags) : Opened fs d f flags (-1) f d
  | created {k : Nat} {node : Inode} {d' : Disk} (missing : Missing f flags)
      (first : FirstEmpty fs d k) (copy : Found fs d' node k)
      (type : node.type = InodeType.file.code)
      (step : Step fs (volume fs d) (.create k) (volume fs d')) :
      Opened fs d f flags 0 { f with ptr := some node } d'

theorem inodeOpen_ok (owned : Owned fs (volume fs d))
    (h : inodeOpen fs d f flags = .ok (res, f', d')) :
    ∃ r f1, Opened fs d f flags r f1 d' ∧ openFound r f1 flags = (res, f') := by
  unfold inodeOpen at h
  by_cases missing : Missing f flags
  · rw [if_pos missing] at h
    obtain ⟨⟨r, f1, d1⟩, create, done⟩ := bind_eq_ok.1 h
    cases done
    obtain ⟨rfl, rfl, rfl⟩ | ⟨rfl, k, node, first, copy, type, rfl, step⟩ :=
      openCreate_step owned create
    · exact ⟨-1, _, .failed missing, rfl⟩
    · exact ⟨0, _, .created missing first copy type step, rfl⟩
  · rw [if_neg missing] at h
    cases h
    exact ⟨0, f, .found missing, rfl⟩

theorem openFound_failed (f : Handle) (flags : AccessFlag) : openFound (-1) f flags = (-1, f) :=
  if_pos (.inl rfl)

/-- A created file can be written. -/
theorem openFound_created {node : Inode} (missing : Missing f flags)
    (type : node.type = InodeType.file.code) :
    (openFound 0 { f with ptr := some node } flags).1 = 0 := by
  have access : inodeAccess { f with ptr := some node } flags = 0 := by
    obtain rfl | rfl := missing.2
    · exact if_pos type
    · exact if_pos type
  have goes : ¬ ((0 : Int) = -1 ∨ inodeAccess { f with ptr := some node } flags = -1) := by
    rw [access]
    decide
  unfold openFound
  rw [if_neg goes]
  obtain rfl | rfl := missing.2
  · rfl
  · rfl

theorem openFound_ptr (r : Int) (f : Handle) (flags : AccessFlag) :
    (openFound r f flags).2.ptr = f.ptr := by
  unfold openFound
  by_cases stop : r = -1 ∨ inodeAccess f flags = -1
  · rw [if_pos stop]
  · rw [if_neg stop]
    cases flags <;> rfl

end Open

/-! ## Calls that write no file -/

section Path

variable {fs : Info} {s s' : State} {c : Call} {res : Int}

theorem changed_failed : changed fs s c (-1) = .idle :=
  if_neg (by decide)

theorem changed_open {i k : Nat} {f : Handle} {flags : AccessFlag} (handle : s.handles[i]? = some f)
    (missing : Missing f flags) (first : FirstEmpty fs s.disk k) :
    changed fs s (.open i flags) 0 = .create k := by
  rw [changed, if_pos rfl, changeOf, handle]
  dsimp only
  rw [if_pos missing, firstEmpty_eq first]
  rfl

theorem changed_there {i : Nat} {f : Handle} {flags : AccessFlag} (handle : s.handles[i]? = some f)
    (there : ¬ Missing f flags) : changed fs s (.open i flags) res = .idle := by
  rw [changed, changeOf, handle]
  dsimp only
  rw [if_neg there]
  exact ite_self _

theorem changed_unnamed {path : CStr} (unnamed : namedBy fs s.disk path = none) :
    changed fs s (.rm path) res = .idle := by
  rw [changed, changeOf, unnamed]
  exact ite_self _

/-- A call that writes no file is a step of the volume. -/
theorem exec_step (owned : Owned fs (volume fs s.disk)) (noWrite : ¬ c.IsWrite)
    (h : exec fs s c = .ok (res, s')) :
    Step fs (volume fs s.disk) (changed fs s c res) (volume fs s'.disk) := by
  cases c with
  | mkdir path =>
    obtain ⟨⟨r, d⟩, run, done⟩ := bind_eq_ok.1 h
    cases done
    obtain ⟨rfl, rfl⟩ | ⟨rfl, k, first, step⟩ := fsMkdir_step owned run
    · rw [changed_failed]
      exact .idle
    · rw [changed, if_pos rfl, changeOf, firstEmpty_eq first]
      exact step
  | rm path =>
    obtain ⟨⟨r, d⟩, run, done⟩ := bind_eq_ok.1 h
    cases done
    obtain ⟨rfl, rfl | unnamed⟩ | ⟨rfl, k, named, step⟩ := fsRm_step owned run
    · rw [changed_failed]
      exact .idle
    · rw [changed_unnamed unnamed]
      exact .idle
    · rw [changed, if_pos rfl, changeOf, named]
      exact step
  | link oldpath newpath =>
    obtain ⟨⟨r, d⟩, run, done⟩ := bind_eq_ok.1 h
    cases done
    obtain ⟨rfl, rfl⟩ | ⟨rfl, old, newdir, n, k, resolveOld, resolveNew, old_eq, dir_eq, step⟩ :=
      fsLink_step owned run
    · rw [changed_failed]
      exact .idle
    · rw [changed, if_pos rfl, changeOf, resolveOld, resolveNew]
      dsimp only
      rw [old_eq, dir_eq]
      exact step
  | lookup path =>
    obtain ⟨f, -, done⟩ := bind_eq_ok.1 h
    cases done
    exact .idle
  | «open» i flags =>
    unfold exec at h
    cases handle : s.handles[i]? with
    | none =>
      simp only [handle] at h
      cases h
      rw [changed_failed]
      exact .idle
    | some f =>
      simp only [handle] at h
      obtain ⟨⟨r, f', d⟩, run, done⟩ := bind_eq_ok.1 h
      cases done
      obtain ⟨r1, f1, opened, last⟩ := inodeOpen_ok owned run
      cases opened with
      | found there =>
        rw [changed_there handle there]
        exact .idle
      | failed missing =>
        rw [openFound_failed] at last
        cases last
        rw [changed_failed]
        exact .idle
      | created missing first copy type step =>
        have zero := openFound_created missing type
        rw [last] at zero
        dsimp only at zero
        subst zero
        rw [changed_open handle missing first]
        exact step
  | write => exact absurd trivial noWrite

end Path

end OsLab.Kernel.Blkfs
