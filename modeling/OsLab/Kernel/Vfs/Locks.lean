import OsLab.Kernel.Vfs.Model

/-!
# The locks of the VFS calls

A call takes `vfs_lock`, gives it back around every operation of a filesystem, and takes the lock of
the mount list or of the file list inside. Every call gives back what it took, provided the
operations do, but for one return of `link`: where its two paths are on different mounts it keeps
`vfs_lock`.
-/

namespace OsLab.Kernel.Vfs

open OsLab.Klib OsLab.Triples
open OsLab.Kernel.Blkfs (AccessFlag Item)

variable {FS Node World : Type}

/-- The function leaves the locks that are held as they are. -/
abbrev Balanced {α : Type} (m : M FS Node World α) : Prop := Keeps State.held m

/-- The operations of the filesystems leave the locks of the VFS. -/
structure OpsBalanced (ops : Ops FS Node World) : Prop where
  lookup : ∀ fs path flags, Balanced (ops.lookup fs path flags)
  closeInode : ∀ fs node, Balanced (ops.closeInode fs node)
  mkdir : ∀ fs path, Balanced (ops.mkdir fs path)
  rm : ∀ fs path, Balanced (ops.rm fs path)
  link : ∀ fs oldpath newpath, Balanced (ops.link fs oldpath newpath)
  readdir : ∀ fs path, Balanced (ops.readdir fs path)
  access : ∀ tf flags, Balanced (ops.access tf flags)
  «open» : ∀ tf flags, Balanced (ops.open tf flags)
  close : ∀ tf, Balanced (ops.close tf)
  read : ∀ tf buf nbyte, Balanced (ops.read tf buf nbyte)
  write : ∀ tf buf nbyte, Balanced (ops.write tf buf nbyte)
  lseek : ∀ tf offset whence, Balanced (ops.lseek tf offset whence)

/-- The locks `H` are held. -/
def Holds (H : Finset Lock) (s : State FS Node World) : Prop := s.held = H

/-- The lock `l` is held on top of `H`. -/
def Locked (l : Lock) (H : Finset Lock) (s : State FS Node World) : Prop :=
  l ∉ H ∧ s.held = insert l H

/-! ## Single functions -/

section Functions

variable {α : Type} {l : Lock} {H : Finset Lock} {m : M FS Node World α}

theorem Keeps.holds (h : Balanced m) : Triple (Holds H) m fun _ => Holds H :=
  h.triple (· = H)

theorem Keeps.locked (h : Balanced m) : Triple (Locked l H) m fun _ => Locked l H :=
  h.triple fun held => l ∉ H ∧ held = insert l H

theorem spinLock_spec : Triple (Holds H) (spinLock l : M FS Node World Unit) fun _ => Locked l H := by
  unfold spinLock
  refine Triple.bind (Q := fun held s => s.held = H ∧ held = H) ?_ fun held => ?_
  · exact Triple.gets fun s pre => ⟨pre, pre⟩
  · apply Triple.ite
    · intro _
      exact Triple.throw _
    · intro free
      apply Triple.modify
      rintro s ⟨pre, rfl⟩
      exact ⟨free, congrArg (insert l) pre⟩

theorem spinUnlock_spec :
    Triple (Locked l H) (spinUnlock l : M FS Node World Unit) fun _ => Holds H := by
  unfold spinUnlock
  refine Triple.bind (Q := fun _ => Locked l H) (Triple.gets fun s pre => pre) fun held => ?_
  apply Triple.ite
  · intro _
    apply Triple.modify
    rintro s ⟨free, pre⟩
    show s.held.erase l = H
    rw [pre, Finset.erase_insert free]
  · intro _
    exact Triple.throw _

theorem keeps_mounts_spinLock : Keeps State.mounts (spinLock l : M FS Node World Unit) := by
  unfold spinLock
  exact Keeps.bind (Keeps.gets _) fun held => Keeps.ite (Keeps.throw _) (Keeps.modify fun _ => rfl)

theorem keeps_mounts_spinUnlock : Keeps State.mounts (spinUnlock l : M FS Node World Unit) := by
  unfold spinUnlock
  exact Keeps.bind (Keeps.gets _) fun held => Keeps.ite (Keeps.modify fun _ => rfl) (Keeps.throw _)

theorem keeps_mounts_currentTask : Keeps State.mounts (currentTask : M FS Node World Task) := by
  unfold currentTask
  refine Keeps.bind (Keeps.gets _) fun current => ?_
  cases current with
  | none => exact Keeps.throw _
  | some tk => exact Keeps.pure tk

/-- A function with a lock around it. -/
theorem balanced_section {β : Type} {g : α → β} (h : Balanced m) :
    Balanced (do
      spinLock l
      let a ← m
      spinUnlock l
      pure (g a)) := by
  apply keeps_iff.2
  intro H
  refine Triple.bind (spinLock_spec (H := H)) fun _ => Triple.bind (Keeps.locked h) fun a => ?_
  exact Triple.bind spinUnlock_spec fun _ => Triple.pure fun _ post => post

theorem balanced_assert (p : Prop) [Decidable p] (msg : String) :
    Balanced (assert p msg : M FS Node World Unit) := by
  unfold assert
  exact Keeps.ite (Keeps.pure ()) (Keeps.throw _)

theorem balanced_deref (o : Option α) : Balanced (deref o : M FS Node World α) := by
  cases o with
  | none => exact Keeps.throw _
  | some a => exact Keeps.pure a

theorem balanced_currentTask : Balanced (currentTask : M FS Node World Task) := by
  unfold currentTask
  refine Keeps.bind (Keeps.gets _) fun current => ?_
  cases current with
  | none => exact Keeps.throw _
  | some tk => exact Keeps.pure tk

theorem balanced_fileAt (tf : Nat) : Balanced (fileAt tf : M FS Node World (File Node)) := by
  unfold fileAt
  exact Keeps.bind (Keeps.gets _) fun f => balanced_deref f

theorem balanced_allocFile (node : Node) : Balanced (allocFile node : M FS Node World Nat) := by
  unfold allocFile
  exact Keeps.bind (Keeps.gets _) fun tf =>
    Keeps.bind (Keeps.modify fun _ => rfl) fun _ => Keeps.pure tf

theorem balanced_freeFile (tf : Nat) : Balanced (freeFile tf : M FS Node World Unit) :=
  Keeps.modify fun _ => rfl

theorem balanced_getFile (fd : Int) : Balanced (getFile fd : M FS Node World (Option Nat)) := by
  unfold getFile
  exact Keeps.bind balanced_currentTask fun tk => Keeps.ite (Keeps.pure _) (Keeps.throw _)

theorem balanced_setFilde (fd : Nat) (tf : Option Nat) :
    Balanced (setFilde fd tf : M FS Node World Unit) := by
  unfold setFilde
  exact Keeps.bind balanced_currentTask fun tk => Keeps.modify fun _ => rfl

theorem balanced_mountListFind (path : Option CStr) :
    Balanced (mountListFind path : M FS Node World (Option Nat)) := by
  cases path with
  | none => exact Keeps.pure none
  | some path =>
    unfold mountListFind
    exact balanced_section (g := List.findIdx? _) (Keeps.gets State.mounts)

theorem balanced_mountListReaddir (path : Option CStr) :
    Balanced (mountListReaddir path : M FS Node World (List Item)) := by
  cases path with
  | none => exact Keeps.throw _
  | some path =>
    unfold mountListReaddir
    exact balanced_section (g := List.foldl (listMount path) []) (Keeps.gets State.mounts)

/-- A change of a list under its lock. -/
theorem balanced_update {g : State FS Node World → State FS Node World}
    (same : ∀ s, (g s).held = s.held) :
    Balanced (do spinLock l; modify g; spinUnlock l : M FS Node World Unit) := by
  apply keeps_iff.2
  intro H
  refine Triple.bind (spinLock_spec (H := H)) fun _ => ?_
  exact Triple.bind (Keeps.locked (Keeps.modify same)) fun _ => spinUnlock_spec

theorem balanced_mountListAppend (path : Option CStr) (fs : FS) :
    Balanced (mountListAppend path fs : M FS Node World Unit) := by
  cases path with
  | none => exact Keeps.throw _
  | some path =>
    unfold mountListAppend
    refine Keeps.bind (balanced_mountListFind _) fun cur => ?_
    exact Keeps.bind (balanced_assert _ _) fun _ => balanced_update fun _ => rfl

theorem balanced_mountListRemove (path : Option CStr) :
    Balanced (mountListRemove path : M FS Node World Unit) := by
  cases path with
  | none => exact Keeps.pure ()
  | some path =>
    unfold mountListRemove
    refine Keeps.bind (balanced_mountListFind _) fun cur => ?_
    cases cur with
    | none => exact Keeps.pure ()
    | some cur => exact balanced_update fun _ => rfl

theorem balanced_fileListAppend (tf : Nat) :
    Balanced (fileListAppend tf : M FS Node World Unit) :=
  balanced_update fun _ => rfl

theorem balanced_fileListRemove (tf : Nat) :
    Balanced (fileListRemove tf : M FS Node World Unit) := by
  unfold fileListRemove
  refine Keeps.bind (Keeps.gets _) fun files => ?_
  cases files.findIdx? fun cur => cur = tf with
  | none => exact Keeps.pure ()
  | some cur => exact balanced_update fun _ => rfl

/-- The path of the mount that `get_mount_fs` finds. -/
def mountPath (ops : Ops FS Node World) (mounts : List (Mount FS)) (path : CStr) : Option CStr :=
  (getMountFs (ops.before path) mounts path).1.map Mount.path

/-- `get_mount_fs` reads the mount list. -/
theorem getMountFsLocked_spec (ops : Ops FS Node World) {mounts : List (Mount FS)} (path : CStr) :
    Triple (fun s => s.held = H ∧ s.mounts = mounts) (getMountFsLocked ops (some path))
      fun r s => (s.held = H ∧ s.mounts = mounts) ∧ r.1.map Mount.path = mountPath ops mounts path := by
  intro s r s' pre run
  unfold getMountFsLocked at run
  obtain ⟨_, s1, lock, run⟩ := bind_run_eq_ok.1 run
  obtain ⟨ms, s2, read, run⟩ := bind_run_eq_ok.1 run
  obtain ⟨_, s3, unlock, done⟩ := bind_run_eq_ok.1 run
  cases read
  cases done
  have kept : s1.mounts = s.mounts := keeps_mounts_spinLock s _ s1 lock
  have kept' : s'.mounts = s1.mounts := keeps_mounts_spinUnlock s1 _ s' unlock
  have locked := spinLock_spec s () s1 pre.1 lock
  refine ⟨⟨spinUnlock_spec s1 () s' locked unlock, kept'.trans (kept.trans pre.2)⟩, ?_⟩
  rw [kept, pre.2]
  rfl

theorem balanced_getMountFsLocked (ops : Ops FS Node World) (path : Option CStr) :
    Balanced (getMountFsLocked ops path) := by
  cases path with
  | none => exact Keeps.throw _
  | some path =>
    intro s r s' run
    exact (getMountFsLocked_spec ops path s r s' ⟨rfl, rfl⟩ run).1.1

end Functions

/-! ## The calls -/

section Calls

variable {H : Finset Lock} {ops : Ops FS Node World}

/-- The common end of the calls: `vfs_lock` is released. -/
theorem unlock_return {α : Type} (a : α) :
    Triple (Locked .vfs H) (do spinUnlock .vfs; pure a : M FS Node World α) fun _ => Holds H :=
  Triple.bind spinUnlock_spec fun _ => Triple.pure fun _ post => post

/-- An operation of a filesystem, for which `vfs_lock` is released. -/
theorem around_op {α β : Type} {m : M FS Node World α} {k : α → M FS Node World β}
    {Q : β → State FS Node World → Prop} (h : Balanced m)
    (rest : ∀ a, Triple (Locked .vfs H) (k a) Q) :
    Triple (Locked .vfs H) (do spinUnlock .vfs; let a ← m; spinLock .vfs; k a) Q :=
  Triple.bind spinUnlock_spec fun _ => Triple.bind (Keeps.holds h) fun a =>
    Triple.bind spinLock_spec fun _ => rest a

/-- The start of a call. -/
theorem in_call {α β : Type} {m : M FS Node World α} {k : α → M FS Node World β} (h : Balanced m)
    (rest : ∀ H a, Triple (Locked .vfs H) (k a) fun _ => Holds H) :
    Balanced (do
      let _ ← currentTask
      spinLock .vfs
      let a ← m
      k a) := by
  apply keeps_iff.2
  intro H
  refine Triple.bind (Keeps.holds balanced_currentTask) fun _ => Triple.bind spinLock_spec fun _ => ?_
  exact Triple.bind (Keeps.locked h) fun a => rest H a

theorem balanced_access (h : OpsBalanced ops) (path : Option CStr) (flags : AccessFlag) :
    Balanced (access ops path flags) := by
  unfold access
  refine in_call (balanced_getMountFsLocked ops path) fun H r => ?_
  obtain ⟨mn, subpath⟩ := r
  cases mn with
  | none => exact unlock_return _
  | some mn =>
    refine around_op (h.lookup _ _ _) fun node => ?_
    cases node with
    | none => exact unlock_return _
    | some node =>
      refine Triple.bind (Keeps.locked (balanced_allocFile node)) fun tf => ?_
      refine Triple.bind spinUnlock_spec fun _ => Triple.bind (Keeps.holds (h.access tf flags)) fun res => ?_
      refine Triple.bind (Keeps.holds (h.closeInode _ _)) fun closed => ?_
      refine Triple.bind (Keeps.holds (balanced_assert _ _)) fun _ => ?_
      refine Triple.bind spinLock_spec fun _ => ?_
      exact Triple.bind (Keeps.locked (balanced_freeFile tf)) fun _ => unlock_return res

theorem balanced_mount (path : Option CStr) (fs : Option FS) :
    Balanced (mount path fs : M FS Node World Int) := by
  cases fs with
  | none => exact Keeps.throw _
  | some fs =>
    unfold mount
    apply keeps_iff.2
    intro H
    refine Triple.bind (spinLock_spec (H := H)) fun _ => ?_
    refine Triple.bind (Keeps.locked (balanced_mountListFind path)) fun cur => ?_
    cases cur with
    | none =>
      refine Triple.bind (Keeps.locked (balanced_mountListAppend path fs)) fun _ => ?_
      exact Triple.bind (Keeps.locked (Keeps.pure 0)) fun res => unlock_return res
    | some cur => exact Triple.bind (Keeps.locked (Keeps.pure _)) fun res => unlock_return res

theorem balanced_unmount (path : Option CStr) :
    Balanced (unmount path : M FS Node World Int) := by
  unfold unmount
  apply keeps_iff.2
  intro H
  refine Triple.bind (spinLock_spec (H := H)) fun _ => ?_
  exact Triple.bind (Keeps.locked (balanced_mountListRemove path)) fun _ => unlock_return 0

theorem balanced_onMount {act : FS → CStr → M FS Node World Int}
    (h : ∀ fs path, Balanced (act fs path)) (path : Option CStr) :
    Balanced (onMount ops path act) := by
  unfold onMount
  refine in_call (balanced_getMountFsLocked ops path) fun H r => ?_
  obtain ⟨mn, subpath⟩ := r
  cases mn with
  | none => exact unlock_return _
  | some mn => exact around_op (h _ _) fun res => unlock_return res

theorem balanced_openFile (h : OpsBalanced ops) (node : Node) (tf emptyFd : Nat) (res : Int) :
    Triple (Locked .vfs H) (openFile ops node tf emptyFd res) fun _ => Holds H := by
  unfold openFile
  refine Triple.bind (Keeps.locked (balanced_fileAt tf)) fun f => ?_
  refine Triple.bind (Keeps.locked (Keeps.modify fun _ => rfl)) fun _ => ?_
  dsimp only
  apply Triple.ite
  · intro _
    refine Triple.bind (Keeps.locked (balanced_fileListAppend tf)) fun _ => ?_
    exact Triple.bind (Keeps.locked (balanced_setFilde emptyFd _)) fun _ => unlock_return _
  · intro _
    refine Triple.bind spinUnlock_spec fun _ => ?_
    refine Triple.bind (Keeps.holds (h.closeInode _ _)) fun closed => ?_
    refine Triple.bind (Keeps.holds (balanced_assert _ _)) fun _ => ?_
    refine Triple.bind spinLock_spec fun _ => ?_
    exact Triple.bind (Keeps.locked (balanced_freeFile tf)) fun _ => unlock_return _

theorem balanced_open (h : OpsBalanced ops) (path : Option CStr) (flags : AccessFlag) :
    Balanced (Vfs.open ops path flags) := by
  unfold Vfs.open
  refine in_call balanced_currentTask fun H tk => ?_
  cases findFildeIndex tk with
  | none => exact unlock_return _
  | some emptyFd =>
    refine Triple.bind (Keeps.locked (balanced_getMountFsLocked ops path)) fun r => ?_
    obtain ⟨mn, subpath⟩ := r
    cases mn with
    | none => exact unlock_return _
    | some mn =>
      refine around_op (h.lookup _ _ _) fun node => ?_
      cases node with
      | none => exact unlock_return _
      | some node =>
        refine Triple.bind (Keeps.locked (balanced_allocFile node)) fun tf => ?_
        exact around_op (h.open tf flags) fun res => balanced_openFile h node tf emptyFd res

theorem balanced_onFile {act : Nat → M FS Node World Int} (h : ∀ tf, Balanced (act tf)) (fd : Int) :
    Balanced (onFile fd act : M FS Node World Int) := by
  unfold onFile
  refine in_call (balanced_getFile fd) fun H tf => ?_
  cases tf with
  | none => exact Triple.throw _
  | some tf =>
    refine Triple.bind spinUnlock_spec fun _ => ?_
    refine Triple.bind (Keeps.holds (balanced_fileAt tf)) fun _ => ?_
    refine Triple.bind (Keeps.holds (h tf)) fun res => ?_
    exact Triple.bind spinLock_spec fun _ => unlock_return res

theorem balanced_readdir (h : OpsBalanced ops) (path : Option CStr) :
    Balanced (readdir ops path) := by
  unfold readdir
  refine in_call (balanced_mountListReaddir path) fun H res => ?_
  refine Triple.bind (Keeps.locked (balanced_getMountFsLocked ops path)) fun r => ?_
  obtain ⟨mn, subpath⟩ := r
  cases mn with
  | none => exact unlock_return _
  | some mn => exact around_op (h.readdir _ _) fun subfs => unlock_return _

theorem balanced_close (h : OpsBalanced ops) (fd : Int) : Balanced (close ops fd) := by
  unfold close
  refine in_call (balanced_getFile fd) fun H tf => ?_
  cases tf with
  | none => exact Triple.throw _
  | some tf =>
    refine Triple.bind (Keeps.locked (balanced_fileAt tf)) fun f => ?_
    refine around_op (h.close tf) fun res => ?_
    dsimp only
    apply Triple.ite
    · intro _
      refine Triple.bind spinUnlock_spec fun _ => ?_
      refine Triple.bind (Keeps.holds (balanced_fileAt tf)) fun f' => ?_
      refine Triple.bind (Keeps.holds (h.closeInode _ _)) fun closed => ?_
      refine Triple.bind (Keeps.holds (balanced_assert _ _)) fun _ => ?_
      refine Triple.bind spinLock_spec fun _ => ?_
      refine Triple.bind (Keeps.locked (balanced_fileListRemove tf)) fun _ => ?_
      exact Triple.bind (Keeps.locked (balanced_setFilde _ none)) fun _ => unlock_return res
    · intro _
      exact unlock_return res

/-- A `NULL` path halts `link`. -/
theorem balanced_link_null {oldpath newpath : Option CStr} (null : oldpath = none ∨ newpath = none) :
    Balanced (link ops oldpath newpath) := by
  unfold link
  apply keeps_iff.2
  intro H
  refine Triple.bind (Keeps.holds balanced_currentTask) fun _ => Triple.bind spinLock_spec fun _ => ?_
  obtain rfl | rfl := null
  · exact Triple.bind (Q := fun _ _ => False) (Triple.throw _) fun _ _ _ _ no => no.elim
  · refine Triple.bind (Keeps.locked (balanced_getMountFsLocked ops oldpath)) fun r => ?_
    exact Triple.bind (Q := fun _ _ => False) (Triple.throw _) fun _ _ _ _ no => no.elim

/-- `link` gives `vfs_lock` back if its paths are on one mount, and keeps it if they are not. -/
theorem link_spec (h : OpsBalanced ops) {mounts : List (Mount FS)} (oldpath newpath : CStr) :
    Triple (fun s => s.held = H ∧ s.mounts = mounts) (link ops (some oldpath) (some newpath))
      fun _ s => (mountPath ops mounts oldpath = mountPath ops mounts newpath → Holds H s) ∧
        (mountPath ops mounts oldpath ≠ mountPath ops mounts newpath → Locked .vfs H s) := by
  unfold link
  have start : Triple (fun s => s.held = H ∧ s.mounts = mounts)
      (currentTask : M FS Node World Task) fun _ s => s.held = H ∧ s.mounts = mounts :=
    (Keeps.holds balanced_currentTask).and (keeps_mounts_currentTask.triple (· = mounts))
  have lock : Triple (fun s => s.held = H ∧ s.mounts = mounts)
      (spinLock .vfs : M FS Node World Unit) fun _ s => Locked .vfs H s ∧ s.mounts = mounts :=
    spinLock_spec.and (keeps_mounts_spinLock.triple (· = mounts))
  refine start.bind fun _ => lock.bind fun _ => Triple.of_pre (fun s pre => pre.1.1) fun free => ?_
  have first : Triple (fun s => s.held = insert .vfs H ∧ s.mounts = mounts)
      (getMountFsLocked ops (some oldpath)) _ := getMountFsLocked_spec ops oldpath
  refine Triple.bind (first.conseq (fun s pre => ⟨pre.1.2, pre.2⟩) fun _ _ post => post) fun r => ?_
  refine Triple.of_pre (fun s pre => pre.2) fun found => ?_
  have second : Triple (fun s => s.held = insert .vfs H ∧ s.mounts = mounts)
      (getMountFsLocked ops (some newpath)) _ := getMountFsLocked_spec ops newpath
  refine Triple.bind (second.conseq (fun s pre => pre.1) fun _ _ post => post) fun r' => ?_
  refine Triple.of_pre (fun s pre => pre.2) fun found' => ?_
  obtain ⟨mn, oldSubpath⟩ := r
  obtain ⟨tmn, newSubpath⟩ := r'
  refine Triple.conseq (P := Locked .vfs H) ?_ (fun s pre => ⟨free, pre.1.1⟩) fun _ _ post => post
  dsimp only at found found' ⊢
  rw [← found, ← found']
  apply Triple.ite
  · intro differs
    refine Triple.bind (Keeps.locked (balanced_deref mn)) fun _ => ?_
    refine Triple.bind (Keeps.locked (balanced_deref tmn)) fun _ => ?_
    exact Triple.pure fun s post => ⟨fun same => absurd same differs, fun _ => post⟩
  · intro same
    have returns : ∀ {m : M FS Node World Int}, Triple (Locked .vfs H) m (fun _ => Holds H) →
        Triple (Locked .vfs H) m fun _ s => (mn.map Mount.path = tmn.map Mount.path → Holds H s) ∧
          (mn.map Mount.path ≠ tmn.map Mount.path → Locked .vfs H s) := fun spec =>
      spec.conseq (fun _ pre => pre) fun _ _ post => ⟨fun _ => post, fun differs => absurd differs same⟩
    cases mn with
    | none => exact returns (unlock_return _)
    | some mn => exact returns (around_op (h.link _ _ _) fun res => unlock_return res)

/-- Both paths of a `link` are on one mount, or both on none. -/
def Call.OneMount (ops : Ops FS Node World) (s : State FS Node World) : Call FS → Prop
  | .link (some oldpath) (some newpath) =>
    mountPath ops s.mounts oldpath = mountPath ops s.mounts newpath
  | _ => True

/-- A call that returns holds the locks it was entered with, unless it is a `link` between two
mounts. -/
theorem call_balanced_iff (h : OpsBalanced ops) {c : Call FS} {s s' : State FS Node World} {r : Result}
    (run : c.run ops s = .ok (r, s')) : s'.held = s.held ↔ c.OneMount ops s := by
  have always : ∀ {α : Type} {m : M FS Node World α} {g : α → Result}, Balanced m →
      (g <$> m) s = .ok (r, s') → s'.held = s.held :=
    fun balanced run => balanced.map _ s r s' run
  cases c with
  | access path flags => exact iff_of_true (always (balanced_access h path flags) run) trivial
  | mount path fs => exact iff_of_true (always (balanced_mount path fs) run) trivial
  | unmount path => exact iff_of_true (always (balanced_unmount path) run) trivial
  | mkdir path => exact iff_of_true (always (balanced_onMount h.mkdir path) run) trivial
  | rm path => exact iff_of_true (always (balanced_onMount h.rm path) run) trivial
  | «open» path flags => exact iff_of_true (always (balanced_open h path flags) run) trivial
  | read fd buf nbyte =>
    exact iff_of_true (always (balanced_onFile (fun tf => h.read tf buf nbyte) fd) run) trivial
  | write fd buf nbyte =>
    exact iff_of_true (always (balanced_onFile (fun tf => h.write tf buf nbyte) fd) run) trivial
  | lseek fd offset whence =>
    exact iff_of_true (always (balanced_onFile (fun tf => h.lseek tf offset whence) fd) run) trivial
  | readdir path => exact iff_of_true (always (balanced_readdir h path) run) trivial
  | close fd => exact iff_of_true (always (balanced_close h fd) run) trivial
  | link oldpath newpath =>
    cases oldpath with
    | none => exact iff_of_true (always (balanced_link_null (.inl rfl)) run) trivial
    | some oldpath =>
      cases newpath with
      | none => exact iff_of_true (always (balanced_link_null (.inr rfl)) run) trivial
      | some newpath =>
        obtain ⟨a, run, -⟩ := map_run_eq_ok.1 run
        obtain ⟨gives, keeps⟩ := link_spec h oldpath newpath s a s' ⟨rfl, rfl⟩ run
        constructor
        · intro same
          by_contra differs
          obtain ⟨free, locked⟩ := keeps differs
          rw [same] at locked
          exact free (locked ▸ Finset.mem_insert_self ..)
        · exact gives

end Calls

/-! ## A link between two mounts -/

/-- Operations of filesystems on which nothing is found. -/
def emptyOps : Ops Nat Unit Unit where
  fs _ := 0
  before _ := 0
  lookup _ _ _ := pure none
  closeInode _ _ := pure 0
  mkdir _ _ := pure (-1)
  rm _ _ := pure (-1)
  link _ _ _ := pure (-1)
  readdir _ _ := pure []
  access _ _ := pure (-1)
  «open» _ _ := pure (-1)
  close _ := pure (-1)
  read _ _ _ := pure (-1)
  write _ _ _ := pure (-1)
  lseek _ _ _ := pure (-1)

theorem emptyOps_balanced : OpsBalanced emptyOps :=
  ⟨fun _ _ _ => Keeps.pure _, fun _ _ => Keeps.pure _, fun _ _ => Keeps.pure _,
    fun _ _ => Keeps.pure _, fun _ _ _ => Keeps.pure _, fun _ _ => Keeps.pure _,
    fun _ _ => Keeps.pure _, fun _ _ => Keeps.pure _, fun _ => Keeps.pure _,
    fun _ _ _ => Keeps.pure _, fun _ _ _ => Keeps.pure _, fun _ _ _ => Keeps.pure _⟩

/-- The kernel with the mounts `"/"` and `"/dev"`, and a task without open files. -/
def mounted : State Nat Unit Unit where
  held := ∅
  mounts := [⟨[47], 2⟩, ⟨[47, 100, 101, 118], 1⟩]
  files := []
  file _ := none
  next := 1
  current := some ⟨fun _ => none⟩
  world := ()

/-- `link("/a", "/b")` on the root, where `"/a"` is not found. -/
theorem call_balanced_iff_root :
    ∃ r s', (Call.link (some [47, 97]) (some [47, 98])).run emptyOps mounted = .ok (r, s') ∧
      (s'.held = mounted.held ↔
        (Call.link (some [47, 97]) (some [47, 98])).OneMount emptyOps mounted) :=
  ⟨_, _, rfl, call_balanced_iff emptyOps_balanced rfl⟩

/-- `link("/dev/a", "/b")` returns -1 with `vfs_lock` held, and the next call of the processor
halts. -/
theorem link_keeps_lock :
    ∃ s', (Call.link (some [47, 100, 101, 118, 47, 97]) (some [47, 98])).run emptyOps mounted =
        .ok (.int (-1), s') ∧ s'.held ≠ mounted.held ∧ Lock.vfs ∈ s'.held ∧
      (Call.unmount (some [47])).run emptyOps s' =
        .error (.assert "acquire %s when holding from %s on cpu %d") :=
  ⟨_, rfl, by decide, by decide, rfl⟩

end OsLab.Kernel.Vfs
