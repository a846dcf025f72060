import OsLab.Kernel.Vfs.Model

/-!
# What the VFS leaves to the filesystems (`vfs/vfs.c`)

The calls of the VFS change its own lists; the world behind them is changed by the operations of the filesystems only. A part
of the world that the operations leave alone is left alone by the calls.
-/

namespace OsLab.Kernel.Vfs

open OsLab.Klib OsLab.Triples
open OsLab.Kernel.Blkfs (AccessFlag Item)

variable {FS Node World τ : Type}

/-- A part of the world. -/
def OfWorld (f : State FS Node World → τ) : Prop := ∀ s s', s.world = s'.world → f s = f s'

section Keeps

variable {f : State FS Node World → τ} {ops : Ops FS Node World} {α β : Type} {m : M FS Node World α}
  {k : α → M FS Node World β}

theorem keeps_deref (x : Option α) : Keeps f (deref x) := by
  cases x with
  | none => exact Keeps.throw _
  | some a => exact Keeps.pure a

theorem keeps_assert (p : Prop) [Decidable p] (msg : String) : Keeps f (assert p msg) :=
  Keeps.ite (Keeps.pure _) (Keeps.throw _)

theorem keeps_fileAt (tf : Nat) : Keeps f (fileAt tf) := Keeps.bind (Keeps.gets _) fun _ => keeps_deref _

theorem keeps_currentTask : Keeps f currentTask := by
  refine Keeps.bind (Keeps.gets _) fun tk => ?_
  cases tk with
  | none => exact Keeps.throw _
  | some tk => exact Keeps.pure _

theorem keeps_getFile (fd : Int) : Keeps f (getFile fd) :=
  Keeps.bind keeps_currentTask fun _ => Keeps.ite (Keeps.pure _) (Keeps.throw _)

namespace OfWorld

/-! ## The lists -/

theorem spinLock (part : OfWorld f) (l : Lock) : Keeps f (Vfs.spinLock l) :=
  Keeps.bind (Keeps.gets _) fun _ => Keeps.ite (Keeps.throw _) (Keeps.modify fun _ => part _ _ rfl)

theorem spinUnlock (part : OfWorld f) (l : Lock) : Keeps f (Vfs.spinUnlock l) :=
  Keeps.bind (Keeps.gets _) fun _ => Keeps.ite (Keeps.modify fun _ => part _ _ rfl) (Keeps.throw _)

/-- The end of a call. -/
theorem unlocked (part : OfWorld f) (l : Lock) (a : α) : Keeps f (Vfs.spinUnlock l >>= fun _ => pure a) :=
  Keeps.bind (part.spinUnlock l) fun _ => Keeps.pure a

/-- The beginning of a call. -/
theorem locked (part : OfWorld f) (rest : Keeps f m) :
    Keeps f (Vfs.currentTask >>= fun _ => Vfs.spinLock .vfs >>= fun _ => m) :=
  Keeps.bind keeps_currentTask fun _ => Keeps.bind (part.spinLock _) fun _ => rest

/-- The operations of the filesystems run without the lock. -/
theorem outside (part : OfWorld f) (act : Keeps f m) (rest : ∀ a, Keeps f (k a)) :
    Keeps f (Vfs.spinUnlock .vfs >>= fun _ => m >>= fun a => Vfs.spinLock .vfs >>= fun _ => k a) :=
  Keeps.bind (part.spinUnlock _) fun _ => Keeps.bind act fun a => Keeps.bind (part.spinLock _) fun _ => rest a

theorem allocFile (part : OfWorld f) (node : Node) : Keeps f (Vfs.allocFile node) :=
  Keeps.bind (Keeps.gets _) fun _ => Keeps.bind (Keeps.modify fun _ => part _ _ rfl) fun _ => Keeps.pure _

theorem freeFile (part : OfWorld f) (tf : Nat) : Keeps f (Vfs.freeFile tf) := Keeps.modify fun _ => part _ _ rfl

theorem setFilde (part : OfWorld f) (fd : Nat) (tf : Option Nat) : Keeps f (Vfs.setFilde fd tf) :=
  Keeps.bind keeps_currentTask fun _ => Keeps.modify fun _ => part _ _ rfl

theorem fileListAppend (part : OfWorld f) (tf : Nat) : Keeps f (Vfs.fileListAppend tf) :=
  Keeps.bind (part.spinLock _) fun _ => Keeps.bind (Keeps.modify fun _ => part _ _ rfl) fun _ => part.spinUnlock _

theorem fileListRemove (part : OfWorld f) (tf : Nat) : Keeps f (Vfs.fileListRemove tf) := by
  refine Keeps.bind (Keeps.gets _) fun files => ?_
  cases files.findIdx? fun cur => cur = tf with
  | none => exact Keeps.pure _
  | some cur =>
    exact Keeps.bind (part.spinLock _) fun _ => Keeps.bind (Keeps.modify fun _ => part _ _ rfl) fun _ => part.spinUnlock _

theorem getMountFsLocked (part : OfWorld f) (path : Option CStr) : Keeps f (Vfs.getMountFsLocked ops path) := by
  cases path with
  | none => exact Keeps.throw _
  | some path =>
    refine Keeps.bind (part.spinLock _) fun _ => Keeps.bind (Keeps.gets _) fun mounts => ?_
    exact part.unlocked _ _

theorem mountListReaddir (part : OfWorld f) (path : Option CStr) :
    Keeps f (Vfs.mountListReaddir path : M FS Node World (List Item)) := by
  cases path with
  | none => exact Keeps.throw _
  | some path =>
    refine Keeps.bind (part.spinLock _) fun _ => Keeps.bind (Keeps.gets _) fun mounts => ?_
    exact part.unlocked _ _

/-! ## The calls -/

theorem access (part : OfWorld f) (lookup : ∀ fs path flags, Keeps f (ops.lookup fs path flags))
    (closeInode : ∀ fs node, Keeps f (ops.closeInode fs node)) (access : ∀ tf flags, Keeps f (ops.access tf flags))
    (path : Option CStr) (flags : AccessFlag) : Keeps f (Vfs.access ops path flags) := by
  refine part.locked (Keeps.bind (part.getMountFsLocked _) fun ⟨mn, sub⟩ => ?_)
  cases mn with
  | none => exact part.unlocked _ _
  | some mn =>
    refine part.outside (lookup _ _ _) fun node => ?_
    cases node with
    | none => exact part.unlocked _ _
    | some node =>
      refine Keeps.bind (part.allocFile _) fun tf => Keeps.bind (part.spinUnlock _) fun _ => ?_
      refine Keeps.bind (access _ _) fun res => Keeps.bind (closeInode _ _) fun closed => ?_
      refine Keeps.bind (keeps_assert _ _) fun _ => Keeps.bind (part.spinLock _) fun _ => ?_
      exact Keeps.bind (part.freeFile _) fun _ => part.unlocked _ _

theorem onMount (part : OfWorld f) {act : FS → CStr → M FS Node World Int} (acts : ∀ fs path, Keeps f (act fs path))
    (path : Option CStr) : Keeps f (Vfs.onMount ops path act) := by
  refine part.locked (Keeps.bind (part.getMountFsLocked _) fun ⟨mn, sub⟩ => ?_)
  cases mn with
  | none => exact part.unlocked _ _
  | some mn =>
    exact part.outside (acts _ _) fun res => part.unlocked _ _

theorem link (part : OfWorld f) (link : ∀ fs oldpath newpath, Keeps f (ops.link fs oldpath newpath))
    (oldpath newpath : Option CStr) : Keeps f (Vfs.link ops oldpath newpath) := by
  refine part.locked (Keeps.bind (part.getMountFsLocked _) fun ⟨mn, old⟩ => ?_)
  refine Keeps.bind (part.getMountFsLocked _) fun ⟨tmn, new⟩ => Keeps.ite ?_ ?_
  · exact Keeps.bind (keeps_deref _) fun _ => Keeps.bind (keeps_deref _) fun _ => Keeps.pure _
  · cases mn with
    | none => exact part.unlocked _ _
    | some mn =>
      exact part.outside (link _ _ _) fun res => part.unlocked _ _

theorem readdir (part : OfWorld f) (readdir : ∀ fs path, Keeps f (ops.readdir fs path)) (path : Option CStr) :
    Keeps f (Vfs.readdir ops path) := by
  refine part.locked (Keeps.bind (part.mountListReaddir _) fun res => ?_)
  refine Keeps.bind (part.getMountFsLocked _) fun ⟨mn, sub⟩ => ?_
  cases mn with
  | none => exact part.unlocked _ _
  | some mn =>
    exact part.outside (readdir _ _) fun subfs => part.unlocked _ _

theorem openFile (part : OfWorld f) (closeInode : ∀ fs node, Keeps f (ops.closeInode fs node)) (node : Node) (tf emptyFd : Nat)
    (res : Int) : Keeps f (Vfs.openFile ops node tf emptyFd res) := by
  refine Keeps.bind (keeps_fileAt _) fun file => Keeps.bind (Keeps.modify fun _ => part _ _ rfl) fun _ => Keeps.ite ?_ ?_
  · refine Keeps.bind (part.fileListAppend _) fun _ => Keeps.bind (part.setFilde _ _) fun _ => ?_
    exact part.unlocked _ _
  · refine Keeps.bind (part.spinUnlock _) fun _ => Keeps.bind (closeInode _ _) fun closed => ?_
    refine Keeps.bind (keeps_assert _ _) fun _ => Keeps.bind (part.spinLock _) fun _ => ?_
    exact Keeps.bind (part.freeFile _) fun _ => part.unlocked _ _

theorem «open» (part : OfWorld f) (lookup : ∀ fs path flags, Keeps f (ops.lookup fs path flags))
    (closeInode : ∀ fs node, Keeps f (ops.closeInode fs node)) («open» : ∀ tf flags, Keeps f (ops.open tf flags))
    (path : Option CStr) (flags : AccessFlag) : Keeps f (Vfs.open ops path flags) := by
  refine part.locked (Keeps.bind keeps_currentTask fun tk => ?_)
  cases findFildeIndex tk with
  | none => exact part.unlocked _ _
  | some emptyFd =>
    refine Keeps.bind (part.getMountFsLocked _) fun ⟨mn, sub⟩ => ?_
    cases mn with
    | none => exact part.unlocked _ _
    | some mn =>
      refine part.outside (lookup _ _ _) fun node => ?_
      cases node with
      | none => exact part.unlocked _ _
      | some node =>
        refine Keeps.bind (part.allocFile _) fun tf => part.outside («open» _ _) fun res => ?_
        exact part.openFile closeInode _ _ _ _

theorem onFile (part : OfWorld f) {act : Nat → M FS Node World Int} (acts : ∀ tf, Keeps f (act tf)) (fd : Int) :
    Keeps f (Vfs.onFile fd act) := by
  refine part.locked (Keeps.bind (keeps_getFile _) fun tf => ?_)
  cases tf with
  | none => exact Keeps.throw _
  | some tf =>
    refine Keeps.bind (part.spinUnlock _) fun _ => Keeps.bind (keeps_fileAt _) fun _ => Keeps.bind (acts _) fun res => ?_
    exact Keeps.bind (part.spinLock _) fun _ => part.unlocked _ _

theorem close (part : OfWorld f) (closeInode : ∀ fs node, Keeps f (ops.closeInode fs node)) (close : ∀ tf, Keeps f (ops.close tf))
    (fd : Int) : Keeps f (Vfs.close ops fd) := by
  refine part.locked (Keeps.bind (keeps_getFile _) fun tf => ?_)
  cases tf with
  | none => exact Keeps.throw _
  | some tf =>
    refine Keeps.bind (keeps_fileAt _) fun file => part.outside (close _) fun res => ?_
    refine Keeps.ite ?_ (part.unlocked _ _)
    refine Keeps.bind (part.spinUnlock _) fun _ => Keeps.bind (keeps_fileAt _) fun file' => ?_
    refine Keeps.bind (closeInode _ _) fun closed => Keeps.bind (keeps_assert _ _) fun _ => ?_
    refine Keeps.bind (part.spinLock _) fun _ => Keeps.bind (part.fileListRemove _) fun _ => ?_
    exact Keeps.bind (part.setFilde _ _) fun _ => part.unlocked _ _

end OfWorld

end Keeps

end OsLab.Kernel.Vfs
