import OsLab.Kernel.Blkfs.Creation
import OsLab.Kernel.Blkfs.Handles

/-!
# Isolation between files

A write through a handle changes the block and the slot of the handle's file only, as long as the
file is there. `fs_rm` frees the slot and the block of a file whose handle is still open, and a write
through the stale handle goes on to store into both. `write_isolated` is about the runs in which
such writes do no harm.
-/

namespace OsLab.Kernel.Blkfs

open OsLab.Memory OsLab.Klib Volume

/-- Inode `n` is not the file a handle with the copy `node` was opened on: it is another one, or
the file is gone. -/
def Foreign (node : Inode) (stale : Prop) (n : Nat) : Prop := node.id ≠ n ∨ stale

/-- A write through the copy `node` changes no block of another file or directory, and no slot that
is not the file's. -/
structure Isolated (fs : Info) (d d' : Disk) (node : Inode) (stale : Prop) : Prop where
  block : ∀ n < fs.slots, InUse d n → Foreign node stale n →
    ∀ b : Nat, fs.IsData b → (inodeOf d n).blockId = b → d' b = d b
  slot : ∀ n < fs.slots, Foreign node stale n → inodeOf d' n = inodeOf d n

section Write

variable {fs : Info} {s s' : State} {stale : Nat → Prop} {i : Nat} {f : Handle} {buf : Mem}
  {size : UInt32} {res : Int}

/-- A write call through handle `i`. -/
theorem exec_write_ok (handle : s.handles[i]? = some f)
    (call : exec fs s (.write i buf size) = .ok (res, s')) :
    ∃ f', inodeWrite fs s.disk f buf size.toNat = .ok (res, f', s'.disk) ∧
      s'.handles = s.handles.set i f' := by
  unfold exec at call
  simp only [handle] at call
  obtain ⟨⟨r, f', d⟩, run, done⟩ := bind_eq_ok.1 call
  cases done
  exact ⟨f', run, rfl⟩

theorem isolated_refl (fs : Info) (d : Disk) (node : Inode) (stale : Prop) :
    Isolated fs d d node stale :=
  ⟨fun _ _ _ _ _ _ _ => rfl, fun _ _ _ => rfl⟩

/-- The data of a write reaches one block, and no inode. -/
theorem dataWritten_other {d : Disk} {b c : Nat} (other : c ≠ b) :
    dataWritten d f b buf size.toNat c = d c :=
  patch_other other

theorem inodeOf_dataWritten {d : Disk} {b n : Nat} (data : fs.IsData b) (slot : n < fs.slots) :
    inodeOf (dataWritten d f b buf size.toNat) n = inodeOf d n :=
  inodeOf_patch fun same => absurd same (slot_ne_data slot data)

/-- A write through a live handle leaves the other files. -/
theorem Wrote.isolated {d d' : Disk} {f' : Handle} {node : Inode} {b k : Nat}
    (w : Wrote d f buf size.toNat node b k f' d') (owned : Owned fs (volume fs d))
    (live : Live (volume fs d) node k) (data : fs.IsData b) (block : node.blockId = b) :
    Isolated fs d d' node False := by
  have slot := slot_of_used live.used
  have differs : ∀ {n}, Foreign node False n → n ≠ k := by
    intro n foreign same
    exact (foreign.resolve_right id) (same ▸ live.id_eq)
  have otherBlock : ∀ {n c : Nat}, n < fs.slots → InUse d n → Foreign node False n →
      (inodeOf d n).blockId = c → c ≠ b := by
    rintro n c hn busy foreign owns rfl
    have mine : ((volume fs d).inode n).blockId = c := (congrArg _ (volume_inode hn)).trans owns
    have notMinus : ((volume fs d).inode n).blockId ≠ -1 := by
      rw [mine]
      omega
    apply differs foreign
    apply owned.unique n k ((volume_used hn).2 busy) live.used _ notMinus
    rw [mine, ← block, live.blockId]
  cases w with
  | inside fits =>
    refine ⟨fun n hn busy foreign c _ owns => ?_, fun n hn _ => ?_⟩
    · exact dataWritten_other (otherBlock hn busy foreign owns)
    · exact inodeOf_dataWritten data hn
  | grown grows =>
    refine ⟨fun n hn busy foreign c isData owns => ?_, fun n hn foreign => ?_⟩
    · have table : c ≠ k / inodePerBlock := (slot_ne_data slot isData).symm
      unfold setInode
      rw [patch_other table]
      exact dataWritten_other (otherBlock hn busy foreign owns)
    · rw [inodeOf_setInode_ne (differs foreign)]
      exact inodeOf_dataWritten data hn

/-- A harmless write through a stale handle leaves all files. -/
theorem Wrote.isolated_stale {d d' : Disk} {f' : Handle} {node : Inode} {b k : Nat}
    (w : Wrote d f buf size.toNat node b k f' d') (data : fs.IsData b) (block : node.blockId = b)
    (fits : ¬ Grows f node size.toNat)
    (free : writeCount f.offset size.toNat = 0 ∨
      ∀ n < fs.slots, InUse d n → (inodeOf d n).blockId ≠ node.blockId) :
    Isolated fs d d' node True := by
  cases w with
  | grown grows => exact absurd grows fits
  | inside _ =>
    refine ⟨fun n hn busy _ c _ owns => ?_, fun n hn _ => inodeOf_dataWritten data hn⟩
    obtain none | unowned := free
    · rw [dataWritten_nothing none]
    · have other : c ≠ b := by
        rintro rfl
        exact unowned n hn busy (owns.trans block.symm)
      exact dataWritten_other other

/-- A harmless write through a handle opened on a file leaves what is not the file's. -/
theorem isolated_of_sound {node : Inode} (sound : Sound fs s stale)
    (harmless : Harmless fs stale s (.write i buf size))
    (call : exec fs s (.write i buf size) = .ok (res, s')) (handle : s.handles[i]? = some f)
    (copy : f.ptr = some node) : Isolated fs s.disk s'.disk node (stale i) := by
  have sane := sound.handles.sane i f handle
  obtain ⟨f', write, -⟩ := exec_write_ok handle call
  obtain ⟨-, -, same⟩ | ⟨node', b, k, writable, copy', data, block, slot, id_eq, wrote⟩ :=
    inodeWrite_ok sane write
  · rw [same]
    exact isolated_refl ..
  · cases copy'.symm.trans copy
    by_cases old : stale i
    · obtain ⟨fits, free⟩ := harmless f node handle copy writable old
      rw [eq_true old]
      exact wrote.isolated_stale data block fits free
    · obtain ⟨m, live⟩ := sound.handles.live i f node handle copy old
      have same : m = k := Int.ofNat.inj (live.id_eq.symm.trans id_eq)
      subst same
      rw [eq_false old]
      exact wrote.isolated sound.owned live data block

/-- In a run whose writes through stale handles are harmless, a write through a handle opened on a
file leaves the blocks of all other files and directories and every slot that is not the file's. -/
theorem write_isolated {hist : List Change} {node : Inode}
    (run : Run fs (Harmless fs) s hist stale) (harmless : Harmless fs stale s (.write i buf size))
    (call : exec fs s (.write i buf size) = .ok (res, s')) (handle : s.handles[i]? = some f)
    (copy : f.ptr = some node) : Isolated fs s.disk s'.disk node (stale i) :=
  isolated_of_sound (run.sound fun _ _ _ ok => ok) harmless call handle copy

end Write

/-! ## A write of one byte -/

/-- One byte written through the handle of `"/a"`. -/
def oneByte : Call := .write 0 (fun _ => 7) 1

theorem write_isolated_opened :
    Isolated fourBlocks (madeDisk .file) (after fourBlocks opened oneByte).disk
      (newInode .file 1 2 1) (openedStale 0) := by
  have run : Run fourBlocks (Harmless fourBlocks) opened [.create 1, .idle] openedStale :=
    opened_run (fun _ _ _ => trivial) fun _ _ _ _ => trivial
  have harmless : Harmless fourBlocks openedStale opened oneByte :=
    fun _ _ _ _ _ old => absurd old (not_openedStale 0)
  obtain ⟨res, call⟩ := exec_after fourBlocks opened oneByte (by decide +kernel)
  exact write_isolated run harmless call rfl rfl

/-- `"/a"` is removed while it is open. -/
def removed : State := after fourBlocks opened (.rm [47, 97])

/-- After `"/a"` is removed its slot is free, and a write through its handle fills the slot again. -/
theorem stale_write_not_isolated :
    ∃ hist stale res, Run fourBlocks (fun _ _ _ => True) removed hist stale ∧
      exec fourBlocks removed oneByte = .ok (res, after fourBlocks removed oneByte) ∧
      removed.handles[0]? = some openedHandle ∧ openedHandle.ptr = some (newInode .file 1 2 1) ∧
      ¬ Isolated fourBlocks removed.disk (after fourBlocks removed oneByte).disk
        (newInode .file 1 2 1) (stale 0) := by
  have run : Run fourBlocks (fun _ _ _ => True) opened [.create 1, .idle] openedStale :=
    opened_run (fun _ _ _ => trivial) fun _ _ _ _ => trivial
  obtain ⟨r, remove⟩ :=
    exec_after fourBlocks opened (.rm [47, 97]) (by decide +kernel)
  obtain ⟨res, write⟩ :=
    exec_after fourBlocks removed oneByte (by decide +kernel)
  refine ⟨_, _, res, run.step trivial remove, write, by decide +kernel, rfl, fun isolated => ?_⟩
  have freed : Freed opened.disk removed.disk (newInode .file 1 2 1) :=
    ⟨1, rfl, by decide +kernel, by decide +kernel⟩
  have gone : staleAfter openedStale opened removed 0 := .inr ⟨openedHandle, _, rfl, rfl, freed⟩
  have kept := isolated.slot 1 (by decide) (.inr gone)
  have filled : (inodeOf (after fourBlocks removed oneByte).disk 1).type ≠
      (inodeOf removed.disk 1).type := by decide +kernel
  exact filled (congrArg Inode.type kept)

end OsLab.Kernel.Blkfs
