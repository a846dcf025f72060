import OsLab.Kernel.Blkfs.Isolation
import OsLab.Kernel.Blkfs.Names

/-!
# Names stay different

`create_filedir` enters no name twice, and a write that is harmless writes no block of a directory. In
every run of such calls the names of a directory are different and short, an empty one by `fs_link`
included: `Run.allNamed`.
-/

namespace OsLab.Kernel.Blkfs

open OsLab.Memory OsLab.Klib Volume

/-- The calls on C strings whose writes do no harm. -/
def CleanCalls (fs : Info) (stale : Nat → Prop) (s : State) (c : Call) : Prop :=
  Harmless fs stale s c ∧ c.Terminated

/-- The names of the directories are different and short. -/
abbrev Distinct (fs : Info) (d : Disk) : Prop := AllNamed (fun _ => True) fs d

section Write

variable {fs : Info} {s s' : State} {stale : Nat → Prop} {i : Nat} {buf : Mem} {size : UInt32}
  {res : Int}

/-- A write leaves the directories and their blocks. -/
theorem write_isDir (sound : Sound fs s stale) (harmless : Harmless fs stale s (.write i buf size))
    (call : exec fs s (.write i buf size) = .ok (res, s')) {m c : Nat}
    (dir : (volume fs s'.disk).IsDir m c) :
    (volume fs s.disk).IsDir m c ∧ dataOf s'.disk c = dataOf s.disk c := by
  cases handle : s.handles[i]? with
  | none =>
    unfold exec at call
    simp only [handle] at call
    cases call
    exact ⟨dir, rfl⟩
  | some f =>
    obtain ⟨d', l⟩ := s'
    obtain ⟨f', run, -⟩ := exec_write_ok handle call
    dsimp only at dir run ⊢
    have sane := sound.handles.sane i f handle
    obtain ⟨-, -, same⟩ | ⟨node, b, k, writable, copy, data, block, slot, id_eq, wrote⟩ :=
      inodeWrite_ok sane run
    · rw [same] at dir ⊢
      exact ⟨dir, rfl⟩
    · have isolated := isolated_of_sound sound harmless call handle copy
      obtain ⟨slotM, type, owns⟩ := isDir_iff.1 dir
      by_cases foreign : Foreign node (stale i) m
      · rw [isolated.slot m slotM foreign] at type owns
        have old := isDir_iff.2 ⟨slotM, type, owns⟩
        have inUse := (volume_used slotM).1 old.used
        have isData := (sound.owned.data old.used old.block).1
        refine ⟨old, ?_⟩
        have kept : d' c = s.disk c := isolated.block m slotM inUse foreign c isData owns
        unfold dataOf
        rw [kept]
      · -- the inode of the handle's own file is no directory
        obtain ⟨own, fresh⟩ := not_or.1 foreign
        obtain ⟨j, live⟩ := sound.handles.live i f node handle copy fresh
        have file := sane.file node copy writable
        have here : m = k := Int.ofNat.inj ((not_not.1 own).symm.trans id_eq)
        cases Int.ofNat.inj (live.id_eq.symm.trans id_eq)
        subst here
        have stored : (inodeOf d' m).type = node.type := by
          cases wrote with
          | inside fits =>
            rw [inodeOf_dataWritten data slot, live.type, volume_inode slot]
          | grown grows =>
            have last : writeEnd f size.toNat ≤ 1024 :=
              writeEnd_le ((sane.offset_le node copy).trans (sane.copy node copy).size_le) _
            have old := (sane.copy node copy).fits
            have fits : ({ node with size := writeEnd f size.toNat } : Inode).Fits :=
              ⟨old.type, old.id, old.blockId, old.refcnt, by dsimp only; omega⟩
            rw [inodeOf_setInode_self fits]
        rw [stored, file] at type
        exact absurd type (by decide)

theorem PathsTerminated.write (h : PathsTerminated s) (sound : Sound fs s stale)
    (call : Blkfs.exec fs s (.write i buf size) = .ok (res, s')) : PathsTerminated s' := by
  cases handle : s.handles[i]? with
  | none =>
    unfold Blkfs.exec at call
    simp only [handle] at call
    cases call
    exact h
  | some f =>
    obtain ⟨d', l⟩ := s'
    obtain ⟨f', run, handles⟩ := exec_write_ok handle call
    dsimp only at run handles
    have path : f'.path = f.path := by
      obtain ⟨-, same, -⟩ | ⟨node, b, k, -, -, -, -, -, -, wrote⟩ :=
        inodeWrite_ok (sound.handles.sane i f handle) run
      · rw [same]
      · cases wrote <;> rfl
    subst handles
    intro g mem
    obtain old | rfl := List.mem_or_eq_of_mem_set mem
    · exact h g old
    · rw [path]
      exact h f (List.mem_of_getElem? handle)

end Write

section Runs

variable {fs : Info} {s s' : State} {hist : List Change} {stale : Nat → Prop} {c : Call} {res : Int}

/-- One call keeps the names different. -/
theorem Distinct.exec (h : Distinct fs s.disk) (sound : Sound fs s stale) (paths : PathsTerminated s)
    (ok : CleanCalls fs stale s c) (call : Blkfs.exec fs s c = .ok (res, s')) :
    Distinct fs s'.disk ∧ PathsTerminated s' := by
  obtain ⟨harmless, terminated⟩ := ok
  have byPath : ¬ c.IsWrite → Distinct fs s'.disk ∧ PathsTerminated s' := by
    intro noWrite
    have ended := notMem_pathGetName (terminated_pathOf paths terminated)
    exact ⟨AllNamed.change h sound.owned (exec_change sound.owned noWrite call) ended fun _ => trivial,
      paths.exec noWrite terminated call⟩
  cases c with
  | write i buf size =>
    refine ⟨fun m b dir => ?_, paths.write sound call⟩
    obtain ⟨old, kept⟩ := write_isDir sound harmless call dir
    exact (h m b old).congr kept
  | mkdir path => exact byPath id
  | rm path => exact byPath id
  | link oldpath newpath => exact byPath id
  | lookup path => exact byPath id
  | «open» i flags => exact byPath id

theorem Run.distinct (run : Run fs (CleanCalls fs) s hist stale) :
    Distinct fs s.disk ∧ PathsTerminated s := by
  induction run with
  | init blank format =>
    exact ⟨(fsInit_fresh blank format).allNamed, fun f mem => absurd mem List.not_mem_nil⟩
  | step run ok call ih =>
    have sound := run.sound fun _ _ _ ok => ok.1
    exact ih.1.exec sound ih.2 ok call

end Runs

end OsLab.Kernel.Blkfs
