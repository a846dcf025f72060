import OsLab.Kernel.Blkfs.ByteArray
import OsLab.Kernel.Blkfs.InRange

/-!
# blkfs stays inside its device

The runs of blkfs with the log of their accesses. The invariant of the volume and its handles makes
every access of a run a good one: `accesses_inRange`. The runs may do more than the users of blkfs are
expected to, who neither link nor remove a file while it is open (`Use.run`).
-/

namespace OsLab.Kernel.Blkfs

open OsLab.Memory OsLab.Klib Volume

namespace Traced

/-- The call does not write through a stale handle. -/
def Fresh (stale : Nat → Prop) : Call → Prop
  | .write h _ _ => ¬ stale h
  | _ => True

/-- The runs on a formatted device, with the stale handles and the log of all accesses since
`fs_init`. No file is written through a handle after its inode has been freed. -/
inductive Run (fs : Info) : State → (Nat → Prop) → List Request → Prop
  | init {fullSize : UInt32} {d d' : Disk} {log : List Request} (blank : blockMagic d 0 ≠ magic)
      (format : fsInit fullSize (d, []) = .ok (fs, (d', log))) : Run fs ⟨d', []⟩ (fun _ => False) log
  | call {s s' : State} {stale : Nat → Prop} {log log' : List Request} {c : Call} {res : Int}
      (run : Run fs s stale log) (fresh : Fresh stale c)
      (call : exec fs c (s, log) = .ok (res, (s', log'))) : Run fs s' (staleAfter stale s s') log'
  | file {s s' : State} {stale : Nat → Prop} {log log' : List Request} {h : Nat} {c : FileCall}
      {out : Output} (run : Run fs s stale log) (fresh : c.IsWrite → ¬ stale h)
      (call : fileCall fs h c (s, log) = .ok (out, (s', log'))) :
      Run fs s' (staleAfter stale s s') log'
  | readdir {s s' : State} {stale : Nat → Prop} {log log' : List Request} {path : CStr}
      {items : List Item} (run : Run fs s stale log)
      (call : onDisk (fsReaddir fs path) (s, log) = .ok (items, (s', log'))) :
      Run fs s' stale log'

/-- What the users of blkfs keep to: a handle is not used once it is closed, and a file is neither
linked nor removed while a handle to it is not closed. -/
structure Allowed (fs : Info) (closed : Nat → Prop) (s : State) (c : Call) (res : Int) : Prop where
  through : ∀ i, c.Through i → ¬ closed i
  untouched : ∀ n k : Nat, changed fs s c res = .link n k ∨ changed fs s c res = .remove k →
    ∀ (i : Nat) (f : Handle) (node : Inode), s.handles[i]? = some f → f.ptr = some node →
      node.id = k → closed i

/-- The runs of such users, with the handles they have closed. -/
inductive Use (fs : Info) : State → (Nat → Prop) → List Request → Prop
  | init {fullSize : UInt32} {d d' : Disk} {log : List Request} (blank : blockMagic d 0 ≠ magic)
      (format : fsInit fullSize (d, []) = .ok (fs, (d', log))) : Use fs ⟨d', []⟩ (fun _ => False) log
  | call {s s' : State} {closed : Nat → Prop} {log log' : List Request} {c : Call} {res : Int}
      (run : Use fs s closed log) (allowed : Allowed fs closed s c res)
      (call : exec fs c (s, log) = .ok (res, (s', log'))) : Use fs s' closed log'
  | file {s s' : State} {closed : Nat → Prop} {log log' : List Request} {h : Nat} {c : FileCall}
      {out : Output} (run : Use fs s closed log) (opened : ¬ closed h)
      (call : fileCall fs h c (s, log) = .ok (out, (s', log'))) : Use fs s' closed log'
  | readdir {s s' : State} {closed : Nat → Prop} {log log' : List Request} {path : CStr}
      {items : List Item} (run : Use fs s closed log)
      (call : onDisk (fsReaddir fs path) (s, log) = .ok (items, (s', log'))) : Use fs s' closed log'
  | close {s : State} {closed : Nat → Prop} {log : List Request} (run : Use fs s closed log)
      (h : Nat) : Use fs s (fun i => closed i ∨ i = h) log

end Traced

section Calls

variable {fs : Info} {s : State} {stale : Nat → Prop}

theorem onDisk_traces {α : Type} {m : Traced α} {r : Except Halt (α × Disk)}
    (h : Does fs m s.disk r) :
    Traces (InRange fs) (Traced.onDisk m) s (fun p => p)
      (r >>= fun p => .ok (p.1, { s with disk := p.2 })) :=
  Traces.map (Traces.within h)

theorem setHandle_traces {α ρ : Type} {h : Nat} {f : Handle} {m : Unit → Logged State Request Halt α}
    {view : ρ → α × State} {r : Except Halt ρ}
    (rest : Traces (InRange fs) (m ()) { s with handles := s.handles.set h f } view r) :
    Traces (InRange fs) (Traced.setHandle h f >>= m) s view r :=
  ⟨rest.fails, rest.returns⟩

theorem exec_traces {c : Call} (sound : Sound fs s stale) :
    Traces (InRange fs) (Traced.exec fs c) s (fun p => p) (exec fs s c) := by
  have owned := sound.owned
  cases c with
  | mkdir path => exact onDisk_traces (fsMkdir_traces owned)
  | rm path => exact onDisk_traces (fsRm_traces owned)
  | link oldpath newpath => exact onDisk_traces (fsLink_traces owned)
  | lookup path =>
    apply (Traces.within (fsLookup_traces owned)).bind
    intro f _
    apply Traces.read
    apply Traces.write
    exact Traces.ret rfl
  | «open» h flags =>
    unfold Traced.exec exec
    apply Traces.read
    dsimp only
    cases s.handles[h]? with
    | none => exact Traces.ret rfl
    | some f =>
      apply (Traces.within (inodeOpen_traces owned)).bind
      rintro ⟨res, f', d'⟩ _
      apply setHandle_traces
      exact Traces.ret rfl
  | write h buf size =>
    unfold Traced.exec exec
    apply Traces.read
    dsimp only
    cases handle : s.handles[h]? with
    | none => exact Traces.ret rfl
    | some f =>
      apply (Traces.within (inodeWrite_traces (sound.handles.sane h f handle))).bind
      rintro ⟨res, f', d'⟩ _
      apply setHandle_traces
      exact Traces.ret rfl

theorem fileCall_traces {h : Nat} {c : FileCall} (sound : Sound fs s stale) :
    Traces (InRange fs) (Traced.fileCall fs h c) s (fun p => p) (fileCall fs s h c) := by
  cases c with
  | read size =>
    unfold Traced.fileCall fileCall
    apply Traces.read
    dsimp only
    cases handle : s.handles[h]? with
    | none => exact Traces.ret rfl
    | some f =>
      apply (Traces.within (inodeRead_traces (sound.handles.sane h f handle))).bind
      rintro ⟨res, bs, f'⟩ _
      apply setHandle_traces
      exact Traces.ret rfl
  | write buf size =>
    apply (exec_traces sound).bind
    rintro ⟨res, s'⟩ _
    exact Traces.ret rfl
  | lseek offset =>
    unfold Traced.fileCall fileCall
    apply Traces.read
    dsimp only
    cases s.handles[h]? with
    | none => exact Traces.ret rfl
    | some f =>
      apply setHandle_traces
      exact Traces.ret rfl

/-- `fs_init`, which also works out the geometry. -/
theorem fsInit_traces {fullSize : UInt32} {d : Disk} :
    Traces (fun a => ∀ room, InRange ⟨fullSize, room⟩ a) (Traced.fsInit fullSize) d (fun p => p)
      (fsInit fullSize d) := by
  by_cases room : inodeBlocks (fullSize.toNat / blockSize) < fullSize.toNat / blockSize
  · have traces : Traces (InRange ⟨fullSize, room⟩) (Traced.fsInit fullSize) d (fun p => p)
        (fsInit fullSize d) := by
      unfold Traced.fsInit fsInit
      apply Traces.assert
      intro _
      rw [dif_pos room, dif_pos room]
      apply blockCheck_traces.bind
      intro res _
      dsimp only
      apply Traces.ite
      · intro _
        apply (forBlocks_traces fun _ _ _ => checkBlock_traces).bind
        intro d' _
        exact Traces.ret rfl
      · intro _
        apply format_traces.bind
        intro d' _
        exact Traces.ret rfl
    exact traces.mono fun a inside _ => inside
  · unfold Traced.fsInit fsInit
    apply (Traces.lift _).bind
    intro _ _
    rw [dif_neg room, dif_neg room]
    exact Traces.fail _

end Calls

/-! ## Every access of a run is in range -/

section Runs

variable {fs : Info} {s : State} {stale : Nat → Prop} {log : List Request}

theorem harmless_of_fresh {c : Call} (fresh : Traced.Fresh stale c) : Harmless fs stale s c := by
  by_cases isWrite : c.IsWrite
  · obtain ⟨h, buf, size, rfl⟩ := isWrite.eq
    exact fun f node _ _ _ old => absurd old fresh
  · exact harmless_of_noWrite isWrite

theorem inRange_append {new : List Request} (before : ∀ a ∈ log, InRange fs a)
    (inside : ∀ a ∈ new, InRange fs a) : ∀ a ∈ new ++ log, InRange fs a := by
  intro a mem
  obtain later | earlier := List.mem_append.1 mem
  · exact inside a later
  · exact before a earlier

/-- The invariant of the volume and its handles, and the accesses so far. -/
theorem Traced.Run.sound (run : Traced.Run fs s stale log) :
    Sound fs s stale ∧ ∀ a ∈ log, InRange fs a := by
  induction run with
  | @init fullSize d d' log blank format =>
    obtain ⟨p, init, rfl, new, logged, inside⟩ := fsInit_traces.run format
    rw [List.append_nil] at logged
    subst logged
    have same := fsInit_fullSize init
    refine ⟨sound_fresh blank init, fun a mem => ?_⟩
    cases fs
    subst same
    exact inside a mem _
  | call run fresh call ih =>
    obtain ⟨sound, before⟩ := ih
    obtain ⟨p, plain, rfl, new, rfl, inside⟩ := (exec_traces sound).run call
    exact ⟨sound.exec (harmless_of_fresh fresh) plain, inRange_append before inside⟩
  | file run fresh call ih =>
    obtain ⟨sound, before⟩ := ih
    obtain ⟨p, plain, rfl, new, rfl, inside⟩ := (fileCall_traces sound).run call
    refine ⟨sound.fileCall (fun buf size eq => ?_) plain, inRange_append before inside⟩
    subst eq
    exact harmless_of_fresh (fresh trivial)
  | readdir run call ih =>
    obtain ⟨sound, before⟩ := ih
    obtain ⟨p, -, same, new, rfl, inside⟩ := (Traces.within (fsReaddir_traces sound.owned)).run call
    cases same
    exact ⟨sound, inRange_append before inside⟩

/-- Every range that is passed to the device lies on it, at its exact position, and every index lies
in the table. -/
theorem accesses_inRange (run : Traced.Run fs s stale log) : ∀ a ∈ log, InRange fs a :=
  run.sound.2

/-! ## Handles that are not closed are not stale -/

/-- Only a removal takes an inode out of use. -/
theorem step_frees {v v' : Volume} {change : Change} {k : Nat} (step : Step fs v change v')
    (used : v.Used k) (gone : ¬ v'.Used k) : change = .remove k := by
  have stays : ∀ {m node}, k ≠ m → (v.setInode m node).Used k := by
    intro m node other
    unfold Used
    rw [setInode_ne other]
    exact used
  cases step with
  | idle => exact absurd used gone
  | create dir place free slot empty kind block => exact absurd ((add_used_iff kind).2 (.inr used)) gone
  | @link n b i m dir place free usedM =>
    by_cases here : k = m
    · subst here
      apply absurd _ gone
      show ((v.recount k 1).inode k).type ≠ InodeType.empty.code
      rw [recount, setInode_self]
      exact used
    · exact absurd (stays here) gone
  | @unlink n b i m dir place named usedM more =>
    by_cases here : k = m
    · rw [here]
    · exact absurd (stays here) gone
  | @drop n b i m c dir place named usedM last block =>
    by_cases here : k = m
    · rw [here]
    · exact absurd (remove_used_iff.2 ⟨used, here⟩) gone

/-- A write through a handle that is not stale keeps every inode in use. -/
theorem write_used {s' : State} {i k : Nat} {buf : Mem} {size : UInt32} {res : Int}
    (sound : Sound fs s stale) (fresh : ¬ stale i)
    (call : exec fs s (.write i buf size) = .ok (res, s')) :
    (volume fs s'.disk).Used k ↔ (volume fs s.disk).Used k := by
  cases handle : s.handles[i]? with
  | none =>
    unfold exec at call
    simp only [handle] at call
    cases call
    exact Iff.rfl
  | some f =>
    have sane := sound.handles.sane i f handle
    obtain ⟨f', write, -⟩ := exec_write_ok handle call
    obtain ⟨-, -, same⟩ | ⟨node, b, k', -, copy, data, -, slot, id_eq, wrote⟩ :=
      inodeWrite_ok sane write
    · rw [same]
    · have ok := sane.copy node copy
      have last := writeEnd_le ((sane.offset_le node copy).trans ok.size_le) size.toNat
      obtain ⟨m, live⟩ := sound.handles.live i f node handle copy fresh
      have here : m = k' := Int.ofNat.inj (live.id_eq.symm.trans id_eq)
      subst here
      exact (wrote.kept data slot ok last fun _ => live).2 k

/-- A call frees the inode of no handle that is not closed. -/
theorem closed_of_freed {s' : State} {closed : Nat → Prop} {c : Call} {res : Int}
    (sound : Sound fs s stale) (old : ∀ i, stale i → closed i)
    (allowed : Traced.Allowed fs closed s c res) (call : exec fs s c = .ok (res, s')) :
    ∀ i, staleAfter stale s s' i → closed i := by
  rintro i (before | ⟨f, node, handle, copy, k, id_eq, busy, gone⟩)
  · exact old i before
  · obtain ⟨k', slot, id_eq'⟩ := ((sound.handles.sane i f handle).copy node copy).slot
    have same : k' = k := Int.ofNat.inj (id_eq'.symm.trans id_eq)
    subst same
    have used := (volume_used slot).2 busy
    have unused : ¬ (volume fs s'.disk).Used k' := fun still => gone ((volume_used slot).1 still)
    by_cases isWrite : c.IsWrite
    · obtain ⟨h, buf, size, rfl⟩ := isWrite.eq
      have fresh : ¬ stale h := fun before => allowed.through h rfl (old h before)
      exact absurd ((write_used sound fresh call).2 used) unused
    · have removed := step_frees (exec_step sound.owned isWrite call) used unused
      exact allowed.untouched 0 k' (.inr removed) i f node handle copy id_eq

/-- A write to an open file is allowed. -/
theorem allowed_write {closed : Nat → Prop} {h : Nat} {buf : Mem} {size : UInt32} {res : Int}
    (opened : ¬ closed h) : Traced.Allowed fs closed s (.write h buf size) res := by
  refine ⟨fun i through => ?_, fun n k changes => ?_⟩
  · have here : h = i := through
    exact here ▸ opened
  · have idle : changed fs s (.write h buf size) res = .idle := by simp [changed, changeOf]
    rw [idle] at changes
    obtain linked | removed := changes <;> contradiction

/-- The users of blkfs write through no stale handle. -/
theorem Traced.Use.run {closed : Nat → Prop} (use : Traced.Use fs s closed log) :
    ∃ stale, Traced.Run fs s stale log ∧ ∀ i, stale i → closed i := by
  induction use with
  | init blank format => exact ⟨_, .init blank format, fun _ => False.elim⟩
  | @call s s' closed log log' c res use allowed call ih =>
    obtain ⟨stale, run, old⟩ := ih
    have sound := run.sound.1
    have fresh : Traced.Fresh stale c := by
      cases c with
      | write h buf size => exact fun before => allowed.through h rfl (old h before)
      | mkdir => trivial
      | rm => trivial
      | link => trivial
      | lookup => trivial
      | «open» => trivial
    obtain ⟨p, plain, rfl, -⟩ := (exec_traces sound).run call
    exact ⟨_, run.call fresh call, closed_of_freed sound old allowed plain⟩
  | @file s s' closed log log' h c out use opened call ih =>
    obtain ⟨stale, run, old⟩ := ih
    have sound := run.sound.1
    have fresh : ¬ stale h := fun before => opened (old h before)
    obtain ⟨p, plain, rfl, -⟩ := (fileCall_traces sound).run call
    refine ⟨_, run.file (fun _ => fresh) call, ?_⟩
    by_cases isWrite : c.IsWrite
    · obtain ⟨buf, size, rfl⟩ := isWrite.eq
      obtain ⟨⟨r, s1⟩, write, done⟩ := bind_eq_ok.1 plain
      cases done
      exact closed_of_freed sound old (allowed_write opened) write
    · have same : s'.disk = s.disk := by
        obtain rfl | ⟨f, o, -, -, rfl⟩ := fileCall_moves sound isWrite plain
        · rfl
        · rfl
      rintro i (before | ⟨f, node, -, -, k, -, busy, gone⟩)
      · exact old i before
      · rw [same] at gone
        contradiction
  | readdir use call ih =>
    obtain ⟨stale, run, old⟩ := ih
    exact ⟨stale, run.readdir call, old⟩
  | close use h ih =>
    obtain ⟨stale, run, old⟩ := ih
    exact ⟨stale, run, fun i before => .inl (old i before)⟩

/-- A call that returns is a call of the run with its log. -/
theorem exists_tracedCall {s' : State} {c : Call} {res : Int} (run : Traced.Run fs s stale log)
    (fresh : Traced.Fresh stale c) (call : exec fs s c = .ok (res, s')) :
    ∃ new, Traced.Run fs s' (staleAfter stale s s') (new ++ log) ∧
      Traced.exec fs c (s, []) = .ok (res, (s', new)) := by
  obtain ⟨new, -, same⟩ := (exec_traces run.sound.1).returns _ call
  refine ⟨new, run.call fresh (same log), ?_⟩
  have alone := same []
  rwa [List.append_nil] at alone

/-- The log stops no run. -/
theorem exists_tracedRun {hist : List Change}
    (run : Run fs (fun stale _ c => Traced.Fresh stale c) s hist stale) :
    ∃ log, Traced.Run fs s stale log := by
  induction run with
  | init blank format =>
    obtain ⟨new, -, same⟩ := fsInit_traces.returns _ format
    exact ⟨_, .init blank (same [])⟩
  | step run fresh call ih =>
    obtain ⟨log, traced⟩ := ih
    obtain ⟨new, traced', -⟩ := exists_tracedCall traced fresh call
    exact ⟨_, traced'⟩

/-- The first byte written to `"/a"` is the ninth of block 2. -/
theorem accesses_inRange_opened :
    ∃ s stale log, Traced.Run fourBlocks s stale log ∧ .range 2072 1 2 8 ∈ log ∧
      ∀ a ∈ log, InRange fourBlocks a := by
  have plain : Run fourBlocks (fun stale _ c => Traced.Fresh stale c) opened [.create 1, .idle]
      openedStale := opened_run (fun _ _ _ => trivial) fun _ _ _ _ => trivial
  obtain ⟨log, run⟩ := exists_tracedRun plain
  obtain ⟨res, write⟩ := exec_after fourBlocks opened oneByte (by decide +kernel)
  have fresh : Traced.Fresh openedStale oneByte := not_openedStale 0
  obtain ⟨new, run', logged⟩ := exists_tracedCall run fresh write
  have written : (Traced.exec fourBlocks oneByte (opened, [])).map
      (fun p => decide (.range 2072 1 2 8 ∈ p.2.2)) = .ok true := by decide +kernel
  rw [logged] at written
  have mem : .range 2072 1 2 8 ∈ new := of_decide_eq_true (Except.ok.inj written)
  exact ⟨_, _, _, run', List.mem_append_left log mem, accesses_inRange run'⟩

end Runs

end OsLab.Kernel.Blkfs
