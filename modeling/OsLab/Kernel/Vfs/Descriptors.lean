import OsLab.Kernel.Vfs.Stages
import OsLab.Kernel.Vfs.Quiet

/-!
# Descriptors and open files

The entries of all tables of descriptors are different files, and the file list has exactly these
(`Agree`). A call changes the list and the table of its task in one step at most, the last one, in
which both are changed together (`Agree.install`, `Agree.remove`). Between its stages a call of
`open` owns the `file` it has allocated, which no other call knows of (`Sound.pending`).
-/

namespace OsLab.Kernel.Vfs

open OsLab.Klib OsLab.Triples
open OsLab.Kernel.Blkfs (AccessFlag)

/-! ## Tables and the list -/

section Tables

variable {Tid : Type} {files : List Nat} {task : Tid → Task} {t : Tid} {fd tf : Nat}

/-- The file of a descriptor of a task. -/
def Entry (task : Tid → Task) (t : Tid) (fd tf : Nat) : Prop := fd < nFile ∧ (task t).fildes fd = some tf

/-- The entries of all tables are different, and the list has each of them once and nothing else. -/
structure Agree (files : List Nat) (task : Tid → Task) : Prop where
  distinct : ∀ t fd t' fd' tf, Entry task t fd tf → Entry task t' fd' tf → t = t' ∧ fd = fd'
  listed : ∀ tf, tf ∈ files ↔ ∃ t fd, Entry task t fd tf
  once : files.Nodup

/-- The first descriptor of a table that is free. -/
def LowestFree (tk : Task) (fd : Nat) : Prop := fd < nFile ∧ tk.fildes fd = none ∧ ∀ i < fd, tk.fildes i ≠ none

theorem findFildeIndex_lowest {tk : Task} (found : findFildeIndex tk = some fd) : LowestFree tk fd := by
  obtain ⟨free, before, after, split, taken⟩ := List.find?_eq_some_iff_append.1 found
  have inside : fd < nFile := List.mem_range.1 (List.mem_of_find?_eq_some found)
  refine ⟨inside, Option.isNone_iff_eq_none.1 free, fun i small none => ?_⟩
  have length : before.length = fd := by
    have here := congrArg (fun l => l[before.length]?) split
    rw [List.getElem?_append_right (Nat.le_refl _), Nat.sub_self, List.getElem?_cons_zero] at here
    obtain ⟨bound, value⟩ := List.getElem?_eq_some_iff.1 here
    rw [List.getElem_range] at value
    exact value
  have member : i ∈ before := by
    have early : (before ++ fd :: after)[i]? = some i := by
      rw [← split, List.getElem?_range (small.trans inside)]
    rw [List.getElem?_append_left (by omega)] at early
    exact List.mem_of_getElem? early
  have full := taken i member
  rw [none] at full
  cases full

section Updates

variable [DecidableEq Tid]

/-- The table of a task with another file of a descriptor. -/
def withFilde (task : Tid → Task) (t : Tid) (fd : Nat) (tf : Option Nat) : Tid → Task :=
  Function.update task t ⟨Function.update (task t).fildes fd tf⟩

theorem withFilde_entry {tf' : Option Nat} {t' : Tid} {fd' : Nat} (inside : fd < nFile) :
    Entry (withFilde task t fd tf') t' fd' tf ↔ if t' = t ∧ fd' = fd then tf' = some tf else Entry task t' fd' tf := by
  unfold Entry withFilde
  rcases eq_or_ne t' t with rfl | other
  · rw [Function.update_self]
    rcases eq_or_ne fd' fd with rfl | other
    · rw [if_pos ⟨rfl, rfl⟩]
      show fd' < nFile ∧ Function.update (task t').fildes fd' tf' fd' = some tf ↔ _
      rw [Function.update_self]
      exact and_iff_right inside
    · rw [if_neg fun both => other both.2]
      show fd' < nFile ∧ Function.update (task t').fildes fd tf' fd' = some tf ↔ _
      rw [Function.update_of_ne other]
  · rw [Function.update_of_ne other, if_neg fun both => other both.1]

/-- A new file gets a free descriptor. -/
theorem Agree.install (h : Agree files task) (inside : fd < nFile) (free : (task t).fildes fd = none) (new : tf ∉ files) :
    Agree (tf :: files) (withFilde task t fd (some tf)) where
  distinct t₁ fd₁ t₂ fd₂ tf' first second := by
    rw [withFilde_entry inside] at first second
    have unused : ∀ t fd, ¬ Entry task t fd tf := fun t fd entry => new ((h.listed tf).2 ⟨t, fd, entry⟩)
    split at first
    · split at second
      · rename_i here there
        exact ⟨here.1.trans there.1.symm, here.2.trans there.2.symm⟩
      · exact absurd (Option.some.inj first ▸ second) (unused _ _)
    · split at second
      · exact absurd (Option.some.inj second ▸ first) (unused _ _)
      · exact h.distinct _ _ _ _ _ first second
  listed tf' := by
    rw [List.mem_cons, h.listed tf']
    constructor
    · rintro (rfl | ⟨t', fd', entry⟩)
      · exact ⟨t, fd, (withFilde_entry inside).2 (by rw [if_pos ⟨rfl, rfl⟩])⟩
      · refine ⟨t', fd', (withFilde_entry inside).2 ?_⟩
        rw [if_neg]
        · exact entry
        · rintro ⟨rfl, rfl⟩
          rw [entry.2] at free
          cases free
    · rintro ⟨t', fd', entry⟩
      rw [withFilde_entry inside] at entry
      split at entry
      · exact Or.inl (Option.some.inj entry).symm
      · exact Or.inr ⟨t', fd', entry⟩
  once := List.nodup_cons.2 ⟨new, h.once⟩

/-- A file is taken out of the list and its descriptor becomes free. -/
theorem Agree.remove (h : Agree files task) (entry : Entry task t fd tf) :
    Agree (files.erase tf) (withFilde task t fd none) where
  distinct t₁ fd₁ t₂ fd₂ tf' first second := by
    rw [withFilde_entry entry.1] at first second
    split at first
    · cases first
    · split at second
      · cases second
      · exact h.distinct _ _ _ _ _ first second
  listed tf' := by
    rw [h.once.mem_erase_iff, h.listed tf']
    constructor
    · rintro ⟨other, t', fd', entry'⟩
      refine ⟨t', fd', (withFilde_entry entry.1).2 ?_⟩
      rw [if_neg]
      · exact entry'
      · rintro ⟨rfl, rfl⟩
        exact other (Option.some.inj (entry'.2.symm.trans entry.2))
    · rintro ⟨t', fd', entry'⟩
      rw [withFilde_entry entry.1] at entry'
      split at entry'
      · cases entry'
      · rename_i elsewhere
        refine ⟨?_, t', fd', entry'⟩
        rintro rfl
        exact elsewhere (h.distinct _ _ _ _ _ entry' entry)
  once := h.once.erase tf

end Updates

end Tables

/-! ## One stage -/

section Stages

variable {FS Node World : Type} {ops : Ops FS Node World} {s s' : State FS Node World} {tk : Task} {st : Stage FS Node}

/-- The file list, the current task and which addresses are free. -/
def shape (s : State FS Node World) : List Nat × Option Task × (Nat → Prop) :=
  (s.files, s.current, fun a => s.file a = none)

/-- The operations of the filesystems leave the file list and the tables, and allocate and free no `file`. -/
structure OpsLeave (ops : Ops FS Node World) : Prop where
  lookup : ∀ fs path flags, Keeps shape (ops.lookup fs path flags)
  closeInode : ∀ fs node, Keeps shape (ops.closeInode fs node)
  «open» : ∀ tf flags, Keeps shape (ops.open tf flags)
  close : ∀ tf, Keeps shape (ops.close tf)

theorem openBegin_spec {path : Option CStr} {flags : AccessFlag} (quiet : Quiet s tk)
    (run : Stage.openBegin ops path flags s = .ok (st, s')) :
    s' = s ∧ (st = .done (-1) ∨ ∃ fd mn sub, st = .openLookup fd mn sub flags ∧ LowestFree tk fd) := by
  unfold Stage.openBegin at run
  rw [run_bind quiet.current, run_bind quiet.lock, run_bind quiet.current_locked] at run
  cases room : findFildeIndex tk with
  | none =>
    rw [room] at run
    dsimp only at run
    rw [run_bind quiet.unlock] at run
    cases run
    exact ⟨rfl, Or.inl rfl⟩
  | some fd =>
    rw [room] at run
    cases path with
    | none => cases run
    | some path =>
      dsimp only at run
      rw [run_bind (quiet.mount ops path)] at run
      cases mount : (mountOf ops s path).1 with
      | none =>
        rw [mount] at run
        dsimp only at run
        rw [run_bind quiet.unlock] at run
        cases run
        exact ⟨rfl, Or.inl rfl⟩
      | some mn =>
        rw [mount] at run
        dsimp only at run
        rw [run_bind quiet.unlock] at run
        cases run
        exact ⟨rfl, Or.inr ⟨fd, mn, _, rfl, findFildeIndex_lowest room⟩⟩

theorem makeFile_spec {emptyFd : Nat} {node : Option Node} {flags : AccessFlag} (quiet : Quiet s tk)
    (run : Stage.makeFile emptyFd node flags s = .ok (st, s')) :
    st = .done (-1) ∧ s' = s ∨ ∃ node', st = .openInode emptyFd node' s.next flags ∧ s' = s.alloc node' := by
  unfold Stage.makeFile at run
  rw [run_bind quiet.lock] at run
  cases node with
  | none =>
    dsimp only at run
    rw [run_bind quiet.unlock] at run
    cases run
    exact Or.inl ⟨rfl, rfl⟩
  | some node =>
    have quiet' : Quiet (s.alloc node) tk := ⟨quiet.held, quiet.task⟩
    have allocated : allocFile node (s.locked .vfs) = .ok (s.next, (s.alloc node).locked .vfs) := rfl
    dsimp only at run
    rw [run_bind allocated, run_bind quiet'.unlock] at run
    cases run
    exact Or.inr ⟨node, rfl, rfl⟩

/-- Which addresses are free does not depend on what the `file`s have in them. -/
theorem shape_file {tf : Nat} {f f' : File Node} (file : s.file tf = some f) :
    shape { s with file := Function.update s.file tf (some f') } = shape s := by
  have same : (fun a => Function.update s.file tf (some f') a = none) = fun a => s.file a = none := by
    funext a
    rcases eq_or_ne a tf with rfl | other
    · rw [Function.update_self, file]
      exact propext (iff_of_false nofun nofun)
    · rw [Function.update_of_ne other]
  exact congrArg (fun free => (s.files, s.current, free)) same

theorem installFile_spec {emptyFd tf : Nat} {node : Node} {res : Int} (quiet : Quiet s tk)
    (run : Stage.installFile emptyFd node tf res s = .ok (st, s')) :
    st = .done emptyFd ∧ (∃ f, s.file tf = some f ∧ s' = s.opened tk emptyFd tf f) ∨
      st = .openUndo node tf ∧ shape s' = shape s := by
  unfold Stage.installFile at run
  rw [run_bind quiet.lock] at run
  obtain ⟨f, s₁, read, -⟩ := bind_run_eq_ok.1 run
  have file : s.file tf = some f := fileAt_ok (s := s.locked .vfs) read
  have found : fileAt tf (s.locked .vfs) = .ok (f, s.locked .vfs) := fileAt_run file
  let s2 : State FS Node World := { s with file := Function.update s.file tf (some { f with refcnt := 0 }) }
  have quiet2 : Quiet s2 tk := ⟨quiet.held, quiet.task⟩
  rw [run_bind found, run_bind (run_modify _)] at run
  change (if res = 0 then _ else _ : M FS Node World (Stage FS Node)) (s2.locked .vfs) = _ at run
  rcases eq_or_ne res 0 with rfl | failed
  · let s3 : State FS Node World := { s2 with files := tf :: s.files }
    have quiet3 : Quiet (s.opened tk emptyFd tf f) ⟨Function.update tk.fildes emptyFd (some tf)⟩ := ⟨quiet.held, rfl⟩
    have appended : fileListAppend tf (s2.locked .vfs) = .ok ((), s3.locked .vfs) := fileListAppend_run (quiet.inner nofun)
    have task : (s3.locked .vfs).current = some tk := quiet.task
    have set : setFilde emptyFd (some tf) (s3.locked .vfs) = .ok ((), (s.opened tk emptyFd tf f).locked .vfs) :=
      setFilde_run task
    rw [if_pos rfl, run_bind appended, run_bind set, run_bind quiet3.unlock] at run
    obtain ⟨stage, state⟩ := Prod.mk.inj (Except.ok.inj run)
    exact Or.inl ⟨stage.symm, f, file, state.symm⟩
  · rw [if_neg failed, run_bind quiet2.unlock] at run
    obtain ⟨stage, state⟩ := Prod.mk.inj (Except.ok.inj run)
    rw [← stage, ← state]
    exact Or.inr ⟨rfl, shape_file file⟩

theorem closeBegin_spec {fd : Int} (quiet : Quiet s tk) (has : HasOpen tk fd)
    (run : Stage.closeBegin ops fd s = .ok (st, s')) :
    s' = s ∧ ∃ fs tf, st = .closeInode fd fs tf ∧ tk.fildes fd.toNat = some tf := by
  obtain ⟨nonneg, small, -⟩ := has
  obtain ⟨n, rfl⟩ := Int.eq_ofNat_of_zero_le nonneg
  unfold Stage.closeBegin at run
  rw [run_bind quiet.current, run_bind quiet.lock, run_bind (quiet.getFile (Int.ofNat_lt.1 small))] at run
  cases filde : tk.fildes n with
  | none =>
    rw [filde] at run
    cases run
  | some tf =>
    rw [filde] at run
    dsimp only at run
    obtain ⟨f, s₁, read, -⟩ := bind_run_eq_ok.1 run
    have file : s.file tf = some f := fileAt_ok (s := s.locked .vfs) read
    have found : fileAt tf (s.locked .vfs) = .ok (f, s.locked .vfs) := fileAt_run file
    rw [run_bind found, run_bind quiet.unlock] at run
    cases run
    exact ⟨rfl, _, tf, rfl, filde⟩

theorem closeRemove_spec {fd : Int} {tf : Nat} (quiet : Quiet s tk)
    (run : Stage.next ops (.closeRemove fd tf) s = .ok (st, s')) :
    st = .done 0 ∧ s' = { s with
      files := s.files.erase tf, current := some ⟨Function.update tk.fildes fd.toNat none⟩ } := by
  let s2 : State FS Node World := { s with files := s.files.erase tf }
  let s3 : State FS Node World := { s2 with current := some ⟨Function.update tk.fildes fd.toNat none⟩ }
  have removed : fileListRemove tf (s.locked .vfs) = .ok ((), s2.locked .vfs) := fileListRemove_erase (quiet.inner nofun)
  have task : (s2.locked .vfs).current = some tk := quiet.task
  have set : setFilde fd.toNat none (s2.locked .vfs) = .ok ((), s3.locked .vfs) := setFilde_run task
  have quiet3 : Quiet s3 ⟨Function.update tk.fildes fd.toNat none⟩ := ⟨quiet.held, rfl⟩
  rw [Stage.next] at run
  rw [run_bind quiet.lock, run_bind removed, run_bind set, run_bind quiet3.unlock] at run
  obtain ⟨stage, state⟩ := Prod.mk.inj (Except.ok.inj run)
  exact ⟨stage.symm, state.symm⟩

theorem openFree_spec {tf : Nat} (quiet : Quiet s tk) (run : Stage.next ops (.openFree tf) s = .ok (st, s')) :
    st = .done (-1) ∧ s' = { s with file := Function.update s.file tf none } := by
  let s2 : State FS Node World := { s with file := Function.update s.file tf none }
  have quiet2 : Quiet s2 tk := ⟨quiet.held, quiet.task⟩
  have freed : freeFile tf (s.locked .vfs) = .ok ((), s2.locked .vfs) := rfl
  rw [Stage.next] at run
  rw [run_bind quiet.lock, run_bind freed, run_bind quiet2.unlock] at run
  obtain ⟨stage, state⟩ := Prod.mk.inj (Except.ok.inj run)
  exact ⟨stage.symm, state.symm⟩

theorem closed_spec {fd res : Int} {fs : FS} {tf : Nat} (quiet : Quiet s tk)
    (run : Stage.next ops (.closed fd fs tf res) s = .ok (st, s')) :
    s' = s ∧ st = if res = 0 then .closeNode fd fs tf else .done res := by
  rw [Stage.next] at run
  rw [run_bind quiet.lock, run_bind quiet.unlock] at run
  cases run
  exact ⟨rfl, rfl⟩

end Stages

/-! ## All tasks -/

/-- The steps of a call changed neither the list nor the table. -/
def Still (steps : List Change) : Prop := ∀ ch ∈ steps, ch.files' = ch.files ∧ ch.task' = ch.task

/-- What a call that returns `res` has done. -/
def Returned {FS : Type} : Call FS → Int → List Change → Prop
  | .open _ _, res, steps => res = -1 ∧ Still steps ∨ ∃ (fd tf : Nat) (ch : Change) (rest : List Change),
    steps = ch :: rest ∧ Still rest ∧ res = fd ∧ LowestFree ch.task fd ∧ tf ∉ ch.files ∧
      ch.files' = tf :: ch.files ∧ ch.task' = ⟨Function.update ch.task.fildes fd (some tf)⟩
  | .close fd, res, steps => res ≠ 0 ∧ Still steps ∨ res = 0 ∧ ∃ (tf : Nat) (ch : Change) (rest : List Change),
    steps = ch :: rest ∧ Still rest ∧ ch.task.fildes fd.toNat = some tf ∧
      ch.files' = ch.files.erase tf ∧ ch.task' = ⟨Function.update ch.task.fildes fd.toNat none⟩
  | _, _, _ => False

/-- The file that a call has allocated and not yet installed. -/
def Stage.pending {FS Node : Type} : Stage FS Node → Option Nat
  | .openInode _ _ tf _ | .opened _ _ tf _ | .openUndo _ tf | .openFree tf => some tf
  | _ => none

/-- A call of `open`. -/
def Call.IsOpen {FS : Type} (call : Call FS) : Prop := ∃ path flags, call = .open path flags

/-- What is known of a call of a task with the table `tk`. -/
def StageOk {FS Node : Type} (tk : Task) (r : Running FS Node) : Prop :=
  match r.stage with
  | .open _ _ | .openUndo _ _ | .openFree _ => r.call.IsOpen ∧ Still r.steps
  | .openLookup emptyFd _ _ _ | .openAlloc emptyFd _ _ | .openInode emptyFd _ _ _ | .opened emptyFd _ _ _ =>
    r.call.IsOpen ∧ Still r.steps ∧ LowestFree tk emptyFd
  | .close fd => r.call = .close fd ∧ Still r.steps ∧ HasOpen tk fd
  | .closeInode fd _ tf | .closed fd _ tf _ | .closeNode fd _ tf | .closeRemove fd tf =>
    r.call = .close fd ∧ Still r.steps ∧ fd.toNat < nFile ∧ tk.fildes fd.toNat = some tf
  | .done res => Returned r.call res r.steps

section Sound

variable {Tid FS Node World : Type} [DecidableEq Tid] {ops : Ops FS Node World} {c c' : Config Tid FS Node World} {t : Tid}
  {r : Running FS Node} {st : Stage FS Node} {s' : State FS Node World}

/-- Tables and list agree, and each call knows its own file, if it has one. -/
structure Sound (c : Config Tid FS Node World) : Prop where
  agree : Agree c.state.files c.task
  live : ∀ tf ∈ c.state.files, c.state.file tf ≠ none
  pending : ∀ t r tf, c.running t = some r → r.stage.pending = some tf → c.state.file tf ≠ none ∧ tf ∉ c.state.files
  apart : ∀ t t' r r' tf, c.running t = some r → c.running t' = some r' →
    r.stage.pending = some tf → r'.stage.pending = some tf → t = t'
  stage : ∀ t r, c.running t = some r → StageOk (c.task t) r

theorem Still.cons {steps : List Change} {ch : Change} (h : Still steps) (files : ch.files' = ch.files)
    (task : ch.task' = ch.task) : Still (ch :: steps) := List.forall_mem_cons.2 ⟨⟨files, task⟩, h⟩

/-- A step of a task keeps all invariants if it keeps what concerns the task. -/
theorem Sound.after {tk : Task} (h : Sound c) (running : c.running t = some r) (current : s'.current = some tk)
    (agree : Agree s'.files (Function.update c.task t tk)) (live : ∀ tf ∈ s'.files, s'.file tf ≠ none)
    (others : ∀ tf, r.stage.pending ≠ some tf → c.state.file tf ≠ none → tf ∉ c.state.files →
      s'.file tf ≠ none ∧ tf ∉ s'.files)
    (own : ∀ tf, st.pending = some tf → s'.file tf ≠ none ∧ tf ∉ s'.files ∧
      (r.stage.pending = some tf ∨ c.state.file tf = none))
    (stage : StageOk tk ⟨r.call, st, ⟨c.state.files, c.task t, s'.files, tk⟩ :: r.steps⟩) :
    Sound (c.after t r st s') := by
  have table : s'.current.getD (c.task t) = tk := by
    rw [current]
    rfl
  have after : c.after t r st s' = ⟨s', Function.update c.task t tk, Function.update c.running t
      (some ⟨r.call, st, ⟨c.state.files, c.task t, s'.files, tk⟩ :: r.steps⟩)⟩ := by
    unfold Config.after
    rw [table]
  rw [after]
  have foreign : ∀ t' r', t' ≠ t → c.running t' = some r' → ∀ tf, r'.stage.pending = some tf → r.stage.pending ≠ some tf := by
    intro t' r' other running' tf pending' pending
    exact other (h.apart t' t r' r tf running' running pending' pending)
  refine ⟨agree, live, ?_, ?_, ?_⟩
  · intro t' r' tf running' pending'
    dsimp only at running' ⊢
    rcases eq_or_ne t' t with rfl | other
    · rw [Function.update_self] at running'
      obtain rfl := Option.some.inj running'
      exact ⟨(own tf pending').1, (own tf pending').2.1⟩
    · rw [Function.update_of_ne other] at running'
      obtain ⟨there, unlisted⟩ := h.pending t' r' tf running' pending'
      exact others tf (foreign t' r' other running' tf pending') there unlisted
  · have mine : ∀ t' r' tf, t' ≠ t → c.running t' = some r' → r'.stage.pending = some tf → st.pending ≠ some tf := by
      intro t' r' tf other running' pending' pending
      rcases (own tf pending).2.2 with old | new
      · exact foreign t' r' other running' tf pending' old
      · exact (h.pending t' r' tf running' pending').1 new
    intro t₁ t₂ r₁ r₂ tf running₁ running₂ pending₁ pending₂
    dsimp only at running₁ running₂
    by_cases here₁ : t₁ = t
    · by_cases here₂ : t₂ = t
      · exact here₁.trans here₂.symm
      · rw [here₁, Function.update_self] at running₁
        rw [Function.update_of_ne here₂] at running₂
        obtain rfl := Option.some.inj running₁
        exact absurd pending₁ (mine t₂ r₂ tf here₂ running₂ pending₂)
    · rw [Function.update_of_ne here₁] at running₁
      by_cases here₂ : t₂ = t
      · rw [here₂, Function.update_self] at running₂
        obtain rfl := Option.some.inj running₂
        exact absurd pending₂ (mine t₁ r₁ tf here₁ running₁ pending₁)
      · rw [Function.update_of_ne here₂] at running₂
        exact h.apart t₁ t₂ r₁ r₂ tf running₁ running₂ pending₁ pending₂
  · intro t' r' running'
    dsimp only at running' ⊢
    rcases eq_or_ne t' t with rfl | other
    · rw [Function.update_self] at running' ⊢
      obtain rfl := Option.some.inj running'
      exact stage
    · rw [Function.update_of_ne other] at running' ⊢
      exact h.stage t' r' running'

/-- A stage that changes neither the list nor the table, and allocates and frees nothing. -/
theorem Sound.still {a : Nat} (h : Sound c) (running : c.running t = some r) (same : shape s' = shape (c.view t a))
    (own : st.pending = none ∨ st.pending = r.stage.pending)
    (stage : Still (⟨c.state.files, c.task t, c.state.files, c.task t⟩ :: r.steps) →
      StageOk (c.task t) ⟨r.call, st, ⟨c.state.files, c.task t, c.state.files, c.task t⟩ :: r.steps⟩)
    (still : Still r.steps) : Sound (c.after t r st s') := by
  obtain ⟨files, rest⟩ := Prod.mk.inj same
  obtain ⟨current, free⟩ := Prod.mk.inj rest
  have files' : s'.files = c.state.files := files
  have file : ∀ tf, s'.file tf = none ↔ c.state.file tf = none := fun tf => iff_of_eq (congrFun free tf)
  apply h.after running current
  · rw [files', Function.update_eq_self]
    exact h.agree
  · intro tf member none
    rw [files'] at member
    exact h.live tf member ((file tf).1 none)
  · intro tf _ there unlisted
    rw [files']
    exact ⟨fun none => there ((file tf).1 none), unlisted⟩
  · intro tf pending
    rcases own with nothing | same
    · rw [nothing] at pending
      cases pending
    · have mine : r.stage.pending = some tf := same.symm.trans pending
      obtain ⟨there, unlisted⟩ := h.pending t r tf running mine
      rw [files']
      exact ⟨fun none => there ((file tf).1 none), unlisted, Or.inl mine⟩
  · rw [files']
    exact stage (still.cons rfl rfl)

/-- The end of a call of `open` that has a file. -/
theorem Sound.installed {a emptyFd tf : Nat} {f : File Node} (h : Sound c) (running : c.running t = some r)
    (mine : r.stage.pending = some tf) (isOpen : r.call.IsOpen) (still : Still r.steps) (lowest : LowestFree (c.task t) emptyFd)
    (state : s' = (c.view t a).opened (c.task t) emptyFd tf f) : Sound (c.after t r (.done emptyFd) s') := by
  subst state
  obtain ⟨there, unlisted⟩ := h.pending t r tf running mine
  have kept : ∀ tf', c.state.file tf' ≠ none → ((c.view t a).opened (c.task t) emptyFd tf f).file tf' ≠ none := by
    intro tf' there' gone
    change Function.update c.state.file tf _ tf' = none at gone
    rcases eq_or_ne tf' tf with rfl | other
    · rw [Function.update_self] at gone
      cases gone
    · rw [Function.update_of_ne other] at gone
      exact there' gone
  have current : ((c.view t a).opened (c.task t) emptyFd tf f).current =
    some ⟨Function.update (c.task t).fildes emptyFd (some tf)⟩ := rfl
  apply h.after running current
  · exact h.agree.install lowest.1 lowest.2.1 unlisted
  · intro tf' member
    rcases List.mem_cons.1 member with rfl | old
    · exact kept _ there
    · exact kept tf' (h.live tf' old)
  · intro tf' other there' unlisted'
    refine ⟨kept tf' there', fun member => ?_⟩
    rcases List.mem_cons.1 member with rfl | old
    · exact other mine
    · exact unlisted' old
  · intro tf' pending
    cases pending
  · obtain ⟨path, flags, call⟩ := isOpen
    unfold StageOk
    dsimp only
    rw [call]
    exact Or.inr ⟨emptyFd, tf, _, _, rfl, still, rfl, lowest, unlisted, rfl, rfl⟩

/-- The end of a call of `close` that its filesystem has closed. -/
theorem Sound.removed {a tf : Nat} {fd : Int} (h : Sound c) (running : c.running t = some r)
    (call : r.call = .close fd) (still : Still r.steps) (inside : fd.toNat < nFile)
    (filde : (c.task t).fildes fd.toNat = some tf)
    (state : s' = { c.view t a with
      files := c.state.files.erase tf, current := some ⟨Function.update (c.task t).fildes fd.toNat none⟩ }) :
    Sound (c.after t r (.done 0) s') := by
  have current : s'.current = some ⟨Function.update (c.task t).fildes fd.toNat none⟩ := by
    rw [state]
  subst state
  apply h.after running current
  · exact h.agree.remove ⟨inside, filde⟩
  · exact fun tf' member => h.live tf' (List.mem_of_mem_erase member)
  · exact fun tf' _ there unlisted => ⟨there, fun member => unlisted (List.mem_of_mem_erase member)⟩
  · intro tf' pending
    cases pending
  · unfold StageOk
    dsimp only
    rw [call]
    exact Or.inr ⟨rfl, tf, _, _, rfl, still, filde, rfl, rfl⟩

theorem Call.IsOpen.failed {tk : Task} {call : Call FS} {steps : List Change} (isOpen : call.IsOpen) (still : Still steps) :
    StageOk tk (⟨call, .done (-1), steps⟩ : Running FS Node) := by
  obtain ⟨path, flags, rfl⟩ := isOpen
  exact Or.inl ⟨rfl, still⟩

/-- A call of `open` allocates its file. -/
theorem Sound.allocated {a : Nat} {node : Node} (h : Sound c) (running : c.running t = some r) (free : c.state.file a = none)
    (mine : st.pending = some a)
    (stage : StageOk (c.task t) ⟨r.call, st, ⟨c.state.files, c.task t, c.state.files, c.task t⟩ :: r.steps⟩) :
    Sound (c.after t r st ((c.view t a).alloc node)) := by
  have kept : ∀ tf, c.state.file tf ≠ none → ((c.view t a).alloc node).file tf ≠ none := by
    intro tf there gone
    have other : tf ≠ a := by
      rintro rfl
      exact there free
    change Function.update c.state.file a _ tf = none at gone
    rw [Function.update_of_ne other] at gone
    exact there gone
  have current : ((c.view t a).alloc node).current = some (c.task t) := rfl
  apply h.after running current
  · rw [Function.update_eq_self]
    exact h.agree
  · exact fun tf member => kept tf (h.live tf member)
  · exact fun tf _ there unlisted => ⟨kept tf there, unlisted⟩
  · intro tf pending
    obtain rfl := Option.some.inj (mine.symm.trans pending)
    refine ⟨fun gone => ?_, fun member => h.live a member free, Or.inr free⟩
    change Function.update c.state.file a _ a = none at gone
    rw [Function.update_self] at gone
    cases gone
  · exact stage

/-- A call of `open` that failed frees its file. -/
theorem Sound.freed {a tf : Nat} (h : Sound c) (running : c.running t = some r) (mine : r.stage.pending = some tf)
    (state : s' = { c.view t a with file := Function.update c.state.file tf none })
    (stage : StageOk (c.task t) ⟨r.call, st, ⟨c.state.files, c.task t, c.state.files, c.task t⟩ :: r.steps⟩)
    (settled : st.pending = none) : Sound (c.after t r st s') := by
  have current : s'.current = some (c.task t) := by
    rw [state]
    rfl
  subst state
  obtain ⟨-, unlisted⟩ := h.pending t r tf running mine
  have kept : ∀ tf', tf' ≠ tf → c.state.file tf' ≠ none → Function.update c.state.file tf none tf' ≠ none := by
    intro tf' other there
    rw [Function.update_of_ne other]
    exact there
  apply h.after running current
  · rw [Function.update_eq_self]
    exact h.agree
  · exact fun tf' member => kept tf' (ne_of_mem_of_not_mem member unlisted) (h.live tf' member)
  · refine fun tf' other there unlisted' => ⟨kept tf' ?_ there, unlisted'⟩
    rintro rfl
    exact other mine
  · intro tf' pending
    rw [settled] at pending
    cases pending
  · exact stage

theorem fileAt_same {s s₁ : State FS Node World} {tf : Nat} {f : File Node} (read : fileAt tf s = .ok (f, s₁)) : s₁ = s := by
  rw [fileAt_run (fileAt_ok read)] at read
  exact (Prod.mk.inj (Except.ok.inj read)).2.symm

/-- What follows an assertion. -/
theorem assert_then {p : Prop} [Decidable p] {msg : String} {s s₁ : State FS Node World} {st₁ : Stage FS Node}
    (run : (do
      assert p msg
      pure st₁ : M FS Node World (Stage FS Node)) s = .ok (st, s₁)) : st = st₁ ∧ s₁ = s := by
  obtain ⟨u, s₂, holds, rest⟩ := bind_run_eq_ok.1 run
  unfold assert at holds
  split at holds
  · cases holds
    cases rest
    exact ⟨rfl, rfl⟩
  · cases holds

/-- The next stage of a call. -/
theorem Sound.next {a : Nat} (leave : OpsLeave ops) (h : Sound c) (running : c.running t = some r) (free : c.state.file a = none)
    (run : r.stage.next ops (c.view t a) = .ok (st, s')) : Sound (c.after t r st s') := by
  have quiet : Quiet (c.view t a) (c.task t) := ⟨rfl, rfl⟩
  have ok := h.stage t r running
  unfold StageOk at ok
  cases stage : r.stage with
  | «open» path flags =>
    rw [stage] at run ok
    obtain ⟨⟨path', flags', call⟩, still⟩ := ok
    obtain ⟨rfl, rfl | ⟨fd, mn, sub, rfl, lowest⟩⟩ := openBegin_spec quiet run
    · refine h.still running rfl (Or.inl rfl) (fun now => ?_) still
      unfold StageOk
      dsimp only
      rw [call]
      exact Or.inl ⟨rfl, now⟩
    · exact h.still running rfl (Or.inl rfl) (fun now => ⟨⟨path', flags', call⟩, now, lowest⟩) still
  | openLookup emptyFd mn sub flags =>
    rw [stage] at run ok
    obtain ⟨isOpen, still, lowest⟩ := ok
    rw [Stage.next] at run
    obtain ⟨node, s₁, lookup, rest⟩ := bind_run_eq_ok.1 run
    cases rest
    exact h.still running (leave.lookup _ _ _ _ _ _ lookup) (Or.inl rfl) (fun now => ⟨isOpen, now, lowest⟩) still
  | openAlloc emptyFd node flags =>
    rw [stage] at run ok
    obtain ⟨isOpen, still, lowest⟩ := ok
    obtain ⟨rfl, rfl⟩ | ⟨node', rfl, rfl⟩ := makeFile_spec quiet run
    · exact h.still running rfl (Or.inl rfl) (fun now => isOpen.failed now) still
    · exact h.allocated running free rfl ⟨isOpen, still.cons rfl rfl, lowest⟩
  | openInode emptyFd node tf flags =>
    rw [stage] at run ok
    obtain ⟨isOpen, still, lowest⟩ := ok
    rw [Stage.next] at run
    obtain ⟨res, s₁, opened, rest⟩ := bind_run_eq_ok.1 run
    cases rest
    refine h.still running (leave.open _ _ _ _ _ opened) (Or.inr ?_) (fun now => ⟨isOpen, now, lowest⟩) still
    rw [stage]
    rfl
  | opened emptyFd node tf res =>
    rw [stage] at run ok
    obtain ⟨isOpen, still, lowest⟩ := ok
    have mine : r.stage.pending = some tf := by
      rw [stage]
      rfl
    obtain ⟨rfl, f, -, state⟩ | ⟨rfl, same⟩ := installFile_spec quiet run
    · exact h.installed running mine isOpen still lowest state
    · exact h.still running same (Or.inr mine.symm) (fun now => ⟨isOpen, now⟩) still
  | openUndo node tf =>
    rw [stage] at run ok
    obtain ⟨isOpen, still⟩ := ok
    rw [Stage.next] at run
    obtain ⟨res, s₁, closed, rest⟩ := bind_run_eq_ok.1 run
    obtain ⟨rfl, rfl⟩ := assert_then rest
    refine h.still running (leave.closeInode _ _ _ _ _ closed) (Or.inr ?_) (fun now => ⟨isOpen, now⟩) still
    rw [stage]
    rfl
  | openFree tf =>
    rw [stage] at run ok
    obtain ⟨isOpen, still⟩ := ok
    have mine : r.stage.pending = some tf := by
      rw [stage]
      rfl
    obtain ⟨rfl, state⟩ := openFree_spec quiet run
    exact h.freed running mine state (isOpen.failed (still.cons rfl rfl)) rfl
  | close fd =>
    rw [stage] at run ok
    obtain ⟨call, still, has⟩ := ok
    obtain ⟨rfl, fs, tf, rfl, filde⟩ := closeBegin_spec quiet has run
    have inside : fd.toNat < nFile := (Int.toNat_lt has.1).2 has.2.1
    exact h.still running rfl (Or.inl rfl) (fun now => ⟨call, now, inside, filde⟩) still
  | closeInode fd fs tf =>
    rw [stage] at run ok
    obtain ⟨call, still, open'⟩ := ok
    rw [Stage.next] at run
    obtain ⟨res, s₁, closed, rest⟩ := bind_run_eq_ok.1 run
    cases rest
    exact h.still running (leave.close _ _ _ _ closed) (Or.inl rfl) (fun now => ⟨call, now, open'⟩) still
  | closed fd fs tf res =>
    rw [stage] at run ok
    obtain ⟨call, still, open'⟩ := ok
    obtain ⟨rfl, rfl⟩ := closed_spec quiet run
    rcases eq_or_ne res 0 with rfl | failed
    · exact h.still running rfl (Or.inl rfl) (fun now => ⟨call, now, open'⟩) still
    · rw [if_neg failed]
      refine h.still running rfl (Or.inl rfl) (fun now => ?_) still
      unfold StageOk
      dsimp only
      rw [call]
      exact Or.inl ⟨failed, now⟩
  | closeNode fd fs tf =>
    rw [stage] at run ok
    obtain ⟨call, still, open'⟩ := ok
    rw [Stage.next] at run
    obtain ⟨f, s₁, read, rest⟩ := bind_run_eq_ok.1 run
    have same : s₁ = c.view t a := fileAt_same read
    subst same
    obtain ⟨res, s₂, closed, rest⟩ := bind_run_eq_ok.1 rest
    obtain ⟨rfl, rfl⟩ := assert_then rest
    exact h.still running (leave.closeInode _ _ _ _ _ closed) (Or.inl rfl) (fun now => ⟨call, now, open'⟩) still
  | closeRemove fd tf =>
    rw [stage] at run ok
    obtain ⟨call, still, inside, filde⟩ := ok
    obtain ⟨rfl, state⟩ := closeRemove_spec quiet run
    exact h.removed running call still inside filde state
  | done res =>
    rw [stage] at run
    cases run

/-! ## Runs -/

theorem Sound.running_update {r' : Option (Running FS Node)} (h : Sound c) (nothing : ∀ r, r' = some r → r.stage.pending = none)
    (stage : ∀ r, r' = some r → StageOk (c.task t) r) : Sound { c with running := Function.update c.running t r' } where
  agree := h.agree
  live := h.live
  pending t' r tf running pending := by
    rcases eq_or_ne t' t with rfl | other
    · change Function.update c.running t' r' t' = some r at running
      rw [Function.update_self] at running
      rw [nothing r running] at pending
      cases pending
    · change Function.update c.running t r' t' = some r at running
      rw [Function.update_of_ne other] at running
      exact h.pending t' r tf running pending
  apart t₁ t₂ r₁ r₂ tf running₁ running₂ pending₁ pending₂ := by
    have old : ∀ t' r, Function.update c.running t r' t' = some r → r.stage.pending = some tf → c.running t' = some r := by
      intro t' r running pending
      rcases eq_or_ne t' t with rfl | other
      · rw [Function.update_self] at running
        rw [nothing r running] at pending
        cases pending
      · rwa [Function.update_of_ne other] at running
    exact h.apart t₁ t₂ r₁ r₂ tf (old t₁ r₁ running₁ pending₁) (old t₂ r₂ running₂ pending₂) pending₁ pending₂
  stage t' r running := by
    change Function.update c.running t r' t' = some r at running
    rcases eq_or_ne t' t with rfl | other
    · rw [Function.update_self] at running
      exact stage r running
    · rw [Function.update_of_ne other] at running
      exact h.stage t' r running

theorem Sound.step (leave : OpsLeave ops) (h : Sound c) (step : Step ops c c') : Sound c' := by
  cases step with
  | @call t call st idle first has =>
    have none : Still [] := nofun
    apply h.running_update
    · rintro r ⟨⟩
      cases call <;> cases first <;> rfl
    · rintro r ⟨⟩
      cases call <;> cases first
      · exact ⟨⟨_, _, rfl⟩, none⟩
      · exact ⟨rfl, none, has _ rfl⟩
  | stage running free run => exact h.next leave running free run
  | ret running done =>
    apply h.running_update
    · intro r none
      cases none
    · intro r none
      cases none

omit [DecidableEq Tid] in
theorem Starts.sound (h : Starts c) : Sound c where
  agree := by
    have empty : ∀ t fd tf, ¬ Entry c.task t fd tf := by
      rintro t fd tf ⟨-, filde⟩
      rw [h.fildes] at filde
      cases filde
    rw [h.files]
    constructor
    · exact fun t fd t' fd' tf entry => absurd entry (empty t fd tf)
    · exact fun tf => iff_of_false List.not_mem_nil fun ⟨t, fd, entry⟩ => empty t fd tf entry
    · exact List.nodup_nil
  live tf member := by
    rw [h.files] at member
    cases member
  pending t r tf running := by
    rw [h.idle] at running
    cases running
  apart t t' r r' tf running := by
    rw [h.idle] at running
    cases running
  stage t r running := by
    rw [h.idle] at running
    cases running

/-- **Descriptors and open files.** However the calls of the tasks are interleaved, the tables and the file list agree,
and a call that returns has changed them as it should, or not at all. -/
theorem descriptors_agree (leave : OpsLeave ops) (reached : Reaches ops c) :
    Agree c.state.files c.task ∧ ∀ t r res, c.running t = some r → r.stage = .done res → Returned r.call res r.steps := by
  obtain ⟨c₀, starts, steps⟩ := reached
  have sound : Sound c := by
    induction steps with
    | refl => exact starts.sound
    | tail _ step ih => exact ih.step leave step
  refine ⟨sound.agree, fun t r res running done => ?_⟩
  have ok := sound.stage t r running
  unfold StageOk at ok
  rw [done] at ok
  exact ok

end Sound

/-! ## Two tasks -/

section Example

/-- A filesystem where everything succeeds. -/
def willing : Ops Unit Unit Unit where
  fs _ := ()
  before _ := 0
  lookup _ _ _ := pure (some ())
  closeInode _ _ := pure 0
  mkdir _ _ := pure (-1)
  rm _ _ := pure (-1)
  link _ _ _ := pure (-1)
  readdir _ _ := pure []
  access _ _ := pure 0
  «open» _ _ := pure 0
  close _ := pure 0
  read _ _ _ := pure 0
  write _ _ _ := pure 0
  lseek _ _ _ := pure 0

theorem willing_leave : OpsLeave willing where
  lookup _ _ _ := Keeps.pure _
  closeInode _ _ := Keeps.pure _
  «open» _ _ := Keeps.pure _
  close _ := Keeps.pure _

/-- Two tasks, and the filesystem at `/`. -/
def willingStart : Config Bool Unit Unit Unit where
  state := ⟨∅, [⟨[47], ()⟩], [], fun _ => none, 0, none, ()⟩
  task _ := ⟨fun _ => none⟩
  running _ := none

/-- One task opens `/f` while the other one has begun to. -/
theorem willing_reached : ∃ c : Config Bool Unit Unit Unit, Reaches willing c ∧ c.state.files = [7] ∧
    ∃ r, c.running true = some r ∧ r.stage = .done 0 := by
  have starts : Starts willingStart := ⟨rfl, fun _ _ => rfl, fun _ => rfl⟩
  have first : (Call.open (some [47, 102]) .fileRead : Call Unit).first =
    some (.open (some [47, 102]) .fileRead : Stage Unit Unit) := rfl
  have one := Relation.ReflTransGen.single (show Step willing willingStart _ from .call (t := true) rfl first nofun)
  have both := one.tail (show Step willing _ _ from .call (t := false) rfl first nofun)
  have begun := both.tail (show Step willing _ _ from .stage (t := true) (a := 7) rfl rfl rfl)
  have other := begun.tail (show Step willing _ _ from .stage (t := false) (a := 7) rfl rfl rfl)
  have found := other.tail (show Step willing _ _ from .stage (t := true) (a := 7) rfl rfl rfl)
  have made := found.tail (show Step willing _ _ from .stage (t := true) (a := 7) rfl rfl rfl)
  have opened := made.tail (show Step willing _ _ from .stage (t := true) (a := 8) rfl rfl rfl)
  have last := opened.tail (show Step willing _ _ from .stage (t := true) (a := 8) rfl rfl rfl)
  exact ⟨_, ⟨willingStart, starts, last⟩, rfl, _, rfl, rfl⟩

/-- The table and the list agree there. -/
theorem willing_agree : ∃ c : Config Bool Unit Unit Unit, c.state.files = [7] ∧
    Agree c.state.files c.task ∧ ∀ t r res, c.running t = some r → r.stage = .done res → Returned r.call res r.steps := by
  obtain ⟨c, reached, files, -⟩ := willing_reached
  exact ⟨c, files, descriptors_agree willing_leave reached⟩

end Example

end OsLab.Kernel.Vfs
