import OsLab.Kernel.Blkfs.Creation
import OsLab.Kernel.Blkfs.Handles
import OsLab.Kernel.Blkfs.Races

/-!
# Creations that do not overlap are kept

Each of the two calls keeps the invariant `Race.Inv` and leaves the disk alone while the other one is
creating its file. So in every run in which one call has written the directory back before the other
reads it, both creations are kept: `creates_kept`. A run in which both read the directory first loses
one of the names: `create_lost`.
-/

namespace OsLab.Kernel.Blkfs.Stepwise

open OsLab.Memory OsLab.Klib OsLab.Interleave Volume

namespace Race

variable {fs : Info} {d : Disk} {race : Race fs d} {t : Bool} {p : Phase} {s s' : Shared}
  {α β : Type}

/-- On CPU `t` the program keeps its part of the invariant, and ends with `Q`. -/
def Keeps (race : Race fs d) (t : Bool) (q : Thread α) (Q : α → Shared → Prop) (s : Shared) : Prop :=
  q.Ensures (fun s => OneAtATime s.history) (race.Acts (!t)) (race.Acts t) Q s

theorem Keeps.bind {q : Thread α} {f : α → Thread β} {Q : α → Shared → Prop} {Q' : β → Shared → Prop}
    (h : race.Keeps t q Q s) (rest : ∀ a s', Q a s' → race.Keeps t (f a) Q' s') :
    race.Keeps t (q >>= f) Q' s :=
  Prog.Ensures.bind (Acts.refl race (!t)) h rest

/-! ### Steps -/

/-- The locks are no part of the invariant. -/
theorem Inv.holder (inv : race.Inv s) (holder : Lock → Option Bool) :
    race.Inv { s with holder := holder } := by
  cases inv with
  | quiet apart whole => exact .quiet apart whole
  | busy apart history whole under => exact .busy apart history whole under

theorem acts_holder (holder : Lock → Option Bool) : race.Acts t s { s with holder := holder } :=
  ⟨fun inv => inv.holder holder, ⟨[], rfl, fun _ mem => absurd mem List.not_mem_nil⟩, fun _ _ => rfl⟩

theorem keeps_ofExcept {x : Except Halt α} (here : race.At t p s) :
    race.Keeps t (ofExcept x) (fun a s => x = .ok a ∧ race.At t p s) s := by
  cases x with
  | error e => trivial
  | ok a => exact fun s' acts => ⟨rfl, here.acts acts⟩

/-- An assertion that what the other CPU does, and the locks, leave alone. -/
structure Stable (race : Race fs d) (t : Bool) (P : Shared → Prop) : Prop where
  acts : ∀ s s', P s → race.Acts (!t) s s' → P s'
  holder : ∀ s holder, P s → P { s with holder := holder }

theorem At.stable (race : Race fs d) (t : Bool) (p : Phase) : Stable race t (race.At t p) :=
  ⟨fun _ _ here acts => here.acts acts, fun _ holder here => ⟨here.inv.holder holder, here.stage⟩⟩

theorem spinLock_keeps {P : Shared → Prop} (stable : Stable race t P) (l : Lock) (here : P s) :
    race.Keeps t (spinLock t l) (fun _ s => P s) s := by
  refine fun s' acts _ _ => ⟨acts_holder _, fun s'' more => stable.acts _ _ ?_ more⟩
  exact stable.holder _ _ (stable.acts _ _ here acts)

theorem spinUnlock_keeps {P : Shared → Prop} (stable : Stable race t P) (l : Lock) (here : P s) :
    race.Keeps t (spinUnlock l) (fun _ s => P s) s := by
  refine fun s' acts _ _ => ⟨acts_holder _, fun s'' more => stable.acts _ _ ?_ more⟩
  exact stable.holder _ _ (stable.acts _ _ here acts)

theorem At.began (here : race.At t .before s)
    (good : OneAtATime (.began t s.disk :: s.history)) :
    race.At t (.inside s.disk) { s with history := .began t s.disk :: s.history } ∧
      race.Acts t s { s with history := .began t s.disk :: s.history } := by
  have inv : race.Inv { s with history := .began t s.disk :: s.history } := by
    obtain ⟨inv, before⟩ := here
    cases inv with
    | quiet apart whole => exact .busy good rfl whole (Underway.refl fs s.disk)
    | @busy u x h apart history whole under =>
      exfalso
      by_cases own : u = t
      · rw [history, own, phase_began] at before
        contradiction
      · have : u = !t := by cases t <;> cases u <;> simp_all
        apply good.1 x
        rw [history, this, phase_began]
  refine ⟨⟨inv, phase_began⟩, fun _ => inv, ⟨[.began t s.disk], rfl, ?_⟩, fun _ _ => rfl⟩
  simp [Event.cpu]

/-- A program that reads the device, at any phase. -/
theorem onDisk_reads {I : Disk → Prop} {Q : α → Prop} {q : Access α}
    (meets : ∀ s, race.At t p s → I s.disk) (reads : q.Reads I Q) (here : race.At t p s) :
    race.Keeps t (onDisk q) (fun a s => race.At t p s ∧ Q a) s :=
  reads.lift (fun _ => rfl) (fun _ _ here acts => here.acts acts) meets
    (fun s _ => Acts.refl race t s) here

/-- `create_filedir` reads the directory. -/
theorem began_keeps {f : Disk → Except Halt α} (here : race.At t .before s) :
    race.Keeps t (noted (.began t) (reading f))
      (fun a s => ∃ v, race.At t (.inside v) s ∧ s.disk = v ∧ f v = .ok a) s := by
  intro s1 acts _ good
  obtain ⟨begun, mine⟩ := (here.acts acts).began good
  refine ⟨mine, ?_⟩
  dsimp only
  cases read : f s1.disk with
  | error e => trivial
  | ok a =>
    intro s2 more
    exact ⟨s1.disk, begun.acts more, more.calm s1.disk (by rw [Bool.not_not]; exact begun.stage), read⟩

section Steps

variable (owned : Owned fs (volume fs d)) {v w : Disk}
include owned

/-- The CPU that is creating its file finds the disk as it has left it. -/
theorem At.whole (here : race.At t (.inside v) s) :
    ∃ h, s.history = .began t v :: h ∧ race.Sequential h v ∧ Underway fs v s.disk := by
  obtain ⟨inv, inside⟩ := here
  cases inv with
  | quiet apart whole =>
    obtain ⟨early, -⟩ | ⟨late, -⟩ := whole.names owned t
    · rw [early] at inside
      contradiction
    · rw [late] at inside
      contradiction
  | @busy u x h apart history whole under =>
    rw [history] at inside apart
    by_cases own : u = t
    · subst own
      rw [phase_began] at inside
      cases inside
      exact ⟨h, history, whole, under⟩
    · rw [phase_other (e := .began u x) own] at inside
      have : t = !u := by cases t <;> cases u <;> simp_all
      subst this
      exact absurd inside (apart.1 v)

/-- While it does, the other CPU is not at it. -/
theorem At.alone (here : race.At t (.inside v) s) (x : Disk) : phase (!t) s.history ≠ .inside x := by
  obtain ⟨h, history, -, -⟩ := here.whole owned
  have apart := here.inv.apart
  have differs : (Event.began t v).cpu ≠ !t := by cases t <;> simp [Event.cpu]
  rw [history] at apart ⊢
  rw [phase_other differs]
  exact apart.1 x

/-- What was on the disk at first is there. -/
theorem Inv.extends (inv : race.Inv s) : Extends fs d s.disk := by
  cases inv with
  | quiet apart whole => exact (whole.kept owned).2
  | busy apart history whole under =>
    exact (whole.kept owned).2.trans (under.extends (whole.kept owned).1)

/-- Before a CPU has begun, its name is missing. -/
theorem At.missing (here : race.At t .before s) (fit : FitName (race.name t)) :
    findName s.disk race.b (race.name t) = none := by
  obtain ⟨inv, before⟩ := here
  have none_of : ∀ {h v}, race.Sequential h v → phase t h = .before →
      findName v race.b (race.name t) = none := by
    intro h v whole before
    obtain ⟨-, missing⟩ | ⟨late, -⟩ := whole.names owned t
    · exact missing fit
    · rw [late] at before
      contradiction
  cases inv with
  | quiet apart whole => exact none_of whole before
  | @busy u x h apart history whole under =>
    rw [history] at before
    by_cases own : u = t
    · rw [own, phase_began] at before
      contradiction
    · rw [phase_other (e := .began u x) own] at before
      have dir := whole.isDir owned
      unfold findName
      rw [under.block (whole.kept owned).1 dir.used dir.block]
      exact none_of whole before

theorem At.write (here : race.At t (.inside v) s) (under : Underway fs v w) :
    race.At t (.inside v) { s with disk := w } ∧ race.Acts t s { s with disk := w } := by
  obtain ⟨h, history, whole, -⟩ := here.whole owned
  have inv : race.Inv { s with disk := w } := .busy here.inv.apart history whole under
  exact ⟨⟨inv, here.stage⟩, fun _ => inv, ⟨[], rfl, fun _ mem => absurd mem List.not_mem_nil⟩,
    fun x inside => absurd inside (here.alone owned x)⟩

theorem At.ended {id : Int} (here : race.At t (.inside v) s)
    (create : Blkfs.createFiledir fs v (inodeOf d race.n) (race.type t) (-1) (race.name t) =
      .ok (id, w)) (there : id ≠ -1) :
    race.At t .after { s with disk := w, history := .ended t w :: s.history } ∧
      race.Acts t s { s with disk := w, history := .ended t w :: s.history } := by
  obtain ⟨h, history, whole, -⟩ := here.whole owned
  have inv : race.Inv { s with disk := w, history := .ended t w :: s.history } := by
    refine .quiet here.inv.apart ?_
    dsimp only
    rw [history]
    exact .made whole create there
  refine ⟨⟨inv, phase_ended⟩, fun _ => inv, ⟨[.ended t w], rfl, ?_⟩,
    fun x inside => absurd inside (here.alone owned x)⟩
  simp [Event.cpu]

/-! ### Accesses -/

/-- A program that works on the disk while the CPU is creating its file. -/
theorem onDisk_keeps {q : Access α} (here : race.At t (.inside v) s)
    (visits : q.Visits (Underway fs v) s.disk) :
    race.Keeps t (onDisk q) (fun a s' => race.At t (.inside v) s' ∧ q.Alone s.disk a s'.disk) s :=
  visits.lift (fun _ _ => rfl)
    (fun s s' here acts => ⟨here.acts acts, acts.calm v (by rw [Bool.not_not]; exact here.stage)⟩)
    (fun _ _ here under _ => here.write owned under) here

/-- `create_filedir` writes the directory back. -/
theorem ended_keeps {f : Disk → Except Halt Disk} {id : Int} (here : race.At t (.inside v) s)
    (write : f s.disk = .ok w)
    (create : Blkfs.createFiledir fs v (inodeOf d race.n) (race.type t) (-1) (race.name t) =
      .ok (id, w)) (there : id ≠ -1) :
    race.Keeps t (noted (.ended t) (writing f)) (fun _ s => race.At t .after s) s := by
  intro s1 acts _ good
  have same : s1.disk = s.disk := acts.calm v (by rw [Bool.not_not]; exact here.stage)
  obtain ⟨done, mine⟩ := (here.acts acts).ended owned create there
  dsimp only
  rw [same, write]
  exact ⟨mine, fun s2 more => done.acts more⟩

end Steps

/-! ### The calls -/

/-- The creation from its accesses. -/
theorem createFiledir_of_accesses {v d1 d2 w : Disk} {par : Inode} {type : InodeType} {name : CStr}
    {items : Mem} {ind : Nat} {res : Int} (isDir : par.type = InodeType.dir.code)
    (short : strlen name < inodeNameLen - 1)
    (read : Blkfs.blockReaddata fs v blockDataSize (ofInt32 par.blockId) 0 = .ok items)
    (missing : direntryFindName items name = none) (place : direntryFindFree items = some ind)
    (kind : type ≠ .link) (alloc : Blkfs.inodeAlloc fs v type = .ok (res, d1))
    (count : (countEntry fs res).Alone d1 () d2)
    (write : Blkfs.blockWritedata fs d2 (putEntry items (sizeofDirEntry * ind) name res) blockDataSize
      (ofInt32 par.blockId) 0 = .ok w) :
    Blkfs.createFiledir fs v par type (-1) name = .ok (res, w) := by
  obtain ⟨node, node', get, add, set⟩ := countEntry_alone.1 count
  unfold Blkfs.createFiledir targetInode
  rw [kassert_pos isDir, ok_bind, kassert_pos short, ok_bind, read, ok_bind]
  simp only [missing, place, if_neg kind, alloc, get, add, set, write, ok_bind]

/-- At no access of `countEntry` more than the new inode has changed. -/
theorem countEntry_visits_of_alloc {v d1 : Disk} {type : InodeType} {res : Int}
    (alloc : Blkfs.inodeAlloc fs v type = .ok (res, d1)) :
    (countEntry fs res).Visits (Underway fs v) d1 := by
  obtain ⟨rfl, rfl, -⟩ | ⟨k, first, rfl, new⟩ := inodeAlloc_ok alloc
  · refine (reading_visits (Underway.refl fs d1)).bind fun found _ run => ?_
    exact absurd (inodeGet_eq_ok.1 (reading_alone.1 run).1).1 minus_one_outside.2
  · exact countEntry_visits first.empty first.slot new

/-- The call returned `res`: 0 only behind its creation. -/
def Returned (race : Race fs d) (t : Bool) (res : Int) (s : Shared) : Prop :=
  race.Inv s ∧ (res ≠ -1 → phase t s.history = .after)

theorem Returned.stable (race : Race fs d) (t : Bool) (res : Int) :
    Stable race t (race.Returned t res) :=
  ⟨fun _ _ h acts => ⟨acts.inv h.1, fun there => acts.phase.trans (h.2 there)⟩,
    fun _ holder h => ⟨h.1.holder holder, h.2⟩⟩

theorem At.failed (here : race.At t p s) : race.Returned t (-1) s := ⟨here.inv, fun there => absurd rfl there⟩

theorem keeps_failed (here : race.At t p s) :
    race.Keeps t (pure (-1)) (race.Returned t) s :=
  fun _ acts => (here.acts acts).failed

theorem openFound_minus {res : Int} {f : Handle} {flags : AccessFlag} (minus : res = -1) :
    (openFound res f flags).1 = -1 := by
  rw [minus, openFound_failed]

section Calls

variable (owned : Owned fs (volume fs d))
include owned

theorem createFiledir_keeps (here : race.At t .before s) :
    race.Keeps t (createFiledir t fs (inodeOf d race.n) (race.type t) (race.name t))
      (race.Returned t) s := by
  have data := (owned.data race.dir.used race.dir.block).1
  obtain ⟨-, -, block⟩ := isDir_iff.1 race.dir
  have place : ofInt32 (inodeOf d race.n).blockId = race.b := by rw [block, ofInt32_block data.2]
  refine (keeps_ofExcept here).bind fun _ s1 ⟨isDir, here⟩ => ?_
  refine (keeps_ofExcept here).bind fun _ s2 ⟨short, here⟩ => ?_
  rw [kassert_eq_ok] at isDir short
  refine (began_keeps here).bind fun items s3 ⟨v, here, same, read⟩ => ?_
  cases missing : direntryFindName items (race.name t) with
  | some i => exact keeps_failed here
  | none =>
    cases free : direntryFindFree items with
    | none => exact keeps_failed here
    | some ind =>
      rw [← same] at read
      refine (onDisk_keeps owned here (same ▸ inodeAlloc_visits)).bind fun res s4 ⟨here, alloc⟩ => ?_
      rw [inodeAlloc_alone] at alloc
      refine (onDisk_keeps owned here (same ▸ countEntry_visits_of_alloc alloc)).bind
        fun _ s5 ⟨here, count⟩ => ?_
      have there : res ≠ -1 := by
        rintro rfl
        obtain ⟨node, node', get, -⟩ := countEntry_alone.1 count
        exact minus_one_outside.2 (inodeGet_eq_ok.1 get).1
      have write : Blkfs.blockWritedata fs s5.disk
          (putEntry items (sizeofDirEntry * ind) (race.name t) res) blockDataSize
          (ofInt32 (inodeOf d race.n).blockId) 0 = .ok _ :=
        place ▸ blockWritedata_of_lt data.2 _
      have create := createFiledir_of_accesses isDir short (same ▸ read) missing free
        (kind_ne_link (race.kind t)) (same ▸ alloc) count write
      refine (ended_keeps owned here write create there).bind fun _ s6 here => ?_
      exact fun s7 acts => ⟨(here.acts acts).inv, fun _ => (here.acts acts).stage⟩

/-- The parent directory, at every point before the creation. -/
theorem parent_reads : (getPathInode fs (pathGetDirectory (race.path t))).Reads (Extends fs d)
    (fun r => r = some (inodeOf d race.n)) :=
  getPathInode_reads owned (fun _ ext => ext) (notMem_pathGetDirectory (race.terminated t))
    (List.append_nil _).symm (race.parent t) (fun _ => rfl) (fun _ mem => by simp at mem)

/-- The path itself leads nowhere before the creation. -/
theorem path_reads : (getPathInode fs (race.path t)).Reads
    (fun v => Extends fs d v ∧ (FitName (race.name t) → findName v race.b (race.name t) = none))
    (fun r => r = none) := by
  have data := (owned.data race.dir.used race.dir.block).1
  obtain ⟨-, -, block⟩ := isDir_iff.1 race.dir
  refine getPathInode_reads owned (fun _ here => here.1)
    (notMem_pathGetDirectory (race.terminated t)) (components_split (race.named t)) (race.parent t)
    (fun none => absurd none (List.cons_ne_nil _ _)) fun name mem => ⟨rfl, fun v here id get => ?_⟩
  obtain rfl : pathGetName (race.path t) = name := by simpa using mem
  obtain ⟨-, short, -, rfl⟩ := getFiledir_eq_ok.1 get
  rw [block, ofInt32_block data.2]
  unfold nameId
  rw [show findName v race.b (pathGetName (race.path t)) = none from
    here.2 (fitName_of_short short (race.notMem_name t))]

theorem fsMkdir_keeps (dir : race.type t = .dir) (here : race.At t .before s) :
    race.Keeps t (fsMkdir t fs (race.path t)) (race.Returned t) s := by
  refine (spinLock_keeps (At.stable race t .before) .info here).bind fun _ s1 here => ?_
  refine (onDisk_reads (fun s here => here.inv.extends owned) (parent_reads owned) here).bind
    fun node s2 ⟨here, same⟩ => ?_
  subst same
  have leave : ∀ res s, race.Returned t res s → race.Keeps t
      (spinUnlock .info >>= fun _ => pure res) (race.Returned t) s := by
    intro res s returned
    refine (spinUnlock_keeps (Returned.stable race t res) .info returned).bind
      fun _ s4 returned => ?_
    exact fun s5 acts => (Returned.stable race t res).acts _ _ returned acts
  by_cases named : strlen (pathGetName (race.path t)) ≠ 0
  · by_cases isDir : (inodeOf d race.n).type = InodeType.dir.code
    · simp only [if_pos named, if_pos isDir]
      have create := createFiledir_keeps owned here
      rw [dir] at create
      refine create.bind fun id s3 returned => leave _ s3 ?_
      refine ⟨returned.1, fun there => returned.2 fun minus => there ?_⟩
      rw [minus]
      rfl
    · simp only [if_pos named, if_neg isDir]
      exact leave _ s2 here.failed
  · simp only [if_neg named]
    exact leave _ s2 here.failed

theorem openCreate_keeps (file : race.type t = .file) {f : Handle} (path : f.path = race.path t)
    (here : race.At t .before s) :
    race.Keeps t (openCreate t fs f) (fun r => race.Returned t r.1) s := by
  unfold openCreate
  by_cases unnamed : strlen (pathGetName f.path) = 0
  · rw [if_pos unnamed]
    exact fun s1 acts => (here.acts acts).failed
  · rw [if_neg unnamed, path]
    refine (onDisk_reads (fun s here => here.inv.extends owned) (parent_reads owned) here).bind
      fun node s1 ⟨here, same⟩ => ?_
    subst same
    have create := createFiledir_keeps owned here
    rw [file] at create
    refine create.bind fun id s2 returned => ?_
    by_cases minus : id = -1
    · rw [if_pos minus]
      exact fun s3 acts => ⟨acts.inv returned.1, fun there => absurd rfl there⟩
    · rw [if_neg minus]
      have here : race.At t .after s2 := ⟨returned.1, returned.2 minus⟩
      refine (onDisk_reads (I := fun _ => True) (Q := fun _ => True) (fun _ _ => trivial)
        (reading_reads fun _ _ _ _ => trivial) here).bind fun found s3 ⟨here, _⟩ => ?_
      cases found with
      | none => trivial
      | some node =>
        exact fun s4 acts => ⟨(here.acts acts).inv, fun _ => (here.acts acts).stage⟩

theorem fsLookup_keeps (here : race.At t .before s) :
    race.Keeps t (fsLookup t fs (race.path t)) (fun f s => race.At t .before s ∧
      f.path = race.path t ∧ f.ptr = none) s := by
  refine (keeps_ofExcept here).bind fun _ s1 ⟨_, here⟩ => ?_
  refine (spinLock_keeps (At.stable race t .before) .info here).bind fun _ s2 here => ?_
  refine (onDisk_reads (fun s here => ⟨here.inv.extends owned, here.missing owned⟩)
    (path_reads owned) here).bind fun node s3 ⟨here, missing⟩ => ?_
  refine (spinUnlock_keeps (At.stable race t .before) .info here).bind fun _ s4 here => ?_
  exact fun s5 acts => ⟨here.acts acts, rfl, missing⟩

theorem vfsOpen_keeps (file : race.type t = .file) {flags : AccessFlag}
    (write : flags = .fileWrite ∨ flags = .fileAppend) (here : race.At t .before s) :
    race.Keeps t (vfsOpen t fs (race.path t) flags) (race.Returned t) s := by
  have before := At.stable race t .before
  refine (spinLock_keeps before .vfs here).bind fun _ s1 here => ?_
  refine (spinUnlock_keeps before .vfs here).bind fun _ s2 here => ?_
  refine (fsLookup_keeps owned here).bind fun f s3 ⟨here, path, missing⟩ => ?_
  refine (spinLock_keeps before .vfs here).bind fun _ s4 here => ?_
  refine (spinUnlock_keeps before .vfs here).bind fun _ s5 here => ?_
  have opened : race.Keeps t (inodeOpen t fs f flags) (fun r => race.Returned t r.1) s5 := by
    unfold inodeOpen
    rw [if_pos ⟨missing, write⟩]
    refine (openCreate_keeps owned file path here).bind fun r s6 returned s7 acts => ?_
    obtain ⟨inv, after⟩ := (Returned.stable race t r.1).acts _ _ returned acts
    exact ⟨inv, fun there => after fun minus => there (openFound_minus minus)⟩
  refine opened.bind fun r s6 returned => ?_
  obtain ⟨res, f'⟩ := r
  have stays := Returned.stable race t res
  refine (spinLock_keeps stays .vfs returned).bind fun _ s7 returned => ?_
  by_cases zero : res = 0
  · rw [if_pos zero]
    subst zero
    refine (spinUnlock_keeps stays .vfs returned).bind fun _ s8 returned => ?_
    exact fun s9 acts => stays.acts _ _ returned acts
  · rw [if_neg zero]
    refine (spinUnlock_keeps stays .vfs returned).bind fun _ s8 returned => ?_
    refine Keeps.bind (Q := fun _ => race.Returned t res) ?_ fun _ s9 returned => ?_
    · refine (spinLock_keeps stays .info returned).bind fun _ s9 returned => ?_
      exact spinUnlock_keeps stays .info returned
    refine (spinLock_keeps stays .vfs returned).bind fun _ s10 returned => ?_
    refine (spinUnlock_keeps stays .vfs returned).bind fun _ s11 returned => ?_
    exact fun s12 acts => ⟨acts.inv returned.1, fun there => absurd rfl there⟩

theorem vfsMkdir_keeps (dir : race.type t = .dir) (here : race.At t .before s) :
    race.Keeps t (vfsMkdir t fs (race.path t)) (race.Returned t) s := by
  have before := At.stable race t .before
  refine (spinLock_keeps before .vfs here).bind fun _ s1 here => ?_
  refine (spinUnlock_keeps before .vfs here).bind fun _ s2 here => ?_
  refine (fsMkdir_keeps owned dir here).bind fun res s3 returned => ?_
  have stays := Returned.stable race t res
  refine (spinLock_keeps stays .vfs returned).bind fun _ s4 returned => ?_
  refine (spinUnlock_keeps stays .vfs returned).bind fun _ s5 returned => ?_
  exact fun s6 acts => stays.acts _ _ returned acts

/-- Each of the calls returns success only behind its creation. -/
theorem call_keeps (here : race.At t .before s) :
    race.Keeps t ((race.call t).call t fs (race.path t)) (race.Returned t) s := by
  cases call : race.call t with
  | file append =>
    have file : race.type t = .file := by
      unfold Race.type
      rw [call]
      rfl
    refine vfsOpen_keeps owned file ?_ here
    cases append with
    | true => exact .inr rfl
    | false => exact .inl rfl
  | dir =>
    have dir : race.type t = .dir := by
      unfold Race.type
      rw [call]
      rfl
    exact vfsMkdir_keeps owned dir here

end Calls

/-! ### Two calls -/

/-- Whatever the order of the accesses, as long as one call has written the directory back before the
other reads it the creations are made one after the other. -/
theorem inv_of_steps (owned : Owned fs (volume fs d)) {s : Shared}
    (steps : Steps (fun s => OneAtATime s.history) race.start ⟨s, .done 0, .done 0⟩) :
    race.Inv s ∧ ∀ t, phase t s.history = .after := by
  have inv : race.Inv race.start.state := .quiet trivial .start
  have begun : ∀ t, race.At t .before race.start.state := fun _ => ⟨inv, rfl⟩
  have left : race.start.left.Ensures (fun s => OneAtATime s.history) (race.Acts true)
      (race.Acts false) (race.Returned false) race.start.state := call_keeps owned (begun false)
  have right : race.start.right.Ensures (fun s => OneAtATime s.history) (race.Acts false)
      (race.Acts true) (race.Returned true) race.start.state := call_keeps owned (begun true)
  have trans : ∀ t a b c, race.Acts t a b → race.Acts t b c → race.Acts t a c :=
    fun _ _ _ _ => Acts.trans
  obtain ⟨inv', leftDone, rightDone⟩ := steps_ensures (I := race.Inv) (trans true) (trans false)
    (Acts.refl race true) (Acts.refl race false)
    (fun a b inv (acts : race.Acts false a b) => ⟨acts.inv inv, acts⟩)
    (fun a b inv (acts : race.Acts true a b) => ⟨acts.inv inv, acts⟩) left right inv steps
  refine ⟨inv', fun t => ?_⟩
  cases t with
  | false => exact (leftDone s (Acts.refl race true s)).2 (by decide)
  | true => exact (rightDone s (Acts.refl race false s)).2 (by decide)

/-- When both creations have ended, the disk is the one they lead to. -/
theorem Inv.sequential {s : Shared} (inv : race.Inv s)
    (both : ∀ t, phase t s.history = .after) : race.Sequential s.history s.disk := by
  cases inv with
  | quiet apart whole => exact whole
  | @busy t v h apart history whole under =>
    have inside := both t
    rw [history, phase_began] at inside
    contradiction

end Race

/-- The device has two free blocks. -/
def TwoFree (fs : Info) (d : Disk) : Prop :=
  ∃ x y, x ≠ y ∧ (fs.IsData x ∧ blockType d x = BlockType.free.code) ∧
    fs.IsData y ∧ blockType d y = BlockType.free.code

/-- In every run in which one call has written the directory back before the other reads it, both
creations are kept, on every disk that a run of the file system leads to and that has two free blocks. -/
theorem creates_kept {fs : Info} {s0 : State} {hist : List Change} {stale : Nat → Prop}
    (run : Run fs (Harmless fs) s0 hist stale) (race : Race fs s0.disk) (room : TwoFree fs s0.disk)
    {s : Shared}
    (steps : Steps (fun s => OneAtATime s.history) race.start ⟨s, .done 0, .done 0⟩) :
    race.BothCreated s.disk := by
  have owned := (run.sound fun _ _ _ ok => ok).owned
  obtain ⟨inv, both⟩ := Race.inv_of_steps owned steps
  exact (inv.sequential both).bothCreated owned both room

/-! ## Two files in the root -/

/-- `"/a"` is opened to write on the one CPU and `"/b"` on the other, on a fresh device of four blocks. -/
def twoFiles : Race fourBlocks (freshDisk 4128) where
  n := 0
  b := 1
  path t := if t then [47, 98] else [47, 97]
  call _ := .file false
  dir := isDir_iff.2 (by decide +kernel)
  terminated := by decide
  parent t := by
    cases t <;> decide +kernel
  named := by decide
  missing t := by
    cases t <;> decide +kernel
  different := by decide

/-- One call after the other. -/
def inTurn : Both Shared Halt Int Int :=
  twoFiles.start.play (fun s => OneAtATime s.history) (List.replicate 30 false ++ List.replicate 30 true)

/-- The left call is interrupted when it has read the directory. -/
def interrupted : Both Shared Halt Int Int :=
  twoFiles.start.play (fun _ => true)
    (List.replicate 10 false ++ List.replicate 30 true ++ List.replicate 30 false)

/-- Both calls return success, and both files are there. -/
theorem creates_kept_inTurn : twoFiles.BothCreated inTurn.state.disk := by
  have run : Run fourBlocks (Harmless fourBlocks) ⟨freshDisk 4128, []⟩ [] fun _ => False :=
    run_fresh (by decide +kernel)
  have room : TwoFree fourBlocks (freshDisk 4128) :=
    ⟨2, 3, by decide, ⟨by decide, by decide +kernel⟩, by decide, by decide +kernel⟩
  have left : inTurn.left.value = some 0 := by decide +kernel
  have right : inTurn.right.value = some 0 := by decide +kernel
  have steps := steps_ended left right
  simp only [decide_eq_true_eq] at steps
  exact creates_kept run twoFiles room steps

/-- Both calls return success, and `"/b"` is not there. -/
theorem create_lost :
    (∃ hist stale, Run fourBlocks (Harmless fourBlocks) ⟨freshDisk 4128, []⟩ hist stale) ∧
    TwoFree fourBlocks (freshDisk 4128) ∧ ∃ (race : Race fourBlocks (freshDisk 4128)) (s : Shared),
      race.call = (fun _ => .file false) ∧
      Steps (fun _ => True) race.start ⟨s, .done 0, .done 0⟩ ∧ ¬ race.BothCreated s.disk := by
  have left : interrupted.left.value = some 0 := by decide +kernel
  have right : interrupted.right.value = some 0 := by decide +kernel
  have steps := steps_ended left right
  simp only at steps
  refine ⟨⟨_, _, run_fresh (by decide +kernel)⟩,
    ⟨2, 3, by decide, ⟨by decide, by decide +kernel⟩, by decide, by decide +kernel⟩, twoFiles,
    interrupted.state, rfl, steps, ?_⟩
  rintro ⟨-, k, c, refers, -⟩
  have lost : nameId interrupted.state.disk 1 [98] = -1 := by decide +kernel
  have named : nameId interrupted.state.disk 1 [98] = k true := (refers true).named
  omega

end OsLab.Kernel.Blkfs.Stepwise
