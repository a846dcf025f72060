import OsLab.Kernel.Blkfs.Leaks

/-!
# The names in the directories

`fs_mkdir`, `fs_rm` and `inode_open` refuse a path without a last component, `create_filedir` refuses a
name that is too long or there already, and no component of a path holds a slash. `fs_link` does not
look whether the new path has a last component: it enters the empty name. `names_wellFormed` is about
the runs in which it does not.
-/

namespace OsLab.Kernel.Blkfs

open OsLab.Memory OsLab.Klib Volume

/-- Every directory has well-formed entries, and each entry is reached through its directory under
its name. -/
structure NamesWellFormed (fs : Info) (d : Disk) : Prop where
  wellNamed : ∀ n < fs.slots, (inodeOf d n).type = InodeType.dir.code →
    ∀ b : Nat, (inodeOf d n).blockId = b → WellNamed d b
  reached : ∀ n < fs.slots, (inodeOf d n).type = InodeType.dir.code →
    ∀ b : Nat, (inodeOf d n).blockId = b → ∀ i < 42, ∀ id, entryAt d b i = some id →
      ∀ path, charAt path 0 = slash → getPathInode fs d path = .ok (some (inodeOf d n)) →
        pathGetName (pathJoin path (nameAt d b i)) = nameAt d b i ∧
          ∃ k : Nat, id = k ∧
            getPathInode fs d (pathJoin path (nameAt d b i)) = .ok (some (inodeOf d k))

/-- The paths of a call are C strings. -/
def Call.Terminated : Call → Prop
  | .mkdir path => 0 ∉ path
  | .rm path => 0 ∉ path
  | .link oldpath newpath => 0 ∉ oldpath ∧ 0 ∉ newpath
  | .lookup path => 0 ∉ path
  | .open .. => True
  | .write .. => True

instance (c : Call) : Decidable c.Terminated :=
  match c with
  | .mkdir path => inferInstanceAs (Decidable (0 ∉ path))
  | .rm path => inferInstanceAs (Decidable (0 ∉ path))
  | .link oldpath newpath => inferInstanceAs (Decidable (0 ∉ oldpath ∧ 0 ∉ newpath))
  | .lookup path => inferInstanceAs (Decidable (0 ∉ path))
  | .open .. => inferInstanceAs (Decidable True)
  | .write .. => inferInstanceAs (Decidable True)

/-- A link whose new path has no last component enters nothing: the old path is not there, the
directory is not there, or the directory is full. -/
def LinkNamed (fs : Info) (s : State) : Call → Prop
  | .link oldpath newpath => pathGetName newpath = [] →
      getPathInode fs s.disk oldpath = .ok none ∨
      getPathInode fs s.disk (pathGetDirectory newpath) = .ok none ∨
      ∃ dir, getPathInode fs s.disk (pathGetDirectory newpath) = .ok (some dir) ∧
        findFree s.disk (ofInt32 dir.blockId) = none
  | _ => True

/-- The calls on C strings that write no file and link no empty name. -/
def NamedCalls (fs : Info) (_ : Nat → Prop) (s : State) (c : Call) : Prop :=
  ¬ c.IsWrite ∧ c.Terminated ∧ LinkNamed fs s c

/-! ## One call -/

/-- The blocks of all directories are well formed. -/
def AllWellNamed (fs : Info) (d : Disk) : Prop :=
  ∀ n b, (volume fs d).IsDir n b → WellNamed d b

/-- In all directories the names are different and short, and `P` holds of each. -/
def AllNamed (P : CStr → Prop) (fs : Info) (d : Disk) : Prop :=
  ∀ n b, (volume fs d).IsDir n b → NamedApart P d b

theorem allWellNamed_iff {fs : Info} {d : Disk} : AllWellNamed fs d ↔ AllNamed Plain fs d :=
  forall₃_congr fun _ _ _ => wellNamed_iff

section Step

variable {fs : Info} {d d' d2 : Disk} {type : InodeType} {b k ind n : Nat} {name : CStr}
  {P : CStr → Prop}

/-- A name entered in block `b` of a disk that has kept block `c`. -/
theorem namedApart_enter {c : Nat} (h : NamedApart P d c) (kept : dataOf d2 c = dataOf d c) (id : Int)
    (fit : FitName name) (meets : P name) (place : findFree d b = some ind)
    (missing : findName d b name = none) : NamedApart P (setEntry d2 b ind name id) c := by
  have before := h.congr kept
  by_cases here : c = b
  · subst here
    have still : findName d2 c name = none := by
      unfold findName
      rw [kept]
      exact missing
    exact before.setEntry id fit meets (findFree_some place).1 still
  · exact before.congr (dataOf_setEntry here)

theorem AllNamed.created (h : AllNamed P fs d) (owned : Owned fs (volume fs d))
    (data : fs.IsData b) (dir : (volume fs d).IsDir n b)
    (made : Created fs d d' type b name k ind d2) (terminated : 0 ∉ name) (meets : P name) :
    AllNamed P fs d' := by
  have fit := fitName_of_short made.short terminated
  have notFree := not_firstFree owned dir.used dir.block
  intro m c isDir
  rw [made.disk]
  obtain ⟨-, -, found, empty⟩ | ⟨-, old⟩ := made.isDir data isDir
  · have other : c ≠ b := fun same => notFree (same ▸ found)
    apply namedApart_empty
    intro i place
    rw [entryAt_congr (dataOf_setEntry other), empty i place]
  · have kept := dataOf_allocated made.alloc (owned.data old.used old.block).1 made.first.slot
      (not_firstFree owned old.used old.block)
    exact namedApart_enter (h m c old) kept k fit meets made.place made.missing

theorem AllNamed.linked (h : AllNamed P fs d) (owned : Owned fs (volume fs d))
    (data : fs.IsData b) (slot : k < fs.slots) (made : Linked d d' b name k ind)
    (terminated : 0 ∉ name) (meets : P name) : AllNamed P fs d' := by
  have fit := fitName_of_short made.short terminated
  intro m c isDir
  have old := (made.isDir data).1 isDir
  rw [made.disk]
  have table := (slot_ne_data slot (owned.data old.used old.block).1).symm
  exact namedApart_enter (h m c old) (dataOf_setInode table) k fit meets made.place made.missing

theorem AllNamed.unlinked {d1 : Disk} (h : AllNamed P fs d) (owned : Owned fs (volume fs d))
    (data : fs.IsData b) (gone : Unlinked fs d d' b name k ind d1) : AllNamed P fs d' := by
  intro m c isDir
  have old := gone.isDir data isDir
  have before := (h m c old).congr
    (gone.drop.dataOf gone.slot (owned.data old.used old.block).1)
  rw [gone.disk]
  by_cases here : c = b
  · subst here
    exact before.freeEntry ind
  · exact before.congr (dataOf_freeEntry here)

/-- What a call changed keeps the names apart, if `P` holds of the name it may have entered. -/
theorem AllNamed.change {isLink : Prop} (h : AllNamed P fs d) (owned : Owned fs (volume fs d))
    (change : EntryChange fs d d' name isLink) (terminated : 0 ∉ name)
    (meets : (isLink ∨ name ≠ []) → P name) : AllNamed P fs d' := by
  cases change with
  | same unchanged => exact unchanged ▸ h
  | created kind data dir some made => exact h.created owned data dir made terminated (meets (.inr some))
  | linked link data dir slot made => exact h.linked owned data slot made terminated (meets (.inl link))
  | unlinked data dir gone => exact h.unlinked owned data gone

/-- A link under the empty name is an entry that is not well formed. -/
theorem not_allWellNamed_of_linked (data : fs.IsData b) (dir : (volume fs d).IsDir n b)
    (slot : k < fs.slots) (made : Linked d d' b [] k ind) : ¬ AllWellNamed fs d' := by
  intro after
  have idFits : FitsInt32 k := by
    have fits := (newInode_fits slot (by decide) (by decide) : (newInode .file k (-1) 1).Fits)
    exact fits.id
  have place := (findFree_some made.place).1
  have fit : FitName [] := ⟨Nat.zero_le _, List.not_mem_nil⟩
  have wellNamed := after n b ((made.isDir data).2 dir)
  rw [made.disk] at wellNamed
  refine wellNamed.nonempty ind place ?_ (nameAt_setEntry_self k fit place)
  rw [entryAt_setEntry_self idFits]
  exact Option.some_ne_none _

/-- Without an empty name there is an entry for it in no directory. -/
theorem AllWellNamed.unnamed (h : AllWellNamed fs d) (dir : (volume fs d).IsDir n b) :
    findName d b [] = none := by
  have fit : FitName [] := ⟨Nat.zero_le _, List.not_mem_nil⟩
  apply (findName_eq_none fit).2
  intro i place named
  obtain ⟨busy, empty⟩ := (entryNamed_iff fit place).1 named
  exact (h n b dir).nonempty i place busy empty

end Step

/-! ## Calls -/

section Call

variable {fs : Info} {s s' : State} {c : Call} {res : Int}

/-- The paths of the handles are C strings. -/
def PathsTerminated (s : State) : Prop := ∀ f ∈ s.handles, 0 ∉ f.path

theorem terminated_pathOf (paths : PathsTerminated s) (terminated : c.Terminated) :
    0 ∉ pathOf s c := by
  cases c with
  | mkdir path => exact terminated
  | rm path => exact terminated
  | link oldpath newpath => exact terminated.2
  | lookup path => exact List.not_mem_nil
  | «open» i flags =>
    show 0 ∉ (s.handles[i]?).elim [] Handle.path
    cases handle : s.handles[i]? with
    | none => exact List.not_mem_nil
    | some f => exact paths f (List.mem_of_getElem? handle)
  | write => exact List.not_mem_nil

theorem openFound_path (r : Int) (f : Handle) (flags : AccessFlag) :
    (openFound r f flags).2.path = f.path := by
  unfold openFound
  by_cases stop : r = -1 ∨ inodeAccess f flags = -1
  · rw [if_pos stop]
  · rw [if_neg stop]
    cases flags <;> rfl

theorem openCreate_path {d d' : Disk} {f f' : Handle}
    (h : openCreate fs d f = .ok (res, f', d')) : f'.path = f.path := by
  unfold openCreate at h
  dsimp only at h
  by_cases unnamed : strlen (pathGetName f.path) = 0
  · rw [if_pos unnamed] at h
    cases h
    rfl
  · rw [if_neg unnamed] at h
    obtain ⟨par, -, h⟩ := bind_eq_ok.1 h
    cases par with
    | none =>
      cases h
      rfl
    | some par =>
      obtain ⟨⟨id, d1⟩, -, h⟩ := bind_eq_ok.1 h
      dsimp only at h
      by_cases minus : id = -1
      · rw [if_pos minus] at h
        cases h
        rfl
      · rw [if_neg minus] at h
        obtain ⟨node, -, h⟩ := bind_eq_ok.1 h
        cases node with
        | none => cases h
        | some node =>
          cases h
          rfl

theorem inodeOpen_path {d d' : Disk} {f f' : Handle} {flags : AccessFlag}
    (h : inodeOpen fs d f flags = .ok (res, f', d')) : f'.path = f.path := by
  unfold inodeOpen at h
  by_cases missing : Missing f flags
  · rw [if_pos missing] at h
    obtain ⟨⟨r, f1, d1⟩, create, done⟩ := bind_eq_ok.1 h
    cases done
    exact (openFound_path r f1 flags).trans (openCreate_path create)
  · rw [if_neg missing] at h
    cases h
    exact openFound_path 0 f flags

/-- The handles keep their paths. -/
theorem PathsTerminated.exec (h : PathsTerminated s) (noWrite : ¬ c.IsWrite)
    (terminated : c.Terminated) (call : exec fs s c = .ok (res, s')) : PathsTerminated s' := by
  cases c with
  | mkdir path =>
    obtain ⟨r, -, done⟩ := bind_eq_ok.1 call
    cases done
    exact h
  | rm path =>
    obtain ⟨r, -, done⟩ := bind_eq_ok.1 call
    cases done
    exact h
  | link oldpath newpath =>
    obtain ⟨r, -, done⟩ := bind_eq_ok.1 call
    cases done
    exact h
  | lookup path =>
    obtain ⟨f, look, done⟩ := bind_eq_ok.1 call
    cases done
    unfold fsLookup at look
    obtain ⟨-, look⟩ := kassert_bind_eq_ok.1 look
    obtain ⟨bnode, -, made⟩ := bind_eq_ok.1 look
    cases made
    intro f mem
    obtain old | new := List.mem_append.1 mem
    · exact h f old
    · rw [List.mem_singleton.1 new]
      exact terminated
  | «open» i flags =>
    unfold Blkfs.exec at call
    cases handle : s.handles[i]? with
    | none =>
      simp only [handle] at call
      cases call
      exact h
    | some f =>
      simp only [handle] at call
      obtain ⟨⟨r, f', d⟩, run, done⟩ := bind_eq_ok.1 call
      cases done
      intro g mem
      obtain old | rfl := List.mem_or_eq_of_mem_set mem
      · exact h g old
      · rw [inodeOpen_path run]
        exact h f (List.mem_of_getElem? handle)
  | write => exact absurd trivial noWrite

/-- A call enters the empty name only where a link has no name. -/
theorem AllWellNamed.exec_iff (h : AllWellNamed fs s.disk) (owned : Owned fs (volume fs s.disk))
    (paths : PathsTerminated s) (noWrite : ¬ c.IsWrite) (terminated : c.Terminated)
    (call : exec fs s c = .ok (res, s')) : AllWellNamed fs s'.disk ↔ LinkNamed fs s c := by
  have ended := notMem_pathGetName (terminated_pathOf paths terminated)
  have plain := slash_notMem_pathGetName (pathOf s c)
  have keeps : (c.IsLink → pathGetName (pathOf s c) ≠ []) → AllWellNamed fs s'.disk := by
    intro named
    apply allWellNamed_iff.2
    refine (allWellNamed_iff.1 h).change owned (exec_change owned noWrite call) ended fun which => ?_
    exact ⟨which.elim named id, plain⟩
  cases c with
  | mkdir path => exact iff_of_true (keeps nofun) trivial
  | rm path => exact iff_of_true (keeps nofun) trivial
  | lookup path => exact iff_of_true (keeps nofun) trivial
  | «open» i flags => exact iff_of_true (keeps nofun) trivial
  | write => exact absurd trivial noWrite
  | link oldpath newpath =>
    by_cases named : pathGetName newpath = []
    · obtain ⟨⟨r, d⟩, run, done⟩ := bind_eq_ok.1 call
      cases done
      obtain ⟨same, stop⟩ | ⟨old, dir, n, b, k, ind, resolveOld, resolve, data, isDir, block, slot,
        made⟩ := fsLink_linked owned run
      · refine iff_of_true (same ▸ h) fun _ => ?_
        obtain missing | missing | ⟨dir, n, b, resolve, isDir, block, there | full⟩ := stop
        · exact .inl missing
        · exact .inr (.inl missing)
        · rw [named, h.unnamed isDir] at there
          exact absurd rfl there
        · rw [← block] at full
          exact .inr (.inr ⟨dir, resolve, full⟩)
      · rw [named] at made
        refine iff_of_false (not_allWellNamed_of_linked data isDir slot made) fun stops => ?_
        obtain missing | missing | ⟨dir', resolve', full⟩ := stops named
        · cases resolveOld.symm.trans missing
        · cases resolve.symm.trans missing
        · cases resolve.symm.trans resolve'
          rw [block, made.place] at full
          contradiction
    · exact iff_of_true (keeps fun _ => named) fun nil => absurd nil named

end Call

/-! ## Runs -/

section Runs

variable {fs : Info} {s : State} {hist : List Change} {stale : Nat → Prop}

theorem Fresh.allNamed {P : CStr → Prop} {d : Disk} (fresh : Fresh fs (volume fs d)) :
    AllNamed P fs d := by
  intro n b dir
  have root : n = 0 := not_not.1 fun other => fresh.empty n other dir.used
  subst root
  have data := (fresh.owned.data dir.used dir.block).1
  have block := dir.block
  rw [fresh.root] at block
  have here : fs.inodeBlockNum = b := Int.ofNat.inj block
  apply namedApart_empty
  intro i place
  rw [← volume_entry data place, ← here, fresh.entries i]

/-- What a run keeps. -/
theorem Run.allWellNamed (run : Run fs (NamedCalls fs) s hist stale) :
    Owned fs (volume fs s.disk) ∧ AllWellNamed fs s.disk ∧ PathsTerminated s := by
  induction run with
  | init blank format =>
    have fresh := fsInit_fresh blank format
    exact ⟨fresh.owned, allWellNamed_iff.2 fresh.allNamed, fun f mem => absurd mem List.not_mem_nil⟩
  | step run ok call ih =>
    obtain ⟨owned, named, paths⟩ := ih
    obtain ⟨noWrite, terminated, link⟩ := ok
    exact ⟨owned.step (exec_step owned noWrite call),
      (named.exec_iff owned paths noWrite terminated call).2 link,
      paths.exec noWrite terminated call⟩

/-- In a well-formed directory whose entries name inodes in use each entry is a child. -/
theorem WellNamed.childOf {d : Disk} {n b i : Nat} {id : Int} (h : WellNamed d b)
    (safe : AllocationSafe fs d) (owned : Owned fs (volume fs d)) (dir : (volume fs d).IsDir n b)
    (place : i < 42) (entry : entryAt d b i = some id) : ∃ k : Nat, id = k ∧
      childOf fs d (inodeOf d n) (nameAt d b i) = .ok (some (inodeOf d k)) := by
  obtain ⟨slot, type, block⟩ := isDir_iff.1 dir
  have data := (owned.data dir.used dir.block).1
  have busy : entryAt d b i ≠ none := by simp [entry]
  have found := (wellNamed_iff.1 h).findName place busy
  obtain ⟨k, slotK, rfl, busyK, -⟩ := safe.entries n slot type b block i place id entry
  have short : strlen (nameAt d b i) < inodeNameLen - 1 := by
    have := h.short i place busy
    rw [strlen_eq]
    show (nameAt d b i).length < 15
    omega
  have inside : ofInt32 (inodeOf d n).blockId = b := by
    rw [block, ofInt32_block data.2]
  have named : nameId d b (nameAt d b i) = k := by
    have same := (findName_some found).2.symm.trans entry
    unfold nameId
    rw [found]
    exact Option.some.inj same
  have get : inodeGet fs d (ofInt32 k) = .ok (some (inodeOf d k)) := by
    rw [ofInt32_slot slotK]
    exact inodeGet_eq_ok.2
      ⟨(fs.slot_block slotK).trans fs.inodeBlockNum_lt, .inr ⟨busyK, rfl⟩⟩
  refine ⟨k, rfl, childOf_eq_ok.2 ⟨k, ?_, .inr ⟨by omega, _, get, rfl⟩⟩⟩
  rw [getFiledir_eq_ok, inside]
  exact ⟨type, short, data.2, named.symm⟩

theorem AllWellNamed.wellFormed {d : Disk} (h : AllWellNamed fs d) (safe : AllocationSafe fs d)
    (owned : Owned fs (volume fs d)) : NamesWellFormed fs d := by
  refine ⟨fun n slot type b block => h n b (isDir_iff.2 ⟨slot, type, block⟩),
    fun n slot type b block i place id entry path absolute resolve => ?_⟩
  have dir := isDir_iff.2 ⟨slot, type, block⟩
  have wellNamed := h n b dir
  have busy : entryAt d b i ≠ none := by simp [entry]
  have some := wellNamed.nonempty i place busy
  have plain := wellNamed.plain i place busy
  have nonempty : path ≠ [] := by
    rintro rfl
    exact absurd absolute (by decide)
  refine ⟨pathGetName_pathJoin nonempty some plain, ?_⟩
  obtain ⟨k, id_eq, child⟩ := wellNamed.childOf safe owned dir place entry
  refine ⟨k, id_eq, ?_⟩
  rw [getPathInode_append (components_pathJoin nonempty some plain) resolve]
  exact child

theorem NamesWellFormed.all {d : Disk} (h : NamesWellFormed fs d) : AllWellNamed fs d := by
  intro n b dir
  obtain ⟨slot, type, block⟩ := isDir_iff.1 dir
  exact h.wellNamed n slot type b block

/-- In every state of a run that links no empty name the directories are well formed, and a further
call keeps them so exactly when it does not link an empty name. -/
theorem names_wellFormed (run : Run fs (NamedCalls fs) s hist stale) :
    NamesWellFormed fs s.disk ∧ ∀ c res s', ¬ c.IsWrite → c.Terminated →
      exec fs s c = .ok (res, s') → (NamesWellFormed fs s'.disk ↔ LinkNamed fs s c) := by
  have noWrites : Run fs NoWrite s hist stale := run.mono fun _ _ _ ok => ok.1
  obtain ⟨owned, named, paths⟩ := run.allWellNamed
  refine ⟨named.wellFormed (allocation_safe noWrites) owned,
    fun c res s' noWrite terminated call => ?_⟩
  have safe := allocation_safe (noWrites.step noWrite call)
  have owned' := owned.step (exec_step owned noWrite call)
  rw [← named.exec_iff owned paths noWrite terminated call]
  exact ⟨NamesWellFormed.all, fun all => all.wellFormed safe owned'⟩

end Runs

/-! ## A link to `"/"` -/

theorem made_run (Ok : (Nat → Prop) → State → Call → Prop)
    (mkdirs : ∀ stale s, Ok stale s (.mkdir [47, 97])) :
    ∃ hist stale, Run fourBlocks Ok ⟨madeDisk .dir, []⟩ hist stale := by
  have mkdir : exec fourBlocks ⟨freshDisk 4128, []⟩ (.mkdir [47, 97]) =
      .ok (0, ⟨madeDisk .dir, []⟩) := exec_mkdir fsMkdir_made
  exact ⟨_, _, (run_fresh (by decide +kernel)).step (mkdirs _ _) mkdir⟩

theorem names_wellFormed_made : NamesWellFormed fourBlocks (madeDisk .dir) := by
  obtain ⟨hist, stale, run⟩ := made_run (NamedCalls fourBlocks)
    fun _ _ => ⟨id, by decide, trivial⟩
  exact (names_wellFormed run).1

/-- `"/a"` is linked to `"/"`. -/
def unnamedLink : State := after fourBlocks ⟨madeDisk .dir, []⟩ (.link [47, 97] [47])

/-- After `mkdir /a` and a link of `"/a"` to `"/"` the root has an entry with the empty name. -/
theorem link_enters_empty_name :
    ∃ hist stale, Run fourBlocks (fun _ _ c => ¬ c.IsWrite ∧ c.Terminated) unnamedLink hist stale ∧
      ¬ NamesWellFormed fourBlocks unnamedLink.disk := by
  obtain ⟨hist, stale, made⟩ := made_run (fun _ _ c => ¬ c.IsWrite ∧ c.Terminated)
    fun _ _ => ⟨id, by decide⟩
  obtain ⟨res, call⟩ := exec_after fourBlocks ⟨madeDisk .dir, []⟩ (.link [47, 97] [47])
    (by decide +kernel)
  have terminated : (Call.link [47, 97] [47]).Terminated := by decide
  refine ⟨_, _, made.step ⟨id, terminated⟩ call, fun names => ?_⟩
  have root := names.wellNamed 0 (by decide) (by decide +kernel) 1 (by decide +kernel)
  have busy : entryAt unnamedLink.disk 1 1 ≠ none := by decide +kernel
  have empty : nameAt unnamedLink.disk 1 1 = [] := by decide +kernel
  exact root.nonempty 1 (by decide) busy empty

end OsLab.Kernel.Blkfs
