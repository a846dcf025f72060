import OsLab.Kernel.Blkfs.Coherence
import OsLab.Kernel.Blkfs.Shrinks

/-!
# What `fs_rm` reports

`delete_filedir` looks for the name, and `fs_rm` does not learn whether it was there: the result is 0 as
soon as the directory of the path is. `fs_mkdir` and `fs_link` pass on the result of `create_filedir`.
Where there is such an entry `fs_rm` takes it away and nothing else, and frees the inode with the last
reference to it: `rm_reports_iff`.
-/

namespace OsLab.Kernel.Blkfs

open OsLab.Memory OsLab.Klib OsLab.RefCount Volume

/-- The last component of `path` is looked up in directory `n`, which has block `b`. -/
structure LooksIn (fs : Info) (d : Disk) (path : CStr) (n b : Nat) : Prop where
  parent : Parent fs d n b
  resolve : getPathInode fs d (pathGetDirectory path) = .ok (some (inodeOf d n))
  named : pathGetName path ≠ []

/-- Entry `i` of directory block `b`, for inode `k`, has the last component of `path` as its name. -/
structure NamesEntry (fs : Info) (d : Disk) (path : CStr) (b i k : Nat) : Prop where
  directory : ∃ n, LooksIn fs d path n b
  place : i < 42
  entry : entryAt d b i = some (k : Int)
  name : nameAt d b i = pathGetName path

/-- The directory of `path` is there, and no entry of it has the last component as its name. -/
def NothingThere (fs : Info) (d : Disk) (path : CStr) : Prop :=
  (∃ n b, LooksIn fs d path n b) ∧ ∀ b i k, ¬ NamesEntry fs d path b i k

/-- Entry `i` of block `b`, which named inode `k`, was taken away under `path`, and nothing else. -/
structure TakesAway (fs : Info) (d d' : Disk) (path : CStr) (b i k : Nat) : Prop where
  gone : getPathInode fs d' path = .ok none
  /-- The inode and its block are free exactly when the reference was the last one. -/
  inode : ¬ InUse d' k ↔ (inodeOf d k).refcnt = 1
  block : ∀ c, fs.IsData c → (inodeOf d k).blockId = c →
    (blockType d' c = BlockType.free.code ↔ (inodeOf d k).refcnt = 1)
  /-- No entry names an inode that was freed, and one that was not has a reference less. -/
  unnamed : (inodeOf d k).refcnt = 1 → entryCount fs d' k = 0
  counted : (inodeOf d k).refcnt ≠ 1 →
    inodeOf d' k = { inodeOf d k with refcnt := (inodeOf d k).refcnt - 1 }
  free : entryAt d' b i = none
  others : ∀ c j, fs.IsData c → j < 42 → (c ≠ b ∨ j ≠ i) → entryAt d' c j = entryAt d c j ∧
    (entryAt d c j ≠ none → nameAt d' c j = nameAt d c j)
  inodes : ∀ m < fs.slots, m ≠ k → inodeOf d' m = inodeOf d m
  blocks : ∀ c, fs.IsData c → (inodeOf d k).blockId ≠ c → blockType d' c = blockType d c

/-- A `fs_rm` that returned `res` reports what it did. -/
structure Reports (fs : Info) (d d' : Disk) (path : CStr) (res : Int) : Prop where
  result : res = 0 ∨ res = -1
  zero_iff : res = 0 ↔ ∃ b i k, NamesEntry fs d path b i k
  removed : res = 0 → ∀ b i k, NamesEntry fs d path b i k → TakesAway fs d d' path b i k
  failed : res = -1 → d' = d

section Lookup

variable {fs : Info} {d d' : Disk} {path : CStr} {res : Int} {n b i k : Nat}

theorem LooksIn.isDir (h : LooksIn fs d path n b) : (volume fs d).IsDir n b :=
  isDir_iff.2 ⟨h.parent.slot, h.parent.type, h.parent.block⟩

theorem LooksIn.found (h : LooksIn fs d path n b) : Found fs d (inodeOf d n) n :=
  ⟨h.isDir.used, (volume_inode h.parent.slot).symm⟩

/-- The directory of a path is one inode. -/
theorem LooksIn.unique (h : LooksIn fs d path n b) (owned : Owned fs (volume fs d)) {n' b' : Nat}
    (h' : LooksIn fs d path n' b') : n' = n ∧ b' = b := by
  have same : inodeOf d n' = inodeOf d n := by
    have both := h'.resolve.symm.trans h.resolve
    exact Option.some.inj (Except.ok.inj both)
  have id := owned.id_eq n h.isDir.used
  have id' := owned.id_eq n' h'.isDir.used
  rw [volume_inode h.parent.slot] at id
  rw [volume_inode h'.parent.slot, same, id] at id'
  cases Int.ofNat.inj id'
  exact ⟨rfl, h'.isDir.unique h.isDir⟩

theorem LooksIn.fsRm_eq (h : LooksIn fs d path n b) : fsRm fs d path =
    deleteFiledir fs d (inodeOf d n) (pathGetName path) >>= fun d' => .ok (0, d') := by
  have length : strlen (pathGetName path) ≠ 0 := by
    rw [strlen_eq]
    exact fun zero => h.named (List.length_eq_zero_iff.1 zero)
  unfold fsRm onParent
  rw [h.resolve, ok_bind, if_pos length]
  exact if_pos h.parent.type

/-- `fs_rm` fails where the last component is looked up nowhere. -/
theorem fsRm_ok (owned : Owned fs (volume fs d)) (call : fsRm fs d path = .ok (res, d')) :
    res = -1 ∧ d' = d ∧ (∀ n b, ¬ LooksIn fs d path n b) ∨
      res = 0 ∧ ∃ n b, LooksIn fs d path n b ∧ (findName d b (pathGetName path) = none ∧ d' = d ∨
        ∃ k ind d1, Unlinked fs d d' b (pathGetName path) k ind d1) := by
  by_cases some : ∃ n b, LooksIn fs d path n b
  · obtain ⟨n, b, looks⟩ := some
    right
    rw [looks.fsRm_eq, bind_eq_ok] at call
    obtain ⟨d1, delete, done⟩ := call
    cases done
    obtain ⟨b', -, dir, -, result⟩ := deleteFiledir_unlinked owned looks.found delete
    cases dir.unique looks.isDir
    exact ⟨rfl, n, b, looks, result⟩
  · obtain ⟨rfl, rfl⟩ | ⟨dir, resolve, named, act⟩ := onParent_ok call
    · exact .inl ⟨rfl, rfl, fun n b looks => some ⟨n, b, looks⟩⟩
    · obtain ⟨n, found⟩ := getPathInode_found owned resolve
      obtain ⟨d1, delete, -⟩ := bind_eq_ok.1 act
      obtain ⟨b, data, isDir, -, -⟩ := deleteFiledir_unlinked owned found delete
      obtain ⟨slot, type, block⟩ := isDir_iff.1 isDir
      rw [found.copy, volume_inode slot] at resolve
      exact absurd ⟨n, b, ⟨slot, type, data, block⟩, resolve, named⟩ some

/-- The entry a path names is the one that `direntry_find_name` finds. -/
theorem namesEntry_iff (distinct : Distinct fs d) (owned : Owned fs (volume fs d))
    (looks : LooksIn fs d path n b) (ended : 0 ∉ path) {b' : Nat} :
    NamesEntry fs d path b' i k ↔
      b' = b ∧ findName d b (pathGetName path) = some i ∧ entryAt d b i = some (k : Int) := by
  have search : findName d b (pathGetName path) = some i ↔
      i < 42 ∧ entryAt d b i ≠ none ∧ nameAt d b i = pathGetName path :=
    (distinct n b looks.isDir).findName_iff (notMem_pathGetName ended)
  constructor
  · rintro ⟨⟨n', looks'⟩, place, entry, name⟩
    obtain ⟨rfl, rfl⟩ := looks.unique owned looks'
    refine ⟨rfl, search.2 ⟨place, ?_, name⟩, entry⟩
    rw [entry]
    exact Option.some_ne_none _
  · rintro ⟨rfl, found, entry⟩
    obtain ⟨place, -, name⟩ := search.1 found
    exact ⟨⟨n, looks⟩, place, entry, name⟩

end Lookup

/-! ## Taking an entry away -/

section Unlinked

variable {fs : Info} {d d' d1 : Disk} {path : CStr} {n b k ind : Nat} {lost : Nat → Nat}

/-- The path resolves to nothing once its entry is gone. -/
theorem LooksIn.getPathInode_none (looks : LooksIn fs d path n b) (shrinks : Shrinks fs d d')
    (owned : Owned fs (volume fs d)) (root : InUse d' 0) (ended : 0 ∉ path) (short : (pathGetName path).length ≤ 14)
    (missing : nameId d' b (pathGetName path) = -1) : Blkfs.getPathInode fs d' path = .ok none := by
  have parts := components_split looks.named
  have fit : FitName (pathGetName path) := ⟨short, notMem_pathGetName ended⟩
  obtain broken | ⟨m, slot, busy, same, resolve⟩ :=
    shrinks.getPathInode owned root (notMem_pathGetDirectory ended) looks.resolve
  · obtain ⟨node, get, walked⟩ := getPathInode_eq_ok.1 broken
    refine getPathInode_eq_ok.2 ⟨node, get, ?_⟩
    rw [parts, walk_append, walked]
    rfl
  · -- the directory is still there
    rw [getPathInode_append parts resolve]
    have copies : inodeOf d m = inodeOf d n := (Option.some.inj same).symm
    have type := (shrinks.type m slot busy).trans ((congrArg _ copies).trans looks.parent.type)
    have block := (shrinks.blockId m slot busy).trans ((congrArg _ copies).trans looks.parent.block)
    refine childOf_eq_ok.2 ⟨-1, getFiledir_eq_ok.2 ?_, .inl ⟨rfl, rfl⟩⟩
    rw [block, ofInt32_block looks.parent.data.2, missing]
    exact ⟨type, fit.strlen_lt, looks.parent.data.2, rfl⟩

theorem Unlinked.takesAway (gone : Unlinked fs d d' b (pathGetName path) k ind d1)
    (looks : LooksIn fs d path n b) (distinct : Distinct fs d) (owned : Owned fs (volume fs d))
    (owned' : Owned fs (volume fs d')) (counted' : Referenced fs (volume fs d') lost)
    (root : InUse d' 0) (ended : 0 ∉ path) : TakesAway fs d d' path b ind k := by
  have isData := looks.parent.data
  have endedName := notMem_pathGetName ended
  have apart := distinct n b looks.isDir
  have busy : entryAt d b ind ≠ none := by
    rw [gone.entry]
    exact Option.some_ne_none _
  have name := findName_nameAt endedName gone.found
  have short := apart.short ind gone.place busy
  rw [name] at short
  have fit : FitName (pathGetName path) := ⟨short, endedName⟩
  have shrinks := gone.shrinks owned distinct looks.isDir owned' counted' endedName
  have missing : nameId d' b (pathGetName path) = -1 := by
    obtain same | none := shrinks.named n b looks.isDir _ fit
    · by_contra there
      obtain ⟨j, found⟩ := nameId_ne there
      obtain ⟨place, named, -⟩ := (findName_eq_some fit).1 found
      have other : j ≠ ind := fun here => gone.not_entryNamed_self fit (here ▸ named)
      obtain ⟨busyJ, nameJ⟩ :=
        (entryNamed_iff fit place).1 ((gone.entryNamed_ne isData other place fit).1 named)
      exact other (apart.distinct j place ind gone.place busyJ busy (nameJ.trans name.symm))
    · exact none
  refine ⟨looks.getPathInode_none shrinks owned root ended short missing, ?_,
    fun c isDataC block => ?_, fun last => ?_, fun more => ?_, gone.entryAt_self,
    fun c j isDataC place elsewhere => ?_, fun m slot other => gone.inodeOf_ne isData slot other,
    fun c isDataC other => ?_⟩
  · rw [gone.inUse_iff isData, not_not]
  · have used := (volume_used gone.slot).2 gone.busy
    have taken : Blkfs.blockType d c = BlockType.used.code := by
      rw [← volume_blockType isDataC]
      exact (owned.data used ((congrArg _ (volume_inode gone.slot)).trans block)).2
    rw [gone.blockType]
    by_cases last : (inodeOf d k).refcnt = 1
    · rw [if_pos ⟨last, block⟩]
      exact iff_of_true rfl last
    · rw [if_neg fun both => last both.1, taken]
      exact iff_of_false (by decide) last
  · rw [entryCount_eq owned']
    apply refs_eq_zero
    intro e place names
    have used := counted'.live e place k names
    exact (gone.inUse_iff isData).1 ((volume_used gone.slot).1 used) last
  · rw [gone.inodeOf_self isData, if_neg more]
  · by_cases here : c = b
    · subst here
      have differs := elsewhere.resolve_left fun other => other rfl
      exact ⟨gone.entryAt_ne isData differs, fun busyJ =>
        gone.nameAt_ne isData differs place (apart.short j place busyJ)⟩
    · have kept := gone.dataOf_ne isDataC here
      exact ⟨entryAt_congr kept j, fun _ => nameAt_congr kept j⟩
  · rw [gone.blockType, if_neg fun both => other both.2]

end Unlinked

/-! ## The call -/

section Reports

variable {fs : Info} {d d' : Disk} {path : CStr} {res : Int} {lost : Nat → Nat}

/-- A name that is missing is reported as removed. -/
theorem not_reports (owned : Owned fs (volume fs d)) (call : fsRm fs d path = .ok (res, d'))
    (nothing : NothingThere fs d path) : ¬ Reports fs d d' path res := by
  obtain ⟨⟨n, b, looks⟩, none⟩ := nothing
  intro reports
  obtain ⟨-, -, nowhere⟩ | ⟨zero, -⟩ := fsRm_ok owned call
  · exact nowhere n b looks
  · obtain ⟨b', i, k, names⟩ := reports.zero_iff.1 zero
    exact none b' i k names

theorem reports_iff (distinct : Distinct fs d) (owned : Owned fs (volume fs d))
    (owned' : Owned fs (volume fs d')) (counted' : Referenced fs (volume fs d') lost)
    (root : InUse d' 0) (ended : 0 ∉ path) (call : fsRm fs d path = .ok (res, d')) :
    Reports fs d d' path res ↔ ¬ NothingThere fs d path := by
  refine ⟨fun reports nothing => not_reports owned call nothing reports, fun there => ?_⟩
  obtain ⟨rfl, same, nowhere⟩ | ⟨rfl, n, b, looks, result⟩ := fsRm_ok owned call
  · refine ⟨.inr rfl, iff_of_false (by decide) ?_, fun zero => absurd zero (by decide), fun _ => same⟩
    rintro ⟨b, i, k, ⟨n, looks⟩, -⟩
    exact nowhere n b looks
  · have entries : ∀ {b' i k}, NamesEntry fs d path b' i k ↔ b' = b ∧
        findName d b (pathGetName path) = some i ∧ entryAt d b i = some (k : Int) :=
      namesEntry_iff distinct owned looks ended
    obtain ⟨missing, -⟩ | ⟨k, ind, d1, gone⟩ := result
    · refine absurd ⟨⟨n, b, looks⟩, fun b' i k names => ?_⟩ there
      rw [(entries.1 names).2.1] at missing
      contradiction
    · refine ⟨.inl rfl, iff_of_true rfl ⟨b, ind, k, entries.2 ⟨rfl, gone.found, gone.entry⟩⟩,
        fun _ b' i k' names => ?_, fun minus => absurd minus (by decide)⟩
      obtain ⟨rfl, found, entry⟩ := entries.1 names
      cases found.symm.trans gone.found
      cases Int.ofNat.inj (Option.some.inj (entry.symm.trans gone.entry))
      exact gone.takesAway looks distinct owned owned' counted' root ended

end Reports

/-! ## Runs -/

/-- The calls on C strings that write no file. -/
def PathCalls (_ : Nat → Prop) (_ : State) (c : Call) : Prop := ¬ c.IsWrite ∧ c.Terminated

section Runs

variable {fs : Info} {s : State} {hist : List Change} {stale : Nat → Prop} {path : CStr} {d' : Disk}
  {res : Int}

theorem PathCalls.clean {c : Call} (h : PathCalls stale s c) : CleanCalls fs stale s c := by
  refine ⟨?_, h.2⟩
  cases c with
  | write => exact absurd trivial h.1
  | _ => trivial

theorem exec_rm_ok {s' : State} (call : exec fs s (.rm path) = .ok (res, s')) :
    fsRm fs s.disk path = .ok (res, s'.disk) := by
  obtain ⟨⟨r, d⟩, run, done⟩ := bind_eq_ok.1 call
  cases done
  exact run

/-- In every state of a run without writes `fs_rm` reports what it did, unless the directory of its path
is there and the name is not; and `refcnt` is the number of references to an inode that were made and
not taken away again. -/
theorem rm_reports_iff (run : Run fs PathCalls s hist stale) (ended : 0 ∉ path)
    (call : fsRm fs s.disk path = .ok (res, d')) :
    (Reports fs s.disk d' path res ↔ ¬ NothingThere fs s.disk path) ∧
    ∀ k < fs.slots, InUse s.disk k →
      (inodeOf s.disk k).refcnt = (if k = 0 then 1 else 0) + net hist k := by
  have noWrites : Run fs NoWrite s hist stale := run.mono fun _ _ _ ok => ok.1
  have clean : Run fs (CleanCalls fs) s hist stale := run.mono fun _ _ _ ok => ok.clean
  obtain ⟨owned, -⟩ := noWrites.referenced
  have noWrite : NoWrite stale s (.rm path) := id
  obtain ⟨owned', lost', counted'⟩ := (noWrites.step noWrite (exec_rm call)).referenced
  have root : InUse d' 0 := (volume_used (root_slot fs)).1 counted'.rooted
  refine ⟨reports_iff clean.distinct.1 owned owned' counted' root ended call, fun k slot busy => ?_⟩
  have coherent : Run fs (Coherent fs) s hist stale := by
    refine run.mono fun _ _ c ok => ?_
    cases c with
    | write => exact absurd trivial ok.1
    | _ => trivial
  have used := (volume_used slot).2 busy
  rw [← volume_inode slot, ← heldBy_used used]
  exact coherent.counts k

end Runs

/-! ## Removing `"/a"` -/

theorem looksIn_made : LooksIn fourBlocks (madeDisk .dir) [47, 97] 0 1 :=
  ⟨⟨by decide, by decide +kernel, by decide, by decide +kernel⟩, by decide +kernel, by decide⟩

/-- The states after `rm /a`, of the directory made before and on a fresh device. -/
def unmade : State := after fourBlocks ⟨madeDisk .dir, []⟩ (.rm [47, 97])

def untouched : State := after fourBlocks startState (.rm [47, 97])

theorem fsRm_unmade : fsRm fourBlocks (madeDisk .dir) [47, 97] = .ok (0, unmade.disk) := by
  have call : exec fourBlocks ⟨madeDisk .dir, []⟩ (.rm [47, 97]) = .ok (0, unmade) :=
    exec_after_eq (by decide +kernel)
  exact exec_rm_ok call

theorem fsRm_untouched : fsRm fourBlocks startState.disk [47, 97] = .ok (0, untouched.disk) := by
  have call : exec fourBlocks startState (.rm [47, 97]) = .ok (0, untouched) :=
    exec_after_eq (by decide +kernel)
  exact exec_rm_ok call

theorem rm_reports_made :
    Reports fourBlocks (madeDisk .dir) unmade.disk [47, 97] 0 := by
  obtain ⟨hist, stale, run⟩ := made_run PathCalls fun _ _ => ⟨id, by decide⟩
  apply (rm_reports_iff run (by decide) fsRm_unmade).1.2
  intro nothing
  exact nothing.2 1 0 1 ⟨⟨0, looksIn_made⟩, by decide, by decide +kernel, by decide +kernel⟩

theorem looksIn_fresh : LooksIn fourBlocks startState.disk [47, 97] 0 1 :=
  ⟨⟨by decide, by decide +kernel, by decide, by decide +kernel⟩, by decide +kernel, by decide⟩

/-- On a fresh device `rm /a` returns 0. -/
theorem rm_reports_missing :
    (∃ hist stale, Run fourBlocks PathCalls startState hist stale) ∧
    fsRm fourBlocks startState.disk [47, 97] = .ok (0, untouched.disk) ∧
    ¬ Reports fourBlocks startState.disk untouched.disk [47, 97] 0 := by
  have run : Run fourBlocks PathCalls startState [] fun _ => False := run_fresh (by decide +kernel)
  have noWrites : Run fourBlocks NoWrite startState [] fun _ => False :=
    run.mono fun _ _ _ ok => ok.1
  have owned : Owned fourBlocks (volume fourBlocks startState.disk) := noWrites.referenced.1
  have empty : ∀ i < 42, entryAt startState.disk 1 i = none := by decide +kernel
  refine ⟨⟨_, _, run⟩, fsRm_untouched, not_reports owned fsRm_untouched ⟨⟨0, 1, looksIn_fresh⟩, ?_⟩⟩
  rintro b i k ⟨⟨n, looks⟩, place, entry, -⟩
  obtain ⟨-, rfl⟩ := looksIn_fresh.unique owned looks
  rw [empty i place] at entry
  contradiction

end OsLab.Kernel.Blkfs
