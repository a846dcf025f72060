import OsLab.Kernel.Blkfs.Extends
import OsLab.Kernel.Blkfs.Isolation
import OsLab.Kernel.Blkfs.Leaks

/-!
# Creating and looking up

`fs_mkdir` takes the last component off a path from the right and `get_path_inode` walks the path from
the left. Where `fs_mkdir` succeeds the path did not resolve before, it resolves to the new empty
directory afterwards, and all other paths resolve as they did: `mkdir_lookup_agree`. Two inodes that
share a block after a write through a stale handle break this.
-/

namespace OsLab.Kernel.Blkfs

open OsLab.Memory OsLab.Klib Volume

/-! ## The new entry -/

section Created

variable {fs : Info} {d d' d2 : Disk} {type : InodeType} {b k ind n : Nat} {name : CStr}

/-- The name that was entered leads to the new inode. -/
theorem Created.childOf_new (made : Created fs d d' type b name k ind d2) (data : fs.IsData b)
    (kind : type = .file ∨ type = .dir) (owned : Owned fs (volume fs d))
    (dir : (volume fs d).IsDir n b) (terminated : 0 ∉ name) :
    childOf fs d (inodeOf d n) name = .ok none ∧
      childOf fs d' (inodeOf d n) name = .ok (some (inodeOf d' k)) := by
  have slot := made.first.slot
  obtain ⟨slotN, isDir, block⟩ := isDir_iff.1 dir
  have inside : ofInt32 (inodeOf d n).blockId = b := by rw [block, ofInt32_block data.2]
  have kept := dataOf_allocated made.alloc data slot (not_firstFree owned dir.used dir.block)
  have missing : nameId d b name = -1 := by
    unfold nameId
    rw [made.missing]
  have named := made.nameId_self kept terminated
  have busy := made.inUse data kind
  refine ⟨childOf_eq_ok.2 ⟨-1, ?_, .inl ⟨rfl, rfl⟩⟩,
    childOf_eq_ok.2 ⟨k, ?_, .inr ⟨by omega, inodeOf d' k, ?_, rfl⟩⟩⟩
  · rw [getFiledir_eq_ok, inside]
    exact ⟨isDir, made.short, data.2, missing.symm⟩
  · rw [getFiledir_eq_ok, inside]
    exact ⟨isDir, made.short, data.2, named.symm⟩
  · rw [ofInt32_slot slot]
    exact inodeGet_eq_ok.2 ⟨(fs.slot_block slot).trans fs.inodeBlockNum_lt, .inr ⟨busy, rfl⟩⟩

end Created

/-! ## Listing -/

section List

variable {fs : Info} {d : Disk} {dir : Inode} {b : Nat}

/-- A pass over entries that ends with an empty list has met none in use. -/
theorem listEntries_nil {places : List Nat} {head : List Item} :
    places.foldlM (listEntry fs d (dataOf d b)) head = .ok [] ↔
      head = [] ∧ ∀ i ∈ places, entryAt d b i = none := by
  have turn : ∀ head i, entryAt d b i = none →
      listEntry fs d (dataOf d b) head i = .ok head := by
    intro head i free
    unfold listEntry
    rw [entryType_dataOf]
    apply if_pos
    by_contra busy
    exact entryAt_ne_none.2 busy free
  have busyTurn : ∀ head i l, entryAt d b i ≠ none →
      listEntry fs d (dataOf d b) head i = .ok l → l ≠ [] := by
    intro head i l busy run
    unfold listEntry at run
    rw [entryType_dataOf, if_neg (entryAt_ne_none.1 busy), bind_eq_ok] at run
    obtain ⟨node, -, run⟩ := run
    cases node with
    | none => cases run
    | some node =>
      cases run
      exact List.cons_ne_nil _ _
  induction places generalizing head with
  | nil => simp [pure, Except.pure]
  | cons i places ih =>
    rw [List.foldlM_cons]
    by_cases free : entryAt d b i = none
    · rw [turn head i free, ok_bind]
      refine ih.trans ?_
      simp [free]
    · rw [bind_eq_ok]
      constructor
      · rintro ⟨l, run, rest⟩
        exact absurd (ih.1 rest).1 (busyTurn head i l free run)
      · rintro ⟨-, empty⟩
        exact absurd (empty i List.mem_cons_self) free

/-- The listing of a directory is empty if none of its entries is in use. -/
theorem listDir_eq_nil : listDir fs d dir = .ok [] ↔ dir.type = InodeType.dir.code ∧
    ofInt32 dir.blockId < fs.totalBlockNum ∧
      ∀ i < 42, entryAt d (ofInt32 dir.blockId) i = none := by
  unfold listDir
  rw [kassert_bind_eq_ok, bind_eq_ok]
  apply and_congr_right
  intro _
  constructor
  · rintro ⟨items, read, run⟩
    obtain ⟨inside, rfl⟩ := blockReaddata_eq_ok.1 read
    exact ⟨inside, fun i place => (listEntries_nil.1 run).2 i (List.mem_range.2 place)⟩
  · rintro ⟨inside, empty⟩
    refine ⟨_, blockReaddata_eq_ok.2 ⟨inside, rfl⟩, listEntries_nil.2 ⟨rfl, fun i place => ?_⟩⟩
    exact empty i (List.mem_range.1 place)

end List

/-! ## Creating a directory -/

/-- What a `fs_mkdir` that returned `res` has to do with resolution. -/
structure Agree (fs : Info) (d d' : Disk) (path : CStr) (res : Int) : Prop where
  /-- On success the path was missing and leads to a new, empty directory. -/
  made : res = 0 → getPathInode fs d path = .ok none ∧ ∃ k < fs.slots,
    getPathInode fs d' path = .ok (some (inodeOf d' k)) ∧ InUse d' k ∧
      (inodeOf d' k).type = InodeType.dir.code ∧ listDir fs d' (inodeOf d' k) = .ok []
  /-- A path that resolved resolves to the same inode. -/
  kept : res = 0 → ∀ other, 0 ∉ other → ∀ node,
    getPathInode fs d other = .ok (some node) → getPathInode fs d' other = .ok (some node)
  /-- A failure changes no resolution. -/
  failed : res = -1 → ∀ other, getPathInode fs d' other = getPathInode fs d other
  result : res = 0 ∨ res = -1

section Mkdir

variable {fs : Info} {s : State} {hist : List Change} {stale : Nat → Prop} {path : CStr} {d' : Disk}
  {res : Int}

/-- In a run whose writes through stale handles are harmless `fs_mkdir` and `get_path_inode` agree on
every path. -/
theorem mkdir_lookup_agree (run : Run fs (Harmless fs) s hist stale) (ended : 0 ∉ path)
    (free : ∃ b, fs.IsData b ∧ blockType s.disk b = BlockType.free.code)
    (call : fsMkdir fs s.disk path = .ok (res, d')) : Agree fs s.disk d' path res := by
  have owned := (run.sound fun _ _ _ ok => ok).owned
  obtain ⟨rfl, rfl⟩ | ⟨rfl, named, dir, n, b, k, ind, d2, resolve, found, data, isDir, made⟩ :=
    fsMkdir_created owned call
  · exact ⟨fun zero => absurd zero (by decide), fun zero => absurd zero (by decide),
      fun _ _ => rfl, .inr rfl⟩
  · have terminated := notMem_pathGetName ended
    have slot := made.first.slot
    have parts := components_split named
    have copy : dir = inodeOf s.disk n := found.copy.trans (volume_inode found.slot)
    have resolve' := (made.extends data owned terminated).getPathInode_eq owned
      (notMem_pathGetDirectory ended) resolve
    obtain ⟨before, after⟩ := made.childOf_new data (.inr rfl) owned isDir terminated
    rw [← copy] at before after
    obtain ⟨blockId, stored⟩ := made.alloc.inode slot (by decide)
    have type : (inodeOf d' k).type = InodeType.dir.code := by
      rw [made.inodeOf_eq data slot, stored]
      rfl
    refine ⟨fun _ => ⟨?_, k, slot, ?_, ?_, type, ?_⟩, fun _ other ended' node => ?_, ?_, .inl rfl⟩
    · rw [getPathInode_append parts resolve, before]
    · rw [getPathInode_append parts resolve', after]
    · unfold InUse
      rw [type]
      decide
    · obtain ⟨c, block⟩ := made.alloc.hasBlock slot (by decide) free
      obtain ⟨dataC, first, empty⟩ := made.alloc.empty slot block
      have other : c ≠ b := fun same => not_firstFree owned isDir.used isDir.block (same ▸ first)
      have inside : ofInt32 (inodeOf d' k).blockId = c := by
        rw [made.inodeOf_eq data slot, block, ofInt32_block dataC.2]
      rw [listDir_eq_nil, inside]
      refine ⟨type, dataC.2, fun i place => ?_⟩
      rw [made.disk, entryAt_congr (dataOf_setEntry other), empty i place]
    · exact (made.extends data owned terminated).getPathInode_eq owned ended'
    · exact fun minus => absurd minus (by decide)

theorem exec_mkdir_ok {s' : State} (call : exec fs s (.mkdir path) = .ok (res, s')) :
    fsMkdir fs s.disk path = .ok (res, s'.disk) := by
  obtain ⟨⟨r, d⟩, run, done⟩ := bind_eq_ok.1 call
  cases done
  exact run

theorem mkdir_lookup_agree_made :
    Agree fourBlocks (freshDisk 4128) (madeDisk .dir) [47, 97] 0 :=
  mkdir_lookup_agree (run_fresh (by decide +kernel)) (by decide)
    ⟨2, by decide, by decide +kernel⟩ fsMkdir_made

end Mkdir

/-! ## Two inodes with one block -/

/-- The 24 bytes of an entry in use that names inode 1 `"f"`. -/
def forged : Mem := fun i =>
  if i = 0 then 1 else if i = 4 then 102 else if i = 20 then 1 else 0

/-- The states after `"/a"` was removed while it is open: the entry is written through its handle,
which takes inode 1 into use again; `"/d"` is made in the free block of inode 1, the handle is set back and
the entry is written again, now into `"/d"`; and `"/d/f"` is removed, which frees inode 1 and the block of
`"/d"`. -/
def revived : State := after fourBlocks removed (.write 0 forged 24)

def shared : State := after fourBlocks revived (.mkdir [47, 100])

def rewound : State := after fourBlocks shared (.open 0 .fileWrite)

def overwritten : State := after fourBlocks rewound (.write 0 forged 24)

def unblocked : State := after fourBlocks overwritten (.rm [47, 100, 47, 102])

theorem shared_run : ∃ hist stale, Run fourBlocks (fun _ _ _ => True) shared hist stale := by
  have run : Run fourBlocks (fun _ _ _ => True) opened [.create 1, .idle] openedStale :=
    opened_run (fun _ _ _ => trivial) fun _ _ _ _ => trivial
  obtain ⟨r1, call1⟩ := exec_after fourBlocks opened (.rm [47, 97]) (by decide +kernel)
  obtain ⟨r2, call2⟩ := exec_after fourBlocks removed (.write 0 forged 24) (by decide +kernel)
  obtain ⟨r3, call3⟩ := exec_after fourBlocks revived (.mkdir [47, 100]) (by decide +kernel)
  exact ⟨_, _, ((run.step trivial call1).step trivial call2).step trivial call3⟩

theorem unblocked_run :
    ∃ hist stale, Run fourBlocks (fun _ _ _ => True) unblocked hist stale := by
  obtain ⟨hist, stale, run⟩ := shared_run
  obtain ⟨r1, call1⟩ := exec_after fourBlocks shared (.open 0 .fileWrite) (by decide +kernel)
  obtain ⟨r2, call2⟩ := exec_after fourBlocks rewound (.write 0 forged 24) (by decide +kernel)
  obtain ⟨r3, call3⟩ :=
    exec_after fourBlocks overwritten (.rm [47, 100, 47, 102]) (by decide +kernel)
  exact ⟨_, _, ((run.step trivial call1).step trivial call2).step trivial call3⟩

def looped : State := after fourBlocks unblocked (.mkdir [47, 100, 47, 120])

/-- `mkdir /d/x` takes the block of `"/d"` for the new directory, which then holds its own entry. -/
theorem mkdir_shares_block :
    (∃ hist stale, Run fourBlocks (fun _ _ _ => True) unblocked hist stale) ∧
    (∃ b, fourBlocks.IsData b ∧ blockType unblocked.disk b = BlockType.free.code) ∧
    (∃ n < fourBlocks.slots, ¬ InUse unblocked.disk n) ∧
    ∃ d', fsMkdir fourBlocks unblocked.disk [47, 100, 47, 120] = .ok (0, d') ∧
      ¬ Agree fourBlocks unblocked.disk d' [47, 100, 47, 120] 0 := by
  have call : exec fourBlocks unblocked (.mkdir [47, 100, 47, 120]) = .ok (0, looped) :=
    exec_after_eq (by decide +kernel)
  refine ⟨unblocked_run, ⟨3, by decide, by decide +kernel⟩, ⟨3, by decide, by decide +kernel⟩,
    looped.disk, exec_mkdir_ok call, fun agree => ?_⟩
  obtain ⟨-, k, slot, -, busy, -, empty⟩ := agree.made rfl
  have nonempty : ∀ n < fourBlocks.slots, InUse looped.disk n →
      entryAt looped.disk (ofInt32 (inodeOf looped.disk n).blockId) 0 ≠ none := by decide +kernel
  exact nonempty k slot busy ((listDir_eq_nil.1 empty).2.2 0 (by decide))

end OsLab.Kernel.Blkfs
