import OsLab.Kernel.Blkfs.Allocation

/-!
# Storage that is never given back

`delete_filedir` does not recur: when a directory goes with its last name, the inodes it names stay
in use with the names they had there counted, and no path leads to them any more. In the runs that
only remove empty directories, and link no directory below itself, nothing of this kind happens:
`no_leaks`.
-/

namespace OsLab.Kernel.Blkfs

open OsLab.RefCount Volume Relation

/-- Directory `n` has an entry for inode `k`. -/
def Edge (fs : Info) (d : Disk) (n k : Nat) : Prop := n < fs.slots ∧ ∃ i < 42, EntryFor d n i k

/-- A call that does not write and closes no cycle: no directory is linked in itself or below. -/
def NoCycle (fs : Info) (stale : Nat → Prop) (s : State) (c : Call) : Prop :=
  NoWrite stale s c ∧
    ∀ n k, changeOf fs s c = .link n k → ¬ ReflTransGen (Edge fs s.disk) k n

/-- A removal, if any, does not take the last name of a directory that has entries. -/
def RemovesEmpty (fs : Info) (s : State) (c : Call) : Prop :=
  ∀ k, changeOf fs s c = .remove k → (inodeOf s.disk k).refcnt = 1 →
    ∀ i < 42, ∀ m, ¬ EntryFor s.disk k i m

/-- Every inode is reachable, counted by its entries, and given back with the last of them. -/
structure NoLeaks (fs : Info) (d : Disk) : Prop where
  reachable : ∀ k < fs.slots, InUse d k → ReflTransGen (Edge fs d) 0 k
  refcnt : ∀ k < fs.slots, InUse d k →
    (inodeOf d k).refcnt = entryCount fs d k + if k = 0 then 1 else 0
  returned : (∀ n < fs.slots, ∀ i < 42, ∀ k, ¬ EntryFor d n i k) →
    (∀ k < fs.slots, InUse d k → k = 0) ∧
    ∀ b, fs.IsData b → blockType d b = BlockType.used.code → (inodeOf d 0).blockId = b

/-! ## The graph of the entries -/

namespace Volume

/-- Directory `n` has an entry for inode `k`. -/
def Names (v : Volume) (n k : Nat) : Prop := ∃ i < 42, v.named (n, i) = some k

/-- The invariant of the runs without leaks. -/
structure Tidy (fs : Info) (v : Volume) : Prop where
  owned : Owned fs v
  counted : Referenced fs v fun _ => 0
  positive : ∀ k, v.Used k → 1 ≤ (v.inode k).refcnt
  acyclic : Acyclic v.Names

/-- A link, if any, closes no cycle. -/
def Uncyclic (v : Volume) (change : Change) : Prop :=
  ∀ n k, change = .link n k → ¬ ReflTransGen v.Names k n

section Step

variable {fs : Info} {v v' : Volume} {change : Change}

/-- A step leaves every inode in use a name, or the reference of the root. -/
theorem Tidy.positive_step (h : Tidy fs v) (step : Step fs v change v') :
    ∀ m, v'.Used m → 1 ≤ (v'.inode m).refcnt := by
  intro m used
  cases step with
  | idle => exact h.positive m used
  | @create n b i k type c dir place free slot empty kind block =>
    have added : (v.add type k c).Used m := used
    show 1 ≤ ((v.add type k c).inode m).refcnt
    by_cases here : m = k
    · rw [here, add_inode_self]
      exact Int.le_refl 1
    · rw [add_inode_ne here]
      exact h.positive m (((add_used_iff kind).1 added).resolve_left here)
  | @link n b i k dir place free old =>
    have before := h.positive m ((used_recount m).1 used)
    show 1 ≤ ((v.recount k 1).inode m).refcnt
    rw [congrFun refcnt_recount m]
    by_cases here : m = k
    · rw [here, Function.update_self]
      have := h.positive k old
      omega
    · rw [Function.update_of_ne here]
      exact before
  | @unlink n b i k dir place named old more =>
    have before := h.positive m ((used_recount m).1 used)
    show 1 ≤ ((v.recount k (-1)).inode m).refcnt
    rw [congrFun refcnt_recount m]
    by_cases here : m = k
    · rw [here, Function.update_self]
      have := h.positive k old
      omega
    · rw [Function.update_of_ne here]
      exact before
  | @drop n b i k c dir place named old last block =>
    have removed : (v.remove k c).Used m := used
    obtain ⟨before, other⟩ := remove_used_iff.1 removed
    show 1 ≤ ((v.remove k c).inode m).refcnt
    rw [remove_inode_ne other]
    exact h.positive m before

/-- A changed place makes at most one new edge. -/
theorem names_update {n i k : Nat} (changed : v'.named = Function.update v.named (n, i) (some k))
    (m x : Nat) (edge : v'.Names m x) : v.Names m x ∨ m = n ∧ x = k := by
  obtain ⟨j, place, names⟩ := edge
  rw [changed] at names
  by_cases here : (m, j) = (n, i)
  · rw [here, Function.update_self, Option.some.injEq] at names
    exact .inr ⟨congrArg Prod.fst here, names.symm⟩
  · rw [Function.update_of_ne here] at names
    exact .inl ⟨j, place, names⟩

/-- A cleared place makes no edge. -/
theorem names_of_cleared {n i m x j : Nat}
    (names : Function.update v.named (n, i) none (m, j) = some x) : v.named (m, j) = some x := by
  by_cases here : (m, j) = (n, i)
  · rw [here, Function.update_self] at names
    contradiction
  · rwa [Function.update_of_ne here] at names

theorem Tidy.acyclic_step (h : Tidy fs v) (step : Step fs v change v')
    (uncyclic : v.Uncyclic change) : Acyclic v'.Names := by
  cases step with
  | idle => exact h.acyclic
  | @create n b i k type c dir place free slot empty kind block =>
    apply h.acyclic.insert (names_update (named_add h.owned dir kind empty block))
    -- the new inode was empty and named nothing
    intro path
    obtain same | ⟨m, ⟨j, -, names⟩, -⟩ := path.cases_head
    · exact empty (same ▸ dir.used)
    · obtain ⟨x, -, isDir, -⟩ := named_eq_some.1 names
      exact empty isDir.used
  | @link n b i k dir place free old =>
    exact h.acyclic.insert (names_update (named_recount h.owned dir)) (uncyclic n k rfl)
  | @unlink n b i k dir place named old more =>
    apply h.acyclic.mono
    rintro m x ⟨j, bound, names⟩
    rw [named_recount h.owned dir] at names
    exact ⟨j, bound, names_of_cleared names⟩
  | @drop n b i k c dir place named old last block =>
    apply h.acyclic.mono
    rintro m x ⟨j, bound, names⟩
    exact ⟨j, bound, names_of_cleared (named_remove dir names).1⟩

theorem Tidy.step (h : Tidy fs v) (step : Step fs v change v') (uncyclic : v.Uncyclic change)
    (emptied : v.Emptied change) : Tidy fs v' := by
  obtain ⟨lost, counted, zero⟩ := h.counted.step h.owned step
  have none : lost = fun _ => 0 := funext (zero emptied fun _ => rfl)
  exact ⟨h.owned.step step, none ▸ counted, h.positive_step step, h.acyclic_step step uncyclic⟩

/-- In a tidy volume the root reaches every inode in use. -/
theorem Tidy.reachable (h : Tidy fs v) : ∀ k, v.Used k → ReflTransGen v.Names 0 k := by
  have finite : {k | v.Used k}.Finite := (Set.finite_lt_nat fs.slots).subset h.owned.slot
  apply reachable_of_named finite h.acyclic
  intro k used notRoot
  have count := h.counted.eq k used
  have positive := h.positive k used
  rw [if_neg notRoot] at count
  have referenced : 0 < refs (places fs) v.named k := by omega
  obtain ⟨⟨n, i⟩, inside, names⟩ := exists_of_refs_pos referenced
  obtain ⟨b, -, dir, -⟩ := named_eq_some.1 names
  exact ⟨n, dir.used, i, (mem_places.1 inside).2, names⟩

end Step

end Volume

/-! ## Runs without leaks -/

section Runs

variable {fs : Info} {d : Disk} {s : State} {hist : List Change} {stale : Nat → Prop}

theorem edge_eq (owned : Owned fs (volume fs d)) : Edge fs d = (volume fs d).Names := by
  funext n k
  apply propext
  constructor
  · rintro ⟨slot, i, place, entry⟩
    exact ⟨i, place, (entryFor_iff owned slot place).1 entry⟩
  · rintro ⟨i, place, names⟩
    obtain ⟨b, -, dir, -⟩ := named_eq_some.1 names
    have slot := owned.slot n dir.used
    exact ⟨slot, i, place, (entryFor_iff owned slot place).2 names⟩

theorem Fresh.tidy {v : Volume} (fresh : Fresh fs v) : Tidy fs v := by
  refine ⟨fresh.owned, fresh.referenced, fun k used => ?_, fun n cycle => ?_⟩
  · have root : k = 0 := not_not.1 fun other => fresh.empty k other used
    rw [root, fresh.root]
    exact Int.le_refl 1
  · obtain ⟨k, -, ⟨i, -, names⟩⟩ := TransGen.tail'_iff.1 cycle
    rw [fresh.unnamed] at names
    contradiction

/-- What a call may do, on the volume. -/
theorem changed_allowed {c : Call} {res : Int} (owned : Owned fs (volume fs s.disk))
    (noCycle : NoCycle fs stale s c) (empty : RemovesEmpty fs s c) :
    (volume fs s.disk).Uncyclic (changed fs s c res) ∧
      (volume fs s.disk).Emptied (changed fs s c res) := by
  have same : ∀ {change}, changed fs s c res = change → change ≠ .idle → changeOf fs s c = change := by
    intro change eq notIdle
    unfold changed at eq
    by_cases zero : res = 0
    · rwa [if_pos zero] at eq
    · rw [if_neg zero] at eq
      exact absurd eq.symm notIdle
  refine ⟨fun n k link => ?_, fun k b remove last dir i place => ?_⟩
  · rw [← edge_eq owned]
    exact noCycle.2 n k (same link nofun)
  · have slot := owned.slot k dir.used
    cases entry : (volume fs s.disk).entry b i with
    | none => rfl
    | some id =>
      obtain ⟨m, -, rfl⟩ := owned.entries k b i id dir entry
      have names : (volume fs s.disk).named (k, i) = some m :=
        named_eq_some.2 ⟨b, m, dir, entry, Int.toNat_natCast m⟩
      rw [volume_inode slot] at last
      exact absurd ((entryFor_iff owned slot place).2 names)
        (empty k (same remove nofun) last i place m)

theorem elim_ne {o : Option Nat} {f : Nat → Change} {change : Change} (notIdle : .idle ≠ change)
    (other : ∀ k, f k ≠ change) : o.elim .idle f ≠ change := by
  cases o with
  | none => exact notIdle
  | some k => exact other k

/-- `inode_open` creates a file or changes no reference. -/
theorem changeOf_open_ne {i : Nat} {flags : AccessFlag} {change : Change} (notIdle : .idle ≠ change)
    (other : ∀ k, .create k ≠ change) : changeOf fs s (.open i flags) ≠ change := by
  rw [changeOf]
  cases s.handles[i]? with
  | none => exact notIdle
  | some f =>
    dsimp only
    by_cases missing : Missing f flags
    · rw [if_pos missing]
      exact elim_ne notIdle other
    · rw [if_neg missing]
      exact notIdle

/-- Only `fs_link` links. -/
theorem noCycle_of_noLink {c : Call} (noWrite : ¬ c.IsWrite) (noLink : ∀ old new, c ≠ .link old new) :
    NoCycle fs stale s c := by
  refine ⟨noWrite, fun n k link => absurd link ?_⟩
  cases c with
  | mkdir path => exact elim_ne nofun nofun
  | rm path => exact elim_ne nofun nofun
  | link old new => exact absurd rfl (noLink old new)
  | lookup path => exact nofun
  | «open» i flags => exact changeOf_open_ne nofun nofun
  | write i buf size => exact nofun

theorem Run.tidy
    (run : Run fs (fun stale s c => NoCycle fs stale s c ∧ RemovesEmpty fs s c) s hist stale) :
    Tidy fs (volume fs s.disk) := by
  induction run with
  | init blank format => exact (fsInit_fresh blank format).tidy
  | step run ok call ih =>
    obtain ⟨uncyclic, emptied⟩ := changed_allowed ih.owned ok.1 ok.2
    exact ih.step (exec_step ih.owned ok.1.1 call) uncyclic emptied

/-- Nothing leaks as long as only empty directories are removed with their last name. -/
theorem no_leaks
    (run : Run fs (fun stale s c => NoCycle fs stale s c ∧ RemovesEmpty fs s c) s hist stale) :
    NoLeaks fs s.disk := by
  have tidy := run.tidy
  have owned := tidy.owned
  have reachable : ∀ k < fs.slots, InUse s.disk k → ReflTransGen (Edge fs s.disk) 0 k := by
    intro k slot busy
    rw [edge_eq owned]
    exact tidy.reachable k ((volume_used slot).2 busy)
  refine ⟨reachable, fun k slot busy => ?_, fun bare => ?_⟩
  · have count := tidy.counted.eq k ((volume_used slot).2 busy)
    rw [volume_inode slot] at count
    rw [entryCount_eq owned, count]
    exact Int.add_zero _
  · have only : ∀ k < fs.slots, InUse s.disk k → k = 0 := by
      intro k slot busy
      obtain root | ⟨n, -, hn, i, place, entry⟩ := (reachable k slot busy).cases_tail
      · exact root
      · exact absurd entry (bare n hn i place k)
    refine ⟨only, fun b data busy => ?_⟩
    obtain ⟨n, used, owns⟩ := owned.owner b data ((volume_blockType data).trans busy)
    have slot := owned.slot n used
    have root := only n slot ((volume_used slot).1 used)
    subst root
    rw [← volume_inode slot, owns]

end Runs

theorem no_leaks_opened : NoLeaks fourBlocks opened.disk := by
  have lookups : ∀ stale s path, NoCycle fourBlocks stale s (.lookup path) ∧
      RemovesEmpty fourBlocks s (.lookup path) :=
    fun _ _ _ => ⟨noCycle_of_noLink id nofun, nofun⟩
  have opens : ∀ stale s i flags, NoCycle fourBlocks stale s (.open i flags) ∧
      RemovesEmpty fourBlocks s (.open i flags) :=
    fun _ _ _ _ => ⟨noCycle_of_noLink id nofun, fun k remove =>
      absurd remove (changeOf_open_ne nofun nofun)⟩
  exact no_leaks (opened_run lookups opens)

/-! ## A directory removed with its entries -/

/-- The device with the directory `"/a/b"` in the directory `"/a"`. -/
def nestedDisk : Disk := entered (madeDisk .dir) .dir 2 0 [98] 2 3

theorem fsMkdir_made : fsMkdir fourBlocks (freshDisk 4128) [47, 97] = .ok (0, madeDisk .dir) := by
  have parent : Parent fourBlocks (freshDisk 4128) 0 1 :=
    ⟨by decide, by decide +kernel, by decide, by decide +kernel⟩
  have valid : ValidName [97] := ⟨by decide, by decide, by decide⟩
  rw [fsMkdir_eq parent valid ⟨rfl, by decide⟩, createFiledir_made (.inr rfl)]
  rfl

theorem fsMkdir_nested : fsMkdir fourBlocks (madeDisk .dir) [47, 97, 47, 98] = .ok (0, nestedDisk) := by
  have parent : Parent fourBlocks (madeDisk .dir) 1 2 :=
    ⟨by decide, by decide +kernel, by decide, by decide +kernel⟩
  have valid : ValidName [98] := ⟨by decide, by decide, by decide⟩
  have first : FirstEmpty fourBlocks (madeDisk .dir) 2 :=
    ⟨by decide, by decide +kernel, by decide +kernel⟩
  have found : FirstFree (madeDisk .dir) 1 3 :=
    ⟨by decide, by decide +kernel, by decide +kernel, by decide +kernel⟩
  have place : findFree (madeDisk .dir) 2 = some 0 := by decide +kernel
  rw [fsMkdir_eq parent valid ⟨by decide +kernel, by decide⟩, createFiledir_entered parent (.inr rfl)
    valid (by decide +kernel) place first (by decide) found (by decide)]
  rfl

/-- `"/a"` is removed with `"/a/b"` in it. -/
def pruned : State := after fourBlocks ⟨nestedDisk, []⟩ (.rm [47, 97])

/-- After `mkdir /a`, `mkdir /a/b` and `rm /a` the inode of `"/a/b"` is in use, and no path leads
to it. -/
theorem removed_directory_leaks :
    ∃ hist stale, Run fourBlocks (NoCycle fourBlocks) pruned hist stale ∧
      InUse pruned.disk 2 ∧ ¬ ReflTransGen (Edge fourBlocks pruned.disk) 0 2 ∧
      blockType pruned.disk 3 = BlockType.used.code := by
  have start : Run fourBlocks (NoCycle fourBlocks) ⟨freshDisk 4128, []⟩ [] fun _ => False :=
    run_fresh (by decide +kernel)
  have first : exec fourBlocks ⟨freshDisk 4128, []⟩ (.mkdir [47, 97]) =
      .ok (0, ⟨madeDisk .dir, []⟩) := exec_mkdir fsMkdir_made
  have second : exec fourBlocks ⟨madeDisk .dir, []⟩ (.mkdir [47, 97, 47, 98]) =
      .ok (0, ⟨nestedDisk, []⟩) := exec_mkdir fsMkdir_nested
  obtain ⟨res, third⟩ := exec_after fourBlocks ⟨nestedDisk, []⟩ (.rm [47, 97]) (by decide +kernel)
  have made := start.step (noCycle_of_noLink id (by intros; simp)) first
  have nested := made.step (noCycle_of_noLink id (by intros; simp)) second
  have run := nested.step (noCycle_of_noLink id (by intros; simp)) third
  refine ⟨_, _, run, by decide +kernel, fun path => ?_, by decide +kernel⟩
  have bare : ∀ i < 42, entryAt pruned.disk 1 i = none := by decide +kernel
  have root : (inodeOf pruned.disk 0).blockId.toNat = 1 := by decide +kernel
  obtain same | ⟨k, ⟨-, i, place, -, -, names⟩, -⟩ := path.cases_head
  · exact absurd same (by decide)
  · rw [root, bare i place] at names
    cases names

end OsLab.Kernel.Blkfs
