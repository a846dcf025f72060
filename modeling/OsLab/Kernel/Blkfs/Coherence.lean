import OsLab.Kernel.Blkfs.Isolation

/-!
# Coherence of open handles

The reference count of an inode on the disk is the number of its creations and links less its
removals, and `fs_mkdir`, `fs_rm`, `fs_link` and `inode_open` keep it so. A write that grows the file
stores the handle's copy of the inode, with the count and the size of the time the copy was made.
`coherent_run` is about the runs in which a growing write stores a count and a size that are not
behind those on the disk.
-/

namespace OsLab.Kernel.Blkfs

open OsLab.Memory OsLab.Klib Volume

/-- The names of an inode by its count, none for an empty slot. -/
def heldBy (node : Inode) : Int := if node.type = InodeType.empty.code then 0 else node.refcnt

/-- What a change adds to the names of inode `k`. -/
def delta : Change → Nat → Int
  | .idle, _ => 0
  | .create j, k => if k = j then 1 else 0
  | .link _ j, k => if k = j then 1 else 0
  | .remove j, k => if k = j then -1 else 0

/-- The creations and links of inode `k` in a history less its removals. -/
def net (hist : List Change) (k : Nat) : Int := (hist.map fun change => delta change k).sum

/-- A write that grows the file stores the reference count of the disk and no smaller size. -/
def Coherent (fs : Info) (stale : Nat → Prop) (s : State) : Call → Prop
  | .write i buf size => Harmless fs stale s (.write i buf size) ∧
      ∀ f node (k : Nat), s.handles[i]? = some f → f.ptr = some node → f.flags = .fileWrite →
        node.id = k → Grows f node size.toNat →
          node.refcnt = (inodeOf s.disk k).refcnt ∧
            (inodeOf s.disk k).size ≤ writeEnd f size.toNat
  | _ => True

section Count

variable {fs : Info} {v v' : Volume} {change : Change}

theorem heldBy_used {k : Nat} (used : v.Used k) : heldBy (v.inode k) = (v.inode k).refcnt :=
  if_neg used

theorem heldBy_empty {k : Nat} (empty : ¬ v.Used k) : heldBy (v.inode k) = 0 :=
  if_pos (not_not.1 empty)

/-- A new count of one inode in use. -/
theorem heldBy_recount {k : Nat} {d : Int} (used : v.Used k) (m : Nat) :
    heldBy ((v.recount k d).inode m) = heldBy (v.inode m) + if m = k then d else 0 := by
  by_cases here : m = k
  · subst here
    have still : (v.recount m d).Used m := by
      unfold Used recount
      rw [setInode_self]
      exact used
    rw [if_pos rfl, heldBy_used still, heldBy_used used, recount, setInode_self]
  · rw [if_neg here, recount, setInode_ne here]
    exact (Int.add_zero _).symm

/-- A step changes the count of the one inode it is about. -/
theorem heldBy_step (step : Step fs v change v') (m : Nat) :
    heldBy (v'.inode m) = heldBy (v.inode m) + delta change m := by
  cases step with
  | idle => exact (Int.add_zero _).symm
  | @create n b i k type c dir place free slot empty kind block =>
    show heldBy ((v.add type k c).inode m) = heldBy (v.inode m) + if m = k then 1 else 0
    by_cases here : m = k
    · subst here
      have busy : (v.add type m c).Used m := (add_used_iff kind).2 (.inl rfl)
      rw [if_pos rfl, heldBy_used busy, heldBy_empty empty, add_inode_self]
      rfl
    · rw [if_neg here, add_inode_ne here]
      exact (Int.add_zero _).symm
  | link dir place free used => exact heldBy_recount used m
  | unlink dir place named used more => exact heldBy_recount used m
  | @drop n b i k c dir place named used last block =>
    show heldBy ((v.remove k c).inode m) = heldBy (v.inode m) + if m = k then -1 else 0
    by_cases here : m = k
    · subst here
      have gone : ¬ (v.remove m c).Used m := fun still => (remove_used_iff.1 still).2 rfl
      rw [if_pos rfl, heldBy_empty gone, heldBy_used used, last]
      rfl
    · rw [if_neg here, remove_inode_ne here]
      exact (Int.add_zero _).symm

end Count

/-! ## Writes -/

/-- The inodes in use stay so, keep their count and do not shrink. -/
def Steady (v v' : Volume) : Prop :=
  ∀ k, (v'.Used k ↔ v.Used k) ∧ (v'.inode k).refcnt = (v.inode k).refcnt ∧
    (v.inode k).size ≤ (v'.inode k).size

theorem Steady.refl (v : Volume) : Steady v v := fun _ => ⟨Iff.rfl, rfl, Nat.le_refl _⟩

theorem Steady.heldBy {v v' : Volume} (h : Steady v v') (k : Nat) :
    heldBy (v'.inode k) = heldBy (v.inode k) := by
  obtain ⟨used_iff, refcnt, -⟩ := h k
  by_cases used : v.Used k
  · rw [heldBy_used used, heldBy_used (used_iff.2 used), refcnt]
  · rw [heldBy_empty used, heldBy_empty fun still => used (used_iff.1 still)]

section Write

variable {fs : Info} {s s' : State} {stale : Nat → Prop} {i : Nat} {buf : Mem} {size : UInt32}
  {res : Int}

/-- A coherent write keeps the counts and the sizes. -/
theorem write_steady (sound : Sound fs s stale) (coherent : Coherent fs stale s (.write i buf size))
    (call : exec fs s (.write i buf size) = .ok (res, s')) :
    Steady (volume fs s.disk) (volume fs s'.disk) := by
  cases handle : s.handles[i]? with
  | none =>
    unfold exec at call
    simp only [handle] at call
    cases call
    exact Steady.refl _
  | some f =>
    have sane := sound.handles.sane i f handle
    obtain ⟨f', write, -⟩ := exec_write_ok handle call
    obtain ⟨-, -, same⟩ | ⟨node, b, k, writable, copy, data, block, slot, id_eq, wrote⟩ :=
      inodeWrite_ok sane write
    · rw [same]
      exact Steady.refl _
    · have ok := sane.copy node copy
      have last : writeEnd f size.toNat ≤ blockDataSize :=
        writeEnd_le ((sane.offset_le node copy).trans ok.size_le) _
      obtain ⟨e, ⟨-, same⟩ | ⟨grows, same⟩⟩ := wrote.volume_eq data slot ok last
      · rw [same]
        exact fun _ => ⟨Iff.rfl, rfl, Nat.le_refl _⟩
      · have fresh : ¬ stale i := fun old => (coherent.1 f node handle copy writable old).1 grows
        obtain ⟨m, live⟩ := sound.handles.live i f node handle copy fresh
        have here : m = k := Int.ofNat.inj (live.id_eq.symm.trans id_eq)
        subst here
        obtain ⟨count, large⟩ := coherent.2 f node m handle copy writable id_eq grows
        rw [← volume_inode slot] at count large
        rw [same]
        intro n
        by_cases here : n = m
        · subst here
          rw [setInode_self]
          refine ⟨?_, count, large⟩
          unfold Used
          rw [setInode_self, show ({ node with size := writeEnd f size.toNat } : Inode).type =
            node.type from rfl, live.type]
        · rw [setInode_ne here]
          refine ⟨?_, rfl, Nat.le_refl _⟩
          unfold Used
          rw [setInode_ne here]
          exact Iff.rfl

theorem changed_write : changed fs s (.write i buf size) res = .idle :=
  ite_self _

end Write

section Run

variable {fs : Info} {s s' : State} {stale : Nat → Prop} {hist : List Change}

/-- The names of each inode by the history; the root has one more. -/
def Counts (v : Volume) (hist : List Change) : Prop :=
  ∀ k, heldBy (v.inode k) = (if k = 0 then 1 else 0) + net hist k

theorem Fresh.counts {v : Volume} (fresh : Fresh fs v) : Counts v [] := by
  intro k
  by_cases root : k = 0
  · rw [root, fresh.root]
    rfl
  · rw [if_neg root]
    exact heldBy_empty (fresh.empty k root)

theorem Counts.cons {v v' : Volume} {change : Change} (h : Counts v hist)
    (step : ∀ m, heldBy (v'.inode m) = heldBy (v.inode m) + delta change m) :
    Counts v' (change :: hist) := by
  intro k
  have sum : net (change :: hist) k = delta change k + net hist k := List.sum_cons
  rw [step k, h k, sum]
  omega

theorem Coherent.harmless {c : Call} (h : Coherent fs stale s c) : Harmless fs stale s c := by
  by_cases isWrite : c.IsWrite
  · obtain ⟨i, buf, size, rfl⟩ := isWrite.eq
    exact h.1
  · exact harmless_of_noWrite isWrite

/-- The counts of a run follow its history. -/
theorem Run.counts (run : Run fs (Coherent fs) s hist stale) : Counts (volume fs s.disk) hist := by
  induction run with
  | init blank format => exact (fsInit_fresh blank format).counts
  | @step s s' hist stale c res run ok call ih =>
    have sound := run.sound fun _ _ _ => Coherent.harmless
    by_cases isWrite : c.IsWrite
    · obtain ⟨i, buf, size, rfl⟩ := isWrite.eq
      rw [changed_write]
      exact ih.cons fun m => ((write_steady sound ok call).heldBy m).trans (Int.add_zero _).symm
    · exact ih.cons (heldBy_step (exec_step sound.owned isWrite call))

/-- In a run of coherent writes the reference count of an inode is the number of its creations and
links less its removals, and each further coherent write keeps the counts and lowers no size. -/
theorem coherent_run (run : Run fs (Coherent fs) s hist stale) :
    (∀ k < fs.slots, InUse s.disk k →
      (inodeOf s.disk k).refcnt = (if k = 0 then 1 else 0) + net hist k) ∧
    ∀ i buf size res s', Coherent fs stale s (.write i buf size) →
      exec fs s (.write i buf size) = .ok (res, s') → ∀ k < fs.slots, InUse s.disk k →
        (inodeOf s'.disk k).refcnt = (inodeOf s.disk k).refcnt ∧
          (inodeOf s.disk k).size ≤ (inodeOf s'.disk k).size := by
  refine ⟨fun k slot busy => ?_, fun i buf size res s' coherent call k slot _ => ?_⟩
  · have count := run.counts k
    rw [heldBy_used ((volume_used slot).2 busy), volume_inode slot] at count
    exact count
  · have sound := run.sound fun _ _ _ => Coherent.harmless
    have steady := (write_steady sound coherent call k).2
    rw [volume_inode slot, volume_inode slot] at steady
    exact steady

end Run

/-! ## A write of one byte -/

theorem coherent_run_opened :
    (inodeOf opened.disk 1).refcnt = 0 + net [.create 1, .idle] 1 ∧
    (inodeOf (after fourBlocks opened oneByte).disk 1).refcnt = (inodeOf opened.disk 1).refcnt ∧
    (inodeOf opened.disk 1).size ≤ (inodeOf (after fourBlocks opened oneByte).disk 1).size := by
  have run : Run fourBlocks (Coherent fourBlocks) opened [.create 1, .idle] openedStale :=
    opened_run (fun _ _ _ => trivial) fun _ _ _ _ => trivial
  have coherent : Coherent fourBlocks openedStale opened oneByte := by
    refine ⟨fun _ _ _ _ _ old => absurd old (not_openedStale 0), ?_⟩
    rintro f node k ⟨⟩ ⟨⟩ - id_eq -
    have here : k = 1 := Int.ofNat.inj id_eq.symm
    subst here
    decide +kernel
  obtain ⟨res, call⟩ := exec_after fourBlocks opened oneByte (by decide +kernel)
  obtain ⟨counts, steady⟩ := coherent_run run
  exact ⟨counts 1 (by decide) (by decide +kernel),
    steady _ _ _ _ _ coherent call 1 (by decide) (by decide +kernel)⟩

/-- `"/a"` gets the second name `"/b"` while it is open. -/
def linked : State := after fourBlocks opened (.link [47, 97] [47, 98])

/-- A file with two names has the count 1 after a write through a handle from before the link. -/
theorem write_loses_link :
    ∃ stale res, Run fourBlocks (fun _ _ _ => True) linked [.link 0 1, .create 1, .idle] stale ∧
      ¬ stale 0 ∧
      exec fourBlocks linked oneByte = .ok (res, after fourBlocks linked oneByte) ∧
      (inodeOf linked.disk 1).refcnt = net [.link 0 1, .create 1, .idle] 1 ∧
      (inodeOf (after fourBlocks linked oneByte).disk 1).refcnt ≠ (inodeOf linked.disk 1).refcnt := by
  have run : Run fourBlocks (fun _ _ _ => True) opened [.create 1, .idle] openedStale :=
    opened_run (fun _ _ _ => trivial) fun _ _ _ _ => trivial
  obtain ⟨r, link⟩ := exec_after fourBlocks opened (.link [47, 97] [47, 98])
    (by decide +kernel)
  obtain ⟨res, write⟩ := exec_after fourBlocks linked oneByte (by decide +kernel)
  have value : (exec fourBlocks opened (.link [47, 97] [47, 98])).toOption.map Prod.fst = some 0 := by
    decide +kernel
  rw [link] at value
  have zero : r = 0 := Option.some.inj value
  subst zero
  have next := run.step trivial link
  have history : changed fourBlocks opened (.link [47, 97] [47, 98]) 0 = .link 0 1 := by decide +kernel
  rw [history] at next
  refine ⟨_, res, next, ?_, write, by decide +kernel, by decide +kernel⟩
  rintro (before | ⟨f, node, handle, copy, k, id_eq, -, gone⟩)
  · exact not_openedStale 0 before
  · cases handle
    cases copy
    have here : k = 1 := Int.ofNat.inj id_eq.symm
    subst here
    have still : InUse linked.disk 1 := by decide +kernel
    exact gone still

end OsLab.Kernel.Blkfs
