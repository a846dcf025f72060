import OsLab.Kernel.Blkfs.Creation
import OsLab.Kernel.Blkfs.References

/-!
# Allocation safety

In the runs that write nothing through handles no block has two owners, no block is in use without
one, and no directory entry dangles: the count of an inode is at least the number of entries that
name it. It can be more, since the entries of a directory that was removed are not taken back.
-/

namespace OsLab.Kernel.Blkfs

open OsLab.RefCount Volume

/-- Entry `i` of directory `n` is in use and names inode `k`. -/
def EntryFor (d : Disk) (n i k : Nat) : Prop :=
  (inodeOf d n).type = InodeType.dir.code ∧ 0 ≤ (inodeOf d n).blockId ∧
    entryAt d (inodeOf d n).blockId.toNat i = some (k : Int)

instance (d : Disk) (n i k : Nat) : Decidable (EntryFor d n i k) :=
  inferInstanceAs (Decidable (_ ∧ _ ∧ _))

/-- How many entries of directories name inode `k`. -/
def entryCount (fs : Info) (d : Disk) (k : Nat) : Nat :=
  ((places fs).filter fun e => EntryFor d e.1 e.2 k).card

/-- The inode table, the block headers and the directories agree. -/
structure AllocationSafe (fs : Info) (d : Disk) : Prop where
  unique : ∀ m < fs.slots, ∀ n < fs.slots, InUse d m → InUse d n → m ≠ n →
    (inodeOf d m).blockId ≠ -1 → (inodeOf d m).blockId ≠ (inodeOf d n).blockId
  used_iff : ∀ b, fs.IsData b → (blockType d b = BlockType.used.code ↔
    ∃! n, n < fs.slots ∧ InUse d n ∧ (inodeOf d n).blockId = b)
  id_eq : ∀ n < fs.slots, InUse d n → (inodeOf d n).id = n
  entries : ∀ n < fs.slots, (inodeOf d n).type = InodeType.dir.code → ∀ b : Nat,
    (inodeOf d n).blockId = b → ∀ i < 42, ∀ id, entryAt d b i = some id →
      ∃ k < fs.slots, id = k ∧ InUse d k ∧ entryCount fs d k ≤ (inodeOf d k).refcnt

/-- The calls that do not write. -/
def NoWrite (_ : Nat → Prop) (_ : State) (c : Call) : Prop := ¬ c.IsWrite

section Safety

variable {fs : Info} {d : Disk} {s : State} {hist : List Change} {stale : Nat → Prop}

theorem isDir_volume {n b : Nat} (slot : n < fs.slots) (type : (inodeOf d n).type = InodeType.dir.code)
    (block : (inodeOf d n).blockId = b) : (volume fs d).IsDir n b := by
  rw [← volume_inode slot] at type block
  exact ⟨type, block⟩

/-- The entries counted on the disk are the references of the volume. -/
theorem entryFor_iff {n i k : Nat} (owned : Owned fs (volume fs d)) (slot : n < fs.slots)
    (place : i < 42) : EntryFor d n i k ↔ (volume fs d).named (n, i) = some k := by
  rw [named_eq_some]
  constructor
  · rintro ⟨type, block, entry⟩
    have dir := isDir_volume slot type (Int.toNat_of_nonneg block).symm
    have data := (owned.data dir.used dir.block).1
    exact ⟨_, k, dir, (volume_entry data place).trans entry, Int.toNat_natCast k⟩
  · rintro ⟨b, id, dir, entry, rfl⟩
    have data := (owned.data dir.used dir.block).1
    obtain ⟨k, -, rfl⟩ := owned.entries n b i id dir entry
    have type := dir.type
    have block := dir.block
    rw [volume_inode slot] at type block
    rw [volume_entry data place] at entry
    refine ⟨type, ?_, ?_⟩
    · rw [block]
      omega
    · rw [block]
      exact entry

theorem entryCount_eq (owned : Owned fs (volume fs d)) (k : Nat) :
    entryCount fs d k = refs (places fs) (volume fs d).named k := by
  unfold entryCount refs
  congr 1
  apply Finset.filter_congr
  rintro ⟨n, i⟩ inside
  obtain ⟨slot, place⟩ := mem_places.1 inside
  exact entryFor_iff owned slot place

/-- A fresh volume has no entries. -/
theorem Fresh.unnamed {v : Volume} (fresh : Fresh fs v) (e : Nat × Nat) : v.named e = none := by
  obtain ⟨n, i⟩ := e
  cases names : v.named (n, i) with
  | none => rfl
  | some k =>
    obtain ⟨b, id, dir, entry, -⟩ := named_eq_some.1 names
    have root : n = 0 := not_not.1 fun other => fresh.empty n other dir.used
    have block := dir.block
    rw [root, fresh.root] at block
    have here : fs.inodeBlockNum = b := Int.ofNat.inj block
    rw [← here, fresh.entries i] at entry
    contradiction

/-- The root of a fresh volume is referenced from outside. -/
theorem Fresh.referenced {v : Volume} (fresh : Fresh fs v) : Referenced fs v fun _ => 0 := by
  refine ⟨fun e _ k names => ?_, fun k used => ?_, ?_⟩
  · rw [fresh.unnamed e] at names
    contradiction
  · have root : k = 0 := not_not.1 fun other => fresh.empty k other used
    subst root
    rw [refs_eq_zero fun e _ names => by rw [fresh.unnamed e] at names; contradiction]
    show (v.inode 0).refcnt = _
    rw [fresh.root]
    rfl
  · unfold Used
    rw [fresh.root]
    show InodeType.dir.code ≠ InodeType.empty.code
    decide

/-- In a run without writes the volume stays owned and its inodes counted. -/
theorem Run.referenced (run : Run fs NoWrite s hist stale) :
    Owned fs (volume fs s.disk) ∧ ∃ lost, Referenced fs (volume fs s.disk) lost := by
  induction run with
  | init blank format =>
    have fresh := fsInit_fresh blank format
    exact ⟨fresh.owned, _, fresh.referenced⟩
  | step run noWrite call ih =>
    obtain ⟨owned, lost, counted⟩ := ih
    have step := exec_step owned noWrite call
    obtain ⟨lost', counted', -⟩ := counted.step owned step
    exact ⟨owned.step step, lost', counted'⟩

/-- Every state reached without writes is safe. -/
theorem allocation_safe (run : Run fs NoWrite s hist stale) : AllocationSafe fs s.disk := by
  obtain ⟨owned, lost, counted⟩ := run.referenced
  have used : ∀ {n}, n < fs.slots → InUse s.disk n → (volume fs s.disk).Used n :=
    fun slot busy => (volume_used slot).2 busy
  refine ⟨fun m hm n hn busyM busyN differs some same => ?_, fun b data => ⟨fun busy => ?_, ?_⟩,
    fun n slot busy => ?_, fun n slot type b block i place id entry => ?_⟩
  · rw [← volume_inode hm] at some same
    rw [← volume_inode hn] at same
    exact differs (owned.unique m n (used hm busyM) (used hn busyN) same some)
  · obtain ⟨n, inUse, owns⟩ := owned.owner b data ((volume_blockType data).trans busy)
    have slot := owned.slot n inUse
    refine ⟨n, ⟨slot, (volume_used slot).1 inUse, ?_⟩, ?_⟩
    · rw [← volume_inode slot, owns]
    · rintro m ⟨hm, busyM, mine⟩
      rw [← volume_inode hm] at mine
      have notMinus : ((volume fs s.disk).inode m).blockId ≠ -1 := by
        rw [mine]
        omega
      exact owned.unique m n (used hm busyM) inUse (mine.trans owns.symm) notMinus
  · rintro ⟨n, ⟨slot, busy, owns⟩, -⟩
    rw [← volume_inode slot] at owns
    rw [← volume_blockType data]
    exact (owned.data (used slot busy) owns).2
  · rw [← volume_inode slot]
    exact owned.id_eq n (used slot busy)
  · have dir := isDir_volume slot type block
    have data := (owned.data dir.used dir.block).1
    obtain ⟨k, hk, rfl⟩ := entry_slot owned data dir place entry
    have names : (volume fs s.disk).named (n, i) = some k :=
      named_eq_some.2 ⟨b, k, dir, (volume_entry data place).trans entry, Int.toNat_natCast k⟩
    have live := counted.live (n, i) (mem_places.2 ⟨slot, place⟩) k names
    refine ⟨k, hk, rfl, (volume_used hk).1 live, ?_⟩
    rw [entryCount_eq owned, ← volume_inode hk, counted.eq k live]
    omega

end Safety

theorem allocation_safe_opened : AllocationSafe fourBlocks opened.disk := by
  have run : Run fourBlocks NoWrite opened [.create 1, .idle] openedStale :=
    opened_run (fun _ _ _ => id) fun _ _ _ _ => id
  exact allocation_safe run

end OsLab.Kernel.Blkfs
