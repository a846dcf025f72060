import OsLab.Kernel.Blkfs.Run
import OsLab.Lib.RefCount

/-!
# The directory entries as references

The entries of the directories in use are the places that hold references to inodes, and each
`Step` of the volume is one of the operations of the counting scheme: a new inode, a link, a removed
name, or an inode that goes with its last name. The references in the block of a directory that goes
are lost: the inodes they name keep their counts.
-/

namespace OsLab.Kernel.Blkfs

open OsLab.RefCount Volume

namespace Volume

/-- The places of all entries: an inode and an index. -/
def places (fs : Info) : Finset (Nat × Nat) := Finset.range fs.slots ×ˢ Finset.range childPerDir

/-- The inode that a place names, if the inode of the place is a directory with a block. -/
def named (v : Volume) (e : Nat × Nat) : Option Nat :=
  if (v.inode e.1).type = InodeType.dir.code ∧ 0 ≤ (v.inode e.1).blockId then
    (v.entry (v.inode e.1).blockId.toNat e.2).map Int.toNat
  else none

/-- The counts of the inodes in use, with `lost` references to each. -/
abbrev Referenced (fs : Info) (v : Volume) (lost : Nat → Nat) : Prop :=
  Counted (places fs) 0 v.Used (fun k => (v.inode k).refcnt) lost v.named

section Named

variable {fs : Info} {v v' : Volume} {n b i m k : Nat}

theorem mem_places : (n, i) ∈ places fs ↔ n < fs.slots ∧ i < 42 := by
  rw [places, Finset.mem_product, Finset.mem_range, Finset.mem_range]
  rfl

theorem named_of_isDir (dir : v.IsDir n b) : v.named (n, i) = (v.entry b i).map Int.toNat := by
  unfold named
  rw [if_pos ⟨dir.type, by rw [dir.block]; omega⟩]
  show (v.entry (v.inode n).blockId.toNat i).map Int.toNat = _
  rw [dir.block, Int.toNat_natCast]

theorem named_of_free (dir : v.IsDir n b) (free : v.entry b i = none) : v.named (n, i) = none := by
  rw [named_of_isDir dir, free]
  rfl

theorem named_of_entry (dir : v.IsDir n b) (entry : v.entry b i = some (k : Int)) : v.named (n, i) = some k := by
  rw [named_of_isDir dir, entry]
  rfl

theorem IsDir.mem_places (dir : v.IsDir n b) (owned : Owned fs v) (place : i < 42) : (n, i) ∈ places fs :=
  Volume.mem_places.2 ⟨owned.slot _ dir.used, place⟩

theorem named_of_not (notDir : ∀ b, ¬ v.IsDir n b) : v.named (n, i) = none := by
  apply if_neg
  rintro ⟨type, block⟩
  exact notDir _ ⟨type, (Int.toNat_of_nonneg block).symm⟩

theorem named_eq_some :
    v.named (n, i) = some m ↔ ∃ b id, v.IsDir n b ∧ v.entry b i = some id ∧ id.toNat = m := by
  constructor
  · intro names
    by_cases dir : ∃ b, v.IsDir n b
    · obtain ⟨b, dir⟩ := dir
      rw [named_of_isDir dir, Option.map_eq_some_iff] at names
      obtain ⟨id, entry, same⟩ := names
      exact ⟨b, id, dir, entry, same⟩
    · rw [named_of_not (not_exists.1 dir)] at names
      contradiction
  · rintro ⟨b, id, dir, entry, rfl⟩
    rw [named_of_isDir dir, entry]
    rfl

theorem IsDir.unique (h : v.IsDir n b) {c : Nat} (h' : v.IsDir n c) : b = c :=
  Int.ofNat.inj (h.block.symm.trans h'.block)

/-- A directory that is the same with the same entries names the same. -/
theorem named_congr (isDir : ∀ c, v'.IsDir n c ↔ v.IsDir n c)
    (entries : ∀ c, v.IsDir n c → v'.entry c i = v.entry c i) : v'.named (n, i) = v.named (n, i) := by
  by_cases dir : ∃ c, v.IsDir n c
  · obtain ⟨c, dir⟩ := dir
    rw [named_of_isDir dir, named_of_isDir ((isDir c).2 dir), entries c dir]
  · rw [not_exists] at dir
    rw [named_of_not dir, named_of_not fun c dir' => dir c ((isDir c).1 dir')]

/-- An entry changed in the block of one directory. -/
theorem named_setEntry {e : Option Int} (dir : v.IsDir n b) (sole : ∀ m, v.IsDir m b → m = n) :
    (v.setEntry b i e).named = Function.update v.named (n, i) (e.map Int.toNat) := by
  funext place
  obtain ⟨m, j⟩ := place
  by_cases here : (m, j) = (n, i)
  · cases here
    have dir' : (v.setEntry b i e).IsDir n b := ⟨dir.type, dir.block⟩
    have stored : (v.setEntry b i e).entry b = Function.update (v.entry b) i e := setEntries_self ..
    rw [Function.update_self, named_of_isDir dir', stored, Function.update_self]
  · rw [Function.update_of_ne here]
    refine named_congr (fun c => ?_) fun c isDir => ?_
    · exact ⟨fun h => ⟨h.type, h.block⟩, fun h => ⟨h.type, h.block⟩⟩
    · by_cases block : c = b
      · subst block
        have same : m = n := sole m isDir
        have other : j ≠ i := fun eq => here (by rw [same, eq])
        have stored : (v.setEntry c i e).entry c = Function.update (v.entry c) i e :=
          setEntries_self ..
        rw [stored, Function.update_of_ne other]
      · have untouched : (v.setEntry b i e).entry c = v.entry c := setEntries_ne block
        rw [untouched]

/-- Only one directory has a block. -/
theorem Owned.sole (h : Owned fs v) (dir : v.IsDir n b) : ∀ m, v.IsDir m b → m = n := by
  intro m other
  apply h.unique m n other.used dir.used (other.block.trans dir.block.symm)
  rw [other.block]
  omega

end Named

/-! ## Steps -/

section Step

variable {fs : Info} {v v' : Volume} {n b i k : Nat} {lost : Nat → Nat}

theorem recount_isDir {d : Int} (m c : Nat) : (v.recount k d).IsDir m c ↔ v.IsDir m c := by
  by_cases here : m = k
  · subst here
    have same : (v.recount m d).inode m = { v.inode m with refcnt := (v.inode m).refcnt + d } :=
      setInode_self ..
    exact ⟨fun h => ⟨(congrArg Inode.type same).symm.trans h.type,
      (congrArg Inode.blockId same).symm.trans h.block⟩,
      fun h => ⟨(congrArg Inode.type same).trans h.type, (congrArg Inode.blockId same).trans h.block⟩⟩
  · have same : (v.recount k d).inode m = v.inode m := setInode_ne here
    exact ⟨fun h => ⟨same ▸ h.type, same ▸ h.block⟩, fun h => ⟨same.symm ▸ h.type, same.symm ▸ h.block⟩⟩

/-- The references after an entry and a count have changed. -/
theorem named_recount {d : Int} {e : Option Int} (owned : Owned fs v) (dir : v.IsDir n b) :
    ((v.recount k d).setEntry b i e).named = Function.update v.named (n, i) (e.map Int.toNat) := by
  have same : (v.recount k d).named = v.named := by
    funext place
    exact named_congr (fun c => recount_isDir place.1 c) fun _ _ => rfl
  rw [named_setEntry ((recount_isDir n b).2 dir) fun m other =>
    owned.sole dir m ((recount_isDir m b).1 other), same]

theorem refcnt_recount {d : Int} :
    (fun m => ((v.recount k d).inode m).refcnt) =
      Function.update (fun m => (v.inode m).refcnt) k ((v.inode k).refcnt + d) := by
  funext m
  by_cases here : m = k
  · subst here
    rw [Function.update_self, recount, setInode_self]
  · rw [Function.update_of_ne here, recount, setInode_ne here]

theorem used_recount {d : Int} (m : Nat) : (v.recount k d).Used m ↔ v.Used m := by
  unfold Used recount
  by_cases here : m = k
  · subst here
    rw [setInode_self]
  · rw [setInode_ne here]

/-- The references after a new inode is entered. -/
theorem named_add {type : InodeType} {c : Option Nat} (owned : Owned fs v) (dir : v.IsDir n b)
    (kind : type = .file ∨ type = .dir) (empty : ¬ v.Used k)
    (block : ∀ x, c = some x → fs.IsData x ∧ v.blockType x = BlockType.free.code) :
    ((v.add type k c).setEntry b i (some k)).named = Function.update v.named (n, i) (some k) := by
  have fresh : ∀ m x, v.IsDir m x → c ≠ some x := fun m x isDir mine =>
    owned.not_free isDir.used (block x mine).2 isDir.block
  have old : ∀ m, m ≠ k → ∀ x, (v.add type k c).IsDir m x ↔ v.IsDir m x := by
    intro m other x
    have same : (v.add type k c).inode m = v.inode m := add_inode_ne other
    exact ⟨fun h => ⟨same ▸ h.type, same ▸ h.block⟩, fun h => ⟨same.symm ▸ h.type, same.symm ▸ h.block⟩⟩
  have notK : n ≠ k := fun same => empty (same ▸ dir.used)
  have same : (v.add type k c).named = v.named := by
    funext place
    obtain ⟨m, j⟩ := place
    by_cases here : m = k
    · -- the block of a new directory is empty
      subst here
      rw [named_of_not fun x isDir => empty isDir.used]
      by_cases isDir : ∃ x, (v.add type m c).IsDir m x
      · obtain ⟨x, isDir⟩ := isDir
        have block := isDir.block
        have code := isDir.type
        rw [add_inode_self] at block code
        have asDir : type = .dir := by
          obtain rfl | rfl := kind
          · exact absurd (show InodeType.file.code = InodeType.dir.code from code) (by decide)
          · rfl
        have cleared : (v.add type m c).entry x = fun _ => none := if_pos ⟨blockOf_eq block, asDir⟩
        rw [named_of_isDir isDir, cleared]
        rfl
      · exact named_of_not (not_exists.1 isDir)
    · apply named_congr (old m here)
      intro x isDir
      have untouched : (v.add type k c).entry x = v.entry x :=
        if_neg fun both => fresh m x isDir both.1
      rw [untouched]
  rw [named_setEntry ((old n notK b).2 dir), same]
  · rfl
  · intro m isDir
    by_cases here : m = k
    · subst here
      have mine := isDir.block
      rw [add_inode_self] at mine
      exact absurd (blockOf_eq mine) (fresh n b dir)
    · exact owned.sole dir m ((old m here b).1 isDir)

/-- A reference after an inode is removed was one before. -/
theorem named_remove {c : Option Nat} (dir : v.IsDir n b) {place : Nat × Nat} {m : Nat}
    (names : ((v.remove k c).setEntry b i none).named place = some m) :
    Function.update v.named (n, i) none place = some m ∧ place.1 ≠ k := by
  obtain ⟨n', j⟩ := place
  obtain ⟨x, id, isDir, entry, same⟩ := named_eq_some.1 names
  have removed : (v.remove k c).IsDir n' x := ⟨isDir.type, isDir.block⟩
  have other : n' ≠ k := (remove_used_iff.1 removed.used).2
  have inode : (v.remove k c).inode n' = v.inode n' := remove_inode_ne other
  have old : v.IsDir n' x := ⟨inode ▸ removed.type, inode ▸ removed.block⟩
  refine ⟨?_, other⟩
  by_cases here : (n', j) = (n, i)
  · obtain ⟨sameDir, index⟩ : n' = n ∧ j = i := Prod.mk.inj here
    subst sameDir index
    have block : x = b := old.unique dir
    subst block
    have stored : ((v.remove k c).setEntry x j none).entry x =
      Function.update ((v.remove k c).entry x) j none := setEntries_self ..
    rw [stored, Function.update_self] at entry
    contradiction
  · rw [Function.update_of_ne here, named_eq_some]
    refine ⟨x, id, old, ?_, same⟩
    by_cases block : x = b
    · subst block
      have stored : ((v.remove k c).setEntry x i none).entry x =
        Function.update (v.entry x) i none := setEntries_self ..
      rw [stored] at entry
      by_cases index : j = i
      · rw [index, Function.update_self] at entry
        contradiction
      · rwa [Function.update_of_ne index] at entry
    · have untouched : ((v.remove k c).setEntry b i none).entry x = v.entry x := setEntries_ne block
      rwa [untouched] at entry

/-- The other references stay. -/
theorem named_remove_of_ne {c : Option Nat} (owned : Owned fs v) (dir : v.IsDir n b)
    {place : Nat × Nat} {m : Nat} (other : place.1 ≠ k)
    (names : Function.update v.named (n, i) none place = some m) :
    ((v.remove k c).setEntry b i none).named place = some m := by
  obtain ⟨n', j⟩ := place
  by_cases here : (n', j) = (n, i)
  · rw [here, Function.update_self] at names
    contradiction
  · rw [Function.update_of_ne here, named_eq_some] at names
    obtain ⟨x, id, isDir, entry, same⟩ := names
    have inode : (v.remove k c).inode n' = v.inode n' := remove_inode_ne other
    refine named_eq_some.2 ⟨x, id, ⟨inode.symm ▸ isDir.type, inode.symm ▸ isDir.block⟩, ?_, same⟩
    by_cases block : x = b
    · subst block
      have index : j ≠ i := fun eq => here (by rw [owned.sole dir n' isDir, eq])
      have stored : ((v.remove k c).setEntry x i none).entry x =
        Function.update (v.entry x) i none := setEntries_self ..
      rw [stored, Function.update_of_ne index]
      exact entry
    · have untouched : ((v.remove k c).setEntry b i none).entry x = v.entry x := setEntries_ne block
      rw [untouched]
      exact entry

/-- A directory whose last name goes has no entries. -/
def Emptied (v : Volume) (change : Change) : Prop :=
  ∀ k b, change = .remove k → (v.inode k).refcnt = 1 → v.IsDir k b → ∀ i < 42, v.entry b i = none

/-- Each step is an operation of the counting scheme. It loses no reference unless a directory goes
with entries in it. -/
theorem Referenced.step {change : Change} (h : Referenced fs v lost) (owned : Owned fs v)
    (step : Step fs v change v') :
    ∃ lost', Referenced fs v' lost' ∧
      (v.Emptied change → (∀ m, lost m = 0) → ∀ m, lost' m = 0) := by
  cases step with
  | idle => exact ⟨lost, h, fun _ zero => zero⟩
  | @create n b i k type c dir place free slot empty kind block =>
    refine ⟨_, (h.create (dir.mem_places owned place) (named_of_free dir free) empty).congr
      (fun m => add_used_iff kind) (fun m _ => ?_) fun e _ => ?_, fun _ zero m => ?_⟩
    · show ((v.add type k c).inode m).refcnt = _
      by_cases here : m = k
      · subst here
        rw [Function.update_self, add_inode_self]
        rfl
      · rw [Function.update_of_ne here, add_inode_ne here]
    · rw [named_add owned dir kind empty block]
    · by_cases here : m = k
      · rw [here, Function.update_self]
      · rw [Function.update_of_ne here, zero]
  | @link n b i k dir place free used =>
    refine ⟨lost, (h.link (dir.mem_places owned place) (named_of_free dir free) used).congr used_recount
      (fun m _ => congrFun refcnt_recount m) fun e _ => ?_, fun _ zero => zero⟩
    rw [named_recount owned dir]
    rfl
  | @unlink n b i k dir place named used more =>
    refine ⟨lost, (h.unlink (dir.mem_places owned place) (named_of_entry dir named)).congr used_recount
      (fun m _ => congrFun refcnt_recount m) fun e _ => ?_, fun _ zero => zero⟩
    rw [named_recount owned dir]
    rfl
  | @drop n b i k c dir place named used last block =>
    have fewer : ∀ e ∈ places fs, ∀ m, ((v.remove k c).setEntry b i none).named e = some m →
        Function.update v.named (n, i) none e = some m :=
      fun e _ m still => (named_remove dir still).1
    have dropped := h.drop (dir.mem_places owned place) (named_of_entry dir named) last fewer
    refine ⟨_, dropped.congr (fun m => remove_used_iff) (fun m both => ?_) fun _ _ => rfl,
      fun emptied zero m => ?_⟩
    · exact congrArg Inode.refcnt (remove_inode_ne both.2)
    · -- no place of the removed inode holds a reference
      have kept : refs (places fs) (Function.update v.named (n, i) none) m ≤
          refs (places fs) ((v.remove k c).setEntry b i none).named m := by
        apply refs_mono
        rintro ⟨n', j⟩ inside still
        apply named_remove_of_ne owned dir _ still
        rintro rfl
        have other : (n', j) ≠ (n, i) := by
          intro here
          rw [here, Function.update_self] at still
          contradiction
        rw [Function.update_of_ne other, named_eq_some] at still
        obtain ⟨x, id, isDir, entry, -⟩ := still
        rw [emptied n' x rfl last isDir j (mem_places.1 inside).2] at entry
        contradiction
      rw [zero, Nat.zero_add]
      exact Nat.sub_eq_zero_of_le kept

end Step

end Volume

end OsLab.Kernel.Blkfs
