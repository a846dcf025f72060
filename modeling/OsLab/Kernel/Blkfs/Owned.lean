import OsLab.Kernel.Blkfs.Volume

/-!
# Ownership of blocks and inodes

The abstract file system: what creating, linking and removing a name do to a volume (`Step`), and
the invariant `Owned` they keep. Each block in use belongs to one inode, and the entries of a
directory name slots of the table. Nothing is said of reference counts, so the invariant also
holds where these have gone wrong.
-/

namespace OsLab.Kernel.Blkfs

namespace Volume

/-- Inode `n` is in use. -/
def Used (v : Volume) (n : Nat) : Prop := (v.inode n).type ≠ InodeType.empty.code

/-- Inode `n` is a directory with the entries of block `b`. -/
structure IsDir (v : Volume) (n b : Nat) : Prop where
  type : (v.inode n).type = InodeType.dir.code
  block : (v.inode n).blockId = b

theorem IsDir.used {v : Volume} {n b : Nat} (h : v.IsDir n b) : v.Used n := by
  intro empty
  have := h.type.symm.trans empty
  contradiction

/-- Every block in use belongs to one inode in use, and directories name inodes of the table. -/
structure Owned (fs : Info) (v : Volume) : Prop where
  slot : ∀ n, v.Used n → n < fs.slots
  id_eq : ∀ n, v.Used n → (v.inode n).id = n
  kind : ∀ n, v.Used n →
    (v.inode n).type = InodeType.file.code ∨ (v.inode n).type = InodeType.dir.code
  block : ∀ n, v.Used n → (v.inode n).blockId = -1 ∨
    ∃ b : Nat, fs.IsData b ∧ (v.inode n).blockId = b ∧ v.blockType b = BlockType.used.code
  unique : ∀ m n, v.Used m → v.Used n → (v.inode m).blockId = (v.inode n).blockId →
    (v.inode m).blockId ≠ -1 → m = n
  owner : ∀ b, fs.IsData b → v.blockType b = BlockType.used.code →
    ∃ n, v.Used n ∧ (v.inode n).blockId = b
  types : ∀ b, fs.IsData b →
    v.blockType b = BlockType.free.code ∨ v.blockType b = BlockType.used.code
  entries : ∀ n b i id, v.IsDir n b → v.entry b i = some id → ∃ k : Nat, k < fs.slots ∧ id = k
  size_le : ∀ n, v.Used n → (v.inode n).size ≤ blockDataSize

/-! ## Changes -/

/-- The block id of an inode that may have no block. -/
def blockOf : Option Nat → Int
  | none => -1
  | some c => c

/-- The volume with block `c` taken for a new inode. -/
def take (v : Volume) (type : InodeType) (c : Option Nat) : Volume where
  inode := v.inode
  blockType b := if c = some b then BlockType.used.code else v.blockType b
  entry b := if c = some b ∧ type = .dir then fun _ => none else v.entry b

/-- The volume with the new inode `k`. -/
def add (v : Volume) (type : InodeType) (k : Nat) (c : Option Nat) : Volume :=
  (v.take type c).setInode k (newInode type k (blockOf c) 1)

/-- The volume with another reference count of inode `k`. -/
def recount (v : Volume) (k : Nat) (delta : Int) : Volume :=
  v.setInode k { v.inode k with refcnt := (v.inode k).refcnt + delta }

/-- The volume with block `c` free. -/
def giveBack (v : Volume) (c : Option Nat) : Volume :=
  { v with blockType := fun b => if c = some b then BlockType.free.code else v.blockType b }

/-- The volume without inode `k` and its block `c`. -/
def remove (v : Volume) (k : Nat) (c : Option Nat) : Volume :=
  (v.giveBack c).setInode k { v.inode k with type := InodeType.empty.code }

/-- What a call did to the references: inode `k` was created, linked in directory `n`, or lost a
name. -/
inductive Change where
  | idle
  | create (k : Nat)
  | link (n k : Nat)
  | remove (k : Nat)
  deriving DecidableEq

/-- The steps of the file system. Inode `n` is the directory whose entry `i` changes and `k` the
inode this entry names. -/
inductive Step (fs : Info) (v : Volume) : Change → Volume → Prop
  | idle : Step fs v .idle v
  | create {n b i k : Nat} {type : InodeType} {c : Option Nat} (dir : v.IsDir n b) (place : i < 42)
      (free : v.entry b i = none) (slot : k < fs.slots) (empty : ¬ v.Used k)
      (kind : type = .file ∨ type = .dir)
      (block : ∀ x, c = some x → fs.IsData x ∧ v.blockType x = BlockType.free.code) :
      Step fs v (.create k) ((v.add type k c).setEntry b i (some k))
  | link {n b i k : Nat} (dir : v.IsDir n b) (place : i < 42) (free : v.entry b i = none)
      (used : v.Used k) : Step fs v (.link n k) ((v.recount k 1).setEntry b i (some k))
  | unlink {n b i k : Nat} (dir : v.IsDir n b) (place : i < 42) (named : v.entry b i = some (k : Int))
      (used : v.Used k) (more : (v.inode k).refcnt ≠ 1) :
      Step fs v (.remove k) ((v.recount k (-1)).setEntry b i none)
  | drop {n b i k : Nat} {c : Option Nat} (dir : v.IsDir n b) (place : i < 42)
      (named : v.entry b i = some (k : Int)) (used : v.Used k) (last : (v.inode k).refcnt = 1)
      (block : (v.inode k).blockId = blockOf c) :
      Step fs v (.remove k) ((v.remove k c).setEntry b i none)

/-! ## The invariant is kept -/

section Owned

variable {fs : Info} {v : Volume}

theorem Owned.data (h : Owned fs v) {n b : Nat} (used : v.Used n) (block : (v.inode n).blockId = b) :
    fs.IsData b ∧ v.blockType b = BlockType.used.code := by
  obtain none | ⟨c, data, same, busy⟩ := h.block n used
  · omega
  · have here : c = b := by omega
    exact here ▸ ⟨data, busy⟩

/-- A free block belongs to no inode. -/
theorem Owned.not_free (h : Owned fs v) {n b : Nat} (used : v.Used n)
    (free : v.blockType b = BlockType.free.code) : (v.inode n).blockId ≠ b := by
  intro block
  have := free.symm.trans (h.data used block).2
  contradiction

theorem setEntries_self (v : Volume) (b : Nat) (e : Nat → Option Int) :
    (v.setEntries b e).entry b = e :=
  Function.update_self ..

theorem setEntries_ne {b c : Nat} {e : Nat → Option Int} (h : c ≠ b) :
    (v.setEntries b e).entry c = v.entry c :=
  Function.update_of_ne h ..

/-- New entries in a block. -/
theorem Owned.setEntries (h : Owned fs v) {b : Nat} {e : Nat → Option Int}
    (valid : ∀ n, v.IsDir n b → ∀ i id, e i = some id → ∃ k : Nat, k < fs.slots ∧ id = k) :
    Owned fs (v.setEntries b e) where
  slot := h.slot
  id_eq := h.id_eq
  kind := h.kind
  block := h.block
  unique := h.unique
  owner := h.owner
  types := h.types
  entries n c i id dir entry := by
    have isDir : v.IsDir n c := ⟨dir.type, dir.block⟩
    by_cases here : c = b
    · subst here
      rw [setEntries_self] at entry
      exact valid n isDir i id entry
    · rw [setEntries_ne here] at entry
      exact h.entries n c i id isDir entry
  size_le := h.size_le

theorem Owned.setEntry (h : Owned fs v) {b i : Nat} {e : Option Int}
    (valid : ∀ id, e = some id → ∃ k : Nat, k < fs.slots ∧ id = k) :
    Owned fs (v.setEntry b i e) := by
  apply h.setEntries
  intro n dir j id entry
  by_cases here : j = i
  · subst here
    rw [Function.update_self] at entry
    exact valid id entry
  · rw [Function.update_of_ne here] at entry
    exact h.entries n b j id dir entry

theorem setInode_self (v : Volume) (k : Nat) (node : Inode) : (v.setInode k node).inode k = node :=
  Function.update_self ..

theorem setInode_ne {k m : Nat} {node : Inode} (h : m ≠ k) :
    (v.setInode k node).inode m = v.inode m :=
  Function.update_of_ne h ..

/-- Another size or reference count of an inode in use. -/
theorem Owned.setInode (h : Owned fs v) {k : Nat} {node : Inode}
    (type : node.type = (v.inode k).type) (id : node.id = (v.inode k).id)
    (blockId : node.blockId = (v.inode k).blockId) (small : v.Used k → node.size ≤ blockDataSize) :
    Owned fs (v.setInode k node) := by
  have same_type : ∀ m, ((v.setInode k node).inode m).type = (v.inode m).type := by
    intro m
    by_cases here : m = k
    · rw [here, setInode_self, type]
    · rw [setInode_ne here]
  have same_id : ∀ m, ((v.setInode k node).inode m).id = (v.inode m).id := by
    intro m
    by_cases here : m = k
    · rw [here, setInode_self, id]
    · rw [setInode_ne here]
  have same_block : ∀ m, ((v.setInode k node).inode m).blockId = (v.inode m).blockId := by
    intro m
    by_cases here : m = k
    · rw [here, setInode_self, blockId]
    · rw [setInode_ne here]
  have used_iff : ∀ m, (v.setInode k node).Used m ↔ v.Used m := by
    intro m
    unfold Used
    rw [same_type]
  refine ⟨fun n hn => ?_, fun n hn => ?_, fun n hn => ?_, fun n hn => ?_, fun m n hm hn => ?_,
    fun b data busy => ?_, h.types, fun n b i id dir => ?_, fun n hn => ?_⟩
  · exact h.slot n ((used_iff n).1 hn)
  · rw [same_id]
    exact h.id_eq n ((used_iff n).1 hn)
  · rw [same_type]
    exact h.kind n ((used_iff n).1 hn)
  · rw [same_block]
    exact h.block n ((used_iff n).1 hn)
  · rw [same_block, same_block]
    exact h.unique m n ((used_iff m).1 hm) ((used_iff n).1 hn)
  · obtain ⟨n, hn, owns⟩ := h.owner b data busy
    exact ⟨n, (used_iff n).2 hn, (same_block n).trans owns⟩
  · exact h.entries n b i id ⟨(same_type n).symm.trans dir.type, (same_block n).symm.trans dir.block⟩
  · have used := (used_iff n).1 hn
    by_cases here : n = k
    · rw [here, setInode_self]
      exact small (here ▸ used)
    · rw [setInode_ne here]
      exact h.size_le n used

theorem Owned.recount (h : Owned fs v) (k : Nat) (delta : Int) : Owned fs (v.recount k delta) :=
  h.setInode rfl rfl rfl (h.size_le k)

section Add

variable {k : Nat} {type : InodeType} {c : Option Nat}

theorem add_inode_self (v : Volume) (type : InodeType) (k : Nat) (c : Option Nat) :
    (v.add type k c).inode k = newInode type k (blockOf c) 1 :=
  setInode_self ..

theorem add_inode_ne {m : Nat} (h : m ≠ k) : (v.add type k c).inode m = v.inode m := by
  unfold add
  rw [setInode_ne h]
  rfl

theorem add_used_iff (kind : type = .file ∨ type = .dir) {m : Nat} :
    (v.add type k c).Used m ↔ m = k ∨ v.Used m := by
  have busy : (v.add type k c).Used k := by
    have code : (newInode type k (blockOf c) 1).type = type.code := rfl
    unfold Used
    rw [add_inode_self, code]
    obtain rfl | rfl := kind <;> decide
  by_cases here : m = k
  · subst here
    exact ⟨fun _ => .inl rfl, fun _ => busy⟩
  · unfold Used
    rw [add_inode_ne here]
    exact ⟨.inr, fun h => h.resolve_left here⟩

theorem blockOf_eq {b : Nat} (h : blockOf c = b) : c = some b := by
  cases c with
  | none =>
    have minus : (-1 : Int) = b := h
    omega
  | some c =>
    have same : (c : Int) = b := h
    exact congrArg some (Int.ofNat.inj same)

/-- A new inode with a free block, or without. -/
theorem Owned.add (h : Owned fs v) (slot : k < fs.slots) (kind : type = .file ∨ type = .dir)
    (empty : ¬ v.Used k) (block : ∀ x, c = some x → fs.IsData x ∧ v.blockType x = BlockType.free.code) :
    Owned fs (v.add type k c) := by
  -- no old inode has the new block
  have fresh : ∀ n b, v.Used n → (v.inode n).blockId = ((b : Nat) : Int) → c ≠ some b :=
    fun n b used owns mem => h.not_free used (block b mem).2 owns
  have old : ∀ {n}, (v.add type k c).Used n → n ≠ k → v.Used n :=
    fun used differs => ((add_used_iff kind).1 used).resolve_left differs
  refine ⟨fun n hn => ?_, fun n hn => ?_, fun n hn => ?_, fun n hn => ?_, fun m n hm hn same some => ?_,
    fun b data busy => ?_, fun b data => ?_, fun n b i id dir entry => ?_, fun n hn => ?_⟩
  · by_cases here : n = k
    · exact here ▸ slot
    · exact h.slot n (old hn here)
  · by_cases here : n = k
    · rw [here, add_inode_self]
      rfl
    · rw [add_inode_ne here]
      exact h.id_eq n (old hn here)
  · by_cases here : n = k
    · rw [here, add_inode_self]
      obtain rfl | rfl := kind
      · exact .inl rfl
      · exact .inr rfl
    · rw [add_inode_ne here]
      exact h.kind n (old hn here)
  · by_cases here : n = k
    · rw [here, add_inode_self]
      cases c with
      | none => exact .inl rfl
      | some c => exact .inr ⟨c, (block c rfl).1, rfl, if_pos rfl⟩
    · rw [add_inode_ne here]
      obtain none | ⟨b, data, owns, busy⟩ := h.block n (old hn here)
      · exact .inl none
      · refine .inr ⟨b, data, owns, ?_⟩
        exact (if_neg (fresh n b (old hn here) owns)).trans busy
  · by_cases hereM : m = k
    · by_cases hereN : n = k
      · rw [hereM, hereN]
      · rw [hereM, add_inode_self, add_inode_ne hereN] at same
        rw [hereM, add_inode_self] at some
        obtain none | ⟨b, -, owns, -⟩ := h.block n (old hn hereN)
        · exact absurd (same.trans none) some
        · exact absurd (blockOf_eq (same.trans owns)) (fresh n b (old hn hereN) owns)
    · rw [add_inode_ne hereM] at same some
      by_cases hereN : n = k
      · rw [hereN, add_inode_self] at same
        obtain none | ⟨b, -, owns, -⟩ := h.block m (old hm hereM)
        · exact absurd none some
        · exact absurd (blockOf_eq (same.symm.trans owns)) (fresh m b (old hm hereM) owns)
      · rw [add_inode_ne hereN] at same
        exact h.unique m n (old hm hereM) (old hn hereN) same some
  · by_cases mem : c = some b
    · refine ⟨k, (add_used_iff kind).2 (.inl rfl), ?_⟩
      rw [add_inode_self, mem]
      rfl
    · have before : v.blockType b = BlockType.used.code := (if_neg mem).symm.trans busy
      obtain ⟨n, used, owns⟩ := h.owner b data before
      have differs : n ≠ k := fun same => empty (same ▸ used)
      exact ⟨n, (add_used_iff kind).2 (.inr used), (congrArg _ (add_inode_ne differs)).trans owns⟩
  · by_cases mem : c = some b
    · exact .inr (if_pos mem)
    · have before : (v.add type k c).blockType b = v.blockType b := if_neg mem
      rw [before]
      exact h.types b data
  · by_cases here : n = k
    · have owns := dir.block
      have isDir := dir.type
      rw [here, add_inode_self] at owns isDir
      have asDir : type = .dir := by
        obtain rfl | rfl := kind
        · exact absurd (show InodeType.file.code = InodeType.dir.code from isDir) (by decide)
        · rfl
      have cleared : (v.add type k c).entry b = fun _ => none := if_pos ⟨blockOf_eq owns, asDir⟩
      rw [cleared] at entry
      contradiction
    · have isDir : v.IsDir n b := by
        have type := dir.type
        have owns := dir.block
        rw [add_inode_ne here] at type owns
        exact ⟨type, owns⟩
      have before : (v.add type k c).entry b = v.entry b :=
        if_neg fun both => fresh n b isDir.used isDir.block both.1
      rw [before] at entry
      exact h.entries n b i id isDir entry
  · by_cases here : n = k
    · rw [here, add_inode_self]
      exact Nat.zero_le _
    · rw [add_inode_ne here]
      exact h.size_le n (old hn here)

end Add

section Remove

variable {k : Nat} {c : Option Nat}

theorem remove_inode_self (v : Volume) (k : Nat) (c : Option Nat) :
    (v.remove k c).inode k = { v.inode k with type := InodeType.empty.code } :=
  setInode_self ..

theorem remove_inode_ne {m : Nat} (h : m ≠ k) : (v.remove k c).inode m = v.inode m :=
  setInode_ne h

theorem remove_used_iff {m : Nat} : (v.remove k c).Used m ↔ v.Used m ∧ m ≠ k := by
  by_cases here : m = k
  · subst here
    have empty : ¬ (v.remove m c).Used m := by
      unfold Used
      rw [remove_inode_self]
      exact not_not.2 rfl
    exact ⟨fun used => absurd used empty, fun both => absurd rfl both.2⟩
  · unfold Used
    rw [remove_inode_ne here]
    exact ⟨fun used => ⟨used, here⟩, fun both => both.1⟩

/-- An inode and its block given back. -/
theorem Owned.remove (h : Owned fs v) (used : v.Used k) (block : (v.inode k).blockId = blockOf c) :
    Owned fs (v.remove k c) := by
  have old : ∀ {n}, (v.remove k c).Used n → v.Used n := fun hn => (remove_used_iff.1 hn).1
  have same : ∀ {n}, (v.remove k c).Used n → (v.remove k c).inode n = v.inode n :=
    fun hn => remove_inode_ne (remove_used_iff.1 hn).2
  -- a block of another inode is not the one given back
  have kept : ∀ n b, (v.remove k c).Used n → (v.inode n).blockId = ((b : Nat) : Int) → c ≠ some b := by
    intro n b hn owns mine
    subst mine
    have notMinus : (v.inode n).blockId ≠ -1 := by omega
    exact (remove_used_iff.1 hn).2 (h.unique n k (old hn) used (owns.trans block.symm) notMinus)
  refine ⟨fun n hn => h.slot n (old hn), fun n hn => ?_, fun n hn => ?_, fun n hn => ?_,
    fun m n hm hn => ?_, fun b data busy => ?_, fun b data => ?_, fun n b i id dir => ?_,
    fun n hn => ?_⟩
  · rw [same hn]
    exact h.id_eq n (old hn)
  · rw [same hn]
    exact h.kind n (old hn)
  · rw [same hn]
    obtain none | ⟨b, data, owns, busy⟩ := h.block n (old hn)
    · exact .inl none
    · exact .inr ⟨b, data, owns, (if_neg (kept n b hn owns)).trans busy⟩
  · rw [same hm, same hn]
    exact h.unique m n (old hm) (old hn)
  · have notMine : c ≠ some b := by
      intro mine
      have free : (v.remove k c).blockType b = BlockType.free.code := if_pos mine
      have := free.symm.trans busy
      contradiction
    obtain ⟨n, hn, owns⟩ := h.owner b data ((if_neg notMine).symm.trans busy)
    have other : n ≠ k := by
      intro here
      rw [here, block] at owns
      exact notMine (blockOf_eq owns)
    exact ⟨n, remove_used_iff.2 ⟨hn, other⟩, (congrArg _ (remove_inode_ne other)).trans owns⟩
  · by_cases mine : c = some b
    · exact .inl (if_pos mine)
    · have before : (v.remove k c).blockType b = v.blockType b := if_neg mine
      rw [before]
      exact h.types b data
  · have hn := dir.used
    have type := dir.type
    have owns := dir.block
    rw [same hn] at type owns
    exact h.entries n b i id ⟨type, owns⟩
  · rw [same hn]
    exact h.size_le n (old hn)

end Remove

/-- Every step keeps the ownership. -/
theorem Owned.step {change : Change} {v' : Volume} (h : Owned fs v) (step : Step fs v change v') :
    Owned fs v' := by
  cases step with
  | idle => exact h
  | create dir place free slot empty kind block =>
    apply (h.add slot kind empty block).setEntry
    rintro id ⟨⟩
    exact ⟨_, slot, rfl⟩
  | link dir place free used =>
    apply (h.recount _ _).setEntry
    rintro id ⟨⟩
    exact ⟨_, h.slot _ used, rfl⟩
  | unlink dir place named used more =>
    apply (h.recount _ _).setEntry
    intro id none
    contradiction
  | drop dir place named used last block =>
    apply (h.remove used block).setEntry
    intro id none
    contradiction

end Owned

end Volume

end OsLab.Kernel.Blkfs
