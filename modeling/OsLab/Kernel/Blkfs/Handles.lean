import OsLab.Kernel.Blkfs.Run

/-!
# Handles

A handle keeps a copy of an inode. `Sane` says what holds of every handle, stale or not; a handle
that is not stale is `Live`: its copy agrees with the inode on the disk in all but the size and
the reference count. A write stays in the data of the copy's block, and when the file grows it
stores the whole copy (`inodeWrite_ok`).
-/

namespace OsLab.Kernel.Blkfs

open OsLab.Memory OsLab.Klib Volume

/-- The copy of some inode, not necessarily one that is still in use. -/
structure CopyOk (fs : Info) (node : Inode) : Prop where
  fits : node.Fits
  slot : ∃ k : Nat, k < fs.slots ∧ node.id = k
  block : node.blockId = -1 ∨ ∃ b : Nat, fs.IsData b ∧ node.blockId = b
  size_le : node.size ≤ blockDataSize

/-- What holds of every handle. -/
structure Sane (fs : Info) (f : Handle) : Prop where
  unopened : f.ptr = none → f.offset = 0 ∧ f.flags ≠ .fileWrite
  copy : ∀ node, f.ptr = some node → CopyOk fs node
  offset_le : ∀ node, f.ptr = some node → f.offset ≤ node.size
  file : ∀ node, f.ptr = some node → f.flags = .fileWrite → node.type = InodeType.file.code

/-- `node` is the copy of inode `k`, which is in use: only size and reference count may differ. -/
structure Live (v : Volume) (node : Inode) (k : Nat) : Prop where
  used : v.Used k
  id_eq : node.id = k
  type : node.type = (v.inode k).type
  blockId : node.blockId = (v.inode k).blockId

section Handle

variable {fs : Info} {d d' : Disk} {f : Handle}

theorem Found.copyOk {node : Inode} {k : Nat} (h : Found fs d node k)
    (owned : Owned fs (volume fs d)) : CopyOk fs node := by
  rw [h.copy]
  refine ⟨?_, ⟨k, h.slot, owned.id_eq k h.used⟩, ?_, owned.size_le k h.used⟩
  · rw [volume_inode h.slot]
    exact inodeOf_fits d k
  · obtain none | ⟨b, data, owns, -⟩ := owned.block k h.used
    · exact .inl none
    · exact .inr ⟨b, data, owns⟩

theorem Found.live {node : Inode} {k : Nat} (h : Found fs d node k)
    (owned : Owned fs (volume fs d)) : Live (volume fs d) node k := by
  have copy := h.copy
  subst copy
  exact ⟨h.used, owned.id_eq k h.used, rfl, rfl⟩

/-- The handle of a lookup. -/
theorem fsLookup_sane {path : CStr} (owned : Owned fs (volume fs d))
    (h : fsLookup fs d path = .ok f) :
    Sane fs f ∧ ∀ node, f.ptr = some node → ∃ k, Found fs d node k := by
  have found : ∀ node, f.ptr = some node → ∃ k, Found fs d node k :=
    fun node copy => fsLookup_found owned h copy
  unfold fsLookup at h
  obtain ⟨-, h⟩ := kassert_bind_eq_ok.1 h
  obtain ⟨bnode, -, done⟩ := bind_eq_ok.1 h
  cases done
  refine ⟨⟨fun _ => ⟨rfl, nofun⟩, fun node copy => ?_, fun _ _ => Nat.zero_le _, nofun⟩, found⟩
  obtain ⟨k, foundNode⟩ := found node copy
  exact foundNode.copyOk owned

theorem inodeAccess_ok {flags : AccessFlag} (h : inodeAccess f flags ≠ -1) :
    ∃ node, f.ptr = some node ∧ (flags ≠ .dirExist → node.type = InodeType.file.code) := by
  unfold inodeAccess at h
  cases copy : f.ptr with
  | none =>
    rw [copy] at h
    contradiction
  | some node =>
    rw [copy] at h
    refine ⟨node, rfl, fun notDir => ?_⟩
    by_contra other
    cases flags with
    | dirExist => exact notDir rfl
    | other => exact h rfl
    | fileExist => exact h (if_neg other)
    | fileRead => exact h (if_neg other)
    | fileWrite => exact h (if_neg other)
    | fileAppend => exact h (if_neg other)

/-- Setting flags and offset of a handle whose file may be accessed. -/
theorem Sane.openFound (h : Sane fs f) (r : Int) (flags : AccessFlag) :
    Sane fs (openFound r f flags).2 := by
  unfold Blkfs.openFound
  by_cases stop : r = -1 ∨ inodeAccess f flags = -1
  · rw [if_pos stop]
    exact h
  · rw [if_neg stop]
    obtain ⟨node, copy, isFile⟩ := inodeAccess_ok fun minus => stop (.inr minus)
    have there : ∀ {p : Prop}, f.ptr = none → p := fun none => by
      rw [copy] at none
      contradiction
    have same : ∀ {other}, f.ptr = some other → node = other :=
      fun eq => Option.some.inj (copy.symm.trans eq)
    cases flags with
    | dirExist => exact h
    | fileExist => exact h
    | other => exact h
    | fileRead => exact ⟨there, h.copy, fun _ _ => Nat.zero_le _, nofun⟩
    | fileWrite =>
      exact ⟨there, h.copy, fun _ _ => Nat.zero_le _, fun _ eq _ => same eq ▸ isFile nofun⟩
    | fileAppend =>
      refine ⟨there, h.copy, fun other eq => ?_, fun _ eq _ => same eq ▸ isFile nofun⟩
      show f.ptr.elim 0 (fun node => node.size) ≤ other.size
      rw [show f.ptr = some other from eq]
      exact Nat.le_refl _

end Handle

/-! ## Writing -/

section Write

variable {fs : Info} {d d' : Disk} {f f' : Handle} {buf : Mem} {size : Nat} {res : Int}

/-- The end of a write. -/
def writeEnd (f : Handle) (size : Nat) : Nat := f.offset + writeCount f.offset size

/-- The write goes past the size in the copy. -/
def Grows (f : Handle) (node : Inode) (size : Nat) : Prop := node.size < writeEnd f size

/-- The disk with the bytes written in block `b`. -/
def dataWritten (d : Disk) (f : Handle) (b : Nat) (buf : Mem) (size : Nat) : Disk :=
  patch d b (sizeofBlock + f.offset) (writeCount f.offset size) buf

/-- What a write through the copy `node` of inode `k` with block `b` leaves. -/
inductive Wrote (d : Disk) (f : Handle) (buf : Mem) (size : Nat) (node : Inode) (b k : Nat) :
    Handle → Disk → Prop
  | inside (fits : ¬ Grows f node size) :
      Wrote d f buf size node b k { f with offset := writeEnd f size } (dataWritten d f b buf size)
  | grown (grows : Grows f node size) :
      Wrote d f buf size node b k
        { f with offset := writeEnd f size, ptr := some { node with size := writeEnd f size } }
        (setInode (dataWritten d f b buf size) k { node with size := writeEnd f size })

/-- A write of a sane handle ends within the block. -/
theorem writeEnd_le {offset : Nat} (h : offset ≤ blockDataSize) (size : Nat) :
    offset + writeCount offset size ≤ blockDataSize := by
  have room : ofInt32 (blockDataSize - offset) = blockDataSize - offset := by
    have bound : offset ≤ 1024 := h
    show ofInt32 ((1024 : Nat) - (offset : Int)) = 1024 - offset
    unfold ofInt32
    omega
  unfold writeCount
  rw [room]
  dsimp only
  by_cases large : size > blockDataSize - offset
  · rw [if_pos large]
    omega
  · rw [if_neg large]
    omega

theorem inodeWrite_ok (sane : Sane fs f) (h : inodeWrite fs d f buf size = .ok (res, f', d')) :
    (f.flags = .fileWrite → f.ptr = none) ∧ f' = f ∧ d' = d ∨
      ∃ node, ∃ b k : Nat, f.flags = .fileWrite ∧ f.ptr = some node ∧ fs.IsData b ∧
        node.blockId = b ∧ k < fs.slots ∧ node.id = k ∧ Wrote d f buf size node b k f' d' := by
  unfold inodeWrite at h
  by_cases writable : f.flags ≠ .fileWrite
  · rw [if_pos writable] at h
    cases h
    exact .inl ⟨fun writes => absurd writes writable, rfl, rfl⟩
  · rw [if_neg writable] at h
    cases copy : f.ptr with
    | none =>
      rw [copy] at h
      cases h
      exact .inl ⟨fun _ => rfl, rfl, rfl⟩
    | some node =>
      simp only [copy] at h
      obtain ⟨hasBlock, h⟩ := kassert_bind_eq_ok.1 h
      obtain ⟨d1, write, h⟩ := bind_eq_ok.1 h
      obtain ⟨⟨f2, d2⟩, store, done⟩ := bind_eq_ok.1 h
      cases done
      have ok := sane.copy node copy
      obtain ⟨k, slot, id_eq⟩ := ok.slot
      obtain ⟨b, data, block⟩ := ok.block.resolve_left hasBlock
      have small : f.offset ≤ 1024 := (sane.offset_le node copy).trans ok.size_le
      have last : writeEnd f size ≤ 1024 := writeEnd_le small size
      have offset : f.offset % 2 ^ 32 = f.offset := Nat.mod_eq_of_lt (by omega)
      have written : d1 = dataWritten d f b buf size := by
        unfold blockWritedata at write
        obtain ⟨-, write⟩ := kassert_bind_eq_ok.1 write
        obtain ⟨-, write⟩ := kassert_bind_eq_ok.1 write
        obtain ⟨-, -, rfl⟩ := blockWrite_eq_ok.1 write
        have start : (f.offset % 2 ^ 32 + sizeofBlock) % 2 ^ 32 = sizeofBlock + f.offset := by
          show (f.offset % 2 ^ 32 + 8) % 2 ^ 32 = 8 + f.offset
          omega
        rw [block, ofInt32_block data.2, start]
        rfl
      have ended : (f.offset + writeCount f.offset size) % 2 ^ 64 = writeEnd f size :=
        Nat.mod_eq_of_lt (show writeEnd f size < 2 ^ 64 by omega)
      refine .inr ⟨node, b, k, not_not.1 writable, rfl, data, block, slot, id_eq, ?_⟩
      subst written
      unfold storeSize at store
      dsimp only at store
      rw [ended] at store
      by_cases grows : Grows f node size
      · rw [if_pos (show writeEnd f size > node.size from grows)] at store
        obtain ⟨d3, set, done⟩ := bind_eq_ok.1 store
        cases done
        obtain ⟨-, rfl⟩ := inodeSet_eq_ok.1 set
        have stored : writeEnd f size % 2 ^ 32 = writeEnd f size := Nat.mod_eq_of_lt (by omega)
        have index : ofInt32 node.id = k := by rw [id_eq, ofInt32_slot slot]
        dsimp only
        rw [stored, index]
        exact .grown grows
      · rw [if_neg (show ¬ writeEnd f size > node.size from grows)] at store
        cases store
        rw [← copy]
        exact .inside grows

/-- The data written changes the entries of its block at most. -/
theorem volume_dataWritten {b : Nat} (data : fs.IsData b) :
    volume fs (dataWritten d f b buf size) =
      (volume fs d).setEntries b ((volume fs (dataWritten d f b buf size)).entry b) :=
  volume_onlyIn_entries (onlyIn_patch d b _ _ buf) data (Nat.le_add_right ..)

theorem dataWritten_nothing {b : Nat} (none : writeCount f.offset size = 0) :
    dataWritten d f b buf size = d := by
  have same : store (d b) (sizeofBlock + f.offset) 0 buf = d b := by
    funext x
    exact store_outside (by omega)
  unfold dataWritten patch
  rw [none, same, Function.update_eq_self]

section Effect

variable {node : Inode} {b k : Nat}

theorem Wrote.volume_eq (w : Wrote d f buf size node b k f' d') (data : fs.IsData b)
    (slot : k < fs.slots) (ok : CopyOk fs node) (last : writeEnd f size ≤ blockDataSize) :
    ∃ e, ¬ Grows f node size ∧ volume fs d' = (volume fs d).setEntries b e ∨
      Grows f node size ∧
        volume fs d' = ((volume fs d).setEntries b e).setInode k { node with size := writeEnd f size } := by
  have bound : writeEnd f size < 2 ^ 32 := by
    have small : writeEnd f size ≤ 1024 := last
    omega
  refine ⟨(volume fs (dataWritten d f b buf size)).entry b, ?_⟩
  cases w with
  | inside fits => exact .inl ⟨fits, volume_dataWritten data⟩
  | grown grows =>
    have old := ok.fits
    have fits : ({ node with size := writeEnd f size } : Inode).Fits :=
      ⟨old.type, old.id, old.blockId, old.refcnt, bound⟩
    refine .inr ⟨grows, ?_⟩
    rw [volume_setInode slot fits]
    congr 1
    exact volume_dataWritten data

/-- A write into a block without entries keeps the ownership, provided the copy it may store is
one of an inode in use. -/
theorem Wrote.owned (w : Wrote d f buf size node b k f' d') (owned : Owned fs (volume fs d))
    (data : fs.IsData b) (slot : k < fs.slots) (ok : CopyOk fs node)
    (last : writeEnd f size ≤ blockDataSize) (notDir : ∀ n, ¬ (volume fs d).IsDir n b)
    (live : Grows f node size → Live (volume fs d) node k) : Owned fs (volume fs d') := by
  have entries : ∀ e, Owned fs ((volume fs d).setEntries b e) :=
    fun e => owned.setEntries fun n dir => absurd dir (notDir n)
  obtain ⟨e, ⟨-, same⟩ | ⟨grows, same⟩⟩ := w.volume_eq data slot ok last
  · rw [same]
    exact entries e
  · rw [same]
    have copy := live grows
    have id_eq : node.id = ((volume fs d).inode k).id := copy.id_eq.trans (owned.id_eq k copy.used).symm
    exact (entries e).setInode copy.type id_eq copy.blockId fun _ => last

end Effect

end Write

/-! ## The handles of a run -/

/-- All handles are sane, and those that are not stale are live. -/
structure HandlesOk (fs : Info) (s : State) (stale : Nat → Prop) : Prop where
  sane : ∀ (i : Nat) f, s.handles[i]? = some f → Sane fs f
  live : ∀ (i : Nat) f node, s.handles[i]? = some f → f.ptr = some node → ¬ stale i →
    ∃ k, Live (volume fs s.disk) node k

/-- Inodes in use before and after keep their type and their block. -/
def Kept (v v' : Volume) : Prop :=
  ∀ k, v.Used k → v'.Used k →
    (v'.inode k).type = (v.inode k).type ∧ (v'.inode k).blockId = (v.inode k).blockId

section Kept

variable {fs : Info} {v v' : Volume}

theorem Kept.refl (v : Volume) : Kept v v := fun _ _ _ => ⟨rfl, rfl⟩

theorem kept_setInode {k : Nat} {node : Inode} (type : node.type = (v.inode k).type)
    (blockId : node.blockId = (v.inode k).blockId) : Kept v (v.setInode k node) := by
  intro m _ _
  by_cases here : m = k
  · rw [here, setInode_self]
    exact ⟨type, blockId⟩
  · rw [setInode_ne here]
    exact ⟨rfl, rfl⟩

/-- A step keeps the inodes that stay in use. -/
theorem kept_step {change : Change} (step : Step fs v change v') : Kept v v' := by
  cases step with
  | idle => exact Kept.refl v
  | @create n b i k type c dir place free slot empty kind block =>
    intro m used _
    have other : m ≠ k := fun eq => empty (eq ▸ used)
    have same : ((v.add type k c).setEntry b i (some k)).inode m = v.inode m := add_inode_ne other
    rw [same]
    exact ⟨rfl, rfl⟩
  | link dir place free used => exact kept_setInode rfl rfl
  | unlink dir place named used more => exact kept_setInode rfl rfl
  | @drop n b i k c dir place named used last block =>
    intro m _ still
    have removed : (v.remove k c).Used m := still
    have same : ((v.remove k c).setEntry b i none).inode m = v.inode m :=
      remove_inode_ne (remove_used_iff.1 removed).2
    rw [same]
    exact ⟨rfl, rfl⟩

theorem Live.keep {node : Inode} {k : Nat} (h : Live v node k) (kept : Kept v v')
    (still : v'.Used k) : Live v' node k := by
  obtain ⟨type, blockId⟩ := kept k h.used still
  exact ⟨still, h.id_eq, h.type.trans type.symm, h.blockId.trans blockId.symm⟩

end Kept

section Write

variable {fs : Info} {d d' : Disk} {f f' : Handle} {buf : Mem} {size : Nat} {node : Inode} {b k : Nat}

/-- A write keeps every inode, provided the copy it may store is one of an inode in use. -/
theorem Wrote.kept (w : Wrote d f buf size node b k f' d') (data : fs.IsData b)
    (slot : k < fs.slots) (ok : CopyOk fs node) (last : writeEnd f size ≤ blockDataSize)
    (live : Grows f node size → Live (volume fs d) node k) :
    Kept (volume fs d) (volume fs d') ∧ ∀ m, (volume fs d').Used m ↔ (volume fs d).Used m := by
  obtain ⟨e, ⟨-, same⟩ | ⟨grows, same⟩⟩ := w.volume_eq data slot ok last
  · rw [same]
    exact ⟨fun _ _ _ => ⟨rfl, rfl⟩, fun _ => Iff.rfl⟩
  · have copy := live grows
    rw [same]
    refine ⟨kept_setInode copy.type copy.blockId, fun m => ?_⟩
    unfold Used
    by_cases here : m = k
    · rw [here, setInode_self, show ({ node with size := writeEnd f size } : Inode).type = node.type
        from rfl, copy.type]
    · rw [setInode_ne here]
      exact Iff.rfl

/-- The handle after a write. -/
theorem Wrote.sane (w : Wrote d f buf size node b k f' d') (sane : Sane fs f)
    (copy : f.ptr = some node) (last : writeEnd f size ≤ blockDataSize) : Sane fs f' := by
  have ok := sane.copy node copy
  cases w with
  | inside fits =>
    refine ⟨fun missing => ?_, sane.copy, fun other eq => ?_, sane.file⟩
    · have missing : f.ptr = none := missing
      rw [copy] at missing
      contradiction
    · have same : node = other := Option.some.inj (copy.symm.trans eq)
      exact same ▸ Nat.not_lt.1 fits
  | grown grows =>
    have bound : writeEnd f size < 2 ^ 32 := by
      have small : writeEnd f size ≤ 1024 := last
      omega
    refine ⟨nofun, fun other eq => ?_, fun other eq => ?_, fun other eq writable => ?_⟩
    · have same := Option.some.inj eq
      have old := ok.fits
      subst same
      exact ⟨⟨old.type, old.id, old.blockId, old.refcnt, bound⟩, ok.slot, ok.block, last⟩
    · have same := Option.some.inj eq
      subst same
      exact Nat.le_refl _
    · have same := Option.some.inj eq
      subst same
      exact sane.file node copy writable

/-- The copy after a write is of the same inode. -/
theorem Wrote.live (w : Wrote d f buf size node b k f' d') (copy : f.ptr = some node) {v : Volume}
    {m : Nat} (live : Live v node m) {other : Inode} (eq : f'.ptr = some other) : Live v other m := by
  cases w with
  | inside fits =>
    have same : node = other := Option.some.inj (copy.symm.trans eq)
    exact same ▸ live
  | grown grows =>
    have same := Option.some.inj eq
    subst same
    exact ⟨live.used, live.id_eq, live.type, live.blockId⟩

/-- The block of a file in use is no directory's. -/
theorem Live.notDir (live : Live (volume fs d) node k) (owned : Owned fs (volume fs d))
    (file : node.type = InodeType.file.code) (block : node.blockId = b) (n : Nat) :
    ¬ (volume fs d).IsDir n b := by
  intro dir
  have owns := live.blockId.symm.trans block
  have notMinus : ((volume fs d).inode n).blockId ≠ -1 := by
    rw [dir.block]
    omega
  have same : n = k := owned.unique n k dir.used live.used (dir.block.trans owns.symm) notMinus
  have type := dir.type
  rw [same, ← live.type, file] at type
  contradiction

end Write

section Handles

variable {fs : Info} {s s' : State} {stale : Nat → Prop}

/-- A handle that is the same and not stale after a call is live. -/
theorem HandlesOk.keep {i : Nat} {f : Handle} {node : Inode} (h : HandlesOk fs s stale)
    (kept : Kept (volume fs s.disk) (volume fs s'.disk)) (handle : s.handles[i]? = some f)
    (copy : f.ptr = some node) (fresh : ¬ staleAfter stale s s' i) :
    ∃ k, Live (volume fs s'.disk) node k := by
  obtain ⟨k, live⟩ := h.live i f node handle copy fun before => fresh (.inl before)
  have slot := slot_of_used live.used
  refine ⟨k, live.keep kept ?_⟩
  by_contra gone
  exact fresh (.inr ⟨f, node, handle, copy, k, live.id_eq, (volume_used slot).1 live.used,
    fun busy => gone ((volume_used slot).2 busy)⟩)

theorem getElem?_set_some {l : List Handle} {i j : Nat} {f f' : Handle}
    (h : (l.set j f')[i]? = some f) : i = j ∧ f = f' ∨ l[i]? = some f := by
  rw [List.getElem?_set] at h
  by_cases here : j = i
  · rw [if_pos here] at h
    by_cases inside : j < l.length
    · rw [if_pos inside, Option.some.injEq] at h
      exact .inl ⟨here.symm, h.symm⟩
    · rw [if_neg inside] at h
      contradiction
  · rw [if_neg here] at h
    exact .inr h

/-- A call that leaves the handles. -/
theorem HandlesOk.same (h : HandlesOk fs s stale)
    (kept : Kept (volume fs s.disk) (volume fs s'.disk)) (handles : s'.handles = s.handles) :
    HandlesOk fs s' (staleAfter stale s s') where
  sane i f handle := h.sane i f (handles ▸ handle)
  live _ _ _ handle copy fresh := h.keep kept (handles ▸ handle) copy fresh

/-- A call that changes handle `j`. -/
theorem HandlesOk.set {j : Nat} {f' : Handle} (h : HandlesOk fs s stale)
    (kept : Kept (volume fs s.disk) (volume fs s'.disk)) (handles : s'.handles = s.handles.set j f')
    (sane : Sane fs f')
    (live : ∀ node, f'.ptr = some node → ¬ staleAfter stale s s' j →
      ∃ k, Live (volume fs s'.disk) node k) :
    HandlesOk fs s' (staleAfter stale s s') := by
  refine ⟨fun i f handle => ?_, fun i f node handle copy fresh => ?_⟩
  · rw [handles] at handle
    obtain ⟨-, rfl⟩ | old := getElem?_set_some handle
    · exact sane
    · exact h.sane i f old
  · rw [handles] at handle
    obtain ⟨rfl, rfl⟩ | old := getElem?_set_some handle
    · exact live node copy fresh
    · exact h.keep kept old copy fresh

/-- A call that adds a handle and leaves the disk. -/
theorem HandlesOk.append {f' : Handle} (h : HandlesOk fs s stale) (disk : s'.disk = s.disk)
    (handles : s'.handles = s.handles ++ [f']) (sane : Sane fs f')
    (live : ∀ node, f'.ptr = some node → ∃ k, Live (volume fs s.disk) node k) :
    HandlesOk fs s' (staleAfter stale s s') := by
  have last : ∀ {i : Nat} {f}, s'.handles[i]? = some f → s.handles[i]? = some f ∨ f = f' := by
    intro i f handle
    rw [handles, List.getElem?_append] at handle
    by_cases inside : i < s.handles.length
    · rw [if_pos inside] at handle
      exact .inl handle
    · rw [if_neg inside] at handle
      exact .inr (List.mem_singleton.1 (List.mem_of_getElem? handle))
  have kept : Kept (volume fs s.disk) (volume fs s'.disk) := disk ▸ Kept.refl _
  refine ⟨fun i f handle => ?_, fun i f node handle copy fresh => ?_⟩
  · obtain old | rfl := last handle
    · exact h.sane i f old
    · exact sane
  · obtain old | rfl := last handle
    · exact h.keep kept old copy fresh
    · rw [disk]
      exact live node copy

end Handles

/-! ## The invariant of runs -/

/-- A write through a stale handle does not store the copy, and stores data at most in a block
that no inode in use has. -/
def Harmless (fs : Info) (stale : Nat → Prop) (s : State) : Call → Prop
  | .write i _ size => ∀ f node, s.handles[i]? = some f → f.ptr = some node → f.flags = .fileWrite →
      stale i → ¬ Grows f node size.toNat ∧ (writeCount f.offset size.toNat = 0 ∨
        ∀ n < fs.slots, InUse s.disk n → (inodeOf s.disk n).blockId ≠ node.blockId)
  | _ => True

theorem harmless_of_noWrite {fs : Info} {stale : Nat → Prop} {s : State} {c : Call}
    (noWrite : ¬ c.IsWrite) : Harmless fs stale s c := by
  cases c with
  | write => exact absurd trivial noWrite
  | mkdir => trivial
  | rm => trivial
  | link => trivial
  | lookup => trivial
  | «open» => trivial

/-- The invariant of runs. -/
structure Sound (fs : Info) (s : State) (stale : Nat → Prop) : Prop where
  owned : Owned fs (volume fs s.disk)
  handles : HandlesOk fs s stale

section Sound

variable {fs : Info} {s s' : State} {stale : Nat → Prop} {c : Call} {res : Int}

/-- The call `c` on a sound state keeps it sound if it makes a step of the volume. -/
theorem Sound.path (h : Sound fs s stale) (noWrite : ¬ c.IsWrite)
    (call : exec fs s c = .ok (res, s')) : Sound fs s' (staleAfter stale s s') := by
  have owned := h.owned
  have step := exec_step owned noWrite call
  have kept := kept_step step
  refine ⟨owned.step step, ?_⟩
  cases c with
  | mkdir path =>
    obtain ⟨⟨r, d⟩, -, done⟩ := bind_eq_ok.1 call
    cases done
    exact h.handles.same kept rfl
  | rm path =>
    obtain ⟨⟨r, d⟩, -, done⟩ := bind_eq_ok.1 call
    cases done
    exact h.handles.same kept rfl
  | link oldpath newpath =>
    obtain ⟨⟨r, d⟩, -, done⟩ := bind_eq_ok.1 call
    cases done
    exact h.handles.same kept rfl
  | lookup path =>
    obtain ⟨f, lookup, done⟩ := bind_eq_ok.1 call
    cases done
    obtain ⟨sane, found⟩ := fsLookup_sane owned lookup
    refine h.handles.append rfl rfl sane fun node copy => ?_
    obtain ⟨k, foundNode⟩ := found node copy
    exact ⟨k, foundNode.live owned⟩
  | «open» i flags =>
    unfold exec at call
    cases handle : s.handles[i]? with
    | none =>
      simp only [handle] at call
      cases call
      exact h.handles.same kept rfl
    | some f =>
      simp only [handle] at call
      obtain ⟨⟨r, f', d⟩, run, done⟩ := bind_eq_ok.1 call
      cases done
      obtain ⟨r1, f1, opened, last⟩ := inodeOpen_ok owned run
      have result : f' = (openFound r1 f1 flags).2 := (congrArg Prod.snd last).symm
      have ptr : f'.ptr = f1.ptr := by rw [result, openFound_ptr]
      have old := h.handles.sane i f handle
      cases opened with
      | found there =>
        refine h.handles.set kept rfl (result ▸ old.openFound _ _) fun node copy fresh => ?_
        exact h.handles.keep kept handle (ptr.symm.trans copy) fresh
      | failed missing =>
        refine h.handles.set kept rfl (result ▸ old.openFound _ _) fun node copy fresh => ?_
        exact h.handles.keep kept handle (ptr.symm.trans copy) fresh
      | @created k node _ missing first copy type step' =>
        have owned' : Owned fs (volume fs d) := owned.step step'
        have zero := (old.unopened missing.1).1
        have sane : Sane fs { f with ptr := some node } := by
          refine ⟨nofun, fun other eq => ?_, fun other eq => ?_, fun other eq _ => ?_⟩
          · exact Option.some.inj eq ▸ copy.copyOk owned'
          · show f.offset ≤ other.size
            rw [zero]
            exact Nat.zero_le _
          · exact Option.some.inj eq ▸ type
        refine h.handles.set kept rfl (result ▸ sane.openFound _ _) fun other eq _ => ?_
        have same : node = other := Option.some.inj (ptr.symm.trans eq)
        exact ⟨k, same ▸ copy.live owned'⟩
  | write => exact absurd trivial noWrite

/-- A harmless write keeps a sound state. -/
theorem Sound.write {i : Nat} {buf : Mem} {size : UInt32} (h : Sound fs s stale)
    (harmless : Harmless fs stale s (.write i buf size))
    (call : exec fs s (.write i buf size) = .ok (res, s')) :
    Sound fs s' (staleAfter stale s s') ∧ Kept (volume fs s.disk) (volume fs s'.disk) := by
  have owned := h.owned
  unfold exec at call
  cases handle : s.handles[i]? with
  | none =>
    simp only [handle] at call
    cases call
    exact ⟨⟨owned, h.handles.same (Kept.refl _) rfl⟩, Kept.refl _⟩
  | some f =>
    simp only [handle] at call
    obtain ⟨⟨r, f', d⟩, run, done⟩ := bind_eq_ok.1 call
    cases done
    have sane := h.handles.sane i f handle
    obtain ⟨-, rfl, rfl⟩ | ⟨node, b, k, writable, copy, data, block, slot, id_eq, wrote⟩ :=
      inodeWrite_ok sane run
    · have same : s.handles.set i f' = s.handles := by
        obtain ⟨inside, here⟩ := List.getElem?_eq_some_iff.1 handle
        rw [← here, List.set_getElem_self]
      exact ⟨⟨owned, h.handles.same (Kept.refl _) same⟩, Kept.refl _⟩
    · have ok := sane.copy node copy
      have last : writeEnd f size.toNat ≤ blockDataSize :=
        writeEnd_le ((sane.offset_le node copy).trans ok.size_le) _
      have sane' := wrote.sane sane copy last
      by_cases old : stale i
      · obtain ⟨fits, free⟩ := harmless f node handle copy writable old
        obtain ⟨kept, -⟩ := wrote.kept data slot ok last fun grows => absurd grows fits
        have owned' : Owned fs (volume fs d) := by
          obtain none | unowned := free
          · cases wrote with
            | inside => rwa [dataWritten_nothing none]
            | grown grows => exact absurd grows fits
          · refine wrote.owned owned data slot ok last (fun n dir => ?_) fun grows => absurd grows fits
            have inUse := slot_of_used dir.used
            apply unowned n inUse ((volume_used inUse).1 dir.used)
            rw [← volume_inode inUse, dir.block, block]
        refine ⟨⟨owned', h.handles.set kept rfl sane' fun _ _ fresh => ?_⟩, kept⟩
        exact absurd (.inl old) fresh
      · obtain ⟨m, live⟩ := h.handles.live i f node handle copy old
        have same : m = k := Int.ofNat.inj (live.id_eq.symm.trans id_eq)
        subst same
        have notDir := live.notDir owned (sane.file node copy writable) block
        obtain ⟨kept, used_iff⟩ := wrote.kept data slot ok last fun _ => live
        have owned' := wrote.owned owned data slot ok last notDir fun _ => live
        refine ⟨⟨owned', h.handles.set kept rfl sane' fun other eq _ => ?_⟩, kept⟩
        exact ⟨m, wrote.live copy (live.keep kept ((used_iff m).2 live.used)) eq⟩

theorem Sound.exec (h : Sound fs s stale) (harmless : Harmless fs stale s c)
    (call : exec fs s c = .ok (res, s')) : Sound fs s' (staleAfter stale s s') := by
  by_cases isWrite : c.IsWrite
  · obtain ⟨i, buf, size, rfl⟩ := isWrite.eq
    exact (h.write harmless call).1
  · exact h.path isWrite call

/-- A formatted device without handles is sound. -/
theorem sound_fresh {fullSize : UInt32} {d d' : Disk} (blank : blockMagic d 0 ≠ magic)
    (format : fsInit fullSize d = .ok (fs, d')) : Sound fs ⟨d', []⟩ stale := by
  refine ⟨(fsInit_fresh blank format).owned, ⟨fun i f handle => ?_, fun i f node handle => ?_⟩⟩
  · cases handle
  · cases handle

/-- Every state of a run without harmful writes is sound. -/
theorem Run.sound {Ok : (Nat → Prop) → State → Call → Prop} {hist : List Change}
    (run : Run fs Ok s hist stale) (harmless : ∀ stale s c, Ok stale s c → Harmless fs stale s c) :
    Sound fs s stale := by
  induction run with
  | init blank format => exact sound_fresh blank format
  | step run ok call ih => exact ih.exec (harmless _ _ _ ok) call

end Sound

end OsLab.Kernel.Blkfs
