import OsLab.Kernel.Blkfs.Isolation
import OsLab.Kernel.Blkfs.Leaks

/-!
# What no call can break

Every block keeps the magic in its header, the root keeps a name more than the entries that name it,
and every inode in use has a reference count of at least 1. None of this depends on the counts of
files being right, so it also holds where a write has stored an old copy. `Run.intact` is for the
runs in which writes through stale handles are harmless.
-/

namespace OsLab.Kernel.Blkfs

open OsLab.Memory OsLab.Klib OsLab.RefCount Volume

/-! ## The headers -/

/-- Every block of the device carries the magic. -/
def Stamped (fs : Info) (d : Disk) : Prop := ∀ b < fs.totalBlockNum, blockMagic d b = magic

section Stamped

variable {fs : Info} {d d' : Disk} {b lo n : Nat}

theorem blockMagic_setType_self (d : Disk) (b : Nat) (t : BlockType) :
    blockMagic (setType d b t) b = magic := by
  have stored : read32 (writeWords (d b) 0 2 (BlkfsBlock.words ⟨magic, t.code⟩)) (0 + 4 * 0) =
      ofInt32 magic :=
    read32_writeWords (by omega) (ofInt32_lt magic)
  unfold blockMagic setType readInt32
  rw [patch_same]
  show toInt32 (read32 (writeWords (d b) 0 2 (BlkfsBlock.words ⟨magic, t.code⟩)) (0 + 4 * 0)) = _
  rw [stored, toInt32_ofInt32 (by decide)]

theorem blockMagic_setType_ne {c : Nat} {t : BlockType} (h : c ≠ b) :
    blockMagic (setType d b t) c = blockMagic d c :=
  readInt32_patch fun same => absurd same h

theorem Stamped.setType (h : Stamped fs d) (b : Nat) (t : BlockType) :
    Stamped fs (setType d b t) := by
  intro c inside
  by_cases here : c = b
  · rw [here, blockMagic_setType_self]
  · rw [blockMagic_setType_ne here]
    exact h c inside

/-- A change behind the header of a block. -/
theorem Stamped.onlyIn (h : Stamped fs d) (only : OnlyIn d d' b lo n) (behind : 8 ≤ lo) :
    Stamped fs d' := by
  intro c inside
  rw [← h c inside]
  exact readInt32_congr (only.agree fun _ => .inr (by omega))

theorem Stamped.setInode (h : Stamped fs d) (k : Nat) (node : Inode) :
    Stamped fs (setInode d k node) :=
  h.onlyIn (onlyIn_setInode d k node) (Nat.le_add_right ..)

theorem Stamped.clearInode (h : Stamped fs d) (k : Nat) : Stamped fs (clearInode d k) :=
  h.onlyIn (onlyIn_clearInode d k) (Nat.le_add_right ..)

theorem Stamped.clearTypes (h : Stamped fs d) (b stride : Nat) (type : Int) (n : Nat) :
    Stamped fs (clearTypes d b stride type n) := by
  intro c inside
  rw [← h c inside]
  unfold blockMagic Blkfs.clearTypes
  by_cases here : c = b
  · rw [here, Function.update_self]
    apply readInt32_setTypes_apart
    intro i _
    show 8 + stride * i + 4 ≤ 0 ∨ 0 + 4 ≤ 8 + stride * i
    omega
  · rw [Function.update_of_ne here]

theorem Stamped.newBlock (h : Stamped fs d) (type : InodeType) (b : Nat) :
    Stamped fs (newBlock d type b) := by
  unfold Blkfs.newBlock
  by_cases dir : type = .dir
  · rw [if_pos dir]
    exact (h.setType b .used).clearTypes _ _ _ _
  · rw [if_neg dir]
    exact h.setType b .used

theorem Stamped.allocated {type : InodeType} {k : Nat} {refcnt : Int} (h : Stamped fs d)
    (alloc : Allocated fs d type k refcnt d') : Stamped fs d' := by
  cases alloc with
  | bare full => exact h.setInode _ _
  | withBlock b data found => exact (h.newBlock type b).setInode _ _

theorem Stamped.uncounted {k : Nat} (h : Stamped fs d) (drop : Uncounted fs d k d') :
    Stamped fs d' := by
  cases drop with
  | more others fits => exact h.setInode _ _
  | bare last block => exact h.clearInode k
  | withBlock c last data block => exact (h.setType c .free).clearInode k

/-- The calls that write no file. -/
theorem Stamped.change {name : CStr} {isLink : Prop} (h : Stamped fs d)
    (change : EntryChange fs d d' name isLink) : Stamped fs d' := by
  cases change with
  | same unchanged => exact unchanged ▸ h
  | @created type n b k ind d2 kind data dir named made =>
    rw [made.disk]
    exact (h.allocated made.alloc).onlyIn (onlyIn_setEntry k made.short) (Nat.le_add_right ..)
  | @linked n b k ind link data dir slot made =>
    rw [made.disk]
    exact (h.setInode _ _).onlyIn (onlyIn_setEntry k made.short) (Nat.le_add_right ..)
  | @unlinked n b k ind d1 data dir gone =>
    rw [gone.disk]
    exact (h.uncounted gone.drop).onlyIn (onlyIn_freeEntry d1 b ind) (Nat.le_add_right ..)

theorem Stamped.wrote {f f' : Handle} {buf : Mem} {size k : Nat} {node : Inode} (h : Stamped fs d)
    (w : Wrote d f buf size node b k f' d') : Stamped fs d' := by
  have data : Stamped fs (dataWritten d f b buf size) :=
    h.onlyIn (onlyIn_patch d b _ _ buf) (Nat.le_add_right ..)
  cases w with
  | inside fits => exact data
  | grown grows => exact data.setInode _ _

/-! ### Formatting -/

theorem stamped_initBlocks (h : forBlocks (blockInit fs) d fs.totalBlockNum 0 = .ok d') :
    Stamped fs d' := by
  have done := forBlocks_invariant (fun i d => ∀ b < i, blockMagic d b = magic)
    (fun j d d' _ before run b below => by
      rw [blockInit_ok run]
      by_cases here : b = j
      · rw [here, blockMagic_setType_self]
      · rw [blockMagic_setType_ne here]
        exact before b (by omega))
    (fun b below => absurd below (Nat.not_lt_zero b)) h
  rwa [Nat.zero_add] at done

theorem Stamped.initTable (stamped : Stamped fs d)
    (h : forBlocks (initTableBlock fs) d fs.inodeBlockNum 0 = .ok d') : Stamped fs d' :=
  forBlocks_invariant (fun _ d => Stamped fs d)
    (fun j d d' _ before run => by
      rw [initTableBlock_ok run]
      exact (before.setType j .used).clearTypes _ _ _ _)
    stamped h

theorem Stamped.initRoot (stamped : Stamped fs d) (h : initRoot fs d = .ok d') :
    Stamped fs d' := by
  unfold Blkfs.initRoot at h
  obtain ⟨root, -, h⟩ := bind_eq_ok.1 h
  cases root with
  | none => cases h
  | some root =>
    obtain ⟨counted, -, h⟩ := bind_eq_ok.1 h
    obtain ⟨d1, set, h⟩ := bind_eq_ok.1 h
    obtain ⟨-, rfl⟩ := inodeSet_eq_ok.1 set
    obtain ⟨-, init⟩ := kassert_bind_eq_ok.1 h
    obtain ⟨-, rfl⟩ := dirBlockInit_eq_ok.1 init
    exact (stamped.setInode _ _).clearTypes _ _ _ _

theorem format_stamped (h : format fs d = .ok d') : Stamped fs d' := by
  unfold format at h
  obtain ⟨d1, initBlocks, h⟩ := bind_eq_ok.1 h
  obtain ⟨d2, initTable, h⟩ := bind_eq_ok.1 h
  obtain ⟨⟨rootdir, d3⟩, alloc, h⟩ := bind_eq_ok.1 h
  obtain ⟨-, root⟩ := kassert_bind_eq_ok.1 h
  have table := (stamped_initBlocks initBlocks).initTable initTable
  obtain ⟨-, rfl, -⟩ | ⟨k, -, -, taken⟩ := inodeAlloc_ok alloc
  · exact table.initRoot root
  · exact (table.allocated taken).initRoot root

end Stamped

/-! ## The counts -/

/-- The root is a directory and has one name more than the entries that name it, and inodes in use
have names. -/
structure Intact (fs : Info) (v : Volume) : Prop where
  root : (v.inode 0).type = InodeType.dir.code
  named : (refs (places fs) v.named 0 : Int) + 1 ≤ (v.inode 0).refcnt
  positive : ∀ k, v.Used k → 1 ≤ (v.inode k).refcnt

section Intact

variable {fs : Info} {v v' : Volume}

theorem Intact.used (h : Intact fs v) : v.Used 0 := by
  unfold Used
  rw [h.root]
  decide

theorem Fresh.intact (h : Fresh fs v) : Intact fs v := by
  refine ⟨?_, ?_, fun k used => ?_⟩
  · rw [h.root]
    rfl
  · have none : refs (places fs) v.named 0 = 0 :=
      refs_eq_zero fun e _ => by
        rw [h.unnamed]
        exact (Option.some_ne_none 0).symm
    rw [none, h.root]
    exact Int.le_refl 1
  · have root : k = 0 := not_not.1 fun other => h.empty k other used
    rw [root, h.root]
    exact Int.le_refl 1

/-- Counting a name of one inode. -/
theorem recount_refcnt (v : Volume) (k m : Nat) (delta : Int) :
    ((v.recount k delta).inode m).refcnt = (v.inode m).refcnt + if m = k then delta else 0 := by
  rw [congrFun (refcnt_recount (v := v) (k := k) (d := delta)) m]
  by_cases here : m = k
  · rw [here, Function.update_self, if_pos rfl]
  · rw [Function.update_of_ne here, if_neg here, Int.add_zero]

theorem recount_type (v : Volume) (k m : Nat) (delta : Int) :
    ((v.recount k delta).inode m).type = (v.inode m).type := by
  unfold recount
  by_cases here : m = k
  · rw [here, setInode_self]
  · rw [setInode_ne here]

theorem Intact.step {change : Change} (h : Intact fs v) (owned : Owned fs v)
    (step : Step fs v change v') : Intact fs v' := by
  have count := h.named
  cases step with
  | idle => exact h
  | @create n b i k type c dir place free slot empty kind block =>
    have notRoot : 0 ≠ k := fun same => empty (same ▸ h.used)
    have old : (v.add type k c).inode 0 = v.inode 0 := add_inode_ne notRoot
    refine ⟨(congrArg Inode.type old).trans h.root, ?_, fun m used => ?_⟩
    · show _ ≤ ((v.add type k c).inode 0).refcnt
      rw [named_add owned dir kind empty block, refs_insert (dir.mem_places owned place) (named_of_free dir free),
        if_neg notRoot, old]
      exact count
    · show 1 ≤ ((v.add type k c).inode m).refcnt
      by_cases here : m = k
      · rw [here, add_inode_self]
        exact Int.le_refl 1
      · rw [add_inode_ne here]
        exact h.positive m (((add_used_iff kind).1 used).resolve_left here)
  | @link n b i k dir place free used =>
    refine ⟨(recount_type v k 0 1).trans h.root, ?_, fun m inUse => ?_⟩
    · show _ ≤ ((v.recount k 1).inode 0).refcnt
      have more := refs_insert (k := k) (dir.mem_places owned place) (named_of_free dir free) 0
      rw [named_recount owned dir, recount_refcnt]
      simp only [Option.map_some, Int.toNat_natCast, more]
      by_cases root : 0 = k
      · simp only [if_pos root]
        omega
      · simp only [if_neg root]
        omega
    · show 1 ≤ ((v.recount k 1).inode m).refcnt
      have before := h.positive m ((used_recount m).1 inUse)
      rw [recount_refcnt]
      by_cases here : m = k
      · rw [if_pos here]
        omega
      · rw [if_neg here]
        omega
  | @unlink n b i k dir place named used more =>
    refine ⟨(recount_type v k 0 (-1)).trans h.root, ?_, fun m inUse => ?_⟩
    · show _ ≤ ((v.recount k (-1)).inode 0).refcnt
      have fewer := refs_erase (dir.mem_places owned place) (named_of_entry dir named) 0
      rw [named_recount owned dir, recount_refcnt]
      simp only [Option.map_none]
      by_cases root : 0 = k
      · simp only [if_pos root] at fewer ⊢
        omega
      · simp only [if_neg root] at fewer ⊢
        omega
    · show 1 ≤ ((v.recount k (-1)).inode m).refcnt
      have before := h.positive m ((used_recount m).1 inUse)
      rw [recount_refcnt]
      by_cases here : m = k
      · rw [if_pos here]
        rw [here] at before ⊢
        omega
      · rw [if_neg here]
        omega
  | @drop n b i k c dir place named used last block =>
    -- the root has a name more than those its entries give it
    have notRoot : 0 ≠ k := by
      rintro rfl
      have one := refs_pos (dir.mem_places owned place) (named_of_entry dir named)
      omega
    have old : ∀ {m}, m ≠ k → ((v.remove k c).setEntry b i none).inode m = v.inode m :=
      fun other => remove_inode_ne other
    refine ⟨(congrArg Inode.type (old notRoot)).trans h.root, ?_, fun m inUse => ?_⟩
    · have fewer : refs (places fs) ((v.remove k c).setEntry b i none).named 0 ≤
          refs (places fs) (Function.update v.named (n, i) none) 0 :=
        refs_mono fun e _ still => (named_remove dir still).1
      have erased := refs_erase (dir.mem_places owned place) (named_of_entry dir named) 0
      rw [if_neg notRoot] at erased
      rw [old notRoot]
      omega
    · have still : (v.remove k c).Used m := inUse
      obtain ⟨usedM, other⟩ := remove_used_iff.1 still
      rw [old other]
      exact h.positive m usedM

/-- A change of the entries in a block of no directory, and of nothing else that the names depend
on. -/
theorem named_outside {b : Nat} (notDir : ∀ n, ¬ v.IsDir n b)
    (type : ∀ m, (v'.inode m).type = (v.inode m).type)
    (blockId : ∀ m, (v'.inode m).blockId = (v.inode m).blockId)
    (entries : ∀ c, c ≠ b → v'.entry c = v.entry c) : v'.named = v.named := by
  funext place
  obtain ⟨m, i⟩ := place
  apply named_congr
  · intro c
    exact ⟨fun dir => ⟨(type m).symm.trans dir.type, (blockId m).symm.trans dir.block⟩,
      fun dir => ⟨(type m).trans dir.type, (blockId m).trans dir.block⟩⟩
  · intro c dir
    rw [entries c fun same => notDir m (same ▸ dir)]

/-- A write into a block without entries, provided the copy it may store is one of a file in use. -/
theorem Intact.wrote {d d' : Disk} {f f' : Handle} {buf : Mem} {size b k : Nat} {node : Inode}
    (h : Intact fs (volume fs d)) (w : Wrote d f buf size node b k f' d') (data : fs.IsData b)
    (slot : k < fs.slots) (ok : CopyOk fs node) (last : writeEnd f size ≤ blockDataSize)
    (notDir : ∀ n, ¬ (volume fs d).IsDir n b)
    (live : Grows f node size → Live (volume fs d) node k)
    (file : node.type = InodeType.file.code) (positive : 1 ≤ node.refcnt) :
    Intact fs (volume fs d') := by
  have only : ∀ e c, c ≠ b → ((volume fs d).setEntries b e).entry c = (volume fs d).entry c :=
    fun e c other => setEntries_ne other
  obtain ⟨e, ⟨-, same⟩ | ⟨grows, same⟩⟩ := w.volume_eq data slot ok last
  · rw [same]
    have names : ((volume fs d).setEntries b e).named = (volume fs d).named :=
      named_outside notDir (fun _ => rfl) (fun _ => rfl) (only e)
    exact ⟨h.root, by rw [names]; exact h.named, h.positive⟩
  · have copy := live grows
    have notRoot : 0 ≠ k := by
      rintro rfl
      have type := copy.type.symm.trans file
      rw [h.root] at type
      exact absurd type (by decide)
    have other : ∀ {m}, m ≠ k → ∀ node', (((volume fs d).setEntries b e).setInode k node').inode m =
        (volume fs d).inode m := fun differs node' => setInode_ne differs
    rw [same]
    have names : (((volume fs d).setEntries b e).setInode k
        { node with size := writeEnd f size }).named = (volume fs d).named := by
      refine named_outside notDir (fun m => ?_) (fun m => ?_) (only e)
      · by_cases here : m = k
        · rw [here, setInode_self]
          exact copy.type
        · rw [other here]
      · by_cases here : m = k
        · rw [here, setInode_self]
          exact copy.blockId
        · rw [other here]
    refine ⟨?_, ?_, fun m used => ?_⟩
    · rw [other notRoot]
      exact h.root
    · rw [names, other notRoot]
      exact h.named
    · by_cases here : m = k
      · rw [here, setInode_self]
        exact positive
      · rw [other here]
        unfold Used at used
        rw [other here] at used
        exact h.positive m used

end Intact

/-! ## Runs -/

/-- The copies in the handles have names. -/
def CopiesCounted (s : State) : Prop :=
  ∀ f ∈ s.handles, ∀ node, f.ptr = some node → 1 ≤ node.refcnt

section Runs

variable {fs : Info} {s s' : State} {hist : List Change} {stale : Nat → Prop} {c : Call} {res : Int}

theorem Found.positive {d : Disk} {node : Inode} {k : Nat} (found : Found fs d node k)
    (h : Intact fs (volume fs d)) : 1 ≤ node.refcnt := by
  rw [found.copy]
  exact h.positive k found.used

/-- The calls that write no file. -/
theorem CopiesCounted.exec (h : CopiesCounted s) (owned : Owned fs (volume fs s.disk))
    (intact : Intact fs (volume fs s.disk)) (intact' : Intact fs (volume fs s'.disk))
    (noWrite : ¬ c.IsWrite) (call : exec fs s c = .ok (res, s')) : CopiesCounted s' := by
  cases c with
  | mkdir path =>
    obtain ⟨r, -, done⟩ := bind_eq_ok.1 call
    cases done
    exact h
  | rm path =>
    obtain ⟨r, -, done⟩ := bind_eq_ok.1 call
    cases done
    exact h
  | link oldpath newpath =>
    obtain ⟨r, -, done⟩ := bind_eq_ok.1 call
    cases done
    exact h
  | lookup path =>
    obtain ⟨f, look, done⟩ := bind_eq_ok.1 call
    cases done
    intro g mem node copy
    obtain old | new := List.mem_append.1 mem
    · exact h g old node copy
    · rw [List.mem_singleton.1 new] at copy
      obtain ⟨k, found⟩ := fsLookup_found owned look copy
      exact found.positive intact
  | «open» i flags =>
    unfold Blkfs.exec at call
    cases handle : s.handles[i]? with
    | none =>
      simp only [handle] at call
      cases call
      exact h
    | some f =>
      simp only [handle] at call
      obtain ⟨⟨r, f', d⟩, run, done⟩ := bind_eq_ok.1 call
      cases done
      intro g mem node copy
      obtain old | rfl := List.mem_or_eq_of_mem_set mem
      · exact h g old node copy
      · obtain ⟨r1, f1, opened, last⟩ := inodeOpen_ok owned run
        have ptr : f1.ptr = some node := by
          rw [← openFound_ptr r1 f1 flags, last]
          exact copy
        cases opened with
        | found there => exact h f (List.mem_of_getElem? handle) node ptr
        | failed missing => exact h f (List.mem_of_getElem? handle) node ptr
        | created missing first found type step =>
          cases ptr
          exact found.positive intact'
  | write => exact absurd trivial noWrite

/-- A harmless write goes into no directory. -/
theorem Sound.notDir {i : Nat} {f : Handle} {buf : Mem} {size : UInt32} {node : Inode} {b : Nat}
    (sound : Sound fs s stale) (harmless : Harmless fs stale s (.write i buf size))
    (handle : s.handles[i]? = some f) (copy : f.ptr = some node) (writable : f.flags = .fileWrite)
    (block : node.blockId = b) (some : writeCount f.offset size.toNat ≠ 0) (n : Nat) :
    ¬ (volume fs s.disk).IsDir n b := by
  by_cases old : stale i
  · obtain ⟨-, free⟩ := harmless f node handle copy writable old
    intro dir
    have inUse := slot_of_used dir.used
    apply free.resolve_left some n inUse ((volume_used inUse).1 dir.used)
    rw [← volume_inode inUse, dir.block, block]
  · obtain ⟨m, live⟩ := sound.handles.live i f node handle copy old
    exact live.notDir sound.owned ((sound.handles.sane i f handle).file node copy writable) block n

/-- What every call keeps. -/
structure Unbroken (fs : Info) (s : State) : Prop where
  stamped : Stamped fs s.disk
  intact : Intact fs (volume fs s.disk)
  copies : CopiesCounted s

theorem Unbroken.path (h : Unbroken fs s) (owned : Owned fs (volume fs s.disk))
    (noWrite : ¬ c.IsWrite) (call : exec fs s c = .ok (res, s')) : Unbroken fs s' := by
  have intact' := h.intact.step owned (exec_step owned noWrite call)
  exact ⟨h.stamped.change (exec_change owned noWrite call), intact',
    h.copies.exec owned h.intact intact' noWrite call⟩

theorem Unbroken.write {i : Nat} {buf : Mem} {size : UInt32} (h : Unbroken fs s)
    (sound : Sound fs s stale) (harmless : Harmless fs stale s (.write i buf size))
    (call : exec fs s (.write i buf size) = .ok (res, s')) : Unbroken fs s' := by
  cases handle : s.handles[i]? with
  | none =>
    unfold Blkfs.exec at call
    simp only [handle] at call
    cases call
    exact h
  | some f =>
    obtain ⟨d', l⟩ := s'
    obtain ⟨f', run, handles⟩ := exec_write_ok handle call
    dsimp only at run handles
    subst handles
    have sane := sound.handles.sane i f handle
    have mem := List.mem_of_getElem? handle
    obtain ⟨-, rfl, same⟩ | ⟨node, b, k, writable, copy, data, block, slot, id_eq, wrote⟩ :=
      inodeWrite_ok sane run
    · refine ⟨same ▸ h.stamped, same ▸ h.intact, fun g inside => ?_⟩
      obtain old | rfl := List.mem_or_eq_of_mem_set inside
      · exact h.copies g old
      · exact h.copies g mem
    · have positive := h.copies f mem node copy
      have small := sane.offset_le node copy
      have ok := sane.copy node copy
      have last : writeEnd f size.toNat ≤ blockDataSize := writeEnd_le (small.trans ok.size_le) _
      refine ⟨h.stamped.wrote wrote, ?_, fun g inside other eq => ?_⟩
      · by_cases none : writeCount f.offset size.toNat = 0
        · -- a write of nothing does not grow the file
          cases wrote with
          | inside => rw [dataWritten_nothing none]; exact h.intact
          | grown grows =>
            unfold Grows writeEnd at grows
            omega
        · refine h.intact.wrote wrote data slot ok last
            (sound.notDir harmless handle copy writable block none) (fun grows => ?_)
            (sane.file node copy writable) positive
          have fresh : ¬ stale i := fun old =>
            (harmless f node handle copy writable old).1 grows
          obtain ⟨m, live⟩ := sound.handles.live i f node handle copy fresh
          cases Int.ofNat.inj (live.id_eq.symm.trans id_eq)
          exact live
      · obtain old | rfl := List.mem_or_eq_of_mem_set inside
        · exact h.copies g old other eq
        · cases wrote with
          | inside => exact h.copies f mem other eq
          | grown =>
            cases eq
            exact positive

/-- Nothing is broken in a run whose writes through stale handles are harmless. -/
theorem Run.unbroken {Ok : (Nat → Prop) → State → Call → Prop} (run : Run fs Ok s hist stale)
    (harmless : ∀ stale s c, Ok stale s c → Harmless fs stale s c) : Unbroken fs s := by
  induction run with
  | init blank format =>
    exact ⟨format_stamped (fsInit_format blank format), (fsInit_fresh blank format).intact,
      fun f mem => absurd mem List.not_mem_nil⟩
  | @step s s' hist stale c res run ok call ih =>
    have sound := run.sound harmless
    by_cases isWrite : c.IsWrite
    · obtain ⟨i, buf, size, rfl⟩ := isWrite.eq
      exact ih.write sound (harmless _ _ _ ok) call
    · exact ih.path sound.owned isWrite call

end Runs

end OsLab.Kernel.Blkfs
