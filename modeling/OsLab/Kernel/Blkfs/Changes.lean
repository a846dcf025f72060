import OsLab.Kernel.Blkfs.Run
import OsLab.Kernel.Blkfs.Walk

/-!
# The entry a call changes

A call that writes no file changes one entry of one directory at most: it enters a new inode or one
more name of an old one, or it takes a name away. The name is the last component of its path.
-/

namespace OsLab.Kernel.Blkfs

open OsLab.Memory OsLab.Klib Volume

/-- What a call did to the directories, with the name it was about; only a link enters an old
inode. -/
inductive EntryChange (fs : Info) (d d' : Disk) (name : CStr) (isLink : Prop) : Prop
  | same (unchanged : d' = d)
  | created {type : InodeType} {n b k ind : Nat} {d2 : Disk} (kind : type = .file ∨ type = .dir)
      (data : fs.IsData b) (dir : (volume fs d).IsDir n b) (named : name ≠ [])
      (made : Created fs d d' type b name k ind d2)
  | linked {n b k ind : Nat} (link : isLink) (data : fs.IsData b) (dir : (volume fs d).IsDir n b)
      (slot : k < fs.slots) (made : Linked d d' b name k ind)
  | unlinked {n b k ind : Nat} {d1 : Disk} (data : fs.IsData b) (dir : (volume fs d).IsDir n b)
      (gone : Unlinked fs d d' b name k ind d1)

/-- The call is a link. -/
def Call.IsLink : Call → Prop
  | .link .. => True
  | _ => False

/-- The path whose last component a call enters or removes. -/
def pathOf (s : State) : Call → CStr
  | .mkdir path => path
  | .rm path => path
  | .link _ newpath => newpath
  | .open h _ => (s.handles[h]?).elim [] Handle.path
  | .lookup _ => []
  | .write .. => []

section Inodes

variable {fs : Info} {d d' : Disk} {b i m : Nat} {name : CStr}

theorem isDir_iff {c : Nat} : (volume fs d).IsDir m c ↔
    m < fs.slots ∧ (inodeOf d m).type = InodeType.dir.code ∧ (inodeOf d m).blockId = c := by
  constructor
  · intro dir
    have slot := slot_of_used dir.used
    have type := dir.type
    have block := dir.block
    rw [volume_inode slot] at type block
    exact ⟨slot, type, block⟩
  · rintro ⟨slot, type, block⟩
    rw [← volume_inode slot] at type block
    exact ⟨type, block⟩

theorem inodeOf_setEntry {id : Int} (data : fs.IsData b) (slot : m < fs.slots)
    (short : strlen name < inodeNameLen - 1) : inodeOf (setEntry d b i name id) m = inodeOf d m :=
  inodeOf_onlyIn (onlyIn_setEntry id short) fun same => absurd same (slot_ne_data slot data)

theorem inodeOf_freeEntry (data : fs.IsData b) (slot : m < fs.slots) :
    inodeOf (freeEntry d b i) m = inodeOf d m :=
  inodeOf_onlyIn (onlyIn_freeEntry d b i) fun same => absurd same (slot_ne_data slot data)

theorem dataOf_setEntry {c : Nat} {id : Int} (other : c ≠ b) :
    dataOf (setEntry d b i name id) c = dataOf d c := by
  unfold dataOf setEntry
  rw [Function.update_of_ne other]

theorem dataOf_freeEntry {c : Nat} (other : c ≠ b) : dataOf (freeEntry d b i) c = dataOf d c := by
  unfold dataOf freeEntry
  rw [Function.update_of_ne other]

theorem code_eq_dir {type : InodeType} : type.code = InodeType.dir.code ↔ type = .dir := by
  cases type <;> decide

/-- The new inode in a slot just taken. -/
theorem Allocated.inode {type : InodeType} {k : Nat} {refcnt : Int}
    (h : Allocated fs d type k refcnt d') (slot : k < fs.slots) (fits : FitsInt32 refcnt) :
    ∃ blockId, inodeOf d' k = newInode type k blockId refcnt := by
  cases h with
  | bare full => exact ⟨-1, inodeOf_setInode_self (newInode_fits slot (by decide) fits)⟩
  | withBlock c data found =>
    exact ⟨c, inodeOf_setInode_self (newInode_fits slot (fits_block data) fits)⟩

theorem inodeOf_allocated_ne {type : InodeType} {k : Nat} {refcnt : Int}
    (h : Allocated fs d type k refcnt d') (slot : m < fs.slots) (other : m ≠ k) :
    inodeOf d' m = inodeOf d m := by
  cases h with
  | bare full => exact inodeOf_setInode_ne other
  | withBlock c data found =>
    rw [inodeOf_setInode_ne other, inodeOf_newBlock (slot_ne_data slot data)]

/-- With a free block a new inode gets one. -/
theorem Allocated.hasBlock {type : InodeType} {k : Nat} {refcnt : Int}
    (h : Allocated fs d type k refcnt d') (slot : k < fs.slots) (fits : FitsInt32 refcnt)
    (free : ∃ c, fs.IsData c ∧ blockType d c = BlockType.free.code) :
    ∃ c : Nat, (inodeOf d' k).blockId = c := by
  cases h with
  | bare full =>
    obtain ⟨c, data, unused⟩ := free
    exact absurd unused (full c data)
  | withBlock c data found =>
    rw [inodeOf_setInode_self (newInode_fits slot (fits_block data) fits)]
    exact ⟨c, rfl⟩

/-- The block of a new directory has no entries. -/
theorem Allocated.empty {k c : Nat} (h : Allocated fs d .dir k 1 d') (slot : k < fs.slots)
    (block : (inodeOf d' k).blockId = c) :
    fs.IsData c ∧ FirstFree d fs.inodeBlockNum c ∧ ∀ i < 42, entryAt d' c i = none := by
  cases h with
  | bare full =>
    rw [inodeOf_setInode_self (newInode_fits slot (by decide) (by decide))] at block
    have minus : (-1 : Int) = c := block
    omega
  | withBlock c' data found =>
    rw [inodeOf_setInode_self (newInode_fits slot (fits_block data) (by decide))] at block
    cases Int.ofNat.inj block
    have table : c ≠ k / inodePerBlock := (slot_ne_data slot data).symm
    refine ⟨data, found, fun i place => ?_⟩
    rw [entryAt_congr (dataOf_setInode table), newBlock, if_pos rfl, entryAt_clearDir place]

end Inodes

/-! ## Directories after a change -/

section Created

variable {fs : Info} {d d' d2 : Disk} {type : InodeType} {b k ind m n : Nat} {name : CStr}

theorem Created.inodeOf_eq (h : Created fs d d' type b name k ind d2) (data : fs.IsData b)
    (slot : m < fs.slots) : inodeOf d' m = inodeOf d2 m := by
  rw [h.disk]
  exact inodeOf_setEntry data slot h.short

theorem Created.inodeOf_ne (h : Created fs d d' type b name k ind d2) (data : fs.IsData b)
    (slot : m < fs.slots) (other : m ≠ k) : inodeOf d' m = inodeOf d m := by
  rw [h.inodeOf_eq data slot, inodeOf_allocated_ne h.alloc slot other]

/-- The directories after a creation: the new one, and those that were there. -/
theorem Created.isDir (h : Created fs d d' type b name k ind d2) (data : fs.IsData b) {c : Nat}
    (dir : (volume fs d').IsDir m c) :
    m = k ∧ type = .dir ∧ FirstFree d fs.inodeBlockNum c ∧ (∀ i < 42, entryAt d2 c i = none) ∨
      m ≠ k ∧ (volume fs d).IsDir m c := by
  obtain ⟨slot, isDir, block⟩ := isDir_iff.1 dir
  by_cases here : m = k
  · subst here
    rw [h.inodeOf_eq data slot] at isDir block
    obtain ⟨blockId, stored⟩ := h.alloc.inode slot (by decide)
    rw [stored] at isDir
    obtain rfl := code_eq_dir.1 isDir
    obtain ⟨-, found, empty⟩ := h.alloc.empty slot block
    exact .inl ⟨rfl, rfl, found, empty⟩
  · rw [h.inodeOf_ne data slot here] at isDir block
    exact .inr ⟨here, isDir_iff.2 ⟨slot, isDir, block⟩⟩

theorem Linked.inodeOf_ne (h : Linked d d' b name k ind) (data : fs.IsData b) (slot : m < fs.slots)
    (other : m ≠ k) : inodeOf d' m = inodeOf d m := by
  rw [h.disk, inodeOf_setEntry data slot h.short, inodeOf_setInode_ne other]

theorem Linked.inodeOf_self (h : Linked d d' b name k ind) (data : fs.IsData b)
    (slot : k < fs.slots) :
    inodeOf d' k = { inodeOf d k with refcnt := (inodeOf d k).refcnt + 1 } := by
  have old := inodeOf_fits d k
  rw [h.disk, inodeOf_setEntry data slot h.short]
  exact inodeOf_setInode_self ⟨old.type, old.id, old.blockId, h.fits, old.size⟩

/-- A link leaves the directories. -/
theorem Linked.isDir (h : Linked d d' b name k ind) (data : fs.IsData b) {c : Nat} :
    (volume fs d').IsDir m c ↔ (volume fs d).IsDir m c := by
  rw [isDir_iff, isDir_iff]
  apply and_congr_right
  intro slot
  by_cases here : m = k
  · subst here
    rw [h.inodeOf_self data slot]
  · rw [h.inodeOf_ne data slot here]

/-- A directory after a removal was there before. -/
theorem Unlinked.isDir {d1 : Disk} (h : Unlinked fs d d' b name k ind d1) (data : fs.IsData b)
    {c : Nat} (dir : (volume fs d').IsDir m c) : (volume fs d).IsDir m c := by
  obtain ⟨slot, isDir, block⟩ := isDir_iff.1 dir
  rw [h.disk, inodeOf_freeEntry data slot] at isDir block
  by_cases here : m = k
  · subst here
    have drop := h.drop
    cases drop with
    | more others fits =>
      have old := inodeOf_fits d m
      have kept : ({ inodeOf d m with refcnt := (inodeOf d m).refcnt - 1 } : Inode).Fits :=
        ⟨old.type, old.id, old.blockId, fits, old.size⟩
      rw [inodeOf_setInode_self kept] at isDir block
      exact isDir_iff.2 ⟨slot, isDir, block⟩
    | bare last bare =>
      rw [inodeOf_clearInode_self] at isDir
      exact absurd (show InodeType.empty.code = InodeType.dir.code from isDir) (by decide)
    | withBlock c' last isData owns =>
      rw [inodeOf_clearInode_self] at isDir
      exact absurd (show InodeType.empty.code = InodeType.dir.code from isDir) (by decide)
  · rw [h.drop.inodeOf_ne here] at isDir block
    exact isDir_iff.2 ⟨slot, isDir, block⟩

end Created

/-! ## The calls -/

section Calls

variable {fs : Info} {d d' : Disk} {path : CStr} {res : Int}

theorem fsMkdir_created (owned : Owned fs (volume fs d)) (h : fsMkdir fs d path = .ok (res, d')) :
    res = -1 ∧ d' = d ∨
      res = 0 ∧ pathGetName path ≠ [] ∧ ∃ dir n b k ind d2,
        getPathInode fs d (pathGetDirectory path) = .ok (some dir) ∧ Found fs d dir n ∧
        fs.IsData b ∧ (volume fs d).IsDir n b ∧
        Created fs d d' .dir b (pathGetName path) k ind d2 := by
  obtain stop | ⟨dir, resolve, named, act⟩ := onParent_ok h
  · exact .inl stop
  · obtain ⟨n, found⟩ := getPathInode_found owned resolve
    obtain ⟨⟨id, d1⟩, create, done⟩ := bind_eq_ok.1 act
    cases done
    obtain ⟨b, data, isDir, -, ⟨-, rfl, rfl⟩ | ⟨k, ind, d2, rfl, created⟩⟩ :=
      createFiledir_created owned found (.inr rfl) create
    · exact .inl ⟨rfl, rfl⟩
    · exact .inr ⟨resultOf_slot k, named, dir, n, b, k, ind, d2, resolve, found, data, isDir, created⟩

theorem fsRm_change (owned : Owned fs (volume fs d)) (h : fsRm fs d path = .ok (res, d')) :
    EntryChange fs d d' (pathGetName path) False := by
  obtain ⟨-, same⟩ | ⟨dir, resolve, -, act⟩ := onParent_ok h
  · exact .same same
  · obtain ⟨n, found⟩ := getPathInode_found owned resolve
    obtain ⟨d1, delete, done⟩ := bind_eq_ok.1 act
    cases done
    obtain ⟨b, data, isDir, -, ⟨-, same⟩ | ⟨k, ind, d1, gone⟩⟩ :=
      deleteFiledir_unlinked owned found delete
    · exact .same same
    · exact .unlinked data isDir gone

theorem fsLink_linked {newpath : CStr} (owned : Owned fs (volume fs d))
    (h : fsLink fs d path newpath = .ok (res, d')) :
    d' = d ∧ (getPathInode fs d path = .ok none ∨
        getPathInode fs d (pathGetDirectory newpath) = .ok none ∨
        ∃ dir n b, getPathInode fs d (pathGetDirectory newpath) = .ok (some dir) ∧
          (volume fs d).IsDir n b ∧ ofInt32 dir.blockId = b ∧
          (findName d b (pathGetName newpath) ≠ none ∨ findFree d b = none)) ∨
      ∃ old dir n b k ind, getPathInode fs d path = .ok (some old) ∧
        getPathInode fs d (pathGetDirectory newpath) = .ok (some dir) ∧
        fs.IsData b ∧ (volume fs d).IsDir n b ∧ ofInt32 dir.blockId = b ∧ k < fs.slots ∧
        Linked d d' b (pathGetName newpath) k ind := by
  unfold fsLink at h
  obtain ⟨old, resolveOld, h⟩ := bind_eq_ok.1 h
  cases old with
  | none =>
    cases h
    exact .inl ⟨rfl, .inl resolveOld⟩
  | some old =>
    dsimp only at h
    obtain ⟨newdir, resolveNew, h⟩ := bind_eq_ok.1 h
    cases newdir with
    | none =>
      cases h
      exact .inl ⟨rfl, .inr (.inl resolveNew)⟩
    | some newdir =>
      obtain ⟨⟨id, d1⟩, create, done⟩ := bind_eq_ok.1 h
      cases done
      obtain ⟨k, foundOld⟩ := getPathInode_found owned resolveOld
      obtain ⟨n, foundNew⟩ := getPathInode_found owned resolveNew
      have id_eq : old.id = k := by rw [foundOld.copy, owned.id_eq k foundOld.used]
      obtain ⟨b, data, isDir, block, ⟨stop, -, same⟩ | ⟨ind, -, linked⟩⟩ :=
        createFiledir_linked owned foundNew foundOld.slot id_eq create
      · exact .inl ⟨same, .inr (.inr ⟨newdir, n, b, resolveNew, isDir, block, stop⟩)⟩
      · exact .inr ⟨old, newdir, n, b, k, ind, resolveOld, resolveNew, data, isDir, block,
          foundOld.slot, linked⟩

theorem openCreate_created {f f' : Handle} (owned : Owned fs (volume fs d))
    (h : openCreate fs d f = .ok (res, f', d')) :
    d' = d ∨ pathGetName f.path ≠ [] ∧ ∃ dir n b k ind d2,
      getPathInode fs d (pathGetDirectory f.path) = .ok (some dir) ∧ Found fs d dir n ∧
      fs.IsData b ∧ (volume fs d).IsDir n b ∧ Created fs d d' .file b (pathGetName f.path) k ind d2 := by
  unfold openCreate at h
  dsimp only at h
  by_cases unnamed : strlen (pathGetName f.path) = 0
  · rw [if_pos unnamed] at h
    cases h
    exact .inl rfl
  · rw [if_neg unnamed] at h
    obtain ⟨par, resolve, h⟩ := bind_eq_ok.1 h
    cases par with
    | none =>
      cases h
      exact .inl rfl
    | some par =>
      obtain ⟨⟨id, d1⟩, create, rest⟩ := bind_eq_ok.1 h
      obtain ⟨n, found⟩ := getPathInode_found owned resolve
      dsimp only at rest
      -- the rest of the call only reads
      have same : d' = d1 := by
        by_cases minus : id = -1
        · rw [if_pos minus] at rest
          cases rest
          rfl
        · rw [if_neg minus] at rest
          obtain ⟨node, -, result⟩ := bind_eq_ok.1 rest
          cases node with
          | none => cases result
          | some node =>
            cases result
            rfl
      subst same
      obtain ⟨b, data, isDir, -, ⟨-, -, same⟩ | ⟨k, ind, d2, -, created⟩⟩ :=
        createFiledir_created owned found (.inl rfl) create
      · exact .inl same
      · rw [strlen_eq] at unnamed
        exact .inr ⟨fun nil => unnamed (congrArg List.length nil), par, n, b, k, ind, d2, resolve, found, data, isDir,
          created⟩

/-- A call that writes no file changes one entry at most. -/
theorem exec_change {s s' : State} {c : Call} (owned : Owned fs (volume fs s.disk))
    (noWrite : ¬ c.IsWrite) (h : exec fs s c = .ok (res, s')) :
    EntryChange fs s.disk s'.disk (pathGetName (pathOf s c)) c.IsLink := by
  cases c with
  | mkdir path =>
    obtain ⟨⟨r, d⟩, run, done⟩ := bind_eq_ok.1 h
    cases done
    obtain ⟨-, same⟩ | ⟨-, named, dir, n, b, k, ind, d2, -, -, data, isDir, created⟩ :=
      fsMkdir_created owned run
    · exact .same same
    · exact .created (.inr rfl) data isDir named created
  | rm path =>
    obtain ⟨⟨r, d⟩, run, done⟩ := bind_eq_ok.1 h
    cases done
    exact fsRm_change owned run
  | link oldpath newpath =>
    obtain ⟨⟨r, d⟩, run, done⟩ := bind_eq_ok.1 h
    cases done
    obtain ⟨same, -⟩ | ⟨old, dir, n, b, k, ind, -, -, data, isDir, -, slot, linked⟩ :=
      fsLink_linked owned run
    · exact .same same
    · exact .linked trivial data isDir slot linked
  | lookup path =>
    obtain ⟨f, -, done⟩ := bind_eq_ok.1 h
    cases done
    exact .same rfl
  | «open» i flags =>
    unfold exec at h
    cases handle : s.handles[i]? with
    | none =>
      simp only [handle] at h
      cases h
      exact .same rfl
    | some f =>
      have path : pathOf s (.open i flags) = f.path := by
        simp only [pathOf, handle, Option.elim_some]
      simp only [handle] at h
      obtain ⟨⟨r, f', d⟩, run, done⟩ := bind_eq_ok.1 h
      cases done
      rw [path]
      unfold inodeOpen at run
      by_cases missing : Missing f flags
      · rw [if_pos missing] at run
        obtain ⟨⟨r1, f1, d1⟩, create, rest⟩ := bind_eq_ok.1 run
        cases rest
        obtain same | ⟨named, dir, n, b, k, ind, d2, -, -, data, isDir, created⟩ :=
          openCreate_created owned create
        · exact .same same
        · exact .created (.inl rfl) data isDir named created
      · rw [if_neg missing] at run
        cases run
        exact .same rfl
  | write => exact absurd trivial noWrite

end Calls

end OsLab.Kernel.Blkfs
