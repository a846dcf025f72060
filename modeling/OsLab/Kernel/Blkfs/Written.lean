import OsLab.Kernel.Blkfs.ByteArray
import OsLab.Kernel.Blkfs.Lookup

/-!
# A new file that was written

A write changes the size of the file and the data of its block. The paths lead on to the same inodes, so that a file
that was created and written in one go is found with what was written to it.
-/

namespace OsLab.Kernel.Blkfs

open OsLab.Memory OsLab.Klib OsLab.ByteFile Volume

section Paths

variable {fs : Info} {d d' : Disk} {node : Inode} {k b m : Nat}

theorem Elsewhere.inUse (h : Elsewhere fs k d d') {j : Nat} (slot : j < fs.slots) (busy : InUse d j) : InUse d' j := by
  unfold InUse
  by_cases same : j = k
  · obtain ⟨size, self⟩ := h.self
    rw [same, self]
    exact same ▸ busy
  · rw [h.inode j slot same]
    exact busy

/-- A directory still has its children. -/
theorem Elsewhere.childOf (h : Elsewhere fs k d d') (owned : Owned fs (volume fs d)) (found : Found fs d node m)
    (other : m ≠ k) {name : CStr} {chi : Inode} (ended : 0 ∉ name) (child : childOf fs d node name = .ok (some chi)) :
    ∃ j, Found fs d chi j ∧ childOf fs d' node name = .ok (some (inodeOf d' j)) := by
  obtain ⟨id, get, ⟨-, none⟩ | ⟨there, chi', read, same⟩⟩ := childOf_eq_ok.1 child
  · contradiction
  · cases same
    obtain ⟨-, j, slot, rfl⟩ := (Extends.refl fs d).getFiledir_eq owned found ended get there
    obtain ⟨isDir, short, inside, named⟩ := getFiledir_eq_ok.1 get
    obtain ⟨c, data, dir, block⟩ := found.dir owned isDir inside
    have kept : dataOf d' c = dataOf d c := by
      obtain ⟨slotM, -, owns⟩ := isDir_iff.1 dir
      exact h.data m slotM other ((volume_used slotM).1 dir.used) c owns
    rw [ofInt32_slot slot] at read
    have foundChi := found_of_get slot read
    have busy := (volume_used slot).1 foundChi.used
    refine ⟨j, foundChi, childOf_eq_ok.2 ⟨j, ?_, .inr ⟨there, inodeOf d' j, ?_, rfl⟩⟩⟩
    · rw [getFiledir_eq_ok, named, block, nameId_congr kept]
      exact ⟨isDir, short, data.2, rfl⟩
    · rw [ofInt32_slot slot]
      exact inodeGet_eq_ok.2 ⟨(inodeGet_eq_ok.1 read).1, .inr ⟨h.inUse slot busy, rfl⟩⟩

/-- A walk leads to the same inode; the inodes on the way are directories. -/
theorem Elsewhere.walk (h : Elsewhere fs k d d') (owned : Owned fs (volume fs d)) (file : FileAt fs d k b)
    (found : Found fs d node m) {names : List CStr} {last : Inode} (ended : ∀ name ∈ names, 0 ∉ name)
    (walked : walk fs d node names = .ok (some last)) :
    ∃ j, Found fs d last j ∧ walk fs d' (inodeOf d' m) names = .ok (some (inodeOf d' j)) := by
  induction names generalizing node m with
  | nil =>
    cases walked
    exact ⟨m, found, rfl⟩
  | cons name names ih =>
    rw [Blkfs.walk, bind_eq_ok] at walked
    obtain ⟨child, turn, rest⟩ := walked
    cases child with
    | none => cases rest
    | some chi =>
      have isDir : node.type = InodeType.dir.code := by
        obtain ⟨id, get, -⟩ := childOf_eq_ok.1 turn
        exact (getFiledir_eq_ok.1 get).1
      have same : node = inodeOf d m := found.copy.trans (volume_inode found.slot)
      have other : m ≠ k := by
        rintro rfl
        have isFile := file.file
        rw [← same, isDir] at isFile
        revert isFile
        decide
      obtain ⟨j, foundChi, turn'⟩ := h.childOf owned found other (ended name List.mem_cons_self) turn
      obtain ⟨j', foundLast, rest'⟩ := ih foundChi (fun o mem => ended o (List.mem_cons_of_mem name mem)) rest
      refine ⟨j', foundLast, ?_⟩
      rw [Blkfs.walk, h.inode m found.slot other, ← same, turn', ok_bind]
      exact rest'

theorem Elsewhere.getPathInode (h : Elsewhere fs k d d') (owned : Owned fs (volume fs d)) (file : FileAt fs d k b)
    {path : CStr} (ended : 0 ∉ path) {j : Nat} (slot : j < fs.slots)
    (resolve : getPathInode fs d path = .ok (some (inodeOf d j))) (busy : InUse d j) :
    getPathInode fs d' path = .ok (some (inodeOf d' j)) := by
  obtain ⟨root, get, walked⟩ := getPathInode_eq_ok.1 resolve
  have first := root_slot fs
  have foundRoot := found_of_get first get
  obtain ⟨j', foundLast, walked'⟩ := h.walk owned file foundRoot (fun _ mem => notMem_of_components ended mem) walked
  have same : j' = j := by
    have id := owned.id_eq j ((volume_used slot).2 busy)
    rw [volume_inode slot, foundLast.copy, owned.id_eq j' foundLast.used] at id
    exact Int.ofNat.inj id
  refine getPathInode_eq_ok.2 ⟨inodeOf d' 0, inodeGet_eq_ok.2 ⟨(inodeGet_eq_ok.1 get).1, .inr ⟨?_, rfl⟩⟩, same ▸ walked'⟩
  exact h.inUse first ((volume_used first).1 foundRoot.used)

end Paths

/-! ## A file that was created -/

section Created

variable {fs : Info} {d d₁ d₂ : Disk} {handles : List Handle} {hist : List Change} {stale : Nat → Prop} {path : CStr}
  {f f₁ f₂ : Handle} {buf : Mem} {count : UInt32}

/-- A path that is looked up begins with a slash, and the handle keeps it. -/
theorem fsLookup_path (look : fsLookup fs d path = .ok f) : charAt path 0 = slash ∧ f.path = path := by
  unfold fsLookup at look
  obtain ⟨start, look⟩ := kassert_bind_eq_ok.1 look
  obtain ⟨bnode, -, done⟩ := bind_eq_ok.1 look
  cases done
  exact ⟨start, rfl⟩

/-- A write that does not fail has a block to go to. -/
theorem hasBlock_of_write {node : Inode} {size res : Nat} (ptr : f.ptr = some node)
    (wrote : inodeWrite fs d f buf size = .ok (res, f₁, d₁)) : node.blockId ≠ -1 := by
  unfold inodeWrite at wrote
  split at wrote
  · have minus := (Prod.mk.inj (Except.ok.inj wrote)).1
    omega
  · rw [ptr] at wrote
    exact (kassert_bind_eq_ok.1 wrote).1

/-- A file that was missing is made without bytes in it, and found under its path. -/
theorem created_empty (owned : Owned fs (volume fs d)) (owned₁ : Owned fs (volume fs d₁)) (ended : 0 ∉ path)
    (look : fsLookup fs d path = .ok f) (missing : f.ptr = none)
    (opened : inodeOpen fs d f .fileWrite = .ok (0, f₁, d₁)) :
    ∃ k < fs.slots, f₁.ptr = some (inodeOf d₁ k) ∧ InUse d₁ k ∧ (inodeOf d₁ k).size = 0 ∧ (inodeOf d₁ k).id = k ∧
      getPathInode fs d₁ path = .ok (some (inodeOf d₁ k)) := by
  obtain ⟨r, f', opens, last⟩ := inodeOpen_ok owned opened
  have named := (fsLookup_path look).2
  have ptr : f₁.ptr = f'.ptr := by rw [← openFound_ptr r f' .fileWrite, last]
  cases opens with
  | found there => exact absurd ⟨missing, .inl rfl⟩ there
  | failed _ =>
    rw [openFound_failed] at last
    cases last
  | @created k node d' _ first found type step =>
    have slot := found.slot
    have copy : node = inodeOf d₁ k := found.copy.trans (volume_inode slot)
    -- what the creation did, and that it is the same inode
    unfold inodeOpen at opened
    rw [if_pos ⟨missing, .inl rfl⟩] at opened
    obtain ⟨⟨r', f'', d''⟩, create, rest⟩ := bind_eq_ok.1 opened
    obtain rfl : d₁ = d'' := congrArg (fun p : Int × Handle × Disk => p.2.2) (Except.ok.inj rest.symm)
    obtain rfl | ⟨isNamed, dir, n, b, k', ind, d2, resolve, foundDir, data, isDir, made⟩ := openCreate_created owned create
    · exact absurd ((volume_used slot).1 found.used) first.empty
    · obtain rfl := first.unique made.first
      rw [named] at isNamed resolve made
      have terminated := notMem_pathGetName ended
      obtain ⟨blockId, stored⟩ := made.alloc.inode slot (by decide)
      have inode : inodeOf d₁ k = newInode .file k blockId 1 := by rw [made.inodeOf_eq data slot, stored]
      obtain ⟨-, after⟩ := made.childOf_new data (.inl rfl) owned isDir terminated
      have dirCopy : dir = inodeOf d n := foundDir.copy.trans (volume_inode foundDir.slot)
      have resolve' := (made.extends data owned terminated).getPathInode_eq owned (notMem_pathGetDirectory ended) resolve
      refine ⟨k, slot, ?_, (volume_used slot).1 found.used, ?_, ?_, ?_⟩
      · rw [ptr, copy]
      · rw [inode]
        rfl
      · rw [inode]
        rfl
      · rw [getPathInode_append (components_split isNamed) resolve', dirCopy, after]

/-- The file is found with the bytes that were written to it. -/
theorem written_found (run : Run fs (Harmless fs) ⟨d, handles⟩ hist stale) (ended : 0 ∉ path)
    (look : fsLookup fs d path = .ok f) (missing : f.ptr = none)
    (opened : inodeOpen fs d f .fileWrite = .ok (0, f₁, d₁))
    (wrote : inodeWrite fs d₁ f₁ buf count.toNat = .ok (count.toNat, f₂, d₂)) :
    ∃ h k, fsLookup fs d₂ path = .ok h ∧ h.ptr = some (inodeOf d₂ k) ∧ (inodeOf d₂ k).blockId ≠ -1 ∧
      contents d₂ k = bytes buf count.toNat := by
  have lookup : exec fs ⟨d, handles⟩ (.lookup path) = .ok (0, ⟨d, handles ++ [f]⟩) := by
    unfold exec
    dsimp only
    rw [look]
    rfl
  have here : (handles ++ [f])[handles.length]? = some f := by simp
  have open' : exec fs ⟨d, handles ++ [f]⟩ (.open handles.length Mode.write.flags) =
      .ok (0, ⟨d₁, (handles ++ [f]).set handles.length f₁⟩) := by
    unfold exec
    simp only [here]
    change (inodeOpen fs d f .fileWrite >>= _) = _
    rw [opened]
    rfl
  have sound := run.sound fun _ _ _ ok => ok
  have owned₁ := ((sound.path id lookup).path (c := .open _ _) id open').owned
  obtain ⟨k, slot, ptr, busy, size, id_eq, resolve⟩ := created_empty sound.owned owned₁ ended look missing opened
  have handle : ((handles ++ [f]).set handles.length f₁)[handles.length]? = some f₁ := List.getElem?_set_self (by simp)
  have hasBlock := hasBlock_of_write ptr wrote
  obtain ⟨a, initial, session⟩ := session_opened run lookup open' ⟨f₁, inodeOf d₁ k, handle, ptr, id_eq, hasBlock⟩
  have empty : a.content = [] := by
    rw [initial, contents, size]
    rfl
  obtain ⟨b, now⟩ := session.ongoing
  obtain ⟨-, s', calls, content, elsewhere⟩ := file_is_byte_array session [.write buf count]
  have write : exec fs ⟨d₁, (handles ++ [f]).set handles.length f₁⟩ (.write handles.length buf count) =
      .ok (count.toNat, ⟨d₂, ((handles ++ [f]).set handles.length f₁).set handles.length f₂⟩) := by
    unfold exec
    simp only [handle]
    rw [wrote]
    rfl
  simp only [fileCalls, fileCall, write, ok_bind, Except.ok.injEq, Prod.mk.injEq] at calls
  obtain ⟨outputs, rfl⟩ := calls
  have count_eq : (((Mode.write.start a).fitting (bytes buf count.toNat)).length : Int) = count.toNat := by
    simpa [onBytes, FileCall.onBytes] using (congrArg (fun outs => (outs.head?.map Output.result).getD 0) outputs).symm
  have whole : (Mode.write.start a).fitting (bytes buf count.toNat) = bytes buf count.toNat := by
    apply (List.take_prefix ..).eq_of_length
    rw [length_bytes]
    exact_mod_cast count_eq
  have left : (onBytes .write (Mode.write.start a) [.write buf count]).2.content = bytes buf count.toNat := by
    change overwrite a.content 0 ((Mode.write.start a).fitting (bytes buf count.toNat)) = _
    rw [whole, empty]
    simp [overwrite]
  have found := elsewhere.getPathInode owned₁ now.tracks.file ended slot resolve busy
  obtain ⟨newSize, self⟩ := elsewhere.self
  refine ⟨⟨path, some (inodeOf d₂ k), .dirExist, 0⟩, k, ?_, rfl, ?_, content.trans left⟩
  · unfold fsLookup
    rw [kassert_pos (fsLookup_path look).1, ok_bind, found]
    rfl
  · rw [self]
    exact hasBlock

end Created

end OsLab.Kernel.Blkfs
