import OsLab.Kernel.Blkfs.Sessions

/-!
# The simulation of the array

`Tracks` relates an open handle to the array: the handle's copy is the inode on the disk, the
offsets agree, and the array is what the block holds. Opening a file establishes it
(`tracks_opened`), each call through the handle keeps it (`Tracks.call`), and so does each call
elsewhere (`Tracks.aside`).
-/

namespace OsLab.Kernel.Blkfs

open OsLab.Memory OsLab.Klib OsLab.ByteFile Volume

/-- Handle `i` is open in mode `m` on file `k` with block `b`, which holds the array `a`. -/
structure Tracks (fs : Info) (s : State) (i k b : Nat) (m : Mode) (a : Bytes) : Prop where
  handle : ∃ path, s.handles[i]? = some ⟨path, some (inodeOf s.disk k), m.left, a.offset⟩
  file : FileAt fs s.disk k b
  content : bytes (dataOf s.disk b) (inodeOf s.disk k).size = a.content

/-- The state after handle `i` has moved to the offset of `a`. -/
def moved (s : State) (i k : Nat) (path : CStr) (m : Mode) (a : Bytes) : State :=
  ⟨s.disk, s.handles.set i ⟨path, some (inodeOf s.disk k), m.left, a.offset⟩⟩

section Elsewhere

variable {fs : Info} {k : Nat} {d d' d'' : Disk}

theorem Elsewhere.refl (fs : Info) (k : Nat) (d : Disk) : Elsewhere fs k d d :=
  ⟨fun _ _ _ => rfl, fun _ _ _ _ _ _ => rfl, _, rfl⟩

theorem Elsewhere.trans (h : Elsewhere fs k d d') (h' : Elsewhere fs k d' d'') :
    Elsewhere fs k d d'' := by
  refine ⟨fun n slot other => ?_, fun n slot other busy b owns => ?_, ?_⟩
  · rw [h'.inode n slot other, h.inode n slot other]
  · have same := h.inode n slot other
    have busy' : InUse d' n := by rwa [InUse, same]
    rw [h'.data n slot other busy' b (same ▸ owns), h.data n slot other busy b owns]
  · obtain ⟨size, grown⟩ := h.self
    obtain ⟨size', grown'⟩ := h'.self
    exact ⟨size', by rw [grown', grown]⟩

end Elsewhere

/-! ## Reading and seeking -/

section Move

variable {fs : Info} {s s' : State} {stale : Nat → Prop} {i j k b : Nat} {m : Mode} {a : Bytes}

theorem Tracks.size_eq (t : Tracks fs s i k b m a) :
    (inodeOf s.disk k).size = a.content.length := by
  rw [← t.content, length_bytes]

theorem Tracks.offset_le (t : Tracks fs s i k b m a) : a.offset ≤ (inodeOf s.disk k).size := by
  rw [t.size_eq]
  exact a.offset_le

theorem Tracks.size_le (t : Tracks fs s i k b m a) : (inodeOf s.disk k).size ≤ blockDataSize := by
  rw [t.size_eq]
  exact a.length_le

theorem Tracks.move (t : Tracks fs s i k b m a) {path : CStr} {f : Handle}
    (handle : s.handles[i]? = some f) {a' : Bytes} (content : a'.content = a.content) :
    Tracks fs (moved s i k path m a') i k b m a' := by
  refine ⟨⟨path, ?_⟩, t.file, t.content.trans content.symm⟩
  exact List.getElem?_set_self (List.getElem?_eq_some_iff.1 handle).1

/-- A read call does to the array what it says. -/
theorem Tracks.read (t : Tracks fs s i k b m a) (size : UInt32) :
    ∃ s', fileCall fs s i (.read size) = .ok (((FileCall.read size).onBytes m a).1, s') ∧
      s'.disk = s.disk ∧ Tracks fs s' i k b m ((FileCall.read size).onBytes m a).2 := by
  obtain ⟨path, handle⟩ := t.handle
  by_cases readable : m = .read
  · subst readable
    have next : a.next size.toNat = bytes (fun x => dataOf s.disk b (a.offset + x))
        (min size.toNat ((inodeOf s.disk k).size - a.offset)) := by
      rw [File.next, ← t.content, take_drop_bytes]
    have count : (a.next size.toNat).length =
        min size.toNat ((inodeOf s.disk k).size - a.offset) := by
      rw [next, length_bytes]
    have run : inodeRead fs s.disk ⟨path, some (inodeOf s.disk k), .fileRead, a.offset⟩
        size.toNat = _ :=
      inodeRead_eq rfl rfl t.file.data t.file.block t.offset_le t.size_le
    dsimp only at run
    rw [← next, ← count] at run
    refine ⟨moved s i k path .read (a.read size.toNat), ?_, rfl, t.move handle rfl⟩
    simp only [fileCall, handle]
    show (inodeRead fs s.disk ⟨path, _, .fileRead, a.offset⟩ _ >>= _) = _
    rw [run]
    rfl
  · have writing : m.left ≠ .fileRead := by
      cases m <;> simp_all [Mode.left]
    have run : inodeRead fs s.disk ⟨path, some (inodeOf s.disk k), m.left, a.offset⟩ size.toNat =
        .ok (-1, [], ⟨path, some (inodeOf s.disk k), m.left, a.offset⟩) := if_pos writing
    simp only [FileCall.onBytes, if_neg readable]
    refine ⟨moved s i k path m a, ?_, rfl, t.move handle rfl⟩
    simp only [fileCall, handle]
    rw [run]
    rfl

/-- A seek does to the array what it says. -/
theorem Tracks.lseek (t : Tracks fs s i k b m a) (offset : Int32) :
    ∃ s', fileCall fs s i (.lseek offset) = .ok (((FileCall.lseek offset).onBytes m a).1, s') ∧
      s'.disk = s.disk ∧ Tracks fs s' i k b m ((FileCall.lseek offset).onBytes m a).2 := by
  obtain ⟨path, handle⟩ := t.handle
  have opened : m.left = .fileRead ∨ m.left = .fileWrite := by
    cases m <;> simp [Mode.left]
  have target : (a.seek offset.toInt).offset = if 0 ≤ offset.toInt ∧
      offset.toInt ≤ (inodeOf s.disk k).size then offset.toInt.toNat else (inodeOf s.disk k).size := by
    rw [t.size_eq]
    rfl
  have run := inodeLseek_eq (f := ⟨path, some (inodeOf s.disk k), m.left, a.offset⟩) opened rfl
    t.size_le target
  refine ⟨moved s i k path m (a.seek offset.toInt), ?_, rfl, t.move handle rfl⟩
  simp only [fileCall, handle]
  rw [run]
  rfl

end Move

/-! ## Writing -/

section Write

variable {fs : Info} {s s' : State} {stale : Nat → Prop} {i k b : Nat} {m : Mode} {a : Bytes}
  {buf : Mem} {size : UInt32}

theorem dataOf_patch {d : Disk} {o n : Nat} {g : Nat → UInt8} :
    dataOf (patch d b (sizeofBlock + o) n g) b = store (dataOf d b) o n g := by
  funext x
  unfold dataOf
  rw [patch_same]
  by_cases inside : o ≤ x ∧ x < o + n
  · rw [store_inside (by omega) (by omega), store_inside inside.1 inside.2,
      show sizeofBlock + x - (sizeofBlock + o) = x - o by omega]
  · rw [store_outside (by omega), store_outside (by omega)]

theorem fitting_bytes (a : Bytes) (buf : Mem) (n : Nat) :
    a.fitting (bytes buf n) = bytes buf (writeCount a.offset n) := by
  rw [File.fitting, take_bytes, writeCount_eq (a.offset_le.trans a.length_le), Nat.min_comm]

/-- The data and the inode a write through the handle leaves. -/
theorem Wrote.file {d d' : Disk} {f f' : Handle} (w : Wrote d f buf size.toNat (inodeOf d k) b k f' d')
    (file : FileAt fs d k b) (copy : f.ptr = some (inodeOf d k))
    (last : writeEnd f size.toNat ≤ blockDataSize) :
    inodeOf d' k = { inodeOf d k with size := max (inodeOf d k).size (writeEnd f size.toNat) } ∧
      dataOf d' b = store (dataOf d b) f.offset (writeCount f.offset size.toNat) buf ∧
      f' = ⟨f.path, some (inodeOf d' k), f.flags, writeEnd f size.toNat⟩ := by
  have inode : inodeOf (dataWritten d f b buf size.toNat) k = inodeOf d k :=
    inodeOf_dataWritten file.data file.slot
  cases w with
  | inside fits =>
    have kept : max (inodeOf d k).size (writeEnd f size.toNat) = (inodeOf d k).size :=
      max_eq_left (Nat.not_lt.1 fits)
    rw [inode, kept, ← copy]
    exact ⟨rfl, dataOf_patch, rfl⟩
  | grown grows =>
    have grown : max (inodeOf d k).size (writeEnd f size.toNat) = writeEnd f size.toNat :=
      max_eq_right (Nat.le_of_lt grows)
    have bound : writeEnd f size.toNat ≤ 1024 := last
    have old := inodeOf_fits d k
    have fits : ({ inodeOf d k with size := writeEnd f size.toNat } : Inode).Fits :=
      ⟨old.type, old.id, old.blockId, old.refcnt, by dsimp only; omega⟩
    have stored : inodeOf (setInode (dataWritten d f b buf size.toNat) k
        { inodeOf d k with size := writeEnd f size.toNat }) k = _ := inodeOf_setInode_self fits
    rw [stored, grown, dataOf_setInode (slot_ne_data file.slot file.data).symm]
    exact ⟨rfl, dataOf_patch, rfl⟩

/-- A write through a live handle leaves the other files and the directories. -/
theorem Wrote.elsewhere {d d' : Disk} {f f' : Handle}
    (w : Wrote d f buf size.toNat (inodeOf d k) b k f' d') (owned : Owned fs (volume fs d))
    (file : FileAt fs d k b) (copy : f.ptr = some (inodeOf d k))
    (last : writeEnd f size.toNat ≤ blockDataSize) : Elsewhere fs k d d' := by
  have live := file.live owned
  have isolated := w.isolated owned live file.data file.block
  have foreign : ∀ {n : Nat}, n ≠ k → Foreign (inodeOf d k) False n := by
    intro n other
    left
    rw [live.id_eq]
    exact fun same => other (Int.ofNat.inj same).symm
  refine ⟨fun n slot other => isolated.slot n slot (foreign other), fun n slot other busy c owns => ?_,
    _, (w.file file copy last).1⟩
  have owner : ((volume fs d).inode n).blockId = c := by rwa [volume_inode slot]
  have data := (owned.data ((volume_used slot).2 busy) owner).1
  unfold dataOf
  rw [isolated.block n slot busy (foreign other) c data owns]

/-- A write call does to the array what it says, and nothing to other files. -/
theorem Tracks.write (t : Tracks fs s i k b m a) (sound : Sound fs s stale) (buf : Mem)
    (size : UInt32) :
    ∃ s', fileCall fs s i (.write buf size) = .ok (((FileCall.write buf size).onBytes m a).1, s') ∧
      Elsewhere fs k s.disk s'.disk ∧
      Tracks fs s' i k b m ((FileCall.write buf size).onBytes m a).2 := by
  obtain ⟨path, handle⟩ := t.handle
  by_cases readable : m = .read
  · subst readable
    have run : inodeWrite fs s.disk ⟨path, some (inodeOf s.disk k), .fileRead, a.offset⟩ buf
        size.toNat = .ok (-1, ⟨path, some (inodeOf s.disk k), .fileRead, a.offset⟩, s.disk) :=
      if_pos nofun
    refine ⟨moved s i k path .read a, ?_, Elsewhere.refl .., t.move handle rfl⟩
    simp only [fileCall, exec, handle]
    show (inodeWrite fs s.disk ⟨path, _, .fileRead, a.offset⟩ _ _ >>= _) >>= _ = _
    rw [run]
    rfl
  · have writing : m.left = .fileWrite := by
      cases m <;> simp_all [Mode.left]
    rw [writing] at handle
    have live := t.file.live sound.owned
    have sane := sound.handles.sane i _ handle
    obtain ⟨f', d', run, wrote⟩ : ∃ f' d', inodeWrite fs s.disk _ buf size.toNat = .ok (_, f', d') ∧
        Wrote s.disk _ buf size.toNat _ b k f' d' :=
      inodeWrite_wrote sane rfl rfl t.file.data t.file.block t.file.slot live.id_eq
    have last := writeEnd_le (a.offset_le.trans a.length_le) size.toNat
    obtain ⟨inode, data, handle'⟩ := wrote.file t.file rfl last
    have count : (a.fitting (bytes buf size.toNat)).length = writeCount a.offset size.toNat := by
      rw [fitting_bytes, length_bytes]
    refine ⟨⟨d', s.handles.set i f'⟩, ?_, wrote.elsewhere sound.owned t.file rfl last, ?_⟩
    · have result : writeCount a.offset size.toNat = _ := writeCount_eq (a.offset_le.trans a.length_le)
      simp only [fileCall, exec, handle, FileCall.onBytes, if_neg readable]
      rw [run, count, result]
      rfl
    · simp only [FileCall.onBytes, if_neg readable]
      refine ⟨⟨path, ?_⟩, ⟨t.file.slot, ?_, t.file.data, ?_⟩, ?_⟩
      · rw [List.getElem?_set_self (List.getElem?_eq_some_iff.1 handle).1, handle', writing]
        show some (Handle.mk path _ _ (a.offset + _)) = some (Handle.mk path _ _ (a.offset + _))
        rw [count]
      · rw [inode]
        exact t.file.file
      · rw [inode]
        exact t.file.block
      · show _ = overwrite a.content a.offset (a.fitting (bytes buf size.toNat))
        rw [fitting_bytes, ← t.content, overwrite_bytes t.offset_le, data, inode]
        rfl

end Write

/-! ## Calls through other handles -/

section Others

variable {fs : Info} {s s' : State} {stale : Nat → Prop} {i j k b : Nat} {m : Mode} {a : Bytes}

/-- A call that does not write moves its handle at most. -/
theorem fileCall_moves {c : FileCall} {out : Output} (sound : Sound fs s stale)
    (reads : ¬ c.IsWrite) (call : fileCall fs s j c = .ok (out, s')) :
    s' = s ∨ ∃ f o, s.handles[j]? = some f ∧ Within f o ∧
      s' = ⟨s.disk, s.handles.set j { f with offset := o }⟩ := by
  cases c with
  | read size =>
    unfold fileCall at call
    cases handle : s.handles[j]? with
    | none =>
      simp only [handle] at call
      cases call
      exact .inl rfl
    | some f =>
      simp only [handle] at call
      obtain ⟨⟨r, bs, f'⟩, run, done⟩ := bind_eq_ok.1 call
      cases done
      obtain ⟨o, rfl, within⟩ := inodeRead_ok (sound.handles.sane j f handle) run
      exact .inr ⟨f, o, rfl, within, rfl⟩
  | lseek offset =>
    unfold fileCall at call
    cases handle : s.handles[j]? with
    | none =>
      simp only [handle] at call
      cases call
      exact .inl rfl
    | some f =>
      simp only [handle] at call
      obtain ⟨o, same, within⟩ := inodeLseek_ok (sound.handles.sane j f handle)
        (Prod.mk.eta (p := inodeLseek f offset)).symm
      rw [same] at call
      cases call
      exact .inr ⟨f, o, rfl, within, rfl⟩
  | write => exact absurd trivial reads

/-- A handle moved within its file is as sound as before. -/
theorem Sound.move {f : Handle} {o : Nat} (sound : Sound fs s stale)
    (handle : s.handles[j]? = some f) (within : Within f o)
    (moves : s' = ⟨s.disk, s.handles.set j { f with offset := o }⟩) :
    Sound fs s' (staleAfter stale s s') := by
  subst moves
  refine ⟨sound.owned, sound.handles.set (Kept.refl _) rfl
    ((sound.handles.sane j f handle).move within) fun node copy fresh => ?_⟩
  exact sound.handles.keep (Kept.refl _) handle copy fresh

theorem Sound.fileCall {c : FileCall} {out : Output} (sound : Sound fs s stale)
    (harmless : ∀ buf size, c = .write buf size → Harmless fs stale s (.write j buf size))
    (call : fileCall fs s j c = .ok (out, s')) : Sound fs s' (staleAfter stale s s') := by
  by_cases isWrite : c.IsWrite
  · obtain ⟨buf, size, rfl⟩ := isWrite.eq
    obtain ⟨⟨r, s1⟩, write, done⟩ := bind_eq_ok.1 call
    cases done
    exact sound.exec (harmless buf size rfl) write
  · obtain rfl | ⟨f, o, handle, within, moves⟩ := fileCall_moves sound isWrite call
    · exact ⟨sound.owned, sound.handles.same (Kept.refl _) rfl⟩
    · exact sound.move handle within moves

/-- A call that leaves the handle and the file leaves the array. -/
theorem Tracks.keep (t : Tracks fs s i k b m a) (same : SameFile s.disk s'.disk k b)
    (handle : ∀ f, s.handles[i]? = some f → s'.handles[i]? = some f) :
    Tracks fs s' i k b m a := by
  obtain ⟨path, open'⟩ := t.handle
  refine ⟨⟨path, ?_⟩, t.file.same same, ?_⟩
  · rw [same.1]
    exact handle _ open'
  · rw [same.1, same.2]
    exact t.content

/-- Reading and seeking elsewhere leaves the array. -/
theorem Tracks.peek {c : FileCall} {out : Output} (t : Tracks fs s i k b m a)
    (sound : Sound fs s stale) (other : j ≠ i) (reads : ¬ c.IsWrite)
    (call : fileCall fs s j c = .ok (out, s')) : Tracks fs s' i k b m a := by
  obtain rfl | ⟨f, o, -, -, rfl⟩ := fileCall_moves sound reads call
  · exact t
  · refine t.keep ⟨rfl, rfl⟩ fun g handle => ?_
    exact (List.getElem?_set_ne other).trans handle

/-- The handle of a file that is still there is not stale. -/
theorem Tracks.fresh (t : Tracks fs s i k b m a) (owned : Owned fs (volume fs s.disk))
    (fresh : ¬ stale i) (there : FileAt fs s'.disk k b) : ¬ staleAfter stale s s' i := by
  rintro (old | ⟨f, node, handle, copy, n, id_eq, busy, gone⟩)
  · exact fresh old
  · obtain ⟨path, handle'⟩ := t.handle
    cases handle.symm.trans handle'
    cases copy
    cases Int.ofNat.inj (id_eq.symm.trans (t.file.live owned).id_eq)
    exact gone there.inUse

end Others

/-! ## Opening -/

section Opening

variable {fs : Info} {s s1 s' : State} {stale : Nat → Prop} {k b : Nat} {m : Mode} {path : CStr}
  {a : Bytes}

theorem start_content (m : Mode) (a : Bytes) : (m.start a).content = a.content := by
  cases m <;> rfl

/-- A file opened in mode `m`. -/
theorem openFound_opens {r : Int} {f f' : Handle} {node : Inode} (copy : f.ptr = some node)
    (h : openFound r f m.flags = (0, f')) (length : a.content.length = node.size) :
    node.type = InodeType.file.code ∧ f' = ⟨f.path, some node, m.left, (m.start a).offset⟩ := by
  have goes : ¬ (r = -1 ∨ inodeAccess f m.flags = -1) := by
    intro stop
    unfold openFound at h
    rw [if_pos stop] at h
    cases h
  obtain ⟨node', copy', isFile⟩ := inodeAccess_ok fun minus => goes (.inr minus)
  cases copy.symm.trans copy'
  refine ⟨isFile (by cases m <;> nofun), ?_⟩
  unfold openFound at h
  rw [if_neg goes] at h
  cases m with
  | read =>
    cases h
    rw [← copy]
    rfl
  | write =>
    cases h
    rw [← copy]
    rfl
  | append =>
    cases h
    rw [copy, Option.elim_some, ← length]
    rfl

/-- The lookup and the open call, apart. -/
theorem exec_lookup_open (lookup : exec fs s (.lookup path) = .ok (0, s1))
    (opened : exec fs s1 (.open s.handles.length m.flags) = .ok (0, s')) :
    ∃ f f', fsLookup fs s.disk path = .ok f ∧ s1 = ⟨s.disk, s.handles ++ [f]⟩ ∧
      inodeOpen fs s.disk f m.flags = .ok (0, f', s'.disk) ∧
      s'.handles = s1.handles.set s.handles.length f' := by
  obtain ⟨f, look, done⟩ := bind_eq_ok.1 lookup
  cases done
  unfold exec at opened
  simp only [List.getElem?_concat_length] at opened
  obtain ⟨⟨r, f', d⟩, run, done⟩ := bind_eq_ok.1 opened
  cases done
  exact ⟨f, f', look, rfl, run, rfl⟩

/-- A new handle opened on a file sees what the file holds, from where its mode starts. -/
theorem tracks_opened (sound : Sound fs s stale)
    (lookup : exec fs s (.lookup path) = .ok (0, s1))
    (opened : exec fs s1 (.open s.handles.length m.flags) = .ok (0, s'))
    (file : OnFile s' s.handles.length k) (content : a.content = contents s'.disk k) :
    ∃ b, Tracks fs s' s.handles.length k b m (m.start a) := by
  have owned' := ((sound.path id lookup).path (c := .open _ _) id opened).owned
  obtain ⟨f, f', look, rfl, run, handles⟩ := exec_lookup_open lookup opened
  obtain ⟨d', handles'⟩ := s'
  dsimp only at owned' run handles content ⊢
  obtain ⟨r, f1, opens, last⟩ := inodeOpen_ok sound.owned run
  have ptr : f'.ptr = f1.ptr := by
    rw [← openFound_ptr r f1 m.flags, last]
  have here : handles'[s.handles.length]? = some f' := by
    rw [handles]
    exact List.getElem?_set_self (by simp)
  obtain ⟨g, node, handle, copy, id_eq, hasBlock⟩ := file
  cases here.symm.trans handle
  have copy1 := ptr.symm.trans copy
  have found : ∃ n, Found fs d' node n := by
    cases opens with
    | found there => exact fsLookup_found sound.owned look copy1
    | failed missing =>
      rw [openFound_failed] at last
      cases last
    | @created n node' d missing first foundNode type step =>
      cases copy1
      exact ⟨n, foundNode⟩
  obtain ⟨n, found⟩ := found
  have same : n = k := by
    have mine := owned'.id_eq n found.used
    rw [← found.copy, id_eq] at mine
    exact (Int.ofNat.inj mine).symm
  subst same
  obtain ⟨b, data, block⟩ := (found.copyOk owned').block.resolve_left hasBlock
  have stored : node = inodeOf d' n := found.copy.trans (volume_inode found.slot)
  subst stored
  have size : a.content.length = (inodeOf d' n).size := by
    rw [content, contents, length_bytes]
  obtain ⟨type, rfl⟩ := openFound_opens copy1 last size
  have there : FileAt fs d' n b := ⟨found.slot, type, data, block⟩
  refine ⟨b, ⟨⟨f1.path, here⟩, there, ?_⟩⟩
  rw [start_content, content, there.contents_eq]

/-- Opening frees no inode. -/
theorem fresh_opened (sound : Sound fs s stale) (before : ∀ h, stale h → h < s.handles.length)
    (lookup : exec fs s (.lookup path) = .ok (0, s1))
    (opened : exec fs s1 (.open s.handles.length m.flags) = .ok (0, s')) :
    ¬ staleAfter (staleAfter stale s s1) s1 s' s.handles.length := by
  have inside : ∀ f, s.handles[s.handles.length]? ≠ some f := by
    intro f
    rw [List.getElem?_eq_none (Nat.le_refl _)]
    nofun
  rintro ((old | ⟨f, node, handle, -⟩) | ⟨f, node, handle, copy, n, id_eq, busy, gone⟩)
  · exact Nat.lt_irrefl _ (before _ old)
  · exact inside f handle
  · have sound1 := sound.path id lookup
    have step := exec_step sound1.owned (c := .open _ _) id opened
    obtain ⟨n', slot, id_eq'⟩ := ((sound1.handles.sane _ f handle).copy node copy).slot
    cases Int.ofNat.inj (id_eq.symm.trans id_eq')
    have used := (volume_used slot).2 busy
    have same : (volume fs s'.disk).inode n = (volume fs s1.disk).inode n := by
      obtain idle | ⟨l, create⟩ := changed_open_kind fs s1 s.handles.length m.flags 0
      · exact step_inode step used (by simp [idle]) (by simp [idle])
      · exact step_inode step used (by simp [create]) (by simp [create])
    rw [volume_inode slot, volume_inode slot] at same
    exact gone (by rwa [InUse, same])

end Opening

/-! ## Sessions -/

section Sessions

variable {fs : Info} {s s' : State} {stale : Nat → Prop} {i k b : Nat} {m : Mode} {a : Bytes}

/-- A call through the handle does to the array what it says, and nothing elsewhere. -/
theorem Tracks.call (t : Tracks fs s i k b m a) (sound : Sound fs s stale) (c : FileCall) :
    ∃ s', fileCall fs s i c = .ok ((c.onBytes m a).1, s') ∧ Elsewhere fs k s.disk s'.disk ∧
      Tracks fs s' i k b m (c.onBytes m a).2 := by
  cases c with
  | read size =>
    obtain ⟨s', run, same, tracks⟩ := t.read size
    exact ⟨s', run, same ▸ Elsewhere.refl .., tracks⟩
  | write buf size => exact t.write sound buf size
  | lseek offset =>
    obtain ⟨s', run, same, tracks⟩ := t.lseek offset
    exact ⟨s', run, same ▸ Elsewhere.refl .., tracks⟩

theorem fileCall_length {j : Nat} {c : FileCall} {out : Output} (sound : Sound fs s stale)
    (call : fileCall fs s j c = .ok (out, s')) : s.handles.length ≤ s'.handles.length := by
  by_cases isWrite : c.IsWrite
  · obtain ⟨buf, size, rfl⟩ := isWrite.eq
    obtain ⟨⟨r, s1⟩, write, done⟩ := bind_eq_ok.1 call
    cases done
    exact exec_length write
  · obtain rfl | ⟨f, o, -, -, rfl⟩ := fileCall_moves sound isWrite call
    · exact Nat.le_refl _
    · simp

/-- What holds in a session. -/
structure Ongoing (fs : Info) (s : State) (stale : Nat → Prop) (i k b : Nat) (m : Mode) (a : Bytes) :
    Prop where
  sound : Sound fs s stale
  old : ∀ h, stale h → h < s.handles.length
  fresh : ¬ stale i
  tracks : Tracks fs s i k b m a

theorem Session.ongoing (session : Session fs k stale s i m a) :
    ∃ b, Ongoing fs s stale i k b m a := by
  induction session with
  | start run lookup opened file initial =>
    have sound := run.sound fun _ _ _ ok => ok
    obtain ⟨b, tracks⟩ := tracks_opened sound lookup opened file initial
    exact ⟨b, (sound.path id lookup).path id opened,
      staleAfter_lt (staleAfter_lt run.stale_lt (exec_length lookup)) (exec_length opened),
      fresh_opened sound run.stale_lt lookup opened, tracks⟩
  | @own s s' stale i m a c out session call ih =>
    obtain ⟨b, sound, old, fresh, tracks⟩ := ih
    obtain ⟨s1, run, -, tracks'⟩ := tracks.call sound c
    cases call.symm.trans run
    exact ⟨b, sound.fileCall (fun _ _ _ _ _ _ _ _ stale => absurd stale fresh) call,
      staleAfter_lt old (fileCall_length sound call), tracks.fresh sound.owned fresh tracks'.file,
      tracks'⟩
  | @aside s s' stale i m a c res session aside call ih =>
    obtain ⟨b, sound, old, fresh, tracks⟩ := ih
    have same := aside.sameFile tracks.file sound call
    have tracks' := tracks.keep same fun _ handle => exec_handle aside.through handle call
    exact ⟨b, sound.exec aside.harmless call, staleAfter_lt old (exec_length call),
      tracks.fresh sound.owned fresh tracks'.file, tracks'⟩
  | @peek s s' stale i j m a c out session other reads call ih =>
    obtain ⟨b, sound, old, fresh, tracks⟩ := ih
    have tracks' := tracks.peek sound other reads call
    exact ⟨b, sound.fileCall (fun buf size eq => absurd (eq ▸ trivial) reads) call,
      staleAfter_lt old (fileCall_length sound call), tracks.fresh sound.owned fresh tracks'.file,
      tracks'⟩
  | @reopen s s1 s' stale i m m' a path session lookup opened file ih =>
    obtain ⟨b, sound, old, fresh, tracks⟩ := ih
    have sound1 := sound.path id lookup
    have disk : s1.disk = s.disk := by
      obtain ⟨f, -, done⟩ := bind_eq_ok.1 lookup
      cases done
      rfl
    have same := open_sameFile (disk ▸ tracks.file) sound1.owned opened
    rw [disk] at same
    have content : a.content = contents s'.disk k := by
      rw [same.contents_eq tracks.file, tracks.file.contents_eq, tracks.content]
    obtain ⟨b', tracks'⟩ := tracks_opened sound lookup opened file content
    exact ⟨b', sound1.path id opened,
      staleAfter_lt (staleAfter_lt old (exec_length lookup)) (exec_length opened),
      fresh_opened sound old lookup opened, tracks'⟩

/-- A file opened in a state reached without harmful writes is an array of at most 1024 bytes, and
so a session. -/
theorem session_opened {s1 : State} {hist : List Change} {path : CStr}
    (run : Run fs (Harmless fs) s hist stale) (lookup : exec fs s (.lookup path) = .ok (0, s1))
    (opened : exec fs s1 (.open s.handles.length m.flags) = .ok (0, s'))
    (file : OnFile s' s.handles.length k) :
    ∃ a, a.content = contents s'.disk k ∧
      Session fs k (staleAfter (staleAfter stale s s1) s1 s') s' s.handles.length m (m.start a) := by
  have sound := run.sound fun _ _ _ ok => ok
  have sound' := (sound.path id lookup).path (c := .open _ _) id opened
  have fresh := fresh_opened sound run.stale_lt lookup opened
  obtain ⟨f, node, handle, copy, id_eq, hasBlock⟩ := file
  obtain ⟨n, live⟩ := sound'.handles.live _ f node handle copy fresh
  cases Int.ofNat.inj (id_eq.symm.trans live.id_eq)
  have size_le := sound'.owned.size_le k live.used
  rw [volume_inode (slot_of_used live.used)] at size_le
  refine ⟨⟨contents s'.disk k, 0, Nat.zero_le _, ?_⟩, rfl, ?_⟩
  · rw [contents, length_bytes]
    exact size_le
  · exact .start run lookup opened ⟨f, node, handle, copy, id_eq, hasBlock⟩ rfl

/-- In a session every sequence of calls through the handle returns what it returns on the array,
leaves the file with what it leaves of the array, and leaves everything else. -/
theorem file_is_byte_array (session : Session fs k stale s i m a) (calls : List FileCall) :
    contents s.disk k = a.content ∧ ∃ s', fileCalls fs s i calls = .ok ((onBytes m a calls).1, s') ∧
      contents s'.disk k = (onBytes m a calls).2.content ∧ Elsewhere fs k s.disk s'.disk := by
  have content : contents s.disk k = a.content := by
    obtain ⟨b, now⟩ := session.ongoing
    rw [now.tracks.file.contents_eq, now.tracks.content]
  refine ⟨content, ?_⟩
  induction calls generalizing s stale a with
  | nil => exact ⟨s, rfl, content, Elsewhere.refl ..⟩
  | cons c calls ih =>
    obtain ⟨b, now⟩ := session.ongoing
    obtain ⟨s1, run, elsewhere, tracks⟩ := now.tracks.call now.sound c
    have content1 : contents s1.disk k = (c.onBytes m a).2.content := by
      rw [tracks.file.contents_eq, tracks.content]
    obtain ⟨s', rest, left, elsewhere'⟩ := ih (session.own run) content1
    refine ⟨s', ?_, left, elsewhere.trans elsewhere'⟩
    simp only [fileCalls, run, ok_bind, rest]
    rfl

end Sessions

/-! ## A file written and changed -/

theorem opened_session :
    Session fourBlocks 1 openedStale opened 0 .write ⟨[], 0, Nat.le_refl _, Nat.zero_le _⟩ := by
  have run : Run fourBlocks (Harmless fourBlocks) startState [] fun _ => False :=
    run_fresh (by decide +kernel)
  have content : contents opened.disk 1 = [] := by decide +kernel
  have file : OnFile opened 0 1 := ⟨openedHandle, newInode .file 1 2 1, rfl, rfl, rfl, by decide⟩
  exact .start (m := .write) (a := ⟨[], 0, Nat.le_refl _, Nat.zero_le _⟩) run exec_lookedUp
    exec_opened file content.symm

/-- Write `"ABC"`, seek before the start, seek to the second byte, write `"Z"` there. -/
def changesByte : List FileCall :=
  [.write (fun i => UInt8.ofNat (65 + i)) 3, .lseek (-1), .lseek 1, .write (fun _ => 90) 1]

theorem file_is_byte_array_opened :
    ∃ s', fileCalls fourBlocks opened 0 changesByte =
        .ok ([⟨3, []⟩, ⟨3, []⟩, ⟨1, []⟩, ⟨1, []⟩], s') ∧
      contents s'.disk 1 = [65, 90, 67] ∧ Elsewhere fourBlocks 1 opened.disk s'.disk := by
  obtain ⟨-, s', run, content, elsewhere⟩ := file_is_byte_array opened_session changesByte
  have outputs : (onBytes .write ⟨[], 0, Nat.le_refl _, Nat.zero_le _⟩ changesByte).1 =
      [⟨3, []⟩, ⟨3, []⟩, ⟨1, []⟩, ⟨1, []⟩] := by decide
  have left : (onBytes .write ⟨[], 0, Nat.le_refl _, Nat.zero_le _⟩ changesByte).2.content =
      [65, 90, 67] := by decide
  rw [outputs] at run
  rw [left] at content
  exact ⟨s', run, content, elsewhere⟩

end OsLab.Kernel.Blkfs
