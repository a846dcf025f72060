import OsLab.Kernel.Blkfs.Changes
import OsLab.Kernel.Blkfs.Files
import OsLab.Kernel.Blkfs.Isolation

/-!
# Files are arrays of bytes

A handle that has been looked up and opened sees its file as an array of at most 1024 bytes as long
as the file is written through it only. A `Session` is such a use of a file, with the array it has
come to by what `FileCall.onBytes` says of each call; calls elsewhere do not touch the file
(`Aside.sameFile`).
-/

namespace OsLab.Kernel.Blkfs

open OsLab.Memory OsLab.Klib OsLab.ByteFile Volume

/-- What a file of blkfs is for. -/
abbrev Bytes := File UInt8 blockDataSize

/-- How a file is opened. -/
inductive Mode where
  | read
  | write
  | append
  deriving DecidableEq

/-- The flags passed to `inode_open`. -/
def Mode.flags : Mode → AccessFlag
  | read => .fileRead
  | write => .fileWrite
  | append => .fileAppend

/-- The flags `inode_open` leaves in the handle. -/
def Mode.left : Mode → AccessFlag
  | read => .fileRead
  | write | append => .fileWrite

/-- Where a file is opened. -/
def Mode.start : Mode → Bytes → Bytes
  | read, a | write, a => a.start
  | append, a => a.append

/-- What a call on an array of bytes returns, and the array after it. -/
def FileCall.onBytes (m : Mode) (a : Bytes) : FileCall → Output × Bytes
  | .read size =>
    if m = .read then (⟨(a.next size.toNat).length, a.next size.toNat⟩, a.read size.toNat)
    else (⟨-1, []⟩, a)
  | .write buf size =>
    if m = .read then (⟨-1, []⟩, a)
    else (⟨(a.fitting (bytes buf size.toNat)).length, []⟩, a.write (bytes buf size.toNat))
  | .lseek offset => (⟨(a.seek offset.toInt).offset, []⟩, a.seek offset.toInt)

/-- What calls one after the other on an array of bytes return, and the array after them. -/
def onBytes (m : Mode) (a : Bytes) : List FileCall → List Output × Bytes
  | [] => ([], a)
  | c :: calls => ((c.onBytes m a).1 :: (onBytes m (c.onBytes m a).2 calls).1,
      (onBytes m (c.onBytes m a).2 calls).2)

/-- The content of file `k`. -/
def contents (d : Disk) (k : Nat) : List UInt8 :=
  bytes (dataOf d (inodeOf d k).blockId.toNat) (inodeOf d k).size

/-- Nothing but the size and the content of file `k` differs: every other inode is the same, and so
is the data of its block, the content of a file or the entries of a directory. -/
structure Elsewhere (fs : Info) (k : Nat) (d d' : Disk) : Prop where
  inode : ∀ n < fs.slots, n ≠ k → inodeOf d' n = inodeOf d n
  data : ∀ n < fs.slots, n ≠ k → InUse d n → ∀ b : Nat, (inodeOf d n).blockId = b →
    dataOf d' b = dataOf d b
  self : ∃ size, inodeOf d' k = { inodeOf d k with size }

/-- Handle `i` is on file `k`, which has a block. -/
def OnFile (s : State) (i k : Nat) : Prop :=
  ∃ f node, s.handles[i]? = some f ∧ f.ptr = some node ∧ node.id = k ∧ node.blockId ≠ -1

/-- The call is a write. -/
def FileCall.IsWrite : FileCall → Prop
  | .write .. => True
  | _ => False

theorem FileCall.IsWrite.eq {c : FileCall} (h : c.IsWrite) : ∃ buf size, c = .write buf size := by
  cases c with
  | write buf size => exact ⟨buf, size, rfl⟩
  | read => contradiction
  | lseek => contradiction

/-- Call `c` goes through handle `i`. -/
def Call.Through (i : Nat) : Call → Prop
  | .open h _ => h = i
  | .write h _ _ => h = i
  | _ => False

/-- A call that leaves file `k` and handle `i` alone: it neither links nor removes a name of the
file, and it does not write it through another handle. -/
structure Aside (fs : Info) (k : Nat) (stale : Nat → Prop) (s : State) (i : Nat) (c : Call)
    (res : Int) : Prop where
  through : ¬ c.Through i
  harmless : Harmless fs stale s c
  notLinked : ∀ n, changed fs s c res ≠ .link n k
  notRemoved : changed fs s c res ≠ .remove k
  notWritten : ∀ j buf size f node, c = .write j buf size → s.handles[j]? = some f →
    f.ptr = some node → Foreign node (stale j) k

/-- File `k` is open at handle `i`, in mode `m`, and holds the array `a`: it has been looked up and
opened in a state reached without harmful writes, and since then it was written through this handle
only, or the handle was given up for a new one. -/
inductive Session (fs : Info) (k : Nat) : (Nat → Prop) → State → Nat → Mode → Bytes → Prop
  | start {s s1 s' : State} {hist : List Change} {stale : Nat → Prop} {path : CStr} {m : Mode}
      {a : Bytes} (run : Run fs (Harmless fs) s hist stale)
      (lookup : exec fs s (.lookup path) = .ok (0, s1))
      (opened : exec fs s1 (.open s.handles.length m.flags) = .ok (0, s'))
      (file : OnFile s' s.handles.length k) (initial : a.content = contents s'.disk k) :
      Session fs k (staleAfter (staleAfter stale s s1) s1 s') s' s.handles.length m (m.start a)
  | own {s s' : State} {stale : Nat → Prop} {i : Nat} {m : Mode} {a : Bytes} {c : FileCall}
      {out : Output} (session : Session fs k stale s i m a)
      (call : fileCall fs s i c = .ok (out, s')) :
      Session fs k (staleAfter stale s s') s' i m (c.onBytes m a).2
  | aside {s s' : State} {stale : Nat → Prop} {i : Nat} {m : Mode} {a : Bytes} {c : Call} {res : Int}
      (session : Session fs k stale s i m a) (aside : Aside fs k stale s i c res)
      (call : exec fs s c = .ok (res, s')) : Session fs k (staleAfter stale s s') s' i m a
  | peek {s s' : State} {stale : Nat → Prop} {i j : Nat} {m : Mode} {a : Bytes} {c : FileCall}
      {out : Output} (session : Session fs k stale s i m a) (other : j ≠ i) (reads : ¬ c.IsWrite)
      (call : fileCall fs s j c = .ok (out, s')) : Session fs k (staleAfter stale s s') s' i m a
  | reopen {s s1 s' : State} {stale : Nat → Prop} {i : Nat} {m m' : Mode} {a : Bytes} {path : CStr}
      (session : Session fs k stale s i m a) (lookup : exec fs s (.lookup path) = .ok (0, s1))
      (opened : exec fs s1 (.open s.handles.length m'.flags) = .ok (0, s'))
      (file : OnFile s' s.handles.length k) :
      Session fs k (staleAfter (staleAfter stale s s1) s1 s') s' s.handles.length m' (m'.start a)

/-! ## Calls elsewhere -/

/-- Inode `k` is a file with block `b`. -/
structure FileAt (fs : Info) (d : Disk) (k b : Nat) : Prop where
  slot : k < fs.slots
  file : (inodeOf d k).type = InodeType.file.code
  data : fs.IsData b
  block : (inodeOf d k).blockId = b

/-- File `k` and the data of its block are the same on both disks. -/
def SameFile (d d' : Disk) (k b : Nat) : Prop :=
  inodeOf d' k = inodeOf d k ∧ dataOf d' b = dataOf d b

section Frame

variable {fs : Info} {d d' : Disk} {k b : Nat}

theorem FileAt.inUse (h : FileAt fs d k b) : InUse d k := by
  unfold InUse
  rw [h.file]
  decide

theorem FileAt.used (h : FileAt fs d k b) : (volume fs d).Used k := (volume_used h.slot).2 h.inUse

theorem FileAt.live (h : FileAt fs d k b) (owned : Owned fs (volume fs d)) :
    Live (volume fs d) (inodeOf d k) k := by
  rw [← volume_inode h.slot]
  exact ⟨h.used, owned.id_eq k h.used, rfl, rfl⟩

/-- The block of a file is no directory's. -/
theorem FileAt.notDir (h : FileAt fs d k b) (owned : Owned fs (volume fs d)) (n : Nat) :
    ¬ (volume fs d).IsDir n b :=
  (h.live owned).notDir owned h.file h.block n

theorem FileAt.same (h : FileAt fs d k b) (same : SameFile d d' k b) : FileAt fs d' k b := by
  refine ⟨h.slot, ?_, h.data, ?_⟩
  · rw [same.1]
    exact h.file
  · rw [same.1]
    exact h.block

theorem FileAt.contents_eq (h : FileAt fs d k b) :
    contents d k = bytes (dataOf d b) (inodeOf d k).size := by
  unfold contents
  rw [h.block, Int.toNat_natCast]

theorem SameFile.contents_eq (same : SameFile d d' k b) (h : FileAt fs d k b) :
    contents d' k = contents d k := by
  rw [(h.same same).contents_eq, h.contents_eq, same.1, same.2]

/-- A step that neither links nor removes inode `k` leaves it. -/
theorem step_inode {v v' : Volume} {change : Change} (step : Step fs v change v') (used : v.Used k)
    (notLinked : ∀ n, change ≠ .link n k) (notRemoved : change ≠ .remove k) :
    v'.inode k = v.inode k := by
  cases step with
  | idle => rfl
  | @create n b i m type c dir place free slot empty kind block =>
    have other : k ≠ m := fun eq => empty (eq ▸ used)
    exact add_inode_ne other
  | @link n b i m dir place free usedM =>
    have other : k ≠ m := fun eq => notLinked n (eq ▸ rfl)
    exact setInode_ne other
  | @unlink n b i m dir place named usedM more =>
    have other : k ≠ m := fun eq => notRemoved (eq ▸ rfl)
    exact setInode_ne other
  | @drop n b i m c dir place named usedM last block =>
    have other : k ≠ m := fun eq => notRemoved (eq ▸ rfl)
    exact remove_inode_ne other

/-- A change of the directories leaves the data of a file. -/
theorem EntryChange.data_eq {name : CStr} {isLink : Prop} (change : EntryChange fs d d' name isLink)
    (owned : Owned fs (volume fs d)) (h : FileAt fs d k b) : dataOf d' b = dataOf d b := by
  have block : ((volume fs d).inode k).blockId = b := by
    rw [volume_inode h.slot]
    exact h.block
  have differs : ∀ {n c}, (volume fs d).IsDir n c → b ≠ c := by
    rintro n c dir rfl
    exact h.notDir owned n dir
  have table : ∀ {m}, m < fs.slots → b ≠ m / inodePerBlock :=
    fun slot => (slot_ne_data slot h.data).symm
  cases change with
  | same unchanged => rw [unchanged]
  | created kind data dir named made =>
    rw [made.disk, dataOf_setEntry (differs dir)]
    exact dataOf_allocated made.alloc h.data made.first.slot (not_firstFree owned h.used block)
  | linked link data dir slot made =>
    rw [made.disk, dataOf_setEntry (differs dir)]
    exact dataOf_setInode (table slot)
  | unlinked data dir gone =>
    rw [gone.disk, dataOf_freeEntry (differs dir)]
    exact gone.drop.dataOf gone.slot h.data

/-- A call on paths that neither links nor removes a name of file `k` leaves it. -/
theorem path_sameFile {s s' : State} {c : Call} {res : Int} (h : FileAt fs s.disk k b)
    (owned : Owned fs (volume fs s.disk)) (noWrite : ¬ c.IsWrite)
    (notLinked : ∀ n, changed fs s c res ≠ .link n k) (notRemoved : changed fs s c res ≠ .remove k)
    (call : exec fs s c = .ok (res, s')) : SameFile s.disk s'.disk k b := by
  have inode := step_inode (exec_step owned noWrite call) h.used notLinked notRemoved
  rw [volume_inode h.slot, volume_inode h.slot] at inode
  exact ⟨inode, (exec_change owned noWrite call).data_eq owned h⟩

/-- A write through a handle that is not on file `k` leaves it. -/
theorem write_sameFile {s s' : State} {stale : Nat → Prop} {j : Nat} {buf : Mem} {size : UInt32}
    {res : Int} (h : FileAt fs s.disk k b) (sound : Sound fs s stale)
    (harmless : Harmless fs stale s (.write j buf size))
    (foreign : ∀ f node, s.handles[j]? = some f → f.ptr = some node → Foreign node (stale j) k)
    (call : exec fs s (.write j buf size) = .ok (res, s')) : SameFile s.disk s'.disk k b := by
  have unchanged : s'.disk = s.disk → SameFile s.disk s'.disk k b := fun same =>
    same ▸ ⟨rfl, rfl⟩
  cases handle : s.handles[j]? with
  | none =>
    unfold exec at call
    simp only [handle] at call
    cases call
    exact ⟨rfl, rfl⟩
  | some f =>
    cases copy : f.ptr with
    | none =>
      obtain ⟨f', write, -⟩ := exec_write_ok handle call
      obtain ⟨-, -, same⟩ | ⟨node, b, k, -, there, -⟩ :=
        inodeWrite_ok (sound.handles.sane j f handle) write
      · exact unchanged same
      · rw [copy] at there
        contradiction
    | some node =>
      have isolated := isolated_of_sound sound harmless call handle copy
      have other := foreign f node handle copy
      refine ⟨isolated.slot k h.slot other, ?_⟩
      unfold dataOf
      rw [isolated.block k h.slot h.inUse other b h.data h.block]

theorem Aside.sameFile {s s' : State} {stale : Nat → Prop} {i : Nat} {c : Call} {res : Int}
    (aside : Aside fs k stale s i c res) (h : FileAt fs s.disk k b) (sound : Sound fs s stale)
    (call : exec fs s c = .ok (res, s')) : SameFile s.disk s'.disk k b := by
  by_cases isWrite : c.IsWrite
  · obtain ⟨j, buf, size, rfl⟩ := isWrite.eq
    exact write_sameFile h sound aside.harmless
      (fun f node => aside.notWritten j buf size f node rfl) call
  · exact path_sameFile h sound.owned isWrite aside.notLinked aside.notRemoved call

/-- Opening does not link or remove a name. -/
theorem changed_open_kind (fs : Info) (s : State) (h : Nat) (flags : AccessFlag) (res : Int) :
    changed fs s (.open h flags) res = .idle ∨ ∃ n, changed fs s (.open h flags) res = .create n := by
  by_cases zero : res = 0
  · cases handle : s.handles[h]? with
    | none => simp [changed, changeOf, handle]
    | some f =>
      cases first : firstEmpty fs s.disk with
      | none => simp [changed, changeOf, handle, first]
      | some n => by_cases missing : Missing f flags <;> simp [changed, changeOf, handle, first, missing, zero]
  · simp [changed, zero]

theorem open_sameFile {s s' : State} {h : Nat} {flags : AccessFlag} {res : Int}
    (file : FileAt fs s.disk k b) (owned : Owned fs (volume fs s.disk))
    (call : exec fs s (.open h flags) = .ok (res, s')) : SameFile s.disk s'.disk k b := by
  obtain idle | ⟨n, create⟩ := changed_open_kind fs s h flags res
  · exact path_sameFile file owned id (by simp [idle]) (by simp [idle]) call
  · exact path_sameFile file owned id (by simp [create]) (by simp [create]) call

/-- What a call does to the handles. -/
theorem exec_handles {s s' : State} {c : Call} {res : Int} (call : exec fs s c = .ok (res, s')) :
    s'.handles = s.handles ∨ (∃ f, s'.handles = s.handles ++ [f]) ∨
      ∃ j f, c.Through j ∧ s'.handles = s.handles.set j f := by
  cases c with
  | mkdir path =>
    obtain ⟨⟨r, d⟩, -, done⟩ := bind_eq_ok.1 call
    cases done
    exact .inl rfl
  | rm path =>
    obtain ⟨⟨r, d⟩, -, done⟩ := bind_eq_ok.1 call
    cases done
    exact .inl rfl
  | link oldpath newpath =>
    obtain ⟨⟨r, d⟩, -, done⟩ := bind_eq_ok.1 call
    cases done
    exact .inl rfl
  | lookup path =>
    obtain ⟨f, -, done⟩ := bind_eq_ok.1 call
    cases done
    exact .inr (.inl ⟨f, rfl⟩)
  | «open» j flags =>
    unfold exec at call
    cases handle : s.handles[j]? with
    | none =>
      simp only [handle] at call
      cases call
      exact .inl rfl
    | some f =>
      simp only [handle] at call
      obtain ⟨⟨r, f', d⟩, -, done⟩ := bind_eq_ok.1 call
      cases done
      exact .inr (.inr ⟨j, f', rfl, rfl⟩)
  | write j buf size =>
    unfold exec at call
    cases handle : s.handles[j]? with
    | none =>
      simp only [handle] at call
      cases call
      exact .inl rfl
    | some f =>
      simp only [handle] at call
      obtain ⟨⟨r, f', d⟩, -, done⟩ := bind_eq_ok.1 call
      cases done
      exact .inr (.inr ⟨j, f', rfl, rfl⟩)

theorem exec_length {s s' : State} {c : Call} {res : Int} (call : exec fs s c = .ok (res, s')) :
    s.handles.length ≤ s'.handles.length := by
  obtain same | ⟨f, added⟩ | ⟨j, f, -, changed⟩ := exec_handles call
  · rw [same]
  · rw [added, List.length_append]
    exact Nat.le_add_right ..
  · rw [changed, List.length_set]

/-- A call through another handle keeps handle `i`. -/
theorem exec_handle {s s' : State} {i : Nat} {c : Call} {res : Int} {f : Handle}
    (through : ¬ c.Through i) (handle : s.handles[i]? = some f) (call : exec fs s c = .ok (res, s')) :
    s'.handles[i]? = some f := by
  obtain same | ⟨g, added⟩ | ⟨j, g, other, changed⟩ := exec_handles call
  · rwa [same]
  · rw [added, List.getElem?_append_left (List.getElem?_eq_some_iff.1 handle).1, handle]
  · have differs : j ≠ i := fun same => through (same ▸ other)
    rw [changed, List.getElem?_set_ne differs, handle]

/-- Only handles that have been made are stale. -/
theorem staleAfter_lt {s s' : State} {stale : Nat → Prop}
    (before : ∀ h, stale h → h < s.handles.length) (length : s.handles.length ≤ s'.handles.length)
    (h : Nat) (old : staleAfter stale s s' h) : h < s'.handles.length := by
  obtain old | ⟨f, node, handle, -⟩ := old
  · exact (before h old).trans_le length
  · exact (List.getElem?_eq_some_iff.1 handle).1.trans_le length

theorem Run.stale_lt {Ok : (Nat → Prop) → State → Call → Prop} {s : State} {hist : List Change}
    {stale : Nat → Prop} (run : Run fs Ok s hist stale) : ∀ h, stale h → h < s.handles.length := by
  induction run with
  | init blank format => exact fun _ => False.elim
  | step run ok call ih => exact staleAfter_lt ih (exec_length call)

end Frame

end OsLab.Kernel.Blkfs
