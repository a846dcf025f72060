import OsLab.Kernel.Blkfs.Changes
import OsLab.Kernel.Blkfs.Walk

/-!
# What only adds to a disk

A creation takes nothing away: the inodes in use stay as they are, and every name of a directory leads
on to the same inode (`Created.extends`). What resolved before then resolves to the same inode:
`Extends.getPathInode_eq`.
-/

namespace OsLab.Kernel.Blkfs

open OsLab.Memory OsLab.Klib Volume

/-! ## A new entry and the old ones -/

section Entries

variable {d d' : Disk} {b i ind : Nat} {name other : CStr}

theorem nameId_some (h : findName d b name = some i) : some (nameId d b name) = entryAt d b i := by
  rw [(findName_some h).2]
  unfold nameId
  rw [h]

theorem nameId_ne (h : nameId d b name ≠ -1) : ∃ i, findName d b name = some i := by
  cases search : findName d b name with
  | some i => exact ⟨i, rfl⟩
  | none =>
    unfold nameId at h
    rw [search] at h
    exact absurd rfl h

theorem nameId_congr (same : dataOf d' b = dataOf d b) (name : CStr) :
    nameId d' b name = nameId d b name := by
  unfold nameId findName
  rw [same]

/-- The other names of a block lead on to the same entries when a new name is entered. -/
theorem nameId_setEntry (id : Int) (fit : FitName name) (fitOther : FitName other)
    (missing : findName d b name = none) (place : findFree d b = some ind)
    (found : findName d b other = some i) :
    nameId (setEntry d b ind name id) b other = nameId d b other := by
  obtain ⟨bound, free⟩ := findFree_some place
  obtain ⟨small, named, first⟩ := (findName_eq_some fitOther).1 found
  have only := onlyIn_setEntry (d := d) (b := b) (i := ind) id fit.strlen_lt
  have differs : other ≠ name := by
    rintro rfl
    rw [missing] at found
    contradiction
  have elsewhere : i ≠ ind := by
    rintro rfl
    exact ((entryNamed_iff fitOther bound).1 named).1 free
  have still : findName (setEntry d b ind name id) b other = some i := by
    refine (findName_eq_some fitOther).2 ⟨small, ?_, fun j below => ?_⟩
    · exact (entryNamed_onlyIn fitOther only (entryOffset_apart elsewhere)).2 named
    · by_cases here : j = ind
      · subst here
        intro new
        have same := ((entryNamed_iff fitOther bound).1 new).2
        rw [nameAt_setEntry_self id fit bound] at same
        exact differs same.symm
      · rw [entryNamed_onlyIn fitOther only (entryOffset_apart here)]
        exact first j below
  apply Option.some.inj
  rw [nameId_some still, nameId_some found]
  exact entryAt_onlyIn only fun _ => entryOffset_apart elsewhere

/-- A name that is missing is still missing when another name is entered. -/
theorem findName_setEntry_ne (id : Int) (fit : FitName name) (fitOther : FitName other)
    (differs : other ≠ name) (place : ind < 42) (missing : findName d b other = none) :
    findName (setEntry d b ind name id) b other = none := by
  have only := onlyIn_setEntry (d := d) (b := b) (i := ind) id fit.strlen_lt
  rw [findName_eq_none fitOther] at missing ⊢
  intro j small
  by_cases here : j = ind
  · subst here
    intro new
    have same := ((entryNamed_iff fitOther place).1 new).2
    rw [nameAt_setEntry_self id fit place] at same
    exact differs same.symm
  · rw [entryNamed_onlyIn fitOther only (entryOffset_apart here)]
    exact missing j small

end Entries

/-! ## Nothing is taken away -/

/-- The inodes in use on `d` are the same on `d'`, and the names of the directories of `d` lead to the
same inodes. -/
structure Extends (fs : Info) (d d' : Disk) : Prop where
  inode : ∀ m < fs.slots, InUse d m → inodeOf d' m = inodeOf d m
  named : ∀ m c, (volume fs d).IsDir m c → ∀ name, FitName name → nameId d c name ≠ -1 →
    nameId d' c name = nameId d c name

section Extends

variable {fs : Info} {d d' d'' : Disk} {node : Inode} {m : Nat}

theorem Extends.refl (fs : Info) (d : Disk) : Extends fs d d :=
  ⟨fun _ _ _ => rfl, fun _ _ _ _ _ _ => rfl⟩

theorem Extends.inUse (h : Extends fs d d') (slot : m < fs.slots) (busy : InUse d m) : InUse d' m := by
  unfold InUse
  rw [h.inode m slot busy]
  exact busy

theorem inUse_of_isDir {c : Nat} (dir : (volume fs d).IsDir m c) : m < fs.slots ∧ InUse d m := by
  have slot := slot_of_used dir.used
  exact ⟨slot, (volume_used slot).1 dir.used⟩

theorem Extends.isDir (h : Extends fs d d') {c : Nat} (dir : (volume fs d).IsDir m c) :
    (volume fs d').IsDir m c := by
  obtain ⟨slot, busy⟩ := inUse_of_isDir dir
  rw [isDir_iff, h.inode m slot busy]
  exact isDir_iff.1 dir

theorem Extends.trans (h : Extends fs d d') (h' : Extends fs d' d'') : Extends fs d d'' where
  inode m slot busy := (h'.inode m slot (h.inUse slot busy)).trans (h.inode m slot busy)
  named m c dir name fit there := by
    have same := h.named m c dir name fit there
    rw [← same] at there ⊢
    exact h'.named m c (h.isDir dir) name fit there

/-- A change that leaves the inodes in use and the blocks of the directories alone. -/
theorem extends_of_same (inode : ∀ m < fs.slots, InUse d m → inodeOf d' m = inodeOf d m)
    (data : ∀ m c, (volume fs d).IsDir m c → dataOf d' c = dataOf d c) : Extends fs d d' :=
  ⟨inode, fun m c dir name _ _ => nameId_congr (data m c dir) name⟩

theorem Extends.inodeGet_eq (h : Extends fs d d') {chi : Inode} (slot : m < fs.slots)
    (get : inodeGet fs d m = .ok (some chi)) : inodeGet fs d' m = .ok (some chi) := by
  obtain ⟨busy, rfl⟩ := inodeGet_some get
  refine inodeGet_eq_ok.2 ⟨(inodeGet_eq_ok.1 get).1, .inr ⟨h.inUse slot busy, ?_⟩⟩
  rw [h.inode m slot busy]

/-- A name that `get_filedir` finds is the name of an inode of the table, and still found. -/
theorem Extends.getFiledir_eq (h : Extends fs d d') (owned : Owned fs (volume fs d))
    (found : Found fs d node m) {name : CStr} {id : Int} (ended : 0 ∉ name)
    (get : getFiledir fs d node name = .ok id) (there : id ≠ -1) :
    getFiledir fs d' node name = .ok id ∧ ∃ j : Nat, j < fs.slots ∧ id = j := by
  obtain ⟨isDir, short, inside, rfl⟩ := getFiledir_eq_ok.1 get
  obtain ⟨c, data, dir, block⟩ := found.dir owned isDir inside
  rw [block] at there ⊢
  refine ⟨?_, ?_⟩
  · rw [getFiledir_eq_ok, block]
    exact ⟨isDir, short, data.2, (h.named m c dir name (fitName_of_short short ended) there).symm⟩
  · obtain ⟨i, search⟩ := nameId_ne there
    exact entry_slot owned data dir (findName_some search).1 (nameId_some search).symm

/-- A child that is there is the same inode later. -/
theorem Extends.childOf_eq (h : Extends fs d d') (owned : Owned fs (volume fs d))
    (found : Found fs d node m) {name : CStr} {chi : Inode} (ended : 0 ∉ name)
    (child : childOf fs d node name = .ok (some chi)) :
    childOf fs d' node name = .ok (some chi) ∧ ∃ j, Found fs d chi j := by
  obtain ⟨id, get, ⟨-, none⟩ | ⟨there, chi', read, same⟩⟩ := childOf_eq_ok.1 child
  · contradiction
  · cases same
    obtain ⟨get', j, slot, rfl⟩ := h.getFiledir_eq owned found ended get there
    rw [ofInt32_slot slot] at read
    refine ⟨childOf_eq_ok.2 ⟨j, get', .inr ⟨there, chi, ?_, rfl⟩⟩, j, found_of_get slot read⟩
    rw [ofInt32_slot slot]
    exact h.inodeGet_eq slot read

/-- A walk that finds an inode finds it later. -/
theorem Extends.walk_eq (h : Extends fs d d') (owned : Owned fs (volume fs d))
    (found : Found fs d node m) {names : List CStr} {last : Inode} (ended : ∀ name ∈ names, 0 ∉ name)
    (walked : walk fs d node names = .ok (some last)) : walk fs d' node names = .ok (some last) := by
  induction names generalizing node m with
  | nil => exact walked
  | cons name names ih =>
    rw [walk, bind_eq_ok] at walked
    obtain ⟨child, turn, rest⟩ := walked
    cases child with
    | none => cases rest
    | some chi =>
      obtain ⟨turn', j, foundChi⟩ := h.childOf_eq owned found (ended name List.mem_cons_self) turn
      rw [walk, turn', ok_bind]
      exact ih foundChi (fun o mem => ended o (List.mem_cons_of_mem name mem)) rest

/-- A path that resolves resolves to the same inode later. -/
theorem Extends.getPathInode_eq (h : Extends fs d d') (owned : Owned fs (volume fs d)) {path : CStr}
    (ended : 0 ∉ path) (resolve : getPathInode fs d path = .ok (some node)) :
    getPathInode fs d' path = .ok (some node) := by
  obtain ⟨root, get, walked⟩ := getPathInode_eq_ok.1 resolve
  have slot := root_slot fs
  exact getPathInode_eq_ok.2 ⟨root, h.inodeGet_eq slot get, h.walk_eq owned (found_of_get slot get)
    (fun name mem => notMem_of_components ended mem) walked⟩

end Extends

/-! ## A creation -/

section Created

variable {fs : Info} {d d' d2 : Disk} {type : InodeType} {b k ind : Nat} {name : CStr}

/-- The blocks of the directories and the inodes in use survive a creation. -/
theorem Created.extends (made : Created fs d d' type b name k ind d2) (data : fs.IsData b)
    (owned : Owned fs (volume fs d)) (terminated : 0 ∉ name) : Extends fs d d' where
  inode m slot busy := made.inodeOf_ne data slot fun same => made.first.empty (same ▸ busy)
  named m c dir other fit there := by
    have kept := dataOf_allocated made.alloc (owned.data dir.used dir.block).1 made.first.slot
      (not_firstFree owned dir.used dir.block)
    rw [made.disk, ← nameId_congr kept]
    by_cases here : c = b
    · subst here
      rw [← nameId_congr kept] at there
      obtain ⟨i, found⟩ := nameId_ne there
      have missing : findName d2 c name = none := by
        unfold findName
        rw [kept]
        exact made.missing
      have place : findFree d2 c = some ind := by
        unfold findFree
        rw [kept]
        exact made.place
      exact nameId_setEntry k (fitName_of_short made.short terminated) fit missing place found
    · exact nameId_congr (dataOf_setEntry here) other

/-- The name that was entered is found in its place. -/
theorem Created.findName_self (made : Created fs d d' type b name k ind d2)
    (kept : dataOf d2 b = dataOf d b) (terminated : 0 ∉ name) : findName d' b name = some ind := by
  have fit := fitName_of_short made.short terminated
  have still : findName d2 b name = none := by
    unfold findName
    rw [kept]
    exact made.missing
  rw [made.disk]
  exact findName_setEntry fit (findFree_some made.place).1 still

/-- The name that was entered leads to the new inode. -/
theorem Created.nameId_self (made : Created fs d d' type b name k ind d2)
    (kept : dataOf d2 b = dataOf d b) (terminated : 0 ∉ name) : nameId d' b name = k := by
  have idFits : FitsInt32 k := (newInode_fits made.first.slot (by decide) (by decide) :
    (newInode .file k (-1) 1).Fits).id
  apply Option.some.inj
  rw [nameId_some (made.findName_self kept terminated), made.disk]
  exact entryAt_setEntry_self idFits

theorem Created.inUse (made : Created fs d d' type b name k ind d2) (data : fs.IsData b)
    (kind : type = .file ∨ type = .dir) : InUse d' k := by
  obtain ⟨blockId, stored⟩ := made.alloc.inode made.first.slot (by decide)
  unfold InUse
  rw [made.inodeOf_eq data made.first.slot, stored]
  obtain rfl | rfl := kind <;> exact of_decide_eq_true rfl

end Created

end OsLab.Kernel.Blkfs
