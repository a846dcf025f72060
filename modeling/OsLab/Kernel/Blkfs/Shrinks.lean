import OsLab.Kernel.Blkfs.Distinct
import OsLab.Kernel.Blkfs.Extends

/-!
# What only takes away from a disk

A removal frees one entry, and with the last reference an inode and its block: `Unlinked.inodeOf_self`,
`Unlinked.blockType`, `Unlinked.entryAt_ne`. The names that are left lead where they led, so that a path
that is walked again either ends at the same inode or breaks off: `Shrinks.getPathInode`.
-/

namespace OsLab.Kernel.Blkfs

open OsLab.Memory OsLab.Klib OsLab.RefCount Volume

/-! ## The disk after a removal -/

section Unlinked

variable {fs : Info} {d d' d1 : Disk} {b c i k ind m n : Nat} {name other : CStr} {P : CStr → Prop}

theorem entryNamed_congr (same : dataOf d' b = dataOf d b) (fit : FitName name) (place : i < 42) :
    EntryNamed d' b i name ↔ EntryNamed d b i name := by
  rw [entryNamed_iff fit place, entryNamed_iff fit place, entryAt_congr same, nameAt_congr same]

/-- The search meets the same entries. -/
theorem findName_congr (fit : FitName name)
    (same : ∀ j < 42, EntryNamed d' b j name ↔ EntryNamed d b j name) :
    findName d' b name = findName d b name := by
  cases search : findName d b name with
  | none =>
    rw [findName_eq_none fit] at search ⊢
    exact fun j place named => search j place ((same j place).1 named)
  | some j =>
    obtain ⟨place, named, first⟩ := (findName_eq_some fit).1 search
    refine (findName_eq_some fit).2 ⟨place, (same j place).2 named, fun j' below named' => ?_⟩
    exact first j' below ((same j' (by omega)).1 named')

/-- A name that is found has the characters of the entry. -/
theorem findName_nameAt (ended : 0 ∉ name) (found : findName d b name = some i) :
    nameAt d b i = name := by
  obtain ⟨found, -, -⟩ := List.find?_range_eq_some.1 found
  have equal := (of_decide_eq_true found).2
  exact ((streq_iff ended (notMem_nameAt d b i)).1 equal).symm

/-- In a directory without repeated names the search finds what is there. -/
theorem NamedApart.findName_iff (h : NamedApart P d b) (ended : 0 ∉ name) :
    Blkfs.findName d b name = some i ↔ i < 42 ∧ entryAt d b i ≠ none ∧ nameAt d b i = name := by
  constructor
  · intro found
    obtain ⟨place, entry⟩ := findName_some found
    refine ⟨place, ?_, findName_nameAt ended found⟩
    rw [entry]
    exact Option.some_ne_none _
  · rintro ⟨place, busy, rfl⟩
    exact h.findName place busy

variable (h : Unlinked fs d d' b name k ind d1)
include h

theorem Unlinked.place : ind < 42 := (findName_some h.found).1

theorem Unlinked.entry : entryAt d b ind = some (k : Int) := by
  rw [(findName_some h.found).2, h.named]

theorem Unlinked.entryAt_self : entryAt d' b ind = none := by
  rw [h.disk]
  exact entryAt_freeEntry_self

theorem Unlinked.dataOf_ne (isData : fs.IsData c) (differs : c ≠ b) : dataOf d' c = dataOf d c := by
  rw [h.disk, dataOf_freeEntry differs]
  exact h.drop.dataOf h.slot isData

/-- The other entries of the directory stay. -/
theorem Unlinked.entryAt_ne (isData : fs.IsData b) (differs : i ≠ ind) :
    entryAt d' b i = entryAt d b i := by
  have kept := h.drop.dataOf h.slot isData
  have apart := entryOffset_apart differs
  rw [h.disk, ← entryAt_congr kept]
  exact entryAt_onlyIn (onlyIn_freeEntry d1 b ind) fun _ => apart

theorem Unlinked.nameAt_ne (isData : fs.IsData b) (differs : i ≠ ind) (place : i < 42)
    (short : (nameAt d b i).length ≤ 14) : nameAt d' b i = nameAt d b i := by
  have kept := h.drop.dataOf h.slot isData
  rw [← nameAt_congr kept] at short ⊢
  rw [h.disk]
  exact nameAt_onlyIn (onlyIn_freeEntry d1 b ind) (entryOffset_apart differs) place short

theorem Unlinked.entryNamed_ne (isData : fs.IsData b) (differs : i ≠ ind) (place : i < 42)
    (fit : FitName other) : EntryNamed d' b i other ↔ EntryNamed d b i other := by
  have kept := h.drop.dataOf h.slot isData
  rw [h.disk, entryNamed_onlyIn fit (onlyIn_freeEntry d1 b ind) (entryOffset_apart differs)]
  exact entryNamed_congr kept fit place

theorem Unlinked.not_entryNamed_self (fit : FitName other) : ¬ EntryNamed d' b ind other :=
  fun named => ((entryNamed_iff fit h.place).1 named).1 h.entryAt_self

theorem Unlinked.inodeOf_ne (isData : fs.IsData b) (slot : m < fs.slots) (differs : m ≠ k) :
    inodeOf d' m = inodeOf d m := by
  rw [h.disk, inodeOf_freeEntry isData slot]
  exact h.drop.inodeOf_ne differs

/-- The inode has one reference less, or it is free. -/
theorem Unlinked.inodeOf_self (isData : fs.IsData b) :
    inodeOf d' k = if (inodeOf d k).refcnt = 1 then { inodeOf d k with type := InodeType.empty.code }
      else { inodeOf d k with refcnt := (inodeOf d k).refcnt - 1 } := by
  rw [h.disk, inodeOf_freeEntry isData h.slot]
  have drop := h.drop
  cases drop with
  | more others fits =>
    have old := inodeOf_fits d k
    rw [if_neg others]
    exact inodeOf_setInode_self ⟨old.type, old.id, old.blockId, fits, old.size⟩
  | bare last block =>
    rw [if_pos last]
    exact inodeOf_clearInode_self d k
  | withBlock c last isData block =>
    rw [if_pos last, inodeOf_clearInode_self, inodeOf_setType]

theorem Unlinked.inUse_iff (isData : fs.IsData b) : InUse d' k ↔ (inodeOf d k).refcnt ≠ 1 := by
  have busy := h.busy
  unfold InUse at busy ⊢
  rw [h.inodeOf_self isData]
  by_cases last : (inodeOf d k).refcnt = 1
  · rw [if_pos last]
    exact iff_of_false (fun differs => differs rfl) fun differs => differs last
  · rw [if_neg last]
    exact iff_of_true busy last

/-- The block of the inode is free with it, the other blocks are what they were. -/
theorem Unlinked.blockType :
    blockType d' c = if (inodeOf d k).refcnt = 1 ∧ (inodeOf d k).blockId = c then BlockType.free.code
      else blockType d c := by
  have behind : ∀ d2 : Disk, Blkfs.blockType (freeEntry d2 b ind) c = Blkfs.blockType d2 c :=
    fun d2 => blockType_onlyIn (onlyIn_freeEntry d2 b ind) fun _ => Nat.le_add_right ..
  have table : ∀ d2 : Disk, Blkfs.blockType (clearInode d2 k) c = Blkfs.blockType d2 c :=
    fun d2 => blockType_onlyIn (onlyIn_clearInode d2 k) fun _ => Nat.le_add_right ..
  rw [h.disk, behind]
  have drop := h.drop
  cases drop with
  | more others fits =>
    rw [if_neg fun both => others both.1]
    exact blockType_onlyIn (onlyIn_setInode d k _) fun _ => Nat.le_add_right ..
  | bare last block =>
    rw [if_neg, table]
    rw [block]
    omega
  | withBlock c' last isData' block =>
    rw [table]
    by_cases here : c = c'
    · subst here
      rw [if_pos ⟨last, block⟩, blockType_setType_self]
    · rw [if_neg, blockType_setType_ne here]
      rintro ⟨-, owns⟩
      exact here (Int.ofNat.inj (owns.symm.trans block))

end Unlinked

/-! ## Walks over fewer names -/

/-- The inodes in use on `d'` are where they were on `d`, and the names on `d'` are names of `d`. -/
structure Shrinks (fs : Info) (d d' : Disk) : Prop where
  type : ∀ m < fs.slots, InUse d' m → (inodeOf d' m).type = (inodeOf d m).type
  blockId : ∀ m < fs.slots, InUse d' m → (inodeOf d' m).blockId = (inodeOf d m).blockId
  named : ∀ m c, (volume fs d).IsDir m c → ∀ name, FitName name →
    nameId d' c name = nameId d c name ∨ nameId d' c name = -1
  live : ∀ m c, (volume fs d').IsDir m c → ∀ name, nameId d' c name ≠ -1 →
    ∃ k < fs.slots, nameId d' c name = (k : Nat) ∧ InUse d' k

section Shrinks

variable {fs : Info} {d d' : Disk} {b k m n : Nat} {name : CStr} {names : List CStr} {r : Option Inode}

theorem Shrinks.inUse (h : Shrinks fs d d') (slot : m < fs.slots) (busy : InUse d' m) : InUse d m := by
  unfold InUse at busy ⊢
  rw [← h.type m slot busy]
  exact busy

/-- A turn of `get_path_inode` finds the same child, or no child any more. -/
theorem Shrinks.childOf (h : Shrinks fs d d') (owned : Owned fs (volume fs d)) (slot : m < fs.slots)
    (busy : InUse d' m) (ended : 0 ∉ name) (turn : childOf fs d (inodeOf d m) name = .ok r) :
    childOf fs d' (inodeOf d' m) name = .ok none ∨ ∃ k < fs.slots, InUse d' k ∧
      r = some (inodeOf d k) ∧ childOf fs d' (inodeOf d' m) name = .ok (some (inodeOf d' k)) := by
  obtain ⟨id, get, result⟩ := childOf_eq_ok.1 turn
  obtain ⟨isDir, short, inside, rfl⟩ := getFiledir_eq_ok.1 get
  have found : Found fs d (inodeOf d m) m :=
    ⟨(volume_used slot).2 (h.inUse slot busy), (volume_inode slot).symm⟩
  obtain ⟨c, data, dir, block⟩ := found.dir owned isDir inside
  have type := (h.type m slot busy).trans isDir
  have blockId := h.blockId m slot busy
  have dir' : (volume fs d').IsDir m c :=
    isDir_iff.2 ⟨slot, type, blockId.trans (isDir_iff.1 dir).2.2⟩
  rw [block] at inside result
  have get' : getFiledir fs d' (inodeOf d' m) name = .ok (nameId d' c name) := by
    rw [getFiledir_eq_ok, blockId, block]
    exact ⟨type, short, inside, rfl⟩
  by_cases gone : nameId d' c name = -1
  · exact .inl (childOf_eq_ok.2 ⟨_, get', .inl ⟨gone, rfl⟩⟩)
  · obtain ⟨k, slotK, named, busyK⟩ := h.live m c dir' name gone
    have same := (h.named m c dir name (fitName_of_short short ended)).resolve_right gone
    have read : inodeGet fs d' (ofInt32 (nameId d' c name)) = .ok (some (inodeOf d' k)) := by
      rw [named, ofInt32_slot slotK]
      exact inodeGet_eq_ok.2 ⟨(fs.slot_block slotK).trans fs.inodeBlockNum_lt, .inr ⟨busyK, rfl⟩⟩
    refine .inr ⟨k, slotK, busyK, ?_, childOf_eq_ok.2 ⟨_, get', .inr ⟨gone, _, read, rfl⟩⟩⟩
    rw [← same, named] at result
    obtain ⟨minus, -⟩ | ⟨-, chi, old, rfl⟩ := result
    · omega
    · rw [ofInt32_slot slotK] at old
      rw [(inodeGet_some old).2]

/-- A walk ends at the same inode, or it breaks off. -/
theorem Shrinks.walk (h : Shrinks fs d d') (owned : Owned fs (volume fs d)) (slot : m < fs.slots)
    (busy : InUse d' m) (ended : ∀ name ∈ names, 0 ∉ name)
    (walked : walk fs d (inodeOf d m) names = .ok r) :
    walk fs d' (inodeOf d' m) names = .ok none ∨ ∃ k < fs.slots, InUse d' k ∧
      r = some (inodeOf d k) ∧ walk fs d' (inodeOf d' m) names = .ok (some (inodeOf d' k)) := by
  induction names generalizing m with
  | nil =>
    cases walked
    exact .inr ⟨m, slot, busy, rfl, rfl⟩
  | cons name names ih =>
    rw [Blkfs.walk, bind_eq_ok] at walked
    obtain ⟨child, turn, rest⟩ := walked
    rw [Blkfs.walk]
    obtain gone | ⟨k, slotK, busyK, rfl, turn'⟩ :=
      h.childOf owned slot busy (ended name List.mem_cons_self) turn
    · rw [gone]
      exact .inl rfl
    · rw [turn', ok_bind]
      exact ih slotK busyK (fun o mem => ended o (List.mem_cons_of_mem name mem)) rest

/-- A path that resolved resolves to the same inode or not at all. -/
theorem Shrinks.getPathInode (h : Shrinks fs d d') (owned : Owned fs (volume fs d))
    (root : InUse d' 0) {path : CStr} (ended : 0 ∉ path)
    (resolve : getPathInode fs d path = .ok r) :
    getPathInode fs d' path = .ok none ∨ ∃ k < fs.slots, InUse d' k ∧ r = some (inodeOf d k) ∧
      getPathInode fs d' path = .ok (some (inodeOf d' k)) := by
  obtain ⟨node, get, walked⟩ := getPathInode_eq_ok.1 resolve
  obtain ⟨-, rfl⟩ := inodeGet_some get
  have slot := root_slot fs
  have get' : inodeGet fs d' 0 = .ok (some (inodeOf d' 0)) :=
    inodeGet_eq_ok.2 ⟨(fs.slot_block slot).trans fs.inodeBlockNum_lt, .inr ⟨root, rfl⟩⟩
  obtain gone | ⟨k, slotK, busyK, same, walked'⟩ :=
    h.walk owned slot root (fun _ mem => notMem_of_components ended mem) walked
  · exact .inl (getPathInode_eq_ok.2 ⟨_, get', gone⟩)
  · exact .inr ⟨k, slotK, busyK, same, getPathInode_eq_ok.2 ⟨_, get', walked'⟩⟩

/-- In a volume whose references are counted a name leads to an inode in use. -/
theorem nameId_live {lost : Nat → Nat} (owned : Owned fs (volume fs d))
    (counted : Referenced fs (volume fs d) lost) (dir : (volume fs d).IsDir m b)
    (there : nameId d b name ≠ -1) : ∃ k < fs.slots, nameId d b name = (k : Nat) ∧ InUse d k := by
  obtain ⟨i, found⟩ := nameId_ne there
  have data := (owned.data dir.used dir.block).1
  have place := (findName_some found).1
  have entry := (nameId_some found).symm
  obtain ⟨k, slot, same⟩ := entry_slot owned data dir place entry
  refine ⟨k, slot, same, (volume_used slot).1 (counted.live (m, i) ?_ k ?_)⟩
  · exact mem_places.2 ⟨slot_of_used dir.used, place⟩
  · exact named_eq_some.2 ⟨b, _, dir, (volume_entry data place).trans entry, by rw [same]; rfl⟩

/-- A removal only takes away. -/
theorem Unlinked.shrinks {d1 : Disk} {ind : Nat} {lost : Nat → Nat}
    (h : Unlinked fs d d' b name k ind d1) (owned : Owned fs (volume fs d)) (distinct : Distinct fs d)
    (dir : (volume fs d).IsDir n b) (owned' : Owned fs (volume fs d'))
    (counted' : Referenced fs (volume fs d') lost) (ended : 0 ∉ name) : Shrinks fs d d' := by
  have isData := (owned.data dir.used dir.block).1
  refine ⟨fun m slot busy => ?_, fun m slot busy => ?_, fun m c isDir other fit => ?_,
    fun m c isDir other there => nameId_live owned' counted' isDir there⟩
  · by_cases here : m = k
    · subst here
      rw [h.inodeOf_self isData, if_neg ((h.inUse_iff isData).1 busy)]
    · rw [h.inodeOf_ne isData slot here]
  · by_cases here : m = k
    · subst here
      rw [h.inodeOf_self isData, if_neg ((h.inUse_iff isData).1 busy)]
    · rw [h.inodeOf_ne isData slot here]
  · by_cases here : c = b
    · subst here
      by_cases removed : other = name
      · -- no second entry has the name
        subst removed
        right
        have none : findName d' c other = none := by
          apply (findName_eq_none fit).2
          intro j place named
          by_cases same : j = ind
          · exact h.not_entryNamed_self fit (same ▸ named)
          · obtain ⟨busy, name⟩ :=
              (entryNamed_iff fit place).1 ((h.entryNamed_ne isData same place fit).1 named)
            have found := ((distinct m c isDir).findName_iff ended).2 ⟨place, busy, name⟩
            exact same (Option.some.inj (found.symm.trans h.found))
        unfold nameId
        rw [none]
      · left
        have same : findName d' c other = findName d c other := by
          apply findName_congr fit
          intro j place
          by_cases same : j = ind
          · subst same
            refine iff_of_false (h.not_entryNamed_self fit) fun named => removed ?_
            rw [← findName_nameAt ended h.found]
            exact ((entryNamed_iff fit place).1 named).2.symm
          · exact h.entryNamed_ne isData same place fit
        cases search : findName d c other with
        | none =>
          unfold nameId
          rw [same, search]
        | some j =>
          have differs : j ≠ ind := by
            rintro rfl
            rw [search] at same
            exact h.not_entryNamed_self fit ((findName_eq_some fit).1 same).2.1
          apply Option.some.inj
          rw [nameId_some search, nameId_some (same.trans search), h.entryAt_ne isData differs]
    · exact .inl (nameId_congr (h.dataOf_ne (owned.data isDir.used isDir.block).1 here) other)

end Shrinks

end OsLab.Kernel.Blkfs
