import OsLab.Kernel.Blkfs.Volume
import OsLab.Kernel.Path

/-!
# The names of the entries

`direntry_find_name` compares C strings that lie within their entries as long as every name in use
is shorter than its field, so that a change of one entry leaves the names of the others.
-/

namespace OsLab.Kernel.Blkfs

open OsLab.Memory OsLab.Klib

/-- A name that fits in an entry with its NUL. -/
structure FitName (name : CStr) : Prop where
  short : name.length ≤ 14
  terminated : 0 ∉ name

/-- Entry `i` of block `b` is in use under `name`. -/
def EntryNamed (d : Disk) (b i : Nat) (name : CStr) : Prop :=
  entryType (d b) (entryOffset i) ≠ BlockType.free.code ∧
    ∀ j ≤ name.length, d b (entryOffset i + 4 + j) = charAt name j

section Names

variable {d d' : Disk} {b i : Nat} {name : CStr}

theorem FitName.strlen_lt (fit : FitName name) : strlen name < inodeNameLen - 1 := by
  have := fit.short
  rw [strlen_eq]
  show name.length < 15
  omega

theorem fitName_of_short (short : strlen name < inodeNameLen - 1) (terminated : 0 ∉ name) :
    FitName name := by
  have length : strlen name < 15 := short
  rw [strlen_eq] at length
  exact ⟨by omega, terminated⟩

theorem notMem_cstrAt (m : Mem) (a n : Nat) : 0 ∉ cstrAt m a n := by
  induction n generalizing a with
  | zero => exact List.not_mem_nil
  | succ n ih =>
    rw [cstrAt]
    by_cases ended : m a = 0
    · rw [if_pos ended]
      exact List.not_mem_nil
    · rw [if_neg ended, List.mem_cons, not_or]
      exact ⟨Ne.symm ended, ih (a + 1)⟩

/-- The C string at `a` is `name` if its characters are there, and the NUL behind them. -/
theorem cstrAt_eq_iff {m : Mem} {a n : Nat} (terminated : 0 ∉ name) (fits : name.length < n) :
    cstrAt m a n = name ↔ ∀ j ≤ name.length, m (a + j) = charAt name j := by
  induction name generalizing a n with
  | nil =>
    cases n with
    | zero => exact absurd fits (Nat.not_lt_zero _)
    | succ n =>
      rw [cstrAt]
      constructor
      · intro empty j small
        rw [Nat.le_zero.1 small]
        show m a = 0
        by_contra more
        rw [if_neg more] at empty
        contradiction
      · intro ended
        exact if_pos (ended 0 (Nat.le_refl 0))
  | cons c name ih =>
    rw [List.mem_cons, not_or] at terminated
    cases n with
    | zero => exact absurd fits (Nat.not_lt_zero _)
    | succ n =>
      have rest := @ih (a + 1) n terminated.2 (Nat.lt_of_succ_lt_succ fits)
      rw [cstrAt]
      constructor
      · intro same
        by_cases ended : m a = 0
        · rw [if_pos ended] at same
          contradiction
        · rw [if_neg ended, List.cons.injEq] at same
          intro j small
          cases j with
          | zero => exact same.1
          | succ j =>
            rw [Nat.add_comm j, ← Nat.add_assoc, Nat.add_comm 1 j]
            exact rest.1 same.2 j (Nat.le_of_succ_le_succ small)
      · intro chars
        have first : m a = c := chars 0 (Nat.zero_le _)
        have more : m a ≠ 0 := fun ended => terminated.1 (ended.symm.trans first)
        rw [if_neg more, first, rest.2]
        intro j small
        have next := chars (j + 1) (Nat.succ_le_succ small)
        rwa [Nat.add_comm j, ← Nat.add_assoc, Nat.add_comm 1 j] at next

theorem FitName.room (fit : FitName name) (place : i < 42) : name.length < blockDataSize - (sizeofDirEntry * i + 4) := by
  have short := fit.short
  show name.length < 1024 - (24 * i + 4)
  omega

/-- The bytes of the name of an entry. -/
theorem dataOf_name (d : Disk) (b i j : Nat) :
    dataOf d b (sizeofDirEntry * i + 4 + j) = d b (entryOffset i + 4 + j) := by
  unfold dataOf entryOffset
  simp only [Nat.add_assoc]

/-- `direntry_find_name` compares names that lie within their entries. -/
theorem entryMatches_iff (fit : FitName name) (place : i < 42) :
    (entryType (dataOf d b) (sizeofDirEntry * i) ≠ BlockType.free.code ∧
      streq name (entryName (dataOf d b) (sizeofDirEntry * i)) = true) ↔ EntryNamed d b i name := by
  rw [entryType_dataOf]
  apply and_congr_right
  intro _
  rw [entryName, streq_iff fit.terminated (notMem_cstrAt _ _ _), eq_comm,
    cstrAt_eq_iff fit.terminated (fit.room place)]
  simp only [dataOf_name]

theorem findName_eq_none (fit : FitName name) :
    findName d b name = none ↔ ∀ i < 42, ¬ EntryNamed d b i name := by
  unfold findName direntryFindName
  rw [List.find?_range_eq_none]
  apply forall₂_congr
  intro i place
  rw [← entryMatches_iff fit place, Bool.not_eq_true', decide_eq_false_iff_not]

theorem findName_eq_some (fit : FitName name) :
    findName d b name = some i ↔
      i < 42 ∧ EntryNamed d b i name ∧ ∀ j < i, ¬ EntryNamed d b j name := by
  have matches_iff := fun {i} place => entryMatches_iff (d := d) (b := b) (i := i) fit place
  unfold findName direntryFindName
  rw [List.find?_range_eq_some]
  constructor
  · rintro ⟨found, bound, first⟩
    have place : i < 42 := List.mem_range.1 bound
    refine ⟨place, (matches_iff place).1 (of_decide_eq_true found), fun j below named => ?_⟩
    have missed := first j below
    rw [decide_eq_true ((matches_iff (by omega)).2 named)] at missed
    contradiction
  · rintro ⟨place, named, first⟩
    refine ⟨decide_eq_true ((matches_iff place).2 named), List.mem_range.2 place, fun j below => ?_⟩
    rw [decide_eq_false fun found => first j below ((matches_iff (by omega)).1 found)]
    rfl

theorem entryNamed_onlyIn {lo n : Nat} (fit : FitName name) (h : OnlyIn d d' b lo n)
    (apart : Apart lo n (entryOffset i) sizeofDirEntry) :
    EntryNamed d' b i name ↔ EntryNamed d b i name := by
  have short := fit.short
  have gap : Apart lo n (entryOffset i) 24 := apart
  have type : entryType (d' b) (entryOffset i) = entryType (d b) (entryOffset i) :=
    readInt32_congr (h.agree fun _ => by omega)
  unfold EntryNamed
  rw [type]
  apply and_congr_right
  intro _
  apply forall₂_congr
  intro j small
  rw [h b (entryOffset i + 4 + j) (by omega)]

/-- The entry stored last is found under its name. -/
theorem findName_setEntry {id : Int} (fit : FitName name) (place : i < 42)
    (missing : findName d b name = none) :
    findName (setEntry d b i name id) b name = some i := by
  have short := fit.short
  apply (findName_eq_some fit).2
  refine ⟨place, ⟨?_, fun j small => ?_⟩, fun j below => ?_⟩
  · rw [entryType_setEntry]
    decide
  · unfold setEntry putEntry
    rw [Function.update_self, writeInt32_outside (by omega), writeInt32_outside (by omega),
      store_inside (by omega) (by rw [strlen_eq]; omega), Nat.add_sub_cancel_left]
  · rw [entryNamed_onlyIn fit (onlyIn_setEntry id fit.strlen_lt)
      (entryOffset_apart (Nat.ne_of_lt below))]
    exact (findName_eq_none fit).1 missing j (by omega)

end Names

/-! ## Well-formed directories -/

/-- The name of entry `i` of block `b`. -/
def nameAt (d : Disk) (b i : Nat) : CStr := entryName (dataOf d b) (sizeofDirEntry * i)

/-- The entries in use of block `b` have different names, each of 1 to 14 characters and none a
slash. -/
structure WellNamed (d : Disk) (b : Nat) : Prop where
  nonempty : ∀ i < 42, entryAt d b i ≠ none → nameAt d b i ≠ []
  short : ∀ i < 42, entryAt d b i ≠ none → (nameAt d b i).length ≤ 14
  plain : ∀ i < 42, entryAt d b i ≠ none → slash ∉ nameAt d b i
  distinct : ∀ i < 42, ∀ j < 42, entryAt d b i ≠ none → entryAt d b j ≠ none →
    nameAt d b i = nameAt d b j → i = j

section WellNamed

variable {d d' : Disk} {b i : Nat} {name : CStr}

theorem entryAt_ne_none :
    entryAt d b i ≠ none ↔ entryType (d b) (entryOffset i) ≠ BlockType.free.code := by
  unfold entryAt
  by_cases free : entryType (d b) (entryOffset i) = BlockType.free.code
  · simp [free]
  · simp [free]

theorem notMem_nameAt (d : Disk) (b i : Nat) : 0 ∉ nameAt d b i :=
  notMem_cstrAt _ _ _

theorem nameAt_eq_iff (fit : FitName name) (place : i < 42) :
    nameAt d b i = name ↔ ∀ j ≤ name.length, d b (entryOffset i + 4 + j) = charAt name j := by
  unfold nameAt entryName
  rw [cstrAt_eq_iff fit.terminated (fit.room place)]
  simp only [dataOf_name]

theorem entryNamed_iff (fit : FitName name) (place : i < 42) :
    EntryNamed d b i name ↔ entryAt d b i ≠ none ∧ nameAt d b i = name := by
  rw [entryAt_ne_none, nameAt_eq_iff fit place]
  rfl

/-- A short name of another entry stays. -/
theorem nameAt_onlyIn {lo n : Nat} (h : OnlyIn d d' b lo n)
    (apart : Apart lo n (entryOffset i) sizeofDirEntry) (place : i < 42)
    (short : (nameAt d b i).length ≤ 14) : nameAt d' b i = nameAt d b i := by
  have fit : FitName (nameAt d b i) := ⟨short, notMem_nameAt d b i⟩
  have gap : Apart lo n (entryOffset i) 24 := apart
  rw [nameAt_eq_iff fit place]
  intro j small
  rw [h b (entryOffset i + 4 + j) (by omega)]
  exact (nameAt_eq_iff fit place).1 rfl j small

theorem entryAt_setEntry_self {id : Int} (fits : FitsInt32 id) :
    entryAt (setEntry d b i name id) b i = some id := by
  unfold entryAt
  rw [entryType_setEntry, entryId_setEntry fits]
  rfl

theorem nameAt_setEntry_self (id : Int) (fit : FitName name) (place : i < 42) :
    nameAt (setEntry d b i name id) b i = name := by
  have short := fit.short
  apply (nameAt_eq_iff fit place).2
  intro j small
  unfold setEntry putEntry
  rw [Function.update_self, writeInt32_outside (by omega), writeInt32_outside (by omega),
    store_inside (by omega) (by rw [strlen_eq]; omega), Nat.add_sub_cancel_left]

theorem entryAt_freeEntry_self : entryAt (freeEntry d b i) b i = none := by
  unfold entryAt entryType freeEntry
  rw [Function.update_self, readInt32_writeInt32 (by decide)]
  rfl

/-- The entries are read off the data of the block. -/
theorem entryAt_congr (same : dataOf d' b = dataOf d b) (i : Nat) :
    entryAt d' b i = entryAt d b i := by
  unfold entryAt
  rw [← entryType_dataOf, ← entryId_dataOf, same, entryType_dataOf, entryId_dataOf]

theorem nameAt_congr (same : dataOf d' b = dataOf d b) (i : Nat) : nameAt d' b i = nameAt d b i := by
  unfold nameAt
  rw [same]

/-- The entries in use of block `b` have different names, each short enough for its field and such that
`P` holds of it. -/
structure NamedApart (P : CStr → Prop) (d : Disk) (b : Nat) : Prop where
  each : ∀ i < 42, entryAt d b i ≠ none → P (nameAt d b i)
  short : ∀ i < 42, entryAt d b i ≠ none → (nameAt d b i).length ≤ 14
  distinct : ∀ i < 42, ∀ j < 42, entryAt d b i ≠ none → entryAt d b j ≠ none →
    nameAt d b i = nameAt d b j → i = j

/-- A name of a component. -/
def Plain (name : CStr) : Prop := name ≠ [] ∧ slash ∉ name

theorem wellNamed_iff : WellNamed d b ↔ NamedApart Plain d b := by
  constructor
  · intro h
    exact ⟨fun i place busy => ⟨h.nonempty i place busy, h.plain i place busy⟩, h.short, h.distinct⟩
  · intro h
    exact ⟨fun i place busy => (h.each i place busy).1, h.short,
      fun i place busy => (h.each i place busy).2, h.distinct⟩

variable {P : CStr → Prop}

theorem NamedApart.congr (h : NamedApart P d b) (same : dataOf d' b = dataOf d b) :
    NamedApart P d' b := by
  refine ⟨fun i place busy => ?_, fun i place busy => ?_, fun i hi j hj busyI busyJ names => ?_⟩
  all_goals simp only [entryAt_congr same, nameAt_congr same] at *
  · exact h.each i place busy
  · exact h.short i place busy
  · exact h.distinct i hi j hj busyI busyJ names

/-- A directory without entries. -/
theorem namedApart_empty (empty : ∀ i < 42, entryAt d b i = none) : NamedApart P d b :=
  ⟨fun i place busy => absurd (empty i place) busy, fun i place busy => absurd (empty i place) busy,
    fun i place _ _ busy => absurd (empty i place) busy⟩

/-- A change of one entry leaves the names of the others. -/
theorem NamedApart.other (h : NamedApart P d b) {j : Nat}
    (only : OnlyIn d d' b (entryOffset i) sizeofDirEntry) (differs : j ≠ i) (place : j < 42) :
    entryAt d' b j = entryAt d b j ∧
      (entryAt d b j ≠ none → nameAt d' b j = nameAt d b j) := by
  have apart := entryOffset_apart differs
  exact ⟨entryAt_onlyIn only fun _ => apart,
    fun busy => nameAt_onlyIn only apart place (h.short j place busy)⟩

theorem NamedApart.setEntry (h : NamedApart P d b) (id : Int) (fit : FitName name) (meets : P name)
    (place : i < 42) (missing : findName d b name = none) :
    NamedApart P (setEntry d b i name id) b := by
  have self := nameAt_setEntry_self (d := d) (b := b) id fit place
  have other : ∀ j < 42, entryAt (Blkfs.setEntry d b i name id) b j ≠ none → j = i ∨
      entryAt d b j ≠ none ∧ nameAt (Blkfs.setEntry d b i name id) b j = nameAt d b j := by
    intro j bound busy
    by_cases here : j = i
    · exact .inl here
    · obtain ⟨entry, name⟩ := h.other (onlyIn_setEntry id fit.strlen_lt) here bound
      rw [entry] at busy
      exact .inr ⟨busy, name busy⟩
  have new : ∀ j < 42, entryAt d b j ≠ none → nameAt d b j ≠ name := fun j bound busy same =>
    (findName_eq_none fit).1 missing j bound ((entryNamed_iff fit bound).2 ⟨busy, same⟩)
  refine ⟨fun j bound busy => ?_, fun j bound busy => ?_, fun j hj k hk busyJ busyK names => ?_⟩
  · obtain rfl | ⟨old, same⟩ := other j bound busy
    · rwa [self]
    · rw [same]
      exact h.each j bound old
  · obtain rfl | ⟨old, same⟩ := other j bound busy
    · rw [self]
      exact fit.short
    · rw [same]
      exact h.short j bound old
  · obtain rfl | ⟨oldJ, sameJ⟩ := other j hj busyJ
    · obtain rfl | ⟨oldK, sameK⟩ := other k hk busyK
      · rfl
      · rw [self, sameK] at names
        exact absurd names.symm (new k hk oldK)
    · obtain rfl | ⟨oldK, sameK⟩ := other k hk busyK
      · rw [self, sameJ] at names
        exact absurd names (new j hj oldJ)
      · rw [sameJ, sameK] at names
        exact h.distinct j hj k hk oldJ oldK names

theorem NamedApart.freeEntry (h : NamedApart P d b) (i : Nat) : NamedApart P (freeEntry d b i) b := by
  have other : ∀ j < 42, entryAt (Blkfs.freeEntry d b i) b j ≠ none →
      entryAt d b j ≠ none ∧ nameAt (Blkfs.freeEntry d b i) b j = nameAt d b j := by
    intro j bound busy
    by_cases here : j = i
    · rw [here] at busy
      exact absurd entryAt_freeEntry_self busy
    · obtain ⟨entry, name⟩ := h.other (onlyIn_freeEntry d b i) here bound
      rw [entry] at busy
      exact ⟨busy, name busy⟩
  refine ⟨fun j bound busy => ?_, fun j bound busy => ?_, fun j hj k hk busyJ busyK names => ?_⟩
  · rw [(other j bound busy).2]
    exact h.each j bound (other j bound busy).1
  · rw [(other j bound busy).2]
    exact h.short j bound (other j bound busy).1
  · rw [(other j hj busyJ).2, (other k hk busyK).2] at names
    exact h.distinct j hj k hk (other j hj busyJ).1 (other k hk busyK).1 names

/-- In a well-formed directory an entry is found under its name. -/
theorem NamedApart.findName (h : NamedApart P d b) (place : i < 42) (busy : entryAt d b i ≠ none) :
    findName d b (nameAt d b i) = some i := by
  have fit : FitName (nameAt d b i) := ⟨h.short i place busy, notMem_nameAt d b i⟩
  apply (findName_eq_some fit).2
  refine ⟨place, (entryNamed_iff fit place).2 ⟨busy, rfl⟩, fun j below named => ?_⟩
  have bound : j < 42 := by omega
  obtain ⟨busyJ, names⟩ := (entryNamed_iff fit bound).1 named
  have := h.distinct j bound i place busyJ busy names
  omega

end WellNamed

end OsLab.Kernel.Blkfs
