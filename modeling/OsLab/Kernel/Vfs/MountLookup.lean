import OsLab.Kernel.Vfs.Mounts
import OsLab.Klib.StringBuffers

/-!
# What `get_mount_fs` reads

The lookup over the path as a buffer that ends with its terminator: each character is read with a check. Where no mount
path is a prefix, the scan leaves the length -1, and the character before the path is read; where only an empty mount
path is one, the subpath pointer of a relative path steps in front of the path.
-/

namespace OsLab.Kernel.Vfs

open OsLab.Klib OsLab.Buffer

variable {FS : Type}

/-- The loop of `get_mount_fs` over the mounts, on a path in memory. -/
def scanMounts (path : List UInt8) : List (Mount FS) → Int → Option (Mount FS) → Except Halt (Int × Option (Mount FS))
  | [], bestLen, res => .ok (bestLen, res)
  | cur :: next, bestLen, res => do
    let len ← Checked.strlen (cur.path ++ [0]) 0
    let diff ← Checked.strncmp path (cur.path ++ [0]) len.toNat
    if diff = 0 then
      if len > bestLen then scanMounts path next len (some cur) else scanMounts path next bestLen res
    else scanMounts path next bestLen res

/-- `get_mount_fs` on a path in memory. -/
def lookupMount (mounts : List (Mount FS)) (path : List UInt8) : Except Halt (Option (Mount FS) × SubpathPtr) := do
  let (bestLen, res) ← scanMounts path mounts (-1) none
  let c ← checked (load path bestLen)
  .ok (res, if c = 0 then .root else if c ≠ slash then .inPath (bestLen - 1) else .inPath bestLen)

/-- The pointer points to a character of the path or its terminator, or to the constant. -/
def SubpathPtr.Inside (path : CStr) : SubpathPtr → Prop
  | .inPath offset => 0 ≤ offset ∧ offset ≤ path.length
  | .root => True

/-- The lookup reads the path and its terminator alone, its pointer stays inside, and it finds no mount exactly where
no mount path is a prefix. -/
def LookupRight (mounts : List (Mount FS)) (path : CStr) : Prop :=
  ∃ res subpath, lookupMount mounts (path ++ [0]) = .ok (res, subpath) ∧ subpath.Inside path ∧
    (res = none ↔ ∀ m ∈ mounts, ¬m.path <+: path)

/-- Some mount path is a prefix, and not only an empty one of a relative path. -/
def MatchesInside (mounts : List (Mount FS)) (path : CStr) : Prop :=
  ∃ m ∈ mounts, m.path <+: path ∧ (m.path ≠ [] ∨ path = [] ∨ path.head? = some slash)

section Lookup

variable {mounts : List (Mount FS)} {path : CStr}

theorem scanMounts_run (terminated : ∀ m ∈ mounts, 0 ∉ m.path) (nul : 0 ∉ path) (bestLen : Int)
    (res : Option (Mount FS)) : scanMounts (path ++ [0]) mounts bestLen res = .ok (bestMount path mounts bestLen res) := by
  induction mounts generalizing bestLen res with
  | nil => rfl
  | cons cur next ih =>
    obtain ⟨first, later⟩ := List.forall_mem_cons.1 terminated
    have length : Checked.strlen (cur.path ++ [0]) 0 = .ok cur.path.length := Checked.strlen_run [] [] first rfl
    rw [scanMounts, length, ok_bind, Int.toNat_natCast, Checked.strncmp_run nul first, ok_bind, bestMount]
    simp only [strneq, strlen_eq, decide_eq_true_eq]
    split_ifs <;> exact ih later _ _

/-- The scan finds no prefix, or a longest one. -/
theorem bestMount_cases (terminated : ∀ m ∈ mounts, 0 ∉ m.path) :
    (bestMount path mounts (-1) none = (-1, none) ∧ ∀ m ∈ mounts, ¬m.path <+: path) ∨
      ∃ m ∈ mounts, m.path <+: path ∧ (∀ m' ∈ mounts, m'.path <+: path → m'.path.length ≤ m.path.length) ∧
        bestMount path mounts (-1) none = ((m.path.length : Int), some m) := by
  rcases bestMount_spec terminated (-1) none with ⟨same, bound⟩ | ⟨m, member, hit, -, longest, same⟩
  · refine .inl ⟨same, fun m member hit => ?_⟩
    have := bound m member hit
    omega
  · exact .inr ⟨m, member, hit, longest, same⟩

/-- No mount is found exactly where no mount path is a prefix. -/
theorem getMountFs_none (terminated : ∀ m ∈ mounts, 0 ∉ m.path) (before : UInt8) :
    (getMountFs before mounts path).1 = none ↔ ∀ m ∈ mounts, ¬m.path <+: path := by
  have result : (getMountFs before mounts path).1 = (bestMount path mounts (-1) none).2 := by
    unfold getMountFs
    dsimp only
    split_ifs <;> rfl
  rw [result]
  rcases bestMount_cases terminated with ⟨same, none⟩ | ⟨m, member, hit, -, same⟩
  · rw [same]
    simpa using none
  · rw [same]
    simpa using ⟨m, member, hit⟩

/-- The character behind a mount path that is a prefix is one of the path, or its terminator. -/
theorem lookupMount_found {m : Mount FS} (terminated : ∀ m ∈ mounts, 0 ∉ m.path) (nul : 0 ∉ path) (hit : m.path <+: path)
    (best : bestMount path mounts (-1) none = ((m.path.length : Int), some m)) :
    lookupMount mounts (path ++ [0]) = .ok (some m,
      if m.path = path then .root
      else if path[m.path.length]? = some slash then .inPath m.path.length
      else .inPath (m.path.length - 1)) := by
  unfold lookupMount
  rw [scanMounts_run terminated nul, ok_bind, best]
  dsimp only
  by_cases whole : m.path = path
  · have read : checked (load (path ++ [0]) (m.path.length : Int)) = .ok 0 := by
      rw [whole]
      exact Checked.load_checked rfl
    rw [read, ok_bind, if_pos rfl, if_pos whole]
  · have inside : m.path.length < path.length :=
      Nat.lt_of_le_of_ne hit.length_le fun same => whole (hit.eq_of_length same)
    have next := List.getElem?_eq_getElem inside
    have read : checked (load (path ++ [0]) (m.path.length : Int)) = .ok path[m.path.length] := by
      rw [load_natCast, List.getElem?_append_left inside, next]
      rfl
    have nonzero : path[m.path.length] ≠ 0 := fun zero => nul (zero ▸ List.getElem_mem inside)
    rw [read, ok_bind, if_neg nonzero, if_neg whole, next]
    by_cases boundary : path[m.path.length] = slash
    · simp [boundary]
    · simp [boundary]

/-- **Mount lookup stays inside the path** where some mount path is a prefix, other than an empty one alone of a
relative path; and it finds no mount exactly where no mount path is a prefix. -/
theorem mount_lookup_iff (terminated : ∀ m ∈ mounts, 0 ∉ m.path) (nul : 0 ∉ path) :
    (LookupRight mounts path ↔ MatchesInside mounts path) ∧
      ∀ before, (getMountFs before mounts path).1 = none ↔ ∀ m ∈ mounts, ¬m.path <+: path := by
  refine ⟨?_, getMountFs_none terminated⟩
  rcases bestMount_cases terminated with ⟨same, none⟩ | ⟨m, member, hit, longest, same⟩
  · -- the scan leaves -1
    constructor
    · rintro ⟨res, subpath, run, -⟩
      unfold lookupMount at run
      rw [scanMounts_run terminated nul, ok_bind, same] at run
      dsimp only at run
      rw [load_negative (by decide)] at run
      cases run
    · rintro ⟨m, member, hit, -⟩
      exact absurd hit (none m member)
  · have run := lookupMount_found terminated nul hit same
    have found : some m = none ↔ ∀ m ∈ mounts, ¬m.path <+: path := ⟨nofun, fun none => absurd hit (none m member)⟩
    have length := hit.length_le
    constructor
    · rintro ⟨res, subpath, run', inside, -⟩
      cases run'.symm.trans run
      refine ⟨m, member, hit, or_iff_not_imp_left.2 fun empty => ?_⟩
      rw [not_not.1 empty] at inside
      by_contra relative
      rw [not_or] at relative
      rw [if_neg (Ne.symm relative.1), List.length_nil, ← List.head?_eq_getElem?, if_neg relative.2] at inside
      exact absurd inside.1 (by decide)
    · rintro ⟨m', member', hit', some'⟩
      refine ⟨_, _, run, ?_, found⟩
      have more : m.path = [] → path = [] ∨ path.head? = some slash := by
        intro empty
        refine some'.resolve_left fun long => ?_
        have := longest m' member' hit'
        rw [empty, List.length_nil, Nat.le_zero, List.length_eq_zero_iff] at this
        exact long this
      split_ifs with whole boundary
      · trivial
      · exact ⟨Int.natCast_nonneg _, Int.ofNat_le.2 length⟩
      · refine ⟨?_, by omega⟩
        by_contra before
        have empty : m.path = [] := List.length_eq_zero_iff.1 (by omega)
        rw [empty] at whole boundary
        rcases more empty with rfl | lead
        · exact whole rfl
        · rw [List.length_nil, ← List.head?_eq_getElem?] at boundary
          exact boundary lead

/-- A command without a path where the only mount is `/`. -/
theorem mount_lookup_iff_relative :
    (LookupRight [⟨[slash], ()⟩] (text "ls") ↔ MatchesInside [⟨[slash], ()⟩] (text "ls")) ∧
      ∀ before, (getMountFs before [⟨[slash], ()⟩] (text "ls")).1 = none ↔
        ∀ m ∈ [(⟨[slash], ()⟩ : Mount Unit)], ¬m.path <+: text "ls" :=
  mount_lookup_iff (by simp [slash]) (by decide)

/-- The lookup of `ls` reads the character before the path. -/
theorem mount_lookup_outside : ¬∀ (mounts : List (Mount Unit)) (path : CStr), (∀ m ∈ mounts, 0 ∉ m.path) → 0 ∉ path →
    LookupRight mounts path := by
  intro right
  obtain ⟨res, subpath, run, -⟩ := right [⟨[slash], ()⟩] (text "ls") (by simp [slash]) (by decide)
  cases run

end Lookup

end OsLab.Kernel.Vfs
