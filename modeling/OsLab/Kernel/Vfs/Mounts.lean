import OsLab.Klib.String
import Mathlib.Data.List.Nodup
import Mathlib.Data.List.Infix

/-!
# Mount resolution (`get_mount_fs` in `vfs.c`)

`get_mount_fs` picks the longest mount path that is a string prefix of the path and then
moves the subpath pointer by the next character. `Resolved` states resolution by path
components. The two differ where the longest string prefix ends inside a component, and for
a path under `/` that starts with two slashes; `resolved_iff` shows that they differ nowhere
else.
-/

namespace OsLab.Kernel.Vfs

open OsLab.Klib

/-- The character `/`. -/
def slash : UInt8 := 47

/-- `mount_node`; `next` is the position in the list. -/
structure Mount (FS : Type) where
  path : CStr
  fs : FS
  deriving DecidableEq

/-- Where a subpath pointer points: into the queried path, at an offset that is -1 when no
mount matches, or to the constant `"/"`. -/
inductive SubpathPtr where
  | inPath (offset : Int)
  | root
  deriving DecidableEq, Repr

/-- The character at an offset of a string, with the byte in memory before the string. -/
def charFrom (before : UInt8) (path : CStr) (offset : Int) : UInt8 :=
  if offset < 0 then before else charAt path offset.toNat

/-- The string at a subpath pointer. -/
def SubpathPtr.chars (before : UInt8) (path : CStr) : SubpathPtr → CStr
  | .inPath offset => if offset < 0 then before :: path else path.drop offset.toNat
  | .root => [slash]

variable {FS : Type}

/-- The loop of `get_mount_fs` over the mounts. -/
def bestMount (path : CStr) : List (Mount FS) → Int → Option (Mount FS) → Int × Option (Mount FS)
  | [], bestLen, res => (bestLen, res)
  | cur :: next, bestLen, res =>
    if strneq path cur.path (strlen cur.path) then
      if (strlen cur.path : Int) > bestLen then
        bestMount path next (strlen cur.path) (some cur)
      else
        bestMount path next bestLen res
    else
      bestMount path next bestLen res

/-- `get_mount_fs`, with the byte in memory before the path. -/
def getMountFs (before : UInt8) (mounts : List (Mount FS)) (path : CStr) :
    Option (Mount FS) × SubpathPtr :=
  let (bestLen, res) := bestMount path mounts (-1) none
  if charFrom before path bestLen = 0 then
    (res, .root)
  else if charFrom before path bestLen ≠ slash then
    (res, .inPath (bestLen - 1))
  else
    (res, .inPath bestLen)

/-- The mount tables that the kernel sets up: distinct absolute paths, `/` among them and
no other one ending in `/`. -/
structure MountTable (mounts : List (Mount FS)) : Prop where
  distinct : (mounts.map Mount.path).Nodup
  absolute : ∀ m ∈ mounts, m.path.head? = some slash
  terminated : ∀ m ∈ mounts, 0 ∉ m.path
  root : ∃ m ∈ mounts, m.path = [slash]
  trailing : ∀ m ∈ mounts, m.path.getLast? = some slash → m.path = [slash]

/-- A mount path covers a path that it equals, or whose components it begins with. -/
def Covers (mount path : CStr) : Prop :=
  mount = path ∨ (mount <+: path ∧ (mount.getLast? = some slash ∨ path[mount.length]? = some slash))

/-- Resolution by components: the longest covering mount, with the rest of the path. -/
structure Resolved (mounts : List (Mount FS)) (path : CStr) (m : Mount FS) (subpath : CStr) : Prop where
  member : m ∈ mounts
  covers : Covers m.path path
  longest : ∀ m' ∈ mounts, Covers m'.path path → m'.path.length ≤ m.path.length
  absolute : subpath.head? = some slash
  exact : path = m.path → subpath = [slash]
  whole : m.path = [slash] → subpath = path
  rest : m.path ≠ [slash] → path ≠ m.path → subpath = path.drop m.path.length

/-- `get_mount_fs` resolves a path by components. -/
def ByComponents (before : UInt8) (mounts : List (Mount FS)) (path : CStr) : Prop :=
  ∃ m, (getMountFs before mounts path).1 = some m ∧
    Resolved mounts path m ((getMountFs before mounts path).2.chars before path)

/-- The longest mount path that is a string prefix of the path is `/`, and the path does not
start with two slashes, or it ends where a component of the path ends. -/
def EndsComponent (mounts : List (Mount FS)) (path : CStr) : Prop :=
  ∃ m ∈ mounts, m.path <+: path ∧ (∀ m' ∈ mounts, m'.path <+: path → m'.path.length ≤ m.path.length) ∧
    if m.path = [slash] then path[1]? ≠ some slash else m.path = path ∨ path[m.path.length]? = some slash

section Resolution

variable {mounts : List (Mount FS)} {path : CStr}

theorem bestMount_cons {cur : Mount FS} {next : List (Mount FS)} (terminated : 0 ∉ cur.path)
    (bestLen : Int) (res : Option (Mount FS)) :
    bestMount path (cur :: next) bestLen res =
      if cur.path <+: path ∧ bestLen < cur.path.length then
        bestMount path next cur.path.length (some cur)
      else
        bestMount path next bestLen res := by
  rw [bestMount]
  by_cases hit : cur.path <+: path
  · rw [if_pos ((strneq_iff_isPrefix terminated).2 hit), strlen_eq]
    simp only [hit, true_and, gt_iff_lt]
  · rw [if_neg fun equal => hit ((strneq_iff_isPrefix terminated).1 equal), if_neg fun taken => hit taken.1]

/-- The loop keeps the longest prefix met so far. -/
theorem bestMount_spec (terminated : ∀ m ∈ mounts, 0 ∉ m.path) (bestLen : Int) (res : Option (Mount FS)) :
    (bestMount path mounts bestLen res = (bestLen, res) ∧
        ∀ m ∈ mounts, m.path <+: path → (m.path.length : Int) ≤ bestLen) ∨
      ∃ m ∈ mounts, m.path <+: path ∧ bestLen < m.path.length ∧
        (∀ m' ∈ mounts, m'.path <+: path → m'.path.length ≤ m.path.length) ∧
        bestMount path mounts bestLen res = ((m.path.length : Int), some m) := by
  induction mounts generalizing bestLen res with
  | nil => exact Or.inl ⟨rfl, fun m member => absurd member List.not_mem_nil⟩
  | cons cur next ih =>
    have terminated' := fun m member => terminated m (List.mem_cons_of_mem cur member)
    rw [bestMount_cons (terminated cur List.mem_cons_self)]
    by_cases taken : cur.path <+: path ∧ bestLen < cur.path.length
    · rw [if_pos taken]
      right
      rcases ih terminated' cur.path.length (some cur) with ⟨result, bound⟩ | ⟨m, member, hit, above, longest, result⟩
      · refine ⟨cur, List.mem_cons_self, taken.1, taken.2, ?_, result⟩
        intro m' member' hit'
        rcases List.mem_cons.1 member' with rfl | member'
        · exact Nat.le_refl _
        · exact Int.ofNat_le.1 (bound m' member' hit')
      · refine ⟨m, List.mem_cons_of_mem _ member, hit, by omega, ?_, result⟩
        intro m' member' hit'
        rcases List.mem_cons.1 member' with rfl | member'
        · omega
        · exact longest m' member' hit'
    · rw [if_neg taken]
      have short : cur.path <+: path → (cur.path.length : Int) ≤ bestLen :=
        fun hit => Int.not_lt.1 fun longer => taken ⟨hit, longer⟩
      rcases ih terminated' bestLen res with ⟨result, bound⟩ | ⟨m, member, hit, above, longest, result⟩
      · refine Or.inl ⟨result, ?_⟩
        intro m' member' hit'
        rcases List.mem_cons.1 member' with rfl | member'
        · exact short hit'
        · exact bound m' member' hit'
      · refine Or.inr ⟨m, List.mem_cons_of_mem _ member, hit, above, ?_, result⟩
        intro m' member' hit'
        rcases List.mem_cons.1 member' with rfl | member'
        · have := short hit'
          omega
        · exact longest m' member' hit'

/-- What `get_mount_fs` returns on an absolute path. -/
theorem getMountFs_spec (before : UInt8) (table : MountTable mounts) (absolute : path.head? = some slash)
    (nul : 0 ∉ path) :
    ∃ m ∈ mounts, m.path <+: path ∧ (∀ m' ∈ mounts, m'.path <+: path → m'.path.length ≤ m.path.length) ∧
      0 < m.path.length ∧
      getMountFs before mounts path = (some m,
        if m.path = path then .root
        else if path[m.path.length]? = some slash then .inPath m.path.length
        else .inPath (m.path.length - 1)) := by
  obtain ⟨r, rootMember, rootPath⟩ := table.root
  have rootHit : r.path <+: path := by
    cases path with
    | nil => cases absolute
    | cons c rest =>
      obtain rfl : c = slash := Option.some.inj absolute
      rw [rootPath]
      exact ⟨rest, rfl⟩
  rcases bestMount_spec table.terminated (-1) none with ⟨-, bound⟩ | ⟨m, member, hit, -, longest, result⟩
  · have := bound r rootMember rootHit
    omega
  have positive : 0 < m.path.length := by
    have := longest r rootMember rootHit
    rw [rootPath] at this
    exact this
  refine ⟨m, member, hit, longest, positive, ?_⟩
  have here : charFrom before path m.path.length = path.getD m.path.length 0 := by
    unfold charFrom charAt
    rw [if_neg (by omega), Int.toNat_natCast]
  unfold getMountFs
  rw [result]
  dsimp only
  rw [here]
  by_cases whole : m.path = path
  · rw [if_pos whole, if_pos (by rw [whole]; simp)]
  · have inside : m.path.length < path.length :=
      Nat.lt_of_le_of_ne hit.length_le fun same => whole (hit.eq_of_length same)
    have read : path.getD m.path.length 0 = path[m.path.length] := by
      rw [List.getD_eq_getElem?_getD, List.getElem?_eq_getElem inside, Option.getD_some]
    have nonzero : path[m.path.length] ≠ 0 := fun zero => nul (zero ▸ List.getElem_mem inside)
    rw [if_neg whole, read, if_neg nonzero]
    have next := List.getElem?_eq_getElem inside
    by_cases boundary : path[m.path.length] = slash
    · rw [if_neg (not_not.2 boundary), if_pos (next.trans (congrArg some boundary))]
    · rw [if_pos boundary, if_neg fun hit => boundary (Option.some.inj (next.symm.trans hit))]

/-- Covering mounts are string prefixes. -/
theorem Covers.isPrefix {mount : CStr} (h : Covers mount path) : mount <+: path := by
  rcases h with rfl | ⟨prefixed, -⟩
  · exact List.prefix_refl _
  · exact prefixed

/-- Two longest prefixes of a path are equal. -/
theorem prefix_unique {a b : CStr} (ha : a <+: path) (hb : b <+: path) (same : a.length = b.length) : a = b :=
  (List.prefix_of_prefix_length_le ha hb (Nat.le_of_eq same)).eq_of_length same

/-- **Where mount resolution works by components.** For every mount table and every absolute
path, `get_mount_fs` returns the mount and the subpath of resolution by components exactly
when the longest string prefix among the mount paths ends where a component ends. -/
theorem resolved_iff (before : UInt8) (table : MountTable mounts) (absolute : path.head? = some slash)
    (nul : 0 ∉ path) :
    ByComponents before mounts path ↔ EndsComponent mounts path := by
  obtain ⟨m, member, hit, longest, positive, result⟩ := getMountFs_spec before table absolute nul
  unfold ByComponents
  rw [result]
  dsimp only
  constructor
  · rintro ⟨m', same, resolved⟩
    obtain rfl := Option.some.inj same
    refine ⟨m, member, hit, longest, ?_⟩
    by_cases root : m.path = [slash]
    · rw [if_pos root]
      intro second
      have whole := resolved.whole root
      rw [if_neg (by intro same; rw [← same, root] at second; cases second), root,
        if_pos (show path[[slash].length]? = some slash from second)] at whole
      have dropped := congrArg List.length whole
      change (path.drop 1).length = path.length at dropped
      rw [List.length_drop] at dropped
      have := hit.length_le
      omega
    · rw [if_neg root]
      rcases resolved.covers with same | ⟨-, trailing | boundary⟩
      · exact Or.inl same
      · exact absurd (table.trailing m member trailing) root
      · exact Or.inr boundary
  · rintro ⟨m₁, member₁, hit₁, longest₁, ends⟩
    have same : m₁.path = m.path := prefix_unique hit₁ hit
      (Nat.le_antisymm (longest m₁ member₁ hit₁) (longest₁ m member hit))
    rw [same] at ends
    refine ⟨m, rfl, ?_⟩
    have covers : Covers m.path path := by
      by_cases root : m.path = [slash]
      · exact Or.inr ⟨hit, Or.inl (by rw [root]; rfl)⟩
      · rw [if_neg root] at ends
        exact ends.imp_right fun boundary => ⟨hit, Or.inr boundary⟩
    have longest' : ∀ m' ∈ mounts, Covers m'.path path → m'.path.length ≤ m.path.length :=
      fun m' member' covers' => longest m' member' covers'.isPrefix
    by_cases whole : m.path = path
    · rw [if_pos whole]
      exact ⟨member, covers, longest', rfl, fun _ => rfl, fun root => root.symm.trans whole,
        fun _ differs => absurd whole.symm differs⟩
    · rw [if_neg whole]
      by_cases boundary : path[m.path.length]? = some slash
      · rw [if_pos boundary]
        have notRoot : m.path ≠ [slash] := by
          intro root
          rw [if_pos root] at ends
          rw [root] at boundary
          exact ends boundary
        refine ⟨member, covers, longest', ?_, fun same => absurd same.symm whole,
          fun root => absurd root notRoot, fun _ _ => rfl⟩
        show (path.drop m.path.length).head? = some slash
        rw [List.head?_drop]
        exact boundary
      · rw [if_neg boundary]
        have root : m.path = [slash] := by
          by_contra notRoot
          rw [if_neg notRoot] at ends
          exact ends.elim whole boundary
        have start : SubpathPtr.chars before path (.inPath (m.path.length - 1)) = path := by
          rw [root]
          rfl
        rw [start]
        exact ⟨member, covers, longest', absolute, fun same => absurd same.symm whole, fun _ => rfl,
          fun notRoot => absurd root notRoot⟩

/-- With mounts `/dev` and `/`, the path `/dev/tty` is resolved by components. -/
theorem resolved_iff_dev :
    ByComponents 0 [⟨[47, 100, 101, 118], 1⟩, ⟨[47], (2 : Nat)⟩] [47, 100, 101, 118, 47, 116, 116, 121] := by
  apply (resolved_iff 0 _ rfl (by decide)).2
  · exact ⟨⟨[47, 100, 101, 118], 1⟩, by decide, by decide, by decide, by decide⟩
  · exact ⟨by decide, by decide, by decide, by decide, by decide⟩

/-- With mounts `/dev` and `/`, the path `/device` lies under `/` only, but `get_mount_fs`
hands it to `/dev`, with the subpath `vice`. -/
theorem device_not_byComponents :
    MountTable [⟨[47, 100, 101, 118], 1⟩, ⟨[47], (2 : Nat)⟩] ∧
      getMountFs 0 [⟨[47, 100, 101, 118], 1⟩, ⟨[47], (2 : Nat)⟩] [47, 100, 101, 118, 105, 99, 101] =
        (some ⟨[47, 100, 101, 118], 1⟩, .inPath 3) ∧
      ¬ Covers [47, 100, 101, 118] [47, 100, 101, 118, 105, 99, 101] ∧
      ¬ ByComponents 0 [⟨[47, 100, 101, 118], 1⟩, ⟨[47], (2 : Nat)⟩] [47, 100, 101, 118, 105, 99, 101] := by
  refine ⟨⟨by decide, by decide, by decide, by decide, by decide⟩, by decide, ?_, ?_⟩
  · unfold Covers
    decide
  · rintro ⟨m, -, resolved⟩
    exact absurd resolved.absolute (by decide)

end Resolution

end OsLab.Kernel.Vfs
