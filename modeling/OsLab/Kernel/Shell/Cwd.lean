import OsLab.Kernel.Io.Closing
import OsLab.Kernel.Io.Printf
import OsLab.Kernel.Shell.Model
import OsLab.Kernel.Vfs.World

/-!
# The working directory (`cmd_cd`)

The working directory lies in a buffer of 128 bytes, into which `cmd_cd` copies a path that grows with every name that
is joined to it. A command is right if it leaves an absolute path in the buffer, copies no more than fits, succeeds
only with a directory, and prints a message and leaves the path alone if it fails. It is, exactly where the joined path
of a directory that is found fits; the message about another one is cut off where it is too long.
-/

namespace OsLab.Kernel.Shell

open OsLab.Klib OsLab.Triples OsLab.Kernel.Io
open OsLab.Kernel.Vfs (M fileAt)
open OsLab.Kernel.Blkfs (AccessFlag Disk)

/-! ## The paths -/

/-- An absolute path that fits into the buffer with its NUL. -/
structure GoodCwd (cwd : CStr) : Prop where
  absolute : cwd.head? = some slash
  terminated : 0 ∉ cwd
  inside : cwd.length ≤ 127

/-- The expanded path fits: `.`, `..` and absolute paths do, other names if there is room for them and the slash before
them. -/
def Fits (cwd arg : CStr) : Prop :=
  arg ≠ [] ∧ (arg = text "." ∨ arg = text ".." ∨ arg.head? = some slash ∨
    cwd.length + (if lastChar cwd = slash then 0 else 1) + arg.length ≤ 127)

section Paths

variable {cwd arg path : CStr}

theorem GoodCwd.ne_nil (good : GoodCwd cwd) : cwd ≠ [] := by
  rintro rfl
  have absolute := good.absolute
  simp at absolute

/-- `path_get_directory` cuts a path behind a slash, or leaves it. -/
theorem pathGetDirectory_take (path : CStr) :
    pathGetDirectory path = path ∨ ∃ k, 0 < k ∧ pathGetDirectory path = path.take k := by
  unfold pathGetDirectory
  cases last : lastSlash path with
  | none => exact .inl rfl
  | some rp =>
    obtain ⟨start, index⟩ : ∃ start : CStr, rp = start.length := by
      unfold lastSlash at last
      split at last
      · obtain ⟨start, -, -, -, index⟩ := strrchr_some (by decide) last
        exact ⟨start, index⟩
      · obtain ⟨start, -, -, -, index⟩ := strrchr_some (by decide) last
        exact ⟨start, index⟩
    exact .inr ⟨(rp + 1).toNat, by omega, rfl⟩

theorem GoodCwd.directory (good : GoodCwd cwd) : GoodCwd (pathGetDirectory cwd) := by
  obtain same | ⟨k, positive, cut⟩ := pathGetDirectory_take cwd
  · rwa [same]
  · rw [cut]
    refine ⟨?_, fun mem => good.terminated (List.mem_of_mem_take mem), ?_⟩
    · rw [List.head?_take, if_neg (by omega), good.absolute]
    · exact (List.length_take_le' ..).trans good.inside

theorem slash_prefix : strneq arg (text "/") 1 = true ↔ arg.head? = some slash := by
  have one : strlen (text "/") = 1 := rfl
  rw [← one, strneq_iff_isPrefix (by decide)]
  cases arg with
  | nil => simp [text]
  | cons c arg =>
    have first : text "/" = [slash] := rfl
    simp [first, List.cons_prefix_cons, eq_comm]

/-- What is joined to the working directory. -/
theorem pathJoin_eq (nonempty : cwd ≠ []) (word : arg ≠ []) (relative : arg.head? ≠ some slash) :
    pathJoin cwd arg = cwd ++ ((if lastChar cwd = slash then [] else [slash]) ++ arg) := by
  have first : charAt arg 0 ≠ slash := by
    obtain ⟨c, cs, rfl⟩ := List.exists_cons_of_ne_nil word
    simpa [charAt] using relative
  unfold pathJoin
  rw [strlen_eq, strlen_eq, if_neg (by simpa using nonempty), if_neg (by simpa using word), if_neg first, if_neg first]
  split <;> simp

theorem pathExpand_dot : pathExpand cwd (text ".") = cwd := by simp [pathExpand]

theorem pathExpand_dots : pathExpand cwd (text "..") = pathGetDirectory cwd := by
  have other : streq (text "..") (text ".") = false := rfl
  simp [pathExpand, other]

theorem pathExpand_absolute (terminated : 0 ∉ arg) (absolute : arg.head? = some slash) : pathExpand cwd arg = arg := by
  have other (op : String) (plain : 0 ∉ text op) (differs : (text op).head? ≠ some slash) :
      streq arg (text op) = false := by
    rw [Bool.eq_false_iff, ne_eq, streq_iff terminated plain]
    rintro rfl
    exact differs absolute
  simp [pathExpand, other "." (by decide) (by decide), other ".." (by decide) (by decide), slash_prefix.2 absolute]

theorem pathExpand_relative (terminated : 0 ∉ arg) (dot : arg ≠ text ".") (dots : arg ≠ text "..")
    (relative : arg.head? ≠ some slash) : pathExpand cwd arg = pathJoin cwd arg := by
  have other (op : String) (plain : 0 ∉ text op) (differs : arg ≠ text op) : streq arg (text op) = false := by
    rw [Bool.eq_false_iff, ne_eq, streq_iff terminated plain]
    exact differs
  have joined : strneq arg (text "/") 1 = false := by
    rw [Bool.eq_false_iff, ne_eq, slash_prefix]
    exact relative
  simp [pathExpand, other "." (by decide) dot, other ".." (by decide) dots, joined]

theorem pathJoin_empty (nonempty : cwd ≠ []) : pathJoin cwd [] = [] := by simp [pathJoin, nonempty]

/-- A character that comes from neither of the paths, nor from between them. -/
theorem notMem_pathExpand {c : UInt8} (other : c ≠ slash) (nonempty : cwd ≠ []) (terminated : 0 ∉ arg) (out : c ∉ cwd)
    (out' : c ∉ arg) : c ∉ pathExpand cwd arg := by
  by_cases dot : arg = text "."
  · subst dot
    rwa [pathExpand_dot]
  by_cases dots : arg = text ".."
  · subst dots
    rw [pathExpand_dots]
    obtain same | ⟨k, -, cut⟩ := pathGetDirectory_take cwd
    · rwa [same]
    · rw [cut]
      exact fun mem => out (List.mem_of_mem_take mem)
  by_cases absolute : arg.head? = some slash
  · rwa [pathExpand_absolute terminated absolute]
  rw [pathExpand_relative terminated dot dots absolute]
  rcases eq_or_ne arg [] with rfl | word
  · rw [pathJoin_empty nonempty]
    exact List.not_mem_nil
  · rw [pathJoin_eq nonempty word absolute, List.mem_append, List.mem_append]
    rintro (mem | mem | mem)
    · exact out mem
    · split at mem <;> simp [other] at mem
    · exact out' mem

theorem head_pathExpand (good : GoodCwd cwd) (word : arg ≠ []) (terminated : 0 ∉ arg) :
    (pathExpand cwd arg).head? = some slash := by
  by_cases dot : arg = text "."
  · subst dot
    rw [pathExpand_dot]
    exact good.absolute
  by_cases dots : arg = text ".."
  · subst dots
    rw [pathExpand_dots]
    exact good.directory.absolute
  by_cases absolute : arg.head? = some slash
  · rwa [pathExpand_absolute terminated absolute]
  · rw [pathExpand_relative terminated dot dots absolute, pathJoin_eq good.ne_nil word absolute, List.head?_append,
      good.absolute]
    rfl

/-- The expanded path is short enough for a conversion of `vsnprintf`. -/
theorem length_pathExpand_le (good : GoodCwd cwd) (terminated : 0 ∉ arg) (short : arg.length ≤ 31) :
    (pathExpand cwd arg).length ≤ 159 := by
  have inside := good.inside
  by_cases dot : arg = text "."
  · subst dot
    rw [pathExpand_dot]
    omega
  by_cases dots : arg = text ".."
  · subst dots
    rw [pathExpand_dots]
    have directory := good.directory.inside
    omega
  by_cases absolute : arg.head? = some slash
  · rw [pathExpand_absolute terminated absolute]
    omega
  rw [pathExpand_relative terminated dot dots absolute]
  rcases eq_or_ne arg [] with rfl | word
  · rw [pathJoin_empty good.ne_nil]
    exact Nat.zero_le _
  · rw [pathJoin_eq good.ne_nil word absolute, List.length_append, List.length_append]
    split
    · simp
      omega
    · simp
      omega

/-- The expanded path is a good one exactly if it fits. -/
theorem good_pathExpand (good : GoodCwd cwd) (terminated : 0 ∉ arg) (short : arg.length ≤ 31) :
    GoodCwd (pathExpand cwd arg) ↔ Fits cwd arg := by
  by_cases dot : arg = text "."
  · subst dot
    rw [pathExpand_dot]
    exact iff_of_true good ⟨by decide, .inl rfl⟩
  by_cases dots : arg = text ".."
  · subst dots
    rw [pathExpand_dots]
    exact iff_of_true good.directory ⟨by decide, .inr (.inl rfl)⟩
  by_cases absolute : arg.head? = some slash
  · rw [pathExpand_absolute terminated absolute]
    have word : arg ≠ [] := by
      rintro rfl
      simp at absolute
    exact iff_of_true ⟨absolute, terminated, by omega⟩ ⟨word, .inr (.inr (.inl absolute))⟩
  rcases eq_or_ne arg [] with rfl | word
  · rw [pathExpand_relative terminated dot dots absolute, pathJoin_empty good.ne_nil]
    exact iff_of_false (fun bad => bad.ne_nil rfl) fun fits => fits.1 rfl
  · -- only the room for the joined path is in question
    have room : Fits cwd arg ↔ cwd.length + (if lastChar cwd = slash then 0 else 1) + arg.length ≤ 127 := by
      simp [Fits, word, dot, dots, absolute]
    have size : (pathExpand cwd arg).length = cwd.length + (if lastChar cwd = slash then 0 else 1) + arg.length := by
      rw [pathExpand_relative terminated dot dots absolute, pathJoin_eq good.ne_nil word absolute]
      split
      · simp
      · simp
        omega
    rw [room, ← size]
    have plain : 0 ∉ pathExpand cwd arg := notMem_pathExpand (by decide) good.ne_nil terminated good.terminated terminated
    exact ⟨fun fine => fine.inside, fun inside => ⟨head_pathExpand good word terminated, plain, inside⟩⟩

end Paths

/-! ## What leaves it alone -/

/-- `sh->cwd->content` -/
def cwdOf (s : Sys) : CStr := s.world.cwd

/-- Filesystems that leave the working directory alone in what `access` and the streams ask of them. -/
structure LeavesCwd (ops : Vfs.Ops Filesystem Node World) : Prop where
  lookup : ∀ fs path flags, Keeps cwdOf (ops.lookup fs path flags)
  closeInode : ∀ fs node, Keeps cwdOf (ops.closeInode fs node)
  access : ∀ tf flags, Keeps cwdOf (ops.access tf flags)
  write : ∀ tf buf size, Keeps cwdOf (ops.write tf buf size)

section Leave

variable {ops : Vfs.Ops Filesystem Node World}

theorem cwdOf_aside : Aside cwdOf := ⟨fun _ _ _ => rfl, fun _ _ _ => rfl⟩

theorem cwdOf_ofWorld : Vfs.OfWorld cwdOf := fun _ _ same => congrArg World.cwd same

/-- The filesystems leave the working directory alone if devfs does. -/
theorem machine_leavesCwd {mach : Machine} (rest : LeavesCwd mach.rest) : LeavesCwd mach.ops where
  lookup fs path flags := by
    cases fs with
    | blkfs n => exact keeps_lookup cwdOf (mach.info n) n path
    | procfs => exact cwdOf_aside.procfsLookup path
    | devfs => exact rest.lookup _ _ _
  closeInode fs node := by
    cases fs with
    | blkfs n => exact Keeps.pure _
    | procfs => exact cwdOf_aside.procfsClose node
    | devfs => exact rest.closeInode _ _
  access tf flags := by
    refine Keeps.bind (Vfs.keeps_fileAt _) fun f => ?_
    cases f.inode.fs with
    | blkfs n => exact Keeps.pure _
    | procfs => exact Keeps.pure _
    | devfs => exact rest.access _ _
  write tf buf size := by
    refine Keeps.bind (Vfs.keeps_fileAt _) fun f => ?_
    cases f.inode.fs with
    | blkfs n =>
      refine Keeps.bind (Keeps.gets _) fun m => Keeps.bind (cwdOf_aside.onDisk _ _) fun r => ?_
      exact Keeps.bind (Keeps.modify fun _ => rfl) fun _ => Keeps.pure _
    | procfs => exact Keeps.pure _
    | devfs => exact rest.write _ _ _

theorem LeavesCwd.vfsAccess (leaves : LeavesCwd ops) (path : Option CStr) (flags : AccessFlag) :
    Keeps cwdOf (Vfs.access ops path flags) :=
  cwdOf_ofWorld.access leaves.lookup leaves.closeInode leaves.access path flags

theorem LeavesCwd.vfsWrite (leaves : LeavesCwd ops) (fd : Int) (buf n : Nat) : Keeps cwdOf (Vfs.write ops fd buf n) :=
  cwdOf_ofWorld.onFile (fun _ => leaves.write _ _ _) fd

theorem cwd_streamAt (stream : Nat) : Keeps cwdOf (streamAt stream : SysM Filestream) :=
  Keeps.bind (Keeps.gets _) fun _ => Vfs.keeps_deref _

theorem LeavesCwd.fsFlush (leaves : LeavesCwd ops) (stream : Nat) : Keeps cwdOf (fsFlush ops stream) := by
  refine Keeps.bind (cwd_streamAt _) fun fs => Keeps.ite (Keeps.pure _) ?_
  refine Keeps.bind (leaves.vfsWrite _ _ _) fun _ => Keeps.bind (Vfs.keeps_assert _ _) fun _ => ?_
  exact Keeps.modify fun _ => rfl

theorem cwd_pushChar (stream : Nat) (c : UInt8) : Keeps cwdOf (pushChar stream c : SysM Int) := by
  refine Keeps.bind (cwd_streamAt _) fun fs => Keeps.bind (Keeps.gets _) fun m => ?_
  refine Keeps.bind (Keeps.modify fun _ => rfl) fun _ => ?_
  exact Keeps.bind (Keeps.modify fun _ => rfl) fun _ => Keeps.pure _

theorem LeavesCwd.fsPutChar (leaves : LeavesCwd ops) (stream : Nat) (c : UInt8) :
    Keeps cwdOf (fsPutChar ops stream c) := by
  refine Keeps.bind (cwd_pushChar _ _) fun _ => Keeps.ite ?_ (Keeps.pure _)
  refine Keeps.bind (leaves.fsFlush _) fun _ => Keeps.bind (cwd_pushChar _ _) fun _ => ?_
  exact Vfs.keeps_assert _ _

theorem LeavesCwd.putChars (leaves : LeavesCwd ops) (stream : Nat) (cs : CStr) :
    Keeps cwdOf (putChars ops stream cs) := by
  induction cs with
  | nil => exact Keeps.pure _
  | cons c cs ih =>
    rw [Io.putChars]
    refine Keeps.bind (leaves.fsPutChar _ _) fun _ => Keeps.bind (cwd_streamAt _) fun _ => ?_
    exact Keeps.ite (Keeps.bind (leaves.fsFlush _) fun _ => ih) ih

theorem LeavesCwd.fsPrintf (leaves : LeavesCwd ops) (stream : Nat) (fmt : CStr) (args : List Arg) :
    Keeps cwdOf (fsPrintf ops stream fmt args) :=
  Keeps.bind (keeps_lifted _ _) fun _ => Keeps.bind (leaves.putChars _ _) fun _ => Keeps.pure _

theorem LeavesCwd.fsPutLine (leaves : LeavesCwd ops) (stream : Nat) (s : CStr) :
    Keeps cwdOf (fsPutLine ops stream s) :=
  Keeps.bind (leaves.fsPrintf _ _ _) fun _ => Keeps.pure _

end Leave

/-! ## The commands -/

/-- A `cmd_cd`. -/
structure Cd where
  sh : ShellData
  cmd : Opened

/-- The message about a directory that is not found: as much of the path as there is room for, and the end of the line. -/
def missing (path : CStr) : CStr := (text "Can't access the directory " ++ path).take 127 ++ [newline]

/-- What `cmd_cd` has to do: it copies no directory that it has found beyond the buffer and returns -1 for another one if
the stream takes the message; the buffer has a good path behind it, that of a directory after success, and the same as
before after failure. -/
structure CdRight (sys : System) (cd : Cd) (s : Sys) : Prop where
  inside : ∀ arg s₁, cd.cmd.args = [arg] →
    Vfs.access sys.ops (some (pathExpand (cwdOf s) arg)) .dirExist s = .ok (0, s₁) →
    ∃ s', cmdCd sys cd.sh cd.cmd s = .ok (0, s')
  reports : ∀ arg res s₁ s', cd.cmd.args = [arg] →
    Vfs.access sys.ops (some (pathExpand (cwdOf s) arg)) .dirExist s = .ok (res, s₁) → res ≠ 0 →
    putChars sys.ops cd.sh.stdout (missing (pathExpand (cwdOf s) arg)) s₁ = .ok ((), s') →
    cmdCd sys cd.sh cd.cmd s = .ok (-1, s')
  good : ∀ res s', cmdCd sys cd.sh cd.cmd s = .ok (res, s') → GoodCwd (cwdOf s')
  success : ∀ s', cmdCd sys cd.sh cd.cmd s = .ok (0, s') →
    ∃ s₁, Vfs.access sys.ops (some (cwdOf s')) .dirExist s = .ok (0, s₁)
  failure : ∀ res s', cmdCd sys cd.sh cd.cmd s = .ok (res, s') → res ≠ 0 → cwdOf s' = cwdOf s

/-- A directory that is found fits. -/
def CdFits (sys : System) (cd : Cd) (s : Sys) : Prop :=
  ∀ arg s₁, cd.cmd.args = [arg] →
    Vfs.access sys.ops (some (pathExpand (cwdOf s) arg)) .dirExist s = .ok (0, s₁) → Fits (cwdOf s) arg

/-- Every command that is reached meets `P`. -/
def Along (sys : System) (P : Cd → Sys → Prop) : List Cd → Sys → Prop
  | [], _ => True
  | cd :: cds, s => P cd s ∧ ∀ res s', cmdCd sys cd.sh cd.cmd s = .ok (res, s') → Along sys P cds s'

/-- Run commands one after the other. -/
def runCds (sys : System) : List Cd → SysM Unit
  | [] => pure ()
  | cd :: cds => do
    let _ ← cmdCd sys cd.sh cd.cmd
    runCds sys cds

/-- The arguments have up to 31 characters. -/
def ShortArgs (cd : Cd) : Prop := ∀ arg ∈ cd.cmd.args, 0 ∉ arg ∧ arg.length ≤ 31

section Commands

variable {sys : System} {cd : Cd} {cds : List Cd} {s s' s₁ : Sys} {arg : CStr} {res : Int}

/-- `cmd_cd` with its one argument. -/
theorem cmdCd_found (one : cd.cmd.args = [arg])
    (found : Vfs.access sys.ops (some (pathExpand (cwdOf s) arg)) .dirExist s = .ok (0, s₁)) :
    cmdCd sys cd.sh cd.cmd s =
      if 128 ≤ strlen (pathExpand (cwdOf s) arg) then .error .outside
      else .ok (0, { s₁ with world := { s₁.world with cwd := pathExpand (cwdOf s) arg } }) := by
  have found : Vfs.access sys.ops (some (pathExpand s.world.cwd arg)) .dirExist s = .ok (0, s₁) := found
  unfold cmdCd
  rw [one]
  dsimp only
  rw [run_bind (run_gets _), run_bind found, if_pos rfl]
  unfold setCwd cwdOf
  split
  · rw [run_bind_error (run_throw _)]
  · rw [run_bind (run_modify _)]
    rfl

/-- A directory that is not found is reported. -/
theorem cmdCd_missed (one : cd.cmd.args = [arg])
    (asked : Vfs.access sys.ops (some (pathExpand (cwdOf s) arg)) .dirExist s = .ok (res, s₁)) (missed : res ≠ 0) :
    cmdCd sys cd.sh cd.cmd s = (fsPrintf sys.ops cd.sh.stdout (text "Can't access the directory %s\n")
      [.str (pathExpand (cwdOf s) arg)] >>= fun _ => pure (-1)) s₁ := by
  have asked : Vfs.access sys.ops (some (pathExpand s.world.cwd arg)) .dirExist s = .ok (res, s₁) := asked
  unfold cmdCd
  rw [one]
  dsimp only
  rw [run_bind (run_gets _), run_bind asked, if_neg missed]
  rfl

theorem cmdCd_reports (good : GoodCwd (cwdOf s)) (short : ShortArgs cd) (one : cd.cmd.args = [arg])
    (asked : Vfs.access sys.ops (some (pathExpand (cwdOf s) arg)) .dirExist s = .ok (res, s₁)) (missed : res ≠ 0)
    (taken : putChars sys.ops cd.sh.stdout (missing (pathExpand (cwdOf s) arg)) s₁ = .ok ((), s')) :
    cmdCd sys cd.sh cd.cmd s = .ok (-1, s') := by
  obtain ⟨terminated, inside⟩ := short arg (by simp [one])
  have plain : 0 ∉ pathExpand (cwdOf s) arg := notMem_pathExpand (by decide) good.ne_nil terminated good.terminated terminated
  have fits := length_pathExpand_le good terminated inside
  have letters : ∀ c ∈ text "Can't access the directory ", c ≠ 0 ∧ c ≠ 37 := by decide +kernel
  have format : text "Can't access the directory %s\n" = text "Can't access the directory " ++ [37, 115, newline] := by
    decide +kernel
  have final : newline ≠ 0 ∧ newline ≠ 37 := by decide
  obtain ⟨ret, print⟩ := fsPrintf_line sys.ops cd.sh.stdout letters (by decide) plain (Nat.le_trans fits (by decide)) final
  unfold missing at taken
  rw [cmdCd_missed one asked missed, format, print, bind_assoc, run_bind taken]
  rfl

theorem cmdCd_arguments (other : ∀ arg, cd.cmd.args ≠ [arg]) : cmdCd sys cd.sh cd.cmd =
    fsPutLine sys.ops cd.cmd.stderr (text "cd needs 1 argument.") >>= fun _ => pure (-1) := by
  unfold cmdCd
  rcases args : cd.cmd.args with _ | ⟨arg, _ | ⟨second, more⟩⟩
  · rfl
  · exact absurd args (other arg)
  · rfl

/-- What a `cmd_cd` that returns has done: it has found the directory, or left the working directory alone. -/
theorem cmdCd_cases (leaves : LeavesCwd sys.ops) (run : cmdCd sys cd.sh cd.cmd s = .ok (res, s')) :
    (∃ arg s₁, res = 0 ∧ cd.cmd.args = [arg] ∧ cwdOf s' = pathExpand (cwdOf s) arg ∧ (cwdOf s').length ≤ 127 ∧
        Vfs.access sys.ops (some (pathExpand (cwdOf s) arg)) .dirExist s = .ok (0, s₁)) ∨
      res = -1 ∧ cwdOf s' = cwdOf s := by
  by_cases one : ∃ arg, cd.cmd.args = [arg]
  · obtain ⟨arg, one⟩ := one
    have run₀ := run
    unfold cmdCd at run
    rw [one] at run
    dsimp only at run
    rw [run_bind (run_gets _)] at run
    obtain ⟨r, s₁, asked, rest⟩ := bind_run_eq_ok.1 run
    split at rest
    · next zero =>
      subst zero
      rw [cmdCd_found one asked] at run₀
      split at run₀
      · contradiction
      · next room =>
        cases run₀
        rw [strlen_eq] at room
        exact .inl ⟨arg, s₁, rfl, one, rfl, Nat.le_of_lt_succ (Nat.not_le.1 room), asked⟩
    · obtain ⟨ret, s₂, printed, last⟩ := bind_run_eq_ok.1 rest
      cases last
      exact .inr ⟨rfl, (leaves.fsPrintf _ _ _ _ _ _ printed).trans (leaves.vfsAccess _ _ _ _ _ asked)⟩
  · rw [cmdCd_arguments fun arg same => one ⟨arg, same⟩] at run
    obtain ⟨⟨⟩, s₂, printed, last⟩ := bind_run_eq_ok.1 run
    cases last
    exact .inr ⟨rfl, leaves.fsPutLine _ _ _ _ _ printed⟩

/-- What holds along a run holds behind each part of it. -/
theorem Along.behind {P : Cd → Sys → Prop} {before rest : List Cd} (along : Along sys P (before ++ cd :: rest) s)
    (run : runCds sys before s = .ok ((), s')) : P cd s' := by
  induction before generalizing s with
  | nil =>
    cases run
    exact along.1
  | cons first before ih =>
    obtain ⟨res, s₁, ran, later⟩ := bind_run_eq_ok.1 run
    exact ih (along.2 res s₁ ran) later

/-- A command that finds its directory and does not return is not right. -/
theorem not_cdRight (one : cd.cmd.args = [arg])
    (found : ((Vfs.access sys.ops (some (pathExpand (cwdOf s) arg)) .dirExist s).map Prod.fst).toOption = some 0)
    (stuck : (cmdCd sys cd.sh cd.cmd s).isOk = false) : ¬ CdRight sys cd s := by
  intro right
  cases asked : Vfs.access sys.ops (some (pathExpand (cwdOf s) arg)) .dirExist s with
  | error e =>
    rw [asked] at found
    contradiction
  | ok r =>
    rw [asked] at found
    obtain ⟨res, s₁⟩ := r
    obtain rfl : res = 0 := Option.some.inj found
    obtain ⟨s', run⟩ := right.inside arg s₁ one asked
    rw [run] at stuck
    contradiction

/-- A command is right exactly if the directory it finds fits. -/
theorem cdRight_iff (leaves : LeavesCwd sys.ops) (short : ShortArgs cd) (good : GoodCwd (cwdOf s)) :
    CdRight sys cd s ↔ CdFits sys cd s := by
  constructor
  · intro right arg s₁ one found
    have given := short arg (by simp [one])
    obtain ⟨s', run⟩ := right.inside arg s₁ one found
    have there := right.good 0 s' run
    rw [cmdCd_found one found] at run
    split at run
    · contradiction
    · cases run
      exact (good_pathExpand good given.1 given.2).1 there
  · intro fits
    have reached {arg s₁} (one : cd.cmd.args = [arg])
        (found : Vfs.access sys.ops (some (pathExpand (cwdOf s) arg)) .dirExist s = .ok (0, s₁)) :
        GoodCwd (pathExpand (cwdOf s) arg) := by
      have given := short arg (by simp [one])
      exact (good_pathExpand good given.1 given.2).2 (fits arg s₁ one found)
    refine ⟨fun arg s₁ one found => ?_, fun arg res s₁ s' one asked missed => cmdCd_reports good short one asked missed,
      fun res s' run => ?_, fun s' run => ?_, fun res s' run failed => ?_⟩
    · have room := (reached one found).inside
      refine ⟨_, (cmdCd_found one found).trans (if_neg ?_)⟩
      rw [strlen_eq]
      omega
    · obtain ⟨arg, s₁, -, one, cwd, -, found⟩ | ⟨-, same⟩ := cmdCd_cases leaves run
      · rw [cwd]
        exact reached one found
      · rwa [same]
    · obtain ⟨arg, s₁, -, one, cwd, -, found⟩ | ⟨failed, -⟩ := cmdCd_cases leaves run
      · exact ⟨s₁, by rw [cwd]; exact found⟩
      · contradiction
    · obtain ⟨-, -, done, -⟩ | ⟨-, same⟩ := cmdCd_cases leaves run
      · exact absurd done failed
      · exact same

theorem cds_right_iff (leaves : LeavesCwd sys.ops) (short : ∀ cd ∈ cds, ShortArgs cd) (good : GoodCwd (cwdOf s)) :
    Along sys (CdRight sys) cds s ↔ Along sys (CdFits sys) cds s := by
  induction cds generalizing s with
  | nil => rfl
  | cons cd cds ih =>
    rw [List.forall_mem_cons] at short
    have step := cdRight_iff leaves short.1 good
    rw [Along, Along, step]
    refine and_congr_right fun fits => ?_
    have right := step.2 fits
    exact forall_congr' fun res => forall_congr' fun s' => forall_congr' fun run => ih short.2 (right.good res s' run)

end Commands

/-- From `/` on, `cmd_cd` is right through a whole run exactly if each directory that is found fits. -/
theorem cmdCd_right_iff (sys : System) (cds : List Cd) (s : Sys) (rest : LeavesCwd sys.rest)
    (start : cwdOf s = text "/") (short : ∀ cd ∈ cds, ShortArgs cd) :
    Along sys (CdRight sys) cds s ↔ Along sys (CdFits sys) cds s :=
  cds_right_iff (machine_leavesCwd rest) short (by rw [start]; exact ⟨by decide, by decide, by decide⟩)

/-! ## Ten directories -/

section Tower

/-- A name of 14 characters. -/
def towerName : CStr := List.replicate 14 97

/-- A disk with ten directories, each alone in the one before it. -/
def towerDisk : Disk :=
  (List.range 10).foldl
    (fun d n => Blkfs.setEntry (Blkfs.setInode d (n + 1) ⟨2, n + 1, n + 2, 1, 0⟩) (n + 1) 0 towerName (n + 1))
    (Blkfs.setInode (fun _ _ => 0) 0 ⟨2, 0, 1, 1, 0⟩)

/-- A machine with the disk and without devfs. -/
def towerSystem : System := { procMachine with info := fun _ => ⟨12384, by decide⟩, address := fun _ => 0 }

/-- The disk at `/`, and a shell there. -/
def towerStart : Sys :=
  { procStart with
    mounts := [⟨[slash], .blkfs 0⟩]
    world := { procStart.world with disk := fun _ => towerDisk, cwd := text "/" } }

/-- A `cmd_cd` with an argument. -/
def cdTo (arg : CStr) : Cd := ⟨⟨1, 2⟩, ⟨[arg], 1, 2, 2⟩⟩

/-- Two directories deeper. -/
def towerCd : Cd := cdTo (towerName ++ slash :: towerName)

/-- Eight directories deeper. -/
def towerBefore : List Cd := List.replicate 4 towerCd

theorem tower_leavesCwd : LeavesCwd towerSystem.rest :=
  ⟨fun _ _ _ => Keeps.pure _, fun _ _ => Keeps.pure _, fun _ _ => Keeps.pure _, fun _ _ _ => Keeps.pure _⟩

/-- `cd .` and `cd ..` are right. -/
theorem cmdCd_right_dots : Along towerSystem (CdRight towerSystem) [cdTo (text "."), cdTo (text "..")] towerStart := by
  refine (cmdCd_right_iff _ _ _ tower_leavesCwd rfl ?_).2 ⟨?_, fun _ _ _ => ⟨?_, fun _ _ _ => trivial⟩⟩
  · simp [ShortArgs, cdTo, text]
  · intro arg s₁ one _
    obtain rfl := (List.cons.inj one).1
    exact ⟨by decide, .inl rfl⟩
  · intro arg s₁ one _
    obtain rfl := (List.cons.inj one).1
    exact ⟨by decide, .inr (.inl rfl)⟩

/-- The fifth `cmd_cd` copies 150 characters into the buffer. -/
theorem cmdCd_overflows : ¬ ∀ (sys : System) (cds : List Cd) (s : Sys), LeavesCwd sys.rest → cwdOf s = text "/" →
    (∀ cd ∈ cds, ShortArgs cd) → Along sys (CdRight sys) cds s := by
  intro claim
  have short : ∀ cd ∈ towerBefore ++ [towerCd], ShortArgs cd := by
    simp [ShortArgs, towerBefore, towerCd, cdTo, towerName, slash]
  have along := claim towerSystem _ towerStart tower_leavesCwd rfl short
  have last : (runCds towerSystem towerBefore towerStart).toOption.any (fun r =>
      ((Vfs.access towerSystem.ops (some (pathExpand (cwdOf r.2) (towerName ++ slash :: towerName))) .dirExist r.2).map
        Prod.fst).toOption == some 0 && !(cmdCd towerSystem towerCd.sh towerCd.cmd r.2).isOk) = true := by
    decide +kernel
  cases run : runCds towerSystem towerBefore towerStart with
  | error e =>
    rw [run] at last
    contradiction
  | ok r =>
    simp only [run, Except.toOption, Option.any_some, Bool.and_eq_true, beq_iff_eq, Bool.not_eq_true'] at last
    exact not_cdRight rfl last.1 last.2 (along.behind run)

end Tower

end OsLab.Kernel.Shell
