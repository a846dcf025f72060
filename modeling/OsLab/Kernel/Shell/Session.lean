import OsLab.Kernel.Shell.Cwd

/-!
# Sessions of a shell (`parse_execute`, `shell_task`)

Whatever lines a shell reads, whatever their commands do with files and streams, and whatever lines the commands themselves
run, the working directory is changed by `cmd_cd` only. From `/` on it stays an absolute path without spaces that fits into
its buffer, and each change is to a directory that has been found.
-/

namespace OsLab.Kernel.Shell

open OsLab.Klib OsLab.Triples OsLab.Kernel.Io
open OsLab.Kernel.Blkfs (AccessFlag Item)
open OsLab.Kernel.Vfs (fileAt)
open Relation (ReflTransGen)

/-! ## The words of a line -/

/-- What `command_parse` takes for an argument. -/
structure Word (w : CStr) : Prop where
  some : w ≠ []
  terminated : 0 ∉ w
  unbroken : space ∉ w
  short : w.length ≤ 31

section Words

variable {cwd s item : CStr} {cmd cmd' : Command} {r r' : RedirectType} {fuel : Nat}

theorem parseItem_args (run : parseItem cwd cmd r item = .ok (cmd', r')) :
    cmd'.args = cmd.args ∨ item ≠ [] ∧ cmd'.args = cmd.args ++ [item] := by
  unfold parseItem at run
  split at run
  · cases run
    exact .inl rfl
  next word =>
  split at run
  · cases run
    exact .inl rfl
  split at run
  · cases run
    left
    cases r with
    | none | stdin | stdout | stderr => rfl
  split at run
  · cases run
    exact .inl rfl
  · obtain ⟨-, run⟩ := kassert_bind_eq_ok.1 run
    cases run
    refine .inr ⟨?_, rfl⟩
    rintro rfl
    exact word rfl

theorem parseItem_words (run : parseItem cwd cmd r item = .ok (cmd', r')) (words : ∀ arg ∈ cmd.args, Word arg)
    (terminated : 0 ∉ item) (unbroken : space ∉ item) (short : item.length ≤ 31) : ∀ arg ∈ cmd'.args, Word arg := by
  obtain same | ⟨some, more⟩ := parseItem_args run
  · rwa [same]
  · rw [more]
    intro arg member
    obtain old | new := List.mem_append.1 member
    · exact words arg old
    · rw [List.mem_singleton.1 new]
      exact ⟨some, terminated, unbroken, short⟩

theorem commandParseLoop_words (run : commandParseLoop cwd fuel cmd r s = .ok cmd') (words : ∀ arg ∈ cmd.args, Word arg)
    (terminated : 0 ∉ s) : ∀ arg ∈ cmd'.args, Word arg := by
  induction fuel generalizing cmd r s with
  | zero => contradiction
  | succ fuel ih =>
    rw [commandParseLoop] at run
    split at run
    · next last =>
      split at run
      · contradiction
      next short =>
      obtain ⟨⟨cmd₁, r₁⟩, stored, run⟩ := bind_eq_ok.1 run
      cases run
      rw [strlen_eq] at short
      exact parseItem_words stored words terminated (strchr_none last) (by omega)
    · next n more =>
      split at run
      · contradiction
      next short =>
      obtain ⟨⟨cmd₁, r₁⟩, stored, run⟩ := bind_eq_ok.1 run
      obtain ⟨rest, -, -, unbroken⟩ := strchr_some (by decide) more
      have front : 0 ∉ s.take n := fun member => terminated (List.mem_of_mem_take member)
      have back : 0 ∉ s.drop (n + 1) := fun member => terminated (List.mem_of_mem_drop member)
      have taken := List.length_take_le n s
      exact ih run (parseItem_words stored words front unbroken (by omega)) back

theorem commandParse_words (run : commandParse cwd s = .ok cmd) (terminated : 0 ∉ s) : ∀ arg ∈ cmd.args, Word arg := by
  obtain ⟨cmd', loop, run⟩ := bind_eq_ok.1 run
  split at run
  · cases run
    exact commandParseLoop_words loop (List.forall_mem_nil _) terminated
  · contradiction

end Words

/-! ## The changes -/

/-- A working directory that `cmd_cd` can have made. -/
structure Tidy (cwd : CStr) : Prop extends GoodCwd cwd where
  unbroken : space ∉ cwd

/-- `cmd_cd` with a word: the expanded path is that of a directory, and fits. -/
def Change (sys : System) (cwd cwd' : CStr) : Prop :=
  ∃ arg s s₁, Word arg ∧ cwdOf s = cwd ∧ cwd' = pathExpand cwd arg ∧ cwd'.length ≤ 127 ∧
    Vfs.access sys.ops (some cwd') .dirExist s = .ok (0, s₁)

section Changes

variable {sys : System} {cwd cwd' arg : CStr}

theorem Tidy.root : Tidy (text "/") := ⟨⟨by decide, by decide, by decide⟩, by decide⟩

theorem Tidy.pathExpand (tidy : Tidy cwd) (word : Word arg) (inside : (pathExpand cwd arg).length ≤ 127) :
    Tidy (pathExpand cwd arg) where
  absolute := head_pathExpand tidy.toGoodCwd word.some word.terminated
  terminated := notMem_pathExpand (by decide) tidy.ne_nil word.terminated tidy.terminated word.terminated
  inside := inside
  unbroken := notMem_pathExpand (by decide) tidy.ne_nil word.terminated tidy.unbroken word.unbroken

theorem Change.tidy (change : Change sys cwd cwd') (tidy : Tidy cwd) : Tidy cwd' := by
  obtain ⟨arg, s, s₁, word, -, rfl, inside, -⟩ := change
  exact tidy.pathExpand word inside

end Changes

/-! ## What the streams leave alone -/

/-- Filesystems that leave the working directory alone in whatever a command asks of them. -/
structure LeavesShell (ops : Vfs.Ops Filesystem Node World) : Prop extends LeavesCwd ops where
  mkdir : ∀ fs path, Keeps cwdOf (ops.mkdir fs path)
  rm : ∀ fs path, Keeps cwdOf (ops.rm fs path)
  link : ∀ fs oldpath newpath, Keeps cwdOf (ops.link fs oldpath newpath)
  readdir : ∀ fs path, Keeps cwdOf (ops.readdir fs path)
  «open» : ∀ tf flags, Keeps cwdOf (ops.open tf flags)
  close : ∀ tf, Keeps cwdOf (ops.close tf)
  read : ∀ tf buf size, Keeps cwdOf (ops.read tf buf size)

section Leave

variable {ops : Vfs.Ops Filesystem Node World}

theorem cwd_infoAt (tki : Option Nat) : Keeps cwdOf (Procfs.infoAt tki) :=
  Keeps.bind (Vfs.keeps_deref _) fun _ => Keeps.bind (Keeps.gets _) fun _ => Vfs.keeps_deref _

theorem cwd_setFile (tf : Nat) (f : Vfs.File Node) : Keeps cwdOf (setFile tf f) := Keeps.modify fun _ => rfl

theorem cwd_contentOf (ncpu : Nat) (tki : TaskInfo) : Keeps cwdOf (Procfs.contentOf ncpu tki) := by
  unfold Procfs.contentOf
  split
  · exact Keeps.pure _
  · exact Keeps.pure _
  · exact Keeps.throw _
  · exact Keeps.pure _

theorem cwd_procfsOpen (ncpu tf : Nat) (f : Vfs.File Node) (flags : AccessFlag) :
    Keeps cwdOf (Procfs.inodeOpen ncpu tf f flags) := by
  refine Keeps.ite (Keeps.pure _) (Keeps.ite (Keeps.pure _) ?_)
  refine Keeps.bind (cwd_infoAt _) fun tki => Keeps.ite (Keeps.pure _) ?_
  refine Keeps.bind (cwd_contentOf _ _) fun content => Keeps.ite (Keeps.throw _) ?_
  exact Keeps.bind (cwdOf_aside.setInfo _ _) fun _ => Keeps.bind (cwd_setFile _ _) fun _ => Keeps.pure _

theorem cwd_procfsClose (f : Vfs.File Node) : Keeps cwdOf (Procfs.inodeClose f) := by
  unfold Procfs.inodeClose
  split
  · exact Keeps.pure _
  · refine Keeps.bind (cwd_infoAt _) fun tki => Keeps.ite (Keeps.pure _) ?_
    exact Keeps.bind (cwdOf_aside.setInfo _ _) fun _ => Keeps.pure _

theorem cwd_procfsRead (tf : Nat) (f : Vfs.File Node) (buf size : Nat) : Keeps cwdOf (Procfs.inodeRead tf f buf size) := by
  refine Keeps.ite (Keeps.pure _) (Keeps.bind (cwd_infoAt _) fun tki => Keeps.ite (Keeps.pure _) ?_)
  refine Keeps.bind (Vfs.keeps_assert _ _) fun _ => Keeps.bind (Keeps.modify fun _ => rfl) fun _ => ?_
  exact Keeps.bind (Keeps.gets _) fun res => Keeps.bind (cwd_setFile _ _) fun _ => Keeps.pure _

theorem cwd_procfsReaddir (path : CStr) : Keeps cwdOf (Procfs.readdir path) :=
  Keeps.ite (Keeps.bind (Keeps.gets _) fun _ => Keeps.pure _) (Keeps.pure _)

/-- The filesystems leave the working directory alone if devfs does. -/
theorem machine_leavesShell {mach : Machine} (rest : LeavesShell mach.rest) : LeavesShell mach.ops where
  toLeavesCwd := machine_leavesCwd rest.toLeavesCwd
  mkdir fs path := by
    cases fs with
    | blkfs n => exact cwdOf_aside.onDisk _ _
    | procfs | devfs => exact Keeps.pure _
  rm fs path := by
    cases fs with
    | blkfs n => exact cwdOf_aside.onDisk _ _
    | procfs | devfs => exact Keeps.pure _
  link fs oldpath newpath := by
    cases fs with
    | blkfs n => exact cwdOf_aside.onDisk _ _
    | procfs | devfs => exact Keeps.pure _
  readdir fs path := by
    cases fs with
    | blkfs n => exact cwdOf_aside.onDisk _ _
    | procfs => exact cwd_procfsReaddir _
    | devfs => exact rest.readdir _ _
  «open» tf flags := by
    refine Keeps.bind (Vfs.keeps_fileAt _) fun f => ?_
    cases f.inode.fs with
    | blkfs n =>
      exact Keeps.bind (cwdOf_aside.onDisk _ _) fun r => Keeps.bind (cwd_setFile _ _) fun _ => Keeps.pure _
    | procfs => exact cwd_procfsOpen _ _ _ _
    | devfs => exact rest.open _ _
  close tf := by
    refine Keeps.bind (Vfs.keeps_fileAt _) fun f => ?_
    cases f.inode.fs with
    | blkfs n => exact Keeps.pure _
    | procfs => exact cwd_procfsClose _
    | devfs => exact rest.close _
  read tf buf size := by
    refine Keeps.bind (Vfs.keeps_fileAt _) fun f => ?_
    cases f.inode.fs with
    | blkfs n =>
      refine Keeps.bind (Keeps.gets _) fun d => Keeps.bind (keeps_lifted _ _) fun r => ?_
      refine Keeps.bind (Keeps.modify fun _ => rfl) fun _ => ?_
      exact Keeps.bind (cwd_setFile _ _) fun _ => Keeps.pure _
    | procfs => exact cwd_procfsRead _ _ _ _
    | devfs => exact rest.read _ _ _

theorem cwd_setStream (stream : Nat) (fs : Option Filestream) : Keeps cwdOf (setStream stream fs : SysM Unit) :=
  Keeps.modify fun _ => rfl

theorem cwd_alloc (size : Nat) : Keeps cwdOf (alloc size : SysM Nat) :=
  Keeps.bind (Keeps.gets _) fun _ => Keeps.bind (Keeps.modify fun _ => rfl) fun _ => Keeps.pure _

theorem cwd_setByte (a : Nat) (c : UInt8) : Keeps cwdOf (setByte a c : SysM Unit) := Keeps.modify fun _ => rfl

namespace LeavesShell

variable (leaves : LeavesShell ops)
include leaves

theorem fsOpen (path : CStr) (flags : AccessFlag) : Keeps cwdOf (fsOpen ops path flags) := by
  refine Keeps.bind (cwdOf_ofWorld.open leaves.lookup leaves.closeInode leaves.open _ _) fun fd => ?_
  refine Keeps.ite (Keeps.pure _) (Keeps.bind (cwd_alloc _) fun content => ?_)
  refine Keeps.bind (Keeps.bind (Keeps.gets _) fun _ => ?_) fun stream => Keeps.pure _
  exact Keeps.bind (Keeps.modify fun _ => rfl) fun _ => Keeps.pure _

theorem fsClose (fs : Option Nat) : Keeps cwdOf (fsClose ops fs) := by
  cases fs with
  | none => exact Keeps.pure _
  | some stream =>
    refine Keeps.bind (leaves.fsFlush _) fun _ => Keeps.bind (cwd_streamAt _) fun fs => ?_
    refine Keeps.bind (cwd_setStream _ _) fun _ => ?_
    exact Keeps.bind (cwdOf_ofWorld.close leaves.closeInode leaves.close _) fun _ => Keeps.pure _

theorem fsGetChar (stream : Nat) : Keeps cwdOf (fsGetChar ops stream) := by
  have refill (fs : Filestream) : Keeps cwdOf (refill ops stream fs) := by
    refine Keeps.bind (cwd_setStream _ _) fun _ => ?_
    refine Keeps.bind (cwdOf_ofWorld.onFile (fun _ => leaves.read _ _ _) _) fun res => ?_
    exact Keeps.bind (cwd_setStream _ _) fun _ => Keeps.pure _
  have more : Keeps cwdOf (continueRead ops stream) := by
    refine Keeps.bind (cwd_streamAt _) fun fs => Keeps.ite ?_ (Keeps.pure _)
    exact Keeps.bind (refill fs) fun _ => Keeps.pure _
  refine Keeps.bind more fun res => Keeps.ite (Keeps.pure _) ?_
  refine Keeps.bind (cwd_streamAt _) fun fs => Keeps.bind (Keeps.gets _) fun m => ?_
  exact Keeps.bind (cwd_setStream _ _) fun _ => Keeps.pure _

theorem fsGetLine (stream buf size : Nat) : Keeps cwdOf (fsGetLine ops stream buf size) := by
  have loop (n tbuf readed : Nat) : Keeps cwdOf (fsGetLineLoop ops stream n tbuf readed) := by
    induction n generalizing tbuf readed with
    | zero => exact Keeps.pure _
    | succ n ih =>
      refine Keeps.bind (leaves.fsGetChar _) fun nc => Keeps.ite (Keeps.pure _) (Keeps.ite (Keeps.pure _) ?_)
      exact Keeps.bind (cwd_setByte _ _) fun _ => ih _ _
  exact Keeps.bind (loop _ _ _) fun _ => Keeps.bind (cwd_setByte _ _) fun _ => Keeps.pure _

end LeavesShell

end Leave

theorem notMem_stringAt {a n : Nat} {s s' : Sys} {cs : CStr} (run : (stringAt a n : SysM CStr) s = .ok (cs, s')) : 0 ∉ cs := by
  cases run
  exact Blkfs.notMem_cstrAt _ _ _

theorem cwd_sprintfInto (size : Nat) (fmt : CStr) (args : List Arg) : Keeps cwdOf (sprintfInto size fmt args) :=
  Keeps.bind (keeps_lifted _ _) fun _ => Keeps.pure _

theorem notMem_sprintfInto {size : Nat} {fmt buf : CStr} {args : List Arg} {s s' : Sys}
    (run : sprintfInto size fmt args s = .ok (buf, s')) : 0 ∉ buf := by
  obtain ⟨printed, s₁, -, last⟩ := bind_run_eq_ok.1 run
  cases last
  exact notMem_stringOf _

/-! ## The commands -/

section Commands

variable {sys : System} (leaves : LeavesShell sys.ops) (sh : ShellData) (cmd : Opened)
include leaves

/-- A wrong number of arguments. -/
theorem cwd_refused (stream : Nat) (msg : CStr) :
    Keeps cwdOf (fsPutLine sys.ops stream msg >>= fun _ => pure (-1) : SysM Int) :=
  Keeps.bind (leaves.fsPutLine _ _) fun _ => Keeps.pure _

theorem cwd_hello : Keeps cwdOf (cmdHello sys sh cmd) := Keeps.bind (leaves.fsPutLine _ _) fun _ => Keeps.pure _

theorem cwd_pwd : Keeps cwdOf (cmdPwd sys sh cmd) :=
  Keeps.bind (Keeps.gets _) fun _ => Keeps.bind (leaves.fsPutLine _ _) fun _ => Keeps.pure _

theorem cwd_listItems (stdout : Nat) (fl : List Item) (cnt : Nat) : Keeps cwdOf (listItems sys stdout fl cnt) := by
  induction fl generalizing cnt with
  | nil => exact Keeps.ite (leaves.fsPutChar _ _) (Keeps.pure _)
  | cons item fl ih =>
    refine Keeps.bind (leaves.fsPrintf _ _ _) fun _ => Keeps.bind (leaves.putChars _ _) fun _ => ?_
    exact Keeps.ite (Keeps.bind (leaves.fsPutChar _ _) fun _ => ih _) (ih _)

theorem cwd_listDirectory (filepath : CStr) : Keeps cwdOf (listDirectory sys cmd filepath) := by
  refine Keeps.bind (leaves.vfsAccess _ _) fun res => Keeps.ite ?_ ?_
  · refine Keeps.bind (cwdOf_ofWorld.readdir leaves.readdir _) fun fl => ?_
    exact Keeps.bind (cwd_listItems leaves _ _ _) fun _ => Keeps.pure _
  · exact Keeps.bind ((leaves.fsPrintf _ _ _).map _) fun _ => Keeps.pure _

theorem cwd_ls : Keeps cwdOf (cmdLs sys sh cmd) := by
  refine Keeps.bind (Keeps.gets _) fun cwd => ?_
  split
  · exact cwd_listDirectory leaves cmd _
  · exact cwd_listDirectory leaves cmd _
  · exact cwd_refused leaves _ _

theorem cwd_cat (fuel : Nat) : Keeps cwdOf (cmdCat sys fuel sh cmd) := by
  have loop (fs stdout : Nat) (endchar : Int) (fuel : Nat) (ch : Int) : Keeps cwdOf (catLoop sys fs stdout endchar fuel ch) := by
    induction fuel generalizing ch with
    | zero => exact Keeps.throw _
    | succ fuel ih =>
      refine Keeps.ite (Keeps.pure _) (Keeps.bind (leaves.fsPutChar _ _) fun _ => ?_)
      exact Keeps.bind (leaves.fsGetChar _) fun ch => ih ch
  unfold cmdCat
  split
  · refine Keeps.bind (leaves.fsGetChar _) fun ch => Keeps.bind (loop _ _ _ _ _) fun _ => ?_
    have last : Keeps cwdOf (fsFlush sys.ops cmd.stdout >>= fun _ => pure 0 : SysM Int) :=
      Keeps.bind (leaves.fsFlush _) fun _ => Keeps.pure _
    exact Keeps.ite (Keeps.bind ((leaves.fsGetChar _).map _) fun _ => last) last
  · exact cwd_refused leaves _ _

theorem cwd_echo : Keeps cwdOf (cmdEcho sys sh cmd) := by
  unfold cmdEcho
  split
  · exact Keeps.bind (leaves.fsPutLine _ _) fun _ => Keeps.pure _
  · exact cwd_refused leaves _ _

theorem cwd_onPath (name : CStr) {act : CStr → SysM Int} (acts : ∀ path, Keeps cwdOf (act path)) :
    Keeps cwdOf (onPath sys name act cmd) := by
  unfold onPath
  split
  · refine Keeps.bind (Keeps.gets _) fun cwd => Keeps.bind (acts _) fun res => ?_
    exact Keeps.ite (Keeps.bind ((leaves.fsPrintf _ _ _).map _) fun _ => Keeps.pure _) (Keeps.pure _)
  · exact cwd_refused leaves _ _

theorem cwd_ln : Keeps cwdOf (cmdLn sys sh cmd) := by
  unfold cmdLn
  split
  · refine Keeps.bind (Keeps.gets _) fun cwd => Keeps.bind (cwdOf_ofWorld.link leaves.link _ _) fun res => ?_
    exact Keeps.ite (Keeps.bind ((leaves.fsPrintf _ _ _).map _) fun _ => Keeps.pure _) (Keeps.pure _)
  · exact cwd_refused leaves _ _

/-- `cmd_cd` of a word changes the working directory, or leaves it alone. -/
theorem moves_cd (words : ∀ arg ∈ cmd.args, Word arg) : Moves cwdOf (Change sys) (cmdCd sys sh cmd) := by
  intro s res s' run
  have cases := @cmdCd_cases sys ⟨sh, cmd⟩ s s' res leaves.toLeavesCwd run
  obtain ⟨arg, s₁, -, one, moved, inside, found⟩ | ⟨-, same⟩ := cases
  · have word : Word arg := words arg (by rw [one]; exact List.mem_singleton_self arg)
    exact .single ⟨arg, s, s₁, word, rfl, moved, inside, moved ▸ found⟩
  · rw [same]

/-! ## The commands that run lines -/

section Lines

variable {parseExecute : ShellData → CStr → SysM Int}
  (parse : ∀ sh buf, 0 ∉ buf → Moves cwdOf (Change sys) (parseExecute sh buf))
include parse

omit leaves in
/-- A line that a command makes of its arguments. -/
theorem moves_line (fmt : CStr) (args : List Arg) :
    Moves cwdOf (Change sys) (sprintfInto 128 fmt args >>= fun buf => parseExecute sh buf) :=
  Moves.bind_of (cwd_sprintfInto _ _ _).moves (fun _ _ _ => notMem_sprintfInto) fun buf plain => parse sh buf plain

theorem moves_cp : Moves cwdOf (Change sys) (cmdCp sys parseExecute sh cmd) := by
  unfold cmdCp
  split
  · exact moves_line sh parse _ _
  · exact (cwd_refused leaves _ _).moves

theorem moves_mv : Moves cwdOf (Change sys) (cmdMv sys parseExecute sh cmd) := by
  unfold cmdMv
  split
  · refine Moves.bind_of (cwd_sprintfInto _ _ _).moves (fun _ _ _ => notMem_sprintfInto) fun buf plain => ?_
    refine Moves.bind (parse sh buf plain) fun res => Moves.ite ?_ (Keeps.pure _).moves
    exact moves_line sh parse _ _
  · exact (cwd_refused leaves _ _).moves

theorem moves_alias : Moves cwdOf (Change sys) (cmdAlias sys parseExecute sh cmd) := by
  unfold cmdAlias
  split
  · exact moves_line sh parse _ _
  · exact (cwd_refused leaves _ _).moves

theorem moves_unalias : Moves cwdOf (Change sys) (cmdUnalias sys parseExecute sh cmd) := by
  unfold cmdUnalias
  split
  · exact moves_line sh parse _ _
  · exact (cwd_refused leaves _ _).moves

theorem moves_sh (fuel : Nat) : Moves cwdOf (Change sys) (cmdSh sys parseExecute fuel sh cmd) := by
  have loop (buf fuel : Nat) : Moves cwdOf (Change sys) (shLoop sys parseExecute sh cmd buf fuel) := by
    induction fuel with
    | zero => exact (Keeps.throw _).moves
    | succ fuel ih =>
      refine Moves.bind (leaves.fsGetLine _ _ _).moves fun line => ?_
      cases line with
      | none => exact (Keeps.pure _).moves
      | some _ =>
        refine Moves.bind_of (Keeps.gets _).moves (fun _ _ _ => notMem_stringAt) fun line plain => ?_
        refine Moves.bind (parse sh line plain) fun tres => Moves.ite ?_ ih
        exact (Keeps.bind (leaves.fsPrintf _ _ _) fun _ => Keeps.pure _).moves
  unfold cmdSh
  split
  · exact Moves.bind (cwd_alloc _).moves fun buf => loop _ _
  · exact (cwd_refused leaves _ _).moves

/-- Of the handlers only `cmd_cd` changes the working directory itself. -/
theorem moves_handler (fuel : Nat) (handler : Handler) (words : ∀ arg ∈ cmd.args, Word arg) :
    Moves cwdOf (Change sys) (runHandler sys parseExecute fuel handler sh cmd) := by
  match handler with
  | .hello => exact (cwd_hello leaves sh cmd).moves
  | .pwd => exact (cwd_pwd leaves sh cmd).moves
  | .cd => exact moves_cd leaves sh cmd words
  | .ls => exact (cwd_ls leaves sh cmd).moves
  | .cat => exact (cwd_cat leaves sh cmd fuel).moves
  | .echo => exact (cwd_echo leaves sh cmd).moves
  | .mkdir => exact (cwd_onPath leaves cmd _ fun path => cwdOf_ofWorld.onMount leaves.mkdir _).moves
  | .rm => exact (cwd_onPath leaves cmd _ fun path => cwdOf_ofWorld.onMount leaves.rm _).moves
  | .ln => exact (cwd_ln leaves sh cmd).moves
  | .cp => exact moves_cp leaves sh cmd parse
  | .mv => exact moves_mv leaves sh cmd parse
  | .alias => exact moves_alias leaves sh cmd parse
  | .unalias => exact moves_unalias leaves sh cmd parse
  | .sh => exact moves_sh leaves sh cmd parse fuel

end Lines

/-! ## Running a line -/

theorem cwd_openStream (path : Option CStr) (shell : Nat) (flags : AccessFlag) :
    Keeps cwdOf (openStream sys sh path shell flags) := by
  cases path with
  | none => exact Keeps.pure _
  | some path =>
    refine Keeps.bind (leaves.fsOpen _ _) fun fs => ?_
    cases fs with
    | none => exact Keeps.bind (leaves.fsPrintf _ _ _) fun _ => Keeps.pure _
    | some fs => exact Keeps.pure _

theorem cwd_openfs (command : Command) : Keeps cwdOf (commandOpenfs sys sh command) := by
  refine Keeps.bind (cwd_openStream leaves sh _ _ _) fun stdin => ?_
  cases stdin with
  | none => exact Keeps.pure _
  | some stdin =>
    refine Keeps.bind (cwd_openStream leaves sh _ _ _) fun stdout => ?_
    cases stdout with
    | none => exact Keeps.pure _
    | some stdout => exact Keeps.bind (cwd_openStream leaves sh _ _ _) fun stderr => Keeps.pure _

theorem cwd_free (command : Command) (streams : Streams) : Keeps cwdOf (commandFree sys command streams) := by
  have close (path : Option CStr) (fs : Option Nat) : Keeps cwdOf (closeStream sys path fs) := by
    cases path with
    | none => exact Keeps.pure _
    | some path => exact leaves.fsClose _
  exact Keeps.bind (close _ _) fun _ => Keeps.bind (close _ _) fun _ => close _ _

theorem cwd_findHandler (head : CStr) : Keeps cwdOf (findHandler sys sh head) := by
  have find : Keeps cwdOf (commandPath sys head) := by
    refine Keeps.bind (leaves.vfsAccess _ _) fun res => Keeps.ite ?_ (Keeps.pure _)
    exact Keeps.bind (leaves.vfsAccess _ _) fun res => Keeps.pure _
  refine Keeps.bind find fun path => ?_
  cases path with
  | none => exact Keeps.pure _
  | some filepath =>
    refine Keeps.bind (leaves.fsOpen _ _) fun fs => Keeps.bind (cwd_alloc _) fun buf => ?_
    cases fs with
    | none => exact Keeps.throw _
    | some stream =>
      refine Keeps.bind (leaves.fsGetLine _ _ _) fun line => Keeps.bind (Vfs.keeps_assert _ _) fun _ => ?_
      refine Keeps.bind (leaves.fsClose _) fun _ => Keeps.bind (Keeps.gets _) fun s => ?_
      refine Keeps.bind (keeps_lifted _ _) fun hptr => ?_
      cases hptr with
      | none => exact Keeps.bind (leaves.fsPrintf _ _ _) fun _ => Keeps.pure _
      | some hptr => exact Keeps.pure _

theorem moves_execute {run : Handler → ShellData → Opened → SysM Int} {command : Command}
    (handlers : ∀ handler opened, opened.args = command.args → Moves cwdOf (Change sys) (run handler sh opened)) (head : CStr) :
    Moves cwdOf (Change sys) (executeCommand sys run sh command head) := by
  refine Moves.bind (cwd_findHandler leaves sh head).moves fun hptr => Moves.ite ?_ ?_
  · exact (Keeps.bind (leaves.fsPrintf _ _ _) fun _ => Keeps.pure _).moves
  · refine Moves.bind (cwd_openfs leaves sh command).moves fun streams => ?_
    split
    · split
      · exact (Keeps.throw _).moves
      · exact Moves.bind (handlers _ _ rfl) fun exitCode => (Keeps.pure _).moves
    · exact (Keeps.bind (leaves.fsPutLine _ _) fun _ => Keeps.pure _).moves

/-- A line changes the working directory by the `cmd_cd` in it and in the lines its commands run, which are nested as deep as
there is fuel. -/
theorem moves_parseExecute (fuel : Nat) (sh : ShellData) {buf : CStr} (plain : 0 ∉ buf) :
    Moves cwdOf (Change sys) (parseExecute sys fuel sh buf) := by
  induction fuel generalizing sh buf with
  | zero => exact (Keeps.throw _).moves
  | succ fuel ih =>
    refine Moves.bind (Keeps.gets _).moves fun cwd => ?_
    refine Moves.bind_of (keeps_lifted _ _).moves (fun _ _ _ parsed => commandParse_words (lifted_inv parsed).1 plain)
      fun command words => ?_
    cases command.head with
    | none => exact (Keeps.pure _).moves
    | some head =>
      refine Moves.bind (moves_execute leaves sh (fun handler opened same => ?_) head) fun res => ?_
      · exact moves_handler leaves sh opened (fun sh buf plain => ih sh plain) fuel handler (same ▸ words)
      · refine Moves.bind (cwd_free leaves _ _).moves fun _ => ?_
        exact (Keeps.bind (leaves.fsFlush _) fun _ => Keeps.pure _).moves

theorem moves_shellLoop (fuel : Nat) (name : CStr) (sh : ShellData) (buf rounds : Nat) :
    Moves cwdOf (Change sys) (shellLoop sys fuel name sh buf rounds) := by
  induction rounds with
  | zero => exact (Keeps.pure _).moves
  | succ rounds ih =>
    refine Moves.bind (Keeps.gets _).moves fun cwd => Moves.bind (leaves.fsPrintf _ _ _).moves fun _ => ?_
    refine Moves.bind (leaves.fsFlush _).moves fun _ => Moves.bind (leaves.fsGetLine _ _ _).moves fun line => ?_
    refine Moves.bind (Vfs.keeps_assert _ _).moves fun _ => ?_
    refine Moves.bind_of (Keeps.gets _).moves (fun _ _ _ => notMem_stringAt) fun line plain => ?_
    exact Moves.bind (moves_parseExecute leaves fuel sh plain) fun _ => ih

end Commands

/-- A devfs with every directory, and with every file: on a terminal `cd a` is typed again and again, the others have the
number 1. -/
def typing : Vfs.Ops Filesystem Node World where
  fs := Node.fs
  before _ := 0
  lookup _ path _ := pure (some ⟨.devfs, path, none, none⟩)
  closeInode _ _ := pure 0
  mkdir _ _ := pure (-1)
  rm _ _ := pure (-1)
  link _ _ _ := pure (-1)
  readdir _ _ := pure []
  access _ _ := pure 0
  «open» _ _ := pure 0
  close _ := pure 0
  read tf buf _ := do
    let f ← fileAt tf
    let line := if f.inode.path = text "/dev/tty1" then text "cd a\n" else text "1\n"
    modify fun s => { s with world := { s.world with
      mem := Memory.store s.world.mem buf line.length fun i => line.getD i 0 } }
    pure line.length
  write _ _ n := pure n
  lseek _ _ _ := pure 0

theorem typing_leavesShell : LeavesShell typing where
  lookup _ _ _ := Keeps.pure _
  closeInode _ _ := Keeps.pure _
  access _ _ := Keeps.pure _
  write _ _ _ := Keeps.pure _
  mkdir _ _ := Keeps.pure _
  rm _ _ := Keeps.pure _
  link _ _ _ := Keeps.pure _
  readdir _ _ := Keeps.pure _
  «open» _ _ := Keeps.pure _
  close _ := Keeps.pure _
  read _ _ _ := Keeps.bind (Vfs.keeps_fileAt _) fun _ => Keeps.bind (Keeps.modify fun _ => rfl) fun _ => Keeps.pure _

/-- The number of `cmd_cd` is 1. -/
def typingSystem : System :=
  { procMachine with
    rest := typing
    address := fun handler => if handler = .cd then 1 else 0 }

/-- The devfs at `/`. -/
def typingStart : Sys := { procStart with mounts := [⟨[slash], .devfs⟩] }

end OsLab.Kernel.Shell
