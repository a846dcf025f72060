import OsLab.Kernel.Io.Filesystems
import OsLab.Kernel.Shell.Command
import OsLab.Lib.Decimal

/-!
# The shell (`shell.c`)

A command is a file in which the kernel has written the address of its handler as a decimal number.
`parse_execute` finds and reads the file, opens the streams the line redirects, calls the handler
and closes the streams again; some handlers run lines of their own. `fuel` bounds how deep this goes
and how many characters or lines a handler reads.
-/

namespace OsLab.Kernel.Shell

open OsLab.Klib OsLab.Memory OsLab.Triples OsLab.Kernel.Io
open OsLab.Decimal (decimal)
open OsLab.Kernel.Blkfs (AccessFlag Item)

/-- `shell_data` but for its working directory, which is in the `World`. -/
structure ShellData where
  stdin : Nat
  stdout : Nat

/-- The streams of a `command`. -/
structure Streams where
  stdin : Option Nat
  stdout : Option Nat
  stderr : Option Nat

/-- A `command` as its handler gets it, with its streams open. -/
structure Opened where
  args : List CStr
  stdin : Nat
  stdout : Nat
  stderr : Nat

/-- The functions of `command_handlers`. -/
inductive Handler where
  | hello | pwd | cd | ls | cat | echo | mkdir | rm | ln | cp | mv | alias | unalias | sh
  deriving DecidableEq

/-- `command_handlers` -/
def commandHandlers : List Handler :=
  [.hello, .pwd, .cd, .ls, .cat, .echo, .mkdir, .rm, .ln, .cp, .mv, .alias, .unalias, .sh]

/-- The kernel with the addresses of its functions. -/
structure System extends Machine where
  address : Handler → UInt32

/-- `tty_char_ctrlD` -/
def ttyCharCtrlD : UInt8 := 3

/-- The text that `sprintf` puts into a cleared buffer. -/
def sprintfInto (size : Nat) (fmt : CStr) (args : List Arg) : SysM CStr := do
  let (_, buf, _) ← lifted (sprintf (fun _ => 0) (List.replicate bufferSize 0) (List.replicate size 0) fmt args)
  pure (stringOf buf)

/-- `strcpy` into `sh->cwd->content`, which has 128 bytes. -/
def setCwd (path : CStr) : SysM Unit :=
  if 128 ≤ strlen path then throw .outside
  else modify fun s => { s with world := { s.world with cwd := path } }

/-- `(char)ch` -/
def charOf (ch : Int) : UInt8 := UInt8.ofNat (ch % 256).toNat

section Commands

variable (sys : System)

/-! ## The commands -/

/-- `cmd_hello` -/
def cmdHello (_ : ShellData) (cmd : Opened) : SysM Int := do
  fsPutLine sys.ops cmd.stdout (text "Hello world from StardustDL's shell!")
  pure 0

/-- `cmd_pwd` -/
def cmdPwd (_ : ShellData) (cmd : Opened) : SysM Int := do
  let cwd ← gets fun s => s.world.cwd
  fsPutLine sys.ops cmd.stdout cwd
  pure 0

/-- `cmd_cd` -/
def cmdCd (sh : ShellData) (cmd : Opened) : SysM Int := do
  match cmd.args with
  | [arg] =>
    let cwd ← gets fun s => s.world.cwd
    let targetDir := pathExpand cwd arg
    let res ← Vfs.access sys.ops (some targetDir) .dirExist
    if res = 0 then
      setCwd targetDir
      pure 0
    else
      let _ ← fsPrintf sys.ops sh.stdout (text "Can't access the directory %s\n") [.str targetDir]
      pure (-1)
  | _ =>
    fsPutLine sys.ops cmd.stderr (text "cd needs 1 argument.")
    pure (-1)

/-- How `cmd_ls` prints an item. -/
def itemFormat : Blkfs.ItemType → CStr
  | .dir => text "D  %s"
  | .file => text "F  %s"
  | .link => text "L  %s"

/-- The loop of `cmd_ls`. -/
def listItems (stdout : Nat) : List Item → Nat → SysM Unit
  | [], cnt => if cnt % 2 = 1 then fsPutChar sys.ops stdout newline else pure ()
  | item :: fl, cnt => do
    let _ ← fsPrintf sys.ops stdout (itemFormat item.type) [.str item.name]
    putChars sys.ops stdout (List.replicate (20 - strlen item.name) space)
    if (cnt + 1) % 2 = 0 then fsPutChar sys.ops stdout newline else pure ()
    listItems stdout fl (cnt + 1)

/-- `cmd_ls` once it has its directory. -/
def listDirectory (cmd : Opened) (filepath : CStr) : SysM Int := do
  let res ← Vfs.access sys.ops (some filepath) .dirExist
  if res = 0 then
    let fl ← Vfs.readdir sys.ops (some filepath)
    listItems sys cmd.stdout fl 0
  else
    discard (fsPrintf sys.ops cmd.stderr (text "Can't access the directory %s\n") [.str filepath])
  pure res

/-- `cmd_ls` -/
def cmdLs (_ : ShellData) (cmd : Opened) : SysM Int := do
  let cwd ← gets fun s => s.world.cwd
  match cmd.args with
  | [] => listDirectory sys cmd cwd
  | [arg] => listDirectory sys cmd (pathExpand cwd arg)
  | _ =>
    fsPutLine sys.ops cmd.stderr (text "ls needs 0 or 1 argument.")
    pure (-1)

/-- The loop of `cmd_cat`. -/
def catLoop (fs stdout : Nat) (endchar : Int) : Nat → Int → SysM Unit
  | 0, _ => throw .diverge
  | fuel + 1, ch =>
    if ch = endchar then pure ()
    else do
      fsPutChar sys.ops stdout (charOf ch)
      let ch ← fsGetChar sys.ops fs
      catLoop fs stdout endchar fuel ch

/-- `cmd_cat` -/
def cmdCat (fuel : Nat) (sh : ShellData) (cmd : Opened) : SysM Int := do
  match cmd.args with
  | [] =>
    let ch ← fsGetChar sys.ops cmd.stdin
    let endchar : Int := if sh.stdin = cmd.stdin then charVal ttyCharCtrlD else -1
    catLoop sys cmd.stdin cmd.stdout endchar fuel ch
    -- the end of the line behind the end character
    if sh.stdin = cmd.stdin then discard (fsGetChar sys.ops cmd.stdin) else pure ()
    fsFlush sys.ops cmd.stdout
    pure 0
  | _ =>
    fsPutLine sys.ops cmd.stderr (text "cat needs 0 argument.")
    pure (-1)

/-- `cmd_echo` -/
def cmdEcho (_ : ShellData) (cmd : Opened) : SysM Int := do
  match cmd.args with
  | [arg] =>
    fsPutLine sys.ops cmd.stdout arg
    pure 0
  | _ =>
    fsPutLine sys.ops cmd.stderr (text "echo needs 1 argument.")
    pure (-1)

/-- What `cmd_mkdir` and `cmd_rm` share; `name` is that of the command. -/
def onPath (name : CStr) (act : CStr → SysM Int) (cmd : Opened) : SysM Int := do
  match cmd.args with
  | [arg] =>
    let cwd ← gets fun s => s.world.cwd
    let filepath := pathJoin cwd arg
    let res ← act filepath
    if res ≠ 0 then
      discard (fsPrintf sys.ops cmd.stderr (name ++ text " %s failed.\n") [.str filepath])
    else pure ()
    pure res
  | _ =>
    fsPutLine sys.ops cmd.stderr (name ++ text " needs 1 argument.")
    pure (-1)

/-- `cmd_mkdir` -/
def cmdMkdir (_ : ShellData) (cmd : Opened) : SysM Int :=
  onPath sys (text "mkdir") (fun filepath => Vfs.mkdir sys.ops (some filepath)) cmd

/-- `cmd_rm` -/
def cmdRm (_ : ShellData) (cmd : Opened) : SysM Int :=
  onPath sys (text "rm") (fun filepath => Vfs.rm sys.ops (some filepath)) cmd

/-- `cmd_ln` -/
def cmdLn (_ : ShellData) (cmd : Opened) : SysM Int := do
  match cmd.args with
  | [old, new] =>
    let cwd ← gets fun s => s.world.cwd
    let old := pathExpand cwd old
    let new := pathExpand cwd new
    let res ← Vfs.link sys.ops (some old) (some new)
    if res ≠ 0 then
      discard (fsPrintf sys.ops cmd.stderr (text "ln %s %s failed.\n") [.str old, .str new])
    else pure ()
    pure res
  | _ =>
    fsPutLine sys.ops cmd.stderr (text "ln needs 2 argument.")
    pure (-1)

/-! ## Commands that run lines -/

section Lines

variable (parseExecute : ShellData → CStr → SysM Int)

/-- `cmd_cp` -/
def cmdCp (sh : ShellData) (cmd : Opened) : SysM Int := do
  match cmd.args with
  | [a, b] =>
    let buf ← sprintfInto 128 (text "cat < %s > %s") [.str a, .str b]
    parseExecute sh buf
  | _ =>
    fsPutLine sys.ops cmd.stderr (text "cp needs 2 argument.")
    pure (-1)

/-- `cmd_mv` -/
def cmdMv (sh : ShellData) (cmd : Opened) : SysM Int := do
  match cmd.args with
  | [a, b] =>
    let buf ← sprintfInto 128 (text "ln %s %s") [.str a, .str b]
    let res ← parseExecute sh buf
    if res = 0 then
      let buf ← sprintfInto 128 (text "rm %s") [.str a]
      parseExecute sh buf
    else pure res
  | _ =>
    fsPutLine sys.ops cmd.stderr (text "mv needs 2 argument.")
    pure (-1)

/-- `cmd_alias` -/
def cmdAlias (sh : ShellData) (cmd : Opened) : SysM Int := do
  match cmd.args with
  | [a, b] =>
    let buf ← sprintfInto 128 (text "ln /bin/%s /bin/%s") [.str a, .str b]
    parseExecute sh buf
  | _ =>
    fsPutLine sys.ops cmd.stderr (text "alias needs 2 argument.")
    pure (-1)

/-- `cmd_unalias` -/
def cmdUnalias (sh : ShellData) (cmd : Opened) : SysM Int := do
  match cmd.args with
  | [a] =>
    let buf ← sprintfInto 128 (text "rm /bin/%s") [.str a]
    parseExecute sh buf
  | _ =>
    fsPutLine sys.ops cmd.stderr (text "unalias needs 1 argument.")
    pure (-1)

/-- The loop of `cmd_sh`. -/
def shLoop (sh : ShellData) (cmd : Opened) (buf : Nat) : Nat → SysM Int
  | 0 => throw .diverge
  | fuel + 1 => do
    match ← fsGetLine sys.ops cmd.stdin buf 128 with
    | none => pure 0
    | some _ =>
      let line ← stringAt buf 129
      let tres ← parseExecute sh line
      if tres ≠ 0 then
        let _ ← fsPrintf sys.ops cmd.stderr (text "sh: %s failed.") [.str line]
        pure (-1)
      else shLoop sh cmd buf fuel

/-- `cmd_sh` -/
def cmdSh (fuel : Nat) (sh : ShellData) (cmd : Opened) : SysM Int := do
  match cmd.args with
  | [] =>
    let buf ← alloc 128
    shLoop sys parseExecute sh cmd buf fuel
  | _ =>
    fsPutLine sys.ops cmd.stderr (text "sh needs 0 argument.")
    pure (-1)

/-- Call a handler. -/
def runHandler (fuel : Nat) : Handler → ShellData → Opened → SysM Int
  | .hello => cmdHello sys
  | .pwd => cmdPwd sys
  | .cd => cmdCd sys
  | .ls => cmdLs sys
  | .cat => cmdCat sys fuel
  | .echo => cmdEcho sys
  | .mkdir => cmdMkdir sys
  | .rm => cmdRm sys
  | .ln => cmdLn sys
  | .cp => cmdCp sys parseExecute
  | .mv => cmdMv sys parseExecute
  | .alias => cmdAlias sys parseExecute
  | .unalias => cmdUnalias sys parseExecute
  | .sh => cmdSh sys parseExecute fuel

end Lines

/-! ## Running a line -/

/-- The stream of a redirection, or the one of the shell. -/
def openStream (sh : ShellData) (path : Option CStr) (shell : Nat) (flags : AccessFlag) :
    SysM (Option Nat) := do
  match path with
  | none => pure (some shell)
  | some path =>
    match ← fsOpen sys.ops path flags with
    | none =>
      let _ ← fsPrintf sys.ops sh.stdout (text "Can't open the file %s\n") [.str path]
      pure none
    | some fs => pure (some fs)

/-- `command_openfs`: the streams that were opened before one failed. -/
def commandOpenfs (sh : ShellData) (cmd : Command) : SysM Streams := do
  match ← openStream sys sh cmd.stdinPath sh.stdin .fileRead with
  | none => pure ⟨none, none, none⟩
  | some stdin =>
    match ← openStream sys sh cmd.stdoutPath sh.stdout .fileWrite with
    | none => pure ⟨some stdin, none, none⟩
    | some stdout =>
      let stderr ← openStream sys sh cmd.stderrPath sh.stdout .fileWrite
      pure ⟨some stdin, some stdout, stderr⟩

/-- Close a stream that was redirected. -/
def closeStream (path : Option CStr) (fs : Option Nat) : SysM Unit :=
  match path with
  | none => pure ()
  | some _ => fsClose sys.ops fs

/-- `command_free` -/
def commandFree (cmd : Command) (streams : Streams) : SysM Unit := do
  closeStream sys cmd.stderrPath streams.stderr
  closeStream sys cmd.stdoutPath streams.stdout
  closeStream sys cmd.stdinPath streams.stdin

/-- The file of a command: itself, or the one of `/bin`. -/
def commandPath (head : CStr) : SysM (Option CStr) := do
  let res ← Vfs.access sys.ops (some head) .fileExist
  if res = -1 then
    let filepath := pathJoin (text "/bin") head
    let res ← Vfs.access sys.ops (some filepath) .fileExist
    pure (if res = -1 then none else some filepath)
  else pure (some head)

/-- The address in the file of a command, `NULL` if there is none. -/
def readHandler (sh : ShellData) (filepath : CStr) : SysM Nat := do
  let fs ← fsOpen sys.ops filepath .fileRead
  let buf ← alloc 128
  match fs with
  | none => throw (.assert "filestream is NULL")
  | some stream =>
    let line ← fsGetLine sys.ops stream buf 128
    Vfs.assert (line ≠ none) "getline failed"
    fsClose sys.ops (some stream)
    let s ← stringAt buf 129
    match ← lifted (atoi s) with
    | some hptr => pure (ofInt32 hptr)
    | none =>
      let _ ← fsPrintf sys.ops sh.stdout (text "The file %s is not executable.") [.str filepath]
      pure 0

/-- The first part of `execute_command`: the handler of a command. -/
def findHandler (sh : ShellData) (head : CStr) : SysM Nat := do
  match ← commandPath sys head with
  | none => pure 0
  | some filepath => readHandler sys sh filepath

/-- The function at an address. -/
def handlerAt (hptr : Nat) : Option Handler :=
  commandHandlers.find? fun h => (sys.address h).toNat = hptr

/-- `execute_command`, and the streams it leaves open. -/
def executeCommand (run : Handler → ShellData → Opened → SysM Int) (sh : ShellData) (cmd : Command)
    (head : CStr) : SysM (Int × Streams) := do
  let hptr ← findHandler sys sh head
  if hptr = 0 then
    let _ ← fsPrintf sys.ops sh.stdout (text "Unrecognizable command: %s with %d args\n")
      [.str head, .word (UInt32.ofNat cmd.args.length)]
    pure (-1, ⟨none, none, none⟩)
  else
    let streams ← commandOpenfs sys sh cmd
    match streams.stdin, streams.stdout, streams.stderr with
    | some stdin, some stdout, some stderr =>
      match handlerAt sys hptr with
      | none => throw .outside
      | some handler =>
        let exitCode ← run handler sh ⟨cmd.args, stdin, stdout, stderr⟩
        pure (exitCode, streams)
    | _, _, _ =>
      fsPutLine sys.ops sh.stdout (text "Unable to redirect I/O")
      pure (-1, streams)

/-- `parse_execute` -/
def parseExecute : Nat → ShellData → CStr → SysM Int
  | 0, _, _ => throw .diverge
  | fuel + 1, sh, buf => do
    let cwd ← gets fun s => s.world.cwd
    let cmd ← lifted (commandParse cwd buf)
    match cmd.head with
    | none => pure 0
    | some head =>
      let (exitCode, streams) ←
        executeCommand sys (runHandler sys (parseExecute fuel) fuel) sh cmd head
      commandFree sys cmd streams
      fsFlush sys.ops sh.stdout
      pure exitCode

/-! ## The task of a shell -/

/-- The loop of `shell_task`, for so many rounds. -/
def shellLoop (fuel : Nat) (name : CStr) (sh : ShellData) (buf : Nat) : Nat → SysM Unit
  | 0 => pure ()
  | rounds + 1 => do
    let cwd ← gets fun s => s.world.cwd
    let _ ← fsPrintf sys.ops sh.stdout (text "(%s) %s $ ") [.str name, .str cwd]
    fsFlush sys.ops sh.stdout
    let line ← fsGetLine sys.ops sh.stdin buf 128
    Vfs.assert (line ≠ none) "getline failed"
    let line ← stringAt buf 129
    let _ ← parseExecute sys fuel sh line
    shellLoop fuel name sh buf rounds

/-- `shell_task` on a terminal. The `buf` on its stack is allocated like other buffers. -/
def shellTask (fuel rounds : Nat) (ttyId : UInt32) : SysM Unit := do
  let buf ← alloc 128
  setCwd (text "/")
  let name ← sprintfInto 16 (text "tty-%d") [.word ttyId]
  let path ← sprintfInto 128 (text "/dev/tty%d") [.word ttyId]
  let stdin ← fsOpen sys.ops path .fileRead
  let stdout ← fsOpen sys.ops path .fileWrite
  match stdin, stdout with
  | some stdin, some stdout => shellLoop sys fuel name ⟨stdin, stdout⟩ buf rounds
  -- the first prompt and the line behind it go through both
  | _, _ => throw .nullDeref

end Commands

end OsLab.Kernel.Shell
