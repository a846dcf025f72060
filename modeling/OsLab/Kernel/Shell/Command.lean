import OsLab.Kernel.Path

/-!
# Command lines (`shell.c`)

How a line is split into a command, its arguments and the paths of its streams. The buffers of the
words have 32 bytes; `alloc` clears them, so that a word copied without its end is terminated if it
is shorter.
-/

namespace OsLab.Kernel.Shell

open OsLab.Klib

/-- `' '` -/
def space : UInt8 := 32

/-- `path_expand` -/
def pathExpand (cwd path : CStr) : CStr :=
  if streq path (text ".") then cwd
  else if streq path (text "..") then pathGetDirectory cwd
  else if strneq path (text "/") 1 then path
  else pathJoin cwd path

/-- `redirectio_type` -/
inductive RedirectType where
  | none
  | stdin
  | stdout
  | stderr
  deriving DecidableEq

/-- `command`; `argc` is the length of `args`, a path that is missing is `NULL`. -/
structure Command where
  head : Option CStr
  args : List CStr
  stdinPath : Option CStr
  stderrPath : Option CStr
  stdoutPath : Option CStr
  deriving DecidableEq

/-- `N_ARGS` -/
def nArgs : Nat := 16

/-- The operator a word is, `none` for others. -/
def redirectOf (item : CStr) : RedirectType :=
  if streq item (text "<") then .stdin
  else if streq item (text ">") || streq item (text "1>") then .stdout
  else if streq item (text "2>") then .stderr
  else .none

/-- The path of a stream. -/
def setPath (cmd : Command) (path : CStr) : RedirectType → Command
  | .none => cmd
  | .stdin => { cmd with stdinPath := some path }
  | .stdout => { cmd with stdoutPath := some path }
  | .stderr => { cmd with stderrPath := some path }

/-- What `command_parse` does with a word, and `lastRedirect` after it. -/
def parseItem (cwd : CStr) (cmd : Command) (lastRedirect : RedirectType) (item : CStr) :
    Except Halt (Command × RedirectType) :=
  if strlen item = 0 then .ok (cmd, lastRedirect)
  else if redirectOf item ≠ .none then
    -- a second operator in a row is ignored with a warning
    .ok (cmd, if lastRedirect ≠ .none then lastRedirect else redirectOf item)
  else if lastRedirect ≠ .none then
    .ok (setPath cmd (pathExpand cwd item) lastRedirect, .none)
  else
    match cmd.head with
    | none => .ok ({ cmd with head := some item }, .none)
    | some _ => do
      kassert (cmd.args.length < nArgs) "too many args %d"
      .ok ({ cmd with args := cmd.args ++ [item] }, .none)

/-- The loop of `command_parse`. The words get shorter, so that the length of the line bounds it. -/
def commandParseLoop (cwd : CStr) :
    Nat → Command → RedirectType → CStr → Except Halt Command
  | 0, _, _, _ => .error .diverge
  | fuel + 1, cmd, lastRedirect, t =>
    match strchr t space with
    | none =>
      if 32 ≤ strlen t then .error .outside
      else do
        let (cmd, _) ← parseItem cwd cmd lastRedirect t
        .ok cmd
    | some tlen =>
      if 32 ≤ tlen then .error .outside
      else do
        let (cmd, lastRedirect) ← parseItem cwd cmd lastRedirect (t.take tlen)
        commandParseLoop cwd fuel cmd lastRedirect (t.drop (tlen + 1))

/-- `command_parse`; the last element of `args` has to be left for the `NULL` behind them. -/
def commandParse (cwd s : CStr) : Except Halt Command := do
  let cmd ← commandParseLoop cwd (s.length + 1) ⟨none, [], none, none, none⟩ .none s
  if cmd.args.length < nArgs then .ok cmd else .error .outside

/-- The loop of `atoi`: the number and its sign, `none` for -1. -/
def atoiLoop : CStr → Int → Int → Except Halt (Option (Int × Int))
  | [], res, f => .ok (some (res, f))
  | c :: s, res, f =>
    if c = 45 then atoiLoop s res (-1)
    else if 48 ≤ c ∧ c ≤ 57 then
      if res * 10 + c.toNat < 2 ^ 63 then atoiLoop s (res * 10 + c.toNat - 48) f
      else .error .overflow
    else .ok none

/-- `atoi`: `none` for -1. -/
def atoi (s : CStr) : Except Halt (Option Int) := do
  match ← atoiLoop s 0 1 with
  | none => .ok none
  | some (res, f) => .ok (some (res * f))

end OsLab.Kernel.Shell
