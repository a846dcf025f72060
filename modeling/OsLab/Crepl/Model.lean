import OsLab.Lib.Lines
import OsLab.Lib.Trap
import Mathlib.Logic.Function.Basic

/-!
# The C read-eval-print loop (`crepl/crepl.c`)

Each line of the input is a definition, which begins with `int `, or an expression. Both are compiled behind the definitions
that were accepted before, which a linked list holds. `malloc` does not fail. The compiler, the loader and the call of what
was loaded are those of the `World`; a call returns.
-/

namespace OsLab.Crepl

open OsLab.Stdio OsLab.Decimal

/-- The characters of a text. -/
def ascii (s : String) : List UInt8 := s.toList.map fun c => UInt8.ofNat c.toNat

/-- The library and the compiler outside of the program. -/
structure World where
  /-- The last six characters of the name that `mkstemp` gives at its `k`-th call. -/
  mkstemp : Nat → Option (List UInt8)
  /-- Whether `gcc` compiles a source. -/
  gcc : List UInt8 → Bool
  /-- Whether `dlopen` loads what was compiled from a source. -/
  dlopen : List UInt8 → Bool
  /-- What `dlsym` finds in it under a name, by the value that a call of it returns. -/
  dlsym : List UInt8 → List UInt8 → Option Int

/-- `input` -/
structure Input where
  content : List UInt8
  len : Nat
  isfunc : Bool

/-- `cnode` -/
structure Cnode where
  content : List UInt8
  next : Option Nat

/-- The memory and the streams of the program. -/
structure State where
  /-- The nodes that were allocated, by their addresses. -/
  nodes : Nat → Option Cnode
  /-- The next address that `malloc` gives. -/
  fresh : Nat
  head : Option Nat
  tail : Option Nat
  I : Input
  stdin : Stream
  /-- How often `mkstemp` was called. -/
  temps : Nat
  stdout : List UInt8

def State.puts (s : State) (text : List UInt8) : State := { s with stdout := s.stdout ++ text }

/-- The state when `main` begins. -/
def start (stdin : List UInt8) : State where
  nodes := fun _ => none
  fresh := 0
  head := none
  tail := none
  I := ⟨List.replicate 1024 0, 0, false⟩
  stdin := ⟨stdin, false⟩
  temps := 0
  stdout := []

def appendContent (s : State) : Except Trap State := do
  let tmp := s.fresh
  let text ← Trap.readText s.I.content
  let content ← Trap.putText (List.replicate (s.I.len + 1) 0) text
  match s.head, s.tail with
  | none, _ =>
    .ok { s with
      nodes := Function.update s.nodes tmp (some ⟨content, none⟩), fresh := s.fresh + 1, head := some tmp, tail := some tmp }
  | some _, tail => do
    let last ← Trap.check tail
    let node ← Trap.check (s.nodes last)
    let nodes := Function.update s.nodes last (some { node with next := some tmp })
    .ok { s with nodes := Function.update nodes tmp (some ⟨content, none⟩), fresh := s.fresh + 1, tail := some tmp }

/-- The loop of `initTempFile`: what it writes, from the node `cur` on. -/
def writeContents (nodes : Nat → Option Cnode) : Nat → Option Nat → Except Trap (List UInt8)
  | _, none => .ok []
  | 0, some _ => .error .diverge
  | fuel + 1, some cur => do
    let node ← Trap.check (nodes cur)
    let text ← Trap.readText node.content
    let rest ← writeContents nodes fuel node.next
    .ok (text ++ newline :: rest)

/-- `initTempFile`: the name of the file and what is written to it. -/
def initTempFile (w : World) (s : State) : Except Trap (Option (List UInt8 × List UInt8) × State) :=
  match w.mkstemp s.temps with
  | none => .ok (none, { s with temps := s.temps + 1 })
  | some suffix => do
    let file ← writeContents s.nodes s.fresh s.head
    .ok (some (ascii "crepl_" ++ suffix, file), { s with temps := s.temps + 1 })

/-- `appendWrapFunc`: the name of the function and the file. -/
def appendWrapFunc (file expr name : List UInt8) : List UInt8 × List UInt8 :=
  let wrapName := ascii "__expr_wrap_" ++ name
  (wrapName, file ++ ascii "int " ++ wrapName ++ ascii "() \x7b\n" ++ ascii "  return (" ++ expr ++ ascii ");\n" ++ ascii "\x7d")

/-- The loop of `getInput` over the newlines at the end of the line. -/
def stripNewlines (content : List UInt8) : Nat → Except Trap Nat
  | 0 => .ok 0
  | len + 1 => do
    if (← Trap.load content len) = newline then stripNewlines content len else .ok (len + 1)

/-- `getInput`, with its result -/
def getInput (s : State) : Except Trap (Bool × State) :=
  match fgets 1024 s.stdin with
  | (none, stdin) => .ok (false, { s with stdin })
  | (some line, stdin) => do
    let content := line ++ 0 :: s.I.content.drop (line.length + 1)
    let text ← Trap.readText content
    let len ← stripNewlines content text.length
    let content ← Trap.put content len 0
    let isfunc := if len < 4 then false else content.take 4 = ascii "int "
    .ok (true, { s with I := ⟨content, len, isfunc⟩, stdin })

def execute (w : World) (s : State) : Except Trap State := do
  let (temp, s) ← initTempFile w s
  match temp with
  | none => .ok (s.puts (ascii "Create temp file Failed.\n"))
  | some (name, file) =>
    let expr ← Trap.readText s.I.content
    if s.I.isfunc then
      if w.gcc (file ++ expr) then do
        let s ← appendContent s
        .ok (s.puts (ascii "Added: " ++ expr ++ ascii "\n"))
      else .ok (s.puts (ascii "Compile failed.\n"))
    else
      let (wrapName, source) := appendWrapFunc file expr name
      if w.gcc source then
        if w.dlopen source then
          match w.dlsym source wrapName with
          | none => .ok (s.puts (ascii "Can't load wrap function.\n"))
          | some result => .ok (s.puts (ascii "(" ++ expr ++ ascii ") == " ++ printInt result ++ ascii " \n"))
        else .ok (s.puts (ascii "Can't load shared library.\n"))
      else .ok (s.puts (ascii "Compile failed.\n"))

/-- The loop of `main` -/
def mainLoop (w : World) : Nat → State → Except Trap State
  | 0, _ => .error .diverge
  | fuel + 1, s => do
    let (more, s) ← getInput (s.puts (ascii "> "))
    if more then mainLoop w fuel (← execute w s) else .ok s

/-- `main`: each line takes a character at least. -/
def main (w : World) (stdin : List UInt8) : Except Trap State := mainLoop w (stdin.length + 1) (start stdin)

end OsLab.Crepl
