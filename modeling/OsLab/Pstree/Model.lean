import OsLab.Lib.Stdio
import OsLab.Lib.Trap

/-!
# Showing the processes (`pstree/pstree.c`)

`getProcess` scans a `stat` file into a record, and `showTree` prints a process and what is below it. The buffers are
checked; `sscanf` stores what its conversions find up to the first that fails.
-/

namespace OsLab.Pstree

open OsLab.Stdio OsLab.Decimal

structure Process where
  pid : Int
  /-- A buffer of 256 characters. -/
  comm : List UInt8
  state : UInt8
  ppid : Int
  deriving DecidableEq, Repr

/-- `buf` and `tmp` of `getProcess`, which are static: 1024 and 128 characters. -/
structure Statics where
  buf : List UInt8
  tmp : List UInt8
  deriving DecidableEq, Repr

/-- `sscanf(buf, "%d %s %c %d", &out->pid, tmp, &out->state, &out->ppid)` -/
def scanStat (s : List UInt8) (tmp : List UInt8) (out : Process) : Except Trap (List UInt8 × Process) :=
  match scanInt s with
  | none => .ok (tmp, out)
  | some (pid, s) => do
    let pid ← Trap.int pid
    let out := { out with pid }
    let s := s.dropWhile isSpace
    let word := s.takeWhile fun c => !isSpace c
    if word = [] then .ok (tmp, out)
    else do
      let tmp ← Trap.putText tmp word
      match (s.dropWhile fun c => !isSpace c).dropWhile isSpace with
      | [] => .ok (tmp, out)
      | state :: s =>
        let out := { out with state }
        match scanInt s with
        | none => .ok (tmp, out)
        | some (ppid, _) => do
          let ppid ← Trap.int ppid
          .ok (tmp, { out with ppid })

/-- `strcpy(out->comm, tmp + 1)`, and the NUL over its last character. -/
def copyComm (tmp comm : List UInt8) : Except Trap (List UInt8) := do
  let word ← Trap.readText (tmp.drop 1)
  let comm ← Trap.putText comm word
  let name ← Trap.readText comm
  -- for an empty name the index is in front of the array
  Trap.put comm (name.length - 1 : Int) 0

/-- `getProcess`, where `fopen` of the `stat` file returns `NULL` or opens this file: what is returned, and what is in the
buffers and the record after it. -/
def getProcess (file : Option (List UInt8)) (st : Statics) (out : Process) : Except Trap (Int × Statics × Process) :=
  match file with
  | none => .ok (-1, st, out)
  | some file => do
    let buf ← match (fgets 1024 ⟨file, false⟩).1 with
      | some line => Trap.putText st.buf line
      | none => .ok st.buf
    let s ← Trap.readText buf
    let (tmp, out) ← scanStat s st.tmp out
    let comm ← copyComm tmp out.comm
    .ok (0, ⟨buf, tmp⟩, { out with comm })

/-- `cli`, as far as the tree depends on it. -/
structure Options where
  showPids : Bool
  numericSort : Bool

/-- The library's `strcmp`, of texts. -/
def strcmp : List UInt8 → List UInt8 → Int
  | [], [] => 0
  | [], b :: _ => -b.toNat
  | a :: _, [] => a.toNat
  | a :: s, b :: t => if a = b then strcmp s t else a.toNat - b.toNat

/-- What `showTree` prints for a process. -/
def label (cli : Options) (p : Process) : List UInt8 :=
  if cli.showPids then Trap.text p.comm ++ 40 :: printInt p.pid ++ [41] else Trap.text p.comm

section Tree

variable {procNumber : Nat}

/-- A line of the output: its indentation, the process it is for, and its text. -/
structure Printed (procNumber : Nat) where
  offset : Nat
  rid : Fin procNumber
  text : List UInt8
  deriving DecidableEq, Repr

/-- The static `offset` of `showTree`, `showd`, and what has been printed. -/
structure Shown (procNumber : Nat) where
  offset : Nat
  showd : Fin procNumber → Bool
  out : List (Printed procNumber)

/-- `cmpByName` -/
def cmpByName (procs : Fin procNumber → Process) (i j : Fin procNumber) : Int :=
  strcmp (Trap.text (procs i).comm) (Trap.text (procs j).comm)

/-- `cmpByPid` -/
def cmpByPid (procs : Fin procNumber → Process) (i j : Fin procNumber) : Int :=
  if (procs i).pid > (procs j).pid then 1 else if (procs i).pid < (procs j).pid then -1 else 0

/-- The comparison that `cli` chooses. -/
def cmp (cli : Options) (procs : Fin procNumber → Process) : Fin procNumber → Fin procNumber → Int :=
  if cli.numericSort then cmpByPid procs else cmpByName procs

/-- `children`, before they are sorted. -/
def childrenOf (procs : Fin procNumber → Process) (root : Process) : List (Fin procNumber) :=
  (List.finRange procNumber).filter fun pi => (procs pi).pid ≠ -1 ∧ (procs pi).ppid = root.pid

/-- `MAX_PROC` -/
def MAX_PROC : Nat := 512

/-- `showTree`, with `qsort` as a parameter. -/
def showTree (qsort : (Fin procNumber → Fin procNumber → Int) → List (Fin procNumber) → List (Fin procNumber))
    (cli : Options) (procs : Fin procNumber → Process) : Nat → Fin procNumber → Shown procNumber → Except Trap (Shown procNumber)
  | 0, _, _ => .error .diverge
  | fuel + 1, rid, s => do
    let root := procs rid
    let s : Shown procNumber := ⟨s.offset + 4, Function.update s.showd rid true, s.out ++ [⟨s.offset, rid, label cli root⟩]⟩
    let children := childrenOf procs root
    if MAX_PROC < children.length then .error .outside
    else do
      let s ← (qsort (cmp cli procs) children).foldlM (fun s c => showTree qsort cli procs fuel c s) s
      .ok { s with offset := s.offset - 4 }

/-- The calls of `showTree` from `main`. -/
def showAll (qsort : (Fin procNumber → Fin procNumber → Int) → List (Fin procNumber) → List (Fin procNumber))
    (cli : Options) (procs : Fin procNumber → Process) (fuel : Nat) : Except Trap (Shown procNumber) :=
  (List.finRange procNumber).foldlM
    (fun s i => if (procs i).ppid = 0 then showTree qsort cli procs fuel i s else .ok s) ⟨0, fun _ => false, []⟩

end Tree

end OsLab.Pstree
