import OsLab.Lib.Except
import OsLab.Lib.Stdio

/-!
# The key-value store (`libkvdb/kvdb.c`)

The database is one text file to which `kvdb_put` appends a record: an empty line, a line
with the length of the value and the key, the value, and a line `END`. `find_db` reads the
file line by line and keeps the last value found under the key.

One process uses the database, so that `flock` always succeeds and what a stream has written
is in the file once it is closed. `opens` is the answer of `fopen` where the file could be
opened. Allocations succeed.
-/

namespace OsLab.Kvdb

open OsLab.Stdio OsLab.Decimal

/-- The characters of a C string, without the terminating NUL. -/
abbrev CStr := { s : List UInt8 // 0 ∉ s }

/-- Why a call does not return. -/
inductive Stop where
  /-- The mutex is already locked by the calling thread. -/
  | deadlock
  /-- Behaviour that the C standard leaves undefined: a number out of the range of `int`, a
  store outside an allocation, a buffer of size 0 for `fgets`. -/
  | undefined
  /-- The loop has not ended within the bound of its model. -/
  | diverge
  deriving DecidableEq, Repr

/-- `struct kvdb` -/
structure Handle where
  locked : Bool
  state : Int
  filename : CStr

/-- The database handle and the files by name. -/
structure World where
  db : Handle
  files : CStr → Option (List UInt8)

/-- `Opened` -/
def opened : Int := 1

/-- The characters of the C string in a buffer. -/
def cstr (buf : List UInt8) : List UInt8 := buf.takeWhile (· ≠ 0)

/-- A value fits `int`. -/
def FitsInt (n : Int) : Prop := -2147483648 ≤ n ∧ n ≤ 2147483647

instance (n : Int) : Decidable (FitsInt n) := inferInstanceAs (Decidable (_ ∧ _))

/-- `sscanf(buf, "%d:%[^\n]\n", &vlen, key)`: the length and the key, or nothing if it did not
convert both. -/
def scanHeader (buf : List UInt8) : Except Stop (Option (Int × List UInt8)) :=
  match scanInt buf with
  | none => .ok none
  | some (vlen, rest) =>
    if FitsInt vlen then
      match rest with
      | 58 :: rest =>
        let key := rest.takeWhile (· ≠ newline)
        if key = [] then .ok none else .ok (some (vlen, key))
      | _ => .ok none
    else
      .error .undefined

/-- The text `END`. -/
def endMark : List UInt8 := [69, 78, 68]

/-- The part of an iteration of `find_db` behind a header with the target key: the value, if
it is read and `END` follows it, and the stream. -/
def readValue (vlen : Int) (s : Stream) : Except Stop (Option (List UInt8) × Stream) :=
  -- `vlen + 5` is computed as an `int`, and is the size of the buffer of `fgets`
  if ¬ FitsInt (vlen + 5) ∨ vlen + 5 ≤ 0 then
    .error .undefined
  else
    match fgets (vlen + 5).toNat s with
    | (none, s) => .ok (none, s)
    | (some value, s) =>
      -- `value[vlen] = '\0'`
      if vlen < 0 then
        .error .undefined
      else
        match fgets 10 s with
        | (none, s) => .ok (none, s)
        | (some mark, s) =>
          -- `end[3] = '\0'`
          if (cstr mark).take 3 ≠ endMark then
            .ok (none, s)
          else
            .ok (some ((cstr value).take vlen.toNat), s)

/-- The loop of `find_db`. -/
def findLoop (target : List UInt8) :
    Nat → Stream → Option (List UInt8) → Except Stop (Option (List UInt8))
  | 0, _, _ => .error .diverge
  | fuel + 1, s, res =>
    if s.eof then
      .ok res
    else
      match fgets 500 s with
      | (none, s) => findLoop target fuel s res
      | (some buf, s) =>
        match scanHeader (cstr buf) with
        | .error e => .error e
        | .ok none => findLoop target fuel s res
        | .ok (some (vlen, key)) =>
          if target ≠ key then
            findLoop target fuel s res
          else
            match readValue vlen s with
            | .error e => .error e
            | .ok (none, s) => findLoop target fuel s res
            | .ok (some value, s) => findLoop target fuel s (some value)

/-- The bound of the loop: every iteration but the last two reads a character. -/
def findFuel (file : List UInt8) : Nat := file.length + 2

/-- `find_db` -/
def findDb (opens : Bool) (target : CStr) (w : World) : Except Stop (Option (List UInt8)) :=
  match w.files w.db.filename with
  | none => .ok none
  | some file => if opens then findLoop target.1 (findFuel file) ⟨file, false⟩ none else .ok none

/-- `pthread_mutex_lock` -/
def lockMutex (w : World) : Except Stop World :=
  if w.db.locked then .error .deadlock else .ok { w with db := { w.db with locked := true } }

/-- `pthread_mutex_unlock` -/
def unlockMutex (w : World) : World := { w with db := { w.db with locked := false } }

/-- The file, with the bytes of a stream opened in mode `a` at its end. -/
def append (filename : CStr) (bytes : List UInt8) (w : World) : World :=
  { w with files := fun name =>
      if name = filename then some ((w.files filename).getD [] ++ bytes) else w.files name }

/-- `kvdb_open` -/
def kvdbOpen (opens : Bool) (filename : CStr) (w : World) : Int × World :=
  if w.db.state = opened then
    (-1, w)
  else
    -- `pthread_mutex_init` and `pthread_mutex_lock`
    let w := { w with db := { w.db with locked := true } }
    if filename.1.length ≥ 1024 then
      (-1, w)
    else
      let w := { w with db := { w.db with filename := filename } }
      if opens then
        let w := append filename [] w
        (0, unlockMutex { w with db := { w.db with state := opened } })
      else
        (-1, w)

/-- The longest value that is accepted. -/
def maxValue : Nat := 16 * 1024 * 1024

/-- The characters that `kvdb_put` writes. -/
def record (key value : CStr) : List UInt8 :=
  newline :: (decimal value.1.length ++ 58 :: (key.1 ++ newline ::
    (value.1 ++ newline :: (endMark ++ [newline]))))

/-- `kvdb_put`; a missing key or value is the `NULL` pointer. -/
def kvdbPut (opens : Bool) (key value : Option CStr) (w : World) : Except Stop (Int × World) :=
  match key, value with
  | some key, some value => do
    if key.1.length = 0 ∨ key.1.length > 128 ∨ value.1.length > maxValue then
      return (-1, w)
    let w ← lockMutex w
    if opens then
      return (0, unlockMutex (append w.db.filename (record key value) w))
    else
      return (-1, w)
  | _, _ => .ok (-1, w)

/-- `kvdb_get` -/
def kvdbGet (opens : Bool) (key : Option CStr) (w : World) : Except Stop (Option (List UInt8) × World) :=
  match key with
  | none => .ok (none, w)
  | some key => do
    if key.1.length = 0 ∨ key.1.length > 128 then
      return (none, w)
    let w ← lockMutex w
    let value ← findDb opens key w
    return (value, unlockMutex w)

end OsLab.Kvdb
