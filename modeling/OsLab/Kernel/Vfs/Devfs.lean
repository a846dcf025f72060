import OsLab.Kernel.Blkfs.Calls

/-!
# Device files (`vfs/devfs.c`)

An open file of devfs is a device, a mode and an offset. `inode_read` and `inode_write` hand their
arguments on to the device and add what it returns to the offset; `off_t` and `ssize_t` have 32 bits,
the offset has 64. What a device reads is given as the list of the bytes it stores.
-/

namespace OsLab.Kernel.Devfs

open OsLab.Memory
open OsLab.Kernel.Blkfs (AccessFlag)

/-- `devops_t`: a device with the state `σ`. -/
structure Devops (σ : Type) where
  read : Int → Nat → σ → Except Halt (Int × List UInt8 × σ)
  write : Int → Mem → Nat → σ → Except Halt (Int × σ)

/-- A `file` whose inode is that of a device. -/
structure DevFile where
  flags : AccessFlag
  offset : Nat

/-- A cleared `file` -/
def newFile : DevFile := ⟨.dirExist, 0⟩

/-- `inode_access` of a device, which is not the root. -/
def inodeAccess (f : DevFile) : AccessFlag → Int × DevFile
  | .dirExist | .other => (-1, f)
  | flags => (0, { f with flags })

/-- `inode_open` -/
def inodeOpen (f : DevFile) (flags : AccessFlag) : Int × DevFile :=
  let (res, f) := inodeAccess f flags
  if res = -1 then (-1, f)
  else
    match flags with
    | .dirExist => (-1, f)
    | .fileRead => (0, { flags, offset := 0 })
    | .fileWrite => (0, { flags, offset := 0 })
    | .fileAppend => (0, { flags := .fileWrite, offset := 0 })
    | _ => (0, f)

/-- `f->offset += res` -/
def addOffset (offset : Nat) (res : Int) : Nat := ((offset + res) % 2 ^ 64).toNat

/-- `f->offset` as an `off_t` -/
def offsetArg (offset : Nat) : Int := toInt32 (offset % 2 ^ 32)

section Device

variable {σ : Type} (dev : Devops σ)

/-- `inode_read` -/
def inodeRead (f : DevFile) (size : Nat) (s : σ) : Except Halt (Int × List UInt8 × DevFile × σ) :=
  if f.flags ≠ .fileRead then .ok (-1, [], f, s)
  else do
    let (res, data, s) ← dev.read (offsetArg f.offset) size s
    .ok (res, data, { f with offset := addOffset f.offset res }, s)

/-- `inode_write` -/
def inodeWrite (f : DevFile) (buf : Mem) (size : Nat) (s : σ) : Except Halt (Int × DevFile × σ) :=
  if f.flags ≠ .fileWrite then .ok (-1, f, s)
  else do
    let (res, s) ← dev.write (offsetArg f.offset) buf size s
    .ok (res, { f with offset := addOffset f.offset res }, s)

/-- `inode_lseek` -/
def inodeLseek (f : DevFile) (offset : Int32) : Int × DevFile :=
  if f.flags ≠ .fileWrite ∧ f.flags ≠ .fileRead then (-1, f)
  else (offset.toInt, { f with offset := (offset.toInt % 2 ^ 64).toNat })

variable {dev} {f : DevFile} {s s' : σ} {res : Int} {size : Nat}

theorem inodeRead_run {data : List UInt8} (mode : f.flags = .fileRead)
    (run : dev.read (offsetArg f.offset) size s = .ok (res, data, s')) :
    inodeRead dev f size s = .ok (res, data, { f with offset := addOffset f.offset res }, s') := by
  unfold inodeRead
  rw [if_neg (not_not.2 mode), run]
  rfl

theorem inodeRead_refused (mode : f.flags ≠ .fileRead) : inodeRead dev f size s = .ok (-1, [], f, s) := if_pos mode

theorem inodeWrite_run {buf : Mem} (mode : f.flags = .fileWrite)
    (run : dev.write (offsetArg f.offset) buf size s = .ok (res, s')) :
    inodeWrite dev f buf size s = .ok (res, { f with offset := addOffset f.offset res }, s') := by
  unfold inodeWrite
  rw [if_neg (not_not.2 mode), run]
  rfl

theorem inodeWrite_refused {buf : Mem} (mode : f.flags ≠ .fileWrite) :
    inodeWrite dev f buf size s = .ok (-1, f, s) := if_pos mode

/-- The file is open for reading or writing. -/
def DevFile.Seekable (f : DevFile) : Prop := f.flags = .fileWrite ∨ f.flags = .fileRead

theorem inodeLseek_run {offset : Int32} (mode : f.Seekable) :
    inodeLseek f offset = (offset.toInt, { f with offset := (offset.toInt % 2 ^ 64).toNat }) :=
  if_neg fun ⟨noWrite, noRead⟩ => mode.elim noWrite noRead

theorem inodeLseek_refused {offset : Int32} (mode : ¬ f.Seekable) : inodeLseek f offset = (-1, f) :=
  if_pos (not_or.1 mode)

end Device

theorem addOffset_mod {offset : Nat} {res : Int} : addOffset offset res % 2 ^ 32 = ofInt32 (offset + res) := by
  unfold addOffset ofInt32
  omega

end OsLab.Kernel.Devfs
