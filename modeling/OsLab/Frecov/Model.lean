import OsLab.Lib.Traced
import OsLab.Lib.Trap

/-!
# Recovering files from an image (`frecov/frecov.c`)

`recover` takes every 32 bytes of the data area for a directory entry, and prints a checksum for each BMP file it comes to.
Reads are checked against the image, and buffers and `answers` against their sizes; unsigned arithmetic is modulo 2³². The loops
leave the values `pos` has had in them.
-/

namespace OsLab.Frecov

/-- The byte at an offset, where there is one. -/
abbrev Bytes := Nat → Option UInt8

section Fields

variable (mem : Bytes)

def read8 (a : Nat) : Except Trap UInt8 := Trap.check (mem a)

def read16 (a : Nat) : Except Trap Nat := do
  let low ← read8 mem a
  let high ← read8 mem (a + 1)
  .ok (low.toNat + 2 ^ 8 * high.toNat)

def read32 (a : Nat) : Except Trap Nat := do
  let low ← read16 mem a
  let high ← read16 mem (a + 2)
  .ok (low + 2 ^ 16 * high)

/-- `get_data_area_offset`. The boot sector is at the start of the image. -/
def getDataAreaOffset : Except Trap Nat := do
  let bytesPerSector ← read16 mem 11
  let reservedSectorCount ← read16 mem 14
  let fatCount ← read8 mem 16
  let fatSize32 ← read32 mem 36
  .ok (bytesPerSector * (reservedSectorCount + fatCount.toNat * fatSize32) % 2 ^ 32)

/-- `get_cluster_offset` -/
def getClusterOffset (clusterId : Nat) : Except Trap Nat := do
  let data ← getDataAreaOffset mem
  let bytesPerSector ← read16 mem 11
  let sectorPerCluster ← read8 mem 13
  .ok ((data + bytesPerSector * sectorPerCluster.toNat * ((clusterId + 2 ^ 32 - 2) % 2 ^ 32)) % 2 ^ 32)

/-- `is_last_long_entry` -/
def isLastLongEntry (entry : Nat) : Except Trap Nat := do
  let prop ← read8 mem entry
  .ok (prop.toNat / 2 ^ 6 % 2)

/-- `get_cluster_index` -/
def getClusterIndex (entry : Nat) : Except Trap Nat := do
  let clusterHigh ← read16 mem (entry + 20)
  let clusterLow ← read16 mem (entry + 26)
  .ok (clusterHigh * 2 ^ 16 + clusterLow)

end Fields

/-- `count1` -/
def count1 (x : Nat) : Nat := if x = 0 then 0 else x % 2 + count1 (x / 2)

/-- `DP_Long` -/
def DP_Long : UInt8 := 0x0f

structure RecoverFile where
  /-- A buffer of 512 characters. -/
  name : List UInt8
  size : Nat
  cluster : Nat
  shid : Nat
  deriving DecidableEq, Repr

/-- The static `temp`, a buffer of 512 characters, and `temp_pos`. -/
structure Temp where
  temp : List UInt8
  tempPos : Nat
  deriving DecidableEq, Repr

section Entries

variable (mem : Bytes)

/-- `temp[temp_pos++] = text[i]`, for the `text` of a long entry at `text` and each `i` in turn. -/
def pushChars (text : Nat) (is : List Nat) (t : Temp) : Except Trap Temp :=
  is.foldlM (fun t i => do
    let c ← read8 mem (text + i)
    let temp ← Trap.put t.temp t.tempPos c
    .ok ⟨temp, t.tempPos + 1⟩) t

/-- `temp_pos == 0 && is_last_long_entry(lo) == 0` -/
def skipped (cur : Nat) (t : Temp) : Except Trap Bool :=
  if t.tempPos = 0 then do
    let last ← isLastLongEntry mem cur
    .ok (last = 0)
  else .ok false

/-- What is done at a long entry. -/
def longEntry (cur : Nat) (t : Temp) : Except Trap Temp := do
  let reserved ← read8 mem (cur + 12)
  if reserved ≠ 0 then .ok t
  else do
    let cluster ← read16 mem (cur + 26)
    if cluster ≠ 0 then .ok t
    else do
      let skip ← skipped mem cur t
      if skip then .ok t
      else do
        let t ← pushChars mem (cur + 28) [2, 0] t
        let t ← pushChars mem (cur + 14) [10, 8, 6, 4, 2, 0] t
        pushChars mem (cur + 1) [8, 6, 4, 2, 0] t

/-- `file->name[jpos] = text[k]`, for the bytes at `text` and each `jpos` and `k` in turn. -/
def copyChars (text : Nat) (js : List (Nat × Nat)) (name : List UInt8) : Except Trap (List UInt8) :=
  js.foldlM (fun name j => do
    let c ← read8 mem (text + j.2)
    Trap.put name j.1 c) name

/-- The name of a file: the characters in `temp` from the last to the first, or that of the short entry. -/
def fileName (cur : Nat) (t : Temp) (name : List UInt8) : Except Trap (List UInt8) :=
  if 0 < t.tempPos then do
    let name ← (List.range t.tempPos).foldlM (fun name (jpos : Nat) => do
      let c ← Trap.load t.temp (t.tempPos - 1 - jpos)
      Trap.put name jpos c) name
    Trap.put name t.tempPos 0
  else do
    let name ← copyChars mem cur ((List.range 8).map fun jpos => (jpos, jpos)) name
    let name ← Trap.put name 8 46
    let name ← copyChars mem (cur + 8) ([9, 10, 11].map fun jpos => (jpos, jpos - 9)) name
    Trap.put name 12 0

/-- What is done at a short entry: the file, if it is one of those looked for. -/
def shortEntry (cur pos : Nat) (t : Temp) (file : RecoverFile) : Except Trap (Option RecoverFile) := do
  let reserved ← read8 mem (cur + 12)
  if reserved ≠ 0 then .ok none
  else do
    let prop ← read8 mem (cur + 11)
    if count1 prop.toNat ≠ 1 then .ok none
    else do
      let ext0 ← read8 mem (cur + 8)
      if ext0 ≠ 66 then .ok none
      else do
        let ext1 ← read8 mem (cur + 9)
        if ext1 ≠ 77 then .ok none
        else do
          let ext2 ← read8 mem (cur + 10)
          if ext2 ≠ 80 then .ok none
          else do
            let size ← read32 mem (cur + 28)
            let cluster ← getClusterIndex mem cur
            let name ← fileName mem cur t file.name
            .ok (some ⟨name, size, cluster, pos⟩)

/-- The body of the loop of `detect_next_direntry`. -/
def detectEntry (cur pos : Nat) (t : Temp) (file : RecoverFile) : Except Trap (Temp × Option RecoverFile) := do
  let prop ← read8 mem (cur + 11)
  if prop = DP_Long then do
    let t ← longEntry mem cur t
    .ok (t, none)
  else do
    let found ← shortEntry mem cur pos t file
    .ok (t, found)

/-- The loop of `detect_next_direntry`. -/
def detectLoop (start size : Nat) : Nat → Nat → Temp → RecoverFile → Traced Trap Nat (Int × List UInt8 × RecoverFile)
  | 0, _, _, _ => .lift (.error .diverge)
  | fuel + 1, pos, t, file =>
    if pos < size then do
      Traced.mark pos
      let (t, found) ← Traced.lift (detectEntry mem (start + pos) pos t file)
      match found with
      -- an `int` is returned
      | some file => pure (Int.bmod (pos + 32 : Nat) (2 ^ 32), t.temp, file)
      | none => detectLoop start size fuel ((pos + 32) % 2 ^ 32) t file
    else pure (-1, t.temp, file)

/-- `detect_next_direntry`: what is returned, and `temp` and the file after it. -/
def detectNextDirentry (fuel start offset size : Nat) (temp : List UInt8) (file : RecoverFile) :
    Traced Trap Nat (Int × List UInt8 × RecoverFile) :=
  detectLoop mem start size fuel offset ⟨temp, 0⟩ file

end Entries

/-- The checksum and the name are those up to the NUL. -/
structure Answer where
  checksum : List UInt8
  name : List UInt8
  rank : Int
  deriving DecidableEq, Repr

/-- An image of at least one boot sector. -/
structure Image where
  bytes : List UInt8
  sector : 512 ≤ bytes.length
  /-- `img_size` has 32 bits. -/
  small : bytes.length < 2 ^ 32

def Image.mem (img : Image) : Bytes := fun a => img.bytes[a]?

/-- What `recover` is called with and what is outside of the program. -/
structure Setting where
  tofile : Bool
  /-- The file for the answer of this number can be created and mapped. -/
  created : Nat → Bool
  /-- What `sha1sum` writes. -/
  sha1sum : List UInt8 → List UInt8
  qsort : (Answer → Answer → Int) → List Answer → List Answer
  /-- What is in `file` before it is set. -/
  file : RecoverFile
  named : file.name.length = 512

/-- `TARGET_DIR` -/
def TARGET_DIR : List UInt8 := "/home/stardustdl/temp/fat/imgs".toList.map fun c => c.toNat.toUInt8

/-- The buffers of `recover`, and `answers` up to `answer_cnt`. -/
structure State where
  temp : List UInt8
  file : RecoverFile
  sha1Buf : List UInt8
  answers : List Answer

section Recover

variable (env : Setting) (img : Image)

/-- The bytes `[a, a + n)`. -/
def readRange (a n : Nat) : Except Trap (List UInt8) := (List.range n).mapM fun i => read8 img.mem (a + i)

/-- `getSha1Sum`, where at most 40 characters are read from the pipe. -/
def getSha1Sum (src size : Nat) (buf : List UInt8) : Except Trap (List UInt8) := do
  let contents ← readRange img src size
  let sum := (env.sha1sum contents).take 40
  Trap.put (sum ++ buf.drop sum.length) 40 0

/-- `cmp` -/
def cmp (a b : Answer) : Int := a.rank - b.rank

/-- The number of `answers`. -/
def answerMax : Nat := 10240

/-- The copy of the contents to a file, where `tofile` is set. -/
def writeFile (src : Nat) (s : State) : Except Trap Unit :=
  if env.tofile then do
    let name ← Trap.readText s.file.name
    let _ ← Trap.putText (List.replicate 1024 0) (TARGET_DIR ++ 47 :: name)
    if env.created s.answers.length then do
      let _ ← readRange img src s.file.size
      .ok ()
    else .error .abort
  else .ok ()

/-- What `recover` does with the contents of a bitmap. -/
def addAnswer (src : Nat) (s : State) : Except Trap State := do
  writeFile env img src s
  let sha1Buf ← getSha1Sum env img src s.file.size s.sha1Buf
  if answerMax ≤ s.answers.length then .error .outside
  else do
    let checksum ← Trap.readText sha1Buf
    let _ ← Trap.putText (List.replicate 128 0) checksum
    let name ← Trap.readText s.file.name
    let _ ← Trap.putText (List.replicate 512 0) name
    .ok { s with sha1Buf, answers := s.answers ++ [⟨checksum, name, if 126 ∈ name then 1 else 0⟩] }

/-- The part of the loop of `recover` for a file that is not empty. -/
def recoverFile (s : State) : Except Trap State := do
  let src ← getClusterOffset img.mem s.file.cluster
  let first ← read8 img.mem src
  if first ≠ 66 then .error .abort
  else do
    let second ← read8 img.mem (src + 1)
    if second ≠ 77 then .error .abort
    else addAnswer env img src s

/-- The loop of `recover`. -/
def recoverLoop (start size : Nat) : Nat → Nat → State → Traced Trap Nat (List Answer)
  | 0, _, _ => .lift (.error .diverge)
  | fuel + 1, pos, s =>
    if pos < size then do
      let (ret, temp, file) ← detectNextDirentry img.mem fuel start pos size s.temp s.file
      let pos := (ret % 2 ^ 32).toNat
      let s := { s with temp, file }
      if pos = 2 ^ 32 - 1 then pure s.answers
      else if file.size = 0 ∨ file.cluster = 0 then recoverLoop start size fuel pos s
      else do
        let s ← Traced.lift (recoverFile env img s)
        recoverLoop start size fuel pos s
    else pure s.answers

/-- `recover`: the lines that are printed. -/
def recover (fuel : Nat) : Traced Trap Nat (List (List UInt8)) := do
  let dataOffset ← Traced.lift (getDataAreaOffset img.mem)
  let size := (img.bytes.length + 2 ^ 32 - dataOffset) % 2 ^ 32
  let answers ← recoverLoop env img dataOffset size fuel 0 ⟨List.replicate 512 0, env.file, List.replicate 512 0, []⟩
  pure ((env.qsort cmp answers).map fun a => a.checksum ++ [32, 32] ++ a.name)

end Recover

end OsLab.Frecov
