import OsLab.Kernel.Vfs.Devfs
import OsLab.Lib.ByteFile

/-!
# RAM disks (`ramdisk.c`) as raw files

`rd_read` and `rd_write` copy from and to `start + offset` and never look at `end`, nor does devfs. So
the calls on an open raw file stay inside the disk exactly as long as every one of them ends there, and
reading on at the end does not return 0 (`raw_file_iff`).
-/

namespace OsLab.Kernel.Devices

open OsLab.Memory OsLab.ByteFile OsLab.Kernel.Devfs
open OsLab.Kernel.Blkfs (AccessFlag)

/-- `rd_t` -/
structure Ramdisk where
  start : Nat
  stop : Nat
  order : start ≤ stop
  fits : stop < 2 ^ 32

namespace Ramdisk

variable (rd : Ramdisk)

def size : Nat := rd.stop - rd.start

/-- `((char *)rd->start) + offset` -/
def addr (offset : Int) : Nat := ofInt32 (rd.start + offset)

end Ramdisk

/-- The memory, and the ranges of it that were copied from and to. -/
structure RamState where
  mem : Mem
  touched : List (Nat × Nat)

/-- `rd_read`: what is copied out of the disk. -/
def rdRead (rd : Ramdisk) (offset : Int) (count : Nat) (s : RamState) : Except Halt (Int × List UInt8 × RamState) :=
  .ok (toInt32 count, bytes (fun i => s.mem (rd.addr offset + i)) count,
    { s with touched := s.touched ++ [(rd.addr offset, count)] })

/-- `rd_write` -/
def rdWrite (rd : Ramdisk) (offset : Int) (buf : Mem) (count : Nat) (s : RamState) : Except Halt (Int × RamState) :=
  .ok (toInt32 count, ⟨store s.mem (rd.addr offset) count buf, s.touched ++ [(rd.addr offset, count)]⟩)

/-- `rd_ops` -/
def rdOps (rd : Ramdisk) : Devops RamState where
  read := rdRead rd
  write := rdWrite rd

/-- A call on an open raw file. -/
inductive RawCall where
  | read (size : UInt32)
  | write (buf : Mem) (size : UInt32)
  | lseek (offset : Int32)

/-- An open raw file. -/
structure RawFile where
  file : DevFile
  ram : RamState

/-- Run a call: what it returns and the bytes it has read. -/
def RawCall.run (rd : Ramdisk) (s : RawFile) : RawCall → Except Halt ((Int × List UInt8) × RawFile)
  | .read size => do
    let (res, data, file, ram) ← inodeRead (rdOps rd) s.file size.toNat s.ram
    .ok ((res, data), ⟨file, ram⟩)
  | .write buf size => do
    let (res, file, ram) ← inodeWrite (rdOps rd) s.file buf size.toNat s.ram
    .ok ((res, []), ⟨file, ram⟩)
  | .lseek offset =>
    let (res, file) := inodeLseek s.file offset
    .ok ((res, []), { s with file })

/-- Run calls one after the other. -/
def runRaw (rd : Ramdisk) : List RawCall → RawFile → Except Halt (List (Int × List UInt8) × RawFile)
  | [], s => .ok ([], s)
  | call :: calls, s => do
    let (result, s) ← call.run rd s
    let (results, s) ← runRaw rd calls s
    .ok (result :: results, s)

/-- The range lies in the disk. -/
def Inside (rd : Ramdisk) (range : Nat × Nat) : Prop :=
  ∀ x, range.1 ≤ x → x < range.1 + range.2 → rd.start ≤ x ∧ x < rd.stop

/-- The bytes of the disk. -/
def diskBytes (rd : Ramdisk) (m : Mem) : List UInt8 := bytes (fun i => m (rd.start + i)) rd.size

/-- What reads of these sizes find in a file of these bytes, from its start to its end. -/
def sequential : List UInt8 → List Nat → List (List UInt8)
  | _, [] => []
  | content, n :: sizes => content.take n :: sequential (content.drop n) sizes

/-- The calls stay inside the disk, and if they are reads they yield its bytes and then nothing. -/
def RawFileRight (rd : Ramdisk) (m : Mem) (f : DevFile) (calls : List RawCall) : Prop :=
  ∃ results s, runRaw rd calls ⟨f, ⟨m, []⟩⟩ = .ok (results, s) ∧ (∀ range ∈ s.ram.touched, Inside rd range) ∧
    ∀ sizes : List UInt32, f.flags = .fileRead → calls = sizes.map .read →
      results.map Prod.snd = sequential (diskBytes rd m) (sizes.map UInt32.toNat) ∧
      ∀ r ∈ results, ofInt32 r.1 = r.2.length

/-- Each read and each write that accesses the disk ends in it. `pos` is the offset. -/
def Fits (rd : Ramdisk) (flags : AccessFlag) : Nat → List RawCall → Prop
  | _, [] => True
  | pos, .read size :: calls =>
    if flags = .fileRead then
      (size = 0 ∨ pos + size.toNat ≤ rd.size) ∧ Fits rd flags ((pos + size.toNat) % 2 ^ 32) calls
    else Fits rd flags pos calls
  | pos, .write _ size :: calls =>
    if flags = .fileWrite then
      (size = 0 ∨ pos + size.toNat ≤ rd.size) ∧ Fits rd flags ((pos + size.toNat) % 2 ^ 32) calls
    else Fits rd flags pos calls
  | pos, .lseek offset :: calls =>
    if flags = .fileWrite ∨ flags = .fileRead then Fits rd flags (ofInt32 offset.toInt) calls
    else Fits rd flags pos calls

section Calls

variable {rd : Ramdisk} {s : RawFile} {call : RawCall} {calls : List RawCall} {n : Nat}

theorem Ramdisk.addr_offsetArg (offset : Nat) : rd.addr (offsetArg offset) = (rd.start + offset % 2 ^ 32) % 2 ^ 32 := by
  unfold Ramdisk.addr offsetArg toInt32 ofInt32
  split <;> omega

/-- The range that a device is handed lies in the disk if it ends there. -/
theorem inside_iff (offset n : Nat) :
    Inside rd (rd.addr (offsetArg offset), n) ↔ n = 0 ∨ offset % 2 ^ 32 + n ≤ rd.size := by
  have order := rd.order
  have fits := rd.fits
  rw [rd.addr_offsetArg]
  unfold Inside Ramdisk.size
  dsimp only
  constructor
  · intro inside
    rcases Nat.eq_zero_or_pos n with none | some
    · exact Or.inl none
    · have first := inside ((rd.start + offset % 2 ^ 32) % 2 ^ 32) (Nat.le_refl _) (by omega)
      have last := inside ((rd.start + offset % 2 ^ 32) % 2 ^ 32 + (n - 1)) (by omega) (by omega)
      omega
  · rintro (rfl | ends) x lo hi
    · omega
    · omega

theorem addOffset_toInt32 (offset : Nat) (size : UInt32) :
    addOffset offset (toInt32 size.toNat) % 2 ^ 32 = (offset % 2 ^ 32 + size.toNat) % 2 ^ 32 := by
  have := size.toNat_lt
  rw [addOffset_mod]
  unfold toInt32 ofInt32
  split <;> omega

/-- The file after a call that has accessed `n` bytes of the disk. -/
def RawFile.moved (s : RawFile) (rd : Ramdisk) (n : Nat) (mem : Mem) : RawFile where
  file := { s.file with offset := addOffset s.file.offset (toInt32 n) }
  ram := ⟨mem, s.ram.touched ++ [(rd.addr (offsetArg s.file.offset), n)]⟩

theorem run_read (mode : s.file.flags = .fileRead) (size : UInt32) :
    RawCall.run rd s (.read size) = .ok ((toInt32 size.toNat,
      bytes (fun i => s.ram.mem (rd.addr (offsetArg s.file.offset) + i)) size.toNat),
      s.moved rd size.toNat s.ram.mem) := by
  unfold RawCall.run
  dsimp only
  rw [inodeRead_run mode rfl]
  rfl

theorem run_write (mode : s.file.flags = .fileWrite) (buf : Mem) (size : UInt32) :
    RawCall.run rd s (.write buf size) = .ok ((toInt32 size.toNat, []),
      s.moved rd size.toNat (store s.ram.mem (rd.addr (offsetArg s.file.offset)) size.toNat buf)) := by
  unfold RawCall.run
  dsimp only
  rw [inodeWrite_run mode rfl]
  rfl

theorem size_eq_zero {size : UInt32} : size = 0 ↔ size.toNat = 0 := by
  rw [← UInt32.toNat_inj]
  rfl

/-- One call: what it touches lies in the disk if it fits. -/
theorem RawCall.run_spec (rd : Ramdisk) (s : RawFile) (call : RawCall) (calls : List RawCall) :
    ∃ r s' new, call.run rd s = .ok (r, s') ∧ s'.file.flags = s.file.flags ∧ s'.ram.touched = s.ram.touched ++ new ∧
      (Fits rd s.file.flags (s.file.offset % 2 ^ 32) (call :: calls) ↔
        (∀ range ∈ new, Inside rd range) ∧ Fits rd s.file.flags (s'.file.offset % 2 ^ 32) calls) := by
  have nothing : ∀ range ∈ ([] : List (Nat × Nat)), Inside rd range := nofun
  cases call with
  | read size =>
    by_cases mode : s.file.flags = .fileRead
    · refine ⟨_, _, _, run_read mode size, rfl, rfl, ?_⟩
      rw [Fits, if_pos mode, List.forall_mem_singleton, inside_iff, ← addOffset_toInt32, size_eq_zero]
      rfl
    · refine ⟨(-1, []), s, [], ?_, rfl, (List.append_nil _).symm, ?_⟩
      · unfold RawCall.run
        dsimp only
        rw [inodeRead_refused mode]
        rfl
      · rw [Fits, if_neg mode]
        exact (and_iff_right nothing).symm
  | write buf size =>
    by_cases mode : s.file.flags = .fileWrite
    · refine ⟨_, _, _, run_write mode buf size, rfl, rfl, ?_⟩
      rw [Fits, if_pos mode, List.forall_mem_singleton, inside_iff, ← addOffset_toInt32, size_eq_zero]
      rfl
    · refine ⟨(-1, []), s, [], ?_, rfl, (List.append_nil _).symm, ?_⟩
      · unfold RawCall.run
        dsimp only
        rw [inodeWrite_refused mode]
        rfl
      · rw [Fits, if_neg mode]
        exact (and_iff_right nothing).symm
  | lseek offset =>
    by_cases mode : s.file.flags = .fileWrite ∨ s.file.flags = .fileRead
    · refine ⟨(offset.toInt, []), { s with file := { s.file with offset := (offset.toInt % 2 ^ 64).toNat } }, [], ?_, rfl,
        (List.append_nil _).symm, ?_⟩
      · unfold RawCall.run
        dsimp only
        rw [inodeLseek_run mode]
      · have moved : (offset.toInt % 2 ^ 64).toNat % 2 ^ 32 = ofInt32 offset.toInt := by
          unfold ofInt32
          omega
        rw [Fits, if_pos mode, moved]
        exact (and_iff_right nothing).symm
    · refine ⟨(-1, []), s, [], ?_, rfl, (List.append_nil _).symm, ?_⟩
      · unfold RawCall.run
        dsimp only
        rw [inodeLseek_refused mode]
      · rw [Fits, if_neg mode]
        exact (and_iff_right nothing).symm

/-- Any calls stay inside the disk exactly if they fit. -/
theorem runRaw_spec (rd : Ramdisk) (s : RawFile) (calls : List RawCall) :
    ∃ results s' new, runRaw rd calls s = .ok (results, s') ∧ s'.ram.touched = s.ram.touched ++ new ∧
      (Fits rd s.file.flags (s.file.offset % 2 ^ 32) calls ↔ ∀ range ∈ new, Inside rd range) := by
  induction calls generalizing s with
  | nil => exact ⟨[], s, [], rfl, (List.append_nil _).symm, iff_of_true trivial nofun⟩
  | cons call calls ih =>
    obtain ⟨r, s₁, new₁, run₁, flags₁, touched₁, fits₁⟩ := call.run_spec rd s calls
    obtain ⟨results, s₂, new₂, run₂, touched₂, fits₂⟩ := ih s₁
    refine ⟨r :: results, s₂, new₁ ++ new₂, ?_, ?_, ?_⟩
    · rw [runRaw, run₁, ok_bind]
      dsimp only
      rw [run₂]
      rfl
    · rw [touched₂, touched₁, List.append_assoc]
    · rw [fits₁, ← flags₁, fits₂, List.forall_mem_append]

/-- Reads that fit yield the bytes of the disk. -/
theorem runRaw_reads {results : List (Int × List UInt8)} {s' : RawFile} {sizes : List UInt32} {pos : Nat}
    (mode : s.file.flags = .fileRead) (at' : s.file.offset % 2 ^ 32 = pos)
    (fits : Fits rd .fileRead pos (sizes.map .read)) (run : runRaw rd (sizes.map .read) s = .ok (results, s')) :
    results.map Prod.snd = sequential ((diskBytes rd s.ram.mem).drop pos) (sizes.map UInt32.toNat) ∧
      ∀ r ∈ results, ofInt32 r.1 = r.2.length := by
  induction sizes generalizing s pos results with
  | nil =>
    cases run
    exact ⟨rfl, nofun⟩
  | cons size sizes ih =>
    have order := rd.order
    have inside := rd.fits
    have small := size.toNat_lt
    rw [List.map_cons, Fits, if_pos rfl, size_eq_zero] at fits
    obtain ⟨here, rest⟩ := fits
    rw [List.map_cons, runRaw, run_read mode, ok_bind] at run
    obtain ⟨⟨results', s₁⟩, run', done⟩ := bind_eq_ok.1 run
    cases done
    have moved : (s.moved rd size.toNat s.ram.mem).file.offset % 2 ^ 32 = (pos + size.toNat) % 2 ^ 32 := by
      rw [← at']
      exact addOffset_toInt32 ..
    obtain ⟨same, counts⟩ := ih (s := s.moved rd size.toNat s.ram.mem) mode moved rest run'
    change results'.map Prod.snd = sequential ((diskBytes rd s.ram.mem).drop _) _ at same
    have read : bytes (fun i => s.ram.mem (rd.addr (offsetArg s.file.offset) + i)) size.toNat =
        ((diskBytes rd s.ram.mem).drop pos).take size.toNat := by
      unfold diskBytes
      rw [take_drop_bytes, rd.addr_offsetArg, at']
      rcases here with none | ends
      · rw [none, Nat.zero_min]
        rfl
      · unfold Ramdisk.size at ends ⊢
        rw [Nat.min_eq_left (by omega), Nat.mod_eq_of_lt (by omega)]
        simp only [Nat.add_assoc]
    have after : ((diskBytes rd s.ram.mem).drop pos).drop size.toNat =
        (diskBytes rd s.ram.mem).drop ((pos + size.toNat) % 2 ^ 32) := by
      rw [List.drop_drop]
      rcases here with none | ends
      · rw [none, Nat.add_zero, ← at', Nat.mod_mod]
      · unfold Ramdisk.size at ends
        rw [Nat.mod_eq_of_lt (by omega)]
    refine ⟨?_, List.forall_mem_cons.2 ⟨?_, counts⟩⟩
    · rw [List.map_cons, same, List.map_cons, sequential, after, read]
    · dsimp only
      rw [length_bytes]
      unfold toInt32 ofInt32
      split <;> omega

/-- On an open raw file calls stay inside the disk, and read it from its start to its end, exactly if each
of them ends in the disk. -/
theorem raw_file_iff (rd : Ramdisk) (m : Mem) {flags : AccessFlag} {f : DevFile} (opened : inodeOpen newFile flags = (0, f))
    (calls : List RawCall) : RawFileRight rd m f calls ↔ Fits rd f.flags 0 calls := by
  have start : f.offset = 0 := by
    cases flags <;> cases opened <;> rfl
  obtain ⟨results, s, new, run, touched, fits⟩ := runRaw_spec rd ⟨f, ⟨m, []⟩⟩ calls
  rw [start, Nat.zero_mod] at fits
  rw [List.nil_append] at touched
  constructor
  · rintro ⟨results', s', run', inside, -⟩
    obtain ⟨-, rfl⟩ := Prod.mk.inj (Except.ok.inj (run.symm.trans run'))
    exact fits.2 (touched ▸ inside)
  · intro all
    refine ⟨results, s, run, touched ▸ fits.1 all, ?_⟩
    rintro sizes mode rfl
    exact runRaw_reads mode (by rw [start]; rfl) (mode ▸ all) run

end Calls

/-- A RAM disk of four bytes -/
def smallDisk : Ramdisk where
  start := 16
  stop := 20
  order := by decide
  fits := by decide

/-- Each byte of the memory is its own address. -/
def ownAddress : Mem := fun x => UInt8.ofNat x

/-- A raw file opened for reading -/
def openRaw : DevFile := ⟨.fileRead, 0⟩

/-- Two reads that fit -/
theorem raw_file_two_reads : RawFileRight smallDisk ownAddress openRaw [.read 3, .read 1] :=
  (raw_file_iff smallDisk ownAddress (show inodeOpen newFile .fileRead = (0, openRaw) from rfl) _).2
    (by simp [Fits, smallDisk, openRaw, Ramdisk.size])

/-- Reading the whole disk and then on returns 4 again, for bytes after the disk. -/
theorem raw_file_reads_on : ¬ RawFileRight smallDisk ownAddress openRaw [.read 4, .read 4] := by
  rintro ⟨results, s, run, -, reads⟩
  cases run
  have := (reads [4, 4] rfl rfl).1
  revert this
  decide

end OsLab.Kernel.Devices
