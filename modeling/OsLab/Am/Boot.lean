import OsLab.Lib.Memory
import OsLab.Lib.Overlay

/-!
# The boot loader (`abstract-machine/am/src/x86/qemu/boot/main.c`)

The first sector of the disk is the loader, the rest is the file it loads. Memory is flat, and pointers wrap at `2 ^ 32`.
The disk is the ATA controller at the ports `0x1F0` to `0x1F7`: it has the registers of a sector number, says for a while
that it is busy when it has got a command, and then gives the words of the sector. A loop gets `turns` turns to end.
-/

namespace OsLab.Am.Boot

open OsLab.Memory OsLab.Overlay

/-- The bytes of each sector, and how often the status says busy before a sector can be read. -/
structure Disk where
  content : Nat → Mem
  latency : Nat → Nat

/-- The controller: the registers `0x1F3` to `0x1F6`, how often its status still says busy, the sector that is read, and the
word that comes next. The number of sectors in `0x1F2` is always 1. -/
structure Ide where
  low : UInt8
  mid : UInt8
  high : UInt8
  drive : UInt8
  busy : Nat
  sector : Nat
  word : Nat

structure Machine where
  memory : Mem
  ide : Ide

/-- The number of the sector in the registers. -/
def Ide.lba (ide : Ide) : Nat :=
  ide.low.toNat + 2 ^ 8 * ide.mid.toNat + 2 ^ 16 * ide.high.toNat + 2 ^ 24 * (ide.drive &&& 0x0F).toNat

def inByte (port : Nat) (ide : Ide) : UInt8 × Ide :=
  if port = 0x1F7 then if ide.busy = 0 then (0x40, ide) else (0x80, { ide with busy := ide.busy - 1 })
  else (0, ide)

def inLong (disk : Disk) (port : Nat) (ide : Ide) : Nat × Ide :=
  if port = 0x1F0 then (read32 (disk.content ide.sector) (4 * ide.word), { ide with word := ide.word + 1 })
  else (0, ide)

def outByte (disk : Disk) (port : Nat) (data : UInt8) (ide : Ide) : Ide :=
  if port = 0x1F3 then { ide with low := data }
  else if port = 0x1F4 then { ide with mid := data }
  else if port = 0x1F5 then { ide with high := data }
  else if port = 0x1F6 then { ide with drive := data }
  else if port = 0x1F7 ∧ data = 0x20 then { ide with busy := disk.latency ide.lba, sector := ide.lba, word := 0 }
  else ide

def SECTSIZE : Nat := 512

/-- `while ((in_byte(0x1F7) & 0xC0) != 0x40);` -/
def waitdisk : Nat → Ide → Option Ide
  | 0, _ => none
  | turns + 1, ide =>
    let (data, ide) := inByte 0x1F7 ide
    if data &&& 0xC0 ≠ 0x40 then waitdisk turns ide else some ide

/-- The first turns of the loop of `readsect`. -/
def readWords (disk : Disk) (dst : Nat) : Nat → Machine → Machine
  | 0, m => m
  | i + 1, m =>
    let m := readWords disk dst i m
    let (data, ide) := inLong disk 0x1F0 m.ide
    ⟨write32 m.memory ((dst + 4 * i) % 2 ^ 32) data, ide⟩

def readsect (disk : Disk) (turns : Nat) (m : Machine) (dst : Nat) (offset : Int) : Option Machine := do
  let ide ← waitdisk turns m.ide
  let ide := outByte disk 0x1F2 1 ide
  let ide := outByte disk 0x1F3 (UInt8.ofInt offset) ide
  let ide := outByte disk 0x1F4 (UInt8.ofInt (offset / 2 ^ 8)) ide
  let ide := outByte disk 0x1F5 (UInt8.ofInt (offset / 2 ^ 16)) ide
  let ide := outByte disk 0x1F6 (UInt8.ofInt (offset / 2 ^ 24) ||| 0xE0) ide
  let ide := outByte disk 0x1F7 0x20 ide
  let ide ← waitdisk turns ide
  some (readWords disk dst (SECTSIZE / 4) ⟨m.memory, ide⟩)

/-- The loop of `readseg`. -/
def readsegLoop (disk : Disk) (turns epa : Nat) : Nat → Nat → Int → Machine → Option Machine
  | 0, _, _, _ => none
  | fuel + 1, pa, offset, m =>
    if pa < epa then do
      let m ← readsect disk turns m pa offset
      readsegLoop disk turns epa fuel ((pa + SECTSIZE) % 2 ^ 32) (offset + 1) m
    else some m

def readseg (disk : Disk) (turns : Nat) (m : Machine) (pa : Nat) (count offset : Int) : Option Machine :=
  let epa := ofInt32 (pa + count)
  let pa := ofInt32 (pa - offset.tmod SECTSIZE)
  let offset := offset.tdiv SECTSIZE + 1
  readsegLoop disk turns epa turns pa offset m

/-- `for (i = pa + ph->filesz; i < pa + ph->memsz; *i ++ = 0);`, where the bound is read in each turn -/
def zeroLoop (ph pa : Nat) : Nat → Nat → Mem → Option Mem
  | 0, _, _ => none
  | fuel + 1, i, m =>
    if i < (pa + read32 m (ph + 20)) % 2 ^ 32 then zeroLoop ph pa fuel ((i + 1) % 2 ^ 32) (store m i 1 fun _ => 0)
    else some m

/-- The loop of `bootmain`: `off`, `paddr`, `filesz` and `memsz` are the words at 4, 12, 16 and 20 of a `ProgramHeader`. -/
def loadLoop (disk : Disk) (turns eph : Nat) : Nat → Nat → Machine → Option Machine
  | 0, _, _ => none
  | fuel + 1, ph, m =>
    if ph < eph then do
      let pa := read32 m.memory (ph + 12)
      let m ← readseg disk turns m pa (toInt32 (read32 m.memory (ph + 16))) (toInt32 (read32 m.memory (ph + 4)))
      let memory ← zeroLoop ph pa turns ((pa + read32 m.memory (ph + 16)) % 2 ^ 32) m.memory
      loadLoop disk turns eph fuel ((ph + 32) % 2 ^ 32) ⟨memory, m.ide⟩
    else some m

/-- A `uint16_t` of a header. -/
def read16 (m : Mem) (a : Nat) : Nat := (m a).toNat + 2 ^ 8 * (m (a + 1)).toNat

/-- `(struct ELFHeader*)0x8000` -/
def elf : Nat := 0x8000

/-- `bootmain`: the machine when it calls the entry, and the entry. -/
def bootmain (disk : Disk) (turns : Nat) (m : Machine) : Option (Machine × Nat) :=
  if readInt32 m.memory 0x7000 = 1 then some (m, read32 m.memory 0x7004)
  else do
    let m ← readseg disk turns m elf 4096 0
    let ph := (elf + read32 m.memory (elf + 28)) % 2 ^ 32
    let eph := (ph + 32 * read16 m.memory (elf + 44)) % 2 ^ 32
    let m ← loadLoop disk turns eph turns ph m
    some (m, read32 m.memory (elf + 24))

/-! ## The disk -/

theorem waitdisk_ready {turns : Nat} {ide : Ide} (ready : ide.busy < turns) : waitdisk turns ide = some { ide with busy := 0 } := by
  induction turns generalizing ide with
  | zero => omega
  | succ turns ih =>
    rw [waitdisk, inByte, if_pos rfl]
    by_cases free : ide.busy = 0
    · rw [if_pos free]
      simp only [← free]
      rfl
    · rw [if_neg free]
      exact @ih { ide with busy := ide.busy - 1 } (by simp only []; omega)


theorem toNat_ofInt_natCast (n : Nat) : (UInt8.ofInt n).toNat = n % 2 ^ 8 := by
  unfold UInt8.ofInt
  rw [UInt8.toNat_ofNat']
  omega

/-- The four bits of the number in the register of the drive. -/
theorem drive_bits (b : UInt8) : ((b ||| 0xE0) &&& 0x0F).toNat = b.toNat % 2 ^ 4 := by
  have ours : (0xE0 : UInt8).toNat = 224 ∧ (0x0F : UInt8).toNat = 2 ^ 4 - 1 := ⟨rfl, rfl⟩
  rw [UInt8.toNat_and, UInt8.toNat_or, ours.1, ours.2, Nat.and_or_distrib_right, Nat.and_two_pow_sub_one_eq_mod]
  exact Nat.or_zero _

/-- The registers hold the number of every sector below `2 ^ 28`. -/
theorem lba_of {n : Nat} (small : n < 2 ^ 28) (busy sector word : Nat) :
    Ide.lba ⟨UInt8.ofInt n, UInt8.ofInt (n / 2 ^ 8 : Nat), UInt8.ofInt (n / 2 ^ 16 : Nat),
      UInt8.ofInt (n / 2 ^ 24 : Nat) ||| 0xE0, busy, sector, word⟩ = n := by
  unfold Ide.lba
  simp only [drive_bits, toNat_ofInt_natCast]
  omega

theorem readWords_spec (disk : Disk) {dst n : Nat} (fits : dst + 4 * n ≤ 2 ^ 32) (m : Machine) :
    readWords disk dst n m =
      ⟨store m.memory dst (4 * n) fun k => disk.content m.ide.sector (4 * m.ide.word + k),
        { m.ide with word := m.ide.word + n }⟩ := by
  induction n with
  | zero => rw [readWords, Nat.mul_zero, store_zero]; rfl
  | succ n ih =>
    have next : (fun k => disk.content m.ide.sector (4 * (m.ide.word + n) + k)) =
        fun i => (fun k => disk.content m.ide.sector (4 * m.ide.word + k)) (4 * n + i) := by
      funext i
      rw [Nat.mul_add, Nat.add_assoc]
    rw [readWords, ih (by omega)]
    simp only [inLong, if_true]
    rw [write32_read32, Nat.mod_eq_of_lt (by omega), next, store_append]
    rfl

section Reading

variable {disk : Disk} {turns : Nat} {m : Machine} (ready : ∀ s, disk.latency s < turns) (free : m.ide.busy < turns)

include ready free

/-- A sector is copied whole. -/
theorem readsect_spec (dst n : Nat) (small : n < 2 ^ 28) (fits : dst + 512 ≤ 2 ^ 32) :
    ∃ ide, readsect disk turns m dst n = some ⟨store m.memory dst 512 (disk.content n), ide⟩ ∧ ide.busy < turns := by
  have whole : SECTSIZE / 4 = 128 := rfl
  have command : ∀ ide : Ide, outByte disk 0x1F7 0x20 (outByte disk 0x1F6 (UInt8.ofInt ((n : Int) / 2 ^ 24) ||| 0xE0)
      (outByte disk 0x1F5 (UInt8.ofInt ((n : Int) / 2 ^ 16)) (outByte disk 0x1F4 (UInt8.ofInt ((n : Int) / 2 ^ 8))
        (outByte disk 0x1F3 (UInt8.ofInt n) (outByte disk 0x1F2 1 ide))))) =
      ⟨UInt8.ofInt n, UInt8.ofInt (n / 2 ^ 8 : Nat), UInt8.ofInt (n / 2 ^ 16 : Nat), UInt8.ofInt (n / 2 ^ 24 : Nat) ||| 0xE0,
        disk.latency n, n, 0⟩ := by
    intro ide
    have number := lba_of small ide.busy ide.sector ide.word
    change Ide.mk _ _ _ _ (disk.latency (Ide.lba ⟨UInt8.ofInt n, UInt8.ofInt (n / 2 ^ 8 : Nat), UInt8.ofInt (n / 2 ^ 16 : Nat),
      UInt8.ofInt (n / 2 ^ 24 : Nat) ||| 0xE0, ide.busy, ide.sector, ide.word⟩)) (Ide.lba _) 0 = _
    rw [number]
    exact congrArg (fun sector => Ide.mk _ _ _ _ _ sector _) number
  unfold readsect
  rw [waitdisk_ready free]
  simp only [Option.bind_eq_bind, Option.bind_some, command]
  rw [waitdisk_ready (ready n), Option.bind_some, whole, readWords_spec disk (by omega)]
  simp only [Nat.mul_zero, Nat.zero_add]
  exact ⟨_, rfl, Nat.zero_lt_of_lt free⟩

/-- The sectors from number `n` on are copied one behind the other. -/
theorem readsegLoop_spec {epa k fuel pa n : Nat} (count : k = (epa - pa + 511) / 512) (fits : pa + 512 * k < 2 ^ 32)
    (small : n + k ≤ 2 ^ 28) (enough : k < fuel) :
    ∃ ide, readsegLoop disk turns epa fuel pa n m =
      some ⟨store m.memory pa (512 * k) fun j => disk.content (n + j / 512) (j % 512), ide⟩ ∧ ide.busy < turns := by
  induction k generalizing m fuel pa n with
  | zero =>
    obtain ⟨fuel, rfl⟩ := Nat.exists_eq_succ_of_ne_zero (Nat.ne_of_gt enough)
    rw [readsegLoop, if_neg (by omega), Nat.mul_zero, store_zero]
    exact ⟨m.ide, rfl, free⟩
  | succ k ih =>
    obtain ⟨fuel, rfl⟩ := Nat.exists_eq_succ_of_ne_zero (Nat.ne_of_gt (Nat.zero_lt_of_lt enough))
    have more : pa < epa := by omega
    have room : pa + 512 < 2 ^ 32 := Nat.lt_of_le_of_lt (by omega) fits
    obtain ⟨ide, sector, free'⟩ := readsect_spec ready free pa n (by omega) (by omega)
    have next : ((n : Int) + 1) = ((n + 1 : Nat) : Int) := rfl
    have here : store m.memory pa 512 (disk.content n) =
        store m.memory pa 512 fun j => disk.content (n + j / 512) (j % 512) := by
      refine store_congr fun j below => ?_
      rw [Nat.div_eq_of_lt below, Nat.mod_eq_of_lt below, Nat.add_zero]
    have behind : (fun j => disk.content (n + 1 + j / 512) (j % 512)) =
        fun j => (fun j => disk.content (n + j / 512) (j % 512)) (512 + j) := by
      funext j
      have place : n + (512 + j) / 512 = n + 1 + j / 512 ∧ (512 + j) % 512 = j % 512 := by omega
      simp only [place.1, place.2]
    obtain ⟨ide', rest, free''⟩ := @ih ⟨_, ide⟩ free' fuel (pa + 512) (n + 1) (by omega) (by omega) (by omega) (by omega)
    rw [readsegLoop, if_pos more, sector, Option.bind_eq_bind, Option.bind_some, next, SECTSIZE,
      Nat.mod_eq_of_lt room, rest, here, behind, store_append, Nat.mul_succ, Nat.add_comm 512]
    exact ⟨ide', rfl, free''⟩

end Reading

/-! ## The file -/

/-- The file behind the loader. -/
def file (disk : Disk) : Mem := fun n => disk.content (n / 512 + 1) (n % 512)

/-- The sectors that are read for `count` bytes at `off`. -/
def sectors (count off : Nat) : Nat := (count + off % 512 + 511) / 512

/-- `readseg` reads whole sectors: what it is asked for, and the bytes around it. -/
theorem readseg_spec {disk : Disk} {turns : Nat} {m : Machine} (patient : 2 ^ 32 ≤ turns)
    (ready : ∀ s, disk.latency s < turns) (free : m.ide.busy < turns) (pa count off : Nat) (start : off % 512 ≤ pa)
    (fits : pa + count + 512 ≤ 2 ^ 32) (small : off < 2 ^ 31) :
    ∃ ide, readseg disk turns m pa count off =
      some ⟨store m.memory (pa - off % 512) (512 * sectors count off) fun j => file disk (off - off % 512 + j), ide⟩ ∧
        ide.busy < turns := by
  have stop : ofInt32 ((pa : Int) + count) = pa + count := ofInt32_natCast (n := pa + count) (by omega)
  have first : ofInt32 ((pa : Int) - (off : Int).tmod SECTSIZE) = pa - off % 512 := by
    rw [SECTSIZE, ← Int.ofNat_tmod, ← Int.ofNat_sub start]
    exact ofInt32_natCast (by omega)
  have number : (off : Int).tdiv SECTSIZE + 1 = ((off / 512 + 1 : Nat) : Int) := rfl
  have bytes : (fun j => file disk (off - off % 512 + j)) = fun j => disk.content (off / 512 + 1 + j / 512) (j % 512) := by
    funext j
    have place : (off - off % 512 + j) / 512 + 1 = off / 512 + 1 + j / 512 ∧ (off - off % 512 + j) % 512 = j % 512 := by omega
    rw [file, place.1, place.2]
  have many : sectors count off = (pa + count - (pa - off % 512) + 511) / 512 := by
    unfold sectors
    omega
  unfold readseg
  simp only []
  rw [stop, first, number, bytes]
  unfold sectors at many ⊢
  exact readsegLoop_spec ready free many (by omega) (by omega) (by omega)

/-- What a program header says. The code reads no other fields, not even the type. -/
structure ProgramHeader where
  off : Nat
  paddr : Nat
  filesz : Nat
  memsz : Nat

/-- The `ProgramHeader` at an address. -/
def programHeader (m : Mem) (ph : Nat) : ProgramHeader :=
  ⟨read32 m (ph + 4), read32 m (ph + 12), read32 m (ph + 16), read32 m (ph + 20)⟩

/-- `e_phoff` and `e_phnum` of a file. -/
def phoff (f : Mem) : Nat := read32 f 28

def phnum (f : Mem) : Nat := read16 f 44

/-- The program header of a number. -/
def segment (f : Mem) (k : Nat) : ProgramHeader := programHeader f (phoff f + 32 * k)

def segments (f : Mem) : List ProgramHeader := (List.range (phnum f)).map (segment f)

/-- A segment in memory: its bytes of the file, and zeros behind them. -/
def image (f : Mem) (s : ProgramHeader) (x : Nat) : Option UInt8 :=
  if s.paddr ≤ x ∧ x < s.paddr + s.filesz then some (f (s.off + x - s.paddr))
  else if s.paddr + s.filesz ≤ x ∧ x < s.paddr + s.memsz then some 0
  else none

/-- What loading a segment leaves: the zeros, and below them whole sectors. -/
def placed (f : Mem) (s : ProgramHeader) (x : Nat) : Option UInt8 :=
  if s.paddr + s.filesz ≤ x ∧ x < s.paddr + s.memsz then some 0
  else if s.paddr ≤ x + s.off % 512 ∧ x + s.off % 512 < s.paddr + 512 * sectors s.filesz s.off then
    some (f (s.off + x - s.paddr))
  else none

/-- A segment that the loader can load: its numbers are no negative ints, and it lies between the headers and the end of
memory, with the rest of its sectors. -/
structure ProgramHeader.Loads (s : ProgramHeader) : Prop where
  off : s.off < 2 ^ 31
  filesz : s.filesz < 2 ^ 31
  above : elf + 4096 + s.off % 512 ≤ s.paddr
  below : s.paddr + s.filesz + 512 ≤ 2 ^ 32
  zeros : s.paddr + s.memsz < 2 ^ 32

/-- A file the loader can load: the headers are in its first 4096 bytes, and loading a segment spares those before it. -/
structure Bootable (f : Mem) : Prop where
  headers : phoff f + 32 * phnum f ≤ 4096
  loads : ∀ s ∈ segments f, s.Loads
  spares : (segments f).Pairwise fun s t => Spares (image f s) (placed f t)

theorem placed_image {f : Mem} {s : ProgramHeader} {x : Nat} {b : UInt8} (byte : image f s x = some b) : placed f s x = some b := by
  unfold image at byte
  unfold placed sectors
  split at byte
  · rw [if_neg (by omega), if_pos (by omega)]
    exact byte
  · split at byte
    · rw [if_pos ‹_›]
      exact byte
    · cases byte

theorem placed_below {f : Mem} {s : ProgramHeader} (loads : s.Loads) {x : Nat} (below : x < elf + 4096) : placed f s x = none := by
  have above := loads.above
  unfold placed
  rw [if_neg (by omega), if_neg (by omega)]

/-- The two loops for a segment lay it over memory. -/
theorem lay_placed {f m : Mem} {s : ProgramHeader} (start : s.off % 512 ≤ s.paddr) :
    store (store m (s.paddr - s.off % 512) (512 * sectors s.filesz s.off) fun j => f (s.off - s.off % 512 + j))
      (s.paddr + s.filesz) (s.memsz - s.filesz) (fun _ => 0) = lay (placed f s) m := by
  funext x
  have rest : s.off % 512 ≤ s.off := Nat.mod_le _ _
  by_cases zero : s.paddr + s.filesz ≤ x ∧ x < s.paddr + s.memsz
  · have byte : placed f s x = some 0 := if_pos zero
    rw [store_inside zero.1 (by omega), lay_some byte]
  · rw [store_outside (by omega)]
    by_cases read : s.paddr ≤ x + s.off % 512 ∧ x + s.off % 512 < s.paddr + 512 * sectors s.filesz s.off
    · have byte : placed f s x = some (f (s.off + x - s.paddr)) := by rw [placed, if_neg zero, if_pos read]
      rw [store_inside (by omega) (by omega), lay_some byte,
        show s.off - s.off % 512 + (x - (s.paddr - s.off % 512)) = s.off + x - s.paddr by omega]
    · rw [store_outside (by omega), lay_none (by rw [placed, if_neg zero, if_neg read])]

/-! ## The loops of `bootmain` -/

theorem zeroLoop_spec {ph pa memsz k : Nat} {fuel i : Nat} {m : Mem} (header : read32 m (ph + 20) = memsz)
    (count : pa + memsz - i = k) (above : ph + 24 ≤ i) (fits : pa + memsz < 2 ^ 32) (enough : k < fuel) :
    zeroLoop ph pa fuel i m = some (store m i k fun _ => 0) := by
  induction k generalizing fuel i m with
  | zero =>
    obtain ⟨fuel, rfl⟩ := Nat.exists_eq_succ_of_ne_zero (Nat.ne_of_gt enough)
    rw [zeroLoop, header, Nat.mod_eq_of_lt fits, if_neg (by omega), store_zero]
  | succ k ih =>
    obtain ⟨fuel, rfl⟩ := Nat.exists_eq_succ_of_ne_zero (Nat.ne_of_gt (Nat.zero_lt_of_lt enough))
    have header' : read32 (store m i 1 fun _ => 0) (ph + 20) = memsz := by rw [read32_store (by omega), header]
    rw [zeroLoop, header, Nat.mod_eq_of_lt fits, if_pos (by omega), Nat.mod_eq_of_lt (by omega),
      ih header' (by omega) (by omega) (by omega), store_append m i 1 k fun _ => 0, Nat.add_comm]

/-- The first 4096 bytes of the file are at `elf`. -/
def Headed (f m : Mem) : Prop := ∀ x < 4096, m (elf + x) = f x

theorem Headed.read32 {f m : Mem} (headed : Headed f m) {a : Nat} (inside : a + 4 ≤ 4096) :
    Memory.read32 m (elf + a) = Memory.read32 f a := by
  have byte : ∀ k < 4, m (elf + a + k) = f (a + k) := fun k small => by
    rw [Nat.add_assoc]
    exact headed (a + k) (by omega)
  unfold Memory.read32
  rw [headed a (by omega), byte 1 (by omega), byte 2 (by omega), byte 3 (by omega)]

theorem Headed.programHeader {f m : Mem} (headed : Headed f m) {a : Nat} (inside : a + 32 ≤ 4096) :
    programHeader m (elf + a) = programHeader f a := by
  have field : ∀ k, k + 4 ≤ 32 → Memory.read32 m (elf + a + k) = Memory.read32 f (a + k) := fun k small => by
    rw [Nat.add_assoc]
    exact headed.read32 (by omega)
  unfold Boot.programHeader
  rw [field 4 (by omega), field 12 (by omega), field 16 (by omega), field 20 (by omega)]

/-- Nothing that is laid reaches the headers. -/
theorem Headed.lay {f m : Mem} (headed : Headed f m) {o : Nat → Option UInt8} (apart : ∀ x < elf + 4096, o x = none) :
    Headed f (lay o m) := by
  intro x below
  rw [lay_none (apart _ (Nat.add_lt_add_left below elf)), headed x below]

theorem toInt32_small {n : Nat} (small : n < 2 ^ 31) : toInt32 n = n := by
  unfold toInt32
  exact if_pos small

section Loading

variable {disk : Disk} {turns : Nat} (patient : 2 ^ 32 ≤ turns) (ready : ∀ s, disk.latency s < turns)

include patient ready

/-- The turn of a segment lays it over memory. -/
theorem loadLoop_step {m : Machine} {s : ProgramHeader} (eph fuel a : Nat) (headed : Headed (file disk) m.memory)
    (free : m.ide.busy < turns) (inside : a + 32 ≤ 4096) (header : programHeader (file disk) a = s) (loads : s.Loads)
    (more : elf + a < eph) :
    ∃ ide, loadLoop disk turns eph (fuel + 1) (elf + a) m =
      loadLoop disk turns eph fuel (elf + (a + 32)) ⟨lay (placed (file disk) s) m.memory, ide⟩ ∧ ide.busy < turns := by
  have there := headed.programHeader inside
  rw [header] at there
  have above := loads.above
  have below := loads.below
  have zeros := loads.zeros
  have memory : elf = 0x8000 := rfl
  have off : read32 m.memory (elf + a + 4) = s.off := congrArg ProgramHeader.off there
  have paddr : read32 m.memory (elf + a + 12) = s.paddr := congrArg ProgramHeader.paddr there
  have filesz : read32 m.memory (elf + a + 16) = s.filesz := congrArg ProgramHeader.filesz there
  have memsz : read32 m.memory (elf + a + 20) = s.memsz := congrArg ProgramHeader.memsz there
  obtain ⟨ide, read, free'⟩ := readseg_spec patient ready free s.paddr s.filesz s.off (by omega) below loads.off
  generalize step : (store m.memory (s.paddr - s.off % 512) (512 * sectors s.filesz s.off) fun j =>
    file disk (s.off - s.off % 512 + j)) = copied at read
  have kept : ∀ b, b + 4 ≤ elf + 4096 → read32 copied b = read32 m.memory b := by
    intro b low
    rw [← step]
    exact read32_store (by omega)
  have filesz' : read32 copied (elf + a + 16) = s.filesz := (kept _ (by omega)).trans filesz
  have memsz' : read32 copied (elf + a + 20) = s.memsz := (kept _ (by omega)).trans memsz
  have zero : zeroLoop (elf + a) s.paddr turns (s.paddr + s.filesz) copied =
      some (store copied (s.paddr + s.filesz) (s.memsz - s.filesz) fun _ => 0) :=
    zeroLoop_spec memsz' (by omega) (by omega) zeros (by omega)
  rw [loadLoop, if_pos more]
  simp only [off, paddr, filesz, toInt32_small loads.off, toInt32_small loads.filesz]
  rw [read, Option.bind_eq_bind, Option.bind_some]
  simp only []
  rw [filesz', Nat.mod_eq_of_lt (by omega), zero, Option.bind_eq_bind, Option.bind_some, Nat.mod_eq_of_lt (by omega),
    Nat.add_assoc elf a 32, ← step, lay_placed (by omega)]
  exact ⟨ide, rfl, free'⟩

/-- The loop lays the rest of the segments over memory. -/
theorem loadLoop_spec {m : Machine} {n k fuel : Nat} (headed : Headed (file disk) m.memory) (free : m.ide.busy < turns)
    (inside : phoff (file disk) + 32 * (k + n) ≤ 4096)
    (loads : ∀ s ∈ (List.range' k n).map (segment (file disk)), s.Loads) (enough : n < fuel) :
    ∃ ide, loadLoop disk turns (elf + (phoff (file disk) + 32 * (k + n))) fuel (elf + (phoff (file disk) + 32 * k)) m =
      some ⟨layAll (placed (file disk)) ((List.range' k n).map (segment (file disk))) m.memory, ide⟩ := by
  induction n generalizing k fuel m with
  | zero =>
    obtain ⟨fuel, rfl⟩ := Nat.exists_eq_succ_of_ne_zero (Nat.ne_of_gt enough)
    rw [loadLoop, Nat.add_zero, if_neg (Nat.lt_irrefl _)]
    exact ⟨m.ide, rfl⟩
  | succ n ih =>
    obtain ⟨fuel, rfl⟩ := Nat.exists_eq_succ_of_ne_zero (Nat.ne_of_gt (Nat.zero_lt_of_lt enough))
    rw [List.range'_succ, List.map_cons] at loads ⊢
    have first := loads _ List.mem_cons_self
    obtain ⟨ide, turn, free'⟩ := loadLoop_step patient ready (elf + (phoff (file disk) + 32 * (k + (n + 1)))) fuel
      (phoff (file disk) + 32 * k) headed free (by omega) rfl first (by omega)
    have next : phoff (file disk) + 32 * k + 32 = phoff (file disk) + 32 * (k + 1) := by omega
    have stop : k + (n + 1) = k + 1 + n := by omega
    rw [turn, next, stop, layAll_cons]
    rw [stop] at inside
    exact ih (m := ⟨_, ide⟩) (headed.lay fun x below => placed_below first below) free' inside
      (fun s member => loads s (List.mem_cons_of_mem _ member)) (Nat.lt_of_succ_lt_succ enough)

end Loading

/-- What the loader leaves of a memory `m`: each segment has its bytes of the file and zeros behind them, the headers are at
`elf`, and nothing else has changed where no sector of a segment was read. -/
structure Loaded (f m m' : Mem) : Prop where
  segments : ∀ s ∈ segments f, ∀ x b, image f s x = some b → m' x = b
  headers : ∀ x < 4096, m' (elf + x) = f x
  rest : ∀ x, x < elf ∨ elf + 4096 ≤ x → (∀ s ∈ Boot.segments f, placed f s x = none) → m' x = m x

/-- On the first cpu the loader reads every bootable file into memory and calls its entry. -/
theorem bootmain_loads {disk : Disk} {turns : Nat} {m : Machine} (patient : 2 ^ 32 ≤ turns)
    (ready : ∀ s, disk.latency s < turns) (free : m.ide.busy < turns) (first : readInt32 m.memory 0x7000 ≠ 1)
    (good : Bootable (file disk)) :
    ∃ m', bootmain disk turns m = some (m', read32 (file disk) 24) ∧ Loaded (file disk) m.memory m'.memory := by
  have memory : elf = 0x8000 := rfl
  have headers := good.headers
  obtain ⟨ide, read, free'⟩ := readseg_spec patient ready free elf 4096 0 (Nat.zero_le _) (by decide) (by decide)
  have size : 512 * sectors 4096 0 = 4096 := rfl
  rw [size, Nat.zero_mod, Nat.sub_zero, Nat.sub_zero] at read
  simp only [Nat.zero_add] at read
  have headed : Headed (file disk) (store m.memory elf 4096 (file disk)) := by
    intro x below
    rw [store_inside (Nat.le_add_right _ _) (by omega), Nat.add_sub_cancel_left]
  have phnum16 : read16 (store m.memory elf 4096 (file disk)) (elf + 44) = phnum (file disk) := by
    rw [read16, Nat.add_assoc, headed 44 (by omega), headed (44 + 1) (by omega)]
    rfl
  have loads : ∀ s ∈ (List.range' 0 (phnum (file disk))).map (segment (file disk)), s.Loads := by
    rw [← List.range_eq_range']
    exact good.loads
  obtain ⟨ide', loop⟩ := @loadLoop_spec disk turns patient ready ⟨store m.memory elf 4096 (file disk), ide⟩ (phnum (file disk)) 0
    turns headed free' (by omega) loads (by omega)
  have entry := fun m' (headed : Headed (file disk) m') => @Headed.read32 _ m' headed 24 (by omega)
  have rest : ∀ s ∈ segments (file disk), ∀ x < elf + 4096, placed (file disk) s x = none :=
    fun s member x below => placed_below (good.loads s member) below
  have headed' : Headed (file disk) (layAll (placed (file disk)) (segments (file disk)) (store m.memory elf 4096 (file disk))) := by
    intro x below
    rw [layAll_none fun s member => rest s member _ (by omega), headed x below]
  refine ⟨⟨layAll (placed (file disk)) (segments (file disk)) (store m.memory elf 4096 (file disk)), ide'⟩, ?_, ?_, headed', ?_⟩
  · rw [bootmain, if_neg first]
    have start : readseg disk turns m elf 4096 0 = some ⟨store m.memory elf 4096 (file disk), ide⟩ := read
    have phoff32 := headed.read32 (a := 28) (by omega)
    have first_header : (elf + read32 (file disk) 28) % 2 ^ 32 = elf + phoff (file disk) := Nat.mod_eq_of_lt (by
      change elf + phoff (file disk) < 2 ^ 32
      omega)
    have stop : (elf + phoff (file disk) + 32 * phnum (file disk)) % 2 ^ 32 =
        elf + (phoff (file disk) + 32 * phnum (file disk)) := by omega
    rw [← List.range_eq_range', Nat.mul_zero, Nat.add_zero, Nat.zero_add] at loop
    change _ = some (Machine.mk (layAll (placed (file disk)) (segments (file disk)) _) ide') at loop
    rw [start, Option.bind_eq_bind, Option.bind_some]
    simp only []
    rw [phoff32, phnum16, first_header, stop, loop, Option.bind_some, entry _ headed']
  · intro s member x b byte
    exact layAll_keeps (fun s _ x b => placed_image) good.spares member byte
  · intro x outside none
    change layAll _ _ _ x = _
    rw [layAll_none none, store_outside (by omega)]

/-- The bytes 1, 2, 3 at 84, to be loaded at `0x100000` with two zeros behind them. -/
def smallFile : Mem := fun n =>
  match n with
  | 26 => 0x10
  | 28 => 52
  | 44 => 1
  | 56 => 84
  | 66 => 0x10
  | 68 => 3
  | 72 => 5
  | 84 => 1
  | 85 => 2
  | 86 => 3
  | _ => 0

/-- Every sector behind the loader holds that file, and is there when the status was asked twice. -/
def smallDisk : Disk := ⟨fun _ => smallFile, fun _ => 2⟩

def coldMachine : Machine := ⟨fun _ => 0, ⟨0, 0, 0, 0, 0, 0, 0⟩⟩

theorem segments_small : segments (file smallDisk) = [⟨84, 0x100000, 3, 5⟩] := rfl

theorem bootmain_loads_small : ∃ m', bootmain smallDisk (2 ^ 32) coldMachine = some (m', read32 (file smallDisk) 24) ∧
    Loaded (file smallDisk) coldMachine.memory m'.memory := by
  have good : Bootable (file smallDisk) := by
    refine ⟨by decide, ?_, ?_⟩
    · rw [segments_small]
      intro s member
      rw [List.mem_singleton.mp member]
      exact ⟨by decide, by decide, by decide, by decide, by decide⟩
    · rw [segments_small]
      exact List.pairwise_singleton _ _
  exact bootmain_loads (le_refl _) (fun _ => show 2 < 2 ^ 32 by decide) (by decide) (by decide) good

end OsLab.Am.Boot
