import OsLab.Kernel.Io.Closing

/-!
# Reading a file of procfs

`inode_read` copies with `strncpy`, which puts no NUL behind a text that it cuts, and takes the length of what it finds in
the caller's buffer for the number of characters read. So the byte behind the text decides: where it is not 0 already,
too much is returned, and the offset can move past the end of the file.
-/

namespace OsLab.Kernel.Io

open OsLab.Klib OsLab.Memory OsLab.Triples
open OsLab.Kernel.Blkfs (AccessFlag cstrAt)
open OsLab.Kernel.Vfs (fileAt fileAt_run)

/-- A call on an open file of procfs. The caller may have changed its memory before a read. -/
inductive ProcfsCall where
  | read (mem : Mem) (buf : Nat) (size : UInt32)
  | lseek (offset : Int32)

/-- Run a call on the file `tf`. -/
def ProcfsCall.run (tf : Nat) : ProcfsCall → SysM Int
  | .read mem buf size => do
    modify fun s => { s with world := { s.world with mem } }
    let f ← fileAt tf
    Procfs.inodeRead tf f buf size.toNat
  | .lseek offset => do
    let f ← fileAt tf
    Procfs.inodeLseek tf f offset.toInt

/-- `f->offset` -/
def offsetAt (s : Sys) (tf : Nat) : Nat := (s.file tf).elim 0 Vfs.File.offset

/-- What can be read from a file of this text, up to a size. -/
def available (data : CStr) (size o : Nat) : Nat := min size (data.length - o)

/-- A read returns the number of characters that are available and stores them and nothing else, and no call moves the
offset past the end of the text. -/
def ProcfsCall.Right (data : CStr) (tf : Nat) (s : Sys) (res : Int) (s' : Sys) (call : ProcfsCall) : Prop :=
  offsetAt s' tf ≤ data.length ∧
    match call with
    | .read mem buf size =>
      res = (available data size.toNat (offsetAt s tf) : Nat) ∧
        s'.world.mem = store mem buf (available data size.toNat (offsetAt s tf)) fun i => charAt data (offsetAt s tf + i)
    | .lseek _ => True

/-- Each call of a sequence is right. -/
def ReadsRight (data : CStr) (tf : Nat) : List ProcfsCall → Sys → Prop
  | [], _ => True
  | call :: calls, s => ∃ res s', call.run tf s = .ok (res, s') ∧ call.Right data tf s res s' ∧ ReadsRight data tf calls s'

/-- Each read is of a file that was opened for reading, into a buffer with a 0 behind what is available. `o` is the
offset. -/
def Ended (data : CStr) (flags : AccessFlag) : List ProcfsCall → Nat → Prop
  | [], _ => True
  | .read mem buf size :: calls, o =>
    flags = .fileRead ∧ mem (buf + available data size.toNat o) = 0 ∧
      Ended data flags calls (o + available data size.toNat o)
  | .lseek offset :: calls, o =>
    Ended data flags calls (if flags = .fileRead then min (ofInt32 offset.toInt) data.length else o)

/-- The state with another memory, and another offset of the file `f` at `tf`. -/
def movedTo (s : Sys) (tf : Nat) (f : Vfs.File Node) (mem : Mem) (offset : Nat) : Sys := { s with
  world := { s.world with mem }
  file := Function.update s.file tf (some { f with offset }) }

theorem offsetAt_movedTo (s : Sys) (tf : Nat) (f : Vfs.File Node) (mem : Mem) (offset : Nat) :
    offsetAt (movedTo s tf f mem offset) tf = offset := by
  unfold offsetAt movedTo
  dsimp only
  rw [Function.update_self]
  rfl

section Calls

variable {data : CStr} {flags : AccessFlag} {tf o : Nat} {s : Sys} {calls : List ProcfsCall} {mem : Mem} {buf : Nat}

/-- A file of procfs that is open, with its text. -/
structure OpenText (data : CStr) (flags : AccessFlag) (tf o : Nat) (s : Sys) : Prop where
  file : ∃ f addr tki, s.file tf = some f ∧ f.flags = flags ∧ f.offset = o ∧ f.inode.info = some addr ∧
    s.world.info addr = some tki ∧ tki.hasOpened = true ∧ tki.content = data ∧ tki.size = data.length
  text : 0 ∉ data
  short : data.length < 128
  inside : o ≤ data.length

/-- What `strncpy` leaves in the buffer for `strlen`, where a 0 follows. -/
theorem strlenAt_ended {rest : CStr} {n : Nat} (text : 0 ∉ rest) (inside : n ≤ rest.length) (small : n < 2 ^ 32)
    (ended : mem (buf + n) = 0) : Procfs.strncpy mem buf rest n = store mem buf n (fun i => charAt rest i) ∧
      Procfs.strlenAt (Procfs.strncpy mem buf rest n) buf = n := by
  have same : Procfs.strncpy mem buf rest n = store mem buf n fun i => charAt rest i := by
    unfold Procfs.strncpy
    split
    · next zero =>
      subst zero
      funext x
      rw [store_outside (n := 0) (by omega)]
      by_cases first : x = buf
      · subst first
        rw [store_inside (by omega) (by omega)]
        exact ended.symm
      · exact store_outside (by omega)
    · rfl
  refine ⟨same, ?_⟩
  have length : (rest.take n).length = n := by simpa using inside
  rw [same, ← length]
  refine strlenAt_eq (fun member => text (List.mem_of_mem_take member)) (by omega) fun j hj => ?_
  rw [length] at hj ⊢
  rcases Nat.lt_or_eq_of_le hj with before | rfl
  · rw [store_inside (Nat.le_add_right ..) (by omega), Nat.add_sub_cancel_left]
    simp [charAt, List.getD_eq_getElem?_getD, before]
  · rw [store_outside (by omega), ended]
    simp [charAt, List.getD_eq_getElem?_getD]

/-- A length that `strlen` finds is where a 0 is. -/
theorem strlenAt_zero {m : Mem} {a n : Nat} (length : Procfs.strlenAt m a = n) (small : n < 2 ^ 32) : m (a + n) = 0 := by
  unfold Procfs.strlenAt at length
  rw [strlen_eq] at length
  have chars := (Blkfs.cstrAt_eq_iff (Blkfs.notMem_cstrAt m a (2 ^ 32)) (by omega)).1 rfl n (Nat.le_of_eq length.symm)
  rw [chars, charAt, List.getD_eq_getElem?_getD, List.getElem?_eq_none (by omega)]
  rfl

/-- Where the byte behind is not 0, the length or the memory is wrong. -/
theorem ended_of_strlenAt {rest : CStr} {n : Nat} (small : n < 2 ^ 32)
    (length : Procfs.strlenAt (Procfs.strncpy mem buf rest n) buf = n)
    (same : Procfs.strncpy mem buf rest n = store mem buf n fun i => charAt rest i) : mem (buf + n) = 0 := by
  rw [same] at length
  have behind := strlenAt_zero length small
  rwa [store_outside (by omega)] at behind

/-- `inode_read` of an open file. -/
theorem read_run (opened : OpenText data .fileRead tf o s) (mem : Mem) (buf : Nat) (size : UInt32) :
    ∃ f, s.file tf = some f ∧ (ProcfsCall.read mem buf size).run tf s =
      .ok ((Procfs.strlenAt (Procfs.strncpy mem buf (data.drop o) (available data size.toNat o)) buf : Nat),
        movedTo s tf f (Procfs.strncpy mem buf (data.drop o) (available data size.toNat o))
          (o + Procfs.strlenAt (Procfs.strncpy mem buf (data.drop o) (available data size.toNat o)) buf)) := by
  obtain ⟨⟨f, addr, tki, file, readable, rfl, info, there, opened, rfl, size'⟩, text, short, inside⟩ := opened
  have count : (if tki.size - f.offset > size.toNat then size.toNat else tki.size - f.offset) =
      available tki.content size.toNat f.offset := by
    unfold available
    split <;> omega
  have file' : ({ s with world := { s.world with mem } } : Sys).file tf = some f := file
  have there' : ({ s with world := { s.world with mem } } : Sys).world.info addr = some tki := there
  have bound : Vfs.assert (f.offset ≤ tki.size) "Offset too large: max %d but %d" { s with world := { s.world with mem } } =
      .ok ((), { s with world := { s.world with mem } }) := by
    unfold Vfs.assert
    rw [if_pos (by omega)]
    rfl
  refine ⟨f, file, ?_⟩
  unfold ProcfsCall.run
  apply (run_bind (run_modify _)).trans
  apply (ops_file file').trans
  unfold Procfs.inodeRead
  rw [if_neg (not_not_intro readable), info, run_bind (infoAt_run there'), if_neg (by rw [opened]; decide), run_bind bound, count]
  apply (run_bind (run_modify _)).trans
  apply (run_bind (run_gets _)).trans
  rfl

theorem OpenText.offsetAt (opened : OpenText data flags tf o s) : offsetAt s tf = o := by
  obtain ⟨⟨f, addr, tki, file, -, rfl, -⟩, -⟩ := opened
  unfold Io.offsetAt
  rw [file]
  rfl

/-- The file with another offset, in another memory. -/
theorem OpenText.moved {o' : Nat} {f : Vfs.File Node} (opened : OpenText data flags tf o s) (file : s.file tf = some f)
    (inside : o' ≤ data.length) (mem : Mem) : OpenText data flags tf o' (movedTo s tf f mem o') := by
  obtain ⟨⟨f', addr, tki, file', mode, rfl, info, there, rest⟩, text, short, -⟩ := opened
  obtain rfl := Option.some.inj (file.symm.trans file')
  exact ⟨⟨_, addr, tki, Function.update_self .., mode, rfl, info, there, rest⟩, text, short, inside⟩

theorem charAt_drop (i : Nat) : charAt (data.drop o) i = charAt data (o + i) := by
  simp [charAt, List.getD_eq_getElem?_getD]

theorem available_le (data : CStr) (size o : Nat) : available data size o ≤ data.length - o := Nat.min_le_right ..

/-- A read is right where a 0 is behind what is available. -/
theorem read_right_iff (opened : OpenText data .fileRead tf o s) (buf : Nat) (size : UInt32) {res : Int} {s' : Sys}
    (run : (ProcfsCall.read mem buf size).run tf s = .ok (res, s')) :
    (ProcfsCall.read mem buf size).Right data tf s res s' ↔ mem (buf + available data size.toNat o) = 0 := by
  obtain ⟨f, file, same⟩ := read_run opened mem buf size
  cases run.symm.trans same
  have bound := available_le data size.toNat o
  have small := opened.short
  have plain : 0 ∉ data.drop o := fun member => opened.text (List.mem_of_mem_drop member)
  unfold ProcfsCall.Right
  rw [offsetAt_movedTo, opened.offsetAt]
  simp only [← charAt_drop, Nat.cast_inj]
  constructor
  · rintro ⟨-, length, stored⟩
    exact ended_of_strlenAt (by omega) length stored
  · intro ended
    obtain ⟨stored, length⟩ := strlenAt_ended plain (by simpa using bound) (by omega) ended
    have inside := opened.inside
    exact ⟨by omega, length, stored⟩

/-- A file that was opened otherwise is not read. -/
theorem read_refused (opened : OpenText data flags tf o s) (mode : flags ≠ .fileRead) (mem : Mem) (buf : Nat) (size : UInt32) :
    (ProcfsCall.read mem buf size).run tf s = .ok (-1, { s with world := { s.world with mem } }) := by
  obtain ⟨⟨f, addr, tki, file, rfl, -⟩, -⟩ := opened
  have file' : ({ s with world := { s.world with mem } } : Sys).file tf = some f := file
  unfold ProcfsCall.run
  apply (run_bind (run_modify _)).trans
  apply (ops_file file').trans
  unfold Procfs.inodeRead
  rw [if_pos mode]
  rfl

/-- `inode_lseek` stops at the end of the text; the file stays open. -/
theorem lseek_run (opened : OpenText data flags tf o s) (offset : Int32) : ∃ res s',
    (ProcfsCall.lseek offset).run tf s = .ok (res, s') ∧
      OpenText data flags tf (if flags = .fileRead then min (ofInt32 offset.toInt) data.length else o) s' := by
  obtain ⟨⟨f, addr, tki, file, rfl, rfl, info, there, hasOpened, content, size⟩, text, short, inside⟩ := id opened
  unfold ProcfsCall.run
  by_cases mode : f.flags = .fileRead
  · have target : (if ofInt32 offset.toInt > tki.size then tki.size else ofInt32 offset.toInt) =
        min (ofInt32 offset.toInt) data.length := by
      split <;> omega
    rw [if_pos mode]
    refine ⟨(min (ofInt32 offset.toInt) data.length : Nat),
      movedTo s tf f s.world.mem (min (ofInt32 offset.toInt) data.length), ?_, opened.moved file (Nat.min_le_right ..) _⟩
    apply (ops_file file).trans
    unfold Procfs.inodeLseek
    rw [if_neg (not_not_intro mode), info, run_bind (infoAt_run there), if_neg (by rw [hasOpened]; decide)]
    rw [target]
    rfl
  · rw [if_neg mode]
    refine ⟨-1, s, ?_, opened⟩
    apply (ops_file file).trans
    unfold Procfs.inodeLseek
    rw [if_pos mode]
    rfl

/-- A sequence of calls is right where each read is. -/
theorem readsRight_iff (opened : OpenText data flags tf o s) : ReadsRight data tf calls s ↔ Ended data flags calls o := by
  induction calls generalizing o s with
  | nil => exact Iff.rfl
  | cons call calls ih =>
    cases call with
    | read mem buf size =>
      by_cases mode : flags = .fileRead
      · subst mode
        obtain ⟨f, file, run⟩ := read_run opened mem buf size
        have right := read_right_iff opened buf size run
        have bound := available_le data size.toNat o
        have small := opened.short
        have inside := opened.inside
        have plain : 0 ∉ data.drop o := fun member => opened.text (List.mem_of_mem_drop member)
        -- after a right read the offset is behind what was available
        have later (ended : mem (buf + available data size.toNat o) = 0) : ReadsRight data tf calls (movedTo s tf f
              (Procfs.strncpy mem buf (data.drop o) (available data size.toNat o))
              (o + Procfs.strlenAt (Procfs.strncpy mem buf (data.drop o) (available data size.toNat o)) buf)) ↔
            Ended data .fileRead calls (o + available data size.toNat o) := by
          rw [(strlenAt_ended plain (by simpa using bound) (by omega) ended).2]
          exact ih (opened.moved file (by omega) _)
        constructor
        · rintro ⟨res, s', run', right', rest⟩
          cases run.symm.trans run'
          have ended := right.1 right'
          exact ⟨rfl, ended, (later ended).1 rest⟩
        · rintro ⟨-, ended, rest⟩
          exact ⟨_, _, run, right.2 ended, (later ended).2 rest⟩
      · have run := read_refused opened mode mem buf size
        constructor
        · rintro ⟨res, s', run', ⟨-, count, -⟩, -⟩
          cases run.symm.trans run'
          omega
        · rintro ⟨mode', -⟩
          exact absurd mode' mode
    | lseek offset =>
      obtain ⟨res, s', run, opened'⟩ := lseek_run opened offset
      rw [Ended, ← ih opened']
      constructor
      · rintro ⟨res₁, s₁, run₁, -, rest⟩
        cases run.symm.trans run₁
        exact rest
      · intro rest
        exact ⟨res, s', run, ⟨by rw [opened'.offsetAt]; exact opened'.inside, trivial⟩, rest⟩

/-- **Reads of procfs.** For a file that `inode_open` has opened, a sequence of reads and seeks is right exactly where
each read is of a file opened for reading and finds a 0 in the caller's buffer behind what is available. -/
theorem procfs_reads_iff {ncpu : Nat} {f : Vfs.File Node} {s₁ : Sys}
    (opened : Procfs.inodeOpen ncpu tf f flags s = .ok (0, s₁))
    (names : ∀ addr tki tk, f.inode.info = some addr → s.world.info addr = some tki → tki.obj = some tk → 0 ∉ tk.name) :
    ∃ addr tki, f.inode.info = some addr ∧ s₁.world.info addr = some tki ∧
      ∀ calls, ReadsRight tki.content tf calls s₁ ↔ Ended tki.content flags calls 0 := by
  obtain ⟨-, -, open'⟩ := procfs_open_ok opened names
  obtain ⟨addr, tki, info, file, there, hasOpened, size, short, text⟩ := open' rfl
  exact ⟨addr, tki, info, there, fun calls => readsRight_iff
    ⟨⟨_, addr, tki, file, rfl, rfl, info, there, hasOpened, rfl, size⟩, text, short, Nat.zero_le _⟩⟩

/-! ## `/meminfo` -/

/-- The file of `/meminfo` before it is opened, and a system with it. -/
def meminfoFile : Vfs.File Node := ⟨0, .fileExist, ⟨.procfs, text "/meminfo", none, some 1⟩, 0⟩

def meminfoStart : Sys := { procStart with
  world := { procStart.world with info := Function.update procStart.world.info 1 (some ⟨.memInfo, false, none, [], 0⟩) } }

theorem meminfo_names : ∀ addr tki tk, meminfoFile.inode.info = some addr → meminfoStart.world.info addr = some tki →
    tki.obj = some tk → 0 ∉ tk.name := by
  intro addr tki tk info there obj
  cases info
  cases there
  cases obj

/-- Two reads of 16 bytes into a clear buffer. -/
theorem procfs_reads_iff_meminfo : ∃ s₁ addr tki, meminfoFile.inode.info = some addr ∧ s₁.world.info addr = some tki ∧
    (ReadsRight tki.content 0 [.read (fun _ => 0) 4096 16, .read (fun _ => 0) 4096 16] s₁ ↔
      Ended tki.content .fileRead [.read (fun _ => 0) 4096 16, .read (fun _ => 0) 4096 16] 0) := by
  obtain ⟨s₁, opened⟩ : ∃ s₁, Procfs.inodeOpen 1 0 meminfoFile .fileRead meminfoStart = .ok (0, s₁) := ⟨_, rfl⟩
  obtain ⟨addr, tki, info, there, all⟩ := procfs_reads_iff opened meminfo_names
  exact ⟨s₁, addr, tki, info, there, all _⟩

/-- A read of 4 bytes in front of a byte that is not 0. -/
theorem procfs_reads_stale : ¬∀ (ncpu tf addr : Nat) (f : Vfs.File Node) (tki : TaskInfo) (s s₁ : Sys) (calls : List ProcfsCall),
    Procfs.inodeOpen ncpu tf f .fileRead s = .ok (0, s₁) →
    (∀ addr tki tk, f.inode.info = some addr → s.world.info addr = some tki → tki.obj = some tk → 0 ∉ tk.name) →
    f.inode.info = some addr → s₁.world.info addr = some tki → ReadsRight tki.content tf calls s₁ := by
  intro right
  obtain ⟨s₁, opened⟩ : ∃ s₁, Procfs.inodeOpen 1 0 meminfoFile .fileRead meminfoStart = .ok (0, s₁) := ⟨_, rfl⟩
  obtain ⟨-, -, open'⟩ := procfs_open_ok opened meminfo_names
  obtain ⟨addr, tki, info, file, there, hasOpened, size, short, text⟩ := open' rfl
  have text' : OpenText tki.content .fileRead 0 0 s₁ :=
    ⟨⟨_, addr, tki, file, rfl, rfl, info, there, hasOpened, rfl, size⟩, text, short, Nat.zero_le _⟩
  have stale := (readsRight_iff text').1
    (right 1 0 addr meminfoFile tki meminfoStart s₁ [.read (fun _ => 120) 4096 4] opened meminfo_names
      info there)
  exact absurd stale.2.1 (by decide : (120 : UInt8) ≠ 0)

end Calls

end OsLab.Kernel.Io
