import OsLab.Kernel.Io.Filesystems
import OsLab.Kernel.Io.Input
import OsLab.Kernel.Vfs.Inversion
import OsLab.Kernel.Blkfs.ByteArray
import OsLab.Kernel.Blkfs.Creation

/-!
# Closing what was opened for reading

A regular file of blkfs and a file of procfs are both a `Source` once `fsOpen` has opened them for
reading, so that what `Reading.safe_iff` says of closing a stream holds of both.
-/

namespace OsLab.Kernel.Io

open OsLab.Klib OsLab.Memory OsLab.Triples OsLab.ByteFile
open OsLab.Kernel.Vfs (Quiet Task nFile fileAt fileAt_run)
open OsLab.Kernel.Blkfs (Info Inode Disk Handle dataOf inodeOf blockDataSize)
open OsLab.Decimal (decimal)

/-- The descriptor `fd` has the `file` `f` at the address `tf`. -/
structure Descriptor (s : Sys) (fd tf : Nat) (f : Vfs.File Node) : Prop where
  quiet : ∃ tk, Quiet s tk ∧ tk.fildes fd = some tf
  inside : fd < nFile
  file : s.file tf = some f

section Blkfs

/-- The bytes that can be read through a copy of an inode: none where it has no block. -/
def HasBytes (fs : Info) (d : Disk) (node : Inode) (data : List UInt8) : Prop :=
  (∃ b : Nat, fs.IsData b ∧ node.blockId = b ∧ node.size ≤ blockDataSize ∧ data = bytes (dataOf d b) node.size) ∨
    node.blockId = -1 ∧ data = []

/-- The descriptor has a file of blkfs open for reading at the offset `o`. -/
structure BlkfsAt (n : Nat) (d : Disk) (node : Inode) (data : List UInt8) (fd tf o : Nat) (s : Sys) : Prop where
  open' : ∃ f, Descriptor s fd tf f ∧ f.inode.fs = .blkfs n ∧ f.flags = .fileRead ∧ f.inode.ptr = some node ∧ f.offset = o
  le : o ≤ data.length
  disk : s.world.disk n = d

variable {mach : Machine} {n : Nat} {d : Disk} {node : Inode} {data : List UInt8} {fd tf o buf : Nat} {s s' : Sys}
  {f : Vfs.File Node}

/-- `Io.inodeRead` of what blkfs has read. -/
theorem inodeRead_run {size : Nat} {res : Int} {bs : List UInt8} {h : Handle}
    (run : Blkfs.inodeRead (mach.info n) (s.world.disk n) (handleOf f) size = .ok (res, bs, h)) :
    inodeRead (mach.info n) n tf f buf size s = .ok (res, { s with
      world := { s.world with mem := store s.world.mem buf bs.length fun i => bs.getD i 0 }
      file := Function.update s.file tf (some (putHandle f h)) }) := by
  have lift : lifted (Blkfs.inodeRead (mach.info n) (s.world.disk n) (handleOf f) size) s = .ok ((res, bs, h), s) := by
    unfold lifted
    rw [run]
    rfl
  unfold inodeRead
  rw [run_bind (run_gets _), run_bind lift]
  rfl

theorem onDisk_run {α : Type} {act : Disk → Except Halt (α × Disk)} {res : α} {d' : Disk}
    (run : act (s.world.disk n) = .ok (res, d')) : onDisk n act s = .ok (res, withDisk s n d') := by
  have lift : lifted (act (s.world.disk n)) s = .ok ((res, d'), s) := by
    unfold lifted
    rw [run]
    rfl
  unfold onDisk
  rw [run_bind (run_gets _), run_bind lift]
  rfl

theorem ops_file {α : Type} {act : Vfs.File Node → SysM α} (file : s.file tf = some f) :
    (fileAt tf >>= act) s = act f s := run_bind (fileAt_run file)

theorem Descriptor.setFile (h : Descriptor s fd tf f) (f' : Vfs.File Node) (world : World) :
    Descriptor { s with file := Function.update s.file tf (some f'), world } fd tf f' := by
  obtain ⟨⟨tk, quiet, filde⟩, inside, file⟩ := h
  exact ⟨⟨tk, ⟨quiet.held, quiet.task⟩, filde⟩, inside, Function.update_self ..⟩

/-- There is nothing to read from in an inode without a block. -/
theorem inodeRead_noBlock {size : Nat} (readable : f.flags = .fileRead) (copy : f.inode.ptr = some node)
    (noBlock : node.blockId = -1) (inside : f.offset ≤ node.size) :
    inodeRead (mach.info n) n tf f buf size s = .error (.assert "The inode do not have block") := by
  have fails : Blkfs.inodeRead (mach.info n) (s.world.disk n) (handleOf f) size =
      .error (.assert "The inode do not have block") := by
    unfold Blkfs.inodeRead
    rw [if_neg (not_not_intro (show (handleOf f).flags = .fileRead from readable)),
      show (handleOf f).ptr = some node from copy]
    have start : (handleOf f).offset ≤ node.size := inside
    dsimp only
    rw [kassert_pos start, ok_bind, kassert_neg (not_not_intro noBlock)]
    rfl
  unfold inodeRead
  rw [run_bind (run_gets _)]
  apply run_bind_error
  unfold lifted
  rw [fails]
  rfl

/-- A file that is open for reading is not written. -/
theorem inodeWrite_refused {count : Nat} (readable : f.flags = .fileRead) :
    inodeWrite (mach.info n) n tf f buf count s = .ok (-1, { withDisk s n (s.world.disk n) with
      file := Function.update s.file tf (some (putHandle f (handleOf f))) }) := by
  have refused : ∀ m, Blkfs.inodeWrite (mach.info n) (s.world.disk n) (handleOf f) m count =
      .ok (-1, handleOf f, s.world.disk n) := by
    intro m
    unfold Blkfs.inodeWrite
    apply if_pos
    rw [show (handleOf f).flags = .fileRead from readable]
    exact nofun
  have disk (act : Disk → Except Halt ((Int × Handle) × Disk))
      (keeps : act (s.world.disk n) = .ok ((-1, handleOf f), s.world.disk n)) :
      onDisk n act s = .ok ((-1, handleOf f), withDisk s n (s.world.disk n)) := onDisk_run keeps
  unfold inodeWrite
  rw [run_bind (run_gets _), run_bind (disk _ (by rw [refused]; rfl))]
  rfl

/-- A file of blkfs with a block is read. -/
theorem blkfs_read_run {b : Nat} (isData : (mach.info n).IsData b) (block : node.blockId = b)
    (small : node.size ≤ blockDataSize) (reads : BlkfsAt n d node (bytes (dataOf d b) node.size) fd tf o s) :
    ∃ s' count, count = (((bytes (dataOf d b) node.size).drop o).take 256).length ∧
      Vfs.read mach.ops fd buf 256 s = .ok ((count : Nat), s') ∧
      BlkfsAt n d node (bytes (dataOf d b) node.size) fd tf (o + count) s' ∧ s'.world.disk = s.world.disk ∧
      s'.world.mem = store s.world.mem buf count fun i => (((bytes (dataOf d b) node.size).drop o).take 256).getD i 0 := by
  obtain ⟨⟨f, open', kind, readable, copy, rfl⟩, le, rfl⟩ := reads
  obtain ⟨⟨tk, quiet, filde⟩, inside, file⟩ := open'
  have act : mach.ops.read tf buf 256 s = inodeRead (mach.info n) n tf f buf 256 s := by
    apply (ops_file file).trans
    rw [kind]
  rw [length_bytes] at le
  have count : ((((bytes (dataOf (s.world.disk n) b) node.size).drop f.offset).take 256).length : Nat) =
      min 256 (node.size - f.offset) := by
    simp
  have text : ((bytes (dataOf (s.world.disk n) b) node.size).drop f.offset).take 256 =
      bytes (fun i => dataOf (s.world.disk n) b (f.offset + i)) (min 256 (node.size - f.offset)) := take_drop_bytes ..
  have read : Blkfs.inodeRead (mach.info n) (s.world.disk n) (handleOf f) 256 = _ :=
    Blkfs.inodeRead_eq readable copy isData block le small
  refine ⟨_, _, count.symm, Vfs.onFile_run quiet inside filde file (act.trans (inodeRead_run read)) ⟨quiet.held, quiet.task⟩,
    ?_, rfl, ?_⟩
  · refine ⟨⟨_, Descriptor.setFile ⟨⟨tk, quiet, filde⟩, inside, file⟩ _ _, kind, readable, copy, rfl⟩, ?_, rfl⟩
    rw [length_bytes]
    omega
  · rw [text, length_bytes]
    rfl

/-- A file of blkfs is closed. -/
theorem blkfs_close_run (reads : BlkfsAt n d node data fd tf o s) : ∃ s', Vfs.close mach.ops fd s = .ok (0, s') ∧
    s'.world = s.world ∧ Closed s' fd := by
  obtain ⟨⟨f, ⟨⟨tk, quiet, filde⟩, inside, file⟩, kind, -, copy, -⟩, -, -⟩ := reads
  have act : mach.ops.close tf s = .ok (0, s) := by
    apply (ops_file file).trans
    rw [kind]
    show (pure (inodeClose f) : SysM Int) s = _
    unfold inodeClose
    rw [copy]
    rfl
  have closed : mach.ops.closeInode (mach.ops.fs f.inode) f.inode s = .ok (0, s) := by
    show mach.ops.closeInode f.inode.fs f.inode s = _
    rw [kind]
    rfl
  obtain ⟨files, run⟩ := Vfs.close_run quiet inside filde file act quiet file closed quiet
  exact ⟨_, run, rfl, _, rfl, Function.update_self ..⟩

/-- A file of blkfs that is open for reading. -/
theorem blkfs_source (content : HasBytes (mach.info n) d node data) :
    Source mach.ops fd buf data (BlkfsAt n d node data fd tf) := by
  constructor
  · -- read
    intro o s reads
    rcases content with ⟨b, isData, block, small, rfl⟩ | ⟨noBlock, rfl⟩
    · obtain ⟨s', count, length, run, reads', disk, mem⟩ := blkfs_read_run isData block small reads
      subst length
      refine Or.inl ⟨s', run, reads', disk, ?_⟩
      rw [mem]
      exact bytes_stored ..
    · -- there is no block to read from
      obtain ⟨⟨f, ⟨⟨tk, quiet, filde⟩, inside, file⟩, kind, readable, copy, rfl⟩, le, -⟩ := reads
      have act : mach.ops.read tf buf 256 s = inodeRead (mach.info n) n tf f buf 256 s := by
        apply (ops_file file).trans
        rw [kind]
      refine Or.inr ⟨rfl, .assert "The inode do not have block", ?_⟩
      apply Vfs.onFile_halts quiet inside filde file
      exact act.trans (inodeRead_noBlock readable copy noBlock (le.trans (Nat.zero_le _)))
  · -- write
    rintro o s a count ⟨⟨f, ⟨⟨tk, quiet, filde⟩, inside, file⟩, kind, readable, -, -⟩, -, -⟩
    have act : mach.ops.write tf a count s = inodeWrite (mach.info n) n tf f a count s := by
      apply (ops_file file).trans
      rw [kind]
    exact ⟨_, Vfs.onFile_run quiet inside filde file (act.trans (inodeWrite_refused readable)) ⟨quiet.held, quiet.task⟩⟩
  · -- close
    intro o s reads
    obtain ⟨s', run, world, closed⟩ := blkfs_close_run reads
    exact ⟨s', run, congrArg World.disk world, closed⟩
  · -- own
    rintro o s mem stream ⟨⟨f, ⟨⟨tk, quiet, filde⟩, inside, file⟩, rest⟩, le, disk⟩ -
    exact ⟨⟨f, ⟨⟨tk, ⟨quiet.held, quiet.task⟩, filde⟩, inside, file⟩, rest⟩, le, disk⟩

end Blkfs

section Procfs

/-- The descriptor has a file of procfs with the text `data` open for reading. It is read in one piece, into a
cleared buffer, so that `strlen` finds the end of the text there. -/
structure ProcfsAt (data : List UInt8) (fd tf buf o : Nat) (s : Sys) : Prop where
  open' : ∃ f addr tki, Descriptor s fd tf f ∧ f.inode.fs = .procfs ∧ f.flags = .fileRead ∧ f.inode.info = some addr ∧
    s.world.info addr = some tki ∧ tki.hasOpened = true ∧ tki.content = data ∧ tki.size = data.length ∧ f.offset = o
  text : 0 ∉ data
  short : data.length < 128
  place : o = 0 ∧ (∀ i < 256, s.world.mem (buf + i) = 0) ∨ o = data.length

variable {mach : Machine} {data : List UInt8} {fd tf o buf addr : Nat} {s : Sys} {f : Vfs.File Node} {tki : TaskInfo}

theorem infoAt_run (there : s.world.info addr = some tki) : Procfs.infoAt (some addr) s = .ok (tki, s) := by
  unfold Procfs.infoAt
  apply (run_bind (run_pure (a := addr))).trans
  rw [run_bind (run_gets _), there]
  rfl

/-- `strlen` of a text that was copied into a cleared buffer. -/
theorem strlenAt_eq {m : Mem} {a : Nat} (text : 0 ∉ data) (short : data.length < 2 ^ 32)
    (there : ∀ j ≤ data.length, m (a + j) = charAt data j) : Procfs.strlenAt m a = data.length := by
  unfold Procfs.strlenAt
  rw [(Blkfs.cstrAt_eq_iff text short).2 there, strlen_eq]

theorem bytes_charAt (rest : List UInt8) : bytes (charAt rest) rest.length = rest := by
  apply List.ext_getElem?
  intro i
  rw [getElem?_bytes]
  split
  · rw [charAt, List.getD_eq_getElem?_getD, List.getElem?_eq_getElem ‹_›]
    rfl
  · rw [List.getElem?_eq_none (Nat.le_of_not_lt ‹_›)]

/-- What `strncpy` leaves in the buffer for `strlen`. -/
theorem strlenAt_strncpy {m : Mem} {rest : List UInt8} (text : 0 ∉ rest) (short : rest.length < 128)
    (clear : rest = [] ∨ ∀ i < 256, m (buf + i) = 0) :
    Procfs.strlenAt (Procfs.strncpy m buf rest rest.length) buf = rest.length ∧
      bytes (fun i => Procfs.strncpy m buf rest rest.length (buf + i)) rest.length = rest := by
  rcases Nat.eq_zero_or_pos rest.length with none | some
  · obtain rfl := List.length_eq_zero_iff.1 none
    refine ⟨strlenAt_eq text (by decide) fun j hj => ?_, rfl⟩
    obtain rfl : j = 0 := Nat.le_zero.1 hj
    show store m buf 1 (fun _ => 0) (buf + 0) = 0
    exact store_inside (by omega) (by omega)
  · have nonempty : rest.length ≠ 0 := by omega
    have zeros : ∀ i < 256, m (buf + i) = 0 := clear.resolve_left (List.length_pos_iff.1 some)
    have copied : Procfs.strncpy m buf rest rest.length = store m buf rest.length fun i => charAt rest i := if_neg nonempty
    rw [copied]
    constructor
    · refine strlenAt_eq text (by omega) fun j hj => ?_
      rcases Nat.lt_or_eq_of_le hj with inside | rfl
      · rw [store_inside (Nat.le_add_right ..) (by omega), Nat.add_sub_cancel_left]
      · -- the buffer was clear, so the text ends here
        rw [store_outside (Or.inr (Nat.le_refl _)), zeros _ (by omega), charAt, List.getD_eq_getElem?_getD,
          List.getElem?_eq_none (Nat.le_refl _)]
        rfl
    · apply Eq.trans _ (bytes_charAt rest)
      apply bytes_congr
      intro i hi
      rw [store_inside (Nat.le_add_right ..) (by omega), Nat.add_sub_cancel_left]

/-- A file of procfs that is open for reading. -/
theorem procfs_source : Source mach.ops fd buf data (ProcfsAt data fd tf buf) := by
  constructor
  · -- read
    rintro o s ⟨⟨f, addr, tki, ⟨⟨tk, quiet, filde⟩, inside, file⟩, kind, readable, info, there, opened, content, size, rfl⟩,
      text, short, place⟩
    have le : f.offset ≤ tki.size := by omega
    have rest : (data.drop f.offset).length = tki.size - f.offset := by rw [List.length_drop, size]
    have whole : (data.drop f.offset).take 256 = data.drop f.offset := List.take_of_length_le (by omega)
    have count : (if tki.size - f.offset > 256 then 256 else tki.size - f.offset) = (data.drop f.offset).length := by
      rw [if_neg (by omega), rest]
    have clear : data.drop f.offset = [] ∨ ∀ i < 256, s.world.mem (buf + i) = 0 := by
      rcases place with ⟨-, zeros⟩ | last
      · exact Or.inr zeros
      · exact Or.inl (by rw [last, List.drop_length])
    obtain ⟨length, stored⟩ :=
      strlenAt_strncpy (fun member => text (List.mem_of_mem_drop member)) (by omega) clear
    have run : mach.ops.read tf buf 256 s = .ok (((data.drop f.offset).length : Nat), { s with
        world := { s.world with
          mem := Procfs.strncpy s.world.mem buf (data.drop f.offset) (data.drop f.offset).length }
        file := Function.update s.file tf (some { f with offset := f.offset + (data.drop f.offset).length }) }) := by
      apply (ops_file file).trans
      rw [kind]
      show Procfs.inodeRead tf f buf 256 s = _
      unfold Procfs.inodeRead
      rw [if_neg (not_not_intro readable), info, run_bind (infoAt_run there), if_neg (by rw [opened]; decide)]
      have bound : Vfs.assert (f.offset ≤ tki.size) "Offset too large: max %d but %d" s = .ok ((), s) := by
        unfold Vfs.assert
        rw [if_pos le]
        rfl
      rw [run_bind bound, count, content]
      apply (run_bind (run_modify _)).trans
      apply (run_bind (run_gets _)).trans
      dsimp only
      rw [length]
      rfl
    rw [whole]
    refine Or.inl ⟨_, Vfs.onFile_run quiet inside filde file run ⟨quiet.held, quiet.task⟩, ?_, rfl, stored⟩
    refine ⟨⟨_, addr, tki, Descriptor.setFile ⟨⟨tk, quiet, filde⟩, inside, file⟩ _ _, kind, readable, info, there,
      opened, content, size, rfl⟩, text, short, Or.inr ?_⟩
    rw [rest]
    omega
  · -- write
    rintro o s a count ⟨⟨f, addr, tki, ⟨⟨tk, quiet, filde⟩, inside, file⟩, kind, -⟩, -⟩
    have act : mach.ops.write tf a count s = .ok (-1, s) := by
      apply (ops_file file).trans
      rw [kind]
      rfl
    exact ⟨_, Vfs.onFile_run quiet inside filde file act quiet⟩
  · -- close
    rintro o s ⟨⟨f, addr, tki, ⟨⟨tk, quiet, filde⟩, inside, file⟩, kind, -, info, there, opened, -⟩, -⟩
    have closed : mach.ops.close tf s = .ok (0, { s with world := { s.world with
        info := Function.update s.world.info addr (some { tki with content := [], size := 0, hasOpened := false }) } }) := by
      apply (ops_file file).trans
      rw [kind]
      show Procfs.inodeClose f s = _
      unfold Procfs.inodeClose
      rw [info]
      dsimp only
      rw [run_bind (infoAt_run there), if_neg (by rw [opened]; decide)]
      rfl
    have gone : ∀ t : Sys, mach.ops.closeInode (mach.ops.fs f.inode) f.inode t = .ok (0, { t with world := { t.world with
        info := Function.update t.world.info addr none } }) := by
      intro t
      show mach.ops.closeInode f.inode.fs f.inode t = _
      rw [kind]
      show Procfs.closeInode f.inode t = _
      unfold Procfs.closeInode
      rw [info]
      rfl
    obtain ⟨files, run⟩ := Vfs.close_run quiet inside filde file closed ⟨quiet.held, quiet.task⟩ file (gone _)
      ⟨quiet.held, quiet.task⟩
    exact ⟨_, run, rfl, _, rfl, Function.update_self ..⟩
  · -- own
    rintro o s mem stream ⟨⟨f, addr, tki, ⟨⟨tk, quiet, filde⟩, inside, file⟩, rest⟩, text, short, place⟩ same
    refine ⟨⟨f, addr, tki, ⟨⟨tk, ⟨quiet.held, quiet.task⟩, filde⟩, inside, file⟩, rest⟩, text, short, ?_⟩
    refine place.imp_left fun start => ⟨start.1, fun i hi => ?_⟩
    exact (same _ (Nat.le_add_right ..) (by omega)).trans (start.2 i hi)

/-- `fs_lookup` of procfs makes a node with a `task_info` of its own. -/
theorem procfs_lookup_ok {path : CStr} {found : Option Node} {s₁ : Sys} (run : Procfs.lookup path s = .ok (found, s₁)) :
    (∃ world, s₁ = { s with world }) ∧ ∀ node, found = some node → node.fs = .procfs ∧
      ∀ addr, node.info = some addr → ∃ tki, s₁.world.info addr = some tki ∧
        ∀ tk, tki.obj = some tk → tk ∈ s.world.tasks := by
  have made : ∀ {type : TaskInfoType} {obj : Option TaskEntry}, (∀ tk, obj = some tk → tk ∈ s.world.tasks) →
      Procfs.newInfo path type obj s = .ok (found, s₁) → (∃ world, s₁ = { s with world }) ∧
        ∀ node, found = some node → node.fs = .procfs ∧ ∀ addr, node.info = some addr →
          ∃ tki, s₁.world.info addr = some tki ∧ ∀ tk, tki.obj = some tk → tk ∈ s.world.tasks := by
    intro type obj listed new
    cases new
    refine ⟨⟨_, rfl⟩, ?_⟩
    rintro node ⟨⟩
    refine ⟨rfl, ?_⟩
    rintro addr ⟨⟩
    exact ⟨_, Function.update_self .., listed⟩
  unfold Procfs.lookup at run
  obtain ⟨u, s₂, asserted, rest⟩ := bind_run_eq_ok.1 run
  clear run
  have same : s₂ = s := by
    unfold Vfs.assert at asserted
    split at asserted
    · cases asserted
      rfl
    · cases asserted
  subst same
  split at rest
  · cases rest
    refine ⟨⟨_, rfl⟩, ?_⟩
    rintro node ⟨⟩
    exact ⟨rfl, nofun⟩
  · dsimp only at rest
    split at rest
    · refine made ?_ rest
      exact nofun
    · split at rest
      · refine made ?_ rest
        exact nofun
      · rw [run_bind (run_gets _)] at rest
        cases entry : s₂.world.tasks.find? fun cur => streq cur.name (path.drop 1) with
        | none =>
          rw [entry] at rest
          cases rest
          exact ⟨⟨_, rfl⟩, nofun⟩
        | some tk =>
          rw [entry] at rest
          refine made ?_ rest
          rintro tk ⟨⟩
          exact List.mem_of_find?_eq_some entry

theorem notMem_decimal (n : Nat) : 0 ∉ decimal n := by
  intro member
  have digit := OsLab.Decimal.isDigit_decimal 0 member
  cases digit

/-- The text of a file of procfs has no NUL in it. -/
theorem contentOf_text {ncpu : Nat} {s₁ : Sys} {content : CStr} (run : Procfs.contentOf ncpu tki s = .ok (content, s₁))
    (names : ∀ tk, tki.obj = some tk → 0 ∉ tk.name) : s₁ = s ∧ 0 ∉ content := by
  unfold Procfs.contentOf at run
  cases type : tki.type with
  | cpuInfo =>
    rw [type] at run
    cases run
    refine ⟨rfl, ?_⟩
    simp only [List.mem_append, not_or]
    exact ⟨⟨by decide, notMem_decimal _⟩, by decide⟩
  | memInfo =>
    rw [type] at run
    cases run
    exact ⟨rfl, by decide⟩
  | taskInfo =>
    cases obj : tki.obj with
    | none =>
      rw [type, obj] at run
      cases run
    | some tk =>
      rw [type, obj] at run
      cases run
      refine ⟨rfl, ?_⟩
      simp only [List.mem_append, not_or]
      exact ⟨⟨⟨⟨⟨⟨by decide, notMem_decimal _⟩, by decide⟩, names _ obj⟩, by decide⟩, notMem_decimal _⟩, by decide⟩

theorem infoAt_ok {s₁ : Sys} (get : Procfs.infoAt (some addr) s = .ok (tki, s₁)) :
    s.world.info addr = some tki ∧ s₁ = s := by
  unfold Procfs.infoAt at get
  change (do Vfs.deref (← gets fun s : Sys => s.world.info addr) : SysM TaskInfo) s = _ at get
  rw [run_bind (run_gets _)] at get
  cases there : s.world.info addr with
  | none =>
    rw [there] at get
    cases get
  | some other =>
    rw [there] at get
    cases get
    exact ⟨rfl, rfl⟩

/-- A file of procfs that was opened for reading. -/
theorem procfs_open_ok {ncpu : Nat} {res : Int} {flags : Blkfs.AccessFlag} {s₁ : Sys}
    (run : Procfs.inodeOpen ncpu tf f flags s = .ok (res, s₁))
    (names : ∀ addr tki tk, f.inode.info = some addr → s.world.info addr = some tki → tki.obj = some tk → 0 ∉ tk.name) :
    s₁.held = s.held ∧ s₁.current = s.current ∧ (res = 0 → ∃ addr tki, f.inode.info = some addr ∧
      s₁.file tf = some { f with flags, offset := 0 } ∧ s₁.world.info addr = some tki ∧ tki.hasOpened = true ∧
      tki.size = tki.content.length ∧ tki.content.length < 128 ∧ 0 ∉ tki.content) := by
  unfold Procfs.inodeOpen at run
  split at run
  · cases run
    exact ⟨rfl, rfl, nofun⟩
  next granted =>
  split at run
  · cases run
    exact ⟨rfl, rfl, nofun⟩
  next file =>
  cases info : f.inode.info with
  | none =>
    refine absurd ?_ granted
    unfold Procfs.inodeAccess
    cases flags <;> simp [info] at file ⊢
  | some addr =>
    rw [info] at run
    obtain ⟨tki, s₂, get, opened⟩ := bind_run_eq_ok.1 run
    clear run
    obtain ⟨there, rfl⟩ := infoAt_ok get
    split at opened
    · cases opened
      exact ⟨rfl, rfl, nofun⟩
    · obtain ⟨content, s₃, made, rest⟩ := bind_run_eq_ok.1 opened
      clear opened
      obtain ⟨rfl, text⟩ := contentOf_text made fun tk obj => names addr tki tk info there obj
      have size := strlen_eq content
      split at rest
      · cases rest
      · cases rest
        have short : strlen content < 128 := Nat.lt_of_not_le ‹_›
        exact ⟨rfl, rfl, fun _ => ⟨addr, _, rfl, Function.update_self .., Function.update_self .., rfl, size, size ▸ short,
          text⟩⟩

end Procfs

/-! ## Opening a file for reading -/

section Open

/-- The file of an open stream. -/
def fileOf (s : Sys) (stream : Nat) : Option (Vfs.File Node) := do
  let fs ← s.world.stream stream
  let tk ← s.current
  let tf ← tk.fildes fs.fd.toNat
  s.file tf

/-- What can be read from a file of blkfs or procfs; `inode_open` of procfs has made the text. -/
def contentsOf (s : Sys) (f : Vfs.File Node) : List UInt8 :=
  match f.inode.fs with
  | .blkfs n => f.inode.ptr.elim [] fun node =>
    if node.blockId = -1 then [] else bytes (dataOf (s.world.disk n) node.blockId.toNat) node.size
  | .procfs => (f.inode.info.bind s.world.info).elim [] TaskInfo.content
  | .devfs => []

/-- What can be read from an open stream. -/
def fileBytes (s : Sys) (stream : Nat) : List UInt8 := (fileOf s stream).elim [] (contentsOf s)

/-- A blkfs in a state that calls lead to, or procfs where the names of the tasks are strings. -/
def Serves (mach : Machine) (s : Sys) : Filesystem → Prop
  | .blkfs n => ∃ handles hist stale,
    Blkfs.Run (mach.info n) (Blkfs.Harmless (mach.info n)) ⟨s.world.disk n, handles⟩ hist stale
  | .procfs => ∀ tk ∈ s.world.tasks, 0 ∉ tk.name
  | .devfs => False

variable {mach : Machine} {s s' : Sys} {tk : Task} {path sub : CStr} {m : Vfs.Mount Filesystem} {stream : Nat}
  {flags : Blkfs.AccessFlag}

/-- The stream that `fsOpen` returns has an empty buffer of 256 cleared bytes. -/
theorem fsOpen_ok {ops : Vfs.Ops Filesystem Node World} (run : fsOpen ops path flags s = .ok (some stream, s')) :
    ∃ fd t next, Vfs.open ops (some path) flags s = .ok (fd, t) ∧ fd ≠ -1 ∧ s' = { t with world := { t.world with
      brk := t.world.brk + 256
      mem := store t.world.mem t.world.brk 256 fun _ => 0
      stream := Function.update t.world.stream stream (some ⟨fd, ⟨t.world.brk, 256, 0, 0⟩, false⟩)
      nextStream := next } } := by
  obtain ⟨fd, t, opened, rest⟩ := bind_run_eq_ok.1 run
  split at rest
  · cases rest
  · cases rest
    exact ⟨fd, t, _, opened, ‹_›, rfl⟩

theorem findFildeIndex_spec {fd : Nat} (room : Vfs.findFildeIndex tk = some fd) : fd < nFile ∧ tk.fildes fd = none := by
  obtain ⟨free, -⟩ := List.find?_eq_some_iff_append.1 room
  exact ⟨List.mem_range.1 (List.mem_of_find?_eq_some room), Option.isNone_iff_eq_none.1 free⟩

theorem blkfs_lookup_ok {n : Nat} {found : Option Node} (run : lookup (mach.info n) n path s = .ok (found, s')) : s' = s ∧
    ∃ h, Blkfs.fsLookup (mach.info n) (s.world.disk n) path = .ok h ∧ found = some ⟨.blkfs n, h.path, h.ptr, none⟩ := by
  unfold lookup at run
  rw [run_bind (run_gets _)] at run
  obtain ⟨h, s₁, looked, rest⟩ := bind_run_eq_ok.1 run
  cases rest
  unfold lifted at looked
  cases look : Blkfs.fsLookup (mach.info n) (s.world.disk n) path with
  | error e =>
    rw [look] at looked
    cases looked
  | ok h' =>
    rw [look] at looked
    cases looked
    exact ⟨rfl, h, rfl, rfl⟩

/-- The inode that a file of blkfs was opened with. -/
theorem blkfs_open_ok {n tf : Nat} {f : Vfs.File Node} {res : Int}
    (run : inodeOpen (mach.info n) n tf f .fileRead s = .ok (res, s')) :
    s'.held = s.held ∧ s'.current = s.current ∧ s'.world.disk = s.world.disk ∧ (res = 0 → ∃ node, f.inode.ptr = some node ∧
      s'.file tf = some { f with flags := .fileRead, offset := 0 }) := by
  obtain ⟨⟨value, h⟩, s₁, opened, rest⟩ := bind_run_eq_ok.1 run
  have there : ¬ Blkfs.Missing (handleOf f) .fileRead := by
    rintro ⟨-, write | append⟩
    · cases write
    · cases append
  obtain ⟨same, rfl⟩ : (value, h) = Blkfs.openFound 0 (handleOf f) .fileRead ∧ s₁ = withDisk s n (s.world.disk n) := by
    apply Prod.mk.inj
    apply Except.ok.inj
    apply opened.symm.trans
    apply onDisk_run
    unfold Blkfs.inodeOpen
    rw [if_neg there]
    rfl
  cases rest
  have disk : (withDisk s n (s.world.disk n)).world.disk = s.world.disk := Function.update_eq_self ..
  refine ⟨rfl, rfl, disk, fun success => ?_⟩
  unfold Blkfs.openFound at same
  split at same
  · cases same
    cases success
  · cases same
    have access : Blkfs.inodeAccess (handleOf f) .fileRead ≠ -1 := (not_or.1 ‹_›).2
    obtain ⟨node, copy, -⟩ := Blkfs.inodeAccess_ok access
    exact ⟨node, copy, Function.update_self ..⟩

/-- The bytes of an inode that was found on a sound disk. -/
theorem found_hasBytes {fs : Info} {d : Disk} {copy : Inode} {k : Nat} (owned : Blkfs.Volume.Owned fs (Blkfs.volume fs d))
    (found : Blkfs.Found fs d copy k) :
    HasBytes fs d copy (if copy.blockId = -1 then [] else bytes (dataOf d copy.blockId.toNat) copy.size) := by
  obtain ⟨used, rfl⟩ := found
  rcases owned.block k used with none | ⟨b, isData, block, -⟩
  · rw [if_pos none]
    exact Or.inr ⟨none, rfl⟩
  · have some : ((Blkfs.volume fs d).inode k).blockId ≠ -1 := by omega
    rw [if_neg some, block]
    exact Or.inl ⟨b, isData, block, owned.size_le k used, rfl⟩

/-- `lookup` and `open` of blkfs in `Vfs.open`. -/
theorem blkfs_open_eq {n : Nat} {node : Node} {s₁ : Sys} (kind : m.fs = .blkfs n)
    (found : mach.ops.lookup m.fs sub .fileRead s = .ok (some node, s₁)) : s₁ = s ∧
    (∃ h, Blkfs.fsLookup (mach.info n) (s.world.disk n) sub = .ok h ∧ node = ⟨.blkfs n, h.path, h.ptr, none⟩) ∧
    mach.ops.open s₁.next .fileRead (s₁.alloc node) =
      inodeOpen (mach.info n) n s₁.next ⟨0, .dirExist, node, 0⟩ .fileRead (s₁.alloc node) := by
  rw [kind] at found
  obtain ⟨rfl, h, look, made⟩ := blkfs_lookup_ok found
  cases made
  refine ⟨rfl, ⟨h, look, rfl⟩, ?_⟩
  have file : (s₁.alloc ⟨.blkfs n, h.path, h.ptr, none⟩).file s₁.next =
    some ⟨0, .dirExist, ⟨.blkfs n, h.path, h.ptr, none⟩, 0⟩ := Function.update_self ..
  exact ops_file file

/-- `lookup` and `open` of procfs in `Vfs.open`. -/
theorem procfs_open_eq {node : Node} {s₁ : Sys} (kind : m.fs = .procfs)
    (found : mach.ops.lookup m.fs sub .fileRead s = .ok (some node, s₁)) :
    (∃ world, s₁ = { s with world }) ∧ node.fs = .procfs ∧
    (∀ addr, node.info = some addr → ∃ tki, s₁.world.info addr = some tki ∧
      ∀ tk, tki.obj = some tk → tk ∈ s.world.tasks) ∧
    mach.ops.open s₁.next .fileRead (s₁.alloc node) =
      Procfs.inodeOpen mach.ncpu s₁.next ⟨0, .dirExist, node, 0⟩ .fileRead (s₁.alloc node) := by
  rw [kind] at found
  obtain ⟨world, made⟩ := procfs_lookup_ok found
  obtain ⟨fs, info⟩ := made node rfl
  refine ⟨world, fs, info, ?_⟩
  have file : (s₁.alloc node).file s₁.next = some ⟨0, .dirExist, node, 0⟩ := Function.update_self ..
  apply (ops_file file).trans
  rw [fs]

/-- What is read from an open stream. -/
theorem Descriptor.fileBytes {fd tf : Nat} {f : Vfs.File Node} {b : Buffer} {line : Bool} (h : Descriptor s fd tf f)
    (there : s.world.stream stream = some ⟨fd, b, line⟩) : fileBytes s stream = contentsOf s f := by
  obtain ⟨⟨tk, quiet, filde⟩, -, file⟩ := h
  have found : fileOf s stream = some f := by
    unfold fileOf
    rw [there, quiet.task]
    show (tk.fildes fd).bind s.file = some f
    rw [filde]
    exact file
  unfold Io.fileBytes
  rw [found]
  rfl

/-- Nothing has been read from a new stream. -/
theorem Reading.start {At : Nat → Sys → Prop} {fd : Int} {buf : Nat} {data : List UInt8} {line : Bool} (offset : At 0 s)
    (there : s.world.stream stream = some ⟨fd, ⟨buf, 256, 0, 0⟩, line⟩) : Reading At fd buf data stream s 0 0 where
  offset := offset
  order := ⟨Nat.le_refl _, Nat.zero_le _⟩
  ahead := Nat.zero_le _
  block := Or.inl rfl
  buffer := ⟨0, line, there, Nat.zero_le _, rfl⟩
  begun := Or.inl rfl

/-- A file of blkfs that was opened for reading. -/
theorem blkfs_reading {n : Nat} (quiet : Quiet s tk) (mounted : Vfs.mountOf mach.ops s path = (some m, sub))
    (kind : m.fs = .blkfs n) (serves : Serves mach s (.blkfs n))
    (opened : fsOpen mach.ops path .fileRead s = .ok (some stream, s')) :
    ∃ fd : Nat, ∃ buf tf copy h, s'.world.stream stream = some ⟨fd, ⟨buf, 256, 0, 0⟩, false⟩ ∧
      HasBytes (mach.info n) (s'.world.disk n) copy (fileBytes s' stream) ∧
      BlkfsAt n (s'.world.disk n) copy (fileBytes s' stream) fd tf 0 s' ∧
      Blkfs.fsLookup (mach.info n) (s.world.disk n) sub = .ok h ∧ h.ptr = some copy ∧
      s'.world.disk n = s.world.disk n ∧ s'.world.brk = buf + 256 := by
  obtain ⟨fd, t, next, run, success, made⟩ := fsOpen_ok opened
  have there : s'.world.stream stream = some ⟨fd, ⟨t.world.brk, 256, 0, 0⟩, false⟩ := by
    rw [made]
    exact Function.update_self ..
  obtain ⟨handles, hist, stale, reach⟩ := serves
  have owned := (reach.sound fun _ _ _ => id).owned
  have openQuiet : ∀ node s₁ res s₂, mach.ops.lookup m.fs sub .fileRead s = .ok (some node, s₁) →
      mach.ops.open s₁.next .fileRead (s₁.alloc node) = .ok (res, s₂) → Quiet s₂ tk := by
    intro node s₁ res s₂ lookup act
    obtain ⟨rfl, -, same⟩ := blkfs_open_eq kind lookup
    obtain ⟨held, current, -⟩ := blkfs_open_ok (same.symm.trans act)
    exact ⟨held.trans quiet.held, current.trans quiet.task⟩
  obtain ⟨emptyFd, node, s₁, s₂, f, room, rfl, lookup, act, file, quiet₂, rfl⟩ :=
    Vfs.open_inv quiet mounted run success openQuiet
  obtain ⟨rfl, ⟨h, look, rfl⟩, same⟩ := blkfs_open_eq kind lookup
  obtain ⟨-, -, disk, copied⟩ := blkfs_open_ok (same.symm.trans act)
  obtain ⟨copy, ptr, file'⟩ := copied rfl
  obtain rfl := Option.some.inj (file.symm.trans file')
  obtain ⟨k, found⟩ := Blkfs.fsLookup_found owned look ptr
  have descriptor : Descriptor s' emptyFd s₁.next ⟨0, .fileRead, ⟨.blkfs n, h.path, h.ptr, none⟩, 0⟩ := by
    rw [made]
    exact ⟨⟨_, ⟨quiet₂.held, rfl⟩, Function.update_self ..⟩, (findFildeIndex_spec room).1, Function.update_self ..⟩
  have disk' : s'.world.disk n = s₁.world.disk n := by
    rw [made]
    exact congrFun disk n
  have content : HasBytes (mach.info n) (s'.world.disk n) copy (fileBytes s' stream) := by
    rw [descriptor.fileBytes there]
    unfold contentsOf
    dsimp only
    rw [show h.ptr = some copy from ptr, Option.elim_some, disk']
    exact found_hasBytes owned found
  have reads : BlkfsAt n (s'.world.disk n) copy (fileBytes s' stream) emptyFd s₁.next 0 s' :=
    ⟨⟨_, descriptor, rfl, rfl, ptr, rfl⟩, Nat.zero_le _, rfl⟩
  have brk : s'.world.brk = s₂.world.brk + 256 := by
    rw [made]
    rfl
  exact ⟨_, _, _, _, _, there, content, reads, look, ptr, disk', brk⟩

/-- A file of procfs that was opened for reading. -/
theorem procfs_reading (quiet : Quiet s tk) (mounted : Vfs.mountOf mach.ops s path = (some m, sub))
    (kind : m.fs = .procfs) (serves : Serves mach s .procfs)
    (opened : fsOpen mach.ops path .fileRead s = .ok (some stream, s')) :
    ∃ fd : Nat, ∃ buf tf, s'.world.stream stream = some ⟨fd, ⟨buf, 256, 0, 0⟩, false⟩ ∧
      ProcfsAt (fileBytes s' stream) fd tf buf 0 s' := by
  obtain ⟨fd, t, next, run, success, made⟩ := fsOpen_ok opened
  have there : s'.world.stream stream = some ⟨fd, ⟨t.world.brk, 256, 0, 0⟩, false⟩ := by
    rw [made]
    exact Function.update_self ..
  have spec : ∀ node s₁ res s₂, mach.ops.lookup m.fs sub .fileRead s = .ok (some node, s₁) →
      mach.ops.open s₁.next .fileRead (s₁.alloc node) = .ok (res, s₂) → Quiet s₂ tk ∧ (res = 0 → ∃ addr tki,
        node.info = some addr ∧ s₂.file s₁.next = some ⟨0, .fileRead, node, 0⟩ ∧ s₂.world.info addr = some tki ∧
          tki.hasOpened = true ∧ tki.size = tki.content.length ∧ tki.content.length < 128 ∧ 0 ∉ tki.content) := by
    intro node s₁ res s₂ lookup act
    obtain ⟨⟨world, rfl⟩, -, info, same⟩ := procfs_open_eq kind lookup
    have names : ∀ addr tki tk, node.info = some addr → world.info addr = some tki → tki.obj = some tk → 0 ∉ tk.name := by
      intro addr tki tk there here obj
      obtain ⟨tki', there', listed⟩ := info addr there
      obtain rfl := Option.some.inj (here.symm.trans there')
      exact serves tk (listed tk obj)
    obtain ⟨held, current, opened⟩ := procfs_open_ok (same.symm.trans act) names
    exact ⟨⟨held.trans quiet.held, current.trans quiet.task⟩, opened⟩
  obtain ⟨emptyFd, node, s₁, s₂, f, room, rfl, lookup, act, file, quiet₂, rfl⟩ :=
    Vfs.open_inv quiet mounted run success fun node s₁ res s₂ lookup act => (spec node s₁ res s₂ lookup act).1
  obtain ⟨addr, tki, info, file', entry, opened, size, short, text⟩ := (spec node s₁ 0 s₂ lookup act).2 rfl
  obtain ⟨-, fs, -, -⟩ := procfs_open_eq kind lookup
  obtain rfl := Option.some.inj (file.symm.trans file')
  have descriptor : Descriptor s' emptyFd s₁.next ⟨0, .fileRead, node, 0⟩ := by
    rw [made]
    exact ⟨⟨_, ⟨quiet₂.held, rfl⟩, Function.update_self ..⟩, (findFildeIndex_spec room).1, Function.update_self ..⟩
  have entry' : s'.world.info addr = some tki := by
    rw [made]
    exact entry
  have content : fileBytes s' stream = tki.content := by
    rw [descriptor.fileBytes there]
    unfold contentsOf
    dsimp only
    rw [fs, info]
    dsimp only [Option.bind_some]
    rw [entry']
    rfl
  have clear : ∀ i < 256, s'.world.mem (s₂.world.brk + i) = 0 := by
    intro i hi
    rw [made]
    show store s₂.world.mem s₂.world.brk 256 (fun _ => 0) (s₂.world.brk + i) = 0
    exact store_inside (Nat.le_add_right ..) (by omega)
  have reads : ProcfsAt (fileBytes s' stream) emptyFd s₁.next s₂.world.brk 0 s' := by
    rw [content]
    exact ⟨⟨_, addr, tki, descriptor, fs, rfl, info, entry', opened, rfl, size, rfl⟩, text, short, Or.inl ⟨rfl, clear⟩⟩
  exact ⟨_, _, _, there, reads⟩

/-- A file that was opened for reading is a source, of which nothing has been read. -/
theorem fsOpen_reading (quiet : Quiet s tk) (mounted : Vfs.mountOf mach.ops s path = (some m, sub))
    (serves : Serves mach s m.fs) (opened : fsOpen mach.ops path .fileRead s = .ok (some stream, s')) :
    ∃ fd buf At, s'.world.stream stream = some ⟨fd, ⟨buf, 256, 0, 0⟩, false⟩ ∧
      Source mach.ops fd buf (fileBytes s' stream) At ∧ Reading At fd buf (fileBytes s' stream) stream s' 0 0 := by
  generalize kind : m.fs = fs at serves
  cases fs with
  | blkfs n =>
    obtain ⟨fd, buf, tf, copy, h, there, content, reads, -⟩ := blkfs_reading quiet mounted kind serves opened
    exact ⟨fd, buf, _, there, blkfs_source content, Reading.start reads there⟩
  | procfs =>
    obtain ⟨fd, buf, tf, there, reads⟩ := procfs_reading quiet mounted kind serves opened
    exact ⟨fd, buf, _, there, procfs_source, Reading.start reads there⟩
  | devfs => exact serves.elim

/-- **Closing an input stream.** A file of blkfs or procfs that `fsOpen` has opened for reading can be closed
after calls of `fsGetChar` and `fsGetLine` if, and only if, they take whole blocks of 256 bytes or the whole file. -/
theorem closing_safe_iff {fs : Filestream} {calls : List InputCall} (quiet : Quiet s tk)
    (mounted : Vfs.mountOf mach.ops s path = (some m, sub)) (serves : Serves mach s m.fs)
    (opened : fsOpen mach.ops path .fileRead s = .ok (some stream, s')) (there : s'.world.stream stream = some fs)
    (outside : ∀ call ∈ calls, call.Outside fs.buf.content) :
    SafeAfter mach.ops stream fs.fd s' calls ↔ 256 ∣ consumed calls (fileBytes s' stream) ∨
      consumed calls (fileBytes s' stream) = (fileBytes s' stream).length := by
  obtain ⟨fd, buf, At, there', source, reading⟩ := fsOpen_reading quiet mounted serves opened
  obtain rfl := Option.some.inj (there.symm.trans there')
  exact reading.safe_iff source outside

end Open

/-! ## `/meminfo` -/

section Meminfo

/-- A machine with one processor and procfs, without devfs. -/
def procMachine : Machine where
  info _ := Blkfs.fourBlocks
  ncpu := 1
  rest := {
    fs := Node.fs
    before := fun _ => 0
    lookup := fun _ _ _ => pure none
    closeInode := fun _ _ => pure 0
    mkdir := fun _ _ => pure (-1)
    rm := fun _ _ => pure (-1)
    link := fun _ _ _ => pure (-1)
    readdir := fun _ _ => pure []
    access := fun _ _ => pure (-1)
    «open» := fun _ _ => pure (-1)
    close := fun _ => pure (-1)
    read := fun _ _ _ => pure (-1)
    write := fun _ _ _ => pure (-1)
    lseek := fun _ _ _ => pure (-1) }

/-- A task with no open files and procfs at `/`. -/
def procStart : Sys where
  held := ∅
  mounts := [⟨[slash], .procfs⟩]
  files := []
  file _ := none
  next := 1
  current := some ⟨fun _ => none⟩
  world := ⟨fun _ _ _ => 0, fun _ => 0, 4096, fun _ => none, 1, [], [], fun _ => none, 1⟩

/-- Procfs at `/` with `/meminfo` open for reading. -/
theorem meminfo_opened : ∃ s, fsOpen procMachine.ops (text "/meminfo") .fileRead procStart = .ok (some 1, s) ∧
    s.world.stream 1 = some ⟨0, ⟨4096, 256, 0, 0⟩, false⟩ ∧ (fileBytes s 1).length = 27 := by
  refine ⟨_, rfl, rfl, rfl⟩

theorem procStart_quiet : Quiet procStart ⟨fun _ => none⟩ := ⟨rfl, rfl⟩

/-- `/meminfo` can be closed after a call of `fsGetLine` that reads its 27 bytes. -/
theorem closing_safe_meminfo : ∃ s, fsOpen procMachine.ops (text "/meminfo") .fileRead procStart = .ok (some 1, s) ∧
    (SafeAfter procMachine.ops 1 0 s [.getLine 8192 128] ↔
      256 ∣ consumed [.getLine 8192 128] (fileBytes s 1) ∨
        consumed [.getLine 8192 128] (fileBytes s 1) = (fileBytes s 1).length) := by
  obtain ⟨s, opened, there, -⟩ := meminfo_opened
  have mounted : Vfs.mountOf procMachine.ops procStart (text "/meminfo") = (some ⟨[slash], .procfs⟩, text "/meminfo") := rfl
  refine ⟨s, opened, closing_safe_iff procStart_quiet mounted nofun opened there ?_⟩
  rintro call (_ | ⟨_, ⟨⟩⟩)
  exact Or.inr (by decide)

/-- `/meminfo` cannot be closed after one `fsGetChar`. -/
theorem closing_unsafe_meminfo : ∃ s, fsOpen procMachine.ops (text "/meminfo") .fileRead procStart = .ok (some 1, s) ∧
    ¬ SafeAfter procMachine.ops 1 0 s [.getChar] := by
  obtain ⟨s, opened, there, length⟩ := meminfo_opened
  have mounted : Vfs.mountOf procMachine.ops procStart (text "/meminfo") = (some ⟨[slash], .procfs⟩, text "/meminfo") := rfl
  obtain ⟨fd, buf, At, there', source, reading⟩ := fsOpen_reading procStart_quiet mounted nofun opened
  obtain rfl := (Filestream.mk.inj (Option.some.inj (there.symm.trans there'))).1
  refine ⟨s, opened, fun safe => ?_⟩
  have taken : consumed [.getChar] (fileBytes s 1) = 1 := by
    unfold consumed consumed InputCall.takes
    rw [length]
    rfl
  have outside : ∀ call ∈ [InputCall.getChar], call.Outside buf := by
    rintro call (_ | ⟨_, ⟨⟩⟩)
    trivial
  have whole := (reading.safe_iff source outside).1 safe
  rw [taken, length] at whole
  omega

end Meminfo

end OsLab.Kernel.Io
