import OsLab.Kernel.Vfs.Inversion
import OsLab.Lib.Heap

/-!
# The blocks of open files (`vfs/vfs.c`)

What `open` and `close` leave allocated: the `file`s, the nodes of the file list, and the blocks of the filesystems. A
filesystem has blocks of its own for each inode, from `lookup` to the `close` of the inode (`FreesAll`). `close` frees the
inode and the node of the list, but not the `file`.
-/

namespace OsLab.Kernel.Vfs

open OsLab.Klib OsLab.Triples
open OsLab.Kernel.Blkfs (AccessFlag)

variable {FS Node World : Type}

/-- The live blocks: the `file`s by their addresses, the nodes of the file list by their files, and the blocks of the
filesystems. -/
@[ext]
structure Live where
  files : Nat → Prop
  nodes : List Nat
  blocks : Finset Nat

/-- The live blocks of a state. -/
def live (blocks : World → Finset Nat) (s : State FS Node World) : Live :=
  ⟨fun a => s.file a ≠ none, s.files, blocks s.world⟩

/-- The blocks of the filesystems apart from those of an inode. -/
def apart (blocks : World → Finset Nat) (own : World → Node → Finset Nat) (w : World) (node : Node) : Finset Nat :=
  blocks w \ own w node

/-- The inodes of the `file`s. -/
def inodes (s : State FS Node World) (a : Nat) : Option Node := (s.file a).map File.inode

/-- The file list, the current task, the next address and the inodes of the `file`s. -/
def listed (s : State FS Node World) : List Nat × Option Task × Nat × (Nat → Option Node) :=
  (s.files, s.current, s.next, inodes s)

/-- Filesystems that free what they allocate: the blocks they have between the `lookup` of an inode and its `close` are
those they had before and the inode's own. They leave the lists of the VFS alone. -/
structure FreesAll (ops : Ops FS Node World) (blocks : World → Finset Nat) (own : World → Node → Finset Nat) : Prop where
  lookup_leaves : ∀ fs path flags, Keeps listed (ops.lookup fs path flags)
  closeInode_leaves : ∀ fs node, Keeps listed (ops.closeInode fs node)
  open_leaves : ∀ tf flags, Keeps listed (ops.open tf flags)
  close_leaves : ∀ tf, Keeps listed (ops.close tf)
  read_leaves : ∀ tf buf nbyte, Keeps listed (ops.read tf buf nbyte)
  write_leaves : ∀ tf buf nbyte, Keeps listed (ops.write tf buf nbyte)
  lseek_leaves : ∀ tf offset whence, Keeps listed (ops.lseek tf offset whence)
  missing : ∀ {fs path flags s s'}, ops.lookup fs path flags s = .ok (none, s') → blocks s'.world = blocks s.world
  found : ∀ {fs path flags s node s'}, ops.lookup fs path flags s = .ok (some node, s') →
    apart blocks own s'.world node = blocks s.world
  opens : ∀ {tf flags s res s' node}, inodes s tf = some node → ops.open tf flags s = .ok (res, s') →
    apart blocks own s'.world node = apart blocks own s.world node
  closes : ∀ {tf s res s' node}, inodes s tf = some node → ops.close tf s = .ok (res, s') →
    apart blocks own s'.world node = apart blocks own s.world node
  reads : ∀ tf buf nbyte, Keeps (fun s => apart blocks own s.world) (ops.read tf buf nbyte)
  writes : ∀ tf buf nbyte, Keeps (fun s => apart blocks own s.world) (ops.write tf buf nbyte)
  seeks : ∀ tf offset whence, Keeps (fun s => apart blocks own s.world) (ops.lseek tf offset whence)
  frees : ∀ {fs node s s'}, ops.closeInode fs node s = .ok (0, s') → blocks s'.world = apart blocks own s.world node

/-! ## The blocks -/

/-- A use of an open file. -/
inductive Use where
  | read (fd : Int) (buf nbyte : Nat)
  | write (fd : Int) (buf nbyte : Nat)
  | lseek (fd : Int) (offset whence : Int)

def Use.run (ops : Ops FS Node World) : Use → M FS Node World Int
  | .read fd buf nbyte => Vfs.read ops fd buf nbyte
  | .write fd buf nbyte => Vfs.write ops fd buf nbyte
  | .lseek fd offset whence => Vfs.lseek ops fd offset whence

/-- Uses one after the other. -/
inductive Uses (ops : Ops FS Node World) (s : State FS Node World) : State FS Node World → Prop
  | refl : Uses ops s s
  | use {s₁ s₂ : State FS Node World} {u : Use} {res : Int} (uses : Uses ops s s₁) (run : u.run ops s₁ = .ok (res, s₂)) :
      Uses ops s s₂

/-- An `open` that fails, or one that does not with any uses behind it and a successful `close` of its descriptor. -/
inductive Bracket (ops : Ops FS Node World) (path : Option CStr) (flags : AccessFlag) (s : State FS Node World) :
    State FS Node World → Prop
  | failed {t : State FS Node World} (run : Vfs.open ops path flags s = .ok (-1, t)) : Bracket ops path flags s t
  | closed {fd : Int} {s₁ s₂ t : State FS Node World} (run : Vfs.open ops path flags s = .ok (fd, s₁)) (success : fd ≠ -1)
      (uses : Uses ops s₁ s₂) (close : Vfs.close ops fd s₂ = .ok (0, t)) : Bracket ops path flags s t

/-- There is a free descriptor and a mount, `lookup` finds an inode there, and it opens. -/
def Opens (ops : Ops FS Node World) (path : Option CStr) (flags : AccessFlag) (s : State FS Node World) : Prop :=
  ∃ p tk fd mn node s₁ s₂, path = some p ∧ s.current = some tk ∧ findFildeIndex tk = some fd ∧
    (mountOf ops s p).1 = some mn ∧ ops.lookup mn.fs (mountOf ops s p).2 flags s = .ok (some node, s₁) ∧
    ops.open s₁.next flags (s₁.alloc node) = .ok (0, s₂)

section Blocks

variable {ops : Ops FS Node World} {blocks : World → Finset Nat} {own : World → Node → Finset Nat}
  {s s' t : State FS Node World} {path : Option CStr} {flags : AccessFlag}

/-- An open file of an inode: apart from the `file`, the node of the list and the inode's own, the blocks are those of
`before`. -/
structure OpenFile (blocks : World → Finset Nat) (own : World → Node → Finset Nat) (before : Live) (fd tf : Nat) (node : Node)
    (s : State FS Node World) : Prop where
  files : (fun a => s.file a ≠ none) = fun a => a = tf ∨ before.files a
  nodes : s.files = tf :: before.nodes
  blocks : apart blocks own s.world node = before.blocks
  filde : ∃ tk, s.current = some tk ∧ tk.fildes fd = some tf
  inode : inodes s tf = some node

@[simp] theorem inodes_eq_none {a : Nat} : inodes s a = none ↔ s.file a = none := Option.map_eq_none_iff

theorem inodes_update {a : Nat} {f : Option (File Node)} :
    inodes { s with file := Function.update s.file a f } = Function.update (inodes s) a (f.map File.inode) :=
  Function.comp_update (Option.map File.inode) s.file a f

theorem inodes_alloc {node : Node} : inodes (s.alloc node) = Function.update (inodes s) s.next (some node) := inodes_update

/-- A change of a `file` that keeps its inode. -/
theorem inodes_rewritten {a : Nat} {f : File Node} (file : s.file a = some f) :
    inodes { s with file := Function.update s.file a (some { f with refcnt := 0 }) } = inodes s := by
  have same : (some { f with refcnt := 0 }).map File.inode = inodes s a := by
    unfold inodes
    rw [file]
    rfl
  rw [inodes_update, same, Function.update_eq_self]

/-- Whether a `file` is allocated shows in its inode. -/
theorem files_eq (same : inodes s' = inodes s) : (fun a => s'.file a ≠ none) = fun a => s.file a ≠ none := by
  funext a
  rw [ne_eq, ← inodes_eq_none, same, inodes_eq_none]

/-- The parts of `listed`. -/
theorem listed_eq : listed s' = listed s ↔
    s'.files = s.files ∧ s'.current = s.current ∧ s'.next = s.next ∧ inodes s' = inodes s := by
  unfold listed
  simp only [Prod.mk.injEq]

theorem Use.keeps (frees : FreesAll ops blocks own) {u : Use} {res : Int} (run : u.run ops s = .ok (res, s')) :
    listed s' = listed s ∧ apart blocks own s'.world = apart blocks own s.world := by
  cases u with
  | read fd buf nbyte =>
    obtain ⟨tf, acted⟩ := onFile_act run
    exact ⟨frees.read_leaves _ _ _ _ _ _ acted, frees.reads _ _ _ _ _ _ acted⟩
  | write fd buf nbyte =>
    obtain ⟨tf, acted⟩ := onFile_act run
    exact ⟨frees.write_leaves _ _ _ _ _ _ acted, frees.writes _ _ _ _ _ _ acted⟩
  | lseek fd offset whence =>
    obtain ⟨tf, acted⟩ := onFile_act run
    exact ⟨frees.lseek_leaves _ _ _ _ _ _ acted, frees.seeks _ _ _ _ _ _ acted⟩

theorem Uses.keeps (frees : FreesAll ops blocks own) (uses : Uses ops s s') :
    listed s' = listed s ∧ apart blocks own s'.world = apart blocks own s.world := by
  induction uses with
  | refl => exact ⟨rfl, rfl⟩
  | use uses run ih =>
    obtain ⟨listed, apart⟩ := Use.keeps frees run
    exact ⟨listed.trans ih.1, apart.trans ih.2⟩

theorem OpenFile.kept {before : Live} {fd tf : Nat} {node : Node} (file : OpenFile blocks own before fd tf node s)
    (same : listed s' = listed s) (rest : apart blocks own s'.world = apart blocks own s.world) :
    OpenFile blocks own before fd tf node s' := by
  obtain ⟨nodes, current, -, inodes⟩ := listed_eq.1 same
  refine ⟨(files_eq inodes).trans file.files, nodes.trans file.nodes, (congrFun rest node).trans file.blocks, ?_, ?_⟩
  · rw [current]
    exact file.filde
  · rw [inodes]
    exact file.inode

/-- A successful `open` leaves an open file. -/
theorem open_file (frees : FreesAll ops blocks own) {value : Int} (run : OpenRun ops flags s path value t)
    (success : value ≠ -1) : ∃ fd node, value = (fd : Nat) ∧ OpenFile blocks own (live blocks s) fd s.next node t := by
  cases run with
  | noDescriptor task full => exact absurd rfl success
  | noMount mount => exact absurd rfl success
  | missing mount lookup => exact absurd rfl success
  | refused mount lookup opened file nonzero closed => exact absurd rfl success
  | @opened path tk tk₂ fd mn node s₁ s₂ f task room mount lookup opened file task₂ =>
    obtain ⟨nodes₁, -, next₁, inodes₁⟩ := listed_eq.1 (frees.lookup_leaves _ _ _ _ _ _ lookup)
    obtain ⟨nodes₂, -, -, inodes₂⟩ := listed_eq.1 (frees.open_leaves _ _ _ _ _ opened)
    have made : inodes (s₁.alloc node) s₁.next = some node := by rw [inodes_alloc, Function.update_self]
    have inodes' : inodes (s₂.opened tk₂ fd s₁.next f) = Function.update (inodes s) s.next (some node) := by
      rw [← next₁, ← inodes₁, ← inodes_alloc, ← inodes₂]
      exact inodes_rewritten file
    refine ⟨fd, node, rfl, ?_, ?_, ?_, ⟨_, rfl, ?_⟩, ?_⟩
    · funext a
      rw [ne_eq, ← inodes_eq_none, inodes']
      show _ = (a = s.next ∨ s.file a ≠ none)
      rw [ne_eq (s.file a), ← inodes_eq_none]
      rcases eq_or_ne a s.next with rfl | other
      · simp
      · simp [other]
    · show s₁.next :: s₂.files = s.next :: s.files
      rw [next₁, nodes₂]
      exact congrArg (s.next :: ·) nodes₁
    · have before : apart blocks own s₁.world node = blocks s.world := frees.found lookup
      exact (frees.opens made opened).trans before
    · show Function.update tk₂.fildes fd (some s₁.next) fd = some s.next
      rw [Function.update_self, next₁]
    · rw [inodes', Function.update_self]

/-- A failed `open` leaves nothing. -/
theorem open_failed (frees : FreesAll ops blocks own) (fresh : s.file s.next = none) {value : Int}
    (run : OpenRun ops flags s path value t) (failed : value = -1) : live blocks t = live blocks s := by
  cases run with
  | noDescriptor task full => rfl
  | noMount mount => rfl
  | missing mount lookup =>
    obtain ⟨nodes, -, -, inodes⟩ := listed_eq.1 (frees.lookup_leaves _ _ _ _ _ _ lookup)
    exact Live.ext (files_eq inodes) nodes (frees.missing lookup)
  | @refused path mn node s₁ s₂ s₃ f res mount lookup opened file nonzero closed =>
    obtain ⟨nodes₁, -, next₁, inodes₁⟩ := listed_eq.1 (frees.lookup_leaves _ _ _ _ _ _ lookup)
    obtain ⟨nodes₂, -, -, inodes₂⟩ := listed_eq.1 (frees.open_leaves _ _ _ _ _ opened)
    obtain ⟨nodes₃, -, -, inodes₃⟩ := listed_eq.1 (frees.closeInode_leaves _ _ _ _ _ closed)
    have made : inodes (s₁.alloc node) s₁.next = some node := by rw [inodes_alloc, Function.update_self]
    have before : apart blocks own s₁.world node = blocks s.world := frees.found lookup
    refine Live.ext (files_eq ?_) (nodes₃.trans (nodes₂.trans nodes₁)) ?_
    · have cleared : inodes (s₂.cleared s₁.next f) = inodes s₂ := inodes_rewritten file
      have gone : inodes s s.next = none := inodes_eq_none.2 fresh
      have freed : inodes (s₃.freed s₁.next) = Function.update (inodes s₃) s₁.next none := inodes_update
      rw [freed, inodes₃, cleared, inodes₂, inodes_alloc, next₁, inodes₁, Function.update_idem, ← gone,
        Function.update_eq_self]
    · exact (frees.frees closed).trans ((frees.opens made opened).trans before)
  | opened task room mount lookup opened file task₂ =>
    omega

/-- `close` frees all but the `file`. -/
theorem close_file (frees : FreesAll ops blocks own) {before : Live} {fd tf : Nat} {node : Node}
    (file : OpenFile blocks own before fd tf node s) (run : Vfs.close ops fd s = .ok (0, t)) :
    live blocks t = { before with files := fun a => a = tf ∨ before.files a } := by
  obtain ⟨tk, tf', f, f₁, s₁, s₂, tk₂, task, -, filde, read, close, read₁, closed, -, rfl⟩ := close_ok run
  obtain ⟨tk', task', filde'⟩ := file.filde
  rw [task'] at task
  cases task
  rw [Int.toNat_natCast, filde'] at filde
  cases filde
  obtain ⟨nodes₁, -, -, inodes₁⟩ := listed_eq.1 (frees.close_leaves _ _ _ _ close)
  obtain ⟨nodes₂, -, -, inodes₂⟩ := listed_eq.1 (frees.closeInode_leaves _ _ _ _ _ closed)
  have same : f₁.inode = node := by
    have inode := congrFun inodes₁ tf
    rw [file.inode] at inode
    unfold inodes at inode
    rw [read₁] at inode
    exact Option.some.inj inode
  rw [same] at closed
  refine Live.ext ?_ ?_ ?_
  · exact (files_eq (inodes₂.trans inodes₁)).trans file.files
  · show s₂.files.erase tf = before.nodes
    rw [nodes₂, nodes₁, file.nodes, List.erase_cons_head]
  · exact (frees.frees closed).trans ((frees.closes file.inode close).trans file.blocks)

/-- Whether `open` succeeds. -/
theorem opens_iff {value : Int} (run : OpenRun ops flags s path value t) : Opens ops path flags s ↔ value ≠ -1 := by
  constructor
  · rintro ⟨p, tk, fd, mn, node, s₁, s₂, rfl, task, room, mount, lookup, opened⟩
    cases run with
    | noDescriptor task' full =>
      rw [task] at task'
      cases task'
      rw [room] at full
      cases full
    | noMount mount' =>
      rw [mount] at mount'
      cases mount'
    | missing mount' lookup' =>
      rw [mount] at mount'
      cases mount'
      rw [lookup] at lookup'
      cases lookup'
    | refused mount' lookup' opened' file nonzero closed =>
      rw [mount] at mount'
      cases mount'
      rw [lookup] at lookup'
      cases lookup'
      rw [opened] at opened'
      cases opened'
      exact absurd rfl nonzero
    | opened => omega
  · intro success
    cases run with
    | opened task room mount lookup opened file task₂ =>
      exact ⟨_, _, _, _, _, _, _, rfl, task, room, mount, lookup, opened⟩
    | _ => exact absurd rfl success

/-- **The blocks of `open` and `close`.** A bracket of them leaves the live blocks as they were exactly where the `open`
fails. -/
theorem open_close_blocks_iff (frees : FreesAll ops blocks own) (fresh : s.file s.next = none)
    (run : Bracket ops path flags s t) : live blocks t = live blocks s ↔ ¬Opens ops path flags s := by
  cases run with
  | failed run =>
    have failed := open_run run
    refine iff_of_true (open_failed frees fresh failed rfl) ?_
    rw [opens_iff failed]
    exact not_not_intro rfl
  | closed run success uses close =>
    have opened := open_run run
    obtain ⟨fd, node, rfl, file⟩ := open_file frees opened success
    obtain ⟨same, rest⟩ := uses.keeps frees
    rw [close_file frees (file.kept same rest) close]
    refine iff_of_false (fun equal => ?_) (not_not_intro ((opens_iff opened).2 success))
    have left : (live blocks s).files s.next := by
      rw [← equal]
      exact Or.inl rfl
    exact left fresh

end Blocks

/-! ## A filesystem with one block for each inode -/

section OneBlock

/-- `lookup` allocates the inode, and the `close` of the inode frees it. -/
def oneBlock : Ops Unit Nat Heap where
  fs _ := ()
  before _ := 0
  lookup _ _ _ := do
    let heap ← gets State.world
    modify fun s => { s with world := heap.alloc.2 }
    pure (some heap.alloc.1)
  closeInode _ node := do
    let heap ← gets State.world
    match heap.free node with
    | none => throw (.assert "Not a block")
    | some heap => do
      modify fun s => { s with world := heap }
      pure 0
  mkdir _ _ := pure (-1)
  rm _ _ := pure (-1)
  link _ _ _ := pure (-1)
  readdir _ _ := pure []
  access _ _ := pure 0
  «open» _ _ := pure 0
  close _ := pure 0
  read _ _ _ := pure 0
  write _ _ _ := pure 0
  lseek _ _ _ := pure 0

theorem oneBlock_closeInode {node : Nat} {s s' : State Unit Nat Heap} {r : Int}
    (run : oneBlock.closeInode () node s = .ok (r, s')) :
    ∃ heap, s.world.free node = some heap ∧ s' = { s with world := heap } := by
  unfold oneBlock at run
  dsimp only at run
  rw [run_bind (run_gets _)] at run
  cases free : s.world.free node with
  | none =>
    rw [free] at run
    cases run
  | some heap =>
    rw [free] at run
    cases run
    exact ⟨heap, rfl, rfl⟩

theorem oneBlock_frees : FreesAll oneBlock Heap.live fun _ node => {node} where
  lookup_leaves _ _ _ := by
    rintro s _ _ ⟨⟩
    rfl
  closeInode_leaves _ node s r s' run := by
    obtain ⟨heap, -, rfl⟩ := oneBlock_closeInode run
    rfl
  open_leaves _ _ := Keeps.pure _
  close_leaves _ := Keeps.pure _
  read_leaves _ _ _ := Keeps.pure _
  write_leaves _ _ _ := Keeps.pure _
  lseek_leaves _ _ _ := Keeps.pure _
  missing := by
    rintro _ _ _ s s' ⟨⟩
  found := by
    rintro _ _ _ s _ _ ⟨⟩
    show insert s.world.alloc.1 s.world.live \ {s.world.alloc.1} = s.world.live
    rw [Finset.insert_sdiff_of_mem _ (Finset.mem_singleton_self _), Finset.sdiff_singleton_eq_erase]
    exact Finset.erase_eq_of_notMem s.world.alloc_notMem
  opens := by
    rintro _ _ s _ _ _ - ⟨⟩
    rfl
  closes := by
    rintro _ s _ _ _ - ⟨⟩
    rfl
  reads _ _ _ := Keeps.pure _
  writes _ _ _ := Keeps.pure _
  seeks _ _ _ := Keeps.pure _
  frees run := by
    obtain ⟨heap, free, rfl⟩ := oneBlock_closeInode run
    exact (Heap.free_eq_some free).2.trans (Finset.sdiff_singleton_eq_erase _ _).symm

/-- A task without open files, and the filesystem at `/`. -/
def oneBlockStart : State Unit Nat Heap :=
  ⟨∅, [⟨[47], ()⟩], [], fun _ => none, 0, some ⟨fun _ => none⟩, Heap.empty⟩

/-- `/f` is opened and closed. -/
theorem oneBlock_bracket : ∃ s t, Vfs.open oneBlock (some [47, 102]) .fileRead oneBlockStart = .ok (0, s) ∧
    Vfs.close oneBlock 0 s = .ok (0, t) ∧ t.file 0 ≠ none := by
  refine ⟨_, _, rfl, rfl, nofun⟩

theorem open_close_blocks_iff_closed : ∃ t, Bracket oneBlock (some [47, 102]) .fileRead oneBlockStart t ∧
    (live Heap.live t = live Heap.live oneBlockStart ↔ ¬Opens oneBlock (some [47, 102]) .fileRead oneBlockStart) := by
  obtain ⟨s, t, run, close, -⟩ := oneBlock_bracket
  have bracket := Bracket.closed run (by decide) .refl close
  exact ⟨t, bracket, open_close_blocks_iff oneBlock_frees rfl bracket⟩

/-- The `file` of `/f` stays allocated. -/
theorem close_leaves_file : FreesAll oneBlock Heap.live (fun _ node => {node}) ∧
    ∃ s t, Vfs.open oneBlock (some [47, 102]) .fileRead oneBlockStart = .ok (0, s) ∧
      Vfs.close oneBlock 0 s = .ok (0, t) ∧ live Heap.live t ≠ live Heap.live oneBlockStart := by
  obtain ⟨s, t, run, close, left⟩ := oneBlock_bracket
  refine ⟨oneBlock_frees, s, t, run, close, fun equal => ?_⟩
  have none : ¬(live Heap.live t).files 0 := by
    rw [equal]
    exact fun live => live rfl
  exact none left

end OneBlock

end OsLab.Kernel.Vfs
