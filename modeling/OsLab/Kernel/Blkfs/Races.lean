import OsLab.Kernel.Blkfs.Alongside
import OsLab.Kernel.Blkfs.Creates

/-!
# Two creations on two CPUs

`create_filedir` reads the block of the directory, makes the inode and writes the block back. As long as
one call has written the directory back before the other reads it (`OneAtATime`), nobody disturbs either
of them, and the disk is at every access the one that one creation after the other leads to: `Race.Inv`.
-/

namespace OsLab.Kernel.Blkfs.Stepwise

open OsLab.Memory OsLab.Klib OsLab.Interleave Volume

/-! ## The history -/

/-- How far a CPU has come with its creation. -/
inductive Phase where
  | before
  /-- It has read the directory, on this disk. -/
  | inside (d : Disk)
  | after

/-- The phase of a CPU at the end of a history. -/
def phase (cpu : Bool) : List Event → Phase
  | [] => .before
  | .began c d :: h => if c = cpu then .inside d else phase cpu h
  | .ended c _ :: h => if c = cpu then .after else phase cpu h

/-- Whenever a call has read the directory, the other one has written it back or has not read it. -/
def OneAtATime : List Event → Prop
  | [] => True
  | .began c _ :: h => (∀ d, phase (!c) h ≠ .inside d) ∧ OneAtATime h
  | .ended _ _ :: h => OneAtATime h

instance (p : Phase) : Decidable (∀ d, p ≠ .inside d) :=
  match p with
  | .before => isTrue fun _ same => by cases same
  | .inside d => isFalse fun none => none d rfl
  | .after => isTrue fun _ same => by cases same

instance OneAtATime.decide : (h : List Event) → Decidable (OneAtATime h)
  | [] => isTrue trivial
  | .began c _ :: h =>
    have := OneAtATime.decide h
    inferInstanceAs (Decidable ((∀ d, phase (!c) h ≠ .inside d) ∧ OneAtATime h))
  | .ended _ _ :: h => OneAtATime.decide h

section History

variable {cpu : Bool} {h : List Event} {d : Disk}

@[simp] theorem phase_began : phase cpu (.began cpu d :: h) = .inside d := if_pos rfl

@[simp] theorem phase_ended : phase cpu (.ended cpu d :: h) = .after := if_pos rfl

theorem phase_other {e : Event} (other : e.cpu ≠ cpu) : phase cpu (e :: h) = phase cpu h := by
  cases e with
  | began c d => exact if_neg other
  | ended c d => exact if_neg other

/-- A whole creation on the other CPU. -/
theorem phase_pair {c : Bool} {d' : Disk} (other : c ≠ cpu) :
    phase cpu (.ended c d' :: .began c d :: h) = phase cpu h := by
  simp [phase, other]

/-- What a CPU does leaves the phase of the other one. -/
theorem phase_append {es : List Event} (others : ∀ e ∈ es, e.cpu = !cpu) :
    phase cpu (es ++ h) = phase cpu h := by
  induction es with
  | nil => rfl
  | cons e es ih =>
    have differs : e.cpu ≠ cpu := by
      rw [others e List.mem_cons_self]
      cases cpu <;> decide
    rw [List.cons_append, phase_other differs]
    exact ih fun e mem => others e (List.mem_cons_of_mem _ mem)

end History

/-! ## One creation after the other -/

/-- In block `b` the name is the one of inode `k`, which is in use and has block `c`. -/
structure Refers (fs : Info) (v : Disk) (b : Nat) (name : CStr) (k c : Nat) : Prop where
  named : nameId v b name = k
  slot : k < fs.slots
  busy : InUse v k
  block : (inodeOf v k).blockId = c

section Refers

variable {fs : Info} {v v' : Disk} {n b k ind c : Nat} {name : CStr} {type : InodeType} {d2 : Disk}

theorem Refers.extends (h : Refers fs v b name k c) (ext : Extends fs v v')
    (dir : (volume fs v).IsDir n b) (fit : FitName name) : Refers fs v' b name k c where
  named := by
    rw [ext.named n b dir name fit (by rw [h.named]; omega), h.named]
  slot := h.slot
  busy := ext.inUse h.slot h.busy
  block := by rw [ext.inode k h.slot h.busy, h.block]

/-- With a free block left, the new name is the one of a new inode with a block that was free. -/
theorem created_refers (made : Created fs v v' type b name k ind d2) (owned : Owned fs (volume fs v))
    (dir : (volume fs v).IsDir n b) (kind : type = .file ∨ type = .dir) (terminated : 0 ∉ name)
    (room : ∃ c, fs.IsData c ∧ blockType v c = BlockType.free.code) :
    ∃ c, Refers fs v' b name k c ∧ fs.IsData c ∧ blockType v c = BlockType.free.code := by
  have data := (owned.data dir.used dir.block).1
  have slot := made.first.slot
  have kept := dataOf_allocated made.alloc data slot (not_firstFree owned dir.used dir.block)
  have alloc := made.alloc
  have same := made.inodeOf_eq data slot
  cases alloc with
  | bare full =>
    obtain ⟨c, isData, free⟩ := room
    exact absurd free (full c isData)
  | withBlock c isData found =>
    rw [inodeOf_setInode_self (newInode_fits slot (fits_block isData) (by decide))] at same
    refine ⟨c, ⟨made.nameId_self kept terminated, slot, made.inUse data kind, ?_⟩, isData, found.free⟩
    rw [same]
    rfl

/-- A creation takes one block: another one that was free is free. -/
theorem free_after (made : Created fs v v' type b name k ind d2) (owned : Owned fs (volume fs v))
    (owned' : Owned fs (volume fs v')) (data : fs.IsData b) {x : Nat} (isData : fs.IsData x)
    (free : blockType v x = BlockType.free.code) (refers : Refers fs v' b name k c) (other : x ≠ c) :
    blockType v' x = BlockType.free.code := by
  obtain free' | used := owned'.types x isData
  · rwa [volume_blockType isData] at free'
  · obtain ⟨m, usedM, block⟩ := owned'.owner x isData used
    have slot := slot_of_used usedM
    rw [volume_inode slot] at block
    by_cases new : m = k
    · rw [new, refers.block] at block
      omega
    · have same := made.inodeOf_ne data slot new
      have before : (volume fs v).Used m := by
        rw [volume_used slot] at usedM ⊢
        unfold InUse at usedM ⊢
        rwa [same] at usedM
      refine absurd ?_ (owned.not_free (b := x) before ?_)
      · rw [volume_inode slot, ← same, block]
      · rw [volume_blockType isData, free]

end Refers

/-- Two calls, one on each CPU, that create two missing names of directory `n`. -/
structure Race (fs : Info) (d : Disk) where
  n : Nat
  /-- The block of the directory. -/
  b : Nat
  path : Bool → CStr
  call : Bool → Create
  dir : (volume fs d).IsDir n b
  terminated : ∀ t, 0 ∉ path t
  parent : ∀ t, Blkfs.getPathInode fs d (pathGetDirectory (path t)) = .ok (some (inodeOf d n))
  named : ∀ t, pathGetName (path t) ≠ []
  missing : ∀ t, findName d b (pathGetName (path t)) = none
  different : pathGetName (path false) ≠ pathGetName (path true)

namespace Race

variable {fs : Info} {d : Disk} (race : Race fs d)

def name (t : Bool) : CStr := pathGetName (race.path t)

def type (t : Bool) : InodeType := (race.call t).type

/-- The calls before their first action. -/
def start : Both Shared Halt Int Int where
  state := { disk := d, holder := fun _ => none, history := [] }
  left := (race.call false).call false fs (race.path false)
  right := (race.call true).call true fs (race.path true)

/-- The disk and the history when creations were made one after the other and none is under way. -/
inductive Sequential : List Event → Disk → Prop
  | start : Sequential [] d
  | made {t : Bool} {h : List Event} {v v' : Disk} {id : Int} (before : Sequential h v)
      (create : Blkfs.createFiledir fs v (inodeOf d race.n) (race.type t) (-1) (race.name t) =
        .ok (id, v')) (there : id ≠ -1) : Sequential (.ended t v' :: .began t v :: h) v'

/-- At most one creation is under way, and nobody disturbs it. -/
inductive Inv (s : Shared) : Prop
  | quiet (apart : OneAtATime s.history) (whole : race.Sequential s.history s.disk)
  | busy {t : Bool} {v : Disk} {h : List Event} (apart : OneAtATime s.history)
      (history : s.history = .began t v :: h) (whole : race.Sequential h v)
      (under : Underway fs v s.disk)

/-- What one of the CPUs may do: it notes its own events, and leaves the disk alone while the other one
is creating its file. -/
structure Acts (t : Bool) (s s' : Shared) : Prop where
  inv : race.Inv s → race.Inv s'
  history : ∃ es : List Event, s'.history = es ++ s.history ∧ ∀ e ∈ es, e.cpu = t
  calm : ∀ v, phase (!t) s.history = .inside v → s'.disk = s.disk

/-- Both names are entries of the directory, for two inodes with two blocks. -/
def BothCreated (v : Disk) : Prop :=
  (volume fs v).IsDir race.n race.b ∧ ∃ k c : Bool → Nat,
    (∀ t, Refers fs v race.b (race.name t) (k t) (c t)) ∧ k false ≠ k true ∧ c false ≠ c true

/-- The invariant, at a phase of one of the CPUs. -/
structure At (t : Bool) (p : Phase) (s : Shared) : Prop where
  inv : race.Inv s
  stage : phase t s.history = p

section Basic

variable {race} {t : Bool} {v : Disk} {h : List Event} {s s' s'' : Shared} {p : Phase}

theorem kind (race : Race fs d) (t : Bool) : race.type t = .file ∨ race.type t = .dir := by
  unfold type
  cases race.call t with
  | file append => exact .inl rfl
  | dir => exact .inr rfl

theorem found (race : Race fs d) : Found fs d (inodeOf d race.n) race.n :=
  ⟨race.dir.used, (volume_inode (slot_of_used race.dir.used)).symm⟩

theorem name_ne (race : Race fs d) (t : Bool) : race.name t ≠ race.name (!t) := by
  cases t with
  | false => exact race.different
  | true => exact race.different.symm

theorem notMem_name (race : Race fs d) (t : Bool) : 0 ∉ race.name t :=
  notMem_pathGetName (race.terminated t)

theorem Acts.refl (race : Race fs d) (t : Bool) (s : Shared) : race.Acts t s s :=
  ⟨id, ⟨[], rfl, fun _ mem => absurd mem List.not_mem_nil⟩, fun _ _ => rfl⟩

theorem Acts.phase (acts : race.Acts (!t) s s') :
    Stepwise.phase t s'.history = Stepwise.phase t s.history := by
  obtain ⟨es, whole, others⟩ := acts.history
  rw [whole, phase_append others]

theorem Acts.trans (acts : race.Acts t s s') (more : race.Acts t s' s'') : race.Acts t s s'' := by
  obtain ⟨es, whole, mine⟩ := acts.history
  obtain ⟨es', whole', mine'⟩ := more.history
  refine ⟨more.inv ∘ acts.inv, ⟨es' ++ es, ?_, ?_⟩, fun v inside => ?_⟩
  · rw [whole', whole, List.append_assoc]
  · intro e mem
    rcases List.mem_append.1 mem with mem | mem
    · exact mine' e mem
    · exact mine e mem
  · have same : Stepwise.phase (!t) s'.history = Stepwise.phase (!t) s.history := by
      rw [whole, phase_append]
      simpa using mine
    exact (more.calm v (same.trans inside)).trans (acts.calm v inside)

theorem At.acts (here : race.At t p s) (acts : race.Acts (!t) s s') : race.At t p s' :=
  ⟨acts.inv here.inv, acts.phase.trans here.stage⟩

theorem Inv.apart (inv : race.Inv s) : OneAtATime s.history := by
  cases inv with
  | quiet apart _ => exact apart
  | busy apart _ _ _ => exact apart

end Basic

/-! ### What the sequence of creations leaves -/

section Sequential

variable {race} {t : Bool} {v : Disk} {h : List Event}

/-- The copy of the directory in the race is still the one on the disk. -/
theorem found_extended (ext : Extends fs d v) : Found fs v (inodeOf d race.n) race.n := by
  obtain ⟨slot, busy⟩ := inUse_of_isDir race.dir
  refine ⟨(ext.isDir race.dir).used, ?_⟩
  rw [volume_inode slot, ext.inode race.n slot busy]

/-- The allocations and the names are as one call of the file system after the other leaves them. -/
theorem Sequential.kept (whole : race.Sequential h v) (owned : Owned fs (volume fs d)) :
    Owned fs (volume fs v) ∧ Extends fs d v := by
  induction whole with
  | start => exact ⟨owned, Extends.refl fs d⟩
  | @made t h v v' id before create there ih =>
    obtain ⟨ownedV, ext⟩ := ih
    have found := race.found_extended ext
    obtain ⟨b, data, -, -, ⟨-, minus, -⟩ | ⟨k, ind, d2, -, made⟩⟩ :=
      createFiledir_created ownedV found (race.kind t) create
    · exact absurd minus there
    · obtain ⟨minus, -⟩ | ⟨k, -, -, -, step⟩ := createFiledir_step ownedV found (race.kind t) create
      · exact absurd minus there
      · exact ⟨ownedV.step step, ext.trans (made.extends data ownedV (race.notMem_name t))⟩

theorem Sequential.isDir (whole : race.Sequential h v) (owned : Owned fs (volume fs d)) :
    (volume fs v).IsDir race.n race.b :=
  (whole.kept owned).2.isDir race.dir

theorem Sequential.found (whole : race.Sequential h v) (owned : Owned fs (volume fs d)) :
    Found fs v (inodeOf d race.n) race.n :=
  race.found_extended (whole.kept owned).2

theorem Sequential.data (whole : race.Sequential h v) (owned : Owned fs (volume fs d)) :
    fs.IsData race.b :=
  ((whole.kept owned).1.data (whole.isDir owned).used (whole.isDir owned).block).1

/-- Each creation of the sequence entered its name in the block of the directory. -/
theorem created_of_create {v' : Disk} {id : Int} (whole : race.Sequential h v)
    (owned : Owned fs (volume fs d))
    (create : Blkfs.createFiledir fs v (inodeOf d race.n) (race.type t) (-1) (race.name t) =
      .ok (id, v')) (there : id ≠ -1) :
    ∃ k ind d2, Created fs v v' (race.type t) race.b (race.name t) k ind d2 := by
  obtain ⟨b, data, dir, -, ⟨-, minus, -⟩ | ⟨k, ind, d2, -, made⟩⟩ :=
    createFiledir_created (whole.kept owned).1 (whole.found owned) (race.kind t) create
  · exact absurd minus there
  · have same : (b : Int) = race.b := dir.block.symm.trans (whole.isDir owned).block
    rw [Int.ofNat_inj.1 same] at made
    exact ⟨k, ind, d2, made⟩

/-- A name whose creation has not begun is missing, one whose creation has ended is there. -/
theorem Sequential.names (whole : race.Sequential h v) (owned : Owned fs (volume fs d)) (t : Bool) :
    phase t h = .before ∧ (FitName (race.name t) → findName v race.b (race.name t) = none) ∨
      phase t h = .after ∧ FitName (race.name t) ∧ nameId v race.b (race.name t) ≠ -1 := by
  induction whole with
  | start => exact .inl ⟨rfl, fun _ => race.missing t⟩
  | @made u h v v' id before create there ih =>
    obtain ⟨k, ind, d2, made⟩ := created_of_create before owned create there
    have data := before.data owned
    have ownedV := (before.kept owned).1
    have dir := before.isDir owned
    have fit := fitName_of_short made.short (race.notMem_name u)
    have kept := dataOf_allocated made.alloc data made.first.slot
      (not_firstFree ownedV dir.used dir.block)
    by_cases own : u = t
    · subst own
      refine .inr ⟨phase_ended, fit, ?_⟩
      rw [made.nameId_self kept (race.notMem_name u)]
      omega
    · have other : race.name t ≠ race.name u := by
        rw [show t = !u by cases t <;> cases u <;> simp_all]
        exact (race.name_ne u).symm
      rw [phase_pair own]
      obtain ⟨early, missing⟩ | ⟨late, fitT, named⟩ := ih
      · refine .inl ⟨early, fun fitT => ?_⟩
        rw [made.disk]
        refine findName_setEntry_ne k fit fitT other (findFree_some made.place).1 ?_
        unfold findName
        rw [kept]
        exact missing fitT
      · refine .inr ⟨late, fitT, ?_⟩
        rw [(made.extends data ownedV (race.notMem_name u)).named race.n race.b dir _ fitT named]
        exact named

/-- When both creations have ended, they are the only ones: one follows the other. -/
theorem Sequential.two (whole : race.Sequential h v) (owned : Owned fs (volume fs d))
    (both : ∀ t, phase t h = .after) : ∃ t h1 v1, race.Sequential h1 v1 ∧
      (∃ k ind d2, Created fs d v1 (race.type t) race.b (race.name t) k ind d2) ∧
      ∃ k ind d2, Created fs v1 v (race.type !t) race.b (race.name !t) k ind d2 := by
  have notAgain : ∀ {t h v v' k ind d2}, race.Sequential h v →
      Created fs v v' (race.type t) race.b (race.name t) k ind d2 → phase t h = .before := by
    intro t h v v' k ind d2 before made
    obtain ⟨early, -⟩ | ⟨-, -, named⟩ := before.names owned t
    · exact early
    · refine absurd ?_ named
      unfold nameId
      rw [made.missing]
  cases whole with
  | start => exact absurd (both true) (by simp [phase])
  | @made u h1 v1 v' id before create there =>
    obtain ⟨k, ind, d2, made⟩ := created_of_create before owned create there
    have early := notAgain before made
    have differs : u ≠ !u := by cases u <;> decide
    have late : phase (!u) h1 = .after := by
      have := both (!u)
      rwa [phase_pair differs] at this
    cases before with
    | start => simp [phase] at late
    | @made w h2 v2 v1' id2 before2 create2 there2 =>
      have same : w = !u := by
        by_contra own
        have : w = u := by cases w <;> cases u <;> simp_all
        rw [this, phase_ended] at early
        contradiction
      subst same
      obtain ⟨k2, ind2, d3, made2⟩ := created_of_create before2 owned create2 there2
      have first : v2 = d := by
        cases before2 with
        | start => rfl
        | @made x h3 v3 _ id3 before3 create3 there3 =>
          have earlyW := notAgain (.made before3 create3 there3) made2
          by_cases own : x = u
          · subst own
            rw [phase_pair differs.symm, phase_ended] at early
            contradiction
          · have : x = !u := by cases x <;> cases u <;> simp_all
            rw [this, phase_ended] at earlyW
            contradiction
      subst first
      refine ⟨!u, _, v1, .made before2 create2 there2, ⟨k2, ind2, d3, made2⟩, ?_⟩
      rw [Bool.not_not]
      exact ⟨k, ind, d2, made⟩

theorem Sequential.bothCreated (whole : race.Sequential h v) (owned : Owned fs (volume fs d))
    (both : ∀ t, phase t h = .after)
    (room : ∃ x y, x ≠ y ∧ (fs.IsData x ∧ blockType d x = BlockType.free.code) ∧
      fs.IsData y ∧ blockType d y = BlockType.free.code) : race.BothCreated v := by
  obtain ⟨t, h1, v1, first, ⟨k1, ind1, d1, made1⟩, k2, ind2, d2, made2⟩ := whole.two owned both
  obtain ⟨x, y, differ, freeX, freeY⟩ := room
  have owned1 := (first.kept owned).1
  have dir1 := first.isDir owned
  have data := first.data owned
  obtain ⟨c1, refers1, -, -⟩ :=
    created_refers made1 owned race.dir (race.kind t) (race.notMem_name t) ⟨x, freeX⟩
  have left : ∃ c, fs.IsData c ∧ blockType v1 c = BlockType.free.code := by
    by_cases taken : x = c1
    · exact ⟨y, freeY.1, free_after made1 owned owned1 data freeY.1 freeY.2 refers1 (by omega)⟩
    · exact ⟨x, freeX.1, free_after made1 owned owned1 data freeX.1 freeX.2 refers1 taken⟩
  obtain ⟨c2, refers2, -, free2⟩ :=
    created_refers made2 owned1 dir1 (race.kind !t) (race.notMem_name !t) left
  have fit := fitName_of_short made1.short (race.notMem_name t)
  have stays := refers1.extends (made2.extends data owned1 (race.notMem_name !t)) dir1 fit
  have otherInode : k1 ≠ k2 := fun same => made2.first.empty (same ▸ refers1.busy)
  have otherBlock : c1 ≠ c2 := by
    rintro rfl
    have used := (owned1.data ((volume_used refers1.slot).2 refers1.busy)
      ((congrArg Inode.blockId (volume_inode refers1.slot)).trans refers1.block))
    rw [volume_blockType used.1, free2] at used
    exact absurd used.2 (by decide)
  refine ⟨whole.isDir owned, fun u => if u = t then k1 else k2, fun u => if u = t then c1 else c2,
    fun u => ?_, ?_, ?_⟩
  · dsimp only
    by_cases own : u = t
    · rw [if_pos own, if_pos own, own]
      exact stays
    · rw [if_neg own, if_neg own, show u = !t by cases u <;> cases t <;> simp_all]
      exact refers2
  · cases t <;> simp [otherInode, otherInode.symm]
  · cases t <;> simp [otherBlock, otherBlock.symm]

end Sequential

end Race

end OsLab.Kernel.Blkfs.Stepwise
