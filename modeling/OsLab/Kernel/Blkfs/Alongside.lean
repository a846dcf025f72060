import OsLab.Kernel.Blkfs.Access
import OsLab.Kernel.Blkfs.Extends

/-!
# Walks alongside a creation

While a creation is under way the inodes in use and the blocks that are not free stay as they are, at
every access of the device: `inodeAlloc_visits`, `countEntry_visits`. A path is then resolved as if the
disk stood still (`getPathInode_reads`).
-/

namespace OsLab.Kernel.Blkfs

open OsLab.Memory OsLab.Klib OsLab.Segments OsLab.Interleave Volume

/-- `v` is `d`, but for inodes that are not in use and the first free block. -/
structure Underway (fs : Info) (d v : Disk) : Prop where
  inode : ∀ m < fs.slots, InUse d m → inodeOf v m = inodeOf d m
  data : ∀ c, fs.IsData c → ¬ FirstFree d fs.inodeBlockNum c → dataOf v c = dataOf d c

section Underway

variable {fs : Info} {d v : Disk} {c k : Nat} {type : InodeType}

theorem Underway.refl (fs : Info) (d : Disk) : Underway fs d d :=
  ⟨fun _ _ _ => rfl, fun _ _ _ => rfl⟩

theorem Underway.setType (h : Underway fs d v) (t : BlockType) : Underway fs d (setType v c t) where
  inode m slot busy := (inodeOf_setType v c t m).trans (h.inode m slot busy)
  data b isData old := (dataOf_setType v c b t).trans (h.data b isData old)

theorem Underway.setInode (h : Underway fs d v) {node : Inode} (slot : k < fs.slots)
    (empty : ¬ InUse d k) : Underway fs d (setInode v k node) where
  inode m slotM busy := by
    have other : m ≠ k := by
      rintro rfl
      exact empty busy
    rw [inodeOf_setInode_ne other, h.inode m slotM busy]
  data b isData old := by
    rw [dataOf_setInode (slot_ne_data slot isData).symm, h.data b isData old]

theorem underway_newBlock (isData : fs.IsData c) (free : FirstFree d fs.inodeBlockNum c) :
    Underway fs d (newBlock d type c) where
  inode _ slot _ := inodeOf_newBlock (slot_ne_data slot isData)
  data _ _ old := dataOf_newBlock fun same => old (same ▸ free)

theorem Allocated.underway {refcnt : Int} (h : Allocated fs d type k refcnt v) (slot : k < fs.slots)
    (empty : ¬ InUse d k) : Underway fs d v where
  inode _ slotM busy := inodeOf_allocated_ne h slotM fun same => empty (same ▸ busy)
  data _ isData old := dataOf_allocated h isData slot old

/-- The block of an inode in use has the data it had. -/
theorem Underway.block (h : Underway fs d v) (owned : Owned fs (volume fs d)) {m : Nat}
    (used : (volume fs d).Used m) (block : ((volume fs d).inode m).blockId = c) :
    dataOf v c = dataOf d c :=
  h.data c (owned.data used block).1 (not_firstFree owned used block)

theorem Underway.extends (h : Underway fs d v) (owned : Owned fs (volume fs d)) : Extends fs d v :=
  extends_of_same h.inode fun _ _ dir => h.block owned dir.used dir.block

end Underway

namespace Stepwise

/-! ## Accesses -/

section Accesses

variable {σ α : Type} {I : Disk → Prop} {d : Disk}

theorem ofExcept_visits {J : σ → Prop} {x : Except Halt α} {s : σ} :
    (ofExcept x : Prog σ Halt α).Visits J s := by
  cases x <;> trivial

theorem reading_visits {f : Disk → Except Halt α} (here : I d) : (reading f).Visits I d :=
  fun _ => ⟨here, ofExcept_visits⟩

theorem writing_visits {f : Disk → Except Halt Disk} (here : I d) (after : ∀ d', f d = .ok d' → I d') :
    (writing f).Visits I d := by
  refine fun _ => ⟨?_, ofExcept_visits⟩
  dsimp only
  cases call : f d with
  | error e => exact here
  | ok d' => exact after d' call

theorem reading_reads {Q : α → Prop} {f : Disk → Except Halt α}
    (h : ∀ d, I d → ∀ a, f d = .ok a → Q a) : (reading f).Reads I Q := by
  refine fun d meets _ => ⟨rfl, ?_⟩
  dsimp only
  cases call : f d with
  | error e => trivial
  | ok a => exact h d meets a call

end Accesses

/-! ## A new inode -/

section Alloc

variable {fs : Info} {d : Disk} {type : InodeType}

theorem blockAllocLoop_visits {n i : Nat} : (blockAllocLoop fs n i).Visits (Underway fs d) d := by
  induction n generalizing i with
  | zero => trivial
  | succ n ih =>
    refine (reading_visits (Underway.refl fs d)).bind fun blk d1 run => ?_
    obtain ⟨info, rfl⟩ := reading_alone.1 run
    obtain ⟨-, -, rfl⟩ := blockGetinfo_eq_ok.1 info
    dsimp only
    by_cases free : blockType d1 i = BlockType.free.code
    · rw [if_pos free]
      refine (writing_visits (Underway.refl fs d1) fun d' set => ?_).bind fun _ _ _ => trivial
      rw [(blockSetinfo_eq_ok.1 set).2]
      exact (Underway.refl fs d1).setType .used
    · rw [if_neg free]
      exact ih

theorem prepareBlock_visits {c : Nat} (data : fs.IsData c) (free : FirstFree d fs.inodeBlockNum c) :
    (prepareBlock fs type c).Visits (Underway fs d) (setType d c .used) := by
  have here := (Underway.refl fs d).setType (c := c) .used
  unfold prepareBlock
  by_cases dir : (c : Int) ≠ -1 ∧ type = .dir
  · rw [if_pos dir]
    refine (reading_visits here).bind fun items d1 run => ?_
    obtain ⟨read, rfl⟩ := reading_alone.1 run
    refine writing_visits here fun d' write => ?_
    have init : Blkfs.prepareBlock fs (setType d c .used) type c = .ok d' := by
      unfold Blkfs.prepareBlock
      rw [if_pos dir]
      exact bind_eq_ok.2 ⟨items, read, write⟩
    rw [prepareBlock_block data] at init
    cases init
    exact underway_newBlock data free
  · rw [if_neg dir]
    trivial

theorem inodeAllocLoop_visits {n bk : Nat} (table : bk + n ≤ fs.inodeBlockNum) :
    (inodeAllocLoop fs type n bk).Visits (Underway fs d) d := by
  have start := Underway.refl fs d
  induction n generalizing bk with
  | zero => trivial
  | succ n ih =>
    refine (reading_visits start).bind fun items d1 run => ?_
    obtain ⟨read, rfl⟩ := reading_alone.1 run
    obtain ⟨-, rfl⟩ := blockReaddata_eq_ok.1 read
    cases found : findEmpty (dataOf d1 bk) with
    | none => exact ih (by omega)
    | some i =>
      obtain ⟨small, empty, -⟩ := findEmpty_some found
      have slot : bk * 51 + i < fs.slots := by
        rw [fs.slots_eq]
        omega
      -- the table block is written back over the disk as the allocation of the block left it
      have writeback : ∀ d2 node, Underway fs d1 d2 → dataOf d2 bk = dataOf d1 bk →
          (blockWritedata fs (writeInode (dataOf d1 bk) (sizeofInode * i) node) blockDataSize bk 0).Visits
            (Underway fs d1) d2 := by
        intro d2 node under same
        refine writing_visits under fun d' write => ?_
        rw [(blockWritedata_eq_ok.1 write).2, writeback_slot small same]
        exact under.setInode slot empty
      refine blockAllocLoop_visits.bind fun blockId d2 alloc => ?_
      obtain ⟨rfl, rfl, -⟩ | ⟨c, data, free, rfl, rfl⟩ := blockAlloc_ok (blockAlloc_alone.1 alloc)
      · refine Prog.Visits.bind ?_ fun _ d3 prepare => ?_
        · unfold prepareBlock
          rw [if_neg fun both => both.1 rfl]
          trivial
        · have same := prepareBlock_alone.1 prepare
          rw [prepareBlock_none] at same
          cases same
          exact (writeback d2 _ start rfl).bind fun _ _ _ => trivial
      · refine (prepareBlock_visits data free).bind fun _ d3 prepare => ?_
        have new := prepareBlock_alone.1 prepare
        rw [prepareBlock_block data] at new
        cases new
        have apart : bk ≠ c := by
          have := data.1
          omega
        exact (writeback _ _ (underway_newBlock data free) (dataOf_newBlock apart)).bind
          fun _ _ _ => trivial

/-- At no access `inode_alloc` has changed more than the new inode and its block. -/
theorem inodeAlloc_visits : (inodeAlloc fs type).Visits (Underway fs d) d :=
  inodeAllocLoop_visits (by omega)

/-- Nor has `create_filedir` when it counts the new name. -/
theorem countEntry_visits {d' : Disk} {k : Nat} (empty : ¬ InUse d k) (slot : k < fs.slots)
    (alloc : Allocated fs d type k 0 d') : (countEntry fs k).Visits (Underway fs d) d' := by
  have here := alloc.underway slot empty
  refine (reading_visits here).bind fun found d1 run => ?_
  obtain ⟨get, rfl⟩ := reading_alone.1 run
  rw [ofInt32_slot slot] at get
  cases found with
  | none => trivial
  | some node =>
    obtain ⟨-, rfl⟩ := inodeGet_some get
    obtain ⟨blockId, stored⟩ := alloc.inode slot (by decide)
    refine Prog.Visits.bind ofExcept_visits fun node' d2 add => ?_
    obtain ⟨counts, same⟩ := ofExcept_alone.1 add
    subst same
    obtain ⟨-, rfl⟩ := addRefcnt_eq_ok.1 counts
    refine (reading_visits here).bind fun items d3 read => ?_
    obtain ⟨read, rfl⟩ := reading_alone.1 read
    refine writing_visits here fun d' write => ?_
    have set := inodeSet_eq_ok.1 (bind_eq_ok.2 ⟨items, read, write⟩)
    rw [set.2, stored, show ofInt32 (newInode type k blockId 0).id = k from ofInt32_slot slot]
    exact here.setInode slot empty

end Alloc

/-! ## Resolving a path -/

section Resolve

variable {fs : Info} {d : Disk} {I : Disk → Prop} {Q : Option Inode → Prop} {last : Inode}
  {rest : List CStr}

/-- The loop on disks that extend `d`: it finds what the walk over `names` found on `d`, and ends there
or at the next name, which must then be missing on all of them. -/
theorem getPathInodeLoop_reads (owned : Owned fs (volume fs d)) (meets : ∀ v, I v → Extends fs d v)
    (stop : rest = [] → Q (some last))
    (gone : ∀ name ∈ rest.head?, Q none ∧ ∀ v, I v → ∀ id, Blkfs.getFiledir fs v last name = .ok id → id = -1)
    {fuel m : Nat} {bnode : Inode} {cur : CStr} {names : List CStr} (enough : cur.length < fuel)
    (parts : components cur = names ++ rest) (found : Found fs d bnode m)
    (ended : ∀ name ∈ names, 0 ∉ name) (walked : walk fs d bnode names = .ok (some last)) :
    (getPathInodeLoop fs fuel bnode cur).Reads I Q := by
  induction fuel generalizing bnode cur names m with
  | zero => exact absurd enough (Nat.not_lt_zero _)
  | succ fuel ih =>
    unfold getPathInodeLoop
    cases next : pathNextName cur with
    | none =>
      rw [pathNextName_none next, eq_comm, List.append_eq_nil_iff] at parts
      obtain ⟨rfl, rfl⟩ := parts
      cases walked
      exact stop rfl
    | some turn =>
      obtain ⟨name, nxt⟩ := turn
      have whole : components cur = name :: nxt.elim [] components := by
        cases nxt with
        | none => exact pathNextName_last next
        | some more => exact pathNextName_more next
      rw [whole] at parts
      cases names with
      | nil =>
        cases walked
        obtain ⟨none, missing⟩ := gone name (by rw [← List.nil_append rest, ← parts]; rfl)
        refine (reading_reads fun v here id get => missing v here id get).bind fun id minus => ?_
        rw [if_pos minus]
        exact none
      | cons first names =>
        rw [List.cons_append, List.cons.injEq] at parts
        obtain ⟨rfl, parts⟩ := parts
        rw [walk, bind_eq_ok] at walked
        obtain ⟨child, turn, walked⟩ := walked
        cases child with
        | none => cases walked
        | some chi =>
          obtain ⟨id, get, ⟨-, none⟩ | ⟨there, chi', read, same⟩⟩ := childOf_eq_ok.1 turn
          · contradiction
          · cases same
            have endedName := ended name List.mem_cons_self
            obtain ⟨-, j, slot, rfl⟩ := (Extends.refl fs d).getFiledir_eq owned found endedName get there
            rw [ofInt32_slot slot] at read
            have still : ∀ v, I v → ∀ id, Blkfs.getFiledir fs v bnode name = .ok id → id = j := by
              intro v here id get'
              rw [((meets v here).getFiledir_eq owned found endedName get there).1] at get'
              exact (Except.ok.inj get').symm
            refine (reading_reads still).bind fun id same => ?_
            subst same
            rw [if_neg there, ofInt32_slot slot]
            have child : ∀ v, I v → ∀ r, Blkfs.inodeGet fs v j = .ok r → r = some chi := by
              intro v here r get'
              rw [(meets v here).inodeGet_eq slot read] at get'
              exact (Except.ok.inj get').symm
            refine (reading_reads child).bind fun r same => ?_
            subst same
            cases nxt with
            | none =>
              obtain ⟨rfl, rfl⟩ := List.append_eq_nil_iff.1 parts.symm
              cases walked
              exact stop rfl
            | some cur' =>
              have shorter := pathNextName_shorter next
              exact ih (by omega) parts (found_of_get slot read)
                (fun o mem => ended o (List.mem_cons_of_mem name mem)) walked

theorem getPathInode_reads (owned : Owned fs (volume fs d)) (meets : ∀ v, I v → Extends fs d v)
    {path dir : CStr} (ended : 0 ∉ dir) (parts : components path = components dir ++ rest)
    (resolve : Blkfs.getPathInode fs d dir = .ok (some last)) (stop : rest = [] → Q (some last))
    (gone : ∀ name ∈ rest.head?, Q none ∧
      ∀ v, I v → ∀ id, Blkfs.getFiledir fs v last name = .ok id → id = -1) :
    (getPathInode fs path).Reads I Q := by
  obtain ⟨root, get, walked⟩ := getPathInode_eq_ok.1 resolve
  have slot := root_slot fs
  have still : ∀ v, I v → ∀ r, Blkfs.inodeGet fs v 0 = .ok r → r = some root := by
    intro v here r get'
    rw [(meets v here).inodeGet_eq slot get] at get'
    exact (Except.ok.inj get').symm
  refine (reading_reads still).bind fun r same => ?_
  subst same
  exact getPathInodeLoop_reads owned meets stop gone (Nat.lt_succ_self _) parts (found_of_get slot get)
    (fun name mem => notMem_of_components ended mem) walked

end Resolve

end Stepwise

end OsLab.Kernel.Blkfs
