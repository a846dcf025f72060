import OsLab.Pstree.Model
import OsLab.Lib.Forest
import Mathlib.Data.Fintype.Card
import Mathlib.Data.Fintype.EquivFin
import Mathlib.Data.List.Lex
import Mathlib.Data.List.Sort
import Mathlib.Order.Filter.AtTopBot.Basic
import Mathlib.Order.Filter.Finite

/-!
# The tree of the processes (`showTree`)

A process is the parent of those whose `ppid` is its `pid`. Where that relation has no cycle, the calls of `showTree` print the
forest of the processes with `ppid` 0, in preorder and four spaces further in for each level (`showAll_run`).
-/

namespace OsLab.Pstree

open OsLab.Forest
open Relation Filter

variable {procNumber : Nat}

/-- `j` is the parent of `i`. -/
def ParentOf (procs : Fin procNumber → Process) (i j : Fin procNumber) : Prop := (procs i).ppid = (procs j).pid

/-- Processes as `main` reads them from a system: at most 512, with different positive `pid`s, and none above itself. -/
structure Table (procNumber : Nat) where
  procs : Fin procNumber → Process
  few : procNumber ≤ MAX_PROC
  positive : ∀ i, 0 < (procs i).pid
  different : ∀ i j, (procs i).pid = (procs j).pid → i = j
  acyclic : ∀ i, ¬TransGen (ParentOf procs) i i

/-- A comparison of a total order. -/
def Consistent {α : Type} (cmp : α → α → Int) : Prop :=
  (∀ a b, cmp a b ≤ 0 ∨ cmp b a ≤ 0) ∧ ∀ a b c, cmp a b ≤ 0 → cmp b c ≤ 0 → cmp a c ≤ 0

/-- What `qsort` is documented to do. -/
def Sorts {α : Type} (qsort : (α → α → Int) → List α → List α) : Prop :=
  ∀ cmp, Consistent cmp → ∀ l, (qsort cmp l).Perm l ∧ (qsort cmp l).Pairwise fun a b => cmp a b ≤ 0

/-- The order of the chosen key: the `pid`, or the name by its bytes. -/
def KeyLe (cli : Options) (p q : Process) : Prop :=
  if cli.numericSort then p.pid ≤ q.pid else (Trap.text p.comm).map UInt8.toNat ≤ (Trap.text q.comm).map UInt8.toNat

/-! ## The comparisons -/

section Comparisons

theorem le_iff_lex {s t : List Nat} : s ≤ t ↔ ¬List.Lex (· < ·) t s := not_lt.symm

theorem strcmp_le_zero (s t : List UInt8) (plain : 0 ∉ s) (plain' : 0 ∉ t) :
    strcmp s t ≤ 0 ↔ s.map UInt8.toNat ≤ t.map UInt8.toNat := by
  rw [le_iff_lex]
  induction s generalizing t with
  | nil =>
    refine iff_of_true ?_ List.not_lex_nil
    cases t with
    | nil => exact le_rfl
    | cons b t =>
      unfold strcmp
      omega
  | cons a s ih =>
    cases t with
    | nil =>
      have first : 0 < a.toNat := Nat.pos_of_ne_zero fun zero => plain (List.mem_cons.2 (.inl (UInt8.toNat_inj.1 zero.symm)))
      refine iff_of_false ?_ (not_not.2 .nil)
      unfold strcmp
      omega
    | cons b t =>
      have ih := ih t (fun member => plain (List.mem_cons_of_mem a member)) fun member => plain' (List.mem_cons_of_mem b member)
      rw [List.map_cons, List.map_cons, List.cons_lex_cons_iff, strcmp]
      split
      next same =>
        rw [ih, same]
        simp
      next differ =>
        have differ : a.toNat ≠ b.toNat := fun same => differ (UInt8.toNat_inj.1 same)
        omega

variable (cli : Options) (procs : Fin procNumber → Process) {i j : Fin procNumber}

/-- The comparison is the order of the key. -/
theorem cmp_le_zero : cmp cli procs i j ≤ 0 ↔ KeyLe cli (procs i) (procs j) := by
  unfold cmp KeyLe
  split
  · unfold cmpByPid
    split
    · omega
    · split <;> omega
  · exact strcmp_le_zero _ _ (Trap.zero_notMem_text _) (Trap.zero_notMem_text _)

theorem KeyLe.total (p q : Process) : KeyLe cli p q ∨ KeyLe cli q p := by
  unfold KeyLe
  split
  · exact le_total _ _
  · exact le_total _ _

theorem KeyLe.trans {p q r : Process} (first : KeyLe cli p q) (second : KeyLe cli q r) : KeyLe cli p r := by
  unfold KeyLe at *
  split at first
  next chosen =>
    rw [if_pos chosen] at second ⊢
    exact first.trans second
  next chosen =>
    rw [if_neg chosen] at second ⊢
    exact first.trans second

theorem consistent_cmp : Consistent (cmp cli procs) := by
  constructor
  · intro i j
    rw [cmp_le_zero, cmp_le_zero]
    exact KeyLe.total cli _ _
  · intro i j k
    rw [cmp_le_zero, cmp_le_zero, cmp_le_zero]
    exact KeyLe.trans cli

end Comparisons

/-! ## The calls -/

section Calls

variable (cli : Options) (procs : Fin procNumber → Process)

/-- The line of a process at a depth. -/
def lineAt (offset : Nat) (node : Nat × Fin procNumber) : Printed procNumber :=
  ⟨offset + 4 * node.1, node.2, label cli (procs node.2)⟩

/-- The state after the printing of some nodes. -/
def Shown.after (s : Shown procNumber) (l : List (Nat × Fin procNumber)) : Shown procNumber :=
  ⟨s.offset, fun j => s.showd j || decide (j ∈ l.map Prod.snd), s.out ++ l.map (lineAt cli procs s.offset)⟩

theorem after_nil (s : Shown procNumber) : s.after cli procs [] = s := by
  simp [Shown.after]

theorem after_append (s : Shown procNumber) (l k : List (Nat × Fin procNumber)) :
    (s.after cli procs l).after cli procs k = s.after cli procs (l ++ k) := by
  simp only [Shown.after, List.map_append, List.mem_append, Bool.decide_or, Bool.or_assoc, List.append_assoc]

/-- The line of a process, and the lines below it with the indentation that `showTree` puts back. -/
theorem after_below (s : Shown procNumber) (rid : Fin procNumber) (l : List (Nat × Fin procNumber)) :
    { Shown.after cli procs ⟨s.offset + 4, Function.update s.showd rid true, s.out ++ [⟨s.offset, rid, label cli (procs rid)⟩]⟩ l
      with offset := s.offset } = s.after cli procs ((0, rid) :: l.map fun p => (p.1 + 1, p.2)) := by
  have deeper : ∀ node, lineAt cli procs (s.offset + 4) node = lineAt cli procs s.offset (node.1 + 1, node.2) := by
    intro node
    simp only [lineAt, Printed.mk.injEq, and_true]
    omega
  have nodes : ((0, rid) :: l.map fun p => (p.1 + 1, p.2)).map Prod.snd = rid :: l.map Prod.snd := by
    simp [Function.comp_def]
  unfold Shown.after
  rw [Shown.mk.injEq]
  refine ⟨rfl, funext fun j => ?_, ?_⟩
  · simp only [nodes, List.mem_cons, Bool.decide_or, Function.update_apply]
    split
    next same => simp [same]
    next differ => simp [differ]
  · simp [funext deeper, Function.comp_def, lineAt]

/-- Where each visit prints a tree, a loop of them prints the trees one after another. -/
theorem foldlM_after {visit : Shown procNumber → Fin procNumber → Except Trap (Shown procNumber)}
    {trees : Fin procNumber → List (Nat × Fin procNumber)} {l : List (Fin procNumber)}
    (each : ∀ c ∈ l, ∀ s, visit s c = .ok (s.after cli procs (trees c))) (s : Shown procNumber) :
    l.foldlM visit s = .ok (s.after cli procs (l.flatMap trees)) := by
  induction l generalizing s with
  | nil => exact congrArg Except.ok (after_nil cli procs s).symm
  | cons c l ih =>
    rw [List.foldlM_cons, each c List.mem_cons_self, ok_bind, ih fun d member => each d (List.mem_cons_of_mem c member),
      after_append, List.flatMap_cons]

end Calls

section Runs

variable (t : Table procNumber) {qsort : (Fin procNumber → Fin procNumber → Int) → List (Fin procNumber) → List (Fin procNumber)}
  (sorts : Sorts qsort) (cli : Options)

/-- The children of a process in the order in which `showTree` visits them. -/
def visited (qsort : (Fin procNumber → Fin procNumber → Int) → List (Fin procNumber) → List (Fin procNumber)) (cli : Options)
    (procs : Fin procNumber → Process) (i : Fin procNumber) : List (Fin procNumber) :=
  qsort (cmp cli procs) (childrenOf procs (procs i))

/-- The processes for which `main` calls `showTree`. -/
def rootsOf (procs : Fin procNumber → Process) : List (Fin procNumber) :=
  (List.finRange procNumber).filter fun i => (procs i).ppid = 0

variable {c i j p q : Fin procNumber}

theorem mem_childrenOf : c ∈ childrenOf t.procs (t.procs p) ↔ ParentOf t.procs c p := by
  have positive := t.positive c
  unfold childrenOf ParentOf
  simp only [List.mem_filter, List.mem_finRange, decide_eq_true_eq, true_and]
  exact and_iff_right (by omega)

theorem length_childrenOf (root : Process) : (childrenOf t.procs root).length ≤ MAX_PROC := by
  have few := List.length_filter_le (fun pi => (t.procs pi).pid ≠ -1 ∧ (t.procs pi).ppid = root.pid) (List.finRange procNumber)
  rw [List.length_finRange] at few
  exact few.trans t.few

include sorts

theorem mem_visited : c ∈ visited qsort cli t.procs p ↔ ParentOf t.procs c p := by
  rw [visited, (sorts _ (consistent_cmp cli t.procs) _).1.mem_iff, mem_childrenOf]

theorem nodup_visited (p : Fin procNumber) : (visited qsort cli t.procs p).Nodup :=
  (sorts _ (consistent_cmp cli t.procs) _).1.nodup_iff.2 ((List.nodup_finRange procNumber).filter _)

theorem sorted_visited (before : Before (visited qsort cli t.procs p) i j) : KeyLe cli (t.procs i) (t.procs j) := by
  have sorted := (sorts _ (consistent_cmp cli t.procs) (childrenOf t.procs (t.procs p))).2.sublist before
  exact (cmp_le_zero cli t.procs).1 (List.rel_of_pairwise_cons sorted List.mem_cons_self)

/-- Without a cycle the children are well-founded. -/
theorem wf_visited : WellFounded fun c p => c ∈ visited qsort cli t.procs p := by
  have irreflexive : Std.Irrefl (TransGen (ParentOf t.procs)) := ⟨t.acyclic⟩
  have wf : WellFounded (TransGen (ParentOf t.procs)) := Finite.wellFounded_of_trans_of_irrefl _
  exact Subrelation.wf (fun child => .single ((mem_visited t sorts cli).1 child)) wf

theorem unique_parent (first : c ∈ visited qsort cli t.procs p) (second : c ∈ visited qsort cli t.procs q) : p = q := by
  rw [mem_visited t sorts cli] at first second
  exact t.different p q (first.symm.trans second)

/-- A call of `showTree` prints the tree below the process, and the indentation is what it was. -/
theorem showTree_run (i : Fin procNumber) :
    ∀ᶠ fuel in atTop, ∀ s, showTree qsort cli t.procs fuel i s = .ok (s.after cli t.procs (walk (wf_visited t sorts cli) i)) := by
  have wf := wf_visited t sorts cli
  induction i using wf.induction with
  | _ i ih =>
    have below : ∀ᶠ fuel in atTop, ∀ c, c ∈ visited qsort cli t.procs i → ∀ s,
        showTree qsort cli t.procs fuel c s = .ok (s.after cli t.procs (walk wf c)) :=
      eventually_all.2 fun c => eventually_imp_distrib_left.2 (ih c)
    obtain ⟨enough, below⟩ := eventually_atTop.1 below
    refine eventually_atTop.2 ⟨enough + 1, fun fuel reached s => ?_⟩
    obtain ⟨fuel, rfl⟩ : ∃ n, fuel = n + 1 := ⟨fuel - 1, by omega⟩
    have each := foldlM_after cli t.procs (below fuel (by omega))
    have fits := not_lt.2 (length_childrenOf t (t.procs i))
    unfold visited at each
    simp only [showTree, fits, if_false, each, ok_bind]
    rw [walk_eq, ← List.map_flatMap, ← after_below]
    rfl

/-- The calls from `main` print the forest of the processes with `ppid` 0. -/
theorem showAll_run :
    ∀ᶠ fuel in atTop, showAll qsort cli t.procs fuel =
      .ok (Shown.after cli t.procs ⟨0, fun _ => false, []⟩ (forest (wf_visited t sorts cli) (rootsOf t.procs))) := by
  have trees := eventually_all.2 fun i => showTree_run t sorts cli i
  filter_upwards [trees] with fuel trees
  unfold showAll
  unfold rootsOf
  rw [forest_filter]
  refine foldlM_after cli t.procs (fun i _ s => ?_) _
  split
  next root => exact trees i s
  next inner => rw [after_nil]

end Runs

/-! ## What is printed -/

/-- The `ppid`s lead to a process with `ppid` 0. -/
def Reached (procs : Fin procNumber → Process) (i : Fin procNumber) : Prop :=
  ∃ r, ReflTransGen (ParentOf procs) i r ∧ (procs r).ppid = 0

/-- The output for a complete tree. -/
structure Complete (cli : Options) (procs : Fin procNumber → Process) (out : List (Printed procNumber)) : Prop where
  once : (out.map Printed.rid).Nodup
  all : ∀ i, i ∈ out.map Printed.rid ↔ Reached procs i
  texts : ∀ line ∈ out, line.text = label cli (procs line.rid)
  outermost : ∀ line ∈ out, (procs line.rid).ppid = 0 → line.offset = 0
  deeper : ∀ line ∈ out, ∀ child ∈ out, ParentOf procs child.rid line.rid → child.offset = line.offset + 4
  after : ∀ i j, Reached procs i → ParentOf procs i j → Before (out.map Printed.rid) j i
  /-- What is below a process comes before its next sibling. -/
  within : ∀ p q, (procs p).ppid = (procs q).ppid → Before (out.map Printed.rid) p q →
    ∀ i, ReflTransGen (ParentOf procs) i p → Before (out.map Printed.rid) i q
  ordered : ∀ p i j, ParentOf procs i p → ParentOf procs j p → Before (out.map Printed.rid) i j →
    KeyLe cli (procs i) (procs j)
  /-- Those that have no parent come as they do in the table. -/
  roots : ∀ i j, (procs i).ppid = 0 → (procs j).ppid = 0 → i < j → Before (out.map Printed.rid) i j

section Output

variable (t : Table procNumber) {qsort : (Fin procNumber → Fin procNumber → Int) → List (Fin procNumber) → List (Fin procNumber)}
  (sorts : Sorts qsort) (cli : Options) {i j p q r : Fin procNumber}

theorem mem_rootsOf {procs : Fin procNumber → Process} : r ∈ rootsOf procs ↔ (procs r).ppid = 0 := by
  simp [rootsOf]

theorem Reached.parent (reached : Reached t.procs i) (parent : ParentOf t.procs i j) : Reached t.procs j := by
  obtain ⟨r, path, root⟩ := reached
  rcases path.cases_head with rfl | ⟨k, first, path⟩
  · have positive := t.positive j
    have ended : (t.procs j).pid = 0 := parent.symm.trans root
    omega
  · rw [t.different k j (first.symm.trans parent)] at path
    exact ⟨r, path, root⟩

include sorts

theorem below_visited : Below (visited qsort cli t.procs) p i ↔ ReflTransGen (ParentOf t.procs) i p := by
  have same : (fun c p => c ∈ visited qsort cli t.procs p) = ParentOf t.procs :=
    funext fun c => funext fun p => propext (mem_visited t sorts cli)
  rw [← same]
  exact reflTransGen_swap

theorem mem_printed : i ∈ forestNodes (wf_visited t sorts cli) (rootsOf t.procs) ↔ Reached t.procs i := by
  rw [mem_forestNodes]
  refine exists_congr fun r => ?_
  rw [mem_rootsOf, below_visited t sorts cli]
  exact and_comm

theorem nodup_printed : (forestNodes (wf_visited t sorts cli) (rootsOf t.procs)).Nodup := by
  refine nodup_forestNodes _ (unique_parent t sorts cli) (nodup_visited t sorts cli) ?_ ((List.nodup_finRange procNumber).filter _)
  intro r root p child
  have positive := t.positive p
  have ended : (t.procs p).pid = 0 := ((mem_visited t sorts cli).1 child).symm.trans (mem_rootsOf.1 root)
  omega

theorem before_of_parent (reached : Reached t.procs i) (parent : ParentOf t.procs i j) :
    Before (forestNodes (wf_visited t sorts cli) (rootsOf t.procs)) j i :=
  forest_parent_first _ ((mem_printed t sorts cli).2 (reached.parent t parent)) ((mem_visited t sorts cli).2 parent)

/-- What is below a process comes before the next process with the same `ppid`. -/
theorem before_next (same : (t.procs p).ppid = (t.procs q).ppid)
    (before : Before (forestNodes (wf_visited t sorts cli) (rootsOf t.procs)) p q) (below : ReflTransGen (ParentOf t.procs) i p) :
    Before (forestNodes (wf_visited t sorts cli) (rootsOf t.procs)) i q := by
  have once := nodup_printed t sorts cli
  have inside : i ∈ nodes (wf_visited t sorts cli) p := (mem_nodes _).2 ((below_visited t sorts cli).2 below)
  obtain ⟨r, path, root⟩ := (mem_printed t sorts cli).1 before.mem.1
  rcases path.cases_head with rfl | ⟨k, first, path⟩
  · -- calls of `main`
    have calls := before_roots _ once (mem_rootsOf.2 root) (mem_rootsOf.2 (same.symm.trans root)) before
    exact before_flatMap calls inside (mem_self _ q)
  · -- calls of the parent
    have member := (mem_printed t sorts cli).2 ⟨r, path, root⟩
    have calls := before_children _ once member ((mem_visited t sorts cli).2 first)
      ((mem_visited t sorts cli).2 (same.symm.trans first)) before
    exact forest_siblings_after _ member calls inside (mem_self _ q)

theorem key_of_before (left : ParentOf t.procs i p) (right : ParentOf t.procs j p)
    (before : Before (forestNodes (wf_visited t sorts cli) (rootsOf t.procs)) i j) : KeyLe cli (t.procs i) (t.procs j) := by
  have reached := ((mem_printed t sorts cli).1 before.mem.1).parent t left
  refine sorted_visited t sorts cli (before_children _ (nodup_printed t sorts cli) ((mem_printed t sorts cli).2 reached) ?_ ?_ before)
  · exact (mem_visited t sorts cli).2 left
  · exact (mem_visited t sorts cli).2 right

theorem roots_in_order (left : (t.procs i).ppid = 0) (right : (t.procs j).ppid = 0) (lower : i < j) :
    Before (forestNodes (wf_visited t sorts cli) (rootsOf t.procs)) i j := by
  have ordered : (rootsOf t.procs).Pairwise (· < ·) := (List.pairwise_lt_finRange procNumber).filter _
  have calls := before_total (ne_of_lt lower) (mem_rootsOf.2 left) (mem_rootsOf.2 right)
  refine before_flatMap (calls.resolve_right fun swapped => ?_) (mem_self _ i) (mem_self _ j)
  exact lower.asymm (List.rel_of_pairwise_cons (ordered.sublist swapped) List.mem_cons_self)

theorem forest_complete :
    Complete cli t.procs ((forest (wf_visited t sorts cli) (rootsOf t.procs)).map (lineAt cli t.procs 0)) := by
  have wf := wf_visited t sorts cli
  have rids : ((forest wf (rootsOf t.procs)).map (lineAt cli t.procs 0)).map Printed.rid = forestNodes wf (rootsOf t.procs) := by
    rw [List.map_map, ← forestNodes_eq]
    rfl
  have once := nodup_printed t sorts cli
  -- a process is in one line, and so at one depth
  have depth : ∀ {n m i}, (n, i) ∈ forest wf (rootsOf t.procs) → (m, i) ∈ forest wf (rootsOf t.procs) → n = m := by
    intro n m i first second
    rw [← forestNodes_eq] at once
    exact congrArg Prod.fst (List.inj_on_of_nodup_map once first second rfl)
  constructor
  case once => rwa [rids]
  case all =>
    intro i
    rw [rids]
    exact mem_printed t sorts cli
  case texts =>
    intro line member
    obtain ⟨node, -, rfl⟩ := List.mem_map.1 member
    rfl
  case outermost =>
    intro line member root
    obtain ⟨⟨n, i⟩, listed, rfl⟩ := List.mem_map.1 member
    rw [lineAt, depth listed (forest_root wf (mem_rootsOf.2 root))]
    rfl
  case deeper =>
    intro line member child member' parent
    obtain ⟨⟨n, i⟩, listed, rfl⟩ := List.mem_map.1 member
    obtain ⟨⟨m, j⟩, listed', rfl⟩ := List.mem_map.1 member'
    have below := forest_child_deeper wf listed ((mem_visited t sorts cli).2 parent)
    rw [depth listed' below]
    show 0 + 4 * (n + 1) = 0 + 4 * n + 4
    omega
  case after =>
    intro i j reached parent
    rw [rids]
    exact before_of_parent t sorts cli reached parent
  case within =>
    rw [rids]
    intro p q same before i below
    exact before_next t sorts cli same before below
  case ordered =>
    rw [rids]
    intro p i j left right before
    exact key_of_before t sorts cli left right before
  case roots =>
    rw [rids]
    intro i j left right lower
    exact roots_in_order t sorts cli left right lower

/-- The calls of `showTree` from `main` come to an end, put the indentation back, and print the complete tree. -/
theorem showAll_complete :
    ∃ shown, (∃ enough, ∀ fuel, enough ≤ fuel → showAll qsort cli t.procs fuel = .ok shown) ∧
      shown.offset = 0 ∧ Complete cli t.procs shown.out :=
  ⟨_, eventually_atTop.1 (showAll_run t sorts cli), rfl, forest_complete t sorts cli⟩

end Output

section Example

/-- A root with two children, and a process whose parent is not in the table. -/
def family (i : Fin 4) : Process :=
  ⟨i.val + 1, [99, 97, 98, 100].getD i.val 0 :: [0], 83, [0, 1, 1, 9].getD i.val 0⟩

def familyTable : Table 4 where
  procs := family
  few := by decide
  positive := by decide
  different := by decide
  acyclic := by
    have earlier : ∀ i j, ParentOf family i j → j < i := by
      unfold ParentOf
      decide
    have above : ∀ {i j}, TransGen (ParentOf family) i j → j < i := by
      intro i j path
      induction path with
      | single first => exact earlier _ _ first
      | tail _ last ih => exact (earlier _ _ last).trans ih
    exact fun i cycle => lt_irrefl i (above cycle)

theorem mergeSort_sorts {α : Type} : Sorts fun (cmp : α → α → Int) l => l.mergeSort fun a b => cmp a b ≤ 0 := by
  intro cmp consistent l
  refine ⟨List.mergeSort_perm l _, ?_⟩
  have sorted : (l.mergeSort fun a b => cmp a b ≤ 0).Pairwise fun a b => decide (cmp a b ≤ 0) = true := List.pairwise_mergeSort
    (fun a b c first second => decide_eq_true (consistent.2 a b c (of_decide_eq_true first) (of_decide_eq_true second)))
    (fun a b => by simpa using consistent.1 a b) l
  exact sorted.imp of_decide_eq_true

theorem showAll_complete_family :
    ∃ shown, (∃ enough, ∀ fuel, enough ≤ fuel →
      showAll (fun cmp l => l.mergeSort fun a b => cmp a b ≤ 0) ⟨true, false⟩ familyTable.procs fuel = .ok shown) ∧
      shown.offset = 0 ∧ Complete ⟨true, false⟩ familyTable.procs shown.out :=
  showAll_complete familyTable mergeSort_sorts ⟨true, false⟩

end Example

end OsLab.Pstree
