import Mathlib.Data.List.Flatten
import Mathlib.Data.List.Nodup
import Mathlib.Logic.Relation
import Mathlib.Order.WellFounded

/-!
# Walks of forests

A forest is given by the children of each node, in order, and a well-founded child relation. `walk` lists a tree in preorder,
each node with its depth, and `forest` the trees of some roots one after another. Where no node has two parents, no node is
listed twice (`nodup_nodes`), a parent comes before its children (`parent_first`), and what is below a node comes before the
siblings behind it (`siblings_after`).
-/

namespace OsLab.Forest

open Relation

variable {α : Type}

/-- `a` comes before `b` in a list. -/
def Before (l : List α) (a b : α) : Prop := List.Sublist [a, b] l

section Lists

variable {β : Type} {l k : List α} {f : α → List β} {a b c : α} {x y : β}

theorem Before.mono (before : Before l a b) (part : l.Sublist k) : Before k a b := List.Sublist.trans before part

theorem before_cons (member : b ∈ l) : Before (a :: l) a b := (List.singleton_sublist.2 member).cons_cons a

theorem Before.mem (before : Before l a b) : a ∈ l ∧ b ∈ l :=
  ⟨before.subset List.mem_cons_self, before.subset (List.mem_cons_of_mem a List.mem_cons_self)⟩

/-- In a list without repetitions two elements come in one order. -/
theorem before_asymm (distinct : l.Nodup) (first : Before l a b) : ¬Before l b a := by
  induction l with
  | nil => cases first
  | cons c l ih =>
    rw [List.nodup_cons] at distinct
    intro second
    cases first with
    | cons _ first =>
      cases second with
      | cons _ second => exact ih distinct.2 first second
      | cons_cons _ second => exact distinct.1 (Before.mem first).2
    | cons_cons _ first =>
      cases second with
      | cons _ second => exact distinct.1 (Before.mem second).2
      | cons_cons _ second => exact distinct.1 (List.singleton_sublist.1 first)

theorem before_total (differ : a ≠ b) (left : a ∈ l) (right : b ∈ l) : Before l a b ∨ Before l b a := by
  induction l with
  | nil => cases left
  | cons c l ih =>
    rcases List.mem_cons.1 left with rfl | left'
    · exact .inl (before_cons ((List.mem_cons.1 right).resolve_left (Ne.symm differ)))
    · rcases List.mem_cons.1 right with rfl | right'
      · exact .inr (before_cons left')
      · exact (ih left' right').imp (.cons c) (.cons c)

theorem sublist_flatMap (member : a ∈ l) : (f a).Sublist (l.flatMap f) := by
  have part := List.Sublist.flatMap (List.singleton_sublist.2 member) f
  rwa [List.flatMap_singleton] at part

/-- The parts of a concatenation come in the order of the list. -/
theorem before_flatMap (before : Before l a b) (left : x ∈ f a) (right : y ∈ f b) : Before (l.flatMap f) x y := by
  have parts := List.Sublist.flatMap before f
  rw [List.flatMap_cons, List.flatMap_singleton] at parts
  exact ((List.singleton_sublist.2 left).append (List.singleton_sublist.2 right)).trans parts

end Lists

section Walks

variable {children : α → List α}

/-- The tree below a node in preorder, each node with its depth. -/
def walk (wf : WellFounded fun c p => c ∈ children p) (i : α) : List (Nat × α) :=
  (0, i) :: (children i).attach.flatMap fun c => (walk wf c.1).map fun p => (p.1 + 1, p.2)
termination_by wf.wrap i
decreasing_by exact c.2

variable (wf : WellFounded fun c p => c ∈ children p)

/-- The trees of some roots. -/
def forest (roots : List α) : List (Nat × α) := roots.flatMap (walk wf)

/-- The nodes of a tree. -/
def nodes (i : α) : List α := (walk wf i).map Prod.snd

/-- The nodes of a forest. -/
def forestNodes (roots : List α) : List α := roots.flatMap (nodes wf)

/-- A node is another one or below it. -/
abbrev Below (children : α → List α) : α → α → Prop := ReflTransGen fun p c => c ∈ children p

variable {i j c d p q r x y : α} {n : Nat} {roots : List α}

theorem walk_eq (i : α) : walk wf i = (0, i) :: (children i).flatMap fun c => (walk wf c).map fun p => (p.1 + 1, p.2) := by
  rw [walk, List.flatMap_subtype (g := fun c => (walk wf c).map fun p => (p.1 + 1, p.2)) fun _ _ => rfl,
    List.unattach_attach]

theorem forestNodes_eq : (forest wf roots).map Prod.snd = forestNodes wf roots := by
  unfold forest forestNodes
  rw [List.map_flatMap]
  rfl

/-- The trees of chosen roots, as a loop over all of them comes to them. -/
theorem forest_filter (chosen : α → Prop) [DecidablePred chosen] :
    forest wf (roots.filter fun i => chosen i) = roots.flatMap fun i => if chosen i then walk wf i else [] := by
  unfold forest
  induction roots with
  | nil => rfl
  | cons r roots ih =>
    rw [List.flatMap_cons, ← ih, List.filter_cons]
    simp only [decide_eq_true_eq]
    split
    · rw [List.flatMap_cons]
    · rw [List.nil_append]

theorem nodes_eq (i : α) : nodes wf i = i :: forestNodes wf (children i) := by
  unfold nodes
  rw [walk_eq, List.map_cons, List.map_flatMap]
  congr 1
  unfold forestNodes nodes
  congr 1
  funext c
  rw [List.map_map]
  rfl

theorem mem_nodes : j ∈ nodes wf i ↔ Below children i j := by
  induction i using wf.induction with
  | _ i ih =>
    rw [nodes_eq, List.mem_cons, Below, ReflTransGen.cases_head_iff]
    refine or_congr eq_comm ?_
    unfold forestNodes
    rw [List.mem_flatMap]
    exact exists_congr fun c => and_congr_right fun child => ih c child

theorem mem_forestNodes : j ∈ forestNodes wf roots ↔ ∃ r ∈ roots, Below children r j := by
  unfold forestNodes
  simp only [List.mem_flatMap, mem_nodes]

/-! ### Each node once -/

section Distinct

include wf

/-- No node is below a child of its own. -/
theorem not_below_child (child : c ∈ children p) : ¬Below children c p := by
  intro below
  have cycle : TransGen (fun p c => c ∈ children p) p p := .head' child below
  exact wf.transGen.irrefl.irrefl p (transGen_swap.1 cycle)

variable (parent : ∀ {p q c}, c ∈ children p → c ∈ children q → p = q)

include parent

omit wf in
/-- The nodes above a node are above each other. -/
theorem below_total (left : Below children c x) (right : Below children d x) : Below children c d ∨ Below children d c := by
  have unique : Relator.RightUnique fun c p => c ∈ children p := fun c p q first second => parent first second
  rcases ReflTransGen.total_of_right_unique unique (reflTransGen_swap.2 left) (reflTransGen_swap.2 right) with up | up
  · exact .inr (reflTransGen_swap.1 up)
  · exact .inl (reflTransGen_swap.1 up)

/-- Of two siblings none is below the other. -/
theorem not_below_sibling (left : c ∈ children p) (right : d ∈ children p) (differ : c ≠ d) : ¬Below children c d := by
  intro below
  rcases ReflTransGen.cases_tail below with same | ⟨q, above, child⟩
  · exact differ same.symm
  · rw [parent child right] at above
    exact not_below_child wf left above

variable (distinct : ∀ p, (children p).Nodup)

include distinct

omit distinct in
/-- Of roots or siblings each tree is apart from the others. -/
theorem nodup_forestNodes_of (trees : ∀ r ∈ roots, (nodes wf r).Nodup) (apart : ∀ r ∈ roots, ∀ q ∈ roots, r ≠ q → ¬Below children r q)
    (once : roots.Nodup) : (forestNodes wf roots).Nodup := by
  unfold forestNodes
  rw [List.nodup_flatMap]
  refine ⟨trees, once.pairwise_of_forall_ne fun r left q right differ x first second => ?_⟩
  rw [mem_nodes] at first second
  rcases below_total parent first second with below | below
  · exact apart r left q right differ below
  · exact apart q right r left (Ne.symm differ) below

/-- No node is listed twice in a tree. -/
theorem nodup_nodes (i : α) : (nodes wf i).Nodup := by
  induction i using wf.induction with
  | _ i ih =>
    rw [nodes_eq, List.nodup_cons]
    constructor
    · intro member
      obtain ⟨c, child, below⟩ := (mem_forestNodes wf).1 member
      exact not_below_child wf child below
    · exact nodup_forestNodes_of wf parent ih
        (fun r left q right differ => not_below_sibling wf parent left right differ) (distinct i)

/-- No node is listed twice in a forest of roots. -/
theorem nodup_forestNodes (root : ∀ r ∈ roots, ∀ p, r ∉ children p) (once : roots.Nodup) : (forestNodes wf roots).Nodup := by
  refine nodup_forestNodes_of wf parent (fun r _ => nodup_nodes wf parent distinct r) ?_ once
  intro r left q right differ below
  rcases ReflTransGen.cases_tail below with same | ⟨p, -, child⟩
  · exact differ same.symm
  · exact root q right p child

end Distinct

/-! ### The order -/

theorem mem_self (i : α) : i ∈ nodes wf i := (mem_nodes wf).2 .refl

/-- A parent comes before its children. -/
theorem parent_first (member : p ∈ nodes wf i) (child : c ∈ children p) : Before (nodes wf i) p c := by
  induction i using wf.induction with
  | _ i ih =>
    rw [nodes_eq, List.mem_cons] at member
    rw [nodes_eq]
    rcases member with rfl | member
    · exact before_cons ((mem_forestNodes wf).2 ⟨c, child, .refl⟩)
    · obtain ⟨d, sibling, inside⟩ := List.mem_flatMap.1 member
      exact ((ih d sibling inside).mono (sublist_flatMap sibling)).mono (List.sublist_cons_self _ _)

/-- What is below a node comes before the siblings behind it. -/
theorem siblings_after (member : r ∈ nodes wf i) (before : Before (children r) p q) (left : x ∈ nodes wf p)
    (right : y ∈ nodes wf q) : Before (nodes wf i) x y := by
  induction i using wf.induction with
  | _ i ih =>
    rw [nodes_eq, List.mem_cons] at member
    rw [nodes_eq]
    rcases member with rfl | member
    · exact (before_flatMap before left right).mono (List.sublist_cons_self _ _)
    · obtain ⟨d, sibling, inside⟩ := List.mem_flatMap.1 member
      exact ((ih d sibling inside).mono (sublist_flatMap sibling)).mono (List.sublist_cons_self _ _)

/-- A child is one level deeper than its parent. -/
theorem child_deeper (member : (n, p) ∈ walk wf i) (child : c ∈ children p) : (n + 1, c) ∈ walk wf i := by
  induction i using wf.induction generalizing n with
  | _ i ih =>
    rw [walk_eq, List.mem_cons, Prod.mk.injEq] at member
    rw [walk_eq]
    refine List.mem_cons_of_mem _ ?_
    rcases member with ⟨rfl, rfl⟩ | member
    · refine List.mem_flatMap.2 ⟨c, child, List.mem_map.2 ⟨(0, c), ?_, rfl⟩⟩
      rw [walk_eq]
      exact List.mem_cons_self
    · obtain ⟨d, sibling, inside⟩ := List.mem_flatMap.1 member
      obtain ⟨⟨m, j⟩, listed, same⟩ := List.mem_map.1 inside
      obtain ⟨rfl, rfl⟩ := Prod.mk.inj same
      exact List.mem_flatMap.2 ⟨d, sibling, List.mem_map.2 ⟨(m + 1, c), ih d sibling listed, rfl⟩⟩

theorem forest_parent_first (member : p ∈ forestNodes wf roots) (child : c ∈ children p) :
    Before (forestNodes wf roots) p c := by
  obtain ⟨r, root, inside⟩ := List.mem_flatMap.1 member
  exact (parent_first wf inside child).mono (sublist_flatMap root)

theorem forest_siblings_after (member : r ∈ forestNodes wf roots) (before : Before (children r) p q) (left : x ∈ nodes wf p)
    (right : y ∈ nodes wf q) : Before (forestNodes wf roots) x y := by
  obtain ⟨i, root, inside⟩ := List.mem_flatMap.1 member
  exact (siblings_after wf inside before left right).mono (sublist_flatMap root)

theorem forest_child_deeper (member : (n, p) ∈ forest wf roots) (child : c ∈ children p) : (n + 1, c) ∈ forest wf roots := by
  obtain ⟨r, root, inside⟩ := List.mem_flatMap.1 member
  exact List.mem_flatMap.2 ⟨r, root, child_deeper wf inside child⟩

section Order

variable (once : (forestNodes wf roots).Nodup)

include once

/-- Siblings come in the order of the children they are among. -/
theorem before_children (member : r ∈ forestNodes wf roots) (left : c ∈ children r) (right : d ∈ children r)
    (before : Before (forestNodes wf roots) c d) : Before (children r) c d := by
  have differ : c ≠ d := fun same => before_asymm once before (same ▸ before)
  refine (before_total differ left right).resolve_right fun swapped => ?_
  exact before_asymm once before (forest_siblings_after wf member swapped (mem_self wf d) (mem_self wf c))

theorem before_roots (left : c ∈ roots) (right : d ∈ roots) (before : Before (forestNodes wf roots) c d) : Before roots c d := by
  have differ : c ≠ d := fun same => before_asymm once before (same ▸ before)
  refine (before_total differ left right).resolve_right fun swapped => ?_
  exact before_asymm once before (before_flatMap swapped (mem_self wf d) (mem_self wf c))

end Order

theorem forest_root (root : r ∈ roots) : (0, r) ∈ forest wf roots := by
  refine List.mem_flatMap.2 ⟨r, root, ?_⟩
  rw [walk_eq]
  exact List.mem_cons_self

end Walks

end OsLab.Forest
