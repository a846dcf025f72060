import Mathlib.Data.Finset.Card
import Mathlib.Data.Fintype.Card
import Mathlib.Logic.Relation
import Mathlib.Order.WellFoundedSet
import Mathlib.Tactic.Ring

/-!
# Reference counting

Places `E` hold references to nodes `N`; `target e` is the node that place `e` names. A counting
scheme keeps for each node in use the number of places of a finite set that name it, the reference
of the root from outside, and the references that were lost with a node dropped together with its
places. `Counted` says so; one lemma for each operation keeps it.

When places belong to nodes the references are the edges of a graph. An acyclic one in which every
node but the root is named is all reachable from the root.
-/

namespace OsLab.RefCount

/-! ## Counting references -/

section Refs

variable {E N : Type*} [DecidableEq N] {P : Finset E} {target target' : E → Option N}

/-- How many places of `P` name `k`. -/
def refs (P : Finset E) (target : E → Option N) (k : N) : Nat :=
  (P.filter fun e => target e = some k).card

theorem refs_mono {m : N} (h : ∀ e ∈ P, target' e = some m → target e = some m) :
    refs P target' m ≤ refs P target m := by
  apply Finset.card_le_card
  intro e mem
  rw [Finset.mem_filter] at mem ⊢
  exact ⟨mem.1, h e mem.1 mem.2⟩

theorem refs_pos {e : E} {k : N} (place : e ∈ P) (named : target e = some k) :
    0 < refs P target k :=
  Finset.card_pos.2 ⟨e, Finset.mem_filter.2 ⟨place, named⟩⟩

theorem refs_eq_zero {k : N} (h : ∀ e ∈ P, target e ≠ some k) : refs P target k = 0 := by
  apply Finset.card_eq_zero.2
  exact Finset.filter_eq_empty_iff.2 fun e place => h e place

theorem exists_of_refs_pos {k : N} (h : 0 < refs P target k) : ∃ e ∈ P, target e = some k := by
  obtain ⟨e, mem⟩ := Finset.card_pos.1 h
  exact ⟨e, (Finset.mem_filter.1 mem).1, (Finset.mem_filter.1 mem).2⟩

variable [DecidableEq E]

theorem refs_insert {e : E} {k : N} (place : e ∈ P) (free : target e = none) (m : N) :
    refs P (Function.update target e (some k)) m = refs P target m + if m = k then 1 else 0 := by
  unfold refs
  by_cases same : m = k
  · subst same
    have fresh : e ∉ P.filter fun e => target e = some m := by
      simp [free]
    rw [if_pos rfl, ← Finset.card_insert_of_notMem fresh]
    congr 1
    ext x
    rw [Finset.mem_filter, Finset.mem_insert, Finset.mem_filter]
    by_cases here : x = e
    · subst here
      simp [place]
    · simp [here]
  · rw [if_neg same, Nat.add_zero]
    congr 1
    ext x
    rw [Finset.mem_filter, Finset.mem_filter]
    by_cases here : x = e
    · subst here
      simp [free, Ne.symm same]
    · simp [here]

theorem refs_erase {e : E} {k : N} (place : e ∈ P) (named : target e = some k) (m : N) :
    refs P (Function.update target e none) m + (if m = k then 1 else 0) = refs P target m := by
  have back : Function.update (Function.update target e none) e (some k) = target := by
    rw [Function.update_idem, ← named, Function.update_eq_self]
  rw [← refs_insert place (Function.update_self ..) m, back]

end Refs

/-! ## A counting scheme -/

/-- The nodes in `used` are counted: `count k` is the number of places that name `k`, one more for
the root, and `lost k` references that no place holds any more. -/
structure Counted {E N : Type*} [DecidableEq N] (P : Finset E) (root : N)
    (used : N → Prop) (count : N → Int) (lost : N → Nat) (target : E → Option N) : Prop where
  live : ∀ e ∈ P, ∀ k, target e = some k → used k
  eq : ∀ k, used k → count k = refs P target k + (if k = root then 1 else 0) + lost k
  rooted : used root

section Scheme

variable {E N : Type*} [DecidableEq N] {P : Finset E} {root : N}
  {used used' : N → Prop} {count count' : N → Int} {lost : N → Nat} {target target' : E → Option N}
  {e : E} {k : N}

/-- A counted scheme stays one under other names of its parts. -/
theorem Counted.congr (h : Counted P root used count lost target) (used_iff : ∀ m, used' m ↔ used m)
    (count_eq : ∀ m, used m → count' m = count m) (target_eq : ∀ e ∈ P, target' e = target e) :
    Counted P root used' count' lost target' where
  live e place k named := (used_iff k).2 (h.live e place k ((target_eq e place) ▸ named))
  eq k hk := by
    have same : refs P target' k = refs P target k := by
      unfold refs
      congr 1
      apply Finset.filter_congr
      intro e place
      rw [target_eq e place]
    rw [count_eq k ((used_iff k).1 hk), h.eq k ((used_iff k).1 hk), same]
  rooted := (used_iff root).2 h.rooted

variable [DecidableEq E]

/-- A new node under its first name. -/
theorem Counted.create (h : Counted P root used count lost target) (place : e ∈ P)
    (free : target e = none) (fresh : ¬ used k) :
    Counted P root (fun m => m = k ∨ used m) (Function.update count k 1) (Function.update lost k 0)
      (Function.update target e (some k)) where
  live e' place' m named := by
    by_cases here : e' = e
    · rw [here, Function.update_self, Option.some.injEq] at named
      exact .inl named.symm
    · rw [Function.update_of_ne here] at named
      exact .inr (h.live e' place' m named)
  eq m hm := by
    rw [refs_insert place free m]
    by_cases same : m = k
    · subst same
      have unnamed : refs P target m = 0 :=
        refs_eq_zero fun e place named => fresh (h.live e place m named)
      have notRoot : m ≠ root := fun eq => fresh (eq ▸ h.rooted)
      rw [Function.update_self, Function.update_self, unnamed, if_pos rfl, if_neg notRoot]
      rfl
    · have old := h.eq m (hm.resolve_left same)
      rw [Function.update_of_ne same, Function.update_of_ne same, if_neg same, old]
      rfl
  rooted := .inr h.rooted

/-- One more name of a node. -/
theorem Counted.link (h : Counted P root used count lost target) (place : e ∈ P)
    (free : target e = none) (node : used k) :
    Counted P root used (Function.update count k (count k + 1)) lost
      (Function.update target e (some k)) where
  live e' place' m named := by
    by_cases here : e' = e
    · rw [here, Function.update_self, Option.some.injEq] at named
      exact named ▸ node
    · rw [Function.update_of_ne here] at named
      exact h.live e' place' m named
  eq m hm := by
    have old := h.eq m hm
    rw [refs_insert place free m]
    by_cases same : m = k
    · subst same
      rw [Function.update_self, if_pos (Eq.refl m)]
      omega
    · rw [Function.update_of_ne same, if_neg same]
      exact old
  rooted := h.rooted

/-- One name less of a node that keeps another reference. -/
theorem Counted.unlink (h : Counted P root used count lost target) (place : e ∈ P)
    (named : target e = some k) :
    Counted P root used (Function.update count k (count k - 1)) lost
      (Function.update target e none) where
  live e' place' m hm := by
    by_cases here : e' = e
    · rw [here, Function.update_self] at hm
      contradiction
    · rw [Function.update_of_ne here] at hm
      exact h.live e' place' m hm
  eq m hm := by
    have old := h.eq m hm
    rw [← refs_erase place named m] at old
    by_cases same : m = k
    · subst same
      rw [if_pos (Eq.refl m)] at old
      rw [Function.update_self]
      omega
    · rw [Function.update_of_ne same, old, if_neg same]
      rfl
  rooted := h.rooted

/-- The last reference of a node is a name of it: the node is not the root and no other place names
it. -/
theorem Counted.last (h : Counted P root used count lost target) (place : e ∈ P)
    (named : target e = some k) (single : count k = 1) :
    k ≠ root ∧ refs P (Function.update target e none) k = 0 := by
  have old := h.eq k (h.live e place k named)
  have rest := refs_erase place named k
  rw [if_pos rfl] at rest
  have notRoot : k ≠ root := by
    intro eq
    rw [if_pos eq] at old
    omega
  rw [if_neg notRoot] at old
  exact ⟨notRoot, by omega⟩

/-- A node goes with its last name, and with it places that held references. -/
theorem Counted.drop (h : Counted P root used count lost target) (place : e ∈ P)
    (named : target e = some k) (single : count k = 1)
    (fewer : ∀ e' ∈ P, ∀ m, target' e' = some m → Function.update target e none e' = some m) :
    Counted P root (fun m => used m ∧ m ≠ k) count
      (fun m => lost m + (refs P (Function.update target e none) m - refs P target' m)) target' := by
  obtain ⟨notRoot, unnamed⟩ := h.last place named single
  have gone : ∀ e' ∈ P, Function.update target e none e' ≠ some k := by
    intro e' place' still
    exact absurd unnamed (refs_pos place' still).ne'
  refine ⟨fun e' place' m hm => ?_, fun m hm => ?_, ⟨h.rooted, fun eq => notRoot eq.symm⟩⟩
  · have before := fewer e' place' m hm
    refine ⟨?_, fun eq => gone e' place' (eq ▸ before)⟩
    by_cases here : e' = e
    · rw [here, Function.update_self] at before
      contradiction
    · rw [Function.update_of_ne here] at before
      exact h.live e' place' m before
  · have old := h.eq m hm.1
    have rest := refs_erase place named m
    rw [if_neg hm.2, Nat.add_zero] at rest
    have le : refs P target' m ≤ refs P (Function.update target e none) m :=
      refs_mono fun e' place' => fewer e' place' m
    rw [old, ← rest]
    omega

end Scheme

/-! ## Reachability -/

section Reach

variable {N : Type*} {r : N → N → Prop}

/-- No node reaches itself. -/
def Acyclic (r : N → N → Prop) : Prop := ∀ n, ¬ Relation.TransGen r n n

theorem Acyclic.mono {r' : N → N → Prop} (h : Acyclic r) (sub : ∀ n m, r' n m → r n m) :
    Acyclic r' :=
  fun n cycle => h n (Relation.TransGen.mono sub n n cycle)

/-- A new edge closes no cycle unless its end reached its start. -/
theorem Acyclic.insert {r' : N → N → Prop} {a b : N} (h : Acyclic r)
    (edges : ∀ n m, r' n m → r n m ∨ n = a ∧ m = b) (open_ : ¬ Relation.ReflTransGen r b a) :
    Acyclic r' := by
  -- a path of the new graph is one of the old, or passes the new edge
  have path : ∀ n m, Relation.TransGen r' n m → Relation.TransGen r n m ∨
      Relation.ReflTransGen r n a ∧ Relation.ReflTransGen r b m := by
    intro n m walk
    induction walk with
    | single edge =>
      obtain old | ⟨rfl, rfl⟩ := edges _ _ edge
      · exact .inl (.single old)
      · exact .inr ⟨.refl, .refl⟩
    | tail _ edge ih =>
      obtain old | ⟨rfl, rfl⟩ := edges _ _ edge
      · obtain before | ⟨toA, fromB⟩ := ih
        · exact .inl (before.tail old)
        · exact .inr ⟨toA, fromB.tail old⟩
      · obtain before | ⟨toA, -⟩ := ih
        · exact .inr ⟨before.to_reflTransGen, .refl⟩
        · exact .inr ⟨toA, .refl⟩
  intro n cycle
  obtain old | ⟨toA, fromB⟩ := path n n cycle
  · exact h n old
  · exact open_ (fromB.trans toA)

/-- In an acyclic graph on finitely many nodes, where every node but the root has a predecessor,
the root reaches every node. -/
theorem reachable_of_named {s : Set N} {root : N} (finite : s.Finite) (acyclic : Acyclic r)
    (named : ∀ k ∈ s, k ≠ root → ∃ n ∈ s, r n k) :
    ∀ k ∈ s, Relation.ReflTransGen r root k := by
  have order : IsStrictOrder N (Relation.TransGen r) :=
    { irrefl := acyclic, trans := fun _ _ _ => Relation.TransGen.trans }
  intro k mem
  refine finite.wellFoundedOn.induction (r := Relation.TransGen r) mem fun m hm ih => ?_
  by_cases isRoot : m = root
  · rw [isRoot]
  · obtain ⟨n, hn, edge⟩ := named m hm isRoot
    exact (ih n hn (.single edge)).tail edge

end Reach

end OsLab.RefCount
