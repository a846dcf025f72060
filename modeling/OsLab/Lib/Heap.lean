import Mathlib.Data.Finset.Basic
import Mathlib.Data.Finset.Disjoint
import Mathlib.Data.Finset.Option

/-!
# Heaps by their live blocks

What matters of a heap where nothing may leak is which blocks are live. A block has a name that is given once; `free`
has no result for a block that is not live. `Holds` splits the live blocks into those that were there before and those
that a computation owns: `alloc` and `free` are its rules.
-/

namespace OsLab

/-- The live blocks, and a bound for the names that have been given. -/
structure Heap where
  live : Finset Nat
  next : Nat
  fresh : ∀ b ∈ live, b < next

namespace Heap

variable {h h' : Heap} {base owned : Finset Nat} {b : Nat}

/-- The heap without blocks. -/
def empty : Heap := ⟨∅, 0, nofun⟩

/-- A new block. -/
def alloc (h : Heap) : Nat × Heap where
  fst := h.next
  snd := ⟨insert h.next h.live, h.next + 1, by
    intro b member
    rcases Finset.mem_insert.1 member with rfl | old
    · exact Nat.lt_succ_self _
    · exact Nat.lt_succ_of_lt (h.fresh b old)⟩

/-- The end of a live block. -/
def free (h : Heap) (b : Nat) : Option Heap :=
  if b ∈ h.live then some ⟨h.live.erase b, h.next, fun c member => h.fresh c (Finset.mem_of_mem_erase member)⟩ else none

theorem alloc_notMem : h.alloc.1 ∉ h.live := fun member => Nat.lt_irrefl _ (h.fresh _ member)

@[simp] theorem live_alloc : h.alloc.2.live = insert h.alloc.1 h.live := rfl

theorem free_live (member : b ∈ h.live) : ∃ h', h.free b = some h' ∧ h'.live = h.live.erase b := by
  unfold free
  rw [if_pos member]
  exact ⟨_, rfl, rfl⟩

theorem free_eq_some (run : h.free b = some h') : b ∈ h.live ∧ h'.live = h.live.erase b := by
  unfold free at run
  split at run
  · next member =>
    cases run
    exact ⟨member, rfl⟩
  · cases run

/-- The live blocks are those of `base` and, apart from them, those that are owned. -/
structure Holds (h : Heap) (base owned : Finset Nat) : Prop where
  live : h.live = base ∪ owned
  apart : Disjoint base owned

theorem holds_self (h : Heap) : h.Holds h.live ∅ := ⟨by simp, by simp⟩

theorem Holds.alloc (holds : h.Holds base owned) : h.alloc.2.Holds base (insert h.alloc.1 owned) := by
  have new := h.alloc_notMem
  rw [holds.live, Finset.mem_union, not_or] at new
  refine ⟨?_, ?_⟩
  · rw [live_alloc, holds.live, Finset.union_insert]
  · rw [Finset.disjoint_insert_right]
    exact ⟨new.1, holds.apart⟩

theorem Holds.alloc_notMem (holds : h.Holds base owned) : h.alloc.1 ∉ owned := fun member =>
  h.alloc_notMem (by simp [holds.live, member])

theorem Holds.free (holds : h.Holds base owned) (member : b ∈ owned) :
    ∃ h', h.free b = some h' ∧ h'.Holds base (owned.erase b) := by
  have live : b ∈ h.live := by simp [holds.live, member]
  have other : b ∉ base := fun inBase => Finset.disjoint_left.1 holds.apart inBase member
  obtain ⟨h', run, erased⟩ := free_live live
  refine ⟨h', run, ?_, holds.apart.mono_right (Finset.erase_subset ..)⟩
  rw [erased, holds.live, Finset.erase_union_distrib, Finset.erase_eq_of_notMem other]

end Heap

/-! ## Runs with a heap beside plain ones -/

/-- A run with a heap beside a run without: both fail with the same error, or what they return and the blocks that are
owned then are related by `post`. -/
inductive Beside {ε α β : Type} (base : Finset Nat) (post : α → β → Finset Nat → Prop) :
    Except ε (α × Heap) → Except ε β → Prop
  | error (e : ε) : Beside base post (.error e) (.error e)
  | ok {a : α} {b : β} {h : Heap} {owned : Finset Nat} (holds : h.Holds base owned) (result : post a b owned) :
      Beside base post (.ok (a, h)) (.ok b)

namespace Beside

variable {ε α α' β β' : Type} {base : Finset Nat} {post post' : α → β → Finset Nat → Prop}
  {next : α' → β' → Finset Nat → Prop} {run : Except ε (α × Heap)} {plain : Except ε β}

theorem bind {f : α × Heap → Except ε (α' × Heap)} {g : β → Except ε β'} (first : Beside base post run plain)
    (rest : ∀ a b h owned, h.Holds base owned → post a b owned → Beside base next (f (a, h)) (g b)) :
    Beside base next (run >>= f) (plain >>= g) := by
  cases first with
  | error e => exact .error e
  | ok holds result => exact rest _ _ _ _ holds result

theorem mono (beside : Beside base post run plain) (weaker : ∀ a b owned, post a b owned → post' a b owned) :
    Beside base post' run plain := by
  cases beside with
  | error e => exact .error e
  | ok holds result => exact .ok holds (weaker _ _ _ result)

/-- A part without blocks. -/
theorem bindPlain {γ : Type} {m : Except ε γ} {f : γ → Except ε (α × Heap)} {g : γ → Except ε β}
    (rest : ∀ c, m = .ok c → Beside base post (f c) (g c)) : Beside base post (m >>= f) (m >>= g) := by
  cases result : m with
  | error e => exact .error e
  | ok c => exact rest c result

/-- What a run with a heap returns and owns. -/
theorem returned {a : α} {h : Heap} (beside : Beside base post run plain) (same : run = .ok (a, h)) :
    ∃ b owned, plain = .ok b ∧ h.Holds base owned ∧ post a b owned := by
  cases beside with
  | error e => cases same
  | ok holds result =>
    cases same
    exact ⟨_, _, rfl, holds, result⟩

/-- What the plain run returns, the one with a heap returns. -/
theorem returns {b : β} (beside : Beside base post run plain) (same : plain = .ok b) :
    ∃ a h owned, run = .ok (a, h) ∧ h.Holds base owned ∧ post a b owned := by
  cases beside with
  | error e => cases same
  | ok holds result =>
    cases same
    exact ⟨_, _, _, rfl, holds, result⟩

end Beside

end OsLab
