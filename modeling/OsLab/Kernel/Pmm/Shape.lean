import OsLab.Kernel.Pmm.Safety
import Mathlib.Data.List.Sort

/-!
# The shape of the free list

The free nodes are the maximal gaps between the live blocks, so the free list is a function of
the live blocks: it does not depend on the order of the calls that made them.
-/

namespace OsLab.Kernel.Pmm

open OsLab.Memory

/-- `x` is an address of the heap outside the live blocks. -/
def FreeByte (lo hi : Nat) (live : List Span) (x : Nat) : Prop :=
  lo ≤ x ∧ x < hi ∧ ∀ b ∈ live, ¬ (b.addr ≤ x ∧ x < b.stop)

/-- `[a, e)` is a maximal gap between the live blocks. -/
abbrev Gap (lo hi : Nat) (live : List Span) (a e : Nat) : Prop := Maximal (FreeByte lo hi live) a e

/-- The nodes are the gaps between the live blocks, in address order and apart from each other. -/
structure Gaps (lo hi : Nat) (live nodes : List Span) : Prop where
  apart : nodes.Pairwise fun a b => a.stop < b.addr
  gap : ∀ a e, Gap lo hi live a e ↔ ∃ n ∈ nodes, n.addr = a ∧ n.stop = e

/-- Two states have the same free list. -/
def SameFreeList (s s' : State) : Prop :=
  s.head = s'.head ∧ ∀ nodes, FreeList s.mem s.head nodes ↔ FreeList s'.mem s'.head nodes

/-- The shape of the heap in the state `s` with the live blocks `live`. -/
structure HeapShape (lo hi : Nat) (s : State) (live : List Span) : Prop where
  /-- The free list consists of the gaps between the live blocks. -/
  gaps : ∃ nodes, FreeList s.mem s.head nodes ∧ Gaps lo hi live nodes
  /-- Any other run with the same live blocks has the same free list. -/
  same : ∀ s' live', Run lo hi s' live' → (∀ b, b ∈ live' ↔ b ∈ live) → SameFreeList s' s
  /-- `alloc` followed by `free` of its result restores the free list. -/
  restored : ∀ size ptr s₁, size + sizeofNode < 2 ^ 32 → alloc s size = .ok (ptr, s₁) →
    ∃ s₂, free s₁ ptr = .ok s₂ ∧ SameFreeList s₂ s
  /-- Without live blocks the free list is the node of `init`. -/
  empty : live = [] → s.head = lo ∧ FreeList s.mem s.head [⟨lo, hi - lo - sizeofNode⟩]

/-- A chain is determined by the memory. -/
theorem Chain.unique {m : Mem} {p : Nat} {xs ys : List Span} (left : Chain m p xs 0) (right : Chain m p ys 0) :
    xs = ys := by
  induction xs generalizing p ys with
  | nil =>
    obtain rfl : p = 0 := left
    cases ys with
    | nil => rfl
    | cons y ys => exact absurd right.1.symm right.2.1.nonnull
  | cons x xs ih =>
    obtain ⟨rfl, node, rest⟩ := left
    cases ys with
    | nil => exact absurd right node.nonnull
    | cons y ys =>
      obtain ⟨same, node', rest'⟩ := right
      obtain rfl : x = y := by
        have size := node.size
        have size' := node'.size
        rw [← same] at size'
        cases x
        cases y
        simp_all
      rw [ih rest rest']

/-- The head of the list is its first node. -/
theorem FreeList.head_eq {m : Mem} {head : Nat} {nodes : List Span} (list : FreeList m head nodes) :
    head = (nodes.head?.map Span.addr).getD 0 := by
  cases nodes with
  | nil => exact list
  | cons n nodes => exact list.1

/-- Two states over the same nodes. -/
theorem sameFreeList_of_nodes {s s' : State} {nodes : List Span} (list : FreeList s.mem s.head nodes)
    (list' : FreeList s'.mem s'.head nodes) : SameFreeList s s' := by
  refine ⟨list.head_eq.trans list'.head_eq.symm, fun ks => ⟨fun h => ?_, fun h => ?_⟩⟩
  · rw [Chain.unique h list]
    exact list'
  · rw [Chain.unique h list']
    exact list

/-- The gaps between the blocks determine the nodes. -/
theorem Gaps.unique {lo hi : Nat} {live live' xs ys : List Span} (left : Gaps lo hi live xs)
    (right : Gaps lo hi live' ys) (same : ∀ b, b ∈ live' ↔ b ∈ live) : xs = ys := by
  have bytes : ∀ x, FreeByte lo hi live x ↔ FreeByte lo hi live' x := by simp [FreeByte, same]
  have ordered : ∀ {zs : List Span}, (zs.Pairwise fun a b => a.stop < b.addr) → zs.Pairwise fun a b => a.addr < b.addr := by
    intro zs apart
    refine apart.imp fun {a b} less => ?_
    unfold Span.stop at less
    omega
  have member : ∀ n, n ∈ xs ↔ n ∈ ys := by
    have inside : ∀ {ks js : List Span}, (∀ a e, (∃ n ∈ ks, n.addr = a ∧ n.stop = e) → ∃ n ∈ js, n.addr = a ∧ n.stop = e) →
        ∀ n ∈ ks, n ∈ js := by
      intro ks js sub n hn
      obtain ⟨k, hk, addr, stop⟩ := sub n.addr n.stop ⟨n, hn, rfl, rfl⟩
      obtain rfl : k = n := by
        cases k
        cases n
        simp_all [Span.stop]
      exact hk
    intro n
    refine ⟨inside (fun a e h => ?_) n, inside (fun a e h => ?_) n⟩
    · exact (right.gap a e).1 ((Maximal.congr bytes).1 ((left.gap a e).2 h))
    · exact (left.gap a e).1 ((Maximal.congr bytes).2 ((right.gap a e).2 h))
  have irrefl : Std.Irrefl fun a b : Span => a.addr < b.addr := ⟨fun a => Nat.lt_irrefl _⟩
  have antisymm : Std.Antisymm fun a b : Span => a.addr < b.addr := ⟨fun a b h k => absurd h (Nat.lt_asymm k)⟩
  exact List.Pairwise.eq_of_mem_iff (ordered left.apart) (ordered right.apart) member

/-- A byte is free exactly if it lies in a free region. -/
theorem freeByte_iff {s : State} {rs : List Region} {live : List Span} (layout : Layout s rs)
    (perm : (blocks rs).Perm live) (x : Nat) :
    FreeByte s.pmStart s.pmEnd live x ↔
      Points (fun r : Region => r.addr) (fun r => r.stop) (fun r => r.used = false) rs x := by
  constructor
  · rintro ⟨lower, upper, outside⟩
    obtain ⟨⟨n, used⟩, hr, range⟩ := layout.tiles.cover lower upper
    refine ⟨⟨n, used⟩, hr, ?_, range⟩
    cases used with
    | false => rfl
    | true => exact absurd range (outside n (perm.mem_iff.1 (mem_blocks.2 hr)))
  · rintro ⟨⟨n, used⟩, hr, rfl, lower, upper⟩
    have bounds := layout.region_bounds hr
    unfold Span.stop sizeofNode at upper
    dsimp only at lower upper
    refine ⟨by omega, by omega, fun b hb inside => ?_⟩
    obtain ⟨r₁, r₂, rfl⟩ := List.append_of_mem hr
    have away := layout.apart_block (b := b) (by simpa using perm.mem_iff.2 hb)
    unfold Span.stop sizeofNode at inside
    omega

/-- The free regions of a coalesced layout are the gaps. -/
theorem gaps_of_layout {s : State} {rs : List Region} {live : List Span} (layout : Layout s rs)
    (coalesced : Coalesced rs) (perm : (blocks rs).Perm live) : Gaps s.pmStart s.pmEnd live (frees rs) := by
  have wide : ∀ r ∈ rs, r.addr < r.stop := by
    intro r _
    unfold Span.stop sizeofNode
    omega
  have chain : rs.IsChain fun x y => ¬ (x.used = false ∧ y.used = false) := by
    refine coalesced.imp fun {x y} used both => ?_
    simp [both] at used
  have gap : ∀ a e, Gap s.pmStart s.pmEnd live a e ↔ ∃ n ∈ frees rs, n.addr = a ∧ n.stop = e := by
    intro a e
    unfold Gap
    rw [Maximal.congr (freeByte_iff layout perm), layout.tiles.maximal_iff wide chain]
    constructor
    · rintro ⟨⟨n, used⟩, hr, rfl, ends⟩
      exact ⟨n, mem_frees.2 hr, ends⟩
    · rintro ⟨n, hn, ends⟩
      exact ⟨⟨n, false⟩, mem_frees.1 hn, rfl, ends⟩
  refine ⟨?_, gap⟩
  refine layout.frees_pairwise.imp_of_mem fun {x y} hx hy order => ?_
  have maximal := (gap x.addr x.stop).2 ⟨x, hx, rfl, rfl⟩
  have next := (gap y.addr y.stop).2 ⟨y, hy, rfl, rfl⟩
  refine Nat.lt_of_le_of_ne order fun touch => ?_
  exact maximal.behind (touch ▸ next.inside y.addr (Nat.le_refl _) next.nonempty)

section Runs

variable {lo hi : Nat} {s s' : State} {live live' : List Span}

theorem Inv.gaps (h : Inv lo hi s live) : ∃ nodes, FreeList s.mem s.head nodes ∧ Gaps lo hi live nodes := by
  obtain ⟨rs, layout, coalesced, perm, rfl, rfl⟩ := h
  exact ⟨frees rs, layout.list, gaps_of_layout layout coalesced perm⟩

theorem Inv.same (h : Inv lo hi s live) (h' : Inv lo hi s' live') (blocks : ∀ b, b ∈ live' ↔ b ∈ live) :
    SameFreeList s' s := by
  obtain ⟨nodes, list, gaps⟩ := h.gaps
  obtain ⟨nodes', list', gaps'⟩ := h'.gaps
  obtain rfl := gaps.unique gaps' blocks
  exact sameFreeList_of_nodes list' list

/-- **The heap returns to the same shape.** After any run over a heap of at least one header the free
list is the list of the gaps between the live blocks, in address order. So it is the same after any
two runs with the same live blocks, `free` undoes the `alloc` before it, and without live
blocks the heap is one node again. -/
theorem heap_shape (positive : 0 < lo) (room : lo + sizeofNode ≤ hi) (below : hi < 2 ^ 32)
    (run : Run lo hi s live) : HeapShape lo hi s live := by
  have inv := run.inv positive room below
  refine ⟨inv.gaps, fun s' live' run' same => inv.same (run'.inv positive room below) same, ?_, ?_⟩
  · intro size ptr s₁ fits ok
    rcases Nat.eq_zero_or_pos ptr with rfl | nonnull
    · exact ⟨s₁, rfl, inv.same (inv_allocFail inv fits ok) fun b => Iff.rfl⟩
    · obtain ⟨addr, rfl⟩ : ∃ addr, ptr = addr + sizeofNode := by
        obtain ⟨rs, layout, -, -, rfl, rfl⟩ := inv
        rcases alloc_spec layout fits with ⟨-, fail⟩ | ⟨r₁, n, r₂, t, rfl, -, -, ok', -⟩
        · rw [fail, Except.ok.injEq, Prod.mk.injEq] at ok
          omega
        · rw [ok', Except.ok.injEq, Prod.mk.injEq] at ok
          exact ⟨n.addr, ok.1.symm⟩
      have allocated := inv_alloc inv fits ok
      have member : (⟨addr, size⟩ : Span) ∈ ⟨addr, size⟩ :: live := by simp
      obtain ⟨s₂, freed⟩ := ((run.alloc fits ok).inv positive room below).freeRuns member
      have back := inv_free allocated member freed
      rw [List.erase_cons_head] at back
      exact ⟨s₂, freed, inv.same back fun b => Iff.rfl⟩
  · rintro rfl
    obtain ⟨head, nodes⟩ := inv.same (inv_init s.mem positive room below) fun b => Iff.rfl
    exact ⟨head.symm, (nodes _).1 (freeList_init s.mem positive room below)⟩

/-- The heap of 48 bytes after `alloc(4)`: one gap is left. -/
theorem heap_shape_after_alloc :
    ∃ s, alloc (init (fun _ => 0) 16 64) 4 = .ok (28, s) ∧ HeapShape 16 64 s [⟨16, 4⟩] := by
  obtain ⟨s, run⟩ : ∃ s, alloc (init (fun _ => 0) 16 64) 4 = .ok (28, s) := ⟨_, rfl⟩
  exact ⟨s, run, heap_shape (by decide) (by decide) (by decide) (.alloc (.init _) (by decide) run)⟩

end Runs

end OsLab.Kernel.Pmm
