import OsLab.Kernel.Pmm.Model
import Mathlib.Data.List.Basic

/-!
# The free list as a chain of headers

`Chain m p ns q` reads the linked list in memory: starting from the pointer `p`, the
headers `ns` follow one another through `next`, and the last link is `q`. The list of the
allocator is `FreeList m head ns := Chain m head ns 0`. The search loops are
read off the chain once (`nodeFindSizeLoop_chain`, `nodeFindPositionLoop_chain`), and the
two edits of the list are frame (`Chain.frame`) and relinking (`Chain.relink`).
-/

namespace OsLab.Kernel.Pmm

open OsLab.Memory

/-- A header address with the size of its payload. -/
structure Span where
  addr : Nat
  size : Nat
  deriving DecidableEq, Repr

/-- The address just after the payload. -/
def Span.stop (b : Span) : Nat := b.addr + sizeofNode + b.size

/-- A `node` header at `n.addr` with the size of `n`. -/
structure NodeAt (m : Mem) (n : Span) : Prop where
  nonnull : n.addr ≠ 0
  magic : magicOf m n.addr = nodeMagic
  size : sizeOf m n.addr = n.size

/-- The headers `ns` are linked from `p` to `q`. -/
def Chain (m : Mem) : Nat → List Span → Nat → Prop
  | p, [], q => p = q
  | p, n :: ns, q => p = n.addr ∧ NodeAt m n ∧ Chain m (nextOf m n.addr) ns q

/-- The list of free nodes reachable from `head`. -/
def FreeList (m : Mem) (head : Nat) (ns : List Span) : Prop := Chain m head ns 0

/-- The address of the last header, or `d` when there is none. -/
def lastAddr (ns : List Span) (d : Nat) : Nat := (ns.getLast?.map Span.addr).getD d

@[simp] theorem lastAddr_nil (d : Nat) : lastAddr [] d = d := rfl

@[simp] theorem lastAddr_concat (ns : List Span) (n : Span) (d : Nat) :
    lastAddr (ns ++ [n]) d = n.addr := by
  simp [lastAddr]

theorem lastAddr_cons (n : Span) (ns : List Span) (d : Nat) :
    lastAddr (n :: ns) d = lastAddr ns n.addr := by
  cases ns with
  | nil => rfl
  | cons k ks => simp [lastAddr, List.getLast?_cons]

/-! ## Header frames -/

section Frame

variable {m m' : Mem} {p : Nat}

theorem magicOf_congr (h : AgreeOn m m' p 12) : magicOf m' p = magicOf m p :=
  read32_congr (h.sub (by omega) (by omega))

theorem sizeOf_congr (h : AgreeOn m m' p 12) : sizeOf m' p = sizeOf m p :=
  read32_congr (h.sub (by omega) (by omega))

theorem nextOf_congr (h : AgreeOn m m' p 12) : nextOf m' p = nextOf m p :=
  read32_congr (h.sub (by omega) (by omega))

theorem NodeAt.frame {n : Span} (h : NodeAt m n) (ag : AgreeOn m m' n.addr 12) : NodeAt m' n where
  nonnull := h.nonnull
  magic := (magicOf_congr ag).trans h.magic
  size := (sizeOf_congr ag).trans h.size

/-- A chain reads only the headers of its nodes. -/
theorem Chain.frame {ns : List Span} {q : Nat} (h : Chain m p ns q)
    (ag : ∀ n ∈ ns, AgreeOn m m' n.addr 12) : Chain m' p ns q := by
  induction ns generalizing p with
  | nil => exact h
  | cons n ns ih =>
    obtain ⟨hp, node, rest⟩ := h
    have here := ag n (by simp)
    refine ⟨hp, node.frame here, ?_⟩
    rw [nextOf_congr here]
    exact ih rest fun k hk => ag k (by simp [hk])

end Frame

/-! ## Concatenation and relinking -/

section Links

variable {m m' : Mem} {p q : Nat}

theorem chain_append {ns ks : List Span} :
    Chain m p (ns ++ ks) q ↔ ∃ r, Chain m p ns r ∧ Chain m r ks q := by
  induction ns generalizing p with
  | nil => simp [Chain]
  | cons n ns ih =>
    simp only [List.cons_append, Chain, ih]
    constructor
    · rintro ⟨hp, node, r, hr, hq⟩
      exact ⟨r, ⟨hp, node, hr⟩, hq⟩
    · rintro ⟨r, ⟨hp, node, hr⟩, hq⟩
      exact ⟨hp, node, r, hr, hq⟩

theorem chain_concat {ns : List Span} {n : Span} :
    Chain m p (ns ++ [n]) q ↔ Chain m p ns n.addr ∧ NodeAt m n ∧ nextOf m n.addr = q := by
  rw [chain_append]
  constructor
  · rintro ⟨r, hr, rfl, node, hq⟩
    exact ⟨hr, node, hq⟩
  · rintro ⟨hr, node, hq⟩
    exact ⟨_, hr, rfl, node, hq⟩

/-- The pointer at the start of a chain that ends in `NULL`. -/
theorem Chain.start {ns : List Span} (h : Chain m p ns 0) :
    p = (ns.head?.map Span.addr).getD 0 := by
  cases ns with
  | nil => exact h
  | cons n ns => exact h.1

/-- Rewriting the last link of a chain, or the list head when the chain is empty,
redirects the chain. Every other header is kept. -/
theorem Chain.relink {ns : List Span} {p' q' : Nat} (h : Chain m p ns q)
    (head : p' = if ns = [] then q' else p)
    (last : ∀ n, ns.getLast? = some n → NodeAt m' n ∧ nextOf m' n.addr = q')
    (ag : ∀ n ∈ ns.dropLast, AgreeOn m m' n.addr 12) : Chain m' p' ns q' := by
  rcases List.eq_nil_or_concat ns with rfl | ⟨ks, n, rfl⟩
  · exact head
  · rw [if_neg (by simp)] at head
    subst head
    rw [List.concat_eq_append] at *
    rw [chain_concat] at h ⊢
    obtain ⟨node, link⟩ := last n (by simp)
    rw [List.dropLast_concat] at ag
    exact ⟨h.1.frame ag, node, link⟩

end Links

/-! ## The search loops -/

/-- One turn of the first-fit loop at a node of the chain. -/
theorem nodeFindSizeLoop_node {m : Mem} {n : Span} (node : NodeAt m n) (size last fuel : Nat) :
    nodeFindSizeLoop m size (fuel + 1) n.addr last =
      if size ≤ n.size then .ok (n.addr, last)
      else nodeFindSizeLoop m size fuel (nextOf m n.addr) n.addr := by
  rw [nodeFindSizeLoop, if_neg node.nonnull, node.size]

/-- First fit: the loop stops at the first node of the chain that is large enough. -/
theorem nodeFindSizeLoop_first {m : Mem} {size : Nat} {xs ys : List Span} {n : Span}
    {p last fuel : Nat} (h : Chain m p (xs ++ n :: ys) 0) (bound : (xs ++ n :: ys).length < fuel)
    (small : ∀ x ∈ xs, x.size < size) (large : size ≤ n.size) :
    nodeFindSizeLoop m size fuel p last = .ok (n.addr, lastAddr xs last) := by
  induction xs generalizing p last fuel with
  | nil =>
    obtain ⟨fuel, rfl⟩ : ∃ k, fuel = k + 1 := ⟨fuel - 1, by simp at bound; omega⟩
    obtain ⟨rfl, node, -⟩ := h
    rw [nodeFindSizeLoop_node node, if_pos large, lastAddr_nil]
  | cons x xs ih =>
    obtain ⟨fuel, rfl⟩ : ∃ k, fuel = k + 1 := ⟨fuel - 1, by simp at bound; omega⟩
    obtain ⟨rfl, node, rest⟩ := h
    have := small x (by simp)
    rw [nodeFindSizeLoop_node node, if_neg (by omega), lastAddr_cons]
    exact ih rest (by simp at bound ⊢; omega) fun y hy => small y (by simp [hy])

/-- The loop returns `NULL` when no node of the chain is large enough. -/
theorem nodeFindSizeLoop_none {m : Mem} {size : Nat} {ns : List Span} {p last fuel : Nat}
    (h : Chain m p ns 0) (bound : ns.length < fuel) (small : ∀ x ∈ ns, x.size < size) :
    nodeFindSizeLoop m size fuel p last = .ok (0, lastAddr ns last) := by
  induction ns generalizing p last fuel with
  | nil =>
    obtain ⟨fuel, rfl⟩ : ∃ k, fuel = k + 1 := ⟨fuel - 1, by simp at bound; omega⟩
    cases h
    simp [nodeFindSizeLoop]
  | cons x xs ih =>
    obtain ⟨fuel, rfl⟩ : ∃ k, fuel = k + 1 := ⟨fuel - 1, by simp at bound; omega⟩
    obtain ⟨rfl, node, rest⟩ := h
    have := small x (by simp)
    rw [nodeFindSizeLoop_node node, if_neg (by omega), lastAddr_cons]
    exact ih rest (by simp at bound; omega) fun y hy => small y (by simp [hy])

/-- The loop over a chain whose nodes all lie above the position keeps its answer. -/
theorem nodeFindPositionLoop_above {m : Mem} {pos : Nat} {ns : List Span} {p ans fuel : Nat}
    (h : Chain m p ns 0) (bound : ns.length < fuel) (above : ∀ n ∈ ns, pos < n.addr) :
    nodeFindPositionLoop m pos fuel p ans = .ok ans := by
  induction ns generalizing p fuel with
  | nil =>
    obtain ⟨fuel, rfl⟩ : ∃ k, fuel = k + 1 := ⟨fuel - 1, by simp at bound; omega⟩
    cases h
    simp [nodeFindPositionLoop]
  | cons n ns ih =>
    obtain ⟨fuel, rfl⟩ : ∃ k, fuel = k + 1 := ⟨fuel - 1, by simp at bound; omega⟩
    obtain ⟨rfl, node, rest⟩ := h
    have := above n (by simp)
    rw [nodeFindPositionLoop, if_neg node.nonnull, if_neg (by omega)]
    exact ih rest (by simp at bound; omega) fun k hk => above k (by simp [hk])

/-- In a chain that lies below the position and then above it, the loop returns the last
node below. -/
theorem nodeFindPositionLoop_chain {m : Mem} {pos : Nat} {xs ys : List Span} {p ans fuel : Nat}
    (h : Chain m p (xs ++ ys) 0) (bound : (xs ++ ys).length < fuel)
    (below : ∀ n ∈ xs, n.addr ≤ pos) (above : ∀ n ∈ ys, pos < n.addr) :
    nodeFindPositionLoop m pos fuel p ans = .ok (lastAddr xs ans) := by
  induction xs generalizing p ans fuel with
  | nil => exact nodeFindPositionLoop_above h bound above
  | cons n xs ih =>
    obtain ⟨fuel, rfl⟩ : ∃ k, fuel = k + 1 := ⟨fuel - 1, by simp at bound; omega⟩
    obtain ⟨rfl, node, rest⟩ := h
    rw [nodeFindPositionLoop, if_neg node.nonnull, if_pos (below n (by simp)), lastAddr_cons]
    exact ih rest (by simp at bound ⊢; omega) fun k hk => below k (by simp [hk])

end OsLab.Kernel.Pmm
