import OsLab.Kernel.Pmm.Header
import OsLab.Lib.Tiling
import Mathlib.Data.List.Pairwise

/-!
# The heap as a tiling by regions

A region is a header with its payload, allocated or free. `Layout s rs` is the invariant
of the allocator: the regions `rs` tile the heap, the free ones in address order are
exactly the free list in memory, and each allocated one carries a `block` header with its
size. `alloc` replaces one free region by an allocated and a free one (`alloc_spec`);
`node_combine` replaces two adjacent free regions by one (`Layout.combine`).
-/

namespace OsLab.Kernel.Pmm

open OsLab.Memory

/-- A header with its payload. -/
structure Region extends Span where
  used : Bool

/-- The free regions, in order. -/
def frees (rs : List Region) : List Span := (rs.filter fun r => !r.used).map Region.toSpan

/-- The allocated regions, in order. -/
def blocks (rs : List Region) : List Span := (rs.filter fun r => r.used).map Region.toSpan

/-- The regions lie end to end over `[a, b)`. -/
abbrev RegionTiles (a : Nat) (rs : List Region) (b : Nat) : Prop :=
  Tiles (fun r : Region => r.addr) (fun r => r.stop) a rs b

section Lists

variable {rs ks : List Region} {b n : Span}

@[simp] theorem frees_nil : frees [] = [] := rfl

@[simp] theorem blocks_nil : blocks [] = [] := rfl

@[simp] theorem frees_append : frees (rs ++ ks) = frees rs ++ frees ks := by simp [frees]

@[simp] theorem blocks_append : blocks (rs ++ ks) = blocks rs ++ blocks ks := by simp [blocks]

@[simp] theorem frees_free : frees (⟨n, false⟩ :: rs) = n :: frees rs := rfl

@[simp] theorem frees_used : frees (⟨n, true⟩ :: rs) = frees rs := rfl

@[simp] theorem blocks_free : blocks (⟨n, false⟩ :: rs) = blocks rs := rfl

@[simp] theorem blocks_used : blocks (⟨n, true⟩ :: rs) = n :: blocks rs := rfl

theorem mem_frees : n ∈ frees rs ↔ (⟨n, false⟩ : Region) ∈ rs := by
  simp only [frees, List.mem_map, List.mem_filter, Bool.not_eq_true']
  constructor
  · rintro ⟨⟨span, used⟩, ⟨member, rfl⟩, rfl⟩
    exact member
  · intro member
    exact ⟨_, ⟨member, rfl⟩, rfl⟩

theorem mem_blocks : b ∈ blocks rs ↔ (⟨b, true⟩ : Region) ∈ rs := by
  simp only [blocks, List.mem_map, List.mem_filter]
  constructor
  · rintro ⟨⟨span, used⟩, ⟨member, rfl⟩, rfl⟩
    exact member
  · intro member
    exact ⟨_, ⟨member, rfl⟩, rfl⟩

/-- A node of the free list is a free region, and the nodes around it are the free regions
around that one. -/
theorem split_frees {xs ys : List Span} (h : frees rs = xs ++ n :: ys) :
    ∃ r₁ r₂, rs = r₁ ++ ⟨n, false⟩ :: r₂ ∧ frees r₁ = xs ∧ frees r₂ = ys := by
  induction rs generalizing xs with
  | nil => simp [frees] at h
  | cons r rs ih =>
    rcases r with ⟨span, used⟩
    cases used with
    | true =>
      obtain ⟨r₁, r₂, rfl, h₁, h₂⟩ := ih h
      exact ⟨⟨span, true⟩ :: r₁, r₂, rfl, h₁, h₂⟩
    | false =>
      rw [frees_free] at h
      cases xs with
      | nil =>
        obtain ⟨rfl, rest⟩ := List.cons.inj h
        exact ⟨[], rs, rfl, rfl, rest⟩
      | cons x xs =>
        obtain ⟨rfl, rest⟩ := List.cons.inj h
        obtain ⟨r₁, r₂, rfl, rfl, h₂⟩ := ih rest
        exact ⟨⟨span, false⟩ :: r₁, r₂, rfl, rfl, h₂⟩

end Lists

/-- The invariant of the allocator. -/
structure Layout (s : State) (rs : List Region) : Prop where
  tiles : RegionTiles s.pmStart rs s.pmEnd
  list : FreeList s.mem s.head (frees rs)
  header : ∀ b ∈ blocks rs, BlockAt s.mem b
  positive : 0 < s.pmStart
  below : s.pmEnd < 2 ^ 32

namespace Layout

variable {s : State} {rs : List Region}

theorem region_bounds (h : Layout s rs) {n : Span} {u : Bool} (hn : (⟨n, u⟩ : Region) ∈ rs) :
    s.pmStart ≤ n.addr ∧ n.addr + 12 + n.size ≤ s.pmEnd := by
  have := h.tiles.mem_bounds hn
  exact ⟨this.1, this.2.2⟩

theorem free_bounds (h : Layout s rs) {n : Span} (hn : n ∈ frees rs) :
    s.pmStart ≤ n.addr ∧ n.addr + 12 + n.size ≤ s.pmEnd :=
  h.region_bounds (mem_frees.1 hn)

theorem block_bounds (h : Layout s rs) {b : Span} (hb : b ∈ blocks rs) :
    s.pmStart ≤ b.addr ∧ b.addr + 12 + b.size ≤ s.pmEnd :=
  h.region_bounds (mem_blocks.1 hb)

theorem pairwise (h : Layout s rs) : rs.Pairwise fun a b => a.stop ≤ b.addr := h.tiles.pairwise

/-- The walk of a search loop ends before the bound of the model. -/
theorem frees_length (h : Layout s rs) : (frees rs).length < listBound := by
  have wide := h.tiles.length_mul_le (w := 12) fun r _ => by
    unfold Span.stop sizeofNode
    omega
  have filtered : (frees rs).length ≤ rs.length := by
    unfold frees
    rw [List.length_map]
    exact List.length_filter_le _ _
  have := h.below
  unfold listBound
  omega

/-- The free list is increasing, and its nodes do not overlap. -/
theorem frees_pairwise (h : Layout s rs) : (frees rs).Pairwise fun a b => a.stop ≤ b.addr :=
  List.pairwise_map.2 (h.pairwise.sublist List.filter_sublist)

section Middle

variable {r₁ r₂ : List Region} {n k b : Span} {u v : Bool}

/-- The regions before a region end before it, those after it start after it. -/
theorem around (h : Layout s (r₁ ++ ⟨n, u⟩ :: r₂)) :
    ((⟨k, v⟩ : Region) ∈ r₁ → k.addr + 12 + k.size ≤ n.addr) ∧
      ((⟨k, v⟩ : Region) ∈ r₂ → n.addr + 12 + n.size ≤ k.addr) := by
  have order := List.pairwise_append.1 h.pairwise
  exact ⟨fun hk => order.2.2 _ hk ⟨n, u⟩ (by simp),
    fun hk => (List.pairwise_cons.1 order.2.1).1 _ hk⟩

theorem free_before (h : Layout s (r₁ ++ ⟨n, u⟩ :: r₂)) (hk : k ∈ frees r₁) :
    k.addr + 12 + k.size ≤ n.addr :=
  h.around.1 (mem_frees.1 hk)

theorem free_after (h : Layout s (r₁ ++ ⟨n, u⟩ :: r₂)) (hk : k ∈ frees r₂) :
    n.addr + 12 + n.size ≤ k.addr :=
  h.around.2 (mem_frees.1 hk)

/-- A free node around a region keeps its header apart from it. -/
theorem apart_free (h : Layout s (r₁ ++ ⟨n, u⟩ :: r₂)) (hk : k ∈ frees r₁ ++ frees r₂) :
    Apart n.addr (12 + n.size) k.addr 12 := by
  rcases List.mem_append.1 hk with hk | hk
  · have := h.free_before hk
    omega
  · have := h.free_after hk
    omega

/-- An allocated block around a region keeps its bytes apart from it. -/
theorem apart_block (h : Layout s (r₁ ++ ⟨n, u⟩ :: r₂)) (hb : b ∈ blocks r₁ ++ blocks r₂) :
    Apart n.addr (12 + n.size) b.addr (12 + b.size) := by
  rcases List.mem_append.1 hb with hb | hb
  · have := h.around.1 (mem_blocks.1 hb)
    omega
  · have := h.around.2 (mem_blocks.1 hb)
    omega

end Middle

/-- A free header and an allocated block share no address. -/
theorem free_apart_block (h : Layout s rs) {n b : Span} (hn : n ∈ frees rs) (hb : b ∈ blocks rs) :
    Apart n.addr 12 b.addr (12 + b.size) := by
  obtain ⟨r₁, r₂, rfl⟩ := List.append_of_mem (mem_frees.1 hn)
  have := h.apart_block (b := b) (by simpa using hb)
  omega

/-- The header of one free node and the region of another share no address. -/
theorem free_apart_free (h : Layout s rs) {n k : Span} (hn : n ∈ frees rs) (hk : k ∈ frees rs) (other : k ≠ n) :
    Apart n.addr (12 + n.size) k.addr 12 := by
  obtain ⟨r₁, r₂, rfl⟩ := List.append_of_mem (mem_frees.1 hn)
  apply h.apart_free
  simpa [other] using hk

/-- The chain around a free region. -/
theorem chain_around {r₁ r₂ : List Region} {n : Span} (h : Layout s (r₁ ++ ⟨n, false⟩ :: r₂)) :
    Chain s.mem s.head (frees r₁) n.addr ∧ NodeAt s.mem n ∧
      Chain s.mem (nextOf s.mem n.addr) (frees r₂) 0 := by
  have list := h.list
  unfold FreeList at list
  rw [frees_append, frees_free, chain_append] at list
  obtain ⟨q, before, rfl, node, after⟩ := list
  exact ⟨before, node, after⟩

end Layout

/-! ## Rewriting a link -/

/-- Store `v` in the link that follows the node `last`, which is `head` when `last` is
`NULL`. -/
def setLink (m : Mem) (head last v : Nat) : Mem × Nat :=
  if last = 0 then (m, v) else (setNext m last v, head)

section Link

variable {m : Mem} {head q v : Nat} {xs : List Span}

theorem agreeOn_setLink {b k : Nat} (node : ∀ x ∈ xs, Apart x.addr 12 b k) :
    AgreeOn m (setLink m head (lastAddr xs 0) v).1 b k := by
  rcases List.eq_nil_or_concat xs with rfl | ⟨ks, t, rfl⟩
  · exact AgreeOn.refl m b k
  · rw [List.concat_eq_append, lastAddr_concat]
    unfold setLink
    split
    · exact AgreeOn.refl m b k
    · exact agreeOn_setNext (node t (by simp))

/-- Redirecting the last link of a chain of disjoint nodes. -/
theorem chain_setLink (h : Chain m head xs q) (order : xs.Pairwise fun a b => a.stop ≤ b.addr)
    (fits : v < 2 ^ 32) :
    Chain (setLink m head (lastAddr xs 0) v).1 (setLink m head (lastAddr xs 0) v).2 xs v := by
  rcases List.eq_nil_or_concat xs with rfl | ⟨ks, t, rfl⟩
  · rfl
  · rw [List.concat_eq_append] at *
    have node := (chain_concat.1 h).2.1
    rw [lastAddr_concat]
    unfold setLink
    rw [if_neg node.nonnull]
    refine h.relink (by simp) ?_ ?_
    · intro n last
      rw [List.getLast?_concat, Option.some_inj] at last
      subst last
      exact ⟨node.setNext, nextOf_setNext fits⟩
    · intro n hn
      rw [List.dropLast_concat] at hn
      have stop := (List.pairwise_append.1 order).2.2 n hn t (by simp)
      unfold Span.stop sizeofNode at stop
      exact agreeOn_setNext (by omega)

end Link

end OsLab.Kernel.Pmm
