import OsLab.Kernel.Pmm.Shape

/-!
# Which requests `alloc` serves

A gap of `G` bytes is one node of `G - 12` bytes, so `alloc` fails exactly when no gap has
room for the request and two headers, and else it takes the lowest gap that has
(`alloc_first_fit`). The sums of `alloc` are taken modulo `2 ^ 32`: from `2 ^ 32 - 12` on,
a request is compared as one of less than 12 bytes, and is refused only
when no gap has room for that (`huge_request_iff`).
-/

namespace OsLab.Kernel.Pmm

open OsLab.Memory

/-- The result `ptr` and the state `s'` of `alloc(size)` in the state `s`. -/
structure FirstFit (lo hi : Nat) (s : State) (live : List Span) (size ptr : Nat) (s' : State) : Prop where
  null : ptr = 0 ↔ ∀ a e, Gap lo hi live a e → e - a < size + 24
  same : ptr = 0 → s' = s
  /-- The block starts the lowest gap that is large enough. -/
  lowest : ptr ≠ 0 → ∃ a e, ptr = a + sizeofNode ∧ Gap lo hi live a e ∧ size + 24 ≤ e - a ∧
    ∀ a' e', Gap lo hi live a' e' → size + 24 ≤ e' - a' → a ≤ a'
  zero : ptr ≠ 0 → ∀ x, ptr ≤ x → x < ptr + size → s'.mem x = 0
  keeps : KeepsBlocks s.mem s'.mem live

/-- The `size` bytes from `ptr` are a part of the heap that nothing else uses. -/
structure Placed (lo hi : Nat) (s : State) (live : List Span) (ptr size : Nat) : Prop where
  inside : lo ≤ ptr ∧ ptr + size ≤ hi
  blocks : ∀ b ∈ live, Apart ptr size b.addr (sizeofNode + b.size)
  nodes : ∃ ns, FreeList s.mem s.head ns ∧ ∀ n ∈ ns, Apart ptr size n.addr (sizeofNode + n.size)

/-- `alloc(size)` returns a part of the heap of its own, or `NULL` and changes nothing. -/
def Served (lo hi : Nat) (s : State) (live : List Span) (size : Nat) : Prop :=
  ∃ ptr s', alloc s size = .ok (ptr, s') ∧ (ptr ≠ 0 → Placed lo hi s' live ptr size) ∧ (ptr = 0 → s' = s)

section Layouts

variable {s : State} {rs : List Region} {live : List Span} {size : Nat}

/-- A node of a coalesced layout is a gap, with 12 bytes for its header. -/
theorem gap_node {a e : Nat} (layout : Layout s rs) (coalesced : Coalesced rs) (perm : (blocks rs).Perm live) :
    Gap s.pmStart s.pmEnd live a e ↔ ∃ n ∈ frees rs, n.addr = a ∧ e = a + 12 + n.size := by
  rw [(gaps_of_layout layout coalesced perm).gap a e]
  constructor
  · rintro ⟨n, hn, rfl, rfl⟩
    exact ⟨n, hn, rfl, rfl⟩
  · rintro ⟨n, hn, rfl, rfl⟩
    exact ⟨n, hn, rfl, rfl⟩

/-- A request that wraps around is compared as one of less than 12 bytes, and the result is
the first node with so much room. -/
theorem alloc_wrapped (layout : Layout s rs) (below : size < 2 ^ 32) (wraps : 2 ^ 32 ≤ size + 12) :
    ((∀ n ∈ frees rs, n.size + 2 ^ 32 < size + 12) ∧ alloc s size = .ok (0, s)) ∨
      ∃ n ∈ frees rs, size + 12 ≤ n.size + 2 ^ 32 ∧ ∃ s', alloc s size = .ok (n.addr + 12, s') := by
  obtain ⟨need, rest⟩ : ∃ need, need + 2 ^ 32 = size + 12 := ⟨size + 12 - 2 ^ 32, Nat.sub_add_cancel wraps⟩
  have sum : (size + sizeofNode) % 2 ^ 32 = need := by
    unfold sizeofNode
    omega
  cases found : (frees rs).find? fun n => decide (need ≤ n.size) with
  | none =>
    have small : ∀ n ∈ frees rs, n.size < need := by
      intro n hn
      simpa using List.find?_eq_none.1 found n hn
    refine Or.inl ⟨fun n hn => ?_, alloc_none layout sum small⟩
    have := small n hn
    omega
  | some n =>
    obtain ⟨large, xs, ys, split, first⟩ := List.find?_eq_some_iff_append.1 found
    obtain ⟨r₁, r₂, rfl, rfl, rfl⟩ := split_frees split
    have small : ∀ x ∈ frees r₁, x.size < need := fun x hx => by simpa using first x hx
    have room : need ≤ n.size := of_decide_eq_true large
    obtain ⟨-, node, -⟩ := layout.chain_around
    have cut : ∃ m, nodeSplit s.mem n.addr size = .ok (n.addr, m) := by
      unfold nodeSplit
      rw [kassert_pos node.nonnull, ok_bind, node.size, sum, if_neg (by omega)]
      exact ⟨_, rfl⟩
    obtain ⟨m, cut⟩ := cut
    exact Or.inr ⟨n, by simp, by omega, _, alloc_run layout sum small room cut⟩

/-- A request that does not wrap around is served. -/
theorem served_of_fits {lo hi : Nat} (inv : Inv lo hi s live) (fits : size + 12 < 2 ^ 32) : Served lo hi s live size := by
  obtain ⟨rs, layout, coalesced, perm, rfl, rfl⟩ := inv
  rcases alloc_spec layout fits with ⟨-, fail⟩ | ⟨r₁, n, r₂, t, rfl, -, -, ok, layout', lo', hi', -⟩
  · exact ⟨0, s, fail, fun nonnull => absurd rfl nonnull, fun _ => rfl⟩
  · refine ⟨n.addr + 12, t, ok, fun _ => ?_, fun null => by omega⟩
    have bounds := layout'.block_bounds (b := ⟨n.addr, size⟩) (by simp)
    dsimp only at bounds
    refine ⟨by omega, fun b hb => ?_, _, layout'.list, fun k hk => ?_⟩
    · have other : b ∈ blocks r₁ ++ blocks (⟨⟨n.addr + 12 + size, n.size - size - 12⟩, false⟩ :: r₂) := by
        simpa using perm.mem_iff.2 hb
      have apart := layout'.apart_block other
      unfold sizeofNode
      dsimp only at apart
      omega
    · obtain ⟨k₁, k₂, split⟩ := List.append_of_mem (mem_frees.1 hk)
      have whole := layout'
      rw [split] at whole
      have member : (⟨n.addr, size⟩ : Span) ∈ blocks k₁ ++ blocks k₂ := by
        have inside : (⟨n.addr, size⟩ : Span) ∈ blocks (k₁ ++ ⟨k, false⟩ :: k₂) := by
          rw [← split]
          simp
        simpa using inside
      have apart := whole.apart_block member
      unfold sizeofNode
      dsimp only at apart
      omega

/-- A request that wraps around is served exactly if it is refused. -/
theorem served_wrapped {lo hi : Nat} (inv : Inv lo hi s live) (below : size < 2 ^ 32) (wraps : 2 ^ 32 ≤ size + 12) :
    Served lo hi s live size ↔ ∀ a e, Gap lo hi live a e → e - a + 2 ^ 32 < size + 24 := by
  obtain ⟨rs, layout, coalesced, perm, rfl, rfl⟩ := inv
  rcases alloc_wrapped layout below wraps with ⟨small, fail⟩ | ⟨n, hn, room, t, ok⟩
  · refine iff_of_true ⟨0, s, fail, fun nonnull => absurd rfl nonnull, fun _ => rfl⟩ fun a e gap => ?_
    obtain ⟨n, hn, -, rfl⟩ := (gap_node layout coalesced perm).1 gap
    have := small n hn
    omega
  · apply iff_of_false
    · rintro ⟨ptr, s', run, placed, -⟩
      obtain ⟨rfl, rfl⟩ := Prod.mk.inj (Except.ok.inj (ok.symm.trans run))
      -- the block reaches past the end of the address space
      have inside := (placed (by omega)).inside.2
      have := layout.below
      omega
    · intro refused
      have := refused _ _ ((gap_node layout coalesced perm).2 ⟨n, hn, rfl, rfl⟩)
      omega

end Layouts

section Runs

variable {lo hi size : Nat} {s : State} {live : List Span}

/-- **`alloc` is exact first fit.** It fails exactly when no gap between the live blocks has room for
the request and two headers, and then changes nothing; otherwise it takes the start of the lowest such
gap, with a payload of zeros, and leaves the bytes of all live blocks as they are. -/
theorem alloc_first_fit (positive : 0 < lo) (room : lo + sizeofNode ≤ hi) (below : hi < 2 ^ 32)
    (run : Run lo hi s live) (fits : size + sizeofNode < 2 ^ 32) :
    ∃ ptr s', alloc s size = .ok (ptr, s') ∧ FirstFit lo hi s live size ptr s' := by
  obtain ⟨rs, layout, coalesced, perm, rfl, rfl⟩ := run.inv positive room below
  rcases alloc_spec layout fits with ⟨small, fail⟩ | ⟨r₁, n, r₂, t, rfl, small, large, ok, -, -, -, zero, keeps⟩
  · refine ⟨0, s, fail, iff_of_true rfl fun a e gap => ?_, fun _ => rfl, fun nonnull => absurd rfl nonnull,
      fun nonnull => absurd rfl nonnull, fun b _ => AgreeOn.refl _ _ _⟩
    obtain ⟨n, hn, -, rfl⟩ := (gap_node layout coalesced perm).1 gap
    have := small n hn
    omega
  · have gap : Gap s.pmStart s.pmEnd live n.addr (n.addr + 12 + n.size) :=
      (gap_node layout coalesced perm).2 ⟨n, by simp, rfl, rfl⟩
    refine ⟨n.addr + 12, t, ok, iff_of_false (by omega) fun none => ?_, fun null => by omega,
      fun _ => ⟨n.addr, _, rfl, gap, by omega, fun a e other wide => ?_⟩, fun _ => zero, fun b hb => ?_⟩
    · have := none _ _ gap
      omega
    · -- the nodes before `n` are too small
      obtain ⟨k, hk, rfl, rfl⟩ := (gap_node layout coalesced perm).1 other
      rw [frees_append, frees_free, List.mem_append, List.mem_cons] at hk
      rcases hk with hk | rfl | hk
      · have := small k hk
        omega
      · exact Nat.le_refl _
      · have := layout.free_after hk
        omega
    · exact keeps b (by simpa using perm.mem_iff.2 hb)

/-- A heap of 48 bytes at address 16 has room for `alloc(4)`. -/
theorem alloc_first_fit_at_init :
    ∃ ptr s', alloc (init (fun _ => 0) 16 64) 4 = .ok (ptr, s') ∧
      FirstFit 16 64 (init (fun _ => 0) 16 64) [] 4 ptr s' :=
  alloc_first_fit (by decide) (by decide) (by decide) (.init _) (by decide)

/-- **Huge requests.** Of the requests of less than `2 ^ 32` bytes, those from `2 ^ 32 - 12` on
are served only when no gap has room for what is left of them modulo `2 ^ 32`. -/
theorem huge_request_iff (positive : 0 < lo) (room : lo + sizeofNode ≤ hi) (below : hi < 2 ^ 32)
    (run : Run lo hi s live) (word : size < 2 ^ 32) :
    Served lo hi s live size ↔
      size + sizeofNode < 2 ^ 32 ∨ ∀ a e, Gap lo hi live a e → e - a + 2 ^ 32 < size + 24 := by
  have inv := run.inv positive room below
  rcases Nat.lt_or_ge (size + 12) (2 ^ 32) with fits | wraps
  · exact iff_of_true (served_of_fits inv fits) (Or.inl fits)
  · rw [served_wrapped inv word wraps]
    exact (or_iff_right (Nat.not_lt_of_ge wraps)).symm

/-- A heap of 16 bytes has no room for the 11 bytes that `alloc(2 ^ 32 - 1)` looks for, and refuses it. -/
theorem huge_request_refused : Served 16 32 (init (fun _ => 0) 16 32) [] (2 ^ 32 - 1) := by
  refine (huge_request_iff (by decide) (by decide) (by decide) (.init _) (by decide)).2 (Or.inr fun a e gap => ?_)
  have first := (gap.inside a (Nat.le_refl a) gap.nonempty).1
  have last := (gap.inside (e - 1) (by have := gap.nonempty; omega) (by have := gap.nonempty; omega)).2.1
  have := gap.nonempty
  omega

/-- On a heap of 48 bytes `alloc(2 ^ 32 - 12)` returns a block that reaches past the end of memory. -/
theorem huge_request_unsafe : ¬ Served 16 64 (init (fun _ => 0) 16 64) [] (2 ^ 32 - 12) := by
  intro served
  have start : Run 16 64 (init (fun _ => 0) 16 64) [] := .init _
  have inv := start.inv (by decide) (by decide) (by decide)
  have refused := (served_wrapped inv (by decide) (by decide)).1 served
  have gap : Gap 16 64 [] 16 64 := by
    refine ⟨by decide, fun x lower upper => ⟨lower, upper, by simp⟩, ?_, fun free => absurd free.2.1 (by decide)⟩
    rintro x last ⟨lower, -⟩
    omega
  exact absurd (refused 16 64 gap) (by decide)

end Runs

end OsLab.Kernel.Pmm
