import OsLab.Kernel.Pmm.Layout

/-!
# `alloc` and `free` on the tiling

`alloc_spec` and `free_spec` say what the two entry points do to a heap in the shape of
`Layout`: which region changes, that the shape is kept, and which bytes stay. A free
chunk that is put back is first linked in (`Layout.insert`), then merged with its
neighbours (`Layout.combine`).
-/

namespace OsLab.Kernel.Pmm

open OsLab.Memory

/-- No two free regions are neighbours. -/
def Coalesced (rs : List Region) : Prop := rs.IsChain fun a b => a.used = true ∨ b.used = true

/-- The bytes of the headers and payloads `bs` are the same in both memories. -/
def KeepsBlocks (m m' : Mem) (bs : List Span) : Prop :=
  ∀ b ∈ bs, AgreeOn m m' b.addr (12 + b.size)

theorem KeepsBlocks.trans {m₁ m₂ m₃ : Mem} {bs : List Span} (h : KeepsBlocks m₁ m₂ bs)
    (h' : KeepsBlocks m₂ m₃ bs) : KeepsBlocks m₁ m₃ bs :=
  fun b hb => (h b hb).trans (h' b hb)

theorem KeepsBlocks.header {m m' : Mem} {bs : List Span} (h : KeepsBlocks m m' bs) {b : Span}
    (hb : b ∈ bs) (block : BlockAt m b) : BlockAt m' b :=
  block.frame ((h b hb).sub (Nat.le_refl _) (by omega))

/-! ## `alloc` -/

/-- No node is large enough: `alloc` returns `NULL` and changes nothing. -/
theorem alloc_none {s : State} {rs : List Region} {size need : Nat} (h : Layout s rs)
    (sum : (size + sizeofNode) % 2 ^ 32 = need) (small : ∀ n ∈ frees rs, n.size < need) :
    alloc s size = .ok (0, s) := by
  unfold alloc nodeFindSize
  rw [sum, nodeFindSizeLoop_none h.list h.frees_length small, ok_bind]
  rfl

section Found

variable {s : State} {r₁ r₂ : List Region} {n : Span} {size : Nat}

/-- The memory and list head after an `alloc` that carves `size` bytes from the node at
`addr`; `m` is the memory after the split and `last` the node before. -/
def allocated (s : State) (m : Mem) (last addr size : Nat) : State :=
  let linked := setLink m s.head last (nextOf m addr)
  { s with mem := blockClear (blockInit linked.1 addr size) addr, head := linked.2 }

/-- `alloc` takes the first node of at least `need` bytes, which is the request and a header
modulo `2 ^ 32`. -/
theorem alloc_run {need : Nat} (h : Layout s (r₁ ++ ⟨n, false⟩ :: r₂))
    (sum : (size + sizeofNode) % 2 ^ 32 = need)
    (small : ∀ x ∈ frees r₁, x.size < need) (room : need ≤ n.size) {m : Mem}
    (split : nodeSplit s.mem n.addr size = .ok (n.addr, m)) :
    alloc s size = .ok (n.addr + 12, allocated s m (lastAddr (frees r₁) 0) n.addr size) := by
  obtain ⟨before, node, -⟩ := h.chain_around
  have find : nodeFindSize s.mem s.head need = .ok (n.addr, lastAddr (frees r₁) 0) := by
    have list := h.list
    have bound := h.frees_length
    rw [frees_append, frees_free] at list bound
    exact nodeFindSizeLoop_first list bound small room
  have payload : (n.addr + sizeofNode) % 2 ^ 32 = n.addr + 12 := by
    have bounds := h.free_bounds (n := n) (by simp)
    have := h.below
    unfold sizeofNode
    omega
  unfold alloc
  rw [sum, find, ok_bind]
  dsimp only
  rw [if_neg node.nonnull, kassert_pos node.magic, ok_bind, split, ok_bind]
  dsimp only
  rw [kassert_pos node.nonnull, ok_bind, payload]
  rcases List.eq_nil_or_concat (frees r₁) with empty | ⟨ks, t, last⟩
  · rw [empty] at before ⊢
    have start : n.addr = s.head := before.symm
    rw [if_pos start, lastAddr_nil, kassert_pos rfl]
    rfl
  · rw [List.concat_eq_append] at last
    have nodes := before
    rw [last, chain_concat] at nodes
    have tnode := nodes.2.1
    -- the head of the list is a node below `n`
    have start : n.addr ≠ s.head := by
      have head := before
      rcases hf : frees r₁ with - | ⟨k, rest⟩
      · rw [hf] at last
        simp at last
      · rw [hf] at head
        have below := h.free_before (k := k) (by rw [hf]; simp)
        have := head.1
        omega
    rw [if_neg start, last, lastAddr_concat, kassert_pos tnode.nonnull]
    unfold allocated setLink
    rw [if_neg tnode.nonnull]
    rfl

/-- **`alloc` on the tiling.** The first free region that is large enough becomes an
allocated region of the size asked for, followed by a free one; its payload is zero and
the bytes of all other blocks are kept. -/
theorem alloc_some (h : Layout s (r₁ ++ ⟨n, false⟩ :: r₂)) (fits : size + 12 < 2 ^ 32)
    (small : ∀ x ∈ frees r₁, x.size < size + 12) (room : size + 12 ≤ n.size) :
    ∃ s', alloc s size = .ok (n.addr + 12, s') ∧
      Layout s' (r₁ ++ (⟨⟨n.addr, size⟩, true⟩ ::
        ⟨⟨n.addr + 12 + size, n.size - size - 12⟩, false⟩ :: r₂)) ∧
      s'.pmStart = s.pmStart ∧ s'.pmEnd = s.pmEnd ∧
      (∀ x, n.addr + 12 ≤ x → x < n.addr + 12 + size → s'.mem x = 0) ∧
      KeepsBlocks s.mem s'.mem (blocks r₁ ++ blocks r₂) := by
  obtain ⟨before, node, after⟩ := h.chain_around
  have bounds := h.free_bounds (n := n) (by simp)
  have heapEnd := h.below
  have stop : n.addr + 12 + n.size < 2 ^ 32 := by omega
  obtain ⟨m₁, split, -, link, rest, next, keeps⟩ := nodeSplit_spec node room stop
  set c := n.addr + 12 + size with hc
  set m₂ := (setLink m₁ s.head (lastAddr (frees r₁) 0) (nextOf m₁ n.addr)).1 with hm₂
  set m₃ := blockInit m₂ n.addr size
  set m₄ := blockClear m₃ n.addr
  have block₃ : BlockAt m₃ ⟨n.addr, size⟩ := blockAt_blockInit (by omega)
  have stop₃ : Span.stop ⟨n.addr, size⟩ ≤ 2 ^ 32 := by
    unfold Span.stop sizeofNode
    dsimp only
    omega
  -- what the edits after the split leave alone
  have linkKeeps : ∀ b k, (∀ x ∈ frees r₁, Apart x.addr 12 b k) → AgreeOn m₁ m₂ b k :=
    fun b k => agreeOn_setLink
  have blockKeeps : ∀ b k, Apart n.addr (12 + size) b k → AgreeOn m₂ m₄ b k := by
    intro b k apart
    exact (agreeOn_blockInit (by omega)).trans
      (agreeOn_blockClear block₃ stop₃ (by dsimp only; omega))
  have order : (frees r₁).Pairwise fun a b => a.stop ≤ b.addr := by
    have all := h.frees_pairwise
    rw [frees_append] at all
    exact (List.pairwise_append.1 all).1
  have chain₂ : Chain m₂ (setLink m₁ s.head (lastAddr (frees r₁) 0) (nextOf m₁ n.addr)).2
      (frees r₁) c := by
    rw [← link]
    refine chain_setLink (before.frame fun k hk => keeps _ _ ?_) order (read32_lt _ _)
    exact h.apart_free (List.mem_append_left _ hk)
  have tail₂ : AgreeOn m₁ m₂ c 12 := by
    refine linkKeeps _ _ fun x hx => ?_
    have := h.free_before hx
    omega
  have tail₄ : AgreeOn m₁ m₄ c 12 := tail₂.trans (blockKeeps _ _ (by omega))
  have rest₄ : NodeAt m₄ ⟨c, n.size - size - 12⟩ := rest.frame tail₄
  have next₄ : nextOf m₄ c = nextOf s.mem n.addr := (nextOf_congr tail₄).trans next
  have keepsFree : ∀ k ∈ frees r₂, AgreeOn s.mem m₄ k.addr 12 := by
    intro k hk
    have stopK := h.free_after hk
    refine ((keeps _ _ (by omega)).trans (linkKeeps _ _ fun x hx => ?_)).trans
      (blockKeeps _ _ (by omega))
    have := h.free_before hx
    omega
  have keepsBlocks : KeepsBlocks s.mem m₄ (blocks r₁ ++ blocks r₂) := by
    intro b hb
    have apart := h.apart_block hb
    refine ((keeps _ _ apart).trans (linkKeeps _ _ fun x hx => ?_)).trans
      (blockKeeps _ _ (by omega))
    exact h.free_apart_block (by simp [hx]) (by simpa using hb)
  refine ⟨_, alloc_run h (Nat.mod_eq_of_lt fits) small room split, ?_, rfl, rfl, ?_, keepsBlocks⟩
  · refine ⟨?_, ?_, ?_, h.positive, h.below⟩
    · refine h.tiles.replace
        [⟨⟨n.addr, size⟩, true⟩, ⟨⟨c, n.size - size - 12⟩, false⟩]
        ⟨rfl, ?_, ?_, ?_, ?_⟩ <;> simp only [Tiles, Span.stop, sizeofNode, hc] <;> omega
    · rw [FreeList, frees_append, frees_used, frees_free, chain_append]
      refine ⟨c, chain₂.frame fun k hk => blockKeeps _ _ ?_, rfl, rest₄, ?_⟩
      · have := h.free_before hk
        omega
      · change Chain m₄ (nextOf m₄ c) (frees r₂) 0
        rw [next₄]
        exact after.frame keepsFree
    · intro b hb
      rw [blocks_append, blocks_used, blocks_free, List.mem_append, List.mem_cons] at hb
      rcases hb with hb | rfl | hb
      · exact keepsBlocks.header (by simp [hb]) (h.header b (by simp [hb]))
      · refine block₃.frame (agreeOn_blockClear block₃ stop₃ ?_)
        dsimp only
        omega
      · exact keepsBlocks.header (by simp [hb]) (h.header b (by simp [hb]))
  · intro x lo hi
    change blockClear m₃ n.addr x = 0
    rw [blockClear_eq block₃ stop₃]
    exact store_inside lo hi

end Found

/-- **`alloc`**, by the first free region that is large enough. -/
theorem alloc_spec {s : State} {rs : List Region} {size : Nat} (h : Layout s rs)
    (fits : size + 12 < 2 ^ 32) :
    ((∀ n ∈ frees rs, n.size < size + 12) ∧ alloc s size = .ok (0, s)) ∨
    ∃ r₁ n r₂ s', rs = r₁ ++ ⟨n, false⟩ :: r₂ ∧ (∀ x ∈ frees r₁, x.size < size + 12) ∧
      size + 12 ≤ n.size ∧ alloc s size = .ok (n.addr + 12, s') ∧
      Layout s' (r₁ ++ (⟨⟨n.addr, size⟩, true⟩ ::
        ⟨⟨n.addr + 12 + size, n.size - size - 12⟩, false⟩ :: r₂)) ∧
      s'.pmStart = s.pmStart ∧ s'.pmEnd = s.pmEnd ∧
      (∀ x, n.addr + 12 ≤ x → x < n.addr + 12 + size → s'.mem x = 0) ∧
      KeepsBlocks s.mem s'.mem (blocks r₁ ++ blocks r₂) := by
  cases found : (frees rs).find? fun n => decide (size + 12 ≤ n.size) with
  | none =>
    have small : ∀ n ∈ frees rs, n.size < size + 12 := by
      intro n hn
      simpa using List.find?_eq_none.1 found n hn
    exact Or.inl ⟨small, alloc_none h (Nat.mod_eq_of_lt fits) small⟩
  | some n =>
    obtain ⟨large, xs, ys, split, first⟩ := List.find?_eq_some_iff_append.1 found
    obtain ⟨r₁, r₂, rfl, rfl, rfl⟩ := split_frees split
    have small : ∀ x ∈ frees r₁, x.size < size + 12 := fun x hx => by simpa using first x hx
    have room : size + 12 ≤ n.size := by simpa using large
    obtain ⟨s', run, layout⟩ := alloc_some h fits small room
    exact Or.inr ⟨r₁, n, r₂, s', rfl, small, room, run, layout⟩

end OsLab.Kernel.Pmm
