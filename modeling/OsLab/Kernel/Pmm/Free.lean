import OsLab.Kernel.Pmm.Alloc

/-!
# `free` on the tiling

A block that is given back is linked in behind the last node below it (`insert_layout`),
then merged with its neighbours by `node_combine` (`Layout.combine`). `free_spec` puts the
two together for each of the three ways through the source.
-/

namespace OsLab.Kernel.Pmm

open OsLab.Memory

variable {s : State} {r₁ r₂ : List Region} {b n : Span}

/-! ## Linking in -/

/-- The heap after `free` has linked in the block `b` behind the node `tnd`. -/
def inserted (s : State) (b : Span) (tnd : Nat) : State :=
  let m := nodeInit s.mem b.addr b.size
  let m := setNext m b.addr (if tnd = 0 then s.head else nextOf m tnd)
  let linked := setLink m s.head tnd b.addr
  { s with mem := linked.1, head := linked.2 }

/-- The link that follows the free regions before a block is the start of those after it. -/
theorem Layout.link_over (h : Layout s (r₁ ++ ⟨b, true⟩ :: r₂)) :
    Chain s.mem s.head (frees r₁) (if lastAddr (frees r₁) 0 = 0 then s.head
      else nextOf s.mem (lastAddr (frees r₁) 0)) ∧
    Chain s.mem (if lastAddr (frees r₁) 0 = 0 then s.head
      else nextOf s.mem (lastAddr (frees r₁) 0)) (frees r₂) 0 := by
  have list := h.list
  rw [FreeList, frees_append, frees_used, chain_append] at list
  obtain ⟨q, before, after⟩ := list
  rcases List.eq_nil_or_concat (frees r₁) with empty | ⟨ks, t, last⟩
  · rw [empty] at before ⊢
    rw [lastAddr_nil, if_pos rfl, before]
    exact ⟨rfl, after⟩
  · rw [List.concat_eq_append] at last
    rw [last] at before ⊢
    obtain ⟨-, node, link⟩ := chain_concat.1 before
    rw [lastAddr_concat, if_neg node.nonnull, link]
    exact ⟨before, after⟩

/-- The block becomes a free region; its neighbours are not merged yet. -/
theorem insert_layout (h : Layout s (r₁ ++ ⟨b, true⟩ :: r₂)) :
    Layout (inserted s b (lastAddr (frees r₁) 0)) (r₁ ++ ⟨b, false⟩ :: r₂) ∧
      KeepsBlocks s.mem (inserted s b (lastAddr (frees r₁) 0)).mem (blocks r₁ ++ blocks r₂) := by
  obtain ⟨before, after⟩ := h.link_over
  have bounds := h.block_bounds (b := b) (by simp)
  have heapEnd := h.below
  have heapStart := h.positive
  set tnd := lastAddr (frees r₁) 0 with htnd
  set m₁ := nodeInit s.mem b.addr b.size
  have keeps₁ : ∀ a k, Apart b.addr 12 a k → AgreeOn s.mem m₁ a k := fun a k => agreeOn_nodeInit
  have freeApart : ∀ k ∈ frees r₁ ++ frees r₂, Apart b.addr 12 k.addr 12 := by
    intro k hk
    have := h.apart_free hk
    omega
  -- the link read after the header has been written is the old one
  have link₁ : (if tnd = 0 then s.head else nextOf m₁ tnd) =
      if tnd = 0 then s.head else nextOf s.mem tnd := by
    rcases List.eq_nil_or_concat (frees r₁) with empty | ⟨ks, t, last⟩
    · rw [htnd, empty, lastAddr_nil, if_pos rfl, if_pos rfl]
    · rw [List.concat_eq_append] at last
      rw [htnd, last, lastAddr_concat]
      congr 1
      exact nextOf_congr (keeps₁ _ _ (freeApart t (by simp [last])))
  set w := if tnd = 0 then s.head else nextOf s.mem tnd with hw
  set m₂ := setNext m₁ b.addr w with hm₂
  have mem₃ : (inserted s b tnd).mem = (setLink m₂ s.head tnd b.addr).1 := by
    unfold inserted
    dsimp only
    rw [link₁]
  have head₃ : (inserted s b tnd).head = (setLink m₂ s.head tnd b.addr).2 := by
    unfold inserted
    dsimp only
    rw [link₁]
  have small : w < 2 ^ 32 := by
    have start := after.start
    rw [start]
    cases first : frees r₂ with
    | nil => exact Nat.two_pow_pos 32
    | cons k ks =>
      have := h.free_bounds (n := k) (by simp [first])
      change k.addr < 2 ^ 32
      omega
  have keeps₂ : ∀ a k, Apart b.addr 12 a k → AgreeOn s.mem m₂ a k :=
    fun a k apart => (keeps₁ a k apart).trans (agreeOn_setNext apart)
  have node₂ : NodeAt m₂ b := (nodeAt_nodeInit (by omega) (by omega)).setNext
  have next₂ : nextOf m₂ b.addr = w := nextOf_setNext small
  have keeps₃ : ∀ a k, (∀ x ∈ frees r₁, Apart x.addr 12 a k) →
      AgreeOn m₂ (setLink m₂ s.head tnd b.addr).1 a k := fun a k => agreeOn_setLink
  have order : (frees r₁).Pairwise fun a b => a.stop ≤ b.addr := by
    have all := h.frees_pairwise
    rw [frees_append] at all
    exact (List.pairwise_append.1 all).1
  have keepsB : ∀ a k, b.addr ≤ a → AgreeOn m₂ (setLink m₂ s.head tnd b.addr).1 a k := by
    intro a k above
    refine keeps₃ a k fun x hx => ?_
    have := h.free_before hx
    omega
  have chain₃ := chain_setLink (before.frame fun k hk => keeps₂ _ _ (freeApart k (by simp [hk])))
    order (show b.addr < 2 ^ 32 by omega)
  have keepsBlocks : KeepsBlocks s.mem (setLink m₂ s.head tnd b.addr).1 (blocks r₁ ++ blocks r₂) := by
    intro a ha
    have apart := h.apart_block ha
    refine (keeps₂ _ _ ?_).trans (keeps₃ _ _ fun x hx => ?_)
    · omega
    · exact h.free_apart_block (by simp [hx]) (by
        rw [blocks_append, blocks_used, List.mem_append, List.mem_cons]
        rcases List.mem_append.1 ha with ha | ha
        · exact Or.inl ha
        · exact Or.inr (Or.inr ha))
  refine ⟨⟨?_, ?_, ?_, h.positive, h.below⟩, by rw [mem₃]; exact keepsBlocks⟩
  · exact h.tiles.replace [⟨b, false⟩]
      (Tiles.single (x := (⟨b, false⟩ : Region)) (by unfold Span.stop; dsimp only; omega))
  · rw [FreeList, mem₃, head₃, frees_append, frees_free, chain_append]
    refine ⟨b.addr, chain₃, rfl, node₂.frame (keepsB _ _ (Nat.le_refl _)), ?_⟩
    rw [nextOf_congr (keepsB _ _ (Nat.le_refl _)), next₂]
    refine after.frame fun k hk => (keeps₂ _ _ (freeApart k (by simp [hk]))).trans (keepsB _ _ ?_)
    have := h.free_after hk
    omega
  · intro a ha
    rw [blocks_append, blocks_free] at ha
    rw [mem₃]
    refine keepsBlocks.header ha (h.header a ?_)
    rw [blocks_append, blocks_used, List.mem_append, List.mem_cons]
    rcases List.mem_append.1 ha with ha | ha
    · exact Or.inl ha
    · exact Or.inr (Or.inr ha)

/-! ## Merging -/

/-- A free region together with the free region right after it, if there is one. -/
def absorb (n : Span) : List Region → Span × List Region
  | ⟨k, false⟩ :: rs => (⟨n.addr, n.size + k.size + 12⟩, rs)
  | rs => (n, rs)

theorem blocks_absorb (n : Span) (rs : List Region) : blocks (absorb n rs).2 = blocks rs := by
  unfold absorb
  split <;> simp

/-- Every region of `xs` lies in one of `ys`: it starts that one, or comes behind its header. -/
def Covers (xs ys : List Span) : Prop :=
  ∀ x ∈ xs, ∃ y ∈ ys, (y.addr = x.addr ∨ y.addr + 12 ≤ x.addr) ∧ x.stop ≤ y.stop

theorem Covers.refl (xs : List Span) : Covers xs xs :=
  fun x hx => ⟨x, hx, Or.inl rfl, Nat.le_refl _⟩

theorem Covers.trans {xs ys zs : List Span} (h : Covers xs ys) (h' : Covers ys zs) : Covers xs zs := by
  intro x hx
  obtain ⟨y, hy, start, stop⟩ := h x hx
  obtain ⟨z, hz, start', stop'⟩ := h' y hy
  exact ⟨z, hz, by omega, Nat.le_trans stop stop'⟩

/-- Merging keeps the free space. -/
theorem Layout.absorb_covers (h : Layout s (r₁ ++ ⟨n, false⟩ :: r₂)) :
    Covers (frees (r₁ ++ ⟨n, false⟩ :: r₂)) (frees (r₁ ++ ⟨(absorb n r₂).1, false⟩ :: (absorb n r₂).2)) := by
  rcases r₂ with - | ⟨⟨k, used⟩, rs⟩
  · exact Covers.refl _
  · cases used with
    | true => exact Covers.refl _
    | false =>
      have touch : k.addr = n.addr + 12 + n.size := h.tiles.split.2.2.1
      intro x hx
      simp only [frees_append, frees_free, List.mem_append, List.mem_cons] at hx
      simp only [absorb, frees_append, frees_free, List.mem_append, List.mem_cons]
      rcases hx with hx | rfl | rfl | hx
      · exact ⟨x, Or.inl hx, Or.inl rfl, Nat.le_refl _⟩
      · refine ⟨_, Or.inr (Or.inl rfl), Or.inl rfl, ?_⟩
        unfold Span.stop
        dsimp only
        omega
      · refine ⟨_, Or.inr (Or.inl rfl), Or.inr ?_, ?_⟩
        · dsimp only
          omega
        · unfold Span.stop sizeofNode
          dsimp only
          omega
      · exact ⟨x, Or.inr (Or.inr hx), Or.inl rfl, Nat.le_refl _⟩

theorem absorb_addr (n : Span) (rs : List Region) : (absorb n rs).1.addr = n.addr := by
  unfold absorb
  split <;> rfl

/-- When the region after a free one is allocated, the link skips past the end of the free
one. -/
theorem Layout.gap (h : Layout s (r₁ ++ ⟨n, false⟩ :: r₂)) (used : ∀ r ∈ r₂.head?, r.used = true) :
    nextOf s.mem n.addr ≠ n.stop := by
  have after := h.chain_around.2.2
  rw [after.start]
  unfold Span.stop sizeofNode
  rcases r₂ with - | ⟨⟨k, u⟩, rs⟩
  · change 0 ≠ _
    omega
  · obtain rfl : u = true := used ⟨k, u⟩ rfl
    have touch : k.addr = n.addr + 12 + n.size := h.tiles.split.2.2.1
    have split : r₁ ++ ⟨n, false⟩ :: ⟨k, true⟩ :: rs = (r₁ ++ [⟨n, false⟩]) ++ ⟨k, true⟩ :: rs := by
      simp
    rw [split] at h
    rw [frees_used]
    cases first : frees rs with
    | nil =>
      change 0 ≠ _
      omega
    | cons f fs =>
      have := h.free_after (k := f) (by rw [first]; simp)
      change f.addr ≠ _
      omega

/-- `node_combine` merges a free region with the free region right after it, and leaves the
heap alone when there is none. -/
theorem Layout.combine (h : Layout s (r₁ ++ ⟨n, false⟩ :: r₂)) :
    ∃ ret m', nodeCombine s.mem n.addr = .ok (ret, m') ∧
      Layout { s with mem := m' } (r₁ ++ ⟨(absorb n r₂).1, false⟩ :: (absorb n r₂).2) ∧
      KeepsBlocks s.mem m' (blocks r₁ ++ blocks r₂) ∧
      (ret = 0 ∧ absorb n r₂ = (n, r₂) ∨ ret = n.addr ∧ ∃ k rs, r₂ = ⟨k, false⟩ :: rs) := by
  obtain ⟨before, node, after⟩ := h.chain_around
  have heapEnd := h.below
  have bounds := h.free_bounds (n := n) (by simp)
  have stop : n.stop < 2 ^ 32 := by
    unfold Span.stop sizeofNode
    omega
  obtain ⟨first, -, rest⟩ := h.tiles.split
  rcases next : r₂ with - | ⟨⟨k, used⟩, rs⟩
  on_goal 2 => cases used
  case cons.false =>
    subst next
    have touch : k.addr = n.stop := rest.1
    have boundsK := h.free_bounds (n := k) (by simp)
    obtain ⟨m', run, node', next', keeps⟩ := nodeCombine_merge (k := k) node after.1 after.2.1
      touch
      (by unfold Span.stop sizeofNode; omega)
    have blocksKeep : KeepsBlocks s.mem m' (blocks r₁ ++ blocks (⟨k, false⟩ :: rs)) := by
      intro a ha
      have := h.apart_block ha
      exact keeps _ _ (by omega)
    have freeKeep : ∀ f ∈ frees r₁ ++ frees (⟨k, false⟩ :: rs), AgreeOn s.mem m' f.addr 12 := by
      intro f hf
      have := h.apart_free hf
      exact keeps _ _ (by omega)
    refine ⟨n.addr, m', run, ⟨?_, ?_, ?_, h.positive, h.below⟩, blocksKeep,
      Or.inr ⟨rfl, k, rs, rfl⟩⟩
    · have merged : k.stop = (absorb n (⟨k, false⟩ :: rs)).1.stop := by
        unfold Span.stop sizeofNode at touch
        unfold Span.stop sizeofNode absorb
        dsimp only
        omega
      refine Tiles.append_iff.2 ⟨n.addr, first, rfl, ?_, ?_⟩
      · change n.addr ≤ (absorb n (⟨k, false⟩ :: rs)).1.stop
        rw [← merged]
        unfold Span.stop at *
        omega
      · change RegionTiles (absorb n (⟨k, false⟩ :: rs)).1.stop rs s.pmEnd
        rw [← merged]
        exact rest.2.2
    · rw [FreeList, frees_append, frees_free, chain_append]
      refine ⟨n.addr, before.frame fun f hf => freeKeep f (by simp [hf]), rfl, node', ?_⟩
      change Chain m' (nextOf m' n.addr) (frees rs) 0
      rw [next']
      exact after.2.2.frame fun f hf =>
        freeKeep f (List.mem_append_right _ (List.mem_cons_of_mem _ hf))
    · intro a ha
      rw [blocks_append, blocks_free, blocks_absorb] at ha
      exact blocksKeep.header ha (h.header a (by simpa using ha))
  all_goals
    have same : absorb n r₂ = (n, r₂) := by rw [next]; rfl
    have gap : nextOf s.mem n.addr ≠ n.stop := h.gap (by simp [next])
    rw [← next, same]
    exact ⟨0, s.mem, nodeCombine_apart node stop gap, h, fun b _ => AgreeOn.refl _ _ _,
      Or.inl ⟨rfl, rfl⟩⟩

/-! ## `free` -/

/-- The run of `free` up to its first `node_combine`. -/
theorem free_run (h : Layout s (r₁ ++ ⟨b, true⟩ :: r₂)) :
    free s (b.addr + 12) =
      let tnd := lastAddr (frees r₁) 0
      let i := inserted s b tnd
      if tnd = 0 then do
        let (_, m) ← nodeCombine i.mem b.addr
        return { i with mem := m }
      else do
        let (cmnd, m) ← nodeCombine i.mem tnd
        let (_, m) ← if cmnd = 0 then nodeCombine m b.addr else nodeCombine m tnd
        return { i with mem := m } := by
  have block := h.header b (by simp)
  have bounds := h.block_bounds (b := b) (by simp)
  have heapEnd := h.below
  have start : sub32 (b.addr + 12) sizeofNode = b.addr := by
    rw [sub32_of_le (by unfold sizeofNode; omega) (by omega)]
    unfold sizeofNode
    omega
  have list := h.list
  have bound := h.frees_length
  rw [FreeList, frees_append, frees_used] at list
  rw [frees_append, frees_used] at bound
  have find : nodeFindPosition (nodeInit s.mem b.addr b.size) s.head b.addr =
      .ok (lastAddr (frees r₁) 0) := by
    refine nodeFindPositionLoop_chain (list.frame fun k hk => agreeOn_nodeInit ?_) bound ?_ ?_
    · have := h.apart_free hk
      omega
    · intro k hk
      have := h.free_before hk
      omega
    · intro k hk
      have := h.free_after hk
      omega
  unfold free
  rw [if_neg (by omega)]
  simp only [start, block.size]
  rw [kassert_pos block.magic, ok_bind, find, ok_bind]
  unfold inserted setLink
  dsimp only
  split
  · rfl
  · rfl

theorem coalesced_absorb {r₁ r₂ : List Region} {n : Span} (left : Coalesced r₁)
    (last : ∀ r ∈ r₁.getLast?, r.used = true) (right : Coalesced r₂) :
    Coalesced (r₁ ++ ⟨(absorb n r₂).1, false⟩ :: (absorb n r₂).2) := by
  unfold Coalesced at *
  rw [List.isChain_append, List.isChain_cons]
  have first : ∀ r ∈ (absorb n r₂).2.head?, r.used = true := by
    rcases r₂ with - | ⟨⟨k, u⟩, rs⟩
    · simp [absorb]
    · cases u with
      | true => simp [absorb]
      | false =>
        intro r hr
        simpa using (List.isChain_cons.1 right).1 r hr
  have rest : (absorb n r₂).2.IsChain fun a b => a.used = true ∨ b.used = true := by
    rcases r₂ with - | ⟨⟨k, u⟩, rs⟩
    · exact right
    · cases u with
      | true => exact right
      | false => exact right.tail
  exact ⟨left, ⟨fun r hr => Or.inr (first r hr), rest⟩, fun r hr _ _ => Or.inl (last r hr)⟩

/-- Without free regions, every region is allocated. -/
theorem used_of_frees_nil {rs : List Region} (h : frees rs = []) {r : Region} (hr : r ∈ rs) :
    r.used = true := by
  rcases r with ⟨n, u⟩
  cases u with
  | true => rfl
  | false =>
    have member := mem_frees.2 hr
    rw [h] at member
    cases member

/-- **`free` on the tiling.** The block becomes free space, merged with the free regions on
both sides; all other blocks and their bytes are kept. -/
theorem free_spec (h : Layout s (r₁ ++ ⟨b, true⟩ :: r₂)) :
    ∃ s' rs', free s (b.addr + 12) = .ok s' ∧ Layout s' rs' ∧
      blocks rs' = blocks r₁ ++ blocks r₂ ∧
      (Coalesced (r₁ ++ ⟨b, true⟩ :: r₂) → Coalesced rs') ∧
      s'.pmStart = s.pmStart ∧ s'.pmEnd = s.pmEnd ∧
      KeepsBlocks s.mem s'.mem (blocks r₁ ++ blocks r₂) ∧
      Covers (frees (r₁ ++ ⟨b, false⟩ :: r₂)) (frees rs') := by
  obtain ⟨layout, keeps⟩ := insert_layout h
  have run := free_run h
  have positive := h.positive
  have parts (coalesced : Coalesced (r₁ ++ ⟨b, true⟩ :: r₂)) : Coalesced r₁ ∧ Coalesced r₂ := by
    obtain ⟨left, right, -⟩ := List.isChain_append.1 coalesced
    exact ⟨left, (List.isChain_cons.1 right).2⟩
  rcases List.eq_nil_or_concat (frees r₁) with empty | ⟨ks, t, last⟩
  · -- no node below: the block becomes the head of the list
    rw [empty, lastAddr_nil] at run layout keeps
    obtain ⟨ret, m, combine, layout', keeps', -⟩ := layout.combine
    dsimp only at run
    rw [if_pos rfl, combine] at run
    refine ⟨_, _, run, layout', by simp [blocks_absorb], ?_, rfl, rfl, keeps.trans keeps',
      layout.absorb_covers⟩
    intro coalesced
    refine coalesced_absorb (parts coalesced).1 (fun r hr => ?_) (parts coalesced).2
    exact used_of_frees_nil empty (List.mem_of_getLast? hr)
  · rw [List.concat_eq_append] at last
    obtain ⟨p, u, rfl, hp, hu⟩ := split_frees last
    have node : t.addr ≠ 0 := by
      have := h.free_bounds (n := t) (by simp)
      omega
    rw [last, lastAddr_concat] at run layout keeps
    dsimp only at run
    rw [if_neg node] at run
    have atNode := layout
    rw [List.append_assoc, List.cons_append] at atNode
    obtain ⟨ret, m, combine, layout', keeps', result⟩ := atNode.combine
    rw [combine, ok_bind] at run
    dsimp only at run
    have kept : blocks p ++ blocks (u ++ ⟨b, false⟩ :: r₂) =
        blocks (p ++ ⟨t, false⟩ :: u) ++ blocks r₂ := by simp
    rw [kept] at keeps'
    have apartFirst (coalesced : Coalesced (p ++ ⟨t, false⟩ :: u ++ ⟨b, true⟩ :: r₂)) :
        Coalesced p ∧ (∀ r ∈ p.getLast?, r.used = true) := by
      obtain ⟨left, -, between⟩ := List.isChain_append.1 (parts coalesced).1
      refine ⟨left, fun r hr => ?_⟩
      simpa using between r hr ⟨t, false⟩ rfl
    rcases result with ⟨rfl, same⟩ | ⟨rfl, k, rs, touch⟩
    · -- the node below does not touch the block, which is merged with what follows it
      rw [if_pos rfl] at run
      rw [same] at layout'
      have atBlock := layout'
      rw [show p ++ ⟨t, false⟩ :: (u ++ ⟨b, false⟩ :: r₂) =
        (p ++ ⟨t, false⟩ :: u) ++ ⟨b, false⟩ :: r₂ by simp] at atBlock
      obtain ⟨ret', m', combine', layout'', keeps'', -⟩ := atBlock.combine
      dsimp only at combine' keeps''
      rw [combine'] at run
      refine ⟨_, _, run, layout'', by simp [blocks_absorb], ?_, rfl, rfl,
        (keeps.trans keeps').trans keeps'', layout.absorb_covers⟩
      intro coalesced
      refine coalesced_absorb (parts coalesced).1 ?_ (parts coalesced).2
      intro r hr
      rw [List.getLast?_append] at hr
      rcases List.eq_nil_or_concat u with rfl | ⟨us, x, rfl⟩
      · -- an adjacent free node would have been merged
        simp [absorb] at same
      · refine used_of_frees_nil hu ?_
        simp only [List.concat_eq_append, List.getLast?_cons, List.getLast?_concat,
          Option.getD_some, Option.some_or, Option.mem_def, Option.some_inj] at hr
        simp [hr]
    · -- the node below absorbs the block and is then merged with what follows
      rw [if_neg node] at run
      have adjacent : u = [] := by
        cases u with
        | nil => rfl
        | cons x xs =>
          have first := (List.cons.inj touch).1
          have := used_of_frees_nil hu (r := x) (by simp)
          rw [first] at this
          cases this
      subst adjacent
      obtain ⟨ret', m', combine', layout'', keeps'', -⟩ := layout'.combine
      dsimp only at combine' keeps''
      rw [absorb_addr] at combine'
      rw [combine'] at run
      have kept' : blocks p ++ blocks (absorb t ([] ++ ⟨b, false⟩ :: r₂)).2 =
          blocks (p ++ [⟨t, false⟩]) ++ blocks r₂ := by simp [blocks_absorb]
      rw [kept'] at keeps''
      have covers := atNode.absorb_covers.trans layout'.absorb_covers
      rw [← List.cons_append, ← List.append_assoc] at covers
      refine ⟨_, _, run, layout'', by simp [blocks_absorb], ?_, rfl, rfl,
        (keeps.trans keeps').trans keeps'', covers⟩
      intro coalesced
      exact coalesced_absorb (apartFirst coalesced).1 (apartFirst coalesced).2 (parts coalesced).2

end OsLab.Kernel.Pmm
