import OsLab.Kernel.Pmm.Free

/-!
# Safety of the kernel heap

`Run lo hi s live` says that `s` is the state of the allocator after some run over the heap
`[lo, hi)`, with the blocks `live` allocated and not yet freed. Clients call `alloc` and
`free` and write anything into the payloads of their blocks. `heap_safe` reads the
invariant `Layout` as what a client relies on: no two chunks overlap, no byte of the heap is
lost, and no call can halt the kernel.
-/

namespace OsLab.Kernel.Pmm

open OsLab.Memory

/-- `x` is a byte of the payload of one of the blocks. -/
def InPayload (live : List Span) (x : Nat) : Prop :=
  ∃ b ∈ live, b.addr + sizeofNode ≤ x ∧ x < b.stop

/-- Runs of the allocator over the heap `[lo, hi)` from an arbitrary memory. -/
inductive Run (lo hi : Nat) : State → List Span → Prop where
  | init (m : Mem) : Run lo hi (init m lo hi) []
  | allocFail {s s' : State} {live : List Span} {size : Nat} :
      Run lo hi s live → size + sizeofNode < 2 ^ 32 → alloc s size = .ok (0, s') → Run lo hi s' live
  | alloc {s s' : State} {live : List Span} {size addr : Nat} :
      Run lo hi s live → size + sizeofNode < 2 ^ 32 → alloc s size = .ok (addr + sizeofNode, s') →
      Run lo hi s' (⟨addr, size⟩ :: live)
  | freeNull {s s' : State} {live : List Span} :
      Run lo hi s live → free s 0 = .ok s' → Run lo hi s' live
  | free {s s' : State} {live : List Span} {b : Span} :
      Run lo hi s live → b ∈ live → free s (b.addr + sizeofNode) = .ok s' →
      Run lo hi s' (live.erase b)
  | write {s : State} {live : List Span} {m : Mem} :
      Run lo hi s live → (∀ x, ¬ InPayload live x → m x = s.mem x) →
      Run lo hi { s with mem := m } live

/-- What clients rely on in the state `s` with the live blocks `live`. -/
structure HeapSafe (lo hi : Nat) (s : State) (live : List Span) : Prop where
  /-- The free list in memory is increasing; its nodes and the live blocks are pairwise
  disjoint and together cover the heap. -/
  partition : ∃ nodes, FreeList s.mem s.head nodes ∧
    (nodes.map Span.addr).Pairwise (· < ·) ∧
    (live ++ nodes).Pairwise (fun a b => a.stop ≤ b.addr ∨ b.stop ≤ a.addr) ∧
    ∀ x, (lo ≤ x ∧ x < hi) ↔ ∃ c ∈ live ++ nodes, c.addr ≤ x ∧ x < c.stop
  headers : ∀ b ∈ live, magicOf s.mem b.addr = blockMagic ∧ sizeOf s.mem b.addr = b.size
  allocRuns : ∀ size, size + sizeofNode < 2 ^ 32 → ∃ r, alloc s size = .ok r
  freeRuns : (∃ s', free s 0 = .ok s') ∧ ∀ b ∈ live, ∃ s', free s (b.addr + sizeofNode) = .ok s'

/-- The invariant of runs: a layout whose allocated regions are the live blocks. -/
def Inv (lo hi : Nat) (s : State) (live : List Span) : Prop :=
  ∃ rs, Layout s rs ∧ Coalesced rs ∧ (blocks rs).Perm live ∧ s.pmStart = lo ∧ s.pmEnd = hi

section Steps

variable {lo hi : Nat} {s s' : State} {live : List Span}

/-- `init` makes one node of the whole heap. -/
theorem freeList_init (m : Mem) (positive : 0 < lo) (room : lo + 12 ≤ hi) (below : hi < 2 ^ 32) :
    FreeList (init m lo hi).mem (init m lo hi).head [⟨lo, hi - lo - sizeofNode⟩] := by
  have size : sub32 (sub32 hi lo) sizeofNode = hi - lo - sizeofNode := by
    rw [sub32_of_le (a := hi) (by omega) (by omega),
      sub32_of_le (by unfold sizeofNode; omega) (by omega)]
  refine ⟨rfl, ?_, nextOf_nodeInit⟩
  unfold init
  rw [size]
  exact nodeAt_nodeInit (by omega) (by omega)

theorem inv_init (m : Mem) (positive : 0 < lo) (room : lo + 12 ≤ hi) (below : hi < 2 ^ 32) :
    Inv lo hi (init m lo hi) [] := by
  refine ⟨[⟨⟨lo, hi - lo - sizeofNode⟩, false⟩], ⟨⟨rfl, ?_, ?_⟩, freeList_init m positive room below, by simp, positive, below⟩,
    List.isChain_singleton _, .refl _, rfl, rfl⟩
  · unfold Span.stop
    dsimp only
    omega
  · change lo + 12 + (hi - lo - 12) = hi
    omega

theorem inv_alloc (h : Inv lo hi s live) {size addr : Nat} (fits : size + sizeofNode < 2 ^ 32)
    (run : alloc s size = .ok (addr + sizeofNode, s')) : Inv lo hi s' (⟨addr, size⟩ :: live) := by
  obtain ⟨rs, layout, coalesced, perm, rfl, rfl⟩ := h
  rcases alloc_spec layout fits with ⟨-, fail⟩ | ⟨r₁, n, r₂, t, rfl, -, -, ok, layout', lo', hi', -, -⟩
  · rw [fail, Except.ok.injEq, Prod.mk.injEq] at run
    unfold sizeofNode at run
    omega
  · rw [ok, Except.ok.injEq, Prod.mk.injEq] at run
    obtain ⟨same, rfl⟩ := run
    have start : n.addr = addr := Nat.add_right_cancel same
    subst start
    refine ⟨_, layout', ?_, ?_, lo', hi'⟩
    · unfold Coalesced at *
      simp only [List.isChain_append, List.isChain_cons] at coalesced ⊢
      obtain ⟨left, ⟨next, right⟩, between⟩ := coalesced
      refine ⟨left, ⟨fun _ _ => Or.inl trivial, next, right⟩, fun r hr k hk => ?_⟩
      obtain rfl : _ = k := Option.some.inj hk
      exact Or.inr rfl
    · simp only [blocks_append, blocks_free, blocks_used] at perm ⊢
      exact List.perm_middle.trans (perm.cons _)

theorem inv_allocFail (h : Inv lo hi s live) {size : Nat} (fits : size + sizeofNode < 2 ^ 32)
    (run : alloc s size = .ok (0, s')) : Inv lo hi s' live := by
  obtain ⟨rs, layout, coalesced, perm, rfl, rfl⟩ := h
  rcases alloc_spec layout fits with ⟨-, fail⟩ | ⟨r₁, n, r₂, t, rfl, -, -, ok, -⟩
  · rw [fail, Except.ok.injEq, Prod.mk.injEq] at run
    obtain ⟨-, rfl⟩ := run
    exact ⟨rs, layout, coalesced, perm, rfl, rfl⟩
  · rw [ok, Except.ok.injEq, Prod.mk.injEq] at run
    omega

theorem inv_free (h : Inv lo hi s live) {b : Span} (hb : b ∈ live)
    (run : free s (b.addr + sizeofNode) = .ok s') : Inv lo hi s' (live.erase b) := by
  obtain ⟨rs, layout, coalesced, perm, rfl, rfl⟩ := h
  obtain ⟨r₁, r₂, rfl⟩ := List.append_of_mem (mem_blocks.1 (perm.mem_iff.2 hb))
  obtain ⟨t, rs', ok, layout', blocks', coalesced', lo', hi', -⟩ := free_spec layout
  rw [show b.addr + sizeofNode = b.addr + 12 from rfl, ok, Except.ok.injEq] at run
  subst run
  refine ⟨rs', layout', coalesced' coalesced, ?_, lo', hi'⟩
  rw [blocks_append, blocks_used] at perm
  have erased := (List.perm_middle.symm.trans perm).erase b
  rw [List.erase_cons_head] at erased
  rw [blocks']
  exact erased

/-- Writing to the payloads of the live blocks keeps the layout. -/
theorem Layout.write {rs : List Region} (layout : Layout s rs) (perm : (blocks rs).Perm live) {m : Mem}
    (outside : ∀ x, ¬ InPayload live x → m x = s.mem x) : Layout { s with mem := m } rs := by
  have inBlock : ∀ x, InPayload live x → ∃ b ∈ blocks rs, b.addr + 12 ≤ x ∧ x < b.stop := by
    rintro x ⟨b, hb, range⟩
    exact ⟨b, perm.mem_iff.2 hb, range⟩
  -- no header of the layout lies in a payload
  have header : ∀ n u, (⟨n, u⟩ : Region) ∈ rs → AgreeOn s.mem m n.addr 12 := by
    intro n u hn x lower upper
    refine outside x fun inside => ?_
    obtain ⟨b, hb, lower', upper'⟩ := inBlock x inside
    obtain ⟨r₁, r₂, rfl⟩ := List.append_of_mem hn
    unfold Span.stop sizeofNode at upper'
    rw [mem_blocks, List.mem_append, List.mem_cons] at hb
    rcases hb with hb | same | hb
    · have := layout.around.1 hb
      omega
    · obtain ⟨rfl, -⟩ := Region.mk.inj same
      omega
    · have := layout.around.2 hb
      omega
  refine ⟨layout.tiles, ?_, ?_, layout.positive, layout.below⟩
  · exact layout.list.frame fun n hn => header n false (mem_frees.1 hn)
  · exact fun b hb => (layout.header b hb).frame (header b true (mem_blocks.1 hb))

theorem inv_write (h : Inv lo hi s live) {m : Mem}
    (outside : ∀ x, ¬ InPayload live x → m x = s.mem x) : Inv lo hi { s with mem := m } live := by
  obtain ⟨rs, layout, coalesced, perm, lo', hi'⟩ := h
  exact ⟨rs, layout.write perm outside, coalesced, perm, lo', hi'⟩

end Steps

variable {lo hi : Nat} {s : State} {live : List Span}

/-- Every run keeps the invariant. -/
theorem Run.inv (positive : 0 < lo) (room : lo + 12 ≤ hi) (below : hi < 2 ^ 32)
    (run : Run lo hi s live) : Inv lo hi s live := by
  induction run with
  | init m => exact inv_init m positive room below
  | allocFail _ fits ok ih => exact inv_allocFail ih fits ok
  | alloc _ fits ok ih => exact inv_alloc ih fits ok
  | freeNull _ ok ih =>
    obtain rfl := Except.ok.inj ok
    exact ih
  | free _ member ok ih => exact inv_free ih member ok
  | write _ outside ih => exact inv_write ih outside

/-- A live block can be freed. -/
theorem Inv.freeRuns (inv : Inv lo hi s live) {b : Span} (member : b ∈ live) :
    ∃ s', free s (b.addr + sizeofNode) = .ok s' := by
  obtain ⟨rs, layout, -, perm, -, -⟩ := inv
  obtain ⟨r₁, r₂, rfl⟩ := List.append_of_mem (mem_blocks.1 (perm.mem_iff.2 member))
  obtain ⟨t, rs', ok, -⟩ := free_spec layout
  exact ⟨t, ok⟩

theorem tiles_partition {a b : Nat} {rs : List Region} (h : RegionTiles a rs b) :
    (blocks rs ++ frees rs).Pairwise (fun x y => x.stop ≤ y.addr ∨ y.stop ≤ x.addr) ∧
      ∀ x, (a ≤ x ∧ x < b) ↔ ∃ c ∈ blocks rs ++ frees rs, c.addr ≤ x ∧ x < c.stop := by
  have split : (blocks rs ++ frees rs).Perm (rs.map Region.toSpan) := by
    unfold blocks frees
    rw [← List.map_append]
    exact (List.filter_append_perm (fun r : Region => r.used) rs).map _
  constructor
  · refine (split.pairwise_iff fun {x y} h => h.symm).2 ?_
    exact List.pairwise_map.2 (h.pairwise.imp Or.inl)
  · intro x
    constructor
    · rintro ⟨lower, upper⟩
      obtain ⟨r, hr, range⟩ := h.cover lower upper
      exact ⟨r.toSpan, split.mem_iff.2 (List.mem_map_of_mem hr), range⟩
    · rintro ⟨c, hc, lower, upper⟩
      obtain ⟨r, hr, rfl⟩ := List.mem_map.1 (split.mem_iff.1 hc)
      have := h.mem_bounds hr
      omega

/-- **No overlap, no loss, no failed assertion.** At every point of every run over a heap of
at least one header, the live blocks and the free nodes partition the heap, the free list is
increasing, live headers are intact, and every further call of `alloc` and `free` returns. -/
theorem heap_safe (positive : 0 < lo) (room : lo + sizeofNode ≤ hi) (below : hi < 2 ^ 32)
    (run : Run lo hi s live) : HeapSafe lo hi s live := by
  have inv := run.inv positive room below
  obtain ⟨rs, layout, -, perm, rfl, rfl⟩ := id inv
  obtain ⟨disjoint, cover⟩ := tiles_partition layout.tiles
  have whole : (blocks rs ++ frees rs).Perm (live ++ frees rs) := perm.append_right _
  refine ⟨⟨frees rs, layout.list, ?_, ?_, ?_⟩, ?_, ?_, ⟨s, rfl⟩, ?_⟩
  · refine List.pairwise_map.2 (layout.frees_pairwise.imp fun {a b} order => ?_)
    unfold Span.stop sizeofNode at order
    omega
  · exact (whole.pairwise_iff fun {x y} h => h.symm).1 disjoint
  · intro x
    rw [cover x]
    simp only [whole.mem_iff]
  · intro b hb
    have block := layout.header b (perm.mem_iff.2 hb)
    exact ⟨block.magic, block.size⟩
  · intro size fits
    rcases alloc_spec layout fits with ⟨-, fail⟩ | ⟨r₁, n, r₂, t, rfl, -, -, ok, -⟩
    · exact ⟨_, fail⟩
    · exact ⟨_, ok⟩
  · exact fun b hb => inv.freeRuns hb

/-- A heap of 48 bytes at address 16 after `alloc(4)`: the block takes the start of the
heap and the rest stays free. -/
theorem heap_safe_after_alloc :
    ∃ s, alloc (init (fun _ => 0) 16 64) 4 = .ok (28, s) ∧ HeapSafe 16 64 s [⟨16, 4⟩] := by
  obtain ⟨s, run⟩ : ∃ s, alloc (init (fun _ => 0) 16 64) 4 = .ok (28, s) := ⟨_, rfl⟩
  exact ⟨s, run, heap_safe (by decide) (by decide) (by decide) (.alloc (.init _) (by decide) run)⟩

end OsLab.Kernel.Pmm
