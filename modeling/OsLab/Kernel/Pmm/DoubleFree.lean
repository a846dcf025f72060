import OsLab.Kernel.Pmm.Shape
import OsLab.Kernel.Pmm.Stores

/-!
# Freeing a block twice

`free` turns the header of a block into that of a node, and from then on the magic number
stays what it is as long as nothing is allocated: later frees write the size and the link of a
node, or the header of a block that is still live. So the stale header never looks like a block
again (`Stale`), wherever it ends up when nodes are merged.
-/

namespace OsLab.Kernel.Pmm

open OsLab.Memory

/-- Frees of live blocks, one after the other; clients may write to their payloads. -/
inductive Frees (s : State) (live : List Span) : State → List Span → Prop where
  | refl : Frees s live s live
  | free {s' s'' : State} {live' : List Span} {b : Span} :
      Frees s live s' live' → b ∈ live' → free s' (b.addr + sizeofNode) = .ok s'' →
      Frees s live s'' (live'.erase b)
  | write {s' : State} {live' : List Span} {m : Mem} :
      Frees s live s' live' → (∀ x, ¬ InPayload live' x → m x = s'.mem x) →
      Frees s live { s' with mem := m } live'

/-- A header in free space with the magic number of a node: that of a node, or one behind the
header of the node it lies in. -/
structure Stale (s : State) (p : Nat) : Prop where
  magic : magicOf s.mem p = nodeMagic
  inside : ∃ nodes, FreeList s.mem s.head nodes ∧
    ∃ n ∈ nodes, (n.addr = p ∨ n.addr + 12 ≤ p) ∧ p + 12 ≤ n.stop

section Frame

variable {m m' : Mem} {p v a k : Nat}

/-- Setting the size or the link of a node leaves its magic number. -/
theorem agreeOn_setSize_fields (apart : Apart (p + 4) 8 a k) : AgreeOn m (setSize m p v) a k :=
  agreeOn_write32 (by omega)

theorem agreeOn_setNext_fields (apart : Apart (p + 4) 8 a k) : AgreeOn m (setNext m p v) a k :=
  agreeOn_write32 (by omega)

theorem agreeOn_setLink_fields {head last : Nat} (node : last ≠ 0 → Apart (last + 4) 8 a k) :
    AgreeOn m (setLink m head last v).1 a k := by
  unfold setLink
  split
  · exact AgreeOn.refl _ _ _
  · exact agreeOn_setNext_fields (node ‹_›)

theorem agreeOn_nodeCombine {nd ret : Nat} (run : nodeCombine m nd = .ok (ret, m'))
    (apart : Apart (nd + 4) 8 a k) : AgreeOn m m' a k := by
  unfold nodeCombine at run
  rw [kassert_bind_eq_ok] at run
  obtain ⟨-, run⟩ := run
  split at run
  · obtain ⟨-, rfl⟩ := Prod.mk.inj (Except.ok.inj run)
    exact AgreeOn.refl _ _ _
  · rw [kassert_bind_eq_ok] at run
    obtain ⟨-, run⟩ := run
    obtain ⟨-, rfl⟩ := Prod.mk.inj (Except.ok.inj run)
    exact (agreeOn_setSize_fields apart).trans (agreeOn_setNext_fields apart)

end Frame

section Step

variable {lo hi : Nat} {s s' : State} {live : List Span} {r₁ r₂ : List Region} {b : Span}

/-- Linking a block in writes its header and the link before it. -/
theorem agreeOn_inserted {tnd a k : Nat} (own : Apart (b.addr + 4) 8 a k)
    (before : tnd ≠ 0 → Apart (tnd + 4) 8 a k) :
    AgreeOn (setMagic s.mem b.addr nodeMagic) (inserted s b tnd).mem a k := by
  have header : ∀ v, AgreeOn (setMagic s.mem b.addr nodeMagic) (setNext (nodeInit s.mem b.addr b.size) b.addr v) a k :=
    fun v => ((agreeOn_setNext_fields own).trans (agreeOn_setSize_fields own)).trans (agreeOn_setNext_fields own)
  exact (header _).trans (agreeOn_setLink_fields before)

/-- `free` sets the magic number of the block; of all other headers it writes at most the size and
the link of a free one. -/
theorem free_frame (h : Layout s (r₁ ++ ⟨b, true⟩ :: r₂)) (run : free s (b.addr + 12) = .ok s') {a k : Nat}
    (own : Apart (b.addr + 4) 8 a k) (others : ∀ n ∈ frees r₁, Apart (n.addr + 4) 8 a k) :
    AgreeOn (setMagic s.mem b.addr nodeMagic) s'.mem a k := by
  have last : lastAddr (frees r₁) 0 ≠ 0 → Apart (lastAddr (frees r₁) 0 + 4) 8 a k := by
    rcases List.eq_nil_or_concat (frees r₁) with empty | ⟨ks, t, concat⟩
    · rw [empty]
      exact fun nonnull => absurd rfl nonnull
    · rw [List.concat_eq_append] at concat
      rw [concat, lastAddr_concat]
      exact fun _ => others t (by simp [concat])
  have linked := agreeOn_inserted (s := s) own last
  rw [free_run h] at run
  dsimp only at run
  split at run
  · obtain ⟨⟨ret, m⟩, combined, run⟩ := bind_eq_ok.1 run
    obtain rfl := Except.ok.inj run
    exact linked.trans (agreeOn_nodeCombine combined own)
  · have below := last ‹_›
    obtain ⟨⟨ret, m⟩, combined, run⟩ := bind_eq_ok.1 run
    have first := linked.trans (agreeOn_nodeCombine combined below)
    dsimp only at run
    split at run
    · obtain ⟨⟨ret', m'⟩, again, run⟩ := bind_eq_ok.1 run
      obtain rfl := Except.ok.inj run
      exact first.trans (agreeOn_nodeCombine again own)
    · obtain ⟨⟨ret', m'⟩, again, run⟩ := bind_eq_ok.1 run
      obtain rfl := Except.ok.inj run
      exact first.trans (agreeOn_nodeCombine again below)

/-- The magic number of the block that is freed. -/
theorem free_magic (h : Layout s (r₁ ++ ⟨b, true⟩ :: r₂)) (run : free s (b.addr + 12) = .ok s') :
    magicOf s'.mem b.addr = nodeMagic := by
  have frame : AgreeOn (setMagic s.mem b.addr nodeMagic) s'.mem b.addr 4 := by
    refine free_frame h run (by omega) fun n hn => ?_
    have := h.free_before hn
    omega
  exact (read32_congr frame).trans (read32_write32_of_lt (by decide))

theorem stale_freed (inv : Inv lo hi s live) (member : b ∈ live) (run : free s (b.addr + 12) = .ok s') :
    Stale s' b.addr := by
  obtain ⟨rs, layout, -, perm, -, -⟩ := inv
  obtain ⟨r₁, r₂, rfl⟩ := List.append_of_mem (mem_blocks.1 (perm.mem_iff.2 member))
  obtain ⟨t, rs', ok, layout', -, -, -, -, -, covers⟩ := free_spec layout
  obtain rfl := Except.ok.inj (ok.symm.trans run)
  refine ⟨free_magic layout run, _, layout'.list, ?_⟩
  obtain ⟨n, hn, start, stop⟩ := covers b (by simp)
  refine ⟨n, hn, start, ?_⟩
  unfold Span.stop sizeofNode at stop ⊢
  omega

/-- A free of another block keeps a stale header stale. -/
theorem Stale.free {p : Nat} (stale : Stale s p) (inv : Inv lo hi s live) (member : b ∈ live)
    (run : free s (b.addr + 12) = .ok s') : Stale s' p := by
  obtain ⟨magic, nodes, list, n, hn, start, stop⟩ := stale
  obtain ⟨rs, layout, -, perm, -, -⟩ := inv
  obtain rfl := Chain.unique list layout.list
  obtain ⟨r₁, r₂, rfl⟩ := List.append_of_mem (mem_blocks.1 (perm.mem_iff.2 member))
  have node : n ∈ frees r₁ ++ frees r₂ := by simpa using hn
  -- the block and its header lie outside the node that the stale header is in
  have outside : b.addr + 12 ≤ p ∨ p + 12 ≤ b.addr := by
    unfold Span.stop sizeofNode at stop
    rcases List.mem_append.1 node with hn | hn
    · have := layout.free_before hn
      omega
    · have := layout.free_after hn
      omega
  have frame : AgreeOn (setMagic s.mem b.addr nodeMagic) s'.mem p 4 := by
    refine free_frame layout run (by omega) fun k hk => ?_
    rcases eq_or_ne k n with rfl | other
    · omega
    · have apart := layout.free_apart_free hn (k := k) (by simp [hk]) other
      unfold Span.stop sizeofNode at stop
      omega
  obtain ⟨t, rs', ok, layout', -, -, -, -, -, covers⟩ := free_spec layout
  obtain rfl := Except.ok.inj (ok.symm.trans run)
  refine ⟨?_, _, layout'.list, ?_⟩
  · apply (read32_congr frame).trans
    apply (read32_write32_apart (by omega)).trans
    exact magic
  · have free : n ∈ frees (r₁ ++ ⟨b, false⟩ :: r₂) := by
      simp only [frees_append, frees_free, List.mem_append, List.mem_cons]
      exact (List.mem_append.1 node).imp_right Or.inr
    obtain ⟨n', hn', start', stop'⟩ := covers n free
    exact ⟨n', hn', by omega, by omega⟩

theorem Stale.write {p : Nat} (stale : Stale s p) (inv : Inv lo hi s live) {m : Mem}
    (outside : ∀ x, ¬ InPayload live x → m x = s.mem x) : Stale { s with mem := m } p := by
  obtain ⟨magic, nodes, list, n, hn, start, stop⟩ := stale
  obtain ⟨rs, layout, -, perm, -, -⟩ := inv
  obtain rfl := Chain.unique list layout.list
  have frame : AgreeOn s.mem m p 4 := by
    intro x lower upper
    apply outside
    rintro ⟨b, hb, inside⟩
    obtain ⟨r₁, r₂, rfl⟩ := List.append_of_mem (mem_frees.1 hn)
    have apart := layout.apart_block (b := b) (by simpa using perm.mem_iff.2 hb)
    unfold Span.stop sizeofNode at *
    omega
  exact ⟨(read32_congr frame).trans magic, _, (layout.write perm outside).list, n, hn, start, stop⟩

end Step

section Runs

variable {lo hi : Nat} {s s' s₁ : State} {live live' : List Span} {p : Span}

theorem Frees.stale (frees : Frees s live s' live') (inv : Inv lo hi s live) {p : Nat} (stale : Stale s p) :
    Inv lo hi s' live' ∧ Stale s' p := by
  induction frees with
  | refl => exact ⟨inv, stale⟩
  | free _ member run ih => exact ⟨inv_free ih.1 member run, ih.2.free ih.1 member run⟩
  | write _ outside ih => exact ⟨inv_write ih.1 outside, ih.2.write ih.1 outside⟩

/-- A free halts with the memory and the head as they are where the header does not look like a block. -/
theorem Stores.free_noBlock {s : State} {ptr : Nat} (nonnull : ptr ≠ 0)
    (noBlock : magicOf s.mem (sub32 ptr sizeofNode) ≠ blockMagic) :
    (Stores.free ptr).run s = .error (.assert "Not a block") s := by
  unfold Stores.free
  rw [if_neg nonnull]
  dsimp only
  rw [Stores.run_load, Stores.run_assert, if_neg noBlock]

/-- **A double free is caught.** The second free of a block fails on the magic number it finds, however many
other blocks were freed between the two, and it has not stored anything before. -/
theorem double_free_caught (positive : 0 < lo) (room : lo + sizeofNode ≤ hi) (below : hi < 2 ^ 32)
    (run : Run lo hi s live) (member : p ∈ live) (first : free s (p.addr + sizeofNode) = .ok s₁)
    (frees : Frees s₁ (live.erase p) s' live') :
    magicOf s'.mem p.addr = nodeMagic ∧ free s' (p.addr + sizeofNode) = .error (.assert "Not a block") ∧
      (Stores.free (p.addr + sizeofNode)).run s' = .error (.assert "Not a block") s' := by
  have inv := run.inv positive room below
  obtain ⟨-, stale⟩ := frees.stale (inv_free inv member first) (stale_freed inv member first)
  have header : sub32 (p.addr + sizeofNode) sizeofNode = p.addr := by
    obtain ⟨rs, layout, -, perm, rfl, rfl⟩ := inv
    have bounds := layout.block_bounds (perm.mem_iff.2 member)
    rw [sub32_of_le (by unfold sizeofNode; omega) (by unfold sizeofNode; omega)]
    exact Nat.add_sub_cancel _ _
  have noBlock : magicOf s'.mem (sub32 (p.addr + sizeofNode) sizeofNode) ≠ blockMagic := by
    rw [header, stale.magic]
    decide
  have halts : (Stores.free (p.addr + sizeofNode)).run s' = .error (.assert "Not a block") s' :=
    Stores.free_noBlock (by unfold sizeofNode; omega) noBlock
  refine ⟨stale.magic, ?_, halts⟩
  have same := Stores.outcome_free (s := s') (p.addr + sizeofNode)
  rw [halts] at same
  cases run : Pmm.free s' (p.addr + sizeofNode) with
  | ok t =>
    rw [run] at same
    cases same
  | error e =>
    rw [run] at same
    cases same
    rfl

/-- Two blocks of 4 bytes on a heap of 48. Both are freed, which merges all of it, and the first one again. -/
theorem double_free_caught_merged :
    ∃ s t s₁ s', alloc (init (fun _ => 0) 16 64) 4 = .ok (28, s) ∧ alloc s 4 = .ok (44, t) ∧ free t 28 = .ok s₁ ∧
      free s₁ 44 = .ok s' ∧ magicOf s'.mem 16 = nodeMagic ∧ free s' 28 = .error (.assert "Not a block") ∧
      (Stores.free 28).run s' = .error (.assert "Not a block") s' := by
  obtain ⟨s, got⟩ : ∃ s, alloc (init (fun _ => 0) 16 64) 4 = .ok (28, s) := ⟨_, rfl⟩
  have one : Run 16 64 s [⟨16, 4⟩] := .alloc (.init _) (by decide) got
  obtain ⟨t, got'⟩ : ∃ t, alloc s 4 = .ok (44, t) := by
    cases got
    exact ⟨_, rfl⟩
  have two : Run 16 64 t [⟨32, 4⟩, ⟨16, 4⟩] := .alloc one (by decide) got'
  obtain ⟨s₁, freed⟩ := (two.inv (by decide) (by decide) (by decide)).freeRuns (b := ⟨16, 4⟩) (by simp)
  have left : Run 16 64 s₁ [⟨32, 4⟩] := .free two (b := ⟨16, 4⟩) (by simp) freed
  obtain ⟨s', freed'⟩ := (left.inv (by decide) (by decide) (by decide)).freeRuns (b := ⟨32, 4⟩) (by simp)
  have frees : Frees s₁ ([⟨32, 4⟩, ⟨16, 4⟩].erase ⟨16, 4⟩) s' _ := .free (b := ⟨32, 4⟩) .refl (by simp) freed'
  exact ⟨s, t, s₁, s', got, got', freed, freed',
    double_free_caught (p := ⟨16, 4⟩) (by decide) (by decide) (by decide) two (by simp) freed frees⟩

end Runs

end OsLab.Kernel.Pmm
