import OsLab.Kernel.Pmm.FreeList

/-!
# What each header edit does

One specification for each routine of `pmm.c` that edits headers in place: the header it
leaves behind, and the bytes it leaves alone. Later modules use only these.
-/

namespace OsLab.Kernel.Pmm

open OsLab.Memory

/-- A `block` header at `b.addr` with the size that was asked for. -/
structure BlockAt (m : Mem) (b : Span) : Prop where
  magic : magicOf m b.addr = blockMagic
  size : sizeOf m b.addr = b.size

theorem BlockAt.frame {m m' : Mem} {b : Span} (h : BlockAt m b) (ag : AgreeOn m m' b.addr 12) :
    BlockAt m' b where
  magic := (magicOf_congr ag).trans h.magic
  size := (sizeOf_congr ag).trans h.size

theorem sub32_of_le {a b : Nat} (h : b ≤ a) (ha : a < 2 ^ 32) : sub32 a b = a - b := by
  unfold sub32
  omega

/-! ## Single fields -/

section Fields

variable {m : Mem} {p v : Nat}

theorem agreeOn_setNext {b k : Nat} (h : Apart p 12 b k) : AgreeOn m (setNext m p v) b k :=
  agreeOn_write32 (by omega)

theorem agreeOn_setSize {b k : Nat} (h : Apart p 12 b k) : AgreeOn m (setSize m p v) b k :=
  agreeOn_write32 (by omega)

theorem nextOf_setNext (h : v < 2 ^ 32) : nextOf (setNext m p v) p = v :=
  read32_write32_of_lt h

theorem NodeAt.setNext {n : Span} (h : NodeAt m n) : NodeAt (setNext m n.addr v) n where
  nonnull := h.nonnull
  magic := (read32_write32_apart (by omega)).trans h.magic
  size := (read32_write32_apart (by omega)).trans h.size

theorem NodeAt.setSize {n : Span} (h : NodeAt m n) (fits : v < 2 ^ 32) :
    NodeAt (setSize m n.addr v) ⟨n.addr, v⟩ where
  nonnull := h.nonnull
  magic := (read32_write32_apart (a := n.addr + 4) (b := n.addr) (by omega)).trans h.magic
  size := read32_write32_of_lt fits

theorem nextOf_setSize : nextOf (setSize m p v) p = nextOf m p :=
  read32_write32_apart (by omega)

end Fields

/-! ## Whole headers -/

section Headers

variable {m : Mem} {p size : Nat}

theorem agreeOn_nodeInit {b k : Nat} (h : Apart p 12 b k) : AgreeOn m (nodeInit m p size) b k := by
  unfold nodeInit
  have magic : AgreeOn m (setMagic m p nodeMagic) b k :=
    agreeOn_write32 (by omega)
  exact (magic.trans (agreeOn_setNext h)).trans (agreeOn_setSize h)

theorem nodeAt_nodeInit (nonnull : p ≠ 0) (fits : size < 2 ^ 32) :
    NodeAt (nodeInit m p size) ⟨p, size⟩ := by
  refine ⟨nonnull, ?_, read32_write32_of_lt fits⟩
  have size : magicOf (nodeInit m p size) p = magicOf (setNext (setMagic m p nodeMagic) p 0) p :=
    read32_write32_apart (by omega)
  have next : magicOf (setNext (setMagic m p nodeMagic) p 0) p = magicOf (setMagic m p nodeMagic) p :=
    read32_write32_apart (by omega)
  rw [size, next]
  exact read32_write32_of_lt (by decide)

theorem nextOf_nodeInit : nextOf (nodeInit m p size) p = 0 := by
  unfold nodeInit
  rw [nextOf_setSize]
  exact nextOf_setNext (by decide)

theorem agreeOn_blockInit {b k : Nat} (h : Apart p 12 b k) :
    AgreeOn m (blockInit m p size) b k := by
  unfold blockInit
  have magic : AgreeOn m (setMagic m p blockMagic) b k :=
    agreeOn_write32 (by omega)
  exact (magic.trans (agreeOn_setSize h)).trans (agreeOn_setNext h)

theorem blockAt_blockInit (fits : size < 2 ^ 32) : BlockAt (blockInit m p size) ⟨p, size⟩ := by
  constructor
  · have data : magicOf (blockInit m p size) p = magicOf (setSize (setMagic m p blockMagic) p size) p :=
      read32_write32_apart (by omega)
    have size : magicOf (setSize (setMagic m p blockMagic) p size) p =
        magicOf (setMagic m p blockMagic) p :=
      read32_write32_apart (by omega)
    rw [data, size]
    exact read32_write32_of_lt (by decide)
  · have data : sizeOf (blockInit m p size) p = sizeOf (setSize (setMagic m p blockMagic) p size) p :=
      read32_write32_apart (by omega)
    rw [data]
    exact read32_write32_of_lt fits

/-- Below the end of the address space `memset` fills a range. -/
theorem memset_eq {v n : Nat} {c : UInt8} (below : v + n ≤ 2 ^ 32) :
    memset m v c n = store m v n fun _ => c := by
  funext x
  have inside : (x < 2 ^ 32 ∧ sub32 x v < n) ↔ (v ≤ x ∧ x < v + n) := by
    unfold sub32
    omega
  unfold memset store
  rw [if_congr inside rfl rfl]

theorem blockClear_eq {n : Span} (h : BlockAt m n) (below : n.stop ≤ 2 ^ 32) :
    blockClear m n.addr = store m (n.addr + 12) n.size fun _ => 0 := by
  unfold blockClear
  rw [h.size]
  exact memset_eq below

/-- Clearing a payload writes nothing else. -/
theorem agreeOn_blockClear {n : Span} (h : BlockAt m n) (below : n.stop ≤ 2 ^ 32) {b k : Nat}
    (apart : Apart (n.addr + 12) n.size b k) : AgreeOn m (blockClear m n.addr) b k := by
  rw [blockClear_eq h below]
  exact agreeOn_store apart

end Headers

/-! ## `node_split` -/

/-- A node with room for `size` bytes and another header is split in two; nothing outside
the node is written. -/
theorem nodeSplit_spec {m : Mem} {n : Span} {size : Nat} (node : NodeAt m n)
    (room : size + 12 ≤ n.size) (below : n.stop < 2 ^ 32) :
    ∃ m', nodeSplit m n.addr size = .ok (n.addr, m') ∧
      NodeAt m' ⟨n.addr, size⟩ ∧ nextOf m' n.addr = n.addr + 12 + size ∧
      NodeAt m' ⟨n.addr + 12 + size, n.size - size - 12⟩ ∧
      nextOf m' (n.addr + 12 + size) = nextOf m n.addr ∧
      ∀ b k, Apart n.addr (12 + n.size) b k → AgreeOn m m' b k := by
  have stop : n.addr + 12 + n.size < 2 ^ 32 := below
  set c := n.addr + 12 + size with hc
  set m₁ := nodeInit m c (n.size - size - 12)
  set m₂ := Pmm.setNext m₁ n.addr c
  set m₃ := Pmm.setSize m₂ n.addr size
  set m₄ := Pmm.setNext m₃ c (nextOf m n.addr)
  have run : nodeSplit m n.addr size = .ok (n.addr, m₄) := by
    unfold nodeSplit
    rw [kassert_pos node.nonnull, ok_bind, node.size, if_neg (by unfold sizeofNode; omega)]
    have wrap : (n.addr + sizeofNode + size) % 2 ^ 32 = c := by
      unfold sizeofNode
      omega
    have rest : sub32 (sub32 n.size size) sizeofNode = n.size - size - 12 := by
      rw [sub32_of_le (a := n.size) (by omega) (by omega),
        sub32_of_le (by unfold sizeofNode; omega) (by omega)]
      rfl
    simp only [wrap, rest]
    rfl
  -- the headers at `n.addr` and at `c` do not overlap
  have ca : Apart c 12 n.addr 12 := by omega
  have ac : Apart n.addr 12 c 12 := by omega
  have new₁ : NodeAt m₁ ⟨c, n.size - size - 12⟩ := nodeAt_nodeInit (by omega) (by omega)
  have old₁ : NodeAt m₁ n := node.frame (agreeOn_nodeInit ca)
  have new₂ : NodeAt m₂ ⟨c, n.size - size - 12⟩ := new₁.frame (agreeOn_setNext ac)
  have link₂ : nextOf m₂ n.addr = c := nextOf_setNext (by omega)
  have old₃ : NodeAt m₃ ⟨n.addr, size⟩ := (old₁.setNext (v := c)).setSize (by omega)
  have new₃ : NodeAt m₃ ⟨c, n.size - size - 12⟩ := new₂.frame (agreeOn_setSize ac)
  have link₃ : nextOf m₃ n.addr = c := nextOf_setSize.trans link₂
  refine ⟨m₄, run, old₃.frame (agreeOn_setNext ca), ?_, new₃.setNext,
    nextOf_setNext (read32_lt _ _), ?_⟩
  · exact (nextOf_congr (agreeOn_setNext ca)).trans link₃
  · intro b k apart
    have atNew : Apart c 12 b k := by omega
    have atOld : Apart n.addr 12 b k := by omega
    exact (((agreeOn_nodeInit atNew).trans (agreeOn_setNext atOld)).trans
      (agreeOn_setSize atOld)).trans (agreeOn_setNext atNew)

/-! ## `node_combine` -/

/-- A node that ends where its successor starts absorbs it. -/
theorem nodeCombine_merge {m : Mem} {n k : Span} (node : NodeAt m n)
    (link : nextOf m n.addr = k.addr) (next : NodeAt m k) (touch : k.addr = n.stop)
    (below : k.stop < 2 ^ 32) :
    ∃ m', nodeCombine m n.addr = .ok (n.addr, m') ∧
      NodeAt m' ⟨n.addr, n.size + k.size + 12⟩ ∧ nextOf m' n.addr = nextOf m k.addr ∧
      ∀ b j, Apart n.addr 12 b j → AgreeOn m m' b j := by
  have stop : k.addr + 12 + k.size < 2 ^ 32 := below
  have start : k.addr = n.addr + 12 + n.size := touch
  set m₁ := Pmm.setSize m n.addr (n.size + k.size + 12)
  have node₁ : NodeAt m₁ ⟨n.addr, n.size + k.size + 12⟩ := node.setSize (by omega)
  have link₁ : nextOf m₁ n.addr = k.addr := nextOf_setSize.trans link
  have far₁ : nextOf m₁ k.addr = nextOf m k.addr :=
    nextOf_congr (agreeOn_setSize (by omega))
  have run : nodeCombine m n.addr = .ok (n.addr, Pmm.setNext m₁ n.addr (nextOf m k.addr)) := by
    unfold nodeCombine
    rw [kassert_pos node.nonnull, ok_bind, node.size, link,
      if_neg (by unfold sizeofNode; omega), kassert_pos next.nonnull, ok_bind, next.size]
    have sum : (n.size + k.size + sizeofNode) % 2 ^ 32 = n.size + k.size + 12 := by
      unfold sizeofNode
      omega
    rw [sum]
    change Except.ok (n.addr, Pmm.setNext m₁ n.addr (nextOf m₁ (nextOf m₁ n.addr))) = _
    rw [link₁, far₁]
  refine ⟨_, run, node₁.setNext, nextOf_setNext (read32_lt _ _), ?_⟩
  intro b j apart
  exact (agreeOn_setSize apart).trans (agreeOn_setNext apart)

/-- A node with a gap before its successor is left alone. -/
theorem nodeCombine_apart {m : Mem} {n : Span} (node : NodeAt m n) (below : n.stop < 2 ^ 32)
    (gap : nextOf m n.addr ≠ n.stop) : nodeCombine m n.addr = .ok (0, m) := by
  have stop : n.addr + 12 + n.size < 2 ^ 32 := below
  unfold nodeCombine
  rw [kassert_pos node.nonnull, ok_bind, node.size]
  have wrap : (n.addr + sizeofNode + n.size) % 2 ^ 32 = n.stop := by
    unfold Span.stop sizeofNode
    omega
  rw [wrap, if_pos (Ne.symm gap)]
  rfl

end OsLab.Kernel.Pmm
