import OsLab.Lib.Memory
import OsLab.Kernel.Debug

/-!
# The kernel heap (`pmm.c`)

A free chunk starts with a `node` header (`magic`, `size`, `next`), an allocated one with
a `block` header (`magic`, `size`, `data`); on i386 both take 12 bytes and every field is
a 32-bit word. Free chunks form a list from `head`, linked through `next`. Addresses and
sizes are naturals; what the source adds or subtracts in `uint32_t` or `uintptr_t` is
reduced modulo `2 ^ 32` here. `pmm_lock` is held over the whole of `alloc` and `free`, so
each is one step.
-/

namespace OsLab.Kernel.Pmm

open OsLab.Memory

def nodeMagic : Nat := 12345678
def blockMagic : Nat := 31579846

/-- `sizeof(node)`, which `init` asserts to equal `sizeof(block)`. -/
def sizeofNode : Nat := 12

/-- The static variables of the module and the memory they point into. -/
structure State where
  mem : Mem
  head : Nat
  pmStart : Nat
  pmEnd : Nat

/-! ## Header fields -/

def magicOf (m : Mem) (p : Nat) : Nat := read32 m p
def sizeOf (m : Mem) (p : Nat) : Nat := read32 m (p + 4)
def nextOf (m : Mem) (p : Nat) : Nat := read32 m (p + 8)

def setMagic (m : Mem) (p v : Nat) : Mem := write32 m p v
def setSize (m : Mem) (p v : Nat) : Mem := write32 m (p + 4) v
def setNext (m : Mem) (p v : Nat) : Mem := write32 m (p + 8) v
/-- The third field of a `block`, at the offset of `next` in a `node`. -/
def setData (m : Mem) (p v : Nat) : Mem := write32 m (p + 8) v

/-- `uint32_t` subtraction. -/
def sub32 (a b : Nat) : Nat := (a + (2 ^ 32 - b % 2 ^ 32)) % 2 ^ 32

/-! ## Nodes -/

def nodeInit (m : Mem) (nd size : Nat) : Mem :=
  setSize (setNext (setMagic m nd nodeMagic) nd 0) nd size

/-- Returns the node, or `NULL` when it is too small, with the memory after. -/
def nodeSplit (m : Mem) (nd firstSize : Nat) : Except Halt (Nat × Mem) := do
  kassert (nd ≠ 0) "split NULL"
  if sizeOf m nd < (firstSize + sizeofNode) % 2 ^ 32 then
    return (0, m)
  let fullSize := sizeOf m nd
  let next := nextOf m nd
  let newNode := (nd + sizeofNode + firstSize) % 2 ^ 32
  let m := nodeInit m newNode (sub32 (sub32 fullSize firstSize) sizeofNode)
  let m := setNext m nd newNode
  let m := setSize m nd firstSize
  let m := setNext m newNode next
  return (nd, m)

/-- Returns the node when it was merged with its successor, else `NULL`. -/
def nodeCombine (m : Mem) (nd : Nat) : Except Halt (Nat × Mem) := do
  kassert (nd ≠ 0) "combine NULL"
  if (nd + sizeofNode + sizeOf m nd) % 2 ^ 32 ≠ nextOf m nd then
    return (0, m)
  kassert (nextOf m nd ≠ 0) "combine next NULL"
  let m := setSize m nd ((sizeOf m nd + sizeOf m (nextOf m nd) + sizeofNode) % 2 ^ 32)
  let m := setNext m nd (nextOf m (nextOf m nd))
  return (nd, m)

/-- A bound on the length of any list of nodes in a 32-bit address space. -/
def listBound : Nat := 2 ^ 32

/-- The loop of `node_find_size`: `cur`, `*last`. -/
def nodeFindSizeLoop (m : Mem) (size : Nat) : Nat → Nat → Nat → Except Halt (Nat × Nat)
  | 0, _, _ => .error .diverge
  | fuel + 1, cur, last =>
    if cur = 0 then .ok (0, last)
    else if size ≤ sizeOf m cur then .ok (cur, last)
    else nodeFindSizeLoop m size fuel (nextOf m cur) cur

/-- The first node of at least `size` bytes, or `NULL`, and the node before it. -/
def nodeFindSize (m : Mem) (head size : Nat) : Except Halt (Nat × Nat) :=
  nodeFindSizeLoop m size listBound head 0

/-- The loop of `node_find_position`: `cur`, `ans`. It walks the whole list. -/
def nodeFindPositionLoop (m : Mem) (pos : Nat) : Nat → Nat → Nat → Except Halt Nat
  | 0, _, _ => .error .diverge
  | fuel + 1, cur, ans =>
    if cur = 0 then .ok ans
    else nodeFindPositionLoop m pos fuel (nextOf m cur) (if cur ≤ pos then cur else ans)

/-- The last node of the list at an address of at most `pos`, or `NULL`. -/
def nodeFindPosition (m : Mem) (head pos : Nat) : Except Halt Nat :=
  nodeFindPositionLoop m pos listBound head 0

/-! ## Blocks -/

def blockInit (m : Mem) (bk size : Nat) : Mem :=
  setData (setSize (setMagic m bk blockMagic) bk size) bk blockMagic

/-- `memset`: the pointer it writes through wraps around at `2 ^ 32`. -/
def memset (m : Mem) (v : Nat) (c : UInt8) (n : Nat) : Mem :=
  fun x => if x < 2 ^ 32 ∧ sub32 x v < n then c else m x

/-- `memset` of the payload to zero. -/
def blockClear (m : Mem) (bk : Nat) : Mem := memset m (bk + sizeofNode) 0 (sizeOf m bk)

/-! ## Entry points -/

def init (m : Mem) (heapStart heapEnd : Nat) : State where
  mem := nodeInit m heapStart (sub32 (sub32 heapEnd heapStart) sizeofNode)
  head := heapStart
  pmStart := heapStart
  pmEnd := heapEnd

/-- Returns the payload address, `NULL` when no node is large enough. -/
def alloc (s : State) (size : Nat) : Except Halt (Nat × State) := do
  let (nd, last) ← nodeFindSize s.mem s.head ((size + sizeofNode) % 2 ^ 32)
  if nd = 0 then
    return (0, s)
  kassert (magicOf s.mem nd = nodeMagic) "Not a node"
  let (first, m) ← nodeSplit s.mem nd size
  kassert (first ≠ 0) "split failed"
  let (m, head) ←
    if nd = s.head then do
      kassert (last = 0) "last node is not NULL when find head"
      pure (m, nextOf m nd)
    else do
      kassert (last ≠ 0) "last node is not NULL when find medium"
      pure (setNext m last (nextOf m nd), s.head)
  let m := blockClear (blockInit m nd size) nd
  return ((nd + sizeofNode) % 2 ^ 32, { s with mem := m, head := head })

def free (s : State) (ptr : Nat) : Except Halt State := do
  if ptr = 0 then
    return s
  let bk := sub32 ptr sizeofNode
  kassert (magicOf s.mem bk = blockMagic) "Not a block"
  let m := nodeInit s.mem bk (sizeOf s.mem bk)
  let tnd ← nodeFindPosition m s.head bk
  if tnd = 0 then do
    let m := setNext m bk s.head
    let (_, m) ← nodeCombine m bk
    return { s with mem := m, head := bk }
  else do
    let m := setNext m bk (nextOf m tnd)
    let m := setNext m tnd bk
    let (cmnd, m) ← nodeCombine m tnd
    let (_, m) ← if cmnd = 0 then nodeCombine m bk else nodeCombine m tnd
    return { s with mem := m }

end OsLab.Kernel.Pmm
