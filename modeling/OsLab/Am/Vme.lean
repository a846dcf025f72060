import OsLab.Lib.Except
import OsLab.Lib.Owners

/-!
# Virtual memory (`am/src/x86/qemu/vme.c`)

Two levels of tables translate the pages of an address space. The pages of the tables come from a client of the abstract
machine, as pages at multiples of `PGSIZE`; `pa` and `va` of the loops, which step by a page or by the pages of a table,
are counted in pages and in tables.
-/

namespace OsLab.Am

/-- A page, by its number. -/
abbrev Page := BitVec 20

/-- An entry of a table (`PDE`, `PTE`) -/
abbrev Entry := BitVec 32

def PTE_P : Entry := 1
def PTE_W : Entry := 2
def PTE_U : Entry := 4

/-- The address at which a page begins. -/
def address (p : Page) : BitVec 32 := p ++ 0#12

/-- The page of an address. -/
def pageOf (va : BitVec 32) : Page := va.extractLsb' 12 20

def PDX (va : BitVec 32) : BitVec 10 := va.extractLsb' 22 10

def PTX (va : BitVec 32) : BitVec 10 := va.extractLsb' 12 10

/-- `PTE_ADDR`, as a page -/
def PTE_ADDR (pte : Entry) : Page := pte.extractLsb' 12 20

def PROT_NONE : BitVec 32 := 1
def PROT_WRITE : BitVec 32 := 4

/-- What the client gives to `vme_init`: `alloc` gives a page that is available and `free` takes one back. -/
structure PageAllocator (α : Type) where
  alloc : α → Option (Page × α)
  free : α → Page → α
  Avail : α → Page → Prop
  alloc_some : ∀ {a a' p}, alloc a = some (p, a') → Avail a p ∧ ∀ q, Avail a' q ↔ Avail a q ∧ q ≠ p
  free_avail : ∀ {a p}, ¬ Avail a p → ∀ q, Avail (free a p) q ↔ Avail a q ∨ q = p

/-- The causes of `panic` -/
inductive Panic where
  | allocation
  | flags
  | unaligned
  deriving DecidableEq

/-- The memory of the tables, the allocator and `kpt` -/
structure State (α : Type) where
  mem : Page → BitVec 10 → Entry
  pages : α
  kpt : Page

variable {α : Type}

def State.setEntry (s : State α) (p : Page) (i : BitVec 10) (e : Entry) : State α :=
  { s with mem := Function.update s.mem p (Function.update (s.mem p) i e) }

/-- An area of virtual addresses, and whether they are physical ones. -/
structure Area where
  start : BitVec 32
  stop : BitVec 32
  physical : Bool

/-- `uvm_area` -/
def uvmArea : Area := ⟨0x40000000, 0x80000000, false⟩

def areas : List Area := [⟨0x00000000, 0x20000000, true⟩, uvmArea, ⟨0xf0000000, 0x00000000, true⟩]

section Operations

variable (A : PageAllocator α)

def pgalloc (s : State α) : Except Panic (Page × State α) :=
  match A.alloc s.pages with
  | none => .error .allocation
  | some (p, pages) => .ok (p, { s with mem := Function.update s.mem p fun _ => 0, pages })

def pgfree (s : State α) (p : Page) : State α := { s with pages := A.free s.pages p }

/-- The body of the inner loop of `vme_init` -/
def mapKernel (s : State α) (pa : BitVec 32) : Except Panic (State α) := do
  if s.mem s.kpt (PDX pa) &&& PTE_P = 0 then
    let (ptab, s) ← pgalloc A s
    let s := s.setEntry s.kpt (PDX pa) (PTE_P ||| PTE_W ||| address ptab)
    .ok (s.setEntry ptab (PTX pa) (PTE_P ||| PTE_W ||| pa))
  else
    let ptab := PTE_ADDR (s.mem s.kpt (PDX pa))
    .ok (s.setEntry ptab (PTX pa) (PTE_P ||| PTE_W ||| pa))

/-- The inner loop of `vme_init` -/
def kernelLoop (stop pa : Page) (s : State α) : Except Panic (State α) :=
  if pa = stop then .ok s
  else do kernelLoop stop (pa + 1) (← mapKernel A s (address pa))
termination_by (stop - pa).toNat
decreasing_by bv_omega

/-- `vme_init` of the bootstrap processor -/
def vmeInit (mem : Page → BitVec 10 → Entry) (pages : α) : Except Panic (State α) := do
  let (kpt, s) ← pgalloc A ⟨mem, pages, 0⟩
  areas.foldlM (fun s seg => if seg.physical then kernelLoop A (pageOf seg.stop) (pageOf seg.start) s else .ok s)
    { s with kpt }

/-- `protect`: the directory of the new address space -/
def protect (s : State α) : Except Panic (Page × State α) := do
  let (upt, s) ← pgalloc A s
  .ok (upt, { s with mem := Function.update s.mem upt (s.mem s.kpt) })

/-- The loop of `unprotect`, over the tables from `va` -/
def unprotectLoop (upt : Page) (stop va : BitVec 10) (s : State α) : State α :=
  if va = stop then s
  else
    let pde := s.mem upt va
    unprotectLoop upt stop (va + 1) (if pde &&& PTE_P ≠ 0 then pgfree A s (PTE_ADDR pde) else s)
termination_by (stop - va).toNat
decreasing_by bv_omega

def unprotect (s : State α) (upt : Page) : State α :=
  pgfree A (unprotectLoop A upt (PDX uvmArea.stop) (PDX uvmArea.start) s) upt

/-- The entry that `map` writes. -/
def pteOf (pa prot : BitVec 32) : Entry :=
  if prot &&& PROT_NONE ≠ 0 then 0 else PTE_P ||| (if prot &&& PROT_WRITE ≠ 0 then PTE_W else 0) ||| PTE_U ||| pa

/-- `map` in the address space with the directory `upt` -/
def map (s : State α) (upt : Page) (va pa prot : BitVec 32) : Except Panic (Nat × State α) :=
  if prot &&& PROT_NONE ≠ 0 ∧ prot ≠ PROT_NONE then .error .flags
  else if va ≠ va &&& ~~~4095 ∨ pa ≠ pa &&& ~~~4095 then .error .unaligned
  else if ¬ (uvmArea.start ≤ va ∧ va < uvmArea.stop) then .ok (1, s)
  else do
    let s ← if s.mem upt (PDX va) &&& PTE_P = 0 then do
        let (ptab, s) ← pgalloc A s
        .ok (s.setEntry upt (PDX va) (PTE_P ||| PTE_W ||| PTE_U ||| address ptab))
      else .ok s
    let ptab := PTE_ADDR (s.mem upt (PDX va))
    .ok (0, s.setEntry ptab (PTX va) (pteOf pa prot))

end Operations

/-! ## The translation of the processor -/

/-- Where an address leads, and what is allowed there. -/
structure Translation where
  page : Page
  writable : Bool
  user : Bool
  deriving DecidableEq

/-- The walk of the processor through the tables of a directory: a right has to be given by both entries. -/
def translate (mem : Page → BitVec 10 → Entry) (dir : Page) (va : BitVec 32) : Option Translation :=
  let pde := mem dir (PDX va)
  let pte := mem (PTE_ADDR pde) (PTX va)
  if pde &&& PTE_P = 0 ∨ pte &&& PTE_P = 0 then none
  else some ⟨PTE_ADDR pte, pde &&& pte &&& PTE_W ≠ 0, pde &&& pte &&& PTE_U ≠ 0⟩

end OsLab.Am
