import OsLab.Am.PageTables

/-!
# The map of the kernel (`vme_init`)

`vme_init` maps the pages of the physical areas to themselves. It returns if the client has a page for the directory and for
each of the 192 tables.
-/

namespace OsLab.Am

open OsLab.Owners

/-- What a page can be: the directory of the kernel, one of its tables, and the same of an address space. -/
inductive Slot where
  | kernel
  | kernelTable (i : BitVec 10)
  | space (d : Page)
  | table (d : Page) (i : BitVec 10)
  deriving DecidableEq

/-- The entries of a directory for the areas that are physical. -/
def Kernel (i : BitVec 10) : Prop := i.toNat < 128 ∨ 960 ≤ i.toNat

/-- The entries of a directory for `uvm_area`. -/
def User (i : BitVec 10) : Prop := 256 ≤ i.toNat ∧ i.toNat < 512

def kernelFlags : Entry := PTE_P ||| PTE_W

def userFlags : Entry := PTE_P ||| PTE_W ||| PTE_U

theorem kernelFlags_good : TableFlags kernelFlags := ⟨by decide, by decide⟩

theorem userFlags_good : TableFlags userFlags := ⟨by decide, by decide⟩

/-! ## The kernel -/

section Kernel

variable {α : Type} {A : PageAllocator α} {s : State α} {all : Page → Prop} {slot : Slot → Option Page}
  {leaf : Page → Entry} {stop pa : Page}

theorem mapKernel_eq (pa : BitVec 32) : mapKernel A s pa = setPte A kernelFlags s s.kpt pa (PTE_P ||| PTE_W ||| pa) := by
  unfold mapKernel setPte getTable kernelFlags pgalloc
  split
  · cases A.alloc s.pages with
    | none => rfl
    | some r => rfl
  · rfl

/-- The entry of a page of the kernel. -/
def kernelEntry (p : Page) : Entry := PTE_P ||| PTE_W ||| address p

/-- What `vme_init` needs a page for. -/
def ForKernel (b : Slot) : Prop := b = .kernel ∨ ∃ i, Kernel i ∧ b = .kernelTable i

/-- The client has no page for something that `vme_init` needs. -/
def Exhausted (A : PageAllocator α) (all : Page → Prop) : Prop :=
  ∃ (pages : α) (slot : Slot → Option Page) (b : Slot), A.alloc pages = none ∧ Owned all (A.Avail pages) slot ∧
    ForKernel b ∧ slot b = none ∧ ∀ b, (slot b).isSome → ForKernel b

/-- No other slots are filled. -/
theorem Kept.only {s' : State α} {slot' : Slot → Option Page} (h : Kept A all .kernel .kernelTable Kernel s slot s' slot')
    (only : ∀ b, (slot b).isSome → ForKernel b) : ∀ b, (slot' b).isSome → ForKernel b := by
  intro b some
  by_cases other : ∀ i, Kernel i → b ≠ .kernelTable i
  · rw [h.slots b other] at some
    exact only b some
  · push Not at other
    exact .inr other

/-- The loop maps the pages up to the last one to themselves; the induction is that of the loop. -/
theorem kernelLoop_spec (tree : Tree s.mem s.kpt kernelFlags Kernel (fun i => slot (.kernelTable i)) leaf)
    (owned : Owned all (A.Avail s.pages) slot) (own : slot .kernel = some s.kpt)
    (only : ∀ b, (slot b).isSome → ForKernel b)
    (inside : ∀ r, (r - pa).toNat < (stop - pa).toNat → Kernel (PDX (address r))) :
    (Exhausted A all ∧ kernelLoop A stop pa s = .error .allocation) ∨
    ∃ s' slot', kernelLoop A stop pa s = .ok s' ∧ Kept A all .kernel .kernelTable Kernel s slot s' slot' ∧
      Tree s'.mem s'.kpt kernelFlags Kernel (fun i => slot' (.kernelTable i))
        fun r => if (r - pa).toNat < (stop - pa).toNat then kernelEntry r else leaf r := by
  induction pa, s using kernelLoop.induct stop generalizing slot leaf with
  | case1 s =>
    refine .inr ⟨s, slot, by rw [kernelLoop, if_pos rfl], .refl owned, ?_⟩
    simpa using tree
  | case2 pa s more ih =>
    have apart : ∀ i, Slot.kernel ≠ .kernelTable i := fun i same => by cases same
    have inj : ∀ i j, Slot.kernelTable i = .kernelTable j → i = j := fun i j same => by cases same; rfl
    have first : Kernel (PDX (address pa)) := inside pa (by bv_omega)
    have split : ∀ r : Page, (r - pa).toNat < (stop - pa).toNat ↔ r = pa ∨ (r - (pa + 1)).toNat < (stop - (pa + 1)).toNat := by
      intro r
      bv_omega
    rw [kernelLoop, if_neg more, mapKernel_eq]
    obtain ⟨none, empty, run⟩ | ⟨s₁, slot₁, run, kept, tree₁⟩ :=
      setPte_spec kernelFlags_good apart inj tree owned own first (PTE_P ||| PTE_W ||| address pa)
    · rw [run]
      exact .inl ⟨⟨s.pages, slot, _, none, owned, .inr ⟨_, first, rfl⟩, empty, only⟩, rfl⟩
    · rw [run, ok_bind]
      rw [← kept.kpt] at tree₁
      have own₁ : slot₁ .kernel = some s₁.kpt := by rw [kept.slots _ fun i _ => apart i, own, kept.kpt]
      obtain ⟨exhausted, run'⟩ | ⟨s₂, slot₂, run', kept', tree₂⟩ :=
        ih s₁ tree₁ kept.owned own₁ (kept.only only) fun r later => inside r ((split r).2 (.inr later))
      · exact .inl ⟨exhausted, run'⟩
      · refine .inr ⟨s₂, slot₂, run', kept.trans kept' apart, ?_⟩
        refine cast (congrArg _ (funext fun r => ?_)) tree₂
        rw [pageOf_address]
        by_cases here : r = pa
        · subst here
          rw [if_pos ((split r).2 (.inl rfl)), Function.update_self, ite_eq_left_iff]
          exact fun _ => rfl
        · rw [Function.update_of_ne here]
          exact if_congr ((split r).trans (or_iff_right here)).symm rfl rfl

/-- The entries of the pages in the areas that are physical. -/
def kernelLeaf (p : Page) : Entry := if p.toNat < 0x20000 ∨ 0xf0000 ≤ p.toNat then kernelEntry p else 0

theorem vmeInit_eq (A : PageAllocator α) (mem : Page → BitVec 10 → Entry) (pages : α) :
    vmeInit A mem pages = (pgalloc A ⟨mem, pages, 0⟩ >>= fun r =>
      kernelLoop A 0x20000 0 { r.2 with kpt := r.1 } >>= kernelLoop A 0 0xf0000) := by
  unfold vmeInit areas uvmArea
  refine congrArg _ (funext fun r => ?_)
  have first : pageOf 0x20000000 = 0x20000 := by decide
  have zero : pageOf 0 = 0 := by decide
  have last : pageOf 0xf0000000 = 0xf0000 := by decide
  simp only [List.foldlM_cons, List.foldlM_nil, if_true, Bool.false_eq_true, if_false, ok_bind, first, zero, last]
  exact bind_congr fun s => bind_pure _

/-- The two loops map what `kernelLeaf` says. -/
theorem kernelLeaf_eq : (fun r : Page => if (r - 0xf0000).toNat < ((0 : Page) - 0xf0000).toNat then kernelEntry r
    else if (r - 0).toNat < ((0x20000 : Page) - 0).toNat then kernelEntry r else 0) = kernelLeaf := by
  funext r
  unfold kernelLeaf
  split
  · rw [if_pos (by bv_omega)]
  · split
    · rw [if_pos (by bv_omega)]
    · rw [if_neg (by bv_omega)]

theorem PDX_toNat (va : BitVec 32) : (PDX va).toNat = va.toNat / 2 ^ 22 := by
  unfold PDX
  rw [BitVec.extractLsb'_toNat, Nat.shiftRight_eq_div_pow]
  omega

theorem address_toNat (p : Page) : (address p).toNat = p.toNat * 4096 := by
  unfold address
  rw [BitVec.toNat_append, BitVec.toNat_ofNat, Nat.zero_mod, Nat.or_zero, Nat.shiftLeft_eq]

theorem first_area (r : Page) (inside : (r - 0).toNat < ((0x20000 : Page) - 0).toNat) : Kernel (PDX (address r)) := by
  unfold Kernel
  rw [PDX_toNat, address_toNat]
  bv_omega

theorem last_area (r : Page) (inside : (r - 0xf0000).toNat < ((0 : Page) - 0xf0000).toNat) : Kernel (PDX (address r)) := by
  unfold Kernel
  rw [PDX_toNat, address_toNat]
  bv_omega

/-- After `vme_init` the physical areas are mapped to themselves, unless the client runs out of pages. -/
theorem vmeInit_spec (A : PageAllocator α) (mem : Page → BitVec 10 → Entry) (pages : α) :
    (Exhausted A (A.Avail pages) ∧ vmeInit A mem pages = .error .allocation) ∨
    ∃ (s : State α) (slot : Slot → Option Page), vmeInit A mem pages = .ok s ∧
      Owned (A.Avail pages) (A.Avail s.pages) slot ∧ slot .kernel = some s.kpt ∧
      Tree s.mem s.kpt kernelFlags Kernel (fun i => slot (.kernelTable i)) kernelLeaf ∧
      (∀ i, ¬ Kernel i → s.mem s.kpt i = 0) ∧ ∀ b, (slot b).isSome → ForKernel b := by
  have start : Owned (A.Avail pages) (A.Avail pages) fun _ : Slot => none := .start fun _ => rfl
  have apart : ∀ i, Slot.kernel ≠ .kernelTable i := fun i same => by cases same
  rw [vmeInit_eq]
  unfold pgalloc
  dsimp only
  match taken : A.alloc pages with
  | none => exact .inl ⟨⟨pages, _, .kernel, taken, start, .inl rfl, rfl, fun b some => by cases some⟩, rfl⟩
  | some (kpt, left) =>
    obtain ⟨free, rest⟩ := A.alloc_some taken
    have owned := @Owned.take _ _ _ _ _ _ .kernel _ _ start rfl free rest
    have own : Function.update (fun _ : Slot => none) .kernel (some kpt) .kernel = some kpt := Function.update_self ..
    have others : ∀ b, b ≠ .kernel → Function.update (fun _ : Slot => none) .kernel (some kpt) b = none := fun b ne =>
      Function.update_of_ne ne ..
    generalize Function.update (fun _ : Slot => none) .kernel (some kpt) = slot at owned own others
    have zero : ∀ i, Function.update mem kpt (fun _ => 0) kpt i = 0 := fun i => by rw [Function.update_self]
    have only : ∀ b, (slot b).isSome → ForKernel b := fun b some => by
      by_cases here : b = .kernel
      · exact .inl here
      · rw [others b here] at some
        cases some
    rw [ok_bind]
    dsimp only
    generalize entry : (⟨Function.update mem kpt fun _ => 0, left, kpt⟩ : State α) = s
    have tree : Tree s.mem s.kpt kernelFlags Kernel (fun i => slot (.kernelTable i)) fun _ => 0 := by
      subst entry
      exact .zero (fun i _ => zero i) fun i _ => others _ (apart i).symm
    have pages_eq : s.pages = left := by rw [← entry]
    have kpt_eq : s.kpt = kpt := by rw [← entry]
    have zeros : ∀ i, s.mem kpt i = 0 := by
      subst entry
      exact zero
    rw [← pages_eq] at owned
    rw [← kpt_eq] at own zeros
    obtain ⟨exhausted, run⟩ | ⟨s₁, slot₁, run, kept, tree₁⟩ := kernelLoop_spec tree owned own only first_area
    · rw [run]
      exact .inl ⟨exhausted, rfl⟩
    · rw [run, ok_bind]
      have own₁ : slot₁ .kernel = some s₁.kpt := by rw [kept.slots _ fun i _ => apart i, own, kept.kpt]
      obtain ⟨exhausted, run'⟩ | ⟨s₂, slot₂, run', kept', tree₂⟩ := kernelLoop_spec tree₁ kept.owned own₁ (kept.only only) last_area
      · exact .inl ⟨exhausted, run'⟩
      · have both := kept.trans kept' apart
        rw [kernelLeaf_eq] at tree₂
        refine .inr ⟨s₂, slot₂, run', both.owned, ?_, tree₂, fun i outside => ?_, both.only only⟩
        · rw [both.slots _ fun i _ => apart i, own, both.kpt]
        · rw [both.kpt, both.entries _ own i outside, zeros]

end Kernel

end OsLab.Am
