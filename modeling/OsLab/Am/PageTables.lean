import OsLab.Am.Vme

/-!
# The tables of a directory

`Tree` says what the tables below a directory hold, where each table is the page of a slot. `vme_init` and `map` both reach
an entry through a directory and get the table from the client if it is not there (`getTable`), so one lemma about that and
one about the entry itself serve both.
-/

namespace OsLab.Am

open OsLab.Owners

/-! ## Entries -/

section Entries

variable {flags m : Entry} {i j i' j' : BitVec 10}

/-- The page behind entry `j` of the table behind entry `i`. -/
def page (i j : BitVec 10) : Page := i ++ j

theorem page_inj : page i j = page i' j' ↔ i = i' ∧ j = j' := by
  have left : ∀ i j : BitVec 10, (page i j).extractLsb' 10 10 = i := fun _ _ => BitVec.extractLsb'_append_eq_left
  have right : ∀ i j : BitVec 10, (page i j).extractLsb' 0 10 = j := fun _ _ => BitVec.extractLsb'_append_eq_right
  constructor
  · intro h
    exact ⟨by rw [← left i j, h, left], by rw [← right i j, h, right]⟩
  · rintro ⟨rfl, rfl⟩
    rfl

theorem page_of (va : BitVec 32) : page (PDX va) (PTX va) = pageOf va :=
  BitVec.extractLsb'_append_extractLsb'_eq_extractLsb' rfl

theorem PTE_ADDR_address (p : Page) : PTE_ADDR (address p) = p := BitVec.extractLsb'_append_eq_left

theorem pageOf_address (p : Page) : pageOf (address p) = p := BitVec.extractLsb'_append_eq_left

/-- The page of an entry that is made of flags and a page. -/
theorem PTE_ADDR_or (p : Page) (small : PTE_ADDR flags = 0) : PTE_ADDR (flags ||| address p) = p := by
  have split : PTE_ADDR (flags ||| address p) = PTE_ADDR flags ||| PTE_ADDR (address p) := BitVec.extractLsb'_or
  rw [split, small, PTE_ADDR_address]
  exact BitVec.zero_or

/-- The flags of an entry that is made of flags and a page. -/
theorem or_address_and (p : Page) (small : 4095 &&& m = m) : (flags ||| address p) &&& m = flags &&& m := by
  have low : address p &&& 4095 = 0 := by
    have parts := @BitVec.and_append 20 12 p 0#20 0#12 4095#12
    rw [BitVec.and_zero, BitVec.zero_and] at parts
    exact parts
  have none : address p &&& m = 0 := by
    rw [← small, ← BitVec.and_assoc, low]
    simp
  rw [BitVec.and_or_distrib_right, none]
  simp

/-- The flags of a table: it is there, and no bits of its page are set. -/
structure TableFlags (flags : Entry) : Prop where
  small : PTE_ADDR flags = 0
  present : flags &&& PTE_P ≠ 0

theorem TableFlags.PTE_ADDR (h : TableFlags flags) (p : Page) : Am.PTE_ADDR (flags ||| address p) = p := PTE_ADDR_or p h.small

theorem TableFlags.there (h : TableFlags flags) (p : Page) : (flags ||| address p) &&& PTE_P ≠ 0 := by
  rw [or_address_and p (by decide)]
  exact h.present

end Entries

/-! ## Trees -/

variable {α Slot : Type} {A : PageAllocator α} {mem mem' : Page → BitVec 10 → Entry} {dir p t : Page} {flags e : Entry}
  {dom : BitVec 10 → Prop} {table : BitVec 10 → Option Page} {leaf : Page → Entry} {i j : BitVec 10}

/-- What the entries `dom` of a directory hold: the tables, with these flags, and in the tables the entries `leaf`. -/
structure Tree (mem : Page → BitVec 10 → Entry) (dir : Page) (flags : Entry) (dom : BitVec 10 → Prop)
    (table : BitVec 10 → Option Page) (leaf : Page → Entry) : Prop where
  absent : ∀ i, dom i → table i = none → mem dir i = 0 ∧ ∀ j, leaf (page i j) = 0
  present : ∀ i t, dom i → table i = some t → mem dir i = flags ||| address t ∧ ∀ j, mem t j = leaf (page i j)

/-- What is written elsewhere does not matter. -/
theorem Tree.frame (h : Tree mem dir flags dom table leaf) (own : ∀ i, dom i → mem' dir i = mem dir i)
    (tables : ∀ i t, dom i → table i = some t → mem' t = mem t) : Tree mem' dir flags dom table leaf := by
  refine ⟨fun i inside none => ?_, fun i t inside some => ?_⟩
  · rw [own i inside]
    exact h.absent i inside none
  · rw [own i inside, tables i t inside some]
    exact h.present i t inside some

theorem Tree.mono {dom' : BitVec 10 → Prop} (h : Tree mem dir flags dom table leaf) (less : ∀ i, dom' i → dom i) :
    Tree mem dir flags dom' table leaf :=
  ⟨fun i inside => h.absent i (less i inside), fun i t inside => h.present i t (less i inside)⟩

theorem Tree.congr {table' : BitVec 10 → Option Page} (h : Tree mem dir flags dom table leaf)
    (same : ∀ i, dom i → table' i = table i) : Tree mem dir flags dom table' leaf :=
  ⟨fun i inside none => h.absent i inside (same i inside ▸ none), fun i t inside some => h.present i t inside (same i inside ▸ some)⟩

/-- A directory of zeros. -/
theorem Tree.zero (zero : ∀ i, dom i → mem dir i = 0) (none : ∀ i, dom i → table i = none) :
    Tree mem dir flags dom table fun _ => 0 := by
  refine ⟨fun i inside _ => ⟨zero i inside, fun _ => rfl⟩, fun i t inside some => ?_⟩
  rw [none i inside] at some
  cases some

/-- The translation of an address, by the entry of its page. -/
theorem Tree.translate (h : Tree mem dir flags dom table leaf) (good : TableFlags flags) {va : BitVec 32}
    (inside : dom (PDX va)) :
    translate mem dir va =
      if leaf (pageOf va) &&& PTE_P = 0 then none
      else some ⟨PTE_ADDR (leaf (pageOf va)), flags &&& leaf (pageOf va) &&& PTE_W ≠ 0,
        flags &&& leaf (pageOf va) &&& PTE_U ≠ 0⟩ := by
  unfold Am.translate
  dsimp only
  rw [← page_of]
  match at_ : table (PDX va) with
  | none =>
    obtain ⟨zero, empty⟩ := h.absent _ inside at_
    rw [zero, empty, if_pos (.inl (by decide)), if_pos (by decide)]
  | some t =>
    obtain ⟨entry, leafs⟩ := h.present _ t inside at_
    rw [entry, good.PTE_ADDR, leafs]
    generalize leaf (page (PDX va) (PTX va)) = pte
    have right : ∀ m : Entry, 4095 &&& m = m → (flags ||| address t) &&& pte &&& m = flags &&& pte &&& m := by
      intro m small
      rw [BitVec.and_assoc, BitVec.and_comm pte m, ← BitVec.and_assoc, or_address_and t small, BitVec.and_assoc,
        BitVec.and_comm m pte, ← BitVec.and_assoc]
    rw [right _ (by decide), right _ (by decide)]
    simp only [good.there t, false_or]

/-! ## Tables from the client -/

/-- The table behind an entry of a directory, from the client if it is not there. -/
def getTable (A : PageAllocator α) (flags : Entry) (s : State α) (dir : Page) (i : BitVec 10) :
    Except Panic (Page × State α) :=
  if s.mem dir i &&& PTE_P = 0 then do
    let (ptab, s) ← pgalloc A s
    .ok (ptab, s.setEntry dir i (flags ||| address ptab))
  else .ok (PTE_ADDR (s.mem dir i), s)

/-- The entry of an address is written. -/
def setPte (A : PageAllocator α) (flags : Entry) (s : State α) (dir : Page) (va : BitVec 32) (pte : Entry) :
    Except Panic (State α) := do
  let (ptab, s) ← getTable A flags s dir (PDX va)
  .ok (s.setEntry ptab (PTX va) pte)

theorem setEntry_mem {s : State α} {q : Page} (other : q ≠ p) : (s.setEntry p i e).mem q = s.mem q :=
  Function.update_of_ne other ..

theorem setEntry_entry {s : State α} (other : j ≠ i) : (s.setEntry p i e).mem p j = s.mem p j := by
  unfold State.setEntry
  dsimp only
  rw [Function.update_self, Function.update_of_ne other]

theorem setEntry_self {s : State α} : (s.setEntry p i e).mem p i = e := by
  unfold State.setEntry
  dsimp only
  rw [Function.update_self, Function.update_self]

section Slots

variable {all : Page → Prop} {root : Slot} {below : BitVec 10 → Slot} {s s' s'' : State α}
  {slot slot' slot'' : Slot → Option Page}

/-- What is not changed when entries below a directory are written: other slots, their pages, and the other entries
of the directory itself. -/
structure Kept (A : PageAllocator α) (all : Page → Prop) (root : Slot) (below : BitVec 10 → Slot) (dom : BitVec 10 → Prop)
    (s : State α) (slot : Slot → Option Page) (s' : State α) (slot' : Slot → Option Page) : Prop where
  owned : Owned all (A.Avail s'.pages) slot'
  kpt : s'.kpt = s.kpt
  slots : ∀ b, (∀ i, dom i → b ≠ below i) → slot' b = slot b
  pages : ∀ b q, slot b = some q → b ≠ root → (∀ i, dom i → b ≠ below i) → s'.mem q = s.mem q
  entries : ∀ dir, slot root = some dir → ∀ j, ¬ dom j → s'.mem dir j = s.mem dir j

theorem Kept.refl (owned : Owned all (A.Avail s.pages) slot) : Kept A all root below dom s slot s slot :=
  ⟨owned, rfl, fun _ _ => rfl, fun _ _ _ _ _ => rfl, fun _ _ _ _ => rfl⟩

theorem Kept.trans (h : Kept A all root below dom s slot s' slot') (h' : Kept A all root below dom s' slot' s'' slot'')
    (apart : ∀ i, root ≠ below i) : Kept A all root below dom s slot s'' slot'' := by
  refine ⟨h'.owned, h'.kpt.trans h.kpt, fun b other => ?_, fun b q own ne other => ?_, fun dir own j outside => ?_⟩
  · rw [h'.slots b other, h.slots b other]
  · rw [h'.pages b q ((h.slots b other).trans own) ne other, h.pages b q own ne other]
  · rw [h'.entries dir ((h.slots root fun i _ => apart i).trans own) j outside, h.entries dir own j outside]

variable [DecidableEq Slot] (good : TableFlags flags) (apart : ∀ i, root ≠ below i)
  (inj : ∀ i j, below i = below j → i = j)
include good apart inj

/-- A table that is needed is there, or is taken from the client. -/
theorem getTable_spec (tree : Tree s.mem dir flags dom (fun i => slot (below i)) leaf)
    (owned : Owned all (A.Avail s.pages) slot) (own : slot root = some dir) (inside : dom i) :
    (A.alloc s.pages = none ∧ slot (below i) = none ∧ getTable A flags s dir i = .error .allocation) ∨
    ∃ t s' slot', getTable A flags s dir i = .ok (t, s') ∧ slot' (below i) = some t ∧
      Kept A all root below dom s slot s' slot' ∧ Tree s'.mem dir flags dom (fun i => slot' (below i)) leaf := by
  unfold getTable
  match at_ : slot (below i) with
  | some t =>
    obtain ⟨entry, -⟩ := tree.present i t inside at_
    rw [entry, if_neg (good.there t), good.PTE_ADDR]
    exact .inr ⟨t, s, slot, rfl, at_, .refl owned, tree⟩
  | none =>
    obtain ⟨zero, empty⟩ := tree.absent i inside at_
    rw [if_pos (by rw [zero]; decide)]
    unfold pgalloc
    match taken : A.alloc s.pages with
    | none => exact .inl ⟨rfl, rfl, rfl⟩
    | some (p, pages) =>
      obtain ⟨free, left⟩ := A.alloc_some taken
      have fresh : ∀ b q, slot b = some q → q ≠ p := fun b q own same => owned.taken b q own (same ▸ free)
      have other : dir ≠ p := fresh root dir own
      have slots : ∀ b, b ≠ below i → Function.update slot (below i) (some p) b = slot b := fun b ne =>
        Function.update_of_ne ne ..
      have mem : ∀ q, q ≠ dir → q ≠ p → (State.setEntry ⟨Function.update s.mem p fun _ => 0, pages, s.kpt⟩ dir i
          (flags ||| address p)).mem q = s.mem q := fun q ne ne' => by
        rw [setEntry_mem ne]
        exact Function.update_of_ne ne' ..
      have entries : ∀ j, j ≠ i → (State.setEntry ⟨Function.update s.mem p fun _ => 0, pages, s.kpt⟩ dir i
          (flags ||| address p)).mem dir j = s.mem dir j := fun j ne => by
        rw [setEntry_entry ne]
        dsimp only
        rw [Function.update_of_ne other]
      refine .inr ⟨p, _, Function.update slot (below i) (some p), rfl, Function.update_self .., ⟨?_, rfl, ?_, ?_, ?_⟩, ?_, ?_⟩
      · exact owned.take at_ free left
      · exact fun b other => slots b (other i inside)
      · intro b q has ne _
        exact mem q (owned.ne has own ne) (fresh b q has)
      · intro dir' own' j outside
        rw [own, Option.some.injEq] at own'
        subst own'
        exact entries j fun same => outside (same ▸ inside)
      · intro j inside' none
        have ne : j ≠ i := by
          rintro rfl
          rw [Function.update_self] at none
          cases none
        rw [slots _ fun same => ne (inj _ _ same)] at none
        rw [entries j ne]
        exact tree.absent j inside' none
      · intro j t inside' some
        by_cases here : j = i
        · subst here
          rw [Function.update_self, Option.some.injEq] at some
          subst some
          refine ⟨setEntry_self, fun k => ?_⟩
          rw [setEntry_mem other.symm, empty]
          dsimp only
          rw [Function.update_self]
        · rw [slots _ fun same => here (inj _ _ same)] at some
          rw [entries j here, mem t (owned.ne some own (apart j).symm) (fresh _ t some)]
          exact tree.present j t inside' some

/-- The entry of an address is written, and nothing else below the directory. -/
theorem setPte_spec (tree : Tree s.mem dir flags dom (fun i => slot (below i)) leaf)
    (owned : Owned all (A.Avail s.pages) slot) (own : slot root = some dir) {va : BitVec 32} (inside : dom (PDX va))
    (pte : Entry) :
    (A.alloc s.pages = none ∧ slot (below (PDX va)) = none ∧ setPte A flags s dir va pte = .error .allocation) ∨
    ∃ s' slot', setPte A flags s dir va pte = .ok s' ∧ Kept A all root below dom s slot s' slot' ∧
      Tree s'.mem dir flags dom (fun i => slot' (below i)) (Function.update leaf (pageOf va) pte) := by
  unfold setPte
  obtain ⟨none, empty, run⟩ | ⟨t, s₁, slot₁, run, at_, kept, tree⟩ := getTable_spec good apart inj tree owned own inside
  · rw [run]
    exact .inl ⟨none, empty, rfl⟩
  · rw [run, ok_bind]
    have own₁ : slot₁ root = some dir := (kept.slots root fun i _ => apart i).trans own
    have other : dir ≠ t := kept.owned.ne own₁ at_ (apart _)
    refine .inr ⟨_, slot₁, rfl, kept.trans ⟨kept.owned, rfl, fun _ _ => rfl, fun b q has _ ne => ?_, fun dir' own' j _ => ?_⟩
      apart, fun j inside' none => ?_, fun j t' inside' some => ?_⟩
    · exact setEntry_mem (kept.owned.ne has at_ (ne _ inside))
    · rw [own₁, Option.some.injEq] at own'
      subst own'
      rw [setEntry_mem other]
    · obtain ⟨zero, empty⟩ := tree.absent j inside' none
      refine ⟨by rw [setEntry_mem other, zero], fun k => ?_⟩
      rw [← page_of, Function.update_of_ne]
      · exact empty k
      · intro same
        rw [(page_inj.1 same).1, at_] at none
        cases none
    · obtain ⟨entry, leafs⟩ := tree.present j t' inside' some
      refine ⟨by rw [setEntry_mem other, entry], fun k => ?_⟩
      rw [← page_of]
      by_cases here : j = PDX va
      · subst here
        rw [at_, Option.some.injEq] at some
        subst some
        by_cases this : k = PTX va
        · rw [this, setEntry_self, Function.update_self]
        · rw [setEntry_entry this, leafs, Function.update_of_ne fun same => this (page_inj.1 same).2]
      · have ne : t' ≠ t := kept.owned.ne some at_ fun same => here (inj _ _ same)
        rw [setEntry_mem ne, leafs, Function.update_of_ne fun same => here (page_inj.1 same).1]

end Slots

end OsLab.Am
