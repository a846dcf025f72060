import OsLab.Am.KernelMap
import Mathlib.Data.Finset.Card

/-!
# Address spaces

After `vme_init` the client makes address spaces (`protect`), maps pages in them (`map`) and gives them up (`unprotect`), in
any order. Each directory has its own tables for the area of the user and shares those of the kernel, so what is mapped in
one address space is seen in that one only, and `unprotect` gives back just the pages that it has.
-/

namespace OsLab.Am

open OsLab.Owners

/-! ## What an address space is for -/

/-- The pages that the user sees, and whether they can be written. -/
abbrev Space := Page → Option (Page × Bool)

/-- What `map` is asked for: nothing, or a page. -/
def mapping (pa prot : BitVec 32) : Option (Page × Bool) :=
  if prot &&& PROT_NONE ≠ 0 then none else some (pageOf pa, prot &&& PROT_WRITE ≠ 0)

/-- The addresses of an address space: the physical areas as they are, for the kernel only, and the pages of the user. -/
def view (f : Space) (va : BitVec 32) : Option Translation :=
  if va < 0x20000000 ∨ 0xf0000000 ≤ va then some ⟨pageOf va, true, false⟩
  else if uvmArea.start ≤ va ∧ va < uvmArea.stop then (f (pageOf va)).map fun m => ⟨m.1, m.2, true⟩
  else none

/-- What a client reaches after `vme_init`: the address spaces, by their directories. A space is changed where `map`
returns 0. -/
inductive Reach {α : Type} (A : PageAllocator α) (start : State α) : State α → (Page → Option Space) → Prop where
  | start : Reach A start start fun _ => none
  | protect {s s' spaces d} : Reach A start s spaces → protect A s = .ok (d, s') →
      Reach A start s' (Function.update spaces d (some fun _ => none))
  | map {s s' spaces d f va pa prot r} : Reach A start s spaces → spaces d = some f →
      map A s d va pa prot = .ok (r, s') →
      Reach A start s' (if r = 0 then Function.update spaces d (some (Function.update f (pageOf va) (mapping pa prot)))
        else spaces)
  | unprotect {s spaces d f} : Reach A start s spaces → spaces d = some f →
      Reach A start (unprotect A s d) (Function.update spaces d none)

variable {α : Type} {A : PageAllocator α} {start s s' : State α} {spaces : Page → Option Space} {d d' : Page} {f : Space}
  {va pa prot : BitVec 32}

/-! ## Entries -/

section Entries

/-- The entry of a page of the user. -/
def userEntry : Option (Page × Bool) → Entry
  | none => 0
  | some (p, writable) => PTE_P ||| (if writable then PTE_W else 0) ||| PTE_U ||| address p

def userLeaf (f : Space) (p : Page) : Entry := userEntry (f p)

theorem address_pageOf (aligned : pa = pa &&& ~~~4095) : address (pageOf pa) = pa := by
  have low := @BitVec.and_append 20 12 (pageOf pa) (BitVec.allOnes 20) (pa.extractLsb' 0 12) 0#12
  have parts : pageOf pa ++ pa.extractLsb' 0 12 = pa := @BitVec.extractLsb'_append_extractLsb' 20 12 pa
  rw [BitVec.and_allOnes, BitVec.and_zero, parts] at low
  exact low.symm.trans aligned.symm

theorem pteOf_eq (aligned : pa = pa &&& ~~~4095) : pteOf pa prot = userEntry (mapping pa prot) := by
  unfold pteOf mapping
  split
  · rfl
  · unfold userEntry
    dsimp only
    rw [address_pageOf aligned]
    simp only [decide_eq_true_eq]

theorem user_iff (va : BitVec 32) : uvmArea.start ≤ va ∧ va < uvmArea.stop ↔ User (PDX va) := by
  unfold uvmArea User
  rw [PDX_toNat, BitVec.le_def, BitVec.lt_def]
  dsimp only
  simp
  omega

/-- The processor sees the mapping of a page. -/
theorem userEntry_translation (m : Option (Page × Bool)) :
    (if userEntry m &&& PTE_P = 0 then none
      else some ⟨PTE_ADDR (userEntry m), userFlags &&& userEntry m &&& PTE_W ≠ 0, userFlags &&& userEntry m &&& PTE_U ≠ 0⟩) =
      m.map fun m => (⟨m.1, m.2, true⟩ : Translation) := by
  match m with
  | none => rfl
  | some (p, w) =>
    have right : ∀ g m : Entry, 4095 &&& m = m →
        userFlags &&& (g ||| address p) &&& m = userFlags &&& g &&& m := by
      intro g m small
      rw [BitVec.and_assoc, or_address_and p small, ← BitVec.and_assoc]
    unfold userEntry
    dsimp only
    rw [right _ _ (by decide), right _ _ (by decide), or_address_and p (by decide), PTE_ADDR_or p (by cases w <;> decide)]
    cases w <;> rfl

theorem map_eq (valid : ¬ (prot &&& PROT_NONE ≠ 0 ∧ prot ≠ PROT_NONE))
    (aligned : ¬ (va ≠ va &&& ~~~4095 ∨ pa ≠ pa &&& ~~~4095)) (inside : User (PDX va)) :
    map A s d va pa prot = (setPte A userFlags s d va (pteOf pa prot) >>= fun s => .ok (0, s)) := by
  unfold map setPte getTable
  rw [if_neg valid, if_neg aligned, if_neg (not_not.2 ((user_iff va).2 inside))]
  split
  · unfold pgalloc
    cases A.alloc s.pages with
    | none => rfl
    | some r =>
      simp only [ok_bind]
      rw [setEntry_self, userFlags, PTE_ADDR_or _ (by decide)]
  · rfl

end Entries

/-! ## The invariant -/

section Invariant

variable {all : Page → Prop} {boot slot : Slot → Option Page}

/-- The tables of the kernel and of the address spaces: the directories of the spaces have tables of their own for the area of
the user, and the entries of the kernel elsewhere. `boot` are the tables after `vme_init`. -/
structure Inv (A : PageAllocator α) (all : Page → Prop) (boot : Slot → Option Page) (s : State α)
    (spaces : Page → Option Space) (slot : Slot → Option Page) : Prop where
  owned : Owned all (A.Avail s.pages) slot
  kernel : slot .kernel = some s.kpt
  kernelTree : Tree s.mem s.kpt kernelFlags Kernel (fun i => slot (.kernelTable i)) kernelLeaf
  kernelRest : ∀ i, ¬ Kernel i → s.mem s.kpt i = 0
  same : ∀ b, ForKernel b → slot b = boot b
  directory : ∀ d f, spaces d = some f → slot (.space d) = some d
  tree : ∀ d f, spaces d = some f → Tree s.mem d userFlags User (fun i => slot (.table d i)) (userLeaf f)
  shared : ∀ d f, spaces d = some f → ∀ i, ¬ User i → s.mem d i = s.mem s.kpt i
  only : ∀ b, (slot b).isSome → ForKernel b ∨ ∃ d, (spaces d).isSome ∧ (b = .space d ∨ ∃ i, User i ∧ b = .table d i)

theorem not_forKernel_space : ¬ ForKernel (.space d) := by
  rintro (same | ⟨i, -, same⟩) <;> cases same

theorem not_forKernel_table {i : BitVec 10} : ¬ ForKernel (.table d i) := by
  rintro (same | ⟨i, -, same⟩) <;> cases same

/-- Slots of address spaces that are not there are empty. -/
theorem Inv.empty (inv : Inv A all boot s spaces slot) (absent : spaces d = none) :
    slot (.space d) = none ∧ ∀ i, slot (.table d i) = none := by
  have empty : ∀ b, ¬ ForKernel b → (∀ d', (b = .space d' ∨ ∃ i, User i ∧ b = .table d' i) → d' = d) → slot b = none := by
    intro b other this
    by_contra some
    rcases inv.only b (Option.isSome_iff_ne_none.2 some) with kernel | ⟨d', there, which⟩
    · exact other kernel
    · rw [this d' which, absent] at there
      cases there
  refine ⟨empty _ not_forKernel_space fun d' which => ?_, fun i => empty _ not_forKernel_table fun d' which => ?_⟩
  · rcases which with same | ⟨_, _, same⟩ <;> cases same
    rfl
  · rcases which with same | ⟨_, _, same⟩ <;> cases same
    rfl

/-- A page that is available is not the directory of an address space. -/
theorem Inv.fresh (inv : Inv A all boot s spaces slot) (free : A.Avail s.pages d) : spaces d = none := by
  match at_ : spaces d with
  | none => rfl
  | some f => exact (inv.owned.taken _ d (inv.directory d f at_) free).elim

/-- A new address space sees the kernel only. -/
theorem Inv.protect (inv : Inv A all boot s spaces slot) (run : protect A s = .ok (d, s')) :
    spaces d = none ∧ ∃ slot', Inv A all boot s' (Function.update spaces d (some fun _ => none)) slot' := by
  unfold Am.protect pgalloc at run
  match taken : A.alloc s.pages with
  | none =>
    rw [taken] at run
    cases run
  | some (p, pages) =>
    rw [taken] at run
    cases run
    obtain ⟨free, left⟩ := A.alloc_some taken
    have absent := inv.fresh free
    obtain ⟨empty, tables⟩ := inv.empty absent
    refine ⟨absent, Function.update slot (.space d) (some d), ?_⟩
    have fresh : ∀ b q, slot b = some q → q ≠ d := fun b q own same => inv.owned.taken b q own (same ▸ free)
    have kpt := fresh _ _ inv.kernel
    have slots : ∀ b, b ≠ .space d → Function.update slot (.space d) (some d) b = slot b := fun b ne =>
      Function.update_of_ne ne ..
    dsimp only
    rw [Function.update_idem, Function.update_of_ne kpt]
    have mem : ∀ q, q ≠ d → Function.update s.mem d (s.mem s.kpt) q = s.mem q := fun q ne => Function.update_of_ne ne ..
    have own : Function.update s.mem d (s.mem s.kpt) d = s.mem s.kpt := Function.update_self ..
    exact {
      owned := inv.owned.take empty free left
      kernel := (slots _ (by simp)).trans inv.kernel
      kernelTree := by
        simp only [slots _ (show Slot.kernelTable _ ≠ .space d by simp)]
        exact inv.kernelTree.frame (fun i _ => by rw [mem _ kpt]) fun i t _ own => mem t (fresh _ t own)
      kernelRest := by
        dsimp only
        rw [mem _ kpt]
        exact inv.kernelRest
      same := fun b kernel => by
        rw [slots b fun same => not_forKernel_space (same ▸ kernel)]
        exact inv.same b kernel
      directory := fun d' f at_ => by
        by_cases here : d' = d
        · rw [here, Function.update_self]
        · rw [Function.update_of_ne here] at at_
          rw [slots _ (by simpa using here)]
          exact inv.directory d' f at_
      tree := fun d' f at_ => by
        simp only [slots _ (show Slot.table _ _ ≠ .space d by simp)]
        by_cases here : d' = d
        · subst here
          rw [Function.update_self, Option.some.injEq] at at_
          subst at_
          exact .zero (fun i user => by
            rw [own]
            exact inv.kernelRest i fun kernel => by unfold User at user; unfold Kernel at kernel; omega) fun i _ => tables i
        · rw [Function.update_of_ne here] at at_
          have dir := inv.directory d' f at_
          exact (inv.tree d' f at_).frame (fun i _ => by rw [mem _ (fresh _ _ dir)]) fun i t _ own => mem t (fresh _ t own)
      shared := fun d' f at_ i outside => by
        dsimp only
        rw [mem _ kpt]
        by_cases here : d' = d
        · rw [here, own]
        · rw [Function.update_of_ne here] at at_
          rw [mem _ (fresh _ _ (inv.directory d' f at_))]
          exact inv.shared d' f at_ i outside
      only := fun b some => by
        by_cases here : b = .space d
        · exact .inr ⟨d, by rw [Function.update_self]; rfl, .inl here⟩
        · rw [slots b here] at some
          refine (inv.only b some).imp_right fun ⟨d', there, which⟩ => ⟨d', ?_, which⟩
          rw [Function.update_of_ne fun same => by rw [same, absent] at there; cases there]
          exact there }

section Kept

variable {slot' : Slot → Option Page} {b : Slot} {q : Page} {i : BitVec 10}

/-- An entry that is written in an address space leaves the slots and the pages of the kernel. -/
theorem Kept.kernelSlot (kept : Kept A all (.space d) (.table d) User s slot s' slot') (kernel : ForKernel b) :
    slot' b = slot b :=
  kept.slots b fun _ _ same => not_forKernel_table (same ▸ kernel)

theorem Kept.kernelPage (kept : Kept A all (.space d) (.table d) User s slot s' slot') (kernel : ForKernel b)
    (own : slot b = some q) : s'.mem q = s.mem q :=
  kept.pages b q own (fun same => not_forKernel_space (same ▸ kernel)) fun _ _ same => not_forKernel_table (same ▸ kernel)

theorem Kept.kernelDirectory (kept : Kept A all (.space d) (.table d) User s slot s' slot')
    (own : slot .kernel = some s.kpt) : s'.mem s'.kpt = s.mem s.kpt := by
  rw [kept.kpt]
  exact kept.kernelPage (.inl rfl) own

/-- It leaves the directories and the tables of the other address spaces. -/
theorem Kept.spaceSlot (kept : Kept A all (.space d) (.table d) User s slot s' slot') (d' : Page) :
    slot' (.space d') = slot (.space d') :=
  kept.slots _ fun _ _ same => by cases same

theorem Kept.otherSlot (kept : Kept A all (.space d) (.table d) User s slot s' slot') (other : d' ≠ d) (i : BitVec 10) :
    slot' (.table d' i) = slot (.table d' i) :=
  kept.slots _ fun j _ same => by
    cases same
    exact other rfl

theorem Kept.otherTable (kept : Kept A all (.space d) (.table d) User s slot s' slot') (other : d' ≠ d)
    (own : slot (.table d' i) = some q) : s'.mem q = s.mem q :=
  kept.pages _ q own (fun same => by cases same) fun j _ same => by
    cases same
    exact other rfl

theorem Kept.otherDirectory (kept : Kept A all (.space d) (.table d) User s slot s' slot') (other : d' ≠ d)
    (own : slot (.space d') = some d') : s'.mem d' = s.mem d' :=
  kept.pages _ d' own (by simpa using other) fun _ _ same => by cases same

end Kept

theorem update_userLeaf (f : Space) (p : Page) (m : Option (Page × Bool)) :
    Function.update (userLeaf f) p (userEntry m) = userLeaf (Function.update f p m) := by
  funext q
  unfold userLeaf
  by_cases this : q = p
  · rw [this, Function.update_self, Function.update_self]
  · rw [Function.update_of_ne this, Function.update_of_ne this]

/-- An address space with other mappings. -/
theorem Inv.remap {slot' : Slot → Option Page} {f' : Space} (inv : Inv A all boot s spaces slot) (at_ : spaces d = some f)
    (kept : Kept A all (.space d) (.table d) User s slot s' slot')
    (tree : Tree s'.mem d userFlags User (fun i => slot' (.table d i)) (userLeaf f')) :
    Inv A all boot s' (Function.update spaces d (some f')) slot' where
  owned := kept.owned
  kernel := by rw [kept.kernelSlot (.inl rfl), inv.kernel, kept.kpt]
  kernelTree := by
    rw [kept.kpt]
    have directory := kept.kernelDirectory inv.kernel
    rw [kept.kpt] at directory
    refine (inv.kernelTree.frame (fun i _ => by rw [directory]) fun i t kernel own => ?_).congr fun i kernel => ?_
    · exact kept.kernelPage (.inr ⟨i, kernel, rfl⟩) own
    · exact kept.kernelSlot (.inr ⟨i, kernel, rfl⟩)
  kernelRest := by
    rw [kept.kernelDirectory inv.kernel]
    exact inv.kernelRest
  same b kernel := (kept.kernelSlot kernel).trans (inv.same b kernel)
  directory d' g there := by
    rw [kept.spaceSlot]
    by_cases here : d' = d
    · rw [here]
      exact inv.directory d f at_
    · rw [Function.update_of_ne here] at there
      exact inv.directory d' g there
  tree d' g there := by
    by_cases here : d' = d
    · subst here
      rw [Function.update_self, Option.some.injEq] at there
      exact there ▸ tree
    · rw [Function.update_of_ne here] at there
      simp only [kept.otherSlot here]
      refine (inv.tree d' g there).frame (fun i _ => ?_) fun i t _ own => kept.otherTable here own
      rw [kept.otherDirectory here (inv.directory d' g there)]
  shared d' g there i outside := by
    rw [kept.kernelDirectory inv.kernel]
    by_cases here : d' = d
    · rw [here, kept.entries d (inv.directory d f at_) i outside]
      exact inv.shared d f at_ i outside
    · rw [Function.update_of_ne here] at there
      rw [kept.otherDirectory here (inv.directory d' g there)]
      exact inv.shared d' g there i outside
  only b some := by
    by_cases own : ∃ i, User i ∧ b = .table d i
    · exact .inr ⟨d, by rw [Function.update_self]; rfl, .inr own⟩
    · push Not at own
      rw [kept.slots b own] at some
      refine (inv.only b some).imp_right fun ⟨d', there, which⟩ => ⟨d', ?_, which⟩
      by_cases here : d' = d
      · rw [here, Function.update_self]
        rfl
      · rwa [Function.update_of_ne here]

/-- The causes for which `map` does not write an entry, and that it writes it otherwise, unless the client has no page for
a table. -/
theorem Inv.map (inv : Inv A all boot s spaces slot) (at_ : spaces d = some f) (va pa prot : BitVec 32) :
    (prot &&& PROT_NONE ≠ 0 ∧ prot ≠ PROT_NONE) ∧ map A s d va pa prot = .error .flags ∨
    (va ≠ va &&& ~~~4095 ∨ pa ≠ pa &&& ~~~4095) ∧ map A s d va pa prot = .error .unaligned ∨
    ¬ User (PDX va) ∧ map A s d va pa prot = .ok (1, s) ∨
    A.alloc s.pages = none ∧ map A s d va pa prot = .error .allocation ∨
    ∃ s' slot', map A s d va pa prot = .ok (0, s') ∧
      Inv A all boot s' (Function.update spaces d (some (Function.update f (pageOf va) (mapping pa prot)))) slot' := by
  by_cases valid : prot &&& PROT_NONE ≠ 0 ∧ prot ≠ PROT_NONE
  · exact .inl ⟨valid, if_pos valid⟩
  by_cases aligned : va ≠ va &&& ~~~4095 ∨ pa ≠ pa &&& ~~~4095
  · exact .inr (.inl ⟨aligned, by unfold Am.map; rw [if_neg valid, if_pos aligned]⟩)
  by_cases inside : User (PDX va)
  swap
  · refine .inr (.inr (.inl ⟨inside, ?_⟩))
    unfold Am.map
    rw [if_neg valid, if_neg aligned, if_pos fun h => inside ((user_iff va).1 h)]
  refine .inr (.inr (.inr ?_))
  rw [map_eq valid aligned inside, pteOf_eq (not_not.1 fun h => aligned (.inr h))]
  have apart : ∀ i, Slot.space d ≠ .table d i := fun i same => by cases same
  have inj : ∀ i j, Slot.table d i = .table d j → i = j := fun i j same => by cases same; rfl
  obtain ⟨none, -, run⟩ | ⟨s', slot', run, kept, tree⟩ := setPte_spec userFlags_good apart inj (inv.tree d f at_)
    inv.owned (inv.directory d f at_) inside (userEntry (mapping pa prot))
  · rw [run]
    exact .inl ⟨none, rfl⟩
  · rw [run, ok_bind]
    rw [update_userLeaf] at tree
    exact .inr ⟨s', slot', rfl, inv.remap at_ kept tree⟩

/-! ## The end of an address space -/

/-- The loop gives the tables back from the one it begins with; the induction is that of the loop. -/
theorem unprotectLoop_spec {leaf : Page → Entry} {stop i : BitVec 10}
    (tree : Tree s.mem d userFlags (fun j => i.toNat ≤ j.toNat ∧ j.toNat < stop.toNat) (fun j => slot (.table d j)) leaf)
    (owned : Owned all (A.Avail s.pages) slot) (le : i.toNat ≤ stop.toNat) :
    ∃ slot', Owned all (A.Avail (unprotectLoop A d stop i s).pages) slot' ∧ (unprotectLoop A d stop i s).mem = s.mem ∧
      (unprotectLoop A d stop i s).kpt = s.kpt ∧
      (∀ b, (∀ j, i.toNat ≤ j.toNat ∧ j.toNat < stop.toNat → b ≠ .table d j) → slot' b = slot b) ∧
      ∀ j, i.toNat ≤ j.toNat ∧ j.toNat < stop.toNat → slot' (.table d j) = none := by
  induction i, s using unprotectLoop.induct A d stop generalizing slot with
  | case1 s =>
    rw [unprotectLoop, if_pos rfl]
    exact ⟨slot, owned, rfl, rfl, fun _ _ => rfl, fun j ⟨above, below⟩ => by omega⟩
  | case2 i s more pde =>
    have here : i.toNat < stop.toNat := by bv_omega
    have next : (i + 1).toNat = i.toNat + 1 := by bv_omega
    rw [unprotectLoop, if_neg more]
    rename_i ih
    simp only [dite_eq_ite, pde] at ih
    dsimp only
    match at_ : slot (.table d i) with
    | none =>
      obtain ⟨zero, -⟩ := tree.absent i ⟨Nat.le_refl _, here⟩ at_
      have skip : (if s.mem d i &&& PTE_P ≠ 0 then pgfree A s (PTE_ADDR (s.mem d i)) else s) = s :=
        if_neg (by rw [zero]; decide)
      rw [skip] at ih ⊢
      obtain ⟨slot', owned', mem, kpt, slots, empty⟩ := ih (tree.mono fun j ⟨above, below⟩ => ⟨by omega, below⟩) owned (by omega)
      refine ⟨slot', owned', mem, kpt, fun b other => slots b fun j ⟨above, below⟩ => other j ⟨by omega, below⟩, fun j ⟨above, below⟩ => ?_⟩
      by_cases this : j = i
      · rw [this, slots _ fun k ⟨above, _⟩ same => by cases same; omega, at_]
      · exact empty j ⟨by bv_omega, below⟩
    | some t =>
      obtain ⟨entry, -⟩ := tree.present i t ⟨Nat.le_refl _, here⟩ at_
      have free : (if s.mem d i &&& PTE_P ≠ 0 then pgfree A s (PTE_ADDR (s.mem d i)) else s) = pgfree A s t := by
        rw [entry, if_pos (userFlags_good.there t), userFlags_good.PTE_ADDR]
      rw [free] at ih ⊢
      have others : ∀ b, b ≠ .table d i → Function.update slot (.table d i) none b = slot b := fun b ne =>
        Function.update_of_ne ne ..
      obtain ⟨slot', owned', mem, kpt, slots, empty⟩ := ih
        ((tree.mono fun j ⟨above, below⟩ => ⟨by omega, below⟩).congr fun j ⟨above, _⟩ => others _ fun same => by
          cases same
          omega)
        (owned.give at_ (A.free_avail (owned.taken _ t at_))) (by omega)
      refine ⟨slot', owned', mem, kpt, fun b other => ?_, fun j ⟨above, below⟩ => ?_⟩
      · rw [slots b fun j ⟨above, below⟩ => other j ⟨by omega, below⟩, others b (other i ⟨Nat.le_refl _, here⟩)]
      · by_cases this : j = i
        · rw [this, slots _ fun k ⟨above, _⟩ same => by cases same; omega, Function.update_self]
        · exact empty j ⟨by bv_omega, below⟩

/-- What is left of a table without one of its entries. -/
theorem update_none_eq_some {ι β : Type} [DecidableEq ι] {m : ι → Option β} {a b : ι} {y : β} :
    Function.update m a none b = some y ↔ b ≠ a ∧ m b = some y := by
  by_cases here : b = a
  · subst here
    simp
  · simp [here]

/-- An address space is given up, with its tables and its directory. -/
theorem Inv.unprotect (inv : Inv A all boot s spaces slot) (at_ : spaces d = some f) :
    ∃ slot', Inv A all boot (unprotect A s d) (Function.update spaces d none) slot' := by
  have first : PDX uvmArea.start = 256 := by decide
  have last : PDX uvmArea.stop = 512 := by decide
  obtain ⟨slot₁, owned, mem, kpt, slots, empty⟩ := unprotectLoop_spec (inv.tree d f at_) inv.owned
    (show (256 : BitVec 10).toNat ≤ (512 : BitVec 10).toNat by decide)
  unfold Am.unprotect
  rw [first, last]
  have dir : slot₁ (.space d) = some d := by
    rw [slots _ fun j _ => by simp, inv.directory d f at_]
  have others : ∀ b, (∀ i, User i → b ≠ .table d i) → b ≠ .space d →
      Function.update slot₁ (.space d) none b = slot b := fun b tables ne => by
    rw [Function.update_of_ne ne, slots b tables]
  have forKernel : ∀ b, ForKernel b → Function.update slot₁ (.space d) none b = slot b := fun b kernel =>
    others b (fun i _ same => not_forKernel_table (same ▸ kernel)) fun same => not_forKernel_space (same ▸ kernel)
  refine ⟨Function.update slot₁ (.space d) none, owned.give dir (A.free_avail (owned.taken _ d dir)), ?_, ?_, ?_,
    fun b kernel => ?_, fun d' f' there => ?_, fun d' f' there => ?_, fun d' f' there => ?_, fun b some => ?_⟩
  · show Function.update slot₁ (.space d) none .kernel = some (unprotectLoop A d 512 256 s).kpt
    rw [forKernel _ (.inl rfl), inv.kernel, kpt]
  · show Tree (unprotectLoop A d 512 256 s).mem (unprotectLoop A d 512 256 s).kpt _ _ _ _
    rw [mem, kpt]
    exact inv.kernelTree.congr fun i kernel => forKernel _ (.inr ⟨i, kernel, rfl⟩)
  · show ∀ i, ¬ Kernel i → (unprotectLoop A d 512 256 s).mem (unprotectLoop A d 512 256 s).kpt i = 0
    rw [mem, kpt]
    exact inv.kernelRest
  · rw [forKernel b kernel]
    exact inv.same b kernel
  · obtain ⟨ne, there⟩ := update_none_eq_some.1 there
    rw [others _ (fun i _ => by simp) (by simpa using ne)]
    exact inv.directory d' f' there
  · obtain ⟨ne, there⟩ := update_none_eq_some.1 there
    show Tree (unprotectLoop A d 512 256 s).mem _ _ _ _ _
    rw [mem]
    exact (inv.tree d' f' there).congr fun i _ => others _ (fun j _ same => by cases same; exact ne rfl) (by simp)
  · obtain ⟨ne, there⟩ := update_none_eq_some.1 there
    show ∀ i, ¬ User i → (unprotectLoop A d 512 256 s).mem d' i =
      (unprotectLoop A d 512 256 s).mem (unprotectLoop A d 512 256 s).kpt i
    rw [mem, kpt]
    exact inv.shared d' f' there
  · have ne : b ≠ .space d := by
      rintro rfl
      rw [Function.update_self] at some
      cases some
    rw [Function.update_of_ne ne] at some
    have tables : ∀ i, User i → b ≠ .table d i := fun i user same => by
      rw [same, empty i user] at some
      cases some
    rw [slots b tables] at some
    rcases inv.only b some with kernel | ⟨d', there, which⟩
    · exact .inl kernel
    · refine .inr ⟨d', ?_, which⟩
      rw [Function.update_of_ne]
      · exact there
      · rintro rfl
        rcases which with same | ⟨i, user, same⟩
        · exact ne same
        · exact tables i user same

end Invariant

/-! ## Runs -/

section Runs

variable {pages : α} {mem : Page → BitVec 10 → Entry}

/-- The state after `vme_init`. -/
theorem inv_start (run : vmeInit A mem pages = .ok start) :
    ∃ boot, Inv A (A.Avail pages) boot start (fun _ => none) boot ∧ ∀ b, (boot b).isSome → ForKernel b := by
  obtain ⟨-, run'⟩ | ⟨s, slot, run', owned, kernel, tree, rest, only⟩ := vmeInit_spec A mem pages
  · rw [run] at run'
    cases run'
  · rw [run, Except.ok.injEq] at run'
    subst run'
    refine ⟨slot, ⟨owned, kernel, tree, rest, fun _ _ => rfl, ?_, ?_, ?_, fun b some => .inl (only b some)⟩, only⟩ <;>
      exact fun d f at_ => by cases at_

theorem Reach.inv {all : Page → Prop} {boot : Slot → Option Page} (first : Inv A all boot start (fun _ => none) boot)
    (reach : Reach A start s spaces) : ∃ slot, Inv A all boot s spaces slot := by
  induction reach with
  | start => exact ⟨boot, first⟩
  | protect _ run ih =>
    obtain ⟨slot, inv⟩ := ih
    exact (inv.protect run).2
  | map _ at_ run ih =>
    obtain ⟨slot, inv⟩ := ih
    obtain ⟨-, this⟩ | ⟨-, this⟩ | ⟨-, this⟩ | ⟨-, this⟩ | ⟨s', slot', this, inv'⟩ := inv.map at_ _ _ _
    all_goals
      rw [run] at this
      cases this
    · exact ⟨slot, inv⟩
    · exact ⟨slot', inv'⟩
  | unprotect _ at_ ih =>
    obtain ⟨slot, inv⟩ := ih
    exact inv.unprotect at_

/-- The pages of the address spaces: their directories, and the tables that the directories refer to. -/
def InUse (s : State α) (spaces : Page → Option Space) (q : Page) : Prop :=
  ∃ d, (spaces d).isSome ∧ (q = d ∨ ∃ i, User i ∧ s.mem d i &&& PTE_P ≠ 0 ∧ PTE_ADDR (s.mem d i) = q)

/-- They are the pages that the kernel does not have. -/
theorem Inv.inUse {all : Page → Prop} {boot slot : Slot → Option Page} (inv : Inv A all boot s spaces slot) {q : Page} :
    InUse s spaces q ↔ ∃ b, ¬ ForKernel b ∧ slot b = some q := by
  constructor
  · rintro ⟨d, there, rfl | ⟨i, user, present, rfl⟩⟩
    · obtain ⟨f, at_⟩ := Option.isSome_iff_exists.1 there
      exact ⟨_, not_forKernel_space, inv.directory q f at_⟩
    · obtain ⟨f, at_⟩ := Option.isSome_iff_exists.1 there
      match own : slot (.table d i) with
      | none => exact (present (by rw [((inv.tree d f at_).absent i user own).1]; decide)).elim
      | some t =>
        refine ⟨_, not_forKernel_table, own.trans ?_⟩
        rw [((inv.tree d f at_).present i t user own).1, userFlags_good.PTE_ADDR]
  · rintro ⟨b, other, own⟩
    rcases inv.only b (by rw [own]; rfl) with kernel | ⟨d, there, which⟩
    · exact (other kernel).elim
    · obtain ⟨f, at_⟩ := Option.isSome_iff_exists.1 there
      refine ⟨d, there, ?_⟩
      rcases which with rfl | ⟨i, user, rfl⟩
      · rw [inv.directory d f at_, Option.some.injEq] at own
        exact .inl own.symm
      · have entry := ((inv.tree d f at_).present i q user own).1
        exact .inr ⟨i, user, by rw [entry]; exact userFlags_good.there q, by rw [entry, userFlags_good.PTE_ADDR]⟩

theorem kernel_iff (va : BitVec 32) : va < 0x20000000 ∨ 0xf0000000 ≤ va ↔ Kernel (PDX va) := by
  unfold Kernel
  rw [PDX_toNat, BitVec.le_def, BitVec.lt_def]
  simp
  omega

/-- The kernel sees the physical areas. -/
theorem Inv.translate_kernel {all : Page → Prop} {boot slot : Slot → Option Page} (inv : Inv A all boot s spaces slot)
    (va : BitVec 32) : translate s.mem s.kpt va = view (fun _ => none) va := by
  unfold view
  by_cases inside : Kernel (PDX va)
  · rw [if_pos ((kernel_iff va).2 inside), inv.kernelTree.translate kernelFlags_good inside]
    have leaf : kernelLeaf (pageOf va) = kernelEntry (pageOf va) := by
      unfold kernelLeaf
      rw [if_pos]
      unfold Kernel at inside
      rw [PDX_toNat] at inside
      unfold pageOf
      rw [BitVec.extractLsb'_toNat, Nat.shiftRight_eq_div_pow]
      omega
    have right : ∀ m : Entry, 4095 &&& m = m → kernelFlags &&& kernelEntry (pageOf va) &&& m =
        kernelFlags &&& (PTE_P ||| PTE_W) &&& m := fun m small => by
      rw [BitVec.and_assoc, kernelEntry, or_address_and _ small, ← BitVec.and_assoc]
    rw [leaf, right _ (by decide), right _ (by decide), kernelEntry, or_address_and _ (by decide),
      PTE_ADDR_or _ (by decide)]
    rfl
  · rw [if_neg fun h => inside ((kernel_iff va).1 h)]
    unfold translate
    dsimp only
    rw [inv.kernelRest _ inside, if_pos (.inl (by decide))]
    split <;> rfl

/-- **Address spaces are isolated.** However the client makes address spaces, maps pages in them and gives them up, the
processor sees in each of them the pages that were mapped there last, for the user and with the rights that were asked for,
and the physical areas for the kernel only; and nothing else. With the directory of the kernel it sees the physical areas. -/
theorem spaces_isolated (run : vmeInit A mem pages = .ok start) (reach : Reach A start s spaces) :
    (∀ d f, spaces d = some f → ∀ va, translate s.mem d va = view f va) ∧
      ∀ va, translate s.mem s.kpt va = view (fun _ => none) va := by
  obtain ⟨boot, first, -⟩ := inv_start run
  obtain ⟨slot, inv⟩ := reach.inv first
  refine ⟨fun d f at_ va => ?_, inv.translate_kernel⟩
  by_cases user : User (PDX va)
  · have outside : ¬ Kernel (PDX va) := by
      unfold User at user
      unfold Kernel
      omega
    rw [(inv.tree d f at_).translate userFlags_good user]
    unfold view
    rw [if_neg fun h => outside ((kernel_iff va).1 h), if_pos ((user_iff va).2 user)]
    exact userEntry_translation _
  · -- the entry is that of the kernel
    have entry := inv.shared d f at_ _ user
    have same : translate s.mem d va = translate s.mem s.kpt va := by
      unfold translate
      rw [entry]
    have none : view f va = view (fun _ => none) va := by
      unfold view
      rw [if_neg fun h => user ((user_iff va).1 h), if_neg fun h => user ((user_iff va).1 h)]
    rw [same, none, inv.translate_kernel]

/-- **No page is lost.** A page that the client had after `vme_init` is available or is a page of an address space, and not
both. An operation fails only if no page is available, and a new directory is not the one of another address space. -/
theorem pages_kept (run : vmeInit A mem pages = .ok start) (reach : Reach A start s spaces) :
    (∀ q, A.Avail start.pages q ↔ A.Avail s.pages q ∨ InUse s spaces q) ∧
    (∀ q, InUse s spaces q → ¬ A.Avail s.pages q) ∧
    (A.alloc s.pages ≠ none → ∃ d s', protect A s = .ok (d, s') ∧ spaces d = none) ∧
    ∀ d f va pa prot, spaces d = some f → ¬ (prot &&& PROT_NONE ≠ 0 ∧ prot ≠ PROT_NONE) → va = va &&& ~~~4095 →
      pa = pa &&& ~~~4095 → A.alloc s.pages ≠ none → ∃ r s', map A s d va pa prot = .ok (r, s') := by
  obtain ⟨boot, first, kernel⟩ := inv_start run
  obtain ⟨slot, inv⟩ := reach.inv first
  refine ⟨fun q => ?_, fun q used => ?_, fun some => ?_, fun d f va pa prot at_ valid va_aligned pa_aligned some => ?_⟩
  · have now := inv.owned.whole q
    rw [inv.inUse]
    constructor
    · intro free
      rcases now.1 ((first.owned.whole q).2 (.inl free)) with still | ⟨b, own⟩
      · exact .inl still
      · refine .inr ⟨b, fun forKernel => ?_, own⟩
        exact first.owned.taken b q ((inv.same b forKernel).symm.trans own) free
    · intro now'
      have member : A.Avail pages q := now.2 (now'.imp_right fun ⟨b, _, own⟩ => ⟨b, own⟩)
      rcases (first.owned.whole q).1 member with free | ⟨b, own⟩
      · exact free
      · have forKernel := kernel b (by rw [own]; rfl)
        have own' := (inv.same b forKernel).trans own
        rcases now' with still | ⟨b', other, own''⟩
        · exact (inv.owned.taken b q own' still).elim
        · exact (other (inv.owned.apart b b' q own' own'' ▸ forKernel)).elim
  · obtain ⟨b, -, own⟩ := inv.inUse.1 used
    exact inv.owned.taken b q own
  · obtain ⟨⟨p, rest⟩, taken⟩ := Option.ne_none_iff_exists'.1 some
    have run' : ∃ s', protect A s = .ok (p, s') := by
      unfold protect pgalloc
      rw [taken]
      exact ⟨_, rfl⟩
    obtain ⟨s', run'⟩ := run'
    exact ⟨p, s', run', (inv.protect run').1⟩
  · have aligned : ¬ (va ≠ va &&& ~~~4095 ∨ pa ≠ pa &&& ~~~4095) := by
      rintro (wrong | wrong)
      · exact wrong va_aligned
      · exact wrong pa_aligned
    obtain ⟨wrong, -⟩ | ⟨wrong, -⟩ | ⟨-, run'⟩ | ⟨none, -⟩ | ⟨s', slot', run', -⟩ := inv.map at_ va pa prot
    · exact (valid wrong).elim
    · exact (aligned wrong).elim
    · exact ⟨_, _, run'⟩
    · exact (some none).elim
    · exact ⟨_, _, run'⟩

/-- The slots that `vme_init` fills. -/
def kernelSlots : Finset Slot :=
  insert .kernel ((Finset.range 192).image fun n => .kernelTable (BitVec.ofNat 10 (if n < 128 then n else n + 832)))

theorem mem_kernelSlots {b : Slot} (h : ForKernel b) : b ∈ kernelSlots := by
  unfold kernelSlots
  rw [Finset.mem_insert, Finset.mem_image]
  rcases h with rfl | ⟨i, kernel, rfl⟩
  · exact .inl rfl
  · refine .inr ⟨if i.toNat < 128 then i.toNat else i.toNat - 832, ?_, ?_⟩
    · rw [Finset.mem_range]
      split <;> omega
    · have index : (if (if i.toNat < 128 then i.toNat else i.toNat - 832) < 128 then
          (if i.toNat < 128 then i.toNat else i.toNat - 832)
          else (if i.toNat < 128 then i.toNat else i.toNat - 832) + 832) = i.toNat := by
        unfold Kernel at kernel
        by_cases low : i.toNat < 128
        · rw [if_pos low, if_pos low]
        · rw [if_neg low, if_neg (by omega)]
          omega
      rw [index, BitVec.ofNat_toNat, BitVec.setWidth_eq]

theorem card_kernelSlots : kernelSlots.card ≤ 193 := by
  unfold kernelSlots
  have tables := @Finset.card_image_le _ _ (Finset.range 192)
    (fun n => Slot.kernelTable (BitVec.ofNat 10 (if n < 128 then n else n + 832))) _
  rw [Finset.card_range] at tables
  exact (Finset.card_insert_le _ _).trans (by omega)

/-- Each page that is not available has a slot of the kernel. -/
theorem card_le_filled {all free : Page → Prop} {slot : Slot → Option Page} (owned : Owned all free slot)
    (only : ∀ b, (slot b).isSome → ForKernel b) {some few : Finset Page} (left : ∀ q, free q → q ∈ few)
    (avail : ∀ q ∈ some, all q) : (some \ few).card ≤ (kernelSlots.filter fun b => (slot b).isSome).card := by
  have owner : ∀ q ∈ some \ few, ∃ b, slot b = .some q := fun q member => by
    rw [Finset.mem_sdiff] at member
    exact ((owned.whole q).1 (avail q member.1)).resolve_left fun free => member.2 (left q free)
  have nonempty : Nonempty Slot := ⟨.kernel⟩
  choose! slotOf has using owner
  refine Finset.card_le_card_of_injOn slotOf (fun q member => ?_) fun q member q' member' same => ?_
  · have filled : (slot (slotOf q)).isSome := by
      rw [has q member]
      rfl
    rw [Finset.mem_coe, Finset.mem_filter]
    exact ⟨mem_kernelSlots (only _ filled), filled⟩
  · have this := has q member
    rw [same, has q' member', Option.some.injEq] at this
    exact this.symm

/-- A client that has 193 pages, and gives them, has enough for `vme_init`, and one that has more has as many left. -/
theorem vmeInit_returns (A : PageAllocator α) (all : ∀ a, A.alloc a = none → ∀ q, ¬ A.Avail a q)
    (mem : Page → BitVec 10 → Entry) (some : Finset Page) (avail : ∀ q ∈ some, A.Avail pages q) (enough : 193 ≤ some.card) :
    ∃ start, vmeInit A mem pages = .ok start ∧
      ∀ few : Finset Page, (∀ q, A.Avail start.pages q → q ∈ few) → some.card ≤ 193 + few.card := by
  have card := card_kernelSlots
  obtain ⟨⟨a, slot, b, empty, owned, kernel, left, only⟩, -⟩ | ⟨s, slot, run, owned, -, -, -, only⟩ := vmeInit_spec A mem pages
  · have filled := @card_le_filled _ _ _ owned only _ ∅ (fun q free => (all a empty q free).elim) avail
    rw [Finset.sdiff_empty] at filled
    have less : (kernelSlots.filter fun b => (slot b).isSome).card < kernelSlots.card := by
      refine Finset.card_lt_card (Finset.filter_ssubset.2 ⟨b, mem_kernelSlots kernel, ?_⟩)
      rw [left]
      exact Bool.false_ne_true
    omega
  · refine ⟨s, run, fun few left => ?_⟩
    have filled := card_le_filled owned only left avail
    have most := Finset.card_filter_le kernelSlots fun b => (slot b).isSome
    have rest := Finset.le_card_sdiff few some
    omega

end Runs

/-! ## An allocator -/

/-- A list of pages. -/
def listPages : PageAllocator {l : List Page // l.Nodup} where
  alloc
    | ⟨[], _⟩ => none
    | ⟨p :: l, nodup⟩ => some (p, ⟨l, (List.nodup_cons.1 nodup).2⟩)
  free l p := if h : p ∈ l.val then l else ⟨p :: l.val, List.nodup_cons.2 ⟨h, l.property⟩⟩
  Avail l p := p ∈ l.val
  alloc_some {a a' p} run := by
    obtain ⟨_ | ⟨p', l⟩, nodup⟩ := a
    · cases run
    · cases run
      refine ⟨List.mem_cons_self .., fun q => ?_⟩
      rw [List.nodup_cons] at nodup
      rw [List.mem_cons]
      constructor
      · exact fun member => ⟨.inr member, fun same => nodup.1 (same ▸ member)⟩
      · rintro ⟨rfl | member, ne⟩
        · exact (ne rfl).elim
        · exact member
  free_avail {a p} absent q := by
    rw [dif_neg absent, List.mem_cons, or_comm]

theorem listPages_empty {a : {l : List Page // l.Nodup}} (empty : listPages.alloc a = none) : a.val = [] := by
  obtain ⟨_ | ⟨p, l⟩, nodup⟩ := a
  · rfl
  · cases empty

/-- The pages from 256 on. -/
def somePages : {l : List Page // l.Nodup} :=
  ⟨(List.range' 256 256).map (BitVec.ofNat 20), by
    refine List.Nodup.map_on (fun n member n' member' same => ?_) (List.nodup_range' 1)
    rw [List.mem_range'_1] at member member'
    have nat := congrArg BitVec.toNat same
    rw [BitVec.toNat_ofNat, BitVec.toNat_ofNat] at nat
    omega⟩

/-- Two pages are left. -/
theorem vmeInit_somePages : ∃ start d e l nodup, vmeInit listPages (fun _ _ => 0) somePages = .ok start ∧
    start.pages = ⟨d :: e :: l, nodup⟩ := by
  have card : somePages.val.toFinset.card = 256 := by
    rw [List.toFinset_card_of_nodup somePages.property]
    unfold somePages
    rw [List.length_map, List.length_range']
  have all : ∀ a, listPages.alloc a = none → ∀ q, ¬ listPages.Avail a q := fun a empty q (member : q ∈ a.val) => by
    rw [listPages_empty empty] at member
    exact List.not_mem_nil member
  obtain ⟨start, run, left⟩ := vmeInit_returns listPages all (fun _ _ => 0) somePages.val.toFinset
    (fun q member => List.mem_toFinset.1 member) (by omega)
  have many := left start.pages.val.toFinset fun q member => List.mem_toFinset.2 member
  rw [List.toFinset_card_of_nodup start.pages.property] at many
  match pages : start.pages with
  | ⟨[], _⟩ | ⟨[_], _⟩ =>
    rw [pages] at many
    simp only [List.length_nil, List.length_singleton] at many
    omega
  | ⟨d :: e :: l, nodup⟩ => exact ⟨start, d, e, l, nodup, run, pages⟩

/-- The space of a user with the page 512, which can be written, at the start of its area. -/
def oneMapped : Space := Function.update (fun _ => none) (pageOf 0x40000000) (mapping 0x00200000 PROT_WRITE)

/-- A client with some pages makes an address space and maps a page in it. -/
theorem reach_mapped : ∃ start s d, vmeInit listPages (fun _ _ => 0) somePages = .ok start ∧
    Reach listPages start s (Function.update (fun _ => none) d (some oneMapped)) := by
  obtain ⟨start, d, e, l, nodup, run, pages⟩ := vmeInit_somePages
  obtain ⟨s, made, left⟩ : ∃ s, protect listPages start = .ok (d, s) ∧ s.pages.val = e :: l := by
    unfold protect pgalloc
    rw [pages]
    exact ⟨_, rfl, rfl⟩
  have reach : Reach listPages start s _ := .protect .start made
  obtain ⟨boot, first, -⟩ := inv_start run
  obtain ⟨slot, inv⟩ := reach.inv first
  obtain ⟨wrong, -⟩ | ⟨wrong, -⟩ | ⟨wrong, -⟩ | ⟨empty, -⟩ | ⟨s', slot', mapped, -⟩ :=
    inv.map (Function.update_self ..) 0x40000000 0x00200000 PROT_WRITE
  · exact absurd wrong (by decide)
  · exact absurd wrong (by decide)
  · exact absurd wrong (by unfold User; decide)
  · rw [listPages_empty empty] at left
    cases left
  · have next := reach.map (Function.update_self ..) mapped
    rw [if_pos rfl, Function.update_idem] at next
    exact ⟨start, s', d, run, next⟩

/-- The same client. -/
theorem spaces_isolated_mapped : ∃ start s d, vmeInit listPages (fun _ _ => 0) somePages = .ok start ∧
    Reach listPages start s (Function.update (fun _ => none) d (some oneMapped)) ∧
    (∀ d' f, Function.update (fun _ => none) d (some oneMapped) d' = some f → ∀ va, translate s.mem d' va = view f va) ∧
      ∀ va, translate s.mem s.kpt va = view (fun _ => none) va := by
  obtain ⟨start, s, d, run, reach⟩ := reach_mapped
  exact ⟨start, s, d, run, reach, spaces_isolated run reach⟩

/-- The same client. -/
theorem pages_kept_mapped : ∃ start s d, vmeInit listPages (fun _ _ => 0) somePages = .ok start ∧
    Reach listPages start s (Function.update (fun _ => none) d (some oneMapped)) ∧
    (∀ q, listPages.Avail start.pages q ↔ listPages.Avail s.pages q ∨
      InUse s (Function.update (fun _ => none) d (some oneMapped)) q) ∧
    (∀ q, InUse s (Function.update (fun _ => none) d (some oneMapped)) q → ¬ listPages.Avail s.pages q) ∧
    (listPages.alloc s.pages ≠ none → ∃ d' s', protect listPages s = .ok (d', s') ∧
      Function.update (fun _ => none) d (some oneMapped) d' = none) ∧
    ∀ d' f va pa prot, Function.update (fun _ => none) d (some oneMapped) d' = some f →
      ¬ (prot &&& PROT_NONE ≠ 0 ∧ prot ≠ PROT_NONE) → va = va &&& ~~~4095 → pa = pa &&& ~~~4095 →
      listPages.alloc s.pages ≠ none → ∃ r s', map listPages s d' va pa prot = .ok (r, s') := by
  obtain ⟨start, s, d, run, reach⟩ := reach_mapped
  exact ⟨start, s, d, run, reach, pages_kept run reach⟩

end OsLab.Am
