import Mathlib.Logic.Function.Basic
import Mathlib.Tactic.Common

/-!
# Pages and their owners

A pool of pages is shared out to slots, each of which has one page at most. `Owned` says that this is a partition: each
page of the pool is free or is the page of exactly one slot. Taking a free page for an empty slot and giving the page
of a slot back keep that, so no page is lost and none has two owners, however pages are taken and given back.
-/

namespace OsLab.Owners

variable {Slot Page : Type} {all free free' : Page → Prop} {slot : Slot → Option Page} {a b : Slot} {p q : Page}

/-- The pages `all` are free or have an owner, and not more than one. -/
structure Owned (all free : Page → Prop) (slot : Slot → Option Page) : Prop where
  whole : ∀ q, all q ↔ free q ∨ ∃ a, slot a = some q
  taken : ∀ a q, slot a = some q → ¬ free q
  apart : ∀ a b q, slot a = some q → slot b = some q → a = b

/-- At the start all pages are free. -/
theorem Owned.start (none : ∀ a, slot a = none) : Owned free free slot := by
  refine ⟨fun q => ?_, fun a q own => ?_, fun a b q own => ?_⟩
  · simp [none]
  · rw [none] at own
    cases own
  · rw [none] at own
    cases own

theorem Owned.congr (h : Owned all free slot) (same : ∀ q, free' q ↔ free q) : Owned all free' slot := by
  rwa [show free' = free from funext fun q => propext (same q)]

/-- Two slots have different pages. -/
theorem Owned.ne (h : Owned all free slot) (own : slot a = some p) (own' : slot b = some q) (other : a ≠ b) : p ≠ q := by
  rintro rfl
  exact other (h.apart a b p own own')

variable [DecidableEq Slot]

/-- A slot takes a free page. -/
theorem Owned.take (h : Owned all free slot) (empty : slot a = none) (some : free p)
    (left : ∀ q, free' q ↔ free q ∧ q ≠ p) : Owned all free' (Function.update slot a (.some p)) := by
  have owner : ∀ b q, Function.update slot a (.some p) b = .some q ↔ b = a ∧ q = p ∨ slot b = .some q := by
    intro b q
    by_cases here : b = a
    · subst here
      rw [Function.update_self, empty]
      simp [eq_comm]
    · rw [Function.update_of_ne here]
      simp [here]
  refine ⟨fun q => ?_, fun b q has => ?_, fun b c q has has' => ?_⟩
  · rw [h.whole, left]
    simp only [owner]
    by_cases same : q = p
    · subst same
      simp [some]
    · simp [same]
  · rw [left]
    rcases (owner b q).1 has with ⟨-, rfl⟩ | own
    · exact fun still => still.2 rfl
    · exact fun still => h.taken b q own still.1
  · rcases (owner b q).1 has with ⟨rfl, rfl⟩ | own <;> rcases (owner c q).1 has' with ⟨rfl, this⟩ | own'
    · rfl
    · exact (h.taken c q own' some).elim
    · exact (h.taken b q own (this ▸ some)).elim
    · exact h.apart b c q own own'

/-- A slot gives its page back. -/
theorem Owned.give (h : Owned all free slot) (own : slot a = .some p) (more : ∀ q, free' q ↔ free q ∨ q = p) :
    Owned all free' (Function.update slot a none) := by
  have owner : ∀ b q, Function.update slot a none b = .some q ↔ b ≠ a ∧ slot b = .some q := by
    intro b q
    by_cases here : b = a
    · subst here
      simp
    · rw [Function.update_of_ne here]
      simp [here]
  refine ⟨fun q => ?_, fun b q own' => ?_, fun b c q own own' => ?_⟩
  · rw [h.whole, more]
    simp only [owner]
    constructor
    · rintro (still | ⟨b, own'⟩)
      · exact .inl (.inl still)
      · by_cases here : b = a
        · subst here
          rw [own, Option.some.injEq] at own'
          exact .inl (.inr own'.symm)
        · exact .inr ⟨b, here, own'⟩
    · rintro ((still | rfl) | ⟨b, -, own'⟩)
      · exact .inl still
      · exact .inr ⟨a, own⟩
      · exact .inr ⟨b, own'⟩
  · obtain ⟨other, own'⟩ := (owner b q).1 own'
    rw [more, not_or]
    refine ⟨h.taken b q own', ?_⟩
    rintro rfl
    exact other (h.apart b a q own' own)
  · exact h.apart b c q ((owner b q).1 own).2 ((owner c q).1 own').2

end OsLab.Owners
