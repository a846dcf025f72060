import OsLab.Lib.Except
import Mathlib.Data.List.Basic

/-!
# Computations that leave a trace

A `Traced` computation has a result or fails, and in both cases leaves the list of what it has marked.
-/

namespace OsLab

structure Traced (ε β α : Type) where
  result : Except ε α
  trace : List β

namespace Traced

variable {ε β α γ δ : Type} {a : α} {b : β} {e : ε} {x : Traced ε β α} {f : α → Traced ε β γ} {g : γ → Traced ε β δ}

instance : Monad (Traced ε β) where
  pure a := ⟨.ok a, []⟩
  bind x f :=
    match x.result with
    | .ok a => ⟨(f a).result, x.trace ++ (f a).trace⟩
    | .error e => ⟨.error e, x.trace⟩

/-- A computation that marks nothing. -/
def lift (x : Except ε α) : Traced ε β α := ⟨x, []⟩

def mark (b : β) : Traced ε β Unit := ⟨.ok (), [b]⟩

@[simp] theorem pure_bind (f : α → Traced ε β γ) : (pure a >>= f) = f a := rfl

@[simp] theorem lift_ok_bind : ((lift (.ok a) : Traced ε β α) >>= f) = f a := rfl

@[simp] theorem lift_error_bind : ((lift (.error e) : Traced ε β α) >>= f) = lift (.error e) := rfl

@[simp] theorem mark_bind (f : Unit → Traced ε β γ) : (mark b >>= f) = ⟨(f ()).result, b :: (f ()).trace⟩ := rfl

theorem result_bind : (x >>= f).result = x.result >>= fun a => (f a).result := by
  obtain ⟨result, trace⟩ := x
  cases result with
  | ok a => rfl
  | error e => rfl

theorem result_map (f : α → γ) : (x >>= fun a => pure (f a)).result = x.result.map f := by
  obtain ⟨result, trace⟩ := x
  cases result with
  | ok a => rfl
  | error e => rfl

theorem trace_map (f : α → γ) : (x >>= fun a => pure (f a)).trace = x.trace := by
  obtain ⟨result, trace⟩ := x
  cases result with
  | ok a => exact List.append_nil trace
  | error e => rfl

/-- What one computation after another marks, in the order of the calls. -/
theorem bind_assoc : (x >>= f >>= g) = x >>= fun a => f a >>= g := by
  obtain ⟨result, trace⟩ := x
  cases result with
  | error e => rfl
  | ok a =>
    show (⟨(f a).result, trace ++ (f a).trace⟩ : Traced ε β γ) >>= g = ⟨(f a >>= g).result, trace ++ (f a >>= g).trace⟩
    obtain ⟨result, more⟩ := f a
    cases result with
    | error e => rfl
    | ok c => exact congrArg (Traced.mk _) (List.append_assoc _ _ _)

/-- The computation returns `a`, and all that it marks on the way is `good`. -/
structure Returns (good : β → Prop) (x : Traced ε β α) (a : α) : Prop where
  result : x.result = .ok a
  all : ∀ b ∈ x.trace, good b

section Returns

variable {good : β → Prop} {a' : α} {c : γ}

theorem Returns.unique (h : x.Returns good a) (h' : x.Returns good a') : a = a' :=
  Except.ok.inj (h.result.symm.trans h'.result)

@[simp] theorem returns_pure : (pure a : Traced ε β α).Returns good a' ↔ a = a' :=
  ⟨fun h => Except.ok.inj h.result, fun same => ⟨congrArg Except.ok same, fun _ wrong => absurd wrong List.not_mem_nil⟩⟩

@[simp] theorem not_returns_error : ¬(lift (.error e) : Traced ε β α).Returns good a := by
  rintro ⟨result, -⟩
  cases result

theorem returns_mark {u : Unit} : (mark b : Traced ε β Unit).Returns good u ↔ good b :=
  ⟨fun h => h.all b List.mem_cons_self, fun isGood => ⟨rfl, fun _ member => by rwa [List.mem_singleton.1 member]⟩⟩

/-- One computation after another returns if both do. -/
theorem returns_bind : (x >>= f).Returns good c ↔ ∃ a, x.Returns good a ∧ (f a).Returns good c := by
  obtain ⟨result, trace⟩ := x
  cases result with
  | error e =>
    constructor
    · rintro ⟨wrong, -⟩
      cases wrong
    · rintro ⟨a, ⟨wrong, -⟩, -⟩
      cases wrong
  | ok a =>
    constructor
    · rintro ⟨result, all⟩
      obtain ⟨first, second⟩ := List.forall_mem_append.1 all
      exact ⟨a, ⟨rfl, first⟩, result, second⟩
    · rintro ⟨a', ⟨same, first⟩, result, second⟩
      obtain rfl := Except.ok.inj same
      exact ⟨result, List.forall_mem_append.2 ⟨first, second⟩⟩

end Returns

end Traced

end OsLab
