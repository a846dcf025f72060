import OsLab.Lib.Except

/-!
# Halting the kernel

`Assert` and `Panic` (`debug.h`) print a message and halt. A kernel function that
can halt returns an `Except Halt`; the message is the format string of the source.
-/

namespace OsLab.Kernel

/-- Why a computation of the kernel has no result. -/
inductive Halt where
  /-- A failed `Assert`, or a `Panic`. -/
  | assert (msg : String)
  /-- A field of `NULL` is read or written. -/
  | nullDeref
  /-- Signed arithmetic leaves the range of `int`. -/
  | overflow
  /-- Division by zero. -/
  | divZero
  /-- A device is accessed past its end. -/
  | outside
  /-- A loop has not ended within the bound of its model. -/
  | diverge
  deriving DecidableEq, Repr

/-- `Assert(cond, msg)`. -/
def kassert (p : Prop) [Decidable p] (msg : String) : Except Halt Unit :=
  if p then .ok () else .error (.assert msg)

section Assert

variable {β : Type}

theorem kassert_pos {p : Prop} [Decidable p] {msg : String} (h : p) : kassert p msg = .ok () :=
  if_pos h

theorem kassert_neg {p : Prop} [Decidable p] {msg : String} (h : ¬ p) :
    kassert p msg = .error (.assert msg) :=
  if_neg h

theorem kassert_eq_ok {p : Prop} [Decidable p] {msg : String} {u : Unit} :
    kassert p msg = .ok u ↔ p := by
  unfold kassert
  split <;> simp [*]

theorem kassert_bind_eq_ok {p : Prop} [Decidable p] {msg : String} {f : Unit → Except Halt β}
    {r : β} : (kassert p msg >>= f) = .ok r ↔ p ∧ f () = .ok r := by
  unfold kassert
  split <;> simp [*]

end Assert

end OsLab.Kernel
