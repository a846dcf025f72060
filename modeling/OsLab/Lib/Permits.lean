import Mathlib.Data.List.Nodup
import Mathlib.Tactic.Common

/-!
# Permits of a counting semaphore

A history lists the permits that were taken and given back, newest first. `Legal v h` says
that none was taken when none was left, of `v` at the start. Where every thread takes and
gives back in turn, the threads that have a permit are as many as the permits that are gone;
with one permit there is at most one such thread.
-/

namespace OsLab.Permits

/-- What a thread does to the number of permits. -/
inductive Op where
  /-- It takes one. -/
  | wait
  /-- It gives one back, or makes a new one. -/
  | signal
  deriving DecidableEq

structure Event (Thread : Type) where
  thread : Thread
  op : Op

variable {Thread : Type}

/-- The permits taken. -/
def waits (h : List (Event Thread)) : Nat := h.countP fun e => e.op = .wait

/-- The permits given. -/
def signals (h : List (Event Thread)) : Nat := h.countP fun e => e.op = .signal

/-- The permits left of `v`. -/
def permits (v : Int) (h : List (Event Thread)) : Int := v + signals h - waits h

/-- Permits are only taken when there are some. -/
inductive Legal (v : Int) : List (Event Thread) → Prop where
  | nil : Legal v []
  | wait {h : List (Event Thread)} (t : Thread) : Legal v h → 0 < permits v h → Legal v (⟨t, .wait⟩ :: h)
  | signal {h : List (Event Thread)} (t : Thread) : Legal v h → Legal v (⟨t, .signal⟩ :: h)

section Counts

variable {v : Int} {h : List (Event Thread)} {t : Thread}

@[simp] theorem permits_nil : permits v ([] : List (Event Thread)) = v := by
  simp [permits, signals, waits]

@[simp] theorem permits_wait : permits v (⟨t, .wait⟩ :: h) = permits v h - 1 := by
  simp [permits, signals, waits]
  omega

@[simp] theorem permits_signal : permits v (⟨t, .signal⟩ :: h) = permits v h + 1 := by
  simp [permits, signals, waits]
  omega

theorem Legal.nonneg (legal : Legal v h) (initial : 0 ≤ v) : 0 ≤ permits v h := by
  induction legal with
  | nil => simpa using initial
  | wait t _ left _ =>
    simp only [permits_wait]
    omega
  | signal t _ ih =>
    simp only [permits_signal]
    omega

end Counts

section Mutex

variable [DecidableEq Thread] {h : List (Event Thread)} {t t' : Thread}

/-- The thread has taken a permit and not given it back. -/
def Inside (h : List (Event Thread)) (t : Thread) : Prop :=
  (h.find? fun e => e.thread = t).map Event.op = some .wait

instance : Decidable (Inside h t) :=
  inferInstanceAs (Decidable ((h.find? fun e => e.thread = t).map Event.op = some .wait))

/-- Every thread takes a permit, gives it back, and so on. -/
inductive InTurn : List (Event Thread) → Prop where
  | nil : InTurn []
  | wait {h : List (Event Thread)} {t : Thread} : InTurn h → ¬ Inside h t → InTurn (⟨t, .wait⟩ :: h)
  | signal {h : List (Event Thread)} {t : Thread} : InTurn h → Inside h t → InTurn (⟨t, .signal⟩ :: h)

theorem not_inside_nil : ¬ Inside [] t := by
  simp [Inside]

@[simp] theorem inside_wait : Inside (⟨t, .wait⟩ :: h) t' ↔ t' = t ∨ Inside h t' := by
  unfold Inside
  by_cases same : t = t'
  · simp [same]
  · simp [same, Ne.symm same]

@[simp] theorem inside_signal : Inside (⟨t, .signal⟩ :: h) t' ↔ t' ≠ t ∧ Inside h t' := by
  unfold Inside
  by_cases same : t = t'
  · simp [same]
  · simp [same, Ne.symm same]

/-- The threads inside are as many as the permits that are gone. -/
theorem InTurn.holders (inTurn : InTurn h) (v : Int) :
    ∃ l : List Thread, l.Nodup ∧ (∀ t, t ∈ l ↔ Inside h t) ∧ permits v h = v - l.length := by
  induction inTurn with
  | nil => exact ⟨[], List.nodup_nil, by simp [not_inside_nil], by simp⟩
  | @wait h t _ outside ih =>
    obtain ⟨l, nodup, members, count⟩ := ih
    refine ⟨t :: l, List.nodup_cons.2 ⟨fun member => outside ((members t).1 member), nodup⟩, ?_, ?_⟩
    · simp [members]
    · simp [count]
      omega
  | @signal h t _ inside ih =>
    obtain ⟨l, nodup, members, count⟩ := ih
    have member : t ∈ l := (members t).2 inside
    refine ⟨l.erase t, nodup.erase t, ?_, ?_⟩
    · intro t'
      simp [nodup.mem_erase_iff, members]
    · have length := List.length_erase_add_one member
      simp only [permits_signal, count]
      omega

/-- One permit excludes: at most one thread is inside. -/
theorem InTurn.exclusive (inTurn : InTurn h) (legal : Legal 1 h) (inside : Inside h t)
    (inside' : Inside h t') : t = t' := by
  obtain ⟨l, nodup, members, count⟩ := inTurn.holders 1
  have left := legal.nonneg (by omega)
  have short : l.length ≤ 1 := by omega
  have first := (members t).2 inside
  have second := (members t').2 inside'
  match l, short with
  | [u], _ =>
    rw [List.mem_singleton.1 first, List.mem_singleton.1 second]

end Mutex

section Exclusive

variable {v : Int} {inside inside' : Thread → Prop} {t t' : Thread}

/-- A semaphore that starts with one permit and guards a section of the code: the permit is there, or
exactly one thread is in the section. -/
def Exclusive (v : Int) (inside : Thread → Prop) : Prop :=
  (v = 1 ∧ ∀ t, ¬ inside t) ∨ (v = 0 ∧ ∃ t, ∀ t', inside t' ↔ t' = t)

theorem Exclusive.congr (h : Exclusive v inside) (same : ∀ t, inside' t ↔ inside t) : Exclusive v inside' := by
  rwa [show inside' = inside from funext fun t => propext (same t)]

theorem Exclusive.unique (h : Exclusive v inside) (one : inside t) (other : inside t') : t' = t := by
  obtain ⟨-, none⟩ | ⟨-, u, members⟩ := h
  · exact (none t one).elim
  · rw [(members t).1 one, (members t').1 other]

/-- A thread comes in. -/
theorem Exclusive.enter (h : Exclusive v inside) (some : 0 < v) (members : ∀ t', inside' t' ↔ t' = t ∨ inside t') :
    Exclusive (v - 1) inside' := by
  obtain ⟨rfl, none⟩ | ⟨rfl, -⟩ := h
  · exact .inr ⟨rfl, t, fun t' => by simp [members, none]⟩
  · omega

/-- The thread that is inside goes out. -/
theorem Exclusive.leave (h : Exclusive v inside) (one : inside t) (members : ∀ t', inside' t' ↔ t' ≠ t ∧ inside t') :
    v = 0 ∧ Exclusive (v + 1) inside' := by
  have unique : ∀ t', inside t' → t' = t := fun t' => h.unique one
  obtain ⟨-, none⟩ | ⟨rfl, -⟩ := h
  · exact (none t one).elim
  · refine ⟨rfl, .inl ⟨rfl, fun t' still => ?_⟩⟩
    obtain ⟨other, still⟩ := (members t').1 still
    exact other (unique t' still)

end Exclusive

end OsLab.Permits
