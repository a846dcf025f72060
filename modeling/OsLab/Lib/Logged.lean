import OsLab.Lib.Except

/-!
# Computations with a log

A `Logged` computation has a state and a log, to which it only adds. `Traces` compares it with a
computation that keeps no log: from a given state both do the same, and all that is logged on the
way is `good`. There is one rule for each way to compose computations; `Traces.run` reads off what
the log of a run holds.
-/

namespace OsLab

/-- Computations on a state `σ` that log entries `β`, the newest first, and can fail. -/
abbrev Logged (σ β ε : Type) := StateT (σ × List β) (Except ε)

namespace Logged

variable {σ τ β ε α : Type}

/-- The state. -/
def read : Logged σ β ε σ := fun p => .ok (p.1, p)

/-- Change the state to `s`. -/
def write (s : σ) : Logged σ β ε Unit := fun p => .ok ((), (s, p.2))

/-- Log `x`. -/
def log (x : β) : Logged σ β ε Unit := fun p => .ok ((), (p.1, x :: p.2))

/-- Log all of `xs`. -/
def logAll (xs : List β) : Logged σ β ε Unit := fun p => .ok ((), (p.1, xs ++ p.2))

/-- Run `m` on a part of the state. -/
def within (part : τ → σ) (put : τ → σ → τ) (m : Logged σ β ε α) : Logged τ β ε α := fun p => do
  let (a, (s, log)) ← m (part p.1, p.2)
  .ok (a, (put p.1 s, log))

end Logged

/-- From state `s`, `m` has the result of `r`, of which `view` gives the value and the state, and
logs `good` entries only. -/
structure Traces {σ β ε α ρ : Type} (good : β → Prop) (m : Logged σ β ε α) (s : σ)
    (view : ρ → α × σ) (r : Except ε ρ) : Prop where
  fails : ∀ e, r = .error e → ∀ log, m (s, log) = .error e
  returns : ∀ p, r = .ok p → ∃ new, (∀ x ∈ new, good x) ∧
    ∀ log, m (s, log) = .ok ((view p).1, ((view p).2, new ++ log))

namespace Traces

variable {σ τ β ε α α' ρ ρ' : Type} {good : β → Prop} {s s' : σ} {view : ρ → α × σ}
  {view' : ρ' → α' × σ} {m m' : Logged σ β ε α} {r r' : Except ε ρ}

/-- What a logged run returns and logs. -/
theorem run {a : α} {log log' : List β} (h : Traces good m s view r)
    (call : m (s, log) = .ok (a, (s', log'))) :
    ∃ p, r = .ok p ∧ view p = (a, s') ∧ ∃ new, log' = new ++ log ∧ ∀ x ∈ new, good x := by
  cases result : r with
  | error e =>
    have failed := (h.fails e result log).symm.trans call
    contradiction
  | ok p =>
    obtain ⟨new, allGood, same⟩ := h.returns p result
    have both := Except.ok.inj ((same log).symm.trans call)
    simp only [Prod.mk.injEq] at both
    exact ⟨p, rfl, Prod.ext both.1 both.2.1, new, both.2.2.symm, allGood⟩

theorem mono {good' : β → Prop} (h : Traces good m s view r) (weaker : ∀ x, good x → good' x) :
    Traces good' m s view r := by
  refine ⟨h.fails, fun p eq => ?_⟩
  obtain ⟨new, allGood, same⟩ := h.returns p eq
  exact ⟨new, fun x mem => weaker x (allGood x mem), same⟩

theorem ret {a : α} {p : ρ} (same : view p = (a, s)) :
    Traces good (pure a : Logged σ β ε α) s view (.ok p) := by
  refine ⟨fun e eq => ?_, fun q eq => ⟨[], nofun, fun log => ?_⟩⟩
  · cases eq
  · cases eq
    rw [same]
    rfl

theorem fail (e : ε) : Traces good (throw e : Logged σ β ε α) s view (.error e) := by
  refine ⟨fun e' eq log => ?_, fun p eq => ?_⟩
  · cases eq
    rfl
  · cases eq

/-- A computation without a state. -/
theorem lift (x : Except ε α) :
    Traces good (liftM x : Logged σ β ε α) s (fun a => (a, s)) x := by
  refine ⟨fun e eq log => ?_, fun a eq => ⟨[], nofun, fun log => ?_⟩⟩
  · rw [eq]
    rfl
  · rw [eq]
    rfl

/-- The second computation starts with what the first one returns. -/
theorem bind {f : α → Logged σ β ε α'} {g : ρ → Except ε ρ'} (first : Traces good m s view r)
    (rest : ∀ p, r = .ok p → Traces good (f (view p).1) (view p).2 view' (g p)) :
    Traces good (m >>= f) s view' (r >>= g) := by
  have unfolded : ∀ log, (m >>= f) (s, log) = m (s, log) >>= fun q => f q.1 q.2 := fun _ => rfl
  cases result : r with
  | error e =>
    refine ⟨fun e' eq log => ?_, nofun⟩
    rw [unfolded, first.fails e result log]
    cases eq
    rfl
  | ok p =>
    have second := rest p result
    obtain ⟨new, allGood, same⟩ := first.returns p result
    refine ⟨fun e eq log => ?_, fun q eq => ?_⟩
    · rw [unfolded, same log]
      exact second.fails e eq _
    · obtain ⟨new', allGood', same'⟩ := second.returns q eq
      refine ⟨new' ++ new, fun x mem => ?_, fun log => ?_⟩
      · obtain later | earlier := List.mem_append.1 mem
        · exact allGood' x later
        · exact allGood x earlier
      · rw [unfolded, same log, List.append_assoc]
        exact same' (new ++ log)

theorem read {f : σ → Logged σ β ε α} (rest : Traces good (f s) s view r) :
    Traces good (Logged.read >>= f) s view r :=
  ⟨rest.fails, rest.returns⟩

theorem write {f : Unit → Logged σ β ε α} (rest : Traces good (f ()) s' view r) :
    Traces good (Logged.write s' >>= f) s view r :=
  ⟨rest.fails, rest.returns⟩

theorem logAll {xs : List β} {f : Unit → Logged σ β ε α} (allGood : ∀ x ∈ xs, good x)
    (rest : Traces good (f ()) s view r) : Traces good (Logged.logAll xs >>= f) s view r := by
  refine ⟨fun e eq log => rest.fails e eq (xs ++ log), fun p eq => ?_⟩
  obtain ⟨new, newGood, same⟩ := rest.returns p eq
  refine ⟨new ++ xs, fun x mem => ?_, fun log => ?_⟩
  · obtain later | here := List.mem_append.1 mem
    · exact newGood x later
    · exact allGood x here
  · rw [List.append_assoc]
    exact same (xs ++ log)

theorem log {x : β} {f : Unit → Logged σ β ε α} (isGood : good x)
    (rest : Traces good (f ()) s view r) : Traces good (Logged.log x >>= f) s view r := by
  have single : ∀ y ∈ [x], good y := fun y mem => List.mem_singleton.1 mem ▸ isGood
  have both := logAll single rest
  exact ⟨both.fails, both.returns⟩

/-- Both computations take the same branch. -/
theorem ite {c : Prop} [Decidable c] (pos : c → Traces good m s view r)
    (neg : ¬ c → Traces good m' s view r') :
    Traces good (if c then m else m') s view (if c then r else r') := by
  by_cases h : c
  · rw [if_pos h, if_pos h]
    exact pos h
  · rw [if_neg h, if_neg h]
    exact neg h

/-- A loop over a list that leaves the state. -/
theorem foldlM {f : α → α' → Logged σ β ε α} {g : α → α' → Except ε α} {xs : List α'} {a : α}
    (step : ∀ x ∈ xs, ∀ a, Traces good (f a x) s (fun a => (a, s)) (g a x)) :
    Traces good (xs.foldlM f a) s (fun a => (a, s)) (xs.foldlM g a) := by
  induction xs generalizing a with
  | nil => exact ret rfl
  | cons x xs ih =>
    rw [List.foldlM_cons, List.foldlM_cons]
    apply (step x List.mem_cons_self a).bind
    intro a' _
    exact ih fun y mem => step y (List.mem_cons_of_mem x mem)

/-- Reading the result of the other computation differently. -/
theorem map {f : ρ → ρ'} {view : ρ' → α × σ} (h : Traces good m s (fun p => view (f p)) r) :
    Traces good m s view (r >>= fun p => .ok (f p)) := by
  cases result : r with
  | error e =>
    refine ⟨fun e' eq => ?_, nofun⟩
    cases eq
    exact h.fails e result
  | ok p =>
    refine ⟨nofun, fun q eq => ?_⟩
    cases eq
    exact h.returns p result

/-- A computation on a part of the state leaves the rest. -/
theorem within {t : τ} {part : τ → σ} {put : τ → σ → τ} (h : Traces good m (part t) view r) :
    Traces good (Logged.within part put m) t (fun p => ((view p).1, put t (view p).2)) r := by
  refine ⟨fun e eq log => ?_, fun p eq => ?_⟩
  · unfold Logged.within
    dsimp only
    rw [h.fails e eq log]
    rfl
  · obtain ⟨new, allGood, same⟩ := h.returns p eq
    refine ⟨new, allGood, fun log => ?_⟩
    unfold Logged.within
    dsimp only
    rw [same log]
    rfl

end Traces

end OsLab
