import OsLab.Lib.Except
import Mathlib.Logic.Relation

/-!
# Triples of programs that change a state and may fail

`Triple P m Q` is partial correctness: every run of `m` from a state with `P` that does not fail ends
with `Q`. `Keeps f m` says that the runs of `m` leave a part `f` of the state, and `Moves f r m` that they take it along steps
of a relation `r`. `Ends m s Q` is total correctness from one state: the run of `m` from `s` does not fail and ends with `Q`.
-/

namespace OsLab.Triples

variable {σ τ ε α β : Type}

/-- Every run of `m` from `P` that returns ends in `Q`. -/
def Triple (P : σ → Prop) (m : StateT σ (Except ε) α) (Q : α → σ → Prop) : Prop :=
  ∀ s a s', P s → m s = .ok (a, s') → Q a s'

/-- Every run of `m` that returns leaves the part `f` of the state. -/
def Keeps (f : σ → τ) (m : StateT σ (Except ε) α) : Prop :=
  ∀ s a s', m s = .ok (a, s') → f s' = f s

/-- Every run of `m` that returns takes the part `f` of the state along steps of `r`. -/
def Moves (f : σ → τ) (r : τ → τ → Prop) (m : StateT σ (Except ε) α) : Prop :=
  ∀ s a s', m s = .ok (a, s') → Relation.ReflTransGen r (f s) (f s')

/-- The run of `m` from `s` returns and ends in `Q`. -/
def Ends (m : StateT σ (Except ε) α) (s : σ) (Q : α → σ → Prop) : Prop :=
  ∃ a s', m s = .ok (a, s') ∧ Q a s'

/-- A part of the state. -/
def gets (g : σ → τ) : StateT σ (Except ε) τ := do
  let s ← get
  pure (g s)

section Rules

variable {P : σ → Prop} {Q : α → σ → Prop} {R : β → σ → Prop} {f : σ → τ}
  {m : StateT σ (Except ε) α} {k : α → StateT σ (Except ε) β}

theorem bind_run_eq_ok {s s' : σ} {b : β} :
    (m >>= k) s = .ok (b, s') ↔ ∃ a s1, m s = .ok (a, s1) ∧ k a s1 = .ok (b, s') := by
  show (m s >>= fun r => k r.1 r.2) = .ok (b, s') ↔ _
  rw [bind_eq_ok]
  exact Prod.exists

theorem map_run_eq_ok {g : α → β} {s s' : σ} {b : β} :
    (g <$> m) s = .ok (b, s') ↔ ∃ a, m s = .ok (a, s') ∧ g a = b := by
  rw [map_eq_pure_bind, bind_run_eq_ok]
  constructor
  · rintro ⟨a, s1, run, done⟩
    cases done
    exact ⟨a, run, rfl⟩
  · rintro ⟨a, run, rfl⟩
    exact ⟨a, s', run, rfl⟩

theorem Triple.bind (first : Triple P m Q) (rest : ∀ a, Triple (Q a) (k a) R) :
    Triple P (m >>= k) R := by
  intro s b s' pre run
  obtain ⟨a, s1, runM, runK⟩ := bind_run_eq_ok.1 run
  exact rest a s1 b s' (first s a s1 pre runM) runK

theorem Triple.pure {a : α} (post : ∀ s, P s → Q a s) :
    Triple P (Pure.pure a : StateT σ (Except ε) α) Q := by
  intro s b s' pre run
  cases run
  exact post s pre

theorem Triple.throw (e : ε) : Triple P (throw e : StateT σ (Except ε) α) Q := by
  intro s a s' _ run
  cases run

theorem Triple.conseq {P' : σ → Prop} {Q' : α → σ → Prop} (h : Triple P m Q)
    (pre : ∀ s, P' s → P s) (post : ∀ a s, Q a s → Q' a s) : Triple P' m Q' :=
  fun s a s' hs run => post a s' (h s a s' (pre s hs) run)

theorem Triple.and {P' : σ → Prop} {Q' : α → σ → Prop} (h : Triple P m Q) (h' : Triple P' m Q') :
    Triple (fun s => P s ∧ P' s) m fun a s => Q a s ∧ Q' a s :=
  fun s a s' pre run => ⟨h s a s' pre.1 run, h' s a s' pre.2 run⟩

/-- A fact that the precondition implies can be used in the proof. -/
theorem Triple.of_pre {p : Prop} (fact : ∀ s, P s → p) (h : p → Triple P m Q) : Triple P m Q :=
  fun s a s' pre run => h (fact s pre) s a s' pre run

/-- A read of a part of the state. -/
theorem Triple.gets {g : σ → τ} {Q : τ → σ → Prop} (post : ∀ s, P s → Q (g s) s) :
    Triple P (gets g : StateT σ (Except ε) τ) Q := by
  intro s a s' pre run
  cases run
  exact post s pre

theorem Triple.modify {g : σ → σ} {Q : Unit → σ → Prop} (post : ∀ s, P s → Q () (g s)) :
    Triple P (modify g : StateT σ (Except ε) Unit) Q := by
  intro s a s' pre run
  cases run
  exact post s pre

theorem Triple.ite {p : Prop} [Decidable p] {m' : StateT σ (Except ε) α}
    (pos : p → Triple P m Q) (neg : ¬ p → Triple P m' Q) : Triple P (if p then m else m') Q := by
  by_cases h : p
  · rw [if_pos h]
    exact pos h
  · rw [if_neg h]
    exact neg h

theorem Keeps.triple (h : Keeps f m) (p : τ → Prop) :
    Triple (fun s => p (f s)) m fun _ s => p (f s) := by
  intro s a s' pre run
  rw [h s a s' run]
  exact pre

theorem keeps_iff : Keeps f m ↔ ∀ x, Triple (fun s => f s = x) m fun _ s => f s = x := by
  constructor
  · intro h x
    exact h.triple (· = x)
  · intro h s a s' run
    exact h (f s) s a s' rfl run

theorem Keeps.bind (first : Keeps f m) (rest : ∀ a, Keeps f (k a)) : Keeps f (m >>= k) := by
  intro s b s' run
  obtain ⟨a, s1, runM, runK⟩ := bind_run_eq_ok.1 run
  exact (rest a s1 b s' runK).trans (first s a s1 runM)

theorem Keeps.map (h : Keeps f m) (g : α → β) : Keeps f (g <$> m) := by
  intro s b s' run
  obtain ⟨a, runM, -⟩ := map_run_eq_ok.1 run
  exact h s a s' runM

theorem Keeps.pure (a : α) : Keeps f (Pure.pure a : StateT σ (Except ε) α) := by
  intro s b s' run
  cases run
  rfl

theorem Keeps.throw (e : ε) : Keeps f (throw e : StateT σ (Except ε) α) := by
  intro s a s' run
  cases run

theorem Keeps.gets {γ : Type} (g : σ → γ) : Keeps f (gets g : StateT σ (Except ε) γ) := by
  intro s a s' run
  cases run
  rfl

theorem Keeps.modify {g : σ → σ} (same : ∀ s, f (g s) = f s) :
    Keeps f (modify g : StateT σ (Except ε) Unit) := by
  intro s a s' run
  cases run
  exact same s

theorem Keeps.ite {p : Prop} [Decidable p] {m' : StateT σ (Except ε) α} (pos : Keeps f m)
    (neg : Keeps f m') : Keeps f (if p then m else m') := by
  by_cases h : p
  · rwa [if_pos h]
  · rwa [if_neg h]

/-! ## Steps of a relation -/

variable {r : τ → τ → Prop}

theorem Keeps.moves (h : Keeps f m) : Moves f r m := by
  intro s a s' run
  rw [h s a s' run]

theorem Moves.bind (first : Moves f r m) (rest : ∀ a, Moves f r (k a)) : Moves f r (m >>= k) := by
  intro s b s' run
  obtain ⟨a, s₁, runM, runK⟩ := bind_run_eq_ok.1 run
  exact (first s a s₁ runM).trans (rest a s₁ b s' runK)

/-- What is known of the result of the first program can be used for the second one. -/
theorem Moves.bind_of {p : α → Prop} (first : Moves f r m) (result : ∀ s a s', m s = .ok (a, s') → p a)
    (rest : ∀ a, p a → Moves f r (k a)) : Moves f r (m >>= k) := by
  intro s b s' run
  obtain ⟨a, s₁, runM, runK⟩ := bind_run_eq_ok.1 run
  exact (first s a s₁ runM).trans (rest a (result s a s₁ runM) s₁ b s' runK)

theorem Moves.ite {p : Prop} [Decidable p] {m' : StateT σ (Except ε) α} (pos : Moves f r m) (neg : Moves f r m') :
    Moves f r (if p then m else m') := by
  by_cases h : p
  · rwa [if_pos h]
  · rwa [if_neg h]

/-- What the steps keep, the program keeps. -/
theorem Moves.triple {p : τ → Prop} (h : Moves f r m) (step : ∀ x y, r x y → p x → p y) :
    Triple (fun s => p (f s)) m fun _ s => p (f s) := by
  intro s a s' start run
  have path := h s a s' run
  generalize f s' = y at path ⊢
  induction path with
  | refl => exact start
  | tail _ last ih => exact step _ _ last ih

end Rules

/-! ## Single runs -/

section Runs

variable {Q : α → σ → Prop} {R : β → σ → Prop} {m : StateT σ (Except ε) α}
  {k : α → StateT σ (Except ε) β} {s s' : σ} {a : α}

@[simp] theorem run_pure : (pure a : StateT σ (Except ε) α) s = .ok (a, s) := rfl

@[simp] theorem run_gets (g : σ → τ) : (gets g : StateT σ (Except ε) τ) s = .ok (g s, s) := rfl

@[simp] theorem run_modify (g : σ → σ) :
    (modify g : StateT σ (Except ε) Unit) s = .ok ((), g s) := rfl

@[simp] theorem run_throw (e : ε) : (throw e : StateT σ (Except ε) α) s = .error e := rfl

theorem run_bind (h : m s = .ok (a, s')) : (m >>= k) s = k a s' := by
  show (m s >>= fun r => k r.1 r.2) = _
  rw [h]
  rfl

theorem run_bind_error {e : ε} (h : m s = .error e) : (m >>= k) s = .error e := by
  show (m s >>= fun r => k r.1 r.2) = _
  rw [h]
  rfl

theorem Ends.mono {Q' : α → σ → Prop} (h : Ends m s Q) (post : ∀ a s', Q a s' → Q' a s') :
    Ends m s Q' := by
  obtain ⟨a, s', run, done⟩ := h
  exact ⟨a, s', run, post a s' done⟩

end Runs

end OsLab.Triples
