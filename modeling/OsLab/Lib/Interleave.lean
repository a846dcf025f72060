import Mathlib.Logic.Relation

/-!
# Programs of atomic actions, interleaved

A `Prog` does one atomic action after the other on a shared state. `Ensures A R G Q` is the
rely/guarantee judgement: whatever the others do within `R` between two actions, each action stays
within `G`, and `Q` holds of the value in the end. Only runs count whose states satisfy `A`. Two
programs that rely on each other's guarantee ensure what they ensure however their actions are
interleaved (`steps_ensures`).
-/

namespace OsLab.Interleave

/-- A program on states `σ`: it ends with a value, fails, or does an action. An action waits until
it is ready, changes the state, and goes on by what it found. -/
inductive Prog (σ ε α : Type) where
  | done (a : α)
  | fail (e : ε)
  | act (ready : σ → Bool) (update : σ → σ) (next : σ → Prog σ ε α)

namespace Prog

variable {σ ν ε α β : Type}

def bind : Prog σ ε α → (α → Prog σ ε β) → Prog σ ε β
  | done a, f => f a
  | fail e, _ => fail e
  | act ready update next, f => act ready update fun s => (next s).bind f

instance : Monad (Prog σ ε) where
  pure := done
  bind := bind

@[simp] theorem done_bind (a : α) (f : α → Prog σ ε β) : (done a : Prog σ ε α) >>= f = f a := rfl

@[simp] theorem fail_bind (e : ε) (f : α → Prog σ ε β) :
    (fail e : Prog σ ε α) >>= f = fail e := rfl

@[simp] theorem act_bind (ready : σ → Bool) (update : σ → σ) (next : σ → Prog σ ε α)
    (f : α → Prog σ ε β) :
    act ready update next >>= f = act ready update fun s => next s >>= f := rfl

theorem bind_assoc {γ : Type} (p : Prog σ ε α) (f : α → Prog σ ε β) (g : β → Prog σ ε γ) :
    p >>= f >>= g = p >>= fun a => f a >>= g := by
  induction p with
  | done a => rfl
  | fail e => rfl
  | act ready update next ih => simp only [act_bind, ih]

@[simp] theorem bind_done (p : Prog σ ε α) : p >>= done = p := by
  induction p with
  | done a => rfl
  | fail e => rfl
  | act ready update next ih => simp only [act_bind, ih]

/-- The program with its actions on a part of the state. -/
def lift (get : σ → ν) (set : σ → ν → σ) : Prog ν ε α → Prog σ ε α
  | done a => done a
  | fail e => fail e
  | act ready update next =>
    act (fun s => ready (get s)) (fun s => set s (update (get s))) fun s => (next (get s)).lift get set

/-- Nobody else acts: the program takes state `s` to `s'` and ends with `a`. -/
def Alone : Prog σ ε α → σ → α → σ → Prop
  | done b, s, a, s' => b = a ∧ s = s'
  | fail _, _, _, _ => False
  | act ready update next, s, a, s' => ready s = true ∧ (next s).Alone (update s) a s'

theorem alone_bind {p : Prog σ ε α} {f : α → Prog σ ε β} {s s'' : σ} {b : β} :
    (p >>= f).Alone s b s'' ↔ ∃ a s', p.Alone s a s' ∧ (f a).Alone s' b s'' := by
  induction p generalizing s with
  | done a =>
    constructor
    · exact fun run => ⟨a, s, ⟨rfl, rfl⟩, run⟩
    · rintro ⟨_, _, ⟨rfl, rfl⟩, run⟩
      exact run
  | fail e => simp [Alone]
  | act ready update next ih => simp only [act_bind, Alone, ih, and_assoc, exists_and_left]

/-! ## Rely and guarantee -/

/-- Between the actions the others stay within `R`; each action that leads to a state with `A` stays
within `G`, and if the program ends, `Q` holds of its value from then on. -/
def Ensures (A : σ → Prop) (R G : σ → σ → Prop) (Q : α → σ → Prop) : Prog σ ε α → σ → Prop
  | done a, s => ∀ s', R s s' → Q a s'
  | fail _, _ => True
  | act ready update next, s => ∀ s', R s s' → ready s' = true → A (update s') →
      G s' (update s') ∧ (next s').Ensures A R G Q (update s')

section Ensures

variable {A : σ → Prop} {R G : σ → σ → Prop} {Q Q' : α → σ → Prop} {p : Prog σ ε α} {s s' : σ}

theorem Ensures.mono (h : p.Ensures A R G Q s) (post : ∀ a s, Q a s → Q' a s) :
    p.Ensures A R G Q' s := by
  induction p generalizing s with
  | done a => exact fun s' others => post a s' (h s' others)
  | fail e => trivial
  | act ready update next ih =>
    intro s' others now good
    obtain ⟨kept, rest⟩ := h s' others now good
    exact ⟨kept, ih s' rest⟩

/-- What a program ensures it still ensures after the others have acted. -/
theorem Ensures.stable (trans : ∀ a b c, R a b → R b c → R a c) (h : p.Ensures A R G Q s)
    (others : R s s') : p.Ensures A R G Q s' := by
  cases p with
  | done a => exact fun s'' more => h s'' (trans _ _ _ others more)
  | fail e => trivial
  | act ready update next => exact fun s'' more now => h s'' (trans _ _ _ others more) now

theorem Ensures.bind {f : α → Prog σ ε β} {Q' : β → σ → Prop} (refl : ∀ s, R s s)
    (h : p.Ensures A R G Q s) (rest : ∀ a s', Q a s' → (f a).Ensures A R G Q' s') :
    (p >>= f).Ensures A R G Q' s := by
  induction p generalizing s with
  | done a => exact rest a s (h s (refl s))
  | fail e => trivial
  | act ready update next ih =>
    intro s' others now good
    obtain ⟨kept, more⟩ := h s' others now good
    exact ⟨kept, ih s' more⟩

end Ensures

/-! ## Working on a part of the state -/

/-- The program only reads, and if all states it meets satisfy `I`, it ends with `Q`. -/
def Reads (I : σ → Prop) (Q : α → Prop) : Prog σ ε α → Prop
  | done a => Q a
  | fail _ => True
  | act ready update next => ∀ s, I s → ready s = true → update s = s ∧ (next s).Reads I Q

/-- All states to which the program comes from `s`, alone, satisfy `I`. -/
def Visits (I : σ → Prop) : Prog σ ε α → σ → Prop
  | done _, _ => True
  | fail _, _ => True
  | act ready update next, s => ready s = true → I (update s) ∧ (next s).Visits I (update s)

section Parts

variable {I : σ → Prop} {Q : α → Prop} {p : Prog σ ε α} {s : σ}

theorem Reads.bind {Q' : β → Prop} {f : α → Prog σ ε β} (h : p.Reads I Q)
    (rest : ∀ a, Q a → (f a).Reads I Q') : (p >>= f).Reads I Q' := by
  induction p with
  | done a => exact rest a h
  | fail e => trivial
  | act ready update next ih =>
    intro s meets now
    obtain ⟨same, more⟩ := h s meets now
    exact ⟨same, ih s more⟩

theorem Visits.bind {f : α → Prog σ ε β} (h : p.Visits I s)
    (rest : ∀ a s', p.Alone s a s' → (f a).Visits I s') : (p >>= f).Visits I s := by
  induction p generalizing s with
  | done a => exact rest a s ⟨rfl, rfl⟩
  | fail e => trivial
  | act ready update next ih =>
    intro now
    obtain ⟨here, more⟩ := h now
    exact ⟨here, ih s more fun a s' run => rest a s' ⟨now, run⟩⟩

variable {A : ν → Prop} {R G : ν → ν → Prop} {J : ν → Prop} {get : ν → σ} {set : ν → σ → ν} {w : ν}

/-- A program that reads a part of the state, under an assertion that the others keep. -/
theorem Reads.lift (set_get : ∀ w, set w (get w) = w) (others : ∀ w w', J w → R w w' → J w')
    (meets : ∀ w, J w → I (get w)) (own : ∀ w, J w → G w w) (start : J w) (h : p.Reads I Q) :
    (p.lift get set).Ensures A R G (fun a w => J w ∧ Q a) w := by
  induction p generalizing w with
  | done a => exact fun w' acts => ⟨others w w' start acts, h⟩
  | fail e => trivial
  | act ready update next ih =>
    intro w' acts now good
    have still := others w w' start acts
    obtain ⟨same, rest⟩ := h _ (meets w' still) now
    dsimp only
    rw [same, set_get]
    exact ⟨own w' still, ih _ still rest⟩

/-- A program on a part of the state that the others leave alone. -/
theorem Visits.lift (get_set : ∀ w v, get (set w v) = v)
    (others : ∀ w w', J w → R w w' → J w' ∧ get w' = get w)
    (own : ∀ w v, J w → I v → A (set w v) → J (set w v) ∧ G w (set w v)) (start : J w)
    (h : p.Visits I (get w)) :
    (p.lift get set).Ensures A R G (fun a w' => J w' ∧ p.Alone (get w) a (get w')) w := by
  induction p generalizing w with
  | done a =>
    intro w' acts
    obtain ⟨still, same⟩ := others w w' start acts
    exact ⟨still, rfl, same.symm⟩
  | fail e => trivial
  | act ready update next ih =>
    intro w' acts now good
    obtain ⟨still, same⟩ := others w w' start acts
    dsimp only at now good ⊢
    rw [same] at now good ⊢
    obtain ⟨here, rest⟩ := h now
    obtain ⟨kept, guar⟩ := own w' _ still here good
    refine ⟨guar, (ih (get w) kept ?_).mono fun a w'' ⟨later, run⟩ => ⟨later, now, ?_⟩⟩
    · rw [get_set]
      exact rest
    · rw [get_set] at run
      exact run

end Parts

end Prog

/-! ## Two programs -/

section Two

variable {σ ε α β : Type}

/-- The state and what is left of the two programs. -/
structure Both (σ ε α β : Type) where
  state : σ
  left : Prog σ ε α
  right : Prog σ ε β

/-- One of the programs does its next action. -/
inductive Step : Both σ ε α β → Both σ ε α β → Prop
  | left {s : σ} {ready : σ → Bool} {update : σ → σ} {next : σ → Prog σ ε α} {q : Prog σ ε β}
      (now : ready s = true) : Step ⟨s, .act ready update next, q⟩ ⟨update s, next s, q⟩
  | right {s : σ} {ready : σ → Bool} {update : σ → σ} {next : σ → Prog σ ε β} {p : Prog σ ε α}
      (now : ready s = true) : Step ⟨s, p, .act ready update next⟩ ⟨update s, p, next s⟩

/-- Any number of actions, in any order, each of which leads to a state with `A`. -/
abbrev Steps (A : σ → Prop) : Both σ ε α β → Both σ ε α β → Prop :=
  Relation.ReflTransGen fun c c' => Step c c' ∧ A c'.state

variable {A I : σ → Prop} {R₁ G₁ R₂ G₂ : σ → σ → Prop} {Q₁ : α → σ → Prop} {Q₂ : β → σ → Prop}
  {c c' : Both σ ε α β}

/-- Programs that rely on each other's guarantee keep an invariant and ensure what they ensure,
whatever the order of their actions. -/
theorem steps_ensures (trans₁ : ∀ a b c, R₁ a b → R₁ b c → R₁ a c)
    (trans₂ : ∀ a b c, R₂ a b → R₂ b c → R₂ a c) (refl₁ : ∀ s, R₁ s s) (refl₂ : ∀ s, R₂ s s)
    (kept₁ : ∀ a b, I a → G₁ a b → I b ∧ R₂ a b) (kept₂ : ∀ a b, I a → G₂ a b → I b ∧ R₁ a b)
    (left : c.left.Ensures A R₁ G₁ Q₁ c.state) (right : c.right.Ensures A R₂ G₂ Q₂ c.state)
    (start : I c.state) (steps : Steps A c c') :
    I c'.state ∧ c'.left.Ensures A R₁ G₁ Q₁ c'.state ∧ c'.right.Ensures A R₂ G₂ Q₂ c'.state := by
  induction steps with
  | refl => exact ⟨start, left, right⟩
  | tail _ step ih =>
    obtain ⟨inv, left, right⟩ := ih
    obtain ⟨step, good⟩ := step
    cases step with
    | left now =>
      obtain ⟨guar, rest⟩ := left _ (refl₁ _) now good
      obtain ⟨inv', rely⟩ := kept₁ _ _ inv guar
      exact ⟨inv', rest, right.stable trans₂ rely⟩
    | right now =>
      obtain ⟨guar, rest⟩ := right _ (refl₂ _) now good
      obtain ⟨inv', rely⟩ := kept₂ _ _ inv guar
      exact ⟨inv', left.stable trans₁ rely, rest⟩

/-- The left program goes through its first part, and the right one waits. -/
theorem steps_alone {γ : Type} {p : Prog σ ε γ} {f : γ → Prog σ ε α} {q : Prog σ ε β} {g : γ} {s s' : σ}
    (run : p.Alone s g s') : Steps (fun _ => True) ⟨s, p >>= f, q⟩ ⟨s', f g, q⟩ := by
  induction p generalizing s with
  | done a =>
    obtain ⟨rfl, rfl⟩ := run
    exact .refl
  | fail e => exact run.elim
  | act ready update next ih =>
    obtain ⟨now, rest⟩ := run
    exact .head ⟨.left now, trivial⟩ (ih s rest)

/-- The programs in the other order. -/
def Both.swap (c : Both σ ε α β) : Both σ ε β α := ⟨c.state, c.right, c.left⟩

theorem steps_swap (steps : Steps A c c') : Steps A c.swap c'.swap := by
  induction steps with
  | refl => exact .refl
  | tail _ step ih =>
    obtain ⟨step, good⟩ := step
    refine ih.tail ⟨?_, good⟩
    cases step with
    | left now => exact .right now
    | right now => exact .left now

theorem steps_alone_right {γ : Type} {p : Prog σ ε γ} {f : γ → Prog σ ε α} {q : Prog σ ε β} {g : γ} {s s' : σ}
    (run : p.Alone s g s') : Steps (fun _ => True) ⟨s, q, p >>= f⟩ ⟨s', q, f g⟩ :=
  steps_swap (steps_alone run)

/-- The next action of one of the programs (`false` for the left one), if it has one, is ready and leads
to a state with `ok`. -/
def Both.turn (ok : σ → Bool) (c : Both σ ε α β) : Bool → Both σ ε α β
  | false =>
    match c with
    | ⟨s, .act ready update next, q⟩ => if ready s && ok (update s) then ⟨update s, next s, q⟩ else c
    | _ => c
  | true =>
    match c with
    | ⟨s, p, .act ready update next⟩ => if ready s && ok (update s) then ⟨update s, p, next s⟩ else c
    | _ => c

/-- The programs take turns. -/
def Both.play (ok : σ → Bool) (c : Both σ ε α β) (turns : List Bool) : Both σ ε α β :=
  turns.foldl (Both.turn ok) c

theorem steps_turn (ok : σ → Bool) (c : Both σ ε α β) (t : Bool) :
    Steps (fun s => ok s = true) c (c.turn ok t) := by
  obtain ⟨s, p, q⟩ := c
  cases t with
  | false =>
    cases p with
    | act ready update next =>
      simp only [Both.turn]
      split
      · rename_i both
        rw [Bool.and_eq_true] at both
        exact .single ⟨.left both.1, both.2⟩
      · exact .refl
    | done a => exact .refl
    | fail e => exact .refl
  | true =>
    cases q with
    | act ready update next =>
      simp only [Both.turn]
      split
      · rename_i both
        rw [Bool.and_eq_true] at both
        exact .single ⟨.right both.1, both.2⟩
      · exact .refl
    | done a => exact .refl
    | fail e => exact .refl

theorem steps_play (ok : σ → Bool) (c : Both σ ε α β) (turns : List Bool) :
    Steps (fun s => ok s = true) c (c.play ok turns) := by
  unfold Both.play
  induction turns generalizing c with
  | nil => exact .refl
  | cons t turns ih => exact (steps_turn ok c t).trans (ih _)

/-- The value of a program that has ended. -/
def Prog.value : Prog σ ε α → Option α
  | .done a => some a
  | _ => none

theorem Prog.value_eq_some {p : Prog σ ε α} {a : α} (h : p.value = some a) : p = .done a := by
  cases p with
  | done b => rw [Option.some.inj h]
  | fail e => cases h
  | act ready update next => cases h

/-- Turns at whose end both programs have ended. -/
theorem steps_ended {ok : σ → Bool} {turns : List Bool} {a : α} {b : β}
    (left : (c.play ok turns).left.value = some a) (right : (c.play ok turns).right.value = some b) :
    Steps (fun s => ok s = true) c ⟨(c.play ok turns).state, .done a, .done b⟩ := by
  rw [← Prog.value_eq_some left, ← Prog.value_eq_some right]
  exact steps_play ok c turns

end Two

end OsLab.Interleave
