import OsLab.Kernel.Kmt.Model
import OsLab.Lib.Permits

/-!
# Semaphores (`kmt.c`)

`sem_wait` and `sem_signal` as tasks and interrupt handlers run them, on any processors. A
part of the code between `spin_lock` and `spin_unlock` is one step. Between the rounds of
the loop of `sem_wait`, which yields, everything else can happen.
-/

namespace OsLab.Kernel.Kmt

open Permits

/-- `INT_MAX` -/
def intMax : Int := 2 ^ 31 - 1

/-- `struct semaphore` without its lock. -/
structure Sem where
  name : String
  value : Int

/-- `sem_init` -/
def semInit (name : String) (value : Int) : Sem := ⟨name, value⟩

/-- The assertion at the start of `sem_wait`. -/
def semWaitEnter (current : Option Nat) : Except Halt Unit :=
  kassert current.isSome "Wait on no cpu."

/-- One round of the loop of `sem_wait` under `sem->lock`: whether the loop ends with it. -/
def semWaitRound (sem : Sem) : Bool × Sem :=
  if 0 < sem.value then (true, { sem with value := sem.value - 1 }) else (false, sem)

/-- The assertion at the start of `sem_signal`. -/
def semSignalEnter (current : Option Nat) : Except Halt Unit :=
  kassert current.isSome "Signal on no cpu."

/-- The part of `sem_signal` under `sem->lock`. -/
def semIncrement (sem : Sem) : Except Halt Sem :=
  if sem.value < intMax then .ok { sem with value := sem.value + 1 } else .error .overflow

/-- `sem_signal`, without a break. -/
def semSignal (current : Option Nat) (sem : Sem) : Except Halt Sem := do
  semSignalEnter current
  semIncrement sem

namespace Semaphore

/-- Where a task or a handler is in the code of the semaphore. -/
inductive Pc where
  | outside
  /-- In `sem_wait` before `spin_lock`: the first one, or the one after a yield. -/
  | wait
  /-- In `sem_signal` before `spin_lock`. -/
  | signal
  deriving DecidableEq

/-- The semaphore, the current tasks of the processors, and where every thread of control is:
every task, and every handler that has interrupted one. -/
structure State (Thread : Type) where
  sem : Sem
  current : Nat → Option Nat
  pc : Thread → Pc

variable {Thread : Type} [DecidableEq Thread]

def State.goto (s : State Thread) (t : Thread) (pc : Pc) : State Thread :=
  { s with pc := Function.update s.pc t pc }

/-- The steps of a thread `t` on a processor `cpu`, with the permit it takes or gives. -/
inductive Step (cpu : Nat) (t : Thread) (s : State Thread) :
    Except Halt (State Thread) → List (Event Thread) → Prop where
  | callWait : s.pc t = .outside →
      Step cpu t s (semWaitEnter (s.current cpu) >>= fun _ => .ok (s.goto t .wait)) []
  | take {sem : Sem} : s.pc t = .wait → semWaitRound s.sem = (true, sem) →
      Step cpu t s (.ok { s.goto t .outside with sem := sem }) [⟨t, .wait⟩]
  | yield {sem : Sem} : s.pc t = .wait → semWaitRound s.sem = (false, sem) →
      Step cpu t s (.ok { s with sem := sem }) []
  | callSignal : s.pc t = .outside →
      Step cpu t s (semSignalEnter (s.current cpu) >>= fun _ => .ok (s.goto t .signal)) []
  | give : s.pc t = .signal →
      Step cpu t s (semIncrement s.sem >>= fun sem => .ok { s.goto t .outside with sem := sem })
        [⟨t, .signal⟩]

/-- The states that any steps of any threads on any processors reach from a semaphore of
value `v`, and what they did to it, newest first. The scheduler changes the current tasks. -/
inductive Run (name : String) (v : Int) : State Thread → List (Event Thread) → Prop where
  | init (current : Nat → Option Nat) : Run name v ⟨semInit name v, current, fun _ => .outside⟩ []
  | schedule {s : State Thread} {hist : List (Event Thread)} (current : Nat → Option Nat) :
      Run name v s hist → Run name v { s with current := current } hist
  | step {cpu : Nat} {t : Thread} {s s' : State Thread} {hist done : List (Event Thread)} :
      Run name v s hist → Step cpu t s (.ok s') done → Run name v s' (done ++ hist)

variable {name : String} {v : Int} {cpu : Nat} {t : Thread} {s s' : State Thread}
  {hist done : List (Event Thread)}

/-- What a step does to the value. -/
theorem Step.cases_ok (step : Step cpu t s (.ok s') done) :
    (done = [] ∧ s'.sem.value = s.sem.value) ∨
      (done = [⟨t, .wait⟩] ∧ 0 < s.sem.value ∧ s'.sem.value = s.sem.value - 1) ∨
      (done = [⟨t, .signal⟩] ∧ s'.sem.value = s.sem.value + 1) := by
  generalize result : Except.ok s' = r at step
  cases step with
  | callWait =>
    obtain ⟨-, result⟩ := kassert_bind_eq_ok.1 result.symm
    cases result
    exact Or.inl ⟨rfl, rfl⟩
  | take _ round =>
    cases result
    unfold semWaitRound at round
    split at round
    · next left =>
      cases round
      exact Or.inr (Or.inl ⟨rfl, left, rfl⟩)
    · cases round
  | yield _ round =>
    cases result
    unfold semWaitRound at round
    split at round
    · cases round
    · cases round
      exact Or.inl ⟨rfl, rfl⟩
  | callSignal =>
    obtain ⟨-, result⟩ := kassert_bind_eq_ok.1 result.symm
    cases result
    exact Or.inl ⟨rfl, rfl⟩
  | give =>
    obtain ⟨sem, incremented, result⟩ := bind_eq_ok.1 result.symm
    cases result
    unfold semIncrement at incremented
    split at incremented
    · cases incremented
      exact Or.inr (Or.inr ⟨rfl, rfl⟩)
    · cases incremented

/-- The value is the number of permits left, and none is taken when there is none. -/
theorem Run.permits (run : Run name v s hist) : Legal v hist ∧ s.sem.value = permits v hist := by
  induction run with
  | init => exact ⟨.nil, by simp [semInit]⟩
  | schedule _ _ ih => exact ih
  | step _ step ih =>
    obtain ⟨legal, value⟩ := ih
    rcases step.cases_ok with ⟨rfl, same⟩ | ⟨rfl, left, less⟩ | ⟨rfl, more⟩
    · exact ⟨legal, same.trans value⟩
    · rw [value] at left less
      exact ⟨legal.wait _ left, by simp [less]⟩
    · rw [value] at more
      exact ⟨legal.signal _, by simp [more]⟩

/-- **No permit is lost or invented.** In every state that waits and signals of any threads
reach, with the value below `2 ^ 31`, the value is the initial one plus the signals less the
decrements, and not negative. With one permit, waits before and signals after, at most one
thread is between its wait and its signal. -/
theorem permits_conserved (run : Run name v s hist) (initial : 0 ≤ v) :
    s.sem.value = v + signals hist - waits hist ∧ 0 ≤ s.sem.value ∧
      (v = 1 → InTurn hist → ∀ t t', Inside hist t → Inside hist t' → t = t') := by
  obtain ⟨legal, value⟩ := run.permits
  refine ⟨value, ?_, ?_⟩
  · rw [value]
    exact legal.nonneg initial
  · rintro rfl inTurn t t' inside inside'
    exact inTurn.exclusive legal inside inside'

/-- Thread 1 finds no permit and yields; it takes the one that thread 0 gives back. -/
theorem permits_conserved_handover : ∃ s : State Nat, ∃ hist,
    Run "lock" 1 s hist ∧ hist = [⟨1, .wait⟩, ⟨0, .signal⟩, ⟨0, .wait⟩] ∧ s.sem.value = 0 ∧
      Inside hist 1 ∧ ∀ t, Inside hist t → t = 1 := by
  have start : Run "lock" 1 (⟨⟨"lock", 1⟩, some, fun _ => .outside⟩ : State Nat) [] := .init some
  have called := start.step (show Step 0 0 _ _ _ from .callWait rfl)
  have taken := called.step (show Step 0 0 _ _ _ from .take rfl rfl)
  have called' := taken.step (show Step 1 1 _ _ _ from .callWait rfl)
  have yielded := called'.step (show Step 1 1 _ _ _ from .yield rfl rfl)
  have leaving := yielded.step (show Step 0 0 _ _ _ from .callSignal rfl)
  have given := leaving.step (show Step 0 0 _ _ _ from .give rfl)
  have taken' := given.step (show Step 1 1 _ _ _ from .take rfl rfl)
  have inTurn : InTurn ([⟨1, .wait⟩, ⟨0, .signal⟩, ⟨0, .wait⟩] : List (Event Nat)) :=
    .wait (.signal (.wait .nil (by decide)) (by decide)) (by decide)
  obtain ⟨value, -, exclusive⟩ := permits_conserved taken' (by decide)
  refine ⟨_, _, taken', rfl, value, by decide, ?_⟩
  intro t inside
  exact exclusive rfl inTurn t 1 inside (by decide)

end Semaphore

end OsLab.Kernel.Kmt
