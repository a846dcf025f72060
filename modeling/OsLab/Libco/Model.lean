import Mathlib.Data.List.FinRange
import Mathlib.Logic.Function.Basic

/-!
# Coroutines (`libco/co.c`)

A program of coroutines runs on several stacks: that of `main` and one for each place in the table
`coroutines`. A context that is not running was saved at one of three places in the code (`Point`),
and `setcontext` goes on from there: `getcontext`, `makecontext` and `swapcontext` are modelled by
what they save and restore. The rest of a program behind a call is a value of a type `Code`, so that
the frames of a stack are the rest of the program and what `co.c` has still to do before it.

`co_func_wrap` returns to its `uc_link`, the context `pctx` of the same coroutine.
-/

namespace OsLab.Libco

/-- `MAX_CO` -/
abbrev maxCo : Nat := 256

/-- An index of `coroutines`; a `struct co *` is one of these or `NULL`. -/
abbrev Slot := Fin maxCo

/-- `co_state` -/
inductive CoState where
  | free
  | init
  | run
  | suspend
  | bewait
  deriving DecidableEq, Repr

/-- Why a program does not go on: `main` has returned, an assertion has failed, or a context was
restored that nothing was saved in. -/
inductive Stop where
  | exit
  | assertion (text : String)
  | wild
  deriving DecidableEq, Repr

/-- A coroutine: the place of its stack, and a number that no other coroutine has. -/
structure Thread where
  slot : Slot
  number : Nat
  deriving DecidableEq, Repr

/-- Who has called `resume_co`, and the rest of the program behind that call. -/
inductive Caller (Code : Type) where
  | coStart (id : Slot) (k : Option Slot → Code)
  | coYield (k : Code)
  | coWait (thd : Slot) (k : Code)

/-- Where a context goes on: at the start of `co_func_wrap`, behind the `swapcontext` of `co_yield`,
or behind that of `resume_co`. -/
inductive Point (Code : Type) where
  | coFuncWrap (thd : Slot)
  | coYield (k : Code)
  | resumeCo (oldCurrent : Option Slot) (caller : Caller Code)

/-- `ucontext_t`: the stack, which is that of a coroutine or of `main`, and the place. -/
structure Context (Code : Type) where
  thread : Option Thread
  point : Point Code

/-- `struct co`; `func` is the function with its argument. -/
structure Co (Code : Type) where
  id : Slot
  func : Option Code
  state : CoState
  ctx : Option (Context Code)
  pctx : Option (Context Code)

/-- What an observer sees: `co_start` has made a coroutine, a coroutine has finished, `co_wait` has returned. -/
inductive Event where
  | started (thd : Slot) (number : Nat)
  | finished (number : Nat)
  | waited (thd : Slot)
  deriving DecidableEq, Repr

/-- The running program: `thread` is the stack in use (`none` that of `main`) and `code` the rest of the
program on it. `mem` is the memory of the program. The newest event is the first of `log`. -/
structure State (Code Mem : Type) where
  coroutines : Slot → Co Code
  currentCo : Option Slot
  thread : Option Thread
  code : Code
  mem : Mem
  log : List Event

/-- What a program does next; `done` is the end of a function. -/
inductive Action (Code : Type) where
  | start (func : Code) (k : Option Slot → Code)
  | yield (k : Code)
  | wait (thd : Slot) (k : Code)
  | done

section Model

variable {Code Mem : Type}

/-- `coroutines[i] = thd` -/
def State.setCo (s : State Code Mem) (i : Slot) (thd : Co Code) : State Code Mem :=
  { s with coroutines := Function.update s.coroutines i thd }

/-- `resume_co` has returned to its caller, which returns. -/
def State.returnTo (s : State Code Mem) : Caller Code → State Code Mem
  | .coStart id k => { s with code := k (some id) }
  | .coYield k => { s with code := k }
  | .coWait thd k => { s with code := k, log := .waited thd :: s.log }

/-- `setcontext` -/
def setcontext (s : State Code Mem) : Option (Context Code) → Except Stop (State Code Mem)
  | none => .error .wild
  | some ⟨thread, .coFuncWrap thd⟩ =>
    match (s.coroutines thd).func with
    | none => .error .wild
    | some func => .ok { s with thread, code := func }
  | some ⟨thread, .coYield k⟩ => .ok { s with thread, code := k }
  | some ⟨thread, .resumeCo oldCurrent caller⟩ =>
    .ok ({ s with thread, currentCo := oldCurrent }.returnTo caller)

/-- The end of `co_func_wrap`, or of `main`. -/
def coFuncWrapEnd (s : State Code Mem) : Except Stop (State Code Mem) :=
  match s.thread with
  | none => .error .exit
  | some thread =>
    let thd := s.coroutines thread.slot
    let s := s.setCo thread.slot { thd with state := .free }
    setcontext { s with currentCo := none, log := .finished thread.number :: s.log } thd.pctx

/-- `get_co` -/
def getCo (s : State Code Mem) (state : CoState) (start : Slot) : Option Slot :=
  ((List.finRange maxCo).map fun i => start + i).find? fun nxt => (s.coroutines nxt).state = state

/-- `create_co`; the number of a coroutine is that of the events before it. -/
def createCo (s : State Code Mem) (rand : Nat) (func : Code) : Option (Slot × State Code Mem) :=
  match getCo s .free (Fin.ofNat maxCo rand) with
  | none => none
  | some id =>
    let number := s.log.length
    let thd : Co Code := { s.coroutines id with
      state := .init, func := some func, ctx := some ⟨some ⟨id, number⟩, .coFuncWrap id⟩ }
    some (id, { s.setCo id thd with log := .started id number :: s.log })

/-- `resume_co` -/
def resumeCo (s : State Code Mem) (id : Option Slot) (caller : Caller Code) :
    Except Stop (State Code Mem) :=
  match id with
  | none => .ok (s.returnTo caller)
  | some id => do
    let thd := s.coroutines id
    if thd.state = .free then .error (.assertion "thd->state != FREE")
    else
      let thd ←
        if thd.state = .suspend ∨ thd.state = .init then .ok { thd with state := .run }
        else if thd.state = .bewait then .ok thd
        else .error (.assertion "0")
      -- swapcontext(&thd->pctx, &thd->ctx)
      let s := s.setCo id { thd with pctx := some ⟨s.thread, .resumeCo s.currentCo caller⟩ }
      setcontext { s with currentCo := some id } thd.ctx

/-- `co_init` -/
def coInit (s : State Code Mem) : State Code Mem :=
  { s with currentCo := none, coroutines := fun i => { s.coroutines i with state := .free, id := i } }

/-- `co_start` -/
def coStart (s : State Code Mem) (rand : Nat) (func : Code) (k : Option Slot → Code) :
    Except Stop (State Code Mem) :=
  match createCo s rand func with
  | none => .ok { s with code := k none }
  | some (id, s) => resumeCo s (some id) (.coStart id k)

/-- `co_yield` -/
def coYield (s : State Code Mem) (rand : Nat) (k : Code) : Except Stop (State Code Mem) :=
  match s.currentCo with
  | none => .ok { s with code := k }
  | some current =>
    let thd := s.coroutines current
    if thd.state = .bewait then
      match getCo s .suspend (Fin.ofNat maxCo rand) with
      | none => .ok { s with code := k }
      | some other => resumeCo s (some other) (.coYield k)
    else if thd.state = .run then
      -- swapcontext(&thd->ctx, &thd->pctx)
      let s := s.setCo current { thd with state := .suspend, ctx := some ⟨s.thread, .coYield k⟩ }
      setcontext s thd.pctx
    else .error (.assertion "0")

/-- `co_wait` -/
def coWait (s : State Code Mem) (thd : Slot) (k : Code) : Except Stop (State Code Mem) :=
  if (s.coroutines thd).state = .free then .ok (s.returnTo (.coWait thd k))
  else
    let s := s.setCo thd { s.coroutines thd with state := .bewait }
    resumeCo s (some (s.coroutines thd).id) (.coWait thd k)

/-! ## Runs -/

/-- The next step of the running program. -/
def step (next : Code → Mem → Action Code × Mem) (rand : Nat) (s : State Code Mem) :
    Except Stop (State Code Mem) :=
  let (action, mem) := next s.code s.mem
  let s := { s with mem }
  match action with
  | .start func k => coStart s rand func k
  | .yield k => coYield s rand k
  | .wait thd k => coWait s thd k
  | .done => coFuncWrapEnd s

/-- `main` after `co_init`; static memory is zero. -/
def initial (main : Code) (mem : Mem) : State Code Mem :=
  coInit ⟨fun _ => ⟨0, none, .free, none, none⟩, none, none, main, mem, []⟩

/-- The active chain: the running coroutine and what has resumed a coroutine of the chain. -/
inductive OnChain (s : State Code Mem) : Slot → Prop
  | running {t : Thread} (thread : s.thread = some t) : OnChain s t.slot
  | resumer {i : Slot} {c : Context Code} {t : Thread} (above : OnChain s i)
      (pctx : (s.coroutines i).pctx = some c) (thread : c.thread = some t) : OnChain s t.slot

/-- The next step is no `co_wait` for a coroutine of the active chain. -/
def Disciplined (next : Code → Mem → Action Code × Mem) (s : State Code Mem) : Prop :=
  ∀ thd k, (next s.code s.mem).1 = .wait thd k → ¬ OnChain s thd

/-- The states that a program leads to, for any results of `rand()`. -/
inductive Reaches (next : Code → Mem → Action Code × Mem) (main : Code) (mem : Mem) :
    State Code Mem → Prop
  | init : Reaches next main mem (initial main mem)
  | step {s s' : State Code Mem} {rand : Nat} (reached : Reaches next main mem s)
      (disciplined : Disciplined next s) (run : Libco.step next rand s = .ok s') :
      Reaches next main mem s'

end Model

end OsLab.Libco
