import OsLab.Kernel.Debug
import Mathlib.Data.List.Basic

/-!
# Tasks and context switches (`kmt.c`)

The task list and the table `current` of the running tasks, with the functions of `kmt.c`
that read and write them. A `task_node` is identified by its address, so that pointers into
the list are compared as the code compares them. Each function here runs under
`context_lock` or `task_lock` and is one atomic step.

Processor contexts are opaque values of a type `Ctx`; `_kcontext` of the abstract machine is
the parameter `kcontext`. The counters are `Nat`: every task owns a stack of `STACK_SIZE`
bytes in a heap of less than `2 ^ 32`, so `task_count` stays below `2 ^ 19`.
-/

namespace OsLab.Kernel.Kmt

/-- `STACK_SIZE` -/
def stackSize : Nat := 8192

/-- `N_FILE` -/
def nFile : Nat := 16

/-- `enum _task_state` -/
inductive TaskState where
  | free
  | working
  deriving DecidableEq, Repr

/-- `_Area`: the memory `[start, stop)`. -/
structure Area where
  start : Nat
  stop : Nat

/-- `struct task`. Code, arguments, stacks and files are addresses. -/
structure Task (Ctx : Type) where
  tid : Nat
  name : String
  entry : Nat
  arg : Nat
  context : Ctx
  stack : Nat
  cpu : Nat
  state : TaskState
  fildes : List Nat

/-- `task_node`, with its own address; `next` is the position in the list. -/
structure Node (Ctx : Type) where
  addr : Nat
  task : Task Ctx

/-- The static variables of `kmt.c`. A missing `current` task is the `NULL` pointer. -/
structure State (Ctx : Type) where
  head : List (Node Ctx)
  current : Nat → Option Nat
  taskCount : Nat

/-- A `_Context *`: the context saved by the trapping processor, which `trap` has been given,
or the field `context` of the task of a node. -/
inductive ContextPtr where
  | passed
  | ofTask (node : Nat)
  deriving DecidableEq, Repr

variable {Ctx : Type}

/-- The state after `init`, before the first task. -/
def init : State Ctx := ⟨[], fun _ => none, 0⟩

/-- The node at an address. -/
def deref (head : List (Node Ctx)) (addr : Nat) : Option (Node Ctx) :=
  head.find? fun n => n.addr = addr

/-- A store into the task of the node at `addr`, seen by the node `n`. -/
def Node.store (addr : Nat) (f : Task Ctx → Task Ctx) (n : Node Ctx) : Node Ctx :=
  if n.addr = addr then { n with task := f n.task } else n

/-- A store into the task of the node at `addr`. -/
def update (head : List (Node Ctx)) (addr : Nat) (f : Task Ctx → Task Ctx) : List (Node Ctx) :=
  head.map (Node.store addr f)

/-- `get_task` -/
def getTask : List (Node Ctx) → Nat → Option (Node Ctx)
  | [], _ => none
  | cur :: _, 0 => some cur
  | _ :: next, position + 1 => getTask next position

/-- The loop of `find_task_index`. -/
def findTaskIndexFrom (target : Option Nat) : List (Node Ctx) → Int → Int
  | [], _ => -1
  | cur :: next, ans => if some cur.addr = target then ans else findTaskIndexFrom target next (ans + 1)

/-- `find_task_index` -/
def findTaskIndex (head : List (Node Ctx)) (target : Option Nat) : Int :=
  findTaskIndexFrom target head 0

/-- The loop of `get_last_task`. -/
def getLastTaskFrom (ans : Option (Node Ctx)) : List (Node Ctx) → Option (Node Ctx)
  | [] => ans
  | cur :: next => getLastTaskFrom (some cur) next

/-- `get_last_task` -/
def getLastTask (head : List (Node Ctx)) : Option (Node Ctx) := getLastTaskFrom head.head? head

/-- `last->next = tn` -/
def link (last : Nat) (tn : Node Ctx) : List (Node Ctx) → List (Node Ctx)
  | [] => []
  | cur :: next => if cur.addr = last then [cur, tn] else cur :: link last tn next

/-- The context that `create` gives to a task. -/
def initialContext (kcontext : Area → Nat → Nat → Ctx) (task : Task Ctx) : Ctx :=
  kcontext ⟨task.stack, task.stack + stackSize - 1⟩ task.entry task.arg

/-- `create`, where `pmm->alloc` answers `stack` and `tn`. -/
def create (kcontext : Area → Nat → Nat → Ctx) (ncpu stack tn : Nat) (name : String)
    (entry arg : Nat) (s : State Ctx) : Except Halt (State Ctx) := do
  if ncpu = 0 then throw .divZero
  let cpu := s.taskCount % ncpu
  kassert (stack ≠ 0) "No space for task %s's stack."
  let context := kcontext ⟨stack, stack + stackSize - 1⟩ entry arg
  if tn = 0 then throw .nullDeref
  let count := s.taskCount + 1
  let node : Node Ctx :=
    ⟨tn, ⟨count, name, entry, arg, context, stack, cpu, .free, List.replicate nFile 0⟩⟩
  if s.head = [] then
    return { s with head := [node], taskCount := count }
  else
    match getLastTask s.head with
    | none => throw (.assert "last is NULL")
    | some last => return { s with head := link last.addr node s.head, taskCount := count }

/-- `context_save` on the processor `cpu`; it returns `NULL`. -/
def contextSave (cpu : Nat) (context : Ctx) (s : State Ctx) : Except Halt (Option ContextPtr × State Ctx) :=
  match s.current cpu with
  | none => .ok (none, s)
  | some cur => .ok (none, { s with head := update s.head cur fun t => { t with context := context } })

/-- The search of `context_switch` for a free task of `cpu`, from `tk` at `index` on. -/
def searchTask (cpu count : Nat) (head : List (Node Ctx)) :
    Nat → Nat → Option (Node Ctx) → Except Halt (Node Ctx)
  | 0, _, _ => .error .diverge
  | _ + 1, _, none => .error .nullDeref
  | fuel + 1, index, some tk =>
    if tk.task.state = .free ∧ tk.task.cpu = cpu then
      .ok tk
    else
      searchTask cpu count head fuel ((index + 1) % count) (getTask head ((index + 1) % count))

/-- The switch away from the current task of `cpu`, which becomes free. -/
def releaseCurrent (cpu : Nat) (s : State Ctx) : Except Halt (State Ctx) :=
  match s.current cpu with
  | none => .ok s
  | some cur =>
    match deref s.head cur with
    | none => .error .nullDeref
    | some n => do
      kassert (n.task.state = .working) "Not working when switch from."
      return { s with head := update s.head cur fun t => { t with state := .free } }

/-- The switch to the node at `tk`. -/
def switchTo (cpu tk : Nat) (s : State Ctx) : State Ctx :=
  { s with
    head := update s.head tk fun t => { t with state := .working, cpu := cpu }
    current := fun c => if c = cpu then some tk else s.current c }

/-- `context_switch` on the processor `cpu`. The search reads each of the `task_count` tasks
once before it meets one again, so `task_count` rounds are all there is to model. -/
def contextSwitch (cpu : Nat) (s : State Ctx) : Except Halt (Option ContextPtr × State Ctx) := do
  let index := (findTaskIndex s.head (s.current cpu) + 1).toNat
  if s.taskCount = 0 then throw .divZero
  let tk := getTask s.head (index % s.taskCount)
  kassert (tk.isSome) "No task to switch."
  let s ← releaseCurrent cpu s
  -- the tasks are read again: releasing the current one may have freed `tk` itself
  let tk ← searchTask cpu s.taskCount s.head s.taskCount index (getTask s.head (index % s.taskCount))
  return (some (.ofTask tk.addr), switchTo cpu tk.addr s)

/-- What a `_Context *` points to, in a trap that has been given `context`. -/
def load (s : State Ctx) (context : Ctx) : ContextPtr → Option Ctx
  | .passed => some context
  | .ofTask node => (deref s.head node).map fun n => n.task.context

end OsLab.Kernel.Kmt
