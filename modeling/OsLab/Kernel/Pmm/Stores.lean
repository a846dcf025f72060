import OsLab.Kernel.Pmm.Model

/-!
# `free`, store by store

A run of `free` that halts has no state. Here each store is made on the state itself, and a failed assertion leaves it
as the stores before it have made it. But for this state the runs are those of `free` (`outcome_free`).
-/

namespace OsLab.Kernel.Pmm.Stores

open OsLab.Memory

/-- Stores to the memory and to `head`, which stay where an assertion fails behind them. -/
abbrev StoreM := EStateM Halt State

/-- `Assert(cond, msg)` -/
def assert (p : Prop) [Decidable p] (msg : String) : StoreM Unit := if p then pure () else throw (.assert msg)

/-- `p->field` -/
def load (field : Mem → Nat → Nat) (p : Nat) : StoreM Nat := do return field (← get).mem p

/-- `p->field = v` -/
def store (setField : Mem → Nat → Nat → Mem) (p v : Nat) : StoreM Unit :=
  modify fun s => { s with mem := setField s.mem p v }

/-- `head = v` -/
def setHead (v : Nat) : StoreM Unit := modify fun s => { s with head := v }

/-- `node_init` -/
def nodeInit (nd size : Nat) : StoreM Unit := do
  store setMagic nd nodeMagic
  store setNext nd 0
  store setSize nd size

/-- `node_combine` -/
def nodeCombine (nd : Nat) : StoreM Nat := do
  assert (nd ≠ 0) "combine NULL"
  if (nd + sizeofNode + (← load sizeOf nd)) % 2 ^ 32 ≠ (← load nextOf nd) then
    return 0
  assert ((← load nextOf nd) ≠ 0) "combine next NULL"
  store setSize nd (((← load sizeOf nd) + (← load sizeOf (← load nextOf nd)) + sizeofNode) % 2 ^ 32)
  store setNext nd (← load nextOf (← load nextOf nd))
  return nd

/-- `node_find_position`, which stores nothing. -/
def nodeFindPosition (pos : Nat) : StoreM Nat := fun s =>
  match Pmm.nodeFindPosition s.mem s.head pos with
  | .ok tnd => .ok tnd s
  | .error e => .error e s

/-- `free` -/
def free (ptr : Nat) : StoreM Unit := do
  if ptr = 0 then
    return ()
  let bk := sub32 ptr sizeofNode
  assert ((← load magicOf bk) = blockMagic) "Not a block"
  nodeInit bk (← load sizeOf bk)
  let tnd ← nodeFindPosition bk
  if tnd = 0 then
    store setNext bk (← get).head
    setHead bk
    discard (nodeCombine bk)
  else
    store setNext bk (← load nextOf tnd)
    store setNext tnd bk
    let cmnd ← nodeCombine tnd
    if cmnd = 0 then discard (nodeCombine bk) else discard (nodeCombine tnd)

/-! ## The same runs -/

/-- A result without the state of a run that halts. -/
def outcome {α : Type} : EStateM.Result Halt State α → Except Halt (α × State)
  | .ok a s => .ok (a, s)
  | .error e _ => .error e

section Outcome

variable {α β : Type} {s : State}

theorem outcome_bind (x : StoreM α) (f : α → StoreM β) :
    outcome ((x >>= f).run s) = outcome (x.run s) >>= fun r => outcome ((f r.1).run r.2) := by
  rw [EStateM.run_bind]
  cases x.run s with
  | ok a s' => rfl
  | error e s' => rfl

/-- Behind an assertion that holds the run goes on, behind another it is over and has stored nothing more. -/
theorem run_assert {p : Prop} [Decidable p] {msg : String} (f : Unit → StoreM α) :
    (assert p msg >>= f).run s = if p then (f ()).run s else .error (.assert msg) s := by
  unfold assert
  split <;> rfl

theorem run_load (field : Mem → Nat → Nat) (p : Nat) (f : Nat → StoreM α) :
    (load field p >>= f).run s = (f (field s.mem p)).run s := rfl

theorem run_get (f : State → StoreM α) : (get >>= f).run s = (f s).run s := rfl

theorem run_store (setField : Mem → Nat → Nat → Mem) (p v : Nat) (f : Unit → StoreM α) :
    (store setField p v >>= f).run s = (f ()).run { s with mem := setField s.mem p v } := rfl

theorem run_setHead (v : Nat) (f : Unit → StoreM α) : (setHead v >>= f).run s = (f ()).run { s with head := v } := rfl

theorem run_nodeInit (nd size : Nat) (f : Unit → StoreM α) :
    (nodeInit nd size >>= f).run s = (f ()).run { s with mem := Pmm.nodeInit s.mem nd size } := rfl

theorem outcome_nodeFindPosition (pos : Nat) (f : Nat → StoreM α) :
    outcome ((nodeFindPosition pos >>= f).run s) =
      Pmm.nodeFindPosition s.mem s.head pos >>= fun tnd => outcome ((f tnd).run s) := by
  rw [outcome_bind]
  unfold nodeFindPosition EStateM.run
  dsimp only
  cases Pmm.nodeFindPosition s.mem s.head pos with
  | ok tnd => rfl
  | error e => rfl

theorem outcome_nodeCombine (nd : Nat) : outcome ((nodeCombine nd).run s) =
    Pmm.nodeCombine s.mem nd >>= fun r => .ok (r.1, { s with mem := r.2 }) := by
  unfold nodeCombine Pmm.nodeCombine
  rw [run_assert, run_load, run_load]
  by_cases node : nd ≠ 0
  · rw [if_pos node, kassert_pos node, ok_bind]
    split
    · rfl
    · rw [run_load, run_assert]
      by_cases next : nextOf s.mem nd ≠ 0
      · rw [if_pos next, kassert_pos next, ok_bind]
        rfl
      · rw [if_neg next, kassert_neg next]
        rfl
  · rw [if_neg node, kassert_neg node]
    rfl

theorem outcome_discard (nd : Nat) : outcome ((discard (nodeCombine nd)).run s) =
    Pmm.nodeCombine s.mem nd >>= fun r => .ok ((), { s with mem := r.2 }) := by
  have same : discard (nodeCombine nd) = (nodeCombine nd >>= fun _ => pure () : StoreM Unit) := rfl
  rw [same, outcome_bind, outcome_nodeCombine, bind_assoc]
  rfl

/-- A run returns exactly if that of `free` does, and in the same state; if it halts, both halt alike. -/
theorem outcome_free (ptr : Nat) : outcome ((free ptr).run s) = Pmm.free s ptr >>= fun s' => .ok ((), s') := by
  unfold free Pmm.free
  split
  · rfl
  · dsimp only
    rw [run_load, run_assert]
    by_cases block : magicOf s.mem (sub32 ptr sizeofNode) = blockMagic
    · rw [if_pos block, kassert_pos block, ok_bind, run_load]
      rw [run_nodeInit, outcome_nodeFindPosition, bind_assoc]
      refine bind_congr fun tnd => ?_
      by_cases first : tnd = 0
      · rw [if_pos first, if_pos first]
        rw [run_get, run_store, run_setHead, outcome_discard, bind_assoc]
        rfl
      · rw [if_neg first, if_neg first, run_load, run_store, run_store, outcome_bind, outcome_nodeCombine]
        dsimp only
        rw [bind_assoc, bind_assoc]
        refine bind_congr fun r => ?_
        rw [ok_bind]
        split
        · rw [outcome_discard, bind_assoc]
          rfl
        · rw [outcome_discard, bind_assoc]
          rfl
    · rw [if_neg block, kassert_neg block]
      rfl

end Outcome

end OsLab.Kernel.Pmm.Stores
