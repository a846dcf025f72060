import OsLab.Kernel.Debug
import Mathlib.Data.Finset.Card
import Mathlib.Logic.Function.Basic

/-!
# Spinlocks (`kmt.c`)

`spin_lock` and `spin_unlock` as the processors run them. A processor is at a point of the
code (`Pc`); every read, write and exchange of a field of a lock is a step of its own, and so are
`pushcli` and `popcli`, which touch nothing but the data of their processor.

The locks a processor holds and the interrupt flag at its outermost acquire are recorded for
the statements only: no code reads them.
-/

namespace OsLab.Kernel.Spin

/-- `MAX_CPU` -/
def maxCpu : Nat := 8

abbrev Cpu := Fin maxCpu

/-- `struct spinlock` -/
structure SpinLock where
  locked : Int
  cpu : Int

/-- Where a processor is inside `is_holding_spin`: before the step of that name. -/
inductive Check where
  | pushcli
  | readLocked
  | readCpu
  | popcli (r : Bool)
  deriving DecidableEq

/-- Where a processor is in the code of a lock. -/
inductive Pc (Lock : Type) where
  | idle
  /-- In the `is_holding_spin` of `spin_lock`. -/
  | lockCheck (l : Lock) (at' : Check)
  /-- In the loop of `spin_lock`. -/
  | lockXchg (l : Lock)
  /-- Before `lk->cpu = _cpu()`. -/
  | lockCpu (l : Lock)
  /-- In the `is_holding_spin` of `spin_unlock`. -/
  | unlockCheck (l : Lock) (at' : Check)
  /-- Before `lk->cpu = -1`. -/
  | unlockCpu (l : Lock)
  /-- Before the exchange that releases the lock. -/
  | unlockXchg (l : Lock)
  /-- Before the last `popcli`. -/
  | unlockPopcli (l : Lock)

/-- A processor: its interrupt flag, its `cpu_cli` and where it is. -/
structure Core (Lock : Type) where
  intr : Bool
  count : Int
  hasIF : Bool
  pc : Pc Lock
  /-- The locks between the return of `spin_lock` and the call of `spin_unlock`. -/
  held : Finset Lock
  /-- The interrupt flag at the outermost acquire. -/
  entry : Bool

structure State (Lock : Type) where
  locks : Lock → SpinLock
  cores : Cpu → Core Lock

variable {Lock : Type} [DecidableEq Lock]

/-- After `spin_init` of every lock. -/
def init (intr : Cpu → Bool) : State Lock where
  locks := fun _ => ⟨0, -1⟩
  cores := fun c => ⟨intr c, 0, false, .idle, ∅, intr c⟩

def State.setLock (s : State Lock) (l : Lock) (lk : SpinLock) : State Lock :=
  { s with locks := Function.update s.locks l lk }

def State.setCore (s : State Lock) (c : Cpu) (k : Core Lock) : State Lock :=
  { s with cores := Function.update s.cores c k }

/-- `pushcli` -/
def pushcli (k : Core Lock) : Except Halt (Core Lock) := do
  let oldIF := k.intr
  let k := { k with intr := false }
  if k.count = 0 then do
    kassert (k.hasIF = false) "cpu_cli[%d] is not init state"
    return { k with hasIF := oldIF, count := k.count + 1 }
  else
    return { k with count := k.count + 1 }

/-- `popcli` -/
def popcli (k : Core Lock) : Except Halt (Core Lock) := do
  kassert (k.intr = false) "popcli when cli enabled"
  let k := { k with count := k.count - 1 }
  kassert (0 ≤ k.count) "popcli too many times"
  if k.count = 0 ∧ k.hasIF = true then
    return { k with hasIF := false, intr := true }
  else
    return k

/-- A step inside `is_holding_spin`: the next point, or the result. -/
def isHoldingSpin (c : Cpu) (lk : SpinLock) (k : Core Lock) : Check → Except Halt (Core Lock × (Check ⊕ Bool))
  | .pushcli => do
    let k ← pushcli k
    return (k, .inl .readLocked)
  | .readLocked => .ok (k, .inl (if lk.locked ≠ 0 then .readCpu else .popcli false))
  | .readCpu => .ok (k, .inl (.popcli (decide (lk.cpu = (c.val : Int)))))
  | .popcli r => do
    let k ← popcli k
    return (k, .inr r)

/-- The first step of `spin_lock`. -/
def spinLock (c : Cpu) (l : Lock) (s : State Lock) : Except Halt (State Lock) := do
  let k := s.cores c
  let k ← pushcli { k with entry := if k.count = 0 then k.intr else k.entry }
  return s.setCore c { k with pc := .lockCheck l .pushcli }

/-- The call of `spin_unlock`. -/
def spinUnlock (c : Cpu) (l : Lock) (s : State Lock) : State Lock :=
  let k := s.cores c
  s.setCore c { k with pc := .unlockCheck l .pushcli, held := k.held.erase l }

/-- The next step of a processor in the code of a lock. -/
def next (c : Cpu) (s : State Lock) : Except Halt (State Lock) :=
  let k := s.cores c
  match k.pc with
  | .idle => .ok s
  | .lockCheck l at' => do
    let (k, res) ← isHoldingSpin c (s.locks l) k at'
    match res with
    | .inl at' => return s.setCore c { k with pc := .lockCheck l at' }
    | .inr r =>
      kassert (r = false) "acquire %s when holding from %s on cpu %d"
      return s.setCore c { k with pc := .lockXchg l }
  | .lockXchg l =>
    let old := (s.locks l).locked
    let s := s.setLock l { s.locks l with locked := 1 }
    if old ≠ 0 then .ok s else .ok (s.setCore c { k with pc := .lockCpu l })
  | .lockCpu l =>
    .ok ((s.setLock l { s.locks l with cpu := c.val }).setCore c { k with pc := .idle, held := insert l k.held })
  | .unlockCheck l at' => do
    let (k, res) ← isHoldingSpin c (s.locks l) k at'
    match res with
    | .inl at' => return s.setCore c { k with pc := .unlockCheck l at' }
    | .inr r =>
      kassert (r = true) "release %s when not holding"
      return s.setCore c { k with pc := .unlockCpu l }
  | .unlockCpu l => .ok ((s.setLock l { s.locks l with cpu := -1 }).setCore c { k with pc := .unlockXchg l })
  | .unlockXchg l => .ok ((s.setLock l { s.locks l with locked := 0 }).setCore c { k with pc := .unlockPopcli l })
  | .unlockPopcli _ => do
    let k ← popcli k
    return s.setCore c { k with pc := .idle }

/-- What a processor can do: call `spin_lock` on a lock it does not hold or `spin_unlock` on one it holds,
go on in such a call, or, while it holds no lock, change its interrupt flag. -/
inductive Step (c : Cpu) (s : State Lock) : Except Halt (State Lock) → Prop where
  | lock {l : Lock} : (s.cores c).pc = .idle → l ∉ (s.cores c).held → Step c s (spinLock c l s)
  | unlock {l : Lock} : (s.cores c).pc = .idle → l ∈ (s.cores c).held → Step c s (.ok (spinUnlock c l s))
  | next : (s.cores c).pc ≠ .idle → Step c s (next c s)
  | intr (b : Bool) : (s.cores c).pc = .idle → (s.cores c).held = ∅ →
      Step c s (.ok (s.setCore c { s.cores c with intr := b }))

/-- The states that the processors reach, in any order of their steps. -/
inductive Run : State Lock → Prop where
  | init (intr : Cpu → Bool) : Run (init intr)
  | step {c : Cpu} {s s' : State Lock} : Run s → Step c s (.ok s') → Run s'

/-! ## What the processors have to themselves -/

/-- The lock that a processor is acquiring or releasing. -/
def Pc.busy : Pc Lock → Nat
  | .idle => 0
  | _ => 1

/-- Whether the processor has raised its count inside `is_holding_spin`. -/
def Pc.inside : Pc Lock → Nat
  | .lockCheck _ at' | .unlockCheck _ at' => if at' = .pushcli then 0 else 1
  | _ => 0

/-- Between the return of `spin_lock` and the release in `spin_unlock`. -/
def Core.Holds (k : Core Lock) (l : Lock) : Prop :=
  l ∈ k.held ∨ (∃ at', k.pc = .unlockCheck l at') ∨ k.pc = .unlockCpu l ∨ k.pc = .unlockXchg l

/-- What is promised of every reachable state. -/
structure Safe (s : State Lock) : Prop where
  exclusive : ∀ l c d, (s.cores c).Holds l → (s.cores d).Holds l → c = d
  noPanic : ∀ c r, Step c s r → ∃ s', r = .ok s'
  count : ∀ c, (s.cores c).count = ((s.cores c).held.card + (s.cores c).pc.busy + (s.cores c).pc.inside : Nat)
  masked : ∀ c, 0 < (s.cores c).count → (s.cores c).intr = false
  restored : ∀ c d s', Step d s (.ok s') → 0 < (s.cores c).count → (s'.cores c).count = 0 →
    (s'.cores c).intr = (s.cores c).entry

end OsLab.Kernel.Spin
