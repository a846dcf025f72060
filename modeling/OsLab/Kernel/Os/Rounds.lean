import OsLab.Kernel.Os.Traps
import OsLab.Lib.Cyclic
import Mathlib.Data.List.Find

/-!
# Round robin

Once all tasks are created, the switches of a processor go round the tasks bound to it, in
the order of their creation. `contextSwitch_next` says this of one switch, from the cyclic
search in `context_switch`; `Rounds` collects the switches of all processors.
-/

namespace OsLab.Kernel.Kmt

open Cyclic (Next)

variable {Ctx : Type}

/-- The tasks bound to a processor, in the order of their creation. -/
def boundTo (cpu : Nat) (head : List (Node Ctx)) : List Nat :=
  (head.filter fun n => n.task.cpu = cpu).map Node.addr

section BoundTo

variable {head head' : List (Node Ctx)} {cpu a : Nat}

theorem boundTo_nodup (nodup : (head.map Node.addr).Nodup) : (boundTo cpu head).Nodup :=
  nodup.sublist (List.filter_sublist.map _)

/-- Stores into tasks that leave their processors alone change nothing. -/
theorem boundTo_map {f : Node Ctx → Node Ctx} (addrs : ∀ n, (f n).addr = n.addr)
    (cpus : ∀ n, (f n).task.cpu = n.task.cpu) : boundTo cpu (head.map f) = boundTo cpu head := by
  unfold boundTo
  rw [List.filter_map, List.map_map]
  simp only [Function.comp_def, cpus, addrs]

theorem boundTo_append (l₁ l₂ : List (Node Ctx)) :
    boundTo cpu (l₁ ++ l₂) = boundTo cpu l₁ ++ boundTo cpu l₂ := by
  simp [boundTo]

theorem boundTo_head? : (boundTo cpu head).head? = (head.find? fun n => n.task.cpu = cpu).map Node.addr := by
  simp [boundTo, List.head?_filter]

end BoundTo

section Switch

variable {ncpu cpu : Nat} {s s' : State Ctx} {head : List (Node Ctx)}

theorem findTaskIndex_self {l₁ l₂ : List (Node Ctx)} {n : Node Ctx}
    (nodup : ((l₁ ++ n :: l₂).map Node.addr).Nodup) :
    findTaskIndex (l₁ ++ n :: l₂) (some n.addr) = l₁.length := by
  have loop : ∀ ans, findTaskIndexFrom (some n.addr) (l₁ ++ n :: l₂) ans = ans + l₁.length := by
    induction l₁ with
    | nil =>
      intro ans
      simp [findTaskIndexFrom]
    | cons cur next ih =>
      intro ans
      rw [List.cons_append, List.map_cons, List.nodup_cons] at nodup
      have other : ¬ some cur.addr = some n.addr := by
        intro same
        apply nodup.1
        rw [Option.some.inj same]
        exact List.mem_map_of_mem (by simp)
      rw [List.cons_append, findTaskIndexFrom, if_neg other, ih nodup.2, List.length_cons]
      omega
  unfold findTaskIndex
  rw [loop]
  omega

theorem findTaskIndex_none (head : List (Node Ctx)) : findTaskIndex head none = -1 := by
  have loop : ∀ ans, findTaskIndexFrom none head ans = -1 := by
    induction head with
    | nil => intro ans; rfl
    | cons cur next ih =>
      intro ans
      rw [findTaskIndexFrom, if_neg (by simp)]
      exact ih _
  exact loop 0

/-- The search goes through the list from `index` on, round its end. -/
theorem searchTask_rotate {tk : Node Ctx} (index : Nat)
    (found : (head.rotate index).find? (fun n => n.task.state = .free ∧ n.task.cpu = cpu) = some tk) :
    searchTask cpu head.length head head.length index (getTask head (index % head.length)) = .ok tk := by
  obtain ⟨hit, d, range, at', first⟩ := List.find?_eq_some_iff_getElem.1 found
  rw [List.length_rotate] at range
  have there : ∀ e, e < head.length → (head.rotate index)[e]? = head[(index + e) % head.length]? := by
    intro e lt
    rw [List.getElem?_rotate lt, Nat.add_comm]
  simp only [decide_eq_true_eq] at hit
  apply searchTask_spec d _ index range _ hit.1 hit.2
  · intro e lt n here
    rw [← there e (by omega)] at here
    have miss := first e lt
    obtain ⟨-, rfl⟩ := List.getElem?_eq_some_iff.1 here
    simpa [imp_iff_not_or] using miss
  · rw [← there d range, List.getElem?_eq_getElem (by simpa using range), at']

/-- A switch selects the first task of the processor in the cyclic order, from the one after
the current task on. -/
theorem contextSwitch_selects {a : Nat} (inv : Scheduled ncpu s)
    (run : contextSwitch cpu s = .ok (some (.ofTask a), s')) :
    ((s.head.rotate (findTaskIndex s.head (s.current cpu) + 1).toNat).find?
      fun n => n.task.cpu = cpu).map Node.addr = some a := by
  obtain ⟨m, ⟨member, bound, -, -⟩, -⟩ := contextSwitch_ok inv run
  unfold contextSwitch at run
  by_cases empty : s.taskCount = 0
  · simp only [if_pos empty] at run
    cases run
  simp only [if_neg empty] at run
  obtain ⟨-, run⟩ := kassert_bind_eq_ok.1 run
  rw [releaseCurrent_eq inv, ok_bind] at run
  obtain ⟨tk, search, run⟩ := bind_eq_ok.1 run
  cases run
  generalize (findTaskIndex s.head (s.current cpu) + 1).toNat = index at *
  let released := Node.withState (releasedState cpu s)
  rw [inv.count, ← List.length_map (f := released)] at search
  -- all tasks of the processor are free, so the search stops at the first one
  have stops : ∀ n ∈ s.head.rotate index,
      ((released n).task.state = .free ∧ (released n).task.cpu = cpu) ↔ n.task.cpu = cpu := by
    intro n member
    exact ⟨And.right, fun bound => ⟨released_free inv (List.mem_rotate.1 member) bound, bound⟩⟩
  have found : ((s.head.map released).rotate index).find?
      (fun n => n.task.state = .free ∧ n.task.cpu = cpu) =
        ((s.head.rotate index).find? fun n => n.task.cpu = cpu).map released := by
    rw [← List.map_rotate, List.find?_map]
    congr 1
    apply List.find?_congr
    intro n member
    simp only [Function.comp_apply, stops n member]
  cases first : (s.head.rotate index).find? fun n => n.task.cpu = cpu with
  | none =>
    have none := List.find?_eq_none.1 first m (List.mem_rotate.2 member)
    simp [bound] at none
  | some n =>
    rw [first] at found
    rw [searchTask_rotate index found] at search
    cases search
    rfl

/-- A switch goes on to the next task of the processor, and a first one to its first task. -/
theorem contextSwitch_next {a : Nat} (inv : Scheduled ncpu s)
    (run : contextSwitch cpu s = .ok (some (.ofTask a), s')) :
    (∀ x, s.current cpu = some x → Next (boundTo cpu s.head) x a) ∧
      (s.current cpu = none → (boundTo cpu s.head).head? = some a) := by
  have selects := contextSwitch_selects inv run
  constructor
  · intro x running
    obtain ⟨n, member, rfl, bound, -⟩ := inv.current cpu x running
    obtain ⟨l₁, l₂, split⟩ := List.append_of_mem member
    have nodup := inv.nodup
    have bounds : boundTo cpu [n] = [n.addr] := by simp [boundTo, bound]
    rw [running, split, findTaskIndex_self (by rw [← split]; exact nodup)] at selects
    have rotated : (l₁ ++ n :: l₂).rotate ((l₁.length : Int) + 1).toNat = l₂ ++ (l₁ ++ [n]) := by
      have position : ((l₁.length : Int) + 1).toNat = (l₁ ++ [n]).length := by simp
      have whole : l₁ ++ n :: l₂ = (l₁ ++ [n]) ++ l₂ := by simp
      rw [position, whole, List.rotate_append_length_eq]
    refine ⟨boundTo cpu l₁, boundTo cpu l₂, ?_, ?_⟩
    · rw [split, ← List.singleton_append, boundTo_append, boundTo_append, bounds]
      rfl
    · rw [← bounds, ← boundTo_append, ← boundTo_append, boundTo_head?, ← selects, rotated,
        List.append_assoc]
  · intro idle
    rw [idle, findTaskIndex_none] at selects
    rw [boundTo_head?, ← selects]
    simp

end Switch

end OsLab.Kernel.Kmt

namespace OsLab.Kernel.Os

open OsLab.Kernel.Kmt (ContextPtr Area Node Scheduled Creates boundTo)
open Cyclic (Next)

variable {Ctx W : Type} {kcontext : Area → Nat → Nat → Ctx} {ncpu : Nat}

/-- Calls of `create` that leave `task_count` as it was are none. -/
theorem creates_count {k k' : Kmt.State Ctx} (inv : Scheduled ncpu k) (creates : Creates kcontext ncpu k k') :
    k.taskCount ≤ k'.taskCount ∧ (k'.taskCount = k.taskCount → k' = k) := by
  induction creates with
  | refl => exact ⟨Nat.le_refl _, fun _ => rfl⟩
  | create before fresh run ih =>
    obtain ⟨task, -, -, -, rfl⟩ := Kmt.create_ok (Kmt.scheduled_creates inv before).nodup run
    constructor
    · exact Nat.le_succ_of_le ih.1
    · intro same
      have more := ih.1
      simp only at same
      omega

/-- The order in which the processors select tasks, once no more are created: traps on any
processors, with the tasks they switch to, oldest first. Other code runs in between. -/
inductive Rounds (kcontext : Area → Nat → Nat → Ctx) (ncpu : Nat) :
    State Ctx W → List (Nat × Nat) → State Ctx W → Prop where
  | done {s : State Ctx W} : Rounds kcontext ncpu s [] s
  | onIrq {s s' : State Ctx W} {ih : IrqHandler Ctx W} {selected : List (Nat × Nat)} :
      Quiet kcontext ncpu ih → Rounds kcontext ncpu { s with head := onIrq ih s.head } selected s' →
      Rounds kcontext ncpu s selected s'
  | other {s s' : State Ctx W} {selected : List (Nat × Nat)} (rest : W) :
      Rounds kcontext ncpu { s with rest := rest } selected s' → Rounds kcontext ncpu s selected s'
  | trap {s s₁ s' : State Ctx W} {cpu a : Nat} {ev : Event} {context : Ctx} {selected : List (Nat × Nat)} :
      cpu < ncpu → trap cpu ev context s = .ok (.ofTask a, s₁) → s₁.kmt.taskCount = s.kmt.taskCount →
      Rounds kcontext ncpu s₁ selected s' → Rounds kcontext ncpu s ((cpu, a) :: selected) s'

/-- The selections on one processor. -/
def selectedOn (c : Nat) (selected : List (Nat × Nat)) : List Nat :=
  (selected.filter fun e => e.1 = c).map Prod.snd

/-- A trap that creates no task goes on to the next task of its processor. -/
structure Selects (cpu a : Nat) (k k' : Kmt.State Ctx) : Prop where
  bound : ∀ c, boundTo c k'.head = boundTo c k.head
  current : ∀ c, k'.current c = if c = cpu then some a else k.current c
  next : ∀ x, k.current cpu = some x → Next (boundTo cpu k.head) x a
  first : k.current cpu = none → (boundTo cpu k.head).head? = some a

section Trap

variable {cpu a : Nat} {ev : Event} {context : Ctx} {s s' : State Ctx W} {selected : List (Nat × Nat)}

theorem boundTo_contextSave {k k' : Kmt.State Ctx} {r : Option ContextPtr} (c : Nat)
    (run : Kmt.contextSave cpu context k = .ok (r, k')) :
    boundTo c k'.head = boundTo c k.head ∧ k'.current = k.current := by
  rw [Kmt.contextSave_eq] at run
  cases run
  cases k.current cpu with
  | none => exact ⟨rfl, rfl⟩
  | some cur =>
    refine ⟨Kmt.boundTo_map (fun _ => Kmt.addr_store) fun n => ?_, rfl⟩
    unfold Node.store
    split <;> rfl

theorem trap_selects (inv : Scheduled ncpu s.kmt) (handlers : Registered (Quiet kcontext ncpu) s.head)
    (run : trap cpu ev context s = .ok (.ofTask a, s')) (count : s'.kmt.taskCount = s.kmt.taskCount) :
    Selects cpu a s.kmt s'.kmt := by
  obtain ⟨k₁, k₂, k₃, k₄, found, creates₁, save, creates₂, switch, creates₃, result, -⟩ := trap_ok handlers run
  have inv₁ := Kmt.scheduled_creates inv creates₁
  have inv₂ := Kmt.scheduled_save inv₁ save
  have inv₃ := Kmt.scheduled_creates inv₂ creates₂
  obtain ⟨n, switched, rfl⟩ := Kmt.contextSwitch_ok inv₃ switch
  obtain rfl : a = n.addr := ContextPtr.ofTask.inj result
  have inv₄ := Kmt.scheduled_switch inv₃ switched
  have saved := Kmt.contextSave_count save
  have kept : k₄.taskCount = k₃.taskCount := by
    rw [switched.result]
  -- no handler has created a task
  obtain ⟨le₁, same₁⟩ := creates_count inv creates₁
  obtain ⟨le₂, same₂⟩ := creates_count inv₂ creates₂
  obtain ⟨le₃, same₃⟩ := creates_count inv₄ creates₃
  obtain rfl := same₁ (by omega)
  obtain rfl := same₂ (by omega)
  rw [same₃ (by omega)]
  obtain ⟨next, first⟩ := Kmt.contextSwitch_next inv₃ switch
  obtain ⟨bound, current⟩ := boundTo_contextSave cpu save
  rw [bound, current] at next first
  refine ⟨?_, ?_, next, first⟩
  · intro c
    rw [← (boundTo_contextSave c save).1, switched.result]
    exact Kmt.boundTo_map (fun _ => rfl) fun _ => rfl
  · intro c
    rw [switched.result, ← current]

@[simp] theorem selectedOn_self : selectedOn cpu ((cpu, a) :: selected) = a :: selectedOn cpu selected := by
  simp [selectedOn]

theorem selectedOn_ne {c : Nat} (other : cpu ≠ c) : selectedOn c ((cpu, a) :: selected) = selectedOn c selected := by
  simp [selectedOn, other]

/-- What traps that create no task keep. -/
theorem Rounds.inv (rounds : Rounds kcontext ncpu s selected s') (inv : Scheduled ncpu s.kmt)
    (handlers : Registered (Quiet kcontext ncpu) s.head) :
    Scheduled ncpu s'.kmt ∧ s'.kmt.taskCount = s.kmt.taskCount := by
  induction rounds with
  | done => exact ⟨inv, rfl⟩
  | onIrq quiet _ ih => exact ih inv (handlers.onIrq quiet)
  | other rest _ ih => exact ih inv handlers
  | trap _ run count _ ih =>
    obtain ⟨_, _, _, _, _, -, -, -, -, -, -, same⟩ := trap_ok handlers run
    obtain ⟨inv', count'⟩ := ih (scheduled_trap inv handlers run) (by rw [same]; exact handlers)
    exact ⟨inv', count'.trans count⟩

/-- The selections of a processor go from each task to the next one, from its current task on. -/
theorem Rounds.chain (rounds : Rounds kcontext ncpu s selected s') (inv : Scheduled ncpu s.kmt)
    (handlers : Registered (Quiet kcontext ncpu) s.head) (c : Nat) :
    ((s.kmt.current c).toList ++ selectedOn c selected).IsChain (Next (boundTo c s.kmt.head)) ∧
      (s.kmt.current c = none → ∀ a ∈ (selectedOn c selected).head?, (boundTo c s.kmt.head).head? = some a) := by
  induction rounds with
  | @done s =>
    refine ⟨?_, fun _ a first => by cases first⟩
    cases s.kmt.current c with
    | none => exact List.IsChain.nil
    | some x => exact List.IsChain.singleton x
  | onIrq quiet _ ih => exact ih inv (handlers.onIrq quiet)
  | other rest _ ih => exact ih inv handlers
  | @trap s s₁ s' cpu a ev context selected below run count _ ih =>
    obtain ⟨_, _, _, _, _, -, -, -, -, -, -, same⟩ := trap_ok handlers run
    have selects := trap_selects inv handlers run count
    obtain ⟨chain, first⟩ := ih (scheduled_trap inv handlers run) (by rw [same]; exact handlers)
    rw [selects.bound, selects.current] at chain first
    by_cases own : cpu = c
    · subst own
      simp only [if_pos, Option.toList_some, List.singleton_append] at chain
      rw [selectedOn_self]
      cases running : s.kmt.current cpu with
      | none =>
        refine ⟨chain, fun _ b head => ?_⟩
        obtain rfl : a = b := by simpa using head
        exact selects.first running
      | some x => exact ⟨List.isChain_cons_cons.2 ⟨selects.next x running, chain⟩, fun idle => by cases idle⟩
    · rw [if_neg (Ne.symm own)] at chain first
      rw [selectedOn_ne own]
      exact ⟨chain, first⟩

end Trap

section Runs

variable {s s' : State Ctx W} {hist : List (Entry Ctx)} {selected : List (Nat × Nat)}

/-- **Round robin.** Once there is a task for every processor and none is created any more,
the tasks that the traps select on a processor are the ones bound to it in the order of their
creation, again and again: the next one each time, and every other one exactly once between
two selections of the same task. Whatever the other processors do, a further switch ends. -/
theorem round_robin (run : Run kcontext ncpu (Quiet kcontext ncpu) s hist) (tasks : ncpu ≤ s.kmt.taskCount)
    (rounds : Rounds kcontext ncpu s selected s') (c : Nat) :
    ((s.kmt.current c).toList ++ selectedOn c selected).IsChain (Next (boundTo c s.kmt.head)) ∧
    (s.kmt.current c = none → ∀ a ∈ (selectedOn c selected).head?, (boundTo c s.kmt.head).head? = some a) ∧
    (∀ before x mid after, selectedOn c selected = before ++ x :: (mid ++ x :: after) → x ∉ mid →
      (boundTo c s.kmt.head).IsRotated (x :: mid) ∧
        ∀ y ∈ boundTo c s.kmt.head, y ≠ x → mid.count y = 1) ∧
    (c < ncpu → ∃ a k, Kmt.contextSwitch c s'.kmt = .ok (some (.ofTask a), k)) := by
  obtain ⟨inv, handlers⟩ := run.inv fun _ quiet => quiet
  obtain ⟨chain, first⟩ := rounds.chain inv handlers c
  have order : (selectedOn c selected).IsChain (Next (boundTo c s.kmt.head)) := chain.right_of_append
  have nodup : (boundTo c s.kmt.head).Nodup := Kmt.boundTo_nodup inv.nodup
  refine ⟨chain, first, ?_, ?_⟩
  · intro before x mid after split away
    have window : (x :: (mid ++ [x])).IsChain (Next (boundTo c s.kmt.head)) := by
      have whole : selectedOn c selected = before ++ (x :: (mid ++ [x]) ++ after) := by simp [split]
      rw [whole] at order
      exact order.right_of_append.left_of_append
    exact ⟨Cyclic.round nodup window away,
      fun y member other => Cyclic.round_count nodup window away member other⟩
  · intro below
    obtain ⟨inv', count⟩ := rounds.inv inv handlers
    obtain ⟨n, k, switch, -⟩ := Kmt.contextSwitch_returns inv' below (by omega)
    exact ⟨n.addr, k, switch⟩

/-- One processor, two tasks, three traps. -/
theorem round_robin_two : ∃ (s s' : State Nat Unit),
    Rounds (fun _ entry _ => entry) 1 s [(0, 100), (0, 200), (0, 100)] s' ∧
      (boundTo 0 s.kmt.head).IsRotated [100, 200] ∧ ∃ a k, Kmt.contextSwitch 0 s'.kmt = .ok (some (.ofTask a), k) := by
  obtain ⟨k₁, first⟩ : ∃ k,
      Kmt.create (fun _ entry _ => entry) 1 8192 100 "first" 9 0 (Kmt.init : Kmt.State Nat) = .ok k := ⟨_, rfl⟩
  obtain ⟨k₂, second⟩ : ∃ k,
      Kmt.create (fun _ entry _ => entry) 1 16384 200 "second" 19 0 k₁ = .ok k := by
    cases first
    exact ⟨_, rfl⟩
  have booted : Run (fun _ entry _ => entry) 1 (Quiet (fun _ entry _ => entry) 1)
      (⟨[contextSaveIrq, contextSwitchIrq], Kmt.init, ()⟩ : State Nat Unit) [] :=
    .init [contextSaveIrq, contextSwitchIrq] () (.refl _) (fun h member => by cases member)
  have run := (booted.create (by decide) first).create (by cases first; decide) second
  let yield : Event := ⟨5, 0, 0, "yield"⟩
  obtain ⟨s₁, trap₁⟩ : ∃ s₁, trap 0 yield 70
      (⟨[contextSaveIrq, contextSwitchIrq], k₂, ()⟩ : State Nat Unit) = .ok (.ofTask 100, s₁) := by
    cases first
    cases second
    exact ⟨_, rfl⟩
  obtain ⟨s₂, trap₂⟩ : ∃ s₂, trap 0 yield 71 s₁ = .ok (.ofTask 200, s₂) := by
    cases first
    cases second
    cases trap₁
    exact ⟨_, rfl⟩
  obtain ⟨s₃, trap₃⟩ : ∃ s₃, trap 0 yield 72 s₂ = .ok (.ofTask 100, s₃) := by
    cases first
    cases second
    cases trap₁
    cases trap₂
    exact ⟨_, rfl⟩
  have rounds : Rounds (fun _ entry _ => entry) 1
      (⟨[contextSaveIrq, contextSwitchIrq], k₂, ()⟩ : State Nat Unit) [(0, 100), (0, 200), (0, 100)] s₃ := by
    refine .trap (by decide) trap₁ ?_ (.trap (by decide) trap₂ ?_ (.trap (by decide) trap₃ ?_ .done))
    all_goals
      cases first
      cases second
      cases trap₁
    · rfl
    · cases trap₂
      rfl
    · cases trap₂
      cases trap₃
      rfl
  obtain ⟨-, -, windows, ends⟩ := round_robin run (by cases first; cases second; decide) rounds 0
  exact ⟨_, s₃, rounds, (windows [] 100 [200] [] (by decide) (by decide)).1, ends (by decide)⟩

end Runs

end OsLab.Kernel.Os
