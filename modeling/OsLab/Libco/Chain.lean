import OsLab.Libco.Model
import Mathlib.Data.List.Infix

/-!
# The active chain of coroutines

Control is a stack: every coroutine of the active chain was resumed by the next one of it, and what
a step does to the chain is to push a coroutine, to pop one or to leave it alone (`Stacked.push`,
`Stacked.pop`). The numbers of the coroutines tell those that have finished from those that have
not (`Logged`), so that the return of `co_wait` can be compared with what it has waited for.
-/

namespace OsLab.Libco

/-! ## What has happened -/

/-- The number of the last coroutine that was started at a place. -/
def lastStart (thd : Slot) : List Event → Nat
  | [] => 0
  | .started i n :: log => if i = thd then n else lastStart thd log
  | .finished _ :: log => lastStart thd log
  | .waited _ :: log => lastStart thd log

/-- `co_wait` has returned only when all that had been started at the place had finished. -/
def WaitsRight (log : List Event) : Prop :=
  ∀ thd older, .waited thd :: older <:+ log → ∀ n, .started thd n ∈ older → .finished n ∈ older

/-- The log where exactly the places `Free` have no unfinished coroutine. -/
structure Logged (log : List Event) (Free : Slot → Prop) : Prop where
  started_lt : ∀ i n, .started i n ∈ log → n < log.length
  finished_lt : ∀ n, .finished n ∈ log → n < log.length
  sole : ∀ i j n, .started i n ∈ log → .started j n ∈ log → i = j
  unfinished : ∀ i n, .started i n ∈ log → .finished n ∉ log → ¬ Free i ∧ n = lastStart i log
  alive : ∀ i, ¬ Free i → .started i (lastStart i log) ∈ log ∧ .finished (lastStart i log) ∉ log
  waits : WaitsRight log

section Log

variable {log : List Event} {Free Free' : Slot → Prop} {i : Slot}

theorem Logged.congr (h : Logged log Free) (same : ∀ i, Free' i ↔ Free i) : Logged log Free' := by
  obtain rfl : Free' = Free := funext fun i => propext (same i)
  exact h

theorem WaitsRight.cons {e : Event} (h : WaitsRight log) (other : ∀ thd, e ≠ .waited thd) : WaitsRight (e :: log) := by
  intro thd older suffix
  rcases List.suffix_cons_iff.1 suffix with same | before
  · exact absurd (List.cons.inj same).1.symm (other thd)
  · exact h thd older before

theorem logged_nil : Logged [] fun _ => True where
  started_lt _ _ := nofun
  finished_lt _ := nofun
  sole _ _ _ := nofun
  unfinished _ _ := nofun
  alive _ held := absurd trivial held
  waits thd older suffix := by simp at suffix

@[simp] theorem started_mem_started {j : Slot} {n m : Nat} :
    Event.started j n ∈ Event.started i m :: log ↔ j = i ∧ n = m ∨ Event.started j n ∈ log := by
  simp

@[simp] theorem lastStart_started_self (n : Nat) : lastStart i (.started i n :: log) = n := if_pos rfl

theorem lastStart_started_ne {j : Slot} (other : j ≠ i) (n : Nat) :
    lastStart j (.started i n :: log) = lastStart j log := if_neg (Ne.symm other)

/-- `co_start` at a free place. -/
theorem Logged.start (h : Logged log Free) (free : Free i) :
    Logged (.started i log.length :: log) fun j => Free j ∧ j ≠ i where
  started_lt j n member := by
    rcases started_mem_started.1 member with ⟨-, rfl⟩ | old
    · exact Nat.lt_succ_self _
    · exact Nat.lt_succ_of_lt (h.started_lt j n old)
  finished_lt n member := by
    have old : .finished n ∈ log := by simpa using member
    exact Nat.lt_succ_of_lt (h.finished_lt n old)
  sole j k n first second := by
    rcases started_mem_started.1 first with ⟨rfl, rfl⟩ | old
    · rcases started_mem_started.1 second with ⟨rfl, -⟩ | old'
      · rfl
      · exact absurd (h.started_lt k _ old') (Nat.lt_irrefl _)
    · rcases started_mem_started.1 second with ⟨-, rfl⟩ | old'
      · exact absurd (h.started_lt j _ old) (Nat.lt_irrefl _)
      · exact h.sole j k n old old'
  unfinished j n member live := by
    rcases started_mem_started.1 member with ⟨rfl, rfl⟩ | old
    · exact ⟨fun held => held.2 rfl, (lastStart_started_self _).symm⟩
    · have still : .finished n ∉ log := fun ended => live (List.mem_cons_of_mem _ ended)
      obtain ⟨held, last⟩ := h.unfinished j n old still
      have other : j ≠ i := by
        rintro rfl
        exact held free
      exact ⟨fun both => held both.1, last.trans (lastStart_started_ne other _).symm⟩
  alive j held := by
    rcases eq_or_ne j i with rfl | other
    · rw [lastStart_started_self]
      refine ⟨List.mem_cons_self .., fun ended => ?_⟩
      have old : .finished log.length ∈ log := by simpa using ended
      exact absurd (h.finished_lt _ old) (Nat.lt_irrefl _)
    · rw [lastStart_started_ne other]
      obtain ⟨begun, live⟩ := h.alive j fun free => held ⟨free, other⟩
      exact ⟨List.mem_cons_of_mem _ begun, by simpa using live⟩
  waits := h.waits.cons nofun

/-- The coroutine of a place finishes. -/
theorem Logged.finish (h : Logged log Free) (held : ¬ Free i) :
    Logged (.finished (lastStart i log) :: log) fun j => Free j ∨ j = i where
  started_lt j n member := by
    have old : .started j n ∈ log := by simpa using member
    exact Nat.lt_succ_of_lt (h.started_lt j n old)
  finished_lt n member := by
    rcases List.mem_cons.1 member with same | old
    · cases same
      exact Nat.lt_succ_of_lt (h.started_lt i _ (h.alive i held).1)
    · exact Nat.lt_succ_of_lt (h.finished_lt n old)
  sole j k n first second := by
    have old : .started j n ∈ log := by simpa using first
    have old' : .started k n ∈ log := by simpa using second
    exact h.sole j k n old old'
  unfinished j n member live := by
    have old : .started j n ∈ log := by simpa using member
    obtain ⟨still, last⟩ := h.unfinished j n old fun ended => live (List.mem_cons_of_mem _ ended)
    refine ⟨?_, last⟩
    rintro (free | rfl)
    · exact still free
    · -- its last coroutine is the one that has finished
      exact live (last ▸ List.mem_cons_self ..)
  alive j still := by
    obtain ⟨free, other⟩ := not_or.1 still
    obtain ⟨begun, live⟩ := h.alive j free
    refine ⟨List.mem_cons_of_mem _ begun, fun ended => ?_⟩
    rcases List.mem_cons.1 ended with same | old
    · have number : lastStart j log = lastStart i log := Event.finished.inj same
      exact other (h.sole j i _ begun (number ▸ (h.alive i held).1))
    · exact live old
  waits := h.waits.cons nofun

/-- `co_wait` returns for a free place. -/
theorem Logged.wait (h : Logged log Free) (free : Free i) : Logged (.waited i :: log) Free where
  started_lt j n member := by
    have old : .started j n ∈ log := by simpa using member
    exact Nat.lt_succ_of_lt (h.started_lt j n old)
  finished_lt n member := by
    have old : .finished n ∈ log := by simpa using member
    exact Nat.lt_succ_of_lt (h.finished_lt n old)
  sole j k n first second := by
    have old : .started j n ∈ log := by simpa using first
    have old' : .started k n ∈ log := by simpa using second
    exact h.sole j k n old old'
  unfinished j n member live := by
    have old : .started j n ∈ log := by simpa using member
    exact h.unfinished j n old fun ended => live (List.mem_cons_of_mem _ ended)
  alive j held := by
    obtain ⟨begun, live⟩ := h.alive j held
    refine ⟨List.mem_cons_of_mem _ begun, fun ended => ?_⟩
    rcases List.mem_cons.1 ended with same | old
    · cases same
    · exact live old
  waits := by
    intro thd older suffix n begun
    rcases List.suffix_cons_iff.1 suffix with same | before
    · obtain ⟨here, rfl⟩ := List.cons.inj same
      cases here
      by_contra live
      exact (h.unfinished _ n begun live).1 free
    · exact h.waits thd older before n begun

end Log

/-! ## The chain -/

section Chain

variable {Code Mem : Type} {s s' : State Code Mem} {chain : List Slot} {i : Slot}

/-- The coroutine of a place. -/
def threadOf (s : State Code Mem) (i : Slot) : Thread := ⟨i, lastStart i s.log⟩

/-- Each coroutine of the chain was resumed by the next, the last by `main`, and is waited for if that was
by `co_wait`. -/
inductive Linked (s : State Code Mem) : List Slot → Prop
  | nil : Linked s []
  | cons {i : Slot} {chain : List Slot} {caller : Caller Code}
      (pctx : (s.coroutines i).pctx = some ⟨chain.head?.map (threadOf s), .resumeCo chain.head? caller⟩)
      (waits : ∀ thd k, caller = .coWait thd k → thd = i ∧ (s.coroutines i).state = .bewait)
      (below : Linked s chain) : Linked s (i :: chain)

/-- Off the chain a coroutine is gone, or stands behind the `swapcontext` of `co_yield`. -/
def Resting (s : State Code Mem) (i : Slot) : Prop :=
  (s.coroutines i).state = .free ∨
    (s.coroutines i).state = .suspend ∧ ∃ k, (s.coroutines i).ctx = some ⟨some (threadOf s i), .coYield k⟩

/-- The chain is the stack of control. -/
structure Stacked (s : State Code Mem) (chain : List Slot) : Prop where
  thread : s.thread = chain.head?.map (threadOf s)
  current : s.currentCo = chain.head?
  nodup : chain.Nodup
  links : Linked s chain
  active : ∀ i ∈ chain, (s.coroutines i).state = .run ∨ (s.coroutines i).state = .bewait
  rest : ∀ i ∉ chain, Resting s i
  id : ∀ i, (s.coroutines i).id = i
  log : Logged s.log fun i => (s.coroutines i).state = .free

theorem Linked.congr (h : Linked s chain) (same : ∀ i ∈ chain, s'.coroutines i = s.coroutines i)
    (last : ∀ i ∈ chain, threadOf s' i = threadOf s i) : Linked s' chain := by
  induction h with
  | nil => exact .nil
  | @cons i chain caller pctx waits below ih =>
    obtain ⟨here, rest⟩ := List.forall_mem_cons.1 same
    obtain ⟨-, lasts⟩ := List.forall_mem_cons.1 last
    have parent : chain.head?.map (threadOf s') = chain.head?.map (threadOf s) := by
      cases chain with
      | nil => rfl
      | cons j chain => exact congrArg some (lasts j (List.mem_cons_self ..))
    rw [← here] at waits
    rw [← here, ← parent] at pctx
    exact .cons pctx waits (ih rest lasts)

theorem Resting.congr (h : Resting s i) (same : s'.coroutines i = s.coroutines i) (last : threadOf s' i = threadOf s i) :
    Resting s' i := by
  unfold Resting
  rw [same, last]
  exact h

/-- `s'` differs from `s` at the place `i` only. -/
structure Differs (s s' : State Code Mem) (i : Slot) : Prop where
  others : ∀ j ≠ i, s'.coroutines j = s.coroutines j
  lasts : ∀ j ≠ i, threadOf s' j = threadOf s j
  id : (s'.coroutines i).id = (s.coroutines i).id

theorem Differs.links (d : Differs s s' i) (off : i ∉ chain) (h : Linked s chain) : Linked s' chain := by
  apply h.congr
  · exact fun j member => d.others j (ne_of_mem_of_not_mem member off)
  · exact fun j member => d.lasts j (ne_of_mem_of_not_mem member off)

theorem Differs.parent (d : Differs s s' i) (off : i ∉ chain) :
    chain.head?.map (threadOf s') = chain.head?.map (threadOf s) := by
  cases chain with
  | nil => rfl
  | cons j chain =>
    have other : j ≠ i := ne_of_mem_of_not_mem (List.mem_cons_self ..) off
    exact congrArg some (d.lasts j other)

theorem Differs.id_eq (d : Differs s s' i) (h : ∀ j, (s.coroutines j).id = j) (j : Slot) : (s'.coroutines j).id = j := by
  rcases eq_or_ne j i with rfl | other
  · exact d.id.trans (h j)
  · rw [d.others j other]
    exact h j

/-- A coroutine off the chain is resumed. -/
theorem Stacked.push {caller : Caller Code} (h : Stacked s chain) (off : i ∉ chain) (d : Differs s s' i)
    (active : (s'.coroutines i).state = .run ∨ (s'.coroutines i).state = .bewait)
    (pctx : (s'.coroutines i).pctx = some ⟨s.thread, .resumeCo s.currentCo caller⟩)
    (waits : ∀ thd k, caller = .coWait thd k → thd = i ∧ (s'.coroutines i).state = .bewait)
    (current : s'.currentCo = some i) (thread : s'.thread = some (threadOf s' i))
    (log : Logged s'.log fun j => (s'.coroutines j).state = .free) : Stacked s' (i :: chain) where
  thread := thread
  current := current
  nodup := List.nodup_cons.2 ⟨off, h.nodup⟩
  links := by
    rw [h.thread, h.current, ← d.parent off] at pctx
    exact .cons pctx waits (d.links off h.links)
  active := by
    refine List.forall_mem_cons.2 ⟨active, fun j member => ?_⟩
    rw [d.others j (ne_of_mem_of_not_mem member off)]
    exact h.active j member
  rest j out := by
    obtain ⟨other, rest⟩ := not_or.1 (mt List.mem_cons.2 out)
    exact (h.rest j rest).congr (d.others j other) (d.lasts j other)
  id := d.id_eq h.id
  log := log

/-- The running coroutine hands control back to what has resumed it. -/
theorem Stacked.pop (h : Stacked s (i :: chain)) (d : Differs s s' i) (rest : Resting s' i)
    (current : s'.currentCo = chain.head?) (thread : s'.thread = chain.head?.map (threadOf s))
    (log : Logged s'.log fun j => (s'.coroutines j).state = .free) : Stacked s' chain := by
  obtain ⟨off, nodup⟩ := List.nodup_cons.1 h.nodup
  constructor
  · rw [d.parent off]
    exact thread
  · exact current
  · exact nodup
  · cases h.links with
    | cons pctx waits below => exact d.links off below
  · intro j member
    rw [d.others j (ne_of_mem_of_not_mem member off)]
    exact h.active j (List.mem_cons_of_mem _ member)
  · intro j out
    rcases eq_or_ne j i with rfl | other
    · exact rest
    · have out' : j ∉ i :: chain := fun member => (List.mem_cons.1 member).elim other out
      exact (h.rest j out').congr (d.others j other) (d.lasts j other)
  · exact d.id_eq h.id
  · exact log

/-- Nothing but the program and the log has changed. -/
theorem Stacked.stay (h : Stacked s chain) (same : s'.coroutines = s.coroutines) (lasts : ∀ j, threadOf s' j = threadOf s j)
    (current : s'.currentCo = s.currentCo) (thread : s'.thread = s.thread)
    (log : Logged s'.log fun j => (s.coroutines j).state = .free) : Stacked s' chain where
  thread := by
    rw [thread, h.thread]
    cases chain with
    | nil => rfl
    | cons j chain => exact congrArg some (lasts j).symm
  current := current.trans h.current
  nodup := h.nodup
  links := h.links.congr (fun j _ => congrFun same j) fun j _ => lasts j
  active := by
    rw [same]
    exact h.active
  rest j out := (h.rest j out).congr (congrFun same j) (lasts j)
  id := by
    rw [same]
    exact h.id
  log := by
    rw [same]
    exact log

/-! ## The steps -/

theorem getCo_state {state : CoState} {start : Slot} (found : getCo s state start = some i) :
    (s.coroutines i).state = state := by
  have holds := List.find?_some found
  exact of_decide_eq_true holds

/-- Where a context of a coroutine off the chain goes on. -/
def Goes (s : State Code Mem) (i : Slot) (point : Point Code) : Prop :=
  (∃ k, point = .coYield k) ∨ point = .coFuncWrap i ∧ ∃ func, (s.coroutines i).func = some func

/-- `resume_co` of a coroutine that can go on. -/
theorem resumeCo_run (caller : Caller Code) {thread : Option Thread} {point : Point Code}
    (busy : (s.coroutines i).state = .suspend ∨ (s.coroutines i).state = .init ∨ (s.coroutines i).state = .bewait)
    (ctx : (s.coroutines i).ctx = some ⟨thread, point⟩) (goes : Goes s i point) :
    ∃ s', resumeCo s (some i) caller = .ok s' ∧ (∀ j ≠ i, s'.coroutines j = s.coroutines j) ∧ s'.log = s.log ∧
      (s'.coroutines i).id = (s.coroutines i).id ∧
      (s'.coroutines i).state = (if (s.coroutines i).state = .bewait then .bewait else .run) ∧
      (s'.coroutines i).pctx = some ⟨s.thread, .resumeCo s.currentCo caller⟩ ∧ s'.currentCo = some i ∧
      s'.thread = thread := by
  have go : ∀ state, ∃ s', setcontext { s.setCo i { s.coroutines i with
      state, pctx := some ⟨s.thread, .resumeCo s.currentCo caller⟩ } with currentCo := some i } (s.coroutines i).ctx = .ok s' ∧
      (∀ j ≠ i, s'.coroutines j = s.coroutines j) ∧ s'.log = s.log ∧ (s'.coroutines i).id = (s.coroutines i).id ∧
      (s'.coroutines i).state = state ∧ (s'.coroutines i).pctx = some ⟨s.thread, .resumeCo s.currentCo caller⟩ ∧
      s'.currentCo = some i ∧ s'.thread = thread := by
    intro state
    rw [ctx]
    rcases goes with ⟨k, rfl⟩ | ⟨rfl, func, there⟩
    · refine ⟨_, rfl, fun j other => Function.update_of_ne other .., rfl, ?_⟩
      simp [State.setCo]
    · have reads : ((s.setCo i { s.coroutines i with
          state, pctx := some ⟨s.thread, .resumeCo s.currentCo caller⟩ }).coroutines i).func = some func := by
        simp [State.setCo, there]
      unfold setcontext
      dsimp only
      rw [reads]
      refine ⟨_, rfl, fun j other => Function.update_of_ne other .., rfl, ?_⟩
      simp [State.setCo]
  unfold resumeCo
  dsimp only
  rcases busy with suspend | init | bewait
  · rw [if_neg (by rw [suspend]; decide), if_pos (Or.inl suspend), if_neg (by rw [suspend]; decide)]
    exact go .run
  · rw [if_neg (by rw [init]; decide), if_pos (Or.inr init), if_neg (by rw [init]; decide)]
    exact go .run
  · rw [if_neg (by rw [bewait]; decide), if_neg (by rw [bewait]; decide), if_pos bewait]
    obtain ⟨s', run, others, log, id, state, rest⟩ := go (s.coroutines i).state
    exact ⟨s', run, others, log, id, by rw [if_pos bewait]; exact state.trans bewait, rest⟩

/-- `resume_co` of a coroutine off the chain. -/
theorem Stacked.resume {s₀ : State Code Mem} (caller : Caller Code) {point : Point Code} (h : Stacked s₀ chain) (off : i ∉ chain)
    (d : Differs s₀ s i) (thread : s.thread = s₀.thread) (current : s.currentCo = s₀.currentCo)
    (busy : (s.coroutines i).state = .suspend ∨ (s.coroutines i).state = .init ∨ (s.coroutines i).state = .bewait)
    (ctx : (s.coroutines i).ctx = some ⟨some (threadOf s i), point⟩) (goes : Goes s i point)
    (waits : ∀ thd k, caller = .coWait thd k → thd = i ∧ (s.coroutines i).state = .bewait)
    (log : Logged s.log fun j => (s.coroutines j).state = .free) :
    ∃ s', resumeCo s (some i) caller = .ok s' ∧ Stacked s' (i :: chain) := by
  obtain ⟨s', run, others, log', id, state, pctx, current', thread'⟩ := resumeCo_run caller busy ctx goes
  have last : ∀ j, threadOf s' j = threadOf s j := by
    intro j
    unfold threadOf
    rw [log']
  have notFree : (s.coroutines i).state ≠ .free := by
    rcases busy with busy | busy | busy <;> rw [busy] <;> decide
  have d' : Differs s₀ s' i :=
    ⟨fun j other => (others j other).trans (d.others j other), fun j other => (last j).trans (d.lasts j other), id.trans d.id⟩
  have pctx' : (s'.coroutines i).pctx = some ⟨s₀.thread, .resumeCo s₀.currentCo caller⟩ := by
    rw [pctx, thread, current]
  refine ⟨s', run, h.push off d' ?_ pctx' ?_ current' ?_ ?_⟩
  · rw [state]
    split
    · exact Or.inr rfl
    · exact Or.inl rfl
  · intro thd k same
    obtain ⟨rfl, bewait⟩ := waits thd k same
    refine ⟨rfl, ?_⟩
    rw [state, if_pos bewait]
  · rw [thread', last]
  · rw [log']
    apply log.congr
    intro j
    rcases eq_or_ne j i with rfl | other
    · apply iff_of_false _ notFree
      rw [state]
      split <;> nofun
    · rw [others j other]

theorem returnTo_log (caller : Caller Code) (s : State Code Mem) :
    (s.returnTo caller).coroutines = s.coroutines ∧ (s.returnTo caller).thread = s.thread ∧
      (s.returnTo caller).currentCo = s.currentCo ∧
      ((s.returnTo caller).log = s.log ∨ ∃ thd k, caller = .coWait thd k ∧ (s.returnTo caller).log = .waited thd :: s.log) := by
  cases caller with
  | coStart id k => exact ⟨rfl, rfl, rfl, Or.inl rfl⟩
  | coYield k => exact ⟨rfl, rfl, rfl, Or.inl rfl⟩
  | coWait thd k => exact ⟨rfl, rfl, rfl, Or.inr ⟨thd, k, rfl, rfl⟩⟩

/-- The context that the running coroutine was resumed from is restored. -/
theorem Stacked.handBack {s₀ : State Code Mem} (h : Stacked s₀ (i :: chain)) (d : Differs s₀ s i) (rest : Resting s i)
    (log : Logged s.log fun j => (s.coroutines j).state = .free)
    (waited : (s₀.coroutines i).state = .bewait → (s.coroutines i).state = .free) :
    ∃ s', setcontext s (s₀.coroutines i).pctx = .ok s' ∧ Stacked s' chain := by
  cases h.links with
  | @cons _ _ caller pctx waits below =>
    rw [pctx]
    let t : State Code Mem := { s with thread := chain.head?.map (threadOf s₀), currentCo := chain.head? }
    have back : Stacked t chain := h.pop ⟨d.others, d.lasts, d.id⟩ rest rfl rfl log
    refine ⟨t.returnTo caller, rfl, ?_⟩
    obtain ⟨same, thread, current, log' | ⟨thd, k, wait, log'⟩⟩ := returnTo_log caller t
    · refine back.stay same ?_ current thread ?_
      · intro j
        unfold threadOf
        rw [log']
      · rw [log']
        exact log
    · -- the coroutine that was waited for has finished
      obtain ⟨rfl, bewait⟩ := waits thd k wait
      refine back.stay same ?_ current thread ?_
      · intro j
        unfold threadOf
        rw [log']
        rfl
      · rw [log']
        exact log.wait (waited bewait)

theorem setCo_differs (thd : Co Code) (same : thd.id = (s.coroutines i).id) : Differs s (s.setCo i thd) i where
  others _ other := Function.update_of_ne other ..
  lasts _ _ := rfl
  id := by
    show (Function.update s.coroutines i thd i).id = _
    rw [Function.update_self]
    exact same

/-- The places that are free when the state of one has been set. -/
theorem setCo_free {thd : Co Code} (j : Slot) : ((s.setCo i thd).coroutines j).state = .free ↔
    if j = i then thd.state = .free else (s.coroutines j).state = .free := by
  show (Function.update s.coroutines i thd j).state = .free ↔ _
  rcases eq_or_ne j i with rfl | other
  · rw [Function.update_self, if_pos rfl]
  · rw [Function.update_of_ne other, if_neg other]

/-- A place that is taken before and after. -/
theorem Logged.setCo {thd : Co Code} (log : Logged s.log fun j => (s.coroutines j).state = .free)
    (taken : (s.coroutines i).state ≠ .free) (stays : thd.state ≠ .free) :
    Logged (s.setCo i thd).log fun j => ((s.setCo i thd).coroutines j).state = .free := by
  apply log.congr
  intro j
  apply (setCo_free j).trans
  rcases eq_or_ne j i with rfl | other
  · rw [if_pos rfl]
    exact iff_of_false stays taken
  · rw [if_neg other]

theorem Stacked.coStart (h : Stacked s chain) (rand : Nat) (func : Code) (k : Option Slot → Code) :
    ∃ s' chain', coStart s rand func k = .ok s' ∧ Stacked s' chain' := by
  unfold Libco.coStart createCo
  cases place : getCo s .free (Fin.ofNat maxCo rand) with
  | none => exact ⟨_, chain, rfl, h.stay rfl (fun _ => rfl) rfl rfl h.log⟩
  | some i =>
    have free := getCo_state place
    have off : i ∉ chain := by
      intro member
      rcases h.active i member with run | bewait
      · rw [free] at run
        cases run
      · rw [free] at bewait
        cases bewait
    dsimp only
    let thd : Co Code := { s.coroutines i with
      state := .init, func := some func, ctx := some ⟨some ⟨i, s.log.length⟩, .coFuncWrap i⟩ }
    let s₁ : State Code Mem := { s.setCo i thd with log := .started i s.log.length :: s.log }
    have made : s₁.coroutines i = thd := Function.update_self ..
    have number : threadOf s₁ i = ⟨i, s.log.length⟩ := congrArg (Thread.mk i) (lastStart_started_self _)
    have d : Differs s s₁ i := by
      obtain ⟨others, -, id⟩ := setCo_differs (s := s) thd rfl
      exact ⟨others, fun j other => congrArg (Thread.mk j) (lastStart_started_ne other _), id⟩
    have log : Logged s₁.log fun j => (s₁.coroutines j).state = .free := by
      apply (h.log.start free).congr
      intro j
      apply (setCo_free j).trans
      rcases eq_or_ne j i with rfl | other
      · rw [if_pos rfl]
        exact iff_of_false nofun fun both => both.2 rfl
      · rw [if_neg other]
        exact (and_iff_left other).symm
    have ctx : (s₁.coroutines i).ctx = some ⟨some (threadOf s₁ i), .coFuncWrap i⟩ := by
      rw [made, number]
    obtain ⟨s', run, stacked⟩ := h.resume (.coStart i k) off d rfl rfl (Or.inr (Or.inl (congrArg Co.state made)))
      ctx (Or.inr ⟨rfl, func, congrArg Co.func made⟩) nofun log
    exact ⟨s', _, run, stacked⟩

theorem Stacked.coYield (h : Stacked s chain) (rand : Nat) (k : Code) :
    ∃ s' chain', coYield s rand k = .ok s' ∧ Stacked s' chain' := by
  cases chain with
  | nil =>
    have current : s.currentCo = none := h.current
    have run : Libco.coYield s rand k = .ok { s with code := k } := by
      unfold Libco.coYield
      rw [current]
    exact ⟨_, [], run, h.stay rfl (fun _ => rfl) rfl rfl h.log⟩
  | cons i chain =>
    have current : s.currentCo = some i := h.current
    rcases h.active i (List.mem_cons_self ..) with running | bewait
    · let thd : Co Code := { s.coroutines i with state := .suspend, ctx := some ⟨s.thread, .coYield k⟩ }
      have swap : Libco.coYield s rand k = setcontext (s.setCo i thd) (s.coroutines i).pctx := by
        unfold Libco.coYield
        rw [current]
        dsimp only
        rw [if_neg (by rw [running]; decide), if_pos running]
      have made : (s.setCo i thd).coroutines i = thd := Function.update_self ..
      have rest : Resting (s.setCo i thd) i := by
        unfold Resting
        rw [made]
        refine Or.inr ⟨rfl, k, ?_⟩
        have thread : s.thread = some (threadOf s i) := h.thread
        exact congrArg (fun t => some (Context.mk t (.coYield k))) thread
      have log : Logged (s.setCo i thd).log fun j => ((s.setCo i thd).coroutines j).state = .free :=
        h.log.setCo (by simp [running]) nofun
      obtain ⟨s', run, stacked⟩ := h.handBack (setCo_differs thd rfl) rest log fun bewait => by
        rw [running] at bewait
        cases bewait
      exact ⟨s', chain, swap.trans run, stacked⟩
    · -- another coroutine runs instead
      cases place : getCo s .suspend (Fin.ofNat maxCo rand) with
      | none =>
        have run : Libco.coYield s rand k = .ok { s with code := k } := by
          unfold Libco.coYield
          rw [current]
          dsimp only
          rw [if_pos bewait, place]
        exact ⟨_, i :: chain, run, h.stay rfl (fun _ => rfl) rfl rfl h.log⟩
      | some other =>
        have choice : Libco.coYield s rand k = resumeCo s (some other) (.coYield k) := by
          unfold Libco.coYield
          rw [current]
          dsimp only
          rw [if_pos bewait, place]
        have suspend := getCo_state place
        have off : other ∉ i :: chain := by
          intro member
          rcases h.active other member with run | bewait
          · rw [suspend] at run
            cases run
          · rw [suspend] at bewait
            cases bewait
        rcases h.rest other off with free | ⟨-, k', ctx⟩
        · rw [suspend] at free
          cases free
        · have d : Differs s s other := ⟨fun _ _ => rfl, fun _ _ => rfl, rfl⟩
          obtain ⟨s', run, stacked⟩ := h.resume (.coYield k) off d rfl rfl (Or.inl suspend) ctx
            (Or.inl ⟨k', rfl⟩) nofun h.log
          exact ⟨s', _, choice.trans run, stacked⟩

theorem Stacked.coWait (h : Stacked s chain) {i : Slot} (k : Code) (off : i ∉ chain) :
    ∃ s' chain', coWait s i k = .ok s' ∧ Stacked s' chain' := by
  unfold Libco.coWait
  by_cases free : (s.coroutines i).state = .free
  · rw [if_pos free]
    exact ⟨_, chain, rfl, h.stay rfl (fun _ => rfl) rfl rfl (h.log.wait free)⟩
  · rw [if_neg free]
    rcases h.rest i off with gone | ⟨suspend, k', ctx⟩
    · exact absurd gone free
    · let thd : Co Code := { s.coroutines i with state := .bewait }
      have made : (s.setCo i thd).coroutines i = thd := Function.update_self ..
      have id : ((s.setCo i thd).coroutines i).id = i := (congrArg Co.id made).trans (h.id i)
      have log : Logged (s.setCo i thd).log fun j => ((s.setCo i thd).coroutines j).state = .free :=
        h.log.setCo free nofun
      have bewait : ((s.setCo i thd).coroutines i).state = .bewait := congrArg Co.state made
      obtain ⟨s', run, stacked⟩ := h.resume (.coWait i k) off (setCo_differs thd rfl) rfl rfl (Or.inr (Or.inr bewait))
        ((congrArg Co.ctx made).trans ctx) (Or.inl ⟨k', rfl⟩)
        (by rintro thd k ⟨⟩; exact ⟨rfl, bewait⟩) log
      dsimp only
      rw [id]
      exact ⟨s', _, run, stacked⟩

/-- The end of a coroutine; `main` stops. -/
theorem Stacked.finish (h : Stacked s chain) :
    coFuncWrapEnd s = .error .exit ∨ ∃ s' chain', coFuncWrapEnd s = .ok s' ∧ Stacked s' chain' := by
  unfold coFuncWrapEnd
  rw [h.thread]
  cases chain with
  | nil => exact Or.inl rfl
  | cons i chain =>
    right
    dsimp only [List.head?_cons, Option.map_some]
    have held : (s.coroutines i).state ≠ .free := by
      rcases h.active i (List.mem_cons_self ..) with run | bewait
      · rw [run]
        decide
      · rw [bewait]
        decide
    let thd : Co Code := { s.coroutines i with state := .free }
    let s₁ : State Code Mem := { s.setCo i thd with currentCo := none, log := .finished (lastStart i s.log) :: s.log }
    have made : s₁.coroutines i = thd := Function.update_self ..
    have free : (s₁.coroutines i).state = .free := congrArg Co.state made
    have d : Differs s s₁ i := by
      obtain ⟨others, -, id⟩ := setCo_differs (s := s) thd rfl
      exact ⟨others, fun _ _ => rfl, id⟩
    have log : Logged s₁.log fun j => (s₁.coroutines j).state = .free := by
      apply (h.log.finish held).congr
      intro j
      apply (setCo_free j).trans
      rcases eq_or_ne j i with rfl | other
      · rw [if_pos rfl]
        exact iff_of_true rfl (Or.inr rfl)
      · rw [if_neg other]
        exact (or_iff_left other).symm
    obtain ⟨s', run, stacked⟩ := h.handBack d (Or.inl free) log fun _ => free
    exact ⟨s', chain, run, stacked⟩

/-! ## Runs -/

variable {next : Code → Mem → Action Code × Mem} {main : Code} {mem : Mem}

/-- A step keeps the stack, or `main` returns. -/
theorem Stacked.step (h : Stacked s chain) (rand : Nat) (off : ∀ thd k, (next s.code s.mem).1 = .wait thd k → thd ∉ chain) :
    Libco.step next rand s = .error .exit ∨ ∃ s' chain', Libco.step next rand s = .ok s' ∧ Stacked s' chain' := by
  have stacked : Stacked { s with mem := (next s.code s.mem).2 } chain := h.stay rfl (fun _ => rfl) rfl rfl h.log
  unfold Libco.step
  dsimp only
  cases action : (next s.code s.mem).1 with
  | start func k => exact Or.inr (stacked.coStart rand func k)
  | yield k => exact Or.inr (stacked.coYield rand k)
  | wait thd k => exact Or.inr (stacked.coWait k (off thd k action))
  | done => exact stacked.finish

/-- The chain that control is a stack of is the active chain. -/
theorem Linked.onChain {t : State Code Mem} (links : Linked t chain)
    (above : ∀ i, chain.head? = some i → OnChain t i) : ∀ i ∈ chain, OnChain t i := by
  induction links with
  | nil => exact fun i member => absurd member List.not_mem_nil
  | @cons i chain caller pctx waits below ih =>
    have here := above i rfl
    refine List.forall_mem_cons.2 ⟨here, ih ?_⟩
    intro j head
    have thread : Option.map (threadOf t) chain.head? = some (threadOf t j) := by
      rw [head]
      rfl
    exact .resumer (t := threadOf t j) here pctx thread

/-- What has resumed a coroutine of the chain is on it. -/
theorem Linked.resumer_mem {t : State Code Mem} {c : Context Code} {thread : Thread} (links : Linked t chain) {i : Slot}
    (member : i ∈ chain) (pctx : (t.coroutines i).pctx = some c) (resumer : c.thread = some thread) : thread.slot ∈ chain := by
  induction links with
  | nil => exact absurd member List.not_mem_nil
  | @cons j chain caller pctx' waits below ih =>
    rcases List.mem_cons.1 member with rfl | rest
    · obtain rfl := Option.some.inj (pctx.symm.trans pctx')
      obtain ⟨k, head, same⟩ := Option.map_eq_some_iff.1 resumer
      obtain rfl : k = thread.slot := congrArg Thread.slot same
      exact List.mem_cons_of_mem _ (List.mem_of_mem_head? head)
    · exact List.mem_cons_of_mem _ (ih rest)

theorem Stacked.mem_iff (h : Stacked s chain) (i : Slot) : i ∈ chain ↔ OnChain s i := by
  constructor
  · apply h.links.onChain
    intro j head
    have thread : s.thread = some (threadOf s j) := by
      rw [h.thread, head]
      rfl
    exact .running thread
  · intro on
    induction on with
    | @running t thread =>
      rw [h.thread] at thread
      obtain ⟨k, head, same⟩ := Option.map_eq_some_iff.1 thread
      obtain rfl : k = t.slot := congrArg Thread.slot same
      exact List.mem_of_mem_head? head
    | resumer above pctx thread ih => exact h.links.resumer_mem ih pctx thread

theorem stacked_initial (main : Code) (mem : Mem) : Stacked (initial main mem) [] where
  thread := rfl
  current := rfl
  nodup := List.nodup_nil
  links := .nil
  active _ := nofun
  rest _ _ := Or.inl rfl
  id _ := rfl
  log := logged_nil.congr fun _ => iff_true_intro rfl

theorem Reaches.stacked (reached : Reaches next main mem s) : ∃ chain, Stacked s chain := by
  induction reached with
  | init => exact ⟨[], stacked_initial main mem⟩
  | @step s s' rand reached disciplined run ih =>
    obtain ⟨chain, stacked⟩ := ih
    have off : ∀ thd k, (next s.code s.mem).1 = .wait thd k → thd ∉ chain := fun thd k wait member =>
      disciplined thd k wait ((stacked.mem_iff thd).1 member)
    rcases stacked.step rand off with exit | ⟨t, chain', run', stacked'⟩
    · rw [exit] at run
      cases run
    · obtain rfl := Except.ok.inj (run'.symm.trans run)
      exact ⟨chain', stacked'⟩

/-- A coroutine was started at the place and has not finished. -/
def Unfinished (s : State Code Mem) (i : Slot) : Prop := ∃ n, .started i n ∈ s.log ∧ .finished n ∉ s.log

/-- Control is in the first coroutine of the active chain, and the states of all coroutines fit. -/
structure Control (s : State Code Mem) (chain : List Slot) : Prop where
  onChain : ∀ i, i ∈ chain ↔ OnChain s i
  top : s.thread.map Thread.slot = chain.head?
  current : s.currentCo = chain.head?
  resumed : Linked s chain
  active : ∀ i ∈ chain, (s.coroutines i).state = .run ∨ (s.coroutines i).state = .bewait
  suspended : ∀ i ∉ chain, Unfinished s i → (s.coroutines i).state = .suspend
  finished : ∀ i, ¬ Unfinished s i → (s.coroutines i).state = .free

theorem Stacked.control (h : Stacked s chain) : Control s chain where
  onChain := h.mem_iff
  top := by
    rw [h.thread]
    cases chain <;> rfl
  current := h.current
  resumed := h.links
  active := h.active
  suspended i off unfinished := by
    obtain ⟨n, begun, live⟩ := unfinished
    rcases h.rest i off with free | ⟨suspend, -⟩
    · exact absurd free (h.log.unfinished i n begun live).1
    · exact suspend
  finished i ended := by
    by_contra held
    exact ended ⟨_, h.log.alive i held⟩

/-- **Control is a stack.** Whatever a program of coroutines does and `rand()` returns, as long as `co_wait` is never
applied to a coroutine of the active chain: control is in the first of the chain, which `current_co` names, and the
states fit; no assertion fails; and `co_wait` has returned only when what it waits for had finished. -/
theorem control_is_stack (reached : Reaches next main mem s) :
    (∃ chain, Control s chain) ∧
      (∀ rand stop, Disciplined next s → Libco.step next rand s = .error stop → stop = .exit) ∧ WaitsRight s.log := by
  obtain ⟨chain, stacked⟩ := reached.stacked
  refine ⟨⟨chain, stacked.control⟩, ?_, stacked.log.waits⟩
  intro rand stop disciplined run
  have off : ∀ thd k, (next s.code s.mem).1 = .wait thd k → thd ∉ chain := fun thd k wait member =>
    disciplined thd k wait ((stacked.mem_iff thd).1 member)
  rcases stacked.step rand off with exit | ⟨s', -, run', -⟩
  · rw [exit] at run
    exact (Except.error.inj run).symm
  · rw [run'] at run
    cases run

end Chain

/-! ## Two coroutines -/

section Example

/-- A program that starts a coroutine, which yields once, and waits for it. -/
inductive Line where
  | main
  | started (thd : Option Slot)
  | work
  | worked
  | waited

/-- What a line does. -/
def Line.next : Line → Unit → Action Line × Unit
  | .main, _ => (.start .work .started, ())
  | .started none, _ => (.done, ())
  | .started (some thd), _ => (.wait thd .waited, ())
  | .work, _ => (.yield .worked, ())
  | .worked, _ => (.done, ())
  | .waited, _ => (.done, ())

/-- `main` may wait for any coroutine. -/
theorem not_onChain {Code Mem : Type} {s : State Code Mem} (main : s.thread = none) {i : Slot} : ¬ OnChain s i := by
  intro on
  induction on with
  | running thread =>
    rw [main] at thread
    cases thread
  | resumer above pctx thread ih => exact ih

/-- The coroutine has been started, has yielded and is waited for. -/
theorem waiting_reached : ∃ s, Reaches Line.next .main () s ∧ s.currentCo = some 7 ∧ (s.coroutines 7).state = .bewait := by
  have start : Reaches Line.next .main () (initial .main ()) := .init
  have work := start.step nofun (show step Line.next 7 _ = .ok _ from rfl)
  have yielded := work.step nofun (show step Line.next 0 _ = .ok _ from rfl)
  have wait := yielded.step (fun _ _ _ => not_onChain rfl) (show step Line.next 0 _ = .ok _ from rfl)
  exact ⟨_, wait, rfl, rfl⟩

/-- The chain of the coroutine that is waited for, and the end of it. -/
theorem waiting_control : ∃ s : State Line Unit, s.currentCo = some 7 ∧ (s.coroutines 7).state = .bewait ∧
    (∃ chain, Control s chain) ∧
      (∀ rand stop, Disciplined Line.next s → Libco.step Line.next rand s = .error stop → stop = .exit) ∧ WaitsRight s.log := by
  obtain ⟨s, reached, current, bewait⟩ := waiting_reached
  exact ⟨s, current, bewait, control_is_stack reached⟩

end Example

end OsLab.Libco
