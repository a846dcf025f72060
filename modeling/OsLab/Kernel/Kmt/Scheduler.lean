import OsLab.Kernel.Kmt.Model
import Mathlib.Data.List.Nodup

/-!
# The scheduler invariant

`Scheduled ncpu s` relates the states of the tasks, their processors and the table of
current tasks. `init` establishes it; `create`, `context_save` and `context_switch` keep it.
In a scheduled state with a task for every processor the search of `context_switch` ends:
the only task of a processor that can be working is the current one, and that one has just
been released.
-/

namespace OsLab.Kernel.Kmt

variable {Ctx : Type}

section TaskList

variable {head : List (Node Ctx)} {a : Nat} {f : Task Ctx → Task Ctx} {n m : Node Ctx}

@[simp] theorem addr_store : (n.store a f).addr = n.addr := by
  unfold Node.store
  split <;> rfl

theorem store_self (h : n.addr = a) : n.store a f = { n with task := f n.task } := if_pos h

theorem store_ne (h : n.addr ≠ a) : n.store a f = n := if_neg h

theorem mem_update : n ∈ update head a f ↔ ∃ m ∈ head, m.store a f = n := List.mem_map

@[simp] theorem length_update : (update head a f).length = head.length := List.length_map _

@[simp] theorem addrs_update : (update head a f).map Node.addr = head.map Node.addr := by
  unfold update
  rw [List.map_map]
  apply List.map_congr_left
  intro n _
  exact addr_store

/-- Nodes of a list without repeated addresses are determined by their addresses. -/
theorem eq_of_addr (nodup : (head.map Node.addr).Nodup) (hn : n ∈ head) (hm : m ∈ head)
    (same : n.addr = m.addr) : n = m :=
  List.inj_on_of_nodup_map nodup hn hm same

theorem deref_eq_some (nodup : (head.map Node.addr).Nodup) :
    deref head a = some n ↔ n ∈ head ∧ n.addr = a := by
  constructor
  · intro found
    exact ⟨List.mem_of_find?_eq_some found, by simpa using List.find?_some found⟩
  · rintro ⟨member, rfl⟩
    obtain ⟨m, found⟩ : ∃ m, deref head n.addr = some m :=
      Option.isSome_iff_exists.1 (List.find?_isSome.2 ⟨n, member, by simp⟩)
    have same : m.addr = n.addr := by simpa using List.find?_some found
    rw [found, eq_of_addr nodup (List.mem_of_find?_eq_some found) member same]

theorem getTask_eq (head : List (Node Ctx)) (position : Nat) : getTask head position = head[position]? := by
  induction head generalizing position with
  | nil => rfl
  | cons cur next ih =>
    cases position with
    | zero => rfl
    | succ position => exact ih position

theorem getLastTask_eq (head : List (Node Ctx)) : getLastTask head = head.getLast? := by
  have loop : ∀ (l : List (Node Ctx)) (ans : Option (Node Ctx)),
      getLastTaskFrom ans l = l.getLast?.or ans := by
    intro l
    induction l with
    | nil => intro ans; rfl
    | cons cur next ih =>
      intro ans
      rw [getLastTaskFrom, ih, List.getLast?_cons]
      cases next.getLast? <;> rfl
  unfold getLastTask
  rw [loop]
  cases head with
  | nil => rfl
  | cons cur next => rw [List.getLast?_cons]; rfl

theorem link_last (nodup : (head.map Node.addr).Nodup) (last : head.getLast? = some m) :
    link m.addr n head = head ++ [n] := by
  induction head with
  | nil => cases last
  | cons cur next ih =>
    cases next with
    | nil =>
      obtain rfl : cur = m := by simpa using last
      exact if_pos rfl
    | cons second rest =>
      rw [List.map_cons, List.nodup_cons] at nodup
      rw [List.getLast?_cons_cons] at last
      have other : cur.addr ≠ m.addr := by
        intro same
        apply nodup.1
        rw [same]
        exact List.mem_map_of_mem (List.mem_of_getLast? last)
      rw [link, if_neg other, ih nodup.2 last]
      rfl

end TaskList

section Search

variable {head : List (Node Ctx)} {cpu : Nat}

/-- The search returns the first free task of `cpu` in the cyclic order from `index` on. -/
theorem searchTask_spec {tk : Node Ctx} (d fuel index : Nat) (inside : d < fuel)
    (found : head[(index + d) % head.length]? = some tk) (free : tk.task.state = .free)
    (bound : tk.task.cpu = cpu)
    (first : ∀ e < d, ∀ n, head[(index + e) % head.length]? = some n →
      ¬ (n.task.state = .free ∧ n.task.cpu = cpu)) :
    searchTask cpu head.length head fuel index (getTask head (index % head.length)) = .ok tk := by
  induction fuel generalizing index d with
  | zero => exact absurd inside (Nat.not_lt_zero d)
  | succ fuel ih =>
    have position : 0 < head.length := Nat.zero_lt_of_lt (List.getElem?_eq_some_iff.1 found).1
    rw [getTask_eq]
    cases d with
    | zero =>
      rw [Nat.add_zero] at found
      rw [found]
      exact if_pos ⟨free, bound⟩
    | succ d =>
      have range : index % head.length < head.length := Nat.mod_lt _ position
      have here := first 0 (Nat.succ_pos d) _ (List.getElem?_eq_getElem range)
      have wrap : ∀ e, ((index + 1) % head.length + e) % head.length = (index + (e + 1)) % head.length := by
        intro e
        rw [Nat.mod_add_mod]
        congr 1
        omega
      rw [List.getElem?_eq_getElem range, searchTask, if_neg here]
      have next := ih d ((index + 1) % head.length) (by omega) (by rw [wrap]; exact found)
        (fun e lt n at' => first (e + 1) (by omega) n (by rw [wrap] at at'; exact at'))
      rw [Nat.mod_mod] at next
      exact next

/-- A search that meets a free task of `cpu` somewhere in the list ends within one round. -/
theorem searchTask_ends {n : Node Ctx} (member : n ∈ head) (free : n.task.state = .free)
    (bound : n.task.cpu = cpu) (index : Nat) :
    ∃ tk ∈ head, tk.task.state = .free ∧ tk.task.cpu = cpu ∧
      searchTask cpu head.length head head.length index (getTask head (index % head.length)) = .ok tk := by
  classical
  let Hit (d : Nat) : Prop :=
    ∃ tk, head[(index + d) % head.length]? = some tk ∧ tk.task.state = .free ∧ tk.task.cpu = cpu
  obtain ⟨i, range, at'⟩ := List.getElem_of_mem member
  -- from `index` on, position `i` comes after this many rounds
  have hit : Hit ((i + (head.length - index % head.length)) % head.length) := by
    have position : (index + (i + (head.length - index % head.length)) % head.length) % head.length = i := by
      rw [Nat.add_mod_mod, ← Nat.mod_add_mod]
      have small : index % head.length < head.length := Nat.mod_lt _ (by omega)
      rw [show index % head.length + (i + (head.length - index % head.length)) = i + head.length by omega,
        Nat.add_mod_right, Nat.mod_eq_of_lt range]
    refine ⟨n, ?_, free, bound⟩
    rw [position, List.getElem?_eq_getElem range, at']
  obtain ⟨tk, found, free', bound'⟩ := Nat.find_spec ⟨_, hit⟩
  refine ⟨tk, List.mem_of_getElem? found, free', bound', ?_⟩
  apply searchTask_spec _ _ _ _ found free' bound'
  · intro e lt m at' ⟨freeM, boundM⟩
    exact Nat.find_min ⟨_, hit⟩ lt ⟨m, at', freeM, boundM⟩
  · apply Nat.lt_of_le_of_lt (Nat.find_min' ⟨_, hit⟩ hit)
    exact Nat.mod_lt _ (by omega)

/-- A search returns a free task of `cpu`. -/
theorem searchTask_ok {count fuel index : Nat} {tk n : Node Ctx}
    (run : searchTask cpu count head fuel index (some n) = .ok tk) (member : n ∈ head) :
    tk ∈ head ∧ tk.task.state = .free ∧ tk.task.cpu = cpu := by
  induction fuel generalizing index n with
  | zero => cases run
  | succ fuel ih =>
    rw [searchTask] at run
    by_cases hit : n.task.state = .free ∧ n.task.cpu = cpu
    · rw [if_pos hit, Except.ok.injEq] at run
      subst run
      exact ⟨member, hit⟩
    · rw [if_neg hit, getTask_eq] at run
      cases next : head[(index + 1) % count]? with
      | none =>
        rw [next] at run
        cases fuel <;> cases run
      | some m =>
        rw [next] at run
        exact ih run (List.mem_of_getElem? next)

end Search

section Invariant

variable {ncpu cpu : Nat} {s s' : State Ctx}

/-- What the task list and the table of current tasks keep to. -/
structure Scheduled (ncpu : Nat) (s : State Ctx) : Prop where
  nodup : (s.head.map Node.addr).Nodup
  count : s.taskCount = s.head.length
  /-- Tasks are dealt out to the processors in the order of their creation. -/
  dealt : ∀ (i : Nat) n, s.head[i]? = some n → n.task.cpu = i % ncpu
  /-- A current task works, on the processor it is bound to. -/
  current : ∀ c a, s.current c = some a →
    ∃ n ∈ s.head, n.addr = a ∧ n.task.cpu = c ∧ n.task.state = .working
  /-- A working task is current on the processor it is bound to. -/
  working : ∀ n ∈ s.head, n.task.state = .working → s.current n.task.cpu = some n.addr

theorem scheduled_init : Scheduled ncpu (init : State Ctx) := by
  refine ⟨List.nodup_nil, rfl, ?_, ?_, ?_⟩
  · intro i n at'
    cases at'
  · intro c a running
    cases running
  · intro n member
    cases member

/-- What `create` does, with a node that `pmm` has not handed out before. -/
theorem create_ok {kcontext : Area → Nat → Nat → Ctx} {stack tn entry arg : Nat} {name : String}
    (nodup : (s.head.map Node.addr).Nodup)
    (run : create kcontext ncpu stack tn name entry arg s = .ok s') :
    ∃ task : Task Ctx, task.state = .free ∧ task.cpu = s.taskCount % ncpu ∧
      task.context = initialContext kcontext task ∧
      s' = { s with head := s.head ++ [⟨tn, task⟩], taskCount := s.taskCount + 1 } := by
  unfold create at run
  by_cases none : ncpu = 0
  · rw [if_pos none] at run
    cases run
  rw [if_neg none] at run
  obtain ⟨-, run⟩ := kassert_bind_eq_ok.1 run
  by_cases null : tn = 0
  · rw [if_pos null] at run
    cases run
  rw [if_neg null] at run
  let task : Task Ctx := ⟨s.taskCount + 1, name, entry, arg, kcontext ⟨stack, stack + stackSize - 1⟩ entry arg,
    stack, s.taskCount % ncpu, .free, List.replicate nFile 0⟩
  refine ⟨task, rfl, rfl, rfl, ?_⟩
  by_cases empty : s.head = []
  · simp only [if_pos empty] at run
    refine (Except.ok.inj run).symm.trans ?_
    rw [empty]
    rfl
  · obtain ⟨last, tail⟩ : ∃ last, s.head.getLast? = some last :=
      ⟨_, List.getLast?_eq_some_getLast empty⟩
    simp only [if_neg empty, getLastTask_eq, tail] at run
    refine (Except.ok.inj run).symm.trans ?_
    rw [link_last nodup tail]

theorem scheduled_create {kcontext : Area → Nat → Nat → Ctx} {stack tn entry arg : Nat} {name : String}
    (inv : Scheduled ncpu s) (fresh : tn ∉ s.head.map Node.addr)
    (run : create kcontext ncpu stack tn name entry arg s = .ok s') : Scheduled ncpu s' := by
  obtain ⟨task, free, bound, -, rfl⟩ := create_ok inv.nodup run
  constructor
  · show ((s.head ++ [_]).map Node.addr).Nodup
    rw [List.map_append, List.map_singleton]
    exact inv.nodup.append (List.nodup_singleton _) (by simpa using fresh)
  · show s.taskCount + 1 = (s.head ++ [_]).length
    rw [List.length_append, inv.count, List.length_singleton]
  · intro i n at'
    rcases Nat.lt_trichotomy i s.head.length with lt | rfl | gt
    · rw [List.getElem?_append_left lt] at at'
      exact inv.dealt i n at'
    · obtain rfl : ⟨tn, task⟩ = n := by simpa using at'
      rw [← inv.count]
      exact bound
    · rw [List.getElem?_eq_none (by simp; omega)] at at'
      cases at'
  · intro c a running
    obtain ⟨n, member, facts⟩ := inv.current c a running
    exact ⟨n, List.mem_append_left _ member, facts⟩
  · intro n member works
    rcases List.mem_append.1 member with member | member
    · exact inv.working n member works
    · obtain rfl := List.mem_singleton.1 member
      rw [free] at works
      cases works

/-- Any number of calls of `create`, each with a node that `pmm` has not handed out before. -/
inductive Creates (kcontext : Area → Nat → Nat → Ctx) (ncpu : Nat) (s : State Ctx) : State Ctx → Prop where
  | refl : Creates kcontext ncpu s s
  | create {t t' : State Ctx} {stack tn entry arg : Nat} {name : String} :
      Creates kcontext ncpu s t → tn ∉ t.head.map Node.addr →
      create kcontext ncpu stack tn name entry arg t = .ok t' → Creates kcontext ncpu s t'

theorem Creates.trans {kcontext : Area → Nat → Nat → Ctx} {s'' : State Ctx}
    (first : Creates kcontext ncpu s s') (second : Creates kcontext ncpu s' s'') :
    Creates kcontext ncpu s s'' := by
  induction second with
  | refl => exact first
  | create _ fresh run ih => exact .create ih fresh run

theorem scheduled_creates {kcontext : Area → Nat → Nat → Ctx} (inv : Scheduled ncpu s)
    (creates : Creates kcontext ncpu s s') : Scheduled ncpu s' := by
  induction creates with
  | refl => exact inv
  | create _ fresh run ih => exact scheduled_create ih fresh run

/-- `create` leaves the current tasks alone. -/
theorem Creates.current {kcontext : Area → Nat → Nat → Ctx} (inv : Scheduled ncpu s)
    (creates : Creates kcontext ncpu s s') : s'.current = s.current := by
  induction creates with
  | refl => rfl
  | create before fresh run ih =>
    obtain ⟨task, -, -, -, rfl⟩ := create_ok (scheduled_creates inv before).nodup run
    exact ih

/-- `context_save` always returns, and changes at most a context. -/
theorem contextSave_eq (cpu : Nat) (context : Ctx) (s : State Ctx) :
    contextSave cpu context s = .ok (none, match s.current cpu with
      | none => s
      | some cur => { s with head := update s.head cur fun t => { t with context := context } }) := by
  unfold contextSave
  cases s.current cpu <;> rfl

theorem contextSave_count {context : Ctx} {r : Option ContextPtr}
    (run : contextSave cpu context s = .ok (r, s')) : s'.taskCount = s.taskCount := by
  rw [contextSave_eq] at run
  obtain ⟨-, rfl⟩ := Prod.mk.inj (Except.ok.inj run)
  cases s.current cpu <;> rfl

/-- A store that keeps processors and states of tasks keeps the invariant. -/
theorem Scheduled.update (inv : Scheduled ncpu s) {a : Nat} {f : Task Ctx → Task Ctx}
    (cpus : ∀ t, (f t).cpu = t.cpu) (states : ∀ t, (f t).state = t.state) :
    Scheduled ncpu { s with head := update s.head a f } := by
  have same : ∀ n : Node Ctx, (n.store a f).task.cpu = n.task.cpu ∧ (n.store a f).task.state = n.task.state := by
    intro n
    by_cases here : n.addr = a
    · rw [store_self here]
      exact ⟨cpus _, states _⟩
    · rw [store_ne here]
      exact ⟨rfl, rfl⟩
  constructor
  · show ((Kmt.update s.head a f).map Node.addr).Nodup
    rw [addrs_update]
    exact inv.nodup
  · show s.taskCount = (Kmt.update s.head a f).length
    rw [length_update]
    exact inv.count
  · intro i n at'
    obtain ⟨m, before, rfl⟩ : ∃ m, s.head[i]? = some m ∧ m.store a f = n := by
      simpa [Kmt.update, List.getElem?_map] using at'
    rw [(same m).1]
    exact inv.dealt i m before
  · intro c b running
    obtain ⟨n, member, rfl, bound, works⟩ := inv.current c b running
    refine ⟨n.store a f, mem_update.2 ⟨n, member, rfl⟩, addr_store, ?_, ?_⟩
    · rw [(same n).1, bound]
    · rw [(same n).2, works]
  · intro n member works
    obtain ⟨m, before, rfl⟩ := mem_update.1 member
    rw [(same m).2] at works
    rw [(same m).1, addr_store]
    exact inv.working m before works

theorem scheduled_save (inv : Scheduled ncpu s) {context : Ctx} {r : Option ContextPtr}
    (run : contextSave cpu context s = .ok (r, s')) : Scheduled ncpu s' := by
  rw [contextSave_eq] at run
  obtain ⟨-, rfl⟩ := Prod.mk.inj (Except.ok.inj run)
  cases s.current cpu with
  | none => exact inv
  | some cur => exact inv.update (fun _ => rfl) fun _ => rfl

/-- A node whose task is in another state. -/
def Node.withState (state : Node Ctx → TaskState) (n : Node Ctx) : Node Ctx :=
  { n with task := { n.task with state := state n } }

/-- The state of a task once the current task of `cpu` has been released. -/
def releasedState (cpu : Nat) (s : State Ctx) (n : Node Ctx) : TaskState :=
  if s.current cpu = some n.addr then .free else n.task.state

/-- The state of a task after a switch of `cpu` to the node at `tk`. -/
def switchedState (cpu tk : Nat) (s : State Ctx) (n : Node Ctx) : TaskState :=
  if n.addr = tk then .working else releasedState cpu s n

theorem releaseCurrent_eq (inv : Scheduled ncpu s) :
    releaseCurrent cpu s = .ok { s with head := s.head.map (Node.withState (releasedState cpu s)) } := by
  unfold releaseCurrent
  cases running : s.current cpu with
  | none =>
    have same : s.head.map (Node.withState (releasedState cpu s)) = s.head := by
      refine (List.map_congr_left fun n _ => ?_).trans (List.map_id _)
      unfold Node.withState releasedState
      rw [running, if_neg (by simp)]
      rfl
    rw [same]
  | some cur =>
    obtain ⟨n, member, addr, -, works⟩ := inv.current cpu cur running
    have found : deref s.head cur = some n := (deref_eq_some inv.nodup).2 ⟨member, addr⟩
    simp only [found, kassert_pos works]
    have same : update s.head cur (fun t => { t with state := .free }) =
        s.head.map (Node.withState (releasedState cpu s)) := by
      apply List.map_congr_left
      intro m _
      unfold Node.withState releasedState
      by_cases here : m.addr = cur
      · rw [store_self here, running, if_pos (by rw [here])]
      · rw [store_ne here, running, if_neg fun h => here (Option.some.inj h).symm]
    rw [same]
    rfl

/-- What `context_switch` does on `cpu`: it releases the current task and sets the task of
`n` to work, a task of `cpu` which is free then. -/
structure Switched (cpu : Nat) (s s' : State Ctx) (n : Node Ctx) : Prop where
  member : n ∈ s.head
  bound : n.task.cpu = cpu
  free : releasedState cpu s n = .free
  result : s' = { s with
    head := s.head.map (Node.withState (switchedState cpu n.addr s))
    current := fun c => if c = cpu then some n.addr else s.current c }

/-- `switchTo` after `releaseCurrent`. -/
theorem switched_switchTo (inv : Scheduled ncpu s) {n : Node Ctx} (member : n ∈ s.head)
    (bound : n.task.cpu = cpu) (free : releasedState cpu s n = .free) :
    Switched cpu s
      (switchTo cpu n.addr { s with head := s.head.map (Node.withState (releasedState cpu s)) }) n := by
  refine ⟨member, bound, free, ?_⟩
  unfold switchTo update
  rw [List.map_map]
  congr 1
  apply List.map_congr_left
  intro m hm
  show Node.store n.addr _ (m.withState _) = m.withState _
  by_cases here : m.addr = n.addr
  · obtain rfl := eq_of_addr inv.nodup hm member here
    rw [store_self (by exact here)]
    unfold Node.withState switchedState
    rw [if_pos here, ← bound]
  · rw [store_ne (by exact here)]
    unfold Node.withState switchedState
    rw [if_neg here]

/-- A result of `context_switch` is a switch. -/
theorem contextSwitch_ok (inv : Scheduled ncpu s) {r : Option ContextPtr}
    (run : contextSwitch cpu s = .ok (r, s')) :
    ∃ n, Switched cpu s s' n ∧ r = some (.ofTask n.addr) := by
  unfold contextSwitch at run
  by_cases none : s.taskCount = 0
  · simp only [if_pos none] at run
    cases run
  simp only [if_neg none] at run
  obtain ⟨-, run⟩ := kassert_bind_eq_ok.1 run
  rw [releaseCurrent_eq inv, ok_bind] at run
  obtain ⟨tk, search, run⟩ := bind_eq_ok.1 run
  obtain ⟨rfl, rfl⟩ := Prod.mk.inj (Except.ok.inj run)
  obtain ⟨member, free, bound⟩ : tk ∈ s.head.map (Node.withState (releasedState cpu s)) ∧
      tk.task.state = .free ∧ tk.task.cpu = cpu := by
    rw [getTask_eq] at search
    cases start : (s.head.map (Node.withState (releasedState cpu s)))[
        (findTaskIndex s.head (s.current cpu) + 1).toNat % s.taskCount]? with
    | none =>
      rw [start] at search
      cases count : s.taskCount with
      | zero => exact absurd count none
      | succ fuel =>
        rw [count] at search
        cases search
    | some n =>
      rw [start] at search
      exact searchTask_ok search (List.mem_of_getElem? start)
  obtain ⟨n, before, rfl⟩ := List.mem_map.1 member
  exact ⟨n, switched_switchTo inv before bound free, rfl⟩

/-- Once the current task of a processor is released, all its tasks are free. -/
theorem released_free (inv : Scheduled ncpu s) {n : Node Ctx} (member : n ∈ s.head)
    (bound : n.task.cpu = cpu) : releasedState cpu s n = .free := by
  unfold releasedState
  by_cases running : s.current cpu = some n.addr
  · exact if_pos running
  · rw [if_neg running]
    cases state : n.task.state with
    | free => rfl
    | working =>
      have current := inv.working n member state
      rw [bound] at current
      exact absurd current running

/-- With a task for every processor, `context_switch` returns. -/
theorem contextSwitch_returns (inv : Scheduled ncpu s) (below : cpu < ncpu) (tasks : ncpu ≤ s.taskCount) :
    ∃ n s', contextSwitch cpu s = .ok (some (.ofTask n.addr), s') ∧ Switched cpu s s' n := by
  have length := inv.count
  have positive : 0 < s.head.length := by omega
  -- the task number `cpu` is bound to `cpu`, and free once the current task is released
  have range : cpu < s.head.length := by omega
  have bound : s.head[cpu].task.cpu = cpu := by
    rw [inv.dealt cpu _ (List.getElem?_eq_getElem range), Nat.mod_eq_of_lt below]
  have free := released_free inv (List.getElem_mem range) bound
  obtain ⟨tk, member, free', bound', search⟩ := searchTask_ends
    (List.mem_map_of_mem (f := Node.withState (releasedState cpu s)) (List.getElem_mem range)) free bound
    (findTaskIndex s.head (s.current cpu) + 1).toNat
  obtain ⟨n, before, rfl⟩ := List.mem_map.1 member
  refine ⟨n, _, ?_, switched_switchTo inv before bound' free'⟩
  rw [List.length_map, ← length] at search
  have start : (getTask s.head ((findTaskIndex s.head (s.current cpu) + 1).toNat % s.taskCount)).isSome := by
    rw [getTask_eq, List.getElem?_eq_getElem (by rw [length]; exact Nat.mod_lt _ positive)]
    rfl
  unfold contextSwitch
  simp only [if_neg (show ¬ s.taskCount = 0 by omega), kassert_pos start, releaseCurrent_eq inv]
  simp only [ok_bind, search]
  rfl

theorem scheduled_switch (inv : Scheduled ncpu s) {n : Node Ctx} (switch : Switched cpu s s' n) :
    Scheduled ncpu s' := by
  obtain ⟨target, bound, -, rfl⟩ := switch
  have working : ∀ m : Node Ctx, (m.withState (switchedState cpu n.addr s)).task.state = .working →
      m.addr = n.addr ∨ (s.current cpu ≠ some m.addr ∧ m.task.state = .working) := by
    intro m works
    change switchedState cpu n.addr s m = .working at works
    unfold switchedState releasedState at works
    by_cases here : m.addr = n.addr
    · exact Or.inl here
    · rw [if_neg here] at works
      by_cases running : s.current cpu = some m.addr
      · rw [if_pos running] at works
        cases works
      · rw [if_neg running] at works
        exact Or.inr ⟨running, works⟩
  constructor
  · show ((s.head.map (Node.withState _)).map Node.addr).Nodup
    rw [List.map_map]
    exact inv.nodup
  · show s.taskCount = (s.head.map _).length
    rw [List.length_map]
    exact inv.count
  · intro i m at'
    obtain ⟨m, before, rfl⟩ : ∃ k, s.head[i]? = some k ∧ k.withState _ = m := by
      simpa [List.getElem?_map] using at'
    exact inv.dealt i m before
  · intro c a running
    by_cases own : c = cpu
    · subst own
      obtain rfl : n.addr = a := by simpa using running
      refine ⟨_, List.mem_map_of_mem target, rfl, bound, ?_⟩
      exact if_pos rfl
    · simp only [if_neg own] at running
      obtain ⟨m, member, rfl, bound', works⟩ := inv.current c a running
      refine ⟨_, List.mem_map_of_mem member, rfl, bound', ?_⟩
      show switchedState cpu n.addr s m = .working
      unfold switchedState releasedState
      have other : ¬ s.current cpu = some m.addr := by
        intro shared
        obtain ⟨k, hk, addr, bound'', -⟩ := inv.current cpu m.addr shared
        rw [eq_of_addr inv.nodup hk member addr] at bound''
        exact own (bound'.symm.trans bound'')
      rw [if_neg other, works, ite_self]
  · intro k member works
    obtain ⟨m, before, rfl⟩ := List.mem_map.1 member
    show (if m.task.cpu = cpu then some n.addr else s.current m.task.cpu) = some m.addr
    rcases working m works with here | ⟨idle, works⟩
    · rw [eq_of_addr inv.nodup before target here, if_pos bound]
    · have running := inv.working m before works
      by_cases own : m.task.cpu = cpu
      · rw [own] at running
        exact absurd running idle
      · rw [if_neg own]
        exact running

end Invariant

end OsLab.Kernel.Kmt
