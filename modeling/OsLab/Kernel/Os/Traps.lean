import OsLab.Kernel.Os.Irq

/-!
# Runs of the scheduler

`Run` collects the states that any sequence of `kmt->create`, `os->on_irq` and traps can
reach, with the history of the traps. Every run keeps the scheduler invariant, and
`scheduler_safe` reads it as what the processors rely on: with a task for every processor a
trap always finds one to run, and no task ever runs on two processors.
-/

namespace OsLab.Kernel.Os

open OsLab.Kernel.Kmt (ContextPtr Area Node Scheduled Switched Creates)

variable {Ctx W : Type}

/-- A handler that returns `NULL`. It may change the rest of the kernel and create tasks. -/
def Quiet (kcontext : Area → Nat → Nat → Ctx) (ncpu : Nat) (h : IrqHandler Ctx W) : Prop :=
  ∀ cpu ev context s r s', h.handler cpu ev context s = .ok (r, s') →
    r = none ∧ Creates kcontext ncpu s.1 s'.1

/-- The handlers of `kmt`, any others of a kind `Other`, and the order of `on_irq`. -/
structure Registered (Other : IrqHandler Ctx W → Prop) (head : List (IrqHandler Ctx W)) : Prop where
  ordered : Ordered head
  handlers : ∃ others, head.Perm (contextSaveIrq :: contextSwitchIrq :: others) ∧ ∀ h ∈ others, Other h

/-- A trap: its processor, the context it saves and the current task on its entry. -/
structure Entry (Ctx : Type) where
  cpu : Nat
  context : Ctx
  current : Option Nat

/-- Runs from the end of `kmt->init`, over `ncpu` processors. The calls of `on_irq` may come
in any order; between traps other code changes the rest of the kernel. -/
inductive Run (kcontext : Area → Nat → Nat → Ctx) (ncpu : Nat) (Other : IrqHandler Ctx W → Prop) :
    State Ctx W → List (Entry Ctx) → Prop where
  | init (calls : List (IrqHandler Ctx W)) {others : List (IrqHandler Ctx W)} (rest : W) :
      calls.Perm (contextSaveIrq :: contextSwitchIrq :: others) → (∀ h ∈ others, Other h) →
      Run kcontext ncpu Other ⟨calls.foldr onIrq [], Kmt.init, rest⟩ []
  | onIrq {s : State Ctx W} {hist : List (Entry Ctx)} {ih : IrqHandler Ctx W} :
      Run kcontext ncpu Other s hist → Other ih →
      Run kcontext ncpu Other { s with head := onIrq ih s.head } hist
  | create {s : State Ctx W} {hist : List (Entry Ctx)} {kmt : Kmt.State Ctx} {stack tn entry arg : Nat}
      {name : String} :
      Run kcontext ncpu Other s hist → tn ∉ s.kmt.head.map Node.addr →
      Kmt.create kcontext ncpu stack tn name entry arg s.kmt = .ok kmt →
      Run kcontext ncpu Other { s with kmt := kmt } hist
  | other {s : State Ctx W} {hist : List (Entry Ctx)} (rest : W) :
      Run kcontext ncpu Other s hist → Run kcontext ncpu Other { s with rest := rest } hist
  | trap {s s' : State Ctx W} {hist : List (Entry Ctx)} {cpu : Nat} {ev : Event} {context : Ctx}
      {r : ContextPtr} :
      Run kcontext ncpu Other s hist → cpu < ncpu → trap cpu ev context s = .ok (r, s') →
      Run kcontext ncpu Other s' (⟨cpu, context, s.kmt.current cpu⟩ :: hist)

section Handlers

variable {Other : IrqHandler Ctx W → Prop} {head : List (IrqHandler Ctx W)}

theorem registered_calls {calls others : List (IrqHandler Ctx W)}
    (perm : calls.Perm (contextSaveIrq :: contextSwitchIrq :: others)) (all : ∀ h ∈ others, Other h) :
    Registered Other (calls.foldr onIrq []) := by
  have folded : ∀ calls : List (IrqHandler Ctx W),
      Ordered (calls.foldr onIrq []) ∧ (calls.foldr onIrq []).Perm calls := by
    intro calls
    induction calls with
    | nil => exact ⟨List.Pairwise.nil, .refl _⟩
    | cons ih calls hyp => exact ⟨onIrq_ordered hyp.1, (onIrq_perm ih _).trans (hyp.2.cons ih)⟩
  exact ⟨(folded calls).1, others, (folded calls).2.trans perm, all⟩

theorem Registered.onIrq (h : Registered Other head) {ih : IrqHandler Ctx W} (other : Other ih) :
    Registered Other (onIrq ih head) := by
  obtain ⟨ordered, others, perm, all⟩ := h
  refine ⟨onIrq_ordered ordered, ih :: others, ?_, ?_⟩
  · apply (onIrq_perm ih head).trans
    apply (perm.cons ih).trans
    exact (List.Perm.swap _ _ _).trans ((List.Perm.swap _ _ _).cons _)
  · intro h member
    rcases List.mem_cons.1 member with rfl | member
    · exact other
    · exact all h member

theorem Registered.mono {Other' : IrqHandler Ctx W → Prop} (h : Registered Other head)
    (weaker : ∀ h, Other h → Other' h) : Registered Other' head := by
  obtain ⟨ordered, others, perm, all⟩ := h
  exact ⟨ordered, others, perm, fun h member => weaker h (all h member)⟩

/-- `context_save` comes before `context_switch`. -/
theorem Registered.split (h : Registered Other head) :
    ∃ l₁ l₂ l₃, head = l₁ ++ contextSaveIrq :: (l₂ ++ contextSwitchIrq :: l₃) ∧
      (∀ h ∈ l₁, Other h) ∧ (∀ h ∈ l₂, Other h) ∧ ∀ h ∈ l₃, Other h := by
  obtain ⟨ordered, others, perm, all⟩ := h
  obtain ⟨l₁, l, rfl⟩ := List.append_of_mem (perm.mem_iff.2 List.mem_cons_self)
  have rest : (l₁ ++ l).Perm (contextSwitchIrq :: others) :=
    List.Perm.cons_inv (List.perm_middle.symm.trans perm)
  have member : contextSwitchIrq ∈ l := by
    rcases List.mem_append.1 (rest.mem_iff.2 List.mem_cons_self) with before | after
    · have wrong : (10000 : Int) ≤ -10000 :=
        (List.pairwise_append.1 ordered).2.2 _ before _ List.mem_cons_self
      omega
    · exact after
  obtain ⟨l₂, l₃, rfl⟩ := List.append_of_mem member
  have same : (l₁ ++ l₂ ++ l₃).Perm others := by
    rw [← List.append_assoc] at rest
    exact List.Perm.cons_inv (List.perm_middle.symm.trans rest)
  have others' : ∀ h ∈ l₁ ++ l₂ ++ l₃, Other h := fun h member => all h (same.mem_iff.1 member)
  refine ⟨l₁, l₂, l₃, rfl, ?_, ?_, ?_⟩
  · exact fun h member => others' h (by simp [member])
  · exact fun h member => others' h (by simp [member])
  · exact fun h member => others' h (by simp [member])

end Handlers

section Trap

variable {kcontext : Area → Nat → Nat → Ctx} {ncpu cpu : Nat} {ev : Event} {context : Ctx}
  {ret r : ContextPtr}

theorem runHandlers_quiet {l : List (IrqHandler Ctx W)} {s s' : Kmt.State Ctx × W}
    (quiet : ∀ h ∈ l, Quiet kcontext ncpu h) (run : runHandlers cpu ev context l ret s = .ok (r, s')) :
    r = ret ∧ Creates kcontext ncpu s.1 s'.1 := by
  induction l generalizing s with
  | nil =>
    obtain ⟨rfl, rfl⟩ := Prod.mk.inj (Except.ok.inj run)
    exact ⟨rfl, .refl⟩
  | cons cur next ih =>
    have quiet' : ∀ h ∈ next, Quiet kcontext ncpu h := fun h member => quiet h (List.mem_cons_of_mem _ member)
    rw [runHandlers] at run
    by_cases called : cur.event = eventNull ∨ cur.event = ev.event
    · rw [if_pos called] at run
      obtain ⟨⟨found, t⟩, first, run⟩ := bind_eq_ok.1 run
      obtain ⟨rfl, creates⟩ := quiet cur List.mem_cons_self _ _ _ _ _ _ first
      obtain ⟨same, creates'⟩ := ih quiet' run
      exact ⟨same, creates.trans creates'⟩
    · rw [if_neg called] at run
      exact ih quiet' run

/-- A trap saves the context of the current task and then switches; all other handlers
together only create tasks. -/
theorem trap_ok {s s' : State Ctx W} (handlers : Registered (Quiet kcontext ncpu) s.head)
    (run : trap cpu ev context s = .ok (r, s')) :
    ∃ k₁ k₂ k₃ k₄ found, Creates kcontext ncpu s.kmt k₁ ∧
      Kmt.contextSave cpu context k₁ = .ok (none, k₂) ∧ Creates kcontext ncpu k₂ k₃ ∧
      Kmt.contextSwitch cpu k₃ = .ok (found, k₄) ∧ Creates kcontext ncpu k₄ s'.kmt ∧
      r = found.getD .passed ∧ s'.head = s.head := by
  obtain ⟨l₁, l₂, l₃, split, quiet₁, quiet₂, quiet₃⟩ := handlers.split
  unfold trap at run
  obtain ⟨⟨ret, kmt, rest⟩, handled, run⟩ := bind_eq_ok.1 run
  obtain ⟨rfl, rfl⟩ := Prod.mk.inj (Except.ok.inj run)
  rw [split, runHandlers_append] at handled
  obtain ⟨⟨r₁, t₁⟩, first, handled⟩ := bind_eq_ok.1 handled
  obtain ⟨rfl, creates₁⟩ := runHandlers_quiet quiet₁ first
  rw [runHandlers_save] at handled
  obtain ⟨⟨saved, k₂⟩, save, handled⟩ := bind_eq_ok.1 handled
  obtain rfl : none = saved := by
    rw [Kmt.contextSave_eq] at save
    exact (Prod.mk.inj (Except.ok.inj save)).1
  rw [runHandlers_append] at handled
  obtain ⟨⟨r₂, t₃⟩, second, handled⟩ := bind_eq_ok.1 handled
  obtain ⟨rfl, creates₂⟩ := runHandlers_quiet quiet₂ second
  rw [runHandlers_switch] at handled
  obtain ⟨⟨found, k₄⟩, switch, handled⟩ := bind_eq_ok.1 handled
  obtain ⟨rfl, creates₃⟩ := runHandlers_quiet quiet₃ handled
  exact ⟨_, _, _, _, _, creates₁, save, creates₂, switch, creates₃, rfl, rfl⟩

end Trap

section Runs

variable {kcontext : Area → Nat → Nat → Ctx} {ncpu cpu : Nat} {Other : IrqHandler Ctx W → Prop}
  {s s' : State Ctx W} {hist : List (Entry Ctx)}

/-- A trap keeps the scheduler invariant. -/
theorem scheduled_trap {ev : Event} {context : Ctx} {r : ContextPtr} (inv : Scheduled ncpu s.kmt)
    (handlers : Registered (Quiet kcontext ncpu) s.head)
    (run : trap cpu ev context s = .ok (r, s')) : Scheduled ncpu s'.kmt := by
  obtain ⟨k₁, k₂, k₃, k₄, found, creates₁, save, creates₂, switch, creates₃, -, -⟩ := trap_ok handlers run
  have saved := Kmt.scheduled_save (Kmt.scheduled_creates inv creates₁) save
  have ready := Kmt.scheduled_creates saved creates₂
  obtain ⟨n, switched, -⟩ := Kmt.contextSwitch_ok ready switch
  exact Kmt.scheduled_creates (Kmt.scheduled_switch ready switched) creates₃

/-- Every run keeps the scheduler invariant and the order of the handlers. -/
theorem Run.inv (quiet : ∀ h, Other h → Quiet kcontext ncpu h) (run : Run kcontext ncpu Other s hist) :
    Scheduled ncpu s.kmt ∧ Registered Other s.head := by
  induction run with
  | init calls rest perm others => exact ⟨Kmt.scheduled_init, registered_calls perm others⟩
  | onIrq _ other ih => exact ⟨ih.1, ih.2.onIrq other⟩
  | create _ fresh run ih => exact ⟨Kmt.scheduled_create ih.1 fresh run, ih.2⟩
  | other rest _ ih => exact ih
  | trap _ _ run ih =>
    have handlers := ih.2.mono quiet
    obtain ⟨k₁, k₂, k₃, k₄, found, -, -, -, -, -, -, same⟩ := trap_ok handlers run
    refine ⟨scheduled_trap ih.1 handlers run, ?_⟩
    rw [same]
    exact ih.2

/-- What the processors rely on in a state with a task for each of them. -/
structure SchedulerSafe (ncpu : Nat) (s : State Ctx W) : Prop where
  /-- A trap returns the context of a task of the trapping processor, which is its current
  task from then on: the search ends and no assertion fails. -/
  returns : ∀ cpu < ncpu, ∀ ev context, ∃ s' n, trap cpu ev context s = .ok (.ofTask n.addr, s') ∧
    n ∈ s'.kmt.head ∧ n.task.cpu = cpu ∧ s'.kmt.current cpu = some n.addr
  working : ∀ n ∈ s.kmt.head, n.task.state = .working ↔ ∃ c, s.kmt.current c = some n.addr
  bound : ∀ c a, s.kmt.current c = some a → ∃ n ∈ s.kmt.head, n.addr = a ∧ n.task.cpu = c
  apart : ∀ c c' a, s.kmt.current c = some a → s.kmt.current c' = some a → c = c'

/-- **Scheduler safety.** In every state that calls of `create` and traps on any processors
can reach, once there is a task for every processor, every further trap finds a task to run,
the working tasks are the current ones, and each runs on the one processor it is bound to. -/
theorem scheduler_safe (run : Run kcontext ncpu (fun _ => False) s hist) (tasks : ncpu ≤ s.kmt.taskCount) :
    SchedulerSafe ncpu s := by
  obtain ⟨inv, handlers⟩ := run.inv (fun _ wrong => wrong.elim)
  have owner : ∀ c a, s.kmt.current c = some a → ∃ n ∈ s.kmt.head, n.addr = a ∧ n.task.cpu = c := by
    intro c a running
    obtain ⟨n, member, addr, bound, -⟩ := inv.current c a running
    exact ⟨n, member, addr, bound⟩
  constructor
  · intro cpu below ev context
    obtain ⟨l₁, l₂, l₃, split, none₁, none₂, none₃⟩ := handlers.split
    obtain rfl : l₁ = [] := List.eq_nil_iff_forall_not_mem.2 none₁
    obtain rfl : l₂ = [] := List.eq_nil_iff_forall_not_mem.2 none₂
    obtain rfl : l₃ = [] := List.eq_nil_iff_forall_not_mem.2 none₃
    have saved := Kmt.contextSave_eq cpu context s.kmt
    have ready := Kmt.scheduled_save inv saved
    obtain ⟨tk, k, switch, switched⟩ := Kmt.contextSwitch_returns ready below
      (by rw [Kmt.contextSave_count saved]; exact tasks)
    have after := Kmt.scheduled_switch ready switched
    have running : k.current cpu = some tk.addr := by
      rw [switched.result]
      exact if_pos rfl
    obtain ⟨n, member, addr, bound, -⟩ := after.current cpu _ running
    refine ⟨{ s with kmt := k }, n, ?_, member, bound, by rw [addr]; exact running⟩
    unfold trap
    rw [split, List.nil_append, List.nil_append, runHandlers_save, saved, ok_bind, runHandlers_switch,
      switch, addr]
    rfl
  · intro n member
    constructor
    · intro works
      exact ⟨_, inv.working n member works⟩
    · rintro ⟨c, running⟩
      obtain ⟨m, member', addr, -, works⟩ := inv.current c _ running
      rw [← Kmt.eq_of_addr inv.nodup member' member addr]
      exact works
  · exact owner
  · intro c c' a running running'
    obtain ⟨n, member, addr, bound⟩ := owner c a running
    obtain ⟨m, member', addr', bound'⟩ := owner c' a running'
    rw [← bound, ← bound', Kmt.eq_of_addr inv.nodup member member' (addr.trans addr'.symm)]

/-- Two tasks on two processors, and a first trap on processor 1. -/
theorem scheduler_safe_two : ∃ (k₁ k₂ : Kmt.State Nat) (s : State Nat Unit),
    Kmt.create (fun _ entry _ => entry) 2 8192 100 "idle-1" 9 0 Kmt.init = .ok k₁ ∧
      Kmt.create (fun _ entry _ => entry) 2 16384 200 "idle-2" 9 0 k₁ = .ok k₂ ∧
      trap 1 ⟨5, 0, 0, "yield"⟩ 70 ⟨[contextSaveIrq, contextSwitchIrq], k₂, ()⟩ = .ok (.ofTask 200, s) ∧
      SchedulerSafe 2 s := by
  obtain ⟨k₁, first⟩ : ∃ k,
      Kmt.create (fun _ entry _ => entry) 2 8192 100 "idle-1" 9 0 Kmt.init = .ok k := ⟨_, rfl⟩
  obtain ⟨k₂, second⟩ : ∃ k,
      Kmt.create (fun _ entry _ => entry) 2 16384 200 "idle-2" 9 0 k₁ = .ok k := by
    cases first
    exact ⟨_, rfl⟩
  obtain ⟨s, third⟩ : ∃ s, trap 1 ⟨5, 0, 0, "yield"⟩ 70
      (⟨[contextSaveIrq, contextSwitchIrq], k₂, ()⟩ : State Nat Unit) = .ok (.ofTask 200, s) := by
    cases first
    cases second
    exact ⟨_, rfl⟩
  have booted : Run (fun _ entry _ => entry) 2 (fun _ => False)
      (⟨[contextSaveIrq, contextSwitchIrq], Kmt.init, ()⟩ : State Nat Unit) [] :=
    .init [contextSaveIrq, contextSwitchIrq] () (.refl _) (fun h member => by cases member)
  have run := ((booted.create (by decide) first).create (by cases first; decide) second).trap
    (by decide) third
  refine ⟨k₁, k₂, s, first, second, third, scheduler_safe run ?_⟩
  cases first
  cases second
  cases third
  decide

end Runs

end OsLab.Kernel.Os
