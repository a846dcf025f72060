import OsLab.Kernel.Kmt.Semaphore
import OsLab.Kernel.Os.Traps

/-!
# The first traps (`os.c`, `dev.c`, `input.c`)

`os->init` registers the three handlers and creates the tasks; then every processor enables
its interrupts and takes traps. `input_notify` signals a semaphore, and `sem_signal` asserts
that a task is running. None is before the first switch of a processor, so an I/O interrupt
must not be the first trap there; `trap_returns_iff` shows that nothing else is needed.
-/

namespace OsLab.Kernel.Os

open OsLab.Kernel.Kmt (ContextPtr Area Node Scheduled Switched Creates Sem)

variable {Ctx : Type}

/-- `_EVENT_IRQ_IODEV` -/
def eventIodev : Int := 3

/-- `MAX_CPU` -/
def maxCpu : Nat := 8

/-- `input_notify` as `input_init` registers it; the rest of the kernel is `sem_kbdirq`. -/
def inputNotify : IrqHandler Ctx Sem where
  seq := 0
  event := eventIodev
  handler := fun cpu _ _ s => do
    let sem ← Kmt.semSignal (s.1.current cpu) s.2
    return (none, (s.1, sem))

/-- The code of the tasks that `os->init` creates. -/
inductive Code where
  | inputTask
  | ttyTask
  | idle
  | shellTask

/-- The tasks that `dev->init` and then `os->init` create: name, entry and argument. -/
def bootTasks : List (String × Code × Nat) :=
  [("input-task", .inputTask, 0), ("tty-task", .ttyTask, 0),
    ("idle-1", .idle, 0), ("idle-2", .idle, 0), ("idle-3", .idle, 0), ("idle-4", .idle, 0),
    ("idle-5", .idle, 0), ("idle-6", .idle, 0), ("idle-7", .idle, 0), ("idle-8", .idle, 0),
    ("shell-1", .shellTask, 1), ("shell-2", .shellTask, 2), ("shell-3", .shellTask, 3),
    ("shell-4", .shellTask, 4)]

/-- What `pmm->alloc` answers for the stacks and the nodes of the tasks, and where the code is. -/
structure Layout where
  stack : Nat → Nat
  node : Nat → Nat
  entry : Code → Nat

/-- The calls of `create` for a list of tasks, the first of them number `i`. -/
def createTasks (kcontext : Area → Nat → Nat → Ctx) (ncpu : Nat) (layout : Layout) :
    List (String × Code × Nat) → Nat → Kmt.State Ctx → Except Halt (Kmt.State Ctx)
  | [], _, s => .ok s
  | (name, code, arg) :: tasks, i, s => do
    let s ← Kmt.create kcontext ncpu (layout.stack i) (layout.node i) name (layout.entry code) arg s
    createTasks kcontext ncpu layout tasks (i + 1) s

/-- `os->init`: `kmt->init`, `dev->init` and the tasks. -/
def init (kcontext : Area → Nat → Nat → Ctx) (ncpu : Nat) (layout : Layout) : Except Halt (State Ctx Sem) := do
  let head := onIrq contextSwitchIrq (onIrq contextSaveIrq [])
  let sem := Kmt.semInit "keyboard-interrupt" 0
  let head := onIrq inputNotify head
  let kmt ← createTasks kcontext ncpu layout bootTasks 0 Kmt.init
  return ⟨head, kmt, sem⟩

/-- The traps of the processors from `s₀` on, newest first. Between traps the tasks change
the semaphore. -/
inductive Trapped (ncpu : Nat) (s₀ : State Ctx Sem) : State Ctx Sem → List (Entry Ctx) → Prop where
  | start : Trapped ncpu s₀ s₀ []
  | tasks {s : State Ctx Sem} {hist : List (Entry Ctx)} (sem : Sem) :
      Trapped ncpu s₀ s hist → Trapped ncpu s₀ { s with rest := sem } hist
  | trap {s s' : State Ctx Sem} {hist : List (Entry Ctx)} {cpu : Nat} {ev : Event} {context : Ctx}
      {r : ContextPtr} :
      Trapped ncpu s₀ s hist → cpu < ncpu → trap cpu ev context s = .ok (r, s') →
      Trapped ncpu s₀ s' (⟨cpu, context, s.kmt.current cpu⟩ :: hist)

section Boot

variable {kcontext : Area → Nat → Nat → Ctx} {ncpu : Nat} {layout : Layout} {s s₀ : State Ctx Sem}

theorem handlers_init : onIrq inputNotify (onIrq contextSwitchIrq (onIrq contextSaveIrq [])) =
    ([contextSaveIrq, inputNotify, contextSwitchIrq] : List (IrqHandler Ctx Sem)) := by
  rfl

theorem createTasks_ok {tasks : List (String × Code × Nat)} {i : Nat} {k k' : Kmt.State Ctx}
    (fresh : Function.Injective layout.node) (inv : Scheduled ncpu k)
    (old : ∀ a ∈ k.head.map Node.addr, ∃ j < i, a = layout.node j)
    (run : createTasks kcontext ncpu layout tasks i k = .ok k') :
    Creates kcontext ncpu k k' ∧ k'.taskCount = k.taskCount + tasks.length := by
  induction tasks generalizing i k with
  | nil =>
    cases run
    exact ⟨.refl, rfl⟩
  | cons task tasks ih =>
    obtain ⟨k₁, first, run⟩ := bind_eq_ok.1 run
    have new : layout.node i ∉ k.head.map Node.addr := by
      intro member
      obtain ⟨j, lt, same⟩ := old _ member
      exact Nat.ne_of_gt lt (fresh same)
    have created : Creates kcontext ncpu k k₁ := .create .refl new first
    obtain ⟨t, -, -, -, rfl⟩ := Kmt.create_ok inv.nodup first
    have old' : ∀ a ∈ (k.head ++ [(⟨layout.node i, t⟩ : Node Ctx)]).map Node.addr, ∃ j < i + 1, a = layout.node j := by
      intro a member
      rw [List.map_append] at member
      rcases List.mem_append.1 member with before | last
      · obtain ⟨j, lt, same⟩ := old a before
        exact ⟨j, by omega, same⟩
      · exact ⟨i, by omega, by simpa using last⟩
    obtain ⟨creates, count⟩ := ih (Kmt.scheduled_creates inv created) old' run
    refine ⟨created.trans creates, ?_⟩
    simp only at count
    rw [count, List.length_cons]
    omega

/-- What holds after every trap: of the handlers, the tasks and the current ones. -/
structure Booted (ncpu : Nat) (s : State Ctx Sem) (hist : List (Entry Ctx)) : Prop where
  scheduled : Scheduled ncpu s.kmt
  tasks : ncpu ≤ s.kmt.taskCount
  head : s.head = [contextSaveIrq, inputNotify, contextSwitchIrq]
  /-- A processor has a current task from its first trap on. -/
  current : ∀ cpu, s.kmt.current cpu ≠ none ↔ ∃ e ∈ hist, e.cpu = cpu

theorem booted_init (cpus : ncpu ≤ maxCpu) (fresh : Function.Injective layout.node)
    (booted : init kcontext ncpu layout = .ok s₀) : Booted ncpu s₀ [] := by
  obtain ⟨k, created, booted⟩ := bind_eq_ok.1 booted
  cases booted
  obtain ⟨creates, count⟩ := createTasks_ok fresh Kmt.scheduled_init (by simp [Kmt.init]) created
  refine ⟨Kmt.scheduled_creates Kmt.scheduled_init creates, ?_, handlers_init, ?_⟩
  · have fourteen : k.taskCount = 14 := count
    unfold maxCpu at cpus
    show ncpu ≤ k.taskCount
    omega
  · intro cpu
    show k.current cpu ≠ none ↔ _
    rw [creates.current Kmt.scheduled_init]
    simp [Kmt.init]

section Trap

variable {cpu : Nat} {ev : Event} {context : Ctx} {hist : List (Entry Ctx)}

theorem runHandlers_notify (l : List (IrqHandler Ctx Sem)) (ret : ContextPtr) (s : Kmt.State Ctx × Sem) :
    runHandlers cpu ev context (inputNotify :: l) ret s =
      (if ev.event = eventIodev then Kmt.semSignal (s.1.current cpu) s.2 else .ok s.2) >>= fun sem =>
        runHandlers cpu ev context l ret (s.1, sem) := by
  have called : (inputNotify : IrqHandler Ctx Sem).event = eventNull ∨
      (inputNotify : IrqHandler Ctx Sem).event = ev.event ↔ ev.event = eventIodev := by
    constructor
    · rintro (wrong | same)
      · cases wrong
      · exact same.symm
    · intro io
      exact Or.inr io.symm
  rw [runHandlers]
  simp only [called]
  split
  · show (Kmt.semSignal (s.1.current cpu) s.2 >>= _) >>= _ = _
    cases Kmt.semSignal (s.1.current cpu) s.2 <;> rfl
  · rfl

/-- A trap saves the context, notifies the input task and switches. -/
theorem trap_eq (cpu : Nat) (ev : Event) (context : Ctx) (head : s.head = [contextSaveIrq, inputNotify, contextSwitchIrq]) :
    ∃ k, Kmt.contextSave cpu context s.kmt = .ok (none, k) ∧ k.current = s.kmt.current ∧
      trap cpu ev context s =
        (if ev.event = eventIodev then Kmt.semSignal (s.kmt.current cpu) s.rest else .ok s.rest) >>= fun sem =>
          Kmt.contextSwitch cpu k >>= fun x =>
            .ok (x.1.getD .passed, { s with kmt := x.2, rest := sem }) := by
  obtain ⟨k, save, current⟩ : ∃ k, Kmt.contextSave cpu context s.kmt = .ok (none, k) ∧
      k.current = s.kmt.current := by
    refine ⟨_, Kmt.contextSave_eq cpu context s.kmt, ?_⟩
    cases s.kmt.current cpu <;> rfl
  refine ⟨k, save, current, ?_⟩
  unfold trap
  rw [head, runHandlers_save, save, ok_bind, runHandlers_notify]
  simp only [current]
  cases (if ev.event = eventIodev then Kmt.semSignal (s.kmt.current cpu) s.rest else .ok s.rest) with
  | error e => rfl
  | ok sem =>
    rw [ok_bind, ok_bind, runHandlers_switch]
    cases Kmt.contextSwitch cpu k <;> rfl

/-- Which traps return, with the tasks scheduled. -/
theorem trap_cases (inv : Booted ncpu s hist) (below : cpu < ncpu) (ev : Event) (context : Ctx) :
    (ev.event = eventIodev ∧ s.kmt.current cpu = none ∧
        trap cpu ev context s = .error (.assert "Signal on no cpu.")) ∨
      ((ev.event = eventIodev → s.kmt.current cpu ≠ none) ∧
        ((∃ a s', trap cpu ev context s = .ok (.ofTask a, s')) ∨
          (¬ s.rest.value < Kmt.intMax ∧ trap cpu ev context s = .error .overflow))) := by
  obtain ⟨k, save, current, result⟩ := trap_eq cpu ev context inv.head
  have inv' := Kmt.scheduled_save inv.scheduled save
  obtain ⟨n, k', switch, -⟩ := Kmt.contextSwitch_returns inv' below
    (by rw [Kmt.contextSave_count save]; exact inv.tasks)
  rw [result]
  by_cases io : ev.event = eventIodev
  · rw [if_pos io]
    cases running : s.kmt.current cpu with
    | none => exact Or.inl ⟨io, rfl, rfl⟩
    | some a =>
      refine Or.inr ⟨fun _ => Option.some_ne_none a, ?_⟩
      by_cases range : s.rest.value < Kmt.intMax
      · left
        have signalled : Kmt.semSignal (some a) s.rest = .ok { s.rest with value := s.rest.value + 1 } :=
          if_pos range
        rw [signalled, ok_bind, switch]
        exact ⟨_, _, rfl⟩
      · right
        have overflows : Kmt.semSignal (some a) s.rest = .error .overflow := if_neg range
        rw [overflows]
        exact ⟨range, rfl⟩
  · right
    refine ⟨fun wrong => absurd wrong io, Or.inl ?_⟩
    rw [if_neg io, ok_bind, switch]
    exact ⟨_, _, rfl⟩

/-- A trap that returns leaves a current task behind, and no other processor's changes. -/
theorem booted_trap {s' : State Ctx Sem} {r : ContextPtr} (inv : Booted ncpu s hist)
    (run : trap cpu ev context s = .ok (r, s')) :
    Booted ncpu s' (⟨cpu, context, s.kmt.current cpu⟩ :: hist) := by
  obtain ⟨k, save, current, result⟩ := trap_eq cpu ev context inv.head
  have inv' := Kmt.scheduled_save inv.scheduled save
  rw [result] at run
  obtain ⟨sem, -, run⟩ := bind_eq_ok.1 run
  obtain ⟨⟨found, k'⟩, switch, run⟩ := bind_eq_ok.1 run
  cases run
  obtain ⟨n, switched, -⟩ := Kmt.contextSwitch_ok inv' switch
  refine ⟨Kmt.scheduled_switch inv' switched, ?_, inv.head, ?_⟩
  · rw [switched.result]
    show ncpu ≤ k.taskCount
    rw [Kmt.contextSave_count save]
    exact inv.tasks
  · intro c
    rw [switched.result]
    show (if c = cpu then some n.addr else k.current c) ≠ none ↔ _
    rw [current]
    by_cases own : c = cpu
    · simp [own]
    · rw [if_neg own, inv.current c]
      simp [Ne.symm own]

end Trap

theorem booted_trapped {hist : List (Entry Ctx)} (inv : Booted ncpu s₀ []) (run : Trapped ncpu s₀ s hist) :
    Booted ncpu s hist := by
  induction run with
  | start => exact inv
  | tasks sem _ ih => exact ⟨ih.scheduled, ih.tasks, ih.head, ih.current⟩
  | trap _ _ trap ih => exact booted_trap ih trap

/-- **The first trap of a processor must not be an I/O interrupt.** In every state that traps
on any processors reach after `os->init`, the next trap fails no assertion exactly when it is
no I/O interrupt, or its processor has taken a trap before; it then returns a context, as long
as `sem_kbdirq` has not been signalled up to `INT_MAX`. -/
theorem trap_returns_iff {hist : List (Entry Ctx)} {cpu : Nat} (cpus : ncpu ≤ maxCpu)
    (fresh : Function.Injective layout.node) (booted : init kcontext ncpu layout = .ok s₀)
    (run : Trapped ncpu s₀ s hist) (below : cpu < ncpu) (ev : Event) (context : Ctx) :
    ((∀ msg, trap cpu ev context s ≠ .error (.assert msg)) ↔
      (ev.event = eventIodev → ∃ e ∈ hist, e.cpu = cpu)) ∧
    ((ev.event = eventIodev → ∃ e ∈ hist, e.cpu = cpu) → s.rest.value < Kmt.intMax →
      ∃ a s', trap cpu ev context s = .ok (.ofTask a, s')) := by
  have inv := booted_trapped (booted_init cpus fresh booted) run
  rw [← inv.current cpu]
  rcases trap_cases inv below ev context with ⟨io, idle, fails⟩ | ⟨running, returns | ⟨range, fails⟩⟩
  · rw [fails]
    refine ⟨⟨fun none => absurd rfl (none _), fun running => absurd idle (running io)⟩, ?_⟩
    exact fun running => absurd idle (running io)
  · refine ⟨⟨fun _ => running, fun _ msg wrong => ?_⟩, fun _ _ => returns⟩
    obtain ⟨a, s', returns⟩ := returns
    rw [returns] at wrong
    cases wrong
  · refine ⟨⟨fun _ => running, fun _ msg wrong => ?_⟩, fun _ range' => absurd range' range⟩
    rw [fails] at wrong
    cases wrong

/-- The layout of the examples. -/
def smallLayout : Layout where
  stack := fun i => 8192 * (i + 1)
  node := fun i => 4 * (i + 1)
  entry := fun _ => 1

theorem smallLayout_injective : Function.Injective smallLayout.node := by
  intro i j same
  have same : 4 * (i + 1) = 4 * (j + 1) := same
  omega

/-- A key is pressed before the first switch: the kernel halts. -/
theorem trap_halts_on_key : ∃ s₀ : State Nat Sem, init (fun _ entry _ => entry) 1 smallLayout = .ok s₀ ∧
    trap 0 ⟨3, 0, 0, "I/O device IRQ1 (keyboard)"⟩ 70 s₀ = .error (.assert "Signal on no cpu.") := by
  refine ⟨_, rfl, rfl⟩

/-- After a timer interrupt the same key is served. -/
theorem trap_returns_after_timer : ∃ s₀ s : State Nat Sem, init (fun _ entry _ => entry) 1 smallLayout = .ok s₀ ∧
    Trapped 1 s₀ s [⟨0, 70, none⟩] ∧
    (∀ msg, trap 0 ⟨3, 0, 0, "I/O device IRQ1 (keyboard)"⟩ 71 s ≠ .error (.assert msg)) ∧
    ∃ a s', trap 0 ⟨3, 0, 0, "I/O device IRQ1 (keyboard)"⟩ 71 s = .ok (.ofTask a, s') := by
  obtain ⟨s₀, booted⟩ : ∃ s₀ : State Nat Sem, init (fun _ entry _ => entry) 1 smallLayout = .ok s₀ := ⟨_, rfl⟩
  obtain ⟨s, timer⟩ : ∃ s, trap 0 ⟨2, 0, 0, "timer interrupt (lapic)"⟩ 70 s₀ = .ok (.ofTask 4, s) := by
    cases booted
    exact ⟨_, rfl⟩
  have run : Trapped 1 s₀ s [⟨0, 70, s₀.kmt.current 0⟩] := Trapped.start.trap (by decide) timer
  have idle : s₀.kmt.current 0 = none := by
    cases booted
    rfl
  have range : s.rest.value < Kmt.intMax := by
    cases booted
    cases timer
    decide
  obtain ⟨exactly, returns⟩ := trap_returns_iff (by decide) smallLayout_injective booted run Nat.zero_lt_one
    ⟨3, 0, 0, "I/O device IRQ1 (keyboard)"⟩ 71
  rw [idle] at run exactly returns
  have seen : ∃ e ∈ [(⟨0, 70, none⟩ : Entry Nat)], e.cpu = 0 := ⟨_, List.mem_singleton_self _, rfl⟩
  exact ⟨s₀, s, booted, run, exactly.2 fun _ => seen, returns (fun _ => seen) range⟩

end Boot

end OsLab.Kernel.Os
