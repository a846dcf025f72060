import OsLab.Kernel.Os.Traps

/-!
# No context is lost

A task that is switched in resumes where it was interrupted last. `lastContext` reads this
off the history of the traps: the context of the newest trap that interrupted the task, or
the context of its creation. `Saved` says that every task holds that context, up to the one
that a trap has interrupted and not saved yet.
-/

namespace OsLab.Kernel.Os

open OsLab.Kernel.Kmt (ContextPtr Area Node Scheduled Switched Creates initialContext)

variable {Ctx W : Type}

/-- The context a task resumes from on `cpu`, after the traps `hist` (newest first). -/
def lastContext (kcontext : Area → Nat → Nat → Ctx) (hist : List (Entry Ctx)) (cpu : Nat)
    (n : Node Ctx) : Ctx :=
  match hist.find? fun e => e.cpu = cpu ∧ e.current = some n.addr with
  | some e => e.context
  | none => initialContext kcontext n.task

/-- All tasks but the one at `pending` hold the context they resume from. -/
structure Saved (kcontext : Area → Nat → Nat → Ctx) (hist : List (Entry Ctx)) (k : Kmt.State Ctx)
    (pending : Option Nat) : Prop where
  known : ∀ e ∈ hist, ∀ a, e.current = some a → a ∈ k.head.map Node.addr
  context : ∀ n ∈ k.head, pending ≠ some n.addr →
    n.task.context = lastContext kcontext hist n.task.cpu n

section Saved

variable {kcontext : Area → Nat → Nat → Ctx} {ncpu cpu : Nat} {hist : List (Entry Ctx)}
  {k k' : Kmt.State Ctx} {pending : Option Nat} {context : Ctx}

/-- The resume context depends on the address, the processor and the creation of the task. -/
theorem lastContext_congr {n m : Node Ctx} (addr : n.addr = m.addr)
    (initial : initialContext kcontext n.task = initialContext kcontext m.task) :
    lastContext kcontext hist cpu n = lastContext kcontext hist cpu m := by
  unfold lastContext
  rw [addr, initial]

theorem lastContext_hit {n : Node Ctx} :
    lastContext kcontext (⟨cpu, context, some n.addr⟩ :: hist) cpu n = context := by
  unfold lastContext
  rw [List.find?_cons_of_pos (by simp)]

theorem lastContext_miss {e : Entry Ctx} {n : Node Ctx} (other : e.current ≠ some n.addr) :
    lastContext kcontext (e :: hist) cpu n = lastContext kcontext hist cpu n := by
  unfold lastContext
  rw [List.find?_cons_of_neg (by simp [other])]

/-- A task that no trap has interrupted resumes from its creation. -/
theorem lastContext_unknown {n : Node Ctx} (unknown : ∀ e ∈ hist, e.current ≠ some n.addr) :
    lastContext kcontext hist cpu n = initialContext kcontext n.task := by
  unfold lastContext
  have none : hist.find? (fun e => e.cpu = cpu ∧ e.current = some n.addr) = none := by
    apply List.find?_eq_none.2
    intro e member
    simp [unknown e member]
  rw [none]

theorem saved_init : Saved kcontext [] (Kmt.init : Kmt.State Ctx) none :=
  ⟨fun _ member => (List.not_mem_nil member).elim, fun _ member => (List.not_mem_nil member).elim⟩

/-- A trap begins: the context of the current task is pending. -/
theorem Saved.enter (cpu : Nat) (context : Ctx) (inv : Scheduled ncpu k) (h : Saved kcontext hist k none) :
    Saved kcontext (⟨cpu, context, k.current cpu⟩ :: hist) k (k.current cpu) := by
  constructor
  · intro e member a running
    rcases List.mem_cons.1 member with rfl | member
    · obtain ⟨n, hn, rfl, -⟩ := inv.current cpu a running
      exact List.mem_map_of_mem hn
    · exact h.known e member a running
  · intro n member other
    rw [lastContext_miss other]
    apply h.context n member
    intro wrong
    cases wrong

theorem Saved.creates (inv : Scheduled ncpu k) (h : Saved kcontext hist k pending)
    (creates : Creates kcontext ncpu k k') : Saved kcontext hist k' pending := by
  induction creates with
  | refl => exact h
  | create before fresh run ih =>
    obtain ⟨task, -, -, initial, rfl⟩ := Kmt.create_ok (Kmt.scheduled_creates inv before).nodup run
    constructor
    · intro e member a running
      rw [List.map_append]
      exact List.mem_append_left _ (ih.known e member a running)
    · intro n member other
      rcases List.mem_append.1 member with member | member
      · exact ih.context n member other
      · obtain rfl := List.mem_singleton.1 member
        rw [lastContext_unknown]
        · exact initial
        · intro e member running
          exact fresh (ih.known e member _ running)

/-- `context_save` settles the pending context. -/
theorem Saved.save {r : Option ContextPtr}
    (h : Saved kcontext (⟨cpu, context, k.current cpu⟩ :: hist) k (k.current cpu))
    (bound : ∀ n ∈ k.head, k.current cpu = some n.addr → n.task.cpu = cpu)
    (run : Kmt.contextSave cpu context k = .ok (r, k')) :
    Saved kcontext (⟨cpu, context, k.current cpu⟩ :: hist) k' none := by
  rw [Kmt.contextSave_eq] at run
  obtain ⟨-, rfl⟩ := Prod.mk.inj (Except.ok.inj run)
  cases running : k.current cpu with
  | none =>
    rw [running] at h
    exact h
  | some cur =>
    rw [running] at h
    constructor
    · intro e member a running
      show a ∈ (Kmt.update k.head cur _).map Node.addr
      rw [Kmt.addrs_update]
      exact h.known e member a running
    · intro n member _
      obtain ⟨m, before, rfl⟩ := Kmt.mem_update.1 member
      by_cases here : m.addr = cur
      · subst here
        rw [Kmt.store_self rfl]
        show context = lastContext kcontext _ m.task.cpu _
        rw [bound m before running]
        exact lastContext_hit.symm
      · rw [Kmt.store_ne here]
        exact h.context m before fun same => here (Option.some.inj same).symm

theorem Saved.switch {n : Node Ctx} (h : Saved kcontext hist k none) (switch : Switched cpu k k' n) :
    Saved kcontext hist k' none := by
  obtain ⟨-, -, -, rfl⟩ := switch
  constructor
  · intro e member a running
    show a ∈ (k.head.map _).map Node.addr
    rw [List.map_map]
    exact h.known e member a running
  · intro m member other
    obtain ⟨m, before, rfl⟩ := List.mem_map.1 member
    exact (h.context m before other).trans (lastContext_congr rfl rfl)

end Saved

section Runs

variable {kcontext : Area → Nat → Nat → Ctx} {ncpu cpu : Nat} {ev : Event} {context : Ctx}
  {r : ContextPtr} {s s' : State Ctx W} {hist : List (Entry Ctx)}

/-- A trap records the context it has been given, and saves it. -/
theorem saved_trap (inv : Scheduled ncpu s.kmt) (h : Saved kcontext hist s.kmt none)
    (handlers : Registered (Quiet kcontext ncpu) s.head) (run : trap cpu ev context s = .ok (r, s')) :
    Saved kcontext (⟨cpu, context, s.kmt.current cpu⟩ :: hist) s'.kmt none := by
  obtain ⟨k₁, k₂, k₃, k₄, found, creates₁, save, creates₂, switch, creates₃, -, -⟩ := trap_ok handlers run
  have inv₁ := Kmt.scheduled_creates inv creates₁
  have inv₂ := Kmt.scheduled_save inv₁ save
  have inv₃ := Kmt.scheduled_creates inv₂ creates₂
  obtain ⟨n, switched, -⟩ := Kmt.contextSwitch_ok inv₃ switch
  have entered := (h.enter cpu context inv).creates inv creates₁
  rw [← creates₁.current inv] at entered ⊢
  have bound : ∀ n ∈ k₁.head, k₁.current cpu = some n.addr → n.task.cpu = cpu := by
    intro n member running
    obtain ⟨m, member', addr, bound, -⟩ := inv₁.current cpu _ running
    rw [← Kmt.eq_of_addr inv₁.nodup member' member addr]
    exact bound
  have saved := ((entered.save bound save).creates inv₂ creates₂).switch switched
  exact saved.creates (Kmt.scheduled_switch inv₃ switched) creates₃

theorem Run.saved (run : Run kcontext ncpu (Quiet kcontext ncpu) s hist) : Saved kcontext hist s.kmt none := by
  induction run with
  | init calls rest perm others => exact saved_init
  | onIrq _ other ih => exact ih
  | create before fresh run ih =>
    exact ih.creates (before.inv fun _ quiet => quiet).1 (.create .refl fresh run)
  | other rest _ ih => exact ih
  | trap before _ run ih =>
    obtain ⟨inv, handlers⟩ := before.inv fun _ quiet => quiet
    exact saved_trap inv ih handlers run

/-- **No context is lost or mixed up.** A trap that returns hands out the context of a task
that is now current on its processor, and this is the context which the last trap to
interrupt the task there was given, or the initial one. -/
theorem context_restored (run : Run kcontext ncpu (Quiet kcontext ncpu) s hist)
    (returns : trap cpu ev context s = .ok (r, s')) :
    ∃ n ∈ s'.kmt.head, s'.kmt.current cpu = some n.addr ∧ r = .ofTask n.addr ∧
      Kmt.load s'.kmt context r =
        some (lastContext kcontext (⟨cpu, context, s.kmt.current cpu⟩ :: hist) cpu n) := by
  obtain ⟨inv, handlers⟩ := run.inv fun _ quiet => quiet
  have saved := saved_trap inv run.saved handlers returns
  have inv' := scheduled_trap inv handlers returns
  obtain ⟨tk, running, result⟩ : ∃ a, s'.kmt.current cpu = some a ∧ r = .ofTask a := by
    obtain ⟨k₁, k₂, k₃, k₄, found, creates₁, save, creates₂, switch, creates₃, result, -⟩ := trap_ok handlers returns
    have ready := Kmt.scheduled_creates (Kmt.scheduled_save (Kmt.scheduled_creates inv creates₁) save) creates₂
    obtain ⟨n, switched, rfl⟩ := Kmt.contextSwitch_ok ready switch
    refine ⟨n.addr, ?_, result⟩
    rw [creates₃.current (Kmt.scheduled_switch ready switched), switched.result]
    exact if_pos rfl
  obtain ⟨n, member, rfl, bound, -⟩ := inv'.current cpu tk running
  refine ⟨n, member, running, result, ?_⟩
  have found : Kmt.deref s'.kmt.head n.addr = some n := (Kmt.deref_eq_some inv'.nodup).2 ⟨member, rfl⟩
  have context' := saved.context n member (by simp)
  rw [bound] at context'
  rw [result, ← context']
  show (Kmt.deref s'.kmt.head n.addr).map _ = _
  rw [found]
  rfl

/-- Two tasks share a processor with a handler that counts I/O interrupts. The third trap
switches back to the first task, with the context 71 of the second trap. -/
theorem context_restored_back : ∃ s s' : State Nat Nat,
    Run (fun _ entry _ => entry) 1 (Quiet (fun _ entry _ => entry) 1) s
        [⟨0, 71, some 100⟩, ⟨0, 70, none⟩] ∧
      s.kmt.current 0 = some 200 ∧ trap 0 ⟨3, 0, 0, "I/O"⟩ 72 s = .ok (.ofTask 100, s') ∧
      Kmt.load s'.kmt 72 (.ofTask 100) = some 71 := by
  let notify : IrqHandler Nat Nat := ⟨0, 3, fun _ _ _ s => .ok (none, (s.1, s.2 + 1))⟩
  have quiet : Quiet (fun _ entry _ => entry) 1 notify := by
    intro cpu ev context s r s' returns
    obtain ⟨rfl, rfl⟩ := Prod.mk.inj (Except.ok.inj returns)
    exact ⟨rfl, .refl⟩
  let handlers : List (IrqHandler Nat Nat) := [contextSaveIrq, notify, contextSwitchIrq]
  let first (context : Nat) (state : Kmt.TaskState) : Node Nat :=
    ⟨100, ⟨1, "first", 9, 0, context, 8192, 0, state, List.replicate 16 0⟩⟩
  let second (context : Nat) (state : Kmt.TaskState) : Node Nat :=
    ⟨200, ⟨2, "second", 19, 0, context, 16384, 0, state, List.replicate 16 0⟩⟩
  have booted : Run (fun _ entry _ => entry) 1 (Quiet (fun _ entry _ => entry) 1)
      (⟨handlers, Kmt.init, 0⟩ : State Nat Nat) [] := by
    have perm : [notify, contextSaveIrq, contextSwitchIrq].Perm
        (contextSaveIrq :: contextSwitchIrq :: [notify]) :=
      (List.Perm.swap _ _ _).trans ((List.Perm.swap _ _ _).cons _)
    apply Run.init _ 0 perm
    intro h member
    rw [List.mem_singleton.1 member]
    exact quiet
  have created₁ : Kmt.create (fun _ entry _ => entry) 1 8192 100 "first" 9 0 Kmt.init =
    .ok ⟨[first 9 .free], fun _ => none, 1⟩ := rfl
  have created₂ : Kmt.create (fun _ entry _ => entry) 1 16384 200 "second" 19 0
    ⟨[first 9 .free], fun _ => none, 1⟩ = .ok ⟨[first 9 .free, second 19 .free], fun _ => none, 2⟩ := by
    dsimp only [first, second]
    rfl
  have trap₁ : trap 0 ⟨5, 0, 0, "yield"⟩ 70
      ⟨handlers, ⟨[first 9 .free, second 19 .free], fun _ => none, 2⟩, 0⟩ =
    .ok (.ofTask 100, ⟨handlers, ⟨[first 9 .working, second 19 .free],
      fun c => if c = 0 then some 100 else none, 2⟩, 0⟩) := by rfl
  have trap₂ : trap 0 ⟨5, 0, 0, "yield"⟩ 71
      ⟨handlers, ⟨[first 9 .working, second 19 .free], fun c => if c = 0 then some 100 else none, 2⟩, 0⟩ =
    .ok (.ofTask 200, ⟨handlers, ⟨[first 71 .free, second 19 .working],
      fun c => if c = 0 then some 200 else if c = 0 then some 100 else none, 2⟩, 0⟩) := by rfl
  have trap₃ : trap 0 ⟨3, 0, 0, "I/O"⟩ 72
      ⟨handlers, ⟨[first 71 .free, second 19 .working],
        fun c => if c = 0 then some 200 else if c = 0 then some 100 else none, 2⟩, 0⟩ =
    .ok (.ofTask 100, ⟨handlers, ⟨[first 71 .working, second 72 .free],
      fun c => if c = 0 then some 100 else if c = 0 then some 200 else if c = 0 then some 100 else none, 2⟩, 1⟩) := by
    dsimp only [first, second, handlers, notify]
    rfl
  have run := (((booted.create (by decide) created₁).create (by decide) created₂).trap
    (by decide) trap₁).trap (by decide) trap₂
  obtain ⟨n, -, -, same, loaded⟩ := context_restored run trap₃
  refine ⟨_, _, run, rfl, trap₃, ?_⟩
  rw [loaded]
  unfold lastContext
  rw [← ContextPtr.ofTask.inj same]
  rfl

end Runs

end OsLab.Kernel.Os
