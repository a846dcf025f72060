import OsLab.Kernel.Kmt.Scheduler

/-!
# Interrupt handlers and traps (`os.c`)

The list of registered handlers, kept in the order of their sequence numbers by `on_irq`,
and `trap`, which calls every handler of an event and returns the last context that is not
`NULL`. A handler may read and write the tasks and the rest `W` of the kernel. `trap` holds
`trap_lock` throughout, so a trap is one atomic step.
-/

namespace OsLab.Kernel.Os

open OsLab.Kernel.Kmt (ContextPtr Scheduled Switched)

/-- `_Event` -/
structure Event where
  event : Int
  cause : Nat
  ref : Nat
  msg : String

/-- `_EVENT_NULL` -/
def eventNull : Int := 0

/-- `handler_t`, with the processor it runs on and the state of the kernel. -/
abbrev Handler (Ctx W : Type) :=
  Nat → Event → Ctx → Kmt.State Ctx × W → Except Halt (Option ContextPtr × (Kmt.State Ctx × W))

/-- `irq_handler` -/
structure IrqHandler (Ctx W : Type) where
  seq : Int
  event : Int
  handler : Handler Ctx W

/-- The static variable `head` of `os.c`, the tasks and the rest of the kernel. -/
structure State (Ctx W : Type) where
  head : List (IrqHandler Ctx W)
  kmt : Kmt.State Ctx
  rest : W

variable {Ctx W : Type}

/-- The loop of `find_handler_seq`, with the position of `cur` for its address. -/
def findHandlerSeqFrom (seq : Int) : List (IrqHandler Ctx W) → Nat → Option Nat → Option Nat
  | [], _, ans => ans
  | cur :: next, i, ans => findHandlerSeqFrom seq next (i + 1) (if cur.seq ≤ seq then some i else ans)

/-- `find_handler_seq`: the position of the last handler with `hand->seq <= seq`. -/
def findHandlerSeq (head : List (IrqHandler Ctx W)) (seq : Int) : Option Nat :=
  findHandlerSeqFrom seq head 0 none

/-- `on_irq` -/
def onIrq (ih : IrqHandler Ctx W) (head : List (IrqHandler Ctx W)) : List (IrqHandler Ctx W) :=
  match findHandlerSeq head ih.seq with
  | none => ih :: head
  | some h => head.take (h + 1) ++ ih :: head.drop (h + 1)

/-- `context_save` as `kmt->init` registers it. -/
def contextSaveIrq : IrqHandler Ctx W where
  seq := -10000
  event := eventNull
  handler := fun cpu _ context s => do
    let (next, kmt) ← Kmt.contextSave cpu context s.1
    return (next, (kmt, s.2))

/-- `context_switch` as `kmt->init` registers it. -/
def contextSwitchIrq : IrqHandler Ctx W where
  seq := 10000
  event := eventNull
  handler := fun cpu _ _ s => do
    let (next, kmt) ← Kmt.contextSwitch cpu s.1
    return (next, (kmt, s.2))

/-- The loop of `trap` over the handlers. -/
def runHandlers (cpu : Nat) (ev : Event) (context : Ctx) :
    List (IrqHandler Ctx W) → ContextPtr → Kmt.State Ctx × W → Except Halt (ContextPtr × (Kmt.State Ctx × W))
  | [], ret, s => .ok (ret, s)
  | cur :: next, ret, s =>
    if cur.event = eventNull ∨ cur.event = ev.event then do
      let (found, s) ← cur.handler cpu ev context s
      runHandlers cpu ev context next (found.getD ret) s
    else
      runHandlers cpu ev context next ret s

/-- `trap` on the processor `cpu`. -/
def trap (cpu : Nat) (ev : Event) (context : Ctx) (s : State Ctx W) :
    Except Halt (ContextPtr × State Ctx W) := do
  let (ret, kmt, rest) ← runHandlers cpu ev context s.head .passed (s.kmt, s.rest)
  return (ret, { s with kmt := kmt, rest := rest })

section OnIrq

variable {head : List (IrqHandler Ctx W)} {ih : IrqHandler Ctx W}

/-- Handlers run in the order of their sequence numbers. -/
def Ordered (head : List (IrqHandler Ctx W)) : Prop := head.Pairwise fun a b => a.seq ≤ b.seq

theorem findHandlerSeqFrom_spec (seq : Int) (l : List (IrqHandler Ctx W)) (i : Nat) (ans : Option Nat) :
    (findHandlerSeqFrom seq l i ans = ans ∧ ∀ h ∈ l, seq < h.seq) ∨
      ∃ l₁ h l₂, l = l₁ ++ h :: l₂ ∧ h.seq ≤ seq ∧ (∀ h' ∈ l₂, seq < h'.seq) ∧
        findHandlerSeqFrom seq l i ans = some (i + l₁.length) := by
  induction l generalizing i ans with
  | nil => exact Or.inl ⟨rfl, fun h member => by cases member⟩
  | cons cur next ih =>
    rw [findHandlerSeqFrom]
    rcases ih (i + 1) (if cur.seq ≤ seq then some i else ans) with ⟨result, above⟩ | ⟨l₁, h, l₂, rfl, le, above, result⟩
    · by_cases le : cur.seq ≤ seq
      · exact Or.inr ⟨[], cur, next, rfl, le, above, by rw [result, if_pos le]; rfl⟩
      · refine Or.inl ⟨by rw [result, if_neg le], ?_⟩
        intro h member
        rcases List.mem_cons.1 member with rfl | member
        · omega
        · exact above h member
    · refine Or.inr ⟨cur :: l₁, h, l₂, rfl, le, above, ?_⟩
      rw [result, List.length_cons]
      congr 1
      omega

/-- `on_irq` puts a handler before all later ones, and behind one that is not later. -/
theorem onIrq_split (ih : IrqHandler Ctx W) (head : List (IrqHandler Ctx W)) :
    ∃ l₁ l₂, head = l₁ ++ l₂ ∧ onIrq ih head = l₁ ++ ih :: l₂ ∧ (∀ h ∈ l₂, ih.seq < h.seq) ∧
      (l₁ = [] ∨ ∃ init h, l₁ = init ++ [h] ∧ h.seq ≤ ih.seq) := by
  unfold onIrq findHandlerSeq
  rcases findHandlerSeqFrom_spec ih.seq head 0 none with ⟨result, above⟩ | ⟨l₁, h, l₂, rfl, le, above, result⟩
  · rw [result]
    exact ⟨[], head, rfl, rfl, above, Or.inl rfl⟩
  · rw [result]
    refine ⟨l₁ ++ [h], l₂, by simp, ?_, above, Or.inr ⟨l₁, h, rfl, le⟩⟩
    have whole : l₁ ++ h :: l₂ = (l₁ ++ [h]) ++ l₂ := by simp
    have position : (l₁ ++ [h]).length = 0 + l₁.length + 1 := by simp
    dsimp only
    rw [whole, List.take_left' position, List.drop_left' position]

theorem onIrq_perm (ih : IrqHandler Ctx W) (head : List (IrqHandler Ctx W)) :
    (onIrq ih head).Perm (ih :: head) := by
  obtain ⟨l₁, l₂, rfl, result, -⟩ := onIrq_split ih head
  rw [result]
  exact List.perm_middle

theorem onIrq_ordered (ordered : Ordered head) : Ordered (onIrq ih head) := by
  obtain ⟨l₁, l₂, rfl, result, above, last⟩ := onIrq_split ih head
  rw [result]
  obtain ⟨left, right, across⟩ := List.pairwise_append.1 ordered
  have below : ∀ h ∈ l₁, h.seq ≤ ih.seq := by
    intro h member
    rcases last with rfl | ⟨init, final, rfl, le⟩
    · cases member
    · rcases List.mem_append.1 member with member | member
      · exact Int.le_trans ((List.pairwise_append.1 left).2.2 h member final (List.mem_singleton_self _)) le
      · obtain rfl := List.mem_singleton.1 member
        exact le
  apply List.pairwise_append.2
  refine ⟨left, List.pairwise_cons.2 ⟨fun h member => Int.le_of_lt (above h member), right⟩, ?_⟩
  intro a ha b hb
  rcases List.mem_cons.1 hb with rfl | hb
  · exact below a ha
  · exact across a ha b hb

end OnIrq

section RunHandlers

variable {cpu : Nat} {ev : Event} {context : Ctx} {ret : ContextPtr} {s : Kmt.State Ctx × W}

theorem runHandlers_append (l₁ l₂ : List (IrqHandler Ctx W)) :
    runHandlers cpu ev context (l₁ ++ l₂) ret s =
      runHandlers cpu ev context l₁ ret s >>= fun x => runHandlers cpu ev context l₂ x.1 x.2 := by
  induction l₁ generalizing ret s with
  | nil => rfl
  | cons cur next ih =>
    rw [List.cons_append, runHandlers, runHandlers]
    by_cases called : cur.event = eventNull ∨ cur.event = ev.event
    · rw [if_pos called, if_pos called]
      cases cur.handler cpu ev context s with
      | error e => rfl
      | ok found => exact ih
    · rw [if_neg called, if_neg called]
      exact ih

theorem runHandlers_save (l : List (IrqHandler Ctx W)) :
    runHandlers cpu ev context (contextSaveIrq :: l) ret s =
      Kmt.contextSave cpu context s.1 >>= fun x =>
        runHandlers cpu ev context l (x.1.getD ret) (x.2, s.2) := by
  rw [runHandlers]
  apply (if_pos (Or.inl rfl)).trans
  show (Kmt.contextSave cpu context s.1 >>= _) >>= _ = _
  cases Kmt.contextSave cpu context s.1 <;> rfl

theorem runHandlers_switch (l : List (IrqHandler Ctx W)) :
    runHandlers cpu ev context (contextSwitchIrq :: l) ret s =
      Kmt.contextSwitch cpu s.1 >>= fun x =>
        runHandlers cpu ev context l (x.1.getD ret) (x.2, s.2) := by
  rw [runHandlers]
  apply (if_pos (Or.inl rfl)).trans
  show (Kmt.contextSwitch cpu s.1 >>= _) >>= _ = _
  cases Kmt.contextSwitch cpu s.1 <;> rfl

end RunHandlers

end OsLab.Kernel.Os
