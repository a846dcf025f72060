import Mathlib.Data.List.Induction
import Mathlib.Data.List.ReduceOption
import OsLab.Kernel.Os.Irq

/-!
# The order of the handlers

`onIrq` inserts a handler behind all that are not later, so the list is the registrations
sorted by their sequence numbers, and a sort that keeps the order of equal ones. `trap`
then calls the handlers of an event in that order: `callAll` says what calling a list of
handlers one after the other means, with the results of all of them.
-/

namespace OsLab.Kernel.Os

open OsLab.Kernel.Kmt (ContextPtr)

variable {Ctx W : Type}

/-- The list `head` after these calls of `on_irq`, the first one first. -/
def registered (calls : List (IrqHandler Ctx W)) : List (IrqHandler Ctx W) :=
  calls.foldl (fun head ih => onIrq ih head) []

/-- `order` has the same handlers, in ascending `seq` and as registered among equal ones. -/
structure InOrder (calls order : List (IrqHandler Ctx W)) : Prop where
  perm : order.Perm calls
  ascending : order.Pairwise fun a b => a.seq ≤ b.seq
  stable : ∀ q, order.filter (fun h => h.seq = q) = calls.filter (fun h => h.seq = q)

/-- The handlers registered for an event or for `_EVENT_NULL`. -/
def handlersOf (ev : Event) (l : List (IrqHandler Ctx W)) : List (IrqHandler Ctx W) :=
  l.filter fun h => h.event = eventNull ∨ h.event = ev.event

/-- Each handler of the list is called once, one after the other, with this event and
context. The result is what each of them returned, in the order of the calls. -/
def callAll (cpu : Nat) (ev : Event) (context : Ctx) :
    List (IrqHandler Ctx W) → Kmt.State Ctx × W → Except Halt (List (Option ContextPtr) × (Kmt.State Ctx × W))
  | [], s => .ok ([], s)
  | h :: rest, s => do
    let (found, s) ← h.handler cpu ev context s
    let (results, s) ← callAll cpu ev context rest s
    return (found :: results, s)

/-- The last result that is not `NULL`, or `ret` where there is none. -/
def lastResult (ret : ContextPtr) (results : List (Option ContextPtr)) : ContextPtr :=
  results.reduceOption.getLast?.getD ret

theorem lastResult_cons (ret : ContextPtr) (found : Option ContextPtr) (results : List (Option ContextPtr)) :
    lastResult ret (found :: results) = lastResult (found.getD ret) results := by
  unfold lastResult
  cases found with
  | none => rw [List.reduceOption_cons_of_none]; rfl
  | some next =>
    rw [List.reduceOption_cons_of_some, List.getLast?_cons]
    rfl

section Registrations

variable {head : List (IrqHandler Ctx W)}

/-- Among the handlers of one sequence number the new one is last. -/
theorem onIrq_filter (ih : IrqHandler Ctx W) (head : List (IrqHandler Ctx W)) (q : Int) :
    (onIrq ih head).filter (fun h => h.seq = q) = (head ++ [ih]).filter (fun h => h.seq = q) := by
  obtain ⟨l₁, l₂, rfl, result, above, -⟩ := onIrq_split ih head
  rw [result]
  rcases eq_or_ne ih.seq q with same | other
  · have behind : l₂.filter (fun h => h.seq = q) = [] := by
      apply List.filter_eq_nil_iff.2
      intro h member found
      have equal := of_decide_eq_true found
      have later := above h member
      omega
    simp [same, behind]
  · simp [other]

theorem InOrder.onIrq {calls order : List (IrqHandler Ctx W)} (h : InOrder calls order)
    (ih : IrqHandler Ctx W) : InOrder (calls ++ [ih]) (onIrq ih order) := by
  refine ⟨?_, onIrq_ordered h.ascending, ?_⟩
  · apply (onIrq_perm ih order).trans
    apply (h.perm.cons ih).trans
    exact (List.perm_append_singleton ih calls).symm
  · intro q
    rw [onIrq_filter, List.filter_append, List.filter_append, h.stable q]

theorem registered_inOrder (calls : List (IrqHandler Ctx W)) : InOrder calls (registered calls) := by
  induction calls using List.reverseRecOn with
  | nil => exact ⟨.refl _, List.Pairwise.nil, fun _ => rfl⟩
  | append_singleton calls ih hyp =>
    have last : registered (calls ++ [ih]) = Os.onIrq ih (registered calls) := by
      unfold registered
      rw [List.foldl_append]
      rfl
    rw [last]
    exact hyp.onIrq ih

end Registrations

/-- The loop of `trap` calls the handlers of the event and keeps the last result. -/
theorem runHandlers_callAll (cpu : Nat) (ev : Event) (context : Ctx) (l : List (IrqHandler Ctx W))
    (ret : ContextPtr) (s : Kmt.State Ctx × W) :
    runHandlers cpu ev context l ret s =
      (callAll cpu ev context (handlersOf ev l) s).map fun x => (lastResult ret x.1, x.2) := by
  induction l generalizing ret s with
  | nil => rfl
  | cons cur next ih =>
    rw [runHandlers, handlersOf]
    by_cases called : cur.event = eventNull ∨ cur.event = ev.event
    · rw [if_pos called, List.filter_cons_of_pos (by simpa using called), callAll]
      cases run : cur.handler cpu ev context s with
      | error e => rfl
      | ok found =>
        apply (ih (found.1.getD ret) found.2).trans
        show _ = Except.map _ (callAll cpu ev context (handlersOf ev next) found.2 >>= _)
        cases callAll cpu ev context (handlersOf ev next) found.2 with
        | error e => rfl
        | ok x => exact congrArg (fun r => Except.ok (r, x.2)) (lastResult_cons ret found.1 x.1).symm
    · rw [if_neg called, List.filter_cons_of_neg (by simpa using called)]
      exact ih ret s

/-- After any registrations a trap calls exactly the handlers of its event or of
`_EVENT_NULL`, each once, in ascending sequence numbers and in the order of registration
among equal ones. It returns the last result that is not `NULL`, or the interrupted context. -/
theorem trap_dispatches (calls : List (IrqHandler Ctx W)) (cpu : Nat) (ev : Event) (context : Ctx)
    (kmt : Kmt.State Ctx) (rest : W) :
    ∃ order, InOrder (handlersOf ev calls) order ∧
      trap cpu ev context ⟨registered calls, kmt, rest⟩ =
        (callAll cpu ev context order (kmt, rest)).map fun x =>
          (lastResult .passed x.1, ⟨registered calls, x.2.1, x.2.2⟩) := by
  have order := registered_inOrder calls
  refine ⟨handlersOf ev (registered calls), ?_, ?_⟩
  · refine ⟨order.perm.filter _, order.ascending.filter _, fun q => ?_⟩
    unfold handlersOf
    rw [List.filter_comm, order.stable q, List.filter_comm]
  · show (runHandlers cpu ev context (registered calls) .passed (kmt, rest) >>= _) = _
    rw [runHandlers_callAll]
    cases callAll cpu ev context (handlersOf ev (registered calls)) (kmt, rest) <;> rfl

end OsLab.Kernel.Os
