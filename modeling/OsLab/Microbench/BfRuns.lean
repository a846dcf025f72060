import OsLab.Microbench.BfText

/-!
# What the compiled program does

The interpreter knows nothing of loops. Where a program is placed in its instructions, it does what the nested loops say.
-/

namespace OsLab.Microbench.Bf

open Brackets

/-- The operations of the interpreter. -/
def machine : Machine Command Tape Trap where
  act c := Tape.act c.operator
  test := Tape.test
  inside := Tape.inside

/-- `bench_bf_run`, which does not look at what `compile_bf` returns -/
def benchBfRun (code : List UInt8) (PROGRAM : List Instruction) (STACK : List UInt16) (fuel : Nat) (t : Tape) :
    Option (Except Trap Tape) :=
  match compileBf code PROGRAM STACK with
  | .error e => some (.error e)
  | .ok (_, PROGRAM) => executeBf PROGRAM fuel 0 t

section Instructions

variable {operator operand : UInt16} {PROGRAM : List Instruction} {fuel pc : Nat} {t : Tape} {i : Instruction}

/-- The interpreter stops at what is no operator. -/
theorem code_unknown (unknown : OP_JMP_BCK.toNat < operator.toNat) : (⟨operator, operand⟩ : Instruction).code = .stop := by
  have other : ∀ known : UInt16, known.toNat ≤ OP_JMP_BCK.toNat → operator ≠ known := by
    rintro known small rfl
    omega
  unfold Instruction.code
  simp only [other _ (by decide : OP_JMP_FWD.toNat ≤ _), other _ (by decide : OP_JMP_BCK.toNat ≤ _),
    other _ (by decide : OP_INC_DP.toNat ≤ _), other _ (by decide : OP_DEC_DP.toNat ≤ _),
    other _ (by decide : OP_INC_VAL.toNat ≤ _), other _ (by decide : OP_DEC_VAL.toNat ≤ _),
    other _ (by decide : OP_OUT.toNat ≤ _), other _ (by decide : OP_IN.toNat ≤ _), if_false]

/-- The operators, as `execute_bf` tells them apart. -/
theorem operator_cases (operator : UInt16) : operator = OP_END ∨ operator = OP_JMP_FWD ∨ operator = OP_JMP_BCK ∨
    (∃ c : Command, operator = c.operator) ∨ OP_JMP_BCK.toNat < operator.toNat := by
  rcases Nat.lt_or_ge OP_JMP_BCK.toNat operator.toNat with unknown | known
  · exact .inr (.inr (.inr (.inr unknown)))
  have last : OP_JMP_BCK.toNat = 8 := rfl
  rw [last] at known
  have cases : operator = 0 ∨ operator = 1 ∨ operator = 2 ∨ operator = 3 ∨ operator = 4 ∨ operator = 5 ∨ operator = 6 ∨
      operator = 7 ∨ operator = 8 := by
    simp only [← UInt16.toNat_inj]
    have values : (0 : UInt16).toNat = 0 ∧ (1 : UInt16).toNat = 1 ∧ (2 : UInt16).toNat = 2 ∧ (3 : UInt16).toNat = 3 ∧
        (4 : UInt16).toNat = 4 ∧ (5 : UInt16).toNat = 5 ∧ (6 : UInt16).toNat = 6 ∧ (7 : UInt16).toNat = 7 ∧
        (8 : UInt16).toNat = 8 := by decide
    omega
  rcases cases with rfl | rfl | rfl | rfl | rfl | rfl | rfl | rfl | rfl
  · exact .inl rfl
  · exact .inr (.inr (.inr (.inl ⟨.incDp, rfl⟩)))
  · exact .inr (.inr (.inr (.inl ⟨.decDp, rfl⟩)))
  · exact .inr (.inr (.inr (.inl ⟨.incVal, rfl⟩)))
  · exact .inr (.inr (.inr (.inl ⟨.decVal, rfl⟩)))
  · exact .inr (.inr (.inr (.inl ⟨.out, rfl⟩)))
  · exact .inr (.inr (.inr (.inl ⟨.input, rfl⟩)))
  · exact .inr (.inl rfl)
  · exact .inr (.inr (.inl rfl))

/-- The interpreter is a run of the code in `PROGRAM`. -/
theorem execute_run : executeBf PROGRAM fuel pc t = run machine (decode PROGRAM) fuel pc t := by
  induction fuel generalizing pc t with
  | zero => rfl
  | succ fuel ih =>
    rw [executeBf, run, Trap.load_natCast]
    cases here : PROGRAM[pc]? with
    | none =>
      have missing : decode PROGRAM pc = .missing .outside := by
        unfold decode
        rw [here]
      rw [missing]
      rfl
    | some i =>
      obtain ⟨operator, operand⟩ := i
      rw [decode_of here, Trap.check_some]
      have goes_on : machine.inside t = t.inside := rfl
      have goes_round : machine.test t = t.test := rfl
      rcases operator_cases operator with rfl | rfl | rfl | ⟨c, rfl⟩ | unknown
      · rfl
      · have forward : (⟨OP_JMP_FWD, operand⟩ : Instruction).code = .forward operand.toNat := rfl
        have jump : OP_JMP_FWD ≠ OP_END := by decide
        simp only [forward, jump, goes_on, goes_round, ne_eq, not_false_eq_true, true_and, if_true, ih]
        cases t.test with
        | error e => rfl
        | ok goes => cases goes <;> rfl
      · have back : (⟨OP_JMP_BCK, operand⟩ : Instruction).code = .back operand.toNat := rfl
        have jump : OP_JMP_BCK ≠ OP_END ∧ OP_JMP_BCK ≠ OP_JMP_FWD := by decide
        simp only [back, jump, goes_on, goes_round, ne_eq, not_false_eq_true, true_and, if_true, if_false, ih]
        cases t.test with
        | error e => rfl
        | ok goes => cases goes <;> rfl
      · have plain : c.operator ≠ OP_END ∧ c.operator ≠ OP_JMP_FWD ∧ c.operator ≠ OP_JMP_BCK ∧
            c.operator.toNat ≤ OP_IN.toNat := by
          cases c <;> decide
        have act : machine.act c t = t.act c.operator := rfl
        simp only [code_operator, plain, act, goes_on, ne_eq, not_false_eq_true, true_and, if_true, if_false, ih]
        cases t.act c.operator <;> rfl
      · have plain : operator ≠ OP_JMP_FWD ∧ operator ≠ OP_JMP_BCK ∧ ¬operator.toNat ≤ OP_IN.toNat := by
          have last : OP_JMP_BCK.toNat = 8 ∧ OP_JMP_FWD.toNat = 7 ∧ OP_IN.toNat = 6 := by decide
          refine ⟨?_, ?_, by omega⟩
          · rintro rfl
            omega
          · rintro rfl
            omega
        simp only [code_unknown unknown, plain, if_false, ite_self]

end Instructions

/-- Whatever is in `PROGRAM` and on the tape: what is left when the compiled text has run is what the nested loops of its
program leave, and it ends where they end. -/
theorem bf_meaning {code : List UInt8} {PROGRAM : List Instruction} {STACK : List UInt16} {p : Program Command} {t : Tape}
    {r : Except Trap Tape} (program : PROGRAM.length = PROGRAM_SIZE) (stack : STACK.length = STACK_SIZE)
    (spells : Spells code p) (small : Small p) :
    (∃ fuel, benchBfRun code PROGRAM STACK fuel t = some r) ↔ ∃ out, Eval machine p t out ∧ out.result = r := by
  obtain ⟨PROGRAM', result, placed, last⟩ := compileBf_small program stack spells small
  unfold benchBfRun
  rw [result]
  simp only [execute_run]
  exact run_iff placed (by rw [Nat.zero_add]; exact last)

/-- A character that is read and written. -/
theorem bf_meaning_echo : ∃ fuel, benchBfRun [44, 46] (List.replicate PROGRAM_SIZE ⟨0, 0⟩) (List.replicate STACK_SIZE 0) fuel
    ⟨0, [0], [65], 0, [0], 0⟩ = some (.ok ⟨0, [65], [65], 1, [65], 1⟩) :=
  (bf_meaning List.length_replicate List.length_replicate
    (show Spells [44, 46] (.op .input (.op .out .nil)) from rfl) (by unfold Small; decide)).mpr ⟨.done ⟨0, [65], [65], 1, [65], 1⟩, .op rfl rfl (.op rfl rfl .nil), rfl⟩

end OsLab.Microbench.Bf
