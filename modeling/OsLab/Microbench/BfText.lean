import OsLab.Microbench.Bf

/-!
# From a text to instructions

The compiler needs the brackets of the text only to know where it is. A program with few enough instructions and nested
loops is placed in `PROGRAM`, and a text that is not one of a program is refused.
-/

namespace OsLab.Microbench.Bf

open Brackets

/-- What a character can stand for besides a bracket. -/
inductive Command where
  | incDp
  | decDp
  | incVal
  | decVal
  | out
  | input
  deriving DecidableEq, Repr

def Command.operator : Command → UInt16
  | incDp => OP_INC_DP
  | decDp => OP_DEC_DP
  | incVal => OP_INC_VAL
  | decVal => OP_DEC_VAL
  | out => OP_OUT
  | input => OP_IN

def Command.char : Command → UInt8
  | incDp => 62
  | decDp => 60
  | incVal => 43
  | decVal => 45
  | out => 46
  | input => 44

/-- What a character stands for, if it is not part of a comment. -/
def token (c : UInt8) : Option (Token Command) :=
  if c = 62 then some (.op .incDp)
  else if c = 60 then some (.op .decDp)
  else if c = 43 then some (.op .incVal)
  else if c = 45 then some (.op .decVal)
  else if c = 46 then some (.op .out)
  else if c = 44 then some (.op .input)
  else if c = 91 then some .opening
  else if c = 93 then some .closing
  else none

/-- The program of a text. -/
def Spells (code : List UInt8) (p : Program Command) : Prop := code.filterMap token = p.tokens

/-- The code of an instruction. -/
def Instruction.code (i : Instruction) : Code Command Trap :=
  if i.operator = OP_JMP_FWD then .forward i.operand.toNat
  else if i.operator = OP_JMP_BCK then .back i.operand.toNat
  else if i.operator = OP_INC_DP then .op .incDp
  else if i.operator = OP_DEC_DP then .op .decDp
  else if i.operator = OP_INC_VAL then .op .incVal
  else if i.operator = OP_DEC_VAL then .op .decVal
  else if i.operator = OP_OUT then .op .out
  else if i.operator = OP_IN then .op .input
  else .stop

/-- The code in `PROGRAM`. -/
def decode (PROGRAM : List Instruction) (pc : Nat) : Code Command Trap :=
  match PROGRAM[pc]? with
  | some i => i.code
  | none => .missing .outside

/-! ## One token -/

section Tokens

variable {s s' : Compiler} {P : List Instruction} {pc v : UInt16}

theorem modify_list {b : List Instruction} {n : Nat} (inside : n < b.length) (f : Instruction → Instruction) :
    (Trap.load b n >>= fun i => Trap.put b n (f i)) = .ok (b.modify n f) := by
  rw [Trap.load_natCast, List.getElem?_eq_getElem inside, Trap.check_some, ok_bind, Trap.put_natCast inside,
    List.modify_eq_set_get _ inside]
  rfl

theorem setOperator_ok (inside : pc.toNat < P.length) (operator : UInt16) :
    setOperator P pc operator = .ok (P.modify pc.toNat fun i => { i with operator }) :=
  modify_list inside _

theorem setOperand_ok (inside : pc.toNat < P.length) (operand : UInt16) :
    setOperand P pc operand = .ok (P.modify pc.toNat fun i => { i with operand }) :=
  modify_list inside _

/-- What `compile_bf` does with a token. -/
def compileToken : Token Command → Compiler → Except Trap (Bool × Compiler)
  | .op c, s => compileChar c.char s
  | .opening, s => compileChar 91 s
  | .closing, s => compileChar 93 s

def compileTokens : List (Token Command) → Compiler → Except Trap (Bool × Compiler)
  | [], s => .ok (false, s)
  | t :: ts, s =>
    if s.pc.toNat ≥ PROGRAM_SIZE then .ok (false, s)
    else do
      let (failed, s) ← compileToken t s
      if failed then .ok (true, s) else compileTokens ts s

theorem compileTokens_full (full : PROGRAM_SIZE ≤ s.pc.toNat) (ts : List (Token Command)) :
    compileTokens ts s = .ok (false, s) := by
  cases ts with
  | nil => rfl
  | cons t ts => rw [compileTokens, if_pos full]

theorem compileChar_token (c : UInt8) (s : Compiler) :
    compileChar c s = match token c with
      | some t => compileToken t s
      | none => .ok (false, s) := by
  have comment : s.pc - 1 + 1 = s.pc := by
    rw [UInt16.sub_add_cancel]
  rcases Decidable.em (c = 62) with rfl | incDp
  · rfl
  rcases Decidable.em (c = 60) with rfl | decDp
  · rfl
  rcases Decidable.em (c = 43) with rfl | incVal
  · rfl
  rcases Decidable.em (c = 45) with rfl | decVal
  · rfl
  rcases Decidable.em (c = 46) with rfl | out
  · rfl
  rcases Decidable.em (c = 44) with rfl | input
  · rfl
  rcases Decidable.em (c = 91) with rfl | opening
  · rfl
  rcases Decidable.em (c = 93) with rfl | closing
  · rfl
  have none : token c = none := by
    unfold token
    simp only [incDp, decDp, incVal, decVal, out, input, opening, closing, if_false]
  rw [none]
  unfold compileChar operator
  simp only [incDp, decDp, incVal, decVal, out, input, opening, closing, if_false, comment]

theorem compileLoop_tokens (code : List UInt8) (s : Compiler) :
    compileLoop code s = compileTokens (code.filterMap token) s := by
  induction code generalizing s with
  | nil => rfl
  | cons c code ih =>
    rw [compileLoop, compileChar_token]
    split
    · rename_i full
      rw [compileTokens_full full]
    · rename_i room
      cases value : token c with
      | none =>
        rw [List.filterMap_cons_none value]
        exact ih s
      | some t =>
        rw [List.filterMap_cons_some value, compileTokens, if_neg room]
        simp only [ih]

end Tokens

/-! ## The states of the compiler -/

section States

variable {s s' : Compiler} {p : Program Command} {P : List Instruction} {n j : Nat} {f : Instruction → Instruction}

/-- The places in `STACK` are those of brackets before `pc`. -/
structure Ready (s : Compiler) : Prop where
  program : s.PROGRAM.length = PROGRAM_SIZE
  stack : s.STACK.length = STACK_SIZE
  room : s.SP ≤ STACK_SIZE
  pc : s.pc.toNat ≤ PROGRAM_SIZE
  places : ∀ i < s.SP, ∃ v, s.STACK[i]? = some v ∧ v.toNat < s.pc.toNat

theorem modify_other (other : j ≠ n) : (P.modify n f)[j]? = P[j]? := by
  rw [List.getElem?_modify]
  simp only [Ne.symm other, if_false]
  exact Option.map_id'

theorem modify_self {i : Instruction} (here : P[n]? = some i) : (P.modify n f)[n]? = some (f i) := by
  rw [List.getElem?_modify, here]
  simp only [if_true]
  rfl

theorem next_toNat (free : s.pc.toNat < PROGRAM_SIZE) : (s.pc + 1).toNat = s.pc.toNat + 1 := by
  unfold PROGRAM_SIZE at free
  rw [UInt16.toNat_add]
  exact Nat.mod_eq_of_lt (by have one : (1 : UInt16).toNat = 1 := rfl; omega)

/-- Behind an operator that is no bracket. -/
def Compiler.op (s : Compiler) (operator : UInt16) : Compiler :=
  { s with PROGRAM := s.PROGRAM.modify s.pc.toNat fun i => { i with operator }, pc := s.pc + 1 }

/-- Behind an opening bracket. -/
def Compiler.opening (s : Compiler) : Compiler where
  PROGRAM := s.PROGRAM.modify s.pc.toNat fun i => { i with operator := OP_JMP_FWD }
  STACK := s.STACK.set s.SP s.pc
  SP := s.SP + 1
  pc := s.pc + 1

/-- Behind the closing bracket for the opening one at `jmp_pc`. -/
def Compiler.closing (s : Compiler) (jmp_pc : UInt16) : Compiler where
  PROGRAM := (s.PROGRAM.modify s.pc.toNat fun _ => ⟨OP_JMP_BCK, jmp_pc⟩).modify jmp_pc.toNat fun i => { i with operand := s.pc }
  STACK := s.STACK
  SP := s.SP - 1
  pc := s.pc + 1

theorem opening_eq (s : Compiler) : compileToken .opening s = (setOperator s.PROGRAM s.pc OP_JMP_FWD >>= fun PROGRAM =>
    if s.SP = STACK_SIZE then .ok (true, { s with PROGRAM })
    else Trap.put s.STACK s.SP s.pc >>= fun STACK => .ok (false, ⟨PROGRAM, STACK, s.SP + 1, s.pc + 1⟩)) :=
  rfl

theorem closing_eq (s : Compiler) : compileToken .closing s = if s.SP = 0 then .ok (true, s)
    else Trap.load s.STACK (s.SP - 1 : Nat) >>= fun jmp_pc => setOperator s.PROGRAM s.pc OP_JMP_BCK >>= fun PROGRAM =>
      setOperand PROGRAM s.pc jmp_pc >>= fun PROGRAM => setOperand PROGRAM jmp_pc s.pc >>= fun PROGRAM =>
      .ok (false, ⟨PROGRAM, s.STACK, s.SP - 1, s.pc + 1⟩) :=
  rfl

theorem op_step (ready : Ready s) (free : s.pc.toNat < PROGRAM_SIZE) (c : Command) :
    compileToken (.op c) s = .ok (false, s.op c.operator) := by
  have step : compileToken (.op c) s = (setOperator s.PROGRAM s.pc c.operator >>= fun PROGRAM =>
      .ok (false, { s with PROGRAM, pc := s.pc + 1 })) := by
    cases c <;> rfl
  rw [step, setOperator_ok (by rw [ready.program]; exact free), ok_bind]
  rfl

theorem opening_full (ready : Ready s) (free : s.pc.toNat < PROGRAM_SIZE) (full : s.SP = STACK_SIZE) :
    ∃ s', compileToken .opening s = .ok (true, s') := by
  rw [opening_eq, setOperator_ok (by rw [ready.program]; exact free), ok_bind, if_pos full]
  exact ⟨_, rfl⟩

theorem opening_step (ready : Ready s) (free : s.pc.toNat < PROGRAM_SIZE) (space : s.SP < STACK_SIZE) :
    compileToken .opening s = .ok (false, s.opening) := by
  rw [opening_eq, setOperator_ok (by rw [ready.program]; exact free), ok_bind, if_neg (Nat.ne_of_lt space),
    Trap.put_natCast (by rw [ready.stack]; exact space), ok_bind]
  rfl

theorem closing_empty (empty : s.SP = 0) : compileToken .closing s = .ok (true, s) := by
  rw [closing_eq, if_pos empty]

theorem closing_step (ready : Ready s) (free : s.pc.toNat < PROGRAM_SIZE) {jmp_pc : UInt16} (some : s.SP ≠ 0)
    (top : s.STACK[s.SP - 1]? = Option.some jmp_pc) : compileToken .closing s = .ok (false, s.closing jmp_pc) := by
  have before : jmp_pc.toNat < s.pc.toNat := by
    obtain ⟨v, here, less⟩ := ready.places (s.SP - 1) (by omega)
    rw [top] at here
    cases here
    exact less
  rw [closing_eq, if_neg some, Trap.load_natCast, top, Trap.check_some, ok_bind, setOperator_ok (by rw [ready.program]; exact free), ok_bind,
    setOperand_ok (by rw [List.length_modify, ready.program]; exact free), ok_bind,
    setOperand_ok (by rw [List.length_modify, List.length_modify, ready.program]; omega), ok_bind, List.modify_modify_eq]
  rfl

theorem Ready.op (ready : Ready s) (free : s.pc.toNat < PROGRAM_SIZE) (operator : UInt16) : Ready (s.op operator) := by
  have next := next_toNat free
  refine ⟨?_, ready.stack, ready.room, ?_, fun i less => ?_⟩
  · rw [Compiler.op, List.length_modify, ready.program]
  · simp only [Compiler.op, next]
    exact free
  · obtain ⟨v, here, before⟩ := ready.places i less
    exact ⟨v, here, by simp only [Compiler.op, next]; omega⟩

theorem Ready.opening (ready : Ready s) (free : s.pc.toNat < PROGRAM_SIZE) (space : s.SP < STACK_SIZE) :
    Ready s.opening := by
  have next := next_toNat free
  refine ⟨?_, ?_, space, ?_, fun i less => ?_⟩
  · rw [Compiler.opening, List.length_modify, ready.program]
  · rw [Compiler.opening, List.length_set, ready.stack]
  · simp only [Compiler.opening, next]
    exact free
  · simp only [Compiler.opening, next] at less ⊢
    rcases Nat.lt_or_ge i s.SP with small | last
    · obtain ⟨v, here, before⟩ := ready.places i small
      exact ⟨v, by rw [List.getElem?_set_ne (by omega), here], by omega⟩
    · obtain rfl : i = s.SP := by omega
      exact ⟨s.pc, List.getElem?_set_self (by rw [ready.stack]; exact space), by omega⟩

theorem Ready.closing (ready : Ready s) (free : s.pc.toNat < PROGRAM_SIZE) (jmp_pc : UInt16) : Ready (s.closing jmp_pc) := by
  have next := next_toNat free
  have room := ready.room
  refine ⟨?_, ready.stack, ?_, ?_, fun i less => ?_⟩
  · rw [Compiler.closing, List.length_modify, List.length_modify, ready.program]
  · simp only [Compiler.closing]
    omega
  · simp only [Compiler.closing, next]
    exact free
  · simp only [Compiler.closing, next] at less ⊢
    obtain ⟨v, here, before⟩ := ready.places i (by omega)
    exact ⟨v, here, by omega⟩

end States

/-! ## Programs that fit -/

section Programs

variable {s s' : Compiler} {p body rest : Program Command} {ts : List (Token Command)}

/-- There is room for the instructions of the program, with one more behind them, and for the places of its brackets. -/
def Fits (s : Compiler) (p : Program Command) : Prop :=
  s.pc.toNat + p.length < PROGRAM_SIZE ∧ s.SP + p.depth ≤ STACK_SIZE

/-- What the compiler has done behind a program. -/
structure Compiled (p : Program Command) (s s' : Compiler) : Prop where
  ready : Ready s'
  pc : s'.pc.toNat = s.pc.toNat + p.length
  SP : s'.SP = s.SP
  placed : Placed (decode s'.PROGRAM) s.pc.toNat p
  before : ∀ j < s.pc.toNat, s'.PROGRAM[j]? = s.PROGRAM[j]?
  stack : ∀ i < s.SP, s'.STACK[i]? = s.STACK[i]?

theorem compileTokens_step {t : Token Command} (free : s.pc.toNat < PROGRAM_SIZE)
    (step : compileToken t s = .ok (false, s')) : compileTokens (t :: ts) s = compileTokens ts s' := by
  rw [compileTokens, if_neg (Nat.not_le.mpr free), step]
  rfl

theorem compileTokens_failed {t : Token Command} (free : s.pc.toNat < PROGRAM_SIZE)
    (step : compileToken t s = .ok (true, s')) : compileTokens (t :: ts) s = .ok (true, s') := by
  rw [compileTokens, if_neg (Nat.not_le.mpr free), step]
  rfl

theorem decode_of {P : List Instruction} {j : Nat} {i : Instruction} (here : P[j]? = some i) : decode P j = i.code := by
  unfold decode
  rw [here]

theorem decode_same {P P' : List Instruction} {j : Nat} (same : P'[j]? = P[j]?) : decode P' j = decode P j := by
  unfold decode
  rw [same]

theorem code_operator (c : Command) (operand : UInt16) : (⟨c.operator, operand⟩ : Instruction).code = .op c := by
  cases c <;> rfl

theorem exists_instruction (ready : Ready s) (free : s.pc.toNat < PROGRAM_SIZE) : ∃ i, s.PROGRAM[s.pc.toNat]? = some i :=
  ⟨_, List.getElem?_eq_getElem (by rw [ready.program]; exact free)⟩

/-- A program that fits is placed in `PROGRAM`. -/
theorem compile_fits (ready : Ready s) (fits : Fits s p) :
    ∃ s', (∀ ts, compileTokens (p.tokens ++ ts) s = compileTokens ts s') ∧ Compiled p s s' := by
  induction p generalizing s with
  | nil => exact ⟨s, fun _ => rfl, ready, rfl, rfl, trivial, fun _ _ => rfl, fun _ _ => rfl⟩
  | op c rest ih =>
    obtain ⟨size, deep⟩ := fits
    rw [Program.length] at size
    rw [Program.depth] at deep
    have free : s.pc.toNat < PROGRAM_SIZE := by omega
    have next := next_toNat free
    obtain ⟨s', run, done⟩ := ih (ready.op free c.operator) ⟨by simp only [Compiler.op, next]; omega, deep⟩
    obtain ⟨i, here⟩ := exists_instruction ready free
    have placed := done.placed
    have pc := done.pc
    simp only [Compiler.op, next] at placed pc
    refine ⟨s', fun ts => ?_, done.ready, by rw [pc, Program.length]; omega, done.SP, ⟨?_, placed⟩, fun j less => ?_, done.stack⟩
    · rw [Program.tokens, List.cons_append, compileTokens_step free (op_step ready free c), run]
    · have kept := done.before s.pc.toNat (by simp only [Compiler.op, next]; omega)
      rw [decode_of (kept.trans (modify_self here))]
      exact code_operator c i.operand
    · exact (done.before j (by simp only [Compiler.op, next]; omega)).trans (modify_other (Nat.ne_of_lt less))
  | loop body rest body_ih rest_ih =>
    obtain ⟨size, deep⟩ := fits
    rw [Program.length] at size
    rw [Program.depth] at deep
    have free : s.pc.toNat < PROGRAM_SIZE := by omega
    have space : s.SP < STACK_SIZE := by omega
    have next := next_toNat free
    obtain ⟨i, here⟩ := exists_instruction ready free
    -- the body, behind the opening bracket
    obtain ⟨s₁, run₁, done₁⟩ := body_ih (ready.opening free space)
      ⟨by simp only [Compiler.opening, next]; omega, by simp only [Compiler.opening]; omega⟩
    have pc₁ := done₁.pc
    have SP₁ := done₁.SP
    have placed₁ := done₁.placed
    simp only [Compiler.opening, next] at pc₁ SP₁ placed₁
    have free₁ : s₁.pc.toNat < PROGRAM_SIZE := by omega
    have next₁ := next_toNat free₁
    have top : s₁.STACK[s₁.SP - 1]? = some s.pc := by
      rw [SP₁, Nat.add_sub_cancel, done₁.stack s.SP (by simp only [Compiler.opening]; omega)]
      exact List.getElem?_set_self (by rw [ready.stack]; exact space)
    have first : s₁.PROGRAM[s.pc.toNat]? = some { i with operator := OP_JMP_FWD } :=
      (done₁.before _ (by simp only [Compiler.opening, next]; omega)).trans (modify_self here)
    obtain ⟨i₁, here₁⟩ := exists_instruction done₁.ready free₁
    -- the rest, behind the closing bracket
    obtain ⟨s₂, run₂, done₂⟩ := rest_ih (done₁.ready.closing free₁ s.pc)
      ⟨by simp only [Compiler.closing, next₁]; omega, by simp only [Compiler.closing]; omega⟩
    have pc₂ := done₂.pc
    have SP₂ := done₂.SP
    have placed₂ := done₂.placed
    have before₂ := done₂.before
    simp only [Compiler.closing, next₁] at pc₂ SP₂ placed₂ before₂
    have inner : ∀ j, j < s₁.pc.toNat → j ≠ s.pc.toNat → s₂.PROGRAM[j]? = s₁.PROGRAM[j]? := fun j less other =>
      (before₂ j (by omega)).trans ((modify_other other).trans (modify_other (by omega)))
    refine ⟨s₂, fun ts => ?_, done₂.ready, by rw [pc₂, pc₁, Program.length]; omega, by rw [SP₂, SP₁]; rfl, ?_, fun j less => ?_,
      fun j less => ?_⟩
    · rw [Program.tokens, List.cons_append, List.append_assoc, compileTokens_step free (opening_step ready free space), run₁,
        List.cons_append, compileTokens_step free₁ (closing_step done₁.ready free₁ (by omega) top), run₂]
    · have start : s₂.PROGRAM[s.pc.toNat]? = some ⟨OP_JMP_FWD, s₁.pc⟩ :=
        (before₂ _ (by omega)).trans (modify_self ((modify_other (by omega)).trans first))
      have last : s₂.PROGRAM[s₁.pc.toNat]? = some ⟨OP_JMP_BCK, s.pc⟩ :=
        (before₂ _ (by omega)).trans ((modify_other (by omega)).trans (modify_self here₁))
      refine ⟨?_, placed₁.congr fun j least most => decode_same (inner j (by omega) (by omega)), ?_, ?_⟩
      · rw [decode_of start, show s.pc.toNat + body.length + 1 = s₁.pc.toNat by omega]
        rfl
      · rw [show s.pc.toNat + body.length + 1 = s₁.pc.toNat by omega, decode_of last]
        rfl
      · rw [show s.pc.toNat + body.length + 2 = s₁.pc.toNat + 1 by omega]
        exact placed₂
    · exact (inner j (by omega) (by omega)).trans ((done₁.before j (by simp only [Compiler.opening, next]; omega)).trans
        (modify_other (by omega)))
    · refine (done₂.stack j (by simp only [Compiler.closing]; omega)).trans ((done₁.stack j (by
        simp only [Compiler.opening]; omega)).trans ?_)
      exact List.getElem?_set_ne (by omega)

/-- The loop has returned `FAILURE`, or has filled `PROGRAM`. -/
def Rejected (out : Except Trap (Bool × Compiler)) : Prop :=
  ∃ failed s', out = .ok (failed, s') ∧ (failed = true ∨ PROGRAM_SIZE ≤ s'.pc.toNat)

theorem rejected_full (full : PROGRAM_SIZE ≤ s.pc.toNat) (ts : List (Token Command)) : Rejected (compileTokens ts s) :=
  ⟨false, s, compileTokens_full full ts, .inr full⟩

/-- A program that does not fit is rejected. -/
theorem compile_unfit (ready : Ready s) (unfit : ¬Fits s p) (ts : List (Token Command)) :
    Rejected (compileTokens (p.tokens ++ ts) s) := by
  induction p generalizing s ts with
  | nil =>
    have room := ready.room
    apply rejected_full
    unfold Fits at unfit
    simp only [Program.length, Program.depth] at unfit
    omega
  | op c rest ih =>
    rcases Nat.lt_or_ge s.pc.toNat PROGRAM_SIZE with free | full
    · have next := next_toNat free
      rw [Program.tokens, List.cons_append, compileTokens_step free (op_step ready free c)]
      apply ih (ready.op free _)
      unfold Fits at unfit ⊢
      simp only [Compiler.op, next]
      simp only [Program.length, Program.depth] at unfit
      omega
    · exact rejected_full full _
  | loop body rest body_ih rest_ih =>
    rcases Nat.lt_or_ge s.pc.toNat PROGRAM_SIZE with free | full
    · have next := next_toNat free
      have room := ready.room
      rw [Program.tokens, List.cons_append, List.append_assoc]
      rcases Nat.lt_or_ge s.SP STACK_SIZE with space | deep
      · rw [compileTokens_step free (opening_step ready free space)]
        have ready' := ready.opening free space
        rcases Classical.em (Fits s.opening body) with fits | unfit'
        · obtain ⟨s₁, run₁, done₁⟩ := compile_fits ready' fits
          have pc₁ := done₁.pc
          have SP₁ := done₁.SP
          simp only [Compiler.opening, next] at pc₁ SP₁
          rw [run₁, List.cons_append]
          unfold Fits at fits unfit
          simp only [Compiler.opening, next] at fits
          simp only [Program.length, Program.depth] at unfit
          have free₁ : s₁.pc.toNat < PROGRAM_SIZE := by omega
          have next₁ := next_toNat free₁
          obtain ⟨v, top, -⟩ := done₁.ready.places (s₁.SP - 1) (by omega)
          rw [compileTokens_step free₁ (closing_step done₁.ready free₁ (by omega) top)]
          apply rest_ih (done₁.ready.closing free₁ v)
          unfold Fits
          simp only [Compiler.closing, next₁]
          omega
        · exact body_ih ready' unfit' _
      · obtain ⟨s', failed⟩ := opening_full ready free (Nat.le_antisymm room deep)
        rw [compileTokens_failed free failed]
        exact ⟨true, s', rfl, .inl rfl⟩
    · exact rejected_full full _

/-- The loop stays inside of its arrays, and counts the brackets in `SP`. -/
theorem compileTokens_counts (ready : Ready s) (ts : List (Token Command)) :
    ∃ failed s', compileTokens ts s = .ok (failed, s') ∧
      (failed = true ∨ Ready s' ∧ (PROGRAM_SIZE ≤ s'.pc.toNat ∨ nest s.SP ts = some s'.SP)) := by
  induction ts generalizing s with
  | nil => exact ⟨false, s, rfl, .inr ⟨ready, .inr rfl⟩⟩
  | cons t ts ih =>
    rcases Nat.lt_or_ge s.pc.toNat PROGRAM_SIZE with free | full
    · cases t with
      | op c =>
        rw [compileTokens_step free (op_step ready free c)]
        exact ih (ready.op free _)
      | opening =>
        have room := ready.room
        rcases Nat.lt_or_ge s.SP STACK_SIZE with space | deep
        · rw [compileTokens_step free (opening_step ready free space)]
          exact ih (ready.opening free space)
        · obtain ⟨s', failed⟩ := opening_full ready free (Nat.le_antisymm room deep)
          exact ⟨true, s', compileTokens_failed free failed, .inl rfl⟩
      | closing =>
        cases open_loops : s.SP with
        | zero => exact ⟨true, s, compileTokens_failed free (closing_empty open_loops), .inl rfl⟩
        | succ n =>
          obtain ⟨v, top, -⟩ := ready.places (s.SP - 1) (by omega)
          rw [compileTokens_step free (closing_step ready free (by omega) top)]
          obtain ⟨failed, s', run, counts⟩ := ih (ready.closing free v)
          have fewer : (s.closing v).SP = n := by rw [Compiler.closing, open_loops, Nat.add_sub_cancel]
          rw [fewer] at counts
          exact ⟨failed, s', run, counts⟩
    · exact ⟨false, s, compileTokens_full full _, .inr ⟨ready, .inl full⟩⟩

end Programs

/-! ## The compiler -/

section Result

variable {code : List UInt8} {PROGRAM : List Instruction} {STACK : List UInt16}

theorem ready_start (program : PROGRAM.length = PROGRAM_SIZE) (stack : STACK.length = STACK_SIZE) :
    Ready ⟨PROGRAM, STACK, 0, 0⟩ :=
  ⟨program, stack, Nat.zero_le _, Nat.zero_le _, fun i less => absurd less (Nat.not_lt_zero i)⟩

/-- There is room for the program in `PROGRAM`, with `OP_END` behind it, and for its brackets in `STACK`. -/
def Small (p : Program Command) : Prop := p.length < PROGRAM_SIZE ∧ p.depth ≤ STACK_SIZE

theorem fits_start (p : Program Command) : Fits ⟨PROGRAM, STACK, 0, 0⟩ p ↔ Small p := by
  unfold Fits Small
  simp only [UInt16.toNat_zero, Nat.zero_add]

/-- A program that is small is compiled to instructions in which it is placed. -/
theorem compileBf_small (program : PROGRAM.length = PROGRAM_SIZE) (stack : STACK.length = STACK_SIZE)
    {p : Program Command} (spells : Spells code p) (small : Small p) :
    ∃ PROGRAM', compileBf code PROGRAM STACK = .ok (SUCCESS, PROGRAM') ∧ Placed (decode PROGRAM') 0 p ∧
      decode PROGRAM' p.length = .stop := by
  obtain ⟨s', run, done⟩ := compile_fits (ready_start program stack) ((fits_start p).mpr small)
  have all : compileTokens p.tokens ⟨PROGRAM, STACK, 0, 0⟩ = .ok (false, s') := by
    rw [← List.append_nil p.tokens, run]
    rfl
  have pc : s'.pc.toNat = p.length := done.pc.trans (Nat.zero_add _)
  have free : s'.pc.toNat < PROGRAM_SIZE := by rw [pc]; exact small.1
  obtain ⟨i, here⟩ := exists_instruction done.ready free
  refine ⟨s'.PROGRAM.modify s'.pc.toNat fun i => { i with operator := OP_END }, ?_, done.placed.congr fun j _ most => ?_, ?_⟩
  · unfold compileBf
    rw [compileLoop_tokens, spells, all, ok_bind]
    simp only [done.SP, Nat.ne_of_lt free, ne_eq, not_true_eq_false, or_self, if_false, Bool.false_eq_true]
    rw [setOperator_ok (by rw [done.ready.program]; exact free)]
    rfl
  · have less : j < p.length := by simpa using most
    exact decode_same (modify_other (by omega))
  · rw [← pc, decode_of (modify_self here)]
    rfl

/-- The compiler returns, and what it says when it succeeds. -/
theorem compileBf_returns (program : PROGRAM.length = PROGRAM_SIZE) (stack : STACK.length = STACK_SIZE) :
    ∃ status PROGRAM', compileBf code PROGRAM STACK = .ok (status, PROGRAM') ∧
      (status = SUCCESS → nest 0 (code.filterMap token) = some 0 ∧
        ¬Rejected (compileTokens (code.filterMap token) ⟨PROGRAM, STACK, 0, 0⟩)) := by
  obtain ⟨failed, s', run, counts⟩ := compileTokens_counts (ready_start program stack) (code.filterMap token)
  have fails : ¬FAILURE = SUCCESS := by decide
  unfold compileBf
  rw [compileLoop_tokens, run, ok_bind]
  cases failed with
  | true => exact ⟨FAILURE, s'.PROGRAM, rfl, fun same => absurd same fails⟩
  | false =>
    obtain ⟨ready, counts⟩ := counts.resolve_left Bool.false_ne_true
    simp only [Bool.false_eq_true, if_false]
    split
    · exact ⟨FAILURE, s'.PROGRAM, rfl, fun same => absurd same fails⟩
    · rename_i whole
      obtain ⟨none_open, free⟩ := not_or.mp whole
      have pc := ready.pc
      have less : s'.pc.toNat < PROGRAM_SIZE := by omega
      rw [setOperator_ok (by rw [ready.program]; exact less), ok_bind]
      refine ⟨SUCCESS, _, rfl, fun _ => ⟨?_, ?_⟩⟩
      · rw [counts.resolve_left (by omega), not_not.mp none_open]
      · rintro ⟨failed, s'', same, rejected⟩
        cases same
        exact rejected.elim Bool.false_ne_true (by omega)

/-- The compiler stays inside of its arrays and succeeds for the texts of small programs, and for no other text. -/
theorem compileBf_accepts (program : PROGRAM.length = PROGRAM_SIZE) (stack : STACK.length = STACK_SIZE) :
    ∃ status PROGRAM', compileBf code PROGRAM STACK = .ok (status, PROGRAM') ∧
      (status = SUCCESS ↔ ∃ p, Spells code p ∧ Small p) := by
  obtain ⟨status, PROGRAM', result, balanced⟩ := @compileBf_returns code PROGRAM STACK program stack
  refine ⟨status, PROGRAM', result, fun success => ?_, fun ⟨p, spells, small⟩ => ?_⟩
  · obtain ⟨count, accepted⟩ := balanced success
    obtain ⟨p, spells⟩ := nest_iff.mp count
    refine ⟨p, spells.symm, ?_⟩
    by_contra large
    have rejected := compile_unfit (ready_start program stack) (fun fits => large ((fits_start p).mp fits)) []
    rw [List.append_nil, spells] at rejected
    exact accepted rejected
  · obtain ⟨PROGRAM'', result', -⟩ := compileBf_small program stack spells small
    rw [result] at result'
    cases result'
    rfl

/-- A bracket that is not closed. -/
theorem compileBf_accepts_open : ∃ status PROGRAM',
    compileBf [91] (List.replicate PROGRAM_SIZE ⟨0, 0⟩) (List.replicate STACK_SIZE 0) = .ok (status, PROGRAM') ∧
      (status = SUCCESS ↔ ∃ p, Spells [91] p ∧ Small p) :=
  compileBf_accepts List.length_replicate List.length_replicate

end Result

end OsLab.Microbench.Bf
