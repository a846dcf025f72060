import OsLab.Lib.Brackets
import OsLab.Lib.Trap

/-!
# The Brainf**k benchmark (`apps/microbench/src/bf/bf.c`)

`compile_bf` turns a text into instructions that know where their bracket is, `execute_bf` runs the instructions. Every
access to the instructions, to the stack, to the cells, to the input and to the output is checked.
-/

namespace OsLab.Microbench.Bf

def OP_END : UInt16 := 0
def OP_INC_DP : UInt16 := 1
def OP_DEC_DP : UInt16 := 2
def OP_INC_VAL : UInt16 := 3
def OP_DEC_VAL : UInt16 := 4
def OP_OUT : UInt16 := 5
def OP_IN : UInt16 := 6
def OP_JMP_FWD : UInt16 := 7
def OP_JMP_BCK : UInt16 := 8

def SUCCESS : Nat := 0
def FAILURE : Nat := 1

def PROGRAM_SIZE : Nat := 4096
def STACK_SIZE : Nat := 512
def DATA_SIZE : Nat := 4096

/-- `struct instruction_t` -/
structure Instruction where
  operator : UInt16
  operand : UInt16
  deriving DecidableEq, Repr

/-! ## The compiler -/

/-- What `compile_bf` writes to. -/
structure Compiler where
  PROGRAM : List Instruction
  STACK : List UInt16
  SP : Nat
  pc : UInt16

/-- `PROGRAM[pc].operator = operator` -/
def setOperator (PROGRAM : List Instruction) (pc operator : UInt16) : Except Trap (List Instruction) := do
  let i ← Trap.load PROGRAM pc.toNat
  Trap.put PROGRAM pc.toNat { i with operator }

/-- `PROGRAM[pc].operand = operand` -/
def setOperand (PROGRAM : List Instruction) (pc operand : UInt16) : Except Trap (List Instruction) := do
  let i ← Trap.load PROGRAM pc.toNat
  Trap.put PROGRAM pc.toNat { i with operand }

/-- The operator of a character other than a bracket. -/
def operator (c : UInt8) : Option UInt16 :=
  if c = 62 then some OP_INC_DP
  else if c = 60 then some OP_DEC_DP
  else if c = 43 then some OP_INC_VAL
  else if c = 45 then some OP_DEC_VAL
  else if c = 46 then some OP_OUT
  else if c = 44 then some OP_IN
  else none

/-- One turn of the loop of `compile_bf`, and whether it returns `FAILURE` -/
def compileChar (c : UInt8) (s : Compiler) : Except Trap (Bool × Compiler) :=
  match operator c with
  | some operator => do
    let PROGRAM ← setOperator s.PROGRAM s.pc operator
    .ok (false, { s with PROGRAM, pc := s.pc + 1 })
  | none =>
    if c = 91 then do
      let PROGRAM ← setOperator s.PROGRAM s.pc OP_JMP_FWD
      if s.SP = STACK_SIZE then .ok (true, { s with PROGRAM })
      else do
        let STACK ← Trap.put s.STACK s.SP s.pc
        .ok (false, ⟨PROGRAM, STACK, s.SP + 1, s.pc + 1⟩)
    else if c = 93 then
      if s.SP = 0 then .ok (true, s)
      else do
        let jmp_pc ← Trap.load s.STACK (s.SP - 1 : Nat)
        let PROGRAM ← setOperator s.PROGRAM s.pc OP_JMP_BCK
        let PROGRAM ← setOperand PROGRAM s.pc jmp_pc
        let PROGRAM ← setOperand PROGRAM jmp_pc s.pc
        .ok (false, { s with PROGRAM, SP := s.SP - 1, pc := s.pc + 1 })
    else .ok (false, { s with pc := s.pc - 1 + 1 })

/-- The loop of `compile_bf` over the characters before the NUL of `code`, and whether it returns `FAILURE` -/
def compileLoop : List UInt8 → Compiler → Except Trap (Bool × Compiler)
  | [], s => .ok (false, s)
  | c :: code, s =>
    if s.pc.toNat ≥ PROGRAM_SIZE then .ok (false, s)
    else do
      let (failed, s) ← compileChar c s
      if failed then .ok (true, s) else compileLoop code s

/-- `compile_bf`, with what it leaves in `PROGRAM` -/
def compileBf (code : List UInt8) (PROGRAM : List Instruction) (STACK : List UInt16) :
    Except Trap (Nat × List Instruction) := do
  let (failed, s) ← compileLoop code ⟨PROGRAM, STACK, 0, 0⟩
  if failed then .ok (FAILURE, s.PROGRAM)
  else if s.SP ≠ 0 ∨ s.pc.toNat = PROGRAM_SIZE then .ok (FAILURE, s.PROGRAM)
  else do
    let PROGRAM ← setOperator s.PROGRAM s.pc OP_END
    .ok (SUCCESS, PROGRAM)

/-! ## The interpreter -/

/-- What `execute_bf` reads and writes: the cells with `ptr`, the input with the characters that were read, and the
output with the characters that were written. -/
structure Tape where
  ptr : UInt32
  data : List UInt16
  input : List UInt8
  ninput : Nat
  output : List UInt8
  noutput : Nat
  deriving DecidableEq, Repr

namespace Tape

/-- `data[ptr] = f (data[ptr])` -/
def change (t : Tape) (f : UInt16 → UInt16) : Except Trap Tape := do
  let value ← Trap.load t.data t.ptr.toNat
  let data ← Trap.put t.data t.ptr.toNat (f value)
  .ok { t with data }

/-- What an operator does to the tape, where it does not jump. -/
def act (operator : UInt16) (t : Tape) : Except Trap Tape :=
  if operator = OP_INC_DP then .ok { t with ptr := t.ptr + 1 }
  else if operator = OP_DEC_DP then .ok { t with ptr := t.ptr - 1 }
  else if operator = OP_INC_VAL then t.change (· + 1)
  else if operator = OP_DEC_VAL then t.change (· - 1)
  else if operator = OP_OUT then do
    let value ← Trap.load t.data t.ptr.toNat
    let output ← Trap.put t.output t.noutput value.toUInt8
    .ok { t with output, noutput := t.noutput + 1 }
  else do
    let c ← Trap.load t.input t.ninput
    let t ← t.change fun _ => c.toInt8.toInt16.toUInt16
    .ok { t with ninput := t.ninput + 1 }

/-- `data[ptr]`, as a condition -/
def test (t : Tape) : Except Trap Bool := do
  let value ← Trap.load t.data t.ptr.toNat
  .ok (value ≠ 0)

/-- `ptr < DATA_SIZE` -/
def inside (t : Tape) : Bool := t.ptr.toNat < DATA_SIZE

end Tape

/-- The loop of `execute_bf`, if it ends in so many turns. -/
def executeBf (PROGRAM : List Instruction) : Nat → Nat → Tape → Option (Except Trap Tape)
  | 0, _, _ => none
  | fuel + 1, pc, t =>
    match Trap.load PROGRAM pc with
    | .error e => some (.error e)
    | .ok i =>
      if i.operator ≠ OP_END ∧ t.inside then
        if i.operator = OP_JMP_FWD then
          match t.test with
          | .error e => some (.error e)
          | .ok goes => executeBf PROGRAM fuel ((if goes then pc else i.operand.toNat) + 1) t
        else if i.operator = OP_JMP_BCK then
          match t.test with
          | .error e => some (.error e)
          | .ok goes => executeBf PROGRAM fuel ((if goes then i.operand.toNat else pc) + 1) t
        else if i.operator.toNat ≤ OP_IN.toNat then
          match t.act i.operator with
          | .error e => some (.error e)
          | .ok t => executeBf PROGRAM fuel (pc + 1) t
        else some (.ok t)
      else some (.ok t)

end OsLab.Microbench.Bf
