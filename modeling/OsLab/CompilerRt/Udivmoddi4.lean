import OsLab.Lib.Except

/-!
# Division of 64 bits in words of 32 (`compiler-rt/udivmoddi4.c`, `udivdi3.c`, `umoddi3.c`)

Operations that C leaves undefined have no result here: a division by 0, a shift by the width of the operand or more,
counting the zeros in front of or behind the bits of 0, and a difference or product of signed numbers that does not fit.
-/

namespace OsLab.CompilerRt

/-- Why an operation has no result. -/
inductive Undefined where
  | divZero
  | shift
  | noBits
  | overflow
  deriving DecidableEq, Repr

/-- `su_int` -/
abbrev SuInt := BitVec 32

/-- `du_int` -/
abbrev DuInt := BitVec 64

/-- `di_int`, read with a sign -/
abbrev DiInt := BitVec 64

/-- `udwords` -/
structure Udwords where
  high : SuInt
  low : SuInt

def Udwords.all (w : Udwords) : DuInt := w.high ++ w.low

/-- The words of a number. -/
def udwords (a : DuInt) : Udwords := ⟨a.extractLsb' 32 32, a.extractLsb' 0 32⟩

def nUwordBits : SuInt := 32

def nUdwordBits : SuInt := 64

def shl (x n : SuInt) : Except Undefined SuInt := if n < nUwordBits then .ok (x <<< n) else .error .shift

def shr (x n : SuInt) : Except Undefined SuInt := if n < nUwordBits then .ok (x >>> n) else .error .shift

def udiv (x y : SuInt) : Except Undefined SuInt := if y = 0 then .error .divZero else .ok (x / y)

def umod (x y : SuInt) : Except Undefined SuInt := if y = 0 then .error .divZero else .ok (x % y)

/-- `__builtin_clz` -/
def clz (x : SuInt) : Except Undefined SuInt :=
  if x = 0 then .error .noBits else .ok (BitVec.ofNat 32 (31 - Nat.log2 x.toNat))

/-- The zeros behind the last bit, of as many bits. -/
def trailing : Nat → Nat → Nat
  | 0, _ => 0
  | bits + 1, x => if x % 2 = 1 then 0 else trailing bits (x / 2) + 1

/-- `__builtin_ctz` -/
def ctz (x : SuInt) : Except Undefined SuInt :=
  if x = 0 then .error .noBits else .ok (BitVec.ofNat 32 (trailing 32 x.toNat))

/-- The body of the loop of `__udivmoddi4` -/
def divStep (d q r : Udwords) (carry : SuInt) : Udwords × Udwords × SuInt :=
  let r : Udwords := ⟨(r.high <<< 1) ||| (r.low >>> 31), (r.low <<< 1) ||| (q.high >>> 31)⟩
  let q : Udwords := ⟨(q.high <<< 1) ||| (q.low >>> 31), (q.low <<< 1) ||| carry⟩
  let s : DuInt := (d.all - r.all - 1).sshiftRight 63
  (q, udwords (r.all - (d.all &&& s)), (s &&& 1).setWidth 32)

/-- The loop of `__udivmoddi4` -/
def divLoop (d : Udwords) : Nat → Udwords → Udwords → SuInt → Udwords × Udwords × SuInt
  | 0, q, r, carry => (q, r, carry)
  | sr + 1, q, r, carry =>
    let (q, r, carry) := divStep d q r carry
    divLoop d sr q r carry

/-- The end of `__udivmoddi4`, after the special cases -/
def divide (d q r : Udwords) (sr : SuInt) : DuInt × DuInt :=
  let (q, r, carry) := divLoop d sr.toNat q r 0
  ((q.all <<< 1) ||| carry.setWidth 64, r.all)

/-- `n` shifted as it is for `sr` below the bits of a word: what is shifted out at the right goes to `q`. -/
def shiftBelow (n : Udwords) (sr : SuInt) : Except Undefined (Udwords × Udwords) := do
  let qhigh ← shl n.low (nUwordBits - sr)
  let rhigh ← shr n.high sr
  let rlow ← shl n.high (nUwordBits - sr)
  let rlow' ← shr n.low sr
  .ok (⟨qhigh, 0⟩, ⟨rhigh, rlow ||| rlow'⟩)

/-- `__udivmoddi4` where `d.s.low` is 0 and `n.s.high` is not -/
def divLowZero (n d : Udwords) : Except Undefined (DuInt × DuInt) :=
  if d.high = 0 then do
    let rem ← umod n.high d.low
    let quot ← udiv n.high d.low
    .ok (quot.setWidth 64, rem.setWidth 64)
  else if n.low = 0 then do
    let rhigh ← umod n.high d.high
    let quot ← udiv n.high d.high
    .ok (quot.setWidth 64, (⟨rhigh, 0⟩ : Udwords).all)
  else if d.high &&& (d.high - 1) = 0 then do
    let bits ← ctz d.high
    let quot ← shr n.high bits
    .ok (quot.setWidth 64, (⟨n.high &&& (d.high - 1), n.low⟩ : Udwords).all)
  else do
    let zeros ← clz d.high
    let zeros' ← clz n.high
    let sr := zeros - zeros'
    if sr > nUwordBits - 2 then .ok (0, n.all)
    else do
      let sr := sr + 1
      let (q, r) ← shiftBelow n sr
      .ok (divide d q r sr)

/-- `__udivmoddi4` where `d.s.high` is 0, and `d.s.low` and `n.s.high` are not -/
def divHighZero (n d : Udwords) : Except Undefined (DuInt × DuInt) :=
  if d.low &&& (d.low - 1) = 0 then
    let rem := (n.low &&& (d.low - 1)).setWidth 64
    if d.low = 1 then .ok (n.all, rem)
    else do
      let sr ← ctz d.low
      let qhigh ← shr n.high sr
      let qlow ← shl n.high (nUwordBits - sr)
      let qlow' ← shr n.low sr
      .ok ((⟨qhigh, qlow ||| qlow'⟩ : Udwords).all, rem)
  else do
    let zeros ← clz d.low
    let zeros' ← clz n.high
    let sr := 1 + nUwordBits + zeros - zeros'
    if sr = nUwordBits then .ok (divide d ⟨n.low, 0⟩ ⟨0, n.high⟩ sr)
    else if sr < nUwordBits then do
      let (q, r) ← shiftBelow n sr
      .ok (divide d q r sr)
    else do
      let qlow ← shl n.low (nUdwordBits - sr)
      let qhigh ← shl n.high (nUdwordBits - sr)
      let qhigh' ← shr n.low (sr - nUwordBits)
      let rlow ← shr n.high (sr - nUwordBits)
      .ok (divide d ⟨qhigh ||| qhigh', qlow⟩ ⟨0, rlow⟩ sr)

/-- `__udivmoddi4` where `d.s.high`, `d.s.low` and `n.s.high` are not 0 -/
def divWords (n d : Udwords) : Except Undefined (DuInt × DuInt) := do
  let zeros ← clz d.high
  let zeros' ← clz n.high
  let sr := zeros - zeros'
  if sr > nUwordBits - 1 then .ok (0, n.all)
  else
    let sr := sr + 1
    if sr = nUwordBits then .ok (divide d ⟨n.low, 0⟩ ⟨0, n.high⟩ sr)
    else do
      let (q, r) ← shiftBelow n sr
      .ok (divide d q r sr)

/-- `__udivmoddi4`, with what it writes to `rem` -/
def udivmoddi4 (a b : DuInt) : Except Undefined (DuInt × DuInt) :=
  let n := udwords a
  let d := udwords b
  if n.high = 0 then
    if d.high = 0 then do
      let rem ← umod n.low d.low
      let quot ← udiv n.low d.low
      .ok (quot.setWidth 64, rem.setWidth 64)
    else .ok (0, n.low.setWidth 64)
  else if d.low = 0 then divLowZero n d
  else if d.high = 0 then divHighZero n d
  else divWords n d

/-- `__udivdi3` -/
def udivdi3 (a b : DuInt) : Except Undefined DuInt := do
  let (q, _) ← udivmoddi4 a b
  .ok q

/-- `__umoddi3` -/
def umoddi3 (a b : DuInt) : Except Undefined DuInt := do
  let (_, r) ← udivmoddi4 a b
  .ok r

end OsLab.CompilerRt
