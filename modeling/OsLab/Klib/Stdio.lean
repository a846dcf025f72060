import OsLab.Kernel.Debug
import OsLab.Klib.String
import OsLab.Lib.Buffer
import OsLab.Lib.Memory

/-!
# Formatted output (`klib/src/stdio.c`)

`vsnprintf` puts each conversion into a buffer of its own, from the last character to the first, and copies it to the
output from there. Both buffers are lists of bytes, which a store outside of halts. `size_t` and `int` have 32 bits;
`below` is the memory in front of the string of digits.
-/

namespace OsLab.Klib

open OsLab.Memory OsLab.Buffer
open OsLab.Kernel (Halt)

/-- `BUFFER_SIZE` -/
def bufferSize : Nat := 400

/-- An access to a buffer. -/
def checked {α : Type} : Option α → Except Halt α
  | none => .error .outside
  | some a => .ok a

/-- `isdigit` -/
def isdigit (c : UInt8) : Bool := 48 ≤ charVal c ∧ charVal c ≤ 57

/-- `islower` -/
def islower (c : UInt8) : Bool := 97 ≤ charVal c ∧ charVal c ≤ 122

/-- A variable argument: 32 bits, a pointer, a `double` by the `int32_t` that 10000 times it is cast to, or a string. -/
inductive Arg where
  | word (w : UInt32)
  | pointer (v : Nat)
  | real (scaled : Int)
  | str (s : CStr)

/-- `va_arg`, which has no result for an argument of another type. -/
def wordArg : List Arg → Except Halt (UInt32 × List Arg)
  | .word w :: args => .ok (w, args)
  | _ => .error .outside

def pointerArg : List Arg → Except Halt (Nat × List Arg)
  | .pointer v :: args => .ok (v, args)
  | _ => .error .outside

def realArg : List Arg → Except Halt (Int × List Arg)
  | .real scaled :: args => .ok (scaled, args)
  | _ => .error .outside

def strArg : List Arg → Except Halt (CStr × List Arg)
  | .str s :: args => .ok (s, args)
  | _ => .error .outside

/-- `presentation[i]` -/
def presentation (below : Nat → UInt8) (i : Int) : UInt8 :=
  if i < 0 then below i.natAbs else charAt (text "0123456789abcdef") i.toNat

/-- `-var` as an `int32_t`. Of the most negative one it is undefined in C; the wrap stands for what may be printed then. -/
def negate (var : Int) : Int := toInt32 (ofInt32 (-var))

/-! ## One conversion -/

/-- `buffer`, `cp` and `outWidth`. -/
structure Conversion where
  buffer : List UInt8
  cp : Int
  outWidth : Nat

/-- `*(--cp) = c; outWidth++` -/
def Conversion.push (k : Conversion) (c : UInt8) : Except Halt Conversion := do
  let buffer ← checked (put k.buffer (k.cp - 1) c)
  .ok ⟨buffer, k.cp - 1, k.outWidth + 1⟩

/-- The digits of `var`, from the last to the first; the buffer has no room for more than `bufferSize`. -/
def pushDigits (below : Nat → UInt8) (base : Int) : Nat → Conversion → Int → Except Halt Conversion
  | 0, _, _ => .error .diverge
  | fuel + 1, k, var => do
    let k ← k.push (presentation below (var.tmod base))
    if var.tdiv base = 0 then .ok k else pushDigits below base fuel k (var.tdiv base)

/-- A number of digits, and what is left of `var`. -/
def pushSome (below : Nat → UInt8) : Nat → Conversion → Int → Except Halt (Conversion × Int)
  | 0, k, var => .ok (k, var)
  | i + 1, k, var => do
    let k ← k.push (presentation below (var.tmod 10))
    pushSome below i k (var.tdiv 10)

/-- The `switch` over the letter of a conversion. -/
def convert (below : Nat → UInt8) (type : UInt8) (args : List Arg) (k : Conversion) :
    Except Halt (Conversion × List Arg) :=
  if type = 100 then do -- 'd'
    let (w, args) ← wordArg args
    let var := toInt32 w.toNat
    let k ← pushDigits below 10 bufferSize k (if var < 0 then negate var else var)
    let k ← if var < 0 then k.push 45 else .ok k
    .ok (k, args)
  else if type = 117 then do -- 'u'
    let (w, args) ← wordArg args
    let k ← pushDigits below 10 bufferSize k w.toNat
    .ok (k, args)
  else if type = 112 then do -- 'p'
    let (v, args) ← pointerArg args
    let k ← pushDigits below 16 bufferSize k v
    let k ← k.push 120
    let k ← k.push 48
    .ok (k, args)
  else if type = 120 then do -- 'x'
    let (w, args) ← wordArg args
    let k ← pushDigits below 16 bufferSize k w.toNat
    .ok (k, args)
  else if type = 102 then do -- 'f'
    let (var, args) ← realArg args
    let (k, rest) ← pushSome below 4 k (if var < 0 then negate var else var)
    let k ← k.push 46
    let k ← pushDigits below 10 bufferSize k rest
    let k ← if var < 0 then k.push 45 else .ok k
    .ok (k, args)
  else if type = 115 then do -- 's'
    let (s, args) ← strArg args
    let k ← s.reverse.foldlM Conversion.push k
    .ok (k, args)
  else if type = 99 then do -- 'c'
    let (w, args) ← wordArg args
    let k ← k.push (UInt8.ofNat (w.toNat % 256))
    .ok (k, args)
  else .error (.assert "0")

/-- `while (outWidth < mnWidth)` with the character `pre`. -/
def padLoop (pre : UInt8) (mnWidth : Nat) : Nat → Conversion → Except Halt Conversion
  | 0, _ => .error .diverge
  | fuel + 1, k =>
    if k.outWidth < mnWidth then do
      let k ← k.push pre
      padLoop pre mnWidth fuel k
    else .ok k

/-- The loop that reads `mnWidth`. -/
def widthLoop : CStr → Nat → Except Halt (Nat × CStr)
  | [], mnWidth => .ok (mnWidth, [])
  | c :: fmt, mnWidth =>
    if isdigit c then
      if mnWidth * 10 + (c.toNat - 48) < 2 ^ 31 then widthLoop fmt (mnWidth * 10 + (c.toNat - 48))
      else .error .overflow
    else .ok (mnWidth, c :: fmt)

/-- `pre` and `mnWidth`, and the rest of the format. -/
def readWidth (fmt : CStr) : Except Halt (UInt8 × Nat × CStr) :=
  if isdigit (charAt fmt 0) then
    if charAt fmt 0 = 48 then do
      let (mnWidth, fmt) ← widthLoop (fmt.drop 1) 0
      .ok (48, mnWidth, fmt)
    else .error (.assert "0")
  else .ok (0, 0, fmt)

/-! ## The output -/

/-- `out`, `outp - out` and `ret`. -/
structure Output where
  out : List UInt8
  outp : Nat
  ret : Nat

/-- `*outp = c` -/
def Output.write (o : Output) (c : UInt8) : Except Halt Output := do
  let out ← checked (put o.out o.outp c)
  .ok { o with out }

/-- `outp++; ret++` -/
def Output.next (o : Output) : Output := { o with outp := o.outp + 1, ret := o.ret + 1 }

/-- `while (*cp)`; where `ret` reaches `n` the loop is left before `outp` is moved. -/
def copyLoop (n : Nat) (buffer : List UInt8) : Nat → Int → Output → Except Halt Output
  | 0, _, _ => .error .diverge
  | fuel + 1, cp, o => do
    let c ← checked (load buffer cp)
    if c = 0 then .ok o
    else do
      let o ← o.write c
      if (o.ret + 1) % 2 ^ 32 = n then .ok { o with ret := o.ret + 1 }
      else copyLoop n buffer fuel (cp + 1) o.next

/-- What is done with a `%`: the output, the conversion buffer, and what is left of the format and the arguments. -/
def formatConversion (below : Nat → UInt8) (n : Nat) (fmt : CStr) (args : List Arg) (buffer : List UInt8)
    (o : Output) : Except Halt (Output × List UInt8 × CStr × List Arg) := do
  let (pre, mnWidth, fmt) ← readWidth fmt
  let type := if islower (charAt fmt 0) then charAt fmt 0 else 0
  let buffer ← checked (put buffer (bufferSize - 1 : Nat) 0)
  let (k, args) ← convert below type args ⟨buffer, (bufferSize - 1 : Nat), 0⟩
  let k ← if pre ≠ 0 then padLoop pre mnWidth bufferSize k else .ok k
  let o ← copyLoop n k.buffer bufferSize k.cp o
  .ok (o, k.buffer, fmt.drop 1, args)

/-- `while (*fmt)`; only the copy of a character of the format leaves this loop where `ret` reaches `n`. -/
def formatLoop (below : Nat → UInt8) (n : Nat) :
    Nat → CStr → List Arg → List UInt8 → Output → Except Halt (Output × List UInt8)
  | 0, _, _, _, _ => .error .diverge
  | _ + 1, [], _, buffer, o => .ok (o, buffer)
  | fuel + 1, cur :: fmt, args, buffer, o =>
    if cur = 37 then do
      let (o, buffer, fmt, args) ← formatConversion below n fmt args buffer o
      formatLoop below n fuel fmt args buffer o
    else do
      let o ← o.write cur
      if (o.ret + 1) % 2 ^ 32 = n then .ok (o.next, buffer)
      else formatLoop below n fuel fmt args buffer o.next

/-- `vsnprintf`: its result, `out` and `vsn_buffer` afterwards. -/
def vsnprintf (below : Nat → UInt8) (buffer out : List UInt8) (n : Nat) (fmt : CStr) (args : List Arg) :
    Except Halt (Int × List UInt8 × List UInt8) := do
  let (o, buffer) ← formatLoop below n (fmt.length + 1) fmt args buffer ⟨out, 0, 0⟩
  let o ← o.write 0
  .ok (toInt32 (o.ret % 2 ^ 32), o.out, buffer)

/-- `sprintf` -/
def sprintf (below : Nat → UInt8) (buffer out : List UInt8) (fmt : CStr) (args : List Arg) :
    Except Halt (Int × List UInt8 × List UInt8) :=
  vsnprintf below buffer out (2 ^ 32 - 1) fmt args

end OsLab.Klib
