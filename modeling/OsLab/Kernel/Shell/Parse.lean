import OsLab.Kernel.Shell.Command
import Mathlib.Data.List.TakeWhile
import Mathlib.Logic.Function.Basic

/-!
# The grammar of command lines (`command_parse`)

The splitter with its memory: the array of the arguments, the bytes each copy of a word writes into a buffer of
32 bytes, and the places of the array that are written. A word that fills its buffer has no end of its own there and
is read on into what is `behind` it. The grammar it is compared with knows only the words of the line.
-/

namespace OsLab.Kernel.Shell

open OsLab.Klib

/-! ## The splitter -/

/-- `command` in memory; a place of `args` nobody has written holds what it held before. -/
structure RawCommand where
  head : Option CStr
  args : Nat → Option CStr
  argc : Nat
  stdinPath : Option CStr
  stderrPath : Option CStr
  stdoutPath : Option CStr

/-- `command_parse` between two words: `written` are the sizes of the copies it has made, `places` the indices of
`args` it has written to. -/
structure Parsing where
  cmd : RawCommand
  lastRedirect : RedirectType
  written : List Nat
  places : List Nat

/-- The path of a stream. -/
def RawCommand.setPath (cmd : RawCommand) (path : CStr) : RedirectType → RawCommand
  | .none => cmd
  | .stdin => { cmd with stdinPath := some path }
  | .stdout => { cmd with stdoutPath := some path }
  | .stderr => { cmd with stderrPath := some path }

/-- A copy into a fresh buffer. -/
def Parsing.wrote (p : Parsing) (n : Nat) : Parsing := { p with written := p.written ++ [n] }

/-- `cmd->args[cmd->argc] = arg` -/
def Parsing.setArg (p : Parsing) (arg : Option CStr) : Parsing :=
  { p with
    cmd := { p.cmd with args := Function.update p.cmd.args p.cmd.argc arg }
    places := p.places ++ [p.cmd.argc] }

/-- The string in a buffer of 32 bytes into which `substr` has copied `bs`. -/
def itemString (bs behind : CStr) : CStr := if bs.length < 32 then bs else bs ++ behind.takeWhile (· ≠ 0)

/-- `cmd->args[cmd->argc] = item; cmd->argc++` -/
def Parsing.pushArg (p : Parsing) (item : CStr) : Parsing :=
  { p.setArg (some item) with cmd := { (p.setArg (some item)).cmd with argc := p.cmd.argc + 1 } }

/-- The path of the stream whose operator waits. -/
def Parsing.redirect (cwd : CStr) (p : Parsing) (item : CStr) : Parsing :=
  { p with cmd := p.cmd.setPath (pathExpand cwd item) p.lastRedirect, lastRedirect := .none }

/-- The body of the loop of `command_parse` once the word is in its buffer. -/
def storeItem (cwd : CStr) (p : Parsing) (item : CStr) : Except Halt Parsing :=
  if strlen item = 0 then .ok p
  else if redirectOf item ≠ .none then
    -- a second operator in a row is ignored with a warning
    .ok { p with lastRedirect := if p.lastRedirect ≠ .none then p.lastRedirect else redirectOf item }
  else if p.lastRedirect ≠ .none then .ok (p.redirect cwd item)
  else
    match p.cmd.head with
    | none => .ok { p with cmd := { p.cmd with head := some item } }
    | some _ => do
      kassert (p.cmd.argc < nArgs) "too many args %d"
      .ok (p.pushArg item)

/-- The loop of `command_parse`: `strcpy` copies the last word with its end, `substr` the others without it. -/
def parseLoop (behind : Nat → CStr) (cwd : CStr) : Nat → Parsing → CStr → Except Halt Parsing
  | 0, _, _ => .error .diverge
  | fuel + 1, p, t =>
    match strchr t space with
    | none => storeItem cwd (p.wrote (strlen t + 1)) t
    | some tlen => do
      -- `strncpy` of nothing writes the NUL
      let item := itemString (t.take tlen) (behind p.written.length)
      let p ← storeItem cwd (p.wrote (max 1 tlen)) item
      parseLoop behind cwd fuel p (t.drop (tlen + 1))

/-- `command_parse` on a `command` with anything in its array. -/
def commandParseRaw (behind : Nat → CStr) (cwd : CStr) (args : Nat → Option CStr) (s : CStr) :
    Except Halt Parsing := do
  let p ← parseLoop behind cwd (s.length + 1) ⟨⟨none, args, 0, none, none, none⟩, .none, [], []⟩ s
  .ok (p.setArg none)

/-! ## The grammar -/

/-- What is between the spaces of a line. -/
def pieces (s : CStr) : List CStr := s.splitOn space

/-- The words of a line. -/
def words (s : CStr) : List CStr := (pieces s).filter (· ≠ [])

/-- The stream an operator redirects, `none` for the other words. -/
def operatorOf (w : CStr) : RedirectType :=
  if w = text "<" then .stdin
  else if w = text ">" ∨ w = text "1>" then .stdout
  else if w = text "2>" then .stderr
  else .none

/-- What a word that is no operator is for. -/
inductive Token where
  | word (w : CStr)
  | target (stream : RedirectType) (w : CStr)
  deriving DecidableEq

/-- The token of a word, where `pending` is the operator that waits for its target. -/
def tokenOf (pending : RedirectType) (w : CStr) : Option Token :=
  if operatorOf w ≠ .none then none
  else if pending = .none then some (.word w)
  else some (.target pending w)

/-- The operator that waits behind a word: the first one of several in a row. -/
def pendingAfter (pending : RedirectType) (w : CStr) : RedirectType :=
  if operatorOf w = .none then .none
  else if pending = .none then operatorOf w
  else pending

/-- The tokens of words, read from left to right. -/
def tokens : RedirectType → List CStr → List Token
  | _, [] => []
  | pending, w :: ws => (tokenOf pending w).toList ++ tokens (pendingAfter pending w) ws

/-- The word of a token that is no target. -/
def Token.plain : Token → Option CStr
  | .word w => some w
  | .target _ _ => none

/-- The word of a token that is a target of the stream. -/
def Token.targetFor (stream : RedirectType) : Token → Option CStr
  | .word _ => none
  | .target r w => if r = stream then some w else none

/-- The words that are neither operators nor targets. -/
def plainWords (ts : List Token) : List CStr := ts.filterMap Token.plain

/-- The last target of a stream. -/
def targetOf (stream : RedirectType) (ts : List Token) : Option CStr :=
  (ts.filterMap (Token.targetFor stream)).getLast?

/-- The tokens of a line. -/
def lineTokens (s : CStr) : List Token := tokens .none (words s)

/-- The head of a line and its arguments. -/
def commandWords (s : CStr) : List CStr := plainWords (lineTokens s)

/-- The argument words of a line. -/
def argumentWords (s : CStr) : List CStr := (commandWords s).tail

/-! ## Words and pieces -/

section Words

variable {s t w : CStr} {c : UInt8} {n : Nat}

/-- The code compares with the operators what the grammar takes for them. -/
theorem redirectOf_eq (terminated : 0 ∉ w) : redirectOf w = operatorOf w := by
  have compares (op : String) (plain : 0 ∉ text op) : streq w (text op) = true ↔ w = text op :=
    streq_iff terminated plain
  simp only [redirectOf, operatorOf, Bool.or_eq_true, compares "<" (by decide), compares ">" (by decide),
    compares "1>" (by decide), compares "2>" (by decide)]

theorem pieces_last (last : strchr s space = none) : pieces s = [s] :=
  List.splitOn_eq_singleton (strchr_none last)

theorem pieces_more (more : strchr s space = some n) : pieces s = s.take n :: pieces (s.drop (n + 1)) := by
  obtain ⟨rest, cut, behind, plain⟩ := strchr_some (by decide) more
  have tail : s.drop (n + 1) = rest := by rw [← List.drop_drop, behind, List.drop_succ_cons, List.drop_zero]
  rw [tail]
  conv_lhs => rw [cut]
  exact List.splitOn_append_cons_self_of_not_mem plain rest

theorem pieces_ne_nil : pieces s ≠ [] := List.splitOn_ne_nil space s

theorem notMem_pieces (h : c ∉ s) (piece : t ∈ pieces s) : c ∉ t := by
  induction s generalizing t with
  | nil =>
    rw [pieces, List.splitOn_nil, List.mem_singleton] at piece
    exact piece ▸ h
  | cons a s ih =>
    rw [List.mem_cons, not_or] at h
    rw [pieces, List.splitOn_cons_eq_if_modifyHead] at piece
    split at piece
    · obtain rfl | piece := List.mem_cons.1 piece
      · exact List.not_mem_nil
      · exact ih h.2 piece
    · obtain ⟨p, ps, split⟩ := List.exists_cons_of_ne_nil (pieces_ne_nil (s := s))
      have inside : ∀ t ∈ p :: ps, c ∉ t := fun t mem => ih h.2 (split ▸ mem)
      have head : List.splitOn space s = p :: ps := split
      rw [head, List.modifyHead_cons] at piece
      obtain rfl | piece := List.mem_cons.1 piece
      · exact List.not_mem_cons_of_ne_of_not_mem h.1 (inside p List.mem_cons_self)
      · exact inside t (List.mem_cons_of_mem _ piece)

end Words

/-! ## The loop as a fold over the copies -/

/-- What the buffers of the words hold after the copies, and the bytes the copies write. -/
def copies (behind : Nat → CStr) : Nat → List CStr → List (CStr × Nat)
  | _, [] => []
  | _, [t] => [(t, t.length + 1)]
  | k, t :: u :: ts => (itemString t (behind k), max 1 t.length) :: copies behind (k + 1) (u :: ts)

/-- The bodies of the loop one after the other. -/
def storeItems (cwd : CStr) : Parsing → List (CStr × Nat) → Except Halt Parsing
  | p, [] => .ok p
  | p, (item, n) :: items => do storeItems cwd (← storeItem cwd (p.wrote n) item) items

section Loop

variable {behind : Nat → CStr} {cwd item s t : CStr} {p p' : Parsing} {fuel k n : Nat}

/-- What the body does with a word. -/
inductive Stores (cwd : CStr) (p : Parsing) (item : CStr) : Parsing → Prop where
  | nothing : item = [] → Stores cwd p item p
  | operator : item ≠ [] → redirectOf item ≠ .none → Stores cwd p item
      { p with lastRedirect := if p.lastRedirect ≠ .none then p.lastRedirect else redirectOf item }
  | target : item ≠ [] → redirectOf item = .none → p.lastRedirect ≠ .none → Stores cwd p item (p.redirect cwd item)
  | head : item ≠ [] → redirectOf item = .none → p.lastRedirect = .none → p.cmd.head = none →
      Stores cwd p item { p with cmd := { p.cmd with head := some item } }
  | arg : item ≠ [] → redirectOf item = .none → p.lastRedirect = .none → p.cmd.head ≠ none →
      p.cmd.argc < nArgs → Stores cwd p item (p.pushArg item)

theorem storeItem_stores (run : storeItem cwd p item = .ok p') : Stores cwd p item p' := by
  unfold storeItem at run
  split at run
  · next empty =>
    cases run
    exact .nothing (by simpa using empty)
  next long =>
  have word : item ≠ [] := by simpa using long
  split at run
  · next operator =>
    cases run
    exact .operator word operator
  next plain =>
  have plain := not_not.1 plain
  split at run
  · next pending =>
    cases run
    exact .target word plain pending
  next idle =>
  have idle := not_not.1 idle
  split at run
  · next first =>
    cases run
    exact .head word plain idle first
  · next later =>
    by_cases room : p.cmd.argc < nArgs
    · rw [kassert, if_pos room] at run
      cases run
      exact .arg word plain idle (by simp [later]) room
    · rw [kassert, if_neg room] at run
      contradiction

theorem storeItem_written (run : storeItem cwd p item = .ok p') : p'.written = p.written := by
  cases storeItem_stores run <;> rfl

/-- Only an argument without room halts the body. -/
theorem storeItem_runs (room : p.cmd.argc < nArgs) : ∃ p', storeItem cwd p item = .ok p' := by
  unfold storeItem
  split
  · exact ⟨_, rfl⟩
  split
  · exact ⟨_, rfl⟩
  split
  · exact ⟨_, rfl⟩
  split
  · exact ⟨_, rfl⟩
  · rw [kassert, if_pos room]
    exact ⟨_, rfl⟩

theorem copies_more (rest : List CStr) (some : rest ≠ []) :
    copies behind k (t :: rest) = (itemString t (behind k), max 1 t.length) :: copies behind (k + 1) rest := by
  obtain ⟨u, us, rfl⟩ := List.exists_cons_of_ne_nil some
  rw [copies]

theorem parseLoop_eq (enough : s.length < fuel) :
    parseLoop behind cwd fuel p s = storeItems cwd p (copies behind p.written.length (pieces s)) := by
  induction fuel generalizing s p with
  | zero => exact absurd enough (Nat.not_lt_zero _)
  | succ fuel ih =>
    rw [parseLoop]
    cases found : strchr s space with
    | none =>
      rw [pieces_last found, copies, storeItems, strlen_eq]
      cases storeItem cwd (p.wrote (s.length + 1)) s with
      | error e => rfl
      | ok p' => rfl
    | some n =>
      have inside : n < s.length := strchr_lt (by decide) found
      have size : (s.take n).length = n := List.length_take_of_le inside.le
      rw [pieces_more found, copies_more _ pieces_ne_nil, storeItems, size]
      cases body : storeItem cwd (p.wrote (max 1 n)) (itemString (s.take n) (behind p.written.length)) with
      | error e => simp [body, bind, Except.bind]
      | ok p' =>
        have count : p'.written.length = p.written.length + 1 := by
          rw [storeItem_written body]
          simp [Parsing.wrote]
        simp only [body, bind, Except.bind]
        rw [ih (by rw [List.length_drop]; omega), count]

end Loop

/-! ## The command of the tokens -/

/-- `command_parse` has read these tokens. -/
structure Parsed (cwd : CStr) (args : Nat → Option CStr) (ts : List Token) (p : Parsing) : Prop where
  head : p.cmd.head = (plainWords ts).head?
  argc : p.cmd.argc = (plainWords ts).tail.length
  stored : ∀ i, p.cmd.args i = ((plainWords ts).tail[i]?).or (args i)
  stdin : p.cmd.stdinPath = (targetOf .stdin ts).map (pathExpand cwd)
  stdout : p.cmd.stdoutPath = (targetOf .stdout ts).map (pathExpand cwd)
  stderr : p.cmd.stderrPath = (targetOf .stderr ts).map (pathExpand cwd)
  places : p.places = List.range p.cmd.argc
  few : p.cmd.argc ≤ nArgs

section Grammar

variable {cwd item w : CStr} {args : Nat → Option CStr} {ts us : List Token} {p p' : Parsing}
  {pending r : RedirectType} {items : List (CStr × Nat)} {n : Nat}

@[simp] theorem plainWords_append : plainWords (ts ++ us) = plainWords ts ++ plainWords us :=
  List.filterMap_append

@[simp] theorem plainWords_word : plainWords [.word w] = [w] := by simp [plainWords, Token.plain]

@[simp] theorem plainWords_target : plainWords [.target r w] = [] := by simp [plainWords, Token.plain]

@[simp] theorem targetOf_nil : targetOf r [] = none := by simp [targetOf]

@[simp] theorem targetOf_word : targetOf r (ts ++ [.word w]) = targetOf r ts := by
  simp [targetOf, Token.targetFor]

@[simp] theorem targetOf_target (r' : RedirectType) :
    targetOf r (ts ++ [.target r' w]) = if r' = r then some w else targetOf r ts := by
  by_cases same : r' = r <;> simp [targetOf, Token.targetFor, same]

theorem tokenOf_operator (operator : operatorOf w ≠ .none) : tokenOf pending w = none := by
  simp [tokenOf, operator]

theorem tokenOf_target (plain : operatorOf w = .none) (waits : pending ≠ .none) :
    tokenOf pending w = some (.target pending w) := by
  simp [tokenOf, plain, waits]

theorem tokenOf_word (plain : operatorOf w = .none) (idle : pending = .none) :
    tokenOf pending w = some (.word w) := by
  simp [tokenOf, plain, idle]

/-- Before a token is read. -/
theorem parsed_start : Parsed cwd args [] ⟨⟨none, args, 0, none, none, none⟩, .none, [], []⟩ := by
  constructor <;> simp [plainWords]

theorem Parsed.wrote (parsed : Parsed cwd args ts p) (n : Nat) : Parsed cwd args ts (p.wrote n) :=
  ⟨parsed.head, parsed.argc, parsed.stored, parsed.stdin, parsed.stdout, parsed.stderr, parsed.places, parsed.few⟩

theorem Parsed.redirect (parsed : Parsed cwd args ts p) :
    Parsed cwd args (ts ++ [.target p.lastRedirect item]) (p.redirect cwd item) := by
  obtain ⟨⟨head, stored, argc, stdin, stderr, stdout⟩, lastRedirect, written, places⟩ := p
  obtain ⟨h1, h2, h3, h4, h5, h6, h7, h8⟩ := parsed
  cases lastRedirect <;>
    constructor <;> simp_all [Parsing.redirect, RawCommand.setPath]

theorem Parsed.setHead (parsed : Parsed cwd args ts p) (first : p.cmd.head = none) :
    Parsed cwd args (ts ++ [.word item]) { p with cmd := { p.cmd with head := some item } } := by
  have empty : plainWords ts = [] := by simpa [parsed.head] using first
  have argc : p.cmd.argc = 0 := by simp [parsed.argc, empty]
  refine ⟨by simp [empty], by simp [empty, argc], fun i => ?_, by simp [parsed.stdin], by simp [parsed.stdout],
    by simp [parsed.stderr], parsed.places, parsed.few⟩
  simp [empty, parsed.stored i]

/-- One argument more behind those that are stored. -/
theorem update_args {stored args : Nat → Option CStr} {items : List CStr} {item : CStr}
    (same : ∀ i, stored i = (items[i]?).or (args i)) (i : Nat) :
    Function.update stored items.length (some item) i = ((items ++ [item])[i]?).or (args i) := by
  have here := same i
  rcases lt_trichotomy i items.length with before | rfl | after
  · rw [Function.update_of_ne (by omega), here, List.getElem?_append_left before]
  · simp
  · rw [Function.update_of_ne (by omega), here, List.getElem?_eq_none after.le,
      List.getElem?_eq_none (by simp; omega)]

theorem Parsed.pushArg (parsed : Parsed cwd args ts p) (later : p.cmd.head ≠ none) (room : p.cmd.argc < nArgs) :
    Parsed cwd args (ts ++ [.word item]) (p.pushArg item) := by
  obtain ⟨h, rest, words⟩ : ∃ h rest, plainWords ts = h :: rest := by
    refine List.exists_cons_of_ne_nil fun empty => later ?_
    simp [parsed.head, empty]
  have argc : p.cmd.argc = rest.length := by simp [parsed.argc, words]
  refine ⟨?_, ?_, fun i => ?_, ?_, ?_, ?_, ?_, room⟩
  · simpa [Parsing.pushArg, Parsing.setArg, words] using parsed.head
  · simp [words, Parsing.pushArg, argc]
  · have stored := parsed.stored
    rw [words, List.tail_cons] at stored
    rw [plainWords_append, words, plainWords_word, List.cons_append, List.tail_cons]
    show Function.update p.cmd.args p.cmd.argc (some item) i = _
    rw [argc]
    exact update_args stored i
  · simpa [Parsing.pushArg, Parsing.setArg] using parsed.stdin
  · simpa [Parsing.pushArg, Parsing.setArg] using parsed.stdout
  · simpa [Parsing.pushArg, Parsing.setArg] using parsed.stderr
  · show p.places ++ [p.cmd.argc] = _
    rw [parsed.places]
    exact List.range_succ.symm

/-- A word makes one step of the grammar. -/
theorem Parsed.store (parsed : Parsed cwd args ts p) (run : storeItem cwd p item = .ok p') (word : item ≠ [])
    (terminated : 0 ∉ item) :
    Parsed cwd args (ts ++ (tokenOf p.lastRedirect item).toList) p' ∧
      p'.lastRedirect = pendingAfter p.lastRedirect item := by
  have same := redirectOf_eq terminated
  cases storeItem_stores run with
  | nothing empty => exact absurd empty word
  | operator _ operator =>
    rw [same] at operator
    rw [tokenOf_operator operator, Option.toList_none, List.append_nil]
    refine ⟨⟨parsed.head, parsed.argc, parsed.stored, parsed.stdin, parsed.stdout, parsed.stderr, parsed.places,
      parsed.few⟩, ?_⟩
    by_cases waits : p.lastRedirect = .none <;> simp [pendingAfter, operator, waits, same]
  | target _ plain waits =>
    rw [same] at plain
    rw [tokenOf_target plain waits]
    exact ⟨parsed.redirect, by simp [pendingAfter, plain, Parsing.redirect]⟩
  | head _ plain idle first =>
    rw [same] at plain
    rw [tokenOf_word plain idle]
    exact ⟨parsed.setHead first, by simp [pendingAfter, plain, idle]⟩
  | arg _ plain idle later room =>
    rw [same] at plain
    rw [tokenOf_word plain idle]
    exact ⟨parsed.pushArg later room, by simp [pendingAfter, plain, Parsing.pushArg, Parsing.setArg, idle]⟩

/-- The body halts only at an argument too many. -/
theorem Parsed.store_runs (parsed : Parsed cwd args ts p) (terminated : 0 ∉ item)
    (room : (plainWords (ts ++ (tokenOf p.lastRedirect item).toList)).tail.length ≤ nArgs) :
    ∃ p', storeItem cwd p item = .ok p' := by
  by_cases less : p.cmd.argc < nArgs
  · exact storeItem_runs less
  have full : p.cmd.argc = nArgs := Nat.le_antisymm parsed.few (Nat.not_lt.1 less)
  unfold storeItem
  split
  · exact ⟨_, rfl⟩
  split
  · exact ⟨_, rfl⟩
  next plain =>
  have plain := not_not.1 plain
  rw [redirectOf_eq terminated] at plain
  split
  · exact ⟨_, rfl⟩
  next idle =>
  have idle := not_not.1 idle
  split
  · exact ⟨_, rfl⟩
  · next later =>
    -- the word is one more argument
    have argc := parsed.argc
    have some : plainWords ts ≠ [] := by
      intro empty
      simp [parsed.head, empty] at later
    rw [tokenOf_word plain idle, Option.toList_some, plainWords_append, plainWords_word,
      List.tail_append_of_ne_nil some, List.length_append, ← argc, full] at room
    simp at room

theorem storeItem_nil : storeItem cwd p [] = .ok p := by simp [storeItem]

/-- The words of the buffers, whatever else has been copied. -/
def itemWords (items : List (CStr × Nat)) : List CStr := (items.map Prod.fst).filter (· ≠ [])

theorem itemWords_nil : itemWords (([], n) :: items) = itemWords items := by simp [itemWords]

theorem itemWords_cons (word : item ≠ []) : itemWords ((item, n) :: items) = item :: itemWords items := by
  simp [itemWords, word]

/-- The whole line: the tokens of its words, and the sizes of the copies. -/
theorem Parsed.run (parsed : Parsed cwd args ts p) (terminated : ∀ c ∈ items, 0 ∉ c.1)
    (run : storeItems cwd p items = .ok p') :
    Parsed cwd args (ts ++ tokens p.lastRedirect (itemWords items)) p' ∧
      p'.written = p.written ++ items.map Prod.snd := by
  induction items generalizing ts p with
  | nil =>
    cases run
    exact ⟨by simpa [itemWords, tokens] using parsed, by simp⟩
  | cons c items ih =>
    obtain ⟨item, n⟩ := c
    rw [List.forall_mem_cons] at terminated
    rw [storeItems] at run
    cases body : storeItem cwd (p.wrote n) item with
    | error e => simp [body, bind, Except.bind] at run
    | ok q =>
      rw [body] at run
      have written : q.written = p.written ++ [n] := storeItem_written body
      rcases eq_or_ne item [] with rfl | word
      · rw [storeItem_nil] at body
        cases body
        rw [itemWords_nil]
        obtain ⟨done, sizes⟩ := ih (parsed.wrote n) terminated.2 run
        exact ⟨done, by rw [sizes, written]; simp⟩
      · obtain ⟨step, waits⟩ := (parsed.wrote n).store body word terminated.1
        obtain ⟨done, sizes⟩ := ih step terminated.2 run
        rw [itemWords_cons word, tokens]
        refine ⟨?_, by rw [sizes, written]; simp⟩
        rw [waits, List.append_assoc] at done
        exact done

/-- The line is read to its end if it has no argument too many. -/
theorem Parsed.runs (parsed : Parsed cwd args ts p) (terminated : ∀ c ∈ items, 0 ∉ c.1)
    (room : (plainWords (ts ++ tokens p.lastRedirect (itemWords items))).tail.length ≤ nArgs) :
    ∃ p', storeItems cwd p items = .ok p' := by
  induction items generalizing ts p with
  | nil => exact ⟨p, rfl⟩
  | cons c items ih =>
    obtain ⟨item, n⟩ := c
    rw [List.forall_mem_cons] at terminated
    rw [storeItems]
    rcases eq_or_ne item [] with rfl | word
    · rw [itemWords_nil] at room
      rw [storeItem_nil]
      exact ih (parsed.wrote n) terminated.2 room
    · rw [itemWords_cons word, tokens, ← List.append_assoc] at room
      have before : (plainWords (ts ++ (tokenOf p.lastRedirect item).toList)).tail.length ≤ nArgs := by
        rw [plainWords_append] at room
        simp only [List.length_tail, List.length_append] at room ⊢
        omega
      obtain ⟨q, body⟩ := (parsed.wrote n).store_runs terminated.1 before
      obtain ⟨step, waits⟩ := (parsed.wrote n).store body word terminated.1
      have next : p.lastRedirect = (p.wrote n).lastRedirect := rfl
      rw [next, ← waits] at room
      obtain ⟨p', rest⟩ := ih step terminated.2 room
      exact ⟨p', by rw [body]; exact rest⟩

end Grammar

/-! ## The buffers -/

/-- The buffers of the words hold their copies. -/
def RoomFor (ps : List CStr) : Prop := (∀ t ∈ ps.dropLast, t.length ≤ 32) ∧ ∀ t ∈ ps.getLast?, t.length ≤ 31

/-- Two words that are alike for the grammar. -/
structure Alike (v w : CStr) : Prop where
  empty : v = [] ↔ w = []
  operator : operatorOf v = operatorOf w

section Copies

variable {behind : Nat → CStr} {cwd s t v w : CStr} {k : Nat} {ps vs ws : List CStr} {pending : RedirectType}
  {items : List (CStr × Nat)}

theorem alike_refl : Alike w w := ⟨Iff.rfl, rfl⟩

theorem operatorOf_long (long : 3 ≤ w.length) : operatorOf w = .none := by
  have other (op : String) (short : (text op).length < 3) : w ≠ text op := by
    rintro rfl
    omega
  simp [operatorOf, other "<" (by decide), other ">" (by decide), other "1>" (by decide), other "2>" (by decide)]

theorem itemString_short (short : t.length < 32) : itemString t v = t := if_pos short

theorem itemString_alike : Alike (itemString t v) t := by
  unfold itemString
  split
  · exact alike_refl
  · next long =>
    have some : t ≠ [] := by
      rintro rfl
      simp at long
    exact ⟨by simp [some], by rw [operatorOf_long (by simp; omega), operatorOf_long (by omega)]⟩

theorem notMem_itemString (terminated : 0 ∉ t) : 0 ∉ itemString t v := by
  unfold itemString
  split
  · exact terminated
  · rw [List.mem_append, not_or]
    exact ⟨terminated, fun mem => by simpa using List.mem_takeWhile_imp mem⟩

theorem copies_terminated (terminated : ∀ t ∈ ps, 0 ∉ t) : ∀ c ∈ copies behind k ps, 0 ∉ c.1 := by
  induction ps generalizing k with
  | nil => simp [copies]
  | cons t rest ih =>
    rw [List.forall_mem_cons] at terminated
    rcases eq_or_ne rest [] with rfl | more
    · simpa [copies] using terminated.1
    · rw [copies_more rest more, List.forall_mem_cons]
      exact ⟨notMem_itemString terminated.1, ih terminated.2⟩

theorem copies_short (short : ∀ t ∈ ps, t.length < 32) : (copies behind k ps).map Prod.fst = ps := by
  induction ps generalizing k with
  | nil => simp [copies]
  | cons t rest ih =>
    rw [List.forall_mem_cons] at short
    rcases eq_or_ne rest [] with rfl | more
    · simp [copies]
    · rw [copies_more rest more, List.map_cons, ih short.2, itemString_short short.1]

theorem copies_alike : List.Forall₂ Alike ((copies behind k ps).map Prod.fst) ps := by
  induction ps generalizing k with
  | nil => simp [copies]
  | cons t rest ih =>
    rcases eq_or_ne rest [] with rfl | more
    · simp [copies, alike_refl]
    · rw [copies_more rest more, List.map_cons]
      exact .cons itemString_alike ih

/-- The copies stay in their buffers exactly if there is room for the pieces. -/
theorem copies_fit : (∀ c ∈ copies behind k ps, c.2 ≤ 32) ↔ RoomFor ps := by
  induction ps generalizing k with
  | nil => simp [copies, RoomFor]
  | cons t rest ih =>
    rcases eq_or_ne rest [] with rfl | more
    · constructor
      · intro fit
        have room : t.length + 1 ≤ 32 := fit (t, t.length + 1) (by simp [copies])
        exact ⟨by simp, by simp; omega⟩
      · rintro ⟨-, last⟩ c copied
        have room := last t (by simp)
        obtain rfl : c = (t, t.length + 1) := by simpa [copies] using copied
        exact Nat.succ_le_succ room
    · rw [copies_more rest more, List.forall_mem_cons, ih, RoomFor, RoomFor, List.dropLast_cons_of_ne_nil more,
        List.forall_mem_cons, List.getLast?_cons_of_ne_nil more, and_assoc]
      simp

theorem Alike.token (alike : Alike v w) :
    (plainWords (tokenOf pending v).toList).length = (plainWords (tokenOf pending w).toList).length := by
  by_cases operator : operatorOf w = .none
  · have same := alike.operator.trans operator
    rcases eq_or_ne pending .none with idle | waits
    · simp [tokenOf_word operator idle, tokenOf_word same idle]
    · simp [tokenOf_target operator waits, tokenOf_target same waits]
  · have same : operatorOf v ≠ .none := fun plain => operator (alike.operator ▸ plain)
    simp [tokenOf_operator operator, tokenOf_operator same]

/-- Lines whose words are alike have as many plain words. -/
theorem plainWords_alike (alike : List.Forall₂ Alike vs ws) :
    (plainWords (tokens pending (vs.filter (· ≠ [])))).length =
      (plainWords (tokens pending (ws.filter (· ≠ [])))).length := by
  induction alike generalizing pending with
  | nil => rfl
  | @cons v w vs ws same _ ih =>
    rcases eq_or_ne w [] with rfl | some
    · have empty : v = [] := same.empty.2 rfl
      simpa [empty] using ih
    · have word : v ≠ [] := fun empty => some (same.empty.1 empty)
      have next : pendingAfter pending v = pendingAfter pending w := by simp [pendingAfter, same.operator]
      rw [List.filter_cons_of_pos (by simpa using word), List.filter_cons_of_pos (by simpa using some), tokens, tokens,
        plainWords_append, plainWords_append, List.length_append, List.length_append, same.token, next, ih]

end Copies

/-! ## Whole lines -/

/-- The command of a line's tokens. -/
structure RawCommand.Of (cwd : CStr) (ts : List Token) (cmd : RawCommand) : Prop where
  head : cmd.head = (plainWords ts).head?
  argc : cmd.argc = (plainWords ts).tail.length
  args : ∀ i < cmd.argc, cmd.args i = (plainWords ts).tail[i]?
  terminated : cmd.args cmd.argc = none
  stdin : cmd.stdinPath = (targetOf .stdin ts).map (pathExpand cwd)
  stdout : cmd.stdoutPath = (targetOf .stdout ts).map (pathExpand cwd)
  stderr : cmd.stderrPath = (targetOf .stderr ts).map (pathExpand cwd)

/-- The copies stay in their buffers, the array gets no more than its 16 elements, no assertion fails, and `argc` is
the number of the argument words. -/
def ParsesSafely (behind : Nat → CStr) (cwd : CStr) (args : Nat → Option CStr) (s : CStr) : Prop :=
  ∃ p, commandParseRaw behind cwd args s = .ok p ∧ (∀ n ∈ p.written, n ≤ 32) ∧ (∀ i ∈ p.places, i < nArgs) ∧
    p.cmd.argc = (argumentWords s).length

section Lines

variable {behind : Nat → CStr} {cwd s t : CStr} {args : Nat → Option CStr} {p : Parsing} {ts : List Token}

theorem Parsed.command (parsed : Parsed cwd args ts p) : (p.setArg none).cmd.Of cwd ts := by
  refine ⟨parsed.head, parsed.argc, fun i below => ?_, ?_, parsed.stdin, parsed.stdout, parsed.stderr⟩
  · have below : i < p.cmd.argc := below
    show Function.update p.cmd.args p.cmd.argc none i = _
    rw [Function.update_of_ne (by omega), parsed.stored i, List.getElem?_eq_getElem (by rw [← parsed.argc]; exact below)]
    rfl
  · exact Function.update_self ..

/-- The command is a function of the tokens. -/
theorem Parsed.unique {q : Parsing} (parsed : Parsed cwd args ts p) (other : Parsed cwd args ts q) :
    p.cmd = q.cmd := by
  obtain ⟨⟨head, stored, argc, stdin, stderr, stdout⟩, _, _, _⟩ := p
  obtain ⟨⟨head', stored', argc', stdin', stderr', stdout'⟩, _, _, _⟩ := q
  have sameArgs : stored = stored' := funext fun i => (parsed.stored i).trans (other.stored i).symm
  have sameHead : head = head' := parsed.head.trans other.head.symm
  have sameArgc : argc = argc' := parsed.argc.trans other.argc.symm
  have sameIn : stdin = stdin' := parsed.stdin.trans other.stdin.symm
  have sameOut : stdout = stdout' := parsed.stdout.trans other.stdout.symm
  have sameErr : stderr = stderr' := parsed.stderr.trans other.stderr.symm
  simp [sameArgs, sameHead, sameArgc, sameIn, sameOut, sameErr]

/-- A line is its copies, stored one after the other, and the `NULL` behind them. -/
theorem commandParseRaw_eq : commandParseRaw behind cwd args s =
    (storeItems cwd ⟨⟨none, args, 0, none, none, none⟩, .none, [], []⟩ (copies behind 0 (pieces s))).map
      fun p => p.setArg none := by
  rw [commandParseRaw, parseLoop_eq (Nat.lt_succ_self _)]
  rfl

theorem copies_pieces (behind : Nat → CStr) (terminated : 0 ∉ s) : ∀ c ∈ copies behind 0 (pieces s), 0 ∉ c.1 :=
  copies_terminated fun _ piece => notMem_pieces terminated piece

theorem itemWords_short (short : ∀ w ∈ words s, w.length < 32) :
    itemWords (copies behind 0 (pieces s)) = words s := by
  rw [itemWords, copies_short]
  · rfl
  · intro t piece
    rcases eq_or_ne t [] with rfl | some
    · simp
    · exact short t (List.mem_filter.2 ⟨piece, by simpa using some⟩)

/-- What a line with short words and few arguments is read as. -/
theorem commandParseRaw_parsed (terminated : 0 ∉ s) (short : ∀ w ∈ words s, w.length < 32)
    (few : (argumentWords s).length < nArgs) :
    ∃ p, Parsed cwd args (lineTokens s) p ∧ commandParseRaw behind cwd args s = .ok (p.setArg none) := by
  have plain := copies_pieces behind terminated
  have start : Parsed cwd args [] _ := parsed_start
  have room : (plainWords ([] ++ tokens .none (itemWords (copies behind 0 (pieces s))))).tail.length ≤ nArgs := by
    rw [List.nil_append, itemWords_short short]
    exact few.le
  obtain ⟨p, run⟩ := start.runs plain room
  have done := (start.run plain run).1
  rw [List.nil_append, itemWords_short short] at done
  exact ⟨p, done, by rw [commandParseRaw_eq, run]; rfl⟩

/-- `command_parse` reads lines by the grammar, and nothing but the words counts. -/
theorem commandParse_grammar (behind : Nat → CStr) (cwd : CStr) (args : Nat → Option CStr) (s : CStr)
    (terminated : 0 ∉ s) (short : ∀ w ∈ words s, w.length < 32) (few : (argumentWords s).length ≤ 15) :
    ∃ p, commandParseRaw behind cwd args s = .ok p ∧ p.cmd.Of cwd (lineTokens s) ∧
      ∀ s', 0 ∉ s' → words s' = words s → ∃ p', commandParseRaw behind cwd args s' = .ok p' ∧ p'.cmd = p.cmd := by
  obtain ⟨p, parsed, run⟩ := commandParseRaw_parsed terminated short (Nat.lt_succ_of_le few)
  refine ⟨_, run, parsed.command, fun s' terminated' same => ?_⟩
  have lines : lineTokens s' = lineTokens s := by rw [lineTokens, same, lineTokens]
  have few' : (argumentWords s').length < nArgs := by
    rw [argumentWords, commandWords, lines]
    exact Nat.lt_succ_of_le few
  obtain ⟨p', parsed', run'⟩ := commandParseRaw_parsed terminated' (same ▸ short) few'
  refine ⟨_, run', ?_⟩
  rw [lines] at parsed'
  have equal := parsed'.unique parsed
  simp [Parsing.setArg, equal]

/-- `  echo  a b > f` from `/`. -/
theorem commandParse_echo :
    ∃ p, commandParseRaw (fun _ => []) (text "/") (fun _ => none) (text "  echo  a b > f") = .ok p ∧
      p.cmd.Of (text "/") (lineTokens (text "  echo  a b > f")) ∧
      ∀ s', 0 ∉ s' → words s' = words (text "  echo  a b > f") →
        ∃ p', commandParseRaw (fun _ => []) (text "/") (fun _ => none) s' = .ok p' ∧ p'.cmd = p.cmd :=
  commandParse_grammar _ _ _ _ (by decide) (by decide) (by decide)

/-- A line is safe exactly if its pieces fit into their buffers and the `NULL` has a place behind the arguments. -/
theorem parsesSafely_iff (behind : Nat → CStr) (cwd : CStr) (args : Nat → Option CStr) (s : CStr)
    (terminated : 0 ∉ s) :
    ParsesSafely behind cwd args s ↔ RoomFor (pieces s) ∧ (argumentWords s).length ≤ 15 := by
  have plain := copies_pieces behind terminated
  have start : Parsed cwd args [] _ := parsed_start
  have count : (plainWords (tokens .none (itemWords (copies behind 0 (pieces s))))).tail.length =
      (argumentWords s).length := by
    rw [argumentWords, commandWords, lineTokens, List.length_tail, List.length_tail]
    exact congrArg (· - 1) (plainWords_alike copies_alike)
  constructor
  · rintro ⟨q, run, written, places, argc⟩
    rw [commandParseRaw_eq] at run
    cases loop : storeItems cwd ⟨⟨none, args, 0, none, none, none⟩, .none, [], []⟩ (copies behind 0 (pieces s)) with
    | error e => simp [loop, Except.map] at run
    | ok p =>
      rw [loop] at run
      cases run
      obtain ⟨done, sizes⟩ := start.run plain loop
      have argc : p.cmd.argc = (argumentWords s).length := argc
      have fit : ∀ c ∈ copies behind 0 (pieces s), c.2 ≤ 32 := by
        intro c mem
        refine written c.2 ?_
        show c.2 ∈ p.written
        rw [sizes]
        exact List.mem_append_right _ (List.mem_map_of_mem mem)
      refine ⟨copies_fit.1 fit, ?_⟩
      · have last := places p.cmd.argc (by simp [Parsing.setArg])
        rw [argc] at last
        exact Nat.le_of_lt_succ last
  · rintro ⟨room, few⟩
    obtain ⟨p, loop⟩ := start.runs plain (by rw [List.nil_append, count]; exact Nat.le_succ_of_le few)
    obtain ⟨done, sizes⟩ := start.run plain loop
    have argc : p.cmd.argc = (argumentWords s).length := done.argc.trans count
    refine ⟨p.setArg none, by rw [commandParseRaw_eq, loop]; rfl, fun n mem => ?_, fun i mem => ?_, argc⟩
    · have mem : n ∈ p.written := mem
      rw [sizes, List.nil_append, List.mem_map] at mem
      obtain ⟨c, copied, rfl⟩ := mem
      exact copies_fit.2 room c copied
    · have mem : i ∈ p.places ++ [p.cmd.argc] := mem
      rw [done.places, argc] at mem
      have bound : nArgs = 16 := rfl
      simp at mem
      omega

/-- A word with 31 characters and its NUL fill a buffer. -/
theorem parsesSafely_word : ParsesSafely (fun _ => []) (text "/") (fun _ => none) (List.replicate 31 97) :=
  (parsesSafely_iff _ _ _ _ (by decide)).2 ⟨⟨by decide, by decide⟩, by decide⟩

/-- `strcpy` writes 33 bytes into the buffer of a word with 32 characters. -/
theorem parse_overflows : ¬ ∀ behind cwd args s, 0 ∉ s → s.length ≤ 127 → ParsesSafely behind cwd args s := by
  intro safe
  obtain ⟨p, run, written, -⟩ :=
    safe (fun _ => []) (text "/") (fun _ => none) (List.replicate 32 97) (by decide) (by decide)
  have sizes : (commandParseRaw (fun _ => []) (text "/") (fun _ => none) (List.replicate 32 97)).map Parsing.written =
      .ok [33] := by decide
  rw [run] at sizes
  injection sizes with sizes
  have small := written 33 (by simp [sizes])
  exact absurd small (by decide)

end Lines

/-! ## The list of the arguments -/

/-- A `Command` and the memory it stands for. -/
structure Matches (args : Nat → Option CStr) (cmd : Command) (lastRedirect : RedirectType) (p : Parsing) : Prop where
  head : p.cmd.head = cmd.head
  argc : p.cmd.argc = cmd.args.length
  stored : ∀ i, p.cmd.args i = (cmd.args[i]?).or (args i)
  stdin : p.cmd.stdinPath = cmd.stdinPath
  stdout : p.cmd.stdoutPath = cmd.stdoutPath
  stderr : p.cmd.stderrPath = cmd.stderrPath
  waits : p.lastRedirect = lastRedirect

section Refinement

variable {behind : Nat → CStr} {cwd item s : CStr} {args : Nat → Option CStr} {cmd cmd' : Command}
  {r r' : RedirectType} {p : Parsing} {fuel : Nat}

theorem Matches.wrote (same : Matches args cmd r p) (n : Nat) : Matches args cmd r (p.wrote n) :=
  ⟨same.head, same.argc, same.stored, same.stdin, same.stdout, same.stderr, same.waits⟩

theorem Matches.redirect (same : Matches args cmd r p) :
    Matches args (setPath cmd (pathExpand cwd item) r) .none (p.redirect cwd item) := by
  obtain ⟨⟨_, _, _, _, _, _⟩, last, _, _⟩ := p
  obtain ⟨h1, h2, h3, h4, h5, h6, rfl⟩ := same
  cases last <;> constructor <;> simp_all [Parsing.redirect, RawCommand.setPath, setPath]

theorem Matches.pushArg (same : Matches args cmd r p) :
    Matches args { cmd with args := cmd.args ++ [item] } r (p.pushArg item) := by
  refine ⟨same.head, by simp [Parsing.pushArg, same.argc], fun i => ?_, same.stdin, same.stdout, same.stderr,
    same.waits⟩
  show Function.update p.cmd.args p.cmd.argc (some item) i = _
  rw [same.argc]
  exact update_args same.stored i

theorem Matches.parseItem (same : Matches args cmd r p) (run : parseItem cwd cmd r item = .ok (cmd', r')) :
    ∃ p', storeItem cwd p item = .ok p' ∧ Matches args cmd' r' p' := by
  unfold Shell.parseItem at run
  unfold storeItem
  rw [same.waits, same.head, same.argc]
  split at run
  · next empty =>
    cases run
    exact ⟨_, if_pos empty, same⟩
  next word =>
  rw [if_neg word]
  split at run
  · next operator =>
    cases run
    rw [if_pos operator]
    exact ⟨_, rfl, same.head, same.argc, same.stored, same.stdin, same.stdout, same.stderr, rfl⟩
  next plain =>
  rw [if_neg plain]
  split at run
  · next waits =>
    cases run
    exact ⟨_, if_pos waits, same.redirect⟩
  next idle =>
  rw [if_neg idle]
  cases first : cmd.head with
  | none =>
    simp only [first] at run ⊢
    cases run
    exact ⟨_, rfl, rfl, same.argc, same.stored, same.stdin, same.stdout, same.stderr, not_not.1 idle⟩
  | some _ =>
    by_cases room : cmd.args.length < nArgs
    · simp only [first, kassert, if_pos room] at run ⊢
      cases run
      have pushed : Matches args { cmd with args := cmd.args ++ [item] } r (p.pushArg item) := same.pushArg
      rw [first] at pushed
      exact ⟨_, rfl, not_not.1 idle ▸ pushed⟩
    · simp only [first, kassert, if_neg room] at run
      contradiction

theorem Matches.parseLoop (behind : Nat → CStr) (same : Matches args cmd r p) (run : commandParseLoop cwd fuel cmd r s = .ok cmd') :
    ∃ p' r', parseLoop behind cwd fuel p s = .ok p' ∧ Matches args cmd' r' p' := by
  induction fuel generalizing cmd r p s with
  | zero => contradiction
  | succ fuel ih =>
    rw [commandParseLoop] at run
    rw [Shell.parseLoop]
    cases found : strchr s space with
    | none =>
      simp only [found] at run ⊢
      split at run
      · contradiction
      · cases body : Shell.parseItem cwd cmd r s with
        | error e => simp [body, bind, Except.bind] at run
        | ok out =>
          simp only [body, bind, Except.bind, Except.ok.injEq] at run
          obtain ⟨p', stored, matched⟩ := (same.wrote (strlen s + 1)).parseItem body
          exact ⟨p', out.2, stored, run ▸ matched⟩
    | some n =>
      simp only [found] at run ⊢
      split at run
      · contradiction
      · next short =>
        cases body : Shell.parseItem cwd cmd r (s.take n) with
        | error e => simp [body, bind, Except.bind] at run
        | ok out =>
          simp only [body, bind, Except.bind] at run
          obtain ⟨p', stored, matched⟩ := (same.wrote (max 1 n)).parseItem body
          have whole : itemString (s.take n) (behind p.written.length) = s.take n :=
            itemString_short ((List.length_take_le ..).trans_lt (Nat.not_le.1 short))
          obtain ⟨q, r', rest, done⟩ := ih matched run
          exact ⟨q, r', by rw [whole, stored]; exact rest, done⟩

/-- Where `commandParse` has a result, it is what `command_parse` leaves in memory. -/
theorem commandParse_raw (run : commandParse cwd s = .ok cmd) :
    ∃ p r, commandParseRaw behind cwd args s = .ok (p.setArg none) ∧ Matches args cmd r p := by
  have start : Matches args ⟨none, [], none, none, none⟩ .none ⟨⟨none, args, 0, none, none, none⟩, .none, [], []⟩ := by
    constructor <;> simp
  rw [commandParse] at run
  cases loop : commandParseLoop cwd (s.length + 1) ⟨none, [], none, none, none⟩ .none s with
  | error e => simp [loop, bind, Except.bind] at run
  | ok last =>
    simp only [loop, bind, Except.bind] at run
    split at run
    · cases run
      obtain ⟨p, r, raw, matched⟩ := start.parseLoop behind loop
      exact ⟨p, r, by rw [commandParseRaw, raw]; rfl, matched⟩
    · contradiction

end Refinement

end OsLab.Kernel.Shell
