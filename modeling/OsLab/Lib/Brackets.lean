import Mathlib.Data.List.Basic

/-!
# Loops in brackets, and the jumps for them

A text of operations and brackets is a program of nested loops, a code has jumps between the places of the brackets instead.
What a program does is said of the nested loops, and a code that a program is placed in does the same.
-/

namespace OsLab.Brackets

variable {Op State ε : Type}

inductive Token (Op : Type) where
  | op (o : Op)
  | opening
  | closing

inductive Program (Op : Type) where
  | nil
  | op (o : Op) (rest : Program Op)
  | loop (body rest : Program Op)

namespace Program

def tokens : Program Op → List (Token Op)
  | nil => []
  | op o rest => .op o :: tokens rest
  | loop body rest => .opening :: (tokens body ++ .closing :: tokens rest)

def length : Program Op → Nat
  | nil => 0
  | op _ rest => length rest + 1
  | loop body rest => length body + length rest + 2

/-- How many loops are inside of each other. -/
def depth : Program Op → Nat
  | nil => 0
  | op _ rest => depth rest
  | loop body rest => max (depth body + 1) (depth rest)

end Program

/-- The loops that are open behind the tokens, if there are so many open before them. -/
def nest : Nat → List (Token Op) → Option Nat
  | n, [] => some n
  | n, .op _ :: ts => nest n ts
  | n, .opening :: ts => nest (n + 1) ts
  | 0, .closing :: _ => none
  | n + 1, .closing :: ts => nest n ts

/-- Programs with a closing bracket before each of them but the first. -/
def closed : List (Program Op) → List (Token Op)
  | [] => []
  | p :: ps => .closing :: (p.tokens ++ closed ps)

theorem nest_tokens (p : Program Op) {n : Nat} {ts : List (Token Op)} : nest n (p.tokens ++ ts) = nest n ts := by
  induction p generalizing n ts with
  | nil => rfl
  | op o rest ih => exact ih
  | loop body rest body_ih rest_ih =>
    calc nest n ((Program.loop body rest).tokens ++ ts) = nest (n + 1) (body.tokens ++ .closing :: (rest.tokens ++ ts)) := by
          rw [Program.tokens, List.cons_append, List.append_assoc]
          rfl
      _ = nest n (rest.tokens ++ ts) := body_ih
      _ = nest n ts := rest_ih

theorem nest_closed {ts : List (Token Op)} {n : Nat} (balanced : nest n ts = some 0) :
    ∃ p ps, ps.length = n ∧ ts = Program.tokens p ++ closed ps := by
  induction ts generalizing n with
  | nil =>
    obtain rfl : n = 0 := Option.some.inj balanced
    exact ⟨.nil, [], rfl, rfl⟩
  | cons t ts ih =>
    cases t with
    | op o =>
      obtain ⟨p, ps, count, same⟩ := ih (n := n) balanced
      exact ⟨.op o p, ps, count, by rw [same]; rfl⟩
    | opening =>
      obtain ⟨body, ps, count, same⟩ := ih (n := n + 1) balanced
      obtain ⟨rest, ps, rfl⟩ := List.exists_cons_of_length_pos (l := ps) (by omega)
      refine ⟨.loop body rest, ps, Nat.succ.inj count, ?_⟩
      rw [same, closed, Program.tokens, List.cons_append, List.append_assoc]
      rfl
    | closing =>
      cases n with
      | zero => cases balanced
      | succ n =>
        obtain ⟨p, ps, count, same⟩ := ih (n := n) balanced
        exact ⟨.nil, p :: ps, congrArg Nat.succ count, by rw [same]; rfl⟩

/-- Brackets that match are those of a program. -/
theorem nest_iff {ts : List (Token Op)} : nest 0 ts = some 0 ↔ ∃ p, Program.tokens p = ts := by
  constructor
  · intro balanced
    obtain ⟨p, ps, none, same⟩ := nest_closed balanced
    obtain rfl := List.eq_nil_of_length_eq_zero none
    exact ⟨p, by rw [same, closed, List.append_nil]⟩
  · rintro ⟨p, rfl⟩
    have alone := @nest_tokens Op p 0 []
    rwa [List.append_nil] at alone

/-! ## What a program does -/

/-- The operations of a machine: `inside` says where it goes on, and `test` whether a loop does. -/
structure Machine (Op State ε : Type) where
  act : Op → State → Except ε State
  test : State → Except ε Bool
  inside : State → Bool

/-- How a run of a program ends: at its end, where the machine does not go on, or with a fault. -/
inductive Outcome (State ε : Type) where
  | done (s : State)
  | left (s : State)
  | fault (e : ε)

theorem left_ne (s s' : State) : (.left s : Outcome State ε) ≠ .done s' := by
  intro same
  cases same

theorem fault_ne (e : ε) (s' : State) : .fault e ≠ Outcome.done s' := by
  intro same
  cases same

/-- What is left of a run. -/
def Outcome.result : Outcome State ε → Except ε State
  | done s => .ok s
  | left s => .ok s
  | fault e => .error e

/-- The runs of a program that end. -/
inductive Eval (m : Machine Op State ε) : Program Op → State → Outcome State ε → Prop where
  | nil {s : State} : Eval m .nil s (.done s)
  | left {s : State} {p : Program Op} : m.inside s = false → p ≠ .nil → Eval m p s (.left s)
  | op {s s' : State} {o : Op} {rest : Program Op} {out : Outcome State ε} :
      m.inside s = true → m.act o s = .ok s' → Eval m rest s' out → Eval m (.op o rest) s out
  | opFault {s : State} {e : ε} {o : Op} {rest : Program Op} :
      m.inside s = true → m.act o s = .error e → Eval m (.op o rest) s (.fault e)
  | testFault {s : State} {e : ε} {body rest : Program Op} :
      m.inside s = true → m.test s = .error e → Eval m (.loop body rest) s (.fault e)
  | skip {s : State} {body rest : Program Op} {out : Outcome State ε} :
      m.inside s = true → m.test s = .ok false → Eval m rest s out → Eval m (.loop body rest) s out
  | turn {s s' : State} {body rest : Program Op} {out : Outcome State ε} :
      m.inside s = true → m.test s = .ok true → Eval m body s (.done s') → Eval m (.loop body rest) s' out →
        Eval m (.loop body rest) s out
  | stop {s : State} {body rest : Program Op} {out : Outcome State ε} :
      m.inside s = true → m.test s = .ok true → Eval m body s out → (∀ s', out ≠ .done s') → Eval m (.loop body rest) s out

/-! ## What a code does -/

inductive Code (Op ε : Type) where
  | op (o : Op)
  | forward (target : Nat)
  | back (target : Nat)
  | stop
  /-- There is no code to read. -/
  | missing (e : ε)

/-- A run of a code from `pc` on, if it ends in so many steps. -/
def run (m : Machine Op State ε) (code : Nat → Code Op ε) : Nat → Nat → State → Option (Except ε State)
  | 0, _, _ => none
  | fuel + 1, pc, s =>
    match code pc with
    | .missing e => some (.error e)
    | .stop => some (.ok s)
    | .op o =>
      if m.inside s then
        match m.act o s with
        | .ok s' => run m code fuel (pc + 1) s'
        | .error e => some (.error e)
      else some (.ok s)
    | .forward target =>
      if m.inside s then
        match m.test s with
        | .ok goes => run m code fuel (if goes then pc + 1 else target + 1) s
        | .error e => some (.error e)
      else some (.ok s)
    | .back target =>
      if m.inside s then
        match m.test s with
        | .ok goes => run m code fuel (if goes then target + 1 else pc + 1) s
        | .error e => some (.error e)
      else some (.ok s)

/-- The program stands in the code from `a` on. -/
def Placed (code : Nat → Code Op ε) : Nat → Program Op → Prop
  | _, .nil => True
  | a, .op o rest => code a = .op o ∧ Placed code (a + 1) rest
  | a, .loop body rest => code a = .forward (a + body.length + 1) ∧ Placed code (a + 1) body ∧
      code (a + body.length + 1) = .back a ∧ Placed code (a + body.length + 2) rest

/-- Where a program stands, only the code there counts. -/
theorem Placed.congr {code code' : Nat → Code Op ε} {p : Program Op} {a : Nat} (placed : Placed code a p)
    (same : ∀ i, a ≤ i → i < a + p.length → code' i = code i) : Placed code' a p := by
  induction p generalizing a with
  | nil => trivial
  | op o rest ih =>
    refine ⟨(same a (Nat.le_refl a) (by simp only [Program.length]; omega)).trans placed.1, ih placed.2 fun i least most => ?_⟩
    exact same i (by omega) (by simp only [Program.length]; omega)
  | loop body rest body_ih rest_ih =>
    obtain ⟨first, inner, last, after⟩ := placed
    simp only [Program.length] at same
    refine ⟨(same a (by omega) (by omega)).trans first, body_ih inner fun i least most => same i (by omega) (by omega),
      (same _ (by omega) (by omega)).trans last, rest_ih after fun i least most => same i (by omega) (by omega)⟩

/-! ## They do the same -/

section Simulation

variable {m : Machine Op State ε} {code : Nat → Code Op ε} {s : State} {r : Except ε State} {fuel a x : Nat}
  {p body rest : Program Op}

/-- Where a loop is tested: `body` begins at `a + 1`, and what comes after it at `a + body.length + 2`. -/
def Tested (m : Machine Op State ε) (code : Nat → Code Op ε) (x start after : Nat) : Prop :=
  ∀ fuel s, run m code (fuel + 1) x s =
    if m.inside s then
      match m.test s with
      | .ok goes => run m code fuel (if goes then start else after) s
      | .error e => some (.error e)
    else some (.ok s)

theorem Placed.forward (placed : Placed code a (.loop body rest)) :
    Tested m code a (a + 1) (a + body.length + 2) := by
  intro fuel s
  rw [run, placed.1]

theorem Placed.back (placed : Placed code a (.loop body rest)) :
    Tested m code (a + body.length + 1) (a + 1) (a + body.length + 2) := by
  intro fuel s
  rw [run, placed.2.2.1]

/-- How a run over a program continues: it ends before the end of the program, or comes there. -/
def Covers (m : Machine Op State ε) (code : Nat → Code Op ε) (p : Program Op) (a : Nat) (s : State) (fuel : Nat)
    (r : Except ε State) : Prop :=
  (∃ out, Eval m p s out ∧ (∀ s', out ≠ .done s') ∧ out.result = r) ∨
    ∃ s' fuel', fuel' ≤ fuel ∧ Eval m p s (.done s') ∧ run m code fuel' (a + p.length) s' = some r

theorem covers_loop (placed : Placed code a (.loop body rest)) (tested : Tested m code x (a + 1) (a + body.length + 2))
    (less : ∀ fuel' < fuel, ∀ p a s, Placed code a p → run m code fuel' a s = some r → Covers m code p a s fuel' r)
    (ends : run m code fuel x s = some r) : Covers m code (.loop body rest) a s fuel r := by
  induction fuel using Nat.strongRecOn generalizing x s with
  | _ fuel ih =>
    cases fuel with
    | zero => cases ends
    | succ fuel =>
      rw [tested] at ends
      split at ends
      · rename_i inside
        split at ends
        · rename_i goes value
          cases goes with
          | false =>
            -- behind the loop
            rcases less fuel (Nat.lt_succ_self _) rest _ s placed.2.2.2 ends with ⟨out, eval, other, same⟩ | ⟨s', f, fewer, eval, ends'⟩
            · exact .inl ⟨out, .skip inside value eval, other, same⟩
            · refine .inr ⟨s', f, by omega, .skip inside value eval, ?_⟩
              rw [← ends', Program.length]
              congr 1
              omega
          | true =>
            rcases less fuel (Nat.lt_succ_self _) body _ s placed.2.1 ends with ⟨out, eval, other, same⟩ | ⟨s', f, fewer, eval, ends'⟩
            · exact .inl ⟨out, .stop inside value eval other, other, same⟩
            · rw [show a + 1 + body.length = a + body.length + 1 by omega] at ends'
              rcases ih f (by omega) placed.back (fun f' small => less f' (by omega)) ends' with
                ⟨out, again, other, same⟩ | ⟨s'', f', fewer', again, ends''⟩
              · exact .inl ⟨out, .turn inside value eval again, other, same⟩
              · exact .inr ⟨s'', f', by omega, .turn inside value eval again, ends''⟩
        · rename_i e value
          exact .inl ⟨.fault e, .testFault inside value, fault_ne e, Option.some.inj ends⟩
      · rename_i outside
        exact .inl ⟨.left s, .left (Bool.eq_false_iff.mpr outside) (fun same => by cases same),
          left_ne s, Option.some.inj ends⟩

theorem covers (placed : Placed code a p) (ends : run m code fuel a s = some r) : Covers m code p a s fuel r := by
  induction fuel using Nat.strongRecOn generalizing p a s with
  | _ fuel ih =>
    cases p with
    | nil => exact .inr ⟨s, fuel, Nat.le_refl _, .nil, ends⟩
    | loop body rest => exact covers_loop placed placed.forward (fun f less p a s placed ends => ih f less placed ends) ends
    | op o rest =>
      cases fuel with
      | zero => cases ends
      | succ fuel =>
        rw [run, placed.1] at ends
        simp only [] at ends
        split at ends
        · rename_i inside
          split at ends
          · rename_i s' value
            rcases ih fuel (Nat.lt_succ_self _) placed.2 ends with ⟨out, eval, other, same⟩ | ⟨s'', f, fewer, eval, ends'⟩
            · exact .inl ⟨out, .op inside value eval, other, same⟩
            · refine .inr ⟨s'', f, by omega, .op inside value eval, ?_⟩
              rw [← ends', Program.length]
              congr 1
              omega
          · rename_i e value
            exact .inl ⟨.fault e, .opFault inside value, fault_ne e, Option.some.inj ends⟩
        · rename_i outside
          exact .inl ⟨.left s, .left (Bool.eq_false_iff.mpr outside) (fun same => by cases same),
            left_ne s, Option.some.inj ends⟩

/-- A run of the code from `a` on does what the outcome of the program says: it ends, or goes on behind the program. -/
def Follows (m : Machine Op State ε) (code : Nat → Code Op ε) (p : Program Op) (a : Nat) (s : State) :
    Outcome State ε → Prop
  | .done s' => ∀ fuel r, run m code fuel (a + p.length) s' = some r → ∃ fuel', run m code fuel' a s = some r
  | .left s' => ∃ fuel, run m code fuel a s = some (.ok s')
  | .fault e => ∃ fuel, run m code fuel a s = some (.error e)

/-- What every run from another place is part of. -/
theorem Follows.before {p' : Program Op} {a' : Nat} {s' : State} {out : Outcome State ε}
    (part : ∀ fuel r, run m code fuel a' s' = some r → ∃ fuel', run m code fuel' a s = some r)
    (last : a + p.length = a' + p'.length) (follows : Follows m code p' a' s' out) : Follows m code p a s out := by
  cases out with
  | done s'' =>
    intro fuel r ends
    obtain ⟨fuel', ends'⟩ := follows fuel r (last ▸ ends)
    exact part fuel' r ends'
  | left s'' =>
    obtain ⟨fuel, ends⟩ := follows
    exact part fuel _ ends
  | fault e =>
    obtain ⟨fuel, ends⟩ := follows
    exact part fuel _ ends

theorem Follows.step {p' : Program Op} {a' : Nat} {s' : State} {out : Outcome State ε}
    (same : ∀ fuel, run m code (fuel + 1) a s = run m code fuel a' s') (last : a + p.length = a' + p'.length)
    (follows : Follows m code p' a' s' out) : Follows m code p a s out :=
  follows.before (fun fuel _ ends => ⟨fuel + 1, (same fuel).trans ends⟩) last

theorem follows {out : Outcome State ε} (eval : Eval m p s out) (placed : Placed code a p) : Follows m code p a s out := by
  induction eval generalizing a with
  | nil => exact fun fuel r ends => ⟨fuel, ends⟩
  | @left s p outside some =>
    refine ⟨1, ?_⟩
    cases p with
    | nil => exact absurd rfl some
    | op o rest => rw [run, placed.1]; simp only [outside, Bool.false_eq_true, if_false]
    | loop body rest => rw [placed.forward 0 s]; simp only [outside, Bool.false_eq_true, if_false]
  | op inside value _ ih =>
    refine (ih placed.2).step (fun fuel => ?_) (by simp only [Program.length]; omega)
    rw [run, placed.1]
    simp only [inside, value, if_true]
  | opFault inside value =>
    refine ⟨1, ?_⟩
    rw [run, placed.1]
    simp only [inside, value, if_true]
  | testFault inside value =>
    refine ⟨1, ?_⟩
    rw [placed.forward]
    simp only [inside, value, if_true]
  | skip inside value _ ih =>
    refine (ih placed.2.2.2).step (fun fuel => ?_) (by simp only [Program.length]; omega)
    rw [placed.forward]
    simp only [inside, value, if_true]
    rfl
  | @turn s s' body rest out inside value _ _ body_ih again_ih =>
    refine (again_ih placed).before (fun fuel r ends => ?_) rfl
    cases fuel with
    | zero => cases ends
    | succ fuel =>
      -- the test behind the body does what the test before it does
      have back : run m code (fuel + 1) (a + 1 + body.length) s' = some r := by
        rw [show a + 1 + body.length = a + body.length + 1 by omega, placed.back, ← placed.forward]
        exact ends
      obtain ⟨fuel', through⟩ := body_ih placed.2.1 (fuel + 1) r back
      refine ⟨fuel' + 1, ?_⟩
      rw [placed.forward]
      simp only [inside, value, if_true]
      exact through
  | @stop s body rest out inside value _ other ih =>
    have first : ∀ fuel, run m code (fuel + 1) a s = run m code fuel (a + 1) s := by
      intro fuel
      rw [placed.forward]
      simp only [inside, value, if_true]
    have follows := ih placed.2.1
    cases out with
    | done s' => exact absurd rfl (other s')
    | left s' =>
      obtain ⟨fuel, ends⟩ := follows
      exact ⟨fuel + 1, (first fuel).trans ends⟩
    | fault e =>
      obtain ⟨fuel, ends⟩ := follows
      exact ⟨fuel + 1, (first fuel).trans ends⟩

/-- The runs of a code that end are those of the program that stands in it. -/
theorem run_iff (placed : Placed code a p) (last : code (a + p.length) = .stop) :
    (∃ fuel, run m code fuel a s = some r) ↔ ∃ out, Eval m p s out ∧ out.result = r := by
  have stops : ∀ fuel s', run m code (fuel + 1) (a + p.length) s' = some (.ok s') := by
    intro fuel s'
    rw [run, last]
  constructor
  · rintro ⟨fuel, ends⟩
    rcases covers placed ends with ⟨out, eval, -, same⟩ | ⟨s', fuel', -, eval, ends'⟩
    · exact ⟨out, eval, same⟩
    · cases fuel' with
      | zero => cases ends'
      | succ fuel' => exact ⟨.done s', eval, Option.some.inj ((stops fuel' s').symm.trans ends')⟩
  · rintro ⟨out, eval, rfl⟩
    have through := follows eval placed
    cases out with
    | done s' => exact through 1 _ (stops 0 s')
    | left s' => exact through
    | fault e => exact through

end Simulation

end OsLab.Brackets
