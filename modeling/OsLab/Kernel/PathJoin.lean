import OsLab.Kernel.PathBuffers

/-!
# Laws of `path_join`

On strings that are not empty `path_join` is associative, and puts one slash between its operands. It is no identity on
either side, since an empty operand is copied in place of the other one; and `sprintf` passes each operand through the
conversion buffer of `vsnprintf`, so that an operand of more than 399 characters is written in front of the buffer.
-/

namespace OsLab.Kernel

open OsLab.Klib OsLab.Segments

/-- A path without its last character if that is a slash. -/
def stem (path : CStr) : CStr := if path.getLast? = some slash then path.dropLast else path

/-- Two paths with one slash between them. -/
def oneSlash (base child : CStr) : CStr := stem base ++ slash :: body child

/-- What `path_join` passes to `sprintf` for its second operand. -/
def childArg (base child : CStr) : CStr := if base.getLast? = some slash then body child else child

/-- The operands pass through the conversion buffer, or are not passed at all. -/
def JoinFits (base child : CStr) : Prop :=
  base = [] ∨ child = [] ∨ base.length ≤ 399 ∧ (childArg base child).length ≤ 399

/-- `path_join` returns a string, whatever its buffers hold. -/
def Joins (base child s : CStr) : Prop :=
  0 ∉ s ∧ ∀ below vsn, vsn.length = bufferSize → ∃ rest vsn', Buffers.pathJoin below vsn base child = .ok (s ++ 0 :: rest, vsn')

/-- The two ways to join three paths give the same. -/
def JoinsAssoc (a b c : CStr) : Prop := ∃ ab bc s, Joins a b ab ∧ Joins ab c s ∧ Joins b c bc ∧ Joins a bc s

/-! ## On strings -/

section Strings

variable {a b c base child : CStr}

theorem lastChar_ne_nil (some : base ≠ []) : lastChar base = slash ↔ base.getLast? = Option.some slash := by
  rw [lastChar, List.getLastD_eq_getLast?]
  cases last : base.getLast? with
  | none => exact absurd (List.getLast?_eq_none_iff.1 last) some
  | some c => simp

theorem stem_concat (s : CStr) : stem (s ++ [slash]) = s := by simp [stem]

theorem stem_append (base : CStr) (some : child ≠ []) : stem (base ++ child) = base ++ stem child := by
  unfold stem
  rw [List.getLast?_append_of_ne_nil _ some, List.dropLast_append_of_ne_nil some]
  split <;> rfl

theorem body_append (some : base ≠ []) : body (base ++ child) = body base ++ child := by
  obtain ⟨c, base, rfl⟩ := List.exists_cons_of_ne_nil some
  unfold body charAt
  simp only [List.cons_append, List.getD_cons_zero, List.drop_succ_cons, List.drop_zero]
  split <;> simp

/-- `path_join` of strings that are not empty. -/
theorem pathJoin_oneSlash (left : base ≠ []) (right : child ≠ []) : pathJoin base child = oneSlash base child := by
  obtain ⟨c, child, rfl⟩ := List.exists_cons_of_ne_nil right
  have long : strlen base ≠ 0 := by simpa using left
  unfold pathJoin oneSlash
  rw [if_neg long, if_neg (by simp)]
  by_cases trailing : base.getLast? = some slash
  · obtain ⟨front, rfl⟩ := List.getLast?_eq_some_iff.1 trailing
    rw [if_pos (lastChar_concat _ _), stem_concat]
    by_cases lead : c = slash
    · subst lead
      simp [charAt]
    · simp [body, charAt, lead]
  · rw [if_neg (mt (lastChar_ne_nil left).1 trailing), stem, if_neg trailing]
    by_cases lead : c = slash
    · subst lead
      simp [charAt]
    · simp [body, charAt, lead]

theorem pathJoin_nil_left : pathJoin [] child = [] := rfl

theorem pathJoin_nil_right : pathJoin base [] = [] := by
  unfold pathJoin
  split
  · next zero => simpa using zero
  · rfl

theorem oneSlash_ne_nil : oneSlash a b ≠ [] := by simp [oneSlash]

theorem stem_cons (d : UInt8) (some : b ≠ []) : stem (d :: b) = d :: stem b := stem_append [d] some

/-- A path of more than a slash loses a slash at either end in any order. -/
theorem stem_body (more : b ≠ [slash]) : stem (body b) = body (stem b) := by
  cases b with
  | nil => rfl
  | cons d rest =>
    cases rest with
    | nil =>
      have other : d ≠ slash := fun same => more (congrArg ([·]) same)
      simp [stem, body, charAt, other]
    | cons e rest =>
      rw [stem_cons d (List.cons_ne_nil e rest)]
      by_cases lead : d = slash
      · subst lead
        rw [body_slash, body_slash]
      · have keep : ∀ s, body (d :: s) = d :: s := fun s => if_neg lead
        rw [keep, keep, stem_cons d (List.cons_ne_nil e rest)]

theorem body_ne_nil (some : b ≠ []) (more : b ≠ [slash]) : body b ≠ [] := by
  obtain ⟨d, rest, rfl⟩ := List.exists_cons_of_ne_nil some
  by_cases lead : d = slash
  · subst lead
    rw [body_slash]
    rintro rfl
    exact more rfl
  · simp [body, charAt, lead]

theorem stem_ne_nil (some : b ≠ []) (more : b ≠ [slash]) : stem b ≠ [] := by
  unfold stem
  split
  · next trailing =>
    obtain ⟨front, rfl⟩ := List.getLast?_eq_some_iff.1 trailing
    rw [List.dropLast_concat]
    rintro rfl
    exact more rfl
  · exact some

theorem oneSlash_assoc (middle : b ≠ []) : oneSlash (oneSlash a b) c = oneSlash a (oneSlash b c) := by
  unfold oneSlash
  rcases eq_or_ne b [slash] with rfl | more
  · have none : stem [slash] = [] := stem_concat []
    rw [body_slash, stem_concat, none, List.nil_append, body_slash]
  · rw [stem_append _ (List.cons_ne_nil _ _), stem_cons slash (body_ne_nil middle more), body_append (stem_ne_nil middle more),
      stem_body more]
    simp

theorem pathJoin_assoc : pathJoin (pathJoin a b) c = pathJoin a (pathJoin b c) := by
  rcases eq_or_ne a [] with rfl | first
  · simp [pathJoin_nil_left]
  rcases eq_or_ne b [] with rfl | middle
  · simp [pathJoin_nil_left, pathJoin_nil_right]
  rcases eq_or_ne c [] with rfl | last
  · simp [pathJoin_nil_right]
  rw [pathJoin_oneSlash first middle, pathJoin_oneSlash middle last, pathJoin_oneSlash oneSlash_ne_nil last,
    pathJoin_oneSlash first oneSlash_ne_nil, oneSlash_assoc middle]

end Strings

/-! ## In memory -/

section Memory

variable {base child s : CStr} {below : Nat → UInt8} {vsn out : List UInt8}

/-- `%s%s`, or `%s/%s` -/
def strPieces (left : 0 ∉ base) (right : 0 ∉ child) (sep : Bool) : List Piece :=
  .conv none (.s base left) :: ((if sep then [.lit slash (by decide)] else []) ++ [.conv none (.s child right)])

/-- What they print. -/
def between (base child : CStr) (sep : Bool) : CStr := base ++ ((if sep then [slash] else []) ++ child)

theorem strPieces_spelled {left : 0 ∉ base} {right : 0 ∉ child} (sep : Bool) :
    spelled (strPieces left right sep) = between base child sep := by
  cases sep <;> simp [strPieces, between, spelled, Piece.spelled, Conv.spelled, padded, widthOf]

theorem length_between (sep : Bool) : (between base child sep).length ≤ base.length + child.length + 1 := by
  cases sep <;> grind [between]

/-- Both strings pass through the buffer of `vsnprintf`. -/
theorem sprintf_strings (below : Nat → UInt8) (out : List UInt8) (left : 0 ∉ base) (right : 0 ∉ child) (sep : Bool) (size : vsn.length = bufferSize)
    (room : base.length + child.length + 1 < out.length) (fits : base.length ≤ 399 ∧ child.length ≤ 399) : ∃ ret rest vsn',
      sprintf below vsn out (fmtOf (strPieces left right sep)) (argsOf (strPieces left right sep)) =
        .ok (ret, between base child sep ++ 0 :: rest, vsn') := by
  have each : ∀ p ∈ strPieces left right sep, p.spelled.length ≤ 399 := by
    cases sep <;> simp [strPieces, Piece.spelled, Conv.spelled, padded, widthOf, fits]
  have chars : CharsPlain (strPieces left right sep) := by
    intro width w member
    cases sep <;> simp [strPieces] at member
  have other : NoLeast (strPieces left right sep) := by
    intro width w member
    cases sep <;> simp [strPieces] at member
  have length : (spelled (strPieces left right sep)).length ≤ base.length + child.length + 1 := by
    rw [strPieces_spelled]
    exact length_between sep
  obtain ⟨vsn', -, run⟩ := vsnprintf_spelled below (2 ^ 32 - 1) out size each chars other (by omega) (by omega) (by omega)
    (by omega)
  rw [strPieces_spelled] at run
  exact ⟨_, _, vsn', run⟩

/-- Where they do not fit, nothing is returned. -/
theorem fits_of_sprintf {left : 0 ∉ base} {right : 0 ∉ child} {sep : Bool} (size : vsn.length = bufferSize)
    (room : base.length + child.length + 1 < out.length) {r : Int × List UInt8 × List UInt8}
    (run : sprintf below vsn out (fmtOf (strPieces left right sep)) (argsOf (strPieces left right sep)) = .ok r) :
    base.length ≤ 399 ∧ child.length ≤ 399 := by
  have ends := ends_of_run run
  have first : base.length ≤ 399 := by
    by_contra long
    have long' : 399 < ((Piece.conv none (.s base left)).inBuffer below).length := by
      simpa [Piece.inBuffer, Conv.rep, padded, widthOf] using long
    exact not_ends_long size long' ends
  have front : (printed below (strPieces left right sep).dropLast).length ≤ base.length + 1 := by
    have text : ((Piece.conv none (.s base left)).printed below).length ≤ base.length :=
      (List.takeWhile_prefix _).length_le.trans (by simp [Conv.rep, padded, widthOf])
    have lit (h : slash ≠ 0 ∧ slash ≠ 37) : ((Piece.lit slash h).printed below).length = 1 := rfl
    cases sep <;> simp [strPieces, printed, lit] <;> omega
  have fits := allFit_of_ends size (by simp; omega) (by omega) (by omega) ends
  have second := fits (.conv none (.s child right)) (by simp [strPieces])
  exact ⟨first, by simpa [Piece.inBuffer, Conv.rep, padded, widthOf] using second⟩

variable {below : Nat → UInt8}

theorem charAt_last (some : base ≠ []) : charAt base (strlen base - 1) = slash ↔ base.getLast? = Option.some slash := by
  obtain ⟨front, c, rfl⟩ := (List.eq_nil_or_concat' base).resolve_left some
  simp [charAt]

theorem fmtOf_strPieces {left : 0 ∉ base} {right : 0 ∉ child} : fmtOf (strPieces left right false) = text "%s%s" ∧
    fmtOf (strPieces left right true) = text "%s/%s" ∧ ∀ sep, argsOf (strPieces left right sep) = [.str base, .str child] := by
  refine ⟨rfl, rfl, fun sep => ?_⟩
  cases sep <;> rfl

theorem childArg_plain (base : CStr) (right : 0 ∉ child) : 0 ∉ childArg base child ∧ (childArg base child).length ≤ child.length := by
  unfold childArg body
  split
  · split
    · exact ⟨fun member => right (List.mem_of_mem_drop member), by simp⟩
    · exact ⟨right, Nat.le_refl _⟩
  · exact ⟨right, Nat.le_refl _⟩

/-- The call of `sprintf` for operands that are not empty. -/
theorem pathJoin_sprintf (below : Nat → UInt8) (vsn : List UInt8) (left : 0 ∉ base) (arg : 0 ∉ childArg base child) (first : base ≠ []) (second : child ≠ []) : ∃ sep,
    Buffers.pathJoin below vsn base child =
      (sprintf below vsn (Buffers.alloc (base.length + child.length + 2)) (fmtOf (strPieces left arg sep))
        (argsOf (strPieces left arg sep)) >>= fun r => .ok r.2) ∧
      between base (childArg base child) sep = pathJoin base child := by
  have long : strlen base ≠ 0 := by simpa using first
  have long' : strlen child ≠ 0 := by simpa using second
  have last := charAt_last first
  rw [strlen_eq] at last
  unfold Buffers.pathJoin
  rw [pathJoin_oneSlash first second]
  simp only [strlen_eq] at long long' ⊢
  rw [if_neg long, if_neg long']
  by_cases trailing : base.getLast? = some slash
  · have same : childArg base child = body child := if_pos trailing
    obtain ⟨front, rfl⟩ := List.getLast?_eq_some_iff.1 trailing
    refine ⟨false, ?_, ?_⟩
    · rw [if_pos (last.2 trailing), fmtOf_strPieces.1, fmtOf_strPieces.2.2, same]
      unfold body
      split <;> rfl
    · rw [same, oneSlash, stem_concat, between]
      simp
  · have same : childArg base child = child := if_neg trailing
    rw [if_neg (mt last.1 trailing), oneSlash, stem, if_neg trailing]
    obtain ⟨c, child, rfl⟩ := List.exists_cons_of_ne_nil second
    by_cases lead : c = slash
    · subst lead
      have head : charAt (slash :: child) 0 = slash := rfl
      refine ⟨false, ?_, ?_⟩
      · rw [if_pos head, fmtOf_strPieces.1, fmtOf_strPieces.2.2, same]
      · rw [same, body_slash, between]
        simp
    · have head : charAt (c :: child) 0 ≠ slash := lead
      refine ⟨true, ?_, ?_⟩
      · rw [if_neg head, fmtOf_strPieces.2.1, fmtOf_strPieces.2.2, same]
      · rw [same, body, if_neg head, between]
        simp

/-- What `path_join` copies or prints. -/
theorem pathJoin_run (below : Nat → UInt8) (left : 0 ∉ base) (right : 0 ∉ child) (fits : JoinFits base child)
    (size : vsn.length = bufferSize) :
    ∃ rest vsn', Buffers.pathJoin below vsn base child = .ok (pathJoin base child ++ 0 :: rest, vsn') := by
  have copied (size : Nat) : Checked.strcpy (Buffers.alloc (size + 2)) [0] 0 = .ok (0 :: Buffers.alloc (size + 1)) :=
    Checked.strcpy_run [] [] List.not_mem_nil rfl (Nat.succ_pos _)
  rcases eq_or_ne base [] with rfl | first
  · refine ⟨Buffers.alloc (child.length + 1), vsn, ?_⟩
    simp [Buffers.pathJoin, copied, pathJoin_nil_left]
  rcases eq_or_ne child [] with rfl | second
  · refine ⟨Buffers.alloc (base.length + 1), vsn, ?_⟩
    simp [Buffers.pathJoin, copied, pathJoin_nil_right, first]
  obtain ⟨arg, short⟩ := childArg_plain base right
  obtain ⟨sep, call, text⟩ := pathJoin_sprintf below vsn left arg first second
  obtain ⟨ret, rest, vsn', run⟩ := sprintf_strings below (Buffers.alloc (base.length + child.length + 2)) left arg sep size
    (by simp [Buffers.alloc]; omega) ((fits.resolve_left first).resolve_left second)
  exact ⟨rest, vsn', by rw [call, run, text]; rfl⟩

theorem fits_of_pathJoin (left : 0 ∉ base) (right : 0 ∉ child) (size : vsn.length = bufferSize) {r : List UInt8 × List UInt8}
    (run : Buffers.pathJoin below vsn base child = .ok r) : JoinFits base child := by
  rcases eq_or_ne base [] with rfl | first
  · exact .inl rfl
  rcases eq_or_ne child [] with rfl | second
  · exact .inr (.inl rfl)
  obtain ⟨arg, short⟩ := childArg_plain base right
  obtain ⟨sep, call, -⟩ := pathJoin_sprintf below vsn left arg first second
  rw [call] at run
  obtain ⟨r', printed, -⟩ := bind_eq_ok.1 run
  exact .inr (.inr (fits_of_sprintf size (by simp [Buffers.alloc]; omega) printed))

theorem pathJoin_plain (left : 0 ∉ base) (right : 0 ∉ child) : 0 ∉ pathJoin base child := by
  have tail : 0 ∉ child.tail := fun member => right (List.mem_of_mem_tail member)
  unfold pathJoin
  split_ifs <;> simp [left, right, tail, Ne.symm slash_ne_nul]

/-- `path_join` returns the string of `pathJoin`, where its operands fit. -/
theorem joins_iff (left : 0 ∉ base) (right : 0 ∉ child) : Joins base child s ↔ JoinFits base child ∧ s = pathJoin base child := by
  constructor
  · rintro ⟨plain, returns⟩
    obtain ⟨rest, vsn', run⟩ := returns (fun _ => 0) (Buffers.alloc bufferSize) List.length_replicate
    have fits := fits_of_pathJoin left right List.length_replicate run
    obtain ⟨rest', vsn₂, run'⟩ := pathJoin_run (fun _ => 0) left right fits
      (List.length_replicate : (Buffers.alloc bufferSize).length = bufferSize)
    have same := congrArg Prod.fst (Except.ok.inj (run.symm.trans run'))
    exact ⟨fits, (first_unique same plain (pathJoin_plain left right)).1⟩
  · rintro ⟨fits, rfl⟩
    exact ⟨pathJoin_plain left right, fun below vsn size => pathJoin_run below left right fits size⟩

end Memory

/-! ## The laws -/

/-- The operands of the four calls pass through the conversion buffer. -/
def AssocFits (a b c : CStr) : Prop :=
  JoinFits a b ∧ JoinFits b c ∧ (a = [] ∨ b = [] ∨ JoinFits (oneSlash a b) c) ∧ (b = [] ∨ c = [] ∨ JoinFits a (oneSlash b c))

section Laws

variable {a b c : CStr}

theorem joinFits_pathJoin_left : JoinFits (pathJoin a b) c ↔ a = [] ∨ b = [] ∨ JoinFits (oneSlash a b) c := by
  rcases eq_or_ne a [] with rfl | first
  · simp [pathJoin_nil_left, JoinFits]
  rcases eq_or_ne b [] with rfl | second
  · simp [pathJoin_nil_right, JoinFits]
  simp [pathJoin_oneSlash first second, first, second]

theorem joinFits_pathJoin_right : JoinFits a (pathJoin b c) ↔ b = [] ∨ c = [] ∨ JoinFits a (oneSlash b c) := by
  rcases eq_or_ne b [] with rfl | first
  · simp [pathJoin_nil_left, JoinFits]
  rcases eq_or_ne c [] with rfl | second
  · simp [pathJoin_nil_right, JoinFits]
  simp [pathJoin_oneSlash first second, first, second]

theorem joinsAssoc_iff (left : 0 ∉ a) (middle : 0 ∉ b) (right : 0 ∉ c) : JoinsAssoc a b c ↔ AssocFits a b c := by
  have plain := pathJoin_plain left middle
  have plain' := pathJoin_plain middle right
  unfold JoinsAssoc AssocFits
  rw [← joinFits_pathJoin_left, ← joinFits_pathJoin_right]
  constructor
  · rintro ⟨ab, bc, s, first, second, third, fourth⟩
    obtain ⟨fits, rfl⟩ := (joins_iff left middle).1 first
    obtain ⟨fits', rfl⟩ := (joins_iff middle right).1 third
    exact ⟨fits, fits', ((joins_iff plain right).1 second).1, ((joins_iff left plain').1 fourth).1⟩
  · rintro ⟨fits, fits', outer, outer'⟩
    exact ⟨_, _, _, (joins_iff left middle).2 ⟨fits, rfl⟩, (joins_iff plain right).2 ⟨outer, rfl⟩,
      (joins_iff middle right).2 ⟨fits', rfl⟩, (joins_iff left plain').2 ⟨outer', pathJoin_assoc⟩⟩

/-- **Joined paths.** The empty string is an identity for itself alone; the slash and the associativity hold where the
operands fit. -/
theorem path_join_laws (left : 0 ∉ a) (middle : 0 ∉ b) (right : 0 ∉ c) :
    (Joins [] b b ↔ b = []) ∧ (Joins a [] a ↔ a = []) ∧
      (a ≠ [] → b ≠ [] → (Joins a b (oneSlash a b) ↔ JoinFits a b)) ∧ (JoinsAssoc a b c ↔ AssocFits a b c) := by
  refine ⟨?_, ?_, fun first second => ?_, joinsAssoc_iff left middle right⟩
  · rw [joins_iff List.not_mem_nil middle, pathJoin_nil_left]
    simp [JoinFits]
  · rw [joins_iff left List.not_mem_nil, pathJoin_nil_right]
    simp [JoinFits]
  · rw [joins_iff left middle, pathJoin_oneSlash first second]
    simp

/-- `/bin`, `ls` and an empty path. -/
theorem path_join_laws_ls : (Joins [] (text "ls") (text "ls") ↔ text "ls" = []) ∧
    (Joins (text "/bin") [] (text "/bin") ↔ text "/bin" = []) ∧ (text "/bin" ≠ [] → text "ls" ≠ [] →
      (Joins (text "/bin") (text "ls") (oneSlash (text "/bin") (text "ls")) ↔ JoinFits (text "/bin") (text "ls"))) ∧
    (JoinsAssoc (text "/bin") (text "ls") [] ↔ AssocFits (text "/bin") (text "ls") []) :=
  path_join_laws (by decide) (by decide) (by decide)

/-- An empty base takes the child away. -/
theorem path_join_loses : ¬∀ a b c : CStr, 0 ∉ a → 0 ∉ b → 0 ∉ c → Joins [] b b ∧ Joins a [] a ∧
    (a ≠ [] → b ≠ [] → Joins a b (oneSlash a b)) ∧ JoinsAssoc a b c := by
  intro laws
  have joined := (laws [] (text "ls") [] (by decide) (by decide) (by decide)).1
  have same := ((joins_iff (by decide) (by decide)).1 joined).2
  exact absurd same (by decide)

end Laws

end OsLab.Kernel
