import OsLab.Frecov.Entries

/-!
# The names of recovered files

A directory is a sequence of groups: the long entries of a name, the last piece first, and the short entry of the file. What the
calls of `detect_next_direntry` find in it is right exactly where the long names of passed files do not get in the way of the next
BMP file (`Clean`): they stay in `temp`, behind that file's own name.
-/

namespace OsLab.Frecov

/-! ## Directories -/

/-- The bytes of an entry. -/
def entry (b : List UInt8) : Bytes := fun i => b[i]?

/-- A long entry with nothing in its reserved fields. -/
structure LongEntry where
  bytes : List UInt8
  length : bytes.length = 32
  long : IsLong (entry bytes) 0

/-- A short entry with nothing in its reserved field, and one attribute. -/
structure ShortEntry where
  bytes : List UInt8
  length : bytes.length = 32
  reserved : byte (entry bytes) 12 = 0
  single : count1 (byte (entry bytes) 11).toNat = 1

structure Group where
  pieces : List LongEntry
  few : pieces.length ≤ 20
  /-- The number of each piece, and the flag of the last, which comes first. -/
  numbered : ∀ i (inside : i < pieces.length),
    (byte (entry pieces[i].bytes) 0).toNat = pieces.length - i + if i = 0 then 2 ^ 6 else 0
  short : ShortEntry

/-- The entries as they are on the disk. -/
def Group.entries (g : Group) : List (List UInt8) := g.pieces.map LongEntry.bytes ++ [g.short.bytes]

/-- The long name of a file, by the low bytes of its characters. -/
def Group.longName (g : Group) : List UInt8 := g.pieces.reverse.flatMap fun p => charsAt (entry p.bytes) 0

/-- The group is of a BMP file. -/
def Group.Bmp (g : Group) : Prop := IsBmp (entry g.short.bytes) 0

instance (g : Group) : Decidable g.Bmp := inferInstanceAs (Decidable (IsBmp _ _))

/-- The name of the file. -/
def Group.name (g : Group) : List UInt8 := if g.pieces = [] then shortNameAt (entry g.short.bytes) 0 else g.longName

/-- A directory of a size that 32 bits hold. -/
structure Directory where
  groups : List Group
  small : 32 * (groups.flatMap Group.entries).length < 2 ^ 32

def Directory.size (d : Directory) : Nat := 32 * (d.groups.flatMap Group.entries).length

/-- The entries are at `a`, one behind the other. -/
def Lies (mem : Bytes) : Nat → List (List UInt8) → Prop
  | _, [] => True
  | a, b :: bs => (∀ i < 32, mem (a + i) = b[i]?) ∧ Lies mem (a + 32) bs

/-- A directory in memory, and the buffers before the first call. -/
structure Scanned (d : Directory) where
  mem : Bytes
  start : Nat
  lies : Lies mem start (d.groups.flatMap Group.entries)
  temp : List UInt8
  length : temp.length = 512
  file : RecoverFile
  named : file.name.length = 512

/-- Calls of `detect_next_direntry`, each from where the one before has stopped, until -1 is returned: what the others return
and the files. -/
def detectAll (mem : Bytes) (start size : Nat) : Nat → Nat → List UInt8 → RecoverFile → Except Trap (List (Int × RecoverFile))
  | 0, _, _, _ => .error .diverge
  | fuel + 1, offset, temp, file => do
    let (ret, temp, file) ← (detectNextDirentry mem fuel start offset size temp file).result
    if ret = -1 then .ok []
    else do
      let rest ← detectAll mem start size fuel (ret % 2 ^ 32).toNat temp file
      .ok ((ret, file) :: rest)

/-- The BMP files of some groups, each with the position of its short entry. -/
def bmpFiles : Nat → List Group → List (Nat × Group)
  | _, [] => []
  | pos, g :: gs =>
    let rest := bmpFiles (pos + 32 * g.entries.length) gs
    if g.Bmp then (pos + 32 * g.pieces.length, g) :: rest else rest

/-- What is returned for a file, and what is in `file` then. -/
structure Finds (expected : Nat × Group) (found : Int × RecoverFile) : Prop where
  ret : found.1 = Int.bmod (expected.1 + 32 : Nat) (2 ^ 32)
  shid : found.2.shid = expected.1
  size : found.2.size = sizeAt (entry expected.2.short.bytes) 0
  cluster : found.2.cluster = clusterAt (entry expected.2.short.bytes) 0
  name : Trap.text found.2.name = Trap.text expected.2.name

/-- **Right.** The calls find the BMP files, in order and each once, and then return -1. -/
def Right (d : Directory) (s : Scanned d) : Prop :=
  ∃ found, (∃ enough, ∀ fuel, enough ≤ fuel → detectAll s.mem s.start d.size fuel 0 s.temp s.file = .ok found) ∧
    List.Forall₂ Finds (bmpFiles 0 d.groups) found

/-- The long names that are in `temp` behind some groups: those back to the last BMP file, the nearest first. -/
def leftover (before : List Group) : List UInt8 := (before.reverse.takeWhile fun g => ¬g.Bmp).flatMap Group.longName

/-- What is left over does not change the name of the file. -/
def Group.Keeps (g : Group) (left : List UInt8) : Prop :=
  if g.pieces = [] then left = [] ∨ Trap.text left = Trap.text (shortNameAt (entry g.short.bytes) 0)
  else 0 ∈ g.longName ∨ left = [] ∨ left.head? = some 0

/-- **Clean.** Up to each group there are at most 39 pieces in `temp`, and the name of each BMP file is kept. -/
def Clean (d : Directory) : Prop :=
  ∀ before g after, d.groups = before ++ g :: after →
    (g.longName ++ leftover before).length ≤ 13 * 39 ∧ (g.Bmp → g.Keeps (leftover before))

/-! ## Entries in memory -/

section Lies

variable {mem : Bytes} {a i : Nat} {b : List UInt8} {bs cs : List (List UInt8)}

theorem lies_append : Lies mem a (bs ++ cs) ↔ Lies mem a bs ∧ Lies mem (a + 32 * bs.length) cs := by
  induction bs generalizing a with
  | nil => simp [Lies]
  | cons b bs ih =>
    rw [List.cons_append, Lies, Lies, ih, List.length_cons, and_assoc, Nat.mul_succ, Nat.add_assoc a 32, Nat.add_comm 32]

variable (lies : ∀ i < 32, mem (a + i) = b[i]?)

include lies

theorem holds_lies (length : b.length = 32) : Holds mem a 32 := by
  intro i inside
  rw [lies i inside, List.getElem?_eq_getElem (by omega), Option.isSome_some]

theorem byte_lies (inside : i < 32) : byte mem (a + i) = byte (entry b) (0 + i) := by
  unfold byte entry
  rw [lies i inside, Nat.zero_add]

theorem half_lies (inside : i + 1 < 32) : half mem (a + i) = half (entry b) (0 + i) := by
  unfold half
  rw [Nat.add_assoc, Nat.add_assoc, byte_lies lies (by omega), byte_lies lies inside]

theorem word_lies (inside : i + 3 < 32) : word mem (a + i) = word (entry b) (0 + i) := by
  unfold word
  rw [Nat.add_assoc, Nat.add_assoc, half_lies lies (by omega), half_lies lies (by omega)]

theorem isLong_lies : IsLong mem a ↔ IsLong (entry b) 0 := by
  unfold IsLong
  rw [byte_lies lies (by decide), byte_lies lies (by decide), half_lies lies (by decide)]

theorem isLast_lies : IsLast mem a ↔ IsLast (entry b) 0 := by
  unfold IsLast
  rw [← Nat.add_zero a, byte_lies lies (by decide)]

theorem isBmp_lies : IsBmp mem a ↔ IsBmp (entry b) 0 := by
  unfold IsBmp
  rw [byte_lies lies (by decide), byte_lies lies (by decide), byte_lies lies (by decide), byte_lies lies (by decide),
    byte_lies lies (by decide)]

theorem sizeAt_lies : sizeAt mem a = sizeAt (entry b) 0 := word_lies lies (by decide)

theorem clusterAt_lies : clusterAt mem a = clusterAt (entry b) 0 := by
  unfold clusterAt
  rw [half_lies lies (by decide), half_lies lies (by decide)]

theorem charsAt_lies : charsAt mem a = charsAt (entry b) 0 := by
  refine List.map_congr_left fun i member => byte_lies lies ?_
  exact (by decide : ∀ i ∈ [1, 3, 5, 7, 9, 14, 16, 18, 20, 22, 24, 28, 30], i < 32) i member

theorem shortNameAt_lies : shortNameAt mem a = shortNameAt (entry b) 0 := by
  unfold shortNameAt
  congr 1
  · exact List.map_congr_left fun i member => byte_lies lies (by have := List.mem_range.1 member; omega)
  · exact congrArg (46 :: ·) (List.map_congr_left fun i member =>
      byte_lies lies ((by decide : ∀ i ∈ [8, 9, 10], i < 32) i member))

theorem nameFor_lies (done : List UInt8) : nameFor mem a done = nameFor (entry b) 0 done := by
  unfold nameFor
  rw [shortNameAt_lies lies]

end Lies

/-! ## The loop over a group -/

section Loop

variable {α : Type} {mem : Bytes} {start size g k : Nat} {done rest : List UInt8} {file : RecoverFile} {p : LongEntry}
  {ps : List LongEntry} {h : Int × List UInt8 × RecoverFile → Traced Trap Nat α}

theorem length_charsAt (e : Nat) : (charsAt mem e).length = 13 := rfl

/-- What some pieces leave in `temp`. -/
def pushed (ps : List LongEntry) : List UInt8 := ps.flatMap fun p => (charsAt (entry p.bytes) 0).reverse

theorem length_pushed (ps : List LongEntry) : (pushed ps).length = 13 * ps.length := by
  induction ps with
  | nil => rfl
  | cons p ps ih =>
    unfold pushed at ih ⊢
    rw [List.flatMap_cons, List.length_append, List.length_reverse, length_charsAt, ih, List.length_cons]
    omega

/-- A piece is pushed where there is room for it. -/
theorem piece_run (lies : ∀ i < 32, mem (start + 32 * k + i) = p.bytes[i]?) (flagged : done = [] → IsLast (entry p.bytes) 0)
    (small : size < 2 ^ 32) (more : 32 * (k + 1) ≤ size) :
    (detectLoop mem start size (g + 1) (32 * k) ⟨done ++ rest, done.length⟩ file >>= h).result =
      if 13 ≤ rest.length then
        (detectLoop mem start size g (32 * (k + 1))
          ⟨(done ++ (charsAt (entry p.bytes) 0).reverse) ++ rest.drop 13, (done ++ (charsAt (entry p.bytes) 0).reverse).length⟩ file
            >>= h).result
      else .error .outside := by
  have below : 32 * k < size := by omega
  have holds := (holds_lies lies p.length).mono (m := 31) (by decide)
  have kept : Kept mem (start + 32 * k) done.length := by
    refine ⟨(isLong_lies lies).2 p.long, ?_⟩
    rcases eq_or_ne done [] with empty | some
    · exact .inr ((isLast_lies lies).2 (flagged empty))
    · exact .inl fun zero => some (List.eq_nil_of_length_eq_zero zero)
  split
  next room =>
    rw [detectLoop_next below (detectEntry_push holds kept room), Traced.mark_bind, Nat.mod_eq_of_lt (by omega),
      charsAt_lies lies, List.length_append, List.length_reverse, length_charsAt]
    rfl
  next full => rw [detectLoop_error below (detectEntry_full holds kept (by omega))]; rfl

theorem pieces_run (lies : Lies mem (start + 32 * k) (ps.map LongEntry.bytes))
    (flagged : done = [] → ∀ p ∈ ps.head?, IsLast (entry p.bytes) 0) (small : size < 2 ^ 32)
    (more : 32 * (k + ps.length) ≤ size) :
    (detectLoop mem start size (g + ps.length) (32 * k) ⟨done ++ rest, done.length⟩ file >>= h).result =
      if 13 * ps.length ≤ rest.length then
        (detectLoop mem start size g (32 * (k + ps.length))
          ⟨(done ++ pushed ps) ++ rest.drop (13 * ps.length), (done ++ pushed ps).length⟩ file >>= h).result
      else .error .outside := by
  induction ps generalizing k done rest with
  | nil => simp [pushed]
  | cons p ps ih =>
    rw [List.map_cons, Lies] at lies
    rw [List.length_cons] at more ⊢
    have some : done ++ (charsAt (entry p.bytes) 0).reverse ≠ [] := fun empty => by
      simpa [length_charsAt] using congrArg List.length empty
    have first := @piece_run α mem start size (g + ps.length) k done rest file p h lies.1 (fun empty => flagged empty p rfl) small
      (by omega)
    have next := @ih (k + 1) _ (rest.drop 13) lies.2 (fun empty => absurd empty some) (by omega)
    rw [← Nat.add_assoc, first, next, List.length_drop]
    split
    next room =>
      have whole : pushed (p :: ps) = (charsAt (entry p.bytes) 0).reverse ++ pushed ps := List.flatMap_cons
      have same : 13 * ps.length ≤ rest.length - 13 ↔ 13 + 13 * ps.length ≤ rest.length := by omega
      have length : 13 * (ps.length + 1) = 13 + 13 * ps.length := by omega
      rw [if_congr same rfl rfl, whole, List.drop_drop, List.append_assoc done, length, Nat.add_right_comm]
      rfl
    next full => rw [if_neg (by omega)]

/-- A short entry is no long one. -/
theorem short_kind (short : ShortEntry) : byte (entry short.bytes) (0 + 11) ≠ DP_Long := by
  intro kind
  have single := short.single
  rw [Nat.zero_add] at kind
  rw [kind] at single
  simp [DP_Long, count1] at single

theorem short_pass {short : ShortEntry} (lies : ∀ i < 32, mem (start + 32 * k + i) = short.bytes[i]?)
    (other : ¬IsBmp (entry short.bytes) 0) (small : size < 2 ^ 32) (more : 32 * (k + 1) ≤ size) (t : Temp) :
    (detectLoop mem start size (g + 1) (32 * k) t file >>= h).result =
      (detectLoop mem start size g (32 * (k + 1)) t file >>= h).result := by
  have kind : byte mem (start + 32 * k + 11) ≠ DP_Long := by
    rw [byte_lies lies (by decide)]
    exact short_kind short
  have holds := (holds_lies lies short.length).mono (m := 13) (by decide)
  rw [detectLoop_next (by omega) (detectEntry_pass holds (fun long => absurd long kind) (fun kept => kind kept.1.1)
    (other ∘ (isBmp_lies lies).1)), Traced.mark_bind, Nat.mod_eq_of_lt (by omega)]
  rfl

theorem short_found {short : ShortEntry} (lies : ∀ i < 32, mem (start + 32 * k + i) = short.bytes[i]?)
    (bmp : IsBmp (entry short.bytes) 0) (below : 32 * k < size) (room : done.length < 512) (named : file.name.length = 512) :
    (detectLoop mem start size (g + 1) (32 * k) ⟨done ++ rest, done.length⟩ file >>= h).result =
      (h (Int.bmod (32 * k + 32 : Nat) (2 ^ 32), done ++ rest,
        ⟨nameFor (entry short.bytes) 0 done ++ 0 :: file.name.drop ((nameFor (entry short.bytes) 0 done).length + 1),
          sizeAt (entry short.bytes) 0, clusterAt (entry short.bytes) 0, 32 * k⟩)).result := by
  rw [detectLoop_found below (detectEntry_found (holds_lies lies short.length) ((isBmp_lies lies).2 bmp) room named),
    Traced.mark_bind, nameFor_lies lies, sizeAt_lies lies, clusterAt_lies lies]

end Loop

/-! ## What is left over -/

section Leftover

variable {g : Group} {done left : List UInt8}

theorem pushed_reverse (g : Group) : (pushed g.pieces).reverse = g.longName := by
  unfold pushed Group.longName
  rw [List.reverse_flatMap]
  simp [Function.comp_def]

theorem length_longName (g : Group) : g.longName.length = 13 * g.pieces.length := by
  rw [← pushed_reverse, List.length_reverse, length_pushed]

theorem flagged_head (g : Group) : ∀ p ∈ g.pieces.head?, IsLast (entry p.bytes) 0 := by
  intro p first
  obtain ⟨tail, pieces⟩ : ∃ tail, g.pieces = p :: tail := List.head?_eq_some_iff.1 first
  have few := g.few
  have number := g.numbered 0 (by rw [pieces]; exact Nat.succ_pos _)
  simp only [pieces, List.getElem_cons_zero, List.length_cons, if_true, Nat.sub_zero] at number
  rw [pieces, List.length_cons] at few
  unfold IsLast
  omega

theorem text_nil {r : List UInt8} : Trap.text r = [] ↔ r = [] ∨ r.head? = some 0 := by
  cases r with
  | nil => simp [Trap.text]
  | cons c r => simp [Trap.text, List.takeWhile_cons]

/-- Text behind a name does not change it where the name is ended, or the text is empty. -/
theorem text_append_eq {s r : List UInt8} : Trap.text (s ++ r) = Trap.text s ↔ 0 ∈ s ∨ r = [] ∨ r.head? = some 0 := by
  rw [← text_nil]
  rcases Classical.em (0 ∈ s) with ended | plain
  · obtain ⟨front, back, rfl⟩ := List.append_of_mem ended
    rw [List.append_assoc, List.cons_append, Trap.text_ended, Trap.text_ended]
    exact iff_of_true rfl (.inl ended)
  · have whole := Trap.text_append (r := []) plain
    rw [List.append_nil] at whole
    rw [Trap.text_append plain, whole, List.append_right_inj, or_iff_right plain]
    rfl

theorem text_nameFor (named : done.reverse = g.longName ++ left) :
    Trap.text (nameFor (entry g.short.bytes) 0 done) = Trap.text g.name ↔ g.Keeps left := by
  have length := length_longName g
  have empty : done = [] ↔ g.longName = [] ∧ left = [] := by rw [← List.reverse_eq_nil_iff, named, List.append_eq_nil_iff]
  unfold nameFor Group.name Group.Keeps
  rw [named]
  split
  next none =>
    obtain ⟨own, rest⟩ := empty.1 none
    split
    next bare => simp [rest]
    next long =>
      rw [own] at length
      exact absurd (List.eq_nil_of_length_eq_zero (by simpa using length.symm)) long
  next some =>
    split
    next bare =>
      have own : g.longName = [] := List.eq_nil_of_length_eq_zero (by rw [length, bare]; rfl)
      have rest : left ≠ [] := fun rest => some (empty.2 ⟨own, rest⟩)
      rw [own, List.nil_append, or_iff_right rest]
    next long => exact text_append_eq

/-- What the calls from a group on need of the long names that are left over. -/
def CleanFrom : List UInt8 → List Group → Prop
  | _, [] => True
  | left, g :: gs => (g.longName ++ left).length ≤ 13 * 39 ∧ (g.Bmp → g.Keeps left) ∧
      CleanFrom (if g.Bmp then [] else g.longName ++ left) gs

theorem leftover_snoc (before : List Group) (g : Group) :
    leftover (before ++ [g]) = if g.Bmp then [] else g.longName ++ leftover before := by
  unfold leftover
  rw [List.reverse_append, List.reverse_singleton, List.singleton_append, List.takeWhile_cons]
  by_cases bmp : g.Bmp
  · simp [bmp]
  · simp [bmp]

/-- Each group, with those in front of it. -/
theorem cleanFrom_iff {before gs : List Group} : CleanFrom (leftover before) gs ↔
    ∀ middle g after, gs = middle ++ g :: after →
      (g.longName ++ leftover (before ++ middle)).length ≤ 13 * 39 ∧ (g.Bmp → g.Keeps (leftover (before ++ middle))) := by
  induction gs generalizing before with
  | nil => simp [CleanFrom]
  | cons g gs ih =>
    rw [CleanFrom, ← leftover_snoc, ih]
    constructor
    · rintro ⟨few, keeps, further⟩ middle g' after split
      cases middle with
      | nil =>
        obtain ⟨rfl, -⟩ := List.cons.inj split
        rw [List.append_nil]
        exact ⟨few, keeps⟩
      | cons m middle =>
        obtain ⟨rfl, tail⟩ := List.cons.inj split
        have next := further middle g' after tail
        rwa [List.append_assoc, List.singleton_append] at next
    · intro all
      have here := all [] g gs rfl
      rw [List.append_nil] at here
      refine ⟨here.1, here.2, fun middle g' after split => ?_⟩
      rw [List.append_assoc, List.singleton_append]
      exact all (g :: middle) g' after (by rw [split, List.cons_append])

theorem clean_iff (d : Directory) : Clean d ↔ CleanFrom [] d.groups := (@cleanFrom_iff [] d.groups).symm

end Leftover

/-! ## The calls -/

section Calls

variable {mem : Bytes} {start size fuel offset f k : Nat} {temp done rest : List UInt8} {file : RecoverFile} {g : Group} {gs : List Group}

/-- What follows a call. -/
def afterCall (mem : Bytes) (start size fuel : Nat) (r : Int × List UInt8 × RecoverFile) :
    Traced Trap Nat (List (Int × RecoverFile)) :=
  .lift (if r.1 = -1 then .ok [] else do
    let rest ← detectAll mem start size fuel (r.1 % 2 ^ 32).toNat r.2.1 r.2.2
    .ok ((r.1, r.2.2) :: rest))

theorem detectAll_succ : detectAll mem start size (fuel + 1) offset temp file =
    (detectLoop mem start size fuel offset ⟨temp, 0⟩ file >>= afterCall mem start size fuel).result := by
  rw [Traced.result_bind]
  rfl

theorem afterCall_found {ret : Int} (found : ret ≠ -1) (back : (ret % 2 ^ 32).toNat = offset) :
    (afterCall mem start size fuel (ret, temp, file)).result =
      detectAll mem start size fuel offset temp file >>= fun rest => .ok ((ret, file) :: rest) := by
  unfold afterCall
  rw [← back]
  exact if_neg found

/-- From entry `k` on the calls have an outcome if they have enough fuel, and find the files exactly if `clean` holds. -/
def Outcome (mem : Bytes) (start size k : Nat) (done rest : List UInt8) (file : RecoverFile) (files : List (Nat × Group))
    (clean : Prop) : Prop :=
  ∃ r, (∃ n, ∀ g f, n ≤ g → n ≤ f → (detectLoop mem start size g (32 * k) ⟨done ++ rest, done.length⟩ file >>=
      afterCall mem start size f).result = r) ∧ ((∃ found, r = .ok found ∧ List.Forall₂ Finds files found) ↔ clean)

variable {ps : List LongEntry} {files : List (Nat × Group)} {clean : Prop}

theorem Outcome.congr {clean' : Prop} (outcome : Outcome mem start size k done rest file files clean) (same : clean' ↔ clean) :
    Outcome mem start size k done rest file files clean' := by
  obtain ⟨r, run, found⟩ := outcome
  exact ⟨r, run, found.trans same.symm⟩

theorem outcome_end (past : size = 32 * k) : Outcome mem start size k done rest file [] True := by
  refine ⟨.ok [], ⟨1, fun g f more _ => ?_⟩, iff_of_true ⟨[], rfl, .nil⟩ trivial⟩
  obtain ⟨g, rfl⟩ : ∃ m, g = m + 1 := ⟨g - 1, by omega⟩
  rw [detectLoop_end past.le]
  rfl

theorem outcome_pieces (lies : Lies mem (start + 32 * k) (ps.map LongEntry.bytes))
    (flagged : done = [] → ∀ p ∈ ps.head?, IsLast (entry p.bytes) 0) (small : size < 2 ^ 32)
    (more : 32 * (k + ps.length) ≤ size) (fits : 13 * ps.length ≤ rest.length)
    (next : Outcome mem start size (k + ps.length) (done ++ pushed ps) (rest.drop (13 * ps.length)) file files clean) :
    Outcome mem start size k done rest file files clean := by
  obtain ⟨r, ⟨n, run⟩, same⟩ := next
  refine ⟨r, ⟨n + ps.length, fun g f more' more'' => ?_⟩, same⟩
  obtain ⟨g, rfl⟩ : ∃ m, g = m + ps.length := ⟨g - ps.length, by omega⟩
  rw [pieces_run lies flagged small more, if_pos fits]
  exact run g f (by omega) (by omega)

theorem outcome_full (lies : Lies mem (start + 32 * k) (ps.map LongEntry.bytes))
    (flagged : done = [] → ∀ p ∈ ps.head?, IsLast (entry p.bytes) 0) (small : size < 2 ^ 32)
    (more : 32 * (k + ps.length) ≤ size) (full : rest.length < 13 * ps.length) (not : ¬clean) :
    Outcome mem start size k done rest file files clean := by
  refine ⟨.error .outside, ⟨ps.length, fun g f more' _ => ?_⟩, iff_of_false ?_ not⟩
  · obtain ⟨g, rfl⟩ : ∃ m, g = m + ps.length := ⟨g - ps.length, by omega⟩
    rw [pieces_run lies flagged small more, if_neg (by omega)]
  · rintro ⟨found, run, -⟩
    cases run

theorem outcome_pass (lies : ∀ i < 32, mem (start + 32 * k + i) = g.short.bytes[i]?) (other : ¬g.Bmp) (small : size < 2 ^ 32)
    (more : 32 * (k + 1) ≤ size) (next : Outcome mem start size (k + 1) done rest file files clean) :
    Outcome mem start size k done rest file files clean := by
  obtain ⟨r, ⟨n, run⟩, same⟩ := next
  refine ⟨r, ⟨n + 1, fun g f more' more'' => ?_⟩, same⟩
  obtain ⟨g, rfl⟩ : ∃ m, g = m + 1 := ⟨g - 1, by omega⟩
  rw [short_pass lies other small more]
  exact run g f (by omega) (by omega)

/-- The next call begins with an empty `temp`. -/
theorem outcome_found {left : List UInt8} (lies : ∀ i < 32, mem (start + 32 * k + i) = g.short.bytes[i]?) (bmp : g.Bmp)
    (small : size < 2 ^ 32) (more : 32 * (k + 1) ≤ size) (room : done.length < 508)
    (names : done.reverse = g.longName ++ left) (named : file.name.length = 512)
    (next : ∀ file : RecoverFile, file.name.length = 512 → Outcome mem start size (k + 1) [] (done ++ rest) file files clean) :
    Outcome mem start size k done rest file ((32 * k, g) :: files) (g.Keeps left ∧ clean) := by
  let name := nameFor (entry g.short.bytes) 0 done
  let file' : RecoverFile := ⟨name ++ 0 :: file.name.drop (name.length + 1), sizeAt (entry g.short.bytes) 0,
    clusterAt (entry g.short.bytes) 0, 32 * k⟩
  have short : name.length ≤ 507 := length_nameFor (by omega)
  have named' : file'.name.length = 512 := by
    simp only [file', List.length_append, List.length_cons, List.length_drop, named]
    omega
  obtain ⟨r, ⟨n, run⟩, same⟩ := next file' named'
  have finds : Finds (32 * k, g) (Int.bmod (32 * k + 32 : Nat) (2 ^ 32), file') ↔ g.Keeps left := by
    rw [← text_nameFor names]
    refine ⟨fun finds => ?_, fun same => ⟨?_, ?_, ?_, ?_, ?_⟩⟩
    · have name := finds.name
      rwa [Trap.text_ended] at name
    · dsimp only
    · dsimp only [file']
    · dsimp only [file']
    · dsimp only [file']
    · show Trap.text (name ++ 0 :: _) = _
      rwa [Trap.text_ended]
  refine ⟨r >>= fun found => .ok ((Int.bmod (32 * k + 32 : Nat) (2 ^ 32), file') :: found), ⟨n + 2, fun g' f more' more'' => ?_⟩, ?_⟩
  · obtain ⟨g', rfl⟩ : ∃ m, g' = m + 1 := ⟨g' - 1, by omega⟩
    obtain ⟨f, rfl⟩ : ∃ m, f = m + 1 := ⟨f - 1, by omega⟩
    have call := run f f (by omega) (by omega)
    have ret : Int.bmod (32 * k + 32 : Nat) (2 ^ 32) ≠ -1 := by
      intro ended
      have back := toNat_bmod (32 * k + 32)
      rw [ended] at back
      omega
    have back : (Int.bmod (32 * k + 32 : Nat) (2 ^ 32) % 2 ^ 32).toNat = 32 * (k + 1) := by
      rw [toNat_bmod]
      omega
    rw [short_found lies bmp (by omega) (by omega) named, afterCall_found ret back, detectAll_succ]
    exact congrArg (· >>= _) call
  · rw [← same, ← finds]
    constructor
    · rintro ⟨found, ok, all⟩
      obtain ⟨tail, ok', found'⟩ := bind_eq_ok.1 ok
      rw [← Except.ok.inj found', List.forall₂_cons] at all
      exact ⟨all.1, tail, ok', all.2⟩
    · rintro ⟨first, found, rfl, all⟩
      exact ⟨_, rfl, .cons first all⟩

/-- Over a group and what follows it: the pieces are pushed, and the short entry ends a call or is passed. -/
theorem groups_run (small : size < 2 ^ 32) (gs : List Group) : ∀ k done rest file,
    Lies mem (start + 32 * k) (gs.flatMap Group.entries) → 32 * (k + (gs.flatMap Group.entries).length) = size →
    (done ++ rest).length = 512 → 13 ∣ done.length → file.name.length = 512 →
    Outcome mem start size k done rest file (bmpFiles (32 * k) gs) (CleanFrom done.reverse gs) := by
  induction gs with
  | nil =>
    intro k done rest file lies whole length pieces named
    exact outcome_end whole.symm
  | cons g gs ih =>
    intro k done rest file lies whole length pieces named
    rw [List.flatMap_cons, lies_append] at lies
    rw [List.flatMap_cons, List.length_append] at whole
    obtain ⟨own, later⟩ := lies
    have count : g.entries.length = g.pieces.length + 1 := by simp [Group.entries]
    rw [Group.entries, lies_append, List.length_map] at own
    obtain ⟨long, short, -⟩ := own
    rw [Nat.add_assoc start, ← Nat.mul_add] at short later
    have flagged : done = [] → ∀ p ∈ g.pieces.head?, IsLast (entry p.bytes) 0 := fun _ => flagged_head g
    have name := length_longName g
    have pushed_length := length_pushed g.pieces
    rw [List.length_append] at length
    rcases lt_or_ge rest.length (13 * g.pieces.length) with full | fits
    · refine outcome_full long flagged small (by omega) full fun clean => ?_
      have few := clean.1
      rw [List.length_append, List.length_reverse] at few
      omega
    · have kept : (done ++ pushed g.pieces).reverse = g.longName ++ done.reverse := by
        rw [List.reverse_append, pushed_reverse]
      have few : (g.longName ++ done.reverse).length ≤ 13 * 39 := by
        rw [List.length_append, List.length_reverse]
        omega
      refine outcome_pieces long flagged small (by omega) fits ?_
      have further := ih (k + g.pieces.length + 1)
      have place : 32 * k + 32 * g.pieces.length = 32 * (k + g.pieces.length) := by omega
      have place' : 32 * k + 32 * g.entries.length = 32 * (k + g.pieces.length + 1) := by omega
      rw [count, ← Nat.add_assoc] at later
      rw [bmpFiles, place, place', CleanFrom]
      rcases Classical.em g.Bmp with bmp | other
      · rw [if_pos bmp, if_pos bmp]
        have room : (done ++ pushed g.pieces).length < 508 := by
          rw [List.length_append, pushed_length]
          omega
        refine (outcome_found short bmp small (by omega) room kept named fun file named =>
          further [] _ file later (by omega) ?_ (by simp) named).congr ?_
        · simp only [List.length_append, List.length_drop, List.nil_append, pushed_length]
          omega
        · rw [and_iff_right few]
          exact and_congr_left fun _ => ⟨fun keeps => keeps bmp, fun keeps _ => keeps⟩
      · rw [if_neg other, if_neg other, ← kept]
        refine (outcome_pass short other small (by omega) (further _ _ file later (by omega) ?_ ?_ named)).congr ?_
        · simp only [List.length_append, List.length_drop, pushed_length]
          omega
        · rw [List.length_append, pushed_length]
          exact Nat.dvd_add pieces ⟨_, rfl⟩
        · rw [kept, and_iff_right few]
          exact and_iff_right fun bmp => absurd bmp other

end Calls

section Directories

theorem right_iff_cleanFrom (d : Directory) (s : Scanned d) : Right d s ↔ CleanFrom [] d.groups := by
  have lies : Lies s.mem (s.start + 32 * 0) (d.groups.flatMap Group.entries) := s.lies
  have small : d.size < 2 ^ 32 := d.small
  obtain ⟨r, ⟨n, run⟩, same⟩ := groups_run small d.groups 0 [] s.temp s.file lies
    (by rw [Nat.zero_add]; rfl) s.length (by simp) s.named
  have calls : ∀ fuel, n + 1 ≤ fuel → detectAll s.mem s.start d.size fuel 0 s.temp s.file = r := by
    intro fuel more
    obtain ⟨fuel, rfl⟩ : ∃ m, fuel = m + 1 := ⟨fuel - 1, by omega⟩
    rw [detectAll_succ]
    exact run fuel fuel (by omega) (by omega)
  refine Iff.trans ⟨?_, ?_⟩ same
  · rintro ⟨found, ⟨enough, returns⟩, all⟩
    have outcome := calls (max enough (n + 1)) (le_max_right _ _)
    exact ⟨found, outcome.symm.trans (returns _ (le_max_left _ _)), all⟩
  · rintro ⟨found, rfl, all⟩
    exact ⟨found, ⟨n + 1, calls⟩, all⟩

/-- The calls find the BMP files of a directory exactly where it is clean. -/
theorem names_right_iff (d : Directory) (s : Scanned d) : Right d s ↔ Clean d :=
  (right_iff_cleanFrom d s).trans (clean_iff d).symm

/-- A long entry for a name of 13 letters. -/
def thirteenLetters : LongEntry where
  bytes := [0x41, 97, 0, 97, 0, 97, 0, 97, 0, 97, 0, 0x0f, 0, 0, 97, 0, 97, 0, 97, 0, 97, 0, 97, 0, 97, 0, 0, 0, 97, 0, 97, 0]
  length := rfl
  long := by decide

/-- The short entry `A       ` with an extension. -/
def letterA (ext : Vector UInt8 3) : ShortEntry where
  bytes := [65, 32, 32, 32, 32, 32, 32, 32, ext[0], ext[1], ext[2], 0x20, 0, 0, 0, 0, 0, 0, 0, 0, 0, 0, 0, 0, 0, 0, 3, 0, 54, 0, 0, 0]
  length := rfl
  reserved := rfl
  single := by
    show count1 32 = 1
    simp [count1]

/-- A text file with a long name, and behind it a BMP file that has none. -/
def textAndBmp : Directory where
  groups := [⟨[thirteenLetters], by decide, by decide, letterA #v[84, 88, 84]⟩, ⟨[], by decide, by decide, letterA #v[66, 77, 80]⟩]
  small := by decide

def textAndBmpScanned : Scanned textAndBmp where
  mem a := (textAndBmp.groups.flatMap Group.entries).flatten[a]?
  start := 0
  lies := ⟨by decide, by decide, by decide, trivial⟩
  temp := List.replicate 512 0
  length := List.length_replicate
  file := ⟨List.replicate 512 0, 0, 0, 0⟩
  named := List.length_replicate

/-- The BMP file gets the long name of the text file. -/
theorem name_taken_over : ¬Right textAndBmp textAndBmpScanned := by
  intro right
  have clean := (right_iff_cleanFrom _ _).1 right
  have text : ¬Group.Bmp ⟨[thirteenLetters], by decide, by decide, letterA #v[84, 88, 84]⟩ :=
    fun bmp => absurd bmp.2.2.2.1 (by decide)
  have bmp : Group.Bmp ⟨[], by decide, by decide, letterA #v[66, 77, 80]⟩ :=
    ⟨by decide, by decide, (letterA #v[66, 77, 80]).single, by decide, by decide, by decide⟩
  unfold textAndBmp at clean
  rw [CleanFrom, if_neg text, CleanFrom] at clean
  have keeps := clean.2.2.2.1 bmp
  unfold Group.Keeps at keeps
  rw [if_pos rfl] at keeps
  rcases keeps with none | same
  · exact absurd none (by decide)
  · exact absurd same (by decide)

end Directories

end OsLab.Frecov
