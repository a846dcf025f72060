import OsLab.Frecov.Entries
import Mathlib.Data.Nat.Count

/-!
# What `recover` reads and writes

The scan stays inside of the image and of its buffers, and comes to an end with a `pos` that increases, exactly where each entry
it comes to is safe (`Sound`): the bytes that are looked at are in the image, `temp` has room, and so on. A file that is not a
bitmap, or that cannot be written, ends the program.
-/

namespace OsLab.Frecov

/-! ## The image -/

namespace Image

variable (img : Image)

/-- `data_offset` -/
def dataOffset : Nat :=
  half img.mem 11 * (half img.mem 14 + (byte img.mem 16).toNat * word img.mem 36) % 2 ^ 32

/-- `size`, which wraps where the data area is behind the end of the image. -/
def dataSize : Nat := (img.bytes.length + 2 ^ 32 - img.dataOffset) % 2 ^ 32

def clusterOffset (cluster : Nat) : Nat :=
  (img.dataOffset + half img.mem 11 * (byte img.mem 13).toNat * ((cluster + 2 ^ 32 - 2) % 2 ^ 32)) % 2 ^ 32

/-- Where entry `k` is. -/
def entryAt (k : Nat) : Nat := img.dataOffset + 32 * k

variable {img} {a n : Nat}

theorem isSome_of (inside : a < img.bytes.length) : (img.mem a).isSome := by
  unfold mem
  rw [List.getElem?_eq_getElem inside, Option.isSome_some]

theorem holds_of (inside : a + n ≤ img.bytes.length) : Holds img.mem a n := by
  intro i before
  exact isSome_of (by omega)

theorem mem_none (outside : img.bytes.length ≤ a) : img.mem a = none := List.getElem?_eq_none outside

theorem boot (inside : a + n ≤ 512) : Holds img.mem a n := holds_of (inside.trans img.sector)

theorem getDataAreaOffset_eq : getDataAreaOffset img.mem = .ok img.dataOffset := by
  unfold getDataAreaOffset
  rw [read16_of (boot (by decide)), ok_bind, read16_of (boot (by decide)), ok_bind, read8_of (boot (n := 1) (by decide) 0 (by decide)),
    ok_bind, read32_of (boot (by decide)), ok_bind]
  rfl

theorem getClusterOffset_eq (cluster : Nat) : getClusterOffset img.mem cluster = .ok (img.clusterOffset cluster) := by
  unfold getClusterOffset
  rw [getDataAreaOffset_eq, ok_bind, read16_of (boot (by decide)), ok_bind,
    read8_of (boot (n := 1) (by decide) 0 (by decide)), ok_bind]
  rfl

theorem read16_none (outside : img.bytes.length < a + 2) : read16 img.mem a = .error .outside := by
  unfold read16
  rcases lt_or_ge a img.bytes.length with low | low
  · rw [read8_of (isSome_of low), ok_bind, read8_none (mem_none (by omega)), error_bind]
  · rw [read8_none (mem_none low), error_bind]

theorem read32_none (outside : img.bytes.length < a + 4) : read32 img.mem a = .error .outside := by
  unfold read32
  rcases lt_or_ge img.bytes.length (a + 2) with low | low
  · rw [read16_none low, error_bind]
  · rw [read16_of (holds_of low), ok_bind, read16_none (by omega), error_bind]

theorem readRange_of (inside : a + n ≤ img.bytes.length) : ∃ contents, readRange img a n = .ok contents := by
  have all : ∀ l : List Nat, (∀ i ∈ l, i < n) → ∃ contents, (l.mapM fun i => read8 img.mem (a + i)) = .ok contents := by
    intro l
    induction l with
    | nil => exact fun _ => ⟨[], rfl⟩
    | cons i l ih =>
      intro below
      obtain ⟨contents, read⟩ := ih fun j member => below j (List.mem_cons_of_mem i member)
      refine ⟨byte img.mem (a + i) :: contents, ?_⟩
      rw [List.mapM_cons, (holds_of inside).read8 i (below i List.mem_cons_self), ok_bind, read]
      rfl
  exact all _ fun i member => List.mem_range.1 member

theorem readRange_none (some : n ≠ 0) (outside : img.bytes.length < a + n) : readRange img a n = .error .outside := by
  have past : ∀ l : List Nat, n - 1 ∈ l → (l.mapM fun i => read8 img.mem (a + i)) = .error .outside := by
    intro l
    induction l with
    | nil => exact fun member => absurd member List.not_mem_nil
    | cons i l ih =>
      intro member
      rw [List.mapM_cons]
      rcases lt_or_ge (a + i) img.bytes.length with inside | beyond
      · have later : n - 1 ∈ l := by
          refine (List.mem_cons.1 member).resolve_left fun here => ?_
          omega
        rw [read8_of (isSome_of inside), ok_bind, ih later, error_bind]
      · rw [read8_none (mem_none beyond), error_bind]
  exact past _ (List.mem_range.2 (by omega))

end Image

/-! ## A file -/

section Files

variable (env : Setting) (img : Image)

/-- The program stops at this file: its contents do not begin as those of a bitmap, or it cannot be written. -/
def Stopped (src n : Nat) : Prop :=
  ¬(byte img.mem src = 66 ∧ byte img.mem (src + 1) = 77 ∧ (env.tofile = true → env.created n = true))

/-- A file with these contents can be the answer `n`. -/
structure FileSafe (src size n : Nat) : Prop where
  first : src < img.bytes.length
  second : byte img.mem src = 66 → src + 1 < img.bytes.length
  whole : ¬Stopped env img src n → src + size ≤ img.bytes.length ∧ n < answerMax

variable {env : Setting} {img : Image} {s : State} {src size n : Nat}

theorem getSha1Sum_of (env : Setting) (inside : src + size ≤ img.bytes.length) {buf : List UInt8} (room : buf.length = 512) :
    ∃ buf', getSha1Sum env img src size buf = .ok buf' ∧ buf'.length = 512 ∧ 0 ∈ buf' ∧ (Trap.text buf').length ≤ 40 := by
  obtain ⟨contents, read⟩ := Image.readRange_of inside
  let sum := (env.sha1sum contents).take 40
  let stored := sum ++ buf.drop sum.length
  have short : sum.length ≤ 40 := List.length_take_le _ _
  have length : stored.length = 512 := by
    rw [List.length_append, List.length_drop]
    omega
  have put : Trap.put stored 40 0 = .ok (stored.take 40 ++ 0 :: stored.drop 41) := by
    have put := @put_drop (stored.take 40) stored 40 0 (by rw [List.length_take]; omega) (by omega)
    rwa [List.take_append_drop] at put
  refine ⟨stored.take 40 ++ 0 :: stored.drop 41, ?_, ?_, ?_, ?_⟩
  · unfold getSha1Sum
    rw [read, ok_bind]
    exact put
  · simp only [List.length_append, List.length_cons, List.length_take, List.length_drop]
    omega
  · exact List.mem_append_right _ List.mem_cons_self
  · rw [Trap.text_ended]
    exact (Trap.length_text_le _).trans (List.length_take_le _ _)

theorem writeFile_of (length : s.file.name.length = 512) (ended : 0 ∈ s.file.name) (set : env.tofile = true) :
    writeFile env img src s = if env.created s.answers.length then do
        let _ ← readRange img src s.file.size
        .ok ()
      else .error .abort := by
  have directory : TARGET_DIR.length = 30 := by decide
  have short := Trap.length_text_lt ended
  unfold writeFile
  rw [if_pos set, Trap.readText_ended ended, ok_bind, Trap.putText_of, ok_bind]
  simp only [List.length_append, List.length_cons, List.length_replicate]
  omega

/-- A bitmap goes out of bounds, cannot be written, or is an answer. -/
theorem addAnswer_cases (length : s.file.name.length = 512) (ended : 0 ∈ s.file.name) (some : s.file.size ≠ 0)
    (buf : s.sha1Buf.length = 512) :
    (¬(env.tofile = true → env.created s.answers.length = true) ∧ addAnswer env img src s = .error .abort) ∨
    ((env.tofile = true → env.created s.answers.length = true) ∧
      (¬(src + s.file.size ≤ img.bytes.length ∧ s.answers.length < answerMax) ∧ addAnswer env img src s = .error .outside ∨
        (src + s.file.size ≤ img.bytes.length ∧ s.answers.length < answerMax) ∧ ∃ sha1Buf answer, sha1Buf.length = 512 ∧
          addAnswer env img src s = .ok { s with sha1Buf, answers := s.answers ++ [answer] })) := by
  unfold addAnswer
  rcases Classical.em (env.tofile = true → env.created s.answers.length = true) with made | refused
  case inr =>
    obtain ⟨set, not⟩ := Classical.not_imp.1 refused
    rw [writeFile_of length ended set, if_neg not, error_bind]
    exact .inl ⟨refused, rfl⟩
  refine .inr ⟨made, ?_⟩
  rcases lt_or_ge img.bytes.length (src + s.file.size) with outside | inside
  · refine .inl ⟨fun fits => absurd fits.1 (by omega), ?_⟩
    have read := Image.readRange_none some outside
    have sum : getSha1Sum env img src s.file.size s.sha1Buf = .error .outside := by
      unfold getSha1Sum
      rw [read, error_bind]
    rcases Bool.eq_false_or_eq_true env.tofile with set | unset
    · rw [writeFile_of length ended set, if_pos (made set), read, error_bind, error_bind]
    · unfold writeFile
      rw [if_neg (by simp [unset]), ok_bind, sum, error_bind]
  · obtain ⟨contents, read⟩ := Image.readRange_of inside
    obtain ⟨sha1Buf, sum, buffer, nul, short⟩ := getSha1Sum_of env inside buf
    have written : writeFile env img src s = .ok () := by
      rcases Bool.eq_false_or_eq_true env.tofile with set | unset
      · rw [writeFile_of length ended set, if_pos (made set), read, ok_bind]
      · exact if_neg (by simp [unset])
    rw [written, ok_bind, sum, ok_bind]
    split
    next full => exact .inl ⟨fun fits => absurd fits.2 (by omega), rfl⟩
    next room =>
      have name := Trap.length_text_lt ended
      rw [Trap.readText_ended nul, ok_bind, Trap.putText_of (by rw [List.length_replicate]; omega), ok_bind,
        Trap.readText_ended ended, ok_bind, Trap.putText_of (by rw [List.length_replicate]; omega), ok_bind]
      exact .inr ⟨⟨inside, by omega⟩, sha1Buf, _, buffer, rfl⟩

/-- A file goes out of bounds, stops the program, or is an answer. -/
theorem recoverFile_cases (length : s.file.name.length = 512) (ended : 0 ∈ s.file.name) (some : s.file.size ≠ 0)
    (buf : s.sha1Buf.length = 512) (source : img.clusterOffset s.file.cluster = src) :
    recoverFile env img s = .error .outside ∧ ¬FileSafe env img src s.file.size s.answers.length ∨
    FileSafe env img src s.file.size s.answers.length ∧
      (recoverFile env img s = .error .abort ∧ Stopped env img src s.answers.length ∨
        ¬Stopped env img src s.answers.length ∧ ∃ sha1Buf answer, sha1Buf.length = 512 ∧
          recoverFile env img s = .ok { s with sha1Buf, answers := s.answers ++ [answer] }) := by
  unfold recoverFile
  rw [Image.getClusterOffset_eq, ok_bind, source]
  rcases lt_or_ge src img.bytes.length with inside | outside
  case inr =>
    rw [read8_none (Image.mem_none outside), error_bind]
    exact .inl ⟨rfl, fun safe => absurd safe.first (by omega)⟩
  rw [read8_of (Image.isSome_of inside), ok_bind]
  split
  next other =>
    have stopped : Stopped env img src s.answers.length := fun all => other all.1
    exact .inr ⟨⟨inside, fun first => absurd first other, fun goes => absurd stopped goes⟩, .inl ⟨rfl, stopped⟩⟩
  next first =>
    rcases lt_or_ge (src + 1) img.bytes.length with inside' | outside
    case inr =>
      rw [read8_none (Image.mem_none outside), error_bind]
      exact .inl ⟨rfl, fun safe => absurd (safe.second (not_not.1 first)) (by omega)⟩
    rw [read8_of (Image.isSome_of inside'), ok_bind]
    split
    next other =>
      have stopped : Stopped env img src s.answers.length := fun all => other all.2.1
      exact .inr ⟨⟨inside, fun _ => inside', fun goes => absurd stopped goes⟩, .inl ⟨rfl, stopped⟩⟩
    next second =>
      rcases @addAnswer_cases env img s src length ended some buf with
        ⟨refused, run⟩ | ⟨made, ⟨outside, run⟩ | ⟨fits, answered⟩⟩
      · have stopped : Stopped env img src s.answers.length := fun all => refused all.2.2
        exact .inr ⟨⟨inside, fun _ => inside', fun goes => absurd stopped goes⟩, .inl ⟨run, stopped⟩⟩
      · have goes : ¬Stopped env img src s.answers.length := not_not.2 ⟨not_not.1 first, not_not.1 second, made⟩
        exact .inl ⟨run, fun safe => outside (safe.whole goes)⟩
      · have goes : ¬Stopped env img src s.answers.length := not_not.2 ⟨not_not.1 first, not_not.1 second, made⟩
        exact .inr ⟨⟨inside, fun _ => inside', fun _ => fits⟩, .inr ⟨goes, answered⟩⟩

end Files

/-! ## The entries of an image -/

section Entries

variable (env : Setting) (img : Image)

/-- Entry `k` is of a BMP file that is not empty. -/
def UsedAt (k : Nat) : Prop :=
  IsBmp img.mem (img.entryAt k) ∧ sizeAt img.mem (img.entryAt k) ≠ 0 ∧ clusterAt img.mem (img.entryAt k) ≠ 0

instance (k : Nat) : Decidable (UsedAt img k) := inferInstanceAs (Decidable (_ ∧ _))

/-- Where the contents of the file of entry `k` begin. -/
def sourceAt (k : Nat) : Nat := img.clusterOffset (clusterAt img.mem (img.entryAt k))

/-- The program stops at entry `k`. -/
def StoppedAt (k : Nat) : Prop := UsedAt img k ∧ Stopped env img (sourceAt img k) (Nat.count (UsedAt img) k)

/-- Entry `i` is a piece of a name, from a flagged one on, and there is no BMP file from that to entry `k`. -/
def HeldAt (k i : Nat) : Prop :=
  IsLong img.mem (img.entryAt i) ∧ ∃ f ≤ i, IsLong img.mem (img.entryAt f) ∧ IsLast img.mem (img.entryAt f) ∧
    ∀ j ≤ k, f ≤ j → ¬IsBmp img.mem (img.entryAt j)

instance (k : Nat) : DecidablePred (HeldAt img k) := fun _ => inferInstanceAs (Decidable (_ ∧ _))

/-- What is looked at of entry `k` is in the image, and a piece of a name fits into `temp`. -/
structure EntryInside (k : Nat) : Prop where
  prop : img.entryAt k + 13 ≤ img.bytes.length
  long : byte img.mem (img.entryAt k + 11) = DP_Long → byte img.mem (img.entryAt k + 12) = 0 →
    img.entryAt k + 28 ≤ img.bytes.length
  piece : HeldAt img k k → img.entryAt k + 31 ≤ img.bytes.length ∧ Nat.count (HeldAt img k) (k + 1) ≤ 39
  short : IsBmp img.mem (img.entryAt k) → img.entryAt k + 32 ≤ img.bytes.length

/-- Nothing goes wrong at entry `k`. -/
structure EntrySafe (k : Nat) : Prop where
  inside : EntryInside img k
  file : UsedAt img k → FileSafe env img (sourceAt img k) (sizeAt img.mem (img.entryAt k)) (Nat.count (UsedAt img) k)
  /-- `pos` does not wrap. -/
  further : ¬StoppedAt env img k → 32 * k + 32 < 2 ^ 32

/-- Each entry is safe up to the one at which the program stops. -/
def Sound : Prop := ∀ k, 32 * k < img.dataSize → (∀ j < k, ¬StoppedAt env img j) → EntrySafe env img k

/-- How many pieces are in `temp` in front of entry `k`. -/
def held : Nat → Nat
  | 0 => 0
  | k + 1 =>
    if IsBmp img.mem (img.entryAt k) then 0
    else if Kept img.mem (img.entryAt k) (13 * held k) then held k + 1 else held k

variable {env : Setting} {img : Image} {k i : Nat} {t : Temp} {file : RecoverFile}

theorem not_isBmp (long : IsLong img.mem k) : ¬IsBmp img.mem k := fun bmp => bmp.1 long.1

theorem held_pos : held img k ≠ 0 ↔ ∃ f < k, IsLong img.mem (img.entryAt f) ∧ IsLast img.mem (img.entryAt f) ∧
    ∀ j < k, f ≤ j → ¬IsBmp img.mem (img.entryAt j) := by
  induction k with
  | zero => simp [held]
  | succ k ih =>
    unfold held
    split
    next bmp =>
      refine iff_of_false (not_not.2 rfl) ?_
      rintro ⟨f, before, -, -, none⟩
      exact none k (Nat.lt_succ_self k) (by omega) bmp
    next other =>
      have further : (∃ f < k, IsLong img.mem (img.entryAt f) ∧ IsLast img.mem (img.entryAt f) ∧
          ∀ j < k, f ≤ j → ¬IsBmp img.mem (img.entryAt j)) → ∃ f < k + 1, IsLong img.mem (img.entryAt f) ∧
          IsLast img.mem (img.entryAt f) ∧ ∀ j < k + 1, f ≤ j → ¬IsBmp img.mem (img.entryAt j) := by
        rintro ⟨f, before, long, last, none⟩
        refine ⟨f, by omega, long, last, fun j below from_f => ?_⟩
        rcases Nat.lt_succ_iff_lt_or_eq.1 below with below | rfl
        · exact none j below from_f
        · exact other
      split
      next kept =>
        refine iff_of_true (Nat.succ_ne_zero _) ?_
        rcases kept.2 with some | last
        · exact further (ih.1 (by omega))
        · exact ⟨k, Nat.lt_succ_self k, kept.1, last, fun j below from_k => (by omega : k = j) ▸ other⟩
      next passed =>
        refine ⟨fun some => further (ih.1 some), ?_⟩
        rintro ⟨f, before, long, last, none⟩
        rcases Nat.lt_succ_iff_lt_or_eq.1 before with before | rfl
        · exact ih.2 ⟨f, before, long, last, fun j below => none j (by omega)⟩
        · exact absurd ⟨long, .inr last⟩ passed

/-- A piece is kept where it is in `temp` after it. -/
theorem kept_iff : Kept img.mem (img.entryAt k) (13 * held img k) ↔ HeldAt img k k := by
  have some : 13 * held img k ≠ 0 ↔ held img k ≠ 0 := by omega
  unfold Kept HeldAt
  rw [some, held_pos]
  refine and_congr_right fun long => ⟨?_, ?_⟩
  · rintro (⟨f, before, long', last, none⟩ | last)
    · refine ⟨f, before.le, long', last, fun j below from_f => ?_⟩
      rcases Nat.lt_or_eq_of_le below with below | rfl
      · exact none j below from_f
      · exact not_isBmp long
    · exact ⟨k, le_rfl, long, last, fun j below from_k => (le_antisymm from_k below) ▸ not_isBmp long⟩
  · rintro ⟨f, before, long', last, none⟩
    rcases Nat.lt_or_eq_of_le before with before | rfl
    · exact .inl ⟨f, before, long', last, fun j below => none j below.le⟩
    · exact .inr last

theorem count_step (before : ¬IsBmp img.mem (img.entryAt k) → Nat.count (HeldAt img k) k = held img k) :
    Nat.count (HeldAt img k) (k + 1) = held img (k + 1) := by
  unfold held
  split
  next bmp =>
    rw [Nat.count_iff_forall_not]
    rintro i below ⟨-, f, from_f, -, -, none⟩
    exact none k le_rfl (by omega) bmp
  next other =>
    rw [Nat.count_succ, before other]
    split
    next kept => rw [if_pos (kept_iff.2 kept)]
    next passed => rw [if_neg (passed ∘ kept_iff.1), Nat.add_zero]

/-- What `temp` holds, counted. -/
theorem count_heldAt (k : Nat) : Nat.count (HeldAt img k) (k + 1) = held img (k + 1) := by
  induction k with
  | zero => exact count_step fun _ => Nat.count_zero _
  | succ k ih =>
    refine count_step fun other => ?_
    rw [← ih]
    refine le_antisymm (Nat.count_mono_left fun i below => ?_) (Nat.count_mono_left fun i below => ?_)
    · rintro ⟨long, f, before, long', last, none⟩
      exact ⟨long, f, before, long', last, fun j below => none j (by omega)⟩
    · rintro ⟨long, f, before, long', last, none⟩
      refine ⟨long, f, before, long', last, fun j below from_f => ?_⟩
      rcases Nat.lt_or_eq_of_le below with below | rfl
      · exact none j (by omega) from_f
      · exact other

/-- `temp` holds `n` pieces. -/
structure Buffered (n : Nat) (t : Temp) : Prop where
  length : t.temp.length = 512
  pos : t.tempPos = 13 * n
  few : n ≤ 39

theorem Buffered.split {n : Nat} (buffered : Buffered n t) :
    ∃ done rest, t = ⟨done ++ rest, done.length⟩ ∧ done.length = 13 * n ∧ rest.length = 512 - 13 * n := by
  obtain ⟨temp, tempPos⟩ := t
  obtain ⟨length, rfl, few⟩ := buffered
  have front : (temp.take (13 * n)).length = 13 * n := by
    rw [List.length_take, length]
    omega
  exact ⟨temp.take (13 * n), temp.drop (13 * n), by rw [List.take_append_drop, front], front, by rw [List.length_drop, length]⟩

/-- Out of bounds at what is looked at first. -/
theorem detectEntry_prop (outside : img.bytes.length < img.entryAt k + 13) :
    detectEntry img.mem (img.entryAt k) i t file = .error .outside := by
  unfold detectEntry
  rcases lt_or_ge (img.entryAt k + 11) img.bytes.length with inside | beyond
  · rw [read8_of (Image.isSome_of inside), ok_bind]
    split
    · unfold longEntry
      rw [read8_none (Image.mem_none (by omega)), error_bind, error_bind]
    · unfold shortEntry
      rw [read8_none (Image.mem_none (by omega)), error_bind, error_bind]
  · rw [read8_none (Image.mem_none beyond), error_bind]

theorem detectEntry_long (inside : img.entryAt k + 13 ≤ img.bytes.length)
    (long : byte img.mem (img.entryAt k + 11) = DP_Long) (zero : byte img.mem (img.entryAt k + 12) = 0)
    (outside : img.bytes.length < img.entryAt k + 28) : detectEntry img.mem (img.entryAt k) i t file = .error .outside := by
  have holds := Image.holds_of inside
  unfold detectEntry longEntry
  rw [holds.read8 11 (by decide), ok_bind, if_pos long, holds.read8 12 (by decide), ok_bind, if_neg (not_not.2 zero),
    Image.read16_none (by omega), error_bind, error_bind]

theorem detectEntry_piece (inside : img.entryAt k + 28 ≤ img.bytes.length) (kept : Kept img.mem (img.entryAt k) t.tempPos)
    (outside : img.bytes.length < img.entryAt k + 31) : detectEntry img.mem (img.entryAt k) i t file = .error .outside := by
  have holds := Image.holds_of inside
  have first : pushChars img.mem (img.entryAt k) charPlaces t = .error .outside := by
    unfold pushChars charPlaces
    rw [List.foldlM_cons, read8_none (Image.mem_none (by omega)), error_bind, error_bind]
  unfold detectEntry
  rw [holds.read8 11 (by decide), ok_bind, if_pos kept.1.1, longEntry_kept holds kept, first, error_bind]

theorem detectEntry_short (inside : img.entryAt k + 13 ≤ img.bytes.length) (bmp : IsBmp img.mem (img.entryAt k))
    (outside : img.bytes.length < img.entryAt k + 32) : detectEntry img.mem (img.entryAt k) i t file = .error .outside := by
  have holds := Image.holds_of inside
  obtain ⟨short, reserved, single, first, second, third⟩ := bmp
  unfold detectEntry shortEntry
  rw [holds.read8 11 (by decide), ok_bind, if_neg short, holds.read8 12 (by decide), ok_bind, if_neg (not_not.2 reserved),
    ok_bind, if_neg (not_not.2 single), holds.read8 8 (by decide), ok_bind, if_neg (not_not.2 first), holds.read8 9 (by decide),
    ok_bind, if_neg (not_not.2 second), holds.read8 10 (by decide), ok_bind, if_neg (not_not.2 third),
    Image.read32_none (by omega), error_bind, error_bind]

theorem held_bmp (bmp : IsBmp img.mem (img.entryAt k)) : held img (k + 1) = 0 := if_pos bmp

theorem held_kept (kept : Kept img.mem (img.entryAt k) (13 * held img k)) : held img (k + 1) = held img k + 1 := by
  rw [held, if_neg (not_isBmp kept.1), if_pos kept]

theorem held_pass (other : ¬IsBmp img.mem (img.entryAt k)) (passed : ¬Kept img.mem (img.entryAt k) (13 * held img k)) :
    held img (k + 1) = held img k := by
  rw [held, if_neg other, if_neg passed]

theorem detectEntry_bmp (buffered : Buffered (held img k) t) (named : file.name.length = 512)
    (inside : img.entryAt k + 32 ≤ img.bytes.length) (bmp : IsBmp img.mem (img.entryAt k)) :
    ∃ name, name.length = 512 ∧ 0 ∈ name ∧ detectEntry img.mem (img.entryAt k) i t file =
      .ok (t, some ⟨name, sizeAt img.mem (img.entryAt k), clusterAt img.mem (img.entryAt k), i⟩) := by
  have few := buffered.few
  obtain ⟨done, rest, rfl, length, -⟩ := buffered.split
  have short : (nameFor img.mem (img.entryAt k) done).length ≤ 507 := length_nameFor (by omega)
  refine ⟨_, ?_, ?_, detectEntry_found (Image.holds_of inside) bmp (by omega) named⟩
  · rw [List.length_append, List.length_cons, List.length_drop, named]
    omega
  · exact List.mem_append_right _ List.mem_cons_self

/-- A piece that is kept is pushed where there is room for it. -/
theorem detectEntry_kept (buffered : Buffered (held img k) t) (inside : img.entryAt k + 31 ≤ img.bytes.length)
    (kept : Kept img.mem (img.entryAt k) (13 * held img k)) :
    held img k = 39 ∧ detectEntry img.mem (img.entryAt k) i t file = .error .outside ∨
    held img k < 39 ∧ ∃ t', Buffered (held img (k + 1)) t' ∧ detectEntry img.mem (img.entryAt k) i t file = .ok (t', none) := by
  have few := buffered.few
  obtain ⟨done, rest, rfl, length, room⟩ := buffered.split
  rw [← length] at kept
  rcases Nat.lt_or_eq_of_le few with fewer | full
  · refine .inr ⟨fewer, _, ⟨?_, ?_, ?_⟩, detectEntry_push (Image.holds_of inside) kept (by omega)⟩
    all_goals rw [length] at kept
    · simp only [List.length_append, List.length_reverse, List.length_drop, charsAt, List.length_map, List.length_cons,
        List.length_nil]
      omega
    · rw [held_kept kept]
      show done.length + 13 = 13 * (held img k + 1)
      omega
    · rw [held_kept kept]
      omega
  · exact .inl ⟨full, detectEntry_full (Image.holds_of inside) kept (by omega)⟩

/-- An entry goes out of bounds, is that of a BMP file, or is passed or pushed. -/
theorem detectEntry_cases (buffered : Buffered (held img k) t) (named : file.name.length = 512) :
    detectEntry img.mem (img.entryAt k) i t file = .error .outside ∧ ¬EntryInside img k ∨
    EntryInside img k ∧
      (IsBmp img.mem (img.entryAt k) ∧ (∃ name, name.length = 512 ∧ 0 ∈ name ∧
          detectEntry img.mem (img.entryAt k) i t file =
            .ok (t, some ⟨name, sizeAt img.mem (img.entryAt k), clusterAt img.mem (img.entryAt k), i⟩)) ∨
        ¬IsBmp img.mem (img.entryAt k) ∧ ∃ t', Buffered (held img (k + 1)) t' ∧
          detectEntry img.mem (img.entryAt k) i t file = .ok (t', none)) := by
  rcases lt_or_ge img.bytes.length (img.entryAt k + 13) with outside | prop
  case inl => exact .inl ⟨detectEntry_prop outside, fun inside => absurd inside.prop (by omega)⟩
  rcases Classical.em (byte img.mem (img.entryAt k + 11) = DP_Long → byte img.mem (img.entryAt k + 12) = 0 →
    img.entryAt k + 28 ≤ img.bytes.length) with long | beyond
  case inr =>
    refine .inl ⟨?_, fun inside => beyond inside.long⟩
    obtain ⟨kind, beyond⟩ := Classical.not_imp.1 beyond
    obtain ⟨zero, beyond⟩ := Classical.not_imp.1 beyond
    exact detectEntry_long prop kind zero (by omega)
  rcases Classical.em (IsBmp img.mem (img.entryAt k)) with bmp | other
  · rcases lt_or_ge img.bytes.length (img.entryAt k + 32) with outside | inside
    · exact .inl ⟨detectEntry_short prop bmp outside, fun inside => absurd (inside.short bmp) (by omega)⟩
    · have none : ¬HeldAt img k k := fun held => not_isBmp held.1 bmp
      exact .inr ⟨⟨prop, long, fun held => absurd held none, fun _ => inside⟩,
        .inl ⟨bmp, detectEntry_bmp buffered named inside bmp⟩⟩
  rcases Classical.em (Kept img.mem (img.entryAt k) (13 * held img k)) with kept | passed
  · have count : Nat.count (HeldAt img k) (k + 1) = held img (k + 1) := count_heldAt k
    rw [held_kept kept] at count
    rcases lt_or_ge img.bytes.length (img.entryAt k + 31) with outside | inside
    · refine .inl ⟨detectEntry_piece (long kept.1.1 kept.1.2.1) ?_ outside, fun inside => ?_⟩
      · rwa [buffered.pos]
      · exact absurd (inside.piece (kept_iff.1 kept)).1 (by omega)
    · rcases @detectEntry_kept img k i t file buffered inside kept with ⟨full, run⟩ | ⟨fewer, pushed⟩
      · exact .inl ⟨run, fun safe => absurd (safe.piece (kept_iff.1 kept)).2 (by omega)⟩
      · exact .inr ⟨⟨prop, long, fun _ => ⟨inside, by omega⟩, fun bmp => absurd bmp other⟩, .inr ⟨other, pushed⟩⟩
  · refine .inr ⟨⟨prop, long, fun held => absurd (kept_iff.2 held) passed, fun bmp => absurd bmp other⟩, .inr ⟨other, t, ?_, ?_⟩⟩
    · rwa [held_pass other passed]
    · rw [← buffered.pos] at passed
      exact detectEntry_pass (Image.holds_of prop) (fun kind zero => Image.holds_of (long kind zero)) passed other

end Entries

/-! ## The runs -/

/-- A run that comes to an end, and what it marks increases from `lo` on. -/
structure Ends {α : Type} (lo : Nat) (x : Traced Trap Nat α) : Prop where
  ended : x.result = .error .abort ∨ ∃ a, x.result = .ok a
  rising : x.trace.Pairwise (· < ·)
  above : ∀ p ∈ x.trace, lo ≤ p

/-- A run ends only where `P` holds, and does so there if it has enough fuel. -/
def Decides {α : Type} (P enough : Prop) (lo : Nat) (x : Traced Trap Nat α) : Prop :=
  (Ends lo x → P) ∧ (P → enough → Ends lo x)

section Ends

variable {α : Type} {lo pos : Nat} {x : Traced Trap Nat α} {P Q enough enough' : Prop}

theorem ends_mark : Ends lo (Traced.mark pos >>= fun _ => x) ↔ lo ≤ pos ∧ Ends (pos + 1) x := by
  rw [Traced.mark_bind]
  constructor
  · rintro ⟨ended, rising, above⟩
    rw [List.pairwise_cons] at rising
    exact ⟨above pos List.mem_cons_self, ended, rising.2, rising.1⟩
  · rintro ⟨low, ended, rising, above⟩
    refine ⟨ended, List.pairwise_cons.2 ⟨above, rising⟩, fun p member => ?_⟩
    rcases List.mem_cons.1 member with rfl | later
    · exact low
    · exact low.trans (Nat.le_of_succ_le (above p later))

theorem ends_pure (a : α) : Ends lo (pure a : Traced Trap Nat α) :=
  ⟨.inr ⟨a, rfl⟩, List.Pairwise.nil, fun _ member => absurd member List.not_mem_nil⟩

theorem ends_abort : Ends lo (.lift (.error .abort) : Traced Trap Nat α) :=
  ⟨.inl rfl, List.Pairwise.nil, fun _ member => absurd member List.not_mem_nil⟩

theorem ends_map {β : Type} (f : α → β) : Ends lo (x >>= fun a => pure (f a)) ↔ Ends lo x := by
  have ended : ((x.result.map f = .error .abort) ∨ ∃ b, x.result.map f = .ok b) ↔ x.result = .error .abort ∨ ∃ a, x.result = .ok a := by
    cases x.result with
    | error e => simp [Except.map]
    | ok a => simp [Except.map]
  constructor
  · rintro ⟨result, rising, above⟩
    rw [Traced.result_map, ended] at result
    rw [Traced.trace_map] at rising above
    exact ⟨result, rising, above⟩
  · rintro ⟨result, rising, above⟩
    refine ⟨?_, ?_, ?_⟩
    · rwa [Traced.result_map, ended]
    · rwa [Traced.trace_map]
    · rwa [Traced.trace_map]

theorem not_ends {e : Trap} (other : e ≠ .abort) : ¬Ends lo (.lift (.error e) : Traced Trap Nat α) := by
  rintro ⟨ended | ⟨a, ended⟩, -, -⟩
  · exact other (Except.error.inj ended)
  · cases ended

theorem Decides.mark (low : lo ≤ pos) (decides : Decides P enough (pos + 1) x) :
    Decides P enough lo (Traced.mark pos >>= fun _ => x) :=
  ⟨fun ends => decides.1 (ends_mark.1 ends).2, fun sound fuel => ends_mark.2 ⟨low, decides.2 sound fuel⟩⟩

theorem Decides.fail {e : Trap} (other : e ≠ .abort) (not : ¬P) : Decides P enough lo (.lift (.error e) : Traced Trap Nat α) :=
  ⟨fun ends => absurd ends (not_ends other), fun sound => absurd sound not⟩

theorem Decides.mono (decides : Decides Q enough' lo x) (same : P ↔ Q) (fuel : enough → enough') : Decides P enough lo x :=
  ⟨fun ends => same.2 (decides.1 ends), fun sound more => decides.2 (same.1 sound) (fuel more)⟩

end Ends

section Runs

variable (env : Setting) (img : Image)

/-- From entry `k` on each entry is safe up to the one at which the program stops. -/
def SoundFrom (k : Nat) : Prop :=
  ∀ i, k ≤ i → 32 * i < img.dataSize → (∀ j, k ≤ j → j < i → ¬StoppedAt env img j) → EntrySafe env img i

/-- The rest of `recover` behind a call of `detect_next_direntry`. -/
def afterDetect (fuel : Nat) (s : State) (r : Int × List UInt8 × RecoverFile) : Traced Trap Nat (List Answer) :=
  let pos := (r.1 % 2 ^ 32).toNat
  let s := { s with temp := r.2.1, file := r.2.2 }
  if pos = 2 ^ 32 - 1 then pure s.answers
  else if s.file.size = 0 ∨ s.file.cluster = 0 then recoverLoop env img img.dataOffset img.dataSize fuel pos s
  else Traced.lift (recoverFile env img s) >>= fun s => recoverLoop env img img.dataOffset img.dataSize fuel pos s

/-- The state of `recover` in front of entry `k`. -/
structure Ready (k : Nat) (s : State) : Prop where
  named : s.file.name.length = 512
  buf : s.sha1Buf.length = 512
  answers : s.answers.length = Nat.count (UsedAt img) k

variable {env : Setting} {img : Image} {k n f g lo pos : Nat} {s : State} {t : Temp}

theorem dataSize_lt : img.dataSize < 2 ^ 32 := Nat.mod_lt _ (by decide)

theorem soundFrom_end (past : img.dataSize ≤ 32 * k) : SoundFrom env img k := fun i from_k below => absurd below (by omega)

theorem soundFrom_iff (below : 32 * k < img.dataSize) :
    SoundFrom env img k ↔ EntrySafe env img k ∧ (¬StoppedAt env img k → SoundFrom env img (k + 1)) := by
  constructor
  · intro sound
    refine ⟨sound k le_rfl below fun j from_k before => absurd before (by omega), fun goes i from_k below' not => ?_⟩
    refine sound i (by omega) below' fun j from_k' before => ?_
    rcases Nat.lt_or_eq_of_le from_k' with later | rfl
    · exact not j later before
    · exact goes
  · rintro ⟨safe, further⟩ i from_k below' not
    rcases Nat.lt_or_eq_of_le from_k with later | rfl
    · exact further (not k le_rfl later) i later below' fun j from_k' => not j (by omega)
    · exact safe

theorem recoverLoop_succ (below : pos < img.dataSize) :
    recoverLoop env img img.dataOffset img.dataSize (f + 1) pos s =
      detectLoop img.mem img.dataOffset img.dataSize f pos ⟨s.temp, 0⟩ s.file >>= afterDetect env img f s := by
  rw [recoverLoop, if_pos below]
  rfl

theorem recoverLoop_end (past : img.dataSize ≤ pos) :
    recoverLoop env img img.dataOffset img.dataSize (f + 1) pos s = pure s.answers := by
  rw [recoverLoop, if_neg (by omega)]

/-- A `pos` that has wrapped is not above the last one. -/
theorem detectLoop_wrapped {file : RecoverFile} {h : Int × List UInt8 × RecoverFile → Traced Trap Nat (List Answer)}
    (some : 0 < img.dataSize) :
    ¬Ends (lo + 1) (detectLoop img.mem img.dataOffset img.dataSize g 0 t file >>= h) := by
  cases g with
  | zero => exact not_ends (by decide)
  | succ g =>
    have marked : ∀ x, ¬Ends (lo + 1) (Traced.mark 0 >>= fun _ => x : Traced Trap Nat (List Answer)) :=
      fun x ends => absurd (ends_mark.1 ends).1 (by omega)
    match run : detectEntry img.mem (img.dataOffset + 0) 0 t file with
    | .error e =>
      rw [detectLoop_error some run]
      exact marked _
    | .ok (t', Option.some file') =>
      rw [detectLoop_found some run]
      exact marked _
    | .ok (t', none) =>
      rw [detectLoop_next some run]
      exact marked _

theorem recoverLoop_wrapped (some : 0 < img.dataSize) :
    ¬Ends (lo + 1) (recoverLoop env img img.dataOffset img.dataSize f 0 s) := by
  cases f with
  | zero => exact not_ends (by decide)
  | succ f =>
    rw [recoverLoop_succ some]
    exact detectLoop_wrapped some

/-- The run goes on behind an entry that is safe. -/
theorem decides_next {x : Nat → Traced Trap Nat (List Answer)} {enough enough' : Prop} (below : 32 * k < img.dataSize)
    (inside : EntryInside img k)
    (file : UsedAt img k → FileSafe env img (sourceAt img k) (sizeAt img.mem (img.entryAt k)) (Nat.count (UsedAt img) k))
    (goes : ¬StoppedAt env img k) (wrapped : ¬Ends (32 * k + 1) (x 0)) (fuel : enough → enough')
    (next : Decides (SoundFrom env img (k + 1)) enough' (32 * k + 1) (x (32 * (k + 1)))) :
    Decides (SoundFrom env img k) enough (32 * k + 1) (x ((32 * k + 32) % 2 ^ 32)) := by
  have small : img.dataSize < 2 ^ 32 := dataSize_lt
  rcases lt_or_ge (32 * k + 32) (2 ^ 32) with low | wraps
  · have same : SoundFrom env img k ↔ SoundFrom env img (k + 1) := by
      rw [soundFrom_iff below]
      exact ⟨fun sound => sound.2 goes, fun sound => ⟨⟨inside, file, fun _ => low⟩, fun _ => sound⟩⟩
    rw [Nat.mod_eq_of_lt low]
    exact next.mono same fuel
  · have last : 32 * k + 32 = 2 ^ 32 := by omega
    rw [last, Nat.mod_self]
    refine ⟨fun ends => absurd ends wrapped, fun sound => ?_⟩
    have further := ((soundFrom_iff below).1 sound).1.further goes
    omega

/-- A run of the loop of `detect_next_direntry` from entry `k` on, in a call from `recover`. -/
def Scans (env : Setting) (img : Image) (n k : Nat) : Prop :=
  ∀ g f lo t s, lo ≤ 32 * k → Buffered (held img k) t → Ready img k s →
    Decides (SoundFrom env img k) (n < g ∧ n < f) lo
      (detectLoop img.mem img.dataOffset img.dataSize g (32 * k) t s.file >>= afterDetect env img f s)

theorem recoverLoop_decides (scans : Scans env img n k) (low : lo ≤ 32 * k) (ready : Ready img k s) (buffered : Buffered (held img k) ⟨s.temp, 0⟩) :
    Decides (SoundFrom env img k) (n + 1 < f) lo (recoverLoop env img img.dataOffset img.dataSize f (32 * k) s) := by
  cases f with
  | zero => exact ⟨fun ends => absurd ends (not_ends (by decide)), fun _ fuel => absurd fuel (by omega)⟩
  | succ f =>
    rcases lt_or_ge (32 * k) img.dataSize with below | past
    · rw [recoverLoop_succ below]
      exact (scans f f lo ⟨s.temp, 0⟩ s low buffered ready).mono Iff.rfl fun fuel => ⟨by omega, by omega⟩
    · rw [recoverLoop_end past]
      exact ⟨fun _ => soundFrom_end past, fun _ _ => ends_pure _⟩

theorem afterDetect_decides (scans : Scans env img n (k + 1)) (below : 32 * k < img.dataSize) (ready : Ready img k s)
    (buffered : Buffered (held img k) t) (inside : EntryInside img k) (bmp : IsBmp img.mem (img.entryAt k)) {name : List UInt8}
    (length : name.length = 512) (ended : 0 ∈ name) :
    Decides (SoundFrom env img k) (n + 1 < f) (32 * k + 1)
      (afterDetect env img f s (Int.bmod (32 * k + 32 : Nat) (2 ^ 32), t.temp,
        ⟨name, sizeAt img.mem (img.entryAt k), clusterAt img.mem (img.entryAt k), 32 * k⟩)) := by
  have some : 0 < img.dataSize := by omega
  have empty : Buffered (held img (k + 1)) ⟨t.temp, 0⟩ := by
    rw [held_bmp bmp]
    exact ⟨buffered.length, rfl, by decide⟩
  have going : (32 * k + 32) % 2 ^ 32 ≠ 2 ^ 32 - 1 := by omega
  unfold afterDetect
  rw [toNat_bmod, if_neg going]
  split
  next none =>
    have unused : ¬UsedAt img k := fun used => none.elim used.2.1 used.2.2
    refine decides_next (x := fun p => recoverLoop env img img.dataOffset img.dataSize f p _) below inside
      (fun used => absurd used unused) (fun stopped => unused stopped.1) (recoverLoop_wrapped some) id
      (recoverLoop_decides scans (by omega) ⟨length, ready.buf, ?_⟩ empty)
    rw [Nat.count_succ, if_neg unused]
    exact ready.answers
  next full =>
    have used : UsedAt img k := ⟨bmp, fun zero => full (.inl zero), fun zero => full (.inr zero)⟩
    have answers := ready.answers
    have cases := @recoverFile_cases env img
      { s with temp := t.temp, file := ⟨name, sizeAt img.mem (img.entryAt k), clusterAt img.mem (img.entryAt k), 32 * k⟩ }
      (sourceAt img k) length ended used.2.1 ready.buf rfl
    dsimp only at cases
    rw [answers] at cases
    rcases cases with ⟨run, notSafe⟩ | ⟨safe, ⟨run, stopped⟩ | ⟨goes, sha1Buf, answer, buf, run⟩⟩
    · rw [run, Traced.lift_error_bind]
      exact Decides.fail (by decide) fun sound => notSafe (((soundFrom_iff below).1 sound).1.file used)
    · have here : StoppedAt env img k := ⟨used, stopped⟩
      rw [run, Traced.lift_error_bind]
      refine ⟨fun _ => (soundFrom_iff below).2 ⟨⟨inside, fun _ => safe, fun goes => absurd here goes⟩, fun goes => absurd here goes⟩,
        fun _ _ => ends_abort⟩
    · rw [run, Traced.lift_ok_bind]
      refine decides_next (x := fun p => recoverLoop env img img.dataOffset img.dataSize f p _) below inside
        (fun _ => safe) (fun stopped => goes stopped.2) (recoverLoop_wrapped some) id
        (recoverLoop_decides scans (by omega) ⟨length, buf, ?_⟩ empty)
      rw [Nat.count_succ, if_pos used, List.length_append, answers, List.length_singleton]

/-- What one entry does, and by induction what all of them do: the scan ends where each entry is safe. -/
theorem scans (n : Nat) : ∀ k, k + n = 2 ^ 27 → Scans env img n k := by
  have small : img.dataSize < 2 ^ 32 := dataSize_lt
  induction n with
  | zero =>
    intro k all g f lo t s low buffered ready
    refine ⟨fun _ => soundFrom_end (by omega), fun _ fuel => ?_⟩
    obtain ⟨g, rfl⟩ : ∃ m, g = m + 1 := ⟨g - 1, by omega⟩
    rw [detectLoop_end (by omega)]
    exact ends_pure _
  | succ n ih =>
    intro k all g f lo t s low buffered ready
    cases g with
    | zero => exact ⟨fun ends => absurd ends (not_ends (by decide)), fun _ fuel => absurd fuel.1 (by omega)⟩
    | succ g =>
      rcases lt_or_ge (32 * k) img.dataSize with below | past
      case inr =>
        rw [detectLoop_end past]
        exact ⟨fun _ => soundFrom_end past, fun _ _ => ends_pure _⟩
      have next := ih (k + 1) (by omega)
      rcases @detectEntry_cases img k (32 * k) t s.file buffered ready.named with
        ⟨run, outside⟩ | ⟨inside, ⟨bmp, name, length, ended, run⟩ | ⟨other, t', buffered', run⟩⟩
      · rw [detectLoop_error below run]
        exact Decides.mark low (Decides.fail (by decide) fun sound => outside ((soundFrom_iff below).1 sound).1.inside)
      · rw [detectLoop_found below run]
        exact Decides.mark low ((afterDetect_decides next below ready buffered inside bmp length ended).mono Iff.rfl fun fuel => fuel.2)
      · have unused : ¬UsedAt img k := fun used => other used.1
        have ready' : Ready img (k + 1) s := by
          refine ⟨ready.named, ready.buf, ?_⟩
          rw [Nat.count_succ, if_neg unused, Nat.add_zero, ready.answers]
        rw [detectLoop_next below run]
        refine Decides.mark low (decides_next
          (x := fun p => detectLoop img.mem img.dataOffset img.dataSize g p t' s.file >>= afterDetect env img f s)
          below inside (fun used => absurd used unused) (fun stopped => unused stopped.1) (detectLoop_wrapped (by omega))
          (fun fuel => ?_) (next g f _ t' s (by omega) buffered' ready'))
        omega

end Runs

/-! ## The whole run -/

section Recover

variable (env : Setting) (img : Image)

/-- **Safe.** With enough fuel the run comes to an end without a fault, and the values of `pos` increase. -/
def Safe : Prop := ∃ enough, ∀ fuel, enough ≤ fuel → Ends 0 (recover env img fuel)

variable {env : Setting} {img : Image} {lo fuel : Nat}

theorem recover_ends : Ends lo (recover env img fuel) ↔
    Ends lo (recoverLoop env img img.dataOffset img.dataSize fuel 0 ⟨List.replicate 512 0, env.file, List.replicate 512 0, []⟩) := by
  unfold recover
  rw [Image.getDataAreaOffset_eq, Traced.lift_ok_bind]
  exact ends_map _

theorem recover_decides (env : Setting) (img : Image) (fuel : Nat) :
    Decides (Sound env img) (2 ^ 27 + 1 < fuel) 0 (recover env img fuel) := by
  have first : Buffered (held img 0) ⟨List.replicate 512 0, 0⟩ := ⟨List.length_replicate, rfl, Nat.zero_le _⟩
  have ready : Ready img 0 ⟨List.replicate 512 0, env.file, List.replicate 512 0, []⟩ :=
    ⟨env.named, List.length_replicate, (Nat.count_zero _).symm⟩
  have loop := recoverLoop_decides (f := fuel) (@scans env img (2 ^ 27) 0 (Nat.zero_add _)) le_rfl ready first
  have same : Sound env img ↔ SoundFrom env img 0 :=
    ⟨fun sound i _ below not => sound i below fun j => not j (Nat.zero_le j),
      fun sound i below not => sound i (Nat.zero_le i) below fun j _ => not j⟩
  exact ⟨fun ends => same.2 (loop.1 (recover_ends.1 ends)), fun sound more => recover_ends.2 (loop.2 (same.1 sound) more)⟩

/-- `recover` is safe exactly for the images of which each entry is. -/
theorem recover_safe_iff (env : Setting) (img : Image) : Safe env img ↔ Sound env img := by
  constructor
  · rintro ⟨enough, ends⟩
    exact (recover_decides env img enough).1 (ends enough le_rfl)
  · exact fun sound => ⟨2 ^ 27 + 2, fun fuel more => (recover_decides env img fuel).2 sound (by omega)⟩

/-- A boot sector of sectors of 512 bytes and no FAT, and 64 long entries that are each flagged as the last. -/
def flaggedByte (i : Nat) : UInt8 :=
  if i < 512 then if i = 12 then 2 else if i = 14 then 1 else 0
  else if i % 32 = 0 then 0x40 else if i % 32 = 11 then 0x0f else 0

def flaggedImage : Image where
  bytes := (List.range 2560).map flaggedByte
  sector := by simp
  small := by simp

theorem byte_flagged {a : Nat} (inside : a < 2560) : byte flaggedImage.mem a = flaggedByte a := by
  unfold byte Image.mem flaggedImage
  rw [List.getElem?_map, List.getElem?_range inside]
  rfl

theorem dataOffset_flagged : flaggedImage.dataOffset = 512 := by
  unfold Image.dataOffset word half
  simp only [byte_flagged (a := 11) (by decide), byte_flagged (a := 11 + 1) (by decide), byte_flagged (a := 14) (by decide),
    byte_flagged (a := 14 + 1) (by decide), byte_flagged (a := 16) (by decide)]
  simp [flaggedByte]

theorem byte_entry {k o : Nat} (inside : k < 64) (below : o < 32) :
    byte flaggedImage.mem (flaggedImage.entryAt k + o) = if o = 0 then 0x40 else if o = 11 then 0x0f else 0 := by
  unfold Image.entryAt
  rw [dataOffset_flagged, byte_flagged (by omega)]
  unfold flaggedByte
  have place : (512 + 32 * k + o) % 32 = o := by omega
  rw [if_neg (by omega), place]

theorem isLong_flagged {k : Nat} (inside : k < 64) :
    IsLong flaggedImage.mem (flaggedImage.entryAt k) ∧ IsLast flaggedImage.mem (flaggedImage.entryAt k) := by
  have first := byte_entry inside (o := 0) (by decide)
  rw [Nat.add_zero] at first
  refine ⟨⟨byte_entry inside (by decide), byte_entry inside (by decide), ?_⟩, ?_⟩
  · unfold half
    rw [byte_entry inside (by decide), Nat.add_assoc, byte_entry inside (by decide)]
    decide
  · unfold IsLast
    rw [first]
    decide

/-- At the 40th piece `temp` overflows. -/
theorem recover_overflows :
    ¬Safe ⟨false, fun _ => true, id, fun _ l => l, ⟨List.replicate 512 0, 0, 0, 0⟩, List.length_replicate⟩ flaggedImage := by
  rintro ⟨enough, ends⟩
  have size : flaggedImage.dataSize = 2048 := by
    unfold Image.dataSize
    rw [dataOffset_flagged]
    simp [flaggedImage]
  have other : ∀ j ≤ 39, ¬IsBmp flaggedImage.mem (flaggedImage.entryAt j) := fun j below =>
    not_isBmp (isLong_flagged (by omega)).1
  have heldAt : ∀ i < 40, HeldAt flaggedImage 39 i := fun i below =>
    ⟨(isLong_flagged (by omega)).1, i, le_rfl, (isLong_flagged (by omega)).1, (isLong_flagged (by omega)).2,
      fun j upto _ => other j upto⟩
  have sound := (recover_decides _ _ enough).1 (ends enough le_rfl)
  have safe := sound 39 (by omega) fun j before stopped => other j (by omega) stopped.1.1
  have few := (safe.inside.piece (heldAt 39 (by decide))).2
  rw [Nat.count_iff_forall.2 heldAt] at few
  omega

end Recover

end OsLab.Frecov
