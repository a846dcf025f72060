import OsLab.Frecov.Model

/-!
# The entries (`detect_next_direntry`)

What the loop of `detect_next_direntry` does at one entry, from the bytes of the entry: a long entry is pushed into `temp`, a
short entry of a BMP file ends the loop, and the others are passed.
-/

namespace OsLab.Frecov

/-! ## The bytes of an entry -/

section Bytes

variable (mem : Bytes)

/-- The byte at an offset, and 0 where there is none. -/
def byte (a : Nat) : UInt8 := (mem a).getD 0

/-- The number in two bytes. -/
def half (a : Nat) : Nat := (byte mem a).toNat + 2 ^ 8 * (byte mem (a + 1)).toNat

/-- The number in four bytes. -/
def word (a : Nat) : Nat := half mem a + 2 ^ 16 * half mem (a + 2)

/-- There are `n` bytes at `a`. -/
def Holds (a n : Nat) : Prop := ∀ i < n, (mem (a + i)).isSome

/-- A long entry that is well formed. -/
def IsLong (e : Nat) : Prop := byte mem (e + 11) = DP_Long ∧ byte mem (e + 12) = 0 ∧ half mem (e + 26) = 0

/-- The flag of the last piece of a name. -/
def IsLast (e : Nat) : Prop := (byte mem e).toNat / 2 ^ 6 % 2 = 1

/-- A short entry that is well formed, of a BMP file. -/
def IsBmp (e : Nat) : Prop :=
  byte mem (e + 11) ≠ DP_Long ∧ byte mem (e + 12) = 0 ∧ count1 (byte mem (e + 11)).toNat = 1 ∧
    byte mem (e + 8) = 66 ∧ byte mem (e + 9) = 77 ∧ byte mem (e + 10) = 80

instance (e : Nat) : Decidable (IsLong mem e) := inferInstanceAs (Decidable (_ ∧ _))

instance (e : Nat) : Decidable (IsLast mem e) := inferInstanceAs (Decidable (_ = _))

instance (e : Nat) : Decidable (IsBmp mem e) := inferInstanceAs (Decidable (_ ∧ _))

/-- The size in a short entry. -/
def sizeAt (e : Nat) : Nat := word mem (e + 28)

/-- The first cluster in a short entry. -/
def clusterAt (e : Nat) : Nat := half mem (e + 20) * 2 ^ 16 + half mem (e + 26)

/-- The low bytes of the characters in a long entry. -/
def charsAt (e : Nat) : List UInt8 := [1, 3, 5, 7, 9, 14, 16, 18, 20, 22, 24, 28, 30].map fun i => byte mem (e + i)

/-- The name in a short entry, with its dot. -/
def shortNameAt (e : Nat) : List UInt8 :=
  (List.range 8).map (fun i => byte mem (e + i)) ++ 46 :: [8, 9, 10].map fun i => byte mem (e + i)

end Bytes

section Reads

variable {mem : Bytes} {a e n m : Nat}

theorem Holds.mono (holds : Holds mem a n) (fewer : m ≤ n) : Holds mem a m := fun i inside => holds i (by omega)

theorem Holds.drop (holds : Holds mem a n) (i : Nat) (inside : i + m ≤ n) : Holds mem (a + i) m := by
  intro j before
  rw [Nat.add_assoc]
  exact holds (i + j) (by omega)

theorem read8_of (holds : (mem a).isSome) : read8 mem a = .ok (byte mem a) := by
  obtain ⟨c, some⟩ := Option.isSome_iff_exists.1 holds
  unfold read8 byte
  rw [some, Trap.check_some, Option.getD_some]

theorem read8_none (none : mem a = none) : read8 mem a = .error .outside := by
  unfold read8
  rw [none, Trap.check_none]

theorem Holds.read8 (holds : Holds mem a n) (i : Nat) (inside : i < n) : read8 mem (a + i) = .ok (byte mem (a + i)) :=
  read8_of (holds i inside)

theorem read16_of (holds : Holds mem a 2) : read16 mem a = .ok (half mem a) := by
  have low := holds.read8 0 (by decide)
  have high := holds.read8 1 (by decide)
  rw [Nat.add_zero] at low
  simp only [read16, low, high, ok_bind]
  rfl

theorem read32_of (holds : Holds mem a 4) : read32 mem a = .ok (word mem a) := by
  have low := read16_of (holds.mono (m := 2) (by decide))
  have high := read16_of (holds.drop 2 (m := 2) (by decide))
  simp only [read32, low, high, ok_bind]
  rfl

theorem getClusterIndex_of (holds : Holds mem e 32) : getClusterIndex mem e = .ok (clusterAt mem e) := by
  simp only [getClusterIndex, read16_of (holds.drop 20 (m := 2) (by decide)), read16_of (holds.drop 26 (m := 2) (by decide)),
    ok_bind]
  rfl

end Reads

/-! ## The buffers -/

section Buffers

variable {mem : Bytes} {text : Nat} {is : List Nat} {done rest name : List UInt8}

theorem pushChars_of (holds : ∀ i ∈ is, (mem (text + i)).isSome) (room : is.length ≤ rest.length) :
    pushChars mem text is ⟨done ++ rest, done.length⟩ =
      .ok ⟨done ++ is.map (fun i => byte mem (text + i)) ++ rest.drop is.length, done.length + is.length⟩ := by
  induction is generalizing done rest with
  | nil => simp [pushChars, pure, Except.pure]
  | cons i is ih =>
    cases rest with
    | nil => simp at room
    | cons c rest =>
      have push := @ih (done ++ [byte mem (text + i)]) rest (fun j member => holds j (List.mem_cons_of_mem i member))
        (Nat.le_of_succ_le_succ room)
      unfold pushChars at push ⊢
      rw [List.foldlM_cons]
      simp only [read8_of (holds i List.mem_cons_self), Trap.put_at rfl, ok_bind]
      simpa [Nat.add_comm, Nat.add_left_comm] using push

/-- Where the buffer is too short the characters go past its end. -/
theorem pushChars_full (holds : ∀ i ∈ is, (mem (text + i)).isSome) (full : rest.length < is.length) :
    pushChars mem text is ⟨done ++ rest, done.length⟩ = .error .outside := by
  induction is generalizing done rest with
  | nil => simp at full
  | cons i is ih =>
    unfold pushChars
    rw [List.foldlM_cons]
    cases rest with
    | nil =>
      have past : Trap.put done done.length (byte mem (text + i)) = .error .outside := by
        unfold Trap.put
        rw [Buffer.put_end (Nat.le_refl _), Trap.check_none]
      simp only [read8_of (holds i List.mem_cons_self), List.append_nil, past, ok_bind, error_bind]
    | cons c rest =>
      have push := @ih (done ++ [byte mem (text + i)]) rest (fun j member => holds j (List.mem_cons_of_mem i member))
        (Nat.lt_of_succ_lt_succ full)
      simp only [read8_of (holds i List.mem_cons_self), Trap.put_at rfl, ok_bind]
      unfold pushChars at push
      simpa using push

theorem put_drop {i : Nat} {c : UInt8} (place : done.length = i) (room : i < name.length) :
    Trap.put (done ++ name.drop i) i c = .ok (done ++ c :: name.drop (i + 1)) := by
  rw [List.drop_eq_getElem_cons room]
  exact Trap.put_at (congrArg Nat.cast place)

/-- A loop that puts characters one behind the other. -/
theorem foldlM_put {α : Type} {l : List α} {get : α → Except Trap UInt8} {place : α → Nat} {value : α → UInt8}
    (ok : ∀ j ∈ l, get j = .ok (value j)) (places : l.map place = List.range' done.length l.length) (room : l.length ≤ rest.length) :
    l.foldlM (fun name j => do
      let c ← get j
      Trap.put name (place j) c) (done ++ rest) = .ok (done ++ l.map value ++ rest.drop l.length) := by
  induction l generalizing done rest with
  | nil => simp [pure, Except.pure]
  | cons j l ih =>
    cases rest with
    | nil => simp at room
    | cons c rest =>
      rw [List.map_cons, List.length_cons, List.range'_succ, List.cons.injEq] at places
      have put := @ih (done ++ [value j]) rest (fun k member => ok k (List.mem_cons_of_mem j member))
        (by simpa using places.2) (Nat.le_of_succ_le_succ room)
      rw [List.foldlM_cons, ok j List.mem_cons_self, ok_bind, places.1, Trap.put_at rfl, ok_bind]
      simpa using put

end Buffers

/-! ## What is done at an entry -/

section Entries

variable {mem : Bytes} {e pos : Nat} {t : Temp} {done rest : List UInt8} {file : RecoverFile}

/-- A piece that goes into `temp`: there is one in front of it, or it is flagged as the last. -/
def Kept (mem : Bytes) (e tempPos : Nat) : Prop := IsLong mem e ∧ (tempPos ≠ 0 ∨ IsLast mem e)

instance (e tempPos : Nat) : Decidable (Kept mem e tempPos) := inferInstanceAs (Decidable (_ ∧ _))

/-- The flag is looked at where `temp` is empty. -/
theorem skipped_of (holds : (mem e).isSome) : skipped mem e t = .ok (decide ¬(t.tempPos ≠ 0 ∨ IsLast mem e)) := by
  unfold skipped isLastLongEntry IsLast
  rw [read8_of holds, ok_bind]
  split
  next empty =>
    rw [ok_bind]
    congr 2
    apply propext
    omega
  next some => simp [some]

theorem longEntry_skip (holds : Holds mem e 13) (cluster : byte mem (e + 12) = 0 → Holds mem e 28)
    (long : byte mem (e + 11) = DP_Long) (not : ¬Kept mem e t.tempPos) : longEntry mem e t = .ok t := by
  unfold longEntry
  rw [holds.read8 12 (by decide), ok_bind]
  split
  · rfl
  next zero =>
    have holds := cluster (not_not.1 zero)
    have start : (mem e).isSome := holds 0 (by decide)
    rw [read16_of (holds.drop 26 (m := 2) (by decide)), ok_bind]
    split
    · rfl
    next none =>
      have passed : ¬(t.tempPos ≠ 0 ∨ IsLast mem e) := fun kept => not ⟨⟨long, not_not.1 zero, not_not.1 none⟩, kept⟩
      rw [skipped_of start, decide_eq_true passed]
      rfl

/-- Where in a long entry its characters are, the last first. -/
def charPlaces : List Nat := [30, 28, 24, 22, 20, 18, 16, 14, 9, 7, 5, 3, 1]

theorem pushChars_shift (text d : Nat) (is : List Nat) : pushChars mem (text + d) is t = pushChars mem text (is.map (d + ·)) t := by
  unfold pushChars
  simp only [List.foldlM_map, Nat.add_assoc]

theorem pushChars_append (text : Nat) (is js : List Nat) :
    pushChars mem text (is ++ js) t = pushChars mem text is t >>= fun t => pushChars mem text js t := List.foldlM_append

/-- At a piece that is kept the characters are pushed. -/
theorem longEntry_kept (holds : Holds mem e 28) (kept : Kept mem e t.tempPos) :
    longEntry mem e t = pushChars mem e charPlaces t := by
  obtain ⟨⟨-, reserved, cluster⟩, kept⟩ := kept
  have start : (mem e).isSome := holds 0 (by decide)
  have places : charPlaces = [30, 28] ++ ([24, 22, 20, 18, 16, 14] ++ [9, 7, 5, 3, 1]) := rfl
  unfold longEntry
  rw [holds.read8 12 (by decide), ok_bind, if_neg (not_not.2 reserved), read16_of (holds.drop 26 (m := 2) (by decide)), ok_bind,
    if_neg (not_not.2 cluster), skipped_of start, decide_eq_false (not_not.2 kept), places, pushChars_append]
  simp only [pushChars_append, pushChars_shift, ok_bind]
  rfl

theorem places_inside (holds : Holds mem e 31) : ∀ i ∈ charPlaces, (mem (e + i)).isSome := by
  intro i member
  exact holds i ((by decide : ∀ i ∈ charPlaces, i < 31) i member)

theorem longEntry_push (holds : Holds mem e 31) (kept : Kept mem e done.length) (room : 13 ≤ rest.length) :
    longEntry mem e ⟨done ++ rest, done.length⟩ =
      .ok ⟨done ++ (charsAt mem e).reverse ++ rest.drop 13, done.length + 13⟩ := by
  rw [longEntry_kept (holds.mono (by decide)) kept, pushChars_of (places_inside holds) room]
  rfl

theorem longEntry_full (holds : Holds mem e 31) (kept : Kept mem e done.length) (full : rest.length < 13) :
    longEntry mem e ⟨done ++ rest, done.length⟩ = .error .outside := by
  rw [longEntry_kept (holds.mono (by decide)) kept, pushChars_full (places_inside holds) full]

/-- The text of the name that a file gets. -/
def nameFor (mem : Bytes) (e : Nat) (done : List UInt8) : List UInt8 := if done = [] then shortNameAt mem e else done.reverse

theorem length_shortNameAt : (shortNameAt mem e).length = 12 := by simp [shortNameAt]

theorem length_nameFor (few : done.length ≤ 507) : (nameFor mem e done).length ≤ 507 := by
  unfold nameFor
  split
  · rw [length_shortNameAt]
    decide
  · rwa [List.length_reverse]

/-- What is in the buffer, from the last character to the first. -/
theorem load_reversed {j : Nat} (inside : j < done.length) :
    Trap.load (done ++ rest) (done.length - 1 - j) = .ok (done.reverse.getD j 0) := by
  have place : (done.length - 1 - j : Int) = (done.length - 1 - j : Nat) := by omega
  unfold Trap.load
  rw [place, Buffer.load_natCast, List.getElem?_append_left (by omega), ← List.getElem?_reverse inside, List.getD_eq_getElem?_getD]
  rw [List.getElem?_eq_getElem (by simpa using inside)]
  rfl

theorem map_getD_range (l : List UInt8) : (List.range l.length).map (fun j => l.getD j 0) = l := by
  refine List.ext_getElem (by simp) fun i inside inside' => ?_
  simp [List.getD_eq_getElem?_getD, inside']

theorem fileName_long {name : List UInt8} (some : done ≠ []) (room : done.length < name.length) :
    fileName mem e ⟨done ++ rest, done.length⟩ name = .ok (done.reverse ++ 0 :: name.drop (done.length + 1)) := by
  have put := @foldlM_put [] name Nat (List.range done.length) (fun j => Trap.load (done ++ rest) (done.length - 1 - j)) id
    (fun j => done.reverse.getD j 0) (fun j member => load_reversed (List.mem_range.1 member)) (by simp [List.range_eq_range']) (by simpa using room.le)
  have values := map_getD_range done.reverse
  rw [List.length_reverse] at values
  rw [List.length_range, values, List.nil_append, List.nil_append] at put
  unfold fileName
  rw [if_pos (List.length_pos_of_ne_nil some)]
  simp only [id] at put
  simp only [put, ok_bind]
  exact put_drop (List.length_reverse) room

theorem copyChars_of {name : List UInt8} {js : List (Nat × Nat)} {text n : Nat} (holds : ∀ j ∈ js, (mem (text + j.2)).isSome)
    (length : done.length = n) (places : js.map Prod.fst = List.range' n js.length) (room : n + js.length ≤ name.length) :
    copyChars mem text js (done ++ name.drop n) =
      .ok (done ++ js.map (fun j => byte mem (text + j.2)) ++ name.drop (n + js.length)) := by
  subst length
  rw [← List.drop_drop]
  exact foldlM_put (fun j member => read8_of (holds j member)) places (by rw [List.length_drop]; omega)

theorem fileName_short {name temp : List UInt8} (holds : Holds mem e 11) (room : name.length = 512) :
    fileName mem e ⟨temp, 0⟩ name = .ok (shortNameAt mem e ++ 0 :: name.drop 13) := by
  let stem := (List.range 8).map fun i => byte mem (e + i)
  let ext := [8, 9, 10].map fun i => byte mem (e + i)
  have first : copyChars mem e ((List.range 8).map fun jpos => (jpos, jpos)) name = .ok (stem ++ name.drop 8) :=
    @copyChars_of mem [] name _ e 0 (fun j member => holds _ (by grind)) rfl (by decide) (by simp [room])
  have dot : Trap.put (stem ++ name.drop 8) 8 46 = .ok (stem ++ 46 :: name.drop 9) := put_drop rfl (by omega)
  have second : copyChars mem (e + 8) ([9, 10, 11].map fun jpos => (jpos, jpos - 9)) (stem ++ 46 :: name.drop 9) =
      .ok (stem ++ [46] ++ ext ++ name.drop 12) := by
    have copied := @copyChars_of mem (stem ++ [46]) name ([9, 10, 11].map fun jpos => (jpos, jpos - 9)) (e + 8) 9
      (fun j member => holds.drop 8 (m := 3) (by decide) _ (by grind)) rfl (by decide) (by simp [room])
    rwa [List.append_assoc] at copied
  have ended : Trap.put (stem ++ [46] ++ ext ++ name.drop 12) 12 0 = .ok (stem ++ [46] ++ ext ++ 0 :: name.drop 13) :=
    put_drop rfl (by omega)
  have whole : shortNameAt mem e = stem ++ [46] ++ ext := (List.append_assoc stem [46] ext).symm
  unfold fileName
  rw [if_neg (Nat.lt_irrefl 0), first, ok_bind, dot, ok_bind, second, ok_bind, ended, whole]

/-- The file of a short entry. -/
theorem shortEntry_found (holds : Holds mem e 32) (bmp : IsBmp mem e) (room : done.length < 512) (named : file.name.length = 512) :
    shortEntry mem e pos ⟨done ++ rest, done.length⟩ file =
      .ok (some ⟨nameFor mem e done ++ 0 :: file.name.drop ((nameFor mem e done).length + 1), sizeAt mem e, clusterAt mem e, pos⟩) := by
  obtain ⟨-, reserved, single, first, second, third⟩ := bmp
  have name : fileName mem e ⟨done ++ rest, done.length⟩ file.name =
      .ok (nameFor mem e done ++ 0 :: file.name.drop ((nameFor mem e done).length + 1)) := by
    unfold nameFor
    split
    next empty =>
      rw [empty, length_shortNameAt]
      exact fileName_short (holds.mono (by decide)) named
    next some =>
      rw [List.length_reverse]
      exact fileName_long some (by omega)
  unfold shortEntry
  rw [holds.read8 12 (by decide), ok_bind, if_neg (not_not.2 reserved), holds.read8 11 (by decide), ok_bind,
    if_neg (not_not.2 single), holds.read8 8 (by decide), ok_bind, if_neg (not_not.2 first), holds.read8 9 (by decide), ok_bind,
    if_neg (not_not.2 second), holds.read8 10 (by decide), ok_bind, if_neg (not_not.2 third),
    read32_of (holds.drop 28 (m := 4) (by decide)), ok_bind, getClusterIndex_of holds, ok_bind, name]
  rfl

/-- The extension and the attributes are looked at one after another. -/
theorem shortEntry_pass (holds : Holds mem e 13) (short : byte mem (e + 11) ≠ DP_Long) (not : ¬IsBmp mem e) :
    shortEntry mem e pos t file = .ok none := by
  unfold shortEntry
  rw [holds.read8 12 (by decide), holds.read8 11 (by decide), holds.read8 8 (by decide), holds.read8 9 (by decide),
    holds.read8 10 (by decide)]
  simp only [ok_bind]
  unfold IsBmp at not
  grind

/-! ### One entry -/

theorem detectEntry_pass (holds : Holds mem e 13)
    (cluster : byte mem (e + 11) = DP_Long → byte mem (e + 12) = 0 → Holds mem e 28)
    (long : ¬Kept mem e t.tempPos) (short : ¬IsBmp mem e) : detectEntry mem e pos t file = .ok (t, none) := by
  unfold detectEntry
  rw [holds.read8 11 (by decide), ok_bind]
  split
  next kind => rw [longEntry_skip holds (cluster kind) kind long, ok_bind]
  next kind => rw [shortEntry_pass holds kind short, ok_bind]

theorem detectEntry_push (holds : Holds mem e 31) (kept : Kept mem e done.length) (room : 13 ≤ rest.length) :
    detectEntry mem e pos ⟨done ++ rest, done.length⟩ file =
      .ok (⟨done ++ (charsAt mem e).reverse ++ rest.drop 13, done.length + 13⟩, none) := by
  unfold detectEntry
  rw [holds.read8 11 (by decide), ok_bind, if_pos kept.1.1, longEntry_push holds kept room, ok_bind]

theorem detectEntry_full (holds : Holds mem e 31) (kept : Kept mem e done.length) (full : rest.length < 13) :
    detectEntry mem e pos ⟨done ++ rest, done.length⟩ file = .error .outside := by
  unfold detectEntry
  rw [holds.read8 11 (by decide), ok_bind, if_pos kept.1.1, longEntry_full holds kept full, error_bind]

theorem detectEntry_found (holds : Holds mem e 32) (bmp : IsBmp mem e) (room : done.length < 512) (named : file.name.length = 512) :
    detectEntry mem e pos ⟨done ++ rest, done.length⟩ file =
      .ok (⟨done ++ rest, done.length⟩,
        some ⟨nameFor mem e done ++ 0 :: file.name.drop ((nameFor mem e done).length + 1), sizeAt mem e, clusterAt mem e, pos⟩) := by
  unfold detectEntry
  rw [holds.read8 11 (by decide), ok_bind, if_neg bmp.1, shortEntry_found holds bmp room named, ok_bind]

/-! ### The loop -/

/-- The `int` that is returned gives `pos` back. -/
theorem toNat_bmod (p : Nat) : (Int.bmod p (2 ^ 32) % 2 ^ 32).toNat = p % 2 ^ 32 := by
  have same : Int.bmod p (2 ^ 32) % (2 ^ 32 : Nat) = p % (2 ^ 32 : Nat) := Int.bmod_emod
  omega

section Loop

variable {α : Type} {start size fuel : Nat} {t' : Temp} {file' : RecoverFile} {fault : Trap}
  {h : Int × List UInt8 × RecoverFile → Traced Trap Nat α}

theorem detectLoop_error (below : pos < size) (run : detectEntry mem (start + pos) pos t file = .error fault) :
    (detectLoop mem start size (fuel + 1) pos t file >>= h) = Traced.mark pos >>= fun _ => .lift (.error fault) := by
  rw [detectLoop, if_pos below, run]
  rfl

theorem detectLoop_found (below : pos < size) (run : detectEntry mem (start + pos) pos t file = .ok (t', some file')) :
    (detectLoop mem start size (fuel + 1) pos t file >>= h) =
      Traced.mark pos >>= fun _ => h (Int.bmod (pos + 32 : Nat) (2 ^ 32), t'.temp, file') := by
  rw [detectLoop, if_pos below, run]
  rfl

theorem detectLoop_next (below : pos < size) (run : detectEntry mem (start + pos) pos t file = .ok (t', none)) :
    (detectLoop mem start size (fuel + 1) pos t file >>= h) =
      Traced.mark pos >>= fun _ => detectLoop mem start size fuel ((pos + 32) % 2 ^ 32) t' file >>= h := by
  rw [detectLoop, if_pos below, run, Traced.bind_assoc]
  rfl

theorem detectLoop_end (past : size ≤ pos) :
    (detectLoop mem start size (fuel + 1) pos t file >>= h) = h (-1, t.temp, file) := by
  rw [detectLoop, if_neg (by omega), Traced.pure_bind]

end Loop

end Entries

end OsLab.Frecov
