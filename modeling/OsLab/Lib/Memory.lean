import Mathlib.Tactic.Ring

/-!
# Flat byte memory

A memory is a total function from addresses to bytes. Every write is a `store`
of a byte function over a half-open range, so one frame law
(`store_outside`) serves words, fills and copies. Words are little-endian and
32 bits wide; `read32` reads them as naturals below `2 ^ 32`, `readInt32` in two's
complement.
-/

namespace OsLab.Memory

/-- One byte at every address. -/
abbrev Mem := Nat → UInt8

/-- Overwrite `[a, a + n)` with the bytes `f 0, f 1, ...`. -/
def store (m : Mem) (a n : Nat) (f : Nat → UInt8) : Mem :=
  fun x => if a ≤ x ∧ x < a + n then f (x - a) else m x

/-- The ranges `[a, a + n)` and `[b, b + k)` share no address. -/
abbrev Apart (a n b k : Nat) : Prop := a + n ≤ b ∨ b + k ≤ a

/-- `m` and `m'` hold the same bytes on `[a, a + n)`. -/
def AgreeOn (m m' : Mem) (a n : Nat) : Prop := ∀ x, a ≤ x → x < a + n → m' x = m x

theorem store_outside {m : Mem} {a n x : Nat} {f : Nat → UInt8} (h : x < a ∨ a + n ≤ x) :
    store m a n f x = m x := by
  unfold store
  rw [if_neg (by omega)]

theorem store_inside {m : Mem} {a n x : Nat} {f : Nat → UInt8} (h : a ≤ x) (h' : x < a + n) :
    store m a n f x = f (x - a) := by
  unfold store
  rw [if_pos ⟨h, h'⟩]

/-- A store leaves every range apart from its own alone. -/
theorem agreeOn_store {m : Mem} {a n b k : Nat} {f : Nat → UInt8} (h : Apart a n b k) :
    AgreeOn m (store m a n f) b k := by
  intro x hx hx'
  exact store_outside (by omega)

theorem AgreeOn.refl (m : Mem) (a n : Nat) : AgreeOn m m a n := fun _ _ _ => rfl

theorem AgreeOn.trans {m₁ m₂ m₃ : Mem} {a n : Nat} (h : AgreeOn m₁ m₂ a n)
    (h' : AgreeOn m₂ m₃ a n) : AgreeOn m₁ m₃ a n :=
  fun x hx hx' => (h' x hx hx').trans (h x hx hx')

theorem AgreeOn.sub {m m' : Mem} {a n b k : Nat} (h : AgreeOn m m' a n) (lo : a ≤ b)
    (hi : b + k ≤ a + n) : AgreeOn m m' b k :=
  fun x hx hx' => h x (by omega) (by omega)

/-- A later store over the same range wins. -/
theorem store_store (m : Mem) (a n : Nat) (f g : Nat → UInt8) :
    store (store m a n f) a n g = store m a n g := by
  funext x
  by_cases inside : a ≤ x ∧ x < a + n
  · rw [store_inside inside.1 inside.2, store_inside inside.1 inside.2]
  · rw [store_outside (by omega), store_outside (by omega), store_outside (by omega)]

/-- Storing what is there changes nothing. -/
theorem store_readback (m : Mem) (a n : Nat) : store m a n (fun k => m (a + k)) = m := by
  funext x
  by_cases inside : a ≤ x ∧ x < a + n
  · rw [store_inside inside.1 inside.2, Nat.add_sub_cancel' inside.1]
  · exact store_outside (by omega)

/-- A change of a buffer before it is stored is a change of the memory after it is stored. -/
theorem store_of_store {m : Mem} {a n o k : Nat} {f g : Nat → UInt8} (h : o + k ≤ n) :
    store m a n (store g o k f) = store (store m a n g) (a + o) k f := by
  funext x
  by_cases inside : a ≤ x ∧ x < a + n
  · rw [store_inside inside.1 inside.2]
    by_cases changed : a + o ≤ x ∧ x < a + o + k
    · rw [store_inside (by omega) (by omega), store_inside changed.1 changed.2, Nat.sub_sub]
    · rw [store_outside (by omega), store_outside (by omega), store_inside inside.1 inside.2]
  · rw [store_outside (by omega), store_outside (by omega), store_outside (by omega)]

/-- Two stores one behind the other are one store. -/
theorem store_append (m : Mem) (a n k : Nat) (f : Nat → UInt8) :
    store (store m a n f) (a + n) k (fun i => f (n + i)) = store m a (n + k) f := by
  funext x
  by_cases first : a ≤ x ∧ x < a + n
  · rw [store_outside (by omega), store_inside first.1 first.2, store_inside first.1 (by omega)]
  · by_cases second : a + n ≤ x ∧ x < a + n + k
    · rw [store_inside second.1 second.2, store_inside (by omega) (by omega), show n + (x - (a + n)) = x - a by omega]
    · rw [store_outside (by omega), store_outside (by omega), store_outside (by omega)]

theorem store_zero (m : Mem) (a : Nat) (f : Nat → UInt8) : store m a 0 f = m := by
  funext x
  exact store_outside (by omega)

/-- Only the bytes that are stored matter. -/
theorem store_congr {m : Mem} {a n : Nat} {f g : Nat → UInt8} (same : ∀ k < n, f k = g k) : store m a n f = store m a n g := by
  funext x
  by_cases inside : a ≤ x ∧ x < a + n
  · rw [store_inside inside.1 inside.2, store_inside inside.1 inside.2, same _ (by omega)]
  · rw [store_outside (by omega), store_outside (by omega)]

/-! ## Little-endian words -/

/-- The 32-bit word at `a`. -/
def read32 (m : Mem) (a : Nat) : Nat :=
  (m a).toNat + 2 ^ 8 * (m (a + 1)).toNat + 2 ^ 16 * (m (a + 2)).toNat +
    2 ^ 24 * (m (a + 3)).toNat

/-- Store the low 32 bits of `v` at `a`. -/
def write32 (m : Mem) (a v : Nat) : Mem :=
  store m a 4 fun k => UInt8.ofNat (v / 2 ^ (8 * k))

theorem read32_lt (m : Mem) (a : Nat) : read32 m a < 2 ^ 32 := by
  have h0 := (m a).toNat_lt
  have h1 := (m (a + 1)).toNat_lt
  have h2 := (m (a + 2)).toNat_lt
  have h3 := (m (a + 3)).toNat_lt
  unfold read32
  omega

theorem read32_congr {m m' : Mem} {a : Nat} (h : AgreeOn m m' a 4) : read32 m' a = read32 m a := by
  unfold read32
  rw [h a (by omega) (by omega), h (a + 1) (by omega) (by omega), h (a + 2) (by omega) (by omega),
    h (a + 3) (by omega) (by omega)]

theorem read32_store {m : Mem} {a n b : Nat} {f : Nat → UInt8} (h : Apart a n b 4) :
    read32 (store m a n f) b = read32 m b :=
  read32_congr (agreeOn_store h)

theorem read32_write32 (m : Mem) (a v : Nat) : read32 (write32 m a v) a = v % 2 ^ 32 := by
  unfold read32 write32
  rw [store_inside (by omega) (by omega), store_inside (by omega) (by omega),
    store_inside (by omega) (by omega), store_inside (by omega) (by omega)]
  simp only [Nat.sub_self, Nat.add_sub_cancel_left, UInt8.toNat_ofNat']
  omega

/-- A stored word reads back when it fits. -/
theorem read32_write32_of_lt {m : Mem} {a v : Nat} (h : v < 2 ^ 32) :
    read32 (write32 m a v) a = v := by
  rw [read32_write32, Nat.mod_eq_of_lt h]

theorem read32_write32_apart {m : Mem} {a b v : Nat} (h : Apart a 4 b 4) :
    read32 (write32 m a v) b = read32 m b :=
  read32_store h

theorem agreeOn_write32 {m : Mem} {a b k v : Nat} (h : Apart a 4 b k) :
    AgreeOn m (write32 m a v) b k :=
  agreeOn_store h

/-- A word that is copied is four bytes that are copied. -/
theorem write32_read32 (m g : Mem) (a b : Nat) : write32 m a (read32 g b) = store m a 4 fun k => g (b + k) := by
  funext x
  unfold write32
  by_cases inside : a ≤ x ∧ x < a + 4
  · rw [store_inside inside.1 inside.2, store_inside inside.1 inside.2]
    have h0 := (g b).toNat_lt
    have h1 := (g (b + 1)).toNat_lt
    have h2 := (g (b + 2)).toNat_lt
    have h3 := (g (b + 3)).toNat_lt
    rw [← UInt8.toNat_inj, UInt8.toNat_ofNat', read32]
    obtain byte | byte | byte | byte : x - a = 0 ∨ x - a = 1 ∨ x - a = 2 ∨ x - a = 3 := by omega
    · rw [byte, Nat.add_zero b]
      omega
    all_goals
      rw [byte]
      omega
  · rw [store_outside (by omega), store_outside (by omega)]

/-- The bytes of a record of words. -/
def wordBytes (f : Nat → Nat) : Nat → UInt8 := fun k => UInt8.ofNat (f (k / 4) / 2 ^ (8 * (k % 4)))

/-- Store a record of `n` words at `a`. -/
def writeWords (m : Mem) (a n : Nat) (f : Nat → Nat) : Mem := store m a (4 * n) (wordBytes f)

/-- Each word of a stored record reads back. -/
theorem read32_writeWords {m : Mem} {a n j : Nat} {f : Nat → Nat} (h : j < n) (fits : f j < 2 ^ 32) :
    read32 (writeWords m a n f) (a + 4 * j) = f j := by
  have word : ∀ i < 4, writeWords m a n f (a + 4 * j + i) = UInt8.ofNat (f j / 2 ^ (8 * i)) := by
    intro i hi
    have index : (4 * j + i) / 4 = j ∧ (4 * j + i) % 4 = i := by omega
    unfold writeWords
    rw [store_inside (by omega) (by omega), Nat.add_assoc, Nat.add_sub_cancel_left, wordBytes,
      index.1, index.2]
  unfold read32
  rw [← Nat.add_zero (a + 4 * j), word 0 (by omega), Nat.add_zero, word 1 (by omega),
    word 2 (by omega), word 3 (by omega)]
  simp only [UInt8.toNat_ofNat']
  omega

/-! ## Signed words -/

/-- Two's complement reading of a 32-bit word. -/
def toInt32 (n : Nat) : Int := if n < 2 ^ 31 then n else n - 2 ^ 32

/-- The 32-bit pattern of an integer. -/
def ofInt32 (i : Int) : Nat := (i % 2 ^ 32).toNat

/-- Integers a 32-bit `int` can hold. -/
def FitsInt32 (i : Int) : Prop := -2 ^ 31 ≤ i ∧ i < 2 ^ 31

instance (i : Int) : Decidable (FitsInt32 i) := inferInstanceAs (Decidable (_ ∧ _))

theorem ofInt32_lt (i : Int) : ofInt32 i < 2 ^ 32 := by
  unfold ofInt32
  omega

theorem toInt32_ofInt32 {i : Int} (h : FitsInt32 i) : toInt32 (ofInt32 i) = i := by
  unfold FitsInt32 at h
  unfold toInt32 ofInt32
  split <;> omega

theorem ofInt32_natCast {n : Nat} (h : n < 2 ^ 32) : ofInt32 n = n := by
  unfold ofInt32
  omega

theorem fits_toInt32 {n : Nat} (h : n < 2 ^ 32) : FitsInt32 (toInt32 n) := by
  unfold FitsInt32 toInt32
  split <;> omega

/-- The signed word at `a`. -/
def readInt32 (m : Mem) (a : Nat) : Int := toInt32 (read32 m a)

def writeInt32 (m : Mem) (a : Nat) (v : Int) : Mem := write32 m a (ofInt32 v)

theorem readInt32_congr {m m' : Mem} {a : Nat} (h : AgreeOn m m' a 4) :
    readInt32 m' a = readInt32 m a := by
  unfold readInt32
  rw [read32_congr h]

theorem readInt32_writeInt32 {m : Mem} {a : Nat} {v : Int} (h : FitsInt32 v) :
    readInt32 (writeInt32 m a v) a = v := by
  unfold readInt32 writeInt32
  rw [read32_write32_of_lt (ofInt32_lt v), toInt32_ofInt32 h]

theorem readInt32_writeInt32_apart {m : Mem} {a b : Nat} {v : Int} (h : Apart a 4 b 4) :
    readInt32 (writeInt32 m a v) b = readInt32 m b :=
  readInt32_congr (agreeOn_write32 h)

theorem writeInt32_outside {m : Mem} {a x : Nat} {v : Int} (h : x < a ∨ a + 4 ≤ x) :
    writeInt32 m a v x = m x := by
  unfold writeInt32 write32
  exact store_outside h

theorem store_writeInt32 {m : Mem} {g : Nat → UInt8} {a n o : Nat} {v : Int} (h : o + 4 ≤ n) :
    store m a n (writeInt32 g o v) = writeInt32 (store m a n g) (a + o) v := by
  unfold writeInt32 write32
  exact store_of_store h

theorem fits_readInt32 (m : Mem) (a : Nat) : FitsInt32 (readInt32 m a) :=
  fits_toInt32 (read32_lt m a)

end OsLab.Memory
