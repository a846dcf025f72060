import OsLab.Klib.Correct
import OsLab.Kernel.Blkfs.Written
import OsLab.Kernel.Io.FirstLine
import OsLab.Kernel.Shell.Model

/-!
# Registered commands

At boot the address of each handler is written as a decimal number to a file of `/bin`, and `execute_command` reads it
back with `atoi`. What `sprintf` prints with `%u`, and with `%d` but for the most negative `int`, is what `atoi` takes
for the same number.
-/

namespace OsLab.Kernel.Shell

open OsLab.Klib OsLab.Memory OsLab.Triples OsLab.Decimal OsLab.Kernel.Io
open OsLab.Kernel.Blkfs (Info Disk Inode fsLookup inodeOf contents)
open OsLab.Kernel.Vfs (Quiet Task)

/-! ## The boot -/

/-- `initrd_write` -/
def initrdWrite (fs : Info) (d : Disk) (path : CStr) (buf : Mem) (count : UInt32) : Except Halt Disk := do
  let f ← fsLookup fs d path
  let (res, f, d) ← Blkfs.inodeOpen fs d f .fileWrite
  kassert (res = 0) "failed"
  let (res, f, d) ← Blkfs.inodeWrite fs d f buf count.toNat
  kassert (res = count.toNat) "failed"
  kassert (f.ptr ≠ none) "failed"
  .ok d

/-- The registration of a command: `path` and `buf` have 128 bytes, `vsn` is the buffer of `vsnprintf`. -/
def registerCommand (fs : Info) (below : Nat → UInt8) (d : Disk) (vsn path buf : List UInt8) (head : CStr)
    (handler : UInt32) : Except Halt (Disk × List UInt8 × List UInt8 × List UInt8) := do
  let (_, path, vsn) ← sprintf below vsn path (text "/bin/%s") [.str head]
  let (_, buf, vsn) ← sprintf below vsn buf (text "%u") [.word handler]
  let d ← initrdWrite fs d (stringOf path) (fun i => buf.getD i 0) (UInt32.ofNat (strlen (stringOf buf)))
  .ok (d, vsn, path, buf)

/-! ## Printing and reading a number -/

section Numbers

variable {n : Nat} {below : Nat → UInt8} {buffer out : List UInt8} {w : UInt32}

/-- The two ways to print a number in decimal. -/
theorem numeral_decimal (n : Nat) : numeral 10 n = decimal n := by
  have digit : ∀ d < 10, UInt8.ofNat (Nat.digitChar d).toNat = digitChar d := by decide
  have loop : ∀ fuel n, n < fuel → (Nat.toDigits 10 n).map (fun c => UInt8.ofNat c.toNat) = (digitsFrom fuel n).reverse := by
    intro fuel
    induction fuel with
    | zero => exact fun n wrong => absurd wrong (Nat.not_lt_zero n)
    | succ fuel ih =>
      intro n enough
      rw [digitsFrom]
      by_cases small : n < 10
      · simp [Nat.toDigits_of_lt_base small, small, digit n small]
      · rw [Nat.toDigits_of_base_le (by decide) (Nat.not_lt.1 small), if_neg small, List.reverse_cons, ← ih (n / 10) (by omega)]
        simp [digit (n % 10) (Nat.mod_lt n (by decide))]
  exact loop (n + 1) n (Nat.lt_succ_self n)

/-- `atoi` folds the digits from the left. -/
theorem atoiLoop_digits (f : Int) (acc : Nat) {ds : CStr} (digits : ∀ c ∈ ds, isDigit c = true)
    (small : ds.foldl (fun acc c => 10 * acc + (c.toNat - 48)) acc < 2 ^ 62) :
    atoiLoop ds acc f = .ok (some ((ds.foldl (fun acc c => 10 * acc + (c.toNat - 48)) acc : Nat), f)) := by
  induction ds generalizing acc with
  | nil => rfl
  | cons c ds ih =>
    obtain ⟨first, later⟩ := List.forall_mem_cons.1 digits
    have range : 48 ≤ c.toNat ∧ c.toNat ≤ 57 := of_decide_eq_true first
    have minus : c ≠ 45 := by
      rintro rfl
      revert range
      decide
    have inRange : 48 ≤ c ∧ c ≤ 57 := range
    have grown : 10 * acc + (c.toNat - 48) ≤ ds.foldl (fun acc c => 10 * acc + (c.toNat - 48)) (10 * acc + (c.toNat - 48)) :=
      foldl_digits_le ds _
    rw [List.foldl_cons] at small ⊢
    have next : (acc : Int) * 10 + c.toNat - 48 = (10 * acc + (c.toNat - 48) : Nat) := by omega
    rw [atoiLoop, if_neg minus, if_pos inRange, if_pos (by omega), next]
    exact ih _ later small

theorem atoi_decimal (word : n < 2 ^ 32) : atoi (decimal n) = .ok (some n) := by
  have value : (decimal n).foldl (fun acc c => 10 * acc + (c.toNat - 48)) 0 = n := digitsValue_decimal n
  have loop := atoiLoop_digits 1 0 (isDigit_decimal (n := n)) (by omega)
  rw [value] at loop
  unfold atoi
  rw [show ((0 : Nat) : Int) = 0 from rfl] at loop
  rw [loop]
  simp

theorem atoi_minus (word : n < 2 ^ 32) : atoi (45 :: decimal n) = .ok (some (-n)) := by
  have value : (decimal n).foldl (fun acc c => 10 * acc + (c.toNat - 48)) 0 = n := digitsValue_decimal n
  have loop := atoiLoop_digits (-1) 0 (isDigit_decimal (n := n)) (by omega)
  rw [value] at loop
  unfold atoi
  rw [show ((0 : Nat) : Int) = 0 from rfl] at loop
  rw [atoiLoop, if_pos rfl, loop]
  simp

/-- One conversion, without a width, into a buffer with room for it. -/
theorem sprintf_conv {c : Conv} (size : buffer.length = bufferSize) (fits : c.spelled.length ≤ 399)
    (room : c.spelled.length < out.length) (char : ∀ w, c ≠ .c w) (least : ∀ w, c = .d w → toInt32 w.toNat ≠ -2 ^ 31) :
    ∃ b, b.length = bufferSize ∧ sprintf below buffer out [37, c.letter] [c.arg] =
      .ok (c.spelled.length, c.spelled ++ 0 :: out.drop (c.spelled.length + 1), b) := by
  have text : spelled [.conv none c] = c.spelled := by simp [spelled, Piece.spelled, padded, widthOf]
  have fit : ∀ p ∈ [Piece.conv none c], p.spelled.length ≤ 399 := by
    simpa [Piece.spelled, padded, widthOf] using fits
  have chars : CharsPlain [.conv none c] := by
    intro width w member
    simp only [List.mem_singleton, Piece.conv.injEq] at member
    exact absurd member.2.symm (char w)
  have other : NoLeast [.conv none c] := by
    intro width w member
    simp only [List.mem_singleton, Piece.conv.injEq] at member
    exact least w member.2.symm
  rw [← text] at fits room ⊢
  exact vsnprintf_spelled below (2 ^ 32 - 1) out size fit chars other (by omega) (by omega) (by omega) room

theorem sprintf_u (below : Nat → UInt8) (w : UInt32) (size : buffer.length = bufferSize) (room : 12 ≤ out.length) :
    ∃ b, b.length = bufferSize ∧ sprintf below buffer out (text "%u") [.word w] = .ok ((decimal w.toNat).length,
      decimal w.toNat ++ 0 :: out.drop ((decimal w.toNat).length + 1), b) := by
  have word := w.toNat_lt
  have short : (decimal w.toNat).length ≤ 10 := length_decimal_le (by decide) (by omega)
  rw [← numeral_decimal] at short ⊢
  exact sprintf_conv (c := .u w) size (by simp [Conv.spelled]; omega) (by simp [Conv.spelled]; omega) nofun nofun

/-- The text that `%d` prints. -/
theorem decimalInt_eq (v : Int) : decimalInt v = if v < 0 then 45 :: decimal v.natAbs else decimal v.natAbs := by
  rw [decimalInt, numeral_decimal]

theorem sprintf_d (below : Nat → UInt8) (size : buffer.length = bufferSize) (room : 12 ≤ out.length) (least : toInt32 w.toNat ≠ -2 ^ 31) :
    ∃ b, b.length = bufferSize ∧ sprintf below buffer out (text "%d") [.word w] = .ok ((decimalInt (toInt32 w.toNat)).length,
      decimalInt (toInt32 w.toNat) ++ 0 :: out.drop ((decimalInt (toInt32 w.toNat)).length + 1), b) := by
  have fits : FitsInt32 (toInt32 w.toNat) := fits_toInt32 w.toNat_lt
  unfold FitsInt32 at fits
  have digits : (decimal (toInt32 w.toNat).natAbs).length ≤ 10 := length_decimal_le (by decide) (by omega)
  have short : (decimalInt (toInt32 w.toNat)).length ≤ 11 := by
    rw [decimalInt_eq]
    split
    · rw [List.length_cons]
      omega
    · omega
  refine sprintf_conv (c := .d w) size (by simp [Conv.spelled]; omega) (by simp [Conv.spelled]; omega) nofun ?_
  rintro w' same
  cases same
  exact least

theorem atoi_decimalInt {v : Int} (fits : FitsInt32 v) : atoi (decimalInt v) = .ok (some v) := by
  unfold FitsInt32 at fits
  rw [decimalInt_eq]
  split
  · rw [atoi_minus (by omega)]
    congr 2
    omega
  · rw [atoi_decimal (by omega)]
    congr 2
    omega

end Numbers

/-! ## Reading the address -/

/-- The path leads to a file with a block that holds the bytes. -/
def Leads (fs : Info) (d : Disk) (path : CStr) (data : List UInt8) : Prop :=
  ∃ h k, fsLookup fs d path = .ok h ∧ h.ptr = some (Blkfs.inodeOf d k) ∧ (Blkfs.inodeOf d k).blockId ≠ -1 ∧
    contents d k = data

section Handler

variable {sys : System} {n : Nat} {s s₀ s₁ : Sys} {tk : Task} {path sub head : CStr} {m : Vfs.Mount Filesystem}
  {stream : Nat} {w : UInt32}

/-- The number in the first line of a file. -/
theorem readHandler_run (sh : ShellData) (quiet : Quiet s tk) (mounted : Vfs.mountOf sys.ops s path = (some m, sub))
    (kind : m.fs = .blkfs n) (serves : Serves sys.toMachine s (.blkfs n))
    (leads : Leads (sys.info n) (s.world.disk n) sub (decimal w.toNat))
    (opened : fsOpen sys.ops path .fileRead s = .ok (some stream, s₁)) :
    ∃ s', readHandler sys sh path s = .ok (w.toNat, s') := by
  obtain ⟨fd, content, tf, copy, h, there, hasBytes, reads, look, ptr, disk, brk⟩ :=
    blkfs_reading quiet mounted kind serves opened
  obtain ⟨h', k, look', ptr', hasBlock, holds⟩ := leads
  obtain rfl := Except.ok.inj (look.symm.trans look')
  obtain rfl := Option.some.inj (ptr.symm.trans ptr')
  obtain ⟨b, isData, block, small, same⟩ := hasBytes.resolve_right fun none => hasBlock none.1
  have data : fileBytes s₁ stream = decimal w.toNat := by
    rw [same, disk, ← holds, contents, block]
    rfl
  have word := w.toNat_lt
  have short : (decimal w.toNat).length ≤ 10 := length_decimal_le (by decide) (by omega)
  have digits := isDigit_decimal (n := w.toNat)
  have plain : newline ∉ decimal w.toNat := fun member => absurd (digits _ member) (by decide)
  have terminated : 0 ∉ decimal w.toNat := fun member => absurd (digits _ member) (by decide)
  rw [data] at reads same
  obtain ⟨last, s₂, s₃, line, close, stored⟩ := one_line_run isData block small same
    (reads.own (store s₁.world.mem s₁.world.brk 128 fun _ => 0) (s₁.world.brk + 128) s₁.world.stream) there
    (Nat.le_of_eq brk.symm) plain terminated (decimal_ne_nil _) (show (decimal w.toNat).length < 128 by omega)
  have allocated : (alloc 128 : SysM Nat) s₁ = .ok (s₁.world.brk, { s₁ with
      world := { s₁.world with brk := s₁.world.brk + 128, mem := store s₁.world.mem s₁.world.brk 128 fun _ => 0 } }) := rfl
  have asserted : (Vfs.assert (some last ≠ none) "getline failed" : SysM Unit) s₂ = .ok ((), s₂) := rfl
  have string : (stringAt s₁.world.brk 129 : SysM CStr) s₃ = .ok (decimal w.toNat, s₃) :=
    congrArg (fun cs => Except.ok (cs, s₃)) stored
  have decoded : (lifted (atoi (decimal w.toNat)) : SysM (Option Int)) s₃ = .ok (some w.toNat, s₃) := by
    unfold lifted
    rw [atoi_decimal (by omega)]
    rfl
  have address : ofInt32 w.toNat = w.toNat := by
    unfold ofInt32
    omega
  refine ⟨s₃, ?_⟩
  unfold readHandler
  rw [run_bind opened, run_bind allocated]
  dsimp only
  rw [run_bind line, run_bind asserted, run_bind close, run_bind string, run_bind decoded]
  exact congrArg (fun a => Except.ok (a, s₃)) address

end Handler

/-! ## The round trip -/

/-- `sprintf` with a format and an argument puts the text into the buffer, and `atoi` takes the number for it. -/
def RoundTrips (below : Nat → UInt8) (vsn out : List UInt8) (fmt : CStr) (w : UInt32) (v : Int) : Prop :=
  ∃ cs vsn', sprintf below vsn out fmt [.word w] = .ok (cs.length, cs ++ 0 :: out.drop (cs.length + 1), vsn') ∧
    0 ∉ cs ∧ atoi cs = .ok (some v)

/-- `execute_command` gets the address `w` wherever the file of a command holds the bytes and can be opened. -/
def Recovered (data : List UInt8) (w : UInt32) : Prop :=
  ∀ (sys : System) (sh : ShellData) (n : Nat) (s₀ s s₁ : Sys) (tk : Task) (m : Vfs.Mount Filesystem)
    (head filepath sub : CStr) (stream : Nat), commandPath sys head s₀ = .ok (some filepath, s) → Quiet s tk →
    Vfs.mountOf sys.ops s filepath = (some m, sub) → m.fs = .blkfs n → Serves sys.toMachine s (.blkfs n) →
    Leads (sys.info n) (s.world.disk n) sub data → fsOpen sys.ops filepath .fileRead s = .ok (some stream, s₁) →
    ∃ s', findHandler sys sh head s₀ = .ok (w.toNat, s')

/-- The registration of a command, in a state without its file, leaves a file from which the address is recovered. -/
def Registers (below : Nat → UInt8) (vsn : List UInt8) : Prop :=
  ∀ (fs : Info) (d d' : Disk) (handles : List Blkfs.Handle) (hist : List Blkfs.Volume.Change) (stale : Nat → Prop)
    (path buf vsn' path' buf' : List UInt8) (head : CStr) (w : UInt32),
    Blkfs.Run fs (Blkfs.Harmless fs) ⟨d, handles⟩ hist stale → path.length = 128 → buf.length = 128 →
    0 ∉ head → head.length ≤ 122 → (∀ h, fsLookup fs d (text "/bin/" ++ head) = .ok h → h.ptr = none) →
    registerCommand fs below d vsn path buf head w = .ok (d', vsn', path', buf') →
    ∃ data, Leads fs d' (text "/bin/" ++ head) data ∧ Recovered data w

section RoundTrip

variable {below : Nat → UInt8} {vsn out : List UInt8}

theorem recovered_decimal (w : UInt32) : Recovered (decimal w.toNat) w := by
  intro sys sh n s₀ s s₁ tk m head filepath sub stream command quiet mounted kind serves leads opened
  obtain ⟨s', run⟩ := readHandler_run sh quiet mounted kind serves leads opened
  refine ⟨s', ?_⟩
  unfold findHandler
  rw [run_bind command]
  exact run

theorem decimal_plain (n : Nat) : 0 ∉ decimal n := fun member => absurd (isDigit_decimal _ member) (by decide)

/-- `/bin/%s` -/
def binPieces (head : CStr) (plain : 0 ∉ head) : List Piece :=
  [.lit 47 (by decide), .lit 98 (by decide), .lit 105 (by decide), .lit 110 (by decide), .lit 47 (by decide),
    .conv none (.s head plain)]

theorem spelled_binPieces {head : CStr} {plain : 0 ∉ head} : spelled (binPieces head plain) = text "/bin/" ++ head := by
  simp [binPieces, spelled, Piece.spelled, Conv.spelled, padded, widthOf, text]

/-- The path of a command. -/
theorem sprintf_path (below : Nat → UInt8) {head : CStr} (size : vsn.length = bufferSize) (plain : 0 ∉ head) (short : head.length ≤ 122)
    (room : out.length = 128) : ∃ vsn', vsn'.length = bufferSize ∧ ∃ ret, sprintf below vsn out (text "/bin/%s") [.str head] =
      .ok (ret, text "/bin/" ++ head ++ 0 :: out.drop ((text "/bin/" ++ head).length + 1), vsn') := by
  have length : (text "/bin/" ++ head).length = 5 + head.length := by
    simp [text]
    omega
  have fits : ∀ p ∈ binPieces head plain, p.spelled.length ≤ 399 := by
    simp [binPieces, Piece.spelled, Conv.spelled, padded, widthOf]
    omega
  have chars : CharsPlain (binPieces head plain) := by
    intro width w member
    simp [binPieces] at member
  have other : NoLeast (binPieces head plain) := by
    intro width w member
    simp [binPieces] at member
  obtain ⟨vsn', size', run⟩ := vsnprintf_spelled below (2 ^ 32 - 1) out size fits chars other
    (by rw [spelled_binPieces]; omega) (by omega) (by rw [spelled_binPieces]; omega) (by rw [spelled_binPieces]; omega)
  rw [spelled_binPieces] at run
  exact ⟨vsn', size', _, run⟩

theorem bytes_front (cs rest : List UInt8) : ByteFile.bytes (fun i => (cs ++ rest).getD i 0) cs.length = cs := by
  apply List.ext_getElem?
  intro i
  rw [ByteFile.getElem?_bytes]
  split
  · simp [List.getElem?_append_left, *]
  · rw [List.getElem?_eq_none (by omega)]

theorem registers (size : vsn.length = bufferSize) : Registers below vsn := by
  intro fs d d' handles hist stale path buf vsn' path' buf' head w run pathSize bufSize plain short missing registered
  have room : 12 ≤ buf.length := by omega
  have length : (decimal w.toNat).length ≤ 10 := length_decimal_le (by decide) (by have := w.toNat_lt; omega)
  have count : (UInt32.ofNat (decimal w.toNat).length).toNat = (decimal w.toNat).length := by
    rw [UInt32.toNat_ofNat']
    omega
  have ended : 0 ∉ text "/bin/" ++ head := by
    rw [List.mem_append, not_or]
    exact ⟨by decide, plain⟩
  obtain ⟨vsn₁, size₁, ret, printPath⟩ := sprintf_path below size plain short pathSize
  obtain ⟨vsn₂, -, printBuf⟩ := sprintf_u below w size₁ room
  unfold registerCommand at registered
  rw [printPath, ok_bind] at registered
  dsimp only at registered
  rw [printBuf, ok_bind] at registered
  obtain ⟨d₂, written, done⟩ := bind_eq_ok.1 registered
  cases done
  refine ⟨decimal w.toNat, ?_, recovered_decimal w⟩
  rw [stringOf_text ended, stringOf_text (decimal_plain _), strlen_eq] at written
  -- the calls of `initrd_write`
  obtain ⟨f, look, written⟩ := bind_eq_ok.1 written
  obtain ⟨⟨res, f₁, d₁⟩, opened, written⟩ := bind_eq_ok.1 written
  obtain ⟨zero, written⟩ := kassert_bind_eq_ok.1 written
  obtain ⟨⟨res', f₂, d₂⟩, wrote, written⟩ := bind_eq_ok.1 written
  obtain ⟨all, written⟩ := kassert_bind_eq_ok.1 written
  obtain ⟨-, written⟩ := kassert_bind_eq_ok.1 written
  cases written
  subst zero all
  obtain ⟨h, k, found, ptr, hasBlock, content⟩ := Blkfs.written_found run ended look (missing f look) opened wrote
  refine ⟨h, k, found, ptr, hasBlock, ?_⟩
  rw [content, count]
  exact bytes_front _ _

/-- **Registered commands.** `atoi` takes what `%u` prints for the number, and what `%d` prints but for the most
negative `int`; so the address of a registered command is recovered from its file. -/
theorem registered_commands_decode (size : vsn.length = bufferSize) (room : 12 ≤ out.length) :
    (∀ w : UInt32, RoundTrips below vsn out (text "%u") w w.toNat) ∧
      (∀ w : UInt32, toInt32 w.toNat ≠ -2 ^ 31 → RoundTrips below vsn out (text "%d") w (toInt32 w.toNat)) ∧
      Registers below vsn := by
  refine ⟨fun w => ?_, fun w least => ?_, registers size⟩
  · obtain ⟨vsn', -, run⟩ := sprintf_u below w size room
    exact ⟨_, vsn', run, decimal_plain _, atoi_decimal w.toNat_lt⟩
  · obtain ⟨vsn', -, run⟩ := sprintf_d below size room least
    refine ⟨_, vsn', run, ?_, atoi_decimalInt (fits_toInt32 w.toNat_lt)⟩
    rw [decimalInt_eq]
    split
    · simp [decimal_plain]
    · exact decimal_plain _

/-! ## `ls` in a new filesystem -/

/-- A formatted device with the directory `/bin`. -/
def binDisk : Disk := Blkfs.entered (Blkfs.freshDisk 4128) .dir 1 0 (text "bin") 1 2

theorem fsMkdir_bin : Blkfs.fsMkdir Blkfs.fourBlocks (Blkfs.freshDisk 4128) (text "/bin") = .ok (0, binDisk) := by
  have parent : Blkfs.Parent Blkfs.fourBlocks (Blkfs.freshDisk 4128) 0 1 :=
    ⟨by decide, by decide +kernel, by decide, by decide +kernel⟩
  have valid : Blkfs.ValidName (text "bin") := ⟨by decide, by decide, by decide⟩
  have first : Blkfs.FirstEmpty Blkfs.fourBlocks (Blkfs.freshDisk 4128) 1 := ⟨by decide, by decide +kernel, by decide +kernel⟩
  have found : Blkfs.FirstFree (Blkfs.freshDisk 4128) 1 2 :=
    ⟨by decide, by decide +kernel, by decide +kernel, by decide +kernel⟩
  have place : Blkfs.findFree (Blkfs.freshDisk 4128) 1 = some 0 := by decide +kernel
  rw [Blkfs.fsMkdir_eq parent valid ⟨rfl, by decide⟩, Blkfs.createFiledir_entered parent (.inr rfl) valid
    (by decide +kernel) place first (by decide) found (by decide)]
  rfl

theorem binDisk_run :
    ∃ hist stale, Blkfs.Run Blkfs.fourBlocks (Blkfs.Harmless Blkfs.fourBlocks) ⟨binDisk, []⟩ hist stale := by
  have run : Blkfs.Run Blkfs.fourBlocks (Blkfs.Harmless Blkfs.fourBlocks) Blkfs.startState [] fun _ => False :=
    Blkfs.run_fresh (by decide +kernel)
  exact ⟨_, _, run.step (Blkfs.harmless_of_noWrite id) (Blkfs.exec_mkdir fsMkdir_bin)⟩

/-- A registration that returns. -/
theorem Registers.returned {fs : Info} {s : Blkfs.State} {hist : List Blkfs.Volume.Change} {stale : Nat → Prop} {head : CStr}
    {w : UInt32} (register : Registers below vsn) (run : Blkfs.Run fs (Blkfs.Harmless fs) s hist stale) (plain : 0 ∉ head)
    (short : head.length ≤ 122) (missing : (fsLookup fs s.disk (text "/bin/" ++ head)).map Blkfs.Handle.ptr = .ok none)
    (returns : (registerCommand fs below s.disk vsn (List.replicate 128 0) (List.replicate 128 0) head w).toBool = true) :
    ∃ d' data, Leads fs d' (text "/bin/" ++ head) data ∧ Recovered data w := by
  cases registered : registerCommand fs below s.disk vsn (List.replicate 128 0) (List.replicate 128 0) head w with
  | error e =>
    rw [registered] at returns
    cases returns
  | ok r =>
    refine ⟨r.1, register fs s.disk r.1 s.handles hist stale _ _ r.2.1 r.2.2.1 r.2.2.2 head w run List.length_replicate
      List.length_replicate plain short (fun h look => ?_) registered⟩
    rw [look] at missing
    exact Except.ok.inj missing

/-- The largest number, -1, and `ls` at an address. -/
theorem registered_commands_decode_ls :
    RoundTrips (fun _ => 0) (List.replicate 400 0) (List.replicate 12 1) (text "%u") 0xffffffff 4294967295 ∧
      RoundTrips (fun _ => 0) (List.replicate 400 0) (List.replicate 12 1) (text "%d") 0xffffffff (-1) ∧
      ∃ d' data, Leads Blkfs.fourBlocks d' (text "/bin/" ++ text "ls") data ∧ Recovered data 0x100000 := by
  obtain ⟨unsigned, signed, register⟩ : (∀ w : UInt32, RoundTrips (fun _ => 0) (List.replicate 400 0) (List.replicate 12 1)
      (text "%u") w w.toNat) ∧ _ ∧ Registers (fun _ => 0) (List.replicate 400 0) :=
    registered_commands_decode List.length_replicate (by decide)
  refine ⟨unsigned 0xffffffff, signed 0xffffffff (by decide), ?_⟩
  obtain ⟨hist, stale, run⟩ := binDisk_run
  exact register.returned run (by decide) (by decide) (by decide +kernel) (by decide +kernel)

end RoundTrip

end OsLab.Kernel.Shell
