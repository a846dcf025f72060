import OsLab.Kernel.Kmt.Spin

/-!
# Mutual exclusion and interrupt nesting

The invariant of the spinlocks has two halves. Of its own data every processor keeps `Nested`,
whatever the others do. Of every lock `Guarded` says who owns it and whose number its field `cpu`
holds: a processor writes its number after it has taken the lock and clears it before it gives
the lock back, so that `is_holding_spin` never mistakes one processor for another.
-/

namespace OsLab.Kernel.Spin

variable {Lock : Type}

/-- At this point of a call the number of the processor is in the field `cpu` of the lock. -/
@[simp] def Pc.Names (l : Lock) : Pc Lock → Prop
  | .unlockCheck j _ | .unlockCpu j => j = l
  | _ => False

/-- At this point of a call the processor has set `locked` and not cleared it yet. -/
@[simp] def Pc.Owns (l : Lock) : Pc Lock → Prop
  | .lockCpu j | .unlockCheck j _ | .unlockCpu j | .unlockXchg j => j = l
  | _ => False

/-- The number of the processor is in the field `cpu` of the lock. -/
def Core.Named (k : Core Lock) (l : Lock) : Prop := l ∈ k.held ∨ k.pc.Names l

/-- The processor has set `locked` and not cleared it yet. -/
def Core.Owns (k : Core Lock) (l : Lock) : Prop := l ∈ k.held ∨ k.pc.Owns l

/-- The lock of the current call is not among those held, and `is_holding_spin` answers right. -/
@[simp] def Placed (held : Finset Lock) : Pc Lock → Prop
  | .idle => True
  | .lockCheck l at' => l ∉ held ∧ at' ≠ .popcli true
  | .unlockCheck l at' => l ∉ held ∧ at' ≠ .popcli false
  | .lockXchg l | .lockCpu l | .unlockCpu l | .unlockXchg l | .unlockPopcli l => l ∉ held

/-- What a processor keeps of its own data. -/
structure Nested (k : Core Lock) : Prop where
  count : k.count = (k.held.card + k.pc.busy + k.pc.inside : Nat)
  masked : 0 < k.count → k.intr = false ∧ k.hasIF = k.entry
  outside : k.count = 0 → k.hasIF = false
  placed : Placed k.held k.pc

/-- Who owns a lock. -/
structure Guarded (s : State Lock) (l : Lock) : Prop where
  one : ∀ c d, (s.cores c).Owns l → (s.cores d).Owns l → c = d
  free : (s.locks l).locked = 0 → ∀ c, ¬ (s.cores c).Owns l
  name : ∀ c, (s.locks l).cpu = (c.val : Int) ↔ (s.cores c).Named l

/-- The invariant. -/
structure Inv (s : State Lock) : Prop where
  cores : ∀ c, Nested (s.cores c)
  locks : ∀ l, Guarded s l

section Update

variable {s : State Lock} {c d : Cpu} {l j : Lock} {k : Core Lock} {lk : SpinLock}

@[simp] theorem cores_setCore_self : (s.setCore c k).cores c = k := Function.update_self ..

theorem cores_setCore_ne (other : d ≠ c) : (s.setCore c k).cores d = s.cores d := Function.update_of_ne other ..

@[simp] theorem locks_setCore : (s.setCore c k).locks = s.locks := rfl

/-- The lock is as it was, for every processor. -/
theorem Guarded.same {s' : State Lock} (h : Guarded s l) (lock : s'.locks l = s.locks l)
    (owns : ∀ d, (s'.cores d).Owns l ↔ (s.cores d).Owns l) (named : ∀ d, (s'.cores d).Named l ↔ (s.cores d).Named l) :
    Guarded s' l := by
  refine ⟨?_, ?_, ?_⟩
  · simpa only [owns] using h.one
  · simpa only [lock, owns] using h.free
  · simpa only [lock, named] using h.name

@[simp] theorem cores_setLock [DecidableEq Lock] : (s.setLock l lk).cores = s.cores := rfl

@[simp] theorem locks_setLock_self [DecidableEq Lock] : (s.setLock l lk).locks l = lk := Function.update_self ..

theorem locks_setLock_ne [DecidableEq Lock] (other : j ≠ l) : (s.setLock l lk).locks j = s.locks j :=
  Function.update_of_ne other ..

/-- A step that changes who owns one lock at most. -/
theorem Inv.update [DecidableEq Lock] (inv : Inv s) (nested : Nested k)
    (owns : ∀ j, j ≠ l → (k.Owns j ↔ (s.cores c).Owns j)) (named : ∀ j, j ≠ l → (k.Named j ↔ (s.cores c).Named j))
    (lock : Guarded ((s.setLock l lk).setCore c k) l) : Inv ((s.setLock l lk).setCore c k) := by
  refine ⟨fun d => ?_, fun j => ?_⟩
  · by_cases own : d = c
    · simpa [own] using nested
    · rw [cores_setCore_ne own]
      exact inv.cores d
  · by_cases same : j = l
    · exact same ▸ lock
    · refine (inv.locks j).same (locks_setLock_ne same) (fun d => ?_) fun d => ?_
      · by_cases own : d = c
        · simpa [own] using owns j same
        · rw [cores_setCore_ne own, cores_setLock]
      · by_cases own : d = c
        · simpa [own] using named j same
        · rw [cores_setCore_ne own, cores_setLock]

/-- A step that changes no lock and not who owns one. -/
theorem Inv.setCore (inv : Inv s) (nested : Nested k) (owns : ∀ j, k.Owns j ↔ (s.cores c).Owns j)
    (named : ∀ j, k.Named j ↔ (s.cores c).Named j) : Inv (s.setCore c k) := by
  refine ⟨fun d => ?_, fun j => (inv.locks j).same rfl (fun d => ?_) fun d => ?_⟩
  · by_cases own : d = c
    · simpa [own] using nested
    · rw [cores_setCore_ne own]
      exact inv.cores d
  · by_cases own : d = c
    · simpa [own] using owns j
    · rw [cores_setCore_ne own]
  · by_cases own : d = c
    · simpa [own] using named j
    · rw [cores_setCore_ne own]

end Update

section Own

variable {k : Core Lock} {l : Lock}

theorem pushcli_ok (outside : k.count = 0 → k.hasIF = false) :
    pushcli k = .ok { k with
      intr := false, hasIF := if k.count = 0 then k.intr else k.hasIF, count := k.count + 1 } := by
  unfold pushcli
  by_cases zero : k.count = 0
  · simp [zero, kassert_pos (outside zero), pure, Except.pure]
  · simp [zero, pure, Except.pure]

theorem popcli_ok (masked : k.intr = false) (positive : 0 < k.count) :
    popcli k = .ok { k with
      intr := decide (k.count = 1) && k.hasIF, hasIF := !decide (k.count = 1) && k.hasIF, count := k.count - 1 } := by
  unfold popcli
  rw [kassert_pos masked]
  simp only [ok_bind]
  rw [kassert_pos (by omega), ok_bind]
  by_cases last : k.count = 1
  · cases k.hasIF <;> simp [last, masked, pure, Except.pure]
  · simp [last, masked, show k.count - 1 ≠ 0 by omega, pure, Except.pure]

/-- A processor with a count of 0 is in no call and holds no lock. -/
theorem Nested.idle (h : Nested k) (zero : k.count = 0) : k.pc = .idle ∧ k.held = ∅ := by
  have sum := h.count
  rw [zero] at sum
  have parts : k.held.card = 0 ∧ k.pc.busy = 0 := by omega
  refine ⟨?_, Finset.card_eq_zero.1 parts.1⟩
  cases pc : k.pc with
  | idle => rfl
  | _ => simp [pc, Pc.busy] at parts

theorem Nested.positive (h : Nested k) (busy : k.pc ≠ .idle) : 0 < k.count := by
  have sum := h.count
  have zero : k.count ≠ 0 := fun zero => busy (h.idle zero).1
  omega

/-- From one point of a call to another. -/
theorem Nested.move (h : Nested k) {count : Int} {pc : Pc Lock} (busy : k.pc.busy = 1) (busy' : pc.busy = 1)
    (sum : count + k.pc.inside = k.count + pc.inside) (placed : Placed k.held pc) :
    Nested { k with count := count, pc := pc } := by
  have before := h.count
  have positive : 0 < k.count := h.positive fun idle => by simp [idle, Pc.busy] at busy
  refine ⟨?_, fun _ => h.masked positive, fun zero => ?_, placed⟩
  · show count = (k.held.card + pc.busy + pc.inside : Nat)
    omega
  · have zero : count = 0 := zero
    omega

/-- How far a step inside `is_holding_spin` raises the count. -/
def Check.raise : Check → Int
  | .pushcli => 1
  | .popcli _ => -1
  | _ => 0

/-- The next point of `is_holding_spin`, or its result. -/
def Check.after (c : Cpu) (lk : SpinLock) : Check → Check ⊕ Bool
  | .pushcli => .inl .readLocked
  | .readLocked => .inl (if lk.locked ≠ 0 then .readCpu else .popcli false)
  | .readCpu => .inl (.popcli (decide (lk.cpu = (c.val : Int))))
  | .popcli r => .inr r

/-- A nested `pushcli` and `popcli` change nothing but the count. -/
theorem isHoldingSpin_ok {c : Cpu} {lk : SpinLock} {at' : Check} (masked : k.intr = false) (positive : 0 < k.count)
    (more : ∀ r, at' = .popcli r → 1 < k.count) :
    isHoldingSpin c lk k at' = .ok ({ k with count := k.count + at'.raise }, at'.after c lk) := by
  cases at' with
  | pushcli =>
    rw [isHoldingSpin, pushcli_ok (fun zero => by omega), ok_bind, if_neg (by omega), ← masked]
    rfl
  | readLocked => simp [isHoldingSpin, Check.raise, Check.after]
  | readCpu => simp [isHoldingSpin, Check.raise, Check.after]
  | popcli r =>
    have last : k.count ≠ 1 := by
      have := more r rfl
      omega
    rw [isHoldingSpin, popcli_ok masked positive, ok_bind]
    simp only [last, masked, decide_false, Bool.false_and, Bool.not_false, Bool.true_and]
    rfl

end Own

section Steps

variable {s s' : State Lock} {c : Cpu} {l : Lock}

theorem inv_init (intr : Cpu → Bool) : Inv (init intr : State Lock) := by
  refine ⟨fun c => ⟨by simp [init, Pc.busy, Pc.inside], by simp [init], by simp [init], trivial⟩, fun l => ⟨?_, ?_, ?_⟩⟩
  · simp [init, Core.Owns]
  · simp [init, Core.Owns]
  · intro c
    simp [init, Core.Named]

theorem inv_spinLock (inv : Inv s) (idle : (s.cores c).pc = .idle) (other : l ∉ (s.cores c).held) :
    ∃ s', spinLock c l s = .ok s' ∧ Inv s' := by
  have own := inv.cores c
  have sum := own.count
  unfold spinLock
  dsimp only
  have raised := pushcli_ok (k := { s.cores c with
    entry := if (s.cores c).count = 0 then (s.cores c).intr else (s.cores c).entry }) own.outside
  rw [raised, ok_bind]
  refine ⟨_, rfl, inv.setCore ⟨?_, ?_, ?_, ?_⟩ ?_ ?_⟩
  · simp [idle, Pc.busy, Pc.inside] at sum ⊢
    omega
  · intro _
    refine ⟨rfl, ?_⟩
    dsimp only
    by_cases zero : (s.cores c).count = 0
    · simp [zero]
    · simp [zero, (own.masked (by omega)).2]
  · intro zero
    have zero : (s.cores c).count + 1 = 0 := zero
    omega
  · exact ⟨other, by simp⟩
  · simp [Core.Owns, idle]
  · simp [Core.Named, idle]

theorem inv_spinUnlock [DecidableEq Lock] (inv : Inv s) (idle : (s.cores c).pc = .idle)
    (member : l ∈ (s.cores c).held) : Inv (spinUnlock c l s) := by
  have own := inv.cores c
  have sum := own.count
  have card := Finset.card_erase_add_one member
  have same : ∀ j, (j ≠ l ∧ j ∈ (s.cores c).held ∨ l = j) ↔ j ∈ (s.cores c).held := by
    intro j
    by_cases equal : j = l
    · simp [equal, member]
    · simp [equal, Ne.symm equal]
  refine inv.setCore ⟨?_, own.masked, own.outside, ⟨by simp, by simp⟩⟩ ?_ ?_
  · simp [idle, Pc.busy, Pc.inside] at sum ⊢
    omega
  · simp [Core.Owns, idle, same]
  · simp [Core.Named, idle, same]

/-- A step inside a call that leaves all locks as they are. -/
theorem Inv.move (inv : Inv s) {count : Int} {pc : Pc Lock} (busy : (s.cores c).pc.busy = 1) (busy' : pc.busy = 1)
    (sum : count + (s.cores c).pc.inside = (s.cores c).count + pc.inside) (placed : Placed (s.cores c).held pc)
    (owns : ∀ j, pc.Owns j ↔ (s.cores c).pc.Owns j) (names : ∀ j, pc.Names j ↔ (s.cores c).pc.Names j) :
    Inv (s.setCore c { s.cores c with count := count, pc := pc }) := by
  refine inv.setCore ((inv.cores c).move busy busy' sum placed) (fun j => ?_) fun j => ?_
  · exact or_congr Iff.rfl (owns j)
  · exact or_congr Iff.rfl (names j)

/-- `is_holding_spin` runs inside of a call. A processor that is to leave it has raised its count twice. -/
theorem Nested.check_ok {k : Core Lock} (h : Nested k) {at' : Check} {lk : SpinLock} (busy : k.pc.busy = 1)
    (inside : k.pc.inside = if at' = .pushcli then 0 else 1) :
    isHoldingSpin c lk k at' = .ok ({ k with count := k.count + at'.raise }, at'.after c lk) := by
  have positive : 0 < k.count := h.positive fun idle => by simp [idle, Pc.busy] at busy
  have more : ∀ r, at' = .popcli r → 1 < k.count := by
    rintro r rfl
    have sum := h.count
    simp [busy, inside] at sum
    omega
  exact isHoldingSpin_ok (h.masked positive).1 positive more

theorem Core.Named.owns {k : Core Lock} (named : k.Named l) : k.Owns l := by
  rcases named with member | point
  · exact Or.inl member
  · refine Or.inr ?_
    cases pc : k.pc <;> simp_all

/-- `is_holding_spin` answers whether the processor is named. -/
theorem Guarded.answer (guarded : Guarded s l) {at' : Check} {r : Bool}
    (last : at'.after c (s.locks l) = .inl (.popcli r)) : r = true ↔ (s.cores c).Named l := by
  cases at' with
  | pushcli => simp [Check.after] at last
  | readLocked =>
    by_cases locked : (s.locks l).locked = 0
    · have unnamed : ¬ (s.cores c).Named l := fun named => guarded.free locked c named.owns
      simp [Check.after, locked] at last
      simp [← last, unnamed]
    · simp [Check.after, locked] at last
  | readCpu =>
    simp [Check.after] at last
    simp [← last, guarded.name c]
  | popcli r => simp [Check.after] at last

theorem after_inl {lk : SpinLock} {at' at'' : Check} (more : at'.after c lk = .inl at'') :
    (if at' = .pushcli then 0 else 1) + at'.raise = if at'' = .pushcli then 0 else 1 := by
  cases at' with
  | readLocked =>
    by_cases locked : lk.locked = 0 <;> simp [Check.after, locked] at more <;> simp [← more, Check.raise]
  | _ => simp [Check.after] at more <;> simp [← more, Check.raise]

theorem after_inr {lk : SpinLock} {at' : Check} {r : Bool} (done : at'.after c lk = .inr r) : at' = .popcli r := by
  cases at' <;> simp_all [Check.after]

/-- A step of `is_holding_spin` in `spin_lock`. -/
theorem inv_lockCheck [DecidableEq Lock] (inv : Inv s) {at' : Check} (here : (s.cores c).pc = .lockCheck l at') :
    ∃ s', next c s = .ok s' ∧ Inv s' := by
  have own := inv.cores c
  have placed := own.placed
  rw [here] at placed
  have busy : (s.cores c).pc.busy = 1 := by simp [here, Pc.busy]
  have unnamed : ¬ (s.cores c).Named l := by simp [Core.Named, here, placed.1]
  unfold next
  simp only [here]
  rw [own.check_ok busy (by simp [here, Pc.inside]), ok_bind]
  cases result : at'.after c (s.locks l) with
  | inl at'' =>
    have depth := after_inl result
    refine ⟨_, rfl, inv.move busy (by simp [Pc.busy]) ?_ ⟨placed.1, ?_⟩ (by simp [here]) (by simp [here])⟩
    · simp [here, Pc.inside]
      omega
    · rintro rfl
      exact unnamed ((inv.locks l).answer result |>.1 rfl)
  | inr r =>
    obtain rfl := after_inr result
    obtain rfl : r = false := by simpa using placed.2
    refine ⟨_, rfl, inv.move busy (by simp [Pc.busy]) ?_ placed.1 (by simp [here]) (by simp [here])⟩
    simp [here, Pc.inside, Check.raise]

/-- A step of `is_holding_spin` in `spin_unlock`. -/
theorem inv_unlockCheck [DecidableEq Lock] (inv : Inv s) {at' : Check} (here : (s.cores c).pc = .unlockCheck l at') :
    ∃ s', next c s = .ok s' ∧ Inv s' := by
  have own := inv.cores c
  have placed := own.placed
  rw [here] at placed
  have busy : (s.cores c).pc.busy = 1 := by simp [here, Pc.busy]
  have named : (s.cores c).Named l := by simp [Core.Named, here]
  unfold next
  simp only [here]
  rw [own.check_ok busy (by simp [here, Pc.inside]), ok_bind]
  cases result : at'.after c (s.locks l) with
  | inl at'' =>
    have depth := after_inl result
    refine ⟨_, rfl, inv.move busy (by simp [Pc.busy]) ?_ ⟨placed.1, ?_⟩ (by simp [here]) (by simp [here])⟩
    · simp [here, Pc.inside]
      omega
    · rintro rfl
      exact absurd ((inv.locks l).answer result |>.2 named) (by simp)
  | inr r =>
    obtain rfl := after_inr result
    obtain rfl : r = true := by simpa using placed.2
    refine ⟨_, rfl, inv.move busy (by simp [Pc.busy]) ?_ placed.1 (by simp [here]) (by simp [here])⟩
    simp [here, Pc.inside, Check.raise]

/-- A step on a lock that no other processor owns. -/
theorem Guarded.alone [DecidableEq Lock] {k : Core Lock} {lk : SpinLock}
    (others : ∀ d, d ≠ c → ¬ (s.cores d).Owns l) (free : lk.locked = 0 → ¬ k.Owns l)
    (self : lk.cpu = (c.val : Int) ↔ k.Named l) (name : ∀ d, d ≠ c → lk.cpu ≠ (d.val : Int)) :
    Guarded ((s.setLock l lk).setCore c k) l := by
  have only : ∀ d, (((s.setLock l lk).setCore c k).cores d).Owns l → d = c := by
    intro d owner
    by_contra other
    rw [cores_setCore_ne other] at owner
    exact others d other owner
  refine ⟨fun d e first second => (only d first).trans (only e second).symm, fun zero d owner => ?_, fun d => ?_⟩
  · obtain rfl := only d owner
    simp at zero owner
    exact free zero owner
  · by_cases own : d = c
    · subst own
      simpa using self
    · have unnamed : ¬ (s.cores d).Named l := fun named => others d own named.owns
      rw [cores_setCore_ne own]
      simpa [unnamed] using name d own

/-- No other processor owns the lock of the owner. -/
theorem Guarded.others (guarded : Guarded s l) (owner : (s.cores c).Owns l) :
    ∀ d, d ≠ c → ¬ (s.cores d).Owns l :=
  fun d other owner' => other (guarded.one d c owner' owner)

theorem val_ne {d : Cpu} (other : d ≠ c) : (c.val : Int) ≠ (d.val : Int) :=
  fun same => other (Fin.ext (Int.ofNat.inj same).symm)

/-- The exchange in the loop of `spin_lock`. -/
theorem inv_lockXchg [DecidableEq Lock] (inv : Inv s) (here : (s.cores c).pc = .lockXchg l) :
    ∃ s', next c s = .ok s' ∧ Inv s' := by
  have own := inv.cores c
  have placed : l ∉ (s.cores c).held := by simpa [here] using own.placed
  have guarded := inv.locks l
  unfold next
  simp only [here]
  by_cases free : (s.locks l).locked = 0
  · -- the lock was free
    have nobody := guarded.free free
    have unnamed : ∀ d, ¬ (s.cores d).Named l := fun d named => nobody d named.owns
    rw [if_neg (not_not.2 free)]
    refine ⟨_, rfl, inv.update (own.move (by simp [here, Pc.busy]) (by simp [Pc.busy]) (by simp [here, Pc.inside]) placed)
      ?_ ?_ (Guarded.alone (fun d _ => nobody d) (by simp) ?_ fun d _ => ?_)⟩
    · intro j other
      simp [Core.Owns, here, Ne.symm other]
    · simp [Core.Named, here]
    · have self := guarded.name c
      simpa [Core.Named, here] using self
    · exact fun named => unnamed d ((guarded.name d).1 named)
  · -- the lock was taken and stays so
    rw [if_pos free]
    refine ⟨_, rfl, ⟨inv.cores, fun j => ?_⟩⟩
    by_cases same : j = l
    · subst same
      refine ⟨guarded.one, by simp, ?_⟩
      simpa using guarded.name
    · exact (inv.locks j).same (locks_setLock_ne same) (fun d => Iff.rfl) fun d => Iff.rfl

/-- `spin_lock` writes the number of the processor and returns. -/
theorem inv_lockCpu [DecidableEq Lock] (inv : Inv s) (here : (s.cores c).pc = .lockCpu l) :
    ∃ s', next c s = .ok s' ∧ Inv s' := by
  have own := inv.cores c
  have placed : l ∉ (s.cores c).held := by simpa [here] using own.placed
  have guarded := inv.locks l
  have owner : (s.cores c).Owns l := by simp [Core.Owns, here]
  have sum := own.count
  unfold next
  simp only [here]
  refine ⟨_, rfl, inv.update ⟨?_, own.masked, own.outside, trivial⟩ ?_ ?_
    (Guarded.alone (guarded.others owner) (fun zero => absurd owner (guarded.free zero c)) ?_ fun d => val_ne)⟩
  · simp [here, Pc.busy, Pc.inside, Finset.card_insert_of_notMem placed] at sum ⊢
    omega
  · intro j other
    simp [Core.Owns, here, other, Ne.symm other]
  · intro j other
    simp [Core.Named, here, other]
  · simp [Core.Named]

/-- `spin_unlock` clears the number of the processor. -/
theorem inv_unlockCpu [DecidableEq Lock] (inv : Inv s) (here : (s.cores c).pc = .unlockCpu l) :
    ∃ s', next c s = .ok s' ∧ Inv s' := by
  have own := inv.cores c
  have placed : l ∉ (s.cores c).held := by simpa [here] using own.placed
  have guarded := inv.locks l
  have owner : (s.cores c).Owns l := by simp [Core.Owns, here]
  unfold next
  simp only [here]
  refine ⟨_, rfl, inv.update (own.move (by simp [here, Pc.busy]) (by simp [Pc.busy]) (by simp [here, Pc.inside]) placed)
    ?_ ?_ (Guarded.alone (guarded.others owner) (fun zero => absurd owner (guarded.free zero c)) ?_ fun d _ => ?_)⟩
  · simp [Core.Owns, here]
  · intro j other
    simp [Core.Named, here, Ne.symm other]
  · simp [Core.Named, placed]
  · simp

/-- `spin_unlock` releases the lock. -/
theorem inv_unlockXchg [DecidableEq Lock] (inv : Inv s) (here : (s.cores c).pc = .unlockXchg l) :
    ∃ s', next c s = .ok s' ∧ Inv s' := by
  have own := inv.cores c
  have placed : l ∉ (s.cores c).held := by simpa [here] using own.placed
  have guarded := inv.locks l
  have owner : (s.cores c).Owns l := by simp [Core.Owns, here]
  have unnamed : ¬ (s.cores c).Named l := by simp [Core.Named, here, placed]
  unfold next
  simp only [here]
  refine ⟨_, rfl, inv.update (own.move (by simp [here, Pc.busy]) (by simp [Pc.busy]) (by simp [here, Pc.inside]) placed)
    ?_ ?_ (Guarded.alone (guarded.others owner) (fun _ => ?_) ?_ fun d other named => ?_)⟩
  · intro j other
    simp [Core.Owns, here, Ne.symm other]
  · simp [Core.Named, here]
  · simp [Core.Owns, placed]
  · have self := guarded.name c
    simpa [Core.Named, here, placed] using self
  · exact guarded.others owner d other ((guarded.name d).1 named).owns

/-- The last `popcli` of `spin_unlock`: it gives the interrupt flag back when no lock is left. -/
theorem inv_unlockPopcli [DecidableEq Lock] (inv : Inv s) (here : (s.cores c).pc = .unlockPopcli l) :
    ∃ k, next c s = .ok (s.setCore c k) ∧ Inv (s.setCore c k) ∧ (k.count = 0 → k.intr = (s.cores c).entry) := by
  have own := inv.cores c
  have sum := own.count
  have positive : 0 < (s.cores c).count := own.positive (by simp [here])
  obtain ⟨masked, saved⟩ := own.masked positive
  unfold next
  simp only [here]
  rw [popcli_ok masked positive, ok_bind]
  refine ⟨_, rfl, inv.setCore ⟨?_, fun more => ?_, fun zero => ?_, trivial⟩ ?_ ?_, fun zero => ?_⟩
  · simp [here, Pc.busy, Pc.inside] at sum ⊢
    omega
  · have more : 0 < (s.cores c).count - 1 := more
    simp [show (s.cores c).count ≠ 1 by omega, saved]
  · have zero : (s.cores c).count - 1 = 0 := zero
    simp [show (s.cores c).count = 1 by omega]
  · simp [Core.Owns, here]
  · simp [Core.Named, here]
  · have zero : (s.cores c).count - 1 = 0 := zero
    simp [show (s.cores c).count = 1 by omega, saved]

/-- A processor goes on. -/
theorem inv_next [DecidableEq Lock] (inv : Inv s) : ∃ s', next c s = .ok s' ∧ Inv s' := by
  cases here : (s.cores c).pc with
  | idle => exact ⟨s, by simp [next, here], inv⟩
  | lockCheck l at' => exact inv_lockCheck inv here
  | lockXchg l => exact inv_lockXchg inv here
  | lockCpu l => exact inv_lockCpu inv here
  | unlockCheck l at' => exact inv_unlockCheck inv here
  | unlockCpu l => exact inv_unlockCpu inv here
  | unlockXchg l => exact inv_unlockXchg inv here
  | unlockPopcli l =>
    obtain ⟨k, run, inv', -⟩ := inv_unlockPopcli inv here
    exact ⟨_, run, inv'⟩

/-- The interrupt flag changes outside all locks. -/
theorem inv_intr (inv : Inv s) (b : Bool) (idle : (s.cores c).pc = .idle) (nothing : (s.cores c).held = ∅) :
    Inv (s.setCore c { s.cores c with intr := b }) := by
  have own := inv.cores c
  have sum := own.count
  simp [idle, nothing, Pc.busy, Pc.inside] at sum
  refine inv.setCore ⟨own.count, fun positive => ?_, own.outside, own.placed⟩ (fun j => Iff.rfl) fun j => Iff.rfl
  have positive : 0 < (s.cores c).count := positive
  omega

/-- Every step of a processor keeps the invariant. -/
theorem inv_step [DecidableEq Lock] (inv : Inv s) {r : Except Halt (State Lock)} (step : Step c s r) :
    ∃ s', r = .ok s' ∧ Inv s' := by
  cases step with
  | lock idle other => exact inv_spinLock inv idle other
  | unlock idle member => exact ⟨_, rfl, inv_spinUnlock inv idle member⟩
  | next _ => exact inv_next inv
  | intr b idle nothing => exact ⟨_, rfl, inv_intr inv b idle nothing⟩

theorem Run.inv [DecidableEq Lock] (run : Run s) : Inv s := by
  induction run with
  | init intr => exact inv_init intr
  | step _ step ih =>
    obtain ⟨s', same, inv'⟩ := inv_step ih step
    obtain rfl := Except.ok.inj same
    exact inv'

/-- A processor that goes on changes no other one, and it leaves the code of a lock only at
the end of `spin_lock`, with the lock, and at the end of `spin_unlock`. -/
theorem next_cores [DecidableEq Lock] (run : next c s = .ok s') (busy : (s.cores c).pc ≠ .idle) :
    ∃ k, s'.cores = Function.update s.cores c k ∧
      (k.pc = .idle → k.held.Nonempty ∨ ∃ l, (s.cores c).pc = .unlockPopcli l) := by
  unfold next at run
  cases here : (s.cores c).pc with
  | idle => exact absurd here busy
  | lockCheck l at' =>
    simp only [here] at run
    obtain ⟨⟨k, at''⟩, -, run⟩ := bind_eq_ok.1 run
    cases at'' with
    | inl at'' => exact ⟨_, congrArg State.cores (Except.ok.inj run).symm, by simp⟩
    | inr r => exact ⟨_, congrArg State.cores (Except.ok.inj (kassert_bind_eq_ok.1 run).2).symm, by simp⟩
  | lockXchg l =>
    simp only [here] at run
    split at run
    · exact ⟨s.cores c, by rw [← Except.ok.inj run, Function.update_eq_self, cores_setLock], by simp [here]⟩
    · exact ⟨_, congrArg State.cores (Except.ok.inj run).symm, by simp⟩
  | lockCpu l =>
    simp only [here] at run
    exact ⟨_, congrArg State.cores (Except.ok.inj run).symm, fun _ => Or.inl (Finset.insert_nonempty _ _)⟩
  | unlockCheck l at' =>
    simp only [here] at run
    obtain ⟨⟨k, at''⟩, -, run⟩ := bind_eq_ok.1 run
    cases at'' with
    | inl at'' => exact ⟨_, congrArg State.cores (Except.ok.inj run).symm, by simp⟩
    | inr r => exact ⟨_, congrArg State.cores (Except.ok.inj (kassert_bind_eq_ok.1 run).2).symm, by simp⟩
  | unlockCpu l =>
    simp only [here] at run
    exact ⟨_, congrArg State.cores (Except.ok.inj run).symm, by simp⟩
  | unlockXchg l =>
    simp only [here] at run
    exact ⟨_, congrArg State.cores (Except.ok.inj run).symm, by simp⟩
  | unlockPopcli l =>
    simp only [here] at run
    obtain ⟨k, -, run⟩ := bind_eq_ok.1 run
    exact ⟨_, congrArg State.cores (Except.ok.inj run).symm, fun _ => Or.inr ⟨l, rfl⟩⟩

/-- The step of a processor that brings its count back to 0 gives the interrupt flag back. -/
theorem Inv.restored_next [DecidableEq Lock] (inv : Inv s) (run : next c s = .ok s') (busy : (s.cores c).pc ≠ .idle)
    (zero : (s'.cores c).count = 0) : (s'.cores c).intr = (s.cores c).entry := by
  obtain ⟨k, cores, ends⟩ := next_cores run busy
  obtain ⟨_, same, inv'⟩ := inv_next (c := c) inv
  obtain rfl := Except.ok.inj (run.symm.trans same)
  obtain ⟨idle, nothing⟩ := (inv'.cores c).idle zero
  rw [cores, Function.update_self] at idle nothing
  rcases ends idle with some' | ⟨l, here⟩
  · rw [nothing] at some'
    exact absurd some' Finset.not_nonempty_empty
  · obtain ⟨k', run', -, restored⟩ := inv_unlockPopcli inv here
    obtain rfl := Except.ok.inj (run.symm.trans run')
    rw [cores_setCore_self] at zero ⊢
    exact restored zero

/-- The step that brings the count of a processor back to 0 gives its interrupt flag back. -/
theorem Inv.restored [DecidableEq Lock] (inv : Inv s) {d : Cpu} (step : Step d s (.ok s'))
    (positive : 0 < (s.cores c).count) (zero : (s'.cores c).count = 0) :
    (s'.cores c).intr = (s.cores c).entry := by
  have changed : ∀ k, s'.cores = Function.update s.cores d k → c = d := by
    intro k cores
    by_contra other
    rw [cores, Function.update_of_ne other] at zero
    omega
  obtain ⟨_, same, inv'⟩ := inv_step inv step
  obtain rfl := Except.ok.inj same
  obtain ⟨idle, nothing⟩ := (inv'.cores c).idle zero
  generalize result : Except.ok s' = r at step
  cases step with
  | lock _ _ =>
    obtain ⟨k, -, done⟩ := bind_eq_ok.1 result.symm
    have cores := congrArg State.cores (Except.ok.inj done).symm
    obtain rfl := changed _ cores
    rw [cores] at idle
    simp [State.setCore] at idle
  | unlock _ _ =>
    have cores := congrArg State.cores (Except.ok.inj result)
    obtain rfl := changed _ cores
    rw [cores] at idle
    simp [spinUnlock, State.setCore] at idle
  | next busy =>
    obtain ⟨k, cores, -⟩ := next_cores result.symm busy
    obtain rfl := changed k cores
    exact inv.restored_next result.symm busy zero
  | intr b idle' nothing' =>
    obtain rfl := changed _ (congrArg State.cores (Except.ok.inj result))
    have sum := (inv.cores c).count
    simp [idle', nothing', Pc.busy, Pc.inside] at sum
    omega

theorem Core.Holds.owns {k : Core Lock} (holds : k.Holds l) : k.Owns l := by
  rcases holds with member | ⟨at', pc⟩ | pc | pc
  · exact Or.inl member
  · simp [Core.Owns, pc]
  · simp [Core.Owns, pc]
  · simp [Core.Owns, pc]

/-- **Spinlocks and interrupt nesting.** In every state that the processors reach, a lock has one holder
at most, no assertion can fail, the count of a processor is the number of its locks, and
its interrupts stay off until it has given the last one back. -/
theorem spin_safe [DecidableEq Lock] (run : Run s) : Safe s where
  exclusive l c d first second := (run.inv.locks l).one c d first.owns second.owns
  noPanic _ _ step := (inv_step run.inv step).imp fun _ both => both.1
  count c := (run.inv.cores c).count
  masked c positive := ((run.inv.cores c).masked positive).1
  restored _ _ _ step positive zero := run.inv.restored step positive zero

end Steps

/-- A processor has entered `spin_lock` of the only lock with interrupts on. -/
theorem spin_safe_entered : ∃ s : State Unit, spinLock ⟨0, by decide⟩ () (init fun _ => true) = .ok s ∧ Safe s := by
  obtain ⟨s, entered⟩ : ∃ s : State Unit, spinLock ⟨0, by decide⟩ () (init fun _ => true) = .ok s := ⟨_, rfl⟩
  refine ⟨s, entered, spin_safe (.step (.init fun _ => true) (c := ⟨0, by decide⟩) ?_)⟩
  rw [← entered]
  exact .lock rfl (Finset.notMem_empty _)

end OsLab.Kernel.Spin
