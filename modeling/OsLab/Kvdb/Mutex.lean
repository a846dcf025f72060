import OsLab.Kvdb.Log
import OsLab.Kvdb.Puts

/-!
# The mutex of the database

One thread calls the functions of the store in any order. `kvdb_open` and `kvdb_put` lock the mutex and
return without unlocking it where the name is too long or the file can not be opened, so the mutex is
free between the calls exactly when no call of the run takes one of these returns: `mutex_free_iff`.
-/

namespace OsLab.Kvdb

open OsLab.Stdio

/-- `kvdb_close` -/
def kvdbClose (w : World) : Except Stop (Int × World) := do
  if w.db.state ≠ opened then
    return (0, w)
  let w ← lockMutex w
  let db : Handle := { w.db with filename := ⟨[], List.not_mem_nil⟩, state := 0 }
  return (0, unlockMutex { w with db := db })

/-- A call on the database; `opens` is the answer of `fopen`, where it is called. -/
inductive Call where
  | open (opens : Bool) (filename : CStr)
  | put (opens : Bool) (key value : Option CStr)
  | get (opens : Bool) (key : Option CStr)
  | close

/-- Run the call; `store` is what `%d` stores for a number out of the range of `int`. -/
def Call.run (store : Int → Int) (w : World) : Call → Except Stop World
  | .open opens filename => .ok (kvdbOpen opens filename w).2
  | .put opens key value => (kvdbPut opens key value w).map Prod.snd
  | .get opens key => (kvdbGetOn store opens key w).map Prod.snd
  | .close => (kvdbClose w).map Prod.snd

/-- The runs of one thread from its first `kvdb_open`, with the calls and the states they were made in,
the latest first. -/
inductive Calls (store : Int → Int) : List (World × Call) → World → Prop where
  | first {w w' : World} {opens : Bool} {filename : CStr} (closed : w.db.state ≠ opened)
      (call : (Call.open opens filename).run store w = .ok w') : Calls store [(w, .open opens filename)] w'
  | next {w w' : World} {calls : List (World × Call)} {c : Call} (run : Calls store calls w)
      (call : c.run store w = .ok w') : Calls store ((w, c) :: calls) w'

/-- The key and the value that `kvdb_put` accepts. -/
def Accepted (key value : CStr) : Prop :=
  key.1.length ≠ 0 ∧ key.1.length ≤ 128 ∧ value.1.length ≤ maxValue

/-- Where the call locks the mutex and calls `fopen` for the file it opens or writes, the name of the
file is short enough and `fopen` succeeds. -/
def Call.Opens (w : World) : Call → Prop
  | .open opens filename => w.db.state ≠ opened → filename.1.length < 1024 ∧ opens = true
  | .put opens key value => ∀ k ∈ key, ∀ v ∈ value, Accepted k v → opens = true
  | .get _ _ => True
  | .close => True

/-- The mutex is free, and no call waits for it. -/
structure Free (store : Int → Int) (w : World) : Prop where
  unlocked : w.db.locked = false
  runs : ∀ c : Call, c.run store w ≠ .error .deadlock

section Step

variable {store : Int → Int} {w w' : World} {c : Call}

theorem open_unlocked_iff {opens : Bool} {filename : CStr}
    (ready : w.db.locked = false ∨ w.db.state ≠ opened) :
    (kvdbOpen opens filename w).2.db.locked = false ↔ (Call.open opens filename).Opens w := by
  unfold kvdbOpen Call.Opens
  by_cases again : w.db.state = opened
  · simp [again, ready.resolve_right (not_not_intro again)]
  · by_cases long : filename.1.length ≥ 1024
    · simp [again, long, Nat.not_lt.2 long]
    · simp only [if_neg again, if_neg long]
      cases opens <;> simp [again, Nat.not_le.1 long, unlockMutex]

theorem put_unlocked_iff {opens : Bool} {key value : Option CStr} (free : w.db.locked = false)
    (call : (Call.put opens key value).run store w = .ok w') :
    w'.db.locked = false ↔ (Call.put opens key value).Opens w := by
  unfold Call.run kvdbPut at call
  cases key with
  | none =>
    cases call
    simp [Call.Opens, free]
  | some key =>
    cases value with
    | none =>
      cases call
      simp [Call.Opens, free]
    | some value =>
      by_cases rejected : key.1.length = 0 ∨ key.1.length > 128 ∨ value.1.length > maxValue
      · simp only [if_pos rejected] at call
        cases call
        have not : ¬ Accepted key value := by
          unfold Accepted
          omega
        simp [Call.Opens, free, not]
      · have accepted : Accepted key value := by
          unfold Accepted
          omega
        simp only [if_neg rejected, lockMutex_free free, ok_bind] at call
        cases opens with
        | false =>
          cases call
          simp [Call.Opens, accepted]
        | true =>
          cases call
          simp [Call.Opens, unlockMutex]

theorem get_unlocked {opens : Bool} {key : Option CStr} (free : w.db.locked = false)
    (call : (Call.get opens key).run store w = .ok w') : w'.db.locked = false := by
  unfold Call.run kvdbGetOn at call
  cases key with
  | none =>
    cases call
    exact free
  | some key =>
    by_cases rejected : key.1.length = 0 ∨ key.1.length > 128
    · simp only [if_pos rejected] at call
      cases call
      exact free
    · simp only [if_neg rejected, lockMutex_free free, ok_bind] at call
      cases found : findDbOn store opens key { w with db := { w.db with locked := true } } with
      | error e =>
        rw [found] at call
        cases call
      | ok value =>
        rw [found] at call
        cases call
        rfl

theorem close_unlocked (free : w.db.locked = false) (call : Call.close.run store w = .ok w') :
    w'.db.locked = false := by
  unfold Call.run kvdbClose at call
  by_cases closed : w.db.state ≠ opened
  · simp only [if_pos closed] at call
    cases call
    exact free
  · simp only [if_neg closed, lockMutex_free free, ok_bind] at call
    cases call
    rfl

/-- `find_db` takes no mutex. -/
theorem findLoopOn_ne_deadlock {target : List UInt8} {fuel : Nat} {s : Stream} {res : Option (List UInt8)} :
    findLoopOn store target fuel s res ≠ .error .deadlock := by
  have value : ∀ vlen s, readValue vlen s ≠ .error .deadlock := by
    intro vlen s stuck
    unfold readValue at stuck
    repeat' split at stuck
    all_goals cases stuck
  induction fuel generalizing s res with
  | zero => exact fun stuck => by cases stuck
  | succ fuel ih =>
    intro stuck
    rw [findLoopOn] at stuck
    split at stuck
    · cases stuck
    split at stuck
    · exact ih stuck
    split at stuck
    · exact ih stuck
    split at stuck
    · exact ih stuck
    split at stuck
    · rename_i read
      cases Except.error.inj stuck
      exact value _ _ read
    · exact ih stuck
    · exact ih stuck

theorem findDbOn_ne_deadlock {opens : Bool} {key : CStr} :
    findDbOn store opens key w ≠ .error .deadlock := by
  unfold findDbOn
  split
  · exact fun stuck => by cases stuck
  · split
    · exact findLoopOn_ne_deadlock
    · exact fun stuck => by cases stuck

/-- A call that finds the mutex free leaves it free just when it opens its file. -/
theorem run_unlocked_iff (free : w.db.locked = false) (call : c.run store w = .ok w') :
    w'.db.locked = false ↔ c.Opens w := by
  cases c with
  | «open» opens filename =>
    cases call
    exact open_unlocked_iff (.inl free)
  | put opens key value => exact put_unlocked_iff free call
  | get opens key => exact iff_of_true (get_unlocked free call) trivial
  | close => exact iff_of_true (close_unlocked free call) trivial

/-- No call waits for a free mutex. -/
theorem free_of_unlocked (unlocked : w.db.locked = false) : Free store w := by
  refine ⟨unlocked, fun c stuck => ?_⟩
  cases c with
  | «open» opens filename => cases stuck
  | put opens key value =>
    unfold Call.run kvdbPut at stuck
    cases key with
    | none => cases stuck
    | some key =>
      cases value with
      | none => cases stuck
      | some value =>
        simp only [lockMutex_free unlocked, ok_bind] at stuck
        split at stuck
        · cases stuck
        · split at stuck <;> cases stuck
  | get opens key =>
    unfold Call.run kvdbGetOn at stuck
    cases key with
    | none => cases stuck
    | some key =>
      simp only [lockMutex_free unlocked, ok_bind] at stuck
      split at stuck
      · cases stuck
      · cases found : findDbOn store opens key { w with db := { w.db with locked := true } } with
        | error e =>
          rw [found] at stuck
          cases Except.error.inj stuck
          exact absurd found findDbOn_ne_deadlock
        | ok value =>
          rw [found] at stuck
          cases stuck
  | close =>
    unfold Call.run kvdbClose at stuck
    simp only [lockMutex_free unlocked, ok_bind] at stuck
    split at stuck <;> cases stuck

end Step

section Runs

variable {store : Int → Int} {w : World} {calls : List (World × Call)}

theorem Calls.unlocked (run : Calls store calls w) (opens : ∀ e ∈ calls, e.2.Opens e.1) :
    w.db.locked = false := by
  induction run with
  | first closed call =>
    cases call
    exact (open_unlocked_iff (.inr closed)).2 (opens _ List.mem_cons_self)
  | next run call ih =>
    have before := ih fun e mem => opens e (List.mem_cons_of_mem _ mem)
    exact (run_unlocked_iff before call).2 (opens _ List.mem_cons_self)

/-- **The mutex between the calls.** In every state of a run the mutex is free and no call deadlocks,
just when every `kvdb_open` and `kvdb_put` of the run opens its file. -/
theorem mutex_free_iff (run : Calls store calls w) :
    (∀ calls' w', Calls store calls' w' → calls' <:+ calls → Free store w') ↔
      ∀ e ∈ calls, e.2.Opens e.1 := by
  constructor
  · intro free
    induction run with
    | first closed call =>
      have after := (free _ _ (.first closed call) List.suffix_rfl).unlocked
      cases call
      intro e mem
      rw [List.mem_singleton.1 mem]
      exact (open_unlocked_iff (.inr closed)).1 after
    | @next v v' before c run call ih =>
      have after := (free _ _ (.next run call) List.suffix_rfl).unlocked
      have here := (free _ _ run (List.suffix_cons _ _)).unlocked
      intro e mem
      rcases List.mem_cons.1 mem with rfl | mem
      · exact (run_unlocked_iff here call).1 after
      · exact ih (fun calls' w' run' suffix => free calls' w' run' (suffix.trans (List.suffix_cons _ _)))
          e mem
  · intro opens calls' w' run' suffix
    exact free_of_unlocked (run'.unlocked fun e mem => opens e (suffix.subset mem))

end Runs

/-- A handle on which nothing was called. -/
def unused : World := ⟨⟨false, 0, ⟨[], List.not_mem_nil⟩⟩, fun _ => none⟩

/-- The handle after `kvdb_open` of the file `db`. -/
def openedDb : World := (kvdbOpen true ⟨[100, 98], by decide⟩ unused).2

theorem mutex_free_iff_open :
    (∀ calls' w', Calls id calls' w' → calls' <:+ [(unused, .open true ⟨[100, 98], by decide⟩)] →
        Free id w') ↔
      ∀ e ∈ [(unused, Call.open true ⟨[100, 98], by decide⟩)], e.2.Opens e.1 :=
  mutex_free_iff (w := openedDb) (.first (by decide) rfl)

/-- `kvdb_put` on a file that can not be opened any more returns -1 with the mutex locked, and the next
`kvdb_get` waits for ever. -/
theorem put_keeps_mutex : ∃ calls w, Calls id calls w ∧ w.db.locked = true ∧
    (Call.get true (some ⟨[107], by decide⟩)).run id w = .error .deadlock := by
  let put : Call := .put false (some ⟨[107], by decide⟩) (some ⟨[118], by decide⟩)
  have opened : Calls id [(unused, .open true ⟨[100, 98], by decide⟩)] openedDb :=
    .first (by decide) rfl
  obtain ⟨w, stopped⟩ : ∃ w, put.run id openedDb = .ok w := ⟨_, rfl⟩
  refine ⟨_, w, opened.next stopped, ?_⟩
  cases stopped
  exact ⟨rfl, rfl⟩

end OsLab.Kvdb
