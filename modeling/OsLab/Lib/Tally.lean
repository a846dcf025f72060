import Mathlib.Data.List.Basic

/-!
# Tables of totals

Entries of keys with values come one after another, and a table holds a total for each key, in the order in which the keys
came first. The values of a key are added up in the order in which they came: the addition is any operation.
-/

namespace OsLab.Tally

variable {κ α : Type} [DecidableEq κ] {add : α → α → α} {entries table table' : List (κ × α)} {k : κ} {a : α}

/-- The table with a value more for its key, if the key is there. -/
def update (add : α → α → α) (k : κ) (a : α) : List (κ × α) → Option (List (κ × α))
  | [] => none
  | (k', total) :: table =>
    if k = k' then some ((k', add total a) :: table) else (update add k a table).map ((k', total) :: ·)

/-- The values of a key. -/
def values (k : κ) (entries : List (κ × α)) : List α := (entries.filter fun e => e.1 = k).map Prod.snd

/-- The keys, as they came first. -/
def keys (entries : List (κ × α)) : List κ := (entries.map Prod.fst).eraseDups

/-- A table of the keys, each with what its values add up to. -/
def Totals (add : α → α → α) (entries table : List (κ × α)) : Prop :=
  table.map Prod.fst = keys entries ∧
    ∀ e ∈ table, ∃ first rest, values e.1 entries = first :: rest ∧ e.2 = rest.foldl add first

theorem totals_nil : Totals add ([] : List (κ × α)) [] := ⟨rfl, fun e member => by cases member⟩

theorem nodup_eraseDups (l : List κ) : l.eraseDups.Nodup := by
  match l with
  | [] => exact List.nodup_nil
  | a :: l =>
    have shorter : (l.filter fun b => !b == a).length < l.length + 1 := Nat.lt_succ_of_le (List.length_filter_le _ l)
    rw [List.eraseDups_cons]
    refine List.nodup_cons.mpr ⟨fun member => ?_, nodup_eraseDups _⟩
    rw [List.mem_eraseDups, List.mem_filter] at member
    simp at member
termination_by l.length

theorem mem_keys : k ∈ keys entries ↔ k ∈ entries.map Prod.fst := List.mem_eraseDups

theorem keys_old (old : k ∈ keys entries) (a : α) : keys (entries ++ [(k, a)]) = keys entries := by
  have there : [k].removeAll (entries.map Prod.fst) = [] := by
    rw [List.removeAll, List.filter_cons_of_neg, List.filter_nil]
    simpa using mem_keys.mp old
  unfold keys at *
  rw [List.map_append, List.map_cons, List.map_nil, List.eraseDups_append, there, List.eraseDups_nil, List.append_nil]

theorem keys_new (new : k ∉ keys entries) (a : α) : keys (entries ++ [(k, a)]) = keys entries ++ [k] := by
  have away : [k].removeAll (entries.map Prod.fst) = [k] := by
    rw [List.removeAll, List.filter_cons_of_pos, List.filter_nil]
    simpa using fun member => new (mem_keys.mpr member)
  have single : [k].eraseDups = [k] := rfl
  unfold keys at *
  rw [List.map_append, List.map_cons, List.map_nil, List.eraseDups_append, away, single]

/-- More entries have no fewer keys. -/
theorem length_keys_le (entries more : List (κ × α)) : (keys entries).length ≤ (keys (entries ++ more)).length := by
  unfold keys
  rw [List.map_append, List.eraseDups_append, List.length_append]
  exact Nat.le_add_right _ _

theorem values_same (entries : List (κ × α)) : values k (entries ++ [(k, a)]) = values k entries ++ [a] := by
  have one : ([(k, a)] : List (κ × α)).filter (fun e => e.1 = k) = [(k, a)] := by simp
  unfold values
  rw [List.filter_append, List.map_append, one]
  rfl

theorem values_other {k' : κ} (other : k ≠ k') (entries : List (κ × α)) :
    values k' (entries ++ [(k, a)]) = values k' entries := by
  unfold values
  rw [List.filter_append, List.filter_cons_of_neg (by simpa using other), List.filter_nil, List.append_nil]

theorem values_none (new : k ∉ keys entries) : values k entries = [] := by
  have none : entries.filter (fun e => e.1 = k) = [] := by
    rw [List.filter_eq_nil_iff]
    intro e member same
    exact new (mem_keys.mpr (List.mem_map.mpr ⟨e, member, of_decide_eq_true same⟩))
  rw [values, none, List.map_nil]

/-- What an update does: a key that is there gets one value more, and there is no update for another key. -/
theorem update_cases (distinct : (table.map Prod.fst).Nodup) :
    update add k a table = none ∧ k ∉ table.map Prod.fst ∨
      ∃ table', update add k a table = some table' ∧ k ∈ table.map Prod.fst ∧ table'.map Prod.fst = table.map Prod.fst ∧
        ∀ e ∈ table', e.1 ≠ k ∧ e ∈ table ∨ e.1 = k ∧ ∃ total, (k, total) ∈ table ∧ e.2 = add total a := by
  induction table with
  | nil => exact .inl ⟨rfl, List.not_mem_nil⟩
  | cons head table ih =>
    obtain ⟨k', total⟩ := head
    obtain ⟨fresh, distinct⟩ := List.nodup_cons.mp distinct
    rw [update]
    rcases Decidable.em (k = k') with rfl | other
    · rw [if_pos rfl]
      refine .inr ⟨_, rfl, List.mem_cons_self, rfl, fun e member => ?_⟩
      rcases List.mem_cons.mp member with rfl | member
      · exact .inr ⟨rfl, total, List.mem_cons_self, rfl⟩
      · exact .inl ⟨fun same => fresh (List.mem_map.mpr ⟨e, member, same⟩), List.mem_cons_of_mem _ member⟩
    · rw [if_neg other]
      rcases ih distinct with ⟨none, away⟩ | ⟨table', some, there, same, all⟩
      · rw [none]
        refine .inl ⟨rfl, fun member => ?_⟩
        rcases List.mem_cons.mp member with same | member
        · exact other same
        · exact away member
      · rw [some]
        refine .inr ⟨_, rfl, List.mem_cons_of_mem _ there, by rw [List.map_cons, List.map_cons, same], fun e member => ?_⟩
        rcases List.mem_cons.mp member with rfl | member
        · exact .inl ⟨Ne.symm other, List.mem_cons_self⟩
        · rcases all e member with ⟨different, old⟩ | ⟨key, total', old, sum⟩
          · exact .inl ⟨different, List.mem_cons_of_mem _ old⟩
          · exact .inr ⟨key, total', List.mem_cons_of_mem _ old, sum⟩

theorem Totals.distinct (totals : Totals add entries table) : (table.map Prod.fst).Nodup := by
  rw [totals.1]
  exact nodup_eraseDups _

/-- A value more for a key that is there. -/
theorem Totals.updated (totals : Totals add entries table) (run : update add k a table = some table') :
    Totals add (entries ++ [(k, a)]) table' := by
  rcases @update_cases κ α _ add table k a totals.distinct with ⟨none, -⟩ | ⟨table'', run', there, same, all⟩
  · rw [none] at run
    cases run
  · rw [run'] at run
    cases run
    rw [totals.1] at there same
    refine ⟨by rw [same, keys_old there], fun e member => ?_⟩
    rcases all e member with ⟨other, old⟩ | ⟨key, total, old, sum⟩
    · rw [values_other (Ne.symm other)]
      exact totals.2 e old
    · obtain ⟨first, rest, listed, whole⟩ := totals.2 _ old
      simp only at listed whole
      refine ⟨first, rest ++ [a], ?_, ?_⟩
      · rw [key, values_same, listed]
        rfl
      · rw [sum, whole, List.foldl_append]
        rfl

/-- A key that was not there. -/
theorem Totals.appended (totals : Totals add entries table) (run : update add k a table = none) :
    Totals add (entries ++ [(k, a)]) (table ++ [(k, a)]) := by
  rcases @update_cases κ α _ add table k a totals.distinct with ⟨-, away⟩ | ⟨table', run', -⟩
  · rw [totals.1] at away
    refine ⟨by rw [List.map_append, totals.1, keys_new away]; rfl, fun e member => ?_⟩
    rcases List.mem_append.mp member with old | new
    · have other : k ≠ e.1 := by
        rintro rfl
        exact away (totals.1 ▸ List.mem_map.mpr ⟨e, old, rfl⟩)
      rw [values_other other]
      exact totals.2 e old
    · obtain rfl := List.mem_singleton.mp new
      exact ⟨a, [], by rw [values_same, values_none away]; rfl, rfl⟩
  · rw [run] at run'
    cases run'

/-- There is no update for a key that is not there. -/
theorem Totals.update_none (totals : Totals add entries table) (run : update add k a table = none) : k ∉ keys entries := by
  rcases @update_cases κ α _ add table k a totals.distinct with ⟨-, away⟩ | ⟨table', run', -⟩
  · rwa [totals.1] at away
  · rw [run] at run'
    cases run'

/-- There is one only for a key that is there. -/
theorem Totals.update_some (totals : Totals add entries table) (run : update add k a table = some table') :
    k ∈ keys entries := by
  rcases @update_cases κ α _ add table k a totals.distinct with ⟨none, -⟩ | ⟨table'', run', there, -⟩
  · rw [none] at run
    cases run
  · rwa [totals.1] at there

end OsLab.Tally
