import Mathlib.Data.List.Basic

/-!
# Lists cut at a separator

`segments sep` cuts a list at each separator. The segment behind the last separator counts only when
it is not empty, so that a trailing separator adds nothing.
-/

namespace OsLab.Segments

variable {α : Type*} [DecidableEq α] {sep : α}

/-- The segments of a list behind the elements `acc` of the current one. -/
def segmentsFrom (sep : α) (acc : List α) : List α → List (List α)
  | [] => if acc = [] then [] else [acc]
  | c :: s => if c = sep then acc :: segmentsFrom sep [] s else segmentsFrom sep (acc ++ [c]) s

/-- The segments of a list. -/
def segments (sep : α) (s : List α) : List (List α) := segmentsFrom sep [] s

@[simp] theorem segments_nil : segments sep [] = [] := rfl

theorem segmentsFrom_sep (acc s : List α) :
    segmentsFrom sep acc (sep :: s) = acc :: segments sep s :=
  if_pos rfl

/-- Elements that are no separators go to the current segment. -/
theorem segmentsFrom_append {a : List α} (plain : sep ∉ a) (acc s : List α) :
    segmentsFrom sep acc (a ++ s) = segmentsFrom sep (acc ++ a) s := by
  induction a generalizing acc with
  | nil => simp
  | cons c a ih =>
    rw [List.mem_cons, not_or] at plain
    rw [List.cons_append, segmentsFrom, if_neg (Ne.symm plain.1), ih plain.2]
    simp

/-- A first segment. -/
theorem segments_cons {a : List α} (plain : sep ∉ a) (s : List α) :
    segments sep (a ++ sep :: s) = a :: segments sep s := by
  unfold segments
  rw [segmentsFrom_append plain, segmentsFrom_sep]
  rfl

/-- A single segment. -/
theorem segments_single {a : List α} (plain : sep ∉ a) (some : a ≠ []) : segments sep a = [a] := by
  have whole := segmentsFrom_append plain [] []
  rw [List.append_nil, List.nil_append] at whole
  unfold segments
  rw [whole]
  exact if_neg some

theorem segmentsFrom_split (acc q s : List α) :
    segmentsFrom sep acc (q ++ sep :: s) = segmentsFrom sep acc (q ++ [sep]) ++ segments sep s := by
  induction q generalizing acc with
  | nil =>
    rw [List.nil_append, List.nil_append, segmentsFrom_sep, segmentsFrom_sep]
    rfl
  | cons c q ih =>
    rw [List.cons_append, List.cons_append, segmentsFrom, segmentsFrom]
    by_cases here : c = sep
    · rw [if_pos here, if_pos here, ih]
      rfl
    · rw [if_neg here, if_neg here, ih]

/-- A list cut at one of its separators. -/
theorem segments_split (q s : List α) :
    segments sep (q ++ sep :: s) = segments sep (q ++ [sep]) ++ segments sep s :=
  segmentsFrom_split [] q s

/-- A last segment, with or without a separator behind it. -/
theorem segments_last {a : List α} (plain : sep ∉ a) (some : a ≠ []) (q : List α) :
    segments sep (q ++ sep :: a) = segments sep (q ++ [sep]) ++ [a] ∧
      segments sep (q ++ sep :: (a ++ [sep])) = segments sep (q ++ [sep]) ++ [a] := by
  rw [segments_split, segments_split q (a ++ [sep]), segments_single plain some, segments_cons plain]
  exact ⟨rfl, rfl⟩

/-- A list is cut at its last separator. -/
theorem exists_last {s : List α} (h : sep ∈ s) : ∃ q a, s = q ++ sep :: a ∧ sep ∉ a := by
  induction s with
  | nil => contradiction
  | cons c s ih =>
    by_cases later : sep ∈ s
    · obtain ⟨q, a, rfl, plain⟩ := ih later
      exact ⟨c :: q, a, rfl, plain⟩
    · obtain rfl | mem := List.mem_cons.1 h
      · exact ⟨[], s, rfl, later⟩
      · exact absurd mem later

omit [DecidableEq α] in
theorem last_unique {q q' a a' : List α} (h : q ++ sep :: a = q' ++ sep :: a') (plain : sep ∉ a)
    (plain' : sep ∉ a') : q = q' ∧ a = a' := by
  induction q generalizing q' with
  | nil =>
    cases q' with
    | nil => exact ⟨rfl, List.tail_eq_of_cons_eq h⟩
    | cons c q' =>
      rw [List.nil_append, List.cons_append, List.cons.injEq] at h
      exact absurd (h.2 ▸ List.mem_append_right q' List.mem_cons_self) plain
  | cons c q ih =>
    cases q' with
    | nil =>
      rw [List.nil_append, List.cons_append, List.cons.injEq] at h
      exact absurd (h.2 ▸ List.mem_append_right q List.mem_cons_self) plain'
    | cons c' q' =>
      rw [List.cons_append, List.cons_append, List.cons.injEq] at h
      obtain ⟨rfl, rest⟩ := h
      obtain ⟨rfl, same⟩ := ih rest
      exact ⟨rfl, same⟩

omit [DecidableEq α] in
theorem first_unique {q q' a a' : List α} (h : q ++ sep :: a = q' ++ sep :: a') (plain : sep ∉ q)
    (plain' : sep ∉ q') : q = q' ∧ a = a' := by
  have reversed : a.reverse ++ sep :: q.reverse = a'.reverse ++ sep :: q'.reverse := by
    simpa using congrArg List.reverse h
  obtain ⟨behind, front⟩ := last_unique reversed (by simpa using plain) (by simpa using plain')
  exact ⟨List.reverse_injective front, List.reverse_injective behind⟩

/-- A separator at the end adds no segment. -/
theorem segments_concat {s : List α} (some : s ≠ []) (last : s.getLast? ≠ Option.some sep) :
    segments sep (s ++ [sep]) = segments sep s := by
  by_cases cut : sep ∈ s
  · obtain ⟨q, a, rfl, plain⟩ := exists_last cut
    have more : a ≠ [] := by
      rintro rfl
      exact last (by simp)
    obtain ⟨without, behind⟩ := segments_last plain more q
    rw [without, ← behind]
    simp
  · rw [segments_single cut some, segments_cons cut, segments_nil]

/-- The elements of the segments are elements of the list. -/
theorem mem_of_mem_segmentsFrom {acc s a : List α} {c : α} (h : a ∈ segmentsFrom sep acc s)
    (mem : c ∈ a) : c ∈ acc ∨ c ∈ s := by
  induction s generalizing acc with
  | nil =>
    rw [segmentsFrom] at h
    by_cases empty : acc = []
    · simp [empty] at h
    · simp only [if_neg empty, List.mem_singleton] at h
      exact .inl (h ▸ mem)
  | cons x s ih =>
    rw [segmentsFrom] at h
    by_cases here : x = sep
    · rw [if_pos here, List.mem_cons] at h
      obtain rfl | later := h
      · exact .inl mem
      · exact .inr (List.mem_cons_of_mem x ((ih later).resolve_left List.not_mem_nil))
    · rw [if_neg here] at h
      obtain old | later := ih h
      · obtain old | new := List.mem_append.1 old
        · exact .inl old
        · exact .inr (List.mem_singleton.1 new ▸ List.mem_cons_self)
      · exact .inr (List.mem_cons_of_mem x later)

theorem mem_of_mem_segments {s a : List α} {c : α} (h : a ∈ segments sep s) (mem : c ∈ a) : c ∈ s :=
  (mem_of_mem_segmentsFrom h mem).resolve_left List.not_mem_nil

end OsLab.Segments
