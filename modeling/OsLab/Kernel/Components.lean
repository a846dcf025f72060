import OsLab.Kernel.Path
import OsLab.Lib.Segments

/-!
# The components of a path

`path_next_name` takes a path apart from the left, `path_get_directory` and `path_get_name` split it
at a slash from the right, in a copy without a trailing one. They agree on every path that has a name:
`components_split`.
-/

namespace OsLab.Kernel

open OsLab.Klib OsLab.Segments

/-- A path without its first character if that is a slash. -/
def body (path : CStr) : CStr := if charAt path 0 = slash then path.drop 1 else path

/-- The names `path_next_name` gives one after the other. -/
def components (path : CStr) : List CStr := segments slash (body path)

section Walk

variable {path name : CStr}

theorem slash_ne_nul : slash ≠ 0 := by decide

theorem headerByte_ne_slash : headerByte ≠ slash := by decide

@[simp] theorem body_slash (s : CStr) : body (slash :: s) = s := if_pos rfl

@[simp] theorem components_slash (s : CStr) : components (slash :: s) = segments slash s := by
  rw [components, body_slash]

/-- `path_next_name` in terms of the path behind its first slash. -/
theorem pathNextName_eq (path : CStr) :
    pathNextName path =
      if (body path).length = 0 then none
      else
        match strchr (body path) slash with
        | none => some (body path, none)
        | some next => some ((body path).take next, some ((body path).drop next)) := by
  unfold pathNextName
  simp only [strlen_eq]
  rfl

theorem pathNextName_none (h : pathNextName path = none) : components path = [] := by
  rw [pathNextName_eq] at h
  by_cases empty : (body path).length = 0
  · rw [components, List.length_eq_zero_iff.1 empty, segments_nil]
  · rw [if_neg empty] at h
    cases search : strchr (body path) slash with
    | none =>
      rw [search] at h
      cases h
    | some next =>
      rw [search] at h
      cases h

theorem pathNextName_last (h : pathNextName path = some (name, none)) : components path = [name] := by
  rw [pathNextName_eq] at h
  by_cases empty : (body path).length = 0
  · rw [if_pos empty] at h
    cases h
  · rw [if_neg empty] at h
    cases search : strchr (body path) slash with
    | none =>
      rw [search] at h
      cases h
      exact segments_single (strchr_none search) fun nil => empty (congrArg List.length nil)
    | some next =>
      rw [search] at h
      cases h

theorem pathNextName_more {rest : CStr} (h : pathNextName path = some (name, some rest)) :
    components path = name :: components rest := by
  rw [pathNextName_eq] at h
  by_cases empty : (body path).length = 0
  · rw [if_pos empty] at h
    cases h
  · rw [if_neg empty] at h
    cases search : strchr (body path) slash with
    | none =>
      rw [search] at h
      cases h
    | some next =>
      rw [search] at h
      cases h
      obtain ⟨rest, cut, behind, plain⟩ := strchr_some slash_ne_nul search
      rw [behind, components_slash, ← segments_cons plain, ← cut]
      rfl

/-- The characters of the components are characters of the path. -/
theorem notMem_of_components {c : UInt8} (h : c ∉ path) (mem : name ∈ components path) :
    c ∉ name := by
  intro char
  have inside := mem_of_mem_segments mem char
  unfold body at inside
  by_cases lead : charAt path 0 = slash
  · rw [if_pos lead] at inside
    exact h (List.mem_of_mem_drop inside)
  · rw [if_neg lead] at inside
    exact h inside

end Walk

/-! ## The last component -/

section Last

variable {path : CStr}

/-- A path of the form `start/name` or `start/name/`. -/
structure Split (path start name tail : CStr) : Prop where
  whole : path = start ++ slash :: (name ++ tail)
  tail_eq : tail = [] ∨ tail = [slash]
  plain : slash ∉ name
  directory : pathGetDirectory path = start ++ [slash]
  name_eq : pathGetName path = name

theorem dropLast_of_lastChar (h : lastChar path = slash) : path = path.dropLast ++ [slash] := by
  unfold lastChar at h
  rw [List.getLastD_eq_getLast?] at h
  cases last : path.getLast? with
  | none =>
    rw [last] at h
    exact absurd h headerByte_ne_slash
  | some c =>
    rw [last] at h
    have same : c = slash := h
    rw [← same]
    exact (List.dropLast_append_getLast? c last).symm

/-- Both functions cut a copy without a trailing slash at its last slash. -/
theorem exists_split (found : lastSlash path ≠ none) : ∃ start name tail, Split path start name tail := by
  obtain ⟨rp, found⟩ := Option.ne_none_iff_exists'.1 found
  have cut := found
  unfold lastSlash at cut
  by_cases trailing : lastChar path = slash
  · rw [if_pos trailing] at cut
    obtain ⟨start, name, whole, plain, rfl⟩ := strrchr_some headerByte_ne_slash cut
    have whole' : path = start ++ slash :: (name ++ [slash]) := by
      rw [dropLast_of_lastChar trailing, whole]
      simp
    refine ⟨start, name, [slash], whole', .inr rfl, plain, ?_, ?_⟩
    · unfold pathGetDirectory
      rw [found, whole']
      simp [List.take_length_add_append]
    · unfold pathGetName
      rw [found, if_pos trailing, whole]
      simp
  · rw [if_neg trailing] at cut
    obtain ⟨start, name, whole, plain, rfl⟩ := strrchr_some headerByte_ne_slash cut
    refine ⟨start, name, [], ?_, .inl rfl, plain, ?_, ?_⟩
    · rw [whole, List.append_nil]
    · unfold pathGetDirectory
      rw [found, whole]
      simp [List.take_length_add_append]
    · unfold pathGetName
      rw [found, if_neg trailing, whole]
      simp

@[simp] theorem lastChar_concat (s : CStr) (c : UInt8) : lastChar (s ++ [c]) = c := by
  rw [lastChar, List.getLastD_concat]

/-- A path that ends in a name, with a slash behind it or without. -/
theorem lastChar_named {start name tail : CStr} (plain : slash ∉ name) (named : name ≠ [])
    (behind : tail = [] ∨ tail = [slash]) :
    tail = [] ∧ lastChar (start ++ slash :: name ++ tail) ≠ slash ∨
      tail = [slash] ∧ lastChar (start ++ slash :: name ++ tail) = slash := by
  rcases behind with rfl | rfl
  · obtain ⟨front, c, rfl⟩ := (List.eq_nil_or_concat' name).resolve_left named
    have whole : start ++ slash :: (front ++ [c]) ++ [] = (start ++ slash :: front) ++ [c] := by simp
    left
    rw [whole, lastChar_concat]
    refine ⟨rfl, ?_⟩
    rintro rfl
    simp at plain
  · right
    exact ⟨rfl, lastChar_concat _ _⟩

/-- The last slash of such a path. -/
theorem lastSlash_append {start name tail : CStr} (plain : slash ∉ name) (named : name ≠ [])
    (behind : tail = [] ∨ tail = [slash]) : lastSlash (start ++ slash :: name ++ tail) = some (start.length : Int) := by
  have found : strrchr headerByte (start ++ slash :: name) slash = some (start.length : Int) := by
    cases search : strrchr headerByte (start ++ slash :: name) slash with
    | none => exact absurd (List.mem_append_right start List.mem_cons_self) (strrchr_none search)
    | some i =>
      obtain ⟨start', name', whole, plain', rfl⟩ := strrchr_some headerByte_ne_slash search
      rw [(last_unique whole plain plain').1]
  unfold lastSlash
  rcases lastChar_named plain named behind with ⟨rfl, other⟩ | ⟨rfl, same⟩
  · rw [if_neg other, List.append_nil, found]
  · rw [if_pos same, List.dropLast_concat, found]

/-- Both functions on such a path. -/
theorem split_append {start name tail : CStr} (plain : slash ∉ name) (named : name ≠ [])
    (behind : tail = [] ∨ tail = [slash]) : pathGetDirectory (start ++ slash :: name ++ tail) = start ++ [slash] ∧
      pathGetName (start ++ slash :: name ++ tail) = name := by
  have found : lastSlash (start ++ slash :: name ++ tail) = some (start.length : Int) :=
    lastSlash_append plain named behind
  constructor
  · unfold pathGetDirectory
    rw [found]
    simp [List.take_length_add_append]
  · unfold pathGetName
    rw [found]
    rcases lastChar_named plain named behind with ⟨rfl, other⟩ | ⟨rfl, same⟩
    · rw [if_neg other]
      simp
    · rw [if_pos same, List.dropLast_concat]
      simp

/-- A path that has a name has a slash before it. -/
theorem lastSlash_of_named (named : pathGetName path ≠ []) : lastSlash path ≠ none := by
  intro none
  unfold pathGetName at named
  rw [none] at named
  exact named rfl

theorem slash_notMem_pathGetName (path : CStr) : slash ∉ pathGetName path := by
  by_cases found : lastSlash path = none
  · unfold pathGetName
    rw [found]
    exact List.not_mem_nil
  · obtain ⟨start, name, tail, split⟩ := exists_split found
    rw [split.name_eq]
    exact split.plain

theorem notMem_pathGetName {c : UInt8} (h : c ∉ path) : c ∉ pathGetName path := by
  by_cases found : lastSlash path = none
  · unfold pathGetName
    rw [found]
    exact List.not_mem_nil
  · obtain ⟨start, name, tail, split⟩ := exists_split found
    intro mem
    rw [split.name_eq] at mem
    apply h
    rw [split.whole]
    simp [mem]

theorem notMem_pathGetDirectory {c : UInt8} (h : c ∉ path) : c ∉ pathGetDirectory path := by
  unfold pathGetDirectory
  cases lastSlash path with
  | none => exact h
  | some rp => exact fun mem => h (List.mem_of_mem_take mem)

/-- The components of a path through a directory. -/
theorem components_append (start s : CStr) :
    components (start ++ slash :: s) = components (start ++ [slash]) ++ segments slash s := by
  cases start with
  | nil => simp
  | cons c start =>
    unfold components body
    by_cases lead : c = slash
    · have first : ∀ rest, charAt (c :: rest) 0 = slash := fun _ => lead
      simp only [List.cons_append, first, if_true, List.drop_succ_cons, List.drop_zero]
      exact segments_split start s
    · have first : ∀ rest, charAt (c :: rest) 0 ≠ slash := fun _ => lead
      simp only [List.cons_append, first, if_false]
      exact segments_split (c :: start) s

/-- The splits from the left and from the right agree. -/
theorem components_split (named : pathGetName path ≠ []) :
    components path = components (pathGetDirectory path) ++ [pathGetName path] := by
  obtain ⟨start, name, tail, split⟩ := exists_split (lastSlash_of_named named)
  rw [split.name_eq] at named ⊢
  have last : segments slash (name ++ tail) = [name] := by
    obtain rfl | rfl := split.tail_eq
    · rw [List.append_nil, segments_single split.plain named]
    · rw [segments_cons split.plain, segments_nil]
  rw [split.directory, ← last, ← components_append, ← split.whole]

/-! ## Joined paths -/

/-- A name joined to a directory's path. -/
theorem pathJoin_eq {base name : CStr} (path : base ≠ []) (some : name ≠ []) (plain : slash ∉ name) :
    ∃ start, pathJoin base name = start ++ slash :: name ∧
      components (start ++ [slash]) = components base := by
  have first : charAt name 0 ≠ slash := by
    cases name with
    | nil => exact absurd rfl some
    | cons c name =>
      rw [List.mem_cons, not_or] at plain
      exact Ne.symm plain.1
  have long : strlen base ≠ 0 := by simp [path]
  have long' : strlen name ≠ 0 := by simp [some]
  unfold pathJoin
  rw [if_neg long, if_neg long', if_neg first, if_neg first]
  by_cases trailing : lastChar base = slash
  · have whole := dropLast_of_lastChar trailing
    refine ⟨base.dropLast, ?_, congrArg components whole.symm⟩
    rw [if_pos trailing]
    calc base ++ name = (base.dropLast ++ [slash]) ++ name := by rw [← whole]
      _ = base.dropLast ++ slash :: name := by simp
  · refine ⟨base, if_neg trailing, ?_⟩
    have notLast : base.getLast? ≠ Option.some slash := by
      intro last
      apply trailing
      rw [lastChar, List.getLastD_eq_getLast?, last]
      rfl
    obtain ⟨c, rest, rfl⟩ := List.exists_cons_of_ne_nil path
    unfold components body
    by_cases lead : c = slash
    · have behind : ∀ s, charAt (c :: s) 0 = slash := fun _ => lead
      cases rest with
      | nil => exact absurd (congrArg Option.some lead) notLast
      | cons c' rest =>
        rw [List.getLast?_cons_cons] at notLast
        simp only [List.cons_append, behind, if_true, List.drop_succ_cons, List.drop_zero]
        exact segments_concat (List.cons_ne_nil c' rest) notLast
    · have behind : ∀ s, charAt (c :: s) 0 ≠ slash := fun _ => lead
      simp only [List.cons_append, behind, if_false]
      exact segments_concat (List.cons_ne_nil c rest) notLast

theorem components_pathJoin {base name : CStr} (path : base ≠ []) (some : name ≠ [])
    (plain : slash ∉ name) : components (pathJoin base name) = components base ++ [name] := by
  obtain ⟨start, join, same⟩ := pathJoin_eq path some plain
  rw [join, components_append, segments_single plain some, same]

theorem pathGetName_pathJoin {base name : CStr} (path : base ≠ []) (some : name ≠ [])
    (plain : slash ∉ name) : pathGetName (pathJoin base name) = name := by
  obtain ⟨start, join, -⟩ := pathJoin_eq path some plain
  rw [join, ← List.append_nil (start ++ slash :: name)]
  exact (split_append plain some (.inl rfl)).2

end Last

end OsLab.Kernel
