import Mathlib.Data.List.Pairwise

/-!
# Overlays

A partial function laid over a total one, and many of them one after the other. Each is put down for some of its values
only (`keep`); these are all there at the end when the later ones spare them.
-/

namespace OsLab.Overlay

variable {ι α β : Type}

/-- `m` with `o` over it. -/
def lay (o : α → Option β) (m : α → β) : α → β := fun x => (o x).getD (m x)

/-- `m` with the overlays of `is` over it, the last on top. -/
def layAll (put : ι → α → Option β) (is : List ι) (m : α → β) : α → β := is.foldl (fun m i => lay (put i) m) m

/-- `o` says nothing else where `keep` says something. -/
def Spares (keep o : α → Option β) : Prop := ∀ x b, keep x = some b → o x = none ∨ o x = some b

theorem layAll_cons (put : ι → α → Option β) (i : ι) (is : List ι) (m : α → β) :
    layAll put (i :: is) m = layAll put is (lay (put i) m) := rfl

theorem lay_none {o : α → Option β} {m : α → β} {x : α} (none : o x = none) : lay o m x = m x := by
  rw [lay, none, Option.getD_none]

theorem lay_some {o : α → Option β} {m : α → β} {x : α} {b : β} (some : o x = some b) : lay o m x = b := by
  rw [lay, some, Option.getD_some]

variable {put keep : ι → α → Option β} {is : List ι} {m : α → β} {x : α} {b : β}

/-- What no overlay speaks of stays. -/
theorem layAll_none (none : ∀ i ∈ is, put i x = none) : layAll put is m x = m x := by
  induction is generalizing m with
  | nil => rfl
  | cons i is ih =>
    rw [layAll_cons, ih fun j member => none j (List.mem_cons_of_mem i member), lay_none (none i List.mem_cons_self)]

/-- A value that every overlay leaves or repeats stays. -/
theorem layAll_stays (there : m x = b) (spared : ∀ i ∈ is, put i x = none ∨ put i x = some b) : layAll put is m x = b := by
  induction is generalizing m with
  | nil => exact there
  | cons i is ih =>
    rw [layAll_cons]
    refine ih ?_ fun j member => spared j (List.mem_cons_of_mem i member)
    rcases spared i List.mem_cons_self with none | some
    · rw [lay_none none, there]
    · exact lay_some some

/-- What each overlay is put down for is there at the end. -/
theorem layAll_keeps (puts : ∀ i ∈ is, ∀ x b, keep i x = some b → put i x = some b)
    (spares : is.Pairwise fun i j => Spares (keep i) (put j)) {i : ι} (member : i ∈ is) (kept : keep i x = some b) :
    layAll put is m x = b := by
  induction is generalizing m with
  | nil => exact absurd member List.not_mem_nil
  | cons j is ih =>
    rw [layAll_cons]
    rw [List.pairwise_cons] at spares
    rcases List.mem_cons.mp member with rfl | member
    · refine layAll_stays (lay_some (puts i List.mem_cons_self x b kept)) fun k later => ?_
      exact spares.1 k later x b kept
    · exact ih (fun k later => puts k (List.mem_cons_of_mem j later)) spares.2 member

end OsLab.Overlay
