import OsLab.Kernel.Devices.Console
import OsLab.Kernel.Devices.Render
import OsLab.Kernel.Kmt.Semaphore
import Mathlib.Data.Finset.Card

/-!
# Who draws what, when

Any number of tasks write to the four terminals, and `tty_task` chooses the display that is shown. A
terminal's lock is held while characters are put on it, and again while it is drawn; between these two
times other tasks run. `fb_write` holds `fb_sem` from its start to its end, so one call of it is one step.
-/

namespace OsLab.Kernel.Devices

open Painting Permits
open Kmt (Sem semInit semWaitRound semIncrement)

namespace Display

/-- Where a task is in the code that draws; `i` is the terminal. -/
inductive Pc where
  | outside
  /-- In `tty_write`, before it has the lock. -/
  | write (i : Fin 4) (buf : List UInt8)
  /-- In the loop of `tty_write`. -/
  | putting (i : Fin 4) (rest : List UInt8)
  /-- In `tty_render`, before it has the lock. -/
  | render (i : Fin 4)
  /-- In the loops of `tty_render`, before the cell in column `x` of row `y`. -/
  | drawing (i : Fin 4) (y x : Nat)
  /-- In `tty_task`, behind `tty_mark_all` of the terminal that is to be shown. -/
  | select (i : Fin 4)

/-- A terminal and its lock; `tty->display` is its number. -/
structure TtyDev where
  screen : Screen
  lock : Sem

structure State (Task : Type) where
  fb : Fb
  vga : Raster FBPixel
  ttys : Fin 4 → TtyDev
  pc : Task → Pc

variable {Task : Type} [DecidableEq Task]

def State.goto (s : State Task) (t : Task) (pc : Pc) : State Task := { s with pc := Function.update s.pc t pc }

def State.setScreen (s : State Task) (i : Fin 4) (screen : Screen) : State Task :=
  { s with ttys := Function.update s.ttys i { s.ttys i with screen } }

def State.setLock (s : State Task) (i : Fin 4) (lock : Sem) : State Task :=
  { s with ttys := Function.update s.ttys i { s.ttys i with lock } }

/-- The loops of `tty_render` go on to the next cell. -/
def nextCell (tty : Screen) (y x : Nat) : Nat × Nat := if x + 1 < tty.columns then (y, x + 1) else (y + 1, 0)

/-- The steps of a task, with the characters that it puts on a terminal. A task that gets no permit
yields and tries again. -/
inductive Step (t : Task) (s : State Task) : Except Halt (State Task) → List (Fin 4 × UInt8) → Prop where
  | callWrite (i : Fin 4) (buf : List UInt8) : s.pc t = .outside → Step t s (.ok (s.goto t (.write i buf))) []
  | callSwitch (i : Fin 4) : s.pc t = .outside →
      Step t s (do
        let screen ← ttyMarkAll (s.ttys i).screen
        .ok ((s.setScreen i screen).goto t (.select i))) []
  | lockWrite {i : Fin 4} {buf : List UInt8} {lock : Sem} : s.pc t = .write i buf →
      semWaitRound (s.ttys i).lock = (true, lock) → Step t s (.ok ((s.setLock i lock).goto t (.putting i buf))) []
  | put {i : Fin 4} {ch : UInt8} {rest : List UInt8} : s.pc t = .putting i (ch :: rest) →
      Step t s (do
        let screen ← ttyPutc (s.ttys i).screen ch
        .ok ((s.setScreen i screen).goto t (.putting i rest))) [(i, ch)]
  | unlockWrite {i : Fin 4} : s.pc t = .putting i [] →
      Step t s (do
        let lock ← semIncrement (s.ttys i).lock
        .ok ((s.setLock i lock).goto t (.render i))) []
  | lockRender {i : Fin 4} {lock : Sem} : s.pc t = .render i →
      semWaitRound (s.ttys i).lock = (true, lock) → Step t s (.ok ((s.setLock i lock).goto t (.drawing i 0 0))) []
  | draw {i : Fin 4} {y x : Nat} : s.pc t = .drawing i y x → y < (s.ttys i).screen.lines →
      Step t s (do
        let vga ← renderCell (s.ttys i).screen i s.fb s.vga y x
        let (y, x) := nextCell (s.ttys i).screen y x
        .ok ({ s with vga }.goto t (.drawing i y x))) []
  | unlockRender {i : Fin 4} {y x : Nat} : s.pc t = .drawing i y x → ¬ y < (s.ttys i).screen.lines →
      Step t s (do
        let lock ← semIncrement (s.ttys i).lock
        .ok ((s.setLock i lock).goto t .outside)) []
  | select {i : Fin 4} : s.pc t = .select i →
      Step t s (.ok ({ s with fb := fbSelect s.fb i }.goto t (.write i []))) []

/-- The names of the devices. -/
def ttyName : Fin 4 → String
  | 0 => "tty1"
  | 1 => "tty2"
  | 2 => "tty3"
  | 3 => "tty4"

/-- What the initialisation leaves: whatever memory the textures got and whatever is on the screen, the
font is loaded, and `tty_task` is about to draw the first terminal. -/
def boot (font : Nat → UInt8) (textures : Nat → UInt32) (vga : Raster FBPixel) (ttyTask : Task) : State Task where
  fb := ⟨0, fontLoad font textures⟩
  vga
  ttys i := ⟨ttyInitScreen (vga.height / 16) (vga.width / 8), semInit (ttyName i) 1⟩
  pc := Function.update (fun _ => .outside) ttyTask (.render ⟨0, Nat.zero_lt_succ 3⟩)

/-- The states that any steps of any tasks reach, with the characters put on the terminals, oldest first. -/
inductive Run (start : State Task) : State Task → List (Fin 4 × UInt8) → Prop where
  | init : Run start start []
  | step {t : Task} {s s' : State Task} {log done : List (Fin 4 × UInt8)} :
      Run start s log → Step t s (.ok s') done → Run start s' (log ++ done)

/-- The characters put on a terminal. -/
def written (log : List (Fin 4 × UInt8)) (i : Fin 4) : List UInt8 := (log.filter fun e => e.1 = i).map Prod.snd

/-! ## What the tasks still have to do -/

/-- The task holds the lock of the terminal. -/
def HasLock (i : Fin 4) : Pc → Prop
  | .putting j _ => j = i
  | .drawing j _ _ => j = i
  | _ => False

/-- The task will draw the cell of the terminal before it is done. -/
def Owes (columns : Nat) (i : Fin 4) (y x : Nat) : Pc → Prop
  | .write j _ => j = i
  | .putting j _ => j = i
  | .render j => j = i
  | .drawing j y' x' => j = i ∧ y' * columns + x' ≤ y * columns + x
  | _ => False

/-- The frame buffer has the picture of a cell. -/
def Drawn (font : Nat → UInt8) (s : State Task) (i : Fin 4) (y x : Nat) : Prop :=
  ∀ px py, CellArea y x px py → s.vga.get px py = picture font (s.ttys i).screen px py

/-- What the terminal shows for the characters put on it. -/
def terminal (lines columns : Nat) (row : 0 < lines) (col : 0 < columns) (chars : List UInt8) :
    Terminal lines columns :=
  chars.foldl Terminal.put (Terminal.init lines columns row col)

/-- What holds between any two steps, on a screen of `width` by `height` pixels: each cell of the terminal
that is shown has been drawn since it changed, or some task will draw it. -/
structure Inv (font : Nat → UInt8) (width height : Nat) (row : 0 < height / 16) (col : 0 < width / 8)
    (s : State Task) (log : List (Fin 4 × UInt8)) : Prop where
  wide : s.vga.width = width
  high : s.vga.height = height
  loaded : ∃ textures, s.fb.textures = fontLoad font textures
  shown : s.fb.current < 4
  screen : ∀ i, Shows (s.ttys i).screen (terminal _ _ row col (written log i))
  marked : ∀ i, (s.ttys i).screen.Marked
  locked : ∀ i, Exclusive (s.ttys i).lock.value fun t => HasLock i (s.pc t)
  column : ∀ t i y x, s.pc t = .drawing i y x → x < width / 8
  drawn : ∀ i : Fin 4, s.fb.current = i → ∀ y < height / 16, ∀ x < width / 8,
    Drawn font s i y x ∨ ∃ t, Owes (width / 8) i y x (s.pc t)

/-! ## The tasks change places -/

section Moves

variable {font : Nat → UInt8} {width height : Nat} {row : 0 < height / 16} {col : 0 < width / 8} {s : State Task}
  {log : List (Fin 4 × UInt8)} {t : Task} {i j : Fin 4} {y x : Nat} {p : Pc}

@[simp] theorem written_append (log log' : List (Fin 4 × UInt8)) (i : Fin 4) :
    written (log ++ log') i = written log i ++ written log' i := by
  simp [written]

/-- A task that does not draw is at another place of the code, and locks and marks may have changed. -/
theorem Inv.move (inv : Inv font width height row col s log) (ttys : Fin 4 → TtyDev)
    (screens : ∀ i, (ttys i).screen.Marked ∧ ∃ d, (ttys i).screen = { (s.ttys i).screen with dirty := d })
    (locked : ∀ i, Exclusive (ttys i).lock.value fun t' => HasLock i (Function.update s.pc t p t'))
    (column : ∀ i y x, p = .drawing i y x → x < width / 8)
    (owes : ∀ i, ∀ y < height / 16, ∀ x < width / 8, Owes (width / 8) i y x (s.pc t) → Owes (width / 8) i y x p) :
    Inv font width height row col { s with ttys := ttys, pc := Function.update s.pc t p } log := by
  refine ⟨inv.wide, inv.high, inv.loaded, inv.shown, fun i => ?_, fun i => (screens i).1, locked, ?_, ?_⟩
  · obtain ⟨-, d, same⟩ := screens i
    rw [same]
    exact (inv.screen i).dirty d
  · intro t' i y x here
    by_cases own : t' = t
    · subst own
      exact column i y x ((Function.update_self ..).symm.trans here)
    · exact inv.column t' i y x ((Function.update_of_ne own ..).symm.trans here)
  · intro i shown y hy x hx
    obtain drawn | ⟨t', owed⟩ := inv.drawn i shown y hy x hx
    · obtain ⟨-, d, same⟩ := screens i
      left
      intro px py inside
      show s.vga.get px py = picture font (ttys i).screen px py
      rw [same]
      exact drawn px py inside
    · right
      refine ⟨t', ?_⟩
      show Owes _ i y x (Function.update s.pc t p t')
      by_cases own : t' = t
      · subst own
        rw [Function.update_self]
        exact owes i y hy x hx owed
      · rwa [Function.update_of_ne own]

/-- Whether a task has a lock depends on its own place only. -/
theorem hasLock_update (t' : Task) : HasLock i (Function.update s.pc t p t') ↔
    (t' = t ∧ HasLock i p) ∨ (t' ≠ t ∧ HasLock i (s.pc t')) := by
  by_cases own : t' = t
  · subst own
    simp
  · simp [own]

/-- A step that takes no lock and gives none back. -/
theorem hasLock_kept (same : HasLock i p ↔ HasLock i (s.pc t)) (t' : Task) :
    HasLock i (Function.update s.pc t p t') ↔ HasLock i (s.pc t') := by
  rw [hasLock_update]
  by_cases own : t' = t
  · subst own
    simp [same]
  · simp [own]

/-- A task goes on without a change of the locks. -/
theorem Inv.goto (inv : Inv font width height row col s log) (before : ∀ i, ¬ HasLock i (s.pc t))
    (after : ∀ i, ¬ HasLock i p) (owes : ∀ i y x, Owes (width / 8) i y x (s.pc t) → Owes (width / 8) i y x p) :
    Inv font width height row col (s.goto t p) log := by
  have same : ∀ i, HasLock i p ↔ HasLock i (s.pc t) := fun i => by simp [before, after]
  refine inv.move s.ttys (fun i => ⟨inv.marked i, _, rfl⟩) (fun i => (inv.locked i).congr (hasLock_kept (same i))) ?_
    fun i y _ x _ => owes i y x
  · rintro i y x rfl
    exact (after i rfl).elim

omit [DecidableEq Task] in
/-- A change of a lock leaves the screens alone. -/
theorem Inv.setLock (inv : Inv font width height row col s log) (lock : Sem) (j : Fin 4) :
    ((s.setLock i lock).ttys j).screen.Marked ∧
      ∃ d, ((s.setLock i lock).ttys j).screen = { (s.ttys j).screen with dirty := d } := by
  have same : ((s.setLock i lock).ttys j).screen = (s.ttys j).screen := by
    by_cases here : j = i
    · subst here
      simp [State.setLock]
    · simp [State.setLock, here]
  rw [same]
  exact ⟨inv.marked j, _, rfl⟩

/-- A task takes the lock of a terminal. -/
theorem Inv.lock {lock : Sem} (inv : Inv font width height row col s log) (before : ∀ j, ¬ HasLock j (s.pc t))
    (after : ∀ j, HasLock j p ↔ j = i) (round : semWaitRound (s.ttys i).lock = (true, lock))
    (column : ∀ i y x, p = .drawing i y x → x < width / 8)
    (owes : ∀ i y x, Owes (width / 8) i y x (s.pc t) → Owes (width / 8) i y x p) :
    Inv font width height row col ((s.setLock i lock).goto t p) log := by
  have taken : 0 < (s.ttys i).lock.value ∧ lock.value = (s.ttys i).lock.value - 1 := by
    unfold semWaitRound at round
    split at round
    · next some =>
      rw [Prod.mk.injEq] at round
      exact ⟨some, by rw [← round.2]⟩
    · simp at round
  refine inv.move (s.setLock i lock).ttys (inv.setLock lock) ?_ column fun i y _ x _ => owes i y x
  · intro j
    by_cases here : j = i
    · subst here
      simp only [State.setLock, Function.update_self]
      rw [taken.2]
      refine (inv.locked j).enter (t := t) taken.1 fun t' => ?_
      rw [hasLock_update]
      by_cases own : t' = t
      · simp [own, after]
      · simp [own]
    · simp only [State.setLock, Function.update_of_ne here]
      exact (inv.locked j).congr (hasLock_kept (by simp [before, after, here]))

/-- A task gives the lock of a terminal back. -/
theorem Inv.unlock (inv : Inv font width height row col s log) (before : ∀ j, HasLock j (s.pc t) ↔ j = i)
    (after : ∀ j, ¬ HasLock j p)
    (owes : ∀ i, ∀ y < height / 16, ∀ x < width / 8, Owes (width / 8) i y x (s.pc t) → Owes (width / 8) i y x p) :
    ∃ lock, semIncrement (s.ttys i).lock = .ok lock ∧
      Inv font width height row col ((s.setLock i lock).goto t p) log := by
  have members : ∀ t', HasLock i (Function.update s.pc t p t') ↔ t' ≠ t ∧ HasLock i (s.pc t') := fun t' => by
    rw [hasLock_update]
    simp [after]
  obtain ⟨zero, free⟩ := (inv.locked i).leave ((before i).2 rfl) members
  refine ⟨{ (s.ttys i).lock with value := (s.ttys i).lock.value + 1 }, ?_, ?_⟩
  · unfold semIncrement
    rw [if_pos (by rw [zero]; decide)]
  · refine inv.move (s.setLock i _).ttys (inv.setLock _) ?_ ?_ owes
    · intro j
      by_cases here : j = i
      · subst here
        simp only [State.setLock, Function.update_self]
        exact free
      · simp only [State.setLock, Function.update_of_ne here]
        exact (inv.locked j).congr (hasLock_kept (by simp [before, after, here]))
    · rintro i y x rfl
      exact (after i rfl).elim

/-- `tty_task` has marked all cells and will show the terminal. -/
theorem Inv.callSwitch (inv : Inv font width height row col s log) (i : Fin 4) (here : s.pc t = .outside) :
    ∃ screen, ttyMarkAll (s.ttys i).screen = .ok screen ∧
      Inv font width height row col ((s.setScreen i screen).goto t (.select i)) log := by
  obtain ⟨d, mark⟩ := ttyMarkAll_run (s.ttys i).screen
  refine ⟨_, mark, ?_⟩
  refine inv.move (s.setScreen i _).ttys (fun j => ?_) (fun j => ?_) nofun ?_
  · by_cases same : j = i
    · subst same
      simp only [State.setScreen, Function.update_self]
      exact ⟨(markCells_marked mark).marked (inv.marked j), d, rfl⟩
    · simp only [State.setScreen, Function.update_of_ne same]
      exact ⟨inv.marked j, _, rfl⟩
  · have lock : ∀ screen, ((s.setScreen i screen).ttys j).lock = (s.ttys j).lock := by
      intro screen
      by_cases same : j = i
      · subst same
        simp [State.setScreen]
      · simp [State.setScreen, same]
    rw [lock]
    exact (inv.locked j).congr (hasLock_kept (by simp [here, HasLock]))
  · intro j y _ x _ owed
    rw [here] at owed
    exact owed.elim

/-- Another terminal is shown, and the task that chose it will draw it. -/
theorem Inv.select (inv : Inv font width height row col s log) (here : s.pc t = .select i) :
    Inv font width height row col ({ s with fb := fbSelect s.fb i }.goto t (.write i [])) log := by
  have other : ∀ t', t' ≠ t → ({ s with fb := fbSelect s.fb i }.goto t (.write i [])).pc t' = s.pc t' :=
    fun t' own => Function.update_of_ne own ..
  have own : ({ s with fb := fbSelect s.fb i }.goto t (.write i [])).pc t = .write i [] := Function.update_self ..
  refine ⟨inv.wide, inv.high, ?_, ?_, inv.screen, inv.marked, fun j => (inv.locked j).congr fun t' => ?_, ?_, ?_⟩
  · obtain ⟨textures, loaded⟩ := inv.loaded
    exact ⟨textures, (fbSelect_textures ..).trans loaded⟩
  · show (fbSelect s.fb i).current < 4
    rw [fbSelect_current]
    exact i.isLt
  · by_cases same : t' = t
    · subst same
      rw [own, here]
      exact Iff.rfl
    · rw [other t' same]
  · intro t' j y x drawing
    by_cases same : t' = t
    · subst same
      rw [own] at drawing
      cases drawing
    · rw [other t' same] at drawing
      exact inv.column t' j y x drawing
  · intro j shown y _ x _
    refine .inr ⟨t, ?_⟩
    rw [own]
    exact Fin.ext ((fbSelect_current s.fb i).symm.trans shown)

/-- A character is put on a terminal by the task that has its lock; that task will draw all cells of it. -/
theorem Inv.put {ch : UInt8} {rest : List UInt8} (two : 2 ≤ height / 16 * (width / 8))
    (inv : Inv font width height row col s log) (here : s.pc t = .putting i (ch :: rest)) :
    ∃ screen, ttyPutc (s.ttys i).screen ch = .ok screen ∧
      Inv font width height row col ((s.setScreen i screen).goto t (.putting i rest)) (log ++ [(i, ch)]) := by
  obtain ⟨screen, put, shows⟩ := (inv.screen i).putc two ch
  have other : ∀ t', t' ≠ t → ((s.setScreen i screen).goto t (.putting i rest)).pc t' = s.pc t' :=
    fun t' own => Function.update_of_ne own ..
  have own : ((s.setScreen i screen).goto t (.putting i rest)).pc t = .putting i rest := Function.update_self ..
  have this : ((s.setScreen i screen).goto t (.putting i rest)).ttys i = { s.ttys i with screen } :=
    Function.update_self ..
  have those : ∀ j, j ≠ i → ((s.setScreen i screen).goto t (.putting i rest)).ttys j = s.ttys j :=
    fun j ne => Function.update_of_ne ne ..
  refine ⟨screen, put, inv.wide, inv.high, inv.loaded, inv.shown, fun j => ?_, fun j => ?_, fun j => ?_, ?_, ?_⟩
  · by_cases same : j = i
    · subst same
      have one : written [(j, ch)] j = [ch] := by simp [written]
      rw [this, written_append, one]
      unfold terminal
      rw [List.foldl_append]
      exact shows
    · have none : written [(i, ch)] j = [] := by simp [written, Ne.symm same]
      rw [those j same, written_append, none, List.append_nil]
      exact inv.screen j
  · by_cases same : j = i
    · subst same
      rw [this]
      exact (ttyPutc_marked put).marked (inv.marked j)
    · rw [those j same]
      exact inv.marked j
  · have lock : (((s.setScreen i screen).goto t (.putting i rest)).ttys j).lock = (s.ttys j).lock := by
      by_cases same : j = i
      · subst same
        rw [this]
      · rw [those j same]
    rw [lock]
    refine (inv.locked j).congr fun t' => ?_
    by_cases same : t' = t
    · subst same
      rw [own, here]
      exact Iff.rfl
    · rw [other t' same]
  · intro t' j y x drawing
    by_cases same : t' = t
    · subst same
      rw [own] at drawing
      cases drawing
    · rw [other t' same] at drawing
      exact inv.column t' j y x drawing
  · intro j shown y hy x hx
    by_cases same : j = i
    · subst same
      refine .inr ⟨t, ?_⟩
      rw [own]
      rfl
    · obtain drawn | ⟨t', owed⟩ := inv.drawn j shown y hy x hx
      · left
        intro px py inside
        rw [those j same]
        exact drawn px py inside
      · refine .inr ⟨t', ?_⟩
        by_cases own' : t' = t
        · subst own'
          rw [here] at owed
          exact (same owed.symm).elim
        · rwa [other t' own']

/-- The cells come one after the other. -/
theorem nextCell_spec (tty : Screen) (y : Nat) (inside : x < tty.columns) : (nextCell tty y x).2 < tty.columns ∧
    (nextCell tty y x).1 * tty.columns + (nextCell tty y x).2 = y * tty.columns + x + 1 := by
  unfold nextCell
  split
  · next more => exact ⟨more, rfl⟩
  · refine ⟨by dsimp only; omega, ?_⟩
    dsimp only
    rw [Nat.succ_mul]
    omega

/-- A cell is drawn by the task that has the lock of its terminal. -/
theorem Inv.draw (small : width < 2 ^ 16 ∧ height < 2 ^ 16) (inv : Inv font width height row col s log)
    (here : s.pc t = .drawing i y x) (inside : y < (s.ttys i).screen.lines) :
    ∃ vga, renderCell (s.ttys i).screen i s.fb s.vga y x = .ok vga ∧
      Inv font width height row col ({ s with vga }.goto t (.drawing i (nextCell (s.ttys i).screen y x).1
        (nextCell (s.ttys i).screen y x).2)) log := by
  have shows := inv.screen i
  have hx := inv.column t i y x here
  have columns := shows.columns
  have lines := shows.lines
  obtain ⟨before, next⟩ := nextCell_spec (s.ttys i).screen y (show x < (s.ttys i).screen.columns from columns ▸ hx)
  generalize nextCell (s.ttys i).screen y x = cell at before next
  rw [columns] at before next
  have hy : y < height / 16 := lines ▸ inside
  have number : y * (width / 8) + x < (s.ttys i).screen.size := by
    rw [shows.size]
    exact index_lt ⟨y, hy⟩ ⟨x, hx⟩
  have marked := inv.marked i _ number
  rw [← columns] at marked
  -- what is painted is the cell of the terminal that is shown, or nothing
  have paints : ∃ vga, renderCell (s.ttys i).screen i s.fb s.vga y x = .ok vga ∧
      ∃ area, Paints s.vga area (picture font (s.ttys i).screen) vga ∧
        (s.fb.current = i → area = CellArea y x) ∧ (s.fb.current ≠ i → area = fun _ _ => False) := by
    have display : i.val % 2 ^ 4 = i := Nat.mod_eq_of_lt (by omega)
    obtain ⟨textures, loaded⟩ := inv.loaded
    by_cases shown : s.fb.current = i
    · obtain ⟨vga, run, paints⟩ := renderCell_paints s.vga loaded (display.trans shown.symm) marked (by omega)
        (by omega)
      exact ⟨vga, run, _, paints, fun _ => rfl, fun other => (other shown).elim⟩
    · refine ⟨s.vga, renderCell_hidden fun same => shown (same.symm.trans display), _, Paints.refl _ _,
        fun same => (shown same).elim, fun _ => rfl⟩
  obtain ⟨vga, run, area, paints, own, others⟩ := paints
  have other : ∀ t', t' ≠ t → ({ s with vga }.goto t (.drawing i cell.1 cell.2)).pc t' = s.pc t' :=
    fun t' ne => Function.update_of_ne ne ..
  have self : ({ s with vga }.goto t (.drawing i cell.1 cell.2)).pc t = .drawing i cell.1 cell.2 :=
    Function.update_self ..
  refine ⟨vga, run, paints.width.trans inv.wide, paints.height.trans inv.high, inv.loaded, inv.shown, inv.screen,
    inv.marked, fun j => (inv.locked j).congr fun t' => ?_, ?_, ?_⟩
  · by_cases same : t' = t
    · subst same
      rw [self, here]
      exact Iff.rfl
    · rw [other t' same]
  · intro t' j y' x' drawing
    by_cases same : t' = t
    · subst same
      rw [self] at drawing
      cases drawing
      exact before
    · rw [other t' same] at drawing
      exact inv.column t' j y' x' drawing
  · intro j shown y' hy' x' hx'
    have shown : s.fb.current = j := shown
    have onScreen : ∀ px py, CellArea y' x' px py → px < s.vga.width ∧ py < s.vga.height := by
      intro px py ⟨_, right, _, bottom⟩
      rw [inv.wide, inv.high]
      omega
    by_cases this : j = i ∧ y' = y ∧ x' = x
    · obtain ⟨rfl, rfl, rfl⟩ := this
      left
      intro px py inside
      obtain ⟨hpx, hpy⟩ := onScreen px py inside
      exact paints.inside px hpx py hpy (own shown ▸ inside)
    · obtain drawn | ⟨t', owed⟩ := inv.drawn j shown y' hy' x' hx'
      · left
        intro px py pixel
        obtain ⟨hpx, hpy⟩ := onScreen px py pixel
        have elsewhere : ¬ area px py := by
          by_cases same : j = i
          · subst same
            rw [own shown]
            intro painted
            unfold CellArea at pixel painted
            exact this ⟨rfl, by omega, by omega⟩
          · rw [others fun current => same (Fin.ext (shown.symm.trans current))]
            exact id
        exact (paints.outside px hpx py hpy elsewhere).trans (drawn px py pixel)
      · refine .inr ⟨t', ?_⟩
        by_cases same : t' = t
        · subst same
          rw [self]
          rw [here] at owed
          obtain ⟨rfl, later⟩ := owed
          refine ⟨rfl, ?_⟩
          rw [next]
          have apart : y * (width / 8) + x ≠ y' * (width / 8) + x' := by
            intro equal
            obtain ⟨rows, cols⟩ := @index_inj _ _ ⟨y, hy⟩ ⟨y', hy'⟩ ⟨x, hx⟩ ⟨x', hx'⟩ equal
            exact this ⟨rfl, (Fin.mk.inj_iff.1 rows).symm, (Fin.mk.inj_iff.1 cols).symm⟩
          omega
        · rwa [other t' same]

end Moves

/-! ## Runs -/

section Runs

variable {font : Nat → UInt8} {textures : Nat → UInt32} {vga : Raster FBPixel} {ttyTask t : Task}
  {s : State Task} {log done : List (Fin 4 × UInt8)} {r : Except Halt (State Task)}

theorem inv_boot (row : 0 < vga.height / 16) (col : 0 < vga.width / 8) :
    Inv font vga.width vga.height row col (boot font textures vga ttyTask) [] := by
  refine ⟨rfl, rfl, ⟨textures, by simp only [boot]⟩, Nat.zero_lt_succ _, fun i => ?_, fun i k _ => ?_, fun i => ?_, ?_, ?_⟩
  · exact @shows_init (vga.height / 16) (vga.width / 8) row col
  · show (1 : UInt8) ≠ 0
    decide
  · refine .inl ⟨rfl, fun t => ?_⟩
    unfold boot
    dsimp only
    by_cases own : t = ttyTask
    · subst own
      rw [Function.update_self]
      exact id
    · rw [Function.update_of_ne own]
      exact id
  · intro t i y x here
    unfold boot at here
    dsimp only at here
    by_cases own : t = ttyTask
    · subst own
      rw [Function.update_self] at here
      cases here
    · rw [Function.update_of_ne own] at here
      cases here
  · intro i shown y _ x _
    refine .inr ⟨ttyTask, ?_⟩
    unfold boot
    dsimp only
    rw [Function.update_self]
    exact Fin.ext shown

/-- No step halts, and each keeps the invariant. -/
theorem Inv.step {width height : Nat} {row : 0 < height / 16} {col : 0 < width / 8}
    (two : 2 ≤ height / 16 * (width / 8)) (small : width < 2 ^ 16 ∧ height < 2 ^ 16)
    (inv : Inv font width height row col s log) (step : Step t s r done) :
    ∃ s', r = .ok s' ∧ Inv font width height row col s' (log ++ done) := by
  cases step with
  | callWrite i buf here =>
    refine ⟨_, rfl, ?_⟩
    rw [List.append_nil]
    refine inv.goto ?_ (fun _ => id) ?_ <;> simp [here, HasLock, Owes]
  | callSwitch i here =>
    obtain ⟨screen, mark, inv⟩ := inv.callSwitch i here
    rw [mark, List.append_nil]
    exact ⟨_, rfl, inv⟩
  | @lockWrite i buf lock here round =>
    refine ⟨_, rfl, ?_⟩
    rw [List.append_nil]
    refine inv.lock ?_ ?_ round nofun ?_ <;> simp [here, HasLock, Owes, eq_comm]
  | put here =>
    obtain ⟨screen, put, inv⟩ := inv.put two here
    rw [put]
    exact ⟨_, rfl, inv⟩
  | @unlockWrite i here =>
    obtain ⟨lock, give, inv⟩ := inv.unlock (t := t) (i := i) (p := .render i) (by simp [here, HasLock, eq_comm])
      (fun _ => id) (by simp [here, Owes])
    rw [give, List.append_nil]
    exact ⟨_, rfl, inv⟩
  | @lockRender i lock here round =>
    refine ⟨_, rfl, ?_⟩
    rw [List.append_nil]
    refine inv.lock ?_ ?_ round ?_ ?_
    · simp [here, HasLock]
    · simp [HasLock, eq_comm]
    · rintro _ _ _ same
      cases same
      exact col
    · intro j y x owed
      rw [here] at owed
      exact ⟨owed, by omega⟩
  | draw here inside =>
    obtain ⟨vga, run, inv⟩ := inv.draw small here inside
    rw [run, List.append_nil]
    exact ⟨_, rfl, inv⟩
  | @unlockRender i y x here done =>
    -- behind the last row nothing is left to draw
    obtain ⟨lock, give, inv⟩ := inv.unlock (t := t) (i := i) (p := .outside) (by simp [here, HasLock, eq_comm])
      (fun _ => id) fun j y' hy' x' hx' owed => by
        rw [here] at owed
        obtain ⟨-, later⟩ := owed
        have lines := (inv.screen i).lines
        have last := index_lt (⟨y', hy'⟩ : Fin (height / 16)) (⟨x', hx'⟩ : Fin (width / 8))
        have behind : width / 8 * (height / 16) ≤ y * (width / 8) := by
          rw [Nat.mul_comm]
          exact Nat.mul_le_mul_right _ (by omega)
        dsimp only at last
        omega
    rw [give, List.append_nil]
    exact ⟨_, rfl, inv⟩
  | select here =>
    refine ⟨_, rfl, ?_⟩
    rw [List.append_nil]
    exact inv.select here

theorem Run.inv (row : 0 < vga.height / 16) (col : 0 < vga.width / 8)
    (two : 2 ≤ vga.height / 16 * (vga.width / 8)) (small : vga.width < 2 ^ 16 ∧ vga.height < 2 ^ 16)
    (run : Run (boot font textures vga ttyTask) s log) : Inv font vga.width vga.height row col s log := by
  induction run with
  | init => exact inv_boot row col
  | step _ step ih =>
    obtain ⟨s', same, inv⟩ := ih.step two small step
    cases same
    exact inv

/-! ## Tasks that finish -/

/-- The terminal that a task works on. -/
def Pc.tty : Pc → Option (Fin 4)
  | .outside => none
  | .write i _ => i
  | .putting i _ => i
  | .render i => i
  | .drawing i _ _ => i
  | .select i => i

/-- No other task has the lock of the terminal that the task works on. -/
def Unhindered (s : State Task) (t : Task) : Prop :=
  ∀ i, (s.pc t).tty = some i → ∀ t', t' ≠ t → ¬ HasLock i (s.pc t')

/-- The run goes on to a state in which the task is done and the others are where they were. -/
def Finishes (start s : State Task) (t : Task) : Prop :=
  ∃ s' log, Run start s' log ∧ s'.pc = Function.update s.pc t .outside

section Finish

variable {i : Fin 4} {y x : Nat} {rest : List UInt8} {start : State Task}

/-- What a task can do after a step it can do before the step. -/
theorem Finishes.step {s' : State Task} {p : Pc} (rest : Finishes start s' t)
    (moved : s'.pc = Function.update s.pc t p) : Finishes start s t := by
  obtain ⟨s'', log, run, places⟩ := rest
  exact ⟨s'', log, run, by rw [places, moved, Function.update_idem]⟩

theorem Unhindered.step {s' : State Task} {p : Pc} (h : Unhindered s t) (moved : s'.pc = Function.update s.pc t p)
    (same : p.tty = (s.pc t).tty) : Unhindered s' t := by
  intro i tty t' other
  rw [moved, Function.update_self, same] at tty
  rw [moved, Function.update_of_ne other]
  exact h i tty t' other

variable {width height : Nat} {row : 0 < height / 16} {col : 0 < width / 8}

omit [DecidableEq Task] in
/-- The task that has a lock can give it back. -/
theorem Inv.gives (inv : Inv font width height row col s log) (held : HasLock i (s.pc t)) :
    ∃ lock, semIncrement (s.ttys i).lock = .ok lock := by
  obtain ⟨-, none⟩ | ⟨zero, -⟩ := inv.locked i
  · exact (none t held).elim
  · unfold semIncrement
    rw [if_pos (by rw [zero]; decide)]
    exact ⟨_, rfl⟩

omit [DecidableEq Task] in
/-- A lock that nobody has can be taken. -/
theorem Inv.takes (inv : Inv font width height row col s log) (free : ∀ t, ¬ HasLock i (s.pc t)) :
    ∃ lock, semWaitRound (s.ttys i).lock = (true, lock) := by
  obtain ⟨one, -⟩ | ⟨-, t, members⟩ := inv.locked i
  · unfold semWaitRound
    rw [one]
    exact ⟨_, rfl⟩
  · exact (free t ((members t).2 rfl)).elim

/-- The lock that the task is about to take is free. -/
theorem Unhindered.lock_free (free : Unhindered s t) (tty : (s.pc t).tty = some i) (without : ¬ HasLock i (s.pc t)) (t' : Task) :
    ¬ HasLock i (s.pc t') := by
  by_cases own : t' = t
  · rwa [own]
  · exact free i tty t' own

/-- What is reached from the state satisfies the invariant. -/
def Kept (font : Nat → UInt8) (width height : Nat) (row : 0 < height / 16) (col : 0 < width / 8)
    (start : State Task) : Prop := ∀ s log, Run start s log → ∃ log', Inv font width height row col s log'

variable (kept : Kept font width height row col start) (small : width < 2 ^ 16 ∧ height < 2 ^ 16)
include kept small

/-- The rest of the cells is drawn; the induction is on their number. -/
theorem Run.draws (run : Run start s log) (here : s.pc t = .drawing i y x) : Finishes start s t := by
  generalize left : width / 8 * (height / 16) - (y * (width / 8) + x) = n
  induction n using Nat.strong_induction_on generalizing s log y x with
  | _ n ih =>
    obtain ⟨log', inv⟩ := kept s log run
    by_cases inside : y < (s.ttys i).screen.lines
    · obtain ⟨vga', draw, -⟩ := inv.draw small here inside
      have columns := (inv.screen i).columns
      have lines := (inv.screen i).lines
      have hx := inv.column t i y x here
      have number := index_lt (⟨y, lines ▸ inside⟩ : Fin (height / 16)) (⟨x, hx⟩ : Fin (width / 8))
      obtain ⟨before, next⟩ := nextCell_spec (s.ttys i).screen y (show x < (s.ttys i).screen.columns from columns ▸ hx)
      have step := Step.draw here inside
      rw [draw, ok_bind] at step
      generalize nextCell (s.ttys i).screen y x = cell at step next
      rw [columns] at next
      exact (ih _ (by dsimp only at number; omega) (run.step step) (Function.update_self ..) rfl).step rfl
    · obtain ⟨lock, give⟩ := inv.gives (t := t) (i := i) (by rw [here]; rfl)
      have step := Step.unlockRender here inside
      rw [give] at step
      exact ⟨_, _, run.step step, rfl⟩

theorem Run.renders (run : Run start s log) (here : s.pc t = .render i) (free : Unhindered s t) :
    Finishes start s t := by
  obtain ⟨log', inv⟩ := kept s log run
  obtain ⟨lock, round⟩ := inv.takes (free.lock_free (by rw [here]; rfl) (by rw [here]; exact id))
  exact (Run.draws kept small (run.step (.lockRender here round)) (Function.update_self ..)).step rfl

/-- The rest of the characters is put on the terminal. -/
theorem Run.puts (two : 2 ≤ height / 16 * (width / 8)) (run : Run start s log) (here : s.pc t = .putting i rest)
    (free : Unhindered s t) : Finishes start s t := by
  induction rest generalizing s log with
  | nil =>
    obtain ⟨log', inv⟩ := kept s log run
    obtain ⟨lock, give⟩ := inv.gives (t := t) (i := i) (by rw [here]; rfl)
    have step := Step.unlockWrite here
    rw [give] at step
    exact (Run.renders kept small (run.step step) (Function.update_self ..)
      (free.step rfl (by rw [here]; rfl))).step rfl
  | cons ch rest ih =>
    obtain ⟨log', inv⟩ := kept s log run
    obtain ⟨screen, put, -⟩ := inv.put two here
    have step := Step.put here
    rw [put] at step
    exact (ih (run.step step) (Function.update_self ..) (free.step rfl (by rw [here]; rfl))).step rfl

/-- A task that no other one keeps from its lock can get to its end. -/
theorem Run.finishes (two : 2 ≤ height / 16 * (width / 8)) (run : Run start s log) (free : Unhindered s t) :
    Finishes start s t := by
  have writes : ∀ {s : State Task} {log : List (Fin 4 × UInt8)} {i : Fin 4} {buf : List UInt8}, Run start s log →
      s.pc t = .write i buf → Unhindered s t → Finishes start s t := by
    intro s log i buf run here free
    obtain ⟨log', inv⟩ := kept s log run
    obtain ⟨lock, round⟩ := inv.takes (free.lock_free (by rw [here]; rfl) (by rw [here]; exact id))
    exact (Run.puts kept small two (run.step (.lockWrite here round)) (Function.update_self ..)
      (free.step rfl (by rw [here]; rfl))).step rfl
  match here : s.pc t with
  | .outside => exact ⟨s, log, run, by rw [← here, Function.update_eq_self]⟩
  | .write i buf => exact writes run here free
  | .putting i rest => exact Run.puts kept small two run here free
  | .render i => exact Run.renders kept small run here free
  | .drawing i y x => exact Run.draws kept small run here
  | .select i =>
    exact (writes (run.step (.select here)) (Function.update_self ..) (free.step rfl (by rw [here]; rfl))).step rfl

/-- If finitely many tasks are on their way, they can all get to their ends, those that have a lock first. -/
theorem Run.settles (two : 2 ≤ height / 16 * (width / 8)) (run : Run start s log) {busy : Finset Task}
    (others : ∀ t, t ∉ busy → s.pc t = .outside) : ∃ s' log', Run start s' log' ∧ ∀ t, s'.pc t = .outside := by
  induction busy using Finset.strongInduction generalizing s log with
  | H busy ih =>
    obtain ⟨log', inv⟩ := kept s log run
    -- a task that can finish leaves fewer tasks
    have fewer : ∀ t ∈ busy, Unhindered s t → ∃ s' log', Run start s' log' ∧ ∀ t, s'.pc t = .outside := by
      intro t member free
      obtain ⟨s', log', run', places⟩ := Run.finishes kept small two run free
      refine ih _ (Finset.erase_ssubset member) run' fun t' out => ?_
      rw [places]
      by_cases own : t' = t
      · rw [own, Function.update_self]
      · rw [Function.update_of_ne own]
        exact others t' fun member => out (Finset.mem_erase.2 ⟨own, member⟩)
    have member : ∀ t, s.pc t ≠ .outside → t ∈ busy := fun t way => by
      by_contra out
      exact way (others t out)
    by_cases held : ∃ t i, HasLock i (s.pc t)
    · obtain ⟨t, i, held⟩ := held
      refine fewer t (member t fun out => by rw [out] at held; exact held) fun j tty t' other lock => ?_
      have same : j = i := by
        cases here : s.pc t <;> rw [here] at held tty <;> cases tty <;> first | exact held | exact held.elim
      exact other ((inv.locked i).unique held (same ▸ lock))
    · by_cases quiet : ∀ t, s.pc t = .outside
      · exact ⟨s, log, run, quiet⟩
      · obtain ⟨t, way⟩ := not_forall.1 quiet
        exact fewer t (member t way) fun j _ t' _ lock => held ⟨t', j, lock⟩

end Finish

section Start

variable (row : 0 < vga.height / 16) (col : 0 < vga.width / 8) (two : 2 ≤ vga.height / 16 * (vga.width / 8))
  (small : vga.width < 2 ^ 16 ∧ vga.height < 2 ^ 16)

theorem Run.trans {start s' : State Task} {log' : List (Fin 4 × UInt8)} (run : Run start s log) (more : Run s s' log') :
    Run start s' (log ++ log') := by
  induction more with
  | init => rwa [List.append_nil]
  | step _ step ih =>
    rw [← List.append_assoc]
    exact ih.step step

/-- Finitely many tasks are on their way. -/
theorem Run.busy (run : Run (boot font textures vga ttyTask) s log) :
    ∃ busy : Finset Task, ∀ t, t ∉ busy → s.pc t = .outside := by
  induction run with
  | init =>
    refine ⟨{ttyTask}, fun t other => ?_⟩
    show Function.update (fun _ => Pc.outside) ttyTask (.render 0) t = .outside
    rw [Function.update_of_ne (Finset.notMem_singleton.1 other)]
  | @step t s s' log done _ step ih =>
    obtain ⟨busy, others⟩ := ih
    have moved : ∃ p, s'.pc = Function.update s.pc t p := by
      generalize result : Except.ok s' = r at step
      cases step with
      | callWrite | lockWrite | lockRender | select =>
        cases result
        exact ⟨_, rfl⟩
      | callSwitch | put | unlockWrite | draw | unlockRender =>
        obtain ⟨_, _, result⟩ := bind_eq_ok.1 result.symm
        cases result
        exact ⟨_, rfl⟩
    obtain ⟨p, moved⟩ := moved
    refine ⟨insert t busy, fun t' out => ?_⟩
    rw [Finset.mem_insert, not_or] at out
    rw [moved, Function.update_of_ne out.1]
    exact others t' out.2

include row col two small

/-- From each state that is reached the tasks can all get to their ends. -/
theorem Run.can_settle (run : Run (boot font textures vga ttyTask) s log) :
    ∃ s' log', Run s s' log' ∧ ∀ t, s'.pc t = .outside := by
  obtain ⟨busy, others⟩ := run.busy
  have kept : Kept font vga.width vga.height row col s := fun s' log' more => ⟨_, (run.trans more).inv row col two small⟩
  exact Run.settles kept small two .init others

/-- **Drawing is safe.** Whatever the tasks write and however their steps are interleaved, no step leaves
the cells of a terminal, the textures or the frame buffer, and the tasks do not block each other: from each
state that is reached they can all get to their ends. -/
theorem drawing_safe (run : Run (boot font textures vga ttyTask) s log) :
    (∀ t r done, Step t s r done → ∃ s', r = .ok s') ∧ ∃ s' log', Run s s' log' ∧ ∀ t, s'.pc t = .outside := by
  refine ⟨fun t r done step => ?_, run.can_settle row col two small⟩
  obtain ⟨s', same, -⟩ := (run.inv row col two small).step two small step
  exact ⟨s', same⟩

end Start

/-- Two cells, whatever is on the screen before. -/
def twoCells : Raster FBPixel := ⟨16, 16, fun i => ⟨UInt8.ofNat i, 0, 0⟩⟩

theorem Run.put {start : State Task} {i : Fin 4} {ch : UInt8} {rest : List UInt8} {screen : Screen} {t : Task}
    (run : Run start s log) (here : s.pc t = .putting i (ch :: rest)) (stored : ttyPutc (s.ttys i).screen ch = .ok screen) :
    Run start ((s.setScreen i screen).goto t (.putting i rest)) (log ++ [(i, ch)]) := by
  have step := Step.put here
  rw [stored] at step
  exact run.step step

/-- A task has put an `a` on the first terminal of a machine with a screen of two cells, and still has the lock. -/
theorem drawing_safe_put : 0 < twoCells.height / 16 ∧ 0 < twoCells.width / 8 ∧
    2 ≤ twoCells.height / 16 * (twoCells.width / 8) ∧ (twoCells.width < 2 ^ 16 ∧ twoCells.height < 2 ^ 16) ∧
    ∃ s : State Bool, Run (boot (fun _ => 0) (fun _ => 0) twoCells true) s [(0, 97)] ∧ s.pc false = .putting 0 [] ∧
      (∀ t r done, Step t s r done → ∃ s', r = .ok s') ∧ ∃ s' log', Run s s' log' ∧ ∀ t, s'.pc t = .outside := by
  have called : Run (boot (fun _ => 0) (fun _ => 0) twoCells true) _ [] := .step .init (.callWrite (t := false) 0 [97] rfl)
  have locked : Run (boot (fun _ => 0) (fun _ => 0) twoCells true) _ [] := .step called (.lockWrite (t := false) rfl rfl)
  have run : Run (boot (fun _ => 0) (fun _ => 0) twoCells true) _ [(0, 97)] := locked.put (t := false) rfl rfl
  exact ⟨by decide, by decide, by decide, by decide, _, run, rfl,
    drawing_safe (by decide) (by decide) (by decide) (by decide) run⟩

end Runs

/-! ## The picture -/

/-- What is shown in a cell of a terminal: a block at the cursor, and its character elsewhere. -/
def shownChar {lines columns : Nat} (t : Terminal lines columns) (r : Fin lines) (c : Fin columns) : Nat :=
  if r = t.row ∧ c = t.col then 0xdb else (t.cell r c).toNat

section Picture

variable {font : Nat → UInt8} {textures : Nat → UInt32} {vga : Raster FBPixel} {ttyTask : Task}
  {s : State Task} {log : List (Fin 4 × UInt8)}

theorem cellChar_shows {lines columns : Nat} {tty : Screen} {t : Terminal lines columns} (shows : Shows tty t)
    (r : Fin lines) (c : Fin columns) : cellChar tty (r * columns + c) = shownChar t r c := by
  unfold cellChar shownChar
  rw [shows.cursor, shows.chars r c]
  by_cases here : r = t.row ∧ c = t.col
  · obtain ⟨rfl, rfl⟩ := here
    rw [if_pos rfl, if_pos ⟨rfl, rfl⟩]
  · rw [if_neg fun same => here (index_inj (Int.ofNat_inj.1 same)), if_neg here]

/-- **The screen shows the chosen terminal.** Let any tasks write to the terminals, and the displays be
switched, in any interleaving. Whenever no task is in the code that draws (nor waits for the lock in it), the
frame buffer shows one of the terminals, pixel by pixel: in each cell the glyph of the character that a
terminal has there after all characters written to it so far, and a block at its cursor. -/
theorem display_shows (row : 0 < vga.height / 16) (col : 0 < vga.width / 8)
    (two : 2 ≤ vga.height / 16 * (vga.width / 8)) (small : vga.width < 2 ^ 16 ∧ vga.height < 2 ^ 16)
    (run : Run (boot font textures vga ttyTask) s log) (quiet : ∀ t, s.pc t = .outside) :
    ∃ i : Fin 4, s.fb.current = i ∧
      ∀ (r : Fin (vga.height / 16)) (c : Fin (vga.width / 8)), ∀ px < 8, ∀ py < 16,
        s.vga.get (c * 8 + px) (r * 16 + py) =
          glyph font (shownChar (terminal _ _ row col (written log i)) r c) px py := by
  have inv := run.inv row col two small
  refine ⟨⟨s.fb.current, inv.shown⟩, rfl, fun r c px hpx py hpy => ?_⟩
  have shows := inv.screen ⟨s.fb.current, inv.shown⟩
  obtain drawn | ⟨t, owed⟩ := inv.drawn ⟨s.fb.current, inv.shown⟩ rfl r r.isLt c c.isLt
  · have pixel := drawn (c * 8 + px) (r * 16 + py) ⟨by omega, by omega, by omega, by omega⟩
    unfold picture at pixel
    rw [show (r.val * 16 + py) / 16 = r by omega, show (c.val * 8 + px) / 8 = c by omega,
      show (c.val * 8 + px) % 8 = px by omega, show (r.val * 16 + py) % 16 = py by omega, shows.columns,
      cellChar_shows shows] at pixel
    exact pixel
  · rw [quiet t] at owed
    exact owed.elim

/-- `tty_task` draws the first terminal on a screen of two cells. -/
theorem display_shows_start : 0 < twoCells.height / 16 ∧ 0 < twoCells.width / 8 ∧
    2 ≤ twoCells.height / 16 * (twoCells.width / 8) ∧ (twoCells.width < 2 ^ 16 ∧ twoCells.height < 2 ^ 16) ∧
    ∃ (s : State Unit) (log : List (Fin 4 × UInt8)), Run (boot (fun _ => 0) (fun _ => 0) twoCells ()) s log ∧
      (∀ t, s.pc t = .outside) ∧ ∃ i : Fin 4, s.fb.current = i ∧
        ∀ (r : Fin (16 / 16)) (c : Fin (16 / 8)), ∀ px < 8, ∀ py < 16, s.vga.get (c * 8 + px) (r * 16 + py) =
          glyph (fun _ => 0) (shownChar (terminal _ _ (by decide) (by decide) (written log i)) r c) px py := by
  obtain ⟨s, log, run, quiet⟩ := Run.can_settle (by decide) (by decide) (by decide) (by decide)
    (.init : Run (boot (fun _ => 0) (fun _ => 0) twoCells ()) _ [])
  exact ⟨by decide, by decide, by decide, by decide, s, log, run, quiet,
    display_shows (by decide) (by decide) (by decide) (by decide) run quiet⟩

end Picture

end Display

end OsLab.Kernel.Devices
