import Sshos.Daemon.Desk
import Sshos.Shell.PanelPlaces

/-!
# Sshos.Daemon.Seen

**What is seen is what is clicked.** The desktop is painted from the back to the front, the
panel last; a press looks for what it meets from the front to the back, the panel first. On
a desktop just composed, without a gesture and with nothing over it, both find the same.

Two things are outside. During a gesture a press gives it up, and does nothing else. And a
full-screen window hides the panel, which a press still meets where it would be.
-/

namespace Sshos.Daemon

open Sshos.Input (MouseEvent)
open Sshos.Lib (Bytes)
open Sshos.Render (Border Drawing Rect Stroke Style View)
open Sshos.Shell (Clock Panel PanelHitResult)
open Sshos.Wm (Desktop Roomy Size Theme Win WinHit WindowId clampTo displayRectFor drawWindow frameMin
  hitWindow lastPainter_drawWindow not_mem_drawWindow workArea)

/-- What a painting is made of, besides the desk. -/
structure Scene where
  cols : Nat
  rows : Nat
  theme : Theme := {}
  border : Border := .unicode
  clock : Clock
  /-- What is drawn on the empty desktop: the banner and the counters, or what to do. -/
  background : List (List Rect × Drawing) := []
  /-- What the application of each window draws. -/
  app : WindowId → List (List Rect × Drawing) := fun _ => []

namespace Desk

variable (s : Desk)

/-- A full-screen window that has the focus hides the panel. -/
def panelHidden : Bool :=
  match s.wm.find s.wm.focused with
  | none => false
  | some w => w.app.mode = .fullscreen

/-- The outline of the window that is resized. -/
def outline (sc : Scene) : List (Stroke PressTarget) :=
  match s.drag with
  | .resizing win o =>
      match s.wm.find win with
      | none => []
      | some w =>
          [{ owner := fun _ _ => .window w .frame, view := View.screen sc.cols sc.rows
             drawing := .box (clampTo o s.lastWork (frameMin w.app.minSize)) sc.border
               { fg := sc.theme.accent, bg := sc.theme.desktopBg } }]
  | _ => []

/-- The painting of the desk, when nothing covers it. -/
def render (sc : Scene) : List (Stroke PressTarget) :=
  let v := View.screen sc.cols sc.rows
  { owner := fun _ _ => .desktop, view := v
    drawing := .fill { x := 0, y := 0, w := sc.cols, h := sc.rows } { bg := sc.theme.desktopBg } } ::
  sc.background.map (fun (rs, d) =>
    { owner := fun _ _ => .desktop, view := rs.foldl View.sub v, drawing := d }) ++
  (s.wm.stack.filter fun w => Desktop.Visible w).flatMap (fun w =>
    (drawWindow v w (w.id = s.wm.focused) sc.theme sc.border (sc.app w.id)).map
      (Stroke.by' (.window w))) ++
  s.outline sc ++
  (if s.panelHidden then []
    else (s.panel.draw v sc.theme sc.clock.text sc.clock.date).map (Stroke.by' .panel))

variable {s}

/-! ### A desk just composed -/

/-- What a composition leaves: windows that have room, and a panel laid out for them. -/
structure Laid (s : Desk) : Prop where
  roomy : ∀ w ∈ s.wm.stack, Roomy w.app.displayRect
  tidy : Panel.Tidy s.panel.rect s.panel.items

theorem roomy_displayRectFor {f : Sshos.Wm.Frame} {work : Rect} {cols rows : Int} (hcols : 40 ≤ cols)
    (hrows : 12 ≤ rows) (hwork : Roomy work) : Roomy (displayRectFor f work cols rows) := by
  have hx := hwork.x
  have hy := hwork.y
  unfold displayRectFor
  split
  · exact hwork
  · constructor <;> simp only <;> omega
  all_goals
    unfold clampTo frameMin
    constructor <;> simp only <;> omega

theorem roomy_workArea (p : Panel) {cols rows : Int} (hcols : 40 ≤ cols) (hrows : 12 ≤ rows) :
    Roomy (workArea cols rows p.edge p.thickness) := by
  unfold workArea Panel.thickness Panel.horizontal Sshos.Shell.kVerticalCols
  cases p.edge <;> constructor <;> simp <;> omega

theorem laid_compose (s : Desk) {cols rows : Int} (hcols : 40 ≤ cols) (hrows : 12 ≤ rows)
    (utf8 badge : Bool) (hint : Bytes) (allowed : Bool)
    (hroom : (s.compose cols rows utf8 badge hint allowed).wm.openings < 2 ^ 32) :
    Laid (s.compose cols rows utf8 badge hint allowed) := by
  have hlarge : ¬ (cols < kMinCols ∨ rows < kMinRows) := by
    unfold kMinCols kMinRows
    omega
  unfold compose at hroom ⊢
  simp only [if_neg hlarge] at hroom ⊢
  generalize ((s.watchdog.openPending).closeRequested allowed) = served at *
  have hwork := roomy_workArea served.panel hcols hrows
  generalize workArea cols rows served.panel.edge served.panel.thickness = work at *
  generalize ensureWindow { served with lastWork := work } = u at *
  constructor
  · intro w hw
    obtain ⟨v, -, rfl⟩ := List.mem_map.1 hw
    exact roomy_displayRectFor hcols hrows hwork
  · have hown := Shell.ownNumbers_of_nodup (Sshos.Wm.Windows.distinct (v := u.wm.relayout work cols rows) hroom)
    have hgroups := Shell.grouped_buildEntries hown (u.wm.relayout work cols rows).few
    exact Panel.tidy_layout hgroups (u.wm.relayout work cols rows).few hcols hrows utf8

/-! ### The front -/

section Front

variable {sc : Scene} {x y : Nat}

/-- Every place of the panel is of some item, or of the panel itself. -/
theorem hit_ne_none (h : Panel.Tidy s.panel.rect s.panel.items) (hin : s.panel.rect.contains x y) :
    (s.panel.hit x y).what ≠ .none := by
  unfold Panel.hit
  simp only [hin, Bool.not_true, Bool.false_eq_true, if_false]
  split
  next it hit => exact (h.holds it (List.mem_of_find?_eq_some hit)).what
  next => nofun

theorem target_of_panel (h : Panel.Tidy s.panel.rect s.panel.items)
    (hin : s.panel.rect.contains x y) : s.target x y = .panel (s.panel.hit x y) := by
  unfold target
  simp only [if_pos (hit_ne_none h hin)]

theorem target_beside_panel (hout : ¬ s.panel.rect.contains x y) : s.target x y =
    match (s.wm.stack.filter fun w => Desktop.Visible w).reverse.find? fun w =>
        w.app.displayRect.contains x y with
    | some w => .window w (hitWindow w x y).what
    | none => .desktop := by
  have hnone : s.panel.hit x y = {} := by
    unfold Panel.hit
    rw [Bool.eq_false_iff.2 hout]
    rfl
  have hfind : s.wm.hit x y = (s.wm.stack.filter fun w => Desktop.Visible w).reverse.find?
      fun w => w.app.displayRect.contains x y := by
    unfold Desktop.hit
    rw [← List.filter_reverse, List.find?_filter]
    simp only [Bool.decide_and, Bool.decide_eq_true]
  rw [← hfind]
  show (if (s.panel.hit x y).what ≠ .none then PressTarget.panel (s.panel.hit x y) else
    match s.wm.hit x y with
    | some w => .window w (hitWindow w x y).what
    | none => .desktop) = _
  rw [if_neg (by rw [hnone]; simp)]

/-- Where there is nothing else, the desktop is seen. -/
theorem lastPainter_background (hx : x < sc.cols) (hy : y < sc.rows) :
    Stroke.lastPainter false sc.cols sc.rows
      ({ owner := fun _ _ => PressTarget.desktop, view := View.screen sc.cols sc.rows
         drawing := .fill { x := 0, y := 0, w := sc.cols, h := sc.rows } { bg := sc.theme.desktopBg } } ::
      sc.background.map (fun (rs, d) =>
        { owner := fun _ _ => PressTarget.desktop, view := rs.foldl View.sub (View.screen sc.cols sc.rows)
          drawing := d })) x y = some .desktop := by
  refine Stroke.lastPainter_of_last [] ((View.mem_fillInk_screen hx hy).2 ?_) rfl ?_
  · rw [Rect.contains_iff]
    simp only
    omega
  · intro l hl _
    obtain ⟨⟨rs, d⟩, -, rfl⟩ := List.mem_map.1 hl
    rfl

/-- **The painter of a place is what a press there meets**, unless it is of a hidden panel. -/
theorem lastPainter_render (h : s.Laid) (hidle : s.drag = .idle) (hx : x < sc.cols) (hy : y < sc.rows)
    (hplace : ¬ (s.panelHidden = true ∧ s.panel.rect.contains x y)) :
    Stroke.lastPainter false sc.cols sc.rows (s.render sc) x y = some (s.target x y) := by
  have houtline : s.outline sc = [] := by
    unfold outline
    rw [hidle]
  unfold render
  simp only [houtline, List.append_nil]
  by_cases hin : s.panel.rect.contains x y
  · have hshown : s.panelHidden = false := by simpa [hin] using hplace
    rw [hshown, if_neg Bool.false_ne_true, target_of_panel h.tidy hin]
    refine Stroke.lastPainter_append_of_some ?_
    rw [Stroke.lastPainter_by, Panel.lastPainter_draw h.tidy hx hy
      (Sshos.Shell.textCells_clock _) (Sshos.Shell.textCells_date _) hin]
    rfl
  · -- beside the panel, it has painted nothing
    rw [@Stroke.lastPainter_append _ _ _ _ _ (if s.panelHidden then [] else _) _ _ ?_,
      target_beside_panel hin, Stroke.lastPainter_flatMap (fun w : Win =>
        w.app.displayRect.contains x y = true)
        (fun w => .window w (hitWindow w x y).what) ?_ ?_]
    · rw [lastPainter_background hx hy]
      simp only [Bool.decide_eq_true]
      all_goals
        cases (s.wm.stack.filter fun w => Desktop.Visible w).reverse.find? fun w =>
          w.app.displayRect.contains x y <;> rfl
    · intro w hw hcovers
      have hroomy := h.roomy w (List.mem_of_mem_filter hw)
      rw [Stroke.lastPainter_by, lastPainter_drawWindow hx hy rfl hroomy hcovers]
      rfl
    · intro w hw hout k hk
      have hroomy := h.roomy w (List.mem_of_mem_filter hw)
      obtain ⟨k', hk', rfl⟩ := List.mem_map.1 hk
      exact not_mem_drawWindow hx hy rfl hroomy hout k' hk'
    · intro k hk
      split at hk
      · cases hk
      · obtain ⟨k', hk', rfl⟩ := List.mem_map.1 hk
        exact Panel.not_mem_draw h.tidy hx hy (Sshos.Shell.textCells_clock _)
          (Sshos.Shell.textCells_date _) hin k' hk'

end Front

/-! ### Presses -/

section Presses

variable {m : MouseEvent}

/-- Without a gesture, and with nothing over the desk, a press acts on what it meets. -/
theorem onMouse_press (hidle : s.drag = .idle) (hcovers : s.covers = {}) (hpress : m.action = .press)
    (o : Outcome) : s.onMouse m o = s.pressOn m o (s.target m.x m.y) := by
  have hmotion : ¬ (m.action = .motion ∧ m.button = 3) := by
    rw [hpress]
    rintro ⟨h, -⟩
    cases h
  have hgesture : ¬ (m.action = .press ∧ s.drag ≠ .idle) := fun h => h.2 hidle
  have hnone : ¬ (s.covers.modal = true ∨ s.covers.help = true ∨ s.covers.menu = true) := by
    rw [hcovers]
    decide
  have hassist : ¬ (s.covers.assist = true ∧ o.picked = true) := by
    rw [hcovers]
    rintro ⟨h, -⟩
    cases h
  have hsame : ({ s with covers := { s.covers with assist := false } } : Desk) = s := by
    rw [hcovers]
    exact congrArg (fun c => { s with covers := c }) hcovers.symm
  have hreached : s.onMouse m o = s.press m o := by
    unfold onMouse
    rw [if_neg hmotion, if_neg hgesture]
    simp only [hidle, hpress]
  rw [hreached]
  unfold press
  rw [if_neg hnone, if_neg hassist]
  show ({ s with covers := { s.covers with assist := false } } : Desk).pressOn m o
    (({ s with covers := { s.covers with assist := false } } : Desk).target m.x m.y) = _
  rw [hsame]

theorem setMode_focused (v : Sshos.Wm.Windows) (id : WindowId) (mode : Sshos.Wm.WinMode) (work : Rect) :
    (v.setMode id mode work).focused = v.focused := by
  show (v.toDesktop.setMode id mode work).focused = v.focused
  unfold Desktop.setMode
  split
  · rfl
  · split <;> rfl

/-- A press on a window gives it the focus, but for the one that closes it. -/
theorem pressWindow_focused {o : Outcome} {w : Win} {zone : WinHit} (hzone : zone ≠ .buttonClose) :
    (s.pressWindow m o w zone).wm.focused = w.id := by
  have hfocus :
      (if s.wm.focused ≠ w.id then { s with wm := s.wm.focus w.id } else s).wm.focused = w.id := by
    split
    · rfl
    next hno => exact not_not.1 hno
  unfold pressWindow
  simp only
  generalize (if s.wm.focused ≠ w.id then { s with wm := s.wm.focus w.id } else s) = u at *
  cases zone with
  | titleBar =>
      simp only
      split
      · exact (setMode_focused _ _ _ _).trans hfocus
      · split <;> exact hfocus
  | buttonMinimize | buttonMaximize => exact (setMode_focused _ _ _ _).trans hfocus
  | buttonClose => exact absurd rfl hzone
  | edgeRight | edgeBottom | cornerBR | client | frame | none => exact hfocus

/-- A press at this place acts on the part of the desktop that was painted there last; when it
is a part of a window, the window has the focus, unless the press asks for its closing. -/
def ActsOnPainter (s : Desk) (sc : Scene) (x y : Nat) : Prop :=
  ∃ t, Stroke.lastPainter false sc.cols sc.rows (s.render sc) x y = some t ∧
    ∀ (m : MouseEvent) (o : Outcome), m.action = .press → m.x = x → m.y = y →
      s.onMouse m o = s.pressOn m o t ∧
      ∀ w zone, t = .window w zone → zone ≠ .buttonClose → (s.onMouse m o).wm.focused = w.id

/-- **What is seen is what is clicked** on a desk that has just been composed, without a
gesture and with nothing over it, as long as the numbers have not come round. The places of a
panel that is hidden are left out. -/
theorem actsOnPainter_of_composed {s s' : Desk} {sc : Scene} (hcols : 40 ≤ sc.cols)
    (hrows : 12 ≤ sc.rows) {utf8 badge allowed : Bool} {hint : Bytes}
    (hcomposed : s' = s.compose sc.cols sc.rows utf8 badge hint allowed) (hidle : s'.drag = .idle)
    (hcovers : s'.covers = {}) {x y : Nat} (hx : x < sc.cols) (hy : y < sc.rows)
    (hplace : ¬ (s'.panelHidden = true ∧ s'.panel.rect.contains x y))
    (hroom : s'.wm.openings < 2 ^ 32) : s'.ActsOnPainter sc x y := by
  have hlaid : s'.Laid := by
    rw [hcomposed] at hroom ⊢
    exact laid_compose s (by omega) (by omega) utf8 badge hint allowed hroom
  refine ⟨_, lastPainter_render hlaid hidle hx hy hplace, fun m o hpress hmx hmy => ?_⟩
  have hacts := onMouse_press hidle hcovers hpress o
  rw [hmx, hmy] at hacts
  refine ⟨hacts, fun w zone htarget hzone => ?_⟩
  rw [hacts, htarget]
  exact pressWindow_focused hzone

def smallScene : Scene := { cols := 40, rows := 12, clock := ⟨12, 30, 1, 14, 6⟩ }

/-- The desk a session starts with: one terminal. -/
def firstDesk : Desk := ({} : Desk).compose 40 12 true false [] true

theorem actsOnPainter_of_composed_first : firstDesk.ActsOnPainter smallScene 3 1 :=
  actsOnPainter_of_composed (s := {}) (by decide) (by decide) rfl (by decide +kernel)
    (by decide +kernel) (by decide) (by decide) (by decide +kernel) (by decide +kernel)

/-- The terminal is dragged by its title. -/
def draggedDesk : Desk := (firstDesk.onMouse { x := 12, y := 0 } {}).compose 40 12 true false [] true

/-- It is full screen. -/
def fullDesk : Desk :=
  { firstDesk with wm := firstDesk.wm.setMode 1 .fullscreen firstDesk.lastWork }.compose 40 12 true false
    [] true

/-- During a gesture a press only gives it up; and a full-screen window hides a panel that a
press still meets. -/
theorem not_all_actsOnPainter :
    (¬ ∀ (s : Desk) (sc : Scene) (utf8 badge allowed : Bool) (hint : Bytes), 40 ≤ sc.cols →
      12 ≤ sc.rows → (s.compose sc.cols sc.rows utf8 badge hint allowed).covers = {} →
      ∀ x y, x < sc.cols → y < sc.rows →
        (s.compose sc.cols sc.rows utf8 badge hint allowed).ActsOnPainter sc x y) ∧
    ¬ draggedDesk.ActsOnPainter smallScene 5 5 ∧ ¬ fullDesk.ActsOnPainter smallScene 5 11 := by
  have hdragged : ¬ draggedDesk.ActsOnPainter smallScene 5 5 := by
    rintro ⟨t, ht, hacts⟩
    have hpainter : ∀ t ∈ Stroke.lastPainter false smallScene.cols smallScene.rows
        (draggedDesk.render smallScene) 5 5,
        (draggedDesk.onMouse { x := 5, y := 5 } {}).mouseGrab ≠
          (draggedDesk.pressOn { x := 5, y := 5 } {} t).mouseGrab := by decide +kernel
    exact hpainter t ht (congrArg Desk.mouseGrab (hacts { x := 5, y := 5 } {} rfl rfl rfl).1)
  have hfull : ¬ fullDesk.ActsOnPainter smallScene 5 11 := by
    rintro ⟨t, ht, hacts⟩
    have hpainter : ∀ t ∈ Stroke.lastPainter false smallScene.cols smallScene.rows
        (fullDesk.render smallScene) 5 11,
        (fullDesk.onMouse { x := 5, y := 11 } {}).covers ≠
          (fullDesk.pressOn { x := 5, y := 11 } {} t).covers := by decide +kernel
    exact hpainter t ht (congrArg Desk.covers (hacts { x := 5, y := 11 } {} rfl rfl rfl).1)
  refine ⟨fun hall => hdragged ?_, hdragged, hfull⟩
  exact hall (firstDesk.onMouse { x := 12, y := 0 } {}) smallScene true false true [] (by decide)
    (by decide) (by decide +kernel) 5 5 (by decide) (by decide)

end Presses

end Desk

end Sshos.Daemon
