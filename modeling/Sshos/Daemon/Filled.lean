import Sshos.Daemon.Clicks
import Sshos.Daemon.Toggles
import Sshos.Wm.Tile

/-!
# Sshos.Daemon.Filled

A window that **fills** the work area, or the screen, finds back the geometry it had. A move
starts from a window in its normal mode only, and what places windows gives them that mode;
a resize asks nothing of the mode, and writes at the release what the outline has become.
-/

namespace Sshos.Daemon

open Sshos.Input (MouseAction MouseEvent)
open Sshos.Lib (Bytes run StepsMeet run_good_iff_of_meet run_preserves)
open Sshos.Render (Rect)
open Sshos.Wm (Desktop Frame Size Win WinHit WinMode WindowId WindowManager Windows tileRects)

namespace Desk

/-! ### What the mouse asks of the window manager -/

variable (s : Desk)

/-- `tile_windows`: those on the screen, each in its place. -/
def tileWindows : List Desktop.Op :=
  let visible := (s.wm.stack.filter fun w => Desktop.Visible w).map (·.id)
  (visible.zip (tileRects s.lastWork visible.length)).flatMap fun (id, r) =>
    [.setMode id .normal s.lastWork, .setRect id r s.lastWork]

/-- `dock_into_free_half`. -/
def dockIntoFreeHalf (id : WindowId) (half : Rect) : List Desktop.Op :=
  if s.wm.find id = none then []
  else [.setMode id .normal s.lastWork, .setRect id half s.lastWork, .focus id]

/-- What a press asks when it answers a dialog, chooses a line of the menu or takes the snap
proposal: no geometry is written beside. -/
inductive Asks : Outcome → Prop
  | nothing {o : Outcome} (hops : o.ops = []) (hrects : o.rects = []) : Asks o
  | answers {o : Outcome} {id : WindowId} (hops : o.ops = [.close id]) (hrects : o.rects = []) : Asks o
  | opens {o : Outcome} {minSize : Size} (hops : o.ops = [.open (some minSize) s.lastWork])
      (hrects : o.rects = []) : Asks o
  | tiles {o : Outcome} (hops : o.ops = s.tileWindows) (hrects : o.rects = []) : Asks o
  | docks {o : Outcome} {id : WindowId} {half : Rect} (hops : o.ops = s.dockIntoFreeHalf id half)
      (hrects : o.rects = []) : Asks o

/-- Events of the mouse, and what applications do of them; the frames in between, and time. -/
def OfMouse : Event → Prop
  | .mouse _ o => s.Asks o
  | .watchdog | .elapse _ | .compose .. | .asksOpen _ _ | .asksClose _ | .setsTitle _ _ => True
  | _ => False

/-! ### Windows that are placed -/

/-- A window whose geometry is written is given its normal mode. -/
def Guarded (f f' : Frame) : Prop :=
  f'.mode = .normal ∨ (f'.userRect = f.userRect ∧ (f'.mode = f.mode ∨ f.mode = .fullscreen))

theorem Guarded.refl (f : Frame) : Guarded f f := .inr ⟨rfl, .inl rfl⟩

theorem Guarded.trans {f g h : Frame} (hfg : Guarded f g) (hgh : Guarded g h) : Guarded f h := by
  rcases hgh with hnormal | ⟨hrect, hmode⟩
  · exact .inl hnormal
  rcases hfg with hnormal | ⟨hrect', hmode'⟩
  · rcases hmode with hsame | hfull
    · exact .inl (hsame.trans hnormal)
    · rw [hnormal] at hfull
      cases hfull
  · refine .inr ⟨hrect.trans hrect', ?_⟩
    rcases hmode' with hsame' | hfull'
    · rcases hmode with hsame | hfull
      · exact .inl (hsame.trans hsame')
      · exact .inr (hsame' ▸ hfull)
    · exact .inr hfull'

abbrev Guards : Windows → Windows → Prop := Along Guarded

theorem Guards.trans {u v v' : Windows} (h : Guards u v) (h' : Guards v v') : Guards u v' :=
  Along.trans (R := Guarded) (fun hfg hgh => hfg.trans hgh) h h'

theorem guards_of_stays {v v' : Windows} (h : Stays True v v') : Guards v v' :=
  Along.mono (R := SameFrame True) (fun hsame => .inr ⟨hsame.userRect, hsame.mode trivial⟩) h

/-- A window in the place it was given. -/
def placed (work : Rect) (w : Win) (r : Rect) : Win :=
  { w with app := { w.app with
      mode := .normal, userRect := r, displayRect := Wm.clampTo r work (Wm.frameMin w.app.minSize) } }

/-- One window is given its place. -/
theorem place_stack (v : Windows) (hroom : v.openings < 2 ^ 32) (id : WindowId) (r work : Rect) :
    ((v.setMode id .normal work).setRect id r work).stack =
      v.stack.map fun w => if w.id = id then placed work w r else w := by
  refine (Windows.change_go_eq (Windows.distinct (v := v.setMode id .normal work) hroom) id _).trans ?_
  rw [v.setMode_stack hroom (by decide), List.map_map]
  refine List.map_congr_left fun w _ => ?_
  simp only [Function.comp_apply]
  by_cases heq : w.id = id
  · subst heq
    simp only [if_true]
    rfl
  · simp only [heq, if_false]

/-- A window is placed in its normal mode, the others stay. -/
theorem guards_place (v : Windows) (id : WindowId) (r work : Rect) :
    Guards v ((v.setMode id .normal work).setRect id r work) := by
  refine Along.of_map rfl (fun hroom => place_stack v hroom id r work) (fun w => ?_) fun _ w _ => ?_
  · split <;> rfl
  · split
    · exact .inl rfl
    · exact Guarded.refl _

theorem guards_places (work : Rect) (places : List (WindowId × Rect)) (v : Windows) :
    Guards v ((places.flatMap fun (id, r) =>
      [Desktop.Op.setMode id .normal work, .setRect id r work]).foldl Windows.perform v) := by
  induction places generalizing v with
  | nil => exact Along.refl Guarded.refl v
  | cons p places ih =>
      rw [List.flatMap_cons, List.foldl_append]
      exact (guards_place v p.1 p.2 work).trans (ih _)

theorem guards_asks {o : Outcome} (h : s.Asks o) : Guards s.wm (s.covered o).wm := by
  have hcovered : o.rects = [] → (s.covered o).wm = o.ops.foldl Windows.perform s.wm := by
    intro hrects
    unfold covered
    rw [hrects]
    rfl
  cases h with
  | nothing hops hrects =>
      rw [hcovered hrects, hops]
      exact Along.refl Guarded.refl _
  | answers hops hrects =>
      rw [hcovered hrects, hops]
      exact guards_of_stays (serves_close _ _).stays
  | opens hops hrects =>
      rw [hcovered hrects, hops]
      exact guards_of_stays (serves_open _ _ _).stays
  | tiles hops hrects =>
      rw [hcovered hrects, hops]
      exact guards_places _ _ _
  | @docks id half hops hrects =>
      rw [hcovered hrects, hops]
      unfold dockIntoFreeHalf
      split
      · exact Along.refl Guarded.refl _
      · exact (guards_place _ id half s.lastWork).trans (guards_of_stays (stays_focus _ _))

/-! ### What moves is in its normal mode -/

/-- The window that follows the pointer is in its normal mode. -/
def Movable : Prop :=
  ∀ win grabDx grabDy origin, s.drag = .moving win grabDx grabDy origin →
    s.wm.openings < 2 ^ 32 → win ≤ s.wm.openings ∧ ∀ w ∈ s.wm.stack, w.id = win → w.app.mode = .normal

variable {s}

theorem movable_of_not_moving (h : ∀ win grabDx grabDy origin, s.drag ≠ .moving win grabDx grabDy origin) :
    s.Movable :=
  fun win grabDx grabDy origin hdrag => absurd hdrag (h win grabDx grabDy origin)

theorem movable_of_idle (hidle : s.drag = .idle) : s.Movable :=
  movable_of_not_moving (by simp [hidle])

theorem Movable.cancelDrag (_ : s.Movable) : s.cancelDrag.Movable := movable_of_idle (cancelDrag_idle s)

/-- Windows come and go, and keep their modes or leave the full screen. -/
theorem Movable.along (h : s.Movable) {s' : Desk}
    (halong : Along (fun f f' => f'.mode = f.mode ∨ f.mode = .fullscreen) s.wm s'.wm)
    (hdrag : s'.drag = s.drag) : s'.Movable := by
  intro win grabDx grabDy origin hmoving hroom
  obtain ⟨hle, hnormal⟩ := h win grabDx grabDy origin (hdrag ▸ hmoving) (halong.room hroom)
  refine ⟨hle.trans halong.openings, fun w' hw' hid => ?_⟩
  rcases halong.old hroom w' hw' with ⟨w, hw, hid', hmode⟩ | hnew
  · have hwas := hnormal w hw (hid'.symm.trans hid)
    rcases hmode with hsame | hfull
    · exact hsame.trans hwas
    · rw [hwas] at hfull
      cases hfull
  · rw [hid] at hnew
    exact absurd hnew (Nat.not_lt.2 hle)

theorem Movable.serves (h : s.Movable) {s' : Desk} (hserves : Serves s.wm s'.wm)
    (hdrag : s'.drag = s.drag) : s'.Movable :=
  h.along (Along.mono (R := SameFrame True) (fun hsame => hsame.mode trivial) hserves.stays) hdrag

/-- A change that keeps the mode. -/
theorem Movable.change (h : s.Movable) {s' : Desk} {id : WindowId} {f : Frame → Frame}
    (hwm : s'.wm = s.wm.change id f) (hf : ∀ g, (f g).mode = g.mode) (hdrag : s'.drag = s.drag) : s'.Movable := by
  refine h.along ?_ hdrag
  rw [hwm]
  refine Along.of_map rfl (fun hroom => s.wm.change_stack hroom id f) (fun w => by split <;> rfl)
    fun _ w _ => ?_
  split
  · exact .inl (hf _)
  · exact .inl rfl

theorem movable_pressWindow (hidle : s.drag = .idle) (m : MouseEvent) (o : Outcome) {w : Win}
    (hw : w ∈ s.wm.stack) (zone : WinHit) : (s.pressWindow m o w zone).Movable := by
  unfold pressWindow
  simp only
  have hmem : w ∈ (if s.wm.focused ≠ w.id then { s with wm := s.wm.focus w.id } else s).wm.stack := by
    split
    · exact s.wm.mem_focus_self hw
    · exact hw
  have hdrag : (if s.wm.focused ≠ w.id then { s with wm := s.wm.focus w.id } else s).drag = .idle := by
    split <;> exact hidle
  generalize (if s.wm.focused ≠ w.id then { s with wm := s.wm.focus w.id } else s) = u at *
  split
  · split
    · exact movable_of_idle hdrag
    split
    · exact movable_of_idle hdrag
    · next hmode =>
      -- the move that is engaged
      intro win grabDx grabDy origin hmoving hroom
      obtain ⟨rfl, -, -, -⟩ := Drag.moving.inj hmoving
      refine ⟨Windows.id_le (v := u.wm) hroom hmem, fun w' hw' hid' => ?_⟩
      rw [Windows.eq_of_id (v := u.wm) hroom hw' hmem hid']
      exact not_not.1 hmode
  · exact movable_of_idle hdrag
  · exact movable_of_idle hdrag
  · refine movable_of_idle ?_
    unfold Desk.requestClose
    simp only
    split <;> exact cancelDrag_idle _
  · exact movable_of_not_moving nofun
  · exact movable_of_not_moving nofun
  · exact movable_of_not_moving nofun
  · exact movable_of_idle hdrag
  · exact movable_of_idle hdrag
  · exact movable_of_idle hdrag

theorem movable_press (hidle : s.drag = .idle) (m : MouseEvent) (o : Outcome) : (s.press m o).Movable := by
  unfold Desk.press
  split
  · exact movable_of_idle hidle
  split
  · exact movable_of_idle hidle
  simp only
  unfold pressOn
  split
  · exact movable_of_idle ((pressPanel_drag _ m o _).trans hidle)
  · next w zone htarget =>
    exact movable_pressWindow (s := { s with covers := { s.covers with assist := false } }) hidle m o
      (mem_of_target htarget) _
  · split <;> exact movable_of_idle hidle

theorem Movable.onMouse (h : s.Movable) (m : MouseEvent) (o : Outcome) : (s.onMouse m o).Movable := by
  unfold Desk.onMouse
  split
  · exact h.cancelDrag
  split
  · exact h.cancelDrag
  cases hcase : s.drag with
  | moving win grabDx grabDy origin =>
      simp only [dragMove]
      split
      · exact h.cancelDrag
      · split
        · exact movable_of_idle rfl
        · exact h.change (f := fun f => { f with userRect := _ }) rfl (fun _ => rfl) rfl
  | resizing win outline =>
      simp only [dragResize]
      split
      · exact h.cancelDrag
      · split
        · exact movable_of_idle rfl
        · exact movable_of_not_moving (by simp)
  | idle =>
      simp only
      split
      · exact movable_of_idle ((wheel_drag s m).trans hcase)
      · exact movable_of_idle ((wheel_drag s m).trans hcase)
      · exact movable_press hcase m o
      · exact movable_of_idle ((held_drag s m).trans hcase)
      · exact movable_of_idle ((held_drag s m).trans hcase)

/-- **Whatever happens**, what moves is in its normal mode. -/
theorem Movable.step (h : s.Movable) (e : Event) : (s.step e).Movable := by
  cases e with
  | mouse m o => exact h.onMouse m o
  | key o =>
      simp only [Desk.step, onKey]
      split
      · exact h.cancelDrag
      · next hidle => exact movable_of_idle (not_not.1 hidle)
  | paste =>
      simp only [Desk.step, onPaste]
      split
      · exact h.cancelDrag
      · exact h
  | focus focused =>
      simp only [Desk.step, onFocus]
      split
      · exact h
      · exact h.cancelDrag
  | watchdog => exact watchdog_rule (fun _ h => h.cancelDrag) h
  | elapse ms => exact h
  | compose cols rows utf8 badge hint allowed =>
      exact compose_rule (P := Movable) (fun _ _ h hserves hdrag _ => h.serves hserves hdrag)
        (fun _ h => h.cancelDrag) h cols rows utf8 badge hint allowed
  | attach => exact h.cancelDrag
  | asksOpen id minSize => exact h
  | asksClose id => exact h.serves (serves_askClose _ _ _) rfl
  | closes id => exact h.serves (serves_close _ _) rfl
  | setsTitle id title => exact h.change (f := fun f => { f with title := title }) rfl (fun _ => rfl) rfl

/-! ### What an event writes -/

/-- No geometry is written, or that of windows in their normal mode. -/
abbrev Spares : Windows → Windows → Prop :=
  Along fun f f' => f'.userRect = f.userRect ∨ f'.mode = .normal

theorem Spares.of_guards {v v' : Windows} (h : Guards v v') : Spares v v' :=
  Along.mono (R := Guarded) (fun hguarded => hguarded.elim .inr fun hsame => .inl hsame.1) h

theorem Spares.of_stays {v v' : Windows} (h : Stays False v v') : Spares v v' :=
  Along.mono (R := SameFrame False) (fun hsame => .inl hsame.userRect) h

theorem Spares.refl (v : Windows) : Spares v v := Spares.of_stays (Stays.refl v)

/-- The geometry of a window in its normal mode is written. -/
theorem guards_setUserRect {v : Windows} {win : WindowId} (r : Rect)
    (hnormal : v.openings < 2 ^ 32 → ∀ w ∈ v.stack, w.id = win → w.app.mode = .normal) :
    Guards v (v.setUserRect win r) := by
  refine Along.of_map rfl (fun hroom => v.change_stack hroom win _) (fun w => by split <;> rfl)
    fun hroom w hw => ?_
  split
  · next hid => exact .inl (hnormal hroom w hw hid)
  · exact Guarded.refl _

theorem Movable.guards_cancelDrag (h : s.Movable) : Guards s.wm s.cancelDrag.wm := by
  unfold Desk.cancelDrag
  split
  · next win grabDx grabDy origin hdrag =>
      exact guards_setUserRect origin fun hroom => (h win grabDx grabDy origin hdrag hroom).2
  · exact Along.refl Guarded.refl _

theorem Movable.spares_dragMove (h : s.Movable) {m : MouseEvent} {win : WindowId} {grabDx grabDy : Int}
    {origin : Rect} (hdrag : s.drag = .moving win grabDx grabDy origin) :
    Spares s.wm (s.dragMove m win grabDx grabDy origin).wm := by
  have hnormal := fun hroom => (h win grabDx grabDy origin hdrag hroom).2
  have hstill : ∀ r, s.wm.openings < 2 ^ 32 →
      ∀ w ∈ (s.wm.setUserRect win r).stack, w.id = win → w.app.mode = .normal := by
    intro r hroom w hw hid
    obtain ⟨u, hu, rfl⟩ := (mem_setUserRect hroom).1 hw
    split
    · next heq => exact hnormal hroom u hu heq
    · next hne =>
      rw [if_neg hne] at hid
      exact absurd hid hne
  unfold dragMove
  split
  · exact Spares.of_guards h.guards_cancelDrag
  · refine Spares.of_guards ?_
    have hfirst := fun r => guards_setUserRect r hnormal
    simp only
    split
    · split
      · exact (hfirst _).trans (guards_setUserRect _ (hstill _))
      · exact hfirst _
    · exact hfirst _

theorem stays_openFromCatalog (s : Desk) (id : Bytes) :
    Stays False s.wm (s.openFromCatalog id).wm := by
  unfold openFromCatalog
  split
  · exact Stays.refl _
  · exact openApp_rule (P := fun u : Desk => Stays False s.wm u.wm)
      (fun _ _ h hserves _ _ => Stays.trans h (Stays.weaken hserves.stays)) (Stays.refl _) _ _

theorem stays_focusOrOpen (s : Desk) (id : Bytes) : Stays False s.wm (s.focusOrOpen id).wm := by
  unfold focusOrOpen
  split
  · exact stays_openFromCatalog s id
  · simp only
    split
    · exact Stays.trans (stays_setMode not_false (m := .normal) (by decide) _ _) (stays_focus _ _)
    · exact stays_focus _ _

theorem stays_pressPanel (s : Desk) (m : MouseEvent) (o : Outcome) (r : Sshos.Shell.PanelHitResult) :
    Stays False s.wm (s.pressPanel m o r).wm := by
  unfold pressPanel
  split
  · exact Stays.refl _
  · exact Stays.refl _
  · exact Stays.refl _
  · split
    · exact Stays.refl _
    split
    · exact Stays.refl _
    split
    · exact stays_openFromCatalog s _
    · exact stays_focusOrOpen s _
  · split
    · exact Stays.refl _
    split
    · split
      · exact Stays.refl _
      · exact stays_openFromCatalog s _
    split
    · exact Stays.trans (stays_setMode not_false (m := .normal) (by decide) _ _) (stays_focus _ _)
    split
    · exact stays_setMode not_false (m := .minimized) (by decide) _ _
    · exact stays_focus _ _
  · exact Stays.refl _

theorem stays_pressWindow (hidle : s.drag = .idle) (m : MouseEvent) (o : Outcome) (w : Win)
    (zone : WinHit) : Stays False s.wm (s.pressWindow m o w zone).wm := by
  unfold pressWindow
  simp only
  have hfocus : Stays False s.wm
      (if s.wm.focused ≠ w.id then { s with wm := s.wm.focus w.id } else s).wm := by
    split
    · exact stays_focus _ _
    · exact Stays.refl _
  have hdrag : (if s.wm.focused ≠ w.id then { s with wm := s.wm.focus w.id } else s).drag = .idle := by
    split <;> exact hidle
  generalize (if s.wm.focused ≠ w.id then { s with wm := s.wm.focus w.id } else s) = u at *
  split
  · split
    · exact Stays.trans hfocus (stays_setMode not_false (toggled_ne_fullscreen _) _ _)
    split
    · exact hfocus
    · exact hfocus
  · exact Stays.trans hfocus (stays_setMode not_false (m := .minimized) (by decide) _ _)
  · exact Stays.trans hfocus (stays_setMode not_false (toggled_ne_fullscreen _) _ _)
  · unfold Desk.requestClose Desk.cancelDrag
    simp only [hdrag]
    split
    · exact Stays.trans hfocus (Stays.weaken (serves_close _ _).stays)
    · exact hfocus
  all_goals exact hfocus

theorem spares_press (hidle : s.drag = .idle) (m : MouseEvent) {o : Outcome} (hasks : s.Asks o) :
    Spares s.wm (s.press m o).wm := by
  unfold Desk.press
  split
  · exact Spares.of_guards (guards_asks s hasks)
  split
  · exact Spares.of_guards (guards_asks s hasks)
  simp only
  unfold pressOn
  split
  · exact Spares.of_stays (stays_pressPanel { s with covers := { s.covers with assist := false } } m o _)
  · exact Spares.of_stays
      (stays_pressWindow (s := { s with covers := { s.covers with assist := false } }) hidle m o _ _)
  · split <;> exact Spares.refl _

/-- The edge of a window is dragged: the windows that fill are spared until it is released. -/
theorem spares_dragResize (h : s.Movable) (m : MouseEvent) (win : WindowId) (outline : Rect) :
    Spares s.wm (s.dragResize m win outline).wm ∨
      ∃ w, m.action = .release ∧ s.wm.find win = some w ∧
        (s.dragResize m win outline).wm = s.wm.setUserRect win
          { outline with w := m.x - outline.x + 1, h := m.y - outline.y + 1 } := by
  unfold dragResize
  cases hfind : s.wm.find win with
  | none => exact .inl (Spares.of_guards h.guards_cancelDrag)
  | some w =>
      simp only
      split
      next hrelease => exact .inr ⟨w, hrelease, rfl, rfl⟩
      · exact .inl (Spares.refl _)

theorem spares_onMouse (h : s.Movable) (m : MouseEvent) {o : Outcome} (hasks : s.Asks o) :
    Spares s.wm (s.onMouse m o).wm ∨
      ∃ win outline w, m.action = .release ∧ s.drag = .resizing win outline ∧
        s.wm.find win = some w ∧ (s.onMouse m o).wm = s.wm.setUserRect win
          { outline with w := m.x - outline.x + 1, h := m.y - outline.y + 1 } := by
  unfold Desk.onMouse
  split
  · exact .inl (Spares.of_guards h.guards_cancelDrag)
  split
  · exact .inl (Spares.of_guards h.guards_cancelDrag)
  cases hdrag : s.drag with
  | moving win grabDx grabDy origin => exact .inl (h.spares_dragMove hdrag)
  | idle =>
      simp only
      split
      · exact .inl (wheel_wm s m ▸ Spares.refl _)
      · exact .inl (wheel_wm s m ▸ Spares.refl _)
      · exact .inl (spares_press hdrag m hasks)
      · exact .inl (held_wm s m ▸ Spares.refl _)
      · exact .inl (held_wm s m ▸ Spares.refl _)
  | resizing win outline =>
      refine (spares_dragResize h m win outline).imp_right ?_
      rintro ⟨w, hrelease, hfind, hwm⟩
      exact ⟨win, outline, w, hrelease, rfl, hfind, hwm⟩

/-- **One event of the mouse**: it spares the windows that fill, but for the release that ends
a resize. -/
theorem step_spares (h : s.Movable) {e : Event} (he : s.OfMouse e) :
    Spares s.wm (s.step e).wm ∨
      ∃ m o win outline w, e = .mouse m o ∧ m.action = .release ∧ s.drag = .resizing win outline ∧
        s.wm.find win = some w ∧ (s.step e).wm = s.wm.setUserRect win
          { outline with w := m.x - outline.x + 1, h := m.y - outline.y + 1 } := by
  cases e with
  | mouse m o =>
      refine (spares_onMouse h m he).imp_right ?_
      rintro ⟨win, outline, w, hrelease, hdrag, hfind, hwm⟩
      exact ⟨m, o, win, outline, w, rfl, hrelease, hdrag, hfind, hwm⟩
  | watchdog =>
      refine .inl (Spares.of_guards ?_)
      show Guards s.wm s.watchdog.wm
      unfold Desk.watchdog
      split
      · exact Along.refl Guarded.refl _
      · split
        · exact h.guards_cancelDrag
        · exact Along.refl Guarded.refl _
  | elapse ms => exact .inl (Spares.refl _)
  | compose cols rows utf8 badge hint allowed =>
      refine .inl (Spares.of_guards ?_)
      exact (compose_rule (P := fun u : Desk => Guards s.wm u.wm ∧ u.Movable)
        (fun _ _ hu hserves hdrag _ =>
          ⟨hu.1.trans (guards_of_stays hserves.stays), hu.2.serves hserves hdrag⟩)
        (fun _ hu => ⟨hu.1.trans hu.2.guards_cancelDrag, hu.2.cancelDrag⟩)
        ⟨Along.refl Guarded.refl _, h⟩ cols rows utf8 badge hint allowed).1
  | asksOpen id minSize => exact .inl (Spares.refl _)
  | asksClose id => exact .inl (Spares.of_guards (guards_of_stays (serves_askClose _ _ _).stays))
  | setsTitle id title =>
      refine .inl (Spares.of_guards (guards_of_stays (Serves.stays ?_)))
      exact serves_change _ _ fun _ => ⟨rfl, rfl, fun _ => .inl rfl⟩
  | _ => exact he.elim

/-! ### Windows that fill -/

/-- Window `id`, if it is there, fills the work area or the screen. -/
def Fills (id : WindowId) (s : Desk) : Prop :=
  ∀ w ∈ s.wm.stack, w.id = id → w.app.mode = .maximized ∨ w.app.mode = .fullscreen

instance (id : WindowId) (s : Desk) : Decidable (Fills id s) :=
  inferInstanceAs (Decidable (∀ w ∈ s.wm.stack, _ → _))

/-- The geometry of a window is the same all along. -/
def FindsBack (w : Win) (s : Desk) (es : List Event) : Prop :=
  ∀ before, before <+: es → ∀ w' ∈ (run step s before).wm.stack, w'.id = w.id →
    w'.app.userRect = w.app.userRect

/-- The pointer is not released while an outline of window `id` follows it, but where the
outline is the geometry the window has. -/
def Spared (id : WindowId) (s : Desk) : Event → Prop
  | .mouse m _ => m.action = .release → ∀ outline, s.drag = .resizing id outline →
      ∀ w ∈ s.wm.find id,
        { outline with w := m.x - outline.x + 1, h := m.y - outline.y + 1 } = w.app.userRect
  | _ => True

theorem onMouse_release_resizing {m : MouseEvent} {o : Outcome} {win : WindowId} {outline : Rect} {w : Win}
    (hdrag : s.drag = .resizing win outline) (hfind : s.wm.find win = some w)
    (hrelease : m.action = .release) : (s.onMouse m o).wm = s.wm.setUserRect win
      { outline with w := m.x - outline.x + 1, h := m.y - outline.y + 1 } := by
  unfold Desk.onMouse
  rw [if_neg (by simp [hrelease]), if_neg (by simp [hrelease])]
  simp only [hdrag]
  unfold dragResize
  simp only [hfind, if_pos hrelease]
  rfl

/-- **One event**: a window that fills keeps its geometry exactly when the step spares it. -/
theorem step_keeps_iff (h : s.Movable) {id : WindowId} (hid : id ≤ s.wm.openings) {e : Event}
    (he : s.OfMouse e) (hroom : (s.step e).wm.openings < 2 ^ 32) (hfills : Fills id (s.step e)) {r : Rect}
    (hr : ∀ w ∈ s.wm.stack, w.id = id → w.app.userRect = r) :
    (∀ w ∈ (s.step e).wm.stack, w.id = id → w.app.userRect = r) ↔ Spared id s e := by
  have hbefore := Nat.lt_of_le_of_lt (step_openings s e) hroom
  constructor
  · intro hafter
    cases e with
    | mouse m o =>
        intro hrelease outline hdrag w hfind
        obtain ⟨hw, hwid⟩ := WindowManager.mem_of_find hfind
        have hwm := onMouse_release_resizing (o := o) hdrag hfind hrelease
        rw [hr w hw hwid]
        refine hafter { w with app := { w.app with userRect := _ } } ?_ hwid
        show _ ∈ (s.onMouse m o).wm.stack
        rw [hwm, mem_setUserRect hbefore]
        exact ⟨w, hw, by rw [if_pos hwid]⟩
    | _ => trivial
  · intro hspared w' hw' hwid
    rcases step_spares h he with hspares | ⟨m, o, win, outline, w, rfl, hrelease, hdrag, hfind, hwm⟩
    · rcases hspares.old hroom w' hw' with ⟨w, hw, hid', hrect | hnormal⟩ | hnew
      · exact hrect.trans (hr w hw (hid'.symm.trans hwid))
      · rcases hfills w' hw' hwid with hmax | hfull
        · rw [hnormal] at hmax
          cases hmax
        · rw [hnormal] at hfull
          cases hfull
      · rw [hwid] at hnew
        exact absurd hnew (Nat.not_lt.2 hid)
    · rw [hwm, mem_setUserRect hbefore] at hw'
      obtain ⟨u, hu, rfl⟩ := hw'
      by_cases heq : u.id = win
      · rw [if_pos heq] at hwid ⊢
        have hwin : win = id := heq.symm.trans hwid
        subst hwin
        have hsame := hspared hrelease outline hdrag w hfind
        obtain ⟨hw, hwid'⟩ := WindowManager.mem_of_find hfind
        rw [hr w hw hwid'] at hsame
        exact hsame
      · rw [if_neg heq] at hwid ⊢
        exact hr u hu hwid

/-- **A window that fills finds back its geometry**, in every state a session can reach and
whatever the mouse does as long as the window fills, exactly when no resize of it ends; as long
as the numbers have not come round. -/
theorem findsBack_iff {past es : List Event} {w : Win} (hw : w ∈ (run step ({} : Desk) past).wm.stack)
    (hmouse : StepsMeet step OfMouse (run step ({} : Desk) past) es)
    (hfills : StepsMeet step (fun s e => Fills w.id (s.step e)) (run step ({} : Desk) past) es)
    (hroom : (run step ({} : Desk) (past ++ es)).wm.openings < 2 ^ 32) :
    FindsBack w (run step ({} : Desk) past) es ↔
      StepsMeet step (Spared w.id) (run step ({} : Desk) past) es := by
  have hmovable : (run step ({} : Desk) past).Movable :=
    @run_preserves _ _ step Movable (fun s e h => h.step e) _ (movable_of_idle rfl) past
  rw [Lib.run_append] at hroom
  generalize run step ({} : Desk) past = s at *
  have hstart := Nat.lt_of_le_of_lt (run_openings s es) hroom
  refine @run_good_iff_of_meet _ _ step (Spared w.id)
    (fun s e => (s.OfMouse e ∧ Fills w.id (s.step e)) ∧ (s.step e).wm.openings < 2 ^ 32)
    (fun s => s.Movable ∧ w.id ≤ s.wm.openings)
    (fun s => ∀ w' ∈ s.wm.stack, w'.id = w.id → w'.app.userRect = w.app.userRect) ?_ ?_ s es
    ⟨hmovable, Windows.id_le hstart hw⟩ ?_ ((hmouse.and hfills).and (steps_room hroom))
  · intro s e _ hinv
    exact ⟨hinv.1.step e, hinv.2.trans (step_openings s e)⟩
  · intro s e hlegal hinv hr
    exact step_keeps_iff hinv.1 hinv.2 hlegal.1.1 hlegal.2 hlegal.1.2 hr
  · intro w' hw' hid
    rw [Windows.eq_of_id hstart hw' hw hid]

/-- The right edge of a maximized terminal is pulled to the left. -/
def pullsEdge (last : MouseAction) : List Event :=
  [.mouse { x := 79, y := 10 } {}, .mouse { x := 60, y := 10, action := .motion } {},
    .mouse { x := 60, y := 10, action := last } {}]

theorem ofMouse_pullsEdge (last : MouseAction) (s : Desk) :
    StepsMeet step OfMouse s (pullsEdge last) :=
  ⟨.nothing rfl rfl, .nothing rfl rfl, .nothing rfl rfl, trivial⟩

theorem terminal_mem_maximized :
    terminal true ∈ (run step ({} : Desk) (terminalIn .maximized)).wm.stack := by
  have hfind : (run step ({} : Desk) (terminalIn .maximized)).wm.find 1 = some (terminal true) := rfl
  exact (WindowManager.mem_of_find hfind).1

/-- Another press gives the resize up. -/
theorem findsBack_iff_aborted :
    FindsBack (terminal true) (run step ({} : Desk) (terminalIn .maximized)) (pullsEdge .press) :=
  (findsBack_iff terminal_mem_maximized (ofMouse_pullsEdge _ _) (by decide +kernel)
    (by decide +kernel)).2 ⟨nofun, nofun, nofun, trivial⟩

theorem resize_loses_geometry : ¬ ∀ (past es : List Event) (w : Win),
    w ∈ (run step ({} : Desk) past).wm.stack → StepsMeet step OfMouse (run step {} past) es →
      StepsMeet step (fun s e => Fills w.id (s.step e)) (run step {} past) es →
      FindsBack w (run step {} past) es := by
  intro hall
  have hback := hall (terminalIn .maximized) (pullsEdge .release) (terminal true)
    terminal_mem_maximized (ofMouse_pullsEdge _ _) (by decide +kernel) _ (List.prefix_refl _)
  revert hback
  decide +kernel

end Desk

end Sshos.Daemon
