import Sshos.Daemon.Compose

/-!
# Sshos.Daemon.Front

Along every run of a session, **the window in front has the focus**: whatever happens, the
windows only go through what the window manager offers.
-/

namespace Sshos.Daemon

open Sshos.Input (MouseEvent)
open Sshos.Lib (Bytes run StepsMeet run_invariant)
open Sshos.Render (Rect)
open Sshos.Shell (PanelHitResult)
open Sshos.Wm (Desktop Frame Size Win WinHit WinMode WindowId WindowManager Windows workArea)

namespace Desk

/-- What another part of the desktop asks of the windows is allowed. -/
def AsksOnly (L : Windows → Desktop.Op → Prop) (s : Desk) : Event → Prop
  | .mouse _ o | .key o => StepsMeet Windows.perform L s.wm o.ops
  | _ => True

/-- It gives the focus to windows that are there. -/
def Lawful : Desk → Event → Prop := AsksOnly fun v op => v.toDesktop.Legal op

/-! ### The windows along a step -/

theorem wheel_wm (s : Desk) (m : MouseEvent) : (s.wheel m).wm = s.wm := by
  unfold Desk.wheel
  split
  · rfl
  split
  · rfl
  · simp only
    split <;> rfl

theorem wheel_drag (s : Desk) (m : MouseEvent) : (s.wheel m).drag = s.drag := by
  unfold Desk.wheel
  split
  · rfl
  split
  · rfl
  · simp only
    split <;> rfl

theorem held_wm (s : Desk) (m : MouseEvent) : (s.held m).wm = s.wm := by
  unfold Desk.held
  split
  · rfl
  · simp only
    split <;> split <;> rfl

theorem held_drag (s : Desk) (m : MouseEvent) : (s.held m).drag = s.drag := by
  unfold Desk.held
  split
  · rfl
  · simp only
    split <;> split <;> rfl

/-- A press on a window is on one that is there. -/
theorem mem_of_target {s : Desk} {x y : Int} {w : Win} {zone : WinHit}
    (h : s.target x y = .window w zone) : w ∈ s.wm.stack := by
  unfold Desk.target at h
  simp only at h
  split at h
  · cases h
  split at h
  · next u hhit =>
    obtain ⟨rfl, -⟩ := PressTarget.window.inj h
    exact List.mem_reverse.1 (List.mem_of_find?_eq_some hhit)
  · cases h

section Rule

variable {P : Windows → Prop} {L : Windows → Desktop.Op → Prop}
  (hlegal : ∀ v op, v.toDesktop.Legal op → L v op)
  (hperform : ∀ v op, P v → L v op → P (v.perform op))
  (hmap : ∀ v v' : Windows, P v → v'.ids = v.ids → v'.focused = v.focused →
    v'.openings = v.openings → P v')

include hmap

theorem change_rule {v : Windows} (h : P v) (id : WindowId) (f : Frame → Frame) : P (v.change id f) :=
  hmap v _ h (Desktop.change_map id fun _ => rfl) rfl rfl

theorem askClose_rule {v : Windows} (h : P v) (id : WindowId) (asks : Bool) : P (v.askClose id asks) := by
  refine hmap v _ h ?_ rfl rfl
  simp only [Desktop.ids]
  show ((v.stack.map _).map _) = _
  rw [List.map_map]
  refine List.map_congr_left fun w _ => ?_
  simp only [Function.comp_apply]
  split <;> rfl

theorem cancelDrag_wm {s : Desk} (h : P s.wm) : P s.cancelDrag.wm := by
  unfold Desk.cancelDrag
  split
  · exact change_rule hmap h _ _
  · exact h

theorem watchdog_wm {s : Desk} (h : P s.wm) : P s.watchdog.wm := by
  unfold Desk.watchdog
  split
  · exact h
  · split
    · exact cancelDrag_wm hmap h
    · exact h

theorem dragMove_wm {s : Desk} (h : P s.wm) (m : MouseEvent) (win : WindowId) (grabDx grabDy : Int)
    (origin : Rect) : P (s.dragMove m win grabDx grabDy origin).wm := by
  unfold dragMove
  split
  · exact cancelDrag_wm hmap h
  · simp only
    split
    · split
      · exact change_rule hmap (change_rule hmap h _ _) _ _
      · exact change_rule hmap h _ _
    · exact change_rule hmap h _ _

theorem dragResize_wm {s : Desk} (h : P s.wm) (m : MouseEvent) (win : WindowId) (outline : Rect) :
    P (s.dragResize m win outline).wm := by
  unfold dragResize
  split
  · exact cancelDrag_wm hmap h
  · simp only
    split
    · exact change_rule hmap h _ _
    · exact h

include hlegal hperform

theorem openApp_wm {s : Desk} (h : P s.wm) (id : Bytes) (minSize : Size) : P (s.openApp id minSize).wm := by
  unfold openApp
  split
  · exact change_rule hmap (hperform s.wm (.open (some minSize) s.lastWork) h (hlegal _ _ trivial)) _ _
  · exact h

theorem openFromCatalog_wm {s : Desk} (h : P s.wm) (id : Bytes) : P (s.openFromCatalog id).wm := by
  unfold openFromCatalog
  split
  · exact h
  · exact openApp_wm hlegal hperform hmap h _ _

omit hmap in
theorem focus_rule {v : Windows} (h : P v) {w : Win} (hw : w ∈ v.stack) : P (v.focus w.id) :=
  hperform v (.focus w.id) h (hlegal _ _ (Desktop.find_ne_none_of_mem hw))

omit hmap in
theorem setMode_focus_rule {v : Windows} (h : P v) {w : Win} (hw : w ∈ v.stack) (m : WinMode)
    (work : Rect) : P ((v.setMode w.id m work).focus w.id) := by
  have hmode : P (v.setMode w.id m work) := hperform v (.setMode w.id m work) h (hlegal _ _ trivial)
  have hids : (v.setMode w.id m work).ids = v.ids := by
    show (v.toDesktop.setMode w.id m work).ids = _
    rw [Desktop.ids_eq_keys, Desktop.ids_eq_keys, Desktop.setMode_keys]
  have hmem : w.id ∈ (v.setMode w.id m work).ids := by
    rw [hids]
    exact List.mem_map_of_mem hw
  obtain ⟨w', hw', hid⟩ := List.mem_map.1 hmem
  have hfocus := focus_rule hlegal hperform hmode hw'
  rwa [hid] at hfocus

theorem focusOrOpen_wm {s : Desk} (h : P s.wm) (id : Bytes) : P (s.focusOrOpen id).wm := by
  unfold focusOrOpen
  split
  · exact openFromCatalog_wm hlegal hperform hmap h id
  · next w hw =>
      have hmem := List.mem_of_find?_eq_some hw
      simp only
      split
      · exact setMode_focus_rule hlegal hperform h hmem _ _
      · exact focus_rule hlegal hperform h hmem

theorem requestClose_wm {s : Desk} (h : P s.wm) (id : WindowId) (allowed : Bool) :
    P (s.requestClose id allowed).wm := by
  unfold Desk.requestClose
  simp only
  have hcancel := cancelDrag_wm hmap h
  split
  · exact hperform _ (.close id) hcancel (hlegal _ _ trivial)
  · exact hcancel

theorem pressPanel_wm {s : Desk} (h : P s.wm) (m : MouseEvent) (o : Outcome) (r : PanelHitResult) :
    P (s.pressPanel m o r).wm := by
  unfold pressPanel
  split
  · exact h
  · exact h
  · exact h
  · split
    · exact h
    split
    · exact h
    split
    · exact openFromCatalog_wm hlegal hperform hmap h _
    · exact focusOrOpen_wm hlegal hperform hmap h _
  · split
    · exact h
    next t hfind =>
    have hmem := (WindowManager.mem_of_find hfind).1
    split
    · split
      · exact h
      · exact openFromCatalog_wm hlegal hperform hmap h _
    split
    · exact setMode_focus_rule hlegal hperform h hmem _ _
    split
    · exact hperform s.wm (.setMode t.id .minimized s.lastWork) h (hlegal _ _ trivial)
    · exact focus_rule hlegal hperform h hmem
  · exact h

theorem pressWindow_wm {s : Desk} (h : P s.wm) (m : MouseEvent) (o : Outcome) {w : Win}
    (hw : w ∈ s.wm.stack) (zone : WinHit) : P (s.pressWindow m o w zone).wm := by
  unfold pressWindow
  simp only
  have hfocus : P (if s.wm.focused ≠ w.id then { s with wm := s.wm.focus w.id } else s).wm := by
    split
    · exact focus_rule hlegal hperform h hw
    · exact h
  generalize (if s.wm.focused ≠ w.id then { s with wm := s.wm.focus w.id } else s) = u at *
  split
  · split
    · exact hperform u.wm (.setMode w.id _ _) hfocus (hlegal _ _ trivial)
    split
    · exact hfocus
    · exact hfocus
  · exact hperform u.wm (.setMode w.id _ _) hfocus (hlegal _ _ trivial)
  · exact hperform u.wm (.setMode w.id _ _) hfocus (hlegal _ _ trivial)
  · refine requestClose_wm hlegal hperform hmap ?_ _ _
    exact hfocus
  all_goals exact hfocus

omit hlegal in
theorem covered_wm {s : Desk} (h : P s.wm) (o : Outcome)
    (hlawful : StepsMeet Windows.perform L s.wm o.ops) :
    P (s.covered o).wm := by
  have hops : P (o.ops.foldl Windows.perform s.wm) :=
    @run_invariant _ _ Windows.perform _ P (fun v op hv hok => hperform v op hv hok) _ _ h hlawful
  have hrects : ∀ (rects : List (WindowId × Rect)) (v : Windows), P v →
      P (rects.foldl (fun v r => v.setUserRect r.1 r.2) v) := by
    intro rects
    induction rects with
    | nil => exact fun v hv => hv
    | cons r rects ih => exact fun v hv => ih _ (change_rule hmap hv _ _)
  exact hrects _ _ hops

theorem press_wm {s : Desk} (h : P s.wm) (m : MouseEvent) (o : Outcome)
    (hlawful : StepsMeet Windows.perform L s.wm o.ops) :
    P (s.press m o).wm := by
  unfold Desk.press
  split
  · exact covered_wm hperform hmap h o hlawful
  split
  · exact covered_wm hperform hmap h o hlawful
  simp only
  unfold pressOn
  split
  · refine pressPanel_wm hlegal hperform hmap ?_ m o _
    exact h
  · next w zone htarget =>
      have hw := mem_of_target htarget
      refine pressWindow_wm hlegal hperform hmap ?_ m o ?_ _
      · exact h
      · exact hw
  · split <;> exact h

theorem onMouse_wm {s : Desk} (h : P s.wm) (m : MouseEvent) (o : Outcome)
    (hlawful : StepsMeet Windows.perform L s.wm o.ops) :
    P (s.onMouse m o).wm := by
  unfold Desk.onMouse
  split
  · exact cancelDrag_wm hmap h
  split
  · exact cancelDrag_wm hmap h
  split
  · exact dragMove_wm hmap h m _ _ _ _
  · exact dragResize_wm hmap h m _ _
  · split
    · rw [wheel_wm]
      exact h
    · rw [wheel_wm]
      exact h
    · exact press_wm hlegal hperform hmap h m o hlawful
    · rw [held_wm]
      exact h
    · rw [held_wm]
      exact h

theorem compose_wm {s : Desk} (h : P s.wm) (cols rows : Int) (utf8 badge : Bool) (hint : Bytes)
    (allowed : Bool) : P (s.compose cols rows utf8 badge hint allowed).wm := by
  have hwatched := watchdog_wm hmap h
  unfold Desk.compose
  simp only
  split
  · exact hwatched
  · have hopened : P s.watchdog.openPending.wm := by
      unfold Desk.openPending
      split
      · exact hwatched
      · refine openApp_wm hlegal hperform hmap ?_ _ _
        exact hwatched
    have hclosed : P (s.watchdog.openPending.closeRequested allowed).wm := by
      unfold Desk.closeRequested
      split
      · exact hopened
      · refine requestClose_wm hlegal hperform hmap ?_ _ _
        exact askClose_rule hmap hopened _ _
    generalize s.watchdog.openPending.closeRequested allowed = served at *
    refine hmap _ _ (?_ : P (Desk.ensureWindow { served with
      lastWork := workArea cols rows served.panel.edge served.panel.thickness }).wm) ?_ rfl rfl
    · unfold Desk.ensureWindow
      split
      · exact hclosed
      · refine openFromCatalog_wm hlegal hperform hmap ?_ _
        exact hclosed
    · simp [Desktop.ids, Windows.relayout, Windows.keep, Desktop.relayout]

/-- **One event.** -/
theorem step_wm {s : Desk} (h : P s.wm) {e : Event} (hlawful : AsksOnly L s e) : P (s.step e).wm := by
  cases e with
  | mouse m o => exact onMouse_wm hlegal hperform hmap h m o hlawful
  | key o =>
      simp only [Desk.step, onKey]
      split
      · exact cancelDrag_wm hmap h
      · exact covered_wm hperform hmap h o hlawful
  | paste =>
      simp only [Desk.step, onPaste]
      split
      · exact cancelDrag_wm hmap h
      · exact h
  | focus focused =>
      simp only [Desk.step, onFocus]
      split
      · exact h
      · exact cancelDrag_wm hmap h
  | watchdog => exact watchdog_wm hmap h
  | elapse ms => exact h
  | compose cols rows utf8 badge hint allowed =>
      exact compose_wm hlegal hperform hmap h cols rows utf8 badge hint allowed
  | attach => exact cancelDrag_wm hmap h
  | asksOpen id minSize => exact h
  | asksClose id => exact askClose_rule hmap h id true
  | closes id => exact hperform s.wm (.close id) h (hlegal _ _ trivial)
  | setsTitle id title => exact change_rule hmap h id _

end Rule

/-! ### The count of the openings -/

/-- Whatever happens, it grows, -/
theorem step_openings (s : Desk) (e : Event) : s.wm.openings ≤ (s.step e).wm.openings := by
  have hall : ∀ e, AsksOnly (fun _ _ => True) s e := by
    intro e
    cases e with
    | mouse m o => exact StepsMeet.of_forall (fun _ _ _ => trivial) _
    | key o => exact StepsMeet.of_forall (fun _ _ _ => trivial) _
    | _ => trivial
  exact step_wm (P := fun v => s.wm.openings ≤ v.openings) (L := fun _ _ => True)
    (fun _ _ _ => trivial) (fun v op hv _ => hv.trans (v.openings_perform op))
    (fun v v' hv _ _ hopenings => hopenings ▸ hv) (le_refl _) (hall e)

/-- and all along a run. -/
theorem run_openings (s : Desk) (es : List Event) : s.wm.openings ≤ (run step s es).wm.openings := by
  induction es generalizing s with
  | nil => exact le_refl _
  | cons e es ih => exact (step_openings s e).trans (ih (s.step e))

theorem steps_room {s : Desk} {es : List Event} (hroom : (run step s es).wm.openings < 2 ^ 32) :
    StepsMeet step (fun s e => (s.step e).wm.openings < 2 ^ 32) s es := by
  induction es generalizing s with
  | nil => trivial
  | cons e es ih => exact ⟨Nat.lt_of_le_of_lt (run_openings (s.step e) es) hroom, ih hroom⟩

/-! ### The focus -/

/-- **Every run** of a session. -/
theorem run_topped {es : List Event} (hlawful : StepsMeet step Lawful {} es) :
    (run step ({} : Desk) es).wm.toDesktop.Topped := by
  refine @run_invariant _ _ step Lawful (fun s => s.wm.toDesktop.Topped) ?_ _ _ rfl hlawful
  intro s e h hok
  refine step_wm (P := fun v => v.toDesktop.Topped) (L := fun v op => v.toDesktop.Legal op)
    (fun v op hlegal => hlegal) (fun v op hv hlegal => hv.apply hlegal)
    (fun v v' hv hids hfocused _ => ?_) h hok
  rw [Desktop.topped_iff_ids] at hv ⊢
  rw [hids, hfocused, hv]

end Desk

end Sshos.Daemon
