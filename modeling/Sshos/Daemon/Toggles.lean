import Sshos.Daemon.Front

/-!
# Sshos.Daemon.Toggles

**Toggles** of a window, twice: its entry in the panel reduces it, then recalls it; a key
makes it fill the screen, then gives it back. What comes back is always a window in its
normal mode, whatever its mode was.
-/

namespace Sshos.Daemon

open Sshos.Input (MouseEvent)
open Sshos.Lib (run StepsMeet)
open Sshos.Wm (Desktop Win WinMode WindowId WindowManager Windows)

namespace Desk

variable (s : Desk)

/-- `FullscreenToggle`, on the window that has the focus. -/
def fullscreenToggle : Desk :=
  match s.wm.find s.wm.focused with
  | none => s
  | some w =>
      { s with wm := s.wm.setMode w.id (if w.app.mode = .fullscreen then .normal else .fullscreen)
                s.lastWork }

/-- The press is on the entry of window `id` in the panel, and asks for that window. -/
structure PressesEntry (m : MouseEvent) (o : Outcome) (id : WindowId) : Prop where
  press : m.action = .press
  button : m.button ≠ 2
  idle : s.drag = .idle
  uncovered : ¬ (s.covers.modal ∨ s.covers.help ∨ s.covers.menu)
  unpicked : ¬ (s.covers.assist ∧ o.picked)
  entry : (s.panel.hit m.x m.y).what = .task ∧ (s.panel.hit m.x m.y).win = id
  there : s.wm.find id ≠ none

/-- What may come between the two: compositions, the release of the button, time. -/
def Between : Event → Prop
  | .compose .. | .elapse _ | .watchdog => True
  | .mouse m _ => m.action = .release
  | _ => False

/-- A window is as it was: its mode, its geometry, the focus, the order of the windows that
are still there. -/
structure Undone (w : Win) (s s' : Desk) : Prop where
  window : ∃ w', s'.wm.find w.id = some w' ∧ w'.app.mode = w.app.mode ∧
    w'.app.userRect = w.app.userRect
  focus : s'.wm.focused = s.wm.focused
  order : (s'.wm.ids.filter fun id => id ∈ s.wm.ids).Sublist s.wm.ids

variable {s}

/-! ### In between -/

theorem between_step {v : Windows} (hserves : Serves v s.wm) (hidle : s.drag = .idle) {e : Event}
    (he : Between e) : Serves v (s.step e).wm ∧ (s.step e).drag = .idle := by
  have hcancel : ∀ s : Desk, Serves v s.wm ∧ s.drag = .idle →
      Serves v s.cancelDrag.wm ∧ s.cancelDrag.drag = .idle := by
    intro s hs
    unfold Desk.cancelDrag
    rw [hs.2]
    exact ⟨hs.1, rfl⟩
  cases e with
  | compose cols rows utf8 badge hint allowed =>
      exact compose_rule (P := fun u : Desk => Serves v u.wm ∧ u.drag = .idle)
        (fun u u' hu hserves hdrag _ => ⟨hu.1.trans hserves, hdrag.trans hu.2⟩) hcancel
        ⟨hserves, hidle⟩ cols rows utf8 badge hint allowed
  | elapse ms => exact ⟨hserves, hidle⟩
  | watchdog => exact watchdog_rule (P := fun u : Desk => Serves v u.wm ∧ u.drag = .idle) hcancel ⟨hserves, hidle⟩
  | mouse m o =>
      have hrelease : m.action = .release := he
      have heq : s.onMouse m o = s.held m := by
        unfold Desk.onMouse
        rw [if_neg (by simp [hrelease]), if_neg (by simp [hrelease])]
        simp only [hidle, hrelease]
      show Serves v (s.onMouse m o).wm ∧ (s.onMouse m o).drag = .idle
      rw [heq, held_wm, held_drag]
      exact ⟨hserves, hidle⟩
  | _ => exact he.elim

theorem between_run {v : Windows} {es : List Event} (hserves : Serves v s.wm) (hidle : s.drag = .idle)
    (hes : ∀ e ∈ es, Between e) : Serves v (run step s es).wm ∧ (run step s es).drag = .idle := by
  induction es generalizing s with
  | nil => exact ⟨hserves, hidle⟩
  | cons e es ih =>
      obtain ⟨hserves, hidle⟩ := between_step hserves hidle (hes e (List.mem_cons_self ..))
      exact ih hserves hidle fun e' he' => hes e' (List.mem_cons_of_mem _ he')

/-! ### The entry of the panel -/

/-- What a press on an entry does to the windows. -/
theorem onMouse_entry {m : MouseEvent} {o : Outcome} {w : Win} (hpress : s.PressesEntry m o w.id)
    (hfind : s.wm.find w.id = some w) : (s.onMouse m o).drag = .idle ∧ (s.onMouse m o).wm =
      if w.app.mode = .minimized then (s.wm.setMode w.id .normal s.lastWork).focus w.id
      else if s.wm.focused = w.id then s.wm.setMode w.id .minimized s.lastWork
      else s.wm.focus w.id := by
  have hid := (WindowManager.mem_of_find hfind).2
  have htarget : s.target m.x m.y = .panel (s.panel.hit m.x m.y) := by
    unfold Desk.target
    simp only
    rw [if_pos (by rw [hpress.entry.1]; decide)]
  have heq : s.onMouse m o = pressPanel { s with covers := { s.covers with assist := false } } m o
      (s.panel.hit m.x m.y) := by
    unfold Desk.onMouse
    rw [if_neg (by simp [hpress.press]), if_neg (by simp [hpress.idle])]
    split
    · next hdrag => simp [hpress.idle] at hdrag
    · next hdrag => simp [hpress.idle] at hdrag
    rw [hpress.press]
    simp only
    unfold Desk.press
    rw [if_neg hpress.uncovered, if_neg hpress.unpicked]
    exact congrArg (pressOn { s with covers := { s.covers with assist := false } } m o) htarget
  rw [heq]
  unfold pressPanel
  simp only [hpress.entry.1, hpress.entry.2, hfind, if_neg hpress.button]
  split
  · exact ⟨hpress.idle, rfl⟩
  split
  · exact ⟨hpress.idle, rfl⟩
  · exact ⟨hpress.idle, rfl⟩

/-- In front, a window has the last number. -/
theorem ids_front (htopped : s.wm.toDesktop.Topped) {w : Win} (hfind : s.wm.find w.id = some w)
    (hfocus : s.wm.focused = w.id) : ∃ back, s.wm.ids = back ++ [w.id] := by
  rw [Desktop.topped_iff_ids] at htopped
  rcases List.eq_nil_or_concat s.wm.ids with hnil | ⟨back, last, heq⟩
  · have hmem : w.id ∈ s.wm.ids := List.mem_map_of_mem (WindowManager.mem_of_find hfind).1
    rw [hnil] at hmem
    cases hmem
  · rw [List.concat_eq_append] at heq
    refine ⟨back, ?_⟩
    rw [heq, ← hfocus, htopped, heq]
    simp

/-- Once a window was served and takes the focus again, the others are in the order they
were in, and it is in front. -/
theorem order_focus {v u : Windows} (hroom : u.openings < 2 ^ 32) {id : WindowId}
    {back : List WindowId} (hv : v.ids = back ++ [id])
    (hserves : (u.ids.filter fun i => i ∈ v.ids).Sublist v.ids) (hthere : u.find id ≠ none) :
    ((u.focus id).ids.filter fun i => i ∈ v.ids).Sublist v.ids := by
  obtain ⟨rest, w, hid, hstack⟩ := Desktop.focus_stack (d := u.toDesktop) id hthere
  have hids : (u.focus id).ids = rest.map (·.id) ++ [id] := by
    show (u.toDesktop.focus id).ids = _
    rw [Desktop.ids, hstack, List.map_append, List.map_singleton, hid]
  have hnodup : (u.focus id).ids.Nodup := Windows.distinct (v := u.focus id) hroom
  generalize rest.map (·.id) = ids at *
  have hnot : id ∉ ids := by
    rw [hids] at hnodup
    exact fun hmem => (List.nodup_append.1 hnodup).2.2 id hmem id (List.mem_singleton_self id) rfl
  -- behind it, what was served
  have hothers : ids.Sublist u.ids := by
    have h := @focus_ids_filter u.toDesktop id (fun i => i ≠ id) (by simp)
    have hfront : (u.toDesktop.focus id).ids = ids ++ [id] := hids
    rw [hfront, List.filter_append, List.filter_eq_self.2 fun i hi => by
      simpa using fun heq : i = id => hnot (heq ▸ hi)] at h
    exact (List.sublist_append_left _ _).trans h
  have hback : (ids.filter fun i => i ∈ v.ids).Sublist back := by
    have h := ((hothers.filter fun i => i ∈ v.ids).trans hserves).filter fun i => i ≠ id
    rw [hv, List.filter_append, List.filter_eq_self.2 fun i hi => by
      simpa using fun heq : i = id => hnot (heq ▸ (List.mem_filter.1 hi).1)] at h
    rw [hv]
    refine h.trans ?_
    simp
  rw [hids, List.filter_append, List.filter_cons_of_pos (by simp [hv]), List.filter_nil]
  conv_rhs => rw [hv]
  exact hback.append (List.Sublist.refl _)

/-- The windows that are still there after something was served. -/
theorem order_of_serves {v u u' : Windows} (hserves : Serves u u') (hroom : u'.openings < 2 ^ 32)
    (hids : u.ids = v.ids) : (u'.ids.filter fun i => i ∈ v.ids).Sublist v.ids := by
  have hle : ∀ i ∈ v.ids, i ≤ u.openings := by
    intro i hi
    rw [← hids] at hi
    obtain ⟨w, hw, rfl⟩ := List.mem_map.1 hi
    exact Windows.id_le (hserves.stays.room hroom) hw
  have hsub : (u'.ids.filter fun i => i ∈ v.ids).Sublist (u'.ids.filter fun i => i ≤ u.openings) := by
    refine List.monotone_filter_right _ fun i hi => ?_
    exact decide_eq_true (hle i (of_decide_eq_true hi))
  rw [← hids] at hsub ⊢
  exact hsub.trans (hserves.order hroom)

theorem ids_setMode (v : Windows) (id : WindowId) (m : WinMode) (work : Sshos.Render.Rect) :
    (v.setMode id m work).ids = v.ids := by
  show (v.toDesktop.setMode id m work).ids = _
  rw [Desktop.ids_eq_keys, Desktop.ids_eq_keys, Desktop.setMode_keys]

theorem focused_setMode (v : Windows) (id : WindowId) (m : WinMode) (work : Sshos.Render.Rect) :
    (v.setMode id m work).focused = v.focused := by
  show (v.toDesktop.setMode id m work).focused = _
  unfold Desktop.setMode
  split
  · rfl
  · split <;> rfl

/-- **The entry of a window, pressed twice**: the window comes back in its normal mode. -/
theorem entryTwice_iff (htopped : s.wm.toDesktop.Topped) {w : Win} (hfind : s.wm.find w.id = some w)
    (hfocus : s.wm.focused = w.id) (hvisible : w.app.mode ≠ .minimized) {m m' : MouseEvent}
    {o o' : Outcome} {between : List Event} (hbetween : ∀ e ∈ between, Between e)
    (hpress : s.PressesEntry m o w.id)
    (hpress' : (run step (s.onMouse m o) between).PressesEntry m' o' w.id)
    (hroom : (run step (s.onMouse m o) between).wm.openings < 2 ^ 32) :
    Undone w s ((run step (s.onMouse m o) between).onMouse m' o') ↔ w.app.mode = .normal := by
  obtain ⟨hidle, hwm⟩ := onMouse_entry hpress hfind
  rw [if_neg hvisible, if_pos hfocus] at hwm
  obtain ⟨hserves, -⟩ := between_run (Serves.refl _) hidle hbetween
  generalize run step (s.onMouse m o) between = mid at *
  rw [hwm] at hserves
  -- reduced by the first press, the window still is at the second one
  obtain ⟨w₁, hfind₁, hid₁, hmode₁, hrect₁⟩ := s.wm.find_setMode hfind .minimized s.lastWork
  obtain ⟨w₂, hfind₂⟩ := Option.ne_none_iff_exists'.1 hpress'.there
  obtain ⟨hmem₂, hid₂⟩ := WindowManager.mem_of_find hfind₂
  have hsame := hserves.stays.same hroom (WindowManager.mem_of_find hfind₁).1 hmem₂ (hid₂.trans hid₁.symm)
  have hmode₂ : w₂.app.mode = .minimized := by
    rcases hsame.mode trivial with hmode | hfull
    · rw [hmode, hmode₁]
    · rw [hmode₁] at hfull
      cases hfull
  rw [← hid₂] at hpress' hfind₂
  obtain ⟨-, hwm'⟩ := onMouse_entry hpress' hfind₂
  rw [if_pos hmode₂] at hwm'
  generalize mid.onMouse m' o' = last at *
  -- the second press gives it back in its normal mode
  obtain ⟨w₃, hfind₃, -, hmode₃, hrect₃⟩ := mid.wm.find_setMode hfind₂ .normal mid.lastWork
  have hlast : last.wm.find w.id = some w₃ := by
    rw [hwm', ← hid₂, Windows.find_focus (mid.wm.setMode w₂.id .normal mid.lastWork) hroom, hfind₃]
  have hrect : w₃.app.userRect = w.app.userRect :=
    hrect₃.trans (hsame.userRect.trans hrect₁)
  constructor
  · intro hundone
    obtain ⟨w', hfind', hmode', -⟩ := hundone.window
    rw [Option.some.inj (hfind'.symm.trans hlast), hmode₃] at hmode'
    exact hmode'.symm
  · intro hnormal
    refine ⟨⟨w₃, hlast, hmode₃.trans hnormal.symm, hrect⟩, ?_, ?_⟩
    · rw [hwm', hfocus, hid₂]
      rfl
    · obtain ⟨back, hback⟩ := ids_front htopped hfind hfocus
      rw [hwm', hid₂]
      refine order_focus (u := mid.wm.setMode w.id .normal mid.lastWork) hroom hback ?_ ?_
      · rw [ids_setMode]
        exact order_of_serves hserves hroom (ids_setMode ..)
      · rw [← hid₂, hfind₃]
        exact Option.some_ne_none _

/-! ### The full screen -/

theorem fullscreenToggle_of_find {w : Win} (hfind : s.wm.find w.id = some w)
    (hfocus : s.wm.focused = w.id) : s.fullscreenToggle = { s with
      wm := s.wm.setMode w.id (if w.app.mode = .fullscreen then .normal else .fullscreen)
        s.lastWork } := by
  unfold fullscreenToggle
  rw [hfocus, hfind]

/-- **The full screen, toggled twice**: the window comes back in its normal mode if it did not
fill the screen, as long as no other window takes the screen or the focus from it. -/
theorem fullscreenTwice_iff {w : Win} (hfind : s.wm.find w.id = some w) (hfocus : s.wm.focused = w.id)
    (hvisible : w.app.mode ≠ .minimized) (hidle : s.drag = .idle) {between : List Event}
    (hbetween : ∀ e ∈ between, Between e)
    (hthere : (run step s.fullscreenToggle between).wm.find w.id ≠ none)
    (hfocus' : (run step s.fullscreenToggle between).wm.focused = w.id)
    (hscreen : w.app.mode ≠ .fullscreen →
      ∀ u ∈ (run step s.fullscreenToggle between).wm.find w.id, u.app.mode = .fullscreen)
    (hroom : (run step s.fullscreenToggle between).wm.openings < 2 ^ 32) :
    Undone w s (run step s.fullscreenToggle between).fullscreenToggle ↔ w.app.mode ≠ .maximized := by
  rw [fullscreenToggle_of_find hfind hfocus] at *
  obtain ⟨hserves, -⟩ := between_run (s := { s with
    wm := s.wm.setMode w.id (if w.app.mode = .fullscreen then .normal else .fullscreen) s.lastWork })
    (Serves.refl _) hidle hbetween
  generalize run step _ between = mid at *
  obtain ⟨w₁, hfind₁, hid₁, hmode₁, hrect₁⟩ := s.wm.find_setMode hfind
    (if w.app.mode = .fullscreen then .normal else .fullscreen) s.lastWork
  obtain ⟨w₂, hfind₂⟩ := Option.ne_none_iff_exists'.1 hthere
  obtain ⟨hmem₂, hid₂⟩ := WindowManager.mem_of_find hfind₂
  have hsame := hserves.stays.same hroom (WindowManager.mem_of_find hfind₁).1 hmem₂ (hid₂.trans hid₁.symm)
  -- in between, it has the mode the first toggle gave it
  have hmode₂ : w₂.app.mode = .fullscreen ↔ w.app.mode ≠ .fullscreen := by
    constructor
    · intro hfull hwas
      rw [if_pos hwas] at hmode₁
      rcases hsame.mode trivial with hmode | hmode
      · rw [hmode, hmode₁] at hfull
        cases hfull
      · rw [hmode₁] at hmode
        cases hmode
    · exact fun hnot => hscreen hnot w₂ hfind₂
  rw [← hid₂] at hfind₂ hfocus'
  rw [fullscreenToggle_of_find hfind₂ hfocus']
  obtain ⟨w₃, hfind₃, -, hmode₃, hrect₃⟩ := mid.wm.find_setMode hfind₂
    (if w₂.app.mode = .fullscreen then .normal else .fullscreen) mid.lastWork
  have hrect : w₃.app.userRect = w.app.userRect := hrect₃.trans (hsame.userRect.trans hrect₁)
  rw [hid₂] at hfind₃ hfocus' ⊢
  have hrest : Undone w s { mid with
      wm := mid.wm.setMode w.id (if w₂.app.mode = .fullscreen then .normal else .fullscreen)
        mid.lastWork } ↔
      w₃.app.mode = w.app.mode := by
    constructor
    · intro hundone
      obtain ⟨w', hfind', hmode', -⟩ := hundone.window
      rwa [Option.some.inj (hfind'.symm.trans hfind₃)] at hmode'
    · intro hmode
      refine ⟨⟨w₃, hfind₃, hmode, hrect⟩, ?_, ?_⟩
      · exact (focused_setMode ..).trans (hfocus'.trans hfocus.symm)
      · show ((mid.wm.setMode w.id _ mid.lastWork).ids.filter _).Sublist _
        rw [ids_setMode]
        exact order_of_serves hserves hroom (ids_setMode ..)
  rw [hrest, hmode₃]
  cases hmode : w.app.mode with
  | fullscreen => simp [hmode₂, hmode]
  | normal => simp [hmode₂, hmode]
  | maximized => simp [hmode₂, hmode]
  | minimized => exact absurd hmode hvisible

/-- **Toggles, twice**, in every state a session can reach: the entry of the panel undoes
itself for a window in its normal mode alone, the full screen for one that fills the screen as
well; as long as the numbers have not come round. -/
theorem toggledTwice_iff {past : List Event} (hlawful : StepsMeet step Lawful {} past) {w : Win}
    (hfind : (run step ({} : Desk) past).wm.find w.id = some w)
    (hfocus : (run step ({} : Desk) past).wm.focused = w.id) (hvisible : w.app.mode ≠ .minimized) :
    let s := run step ({} : Desk) past
    (∀ m o between m' o', (∀ e ∈ between, Between e) → s.PressesEntry m o w.id →
      (run step (s.onMouse m o) between).PressesEntry m' o' w.id →
      (run step (s.onMouse m o) between).wm.openings < 2 ^ 32 →
      (Undone w s ((run step (s.onMouse m o) between).onMouse m' o') ↔ w.app.mode = .normal)) ∧
    (∀ between, (∀ e ∈ between, Between e) → s.drag = .idle →
      (run step s.fullscreenToggle between).wm.find w.id ≠ none →
      (run step s.fullscreenToggle between).wm.focused = w.id →
      (w.app.mode ≠ .fullscreen →
        ∀ u ∈ (run step s.fullscreenToggle between).wm.find w.id, u.app.mode = .fullscreen) →
      (run step s.fullscreenToggle between).wm.openings < 2 ^ 32 →
      (Undone w s (run step s.fullscreenToggle between).fullscreenToggle ↔
        w.app.mode ≠ .maximized)) := by
  intro s
  constructor
  · intro m o between m' o' hbetween hpress hpress' hroom
    exact entryTwice_iff (run_topped hlawful) hfind hfocus hvisible hbetween hpress hpress' hroom
  · intro between hbetween hidle hthere hfocus' hscreen hroom
    exact fullscreenTwice_iff hfind hfocus hvisible hidle hbetween hthere hfocus' hscreen hroom

/-- A frame of 80 columns. -/
def frame : Event := .compose 80 24 true false [] true

/-- A new session whose terminal was given a mode, and the frame after that. -/
def terminalIn (mode : WinMode) : List Event :=
  [frame, .key { ops := [.setMode 1 mode { w := 80, h := 23 }] }, frame]

/-- The terminal of a new session, in its normal mode or over the whole work area. -/
def terminal (maximized : Bool) : Win where
  id := 1
  app :=
    { appId := kDefaultApp
      userRect := { x := 2, y := 1, w := 44, h := 14 }
      displayRect := if maximized then { w := 80, h := 23 } else { x := 2, y := 1, w := 44, h := 14 }
      mode := if maximized then .maximized else .normal
      minSize := { w := 20, h := 6 } }

/-- A press on its entry. -/
def onEntry : MouseEvent := { x := 12, y := 23 }

theorem pressesEntry_maximized :
    (run step ({} : Desk) (terminalIn .maximized)).PressesEntry onEntry {} 1 ∧
      (run step ((run step ({} : Desk) (terminalIn .maximized)).onMouse onEntry {}) [frame]).PressesEntry
        onEntry {} 1 :=
  ⟨⟨rfl, by decide, by decide +kernel, by decide +kernel, by decide +kernel, by decide +kernel,
    by decide +kernel⟩, ⟨rfl, by decide, by decide +kernel, by decide +kernel, by decide +kernel,
    by decide +kernel, by decide +kernel⟩⟩

theorem toggledTwice_iff_terminal :
    Undone (terminal false) (run step ({} : Desk) (terminalIn .normal))
      (run step ((run step ({} : Desk) (terminalIn .normal)).onMouse onEntry {}) [frame] |>.onMouse
        onEntry {}) ∧
    Undone (terminal false) (run step ({} : Desk) (terminalIn .normal))
      (run step (run step ({} : Desk) (terminalIn .normal)).fullscreenToggle
        [frame]).fullscreenToggle := by
  have hlawful : StepsMeet step Lawful ({} : Desk) (terminalIn .normal) :=
    ⟨trivial, ⟨trivial, trivial⟩, trivial, trivial⟩
  have h := toggledTwice_iff (w := terminal false) hlawful rfl rfl (by decide)
  have hbetween : ∀ e ∈ [frame], Between e := by
    intro e he
    rw [List.mem_singleton.1 he]
    trivial
  refine ⟨(h.1 onEntry {} [frame] onEntry {} hbetween ?_ ?_ (by decide +kernel)).2 rfl,
    (h.2 [frame] hbetween ?_ ?_ ?_ ?_ (by decide +kernel)).2 (by decide)⟩
  · exact ⟨rfl, by decide, by decide +kernel, by decide +kernel, by decide +kernel, by decide +kernel,
      by decide +kernel⟩
  · exact ⟨rfl, by decide, by decide +kernel, by decide +kernel, by decide +kernel, by decide +kernel,
      by decide +kernel⟩
  · decide +kernel
  · decide +kernel
  · decide +kernel
  · decide +kernel

/-- A maximized terminal comes back in its normal mode, either way. -/
theorem maximized_not_undone :
    ((run step ({} : Desk) (terminalIn .maximized)).PressesEntry onEntry {} 1 ∧
      (run step ((run step ({} : Desk) (terminalIn .maximized)).onMouse onEntry {}) [frame]).PressesEntry
        onEntry {} 1) ∧
    ¬ Undone (terminal true) (run step ({} : Desk) (terminalIn .maximized))
      (run step ((run step ({} : Desk) (terminalIn .maximized)).onMouse onEntry {}) [frame] |>.onMouse
        onEntry {}) ∧
    ¬ Undone (terminal true) (run step ({} : Desk) (terminalIn .maximized))
      (run step (run step ({} : Desk) (terminalIn .maximized)).fullscreenToggle
        [frame]).fullscreenToggle := by
  -- the mode it is found in
  have hback : ∀ s : Desk, ((s.wm.find 1).map fun w' => w'.app.mode) = some .normal →
      ¬ Undone (terminal true) (run step ({} : Desk) (terminalIn .maximized)) s := by
    intro s hnormal hundone
    obtain ⟨w', hfind, hmode, -⟩ := hundone.window
    have hfind : s.wm.find 1 = some w' := hfind
    rw [hfind, Option.map_some, hmode] at hnormal
    cases hnormal
  exact ⟨pressesEntry_maximized, hback _ (by decide +kernel), hback _ (by decide +kernel)⟩

end Desk

end Sshos.Daemon
