import Sshos.Daemon.Compose
import Sshos.Daemon.Gesture

/-!
# Sshos.Daemon.Clicks

A **click on a title bar** gives the focus, and should do nothing else. It engages a move
all the same, that ends where it began: the place written then is the one where the window
is displayed, which is not the one the user wants as soon as the screen is too small for it.
-/

namespace Sshos.Daemon

open Sshos.Input (MouseEvent)
open Sshos.Lib (Bytes run StepsMeet)
open Sshos.Render (Rect)
open Sshos.Wm (Desktop Frame Win WinMode WindowId WindowManager Windows displayRectFor workArea)

namespace Desk

variable (s : Desk)

/-! ### Clicks -/

/-- Compositions of any size, time that passes, what is looked at before an input, and clicks: a
press, then a release at the same place, without a motion between them. `pressed` is where the
button is held. -/
def Clicks : (pressed : Option (Int × Int)) → List Event → Prop
  | _, [] => True
  | none, .mouse m _ :: es => m.action = .press ∧ Clicks (some (m.x, m.y)) es
  | some p, .mouse m _ :: es => m.action = .release ∧ (m.x, m.y) = p ∧ Clicks none es
  | pressed, .elapse _ :: es => Clicks pressed es
  | pressed, .watchdog :: es => Clicks pressed es
  | pressed, .compose .. :: es => Clicks pressed es
  | _, _ :: _ => False

/-- The press falls on a title bar: nothing covers it. -/
def OnTitleBar (m : MouseEvent) (o : Outcome) : Prop :=
  ¬ (s.covers.modal ∨ s.covers.help ∨ s.covers.menu) ∧ ¬ (s.covers.assist ∧ o.picked) ∧
    ∃ w ∈ s.wm.hit m.x m.y, s.target m.x m.y = .window w .titleBar

instance (m : MouseEvent) (o : Outcome) : Decidable (s.OnTitleBar m o) :=
  inferInstanceAs (Decidable (_ ∧ _ ∧ _))

/-- The second press of a double click. -/
def Doubles (m : MouseEvent) : Prop :=
  m.x = s.lastClickX ∧ m.y = s.lastClickY ∧ s.now - s.lastClick ≤ kDoubleClick

instance (m : MouseEvent) : Decidable (s.Doubles m) := inferInstanceAs (Decidable (_ ∧ _ ∧ _))

/-- Presses fall on title bars. -/
def OnTitleBars : Event → Prop
  | .mouse m o => m.action = .press → s.OnTitleBar m o
  | _ => True

/-- A window that a press would move is displayed where the user wants it. -/
def Placed : Event → Prop
  | .mouse m _ => m.action = .press → ∀ w ∈ s.wm.hit m.x m.y, w.app.mode = .normal →
      s.Doubles m ∨
        (w.app.displayRect.x = w.app.userRect.x ∧ w.app.displayRect.y = w.app.userRect.y)
  | _ => True

/-- No press is the second one of a double click. -/
def Single : Event → Prop
  | .mouse m _ => m.action = .press → ¬ s.Doubles m
  | _ => True

instance (e : Event) : Decidable (s.OnTitleBars e) :=
  match e with
  | .mouse _ _ => inferInstanceAs (Decidable (_ → _))
  | .key _ | .paste | .focus _ | .watchdog | .elapse _ | .compose .. | .attach | .asksOpen _ _
  | .asksClose _ | .closes _ | .setsTitle _ _ => .isTrue trivial

instance (e : Event) : Decidable (s.Placed e) :=
  match e with
  | .mouse _ _ => inferInstanceAs (Decidable (_ → _))
  | .key _ | .paste | .focus _ | .watchdog | .elapse _ | .compose .. | .attach | .asksOpen _ _
  | .asksClose _ | .closes _ | .setsTitle _ _ => .isTrue trivial

theorem clicks_of_append {pressed : Option (Int × Int)} {before after : List Event}
    (h : Clicks pressed (before ++ after)) : Clicks pressed before := by
  induction before generalizing pressed with
  | nil => cases pressed <;> trivial
  | cons e es ih =>
      cases e with
      | mouse m o =>
          cases pressed with
          | none => exact ⟨h.1, ih h.2⟩
          | some p => exact ⟨h.1, h.2.1, ih h.2.2⟩
      | elapse ms => cases pressed <;> exact ih h
      | watchdog => cases pressed <;> exact ih h
      | compose cols rows utf8 badge hint allowed => cases pressed <;> exact ih h
      | _ => cases pressed <;> exact h.elim

/-! ### What a click leaves -/

/-- Between a press and a release at the same place: a window that moves has not moved. -/
def Held (pressed : Option (Int × Int)) : Prop :=
  match s.drag with
  | .idle => True
  | .resizing _ _ => False
  | .moving win grabDx grabDy origin =>
      pressed = some (origin.x + grabDx, origin.y + grabDy) ∧
        (s.wm.openings < 2 ^ 32 → win ≤ s.wm.openings ∧
          ∀ w ∈ s.wm.stack, w.id = win → w.app.userRect = origin)

/-- What the windows of `v` keep along clicks. -/
structure Calm (moded : Prop) (v : Windows) (edge : Wm.PanelEdge) (pressed : Option (Int × Int))
    (s : Desk) : Prop where
  stays : Stays moded v s.wm
  edge : s.panel.edge = edge
  held : s.Held pressed

section Steps

variable {s} {moded : Prop} {v : Windows} {edge : Wm.PanelEdge} {pressed : Option (Int × Int)}

theorem Calm.serves (h : Calm moded v edge pressed s) {s' : Desk} (hserves : Serves s.wm s'.wm)
    (hdrag : s'.drag = s.drag) (hedge : s'.panel.edge = s.panel.edge) :
    Calm moded v edge pressed s' := by
  refine ⟨Stays.trans h.stays (Stays.weaken hserves.stays), hedge.trans h.edge, ?_⟩
  have hheld := h.held
  unfold Held at hheld ⊢
  rw [hdrag]
  cases hcase : s.drag with
  | idle => trivial
  | resizing win outline => simp [hcase] at hheld
  | moving win grabDx grabDy origin =>
      simp only [hcase] at hheld ⊢
      refine ⟨hheld.1, fun hroom => ?_⟩
      obtain ⟨hle, horigin⟩ := hheld.2 (hserves.stays.room hroom)
      refine ⟨hle.trans hserves.stays.openings, fun w' hw' hid => ?_⟩
      rcases hserves.stays.old hroom w' hw' with ⟨w, hw, hid', hsame⟩ | hnew
      · rw [hsame.userRect]
        exact horigin w hw (hid'.symm.trans hid)
      · rw [hid] at hnew
        exact absurd hnew (Nat.not_lt.2 hle)

theorem mem_setUserRect {v : Windows} (hroom : v.openings < 2 ^ 32) {id : WindowId} {r : Rect}
    {w' : Win} : w' ∈ (v.setUserRect id r).stack ↔ ∃ w ∈ v.stack,
      w' = if w.id = id then { w with app := { w.app with userRect := r } } else w := by
  rw [Windows.setUserRect, Windows.change_stack v hroom, List.mem_map]
  exact exists_congr fun w => and_congr_right fun _ => eq_comm

/-- What is written anew is what was there. -/
theorem stays_setUserRect {win : WindowId} {r : Rect}
    (hr : v.openings < 2 ^ 32 → ∀ w ∈ v.stack, w.id = win → w.app.userRect = r) :
    Stays moded v (v.setUserRect win r) :=
  Along.of_map rfl (fun hroom => v.change_stack hroom win _) (fun w => by split <;> rfl)
    fun hroom w hw => by
      split
      · next hid => exact ⟨(hr hroom w hw hid).symm, rfl, fun _ => .inl rfl⟩
      · exact SameFrame.refl _

theorem Calm.cancelDrag (h : Calm moded v edge pressed s) : Calm moded v edge pressed s.cancelDrag := by
  have hheld := h.held
  unfold Held at hheld
  unfold Desk.cancelDrag
  cases hcase : s.drag with
  | idle => exact ⟨h.stays, h.edge, trivial⟩
  | resizing win outline => simp [hcase] at hheld
  | moving win grabDx grabDy origin =>
      simp only [hcase] at hheld
      exact ⟨Stays.trans h.stays (stays_setUserRect fun hroom => (hheld.2 hroom).2), h.edge, trivial⟩

theorem Calm.compose (h : Calm moded v edge pressed s) (cols rows : Int) (utf8 badge : Bool)
    (hint : Bytes) (allowed : Bool) :
    Calm moded v edge pressed (s.compose cols rows utf8 badge hint allowed) :=
  compose_rule (P := Calm moded v edge pressed) (fun _ _ h hserves hdrag hedge => h.serves hserves hdrag hedge)
    (fun _ h => h.cancelDrag) h cols rows utf8 badge hint allowed

/-- Nothing is held, so that no gesture is in progress. -/
theorem Calm.idle (h : Calm moded v edge none s) : s.drag = .idle := by
  have hheld := h.held
  unfold Held at hheld
  cases hcase : s.drag with
  | idle => rfl
  | resizing win outline => simp [hcase] at hheld
  | moving win grabDx grabDy origin => simp [hcase] at hheld

theorem stays_setMode (hmoded : ¬ moded) {m : WinMode} (hm : m ≠ .fullscreen) (id : WindowId)
    (work : Rect) : Stays moded v (v.setMode id m work) :=
  Along.of_map rfl (fun hroom => v.setMode_stack hroom hm id work)
    (fun w => by split <;> rfl) fun _ w _ => by
      split
      · cases m <;> exact ⟨rfl, rfl, fun h => absurd h hmoded⟩
      · exact SameFrame.refl _

theorem toggled_ne_fullscreen (mode : WinMode) : toggled mode ≠ .fullscreen := by
  cases mode <;> decide

/-- The desk once a press on a window is noted, its windows being `v`. -/
def noted (s : Desk) (m : MouseEvent) (v : Windows) : Desk :=
  { s with
    wm := v
    covers := { s.covers with assist := false }
    dragStamp := s.now
    lastClick := s.now
    lastClickX := if s.Doubles m then -1 else m.x
    lastClickY := m.y }

/-- What a press on a title bar does: the focus first, then one of three things. -/
theorem onMouse_titleBar {m : MouseEvent} {o : Outcome} (hidle : s.drag = .idle)
    (hpress : m.action = .press) (hon : s.OnTitleBar m o) :
    ∃ w ∈ s.wm.hit m.x m.y, ∃ u, (u = s.wm ∨ u = s.wm.focus w.id) ∧ w ∈ u.stack ∧
      (s.onMouse m o).panel = s.panel ∧
      ((s.Doubles m ∧ (s.onMouse m o).drag = .idle ∧
          (s.onMouse m o).wm = u.setMode w.id (toggled w.app.mode) s.lastWork) ∨
        (w.app.mode ≠ .normal ∧ (s.onMouse m o).drag = .idle ∧ (s.onMouse m o).wm = u) ∨
        (w.app.mode = .normal ∧ ¬ s.Doubles m ∧ (s.onMouse m o).wm = u ∧
          (s.onMouse m o).drag = .moving w.id (m.x - w.app.displayRect.x)
            (m.y - w.app.displayRect.y) w.app.userRect)) := by
  obtain ⟨huncovered, hunpicked, w, hshown, htarget⟩ := hon
  have hmem : w ∈ s.wm.stack := List.mem_reverse.1 (List.mem_of_find?_eq_some hshown)
  rw [onMouse_onWindow hidle hpress huncovered hunpicked htarget]
  generalize hs : pressWindow { s with covers := { s.covers with assist := false } } m o w
    .titleBar = s'
  unfold pressWindow at hs
  simp only at hs
  -- the three ends, whatever the focus did
  have hends : ∀ u : Desk, u.drag = s.drag → (if s.Doubles m then
      { u with wm := u.wm.setMode w.id (toggled w.app.mode) s.lastWork }
      else if w.app.mode ≠ .normal then u
      else { u with
        drag := .moving w.id (m.x - w.app.displayRect.x) (m.y - w.app.displayRect.y)
          w.app.userRect }) = s' →
      s'.panel = u.panel ∧
      ((s.Doubles m ∧ s'.drag = .idle ∧ s'.wm = u.wm.setMode w.id (toggled w.app.mode) s.lastWork) ∨
        (w.app.mode ≠ .normal ∧ s'.drag = .idle ∧ s'.wm = u.wm) ∨
        (w.app.mode = .normal ∧ ¬ s.Doubles m ∧ s'.wm = u.wm ∧
          s'.drag = .moving w.id (m.x - w.app.displayRect.x) (m.y - w.app.displayRect.y)
            w.app.userRect)) := by
    intro u hu hs
    split at hs
    · next hdoubles =>
      subst hs
      exact ⟨rfl, .inl ⟨hdoubles, hu.trans hidle, rfl⟩⟩
    next hdoubles =>
    split at hs
    · next hmode =>
      subst hs
      exact ⟨rfl, .inr (.inl ⟨hmode, hu.trans hidle, rfl⟩)⟩
    · next hmode =>
      subst hs
      exact ⟨rfl, .inr (.inr ⟨not_not.1 hmode, hdoubles, rfl, rfl⟩)⟩
  by_cases hfocus : s.wm.focused ≠ w.id
  · rw [if_pos hfocus] at hs
    obtain ⟨hpanel, hcase⟩ := hends (s.noted m (s.wm.focus w.id)) rfl hs
    exact ⟨w, hshown, s.wm.focus w.id, .inr rfl, s.wm.mem_focus_self hmem, hpanel, hcase⟩
  · rw [if_neg hfocus] at hs
    obtain ⟨hpanel, hcase⟩ := hends (s.noted m s.wm) rfl hs
    exact ⟨w, hshown, s.wm, .inl rfl, hmem, hpanel, hcase⟩

theorem Calm.press (h : Calm moded v edge none s) {m : MouseEvent} {o : Outcome}
    (hpress : m.action = .press) (hon : s.OnTitleBars (.mouse m o)) (hplaced : s.Placed (.mouse m o))
    (hsingle : moded → s.Single (.mouse m o)) :
    Calm moded v edge (some (m.x, m.y)) (s.onMouse m o) := by
  obtain ⟨w, hshown, u, hu, hmem, hpanel, hcase⟩ := onMouse_titleBar h.idle hpress (hon hpress)
  have hstays : Stays moded v u := by
    rcases hu with rfl | rfl
    · exact h.stays
    · exact Stays.trans h.stays (stays_focus _ _)
  have hedge : (s.onMouse m o).panel.edge = edge := by rw [hpanel, h.edge]
  rcases hcase with ⟨hdoubles, hdrag, hwm⟩ | ⟨-, hdrag, hwm⟩ | ⟨hnormal, hdoubles, hwm, hdrag⟩
  · have hmoded : ¬ moded := fun hmoded => hsingle hmoded hpress hdoubles
    refine ⟨?_, hedge, by simp [Held, hdrag]⟩
    rw [hwm]
    exact Stays.trans hstays (stays_setMode hmoded (toggled_ne_fullscreen _) _ _)
  · exact ⟨hwm ▸ hstays, hedge, by simp [Held, hdrag]⟩
  · refine ⟨hwm ▸ hstays, hedge, ?_⟩
    obtain ⟨hx, hy⟩ := (hplaced hpress w hshown hnormal).resolve_left hdoubles
    unfold Held
    rw [hdrag, hwm]
    refine ⟨?_, fun hroom => ⟨Windows.id_le hroom hmem, fun w' hw' hid => ?_⟩⟩
    · rw [← hx, ← hy]
      simp
    · rw [Windows.eq_of_id hroom hw' hmem hid]

theorem Calm.release (h : Calm moded v edge pressed s) {m : MouseEvent} {o : Outcome}
    (hrelease : m.action = .release) (hplace : pressed = some (m.x, m.y)) :
    Calm moded v edge none (s.onMouse m o) := by
  have hheld := h.held
  unfold Held at hheld
  unfold Desk.onMouse
  rw [if_neg (by simp [hrelease]), if_neg (by simp [hrelease])]
  cases hcase : s.drag with
  | idle =>
      simp only [hrelease]
      unfold Desk.held
      split
      · exact ⟨h.stays, h.edge, by simp [Held, hcase]⟩
      · simp only
        split <;> exact ⟨h.stays, h.edge, by simp [Held, hcase, deliver]⟩
  | resizing win outline => simp [hcase] at hheld
  | moving win grabDx grabDy origin =>
      simp only [hcase] at hheld ⊢
      obtain ⟨hpressed, horigin⟩ := hheld
      unfold dragMove
      split
      · have hcancel := h.cancelDrag
        refine ⟨hcancel.stays, hcancel.edge, ?_⟩
        simp [Held, Desk.cancelDrag, hcase]
      next w hfind =>
      simp only [if_pos hrelease]
      by_cases hroom : s.wm.openings < 2 ^ 32
      swap
      · split <;> exact ⟨.of_wrapped h.stays.openings hroom, h.edge, trivial⟩
      obtain ⟨hw, hid⟩ := WindowManager.mem_of_find hfind
      -- the place that is written is the one that was there
      have hsame : { w.app.userRect with x := m.x - grabDx, y := m.y - grabDy } = origin := by
        have hxy := hplace.symm.trans hpressed
        simp only [Option.some.injEq, Prod.mk.injEq] at hxy
        rw [(horigin hroom).2 w hw hid, hxy.1, hxy.2]
        simp
      simp only [hsame, ne_eq, not_true_eq_false, if_false]
      exact ⟨Stays.trans h.stays (stays_setUserRect fun hroom => (horigin hroom).2), h.edge, trivial⟩

theorem Calm.run {es : List Event} (h : Calm moded v edge pressed s) (hclicks : Clicks pressed es)
    (hon : StepsMeet step OnTitleBars s es) (hplaced : StepsMeet step Placed s es)
    (hsingle : moded → StepsMeet step Single s es) :
    ∃ pressed', Calm moded v edge pressed' (run step s es) := by
  induction es generalizing s pressed with
  | nil => exact ⟨pressed, h⟩
  | cons e es ih =>
      have hlater : moded → StepsMeet step Single (s.step e) es := fun hmoded => (hsingle hmoded).2
      cases e with
      | mouse m o =>
          cases pressed with
          | none =>
              obtain ⟨hpress, hclicks⟩ := hclicks
              have hcalm := h.press hpress hon.1 hplaced.1 fun hmoded => (hsingle hmoded).1
              exact ih hcalm hclicks hon.2 hplaced.2 hlater
          | some p =>
              obtain ⟨hrelease, hplace, hclicks⟩ := hclicks
              have hcalm := h.release (o := o) hrelease (congrArg some hplace.symm)
              exact ih hcalm hclicks hon.2 hplaced.2 hlater
      | elapse ms =>
          have hcalm : Calm moded v edge pressed (s.step (.elapse ms)) :=
            h.serves (Serves.refl _) rfl rfl
          cases pressed <;> exact ih hcalm hclicks hon.2 hplaced.2 hlater
      | watchdog =>
          have hcalm : Calm moded v edge pressed s.watchdog :=
            watchdog_rule (P := Calm moded v edge pressed) (fun _ h => h.cancelDrag) h
          cases pressed <;> exact ih hcalm hclicks hon.2 hplaced.2 hlater
      | compose cols rows utf8 badge hint allowed =>
          have hcalm := h.compose cols rows utf8 badge hint allowed
          cases pressed <;> exact ih hcalm hclicks hon.2 hplaced.2 hlater
      | _ => cases pressed <;> exact hclicks.elim

end Steps

/-! ### The layout -/

/-- Every window is where a screen of this size shows it. -/
def LaidOut (cols rows : Int) : Prop :=
  ∀ w ∈ s.wm.stack, w.app.displayRect =
    displayRectFor w.app (workArea cols rows s.panel.edge s.panel.thickness) cols rows

/-- The windows of `s` are displayed again where they were, if they find back their mode.
They do when modes count, but for one that filled the screen. -/
def ShowsAgain (moded : Prop) (s s' : Desk) : Prop :=
  ∀ w ∈ s.wm.stack, ∀ w' ∈ s'.wm.stack, w'.id = w.id →
    w'.app.mode = w.app.mode ∨ (moded ∧ w.app.mode ≠ .fullscreen) →
    w'.app.displayRect = w.app.displayRect

variable {s}

theorem thickness_congr {p q : Sshos.Shell.Panel} (h : p.edge = q.edge) :
    p.thickness = q.thickness := by
  unfold Sshos.Shell.Panel.thickness Sshos.Shell.Panel.horizontal
  rw [h]

theorem compose_laidOut {cols rows : Int} (hcols : kMinCols ≤ cols) (hrows : kMinRows ≤ rows)
    (utf8 badge : Bool) (hint : Bytes) (allowed : Bool) :
    (s.compose cols rows utf8 badge hint allowed).LaidOut cols rows := by
  unfold Desk.compose
  simp only
  rw [if_neg (not_or.2 ⟨Int.not_lt.2 hcols, Int.not_lt.2 hrows⟩)]
  generalize (s.watchdog.openPending).closeRequested allowed = served
  have hedge := ensureWindow_rule (P := fun u => u.panel.edge = served.panel.edge)
    (fun _ _ h _ _ hedge => hedge.trans h) (s := { served with
      lastWork := workArea cols rows served.panel.edge served.panel.thickness }) rfl
  generalize Desk.ensureWindow { served with
    lastWork := workArea cols rows served.panel.edge served.panel.thickness } = seeded at *
  intro w hw
  obtain ⟨u, -, rfl⟩ := List.mem_map.1 hw
  show displayRectFor u.app (workArea cols rows served.panel.edge served.panel.thickness) cols rows =
    displayRectFor u.app (workArea cols rows seeded.panel.edge seeded.panel.thickness) cols rows
  rw [hedge, thickness_congr hedge]

/-- **The layout is remembered.** Whatever the sizes of the screen, clicks on the title bars
of windows that are displayed where the user wants them write no geometry; at the size it
had, the screen shows the windows where it showed them. The numbers have not come round. -/
theorem clicks_keepLayout {es : List Event} (hidle : s.drag = .idle) (hclicks : Clicks none es)
    (hon : StepsMeet step OnTitleBars s es) (hplaced : StepsMeet step Placed s es)
    (hroom : (run step s es).wm.openings < 2 ^ 32) :
    (∀ before, before <+: es →
      Desktop.KeepsUserRects s.wm.toDesktop (run step s before).wm.toDesktop) ∧
    ∀ cols rows utf8 badge hint allowed, kMinCols ≤ cols → kMinRows ≤ rows → s.LaidOut cols rows →
      ((run step s es).compose cols rows utf8 badge hint allowed).wm.openings < 2 ^ 32 →
      ShowsAgain (StepsMeet step Single s es) s
        ((run step s es).compose cols rows utf8 badge hint allowed) := by
  have hstart : ∀ moded, Calm moded s.wm s.panel.edge none s := fun moded =>
    ⟨Stays.refl _, rfl, by simp [Held, hidle]⟩
  constructor
  · intro before hbefore
    obtain ⟨after, rfl⟩ := hbefore
    obtain ⟨pressed, hcalm⟩ := (hstart False).run (clicks_of_append hclicks) hon.of_append
      hplaced.of_append False.elim
    rw [Lib.run_append] at hroom
    have hbefore := Nat.lt_of_le_of_lt (run_openings (run step s before) after) hroom
    intro w hw w' hw' hid
    exact (hcalm.stays.same hbefore hw hw' hid).userRect
  · intro cols rows utf8 badge hint allowed hcols hrows hlaid hlater w hw w' hw' hid hmode
    obtain ⟨pressed, hcalm⟩ := (hstart _).run hclicks hon hplaced id
    have hlast := hcalm.compose cols rows utf8 badge hint allowed
    have hsame := hlast.stays.same hlater hw hw' hid
    have hmode : w'.app.mode = w.app.mode := by
      rcases hmode with hsame' | ⟨hsingle, hnot⟩
      · exact hsame'
      · exact (hsame.mode hsingle).resolve_right hnot
    rw [compose_laidOut hcols hrows utf8 badge hint allowed w' hw', hlaid w hw]
    rw [hlast.edge, thickness_congr hlast.edge]
    simp only [displayRectFor, hmode, hsame.userRect, hsame.minSize]

/-- The windows of a terminal that shrinks, then finds its size back; one is clicked then. -/
def shrinkAndClick (cols rows : Int) (x y : Int) : List Event :=
  [.compose cols rows true false [] true, .watchdog, .mouse { x := x, y := y } {},
    .compose cols rows true false [] true, .watchdog,
    .mouse { x := x, y := y, action := .release } {}, .compose 80 24 true false [] true]

theorem clicks_keepLayout_shrunk :
    Desktop.KeepsUserRects twoTerminals.wm.toDesktop
        (run step twoTerminals (shrinkAndClick 60 20 12 1)).wm.toDesktop ∧
      ShowsAgain (StepsMeet step Single twoTerminals (shrinkAndClick 60 20 12 1)) twoTerminals
        ((run step twoTerminals (shrinkAndClick 60 20 12 1)).compose 80 24 true false [] true) := by
  have h := @clicks_keepLayout twoTerminals (shrinkAndClick 60 20 12 1) rfl
    (by simp [shrinkAndClick, Clicks]) (by decide +kernel) (by decide +kernel) (by decide +kernel)
  exact ⟨h.1 _ (List.prefix_refl _), h.2 80 24 true false [] true (by decide) (by decide)
    (compose_laidOut (by decide) (by decide) _ _ _ _) (by decide +kernel)⟩

/-- At 40 columns the windows are displayed further to the left: the click moves one there. -/
theorem click_moves_window :
    ¬ ∀ (s : Desk) (es : List Event), s.drag = .idle → Clicks none es → StepsMeet step OnTitleBars s es →
      Desktop.KeepsUserRects s.wm.toDesktop (run step s es).wm.toDesktop := by
  intro hall
  have hkeeps := hall twoTerminals (shrinkAndClick 40 20 12 1) rfl (by simp [shrinkAndClick, Clicks])
    (by decide +kernel)
  unfold Desktop.KeepsUserRects at hkeeps
  revert hkeeps
  decide +kernel


end Desk

end Sshos.Daemon
