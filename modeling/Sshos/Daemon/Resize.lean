import Sshos.Daemon.Clicks

/-!
# Sshos.Daemon.Resize

A **resize gesture** should change the side it has hold of. The press tells the right edge,
the bottom edge and the corner apart, and the gesture forgets which it was: its outline
follows the pointer both ways, from the place where the window is displayed, and the window
is given it at the release.

The module says when what the window is given is what the gesture should have changed.
-/

namespace Sshos.Daemon

open Sshos.Input (MouseEvent)
open Sshos.Lib (run)
open Sshos.Render (Rect)
open Sshos.Wm (Win WinHit WindowId WindowManager Windows)

namespace Desk

variable (s : Desk)

/-! ### The gesture -/

/-- The press takes hold of a window by one of its handles. -/
def Grabs (m : MouseEvent) (o : Outcome) (w : Win) (zone : WinHit) : Prop :=
  ¬ (s.covers.modal ∨ s.covers.help ∨ s.covers.menu) ∧ ¬ (s.covers.assist ∧ o.picked) ∧
    s.wm.hit m.x m.y = some w ∧ s.target m.x m.y = .window w zone ∧
    (zone = .edgeRight ∨ zone = .edgeBottom ∨ zone = .cornerBR)

/-- An input that comes after a while, in milliseconds. -/
def input (p : Nat × MouseEvent) : List Event := [.elapse p.1, .watchdog, .mouse p.2 {}]

/-- A press, motions, and the last input. -/
def gesture (m : MouseEvent) (o : Outcome) (moves : List (Nat × MouseEvent)) (last : Nat × MouseEvent) :
    List Event :=
  .mouse m o :: (moves ++ [last]).flatMap input

/-- Nothing gives the gesture up: no motion without a button, no long wait. -/
def Goes (moves : List (Nat × MouseEvent)) (last : Nat × MouseEvent) : Prop :=
  (∀ p ∈ moves, p.1 < kDragWatchdog ∧ p.2.button ≠ 3) ∧ last.1 < kDragWatchdog

/-! ### What it should change -/

/-- From a geometry to another one, by the side that was grabbed: the press was at the place
of `m`, the release at that of `m'`. -/
structure Follows (zone : WinHit) (m m' : MouseEvent) (u u' : Rect) : Prop where
  x : u'.x = u.x
  y : u'.y = u.y
  height : zone = .edgeRight → u'.h = u.h
  width : zone = .edgeBottom → u'.w = u.w
  still : m'.x = m.x → m'.y = m.y → u' = u
  wide : 1 ≤ u'.w
  tall : 1 ≤ u'.h

/-- That window alone, and by that side. -/
def Resizes (v : Windows) (w : Win) (zone : WinHit) (m m' : MouseEvent) (v' : Windows) : Prop :=
  (∃ w' ∈ v'.stack, w'.id = w.id ∧ Follows zone m m' w.app.userRect w'.app.userRect) ∧
    ∀ t ∈ v.stack, t.id ≠ w.id → ∀ t' ∈ v'.stack, t'.id = t.id → t'.app.userRect = t.app.userRect

/-- The window `u` is displayed at its place, and the release is where its other side already
is; a release at the place of the press finds its corner there. -/
structure Aimed (zone : WinHit) (m m' : MouseEvent) (u shown : Rect) : Prop where
  place : shown.x = u.x ∧ shown.y = u.y
  ahead : u.x ≤ m'.x ∧ u.y ≤ m'.y
  row : zone = .edgeRight → m'.y = u.y + u.h - 1
  column : zone = .edgeBottom → m'.x = u.x + u.w - 1
  still : m'.x = m.x → m'.y = m.y → m.x = u.x + u.w - 1 ∧ m.y = u.y + u.h - 1

theorem follows_iff (zone : WinHit) (m m' : MouseEvent) (u shown : Rect) :
    Follows zone m m' u { shown with w := m'.x - shown.x + 1, h := m'.y - shown.y + 1 } ↔
      Aimed zone m m' u shown := by
  constructor
  · rintro ⟨hx, hy, hheight, hwidth, hstill, hwide, htall⟩
    simp only at hx hy hheight hwidth hwide htall
    refine ⟨⟨hx, hy⟩, ⟨by omega, by omega⟩, fun hz => ?_, fun hz => ?_, fun hsx hsy => ?_⟩
    · have hsame := hheight hz
      omega
    · have hsame := hwidth hz
      omega
    · have hsame := hstill hsx hsy
      have hw := congrArg Rect.w hsame
      have hh := congrArg Rect.h hsame
      simp only at hw hh
      exact ⟨by omega, by omega⟩
  · rintro ⟨⟨hx, hy⟩, ⟨hax, hay⟩, hrow, hcolumn, hstill⟩
    refine ⟨hx, hy, fun hz => ?_, fun hz => ?_, fun hsx hsy => ?_, ?_, ?_⟩
    · have hplace := hrow hz
      simp only
      omega
    · have hplace := hcolumn hz
      simp only
      omega
    · obtain ⟨hpx, hpy⟩ := hstill hsx hsy
      cases u
      simp only [Rect.mk.injEq] at *
      exact ⟨hx, hy, by omega, by omega⟩
    · simp only
      omega
    · simp only
      omega

/-! ### How it goes -/

section Steps

variable {s} {v : Windows} {id : WindowId} {shown : Rect} {waited : Nat} {m : MouseEvent}

/-- The gesture goes on: only its outline changes, and not its place. -/
structure Holding (v : Windows) (id : WindowId) (shown : Rect) (waited : Nat) (s : Desk) : Prop where
  wm : s.wm = v
  drag : ∃ w h, s.drag = .resizing id { shown with w := w, h := h }
  stamp : s.now = s.dragStamp + waited

/-- It was given up. -/
structure Dropped (v : Windows) (s : Desk) : Prop where
  wm : s.wm = v
  drag : s.drag = .idle

/-- The press: the focus first, then the window is held. -/
theorem holding_press {o : Outcome} {w : Win} {zone : WinHit} (hidle : s.drag = .idle)
    (hpress : m.action = .press) (hgrabs : s.Grabs m o w zone) :
    ∃ u, (u = s.wm ∨ u = s.wm.focus w.id) ∧ w ∈ u.stack ∧
      Holding u w.id w.app.displayRect 0 (s.onMouse m o) := by
  obtain ⟨huncovered, hunpicked, hshown, htarget, hzone⟩ := hgrabs
  have hmem : w ∈ s.wm.stack := List.mem_reverse.1 (List.mem_of_find?_eq_some hshown)
  rw [onMouse_onWindow hidle hpress huncovered hunpicked htarget]
  unfold pressWindow
  simp only
  by_cases hfocus : s.wm.focused ≠ w.id
  · refine ⟨s.wm.focus w.id, .inr rfl, s.wm.mem_focus_self hmem, ?_⟩
    rw [if_pos hfocus]
    rcases hzone with rfl | rfl | rfl <;> exact ⟨rfl, ⟨_, _, rfl⟩, rfl⟩
  · refine ⟨s.wm, .inl rfl, hmem, ?_⟩
    rw [if_neg hfocus]
    rcases hzone with rfl | rfl | rfl <;> exact ⟨rfl, ⟨_, _, rfl⟩, rfl⟩

theorem Holding.elapse (h : Holding v id shown 0 s) (ms : Nat) :
    Holding v id shown ms { s with now := s.now + ms } :=
  ⟨h.wm, h.drag, by rw [h.stamp]; rfl⟩

theorem Holding.cancelDrag (h : Holding v id shown waited s) : Dropped v s.cancelDrag := by
  obtain ⟨width, height, hdrag⟩ := h.drag
  unfold Desk.cancelDrag
  rw [hdrag]
  exact ⟨h.wm, rfl⟩

theorem Holding.watchdog (h : Holding v id shown waited s) :
    s.watchdog = if waited ≥ kDragWatchdog then s.cancelDrag else s := by
  obtain ⟨width, height, hdrag⟩ := h.drag
  unfold Desk.watchdog
  simp only [hdrag, h.stamp, Nat.add_sub_cancel_left]

/-- A motion moves the outline, or gives the gesture up. -/
theorem Holding.motion (h : Holding v id shown waited s) (hid : v.find id ≠ none)
    (hmotion : m.action = .motion) :
    (m.button ≠ 3 → Holding v id shown 0 (s.onMouse m {})) ∧
      (m.button = 3 → Dropped v (s.onMouse m {})) := by
  obtain ⟨width, height, hdrag⟩ := h.drag
  unfold onMouse
  refine ⟨fun hbutton => ?_, fun hbutton => ?_⟩
  · rw [if_neg fun hlost => hbutton hlost.2, if_neg (by simp [hmotion])]
    simp only [hdrag, dragResize, h.wm]
    cases hfind : v.find id with
    | none => exact absurd hfind hid
    | some w =>
        simp only
        rw [if_neg (by simp [hmotion])]
        exact ⟨rfl, ⟨_, _, rfl⟩, rfl⟩
  · rw [if_pos ⟨hmotion, hbutton⟩]
    exact h.cancelDrag

/-- The release gives the window its outline. -/
theorem Holding.release (h : Holding v id shown waited s) (hid : v.find id ≠ none)
    (hrelease : m.action = .release) :
    (s.onMouse m {}).wm =
      v.setUserRect id { shown with w := m.x - shown.x + 1, h := m.y - shown.y + 1 } := by
  obtain ⟨width, height, hdrag⟩ := h.drag
  unfold onMouse
  rw [if_neg (by simp [hrelease]), if_neg (by simp [hrelease])]
  simp only [hdrag, dragResize, h.wm]
  cases hfind : v.find id with
  | none => exact absurd hfind hid
  | some w =>
      simp only
      rw [if_pos hrelease]
      rfl

theorem Dropped.watchdog (h : Dropped v s) : Dropped v s.watchdog := by
  unfold Desk.watchdog
  rw [h.drag]
  exact h

/-- A gesture that was given up does not come back. -/
theorem Dropped.onMouse (h : Dropped v s) (hm : m.action = .motion ∨ m.action = .release) :
    Dropped v (s.onMouse m {}) := by
  unfold Desk.onMouse
  split
  · unfold Desk.cancelDrag
    rw [h.drag]
    exact ⟨h.wm, rfl⟩
  rw [if_neg (by rcases hm with hm | hm <;> simp [hm])]
  have hheld : Dropped v (s.held m) := by
    unfold held
    simp only
    repeat' split
    all_goals exact ⟨h.wm, h.drag⟩
  rcases hm with hm | hm
  · simp only [h.drag, hm]
    exact hheld
  · simp only [h.drag, hm]
    exact hheld

theorem Dropped.afterInput (h : Dropped v s) {p : Nat × MouseEvent}
    (hp : p.2.action = .motion ∨ p.2.action = .release) : Dropped v (run step s (input p)) := by
  have hlater : Dropped v { s with now := s.now + p.1 } := ⟨h.wm, h.drag⟩
  exact hlater.watchdog.onMouse hp

/-- **One motion**, after a while. -/
theorem Holding.afterInput (h : Holding v id shown 0 s) (hid : v.find id ≠ none) {p : Nat × MouseEvent}
    (hmotion : p.2.action = .motion) :
    (p.1 < kDragWatchdog ∧ p.2.button ≠ 3 → Holding v id shown 0 (run step s (input p))) ∧
      (¬ (p.1 < kDragWatchdog ∧ p.2.button ≠ 3) → Dropped v (run step s (input p))) := by
  have hlater := h.elapse p.1
  have hrun : run step s (input p) =
      ({ s with now := s.now + p.1 } : Desk).watchdog.onMouse p.2 {} := rfl
  rw [hrun, hlater.watchdog]
  by_cases hlate : p.1 ≥ kDragWatchdog
  · rw [if_pos hlate]
    refine ⟨fun hgoes => absurd hlate (Nat.not_le.2 hgoes.1), fun _ => ?_⟩
    exact hlater.cancelDrag.onMouse (.inl hmotion)
  · rw [if_neg hlate]
    obtain ⟨hgo, hdrop⟩ := hlater.motion hid hmotion
    refine ⟨fun hgoes => hgo hgoes.2, fun hnot => hdrop ?_⟩
    by_contra hbutton
    exact hnot ⟨Nat.not_le.1 hlate, hbutton⟩

/-- **All of them.** -/
theorem Dropped.afterInputs (h : Dropped v s) {moves : List (Nat × MouseEvent)}
    (hmoves : ∀ p ∈ moves, p.2.action = .motion ∨ p.2.action = .release) :
    Dropped v (run step s (moves.flatMap input)) := by
  induction moves generalizing s with
  | nil => exact h
  | cons p moves ih =>
      rw [List.flatMap_cons, Lib.run_append]
      exact ih (h.afterInput (hmoves p List.mem_cons_self)) fun q hq => hmoves q (List.mem_cons_of_mem _ hq)

theorem Holding.afterInputs (h : Holding v id shown 0 s) (hid : v.find id ≠ none)
    {moves : List (Nat × MouseEvent)} (hmotion : ∀ p ∈ moves, p.2.action = .motion) :
    ((∀ p ∈ moves, p.1 < kDragWatchdog ∧ p.2.button ≠ 3) →
        Holding v id shown 0 (run step s (moves.flatMap input))) ∧
      (¬ (∀ p ∈ moves, p.1 < kDragWatchdog ∧ p.2.button ≠ 3) →
        Dropped v (run step s (moves.flatMap input))) := by
  induction moves generalizing s with
  | nil => exact ⟨fun _ => h, fun hnot => absurd (fun _ hp => absurd hp List.not_mem_nil) hnot⟩
  | cons p moves ih =>
      rw [List.flatMap_cons, Lib.run_append]
      obtain ⟨hgo, hdrop⟩ := h.afterInput hid (hmotion p List.mem_cons_self)
      have hrest : ∀ q ∈ moves, q.2.action = .motion := fun q hq => hmotion q (List.mem_cons_of_mem _ hq)
      simp only [List.forall_mem_cons]
      by_cases hp : p.1 < kDragWatchdog ∧ p.2.button ≠ 3
      · obtain ⟨hgoes, hdrops⟩ := ih (hgo hp) hrest
        exact ⟨fun hall => hgoes hall.2, fun hnot => hdrops fun hall => hnot ⟨hp, hall⟩⟩
      · refine ⟨fun hall => absurd hall.1 hp, fun _ => ?_⟩
        exact (hdrop hp).afterInputs fun q hq => .inl (hrest q hq)

/-- **The whole gesture**: the outline is written at the release, or nothing is. -/
theorem Holding.afterGesture (h : Holding v id shown 0 s) (hid : v.find id ≠ none)
    {moves : List (Nat × MouseEvent)} {last : Nat × MouseEvent}
    (hmotion : ∀ p ∈ moves, p.2.action = .motion) (hrelease : last.2.action = .release) :
    (Goes moves last → (run step s ((moves ++ [last]).flatMap input)).wm =
        v.setUserRect id { shown with w := last.2.x - shown.x + 1, h := last.2.y - shown.y + 1 }) ∧
      (¬ Goes moves last → (run step s ((moves ++ [last]).flatMap input)).wm = v) := by
  rw [List.flatMap_append, Lib.run_append, List.flatMap_singleton]
  obtain ⟨hgo, hdrop⟩ := h.afterInputs hid hmotion
  by_cases hmoves : ∀ p ∈ moves, p.1 < kDragWatchdog ∧ p.2.button ≠ 3
  · have hheld := hgo hmoves
    generalize run step s (moves.flatMap input) = t at *
    have hlater := hheld.elapse last.1
    have hrun : run step t (input last) =
        ({ t with now := t.now + last.1 } : Desk).watchdog.onMouse last.2 {} := rfl
    rw [hrun, hlater.watchdog]
    by_cases hlate : last.1 ≥ kDragWatchdog
    · rw [if_pos hlate]
      refine ⟨fun hgoes => absurd hlate (Nat.not_le.2 hgoes.2), fun _ => ?_⟩
      exact (hlater.cancelDrag.onMouse (.inr hrelease)).wm
    · rw [if_neg hlate]
      refine ⟨fun _ => hlater.release hid hrelease, fun hnot => absurd ?_ hnot⟩
      exact ⟨hmoves, Nat.not_le.1 hlate⟩
  · refine ⟨fun hgoes => absurd hgoes.1 hmoves, fun _ => ?_⟩
    exact ((hdrop hmoves).afterInput (.inr hrelease)).wm

end Steps

/-! ### What it changes -/

theorem resizes_setUserRect_iff {v u : Windows} (hkeeps : Stays False v u)
    (hroom : u.openings < 2 ^ 32) {w : Win} (hu : w ∈ u.stack) (zone : WinHit) (m m' : MouseEvent)
    (r : Rect) : Resizes v w zone m m' (u.setUserRect w.id r) ↔ Follows zone m m' w.app.userRect r := by
  constructor
  · rintro ⟨⟨w', hw', hid, hfollows⟩, -⟩
    obtain ⟨t, ht, rfl⟩ := (mem_setUserRect hroom).1 hw'
    by_cases heq : t.id = w.id
    · rw [if_pos heq] at hfollows
      exact hfollows
    · rw [if_neg heq] at hid
      exact absurd hid heq
  · refine fun hfollows => ⟨⟨_, (mem_setUserRect hroom).2 ⟨w, hu, rfl⟩, ?_⟩, fun t ht hne t' ht' hid => ?_⟩
    · rw [if_pos rfl]
      exact ⟨rfl, hfollows⟩
    · obtain ⟨t₀, ht₀, rfl⟩ := (mem_setUserRect hroom).1 ht'
      by_cases heq : t₀.id = w.id
      · rw [if_pos heq] at hid
        exact absurd (hid.symm.trans heq) hne
      · rw [if_neg heq] at hid ⊢
        exact (hkeeps.same hroom ht ht₀ hid).userRect

theorem resizes_kept_iff {v u : Windows} (hkeeps : Stays False v u) (hroom : u.openings < 2 ^ 32)
    {w : Win} (hu : w ∈ u.stack) (zone : WinHit) (m m' : MouseEvent) :
    Resizes v w zone m m' u ↔ 1 ≤ w.app.userRect.w ∧ 1 ≤ w.app.userRect.h := by
  constructor
  · rintro ⟨⟨w', hw', hid, hfollows⟩, -⟩
    have hsame : w' = w := Windows.eq_of_id hroom hw' hu hid
    rw [hsame] at hfollows
    exact ⟨hfollows.wide, hfollows.tall⟩
  · rintro ⟨hwide, htall⟩
    refine ⟨⟨w, hu, rfl, rfl, rfl, fun _ => rfl, fun _ => rfl, fun _ _ => rfl, hwide, htall⟩, ?_⟩
    exact fun t ht _ t' ht' hid => (hkeeps.same hroom ht ht' hid).userRect

/-- **Resizing, exactly.** A gesture from a handle of a window changes that window alone, by
the side that was grabbed, if and only if its release is aimed there, or it was given up and
the window had a size. -/
theorem resizes_iff (s : Desk) (m : MouseEvent) (o : Outcome) (w : Win) (zone : WinHit)
    (moves : List (Nat × MouseEvent)) (last : Nat × MouseEvent) (hidle : s.drag = .idle)
    (hpress : m.action = .press) (hgrabs : s.Grabs m o w zone)
    (hmotion : ∀ p ∈ moves, p.2.action = .motion) (hrelease : last.2.action = .release)
    (hroom : s.wm.openings < 2 ^ 32) :
    Resizes s.wm w zone m last.2 (run step s (gesture m o moves last)).wm ↔
      (Goes moves last → Aimed zone m last.2 w.app.userRect w.app.displayRect) ∧
        (¬ Goes moves last → 1 ≤ w.app.userRect.w ∧ 1 ≤ w.app.userRect.h) := by
  obtain ⟨u, hu, hmem, hholding⟩ := holding_press hidle hpress hgrabs
  have hroom : u.openings < 2 ^ 32 := by
    rcases hu with rfl | rfl <;> exact hroom
  have hstays : Stays False s.wm u := by
    rcases hu with rfl | rfl
    · exact Stays.refl _
    · exact stays_focus _ _
  obtain ⟨hgoes, hstops⟩ := hholding.afterGesture (Wm.Desktop.find_ne_none_of_mem hmem) hmotion hrelease
  have hrun : run step s (gesture m o moves last) =
      run step (s.onMouse m o) ((moves ++ [last]).flatMap input) := rfl
  rw [hrun]
  by_cases hgo : Goes moves last
  · rw [hgoes hgo, resizes_setUserRect_iff hstays hroom hmem, follows_iff]
    exact ⟨fun haimed => ⟨fun _ => haimed, fun hnot => absurd hgo hnot⟩, fun h => h.1 hgo⟩
  · rw [hstops hgo, resizes_kept_iff hstays hroom hmem]
    exact ⟨fun hsized => ⟨fun hgo' => absurd hgo' hgo, fun _ => hsized⟩, fun h => h.2 hgo⟩

/-- The second terminal is made larger by its corner. -/
theorem resizes_iff_corner : ∃ w, twoTerminals.wm.find 2 = some w ∧
    Resizes twoTerminals.wm w .cornerBR { x := 47, y := 15 } { x := 60, y := 20, action := .release }
      (run step twoTerminals (gesture { x := 47, y := 15 } {} [(40, { x := 50, y := 17, action := .motion })]
        (30, { x := 60, y := 20, action := .release }))).wm := by
  refine ⟨_, rfl, (resizes_iff twoTerminals { x := 47, y := 15 } {} _ .cornerBR
    [(40, { x := 50, y := 17, action := .motion })] (30, { x := 60, y := 20, action := .release }) rfl rfl
    ⟨by decide +kernel, by decide +kernel, rfl, by decide +kernel, by decide⟩ (by simp) rfl
    (by decide +kernel)).2 ⟨?_, ?_⟩⟩
  · refine fun _ => ⟨by decide +kernel, by decide +kernel, nofun, nofun, fun hx => ?_⟩
    exact absurd hx (by decide)
  · exact fun hnot => absurd ⟨by simp [kDragWatchdog], by decide⟩ hnot

/-- A press and a release on its right edge, half-way up: it has lost its lower half. -/
theorem edge_loses_height : ∃ w, twoTerminals.wm.find 2 = some w ∧
    twoTerminals.Grabs { x := 47, y := 8 } {} w .edgeRight ∧
    ¬ Resizes twoTerminals.wm w .edgeRight { x := 47, y := 8 } { x := 47, y := 8, action := .release }
      (run step twoTerminals (gesture { x := 47, y := 8 } {} []
        (30, { x := 47, y := 8, action := .release }))).wm := by
  refine ⟨_, rfl, ⟨by decide +kernel, by decide +kernel, rfl, by decide +kernel, by decide⟩, ?_⟩
  rintro ⟨⟨w', hw', hid, hfollows⟩, -⟩
  have hall : ∀ w' ∈ (run step twoTerminals (gesture { x := 47, y := 8 } {} []
      (30, { x := 47, y := 8, action := .release }))).wm.stack, w'.id = 2 → w'.app.userRect.h ≠ 14 := by
    decide +kernel
  exact hall w' hw' hid (hfollows.height rfl)

end Desk

end Sshos.Daemon
