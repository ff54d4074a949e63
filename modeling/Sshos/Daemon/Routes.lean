import Sshos.Daemon.Desk
import Sshos.Input.Shortcuts
import Sshos.Lib.Run

/-!
# Sshos.Daemon.Routes

**Where the input goes**: to what covers the desktop, to the desktop itself, or to an
application. A dialog may open at any time, and then takes the keys, the pastes, the presses
and the wheel; but what a window was promised when it took the mouse, it is still given.
-/

namespace Sshos.Daemon

open Sshos.Input (KeyEvent LeaderDispatch MouseEvent)
open Sshos.Lib (Bytes StepsMeet run stepsMeet_iff)
open Sshos.Render (Rect)
open Sshos.Wm (Size WindowId)

def kRepeatWindow : Nat := 1500

/-- A session, and what its applications were given, the latest first. -/
structure Routes where
  desk : Desk := {}
  leader : LeaderDispatch := {}
  repeatUntil : Nat := 0
  keys : List (WindowId × KeyEvent) := []
  pastes : List (WindowId × Bytes × Bool) := []

/-- An event that is no mouse, key or paste event. -/
def Desk.Event.isInput : Desk.Event → Bool
  | .mouse .. | .key .. | .paste => true
  | _ => false

namespace Routes

variable (s : Routes)

/-- The focused window is given a key. -/
def deliverKey (k : KeyEvent) : Routes :=
  match s.desk.wm.find s.desk.wm.focused with
  | none => s
  | some w => { s with keys := (w.id, k) :: s.keys }

/-- `o` is what the desktop makes of the key, where it takes it. -/
def onKey (k : KeyEvent) (o : Outcome) : Routes :=
  if s.desk.drag ≠ .idle then { s with desk := s.desk.cancelDrag }
  -- the client goes, the session stays
  else if k.key = .char ∧ k.ch = 'q'.toNat ∧ k.mods.ctrl = true then s
  else if s.desk.covers.modal ∨ s.desk.covers.menu then { s with desk := s.desk.covered o }
  else
    let s :=
      if s.leader.phase = .repeating ∧ s.desk.now > s.repeatUntil then
        { s with leader := s.leader.reset }
      else s
    -- the help and the snap proposal go, and the key keeps its effect
    let s := { s with
      desk := { s.desk with covers := { s.desk.covers with help := false, assist := false } } }
    if (k.key = .left ∨ k.key = .right ∨ k.key = .up ∨ k.key = .down) ∧ k.mods = { ctrl := true } then
      { s with leader := s.leader.reset, desk := s.desk.covered o }
    else
      let fed := s.leader.feed k
      let s := { s with leader := fed.2 }
      match fed.1.action with
      | some .literalLeader =>
          s.deliverKey { key := .char, ch := s.leader.leader, mods := { ctrl := true } }
      | some _ =>
          { s with
            desk := s.desk.covered o
            repeatUntil :=
              if s.leader.phase = .repeating then s.desk.now + kRepeatWindow else s.repeatUntil }
      | none => if fed.1.consumed = true then s else s.deliverKey k

def onPaste (text : Bytes) (complete : Bool) : Routes :=
  let s := if s.desk.drag ≠ .idle then { s with desk := s.desk.cancelDrag } else s
  if s.desk.covers.modal ∨ s.desk.covers.menu then s
  else
    match s.desk.wm.find s.desk.wm.focused with
    | none => s
    | some w => { s with pastes := (w.id, text, complete) :: s.pastes }

inductive Event
  | mouse (m : MouseEvent) (o : Outcome)
  | key (k : KeyEvent) (o : Outcome)
  | paste (text : Bytes) (complete : Bool)
  /-- What covers the desktop changes by itself: the end of a child poses a question, the help
  comes because a chord is left armed. -/
  | covers (c : Covers)
  | other (e : { e : Desk.Event // e.isInput = false })

def step : Event → Routes
  | .mouse m o => { s with desk := s.desk.onMouse m o }
  | .key k o => s.onKey k o
  | .paste text complete => s.onPaste text complete
  | .covers c => { s with desk := { s.desk with covers := c } }
  | .other e => { s with desk := s.desk.step e }

/-! ### The desk under the routes -/

theorem deliverKey_desk (k : KeyEvent) : (s.deliverKey k).desk = s.desk := by
  unfold deliverKey
  split <;> rfl

/-- What is asked of nothing, for a key that only takes away the help and the proposal. -/
theorem covered_covers (d : Desk) (c : Covers) : d.covered { covers := c } = { d with covers := c } := rfl

/-- **The desk sees a key** as an event of its own, whose outcome the routes settle. -/
theorem onKey_desk (k : KeyEvent) (o : Outcome) : ∃ o', (s.onKey k o).desk = s.desk.onKey o' := by
  unfold onKey Desk.onKey
  split
  · exact ⟨o, rfl⟩
  simp only
  split
  · exact ⟨{ covers := s.desk.covers }, (covered_covers _ _).symm⟩
  split
  · exact ⟨o, rfl⟩
  generalize hreset : (if s.leader.phase = .repeating ∧ s.desk.now > s.repeatUntil then
    { s with leader := s.leader.reset } else s) = t
  have hdesk : t.desk = s.desk := by
    rw [← hreset]
    split <;> rfl
  rw [← hdesk]
  split
  · exact ⟨o, rfl⟩
  have hputAway (d : Desk) : ∃ o', { d with covers := { d.covers with help := false, assist := false } } =
      d.covered o' := ⟨{ covers := { d.covers with help := false, assist := false } }, rfl⟩
  split
  · rw [deliverKey_desk]
    exact hputAway _
  · exact ⟨o, rfl⟩
  · split
    · exact hputAway _
    · rw [deliverKey_desk]
      exact hputAway _

/-- And a paste. -/
theorem onPaste_desk (text : Bytes) (complete : Bool) : (s.onPaste text complete).desk = s.desk.onPaste := by
  unfold onPaste Desk.onPaste
  simp only
  split <;> split
  all_goals first | rfl | (split <;> rfl)

/-- Nothing covers the desktop by itself. -/
def Event.Asked : Event → Prop
  | .covers _ => False
  | _ => True

theorem step_desk (e : Event) (h : e.Asked) : ∃ e', (s.step e).desk = s.desk.step e' := by
  cases e with
  | mouse m o => exact ⟨.mouse m o, rfl⟩
  | key k o =>
      obtain ⟨o', ho'⟩ := s.onKey_desk k o
      exact ⟨.key o', ho'⟩
  | paste text complete => exact ⟨.paste, s.onPaste_desk text complete⟩
  | covers c => exact h.elim
  | other e => exact ⟨e, rfl⟩

/-- **The desk under the routes is a desk of its own**, in every run: what holds of the runs of the
desk holds there. -/
theorem run_desk (es : List Event) (h : ∀ e ∈ es, e.Asked) :
    ∃ es' : List Desk.Event, (run step s es).desk = run Desk.step s.desk es' := by
  induction es generalizing s with
  | nil => exact ⟨[], rfl⟩
  | cons e es ih =>
      obtain ⟨hfirst, hrest⟩ := List.forall_mem_cons.1 h
      obtain ⟨e', he'⟩ := s.step_desk e hfirst
      obtain ⟨es', hes'⟩ := ih (s.step e) hrest
      refine ⟨e' :: es', hes'.trans ?_⟩
      rw [he']
      rfl

/-! ### Behind a dialog -/

/-- No application was given anything between the two. -/
structure Silent (s s' : Routes) : Prop where
  keys : s'.keys = s.keys
  mouse : s'.desk.delivered = s.desk.delivered
  pastes : s'.pastes = s.pastes

/-- While a dialog is open and no gesture is in progress, no window that holds the mouse
sees it move, or its button released. -/
def Unheld : Event → Prop
  | .mouse m _ =>
      s.desk.covers.modal = true → s.desk.drag = .idle →
        m.action = .release ∨ m.action = .motion ∧ m.button ≠ 3 →
          s.desk.mouseGrab = 0 ∨ s.desk.wm.find s.desk.mouseGrab = none
  | _ => True

end Routes

namespace Desk

variable (s : Desk)

@[simp] theorem cancelDrag_delivered : s.cancelDrag.delivered = s.delivered := by
  unfold cancelDrag
  split <;> rfl

theorem watchdog_delivered : s.watchdog.delivered = s.delivered := by
  unfold watchdog
  split
  · rfl
  · split
    · exact s.cancelDrag_delivered
    · rfl

theorem openApp_delivered (id : Bytes) (minSize : Size) : (s.openApp id minSize).delivered = s.delivered := by
  unfold openApp
  split <;> rfl

theorem openFromCatalog_delivered (id : Bytes) : (s.openFromCatalog id).delivered = s.delivered := by
  unfold openFromCatalog
  split
  · rfl
  · exact s.openApp_delivered _ _

theorem openPending_delivered : s.openPending.delivered = s.delivered := by
  unfold openPending
  split
  · rfl
  · next rest _ => exact openApp_delivered { s with pendingApps := rest } _ _

theorem requestClose_delivered (id : WindowId) (allowed : Bool) :
    (s.requestClose id allowed).delivered = s.delivered := by
  unfold requestClose
  simp only
  split <;> exact s.cancelDrag_delivered

theorem closeRequested_delivered (allowed : Bool) : (s.closeRequested allowed).delivered = s.delivered := by
  unfold closeRequested
  split
  · rfl
  · next w _ => exact requestClose_delivered { s with wm := s.wm.askClose w.id false } _ _

theorem ensureWindow_delivered : s.ensureWindow.delivered = s.delivered := by
  unfold ensureWindow
  split
  · rfl
  · exact openFromCatalog_delivered { s with seeded := true } _

theorem compose_delivered (cols rows : Int) (utf8 badge : Bool) (hint : Bytes) (allowed : Bool) :
    (s.compose cols rows utf8 badge hint allowed).delivered = s.delivered := by
  unfold compose
  simp only
  split
  · exact s.watchdog_delivered
  · rw [ensureWindow_delivered]
    show (s.watchdog.openPending.closeRequested allowed).delivered = _
    rw [closeRequested_delivered, openPending_delivered, watchdog_delivered]

/-- What is no mouse event gives no application any. -/
theorem step_delivered {e : Event} (he : e.isInput = false) : (s.step e).delivered = s.delivered := by
  cases e with
  | mouse m o => cases he
  | key o => cases he
  | paste => cases he
  | focus focused =>
      show (s.onFocus focused).delivered = _
      unfold onFocus
      split
      · rfl
      · exact s.cancelDrag_delivered
  | watchdog => exact s.watchdog_delivered
  | compose cols rows utf8 badge hint allowed => exact s.compose_delivered ..
  | attach => exact s.cancelDrag_delivered
  | elapse ms => rfl
  | asksOpen id minSize => rfl
  | asksClose id => rfl
  | closes id => rfl
  | setsTitle id title => rfl

theorem dragMove_delivered (m : MouseEvent) (win : WindowId) (grabDx grabDy : Int) (origin : Rect) :
    (s.dragMove m win grabDx grabDy origin).delivered = s.delivered := by
  unfold dragMove
  split
  · exact s.cancelDrag_delivered
  · simp only
    split
    · split <;> rfl
    · rfl

theorem dragResize_delivered (m : MouseEvent) (win : WindowId) (outline : Rect) :
    (s.dragResize m win outline).delivered = s.delivered := by
  unfold dragResize
  split
  · exact s.cancelDrag_delivered
  · simp only
    split <;> rfl

theorem wheel_delivered (m : MouseEvent) (hmodal : s.covers.modal = true) :
    (s.wheel m).delivered = s.delivered := by
  unfold wheel
  rw [if_pos (Or.inl hmodal)]

theorem press_delivered (m : MouseEvent) (o : Outcome) (hmodal : s.covers.modal = true) :
    (s.press m o).delivered = s.delivered := by
  unfold press
  rw [if_pos (Or.inl hmodal)]
  rfl

/-- The window that holds the mouse, if it is there, is given the event. -/
theorem held_delivered_iff (m : MouseEvent) :
    (s.held m).delivered = s.delivered ↔ s.mouseGrab = 0 ∨ s.wm.find s.mouseGrab = none := by
  unfold held
  split
  · next hnone => simp [hnone]
  · next hgrab =>
    simp only
    cases hfind : s.wm.find s.mouseGrab with
    | none => split <;> simp
    | some w => split <;> simp [deliver, hgrab]

/-- **The mouse behind a dialog.** -/
theorem onMouse_delivered_iff (m : MouseEvent) (o : Outcome) (hmodal : s.covers.modal = true) :
    (s.onMouse m o).delivered = s.delivered ↔
      (s.drag = .idle → m.action = .release ∨ m.action = .motion ∧ m.button ≠ 3 →
        s.mouseGrab = 0 ∨ s.wm.find s.mouseGrab = none) := by
  unfold onMouse
  split
  · next hlost =>
    refine ⟨fun _ _ hmoves => ?_, fun _ => s.cancelDrag_delivered⟩
    rcases hmoves with hrelease | ⟨-, hbutton⟩
    · rw [hlost.1] at hrelease
      cases hrelease
    · exact absurd hlost.2 hbutton
  next hheld =>
  split
  · next hagain => exact ⟨fun _ hidle => absurd hidle hagain.2, fun _ => s.cancelDrag_delivered⟩
  cases hdrag : s.drag with
  | moving win grabDx grabDy origin =>
      exact ⟨fun _ hidle => Drag.noConfusion hidle, fun _ => s.dragMove_delivered ..⟩
  | resizing win outline => exact ⟨fun _ hidle => Drag.noConfusion hidle, fun _ => s.dragResize_delivered ..⟩
  | idle =>
      cases haction : m.action with
      | wheelUp => simp [s.wheel_delivered m hmodal]
      | wheelDown => simp [s.wheel_delivered m hmodal]
      | press => simp [s.press_delivered m o hmodal]
      | release => simp [s.held_delivered_iff]
      | motion =>
          have hbutton : m.button ≠ 3 := fun h3 => hheld ⟨haction, h3⟩
          simp [s.held_delivered_iff, hbutton]

end Desk

namespace Routes

variable (s : Routes)

/-- A key behind a dialog is for the dialog. -/
theorem onKey_silent (k : KeyEvent) (o : Outcome) (hmodal : s.desk.covers.modal = true) :
    Silent s (s.onKey k o) := by
  unfold onKey
  split
  · exact ⟨rfl, s.desk.cancelDrag_delivered, rfl⟩
  split
  · exact ⟨rfl, rfl, rfl⟩
  · rw [if_pos (Or.inl hmodal)]
    exact ⟨rfl, rfl, rfl⟩

theorem onPaste_silent (text : Bytes) (complete : Bool) (hmodal : s.desk.covers.modal = true) :
    Silent s (s.onPaste text complete) := by
  unfold onPaste
  simp only
  split
  · have hcovers : s.desk.cancelDrag.covers = s.desk.covers := by
      unfold Desk.cancelDrag
      split <;> rfl
    rw [if_pos (Or.inl (hcovers ▸ hmodal))]
    exact ⟨rfl, s.desk.cancelDrag_delivered, rfl⟩
  · rw [if_pos (Or.inl hmodal)]
    exact ⟨rfl, rfl, rfl⟩

/-- **One event behind a dialog.** -/
theorem step_silent_iff (e : Event) (hmodal : s.desk.covers.modal = true) :
    Silent s (s.step e) ↔ s.Unheld e := by
  cases e with
  | mouse m o =>
      have hmouse := s.desk.onMouse_delivered_iff m o hmodal
      exact ⟨fun h _ => hmouse.1 h.mouse, fun h => ⟨rfl, hmouse.2 (h hmodal), rfl⟩⟩
  | key k o => exact ⟨fun _ => trivial, fun _ => s.onKey_silent k o hmodal⟩
  | paste text complete => exact ⟨fun _ => trivial, fun _ => s.onPaste_silent text complete hmodal⟩
  | covers c => exact ⟨fun _ => trivial, fun _ => ⟨rfl, rfl, rfl⟩⟩
  | other e => exact ⟨fun _ => trivial, fun _ => ⟨rfl, s.desk.step_delivered e.2, rfl⟩⟩

/-- **Modal exclusivity.** In a run, the applications are given nothing while a dialog is open
exactly when none that holds the mouse, when one is, sees it move or its button released. -/
theorem exclusive_iff (es : List Event) :
    (∀ before e, before ++ [e] <+: es → (run step s before).desk.covers.modal = true →
        Silent (run step s before) ((run step s before).step e)) ↔
      StepsMeet step Unheld s es := by
  rw [stepsMeet_iff]
  refine forall_congr' fun before => forall_congr' fun e => forall_congr' fun _ => ?_
  by_cases hmodal : (run step s before).desk.covers.modal = true
  · rw [← step_silent_iff _ e hmodal]
    exact ⟨fun h => h hmodal, fun h _ => h⟩
  · refine ⟨fun _ => ?_, fun _ h => absurd h hmodal⟩
    cases e with
    | mouse m o => exact fun h => absurd h hmodal
    | _ => trivial

/-- A file window of a new session takes the mouse; a question comes; the button is released. -/
def askedWhileHeld : List Event :=
  [.other ⟨.compose 80 24 true false [] true, rfl⟩,
    .other ⟨.asksOpen [0x66, 0x69, 0x6c, 0x65, 0x73] { w := 40, h := 10 }, rfl⟩,
    .other ⟨.compose 80 24 true false [] true, rfl⟩,
    .mouse { x := 20, y := 10 } {}, .covers { modal := true }]

/-- The release is given to the window behind the dialog. -/
theorem released_behind :
    ¬ ∀ es : List Event, ∀ before e, before ++ [e] <+: es →
      (run step ({} : Routes) before).desk.covers.modal = true →
        Silent (run step ({} : Routes) before) ((run step ({} : Routes) before).step e) := by
  intro hall
  have hsilent := hall (askedWhileHeld ++ [.mouse { action := .release, x := 20, y := 11 } {}])
    askedWhileHeld _ (List.prefix_refl _) (by decide +kernel)
  have hmore : ((run step ({} : Routes) askedWhileHeld).step
      (.mouse { action := .release, x := 20, y := 11 } {})).desk.delivered ≠
        (run step ({} : Routes) askedWhileHeld).desk.delivered := by
    decide +kernel
  exact hmore hsilent.mouse

end Routes

end Sshos.Daemon
