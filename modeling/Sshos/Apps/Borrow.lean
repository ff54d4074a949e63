import Sshos.Apps.EmulatorReads
import Sshos.Vt.ParserCut
import Sshos.Vt.ScreenAlt

/-!
# Sshos.Apps.Borrow

A terminal that is **borrowed** for a while: the one who borrows it goes to the alternate
screen, writes there, and leaves. What the shell had put aside waits outside, and no call
among those of a renderer reaches it.
-/

namespace Sshos.Vt

open Sshos.Lib

namespace Screen

variable (s : Screen)

/-! ### What printing and erasing leave alone -/

/-- The screen without its page. -/
def pageless : Screen := { s with grid := [], fault := false }

@[simp] theorem putCell_pageless (x y : Int) (c : ScreenCell) :
    (s.putCell x y c).pageless = s.pageless := by
  unfold putCell
  simp only
  split <;> rfl

@[simp] theorem fill_pageless (first last : Int) : (s.fill first last).pageless = s.pageless := by
  unfold fill
  split <;> rfl

@[simp] theorem rotate_pageless (first cut last : Int) :
    (s.rotate first cut last).pageless = s.pageless := by
  unfold rotate
  split <;> rfl

@[simp] theorem clearWideAt_pageless (x y : Int) : (s.clearWideAt x y).pageless = s.pageless := by
  unfold clearWideAt
  simp only
  repeat' split
  all_goals simp

@[simp] theorem scrollSliceUp_pageless (top bottom n : Int) :
    (s.scrollSliceUp top bottom n).pageless = s.pageless := by
  unfold scrollSliceUp
  simp only
  repeat' split
  all_goals simp

@[simp] theorem deposit_pageless (cp w : Nat) : (s.deposit cp w).pageless = s.pageless := by
  unfold deposit
  simp only
  repeat' split
  all_goals simp

@[simp] theorem eraseSpan_pageless (x0 x1 y : Int) :
    (s.eraseSpan x0 x1 y).pageless = s.pageless := by
  unfold eraseSpan
  simp only
  repeat' split
  · rfl
  · rfl
  · rw [forUp_keeps pageless fun t x => putCell_pageless t x y t.erased, clearWideAt_pageless,
      clearWideAt_pageless]

/-- The scrolling region and the tab stops. -/
def stops : Int × Int × List Bool := (s.top, s.bottom, s.tabs)

variable {s}

theorem stops_of_pageless {s' : Screen} (h : s'.pageless = s.pageless) : s'.stops = s.stops := by
  show s'.pageless.stops = s.pageless.stops
  rw [h]

variable (s)

theorem pushTopLine_stops : s.pushTopLine.stops = s.stops := by
  unfold pushTopLine
  simp only
  repeat' split
  all_goals rfl

theorem lineFeed_stops : s.lineFeed.stops = s.stops := by
  unfold lineFeed scrollUp
  simp only
  repeat' split
  · rw [stops_of_pageless (scrollSliceUp_pageless ..), pushTopLine_stops]
    rfl
  · rfl
  · rfl

theorem print_stops (amb : Bool) (cp : Nat) : (s.print amb cp).stops = s.stops := by
  have hadvance : ∀ (t : Screen) (w : Nat), (t.advance w).stops = t.stops := by
    intro t w
    unfold advance
    simp only
    split <;> rfl
  have hwrap : s.wrapIfPending.stops = s.stops := by
    unfold wrapIfPending
    split
    · exact lineFeed_stops _
    · rfl
  unfold print
  simp only
  repeat' split
  · rfl
  · exact hwrap
  · rw [hadvance, stops_of_pageless (deposit_pageless ..), lineFeed_stops]
    exact hwrap
  · rw [hadvance, stops_of_pageless (deposit_pageless ..)]
    exact hwrap

theorem eraseLine_stops (mode : Int) : (s.eraseLine mode).stops = s.stops := by
  unfold eraseLine
  repeat' split
  all_goals first
    | exact stops_of_pageless (eraseSpan_pageless ..)
    | rfl

/-- The screen without what the alternate page leaves behind, which nobody sees. -/
def unparked : Screen :=
  { s with parked := [], parkedCursor := {}, parkedDecsc := {}, fault := false }

end Screen

end Sshos.Vt

namespace Sshos.Apps

open Sshos.Lib (Bytes)
open Sshos.Vt
open Sshos.Vt.Parser (modeCall paramOf)

theorem feed_append (amb : Bool) (e : Emulator) (as bs : Bytes) :
    e.feed amb (as ++ bs) = (e.feed amb as).feed amb bs := by
  simp only [Emulator.feed, Parser.feed_append, List.foldl_append]

/-! ### The modes of the borrower -/

/-- The modes once they are given back: the cursor shown, lines wrapped, the rest off. -/
def restored (m : Modes) : Modes :=
  { m with
    cursorVisible := true, autowrap := true, mouseDrag := false, mouseSgr := false,
    bracketedPaste := false, altScreen := false }

/-- The modes a borrower may touch; the terminal knows all but the report of the focus. -/
def borrowedModes : List Nat := [25, 7, 1004, 2004, 1006, 1002, 1049]

theorem restored_set {n : Nat} (hn : n ∈ borrowedModes) (on : Bool) (m : Modes) :
    restored (m.set (paramOf n).value on) = restored m := by
  simp only [borrowedModes, List.mem_cons, List.not_mem_nil, or_false] at hn
  rcases hn with rfl | rfl | rfl | rfl | rfl | rfl | rfl <;> rfl

namespace Sink

variable {amb : Bool} {t₀ t : Sink}

theorem call_mode (amb : Bool) (t : Sink) (n : Nat) (on : Bool) :
    t.call amb (modeCall n on) =
      syncModes { t with modes := t.modes.set (paramOf n).value on } := by
  cases on <;> rfl

/-! ### On the alternate screen -/

/-- What was shown waits outside, and the guest is told nothing. -/
structure Borrowed (t₀ t : Sink) : Prop where
  synced : t.Synced
  outside : t.screen.outside = t₀.screen.enterAltScreen.outside
  stops : t.screen.stops = t₀.screen.stops
  scrollback : t.screen.scrollback = t₀.screen.scrollback
  modes : restored t.modes = restored t₀.modes
  title : t.guestTitle = t₀.guestTitle
  answers : t.toGuest = t₀.toGuest

/-- What was shown is shown, whatever the wrap mode. -/
structure Back (t₀ t : Sink) : Prop where
  synced : t.Synced
  alt : t.screen.alt = false
  screen : t.screen.unparked = (t₀.screen.setAutowrap t.modes.autowrap).unparked
  modes : restored t.modes = restored t₀.modes
  title : t.guestTitle = t₀.guestTitle
  answers : t.toGuest = t₀.toGuest

theorem Back.start (h : t₀.Synced) (halt : t₀.screen.alt = false) : Back t₀ t₀ := by
  refine ⟨h, halt, ?_, rfl, rfl, rfl⟩
  rw [← h.autowrap]
  rfl

theorem Borrowed.alt (halt : t₀.screen.alt = false) (h : Borrowed t₀ t) : t.screen.alt = true := by
  have henter : t₀.screen.enterAltScreen.alt = true := by
    unfold Screen.enterAltScreen
    simp [halt]
  exact (congrArg Screen.Outside.alt h.outside).trans henter

/-- The alternate screen is entered. -/
theorem Back.enter (h : Back t₀ t) {modes : Modes} (hmodes : restored modes = restored t₀.modes)
    (hon : modes.altScreen = true) : Borrowed t₀ (syncModes { t with modes := modes }) := by
  have halt := h.alt
  have halt₀ : t₀.screen.alt = false := by
    have hsame : t.screen.unparked.alt = t₀.screen.alt := by rw [h.screen]; rfl
    exact hsame.symm.trans halt
  have hsync : syncModes { t with modes := modes } =
      { t with modes := modes, screen := (t.screen.setAutowrap modes.autowrap).enterAltScreen } := by
    unfold syncModes
    simp only
    rw [if_pos ⟨hon, by simp [Screen.setAutowrap, halt]⟩]
  have hscreen := h.screen
  simp only [Screen.unparked, Screen.setAutowrap, Screen.mk.injEq] at hscreen
  refine ⟨syncModes_synced _, ?_, ?_, ?_, ?_, ?_, ?_⟩
  all_goals rw [hsync]
  · unfold Screen.enterAltScreen Screen.setAutowrap
    simp only [halt, halt₀, Bool.false_eq_true, if_false, Screen.outside, Screen.cursorState, hscreen]
  · unfold Screen.enterAltScreen Screen.setAutowrap
    simp only [halt, Bool.false_eq_true, if_false, Screen.stops, hscreen]
  · unfold Screen.enterAltScreen Screen.setAutowrap
    simp only [halt, Bool.false_eq_true, if_false, hscreen]
  · exact hmodes
  · exact h.title
  · exact h.answers

/-- It is not. -/
theorem Back.stay (h : Back t₀ t) {modes : Modes} (hmodes : restored modes = restored t₀.modes)
    (hoff : modes.altScreen = false) : Back t₀ (syncModes { t with modes := modes }) := by
  have hsync : syncModes { t with modes := modes } =
      { t with modes := modes, screen := t.screen.setAutowrap modes.autowrap } := by
    unfold syncModes
    simp only [hoff, Bool.false_eq_true, false_and, if_false, not_false_eq_true, true_and]
    rw [if_neg (by simp [Screen.setAutowrap, h.alt])]
  refine ⟨syncModes_synced _, ?_, ?_, ?_, ?_, ?_⟩
  all_goals rw [hsync]
  · exact h.alt
  · show t.screen.unparked.setAutowrap modes.autowrap = _
    rw [h.screen]
    rfl
  · exact hmodes
  · exact h.title
  · exact h.answers

/-- The alternate screen is left: everything is where it was. -/
theorem Borrowed.leave (halt₀ : t₀.screen.alt = false) (h : Borrowed t₀ t) {modes : Modes}
    (hmodes : restored modes = restored t₀.modes) (hoff : modes.altScreen = false) :
    Back t₀ (syncModes { t with modes := modes }) := by
  have halt := h.alt halt₀
  have hsync : syncModes { t with modes := modes } =
      { t with modes := modes, screen := (t.screen.setAutowrap modes.autowrap).leaveAltScreen } := by
    unfold syncModes
    simp only [hoff, Bool.false_eq_true, false_and, if_false, not_false_eq_true, true_and]
    rw [if_pos (by simp [Screen.setAutowrap, halt])]
  have houtside := h.outside
  have hstops := h.stops
  refine ⟨syncModes_synced _, ?_, ?_, ?_, ?_, ?_⟩
  all_goals rw [hsync]
  · unfold Screen.leaveAltScreen Screen.setAutowrap
    simp [halt]
  · unfold Screen.enterAltScreen at houtside
    simp only [halt₀, Bool.false_eq_true, if_false, Screen.outside, Screen.Outside.mk.injEq,
      Screen.cursorState] at houtside
    simp only [Screen.stops, Prod.mk.injEq] at hstops
    unfold Screen.leaveAltScreen Screen.setAutowrap Screen.unparked
    simp only [halt, not_true_eq_false, if_false]
    simp only [houtside, hstops, h.scrollback, halt₀]
  · exact hmodes
  · exact h.title
  · exact h.answers

/-- It is not. -/
theorem Borrowed.stay (halt₀ : t₀.screen.alt = false) (h : Borrowed t₀ t) {modes : Modes}
    (hmodes : restored modes = restored t₀.modes) (hon : modes.altScreen = true) :
    Borrowed t₀ (syncModes { t with modes := modes }) := by
  have hsync : syncModes { t with modes := modes } =
      { t with modes := modes, screen := t.screen.setAutowrap modes.autowrap } := by
    unfold syncModes
    simp only
    rw [if_neg (by simp [Screen.setAutowrap, h.alt halt₀]), if_neg (by simp [hon])]
  refine ⟨syncModes_synced _, ?_, ?_, ?_, ?_, ?_, ?_⟩
  all_goals rw [hsync]
  · exact h.outside
  · exact h.stops
  · exact h.scrollback
  · exact hmodes
  · exact h.title
  · exact h.answers

/-- A mode of the borrower's is set: the page is shown, or waits. -/
theorem lent_mode (halt₀ : t₀.screen.alt = false) (h : Back t₀ t ∨ Borrowed t₀ t) {n : Nat}
    (hn : n ∈ borrowedModes) (on : Bool) :
    Back t₀ (t.call amb (modeCall n on)) ∨ Borrowed t₀ (t.call amb (modeCall n on)) := by
  rw [call_mode]
  have hmodes : restored (t.modes.set (paramOf n).value on) = restored t₀.modes := by
    rw [restored_set hn]
    rcases h with h | h <;> exact h.modes
  generalize t.modes.set (paramOf n).value on = modes at hmodes ⊢
  cases halt : modes.altScreen with
  | false =>
      rcases h with h | h
      · exact .inl (h.stay hmodes halt)
      · exact .inl (h.leave halt₀ hmodes halt)
  | true =>
      rcases h with h | h
      · exact .inr (h.enter hmodes halt)
      · exact .inr (h.stay halt₀ hmodes halt)

/-! ### What a renderer calls -/

/-- Characters, moves, erasures to the end of a line, styles, and the cursor's visibility. -/
inductive PaintCall : SinkCall → Prop
  | print (c : Nat) : PaintCall (.print c)
  | move (params : Params) : PaintCall (.csi params [] 0x48)
  | erase (params : Params) : PaintCall (.csi params [] 0x4B)
  | style (params : Params) : PaintCall (.csi params [] 0x6D)
  | cursor (on : Bool) : PaintCall (modeCall 25 on)

theorem PaintCall.not_endsString {c : SinkCall} (h : PaintCall c) : ¬ Parser.endsString c := by
  cases h <;> exact id

/-- A change of the page on show leaves what waits. -/
theorem Borrowed.of_kept (halt₀ : t₀.screen.alt = false) (h : Borrowed t₀ t) {s : Screen}
    (hkept : s.kept = t.screen.kept) (hstops : s.stops = t.screen.stops) :
    Borrowed t₀ { t with screen := s } := by
  have houtside : s.outside = t.screen.outside := congrArg Screen.Kept.outside hkept
  have halt := h.alt halt₀
  have halt' : s.alt = true := (congrArg Screen.Outside.alt houtside).trans halt
  have hhistory : s.scrollback = t.screen.scrollback := by
    have hsb := congrArg Screen.Kept.history hkept
    simpa only [Screen.kept, halt, halt', if_true] using hsb
  exact ⟨h.synced.of_kept hkept, houtside.trans h.outside, hstops.trans h.stops,
    hhistory.trans h.scrollback, h.modes, h.title, h.answers⟩

/-- **No call of a renderer reaches what waits.** -/
theorem Borrowed.paint (halt₀ : t₀.screen.alt = false) (h : Borrowed t₀ t) {c : SinkCall}
    (hc : PaintCall c) : Borrowed t₀ (t.call amb c) := by
  cases hc with
  | print c => exact h.of_kept halt₀ (t.screen.print_kept amb c) (t.screen.print_stops amb c)
  | move params => exact h.of_kept halt₀ (t.csiPlain_kept params 0x48) rfl
  | erase params =>
      exact h.of_kept halt₀ (t.csiPlain_kept params 0x4B)
        (t.screen.eraseLine_stops (paramOr params 0 0))
  | style params => exact h.of_kept halt₀ (t.csiPlain_kept params 0x6D) rfl
  | cursor on =>
      rw [call_mode]
      refine h.stay halt₀ ((restored_set (by simp [borrowedModes]) on _).trans h.modes) ?_
      show t.modes.altScreen = true
      rw [← h.synced.alt]
      exact h.alt halt₀

theorem Borrowed.paints (halt₀ : t₀.screen.alt = false) (h : Borrowed t₀ t) {calls : List SinkCall}
    (hcalls : ∀ c ∈ calls, PaintCall c) : Borrowed t₀ (calls.foldl (Sink.call amb) t) := by
  induction calls generalizing t with
  | nil => exact h
  | cons c calls ih =>
      exact ih (h.paint halt₀ (hcalls c (List.mem_cons_self ..)))
        fun c' hc' => hcalls c' (List.mem_cons_of_mem c hc')

end Sink

end Sshos.Apps
