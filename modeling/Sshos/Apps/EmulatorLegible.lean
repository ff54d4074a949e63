import Sshos.Apps.TabIsolated
import Sshos.Vt.ScreenLegible

/-!
# Sshos.Apps.EmulatorLegible

The **screen of a tab** along what the tab hears: bounded, without torn characters, every cell
as wide as its character, and a history of such lines. A deletion that splits a full-width
character and a window of one column are what may spoil it.
-/

namespace Sshos.Apps

open Sshos.Lib
open Sshos.Vt

/-- A screen that can be shown as it is. -/
structure Readable (s : Screen) : Prop where
  bounded : s.Bounded
  paired : s.Paired
  wide : 2 ≤ s.cols
  legible : s.Legible false

namespace Readable

variable {s : Screen}

theorem step (h : Readable s) {op : ScreenOp} (hsplits : s.splits op = false)
    (hsize : ∀ c r, op = .resize c r → 2 ≤ c) (hhistory : ∀ sb, op ≠ .setScrollback sb) :
    Readable (s.step false op) where
  bounded := h.bounded.step false op
  paired := (Screen.step_paired_iff h.paired h.bounded h.wide false op).2 hsplits
  wide := Screen.step_wide h.wide false hsize
  legible := h.legible.step h.bounded h.paired op hhistory

/-- Neither another size nor another history. -/
def plain : ScreenOp → Bool
  | .resize _ _ => false
  | .setScrollback _ => false
  | _ => true

theorem step_plain (h : Readable s) {op : ScreenOp} (hplain : plain op = true)
    (hsplits : s.splits op = false) : Readable (s.step false op) := by
  refine h.step hsplits (fun c r heq => ?_) fun sb heq => ?_
  · subst heq
    cases hplain
  · subst heq
    cases hplain

/-- Looking elsewhere in the history. -/
theorem scrolled (h : Readable s) {f : Scrollback → Scrollback}
    (hf : ∀ sb, HistoryLegible false sb → HistoryLegible false (f sb)) :
    Readable (s.setScrollback (s.scrollback.map f)) where
  bounded := { h.bounded with }
  paired := ⟨h.paired.shown, h.paired.aside⟩
  wide := h.wide
  legible := ⟨h.legible.grid, h.legible.parked, fun sb hsb => by
    obtain ⟨sb', hsb', rfl⟩ := Option.map_eq_some_iff.1 hsb
    exact hf sb' (h.legible.history sb' hsb')⟩

theorem create {cols : Int} (hcols : 2 ≤ cols) (rows : Int) : Readable (Screen.create cols rows) where
  bounded := Screen.Bounded.create cols rows
  paired := Screen.Paired.create cols rows
  wide := by
    obtain ⟨tabs, -, heq⟩ := Screen.create_spec cols rows
    rw [heq]
    exact Int.le_trans hcols (Int.le_max_right 1 cols)
  legible := Screen.Legible.create false cols rows

theorem withHistory (h : Readable s) {sb : Scrollback} (hsb : HistoryLegible false sb) :
    Readable (s.setScrollback (some sb)) where
  bounded := { h.bounded with }
  paired := ⟨h.paired.shown, h.paired.aside⟩
  wide := h.wide
  legible := ⟨h.legible.grid, h.legible.parked, fun _ hsb' => Option.some.inj hsb' ▸ hsb⟩

end Readable

/-! ### The calls of the parser -/

namespace Sink

variable {t : Sink}

/-- The call deletes a part of a full-width character. -/
def splits (t : Sink) : SinkCall → Bool
  | .csi params intermediates finalByte =>
      intermediates = [] && finalByte = 0x50 && t.screen.splits (.deleteChars (countOf params 0))
  | _ => false

theorem readable_csiPlain (h : Readable t.screen) {params : Params} {finalByte : UInt8}
    (hsplits : finalByte = 0x50 → t.screen.splits (.deleteChars (countOf params 0)) = false) :
    Readable (t.csiPlain params finalByte) := by
  have hop : ∀ op : ScreenOp, Readable.plain op = true → t.screen.splits op = false →
      Readable (t.screen.step false op) := fun op hplain hs => h.step_plain hplain hs
  have hite : ∀ (c : Prop) [Decidable c] (a b : Screen), (c → Readable a) → Readable b →
      Readable (if c then a else b) := by
    intro c _ a b ha hb
    split
    · exact ha ‹c›
    · exact hb
  unfold Sink.csiPlain
  refine hite _ _ _ (fun _ => hop (.moveUp _) rfl rfl) ?_
  refine hite _ _ _ (fun _ => hop (.moveDown _) rfl rfl) ?_
  refine hite _ _ _ (fun _ => hop (.moveRight _) rfl rfl) ?_
  refine hite _ _ _ (fun _ => hop (.moveLeft _) rfl rfl) ?_
  refine hite _ _ _ (fun _ => hop (.setColumn _) rfl rfl) ?_
  refine hite _ _ _ (fun _ => hop (.setRow _) rfl rfl) ?_
  refine hite _ _ _ (fun _ => hop (.moveTo _ _) rfl rfl) ?_
  refine hite _ _ _ (fun _ => hop (.eraseDisplay _) rfl rfl) ?_
  refine hite _ _ _ (fun _ => hop (.eraseLine _) rfl rfl) ?_
  refine hite _ _ _ (fun _ => hop (.eraseChars _) rfl rfl) ?_
  refine hite _ _ _ (fun _ => hop (.insertChars _) rfl rfl) ?_
  refine hite _ _ _ (fun hdelete => hop (.deleteChars _) rfl (hsplits hdelete)) ?_
  refine hite _ _ _ (fun _ => hop (.insertLines _) rfl rfl) ?_
  refine hite _ _ _ (fun _ => hop (.deleteLines _) rfl rfl) ?_
  refine hite _ _ _ (fun _ => hite _ _ _ (fun _ => hop .resetScrollRegion rfl rfl) ?_) ?_
  · exact hop (.setScrollRegion _ _) rfl rfl
  refine hite _ _ _ (fun _ => hite _ _ _ (fun _ => hop .clearTab rfl rfl) ?_) ?_
  · exact hite _ _ _ (fun _ => hop .clearAllTabs rfl rfl) h
  exact hite _ _ _ (fun _ => hop (.setPen _) rfl rfl) h

theorem readable_syncModes (h : Readable t.screen) : Readable t.syncModes.screen := by
  have hwrap : Readable (t.screen.step false (.setAutowrap t.modes.autowrap)) := h.step_plain rfl rfl
  unfold Sink.syncModes
  simp only
  split
  · have henter : Readable (Screen.step false _ .enterAltScreen) := hwrap.step_plain rfl rfl
    exact henter
  split
  · have hleave : Readable (Screen.step false _ .leaveAltScreen) := hwrap.step_plain rfl rfl
    exact hleave
  · exact hwrap

/-- **One call** keeps the screen readable, if it splits no character. -/
theorem readable_call (h : Readable t.screen) {c : SinkCall} (hsplits : t.splits c = false) :
    Readable (t.call false c).screen := by
  have hop : ∀ op : ScreenOp, Readable.plain op = true → t.screen.splits op = false →
      Readable (t.screen.step false op) := fun op hplain hs => h.step_plain hplain hs
  cases c with
  | print c => exact hop (.print c) rfl rfl
  | execute byte =>
      show Readable (t.execute byte).screen
      unfold Sink.execute
      repeat' split
      · exact hop .lineFeed rfl rfl
      · exact hop .carriageReturn rfl rfl
      · exact hop .backspace rfl rfl
      · exact hop .tab rfl rfl
      · exact h
  | csi params intermediates finalByte =>
      show Readable (t.csi params intermediates finalByte).screen
      unfold Sink.csi
      simp only
      split
      · exact h
      split
      · split
        · exact readable_syncModes (t := { t with modes := _ }) h
        · exact h
      split
      · exact h
      next hplain =>
        refine readable_csiPlain h fun hdelete => ?_
        have hnone : intermediates = [] := by simpa using hplain
        simpa [splits, hnone, hdelete] using hsplits
  | esc intermediates finalByte =>
      show Readable (t.esc intermediates finalByte).screen
      unfold Sink.esc
      repeat' split
      · exact hop (.setCharset _) rfl rfl
      · exact h
      · exact hop .saveCursor rfl rfl
      · exact hop .restoreCursor rfl rfl
      · exact hop .index rfl rfl
      · exact hop .reverseIndex rfl rfl
      · exact hop .nextLine rfl rfl
      · exact hop .setTab rfl rfl
      · exact h
  | osc data =>
      show Readable (t.osc data).screen
      unfold Sink.osc
      simp only
      repeat' split
      all_goals exact h
  | dcsStart params intermediates finalByte => exact h
  | dcsData byte => exact h
  | dcsEnd => exact h

end Sink

/-! ### What a tab hears -/

namespace Tabbed

/-- It splits no full-width character: a window of two columns at least, and no deletion of a
part of one. -/
def Own.Spares (o : Own) : Heard → Prop
  | .byte b => StepsMeet (Sink.call false) (fun t c => t.splits c = false) o.emulator.sink
      (o.emulator.parser.feed [b]).2
  | .size w _ => 2 ≤ w
  | _ => True

instance (o : Own) : (event : Heard) → Decidable (o.Spares event)
  | .byte _ => inferInstanceAs (Decidable (StepsMeet _ _ _ _))
  | .size w _ => inferInstanceAs (Decidable (2 ≤ w))
  | .key _ => .isTrue trivial
  | .mouse _ => .isTrue trivial
  | .paste _ _ => .isTrue trivial

theorem readable_scroll {e : Emulator} (h : Readable e.sink.screen) {f : Scrollback → Scrollback}
    (hf : ∀ sb, HistoryLegible false sb → HistoryLegible false (f sb)) :
    Readable (scroll e f).sink.screen := h.scrolled hf

theorem legible_back {sb : Scrollback} (h : HistoryLegible false sb) (n : UInt64) :
    HistoryLegible false (sb.scrollBack n) := by
  refine h.scrolled ?_ fun rows hrows => hrows.scrollBack n
  unfold Scrollback.scrollBack
  split <;> rfl

theorem legible_forward {sb : Scrollback} (h : HistoryLegible false sb) (n : UInt64) :
    HistoryLegible false (sb.scrollForward n) := by
  refine h.scrolled ?_ fun rows hrows => hrows.scrollForward n
  unfold Scrollback.scrollForward
  split <;> rfl

theorem legible_bottom {sb : Scrollback} (h : HistoryLegible false sb) :
    HistoryLegible false sb.scrollToBottom :=
  h.scrolled rfl fun _ hrows => hrows.withOffset (Nat.zero_le _)

theorem readable_keyed {e : Emulator} (h : Readable e.sink.screen) (rows : Int) (k : Input.KeyEvent) :
    Readable (keyed e rows k).1.sink.screen := by
  unfold keyed
  split
  · exact readable_scroll h fun sb hsb => legible_back hsb _
  split
  · exact readable_scroll h fun sb hsb => legible_forward hsb _
  · simp only
    split
    · exact h
    · exact readable_scroll h fun sb hsb => legible_bottom hsb

theorem readable_moused {e : Emulator} (h : Readable e.sink.screen) (m : Input.MouseEvent) :
    Readable (moused e m).1.sink.screen := by
  unfold moused
  simp only
  split
  · refine readable_scroll h fun sb hsb => ?_
    split
    · exact legible_back hsb 3
    · exact legible_forward hsb 3
  split
  · exact h
  split
  · exact h
  · exact h

/-- **One event** keeps the screen readable, if it splits no character. -/
theorem readable_hear {o : Own} (h : Readable o.emulator.sink.screen) {event : Heard}
    (hspares : o.Spares event) : Readable (o.hear event).emulator.sink.screen := by
  cases event with
  | byte b =>
      have hcall : ∀ (t : Sink) (c : SinkCall), Readable t.screen → t.splits c = false →
          Readable (t.call false c).screen := fun t c ht hc => Sink.readable_call ht hc
      exact @run_invariant _ _ _ _ (fun t : Sink => Readable t.screen) hcall _ _ h hspares
  | size w rows =>
      have hsize : ∀ c r, ScreenOp.resize (max 1 w) (max 1 (rows - kBarRows)) = .resize c r → 2 ≤ c := by
        intro c r heq
        cases heq
        exact Int.le_trans hspares (Int.le_max_right 1 w)
      exact h.step rfl hsize fun sb heq => ScreenOp.noConfusion heq
  | key k => exact readable_keyed h o.h k
  | mouse m => exact readable_moused h m
  | paste text complete => exact readable_scroll h fun sb hsb => legible_bottom hsb

/-- A tab just opened. -/
theorem readable_fresh : Readable ({} : Own).emulator.sink.screen :=
  (Readable.create (by decide : (2 : Int) ≤ 80) 24).withHistory (HistoryLegible.create false 10000)

/-- **Every tab** of every run of the window has a readable screen, if nothing it heard splits
a character. -/
theorem Terminal.readable_of_spared (win : UInt32) (app : Nat) (fdGen : UInt32) (master : Option Nat)
    (is : List Input) {tab : Tab} (htab : tab ∈ (run Terminal.step (Terminal.start win app fdGen master) is).tabs)
    (hspared : StepsMeet Own.hear Own.Spares {}
      (Terminal.heard false tab.serial (Terminal.start win app fdGen master) is)) :
    Readable tab.emulator.sink.screen := by
  have hhear : ∀ (o : Own) (event : Heard), Readable o.emulator.sink.screen → o.Spares event →
      Readable (o.hear event).emulator.sink.screen := fun o event ho hok => readable_hear ho hok
  have hrun := @run_invariant _ _ _ _ (fun o : Own => Readable o.emulator.sink.screen) hhear _ _
    readable_fresh hspared
  have heq := Terminal.emulator_eq win app fdGen master is tab htab
  unfold Own.hears at heq
  unfold run at hrun
  rw [heq] at hrun
  exact hrun

end Tabbed

end Sshos.Apps
