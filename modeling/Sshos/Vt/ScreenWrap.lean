import Sshos.Lib.Run
import Sshos.Vt.ScreenBounds

/-!
# Sshos.Vt.ScreenWrap

The **deferred wrap**: a wrap is pending on the last column, and a character leaves its
line from there only.

The flag is put aside with a cursor in two places, and the page may be cut in between.
`DECRC` looks at the column before it raises the flag again; the way out of the
alternate screen does not, so a page that grew meanwhile gets a wrap pending in the
middle of a line.
-/

namespace Sshos.Vt

open Sshos.Lib
open Sshos.Render

namespace Screen

variable {s s' : Screen}

/-- A wrap is pending on the last column only. -/
def WrapsAtEdge (s : Screen) : Prop := s.wrapPending = true → s.cx = s.cols - 1

/-- Off the last column a character goes where the cursor stands, if anywhere. -/
def PrintsInPlace (amb : Bool) (s : Screen) : Prop :=
  ∀ cp, s.cx ≠ s.cols - 1 → s.print amb cp = s ∨
    ∃ w, s.print amb cp = (s.deposit (translate cp s.charset) w).advance w

theorem WrapsAtEdge.printsInPlace (h : s.WrapsAtEdge) (hs : s.Bounded) (amb : Bool) :
    s.PrintsInPlace amb := by
  intro cp hcx
  have hno : s.wrapPending = false := by
    by_contra hwrap
    exact hcx (h (by simpa using hwrap))
  have hstay : s.wrapIfPending = s := if_neg (by simp [hno])
  have hedge := hs.cx
  unfold Screen.print
  simp only [hstay]
  by_cases hw : charWidth amb (translate cp s.charset) = 0
  · rw [if_pos hw]
    exact .inl rfl
  · rw [if_neg hw, if_neg (by omega)]
    exact .inr ⟨_, rfl⟩

/-! ### Where the flag comes from -/

theorem wrapsAtEdge_of_clear (h : s.wrapPending = false) : s.WrapsAtEdge := by
  intro hwrap
  rw [h] at hwrap
  exact absurd hwrap (by decide)

/-- The flag, the column and the width say it all. -/
theorem WrapsAtEdge.of_framed (h : s.WrapsAtEdge) (hf : s'.framed = s.framed) : s'.WrapsAtEdge := by
  have hwrap := congrArg Screen.wrapPending hf
  have hcx := congrArg Screen.cx hf
  have hcols := congrArg Screen.cols hf
  simp only [framed] at hwrap hcx hcols
  unfold WrapsAtEdge at *
  rw [hwrap, hcx, hcols]
  exact h

theorem lineFeed_clear (hs : s.Bounded) : s.lineFeed.wrapPending = false := by
  obtain ⟨heq, -⟩ | ⟨heq, -⟩ | ⟨-, hr⟩ := lineFeed_cases hs
  · rw [heq]
  · rw [heq]
  · rw [hr.frame]

theorem WrapsAtEdge.wrapIfPending (h : s.WrapsAtEdge) (hs : s.Bounded) :
    s.wrapIfPending.WrapsAtEdge := by
  unfold Screen.wrapIfPending
  split
  · have hb : Bounded { s with wrapPending := false, cx := 0 } :=
      hs.moved ⟨Int.le_refl 0, hs.cols_pos⟩ hs.cy false
    exact wrapsAtEdge_of_clear (lineFeed_clear hb)
  · exact h

/-- A character that fills the line leaves the cursor on the last column; on any other
it finds no wrap pending. -/
theorem WrapsAtEdge.advance (h : s.WrapsAtEdge) {w : Nat} (hw : w ≠ 0) :
    (s.advance w).WrapsAtEdge := by
  unfold Screen.advance
  simp only
  split
  · exact fun _ => rfl
  · rename_i hroom
    intro hwrap
    have hcx := h hwrap
    omega

theorem WrapsAtEdge.print (h : s.WrapsAtEdge) (hs : s.Bounded) (amb : Bool) (cp : Nat) :
    (s.print amb cp).WrapsAtEdge := by
  have hwrapped := h.wrapIfPending hs
  have hb := hs.wrapIfPending
  unfold Screen.print
  simp only
  generalize translate cp s.charset = ch
  split
  · exact h
  rename_i hw
  repeat' split
  · exact hwrapped
  · have hb' : Bounded { s.wrapIfPending with cx := 0 } :=
      { hb with cx := ⟨Int.le_refl 0, hb.cols_pos⟩ }
    have hfed := wrapsAtEdge_of_clear (lineFeed_clear hb')
    exact (hfed.of_framed (deposit_framed ..)).advance hw
  · exact (hwrapped.of_framed (deposit_framed ..)).advance hw

theorem tabFrom_clear (h : s.wrapPending = false) (left : Nat) (x : Int) :
    (tabFrom s left x).wrapPending = false := by
  induction left generalizing x with
  | zero => exact h
  | succ left ih =>
      unfold tabFrom
      repeat' split
      · exact h
      · exact ih (x + 1)
      · exact h

theorem reverseIndex_clear (s : Screen) : s.reverseIndex.wrapPending = false := by
  unfold reverseIndex scrollDown
  simp only
  repeat' split
  · exact congrArg Screen.wrapPending (scrollSliceDown_framed ..)
  · rfl
  · rfl

theorem WrapsAtEdge.resize (h : s.WrapsAtEdge) (cols rows : Int) :
    (s.resize cols rows).WrapsAtEdge := by
  obtain heq | ⟨c, r, t, hc, -, -, ht, hres⟩ := resize_cases s cols rows
  · rw [heq]
    exact h
  have hclear : t.wrapPending = false := by rw [ht]; rfl
  have hcols : t.cols = c := by rw [ht]; rfl
  obtain hres | ⟨hres, -⟩ := hres
  · obtain ⟨tabs, htabs, -⟩ := resetTabs_spec (s := t) (by omega)
    rw [hres, htabs]
    exact wrapsAtEdge_of_clear hclear
  · rw [hres]
    exact wrapsAtEdge_of_clear hclear

/-! ### Runs -/

/-- The way out of the alternate screen brings back a wrap that was put aside, on a
column that is no longer the last one. -/
def leavesOffEdge (s : Screen) : ScreenOp → Bool
  | .leaveAltScreen => s.alt && s.parkedCursor.wrapPending && s.parkedCursor.x != s.cols - 1
  | _ => false

theorem leaveAltScreen_wrapsAtEdge_iff (h : s.WrapsAtEdge) :
    s.leaveAltScreen.WrapsAtEdge ↔ s.leavesOffEdge .leaveAltScreen = false := by
  unfold Screen.leaveAltScreen leavesOffEdge
  cases halt : s.alt with
  | false => simpa using h
  | true =>
      simp only [not_true_eq_false, if_false, Bool.true_and, WrapsAtEdge]
      cases s.parkedCursor.wrapPending <;> simp

theorem step_wrapsAtEdge_iff (h : s.WrapsAtEdge) (hs : s.Bounded) (amb : Bool) (op : ScreenOp) :
    (s.step amb op).WrapsAtEdge ↔ s.leavesOffEdge op = false := by
  have hkeeps : s.leavesOffEdge op = false → (s.step amb op).WrapsAtEdge →
      ((s.step amb op).WrapsAtEdge ↔ s.leavesOffEdge op = false) :=
    fun hno hedge => iff_of_true hedge hno
  by_cases hpaints : paints op = true
  · refine hkeeps ?_ (h.of_framed (s.step_framed amb hpaints))
    cases op <;> first | rfl | exact absurd hpaints (by decide)
  cases op with
  | print cp => exact hkeeps rfl (h.print hs amb cp)
  | lineFeed => exact hkeeps rfl (wrapsAtEdge_of_clear (lineFeed_clear hs))
  | index => exact hkeeps rfl (wrapsAtEdge_of_clear (lineFeed_clear hs))
  | nextLine =>
      have hb : s.carriageReturn.Bounded := hs.moved ⟨Int.le_refl 0, hs.cols_pos⟩ hs.cy false
      exact hkeeps rfl (wrapsAtEdge_of_clear (lineFeed_clear hb))
  | reverseIndex => exact hkeeps rfl (wrapsAtEdge_of_clear (reverseIndex_clear s))
  | backspace =>
      refine hkeeps rfl ?_
      show s.backspace.WrapsAtEdge
      unfold Screen.backspace
      split
      · exact wrapsAtEdge_of_clear rfl
      · rename_i hclear
        split
        · exact wrapsAtEdge_of_clear (by simpa using hclear)
        · exact h
  | tab => exact hkeeps rfl (wrapsAtEdge_of_clear (tabFrom_clear rfl _ _))
  | setScrollRegion top bottom =>
      refine hkeeps rfl ?_
      show (s.setScrollRegion top bottom).WrapsAtEdge
      unfold Screen.setScrollRegion
      simp only
      split
      · exact h
      · exact wrapsAtEdge_of_clear rfl
  | restoreCursor =>
      refine hkeeps rfl fun hwrap => ?_
      have hboth : (s.saved.wrapPending && clamp s.saved.x 0 (s.cols - 1) == s.cols - 1) = true := hwrap
      simp only [Bool.and_eq_true, beq_iff_eq] at hboth
      exact hboth.2
  | enterAltScreen =>
      refine hkeeps rfl ?_
      show s.enterAltScreen.WrapsAtEdge
      unfold Screen.enterAltScreen
      split
      · exact h
      · exact h
  | leaveAltScreen => exact leaveAltScreen_wrapsAtEdge_iff h
  | resize cols rows => exact hkeeps rfl (h.resize cols rows)
  | carriageReturn => exact hkeeps rfl (wrapsAtEdge_of_clear rfl)
  | moveTo x y => exact hkeeps rfl (wrapsAtEdge_of_clear rfl)
  | moveUp n => exact hkeeps rfl (wrapsAtEdge_of_clear rfl)
  | moveDown n => exact hkeeps rfl (wrapsAtEdge_of_clear rfl)
  | moveRight n => exact hkeeps rfl (wrapsAtEdge_of_clear rfl)
  | moveLeft n => exact hkeeps rfl (wrapsAtEdge_of_clear rfl)
  | setColumn x => exact hkeeps rfl (wrapsAtEdge_of_clear rfl)
  | setRow y => exact hkeeps rfl (wrapsAtEdge_of_clear rfl)
  | resetScrollRegion => exact hkeeps rfl (wrapsAtEdge_of_clear rfl)
  | _ => first | exact hkeeps rfl h | exact absurd rfl hpaints

/-- **A wrap is pending on the last column**, and characters leave their line from there
only, in every state of a run, exactly when no step of the run comes back from the
alternate screen to a wrap that the page has outgrown. -/
theorem run_wrapsAtEdge_iff (amb : Bool) (cols rows : Int) (ops : List ScreenOp) :
    (∀ before, before <+: ops →
      let s := run (Screen.step amb) (Screen.create cols rows) before
      (s.wrapPending = true → s.cx = s.cols - 1) ∧ s.PrintsInPlace amb) ↔
    StepsMeet (Screen.step amb) (fun s op => s.leavesOffEdge op = false)
      (Screen.create cols rows) ops := by
  have hfresh : (Screen.create cols rows).WrapsAtEdge := by
    obtain ⟨tabs, -, heq⟩ := create_spec cols rows
    rw [heq]
    exact wrapsAtEdge_of_clear rfl
  have h := @run_good_iff _ _ (Screen.step amb) (fun s op => s.leavesOffEdge op = false)
    Screen.Bounded Screen.WrapsAtEdge (fun _ => True) (fun s op _ hs => hs.step amb op)
    (fun s op _ hs hedge => step_wrapsAtEdge_iff hedge hs amb op) (Screen.create cols rows) ops
    (Bounded.create cols rows) hfresh (fun _ _ => trivial)
  rw [← h]
  refine forall_congr' fun before => imp_congr_right fun _ => ⟨fun hb => hb.1, fun hb => ⟨hb, ?_⟩⟩
  exact WrapsAtEdge.printsInPlace hb (Bounded.run amb (Bounded.create cols rows) before) amb

/-- Two letters fill the line, the page grows behind the alternate screen, and the wrap
comes back in the second of four columns: the next letter goes to the line below. -/
theorem wrap_outgrown :
    let s := run (Screen.step false) (Screen.create 2 2)
      [.print 0x61, .print 0x62, .enterAltScreen, .resize 4 2, .leaveAltScreen]
    ¬ (s.wrapPending = true → s.cx = s.cols - 1) ∧ s.cy = 0 ∧
      (s.step false (.print 0x63)).cy = 1 := by
  decide +kernel

end Screen

end Sshos.Vt
