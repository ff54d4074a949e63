import Sshos.Lib.Lines
import Sshos.Render.Ink
import Sshos.Shell.Modal
import Sshos.Wm.Decor

/-!
# Sshos.Shell.ModalDraw

The dialog box as it is **painted**: each stroke bears what a click on it should reach, and a
question is answered where its buttons are seen.
-/

namespace Sshos.Shell

open Sshos.Lib (Bytes length_splitOn)
open Sshos.Render (Border Color Printable Rect Stroke Style View elideToCells elideToCells_printable)

/-- The colours of the desktop and those of the dialogs. -/
structure DialogTheme extends Wm.Theme where
  modalBg : Color := .default
  modalFg : Color := .default

def gaugeBar (percent width : Int) (b : Border) : Bytes :=
  let full := if b = .unicode then text "█" else text "#"
  let empty := if b = .unicode then text "░" else text "-"
  let filled := (width * max 0 (min percent 100)).tdiv 100
  (List.range width.toNat).flatMap fun (i : Nat) => if (i : Int) < filled then full else empty

namespace Modal

def kAcknowledge : Bytes := text "[ OK ]"

variable (m : Modal)

/-- The bar and the figure that take the place of the buttons. -/
def gaugeStrokes (v : View) (st : Style) (accent : Color) (b : Border) : List (Stroke ModalHit) :=
  if m.percent < 0 then []
  else
    let pc := text (toString m.percent) ++ text "%"
    -- the figure has the room of "100%", so that the bar keeps its width
    let chiffre : Int := 4
    let barre := m.rect.w - 4 - chiffre - 2
    if barre < 4 then []
    else
      [{ owner := fun _ _ => .body, view := v
         drawing := .text (m.rect.x + 2) m.buttonsY (gaugeBar m.percent barre b)
           { st with fg := accent } },
        { owner := fun _ _ => .body, view := v
          drawing := .text (m.rect.x + 2 + barre + 2 + (chiffre - pc.length)) m.buttonsY pc st }]

/-- The box, its text, and what there is to click. -/
def draw (v : View) (th : DialogTheme) (b : Border) : List (Stroke ModalHit) :=
  if ¬ m.isOpen then []
  else
    let st : Style := { bg := th.modalBg, fg := th.modalFg }
    let hot : Style := { st with bg := th.accent, fg := th.modalBg }
    let box : List (Stroke ModalHit) :=
      [{ owner := fun _ _ => .body, view := v, drawing := .fill m.rect st },
        { owner := fun _ _ => .body, view := v, drawing := .box m.rect b st }] ++
      (bodyLines m.question).zipIdx.map fun (l, i) =>
        { owner := fun _ _ => .body, view := v
          drawing := .text (m.rect.x + 2) (m.rect.y + 1 + i)
            (elideToCells l (m.rect.w - 4) (text "~")) st }
    match m.style with
    | .progress => box ++ m.gaugeStrokes v st th.accent b
    | .info =>
        let w : Int := kAcknowledge.length
        box ++ [{ owner := fun _ _ => .confirm, view := v
                  drawing := .text (m.rect.x + (m.rect.w - w).tdiv 2) m.confirmRect.y kAcknowledge hot }]
    | .question =>
        let c := m.cancelRect
        let k := m.confirmRect
        box ++
          [{ owner := fun _ _ => .cancel, view := v
             drawing := .text c.x c.y (elideToCells (button m.cancelLabel) c.w (text "~"))
               (if m.confirm then st else hot) },
            { owner := fun _ _ => .confirm, view := v
              drawing := .text k.x k.y (elideToCells (button m.confirmLabel) k.w (text "~"))
                (if m.confirm then hot else st) }]

end Modal

/-! ### Answering with the mouse -/

/-- Whose stroke is on top at a place of the screen, if any. -/
def Shows (cols rows : Nat) (ks : List (Stroke ModalHit)) (part : ModalHit) (x y : Int) : Prop :=
  ∃ cx cy : Nat, x = cx ∧ y = cy ∧ cx < cols ∧ cy < rows ∧
    Stroke.lastPainter false cols rows ks cx cy = some part

/-- The box is on the screen, its two buttons are two places of it, and a click meets the
button it sees. -/
structure Answerable (m : Modal) (cols rows : Nat) : Prop where
  frame : m.rect.Within { x := 0, y := 0, w := cols, h := rows }
  cancelRoom : 0 < m.cancelRect.w ∧ 0 < m.cancelRect.h
  confirmRoom : 0 < m.confirmRect.w ∧ 0 < m.confirmRect.h
  cancelIn : m.cancelRect.Within m.rect
  confirmIn : m.confirmRect.Within m.rect
  apart : ∀ x y, m.cancelRect.contains x y → ¬ m.confirmRect.contains x y
  cancel_iff : ∀ (th : DialogTheme) (b : Border) (x y : Int), m.hit x y = .cancel ↔
    Shows cols rows (m.draw (View.screen cols rows) th b) .cancel x y
  confirm_iff : ∀ (th : DialogTheme) (b : Border) (x y : Int), m.hit x y = .confirm ↔
    Shows cols rows (m.draw (View.screen cols rows) th b) .confirm x y

namespace Modal

variable {m : Modal} {cols rows x y : Nat}

theorem length_bodyLines (s : Bytes) : (bodyLines s).length = s.count 0x0A + 1 := length_splitOn _ s

theorem printable_button {label : Bytes} (h : ∀ b ∈ label, Printable b) :
    ∀ b ∈ button label, Printable b := by
  refine List.forall_mem_append.2 ⟨List.forall_mem_append.2 ⟨?_, h⟩, ?_⟩
  · decide +kernel
  · decide +kernel

theorem length_button (label : Bytes) : (button label).length = label.length + 4 := by
  have hends : (text "[ ").length = 2 ∧ (text " ]").length = 2 := by decide +kernel
  simp only [button, List.length_append, hends.1, hends.2]
  omega

/-- Both buttons get a column at least, no more than they need, and no more than there is. -/
theorem buttonWidths_spec (hwide : 7 ≤ m.rect.w) :
    0 < m.buttonWidths.1 ∧ 0 < m.buttonWidths.2 ∧
    m.buttonWidths.1 ≤ (button m.cancelLabel).length ∧
    m.buttonWidths.2 ≤ (button m.confirmLabel).length ∧
    m.buttonWidths.1 + m.buttonWidths.2 + 5 ≤ m.rect.w := by
  have hcancel := length_button m.cancelLabel
  have hconfirm := length_button m.confirmLabel
  have hroom : max 0 (m.rect.w - kButtonsChrome) = m.rect.w - 5 :=
    max_eq_right (by unfold kButtonsChrome; omega)
  have hhalf : (m.rect.w - 5).tdiv 2 = (m.rect.w - 5) / 2 := Int.tdiv_eq_ediv_of_nonneg (by omega)
  unfold buttonWidths
  simp only [hroom, hhalf]
  split
  · exact ⟨by omega, by omega, by omega, by omega, by omega⟩
  split
  · exact ⟨by omega, by omega, by omega, by omega, by omega⟩
  split
  · exact ⟨by omega, by omega, by omega, by omega, by omega⟩
  · exact ⟨by omega, by omega, by omega, by omega, by omega⟩

/-- The frame is on the screen, with room for two buttons across. -/
theorem layoutRect_spec (m : Modal) (hcols : 7 ≤ cols) (rows : Nat) :
    (m.layoutRect cols rows).Within { x := 0, y := 0, w := cols, h := rows } ∧
    7 ≤ (m.layoutRect cols rows).w ∧
    (m.layoutRect cols rows).h = min (5 + ((bodyLines m.question).length : Int)) rows := by
  have hfloor : 7 ≤ m.minWidth := by
    have hmin : 7 ≤ kMinWidth := by decide +kernel
    unfold minWidth
    split
    · exact hmin
    · exact hmin.trans (le_max_left _ _)
  simp only [layoutRect, kChromeHeight, Rect.Within, and_true]
  generalize m.minWidth = floor at *
  generalize ((bodyLines m.question).map List.length).foldl max 0 = longest
  have hw : (cols - min (min (max floor (longest + 4)) (max floor ((cols : Int) - 4))) cols).tdiv 2 =
      (cols - min (min (max floor (longest + 4)) (max floor ((cols : Int) - 4))) cols) / 2 :=
    Int.tdiv_eq_ediv_of_nonneg (by omega)
  have hh : ((rows : Int) - min (5 + ((bodyLines m.question).length : Int)) rows).tdiv 2 =
      (rows - min (5 + ((bodyLines m.question).length : Int)) rows) / 2 :=
    Int.tdiv_eq_ediv_of_nonneg (by omega)
  rw [hw, hh]
  refine ⟨⟨?_, ?_, ?_, ?_⟩, ?_⟩ <;> omega

/-- A question with labels that are printable, in a frame with room for two buttons. -/
structure Asks (m : Modal) : Prop where
  isOpen : m.isOpen
  style : m.style = .question
  cancelLabel : ∀ b ∈ m.cancelLabel, Printable b
  confirmLabel : ∀ b ∈ m.confirmLabel, Printable b
  wide : 7 ≤ m.rect.w

theorem mem_label (hx : x < cols) (hy : y < rows) {label : Bytes} (hlabel : ∀ b ∈ label, Printable b)
    {r : Rect} (hh : r.h = 1) (hpos : 0 < r.w) (hle : r.w ≤ (button label).length) (st : Style) :
    (x, y) ∈ (View.screen cols rows).ink false cols rows
      (.text r.x r.y (elideToCells (button label) r.w (text "~")) st) ↔ r.contains x y := by
  have htilde : text "~" = [0x7E] := by decide +kernel
  obtain ⟨hall, hlen⟩ := elideToCells_printable (printable_button hlabel)
    (show Printable 0x7E by decide) hpos hle
  rw [htilde]
  refine (View.mem_textInk_screen hx hy hall).trans ?_
  rw [Rect.contains_iff, hlen]
  omega

/-- The buttons are the last thing painted. -/
theorem lastPainter_draw (h : m.Asks) (hx : x < cols) (hy : y < rows) (th : DialogTheme) (b : Border) :
    (Stroke.lastPainter false cols rows (m.draw (View.screen cols rows) th b) x y = some .confirm ↔
      m.confirmRect.contains x y) ∧
    (Stroke.lastPainter false cols rows (m.draw (View.screen cols rows) th b) x y = some .cancel ↔
      m.cancelRect.contains x y ∧ ¬ m.confirmRect.contains x y) := by
  obtain ⟨hcancel, hconfirm, hcancelLe, hconfirmLe, -⟩ := buttonWidths_spec h.wide
  have hc := mem_label hx hy h.cancelLabel (r := m.cancelRect) rfl hcancel hcancelLe
  have hk := mem_label hx hy h.confirmLabel (r := m.confirmRect) rfl hconfirm hconfirmLe
  have hopen := h.isOpen
  unfold draw
  simp only [hopen, not_true_eq_false, if_false, h.style]
  generalize hbox : [_, _] ++ List.map _ _ = box
  have howner : ∀ k ∈ box, k.owner x y = .body := by
    rw [← hbox]
    refine List.forall_mem_append.2 ⟨by simp, fun k hk => ?_⟩
    obtain ⟨-, -, rfl⟩ := List.mem_map.1 hk
    rfl
  have hunder : ∀ {a}, Stroke.lastPainter false cols rows box x y = some a → a = .body := fun ha => by
    obtain ⟨k, hmem, rfl⟩ := Stroke.exists_of_lastPainter ha
    exact howner k hmem
  rw [show ∀ (c k : Stroke ModalHit), box ++ [c, k] = (box ++ [c]) ++ [k] from fun c k => by simp,
    Stroke.lastPainter_concat, Stroke.lastPainter_concat]
  simp only [Stroke.ink, hc, hk]
  by_cases hconfirmIn : m.confirmRect.contains x y
  · simp [hconfirmIn]
  by_cases hcancelIn : m.cancelRect.contains x y
  · simp [hconfirmIn, hcancelIn]
  · simp only [hconfirmIn, hcancelIn, Bool.false_eq_true, if_false, false_and, iff_false]
    exact ⟨fun ha => absurd (hunder ha) (by decide), fun ha => absurd (hunder ha) (by decide)⟩

/-- Where the buttons are, in a frame. -/
theorem buttons_places (hwide : 7 ≤ m.rect.w) (x y : Int) :
    (m.cancelRect.contains x y → ¬ m.confirmRect.contains x y) ∧
    (m.cancelRect.Within m.rect ↔ (bodyLines m.question).length + 3 ≤ m.rect.h) ∧
    (m.confirmRect.Within m.rect ↔ (bodyLines m.question).length + 3 ≤ m.rect.h) := by
  obtain ⟨hcancel, hconfirm, -, -, hroom⟩ := buttonWidths_spec hwide
  simp only [Rect.contains_iff, Rect.Within, cancelRect, confirmRect, buttonsY]
  refine ⟨?_, ?_, ?_⟩ <;> omega

theorem shows_of_within {th : DialogTheme} {b : Border} {part : ModalHit} {r : Rect}
    (hr : r.Within { x := 0, y := 0, w := cols, h := rows })
    (hpainter : ∀ {cx cy : Nat}, cx < cols → cy < rows →
      (Stroke.lastPainter false cols rows (m.draw (View.screen cols rows) th b) cx cy = some part ↔
        r.contains cx cy)) (x y : Int) :
    r.contains x y ↔ Shows cols rows (m.draw (View.screen cols rows) th b) part x y := by
  constructor
  · intro hin
    have hscreen := Rect.contains_iff.1 (hr.contains hin)
    simp only [zero_add] at hscreen
    obtain ⟨cx, rfl⟩ := Int.eq_ofNat_of_zero_le hscreen.1
    obtain ⟨cy, rfl⟩ := Int.eq_ofNat_of_zero_le hscreen.2.1
    have hx : cx < cols := by omega
    have hy : cy < rows := by omega
    exact ⟨cx, cy, rfl, rfl, hx, hy, (hpainter hx hy).2 hin⟩
  · intro hs
    obtain ⟨cx, cy, rfl, rfl, hx, hy, hlast⟩ := hs
    exact (hpainter hx hy).1 hlast

/-- What a click meets, when the buttons are in the frame. -/
theorem hit_iff (h : m.Asks) (hcancel : m.cancelRect.Within m.rect)
    (hconfirm : m.confirmRect.Within m.rect) (x y : Int) :
    (m.hit x y = .cancel ↔ m.cancelRect.contains x y) ∧
    (m.hit x y = .confirm ↔ m.confirmRect.contains x y) := by
  have hapart := (buttons_places h.wide x y).1
  have hopen := h.isOpen
  unfold hit
  simp only [h.style, hopen, not_true_eq_false, false_or, reduceCtorEq, if_false]
  by_cases hc : m.cancelRect.contains x y
  · simp [hc, hcancel.contains hc, hapart hc]
  by_cases hk : m.confirmRect.contains x y
  · simp [hc, hk, hconfirm.contains hk]
  · split <;> simp [hc, hk]

/-- **A question can be answered** exactly when its buttons are on the screen. -/
theorem answerable_asked_iff (hopen : m.isOpen) (hstyle : m.style = .question)
    (hcancel : ∀ b ∈ m.cancelLabel, Printable b) (hconfirm : ∀ b ∈ m.confirmLabel, Printable b)
    (hcols : 7 ≤ cols) :
    Answerable (m.layout cols rows) cols rows ↔ (bodyLines m.question).length + 3 ≤ rows := by
  obtain ⟨hframe, hwide, hhigh⟩ := m.layoutRect_spec hcols rows
  have hasks : (m.layout cols rows).Asks := ⟨hopen, hstyle, hcancel, hconfirm, hwide⟩
  have hplaces := @buttons_places (m.layout cols rows) hwide
  have hroom : ((bodyLines m.question).length : Int) + 3 ≤ (m.layoutRect cols rows).h ↔
      (bodyLines m.question).length + 3 ≤ rows := by
    rw [hhigh]
    omega
  have hlayout : (m.layout cols rows).rect = m.layoutRect cols rows := rfl
  have hquestion : (m.layout cols rows).question = m.question := rfl
  rw [hlayout, hquestion, hroom] at hplaces
  constructor
  · intro h
    exact (hplaces 0 0).2.1.1 h.cancelIn
  intro hfits
  have hcancelIn := (hplaces 0 0).2.1.2 hfits
  have hconfirmIn := (hplaces 0 0).2.2.2 hfits
  obtain ⟨hcancelW, hconfirmW, -⟩ := buttonWidths_spec hasks.wide
  have hhit := hit_iff hasks hcancelIn hconfirmIn
  refine
    { frame := hframe
      cancelRoom := ⟨hcancelW, Int.zero_lt_one⟩
      confirmRoom := ⟨hconfirmW, Int.zero_lt_one⟩
      cancelIn := hcancelIn
      confirmIn := hconfirmIn
      apart := fun x y => (hplaces x y).1
      cancel_iff := fun th b x y => ?_
      confirm_iff := fun th b x y => ?_ }
  · refine (hhit x y).1.trans (shows_of_within (hcancelIn.trans hframe) (fun hx hy => ?_) x y)
    refine (lastPainter_draw hasks hx hy th b).2.trans ⟨And.left, fun hin => ⟨hin, ?_⟩⟩
    exact (hplaces _ _).1 hin
  · refine (hhit x y).2.trans (shows_of_within (hconfirmIn.trans hframe) (fun hx hy => ?_) x y)
    exact (lastPainter_draw hasks hx hy th b).1

end Modal

end Sshos.Shell
