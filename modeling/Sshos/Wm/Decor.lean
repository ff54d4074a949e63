import Sshos.Render.Ink
import Sshos.Wm.Desktop

/-!
# Sshos.Wm.Decor

The **decorations** of a window: where its title, its buttons and its client area are, how
they are painted, and what part of it stands at a place. Each stroke of the painting bears
the part it paints.
-/

namespace Sshos.Wm

open Sshos.Common (utf8Decode)
open Sshos.Lib (Bytes)
open Sshos.Render (Border Color Drawing Rect Stroke Style View charWidth textCells)

/-- The colours of the desktop, by their use. -/
structure Theme where
  desktopBg : Color := .default
  panelBg : Color := .default
  panelFg : Color := .default
  accent : Color := .default
  titleFocusBg : Color := .default
  titleFocusFg : Color := .default
  titleBlurBg : Color := .default
  titleBlurFg : Color := .default
  borderFocus : Color := .default
  borderBlur : Color := .default

structure DecorMetrics where
  titleBar : Rect
  titleText : Rect
  /-- Of no width when there is no room for one. -/
  buttons : Rect
  buttonCount : Nat
  client : Rect

def kButtonWidth : Int := 3
def kTitleMargin : Int := 2

def decorMetrics (frame : Rect) : DecorMetrics :=
  let n := ([3, 2, 1].find? fun (candidate : Nat) => frame.w ≥ 7 + kButtonWidth * candidate).getD 0
  let bx := frame.x + frame.w - 1 - kButtonWidth * n
  let titleX := frame.x + kTitleMargin
  let titleEnd := if n > 0 then bx - 1 else frame.x + frame.w - 1
  { titleBar := { x := frame.x, y := frame.y, w := frame.w, h := 1 }
    titleText := { x := titleX, y := frame.y, w := max 0 (titleEnd - titleX), h := 1 }
    buttons := { x := bx, y := frame.y, w := kButtonWidth * n, h := 1 }
    buttonCount := n
    client := clientRect frame }

/-- The parts of a window. The frame is what is no handle: the left border. -/
inductive WinHit
  | none | frame | titleBar | buttonMinimize | buttonMaximize | buttonClose | edgeRight | edgeBottom
  | cornerBR | client
  deriving Repr, DecidableEq

structure WinHitResult where
  what : WinHit := .none
  win : WindowId := 0
  /-- In the client area, for a place in it. -/
  lx : Int := 0
  ly : Int := 0
  deriving Repr, DecidableEq

def button (which : Int) : WinHit :=
  if which = 0 then .buttonMinimize else if which = 1 then .buttonMaximize else .buttonClose

def hitWindow (w : Win) (x y : Int) : WinHitResult :=
  let f := w.app.displayRect
  if !f.contains x y then {}
  else
    let m := decorMetrics f
    let r : WinHitResult := { win := w.id }
    if x = f.x + f.w - 1 ∧ y = f.y + f.h - 1 ∧ f.h ≥ 2 then { r with what := .cornerBR }
    else if y = m.titleBar.y then
      if m.buttonCount > 0 ∧ x ≥ m.buttons.x ∧ x < m.buttons.x + m.buttons.w then
        let slot := (x - m.buttons.x) / 3
        { r with what := button (3 - m.buttonCount + slot) }
      else { r with what := .titleBar }
    else if x = f.x + f.w - 1 then { r with what := .edgeRight }
    else if y = f.y + f.h - 1 then { r with what := .edgeBottom }
    else if m.client.contains x y then
      { r with what := .client, lx := x - m.client.x, ly := y - m.client.y }
    else { r with what := .frame }

/-- `[_]`, `[□]` and `[×]`, or what stands for them without UTF-8. -/
def label (b : Border) (which : Nat) : Bytes :=
  match which with
  | 0 => [0x5b, 0x5f, 0x5d]
  | 1 => if b = .unicode then [0x5b, 0xe2, 0x96, 0xa1, 0x5d] else [0x5b, 0x6f, 0x5d]
  | _ => if b = .unicode then [0x5b, 0xc3, 0x97, 0x5d] else [0x5b, 0x78, 0x5d]

/-- The side of the frame a place of its border is on. -/
def side (f : Rect) (x y : Nat) : WinHit :=
  if (x : Int) = f.x + f.w - 1 then .edgeRight
  else if (y : Int) = f.y + f.h - 1 then .edgeBottom
  else .frame

/-- The window is opaque: its frame is filled first. -/
def drawDecor (v : View) (w : Win) (focused : Bool) (th : Theme) (b : Border) :
    List (Stroke WinHit) :=
  let f := w.app.displayRect
  if f.w ≤ 0 ∨ f.h ≤ 0 then []
  else
    let m := decorMetrics f
    let frameSt : Style :=
      { bg := th.panelBg, fg := if focused then th.borderFocus else th.borderBlur }
    let titleSt : Style :=
      { bg := if focused then th.titleFocusBg else th.titleBlurBg
        fg := if focused then th.titleFocusFg else th.titleBlurFg }
    [{ owner := fun _ _ => .client, view := v, drawing := .fill f frameSt },
      { owner := side f, view := v, drawing := .box f b frameSt },
      { owner := fun _ _ => .titleBar, view := v, drawing := .fill m.titleBar titleSt }] ++
    (if m.titleText.w > 0 then
      [{ owner := fun _ _ => .titleBar, view := v.sub m.titleText
         drawing := .text 0 0 w.app.title titleSt }]
    else []) ++
    (List.range m.buttonCount).map (fun i =>
      { owner := fun _ _ => button (3 - m.buttonCount + i)
        view := v.sub { x := m.buttons.x + kButtonWidth * i, y := m.buttons.y, w := kButtonWidth, h := 1 }
        drawing := .text 0 0 (label b (3 - m.buttonCount + i)) titleSt }) ++
    (if f.h ≥ 2 then
      [{ owner := fun _ _ => .cornerBR, view := v
         drawing := .put (f.x + f.w - 1) (f.y + f.h - 1) (if b = .unicode then 0x25e2 else 0x23)
           { frameSt with fg := th.accent } }]
    else [])

/-- The decorations, and over them what the application draws in its area, through any views
it makes of the one it is given. -/
def drawWindow (v : View) (w : Win) (focused : Bool) (th : Theme) (b : Border)
    (app : List (List Rect × Drawing)) : List (Stroke WinHit) :=
  drawDecor v w focused th b ++ app.map fun (rs, d) =>
    { owner := fun _ _ => .client
      view := rs.foldl View.sub (v.sub (clientRect w.app.displayRect))
      drawing := d }

/-! ### What is seen of a window is what a click meets -/

section Shown

variable {cols rows x y : Nat} {w : Win} {focused : Bool} {th : Theme} {b : Border}
  {app : List (List Rect × Drawing)}

/-- A window large enough for its three buttons. -/
structure Roomy (f : Rect) : Prop where
  w : 16 ≤ f.w
  h : 5 ≤ f.h
  x : 0 ≤ f.x
  y : 0 ≤ f.y

/-- Where the buttons start. -/
def buttonsX (f : Rect) : Int := f.x + f.w - 10

theorem decorMetrics_of_roomy {f : Rect} (hf : Roomy f) : decorMetrics f =
    { titleBar := { x := f.x, y := f.y, w := f.w, h := 1 }
      titleText := { x := f.x + 2, y := f.y, w := max 0 (buttonsX f - 1 - (f.x + 2)), h := 1 }
      buttons := { x := buttonsX f, y := f.y, w := 9, h := 1 }
      buttonCount := 3
      client := clientRect f } := by
  have hwide := hf.w
  have hroom : decide (f.w ≥ 7 + kButtonWidth * ((3 : Nat) : Int)) = true := by
    refine decide_eq_true ?_
    simp only [kButtonWidth]
    omega
  have hx : f.x + f.w - 1 - kButtonWidth * ((3 : Nat) : Int) = buttonsX f := by
    simp only [kButtonWidth, buttonsX]
    omega
  simp only [decorMetrics, List.find?_cons, hroom, Option.getD_some, hx, kTitleMargin]
  rfl

theorem hitWindow_of_roomy {f : Rect} (hw : w.app.displayRect = f) (hf : Roomy f)
    (hin : f.contains x y) : (hitWindow w x y).what =
      if (x : Int) = f.x + f.w - 1 ∧ (y : Int) = f.y + f.h - 1 then .cornerBR
      else if (y : Int) = f.y then
        if buttonsX f ≤ x ∧ (x : Int) < buttonsX f + 9 then button ((x - buttonsX f) / 3)
        else .titleBar
      else if (x : Int) = f.x + f.w - 1 then .edgeRight
      else if (y : Int) = f.y + f.h - 1 then .edgeBottom
      else if (clientRect f).contains x y then .client
      else .frame := by
  have hh : 2 ≤ f.h := le_trans (by decide) hf.h
  unfold hitWindow
  simp only [hw, hin, decorMetrics_of_roomy hf, Bool.not_true, Bool.false_eq_true, if_false, hh,
    and_true, ge_iff_le, gt_iff_lt, Nat.zero_lt_succ, true_and]
  split
  · rfl
  split
  · split
    · simp
    · rfl
  split
  · rfl
  split
  · rfl
  split
  · rfl
  · rfl

/-- What is painted after the frame and the ground of the title, and never painted over by
another part. -/
def drawLater (v : View) (w : Win) (th : Theme) (b : Border) (titleSt frameSt : Style)
    (app : List (List Rect × Drawing)) : List (Stroke WinHit) :=
  let f := w.app.displayRect
  let m := decorMetrics f
  (if m.titleText.w > 0 then
      [{ owner := fun _ _ => .titleBar, view := v.sub m.titleText
         drawing := .text 0 0 w.app.title titleSt }]
    else []) ++
    (List.range 3).map (fun i =>
      { owner := fun _ _ => button i
        view := v.sub { x := m.buttons.x + kButtonWidth * i, y := m.buttons.y, w := kButtonWidth, h := 1 }
        drawing := .text 0 0 (label b i) titleSt }) ++
    [{ owner := fun _ _ => .cornerBR, view := v
       drawing := .put (f.x + f.w - 1) (f.y + f.h - 1) (if b = .unicode then 0x25e2 else 0x23)
         { frameSt with fg := th.accent } }] ++
    app.map fun (rs, d) =>
      { owner := fun _ _ => .client
        view := rs.foldl View.sub (v.sub (clientRect w.app.displayRect))
        drawing := d }

theorem drawWindow_of_roomy (v : View) (focused : Bool) (th : Theme) (b : Border)
    (app : List (List Rect × Drawing)) {f : Rect} (hw : w.app.displayRect = f) (hf : Roomy f) :
    ∃ frameSt titleSt, drawWindow v w focused th b app =
      { owner := fun _ _ => .client, view := v, drawing := .fill f frameSt } ::
      { owner := side f, view := v, drawing := .box f b frameSt } ::
      { owner := fun _ _ => .titleBar, view := v
        drawing := .fill { x := f.x, y := f.y, w := f.w, h := 1 } titleSt } ::
      drawLater v w th b titleSt frameSt app := by
  have hsome : ¬ (f.w ≤ 0 ∨ f.h ≤ 0) := by
    have hwide := hf.w
    have hhigh := hf.h
    omega
  have hhigh : f.h ≥ 2 := le_trans (by decide) hf.h
  unfold drawWindow drawDecor drawLater
  simp only [hw, if_neg hsome, decorMetrics_of_roomy hf, if_pos hhigh, List.cons_append,
    List.nil_append, List.append_assoc]
  simp only [Nat.sub_self, Nat.cast_ofNat, sub_self, zero_add]
  exact ⟨_, _, rfl⟩

theorem corner_narrow (b : Border) : charWidth false (if b = .unicode then 0x25e2 else 0x23) = 1 := by
  cases b <;> decide +kernel

theorem label_narrow (b : Border) (i : Nat) :
    ∀ j < (label b i).length, charWidth false (utf8Decode (label b i) j).2 = 1 := by
  rcases i with _ | _ | i
  · cases b <;> decide +kernel
  · cases b <;> decide +kernel
  · rw [show label b (i + 2) = label b 2 from rfl]
    cases b <;> decide +kernel

theorem textCells_label (b : Border) (i : Nat) : textCells (label b i) = 3 := by
  rcases i with _ | _ | i
  · cases b <;> decide +kernel
  · cases b <;> decide +kernel
  · rw [show label b (i + 2) = label b 2 from rfl]
    cases b <;> decide +kernel

/-- A button is painted whole, as far as it is on the screen. -/
theorem mem_button {f : Rect} (hx : x < cols) (hy : y < rows) (hf : Roomy f) (hrow : (y : Int) = f.y)
    {i : Nat} (hle : buttonsX f + 3 * i ≤ x) (hlt : (x : Int) < buttonsX f + 3 * i + 3)
    (b : Border) (st : Style) :
    (x, y) ∈ View.ink false ((View.screen cols rows).sub
      { x := buttonsX f + kButtonWidth * i, y := f.y, w := kButtonWidth, h := 1 }) cols rows
      (.text 0 0 (label b i) st) := by
  have hleft := hf.x
  have hwide := hf.w
  have hplace : (Rect.mk (buttonsX f + kButtonWidth * i) f.y kButtonWidth 1).contains x y := by
    rw [Rect.contains_iff]
    simp only [kButtonWidth]
    omega
  have hstart : 0 ≤ buttonsX f + kButtonWidth * i := by
    unfold buttonsX kButtonWidth
    omega
  have hmap := View.mapIn_sub hx hy (r := Rect.mk (buttonsX f + kButtonWidth * i) f.y kButtonWidth 1)
    hstart hf.y hplace
  simp only [hrow, sub_self] at hmap
  refine View.textInk_covers (label_narrow b i) _ (c := x - (buttonsX f + kButtonWidth * i)) ?_ ?_ hmap
  · unfold kButtonWidth
    omega
  · show (x : Int) - (buttonsX f + kButtonWidth * i) < 0 + (textCells (label b i) : Int)
    rw [textCells_label]
    unfold kButtonWidth
    omega

theorem button_slot {f : Rect} {i : Nat} (hi : i < 3) (hle : buttonsX f + 3 * i ≤ x)
    (hlt : (x : Int) < buttonsX f + 3 * i + 3) :
    (buttonsX f ≤ x ∧ (x : Int) < buttonsX f + 9) ∧ (x - buttonsX f) / 3 = i := by
  omega

variable {titleSt frameSt : Style} {f : Rect}

/-- These strokes stay in the window, each on the part it bears. -/
theorem owner_of_drawLater (hx : x < cols) (hy : y < rows) (hw : w.app.displayRect = f)
    (hf : Roomy f) {l : Stroke WinHit}
    (hl : l ∈ drawLater (View.screen cols rows) w th b titleSt frameSt app)
    (hink : (x, y) ∈ l.ink false cols rows) :
    f.contains x y ∧ l.owner x y = (hitWindow w x y).what := by
  have hwide := hf.w
  have hhigh := hf.h
  -- what is in the clip of a part of the window is in the window
  have hhit : ∀ {z : WinHit}, f.contains x y → l.owner x y = z →
      (f.contains x y → (hitWindow w x y).what = z) →
      f.contains x y ∧ l.owner x y = (hitWindow w x y).what :=
    fun hin howner hz => ⟨hin, howner.trans (hz hin).symm⟩
  simp only [drawLater, hw, decorMetrics_of_roomy hf, List.mem_append, List.mem_map,
    List.mem_range, List.mem_singleton] at hl
  rcases hl with ((htitle | ⟨i, hi, rfl⟩) | rfl) | ⟨⟨rs, d⟩, -, rfl⟩
  · split at htitle
    · obtain rfl := List.mem_singleton.1 htitle
      have hin := View.contains_of_sub (View.contains_of_ink hink)
      rw [Rect.contains_iff] at hin
      simp only [buttonsX] at hin
      refine hhit (z := .titleBar) (Rect.contains_iff.2 (by omega)) rfl fun hin' => ?_
      rw [hitWindow_of_roomy hw hf hin', if_neg (by omega), if_pos (by omega),
        if_neg (by unfold buttonsX; omega)]
    · cases htitle
  · have hin := View.contains_of_sub (View.contains_of_ink hink)
    rw [Rect.contains_iff] at hin
    simp only [kButtonWidth] at hin
    obtain ⟨hin₃, hslot⟩ := button_slot (x := x) (f := f) hi (by omega) (by omega)
    unfold buttonsX at hin₃
    refine hhit (z := button i) (Rect.contains_iff.2 (by omega)) rfl fun hin' => ?_
    rw [hitWindow_of_roomy hw hf hin', if_neg (by omega), if_pos (by omega),
      if_pos (by unfold buttonsX; omega), hslot]
  · obtain ⟨hx', hy'⟩ := (View.mem_putInk_screen hx hy (corner_narrow b)).1 hink
    refine hhit (z := .cornerBR) (Rect.contains_iff.2 (by omega)) rfl fun hin' => ?_
    rw [hitWindow_of_roomy hw hf hin', if_pos ⟨hx'.symm, hy'.symm⟩]
  · have hclient := View.contains_of_sub (View.contains_of_subs rs (View.contains_of_ink hink))
    have hin := Rect.contains_iff.1 hclient
    simp only [clientRect] at hin
    refine hhit (z := .client) (Rect.contains_iff.2 (by omega)) rfl fun hin' => ?_
    rw [hitWindow_of_roomy hw hf hin', if_neg (by omega), if_neg (by omega), if_neg (by omega),
      if_neg (by omega), if_pos hclient]

/-- **What is seen of a window** at a place is what a click there meets. -/
theorem lastPainter_drawWindow (hx : x < cols) (hy : y < rows) (hw : w.app.displayRect = f)
    (hf : Roomy f) (hin : f.contains x y) :
    Stroke.lastPainter false cols rows
      (drawWindow (View.screen cols rows) w focused th b app) x y = some (hitWindow w x y).what := by
  obtain ⟨frameSt, titleSt, heq⟩ := drawWindow_of_roomy (View.screen cols rows) focused th b app hw hf
  rw [heq]
  have hwide := hf.w
  have hhigh := hf.h
  have hlater : ∀ l ∈ drawLater (View.screen cols rows) w th b titleSt frameSt app,
      (x, y) ∈ l.ink false cols rows → l.owner x y = (hitWindow w x y).what :=
    fun l hl hink => (owner_of_drawLater hx hy hw hf hl hink).2
  have hplace := Rect.contains_iff.1 hin
  -- the ground of the title
  have htitle : (x, y) ∈ (View.screen cols rows).fillInk cols rows
      { x := f.x, y := f.y, w := f.w, h := 1 } ↔ (y : Int) = f.y := by
    rw [View.mem_fillInk_screen hx hy, Rect.contains_iff]
    simp only
    omega
  by_cases hcorner : (x : Int) = f.x + f.w - 1 ∧ (y : Int) = f.y + f.h - 1
  · refine Stroke.lastPainter_of_agree [_, _, _] ?_ ?_ ?_ hlater
    · exact { owner := fun _ _ => .cornerBR, view := View.screen cols rows
              drawing := .put (f.x + f.w - 1) (f.y + f.h - 1) (if b = .unicode then 0x25e2 else 0x23)
                { frameSt with fg := th.accent } }
    · simp only [hw, List.mem_append, List.mem_singleton, true_or, or_true]
    · exact (View.mem_putInk_screen hx hy (corner_narrow b)).2 ⟨hcorner.1.symm, hcorner.2.symm⟩
  by_cases hrow : (y : Int) = f.y
  · by_cases hbutton : buttonsX f ≤ x ∧ (x : Int) < buttonsX f + 9
    · obtain ⟨i, hi, hslot⟩ : ∃ i : Nat, i < 3 ∧ (x - buttonsX f) / 3 = (i : Int) :=
        ⟨((x - buttonsX f) / 3).toNat, by omega, by omega⟩
      refine Stroke.lastPainter_of_agree [_, _, _] ?_ ?_ ?_ hlater
      · exact { owner := fun _ _ => button i
                view := (View.screen cols rows).sub
                  { x := buttonsX f + kButtonWidth * i, y := f.y, w := kButtonWidth, h := 1 }
                drawing := .text 0 0 (label b i) titleSt }
      · simp only [hw, decorMetrics_of_roomy hf, List.mem_append, List.mem_map, List.mem_range]
        exact .inl (.inl (.inr ⟨i, hi, rfl⟩))
      · exact mem_button hx hy hf hrow (by omega) (by omega) b titleSt
    · refine Stroke.lastPainter_of_last [_, _] (htitle.2 hrow) ?_ hlater
      rw [hitWindow_of_roomy hw hf hin, if_neg hcorner, if_pos hrow, if_neg hbutton]
  by_cases hborder : View.OnBorder f x y
  · refine Stroke.lastPainter_of_last [_]
      ((View.mem_boxInk_screen hx hy (by omega) (by omega)).2 hborder) ?_
      (List.forall_mem_cons.2 ⟨fun hink => absurd (htitle.1 hink) hrow, hlater⟩)
    rw [hitWindow_of_roomy hw hf hin, if_neg hcorner, if_neg hrow]
    show side f x y = _
    unfold side
    by_cases hright : (x : Int) = f.x + f.w - 1
    · rw [if_pos hright, if_pos hright]
    rw [if_neg hright, if_neg hright]
    by_cases hbottom : (y : Int) = f.y + f.h - 1
    · rw [if_pos hbottom, if_pos hbottom]
    · rw [if_neg hbottom, if_neg hbottom]
      have hleft : ¬ (clientRect f).contains x y := by
        have hside := hborder.2
        rw [Rect.contains_iff]
        simp only [clientRect]
        omega
      rw [if_neg hleft]
  · have hclient : (clientRect f).contains x y := by
      simp only [View.OnBorder, hin, true_and, not_or] at hborder
      rw [Rect.contains_iff]
      simp only [clientRect]
      omega
    have hbox := (View.mem_boxInk_screen (b := b) hx hy (by omega) (by omega)).not.2 hborder
    refine Stroke.lastPainter_of_last [] ((View.mem_fillInk_screen hx hy).2 hin) ?_
      (List.forall_mem_cons.2 ⟨fun hink => absurd hink hbox,
        List.forall_mem_cons.2 ⟨fun hink => absurd (htitle.1 hink) hrow, hlater⟩⟩)
    have hside : ¬ ((x : Int) = f.x + f.w - 1) ∧ ¬ ((y : Int) = f.y + f.h - 1) := by
      simp only [View.OnBorder, hin, true_and, not_or] at hborder
      exact ⟨hborder.2.1, hborder.2.2.2⟩
    rw [hitWindow_of_roomy hw hf hin, if_neg hcorner, if_neg hrow, if_neg hside.1, if_neg hside.2,
      if_pos hclient]

/-- A window paints nothing beside itself. -/
theorem not_mem_drawWindow (hx : x < cols) (hy : y < rows) (hw : w.app.displayRect = f)
    (hf : Roomy f) (hout : ¬ f.contains x y) :
    ∀ k ∈ drawWindow (View.screen cols rows) w focused th b app, (x, y) ∉ k.ink false cols rows := by
  obtain ⟨frameSt, titleSt, heq⟩ := drawWindow_of_roomy (View.screen cols rows) focused th b app hw hf
  rw [heq]
  have hwide := hf.w
  have hhigh := hf.h
  simp only [List.forall_mem_cons]
  refine ⟨fun hink => hout ((View.mem_fillInk_screen hx hy).1 hink), fun hink => ?_, fun hink => ?_,
    fun l hl hink => hout (owner_of_drawLater hx hy hw hf hl hink).1⟩
  · exact hout ((View.mem_boxInk_screen hx hy (by omega) (by omega)).1 hink).1
  · have htitle := (View.mem_fillInk_screen hx hy).1 hink
    rw [Rect.contains_iff] at htitle hout
    simp only at htitle
    omega

end Shown

end Sshos.Wm
