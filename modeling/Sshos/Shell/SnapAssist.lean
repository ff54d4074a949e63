import Sshos.Render.Elide
import Sshos.Shell.ModalDraw
import Sshos.Wm.Manager

/-!
# Sshos.Shell.SnapAssist

The **snap proposal**: a window has just taken a half of the work area, and the windows that
could take the other one are listed where they would go. The proposal is open only on a list
that can be read, in a frame that stays inside the half it stands for, and a click on a title
one sees names its window.
-/

namespace Sshos.Shell

open Sshos.Lib (Bytes)
open Sshos.Render (Border Color Rect Stroke Style View elideToCells elided_elideToCells textCells)
open Sshos.Wm (WindowId)

structure SnapCandidate where
  win : WindowId
  title : Bytes
  deriving DecidableEq

/-- What a stroke of the proposal is. -/
inductive AssistPart
  | frame | heading
  | choice (i : Nat)
  deriving DecidableEq

structure SnapAssist where
  isOpen : Bool := false
  rect : Rect := {}
  choices : List SnapCandidate := []

namespace SnapAssist

/-- Two borders, and the heading. -/
def kChromeRows : Int := 3
def kMinCols : Int := 12
def kHeading : Bytes := text "Ancrer ici :"

/-- Propose some windows for a half of the work area. What was proposed is put away, even
when the new list cannot be shown. -/
def «open» (free : Rect) (choices : List SnapCandidate) : SnapAssist :=
  let widest := choices.foldl (fun widest c => max widest (textCells c.title : Int)) (textCells kHeading)
  let w := min (free.w - 2) (widest + 4)
  let rows := min (choices.length : Int) (free.h - 2 - kChromeRows)
  if rows ≤ 0 ∨ w < kMinCols then {}
  else
    let h := rows + kChromeRows
    { isOpen := true
      rect := { x := free.x + (free.w - w).tdiv 2, y := free.y + (free.h - h).tdiv 2, w := w, h := h }
      choices := choices.take rows.toNat }

variable (a : SnapAssist)

/-- Below the border and the heading. -/
def rowOf (i : Nat) : Int := a.rect.y + 2 + i

def draw (v : View) (th : DialogTheme) (b : Border) : List (Stroke AssistPart) :=
  if ¬ a.isOpen then []
  else
    let st : Style := { bg := th.modalBg, fg := th.modalFg }
    let x := a.rect.x + 2
    -- the view cuts at the screen, not at the frame
    let room := max 0 (a.rect.x + a.rect.w - 1 - x)
    [{ owner := fun _ _ => .frame, view := v, drawing := .fill a.rect st },
      { owner := fun _ _ => .frame, view := v, drawing := .box a.rect b st },
      { owner := fun _ _ => .heading, view := v
        drawing := .text x (a.rect.y + 1) (elideToCells kHeading room (text "…"))
          { st with fg := th.accent } }] ++
    a.choices.zipIdx.map fun (c, i) =>
      { owner := fun _ _ => .choice i, view := v
        drawing := .text x (a.rowOf i) (elideToCells c.title room (text "…")) st }

/-- The window under a place, or 0. Neither the border nor the heading is a choice. -/
def hit (x y : Int) : WindowId :=
  if ¬ a.isOpen then 0
  else if x ≤ a.rect.x ∨ x ≥ a.rect.x + a.rect.w - 1 then 0
  else
    match a.choices.zipIdx.find? fun c => y = a.rowOf c.2 with
    | some c => c.1.win
    | none => 0

variable {a} {free : Rect} {choices : List SnapCandidate}

/-- **An open proposal** lists the first candidates, as many as there are rows for. -/
structure Opened (free : Rect) (choices : List SnapCandidate) (a : SnapAssist) : Prop where
  within : a.rect.Within free
  listed : a.choices = choices.take (free.h - 5).toNat
  some : a.choices ≠ []
  rows : a.rect.h = a.choices.length + kChromeRows
  cols : kMinCols ≤ a.rect.w

theorem opened_of_isOpen (hopen : (SnapAssist.open free choices).isOpen = true) :
    Opened free choices (SnapAssist.open free choices) := by
  unfold SnapAssist.open at hopen ⊢
  simp only at hopen ⊢
  generalize List.foldl _ _ choices = widest at hopen ⊢
  generalize hw : min (free.w - 2) (widest + 4) = w at hopen ⊢
  generalize hrows : min (choices.length : Int) (free.h - 2 - kChromeRows) = rows at hopen ⊢
  split at hopen
  · cases hopen
  next hfits =>
  obtain ⟨hsome, hwide⟩ := not_or.1 hfits
  have hlen : (choices.take rows.toNat).length = rows.toNat := by
    rw [List.length_take]
    omega
  rw [if_neg hfits]
  unfold kChromeRows at hrows ⊢
  unfold kMinCols at hwide
  refine ⟨?_, ?_, fun hnil => ?_, ?_, Int.not_lt.1 hwide⟩
  · have hx : (free.w - w).tdiv 2 = (free.w - w) / 2 := Int.tdiv_eq_ediv_of_nonneg (by omega)
    have hy : (free.h - (rows + 3)).tdiv 2 = (free.h - (rows + 3)) / 2 :=
      Int.tdiv_eq_ediv_of_nonneg (by omega)
    simp only [Rect.Within, hx, hy]
    omega
  · -- the list is cut where the rows end, if it gets there
    rw [List.take_eq_take_iff]
    omega
  · simp only at hnil
    rw [hnil, List.length_nil] at hlen
    omega
  · show rows + 3 = ((choices.take rows.toNat).length : Int) + 3
    rw [hlen]
    omega

/-- There is no proposal when nobody can be proposed, or when the half is too small. -/
theorem isOpen_of_room (hsome : choices ≠ []) (hw : 14 ≤ free.w) (hh : 6 ≤ free.h) :
    (SnapAssist.open free choices).isOpen = true := by
  have hheading : textCells kHeading = 12 := by decide +kernel
  have hwidest : ∀ (l : List SnapCandidate) (n : Int),
      n ≤ l.foldl (fun widest c => max widest (textCells c.title : Int)) n := by
    intro l
    induction l with
    | nil => exact fun n => le_refl n
    | cons c l ih => exact fun n => (le_max_left n _).trans (ih _)
  have hmost := hwidest choices (textCells kHeading)
  have hlen := List.length_pos_iff.2 hsome
  have hfits : ¬ (min (choices.length : Int) (free.h - 2 - kChromeRows) ≤ 0 ∨
      min (free.w - 2) (choices.foldl (fun widest c => max widest (textCells c.title : Int))
        (textCells kHeading) + 4) < kMinCols) := by
    unfold kChromeRows kMinCols
    rw [hheading] at hmost ⊢
    push_cast at hmost ⊢
    omega
  unfold SnapAssist.open
  simp only
  rw [if_neg hfits]

/-- There is nobody in a proposal that is closed. -/
theorem choices_of_closed (h : (SnapAssist.open free choices).isOpen = false) :
    (SnapAssist.open free choices).choices = [] := by
  unfold SnapAssist.open at h ⊢
  simp only at h ⊢
  split at h
  · next hclosed => rw [if_pos hclosed]
  · cases h

/-- Who is named by a place is a choice. -/
theorem exists_of_hit {x y : Int} (h : a.hit x y ≠ 0) :
    a.isOpen = true ∧ ∃ c ∈ a.choices, a.hit x y = c.win := by
  unfold hit at h ⊢
  split at h
  · exact absurd rfl h
  next hopen =>
  split at h
  · exact absurd rfl h
  next hinner =>
  rw [if_neg hopen, if_neg hinner]
  split at h
  · next c hfind =>
    obtain ⟨c, i⟩ := c
    have hc := List.mem_zipIdx_iff_getElem?.1 (List.mem_of_find?_eq_some hfind)
    exact ⟨by simpa using hopen, c, List.mem_of_getElem? hc, rfl⟩
  · exact absurd rfl h

theorem rowOf_inj {i j : Nat} (h : a.rowOf i = a.rowOf j) : i = j := by
  unfold rowOf at h
  omega

/-- What is on the row of a choice, between the borders, is that choice. -/
theorem hit_row (hopen : a.isOpen = true) {i : Nat} {c : SnapCandidate} (hc : a.choices[i]? = some c)
    {x : Int} (hleft : a.rect.x < x) (hright : x < a.rect.x + a.rect.w - 1) :
    a.hit x (a.rowOf i) = c.win := by
  have hinner : ¬ (x ≤ a.rect.x ∨ x ≥ a.rect.x + a.rect.w - 1) := by omega
  have hmem : (c, i) ∈ a.choices.zipIdx := List.mem_zipIdx_iff_getElem?.2 hc
  unfold hit
  rw [if_neg (by simpa using hopen), if_neg hinner]
  cases hfind : a.choices.zipIdx.find? fun c => a.rowOf i = a.rowOf c.2 with
  | none =>
      have hnot := List.find?_eq_none.1 hfind _ hmem
      simp at hnot
  | some d =>
      obtain ⟨c', j⟩ := d
      have hrow : a.rowOf i = a.rowOf j := by simpa using List.find?_some hfind
      have hmem' := List.mem_zipIdx_iff_getElem?.1 (List.mem_of_find?_eq_some hfind)
      simp only at hmem'
      rw [← rowOf_inj hrow, hc] at hmem'
      obtain rfl := Option.some.inj hmem'
      rfl

/-- **A click on a title one sees** names its window. -/
theorem hit_of_painted {cols rows cx cy : Nat} {th : DialogTheme} {b : Border} {i : Nat}
    (h : Stroke.lastPainter false cols rows (a.draw (View.screen cols rows) th b) cx cy =
      some (.choice i)) :
    ∃ c, a.choices[i]? = some c ∧ a.hit cx cy = c.win := by
  have hmark : ((text "…").getD 0 0).toNat &&& 0xC0 ≠ 0x80 := by
    rw [show "…" = String.ofList ['…'] from rfl, text_ofList]
    decide
  unfold draw at h
  split at h
  · cases h
  next hopen =>
  have hopen : a.isOpen = true := by simpa using hopen
  simp only at h
  obtain ⟨k, hk, howner⟩ := Option.map_eq_some_iff.1 h
  have hink : (cx, cy) ∈ k.ink false cols rows := by simpa using List.find?_some hk
  have hmem := List.mem_reverse.1 (List.mem_of_find?_eq_some hk)
  rcases List.mem_append.1 hmem with hframe | hchoice
  · simp only [List.mem_cons, List.not_mem_nil, or_false] at hframe
    rcases hframe with rfl | rfl | rfl
    · cases howner
    · cases howner
    · cases howner
  obtain ⟨⟨c, j⟩, hc, rfl⟩ := List.mem_map.1 hchoice
  obtain rfl := AssistPart.choice.inj howner
  have hc := List.mem_zipIdx_iff_getElem?.1 hc
  simp only at hc
  refine ⟨c, hc, ?_⟩
  obtain ⟨hrow, hcol, hend⟩ := View.textInk_inside _ hink
  have hfits := (elided_elideToCells c.title (max 0 (a.rect.x + a.rect.w - 1 - (a.rect.x + 2))) hmark).fits
  simp only [textCells] at hfits
  simp only [View.screen, zero_add] at hrow hcol hend
  rw [hrow]
  exact hit_row hopen hc (by omega) (by omega)

end SnapAssist

end Sshos.Shell
