import Mathlib.Data.List.Basic

/-!
# Sshos.Lib.History

The **history** of a browser: the places one comes from, where one is, and the places one came
back from. Seen from outside it is a line of places and a cursor on it: going back or forward
moves the cursor, and a visit cuts the line after it. A move is made only when the place it
leads to can be had.
-/

namespace Sshos.Lib

universe u

structure History (α : Type u) where
  /-- The nearest first. -/
  back : List α := []
  current : α
  /-- The nearest first. -/
  forward : List α := []
  deriving Repr, DecidableEq

namespace History

variable {α : Type u} (h : History α)

inductive Move (α : Type u)
  | visit (a : α)
  | back
  | forward
  deriving Repr, DecidableEq

def visit (a : α) : History α := { back := h.current :: h.back, current := a }

def goBack : History α :=
  match h.back with
  | [] => h
  | a :: rest => { back := rest, current := a, forward := h.current :: h.forward }

def goForward : History α :=
  match h.forward with
  | [] => h
  | a :: rest => { back := h.current :: h.back, current := a, forward := rest }

def move : Move α → History α
  | .visit a => h.visit a
  | .back => h.goBack
  | .forward => h.goForward

/-! ### The line and the cursor -/

/-- The line of places, from the oldest. -/
def trail : List α := h.back.reverse ++ h.current :: h.forward

/-- How far on the line one is. -/
def place : Nat := h.back.length

theorem trail_goBack : h.goBack.trail = h.trail := by
  unfold goBack trail
  cases hback : h.back with
  | nil => simp [hback]
  | cons a rest => simp

theorem trail_goForward : h.goForward.trail = h.trail := by
  unfold goForward trail
  cases hforward : h.forward with
  | nil => simp [hforward]
  | cons a rest => simp

variable {h}

theorem place_goBack (hback : h.back ≠ []) : h.goBack.place + 1 = h.place := by
  obtain ⟨a, rest, heq⟩ := List.exists_cons_of_ne_nil hback
  simp [goBack, place, heq]

theorem place_goForward (hforward : h.forward ≠ []) : h.goForward.place = h.place + 1 := by
  obtain ⟨a, rest, heq⟩ := List.exists_cons_of_ne_nil hforward
  simp [goForward, place, heq]

/-- One finds back where one was. -/
theorem goForward_goBack (hback : h.back ≠ []) : h.goBack.goForward = h := by
  obtain ⟨a, rest, heq⟩ := List.exists_cons_of_ne_nil hback
  cases h
  simp only at heq
  simp [goBack, goForward, heq]

/-! ### Moves that may fail -/

/-- Where a move leads, if it leads somewhere else. -/
def target [DecidableEq α] (h : History α) : Move α → Option α
  | .visit a => if a = h.current then none else some a
  | .back => h.back.head?
  | .forward => h.forward.head?

@[simp] theorem target_visit [DecidableEq α] {h : History α} {a b : α} :
    h.target (.visit a) = some b ↔ a ≠ h.current ∧ a = b := by
  simp [target]

/-- One comes back to where one is. -/
theorem target_forward_goBack [DecidableEq α] {h : History α} (hback : h.back ≠ []) :
    h.goBack.target .forward = some h.current := by
  obtain ⟨a, rest, heq⟩ := List.exists_cons_of_ne_nil hback
  simp [target, goBack, heq]

/-- A move is made when its target can be had; some inputs ask for none. -/
def attempt [DecidableEq α] (h : History α) (i : Option (Move α) × (α → Bool)) : History α :=
  match i.1 with
  | none => h
  | some m => if (h.target m).any i.2 then h.move m else h

theorem attempt_of_target [DecidableEq α] {h : History α} {m : Move α} {a : α} {can : α → Bool}
    (htarget : h.target m = some a) (hcan : can a = true) :
    h.attempt (some m, can) = h.move m := by
  simp [attempt, htarget, hcan]

end History

end Sshos.Lib
