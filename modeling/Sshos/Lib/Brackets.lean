import Mathlib.Data.List.Basic

/-!
# Sshos.Lib.Brackets

**Alternating brackets** in a list of events: an opening and a closing bracket in turn,
an opening one first, and what belongs inside only between the two.
-/

namespace Sshos.Lib

/-- How an event stands to the brackets. `outer` events stand anywhere. -/
inductive Mark where
  | opening | closing | inner | outer
  deriving Repr, DecidableEq

/-- Whether a bracket is open after the events, or none when one of them is out of
place. -/
def bracketAfter : Bool → List Mark → Option Bool
  | isOpen, [] => some isOpen
  | isOpen, .opening :: ms => if isOpen then none else bracketAfter true ms
  | isOpen, .closing :: ms => if isOpen then bracketAfter false ms else none
  | isOpen, .inner :: ms => if isOpen then bracketAfter true ms else none
  | isOpen, .outer :: ms => bracketAfter isOpen ms

/-- No event is out of place. -/
def Alternates (ms : List Mark) : Prop := (bracketAfter false ms).isSome

instance (ms : List Mark) : Decidable (Alternates ms) :=
  inferInstanceAs (Decidable ((bracketAfter false ms).isSome = true))

theorem bracketAfter_append (isOpen : Bool) (ms ns : List Mark) :
    bracketAfter isOpen (ms ++ ns) = (bracketAfter isOpen ms).bind (bracketAfter · ns) := by
  induction ms generalizing isOpen with
  | nil => rfl
  | cons m ms ih =>
      cases m <;> cases isOpen <;> simp only [List.cons_append, bracketAfter, ih] <;> rfl

end Sshos.Lib
