import Mathlib.Data.List.Basic
import Mathlib.Tactic.Common

/-!
# Sshos.Lib.Ring

**Rings**: a list of slots read from a head on, around its end. A new element goes to the
slot behind the last one, or takes the place of the oldest, which the head then leaves.
-/

namespace Sshos.Lib

universe u

variable {α : Type u} {slots : List α} {head : Nat}

/-- The slot `i` places from the head. -/
def ringAt (slots : List α) (head i : Nat) : Option α := slots[(head + i) % slots.length]?

/-- A place less than one turn away is reached with at most one wrap. -/
theorem ring_mod {c i : Nat} (hhead : head < c) (hi : i < c) :
    (head + i) % c = if head + i < c then head + i else head + i - c := by
  split
  · rename_i hin
    exact Nat.mod_eq_of_lt hin
  · rename_i hover
    rw [Nat.mod_eq_sub_mod (by omega), Nat.mod_eq_of_lt (by omega)]

theorem ringAt_set (x : α) (k i : Nat) (hk : k < slots.length) :
    ringAt (slots.set k x) head i =
      if k = (head + i) % slots.length then some x else ringAt slots head i := by
  unfold ringAt
  rw [List.length_set, List.getElem?_set, if_pos hk]

/-- Behind the last element: the others stay. -/
theorem ringAt_set_next {size : Nat} (hhead : head < slots.length) (hsize : size < slots.length)
    (x : α) {i : Nat} (hi : i ≤ size) :
    ringAt (slots.set ((head + size) % slots.length) x) head i =
      if i = size then some x else ringAt slots head i := by
  rw [ringAt_set x _ i (Nat.mod_lt _ (by omega)), ring_mod hhead hsize, ring_mod hhead (by omega)]
  by_cases h : i = size
  · rw [if_pos h, h, if_pos rfl]
  · rw [if_neg h, if_neg]
    split <;> split <;> omega

/-- In the place of the oldest: the others move one place down. -/
theorem ringAt_set_oldest (hhead : head < slots.length) (x : α) {i : Nat} (hi : i < slots.length) :
    ringAt (slots.set head x) ((head + 1) % slots.length) i =
      if i + 1 = slots.length then some x else ringAt slots head (i + 1) := by
  have hnext : (head + 1) % slots.length = if head + 1 < slots.length then head + 1 else 0 := by
    split
    · rename_i hin
      exact Nat.mod_eq_of_lt hin
    · rename_i hover
      rw [show head + 1 = slots.length by omega, Nat.mod_self]
  have hplace : ((head + 1) % slots.length + i) % slots.length = (head + (i + 1)) % slots.length := by
    rw [Nat.mod_add_mod]
    congr 1
    omega
  rw [ringAt_set x head i hhead, hplace]
  by_cases h : i + 1 = slots.length
  · rw [if_pos h, h, Nat.add_mod_right, Nat.mod_eq_of_lt hhead, if_pos rfl]
  · rw [if_neg h, ring_mod hhead (by omega), if_neg]
    · unfold ringAt
      rw [hplace]
    · split <;> omega

end Sshos.Lib
