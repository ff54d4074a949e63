import Mathlib.Data.List.Basic
import Mathlib.Tactic.Common

/-!
# Sshos.Lib.Lists

Facts about lists out of which one element is taken, or into which one is put.
-/

namespace Sshos.Lib

universe u

variable {α : Type u}

/-- Moving the first element with a property to the end is a permutation. -/
theorem perm_eraseP_append {p : α → Bool} {xs : List α} {a : α} (h : xs.find? p = some a) :
    (xs.eraseP p ++ [a]).Perm xs := by
  obtain ⟨ha, before, after, heq, hbefore⟩ := List.find?_eq_some_iff_append.1 h
  have herase : xs.eraseP p = before ++ after := by
    rw [heq, List.eraseP_append_right _ fun b hb => by simpa using hbefore b hb,
      List.eraseP_cons_of_pos ha]
  rw [herase, heq, List.append_assoc]
  exact (List.perm_append_singleton a after).append_left before

/-- An element goes in right after the first of a list's end. -/
theorem insertIdx_length_succ (xs : List α) (x y : α) (zs : List α) :
    (xs ++ x :: zs).insertIdx (xs.length + 1) y = xs ++ x :: y :: zs := by
  induction xs with
  | nil => rfl
  | cons x' xs ih =>
      rw [List.cons_append, List.length_cons, List.insertIdx_succ_cons, ih, List.cons_append]

theorem eraseIdx_length_succ (xs : List α) (x y : α) (zs : List α) :
    (xs ++ x :: y :: zs).eraseIdx (xs.length + 1) = xs ++ x :: zs := by
  induction xs with
  | nil => rfl
  | cons x' xs ih =>
      rw [List.cons_append, List.length_cons, List.eraseIdx_cons_succ, ih, List.cons_append]

/-- What stands after a list without it is found there. -/
theorem idxOf?_append_cons [BEq α] [LawfulBEq α] {a : α} {l : List α} (h : a ∉ l) (r : List α) :
    (l ++ a :: r).idxOf? a = some l.length := by
  induction l with
  | nil => simp [List.idxOf?_cons]
  | cons b l ih =>
      have hne := List.ne_of_not_mem_cons h
      have hrest := List.not_mem_of_not_mem_cons h
      rw [List.cons_append, List.idxOf?_cons, if_neg (mt beq_iff_eq.1 (Ne.symm hne)), ih hrest]
      rfl

/-- What is found is the same from the end, if there is only one. -/
theorem find?_reverse_of_unique {p : α → Bool} {l : List α}
    (h : ∀ a ∈ l, ∀ b ∈ l, p a → p b → a = b) : l.reverse.find? p = l.find? p := by
  cases hfound : l.find? p with
  | none =>
      rw [List.find?_eq_none] at hfound ⊢
      exact fun a ha => hfound a (List.mem_reverse.1 ha)
  | some a =>
      have hmem := List.mem_of_find?_eq_some hfound
      have ha := List.find?_some hfound
      cases hlast : l.reverse.find? p with
      | none => exact absurd ha (List.find?_eq_none.1 hlast a (List.mem_reverse.2 hmem))
      | some b =>
          have hmem' := List.mem_reverse.1 (List.mem_of_find?_eq_some hlast)
          rw [h a hmem b hmem' ha (List.find?_some hlast)]

end Sshos.Lib
