import Mathlib.Data.List.Basic
import Mathlib.Tactic.Common

/-!
# Sshos.Lib.Lines

The **lines** of a text. A separator ends a line; the last line may lack its own, and a
separator at the end opens no further line.
-/

namespace Sshos.Lib

universe u

variable {α : Type u} [DecidableEq α]

def lines (sep : α) : List α → List (List α)
  | [] => []
  | a :: as =>
      if a = sep then [] :: lines sep as
      else
        match lines sep as with
        | [] => [[a]]
        | l :: ls => (a :: l) :: ls

/-- Lines with a separator after each. -/
def unlines (sep : α) (ls : List (List α)) : List α := ls.flatMap (· ++ [sep])

variable {sep : α}

@[simp] theorem lines_nil : lines sep [] = [] := rfl

@[simp] theorem lines_cons_sep (as : List α) : lines sep (sep :: as) = [] :: lines sep as := if_pos rfl

theorem lines_cons_of_ne {a : α} (h : a ≠ sep) (as : List α) : lines sep (a :: as) =
    match lines sep as with
    | [] => [[a]]
    | l :: ls => (a :: l) :: ls := if_neg h

/-- A line and its separator are read first. -/
theorem lines_append_sep {l : List α} (h : sep ∉ l) (rest : List α) :
    lines sep (l ++ sep :: rest) = l :: lines sep rest := by
  induction l with
  | nil => exact lines_cons_sep rest
  | cons a l ih =>
      have ha : a ≠ sep := fun heq => h (heq ▸ List.mem_cons_self)
      rw [List.cons_append, lines_cons_of_ne ha, ih fun hl => h (List.mem_cons_of_mem a hl)]

theorem lines_of_not_mem {l : List α} (h : sep ∉ l) (hne : l ≠ []) : lines sep l = [l] := by
  induction l with
  | nil => exact absurd rfl hne
  | cons a l ih =>
      have ha : a ≠ sep := fun heq => h (heq ▸ List.mem_cons_self)
      rw [lines_cons_of_ne ha]
      cases l with
      | nil => rfl
      | cons b l => rw [ih (fun hl => h (List.mem_cons_of_mem a hl)) (List.cons_ne_nil b l)]

/-- **What was written line by line is read line by line.** -/
theorem lines_unlines {ls : List (List α)} (h : ∀ l ∈ ls, sep ∉ l) (rest : List α) :
    lines sep (unlines sep ls ++ rest) = ls ++ lines sep rest := by
  induction ls with
  | nil => rfl
  | cons l ls ih =>
      have hsplit : unlines sep (l :: ls) ++ rest = l ++ sep :: (unlines sep ls ++ rest) := by
        simp [unlines]
      rw [hsplit, lines_append_sep (h l List.mem_cons_self),
        ih fun l' hl' => h l' (List.mem_cons_of_mem l hl'), List.cons_append]

theorem lines_eq_nil_iff {as : List α} : lines sep as = [] ↔ as = [] := by
  cases as with
  | nil => simp
  | cons a as =>
      refine iff_of_false ?_ (List.cons_ne_nil a as)
      unfold lines
      split
      · exact List.cons_ne_nil _ _
      · split <;> exact List.cons_ne_nil _ _

/-- **What holds of every part of a text** that a separator ends holds of its lines. -/
theorem forall_mem_lines {P : List α → Prop} (hcut : ∀ l rest, P (l ++ sep :: rest) → P l ∧ P rest)
    {as : List α} (h : P as) : ∀ l ∈ lines sep as, P l := by
  induction hn : as.length using Nat.strongRecOn generalizing as with
  | ind n ih =>
      by_cases hsep : sep ∈ as
      · obtain ⟨l, rest, rfl, hl⟩ := List.eq_append_cons_of_mem hsep
        obtain ⟨hfirst, hrest⟩ := hcut l rest h
        rw [lines_append_sep hl, List.forall_mem_cons]
        refine ⟨hfirst, ih rest.length ?_ hrest rfl⟩
        rw [← hn, List.length_append, List.length_cons]
        omega
      · by_cases hnil : as = []
        · simp [hnil]
        · rw [lines_of_not_mem hsep hnil, List.forall_mem_singleton]
          exact h

/-- **What was read line by line is put together again**, with the separators between them,
and with the last one if there was one. -/
theorem intercalate_lines {as : List α} (hne : as ≠ []) :
    [sep].intercalate (lines sep as) ++ (if as.getLast? = some sep then [sep] else []) = as := by
  induction as with
  | nil => exact absurd rfl hne
  | cons a as ih =>
      cases as with
      | nil =>
          by_cases ha : a = sep
          · rw [ha, lines_cons_sep]
            simp
          · rw [lines_cons_of_ne ha]
            simp [ha]
      | cons b bs =>
          have hlast : (a :: b :: bs).getLast? = (b :: bs).getLast? := by simp [List.getLast?_cons_cons]
          have hrest := ih (List.cons_ne_nil b bs)
          obtain ⟨l, ls, hlines⟩ := List.exists_cons_of_ne_nil (mt lines_eq_nil_iff.1 (List.cons_ne_nil b bs))
          rw [hlast]
          by_cases ha : a = sep
          · rw [ha, lines_cons_sep, hlines]
            rw [hlines] at hrest
            simpa [List.intercalate] using hrest
          · rw [lines_cons_of_ne ha, hlines]
            rw [hlines] at hrest
            simp only
            cases ls with
            | nil => simpa [List.intercalate] using hrest
            | cons l' ls => simpa [List.intercalate] using hrest

/-! ### Pieces between separators -/

/-- There is one piece more than there are separators. -/
theorem length_splitOn (sep : α) (as : List α) : (as.splitOn sep).length = as.count sep + 1 := by
  induction as with
  | nil => rfl
  | cons a as ih =>
      rw [List.splitOn_cons_eq_if_modifyHead, List.count_cons]
      split
      · rw [List.length_cons, ih]
      · rw [List.length_modifyHead, ih]

/-- No piece has the separator in it. -/
theorem not_mem_of_mem_splitOn {as l : List α} : l ∈ as.splitOn sep → sep ∉ l := by
  induction as generalizing l with
  | nil =>
      intro hl
      obtain rfl := List.mem_singleton.1 hl
      exact List.not_mem_nil
  | cons a as ih =>
      intro hl
      rw [List.splitOn_cons_eq_if_modifyHead] at hl
      split at hl
      · rcases List.mem_cons.1 hl with rfl | hrest
        · exact List.not_mem_nil
        · exact ih hrest
      next ha =>
        obtain ⟨m, ms, hms⟩ := List.exists_cons_of_ne_nil (List.splitOn_ne_nil sep as)
        rw [hms] at hl ih
        rcases List.mem_cons.1 hl with rfl | hrest
        · intro hmem
          rcases List.mem_cons.1 hmem with rfl | hin
          · exact ha (beq_self_eq_true _)
          · exact ih List.mem_cons_self hin
        · exact ih (List.mem_cons_of_mem m hrest)

/-- **What holds of every part of a text** around a separator holds of its pieces. -/
theorem forall_mem_splitOn {P : List α → Prop} (hcut : ∀ l rest, P (l ++ sep :: rest) → P l ∧ P rest)
    {as : List α} (h : P as) : ∀ l ∈ as.splitOn sep, P l := by
  induction hn : as.length using Nat.strongRecOn generalizing as with
  | ind n ih =>
      by_cases hsep : sep ∈ as
      · obtain ⟨l, rest, rfl, hl⟩ := List.eq_append_cons_of_mem hsep
        obtain ⟨hfirst, hrest⟩ := hcut l rest h
        rw [List.splitOn_append_cons_self_of_not_mem hl, List.forall_mem_cons]
        refine ⟨hfirst, ih rest.length ?_ hrest rfl⟩
        rw [← hn, List.length_append, List.length_cons]
        omega
      · rw [List.splitOn_eq_singleton hsep, List.forall_mem_singleton]
        exact h

end Sshos.Lib
