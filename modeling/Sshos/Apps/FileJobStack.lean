import Sshos.Apps.FileJobSteps

/-!
# Sshos.Apps.FileJobStack

**The stack of a file job.** What is on it never overlaps: nothing on it is at or below a thing
that is still to be walked. So each thing is taken once, and what is done to one leaves the
others as they were.
-/

namespace Sshos.Apps

open Sshos.Lib (Bytes)
open Disk

/-- Neither is at or below the other, if the other is to be walked. -/
def Clear (x y : Item) : Prop :=
  (x.rmdirOnly = false → ¬ x.src <+: y.src) ∧ (y.rmdirOnly = false → ¬ y.src <+: x.src)

/-- Nothing on the stack overlaps. -/
abbrev Stacked (pending : List Item) : Prop := pending.Pairwise Clear

theorem not_concat_prefix {p : Path} {n : Bytes} : ¬ p ++ [n] <+: p := by
  intro h
  have hlength := h.length_le
  rw [List.length_append, List.length_singleton] at hlength
  exact Nat.not_succ_le_self _ hlength

/-- Two names in one place. -/
theorem not_concat_prefix_concat {p : Path} {n m : Bytes} (hne : n ≠ m) : ¬ p ++ [n] <+: p ++ [m] := by
  intro h
  rw [List.prefix_append_right_inj] at h
  exact hne (List.cons_prefix_cons.1 h).1

/-- What a directory holds takes its place on the stack. -/
theorem Stacked.walk {it : Item} {rest : List Item} {kind : FileOp} {names : List Bytes}
    (h : Stacked (it :: rest)) (hmark : it.rmdirOnly = false) (hnames : names.Nodup) :
    Stacked (inside kind it names ++ (marks kind it ++ rest)) := by
  obtain ⟨hit, hrest⟩ := List.pairwise_cons.1 h
  have hinside : (inside kind it names).Pairwise Clear := by
    unfold inside
    rw [List.pairwise_reverse, List.pairwise_map]
    refine hnames.imp ?_
    intro n m hne
    exact ⟨fun _ => not_concat_prefix_concat hne.symm, fun _ => not_concat_prefix_concat hne⟩
  have hmarks : Stacked (marks kind it ++ rest) := by
    refine List.pairwise_append.2 ⟨?_, hrest, ?_⟩
    · unfold marks
      split
      · exact List.Pairwise.nil
      · exact List.pairwise_singleton _ _
    · intro x hx y hy
      obtain ⟨-, rfl⟩ := mem_marks.1 hx
      exact ⟨nofun, (hit y hy).2⟩
  refine List.pairwise_append.2 ⟨hinside, hmarks, ?_⟩
  intro x hx y hy
  obtain ⟨n, -, rfl⟩ := mem_inside.1 hx
  rcases List.mem_append.1 hy with hy | hy
  · obtain ⟨-, rfl⟩ := mem_marks.1 hy
    exact ⟨fun _ => not_concat_prefix, nofun⟩
  · obtain ⟨hbelow, habove⟩ := hit y hy
    constructor
    · intro _ hpre
      exact hbelow hmark ((List.prefix_append _ _).trans hpre)
    · intro hy hpre
      rcases List.prefix_concat_iff.1 hpre with heq | hpre
      · exact hbelow hmark (heq ▸ List.prefix_append _ _)
      · exact habove hy hpre

end Sshos.Apps
