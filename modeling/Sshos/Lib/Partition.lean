import Mathlib.Data.Set.Lattice
import Mathlib.Data.List.Perm.Basic
import Mathlib.Order.CompletePartialOrder

/-!
# Sshos.Lib.Partition

A list of sets that **partitions** a set: the parts share nothing, and leave nothing out. A part
may be empty. A partition is refined by partitioning its parts.
-/

namespace Sshos.Lib

universe u

variable {α : Type u}

structure IsPartition (parts : List (Set α)) (whole : Set α) : Prop where
  disjoint : parts.Pairwise Disjoint
  cover : ∀ a, a ∈ whole ↔ ∃ s ∈ parts, a ∈ s

namespace IsPartition

variable {parts parts' : List (Set α)} {s t whole : Set α}

theorem nil : IsPartition [] (∅ : Set α) where
  disjoint := List.Pairwise.nil
  cover := by simp

theorem singleton (s : Set α) : IsPartition [s] s where
  disjoint := List.pairwise_singleton _ _
  cover := by simp

/-- Two parts, stated point by point. -/
theorem pair (happart : ∀ a ∈ s, a ∉ t) (hcover : ∀ a, a ∈ whole ↔ a ∈ s ∨ a ∈ t) :
    IsPartition [s, t] whole where
  disjoint := List.pairwise_pair.2 (Set.disjoint_left.2 fun a hs ht => happart a hs ht)
  cover := by simpa using hcover

theorem subset (h : IsPartition parts whole) (hs : s ∈ parts) : s ⊆ whole :=
  fun a ha => (h.cover a).2 ⟨s, hs, ha⟩

/-- The order of the parts does not matter. -/
theorem perm (h : IsPartition parts whole) (hperm : parts.Perm parts') :
    IsPartition parts' whole where
  disjoint := (hperm.pairwise_iff fun h => h.symm).1 h.disjoint
  cover := by
    intro a
    simp only [h.cover, hperm.mem_iff]

/-- Each of two parts is partitioned in its turn. -/
theorem append (h : IsPartition [s, t] whole) (hs : IsPartition parts s)
    (ht : IsPartition parts' t) : IsPartition (parts ++ parts') whole where
  disjoint := by
    refine List.pairwise_append.2 ⟨hs.disjoint, ht.disjoint, fun p hp q hq => ?_⟩
    exact (List.pairwise_pair.1 h.disjoint).mono (hs.subset hp) (ht.subset hq)
  cover := by
    intro a
    rw [h.cover]
    simp only [List.mem_cons, List.not_mem_nil, or_false, exists_eq_left,
      List.mem_append, or_and_right, exists_or, ← hs.cover, ← ht.cover]

end IsPartition

end Sshos.Lib
