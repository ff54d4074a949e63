import Mathlib.Order.Basic
import Sshos.Render.Width

/-!
# Sshos.Render.Elide

**Texts cut to a number of columns**, whatever their bytes and whatever the mark. A text is cut
between two of its characters, as far as their columns leave room for the mark; and the mark
does not make what stands before it wider, since all it can swallow is malformed bytes.
-/

namespace Sshos.Render

open Sshos.Common (utf8Decode utf8Decode_le utf8Decode_pos)
open Sshos.Lib (Bytes)

/-- Where the first `n` characters of a text end, and the columns they take. -/
def cutAt (s : Bytes) : (n : Nat) → Nat × Nat
  | 0 => (0, 0)
  | n + 1 =>
      let k := (cutAt s n).1
      if k < s.length then
        (k + (utf8Decode s k).1, (cutAt s n).2 + charWidth false (utf8Decode s k).2)
      else cutAt s n

/-- Byte `k` stands between two characters of the text, `w` columns from its beginning. -/
def IsCut (s : Bytes) (k w : Nat) : Prop := ∃ n, cutAt s n = (k, w)

variable {s mark : Bytes} {k k' w w' n m : Nat} {keep cells : Int}

theorem cutAt_succ (h : cutAt s n = (k, w)) (hk : k < s.length) :
    cutAt s (n + 1) = (k + (utf8Decode s k).1, w + charWidth false (utf8Decode s k).2) := by
  rw [cutAt, h]
  exact if_pos hk

theorem cutAt_succ_end (h : s.length ≤ (cutAt s n).1) : cutAt s (n + 1) = cutAt s n :=
  if_neg (Nat.not_lt.2 h)

theorem cutAt_succ_le (s : Bytes) (n : Nat) :
    (cutAt s n).1 ≤ (cutAt s (n + 1)).1 ∧ (cutAt s n).2 ≤ (cutAt s (n + 1)).2 := by
  rcases Nat.lt_or_ge (cutAt s n).1 s.length with hk | hend
  · rw [cutAt_succ rfl hk]
    exact ⟨Nat.le_add_right _ _, Nat.le_add_right _ _⟩
  · rw [cutAt_succ_end hend]
    exact ⟨Nat.le_refl _, Nat.le_refl _⟩

/-- More characters end later, and take no fewer columns. -/
theorem cutAt_mono (s : Bytes) (h : n ≤ m) :
    (cutAt s n).1 ≤ (cutAt s m).1 ∧ (cutAt s n).2 ≤ (cutAt s m).2 := by
  induction h with
  | refl => exact ⟨Nat.le_refl _, Nat.le_refl _⟩
  | step _ ih =>
      obtain ⟨hplace, hwidth⟩ := cutAt_succ_le s _
      exact ⟨ih.1.trans hplace, ih.2.trans hwidth⟩

theorem cutAt_le (s : Bytes) (n : Nat) : (cutAt s n).1 ≤ s.length := by
  induction n with
  | zero => exact Nat.zero_le _
  | succ n ih =>
      rcases Nat.lt_or_ge (cutAt s n).1 s.length with hk | hend
      · rw [cutAt_succ rfl hk]
        exact utf8Decode_le hk
      · rw [cutAt_succ_end hend]
        exact ih

/-- **What is kept** ends between two characters, and the next one would not hold. -/
theorem isCut_keepTo (fuel : Nat) : ∀ {n i w : Nat}, cutAt s n = (i, w) → (w : Int) ≤ keep →
    s.length - i ≤ fuel → ∃ m w', cutAt s m = (keepTo s keep fuel i w, w') ∧ (w' : Int) ≤ keep ∧
      (keepTo s keep fuel i w < s.length →
        keep < w' + charWidth false (utf8Decode s (keepTo s keep fuel i w)).2) := by
  induction fuel with
  | zero =>
      intro n i w hcut hw hfuel
      refine ⟨n, w, hcut, hw, fun hlt => ?_⟩
      simp only [keepTo] at hlt
      omega
  | succ fuel ih =>
      intro n i w hcut hw hfuel
      rcases Nat.lt_or_ge i s.length with hi | hend
      · by_cases hover : (w : Int) + charWidth false (utf8Decode s i).2 > keep
        · rw [keepTo_stop hi hover]
          exact ⟨n, w, hcut, hw, fun _ => hover⟩
        · have hpos := utf8Decode_pos s i
          have hstep := ih (cutAt_succ hcut hi) (by push_cast; omega) (by omega)
          rw [keepTo_step hi hover]
          push_cast at hstep
          exact hstep
      · rw [keepTo_end hend]
        exact ⟨n, w, hcut, hw, fun hlt => absurd hlt (Nat.not_lt.2 hend)⟩

/-- No later cut leaves the room that is left by the last one that does. -/
theorem IsCut.le_of_next (hcut : cutAt s m = (k, w))
    (hnext : k < s.length → keep < w + charWidth false (utf8Decode s k).2) (h : IsCut s k' w')
    (hw' : (w' : Int) ≤ keep) : k' ≤ k := by
  obtain ⟨n, hn⟩ := h
  rcases Nat.lt_or_ge m n with hlt | hle
  · have hin := cutAt_le s n
    rw [hn] at hin
    rcases Nat.lt_or_ge k s.length with hk | hend
    · have hwide := (cutAt_mono s (Nat.succ_le_of_lt hlt)).2
      rw [cutAt_succ hcut hk, hn] at hwide
      have hover := hnext hk
      simp only at hwide
      omega
    · exact hin.trans hend
  · have hplace := (cutAt_mono s hle).1
    rw [hn, hcut] at hplace
    exact hplace

/-- What a text cut to a number of columns comes to. -/
structure Elided (s mark : Bytes) (cells : Int) (out : Bytes) : Prop where
  fits : (textCells out : Int) ≤ max cells 0
  whole : 0 < cells → (textCells s : Int) ≤ cells → out = s
  /-- The columns of a prefix are those its characters have in the whole text. -/
  cut : ¬ (0 < cells ∧ (textCells s : Int) ≤ cells) →
    (cells ≤ 0 ∨ cells < textCells mark) ∧ out = [] ∨
      ∃ k w, IsCut s k w ∧ (w : Int) + textCells mark ≤ cells ∧ out = s.take k ++ mark ∧
        ∀ k' w', IsCut s k' w' → (w' : Int) + textCells mark ≤ cells → k' ≤ k

/-- **A text cut to a number of columns** is whole, or cut as late as the mark lets it be, and never
takes more columns than there are. -/
theorem elided_elideToCells (s : Bytes) (cells : Int) (hmark : (mark.getD 0 0).toNat &&& 0xC0 ≠ 0x80) :
    Elided s mark cells (elideToCells s cells mark) where
  fits := by
    rcases lt_or_ge cells 0 with hneg | hpos
    · rw [elideToCells, if_pos hneg.le]
      exact Int.le_max_right cells 0
    · exact (textCells_elideToCells s cells hpos hmark).trans (Int.le_max_left cells 0)
  whole hpos hshort := by
    rw [elideToCells, if_neg (Int.not_le.2 hpos), if_pos hshort]
  cut hlong := by
    by_cases hpos : cells ≤ 0
    · rw [elideToCells, if_pos hpos]
      exact .inl ⟨.inl hpos, rfl⟩
    have hover : ¬ (textCells s : Int) ≤ cells := fun hle => hlong ⟨Int.not_le.1 hpos, hle⟩
    by_cases hroom : cells - textCells mark < 0
    · refine .inl ⟨.inr (by omega), ?_⟩
      rw [elideToCells, if_neg hpos, if_neg hover]
      exact if_pos hroom
    · have hstart : cutAt s 0 = (0, 0) := rfl
      have hzero : ((0 : Nat) : Int) ≤ cells - textCells mark := by
        push_cast
        omega
      obtain ⟨m, w, hcut, hw, hnext⟩ := isCut_keepTo s.length hstart hzero (Nat.sub_le _ _)
      refine .inr ⟨_, w, ⟨m, hcut⟩, by omega, ?_, fun k' w' hk' hw' => ?_⟩
      · rw [elideToCells, if_neg hpos, if_neg hover]
        exact if_neg hroom
      · exact IsCut.le_of_next hcut hnext hk' (by omega)

/-- Two columns for a malformed byte and three letters. -/
def malformed : Bytes := [0xE2, 0x41, 0x41, 0x41]

def ellipsis : Bytes := [0xE2, 0x80, 0xA6]

/-- Nothing is drawn in no columns, even of what takes none; and a prefix counts for the columns it
has in the text, where it may take fewer on its own. -/
theorem elide_exceptions :
    ((textCells [0x01] : Int) ≤ 0 ∧ elideToCells [0x01] 0 ellipsis ≠ [0x01]) ∧
      elideToCells malformed 2 ellipsis = malformed.take 1 ++ ellipsis ∧ IsCut malformed 2 2 ∧
        (textCells (malformed.take 2) : Int) + textCells ellipsis ≤ 2 := by
  refine ⟨by decide +kernel, by decide +kernel, ⟨2, by decide +kernel⟩, by decide +kernel⟩

/-- An accented word, in four columns. -/
theorem elided_elideToCells_word :
    Elided [0xC3, 0xA9, 0x74, 0x61, 0x67, 0x65] ellipsis 4
      (elideToCells [0xC3, 0xA9, 0x74, 0x61, 0x67, 0x65] 4 ellipsis) :=
  elided_elideToCells _ 4 (by decide)

end Sshos.Render
