import Sshos.Common.Utf8Text

/-!
# Sshos.Common.Utf8Walk

The **walk** through a text, character by character. Whatever draws, measures, shortens or folds
a text makes this walk: it reads a character, advances by what was read, and stops at the end.
-/

namespace Sshos.Common

open Sshos.Lib (Bytes)

/-- The characters from byte `i` on, and where the walk stops. -/
def utf8Walk (s : Bytes) (i : Nat) : List Nat × Nat :=
  if i < s.length then
    let rest := utf8Walk s (i + (utf8Decode s i).1)
    ((utf8Decode s i).2 :: rest.1, rest.2)
  else ([], i)
termination_by s.length - i
decreasing_by
  have hpos := utf8Decode_pos s i
  omega

variable {s : Bytes} {i : Nat}

theorem utf8Walk_end (hi : s.length ≤ i) : utf8Walk s i = ([], i) := by
  rw [utf8Walk, if_neg (Nat.not_lt.2 hi)]

theorem utf8Walk_next (hi : i < s.length) :
    utf8Walk s i =
      ((utf8Decode s i).2 :: (utf8Walk s (i + (utf8Decode s i).1)).1,
        (utf8Walk s (i + (utf8Decode s i).1)).2) := by
  rw [utf8Walk, if_pos hi]

/-- **The walk stops exactly at the end** of any byte string. -/
theorem utf8Walk_stop (hi : i ≤ s.length) : (utf8Walk s i).2 = s.length := by
  induction i using utf8Walk.induct (s := s) with
  | case1 i hlt ih =>
      rw [utf8Walk_next hlt]
      exact ih (utf8Decode_le hlt)
  | case2 i hend =>
      rw [utf8Walk_end (Nat.not_lt.1 hend)]
      omega

/-- What the walk gives are scalar values. -/
theorem utf8Walk_scalar : ∀ cp ∈ (utf8Walk s i).1, IsScalar cp := by
  induction i using utf8Walk.induct (s := s) with
  | case1 i hlt ih =>
      rw [utf8Walk_next hlt]
      exact List.forall_mem_cons.2 ⟨(utf8Decode_scalar s i).1, ih⟩
  | case2 i hend =>
      rw [utf8Walk_end (Nat.not_lt.1 hend)]
      exact nofun

/-- What stands before a place does not matter to the walk from there. -/
theorem utf8Walk_append (a s : Bytes) (i : Nat) :
    utf8Walk (a ++ s) (a.length + i) = ((utf8Walk s i).1, a.length + (utf8Walk s i).2) := by
  induction i using utf8Walk.induct (s := s) with
  | case1 i hlt ih =>
      have hlt' : a.length + i < (a ++ s).length := by
        rw [List.length_append]
        omega
      rw [utf8Walk_next hlt', utf8Walk_next hlt, utf8Decode_append, Nat.add_assoc, ih]
  | case2 i hend =>
      have hend' : (a ++ s).length ≤ a.length + i := by
        rw [List.length_append]
        omega
      rw [utf8Walk_end hend', utf8Walk_end (Nat.not_lt.1 hend)]

/-- One character, then the walk through what follows it. -/
theorem Written.walk {cp : Nat} {w : Bytes} (h : Written cp w) (s : Bytes) :
    utf8Walk (w ++ s) 0 = (cp :: (utf8Walk s 0).1, w.length + (utf8Walk s 0).2) := by
  have hlt : 0 < (w ++ s).length := by
    obtain ⟨b0, rest, rfl, -⟩ := h.head
    exact Nat.succ_pos _
  have hrest := utf8Walk_append w s 0
  rw [Nat.add_zero] at hrest
  rw [utf8Walk_next hlt, h.decode, Nat.zero_add, hrest]

/-- **What is encoded is read back**, character by character. -/
theorem utf8Walk_encode {cps : List Nat} (h : ∀ cp ∈ cps, IsScalar cp) :
    utf8Walk (cps.flatMap encodeUtf8) 0 = (cps, (cps.flatMap encodeUtf8).length) := by
  induction cps with
  | nil => exact utf8Walk_end (Nat.le_refl _)
  | cons cp cps ih =>
      obtain ⟨hcp, hcps⟩ := List.forall_mem_cons.1 h
      rw [List.flatMap_cons, (written_encodeUtf8 hcp).walk, ih hcps, List.length_append]

/-- **The codec is inverse on text.** Encoded characters are read back, up to the end; and through
any bytes the walk advances, stays inside, stops at the end, and gives scalar values only, each of
which is read back from its own encoding. -/
theorem utf8_inverse :
    (∀ cps : List Nat, (∀ cp ∈ cps, IsScalar cp) →
      utf8Walk (cps.flatMap encodeUtf8) 0 = (cps, (cps.flatMap encodeUtf8).length)) ∧
    ∀ s : Bytes,
      (∀ i < s.length, 0 < (utf8Decode s i).1 ∧ i + (utf8Decode s i).1 ≤ s.length) ∧
      (utf8Walk s 0).2 = s.length ∧
      ∀ cp ∈ (utf8Walk s 0).1, IsScalar cp ∧
        utf8Decode (encodeUtf8 cp) 0 = ((encodeUtf8 cp).length, cp) := by
  refine ⟨fun cps h => utf8Walk_encode h, fun s => ⟨fun i hi => ?_, ?_, fun cp hcp => ?_⟩⟩
  · exact ⟨utf8Decode_pos s i, utf8Decode_le hi⟩
  · exact utf8Walk_stop (Nat.zero_le _)
  · have hscalar := utf8Walk_scalar cp hcp
    have hread := (written_encodeUtf8 hscalar).decode []
    rw [List.append_nil] at hread
    exact ⟨hscalar, hread⟩

/-- A letter, an accented letter, the euro sign and an emoji. -/
theorem utf8_inverse_four :
    utf8Walk ([0x41, 0xE9, 0x20AC, 0x1F600].flatMap encodeUtf8) 0 = ([0x41, 0xE9, 0x20AC, 0x1F600], 10) :=
  utf8_inverse.1 [0x41, 0xE9, 0x20AC, 0x1F600] (by decide)

end Sshos.Common
