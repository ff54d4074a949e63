import Sshos.Lib.Bytes

/-!
# Sshos.Common.Utf8

The one **UTF-8 codec** of the program. Code points are natural numbers here; the
decoder only ever builds them from at most 21 bits, and the encoder replaces what
is not a Unicode scalar value.
-/

namespace Sshos.Common

open Sshos.Lib (Bytes)

/-- The replacement character. -/
def kReplacement : Nat := 0xFFFD

/-- The continuation bytes of a sequence starting at `pos`: `left` of them are
still to be read, the next one being number `k`. Fails with the number of the
first byte that is not one. -/
def utf8Continuations (s : Bytes) (pos : Nat) : (left k cp : Nat) → Except Nat Nat
  | 0, _, cp => .ok cp
  | left + 1, k, cp =>
      let bk := (s.getD (pos + k) 0).toNat
      if bk &&& 0xC0 ≠ 0x80 then .error k
      else utf8Continuations s pos left (k + 1) ((cp <<< 6) ||| (bk &&& 0x3F))

/-- Decode one scalar value at `pos`: the number of bytes consumed, never zero,
and the value, which is the replacement character on anything invalid. -/
def utf8Decode (s : Bytes) (pos : Nat) : Nat × Nat :=
  match s[pos]? with
  | none => (1, kReplacement)
  | some b =>
      let b0 := b.toNat
      if b0 < 0x80 then (1, b0)
      else
        let lead : Option (Nat × Nat) :=
          if b0 &&& 0xE0 = 0xC0 then some (1, b0 &&& 0x1F)
          else if b0 &&& 0xF0 = 0xE0 then some (2, b0 &&& 0x0F)
          else if b0 &&& 0xF8 = 0xF0 then some (3, b0 &&& 0x07)
          else none
        match lead with
        | none => (1, kReplacement)
        | some (need, cp) =>
            if pos + need ≥ s.length then (s.length - pos, kReplacement)
            else
              match utf8Continuations s pos need 1 cp with
              | .error k => (k, kReplacement)
              | .ok cp =>
                  let isSurrogate := 0xD800 ≤ cp ∧ cp ≤ 0xDFFF
                  let isOutOfRange := cp > 0x10FFFF
                  let isOverlong := (need = 1 ∧ cp < 0x80) ∨ (need = 2 ∧ cp < 0x800) ∨
                    (need = 3 ∧ cp < 0x10000)
                  if isSurrogate ∨ isOutOfRange ∨ isOverlong then (need + 1, kReplacement)
                  else (need + 1, cp)

theorem utf8Continuations_error {s : Bytes} {pos k' : Nat} :
    ∀ {left k cp : Nat}, utf8Continuations s pos left k cp = .error k' → k ≤ k' := by
  intro left
  induction left with
  | zero =>
      intro k cp h
      cases h
  | succ left ih =>
      intro k cp h
      simp only [utf8Continuations] at h
      split at h
      · cases h
        exact Nat.le_refl _
      · exact Nat.le_of_succ_le (ih h)

/-- **Every step of the decoder advances.** -/
theorem utf8Decode_pos (s : Bytes) (pos : Nat) : 0 < (utf8Decode s pos).1 := by
  unfold utf8Decode
  split
  · exact Nat.one_pos
  rename_i hread
  have hlt := (List.getElem?_eq_some_iff.1 hread).1
  simp only
  split
  · exact Nat.one_pos
  split
  · exact Nat.one_pos
  split
  · exact Nat.sub_pos_of_lt hlt
  split
  · rename_i herror
    exact utf8Continuations_error herror
  · split <;> exact Nat.succ_pos _

/-- The byte that fails to continue a sequence is one of those expected. -/
theorem utf8Continuations_error_lt {s : Bytes} {pos k' : Nat} :
    ∀ {left k cp : Nat}, utf8Continuations s pos left k cp = .error k' → k' < k + left := by
  intro left
  induction left with
  | zero =>
      intro k cp h
      cases h
  | succ left ih =>
      intro k cp h
      simp only [utf8Continuations] at h
      split at h
      · cases h
        exact Nat.lt_add_of_pos_right (Nat.succ_pos _)
      · have hlt := ih h
        rwa [Nat.succ_add_eq_add_succ] at hlt

/-- The decoder stays in the text. -/
theorem utf8Decode_le {s : Bytes} {i : Nat} (hi : i < s.length) :
    i + (utf8Decode s i).1 ≤ s.length := by
  unfold utf8Decode
  rw [List.getElem?_eq_getElem hi]
  simp only
  split
  · exact hi
  split
  · exact hi
  split
  · show i + (s.length - i) ≤ s.length
    omega
  next hroom =>
  split
  next herror =>
    have hlt := utf8Continuations_error_lt herror
    show i + _ ≤ s.length
    omega
  next =>
    split
    all_goals
      show i + _ ≤ s.length
      omega

/-- What stands before a place does not matter to what is decoded there. -/
theorem utf8Continuations_append (a s : Bytes) (i : Nat) :
    ∀ left k cp, utf8Continuations (a ++ s) (a.length + i) left k cp =
      utf8Continuations s i left k cp := by
  intro left
  induction left with
  | zero => exact fun _ _ => rfl
  | succ left ih =>
      intro k cp
      have hread : (a ++ s).getD (a.length + i + k) 0 = s.getD (i + k) 0 := by
        simp only [List.getD_eq_getElem?_getD]
        rw [Nat.add_assoc, List.getElem?_append_right (Nat.le_add_right _ _), Nat.add_sub_cancel_left]
      simp only [utf8Continuations, hread, ih]

theorem utf8Decode_append (a s : Bytes) (i : Nat) :
    utf8Decode (a ++ s) (a.length + i) = utf8Decode s i := by
  unfold utf8Decode
  rw [List.getElem?_append_right (Nat.le_add_right _ _), Nat.add_sub_cancel_left]
  simp only [utf8Continuations_append, List.length_append]
  have hroom : ∀ need, a.length + i + need ≥ a.length + s.length ↔ i + need ≥ s.length := by
    intro need
    omega
  have hleft : a.length + s.length - (a.length + i) = s.length - i := by omega
  simp only [hroom, hleft]

/-- A Unicode scalar value. -/
def IsScalar (cp : Nat) : Prop := ¬ (0xD800 ≤ cp ∧ cp ≤ 0xDFFF) ∧ cp ≤ 0x10FFFF

instance (cp : Nat) : Decidable (IsScalar cp) := inferInstanceAs (Decidable (_ ∧ _))

/-- What the decoder gives is a scalar value, and above ASCII when its bytes are. -/
theorem utf8Decode_scalar (s : Bytes) (i : Nat) :
    IsScalar (utf8Decode s i).2 ∧
      ∀ b0 ∈ s[i]?, (utf8Decode s i).2 = b0.toNat ∨ 0x80 ≤ (utf8Decode s i).2 := by
  have hrep : IsScalar kReplacement ∧ 0x80 ≤ kReplacement := by decide
  unfold utf8Decode
  cases hread : s[i]? with
  | none => exact ⟨hrep.1, nofun⟩
  | some b0 =>
      have hb0 := b0.toNat_lt
      simp only [Option.mem_some_iff, forall_eq']
      by_cases hascii : b0.toNat < 0x80
      · rw [if_pos hascii]
        exact ⟨⟨by omega, by omega⟩, .inl rfl⟩
      rw [if_neg hascii]
      split
      · exact ⟨hrep.1, .inr hrep.2⟩
      next need bits hlead =>
      split
      · exact ⟨hrep.1, .inr hrep.2⟩
      split
      · exact ⟨hrep.1, .inr hrep.2⟩
      next cp _ =>
      split
      · exact ⟨hrep.1, .inr hrep.2⟩
      next hgood =>
        have hneed : need = 1 ∨ need = 2 ∨ need = 3 := by
          repeat' split at hlead
          all_goals
            cases hlead
            try simp
        exact ⟨⟨by omega, by omega⟩, .inr (by simp only; omega)⟩

def encodeUtf8 (cp : Nat) : Bytes :=
  let cp := if (0xD800 ≤ cp ∧ cp ≤ 0xDFFF) ∨ cp > 0x10FFFF then kReplacement else cp
  let byte (n : Nat) : UInt8 := UInt8.ofNat n
  if cp < 0x80 then [byte cp]
  else if cp < 0x800 then [byte (0xC0 ||| cp >>> 6), byte (0x80 ||| cp &&& 0x3F)]
  else if cp < 0x10000 then
    [byte (0xE0 ||| cp >>> 12), byte (0x80 ||| (cp >>> 6) &&& 0x3F), byte (0x80 ||| cp &&& 0x3F)]
  else
    [byte (0xF0 ||| cp >>> 18), byte (0x80 ||| (cp >>> 12) &&& 0x3F),
      byte (0x80 ||| (cp >>> 6) &&& 0x3F), byte (0x80 ||| cp &&& 0x3F)]

end Sshos.Common
