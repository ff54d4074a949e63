import Sshos.Lib.Bytes

/-!
# Sshos.Lib.Strings

The **bytes of a string**, character by character, and those of a number that is written in
decimal.
-/

namespace Sshos.Lib

theorem toList_loop (bs : ByteArray) (n : Nat) : ∀ (i : Nat) (r : List UInt8),
    bs.size - i = n → ByteArray.toList.loop bs i r = r.reverse ++ bs.data.toList.drop i := by
  have hsize : bs.data.toList.length = bs.size := rfl
  induction n with
  | zero =>
      intro i r h
      unfold ByteArray.toList.loop
      rw [if_neg (by omega), List.drop_eq_nil_of_le (by omega), List.append_nil]
  | succ n ih =>
      intro i r h
      have hi : i < bs.data.toList.length := by omega
      have hget : bs.get! i = bs.data.toList[i] := by
        simp only [ByteArray.get!, Array.getElem_toList]
        exact getElem!_pos _ _ _
      unfold ByteArray.toList.loop
      rw [if_pos (by omega), ih _ _ (by omega), List.drop_eq_getElem_cons hi, hget, List.reverse_cons,
        List.append_assoc, List.singleton_append]

theorem toList_toUTF8 (s : String) : s.toUTF8.toList = s.toList.flatMap String.utf8EncodeChar := by
  have hbytes : s.toUTF8 = (s.toList.flatMap String.utf8EncodeChar).toByteArray :=
    String.utf8Encode_toList.symm
  unfold ByteArray.toList
  rw [toList_loop s.toUTF8 _ 0 [] rfl, hbytes]
  exact List.toList_data_toByteArray

/-- A number is written with figures. -/
theorem digit_of_mem_toString {n : Nat} {b : UInt8} (h : b ∈ (toString n).toUTF8.toList) :
    0x30 ≤ b ∧ b ≤ 0x39 := by
  rw [toList_toUTF8, List.mem_flatMap] at h
  obtain ⟨c, hc, hb⟩ := h
  have hdigit : c.isDigit = true :=
    Nat.isDigit_of_mem_toDigits (b := 10) (by decide) (by decide) (by simpa using hc)
  simp only [Char.isDigit, Bool.and_eq_true, decide_eq_true_eq] at hdigit
  have hlow : 0x30 ≤ c.val.toNat := UInt32.le_iff_toNat_le.1 hdigit.1
  have hhigh : c.val.toNat ≤ 0x39 := UInt32.le_iff_toNat_le.1 hdigit.2
  have hone : c.utf8Size = 1 :=
    if_pos (UInt32.le_iff_toNat_le.2 (Nat.le_trans hhigh (by decide)))
  rw [String.utf8EncodeChar_eq_singleton hone, List.mem_singleton] at hb
  have hval : b.toNat = c.val.toNat := by
    rw [hb, UInt32.toNat_toUInt8]
    omega
  rw [UInt8.le_iff_toNat_le, UInt8.le_iff_toNat_le, hval]
  exact ⟨hlow, hhigh⟩

end Sshos.Lib
