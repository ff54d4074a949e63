import Sshos.Lib.Bytes
import Mathlib.Data.Nat.Digits.Defs

/-!
# Sshos.Lib.Decimal

Numbers written in **decimal**, as bytes, and the rule for whoever reads them one
digit at a time.
-/

namespace Sshos.Lib

universe u

/-- The byte of a digit. -/
def digitByte (d : Nat) : UInt8 := UInt8.ofNat (0x30 + d)

/-- The decimal digits of a number, the first one first. -/
def decimal (n : Nat) : Bytes :=
  if n = 0 then [digitByte 0] else (Nat.digits 10 n).reverse.map digitByte

/-- A signed number. -/
def num (v : Int) : Bytes := if v < 0 then 0x2D :: decimal v.natAbs else decimal v.natAbs

@[simp] theorem num_natCast (n : Nat) : num n = decimal n := by
  unfold num
  rw [if_neg (by omega), Int.natAbs_natCast]

theorem decimal_of_lt {n : Nat} (h : n < 10) : decimal n = [digitByte n] := by
  unfold decimal
  by_cases h0 : n = 0
  · rw [if_pos h0, h0]
  · rw [if_neg h0, Nat.digits_of_lt 10 n h0 h]
    rfl

theorem decimal_of_le {n : Nat} (h : 10 ≤ n) :
    decimal n = decimal (n / 10) ++ [digitByte (n % 10)] := by
  unfold decimal
  rw [if_neg (by omega), if_neg (by omega), Nat.digits_def' (by omega) (by omega),
    List.reverse_cons, List.map_append]
  rfl

theorem digitByte_spec : ∀ d < 10,
    0x30 ≤ digitByte d ∧ digitByte d ≤ 0x39 ∧ (digitByte d).toNat = 0x30 + d := by
  decide

/-- A number is written with figures only. -/
theorem decimal_digits {n : Nat} : ∀ c ∈ decimal n, 0x30 ≤ c ∧ c ≤ 0x39 := by
  have hdigit : ∀ d < 10, 0x30 ≤ digitByte d ∧ digitByte d ≤ 0x39 := fun d hd =>
    ⟨(digitByte_spec d hd).1, (digitByte_spec d hd).2.1⟩
  induction n using Nat.strongRecOn with
  | ind n ih =>
      by_cases hn : n < 10
      · rw [decimal_of_lt hn]
        exact List.forall_mem_singleton.2 (hdigit n hn)
      · rw [decimal_of_le (Nat.le_of_not_lt hn), List.forall_mem_append]
        exact ⟨ih (n / 10) (by omega), List.forall_mem_singleton.2 (hdigit _ (Nat.mod_lt n (by decide)))⟩

/-- A smaller number is not longer. -/
theorem length_decimal_mono {n m : Nat} (h : n ≤ m) : (decimal n).length ≤ (decimal m).length := by
  induction n using Nat.strongRecOn generalizing m with
  | ind n ih =>
      by_cases hn : n < 10
      · rw [decimal_of_lt hn]
        by_cases hm : m < 10
        · rw [decimal_of_lt hm]
          exact le_refl _
        · rw [decimal_of_le (Nat.le_of_not_lt hm), List.length_append]
          exact Nat.le_add_left _ _
      · have hlen := @ih (n / 10) (by omega) (m / 10) (Nat.div_le_div_right h)
        rw [decimal_of_le (n := n) (by omega), decimal_of_le (n := m) (by omega),
          List.length_append, List.length_append]
        exact Nat.add_le_add_right hlen _

theorem decimal_ne_nil (n : Nat) : decimal n ≠ [] := by
  have hlen := length_decimal_mono (Nat.zero_le n)
  rw [decimal_of_lt (by decide : 0 < 10)] at hlen
  exact List.ne_nil_of_length_pos hlen

/-- **Reading rule.** What holds of a reader after its first digit, and is carried from
a number to the number with one more digit, holds after the whole number. -/
theorem foldl_decimal {σ : Type u} {P : Nat → σ → Prop} {f : σ → UInt8 → σ} {s : σ}
    (hfirst : ∀ d, d < 10 → P d (f s (digitByte d)))
    (hnext : ∀ v t d, d < 10 → P v t → P (v * 10 + d) (f t (digitByte d))) (n : Nat) :
    P n ((decimal n).foldl f s) := by
  induction n using Nat.strongRecOn with
  | ind n ih =>
      by_cases hn : n < 10
      · rw [decimal_of_lt hn]
        exact hfirst n hn
      · have hread := ih (n / 10) (by omega)
        have hlast := hnext (n / 10) _ (n % 10) (Nat.mod_lt n (by omega)) hread
        rw [Nat.div_add_mod'] at hlast
        rw [decimal_of_le (by omega), List.foldl_append]
        exact hlast

end Sshos.Lib
