import Mathlib.Algebra.Group.Nat.Defs
import Mathlib.Data.List.Basic
import Mathlib.Tactic.Common

/-!
# Sshos.Lib.Bytes

Byte strings and the **big-endian split** of machine words: a word is the high
half shifted up, or-ed with its low half.
-/

namespace Sshos.Lib

/-- A byte string. -/
abbrev Bytes := List UInt8

/-- Named once, so that every membership in a list of byte strings is decided by one term. -/
instance : LawfulBEq Bytes := List.instLawfulBEq

theorem shiftRight_shiftLeft_or_mod (n w : Nat) : (n >>> w) <<< w ||| n % 2 ^ w = n := by
  rw [← Nat.shiftLeft_add_eq_or_of_lt (Nat.mod_lt _ (Nat.two_pow_pos w)), Nat.shiftLeft_eq,
    Nat.shiftRight_eq_div_pow, Nat.div_add_mod']

/-- A 16-bit word is rebuilt from its two bytes. -/
theorem u16_join (v : UInt16) :
    ((v >>> 8).toUInt8.toUInt16 <<< 8) ||| (v &&& 0xFF).toUInt8.toUInt16 = v := by
  apply UInt16.toNat_inj.1
  have hv := v.toNat_lt
  have hs : v.toNat >>> 8 < 2 ^ 8 := by rw [Nat.shiftRight_eq_div_pow]; omega
  have hm : v.toNat &&& 255 = v.toNat % 2 ^ 8 := Nat.and_two_pow_sub_one_eq_mod v.toNat 8
  have hb : (v.toNat >>> 8) <<< 8 < 2 ^ 16 := by rw [Nat.shiftLeft_eq]; omega
  simp only [UInt16.toNat_or, UInt16.toNat_shiftLeft, UInt8.toNat_toUInt16, UInt16.toNat_toUInt8,
    UInt16.toNat_shiftRight, UInt16.toNat_and, UInt16.reduceToNat, Nat.reduceMod]
  rw [hm, Nat.mod_mod, Nat.mod_eq_of_lt hs, Nat.mod_eq_of_lt hb, shiftRight_shiftLeft_or_mod]

/-- A 32-bit word is rebuilt from its two halves. -/
theorem u32_join (v : UInt32) :
    ((v >>> 16).toUInt16.toUInt32 <<< 16) ||| (v &&& 0xFFFF).toUInt16.toUInt32 = v := by
  apply UInt32.toNat_inj.1
  have hv := v.toNat_lt
  have hs : v.toNat >>> 16 < 2 ^ 16 := by rw [Nat.shiftRight_eq_div_pow]; omega
  have hm : v.toNat &&& 65535 = v.toNat % 2 ^ 16 := Nat.and_two_pow_sub_one_eq_mod v.toNat 16
  have hb : (v.toNat >>> 16) <<< 16 < 2 ^ 32 := by rw [Nat.shiftLeft_eq]; omega
  simp only [UInt32.toNat_or, UInt32.toNat_shiftLeft, UInt16.toNat_toUInt32, UInt32.toNat_toUInt16,
    UInt32.toNat_shiftRight, UInt32.toNat_and, UInt32.reduceToNat, Nat.reduceMod]
  rw [hm, Nat.mod_mod, Nat.mod_eq_of_lt hs, Nat.mod_eq_of_lt hb, shiftRight_shiftLeft_or_mod]

end Sshos.Lib
