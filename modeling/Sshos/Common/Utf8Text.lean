import Sshos.Common.Utf8

/-!
# Sshos.Common.Utf8Text

**Texts**: the byte strings that are characters one after another. A character says by itself
where it ends, so that a text can be cut between two characters, and nowhere else.
-/

namespace Sshos.Common

open Sshos.Lib (Bytes)

/-- The byte continues a character. -/
def Continues (b : UInt8) : Prop := b.toNat &&& 0xC0 = 0x80

instance (b : UInt8) : Decidable (Continues b) := inferInstanceAs (Decidable (_ = _))

theorem continues_iff {b : UInt8} : Continues b ↔ b &&& 0xC0 = 0x80 := by
  rw [← UInt8.toNat_inj, UInt8.toNat_and]
  rfl

theorem Continues.high {b : UInt8} (h : Continues b) : 0x80 ≤ b.toNat :=
  h ▸ Nat.and_le_left

/-- How a scalar value is written, in groups of six bits. -/
inductive Written : Nat → Bytes → Prop
  | one {a : Nat} (ha : a < 0x80) : Written a [UInt8.ofNat a]
  | two {a b : Nat} (ha : a < 32) (hb : b < 64) (hlow : 0x80 ≤ a * 64 + b) :
      Written (a * 64 + b) [UInt8.ofNat (0xC0 ||| a), UInt8.ofNat (0x80 ||| b)]
  | three {a b c : Nat} (ha : a < 16) (hb : b < 64) (hc : c < 64)
      (hlow : 0x800 ≤ (a * 64 + b) * 64 + c)
      (hsur : ¬ (0xD800 ≤ (a * 64 + b) * 64 + c ∧ (a * 64 + b) * 64 + c ≤ 0xDFFF)) :
      Written ((a * 64 + b) * 64 + c)
        [UInt8.ofNat (0xE0 ||| a), UInt8.ofNat (0x80 ||| b), UInt8.ofNat (0x80 ||| c)]
  | four {a b c d : Nat} (ha : a < 8) (hb : b < 64) (hc : c < 64) (hd : d < 64)
      (hlow : 0x10000 ≤ ((a * 64 + b) * 64 + c) * 64 + d)
      (hhigh : ((a * 64 + b) * 64 + c) * 64 + d ≤ 0x10FFFF) :
      Written (((a * 64 + b) * 64 + c) * 64 + d)
        [UInt8.ofNat (0xF0 ||| a), UInt8.ofNat (0x80 ||| b), UInt8.ofNat (0x80 ||| c),
          UInt8.ofNat (0x80 ||| d)]

theorem written_encodeUtf8 {cp : Nat} (h : IsScalar cp) : Written cp (encodeUtf8 cp) := by
  obtain ⟨hsur, hmax⟩ := h
  have hsame : (if (0xD800 ≤ cp ∧ cp ≤ 0xDFFF) ∨ cp > 0x10FFFF then kReplacement else cp) = cp :=
    if_neg (by omega)
  have hbits : ∀ n, n &&& 0x3F = n % 64 := fun n => Nat.and_two_pow_sub_one_eq_mod n 6
  have hshift : ∀ n k, n >>> k = n / 2 ^ k := fun n k => Nat.shiftRight_eq_div_pow n k
  simp only [encodeUtf8, hsame, hbits, hshift]
  split
  next hone => exact .one hone
  split
  next htwo =>
    have hsum : cp / 2 ^ 6 * 64 + cp % 64 = cp := Nat.div_add_mod' cp 64
    have hw := @Written.two (cp / 2 ^ 6) (cp % 64) (by omega) (by omega) (by omega)
    rwa [hsum] at hw
  split
  next hthree =>
    have hsum : (cp / 2 ^ 12 * 64 + cp / 2 ^ 6 % 64) * 64 + cp % 64 = cp := by omega
    have hw := @Written.three (cp / 2 ^ 12) (cp / 2 ^ 6 % 64) (cp % 64) (by omega) (by omega)
      (by omega) (by omega) (by omega)
    rwa [hsum] at hw
  next hfour =>
    have hsum : ((cp / 2 ^ 18 * 64 + cp / 2 ^ 12 % 64) * 64 + cp / 2 ^ 6 % 64) * 64 + cp % 64 = cp := by
      omega
    have hw := @Written.four (cp / 2 ^ 18) (cp / 2 ^ 12 % 64) (cp / 2 ^ 6 % 64) (cp % 64) (by omega)
      (by omega) (by omega) (by omega) (by omega) (by omega)
    rwa [hsum] at hw

/-- There is one way to write a character. -/
theorem Written.encode {cp : Nat} {w : Bytes} (h : Written cp w) : encodeUtf8 cp = w := by
  have hbits : ∀ n, n &&& 0x3F = n % 64 := fun n => Nat.and_two_pow_sub_one_eq_mod n 6
  have hshift : ∀ n k, n >>> k = n / 2 ^ k := fun n k => Nat.shiftRight_eq_div_pow n k
  have hsame : ∀ {c : Nat}, IsScalar c →
      (if (0xD800 ≤ c ∧ c ≤ 0xDFFF) ∨ c > 0x10FFFF then kReplacement else c) = c := by
    intro c hc
    unfold IsScalar at hc
    exact if_neg (by omega)
  unfold encodeUtf8
  cases h with
  | one ha =>
      rw [hsame ⟨by omega, by omega⟩]
      exact if_pos ha
  | @two a b ha hb hlow =>
      rw [hsame ⟨by omega, by omega⟩]
      have ha' : (a * 64 + b) / 2 ^ 6 = a := by omega
      have hb' : (a * 64 + b) % 64 = b := by omega
      simp only [hbits, hshift, ha', hb']
      rw [if_neg (by omega), if_pos (by omega)]
  | @three a b c ha hb hc hlow hsur =>
      rw [hsame ⟨hsur, by omega⟩]
      have ha' : ((a * 64 + b) * 64 + c) / 2 ^ 12 = a := by omega
      have hb' : ((a * 64 + b) * 64 + c) / 2 ^ 6 % 64 = b := by omega
      have hc' : ((a * 64 + b) * 64 + c) % 64 = c := by omega
      simp only [hbits, hshift, ha', hb', hc']
      rw [if_neg (by omega), if_neg (by omega), if_pos (by omega)]
  | @four a b c d ha hb hc hd hlow hhigh =>
      rw [hsame ⟨by omega, hhigh⟩]
      have ha' : (((a * 64 + b) * 64 + c) * 64 + d) / 2 ^ 18 = a := by omega
      have hb' : (((a * 64 + b) * 64 + c) * 64 + d) / 2 ^ 12 % 64 = b := by omega
      have hc' : (((a * 64 + b) * 64 + c) * 64 + d) / 2 ^ 6 % 64 = c := by omega
      have hd' : (((a * 64 + b) * 64 + c) * 64 + d) % 64 = d := by omega
      simp only [hbits, hshift, ha', hb', hc', hd']
      rw [if_neg (by omega), if_neg (by omega), if_neg (by omega)]

/-- The characters of a literal are written so. -/
theorem written_utf8EncodeChar (c : Char) : Written c.toNat (String.utf8EncodeChar c) := by
  have hvalid : c.val.toNat < 0xD800 ∨ 0xDFFF < c.val.toNat ∧ c.val.toNat < 0x110000 := c.valid
  have htail : ∀ k, k < 64 → k + 0x80 = 0x80 ||| k := by decide
  have htwo : ∀ a, a < 32 → a + 0xC0 = 0xC0 ||| a := by decide
  have hthree : ∀ a, a < 16 → a + 0xE0 = 0xE0 ||| a := by decide
  have hfour : ∀ a, a < 8 → a + 0xF0 = 0xF0 ||| a := by decide
  show Written c.val.toNat (String.utf8EncodeChar c)
  unfold String.utf8EncodeChar
  generalize c.val.toNat = v at hvalid ⊢
  have hlow : v % 64 < 64 := Nat.mod_lt _ (by decide)
  have hmiddle : v / 64 % 64 < 64 := Nat.mod_lt _ (by decide)
  simp only
  split
  next h1 => exact .one (by omega)
  split
  next h2 =>
    have hw := @Written.two (v / 64 % 32) (v % 64) (Nat.mod_lt _ (by decide)) hlow (by omega)
    rw [← htwo _ (Nat.mod_lt _ (by decide)), ← htail _ hlow] at hw
    have hsum : v / 64 % 32 * 64 + v % 64 = v := by omega
    rwa [hsum] at hw
  split
  next h3 =>
    have hw := @Written.three (v / 4096 % 16) (v / 64 % 64) (v % 64) (Nat.mod_lt _ (by decide)) hmiddle
      hlow (by omega) (by omega)
    rw [← hthree _ (Nat.mod_lt _ (by decide)), ← htail _ hmiddle, ← htail _ hlow] at hw
    have hsum : (v / 4096 % 16 * 64 + v / 64 % 64) * 64 + v % 64 = v := by omega
    rwa [hsum] at hw
  next h4 =>
    have hhigh : v / 4096 % 64 < 64 := Nat.mod_lt _ (by decide)
    have hw := @Written.four (v / 262144 % 8) (v / 4096 % 64) (v / 64 % 64) (v % 64)
      (Nat.mod_lt _ (by decide)) hhigh hmiddle hlow (by omega) (by omega)
    rw [← hfour _ (Nat.mod_lt _ (by decide)), ← htail _ hhigh, ← htail _ hmiddle, ← htail _ hlow] at hw
    have hsum : ((v / 262144 % 8 * 64 + v / 4096 % 64) * 64 + v / 64 % 64) * 64 + v % 64 = v := by omega
    rwa [hsum] at hw

/-! ### Reading a character back -/

theorem utf8Tail_spec : ∀ k, k < 64 →
    (UInt8.ofNat (0x80 ||| k)).toNat &&& 0xC0 = 0x80 ∧
      (UInt8.ofNat (0x80 ||| k)).toNat &&& 0x3F = k := by
  decide

/-- A continuation byte adds its six bits. -/
theorem utf8Continuations_tail {s : Bytes} {j left cp k : Nat} (hk : k < 64)
    (hget : s.getD (0 + j) 0 = UInt8.ofNat (0x80 ||| k)) :
    utf8Continuations s 0 (left + 1) j cp = utf8Continuations s 0 left (j + 1) (cp * 64 + k) := by
  obtain ⟨hmark, hbits⟩ := utf8Tail_spec k hk
  have hor : (cp <<< 6) ||| k = cp * 64 + k := by
    rw [← Nat.shiftLeft_add_eq_or_of_lt (show k < 2 ^ 6 by omega), Nat.shiftLeft_eq]
  rw [utf8Continuations]
  simp only [hget, hmark, hbits, hor, ne_eq, not_true_eq_false, if_false]

/-- What a first byte above ASCII announces: how many bytes follow, and its own bits. -/
def Announces (b0 : UInt8) (need bits : Nat) : Prop :=
  ¬ b0.toNat < 0x80 ∧
    (if b0.toNat &&& 0xE0 = 0xC0 then some (1, b0.toNat &&& 0x1F)
    else if b0.toNat &&& 0xF0 = 0xE0 then some (2, b0.toNat &&& 0x0F)
    else if b0.toNat &&& 0xF8 = 0xF0 then some (3, b0.toNat &&& 0x07)
    else none) = some (need, bits)

instance (b0 : UInt8) (need bits : Nat) : Decidable (Announces b0 need bits) :=
  inferInstanceAs (Decidable (_ ∧ _))

theorem announces_two : ∀ a, a < 32 → Announces (UInt8.ofNat (0xC0 ||| a)) 1 a := by decide
theorem announces_three : ∀ a, a < 16 → Announces (UInt8.ofNat (0xE0 ||| a)) 2 a := by decide
theorem announces_four : ∀ a, a < 8 → Announces (UInt8.ofNat (0xF0 ||| a)) 3 a := by decide

theorem toNat_ascii {a : Nat} (ha : a < 0x80) : (UInt8.ofNat a).toNat = a := by
  rw [UInt8.toNat_ofNat']
  omega

/-- A first byte that announces `need` others, then the others. -/
theorem Announces.decode {b0 : UInt8} {need bits cp : Nat} {rest : Bytes} (h : Announces b0 need bits)
    (hlen : need ≤ rest.length) (htails : utf8Continuations (b0 :: rest) 0 need 1 bits = .ok cp)
    (hgood : ¬ ((0xD800 ≤ cp ∧ cp ≤ 0xDFFF) ∨ cp > 0x10FFFF ∨
      (need = 1 ∧ cp < 0x80) ∨ (need = 2 ∧ cp < 0x800) ∨ (need = 3 ∧ cp < 0x10000))) :
    utf8Decode (b0 :: rest) 0 = (need + 1, cp) := by
  obtain ⟨hhigh, hlead⟩ := h
  have hroom : ¬ 0 + need ≥ (b0 :: rest).length := by
    rw [List.length_cons]
    omega
  simp only [utf8Decode, List.getElem?_cons_zero, if_neg hhigh, hlead, if_neg hroom, htails,
    if_neg hgood]

/-- **A character is read back**, whatever follows it. -/
theorem Written.decode {cp : Nat} {w : Bytes} (h : Written cp w) (tail : Bytes) :
    utf8Decode (w ++ tail) 0 = (w.length, cp) := by
  cases h with
  | one ha =>
      simp only [utf8Decode, List.cons_append, List.getElem?_cons_zero, toNat_ascii ha, if_pos ha,
        List.length_singleton]
  | two ha hb hlow =>
      refine (announces_two _ ha).decode (by simp) ?_ (by omega)
      rw [utf8Continuations_tail hb rfl]
      rfl
  | three ha hb hc hlow hsur =>
      refine (announces_three _ ha).decode (by simp) ?_ (by omega)
      rw [utf8Continuations_tail hb rfl, utf8Continuations_tail hc rfl]
      rfl
  | four ha hb hc hd hlow hhigh =>
      refine (announces_four _ ha).decode (by simp) ?_ (by omega)
      rw [utf8Continuations_tail hb rfl, utf8Continuations_tail hc rfl, utf8Continuations_tail hd rfl]
      rfl

/-- The first byte of a character continues none, and the others do. -/
theorem Written.head {cp : Nat} {w : Bytes} (h : Written cp w) :
    ∃ b0 rest, w = b0 :: rest ∧ ¬ Continues b0 ∧ ∀ b ∈ rest, Continues b := by
  have hlow : ∀ a, a < 0x80 → ¬ Continues (UInt8.ofNat a) := by decide
  have htwo : ∀ a, a < 32 → ¬ Continues (UInt8.ofNat (0xC0 ||| a)) := by decide
  have hthree : ∀ a, a < 16 → ¬ Continues (UInt8.ofNat (0xE0 ||| a)) := by decide
  have hfour : ∀ a, a < 8 → ¬ Continues (UInt8.ofNat (0xF0 ||| a)) := by decide
  have htail : ∀ k, k < 64 → Continues (UInt8.ofNat (0x80 ||| k)) := fun k hk => (utf8Tail_spec k hk).1
  cases h with
  | one ha => exact ⟨_, _, rfl, hlow _ ha, by simp⟩
  | two ha hb _ => exact ⟨_, _, rfl, htwo _ ha, List.forall_mem_singleton.2 (htail _ hb)⟩
  | three ha hb hc _ _ =>
      refine ⟨_, _, rfl, hthree _ ha, List.forall_mem_cons.2 ⟨htail _ hb, ?_⟩⟩
      exact List.forall_mem_singleton.2 (htail _ hc)
  | four ha hb hc hd _ _ =>
      refine ⟨_, _, rfl, hfour _ ha, List.forall_mem_cons.2 ⟨htail _ hb, ?_⟩⟩
      exact List.forall_mem_cons.2 ⟨htail _ hc, List.forall_mem_singleton.2 (htail _ hd)⟩

/-- A character of one byte is ASCII, and its first byte says so. -/
theorem Written.ascii_or {cp : Nat} {w : Bytes} (h : Written cp w) :
    (cp < 0x80 ∧ w = [UInt8.ofNat cp]) ∨
      (0x80 ≤ cp ∧ 2 ≤ w.length ∧ ∀ b ∈ w, 0x80 ≤ b.toNat) := by
  have htail : ∀ k, k < 64 → 0x80 ≤ (UInt8.ofNat (0x80 ||| k)).toNat := by decide
  cases h with
  | one ha => exact .inl ⟨ha, rfl⟩
  | two ha hb hlow =>
      have hlead := Nat.not_lt.1 (announces_two _ ha).1
      refine .inr ⟨hlow, by simp, List.forall_mem_cons.2 ⟨hlead, ?_⟩⟩
      exact List.forall_mem_singleton.2 (htail _ hb)
  | three ha hb hc hlow _ =>
      have hlead := Nat.not_lt.1 (announces_three _ ha).1
      refine .inr ⟨by omega, by simp, List.forall_mem_cons.2 ⟨hlead, ?_⟩⟩
      exact List.forall_mem_cons.2 ⟨htail _ hb, List.forall_mem_singleton.2 (htail _ hc)⟩
  | four ha hb hc hd hlow _ =>
      have hlead := Nat.not_lt.1 (announces_four _ ha).1
      refine .inr ⟨by omega, by simp, List.forall_mem_cons.2 ⟨hlead, ?_⟩⟩
      refine List.forall_mem_cons.2 ⟨htail _ hb, List.forall_mem_cons.2 ⟨htail _ hc, ?_⟩⟩
      exact List.forall_mem_singleton.2 (htail _ hd)

/-! ### Texts -/

/-- Characters, one after another. -/
inductive IsText : Bytes → Prop
  | nil : IsText []
  | cons {cp : Nat} {s : Bytes} (hcp : IsScalar cp) (hs : IsText s) : IsText (encodeUtf8 cp ++ s)

theorem encodeUtf8_ascii {b : UInt8} (hb : b.toNat < 0x80) : encodeUtf8 b.toNat = [b] := by
  have hscalar : IsScalar b.toNat := by
    unfold IsScalar
    omega
  rcases (written_encodeUtf8 hscalar).ascii_or with ⟨-, hone⟩ | ⟨hhigh, -⟩
  · rw [hone, UInt8.ofNat_toNat]
  · omega

/-- The replacement character stands for what is no character. -/
theorem encodeUtf8_of_not_scalar {cp : Nat} (h : ¬ IsScalar cp) :
    encodeUtf8 cp = encodeUtf8 kReplacement := by
  have hbad : (0xD800 ≤ cp ∧ cp ≤ 0xDFFF) ∨ cp > 0x10FFFF := by
    unfold IsScalar at h
    omega
  simp only [encodeUtf8, if_pos hbad]
  rfl

theorem isScalar_kReplacement : IsScalar kReplacement := by decide

/-- Whatever is encoded is a character. -/
theorem isText_encodeUtf8 (cp : Nat) : IsText (encodeUtf8 cp) := by
  have hone : ∀ {c : Nat}, IsScalar c → IsText (encodeUtf8 c) := fun hc => by
    have htext := IsText.cons hc .nil
    rwa [List.append_nil] at htext
  by_cases hcp : IsScalar cp
  · exact hone hcp
  · rw [encodeUtf8_of_not_scalar hcp]
    exact hone isScalar_kReplacement

theorem Written.isText {cp : Nat} {w : Bytes} (h : Written cp w) : IsText w :=
  h.encode ▸ isText_encodeUtf8 cp

namespace IsText

variable {a b s : Bytes}

theorem append (ha : IsText a) (hb : IsText b) : IsText (a ++ b) := by
  induction ha with
  | nil => exact hb
  | cons hcp _ ih =>
      rw [List.append_assoc]
      exact .cons hcp ih

/-- What follows a character of a text is a text. -/
theorem of_character {cp : Nat} (hcp : IsScalar cp) (h : IsText (encodeUtf8 cp ++ s)) : IsText s := by
  have hread := (written_encodeUtf8 hcp).decode s
  generalize hwhole : encodeUtf8 cp ++ s = whole at h hread
  cases h with
  | nil =>
      obtain ⟨b0, rest, hw, -⟩ := (written_encodeUtf8 hcp).head
      rw [hw] at hwhole
      cases hwhole
  | @cons cp' s' hcp' hs' =>
      rw [(written_encodeUtf8 hcp').decode s'] at hread
      obtain ⟨-, rfl⟩ := Prod.mk.inj hread
      rw [List.append_cancel_left hwhole]
      exact hs'

theorem flatMap {α : Type*} {l : List α} {f : α → Bytes} (h : ∀ x ∈ l, IsText (f x)) :
    IsText (l.flatMap f) := by
  induction l with
  | nil => exact .nil
  | cons x l ih =>
      obtain ⟨hx, hl⟩ := List.forall_mem_cons.1 h
      exact hx.append (ih hl)

/-- **What follows a text in a text is a text.** -/
theorem of_append (ha : IsText a) (h : IsText (a ++ b)) : IsText b := by
  induction ha with
  | nil => exact h
  | cons hcp _ ih =>
      rw [List.append_assoc] at h
      exact ih (h.of_character hcp)

/-- A text begins with the first byte of a character. -/
theorem head (h : IsText s) : ∀ b0 ∈ s.head?, ¬ Continues b0 := by
  cases h with
  | nil => simp
  | cons hcp _ =>
      obtain ⟨b0, rest, hw, hb0, -⟩ := (written_encodeUtf8 hcp).head
      rw [hw]
      simpa using hb0

/-- **Where a text can be cut**: in front of any byte that continues no character. -/
theorem cut (h : IsText s) {k : Nat} (hk : ∀ b ∈ s[k]?, ¬ Continues b) :
    IsText (s.take k) ∧ IsText (s.drop k) := by
  induction h generalizing k with
  | nil => simp [IsText.nil]
  | @cons cp s hcp hs ih =>
      by_cases hbefore : k < (encodeUtf8 cp).length
      · obtain ⟨b0, rest, hw, -, hrest⟩ := (written_encodeUtf8 hcp).head
        cases k with
        | zero => exact ⟨.nil, .cons hcp hs⟩
        | succ k =>
            -- inside a character, every byte continues it
            rw [hw, List.length_cons, Nat.add_lt_add_iff_right] at hbefore
            refine absurd (hrest _ (List.getElem_mem hbefore)) (hk _ ?_)
            rw [hw, List.cons_append, List.getElem?_cons_succ, List.getElem?_append_left hbefore,
              List.getElem?_eq_getElem hbefore]
            rfl
      · obtain ⟨j, rfl⟩ := Nat.exists_eq_add_of_le (Nat.not_lt.1 hbefore)
        rw [List.getElem?_append_right (Nat.le_add_right _ _), Nat.add_sub_cancel_left] at hk
        obtain ⟨htake, hdrop⟩ := ih hk
        rw [List.take_length_add_append, List.drop_length_add_append]
        exact ⟨.cons hcp htake, hdrop⟩

theorem cut_iff (h : IsText s) (k : Nat) :
    (IsText (s.take k) ∧ IsText (s.drop k)) ↔ ∀ b ∈ s[k]?, ¬ Continues b := by
  refine ⟨fun hcut b hb => ?_, h.cut⟩
  exact hcut.2.head b (by rwa [List.head?_drop])

theorem of_ascii (h : ∀ c ∈ s, c.toNat < 0x80) : IsText s := by
  induction s with
  | nil => exact .nil
  | cons c s ih =>
      obtain ⟨hc, hs⟩ := List.forall_mem_cons.1 h
      have hscalar : IsScalar c.toNat := by
        unfold IsScalar
        omega
      have htext := IsText.cons hscalar (ih hs)
      rwa [encodeUtf8_ascii hc] at htext

/-- **The first byte of a text** can go alone only if it is a character. -/
theorem tail_iff {c : UInt8} (h : IsText (c :: s)) : IsText s ↔ c.toNat < 0x80 := by
  have hlow : c.toNat < 0x80 → IsText s := fun hc =>
    (of_ascii (List.forall_mem_singleton.2 hc)).of_append h
  refine ⟨fun hs => ?_, hlow⟩
  generalize hwhole : c :: s = whole at h
  cases h with
  | nil => cases hwhole
  | @cons cp s' hcp hs' =>
      have hwritten := written_encodeUtf8 hcp
      rcases hwritten.ascii_or with ⟨hascii, hone⟩ | ⟨-, hmany, -⟩
      · rw [hone] at hwhole
        rw [(List.cons.inj hwhole).1, toNat_ascii hascii]
        exact hascii
      · -- the second byte continues the first
        obtain ⟨b0, rest, hw, -, hrest⟩ := hwritten.head
        rw [hw] at hwhole hmany
        obtain ⟨b1, rest', rfl⟩ := List.exists_cons_of_length_pos (Nat.lt_of_succ_lt_succ hmany)
        have hhead : s.head? = some b1 := by
          rw [(List.cons.inj hwhole).2]
          rfl
        exact absurd (hrest b1 List.mem_cons_self) (hs.head b1 hhead)

/-- **Where a text can end**: in front of any byte that continues no character. -/
theorem take_iff (h : IsText s) {k : Nat} : IsText (s.take k) ↔ ∀ b ∈ s[k]?, ¬ Continues b := by
  rw [← h.cut_iff k]
  exact (and_iff_left_of_imp fun htake => htake.of_append (by rwa [List.take_append_drop])).symm

/-- Two texts in a row, the second of which begins with no continuation. -/
theorem append_iff (hb : ∀ c ∈ b.head?, ¬ Continues c) : IsText (a ++ b) ↔ IsText a ∧ IsText b := by
  refine ⟨fun h => ?_, fun h => h.1.append h.2⟩
  have hcut := h.cut (k := a.length) (by
    rwa [List.getElem?_append_right (Nat.le_refl _), Nat.sub_self, ← List.head?_eq_getElem?])
  rwa [List.take_left, List.drop_left] at hcut

theorem append_left_iff (ha : IsText a) : IsText (a ++ b) ↔ IsText b :=
  ⟨ha.of_append, ha.append⟩

/-- A text between two others says where they end and begin. -/
theorem between_iff {sep : Bytes} (hsep : IsText sep) (hne : sep ≠ []) :
    IsText (a ++ sep ++ b) ↔ IsText a ∧ IsText b := by
  have hhead : ∀ c ∈ (sep ++ b).head?, ¬ Continues c := by
    rw [List.head?_append_of_ne_nil sep hne]
    exact hsep.head
  rw [List.append_assoc, append_iff hhead, hsep.append_left_iff]

theorem append_ascii_iff {c : UInt8} (hc : c.toNat < 0x80) :
    IsText (a ++ c :: b) ↔ IsText a ∧ IsText b := by
  have hone : IsText [c] := of_ascii (List.forall_mem_singleton.2 hc)
  rw [← hone.between_iff (List.cons_ne_nil c []), List.append_assoc, List.singleton_append]

/-- What is kept of a text, when only ASCII is left out. -/
theorem filter {p : UInt8 → Bool} (hp : ∀ b, 0x80 ≤ b.toNat → p b = true) (h : IsText s) :
    IsText (s.filter p) := by
  induction h with
  | nil => exact .nil
  | @cons cp s hcp hs ih =>
      rw [List.filter_append]
      refine append ?_ ih
      rcases (written_encodeUtf8 hcp).ascii_or with ⟨hlow, hone⟩ | ⟨-, -, hhigh⟩
      · rw [hone]
        refine of_ascii fun c hc => ?_
        rw [List.mem_singleton.1 (List.mem_of_mem_filter hc), toNat_ascii hlow]
        exact hlow
      · rw [List.filter_eq_self.2 fun b hb => hp b (hhigh b hb)]
        exact isText_encodeUtf8 cp

end IsText

end Sshos.Common
