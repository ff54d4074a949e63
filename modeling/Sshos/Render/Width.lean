import Sshos.Common.Utf8Text
import Sshos.Lib.Decimal
import Sshos.Render.Cell

/-!
# Sshos.Render.Width

How many **columns** a text takes, and the text cut to a number of columns. The characters
whose width depends on the terminal count as narrow: the program never says otherwise.
-/

namespace Sshos.Render

open Sshos.Common (IsScalar IsText Written encodeUtf8 kReplacement utf8Continuations
  utf8Continuations_error utf8Continuations_error_lt utf8Decode utf8Decode_append utf8Decode_le
  utf8Decode_pos written_encodeUtf8)
open Sshos.Lib (Bytes)

/-- The columns a text takes from byte `i` on. -/
def cellsFrom (s : Bytes) : (fuel : Nat) → (i : Nat) → Nat
  | 0, _ => 0
  | fuel + 1, i =>
      if i < s.length then
        charWidth false (utf8Decode s i).2 + cellsFrom s fuel (i + (utf8Decode s i).1)
      else 0

def textCells (s : Bytes) : Nat := cellsFrom s s.length 0

/-- The byte where the columns that may be kept end. -/
def keepTo (s : Bytes) (keep : Int) : (fuel : Nat) → (i : Nat) → (seen : Int) → Nat
  | 0, i, _ => i
  | fuel + 1, i, seen =>
      if i < s.length then
        let (used, cp) := utf8Decode s i
        if seen + charWidth false cp > keep then i
        else keepTo s keep fuel (i + used) (seen + charWidth false cp)
      else i

/-- A text cut to a number of columns, with a mark where it is cut. -/
def elideToCells (s : Bytes) (cells : Int) (mark : Bytes) : Bytes :=
  if cells ≤ 0 then []
  else if textCells s ≤ cells then s
  else
    let keep := cells - textCells mark
    if keep < 0 then [] else s.take (keepTo s keep s.length 0 0) ++ mark

/-! ### What the decoder reads -/

section Decoder

variable {s : Bytes} {i : Nat}

theorem charWidth_ascii : ∀ cp < 0x80, charWidth false cp ≤ 1 := by decide +kernel

theorem charWidth_kReplacement : charWidth false kReplacement = 1 := by decide +kernel

/-- A character takes no more columns than it has bytes. -/
theorem charWidth_utf8Decode_le (s : Bytes) (i : Nat) :
    charWidth false (utf8Decode s i).2 ≤ (utf8Decode s i).1 := by
  have hpos := utf8Decode_pos s i
  have hle := charWidth_le false (utf8Decode s i).2
  by_cases hmany : 2 ≤ (utf8Decode s i).1
  · exact hle.trans hmany
  · -- a character of one byte is ASCII, or a replacement
    have hone : (utf8Decode s i).1 = 1 := by omega
    rw [hone]
    unfold utf8Decode at hone ⊢
    split
    · exact charWidth_kReplacement.le
    next b hread =>
    simp only [hread] at hone ⊢
    split
    next hascii => exact charWidth_ascii _ hascii
    next hascii =>
    rw [if_neg hascii] at hone
    split
    · exact charWidth_kReplacement.le
    next need cp hlead =>
    simp only [hlead] at hone
    split
    · exact charWidth_kReplacement.le
    next hroom =>
    rw [if_neg hroom] at hone
    split
    · exact charWidth_kReplacement.le
    next cp' hok =>
    simp only [hok] at hone ⊢
    have hneed : 1 ≤ need := by
      revert hlead
      split
      · rintro ⟨⟩
        exact le_refl _
      split
      · rintro ⟨⟩
        decide
      split
      · rintro ⟨⟩
        decide
      · nofun
    split at hone
    · exact absurd hone (by simp only; omega)
    · exact absurd hone (by simp only; omega)

/-- A text `t` that starts like `s`, and continues no sequence where they part. -/
structure Parts (s t : Bytes) (k : Nat) : Prop where
  before : ∀ j < k, t[j]? = s[j]?
  stops : (t.getD k 0).toNat &&& 0xC0 ≠ 0x80

theorem parts_take {k : Nat} (hk : k ≤ s.length) {mark : Bytes}
    (hmark : (mark.getD 0 0).toNat &&& 0xC0 ≠ 0x80) : Parts s (s.take k ++ mark) k where
  before := by
    intro j hj
    have hlen : j < (s.take k).length := by
      rw [List.length_take]
      omega
    rw [List.getElem?_append_left hlen, List.getElem?_take, if_pos hj]
  stops := by
    have hlen : (s.take k).length = k := List.length_take_of_le hk
    rw [List.getD_eq_getElem?_getD, List.getElem?_append_right hlen.le, hlen, Nat.sub_self,
      ← List.getD_eq_getElem?_getD]
    exact hmark

theorem Parts.continuations {t : Bytes} {k : Nat} (h : Parts s t k) {r : Except Nat Nat} :
    ∀ {left n cp : Nat}, utf8Continuations s i left n cp = r →
      (∀ c, r = .ok c → i + n + left ≤ k) → (∀ n', r = .error n' → i + n' ≤ k) →
      utf8Continuations t i left n cp = r := by
  intro left
  induction left with
  | zero => exact fun hr _ _ => hr
  | succ left ih =>
      intro n cp hr hok herror
      simp only [utf8Continuations] at hr ⊢
      by_cases hbefore : i + n < k
      · have hread : t.getD (i + n) 0 = s.getD (i + n) 0 := by
          rw [List.getD_eq_getElem?_getD, h.before _ hbefore, ← List.getD_eq_getElem?_getD]
        rw [hread]
        split at hr
        next hbad =>
          rw [if_pos hbad]
          exact hr
        next hgood =>
          rw [if_neg hgood]
          refine ih hr (fun c hc => ?_) herror
          have := hok c hc
          omega
      · split at hr
        next =>
          -- they part at the byte that fails
          have hk := herror n hr.symm
          have hhere : i + n = k := by omega
          rw [hhere, if_pos h.stops]
          exact hr
        next =>
          cases hcase : r with
          | ok c =>
              have := hok c hcase
              omega
          | error n' =>
              have hle := utf8Continuations_error (hr.trans hcase)
              have := herror n' hcase
              omega

/-- What is decoded before the place where they part is the same, unless the end of the text
has come too near for the character that starts there. -/
theorem Parts.decode_eq (his : i < s.length) : ∃ need,
    ((utf8Decode s i).2 = kReplacement ∨ (utf8Decode s i).1 = need + 1) ∧
    ∀ {t : Bytes} {k : Nat}, Parts s t k → k < s.length → i < k → i + (utf8Decode s i).1 ≤ k →
    utf8Decode t i = if i + need ≥ t.length then (t.length - i, kReplacement) else utf8Decode s i := by
  have hinside : ∀ {t : Bytes} {k : Nat}, Parts s t k → i < k → ¬ i + 0 ≥ t.length := by
    intro t k h hi hend
    have hread := h.before i hi
    rw [List.getElem?_eq_none (show t.length ≤ i from hend), List.getElem?_eq_getElem his] at hread
    cases hread
  by_cases hascii : s[i].toNat < 0x80
  · have hone : (utf8Decode s i).1 = 0 + 1 := by
      simp only [utf8Decode, List.getElem?_eq_getElem his, if_pos hascii]
    refine ⟨0, .inr hone, fun {t k} h hk hi hused => ?_⟩
    rw [if_neg (hinside h hi)]
    unfold utf8Decode
    rw [h.before i hi, List.getElem?_eq_getElem his]
    simp only [if_pos hascii]
  cases hlead : (if s[i].toNat &&& 0xE0 = 0xC0 then some (1, s[i].toNat &&& 0x1F)
      else if s[i].toNat &&& 0xF0 = 0xE0 then some (2, s[i].toNat &&& 0x0F)
      else if s[i].toNat &&& 0xF8 = 0xF0 then some (3, s[i].toNat &&& 0x07)
      else none : Option (Nat × Nat)) with
  | none =>
      have hbad : (utf8Decode s i).2 = kReplacement := by
        simp only [utf8Decode, List.getElem?_eq_getElem his, if_neg hascii, hlead]
      refine ⟨0, .inl hbad, fun {t k} h hk hi hused => ?_⟩
      rw [if_neg (hinside h hi)]
      unfold utf8Decode
      rw [h.before i hi, List.getElem?_eq_getElem his]
      simp only [if_neg hascii, hlead]
  | some announced =>
      obtain ⟨need, cp⟩ := announced
      have hread : (utf8Decode s i).2 = kReplacement ∨ (utf8Decode s i).1 = need + 1 := by
        simp only [utf8Decode, List.getElem?_eq_getElem his, if_neg hascii, hlead]
        split
        · exact .inl rfl
        split
        · exact .inl rfl
        split
        · exact .inl rfl
        · exact .inr rfl
      refine ⟨need, hread, fun {t k} h hk hi hused => ?_⟩
      unfold utf8Decode at hused ⊢
      rw [h.before i hi]
      rw [List.getElem?_eq_getElem his] at hused ⊢
      simp only [if_neg hascii, hlead] at hused ⊢
      by_cases hend : i + need ≥ t.length
      · rw [if_pos hend, if_pos hend]
      have hroom : ¬ i + need ≥ s.length := by
        intro hno
        rw [if_pos hno] at hused
        simp only at hused
        omega
      rw [if_neg hend, if_neg hend]
      rw [if_neg hroom] at hused ⊢
      have hsame : utf8Continuations t i need 1 cp = utf8Continuations s i need 1 cp := by
        refine h.continuations rfl (fun c hc => ?_) (fun n' hn' => ?_)
        · rw [hc] at hused
          simp only at hused
          have hlast : i + (need + 1) ≤ k := by
            split at hused
            · exact hused
            · exact hused
          omega
        · rw [hn'] at hused
          exact hused
      rw [hsame]

/-- What is swallowed by the end was malformed already. -/
theorem Parts.decode {t : Bytes} {k : Nat} (h : Parts s t k) (hk : k < s.length) (hi : i < k)
    (hused : i + (utf8Decode s i).1 ≤ k) :
    utf8Decode t i = utf8Decode s i ∨
      utf8Decode t i = (t.length - i, kReplacement) ∧ (utf8Decode s i).2 = kReplacement := by
  obtain ⟨need, hread, hneed⟩ := Parts.decode_eq (s := s) (i := i) (hi.trans hk)
  rw [hneed h hk hi hused]
  split
  next hend =>
    refine .inr ⟨rfl, hread.resolve_right fun hwhole => ?_⟩
    -- a whole character ends before the place where they part
    have hlast : k - 1 < t.length := by
      refine Nat.not_le.1 fun hle => ?_
      have hbefore := h.before (k - 1) (by omega)
      rw [List.getElem?_eq_none hle, List.getElem?_eq_getElem (by omega)] at hbefore
      cases hbefore
    omega
  · exact .inl rfl

/-- Continuation bytes are not looked for beyond a byte that is not one. -/
theorem utf8Continuations_stop {k : Nat} (hstop : (s.getD k 0).toNat &&& 0xC0 ≠ 0x80) :
    ∀ {left n cp : Nat}, i + n ≤ k →
      (∀ c, utf8Continuations s i left n cp = .ok c → i + n + left ≤ k) ∧
      ∀ n', utf8Continuations s i left n cp = .error n' → i + n' ≤ k := by
  intro left
  induction left with
  | zero => exact fun hle => ⟨fun _ _ => hle, by simp [utf8Continuations]⟩
  | succ left ih =>
      intro n cp hle
      simp only [utf8Continuations]
      split
      next => exact ⟨by simp, fun n' hn' => by cases hn'; exact hle⟩
      next hgood =>
        have hne : i + n ≠ k := fun hhere => hgood (hhere ▸ hstop)
        obtain ⟨hok, herror⟩ := @ih (n + 1) ((cp <<< 6) ||| ((s.getD (i + n) 0).toNat &&& 0x3F))
          (by omega)
        refine ⟨fun c hc => ?_, herror⟩
        have := hok c hc
        omega

/-- A character ends before a byte that continues none, unless the end of the text is too near. -/
theorem utf8Decode_stop {k : Nat} (hi : i < k) (hk : k < s.length)
    (hstop : (s.getD k 0).toNat &&& 0xC0 ≠ 0x80) :
    i + (utf8Decode s i).1 ≤ k ∨ utf8Decode s i = (s.length - i, kReplacement) := by
  unfold utf8Decode
  rw [List.getElem?_eq_getElem (hi.trans hk)]
  simp only
  split
  · exact .inl hi
  split
  · exact .inl hi
  next need cp _ =>
  split
  · exact .inr rfl
  obtain ⟨hok, herror⟩ := @utf8Continuations_stop s i k hstop need 1 cp hi
  split
  next n' hn' => exact .inl (herror n' hn')
  next c hc =>
    have hlast := hok c hc
    split
    · exact .inl (by simp only; omega)
    · exact .inl (by simp only; omega)

end Decoder

/-! ### Columns -/

/-- More fuel than bytes left adds nothing. -/
theorem cellsFrom_le_of_fuel (s : Bytes) (fuel : Nat) :
    ∀ {fuel' i : Nat}, s.length - i ≤ fuel' → cellsFrom s fuel i ≤ cellsFrom s fuel' i := by
  induction fuel with
  | zero => exact fun _ => Nat.zero_le _
  | succ fuel ih =>
      intro fuel' i hfuel
      unfold cellsFrom
      split
      next hi =>
        cases fuel' with
        | zero => omega
        | succ fuel' =>
            have hpos := utf8Decode_pos s i
            simp only [if_pos hi]
            exact Nat.add_le_add_left (ih (by omega)) _
      next => exact Nat.zero_le _

/-- A text takes no more columns than it has bytes. -/
theorem cellsFrom_le (s : Bytes) (fuel : Nat) : ∀ i, cellsFrom s fuel i ≤ s.length - i := by
  induction fuel with
  | zero => exact fun _ => Nat.zero_le _
  | succ fuel ih =>
      intro i
      unfold cellsFrom
      split
      next hi =>
        have hwidth := charWidth_utf8Decode_le s i
        have hroom := utf8Decode_le hi
        have hrest := ih (i + (utf8Decode s i).1)
        omega
      next => exact Nat.zero_le _

theorem textCells_le_length (s : Bytes) : textCells s ≤ s.length := cellsFrom_le s s.length 0

theorem cellsFrom_append (a s : Bytes) (fuel : Nat) :
    ∀ i, cellsFrom (a ++ s) fuel (a.length + i) = cellsFrom s fuel i := by
  induction fuel with
  | zero => exact fun _ => rfl
  | succ fuel ih =>
      intro i
      have hin : a.length + i < (a ++ s).length ↔ i < s.length := by
        rw [List.length_append]
        omega
      simp only [cellsFrom, utf8Decode_append, hin, Nat.add_assoc, ih]

/-- The columns of a character, and of what follows it. -/
theorem textCells_append {a : Bytes} (s : Bytes) {cp : Nat} (ha : a ≠ [])
    (hread : utf8Decode (a ++ s) 0 = (a.length, cp)) :
    textCells (a ++ s) = charWidth false cp + textCells s := by
  have hlen : 0 < a.length := List.length_pos_iff.2 ha
  have hpos : 0 < (a ++ s).length := by
    rw [List.length_append]
    exact Nat.add_pos_left hlen _
  obtain ⟨fuel, hfuel⟩ : ∃ fuel, (a ++ s).length = fuel + 1 := ⟨_, (Nat.succ_pred_eq_of_pos hpos).symm⟩
  have henough : s.length - 0 ≤ fuel := by
    rw [List.length_append] at hfuel
    omega
  unfold textCells
  rw [hfuel, cellsFrom, if_pos hpos, hread]
  simp only
  rw [Nat.zero_add, show a.length = a.length + 0 from rfl, cellsFrom_append]
  exact congrArg _ (Nat.le_antisymm (cellsFrom_le_of_fuel s _ (Nat.sub_le _ _))
    (cellsFrom_le_of_fuel s _ henough))

/-! ### Texts -/

/-- A byte that is a character of one column. -/
def Printable (b : UInt8) : Prop := 0x20 ≤ b.toNat ∧ b.toNat < 0x7F

instance (b : UInt8) : Decidable (Printable b) := inferInstanceAs (Decidable (_ ∧ _))

theorem charWidth_ascii_iff : ∀ cp < 0x80, charWidth false cp = 1 ↔ 0x20 ≤ cp ∧ cp < 0x7F := by
  decide +kernel

/-- No full-width character is below the first range of them. -/
theorem charWidth_le_one {cp : Nat} (h : cp < 0x1100) : charWidth false cp ≤ 1 := by
  have hwide : inTable kWide cp = false := by
    simp [inTable, kWide, h]
  unfold charWidth
  simp only [hwide, Bool.false_eq_true, false_and, if_false]
  split
  · exact Nat.zero_le _
  split
  · exact Nat.zero_le _
  · exact Nat.le_refl _

/-- A character of several bytes takes fewer columns. -/
theorem charWidth_lt_of_high {cp : Nat} {w : Bytes} (h : Written cp w) (hhigh : 0x80 ≤ cp) :
    charWidth false cp < w.length := by
  cases h with
  | one ha => omega
  | @two a b ha hb _ =>
      have hone := @charWidth_le_one (a * 64 + b) (by omega)
      exact Nat.lt_succ_of_le hone
  | three _ _ _ _ _ => exact Nat.lt_succ_of_le (charWidth_le false _)
  | four _ _ _ _ _ _ => exact Nat.lt_succ_of_lt (Nat.lt_succ_of_le (charWidth_le false _))

theorem textCells_encodeUtf8 {cp : Nat} (hcp : IsScalar cp) (s : Bytes) :
    textCells (encodeUtf8 cp ++ s) = charWidth false cp + textCells s := by
  have hwritten := written_encodeUtf8 hcp
  obtain ⟨b0, rest, hw, -⟩ := hwritten.head
  exact textCells_append s (by rw [hw]; exact List.cons_ne_nil _ _) (hwritten.decode s)

/-- **A text takes as many columns as it has bytes** only if all of it is printable ASCII. -/
theorem textCells_eq_length_iff {s : Bytes} (h : IsText s) :
    textCells s = s.length ↔ ∀ b ∈ s, Printable b := by
  induction h with
  | nil => simp [textCells, cellsFrom]
  | @cons cp s hcp hs ih =>
      have hwritten := written_encodeUtf8 hcp
      have hle := textCells_le_length s
      rw [textCells_encodeUtf8 hcp, List.length_append, List.forall_mem_append, ← ih]
      rcases hwritten.ascii_or with ⟨hascii, hone⟩ | ⟨hhigh, hmany, hbytes⟩
      · have hwidth := charWidth_ascii_iff cp hascii
        have hmax := charWidth_ascii cp hascii
        rw [hone, List.length_singleton, List.forall_mem_singleton, Printable, Common.toNat_ascii hascii,
          ← hwidth]
        omega
      · have hwidth := charWidth_lt_of_high hwritten hhigh
        refine iff_of_false (by omega) fun hprintable => ?_
        obtain ⟨b0, rest, hw, -⟩ := hwritten.head
        rw [hw] at hprintable hbytes
        have hlow := (hprintable.1 b0 List.mem_cons_self).2
        have hb0 := hbytes b0 List.mem_cons_self
        omega

/-! ### A text that is cut -/

section Elide

variable {s mark : Bytes} {keep : Int}

/-- A character that does not hold ends what is kept. -/
theorem keepTo_stop {i fuel : Nat} {seen : Int} (hi : i < s.length)
    (hcut : seen + charWidth false (utf8Decode s i).2 > keep) : keepTo s keep (fuel + 1) i seen = i := by
  rw [keepTo, if_pos hi]
  exact if_pos hcut

theorem keepTo_step {i fuel : Nat} {seen : Int} (hi : i < s.length)
    (hkeep : ¬ seen + charWidth false (utf8Decode s i).2 > keep) :
    keepTo s keep (fuel + 1) i seen =
      keepTo s keep fuel (i + (utf8Decode s i).1) (seen + charWidth false (utf8Decode s i).2) := by
  rw [keepTo, if_pos hi]
  exact if_neg hkeep

theorem keepTo_end {i fuel : Nat} {seen : Int} (hi : s.length ≤ i) : keepTo s keep fuel i seen = i := by
  cases fuel with
  | zero => rfl
  | succ fuel => exact if_neg (Nat.not_lt.2 hi)

theorem le_keepTo (s : Bytes) (keep : Int) (fuel : Nat) : ∀ i seen, i ≤ keepTo s keep fuel i seen := by
  induction fuel with
  | zero => exact fun _ _ => le_refl _
  | succ fuel ih =>
      intro i seen
      rcases Nat.lt_or_ge i s.length with hi | hend
      · by_cases hcut : seen + charWidth false (utf8Decode s i).2 > keep
        · rw [keepTo_stop hi hcut]
        · rw [keepTo_step hi hcut]
          exact (Nat.le_add_right _ _).trans (ih _ _)
      · rw [keepTo_end hend]

/-- A text that does not hold is cut before its end. -/
theorem keepTo_lt (fuel : Nat) : ∀ {i : Nat} {seen : Int}, s.length - i ≤ fuel →
    seen ≤ keep → keep < seen + cellsFrom s fuel i → keepTo s keep fuel i seen < s.length := by
  induction fuel with
  | zero =>
      intro i seen _ hseen hlong
      simp only [cellsFrom] at hlong
      omega
  | succ fuel ih =>
      intro i seen hfuel hseen hlong
      unfold cellsFrom at hlong
      split at hlong
      next hi =>
        by_cases hcut : seen + charWidth false (utf8Decode s i).2 > keep
        · rw [keepTo_stop hi hcut]
          exact hi
        · rw [keepTo_step hi hcut]
          have hpos := utf8Decode_pos s i
          exact ih (by omega) (by omega) (by push_cast at hlong; omega)
      next => omega

/-- What is kept and the mark take the columns there are. -/
theorem keepTo_cells (hmark : (mark.getD 0 0).toNat &&& 0xC0 ≠ 0x80)
    (fuel : Nat) : ∀ {i : Nat} {seen : Int}, s.length - i ≤ fuel → seen ≤ keep →
      keepTo s keep fuel i seen < s.length → ∀ fuel',
      seen + cellsFrom (s.take (keepTo s keep fuel i seen) ++ mark) fuel' i ≤
        keep + textCells mark := by
  induction fuel with
  | zero =>
      intro i seen hfuel hseen hk
      simp only [keepTo] at hk
      omega
  | succ fuel ih =>
      intro i seen hfuel hseen hk fuel'
      have hi : i < s.length := (le_keepTo s keep _ i seen).trans_lt hk
      by_cases hcut : seen + charWidth false (utf8Decode s i).2 > keep
      · have hlen : (s.take i).length = i := List.length_take_of_le hi.le
        have hrest := cellsFrom_append (s.take i) mark fuel' 0
        rw [hlen, Nat.add_zero] at hrest
        have hle : cellsFrom mark fuel' 0 ≤ cellsFrom mark mark.length 0 :=
          cellsFrom_le_of_fuel mark fuel' (Nat.sub_le _ _)
        rw [keepTo_stop hi hcut, hrest]
        unfold textCells
        omega
      · rw [keepTo_step hi hcut] at hk ⊢
        have hpos := utf8Decode_pos s i
        have hrest := @ih (i + (utf8Decode s i).1) (seen + charWidth false (utf8Decode s i).2)
          (by omega) (by omega) hk
        have hle := le_keepTo s keep fuel (i + (utf8Decode s i).1)
          (seen + charWidth false (utf8Decode s i).2)
        generalize keepTo s keep fuel _ _ = k at *
        cases fuel' with
        | zero =>
            simp only [cellsFrom]
            omega
        | succ fuel' =>
            have hlen : i < (s.take k ++ mark).length := by
              rw [List.length_append, List.length_take]
              omega
            unfold cellsFrom
            rw [if_pos hlen]
            rcases (parts_take hk.le hmark).decode hk (by omega) hle with hsame | ⟨hend, hbad⟩
            · rw [hsame]
              have := hrest fuel'
              push_cast
              omega
            · -- one column, that the character had already, and nothing after it
              have hover := cellsFrom_le (s.take k ++ mark) fuel'
                (i + ((s.take k ++ mark).length - i))
              rw [hbad, charWidth_kReplacement] at hcut
              rw [hend, charWidth_kReplacement]
              push_cast
              omega

/-- **A text cut to a number of columns takes no more.** -/
theorem textCells_elideToCells (s : Bytes) (cells : Int) (hcells : 0 ≤ cells)
    (hmark : (mark.getD 0 0).toNat &&& 0xC0 ≠ 0x80) : textCells (elideToCells s cells mark) ≤ cells := by
  unfold elideToCells
  split
  · exact hcells
  split
  · assumption
  next hlong =>
  simp only
  split
  · exact hcells
  next hkeep =>
  have hk := @keepTo_lt s (cells - textCells mark) s.length 0 0
    (Nat.sub_le _ _) (by omega) (by unfold textCells at hlong ⊢; omega)
  have hcut := @keepTo_cells s mark (cells - textCells mark) hmark s.length 0 0 (Nat.sub_le _ _)
    (by omega) hk
  have := hcut (s.take (keepTo s (cells - textCells mark) s.length 0 0) ++ mark).length
  unfold textCells at this ⊢
  omega

end Elide

/-! ### A text that is cut later takes no fewer columns -/

section Later

variable {s mark : Bytes} {keep keep' : Int} (hmark : (mark.getD 0 0).toNat &&& 0xC0 ≠ 0x80)
  (hone : textCells mark = 1)

theorem cellsFrom_eq_of_fuel (s : Bytes) {fuel fuel' i : Nat} (h : s.length - i ≤ fuel)
    (h' : s.length - i ≤ fuel') : cellsFrom s fuel i = cellsFrom s fuel' i :=
  Nat.le_antisymm (cellsFrom_le_of_fuel s fuel h') (cellsFrom_le_of_fuel s fuel' h)

theorem cellsFrom_step {t : Bytes} {i fuel : Nat} (hi : i < t.length) (hfuel : t.length - i ≤ fuel) :
    cellsFrom t fuel i =
      charWidth false (utf8Decode t i).2 + cellsFrom t fuel (i + (utf8Decode t i).1) := by
  have hpos := utf8Decode_pos t i
  cases fuel with
  | zero => omega
  | succ fuel =>
      rw [cellsFrom, if_pos hi]
      exact congrArg _ (cellsFrom_eq_of_fuel t (by omega) (by omega))

theorem cellsFrom_end {t : Bytes} {i fuel : Nat} (hi : t.length ≤ i) : cellsFrom t fuel i = 0 := by
  cases fuel with
  | zero => rfl
  | succ fuel => rw [cellsFrom, if_neg (Nat.not_lt.2 hi)]

/-- The columns of a cut text from where it is cut. -/
theorem cellsFrom_mark {k fuel : Nat} (hk : k ≤ s.length) (hfuel : mark.length ≤ fuel) :
    cellsFrom (s.take k ++ mark) fuel k = textCells mark := by
  have hlen : (s.take k).length = k := List.length_take_of_le hk
  have hrest := cellsFrom_append (s.take k) mark fuel 0
  rw [hlen, Nat.add_zero] at hrest
  rw [hrest]
  exact cellsFrom_eq_of_fuel mark (by omega) (by omega)

include hmark hone

/-- The mark is seen, or what swallows it. -/
theorem one_le_cellsFrom_cut (fuel : Nat) : ∀ {i : Nat} {seen : Int},
    keepTo s keep fuel i seen < s.length → ∀ fuel',
    (s.take (keepTo s keep fuel i seen) ++ mark).length ≤ fuel' →
      1 ≤ cellsFrom (s.take (keepTo s keep fuel i seen) ++ mark) fuel' i := by
  induction fuel with
  | zero =>
      intro i seen hk fuel' hfuel
      simp only [keepTo] at hk hfuel ⊢
      rw [cellsFrom_mark hk.le (by rw [List.length_append] at hfuel; omega), hone]
  | succ fuel ih =>
      intro i seen hk fuel' hfuel
      have hi : i < s.length := (le_keepTo s keep _ i seen).trans_lt hk
      by_cases hcut : seen + charWidth false (utf8Decode s i).2 > keep
      · rw [keepTo_stop hi hcut] at hfuel ⊢
        rw [cellsFrom_mark hi.le (by rw [List.length_append] at hfuel; omega), hone]
      · rw [keepTo_step hi hcut] at hk hfuel ⊢
        have hpos := utf8Decode_pos s i
        have hrest := ih hk fuel' hfuel
        have hle := le_keepTo s keep fuel (i + (utf8Decode s i).1)
          (seen + charWidth false (utf8Decode s i).2)
        generalize keepTo s keep fuel _ _ = k at *
        have hlen : i < (s.take k ++ mark).length := by
          rw [List.length_append, List.length_take]
          omega
        rw [cellsFrom_step hlen (by omega)]
        rcases (parts_take hk.le hmark).decode hk (by omega) hle with hsame | ⟨hend, -⟩
        · rw [hsame]
          omega
        · rw [hend]
          simp only [charWidth_kReplacement]
          omega

/-- What is kept of more columns takes no fewer. -/
theorem cellsFrom_cut_mono (h : keep ≤ keep') (fuel : Nat) : ∀ {i : Nat} {seen : Int},
    keepTo s keep' fuel i seen < s.length →
    keepTo s keep fuel i seen ≤ keepTo s keep' fuel i seen ∧ ∀ fuel',
    (s.take (keepTo s keep' fuel i seen) ++ mark).length ≤ fuel' →
      cellsFrom (s.take (keepTo s keep fuel i seen) ++ mark) fuel' i ≤
        cellsFrom (s.take (keepTo s keep' fuel i seen) ++ mark) fuel' i := by
  induction fuel with
  | zero => exact fun _ => ⟨le_refl _, fun _ _ => le_refl _⟩
  | succ fuel ih =>
      intro i seen hk'
      have hi : i < s.length := (le_keepTo s keep' _ i seen).trans_lt hk'
      by_cases hcut : seen + charWidth false (utf8Decode s i).2 > keep
      · have hle := le_keepTo s keep' (fuel + 1) i seen
        rw [keepTo_stop hi hcut]
        refine ⟨hle, fun fuel' hfuel => ?_⟩
        have hsome := one_le_cellsFrom_cut hmark hone (fuel + 1) hk' fuel' hfuel
        rw [cellsFrom_mark hi.le (by rw [List.length_append] at hfuel; omega), hone]
        exact hsome
      · have hcut' : ¬ seen + charWidth false (utf8Decode s i).2 > keep' := by omega
        have hsome := one_le_cellsFrom_cut hmark hone (fuel + 1) hk'
        rw [keepTo_step hi hcut'] at hk' hsome
        rw [keepTo_step hi hcut, keepTo_step hi hcut']
        obtain ⟨hle, hrest⟩ := ih hk'
        refine ⟨hle, fun fuel' hfuel => ?_⟩
        have hmarked := hsome fuel' hfuel
        have hpos := utf8Decode_pos s i
        have hfar := le_keepTo s keep fuel (i + (utf8Decode s i).1)
          (seen + charWidth false (utf8Decode s i).2)
        have hcells := hrest fuel' hfuel
        generalize keepTo s keep fuel _ _ = k at *
        generalize keepTo s keep' fuel _ _ = k' at *
        have hlen : ∀ {k : Nat}, k < s.length → (s.take k ++ mark).length = k + mark.length := by
          intro k hk
          rw [List.length_append, List.length_take_of_le hk.le]
        have hk : k < s.length := hle.trans_lt hk'
        have hin : i < (s.take k ++ mark).length := by
          rw [hlen hk]
          omega
        obtain ⟨need, -, hneed⟩ := Parts.decode_eq (s := s) hi
        have hread := hneed (parts_take hk.le hmark) hk (by omega) hfar
        have hread' := hneed (parts_take hk'.le hmark) hk' (by omega) (hfar.trans hle)
        rw [hlen hk'] at hfuel
        have hstep : cellsFrom (s.take k ++ mark) fuel' i = _ :=
          cellsFrom_step hin (by rw [hlen hk]; omega)
        rw [hstep, hread]
        by_cases hend : i + need ≥ (s.take k ++ mark).length
        · -- the end is too near: one column, and nothing after it
          rw [if_pos hend, cellsFrom_end (by simp only; omega), charWidth_kReplacement]
          exact hmarked
        · have hend' : ¬ i + need ≥ (s.take k' ++ mark).length := by
            rw [hlen hk] at hend
            rw [hlen hk']
            omega
          have hin' : i < (s.take k' ++ mark).length := by
            rw [hlen hk']
            omega
          have hstep' : cellsFrom (s.take k' ++ mark) fuel' i = _ :=
            cellsFrom_step hin' (by rw [hlen hk']; omega)
          rw [if_neg hend, hstep', hread', if_neg hend']
          exact Nat.add_le_add_left hcells _

/-- **A text cut to more columns takes no fewer.** -/
theorem textCells_elideToCells_mono (s : Bytes) {cells cells' : Int} (h : cells ≤ cells') :
    textCells (elideToCells s cells mark) ≤ textCells (elideToCells s cells' mark) := by
  by_cases hpos : cells ≤ 0
  · have hnone : elideToCells s cells mark = [] := if_pos hpos
    rw [hnone]
    exact Nat.zero_le _
  by_cases hshort : textCells s ≤ cells
  · have hwhole : ∀ {c : Int}, 0 < c → textCells s ≤ c → elideToCells s c mark = s := by
      intro c hc hle
      rw [elideToCells, if_neg (Int.not_le.2 hc), if_pos hle]
    rw [hwhole (by omega) hshort, hwhole (by omega) (hshort.trans h)]
  by_cases hshort' : textCells s ≤ cells'
  · have hwhole : elideToCells s cells' mark = s := by
      rw [elideToCells, if_neg (by omega), if_pos hshort']
    have hle := textCells_elideToCells s cells (by omega) hmark
    rw [hwhole]
    omega
  · have hcut : ∀ {c : Int}, 0 < c → ¬ textCells s ≤ c →
        elideToCells s c mark = s.take (keepTo s (c - 1) s.length 0 0) ++ mark := by
      intro c hc hlong
      rw [elideToCells, if_neg (Int.not_le.2 hc), if_neg hlong, hone]
      exact if_neg (by omega)
    have hk := @keepTo_lt s (cells' - 1) s.length 0 0 (Nat.sub_le _ _) (by omega)
      (by unfold textCells at hshort'; omega)
    obtain ⟨hle, hcells⟩ := cellsFrom_cut_mono hmark hone (show cells - 1 ≤ cells' - 1 by omega) _ hk
    rw [hcut (by omega) hshort, hcut (by omega) hshort']
    unfold textCells
    have hlen : (s.take (keepTo s (cells - 1) s.length 0 0) ++ mark).length ≤
        (s.take (keepTo s (cells' - 1) s.length 0 0) ++ mark).length := by
      rw [List.length_append, List.length_append, List.length_take, List.length_take]
      omega
    rw [cellsFrom_eq_of_fuel _ (Nat.sub_le _ _) ((Nat.sub_le _ _).trans hlen)]
    exact hcells _ (le_refl _)

end Later

/-! ### Printable texts -/

section Printable
variable {s : Bytes}

theorem utf8Decode_printable (hs : ∀ b ∈ s, Printable b) {i : Nat} (hi : i < s.length) :
    (utf8Decode s i).1 = 1 ∧ charWidth false (utf8Decode s i).2 = 1 := by
  have hb := hs s[i] (List.getElem_mem hi)
  have hascii : s[i].toNat < 0x80 := hb.2.trans (by decide)
  simp only [utf8Decode, List.getElem?_eq_getElem hi, if_pos hascii, true_and]
  exact (charWidth_ascii_iff _ hascii).2 hb

theorem cellsFrom_printable (hs : ∀ b ∈ s, Printable b) (fuel : Nat) :
    ∀ {i}, s.length - i ≤ fuel → cellsFrom s fuel i = s.length - i := by
  induction fuel with
  | zero =>
      intro i hfuel
      simp only [cellsFrom]
      omega
  | succ fuel ih =>
      intro i hfuel
      unfold cellsFrom
      split
      next hi =>
        obtain ⟨hused, hwidth⟩ := utf8Decode_printable hs hi
        rw [hused, hwidth, ih (by omega)]
        omega
      next => omega

theorem textCells_printable (hs : ∀ b ∈ s, Printable b) : textCells s = s.length :=
  cellsFrom_printable hs _ (Nat.sub_le _ _)

/-- The columns of a text after a printable one. -/
theorem textCells_printable_append (hs : ∀ b ∈ s, Printable b) (r : Bytes) :
    textCells (s ++ r) = s.length + textCells r := by
  induction s with
  | nil => exact (Nat.zero_add _).symm
  | cons b s ih =>
      obtain ⟨hb, hrest⟩ := List.forall_mem_cons.1 hs
      have hascii : b.toNat < 0x80 := hb.2.trans (by decide)
      have hread : utf8Decode ([b] ++ (s ++ r)) 0 = ([b].length, b.toNat) := by
        simp only [utf8Decode, List.singleton_append, List.getElem?_cons_zero, if_pos hascii,
          List.length_singleton]
      rw [List.cons_append, ← List.singleton_append, textCells_append _ (List.cons_ne_nil _ _) hread,
        (charWidth_ascii_iff _ hascii).2 hb, ih hrest, List.length_cons]
      omega

/-- A printable byte is seen, or the replacement of what swallows it. -/
theorem one_le_cellsFrom {k : Nat} (hk : k < s.length) (hb : Printable s[k]) (fuel : Nat) :
    ∀ {i}, i ≤ k → s.length - i ≤ fuel → 1 ≤ cellsFrom s fuel i := by
  have hascii : s[k].toNat < 0x80 := hb.2.trans (by decide)
  have hstop : (s.getD k 0).toNat &&& 0xC0 ≠ 0x80 := by
    rw [List.getD_eq_getElem?_getD, List.getElem?_eq_getElem hk, Option.getD_some]
    have hand : s[k].toNat &&& 0xC0 ≤ s[k].toNat := Nat.and_le_left
    intro hcontinues
    omega
  induction fuel with
  | zero =>
      intro i hi hfuel
      omega
  | succ fuel ih =>
      intro i hi hfuel
      have hin : i < s.length := hi.trans_lt hk
      rw [cellsFrom_step hin hfuel]
      have hpos := utf8Decode_pos s i
      rcases Nat.eq_or_lt_of_le hi with rfl | hlt
      · have hone : charWidth false (utf8Decode s i).2 = 1 := by
          simp only [utf8Decode, List.getElem?_eq_getElem hk, if_pos hascii]
          exact (charWidth_ascii_iff _ hascii).2 hb
        omega
      · rcases utf8Decode_stop hlt hk hstop with hbefore | hswallowed
        · have hrest := ih hbefore (by omega)
          have hsame := @cellsFrom_eq_of_fuel s fuel (fuel + 1) (i + (utf8Decode s i).1) (by omega)
            (by omega)
          omega
        · rw [hswallowed]
          simp only [charWidth_kReplacement]
          omega

theorem textCells_pos {b : UInt8} (hmem : b ∈ s) (hb : Printable b) : 0 < textCells s := by
  obtain ⟨k, hk, rfl⟩ := List.getElem_of_mem hmem
  exact one_le_cellsFrom hk hb _ (Nat.zero_le _) (Nat.sub_le _ _)

theorem keepTo_printable (hs : ∀ b ∈ s, Printable b) {keep : Int} (fuel : Nat) :
    ∀ {i : Nat} {seen : Int}, s.length - i ≤ fuel → seen ≤ keep → keep < seen + (s.length - i : Nat) →
      (keepTo s keep fuel i seen : Int) = i + (keep - seen) := by
  induction fuel with
  | zero =>
      intro i seen hfuel hseen hlong
      omega
  | succ fuel ih =>
      intro i seen hfuel hseen hlong
      have hi : i < s.length := by omega
      obtain ⟨hused, hwidth⟩ := utf8Decode_printable hs hi
      by_cases hcut : seen + charWidth false (utf8Decode s i).2 > keep
      · rw [keepTo_stop hi hcut]
        omega
      · rw [keepTo_step hi hcut, hused, hwidth, ih (by omega) (by omega) (by omega)]
        push_cast
        omega

/-- **A printable text is cut to just the columns there are.** -/
theorem elideToCells_printable (hs : ∀ b ∈ s, Printable b) {mark : UInt8} (hmark : Printable mark)
    {cells : Int} (hpos : 0 < cells) (hle : cells ≤ s.length) :
    (∀ b ∈ elideToCells s cells [mark], Printable b) ∧
      ((elideToCells s cells [mark]).length : Int) = cells := by
  have hone : textCells [mark] = 1 := textCells_printable (List.forall_mem_singleton.2 hmark)
  unfold elideToCells
  rw [if_neg (by omega), textCells_printable hs]
  split
  · exact ⟨hs, by omega⟩
  simp only [hone]
  rw [if_neg (by omega)]
  have hkeep := @keepTo_printable s hs (cells - (1 : Nat)) s.length 0 0 (Nat.sub_le _ _) (by omega) (by omega)
  refine ⟨List.forall_mem_append.2 ⟨fun b hb => hs b (List.take_subset _ _ hb), ?_⟩, ?_⟩
  · exact List.forall_mem_singleton.2 hmark
  · rw [List.length_append, List.length_take, List.length_singleton]
    omega

end Printable

end Sshos.Render
