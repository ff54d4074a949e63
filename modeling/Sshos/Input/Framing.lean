import Sshos.Input.Parser
import Sshos.Lib.Incremental

/-!
# Sshos.Input.Framing

The **input language** as a framing: what stands at the front of the unread bytes, a
whole bracketed paste being one frame. Neither the mode of the parser, nor the place
where it stopped looking for the end of a paste, nor the pieces a long paste is
delivered in, appear here.
-/

namespace Sshos.Input

open Sshos.Common (utf8Decode utf8Continuations)
open Sshos.Lib (Bytes Front Framing)

/-! ### Finding a pattern -/

/-- Where a pattern is found: there, and nowhere before. -/
def FirstAt (pat s : Bytes) (lo i : Nat) : Prop :=
  lo ≤ i ∧ pat <+: s.drop i ∧ ∀ j, lo ≤ j → j < i → ¬ pat <+: s.drop j

theorem findFrom_go {pat : Bytes} (hpat : pat ≠ []) (s : Bytes) :
    ∀ lo, match findFrom.go pat s lo with
      | some i => lo ≤ i ∧ pat <+: s.drop (i - lo) ∧ ∀ j, lo ≤ j → j < i → ¬ pat <+: s.drop (j - lo)
      | none => ∀ j, ¬ pat <+: s.drop j := by
  induction s with
  | nil =>
      intro lo
      have hempty : pat.isEmpty = false := by simpa using hpat
      simp only [findFrom.go, hempty, Bool.false_eq_true, if_false, List.drop_nil, List.prefix_nil]
      exact fun _ => hpat
  | cons c s ih =>
      intro lo
      unfold findFrom.go
      by_cases hhere : pat <+: c :: s
      · rw [if_pos (List.isPrefixOf_iff_prefix.2 hhere)]
        refine ⟨Nat.le_refl lo, by simpa using hhere, fun j h1 h2 => by omega⟩
      · rw [if_neg (mt List.isPrefixOf_iff_prefix.1 hhere)]
        have hrest := ih (lo + 1)
        cases hgo : findFrom.go pat s (lo + 1) with
        | none =>
            rw [hgo] at hrest
            intro j
            cases j with
            | zero => exact hhere
            | succ j => exact hrest j
        | some i =>
            rw [hgo] at hrest
            obtain ⟨hle, hfound, hbefore⟩ := hrest
            refine ⟨by omega, ?_, ?_⟩
            · rwa [show i - lo = (i - (lo + 1)) + 1 by omega]
            · intro j hj hji
              by_cases hjlo : j = lo
              · rw [hjlo, Nat.sub_self]
                exact hhere
              · rw [show j - lo = (j - (lo + 1)) + 1 by omega]
                exact hbefore j (by omega) hji

theorem findFrom_some {pat s : Bytes} {lo i : Nat} (hpat : pat ≠ []) (h : findFrom pat lo s = some i) :
    FirstAt pat s lo i := by
  have hgo := findFrom_go hpat (s.drop lo) lo
  unfold findFrom at h
  rw [h] at hgo
  obtain ⟨hle, hfound, hbefore⟩ := hgo
  simp only [List.drop_drop] at hfound hbefore
  refine ⟨hle, ?_, fun j hj hji => ?_⟩
  · rwa [show lo + (i - lo) = i by omega] at hfound
  · have := hbefore j hj hji
    rwa [show lo + (j - lo) = j by omega] at this

theorem findFrom_none {pat s : Bytes} {lo : Nat} (hpat : pat ≠ []) (h : findFrom pat lo s = none) :
    ∀ j, lo ≤ j → ¬ pat <+: s.drop j := by
  have hgo := findFrom_go hpat (s.drop lo) lo
  unfold findFrom at h
  rw [h] at hgo
  intro j hj
  have := hgo (j - lo)
  rwa [List.drop_drop, show lo + (j - lo) = j by omega] at this

theorem FirstAt.unique {pat s : Bytes} {lo i j : Nat} (hi : FirstAt pat s lo i)
    (hj : FirstAt pat s lo j) : i = j := by
  obtain ⟨hlo, hfound, hbefore⟩ := hi
  obtain ⟨hlo', hfound', hbefore'⟩ := hj
  by_contra hne
  obtain hlt | hlt := Nat.lt_or_gt_of_ne hne
  · exact hbefore' i hlo hlt hfound
  · exact hbefore j hlo' hlt hfound'

theorem findFrom_eq_some {pat s : Bytes} {lo i : Nat} (hpat : pat ≠ []) (h : FirstAt pat s lo i) :
    findFrom pat lo s = some i := by
  cases hfind : findFrom pat lo s with
  | none => exact absurd h.2.1 (findFrom_none hpat hfind i h.1)
  | some j => rw [(findFrom_some hpat hfind).unique h]

/-- A place where the pattern stands leaves room for it. -/
theorem prefix_drop_length {pat s : Bytes} {i : Nat} (hpat : pat ≠ []) (h : pat <+: s.drop i) :
    i + pat.length ≤ s.length := by
  have hlen := h.length_le
  have hpos := List.length_pos_iff.2 hpat
  rw [List.length_drop] at hlen
  omega

/-- What comes later does not change the places that are complete. -/
theorem prefix_drop_append {pat s : Bytes} {i : Nat} (more : Bytes) (h : i + pat.length ≤ s.length) :
    pat <+: (s ++ more).drop i ↔ pat <+: s.drop i := by
  rw [List.drop_append_of_le_length (by omega)]
  constructor
  · intro hp
    exact List.prefix_of_prefix_length_le hp (List.prefix_append _ _) (by rw [List.length_drop]; omega)
  · intro hp
    exact hp.trans (List.prefix_append _ _)

theorem FirstAt.append {pat s : Bytes} {lo i : Nat} (hpat : pat ≠ []) (h : FirstAt pat s lo i)
    (more : Bytes) : FirstAt pat (s ++ more) lo i := by
  obtain ⟨hlo, hfound, hbefore⟩ := h
  have hroom := prefix_drop_length hpat hfound
  refine ⟨hlo, (prefix_drop_append more hroom).2 hfound, fun j hj hji => ?_⟩
  exact mt (prefix_drop_append more (by omega)).1 (hbefore j hj hji)

/-! ### What stands at the front -/

/-- What opens a bracketed paste, `ESC [ 200 ~`. -/
def kPasteStart : Bytes := [0x1b, 0x5b, 0x32, 0x30, 0x30, 0x7e]

/-- A byte that starts no escape sequence, at the front of `b`. -/
def byteFront (b0 : UInt8) (b : Bytes) : Front InputEvent :=
  if b0 = 0x0d ∨ b0 = 0x0a then .take 1 (some (.key { key := .enter }))
  else if b0 = 0x09 then .take 1 (some (.key { key := .tab }))
  else if b0 = 0x7f ∨ b0 = 0x08 then .take 1 (some (.key { key := .backspace }))
  else if b0 < 0x20 then
    let letter := if b0 = 0 then 0x20 else 0x61 + b0.toNat - 1
    .take 1 (some (.key { key := .char, ch := letter, mods := { ctrl := true } }))
  else if b.length < utf8SeqLen b0 then .needMore
  else .take (utf8Decode b 0).1 (some (.key { key := .char, ch := (utf8Decode b 0).2 }))

/-- The first parameter, zero when it is missing. -/
def firstParam (params : Bytes) : Int :=
  match splitParams params with
  | n :: _ => if n < 0 then 0 else n
  | [] => 0

/-- The modifiers, which the second parameter tells. -/
def modsOf (params : Bytes) : Mods :=
  match splitParams params with
  | _ :: m :: _ => modsFromParam m
  | _ => {}

/-- A control sequence that opens a paste. -/
def startsPaste (params : Bytes) (final : UInt8) : Bool :=
  params.head? != some 0x3c && final == 0x7e && firstParam params == 200

/-- What any other control sequence means, if anything. -/
def csiEvent (params : Bytes) (final : UInt8) : Option InputEvent :=
  if params.head? = some 0x3c then
    (InputParser.mouseOf (splitParams params.tail) final).map .mouse
  else if final = 0x49 ∨ final = 0x4f then some (.focus (final = 0x49))
  else if final = 0x7e then
    some (.key { key := keyFromTilde (firstParam params), mods := modsOf params })
  else some (.key { key := keyFromFinal final, mods := modsOf params })

/-- A paste whose opening took `n` bytes, before `text`. -/
def pasteFront (n : Nat) (text : Bytes) : Front InputEvent :=
  match findFrom kPasteEnd 0 text with
  | some i => .take (n + i + kPasteEnd.length) (some (.paste (text.take i) true))
  | none => .needMore

/-- A control sequence, `body` being what follows its introducer. -/
def csiFront (body : Bytes) : Front InputEvent :=
  match csiEnd body 2 with
  | .incomplete => .needMore
  | .abandoned i => .take i none
  | .final i =>
      if startsPaste (body.take (i - 2)) (body.getD (i - 2) 0) then
        pasteFront (i + 1) (body.drop (i - 1))
      else .take (i + 1) (csiEvent (body.take (i - 2)) (body.getD (i - 2) 0))

/-- What follows an escape. -/
def escapeFront : Bytes → Front InputEvent
  | [] => .needMore
  | b1 :: body =>
      if b1 = 0x4f then
        match body with
        | [] => .needMore
        | f :: _ => .take 3 (some (.key { key := keyFromFinal f }))
      else if b1 ≠ 0x5b then
        .take 2 (if 0x20 ≤ b1 ∧ b1 < 0x7f then
          some (.key { key := .char, ch := b1.toNat, mods := { alt := true } }) else none)
      else csiFront body

/-- The front of the unread bytes. -/
def inputFront : Bytes → Front InputEvent
  | [] => .needMore
  | b0 :: rest => if b0 ≠ 0x1b then byteFront b0 (b0 :: rest) else escapeFront rest

/-! ### The laws -/

/-- The sequence ends inside the body, and what follows does not matter. -/
theorem csiEnd_spec (body : Bytes) :
    ∀ i, match csiEnd body i with
      | .incomplete => True
      | .abandoned j => i ≤ j ∧ j < i + body.length ∧ kMaxCsiParamsLen ≤ j - 2 ∧
          ∀ more, csiEnd (body ++ more) i = .abandoned j
      | .final j => i ≤ j ∧ j < i + body.length ∧ ∀ more, csiEnd (body ++ more) i = .final j := by
  induction body with
  | nil => exact fun i => trivial
  | cons c cs ih =>
      intro i
      simp only [csiEnd, List.cons_append, List.length_cons]
      by_cases hlong : i - 2 ≥ kMaxCsiParamsLen
      · simp only [if_pos hlong]
        exact ⟨Nat.le_refl i, by omega, hlong, fun _ => trivial⟩
      by_cases hfinal : 0x40 ≤ c ∧ c ≤ 0x7e
      · simp only [if_neg hlong, if_pos hfinal]
        exact ⟨Nat.le_refl i, by omega, fun _ => trivial⟩
      · simp only [if_neg hlong, if_neg hfinal]
        have hrest := ih (i + 1)
        split <;> rename_i j heq <;> rw [heq] at hrest
        · trivial
        · exact ⟨by omega, by omega, hrest.2.2.1, hrest.2.2.2⟩
        · exact ⟨by omega, by omega, hrest.2.2⟩

theorem utf8Continuations_append {s : Bytes} (more : Bytes) :
    ∀ {left k cp : Nat}, k + left ≤ s.length →
      utf8Continuations (s ++ more) 0 left k cp = utf8Continuations s 0 left k cp
  | 0, _, _, _ => rfl
  | left + 1, k, cp, h => by
      have hget : (s ++ more).getD (0 + k) 0 = s.getD (0 + k) 0 := by
        rw [List.getD_eq_getElem?_getD, List.getD_eq_getElem?_getD,
          List.getElem?_append_left (by omega)]
      unfold utf8Continuations
      simp only [hget]
      split
      · rfl
      · exact utf8Continuations_append more (by omega)

theorem utf8Continuations_error {s : Bytes} :
    ∀ {left k cp k' : Nat}, utf8Continuations s 0 left k cp = .error k' → k ≤ k' ∧ k' < k + left
  | 0, _, _, _, h => by cases h
  | left + 1, k, cp, k', h => by
      unfold utf8Continuations at h
      simp only at h
      split at h
      · cases h
        omega
      · have := utf8Continuations_error h
        omega

theorem mask_eq_iff (b m v : UInt8) : b &&& m = v ↔ b.toNat &&& m.toNat = v.toNat := by
  rw [← UInt8.toNat_and, UInt8.toNat_inj]

/-- What a first byte above ASCII announces: how many bytes follow, and its own bits. -/
def leadOf (b0 : Nat) : Option (Nat × Nat) :=
  if b0 &&& 0xE0 = 0xC0 then some (1, b0 &&& 0x1F)
  else if b0 &&& 0xF0 = 0xE0 then some (2, b0 &&& 0x0F)
  else if b0 &&& 0xF8 = 0xF0 then some (3, b0 &&& 0x07)
  else none

theorem utf8SeqLen_eq (b0 : UInt8) :
    utf8SeqLen b0 = if b0.toNat < 0x80 then 1 else match leadOf b0.toNat with
      | none => 1
      | some (need, _) => need + 1 := by
  have hlt : b0 < 0x80 ↔ b0.toNat < 0x80 := UInt8.lt_iff_toNat_lt
  have h2 : b0 &&& 0xE0 = 0xC0 ↔ b0.toNat &&& 0xE0 = 0xC0 := mask_eq_iff b0 0xE0 0xC0
  have h3 : b0 &&& 0xF0 = 0xE0 ↔ b0.toNat &&& 0xF0 = 0xE0 := mask_eq_iff b0 0xF0 0xE0
  have h4 : b0 &&& 0xF8 = 0xF0 ↔ b0.toNat &&& 0xF8 = 0xF0 := mask_eq_iff b0 0xF8 0xF0
  unfold utf8SeqLen leadOf
  simp only [hlt, h2, h3, h4]
  by_cases c1 : b0.toNat < 0x80
  · simp only [if_pos c1]
  by_cases c2 : b0.toNat &&& 0xE0 = 0xC0
  · simp only [if_neg c1, if_pos c2]
  by_cases c3 : b0.toNat &&& 0xF0 = 0xE0
  · simp only [if_neg c1, if_neg c2, if_pos c3]
  by_cases c4 : b0.toNat &&& 0xF8 = 0xF0
  · simp only [if_neg c1, if_neg c2, if_neg c3, if_pos c4]
  · simp only [if_neg c1, if_neg c2, if_neg c3, if_neg c4]

/-- A value that is no scalar, or that has a shorter form. -/
def badScalar (need cp : Nat) : Prop :=
  (0xD800 ≤ cp ∧ cp ≤ 0xDFFF) ∨ cp > 0x10FFFF ∨
    ((need = 1 ∧ cp < 0x80) ∨ (need = 2 ∧ cp < 0x800) ∨ (need = 3 ∧ cp < 0x10000))

instance (need cp : Nat) : Decidable (badScalar need cp) := inferInstanceAs (Decidable (_ ∨ _ ∨ _))

theorem utf8Decode_cons (b0 : UInt8) (rest : Bytes) :
    utf8Decode (b0 :: rest) 0 =
      if b0.toNat < 0x80 then (1, b0.toNat)
      else match leadOf b0.toNat with
        | none => (1, Common.kReplacement)
        | some (need, cp) =>
            if 0 + need ≥ (b0 :: rest).length then ((b0 :: rest).length - 0, Common.kReplacement)
            else match utf8Continuations (b0 :: rest) 0 need 1 cp with
              | .error k => (k, Common.kReplacement)
              | .ok cp => if badScalar need cp then (need + 1, Common.kReplacement) else (need + 1, cp) :=
  rfl

/-- Once the announced bytes are there, a character is read off them alone. -/
theorem utf8Decode_stable {b0 : UInt8} {rest : Bytes} (h : utf8SeqLen b0 ≤ (b0 :: rest).length) :
    ∃ used cp, 0 < used ∧ used ≤ utf8SeqLen b0 ∧
      ∀ more, utf8Decode (b0 :: (rest ++ more)) 0 = (used, cp) := by
  simp only [utf8Decode_cons]
  rw [utf8SeqLen_eq] at h ⊢
  by_cases hascii : b0.toNat < 0x80
  · simp only [if_pos hascii]
    exact ⟨1, b0.toNat, by omega, by omega, fun _ => rfl⟩
  simp only [if_neg hascii] at h ⊢
  cases hlead : leadOf b0.toNat with
  | none => exact ⟨1, Common.kReplacement, by omega, Nat.le_refl 1, fun _ => rfl⟩
  | some lead =>
      obtain ⟨need, cp⟩ := lead
      rw [hlead] at h
      simp only at h ⊢
      have hroom : ∀ more : Bytes, ¬ 0 + need ≥ (b0 :: (rest ++ more)).length := by
        intro more
        simp only [List.length_cons, List.length_append] at h ⊢
        omega
      have hcont : ∀ more, utf8Continuations (b0 :: (rest ++ more)) 0 need 1 cp =
          utf8Continuations (b0 :: rest) 0 need 1 cp :=
        fun more => utf8Continuations_append (s := b0 :: rest) more (by omega)
      simp only [if_neg (hroom _), hcont]
      cases hout : utf8Continuations (b0 :: rest) 0 need 1 cp with
      | error k =>
          have hk := utf8Continuations_error hout
          exact ⟨k, Common.kReplacement, by omega, by omega, fun _ => rfl⟩
      | ok cp' =>
          by_cases hbad : badScalar need cp'
          · exact ⟨need + 1, Common.kReplacement, by omega, Nat.le_refl _, fun _ => if_pos hbad⟩
          · exact ⟨need + 1, cp', by omega, Nat.le_refl _, fun _ => if_neg hbad⟩

theorem kPasteEnd_ne_nil : kPasteEnd ≠ [] := by decide

/-! A verdict covers a part of the bytes, and what comes later does not change it. -/

theorem pasteFront_holds {n k : Nat} {text : Bytes} {out : Option InputEvent}
    (h : pasteFront n text = .take k out) :
    n < k ∧ k ≤ n + text.length ∧ ∀ more, pasteFront n (text ++ more) = .take k out := by
  unfold pasteFront at h
  cases hfind : findFrom kPasteEnd 0 text with
  | none => simp only [hfind] at h; cases h
  | some i =>
      simp only [hfind] at h
      obtain ⟨rfl, rfl⟩ := Front.take.inj h
      have hfirst := findFrom_some kPasteEnd_ne_nil hfind
      have hroom := prefix_drop_length kPasteEnd_ne_nil hfirst.2.1
      have hlen : kPasteEnd.length = 6 := rfl
      refine ⟨by omega, by omega, fun more => ?_⟩
      unfold pasteFront
      rw [findFrom_eq_some kPasteEnd_ne_nil (hfirst.append kPasteEnd_ne_nil more)]
      simp only [List.take_append_of_le_length (show i ≤ text.length by omega)]

theorem csiFront_holds {body : Bytes} {n : Nat} {out : Option InputEvent}
    (h : csiFront body = .take n out) :
    0 < n ∧ n ≤ body.length + 2 ∧ ∀ more, csiFront (body ++ more) = .take n out := by
  have hspec := csiEnd_spec body 2
  unfold csiFront at h ⊢
  cases hend : csiEnd body 2 with
  | incomplete => simp only [hend] at h; cases h
  | abandoned i =>
      simp only [hend] at h hspec
      obtain ⟨rfl, rfl⟩ := Front.take.inj h
      refine ⟨by omega, by omega, fun more => ?_⟩
      simp only [hspec.2.2.2 more]
  | final i =>
      simp only [hend] at h hspec
      obtain ⟨hlo, hhi, hstable⟩ := hspec
      have htake : ∀ more, (body ++ more).take (i - 2) = body.take (i - 2) :=
        fun more => List.take_append_of_le_length (by omega)
      have hget : ∀ more, (body ++ more).getD (i - 2) 0 = body.getD (i - 2) 0 := by
        intro more
        rw [List.getD_eq_getElem?_getD, List.getD_eq_getElem?_getD,
          List.getElem?_append_left (by omega)]
      have hdrop : ∀ more, (body ++ more).drop (i - 1) = body.drop (i - 1) ++ more :=
        fun more => List.drop_append_of_le_length (by omega)
      simp only [hstable, htake, hget, hdrop]
      split at h
      · rename_i hpaste
        obtain ⟨hpos, hroom, hmore⟩ := pasteFront_holds h
        rw [List.length_drop] at hroom
        refine ⟨by omega, by omega, fun more => ?_⟩
        rw [if_pos hpaste]
        exact hmore more
      · rename_i hpaste
        obtain ⟨rfl, rfl⟩ := Front.take.inj h
        exact ⟨by omega, by omega, fun more => if_neg hpaste⟩

theorem escapeFront_holds {rest : Bytes} {n : Nat} {out : Option InputEvent}
    (h : escapeFront rest = .take n out) :
    0 < n ∧ n ≤ rest.length + 1 ∧ ∀ more, escapeFront (rest ++ more) = .take n out := by
  cases rest with
  | nil => cases h
  | cons b1 body =>
      unfold escapeFront at h
      simp only [List.cons_append, escapeFront]
      by_cases hss3 : b1 = 0x4f
      · simp only [if_pos hss3] at h ⊢
        cases body with
        | nil => cases h
        | cons f body =>
            obtain ⟨rfl, rfl⟩ := Front.take.inj h
            exact ⟨by omega, by simp, fun more => rfl⟩
      simp only [if_neg hss3] at h ⊢
      by_cases halt : b1 ≠ 0x5b
      · simp only [if_pos halt] at h ⊢
        obtain ⟨rfl, rfl⟩ := Front.take.inj h
        exact ⟨by omega, by simp, fun more => rfl⟩
      · simp only [if_neg halt] at h ⊢
        obtain ⟨hpos, hroom, hmore⟩ := csiFront_holds h
        exact ⟨hpos, by rw [List.length_cons]; omega, hmore⟩

theorem byteFront_holds {b0 : UInt8} {rest : Bytes} {n : Nat} {out : Option InputEvent}
    (h : byteFront b0 (b0 :: rest) = .take n out) :
    0 < n ∧ n ≤ rest.length + 1 ∧ ∀ more, byteFront b0 (b0 :: (rest ++ more)) = .take n out := by
  have hone : ∀ out', Front.take 1 out' = .take n out →
      0 < n ∧ n ≤ rest.length + 1 ∧ ∀ _ : Bytes, Front.take 1 out' = .take n out := by
    intro out' h'
    obtain ⟨rfl, rfl⟩ := Front.take.inj h'
    exact ⟨by omega, by omega, fun _ => rfl⟩
  unfold byteFront at h ⊢
  by_cases c1 : b0 = 0x0d ∨ b0 = 0x0a
  · simp only [if_pos c1] at h ⊢
    exact hone _ h
  by_cases c2 : b0 = 0x09
  · simp only [if_neg c1, if_pos c2] at h ⊢
    exact hone _ h
  by_cases c3 : b0 = 0x7f ∨ b0 = 0x08
  · simp only [if_neg c1, if_neg c2, if_pos c3] at h ⊢
    exact hone _ h
  by_cases c4 : b0 < 0x20
  · simp only [if_neg c1, if_neg c2, if_neg c3, if_pos c4] at h ⊢
    exact hone _ h
  simp only [if_neg c1, if_neg c2, if_neg c3, if_neg c4] at h ⊢
  by_cases hmore : (b0 :: rest).length < utf8SeqLen b0
  · rw [if_pos hmore] at h
    cases h
  · rw [if_neg hmore] at h
    obtain ⟨used, cp, hpos, hused, hstable⟩ := utf8Decode_stable (Nat.le_of_not_lt hmore)
    have hhere := hstable []
    rw [List.append_nil] at hhere
    rw [hhere] at h
    obtain ⟨rfl, rfl⟩ := Front.take.inj h
    rw [List.length_cons] at hmore
    refine ⟨hpos, by omega, fun more => ?_⟩
    rw [if_neg (by simp only [List.length_cons, List.length_append]; omega), hstable]

theorem inputFront_holds {b : Bytes} {n : Nat} {out : Option InputEvent}
    (h : inputFront b = .take n out) :
    0 < n ∧ n ≤ b.length ∧ ∀ more, inputFront (b ++ more) = .take n out := by
  cases b with
  | nil => cases h
  | cons b0 rest =>
      simp only [inputFront, List.cons_append] at h ⊢
      by_cases hesc : b0 ≠ 0x1b
      · simp only [if_pos hesc] at h ⊢
        exact byteFront_holds h
      · simp only [if_neg hesc] at h ⊢
        exact escapeFront_holds h

/-- Nothing a client can send is refused. -/
theorem inputFront_ne_fail (b : Bytes) : inputFront b ≠ .fail := by
  unfold inputFront byteFront escapeFront csiFront pasteFront
  repeat' split
  all_goals exact nofun

/-- The framing of the input. -/
def inputFraming : Framing UInt8 InputEvent where
  front := inputFront
  front_nil := rfl
  front_take h := ⟨(inputFront_holds h).1, (inputFront_holds h).2.1⟩
  front_append {b} c h := by
    cases hf : inputFront b with
    | needMore => exact absurd hf h
    | fail => exact absurd hf (inputFront_ne_fail b)
    | take n out => exact (inputFront_holds hf).2.2 c

end Sshos.Input
