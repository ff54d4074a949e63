import Sshos.Common.Utf8
import Sshos.Lib.Decimal
import Sshos.Vt.Parser

/-!
# Sshos.Vt.ParserReads

What the parser makes of **whole sequences**: a character in UTF-8, a control sequence
with decimal parameters. `Reads bytes calls` says that from rest the bytes make exactly
these calls and lead back to rest, so readings can be put end to end.
-/

namespace Sshos.Vt

open Sshos.Lib
open Sshos.Common (encodeUtf8 IsScalar)

namespace Parser

variable {p : Parser}

/-! ### Feeding -/

theorem foldl_feed (p : Parser) (calls : List SinkCall) (bytes : Bytes) :
    bytes.foldl (fun r b => ((r.1.step b).1, r.2 ++ (r.1.step b).2)) (p, calls) =
      ((p.feed bytes).1, calls ++ (p.feed bytes).2) := by
  induction bytes generalizing p calls with
  | nil => simp [feed]
  | cons b bytes ih =>
      have hfeed : p.feed (b :: bytes) =
          (((p.step b).1.feed bytes).1, (p.step b).2 ++ ((p.step b).1.feed bytes).2) := by
        show bytes.foldl _ (_, [] ++ (p.step b).2) = _
        rw [ih, List.nil_append]
      rw [List.foldl_cons, ih, hfeed, List.append_assoc]

@[simp] theorem feed_nil (p : Parser) : p.feed [] = (p, []) := rfl

theorem feed_cons (p : Parser) (b : UInt8) (bytes : Bytes) :
    p.feed (b :: bytes) =
      (((p.step b).1.feed bytes).1, (p.step b).2 ++ ((p.step b).1.feed bytes).2) := by
  show bytes.foldl _ (_, [] ++ (p.step b).2) = _
  rw [foldl_feed, List.nil_append]

theorem feed_append (p : Parser) (as bs : Bytes) :
    p.feed (as ++ bs) =
      (((p.feed as).1.feed bs).1, (p.feed as).2 ++ ((p.feed as).1.feed bs).2) := by
  unfold feed
  rw [List.foldl_append]
  exact foldl_feed _ _ bs

/-- A byte that makes no call. -/
theorem feed_cons_silent {b : UInt8} {q : Parser} (h : p.step b = (q, [])) (bytes : Bytes) :
    p.feed (b :: bytes) = q.feed bytes := by
  rw [feed_cons, h]
  simp

/-! ### Readings -/

/-- Between two sequences. -/
structure Quiet (p : Parser) : Prop where
  state : p.state = .ground
  utf8 : p.utf8Need = 0

/-- From rest, the bytes make these calls and lead back to rest. -/
def Reads (bytes : Bytes) (calls : List SinkCall) : Prop :=
  ∀ p : Parser, p.Quiet → ∃ q : Parser, q.Quiet ∧ p.feed bytes = (q, calls)

theorem Reads.nil : Reads [] [] := fun p hp => ⟨p, hp, rfl⟩

theorem Reads.append {as bs : Bytes} {cs ds : List SinkCall} (ha : Reads as cs) (hb : Reads bs ds) :
    Reads (as ++ bs) (cs ++ ds) := by
  intro p hp
  obtain ⟨q, hq, hfeed⟩ := ha p hp
  obtain ⟨r, hr, hfeed'⟩ := hb q hq
  exact ⟨r, hr, by rw [feed_append, hfeed, hfeed']⟩

/-! ### Characters -/

/-- A continuation byte carrying these six bits. -/
def contByte (k : Nat) : UInt8 := UInt8.ofNat (0x80 ||| k)

theorem contByte_spec : ∀ k, k < 64 →
    contByte k &&& 0xC0 = 0x80 ∧ (contByte k &&& 0x3F).toNat = k ∧ contByte k ≠ 0x1B := by
  decide

/-- In the middle of a character. -/
def midUtf8 (p : Parser) (acc need seen min : Nat) : Parser :=
  { p with utf8Acc := acc, utf8Need := need, utf8Seen := seen, utf8Min := min }

theorem shiftLeft_or {acc k : Nat} (hk : k < 64) : acc <<< 6 ||| k = acc * 64 + k := by
  rw [← Nat.shiftLeft_add_eq_or_of_lt (show k < 2 ^ 6 from hk), Nat.shiftLeft_eq]

theorem step_cont (hp : p.Quiet) {acc need seen min k : Nat} (hk : k < 64) (hmore : seen + 1 < need) :
    (p.midUtf8 acc need seen min).step (contByte k) =
      (p.midUtf8 (acc * 64 + k) need (seen + 1) min, []) := by
  obtain ⟨h0, h1, h2⟩ := contByte_spec k hk
  have hneed : 0 < need := by omega
  simp [step, groundStep, groundByte, utf8Next, midUtf8, hp.state, h0, h1, h2, hneed, hmore,
    shiftLeft_or hk]

theorem step_lastCont (hp : p.Quiet) (acc need min : Nat) {k : Nat} (hk : k < 64)
    (hmin : min ≤ acc * 64 + k) (hscalar : IsScalar (acc * 64 + k)) :
    (p.midUtf8 acc (need + 1) need min).step (contByte k) =
      (p.clearUtf8, [.print (acc * 64 + k)]) := by
  obtain ⟨h0, h1, h2⟩ := contByte_spec k hk
  have hvalid : ¬ (acc * 64 + k < min ∨ (0xD800 ≤ acc * 64 + k ∧ acc * 64 + k ≤ 0xDFFF) ∨
      acc * 64 + k > 0x10FFFF) := by
    unfold IsScalar at hscalar
    omega
  simp [step, groundStep, groundByte, utf8Next, midUtf8, hp.state, h0, h1, h2, shiftLeft_or hk,
    clearUtf8]
  omega

theorem quiet_clearUtf8 (hp : p.Quiet) : p.clearUtf8.Quiet := ⟨hp.state, rfl⟩

/-- From rest, a printable ASCII character is itself. -/
theorem reads_ascii {cp : Nat} (h0 : 0x20 ≤ cp) (h1 : cp < 0x7F) :
    Reads [UInt8.ofNat cp] [.print cp] := by
  intro p hp
  refine ⟨p, hp, ?_⟩
  have hbyte : (UInt8.ofNat cp).toNat = cp := by
    rw [UInt8.toNat_ofNat']
    omega
  have hne : ∀ c : UInt8, c.toNat < 0x20 ∨ 0x7F ≤ c.toNat → UInt8.ofNat cp ≠ c := by
    rintro c hc rfl
    omega
  have hc0 : isC0 (UInt8.ofNat cp) = false := by
    simp only [isC0, UInt8.le_iff_toNat_le, hbyte, UInt8.reduceToNat, ge_iff_le,
      Bool.or_eq_false_iff, decide_eq_false_iff_not, Bool.and_eq_false_iff, beq_eq_false_iff_ne]
    exact ⟨⟨by omega, hne _ (by decide)⟩, .inr (by omega)⟩
  have hlt : UInt8.ofNat cp < 0x80 := by
    rw [UInt8.lt_iff_toNat_lt, hbyte]
    exact Nat.lt_trans h1 (by decide)
  rw [feed_cons]
  simp [step, groundStep, groundByte, groundFresh, hp.state, hp.utf8, hc0, hlt, hbyte,
    hne 0x1B (by decide), hne 0x18 (by decide), hne 0x1A (by decide), hne 0x7F (by decide)]

theorem lead_spec :
    (∀ k, k < 32 → 2 ≤ k → let b := UInt8.ofNat (0xC0 ||| k)
      0xC2 ≤ b ∧ b ≤ 0xDF ∧ (b &&& 0x1F).toNat = k) ∧
    (∀ k, k < 16 → let b := UInt8.ofNat (0xE0 ||| k)
      ¬ b ≤ 0xDF ∧ 0xE0 ≤ b ∧ b ≤ 0xEF ∧ (b &&& 0x0F).toNat = k) ∧
    (∀ k, k < 5 → let b := UInt8.ofNat (0xF0 ||| k)
      ¬ b ≤ 0xEF ∧ 0xF0 ≤ b ∧ b ≤ 0xF4 ∧ (b &&& 0x07).toNat = k) := by
  decide

/-- From rest, a byte from `0x80` on opens a character or is replaced. -/
theorem step_high (hp : p.Quiet) {b : UInt8} (hb : 0x80 ≤ b) : p.step b = p.utf8Lead b := by
  have hlow : ∀ c : UInt8, c < 0x80 → b ≠ c := by
    rintro c hc rfl
    exact absurd hb (UInt8.not_le.2 hc)
  have hc0 : isC0 b = false := by
    rw [UInt8.le_iff_toNat_le] at hb
    simp only [isC0, UInt8.le_iff_toNat_le, UInt8.reduceToNat, ge_iff_le, Bool.or_eq_false_iff,
      decide_eq_false_iff_not, Bool.and_eq_false_iff, beq_eq_false_iff_ne] at hb ⊢
    exact ⟨⟨by omega, hlow _ (by decide)⟩, .inr (by omega)⟩
  simp [step, groundStep, groundByte, groundFresh, hp.state, hp.utf8, hc0, UInt8.not_lt.2 hb,
    hlow 0x1B (by decide), hlow 0x18 (by decide), hlow 0x1A (by decide), hlow 0x7F (by decide)]

theorem reads_two (hp : p.Quiet) (k0 k1 : Nat) (h0 : 2 ≤ k0) (h0' : k0 < 32) (h1 : k1 < 64) :
    p.feed [UInt8.ofNat (0xC0 ||| k0), contByte k1] = (p.clearUtf8, [.print (k0 * 64 + k1)]) := by
  obtain ⟨hlo, hhi, hbits⟩ := lead_spec.1 k0 h0' h0
  generalize UInt8.ofNat (0xC0 ||| k0) = b at hlo hhi hbits ⊢
  have hlead : p.step b = (p.midUtf8 k0 1 0 0x80, []) := by
    rw [step_high hp (UInt8.le_trans (by decide) hlo)]
    simp [utf8Lead, hlo, hhi, hbits, midUtf8]
  have hlast := step_lastCont hp k0 0 0x80 h1 (by omega) ⟨by omega, by omega⟩
  rw [feed_cons_silent hlead, feed_cons, hlast]
  rfl

theorem reads_three (hp : p.Quiet) (k0 k1 k2 : Nat) (h0 : k0 < 16) (h1 : k1 < 64) (h2 : k2 < 64)
    (hmin : 0x800 ≤ (k0 * 64 + k1) * 64 + k2) (hscalar : IsScalar ((k0 * 64 + k1) * 64 + k2)) :
    p.feed [UInt8.ofNat (0xE0 ||| k0), contByte k1, contByte k2] =
      (p.clearUtf8, [.print ((k0 * 64 + k1) * 64 + k2)]) := by
  obtain ⟨hout, hlo, hhi, hbits⟩ := lead_spec.2.1 k0 h0
  generalize UInt8.ofNat (0xE0 ||| k0) = b at hout hlo hhi hbits ⊢
  have hlead : p.step b = (p.midUtf8 k0 2 0 0x800, []) := by
    rw [step_high hp (UInt8.le_trans (by decide) hlo)]
    simp [utf8Lead, hout, hlo, hhi, hbits, midUtf8]
  rw [feed_cons_silent hlead, feed_cons_silent (step_cont hp h1 (by omega)), feed_cons,
    step_lastCont hp _ 1 0x800 h2 hmin hscalar]
  rfl

theorem reads_four (hp : p.Quiet) (k0 k1 k2 k3 : Nat) (h0 : k0 < 5) (h1 : k1 < 64) (h2 : k2 < 64)
    (h3 : k3 < 64) (hmin : 0x10000 ≤ ((k0 * 64 + k1) * 64 + k2) * 64 + k3)
    (hscalar : IsScalar (((k0 * 64 + k1) * 64 + k2) * 64 + k3)) :
    p.feed [UInt8.ofNat (0xF0 ||| k0), contByte k1, contByte k2, contByte k3] =
      (p.clearUtf8, [.print (((k0 * 64 + k1) * 64 + k2) * 64 + k3)]) := by
  obtain ⟨hout, hlo, hhi, hbits⟩ := lead_spec.2.2 k0 h0
  generalize UInt8.ofNat (0xF0 ||| k0) = b at hout hlo hhi hbits ⊢
  have hlead : p.step b = (p.midUtf8 k0 3 0 0x10000, []) := by
    have hout' : ¬ b ≤ 0xDF := fun h => hout (UInt8.le_trans h (by decide))
    rw [step_high hp (UInt8.le_trans (by decide) hlo)]
    simp [utf8Lead, hout, hout', hlo, hhi, hbits, midUtf8]
  rw [feed_cons_silent hlead, feed_cons_silent (step_cont hp h1 (by omega)),
    feed_cons_silent (step_cont hp h2 (by omega)), feed_cons,
    step_lastCont hp _ 2 0x10000 h3 hmin hscalar]
  rfl

/-- **A character in UTF-8** is printed, whatever its length, unless it is a control. -/
theorem reads_encodeUtf8 {cp : Nat} (hscalar : IsScalar cp) (hlo : 0x20 ≤ cp) (hdel : cp ≠ 0x7F) :
    Reads (encodeUtf8 cp) [.print cp] := by
  have hmax := hscalar.2
  have hsame : (if (0xD800 ≤ cp ∧ cp ≤ 0xDFFF) ∨ cp > 0x10FFFF then Common.kReplacement else cp) = cp :=
    if_neg (by have := hscalar.1; omega)
  have hbits : ∀ n, n &&& 0x3F = n % 64 := fun n => Nat.and_two_pow_sub_one_eq_mod n 6
  have hshift : ∀ n k, n >>> k = n / 2 ^ k := fun n k => Nat.shiftRight_eq_div_pow n k
  simp only [encodeUtf8, hsame, hbits, hshift]
  split
  · exact reads_ascii hlo (by omega)
  intro p hp
  refine ⟨p.clearUtf8, quiet_clearUtf8 hp, ?_⟩
  split
  · have h := reads_two hp (cp / 64) (cp % 64) (by omega) (by omega) (by omega)
    rw [show cp / 64 * 64 + cp % 64 = cp by omega] at h
    exact h
  split
  · have heq : (cp / 4096 * 64 + cp / 64 % 64) * 64 + cp % 64 = cp := by omega
    have h := reads_three hp (cp / 4096) (cp / 64 % 64) (cp % 64) (by omega) (by omega)
      (by omega) (by omega) (by rw [heq]; exact hscalar)
    rw [heq] at h
    exact h
  · have heq : ((cp / 262144 * 64 + cp / 4096 % 64) * 64 + cp / 64 % 64) * 64 + cp % 64 = cp := by
      omega
    have h := reads_four hp (cp / 262144) (cp / 4096 % 64) (cp / 64 % 64) (cp % 64) (by omega)
      (by omega) (by omega) (by omega) (by omega)
      (by rw [heq]; exact hscalar)
    rw [heq] at h
    exact h

/-! ### Control sequences -/

/-- Inside a control sequence, with these parameters so far. -/
def inCsi (p : Parser) (state : VtState) (params : Params) : Parser :=
  { p with state := state, params := params, intermediates := [], oscData := [] }

/-- The parameter a number becomes: it is cut at the ceiling. -/
def paramOf (n : Nat) : Param := { value := min n 65535 }

theorem feed_introducer (hp : p.Quiet) (bytes : Bytes) :
    p.feed (0x1B :: 0x5B :: bytes) = (p.inCsi .csiEntry []).feed bytes := by
  have hesc : p.step 0x1B = (clearSequence { p with state := .escape }, []) := by
    simp [step, groundStep, flushUtf8AsReplacement, groundByte, groundFresh, hp.state, hp.utf8]
  have hcsi : (clearSequence { p with state := .escape }).step 0x5B = (p.inCsi .csiEntry [], []) := rfl
  rw [feed_cons_silent hesc, feed_cons_silent hcsi]

theorem digitByte_spec : ∀ d, d < 10 →
    isC0 (digitByte d) = false ∧ digitByte d ≠ 0x7F ∧ isFinal (digitByte d) = false ∧
    isIntermediate (digitByte d) = false ∧ isPrivate (digitByte d) = false ∧
    isDigit (digitByte d) ∧ digitByte d ≠ 0x18 ∧ digitByte d ≠ 0x1A ∧ digitByte d ≠ 0x1B ∧
    (digitByte d).toNat = 0x30 + d := by
  decide

theorem paramOf_value (n : Nat) : (paramOf n).value = min (n : Int) 65535 := by simp [paramOf]

/-- The ceiling is kept digit by digit. -/
theorem pushDigit_paramOf (v d : Nat) (hd : d < 10) :
    pushDigit (paramOf v).value d = (paramOf (v * 10 + d)).value := by
  have hpos : ¬ min (v : Int) 65535 < 0 := by omega
  have hmax : kMaxParamValue = 65535 := rfl
  rw [paramOf_value, paramOf_value]
  simp only [pushDigit]
  rw [if_neg hpos]
  by_cases hfits : min (v : Int) 65535 ≤ (kMaxParamValue - d) / 10
  · rw [if_pos hfits]
    omega
  · rw [if_neg hfits]
    omega

theorem pushDigit_absent {d : Nat} (hd : d < 10) : pushDigit (-1) d = (paramOf d).value := by
  have hmax : kMaxParamValue = 65535 := rfl
  rw [paramOf_value]
  simp only [pushDigit]
  rw [if_pos (by omega), if_pos (by omega)]
  omega

theorem step_digit_param {params : Params} {last : Param} {d : Nat} (hd : d < 10) :
    (p.inCsi .csiParam (params ++ [last])).step (digitByte d) =
      (p.inCsi .csiParam (params ++ [{ last with value := pushDigit last.value d }]), []) := by
  obtain ⟨h0, h1, -, -, -, h5, h6, h7, h8, h9⟩ := digitByte_spec d hd
  have hvalue : ((digitByte d).toNat : Int) - 0x30 = d := by omega
  simp [step, csiParamStep, inCsi, pushParamDigit, h0, h1, h5, h6, h7, h8, hvalue]

theorem step_digit_entry {d : Nat} (hd : d < 10) :
    (p.inCsi .csiEntry []).step (digitByte d) = (p.inCsi .csiParam [paramOf d], []) := by
  obtain ⟨h0, h1, h2, h3, h4, h5, h6, h7, h8, h9⟩ := digitByte_spec d hd
  have hvalue : ((digitByte d).toNat : Int) - 0x30 = d := by omega
  simp [step, csiEntryStep, inCsi, pushParamDigit, h0, h1, h2, h3, h4, h5, h6, h7, h8, hvalue,
    pushDigit_absent hd]
  rfl

/-- A number, whatever its first digit opens. -/
theorem feed_decimal {q : Parser} (params : Params)
    (hfirst : ∀ d, d < 10 → q.step (digitByte d) = (p.inCsi .csiParam (params ++ [paramOf d]), []))
    (n : Nat) : q.feed (decimal n) = (p.inCsi .csiParam (params ++ [paramOf n]), []) := by
  refine foldl_decimal (P := fun v r => r = (p.inCsi .csiParam (params ++ [paramOf v]), [])) ?_ ?_ n
  · intro d hd
    rw [hfirst d hd]
    rfl
  · rintro v r d hd rfl
    rw [step_digit_param hd, pushDigit_paramOf v d hd]
    rfl

/-- The byte between two parameters. -/
def sepByte (sub : Bool) : UInt8 := if sub then 0x3A else 0x3B

/-- A separator opens a parameter, as long as there is room. -/
theorem step_separator {params : Params} (hne : params ≠ []) (sub : Bool) :
    (p.inCsi .csiParam params).step (sepByte sub) =
      (p.inCsi .csiParam
        (if params.length < kMaxParams then params ++ [{ value := -1, sub := sub }] else params), []) := by
  have h : (p.inCsi .csiParam params).step (sepByte sub) =
      ((p.inCsi .csiParam params).separator (sepByte sub), []) := by
    cases sub <;> rfl
  have hsub : (sepByte sub == 0x3A) = sub := by cases sub <;> rfl
  rw [h]
  simp only [separator, nextParam, inCsi, hne, if_false, hsub]
  split <;> rfl

/-- The parameters after the first one, each behind its separator. -/
def furtherParams (ns : List Nat) : Bytes := ns.flatMap fun n => 0x3B :: decimal n

theorem feed_furtherParams {params : Params} (hne : params ≠ []) (ns : List Nat)
    (hroom : params.length + ns.length ≤ kMaxParams) :
    (p.inCsi .csiParam params).feed (furtherParams ns) =
      (p.inCsi .csiParam (params ++ ns.map paramOf), []) := by
  induction ns generalizing params with
  | nil => simp [furtherParams]
  | cons n ns ih =>
      have hsep : (p.inCsi .csiParam params).step 0x3B =
          (p.inCsi .csiParam (params ++ [({} : Param)]), []) := by
        have h := step_separator (p := p) hne false
        rwa [if_pos (by simp at hroom; omega)] at h
      have hnum : (p.inCsi .csiParam (params ++ [({} : Param)])).feed (decimal n) =
          (p.inCsi .csiParam (params ++ [paramOf n]), []) := by
        refine feed_decimal params (fun d hd => ?_) n
        rw [step_digit_param hd, pushDigit_absent hd]
        rfl
      show feed _ ((0x3B :: decimal n) ++ furtherParams ns) = _
      rw [List.cons_append, feed_cons_silent hsep, feed_append, hnum,
        ih (by simp) (by simp at hroom ⊢; omega)]
      simp

/-- `ESC [`, the parameters in decimal, and the final byte. -/
def csiBytes (params : List Nat) (finalByte : UInt8) : Bytes :=
  match params with
  | [] => [0x1B, 0x5B, finalByte]
  | n :: ns => [0x1B, 0x5B] ++ decimal n ++ furtherParams ns ++ [finalByte]

theorem final_spec {b : UInt8} (h : isFinal b) :
    isC0 b = false ∧ b ≠ 0x7F ∧ isDigit b = false ∧ b ≠ 0x3B ∧ b ≠ 0x3A ∧ b ≠ 0x18 ∧ b ≠ 0x1A ∧
      b ≠ 0x1B := by
  have hb : 0x40 ≤ b.toNat ∧ b.toNat ≤ 0x7E := by
    simpa [isFinal, UInt8.le_iff_toNat_le] using h
  have hne : ∀ c : UInt8, c.toNat < 0x40 ∨ 0x7E < c.toNat → b ≠ c := by
    rintro c hc rfl
    omega
  refine ⟨?_, hne _ (by decide), ?_, hne _ (by decide), hne _ (by decide), hne _ (by decide),
    hne _ (by decide), hne _ (by decide)⟩
  · simp only [isC0, UInt8.le_iff_toNat_le, UInt8.reduceToNat, ge_iff_le, Bool.or_eq_false_iff,
      decide_eq_false_iff_not, Bool.and_eq_false_iff, beq_eq_false_iff_ne]
    exact ⟨⟨by omega, hne _ (by decide)⟩, .inr (by omega)⟩
  · simp only [isDigit, UInt8.le_iff_toNat_le, UInt8.reduceToNat, ge_iff_le, Bool.and_eq_false_iff,
      decide_eq_false_iff_not]
    exact .inr (by omega)

theorem reads_csi {params : List Nat} {finalByte : UInt8} (hfinal : isFinal finalByte)
    (hroom : params.length ≤ kMaxParams) :
    Reads (csiBytes params finalByte) [.csi (params.map paramOf) [] finalByte] := by
  intro p hp
  obtain ⟨h0, h1, h2, h3, h4, h5, h6, h7⟩ := final_spec hfinal
  cases params with
  | nil =>
      refine ⟨{ p.inCsi .csiEntry [] with state := .ground }, ⟨rfl, hp.utf8⟩, ?_⟩
      have hlast : (p.inCsi .csiEntry []).step finalByte =
          ({ p.inCsi .csiEntry [] with state := .ground }, [.csi [] [] finalByte]) := by
        simp [step, csiEntryStep, inCsi, hfinal, h0, h1, h5, h6, h7]
      show p.feed (0x1B :: 0x5B :: [finalByte]) = _
      rw [feed_introducer hp, feed_cons, hlast]
      rfl
  | cons n ns =>
      refine ⟨{ p.inCsi .csiParam (paramOf n :: ns.map paramOf) with state := .ground },
        ⟨rfl, hp.utf8⟩, ?_⟩
      have hlast : (p.inCsi .csiParam (paramOf n :: ns.map paramOf)).step finalByte =
          ({ p.inCsi .csiParam (paramOf n :: ns.map paramOf) with state := .ground },
            [.csi (paramOf n :: ns.map paramOf) [] finalByte]) := by
        simp [step, csiParamStep, inCsi, hfinal, h0, h1, h2, h3, h4, h5, h6, h7]
      have hnum : (p.inCsi .csiEntry []).feed (decimal n) = (p.inCsi .csiParam [paramOf n], []) :=
        feed_decimal [] (fun d hd => step_digit_entry hd) n
      have hrest := feed_furtherParams (p := p) (show [paramOf n] ≠ [] by simp) ns
        (by simp at hroom ⊢; omega)
      show p.feed (0x1B :: 0x5B :: (decimal n ++ furtherParams ns ++ [finalByte])) = _
      rw [feed_introducer hp, List.append_assoc, feed_append, hnum, feed_append, hrest, feed_cons]
      simp only [List.singleton_append, hlast]
      rfl

end Parser

end Sshos.Vt
