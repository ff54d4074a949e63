import Mathlib.Data.List.Induction
import Sshos.Vt.ParserReads

/-!
# Sshos.Vt.ParserParams

The **parameters** of a control sequence, whatever their number and their length. Up to the cap
each is delivered as it is written, cut at the ceiling. Beyond the cap none is delivered, but
their digits still fall on the last one that is.
-/

namespace Sshos.Vt

open Sshos.Lib

/-- The number that digits write. -/
def number (ds : List (Fin 10)) : Nat := ds.foldl (fun v (d : Fin 10) => v * 10 + d) 0

/-- A parameter as it is written: whether a colon stands before it, and its digits. -/
structure ParamText where
  sub : Bool := false
  digits : List (Fin 10) := []
  deriving Repr, DecidableEq

/-- What digits are worth as a parameter: no digit at all is not zero. -/
def paramValue (ds : List (Fin 10)) : Int := if ds = [] then -1 else min (number ds : Int) kMaxParamValue

namespace ParamText

def bytes (t : ParamText) : Bytes := t.digits.map fun d : Fin 10 => digitByte d

def param (t : ParamText) : Param := { value := paramValue t.digits, sub := t.sub }

/-- The same parameter with more digits. -/
def more (t : ParamText) (ds : List (Fin 10)) : ParamText := { t with digits := t.digits ++ ds }

end ParamText

/-! ### Numbers -/

theorem number_concat (ds : List (Fin 10)) (d : Fin 10) : number (ds ++ [d]) = number ds * 10 + d := by
  rw [number, List.foldl_append]
  rfl

/-- More digits never make a number smaller. -/
theorem number_le (ds es : List (Fin 10)) : number ds ≤ number (ds ++ es) := by
  induction es using List.reverseRecOn with
  | nil => rw [List.append_nil]
  | append_singleton es e ih =>
      rw [← List.append_assoc, number_concat]
      omega

/-- Below the ceiling, digits change a number unless it is zero and so are they. -/
theorem number_append_eq_iff (ds es : List (Fin 10)) :
    min (number (ds ++ es)) 65535 = min (number ds) 65535 ↔
      es = [] ∨ 65535 ≤ number ds ∨ (number ds = 0 ∧ ∀ e ∈ es, e = 0) := by
  induction es using List.reverseRecOn with
  | nil => simp
  | append_singleton es e ih =>
      have hle := number_le ds es
      rw [← List.append_assoc, number_concat]
      simp only [List.append_eq_nil_iff, List.cons_ne_self, and_false, false_or, List.mem_append,
        List.mem_singleton]
      constructor
      · intro h
        by_cases hceil : 65535 ≤ number ds
        · exact .inl hceil
        -- the number has not grown, so it is zero, and so is its last digit
        have hzero : number ds = 0 := by omega
        have hlast : (e : Nat) = 0 := by omega
        have hsame : min (number (ds ++ es)) 65535 = min (number ds) 65535 := by omega
        refine .inr ⟨hzero, ?_⟩
        rintro d (hd | rfl)
        · rcases ih.1 hsame with rfl | hceil' | ⟨-, hall⟩
          · cases hd
          · exact absurd hceil' hceil
          · exact hall d hd
        · exact Fin.ext hlast
      · rintro (hceil | ⟨hzero, hall⟩)
        · omega
        · have hlast : (e : Nat) = 0 := congrArg Fin.val (hall e (.inr rfl))
          have hsame := ih.2 (.inr (.inr ⟨hzero, fun d hd => hall d (.inl hd)⟩))
          omega

/-! ### Digits -/

theorem pushDigit_paramValue (ds : List (Fin 10)) (d : Fin 10) :
    Parser.pushDigit (paramValue ds) (d : Nat) = paramValue (ds ++ [d]) := by
  have hvalue : ∀ n, (Parser.paramOf n).value = min (n : Int) kMaxParamValue := Parser.paramOf_value
  rw [paramValue, paramValue, if_neg (List.append_ne_nil_of_right_ne_nil _ (List.cons_ne_nil _ _)),
    number_concat, ← hvalue]
  split
  next hnil =>
    rw [hnil, Parser.pushDigit_absent d.isLt, hvalue]
    simp [number]
  next =>
    rw [← hvalue, Parser.pushDigit_paramOf _ _ d.isLt]

namespace Parser

variable {p : Parser}

theorem step_paramDigit (params : Params) (t : ParamText) (d : Fin 10) :
    (p.inCsi .csiParam (params ++ [t.param])).step (digitByte d) =
      (p.inCsi .csiParam (params ++ [(t.more [d]).param]), []) := by
  rw [step_digit_param d.isLt]
  simp only [ParamText.param, ParamText.more, pushDigit_paramValue]

/-- Digits go to the last parameter. -/
theorem feed_paramDigits (params : Params) (t : ParamText) (ds : List (Fin 10)) :
    (p.inCsi .csiParam (params ++ [t.param])).feed (ds.map fun d : Fin 10 => digitByte d) =
      (p.inCsi .csiParam (params ++ [(t.more ds).param]), []) := by
  induction ds generalizing t with
  | nil => simp [ParamText.more]
  | cons d ds ih =>
      rw [List.map_cons, feed_cons_silent (step_paramDigit params t d), ih]
      simp [ParamText.more]

/-! ### Parameters -/

/-- The parameters once one more is read: beyond the cap its digits go to the last. -/
def absorb (ts : List ParamText) (t : ParamText) : List ParamText :=
  if ts.length < kMaxParams then ts ++ [t] else ts.dropLast ++ [(ts.getLast?.getD {}).more t.digits]

theorem absorb_ne_nil (ts : List ParamText) (t : ParamText) : absorb ts t ≠ [] := by
  unfold absorb
  split <;> exact List.append_ne_nil_of_right_ne_nil _ (List.cons_ne_nil _ _)

theorem feed_param {ts : List ParamText} (hne : ts ≠ []) (t : ParamText) :
    (p.inCsi .csiParam (ts.map ParamText.param)).feed (sepByte t.sub :: t.bytes) =
      (p.inCsi .csiParam ((absorb ts t).map ParamText.param), []) := by
  have hsep := @step_separator p (ts.map ParamText.param) (by simpa using hne) t.sub
  rw [feed_cons_silent hsep, List.length_map]
  unfold absorb
  split
  next hroom =>
    have hdigits := feed_paramDigits (p := p) (ts.map ParamText.param) { sub := t.sub } t.digits
    rw [List.map_append]
    exact hdigits
  next hfull =>
    obtain ⟨init, last, rfl⟩ := List.eq_nil_or_concat' ts |>.resolve_left hne
    have hdigits := feed_paramDigits (p := p) (init.map ParamText.param) last t.digits
    simp only [List.dropLast_concat, List.getLast?_concat, Option.getD_some, List.map_append,
      List.map_singleton]
    exact hdigits

/-- Parameters after the first one, each behind its separator. -/
def paramsBytes (ts : List ParamText) : Bytes := ts.flatMap fun t => sepByte t.sub :: t.bytes

theorem feed_params {ts : List ParamText} (hne : ts ≠ []) (rest : List ParamText) :
    (p.inCsi .csiParam (ts.map ParamText.param)).feed (paramsBytes rest) =
      (p.inCsi .csiParam ((rest.foldl absorb ts).map ParamText.param), []) := by
  induction rest generalizing ts with
  | nil => rfl
  | cons t rest ih =>
      have hcons : paramsBytes (t :: rest) = (sepByte t.sub :: t.bytes) ++ paramsBytes rest := rfl
      rw [hcons, feed_append, feed_param hne, ih (absorb_ne_nil ts t)]
      rfl

/-- Up to the cap each parameter is kept. -/
theorem foldl_absorb_room {ts rest : List ParamText} (h : ts.length + rest.length ≤ kMaxParams) :
    rest.foldl absorb ts = ts ++ rest := by
  induction rest generalizing ts with
  | nil => rw [List.append_nil, List.foldl_nil]
  | cons t rest ih =>
      rw [List.length_cons] at h
      have hone : absorb ts t = ts ++ [t] := if_pos (by omega)
      rw [List.foldl_cons, hone, ih (by rw [List.length_append, List.length_singleton]; omega),
        List.append_assoc, List.singleton_append]

/-- Beyond the cap all the digits go to the last one. -/
theorem foldl_absorb_full {init : List ParamText} (h : ¬ init.length + 1 < kMaxParams)
    (last : ParamText) (rest : List ParamText) :
    rest.foldl absorb (init ++ [last]) = init ++ [last.more (rest.flatMap ParamText.digits)] := by
  induction rest generalizing last with
  | nil => simp [ParamText.more]
  | cons t rest ih =>
      have hone : absorb (init ++ [last]) t = init ++ [last.more t.digits] := by
        unfold absorb
        rw [if_neg (by simpa using h), List.dropLast_concat, List.getLast?_concat]
        rfl
      rw [List.foldl_cons, hone, ih]
      simp [ParamText.more]

/-! ### Sequences -/

/-- `ESC [`, the parameters as they are written, and the final byte. -/
def csiText (first : List (Fin 10)) (rest : List ParamText) (finalByte : UInt8) : Bytes :=
  [0x1B, 0x5B] ++ ParamText.bytes { digits := first } ++ paramsBytes rest ++ [finalByte]

/-- In the ground state an escape costs at most the character that was open. -/
theorem feed_introducer_ground (hp : p.state = .ground) (bytes : Bytes) :
    p.feed (0x1B :: 0x5B :: bytes) =
      (((p.flushUtf8AsReplacement.1.inCsi .csiEntry []).feed bytes).1,
        p.flushUtf8AsReplacement.2 ++ ((p.flushUtf8AsReplacement.1.inCsi .csiEntry []).feed bytes).2) := by
  have hneed : p.flushUtf8AsReplacement.1.utf8Need = 0 := by
    unfold flushUtf8AsReplacement
    split
    · assumption
    · rfl
  have hesc : p.step 0x1B =
      (clearSequence { p.flushUtf8AsReplacement.1 with state := .escape },
        p.flushUtf8AsReplacement.2) := by
    simp [step, groundStep, groundByte, groundFresh, hp, hneed]
  have hcsi : (clearSequence { p.flushUtf8AsReplacement.1 with state := .escape }).step 0x5B =
      (p.flushUtf8AsReplacement.1.inCsi .csiEntry [], []) := rfl
  rw [feed_cons, hesc, feed_cons_silent hcsi]

/-- The first parameter, when there is more than an empty one. -/
theorem feed_firstParams {first : List (Fin 10)} {rest : List ParamText}
    (hsome : first ≠ [] ∨ rest ≠ []) :
    (p.inCsi .csiEntry []).feed (ParamText.bytes { digits := first } ++ paramsBytes rest) =
      (p.inCsi .csiParam ((rest.foldl absorb [{ digits := first }]).map ParamText.param), []) := by
  cases first with
  | cons d ds =>
      have hfirst : (p.inCsi .csiEntry []).step (digitByte d) =
          (p.inCsi .csiParam [ParamText.param { digits := [d] }], []) := by
        rw [step_digit_entry d.isLt]
        simp [ParamText.param, paramValue, paramOf, number, kMaxParamValue]
      have hdigits := feed_paramDigits (p := p) [] { digits := [d] } ds
      have hrest := feed_params (p := p) (List.cons_ne_nil ({ digits := d :: ds } : ParamText) []) rest
      show feed _ (digitByte d :: ((ds.map fun d : Fin 10 => digitByte d) ++ paramsBytes rest)) = _
      rw [feed_cons_silent hfirst, feed_append]
      simp only [List.nil_append] at hdigits
      rw [hdigits]
      exact hrest
  | nil =>
      obtain ⟨t, rest, rfl⟩ := List.exists_cons_of_ne_nil (hsome.resolve_left fun h => h rfl)
      -- a separator in front of everything stands behind an empty parameter
      have hsep : (p.inCsi .csiEntry []).step (sepByte t.sub) =
          (p.inCsi .csiParam [{}, { value := -1, sub := t.sub }], []) := by
        cases t.sub <;> rfl
      have hdigits := feed_paramDigits (p := p) [{}] { sub := t.sub } t.digits
      have hrest := feed_params (p := p) (List.cons_ne_nil ({} : ParamText) [t]) rest
      show feed _ (sepByte t.sub :: (t.bytes ++ paramsBytes rest)) = _
      rw [feed_cons_silent hsep, feed_append]
      have hdigits' : (p.inCsi .csiParam [{}, { value := -1, sub := t.sub }]).feed t.bytes =
          (p.inCsi .csiParam ([({} : ParamText), t].map ParamText.param), []) := hdigits
      rw [hdigits']
      exact hrest

/-- A control sequence is delivered, and nothing else. -/
def isCsi : SinkCall → Bool
  | .csi _ _ _ => true
  | _ => false

/-- **What is delivered**, from the ground state. -/
theorem csi_delivered (hp : p.state = .ground) {first : List (Fin 10)} {rest : List ParamText}
    {finalByte : UInt8} (hfinal : isFinal finalByte) (hsome : first ≠ [] ∨ rest ≠ []) :
    (p.feed (csiText first rest finalByte)).2.filter isCsi =
      [.csi ((rest.foldl absorb [{ digits := first }]).map ParamText.param) [] finalByte] := by
  obtain ⟨h0, h1, h2, h3, h4, h5, h6, h7⟩ := final_spec hfinal
  have hlast : ∀ (q : Parser) (params : Params), (q.inCsi .csiParam params).step finalByte =
      ({ q.inCsi .csiParam params with state := .ground }, [.csi params [] finalByte]) := by
    intro q params
    simp [step, csiParamStep, inCsi, hfinal, h0, h1, h2, h3, h4, h5, h6, h7]
  have hflush : p.flushUtf8AsReplacement.2.filter isCsi = [] := by
    unfold flushUtf8AsReplacement
    split <;> rfl
  have hsplit : csiText first rest finalByte =
      0x1B :: 0x5B :: ((ParamText.bytes { digits := first } ++ paramsBytes rest) ++ [finalByte]) := by
    simp [csiText]
  rw [hsplit, feed_introducer_ground hp, feed_append, feed_firstParams hsome, feed_cons, hlast,
    List.filter_append, hflush]
  rfl

/-- The digits of the parameters beyond the cap. -/
def beyond (ts : List ParamText) : List (Fin 10) := (ts.drop kMaxParams).flatMap ParamText.digits

/-- Past the cap, the last parameter has all the digits that follow. -/
theorem foldl_absorb_past {t0 : ParamText} {rest : List ParamText}
    (h : kMaxParams < (t0 :: rest).length) :
    ∃ init last, (t0 :: rest).take kMaxParams = init ++ [last] ∧
      (t0 :: rest)[kMaxParams - 1]? = some last ∧
      rest.foldl absorb [t0] = init ++ [last.more (beyond (t0 :: rest))] := by
  have hlen : kMaxParams - 1 < (t0 :: rest).length := by omega
  obtain ⟨init, last, hinit, hlast⟩ : ∃ init last, (t0 :: rest).take kMaxParams = init ++ [last] ∧
      (t0 :: rest)[kMaxParams - 1]? = some last :=
    ⟨_, _, List.take_succ_eq_append_getElem hlen, List.getElem?_eq_getElem hlen⟩
  have hfull : init.length + 1 = kMaxParams := by
    have hcount := congrArg List.length hinit
    rw [List.length_take, List.length_append, List.length_singleton] at hcount
    omega
  -- the parameters up to the cap, then the others
  have hkept : (rest.take (kMaxParams - 1)).foldl absorb [t0] = init ++ [last] := by
    rw [foldl_absorb_room (by rw [List.length_take]; simp [kMaxParams]; omega), ← hinit]
    rfl
  refine ⟨init, last, hinit, hlast, ?_⟩
  rw [← List.take_append_drop (kMaxParams - 1) rest, List.foldl_append, hkept,
    foldl_absorb_full (by omega), List.take_append_drop]
  rfl

/-- What stands beyond the cap cannot be told: there are no digits there, or the last parameter
is at the ceiling already, or all is zero. -/
def Untold (ts : List ParamText) : Prop :=
  beyond ts = [] ∨ ∃ t ∈ ts[kMaxParams - 1]?, t.digits ≠ [] ∧
    (65535 ≤ number t.digits ∨ (number t.digits = 0 ∧ ∀ d ∈ beyond ts, d = 0))

theorem paramValue_append_iff (ds es : List (Fin 10)) :
    paramValue (ds ++ es) = paramValue ds ↔
      es = [] ∨ (ds ≠ [] ∧ (65535 ≤ number ds ∨ (number ds = 0 ∧ ∀ e ∈ es, e = 0))) := by
  by_cases hes : es = []
  · simp [hes]
  have hmin : ∀ n : Nat, min (n : Int) kMaxParamValue = (min n 65535 : Nat) := by
    intro n
    simp [kMaxParamValue]
  rw [paramValue, if_neg (List.append_ne_nil_of_right_ne_nil _ hes), hmin, paramValue]
  by_cases hds : ds = []
  · rw [if_pos hds]
    refine iff_of_false (by omega) ?_
    rintro (h | ⟨h, -⟩)
    · exact hes h
    · exact h hds
  · rw [if_neg hds, hmin, Int.natCast_inj, number_append_eq_iff]
    simp only [hes, false_or, ne_eq, hds, not_false_eq_true, true_and]

/-- **Parameters are delivered faithfully** exactly when what stands beyond the cap cannot be
told: one call, the parameters up to the cap, each as it is written and cut at the ceiling. -/
theorem csi_faithful_iff (hp : p.state = .ground) (first : List (Fin 10)) (rest : List ParamText)
    {finalByte : UInt8} (hfinal : isFinal finalByte) (hsome : first ≠ [] ∨ rest ≠ []) :
    (p.feed (csiText first rest finalByte)).2.filter isCsi =
        [.csi ((({ digits := first } :: rest).take kMaxParams).map ParamText.param) [] finalByte] ↔
      Untold ({ digits := first } :: rest) := by
  rw [csi_delivered hp hfinal hsome, List.cons.injEq, and_iff_left rfl, SinkCall.csi.injEq,
    and_iff_left ⟨rfl, rfl⟩]
  generalize hts : ({ digits := first } :: rest : List ParamText) = ts
  by_cases hroom : ts.length ≤ kMaxParams
  · -- nothing stands beyond the cap
    have hbeyond : beyond ts = [] := by
      rw [beyond, List.drop_eq_nil_of_le hroom]
      rfl
    refine iff_of_true ?_ (.inl hbeyond)
    rw [foldl_absorb_room (by rw [← hts] at hroom; simp at hroom ⊢; omega), List.singleton_append, hts,
      List.take_of_length_le hroom]
  · obtain ⟨init, last, hinit, hlast, habsorbed⟩ := @foldl_absorb_past { digits := first } rest
      (by rw [hts]; omega)
    rw [hts] at hinit hlast habsorbed
    rw [habsorbed, hinit, List.map_append, List.map_append, List.append_cancel_left_eq,
      List.map_singleton, List.map_singleton, List.cons.injEq, and_iff_left rfl, ParamText.param,
      ParamText.param, Param.mk.injEq]
    show paramValue (last.digits ++ beyond ts) = paramValue last.digits ∧ last.sub = last.sub ↔ _
    rw [and_iff_left rfl, paramValue_append_iff, Untold, hlast]
    simp

/-- A colour with two sub-parameters, an empty one and a value cut at the
ceiling. -/
theorem csi_faithful_iff_colours :
    (({} : Parser).feed (csiText [3, 8] [⟨true, [2]⟩, ⟨true, []⟩, ⟨false, [9, 9, 9, 9, 9, 9]⟩] 0x6D)).2.filter
        isCsi =
      [.csi [{ value := 38 }, { value := 2, sub := true }, { value := -1, sub := true },
        { value := 65535 }] [] 0x6D] :=
  (csi_faithful_iff rfl [3, 8] [⟨true, [2]⟩, ⟨true, []⟩, ⟨false, [9, 9, 9, 9, 9, 9]⟩] (by decide)
    (.inl (by decide))).2 (.inl rfl)

/-- One parameter too many: the last that is delivered takes its digit. -/
theorem not_all_csi_faithful :
    ¬ ∀ rest : List ParamText,
      (({} : Parser).feed (csiText [1] rest 0x6D)).2.filter isCsi =
        [.csi ((({ digits := [1] } :: rest).take kMaxParams).map ParamText.param) [] 0x6D] := by
  intro hall
  exact absurd (hall (List.replicate 32 { digits := [1] })) (by decide +kernel)

end Parser

end Sshos.Vt
