import Sshos.Lib.Brackets
import Sshos.Vt.ParserReads

/-!
# Sshos.Vt.ParserResync

**Resynchronisation**: after CAN or SUB nothing of what came before can be told, and
the **bracket** of a device string is closed whichever way it is left.

What a sequence left behind may still lie in the parser, but in the ground state it is
out of reach: an escape clears it before anything reads it.
-/

namespace Sshos.Vt

open Sshos.Lib

namespace Parser

variable {p q : Parser} {b : UInt8}

/-! ### The decoder and the bracket of a device string -/

/-- The four counters of the decoder. -/
def utf8 (p : Parser) : Nat × Nat × Nat × Nat := (p.utf8Acc, p.utf8Need, p.utf8Seen, p.utf8Min)

/-- What a call is to the bracket of a device string. -/
def dcsMark : SinkCall → Mark
  | .dcsStart _ _ _ => .opening
  | .dcsEnd => .closing
  | .dcsData _ => .inner
  | _ => .outer

/-- A device string is being passed on. -/
def inDcs (p : Parser) : Bool := p.state == .dcsPassthrough

/-! ### Inside a sequence -/

/-- What a byte does there: the decoder is left alone, and the bracket follows the state. -/
structure WithinSequence (p : Parser) (r : Parser × List SinkCall) : Prop where
  utf8 : r.1.utf8 = p.utf8
  bracket : bracketAfter p.inDcs (r.2.map dcsMark) = some r.1.inDcs

namespace WithinSequence

theorem quiet (hutf8 : q.utf8 = p.utf8) (hin : q.inDcs = p.inDcs) : WithinSequence p (q, []) :=
  ⟨hutf8, congrArg some hin.symm⟩

theorem call {c : SinkCall} (hutf8 : q.utf8 = p.utf8) (hin : q.inDcs = p.inDcs)
    (hmark : dcsMark c = .outer) : WithinSequence p (q, [c]) := by
  refine ⟨hutf8, ?_⟩
  show bracketAfter p.inDcs [dcsMark c] = some q.inDcs
  rw [hmark, hin]
  rfl

theorem stay : WithinSequence p (p, []) := quiet rfl rfl

theorem execute : WithinSequence p (p, [.execute b]) := call rfl rfl rfl

/-- A device string starts. -/
theorem start (hout : p.inDcs = false) (params : Params) (intermediates : Bytes) (b : UInt8) :
    WithinSequence p ({ p with state := .dcsPassthrough }, [.dcsStart params intermediates b]) := by
  refine ⟨rfl, ?_⟩
  rw [hout]
  rfl

theorem collectTo {state refused : VtState} (hout : p.inDcs = false)
    (hstate : (state == .dcsPassthrough) = false) (hrefused : (refused == .dcsPassthrough) = false) :
    WithinSequence p (p.collectTo b state refused, []) := by
  unfold Parser.collectTo collect
  by_cases hfull : p.intermediates.length ≥ kMaxIntermediates
  · rw [if_pos hfull]
    exact quiet rfl (hrefused.trans hout.symm)
  · rw [if_neg hfull]
    exact quiet rfl (hstate.trans hout.symm)

/-- A sequence is left, and with it a device string that was being passed on. -/
theorem leave {state : VtState} (hstate : (state == .dcsPassthrough) = false) (calls : List SinkCall)
    (hcalls : ∀ isOpen, bracketAfter isOpen (calls.map dcsMark) = some isOpen) :
    bracketAfter p.inDcs
        (((if p.state = VtState.dcsPassthrough then [SinkCall.dcsEnd] else []) ++ calls).map dcsMark) =
      some (clearSequence { p with state := state }).inDcs := by
  have hout : (clearSequence { p with state := state }).inDcs = false := hstate
  rw [List.map_append, bracketAfter_append, hout]
  by_cases hdcs : p.state = .dcsPassthrough
  · have hin : p.inDcs = true := by simp [inDcs, hdcs]
    rw [if_pos hdcs, hin]
    exact hcalls false
  · have hin : p.inDcs = false := by simp [inDcs, hdcs]
    rw [if_neg hdcs, hin]
    exact hcalls false

end WithinSequence

theorem utf8_separator (p : Parser) (b : UInt8) : (p.separator b).utf8 = p.utf8 := by
  unfold separator nextParam
  repeat' split
  all_goals rfl

theorem inDcs_separator (p : Parser) (b : UInt8) : (p.separator b).inDcs = p.inDcs := by
  unfold separator nextParam
  repeat' split
  all_goals rfl

section States

variable (hout : p.inDcs = false) (b : UInt8)
include hout

theorem within_escapeStep : WithinSequence p (p.escapeStep b) := by
  unfold escapeStep
  repeat' split
  · exact .execute
  · exact .collectTo hout rfl rfl
  · exact .stay
  · exact .quiet rfl hout.symm
  · exact .quiet rfl hout.symm
  · exact .quiet rfl hout.symm
  · exact .quiet rfl hout.symm
  · exact .call rfl hout.symm rfl

theorem within_escapeIntermediateStep : WithinSequence p (p.escapeIntermediateStep b) := by
  unfold escapeIntermediateStep
  repeat' split
  · exact .execute
  · exact .collectTo hout hout rfl
  · exact .stay
  · exact .call rfl hout.symm rfl

theorem within_csiEntryStep : WithinSequence p (p.csiEntryStep b) := by
  unfold csiEntryStep
  repeat' split
  · exact .execute
  · exact .stay
  · exact .call rfl hout.symm rfl
  · exact .collectTo hout rfl rfl
  · exact .collectTo hout rfl rfl
  · exact .quiet rfl hout.symm
  · exact .quiet (p.utf8_separator b) hout.symm
  · exact .quiet rfl hout.symm

theorem within_csiParamStep : WithinSequence p (p.csiParamStep b) := by
  unfold csiParamStep
  repeat' split
  · exact .execute
  · exact .stay
  · exact .quiet rfl rfl
  · exact .quiet (p.utf8_separator b) (p.inDcs_separator b)
  · exact .call rfl hout.symm rfl
  · exact .collectTo hout rfl rfl
  · exact .quiet rfl hout.symm

theorem within_csiIntermediateStep : WithinSequence p (p.csiIntermediateStep b) := by
  unfold csiIntermediateStep
  repeat' split
  · exact .execute
  · exact .stay
  · exact .collectTo hout hout rfl
  · exact .call rfl hout.symm rfl
  · exact .quiet rfl hout.symm

theorem within_csiIgnoreStep : WithinSequence p (p.csiIgnoreStep b) := by
  unfold csiIgnoreStep
  repeat' split
  · exact .execute
  · exact .quiet rfl hout.symm
  · exact .stay

theorem within_dcsEntryStep : WithinSequence p (p.dcsEntryStep b) := by
  unfold dcsEntryStep
  repeat' split
  · exact .stay
  · exact .start hout _ _ _
  · exact .collectTo hout rfl rfl
  · exact .collectTo hout rfl rfl
  · exact .quiet rfl hout.symm
  · exact .quiet (p.utf8_separator b) hout.symm
  · exact .quiet rfl hout.symm

theorem within_dcsParamStep : WithinSequence p (p.dcsParamStep b) := by
  unfold dcsParamStep
  repeat' split
  · exact .stay
  · exact .quiet rfl rfl
  · exact .quiet (p.utf8_separator b) (p.inDcs_separator b)
  · exact .start hout _ _ _
  · exact .collectTo hout rfl rfl
  · exact .quiet rfl hout.symm

theorem within_dcsIntermediateStep : WithinSequence p (p.dcsIntermediateStep b) := by
  unfold dcsIntermediateStep
  repeat' split
  · exact .stay
  · exact .collectTo hout hout rfl
  · exact .start hout _ _ _
  · exact .quiet rfl hout.symm

theorem within_oscStringStep : WithinSequence p (p.oscStringStep b) := by
  unfold oscStringStep
  repeat' split
  · exact .call rfl hout.symm rfl
  · exact .stay
  · exact .quiet rfl rfl
  · exact .stay

end States

theorem within_dcsPassthroughStep (hin : p.inDcs = true) (b : UInt8) :
    WithinSequence p (p.dcsPassthroughStep b) := by
  unfold dcsPassthroughStep
  split
  · exact .stay
  · refine ⟨rfl, ?_⟩
    rw [hin]
    rfl

theorem within_step (h : p.state ≠ .ground) (b : UInt8) : WithinSequence p (p.step b) := by
  unfold step
  split
  · exact ⟨rfl, WithinSequence.leave rfl [.execute b] fun _ => rfl⟩
  split
  · refine ⟨rfl, ?_⟩
    -- the string that ends is no part of the bracket
    have hosc : ∀ calls : List SinkCall,
        bracketAfter p.inDcs
            (((if p.state = VtState.oscString then [SinkCall.osc p.oscData] else []) ++ calls).map
              dcsMark) =
          bracketAfter p.inDcs (calls.map dcsMark) := by
      intro calls
      split <;> rfl
    rw [hosc]
    have hleave := @WithinSequence.leave p .escape rfl [] fun _ => rfl
    rw [List.append_nil] at hleave
    exact hleave
  have hout : ∀ {state : VtState}, p.state = state → (state == .dcsPassthrough) = false →
      p.inDcs = false := by
    intro state hstate hne
    rw [← hne, ← hstate]
    rfl
  split
  · next hstate => exact absurd hstate h
  · next hstate => exact within_escapeStep (hout hstate rfl) b
  · next hstate => exact within_escapeIntermediateStep (hout hstate rfl) b
  · next hstate => exact within_csiEntryStep (hout hstate rfl) b
  · next hstate => exact within_csiParamStep (hout hstate rfl) b
  · next hstate => exact within_csiIntermediateStep (hout hstate rfl) b
  · next hstate => exact within_csiIgnoreStep (hout hstate rfl) b
  · next hstate => exact within_dcsEntryStep (hout hstate rfl) b
  · next hstate => exact within_dcsParamStep (hout hstate rfl) b
  · next hstate => exact within_dcsIntermediateStep (hout hstate rfl) b
  · next hstate => exact within_dcsPassthroughStep (by simp [inDcs, hstate]) b
  · exact .stay
  · next hstate => exact within_oscStringStep (hout hstate rfl) b
  · exact .stay

/-! ### Between sequences -/

/-- A sequence is only read with the decoder closed, and a closed decoder is empty. -/
structure Sane (p : Parser) : Prop where
  closed : p.utf8Need = 0 → p.utf8 = (0, 0, 0, 0)
  sequence : p.state ≠ .ground → p.utf8Need = 0

theorem Sane.of_need (hneed : 0 < p.utf8Need) (hstate : p.state = .ground) : p.Sane :=
  ⟨fun h0 => by omega, fun hne => absurd hstate hne⟩

theorem Sane.of_clear (h : p.utf8 = (0, 0, 0, 0)) : p.Sane :=
  ⟨fun _ => h, fun _ => congrArg (·.2.1) h⟩

/-! ### The ground state -/

theorem step_ground (hstate : p.state = .ground) (b : UInt8) : p.step b = p.groundStep b := by
  unfold Parser.step
  simp only [hstate, ne_eq, not_true_eq_false, and_false, if_false]

/-- With the decoder closed a byte is read as it is. -/
theorem groundStep_closed (hneed : p.utf8Need = 0) (b : UInt8) :
    p.groundStep b = p.groundFresh b := by
  have hflush : p.flushUtf8AsReplacement = (p, []) := if_pos hneed
  unfold groundStep groundByte
  rw [hflush]
  simp only [ite_self]
  rw [if_neg (by omega), List.nil_append]

/-- A byte that does not go on with the open character is read after a replacement. -/
theorem groundStep_broken (hneed : p.utf8Need ≠ 0) (hb : b &&& 0xC0 ≠ 0x80) :
    p.groundStep b =
      ((p.clearUtf8.groundFresh b).1, [.print 0xFFFD] ++ (p.clearUtf8.groundFresh b).2) := by
  have hflush : p.flushUtf8AsReplacement = (p.clearUtf8, [.print 0xFFFD]) := if_neg hneed
  unfold groundStep
  by_cases hesc : b = 0x1B
  · rw [if_pos hesc, hflush]
    rfl
  · rw [if_neg hesc]
    unfold groundByte
    simp only
    rw [if_pos (by omega)]
    unfold utf8Next
    rw [if_pos hb, hflush]
    rfl

/-- One that does goes on with it, or ends it. -/
theorem groundStep_continued (hneed : p.utf8Need ≠ 0) (hb : b &&& 0xC0 = 0x80) :
    p.groundStep b =
      if p.utf8Seen + 1 < p.utf8Need then
        ({ p with
            utf8Acc := p.utf8Acc <<< 6 ||| (b &&& 0x3F).toNat, utf8Seen := p.utf8Seen + 1 }, [])
      else
        let acc := p.utf8Acc <<< 6 ||| (b &&& 0x3F).toNat
        (p.clearUtf8,
          [.print (if acc < p.utf8Min ∨ (0xD800 ≤ acc ∧ acc ≤ 0xDFFF) ∨ acc > 0x10FFFF then 0xFFFD
            else acc)]) := by
  have hesc : b ≠ 0x1B := by
    rintro rfl
    exact absurd hb (by decide)
  unfold groundStep groundByte utf8Next
  rw [if_neg hesc]
  simp only
  rw [if_pos (by omega), if_neg (by simp [hb])]
  split
  · rfl
  · split <;> rfl

theorem groundFresh_sane (h : p.utf8 = (0, 0, 0, 0)) (hstate : p.state = .ground) (b : UInt8) :
    (p.groundFresh b).1.Sane := by
  unfold groundFresh
  repeat' split
  all_goals first
    | exact Sane.of_clear h
    | unfold utf8Lead
      repeat' split
      · exact Sane.of_need (Nat.zero_lt_succ 0) hstate
      · exact Sane.of_need (Nat.zero_lt_succ 1) hstate
      · exact Sane.of_need (Nat.zero_lt_succ 2) hstate
      · exact Sane.of_clear h

theorem Sane.groundStep (h : p.Sane) (hstate : p.state = .ground) (b : UInt8) :
    (p.groundStep b).1.Sane := by
  by_cases hneed : p.utf8Need = 0
  · rw [groundStep_closed hneed]
    exact groundFresh_sane (h.closed hneed) hstate b
  by_cases hb : b &&& 0xC0 = 0x80
  · rw [groundStep_continued hneed hb]
    split
    · exact Sane.of_need (show 0 < p.utf8Need by omega) hstate
    · exact Sane.of_clear rfl
  · rw [groundStep_broken hneed hb]
    exact groundFresh_sane (p := p.clearUtf8) rfl hstate b

theorem Sane.step (h : p.Sane) (b : UInt8) : (p.step b).1.Sane := by
  by_cases hstate : p.state = .ground
  · rw [step_ground hstate]
    exact h.groundStep hstate b
  · exact Sane.of_clear ((within_step hstate b).utf8.trans (h.closed (h.sequence hstate)))

/-- Every byte is read by a step, so what steps preserve holds after any bytes. -/
theorem feed_preserves {inv : Parser → Prop} (hstep : ∀ p b, inv p → inv (p.step b).1) (h : inv p)
    (bytes : Bytes) : inv (p.feed bytes).1 := by
  induction bytes generalizing p with
  | nil => exact h
  | cons b bytes ih =>
      rw [feed_cons]
      exact ih (hstep p b h)

theorem feed_sane (bytes : Bytes) : (({} : Parser).feed bytes).1.Sane :=
  feed_preserves (fun _ b h => h.step b) (Sane.of_clear rfl) bytes

/-! ### What a sequence leaves behind -/

/-- The parser with the parameters, the intermediates and the string of another. -/
def withLeftovers (p l : Parser) : Parser :=
  { p with params := l.params, intermediates := l.intermediates, oscData := l.oscData }

/-- In the ground state the leftovers are out of reach, and an escape clears them. -/
theorem groundFresh_leftovers (p l : Parser) (b : UInt8) :
    (p.withLeftovers l).groundFresh b =
      if b = 0x1B then p.groundFresh b
      else ((p.groundFresh b).1.withLeftovers l, (p.groundFresh b).2) := by
  by_cases hesc : b = 0x1B
  · rw [if_pos hesc]
    unfold groundFresh
    rw [if_pos hesc, if_pos hesc]
    rfl
  · have hpush : ∀ (c : Prop) [Decidable c] (r s : Parser × List SinkCall),
        ((if c then r else s).1.withLeftovers l, (if c then r else s).2) =
          if c then (r.1.withLeftovers l, r.2) else (s.1.withLeftovers l, s.2) := by
      intro c _ r s
      split <;> rfl
    rw [if_neg hesc]
    unfold groundFresh utf8Lead
    simp only [hpush]
    rw [if_neg hesc, if_neg hesc]
    rfl

theorem groundStep_leftovers (p l : Parser) (b : UInt8) :
    (p.withLeftovers l).groundStep b =
      if b = 0x1B then p.groundStep b
      else ((p.groundStep b).1.withLeftovers l, (p.groundStep b).2) := by
  by_cases hneed : p.utf8Need = 0
  · rw [groundStep_closed hneed, groundStep_closed (p := p.withLeftovers l) hneed]
    exact groundFresh_leftovers p l b
  by_cases hb : b &&& 0xC0 = 0x80
  · have hesc : b ≠ 0x1B := by
      rintro rfl
      exact absurd hb (by decide)
    rw [groundStep_continued hneed hb, groundStep_continued (p := p.withLeftovers l) hneed hb,
      if_neg hesc]
    by_cases hmore : p.utf8Seen + 1 < p.utf8Need
    · rw [if_pos hmore]
      exact if_pos hmore
    · rw [if_neg hmore]
      exact if_neg hmore
  · rw [groundStep_broken hneed hb, groundStep_broken (p := p.withLeftovers l) hneed hb]
    have hfresh := groundFresh_leftovers p.clearUtf8 l b
    have hclear : (p.withLeftovers l).clearUtf8 = p.clearUtf8.withLeftovers l := rfl
    rw [hclear, hfresh]
    split <;> rfl

/-- Two parsers that read alike: they differ at most by leftovers, in the ground state. -/
def SameReading (p q : Parser) : Prop := q = p ∨ p.state = .ground ∧ ∃ l, q = p.withLeftovers l

theorem groundStep_state (hstate : p.state = .ground) (hb : b ≠ 0x1B) :
    (p.groundStep b).1.state = .ground := by
  have hfresh : ∀ r : Parser, r.state = .ground → (r.groundFresh b).1.state = .ground := by
    intro r hr
    unfold groundFresh utf8Lead
    rw [if_neg hb]
    repeat' split
    all_goals exact hr
  by_cases hneed : p.utf8Need = 0
  · rw [groundStep_closed hneed]
    exact hfresh p hstate
  by_cases hcont : b &&& 0xC0 = 0x80
  · rw [groundStep_continued hneed hcont]
    split <;> exact hstate
  · rw [groundStep_broken hneed hcont]
    exact hfresh p.clearUtf8 hstate

theorem SameReading.step (h : SameReading p q) (b : UInt8) :
    SameReading (p.step b).1 (q.step b).1 ∧ (q.step b).2 = (p.step b).2 := by
  obtain rfl | ⟨hstate, l, rfl⟩ := h
  · exact ⟨.inl rfl, rfl⟩
  rw [step_ground hstate, step_ground (p := p.withLeftovers l) hstate, groundStep_leftovers]
  by_cases hb : b = 0x1B
  · rw [if_pos hb]
    exact ⟨.inl rfl, rfl⟩
  · rw [if_neg hb]
    exact ⟨.inr ⟨groundStep_state hstate hb, l, rfl⟩, rfl⟩

theorem SameReading.feed (h : SameReading p q) (bytes : Bytes) :
    (q.feed bytes).2 = (p.feed bytes).2 := by
  induction bytes generalizing p q with
  | nil => rfl
  | cons b bytes ih =>
      rw [feed_cons, feed_cons, (h.step b).2, ih (h.step b).1]

/-- CAN and SUB leave the ground state and an empty decoder. -/
theorem Sane.cancelled (h : p.Sane) (hb : b = 0x18 ∨ b = 0x1A) :
    (p.step b).1.state = .ground ∧ (p.step b).1.utf8 = (0, 0, 0, 0) := by
  have hesc : b ≠ 0x1B := by
    rintro rfl
    exact absurd hb (by decide)
  by_cases hstate : p.state = .ground
  · rw [step_ground hstate]
    refine ⟨groundStep_state hstate hesc, ?_⟩
    have hfresh : ∀ r : Parser, r.groundFresh b = (r, [.execute b]) := by
      intro r
      unfold groundFresh
      rw [if_neg hesc, if_pos hb]
    by_cases hneed : p.utf8Need = 0
    · rw [groundStep_closed hneed, hfresh]
      exact h.closed hneed
    · have hcont : b &&& 0xC0 ≠ 0x80 := by
        obtain rfl | rfl := hb <;> decide
      rw [groundStep_broken hneed hcont, hfresh]
      rfl
  · have hstep : p.step b = (clearSequence { p with state := .ground }, _) := if_pos ⟨hb, hstate⟩
    rw [hstep]
    exact ⟨rfl, h.closed (h.sequence hstate)⟩

/-! ### Device strings -/

theorem groundFresh_bracket (hstate : p.state = .ground) (b : UInt8) :
    bracketAfter false ((p.groundFresh b).2.map dcsMark) = some (p.groundFresh b).1.inDcs := by
  have hout : p.inDcs = false := by simp [inDcs, hstate]
  unfold groundFresh utf8Lead
  repeat' split
  all_goals simp [bracketAfter, dcsMark, inDcs, hstate, clearSequence]

theorem groundStep_bracket (hstate : p.state = .ground) (b : UInt8) :
    bracketAfter false ((p.groundStep b).2.map dcsMark) = some (p.groundStep b).1.inDcs := by
  by_cases hneed : p.utf8Need = 0
  · rw [groundStep_closed hneed]
    exact groundFresh_bracket hstate b
  by_cases hb : b &&& 0xC0 = 0x80
  · rw [groundStep_continued hneed hb]
    split <;> simp [bracketAfter, dcsMark, inDcs, clearUtf8, hstate]
  · rw [groundStep_broken hneed hb]
    exact groundFresh_bracket (p := p.clearUtf8) hstate b

/-- The bracket is open exactly in that state. -/
theorem step_bracket (p : Parser) (b : UInt8) :
    bracketAfter p.inDcs ((p.step b).2.map dcsMark) = some (p.step b).1.inDcs := by
  by_cases hground : p.state = .ground
  · have hout : p.inDcs = false := by simp [inDcs, hground]
    rw [step_ground hground, hout]
    exact groundStep_bracket hground b
  · exact (within_step hground b).bracket

/-- The calls of any bytes keep the brackets. -/
theorem feed_bracket (p : Parser) (bytes : Bytes) :
    bracketAfter p.inDcs ((p.feed bytes).2.map dcsMark) = some (p.feed bytes).1.inDcs := by
  induction bytes generalizing p with
  | nil => rfl
  | cons b bytes ih =>
      rw [feed_cons, List.map_append, bracketAfter_append, step_bracket]
      exact ih (p.step b).1

/-- **CAN and SUB resynchronise.** Whatever two parsers have read, after a cancellation
they make the same calls of the same bytes; and the calls that start and end a device
string alternate, with its data in between. -/
theorem cancel_resynchronises {c d : UInt8} (hc : c = 0x18 ∨ c = 0x1A) (hd : d = 0x18 ∨ d = 0x1A)
    (u v w : Bytes) :
    ((({} : Parser).feed (u ++ [c])).1.feed w).2 = ((({} : Parser).feed (v ++ [d])).1.feed w).2 ∧
      ∀ bytes, Alternates ((({} : Parser).feed bytes).2.map dcsMark) := by
  constructor
  · have hcancelled : ∀ (bytes : Bytes) {c : UInt8}, c = 0x18 ∨ c = 0x1A →
        (({} : Parser).feed (bytes ++ [c])).1.state = .ground ∧
          (({} : Parser).feed (bytes ++ [c])).1.utf8 = (0, 0, 0, 0) := by
      intro bytes c hc
      rw [feed_append]
      exact (feed_sane bytes).cancelled hc
    obtain ⟨hu, hutf8u⟩ := hcancelled u hc
    obtain ⟨hv, hutf8v⟩ := hcancelled v hd
    generalize (({} : Parser).feed (u ++ [c])).1 = p at *
    generalize (({} : Parser).feed (v ++ [d])).1 = q at *
    refine SameReading.feed (.inr ⟨hv, p, ?_⟩) w
    cases p
    cases q
    simp_all [withLeftovers, utf8]
  · intro bytes
    have h := feed_bracket {} bytes
    unfold Alternates
    show (bracketAfter ({} : Parser).inDcs _).isSome
    rw [h]
    rfl

/-- One parser has read half a control sequence, the other half a character. -/
theorem cancel_resynchronises_halves :
    ((({} : Parser).feed ([0x1B, 0x5B, 0x33] ++ [0x18])).1.feed [0x41]).2 =
      ((({} : Parser).feed ([0xE2, 0x82] ++ [0x1A])).1.feed [0x41]).2 :=
  (cancel_resynchronises (.inl rfl) (.inr rfl) [0x1B, 0x5B, 0x33] [0xE2, 0x82] [0x41]).1

end Parser

end Sshos.Vt
