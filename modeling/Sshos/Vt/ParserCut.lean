import Sshos.Vt.ParserResync

/-!
# Sshos.Vt.ParserCut

Sequences **cut short**: what the parser has called when it has read the beginning of some
bytes only, and how an escape that follows the cut puts it back to work.

The private modes are read here too, one sequence for each mode.
-/

namespace Sshos.Vt

open Sshos.Lib

namespace Parser

variable {p : Parser}

/-! ### The private modes -/

/-- `CSI ? n h` and `CSI ? n l`. -/
def privateMode (n : Nat) (on : Bool) : Bytes :=
  [0x1B, 0x5B, 0x3F] ++ decimal n ++ [if on then 0x68 else 0x6C]

/-- The call it makes. -/
def modeCall (n : Nat) (on : Bool) : SinkCall :=
  .csi [paramOf n] [0x3F] (if on then 0x68 else 0x6C)

/-- Inside a control sequence with a private marker. -/
def inPrivate (p : Parser) (params : Params) : Parser :=
  { p.inCsi .csiParam params with intermediates := [0x3F] }

theorem step_digit_private {params : Params} {d : Nat} (hd : d < 10) :
    (p.inPrivate params).step (digitByte d) =
      ((p.inPrivate params).pushParamDigit (digitByte d), []) := by
  obtain ⟨h0, h1, -, -, -, h5, h6, h7, h8, -⟩ := digitByte_spec d hd
  simp [step, csiParamStep, inPrivate, inCsi, h0, h1, h5, h6, h7, h8]

theorem feed_private_decimal (p : Parser) (n : Nat) :
    (p.inPrivate []).feed (decimal n) = (p.inPrivate [paramOf n], []) := by
  have hvalue : ∀ d, d < 10 → ((digitByte d).toNat : Int) - 0x30 = d := by
    intro d hd
    have := (digitByte_spec d hd).2.2.2.2.2.2.2.2.2
    omega
  refine foldl_decimal (P := fun v r => r = (p.inPrivate [paramOf v], [])) ?_ ?_ n
  · intro d hd
    show (((p.inPrivate []).step (digitByte d)).1, _) = _
    rw [step_digit_private hd]
    simp only [inPrivate, inCsi, pushParamDigit, hvalue d hd, if_true, List.getLast?_singleton,
      Option.getD_some, List.dropLast_singleton, List.nil_append, pushDigit_absent hd]
    rfl
  · rintro v r d hd rfl
    show (((p.inPrivate [paramOf v]).step (digitByte d)).1, _) = _
    rw [step_digit_private hd]
    simp only [inPrivate, inCsi, pushParamDigit, hvalue d hd, reduceCtorEq, if_false,
      List.getLast?_singleton, Option.getD_some, List.dropLast_singleton, List.nil_append,
      pushDigit_paramOf v d hd]
    rfl

theorem reads_privateMode (n : Nat) (on : Bool) : Reads (privateMode n on) [modeCall n on] := by
  intro p hp
  refine ⟨{ p.inPrivate [paramOf n] with state := .ground }, ⟨rfl, hp.utf8⟩, ?_⟩
  have hmarker : (p.inCsi .csiEntry []).step 0x3F = (p.inPrivate [], []) := rfl
  have hlast : (p.inPrivate [paramOf n]).step (if on then 0x68 else 0x6C) =
      ({ p.inPrivate [paramOf n] with state := .ground }, [modeCall n on]) := by
    cases on <;> rfl
  show p.feed (0x1B :: 0x5B :: (0x3F :: (decimal n ++ [if on then 0x68 else 0x6C]))) = _
  rw [feed_introducer hp, feed_cons_silent hmarker, feed_append, feed_private_decimal, feed_cons,
    hlast]
  rfl

/-- A list of modes, one after the other. -/
def privateModes (modes : List (Nat × Bool)) : Bytes := modes.flatMap fun m => privateMode m.1 m.2

theorem reads_privateModes (modes : List (Nat × Bool)) :
    Reads (privateModes modes) (modes.map fun m => modeCall m.1 m.2) := by
  induction modes with
  | nil => exact Reads.nil
  | cons m modes ih => exact (reads_privateMode m.1 m.2).append ih

/-! ### A cut -/

/-- The calls of a beginning are the first calls. -/
theorem Reads.calls_of_prefix {bytes cut : Bytes} {calls : List SinkCall} (h : Reads bytes calls)
    (hp : p.Quiet) (hcut : cut <+: bytes) : (p.feed cut).2 <+: calls := by
  obtain ⟨rest, rfl⟩ := hcut
  obtain ⟨q, -, hfeed⟩ := h p hp
  rw [feed_append] at hfeed
  exact ⟨_, congrArg Prod.snd hfeed⟩

/-- The calls that a string in the making would lead to. -/
def endsString : SinkCall → Prop
  | .osc _ => True
  | .execute _ => True
  | _ => False

/-- A string is left by one of these calls. -/
theorem feed_string (hstate : p.state = .oscString) (bytes : Bytes) :
    (p.feed bytes).1.state = .oscString ∨ ∃ c ∈ (p.feed bytes).2, endsString c := by
  induction bytes generalizing p with
  | nil => exact .inl hstate
  | cons b bytes ih =>
      rw [feed_cons]
      suffices hstep : (p.step b).1.state = .oscString ∨ ∃ c ∈ (p.step b).2, endsString c by
        rcases hstep with hstay | ⟨c, hmem, hc⟩
        · rcases ih hstay with hlater | ⟨c, hmem, hc⟩
          · exact .inl hlater
          · exact .inr ⟨c, List.mem_append_right _ hmem, hc⟩
        · exact .inr ⟨c, List.mem_append_left _ hmem, hc⟩
      unfold step
      simp only [hstate, ne_eq, reduceCtorEq, not_false_eq_true, and_true, if_true, if_false,
        List.nil_append, List.append_nil]
      split
      · exact .inr ⟨_, List.mem_singleton_self _, trivial⟩
      split
      · exact .inr ⟨_, List.mem_singleton_self _, trivial⟩
      unfold oscStringStep
      repeat' split
      · exact .inr ⟨_, List.mem_singleton_self _, trivial⟩
      · exact .inl hstate
      · exact .inl hstate
      · exact .inl hstate

/-- Bytes that never make such a call are never cut inside a string. -/
theorem Reads.not_string_of_prefix {bytes cut : Bytes} {calls : List SinkCall}
    (h : Reads bytes calls) (hcalls : ∀ c ∈ calls, ¬ endsString c) (hp : p.Quiet)
    (hcut : cut <+: bytes) : (p.feed cut).1.state ≠ .oscString := by
  obtain ⟨rest, rfl⟩ := hcut
  obtain ⟨q, hq, hfeed⟩ := h p hp
  rw [feed_append] at hfeed
  intro hstate
  rcases feed_string hstate rest with hstay | ⟨c, hmem, hc⟩
  · rw [congrArg Prod.fst hfeed, hq.state] at hstay
    exact absurd hstay (by decide)
  · have hsnd : (p.feed cut).2 ++ ((p.feed cut).1.feed rest).2 = calls := congrArg Prod.snd hfeed
    exact hcalls c (hsnd ▸ List.mem_append_right _ hmem) hc

/-- ASCII never opens a character. -/
theorem feed_ascii {bytes : Bytes} (hbytes : ∀ b ∈ bytes, b < 0x80) (hneed : p.utf8Need = 0) :
    (p.feed bytes).1.utf8Need = 0 := by
  induction bytes generalizing p with
  | nil => exact hneed
  | cons b bytes ih =>
      rw [feed_cons]
      refine ih (fun b' hb' => hbytes b' (List.mem_cons_of_mem b hb')) ?_
      by_cases hstate : p.state = .ground
      · rw [step_ground hstate, groundStep_closed hneed]
        unfold groundFresh
        rw [if_pos (hbytes b (List.mem_cons_self ..))]
        repeat' split
        all_goals exact hneed
      · have hutf8 := (within_step hstate b).utf8
        exact (congrArg (·.2.1) hutf8).trans hneed

/-! ### The escape behind the cut -/

/-- The same parser between two sequences. -/
def rested (p : Parser) : Parser := { p.clearUtf8 with state := .ground }

theorem rested_quiet (p : Parser) : p.rested.Quiet := ⟨rfl, rfl⟩

theorem rested_sane (p : Parser) : p.rested.Sane := Sane.of_clear rfl

/-- What the parser says of what the escape interrupts: nothing, the end of a device string,
or a replacement for a character that lacks its end. -/
inductive Interrupted (p : Parser) : List SinkCall → Prop
  | nothing : Interrupted p []
  | device : Interrupted p [.dcsEnd]
  | character : p.utf8Need ≠ 0 → Interrupted p [.print 0xFFFD]

/-- From anywhere but a string, an escape is read as between two sequences. -/
theorem step_escape (h : p.Sane) (hstring : p.state ≠ .oscString) :
    ∃ calls, Interrupted p calls ∧
      p.step 0x1B = ((p.rested.step 0x1B).1, calls ++ (p.rested.step 0x1B).2) := by
  have hrested : p.rested.step 0x1B = (clearSequence { p.rested with state := .escape }, []) := by
    rw [step_ground rfl, groundStep_closed rfl]
    rfl
  rw [hrested]
  by_cases hstate : p.state = .ground
  · rw [step_ground hstate]
    by_cases hneed : p.utf8Need = 0
    · refine ⟨[], .nothing, ?_⟩
      have hclear : p.clearUtf8 = p := by
        have hutf8 := h.closed hneed
        simp only [utf8, Prod.mk.injEq] at hutf8
        cases p
        simp_all [clearUtf8]
      rw [groundStep_closed hneed]
      unfold rested
      rw [hclear]
      rfl
    · refine ⟨_, .character hneed, ?_⟩
      rw [groundStep_broken hneed (by decide)]
      rfl
  · have hclear : p.clearUtf8 = p := by
      have hutf8 := h.closed (h.sequence hstate)
      simp only [utf8, Prod.mk.injEq] at hutf8
      cases p
      simp_all [clearUtf8]
    refine ⟨if p.state = .dcsPassthrough then [.dcsEnd] else [], ?_, ?_⟩
    · split
      · exact .device
      · exact .nothing
    · unfold step rested
      rw [if_neg (by simp), if_pos ⟨rfl, hstate⟩, if_neg hstring, hclear]
      rw [List.nil_append, List.append_nil]

/-- So are the bytes behind it. -/
theorem feed_escape (h : p.Sane) (hstring : p.state ≠ .oscString) :
    ∃ calls, Interrupted p calls ∧ ∀ bytes,
      p.feed (0x1B :: bytes) =
        ((p.rested.feed (0x1B :: bytes)).1, calls ++ (p.rested.feed (0x1B :: bytes)).2) := by
  obtain ⟨calls, hcalls, hstep⟩ := step_escape h hstring
  refine ⟨calls, hcalls, fun bytes => ?_⟩
  rw [feed_cons, feed_cons, hstep, List.append_assoc]

end Parser

end Sshos.Vt
