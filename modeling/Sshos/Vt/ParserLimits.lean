import Sshos.Lib.Run
import Sshos.Vt.ParserResync

/-!
# Sshos.Vt.ParserLimits

What a guest can make the parser **hold**, and hand to its sink: so many parameters,
none above the ceiling, so many intermediate bytes, and a string of so many bytes,
whatever it writes.
-/

namespace Sshos.Vt

open Sshos.Lib (Bytes)

/-- At most `kMaxParams` parameters, each absent or at most the ceiling. -/
def ParamsCapped (params : Params) : Prop :=
  params.length ≤ kMaxParams ∧ ∀ q ∈ params, -1 ≤ q.value ∧ q.value ≤ kMaxParamValue

/-- What a call carries is capped. -/
def SinkCall.Capped : SinkCall → Prop
  | .csi params intermediates _ | .dcsStart params intermediates _ =>
      ParamsCapped params ∧ intermediates.length ≤ kMaxIntermediates
  | .esc intermediates _ => intermediates.length ≤ kMaxIntermediates
  | .osc data => data.length ≤ kMaxOsc
  | .print _ | .execute _ | .dcsData _ | .dcsEnd => True

namespace Parser

/-- `Parser::reset`. -/
def reset (p : Parser) : Parser := clearUtf8 (clearSequence { p with state := .ground })

/-- What a parser is used for. -/
inductive Use where
  | feed (bytes : Bytes)
  | reset
  deriving Repr, DecidableEq

def use (p : Parser) : Use → Parser
  | .feed bytes => (p.feed bytes).1
  | .reset => p.reset

structure Capped (p : Parser) : Prop where
  params : ParamsCapped p.params
  intermediates : p.intermediates.length ≤ kMaxIntermediates
  oscData : p.oscData.length ≤ kMaxOsc

variable {p q : Parser} {b : UInt8}

/-! ### The buffers -/

theorem paramsCapped_nil : ParamsCapped [] := ⟨Nat.zero_le _, fun q hq => absurd hq (by simp)⟩

theorem paramsCapped_concat {params : Params} {q : Param} (h : ParamsCapped params)
    (hroom : params.length < kMaxParams) (hq : -1 ≤ q.value ∧ q.value ≤ kMaxParamValue) :
    ParamsCapped (params ++ [q]) := by
  refine ⟨?_, ?_⟩
  · rw [List.length_append, List.length_singleton]
    omega
  intro r hr
  rcases List.mem_append.1 hr with hr | hr
  · exact h.2 r hr
  · rw [List.mem_singleton.1 hr]
    exact hq

/-- The first parameter, absent until a digit comes. -/
theorem paramsCapped_first {params : Params} (h : ParamsCapped params) :
    ParamsCapped (if params = [] then [{}] else params) := by
  split
  · exact paramsCapped_concat paramsCapped_nil (by decide) (by decide)
  · exact h

theorem Capped.cleared (p : Parser) (state : VtState) :
    (clearSequence { p with state := state }).Capped :=
  ⟨paramsCapped_nil, Nat.zero_le _, Nat.zero_le _⟩

theorem Capped.moved (h : p.Capped) (state : VtState) : Capped { p with state := state } := { h with }

theorem Capped.collectTo (h : p.Capped) (state refused : VtState) :
    (p.collectTo b state refused).Capped := by
  unfold Parser.collectTo collect
  by_cases hfull : p.intermediates.length ≥ kMaxIntermediates
  · rw [if_pos hfull]
    exact h.moved refused
  · rw [if_neg hfull]
    have hlen : (p.intermediates ++ [b]).length ≤ kMaxIntermediates := by
      rw [List.length_append, List.length_singleton]
      omega
    exact { h with intermediates := hlen }

theorem Capped.nextParam (h : p.Capped) (sub : Bool) : (p.nextParam sub).Capped := by
  unfold Parser.nextParam
  split
  · next hroom =>
      have habsent : (-1 : Int) ≤ kMaxParamValue := by decide
      exact { h with params := paramsCapped_concat h.params hroom ⟨Int.le_refl _, habsent⟩ }
  · exact h

theorem Capped.separator (h : p.Capped) (b : UInt8) : (p.separator b).Capped := by
  have hfirst : (if p.params = [] then { p with params := [{}] } else p).Capped := by
    have hparams := paramsCapped_first h.params
    split
    · next hnil =>
        rw [if_pos hnil] at hparams
        exact { h with params := hparams }
    · exact h
  exact hfirst.nextParam _

/-- The ceiling holds after every digit. -/
theorem pushDigit_mem (value : Int) {digit : Int} (h : 0 ≤ digit) :
    -1 ≤ pushDigit value digit ∧ pushDigit value digit ≤ kMaxParamValue := by
  unfold pushDigit kMaxParamValue
  simp only
  repeat' split
  all_goals omega

theorem Capped.pushParamDigit (h : p.Capped) (hb : isDigit b = true) :
    (p.pushParamDigit b).Capped := by
  have hdigit : (0 : Int) ≤ b.toNat - 0x30 := by
    have hge : 0x30 ≤ b.toNat := by
      simp only [isDigit, Bool.and_eq_true, decide_eq_true_eq, ge_iff_le, UInt8.le_iff_toNat_le] at hb
      exact hb.1
    omega
  have hfirst := paramsCapped_first h.params
  have hne : (if p.params = [] then [{}] else p.params) ≠ ([] : Params) := by
    split
    · exact List.cons_ne_nil _ _
    · assumption
  unfold Parser.pushParamDigit
  simp only
  generalize (if p.params = [] then [{}] else p.params) = params at hfirst hne
  have hpos := List.length_pos_of_ne_nil hne
  have hlen : params.dropLast.length + 1 = params.length := by
    rw [List.length_dropLast]
    omega
  have hinit : ParamsCapped params.dropLast :=
    ⟨by have := hfirst.1; omega, fun q hq => hfirst.2 q (List.dropLast_subset _ hq)⟩
  exact
    { h with
      params := paramsCapped_concat hinit (by have := hfirst.1; omega) (pushDigit_mem _ hdigit) }

/-! ### One byte -/

/-- A byte has been read: the parser is capped, and so are the calls it made. -/
def CappedRead (r : Parser × List SinkCall) : Prop := r.1.Capped ∧ ∀ c ∈ r.2, c.Capped

theorem CappedRead.quiet (h : p.Capped) : CappedRead (p, []) := ⟨h, fun c hc => absurd hc (by simp)⟩

theorem CappedRead.call (h : p.Capped) {c : SinkCall} (hc : c.Capped) : CappedRead (p, [c]) :=
  ⟨h, fun _ hd => List.mem_singleton.1 hd ▸ hc⟩

namespace Capped

theorem groundFresh (h : p.Capped) (b : UInt8) : CappedRead (p.groundFresh b) := by
  unfold Parser.groundFresh utf8Lead
  repeat' split
  · exact .quiet (cleared p _)
  · exact .call h trivial
  · exact .call h trivial
  · exact .quiet h
  · exact .call h trivial
  · exact .quiet { h with }
  · exact .quiet { h with }
  · exact .quiet { h with }
  · exact .call h trivial

theorem groundStep (h : p.Capped) (b : UInt8) : CappedRead (p.groundStep b) := by
  by_cases hneed : p.utf8Need = 0
  · rw [groundStep_closed hneed]
    exact h.groundFresh b
  have hclear : p.clearUtf8.Capped := { h with }
  by_cases hb : b &&& 0xC0 = 0x80
  · rw [groundStep_continued hneed hb]
    split
    · exact .quiet { h with }
    · exact .call hclear trivial
  · rw [groundStep_broken hneed hb]
    obtain ⟨hstate, hcalls⟩ := hclear.groundFresh b
    refine ⟨hstate, ?_⟩
    intro c hc
    rcases List.mem_append.1 hc with hc | hc
    · rw [List.mem_singleton.1 hc]
      trivial
    · exact hcalls c hc

theorem escapeStep (h : p.Capped) (b : UInt8) : CappedRead (p.escapeStep b) := by
  unfold Parser.escapeStep
  repeat' split
  · exact .call h trivial
  · exact .quiet (h.collectTo _ _)
  · exact .quiet h
  · exact .quiet (cleared p _)
  · exact .quiet { h with oscData := Nat.zero_le _ }
  · exact .quiet (cleared p _)
  · exact .quiet (h.moved _)
  · exact .call (h.moved _) h.intermediates

theorem escapeIntermediateStep (h : p.Capped) (b : UInt8) :
    CappedRead (p.escapeIntermediateStep b) := by
  unfold Parser.escapeIntermediateStep
  repeat' split
  · exact .call h trivial
  · exact .quiet (h.collectTo _ _)
  · exact .quiet h
  · exact .call (h.moved _) h.intermediates

theorem csiEntryStep (h : p.Capped) (b : UInt8) : CappedRead (p.csiEntryStep b) := by
  unfold Parser.csiEntryStep
  repeat' split
  · exact .call h trivial
  · exact .quiet h
  · exact .call (h.moved _) ⟨h.params, h.intermediates⟩
  · exact .quiet (h.collectTo _ _)
  · exact .quiet (h.collectTo _ _)
  · next hdigit => exact .quiet ((h.pushParamDigit hdigit).moved _)
  · exact .quiet ((h.separator b).moved _)
  · exact .quiet (h.moved _)

theorem csiParamStep (h : p.Capped) (b : UInt8) : CappedRead (p.csiParamStep b) := by
  unfold Parser.csiParamStep
  repeat' split
  · exact .call h trivial
  · exact .quiet h
  · next hdigit => exact .quiet (h.pushParamDigit hdigit)
  · exact .quiet (h.separator b)
  · exact .call (h.moved _) ⟨h.params, h.intermediates⟩
  · exact .quiet (h.collectTo _ _)
  · exact .quiet (h.moved _)

theorem csiIntermediateStep (h : p.Capped) (b : UInt8) : CappedRead (p.csiIntermediateStep b) := by
  unfold Parser.csiIntermediateStep
  repeat' split
  · exact .call h trivial
  · exact .quiet h
  · exact .quiet (h.collectTo _ _)
  · exact .call (h.moved _) ⟨h.params, h.intermediates⟩
  · exact .quiet (h.moved _)

theorem csiIgnoreStep (h : p.Capped) (b : UInt8) : CappedRead (p.csiIgnoreStep b) := by
  unfold Parser.csiIgnoreStep
  repeat' split
  · exact .call h trivial
  · exact .quiet (h.moved _)
  · exact .quiet h

theorem dcsEntryStep (h : p.Capped) (b : UInt8) : CappedRead (p.dcsEntryStep b) := by
  unfold Parser.dcsEntryStep
  repeat' split
  · exact .quiet h
  · exact .call (h.moved _) ⟨h.params, h.intermediates⟩
  · exact .quiet (h.collectTo _ _)
  · exact .quiet (h.collectTo _ _)
  · next hdigit => exact .quiet ((h.pushParamDigit hdigit).moved _)
  · exact .quiet ((h.separator b).moved _)
  · exact .quiet (h.moved _)

theorem dcsParamStep (h : p.Capped) (b : UInt8) : CappedRead (p.dcsParamStep b) := by
  unfold Parser.dcsParamStep
  repeat' split
  · exact .quiet h
  · next hdigit => exact .quiet (h.pushParamDigit hdigit)
  · exact .quiet (h.separator b)
  · exact .call (h.moved _) ⟨h.params, h.intermediates⟩
  · exact .quiet (h.collectTo _ _)
  · exact .quiet (h.moved _)

theorem dcsIntermediateStep (h : p.Capped) (b : UInt8) : CappedRead (p.dcsIntermediateStep b) := by
  unfold Parser.dcsIntermediateStep
  repeat' split
  · exact .quiet h
  · exact .quiet (h.collectTo _ _)
  · exact .call (h.moved _) ⟨h.params, h.intermediates⟩
  · exact .quiet (h.moved _)

theorem dcsPassthroughStep (h : p.Capped) (b : UInt8) : CappedRead (p.dcsPassthroughStep b) := by
  unfold Parser.dcsPassthroughStep
  split
  · exact .quiet h
  · exact .call h trivial

/-- The string stops growing at its limit, and the sequence goes on. -/
theorem oscStringStep (h : p.Capped) (b : UInt8) : CappedRead (p.oscStringStep b) := by
  unfold Parser.oscStringStep
  repeat' split
  · exact .call (cleared p _) h.oscData
  · exact .quiet h
  · next hroom =>
      have hlen : (p.oscData ++ [b]).length ≤ kMaxOsc := by
        rw [List.length_append, List.length_singleton]
        omega
      exact .quiet { h with oscData := hlen }
  · exact .quiet h

/-- What ends a string or a device string carries the string at most. -/
theorem ending (h : p.Capped) {c : SinkCall}
    (hc : c ∈ (if p.state = VtState.oscString then [SinkCall.osc p.oscData] else []) ++
      (if p.state = VtState.dcsPassthrough then [SinkCall.dcsEnd] else [])) : c.Capped := by
  rcases List.mem_append.1 hc with hc | hc
  · split at hc
    · rw [List.mem_singleton.1 hc]
      exact h.oscData
    · exact absurd hc (by simp)
  · split at hc
    · rw [List.mem_singleton.1 hc]
      trivial
    · exact absurd hc (by simp)

theorem step (h : p.Capped) (b : UInt8) : CappedRead (p.step b) := by
  unfold Parser.step
  split
  · refine ⟨cleared p _, ?_⟩
    intro c hc
    rcases List.mem_append.1 hc with hc | hc
    · exact h.ending (List.mem_append_right _ hc)
    · rw [List.mem_singleton.1 hc]
      trivial
  split
  · exact ⟨cleared p _, fun _ hc => h.ending hc⟩
  split
  · exact h.groundStep b
  · exact h.escapeStep b
  · exact h.escapeIntermediateStep b
  · exact h.csiEntryStep b
  · exact h.csiParamStep b
  · exact h.csiIntermediateStep b
  · exact h.csiIgnoreStep b
  · exact h.dcsEntryStep b
  · exact h.dcsParamStep b
  · exact h.dcsIntermediateStep b
  · exact h.dcsPassthroughStep b
  · exact .quiet h
  · exact h.oscStringStep b
  · exact .quiet h

/-! ### Any bytes -/

theorem feed (h : p.Capped) (bytes : Bytes) : CappedRead (p.feed bytes) := by
  induction bytes generalizing p with
  | nil => exact .quiet h
  | cons b bytes ih =>
      obtain ⟨hq, hcalls⟩ := h.step b
      obtain ⟨hlast, hmore⟩ := ih hq
      rw [feed_cons]
      refine ⟨hlast, ?_⟩
      intro c hc
      rcases List.mem_append.1 hc with hc | hc
      · exact hcalls c hc
      · exact hmore c hc

theorem fresh : ({} : Parser).Capped := ⟨paramsCapped_nil, Nat.zero_le _, Nat.zero_le _⟩

theorem use (h : p.Capped) : ∀ u : Use, (p.use u).Capped
  | .feed bytes => (h.feed bytes).1
  | .reset => ⟨paramsCapped_nil, Nat.zero_le _, Nat.zero_le _⟩

/-- A parser is capped in every state it can be brought to. -/
theorem run (uses : List Use) : (Lib.run Parser.use {} uses).Capped :=
  @Lib.run_preserves _ _ _ Capped (fun _ u h => h.use u) _ fresh uses

end Capped

end Parser

end Sshos.Vt
