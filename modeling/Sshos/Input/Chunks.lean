import Mathlib.Data.List.Induction
import Sshos.Input.Framing
import Sshos.Lib.Run

/-!
# Sshos.Input.Chunks

The parser **refines** the framing: however the bytes arrive, it delivers the events of
the frames they hold, a long paste in several pieces.

`Reads p outs r` ties the two together. Outside a paste the unread bytes are those of
the buffer; inside one, they start with the sequence that opened it, go on with the
pieces that were delivered, and end with the buffer.
-/

namespace Sshos.Input

open Sshos.Lib (Bytes Front Framing)

/-! ### Pieces of a paste -/

def pendingPaste : Option Bytes → List InputEvent
  | none => []
  | some text => [.paste text false]

/-- Add an event to those merged so far, beside the text of the paste under way. -/
def mergeEvent (s : List InputEvent × Option Bytes) : InputEvent → List InputEvent × Option Bytes
  | .paste text false => (s.1, some (s.2.getD [] ++ text))
  | .paste text true => (s.1 ++ [.paste (s.2.getD [] ++ text) true], none)
  | e => (s.1 ++ pendingPaste s.2 ++ [e], none)

def mergeState (es : List InputEvent) : List InputEvent × Option Bytes := es.foldl mergeEvent ([], none)

/-- The events, with the consecutive pieces of a paste put together. -/
def mergePastes (es : List InputEvent) : List InputEvent :=
  (mergeState es).1 ++ pendingPaste (mergeState es).2

theorem mergeState_concat (es : List InputEvent) (e : InputEvent) :
    mergeState (es ++ [e]) = mergeEvent (mergeState es) e := by
  unfold mergeState
  rw [List.foldl_append]
  rfl

/-- No piece of a paste. -/
def plain : InputEvent → Bool
  | .paste _ _ => false
  | _ => true

theorem mergeEvent_plain {e : InputEvent} (he : plain e = true) (outs : List InputEvent) :
    mergeEvent (outs, none) e = (outs ++ [e], none) := by
  cases e with
  | paste text complete => cases he
  | _ => simp [mergeEvent, pendingPaste]

/-! ### The sequence that opens a paste -/

/-- How many bytes it takes, when it stands at the front. -/
def pasteHeader : Bytes → Option Nat
  | b0 :: b1 :: body =>
      if b0 = 0x1b ∧ b1 = 0x5b then
        match csiEnd body 2 with
        | .final i =>
            if startsPaste (body.take (i - 2)) (body.getD (i - 2) 0) then some (i + 1) else none
        | _ => none
      else none
  | _ => none

theorem pasteHeader_spec {b : Bytes} {n : Nat} (h : pasteHeader b = some n) :
    0 < n ∧ n ≤ b.length ∧ inputFront b = pasteFront n (b.drop n) ∧
      ∀ more, pasteHeader (b ++ more) = some n := by
  match b, h with
  | b0 :: b1 :: body, h =>
      simp only [pasteHeader] at h
      by_cases hcsi : b0 = 0x1b ∧ b1 = 0x5b
      · rw [if_pos hcsi] at h
        obtain ⟨rfl, rfl⟩ := hcsi
        have hspec := csiEnd_spec body 2
        cases hend : csiEnd body 2 with
        | incomplete => simp only [hend] at h; cases h
        | abandoned i => simp only [hend] at h; cases h
        | final i =>
            simp only [hend] at h hspec
            obtain ⟨hlo, hhi, hstable⟩ := hspec
            split at h
            · rename_i hpaste
              cases h
              have hdrop : (0x1b :: 0x5b :: body).drop (i + 1) = body.drop (i - 1) := by
                rw [show i + 1 = (i - 1) + 2 by omega]
                rfl
              refine ⟨by omega, by simp only [List.length_cons]; omega, ?_, fun more => ?_⟩
              · rw [hdrop]
                simp only [inputFront, escapeFront, csiFront, hend, hpaste, if_true, ne_eq,
                  not_true_eq_false, if_false]
                rfl
              · have htake : (body ++ more).take (i - 2) = body.take (i - 2) :=
                  List.take_append_of_le_length (by omega)
                have hget : (body ++ more).getD (i - 2) 0 = body.getD (i - 2) 0 := by
                  rw [List.getD_eq_getElem?_getD, List.getD_eq_getElem?_getD,
                    List.getElem?_append_left (by omega)]
                simp only [List.cons_append, pasteHeader, hstable, htake, hget, hpaste, if_true,
                  and_self]
            · cases h
      · rw [if_neg hcsi] at h
        cases h

/-! ### One step -/

namespace InputParser

theorem onCsi_eq (p : InputParser) (params : Bytes) (final : UInt8) :
    p.onCsi params final =
      if startsPaste params final then { p with inPaste := true, pasteScanned := 0 }
      else { p with ready := p.ready ++ (csiEvent params final).toList } := by
  by_cases hmouse : params.head? = some 0x3c
  · unfold onCsi startsPaste csiEvent
    cases mouseOf (splitParams params.tail) final <;> simp [hmouse, emit]
  have hunfold : p.onCsi params final =
      if final = 0x49 ∨ final = 0x4f then p.emit (.focus (final = 0x49))
      else if final = 0x7e then
        if firstParam params = 200 then { p with inPaste := true, pasteScanned := 0 }
        else p.emitKey (keyFromTilde (firstParam params)) 0 (modsOf params)
      else p.emitKey (keyFromFinal final) 0 (modsOf params) := if_neg hmouse
  rw [hunfold]
  unfold startsPaste csiEvent
  by_cases hfocus : final = 0x49 ∨ final = 0x4f
  · have hnot : final ≠ 0x7e := by
      rintro rfl
      exact absurd hfocus (by decide)
    simp [hmouse, hfocus, hnot, emit]
  by_cases htilde : final = 0x7e
  · by_cases h200 : firstParam params = 200 <;>
      simp [hmouse, htilde, h200, emitKey, emit]
  · simp [hmouse, hfocus, htilde, emitKey, emit]

theorem csiEvent_plain {params : Bytes} {final : UInt8} {e : InputEvent}
    (h : csiEvent params final = some e) : plain e = true := by
  unfold csiEvent at h
  repeat' split at h
  all_goals first
    | cases h
      rfl
    | simp only [Option.map_eq_some_iff] at h
      obtain ⟨m, -, rfl⟩ := h
      rfl

/-- What a step outside a paste can be: the sequence is unfinished, it is one of the
language, or it opens a paste. -/
def StepsAs (p : InputParser) (r : Nat × InputParser) : Prop :=
  (r = (0, { p with escPending := p.buf == [0x1b] }) ∧ inputFront p.buf = .needMore ∧
    pasteHeader p.buf = none) ∨
  (∃ n out, r = (n, { p with escPending := false, ready := p.ready ++ out.toList }) ∧
    inputFront p.buf = .take n out ∧ pasteHeader p.buf = none ∧ ∀ e ∈ out, plain e = true) ∨
  ∃ n, r = (n, { p with escPending := false, inPaste := true, pasteScanned := 0 }) ∧
    pasteHeader p.buf = some n

theorem stepByte_as {b0 : UInt8} {rest : Bytes} (hesc : b0 ≠ 0x1b) (ready : List InputEvent)
    (scanned : Nat) (pending : Bool) :
    StepsAs ⟨b0 :: rest, ready, false, pending, scanned⟩
      (stepByte ⟨b0 :: rest, ready, false, false, scanned⟩ b0) := by
  have hheader : pasteHeader (b0 :: rest) = none := by
    cases rest with
    | nil => rfl
    | cons b1 body => simp [pasteHeader, hesc]
  have hfront : inputFront (b0 :: rest) = byteFront b0 (b0 :: rest) := if_pos hesc
  unfold StepsAs stepByte
  simp only [hheader, hfront, byteFront]
  repeat' split
  · exact .inr (.inl ⟨1, _, rfl, rfl, trivial, by simp [plain]⟩)
  · exact .inr (.inl ⟨1, _, rfl, rfl, trivial, by simp [plain]⟩)
  · exact .inr (.inl ⟨1, _, rfl, rfl, trivial, by simp [plain]⟩)
  · exact .inr (.inl ⟨1, _, rfl, rfl, trivial, by simp [plain]⟩)
  · exact .inr (.inl ⟨1, _, rfl, rfl, trivial, by simp [plain]⟩)
  · refine .inl ⟨?_, rfl, trivial⟩
    simp [hesc]
  · exact .inr (.inl ⟨_, _, rfl, rfl, trivial, by simp [plain]⟩)

theorem stepEscape_as {rest : Bytes} (ready : List InputEvent) (scanned : Nat) (pending : Bool) :
    StepsAs ⟨0x1b :: rest, ready, false, pending, scanned⟩
      (stepEscape ⟨0x1b :: rest, ready, false, false, scanned⟩) := by
  have hfront : inputFront (0x1b :: rest) = escapeFront rest := rfl
  unfold StepsAs stepEscape
  simp only [hfront]
  cases rest with
  | nil => exact .inl ⟨rfl, rfl, rfl⟩
  | cons b1 body =>
      simp only [escapeFront, pasteHeader]
      by_cases hss3 : b1 = 0x4f
      · subst hss3
        cases body with
        | nil => exact .inl ⟨rfl, rfl, rfl⟩
        | cons f body => exact .inr (.inl ⟨3, _, rfl, rfl, rfl, by simp [plain]⟩)
      simp only [if_neg hss3]
      by_cases halt : b1 = 0x5b
      · subst halt
        simp only [ne_eq, not_true_eq_false, if_false, and_self, if_true, csiFront]
        have hlo := csiEnd_spec body 2
        cases hend : csiEnd body 2 with
        | incomplete => exact .inl ⟨rfl, rfl, rfl⟩
        | abandoned i => exact .inr (.inl ⟨i, none, by simp, rfl, rfl, by simp⟩)
        | final i =>
            simp only [hend] at hlo
            have hget : (0x1b :: 0x5b :: body).getD i 0 = body.getD (i - 2) 0 := by
              rw [show i = (i - 2) + 2 by omega]
              rfl
            simp only [hget, onCsi_eq]
            by_cases hpaste : startsPaste (body.take (i - 2)) (body.getD (i - 2) 0) = true
            · rw [if_pos hpaste, if_pos hpaste]
              exact .inr (.inr ⟨i + 1, rfl, if_pos hpaste⟩)
            · rw [if_neg hpaste, if_neg hpaste, if_neg hpaste]
              exact .inr (.inl ⟨i + 1, _, rfl, rfl, rfl, fun e he => csiEvent_plain he⟩)
      · simp only [ne_eq, halt, not_false_eq_true, if_true, and_false, if_false]
        by_cases hprint : 0x20 ≤ b1 ∧ b1 < 0x7f
        · simp only [if_pos hprint]
          exact .inr (.inl ⟨2, _, rfl, rfl, trivial, by simp [plain]⟩)
        · simp only [if_neg hprint]
          exact .inr (.inl ⟨2, none, by simp, rfl, trivial, by simp⟩)

theorem step_as (p : InputParser) (hin : p.inPaste = false) (hbuf : p.buf ≠ []) :
    StepsAs p p.step := by
  obtain ⟨buf, ready, inPaste, pending, scanned⟩ := p
  simp only at hin
  subst hin
  obtain ⟨b0, rest, rfl⟩ := List.exists_cons_of_ne_nil hbuf
  by_cases hesc : b0 = 0x1b
  · subst hesc
    exact stepEscape_as ready scanned pending
  · have hstep : step ⟨b0 :: rest, ready, false, pending, scanned⟩ =
        stepByte ⟨b0 :: rest, ready, false, false, scanned⟩ b0 := if_pos hesc
    rw [hstep]
    exact stepByte_as hesc ready scanned pending

/-! ### Inside a paste -/

/-- Where the search for the end resumes. -/
def rescanFrom (scanned : Nat) : Nat :=
  if scanned > kPasteEnd.length - 1 then scanned - (kPasteEnd.length - 1) else 0

/-- The unread bytes of a parser that is inside a paste: `n` bytes opened it, `text` was
delivered in pieces, and no end starts where the search will not look again. -/
structure InsidePaste (p : InputParser) (outs : List InputEvent) (r : Bytes) (n : Nat)
    (text : Bytes) : Prop where
  header : pasteHeader r = some n
  bytes : r.drop n = text ++ p.buf
  merged : ∃ pend, mergeState p.ready = (outs, pend) ∧ pend.getD [] = text
  scanned : ∀ more j, j < text.length + rescanFrom p.pasteScanned →
    ¬ kPasteEnd <+: (text ++ p.buf ++ more).drop j

variable {p : InputParser} {outs : List InputEvent} {r : Bytes}

namespace InsidePaste

variable {n : Nat} {text : Bytes}

/-- An end that is found in the buffer is the first one of the paste. -/
theorem found (h : InsidePaste p outs r n text) {i : Nat}
    (hfind : findFrom kPasteEnd (rescanFrom p.pasteScanned) p.buf = some i) :
    inputFront r =
      .take (n + (text.length + i) + kPasteEnd.length) (some (.paste (text ++ p.buf.take i) true)) := by
  have hfirst := findFrom_some kPasteEnd_ne_nil hfind
  have hwhole : FirstAt kPasteEnd (text ++ p.buf) 0 (text.length + i) := by
    refine ⟨Nat.zero_le _, ?_, fun j _ hj => ?_⟩
    · rw [List.drop_append, List.drop_of_length_le (by omega)]
      simpa using hfirst.2.1
    · by_cases hbefore : j < text.length + rescanFrom p.pasteScanned
      · simpa using h.scanned [] j hbefore
      · have hno := hfirst.2.2 (j - text.length) (by omega) (by omega)
        rwa [List.drop_append, List.drop_of_length_le (by omega), List.nil_append]
  rw [(pasteHeader_spec h.header).2.2.1, h.bytes]
  unfold pasteFront
  rw [findFrom_eq_some kPasteEnd_ne_nil hwhole]
  simp only [List.take_append, List.take_of_length_le (show text.length ≤ text.length + i by omega),
    Nat.add_sub_cancel_left]

/-- No end starts where it would be complete. -/
theorem not_found (h : InsidePaste p outs r n text)
    (hfind : findFrom kPasteEnd (rescanFrom p.pasteScanned) p.buf = none) (more : Bytes) {j : Nat}
    (hj : j + kPasteEnd.length ≤ text.length + p.buf.length) :
    ¬ kPasteEnd <+: (text ++ p.buf ++ more).drop j := by
  by_cases hbefore : j < text.length + rescanFrom p.pasteScanned
  · exact h.scanned more j hbefore
  · rw [prefix_drop_append more (by rw [List.length_append]; exact hj)]
    have hno := findFrom_none kPasteEnd_ne_nil hfind (j - text.length) (by omega)
    rwa [List.drop_append, List.drop_of_length_le (by omega), List.nil_append]

theorem needMore (h : InsidePaste p outs r n text)
    (hno : ∀ j, j + kPasteEnd.length ≤ text.length + p.buf.length →
      ¬ kPasteEnd <+: (text ++ p.buf).drop j) : inputFront r = .needMore := by
  rw [(pasteHeader_spec h.header).2.2.1, h.bytes]
  unfold pasteFront
  cases hfind : findFrom kPasteEnd 0 (text ++ p.buf) with
  | none => rfl
  | some i =>
      have hfirst := findFrom_some kPasteEnd_ne_nil hfind
      have hroom := prefix_drop_length kPasteEnd_ne_nil hfirst.2.1
      rw [List.length_append] at hroom
      exact absurd hfirst.2.1 (hno i hroom)

/-- The events once the end is read. -/
theorem ended (h : InsidePaste p outs r n text) (last : Bytes) :
    mergeState (p.ready ++ [.paste last true]) = (outs ++ [.paste (text ++ last) true], none) := by
  obtain ⟨pend, hmerged, rfl⟩ := h.merged
  rw [mergeState_concat, hmerged]
  rfl

/-- What follows the end in the stream is what follows it in the buffer. -/
theorem past_end (h : InsidePaste p outs r n text) (i : Nat) :
    r.drop (n + (text.length + i) + kPasteEnd.length) = p.buf.drop (i + kPasteEnd.length) := by
  have hsum : n + (text.length + i) + kPasteEnd.length =
      n + (text.length + (i + kPasteEnd.length)) := by omega
  rw [hsum, ← List.drop_drop, h.bytes, List.drop_append, List.drop_of_length_le (by omega),
    List.nil_append, Nat.add_sub_cancel_left]

/-- A piece is delivered. The last bytes stay: the end may straddle the cut. -/
theorem piece (h : InsidePaste p outs r n text)
    (hfind : findFrom kPasteEnd (rescanFrom p.pasteScanned) p.buf = none) {q : InputParser}
    {flush : Nat} (hflush : flush + (kPasteEnd.length - 1) = p.buf.length)
    (hbuf : q.buf = p.buf.drop flush)
    (hready : q.ready = p.ready ++ [.paste (p.buf.take flush) false]) (hscanned : q.pasteScanned = 0) :
    InsidePaste q outs r n (text ++ p.buf.take flush) := by
  have hlen : kPasteEnd.length = 6 := rfl
  have hsplit : text ++ p.buf.take flush ++ q.buf = text ++ p.buf := by
    rw [hbuf, List.append_assoc, List.take_append_drop]
  obtain ⟨pend, hmerged, htext⟩ := h.merged
  refine ⟨h.header, ?_, ⟨some (text ++ p.buf.take flush), ?_, rfl⟩, fun more j hj => ?_⟩
  · rw [hsplit]
    exact h.bytes
  · rw [hready, mergeState_concat, hmerged, ← htext]
    rfl
  · rw [hscanned, List.length_append, List.length_take, rescanFrom, if_neg (Nat.not_lt_zero _)] at hj
    rw [hsplit]
    exact h.not_found hfind more (by omega)

/-- Nothing is delivered: the search will resume before the last bytes. -/
theorem waiting (h : InsidePaste p outs r n text)
    (hfind : findFrom kPasteEnd (rescanFrom p.pasteScanned) p.buf = none) {q : InputParser}
    (hbuf : q.buf = p.buf) (hready : q.ready = p.ready)
    (hscanned : q.pasteScanned ≤ p.buf.length - (kPasteEnd.length - 1)) :
    InsidePaste q outs r n text := by
  have hlen : kPasteEnd.length = 6 := rfl
  refine ⟨h.header, by rw [hbuf]; exact h.bytes, by rw [hready]; exact h.merged, fun more j hj => ?_⟩
  rw [hbuf]
  by_cases hbefore : j < text.length
  · exact h.scanned more j (by omega)
  · refine h.not_found hfind more ?_
    unfold rescanFrom at hj
    split at hj <;> omega

end InsidePaste

/-- **What the parser has delivered and what it still holds.** -/
def Reads (p : InputParser) (outs : List InputEvent) (r : Bytes) : Prop :=
  (p.inPaste = false ∧ r = p.buf ∧ mergeState p.ready = (outs, none)) ∨
  (p.inPaste = true ∧ ∃ n text, InsidePaste p outs r n text)

/-- What a step inside a paste can be: its end, a piece of it, or nothing yet. -/
theorem stepPaste_as {n : Nat} {text : Bytes} (hin : p.inPaste = true)
    (h : InsidePaste p outs r n text) :
    (∃ k e, 0 < p.step.1 ∧ inputFront r = .take k (some e) ∧ p.step.2.escPending = false ∧
      Reads { p.step.2 with buf := p.step.2.buf.drop p.step.1 } (outs ++ [e]) (r.drop k)) ∨
    (0 < p.step.1 ∧ p.step.2.escPending = false ∧
      Reads { p.step.2 with buf := p.step.2.buf.drop p.step.1 } outs r) ∨
    (p.step.1 = 0 ∧ inputFront r = .needMore ∧ p.step.2.inPaste = true ∧
      p.step.2.escPending = false ∧ Reads p.step.2 outs r) := by
  have hstep : p.step = stepPaste { p with escPending := false } := by
    unfold step
    simp [hin]
  have hlen : kPasteEnd.length = 6 := rfl
  rw [hstep]
  unfold stepPaste
  simp only
  cases hfind : findFrom kPasteEnd (rescanFrom p.pasteScanned) p.buf with
  | some i =>
      have hsearch := hfind
      unfold rescanFrom at hsearch
      rw [hsearch]
      have hpos : 0 < i + kPasteEnd.length := by omega
      exact .inl ⟨_, _, hpos, h.found hfind, rfl, .inl ⟨rfl, h.past_end i, h.ended (p.buf.take i)⟩⟩
  | none =>
      have hsearch := hfind
      unfold rescanFrom at hsearch
      rw [hsearch]
      by_cases hlong : p.buf.length ≥ kMaxPasteChunk
      · have hcap : kMaxPasteChunk = 1048576 := rfl
        simp only [if_pos hlong]
        exact .inr (.inl ⟨by omega, rfl, .inr ⟨hin, n, _, h.piece hfind (by omega) rfl rfl rfl⟩⟩)
      · simp only [if_neg hlong]
        refine .inr (.inr ⟨trivial, h.needMore fun j hj => ?_, hin, trivial,
          .inr ⟨hin, n, text, h.waiting hfind rfl rfl ?_⟩⟩)
        · simpa using h.not_found hfind [] hj
        · simp only
          split <;> omega

/-- What is left when nothing more can be read: the beginning of a sequence, which only a
lone escape makes `escPending` tell. -/
structure Settled (p : InputParser) : Prop where
  pending : p.escPending = (!p.inPaste && p.buf == [0x1b])
  unfinished : p.inPaste = false → inputFront p.buf = .needMore ∧ pasteHeader p.buf = none

/-- **One step** reads a frame, changes nothing in the frames, or is stuck. -/
theorem step_reads (hbuf : p.buf ≠ []) (h : Reads p outs r) :
    (p.step.1 = 0 ∧ inputFront r = .needMore ∧ Reads p.step.2 outs r ∧ Settled p.step.2) ∨
    (0 < p.step.1 ∧ p.step.2.escPending = false ∧ ∃ out r',
      Reads { p.step.2 with buf := p.step.2.buf.drop p.step.1 } (outs ++ out) r' ∧
      inputFraming.drain r = (out ++ (inputFraming.drain r').1, (inputFraming.drain r').2)) := by
  obtain ⟨hin, rfl, hmerged⟩ | ⟨hin, n, text, hpaste⟩ := h
  · obtain ⟨hstep, hfront, hheader⟩ | ⟨n, out, hstep, hfront, hheader, hplain⟩ | ⟨n, hstep, hheader⟩ :=
      step_as p hin hbuf
    · rw [hstep]
      refine .inl ⟨rfl, hfront, .inl ⟨hin, rfl, hmerged⟩, ?_, fun _ => ⟨hfront, hheader⟩⟩
      simp [hin]
    · rw [hstep]
      refine .inr ⟨(inputFront_holds hfront).1, rfl, out.toList, p.buf.drop n, .inl ⟨hin, rfl, ?_⟩, ?_⟩
      · cases out with
        | none => simpa using hmerged
        | some e =>
            simp only [Option.toList]
            rw [mergeState_concat, hmerged, mergeEvent_plain (hplain e rfl)]
      · exact Framing.drain_of_take hfront
    · rw [hstep]
      obtain ⟨hpos, -, -, -⟩ := pasteHeader_spec hheader
      refine .inr ⟨hpos, rfl, [], p.buf, .inr ⟨rfl, n, [], ?_⟩, rfl⟩
      refine ⟨hheader, rfl, ⟨none, by rw [hmerged, List.append_nil], rfl⟩, fun more j hj => ?_⟩
      simp [rescanFrom] at hj
  · obtain ⟨k, e, hpos, hfront, hesc, hreads⟩ | ⟨hpos, hesc, hreads⟩ |
      ⟨hzero, hfront, hstill, hesc, hreads⟩ := stepPaste_as hin hpaste
    · have hdrain := Framing.drain_of_take (F := inputFraming) hfront
      exact .inr ⟨hpos, hesc, [e], r.drop k, hreads, hdrain⟩
    · exact .inr ⟨hpos, hesc, [], r, by rwa [List.append_nil], rfl⟩
    · refine .inl ⟨hzero, hfront, hreads, ?_, fun hout => ?_⟩
      · rw [hesc, hstill]
        rfl
      · rw [hstill] at hout
        cases hout

/-- **A whole pass** delivers the frames that are complete. -/
theorem pump_reads (h : Reads p outs r) (hesc : p.buf = [] → p.escPending = false) :
    ∃ r', (inputFraming.drain r).2 = some r' ∧
      Reads p.pump (outs ++ (inputFraming.drain r).1) r' ∧ Settled p.pump := by
  induction p using pump.induct generalizing outs r with
  | case1 p hbuf =>
      have hpump : p.pump = p := by
        unfold pump
        exact dif_pos hbuf
      have hfront : inputFront r = .needMore := by
        obtain ⟨-, rfl, -⟩ | ⟨-, n, text, hpaste⟩ := h
        · rw [hbuf]
          rfl
        · refine hpaste.needMore fun j hj => ?_
          have hlen : kPasteEnd.length = 6 := rfl
          rw [hbuf, List.length_nil] at hj
          simpa using hpaste.scanned [] j (by omega)
      rw [hpump, Framing.drain_of_needMore (F := inputFraming) hfront, List.append_nil]
      refine ⟨r, rfl, h, ?_, fun _ => ?_⟩
      · rw [hesc hbuf, hbuf, Bool.and_comm]
        rfl
      · rw [hbuf]
        exact ⟨rfl, rfl⟩
  | case2 p hbuf hused =>
      have hpump : p.pump = p.step.2 := by
        unfold pump
        rw [dif_neg hbuf, dif_pos hused]
      obtain ⟨-, hfront, hreads, hsettled⟩ | ⟨hpos, -⟩ := step_reads hbuf h
      · rw [hpump, Framing.drain_of_needMore (F := inputFraming) hfront, List.append_nil]
        exact ⟨r, rfl, hreads, hsettled⟩
      · omega
  | case3 p hbuf hused ih =>
      have hpump : p.pump = pump { p.step.2 with buf := p.step.2.buf.drop p.step.1 } := by
        rw [pump, dif_neg hbuf, dif_neg hused]
      obtain ⟨hzero, -⟩ | ⟨-, hpending, out, r', hreads, hdrain⟩ := step_reads hbuf h
      · exact absurd hzero hused
      · rw [hpump, hdrain, ← List.append_assoc]
        exact ih hreads fun _ => hpending

/-! ### Whole streams -/

theorem Reads.receive (h : Reads p outs r) (bytes : Bytes) :
    Reads { p with buf := p.buf ++ bytes } outs (r ++ bytes) := by
  obtain ⟨hin, rfl, hmerged⟩ | ⟨hin, n, text, hpaste⟩ := h
  · exact .inl ⟨hin, rfl, hmerged⟩
  · obtain ⟨-, hroom, -, hstable⟩ := pasteHeader_spec hpaste.header
    refine .inr ⟨hin, n, text, hstable bytes, ?_, hpaste.merged, fun more j hj => ?_⟩
    · rw [List.drop_append_of_le_length hroom, hpaste.bytes, List.append_assoc]
    · have hno := hpaste.scanned (bytes ++ more) j hj
      simpa only [List.append_assoc] using hno

/-- A fresh parser has delivered nothing and holds nothing. -/
theorem Reads.fresh : Reads {} [] [] ∧ Settled {} := ⟨.inl ⟨rfl, rfl, rfl⟩, rfl, fun _ => ⟨rfl, rfl⟩⟩

theorem feed_reads (h : Reads p outs r) (hs : Settled p) (bytes : Bytes) :
    ∃ r', (inputFraming.drain (r ++ bytes)).2 = some r' ∧
      Reads (p.feed bytes) (outs ++ (inputFraming.drain (r ++ bytes)).1) r' ∧
        Settled (p.feed bytes) := by
  refine pump_reads (h.receive bytes) fun hempty => ?_
  obtain ⟨hbuf, -⟩ := List.append_eq_nil_iff.1 hempty
  show p.escPending = false
  rw [hs.pending, hbuf, Bool.and_comm]
  rfl

/-- Feed the chunks one after the other. -/
def feeds (p : InputParser) (chunks : List Bytes) : InputParser := Lib.run feed p chunks

/-- **The cuts do not show** in what has been read and what is held. -/
theorem feeds_reads (h : Reads p outs r) (hs : Settled p) (hfront : inputFront r = .needMore)
    (chunks : List Bytes) :
    ∃ r', (inputFraming.drain (r ++ chunks.flatten)).2 = some r' ∧
      Reads (p.feeds chunks) (outs ++ (inputFraming.drain (r ++ chunks.flatten)).1) r' ∧
      Settled (p.feeds chunks) := by
  induction chunks generalizing p outs r with
  | nil =>
      rw [List.flatten_nil, List.append_nil, Framing.drain_of_needMore (F := inputFraming) hfront,
        List.append_nil]
      exact ⟨r, rfl, h, hs⟩
  | cons c cs ih =>
      obtain ⟨r', hrest, hreads, hsettled⟩ := feed_reads h hs c
      have hfront' := Framing.drain_rest_front hrest
      obtain ⟨r'', hlast, hreads', hsettled'⟩ := ih hreads hsettled hfront'
      rw [List.flatten_cons, ← List.append_assoc, Framing.drain_append, hrest]
      rw [List.append_assoc] at hreads'
      exact ⟨r'', hlast, hreads', hsettled'⟩

/-- The text of the paste under way that waits in the buffer. -/
def held (p : InputParser) : List InputEvent := if p.inPaste then [.paste p.buf false] else []

/-- The paste that the unread bytes open without ending it. -/
def openPaste (r : Bytes) : List InputEvent :=
  match pasteHeader r with
  | some n => [.paste (r.drop n) false]
  | none => []

/-- The events and what is held tell what was read and what is left. -/
theorem Reads.merge (h : Reads p outs r) (hs : Settled p) :
    p.inPaste = (pasteHeader r).isSome ∧ mergePastes (p.ready ++ p.held) = outs ++ openPaste r := by
  obtain ⟨hin, rfl, hmerged⟩ | ⟨hin, n, text, hpaste⟩ := h
  · obtain ⟨-, hheader⟩ := hs.unfinished hin
    refine ⟨by rw [hin, hheader]; rfl, ?_⟩
    simp only [held, hin, openPaste, hheader, mergePastes, Bool.false_eq_true, if_false,
      List.append_nil, hmerged, pendingPaste]
  · obtain ⟨pend, hmerged, rfl⟩ := hpaste.merged
    refine ⟨by rw [hin, hpaste.header]; rfl, ?_⟩
    simp only [held, hin, openPaste, hpaste.header, mergePastes, if_true, mergeState_concat, hmerged,
      hpaste.bytes, mergeEvent, pendingPaste]

theorem feeds_merge (chunks : List Bytes) :
    ∃ outs r, inputFraming.drain chunks.flatten = (outs, some r) ∧
      Reads (feeds {} chunks) outs r ∧ Settled (feeds {} chunks) := by
  obtain ⟨hfresh, hsettled⟩ := Reads.fresh
  obtain ⟨r, hrest, hreads, hsettled'⟩ := feeds_reads hfresh hsettled rfl chunks
  exact ⟨_, r, Prod.ext rfl hrest, hreads, hsettled'⟩

/-! ### The pieces of one paste -/

/-- As long as nothing is finished, only pieces have come. -/
theorem mergeState_pieces (es : List InputEvent) (h : (mergeState es).1 = []) :
    ∃ pieces : List Bytes, es = pieces.map (.paste · false) ∧
      (mergeState es).2.getD [] = pieces.flatten := by
  induction es using List.reverseRecOn with
  | nil => exact ⟨[], rfl, rfl⟩
  | append_singleton es e ih =>
      rw [mergeState_concat] at h ⊢
      match e with
      | .paste text false =>
          obtain ⟨pieces, rfl, hflat⟩ := ih h
          refine ⟨pieces ++ [text], by simp, ?_⟩
          simp [mergeEvent, hflat]
      | .paste text true => simp [mergeEvent] at h
      | .key k => simp [mergeEvent] at h
      | .mouse m => simp [mergeEvent] at h
      | .focus f => simp [mergeEvent] at h

/-- One finished paste came as its pieces, the last of which says so. -/
theorem mergeState_paste {es : List InputEvent} {t : Bytes}
    (h : mergeState es = ([.paste t true], none)) :
    ∃ (pieces : List Bytes) (last : Bytes), es = pieces.map (.paste · false) ++ [.paste last true] ∧
      pieces.flatten ++ last = t := by
  induction es using List.reverseRecOn with
  | nil => cases h
  | append_singleton es e ih =>
      rw [mergeState_concat] at h
      match e with
      | .paste text false => simp [mergeEvent] at h
      | .paste text true =>
          simp only [mergeEvent, Prod.mk.injEq, and_true] at h
          have hempty : (mergeState es).1 = [] := by
            have hlen := congrArg List.length h
            simpa using hlen
          obtain ⟨pieces, hes, hflat⟩ := mergeState_pieces es hempty
          refine ⟨pieces, text, by rw [← hes], ?_⟩
          rw [hempty, hflat] at h
          simpa using h
      | .key k => simp [mergeEvent, List.append_eq_singleton_iff] at h
      | .mouse m => simp [mergeEvent, List.append_eq_singleton_iff] at h
      | .focus f => simp [mergeEvent, List.append_eq_singleton_iff] at h

/-- The first end after a text that has none is the one that follows it: only the first
byte of an end is an escape, so none straddles. -/
theorem pasteEnd_firstAt {t : Bytes} (ht : ¬ kPasteEnd <:+: t) :
    FirstAt kPasteEnd (t ++ kPasteEnd) 0 t.length := by
  have hlen : kPasteEnd.length = 6 := rfl
  refine ⟨Nat.zero_le _, ?_, fun j _ hj hfound => ?_⟩
  · exact ⟨[], by simp⟩
  · by_cases hinside : j + kPasteEnd.length ≤ t.length
    · rw [prefix_drop_append kPasteEnd hinside] at hfound
      exact ht (hfound.isInfix.trans (List.drop_suffix j t).isInfix)
    · -- The byte where the second end starts would be one of the first end's tail.
      have hat : (kPasteEnd)[t.length - j]? = some 0x1b := by
        obtain ⟨rest, hrest⟩ := hfound
        have hget := congrArg (fun l : Bytes => l[t.length - j]?) hrest
        simp only [List.getElem?_append_left (show t.length - j < kPasteEnd.length by omega),
          List.getElem?_drop, show j + (t.length - j) = t.length by omega,
          List.getElem?_append_right (Nat.le_refl t.length), Nat.sub_self] at hget
        rw [hget]
        rfl
      have htail : ∀ k < 6, 0 < k → kPasteEnd[k]? ≠ some 0x1b := by decide
      exact htail (t.length - j) (by omega) (by omega) hat

theorem pasteHeader_start (t : Bytes) : pasteHeader (kPasteStart ++ t) = some 6 :=
  (pasteHeader_spec (show pasteHeader kPasteStart = some 6 by decide)).2.2.2 t

/-- A paste is read as one, whatever it holds but its end. -/
theorem drain_paste {t : Bytes} (ht : ¬ kPasteEnd <:+: t) :
    inputFraming.drain (kPasteStart ++ t ++ kPasteEnd) = ([.paste t true], some []) := by
  have hfront : inputFraming.front (kPasteStart ++ t ++ kPasteEnd) =
      .take (6 + t.length + kPasteEnd.length) (some (.paste t true)) := by
    rw [List.append_assoc]
    refine (pasteHeader_spec (pasteHeader_start (t ++ kPasteEnd))).2.2.1.trans ?_
    show pasteFront 6 (t ++ kPasteEnd) = _
    unfold pasteFront
    rw [findFrom_eq_some kPasteEnd_ne_nil (pasteEnd_firstAt ht)]
    simp only [List.take_left]
  have hall : (kPasteStart ++ t ++ kPasteEnd).drop (6 + t.length + kPasteEnd.length) = [] := by
    refine List.drop_of_length_le ?_
    simp only [List.length_append, show kPasteStart.length = 6 from rfl]
    omega
  rw [Framing.drain_of_take hfront, hall,
    Framing.drain_of_needMore inputFraming.front_nil]
  rfl

/-- **The cuts do not show.** However a stream is cut, its events are the same once the
pieces of a paste are put together, the text that waits for the end of a paste
included; and a paste comes as its pieces, of which only the last says it is complete. -/
theorem feeds_alike (xs ys : List Bytes) (hsame : xs.flatten = ys.flatten) :
    (feeds {} xs).inPaste = (feeds {} ys).inPaste ∧
    mergePastes ((feeds {} xs).ready ++ (feeds {} xs).held) =
      mergePastes ((feeds {} ys).ready ++ (feeds {} ys).held) ∧
    ((feeds {} xs).inPaste = false →
      mergePastes (feeds {} xs).ready = mergePastes (feeds {} ys).ready) ∧
    ∀ t, ¬ kPasteEnd <:+: t → xs.flatten = kPasteStart ++ t ++ kPasteEnd →
      ∃ (pieces : List Bytes) (last : Bytes),
        (feeds {} xs).ready = pieces.map (.paste · false) ++ [.paste last true] ∧
        pieces.flatten ++ last = t := by
  obtain ⟨outs, r, hdrain, hreads, hsettled⟩ := feeds_merge xs
  obtain ⟨outs', r', hdrain', hreads', hsettled'⟩ := feeds_merge ys
  obtain ⟨rfl, hr⟩ := Prod.mk.inj (hdrain.symm.trans (hsame ▸ hdrain'))
  obtain rfl := Option.some.inj hr
  obtain ⟨hin, hmerge⟩ := hreads.merge hsettled
  obtain ⟨hin', hmerge'⟩ := hreads'.merge hsettled'
  have heq := hin.trans hin'.symm
  refine ⟨heq, hmerge.trans hmerge'.symm, fun hout => ?_, fun t ht hpaste => ?_⟩
  · have hout' := heq.symm.trans hout
    simpa only [held, hout, hout', Bool.false_eq_true, if_false, List.append_nil] using
      hmerge.trans hmerge'.symm
  · rw [hpaste, drain_paste ht] at hdrain
    obtain ⟨rfl, hr⟩ := Prod.mk.inj hdrain
    obtain rfl := Option.some.inj hr
    obtain ⟨-, -, hmerged⟩ | ⟨-, n, text, hopen⟩ := hreads
    · exact mergeState_paste hmerged
    · exact absurd hopen.header nofun

theorem feeds_alike_cut :
    mergePastes ((feeds {} [kPasteStart ++ [0x68], [0x69] ++ kPasteEnd]).ready ++
        (feeds {} [kPasteStart ++ [0x68], [0x69] ++ kPasteEnd]).held) =
      mergePastes ((feeds {} [kPasteStart ++ [0x68, 0x69] ++ kPasteEnd]).ready ++
        (feeds {} [kPasteStart ++ [0x68, 0x69] ++ kPasteEnd]).held) ∧
    ∃ (pieces : List Bytes) (last : Bytes),
      (feeds {} [kPasteStart ++ [0x68], [0x69] ++ kPasteEnd]).ready =
        pieces.map (.paste · false) ++ [.paste last true] ∧ pieces.flatten ++ last = [0x68, 0x69] := by
  have h := feeds_alike [kPasteStart ++ [0x68], [0x69] ++ kPasteEnd]
    [kPasteStart ++ [0x68, 0x69] ++ kPasteEnd] rfl
  exact ⟨h.2.1, h.2.2.2 [0x68, 0x69] (by decide) rfl⟩

/-! ### Where the cuts show

A paste that is not finished is delivered up to the size its buffer had reached, which
the cuts decide. -/

theorem findFrom_pasteEnd_none {s : Bytes} (hs : 0x1b ∉ s) (lo : Nat) :
    findFrom kPasteEnd lo s = none := by
  cases hfind : findFrom kPasteEnd lo s with
  | none => rfl
  | some i =>
      obtain ⟨rest, hrest⟩ := (findFrom_some kPasteEnd_ne_nil hfind).2.1
      refine absurd (List.mem_of_mem_drop (i := i) ?_) hs
      rw [← hrest]
      exact List.mem_cons_self

theorem pump_open (t : Bytes) :
    pump { buf := kPasteStart ++ t } = pump { buf := t, inPaste := true } := by
  have hne : kPasteStart ++ t ≠ [] := nofun
  obtain ⟨-, -, hheader⟩ | ⟨n, out, -, -, hheader, -⟩ | ⟨n, hstep, hheader⟩ :=
    step_as { buf := kPasteStart ++ t } rfl hne
  · cases hheader.symm.trans (pasteHeader_start t)
  · cases hheader.symm.trans (pasteHeader_start t)
  · obtain rfl := Option.some.inj (hheader.symm.trans (pasteHeader_start t))
    rw [pump, dif_neg hne, dif_neg (by rw [hstep]; omega), hstep]
    rfl

/-- Nothing is delivered of a short text. -/
theorem pump_short (hin : p.inPaste = true) (hno : 0x1b ∉ p.buf)
    (hshort : p.buf.length < kMaxPasteChunk) :
    p.pump.ready = p.ready ∧ p.pump.inPaste = true ∧ p.pump.buf = p.buf := by
  have hstep : p.step.1 = 0 ∧ p.step.2.ready = p.ready ∧ p.step.2.inPaste = true := by
    unfold step stepPaste
    simp [hin, findFrom_pasteEnd_none hno, Nat.not_le.2 hshort]
  rw [pump]
  split
  · exact ⟨rfl, hin, rfl⟩
  · rw [dif_pos hstep.1]
    exact ⟨hstep.2.1, hstep.2.2, step_buf p⟩

/-- A long one is delivered but for its last bytes. -/
theorem pump_long (hin : p.inPaste = true) (hno : 0x1b ∉ p.buf)
    (hlong : kMaxPasteChunk ≤ p.buf.length) :
    p.pump.ready = p.ready ++ [.paste (p.buf.take (p.buf.length - 5)) false] ∧
      p.pump.inPaste = true ∧ p.pump.buf = p.buf.drop (p.buf.length - 5) := by
  have hcap : kMaxPasteChunk = 1048576 := rfl
  have hstep : p.step = (p.buf.length - 5,
      { p with
        escPending   := false
        ready        := p.ready ++ [.paste (p.buf.take (p.buf.length - 5)) false]
        pasteScanned := 0 }) := by
    unfold step stepPaste
    simp [hin, findFrom_pasteEnd_none hno, hlong, emit, show kPasteEnd.length = 6 from rfl]
  have hne : p.buf ≠ [] := by
    rintro hempty
    rw [hempty, List.length_nil] at hlong
    omega
  rw [pump, dif_neg hne, dif_neg (by rw [hstep]; simp only; omega), hstep]
  have hleft : (p.buf.drop (p.buf.length - 5)).length < kMaxPasteChunk := by
    rw [List.length_drop]
    omega
  exact pump_short hin (fun h => hno (List.mem_of_mem_drop h)) hleft

/-- A text that comes at once with what opens it, then one more byte. -/
theorem feeds_long {t : Bytes} (hno : 0x1b ∉ t) (hlong : kMaxPasteChunk ≤ t.length) :
    (feeds {} [kPasteStart ++ t]).ready = [.paste (t.take (t.length - 5)) false] ∧
      (feeds {} [kPasteStart ++ t, [0x61]]).ready = [.paste (t.take (t.length - 5)) false] := by
  have hcap : kMaxPasteChunk = 1048576 := rfl
  obtain ⟨hready, hin, hbuf⟩ := pump_long (p := { buf := t, inPaste := true }) rfl hno hlong
  have hone : feeds {} [kPasteStart ++ t] = pump { buf := t, inPaste := true } := pump_open t
  have htwo : feeds {} [kPasteStart ++ t, [0x61]] = (feeds {} [kPasteStart ++ t]).feed [0x61] := rfl
  refine ⟨by rw [hone, hready, List.nil_append], ?_⟩
  rw [htwo, hone]
  unfold feed
  rw [(pump_short (by exact hin) ?_ ?_).1]
  · rw [hready, List.nil_append]
  · simp only [hbuf, List.mem_append, List.mem_singleton, not_or]
    exact ⟨fun hmem => hno (List.mem_of_mem_drop hmem), by decide⟩
  · simp only [hbuf, List.length_append, List.length_drop, List.length_singleton]
    omega

theorem feeds_differ :
    ¬ ∀ xs ys : List Bytes, xs.flatten = ys.flatten →
      mergePastes (feeds {} xs).ready = mergePastes (feeds {} ys).ready := by
  intro h
  obtain ⟨m, hm⟩ : ∃ m, m = kMaxPasteChunk := ⟨_, rfl⟩
  have hpos : 5 < m := by
    rw [hm]
    decide
  have hno : ∀ k, (0x1b : UInt8) ∉ List.replicate k (0x61 : UInt8) :=
    fun k hmem => absurd (List.eq_of_mem_replicate hmem) (by decide)
  have hlong : ∀ k, kMaxPasteChunk ≤ (List.replicate (m + k) (0x61 : UInt8)).length := by
    intro k
    rw [List.length_replicate]
    omega
  -- One more byte comes with the rest of the text, or after it.
  have hsame := h [kPasteStart ++ List.replicate (m + 1) 0x61]
    [kPasteStart ++ List.replicate (m + 0) 0x61, [0x61]] (by simp [List.replicate_succ'])
  rw [(feeds_long (hno _) (hlong 1)).1, (feeds_long (hno _) (hlong 0)).2] at hsame
  simp only [mergePastes, mergeState, mergeEvent, pendingPaste, List.foldl_cons, List.foldl_nil,
    Option.getD_none, List.nil_append, List.cons.injEq, InputEvent.paste.injEq, and_true,
    List.take_replicate, List.length_replicate] at hsame
  have hlens := congrArg List.length hsame
  simp only [List.length_replicate] at hlens
  omega

end InputParser

end Sshos.Input
