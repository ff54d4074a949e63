import Sshos.Input.Chunks

/-!
# Sshos.Input.Timeout

Runs of the parser with its **ambiguity delay**. The delay is only awaited when
`escPending` says so, which it does for a lone escape. The other sequences that can stay
unfinished (`ESC O`, `ESC [` and parameters, a UTF-8 character that is cut) wait without
it, and take the next key in.
-/

namespace Sshos.Input

open Sshos.Common (utf8Decode)
open Sshos.Lib (Bytes Front Framing)

namespace InputParser

variable {p : InputParser} {outs : List InputEvent} {r : Bytes}

/-! ### What a timeout does -/

/-- Of the bytes that start no escape sequence, only a character can be cut. -/
theorem cut_of_needMore {b0 : UInt8} {rest : Bytes} (hesc : b0 ≠ 0x1b)
    (h : inputFront (b0 :: rest) = .needMore) : (b0 :: rest).length < utf8SeqLen b0 := by
  simp only [inputFront, ne_eq, hesc, not_false_eq_true, if_true, byteFront] at h
  repeat' split at h
  all_goals first
    | assumption
    | cases h

/-- It is given up as a whole. -/
theorem utf8Decode_cut {b0 : UInt8} {rest : Bytes} (h : (b0 :: rest).length < utf8SeqLen b0) :
    utf8Decode (b0 :: rest) 0 = ((b0 :: rest).length, Common.kReplacement) := by
  rw [utf8SeqLen_eq] at h
  rw [utf8Decode_cons]
  by_cases hascii : b0.toNat < 0x80
  · simp only [if_pos hascii, List.length_cons] at h
    omega
  simp only [if_neg hascii] at h ⊢
  cases hlead : leadOf b0.toNat with
  | none =>
      simp only [hlead, List.length_cons] at h
      omega
  | some lead =>
      obtain ⟨need, cp⟩ := lead
      simp only [hlead] at h ⊢
      have hshort : (b0 :: rest).length < need + 1 := h
      rw [if_pos (by omega)]
      rfl

theorem mergeState_plains {ready : List InputEvent} (hmerged : mergeState ready = (outs, none)) :
    ∀ {es : List InputEvent}, (∀ e ∈ es, plain e = true) →
      mergeState (ready ++ es) = (outs ++ es, none) := by
  intro es hes
  induction es using List.reverseRecOn with
  | nil => simpa using hmerged
  | append_singleton es e ih =>
      have hes' : ∀ e' ∈ es, plain e' = true := fun e' he' => hes e' (by simp [he'])
      rw [← List.append_assoc, mergeState_concat, ih hes', mergeEvent_plain (hes e (by simp)),
        List.append_assoc]

theorem foldl_emitKey (q : InputParser) (bytes : Bytes) :
    bytes.foldl (fun p b => p.emitKey .char b.toNat) q =
      { q with ready := q.ready ++ bytes.map fun b => .key { key := .char, ch := b.toNat } } := by
  induction bytes generalizing q with
  | nil => simp
  | cons b bytes ih =>
      rw [List.foldl_cons, ih]
      simp [emitKey, emit]

/-- Outside a paste, everything that waits is given up, as keys. -/
theorem timeout_outside (hin : p.inPaste = false) (hs : Settled p) :
    ∃ es : List InputEvent, (∀ e ∈ es, plain e = true) ∧
      p.timeout = { p with buf := [], ready := p.ready ++ es, escPending := false } := by
  obtain ⟨buf, ready, inPaste, pending, scanned⟩ := p
  simp only at hin
  subst hin
  cases buf with
  | nil => exact ⟨[], nofun, by simp [timeout]⟩
  | cons b0 rest =>
      by_cases hesc : b0 = 0x1b
      · subst hesc
        refine ⟨.key { key := .escape } :: rest.map fun b => .key { key := .char, ch := b.toNat },
          ?_, ?_⟩
        · intro e he
          obtain rfl | he := List.mem_cons.1 he
          · rfl
          · obtain ⟨b, -, rfl⟩ := List.mem_map.1 he
            rfl
        · simp only [timeout, foldl_emitKey]
          simp [emitKey, emit]
      · -- The only other sequence that waits is a character that is cut.
        have hcut := cut_of_needMore hesc (hs.unfinished rfl).1
        refine ⟨[.key { key := .char, ch := (utf8Decode (b0 :: rest) 0).2 }], by simp [plain], ?_⟩
        simp only [timeout, hesc, ne_eq, not_false_eq_true, if_true, Bool.false_eq_true, if_false,
          utf8Decode_cut hcut, List.drop_length, emitKey, emit]

theorem timeout_reads (h : Reads p outs r) (hs : Settled p) :
    ∃ es, Reads p.timeout (outs ++ es) (if (pasteHeader r).isSome then r else []) ∧
      Settled p.timeout := by
  obtain ⟨hheader, -⟩ := h.merge hs
  cases hin : p.inPaste with
  | true =>
      have htimeout : p.timeout = { p with escPending := false } := by
        unfold timeout
        simp [hin]
      rw [hin] at hheader
      rw [if_pos hheader.symm, htimeout]
      refine ⟨[], ?_, by simp [hin], fun hout => ?_⟩
      · rw [List.append_nil]
        obtain ⟨hout, -⟩ | ⟨-, n, text, hpaste⟩ := h
        · cases hin.symm.trans hout
        · exact .inr ⟨hin, n, text, hpaste.header, hpaste.bytes, hpaste.merged, hpaste.scanned⟩
      · cases hin.symm.trans hout
  | false =>
      obtain ⟨es, hplain, htimeout⟩ := timeout_outside hin hs
      rw [hin] at hheader
      rw [if_neg (by rw [← hheader]; decide), htimeout]
      obtain ⟨-, -, hmerged⟩ | ⟨hout, -⟩ := h
      · exact ⟨es, .inl ⟨hin, rfl, mergeState_plains hmerged hplain⟩, by simp, fun _ => ⟨rfl, rfl⟩⟩
      · cases hin.symm.trans hout

/-! ### Runs -/

/-- What the daemon calls. -/
inductive Call
  | feed (bytes : Bytes)
  | timeout

def call (p : InputParser) : Call → InputParser
  | .feed bytes => p.feed bytes
  | .timeout => p.timeout

/-- The bytes that no complete sequence holds, told from the calls alone. -/
def unreadAfter (r : Bytes) : Call → Bytes
  | .feed bytes => (inputFraming.drain (r ++ bytes)).2.getD []
  | .timeout => if (pasteHeader r).isSome then r else []

def unread (calls : List Call) : Bytes := Lib.run unreadAfter [] calls

/-- **The parser follows the framing** along every run. -/
theorem run_reads (h : Reads p outs r) (hs : Settled p) (calls : List Call) :
    ∃ outs', Reads (Lib.run call p calls) outs' (Lib.run unreadAfter r calls) ∧
      Settled (Lib.run call p calls) := by
  induction calls generalizing p outs r with
  | nil => exact ⟨outs, h, hs⟩
  | cons c cs ih =>
      cases c with
      | feed bytes =>
          obtain ⟨r', hrest, hreads, hsettled⟩ := feed_reads h hs bytes
          have hafter : unreadAfter r (.feed bytes) = r' := by
            show (inputFraming.drain (r ++ bytes)).2.getD [] = r'
            rw [hrest]
            rfl
          rw [Lib.run_cons, Lib.run_cons, hafter]
          exact ih hreads hsettled
      | timeout =>
          obtain ⟨es, hreads, hsettled⟩ := timeout_reads h hs
          exact ih hreads hsettled

/-! ### What stays stuck -/

/-- Whatever waits outside a paste is waited for. -/
def Answers (p : InputParser) : Prop := p.inPaste = false → p.buf ≠ [] → p.escPending = true

/-- A sequence that is cut after more than its escape: `ESC O`, `ESC [` with parameters
and no final byte, or a character short of the bytes its first one announces. -/
def CutShort : Bytes → Prop
  | [] => False
  | b0 :: rest =>
      if b0 = 0x1b then
        match rest with
        | [] => False
        | b1 :: body => (b1 = 0x4f ∧ body = []) ∨ (b1 = 0x5b ∧ csiEnd body 2 = .incomplete)
      else (b0 :: rest).length < utf8SeqLen b0

/-- Of the sequences that wait outside a paste, these are the ones that are more than a
lone escape. -/
theorem cutShort_iff (hfront : inputFront r = .needMore) (hheader : pasteHeader r = none) :
    CutShort r ↔ r ≠ [] ∧ r ≠ [0x1b] := by
  cases r with
  | nil => simp [CutShort]
  | cons b0 rest =>
      by_cases hesc : b0 = 0x1b
      · subst hesc
        cases rest with
        | nil => simp [CutShort]
        | cons b1 body =>
            have hfront' : escapeFront (b1 :: body) = .needMore := hfront
            simp only [escapeFront] at hfront'
            simp only [CutShort, if_true, ne_eq, List.cons_ne_nil, not_false_eq_true,
              List.cons.injEq, and_false, and_self, iff_true]
            by_cases hss3 : b1 = 0x4f
            · subst hss3
              cases body with
              | nil => exact .inl ⟨rfl, rfl⟩
              | cons f body => cases hfront'
            rw [if_neg hss3] at hfront'
            by_cases hcsi : b1 = 0x5b
            · subst hcsi
              rw [if_neg (by simp)] at hfront'
              refine .inr ⟨rfl, ?_⟩
              simp only [pasteHeader, and_self, if_true] at hheader
              unfold csiFront at hfront'
              cases hend : csiEnd body 2 with
              | incomplete => rfl
              | abandoned i =>
                  rw [hend] at hfront'
                  cases hfront'
              | final i =>
                  simp only [hend] at hfront' hheader
                  split at hheader
                  · cases hheader
                  · rename_i hpaste
                    rw [if_neg hpaste] at hfront'
                    cases hfront'
            · rw [if_pos hcsi] at hfront'
              cases hfront'
      · have hcut := cut_of_needMore hesc hfront
        simp only [CutShort, if_neg hesc, hcut, true_iff]
        exact ⟨List.cons_ne_nil b0 rest, fun h => hesc (List.cons.inj h).1⟩

/-- A sequence that is cut opens no paste. -/
theorem CutShort.pasteHeader_none (h : CutShort r) : pasteHeader r = none := by
  match r, h with
  | [b0], _ => rfl
  | b0 :: b1 :: body, h =>
      simp only [pasteHeader]
      by_cases hcsi : b0 = 0x1b ∧ b1 = 0x5b
      · obtain ⟨rfl, rfl⟩ := hcsi
        simp only [CutShort, if_true, show ¬ ((0x5b : UInt8) = 0x4f) by decide, false_and,
          false_or, true_and] at h
        rw [if_pos ⟨rfl, rfl⟩, h]
      · rw [if_neg hcsi]

theorem Reads.answers_iff (h : Reads p outs r) (hs : Settled p) : Answers p ↔ ¬ CutShort r := by
  obtain ⟨hheader, -⟩ := h.merge hs
  obtain ⟨hin, rfl, -⟩ | ⟨hin, -⟩ := h
  · obtain ⟨hfront, hnone⟩ := hs.unfinished hin
    have hpending := hs.pending
    simp only [hin, Bool.not_false, Bool.true_and] at hpending
    simp [Answers, hin, hpending, cutShort_iff hfront hnone]
  · rw [hin] at hheader
    have hno : ¬ CutShort r := by
      intro hcut
      rw [hcut.pasteHeader_none] at hheader
      cases hheader
    simp [Answers, hin, hno]

/-- **When every key is answered.** Along a run, whatever waits outside a paste is waited
for exactly when no call leaves, after the last complete sequence, one that is cut after
more than its escape. -/
theorem run_answers_iff (calls : List Call) :
    (∀ before, before <+: calls → Answers (Lib.run call {} before)) ↔
      ∀ before, before <+: calls → ¬ CutShort (unread before) := by
  refine forall₂_congr fun before _ => ?_
  obtain ⟨hfresh, hsettled⟩ := Reads.fresh
  obtain ⟨outs, hreads, hsettled'⟩ := run_reads hfresh hsettled before
  exact hreads.answers_iff hsettled'

/-- `ESC O` waits, and nothing waits for it. -/
theorem ss3_unanswered : ¬ ∀ calls, Answers (Lib.run call {} calls) := by
  intro h
  have hpump : feed {} [0x1b, 0x4f] = { buf := [0x1b, 0x4f] } := by
    unfold feed pump
    rfl
  have hans := h [.feed [0x1b, 0x4f]]
  simp only [Lib.run_cons, Lib.run_nil, call, hpump, Answers] at hans
  exact absurd (hans trivial nofun) nofun

end InputParser

end Sshos.Input
