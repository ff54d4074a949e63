import Mathlib.Data.List.Induction
import Sshos.Common.Utf8Text
import Sshos.Vt.ParserResync

/-!
# Sshos.Vt.ParserUtf8

The **decoder** of the ground state on any bytes. Good text is printed as it is, however it is
cut; a value is only ever printed off its own encoding; and a character that is not finished costs
one replacement, after which the byte that broke it is read as if nothing had been open.
-/

namespace Sshos.Vt

open Sshos.Lib
open Sshos.Common (Continues IsScalar IsText Written continues_iff encodeUtf8 encodeUtf8_ascii
  written_encodeUtf8)

namespace Parser

variable {p : Parser} {b : UInt8}

/-! ### Bytes of a character -/

theorem contByte_of_continues (hb : b &&& 0xC0 = 0x80) :
    contByte (b &&& 0x3F).toNat = b ∧ (b &&& 0x3F).toNat < 64 := by
  have hall : ∀ n, n < 256 → UInt8.ofNat n &&& 0xC0 = 0x80 →
      contByte (UInt8.ofNat n &&& 0x3F).toNat = UInt8.ofNat n ∧ (UInt8.ofNat n &&& 0x3F).toNat < 64 := by
    decide +kernel
  have h := hall b.toNat b.toNat_lt
  rw [UInt8.ofNat_toNat] at h
  exact h hb

/-- The beginning of a character: a byte that announces others, and less than all of them. -/
inductive Opened : Bytes → (acc need seen min : Nat) → Prop
  | two {a : Nat} (ha : a < 32) (hlow : 2 ≤ a) : Opened [UInt8.ofNat (0xC0 ||| a)] a 1 0 0x80
  | three {a : Nat} (ha : a < 16) : Opened [UInt8.ofNat (0xE0 ||| a)] a 2 0 0x800
  | four {a : Nat} (ha : a < 5) : Opened [UInt8.ofNat (0xF0 ||| a)] a 3 0 0x10000
  | next {w : Bytes} {acc need seen min k : Nat} (h : Opened w acc need seen min) (hk : k < 64)
      (hmore : seen + 1 < need) : Opened (w ++ [contByte k]) (acc * 64 + k) need (seen + 1) min

/-- At most three bytes follow the first one. -/
theorem Opened.need_range {w : Bytes} {acc need seen min : Nat} (h : Opened w acc need seen min) :
    need ≠ 0 ∧ need ≤ 3 := by
  induction h with
  | two _ _ => decide
  | three _ => decide
  | four _ => decide
  | next _ _ _ ih => exact ih

/-- With its last byte, a character is written as it should be. -/
theorem Opened.written {w : Bytes} {acc need seen min k : Nat} (h : Opened w acc need seen min)
    (hk : k < 64) (hlast : ¬ seen + 1 < need) (hmin : min ≤ acc * 64 + k)
    (hscalar : IsScalar (acc * 64 + k)) : Written (acc * 64 + k) (w ++ [contByte k]) := by
  unfold IsScalar at hscalar
  cases h with
  | two ha _ => exact .two ha hk hmin
  | three _ => omega
  | four _ => omega
  | next h hk1 _ =>
      cases h with
      | two _ _ => omega
      | three ha => exact .three ha hk1 hk hmin hscalar.1
      | four _ => omega
      | next h hk2 _ =>
          cases h with
          | two _ _ => omega
          | three _ => omega
          | four ha => exact .four (by omega) hk2 hk1 hk hmin hscalar.2
          | next h _ hmore =>
              have hneed := h.need_range.2
              omega

/-! ### Whatever is printed -/

/-- Inside a sequence nothing is printed. -/
theorem step_noPrint (h : p.state ≠ .ground) (b : UInt8) (cp : Nat) : .print cp ∉ (p.step b).2 := by
  unfold step
  split
  · split <;> simp
  split
  · split <;> split <;> simp
  split
  · next hstate => exact absurd hstate h
  · unfold escapeStep
    repeat' split
    all_goals simp
  · unfold escapeIntermediateStep
    repeat' split
    all_goals simp
  · unfold csiEntryStep
    repeat' split
    all_goals simp
  · unfold csiParamStep
    repeat' split
    all_goals simp
  · unfold csiIntermediateStep
    repeat' split
    all_goals simp
  · unfold csiIgnoreStep
    repeat' split
    all_goals simp
  · unfold dcsEntryStep
    repeat' split
    all_goals simp
  · unfold dcsParamStep
    repeat' split
    all_goals simp
  · unfold dcsIntermediateStep
    repeat' split
    all_goals simp
  · unfold dcsPassthroughStep
    split <;> simp
  · simp
  · unfold oscStringStep
    repeat' split
    all_goals simp
  · simp

/-- What the decoder holds is the end of what has been read. -/
def Holds (before : Bytes) (p : Parser) : Prop :=
  p.utf8Need ≠ 0 → ∃ w, w <:+ before ∧ Opened w p.utf8Acc p.utf8Need p.utf8Seen p.utf8Min

/-- A value printed at the end of these bytes: the replacement, or what they end with. -/
def PrintedBy (bytes : Bytes) (cp : Nat) : Prop :=
  IsScalar cp ∧ (cp = 0xFFFD ∨ encodeUtf8 cp <:+ bytes)

/-- What a byte does to the decoder, and what it prints. -/
structure Decodes (bytes : Bytes) (r : Parser × List SinkCall) : Prop where
  holds : Holds bytes r.1
  printed : ∀ cp, .print cp ∈ r.2 → PrintedBy bytes cp

theorem printedBy_replacement (bytes : Bytes) : PrintedBy bytes 0xFFFD := ⟨by decide, .inl rfl⟩

theorem holds_closed {before : Bytes} (h : p.utf8Need = 0) : Holds before p := fun hne => absurd h hne

/-- A byte that prints nothing and leaves the decoder closed. -/
theorem Decodes.silent {bytes : Bytes} {calls : List SinkCall} (h : p.utf8Need = 0)
    (hcalls : ∀ cp, .print cp ∉ calls) : Decodes bytes (p, calls) :=
  ⟨holds_closed h, fun cp hcp => absurd hcp (hcalls cp)⟩

theorem utf8Lead_decodes (hneed : p.utf8Need = 0) (before : Bytes) (b : UInt8) :
    Decodes (before ++ [b]) (p.utf8Lead b) := by
  have hleads : ∀ n, n < 256 → let b := UInt8.ofNat n
      (0xC2 ≤ b ∧ b ≤ 0xDF → b = UInt8.ofNat (0xC0 ||| (b &&& 0x1F).toNat) ∧
        (b &&& 0x1F).toNat < 32 ∧ 2 ≤ (b &&& 0x1F).toNat) ∧
      (0xE0 ≤ b ∧ b ≤ 0xEF → b = UInt8.ofNat (0xE0 ||| (b &&& 0x0F).toNat) ∧
        (b &&& 0x0F).toNat < 16) ∧
      (0xF0 ≤ b ∧ b ≤ 0xF4 → b = UInt8.ofNat (0xF0 ||| (b &&& 0x07).toNat) ∧
        (b &&& 0x07).toNat < 5) := by
    decide +kernel
  have hb := hleads b.toNat b.toNat_lt
  rw [UInt8.ofNat_toNat] at hb
  obtain ⟨htwo, hthree, hfour⟩ := hb
  have hopen : ∀ {acc need min : Nat}, Opened [b] acc need 0 min →
      Decodes (before ++ [b])
        ({ p with utf8Acc := acc, utf8Need := need, utf8Min := min, utf8Seen := 0 }, []) :=
    fun hopened => ⟨fun _ => ⟨[b], List.suffix_append _ _, hopened⟩, nofun⟩
  unfold utf8Lead
  split
  next hrange =>
    obtain ⟨heq, hlt, hlow⟩ := htwo hrange
    refine hopen ?_
    have hopened := Opened.two hlt hlow
    rwa [← heq] at hopened
  split
  next hrange =>
    obtain ⟨heq, hlt⟩ := hthree hrange
    refine hopen ?_
    have hopened := Opened.three hlt
    rwa [← heq] at hopened
  split
  next hrange =>
    obtain ⟨heq, hlt⟩ := hfour hrange
    refine hopen ?_
    have hopened := Opened.four hlt
    rwa [← heq] at hopened
  · refine ⟨holds_closed hneed, fun cp hcp => ?_⟩
    obtain rfl := SinkCall.print.inj (List.mem_singleton.1 hcp)
    exact printedBy_replacement _

theorem groundFresh_decodes (hneed : p.utf8Need = 0) (before : Bytes) (b : UInt8) :
    Decodes (before ++ [b]) (p.groundFresh b) := by
  unfold groundFresh
  split
  · exact .silent hneed (by simp)
  split
  · exact .silent hneed (by simp)
  split
  · exact .silent hneed (by simp)
  split
  · exact .silent hneed (by simp)
  split
  next hascii =>
    refine ⟨holds_closed hneed, fun cp hcp => ?_⟩
    obtain rfl := SinkCall.print.inj (List.mem_singleton.1 hcp)
    have hlt : b.toNat < 0x80 := UInt8.lt_iff_toNat_lt.1 hascii
    refine ⟨⟨by omega, by omega⟩, .inr ?_⟩
    rw [encodeUtf8_ascii hlt]
    exact List.suffix_append _ _
  · exact utf8Lead_decodes hneed before b

theorem groundStep_decodes {before : Bytes} (h : Holds before p) (b : UInt8) :
    Decodes (before ++ [b]) (p.groundStep b) := by
  by_cases hneed : p.utf8Need = 0
  · rw [groundStep_closed hneed]
    exact groundFresh_decodes hneed before b
  by_cases hb : b &&& 0xC0 = 0x80
  · obtain ⟨w, ⟨pre, rfl⟩, hopened⟩ := h hneed
    obtain ⟨hbyte, hk⟩ := contByte_of_continues hb
    have hsuffix : w ++ [contByte (b &&& 0x3F).toNat] <:+ pre ++ w ++ [b] := by
      rw [hbyte, List.append_assoc]
      exact List.suffix_append _ _
    rw [groundStep_continued hneed hb, shiftLeft_or hk]
    split
    next hmore => exact ⟨fun _ => ⟨_, hsuffix, hopened.next hk hmore⟩, nofun⟩
    next hlast =>
      refine ⟨holds_closed rfl, fun cp hcp => ?_⟩
      obtain rfl := SinkCall.print.inj (List.mem_singleton.1 hcp)
      split
      · exact printedBy_replacement _
      next hgood =>
        have hscalar : IsScalar (p.utf8Acc * 64 + (b &&& 0x3F).toNat) := ⟨by omega, by omega⟩
        have hwritten := hopened.written hk hlast (by omega) hscalar
        exact ⟨hscalar, .inr (hwritten.encode ▸ hsuffix)⟩
  · rw [groundStep_broken hneed hb]
    have hfresh := groundFresh_decodes (p := p.clearUtf8) rfl before b
    refine ⟨hfresh.holds, fun cp hcp => ?_⟩
    rcases List.mem_append.1 hcp with hcp | hcp
    · obtain rfl := SinkCall.print.inj (List.mem_singleton.1 hcp)
      exact printedBy_replacement _
    · exact hfresh.printed cp hcp

/-- **One byte**: the decoder keeps the end of what has been read, and prints nothing else. -/
theorem step_decodes {before : Bytes} (hsane : p.Sane) (h : Holds before p) (b : UInt8) :
    Decodes (before ++ [b]) (p.step b) := by
  by_cases hstate : p.state = .ground
  · rw [step_ground hstate]
    exact groundStep_decodes h b
  · have hclosed := congrArg (·.2.1) (within_step hstate b).utf8
    exact .silent (hclosed.trans (hsane.sequence hstate)) (step_noPrint hstate b)

/-- A parser that has read these bytes. -/
def reached (bytes : Bytes) : Parser := (({} : Parser).feed bytes).1

theorem reached_concat (bytes : Bytes) (b : UInt8) : reached (bytes ++ [b]) = ((reached bytes).step b).1 := by
  rw [reached, feed_append, feed_cons]
  rfl

theorem reached_sane (bytes : Bytes) : (reached bytes).Sane := feed_sane bytes

theorem reached_holds (bytes : Bytes) : Holds bytes (reached bytes) := by
  induction bytes using List.reverseRecOn with
  | nil => exact holds_closed rfl
  | append_singleton bytes b ih =>
      rw [reached_concat]
      exact (step_decodes (reached_sane bytes) ih b).holds

/-! ### Good text -/

/-- Feeding piece by piece. -/
def feeds (p : Parser) (chunks : List Bytes) : Parser × List SinkCall :=
  chunks.foldl (fun r bytes => ((r.1.feed bytes).1, r.2 ++ (r.1.feed bytes).2)) (p, [])

theorem foldl_feeds (p : Parser) (calls : List SinkCall) (chunks : List Bytes) :
    chunks.foldl (fun r bytes => ((r.1.feed bytes).1, r.2 ++ (r.1.feed bytes).2)) (p, calls) =
      ((p.feed chunks.flatten).1, calls ++ (p.feed chunks.flatten).2) := by
  induction chunks generalizing p calls with
  | nil => simp
  | cons bytes chunks ih =>
      rw [List.foldl_cons, ih, List.flatten_cons, feed_append, List.append_assoc]

/-- However it is cut, the same is read. -/
theorem feeds_eq (p : Parser) (chunks : List Bytes) : p.feeds chunks = p.feed chunks.flatten :=
  foldl_feeds p [] chunks

theorem reads_text {cps : List Nat} (h : ∀ cp ∈ cps, IsScalar cp ∧ 0x20 ≤ cp ∧ cp ≠ 0x7F) :
    Reads (cps.flatMap encodeUtf8) (cps.map .print) := by
  induction cps with
  | nil => exact .nil
  | cons cp cps ih =>
      obtain ⟨⟨hscalar, hlow, hdel⟩, hcps⟩ := List.forall_mem_cons.1 h
      exact (reads_encodeUtf8 hscalar hlow hdel).append (ih hcps)

/-! ### Broken text -/

/-- A byte that continues nothing, in the ground state: one replacement for what is open. -/
theorem step_broken (hstate : p.state = .ground) (hneed : p.utf8Need ≠ 0) (hb : ¬ Continues b) :
    p.step b = ((p.clearUtf8.step b).1, .print 0xFFFD :: (p.clearUtf8.step b).2) := by
  rw [continues_iff] at hb
  rw [step_ground hstate, groundStep_broken hneed hb, step_ground (p := p.clearUtf8) hstate,
    groundStep_closed (p := p.clearUtf8) rfl]
  rfl

/-- The beginning of a character makes no call. -/
theorem Opened.feed {w : Bytes} {acc need seen min : Nat} (h : Opened w acc need seen min)
    (hp : p.Quiet) : p.feed w = (p.midUtf8 acc need seen min, []) := by
  induction h with
  | @two a ha hlow =>
      obtain ⟨hlo, hhi, hbits⟩ := lead_spec.1 a ha hlow
      generalize UInt8.ofNat (0xC0 ||| a) = b at hlo hhi hbits ⊢
      rw [feed_cons, step_high hp (UInt8.le_trans (by decide) hlo)]
      simp [utf8Lead, hlo, hhi, hbits, midUtf8]
  | @three a ha =>
      obtain ⟨hout, hlo, hhi, hbits⟩ := lead_spec.2.1 a ha
      generalize UInt8.ofNat (0xE0 ||| a) = b at hout hlo hhi hbits ⊢
      rw [feed_cons, step_high hp (UInt8.le_trans (by decide) hlo)]
      simp [utf8Lead, hout, hlo, hhi, hbits, midUtf8]
  | @four a ha =>
      obtain ⟨hout, hlo, hhi, hbits⟩ := lead_spec.2.2 a ha
      generalize UInt8.ofNat (0xF0 ||| a) = b at hout hlo hhi hbits ⊢
      have hout' : ¬ b ≤ 0xDF := fun h => hout (UInt8.le_trans h (by decide))
      rw [feed_cons, step_high hp (UInt8.le_trans (by decide) hlo)]
      simp [utf8Lead, hout, hout', hlo, hhi, hbits, midUtf8]
  | next _ hk hmore ih =>
      rw [feed_append, ih, feed_cons, step_cont hp hk hmore]
      rfl

/-- Between sequences an empty decoder stays as it is. -/
theorem Sane.clearUtf8_eq (h : p.Sane) (hp : p.Quiet) : p.clearUtf8 = p := by
  have hutf8 := h.closed hp.utf8
  cases p
  simp_all [utf8, clearUtf8]

/-- **A character that is not finished** costs one replacement. -/
theorem feed_truncated (hsane : p.Sane) (hp : p.Quiet) {w : Bytes} {acc need seen min : Nat}
    (h : Opened w acc need seen min) (hb : ¬ Continues b) :
    p.feed (w ++ [b]) = ((p.step b).1, .print 0xFFFD :: (p.step b).2) := by
  have hclear : (p.midUtf8 acc need seen min).clearUtf8 = p := hsane.clearUtf8_eq hp
  have hstep : (p.midUtf8 acc need seen min).step b = ((p.step b).1, .print 0xFFFD :: (p.step b).2) := by
    rw [step_broken (p := p.midUtf8 acc need seen min) hp.state h.need_range.1 hb, hclear]
  rw [feed_append, h.feed hp]
  simp only
  rw [feed_cons, hstep]
  simp

/-- **The decoder is safe.** From the ground state good text is printed as it is, however it is
cut, after the replacement of what may be open; a value is printed off its own encoding, or it is
the replacement; and what is not finished costs exactly one, the byte that breaks it being read as
if nothing had been open. -/
theorem decoder_safe (before : Bytes) :
    ((reached before).state = .ground →
      ∀ (cps : List Nat) (chunks : List Bytes), (∀ cp ∈ cps, IsScalar cp ∧ 0x20 ≤ cp ∧ cp ≠ 0x7F) →
        chunks.flatten = cps.flatMap encodeUtf8 →
        ((reached before).feeds chunks).2 =
          (if (reached before).utf8Need = 0 ∨ cps = [] then [] else [.print 0xFFFD]) ++
            cps.map .print) ∧
    (∀ b cp, .print cp ∈ ((reached before).step b).2 →
      IsScalar cp ∧ (cp = 0xFFFD ∨ encodeUtf8 cp <:+ before ++ [b])) ∧
    ((reached before).Quiet → ∀ {w : Bytes} {acc need seen min : Nat} {b : UInt8},
      Opened w acc need seen min → ¬ Continues b →
        (reached before).feed (w ++ [b]) =
          (((reached before).step b).1, .print 0xFFFD :: ((reached before).step b).2)) := by
  have hsane := reached_sane before
  refine ⟨fun hstate cps chunks hcps hchunks => ?_, fun b cp hcp => ?_, fun hp _ _ _ _ _ _ h hb => ?_⟩
  · generalize reached before = p at hstate
    rw [feeds_eq, hchunks]
    by_cases hclosed : p.utf8Need = 0 ∨ cps = []
    · rw [if_pos hclosed, List.nil_append]
      obtain hneed | rfl := hclosed
      · obtain ⟨q, -, hfeed⟩ := reads_text hcps p ⟨hstate, hneed⟩
        rw [hfeed]
      · rfl
    · obtain ⟨hneed, hne⟩ := not_or.1 hclosed
      rw [if_neg hclosed]
      obtain ⟨cp, cps, rfl⟩ := List.exists_cons_of_ne_nil hne
      obtain ⟨b0, rest, hw, hb0, -⟩ := (written_encodeUtf8 (hcps cp List.mem_cons_self).1).head
      obtain ⟨q, -, hfeed⟩ := reads_text hcps p.clearUtf8 ⟨hstate, rfl⟩
      rw [List.flatMap_cons, hw, List.cons_append, feed_cons] at hfeed
      rw [List.flatMap_cons, hw, List.cons_append, feed_cons, step_broken hstate hneed hb0,
        List.cons_append, (Prod.mk.inj hfeed).2]
      rfl
  · exact (step_decodes hsane (reached_holds before) b).printed cp hcp
  · exact feed_truncated hsane hp h hb

/-- After an unfinished character, an accented one in two pieces; then an unfinished one that a
letter breaks. -/
theorem decoder_safe_accents :
    ((reached [0xE2, 0x82]).feeds [[0xC3], [0xA9]]).2 = [.print 0xFFFD, .print 0xE9] ∧
      (reached [0x41]).feed ([0xE2] ++ [0x42]) =
        (((reached [0x41]).step 0x42).1, .print 0xFFFD :: ((reached [0x41]).step 0x42).2) :=
  ⟨(decoder_safe [0xE2, 0x82]).1 (by decide) [0xE9] [[0xC3], [0xA9]] (by decide) (by decide),
    (decoder_safe [0x41]).2.2 ⟨by decide, by decide⟩ (.three (a := 2) (by decide)) (by decide)⟩

end Parser

end Sshos.Vt
