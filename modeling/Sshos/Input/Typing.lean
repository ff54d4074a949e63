import Sshos.Input.Encode

/-!
# Sshos.Input.Typing

What **typed characters** become. A character is its encoding, after an escape when Alt is held, and
however the bytes are cut the parser delivers the same events (`typed_arrives`): one a character, but
for the characters above ASCII typed with Alt. The escape goes with the first byte of the character,
both are dropped, and the bytes that continued it come one by one as replacement characters.
-/

namespace Sshos.Input

open Sshos.Common (Continues IsScalar encodeUtf8 kReplacement utf8Decode written_encodeUtf8)
open Sshos.Lib (Bytes Front Framing)
open InputParser

/-- A character typed, with Alt or without. -/
structure Typing where
  ch : Nat
  alt : Bool := false
  deriving DecidableEq

namespace Typing

/-- The key the user pressed. -/
def key (c : Typing) : KeyEvent := { key := .char, ch := c.ch, mods := { alt := c.alt } }

/-- What the terminal sends. -/
def bytes (c : Typing) : Bytes := if c.alt then 0x1b :: encodeUtf8 c.ch else encodeUtf8 c.ch

/-- A printable character, and with Alt none that introduces a sequence. -/
def Typeable (c : Typing) : Prop :=
  ((0x20 ≤ c.ch ∧ c.ch ≤ 0x7e) ∨ (0xA0 ≤ c.ch ∧ IsScalar c.ch)) ∧
    ¬ (c.alt = true ∧ (c.ch = 0x5b ∨ c.ch = 0x4f))

instance (c : Typing) : Decidable c.Typeable := inferInstanceAs (Decidable (_ ∧ _))

/-- What the parser makes of it. -/
def arrives (c : Typing) : List InputEvent :=
  if c.alt = true ∧ 0x80 ≤ c.ch then
    (encodeUtf8 c.ch).tail.map fun _ => .key { key := .char, ch := kReplacement }
  else [.key c.key]

/-- It is the form in which a guest is given the same key. -/
theorem encodeKey_key (c : Typing) (app : Bool) : encodeKey c.key app = c.bytes := rfl

end Typing

/-! ### One character -/

/-- A sequence that is one key, and nothing is left. -/
theorem drain_of_readsAs {bytes : Bytes} {k : KeyEvent} (h : ReadsAs bytes k) :
    inputFraming.drain bytes = ([.key k], some []) := by
  have hfront : inputFraming.front bytes = _ := h
  rw [Framing.drain_of_take hfront, List.drop_length,
    Framing.drain_of_needMore inputFraming.front_nil]
  rfl

/-- A property of the bytes is one of the 256 numbers they stand for. -/
theorem forall_byte {P : UInt8 → Prop} (h : ∀ n < 256, P (UInt8.ofNat n)) (b : UInt8) : P b := by
  have hb := h b.toNat b.toNat_lt
  rwa [UInt8.ofNat_toNat] at hb

/-- A byte that continues nothing is a replacement character. -/
theorem inputFront_continues {b : UInt8} (hb : Continues b) (rest : Bytes) :
    inputFront (b :: rest) = .take 1 (some (.key { key := .char, ch := kReplacement })) := by
  have hbyte : ∀ b : UInt8, Continues b → b ≠ 0x1b ∧ b ≠ 0x0d ∧ b ≠ 0x0a ∧ b ≠ 0x09 ∧ b ≠ 0x7f ∧
      b ≠ 0x08 ∧ ¬ b < 0x20 ∧ utf8SeqLen b = 1 ∧ ¬ b.toNat < 0x80 ∧ leadOf b.toNat = none :=
    forall_byte (by decide +kernel)
  obtain ⟨hesc, hcr, hlf, htab, hdel, hbs, hlow, hseq, hhigh, hlead⟩ := hbyte b hb
  have hdecode : utf8Decode (b :: rest) 0 = (1, kReplacement) := by
    rw [utf8Decode_cons, if_neg hhigh, hlead]
  have hthere : ¬ (b :: rest).length < 1 := Nat.not_lt.2 (Nat.succ_pos _)
  simp only [inputFront, byteFront, ne_eq, hesc, hcr, hlf, htab, hdel, hbs, hlow, hseq, hdecode, hthere,
    not_false_eq_true, if_true, or_self, if_false]

theorem drain_continues {bs : Bytes} (h : ∀ b ∈ bs, Continues b) :
    inputFraming.drain bs =
      (bs.map fun _ => .key { key := .char, ch := kReplacement }, some []) := by
  induction bs with
  | nil => rw [Framing.drain_of_needMore inputFraming.front_nil, List.map_nil]
  | cons b bs ih =>
      obtain ⟨hb, hbs⟩ := List.forall_mem_cons.1 h
      have hfront : inputFraming.front (b :: bs) = _ := inputFront_continues hb bs
      rw [Framing.drain_of_take hfront, List.drop_one, List.tail_cons, ih hbs, List.map_cons]
      rfl

/-- An escape takes the first byte above ASCII with it. -/
theorem inputFront_escape_high {b0 : UInt8} (hb0 : 0x80 ≤ b0.toNat) (rest : Bytes) :
    inputFront (0x1b :: b0 :: rest) = .take 2 none := by
  have hbyte : ∀ b0 : UInt8, 0x80 ≤ b0.toNat → b0 ≠ 0x4f ∧ b0 ≠ 0x5b ∧ ¬ (0x20 ≤ b0 ∧ b0 < 0x7f) :=
    forall_byte (by decide +kernel)
  obtain ⟨hss3, hcsi, hprint⟩ := hbyte b0 hb0
  have hesc : ¬ (0x1b : UInt8) ≠ 0x1b := by decide
  simp only [inputFront, if_neg hesc, escapeFront, if_neg hss3, if_pos hcsi, if_neg hprint]

/-- **What one character becomes**: itself, unless Alt is held with one above ASCII. -/
theorem Typing.drain_bytes {c : Typing} (h : c.Typeable) :
    inputFraming.drain c.bytes = (c.arrives, some []) := by
  obtain ⟨ch, alt⟩ := c
  obtain ⟨hch, hintro⟩ := h
  simp only at hch hintro
  have hscalar : IsScalar ch := by
    unfold IsScalar at hch ⊢
    omega
  by_cases hhigh : alt = true ∧ 0x80 ≤ ch
  · obtain ⟨rfl, hch80⟩ := hhigh
    have hwritten := written_encodeUtf8 hscalar
    obtain ⟨b0, rest, hw, -, hrest⟩ := hwritten.head
    have hb0 : 0x80 ≤ b0.toNat := by
      rcases hwritten.ascii_or with ⟨hlow, -⟩ | ⟨-, -, hall⟩
      · omega
      · exact hall b0 (hw ▸ List.mem_cons_self)
    simp only [Typing.bytes, Typing.arrives, if_true, hch80, and_self, hw, List.tail_cons]
    have hfront : inputFraming.front (0x1b :: b0 :: rest) = _ := inputFront_escape_high hb0 rest
    rw [Framing.drain_of_take hfront]
    simp only [List.drop_succ_cons, List.drop_zero, drain_continues hrest]
    rfl
  · have hprint : 0x20 ≤ ch ∧ ch ≠ 0x7f := by omega
    have harrives : Typing.arrives ⟨ch, alt⟩ = [.key (Typing.key ⟨ch, alt⟩)] := if_neg hhigh
    rw [harrives]
    refine drain_of_readsAs ?_
    cases alt with
    | false => exact encodeUtf8_readsAs hscalar hprint.1 hprint.2
    | true =>
        have hlow : ch < 0x80 := Nat.not_le.1 fun hle => hhigh ⟨rfl, hle⟩
        have halt : isAlt ch = true := by
          simp only [isAlt, Bool.and_eq_true, decide_eq_true_eq, bne_iff_ne]
          simp only [true_and, not_or] at hintro
          omega
        exact altKey_readsAs ch (by omega) halt false

/-! ### A text, however it is cut -/

theorem drain_typed {cs : List Typing} (h : ∀ c ∈ cs, c.Typeable) :
    inputFraming.drain (cs.flatMap Typing.bytes) = (cs.flatMap Typing.arrives, some []) := by
  induction cs with
  | nil => exact Framing.drain_of_needMore inputFraming.front_nil
  | cons c cs ih =>
      obtain ⟨hc, hcs⟩ := List.forall_mem_cons.1 h
      rw [List.flatMap_cons, List.flatMap_cons, Framing.drain_append, Typing.drain_bytes hc]
      simp only [Framing.feed, List.nil_append, ih hcs]

/-- Events among which there is no paste were not put together. -/
theorem eq_of_mergeState {es outs : List InputEvent} (h : mergeState es = (outs, none))
    (houts : ∀ e ∈ outs, plain e = true) : es = outs := by
  induction es using List.reverseRecOn generalizing outs with
  | nil => exact (Prod.mk.inj h).1
  | append_singleton es e ih =>
      rw [mergeState_concat] at h
      have hrest : plain e = true → es ++ [e] = outs := by
        intro he
        obtain ⟨merged, pending, hstate⟩ : ∃ merged pending, mergeState es = (merged, pending) :=
          ⟨_, _, rfl⟩
        have hevent : mergeEvent (merged, pending) e = (merged ++ pendingPaste pending ++ [e], none) := by
          cases e with
          | paste text complete => cases he
          | _ => rfl
        rw [hstate, hevent] at h
        obtain ⟨rfl, -⟩ := Prod.mk.inj h
        cases pending with
        | none =>
            simp only [pendingPaste, List.append_nil] at houts ⊢
            rw [ih hstate fun e' he' => houts e' (List.mem_append_left _ he')]
        | some text =>
            have hpaste := houts (.paste text false) (by simp [pendingPaste])
            cases hpaste
      cases e with
      | paste text complete =>
          cases complete with
          | false => exact absurd (Prod.mk.inj h).2 (Option.some_ne_none _)
          | true =>
              obtain ⟨rfl, -⟩ := Prod.mk.inj h
              have hpaste := houts _ (List.mem_append_right _ (List.mem_singleton_self _))
              cases hpaste
      | key k => exact hrest rfl
      | mouse m => exact hrest rfl
      | focus f => exact hrest rfl

theorem Typing.plain_arrives (c : Typing) : ∀ e ∈ c.arrives, plain e = true := by
  intro e he
  unfold Typing.arrives at he
  split at he
  · obtain ⟨-, -, rfl⟩ := List.mem_map.1 he
    rfl
  · rw [List.mem_singleton.1 he]
    rfl

/-- **What typed characters become**, however their bytes are cut. -/
theorem typed_arrives {cs : List Typing} (h : ∀ c ∈ cs, c.Typeable) {chunks : List Bytes}
    (hchunks : chunks.flatten = cs.flatMap Typing.bytes) :
    (feeds {} chunks).ready = cs.flatMap Typing.arrives := by
  obtain ⟨outs, r, hdrain, hreads, -⟩ := feeds_merge chunks
  rw [hchunks, drain_typed h] at hdrain
  obtain ⟨rfl, hr⟩ := Prod.mk.inj hdrain
  obtain rfl := Option.some.inj hr
  have hplain : ∀ e ∈ cs.flatMap Typing.arrives, plain e = true := by
    intro e he
    obtain ⟨c, -, hc⟩ := List.mem_flatMap.1 he
    exact c.plain_arrives e hc
  obtain ⟨-, -, hmerged⟩ | ⟨-, n, text, hopen⟩ := hreads
  · exact eq_of_mergeState hmerged hplain
  · exact absurd hopen.header nofun

/-- What a character becomes is its key only if it is ASCII or comes without Alt. -/
theorem arrives_iff {cs : List Typing} (h : ∀ c ∈ cs, c.Typeable) :
    cs.flatMap Typing.arrives = cs.map (fun c => .key c.key) ↔ ∀ c ∈ cs, c.alt = true → c.ch ≤ 0x7e := by
  induction cs with
  | nil => exact iff_of_true rfl nofun
  | cons c cs ih =>
      obtain ⟨hc, hcs⟩ := List.forall_mem_cons.1 h
      rw [List.flatMap_cons, List.map_cons, List.forall_mem_cons, ← ih hcs]
      have hlow : c.ch ≤ 0x7e ↔ ¬ 0x80 ≤ c.ch := by
        have hrange := hc.1
        omega
      by_cases hhigh : c.alt = true ∧ 0x80 ≤ c.ch
      · refine iff_of_false (fun hsame => ?_) fun hgood => hlow.1 (hgood.1 hhigh.1) hhigh.2
        have hscalar : IsScalar c.ch := by
          have hrange := hc.1
          unfold IsScalar at hrange ⊢
          omega
        -- at least one replacement stands for the character
        obtain ⟨-, hmany, -⟩ := ((written_encodeUtf8 hscalar).ascii_or).resolve_left fun hlow' => by omega
        obtain ⟨b1, bs, htail⟩ : ∃ b1 bs, (encodeUtf8 c.ch).tail = b1 :: bs := by
          refine List.exists_cons_of_ne_nil fun hnil => ?_
          have hlen := congrArg List.length hnil
          rw [List.length_tail, List.length_nil] at hlen
          omega
        rw [Typing.arrives, if_pos hhigh, htail, List.map_cons, List.cons_append] at hsame
        have hkey := InputEvent.key.inj (List.cons.inj hsame).1
        have halt : false = c.alt := congrArg (fun k : KeyEvent => k.mods.alt) hkey
        rw [hhigh.1] at halt
        cases halt
      · have hone : c.arrives = [.key c.key] := if_neg hhigh
        rw [hone, List.singleton_append, List.cons_inj_right]
        exact ⟨fun hrest => ⟨fun halt => hlow.2 fun hch => hhigh ⟨halt, hch⟩, hrest⟩, fun h' => h'.2⟩

/-- **Typed characters arrive one for one exactly when those typed with Alt are ASCII**, however the
bytes are cut; and these bytes are those of the same keys for a guest. -/
theorem typing_arrives_iff (cs : List Typing) (h : ∀ c ∈ cs, c.Typeable) (chunks : List Bytes)
    (hchunks : chunks.flatten = cs.flatMap Typing.bytes) (app : Bool) :
    ((∀ c ∈ cs, encodeKey c.key app = c.bytes) ∧
        (feeds {} chunks).ready = cs.map fun c => .key c.key) ↔
      ∀ c ∈ cs, c.alt = true → c.ch ≤ 0x7e := by
  rw [typed_arrives h hchunks, ← arrives_iff h]
  exact ⟨fun hboth => hboth.2, fun hsame => ⟨fun c _ => c.encodeKey_key app, hsame⟩⟩

/-- `Alt+a`, then an `é` cut in two. -/
theorem typing_arrives_iff_cut :
    ((∀ c ∈ [(⟨0x61, true⟩ : Typing), ⟨0xE9, false⟩], encodeKey c.key false = c.bytes) ∧
        (feeds {} [[0x1b, 0x61, 0xC3], [0xA9]]).ready =
          [(⟨0x61, true⟩ : Typing), ⟨0xE9, false⟩].map fun c => .key c.key) ↔
      ∀ c ∈ [(⟨0x61, true⟩ : Typing), ⟨0xE9, false⟩], c.alt = true → c.ch ≤ 0x7e :=
  typing_arrives_iff _ (by decide) _ (by decide) false

/-- `Alt+é` comes as a replacement character without Alt. -/
theorem altHigh_lost :
    ¬ ∀ (cs : List Typing) (chunks : List Bytes), (∀ c ∈ cs, c.Typeable) →
      chunks.flatten = cs.flatMap Typing.bytes →
      (∀ chunk ∈ chunks.dropLast, chunk.getLast? ≠ some 0x1b) →
      (feeds {} chunks).ready = cs.map fun c => .key c.key := by
  intro h
  have hchunks : ([[0x1b, 0xC3, 0xA9]] : List Bytes).flatten = [(⟨0xE9, true⟩ : Typing)].flatMap Typing.bytes := by
    decide
  have hgot := h [⟨0xE9, true⟩] [[0x1b, 0xC3, 0xA9]] (by decide) hchunks nofun
  rw [typed_arrives (by decide) hchunks] at hgot
  revert hgot
  decide

end Sshos.Input
