import Sshos.Common.Utf8Text
import Sshos.Input.Chunks
import Sshos.Lib.Decimal

/-!
# Sshos.Input.Encode

The **key encoder**: from a key to the bytes a guest expects, the way back from what the
parser reads.
-/

namespace Sshos.Input

open Sshos.Common (utf8Decode utf8Decode_scalar utf8Continuations encodeUtf8 IsScalar kReplacement
  Announces announces_two announces_three announces_four written_encodeUtf8)
open Sshos.Lib (Bytes Front Framing decimal digitByte)

/-! ### Tables -/

/-- The form of a key without modifiers. -/
inductive Plain
  | csi | ss3Always | ss3WhenApplication
  deriving DecidableEq

/-- A key whose sequence ends with a letter. -/
structure FinalKey where
  key : Key
  finalByte : UInt8
  plain : Plain

def kFinals : List FinalKey :=
  [⟨.up, 0x41, .ss3WhenApplication⟩,
   ⟨.down, 0x42, .ss3WhenApplication⟩,
   ⟨.right, 0x43, .ss3WhenApplication⟩,
   ⟨.left, 0x44, .ss3WhenApplication⟩,
   ⟨.home, 0x48, .ss3WhenApplication⟩,
   ⟨.end, 0x46, .ss3WhenApplication⟩,
   ⟨.f1, 0x50, .ss3Always⟩,
   ⟨.f2, 0x51, .ss3Always⟩,
   ⟨.f3, 0x52, .ss3Always⟩,
   ⟨.f4, 0x53, .ss3Always⟩,
   ⟨.backTab, 0x5a, .csi⟩]

/-- A key whose sequence ends with `~`, told by a code. -/
structure TildeKey where
  key : Key
  code : Nat

def kTildes : List TildeKey :=
  [⟨.insert, 2⟩, ⟨.delete, 3⟩, ⟨.pgUp, 5⟩, ⟨.pgDn, 6⟩, ⟨.f5, 15⟩, ⟨.f6, 17⟩, ⟨.f7, 18⟩,
   ⟨.f8, 19⟩, ⟨.f9, 20⟩, ⟨.f10, 21⟩, ⟨.f11, 23⟩, ⟨.f12, 24⟩]

def findFinal (k : Key) : Option FinalKey := kFinals.find? fun f => f.key = k

def findTilde (k : Key) : Option TildeKey := kTildes.find? fun t => t.key = k

/-- The modifiers as a mask. -/
def Mods.mask (m : Mods) : Nat :=
  (if m.shift then 1 else 0) + (if m.alt then 2 else 0) + (if m.ctrl then 4 else 0)

/-- The modifiers as a parameter, one more than their mask. -/
def modParam (m : Mods) : Bytes := decimal (m.mask + 1)

/-! ### The encoder -/

/-- The control byte of a chord with Ctrl, for a character that has one. -/
def controlByte (ch : Nat) : Option UInt8 :=
  if 0x61 ≤ ch ∧ ch ≤ 0x7a then some (UInt8.ofNat (ch - 0x61 + 1))
  else if 0x41 ≤ ch ∧ ch ≤ 0x5a then some (UInt8.ofNat (ch - 0x41 + 1))
  else if ch = 0x20 then some 0
  else none

def encodeChar (k : KeyEvent) : Bytes :=
  let body := match if k.mods.ctrl then controlByte k.ch else none with
    | some ctrl => [ctrl]
    | none => encodeUtf8 k.ch
  if k.mods.alt then 0x1b :: body else body

/-- The keys that are an ASCII byte. -/
def asciiOf : Key → Option UInt8
  | .enter => some 0x0d
  | .tab => some 0x09
  | .backspace => some 0x7f
  | .escape => some 0x1b
  | _ => none

def encodeKey (k : KeyEvent) (cursorKeysApplication : Bool) : Bytes :=
  if k.key = .char then encodeChar k
  else
    match asciiOf k.key with
    | some ascii => if k.mods.alt then [0x1b, ascii] else [ascii]
    | none =>
        match findFinal k.key with
        | some f =>
            -- SS3 has no room for a parameter.
            if k.mods.mask ≠ 0 then
              [0x1b, 0x5b, 0x31, 0x3b] ++ modParam k.mods ++ [f.finalByte]
            else
              let ss3 := f.plain = .ss3Always ∨
                (f.plain = .ss3WhenApplication ∧ cursorKeysApplication = true)
              (if ss3 then [0x1b, 0x4f] else [0x1b, 0x5b]) ++ [f.finalByte]
        | none =>
            match findTilde k.key with
            | some t =>
                if k.mods.mask ≠ 0 then
                  [0x1b, 0x5b] ++ decimal t.code ++ [0x3b] ++ modParam k.mods ++ [0x7e]
                else [0x1b, 0x5b] ++ decimal t.code ++ [0x7e]
            | none => []

/-! ### UTF-8, there and back -/

theorem utf8SeqLen_announces {b0 : UInt8} {need bits : Nat} (h : Announces b0 need bits) :
    utf8SeqLen b0 = need + 1 := by
  have hlead : leadOf b0.toNat = some (need, bits) := h.2
  rw [utf8SeqLen_eq, if_neg h.1, hlead]

/-- **A character is read back**, from the first byte and the length it announces. -/
theorem utf8Decode_encode {cp : Nat} (hscalar : IsScalar cp) (hhigh : 0x80 ≤ cp) :
    ∃ b0 rest, encodeUtf8 cp = b0 :: rest ∧ 0x80 ≤ b0.toNat ∧
      utf8SeqLen b0 = (b0 :: rest).length ∧ utf8Decode (b0 :: rest) 0 = ((b0 :: rest).length, cp) := by
  have hwritten := written_encodeUtf8 hscalar
  have hread := hwritten.decode []
  rw [List.append_nil] at hread
  generalize encodeUtf8 cp = w at hwritten hread
  cases hwritten with
  | one ha => exact absurd ha (Nat.not_lt.2 hhigh)
  | two ha _ _ =>
      have hlead := announces_two _ ha
      exact ⟨_, _, rfl, Nat.not_lt.1 hlead.1, utf8SeqLen_announces hlead, hread⟩
  | three ha _ _ _ _ =>
      have hlead := announces_three _ ha
      exact ⟨_, _, rfl, Nat.not_lt.1 hlead.1, utf8SeqLen_announces hlead, hread⟩
  | four ha _ _ _ _ _ =>
      have hlead := announces_four _ ha
      exact ⟨_, _, rfl, Nat.not_lt.1 hlead.1, utf8SeqLen_announces hlead, hread⟩

/-! ### Keys, there and back -/

/-- The bytes are one sequence, which means `k`. -/
def ReadsAs (bytes : Bytes) (k : KeyEvent) : Prop :=
  inputFront bytes = .take bytes.length (some (.key k))

theorem encodeUtf8_readsAs {cp : Nat} (hscalar : IsScalar cp) (hlo : 0x20 ≤ cp) (hdel : cp ≠ 0x7f) :
    ReadsAs (encodeUtf8 cp) { key := .char, ch := cp } := by
  have hne : ∀ {b c : UInt8}, b.toNat ≠ c.toNat → b ≠ c := fun h heq => h (congrArg UInt8.toNat heq)
  obtain ⟨b0, rest, henc, hb0, hseq, hdecode⟩ :
      ∃ b0 rest, encodeUtf8 cp = b0 :: rest ∧ (0x20 ≤ b0.toNat ∧ b0.toNat ≠ 0x7f) ∧
        utf8SeqLen b0 = (b0 :: rest).length ∧
        utf8Decode (b0 :: rest) 0 = ((b0 :: rest).length, cp) := by
    by_cases hhigh : 0x80 ≤ cp
    · obtain ⟨b0, rest, henc, hb0, hseq, hdecode⟩ := utf8Decode_encode hscalar hhigh
      exact ⟨b0, rest, henc, ⟨by omega, by omega⟩, hseq, hdecode⟩
    · have hbyte : (UInt8.ofNat cp).toNat = cp := by
        rw [UInt8.toNat_ofNat']
        omega
      refine ⟨UInt8.ofNat cp, [], ?_, ⟨by omega, by omega⟩, ?_, ?_⟩
      · have hin : ¬ ((0xD800 ≤ cp ∧ cp ≤ 0xDFFF) ∨ cp > 0x10FFFF) := by omega
        simp only [encodeUtf8, if_neg hin, if_pos (show cp < 0x80 by omega)]
      · rw [utf8SeqLen_eq, hbyte, if_pos (by omega)]
        rfl
      · rw [utf8Decode_cons, hbyte, if_pos (by omega)]
        rfl
  unfold ReadsAs
  rw [henc]
  have hlow : ∀ c : UInt8, c.toNat < 0x20 ∨ c.toNat = 0x7f → b0 ≠ c := fun c hc => hne (by omega)
  have hnotlow : ¬ b0 < 0x20 := by
    rw [UInt8.lt_iff_toNat_lt]
    exact Nat.not_lt.2 hb0.1
  simp only [inputFront, byteFront, ne_eq, hlow 0x1b (by decide), hlow 0x0d (by decide),
    hlow 0x0a (by decide), hlow 0x09 (by decide), hlow 0x7f (by decide), hlow 0x08 (by decide),
    hnotlow, not_false_eq_true, if_true, or_self, if_false, hseq, Nat.lt_irrefl, hdecode]

instance (bytes : Bytes) (k : KeyEvent) : Decidable (ReadsAs bytes k) :=
  inferInstanceAs (Decidable (inputFront bytes = _))

/-- The keys that are sequences. -/
def sequenceKeys : List Key := kFinals.map (·.key) ++ kTildes.map (·.key)

/-- Every one of them, with any modifiers and in either mode, is read back. -/
theorem sequenceKeys_readsAs : ∀ key ∈ sequenceKeys, ∀ shift alt ctrl app : Bool,
    ReadsAs (encodeKey { key, mods := { shift, alt, ctrl } } app)
      { key, mods := { shift, alt, ctrl } } := by
  decide +kernel

/-- The chord a control byte is read as. -/
def controlKey (b : Nat) : KeyEvent :=
  { key := .char, ch := if b = 0 then 0x20 else 0x61 + b - 1, mods := { ctrl := true } }

/-- A control byte that is no key of its own. -/
def isChord (b : Nat) : Bool :=
  b < 0x20 && b != 0x08 && b != 0x09 && b != 0x0a && b != 0x0d && b != 0x1b

theorem controlKey_readsAs : ∀ b < 0x1b, isChord b = true → ∀ app : Bool,
    ReadsAs (encodeKey (controlKey b) app) (controlKey b) := by
  decide +kernel

/-- From `0x1C` on, the encoder knows no control byte, and writes the character. -/
theorem controlKey_readsAs_other : ∀ b < 0x20, 0x1c ≤ b → ∀ app : Bool,
    ReadsAs (encodeKey (controlKey b) app)
      (if b = 0x1f then { key := .backspace } else { key := .char, ch := 0x61 + b - 1 }) := by
  decide +kernel

/-- A printable byte after an escape, that introduces no sequence. -/
def isAlt (b : Nat) : Bool := 0x20 ≤ b && b < 0x7f && b != 0x4f && b != 0x5b

theorem altKey_readsAs : ∀ b < 0x7f, isAlt b = true → ∀ app : Bool,
    ReadsAs (encodeKey { key := .char, ch := b, mods := { alt := true } } app)
      { key := .char, ch := b, mods := { alt := true } } := by
  decide +kernel

theorem asciiKey_readsAs : ∀ key ∈ [Key.enter, .tab, .backspace], ∀ app : Bool,
    ReadsAs (encodeKey { key } app) { key } := by
  decide +kernel

/-! ### What the parser emits -/

/-- The keys that are typed. -/
inductive Typed : KeyEvent → Prop
  | ascii {key : Key} (h : key ∈ [Key.enter, .tab, .backspace]) : Typed { key }
  | chord {b : Nat} (h : isChord b = true) : Typed (controlKey b)
  | scalar {ch : Nat} (h : IsScalar ch) (hlo : 0x20 ≤ ch) (hdel : ch ≠ 0x7f) : Typed { key := .char, ch }
  | alt {b : Nat} (h : isAlt b = true) : Typed { key := .char, ch := b, mods := { alt := true } }
  | sequence {key : Key} (h : key ∈ sequenceKeys) (mods : Mods) : Typed { key, mods }
  | unknown (mods : Mods) : Typed { key := .unknown, mods }

/-- A key the tables have a sequence for, or none they know. -/
def Known (key : Key) : Prop := key = .unknown ∨ key ∈ sequenceKeys

instance (key : Key) : Decidable (Known key) := inferInstanceAs (Decidable (_ ∨ _))

theorem Known.ite {c : Prop} [Decidable c] {key key' : Key} (h : Known key) (h' : Known key') :
    Known (if c then key else key') := by
  split
  · exact h
  · exact h'

theorem keyFromFinal_known (f : UInt8) : Known (keyFromFinal f) := by
  unfold keyFromFinal
  repeat refine Known.ite (by decide) ?_
  decide

theorem keyFromTilde_known (n : Int) : Known (keyFromTilde n) := by
  unfold keyFromTilde
  repeat refine Known.ite (by decide) ?_
  decide

theorem typed_of_known {key : Key} (h : Known key) (mods : Mods) : Typed { key, mods } := by
  obtain rfl | h := h
  · exact .unknown mods
  · exact .sequence h mods

theorem typed_of_byte {b0 : UInt8} {rest : Bytes} {n : Nat} {k : KeyEvent} (hesc : b0 ≠ 0x1b)
    (h : byteFront b0 (b0 :: rest) = .take n (some (.key k))) : Typed k := by
  have hne : ∀ {c : UInt8}, b0 ≠ c → b0.toNat ≠ c.toNat := fun hc heq => hc (UInt8.toNat_inj.1 heq)
  unfold byteFront at h
  by_cases c1 : b0 = 0x0d ∨ b0 = 0x0a
  · rw [if_pos c1] at h
    cases h
    exact .ascii (by decide)
  rw [if_neg c1] at h
  by_cases c2 : b0 = 0x09
  · rw [if_pos c2] at h
    cases h
    exact .ascii (by decide)
  rw [if_neg c2] at h
  by_cases c3 : b0 = 0x7f ∨ b0 = 0x08
  · rw [if_pos c3] at h
    cases h
    exact .ascii (by decide)
  rw [if_neg c3] at h
  obtain ⟨hcr, hlf⟩ := not_or.1 c1
  obtain ⟨hdel, hbs⟩ := not_or.1 c3
  by_cases c4 : b0 < 0x20
  · rw [if_pos c4] at h
    cases h
    have hzero : b0 = 0 ↔ b0.toNat = 0 := UInt8.toNat_inj.symm
    have hchord : isChord b0.toNat = true := by
      rw [UInt8.lt_iff_toNat_lt] at c4
      simp only [isChord, Bool.and_eq_true, decide_eq_true_eq, bne_iff_ne, ne_eq]
      exact ⟨⟨⟨⟨⟨c4, hne hbs⟩, hne c2⟩, hne hlf⟩, hne hcr⟩, hne hesc⟩
    have htyped := Typed.chord hchord
    simp only [controlKey, ← hzero] at htyped
    exact htyped
  rw [if_neg c4] at h
  by_cases hmore : (b0 :: rest).length < utf8SeqLen b0
  · rw [if_pos hmore] at h
    cases h
  rw [if_neg hmore] at h
  cases h
  obtain ⟨hscalar, hread⟩ := utf8Decode_scalar (b0 :: rest) 0
  have hvalue := hread b0 rfl
  have hlo : ¬ b0.toNat < 0x20 := fun hlt => c4 (UInt8.lt_iff_toNat_lt.2 hlt)
  have hdel' := hne hdel
  have h7f : (0x7f : UInt8).toNat = 0x7f := rfl
  exact .scalar hscalar (by omega) (by omega)

theorem typed_of_csi {params : Bytes} {final : UInt8} {k : KeyEvent}
    (h : csiEvent params final = some (.key k)) : Typed k := by
  unfold csiEvent at h
  by_cases hmouse : params.head? = some 0x3c
  · rw [if_pos hmouse, Option.map_eq_some_iff] at h
    obtain ⟨m, -, hm⟩ := h
    cases hm
  rw [if_neg hmouse] at h
  by_cases hfocus : final = 0x49 ∨ final = 0x4f
  · rw [if_pos hfocus] at h
    cases h
  rw [if_neg hfocus] at h
  by_cases htilde : final = 0x7e
  · rw [if_pos htilde] at h
    cases h
    exact typed_of_known (keyFromTilde_known _) _
  · rw [if_neg htilde] at h
    cases h
    exact typed_of_known (keyFromFinal_known _) _

/-- **Every key that is read is a typed one.** -/
theorem typed_of_front {b : Bytes} {n : Nat} {k : KeyEvent}
    (h : inputFront b = .take n (some (.key k))) : Typed k := by
  cases b with
  | nil => cases h
  | cons b0 rest =>
      simp only [inputFront] at h
      by_cases hesc : b0 ≠ 0x1b
      · rw [if_pos hesc] at h
        exact typed_of_byte hesc h
      rw [if_neg hesc] at h
      cases rest with
      | nil => cases h
      | cons b1 body =>
          simp only [escapeFront] at h
          by_cases hss3 : b1 = 0x4f
          · rw [if_pos hss3] at h
            cases body with
            | nil => cases h
            | cons f body =>
                cases h
                exact typed_of_known (keyFromFinal_known f) {}
          rw [if_neg hss3] at h
          by_cases hcsi : b1 ≠ 0x5b
          · rw [if_pos hcsi] at h
            by_cases hprint : 0x20 ≤ b1 ∧ b1 < 0x7f
            · rw [if_pos hprint] at h
              cases h
              refine .alt ?_
              have hne : ∀ {c : UInt8}, b1 ≠ c → b1.toNat ≠ c.toNat :=
                fun hc heq => hc (UInt8.toNat_inj.1 heq)
              obtain ⟨hlo, hhi⟩ := hprint
              rw [UInt8.le_iff_toNat_le] at hlo
              rw [UInt8.lt_iff_toNat_lt] at hhi
              simp only [isAlt, Bool.and_eq_true, decide_eq_true_eq, bne_iff_ne, ne_eq]
              exact ⟨⟨⟨hlo, hhi⟩, hne hss3⟩, hne hcsi⟩
            · rw [if_neg hprint] at h
              cases h
          rw [if_neg hcsi] at h
          unfold csiFront at h
          cases hend : csiEnd body 2 with
          | incomplete =>
              rw [hend] at h
              cases h
          | abandoned i =>
              rw [hend] at h
              cases h
          | final i =>
              simp only [hend] at h
              split at h
              · unfold pasteFront at h
                split at h <;> cases h
              · obtain ⟨-, hevent⟩ := Front.take.inj h
                exact typed_of_csi hevent

namespace InputParser

theorem key_mem_mergeState {es : List InputEvent} {k : KeyEvent} (h : .key k ∈ es) :
    .key k ∈ (mergeState es).1 := by
  induction es using List.reverseRecOn with
  | nil => cases h
  | append_singleton es e ih =>
      rw [mergeState_concat]
      obtain hold | hnew := List.mem_append.1 h
      · have := ih hold
        match e with
        | .paste text false => exact this
        | .paste text true => simp [mergeEvent, this]
        | .key _ => simp [mergeEvent, this]
        | .mouse _ => simp [mergeEvent, this]
        | .focus _ => simp [mergeEvent, this]
      · obtain rfl := List.mem_singleton.1 hnew
        simp [mergeEvent]

/-- A key that was delivered is a typed one, however the bytes came. -/
theorem typed_of_feeds {chunks : List Bytes} {k : KeyEvent} (h : .key k ∈ (feeds {} chunks).ready) :
    Typed k := by
  obtain ⟨outs, r, hdrain, hreads, -⟩ := feeds_merge chunks
  have hmem : .key k ∈ outs := by
    have hread := key_mem_mergeState h
    obtain ⟨-, -, hmerged⟩ | ⟨-, n, text, hpaste⟩ := hreads
    · rwa [hmerged] at hread
    · obtain ⟨pend, hmerged, -⟩ := hpaste.merged
      rwa [hmerged] at hread
  have hout : .key k ∈ (inputFraming.drain chunks.flatten).1 := by rwa [hdrain]
  obtain ⟨b, n, hfront⟩ := Framing.drain_output hout
  exact typed_of_front hfront

/-- Bytes that are one event are delivered as that event, and nothing waits. -/
theorem feed_front {bytes : Bytes} {e : InputEvent} (he : plain e = true)
    (h : inputFront bytes = .take bytes.length (some e)) : feed {} bytes = { ready := [e] } := by
  have hne : bytes ≠ [] := by
    rintro rfl
    cases h
  have hpump : feed {} bytes = pump { buf := bytes } := rfl
  obtain ⟨-, hfront, -⟩ | ⟨n, out, hstep, hfront, -, -⟩ | ⟨n, -, hheader⟩ :=
    step_as { buf := bytes } rfl hne
  · cases h.symm.trans hfront
  · obtain ⟨rfl, rfl⟩ := Front.take.inj (h.symm.trans hfront)
    have hpos : bytes.length ≠ 0 := by simpa using hne
    rw [hpump, pump, dif_neg hne, dif_neg (by rw [hstep]; exact hpos), hstep, pump,
      dif_pos (by simp)]
    simp
  · have hfront := (pasteHeader_spec hheader).2.2.1
    rw [h] at hfront
    unfold pasteFront at hfront
    split at hfront
    · obtain rfl := Option.some.inj (Front.take.inj hfront).2
      cases he
    · cases hfront

theorem feed_readsAs {bytes : Bytes} {k : KeyEvent} (h : ReadsAs bytes k) :
    feed {} bytes = { ready := [.key k] } := feed_front rfl h

/-- What a guest that reads like this parser makes of a key. -/
def echo (k : KeyEvent) (cursorKeysApplication : Bool) : List InputEvent :=
  ((feed {} (encodeKey k cursorKeysApplication)).timeout).ready

theorem echo_of_readsAs {k k' : KeyEvent} {app : Bool} (h : ReadsAs (encodeKey k app) k') :
    echo k app = [.key k'] := by
  unfold echo
  rw [feed_readsAs h]
  rfl

/-- **Encoding undoes decoding** for every key the parser delivers and knows, in both
modes, but for the chords of the control bytes from `0x1C` on. -/
theorem echo_iff (chunks : List Bytes) {k : KeyEvent} (hk : .key k ∈ (feeds {} chunks).ready)
    (hknown : k.key ≠ .none ∧ k.key ≠ .unknown) (app : Bool) :
    echo k app = [.key k] ↔ ¬ (k.key = .char ∧ k.mods.ctrl = true ∧ 0x7c ≤ k.ch) := by
  cases typed_of_feeds hk with
  | unknown mods => exact absurd rfl hknown.2
  | @ascii key h =>
      have hother : key ≠ .char := by
        rintro rfl
        exact absurd h (by decide)
      simp [echo_of_readsAs (asciiKey_readsAs key h app), hother]
  | @scalar ch h hlo hdel =>
      have hread : ReadsAs (encodeKey { key := .char, ch } app) { key := .char, ch } :=
        encodeUtf8_readsAs h hlo hdel
      simp [echo_of_readsAs hread]
  | @alt b h =>
      have hb : b < 0x7f := by
        simp only [isAlt, Bool.and_eq_true, decide_eq_true_eq] at h
        exact h.1.1.2
      simp [echo_of_readsAs (altKey_readsAs b hb h app)]
  | @sequence key h mods =>
      have hother : key ≠ .char := by
        rintro rfl
        exact absurd h (by decide)
      simp [echo_of_readsAs (sequenceKeys_readsAs key h mods.shift mods.alt mods.ctrl app), hother]
  | @chord b h =>
      have hb : b < 0x20 ∧ b ≠ 0x1b := by
        simp only [isChord, Bool.and_eq_true, decide_eq_true_eq, bne_iff_ne] at h
        exact ⟨h.1.1.1.1.1, h.2⟩
      by_cases hlow : b < 0x1b
      · have hch : ¬ 0x7c ≤ (controlKey b).ch := by
          simp only [controlKey]
          split <;> omega
        simp [echo_of_readsAs (controlKey_readsAs b hlow h app), hch]
      · have hhigh : 0x7c ≤ (controlKey b).ch := by
          simp only [controlKey]
          split <;> omega
        have hread := echo_of_readsAs (controlKey_readsAs_other b hb.1 (by omega) app)
        have hdiffers : (if b = 0x1f then { key := .backspace }
            else { key := .char, ch := 0x61 + b - 1 } : KeyEvent) ≠ controlKey b := by
          split <;> simp [controlKey]
        rw [hread]
        refine iff_of_false (fun hsame => ?_) (not_not.2 ⟨rfl, rfl, hhigh⟩)
        exact hdiffers (InputEvent.key.inj (List.cons.inj hsame).1)

/-- Ctrl and the up arrow. -/
theorem echo_iff_ctrlUp :
    echo { key := .up, mods := { ctrl := true } } true =
      [.key { key := .up, mods := { ctrl := true } }] := by
  have hread : feeds {} [[0x1b, 0x5b, 0x31, 0x3b, 0x35, 0x41]] =
      { ready := [.key { key := .up, mods := { ctrl := true } }] } := feed_readsAs (by decide)
  exact (echo_iff [[0x1b, 0x5b, 0x31, 0x3b, 0x35, 0x41]] (by rw [hread]; exact List.mem_singleton_self _)
    (by decide) true).2 (by decide)

/-- Ctrl and a backslash, which comes back as a bar. -/
theorem echo_of_fileSeparator :
    ¬ ∀ (chunks : List Bytes) (k : KeyEvent) (app : Bool), .key k ∈ (feeds {} chunks).ready →
      k.key ≠ .none ∧ k.key ≠ .unknown → echo k app = [.key k] := by
  intro h
  have hread : feeds {} [[0x1c]] = { ready := [.key (controlKey 0x1c)] } :=
    feed_readsAs (by decide)
  have hecho : echo (controlKey 0x1c) false = [.key { key := .char, ch := 0x7c }] :=
    echo_of_readsAs (by decide)
  have hsame := h [[0x1c]] (controlKey 0x1c) false (by rw [hread]; exact List.mem_singleton_self _)
    (by decide)
  rw [hecho] at hsame
  exact absurd hsame (by decide)

end InputParser

end Sshos.Input
