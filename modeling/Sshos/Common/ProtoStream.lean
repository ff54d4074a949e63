import Sshos.Common.ProtoFraming

/-!
# Sshos.Common.ProtoStream

What a **stream** of protocol bytes is worth, whatever cuts it arrives in.

The first half is the round trip of one envelope: every reader of `Reader`
undoes the matching writer (`Reader.At`), so `readBody` undoes `bodyOf` and the
framing finds, at the front of `encode m`, the message `m` and nothing else.
The second half lifts this to streams: messages interleaved with envelopes of
unknown tag are read back exactly, and on arbitrary bytes the outcome does not
depend on the cuts, a failure is final, and the unread extent stays bounded.
-/

namespace Sshos.Common

open Sshos.Lib (Bytes Front Framing)

namespace Reader

/-! ### Readers undo writers -/

/-- The reader `r` runs over `s`, is healthy, and has exactly `w` ahead of it. -/
structure At (s : Bytes) (r : Reader) (w : Bytes) : Prop where
  s_eq : r.s = s
  ok : r.ok = true
  ahead : s.drop r.i = w
  le : r.i ≤ s.length

variable {s w : Bytes} {r : Reader}

theorem At.start (s : Bytes) : At s { s := s } s :=
  ⟨rfl, rfl, List.drop_zero, Nat.zero_le _⟩

theorem At.pad (h : At s r w) : At s r (w ++ []) := by rwa [List.append_nil]

/-- With nothing ahead, the reader stands at the end. -/
theorem At.i_eq_length (h : At s r []) : r.i = s.length := by
  have h₁ := h.le
  have h₂ := congrArg List.length h.ahead
  simp only [List.length_drop, List.length_nil] at h₂
  omega

theorem At.u8 {v : UInt8} (h : At s r (putU8 v ++ w)) :
    r.u8.1 = v ∧ At s r.u8.2 w := by
  obtain ⟨rfl, hok, hahead, hle⟩ := h
  have hlen := congrArg List.length hahead
  simp only [List.length_drop, List.length_append, length_putU8] at hlen
  have hlt : r.i < r.s.length := by omega
  rw [List.drop_eq_getElem_cons hlt] at hahead
  simp only [putU8, List.cons_append, List.nil_append, List.cons.injEq] at hahead
  simp only [Reader.u8, hlt, dif_pos]
  exact ⟨hahead.1, rfl, hok, hahead.2, hlt⟩

theorem At.u16 {v : UInt16} (h : At s r (putU16 v ++ w)) :
    r.u16.1 = v ∧ At s r.u16.2 w := by
  rw [putU16, List.append_assoc] at h
  obtain ⟨hhi, h₁⟩ := h.u8
  obtain ⟨hlo, h₂⟩ := h₁.u8
  refine ⟨?_, h₂⟩
  simp only [Reader.u16, hhi, hlo, Lib.u16_join]

theorem At.u32 {v : UInt32} (h : At s r (putU32 v ++ w)) :
    r.u32.1 = v ∧ At s r.u32.2 w := by
  rw [putU32, List.append_assoc] at h
  obtain ⟨hhi, h₁⟩ := h.u16
  obtain ⟨hlo, h₂⟩ := h₁.u16
  unfold Reader.u32
  simp only [hhi, hlo, Lib.u32_join, true_and]
  exact h₂

theorem toNat_ofNat_length {v : Bytes} (hv : v.length < 2 ^ 32) :
    (UInt32.ofNat v.length).toNat = v.length := by
  rw [UInt32.toNat_ofNat', Nat.mod_eq_of_lt hv]

theorem At.str {v : Bytes} (hv : v.length < 2 ^ 32) (h : At s r (putStr v ++ w)) :
    r.str.1 = v ∧ At s r.str.2 w := by
  rw [putStr, List.append_assoc] at h
  obtain ⟨hn, hs, hok, hahead, hle⟩ := h.u32
  have hlen := congrArg List.length hahead
  simp only [List.length_drop, List.length_append] at hlen
  have hfit : ¬ r.u32.2.i + v.length > r.u32.2.s.length := by rw [hs]; omega
  simp only [Reader.str, hn, toNat_ofNat_length hv, hok, hfit, Bool.not_true, Bool.false_or,
    decide_false, Bool.false_eq_true, if_false]
  refine ⟨by rw [hs, hahead, List.take_left], hs, rfl, ?_, by simp only; omega⟩
  rw [← List.drop_drop, hahead, List.drop_left]

theorem At.env {env : List (Bytes × Bytes)}
    (hv : ∀ e ∈ env, e.1.length < 2 ^ 32 ∧ e.2.length < 2 ^ 32)
    (h : At s r (putEnv env ++ w)) :
    (r.env env.length).1 = env ∧ At s (r.env env.length).2 w := by
  induction env generalizing r with
  | nil => exact ⟨rfl, h⟩
  | cons e env ih =>
      obtain ⟨k, v⟩ := e
      obtain ⟨hk, hv'⟩ := hv (k, v) List.mem_cons_self
      simp only [putEnv, List.append_assoc] at h
      obtain ⟨h₁, hr₁⟩ := h.str hk
      obtain ⟨h₂, hr₂⟩ := hr₁.str hv'
      obtain ⟨h₃, hr₃⟩ := ih (fun x hx => hv x (List.mem_cons_of_mem _ hx)) hr₂
      simp only [List.length_cons, Reader.env, h.ok, if_true, h₁, h₂, h₃]
      exact ⟨trivial, hr₃⟩

end Reader

/-! ### One envelope -/

/-- Every entry of the environment is shorter than the bytes it is written on. -/
theorem length_putEnv (env : List (Bytes × Bytes)) :
    8 * env.length ≤ (putEnv env).length ∧
      ∀ e ∈ env, e.1.length ≤ (putEnv env).length ∧ e.2.length ≤ (putEnv env).length := by
  induction env with
  | nil => simp
  | cons e env ih =>
      obtain ⟨k, v⟩ := e
      simp only [putEnv, List.length_append, length_putStr, List.length_cons]
      refine ⟨by omega, ?_⟩
      intro x hx
      rcases List.mem_cons.1 hx with rfl | hx
      · exact ⟨by simp only; omega, by simp only; omega⟩
      · have := ih.2 x hx
        exact ⟨by omega, by omega⟩

theorem kMaxMessageBytes_lt : kMaxMessageBytes < 2 ^ 32 := by decide

theorem readBody_hello {s : Bytes} {r : Reader} {h : Hello}
    (hr : Reader.At s r (bodyOf (.hello h)).2)
    (hfit : (bodyOf (.hello h)).2.length ≤ kMaxMessageBytes) :
    (readBody .hello r).1 = .hello h ∧ Reader.At s (readBody .hello r).2 [] := by
  have hmax := kMaxMessageBytes_lt
  have henv := length_putEnv h.env
  simp only [bodyOf, List.length_append, length_putU32, length_putU16, length_putStr,
    length_putU8] at hfit hr
  obtain ⟨e₁, r₁⟩ := hr.u32
  obtain ⟨e₂, r₂⟩ := r₁.u16
  obtain ⟨e₃, r₃⟩ := r₂.u16
  obtain ⟨e₄, r₄⟩ := r₃.str (by omega)
  obtain ⟨e₅, r₅⟩ := r₄.str (by omega)
  obtain ⟨e₆, r₆⟩ := r₅.u8
  obtain ⟨e₇, r₇⟩ := r₆.u32
  obtain ⟨e₈, r₈⟩ := r₇.pad.env fun e he => by
    have := henv.2 e he
    exact ⟨by omega, by omega⟩
  have hn : (UInt32.ofNat h.env.length).toNat = h.env.length := by
    rw [UInt32.toNat_ofNat', Nat.mod_eq_of_lt (by omega)]
  have hutf8 : ((if h.utf8 = true then 1 else 0 : UInt8) != 0) = h.utf8 := by
    cases h.utf8 <;> rfl
  simp only [readBody, e₁, e₂, e₃, e₄, e₅, e₆, e₇, hn, e₈, hutf8]
  exact ⟨trivial, r₈⟩

/-- `readBody` undoes `bodyOf` and consumes the whole body. -/
theorem readBody_bodyOf (m : Msg) (hfit : (bodyOf m).2.length ≤ kMaxMessageBytes) :
    (readBody (bodyOf m).1 { s := (bodyOf m).2 }).1 = m ∧
      Reader.At (bodyOf m).2 (readBody (bodyOf m).1 { s := (bodyOf m).2 }).2 [] := by
  have hmax := kMaxMessageBytes_lt
  have hstart := Reader.At.start (bodyOf m).2
  -- A body that is a single string, whatever the message it belongs to.
  have hstr : ∀ {v : Bytes}, (bodyOf m).2 = putStr v →
      (Reader.str { s := (bodyOf m).2 }).1 = v ∧
        Reader.At (bodyOf m).2 (Reader.str { s := (bodyOf m).2 }).2 [] := by
    intro v hv
    have hlen := congrArg List.length hv
    rw [length_putStr] at hlen
    exact (hv ▸ hstart : Reader.At (bodyOf m).2 { s := (bodyOf m).2 } (putStr v)).pad.str
      (by omega)
  cases m with
  | hello h => exact readBody_hello hstart hfit
  | welcome => exact ⟨rfl, hstart⟩
  | incompatible reason =>
      obtain ⟨h₁, h₂⟩ := hstr rfl
      exact ⟨congrArg Msg.incompatible h₁, h₂⟩
  | detached reason =>
      obtain ⟨h₁, h₂⟩ := hstr rfl
      exact ⟨congrArg Msg.detached h₁, h₂⟩
  | input bytes =>
      obtain ⟨h₁, h₂⟩ := hstr rfl
      exact ⟨congrArg Msg.input h₁, h₂⟩
  | resize cols rows =>
      obtain ⟨h₁, r₁⟩ := Reader.At.u16 (v := cols) (w := putU16 rows) hstart
      obtain ⟨h₂, r₂⟩ := r₁.pad.u16
      exact ⟨congrArg₂ Msg.resize h₁ h₂, r₂⟩
  | frame ansi =>
      obtain ⟨h₁, h₂⟩ := hstr rfl
      exact ⟨congrArg Msg.frame h₁, h₂⟩

theorem length_envelope (tag : UInt8) (body : Bytes) :
    (envelope tag body).length = kHeaderSize + body.length := by
  simp only [envelope, List.length_append, length_putU8, length_putU32, kHeaderSize]
  omega

theorem drop_envelope (tag : UInt8) (body : Bytes) :
    (envelope tag body).drop kHeaderSize = body := rfl

theorem readHead_envelope (tag : UInt8) (body : Bytes) :
    readHead (envelope tag body) = (tag, UInt32.ofNat body.length) := by
  obtain ⟨h₁, r₁⟩ := (Reader.At.start (envelope tag body)).u8
  obtain ⟨h₂, -⟩ := r₁.u32
  simp only [readHead, h₁, h₂]

/-- What the framing sees at the front of an envelope whose body fits. -/
theorem front_envelope {tag : UInt8} {body : Bytes} (hfit : body.length ≤ kMaxMessageBytes) :
    front (envelope tag body) =
      match Tag.ofU8 tag with
      | none => .take (envelope tag body).length none
      | some t =>
          let (m, r) := readBody t { s := body }
          if !r.ok || r.i != body.length then .fail
          else .take (envelope tag body).length (some m) := by
  have hmax := kMaxMessageBytes_lt
  have hlen := length_envelope tag body
  have hn := Reader.toNat_ofNat_length (v := body) (by omega)
  rw [front]
  cases htag : Tag.ofU8 tag <;>
    simp only [readHead_envelope, htag, hn, hlen, Nat.lt_irrefl, if_false, drop_envelope,
      Nat.not_lt.2 (Nat.le_add_right kHeaderSize body.length), Nat.not_lt.2 hfit,
      List.take_length]

/-- The framing finds at the front of an encoded message that message, whole. -/
theorem front_encode {m : Msg} (hfit : (bodyOf m).2.length ≤ kMaxMessageBytes) :
    front (encode m) = .take (encode m).length (some m) := by
  obtain ⟨hm, hr⟩ := readBody_bodyOf m hfit
  rw [encode, front_envelope hfit]
  simp only [Tag.ofU8_toU8, hm, hr.ok, hr.i_eq_length, Bool.not_true, bne_self_eq_false,
    Bool.or_self, Bool.false_eq_true, if_false]

/-- The framing skips an envelope of unknown tag, whole. -/
theorem front_unknown {tag : UInt8} {body : Bytes} (htag : Tag.ofU8 tag = none)
    (hfit : body.length ≤ kMaxMessageBytes) :
    front (envelope tag body) = .take (envelope tag body).length none := by
  rw [front_envelope hfit, htag]

/-! ### Conforming streams -/

/-- One envelope of a conforming stream: a message of ours, or one of a later
version under a tag this version does not know. -/
inductive Item
  | msg (m : Msg)
  | unknown (tag : UInt8) (body : Bytes)

namespace Item

def bytes : Item → Bytes
  | msg m => encode m
  | unknown tag body => envelope tag body

/-- The message the item carries for this version. -/
def msg? : Item → Option Msg
  | msg m => some m
  | unknown _ _ => none

/-- The body is within the protocol's ceiling, and an unknown tag is unknown. -/
def Fits : Item → Prop
  | msg m => (bodyOf m).2.length ≤ kMaxMessageBytes
  | unknown tag body => Tag.ofU8 tag = none ∧ body.length ≤ kMaxMessageBytes

theorem front_bytes {x : Item} (h : x.Fits) : front x.bytes = .take x.bytes.length x.msg? := by
  cases x with
  | msg m => exact front_encode h
  | unknown tag body => exact front_unknown h.1 h.2

end Item

namespace Decoder

variable (alloc : Nat → Nat → Nat)

/-- **Round trip under fragmentation.** A conforming stream, cut anywhere into
chunks of at most `kMaxChunk` bytes, gives back exactly the messages that were
encoded, in order, and at no point is the decoder failed. -/
theorem runChunks_items {items : List Item} (hfit : ∀ x ∈ items, x.Fits)
    {chunks : List Bytes} (hchunk : ∀ c ∈ chunks, c.length ≤ kMaxChunk)
    (hcut : chunks.flatten = (items.map Item.bytes).flatten) :
    ((init alloc).runChunks alloc chunks).1 = items.filterMap Item.msg? ∧
      ∀ k, ((init alloc).runChunks alloc (chunks.take k)).2.failed = false := by
  have hdrain : framing.drain chunks.flatten = (items.filterMap Item.msg?, some []) := by
    rw [hcut]
    exact Framing.drain_frames Item.bytes Item.msg? items fun x hx => Item.front_bytes (hfit x hx)
  obtain ⟨h₁, h₂⟩ := runChunks_init alloc hchunk
  rw [hdrain] at h₁ h₂
  refine ⟨h₁, fun k => ?_⟩
  -- A failure after `k` chunks would still be there at the end.
  by_contra hk
  have hfail := Bool.not_eq_false _ ▸ hk
  have happ := runChunks_append alloc (init alloc) (chunks.take k) (chunks.drop k)
  rw [List.take_append_drop, runChunks_of_failed alloc hfail] at happ
  rw [happ, rest_of_failed hfail] at h₂
  exact absurd h₂ (by simp)

/-- A resize cut in its envelope, behind an envelope of a later version. -/
theorem runChunks_items_resize :
    ((init max).runChunks max
      [[9, 0, 0, 0, 1], [7, 6, 0, 0], [0, 4, 0, 80, 0, 24]]).1 = [.resize 80 24] :=
  (@runChunks_items max [.unknown 9 [7], .msg (.resize 80 24)]
    (by simp [Item.Fits, bodyOf, putU16, putU8, kMaxMessageBytes]; decide)
    _ (by simp [kMaxChunk]) (by decide)).1

/-! ### Arbitrary streams -/

/-- The two calls a peer's bytes are handled with. -/
inductive Op
  | feed (bytes : Bytes)
  | next

/-- Run the calls, collecting the messages `next` returns. -/
def exec (d : Decoder) : List Op → List Msg × Decoder
  | [] => ([], d)
  | .feed bytes :: ops => exec (d.feed alloc bytes) ops
  | .next :: ops =>
      let r := d.next alloc
      let r' := exec r.2 ops
      (r.1.toList ++ r'.1, r'.2)

/-- Lift a property kept by `feed` and `next` to every run. -/
theorem exec_induction {motive : Decoder → Prop}
    (feed : ∀ d bytes, motive d → motive (d.feed alloc bytes))
    (next : ∀ d, motive d → motive (d.next alloc).2)
    {d : Decoder} (hd : motive d) (ops : List Op) : motive (d.exec alloc ops).2 := by
  induction ops generalizing d with
  | nil => exact hd
  | cons op ops ih =>
      cases op with
      | feed bytes => exact ih (feed d bytes hd)
      | next => exact ih (next d hd)

theorem exec_of_failed {d : Decoder} (h : d.failed = true) (ops : List Op) :
    d.exec alloc ops = ([], d) := by
  induction ops with
  | nil => rfl
  | cons op ops ih =>
      cases op with
      | feed bytes => rw [exec, feed_of_failed alloc h, ih]
      | next => simp only [exec, next_of_failed alloc h, ih, Option.toList_none, List.nil_append]

/-- `next` never leaves more to read than it found. -/
theorem length_unread_next_le (d : Decoder) :
    (d.next alloc).2.unread.length ≤ d.unread.length := by
  induction hn : d.unread.length using Nat.strongRecOn generalizing d with
  | ind n ih =>
      subst hn
      cases hf : d.failed with
      | true =>
          exact Nat.le_of_eq (congrArg (fun r => r.2.unread.length) (next_of_failed alloc hf))
      | false =>
          have hstep := next_front alloc hf
          generalize hfr : framing.front d.unread = fr at hstep
          cases hstep with
          | needMore heq => exact Nat.le_of_eq (congrArg (fun r => r.2.unread.length) heq)
          | fail e heq _ heu => rw [heq]; simp [heu]
          | skip n e heq _ heu =>
              have hlt := heu ▸ length_drop_front hfr
              rw [heq]
              exact Nat.le_trans (ih _ hlt e rfl) (Nat.le_of_lt hlt)
          | msg n m e heq _ heu =>
              rw [heq]
              exact Nat.le_of_lt (heu ▸ length_drop_front hfr)

theorem length_unread_feed_le {d : Decoder} (h : d.unread.length ≤ kMaxBufferBytes)
    (bytes : Bytes) : (d.feed alloc bytes).unread.length ≤ kMaxBufferBytes := by
  unfold feed
  split
  · exact h
  · split
    · exact h
    · split
      · exact Nat.zero_le _
      · next hle =>
          simp only [unread, List.length_drop, List.length_append]
          have := d.pos_le
          omega

theorem length_unread_exec_le (ops : List Op) :
    ((init alloc).exec alloc ops).2.unread.length ≤ kMaxBufferBytes :=
  exec_induction alloc (motive := fun d => d.unread.length ≤ kMaxBufferBytes)
    (fun _ bytes h => length_unread_feed_le alloc h bytes)
    (fun d h => Nat.le_trans (length_unread_next_le alloc d) h) (Nat.zero_le _) ops

/-- **Hostile streams.** Two ways of cutting one byte string into chunks of at
most `kMaxChunk` bytes yield the same messages and the same verdict; and along
any run of `feed` and `next`, a failed decoder stays failed and gives no message
any more, and the unread extent never exceeds `kMaxBufferBytes`. -/
theorem runChunks_cut_irrelevant {cs cs' : List Bytes}
    (hcs : ∀ c ∈ cs, c.length ≤ kMaxChunk) (hcs' : ∀ c ∈ cs', c.length ≤ kMaxChunk)
    (hcut : cs.flatten = cs'.flatten) :
    ((init alloc).runChunks alloc cs).1 = ((init alloc).runChunks alloc cs').1 ∧
      ((init alloc).runChunks alloc cs).2.failed = ((init alloc).runChunks alloc cs').2.failed ∧
      (∀ ops ops', ((init alloc).exec alloc ops).2.failed = true →
        (((init alloc).exec alloc ops).2.exec alloc ops').1 = [] ∧
          (((init alloc).exec alloc ops).2.exec alloc ops').2.failed = true) ∧
      ∀ ops, ((init alloc).exec alloc ops).2.unread.length ≤ kMaxBufferBytes := by
  obtain ⟨h₁, h₂⟩ := runChunks_init alloc hcs
  obtain ⟨h₁', h₂'⟩ := runChunks_init alloc hcs'
  rw [hcut] at h₁ h₂
  refine ⟨h₁.trans h₁'.symm, failed_eq_of_rest_eq (h₂.trans h₂'.symm), ?_,
    length_unread_exec_le alloc⟩
  intro ops ops' hfail
  rw [exec_of_failed alloc hfail]
  exact ⟨rfl, hfail⟩

/-- A truncated string behind a resize, cut in two ways. -/
theorem runChunks_cut_irrelevant_truncated :
    ((init max).runChunks max [[6, 0, 0, 0, 4, 0, 80], [0, 24, 5, 0, 0, 0, 4, 0, 0, 0, 9]]).1 =
      ((init max).runChunks max [[6, 0, 0, 0, 4, 0, 80, 0, 24, 5], [0, 0, 0, 4, 0, 0, 0, 9]]).1 :=
  (runChunks_cut_irrelevant max (by simp [kMaxChunk]) (by simp [kMaxChunk]) (by decide)).1

end Decoder

end Sshos.Common
