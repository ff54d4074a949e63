import Sshos.Lib.Incremental
import Sshos.Common.Proto

/-!
# Sshos.Common.ProtoFraming

The decoder **refines** a framing of the byte stream.

`front` says what the envelope at the front of the unread bytes is, without
position, capacity or compaction; `framing` packages it with its laws. The
decoder's `next` then takes exactly the step `front` prescribes (`next_front`),
so draining it is draining the framing (`drain_eq`). The chunks a drained
decoder is fed never reach its ceiling as long as each is at most `kMaxChunk`,
which is what `kMaxBufferBytes` leaves above the largest message.
-/

namespace Sshos.Common

open Sshos.Lib (Bytes Front Framing)

/-! ### The framing of the protocol -/

/-- What the front of the unread bytes is. -/
def front (b : Bytes) : Front Msg :=
  if b.length < kHeaderSize then .needMore
  else
    let (tag, len) := readHead b
    if len.toNat > kMaxMessageBytes then .fail
    else if b.length < kHeaderSize + len.toNat then .needMore
    else
      match Tag.ofU8 tag with
      | none => .take (kHeaderSize + len.toNat) none
      | some tag =>
          let (m, r) := readBody tag { s := (b.drop kHeaderSize).take len.toNat }
          if !r.ok || r.i != len.toNat then .fail
          else .take (kHeaderSize + len.toNat) (some m)

/-- The envelope is read off the first five bytes, whatever follows them. -/
theorem readHead_append {b : Bytes} (h : kHeaderSize ≤ b.length) (c : Bytes) :
    readHead (b ++ c) = readHead b := by
  match b, h with
  | t :: l₀ :: l₁ :: l₂ :: l₃ :: rest, _ =>
      simp [readHead, Reader.u8, Reader.u16, Reader.u32]

theorem front_take {b : Bytes} {n : Nat} {out : Option Msg} (h : front b = .take n out) :
    0 < n ∧ n ≤ b.length := by
  unfold front at h
  simp only at h
  split at h
  · cases h
  · split at h
    · cases h
    · split at h
      · cases h
      · have hk : 0 < kHeaderSize := by decide
        split at h
        · obtain ⟨rfl, -⟩ := Front.take.inj h
          omega
        · split at h
          · cases h
          · obtain ⟨rfl, -⟩ := Front.take.inj h
            omega

theorem front_append {b : Bytes} (c : Bytes) (h : front b ≠ .needMore) :
    front (b ++ c) = front b := by
  unfold front at h ⊢
  by_cases hb : b.length < kHeaderSize
  · simp [hb] at h
  · have hhead := readHead_append (Nat.le_of_not_lt hb) c
    have hbc : ¬ (b ++ c).length < kHeaderSize := by rw [List.length_append]; omega
    simp only [hb, hbc, if_false, hhead] at h ⊢
    by_cases hmax : (readHead b).2.toNat > kMaxMessageBytes
    · simp only [hmax, if_true]
    · simp only [hmax, if_false] at h ⊢
      by_cases hlen : b.length < kHeaderSize + (readHead b).2.toNat
      · simp [hlen] at h
      · have hlc : ¬ (b ++ c).length < kHeaderSize + (readHead b).2.toNat := by
          rw [List.length_append]; omega
        have hdrop : ((b ++ c).drop kHeaderSize).take (readHead b).2.toNat =
            (b.drop kHeaderSize).take (readHead b).2.toNat := by
          rw [List.drop_append_of_le_length (by omega), List.take_append_of_le_length]
          rw [List.length_drop]; omega
        simp only [hlc, hlen, if_false, hdrop]

/-- An unfinished frame is shorter than the largest legal one. -/
theorem front_needMore_length {b : Bytes} (h : front b = .needMore) :
    b.length < kHeaderSize + kMaxMessageBytes := by
  unfold front at h
  simp only at h
  split at h
  · omega
  · split at h
    · cases h
    · split at h
      · omega
      · split at h
        · cases h
        · split at h <;> cases h

/-- The protocol as a framing of the byte stream. -/
def framing : Framing UInt8 Msg where
  front := front
  front_nil := rfl
  front_take := front_take
  front_append := front_append

theorem length_drop_front {b : Bytes} {n : Nat} {out : Option Msg}
    (h : framing.front b = .take n out) : (b.drop n).length < b.length := by
  have := framing.front_take h
  rw [List.length_drop]
  omega

namespace Decoder

variable (alloc : Nat → Nat → Nat)

/-! ### One step of the decoder -/

/-- The step `next` takes from `d`, indexed by what stands at the front. -/
inductive NextStep (d : Decoder) : Front Msg → Prop
  | needMore : d.next alloc = (none, d) → NextStep d .needMore
  | fail (d' : Decoder) : d.next alloc = (none, d') → d'.failed = true → d'.unread = [] →
      NextStep d .fail
  | skip (n : Nat) (d' : Decoder) : d.next alloc = d'.next alloc → d'.failed = false →
      d'.unread = d.unread.drop n → NextStep d (.take n none)
  | msg (n : Nat) (m : Msg) (d' : Decoder) : d.next alloc = (some m, d') → d'.failed = false →
      d'.unread = d.unread.drop n → NextStep d (.take n (some m))

/-- `next` takes the step the front of the unread bytes prescribes. -/
theorem next_front {d : Decoder} (hf : d.failed = false) :
    NextStep alloc d (framing.front d.unread) := by
  have hdrop : d.buf.drop (d.pos + kHeaderSize) = d.unread.drop kHeaderSize := by
    simp [unread]
  have hnext := next.eq_1 alloc d
  simp only [hf, Bool.false_eq_true, if_false, ← length_unread, hdrop] at hnext
  show NextStep alloc d (front d.unread)
  rw [front]
  by_cases hhead : d.unread.length < kHeaderSize
  · simp only [hhead, if_true, dif_pos] at hnext ⊢
    exact .needMore hnext
  · simp only [hhead, if_false, dif_neg, not_false_eq_true] at hnext ⊢
    by_cases hmax : (readHead d.unread).2.toNat > kMaxMessageBytes
    · simp only [hmax, if_true] at hnext ⊢
      exact .fail _ hnext rfl rfl
    · simp only [hmax, if_false] at hnext ⊢
      by_cases hlen : d.unread.length < kHeaderSize + (readHead d.unread).2.toNat
      · simp only [hlen, if_true, dif_pos] at hnext ⊢
        exact .needMore hnext
      · simp only [hlen, if_false, dif_neg, not_false_eq_true] at hnext ⊢
        cases htag : Tag.ofU8 (readHead d.unread).1 with
        | none =>
            rw [htag] at hnext
            exact .skip _ _ hnext (by simp [hf]) (by simp)
        | some tag =>
            rw [htag] at hnext
            simp only at hnext ⊢
            generalize readBody tag _ = mr at hnext ⊢
            obtain ⟨m, r⟩ := mr
            by_cases hok : (!r.ok || r.i != (readHead d.unread).2.toNat) = true
            · simp only [hok, if_true] at hnext ⊢
              exact .fail _ hnext rfl rfl
            · simp only [hok] at hnext ⊢
              exact .msg _ _ _ hnext (by simp [hf]) (by simp)

theorem next_of_failed {d : Decoder} (h : d.failed = true) : d.next alloc = (none, d) := by
  rw [next]
  simp [h]

/-- A message leaves a healthy decoder with strictly less to read. -/
theorem next_some {d d' : Decoder} {m : Msg} (h : d.next alloc = (some m, d')) :
    d'.failed = false ∧ d'.unread.length < d.unread.length := by
  induction hn : d.unread.length using Nat.strongRecOn generalizing d with
  | ind n ih =>
      subst hn
      cases hf : d.failed with
      | true => simp [next_of_failed alloc hf] at h
      | false =>
          have hstep := next_front alloc hf
          generalize hfr : framing.front d.unread = fr at hstep
          cases hstep with
          | needMore heq => simp [heq] at h
          | fail e heq hef _ => simp [heq] at h
          | skip n e heq hef heu =>
              have hlt := length_drop_front hfr
              rw [← heu] at hlt
              obtain ⟨h₁, h₂⟩ := ih _ hlt (heq.symm.trans h) rfl
              exact ⟨h₁, by omega⟩
          | msg n m' e heq hef heu =>
              simp only [heq, Prod.mk.injEq] at h
              rw [← h.2]
              exact ⟨hef, heu ▸ length_drop_front hfr⟩

/-! ### Draining -/

/-- Call `next` until it has nothing more to give. -/
def drain (d : Decoder) : List Msg × Decoder :=
  match _h : d.next alloc with
  | (none, d') => ([], d')
  | (some m, d') =>
      let r := drain d'
      (m :: r.1, r.2)
termination_by d.unread.length
decreasing_by exact (next_some alloc ‹_›).2

theorem drain_of_none {d d' : Decoder} (h : d.next alloc = (none, d')) :
    d.drain alloc = ([], d') := by
  rw [drain]
  split <;> simp_all

theorem drain_of_some {d d' : Decoder} {m : Msg} (h : d.next alloc = (some m, d')) :
    d.drain alloc = (m :: (d'.drain alloc).1, (d'.drain alloc).2) := by
  rw [drain]
  split <;> simp_all

theorem drain_congr {d e : Decoder} (h : d.next alloc = e.next alloc) :
    d.drain alloc = e.drain alloc := by
  rw [drain, drain, h]

/-- The state of the stream a decoder stands for: what is unread, or broken. -/
def rest (d : Decoder) : Option Bytes := if d.failed then none else some d.unread

theorem rest_of_failed {d : Decoder} (h : d.failed = true) : d.rest = none := by simp [rest, h]

theorem rest_of_ok {d : Decoder} (h : d.failed = false) : d.rest = some d.unread := by
  simp [rest, h]

theorem failed_eq_of_rest_eq {d e : Decoder} (h : d.rest = e.rest) : d.failed = e.failed := by
  cases hd : d.failed <;> cases he : e.failed <;> simp_all [rest]

/-- Draining the decoder is draining the framing on what is unread. -/
theorem drain_eq {d : Decoder} (hf : d.failed = false) :
    (d.drain alloc).1 = (framing.drain d.unread).1 ∧
      (d.drain alloc).2.rest = (framing.drain d.unread).2 := by
  induction hn : d.unread.length using Nat.strongRecOn generalizing d with
  | ind n ih =>
      subst hn
      have hstep := next_front alloc hf
      generalize hfr : framing.front d.unread = fr at hstep
      cases hstep with
      | needMore heq =>
          rw [drain_of_none alloc heq, Framing.drain_of_needMore hfr]
          exact ⟨rfl, rest_of_ok hf⟩
      | fail e heq hef _ =>
          rw [drain_of_none alloc heq, Framing.drain_of_fail hfr]
          exact ⟨rfl, rest_of_failed hef⟩
      | skip n e heq hef heu =>
          obtain ⟨h₁, h₂⟩ := ih _ (heu ▸ length_drop_front hfr) hef rfl
          rw [Framing.drain_of_take hfr, ← heu, drain_congr alloc heq]
          exact ⟨h₁, h₂⟩
      | msg n m e heq hef heu =>
          obtain ⟨h₁, h₂⟩ := ih _ (heu ▸ length_drop_front hfr) hef rfl
          rw [Framing.drain_of_take hfr, ← heu, drain_of_some alloc heq]
          exact ⟨by simp [h₁], h₂⟩

/-! ### Chunks -/

/-- The largest chunk that a drained decoder takes whatever it has unread. -/
def kMaxChunk : Nat := 1 * 1024 * 1024

theorem feed_of_failed {d : Decoder} (h : d.failed = true) (c : Bytes) : d.feed alloc c = d := by
  simp [feed, h]

theorem feed_unread {d : Decoder} (hf : d.failed = false) {c : Bytes}
    (h : d.unread.length + c.length ≤ kMaxBufferBytes) :
    (d.feed alloc c).failed = false ∧ (d.feed alloc c).unread = d.unread ++ c := by
  have hle : ¬ d.buf.length - d.pos + c.length > kMaxBufferBytes := by
    rw [length_unread] at h; omega
  unfold feed
  simp only [hf, Bool.false_eq_true, if_false, hle]
  cases c with
  | nil => simp [hf]
  | cons x xs => simp [unread, List.drop_append_of_le_length d.pos_le]

/-- Feed each chunk and drain after it. -/
def runChunks (d : Decoder) : List Bytes → List Msg × Decoder
  | [] => ([], d)
  | c :: cs =>
      let r := (d.feed alloc c).drain alloc
      let r' := runChunks r.2 cs
      (r.1 ++ r'.1, r'.2)

theorem runChunks_append (d : Decoder) (cs cs' : List Bytes) :
    d.runChunks alloc (cs ++ cs') =
      ((d.runChunks alloc cs).1 ++ ((d.runChunks alloc cs).2.runChunks alloc cs').1,
        ((d.runChunks alloc cs).2.runChunks alloc cs').2) := by
  induction cs generalizing d with
  | nil => simp only [List.nil_append, runChunks]
  | cons c cs ih => simp only [List.cons_append, runChunks, ih, List.append_assoc]

theorem runChunks_of_failed {d : Decoder} (h : d.failed = true) (cs : List Bytes) :
    d.runChunks alloc cs = ([], d) := by
  induction cs with
  | nil => rfl
  | cons c cs ih =>
      simp only [runChunks, feed_of_failed alloc h,
        drain_of_none alloc (next_of_failed alloc h), ih, List.nil_append]

/-- **Refinement.** Fed by chunks of at most `kMaxChunk` bytes and drained after
each, the decoder is the framing's reader. -/
theorem runChunks_eq {d : Decoder} (hd : ∀ r, d.rest = some r → framing.front r = .needMore)
    {cs : List Bytes} (hcs : ∀ c ∈ cs, c.length ≤ kMaxChunk) :
    (d.runChunks alloc cs).1 = (framing.run d.rest cs).1 ∧
      (d.runChunks alloc cs).2.rest = (framing.run d.rest cs).2 := by
  induction cs generalizing d with
  | nil => exact ⟨rfl, rfl⟩
  | cons c cs ih =>
      cases hf : d.failed with
      | true =>
          rw [runChunks_of_failed alloc hf, rest_of_failed hf, Framing.run_none]
          exact ⟨rfl, rfl⟩
      | false =>
          have hrest := rest_of_ok hf
          have hroom : d.unread.length + c.length ≤ kMaxBufferBytes := by
            have h₁ := front_needMore_length (hd _ hrest)
            have h₂ := hcs c List.mem_cons_self
            unfold kMaxBufferBytes
            unfold kMaxChunk at h₂
            omega
          obtain ⟨hff, hfu⟩ := feed_unread alloc hf hroom
          obtain ⟨h₁, h₂⟩ := drain_eq alloc hff
          rw [hfu] at h₁ h₂
          have hsettled : ∀ r, ((d.feed alloc c).drain alloc).2.rest = some r →
              framing.front r = .needMore := by
            intro r hr
            exact Framing.drain_rest_front (h₂ ▸ hr)
          obtain ⟨h₃, h₄⟩ := ih hsettled fun x hx => hcs x (List.mem_cons_of_mem c hx)
          simp only [runChunks, hrest, Framing.run, Framing.feed]
          rw [h₁, h₃, h₂]
          exact ⟨rfl, h₂ ▸ h₄⟩

/-- Fed from fresh, the decoder reads the framing of the whole stream: where the
stream was cut does not show. -/
theorem runChunks_init {cs : List Bytes} (hcs : ∀ c ∈ cs, c.length ≤ kMaxChunk) :
    ((init alloc).runChunks alloc cs).1 = (framing.drain cs.flatten).1 ∧
      ((init alloc).runChunks alloc cs).2.rest = (framing.drain cs.flatten).2 := by
  have hinit : (init alloc).rest = some [] := rfl
  have hsettled : ∀ r, (init alloc).rest = some r → framing.front r = .needMore := by
    intro r hr
    cases hinit.symm.trans hr
    exact framing.front_nil
  have h := runChunks_eq alloc hsettled hcs
  rw [hinit, Framing.run_eq_drain framing.front_nil] at h
  exact h

end Decoder

end Sshos.Common
