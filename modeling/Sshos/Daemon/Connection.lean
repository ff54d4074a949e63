import Sshos.Common.ProtoStream
import Sshos.Input.Parser
import Sshos.Lib.Run

/-!
# Sshos.Daemon.Connection

One **connection** of the daemon, from its first byte to the session.

A connection starts as *pending*: its messages are decoded only to find the
`Hello`. A compatible `Hello` promotes it to *attached*, and from then on its
`Input` and `Resize` messages reach the session. The bytes come in batches: all
that the socket holds is read into the decoder, and only then is it drained.

The two roles have two decode loops, and a batch is drained by the loop of the
role the connection had when the batch came. The module says exactly for which
batchings a conforming client is treated as it should be.

What the client's input parser makes of the bytes plays no part in the argument, so
the lemmas are about any parser (`feed`, from a `fresh` state) and the results
about the program's own.
-/

namespace Sshos.Daemon

open Sshos.Lib (Bytes Framing run)
open Sshos.Common
open Sshos.Input (InputParser)

universe u v

variable {P : Type u} {E : Type v}

/-! ### The connection -/

inductive Role
  | pending
  | attached
  /-- Closed for a protocol violation. -/
  | dropped
  /-- Turned away for another build. -/
  | refused
  deriving DecidableEq

/-- A connection and what it has done to the session. -/
structure Connection (P : Type u) (E : Type v) where
  dec : Decoder
  /-- The input parser of the client. -/
  input : P
  role : Role
  /-- The events handed to the session. -/
  events : List E
  /-- The size of the screen and of the session. -/
  screen : UInt16 × UInt16
  /-- The messages acted upon while attached. -/
  handled : List Msg

namespace Connection

variable (alloc : Nat → Nat → Nat) (feed : P → Bytes → List E × P) (fresh : P)

def init (screen : UInt16 × UInt16) : Connection P E :=
  ⟨.init alloc, fresh, .pending, [], screen, []⟩

/-- Read all that the socket holds into the decoder, one `read` after the other. -/
def drainSocket (c : Connection P E) (reads : List Bytes) : Connection P E :=
  { c with dec := reads.foldl (Decoder.feed alloc) c.dec }

/-- What an attached client's message does. -/
def handle (c : Connection P E) (m : Msg) : Connection P E :=
  match m with
  | .input bytes =>
      let (es, p) := feed c.input bytes
      { c with input := p, events := c.events ++ es, handled := c.handled ++ [m] }
  | .resize cols rows => { c with screen := (cols, rows), handled := c.handled ++ [m] }
  | _ => c

/-- The loop of an attached client over the decoded messages. -/
def onAttached (c : Connection P E) : Connection P E :=
  let (ms, dec) := c.dec.drain alloc
  let c := ms.foldl (handle feed) { c with dec := dec }
  if dec.failed then { c with role := .dropped } else c

/-- The first `Hello` among the messages. -/
def helloSeen (ms : List Msg) : Option Hello :=
  ms.findSome? fun
    | .hello h => some h
    | _ => none

/-- The loop of a pending connection: only the `Hello` counts. -/
def onPending (c : Connection P E) : Connection P E :=
  let (ms, dec) := c.dec.drain alloc
  let c := { c with dec := dec }
  if dec.failed then { c with role := .dropped }
  else
    match helloSeen ms with
    | none => c
    | some h =>
        if h.buildId ≠ kBuildId then { c with role := .refused }
        else { c with role := .attached, screen := (h.cols, h.rows) }

/-- The socket is readable: one batch, given as the reads that drain it. -/
def onReadable (c : Connection P E) (reads : List Bytes) : Connection P E :=
  match c.role with
  | .pending => (c.drainSocket alloc reads).onPending alloc
  | .attached => (c.drainSocket alloc reads).onAttached alloc feed
  | _ => c

/-! ### What a conforming client is owed -/

/-- The bytes and the resizes the messages carry, in order. -/
def payload (ms : List Msg) : List (UInt8 ⊕ (UInt16 × UInt16)) :=
  ms.flatMap fun
    | .input bytes => bytes.map .inl
    | .resize cols rows => [.inr (cols, rows)]
    | _ => []

/-- The events the input parser makes of the messages, and where it stops. -/
def parse (p : P) : List Msg → List E × P
  | [] => ([], p)
  | .input bytes :: ms =>
      let (es, p) := feed p bytes
      let (es', p) := parse p ms
      (es ++ es', p)
  | _ :: ms => parse p ms

/-- The size of the screen after the messages. -/
def sizeAfter (size : UInt16 × UInt16) : List Msg → UInt16 × UInt16
  | [] => size
  | .resize cols rows :: ms => sizeAfter (cols, rows) ms
  | _ :: ms => sizeAfter size ms

/-- The messages a client sends once it has introduced itself. -/
def ForSession : Msg → Prop
  | .input _ => True
  | .resize _ _ => True
  | _ => False

/-- A conforming client: a compatible `Hello`, then messages for the session, all
within the protocol's ceiling. -/
structure Conforming (h : Hello) (ms : List Msg) : Prop where
  compatible : h.buildId = kBuildId
  hello_fits : (bodyOf (.hello h)).2.length ≤ kMaxMessageBytes
  session : ∀ m ∈ ms, ForSession m
  fits : ∀ m ∈ ms, (bodyOf m).2.length ≤ kMaxMessageBytes

/-- The bytes of the client. -/
def stream (h : Hello) (ms : List Msg) : Bytes := ((.hello h :: ms).map encode).flatten

/-- The session got what followed the `Hello`, all of it and in order, and the
connection stands. -/
structure Faithful (h : Hello) (ms : List Msg) (c : Connection P E) : Prop where
  stands : c.role = .attached
  payload_eq : payload c.handled = payload ms
  events_eq : c.events = (parse feed fresh ms).1
  screen_eq : c.screen = sizeAfter (h.cols, h.rows) ms

/-! ### The batchings that work -/

/-- The bytes of the message still unfinished after `bytes`. -/
def unfinished (bytes : Bytes) : Nat := ((framing.drain bytes).2.getD []).length

/-- No batch, added to the message unfinished before it, passes the decoder's
ceiling. -/
def Fits (before : Bytes) : List (List Bytes) → Prop
  | [] => True
  | reads :: batches =>
      unfinished before + reads.flatten.length ≤ kMaxBufferBytes ∧
        Fits (before ++ reads.flatten) batches

/-- The messages that are complete at the end of the batch that completes the
first one, apart from that one. -/
def companions (before : Bytes) : List (List Bytes) → List Msg
  | [] => []
  | reads :: batches =>
      match (framing.drain (before ++ reads.flatten)).1 with
      | [] => companions (before ++ reads.flatten) batches
      | _ :: ms => ms

/-! ### Messages, one after the other -/

theorem parse_append (p : P) (ms ns : List Msg) :
    parse feed p (ms ++ ns) =
      ((parse feed p ms).1 ++ (parse feed (parse feed p ms).2 ns).1,
        (parse feed (parse feed p ms).2 ns).2) := by
  induction ms generalizing p with
  | nil => rfl
  | cons m ms ih => cases m <;> simp only [List.cons_append, parse, ih, List.append_assoc]

theorem sizeAfter_append (size : UInt16 × UInt16) (ms ns : List Msg) :
    sizeAfter size (ms ++ ns) = sizeAfter (sizeAfter size ms) ns := by
  induction ms generalizing size with
  | nil => rfl
  | cons m ms ih => cases m <;> exact ih _

theorem payload_append (ms ns : List Msg) : payload (ms ++ ns) = payload ms ++ payload ns :=
  List.flatMap_append

/-- Messages without payload are empty inputs, which a fresh parser ignores. -/
theorem parse_of_payload_nil (hfresh : feed fresh [] = ([], fresh)) {ms : List Msg}
    (h : payload ms = []) : parse feed fresh ms = ([], fresh) := by
  induction ms with
  | nil => rfl
  | cons m ms ih =>
      simp only [payload, List.flatMap_cons, List.append_eq_nil_iff] at h
      cases m with
      | input bytes =>
          have hbytes : bytes = [] := by simpa using h.1
          simp only [parse, hbytes, hfresh, ih h.2, List.append_nil]
      | resize cols rows => simp at h
      | hello _ => exact ih h.2
      | welcome => exact ih h.2
      | incompatible _ => exact ih h.2
      | detached _ => exact ih h.2
      | frame _ => exact ih h.2

theorem sizeAfter_of_payload_nil (size : UInt16 × UInt16) {ms : List Msg}
    (h : payload ms = []) : sizeAfter size ms = size := by
  induction ms with
  | nil => rfl
  | cons m ms ih =>
      simp only [payload, List.flatMap_cons, List.append_eq_nil_iff] at h
      cases m with
      | resize cols rows => simp at h
      | input _ => exact ih h.2
      | hello _ => exact ih h.2
      | welcome => exact ih h.2
      | incompatible _ => exact ih h.2
      | detached _ => exact ih h.2
      | frame _ => exact ih h.2

/-- The attached loop over messages for the session. -/
theorem foldl_handle {c : Connection P E} {ms : List Msg} (h : ∀ m ∈ ms, ForSession m) :
    ms.foldl (handle feed) c =
      { c with
        input := (parse feed c.input ms).2
        events := c.events ++ (parse feed c.input ms).1
        screen := sizeAfter c.screen ms
        handled := c.handled ++ ms } := by
  induction ms generalizing c with
  | nil => simp [parse, sizeAfter]
  | cons m ms ih =>
      have hm := h m List.mem_cons_self
      rw [List.foldl_cons, ih fun x hx => h x (List.mem_cons_of_mem m hx)]
      cases m with
      | input bytes => simp [handle, parse, sizeAfter]
      | resize cols rows => simp [handle, parse, sizeAfter]
      | hello _ => cases hm
      | welcome => cases hm
      | incompatible _ => cases hm
      | detached _ => cases hm
      | frame _ => cases hm

/-! ### Batches -/

/-- A batch that fits is read whole. -/
theorem drainSocket_of_fits {d : Decoder} {reads : List Bytes} (hf : d.failed = false)
    (hfit : d.unread.length + reads.flatten.length ≤ kMaxBufferBytes) :
    (reads.foldl (Decoder.feed alloc) d).failed = false ∧
      (reads.foldl (Decoder.feed alloc) d).unread = d.unread ++ reads.flatten := by
  induction reads generalizing d with
  | nil => simpa using hf
  | cons r reads ih =>
      simp only [List.flatten_cons, List.length_append] at hfit
      obtain ⟨h₁, h₂⟩ := Decoder.feed_unread alloc hf (c := r) (by omega)
      obtain ⟨h₃, h₄⟩ := ih h₁ (by rw [h₂, List.length_append]; omega)
      exact ⟨h₃, by rw [List.foldl_cons, h₄, h₂, List.flatten_cons, List.append_assoc]⟩

theorem feeds_of_failed {d : Decoder} (hf : d.failed = true) (reads : List Bytes) :
    reads.foldl (Decoder.feed alloc) d = d := by
  induction reads with
  | nil => rfl
  | cons r reads ih => rw [List.foldl_cons, Decoder.feed_of_failed alloc hf, ih]

/-- A batch that does not fit breaks the decoder before anything of it is decoded. -/
theorem drainSocket_of_overflow {d : Decoder} {reads : List Bytes} (hf : d.failed = false)
    (hle : d.unread.length ≤ kMaxBufferBytes)
    (hover : kMaxBufferBytes < d.unread.length + reads.flatten.length) :
    (reads.foldl (Decoder.feed alloc) d).failed = true := by
  induction reads generalizing d with
  | nil => simp only [List.flatten_nil, List.length_nil] at hover; omega
  | cons r reads ih =>
      rw [List.foldl_cons]
      by_cases hr : d.unread.length + r.length ≤ kMaxBufferBytes
      · obtain ⟨h₁, h₂⟩ := Decoder.feed_unread alloc hf hr
        simp only [List.flatten_cons, List.length_append] at hover
        exact ih h₁ (by rw [h₂, List.length_append]; omega)
          (by rw [h₂, List.length_append]; omega)
      · have hfail : (d.feed alloc r).failed = true := by
          have hlen := d.length_unread
          have hne : r.isEmpty = false := by
            cases r with
            | nil => simp only [List.length_nil] at hr; omega
            | cons x xs => rfl
          have hgt : d.buf.length - d.pos + r.length > kMaxBufferBytes := by omega
          simp only [Decoder.feed, hf, hne, hgt, Bool.false_eq_true, if_false, if_true]
          rfl
        rw [feeds_of_failed alloc hfail]
        exact hfail

theorem onReadable_of_dropped {c : Connection P E} (h : c.role = .dropped) (reads : List Bytes) :
    c.onReadable alloc feed reads = c := by
  simp [onReadable, h]

theorem run_of_dropped {c : Connection P E} (h : c.role = .dropped) (batches : List (List Bytes)) :
    run (onReadable alloc feed) c batches = c := by
  induction batches with
  | nil => rfl
  | cons b batches ih => rw [Lib.run_cons, onReadable_of_dropped alloc feed h, ih]

/-- A conforming stream reads as its messages. -/
theorem drain_stream {h : Hello} {ms : List Msg} (hc : Conforming h ms) :
    framing.drain (stream h ms) = (.hello h :: ms, some []) := by
  have hfit : ∀ m ∈ .hello h :: ms, (bodyOf m).2.length ≤ kMaxMessageBytes := by
    intro m hm
    rcases List.mem_cons.1 hm with rfl | hm
    · exact hc.hello_fits
    · exact hc.fits m hm
  have hframes := Framing.drain_frames (F := framing) encode some (.hello h :: ms)
    fun m hm => front_encode (hfit m hm)
  rw [List.filterMap_some] at hframes
  exact hframes

/-- So does every beginning of it: some of the messages, and no failure. -/
theorem drain_prefix {h : Hello} {ms : List Msg} (hc : Conforming h ms) {before after : Bytes}
    (hs : before ++ after = stream h ms) :
    (∃ r, (framing.drain before).2 = some r) ∧ (framing.drain before).1 <+: .hello h :: ms := by
  have happ := Framing.drain_append (F := framing) before after
  rw [hs, drain_stream hc] at happ
  refine ⟨?_, _, (congrArg Prod.fst happ).symm⟩
  cases hr : (framing.drain before).2 with
  | some r => exact ⟨r, rfl⟩
  | none =>
      rw [hr] at happ
      exact absurd (congrArg Prod.snd happ) (by simp [Framing.feed])

/-- The decoder stands where the framing does after `before`. -/
def Synced (before : Bytes) (d : Decoder) : Prop :=
  d.failed = false ∧ (framing.drain before).2 = some d.unread

theorem Synced.unfinished_eq {before : Bytes} {d : Decoder} (h : Synced before d) :
    unfinished before = d.unread.length := by
  simp [unfinished, h.2]

/-- One batch that fits: the decoder yields the messages it completes. -/
theorem Synced.batch {before : Bytes} {d : Decoder} (h : Synced before d) {reads : List Bytes}
    (hfit : unfinished before + reads.flatten.length ≤ kMaxBufferBytes)
    (hok : ∃ r, (framing.drain (before ++ reads.flatten)).2 = some r) :
    let r := (reads.foldl (Decoder.feed alloc) d).drain alloc
    Synced (before ++ reads.flatten) r.2 ∧
      (framing.drain (before ++ reads.flatten)).1 = (framing.drain before).1 ++ r.1 := by
  rw [h.unfinished_eq] at hfit
  obtain ⟨hf, hu⟩ := drainSocket_of_fits alloc h.1 hfit
  obtain ⟨hms, hrest⟩ := Decoder.drain_eq alloc hf
  have happ := Framing.drain_append (F := framing) before reads.flatten
  rw [h.2] at happ
  simp only [Framing.feed, ← hu] at happ
  intro r
  obtain ⟨rest, hrest'⟩ := hok
  have hsome : r.2.rest = some rest := by rw [hrest, ← hrest', happ]
  have hfailed : r.2.failed = false := by
    cases hr : r.2.failed with
    | false => rfl
    | true => rw [Decoder.rest_of_failed hr] at hsome; cases hsome
  refine ⟨⟨hfailed, ?_⟩, ?_⟩
  · rw [hrest', ← hsome, Decoder.rest_of_ok hfailed]
  · rw [happ, hms]

/-- One batch that does not fit: nothing is decoded, and the decoder is broken. -/
theorem Synced.overflow {before : Bytes} {d : Decoder} (h : Synced before d)
    {reads : List Bytes} (hover : ¬ unfinished before + reads.flatten.length ≤ kMaxBufferBytes) :
    let r := (reads.foldl (Decoder.feed alloc) d).drain alloc
    r.2.failed = true := by
  rw [h.unfinished_eq] at hover
  have hle : d.unread.length ≤ kMaxBufferBytes := by
    have := front_needMore_length (Framing.drain_rest_front h.2)
    unfold kMaxBufferBytes
    omega
  have hfail := drainSocket_of_overflow alloc h.1 hle (Nat.lt_of_not_le hover)
  rw [Decoder.drain_of_none alloc (Decoder.next_of_failed alloc hfail)]
  exact hfail

/-! ### Whole runs -/

/-- The session has been served the messages `live`, and nothing else. -/
structure Served (h : Hello) (live : List Msg) (c : Connection P E) : Prop where
  role : c.role = .attached
  handled : c.handled = live
  input : c.input = (parse feed fresh live).2
  events : c.events = (parse feed fresh live).1
  screen : c.screen = sizeAfter (h.cols, h.rows) live

def bytesOf (batches : List (List Bytes)) : Bytes := (batches.map List.flatten).flatten

theorem bytesOf_cons (reads : List Bytes) (batches : List (List Bytes)) :
    bytesOf (reads :: batches) = reads.flatten ++ bytesOf batches := rfl

/-- From the promotion on, a connection is served all that follows, or dropped by
a batch that does not fit. -/
theorem run_attached {h : Hello} {ms : List Msg} (hc : Conforming h ms) (lost : List Msg)
    {batches : List (List Bytes)} {before : Bytes} {c : Connection P E} {live : List Msg}
    (hsync : Synced before c.dec) (hserved : Served feed fresh h live c)
    (hmsgs : (framing.drain before).1 = .hello h :: (lost ++ live))
    (hbytes : before ++ bytesOf batches = stream h ms) :
    (Fits before batches → ∃ live', ms = lost ++ live' ∧
        Served feed fresh h live' (run (onReadable alloc feed) c batches)) ∧
      (¬ Fits before batches → (run (onReadable alloc feed) c batches).role = .dropped) := by
  induction batches generalizing before c live with
  | nil =>
      have hb : before = stream h ms := by simpa [bytesOf] using hbytes
      rw [hb, drain_stream hc] at hmsgs
      exact ⟨fun _ => ⟨live, by simpa using hmsgs, hserved⟩, fun hnot => absurd trivial hnot⟩
  | cons reads batches ih =>
      rw [bytesOf_cons, ← List.append_assoc] at hbytes
      obtain ⟨hok, hpre⟩ := drain_prefix hc hbytes
      rw [Lib.run_cons]
      by_cases hfit : unfinished before + reads.flatten.length ≤ kMaxBufferBytes
      · obtain ⟨hsync', hmsgs'⟩ := hsync.batch alloc hfit hok
        have hfits : Fits before (reads :: batches) ↔ Fits (before ++ reads.flatten) batches :=
          and_iff_right hfit
        rw [hfits]
        generalize hr : (reads.foldl (Decoder.feed alloc) c.dec).drain alloc = r at hsync' hmsgs'
        obtain ⟨new, dec⟩ := r
        have hsession : ∀ m ∈ new, ForSession m := by
          intro m hm
          rw [hmsgs', hmsgs, List.cons_append] at hpre
          exact hc.session m ((List.cons_prefix_cons.1 hpre).2.subset (List.mem_append_right _ hm))
        have hstep : c.onReadable alloc feed reads =
            new.foldl (handle feed) { c with dec := dec } := by
          have hok : dec.failed = false := hsync'.1
          simp only [onReadable, hserved.role, drainSocket, onAttached, hr, hok,
            Bool.false_eq_true, if_false]
        rw [foldl_handle feed hsession] at hstep
        have hserved' : Served feed fresh h (live ++ new) (c.onReadable alloc feed reads) := by
          rw [hstep]
          constructor
          · exact hserved.role
          · simp only [hserved.handled]
          · simp only [hserved.input, parse_append]
          · simp only [hserved.events, hserved.input, parse_append]
          · simp only [hserved.screen, sizeAfter_append]
        refine ih ?_ hserved' ?_ hbytes
        · rw [hstep]
          exact hsync'
        · rw [hmsgs', hmsgs, List.cons_append, List.append_assoc]
      · refine ⟨fun hall => absurd hall.1 hfit, fun _ => ?_⟩
        have hfail := hsync.overflow alloc hfit
        have hrole : (c.onReadable alloc feed reads).role = .dropped := by
          simp only [onReadable, hserved.role, drainSocket, onAttached, hfail, if_true]
        rw [run_of_dropped alloc feed hrole]
        exact hrole

/-- A pending connection is promoted by the batch that completes its `Hello`; the
other messages that batch completes are lost. -/
theorem run_pending {h : Hello} {ms : List Msg} (hc : Conforming h ms)
    {batches : List (List Bytes)} {before : Bytes} {c : Connection P E}
    (hsync : Synced before c.dec) (hrole : c.role = .pending) (hinput : c.input = fresh)
    (hevents : c.events = []) (hhandled : c.handled = [])
    (hmsgs : (framing.drain before).1 = [])
    (hbytes : before ++ bytesOf batches = stream h ms) :
    (Fits before batches → ∃ live, ms = companions before batches ++ live ∧
        Served feed fresh h live (run (onReadable alloc feed) c batches)) ∧
      (¬ Fits before batches → (run (onReadable alloc feed) c batches).role = .dropped) := by
  induction batches generalizing before c with
  | nil =>
      have hb : before = stream h ms := by simpa [bytesOf] using hbytes
      rw [hb, drain_stream hc] at hmsgs
      cases hmsgs
  | cons reads batches ih =>
      rw [bytesOf_cons, ← List.append_assoc] at hbytes
      obtain ⟨hok, hpre⟩ := drain_prefix hc hbytes
      rw [Lib.run_cons]
      by_cases hfit : unfinished before + reads.flatten.length ≤ kMaxBufferBytes
      · obtain ⟨hsync', hmsgs'⟩ := hsync.batch alloc hfit hok
        have hfits : Fits before (reads :: batches) ↔ Fits (before ++ reads.flatten) batches :=
          and_iff_right hfit
        rw [hfits]
        generalize hr : (reads.foldl (Decoder.feed alloc) c.dec).drain alloc = r at hsync' hmsgs'
        obtain ⟨new, dec⟩ := r
        have hdec : dec.failed = false := hsync'.1
        rw [hmsgs, List.nil_append] at hmsgs'
        cases new with
        | nil =>
            have hstep : c.onReadable alloc feed reads = { c with dec := dec } := by
              simp only [onReadable, hrole, drainSocket, onPending, hr, hdec, Bool.false_eq_true,
                if_false, helloSeen, List.findSome?_nil]
            rw [hstep]
            simp only [companions, hmsgs']
            exact ih hsync' hrole hinput hevents hhandled hmsgs' hbytes
        | cons m new =>
            rw [hmsgs'] at hpre
            obtain rfl : m = .hello h := (List.cons_prefix_cons.1 hpre).1
            have hstep : c.onReadable alloc feed reads =
                { c with dec := dec, role := .attached, screen := (h.cols, h.rows) } := by
              simp only [onReadable, hrole, drainSocket, onPending, hr, hdec, Bool.false_eq_true,
                if_false, helloSeen, List.findSome?_cons, hc.compatible, ne_eq, not_true_eq_false]
            rw [hstep]
            simp only [companions, hmsgs']
            have hserved : Served feed fresh h []
                { c with dec := dec, role := .attached, screen := (h.cols, h.rows) } :=
              ⟨rfl, hhandled, hinput, hevents, rfl⟩
            refine run_attached alloc feed fresh hc new hsync' hserved ?_ hbytes
            rw [hmsgs', List.append_nil]
      · refine ⟨fun hall => absurd hall.1 hfit, fun _ => ?_⟩
        have hfail := hsync.overflow alloc hfit
        have hrole' : (c.onReadable alloc feed reads).role = .dropped := by
          simp only [onReadable, hrole, drainSocket, onPending, hfail, if_true]
        rw [run_of_dropped alloc feed hrole']
        exact hrole'

/-- What becomes of a conforming client from its first byte on. -/
theorem run_init {h : Hello} {ms : List Msg} (hc : Conforming h ms) (screen : UInt16 × UInt16)
    {batches : List (List Bytes)} (hbytes : bytesOf batches = stream h ms) :
    (Fits [] batches → ∃ live, ms = companions [] batches ++ live ∧
        Served feed fresh h live (run (onReadable alloc feed) (init alloc fresh screen) batches)) ∧
      (¬ Fits [] batches →
        (run (onReadable alloc feed) (init alloc fresh screen) batches).role = .dropped) := by
  have hnil : framing.drain [] = ([], some []) := Framing.drain_of_needMore framing.front_nil
  exact run_pending alloc feed fresh hc ⟨rfl, by rw [hnil]; rfl⟩ rfl rfl rfl rfl (by rw [hnil]) hbytes

/-- The batchings that work, for any parser that ignores an empty first feed. -/
theorem faithful_iff_of_fresh {h : Hello} {ms : List Msg} (hc : Conforming h ms)
    (hfresh : feed fresh [] = ([], fresh)) (screen : UInt16 × UInt16)
    {batches : List (List Bytes)} (hbytes : bytesOf batches = stream h ms) :
    Faithful feed fresh h ms (run (onReadable alloc feed) (init alloc fresh screen) batches) ↔
      Fits [] batches ∧ payload (companions [] batches) = [] := by
  obtain ⟨hserve, hdrop⟩ := run_init alloc feed fresh hc screen hbytes
  constructor
  · intro hf
    have hfits : Fits [] batches := by
      by_contra hnot
      have := hf.stands.symm.trans (hdrop hnot)
      cases this
    obtain ⟨live, hms, hs⟩ := hserve hfits
    refine ⟨hfits, ?_⟩
    have hpay := hf.payload_eq
    rw [hs.handled, hms, payload_append] at hpay
    have hlen := congrArg List.length hpay
    rw [List.length_append] at hlen
    exact List.length_eq_zero_iff.1 (by omega)
  · rintro ⟨hfits, hpay⟩
    obtain ⟨live, hms, hs⟩ := hserve hfits
    have hparse := parse_of_payload_nil feed fresh hfresh hpay
    refine ⟨hs.role, ?_, ?_, ?_⟩
    · rw [hs.handled, hms, payload_append, hpay, List.nil_append]
    · rw [hs.events, hms, parse_append, hparse, List.nil_append]
    · rw [hs.screen, hms, sizeAfter_append, sizeAfter_of_payload_nil _ hpay]

/-- **Batching, exactly when it does not show.** Whatever the batches its bytes
come in, a conforming client is treated as it should be if and only if no batch
passes the decoder's ceiling and no input byte or resize is complete at the end
of the batch that completes the `Hello`. -/
theorem faithful_iff {h : Hello} {ms : List Msg} (hc : Conforming h ms)
    (screen : UInt16 × UInt16) {batches : List (List Bytes)}
    (hbytes : bytesOf batches = stream h ms) :
    Faithful InputParser.feedTake {} h ms
        (run (onReadable alloc InputParser.feedTake) (init alloc {} screen) batches) ↔
      Fits [] batches ∧ payload (companions [] batches) = [] :=
  faithful_iff_of_fresh alloc _ _ hc InputParser.feedTake_fresh screen hbytes

/-! ### A client that types at once -/

/-- A client of 80 columns and 24 rows. -/
def someHello : Hello := { cols := 80, rows := 24 }

/-- One key. -/
def someInput : Msg := .input [97]

theorem conforming_some : Conforming someHello [someInput] where
  compatible := rfl
  hello_fits := by decide
  session := by simp [someInput, ForSession]
  fits := by simp [someInput, bodyOf, putStr, kMaxMessageBytes]

/-- The key comes in a batch of its own. -/
theorem faithful_two_batches :
    Faithful InputParser.feedTake {} someHello [someInput]
      (run (onReadable max InputParser.feedTake) (init max {} (80, 24))
        [[encode (.hello someHello)], [encode someInput]]) := by
  have hone : framing.drain (encode (.hello someHello)) = ([.hello someHello], some []) := by
    have hc : Conforming someHello [] := ⟨rfl, conforming_some.hello_fits, by simp, by simp⟩
    simpa [stream] using drain_stream hc
  refine (faithful_iff max conforming_some (80, 24) (by rfl)).2 ⟨?_, ?_⟩
  · refine ⟨?_, ?_, trivial⟩
    · rw [unfinished, Framing.drain_of_needMore framing.front_nil]
      decide
    · simp only [unfinished, List.nil_append, List.flatten_cons, List.flatten_nil,
        List.append_nil, hone]
      decide
  · simp only [companions, List.nil_append, List.flatten_cons, List.flatten_nil, List.append_nil,
      hone]
    rfl

/-- The key comes with the `Hello`: it never reaches the session. -/
theorem not_faithful_one_batch :
    ¬ Faithful InputParser.feedTake {} someHello [someInput]
      (run (onReadable max InputParser.feedTake) (init max {} (80, 24))
        [[encode (.hello someHello) ++ encode someInput]]) := by
  intro hf
  have hbytes : bytesOf [[encode (.hello someHello) ++ encode someInput]] =
      stream someHello [someInput] := rfl
  obtain ⟨hserve, hdrop⟩ := run_init max InputParser.feedTake {} conforming_some (80, 24) hbytes
  by_cases hfits : Fits [] [[encode (.hello someHello) ++ encode someInput]]
  · obtain ⟨live, hms, hs⟩ := hserve hfits
    have hcomp : companions [] [[encode (.hello someHello) ++ encode someInput]] = [someInput] := by
      have := drain_stream conforming_some
      simp only [stream, List.map_cons, List.map_nil, List.flatten_cons, List.flatten_nil,
        List.append_nil] at this
      simp only [companions, List.nil_append, List.flatten_cons, List.flatten_nil,
        List.append_nil, this]
    rw [hcomp] at hms
    have hlive : live = [] := by simpa using hms
    have hpay := hf.payload_eq
    rw [hs.handled, hlive] at hpay
    exact absurd hpay (by decide)
  · have := hf.stands.symm.trans (hdrop hfits)
    cases this

end Connection

end Sshos.Daemon
