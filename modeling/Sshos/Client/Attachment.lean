import Sshos.Apps.Borrow
import Sshos.Apps.DiffShown
import Sshos.Client.Client
import Sshos.Daemon.LoopKept

/-!
# Sshos.Client.Attachment

An **attached client, from end to end**: the differ and the queue of the daemon, the bytes on
their way, the client that decodes them, and the terminal it writes to.

A frame is lost only at the queue, which throws away all that waits when it is too full. What
the differ believes is compared with the terminal *once everything on its way has arrived*:
that is the invariant (`Sound`) from which the display follows as soon as nothing is on its
way any more.
-/

namespace Sshos.Client

open Sshos.Apps
open Sshos.Common
open Sshos.Lib
open Sshos.Render
open Sshos.Vt

/-! ### The daemon's side -/

/-- What the daemon keeps of the display of its client. -/
structure Outgoing where
  differ : Differ
  out : OutQueue

namespace Outgoing

/-- Draw a frame and queue it, if there is anything to say. -/
def draw (o : Outgoing) (cur : Surface) (cursor : Option Pos) (repaint : Bool) : Outgoing :=
  let (ansi, d) := (if repaint then o.differ.invalidate else o.differ).frame cur cursor
  { differ := d, out := if ansi.isEmpty then o.out else o.out.push (encode (.frame ansi)) }

/-- Ask the queue whether it has thrown anything away: `none` if the client may be in the
middle of a frame, and a differ that starts afresh if it is not. -/
def settle (o : Outgoing) : Option Outgoing :=
  let (overflow, out) := o.out.takeOverflow
  if overflow = .dirty then none
  else some { differ := if overflow = .clean then o.differ.invalidate else o.differ, out := out }

/-- Send what the socket takes: the bytes it took, and what is left if it still stands. -/
def flush (o : Outgoing) (sends : List SendResult) : Bytes × Option Outgoing :=
  let (ok, out) := o.out.flush sends
  (o.out.accepted sends, if ok then some { o with out := out } else none)

end Outgoing

/-! ### Both sides -/

/-- `daemon` is `none` once the client is dropped. -/
structure Attachment where
  daemon : Option Outgoing
  pipe : Bytes := []
  client : ClientRun
  /-- What was drawn last. -/
  last : Option (Surface × Option Pos) := none

namespace Attachment

inductive Op where
  /-- A frame is due. -/
  | compose (cur : Surface) (cursor : Option Pos) (repaint : Bool) (sends : List SendResult)
  /-- The client's socket takes bytes again. -/
  | flush (sends : List SendResult)
  /-- The client reads so many bytes. -/
  | read (n : Nat)

variable (alloc : Nat → Nat → Nat)

def send (a : Attachment) (o : Outgoing) (sends : List SendResult) : Attachment :=
  let (bytes, daemon) := o.flush sends
  { a with daemon := daemon, pipe := a.pipe ++ bytes }

def step (a : Attachment) : Op → Attachment
  | .compose cur cursor repaint sends =>
      match a.daemon with
      | none => a
      | some o =>
          let a := { a with last := some (cur, cursor) }
          match (o.draw cur cursor repaint).settle with
          | none => { a with daemon := none }
          | some o => a.send o sends
  | .flush sends =>
      match a.daemon with
      | none => a
      | some o => a.send o sends
  | .read n =>
      { a with
        client := a.client.onSocket alloc {} (.bytes (a.pipe.take (min n kInBuf)))
        pipe := a.pipe.drop (min n kInBuf) }

/-- The client's terminal, from what it was when the client started. -/
def terminal (amb : Bool) (e₀ : Emulator) (a : Attachment) : Emulator := e₀.feed amb a.client.shown

/-- A client that has just been welcomed. -/
def start (client : ClientRun) (p : OutputProfile) : Attachment where
  daemon := some
    { differ := { profile := p }, out := (OutQueue.init kBackpressureCeiling).push (encode .welcome) }
  client := client

end Attachment

/-! ### The loop's own code -/

section Loop

variable {P E R : Type} {A : Daemon.Parts P E Differ R} {s : Daemon.Loop P Differ R}

/-- The loop draws, settles and flushes as above, whatever the session shows. -/
theorem loop_compose {c : Daemon.Client P Differ} {d : Differ} {t : Daemon.Tail}
    (hc : s.client = some c) (hd : c.differ = some d) (hdue : s.clock.due t.frameNow = true)
    {shows : R → Surface × Option Pos}
    (hframe : ∀ rest d, A.frame rest d = d.frame (shows rest).1 (shows rest).2)
    (hinvalidate : ∀ d, A.invalidate d = d.invalidate) :
    let (repaint, rest) := A.takeRepaint (s.call A .render).session.rest
    let o : Outgoing := { differ := d, out := c.out }
    (s.compose A t).client.map (fun c => (c.differ, c.out)) =
      (((o.draw (shows rest).1 (shows rest).2 repaint).settle).bind fun o => (o.flush t.sends).2).map
        fun o => (some o.differ, o.out) := by
  generalize hr : A.takeRepaint (s.call A .render).session.rest = r
  obtain ⟨repaint, rest⟩ := r
  simp only
  unfold Daemon.Loop.compose Outgoing.draw Outgoing.settle Outgoing.flush Daemon.Loop.drawFrame
  simp only [hc, hd, hdue, hr, hframe, hinvalidate, Bool.not_true, Bool.false_eq_true, if_false]
  generalize (if repaint then d.invalidate else d).frame (shows rest).1 (shows rest).2 = drawn
  generalize hq : (if drawn.1.isEmpty = true then c.out else c.out.push (encode (.frame drawn.1))) = q
  by_cases hdirty : q.takeOverflow.1 = .dirty
  · rw [if_pos hdirty, if_pos hdirty]
    rfl
  · rw [if_neg hdirty, if_neg hdirty]
    unfold Daemon.Loop.flushClient
    simp only [Option.bind_some]
    cases hok : (q.takeOverflow.2.flush t.sends).1 <;> simp [Daemon.Loop.dropClient, Daemon.Loop.call]

/-- So does an event that finds the client's socket ready to take bytes. -/
theorem loop_flush (c : Daemon.Client P Differ) (d : Differ) (hd : c.differ = some d)
    (sends : List SendResult) :
    let (ok, s') := s.flushClient c sends
    (if ok then s'.client.map (fun c => (c.differ, c.out)) else none) =
      (({ differ := d, out := c.out } : Outgoing).flush sends).2.map fun o => (some o.differ, o.out) := by
  unfold Daemon.Loop.flushClient Outgoing.flush
  simp only
  cases (c.out.flush sends).1 <;> simp [hd]

end Loop

/-! ### What the differ may count on -/

/-- Ready for a frame. -/
structure Ready (w h : Nat) (e : Emulator) : Prop where
  quiet : e.parser.Quiet
  canvas : Canvas w h e.sink

/-- What a differ believes of the terminal is so; one that starts afresh believes nothing. -/
def Trusts (w h : Nat) (d : Differ) (e : Emulator) : Prop :=
  InStep w h (if d.valid then d else { d with first := true }) e

section Differ

variable {amb : Bool} {w h : Nat} {d : Differ} {e : Emulator} {cur : Surface} {cursor : Option Pos}

theorem trusts_of_ready (hready : Ready w h e) (hvalid : d.valid = false) : Trusts w h d e := by
  unfold Trusts
  rw [hvalid, if_neg (by simp)]
  exact ⟨hready.quiet, hready.canvas, by simp, by simp⟩

theorem Trusts.ready (ht : Trusts w h d e) : Ready w h e := ⟨InStep.quiet ht, InStep.canvas ht⟩

theorem Trusts.invalidate (ht : Trusts w h d e) : Trusts w h d.invalidate e :=
  trusts_of_ready ht.ready rfl

/-- A frame is drawn whole by a differ that starts afresh. -/
theorem frame_afresh (hvalid : d.valid = false) (cur : Surface) (cursor : Option Pos) :
    d.frame cur cursor = ({ d with first := true } : Differ).frame cur cursor := by
  have hfit : (({ d with first := true } : Differ).fit cur) = { d.fit cur with first := true } := by
    unfold Differ.fit
    split <;> rfl
  have hstale : (d.fit cur).valid = false := by
    unfold Differ.fit
    split
    · rfl
    · exact hvalid
  unfold Differ.frame
  simp only [hfit]
  have hsame : ({ d.fit cur with first := true } : Differ).emission cur = (d.fit cur).emission cur := rfl
  have hspeaks : ∀ any changed : Bool,
      ¬ (any = false ∧ (d.fit cur).valid = true ∧ changed = false) := by simp [hstale]
  rw [hsame, if_neg (hspeaks _ _), if_neg (hspeaks _ _)]

theorem frame_valid (d : Differ) (cur : Surface) (cursor : Option Pos) :
    (d.frame cur cursor).2.valid = true := by
  unfold Differ.frame
  simp only
  split
  · next h => exact h.2.1
  · rfl

/-- A frame is displayed, and the differ counts on it. -/
theorem Trusts.frame (ht : Trusts w h d e) (hw : cur.w = w) (hh : cur.h = h)
    (hcur : Drawable amb cur) (hcursor : CursorOn cur cursor) :
    Trusts w h (d.frame cur cursor).2 (e.feed amb (d.frame cur cursor).1) ∧
      Displays d.profile.depth cur cursor (e.feed amb (d.frame cur cursor).1).sink ∧
      (d.frame cur cursor).2.profile = d.profile := by
  subst hw hh
  have hvalid := frame_valid d cur cursor
  unfold Trusts at ht
  unfold Trusts
  rw [hvalid, if_pos rfl]
  cases hd : d.valid with
  | true =>
      rw [hd, if_pos rfl] at ht
      exact frame_displays hcur hcursor ht
  | false =>
      rw [if_neg (by simp [hd])] at ht
      rw [frame_afresh hd]
      exact frame_displays hcur hcursor ht

end Differ

/-! ### What is on its way -/

/-- What the daemon sends an attached client. -/
def ForDisplay : Msg → Prop
  | .welcome => True
  | .frame _ => True
  | _ => False

theorem verdict_forDisplay {ms : List Msg} (h : ∀ m ∈ ms, ForDisplay m) : (verdict ms).2 = none := by
  induction ms with
  | nil => rfl
  | cons m ms ih =>
      have hm := h m (List.mem_cons_self ..)
      have hms := ih fun m' hm' => h m' (List.mem_cons_of_mem m hm')
      cases m with
      | welcome => exact hms
      | frame ansi => exact hms
      | hello _ => cases hm
      | incompatible _ => cases hm
      | detached _ => cases hm
      | input _ => cases hm
      | resize _ _ => cases hm

theorem verdict_fst_append {ms ns : List Msg} (h : ∀ m ∈ ms, ForDisplay m) :
    (verdict (ms ++ ns)).1 = (verdict ms).1 ++ (verdict ns).1 := by
  rw [verdict_append, verdict_forDisplay h]

/-- Bytes that read as a whole number of messages, in two pieces. -/
theorem drain_split {xs ys q : Bytes} {ms : List Msg} (h : framing.drain (xs ++ ys) = (ms, some q)) :
    ∃ now r later, framing.drain xs = (now, some r) ∧ framing.drain (r ++ ys) = (later, some q) ∧
      ms = now ++ later := by
  rw [Framing.drain_append] at h
  cases hr : (framing.drain xs).2 with
  | none =>
      rw [hr] at h
      exact absurd (congrArg Prod.snd h) (by simp [Framing.feed])
  | some r =>
      rw [hr] at h
      simp only [Framing.feed, Prod.mk.injEq] at h
      exact ⟨_, r, _, Prod.ext rfl hr, Prod.ext rfl h.2, h.1.symm⟩

theorem drain_push {xs : Bytes} {ms : List Msg} (h : framing.drain xs = (ms, some [])) {m : Msg}
    (hfits : (bodyOf m).2.length ≤ kMaxMessageBytes) :
    framing.drain (xs ++ encode m) = (ms ++ [m], some []) := by
  have hone := Framing.drain_frames (F := framing) encode some [m] fun m' hm' => by
    rw [List.mem_singleton.1 hm']
    exact front_encode hfits
  simp only [List.map_cons, List.map_nil, List.flatten_cons, List.flatten_nil, List.append_nil,
    List.filterMap_some] at hone
  rw [Framing.drain_append, h]
  simp only [Framing.feed, List.nil_append, hone]

/-! ### The client's side -/

/-- The client has not found anything to object to. -/
structure Listening (c : ClientRun) : Prop where
  ending : c.ending = none
  fine : c.dec.failed = false
  waiting : framing.front c.dec.unread = .needMore

section Reading

variable (alloc : Nat → Nat → Nat)

/-- A terminal that takes everything never ends a session. -/
theorem relay_stdout (io : ClientIo) (hroom : io.stdoutRoom = none) {c : ClientRun}
    (hc : c.ending ≠ some .stdoutFailed) : (c.relay alloc io).ending ≠ some .stdoutFailed := by
  induction hn : c.dec.unread.length using Nat.strongRecOn generalizing c with
  | ind n ih =>
      subst hn
      generalize hnext : c.dec.next alloc = r
      obtain ⟨m, dec⟩ := r
      cases m with
      | none =>
          rw [ClientRun.relay_of_none alloc io hnext]
          simp only
          split
          · simp
          · exact hc
      | some m =>
          have hm : (ClientRun.onMessage io { c with dec := dec } m).ending ≠ some .stdoutFailed := by
            unfold ClientRun.onMessage writeAll
            rw [hroom]
            cases m with
            | detached reason =>
                simp only
                split <;> simp
            | incompatible reason => simp
            | frame ansi => exact hc
            | hello _ => exact hc
            | welcome => exact hc
            | input _ => exact hc
            | resize _ _ => exact hc
          have hdec := ClientRun.onMessage_dec io { c with dec := dec } m
          have hlt := (Decoder.next_some alloc hnext).2
          rw [ClientRun.relay_of_some alloc io hnext]
          split
          · exact hm
          · exact ih _ (by rw [hdec]; exact hlt) hm rfl

/-- Reading some messages for the display shows their frames. -/
theorem Listening.read {c : ClientRun} (hc : Listening c) {bytes r : Bytes}
    (hlen : bytes.length ≤ kInBuf) {ms : List Msg}
    (hdrain : framing.drain (c.dec.unread ++ bytes) = (ms, some r)) (hms : ∀ m ∈ ms, ForDisplay m) :
    let c' := c.onSocket alloc {} (.bytes bytes)
    Listening c' ∧ c'.dec.unread = r ∧ c'.shown = c.shown ++ (verdict ms).1 := by
  have hroom : c.dec.unread.length + bytes.length ≤ kMaxBufferBytes := by
    have hshort := front_needMore_length hc.waiting
    unfold kMaxBufferBytes
    unfold kInBuf at hlen
    omega
  obtain ⟨hfine, hunread⟩ := Decoder.feed_unread alloc hc.fine hroom
  have hrelayed := ClientRun.relay_relayed alloc {}
    (c := { c with dec := c.dec.feed alloc bytes, heard := c.heard ++ [bytes] }) hc.ending hfine
  have hstdout := relay_stdout alloc {} rfl
    (c := { c with dec := c.dec.feed alloc bytes, heard := c.heard ++ [bytes] }) (by simp [hc.ending])
  show Listening (ClientRun.relay alloc {} _) ∧ (ClientRun.relay alloc {} _).dec.unread = r ∧
    (ClientRun.relay alloc {} _).shown = _
  generalize ClientRun.relay alloc {}
    { c with dec := c.dec.feed alloc bytes, heard := c.heard ++ [bytes] } = c' at hrelayed hstdout
  have hout : outcome (c.dec.unread ++ bytes) = ((verdict ms).1, none) := by
    rw [outcome_of_verdict hdrain, verdict_forDisplay hms]
    rfl
  have hshown := hrelayed.shown hstdout
  have hlive := hrelayed.live
  simp only [hunread, hout, hdrain, Prod.mk.injEq] at hshown hlive
  obtain ⟨hfine', hrest⟩ := hlive hshown.2
  obtain rfl : r = c'.dec.unread := Option.some.inj hrest
  exact ⟨⟨hshown.2, hfine', Framing.drain_rest_front (congrArg Prod.snd hdrain)⟩, rfl, hshown.1⟩

end Reading

/-! ### Sound attachments -/

namespace Attachment

/-- What has left the queue and has not been decoded. -/
def inTransit (a : Attachment) : Bytes := a.client.dec.unread ++ a.pipe

/-- Some messages are for the display, and the terminal is ready between any two of them. -/
structure Readable (amb : Bool) (w h : Nat) (e : Emulator) (ms : List Msg) : Prop where
  display : ∀ m ∈ ms, ForDisplay m
  ready : ∀ before, before <+: ms → Ready w h (e.feed amb (verdict before).1)

/-- What the daemon believes comes true once all that it has queued has arrived. -/
structure Kept (amb : Bool) (w h : Nat) (p : OutputProfile) (e : Emulator) (a : Attachment)
    (o : Outgoing) : Prop where
  ceiling : o.out.ceiling = kBackpressureCeiling
  overflow : o.out.overflow = .none
  profile : o.differ.profile = p
  /-- An untouched buffer stands on the boundary of a message. -/
  boundary : o.out.off = 0 → (framing.drain a.inTransit).2 = some []
  transit : ∃ ms, framing.drain (a.inTransit ++ o.out.unsent) = (ms, some []) ∧
    Readable amb w h e ms ∧ Trusts w h o.differ (e.feed amb (verdict ms).1) ∧
    (o.differ.valid = true → ∀ cur cursor, a.last = some (cur, cursor) →
      Displays p.depth cur cursor (e.feed amb (verdict ms).1).sink)

/-- The client has decoded nothing but frames and will decode nothing else, and as long as it
is kept, what the daemon believes comes true. -/
structure Sound (amb : Bool) (w h : Nat) (p : OutputProfile) (e₀ : Emulator) (a : Attachment) : Prop where
  listening : Listening a.client
  pending : ∃ ms r, framing.drain a.inTransit = (ms, some r) ∧
    Readable amb w h (a.terminal amb e₀) ms
  kept : ∀ o, a.daemon = some o → Kept amb w h p (a.terminal amb e₀) a o

/-- No flush moves the buffer of the queue down in the middle of a frame: it leaves no more than
`kCompactShift` bytes of it behind, or stops at the end of a message. -/
def FlushSafe (a : Attachment) (o : Outgoing) (sends : List SendResult) : Prop :=
  o.out.linkUp sends = true → o.out.stop sends ≤ kCompactShift ∨
    (framing.drain (a.inTransit ++ o.out.accepted sends)).2 = some []

def OpSafe (a : Attachment) : Op → Prop
  | .compose cur cursor repaint sends => ∀ o o', a.daemon = some o →
      (o.draw cur cursor repaint).settle = some o' → a.FlushSafe o' sends
  | .flush sends => ∀ o, a.daemon = some o → a.FlushSafe o sends
  | .read _ => True

/-- What is drawn has the size of the terminal and can be told to it. -/
def Op.Draws (amb : Bool) (w h : Nat) : Op → Prop
  | .compose cur cursor _ _ => cur.w = w ∧ cur.h = h ∧ Drawable amb cur ∧ CursorOn cur cursor
  | _ => True

section Steps

variable {amb : Bool} {w h : Nat} {p : OutputProfile} {e₀ e : Emulator} {a : Attachment} {o o' : Outgoing}

theorem Readable.of_prefix {ms ns : List Msg} (hr : Readable amb w h e ms) (hns : ns <+: ms) :
    Readable amb w h e ns :=
  ⟨fun m hm => hr.display m (hns.subset hm), fun before hb => hr.ready before (hb.trans hns)⟩

/-- Once the first of the messages are shown. -/
theorem Readable.later {now later : List Msg} (hr : Readable amb w h e (now ++ later)) :
    Readable amb w h (e.feed amb (verdict now).1) later := by
  have hnow : ∀ m ∈ now, ForDisplay m := fun m hm => hr.display m (List.mem_append_left _ hm)
  refine ⟨fun m hm => hr.display m (List.mem_append_right _ hm), fun before hb => ?_⟩
  have hready := hr.ready (now ++ before) ((List.prefix_append_right_inj now).2 hb)
  rwa [verdict_fst_append hnow, feed_append] at hready

/-- One more message, which the terminal can be told of. -/
theorem Readable.push {ms : List Msg} (hr : Readable amb w h e ms) {m : Msg} (hm : ForDisplay m)
    (hready : Ready w h (e.feed amb (verdict (ms ++ [m])).1)) : Readable amb w h e (ms ++ [m]) := by
  refine ⟨fun m' hm' => ?_, fun before hb => ?_⟩
  · rcases List.mem_append.1 hm' with hm' | hm'
    · exact hr.display m' hm'
    · rw [List.mem_singleton.1 hm']
      exact hm
  · rcases List.prefix_concat_iff.1 hb with rfl | hb
    · exact hready
    · exact hr.ready before hb

/-- Nothing of what is on its way is torn while the queue stands behind it. -/
theorem Kept.pending (hk : Kept amb w h p e a o) :
    ∃ ms r, framing.drain a.inTransit = (ms, some r) ∧ Readable amb w h e ms := by
  obtain ⟨ms, hdrain, hr, -⟩ := hk.transit
  obtain ⟨now, r, later, hnow, -, rfl⟩ := drain_split hdrain
  exact ⟨now, r, hnow, hr.of_prefix (List.prefix_append _ _)⟩

/-! #### Drawing -/

/-- A frame that is queued arrives behind the others. -/
theorem Kept.push (hk : Kept amb w h p e a o) {d : Differ} {m : Msg} (hm : ForDisplay m)
    (hfits : ¬ o.out.rejects (encode m)) (hprofile : d.profile = p) (last : Option (Surface × Option Pos))
    (hnext : ∀ e', Ready w h e' → Trusts w h o.differ e' →
      Trusts w h d (e'.feed amb (verdict [m]).1) ∧ (d.valid = true → ∀ cur cursor,
        last = some (cur, cursor) → Displays p.depth cur cursor (e'.feed amb (verdict [m]).1).sink)) :
    Kept amb w h p e { a with last := last } { differ := d, out := o.out.push (encode m) } := by
  obtain ⟨hunsent, hoff, hoverflow⟩ := OutQueue.push_of_fits hfits
  obtain ⟨ms, hdrain, hr, ht, -⟩ := hk.transit
  have hceiling : (o.out.push (encode m)).ceiling = o.out.ceiling := by
    rw [OutQueue.push, dif_neg hfits]
  have hlen : (bodyOf m).2.length ≤ kMaxMessageBytes := by
    have hle : (encode m).length ≤ o.out.ceiling - o.out.size := Nat.le_of_not_gt hfits
    have henvelope : (encode m).length = 5 + (bodyOf m).2.length := by
      unfold encode
      rw [length_envelope]
      rfl
    rw [hk.ceiling, henvelope] at hle
    unfold kBackpressureCeiling at hle
    unfold kMaxMessageBytes
    omega
  have hlater : e.feed amb (verdict (ms ++ [m])).1 =
      (e.feed amb (verdict ms).1).feed amb (verdict [m]).1 := by
    rw [verdict_fst_append hr.display, feed_append]
  obtain ⟨ht', hdisplays⟩ := hnext _ (hr.ready ms (List.prefix_refl _)) ht
  refine ⟨hceiling.trans hk.ceiling, hoverflow.trans hk.overflow, hprofile, ?_, ms ++ [m], ?_, ?_, ?_, ?_⟩
  · intro h0
    exact hk.boundary (hoff.symm.trans h0)
  · show framing.drain (a.inTransit ++ (o.out.push (encode m)).unsent) = _
    rw [hunsent, ← List.append_assoc]
    exact drain_push hdrain hlen
  · refine hr.push hm ?_
    rw [hlater]
    exact ht'.ready
  · rw [hlater]
    exact ht'
  · rw [hlater]
    exact hdisplays

/-- Drawing and settling keep what is believed, if the client is kept. -/
theorem Kept.drawn (hk : Kept amb w h p e a o) {cur : Surface} {cursor : Option Pos} (hw : cur.w = w)
    (hh : cur.h = h) (hcur : Drawable amb cur) (hcursor : CursorOn cur cursor) {repaint : Bool}
    (hsettled : (o.draw cur cursor repaint).settle = some o') :
    Kept amb w h p e { a with last := some (cur, cursor) } o' := by
  -- the differ that draws, and what it believes of the frame it draws
  obtain ⟨d, hd, hprofile, htrusts⟩ : ∃ d : Differ,
      (if repaint then o.differ.invalidate else o.differ) = d ∧ d.profile = p ∧
      ∀ e' : Emulator, Trusts w h o.differ e' → Trusts w h d e' := by
    cases repaint with
    | true => exact ⟨_, rfl, hk.profile, fun e' ht => ht.invalidate⟩
    | false => exact ⟨_, rfl, hk.profile, fun e' ht => ht⟩
  have hframe : ∀ e' : Emulator, Trusts w h o.differ e' →
      Trusts w h (d.frame cur cursor).2 (e'.feed amb (d.frame cur cursor).1) ∧
      Displays p.depth cur cursor (e'.feed amb (d.frame cur cursor).1).sink ∧
      (d.frame cur cursor).2.profile = p := by
    intro e' ht
    obtain ⟨h₁, h₂, h₃⟩ := (htrusts e' ht).frame hw hh hcur hcursor
    rw [hprofile] at h₂ h₃
    exact ⟨h₁, h₂, h₃⟩
  have hshown : ∀ e' : Emulator, Displays p.depth cur cursor (e'.feed amb (d.frame cur cursor).1).sink →
      ∀ cur' cursor', some (cur, cursor) = some (cur', cursor') →
        Displays p.depth cur' cursor' (e'.feed amb (d.frame cur cursor).1).sink := by
    rintro e' hdisplays cur' cursor' heq
    cases heq
    exact hdisplays
  unfold Outgoing.draw at hsettled
  rw [hd] at hsettled
  simp only at hsettled
  generalize hdrawn : d.frame cur cursor = drawn at hframe hshown hsettled
  obtain ⟨ansi, d'⟩ := drawn
  simp only at hframe hshown hsettled
  obtain ⟨ms, hdrain, hr, ht, -⟩ := hk.transit
  have hprofile' : d'.profile = p := (hframe _ ht).2.2
  by_cases hempty : ansi.isEmpty = true
  · -- nothing to say
    have hnil : ansi = [] := List.isEmpty_iff.1 hempty
    rw [if_pos hempty] at hsettled
    unfold Outgoing.settle OutQueue.takeOverflow at hsettled
    simp only [hk.overflow, reduceCtorEq, if_false, Option.some.injEq] at hsettled
    subst hsettled
    subst hnil
    obtain ⟨ht', hdisplays, -⟩ := hframe _ ht
    exact ⟨hk.ceiling, rfl, hprofile', hk.boundary, ms, hdrain, hr, ht', fun _ => hshown _ hdisplays⟩
  rw [if_neg hempty] at hsettled
  by_cases hfits : o.out.rejects (encode (.frame ansi))
  · -- all that waited is thrown away, and the frame with it
    obtain ⟨hunsent, hoff, hoverflow⟩ := OutQueue.push_of_rejects hfits
    have hceiling : (o.out.push (encode (.frame ansi))).ceiling = o.out.ceiling := by
      rw [OutQueue.push, dif_pos hfits]
      rfl
    unfold Outgoing.settle OutQueue.takeOverflow at hsettled
    simp only [hoverflow] at hsettled
    by_cases hdirty : o.out.merged = .dirty
    · rw [if_pos hdirty] at hsettled
      cases hsettled
    rw [if_neg hdirty, Option.some.injEq] at hsettled
    subst hsettled
    have hoff0 : o.out.off = 0 := by
      by_contra hne
      exact hdirty (OutQueue.merged_of_sent (Nat.pos_of_ne_zero hne))
    have hclean : o.out.merged = .clean := OutQueue.merged_of_untouched hoff0 (by simp [hk.overflow])
    rw [if_pos hclean]
    obtain ⟨now, r, later, hnow, -, rfl⟩ := drain_split hdrain
    have hr0 : r = [] := by
      have hboundary := hk.boundary hoff0
      rw [hnow] at hboundary
      exact Option.some.inj hboundary
    rw [hr0] at hnow
    have hrnow := hr.of_prefix (List.prefix_append now later)
    refine ⟨hceiling.trans hk.ceiling, rfl, hprofile', fun _ => ?_, now, ?_, hrnow, ?_, ?_⟩
    · show (framing.drain a.inTransit).2 = _
      rw [hnow]
    · show framing.drain (a.inTransit ++ (o.out.push (encode (.frame ansi))).unsent) = _
      rw [hunsent, List.append_nil]
      exact hnow
    · exact trusts_of_ready (hrnow.ready now (List.prefix_refl _)) rfl
    · intro hvalid
      cases hvalid
  · -- the frame is queued
    have hpush := hk.push (d := d') (m := .frame ansi) trivial hfits hprofile'
      (some (cur, cursor)) fun e' _ ht' => by
        obtain ⟨h₁, h₂, -⟩ := hframe e' ht'
        have hansi : (verdict [.frame ansi]).1 = ansi := by simp [verdict]
        rw [hansi]
        exact ⟨h₁, fun _ => hshown e' h₂⟩
    unfold Outgoing.settle OutQueue.takeOverflow at hsettled
    have hnone := hpush.overflow
    simp only at hnone
    simp only [hnone, reduceCtorEq, if_false, Option.some.injEq] at hsettled
    subst hsettled
    exact ⟨hpush.ceiling, rfl, hpush.profile, hpush.boundary, hpush.transit⟩

/-! #### Sending -/

theorem flush_ceiling (q : OutQueue) (sends : List SendResult) :
    (q.flush sends).2.ceiling = q.ceiling := by
  unfold OutQueue.flush OutQueue.compact OutQueue.releaseBuffer
  repeat' split
  all_goals rfl

theorem Kept.send (hk : Kept amb w h p (a.terminal amb e₀) a o) (hl : Listening a.client)
    {sends : List SendResult} (hsafe : a.FlushSafe o sends) :
    Sound amb w h p e₀ (a.send o sends) := by
  obtain ⟨happ, hoverflow, hoff⟩ := o.out.flush_spec sends
  obtain ⟨ms, hdrain, hr, ht, hdisplays⟩ := hk.transit
  have hmoved : (a.inTransit ++ o.out.accepted sends) ++ (o.out.flush sends).2.unsent =
      a.inTransit ++ o.out.unsent := by rw [List.append_assoc, happ]
  have htransit : (a.send o sends).inTransit = a.inTransit ++ o.out.accepted sends :=
    (List.append_assoc ..).symm
  refine ⟨hl, ?_, fun o' ho' => ?_⟩
  · rw [← hmoved] at hdrain
    obtain ⟨now, r, later, hnow, -, rfl⟩ := drain_split hdrain
    exact ⟨now, r, by rw [htransit]; exact hnow, hr.of_prefix (List.prefix_append _ _)⟩
  · have hdaemon : (if (o.out.flush sends).1 then some { o with out := (o.out.flush sends).2 }
        else none) = some o' := ho'
    have hup : o.out.linkUp sends = true := by
      by_contra hdown
      rw [Daemon.Loop.flush_fst, if_neg hdown] at hdaemon
      cases hdaemon
    rw [Daemon.Loop.flush_fst, if_pos hup, Option.some.injEq] at hdaemon
    subst hdaemon
    refine ⟨(flush_ceiling _ _).trans hk.ceiling, hoverflow.trans hk.overflow, hk.profile, fun h0 => ?_,
      ms, ?_, hr, ht, hdisplays⟩
    · rw [htransit]
      rcases hoff h0 with hstop | hunsent | ⟨-, hshift⟩
      · -- nothing of the buffer was ever sent
        have hle := o.out.off_le_stop sends
        have hnone : o.out.accepted sends = [] := by simp [OutQueue.accepted_eq, hstop]
        rw [hnone, List.append_nil]
        exact hk.boundary (by omega)
      · -- everything was
        rw [hunsent, List.append_nil] at hmoved
        rw [hmoved, hdrain]
      · rcases hsafe hup with hle | hwhole
        · omega
        · exact hwhole
    · rw [htransit, hmoved]
      exact hdrain

/-! #### Reading -/

theorem Sound.read (alloc : Nat → Nat → Nat) (hs : Sound amb w h p e₀ a) (n : Nat) :
    Sound amb w h p e₀ (a.step alloc (.read n)) := by
  obtain ⟨ms, q, hdrain, hr⟩ := hs.pending
  have hcut : (a.client.dec.unread ++ a.pipe.take (min n kInBuf)) ++ a.pipe.drop (min n kInBuf) =
      a.inTransit := by
    rw [List.append_assoc, List.take_append_drop]
    rfl
  have hlen : (a.pipe.take (min n kInBuf)).length ≤ kInBuf := by
    rw [List.length_take]
    omega
  rw [← hcut] at hdrain
  obtain ⟨now, r, later, hnow, hlater, rfl⟩ := drain_split hdrain
  have hread := hs.listening.read alloc hlen hnow fun m hm =>
    hr.display m (List.mem_append_left _ hm)
  simp only at hread
  obtain ⟨hlistening, hunread, hshown⟩ := hread
  have hterminal : (a.step alloc (.read n)).terminal amb e₀ =
      (a.terminal amb e₀).feed amb (verdict now).1 := by
    show e₀.feed amb (a.client.onSocket alloc {} _).shown = _
    rw [hshown, feed_append]
    rfl
  have htransit : (a.step alloc (.read n)).inTransit = r ++ a.pipe.drop (min n kInBuf) := by
    show (a.client.onSocket alloc {} _).dec.unread ++ a.pipe.drop (min n kInBuf) = _
    rw [hunread]
  refine ⟨hlistening, ⟨later, q, ?_, ?_⟩, fun o ho => ?_⟩
  · exact (congrArg framing.drain htransit).trans hlater
  · rw [hterminal]
    exact hr.later
  · have hk := hs.kept o ho
    obtain ⟨all, hall, hrall, ht, hdisplays⟩ := hk.transit
    rw [← hcut, List.append_assoc] at hall
    obtain ⟨now', r', rest, hnow', hrest, rfl⟩ := drain_split hall
    rw [hnow'] at hnow
    simp only [Prod.mk.injEq, Option.some.injEq] at hnow
    obtain ⟨rfl, rfl⟩ := hnow
    have hnowDisplay : ∀ m ∈ now', ForDisplay m := fun m hm =>
      hrall.display m (List.mem_append_left _ hm)
    rw [verdict_fst_append hnowDisplay, feed_append] at ht hdisplays
    refine ⟨hk.ceiling, hk.overflow, hk.profile, fun h0 => ?_, rest, ?_, ?_, ?_, ?_⟩
    · have hboundary := hk.boundary h0
      rw [← hcut, Framing.drain_append, hnow'] at hboundary
      rw [htransit]
      exact hboundary
    · rw [htransit, List.append_assoc]
      exact hrest
    · rw [hterminal]
      exact hrall.later
    · rw [hterminal]
      exact ht
    · rw [hterminal]
      exact hdisplays

/-! #### Every run -/

theorem Sound.step (alloc : Nat → Nat → Nat) (hs : Sound amb w h p e₀ a) {op : Op}
    (hdraws : op.Draws amb w h) (hsafe : a.OpSafe op) : Sound amb w h p e₀ (a.step alloc op) := by
  cases op with
  | read n => exact hs.read alloc n
  | flush sends =>
      cases hd : a.daemon with
      | none =>
          have hstep : a.step alloc (.flush sends) = a := by simp [Attachment.step, hd]
          rw [hstep]
          exact hs
      | some o =>
          have hstep : a.step alloc (.flush sends) = a.send o sends := by simp [Attachment.step, hd]
          rw [hstep]
          exact (hs.kept o hd).send hs.listening (hsafe o hd)
  | compose cur cursor repaint sends =>
      obtain ⟨hw, hh, hcur, hcursor⟩ := hdraws
      cases hd : a.daemon with
      | none =>
          have hstep : a.step alloc (.compose cur cursor repaint sends) = a := by
            simp [Attachment.step, hd]
          rw [hstep]
          exact hs
      | some o =>
          cases hsettled : (o.draw cur cursor repaint).settle with
          | none =>
              have hstep : a.step alloc (.compose cur cursor repaint sends) =
                  { a with last := some (cur, cursor), daemon := none } := by
                simp [Attachment.step, hd, hsettled]
              rw [hstep]
              exact ⟨hs.listening, hs.pending, fun o' ho' => by cases ho'⟩
          | some o' =>
              have hstep : a.step alloc (.compose cur cursor repaint sends) =
                  ({ a with last := some (cur, cursor) } : Attachment).send o' sends := by
                simp [Attachment.step, hd, hsettled]
              rw [hstep]
              have hdrawn := (hs.kept o hd).drawn hw hh hcur hcursor hsettled
              exact Kept.send (a := { a with last := some (cur, cursor) }) hdrawn hs.listening
                (hsafe o o' hd hsettled)

theorem Sound.start (alloc : Nat → Nat → Nat) (hready : Ready w h e₀) (hello : Hello) :
    Sound amb w h p e₀ (Attachment.start (.start alloc {} hello) p) := by
  have hnil : framing.drain [] = ([], some []) := Framing.drain_of_needMore framing.front_nil
  have hreadable : Readable amb w h e₀ [] := by
    refine ⟨by simp, fun before hb => ?_⟩
    rw [List.prefix_nil.1 hb]
    exact hready
  have hunsent : (OutQueue.init kBackpressureCeiling).unsent = [] := by decide
  have hempty : Kept amb w h p e₀ (.start (.start alloc {} hello) p)
      { differ := { profile := p }, out := OutQueue.init kBackpressureCeiling } := by
    refine ⟨rfl, rfl, rfl, fun _ => congrArg Prod.snd hnil, [], ?_, hreadable, ?_, fun hvalid => ?_⟩
    · rw [hunsent]
      exact hnil
    · exact trusts_of_ready hready rfl
    · cases hvalid
  refine ⟨⟨rfl, rfl, framing.front_nil⟩, ⟨[], [], hnil, hreadable⟩, fun o ho => ?_⟩
  obtain rfl : _ = o := Option.some.inj ho
  have hwelcome : (verdict [.welcome]).1 = [] := rfl
  have hfits : ¬ (OutQueue.init kBackpressureCeiling).rejects (encode .welcome) := by decide
  refine hempty.push (d := { profile := p }) (m := .welcome) trivial hfits rfl none ?_
  intro e' hready' _
  rw [hwelcome]
  exact ⟨trusts_of_ready hready' rfl, fun hvalid => by cases hvalid⟩

end Steps

end Attachment

/-- **The client's terminal shows what the daemon drew.** However the queue is sent and the client
reads, the client never ends a session that displays, its terminal is never left in the middle
of a sequence once it has read whole messages, and as soon as nothing is on its way any more it
shows the last frame — as long as no flush moves the queue's buffer down in the middle of a
message (`FlushSafe`): the daemon would then take the buffer for untouched, and throw away the
rest of a frame that the client has begun to read. -/
theorem attachment_displays (alloc : Nat → Nat → Nat) {amb : Bool} {w h : Nat} (p : OutputProfile)
    {e₀ : Emulator} (hquiet : e₀.parser.Quiet) (hcanvas : Canvas w h e₀.sink) (hello : Hello)
    {ops : List Attachment.Op} (hdraws : ∀ op ∈ ops, op.Draws amb w h)
    (hsafe : StepsMeet (Attachment.step alloc) Attachment.OpSafe
      (.start (.start alloc {} hello) p) ops) :
    let a := run (Attachment.step alloc) (.start (.start alloc {} hello) p) ops
    a.client.ending = none ∧ (a.terminal amb e₀).parser.Quiet ∧ Canvas w h (a.terminal amb e₀).sink ∧
      ∀ o cur cursor, a.daemon = some o → a.last = some (cur, cursor) → o.differ.valid = true →
        o.out.unsent = [] → a.pipe = [] →
          Displays p.depth cur cursor (a.terminal amb e₀).sink := by
  have hsound := @run_invariant _ _ _ _ (Attachment.Sound amb w h p e₀)
    (fun a op hs hop => hs.step alloc hop.2 hop.1) _ _
    (Attachment.Sound.start alloc ⟨hquiet, hcanvas⟩ hello) (hsafe.and_inputs hdraws)
  intro a
  change Attachment.Sound amb w h p e₀ a at hsound
  obtain ⟨ms, r, hdrain, hr⟩ := hsound.pending
  have hready := hr.ready [] List.nil_prefix
  refine ⟨hsound.listening.ending, hready.quiet, hready.canvas, ?_⟩
  intro o cur cursor ho hlast hvalid hsent hpipe
  obtain ⟨all, hall, -, -, hdisplays⟩ := (hsound.kept o ho).transit
  rw [hsent, List.append_nil, Attachment.inTransit, hpipe, List.append_nil,
    Framing.drain_of_needMore hsound.listening.waiting] at hall
  obtain rfl : [] = all := congrArg Prod.fst hall
  exact hdisplays hvalid cur cursor hlast

/-- A frame that the socket takes in two pieces, and a client that reads in between. -/
theorem attachment_displays_pieces :
    Displays .trueColor redPair (some { x := 1 })
      ((run (Attachment.step fun _ n => n) (.start (.start (fun _ n => n) {} {}) { depth := .trueColor })
        [.compose redPair (some { x := 1 }) false [.accepted 30, .again], .read 4096,
          .flush [.accepted 4096], .read 4096]).terminal false (freshEmulator 2 1)).sink := by
  have hpair : Drawable false redPair := by
    refine ⟨⟨?_, ?_, ?_⟩, ?_, by decide, by decide⟩ <;>
      · intro x y (hx : x < 2) (hy : y < 1)
        interval_cases x <;> interval_cases y <;> decide
  have h := @attachment_displays (fun _ n => n) false 2 1 { depth := .trueColor } (freshEmulator 2 1)
    ⟨rfl, rfl⟩ (freshEmulator_canvas 2 1 (by decide) (by decide)) {}
    [.compose redPair (some { x := 1 }) false [.accepted 30, .again], .read 4096,
      .flush [.accepted 4096], .read 4096] ?_ ?_
  · exact h.2.2.2 _ redPair (some { x := 1 }) rfl rfl rfl rfl rfl
  · intro op hop
    simp only [List.mem_cons, List.not_mem_nil, or_false] at hop
    rcases hop with rfl | rfl | rfl | rfl
    · refine ⟨rfl, rfl, hpair, ?_⟩
      rintro pos ⟨⟩
      decide
    all_goals trivial
  · refine ⟨?_, trivial, ?_, trivial, trivial⟩
    · intro o o' ho hsettled _
      obtain rfl := Option.some.inj ho
      obtain rfl := Option.some.inj hsettled
      exact .inl (by decide)
    · intro o ho _
      obtain rfl := Option.some.inj ho
      exact .inl (by decide)

end Sshos.Client
