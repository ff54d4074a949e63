import Sshos.Common.ProtoStream
import Sshos.Lib.Run
import Sshos.Shell.Modal

/-!
# Sshos.Client.Client

The **client**: it introduces itself to the daemon, then carries what is typed to the daemon
and what the daemon draws to the terminal, until one side has had enough.

`ClientRun.turn` is one turn of its loop. What the client shows and how it ends is compared with
`outcome`, which reads the daemon's bytes as a whole.
-/

namespace Sshos.Client

open Sshos.Common
open Sshos.Lib
open Sshos.Shell (text)

/-! ### Introduction -/

/-- `term_size`, of what the terminal answers. -/
def termSize : Option (UInt16 × UInt16) → UInt16 × UInt16
  | none => (80, 24)
  | some (cols, rows) => if cols = 0 then (80, 24) else (cols, rows)

def envKeys : List Bytes :=
  [text "SSH_AUTH_SOCK", text "SSH_CONNECTION", text "SSH_CLIENT", text "SSH_TTY", text "DISPLAY",
    text "XDG_SESSION_ID"]

def collectEnvDelta (getenv : Bytes → Option Bytes) : List (Bytes × Bytes) :=
  envKeys.filterMap fun k => (getenv k).map (k, ·)

/-- `LC_ALL` counts as soon as it is set, even to nothing. -/
def helloOf (size : UInt16 × UInt16) (getenv : Bytes → Option Bytes) : Hello where
  cols := size.1
  rows := size.2
  term := (getenv (text "TERM")).getD []
  colorterm := (getenv (text "COLORTERM")).getD []
  utf8 :=
    match (getenv (text "LC_ALL")).or (getenv (text "LANG")) with
    | none => false
    | some lang => decide (text "UTF-8" <:+: lang)
  env := collectEnvDelta getenv

/-! ### State -/

def kClientRestartRequested : Int := 64

def kDetachReasonUpdate : Bytes := text "mise a jour"

/-- What a session has brought. -/
structure SessionTrace where
  /-- A frame of the daemon's was written to the terminal. -/
  desktopShown : Bool := false
  /-- Something typed was sent to the daemon. -/
  userActed : Bool := false
  deriving DecidableEq

/-- Why a session is over. -/
inductive Ending where
  | update
  | detached (reason : Bytes)
  | incompatible (reason : Bytes)
  /-- The daemon broke the protocol. -/
  | invalid
  /-- The daemon hung up without a word. -/
  | closed
  | readFailed
  | stdoutFailed
  | inputFailed
  | resizeFailed
  | helloFailed
  | pollFailed
  | stdinEnded
  deriving DecidableEq

namespace Ending

/-- The exit code. -/
def code : Ending → Int
  | update => kClientRestartRequested
  | detached _ => 0
  | stdinEnded => 0
  | _ => 1

/-- What is said on the error output, with the text of the system's error where there is one. -/
def notice (strerror : Bytes) : Ending → Bytes
  | update => []
  | detached reason => text "\r\ntermos: detache (" ++ reason ++ text ")\r\n"
  | incompatible reason => text "\r\ntermos: " ++ reason ++ text "\r\n"
  | invalid => text "\r\ntermos: message de protocole invalide recu du demon\r\n"
  | closed => text "\r\ntermos: le demon a ferme la connexion sans annoncer de detachement\r\n"
  | readFailed =>
      text "\r\ntermos: lecture depuis le demon impossible : " ++ strerror ++ text "\r\n"
  | stdoutFailed => text "\r\ntermos: ecriture vers stdout impossible : " ++ strerror ++ text "\r\n"
  | inputFailed =>
      text "\r\ntermos: envoi de l'entree au demon impossible : " ++ strerror ++ text "\r\n"
  | resizeFailed =>
      text "\r\ntermos: envoi du redimensionnement au demon impossible : " ++ strerror ++ text "\r\n"
  | helloFailed => []
  | pollFailed => text "\r\ntermos: poll() a echoue : " ++ strerror ++ text "\r\n"
  | stdinEnded => []

/-- It is for the daemon's bytes to say so. -/
def ofDaemon : Ending → Bool
  | update | detached _ | incompatible _ | invalid => true
  | _ => false

end Ending

/-- How much the outputs take before a write to them fails: all, or so many bytes. -/
structure ClientIo where
  stdoutRoom : Option Nat := none
  socketRoom : Option Nat := none

/-- `write_all` of some bytes behind what is written: what is written then, and whether all
of it is. -/
def writeAll (room : Option Nat) (written bytes : Bytes) : Bytes × Bool :=
  match room with
  | none => (written ++ bytes, true)
  | some n =>
      if written.length + bytes.length ≤ n then (written ++ bytes, true)
      else (written ++ bytes.take (n - written.length), false)

structure ClientRun where
  dec : Decoder
  /-- What was written to the socket, and to the terminal. -/
  toDaemon : Bytes := []
  shown : Bytes := []
  trace : SessionTrace := {}
  ending : Option Ending := none
  /-- The reads of the socket so far, and the messages the client set out to send: the program
  keeps neither. -/
  heard : List Bytes := []
  said : List Msg := []

/-- What a read of the standard input gives. -/
inductive StdinRead where
  | silent
  | bytes (bytes : Bytes)
  | ended

inductive SocketRead where
  | silent
  | bytes (bytes : Bytes)
  | closed
  | failed

inductive PollAnswer where
  | ready
  | interrupted
  | failed

/-- What one turn of the loop meets. -/
structure ClientTurn where
  /-- A change of size was signalled, and this is the size now. -/
  winch : Option (UInt16 × UInt16) := none
  poll : PollAnswer := .ready
  stdin : StdinRead := .silent
  socket : SocketRead := .silent

/-- `in_buf.size()` -/
def kInBuf : Nat := 65536

/-- A read gives no more than there is room for. -/
structure ClientTurn.Legal (t : ClientTurn) : Prop where
  stdin : ∀ bytes, t.stdin = .bytes bytes → bytes.length ≤ kInBuf
  socket : ∀ bytes, t.socket = .bytes bytes → bytes.length ≤ kInBuf

/-! ### One turn -/

namespace ClientRun

variable (alloc : Nat → Nat → Nat) (io : ClientIo)

/-- Send a message; `failure` is the end if it does not go. -/
def send (c : ClientRun) (m : Msg) (failure : Ending) : ClientRun :=
  let (toDaemon, sent) := writeAll io.socketRoom c.toDaemon (encode m)
  { c with
    toDaemon := toDaemon, said := c.said ++ [m], ending := if sent then c.ending else some failure }

def start (hello : Hello) : ClientRun :=
  let (toDaemon, sent) := writeAll io.socketRoom [] (encode (.hello hello))
  { dec := .init alloc, toDaemon := toDaemon, ending := if sent then none else some .helloFailed }

def onWinch (c : ClientRun) : Option (UInt16 × UInt16) → ClientRun
  | none => c
  | some size => c.send io (.resize size.1 size.2) .resizeFailed

def onStdin (c : ClientRun) : StdinRead → ClientRun
  | .silent => c
  | .ended => { c with ending := some .stdinEnded }
  | .bytes bytes =>
      let c := c.send io (.input bytes) .inputFailed
      if c.ending.isSome then c else { c with trace := { c.trace with userActed := true } }

def onMessage (c : ClientRun) : Msg → ClientRun
  | .frame ansi =>
      let (shown, written) := writeAll io.stdoutRoom c.shown ansi
      if written then { c with shown := shown, trace := { c.trace with desktopShown := true } }
      else { c with shown := shown, ending := some .stdoutFailed }
  | .detached reason =>
      { c with ending := some (if reason = kDetachReasonUpdate then .update else .detached reason) }
  | .incompatible reason => { c with ending := some (.incompatible reason) }
  | _ => c

theorem onMessage_dec (c : ClientRun) (m : Msg) : (c.onMessage io m).dec = c.dec := by
  unfold onMessage
  simp only
  repeat' split
  all_goals rfl

/-- The loop over what the decoder has to give. -/
def relay (c : ClientRun) : ClientRun :=
  match _h : c.dec.next alloc with
  | (none, dec) =>
      { c with dec := dec, ending := if dec.failed then some .invalid else c.ending }
  | (some m, dec) =>
      let c' := onMessage io { c with dec := dec } m
      if c'.ending.isSome then c' else relay c'
termination_by c.dec.unread.length
decreasing_by
  rw [onMessage_dec]
  exact (Decoder.next_some alloc ‹_›).2

def onSocket (c : ClientRun) : SocketRead → ClientRun
  | .silent => c
  | .failed => { c with ending := some .readFailed }
  | .closed => { c with ending := some .closed }
  | .bytes bytes => relay alloc io { c with dec := c.dec.feed alloc bytes, heard := c.heard ++ [bytes] }

def turn (c : ClientRun) (t : ClientTurn) : ClientRun :=
  if c.ending.isSome then c
  else
    let c := c.onWinch io t.winch
    if c.ending.isSome then c
    else
      match t.poll with
      | .interrupted => c
      | .failed => { c with ending := some .pollFailed }
      | .ready =>
          let c := c.onStdin io t.stdin
          if c.ending.isSome then c else c.onSocket alloc io t.socket

end ClientRun

/-! ### The daemon's bytes as a whole -/

/-- What the messages show, and the end they announce. -/
def verdict : List Msg → Bytes × Option Ending
  | [] => ([], none)
  | .frame ansi :: ms => (ansi ++ (verdict ms).1, (verdict ms).2)
  | .detached reason :: _ =>
      ([], some (if reason = kDetachReasonUpdate then .update else .detached reason))
  | .incompatible reason :: _ => ([], some (.incompatible reason))
  | _ :: ms => verdict ms

/-- A stream that is broken ends the session. -/
def brokenEnd (rest : Option Bytes) : Option Ending := if rest.isNone then some .invalid else none

/-- The messages of some bytes, and the end of the session if the bytes break the protocol
first. -/
def outcome (bytes : Bytes) : Bytes × Option Ending :=
  let (ms, rest) := framing.drain bytes
  ((verdict ms).1, (verdict ms).2.or (brokenEnd rest))

theorem verdict_append (ms ns : List Msg) :
    verdict (ms ++ ns) =
      match (verdict ms).2 with
      | some e => ((verdict ms).1, some e)
      | none => ((verdict ms).1 ++ (verdict ns).1, (verdict ns).2) := by
  induction ms with
  | nil => rfl
  | cons m ms ih =>
      cases m with
      | frame ansi =>
          simp only [List.cons_append, verdict, ih]
          cases (verdict ms).2 <;> simp
      | detached reason => rfl
      | incompatible reason => rfl
      | hello h => exact ih
      | welcome => exact ih
      | input bytes => exact ih
      | resize cols rows => exact ih

theorem outcome_of_verdict {ms : List Msg} {rest : Option Bytes} {bytes : Bytes}
    (h : framing.drain bytes = (ms, rest)) :
    outcome bytes = ((verdict ms).1, (verdict ms).2.or (brokenEnd rest)) := by
  unfold outcome
  rw [h]

/-! ### The loop over the messages -/

namespace ClientRun

variable (alloc : Nat → Nat → Nat) (io : ClientIo)

theorem writeAll_spec (room : Option Nat) (written bytes : Bytes) :
    ((writeAll room written bytes).2 = true →
        (writeAll room written bytes).1 = written ++ bytes) ∧
      (writeAll room written bytes).1 <+: written ++ bytes := by
  unfold writeAll
  cases room with
  | none => exact ⟨fun _ => rfl, List.prefix_refl _⟩
  | some n =>
      simp only
      split
      · exact ⟨fun _ => rfl, List.prefix_refl _⟩
      · exact ⟨by simp, (List.prefix_append_right_inj written).2 (List.take_prefix _ _)⟩

/-- A message shows what the verdict says of it, unless the terminal refuses. -/
theorem onMessage_cases {c : ClientRun} (hlive : c.ending = none) (m : Msg) :
    let c' := c.onMessage io m
    (c'.shown = c.shown ++ (verdict [m]).1 ∧ c'.ending = (verdict [m]).2) ∨
      (c'.shown <+: c.shown ++ (verdict [m]).1 ∧ c'.ending = some .stdoutFailed) := by
  cases m with
  | frame ansi =>
      obtain ⟨hall, hpart⟩ := writeAll_spec io.stdoutRoom c.shown ansi
      simp only [onMessage, verdict, List.append_nil]
      by_cases hwritten : (writeAll io.stdoutRoom c.shown ansi).2 = true
      · rw [if_pos hwritten]
        exact .inl ⟨hall hwritten, hlive⟩
      · rw [if_neg hwritten]
        exact .inr ⟨hpart, rfl⟩
  | detached reason => exact .inl ⟨(List.append_nil _).symm, rfl⟩
  | incompatible reason => exact .inl ⟨(List.append_nil _).symm, rfl⟩
  | hello h => exact .inl ⟨(List.append_nil _).symm, hlive⟩
  | welcome => exact .inl ⟨(List.append_nil _).symm, hlive⟩
  | input bytes => exact .inl ⟨(List.append_nil _).symm, hlive⟩
  | resize cols rows => exact .inl ⟨(List.append_nil _).symm, hlive⟩

/-- What the relay leaves alone. -/
theorem onMessage_kept (c : ClientRun) (m : Msg) :
    (c.onMessage io m).toDaemon = c.toDaemon ∧ (c.onMessage io m).heard = c.heard ∧
      (c.onMessage io m).said = c.said ∧
      (c.onMessage io m).trace.userActed = c.trace.userActed := by
  unfold onMessage
  simp only
  repeat' split
  all_goals exact ⟨rfl, rfl, rfl, rfl⟩

/-- What the relay makes of a healthy decoder: the verdict on what the framing finds unread,
or a terminal that refused some of it. -/
structure Relayed (c c' : ClientRun) : Prop where
  kept : c'.toDaemon = c.toDaemon ∧ c'.heard = c.heard ∧ c'.said = c.said ∧
    c'.trace.userActed = c.trace.userActed
  shown : c'.ending ≠ some .stdoutFailed →
    (c'.shown, c'.ending) = (c.shown ++ (outcome c.dec.unread).1, (outcome c.dec.unread).2)
  part : c'.shown <+: c.shown ++ (outcome c.dec.unread).1
  live : c'.ending = none → c'.dec.failed = false ∧
    (framing.drain c.dec.unread).2 = some c'.dec.unread

theorem outcome_cons {bytes : Bytes} {n : Nat} {out : Option Msg}
    (h : framing.front bytes = .take n out) :
    outcome bytes =
      match (verdict out.toList).2 with
      | some e => ((verdict out.toList).1, some e)
      | none => ((verdict out.toList).1 ++ (outcome (bytes.drop n)).1, (outcome (bytes.drop n)).2) := by
  unfold outcome
  rw [Framing.drain_of_take h]
  simp only [verdict_append]
  cases (verdict out.toList).2 <;> simp

theorem relay_of_none {c : ClientRun} {dec : Decoder} (h : c.dec.next alloc = (none, dec)) :
    c.relay alloc io =
      { c with dec := dec, ending := if dec.failed then some .invalid else c.ending } := by
  rw [relay]
  split <;> simp_all

theorem relay_of_some {c : ClientRun} {dec : Decoder} {m : Msg}
    (h : c.dec.next alloc = (some m, dec)) :
    c.relay alloc io =
      if (onMessage io { c with dec := dec } m).ending.isSome then onMessage io { c with dec := dec } m
      else relay alloc io (onMessage io { c with dec := dec } m) := by
  rw [relay]
  split <;> simp_all

/-- An envelope that is skipped goes unnoticed. -/
theorem relay_congr {c : ClientRun} {dec : Decoder} (h : c.dec.next alloc = dec.next alloc) :
    c.relay alloc io = relay alloc io { c with dec := dec } := by
  generalize hr : dec.next alloc = r at h
  obtain ⟨m, dec'⟩ := r
  cases m with
  | none => rw [relay_of_none alloc io h, relay_of_none (c := { c with dec := dec }) alloc io hr]
  | some m => rw [relay_of_some alloc io h, relay_of_some (c := { c with dec := dec }) alloc io hr]

theorem relay_relayed {c : ClientRun} (hlive : c.ending = none) (hok : c.dec.failed = false) :
    Relayed c (c.relay alloc io) := by
  induction hn : c.dec.unread.length using Nat.strongRecOn generalizing c with
  | ind n ih =>
      subst hn
      have hstep := Decoder.next_front alloc hok
      generalize hfr : framing.front c.dec.unread = fr at hstep
      cases hstep with
      | needMore heq =>
          have hout := outcome_of_verdict (Framing.drain_of_needMore hfr)
          rw [relay_of_none alloc io heq]
          simp only [hok, hlive, Bool.false_eq_true, if_false]
          refine ⟨⟨rfl, rfl, rfl, rfl⟩, fun _ => ?_, ?_, fun _ => ⟨hok, ?_⟩⟩
          · rw [hout]
            simp [verdict, brokenEnd]
          · rw [hout]
            simp [verdict]
          · rw [Framing.drain_of_needMore hfr]
      | fail dec heq hfailed _ =>
          have hout := outcome_of_verdict (Framing.drain_of_fail hfr)
          rw [relay_of_none alloc io heq]
          simp only [hfailed, if_true]
          refine ⟨⟨rfl, rfl, rfl, rfl⟩, fun _ => ?_, ?_, by simp⟩
          · rw [hout]
            simp [verdict, brokenEnd]
          · rw [hout]
            simp [verdict]
      | skip n dec heq hfine hunread =>
          have hlt : dec.unread.length < c.dec.unread.length := hunread ▸ length_drop_front hfr
          have hrest := ih _ hlt (c := { c with dec := dec }) hlive hfine rfl
          have hout := outcome_cons hfr
          rw [relay_congr alloc io heq]
          simp only [Option.toList_none, verdict, List.nil_append, ← hunread] at hout
          refine ⟨hrest.kept, ?_, ?_, ?_⟩
          · rw [hout]
            exact hrest.shown
          · rw [hout]
            exact hrest.part
          · rw [Framing.drain_of_take hfr, ← hunread]
            exact hrest.live
      | msg n m dec heq hfine hunread =>
          have hlt : dec.unread.length < c.dec.unread.length := hunread ▸ length_drop_front hfr
          have hout := outcome_cons hfr
          rw [Option.toList_some, ← hunread] at hout
          have hkept := onMessage_kept io { c with dec := dec } m
          have hdec := onMessage_dec io { c with dec := dec } m
          have hcases := onMessage_cases io (c := { c with dec := dec }) hlive m
          rw [relay_of_some alloc io heq]
          generalize onMessage io { c with dec := dec } m = c' at hkept hdec hcases
          have hbegins : (verdict [m]).1 <+: (outcome c.dec.unread).1 := by
            rw [hout]
            cases (verdict [m]).2 with
            | some e => exact List.prefix_refl _
            | none => exact List.prefix_append _ _
          rcases hcases with ⟨hshown, hending⟩ | ⟨hshown, hending⟩
          · cases hverdict : (verdict [m]).2 with
            | some e =>
                -- the message ends the session
                rw [hverdict] at hending hout
                rw [if_pos (by rw [hending]; rfl)]
                refine ⟨hkept, fun _ => ?_, ?_, by simp [hending]⟩
                · rw [hshown, hending, hout]
                · rw [hshown, hout]
            | none =>
                -- on to the next one
                rw [hverdict] at hending hout
                obtain rfl : c'.dec = dec := hdec
                rw [if_neg (by simp [hending])]
                have hrest := ih _ hlt hending hfine rfl
                have hassoc : c'.shown ++ (outcome c'.dec.unread).1 =
                    c.shown ++ (outcome c.dec.unread).1 := by
                  rw [hshown, hout, List.append_assoc]
                refine ⟨?_, fun hne => ?_, ?_, ?_⟩
                · have hk := hrest.kept
                  exact ⟨hk.1.trans hkept.1, hk.2.1.trans hkept.2.1, hk.2.2.1.trans hkept.2.2.1,
                    hk.2.2.2.trans hkept.2.2.2⟩
                · rw [hrest.shown hne, hassoc, hout]
                · rw [← hassoc]
                  exact hrest.part
                · rw [Framing.drain_of_take hfr, ← hunread]
                  exact hrest.live
          · -- the terminal refuses it
            rw [if_pos (by rw [hending]; rfl)]
            refine ⟨hkept, fun hne => absurd hending hne, ?_, by simp [hending]⟩
            exact hshown.trans ((List.prefix_append_right_inj c.shown).2 hbegins)

/-! ### Whole sessions -/

/-- What the client shows and how it ends is the outcome of the daemon's bytes, as long as
nothing else ends the session; if something else does, it has shown the beginning. -/
structure Told (c : ClientRun) : Prop where
  live : c.ending = none → c.dec.failed = false ∧
    (framing.drain c.heard.flatten).2 = some c.dec.unread ∧
    outcome c.heard.flatten = (c.shown, none)
  daemon : ∀ e, c.ending = some e → e.ofDaemon = true → outcome c.heard.flatten = (c.shown, some e)
  other : ∀ e, c.ending = some e → e.ofDaemon = false → c.shown <+: (outcome c.heard.flatten).1

theorem outcome_append {as bs rest : Bytes} (hrest : (framing.drain as).2 = some rest)
    (hlive : (outcome as).2 = none) :
    outcome (as ++ bs) =
      ((outcome as).1 ++ (outcome (rest ++ bs)).1, (outcome (rest ++ bs)).2) := by
  unfold outcome at hlive ⊢
  have hnone : brokenEnd (some rest) = none := rfl
  simp only [hrest, hnone, Option.or_none] at hlive
  rw [Framing.drain_append, hrest]
  simp only [Framing.feed, verdict_append, hlive]

/-- What stays on this side of the socket tells nothing, but may end the session. -/
theorem Told.aside {c c' : ClientRun} (h : Told c) (hlive : c.ending = none) (hdec : c'.dec = c.dec)
    (hheard : c'.heard = c.heard) (hshown : c'.shown = c.shown)
    (hending : c'.ending = none ∨ ∃ e, c'.ending = some e ∧ e.ofDaemon = false) : Told c' := by
  obtain ⟨hok, hrest, hout⟩ := h.live hlive
  refine ⟨fun _ => ?_, fun e he hdaemon => ?_, fun e he hother => ?_⟩
  · rw [hdec, hheard, hshown]
    exact ⟨hok, hrest, hout⟩
  · rcases hending with hnone | ⟨e', he', hother⟩
    · rw [hnone] at he
      cases he
    · rw [he'] at he
      cases he
      rw [hdaemon] at hother
      cases hother
  · rw [hheard, hshown, hout]

theorem Told.send {c : ClientRun} (h : Told c) (hlive : c.ending = none) (m : Msg) {e : Ending}
    (he : e.ofDaemon = false) : Told (c.send io m e) := by
  refine h.aside hlive rfl rfl rfl ?_
  show (if (writeAll io.socketRoom c.toDaemon (encode m)).2 then c.ending else some e) = none ∨
    ∃ e', (if (writeAll io.socketRoom c.toDaemon (encode m)).2 then c.ending else some e) = some e' ∧
      e'.ofDaemon = false
  cases (writeAll io.socketRoom c.toDaemon (encode m)).2 with
  | true => exact .inl hlive
  | false => exact .inr ⟨e, rfl, he⟩

theorem Told.onStdin {c : ClientRun} (h : Told c) (hlive : c.ending = none) (read : StdinRead) :
    Told (c.onStdin io read) := by
  cases read with
  | silent => exact h
  | ended => exact h.aside hlive rfl rfl rfl (.inr ⟨_, rfl, rfl⟩)
  | bytes bytes =>
      have hsent := h.send io hlive (.input bytes) (e := .inputFailed) rfl
      unfold ClientRun.onStdin
      simp only
      split
      · exact hsent
      · next hgoes =>
          have hnone : (c.send io (.input bytes) .inputFailed).ending = none := by simpa using hgoes
          exact hsent.aside hnone rfl rfl rfl (.inl hnone)

theorem Told.onSocket {c : ClientRun} (h : Told c) (hlive : c.ending = none) {read : SocketRead}
    (hlegal : ∀ bytes, read = .bytes bytes → bytes.length ≤ kInBuf) :
    Told (c.onSocket alloc io read) := by
  cases read with
  | silent => exact h
  | closed => exact h.aside hlive rfl rfl rfl (.inr ⟨_, rfl, rfl⟩)
  | failed => exact h.aside hlive rfl rfl rfl (.inr ⟨_, rfl, rfl⟩)
  | bytes bytes =>
      obtain ⟨hok, hrest, hout⟩ := h.live hlive
      have hroom : c.dec.unread.length + bytes.length ≤ kMaxBufferBytes := by
        have hshort := front_needMore_length (Framing.drain_rest_front hrest)
        have hbytes := hlegal bytes rfl
        unfold kMaxBufferBytes
        unfold kInBuf at hbytes
        omega
      obtain ⟨hfine, hunread⟩ := Decoder.feed_unread alloc hok hroom
      have hrelayed := relay_relayed alloc io
        (c := { c with dec := c.dec.feed alloc bytes, heard := c.heard ++ [bytes] }) hlive hfine
      show Told (relay alloc io { c with dec := c.dec.feed alloc bytes, heard := c.heard ++ [bytes] })
      generalize relay alloc io
        { c with dec := c.dec.feed alloc bytes, heard := c.heard ++ [bytes] } = c' at hrelayed
      have hheard : c'.heard.flatten = c.heard.flatten ++ bytes := by
        rw [hrelayed.kept.2.1]
        simp
      have hwhole : outcome c'.heard.flatten =
          (c.shown ++ (outcome (c.dec.unread ++ bytes)).1, (outcome (c.dec.unread ++ bytes)).2) := by
        rw [hheard, outcome_append hrest (by rw [hout]), hout]
      have hshown := hrelayed.shown
      have hpart := hrelayed.part
      have hstays := hrelayed.live
      simp only [hunread] at hshown hpart hstays
      refine ⟨fun hnone => ?_, fun e he hdaemon => ?_, fun e he hother => ?_⟩
      · obtain ⟨hfine', hrest'⟩ := hstays hnone
        refine ⟨hfine', ?_, ?_⟩
        · rw [hheard, Framing.drain_append, hrest]
          exact hrest'
        · rw [hwhole, ← hshown (by simp [hnone]), hnone]
      · rw [hwhole, ← hshown, he]
        rintro hfailed
        rw [hfailed] at he
        cases he
        cases hdaemon
      · rw [hwhole]
        exact hpart

theorem Told.turn {c : ClientRun} (h : Told c) {t : ClientTurn} (hlegal : t.Legal) :
    Told (c.turn alloc io t) := by
  unfold ClientRun.turn
  split
  · exact h
  · next hgoes =>
      have hlive : c.ending = none := by simpa using hgoes
      simp only
      have hresized : Told (c.onWinch io t.winch) := by
        cases t.winch with
        | none => exact h
        | some size => exact h.send io hlive (.resize size.1 size.2) rfl
      generalize c.onWinch io t.winch = c₁ at hresized ⊢
      split
      · exact hresized
      · next hgoes₁ =>
          have hlive₁ : c₁.ending = none := by simpa using hgoes₁
          split
          · exact hresized
          · exact hresized.aside hlive₁ rfl rfl rfl (.inr ⟨_, rfl, rfl⟩)
          · have htyped := hresized.onStdin io hlive₁ t.stdin
            generalize c₁.onStdin io t.stdin = c₂ at htyped ⊢
            split
            · exact htyped
            · next hgoes₂ => exact htyped.onSocket alloc io (by simpa using hgoes₂) hlegal.socket

theorem Told.start (hello : Hello) : Told (ClientRun.start alloc io hello) := by
  have hnil : framing.drain [] = ([], some []) := Framing.drain_of_needMore framing.front_nil
  have hout : outcome [] = ([], none) := by
    rw [outcome_of_verdict hnil]
    rfl
  refine ⟨fun _ => ⟨rfl, ?_, hout⟩, fun e he hdaemon => ?_, fun _ _ _ => List.nil_prefix⟩
  · show (framing.drain []).2 = _
    rw [hnil]
    rfl
  · have hcase : (if (writeAll io.socketRoom [] (encode (.hello hello))).2 then none
        else some Ending.helloFailed) = some e := he
    split at hcase
    · cases hcase
    · cases hcase
      cases hdaemon

/-- **The client relays the daemon faithfully**, wherever the daemon's bytes are cut and
whatever happens in between: what it has shown and how it ends is told by those bytes put
together. A session that ends for another reason has shown the beginning of it. -/
theorem client_relays (hello : Hello) {turns : List ClientTurn} (hlegal : ∀ t ∈ turns, t.Legal) :
    let c := run (ClientRun.turn alloc io) (ClientRun.start alloc io hello) turns
    (c.ending = none → outcome c.heard.flatten = (c.shown, none)) ∧
      (∀ e, c.ending = some e → e.ofDaemon = true → outcome c.heard.flatten = (c.shown, some e)) ∧
      ∀ e, c.ending = some e → e.ofDaemon = false → c.shown <+: (outcome c.heard.flatten).1 := by
  intro c
  have htold : Told c := by
    have hstep : ∀ c t, Told c → t.Legal → Told (ClientRun.turn alloc io c t) :=
      fun c t hc ht => hc.turn alloc io ht
    exact run_invariant hstep (.start alloc io hello) (StepsMeet.of_forall (fun t ht _ => hlegal t ht) _)
  exact ⟨fun hnone => (htold.live hnone).2.2, htold.daemon, htold.other⟩

/-- A frame cut in its envelope, a key in between, and a farewell behind the frame. -/
theorem client_relays_cut :
    let bytes := encode (.frame [0x41]) ++ encode (.detached kDetachReasonUpdate)
    let c := run (ClientRun.turn max {}) (ClientRun.start max {} { cols := 80, rows := 24 })
      [{ socket := .bytes (bytes.take 3) }, { stdin := .bytes [0x78] },
        { socket := .bytes (bytes.drop 3) }]
    (c.ending = none → outcome c.heard.flatten = (c.shown, none)) ∧
      (∀ e, c.ending = some e → e.ofDaemon = true → outcome c.heard.flatten = (c.shown, some e)) ∧
      ∀ e, c.ending = some e → e.ofDaemon = false → c.shown <+: (outcome c.heard.flatten).1 := by
  have hlength : (encode (.frame [0x41]) ++ encode (.detached kDetachReasonUpdate)).length ≤ kInBuf := by
    unfold kDetachReasonUpdate
    rw [Shell.text_ofList]
    decide
  refine client_relays max {} { cols := 80, rows := 24 } fun t ht => ?_
  simp only [List.mem_cons, List.not_mem_nil, or_false] at ht
  obtain rfl | rfl | rfl := ht
  · refine ⟨by simp, fun bytes hbytes => ?_⟩
    cases hbytes
    exact Nat.le_trans (List.length_take_le _ _) (by decide)
  · refine ⟨fun bytes hbytes => ?_, by simp⟩
    cases hbytes
    decide
  · refine ⟨by simp, fun bytes hbytes => ?_⟩
    cases hbytes
    exact Nat.le_trans (by simp) hlength

end ClientRun

end Sshos.Client
