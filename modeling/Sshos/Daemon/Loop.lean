import Sshos.Common.OutQueue
import Sshos.Daemon.Connection
import Sshos.Daemon.Host
import Sshos.Shell.Modal

/-!
# Sshos.Daemon.Loop

The **loop of the daemon**: one turn after the other, what wakes it, the events epoll hands
over, and what is owed at the end of a turn.

A connection that is accepted is *pending* until it says a compatible `Hello`; then it
takes the place of the *client*. At any time there is at most one of each. Which of the two
an event is for is told by its key, and the descriptors behind the keys play no part here:
events come for whatever key, at whatever time.

What the session does when it is called is a parameter, and so are the input parser and the
frames; the windows and the watches of their applications are those of `Hosts`.
-/

namespace Sshos.Daemon

open Sshos.Lib (Bytes run StepsMeet)
open Sshos.Common
open Sshos.Shell (text)

universe u

variable {P E D R : Type u}

/-! ### The parts of the program the loop calls -/

/-- What the loop asks of the session. -/
inductive Call (E : Type u) where
  | input (e : E)
  | resize (cols rows : UInt16)
  | setOutput (h : Hello)
  | cancelDrag
  | tickUpdate
  | refreshDue
  | childrenDied
  | render
  /-- The application's `on_io`. -/
  | onIo (app : Nat) (key : UInt64) (events : UInt32)

/-- The parts of the program that are called, on their own states: `P` of an input parser,
`D` of a differ, `R` of the session without its watches. -/
structure Parts (P E D R : Type u) where
  alloc : Nat → Nat → Nat
  fresh : P
  feed : P → Bytes → List E × P
  timeout : P → List E × P
  escPending : P → Bool
  differ : Hello → D
  invalidate : D → D
  /-- The frame that brings the client's screen to what the session shows. -/
  frame : R → D → Bytes × D
  /-- A call of the session, and what it does to the windows and their watches. -/
  call : Call E → R → R × List Hosts.Op
  takeDirty : R → Bool × R
  takeDetach : R → Bool × R
  takeRepaint : R → Bool × R
  wantsUpdateRestart : R → Bool
  wantsQuit : R → Bool
  updateDue : R → Nat → Bool
  /-- Negative: nothing asks to be refreshed. -/
  refreshDelay : R → Int

/-! ### The state of the loop -/

/-- `FrameClock`: something is to be drawn, and when the last frame was. -/
structure FrameClock where
  dirty : Bool := false
  last : Option Nat := none
  deriving DecidableEq

def kFrameInterval : Nat := 33

/-- A frame is due at once. -/
def FrameClock.due (c : FrameClock) (now : Nat) : Bool :=
  c.dirty && match c.last with
    | none => true
    | some last => decide (kFrameInterval ≤ now - last)

def FrameClock.markDirty (c : FrameClock) : FrameClock := { c with dirty := true }

def kPendingHelloTimeout : Nat := 5000
def kEscAmbiguity : Nat := 50

/-- A connection, pending or attached. -/
structure Client (P D : Type u) where
  key : UInt64
  dec : Decoder
  input : P
  out : OutQueue := .init kBackpressureCeiling
  differ : Option D := none
  cols : UInt16 := 80
  rows : UInt16 := 24
  /-- All that was read from the socket. -/
  received : Bytes := []

structure Seat (R : Type u) where
  hosts : Hosts := {}
  rest : R

structure Loop (P D R : Type u) where
  session : Seat R
  client : Option (Client P D) := none
  pending : Option (Client P D) := none
  pendingDeadline : Nat := 0
  nextGen : UInt32 := kGenFirstDynamic
  closedThisBatch : List UInt64 := []
  clock : FrameClock := {}
  escArmed : Bool := false
  escDeadline : Nat := 0
  lastRefresh : Nat := 0
  screen : UInt16 × UInt16 := (80, 24)
  listening : Bool := true
  running : Bool := true
  /-- The loop was left. -/
  finished : Bool := false
  /-- The keys of the connections accepted, and of those closed, since the start. -/
  accepted : List UInt64 := []
  closed : List UInt64 := []
  /-- What connections were told on being closed. -/
  lastWords : List (UInt64 × Msg) := []

/-! ### What comes in -/

/-- What wakes the loop up, with the clock as it is read. -/
structure Wake where
  escNow : Nat
  updateNow : Nat
  refreshNow : Nat

/-- One event of epoll, with what the calls made on its account answer. -/
structure EpollEvent where
  key : UInt64
  events : UInt32 := 0
  /-- What the socket holds, one `read` after the other, and whether the last one found the
  end or an error. -/
  reads : List Bytes := []
  ended : Bool := false
  /-- What the socket takes. -/
  sends : List SendResult := []
  /-- On the listener: a peer of ours is accepted, at this time. -/
  accepts : Option Nat := none
  /-- On the signals: the daemon is told to stop, a child died. -/
  terminated : Bool := false
  childDied : Bool := false

def kEpollIn : UInt32 := 0x001
def kEpollOut : UInt32 := 0x004
def kEpollErr : UInt32 := 0x008
def kEpollHup : UInt32 := 0x010

namespace EpollEvent

def readable (e : EpollEvent) : Bool := e.events &&& kEpollIn != 0
def writable (e : EpollEvent) : Bool := e.events &&& kEpollOut != 0

/-- The peer is gone: the socket says so, or reading it does. -/
def hangsUp (e : EpollEvent) : Bool :=
  (e.readable && e.ended) || e.events &&& (kEpollHup ||| kEpollErr) != 0

end EpollEvent

/-- The end of a turn: the clock as it is read, and what the socket takes of a frame. -/
structure Tail where
  deadlineNow : Nat
  frameNow : Nat
  sends : List SendResult := []

inductive Input where
  | wake (w : Wake)
  | event (e : EpollEvent)
  | tail (t : Tail)
  /-- `epoll_wait` fails for good. -/
  | broken

namespace Loop

variable (A : Parts P E D R) (s : Loop P D R)

/-! ### Calling the session -/

def call (c : Call E) : Loop P D R :=
  let (rest, ops) := A.call c s.session.rest
  { s with session := ⟨run Hosts.step s.session.hosts ops, rest⟩ }

/-- Hand events of the input over, one after the other. -/
def callInputs (es : List E) : Loop P D R := es.foldl (fun s e => s.call A (.input e)) s

def markDirty : Loop P D R := { s with clock := s.clock.markDirty }

/-- `Session::on_fd_event`. -/
def onFdEvent (key : UInt64) (events : UInt32) : Loop P D R :=
  match s.session.hosts.onFdEvent key with
  | none => s
  | some app => s.call A (.onIo app key events)

/-! ### Connections come and go -/

/-- Dismiss the client, telling it why unless it is past hearing. -/
def dropClient (reason : Option Bytes) : Loop P D R :=
  match s.client with
  | none => s
  | some c =>
      ({ s with
        client := none
        closedThisBatch := s.closedThisBatch ++ [c.key]
        closed := s.closed ++ [c.key]
        lastWords := s.lastWords ++ (reason.map fun r => (c.key, Msg.detached r)).toList
        clock := {} } : Loop P D R).call A .cancelDrag

def dropPending : Loop P D R :=
  match s.pending with
  | none => s
  | some p =>
      { s with
        pending := none
        closedThisBatch := s.closedThisBatch ++ [p.key]
        closed := s.closed ++ [p.key] }

/-- A peer is accepted: it takes the place of the one pending. -/
def accept (now : Nat) : Loop P D R :=
  let s := s.dropPending
  let key := makeKey 0 s.nextGen
  { s with
    pending := some { key := key, dec := .init A.alloc, input := A.fresh }
    nextGen := s.nextGen + 1
    pendingDeadline := now + kPendingHelloTimeout
    accepted := s.accepted ++ [key] }

/-- Read all that the socket holds into the decoder. -/
def drainSocket (c : Client P D) (e : EpollEvent) : Client P D :=
  { c with
    dec := e.reads.foldl (Decoder.feed A.alloc) c.dec
    received := c.received ++ e.reads.flatten }

/-- The client's message. -/
def handle (s : Loop P D R) (m : Msg) : Loop P D R :=
  match s.client, m with
  | some c, .input bytes =>
      let (es, input) := A.feed c.input bytes
      (({ s with client := some { c with input := input } } : Loop P D R).callInputs A es).markDirty
  | some c, .resize cols rows =>
      let c := { c with cols := cols, rows := rows, differ := c.differ.map A.invalidate }
      (({ s with client := some c, screen := (cols, rows) } : Loop P D R).call A
        (.resize cols rows)).markDirty
  | _, _ => s

/-- The client's socket takes bytes again. `false`: it is gone. -/
def flushClient (c : Client P D) (sends : List SendResult) : Bool × Loop P D R :=
  let (ok, out) := c.out.flush sends
  (ok, { s with client := some { c with out := out } })

/-- Read the client's socket and do what its messages say. `false`: it broke the
protocol. -/
def readClient (c : Client P D) (e : EpollEvent) : Bool × Loop P D R :=
  let c := drainSocket A c e
  let (ms, dec) := c.dec.drain A.alloc
  let s := ms.foldl (handle A) { s with client := some { c with dec := dec } }
  (!dec.failed, s)

/-- What the client's socket holds is read before a hang-up is looked at. -/
def readOn (c : Client P D) (e : EpollEvent) : Loop P D R :=
  let r := if e.readable then s.readClient A c e else (true, s)
  if !r.1 then r.2.dropClient A (text "message de protocole invalide")
  else if e.hangsUp then r.2.dropClient A none
  else r.2

/-- An event for the client. -/
def onClient (c : Client P D) (e : EpollEvent) : Loop P D R :=
  let r := if e.writable then s.flushClient c e.sends else (true, s)
  if !r.1 then r.2.dropClient A none
  else
    match r.2.client with
    | none => r.2
    | some c => r.2.readOn A c e

/-- The pending connection takes the client's place. -/
def promote (p : Client P D) (h : Hello) : Loop P D R :=
  let s := s.dropClient A (text "un autre client a pris la main")
  let p := { p with
    cols := h.cols, rows := h.rows, differ := some (A.differ h), out := p.out.push (encode .welcome) }
  let s : Loop P D R := { s with client := some p, pending := none }
  let s := s.call A (.setOutput h)
  let s : Loop P D R := { s with screen := (h.cols, h.rows) }
  ((s.call A (.resize h.cols h.rows)).call A .cancelDrag).markDirty

/-- The pending connection is told that its build is not ours. -/
def turnAway (p : Client P D) : Loop P D R :=
  ({ s with lastWords := s.lastWords ++
      [(p.key, .incompatible (text "version du demon differente : relancez `termos --kill`"))] } :
    Loop P D R).dropPending

def hangPending (e : EpollEvent) : Loop P D R := if e.hangsUp then s.dropPending else s

/-- An event for the pending connection: of what it says, only the first `Hello` counts. -/
def onPending (p : Client P D) (e : EpollEvent) : Loop P D R :=
  if !e.readable then s.hangPending e
  else
    let p := drainSocket A p e
    let (ms, dec) := p.dec.drain A.alloc
    let p := { p with dec := dec }
    let s : Loop P D R := { s with pending := some p }
    if dec.failed then s.dropPending
    else
      match Connection.helloSeen ms with
      | none => s.hangPending e
      | some h => if h.buildId ≠ kBuildId then s.turnAway p else s.promote A p h

/-- An event for neither the client nor the daemon itself. -/
def onOther (e : EpollEvent) : Loop P D R :=
  match s.pending with
  | none => s.onFdEvent A e.key e.events
  | some p => if e.key = p.key then s.onPending A p e else s.onFdEvent A e.key e.events

/-- The signals that came, read to the last. -/
def onSignals (e : EpollEvent) : Loop P D R :=
  let s : Loop P D R := if e.terminated then { s with running := false } else s
  if e.childDied then s.call A .childrenDied else s

/-- One event of epoll. -/
def onEvent (e : EpollEvent) : Loop P D R :=
  if e.key = makeKey 0 kGenSignal then s.onSignals A e
  else if e.key = makeKey 0 kGenTimer then s
  else if e.key = makeKey 0 kGenListener then
    match e.accepts with
    | none => s
    | some now => s.accept A now
  else if e.key ∈ s.closedThisBatch then s
  else
    match s.client with
    | none => s.onOther A e
    | some c => if e.key = c.key then s.onClient A c e else s.onOther A e

/-! ### The turn around the events -/

/-- A lone escape has waited long enough for what might have followed it. -/
def checkEsc (now : Nat) : Loop P D R :=
  match s.client with
  | none => { s with escArmed := false }
  | some c =>
      if !A.escPending c.input then { s with escArmed := false }
      else if !s.escArmed then { s with escArmed := true, escDeadline := now + kEscAmbiguity }
      else if now ≥ s.escDeadline then
        let (es, input) := A.timeout c.input
        let s := ({ s with client := some { c with input := input } } : Loop P D R).callInputs A es
        { s.markDirty with escArmed := false }
      else s

/-- The daily check of the update service. -/
def tickIfDue (now : Nat) : Loop P D R :=
  if A.updateDue s.session.rest now then s.call A .tickUpdate else s

/-- Something asks to be refreshed, and its time has come; not without a client. -/
def refreshDue (now : Nat) : Bool :=
  let delay := if s.client.isSome then A.refreshDelay s.session.rest else -1
  delay ≥ 0 && max 0 (delay - ((now - s.lastRefresh : Nat) : Int)) == 0

def refreshIfDue (now : Nat) : Loop P D R :=
  if s.refreshDue A now then { (s.call A .refreshDue).markDirty with lastRefresh := now } else s

/-- A turn begins: what is due before epoll is asked. -/
def wake (w : Wake) : Loop P D R :=
  let s : Loop P D R := { s with closedThisBatch := [] }
  ((s.checkEsc A w.escNow).tickIfDue A w.updateNow).refreshIfDue A w.refreshNow

/-- Render, and queue the frame for the client. -/
def drawFrame (c : Client P D) (d : D) (now : Nat) : OutQueue × D × Loop P D R :=
  let s := s.call A .render
  let (repaint, rest) := A.takeRepaint s.session.rest
  let (ansi, d) := A.frame rest (if repaint then A.invalidate d else d)
  let out := if ansi.isEmpty then c.out else c.out.push (encode (.frame ansi))
  (out, d, { s with
    session := { s.session with rest := rest }
    clock := { dirty := false, last := some now } })

/-- The client's frame, when one is due. -/
def compose (t : Tail) : Loop P D R :=
  match s.client with
  | none => s
  | some c =>
      match c.differ with
      | none => s
      | some d =>
          if !s.clock.due t.frameNow then s
          else
            let (out, d, s) := s.drawFrame A c d t.frameNow
            let (overflow, out) := out.takeOverflow
            if overflow = .dirty then
              ({ s with client := some { c with differ := some d, out := out } } : Loop P D R).dropClient A
                none
            else
              let d := if overflow = .clean then A.invalidate d else d
              let s := if overflow = .clean then s.markDirty else s
              let (ok, s) := s.flushClient { c with differ := some d, out := out } t.sends
              if ok then s else s.dropClient A none

/-- A pending connection that stays silent too long is closed. -/
def expirePending (t : Tail) : Loop P D R :=
  if s.pending.isSome ∧ t.deadlineNow ≥ s.pendingDeadline then s.dropPending else s

def noteDirty : Loop P D R :=
  let (dirty, rest) := A.takeDirty s.session.rest
  let s : Loop P D R := { s with session := { s.session with rest := rest } }
  if dirty then s.markDirty else s

def detachIfAsked : Loop P D R :=
  let (detach, rest) := A.takeDetach s.session.rest
  let s : Loop P D R := { s with session := { s.session with rest := rest } }
  if detach then s.dropClient A (text "detache, la session continue") else s

def kDetachReasonUpdate : Bytes := text "mise a jour"

/-- The listener is closed first: a client told to come back must not find it. -/
def restartIfAsked : Loop P D R :=
  if A.wantsUpdateRestart s.session.rest then
    { ({ s with listening := false } : Loop P D R).dropClient A kDetachReasonUpdate with
      running := false }
  else s

def quitIfAsked : Loop P D R :=
  if A.wantsQuit s.session.rest then { s with running := false } else s

/-- The loop is left, and the client with it. -/
def leave : Loop P D R := { s.dropClient A (text "le demon s'arrete") with finished := true }

/-- What comes before the frame at the end of a turn. -/
def beforeFrame (t : Tail) : Loop P D R := ((s.expirePending t).noteDirty A).detachIfAsked A

/-- After the events: what is owed once a turn. -/
def tail (t : Tail) : Loop P D R :=
  let s := (((s.beforeFrame A t).compose A t).restartIfAsked A).quitIfAsked A
  if s.running then s else s.leave A

def step (s : Loop P D R) (i : Input) : Loop P D R :=
  if s.finished then s
  else
    match i with
    | .wake w => s.wake A w
    | .event e => s.onEvent A e
    | .tail t => s.tail A t
    | .broken => s.leave A

end Loop

end Sshos.Daemon
