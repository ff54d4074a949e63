import Sshos.Client.Client
import Sshos.Daemon.Connection

/-!
# Sshos.Client.Linked

The client **and the daemon** at the two ends of the socket. Whatever the client meets, what
it has written is the beginning of a conforming stream; so the daemon's connection keeps it,
wherever its bytes are batched, and what reaches the session is a stretch of what the client
was given to send.
-/

namespace Sshos.Client

open Sshos.Common
open Sshos.Daemon (Connection)
open Sshos.Daemon.Connection (Conforming ForSession Fits bytesOf companions Served)
open Sshos.Lib

universe u v

/-! ### What the client writes -/

namespace ClientRun

variable (alloc : Nat → Nat → Nat) (io : ClientIo)

/-- The client has written the beginning of a conforming stream. -/
structure Speaks (hello : Hello) (c : ClientRun) : Prop where
  stream : c.toDaemon <+: Connection.stream hello c.said
  whole : c.ending = none → c.toDaemon = Connection.stream hello c.said
  session : ∀ m ∈ c.said, ForSession m
  fits : ∀ m ∈ c.said, (bodyOf m).2.length ≤ kMaxMessageBytes

variable {hello : Hello} {c : ClientRun}

theorem stream_concat (hello : Hello) (ms : List Msg) (m : Msg) :
    Connection.stream hello (ms ++ [m]) = Connection.stream hello ms ++ encode m := by
  unfold Connection.stream
  rw [← List.cons_append, List.map_append, List.flatten_append]
  simp

theorem Speaks.aside {c' : ClientRun} (h : Speaks hello c) (hsent : c'.toDaemon = c.toDaemon)
    (hsaid : c'.said = c.said) (hending : c'.ending = none → c.ending = none) :
    Speaks hello c' := by
  refine ⟨?_, fun hnone => ?_, ?_, ?_⟩
  · rw [hsent, hsaid]
    exact h.stream
  · rw [hsent, hsaid]
    exact h.whole (hending hnone)
  · rw [hsaid]
    exact h.session
  · rw [hsaid]
    exact h.fits

theorem Speaks.send (h : Speaks hello c) (hlive : c.ending = none) {m : Msg} (hm : ForSession m)
    (hfits : (bodyOf m).2.length ≤ kMaxMessageBytes) (e : Ending) : Speaks hello (c.send io m e) := by
  obtain ⟨hall, hpart⟩ := writeAll_spec io.socketRoom c.toDaemon (encode m)
  rw [h.whole hlive] at hall hpart
  have hsaid : ∀ x ∈ c.said ++ [m], x ∈ c.said ∨ x = m := by simp
  refine ⟨?_, fun hnone => ?_, fun x hx => ?_, fun x hx => ?_⟩
  · show (writeAll io.socketRoom c.toDaemon (encode m)).1 <+: Connection.stream hello (c.said ++ [m])
    rw [stream_concat, h.whole hlive]
    exact hpart
  · have hsent : (writeAll io.socketRoom c.toDaemon (encode m)).2 = true := by
      by_contra hnot
      have hsome : (if (writeAll io.socketRoom c.toDaemon (encode m)).2 then c.ending else some e) =
        none := hnone
      rw [if_neg hnot] at hsome
      cases hsome
    show (writeAll io.socketRoom c.toDaemon (encode m)).1 = Connection.stream hello (c.said ++ [m])
    rw [stream_concat, h.whole hlive]
    rw [h.whole hlive] at hsent
    exact hall hsent
  · rcases hsaid x hx with hx | rfl
    · exact h.session x hx
    · exact hm
  · rcases hsaid x hx with hx | rfl
    · exact h.fits x hx
    · exact hfits

/-- The relay writes to the terminal alone. -/
theorem relay_kept (c : ClientRun) :
    (c.relay alloc io).toDaemon = c.toDaemon ∧ (c.relay alloc io).said = c.said := by
  induction hn : c.dec.unread.length using Nat.strongRecOn generalizing c with
  | ind n ih =>
      subst hn
      generalize hnext : c.dec.next alloc = r
      obtain ⟨m, dec⟩ := r
      cases m with
      | none =>
          rw [relay_of_none alloc io hnext]
          exact ⟨rfl, rfl⟩
      | some m =>
          have hkept := onMessage_kept io { c with dec := dec } m
          have hdec := onMessage_dec io { c with dec := dec } m
          have hlt := (Decoder.next_some alloc hnext).2
          rw [relay_of_some alloc io hnext]
          split
          · exact ⟨hkept.1, hkept.2.2.1⟩
          · obtain ⟨hsent, hsaid⟩ := ih _ (by rw [hdec]; exact hlt) _ rfl
            exact ⟨hsent.trans hkept.1, hsaid.trans hkept.2.2.1⟩

theorem Speaks.onStdin (h : Speaks hello c) (hlive : c.ending = none) {read : StdinRead}
    (hlegal : ∀ bytes, read = .bytes bytes → bytes.length ≤ kInBuf) :
    Speaks hello (c.onStdin io read) := by
  cases read with
  | silent => exact h
  | ended => exact h.aside rfl rfl fun hnone => by cases hnone
  | bytes bytes =>
      have hfits : (bodyOf (.input bytes)).2.length ≤ kMaxMessageBytes := by
        have hlen := hlegal bytes rfl
        show (putStr bytes).length ≤ _
        rw [length_putStr]
        unfold kInBuf at hlen
        unfold kMaxMessageBytes
        omega
      have hsent := h.send io hlive (m := .input bytes) trivial hfits .inputFailed
      unfold ClientRun.onStdin
      simp only
      split
      · exact hsent
      · exact hsent.aside rfl rfl id

theorem Speaks.onSocket (h : Speaks hello c) (hlive : c.ending = none) (read : SocketRead) :
    Speaks hello (c.onSocket alloc io read) := by
  cases read with
  | silent => exact h
  | closed => exact h.aside rfl rfl fun hnone => by cases hnone
  | failed => exact h.aside rfl rfl fun hnone => by cases hnone
  | bytes bytes =>
      obtain ⟨hsent, hsaid⟩ := relay_kept alloc io
        { c with dec := c.dec.feed alloc bytes, heard := c.heard ++ [bytes] }
      exact h.aside hsent hsaid fun _ => hlive

theorem Speaks.turn (h : Speaks hello c) {t : ClientTurn} (hlegal : t.Legal) :
    Speaks hello (c.turn alloc io t) := by
  unfold ClientRun.turn
  split
  · exact h
  · next hgoes =>
      have hlive : c.ending = none := by simpa using hgoes
      simp only
      have hresized : Speaks hello (c.onWinch io t.winch) := by
        cases t.winch with
        | none => exact h
        | some size =>
            exact h.send io hlive (m := .resize size.1 size.2) trivial
              (show 4 ≤ kMaxMessageBytes by decide) .resizeFailed
      generalize c.onWinch io t.winch = c₁ at hresized ⊢
      split
      · exact hresized
      · next hgoes₁ =>
          have hlive₁ : c₁.ending = none := by simpa using hgoes₁
          split
          · exact hresized
          · exact hresized.aside rfl rfl fun hnone => by cases hnone
          · have htyped := hresized.onStdin io hlive₁ hlegal.stdin
            generalize c₁.onStdin io t.stdin = c₂ at htyped ⊢
            split
            · exact htyped
            · next hgoes₂ => exact htyped.onSocket alloc io (by simpa using hgoes₂) t.socket

theorem Speaks.start (hello : Hello) : Speaks hello (ClientRun.start alloc io hello) := by
  obtain ⟨hall, hpart⟩ := writeAll_spec io.socketRoom [] (encode (.hello hello))
  have hstream : Connection.stream hello [] = encode (.hello hello) := by simp [Connection.stream]
  refine ⟨?_, fun hnone => ?_, by simp [ClientRun.start], by simp [ClientRun.start]⟩
  · show (writeAll io.socketRoom [] (encode (.hello hello))).1 <+: Connection.stream hello []
    rw [hstream]
    exact hpart
  · show (writeAll io.socketRoom [] (encode (.hello hello))).1 = Connection.stream hello []
    rw [hstream]
    refine hall ?_
    by_contra hnot
    have hsome : (if (writeAll io.socketRoom [] (encode (.hello hello))).2 then none
      else some Ending.helloFailed) = none := hnone
    rw [if_neg hnot] at hsome
    cases hsome

theorem run_speaks (hello : Hello) {turns : List ClientTurn} (hlegal : ∀ t ∈ turns, t.Legal) :
    Speaks hello (run (ClientRun.turn alloc io) (ClientRun.start alloc io hello) turns) := by
  have hstep : ∀ c t, Speaks hello c → t.Legal → Speaks hello (ClientRun.turn alloc io c t) :=
    fun c t hc ht => hc.turn alloc io ht
  exact run_invariant hstep (.start alloc io hello) (StepsMeet.of_forall (fun t ht _ => hlegal t ht) _)

end ClientRun

/-! ### What the daemon makes of it -/

section Daemon

variable {P : Type u} {E : Type v} (alloc : Nat → Nat → Nat) (feed : P → Bytes → List E × P) (fresh : P)

/-- What comes byte by byte fits. -/
theorem fits_bytewise {hello : Hello} {ms : List Msg} (hc : Conforming hello ms) {before rest : Bytes}
    (h : before ++ rest = Connection.stream hello ms) : Fits before (rest.map fun b => [[b]]) := by
  induction rest generalizing before with
  | nil => trivial
  | cons b rest ih =>
      obtain ⟨⟨r, hr⟩, -⟩ := Connection.drain_prefix hc h
      refine ⟨?_, ih (by simpa using h)⟩
      have hshort := front_needMore_length (Framing.drain_rest_front hr)
      unfold Connection.unfinished kMaxBufferBytes
      rw [hr]
      simp only [Option.getD_some, List.flatten_cons, List.flatten_nil, List.append_nil,
        List.length_singleton]
      omega

theorem fits_append {before : Bytes} {batches more : List (List Bytes)} (h : Fits before batches)
    (hmore : Fits (before ++ bytesOf batches) more) : Fits before (batches ++ more) := by
  induction batches generalizing before with
  | nil => simpa [bytesOf] using hmore
  | cons reads batches ih =>
      refine ⟨h.1, ih h.2 ?_⟩
      rwa [Connection.bytesOf_cons, ← List.append_assoc] at hmore

/-- Neither closed nor turned away. -/
def Open (d : Connection P E) : Prop := d.role = .pending ∨ d.role = .attached

/-- What a connection keeps to, whatever it receives: it forgets nothing that it has handled,
its events are those of what it has handled, and once it is closed it stays so. -/
structure Grows (d d' : Connection P E) : Prop where
  handled : d.handled <+: d'.handled
  stays : Open d' → Open d
  parsed : (d.events, d.input) = Connection.parse feed fresh d.handled →
    (d'.events, d'.input) = Connection.parse feed fresh d'.handled

variable {feed fresh}

theorem Grows.refl (d : Connection P E) : Grows feed fresh d d := ⟨List.prefix_refl _, id, id⟩

theorem Grows.trans {d d' d'' : Connection P E} (h : Grows feed fresh d d')
    (h' : Grows feed fresh d' d'') : Grows feed fresh d d'' :=
  ⟨h.handled.trans h'.handled, fun hd => h.stays (h'.stays hd), fun hp => h'.parsed (h.parsed hp)⟩

/-- One that has done nothing but read and decide. -/
theorem Grows.of_same {d d' : Connection P E} (hhandled : d'.handled = d.handled)
    (hevents : d'.events = d.events) (hinput : d'.input = d.input) (hopen : Open d) :
    Grows feed fresh d d' := by
  refine ⟨by rw [hhandled], fun _ => hopen, fun hp => ?_⟩
  rw [hevents, hinput, hhandled]
  exact hp

theorem parse_concat (p : P) (ms : List Msg) (m : Msg) :
    Connection.parse feed p (ms ++ [m]) =
      ((Connection.parse feed p ms).1 ++ (Connection.parse feed (Connection.parse feed p ms).2 [m]).1,
        (Connection.parse feed (Connection.parse feed p ms).2 [m]).2) :=
  Connection.parse_append feed p ms [m]

theorem grows_handle (d : Connection P E) (m : Msg) : Grows feed fresh d (d.handle feed m) := by
  cases m with
  | input bytes =>
      refine ⟨List.prefix_append _ _, id, fun hp => ?_⟩
      have hin : (Connection.parse feed fresh d.handled).2 = d.input := by rw [← hp]
      have hev : (Connection.parse feed fresh d.handled).1 = d.events := by rw [← hp]
      show (d.events ++ (feed d.input bytes).1, (feed d.input bytes).2) = _
      rw [show (d.handle feed (.input bytes)).handled = d.handled ++ [.input bytes] from rfl,
        parse_concat, hin, hev]
      simp [Connection.parse]
  | resize cols rows =>
      refine ⟨List.prefix_append _ _, id, fun hp => ?_⟩
      have hin : (Connection.parse feed fresh d.handled).2 = d.input := by rw [← hp]
      have hev : (Connection.parse feed fresh d.handled).1 = d.events := by rw [← hp]
      show (d.events, d.input) = _
      rw [show (d.handle feed (.resize cols rows)).handled = d.handled ++ [.resize cols rows] from rfl,
        parse_concat, hin, hev]
      simp [Connection.parse]
  | hello h => exact .refl d
  | welcome => exact .refl d
  | incompatible reason => exact .refl d
  | detached reason => exact .refl d
  | frame ansi => exact .refl d

theorem grows_handles (d : Connection P E) (ms : List Msg) :
    Grows feed fresh d (ms.foldl (Connection.handle feed) d) := by
  induction ms generalizing d with
  | nil => exact .refl d
  | cons m ms ih => exact (grows_handle d m).trans (ih (d.handle feed m))

theorem grows_onReadable (d : Connection P E) (reads : List Bytes) :
    Grows feed fresh d (d.onReadable alloc feed reads) := by
  unfold Connection.onReadable
  cases hrole : d.role with
  | dropped => exact .refl d
  | refused => exact .refl d
  | pending =>
      have hopen : Open d := .inl hrole
      unfold Connection.onPending
      simp only
      repeat' split
      all_goals exact .of_same rfl rfl rfl hopen
  | attached =>
      have hopen : Open d := .inr hrole
      unfold Connection.onAttached Connection.drainSocket
      simp only
      have hread : Grows feed fresh d
          { d with dec := ((reads.foldl (Decoder.feed alloc) d.dec).drain alloc).2 } :=
        .of_same rfl rfl rfl hopen
      have hhandled := hread.trans
        (grows_handles _ ((reads.foldl (Decoder.feed alloc) d.dec).drain alloc).1)
      split
      · exact ⟨hhandled.handled, fun _ => hopen, hhandled.parsed⟩
      · exact hhandled

theorem grows_run (d : Connection P E) (batches : List (List Bytes)) :
    Grows feed fresh d (run (Connection.onReadable alloc feed) d batches) := by
  induction batches generalizing d with
  | nil => exact .refl d
  | cons reads batches ih => exact (grows_onReadable alloc d reads).trans (ih _)

theorem bytesOf_append (batches more : List (List Bytes)) :
    bytesOf (batches ++ more) = bytesOf batches ++ bytesOf more := by
  simp [bytesOf]

theorem bytesOf_bytewise (rest : Bytes) : bytesOf (rest.map fun b => [[b]]) = rest := by
  induction rest with
  | nil => rfl
  | cons b rest ih => rw [List.map_cons, Connection.bytesOf_cons, ih]; rfl

/-- A connection that has read the beginning of a conforming stream, by batches that fit. -/
theorem connection_kept {hello : Hello} {ms : List Msg} (hc : Conforming hello ms)
    (screen : UInt16 × UInt16) {batches : List (List Bytes)}
    (hbytes : bytesOf batches <+: Connection.stream hello ms) (hfits : Fits [] batches) :
    let d := run (Connection.onReadable alloc feed) (Connection.init alloc fresh screen) batches
    Open d ∧ (∃ lost later, ms = lost ++ d.handled ++ later) ∧
      d.events = (Connection.parse feed fresh d.handled).1 := by
  obtain ⟨rest, hrest⟩ := hbytes
  -- the rest may come byte by byte
  have hwhole : bytesOf (batches ++ rest.map fun b => [[b]]) = Connection.stream hello ms := by
    rw [bytesOf_append, bytesOf_bytewise]
    exact hrest
  have hall : Fits [] (batches ++ rest.map fun b => [[b]]) :=
    fits_append hfits (fits_bytewise hc (by simpa using hrest))
  obtain ⟨live, hms, hserved⟩ := (Connection.run_init alloc feed fresh hc screen hwhole).1 hall
  rw [run_append] at hserved
  intro d
  have hlater : Grows feed fresh d (run (Connection.onReadable alloc feed) d
      (rest.map fun b => [[b]])) := grows_run alloc d _
  have hbefore : Grows feed fresh (Connection.init alloc fresh screen) d := grows_run alloc _ _
  refine ⟨hlater.stays (.inr hserved.role), ?_, (congrArg Prod.fst (hbefore.parsed rfl))⟩
  obtain ⟨later, hlive⟩ := hlater.handled
  rw [hserved.handled] at hlive
  refine ⟨companions [] (batches ++ rest.map fun b => [[b]]), later, ?_⟩
  rw [hms, List.append_assoc, hlive]

/-- **The two ends of the socket.** Whatever the client meets, and however what it has written
is batched on the way, as long as no batch passes the decoder's ceiling: the daemon neither
closes the connection nor turns the client away, what it has handled is a stretch of what the
client set out to send, and the session has had the events of that stretch. -/
theorem daemon_keeps_client (io : ClientIo) (size : UInt16 × UInt16) (getenv : Bytes → Option Bytes)
    (hhello : (bodyOf (.hello (helloOf size getenv))).2.length ≤ kMaxMessageBytes)
    {turns : List ClientTurn} (hlegal : ∀ t ∈ turns, t.Legal) (screen : UInt16 × UInt16)
    {batches : List (List Bytes)} :
    let c := run (ClientRun.turn alloc io) (ClientRun.start alloc io (helloOf size getenv)) turns
    let d := run (Connection.onReadable alloc Input.InputParser.feedTake)
      (Connection.init alloc {} screen) batches
    bytesOf batches <+: c.toDaemon → Fits [] batches →
      Open d ∧ (∃ lost later, c.said = lost ++ d.handled ++ later) ∧
        d.events = (Connection.parse Input.InputParser.feedTake {} d.handled).1 := by
  intro c d hbytes hfits
  have hspeaks := ClientRun.run_speaks alloc io (helloOf size getenv) hlegal
  have hc : Conforming (helloOf size getenv) c.said :=
    ⟨rfl, hhello, hspeaks.session, hspeaks.fits⟩
  exact connection_kept alloc hc screen (hbytes.trans hspeaks.stream) hfits

end Daemon

/-- A key is typed at once, and the daemon has read all but the last byte of it. -/
theorem daemon_keeps_client_typing :
    let hello := helloOf (80, 24) fun _ => none
    let c := run (ClientRun.turn max {}) (ClientRun.start max {} hello) [{ stdin := .bytes [0x78] }]
    let d := run (Connection.onReadable max Input.InputParser.feedTake)
      (Connection.init max {} (80, 24)) [[encode (.hello hello)], [(encode (.input [0x78])).dropLast]]
    Open d ∧ (∃ lost later, c.said = lost ++ d.handled ++ later) ∧
      d.events = (Connection.parse Input.InputParser.feedTake {} d.handled).1 := by
  have hlegal : ∀ t ∈ [({ stdin := .bytes [0x78] } : ClientTurn)], t.Legal := by
    intro t ht
    rw [List.mem_singleton.1 ht]
    refine ⟨fun bytes hbytes => ?_, by simp⟩
    cases hbytes
    decide
  have hone : framing.drain (encode (.hello (helloOf (80, 24) fun _ => none))) =
      ([.hello (helloOf (80, 24) fun _ => none)], some []) := by
    have hc : Conforming (helloOf (80, 24) fun _ => none) [] := ⟨rfl, by decide, by simp, by simp⟩
    simpa [Connection.stream] using Connection.drain_stream hc
  refine daemon_keeps_client max {} (80, 24) (fun _ => none) (by decide) hlegal (80, 24) ?_ ?_
  · exact ⟨[0x78], rfl⟩
  · refine ⟨?_, ?_, trivial⟩
    · rw [Connection.unfinished, Framing.drain_of_needMore framing.front_nil]
      decide
    · simp only [Connection.unfinished, List.nil_append, List.flatten_cons, List.flatten_nil,
        List.append_nil, hone]
      decide

end Sshos.Client
