import Sshos.Daemon.Loop

/-!
# Sshos.Daemon.LoopKept

What the **loop keeps**, whatever comes in: there are never more than a client and a
pending connection, the client is dismissed for few reasons (`Cause`), a connection that is
pending changes nothing (`Alike`), and an event for a connection that is closed does
nothing at all.

The last two rest on the keys. A connection's generation is a word of 32 bits, and after
`2 ^ 32 - 16` connections it comes round to the generations of the daemon's own
descriptors; the module proves the properties up to there, and shows what happens beyond.
-/

namespace Sshos.Daemon

open Sshos.Lib (Bytes run StepsMeet Framing)
open Sshos.Common
open Sshos.Shell (text)

universe u

variable {P E D R : Type u}

namespace Loop

variable (A : Parts P E D R)

/-! ### Steady: no connection comes or goes -/

/-- The keys of the connections that are open. -/
def live (s : Loop P D R) : List UInt64 :=
  (s.client.map (·.key)).toList ++ (s.pending.map (·.key)).toList

/-- No connection comes or goes. -/
structure Steady (s s' : Loop P D R) : Prop where
  client : s'.client.map (·.key) = s.client.map (·.key)
  pending : s'.pending = s.pending
  accepted : s'.accepted = s.accepted
  closed : s'.closed = s.closed
  nextGen : s'.nextGen = s.nextGen
  running : s'.running = s.running

variable {A} {s s' s'' : Loop P D R}

theorem Steady.refl (s : Loop P D R) : Steady s s := ⟨rfl, rfl, rfl, rfl, rfl, rfl⟩

theorem Steady.trans (h : Steady s s') (h' : Steady s' s'') : Steady s s'' :=
  ⟨h'.client.trans h.client, h'.pending.trans h.pending, h'.accepted.trans h.accepted,
    h'.closed.trans h.closed, h'.nextGen.trans h.nextGen, h'.running.trans h.running⟩

theorem Steady.call (h : Steady s s') (c : Call E) : Steady s (s'.call A c) := h.trans ⟨rfl, rfl, rfl, rfl, rfl, rfl⟩

theorem Steady.markDirty (h : Steady s s') : Steady s s'.markDirty := h.trans ⟨rfl, rfl, rfl, rfl, rfl, rfl⟩

theorem Steady.callInputs (h : Steady s s') (es : List E) : Steady s (s'.callInputs A es) := by
  induction es generalizing s' with
  | nil => exact h
  | cons e es ih => exact ih (h.call (.input e))

/-- A client in the place of the client, under the same key. -/
theorem Steady.of_client {c t : Client P D} (hc : s.client = some c) (hkey : t.key = c.key) :
    Steady s { s with client := some t } :=
  ⟨by simp [hc, hkey], rfl, rfl, rfl, rfl, rfl⟩

theorem Steady.handle (h : Steady s s') (m : Msg) : Steady s (Loop.handle A s' m) := by
  refine h.trans ?_
  cases hc : s'.client with
  | none =>
      unfold Loop.handle
      rw [hc]
      exact Steady.refl s'
  | some c =>
      cases m with
      | input bytes =>
          simp only [Loop.handle, hc]
          have hsteady : Steady s' { s' with client := some { c with input := (A.feed c.input bytes).2 } } :=
            Steady.of_client hc rfl
          exact (hsteady.callInputs (A.feed c.input bytes).1).markDirty
      | resize cols rows =>
          simp only [Loop.handle, hc]
          have hsteady : Steady s' { s' with
              client := some { c with cols := cols, rows := rows, differ := c.differ.map A.invalidate }
              screen := (cols, rows) } :=
            (Steady.of_client (t := { c with
              cols := cols, rows := rows, differ := c.differ.map A.invalidate }) hc rfl).trans
              ⟨rfl, rfl, rfl, rfl, rfl, rfl⟩
          exact (hsteady.call _).markDirty
      | _ =>
          unfold Loop.handle
          rw [hc]
          exact Steady.refl s'

theorem Steady.handles (h : Steady s s') (ms : List Msg) : Steady s (ms.foldl (Loop.handle A) s') := by
  induction ms generalizing s' with
  | nil => exact h
  | cons m ms ih => exact ih (h.handle m)

theorem Steady.flushClient {c t : Client P D} (hc : s.client = some c) (hkey : t.key = c.key)
    (sends : List SendResult) : Steady s (s.flushClient t sends).2 :=
  Steady.of_client (t := { t with out := (t.out.flush sends).2 }) hc hkey

theorem Steady.checkEsc (now : Nat) : Steady s (s.checkEsc A now) := by
  have hquiet : ∀ (armed : Bool) (deadline : Nat),
      Steady s { s with escArmed := armed, escDeadline := deadline } :=
    fun _ _ => ⟨rfl, rfl, rfl, rfl, rfl, rfl⟩
  unfold Loop.checkEsc
  split
  · exact hquiet false s.escDeadline
  · next c hc =>
      by_cases hpending : A.escPending c.input = false
      · rw [if_pos (by simpa using hpending)]
        exact hquiet false s.escDeadline
      · rw [if_neg (by simpa using hpending)]
        by_cases harmed : s.escArmed = false
        · rw [if_pos (by simpa using harmed)]
          exact hquiet true _
        · rw [if_neg (by simpa using harmed)]
          by_cases hlate : now ≥ s.escDeadline
          · rw [if_pos hlate]
            have hsteady : Steady s { s with client := some { c with input := (A.timeout c.input).2 } } :=
              Steady.of_client hc rfl
            exact ((hsteady.callInputs (A.timeout c.input).1).markDirty).trans
              ⟨rfl, rfl, rfl, rfl, rfl, rfl⟩
          · rw [if_neg hlate]
            exact Steady.refl s

theorem Steady.tickIfDue (now : Nat) : Steady s (s.tickIfDue A now) := by
  unfold Loop.tickIfDue
  split
  · exact (Steady.refl s).call _
  · exact Steady.refl s

theorem Steady.refreshIfDue (now : Nat) : Steady s (s.refreshIfDue A now) := by
  unfold Loop.refreshIfDue
  split
  · have hcall : Steady s (s.call A .refreshDue).markDirty := ((Steady.refl s).call _).markDirty
    exact hcall.trans ⟨rfl, rfl, rfl, rfl, rfl, rfl⟩
  · exact Steady.refl s

theorem Steady.wake (w : Wake) : Steady s (s.wake A w) := by
  have hclear : Steady s { s with closedThisBatch := [] } := ⟨rfl, rfl, rfl, rfl, rfl, rfl⟩
  exact ((hclear.trans (Steady.checkEsc w.escNow)).trans (Steady.tickIfDue w.updateNow)).trans
    (Steady.refreshIfDue w.refreshNow)

theorem Steady.noteDirty : Steady s (s.noteDirty A) := by
  unfold Loop.noteDirty
  simp only
  split
  · exact ⟨rfl, rfl, rfl, rfl, rfl, rfl⟩
  · exact ⟨rfl, rfl, rfl, rfl, rfl, rfl⟩

theorem Steady.drawFrame (c : Client P D) (d : D) (now : Nat) : Steady s (s.drawFrame A c d now).2.2 :=
  ⟨rfl, rfl, rfl, rfl, rfl, rfl⟩

/-! ### Why a client is dismissed -/

/-- In a stream without fault, the connection has now said a `Hello` of our build. -/
def Introduces (p : Client P D) (e : EpollEvent) : Prop :=
  e.key = p.key ∧ e.readable = true ∧ ∃ ms rest h,
    framing.drain (p.received ++ e.reads.flatten) = (ms, some rest) ∧
      Connection.helloSeen ms = some h ∧ h.buildId = kBuildId

/-- What may cost the client its place. -/
inductive Cause (A : Parts P E D R) (s : Loop P D R) (c : Client P D) : Input → Prop where
  | hangUp {e} : e.key = c.key → e.hangsUp = true → Cause A s c (.event e)
  | violation {e} : e.key = c.key → e.readable = true →
      ((drainSocket A c e).dec.drain A.alloc).2.failed = true → Cause A s c (.event e)
  | writeFailure {e} : e.key = c.key → e.writable = true → c.out.linkUp e.sends = false →
      Cause A s c (.event e)
  | takenOver {e p} : s.pending = some p → Introduces p e → Cause A s c (.event e)
  | detach {t} : (A.takeDetach ((s.expirePending t).noteDirty A).session.rest).1 = true →
      Cause A s c (.tail t)
  | overflow {t d} : c.differ = some d →
      ((s.beforeFrame A t).drawFrame A c d t.frameNow).1.overflow = .dirty → Cause A s c (.tail t)
  | frameFailure {t d} : c.differ = some d →
      ((s.beforeFrame A t).drawFrame A c d t.frameNow).1.takeOverflow.2.linkUp t.sends = false →
      Cause A s c (.tail t)
  | updateRestart {t} :
      A.wantsUpdateRestart ((s.beforeFrame A t).compose A t).session.rest = true → Cause A s c (.tail t)
  | quit {t} :
      A.wantsQuit (((s.beforeFrame A t).compose A t).restartIfAsked A).session.rest = true →
      Cause A s c (.tail t)
  | stopped {t} : s.running = false → Cause A s c (.tail t)
  | broken : Cause A s c .broken

/-- The client is dismissed on the way, or nobody is. -/
inductive Leads (A : Parts P E D R) (s : Loop P D R) (why : Prop) : Loop P D R → Prop where
  | stays {s₁ : Loop P D R} : Steady s s₁ → Leads A s why s₁
  | drops {s₁ : Loop P D R} (reason : Option Bytes) : Steady s s₁ → why →
      Leads A s why (s₁.dropClient A reason)

theorem Leads.of_steady {why : Prop} (h : Steady s s') (h' : Leads A s' why s'') :
    Leads A s why s'' := by
  cases h' with
  | stays hs => exact .stays (h.trans hs)
  | drops reason hs hwhy => exact .drops reason (h.trans hs) hwhy

theorem flush_fst (q : OutQueue) (sends : List SendResult) : (q.flush sends).1 = q.linkUp sends := by
  unfold OutQueue.flush
  split
  · next h => exact h.symm
  · next h => simpa using h

/-- What a read does to the client, and what becomes of it. -/
theorem read_leads {c : Client P D} (hc : s.client = some c) {e : EpollEvent} {why : Prop}
    (hviolation : e.readable = true → ((drainSocket A c e).dec.drain A.alloc).2.failed = true → why)
    (hhangUp : e.hangsUp = true → why) :
    Leads A s why (s.readOn A c e) := by
  have hsteady : Steady s (if e.readable then s.readClient A c e else (true, s)).2 := by
    cases e.readable with
    | false => exact Steady.refl s
    | true =>
        have hread : Steady s { s with client := some { drainSocket A c e with
            dec := ((drainSocket A c e).dec.drain A.alloc).2 } } := Steady.of_client hc rfl
        exact hread.handles ((drainSocket A c e).dec.drain A.alloc).1
  unfold readOn
  simp only
  cases hclean : (if e.readable then s.readClient A c e else (true, s)).1 with
  | false =>
      refine .drops _ hsteady ?_
      cases hreadable : e.readable with
      | false => simp [hreadable] at hclean
      | true =>
          refine hviolation hreadable ?_
          simpa [hreadable, readClient] using hclean
  | true =>
      cases hhang : e.hangsUp with
      | true => exact .drops none hsteady (hhangUp hhang)
      | false => exact .stays hsteady

theorem onClient_leads {c : Client P D} (hc : s.client = some c) {e : EpollEvent}
    (hkey : e.key = c.key) : Leads A s (Cause A s c (.event e)) (s.onClient A c e) := by
  unfold onClient
  cases hwrite : e.writable with
  | false =>
      simp only [Bool.false_eq_true, if_false, Bool.not_true, hc]
      exact read_leads hc (fun hr hf => .violation hkey hr hf) fun hh => .hangUp hkey hh
  | true =>
      simp only [if_true]
      have hsteady := Steady.flushClient (s := s) hc (t := c) rfl e.sends
      cases hup : (s.flushClient c e.sends).1 with
      | false =>
          have hdown : c.out.linkUp e.sends = false := (flush_fst c.out e.sends).symm.trans hup
          exact .drops none hsteady (.writeFailure hkey hwrite hdown)
      | true =>
          have hread : Leads A (s.flushClient c e.sends).2 (Cause A s c (.event e))
              ((s.flushClient c e.sends).2.readOn A { c with out := (c.out.flush e.sends).2 } e) := read_leads rfl
            (fun hr hf => Cause.violation hkey hr hf) fun hh => Cause.hangUp hkey hh
          exact Leads.of_steady hsteady hread

theorem compose_leads {c : Client P D} (hc : s.client = some c) {t : Tail} {why : Prop}
    (hoverflow : ∀ d, c.differ = some d →
      (s.drawFrame A c d t.frameNow).1.overflow = .dirty → why)
    (hfailure : ∀ d, c.differ = some d →
      (s.drawFrame A c d t.frameNow).1.takeOverflow.2.linkUp t.sends = false → why) :
    Leads A s why (s.compose A t) := by
  unfold compose
  simp only [hc]
  cases hd : c.differ with
  | none => exact .stays (Steady.refl s)
  | some d =>
      simp only
      by_cases hdue : s.clock.due t.frameNow = false
      · rw [if_pos (by simpa using hdue)]
        exact .stays (Steady.refl s)
      rw [if_neg (by simpa using hdue)]
      have hdraw := Steady.drawFrame (A := A) (s := s) c d t.frameNow
      by_cases hdirty : (s.drawFrame A c d t.frameNow).1.takeOverflow.1 = .dirty
      · rw [if_pos hdirty]
        exact .drops none (hdraw.trans (Steady.of_client hc rfl)) (hoverflow d hd hdirty)
      · rw [if_neg hdirty]
        generalize hout : (s.drawFrame A c d t.frameNow).1.takeOverflow.2 = out
        generalize (if (s.drawFrame A c d t.frameNow).1.takeOverflow.1 = .clean then
          A.invalidate (s.drawFrame A c d t.frameNow).2.1
          else (s.drawFrame A c d t.frameNow).2.1) = d'
        have hframe : Steady s (if (s.drawFrame A c d t.frameNow).1.takeOverflow.1 = .clean then
            (s.drawFrame A c d t.frameNow).2.2.markDirty else (s.drawFrame A c d t.frameNow).2.2) := by
          split
          · exact hdraw.markDirty
          · exact hdraw
        generalize (if (s.drawFrame A c d t.frameNow).1.takeOverflow.1 = .clean then
            (s.drawFrame A c d t.frameNow).2.2.markDirty else (s.drawFrame A c d t.frameNow).2.2) = s₁
          at hframe
        have hflush : Steady s (s₁.flushClient { c with differ := some d', out := out } t.sends).2 := by
          refine hframe.trans ⟨?_, rfl, rfl, rfl, rfl, rfl⟩
          rw [hframe.client, hc]
          rfl
        cases hup : (s₁.flushClient { c with differ := some d', out := out } t.sends).1 with
        | true => exact .stays hflush
        | false =>
            refine .drops none hflush (hfailure d hd ?_)
            exact hout ▸ (flush_fst out t.sends).symm.trans hup


/-- The client keeps its place, or there is a cause. -/
theorem Leads.kept {why : Prop} (h : Leads A s why s') {c : Client P D} (hc : s.client = some c) :
    s'.client.map (·.key) = some c.key ∨ why := by
  cases h with
  | stays hs => exact .inl (by rw [hs.client, hc, Option.map_some])
  | drops reason hs hwhy => exact .inr hwhy

/-! ### Alike: all but the connections that wait -/

/-- What the loop knows of its connections besides the client. -/
structure Books (P D : Type u) where
  pending : Option (Client P D)
  pendingDeadline : Nat
  nextGen : UInt32
  closedThisBatch : List UInt64
  accepted : List UInt64
  closed : List UInt64
  lastWords : List (UInt64 × Msg)

abbrev withBooks (s : Loop P D R) (b : Books P D) : Loop P D R :=
  { s with
    pending := b.pending, pendingDeadline := b.pendingDeadline, nextGen := b.nextGen
    closedThisBatch := b.closedThisBatch, accepted := b.accepted, closed := b.closed
    lastWords := b.lastWords }

abbrev books (s : Loop P D R) : Books P D :=
  ⟨s.pending, s.pendingDeadline, s.nextGen, s.closedThisBatch, s.accepted, s.closed, s.lastWords⟩

/-- The same session, the same client, the same clocks: all but what is known of the other
connections. -/
def Alike (s s' : Loop P D R) : Prop := ∃ b, s' = s.withBooks b

theorem Alike.refl (s : Loop P D R) : Alike s s := ⟨s.books, rfl⟩

theorem Alike.symm (h : Alike s s') : Alike s' s := by
  obtain ⟨b, rfl⟩ := h
  exact ⟨s.books, rfl⟩

theorem Alike.trans (h : Alike s s') (h' : Alike s' s'') : Alike s s'' := by
  obtain ⟨b, rfl⟩ := h
  obtain ⟨b', rfl⟩ := h'
  exact ⟨b', rfl⟩

theorem Alike.ite {s₁ s₂ t₁ t₂ : Loop P D R} (c : Prop) [Decidable c] (h₁ : Alike s₁ t₁)
    (h₂ : Alike s₂ t₂) : Alike (if c then s₁ else s₂) (if c then t₁ else t₂) := by
  split
  · exact h₁
  · exact h₂

theorem Alike.client (h : Alike s s') : s'.client = s.client := by
  obtain ⟨b, rfl⟩ := h
  rfl

theorem Alike.session (h : Alike s s') : s'.session = s.session := by
  obtain ⟨b, rfl⟩ := h
  rfl

theorem Alike.running (h : Alike s s') : s'.running = s.running := by
  obtain ⟨b, rfl⟩ := h
  rfl

theorem Alike.call (h : Alike s s') (c : Call E) : Alike (s.call A c) (s'.call A c) := by
  obtain ⟨b, rfl⟩ := h
  exact ⟨b, rfl⟩

theorem Alike.callInputs (h : Alike s s') (es : List E) :
    Alike (s.callInputs A es) (s'.callInputs A es) := by
  induction es generalizing s s' with
  | nil => exact h
  | cons e es ih => exact ih (h.call _)

theorem Alike.markDirty (h : Alike s s') : Alike s.markDirty s'.markDirty := by
  obtain ⟨b, rfl⟩ := h
  exact ⟨b, rfl⟩

theorem Alike.withClient (h : Alike s s') (c : Option (Client P D)) :
    Alike { s with client := c } { s' with client := c } := by
  obtain ⟨b, rfl⟩ := h
  exact ⟨b, rfl⟩

theorem Alike.dropClient (h : Alike s s') (reason : Option Bytes) :
    Alike (s.dropClient A reason) (s'.dropClient A reason) := by
  obtain ⟨b, rfl⟩ := h
  unfold Loop.dropClient
  cases hc : s.client with
  | none =>
      exact ⟨b, rfl⟩
  | some c =>
      exact Alike.call ⟨⟨b.pending, b.pendingDeadline, b.nextGen, b.closedThisBatch ++ [c.key],
        b.accepted, b.closed ++ [c.key],
        b.lastWords ++ (reason.map fun r => (c.key, Msg.detached r)).toList⟩, rfl⟩ _

theorem Alike.handle (h : Alike s s') (m : Msg) : Alike (Loop.handle A s m) (Loop.handle A s' m) := by
  obtain ⟨b, rfl⟩ := h
  unfold Loop.handle
  cases hc : s.client with
  | none =>
      exact ⟨b, rfl⟩
  | some c =>
      cases m with
      | input bytes => exact (Alike.callInputs (Alike.withClient ⟨b, rfl⟩ _) _).markDirty
      | resize cols rows => exact ⟨b, rfl⟩
      | _ => exact ⟨b, rfl⟩

theorem Alike.handles (h : Alike s s') (ms : List Msg) :
    Alike (ms.foldl (Loop.handle A) s) (ms.foldl (Loop.handle A) s') := by
  induction ms generalizing s s' with
  | nil => exact h
  | cons m ms ih => exact ih (h.handle m)

theorem Alike.flushClient (h : Alike s s') (c : Client P D) (sends : List SendResult) :
    (s'.flushClient c sends).1 = (s.flushClient c sends).1 ∧
      Alike (s.flushClient c sends).2 (s'.flushClient c sends).2 :=
  ⟨rfl, h.withClient _⟩

theorem Alike.readClient (h : Alike s s') (c : Client P D) (e : EpollEvent) :
    (s'.readClient A c e).1 = (s.readClient A c e).1 ∧
      Alike (s.readClient A c e).2 (s'.readClient A c e).2 :=
  ⟨rfl, (h.withClient _).handles _⟩

theorem Alike.readOn (h : Alike s s') (c : Client P D) (e : EpollEvent) :
    Alike (s.readOn A c e) (s'.readOn A c e) := by
  unfold Loop.readOn
  cases e.readable with
  | false => exact Alike.ite _ (h.dropClient _) (Alike.ite _ (h.dropClient _) h)
  | true =>
      obtain ⟨hclean, hread⟩ := h.readClient (A := A) c e
      simp only [if_true, hclean]
      exact Alike.ite _ (hread.dropClient _) (Alike.ite _ (hread.dropClient _) hread)

theorem Alike.onClient (h : Alike s s') (c : Client P D) (e : EpollEvent) :
    Alike (s.onClient A c e) (s'.onClient A c e) := by
  unfold Loop.onClient
  have hflush : (if e.writable then s'.flushClient c e.sends else (true, s')).1 =
        (if e.writable then s.flushClient c e.sends else (true, s)).1 ∧
      Alike (if e.writable then s.flushClient c e.sends else (true, s)).2
        (if e.writable then s'.flushClient c e.sends else (true, s')).2 := by
    cases e.writable with
    | false => exact ⟨rfl, h⟩
    | true => exact h.flushClient c e.sends
  generalize (if e.writable then s.flushClient c e.sends else (true, s)) = r at hflush
  generalize (if e.writable then s'.flushClient c e.sends else (true, s')) = r' at hflush
  obtain ⟨hup, hflushed⟩ := hflush
  simp only [hup, hflushed.client]
  refine Alike.ite _ (hflushed.dropClient _) ?_
  cases r.2.client with
  | none => exact hflushed
  | some c => exact hflushed.readOn c e

theorem Alike.onFdEvent (h : Alike s s') (key : UInt64) (events : UInt32) :
    Alike (s.onFdEvent A key events) (s'.onFdEvent A key events) := by
  unfold Loop.onFdEvent
  rw [h.session]
  cases s.session.hosts.onFdEvent key with
  | none => exact h
  | some app => exact h.call _

theorem Alike.dropPending : Alike s s.dropPending := by
  unfold Loop.dropPending
  cases hp : s.pending with
  | none => exact Alike.refl s
  | some p => exact ⟨⟨none, s.pendingDeadline, s.nextGen, s.closedThisBatch ++ [p.key], s.accepted,
      s.closed ++ [p.key], s.lastWords⟩, rfl⟩

theorem Alike.accept (now : Nat) : Alike s (s.accept A now) :=
  Alike.dropPending.trans ⟨(s.accept A now).books, rfl⟩

theorem Alike.checkEsc (h : Alike s s') (now : Nat) :
    Alike (s.checkEsc A now) (s'.checkEsc A now) := by
  obtain ⟨b, rfl⟩ := h
  unfold Loop.checkEsc
  cases hc : s.client with
  | none => exact ⟨b, rfl⟩
  | some c =>
      refine Alike.ite _ ⟨b, rfl⟩ (Alike.ite _ ⟨b, rfl⟩ (Alike.ite _ ?_ ⟨b, rfl⟩))
      have hbooks : Alike s (s.withBooks b) := ⟨b, rfl⟩
      have hclient := hbooks.withClient (some { c with input := (A.timeout c.input).2 })
      obtain ⟨b', heq⟩ := (hclient.callInputs (A := A) (A.timeout c.input).1).markDirty
      exact ⟨b', congrArg (fun t : Loop P D R => { t with escArmed := false }) heq⟩

theorem Alike.tickIfDue (h : Alike s s') (now : Nat) :
    Alike (s.tickIfDue A now) (s'.tickIfDue A now) := by
  unfold Loop.tickIfDue
  rw [h.session]
  exact Alike.ite _ (h.call _) h

theorem Alike.refreshIfDue (h : Alike s s') (now : Nat) :
    Alike (s.refreshIfDue A now) (s'.refreshIfDue A now) := by
  obtain ⟨b, rfl⟩ := h
  exact Alike.ite _ ⟨b, rfl⟩ ⟨b, rfl⟩

theorem Alike.wake (h : Alike s s') (w : Wake) : Alike (s.wake A w) (s'.wake A w) := by
  have hclear : Alike { s with closedThisBatch := [] } { s' with closedThisBatch := [] } := by
    obtain ⟨b, rfl⟩ := h
    exact ⟨{ b with closedThisBatch := [] }, rfl⟩
  exact ((hclear.checkEsc _).tickIfDue _).refreshIfDue _

theorem Alike.expirePending (t : Tail) : Alike s (s.expirePending t) := by
  unfold Loop.expirePending
  split
  · exact Alike.dropPending
  · exact Alike.refl s

theorem Alike.noteDirty (h : Alike s s') : Alike (s.noteDirty A) (s'.noteDirty A) := by
  obtain ⟨b, rfl⟩ := h
  exact Alike.ite _ ⟨b, rfl⟩ ⟨b, rfl⟩

theorem Alike.detachIfAsked (h : Alike s s') : Alike (s.detachIfAsked A) (s'.detachIfAsked A) := by
  obtain ⟨b, rfl⟩ := h
  exact Alike.ite _ (Alike.dropClient ⟨b, rfl⟩ _) ⟨b, rfl⟩

theorem Alike.compose (h : Alike s s') (t : Tail) : Alike (s.compose A t) (s'.compose A t) := by
  obtain ⟨b, rfl⟩ := h
  unfold Loop.compose
  cases hc : s.client with
  | none => exact ⟨b, rfl⟩
  | some c =>
      simp only
      cases hd : c.differ with
      | none => exact ⟨b, rfl⟩
      | some d =>
          simp only
          refine Alike.ite _ ⟨b, rfl⟩ (Alike.ite _ (Alike.dropClient ⟨b, rfl⟩ _) ?_)
          have hdraw : Alike (s.drawFrame A c d t.frameNow).2.2
              ((s.withBooks b).drawFrame A c d t.frameNow).2.2 := ⟨b, rfl⟩
          have hframe := Alike.ite ((s.drawFrame A c d t.frameNow).1.takeOverflow.1 = .clean)
            hdraw.markDirty hdraw
          obtain ⟨hup, hflush⟩ := hframe.flushClient { c with
            differ := some (if (s.drawFrame A c d t.frameNow).1.takeOverflow.1 = .clean then
              A.invalidate (s.drawFrame A c d t.frameNow).2.1
              else (s.drawFrame A c d t.frameNow).2.1)
            out := (s.drawFrame A c d t.frameNow).1.takeOverflow.2 } t.sends
          exact Alike.ite _ hflush (hflush.dropClient none)

theorem Alike.restartIfAsked (h : Alike s s') : Alike (s.restartIfAsked A) (s'.restartIfAsked A) := by
  obtain ⟨b, rfl⟩ := h
  have hdeaf : Alike { s with listening := false } { s.withBooks b with listening := false } := ⟨b, rfl⟩
  obtain ⟨b', heq⟩ := hdeaf.dropClient (A := A) (some kDetachReasonUpdate)
  exact Alike.ite _ ⟨b', congrArg (fun t : Loop P D R => { t with running := false }) heq⟩ ⟨b, rfl⟩

theorem Alike.quitIfAsked (h : Alike s s') : Alike (s.quitIfAsked A) (s'.quitIfAsked A) := by
  obtain ⟨b, rfl⟩ := h
  exact Alike.ite _ ⟨b, rfl⟩ ⟨b, rfl⟩

theorem Alike.leave (h : Alike s s') : Alike (s.leave A) (s'.leave A) := by
  obtain ⟨b, heq⟩ := h.dropClient (A := A) (some (text "le demon s'arrete"))
  exact ⟨b, congrArg (fun t : Loop P D R => { t with finished := true }) heq⟩

theorem Alike.tail (h : Alike s s') (t : Tail) : Alike (s.tail A t) (s'.tail A t) := by
  have hexpired : Alike (s.expirePending t) (s'.expirePending t) :=
    ((Alike.expirePending t).symm.trans h).trans (Alike.expirePending t)
  have hbefore : Alike (s.beforeFrame A t) (s'.beforeFrame A t) := hexpired.noteDirty.detachIfAsked
  have hlast : Alike ((((s.beforeFrame A t).compose A t).restartIfAsked A).quitIfAsked A)
      ((((s'.beforeFrame A t).compose A t).restartIfAsked A).quitIfAsked A) :=
    (hbefore.compose t).restartIfAsked.quitIfAsked
  unfold Loop.tail
  simp only [hlast.running]
  exact Alike.ite _ hlast hlast.leave

/-! ### Accounts: every connection accepted is open or closed -/

/-- Connections may be closed or trade places; none is lost, and none comes. -/
structure Accounts (s s' : Loop P D R) : Prop where
  accepted : s'.accepted = s.accepted
  nextGen : s'.nextGen = s.nextGen
  perm : (s'.closed ++ s'.live).Perm (s.closed ++ s.live)

theorem Accounts.trans (h : Accounts s s') (h' : Accounts s' s'') : Accounts s s'' :=
  ⟨h'.accepted.trans h.accepted, h'.nextGen.trans h.nextGen, h'.perm.trans h.perm⟩

theorem Accounts.of_steady (h : Steady s s') : Accounts s s' := by
  refine ⟨h.accepted, h.nextGen, ?_⟩
  rw [live, live, h.client, h.pending, h.closed]

theorem Accounts.refl (s : Loop P D R) : Accounts s s := Accounts.of_steady (Steady.refl s)

theorem Accounts.dropClient (reason : Option Bytes) : Accounts s (s.dropClient A reason) := by
  unfold Loop.dropClient
  cases hc : s.client with
  | none => exact Accounts.refl s
  | some c =>
      refine Accounts.trans ?_ (Accounts.of_steady ((Steady.refl _).call _))
      refine ⟨rfl, rfl, ?_⟩
      simp only [live, hc, Option.map_none, Option.toList_none, List.nil_append, Option.map_some,
        Option.toList_some, List.append_assoc, List.singleton_append]
      exact List.Perm.refl _

theorem Accounts.dropPending : Accounts s s.dropPending := by
  unfold Loop.dropPending
  cases hp : s.pending with
  | none => exact Accounts.refl s
  | some p =>
      refine ⟨rfl, rfl, ?_⟩
      simp only [live, hp, Option.map_none, Option.toList_none, List.append_nil, Option.map_some,
        Option.toList_some, List.append_assoc]
      exact List.perm_append_comm.append_left _

@[simp] theorem pending_dropPending (s : Loop P D R) : s.dropPending.pending = none := by
  unfold Loop.dropPending
  cases hp : s.pending with
  | none => exact hp
  | some p => rfl

theorem turnAway_spec (s : Loop P D R) (p : Client P D) :
    Alike s (s.turnAway p) ∧ Accounts s (s.turnAway p) ∧ (s.turnAway p).pending = none := by
  refine ⟨Alike.trans ?_ Alike.dropPending, Accounts.trans ?_ Accounts.dropPending,
    pending_dropPending _⟩
  · exact ⟨{ s.books with lastWords := _ }, rfl⟩
  · exact ⟨rfl, rfl, List.Perm.refl _⟩

/-- A connection in the place of the one pending, under the same key. -/
theorem Accounts.of_pending {p p' : Client P D} (hp : s.pending = some p) (hkey : p'.key = p.key) :
    Accounts s { s with pending := some p' } :=
  ⟨rfl, rfl, by simp [live, hp, hkey]⟩

theorem Accounts.promote {p : Client P D} (hp : s.pending = some p) (h : Hello) :
    Accounts s (s.promote A p h) := by
  unfold Loop.promote
  generalize hdrop : s.dropClient A (text "un autre client a pris la main") = s₁
  have hgone : s₁.client = none ∧ s₁.pending = some p := by
    rw [← hdrop, ← hp]
    unfold Loop.dropClient
    cases hc : s.client with
    | none => exact ⟨hc, rfl⟩
    | some c => exact ⟨rfl, rfl⟩
  have hfirst : Accounts s s₁ := hdrop ▸ Accounts.dropClient _
  refine hfirst.trans ⟨rfl, rfl, ?_⟩
  simp only [live, hgone.1, hgone.2]
  exact List.Perm.refl _

/-! ### The connection that waits -/

/-- The decoder stands where the stream does, and no `Hello` was said yet. -/
def Waits (p : Client P D) : Prop :=
  Connection.Synced p.received p.dec ∧ Connection.helloSeen (framing.drain p.received).1 = none

/-- What was read and did not break the decoder. -/
theorem synced_read (alloc : Nat → Nat → Nat) {before : Bytes} {d : Decoder}
    (h : Connection.Synced before d) (reads : List Bytes)
    (hok : ((reads.foldl (Decoder.feed alloc) d).drain alloc).2.failed = false) :
    let r := (reads.foldl (Decoder.feed alloc) d).drain alloc
    Connection.Synced (before ++ reads.flatten) r.2 ∧
      (framing.drain (before ++ reads.flatten)).1 = (framing.drain before).1 ++ r.1 := by
  have hfit : Connection.unfinished before + reads.flatten.length ≤ kMaxBufferBytes := by
    by_contra hover
    exact Bool.false_ne_true (hok.symm.trans (h.overflow alloc hover))
  refine h.batch alloc hfit ?_
  rw [h.unfinished_eq] at hfit
  obtain ⟨hf, hu⟩ := Connection.drainSocket_of_fits alloc h.1 hfit
  have happ := Framing.drain_append (F := framing) before reads.flatten
  rw [h.2] at happ
  simp only [Framing.feed, ← hu] at happ
  have hrest := (Decoder.drain_eq alloc hf).2.symm.trans (Decoder.rest_of_ok hok)
  exact ⟨_, (congrArg Prod.snd happ).trans hrest⟩

theorem helloSeen_append (ms ns : List Msg) :
    Connection.helloSeen (ms ++ ns) = (Connection.helloSeen ms).or (Connection.helloSeen ns) :=
  List.findSome?_append

/-- An event for the pending connection either leaves everything else as it was, or the
connection has introduced itself and takes the client's place. -/
theorem onPending_spec {p : Client P D} (hp : s.pending = some p) (hwaits : Waits p)
    {e : EpollEvent} (hkey : e.key = p.key) :
    (Alike s (s.onPending A p e) ∧ Accounts s (s.onPending A p e) ∧
      ∀ p', (s.onPending A p e).pending = some p' → Waits p') ∨
    (Introduces p e ∧ ∃ p' h, p'.key = p.key ∧
      s.onPending A p e = ({ s with pending := some p' } : Loop P D R).promote A p' h) := by
  have hhang : ∀ {t : Loop P D R}, (∀ p', t.pending = some p' → Waits p') →
      Alike t (t.hangPending e) ∧ Accounts t (t.hangPending e) ∧
        ∀ p', (t.hangPending e).pending = some p' → Waits p' := by
    intro t ht
    unfold hangPending
    split
    · refine ⟨Alike.dropPending, Accounts.dropPending, fun p' hp' => ?_⟩
      rw [pending_dropPending] at hp'
      cases hp'
    · exact ⟨Alike.refl t, Accounts.refl t, ht⟩
  unfold onPending
  cases hread : e.readable with
  | false =>
      left
      exact hhang fun p' hp' => by
        rw [hp] at hp'
        exact Option.some.inj hp' ▸ hwaits
  | true =>
      simp only [Bool.not_true, Bool.false_eq_true, if_false]
      have halike : ∀ p' : Client P D, Alike s { s with pending := some p' } :=
        fun p' => ⟨{ s.books with pending := some p' }, rfl⟩
      cases hfail : ((drainSocket A p e).dec.drain A.alloc).2.failed with
      | true =>
          left
          simp only [if_true]
          refine ⟨(halike _).trans Alike.dropPending,
            (Accounts.of_pending hp (by rfl)).trans Accounts.dropPending, fun p' hp' => ?_⟩
          rw [pending_dropPending] at hp'
          cases hp'
      | false =>
          simp only [Bool.false_eq_true, if_false]
          obtain ⟨hsync, hms⟩ := synced_read A.alloc hwaits.1 e.reads hfail
          have hseen := helloSeen_append (framing.drain p.received).1
            ((drainSocket A p e).dec.drain A.alloc).1
          rw [hwaits.2, Option.none_or] at hseen
          cases hhello : Connection.helloSeen ((drainSocket A p e).dec.drain A.alloc).1 with
          | none =>
              left
              obtain ⟨h₁, h₂, h₃⟩ := hhang (t := { s with pending := some { drainSocket A p e with
                  dec := ((drainSocket A p e).dec.drain A.alloc).2 } }) fun p' hp' => by
                refine Option.some.inj hp' ▸ ⟨hsync, ?_⟩
                exact (congrArg Connection.helloSeen hms).trans (hseen.trans hhello)
              exact ⟨(halike _).trans h₁, (Accounts.of_pending hp (by rfl)).trans h₂, h₃⟩
          | some h =>
              simp only
              by_cases hbuild : h.buildId = kBuildId
              · right
                rw [if_neg (not_not.2 hbuild)]
                refine ⟨⟨hkey, hread, _, _, h, Prod.ext rfl hsync.2, ?_, hbuild⟩, _, h, ?_, rfl⟩
                · exact (congrArg Connection.helloSeen hms).trans (hseen.trans hhello)
                · rfl
              · left
                rw [if_pos hbuild]
                obtain ⟨h₁, h₂, h₃⟩ := turnAway_spec ({ s with pending := some { drainSocket A p e with
                  dec := ((drainSocket A p e).dec.drain A.alloc).2 } } : Loop P D R)
                  { drainSocket A p e with dec := ((drainSocket A p e).dec.drain A.alloc).2 }
                refine ⟨(halike _).trans h₁, (Accounts.of_pending hp (by rfl)).trans h₂, fun p' hp' => ?_⟩
                rw [h₃] at hp'
                cases hp'

/-! ### The invariant -/

/-- What holds of the loop along every run. -/
structure Inv (s : Loop P D R) : Prop where
  keys : s.accepted = (List.range s.accepted.length).map fun n => makeKey 0 (dynamicGen n)
  next : s.nextGen = dynamicGen s.accepted.length
  accounted : s.accepted.Perm (s.closed ++ s.live)
  waits : ∀ p, s.pending = some p → Waits p

/-- No connection is lost, and the one that waits goes on waiting. -/
structure Follows (s s' : Loop P D R) : Prop where
  accounts : Accounts s s'
  waits : (∀ p, s.pending = some p → Waits p) → ∀ p, s'.pending = some p → Waits p

theorem Follows.refl (s : Loop P D R) : Follows s s := ⟨Accounts.refl s, id⟩

theorem Follows.trans (h : Follows s s') (h' : Follows s' s'') : Follows s s'' :=
  ⟨h.accounts.trans h'.accounts, h'.waits ∘ h.waits⟩

theorem Follows.of_steady (h : Steady s s') : Follows s s' :=
  ⟨Accounts.of_steady h, fun hw p hp => hw p (h.pending ▸ hp)⟩

theorem pending_dropClient (reason : Option Bytes) : (s.dropClient A reason).pending = s.pending := by
  unfold Loop.dropClient
  cases hc : s.client <;> rfl

theorem Follows.dropClient (reason : Option Bytes) : Follows s (s.dropClient A reason) :=
  ⟨Accounts.dropClient reason, fun hw p hp => hw p (pending_dropClient reason ▸ hp)⟩

theorem Follows.dropPending : Follows s s.dropPending :=
  ⟨Accounts.dropPending, fun _ p hp => by rw [pending_dropPending] at hp; cases hp⟩

theorem Follows.of_leads {why : Prop} (h : Leads A s why s') : Follows s s' := by
  cases h with
  | stays hs => exact Follows.of_steady hs
  | drops reason hs _ => exact (Follows.of_steady hs).trans (Follows.dropClient reason)

theorem Inv.of_follows (h : Inv s) (hf : Follows s s') : Inv s' := by
  refine ⟨?_, ?_, ?_, hf.waits h.waits⟩
  · rw [hf.accounts.accepted]
    exact h.keys
  · rw [hf.accounts.accepted, hf.accounts.nextGen]
    exact h.next
  · rw [hf.accounts.accepted]
    exact h.accounted.trans hf.accounts.perm.symm

theorem Inv.accept (h : Inv s) (now : Nat) : Inv (s.accept A now) := by
  obtain ⟨hkeys, hnext, haccounted, -⟩ := h.of_follows Follows.dropPending
  refine ⟨?_, ?_, ?_, fun p hp => ?_⟩
  · simp only [Loop.accept, List.length_append, List.length_singleton, List.range_succ, List.map_append,
      List.map_singleton]
    rw [← hkeys, ← hnext]
  · simp only [Loop.accept, List.length_append, List.length_singleton]
    rw [← dynamicGen_succ, ← hnext]
  · have hlive : s.dropPending.live = (s.dropPending.client.map (·.key)).toList := by
      simp [live]
    rw [hlive] at haccounted
    simp only [Loop.accept, live, Option.map_some, Option.toList_some]
    rw [← List.append_assoc]
    exact haccounted.append_right _
  · cases Option.some.inj hp
    have hnil : framing.drain [] = ([], some []) := Framing.drain_of_needMore framing.front_nil
    exact ⟨⟨rfl, by rw [hnil]; rfl⟩, by rw [hnil]; rfl⟩

/-- What touches neither the connections nor their keys. -/
theorem Follows.of_same (haccepted : s'.accepted = s.accepted) (hgen : s'.nextGen = s.nextGen)
    (hclosed : s'.closed = s.closed) (hclient : s'.client = s.client)
    (hpending : s'.pending = s.pending) : Follows s s' := by
  refine ⟨⟨haccepted, hgen, ?_⟩, fun hw p hp => hw p (hpending ▸ hp)⟩
  rw [live, live, hclosed, hclient, hpending]

theorem Follows.expirePending (t : Tail) : Follows s (s.expirePending t) := by
  unfold Loop.expirePending
  split
  · exact Follows.dropPending
  · exact Follows.refl s

theorem Follows.detachIfAsked : Follows s (s.detachIfAsked A) := by
  have hasked : Follows s { s with
      session := { s.session with rest := (A.takeDetach s.session.rest).2 } } :=
    .of_same rfl rfl rfl rfl rfl
  unfold Loop.detachIfAsked
  simp only
  split
  · exact hasked.trans (Follows.dropClient _)
  · exact hasked

theorem Follows.compose (t : Tail) : Follows s (s.compose A t) := by
  cases hc : s.client with
  | none =>
      unfold Loop.compose
      rw [hc]
      exact Follows.refl s
  | some c =>
      have hleads : Leads A s True (s.compose A t) :=
        compose_leads hc (fun _ _ _ => trivial) fun _ _ _ => trivial
      exact Follows.of_leads hleads

theorem Follows.restartIfAsked : Follows s (s.restartIfAsked A) := by
  unfold Loop.restartIfAsked
  split
  · have hdeaf : Follows s { s with listening := false } := .of_same rfl rfl rfl rfl rfl
    exact (hdeaf.trans (Follows.dropClient _)).trans (.of_same rfl rfl rfl rfl rfl)
  · exact Follows.refl s

theorem Follows.quitIfAsked : Follows s (s.quitIfAsked A) := by
  unfold Loop.quitIfAsked
  split
  · exact .of_same rfl rfl rfl rfl rfl
  · exact Follows.refl s

theorem Follows.leave : Follows s (s.leave A) :=
  (Follows.dropClient (some (text "le demon s'arrete"))).trans (.of_same rfl rfl rfl rfl rfl)

theorem Follows.tail (t : Tail) : Follows s (s.tail A t) := by
  have hbefore : Follows s (s.beforeFrame A t) :=
    ((Follows.expirePending t).trans (.of_steady Steady.noteDirty)).trans Follows.detachIfAsked
  have hlast : Follows s ((((s.beforeFrame A t).compose A t).restartIfAsked A).quitIfAsked A) :=
    ((hbefore.trans (Follows.compose t)).trans Follows.restartIfAsked).trans Follows.quitIfAsked
  unfold Loop.tail
  simp only
  split
  · exact hlast
  · exact hlast.trans Follows.leave

theorem Follows.onFdEvent (key : UInt64) (events : UInt32) : Follows s (s.onFdEvent A key events) := by
  unfold Loop.onFdEvent
  split
  · exact Follows.refl s
  · exact .of_steady ((Steady.refl s).call _)

theorem onSignals_spec (e : EpollEvent) :
    (s.onSignals A e).client = s.client ∧ Follows s (s.onSignals A e) := by
  unfold onSignals
  cases e.terminated <;> cases e.childDied <;> exact ⟨rfl, .of_same rfl rfl rfl rfl rfl⟩

/-- The four ways an event can go. -/
theorem onEvent_cases (A : Parts P E D R) (s : Loop P D R) (e : EpollEvent) :
    ((s.onEvent A e).client = s.client ∧ Follows s (s.onEvent A e)) ∨
    (∃ now, s.onEvent A e = s.accept A now) ∨
    (∃ c, s.client = some c ∧ e.key = c.key ∧ s.onEvent A e = s.onClient A c e) ∨
    s.onEvent A e = s.onOther A e := by
  unfold onEvent
  by_cases hsignal : e.key = makeKey 0 kGenSignal
  · left
    rw [if_pos hsignal]
    exact onSignals_spec e
  rw [if_neg hsignal]
  by_cases htimer : e.key = makeKey 0 kGenTimer
  · rw [if_pos htimer]
    exact .inl ⟨rfl, Follows.refl s⟩
  rw [if_neg htimer]
  by_cases hlistener : e.key = makeKey 0 kGenListener
  · rw [if_pos hlistener]
    cases e.accepts with
    | none => exact .inl ⟨rfl, Follows.refl s⟩
    | some now => exact .inr (.inl ⟨now, rfl⟩)
  rw [if_neg hlistener]
  by_cases hlate : e.key ∈ s.closedThisBatch
  · rw [if_pos hlate]
    exact .inl ⟨rfl, Follows.refl s⟩
  rw [if_neg hlate]
  cases hc : s.client with
  | none => exact .inr (.inr (.inr rfl))
  | some c =>
      simp only
      by_cases hkey : e.key = c.key
      · rw [if_pos hkey]
        exact .inr (.inr (.inl ⟨c, rfl, hkey, rfl⟩))
      · rw [if_neg hkey]
        exact .inr (.inr (.inr rfl))

/-- An event that is for neither the daemon nor the client: the pending connection waits,
or is closed, or takes the client's place. -/
theorem onOther_cases (h : Inv s) (e : EpollEvent) :
    (Alike s (s.onOther A e) ∧ Follows s (s.onOther A e)) ∨
    (s.onOther A e = s.onFdEvent A e.key e.events ∧ ∀ p, s.pending = some p → e.key ≠ p.key) ∨
    (∃ p p' h, s.pending = some p ∧ Introduces p e ∧ p'.key = p.key ∧
      s.onOther A e = ({ s with pending := some p' } : Loop P D R).promote A p' h) := by
  unfold onOther
  cases hp : s.pending with
  | none => exact .inr (.inl ⟨rfl, fun p hp' => by cases hp'⟩)
  | some p =>
      simp only
      by_cases hkey : e.key = p.key
      · rw [if_pos hkey]
        rcases onPending_spec (A := A) hp (h.waits p hp) hkey with ⟨h₁, h₂, h₃⟩ | ⟨h₁, p', hello, h₂, h₃⟩
        · exact .inl ⟨h₁, h₂, fun _ => h₃⟩
        · exact .inr (.inr ⟨p, p', hello, rfl, h₁, h₂, h₃⟩)
      · rw [if_neg hkey]
        exact .inr (.inl ⟨rfl, fun q hq => Option.some.inj hq ▸ hkey⟩)

theorem Follows.promote {p p' : Client P D} (hp : s.pending = some p) (hkey : p'.key = p.key)
    (h : Hello) : Follows s (({ s with pending := some p' } : Loop P D R).promote A p' h) := by
  refine ⟨(Accounts.of_pending hp hkey).trans (Accounts.promote rfl h), fun _ q hq => ?_⟩
  cases hq

theorem Inv.step (h : Inv s) (i : Input) : Inv (s.step A i) := by
  unfold Loop.step
  by_cases hover : s.finished
  · rw [if_pos hover]
    exact h
  rw [if_neg hover]
  cases i with
  | wake w => exact h.of_follows (.of_steady (Steady.wake w))
  | tail t => exact h.of_follows (Follows.tail t)
  | broken => exact h.of_follows Follows.leave
  | event e =>
      simp only
      rcases onEvent_cases A s e with ⟨-, hf⟩ | ⟨now, heq⟩ | ⟨c, hc, hkey, heq⟩ | heq
      · exact h.of_follows hf
      · exact heq ▸ h.accept now
      · exact heq ▸ h.of_follows (Follows.of_leads (onClient_leads hc hkey))
      · rw [heq]
        rcases onOther_cases (A := A) h e with ⟨-, hf⟩ | ⟨heq, -⟩ | ⟨p, p', hello, hp, -, hkey, heq⟩
        · exact h.of_follows hf
        · exact heq ▸ h.of_follows (Follows.onFdEvent _ _)
        · exact heq ▸ h.of_follows (Follows.promote hp hkey hello)

/-! ### What every step keeps -/

theorem noteDirty_eq (A : Parts P E D R) (s : Loop P D R) :
    (s.noteDirty A).client = s.client ∧ (s.noteDirty A).running = s.running := by
  unfold Loop.noteDirty
  simp only
  split <;> exact ⟨rfl, rfl⟩

/-- The client is dismissed at the end of a turn only for a cause. -/
theorem tail_dismissed {c : Client P D} (hc : s.client = some c) (t : Tail) :
    (s.tail A t).client.map (·.key) = some c.key ∨ Cause A s c (.tail t) := by
  have hexpired : Alike s (s.expirePending t) := Alike.expirePending t
  obtain ⟨hclient, hrunning⟩ := noteDirty_eq A (s.expirePending t)
  rw [hexpired.client, hc] at hclient
  rw [hexpired.running] at hrunning
  by_cases hdetach : (A.takeDetach ((s.expirePending t).noteDirty A).session.rest).1 = true
  · exact .inr (.detach hdetach)
  have hbefore : (s.beforeFrame A t).client = some c ∧ (s.beforeFrame A t).running = s.running := by
    unfold beforeFrame detachIfAsked
    simp only [hdetach, Bool.false_eq_true, if_false]
    exact ⟨hclient, hrunning⟩
  have hcompose : Leads A (s.beforeFrame A t) (Cause A s c (.tail t)) ((s.beforeFrame A t).compose A t) :=
    compose_leads hbefore.1 (fun d hd => Cause.overflow hd) fun d hd => Cause.frameFailure hd
  generalize hs₁ : (s.beforeFrame A t).compose A t = s₁ at hcompose
  cases hcompose with
  | drops reason hs hwhy => exact .inr hwhy
  | stays hs =>
      have hkey := hs.client
      rw [hbefore.1] at hkey
      by_cases hrestart : A.wantsUpdateRestart s₁.session.rest = true
      · exact .inr (.updateRestart (hs₁ ▸ hrestart))
      by_cases hquit : A.wantsQuit (s₁.restartIfAsked A).session.rest = true
      · exact .inr (.quit (hs₁ ▸ hquit))
      have hlast : (s₁.restartIfAsked A).quitIfAsked A = s₁ := by
        rw [quitIfAsked, if_neg hquit, restartIfAsked, if_neg hrestart]
      by_cases hrun : s.running = true
      · left
        have hrun₁ : s₁.running = true := hs.running.trans (hbefore.2.trans hrun)
        rw [tail, hs₁, hlast]
        simp only [hrun₁, if_true]
        exact hkey
      · exact .inr (.stopped (by simpa using hrun))

/-- And while the daemon runs, nothing else costs it its place. -/
theorem step_dismissed (h : Inv s) {c : Client P D} (hc : s.client = some c) (i : Input) :
    (s.step A i).client.map (·.key) = some c.key ∨ Cause A s c i := by
  have hsame : s.client.map (·.key) = some c.key := by rw [hc, Option.map_some]
  unfold Loop.step
  by_cases hover : s.finished
  · rw [if_pos hover]
    exact .inl hsame
  rw [if_neg hover]
  cases i with
  | wake w => exact .inl ((Steady.wake w).client.trans hsame)
  | tail t => exact tail_dismissed hc t
  | broken => exact .inr .broken
  | event e =>
      simp only
      rcases onEvent_cases A s e with ⟨hclient, -⟩ | ⟨now, heq⟩ | ⟨c', hc', hkey, heq⟩ | heq
      · exact .inl (by rw [hclient]; exact hsame)
      · rw [heq, (Alike.accept now).client]
        exact .inl hsame
      · rw [hc] at hc'
        cases Option.some.inj hc'
        rw [heq]
        exact (onClient_leads hc hkey).kept hc
      · rw [heq]
        rcases onOther_cases (A := A) h e with ⟨halike, -⟩ | ⟨heq, -⟩ | ⟨p, p', hello, hp, hintro, -, -⟩
        · rw [halike.client]
          exact .inl hsame
        · rw [heq]
          refine .inl ?_
          unfold onFdEvent
          split
          · exact hsame
          · exact hsame
        · exact .inr (.takenOver hp hintro)

/-- No counter has come round: neither that of the connections nor that of the windows. -/
def Unwrapped (s : Loop P D R) : Prop :=
  s.accepted.length ≤ 2 ^ 32 - 15 ∧ ∀ w ∈ s.session.hosts.windows, w.win ≠ 0

instance (s : Loop P D R) : Decidable (Unwrapped s) := inferInstanceAs (Decidable (_ ∧ _))

/-- What is known of the key of a connection. -/
theorem Inv.key_eq (h : Inv s) {key : UInt64} (hmem : key ∈ s.closed ++ s.live) :
    ∃ n < s.accepted.length, key = makeKey 0 (dynamicGen n) := by
  have hin := h.accounted.mem_iff.2 hmem
  rw [h.keys] at hin
  obtain ⟨n, hn, rfl⟩ := List.mem_map.1 hin
  exact ⟨n, List.mem_range.1 hn, rfl⟩

/-- No application is called with the key of a connection. -/
theorem Inv.onFdEvent_eq (h : Inv s) (hunwrapped : Unwrapped s) {key : UInt64}
    (hmem : key ∈ s.closed ++ s.live) (events : UInt32) : s.onFdEvent A key events = s := by
  obtain ⟨n, -, rfl⟩ := h.key_eq hmem
  have hfind : s.session.hosts.find (keyWindow (makeKey 0 (dynamicGen n))) = none := by
    rw [keyWindow_makeKey]
    exact List.find?_eq_none.2 fun w hw => by simpa using hunwrapped.2 w hw
  unfold Loop.onFdEvent Hosts.onFdEvent
  rw [hfind]

/-- A connection's key is none of those of the daemon's other descriptors. -/
theorem Inv.key_ne (h : Inv s) (hunwrapped : Unwrapped s) {key : UInt64}
    (hmem : key ∈ s.closed ++ s.live) : key ≠ makeKey 0 kGenSignal ∧ key ≠ makeKey 0 kGenTimer ∧
      key ≠ makeKey 0 kGenListener := by
  obtain ⟨n, hn, rfl⟩ := h.key_eq hmem
  have hlt : n < 2 ^ 32 - 15 := hn.trans_le hunwrapped.1
  have hgen : ∀ g : UInt32, 1 ≤ g.toNat → g.toNat ≤ 3 → makeKey 0 (dynamicGen n) ≠ makeKey 0 g := by
    intro g h1 h3 heq
    have hg := congrArg (fun key => (keyGen key).toNat) heq
    simp only [keyGen_makeKey, dynamicGen, UInt32.toNat_ofNat'] at hg
    omega
  exact ⟨hgen _ (by decide) (by decide), hgen _ (by decide) (by decide), hgen _ (by decide) (by decide)⟩

/-- Every connection has its own key. -/
theorem Inv.keys_nodup (h : Inv s) (hunwrapped : Unwrapped s) : (s.closed ++ s.live).Nodup := by
  refine h.accounted.nodup_iff.1 ?_
  rw [h.keys]
  refine List.Nodup.map_on (fun m hm n hn heq => ?_) List.nodup_range
  have hm' := List.mem_range.1 hm
  have hn' := List.mem_range.1 hn
  have hle := hunwrapped.1
  refine dynamicGen_inj (by omega) (by omega) ?_
  simpa using congrArg keyGen heq

/-- An event that comes late, for a connection closed whenever, does nothing at all. -/
theorem step_late (h : Inv s) (hunwrapped : Unwrapped s) {e : EpollEvent} (hclosed : e.key ∈ s.closed) :
    s.step A (.event e) = s := by
  have hmem : e.key ∈ s.closed ++ s.live := List.mem_append_left _ hclosed
  obtain ⟨hsignal, htimer, hlistener⟩ := h.key_ne hunwrapped hmem
  have hlive : ∀ key ∈ s.live, e.key ≠ key :=
    (List.nodup_append.1 (h.keys_nodup hunwrapped)).2.2 e.key hclosed
  have hother : s.onOther A e = s := by
    unfold onOther
    cases hp : s.pending with
    | none => exact h.onFdEvent_eq hunwrapped hmem _
    | some p =>
        simp only
        rw [if_neg (hlive p.key (by simp [live, hp]))]
        exact h.onFdEvent_eq hunwrapped hmem _
  unfold Loop.step
  by_cases hover : s.finished
  · rw [if_pos hover]
  rw [if_neg hover]
  simp only
  rw [onEvent, if_neg hsignal, if_neg htimer, if_neg hlistener]
  split
  · rfl
  · cases hc : s.client with
    | none => exact hother
    | some c =>
        simp only
        rw [if_neg (hlive c.key (by simp [live, hc]))]
        exact hother

/-- An event for none of the daemon's own keys goes the same way with or without the connection
that waits. -/
theorem onOther_quiet (h : Inv s) (hunwrapped : Unwrapped s) {p : Client P D} (hp : s.pending = some p)
    (e : EpollEvent) : Introduces p e ∨
      Alike (s.onOther A e) (({ s with pending := none } : Loop P D R).onOther A e) := by
  have hpair : Alike s { s with pending := none } := ⟨{ s.books with pending := none }, rfl⟩
  have hfd : ({ s with pending := none } : Loop P D R).onOther A e =
      ({ s with pending := none } : Loop P D R).onFdEvent A e.key e.events := rfl
  rw [hfd]
  rcases onOther_cases (A := A) h e with ⟨halike, -⟩ | ⟨heq, -⟩ | ⟨q, -, -, hq, hintro, -, -⟩
  · right
    by_cases hkey : e.key = p.key
    · have hquiet : s.onFdEvent A e.key e.events = s :=
        h.onFdEvent_eq hunwrapped (List.mem_append_right _ (by simp [live, hp, hkey])) _
      have hsame := hpair.onFdEvent (A := A) e.key e.events
      rw [hquiet] at hsame
      exact halike.symm.trans hsame
    · have heq : s.onOther A e = s.onFdEvent A e.key e.events := by
        rw [onOther, hp]
        exact if_neg hkey
      rw [heq]
      exact hpair.onFdEvent _ _
  · right
    rw [heq]
    exact hpair.onFdEvent _ _
  · rw [hp] at hq
    cases Option.some.inj hq
    exact .inl hintro

/-- With or without the connection that waits, everything else goes the same way, until it
introduces itself. -/
theorem step_quiet (h : Inv s) (hunwrapped : Unwrapped s) {p : Client P D} (hp : s.pending = some p)
    (i : Input) : (∃ e, i = .event e ∧ Introduces p e) ∨
      Alike (s.step A i) (({ s with pending := none } : Loop P D R).step A i) := by
  have hpair : Alike s { s with pending := none } := ⟨{ s.books with pending := none }, rfl⟩
  have hquiet := onOther_quiet (A := A) h hunwrapped hp
  have hbatch : ({ s with pending := none } : Loop P D R).closedThisBatch = s.closedThisBatch := rfl
  have hsignals : ∀ e, Alike (s.onSignals A e) (({ s with pending := none } : Loop P D R).onSignals A e) := by
    intro e
    unfold onSignals
    cases e.terminated <;> cases e.childDied <;> exact ⟨{ s.books with pending := none }, rfl⟩
  have hend : ({ s with pending := none } : Loop P D R).finished = s.finished := rfl
  generalize ({ s with pending := none } : Loop P D R) = s' at hpair hquiet hbatch hsignals hend
  unfold Loop.step
  rw [hend]
  by_cases hover : s.finished
  · rw [if_pos hover, if_pos hover]
    exact .inr hpair
  rw [if_neg hover, if_neg hover]
  cases i with
  | wake w => exact .inr (hpair.wake w)
  | tail t => exact .inr (hpair.tail t)
  | broken => exact .inr hpair.leave
  | event e =>
      refine (hquiet e).elim (fun hintro => .inl ⟨e, rfl, hintro⟩) fun hother => .inr ?_
      simp only
      unfold onEvent
      by_cases hsignal : e.key = makeKey 0 kGenSignal
      · rw [if_pos hsignal, if_pos hsignal]
        exact hsignals e
      rw [if_neg hsignal, if_neg hsignal]
      by_cases htimer : e.key = makeKey 0 kGenTimer
      · rw [if_pos htimer, if_pos htimer]
        exact hpair
      rw [if_neg htimer, if_neg htimer]
      by_cases hlistener : e.key = makeKey 0 kGenListener
      · rw [if_pos hlistener, if_pos hlistener]
        cases e.accepts with
        | none => exact hpair
        | some now => exact ((Alike.accept now).symm.trans hpair).trans (Alike.accept now)
      rw [if_neg hlistener, if_neg hlistener, hbatch, hpair.client]
      by_cases hlate : e.key ∈ s.closedThisBatch
      · rw [if_pos hlate, if_pos hlate]
        exact hpair
      rw [if_neg hlate, if_neg hlate]
      cases hc : s.client with
      | none => exact hother
      | some c =>
          simp only
          by_cases hkey : e.key = c.key
          · rw [if_pos hkey, if_pos hkey]
            exact hpair.onClient c e
          · rw [if_neg hkey, if_neg hkey]
            exact hother

/-- **What a step of the daemon keeps.** The connections accepted and not closed are the
client and the one that waits; the client loses its place only for a cause; the one that
waits makes no difference to anything else before it introduces itself; an event for a
connection that is closed does nothing. -/
structure Kept (A : Parts P E D R) (s : Loop P D R) (i : Input) : Prop where
  two : s.accepted.Perm (s.closed ++ s.live)
  dismissed : ∀ c, s.client = some c → (s.step A i).client.map (·.key) = some c.key ∨ Cause A s c i
  quiet : ∀ p, s.pending = some p → (∃ e, i = .event e ∧ Introduces p e) ∨
    Alike (s.step A i) (({ s with pending := none } : Loop P D R).step A i)
  late : ∀ e, i = .event e → e.key ∈ s.closed → s.step A i = s

/-- The daemon as it starts: no window, no connection. -/
def start (rest : R) : Loop P D R := { session := { rest := rest } }

theorem Inv.start (rest : R) : Inv (start rest : Loop P D R) :=
  ⟨rfl, rfl, List.Perm.refl _, fun _ hp => by cases hp⟩

theorem Inv.run (h : Inv s) (is : List Input) : Inv (Lib.run (Loop.step A) s is) :=
  Lib.run_preserves (fun _ i hi => hi.step i) h is

/-- **The daemon keeps to its connections.** As long as no counter has come round, every
step of every run of the daemon keeps the client from being dismissed without cause, the
connection that waits from making a difference, and late events from doing anything. -/
theorem kept_of_unwrapped (A : Parts P E D R) (rest : R) {is : List Input}
    (hmeet : StepsMeet (step A) (fun s _ => Unwrapped s) (start rest) is) :
    ∀ before i, before ++ [i] <+: is → Kept A (run (step A) (start rest) before) i := by
  intro before i hpre
  have hunwrapped := Lib.stepsMeet_iff.1 hmeet before i hpre
  have hinv : Inv (run (step A) (start rest) before) := (Inv.start rest).run before
  refine ⟨hinv.accounted, fun c hc => step_dismissed hinv hc i,
    fun p hp => step_quiet hinv hunwrapped hp i, ?_⟩
  rintro e rfl hclosed
  exact step_late hinv hunwrapped hclosed

/-! ### When the generations come round -/

/-- A session that asks for nothing, and nothing to draw. -/
def idleParts : Parts Unit Unit Unit Unit where
  alloc := max
  fresh := ()
  feed := fun _ _ => ([], ())
  timeout := fun _ => ([], ())
  escPending := fun _ => false
  differ := fun _ => ()
  invalidate := id
  frame := fun _ _ => ([], ())
  call := fun _ _ => ((), [])
  takeDirty := fun _ => (false, ())
  takeDetach := fun _ => (false, ())
  takeRepaint := fun _ => (false, ())
  wantsUpdateRestart := fun _ => false
  wantsQuit := fun _ => false
  updateDue := fun _ _ => false
  refreshDelay := fun _ => -1

/-- A peer comes. -/
def knock : EpollEvent := { key := makeKey 0 kGenListener, events := kEpollIn, accepts := some 0 }

/-- The peer that waits hangs up. -/
def hangUp (key : UInt64) : EpollEvent := { key := key, events := kEpollHup }

/-- A peer introduces itself. -/
def saysHello (key : UInt64) : EpollEvent :=
  { key := key, events := kEpollIn, reads := [encode (.hello { cols := 80, rows := 24 })] }

/-- A client attaches; another peer comes, hangs up, and an event for it is late. -/
def probe : List Input :=
  [.event knock, .event (saysHello (makeKey 0 16)), .event knock, .event (hangUp (makeKey 0 17)),
    .event (hangUp (makeKey 0 17))]

/-- At the moment of the late event. -/
theorem kept_of_unwrapped_probe :
    (run (step idleParts) (start ()) (probe.take 4)).client.map (·.key) = some (makeKey 0 16) ∧
    Kept idleParts (run (step idleParts) (start ()) (probe.take 4)) (.event (hangUp (makeKey 0 17))) := by
  have hmeet : StepsMeet (step idleParts) (fun s _ => Unwrapped s) (start ()) probe := by decide +kernel
  exact ⟨by decide +kernel, kept_of_unwrapped idleParts () hmeet _ _ List.prefix_rfl⟩

/-- A turn in which a peer comes, and says nothing. -/
def knockTurn : List Input := [.wake ⟨0, 0, 0⟩, .event knock, .tail ⟨0, 0, []⟩]

/-- Nobody but a silent peer is connected. -/
structure Silent (s : Loop Unit Unit Unit) : Prop where
  client : s.client = none
  running : s.running = true
  finished : s.finished = false

theorem wake_silent {s : Loop Unit Unit Unit} (h : Silent s) :
    s.step idleParts (.wake ⟨0, 0, 0⟩) = { s with closedThisBatch := [], escArmed := false } := by
  simp [step, wake, checkEsc, tickIfDue, refreshIfDue, refreshDue, idleParts, h.client, h.finished]

theorem knock_silent {s : Loop Unit Unit Unit} (h : Silent s) :
    s.step idleParts (.event knock) = s.accept idleParts 0 := by
  have hkey : knock.key ≠ makeKey 0 kGenSignal ∧ knock.key ≠ makeKey 0 kGenTimer ∧
      knock.key = makeKey 0 kGenListener := by decide
  rw [step, h.finished]
  simp only [Bool.false_eq_true, if_false]
  rw [onEvent, if_neg hkey.1, if_neg hkey.2.1, if_pos hkey.2.2]
  rfl

theorem tail_silent {s : Loop Unit Unit Unit} (h : Silent s) (hearly : 0 < s.pendingDeadline) :
    s.step idleParts (.tail ⟨0, 0, []⟩) = s := by
  have hexpire : s.expirePending ⟨0, 0, []⟩ = s := if_neg fun hd => by
    have hge : (0 : Nat) ≥ s.pendingDeadline := hd.2
    omega
  have hbefore : s.beforeFrame idleParts ⟨0, 0, []⟩ = s := by
    rw [beforeFrame, hexpire]
    rfl
  have hcompose : s.compose idleParts ⟨0, 0, []⟩ = s := by
    rw [compose, h.client]
  rw [step, h.finished]
  simp only [Bool.false_eq_true, if_false]
  rw [tail, hbefore, hcompose]
  exact if_pos h.running

theorem Silent.accept {s : Loop Unit Unit Unit} (h : Silent s) :
    Silent (s.accept idleParts 0) := by
  obtain ⟨b, heq⟩ := Alike.accept (A := idleParts) (s := s) 0
  rw [heq]
  exact ⟨h.client, h.running, h.finished⟩

/-- Such a turn leaves the newcomer waiting, and nobody else. -/
theorem run_knockTurn {s : Loop Unit Unit Unit} (h : Silent s) :
    run (step idleParts) s knockTurn =
      ({ s with closedThisBatch := [], escArmed := false } : Loop Unit Unit Unit).accept idleParts 0 := by
  have hawake : Silent { s with closedThisBatch := [], escArmed := false } :=
    ⟨h.client, h.running, h.finished⟩
  simp only [knockTurn, Lib.run_cons, Lib.run_nil]
  rw [wake_silent h, knock_silent hawake]
  refine tail_silent hawake.accept ?_
  show 0 < 0 + kPendingHelloTimeout
  decide

theorem accept_counts (t : Loop Unit Unit Unit) :
    (t.accept idleParts 0).accepted.length = t.accepted.length + 1 ∧
      (t.accept idleParts 0).nextGen = t.nextGen + 1 := by
  have hdrop : Accounts t t.dropPending := Accounts.dropPending
  simp only [Loop.accept, List.length_append, hdrop.accepted, hdrop.nextGen, List.length_singleton,
    and_self]

/-- After `n` of them, `n` peers have come, and the last one waits. -/
theorem run_knockTurns (n : Nat) : ∃ s : Loop Unit Unit Unit,
    run (step idleParts) (start ()) (List.replicate n knockTurn).flatten = s ∧ Silent s ∧
      s.accepted.length = n ∧ ∀ m, n = m + 1 → ∃ p, s.pending = some p ∧
        p.key = makeKey 0 (dynamicGen m) := by
  induction n with
  | zero => exact ⟨_, rfl, ⟨rfl, rfl, rfl⟩, rfl, fun m hm => by omega⟩
  | succ n ih =>
      obtain ⟨s, hs, hsilent, hlen, -⟩ := ih
      have hinv : Inv s := hs ▸ (Inv.start ()).run _
      rw [List.replicate_succ', List.flatten_append, Lib.run_append, List.flatten_singleton, hs,
        run_knockTurn hsilent]
      have hawake : Silent { s with closedThisBatch := [], escArmed := false } :=
        ⟨hsilent.client, hsilent.running, hsilent.finished⟩
      refine ⟨_, rfl, hawake.accept, ?_, fun m hm => ⟨_, rfl, ?_⟩⟩
      · rw [(accept_counts _).1]
        exact congrArg (· + 1) hlen
      · have hnext : (dropPending ({ s with closedThisBatch := [], escArmed := false } :
            Loop Unit Unit Unit)).nextGen = s.nextGen := Accounts.dropPending.nextGen
        show makeKey 0 (dropPending _).nextGen = _
        rw [hnext, hinv.next, hlen, Nat.succ.inj hm]

/-- The connection that comes after `2 ^ 32 - 15` others has the key of the listener: once it
is closed, an event for it lets another one in, and that one closes the one that waits. -/
theorem keys_come_round :
    ¬ ∀ is before i, before ++ [i] <+: is → Kept idleParts (run (step idleParts) (start ()) before) i := by
  intro hall
  obtain ⟨n, hn⟩ : ∃ n : Nat, n = 2 ^ 32 - 15 := ⟨_, rfl⟩
  obtain ⟨s, hs, hsilent, -, hlast⟩ := run_knockTurns (n + 1)
  obtain ⟨p, hp, hkey⟩ := hlast n rfl
  have hone : makeKey 0 (dynamicGen n) = knock.key := by
    rw [hn]
    decide
  have hlate := (hall _ ((List.replicate (n + 1) knockTurn).flatten ++ [.event knock])
    (.event knock) List.prefix_rfl).late knock rfl
  rw [Lib.run_append, hs, Lib.run_cons, Lib.run_nil, knock_silent hsilent,
    knock_silent hsilent.accept] at hlate
  have hclosed : knock.key ∈ (s.accept idleParts 0).closed := by
    have heq : (s.accept idleParts 0).closed = s.closed ++ [p.key] := by
      simp only [Loop.accept, Loop.dropPending, hp]
    rw [heq, hkey, hone]
    exact List.mem_append_right _ (List.mem_singleton_self _)
  have hcounts := congrArg (fun t : Loop Unit Unit Unit => t.accepted.length) (hlate hclosed)
  simp only [(accept_counts (s.accept idleParts 0)).1] at hcounts
  omega

end Loop

end Sshos.Daemon
