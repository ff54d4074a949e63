import Sshos.Daemon.LoopKept
import Sshos.Input.Parser

/-!
# Sshos.Daemon.LoopTimed

The loop **in time**: how long epoll waits, and what is never overdue.

A turn begins at some time, finds out how long it may sleep, and ends when epoll returns: at the
latest when the time it was given has passed. What the daemon computes takes no time here, and
the clock counts whole milliseconds.
-/

namespace Sshos.Daemon

open Sshos.Lib (Bytes run run_append run_invariant StepsMeet)
open Sshos.Common
open Sshos.Shell (text)

universe u

variable {P E D R : Type u}

/-! ### How long epoll waits -/

/-- `FrameClock::delay_ms`: negative when there is nothing to draw. -/
def FrameClock.delay (c : FrameClock) (now : Nat) : Int :=
  if !c.dirty then -1
  else
    match c.last with
    | none => 0
    | some last => if kFrameInterval ≤ now - last then 0 else ((kFrameInterval - (now - last) : Nat) : Int)

/-- What the loop asks of the session about time, negative for never. -/
structure Delays (A : Parts P E D R) where
  help : R → Nat → Int
  update : R → Nat → Int
  update_due : ∀ r now, A.updateDue r now = decide (update r now = 0)

/-- The longest the daemon sleeps while somebody watches its clock. -/
def kClockFloor : Int := 1000

/-- Not longer than this either. A negative time is no bound at all. -/
def shorten (timeout bound : Int) : Int := if timeout < 0 then bound else min timeout bound

def shortenIf (c : Bool) (timeout bound : Int) : Int := if c then shorten timeout bound else timeout

/-- A refresh that is due has just been made, and is drawn at once. -/
def shortenRefresh (left : Option Int) (timeout : Int) : Int :=
  match left with
  | none => timeout
  | some left => if left = 0 then 0 else shorten timeout left

namespace Loop

variable {A : Parts P E D R} (L : Delays A)

/-- There is somebody to draw for. -/
def renderable (s : Loop P D R) : Bool :=
  match s.client with
  | none => false
  | some c => c.differ.isSome

/-- What is left until a deadline. -/
def left (deadline now : Nat) : Int := max 0 ((deadline : Int) - now)

/-- What is left until the next refresh, if anything asks for one. -/
def refreshLeft (A : Parts P E D R) (s : Loop P D R) (now : Nat) : Option Int :=
  let delay := if s.client.isSome then A.refreshDelay s.session.rest else -1
  if delay ≥ 0 then some (max 0 (delay - ((now - s.lastRefresh : Nat) : Int))) else none

/-- The timeout that epoll is given in the turn that begins at this time. -/
def pollTimeout (s : Loop P D R) (now : Nat) : Int :=
  let s := ({ s with closedThisBatch := [] } : Loop P D R).checkEsc A now
  let timeout := if s.renderable then s.clock.delay now else -1
  let timeout := shortenIf s.client.isSome timeout kClockFloor
  let timeout := shortenIf s.pending.isSome timeout (left s.pendingDeadline now)
  let help := L.help s.session.rest now
  let timeout := shortenIf (decide (help ≥ 0)) timeout help
  -- the check that is due is made on the way, and no other is waited for
  let update := L.update s.session.rest now
  let timeout := shortenIf (decide (update > 0)) timeout update
  let s := s.tickIfDue A now
  let timeout := shortenRefresh (s.refreshLeft A now) timeout
  let s := s.refreshIfDue A now
  shortenIf s.escArmed timeout (left s.escDeadline now)

end Loop

/-! ### Turns -/

/-- One turn: when epoll returns, and with what. -/
structure Turn where
  wakesAt : Nat
  events : List EpollEvent := []
  sends : List SendResult := []

namespace Turn

def inputs (t : Turn) (now : Nat) : List Input :=
  .wake ⟨now, now, now⟩ :: t.events.map .event ++ [.tail ⟨t.wakesAt, t.wakesAt, t.sends⟩]

variable {A : Parts P E D R} (L : Delays A)

/-- Epoll returns no later than it is told to, and with nothing only then; a peer is accepted
when epoll returns. -/
structure Legal (x : Loop P D R × Nat) (t : Turn) : Prop where
  later : x.2 ≤ t.wakesAt
  intime : 0 ≤ x.1.pollTimeout L x.2 → (t.wakesAt : Int) ≤ x.2 + x.1.pollTimeout L x.2
  woken : t.events = [] → 0 ≤ x.1.pollTimeout L x.2 ∧ (t.wakesAt : Int) = x.2 + x.1.pollTimeout L x.2
  accepts : ∀ e ∈ t.events, ∀ now, e.accepts = some now → now = t.wakesAt

end Turn

/-- The state and the time after a turn. -/
def Loop.turn (A : Parts P E D R) (x : Loop P D R × Nat) (t : Turn) : Loop P D R × Nat :=
  (run (Loop.step A) x.1 (t.inputs x.2), t.wakesAt)

/-! ### Timeouts -/

section Shorten

variable {t b x : Int}

/-- A bound that may have become tighter. -/
def Tighter (timeout timeout' : Int) : Prop := 0 ≤ timeout → 0 ≤ timeout' ∧ timeout' ≤ timeout

theorem Tighter.trans {t' t'' : Int} (h : Tighter t t') (h' : Tighter t' t'') : Tighter t t'' := by
  intro h0
  obtain ⟨h₁, h₂⟩ := h h0
  obtain ⟨h₃, h₄⟩ := h' h₁
  exact ⟨h₃, h₄.trans h₂⟩

theorem shorten_le (hb : 0 ≤ b) : 0 ≤ shorten t b ∧ shorten t b ≤ b := by
  unfold shorten
  split <;> omega

theorem Tighter.shorten (hb : 0 ≤ b) : Tighter t (shorten t b) := by
  intro h0
  unfold Daemon.shorten
  rw [if_neg (by omega)]
  omega

theorem shortenIf_le {c : Bool} (hc : c = true) (hb : 0 ≤ b) :
    0 ≤ shortenIf c t b ∧ shortenIf c t b ≤ b := by
  unfold shortenIf
  rw [if_pos hc]
  exact shorten_le hb

theorem Tighter.shortenIf {c : Bool} (hb : c = true → 0 ≤ b) : Tighter t (shortenIf c t b) := by
  unfold Daemon.shortenIf
  split
  · next hc => exact .shorten (hb hc)
  · exact fun h0 => ⟨h0, Int.le_refl t⟩

theorem Tighter.shortenRefresh {left : Option Int} (hleft : ∀ b, left = some b → 0 ≤ b) :
    Tighter t (shortenRefresh left t) := by
  unfold Daemon.shortenRefresh
  split
  · exact fun h0 => ⟨h0, Int.le_refl t⟩
  · next b =>
      split
      · exact fun h0 => ⟨Int.le_refl 0, h0⟩
      · exact .shorten (hleft b rfl)

end Shorten

namespace Loop

variable {A : Parts P E D R} {s s' s'' : Loop P D R} {now : Nat}

theorem left_nonneg (deadline now : Nat) : 0 ≤ left deadline now := by
  unfold left
  omega

theorem refreshLeft_nonneg {l : Int} (h : s.refreshLeft A now = some l) : 0 ≤ l := by
  unfold refreshLeft at h
  simp only at h
  generalize (if s.client.isSome then A.refreshDelay s.session.rest else -1) = delay at h
  split at h
  · rw [← Option.some.inj h]
    omega
  · cases h

theorem delay_nonneg {c : FrameClock} (hdirty : c.dirty = true) : 0 ≤ c.delay now := by
  unfold FrameClock.delay
  rw [hdirty, Bool.not_true, if_neg (by simp)]
  split
  · exact Int.le_refl 0
  · split <;> omega

/-- The timeout is within all that is waited for. -/
structure PollBounds (L : Delays A) (s₁ s₂ s₃ : Loop P D R) (now : Nat) (timeout : Int) : Prop where
  frame : s₁.renderable = true → s₁.clock.dirty = true → 0 ≤ timeout ∧ timeout ≤ s₁.clock.delay now
  clock : s₁.client.isSome = true → 0 ≤ timeout ∧ timeout ≤ kClockFloor
  pending : s₁.pending.isSome = true → 0 ≤ timeout ∧ timeout ≤ left s₁.pendingDeadline now
  help : 0 ≤ L.help s₁.session.rest now → 0 ≤ timeout ∧ timeout ≤ L.help s₁.session.rest now
  update : 0 < L.update s₁.session.rest now → 0 ≤ timeout ∧ timeout ≤ L.update s₁.session.rest now
  refresh : ∀ l, s₂.refreshLeft A now = some l → 0 ≤ timeout ∧ timeout ≤ l
  esc : s₃.escArmed = true → 0 ≤ timeout ∧ timeout ≤ left s₃.escDeadline now
  /-- Nothing is polled. -/
  idle : s₁.client = none → s₁.pending = none → L.help s₁.session.rest now < 0 →
    L.update s₁.session.rest now ≤ 0 → s₂.client = none → s₃.escArmed = false → timeout < 0

theorem pollTimeout_bounds (L : Delays A) (s : Loop P D R) (now : Nat) :
    let s₁ := ({ s with closedThisBatch := [] } : Loop P D R).checkEsc A now
    let s₂ := s₁.tickIfDue A now
    PollBounds L s₁ s₂ (s₂.refreshIfDue A now) now (s.pollTimeout L now) := by
  intro s₁ s₂
  show PollBounds L s₁ s₂ (s₂.refreshIfDue A now) now _
  -- the stages, each no longer than the one before it
  let t₀ : Int := if s₁.renderable then s₁.clock.delay now else -1
  let t₁ := shortenIf s₁.client.isSome t₀ kClockFloor
  let t₂ := shortenIf s₁.pending.isSome t₁ (left s₁.pendingDeadline now)
  let t₃ := shortenIf (decide (L.help s₁.session.rest now ≥ 0)) t₂ (L.help s₁.session.rest now)
  let t₄ := shortenIf (decide (L.update s₁.session.rest now > 0)) t₃ (L.update s₁.session.rest now)
  let t₅ := shortenRefresh (s₂.refreshLeft A now) t₄
  let t₆ := shortenIf (s₂.refreshIfDue A now).escArmed t₅
    (left (s₂.refreshIfDue A now).escDeadline now)
  have ht₆ : s.pollTimeout L now = t₆ := rfl
  have h₆ : Tighter t₅ t₆ := .shortenIf fun _ => left_nonneg ..
  have h₅ : Tighter t₄ t₅ := .shortenRefresh fun _ hl => refreshLeft_nonneg hl
  have h₄ : Tighter t₃ t₄ := .shortenIf fun h => by
    have := of_decide_eq_true h
    omega
  have h₃ : Tighter t₂ t₃ := .shortenIf fun h => of_decide_eq_true h
  have h₂ : Tighter t₁ t₂ := .shortenIf fun _ => left_nonneg ..
  have h₁ : Tighter t₀ t₁ := .shortenIf fun _ => by unfold kClockFloor; omega
  have within : ∀ {t b : Int}, 0 ≤ t ∧ t ≤ b → Tighter t t₆ → 0 ≤ t₆ ∧ t₆ ≤ b := by
    intro t b hb ht
    obtain ⟨h, h'⟩ := ht hb.1
    exact ⟨h, h'.trans hb.2⟩
  have h₅₆ := h₅.trans h₆
  have h₄₆ := h₄.trans h₅₆
  have h₃₆ := h₃.trans h₄₆
  have h₂₆ := h₂.trans h₃₆
  rw [ht₆]
  refine ⟨fun hr hd => ?_, fun hc => ?_, fun hp => ?_, fun hh => ?_, fun hu => ?_, fun l hl => ?_,
    fun he => ?_, ?_⟩
  · have ht₀ : t₀ = s₁.clock.delay now := if_pos hr
    exact within ⟨ht₀ ▸ delay_nonneg hd, Int.le_of_eq ht₀⟩ (h₁.trans h₂₆)
  · exact within (shortenIf_le hc (by unfold kClockFloor; omega)) h₂₆
  · exact within (shortenIf_le hp (left_nonneg ..)) h₃₆
  · exact within (shortenIf_le (decide_eq_true hh) hh) h₄₆
  · exact within (shortenIf_le (decide_eq_true hu) (by omega)) h₅₆
  · have ht₅ : t₅ = if l = 0 then 0 else shorten t₄ l := by
      show (match s₂.refreshLeft A now with
        | none => t₄
        | some left => if left = 0 then 0 else shorten t₄ left) = _
      rw [hl]
    refine within ?_ h₆
    rw [ht₅]
    split
    · next h0 => omega
    · exact shorten_le (refreshLeft_nonneg hl)
  · exact within (shortenIf_le he (left_nonneg ..)) fun h0 => ⟨h0, Int.le_refl t₆⟩
  · intro hclient hpending hhelp hupdate hclient₂ harmed
    have hrenders : s₁.renderable = false := by
      unfold renderable
      rw [hclient]
    have hrefresh : s₂.refreshLeft A now = none := by
      unfold refreshLeft
      rw [hclient₂]
      rfl
    have ht₀ : t₀ = -1 := if_neg (by simp [hrenders])
    have ht₁ : t₁ = t₀ := by simp [t₁, shortenIf, hclient]
    have ht₂ : t₂ = t₁ := by simp [t₂, shortenIf, hpending]
    have ht₃ : t₃ = t₂ := by
      have : ¬ L.help s₁.session.rest now ≥ 0 := by omega
      simp [t₃, shortenIf, this]
    have ht₄ : t₄ = t₃ := by
      have : ¬ L.update s₁.session.rest now > 0 := by omega
      simp [t₄, shortenIf, this]
    have ht₅ : t₅ = t₄ := by simp [t₅, shortenRefresh, hrefresh]
    have ht₆' : t₆ = t₅ := by simp [t₆, shortenIf, harmed]
    rw [ht₆', ht₅, ht₄, ht₃, ht₂, ht₁, ht₀]
    omega

/-! ### What events do to the deadlines -/

/-- What is done to the deadlines of a loop at some time: nothing, but that a frame may be drawn
and a peer accepted, which is given its time. -/
structure Aside (now : Nat) (s s' : Loop P D R) : Prop where
  finished : s'.finished = s.finished
  armed : s'.escArmed = s.escArmed
  escDeadline : s'.escDeadline = s.escDeadline
  last : ∀ l, s'.clock.last = some l → s.clock.last = some l ∨ l = now
  accepted : s.accepted.length ≤ s'.accepted.length
  pending : s'.pending.isSome = true →
    (s.pending.isSome = true ∧ s'.pendingDeadline = s.pendingDeadline) ∨
      (s.accepted.length < s'.accepted.length ∧ s'.pendingDeadline = now + kPendingHelloTimeout)

theorem Aside.trans (h : Aside now s s') (h' : Aside now s' s'') : Aside now s s'' where
  finished := h'.finished.trans h.finished
  armed := h'.armed.trans h.armed
  escDeadline := h'.escDeadline.trans h.escDeadline
  last l hl := by
    rcases h'.last l hl with hl' | rfl
    · exact h.last l hl'
    · exact .inr rfl
  accepted := h.accepted.trans h'.accepted
  pending hp := by
    rcases h'.pending hp with ⟨hp', hdeadline⟩ | ⟨hnew, hdeadline⟩
    · rw [hdeadline]
      rcases h.pending hp' with hold | ⟨hnew, hdeadline⟩
      · exact .inl hold
      · exact .inr ⟨Nat.lt_of_lt_of_le hnew h'.accepted, hdeadline⟩
    · exact .inr ⟨Nat.lt_of_le_of_lt h.accepted hnew, hdeadline⟩

/-- Whatever happens to the session and the client, if the pending connection stays or goes. -/
theorem Aside.of_same (hfinished : s'.finished = s.finished) (harmed : s'.escArmed = s.escArmed)
    (hesc : s'.escDeadline = s.escDeadline) (hlast : s'.clock.last = s.clock.last)
    (haccepted : s'.accepted = s.accepted) (hdeadline : s'.pendingDeadline = s.pendingDeadline)
    (hpending : s'.pending.isSome = true → s.pending.isSome = true) : Aside now s s' :=
  ⟨hfinished, harmed, hesc, fun _ hl => .inl (hlast ▸ hl), Nat.le_of_eq (congrArg List.length haccepted).symm,
    fun hp => .inl ⟨hpending hp, hdeadline⟩⟩

theorem Aside.refl (s : Loop P D R) : Aside now s s := .of_same rfl rfl rfl rfl rfl rfl id

theorem Aside.call (h : Aside now s s') (c : Call E) : Aside now s (s'.call A c) :=
  h.trans (.of_same rfl rfl rfl rfl rfl rfl id)

theorem Aside.markDirty (h : Aside now s s') : Aside now s s'.markDirty :=
  h.trans (.of_same rfl rfl rfl rfl rfl rfl id)

theorem Aside.callInputs (h : Aside now s s') (es : List E) : Aside now s (s'.callInputs A es) := by
  induction es generalizing s' with
  | nil => exact h
  | cons e es ih => exact ih (h.call (.input e))

theorem Aside.withClient (c : Option (Client P D)) : Aside now s { s with client := c } :=
  .of_same rfl rfl rfl rfl rfl rfl id

theorem Aside.handle (h : Aside now s s') (m : Msg) : Aside now s (Loop.handle A s' m) := by
  refine h.trans ?_
  unfold Loop.handle
  split
  · exact ((Aside.withClient _).callInputs _).markDirty
  · refine Aside.markDirty (Aside.call ?_ _)
    exact .of_same rfl rfl rfl rfl rfl rfl id
  · exact .refl s'

theorem Aside.handles (h : Aside now s s') (ms : List Msg) :
    Aside now s (ms.foldl (Loop.handle A) s') := by
  induction ms generalizing s' with
  | nil => exact h
  | cons m ms ih => exact ih (h.handle m)

theorem Aside.dropClient (h : Aside now s s') (reason : Option Bytes) :
    Aside now s (s'.dropClient A reason) := by
  refine h.trans ?_
  unfold Loop.dropClient
  split
  · exact .refl s'
  · refine Aside.call ?_ _
    exact ⟨rfl, rfl, rfl, fun _ hl => (by cases hl), Nat.le_refl _, fun hp => .inl ⟨hp, rfl⟩⟩

theorem Aside.dropPending (h : Aside now s s') : Aside now s s'.dropPending := by
  refine h.trans ?_
  unfold Loop.dropPending
  split
  · exact .refl s'
  · exact .of_same rfl rfl rfl rfl rfl rfl (by simp)

theorem Aside.accept (s : Loop P D R) : Aside now s (s.accept A now) := by
  refine (Aside.dropPending (.refl s)).trans ?_
  have hnew : s.dropPending.accepted.length < (s.accept A now).accepted.length := by
    simp [Loop.accept]
  exact ⟨rfl, rfl, rfl, fun _ hl => .inl hl, hnew.le, fun _ => .inr ⟨hnew, rfl⟩⟩

theorem Aside.readOn (c : Client P D) (e : EpollEvent) : Aside now s (s.readOn A c e) := by
  have hread : Aside now s (s.readClient A c e).2 := (Aside.withClient _).handles _
  have hafter : Aside now s (if e.readable then s.readClient A c e else (true, s)).2 := by
    split
    · exact hread
    · exact .refl s
  unfold Loop.readOn
  generalize (if e.readable then s.readClient A c e else (true, s)) = r at hafter
  simp only
  split
  · exact hafter.dropClient _
  · split
    · exact hafter.dropClient _
    · exact hafter

theorem Aside.onClient (c : Client P D) (e : EpollEvent) : Aside now s (s.onClient A c e) := by
  have hafter : Aside now s (if e.writable then s.flushClient c e.sends else (true, s)).2 := by
    split
    · exact .withClient _
    · exact .refl s
  unfold Loop.onClient
  generalize (if e.writable then s.flushClient c e.sends else (true, s)) = r at hafter
  simp only
  split
  · exact hafter.dropClient _
  · split
    · exact hafter
    · exact hafter.trans (.readOn _ e)

theorem Aside.promote (h : Aside now s s') (p : Client P D) (hello : Hello) :
    Aside now s (s'.promote A p hello) := by
  have hdrop := h.dropClient (A := A) (text "un autre client a pris la main")
  unfold Loop.promote
  generalize s'.dropClient A (text "un autre client a pris la main") = s₁ at hdrop
  simp only
  refine Aside.markDirty (Aside.call (Aside.call ?_ _) _)
  refine hdrop.trans ?_
  exact .of_same rfl rfl rfl rfl rfl rfl (by simp [Loop.call])

theorem Aside.onPending (p : Client P D) (hp : s.pending.isSome = true) (e : EpollEvent) :
    Aside now s (s.onPending A p e) := by
  have hhang : ∀ {s' : Loop P D R}, Aside now s s' → Aside now s (s'.hangPending e) := by
    intro s' h
    unfold Loop.hangPending
    split
    · exact h.dropPending
    · exact h
  have hwith : ∀ q, Aside now s { s with pending := q } := fun q =>
    .of_same rfl rfl rfl rfl rfl rfl fun _ => hp
  unfold Loop.onPending
  split
  · exact hhang (.refl s)
  · simp only
    split
    · exact (hwith _).dropPending
    · split
      · exact hhang (hwith _)
      · split
        · refine Aside.dropPending ?_
          exact .of_same rfl rfl rfl rfl rfl rfl fun _ => hp
        · exact (hwith _).promote _ _

theorem Aside.onFdEvent (key : UInt64) (events : UInt32) : Aside now s (s.onFdEvent A key events) := by
  unfold Loop.onFdEvent
  split
  · exact .refl s
  · exact (Aside.refl s).call _

theorem Aside.onOther (e : EpollEvent) : Aside now s (s.onOther A e) := by
  unfold Loop.onOther
  split
  · exact .onFdEvent _ _
  · next p hp =>
      split
      · exact .onPending p (by rw [hp]; rfl) e
      · exact .onFdEvent _ _

/-- Any event, if a peer is accepted at this time. -/
theorem Aside.onEvent (e : EpollEvent) (haccepts : ∀ t, e.accepts = some t → t = now) :
    Aside now s (s.onEvent A e) := by
  unfold Loop.onEvent
  split
  · unfold Loop.onSignals
    simp only
    have hstop : Aside now s (if e.terminated then { s with running := false } else s) := by
      split
      · exact .of_same rfl rfl rfl rfl rfl rfl id
      · exact .refl s
    split
    · exact hstop.call _
    · exact hstop
  split
  · exact .refl s
  split
  · split
    · exact .refl s
    · next t ht =>
        rw [haccepts t ht]
        exact .accept s
  split
  · exact .refl s
  split
  · exact .onOther e
  · split
    · exact .onClient _ e
    · exact .onOther e

theorem Aside.events {es : List EpollEvent} (hopen : s.finished = false)
    (haccepts : ∀ e ∈ es, ∀ t, e.accepts = some t → t = now) :
    Aside now s (run (Loop.step A) s (es.map .event)) := by
  induction es generalizing s with
  | nil => exact .refl s
  | cons e es ih =>
      have hone : Aside now s (s.onEvent A e) :=
        .onEvent e (haccepts e (List.mem_cons_self ..))
      have hstep : s.step A (.event e) = s.onEvent A e := by
        unfold Loop.step
        rw [hopen, if_neg (by simp)]
      show Aside now s (run (Loop.step A) (s.step A (.event e)) (es.map .event))
      rw [hstep]
      exact hone.trans (ih (hone.finished.trans hopen) fun e' he' =>
        haccepts e' (List.mem_cons_of_mem e he'))

/-! ### The head of a turn -/

/-- What is left alone by the head of a turn. -/
structure Awake (s s' : Loop P D R) : Prop where
  finished : s'.finished = s.finished
  last : s'.clock.last = s.clock.last
  accepted : s'.accepted = s.accepted
  pending : s'.pending = s.pending
  pendingDeadline : s'.pendingDeadline = s.pendingDeadline

theorem Awake.trans (h : Awake s s') (h' : Awake s' s'') : Awake s s'' :=
  ⟨h'.finished.trans h.finished, h'.last.trans h.last, h'.accepted.trans h.accepted,
    h'.pending.trans h.pending, h'.pendingDeadline.trans h.pendingDeadline⟩

theorem Awake.callInputs (s : Loop P D R) (es : List E) : Awake s (s.callInputs A es) := by
  induction es generalizing s with
  | nil => exact ⟨rfl, rfl, rfl, rfl, rfl⟩
  | cons e es ih =>
      have hone : Awake s (s.call A (.input e)) := ⟨rfl, rfl, rfl, rfl, rfl⟩
      exact hone.trans (ih _)

theorem client_callInputs (s : Loop P D R) (es : List E) : (s.callInputs A es).client = s.client := by
  induction es generalizing s with
  | nil => rfl
  | cons e es ih => exact ih (s.call A (.input e))

/-- What waits for the escape to be decided is armed, and not for long. -/
structure EscTimed (A : Parts P E D R) (s : Loop P D R) (now : Nat) : Prop where
  waits : ∀ c, s.client = some c → A.escPending c.input = true → s.escArmed = true
  ahead : s.escArmed = true → now < s.escDeadline ∧ s.escDeadline ≤ now + kEscAmbiguity

theorem checkEsc_spec (hlaw : ∀ p, A.escPending (A.timeout p).2 = false)
    (hesc : s.escArmed = true → s.escDeadline ≤ now + kEscAmbiguity) :
    Awake s (s.checkEsc A now) ∧ EscTimed A (s.checkEsc A now) now ∧
      (s.escArmed = true → (s.checkEsc A now).escArmed = true →
        (s.checkEsc A now).escDeadline = s.escDeadline) := by
  have hsame : ∀ (armed : Bool) (deadline : Nat),
      Awake s { s with escArmed := armed, escDeadline := deadline } :=
    fun _ _ => ⟨rfl, rfl, rfl, rfl, rfl⟩
  unfold Loop.checkEsc
  split
  · next hc =>
      refine ⟨hsame false s.escDeadline, ⟨fun c hc' => ?_, by simp⟩, by simp⟩
      exact absurd (hc.symm.trans hc') (by simp)
  · next c hc =>
      by_cases hpending : A.escPending c.input = true
      · rw [if_neg (by simp [hpending])]
        by_cases harmed : s.escArmed = true
        · rw [if_neg (by simp [harmed])]
          by_cases hlate : now ≥ s.escDeadline
          · rw [if_pos hlate]
            have hclient := client_callInputs (A := A)
              { s with client := some { c with input := (A.timeout c.input).2 } } (A.timeout c.input).1
            have hcalled := Awake.callInputs (A := A)
              { s with client := some { c with input := (A.timeout c.input).2 } } (A.timeout c.input).1
            refine ⟨⟨hcalled.finished, hcalled.last, hcalled.accepted, hcalled.pending,
              hcalled.pendingDeadline⟩, ⟨fun c' hc' hpending' => ?_, by simp⟩, by simp⟩
            obtain rfl : { c with input := (A.timeout c.input).2 } = c' :=
              Option.some.inj (hclient.symm.trans hc')
            rw [hlaw c.input] at hpending'
            cases hpending'
          · rw [if_neg hlate]
            exact ⟨hsame s.escArmed s.escDeadline,
              ⟨fun _ _ _ => harmed, fun _ => ⟨Nat.lt_of_not_ge hlate, hesc harmed⟩⟩, fun _ _ => rfl⟩
        · rw [if_pos (by simpa using harmed)]
          refine ⟨hsame true (now + kEscAmbiguity), ⟨fun _ _ _ => rfl, fun _ => ?_⟩, fun h => absurd h harmed⟩
          exact ⟨Nat.lt_add_of_pos_right (by decide), Nat.le_refl _⟩
      · rw [if_pos (by simpa using hpending)]
        refine ⟨hsame false s.escDeadline, ⟨fun c' hc' hpending' => ?_, by simp⟩, by simp⟩
        obtain rfl : c' = c := Option.some.inj (hc'.symm.trans hc)
        exact absurd hpending' hpending

/-- Between two turns no frame is due, and no connection waits for too long. -/
structure Timely (s : Loop P D R) (now : Nat) : Prop where
  frame : s.renderable = true → s.clock.due now = false
  last : ∀ l, s.clock.last = some l → l ≤ now
  pending : s.pending.isSome = true →
    now < s.pendingDeadline ∧ s.pendingDeadline ≤ now + kPendingHelloTimeout
  esc : s.escArmed = true → s.escDeadline ≤ now + kEscAmbiguity

/-- Nothing is overdue: neither is the escape that is waited for. -/
structure OnTime (s : Loop P D R) (now : Nat) : Prop extends Timely s now where
  escAhead : s.escArmed = true → now ≤ s.escDeadline

/-- The loop once it has looked at the escape. -/
def escChecked (A : Parts P E D R) (s : Loop P D R) (now : Nat) : Loop P D R :=
  ({ s with closedThisBatch := [] } : Loop P D R).checkEsc A now

/-- A loop that sleeps from some time on sleeps past nothing that it owes. -/
structure Asleep (L : Delays A) (s : Loop P D R) (now wakesAt : Nat) : Prop where
  frame : (s.wake A ⟨now, now, now⟩).renderable = true →
    ∀ t, now < t → t < wakesAt → (s.wake A ⟨now, now, now⟩).clock.due t = false
  pending : (s.wake A ⟨now, now, now⟩).pending.isSome = true →
    wakesAt ≤ (s.wake A ⟨now, now, now⟩).pendingDeadline
  waits : ∀ c, (s.wake A ⟨now, now, now⟩).client = some c → A.escPending c.input = true →
    (s.wake A ⟨now, now, now⟩).escArmed = true
  esc : (s.wake A ⟨now, now, now⟩).escArmed = true →
    wakesAt ≤ (s.wake A ⟨now, now, now⟩).escDeadline ∧
      (s.wake A ⟨now, now, now⟩).escDeadline ≤ now + kEscAmbiguity
  clock : (s.wake A ⟨now, now, now⟩).client.isSome = true → (wakesAt : Int) ≤ now + kClockFloor
  help : 0 ≤ L.help (s.escChecked A now).session.rest now →
    (wakesAt : Int) ≤ now + L.help (s.escChecked A now).session.rest now
  /-- A check that is due is made before the sleep, and what it puts off is not waited for. -/
  update : 0 < L.update (s.escChecked A now).session.rest now →
    (wakesAt : Int) ≤ now + L.update (s.escChecked A now).session.rest now
  refresh : ∀ l, ((s.escChecked A now).tickIfDue A now).refreshLeft A now = some l →
    (wakesAt : Int) ≤ now + l

theorem refreshDue_iff : s.refreshDue A now = true ↔ s.refreshLeft A now = some 0 := by
  unfold refreshDue refreshLeft
  simp only
  generalize (if s.client.isSome then A.refreshDelay s.session.rest else -1) = delay
  by_cases h : delay ≥ 0 <;> simp [h]

/-- A frame that is owed is not due before the delay has passed. -/
theorem not_due_of_delay {c : FrameClock} (hlast : ∀ l, c.last = some l → l ≤ now) {t wakesAt : Nat}
    (hwakes : c.dirty = true → (wakesAt : Int) ≤ now + c.delay now) (hnow : now < t) (ht : t < wakesAt) :
    c.due t = false := by
  unfold FrameClock.due
  cases hdirty : c.dirty with
  | false => rfl
  | true =>
      have h := hwakes hdirty
      unfold FrameClock.delay at h
      rw [hdirty, Bool.not_true, if_neg (by simp)] at h
      cases hl : c.last with
      | none =>
          rw [hl] at h
          simp only at h
          omega
      | some l =>
          have hle := hlast l hl
          rw [hl] at h
          simp only [Bool.true_and, decide_eq_false_iff_not] at h ⊢
          split at h
          · omega
          · omega

/-- The rest of the head of a turn: the client and the escape stay as they are. -/
structure Ticked (s s' : Loop P D R) : Prop where
  awake : Awake s s'
  client : s'.client = s.client
  armed : s'.escArmed = s.escArmed
  escDeadline : s'.escDeadline = s.escDeadline

theorem tickIfDue_spec (s : Loop P D R) (now : Nat) :
    Ticked s (s.tickIfDue A now) ∧ (s.tickIfDue A now).clock = s.clock := by
  unfold tickIfDue
  split <;> exact ⟨⟨⟨rfl, rfl, rfl, rfl, rfl⟩, rfl, rfl, rfl⟩, rfl⟩

theorem refreshIfDue_spec (s : Loop P D R) (now : Nat) :
    Ticked s (s.refreshIfDue A now) ∧
      (s.refreshLeft A now = some 0 ∨ (s.refreshIfDue A now).clock = s.clock) := by
  unfold refreshIfDue
  split
  · next h => exact ⟨⟨⟨rfl, rfl, rfl, rfl, rfl⟩, rfl, rfl, rfl⟩, .inl (refreshDue_iff.1 h)⟩
  · exact ⟨⟨⟨rfl, rfl, rfl, rfl, rfl⟩, rfl, rfl, rfl⟩, .inr rfl⟩

theorem EscTimed.of_ticked (h : EscTimed A s now) (ht : Ticked s s') : EscTimed A s' now := by
  refine ⟨fun c hc hpending => ?_, fun harmed => ?_⟩
  · rw [ht.armed]
    exact h.waits c (ht.client ▸ hc) hpending
  · rw [ht.escDeadline]
    exact h.ahead (ht.armed ▸ harmed)

theorem Ticked.trans (h : Ticked s s') (h' : Ticked s' s'') : Ticked s s'' :=
  ⟨h.awake.trans h'.awake, h'.client.trans h.client, h'.armed.trans h.armed,
    h'.escDeadline.trans h.escDeadline⟩

theorem renderable_congr (h : s'.client = s.client) : s'.renderable = s.renderable := by
  unfold renderable
  rw [h]

theorem asleep (L : Delays A) (hlaw : ∀ p, A.escPending (A.timeout p).2 = false) {x : Loop P D R × Nat}
    (htime : Timely x.1 x.2) {t : Turn} (hlegal : t.Legal L x) :
    Asleep L x.1 x.2 t.wakesAt ∧ Awake x.1 (x.1.wake A ⟨x.2, x.2, x.2⟩) ∧
      EscTimed A (x.1.wake A ⟨x.2, x.2, x.2⟩) x.2 ∧
      (x.1.escArmed = true → (x.1.wake A ⟨x.2, x.2, x.2⟩).escArmed = true →
        (x.1.wake A ⟨x.2, x.2, x.2⟩).escDeadline = x.1.escDeadline) := by
  obtain ⟨s, now⟩ := x
  change Timely s now at htime
  obtain ⟨hawake, htimed, hsteady⟩ :=
    checkEsc_spec (A := A) (s := { s with closedThisBatch := [] }) hlaw htime.esc
  have hb := pollTimeout_bounds L s now
  have hintime := hlegal.intime
  simp only at hb hintime hawake htimed hsteady ⊢
  have hwithin : ∀ {b : Int}, 0 ≤ s.pollTimeout L now ∧ s.pollTimeout L now ≤ b →
      (t.wakesAt : Int) ≤ now + b := by
    intro b h
    have := hintime h.1
    omega
  change EscTimed A (s.escChecked A now) now at htimed
  change Awake _ (s.escChecked A now) at hawake
  change _ → (s.escChecked A now).escArmed = true → (s.escChecked A now).escDeadline = _ at hsteady
  change PollBounds L (s.escChecked A now) ((s.escChecked A now).tickIfDue A now)
    (s.wake A ⟨now, now, now⟩) now _ at hb
  -- the three stages of the head
  have hwake : s.wake A ⟨now, now, now⟩ = ((s.escChecked A now).tickIfDue A now).refreshIfDue A now := rfl
  obtain ⟨htick, hclock₂⟩ := tickIfDue_spec (A := A) (s.escChecked A now) now
  obtain ⟨hrefresh, hclock₃⟩ := refreshIfDue_spec (A := A) ((s.escChecked A now).tickIfDue A now) now
  rw [← hwake] at hrefresh hclock₃
  have hticked := htick.trans hrefresh
  have hclient : (s.wake A ⟨now, now, now⟩).client = (s.escChecked A now).client := hticked.client
  have hcleared : Awake s { s with closedThisBatch := [] } := ⟨rfl, rfl, rfl, rfl, rfl⟩
  have hall : Awake s (s.wake A ⟨now, now, now⟩) := (hcleared.trans hawake).trans hticked.awake
  have hesc := htimed.of_ticked hticked
  refine ⟨⟨fun hr t' hnow ht' => ?_, fun hp => ?_, hesc.waits, fun harmed => ?_, fun hc => ?_, fun h => ?_,
    fun h => ?_, fun l hl => ?_⟩, hall, hesc, fun harmed harmed' => ?_⟩
  · -- no frame becomes due
    rcases hclock₃ with hleft | hclock₃
    · have := hwithin (hb.refresh 0 hleft)
      omega
    · have hclock : (s.wake A ⟨now, now, now⟩).clock = (s.escChecked A now).clock :=
        hclock₃.trans hclock₂
      rw [renderable_congr hclient] at hr
      rw [hclock]
      refine not_due_of_delay (fun l hl => ?_) (fun hdirty => hwithin (hb.frame hr hdirty)) hnow ht'
      exact htime.last l (hall.last ▸ hclock ▸ hl)
  · have hp₁ : (s.escChecked A now).pending.isSome = true := hticked.awake.pending ▸ hp
    have h := hwithin (hb.pending hp₁)
    have hahead := (htime.pending (hall.pending ▸ hp)).1
    rw [← hticked.awake.pendingDeadline, hall.pendingDeadline] at h
    rw [hall.pendingDeadline]
    unfold left at h
    omega
  · have h := hwithin (hb.esc harmed)
    have hahead := hesc.ahead harmed
    unfold left at h
    exact ⟨by omega, hahead.2⟩
  · exact hwithin (hb.clock (hclient ▸ hc))
  · exact hwithin (hb.help h)
  · exact hwithin (hb.update h)
  · exact hwithin (hb.refresh l hl)
  · rw [hticked.armed] at harmed'
    rw [hticked.escDeadline]
    exact hsteady harmed harmed'

/-! ### The tail of a turn -/

/-- No frame is due that could be drawn. -/
def Rested (s : Loop P D R) (now : Nat) : Prop := s.renderable = true → s.clock.due now = false

theorem client_dropClient (s : Loop P D R) (reason : Option Bytes) :
    (s.dropClient A reason).client = none := by
  unfold dropClient
  split
  · next h => exact h
  · rfl

theorem rested_of_none (h : s.client = none) : Rested s now := by
  intro hr
  unfold renderable at hr
  rw [h] at hr
  cases hr

theorem rested_dropClient (s : Loop P D R) (reason : Option Bytes) (now : Nat) :
    Rested (s.dropClient A reason) now := rested_of_none (client_dropClient s reason)

/-- A frame has just been drawn. -/
theorem not_due_of_drawn {c : FrameClock} (h : c.last = some now) : c.due now = false := by
  unfold FrameClock.due
  rw [h]
  simp [kFrameInterval]

theorem Aside.flushClient (h : Aside now s s') (c : Client P D) (sends : List SendResult) :
    Aside now s (s'.flushClient c sends).2 := h.trans (.withClient _)

theorem compose_spec (s : Loop P D R) (t : Tail) :
    Aside t.frameNow s (s.compose A t) ∧ Rested (s.compose A t) t.frameNow := by
  unfold compose
  split
  · next hc => exact ⟨.refl s, rested_of_none hc⟩
  · next c hc =>
      split
      · next hd =>
          refine ⟨.refl s, fun hr => ?_⟩
          unfold renderable at hr
          rw [hc] at hr
          simp [hd] at hr
      · next d hd =>
          split
          · next hdue => exact ⟨.refl s, fun _ => by simpa using hdue⟩
          · -- the frame is drawn now
            have hdrawn : ∀ out, Aside t.frameNow s (s.drawFrame A out d t.frameNow).2.2 := fun _ =>
              ⟨rfl, rfl, rfl, fun l hl => .inr (Option.some.inj hl).symm, Nat.le_refl _,
                fun hp => .inl ⟨hp, rfl⟩⟩
            have hclock : (s.drawFrame A c d t.frameNow).2.2.clock = { dirty := false, last := some t.frameNow } :=
              rfl
            generalize hdraw : s.drawFrame A c d t.frameNow = drawn
            have haside := hdrawn c
            rw [hdraw] at haside hclock
            obtain ⟨out, d', s'⟩ := drawn
            simp only at haside hclock ⊢
            generalize out.takeOverflow = taken
            obtain ⟨overflow, out'⟩ := taken
            simp only
            split
            · exact ⟨(haside.trans (.withClient _)).dropClient _, rested_dropClient _ _ _⟩
            · have hmarked : Aside t.frameNow s (if overflow = .clean then s'.markDirty else s') := by
                split
                · exact haside.markDirty
                · exact haside
              have hlast : (if overflow = .clean then s'.markDirty else s').clock.last = some t.frameNow := by
                split
                · show s'.clock.last = _
                  rw [hclock]
                · rw [hclock]
              generalize (if overflow = .clean then s'.markDirty else s') = s₁ at hmarked hlast
              generalize (if overflow = .clean then A.invalidate d' else d') = d''
              split
              · exact ⟨hmarked.flushClient _ _, fun _ => not_due_of_drawn hlast⟩
              · exact ⟨(hmarked.flushClient _ _).dropClient _, rested_dropClient _ _ _⟩

theorem Aside.beforeFrame (s : Loop P D R) (t : Tail) :
    Aside t.frameNow s (s.beforeFrame A t) ∧
      ((s.beforeFrame A t).pending.isSome = true → t.deadlineNow < (s.beforeFrame A t).pendingDeadline) := by
  have hexpired : Aside t.frameNow s (s.expirePending t) ∧
      ((s.expirePending t).pending.isSome = true →
        t.deadlineNow < (s.expirePending t).pendingDeadline) := by
    unfold expirePending
    split
    · refine ⟨Aside.dropPending (.refl s), fun hp => ?_⟩
      unfold Loop.dropPending at hp
      split at hp
      · next h => simp [h] at hp
      · cases hp
    · next h => exact ⟨.refl s, fun hp => by
        by_contra hlate
        exact h ⟨hp, Nat.le_of_not_lt hlate⟩⟩
  have hnoted : ∀ s : Loop P D R, Aside t.frameNow s (s.noteDirty A) ∧
      (s.noteDirty A).pending = s.pending ∧ (s.noteDirty A).pendingDeadline = s.pendingDeadline := by
    intro s
    unfold noteDirty
    simp only
    split <;> exact ⟨.of_same rfl rfl rfl rfl rfl rfl id, rfl, rfl⟩
  have hdropped : ∀ (s : Loop P D R) (reason : Option Bytes), (s.dropClient A reason).pending = s.pending ∧
      (s.dropClient A reason).pendingDeadline = s.pendingDeadline := by
    intro s reason
    unfold Loop.dropClient
    split <;> exact ⟨rfl, rfl⟩
  have hdetached : ∀ s : Loop P D R, Aside t.frameNow s (s.detachIfAsked A) ∧
      (s.detachIfAsked A).pending = s.pending ∧
        (s.detachIfAsked A).pendingDeadline = s.pendingDeadline := by
    intro s
    unfold detachIfAsked
    simp only
    split
    · refine ⟨Aside.dropClient ?_ _, hdropped _ _⟩
      exact .of_same rfl rfl rfl rfl rfl rfl id
    · exact ⟨.of_same rfl rfl rfl rfl rfl rfl id, rfl, rfl⟩
  obtain ⟨h₁, hahead⟩ := hexpired
  obtain ⟨h₂, hp₂, hd₂⟩ := hnoted (s.expirePending t)
  obtain ⟨h₃, hp₃, hd₃⟩ := hdetached ((s.expirePending t).noteDirty A)
  refine ⟨(h₁.trans h₂).trans h₃, fun hp => ?_⟩
  show _ < (((s.expirePending t).noteDirty A).detachIfAsked A).pendingDeadline
  change (((s.expirePending t).noteDirty A).detachIfAsked A).pending.isSome = true at hp
  rw [hp₃, hp₂] at hp
  rw [hd₃, hd₂]
  exact hahead hp

theorem afterFrame (s : Loop P D R) (now : Nat) (hrested : Rested s now) :
    Aside now s ((s.restartIfAsked A).quitIfAsked A) ∧
      Rested ((s.restartIfAsked A).quitIfAsked A) now := by
  have hrestart : Aside now s (s.restartIfAsked A) ∧ Rested (s.restartIfAsked A) now := by
    unfold restartIfAsked
    split
    · have hclosed : Aside now s { s with listening := false } := .of_same rfl rfl rfl rfl rfl rfl id
      have hdropped := hclosed.dropClient (A := A) kDetachReasonUpdate
      refine ⟨hdropped.trans (.of_same rfl rfl rfl rfl rfl rfl id), rested_of_none ?_⟩
      exact client_dropClient (A := A) { s with listening := false } _
    · exact ⟨.refl s, hrested⟩
  unfold quitIfAsked
  split
  · exact ⟨hrestart.1.trans (.of_same rfl rfl rfl rfl rfl rfl id), hrestart.2⟩
  · exact hrestart

/-- After the tail of a turn nothing is overdue. -/
theorem tail_timely (s : Loop P D R) (hlast : ∀ l, s.clock.last = some l → l ≤ now)
    (hpending : s.pending.isSome = true → s.pendingDeadline ≤ now + kPendingHelloTimeout)
    (hesc : s.escArmed = true → s.escDeadline ≤ now + kEscAmbiguity) (sends : List SendResult) :
    (s.tail A ⟨now, now, sends⟩).finished = true ∨
      (Aside now s (s.tail A ⟨now, now, sends⟩) ∧ Timely (s.tail A ⟨now, now, sends⟩) now) := by
  obtain ⟨h₁, hahead⟩ := Aside.beforeFrame (A := A) s ⟨now, now, sends⟩
  obtain ⟨h₂, hrested⟩ := compose_spec (A := A) (s.beforeFrame A ⟨now, now, sends⟩) ⟨now, now, sends⟩
  obtain ⟨h₃, hrested'⟩ := afterFrame (A := A) _ now hrested
  have h₂₃ := h₂.trans h₃
  have hall := h₁.trans h₂₃
  unfold tail
  simp only
  split
  · refine .inr ⟨hall, hrested', fun l hl => ?_, fun hp => ?_, fun harmed => ?_⟩
    · rcases hall.last l hl with hl' | rfl
      · exact hlast l hl'
      · exact Nat.le_refl _
    · refine ⟨?_, ?_⟩
      · rcases h₂₃.pending hp with ⟨hp', hdeadline⟩ | ⟨-, hdeadline⟩
        · rw [hdeadline]
          exact hahead hp'
        · rw [hdeadline]
          exact Nat.lt_add_of_pos_right (by decide)
      · rcases hall.pending hp with ⟨hp', hdeadline⟩ | ⟨-, hdeadline⟩
        · rw [hdeadline]
          exact hpending hp'
        · exact Nat.le_of_eq hdeadline
    · rw [hall.escDeadline]
      exact hesc (hall.armed ▸ harmed)
  · exact .inl rfl

/-! ### Whole turns -/

theorem turn_spec (L : Delays A) (hlaw : ∀ p, A.escPending (A.timeout p).2 = false)
    {x : Loop P D R × Nat} (hopen : x.1.finished = false) (htime : Timely x.1 x.2) {t : Turn}
    (hlegal : t.Legal L x) :
    (turn A x t).1.finished = true ∨
      (Timely (turn A x t).1 (turn A x t).2 ∧
        Aside t.wakesAt (x.1.wake A ⟨x.2, x.2, x.2⟩) (turn A x t).1) := by
  obtain ⟨-, hawake, hesc, -⟩ := asleep L hlaw htime hlegal
  have hstep : x.1.step A (.wake ⟨x.2, x.2, x.2⟩) = x.1.wake A ⟨x.2, x.2, x.2⟩ := by
    unfold step
    rw [hopen, if_neg (by simp)]
  have hopen₁ : (x.1.wake A ⟨x.2, x.2, x.2⟩).finished = false := hawake.finished.trans hopen
  have hevents := Aside.events (A := A) hopen₁ hlegal.accepts
  have hturn : (turn A x t).1 =
      (run (step A) (x.1.wake A ⟨x.2, x.2, x.2⟩) (t.events.map .event)).step A
        (.tail ⟨t.wakesAt, t.wakesAt, t.sends⟩) := by
    show run (step A) x.1 (_ :: (_ ++ _)) = _
    show run (step A) (x.1.step A _) _ = _
    rw [hstep, run_append]
    rfl
  generalize run (step A) (x.1.wake A ⟨x.2, x.2, x.2⟩) (t.events.map .event) = s at hevents hturn
  have htail : s.step A (.tail ⟨t.wakesAt, t.wakesAt, t.sends⟩) =
      s.tail A ⟨t.wakesAt, t.wakesAt, t.sends⟩ := by
    unfold step
    rw [hevents.finished, hopen₁, if_neg (by simp)]
  rw [hturn, htail]
  have hlater := hlegal.later
  refine (tail_timely (A := A) s (fun l hl => ?_) (fun hp => ?_) (fun harmed => ?_) t.sends).imp_right
    fun h => ⟨h.2, hevents.trans h.1⟩
  · rcases hevents.last l hl with hl' | rfl
    · exact (htime.last l (hawake.last ▸ hl')).trans hlater
    · exact Nat.le_refl _
  · rcases hevents.pending hp with ⟨hp', hdeadline⟩ | ⟨-, hdeadline⟩
    · have h := (htime.pending (hawake.pending ▸ hp')).2
      rw [hdeadline, hawake.pendingDeadline]
      omega
    · exact Nat.le_of_eq hdeadline
  · have h := (hesc.ahead (hevents.armed ▸ harmed)).2
    rw [hevents.escDeadline]
    omega

theorem finished_turn {x : Loop P D R × Nat} (hover : x.1.finished = true) (t : Turn) :
    (turn A x t).1.finished = true := by
  have hstays : ∀ is, run (step A) x.1 is = x.1 := by
    intro is
    induction is with
    | nil => rfl
    | cons i is ih =>
        have hstep : x.1.step A i = x.1 := by
          unfold step
          rw [if_pos hover]
        show run (step A) (x.1.step A i) is = _
        rw [hstep]
        exact ih
  show (run (step A) x.1 _).finished = true
  rw [hstays]
  exact hover

/-- What a loop that is not over keeps, turn after turn. -/
theorem unless_finished (inv : Loop P D R × Nat → Prop) {ok : Loop P D R × Nat → Turn → Prop}
    (hturn : ∀ x t, x.1.finished = false → inv x → ok x t →
      (turn A x t).1.finished = true ∨ inv (turn A x t)) {x : Loop P D R × Nat} {ts : List Turn}
    (hx : inv x) (hok : StepsMeet (turn A) ok x ts) :
    (run (turn A) x ts).1.finished = true ∨ inv (run (turn A) x ts) := by
  refine @run_invariant _ _ _ _ (fun y => y.1.finished = true ∨ inv y) (fun y t hy ht => ?_) _ _
    (.inr hx) hok
  cases hover : y.1.finished with
  | true => exact .inl (finished_turn hover t)
  | false => exact hturn y t hover (hy.resolve_left (by simp [hover])) ht

theorem OnTime.start (rest : R) (now : Nat) : OnTime (Loop.start rest : Loop P D R) now :=
  ⟨⟨fun hr => (by cases hr), fun _ hl => (by cases hl), fun hp => (by cases hp),
    fun harmed => (by cases harmed)⟩, fun harmed => (by cases harmed)⟩

/-- Epoll returns before an escape that is waited for is overdue. -/
theorem OnTime.turn (L : Delays A) (hlaw : ∀ p, A.escPending (A.timeout p).2 = false)
    {x : Loop P D R × Nat} (hopen : x.1.finished = false) (htime : OnTime x.1 x.2) {t : Turn}
    (hlegal : t.Legal L x) : (turn A x t).1.finished = true ∨ OnTime (turn A x t).1 (turn A x t).2 := by
  obtain ⟨hasleep, -⟩ := asleep L hlaw htime.toTimely hlegal
  refine (turn_spec L hlaw hopen htime.toTimely hlegal).imp_right fun h => ⟨h.1, fun harmed => ?_⟩
  rw [h.2.escDeadline]
  exact (hasleep.esc (h.2.armed ▸ harmed)).1

/-- The escape is still undecided when the loop goes to sleep. -/
def Undecided (A : Parts P E D R) (s : Loop P D R) (now : Nat) : Prop :=
  ∃ c, (s.wake A ⟨now, now, now⟩).client = some c ∧ A.escPending c.input = true

/-- Nothing new has come for the place of the pending connection since the state `s`. -/
structure SameWait (s s' : Loop P D R) : Prop where
  accepted : s.accepted.length ≤ s'.accepted.length
  pending : s'.pending.isSome = true → s'.accepted.length = s.accepted.length →
    s.pending.isSome = true ∧ s'.pendingDeadline = s.pendingDeadline

theorem SameWait.of_aside (h : SameWait s s') (hawake : Awake s' s'') {s₃ : Loop P D R}
    (haside : Aside now s'' s₃) : SameWait s s₃ := by
  have hgrows := haside.accepted
  rw [hawake.accepted] at hgrows
  refine ⟨h.accepted.trans hgrows, fun hp hsame => ?_⟩
  rcases haside.pending hp with ⟨hp', hdeadline⟩ | ⟨hnew, -⟩
  · obtain ⟨h₁, h₂⟩ := h.pending (hawake.pending ▸ hp') (Nat.le_antisymm (hsame ▸ hgrows) h.accepted)
    exact ⟨h₁, hdeadline.trans (hawake.pendingDeadline.trans h₂)⟩
  · rw [hawake.accepted, hsame] at hnew
    exact absurd h.accepted (Nat.not_le.2 hnew)

/-- The escape has been undecided since the time `start`, if any turn has passed. -/
def EscWait (x x' : Loop P D R × Nat) : Prop :=
  x' = x ∨ (x'.1.escArmed = true ∧ x'.1.escDeadline ≤ x.2 + kEscAmbiguity ∧ x'.2 ≤ x'.1.escDeadline)

theorem EscWait.turn (L : Delays A) (hlaw : ∀ p, A.escPending (A.timeout p).2 = false)
    {x x' : Loop P D R × Nat} (hx : EscWait x x') (htime : Timely x'.1 x'.2) {t : Turn}
    (hlegal : t.Legal L x') (hwaits : Undecided A x'.1 x'.2)
    (haside : Aside t.wakesAt (x'.1.wake A ⟨x'.2, x'.2, x'.2⟩) (turn A x' t).1) :
    EscWait x (turn A x' t) := by
  obtain ⟨hasleep, -, hesc, hsteady⟩ := asleep L hlaw htime hlegal
  obtain ⟨c, hc, hpending⟩ := hwaits
  have harmed := hesc.waits c hc hpending
  obtain ⟨hwakes, hsoon⟩ := hasleep.esc harmed
  refine .inr ⟨haside.armed.trans harmed, ?_, ?_⟩
  · rw [haside.escDeadline]
    rcases hx with rfl | ⟨harmed', hdeadline, -⟩
    · exact hsoon
    · rw [hsteady harmed' harmed]
      exact hdeadline
  · rw [haside.escDeadline]
    exact hwakes

/-- **Nothing waits for ever.** In every run of turns from a timely state, a connection that is
accepted and says nothing has been closed before `kPendingHelloTimeout` has passed, and an escape
that no sleep sees decided has waited for at most `kEscAmbiguity`. -/
theorem waits_end (L : Delays A) (hlaw : ∀ p, A.escPending (A.timeout p).2 = false)
    {x : Loop P D R × Nat} (htime : Timely x.1 x.2) {ts : List Turn}
    (hlegal : StepsMeet (turn A) (fun x t => t.Legal L x) x ts) :
    let x' := run (turn A) x ts
    x'.1.finished = false →
      (x'.1.pending.isSome = true → x'.1.accepted.length = x.1.accepted.length →
        x'.2 < x.2 + kPendingHelloTimeout) ∧
      (StepsMeet (turn A) (fun x _ => Undecided A x.1 x.2) x ts → x'.2 ≤ x.2 + kEscAmbiguity) := by
  intro x' hopen
  refine ⟨fun hp hsame => ?_, fun hwaits => ?_⟩
  · -- the deadline of the pending connection has not moved
    have hinv := unless_finished (fun y => Timely y.1 y.2 ∧ SameWait x.1 y.1)
      (fun y t hover hy ht => (turn_spec L hlaw hover hy.1 ht).imp_right fun h =>
        ⟨h.1, hy.2.of_aside (asleep L hlaw hy.1 ht).2.1 h.2⟩)
      ⟨htime, Nat.le_refl _, fun hp _ => ⟨hp, rfl⟩⟩ hlegal
    obtain ⟨htime', hwait⟩ := hinv.resolve_left (by simp [x', hopen])
    obtain ⟨hp', hdeadline⟩ := hwait.pending hp hsame
    have h₁ : x'.2 < _ := (htime'.pending hp).1
    have h₂ := (htime.pending hp').2
    rw [hdeadline] at h₁
    omega
  · have hinv := unless_finished (fun y => Timely y.1 y.2 ∧ EscWait x y)
      (fun y t hover hy ht => (turn_spec L hlaw hover hy.1 ht.1).imp_right fun h =>
        ⟨h.1, hy.2.turn L hlaw hy.1 ht.1 ht.2 h.2⟩)
      ⟨htime, .inl rfl⟩ (hlegal.and hwaits)
    obtain ⟨-, hwait⟩ := hinv.resolve_left (by simp [x', hopen])
    change EscWait x x' at hwait
    rcases hwait with heq | ⟨-, hdeadline, hwakes⟩
    · rw [heq]
      omega
    · exact hwakes.trans hdeadline

/-- The parser of a client's input, in a session that asks for nothing. -/
def inputParts : Parts Input.InputParser Input.InputEvent Unit Unit :=
  { idleParts with
    fresh := {}
    feed := Input.InputParser.feedTake
    timeout := fun p => (p.timeout.ready, { p.timeout with ready := [] })
    escPending := Input.InputParser.escPending
    call := fun _ _ => ((), [])
    differ := fun _ => ()
    frame := fun _ _ => ([], ()) }

/-- Once it is told that the time is over, it waits for nothing more. -/
theorem inputParts_decides (p : Input.InputParser) :
    inputParts.escPending (inputParts.timeout p).2 = false := by
  have hkeys : ∀ (bytes : Bytes) (p : Input.InputParser), p.escPending = false →
      (bytes.foldl (fun p b => p.emitKey .char b.toNat) p).escPending = false := by
    intro bytes
    induction bytes with
    | nil => exact fun _ hp => hp
    | cons b bytes ih => exact fun p hp => ih _ hp
  show p.timeout.escPending = false
  unfold Input.InputParser.timeout
  simp only
  split
  · rfl
  split
  · rfl
  split
  · rfl
  · exact hkeys _ _ rfl

def inputDelays : Delays inputParts where
  help := fun _ _ => -1
  update := fun _ _ => -1
  update_due := fun _ _ => rfl

/-- A client whose escape key was pressed just now. -/
def escPressed : Loop Input.InputParser Unit Unit :=
  { start () with
    client := some { key := makeKey 0 16, dec := .init max, input := { buf := [0x1B], escPending := true } } }

/-- Whatever wakes the daemon, it goes on waiting for the rest of the time only. -/
theorem waits_end_escape :
    (run (turn inputParts) (escPressed, 0)
      [{ wakesAt := 20, events := [{ key := makeKey 0 kGenTimer }] }, { wakesAt := 50 }]).2 ≤
        0 + kEscAmbiguity := by
  have htime : Timely escPressed 0 := by
    refine ⟨fun hr => ?_, fun l hl => ?_, fun hp => ?_, fun harmed => ?_⟩
    · cases hr
    · cases hl
    · cases hp
    · cases harmed
  have hlegal : StepsMeet (turn inputParts) (fun x t => t.Legal inputDelays x) (escPressed, 0)
      [{ wakesAt := 20, events := [{ key := makeKey 0 kGenTimer }] }, { wakesAt := 50 }] := by
    refine ⟨⟨by decide, by decide, by simp, fun e he t ht => ?_⟩,
      ⟨by decide, by decide, fun _ => by decide, by simp⟩, trivial⟩
    rw [List.mem_singleton.1 he] at ht
    cases ht
  exact (waits_end inputDelays inputParts_decides htime hlegal rfl).2
    ⟨⟨_, rfl, rfl⟩, ⟨_, rfl, rfl⟩, trivial⟩

end Loop

end Sshos.Daemon
