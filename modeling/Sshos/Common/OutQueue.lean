import Sshos.Lib.Run
import Sshos.Common.ProtoStream

/-!
# Sshos.Common.OutQueue

The daemon's **output queue**: frames wait in a buffer for the socket to take
them, and a queue that would pass its ceiling throws the whole buffer away.

After such a rejection the caller must know whether the peer is still on a frame
boundary. `push` reads that off `off`, the count of bytes of the buffer already
sent. The second half of the module follows a queue together with what the peer
received (`Wire`) and finds when that reading is right: `compact` also resets
`off`, by moving the buffer down once more than `kCompactShift` bytes are sent,
and then a frame that is half gone looks untouched.

The capacity of the buffer only decides whether its memory is given back, never
what it holds, so it is left out.
-/

namespace Sshos.Common

open Sshos.Lib (Bytes run StepsMeet)

/-! ### The queue -/

/-- What a rejection implies for the peer. -/
inductive Overflow
  | none
  | clean
  | dirty
  deriving DecidableEq

/-- The order in which severities accumulate. -/
def Overflow.severity : Overflow → Nat
  | none => 0
  | clean => 1
  | dirty => 2

/-- The queue. Never more is waiting than the ceiling allows. -/
structure OutQueue where
  buf : Bytes
  off : Nat
  ceiling : Nat
  overflow : Overflow
  off_le : off ≤ buf.length
  size_le : buf.length - off ≤ ceiling

/-- What one `send` answers: a count, or the `errno` that matters. -/
inductive SendResult
  | accepted (n : Nat)
  | again
  | interrupted
  | error

/-- The sent prefix above which `compact` moves the buffer down. -/
def kCompactShift : Nat := 65536

/-- The ceiling the daemon gives each client's queue. -/
def kBackpressureCeiling : Nat := 1048576

namespace OutQueue

def init (ceiling : Nat) : OutQueue where
  buf := []
  off := 0
  ceiling := ceiling
  overflow := .none
  off_le := Nat.zero_le _
  size_le := Nat.zero_le ceiling

def size (q : OutQueue) : Nat := q.buf.length - q.off

/-- The bytes still waiting. -/
def unsent (q : OutQueue) : Bytes := q.buf.drop q.off

def releaseBuffer (q : OutQueue) : OutQueue :=
  { q with buf := [], off := 0, off_le := Nat.zero_le _, size_le := Nat.zero_le _ }

/-- The frame does not fit under the ceiling. -/
def rejects (q : OutQueue) (bytes : Bytes) : Prop := bytes.length > q.ceiling - q.size

instance (q : OutQueue) (bytes : Bytes) : Decidable (q.rejects bytes) :=
  inferInstanceAs (Decidable (_ > _))

/-- The verdict on a rejection, merged with what is already waiting to be read. -/
def merged (q : OutQueue) : Overflow :=
  let thisRejection := if q.off > 0 then Overflow.dirty else Overflow.clean
  if thisRejection.severity > q.overflow.severity then thisRejection else q.overflow

def push (q : OutQueue) (bytes : Bytes) : OutQueue :=
  if h : q.rejects bytes then ({ q with overflow := q.merged } : OutQueue).releaseBuffer
  else
    { q with
      buf := q.buf ++ bytes
      off_le := by rw [List.length_append]; exact Nat.le_add_right_of_le q.off_le
      size_le := by
        have h₁ := q.off_le
        have h₂ := q.size_le
        unfold rejects size at h
        rw [List.length_append]
        omega }

def compact (q : OutQueue) : OutQueue :=
  if q.off = 0 then q
  else if q.off = q.buf.length then q.releaseBuffer
  else if q.off > kCompactShift then
    { q with
      buf := q.buf.drop q.off
      off := 0
      off_le := Nat.zero_le _
      size_le := by rw [List.length_drop]; exact q.size_le }
  else q

/-- The loop of `flush` over a buffer of `len` bytes: the offset it stops at, and
whether the link is still usable. A kernel that has said all it will say takes
nothing more, as on `EAGAIN`. -/
def flushLoop (len off : Nat) : List SendResult → Bool × Nat
  | [] => (true, off)
  | r :: rs =>
      if off < len then
        match r with
        | .accepted n => if n > 0 then flushLoop len (off + min n (len - off)) rs else (false, off)
        | .again => (true, off)
        | .interrupted => flushLoop len off rs
        | .error => (false, off)
      else (true, off)

theorem flushLoop_le (len off : Nat) (rs : List SendResult) (h : off ≤ len) :
    off ≤ (flushLoop len off rs).2 ∧ (flushLoop len off rs).2 ≤ len := by
  induction rs generalizing off with
  | nil => exact ⟨Nat.le_refl _, h⟩
  | cons r rs ih =>
      unfold flushLoop
      split
      · cases r with
        | accepted n =>
            simp only
            split
            · have := ih (off + min n (len - off)) (by omega)
              exact ⟨by omega, this.2⟩
            · exact ⟨Nat.le_refl _, h⟩
        | again => exact ⟨Nat.le_refl _, h⟩
        | interrupted => exact ih off h
        | error => exact ⟨Nat.le_refl _, h⟩
      · exact ⟨Nat.le_refl _, h⟩

/-- The offset a flush answered by `rs` stops at. -/
def stop (q : OutQueue) (rs : List SendResult) : Nat := (flushLoop q.buf.length q.off rs).2

/-- Whether the link survives a flush answered by `rs`. -/
def linkUp (q : OutQueue) (rs : List SendResult) : Bool := (flushLoop q.buf.length q.off rs).1

/-- What the kernel takes of the bytes it is offered, by its answers alone. -/
def taken : Bytes → List SendResult → Bytes
  | _, [] => []
  | offered, r :: rs =>
      if offered = [] then []
      else
        match r with
        | .accepted n => if n > 0 then offered.take n ++ taken (offered.drop n) rs else []
        | .interrupted => taken offered rs
        | .again | .error => []

/-- The bytes the kernel took. -/
def accepted (q : OutQueue) (rs : List SendResult) : Bytes := taken q.unsent rs

theorem off_le_stop (q : OutQueue) (rs : List SendResult) : q.off ≤ q.stop rs :=
  (flushLoop_le _ _ rs q.off_le).1

theorem stop_le (q : OutQueue) (rs : List SendResult) : q.stop rs ≤ q.buf.length :=
  (flushLoop_le _ _ rs q.off_le).2

/-- `off` moved to where the kernel stopped taking bytes. -/
def advance (q : OutQueue) (rs : List SendResult) : OutQueue :=
  { q with
    off := q.stop rs
    off_le := q.stop_le rs
    size_le := by
      have h₁ := q.off_le_stop rs
      have h₂ := q.size_le
      omega }

/-- Send what the kernel takes. A dead link is reported without compacting. -/
def flush (q : OutQueue) (rs : List SendResult) : Bool × OutQueue :=
  if q.linkUp rs then (true, (q.advance rs).compact) else (false, q.advance rs)

def takeOverflow (q : OutQueue) : Overflow × OutQueue := (q.overflow, { q with overflow := .none })

/-! ### What each operation does to the bytes -/

variable {q : OutQueue}

theorem merged_of_sent (h : q.off > 0) : q.merged = .dirty := by
  cases hov : q.overflow <;> simp [merged, h, hov, Overflow.severity]

theorem merged_of_dirty (h : q.overflow = .dirty) : q.merged = .dirty := by
  by_cases hoff : q.off > 0
  · exact merged_of_sent hoff
  · simp [merged, hoff, h, Overflow.severity]

theorem merged_of_untouched (hoff : q.off = 0) (h : q.overflow ≠ .dirty) : q.merged = .clean := by
  cases hov : q.overflow <;> simp_all [merged, Overflow.severity]

theorem push_of_rejects {bytes : Bytes} (h : q.rejects bytes) :
    (q.push bytes).unsent = [] ∧ (q.push bytes).off = 0 ∧ (q.push bytes).overflow = q.merged := by
  rw [push, dif_pos h]
  exact ⟨rfl, rfl, rfl⟩

theorem push_of_fits {bytes : Bytes} (h : ¬ q.rejects bytes) :
    (q.push bytes).unsent = q.unsent ++ bytes ∧ (q.push bytes).off = q.off ∧
      (q.push bytes).overflow = q.overflow := by
  rw [push, dif_neg h]
  exact ⟨List.drop_append_of_le_length q.off_le, rfl, rfl⟩

/-- The loop's offset tells what was taken. -/
theorem taken_drop {buf : Bytes} {off : Nat} (h : off ≤ buf.length) (rs : List SendResult) :
    taken (buf.drop off) rs = (buf.drop off).take ((flushLoop buf.length off rs).2 - off) := by
  induction rs generalizing off with
  | nil => simp [taken, flushLoop]
  | cons r rs ih =>
      unfold taken flushLoop
      by_cases hmore : off < buf.length
      · rw [if_neg (by simpa using hmore), if_pos hmore]
        cases r with
        | accepted n =>
            simp only
            split
            · have hle : off + min n (buf.length - off) ≤ buf.length := by omega
              have hstep : (buf.drop off).drop n = buf.drop (off + min n (buf.length - off)) := by
                rw [List.drop_drop]
                rcases Nat.le_total n (buf.length - off) with hn | hn
                · rw [Nat.min_eq_left hn]
                · rw [Nat.min_eq_right hn, List.drop_of_length_le (by omega), List.drop_of_length_le (by omega)]
              have hfirst : (buf.drop off).take n = (buf.drop off).take (min n (buf.length - off)) := by
                rw [← List.length_drop, ← List.take_take, List.take_length]
              have hstop := (flushLoop_le buf.length _ rs hle).1
              rw [hstep, ih hle, hfirst, ← List.drop_drop, ← List.take_add]
              congr 1
              omega
            · simp
        | again => simp
        | interrupted => exact ih h
        | error => simp
      · rw [if_pos (by simpa using hmore), if_neg hmore]
        simp

theorem accepted_eq (q : OutQueue) (rs : List SendResult) :
    q.accepted rs = q.unsent.take (q.stop rs - q.off) :=
  taken_drop q.off_le rs

theorem accepted_append_unsent (q : OutQueue) (rs : List SendResult) :
    q.accepted rs ++ (q.advance rs).unsent = q.unsent := by
  have hle := q.off_le_stop rs
  have hdrop : (q.advance rs).unsent = q.unsent.drop (q.stop rs - q.off) := by
    simp only [unsent, advance, List.drop_drop, Nat.add_sub_cancel' hle]
  rw [hdrop, accepted_eq, List.take_append_drop]

/-- `compact` keeps the verdict and the waiting bytes, and the offset is zero
afterwards only if nothing was sent, nothing waits, or the buffer was moved. -/
theorem compact_spec (q : OutQueue) :
    q.compact.unsent = q.unsent ∧ q.compact.overflow = q.overflow ∧
      (q.compact.off = 0 → q.off = 0 ∨ q.unsent = [] ∨ kCompactShift < q.off) := by
  unfold compact
  split
  · next h => exact ⟨rfl, rfl, fun _ => .inl h⟩
  · split
    · next h =>
        have hun : q.unsent = [] := by simp [unsent, h]
        exact ⟨hun.symm, rfl, fun _ => .inr (.inl hun)⟩
    · split
      · next h => exact ⟨rfl, rfl, fun _ => .inr (.inr h)⟩
      · next h _ _ => exact ⟨rfl, rfl, fun h₀ => absurd h₀ h⟩

theorem flush_spec (q : OutQueue) (rs : List SendResult) :
    q.accepted rs ++ (q.flush rs).2.unsent = q.unsent ∧
      (q.flush rs).2.overflow = q.overflow ∧
      ((q.flush rs).2.off = 0 → q.stop rs = 0 ∨ (q.flush rs).2.unsent = [] ∨
        (q.linkUp rs = true ∧ kCompactShift < q.stop rs)) := by
  have happ := q.accepted_append_unsent rs
  unfold flush
  split
  · next hup =>
      obtain ⟨h₁, h₂, h₃⟩ := (q.advance rs).compact_spec
      refine ⟨by simpa only [h₁] using happ, h₂, fun h₀ => ?_⟩
      rw [h₁]
      rcases h₃ h₀ with h | h | h
      · exact .inl h
      · exact .inr (.inl h)
      · exact .inr (.inr ⟨hup, h⟩)
  · exact ⟨happ, rfl, fun h => .inl h⟩

end OutQueue

/-! ### The queue and its peer -/

/-- A queue together with its history: the frames pushed, and the bytes the peer
received. `condemned` is set once `takeOverflow` has returned `dirty`, upon which
the daemon closes the connection. -/
structure Wire where
  queue : OutQueue
  pushed : List Bytes
  sent : Bytes
  condemned : Bool

namespace Wire

inductive Op
  | push (frame : Bytes)
  | flush (answers : List SendResult)
  | takeOverflow

def init (ceiling : Nat) : Wire := ⟨.init ceiling, [], [], false⟩

def step (w : Wire) : Op → Wire
  | .push frame => { w with queue := w.queue.push frame, pushed := w.pushed ++ [frame] }
  | .flush answers =>
      { w with queue := (w.queue.flush answers).2, sent := w.sent ++ w.queue.accepted answers }
  | .takeOverflow =>
      let (verdict, queue) := w.queue.takeOverflow
      { w with queue := queue, condemned := w.condemned || verdict == .dirty }

/-- The bytes are a concatenation of whole pushed frames: a peer that received
them is on a frame boundary. -/
def WholeFrames (pushed : List Bytes) (bytes : Bytes) : Prop :=
  ∃ frames : List Bytes, (∀ f ∈ frames, f ∈ pushed) ∧ bytes = frames.flatten

/-- The peer is on a frame boundary. -/
def Aligned (w : Wire) : Prop := WholeFrames w.pushed w.sent

theorem WholeFrames.nil (pushed : List Bytes) : WholeFrames pushed [] := ⟨[], by simp, rfl⟩

theorem WholeFrames.mono {pushed bytes : _} (h : WholeFrames pushed bytes) (f : Bytes) :
    WholeFrames (pushed ++ [f]) bytes := by
  obtain ⟨frames, hmem, heq⟩ := h
  exact ⟨frames, fun x hx => List.mem_append_left _ (hmem x hx), heq⟩

theorem WholeFrames.push {pushed bytes : _} (h : WholeFrames pushed bytes) (f : Bytes) :
    WholeFrames (pushed ++ [f]) (bytes ++ f) := by
  obtain ⟨frames, hmem, rfl⟩ := h
  refine ⟨frames ++ [f], ?_, by simp⟩
  intro x hx
  rcases List.mem_append.1 hx with hx | hx
  · exact List.mem_append_left _ (hmem x hx)
  · exact List.mem_append_right _ hx

/-- The uses of a queue for which its verdicts are right:

* nothing is pushed once a `dirty` verdict has been returned;
* a flush that stops in the middle of a frame does not move the buffer down (at
  most `kCompactShift` bytes of it are sent, or the link is dead), and does not
  come between a rejection and the reading of its verdict. -/
def Sound (w : Wire) : Op → Prop
  | .push _ => w.condemned = false
  | .flush answers =>
      WholeFrames w.pushed (w.sent ++ w.queue.accepted answers) ∨
        ((w.queue.linkUp answers = true → w.queue.stop answers ≤ kCompactShift) ∧
          w.queue.overflow ≠ .clean)
  | .takeOverflow => True

/-- While no torn frame has been reported, an untouched buffer and a waiting
`clean` verdict both mean that the peer is aligned, and sending all that waits
would leave it aligned. -/
structure InStep (w : Wire) : Prop where
  drained : WholeFrames w.pushed (w.sent ++ w.queue.unsent)
  untouched : w.queue.off = 0 → w.Aligned
  clean : w.queue.overflow = .clean → w.Aligned

/-- The invariant of a soundly used queue. -/
def Inv (w : Wire) : Prop :=
  (w.condemned = true ∧ w.queue.overflow = .none) ∨ w.queue.overflow = .dirty ∨ w.InStep

theorem inv_init (ceiling : Nat) : (init ceiling).Inv :=
  .inr (.inr ⟨.nil _, fun _ => .nil _, fun _ => .nil _⟩)

/-- A rejection is reported `dirty` unless the peer is aligned. -/
theorem merged_of_inv {w : Wire} (hinv : w.Inv) (hc : w.condemned = false) :
    w.queue.merged = .dirty ∨ (w.queue.merged = .clean ∧ w.Aligned) := by
  rcases hinv with ⟨h, -⟩ | h | h
  · simp [hc] at h
  · exact .inl (OutQueue.merged_of_dirty h)
  · by_cases hoff : w.queue.off = 0
    · by_cases hov : w.queue.overflow = .dirty
      · exact .inl (OutQueue.merged_of_dirty hov)
      · exact .inr ⟨OutQueue.merged_of_untouched hoff hov, h.untouched hoff⟩
    · exact .inl (OutQueue.merged_of_sent (Nat.pos_of_ne_zero hoff))

theorem inv_push {w : Wire} (hinv : w.Inv) (hc : w.condemned = false) (frame : Bytes) :
    (w.step (.push frame)).Inv := by
  by_cases hrej : w.queue.rejects frame
  · obtain ⟨hun, hoff, hov⟩ := OutQueue.push_of_rejects hrej
    rcases merged_of_inv hinv hc with hm | ⟨hm, hal⟩
    · exact .inr (.inl (hov.trans hm))
    · have hal' : (w.step (.push frame)).Aligned := WholeFrames.mono hal frame
      refine .inr (.inr ⟨?_, fun _ => hal', fun _ => hal'⟩)
      simp only [step, hun, List.append_nil]
      exact hal'
  · obtain ⟨hun, hoff, hov⟩ := OutQueue.push_of_fits hrej
    rcases hinv with ⟨h, -⟩ | h | h
    · simp [hc] at h
    · exact .inr (.inl (hov.trans h))
    · refine .inr (.inr ⟨?_, fun h₀ => ?_, fun hcl => ?_⟩)
      · simp only [step, hun, ← List.append_assoc]
        exact h.drained.push frame
      · exact WholeFrames.mono (h.untouched (hoff.symm.trans h₀)) frame
      · exact WholeFrames.mono (h.clean (hov.symm.trans hcl)) frame

theorem inv_flush {w : Wire} (hinv : w.Inv) {answers : List SendResult}
    (hok : w.Sound (.flush answers)) : (w.step (.flush answers)).Inv := by
  obtain ⟨happ, hov, hoff⟩ := w.queue.flush_spec answers
  rcases hinv with ⟨h, h'⟩ | h | h
  · exact .inl ⟨h, hov.trans h'⟩
  · exact .inr (.inl (hov.trans h))
  · have hdr : WholeFrames w.pushed
        ((w.sent ++ w.queue.accepted answers) ++ (w.queue.flush answers).2.unsent) := by
      rw [List.append_assoc, happ]
      exact h.drained
    refine .inr (.inr ⟨hdr, fun h₀ => ?_, fun hcl => ?_⟩)
    · show WholeFrames w.pushed (w.sent ++ w.queue.accepted answers)
      rcases hoff h₀ with hstop | hun | ⟨hup, hshift⟩
      · -- Nothing was sent, now or before.
        have hle := w.queue.off_le_stop answers
        have hacc : w.queue.accepted answers = [] := by simp [OutQueue.accepted_eq, hstop]
        rw [hacc, List.append_nil]
        exact h.untouched (by omega)
      · rwa [hun, List.append_nil] at hdr
      · rcases hok with hwhole | ⟨hle, -⟩
        · exact hwhole
        · have := hle hup
          omega
    · rcases hok with hwhole | ⟨-, hne⟩
      · exact hwhole
      · exact absurd (hov.symm.trans hcl) hne

theorem inv_takeOverflow {w : Wire} (hinv : w.Inv) : (w.step .takeOverflow).Inv := by
  rcases hinv with ⟨h, -⟩ | h | h
  · exact .inl ⟨by simp [step, h], rfl⟩
  · exact .inl ⟨by simp [step, OutQueue.takeOverflow, h], rfl⟩
  · exact .inr (.inr ⟨h.drained, h.untouched, fun hcl => by cases hcl⟩)

theorem inv_step (w : Wire) (op : Op) (hinv : w.Inv) (hok : w.Sound op) : (w.step op).Inv := by
  cases op with
  | push frame => exact inv_push hinv hok frame
  | flush answers => exact inv_flush hinv hok
  | takeOverflow => exact inv_takeOverflow hinv

/-- **Verdicts of a soundly used queue.** At every point of a run whose steps are
sound, a `clean` verdict means that the peer received whole frames only, and a
rejection that finds the peer inside a frame is reported `dirty`. -/
theorem takeOverflow_sound (ceiling : Nat) {ops : List Op}
    (hok : StepsMeet step Sound (init ceiling) ops) {before after : List Op}
    (hops : ops = before ++ after) :
    let w := run step (init ceiling) before
    (w.queue.takeOverflow.1 = .clean → w.Aligned) ∧
      ∀ frame, w.condemned = false → w.queue.rejects frame → ¬ w.Aligned →
        (w.queue.push frame).takeOverflow.1 = .dirty := by
  intro w
  have hinv : w.Inv := by
    subst hops
    exact Lib.run_invariant inv_step (inv_init ceiling) hok.of_append
  refine ⟨fun hcl => ?_, fun frame hc hrej hal => ?_⟩
  · rcases hinv with ⟨-, h⟩ | h | h
    · cases h.symm.trans hcl
    · cases h.symm.trans hcl
    · exact h.clean hcl
  · obtain ⟨-, -, hov⟩ := OutQueue.push_of_rejects hrej
    rcases merged_of_inv hinv hc with hm | ⟨-, hal'⟩
    · exact hov.trans hm
    · exact absurd hal' hal

/-- A frame sent whole, then one too large for the queue. -/
theorem takeOverflow_sound_whole :
    (run step (init 4) [.push [1, 2, 3], .flush [.accepted 3], .push [1, 2, 3, 4, 5]]).Aligned :=
  (@takeOverflow_sound 4 [.push [1, 2, 3], .flush [.accepted 3], .push [1, 2, 3, 4, 5]]
    ⟨rfl, .inl ⟨[[1, 2, 3]], by decide, rfl⟩, rfl, trivial⟩ _ [] (List.append_nil _).symm).1 rfl

/-! ### First in, first out -/

/-- The bytes a run pushes, one push after another. -/
def pushedBy : List Op → Bytes
  | [] => []
  | .push frame :: ops => frame ++ pushedBy ops
  | _ :: ops => pushedBy ops

/-- What was sent, then what is still to be sent. -/
def stream (w : Wire) : Bytes := w.sent ++ w.queue.unsent

/-- A push that is not rejected, or no push. -/
def Fits (w : Wire) : Op → Prop
  | .push frame => ¬ w.queue.rejects frame
  | _ => True

theorem stream_step (w : Wire) (op : Op) (hfits : w.Fits op) :
    (w.step op).stream = w.stream ++ pushedBy [op] := by
  cases op with
  | push frame =>
      have hunsent := (OutQueue.push_of_fits hfits).1
      simp only [stream, step, hunsent, pushedBy, List.append_nil, List.append_assoc]
  | flush answers =>
      have hsent := (w.queue.flush_spec answers).1
      simp only [stream, step, pushedBy, List.append_assoc, hsent, List.append_nil]
  | takeOverflow => exact (List.append_nil _).symm

/-- **Each byte once and in order**, as long as no push is rejected. -/
theorem stream_run {w : Wire} {ops : List Op} (hfits : StepsMeet step Fits w ops) :
    (run step w ops).stream = w.stream ++ pushedBy ops := by
  induction ops generalizing w with
  | nil => exact (List.append_nil _).symm
  | cons op ops ih =>
      have hfirst : pushedBy (op :: ops) = pushedBy [op] ++ pushedBy ops := by
        cases op with
        | push frame => simp only [pushedBy, List.append_nil]
        | flush answers => rfl
        | takeOverflow => rfl
      rw [Lib.run_cons, ih hfits.2, stream_step w op hfits.1, hfirst, List.append_assoc]

theorem step_ceiling (w : Wire) (op : Op) : (w.step op).queue.ceiling = w.queue.ceiling := by
  cases op with
  | push frame =>
      simp only [step, OutQueue.push]
      split
      · rfl
      · rfl
  | flush answers =>
      simp only [step, OutQueue.flush]
      split
      · simp only [OutQueue.compact]
        repeat' split
        all_goals rfl
      · rfl
  | takeOverflow => rfl

theorem run_ceiling (w : Wire) (ops : List Op) : (run step w ops).queue.ceiling = w.queue.ceiling := by
  induction ops generalizing w with
  | nil => rfl
  | cons op ops ih => rw [Lib.run_cons, ih, step_ceiling]

/-- A push that is rejected is lost with all that waited; what was sent stays sent. -/
theorem stream_rejected {w : Wire} {frame : Bytes} (hrej : w.queue.rejects frame) :
    (w.step (.push frame)).sent = w.sent ∧ (w.step (.push frame)).queue.unsent = [] :=
  ⟨rfl, (OutQueue.push_of_rejects hrej).1⟩

/-- **A bounded queue, first in first out.** After any pushes and flushes, what waits is within the
ceiling. Up to the first rejected push, what was sent and what waits are what was pushed, each byte
once and in order; a rejected push loses what waited and itself only, and from what was sent by then
the law holds again. -/
theorem bounded_fifo (ceiling : Nat) (ops : List Op) :
    (run step (init ceiling) ops).queue.ceiling = ceiling ∧
    (run step (init ceiling) ops).queue.size ≤ ceiling ∧
    (StepsMeet step Fits (init ceiling) ops →
      (run step (init ceiling) ops).sent ++ (run step (init ceiling) ops).queue.unsent = pushedBy ops) ∧
    ∀ frame, (run step (init ceiling) ops).queue.rejects frame →
      ((run step (init ceiling) ops).step (.push frame)).sent = (run step (init ceiling) ops).sent ∧
      ((run step (init ceiling) ops).step (.push frame)).queue.unsent = [] ∧
      ∀ rest, StepsMeet step Fits ((run step (init ceiling) ops).step (.push frame)) rest →
        (run step ((run step (init ceiling) ops).step (.push frame)) rest).sent ++
            (run step ((run step (init ceiling) ops).step (.push frame)) rest).queue.unsent =
          (run step (init ceiling) ops).sent ++ pushedBy rest := by
  have hceiling : (run step (init ceiling) ops).queue.ceiling = ceiling := run_ceiling _ _
  refine ⟨hceiling, ?_, fun hfits => ?_, fun frame hrej => ?_⟩
  · have hsize := (run step (init ceiling) ops).queue.size_le
    rwa [hceiling] at hsize
  · exact stream_run hfits
  · obtain ⟨hsent, hunsent⟩ := stream_rejected hrej
    refine ⟨hsent, hunsent, fun rest hfits => ?_⟩
    have hlaw := stream_run hfits
    simp only [stream, hsent, hunsent, List.append_nil] at hlaw
    exact hlaw

/-! ### When the buffer is moved down inside a frame -/

/-- A flush that stops beyond `kCompactShift` with bytes left moves the buffer
down: the offset is zero again. -/
theorem flush_shift {q : OutQueue} {n : Nat} (hoff : q.off = 0) (hshift : kCompactShift < n)
    (hn : n < q.buf.length) :
    let q' := (q.flush [.accepted n, .again]).2
    q.accepted [.accepted n, .again] = q.buf.take n ∧ q'.off = 0 ∧ q'.buf = q.buf.drop n ∧
      q'.ceiling = q.ceiling ∧ q'.overflow = q.overflow := by
  have hloop : OutQueue.flushLoop q.buf.length q.off [.accepted n, .again] = (true, n) := by
    have h₁ : 0 < q.buf.length := by omega
    have h₂ : min n q.buf.length = n := by omega
    have h₃ : 0 < n := by omega
    simp only [OutQueue.flushLoop, hoff, h₁, Nat.sub_zero, Nat.zero_add, h₂, h₃, hn,
      if_true]
  have hstop : q.stop [.accepted n, .again] = n := by rw [OutQueue.stop, hloop]
  have hup : q.linkUp [.accepted n, .again] = true := by rw [OutQueue.linkUp, hloop]
  have hcompact : (q.flush [.accepted n, .again]).2 = (q.advance [.accepted n, .again]).compact := by
    simp only [OutQueue.flush, hup, if_true]
  have h₀ : ¬ n = 0 := by omega
  have h₁ : ¬ n = q.buf.length := by omega
  have hacc : q.accepted [.accepted n, .again] = q.buf.take n := by
    rw [OutQueue.accepted_eq, hstop, OutQueue.unsent, hoff, List.drop_zero, Nat.sub_zero]
  simp only [hcompact, OutQueue.compact, OutQueue.advance, hstop, h₀, h₁, hshift,
    if_true, if_false]
  exact ⟨hacc, trivial, trivial, trivial, trivial⟩

/-- A frame sent beyond `kCompactShift` but not whole, then rejected by its own
repetition: the verdict is `clean`. -/
theorem run_shift {f : Bytes} {n c : Nat} (hshift : kCompactShift < n) (hn : n < f.length)
    (hc : f.length ≤ c) (hrej : c - (f.length - n) < f.length) :
    let w := run step (init c) [.push f, .flush [.accepted n, .again], .push f]
    w.queue.takeOverflow.1 = .clean ∧ w.pushed = [f, f] ∧ w.sent = f.take n := by
  have hfits : ¬ (OutQueue.init c).rejects f := by
    simp only [OutQueue.rejects, OutQueue.size, OutQueue.init, List.length_nil]
    omega
  have hpush : ((OutQueue.init c).push f).buf = f ∧ ((OutQueue.init c).push f).off = 0 ∧
      ((OutQueue.init c).push f).ceiling = c ∧ ((OutQueue.init c).push f).overflow = .none := by
    rw [OutQueue.push, dif_neg hfits]
    exact ⟨rfl, rfl, rfl, rfl⟩
  obtain ⟨hbuf, hoff, hceil, hov⟩ := hpush
  obtain ⟨hacc, hoff', hbuf', hceil', hov'⟩ := flush_shift hoff hshift (hbuf.symm ▸ hn)
  have hrej' : (((OutQueue.init c).push f).flush [.accepted n, .again]).2.rejects f := by
    simp only [OutQueue.rejects, OutQueue.size, hoff', hbuf', hceil', hceil, hbuf,
      List.length_drop]
    omega
  refine ⟨?_, rfl, ?_⟩
  · refine (OutQueue.push_of_rejects hrej').2.2.trans (OutQueue.merged_of_untouched hoff' ?_)
    rw [hov', hov]
    decide
  · simp only [Lib.run_cons, Lib.run_nil, step, init, List.nil_append, hacc, hbuf]

theorem length_encode_frame (ansi : Bytes) : (encode (.frame ansi)).length = 9 + ansi.length := by
  simp only [encode, bodyOf, length_envelope, length_putStr, kHeaderSize]
  omega

/-- A repaint of which the kernel takes 219264 bytes, then a second one that does
not fit: the peer sits inside the first, and the verdict is `clean`. -/
theorem clean_inside_frame :
    ¬ ∀ ops : List Op,
      let w := run step (init kBackpressureCeiling) ops
      w.queue.takeOverflow.1 = .clean → w.Aligned := by
  intro h
  have hlen : (encode (.frame (List.replicate 643000 32))).length = 643009 := by
    rw [length_encode_frame, List.length_replicate]
  generalize encode (.frame (List.replicate 643000 32)) = f at hlen
  obtain ⟨hcl, hpushed, hsent⟩ := run_shift (f := f) (n := 219264) (c := kBackpressureCeiling)
    (by decide) (by omega) (by rw [hlen]; decide) (by rw [hlen]; decide)
  obtain ⟨frames, hmem, heq⟩ := h _ hcl
  rw [hsent] at heq
  have hsize := congrArg List.length heq
  rw [List.length_take, hlen] at hsize
  -- Any pushed frame is longer than what was sent, and none at all is shorter.
  cases frames with
  | nil => simp at hsize
  | cons g gs =>
      have hg : g = f := by
        have := hmem g List.mem_cons_self
        rw [hpushed] at this
        simpa using this
      rw [List.flatten_cons, List.length_append, hg, hlen] at hsize
      omega

end Wire

end Sshos.Common
