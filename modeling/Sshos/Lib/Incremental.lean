import Mathlib.Data.List.Basic
import Mathlib.Tactic.Common

/-!
# Sshos.Lib.Incremental

**Incremental framing**: reading a stream of frames that arrives cut into
arbitrary pieces.

A `Framing` looks at the front of the buffered stream and says one of three
things: not enough yet, the stream is broken, or a frame of `n` symbols stands
there (which may or may not carry an output). Its two laws say that a frame
occupies a nonempty prefix of the buffer and that a verdict, once given, is not
changed by what arrives later.

From these alone the module derives that a reader which drains its buffer after
every chunk produces what it would have produced on the whole stream at once
(`Framing.run_eq_drain`), and that a concatenation of frames is read back frame
by frame (`Framing.drain_frames`).
-/

namespace Sshos.Lib

universe u v

/-- What the front of a buffer can be. -/
inductive Front (μ : Type v) : Type v
  /-- The frame at the front has not entirely arrived. -/
  | needMore
  /-- The stream is broken: nothing after this point can be trusted. -/
  | fail
  /-- A frame of `n` symbols, with the output it carries if any. -/
  | take (n : Nat) (out : Option μ)
  deriving DecidableEq

/-- A **framing** of streams over `α` into outputs `μ`. -/
structure Framing (α : Type u) (μ : Type v) where
  /-- The verdict on the front of a buffer. -/
  front : List α → Front μ
  front_nil : front [] = .needMore
  front_take : ∀ {b n out}, front b = .take n out → 0 < n ∧ n ≤ b.length
  front_append : ∀ {b} (c), front b ≠ .needMore → front (b ++ c) = front b

namespace Framing

variable {α : Type u} {μ : Type v} (F : Framing α μ)

/-- Read every frame of `b`: the outputs in order, and the unread rest (`none`
once the stream is broken). -/
def drain (b : List α) : List μ × Option (List α) :=
  match _h : F.front b with
  | .needMore => ([], some b)
  | .fail => ([], none)
  | .take n out =>
      let r := drain (b.drop n)
      (out.toList ++ r.1, r.2)
termination_by b.length
decreasing_by
  have := F.front_take ‹_›
  simp only [List.length_drop]
  omega

variable {F}

theorem drain_of_needMore {b : List α} (h : F.front b = .needMore) :
    F.drain b = ([], some b) := by
  rw [drain]
  split <;> simp_all

theorem drain_of_fail {b : List α} (h : F.front b = .fail) : F.drain b = ([], none) := by
  rw [drain]
  split <;> simp_all

theorem drain_of_take {b : List α} {n : Nat} {out : Option μ} (h : F.front b = .take n out) :
    F.drain b = (out.toList ++ (F.drain (b.drop n)).1, (F.drain (b.drop n)).2) := by
  rw [drain]
  split <;> simp_all

/-- Induction along the frames of a buffer, the recursion `drain` performs. -/
theorem drain_induction {motive : List α → Prop}
    (needMore : ∀ b, F.front b = .needMore → motive b)
    (fail : ∀ b, F.front b = .fail → motive b)
    (take : ∀ b n out, F.front b = .take n out → motive (b.drop n) → motive b)
    (b : List α) : motive b := by
  induction hn : b.length using Nat.strongRecOn generalizing b with
  | ind n ih =>
      subst hn
      cases hf : F.front b with
      | needMore => exact needMore b hf
      | fail => exact fail b hf
      | take k out =>
          have hk := F.front_take hf
          refine take b k out hf (ih (b.drop k).length ?_ _ rfl)
          rw [List.length_drop]
          omega

/-- What `drain` leaves unread is the beginning of an unfinished frame. -/
theorem drain_rest_front {b r : List α} (h : (F.drain b).2 = some r) :
    F.front r = .needMore := by
  induction b using drain_induction (F := F) with
  | needMore b hf =>
      rw [drain_of_needMore hf] at h
      obtain rfl : b = r := by simpa using h
      exact hf
  | fail b hf => rw [drain_of_fail hf] at h; simp at h
  | take b n out hf ih => rw [drain_of_take hf] at h; exact ih h

/-- An output is that of a frame that stood at a front. -/
theorem drain_output {b : List α} {m : μ} (h : m ∈ (F.drain b).1) :
    ∃ b' n, F.front b' = .take n (some m) := by
  induction b using drain_induction (F := F) with
  | needMore b hf => rw [drain_of_needMore hf] at h; cases h
  | fail b hf => rw [drain_of_fail hf] at h; cases h
  | take b n out hf ih =>
      rw [drain_of_take hf] at h
      obtain hhere | hlater := List.mem_append.1 h
      · exact ⟨b, n, by rw [hf, Option.mem_toList.1 hhere]⟩
      · exact ih hlater

/-- Feed one chunk to a reader whose unread rest is `s` (`none` when broken). -/
def feed (F : Framing α μ) (s : Option (List α)) (c : List α) : List μ × Option (List α) :=
  match s with
  | none => ([], none)
  | some r => F.drain (r ++ c)

/-- Draining `b ++ c` is draining `b`, then feeding `c` to what is left. -/
theorem drain_append (b c : List α) :
    F.drain (b ++ c) =
      ((F.drain b).1 ++ (F.feed (F.drain b).2 c).1, (F.feed (F.drain b).2 c).2) := by
  induction b using drain_induction (F := F) with
  | needMore b hf => simp only [drain_of_needMore hf, feed, List.nil_append]
  | fail b hf =>
      have hc : F.front (b ++ c) = .fail := by rw [F.front_append c (by simp [hf]), hf]
      simp only [drain_of_fail hf, drain_of_fail hc, feed, List.append_nil]
  | take b n out hf ih =>
      have hc : F.front (b ++ c) = .take n out := by rw [F.front_append c (by simp [hf]), hf]
      have hn := F.front_take hf
      rw [drain_of_take hc, drain_of_take hf, List.drop_append_of_le_length hn.2, ih]
      simp only [List.append_assoc]

/-- Feed a list of chunks, draining after each. -/
def run (F : Framing α μ) (s : Option (List α)) : List (List α) → List μ × Option (List α)
  | [] => ([], s)
  | c :: cs =>
      let r := F.feed s c
      (r.1 ++ (F.run r.2 cs).1, (F.run r.2 cs).2)

theorem run_none (cs : List (List α)) : F.run none cs = ([], none) := by
  induction cs with
  | nil => rfl
  | cons c cs ih => simp only [run, feed, ih, List.append_nil]

/-- **Chunk independence.** Draining after every chunk yields what draining the
whole stream at once would: the cuts are invisible. -/
theorem run_eq_drain {r : List α} (hr : F.front r = .needMore) (cs : List (List α)) :
    F.run (some r) cs = F.drain (r ++ cs.flatten) := by
  induction cs generalizing r with
  | nil => simp only [run, List.flatten_nil, List.append_nil, drain_of_needMore hr]
  | cons c cs ih =>
      rw [List.flatten_cons, ← List.append_assoc, drain_append]
      simp only [run, feed]
      cases hd : (F.drain (r ++ c)).2 with
      | none => simp only [run_none, List.append_nil]
      | some r' => simp only [ih (drain_rest_front hd)]

/-- A buffer that is a concatenation of frames is read back frame by frame, and
nothing is left over. -/
theorem drain_frames {β : Type*} (bytes : β → List α) (out : β → Option μ) (xs : List β)
    (h : ∀ x ∈ xs, F.front (bytes x) = .take (bytes x).length (out x)) :
    F.drain (xs.map bytes).flatten = (xs.filterMap out, some []) := by
  induction xs with
  | nil => exact drain_of_needMore F.front_nil
  | cons x xs ih =>
      have hx := h x List.mem_cons_self
      have hf : F.front (bytes x ++ (xs.map bytes).flatten) = .take (bytes x).length (out x) := by
        rw [F.front_append _ (by simp [hx]), hx]
      rw [List.map_cons, List.flatten_cons, drain_of_take hf, List.drop_left,
        ih fun y hy => h y (List.mem_cons_of_mem x hy)]
      cases ho : out x <;> simp [ho]

end Framing

end Sshos.Lib
