import Sshos.Lib.Ring
import Sshos.Lib.Run
import Sshos.Vt.Scrollback

/-!
# Sshos.Vt.History

The ring of the scrollback **refines a bounded list**: the last lines that were pushed,
trimmed, as many as there is room for. The view counts from the bottom, so a push that
evicts nothing it shows leaves it where it was.
-/

namespace Sshos.Vt.Scrollback

open Sshos.Lib (ringAt ringAt_set_next ringAt_set_oldest run run_preserves)

/-! ### Runs -/

inductive Op
  | push (cells : List ScreenCell)
  | clear
  | scrollBack (n : UInt64)
  | scrollForward (n : UInt64)
  | scrollToBottom

def step (b : Scrollback) : Op → Scrollback
  | .push cells => b.push cells
  | .clear => b.clear
  | .scrollBack n => b.scrollBack n
  | .scrollForward n => b.scrollForward n
  | .scrollToBottom => b.scrollToBottom

/-- The rows pushed since the last clear, the first one first. -/
def pushed : List (List ScreenCell) → Op → List (List ScreenCell)
  | rows, .push cells => rows ++ [cells]
  | _, .clear => []
  | rows, _ => rows

/-! ### The bounded list -/

/-- The ring holds the last of the rows, as many as it has room for. -/
structure Holds (b : Scrollback) (rows : List (List ScreenCell)) : Prop where
  slots : b.ring.length = b.capacity
  head : 0 < b.capacity → b.head < b.capacity
  word : b.capacity < kSizeMod
  size : b.size = min b.capacity rows.length
  lines : ∀ i, i < b.size →
    ringAt b.ring b.head i = (rows[rows.length - b.size + i]?).map trimmed
  offset : b.offset ≤ b.size

variable {b : Scrollback} {rows : List (List ScreenCell)}

theorem Holds.create (capacity : UInt64) : Holds (create capacity.toNat) [] where
  slots := List.length_replicate
  head h := h
  word := capacity.toNat_lt
  size := by simp [Scrollback.create]
  lines i hi := absurd hi (Nat.not_lt_zero i)
  offset := Nat.le_refl 0

/-- Moving the view changes nothing else. -/
theorem Holds.withOffset (h : Holds b rows) {n : Nat} (hn : n ≤ b.size) :
    Holds { b with offset := n } rows := ⟨h.slots, h.head, h.word, h.size, h.lines, hn⟩

theorem Holds.size_lt (h : Holds b rows) : b.size < kSizeMod := by
  have := h.size
  have := h.word
  omega

/-- A difference that is not negative does not go round. -/
theorem sizeSub_eq {x y : Nat} (hle : y ≤ x) (hword : x < kSizeMod) : sizeSub x y = x - y := by
  unfold sizeSub
  rw [show x + kSizeMod - y = x - y + kSizeMod by omega, Nat.add_mod_right,
    Nat.mod_eq_of_lt (by omega)]

theorem Holds.scrollBack (h : Holds b rows) (n : UInt64) : Holds (b.scrollBack n) rows := by
  have hoffset := h.offset
  have hsize := h.size_lt
  unfold Scrollback.scrollBack
  rw [sizeSub_eq hoffset hsize]
  split
  · exact h.withOffset (Nat.le_refl _)
  · refine h.withOffset ?_
    rw [Nat.mod_eq_of_lt (by omega)]
    omega

theorem Holds.scrollForward (h : Holds b rows) (n : UInt64) : Holds (b.scrollForward n) rows := by
  have hoffset := h.offset
  have hsize := h.size_lt
  unfold Scrollback.scrollForward
  split
  · exact h.withOffset (Nat.zero_le _)
  · refine h.withOffset ?_
    rw [sizeSub_eq (by omega) (by omega)]
    omega

/-- What a push leaves: one line more, or the oldest one gone. -/
def pushedRing (b : Scrollback) (cells : List ScreenCell) : Scrollback :=
  if b.size < b.capacity then
    { b with ring := b.ring.set ((b.head + b.size) % b.capacity) (trimmed cells), size := b.size + 1 }
  else { b with ring := b.ring.set b.head (trimmed cells), head := (b.head + 1) % b.capacity }

theorem push_eq (hcap : 0 < b.capacity) (cells : List ScreenCell) :
    b.push cells = { b.pushedRing cells with
      offset := if 0 < b.offset then min (b.offset + 1) (b.pushedRing cells).size else b.offset } := by
  unfold push pushedRing
  rw [if_neg (by omega)]
  simp only
  split <;> split <;> rfl

theorem Holds.pushedRing (h : Holds b rows) (hcap : 0 < b.capacity) (cells : List ScreenCell) :
    Holds (b.pushedRing cells) (rows ++ [cells]) := by
  have hsize := h.size
  have hoffset := h.offset
  have hlen : (rows ++ [cells]).length = rows.length + 1 := by simp
  have hslots := h.slots
  have hhead := h.head hcap
  unfold Scrollback.pushedRing
  split
  · rename_i hroom
    refine ⟨by rw [List.length_set, hslots], h.head, h.word, by simp only [hlen]; omega,
      fun i hi => ?_, by simp only; omega⟩
    simp only at hi
    simp only [hlen]
    rw [← hslots, ringAt_set_next (by omega) (by omega) _ (by omega),
      show rows.length + 1 - (b.size + 1) + i = i by omega]
    by_cases hlast : i = b.size
    · rw [if_pos hlast, List.getElem?_append_right (by omega), show i - rows.length = 0 by omega]
      rfl
    · rw [if_neg hlast, h.lines i (by omega), show rows.length - b.size + i = i by omega,
        List.getElem?_append_left (by omega)]
  · rename_i hfull
    refine ⟨by rw [List.length_set, hslots], fun _ => Nat.mod_lt _ hcap, h.word,
      by simp only [hlen]; omega, fun i hi => ?_, hoffset⟩
    simp only at hi
    simp only [hlen]
    rw [← hslots, ringAt_set_oldest (by omega) _ (by omega)]
    by_cases hlast : i + 1 = b.ring.length
    · rw [if_pos hlast, List.getElem?_append_right (by omega),
        show rows.length + 1 - b.size + i - rows.length = 0 by omega]
      rfl
    · rw [if_neg hlast, h.lines (i + 1) (by omega),
        show rows.length + 1 - b.size + i = rows.length - b.size + (i + 1) by omega,
        List.getElem?_append_left (by omega)]

theorem Holds.push (h : Holds b rows) (cells : List ScreenCell) :
    Holds (b.push cells) (rows ++ [cells]) := by
  by_cases hcap : b.capacity = 0
  · -- Nothing is kept.
    have hsize : b.size = 0 := by
      rw [h.size, hcap]
      exact Nat.zero_min _
    have hsame : b.push cells = b := if_pos hcap
    rw [hsame]
    refine ⟨h.slots, h.head, h.word, ?_, fun i hi => by omega, h.offset⟩
    rw [hsize, hcap, Nat.zero_min]
  · have hring := h.pushedRing (by omega) cells
    have hoffset := h.offset
    rw [push_eq (by omega)]
    refine hring.withOffset ?_
    split
    · exact Nat.min_le_right _ _
    · omega

/-- **One operation** on the ring is one on the list. -/
theorem Holds.step (h : Holds b rows) (op : Op) : Holds (b.step op) (pushed rows op) := by
  cases op with
  | push cells => exact h.push cells
  | clear =>
      refine ⟨h.slots, h.head, h.word, ?_, fun i hi => absurd hi (Nat.not_lt_zero i), Nat.le_refl 0⟩
      exact (Nat.min_zero _).symm
  | scrollBack n => exact h.scrollBack n
  | scrollForward n => exact h.scrollForward n
  | scrollToBottom => exact h.withOffset (Nat.zero_le _)

theorem Holds.run (h : Holds b rows) (ops : List Op) :
    Holds (run Scrollback.step b ops) (ops.foldl pushed rows) := by
  induction ops generalizing b rows with
  | nil => exact h
  | cons op ops ih => exact ih (h.step op)

theorem step_capacity (b : Scrollback) (op : Op) : (b.step op).capacity = b.capacity := by
  cases op with
  | push cells =>
      by_cases hcap : b.capacity = 0
      · rw [show b.step (.push cells) = b from if_pos hcap]
      · show (b.push cells).capacity = b.capacity
        rw [push_eq (by omega)]
        unfold Scrollback.pushedRing
        simp only
        split <;> rfl
  | clear => rfl
  | scrollBack n =>
      simp only [Scrollback.step, Scrollback.scrollBack]
      split <;> rfl
  | scrollForward n =>
      simp only [Scrollback.step, Scrollback.scrollForward]
      split <;> rfl
  | scrollToBottom => rfl

/-- A line is the row that was pushed there, without its trailing blanks. -/
theorem Holds.at (h : Holds b rows) {i : Nat} (hi : i < b.size) :
    (rows[rows.length - b.size + i]?).map trimmed = some (b.at i) := by
  have hsize := h.size
  have hslots := h.slots
  have hhead := h.head (by omega)
  rw [← h.lines i hi]
  unfold ringAt Scrollback.at
  rw [if_neg (by omega), hslots, List.getD_eq_getElem?_getD]
  have hin : (b.head + i) % b.capacity < b.ring.length := by
    rw [hslots]
    exact Nat.mod_lt _ (by omega)
  rw [List.getElem?_eq_getElem hin]
  rfl

/-- The view stays on what it shows. -/
theorem Holds.push_view (h : Holds b rows) (cells : List ScreenCell) (hview : 0 < b.offset)
    (hkeeps : ¬ (b.size = b.capacity ∧ b.offset = b.size)) {j : Nat} (hj : j < b.offset) :
    (b.push cells).at ((b.push cells).size - (b.push cells).offset + j) =
      b.at (b.size - b.offset + j) := by
  have hoffset := h.offset
  have hsize := h.size
  have hnext := h.push cells
  have hnext' := hnext.size
  have hlen : (rows ++ [cells]).length = rows.length + 1 := by simp
  have hcap : (b.push cells).capacity = b.capacity ∧ (b.push cells).offset = b.offset + 1 := by
    rw [push_eq (by omega)]
    unfold Scrollback.pushedRing
    simp only [hview, if_true]
    split
    · exact ⟨rfl, by simp only; omega⟩
    · exact ⟨rfl, by simp only; omega⟩
  rw [hcap.1, hlen] at hnext'
  have hold := h.at (show b.size - b.offset + j < b.size by omega)
  have hnew := hnext.at (show (b.push cells).size - (b.push cells).offset + j < (b.push cells).size by
    omega)
  rw [List.getElem?_append_left (by omega), hlen,
    show rows.length + 1 - (b.push cells).size + ((b.push cells).size - (b.push cells).offset + j) =
      rows.length - b.size + (b.size - b.offset + j) by omega] at hnew
  exact Option.some.inj (hnew.symm.trans hold)

/-- **The scrollback is a bounded list.** After any operations it has the size of the
rows pushed since the last clear, up to its capacity, its lines are the last of them
without their trailing blanks, and its view stays inside and on what it shows. -/
theorem run_refines (capacity : UInt64) (ops : List Op) :
    let b := run step (create capacity.toNat) ops
    let rows := ops.foldl pushed []
    b.size = min capacity.toNat rows.length ∧
    (∀ i, i < b.size → ((rows.drop (rows.length - b.size))[i]?).map trimmed = some (b.at i)) ∧
    b.offset ≤ b.size ∧
    ∀ cells, 0 < b.offset → ¬ (b.size = b.capacity ∧ b.offset = b.size) → ∀ j, j < b.offset →
      (b.push cells).at ((b.push cells).size - (b.push cells).offset + j) =
        b.at (b.size - b.offset + j) := by
  intro b rows
  have h : Holds b rows := (Holds.create capacity).run ops
  have hcap : b.capacity = capacity.toNat :=
    run_preserves (fun b op hb => (step_capacity b op).trans hb) rfl ops
  refine ⟨hcap ▸ h.size, fun i hi => ?_, h.offset, fun cells hview hkeeps j hj => ?_⟩
  · rw [List.getElem?_drop]
    exact h.at hi
  · exact h.push_view cells hview hkeeps hj

end Sshos.Vt.Scrollback
