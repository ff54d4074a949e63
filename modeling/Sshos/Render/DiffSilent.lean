import Sshos.Lib.Run
import Sshos.Render.Diff

/-!
# Sshos.Render.DiffSilent

When a frame says **nothing**. A change is looked for in two places, the cells scanned and the tail
that can be erased; between them they see every cell of a row, so that a frame is empty exactly when
the surface and the cursor are those of the last one sent.
-/

namespace Sshos.Render

open Sshos.Lib (run run_preserves)

/-! ### What a row sees -/

section Rows

variable {p : OutputProfile} {cur prev : Surface} {full : Bool} {y : Nat}

/-- What has changed stays changed. -/
theorem scanRow_changed {contentEnd : Nat} (fuel : Nat) {x : Nat} {e : Emission} (h : e.any = true) :
    (scanRow p cur prev full y contentEnd fuel x e).any = true := by
  induction fuel generalizing x e with
  | zero => exact h
  | succ fuel ih =>
      rw [scanRow]
      split
      · exact h
      split
      · exact ih h
      · exact ih rfl

/-- **The scan sees every cell** up to the end of the content. -/
theorem scanRow_any {contentEnd fuel x : Nat} {e : Emission} (hfuel : contentEnd - x ≤ fuel) :
    (scanRow p cur prev full y contentEnd fuel x e).any = false ↔
      e.any = false ∧ ∀ x', x ≤ x' → x' < contentEnd → differs cur prev full y x' = false := by
  induction fuel generalizing x with
  | zero =>
      have hend : contentEnd ≤ x := Nat.sub_eq_zero_iff_le.1 (Nat.le_zero.1 hfuel)
      exact ⟨fun h => ⟨h, fun x' hle hlt => absurd (hle.trans_lt hlt) (Nat.not_lt.2 hend)⟩, fun h => h.1⟩
  | succ fuel ih =>
      rw [scanRow]
      by_cases hend : x ≥ contentEnd
      · rw [if_pos hend]
        exact ⟨fun h => ⟨h, fun x' hle hlt => absurd (hle.trans_lt hlt) (Nat.not_lt.2 hend)⟩, fun h => h.1⟩
      rw [if_neg hend]
      by_cases hsame : differs cur prev full y x
      · rw [if_neg (not_not_intro hsame)]
        refine iff_of_false (fun h => ?_) fun h => ?_
        · rw [scanRow_changed fuel rfl] at h
          cases h
        · rw [h.2 x (Nat.le_refl x) (Nat.lt_of_not_ge hend)] at hsame
          cases hsame
      · rw [if_pos hsame, ih (by omega)]
        refine and_congr_right fun _ => ⟨fun h x' hle hlt => ?_, fun h x' hle => h x' (Nat.le_of_succ_le hle)⟩
        rcases Nat.eq_or_lt_of_le hle with rfl | hnext
        · exact Bool.eq_false_iff.2 hsame
        · exact h x' hnext hlt

theorem tailDiffers_iff (tail : Nat) :
    tailDiffers cur prev full y tail = false ↔
      full = false ∧ ∀ x, tail ≤ x → x < cur.w → cur.at x y = prev.at x y := by
  rw [tailDiffers, Bool.or_eq_false_iff, List.any_eq_false]
  refine and_congr_right fun _ => ⟨fun h x hle hlt => ?_, fun h x hx => ?_⟩
  · have hmem : x ∈ List.range' tail (cur.w - tail) := List.mem_range'_1.2 ⟨hle, by omega⟩
    have hsame := h x hmem
    rwa [bne_iff_ne, not_not] at hsame
  · obtain ⟨hle, hlt⟩ := List.mem_range'_1.1 hx
    rw [bne_iff_ne, not_not]
    exact h x hle (by omega)

/-- **A row sees every cell**: those of its content, then those of the tail. -/
theorem row_any {e : Emission} :
    (row p cur prev full y e).any = false ↔
      e.any = false ∧ ∀ x < cur.w, differs cur prev full y x = false := by
  have hdiffers : ∀ x, differs cur prev full y x = false ↔ full = false ∧ cur.at x y = prev.at x y := by
    intro x
    rw [differs, Bool.or_eq_false_iff, bne_eq_false_iff_eq]
  have htail : tailStart cur y cur.w ≤ cur.w := tailStart_le cur.w
  unfold row
  simp only
  generalize tailStart cur y cur.w = tail at htail
  by_cases herase : cur.w - tail ≥ kMinErasableTail
  · simp only [herase, if_true, true_and]
    have hscan := @scanRow_any p cur prev full y tail tail 0 e (Nat.sub_le _ _)
    by_cases hdiff : tailDiffers cur prev full y tail
    · rw [if_pos hdiff]
      refine iff_of_false (fun h => Bool.noConfusion h) fun h => ?_
      have hsame : tailDiffers cur prev full y tail = false := by
        have hroom : tail < cur.w := by
          unfold kMinErasableTail at herase
          omega
        refine (tailDiffers_iff tail).2 ⟨((hdiffers tail).1 (h.2 tail hroom)).1, fun x _ hlt => ?_⟩
        exact ((hdiffers x).1 (h.2 x hlt)).2
      rw [hdiff] at hsame
      cases hsame
    · rw [if_neg hdiff, hscan]
      obtain ⟨hfull, hsame⟩ := (tailDiffers_iff tail).1 (Bool.eq_false_iff.2 hdiff)
      refine and_congr_right fun _ => ⟨fun h x hlt => ?_, fun h x _ hlt => h x (hlt.trans_le htail)⟩
      by_cases hx : x < tail
      · exact h x (Nat.zero_le x) hx
      · exact (hdiffers x).2 ⟨hfull, hsame x (Nat.not_lt.1 hx) hlt⟩
  · simp only [herase, if_false, false_and]
    rw [scanRow_any (Nat.sub_le _ _)]
    exact and_congr_right fun _ => ⟨fun h x hlt => h x (Nat.zero_le x) hlt, fun h x _ hlt => h x hlt⟩

end Rows

namespace Differ

variable {d : Differ} {cur : Surface} {cursor : Option Pos}

/-- **Nothing is sent again** exactly when no cell differs from the one remembered. -/
theorem emission_any :
    (d.emission cur).any = false ↔
      ∀ y < cur.h, ∀ x < cur.w, differs cur d.prev (!d.valid) y x = false := by
  have hrows : ∀ (n : Nat), (((List.range n).foldl
      (fun e y => row d.profile cur d.prev (!d.valid) y e) {} : Emission).any = false ↔
        ∀ y < n, ∀ x < cur.w, differs cur d.prev (!d.valid) y x = false) := by
    intro n
    induction n with
    | zero => exact iff_of_true rfl nofun
    | succ n ih =>
        rw [List.range_succ, List.foldl_append, List.foldl_cons, List.foldl_nil, row_any, ih]
        refine ⟨fun h y hy => ?_, fun h => ⟨fun y hy => h y (Nat.lt_succ_of_lt hy), h n (Nat.lt_succ_self n)⟩⟩
        rcases Nat.lt_succ_iff_lt_or_eq.1 hy with hlt | rfl
        · exact h.1 y hlt
        · exact h.2
  exact hrows cur.h

/-! ### Histories -/

/-- What a differ is asked. -/
inductive Ask
  | frame (cur : Surface) (cursor : Option Pos)
  | invalidate

/-- A differ, beside the surface and the cursor of the last frame sent since what the client shows
was last forgotten. -/
structure History where
  differ : Differ
  last : Option (Surface × Option Pos) := none

def History.ask (s : History) : Ask → History
  | .frame cur cursor =>
      { differ := (s.differ.frame cur cursor).2
        last := if (s.differ.frame cur cursor).1 = [] then s.last else some (cur, cursor) }
  | .invalidate => { differ := s.differ.invalidate, last := none }

/-- What the differ remembers is the frame that was sent. -/
def Remembers (d : Differ) (cur : Surface) (cursor : Option Pos) : Prop :=
  d.prev = cur ∧ d.valid = true ∧ d.lastTarget = cursor.getD {} ∧ d.lastShown = cursor.isSome ∧
    d.first = false

def History.Holds (s : History) : Prop :=
  match s.last with
  | none => s.differ.valid = false
  | some (cur, cursor) => Remembers s.differ cur cursor

theorem frame_sent (h : (d.frame cur cursor).1 ≠ []) : Remembers (d.frame cur cursor).2 cur cursor := by
  unfold frame at h ⊢
  simp only at h ⊢
  split at h
  · exact absurd rfl h
  next hsend =>
    rw [if_neg hsend]
    exact ⟨rfl, rfl, rfl, rfl, rfl⟩

/-- **When a frame is empty**, told from what the differ remembers. -/
theorem frame_eq_nil_iff :
    (d.frame cur cursor).1 = [] ↔
      d.valid = true ∧ (d.prev.w = cur.w ∧ d.prev.h = cur.h) ∧
        (∀ y < cur.h, ∀ x < cur.w, cur.at x y = d.prev.at x y) ∧
        d.first = false ∧ cursor.getD {} = d.lastTarget ∧ cursor.isSome = d.lastShown := by
  by_cases hsize : d.prev.w ≠ cur.w ∨ d.prev.h ≠ cur.h
  · have hfit : (d.fit cur).valid = false := by rw [fit, if_pos hsize]
    unfold frame
    simp only [hfit, Bool.false_eq_true, false_and, and_false, if_false]
    refine iff_of_false (List.cons_ne_nil _ _) fun h => ?_
    rcases hsize with hw | hh
    · exact hw h.2.1.1
    · exact hh h.2.1.2
  · have hfit : d.fit cur = d := if_neg hsize
    obtain ⟨hw, hh⟩ := not_or.1 hsize
    unfold frame
    simp only [hfit, emission_any]
    have hquiet : (d.first || cursor.getD {} != d.lastTarget || cursor.isSome != d.lastShown) = false ↔
        d.first = false ∧ cursor.getD {} = d.lastTarget ∧ cursor.isSome = d.lastShown := by
      rw [Bool.or_eq_false_iff, Bool.or_eq_false_iff, bne_eq_false_iff_eq, bne_eq_false_iff_eq, and_assoc]
    have hcells : d.valid = true → ((∀ y < cur.h, ∀ x < cur.w, differs cur d.prev (!d.valid) y x = false) ↔
        ∀ y < cur.h, ∀ x < cur.w, cur.at x y = d.prev.at x y) := by
      intro hvalid
      simp only [differs, hvalid, Bool.not_true, Bool.false_or, bne_eq_false_iff_eq]
    split
    next hsame =>
      refine iff_of_true rfl ⟨hsame.2.1, ⟨not_not.1 hw, not_not.1 hh⟩, ?_, hquiet.1 hsame.2.2⟩
      exact (hcells hsame.2.1).1 hsame.1
    next hsend =>
      refine iff_of_false (List.cons_ne_nil _ _) fun h => hsend ?_
      exact ⟨(hcells h.1).2 h.2.2.1, h.1, hquiet.2 h.2.2.2⟩

theorem History.Holds.ask {s : History} (h : s.Holds) (a : Ask) : (s.ask a).Holds := by
  cases a with
  | invalidate => exact (rfl : s.differ.invalidate.valid = false)
  | frame cur cursor =>
      by_cases hempty : (s.differ.frame cur cursor).1 = []
      · -- an empty frame leaves the differ as it is
        have hkept : (s.differ.frame cur cursor).2 = s.differ := by
          obtain ⟨-, ⟨hw, hh⟩, -⟩ := frame_eq_nil_iff.1 hempty
          have hfit : s.differ.fit cur = s.differ :=
            if_neg (not_or.2 ⟨not_not_intro hw, not_not_intro hh⟩)
          unfold Differ.frame at hempty ⊢
          simp only [hfit] at hempty ⊢
          split at hempty
          next hsame => rw [if_pos hsame]
          next => exact absurd hempty (List.cons_ne_nil _ _)
        simp only [History.ask, hempty, hkept, if_true]
        exact h
      · simp only [History.ask, hempty, if_false]
        exact frame_sent hempty

/-- **A frame is silent exactly when nothing changed**: after any frames and repaints, it is empty if
and only if one was sent at this size since the last repaint, every cell is the one sent last, and so
are the place of the cursor and whether it shows; and a frame that is not empty is remembered. -/
theorem frame_silent_iff (p : OutputProfile) (asks : List Ask) (cur : Surface) (cursor : Option Pos) :
    (((run History.ask { differ := { profile := p } } asks).differ.frame cur cursor).1 = [] ↔
      ∃ sent shown, (run History.ask { differ := { profile := p } } asks).last = some (sent, shown) ∧
        (sent.w = cur.w ∧ sent.h = cur.h) ∧
        (∀ y < cur.h, ∀ x < cur.w, cur.at x y = sent.at x y) ∧
        cursor.getD {} = shown.getD {} ∧ cursor.isSome = shown.isSome) ∧
    (((run History.ask { differ := { profile := p } } asks).differ.frame cur cursor).1 ≠ [] →
      Remembers ((run History.ask { differ := { profile := p } } asks).differ.frame cur cursor).2 cur cursor) := by
  have hfresh : History.Holds { differ := { profile := p } } := (rfl : ({ profile := p } : Differ).valid = false)
  have hstep : ∀ (s : History) (a : Ask), s.Holds → (s.ask a).Holds := fun _ a h => h.ask a
  have hholds := run_preserves hstep hfresh asks
  generalize run History.ask { differ := { profile := p } } asks = s at hholds ⊢
  refine ⟨?_, frame_sent⟩
  rw [frame_eq_nil_iff]
  unfold History.Holds at hholds
  cases hlast : s.last with
  | none =>
      rw [hlast] at hholds
      simp only at hholds
      refine iff_of_false (fun h => ?_) fun h => ?_
      · rw [hholds] at h
        exact Bool.noConfusion h.1
      · obtain ⟨sent, shown, hsome, -⟩ := h
        cases hsome
  | some f =>
      obtain ⟨sent, shown⟩ := f
      rw [hlast] at hholds
      obtain ⟨rfl, hvalid, htarget, hshown, hfirst⟩ := hholds
      rw [hvalid, htarget, hshown, hfirst]
      constructor
      · rintro ⟨-, hsize, hcells, -, hcursor⟩
        exact ⟨_, _, rfl, hsize, hcells, hcursor⟩
      · rintro ⟨sent, shown', heq, hsize, hcells, hcursor⟩
        obtain ⟨rfl, rfl⟩ := Prod.mk.inj (Option.some.inj heq)
        exact ⟨rfl, hsize, hcells, rfl, hcursor⟩

end Differ

end Sshos.Render
