import Sshos.Lib.Run
import Mathlib.Data.List.Chain

/-!
# Sshos.Lib.Sampling

A **sampler** takes a reading unless it took one less than a period before. What it took is a
part of what it was given, no two in a row are closer than the period, and the last one is not
older than the period. A machine that ignores a reading just when the sampler does has run on
the readings that were kept.
-/

namespace Sshos.Lib

universe u v

variable {α : Type u} {σ : Type v} {period : Int}

/-- One reading more, with the time of it. -/
def keep (period : Int) (ks : List (Int × α)) (r : Int × α) : List (Int × α) :=
  match ks.getLast? with
  | none => ks ++ [r]
  | some l => if r.1 - l.1 < period then ks else ks ++ [r]

/-- The readings that were kept. -/
def kept (period : Int) (rs : List (Int × α)) : List (Int × α) := run (keep period) [] rs

/-- A reading is ignored, or is kept after one that is a period away. -/
theorem keep_cases (period : Int) (ks : List (Int × α)) (r : Int × α) :
    (keep period ks r = ks ∧ ∃ l, ks.getLast? = some l ∧ r.1 - l.1 < period) ∨
      (keep period ks r = ks ++ [r] ∧ ∀ l, ks.getLast? = some l → period ≤ r.1 - l.1) := by
  unfold keep
  cases hlast : ks.getLast? with
  | none => exact .inr ⟨rfl, fun l hl => absurd hl (by simp)⟩
  | some l =>
      by_cases hrecent : r.1 - l.1 < period
      · exact .inl ⟨if_pos hrecent, l, rfl, hrecent⟩
      · refine .inr ⟨if_neg hrecent, fun l' hl' => ?_⟩
        obtain rfl := Option.some.inj hl'
        exact Int.not_lt.1 hrecent

theorem kept_append_singleton (rs : List (Int × α)) (r : Int × α) :
    kept period (rs ++ [r]) = keep period (kept period rs) r := run_append _ _ rs [r]

theorem kept_sublist (rs : List (Int × α)) : (kept period rs).Sublist rs := by
  induction rs using List.reverseRecOn with
  | nil => exact List.Sublist.refl _
  | append_singleton rs r ih =>
      rw [kept_append_singleton]
      rcases keep_cases period (kept period rs) r with ⟨hskip, -⟩ | ⟨htake, -⟩
      · rw [hskip]
        exact ih.trans (List.sublist_append_left rs [r])
      · rw [htake]
        exact ih.append_right [r]

/-- **No two in a row are closer than the period.** -/
theorem isChain_kept (rs : List (Int × α)) :
    (kept period rs).IsChain fun a b => period ≤ b.1 - a.1 := by
  induction rs using List.reverseRecOn with
  | nil => exact List.IsChain.nil
  | append_singleton rs r ih =>
      rw [kept_append_singleton]
      rcases keep_cases period (kept period rs) r with ⟨hskip, -⟩ | ⟨htake, hfar⟩
      · rw [hskip]
        exact ih
      · rw [htake]
        refine ih.append (List.IsChain.singleton r) fun a ha b hb => ?_
        obtain rfl := Option.some.inj hb
        exact hfar a ha

/-- **What was kept last is not older than the period.** -/
theorem kept_recent (hperiod : 0 < period) (rs : List (Int × α)) (r : Int × α) :
    ∃ before l, kept period (rs ++ [r]) = before ++ [l] ∧ r.1 - l.1 < period := by
  rw [kept_append_singleton]
  rcases keep_cases period (kept period rs) r with ⟨hskip, l, hl, hrecent⟩ | ⟨htake, -⟩
  · obtain ⟨before, hbefore⟩ := List.getLast?_eq_some_iff.1 hl
    exact ⟨before, l, hskip.trans hbefore, hrecent⟩
  · refine ⟨kept period rs, r, htake, ?_⟩
    omega

/-- **Sampling rule.** A machine that knows when it last took a reading, and takes one or
ignores it as the sampler does, has run on the readings that were kept. -/
theorem run_kept {step take : σ → Int × α → σ} {last : σ → Option Int}
    (hskip : ∀ s r t, last s = some t → r.1 - t < period → step s r = s)
    (htake : ∀ s r, (∀ t, last s = some t → period ≤ r.1 - t) → step s r = take s r)
    (hlast : ∀ s r, last (take s r) = some r.1) {s : σ} (hs : last s = none) (rs : List (Int × α)) :
    run step s rs = run take s (kept period rs) ∧
      last (run step s rs) = (kept period rs).getLast?.map Prod.fst := by
  induction rs using List.reverseRecOn with
  | nil => exact ⟨rfl, hs⟩
  | append_singleton rs r ih =>
      obtain ⟨hrun, hknown⟩ := ih
      rw [run_append, kept_append_singleton]
      rcases keep_cases period (kept period rs) r with ⟨hkeep, l, hl, hrecent⟩ | ⟨hkeep, hfar⟩
      · have hstep : step (run step s rs) r = run step s rs := by
          refine hskip _ _ l.1 ?_ hrecent
          rw [hknown, hl, Option.map_some]
        rw [hkeep, run_cons, run_nil, hstep]
        exact ⟨hrun, hknown⟩
      · have hstep : step (run step s rs) r = take (run step s rs) r := by
          refine htake _ _ fun t ht => ?_
          rw [hknown, Option.map_eq_some_iff] at ht
          obtain ⟨l, hl, rfl⟩ := ht
          exact hfar l hl
        rw [hkeep, run_cons, run_nil, hstep, run_append, hrun]
        refine ⟨rfl, ?_⟩
        rw [hlast, List.getLast?_concat, Option.map_some]

end Sshos.Lib
