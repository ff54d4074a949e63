import Mathlib.Data.List.Basic
import Mathlib.Data.Prod.Lex
import Mathlib.Logic.Hydra
import Mathlib.Order.WellFounded
import Mathlib.Tactic.Common

/-!
# Sshos.Lib.Run

**Runs** of a state machine given as a step function, and the induction that
carries an invariant along them.

`StepsMeet ok s is` says that every step of the run from `s` meets a condition
judged in the state before it, so that an invariant which only conditioned steps
preserve can still be followed along whole runs.
-/

namespace Sshos.Lib

universe u v

variable {σ : Type u} {ι : Type v}

/-- The state the inputs `is` lead to from `s`. -/
def run (step : σ → ι → σ) (s : σ) (is : List ι) : σ := is.foldl step s

@[simp] theorem run_nil (step : σ → ι → σ) (s : σ) : run step s [] = s := rfl

@[simp] theorem run_cons (step : σ → ι → σ) (s : σ) (i : ι) (is : List ι) :
    run step s (i :: is) = run step (step s i) is := rfl

theorem run_append (step : σ → ι → σ) (s : σ) (is js : List ι) :
    run step s (is ++ js) = run step (run step s is) js := List.foldl_append ..

/-- Every step of the run meets `ok` in the state it is taken from. -/
def StepsMeet (step : σ → ι → σ) (ok : σ → ι → Prop) : σ → List ι → Prop
  | _, [] => True
  | s, i :: is => ok s i ∧ StepsMeet step ok (step s i) is

instance StepsMeet.decidable (step : σ → ι → σ) (ok : σ → ι → Prop) [∀ s i, Decidable (ok s i)] :
    (s : σ) → (is : List ι) → Decidable (StepsMeet step ok s is)
  | _, [] => .isTrue trivial
  | s, i :: is =>
      have := StepsMeet.decidable step ok (step s i) is
      inferInstanceAs (Decidable (ok s i ∧ StepsMeet step ok (step s i) is))

/-- The condition holds along every beginning of a run that meets it. -/
theorem StepsMeet.of_append {step : σ → ι → σ} {ok : σ → ι → Prop} {s : σ} {is js : List ι}
    (h : StepsMeet step ok s (is ++ js)) : StepsMeet step ok s is := by
  induction is generalizing s with
  | nil => trivial
  | cons i is ih => exact ⟨h.1, ih h.2⟩

/-- Step by step, or at the end of every beginning. -/
theorem stepsMeet_iff {step : σ → ι → σ} {ok : σ → ι → Prop} {s : σ} {is : List ι} :
    StepsMeet step ok s is ↔ ∀ before i, before ++ [i] <+: is → ok (run step s before) i := by
  induction is generalizing s with
  | nil =>
      refine ⟨fun _ before i hb => ?_, fun _ => trivial⟩
      exact absurd (List.prefix_nil.1 hb) (by simp)
  | cons j is ih =>
      constructor
      · rintro ⟨hj, hmeet⟩ before i hb
        cases before with
        | nil =>
            obtain ⟨rfl, -⟩ := List.cons_prefix_cons.1 hb
            exact hj
        | cons k before =>
            obtain ⟨rfl, htail⟩ := List.cons_prefix_cons.1 hb
            exact ih.1 hmeet before i htail
      · intro hall
        refine ⟨hall [] j ⟨is, rfl⟩, ih.2 fun before i hb => ?_⟩
        exact hall (j :: before) i (List.cons_prefix_cons.2 ⟨rfl, hb⟩)

/-- What is known of the inputs may be added to the condition. -/
theorem StepsMeet.and_inputs {step : σ → ι → σ} {ok : σ → ι → Prop} {legal : ι → Prop} {s : σ}
    {is : List ι} (h : StepsMeet step ok s is) (hlegal : ∀ i ∈ is, legal i) :
    StepsMeet step (fun s i => ok s i ∧ legal i) s is := by
  induction is generalizing s with
  | nil => trivial
  | cons i is ih =>
      have hrest : ∀ j ∈ is, legal j := fun j hj => hlegal j (List.mem_cons_of_mem i hj)
      exact ⟨⟨h.1, hlegal i (List.mem_cons_self ..)⟩, ih h.2 hrest⟩

theorem StepsMeet.and {step : σ → ι → σ} {ok ok' : σ → ι → Prop} {s : σ} {is : List ι}
    (h : StepsMeet step ok s is) (h' : StepsMeet step ok' s is) :
    StepsMeet step (fun s i => ok s i ∧ ok' s i) s is := by
  induction is generalizing s with
  | nil => trivial
  | cons i is ih => exact ⟨⟨h.1, h'.1⟩, ih h.2 h'.2⟩

/-- A condition on the inputs alone holds along every run of such inputs. -/
theorem StepsMeet.of_forall {step : σ → ι → σ} {ok : σ → ι → Prop} {is : List ι}
    (h : ∀ i ∈ is, ∀ s, ok s i) (s : σ) : StepsMeet step ok s is := by
  induction is generalizing s with
  | nil => trivial
  | cons i is ih =>
      exact ⟨h i (List.mem_cons_self ..) s, ih (fun j hj => h j (List.mem_cons_of_mem i hj)) _⟩

/-- **Invariance.** What every conditioned step preserves, every conditioned run
preserves. -/
theorem run_invariant {step : σ → ι → σ} {ok : σ → ι → Prop} {inv : σ → Prop}
    (hstep : ∀ s i, inv s → ok s i → inv (step s i)) {s : σ} {is : List ι} (hs : inv s)
    (hok : StepsMeet step ok s is) : inv (run step s is) := by
  induction is generalizing s with
  | nil => exact hs
  | cons i is ih => exact ih (hstep s i hs hok.1) hok.2

/-- **When a property survives.** If a step from a good state leads to a good state
exactly when it meets `ok`, all the states of a run are good exactly when all its steps
meet `ok`. -/
theorem run_good_iff_of_meet {step : σ → ι → σ} {ok legal : σ → ι → Prop} {inv good : σ → Prop}
    (hinv : ∀ s i, legal s i → inv s → inv (step s i))
    (hstep : ∀ s i, legal s i → inv s → good s → (good (step s i) ↔ ok s i)) {s : σ} {is : List ι}
    (hs : inv s) (hg : good s) (hlegal : StepsMeet step legal s is) :
    (∀ before, before <+: is → good (run step s before)) ↔ StepsMeet step ok s is := by
  induction is generalizing s with
  | nil =>
      refine ⟨fun _ => trivial, fun _ before hb => ?_⟩
      rw [List.prefix_nil.1 hb]
      exact hg
  | cons i is ih =>
      obtain ⟨hi, hlater⟩ := hlegal
      have hrest := fun hg' => ih (hinv s i hi hs) hg' hlater
      constructor
      · intro hall
        have hone : good (step s i) := hall [i] ⟨is, rfl⟩
        refine ⟨(hstep s i hi hs hg).1 hone, (hrest hone).1 fun before hb => ?_⟩
        exact hall (i :: before) (List.cons_prefix_cons.2 ⟨rfl, hb⟩)
      · rintro ⟨hok, hmeet⟩ before hb
        cases before with
        | nil => exact hg
        | cons j before =>
            obtain ⟨rfl, htail⟩ := List.cons_prefix_cons.1 hb
            exact (hrest ((hstep s j hi hs hg).2 hok)).2 hmeet before htail

/-- When what is legal is known of the inputs alone. -/
theorem run_good_iff {step : σ → ι → σ} {ok : σ → ι → Prop} {inv good : σ → Prop}
    {legal : ι → Prop} (hinv : ∀ s i, legal i → inv s → inv (step s i))
    (hstep : ∀ s i, legal i → inv s → good s → (good (step s i) ↔ ok s i)) {s : σ} {is : List ι}
    (hs : inv s) (hg : good s) (hlegal : ∀ i ∈ is, legal i) :
    (∀ before, before <+: is → good (run step s before)) ↔ StepsMeet step ok s is :=
  @run_good_iff_of_meet _ _ _ _ (fun _ i => legal i) _ _ hinv hstep _ _ hs hg
    (StepsMeet.of_forall (fun i hi _ => hlegal i hi) s)

/-- With a property of the steps themselves. -/
theorem run_good_and_iff {step : σ → ι → σ} {ok does : σ → ι → Prop} {inv good : σ → Prop}
    (hinv : ∀ s i, inv s → inv (step s i))
    (hstep : ∀ s i, inv s → good s → (good (step s i) ∧ does s i ↔ ok s i)) {s : σ} {is : List ι}
    (hs : inv s) (hg : good s) :
    (∀ before, before <+: is → good (run step s before)) ∧ StepsMeet step does s is ↔
      StepsMeet step ok s is := by
  induction is generalizing s with
  | nil =>
      refine ⟨fun _ => trivial, fun _ => ⟨fun before hb => ?_, trivial⟩⟩
      rw [List.prefix_nil.1 hb]
      exact hg
  | cons i is ih =>
      have hrest := fun hg' => ih (hinv s i hs) hg'
      constructor
      · rintro ⟨hall, hdoes, hlater⟩
        have hone : good (step s i) := hall [i] ⟨is, rfl⟩
        refine ⟨(hstep s i hs hg).1 ⟨hone, hdoes⟩, (hrest hone).1 ⟨fun before hb => ?_, hlater⟩⟩
        exact hall (i :: before) (List.cons_prefix_cons.2 ⟨rfl, hb⟩)
      · rintro ⟨hok, hmeet⟩
        obtain ⟨hone, hdoes⟩ := (hstep s i hs hg).2 hok
        obtain ⟨hall, hlater⟩ := (hrest hone).2 hmeet
        refine ⟨fun before hb => ?_, hdoes, hlater⟩
        cases before with
        | nil => exact hg
        | cons j before =>
            obtain ⟨rfl, htail⟩ := List.cons_prefix_cons.1 hb
            exact hall before htail

/-- From any state: the start is a beginning of the run too. -/
theorem run_good_and_start_iff {step : σ → ι → σ} {ok does : σ → ι → Prop} {good : σ → Prop}
    (hstep : ∀ s i, good s → (good (step s i) ∧ does s i ↔ ok s i)) (s : σ) (is : List ι) :
    (∀ before, before <+: is → good (run step s before)) ∧ StepsMeet step does s is ↔
      good s ∧ StepsMeet step ok s is := by
  have hiff := fun hg : good s => @run_good_and_iff _ _ step ok does (fun _ => True) good
    (fun _ _ _ => trivial) (fun s i _ => hstep s i) s is trivial hg
  constructor
  · intro h
    have hg : good s := h.1 [] (List.nil_prefix)
    exact ⟨hg, (hiff hg).1 h⟩
  · rintro ⟨hg, hmeet⟩
    exact (hiff hg).2 hmeet

/-- What every step preserves, every run preserves. -/
theorem run_preserves {step : σ → ι → σ} {inv : σ → Prop} (hstep : ∀ s i, inv s → inv (step s i))
    {s : σ} (hs : inv s) (is : List ι) : inv (run step s is) := by
  induction is generalizing s with
  | nil => exact hs
  | cons i is ih => exact ih (hstep s i hs)

/-- **Termination.** A run comes to an end if each of its steps gets higher, up to a bound, or
stays as high and gets shorter. -/
theorem exists_done {done : σ → Prop} {high short : σ → Nat} {bound : Nat} {states : Nat → σ}
    (hbound : ∀ n, high (states n) ≤ bound)
    (hstep : ∀ n, ¬ done (states n) → done (states (n + 1)) ∨ high (states n) < high (states (n + 1)) ∨
      high (states (n + 1)) = high (states n) ∧ short (states (n + 1)) < short (states n)) :
    ∃ n, done (states n) := by
  by_contra hnever
  have hnot : ∀ n, ¬ done (states n) := fun n hn => hnever ⟨n, hn⟩
  obtain ⟨n, hn⟩ := WellFounded.not_rel_apply_succ (r := (· < ·))
    fun n => toLex (bound - high (states n), short (states n))
  refine hn (Prod.Lex.toLex_lt_toLex.2 ?_)
  rcases hstep n (hnot n) with hdone | hhigh | ⟨hhigh, hshort⟩
  · exact absurd hdone (hnot (n + 1))
  · left
    have hle := hbound (n + 1)
    simp only
    omega
  · right
    exact ⟨by simp only [hhigh], hshort⟩

/-- **A worklist comes to an end** if each step takes one thing off it, and puts on it only
things that rank lower. -/
theorem exists_done_of_work {α : Type*} {done : σ → Prop} {work : σ → List α} {rank : α → Nat}
    {states : Nat → σ}
    (hstep : ∀ n, ¬ done (states n) → done (states (n + 1)) ∨
      ∃ a rest new, work (states n) = a :: rest ∧ work (states (n + 1)) = new ++ rest ∧
        ∀ b ∈ new, rank b < rank a) :
    ∃ n, done (states n) := by
  by_contra hnever
  have hwf : WellFounded (Relation.CutExpand (InvImage (· < ·) rank)) :=
    (InvImage.wf rank Nat.lt_wfRel.wf).cutExpand
  obtain ⟨n, hn⟩ := @WellFounded.not_rel_apply_succ _ _ ⟨hwf⟩ fun n => (work (states n) : Multiset α)
  refine hn ?_
  rcases hstep n (fun h => hnever ⟨n, h⟩) with hdone | ⟨a, rest, new, hnow, hnext, hlower⟩
  · exact absurd ⟨n + 1, hdone⟩ hnever
  · refine ⟨new, a, fun b hb => hlower b hb, ?_⟩
    rw [hnow, hnext, ← Multiset.coe_singleton, Multiset.coe_add, Multiset.coe_add, Multiset.coe_eq_coe]
    have hswap : (a :: (new ++ rest)).Perm (a :: (rest ++ new)) := List.perm_append_comm.cons a
    exact List.perm_append_comm.trans hswap

/-- The states along a sequence of inputs. -/
theorem run_range_succ (step : σ → ι → σ) (s : σ) (f : Nat → ι) (n : Nat) :
    run step s ((List.range (n + 1)).map f) = step (run step s ((List.range n).map f)) (f n) := by
  rw [List.range_succ, List.map_append, run_append]
  rfl

end Sshos.Lib
