import Sshos.Lib.Grid

/-!
# Sshos.Lib.Checked

**Checked computations**: arithmetic on the signed integers of a machine, accesses to
vectors and counting loops, where whatever the language leaves undefined stops the
computation.

A program written with these says what it computes and what it risks at once. To show
that it risks nothing is to show that it gives the same program over the unbounded
integers.
-/

namespace Sshos.Lib

/-- What the language gives no meaning to. -/
inductive Undefined where
  /-- Signed arithmetic left its type. -/
  | overflow
  /-- An access left its vector. -/
  | outside
  /-- A loop went on for more rounds than it was given. -/
  | endless
  deriving Repr, DecidableEq

abbrev Checked := Except Undefined

/-- The values of a 32-bit signed integer. -/
def IsInt32 (v : Int) : Prop := -2 ^ 31 ≤ v ∧ v < 2 ^ 31

/-- The values of a 64-bit signed integer. -/
def IsInt64 (v : Int) : Prop := -2 ^ 63 ≤ v ∧ v < 2 ^ 63

instance (v : Int) : Decidable (IsInt32 v) := inferInstanceAs (Decidable (_ ∧ _))
instance (v : Int) : Decidable (IsInt64 v) := inferInstanceAs (Decidable (_ ∧ _))

/-- The exact result `v` of an operation on `int`. -/
def int32 (v : Int) : Checked Int := if IsInt32 v then .ok v else .error .overflow

/-- The exact result `v` of an operation on `ptrdiff_t`. -/
def int64 (v : Int) : Checked Int := if IsInt64 v then .ok v else .error .overflow

/-- What an access asks for. -/
def inside (p : Prop) [Decidable p] : Checked Unit := if p then .ok () else .error .outside

namespace Checked

variable {α β σ : Type}

@[simp] theorem ok_bind (a : α) (f : α → Checked β) : (Except.ok a >>= f : Checked β) = f a := rfl

theorem int32_eq {v : Int} (h0 : -2 ^ 31 ≤ v) (h1 : v < 2 ^ 31) : int32 v = .ok v :=
  if_pos ⟨h0, h1⟩

theorem int64_eq {v : Int} (h0 : -2 ^ 63 ≤ v) (h1 : v < 2 ^ 63) : int64 v = .ok v :=
  if_pos ⟨h0, h1⟩

theorem inside_eq {p : Prop} [Decidable p] (h : p) : inside p = .ok () := if_pos h

/-- A choice, branch by branch. -/
theorem ite_eq {p : Prop} [Decidable p] {m m' : Checked α} {a a' : α} (h : p → m = .ok a)
    (h' : ¬ p → m' = .ok a') : (if p then m else m') = .ok (if p then a else a') := by
  by_cases hp : p
  · rw [if_pos hp, if_pos hp]
    exact h hp
  · rw [if_neg hp, if_neg hp]
    exact h' hp

/-! ### Loops -/

/-- `for (int i = first; guard(i); i += stride)`, for fewer than `rounds` rounds. -/
def forLoop (guard : Int → Checked Bool) (stride : Int) (body : σ → Int → Checked σ) :
    (rounds : Nat) → (i : Int) → σ → Checked σ
  | 0, _, _ => .error .endless
  | rounds + 1, i, s => do
      if ← guard i then
        let s ← body s i
        let i ← int32 (i + stride)
        forLoop guard stride body rounds i s
      else pure s

variable {P : σ → Prop} {guard : Int → Checked Bool} {body : σ → Int → Checked σ}
  {f : σ → Int → σ} {lo hi : Int} {rounds : Nat} {s : σ}

/-- **Loop rule.** A loop that counts up to a bound its guard knows, with a body that
does what `f` does wherever the invariant holds, is the loop of `f`. -/
theorem forLoop_eq_forUp (hle : lo ≤ hi) (hlo : -2 ^ 31 ≤ lo) (hhi : hi < 2 ^ 31)
    (hrounds : hi - lo < rounds)
    (hguard : ∀ i, lo ≤ i → i ≤ hi → guard i = .ok (decide (i < hi)))
    (hs : P s) (hbody : ∀ i s, lo ≤ i → i < hi → P s → body s i = .ok (f s i) ∧ P (f s i)) :
    forLoop guard 1 body rounds lo s = .ok (forUp lo hi f s) := by
  induction rounds generalizing lo s with
  | zero => omega
  | succ rounds ih =>
      unfold forLoop
      rw [hguard lo (Int.le_refl lo) hle, ok_bind]
      by_cases hlt : lo < hi
      · obtain ⟨hok, hkeep⟩ := hbody lo s (Int.le_refl lo) hlt hs
        rw [if_pos (by simpa using hlt), hok, ok_bind, int32_eq (by omega) (by omega), ok_bind,
          forUp_of_lt hlt]
        exact ih (by omega) (by omega) (by omega) (fun i h0 h1 => hguard i (by omega) h1) hkeep
          fun i t h0 h1 ht => hbody i t (by omega) h1 ht
      · rw [if_neg (by simpa using hlt), forUp_of_le (by omega)]
        rfl

/-- The same rule for a loop that counts down. -/
theorem forLoop_eq_forDown (hle : lo ≤ hi) (hlo : -2 ^ 31 < lo) (hhi : hi ≤ 2 ^ 31)
    (hrounds : hi - lo < rounds)
    (hguard : ∀ i, lo ≤ i + 1 → i < hi → guard i = .ok (decide (lo ≤ i)))
    (hs : P s) (hbody : ∀ i s, lo ≤ i → i < hi → P s → body s i = .ok (f s i) ∧ P (f s i)) :
    forLoop guard (-1) body rounds (hi - 1) s = .ok (forDown lo hi f s) := by
  induction rounds generalizing hi s with
  | zero => omega
  | succ rounds ih =>
      unfold forLoop
      rw [hguard (hi - 1) (by omega) (by omega), ok_bind]
      by_cases hlt : lo < hi
      · obtain ⟨hok, hkeep⟩ := hbody (hi - 1) s (by omega) (by omega) hs
        rw [if_pos (by simp; omega), hok, ok_bind, int32_eq (by omega) (by omega), ok_bind,
          forDown_of_lt hlt]
        exact ih (by omega) (by omega) (by omega) (fun i h0 h1 => hguard i h0 (by omega)) hkeep
          fun i t h0 h1 ht => hbody i t h0 (by omega) ht
      · rw [if_neg (by simp; omega), forDown_of_le (by omega)]
        rfl

end Checked

end Sshos.Lib
