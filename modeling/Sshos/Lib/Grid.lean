import Mathlib.Data.List.Basic
import Mathlib.Tactic.Common
import Mathlib.Tactic.Linarith
import Mathlib.Tactic.Ring

/-!
# Sshos.Lib.Grid

Signed-index access to a vector, and the two things a **row-major page** needs:
counting loops with their invariant rule, and the arithmetic of `y * w + x`.

Every bulk operation is described entry by entry through `readAt`, so that a client
never looks inside the list again.
-/

namespace Sshos.Lib

universe u

variable {α σ : Type u}

/-! ### Counting loops -/

/-- `for (i = lo; i < hi; ++i)`. -/
def forUp (lo hi : Int) (f : σ → Int → σ) (s : σ) : σ :=
  (List.range (hi - lo).toNat).foldl (fun s (k : Nat) => f s (lo + k)) s

/-- `for (i = hi - 1; i >= lo; --i)`. -/
def forDown (lo hi : Int) (f : σ → Int → σ) (s : σ) : σ :=
  (List.range (hi - lo).toNat).foldl (fun s (k : Nat) => f s (hi - 1 - k)) s

theorem forUp_of_le {lo hi : Int} (h : hi ≤ lo) (f : σ → Int → σ) (s : σ) : forUp lo hi f s = s := by
  unfold forUp
  rw [show (hi - lo).toNat = 0 by omega]
  rfl

/-- The first round of a loop. -/
theorem forUp_of_lt {lo hi : Int} (h : lo < hi) (f : σ → Int → σ) (s : σ) :
    forUp lo hi f s = forUp (lo + 1) hi f (f s lo) := by
  unfold forUp
  rw [show (hi - lo).toNat = (hi - (lo + 1)).toNat + 1 by omega, List.range_succ_eq_map,
    List.foldl_cons, List.foldl_map]
  simp only [Nat.cast_zero, Nat.cast_succ, Int.add_zero]
  congr 1
  funext t k
  rw [Int.add_assoc, Int.add_comm 1 (k : Int)]

theorem forDown_of_le {lo hi : Int} (h : hi ≤ lo) (f : σ → Int → σ) (s : σ) :
    forDown lo hi f s = s := by
  unfold forDown
  rw [show (hi - lo).toNat = 0 by omega]
  rfl

theorem forDown_of_lt {lo hi : Int} (h : lo < hi) (f : σ → Int → σ) (s : σ) :
    forDown lo hi f s = forDown lo (hi - 1) f (f s (hi - 1)) := by
  unfold forDown
  rw [show (hi - lo).toNat = (hi - 1 - lo).toNat + 1 by omega, List.range_succ_eq_map,
    List.foldl_cons, List.foldl_map]
  simp only [Nat.cast_zero, Nat.cast_succ, Int.sub_zero]
  congr 1
  funext t k
  congr 1
  omega

/-- **Loop rule.** What the body carries from `i` to `i + 1`, the loop carries from
`lo` to `hi`. -/
theorem forUp_rule {P : Int → σ → Prop} {lo hi : Int} {f : σ → Int → σ} {s : σ} (hle : lo ≤ hi)
    (h0 : P lo s) (hstep : ∀ i s, lo ≤ i → i < hi → P i s → P (i + 1) (f s i)) :
    P hi (forUp lo hi f s) := by
  have aux : ∀ n : Nat, lo + n ≤ hi →
      P (lo + n) ((List.range n).foldl (fun s (k : Nat) => f s (lo + k)) s) := by
    intro n
    induction n with
    | zero => intro _; simpa using h0
    | succ n ih =>
        intro hn
        have hi' : lo + (n : Int) < hi := by omega
        rw [List.range_succ, List.foldl_append]
        have hs := hstep (lo + n) _ (by omega) hi' (ih (by omega))
        rw [Int.add_assoc] at hs
        exact hs
  have hn : lo + ((hi - lo).toNat : Int) = hi := by omega
  have h := aux (hi - lo).toNat (by omega)
  rw [hn] at h
  exact h

/-- The same rule for a loop that counts down. -/
theorem forDown_rule {P : Int → σ → Prop} {lo hi : Int} {f : σ → Int → σ} {s : σ} (hle : lo ≤ hi)
    (h0 : P hi s) (hstep : ∀ i s, lo ≤ i → i < hi → P (i + 1) s → P i (f s i)) :
    P lo (forDown lo hi f s) := by
  have aux : ∀ n : Nat, lo ≤ hi - n →
      P (hi - n) ((List.range n).foldl (fun s (k : Nat) => f s (hi - 1 - k)) s) := by
    intro n
    induction n with
    | zero => intro _; simpa using h0
    | succ n ih =>
        intro hn
        rw [List.range_succ, List.foldl_append]
        have heq : hi - ((n + 1 : Nat) : Int) = hi - 1 - n := by omega
        have hprev := ih (by omega)
        rw [show hi - (n : Int) = hi - 1 - n + 1 by omega] at hprev
        rw [heq]
        exact hstep (hi - 1 - n) _ (by omega) (by omega) hprev
  have hn : hi - ((hi - lo).toNat : Int) = lo := by omega
  have h := aux (hi - lo).toNat (by omega)
  rw [hn] at h
  exact h

/-- What the body keeps between the bounds, the loop keeps, whatever its bounds. -/
theorem forUp_invariant {P : σ → Prop} {lo hi : Int} {f : σ → Int → σ} {s : σ} (h0 : P s)
    (hstep : ∀ i s, lo ≤ i → i < hi → P s → P (f s i)) : P (forUp lo hi f s) := by
  by_cases hle : lo ≤ hi
  · exact forUp_rule (P := fun _ => P) hle h0 hstep
  · rw [forUp_of_le (by omega)]
    exact h0

/-- The indices a loop goes through. -/
def upTo (lo hi : Int) : List Int := (List.range (hi - lo).toNat).map fun (k : Nat) => lo + k

@[simp] theorem mem_upTo {lo hi i : Int} : i ∈ upTo lo hi ↔ lo ≤ i ∧ i < hi := by
  simp only [upTo, List.mem_map, List.mem_range]
  constructor
  · rintro ⟨k, hk, rfl⟩
    omega
  · rintro ⟨hlo, hhi⟩
    exact ⟨(i - lo).toNat, by omega, by omega⟩

/-- A loop keeps what its body keeps, whatever its bounds. -/
theorem forUp_keeps {β : Type u} (p : σ → β) {f : σ → Int → σ} (hf : ∀ s i, p (f s i) = p s)
    (lo hi : Int) (s : σ) : p (forUp lo hi f s) = p s := by
  unfold forUp
  induction List.range (hi - lo).toNat generalizing s with
  | nil => rfl
  | cons k ks ih => exact (ih _).trans (hf s _)

theorem forDown_keeps {β : Type u} (p : σ → β) {f : σ → Int → σ} (hf : ∀ s i, p (f s i) = p s)
    (lo hi : Int) (s : σ) : p (forDown lo hi f s) = p s := by
  unfold forDown
  induction List.range (hi - lo).toNat generalizing s with
  | nil => rfl
  | cons k ks ih => exact (ih _).trans (hf s _)

/-! ### Reading a vector at a signed index -/

/-- The entry at `i`, or `d` outside. -/
def readAt (d : α) (v : List α) (i : Int) : α := if 0 ≤ i then v.getD i.toNat d else d

/-- Whether an unchecked access at `i` stays inside. -/
def InBounds (v : List α) (i : Int) : Prop := 0 ≤ i ∧ i < v.length

instance (v : List α) (i : Int) : Decidable (InBounds v i) := inferInstanceAs (Decidable (_ ∧ _))

theorem readAt_set {d : α} {v : List α} {i j : Int} (h : InBounds v i) (a : α) :
    readAt d (v.set i.toNat a) j = if j = i then a else readAt d v j := by
  obtain ⟨h0, hlt⟩ := h
  unfold readAt
  by_cases hj : 0 ≤ j
  · rw [if_pos hj, if_pos hj, List.getD_eq_getElem?_getD, List.getD_eq_getElem?_getD]
    by_cases hij : j = i
    · subst hij
      rw [List.getElem?_set_self (by omega)]
      simp
    · rw [List.getElem?_set_ne (by omega), if_neg hij]
  · rw [if_neg hj, if_neg hj, if_neg (by omega)]

theorem readAt_replicate {d a : α} {n : Nat} {i : Int} :
    readAt d (List.replicate n a) i = if 0 ≤ i ∧ i < n then a else d := by
  unfold readAt
  by_cases h0 : 0 ≤ i
  · by_cases hn : i < n
    · have : i.toNat < n := by omega
      simp [h0, hn, List.getD_eq_getElem?_getD, this]
    · have : ¬ i.toNat < n := by omega
      simp [h0, hn, List.getD_eq_getElem?_getD, this]
  · simp [h0]

section Segments

variable {d : α} {u v : List α} {n : Nat} {i : Int}

theorem readAt_append_left (h : i < u.length) : readAt d (u ++ v) i = readAt d u i := by
  unfold readAt
  by_cases h0 : 0 ≤ i
  · rw [if_pos h0, if_pos h0, List.getD_eq_getElem?_getD, List.getD_eq_getElem?_getD,
      List.getElem?_append_left (by omega)]
  · rw [if_neg h0, if_neg h0]

theorem readAt_append_right (h : u.length ≤ i) :
    readAt d (u ++ v) i = readAt d v (i - u.length) := by
  have hsub : (i - u.length).toNat = i.toNat - u.length := by omega
  unfold readAt
  rw [if_pos (by omega), if_pos (by omega), hsub, List.getD_eq_getElem?_getD,
    List.getD_eq_getElem?_getD, List.getElem?_append_right (by omega)]

theorem readAt_take (h : i < n) : readAt d (v.take n) i = readAt d v i := by
  unfold readAt
  by_cases h0 : 0 ≤ i
  · rw [if_pos h0, if_pos h0, List.getD_eq_getElem?_getD, List.getD_eq_getElem?_getD,
      List.getElem?_take_of_lt (by omega)]
  · rw [if_neg h0, if_neg h0]

theorem readAt_drop (h0 : 0 ≤ i) : readAt d (v.drop n) i = readAt d v (i + n) := by
  have hadd : (i + n).toNat = n + i.toNat := by omega
  unfold readAt
  rw [if_pos h0, if_pos (by omega), hadd, List.getD_eq_getElem?_getD, List.getD_eq_getElem?_getD,
    List.getElem?_drop]

end Segments

/-! ### `std::fill` and `std::rotate` -/

/-- `std::fill(begin + first, begin + last, a)`. -/
def fillRange (v : List α) (first last : Int) (a : α) : List α :=
  v.take first.toNat ++ List.replicate (last - first).toNat a ++ v.drop last.toNat

/-- `std::rotate(begin + first, begin + cut, begin + last)`. -/
def rotateRange (v : List α) (first cut last : Int) : List α :=
  v.take first.toNat ++ (v.drop cut.toNat).take (last - cut).toNat ++
    (v.drop first.toNat).take (cut - first).toNat ++ v.drop last.toNat

section Ranges

variable {d a : α} {v : List α} {first cut last i : Int}

theorem length_before (h0 : 0 ≤ first) (h1 : first ≤ v.length) :
    ((v.take first.toNat).length : Int) = first := by
  rw [List.length_take]
  omega

theorem length_slice (h0 : 0 ≤ first) (h1 : first ≤ last) (h2 : last ≤ v.length) :
    (((v.drop first.toNat).take (last - first).toNat).length : Int) = last - first := by
  rw [List.length_take, List.length_drop]
  omega

theorem length_fillRange (h0 : 0 ≤ first) (h1 : first ≤ last) (h2 : last ≤ v.length) :
    (fillRange v first last a).length = v.length := by
  simp only [fillRange, List.length_append, List.length_take, List.length_replicate,
    List.length_drop]
  omega

theorem readAt_fillRange (h0 : 0 ≤ first) (h1 : first ≤ last) (h2 : last ≤ v.length) :
    readAt d (fillRange v first last a) i = if first ≤ i ∧ i < last then a else readAt d v i := by
  have hbefore := length_before (v := v) h0 (by omega)
  have hfilled : ((List.replicate (last - first).toNat a).length : Int) = last - first := by
    rw [List.length_replicate]
    omega
  rw [fillRange, List.append_assoc]
  rcases Int.lt_or_le i first with hlt | hge
  · rw [readAt_append_left (by omega), readAt_take (by omega), if_neg (by omega)]
  rw [readAt_append_right (by omega), hbefore]
  rcases Int.lt_or_le i last with hl | hg
  · rw [readAt_append_left (by omega), readAt_replicate, if_pos (by omega), if_pos ⟨hge, hl⟩]
  · rw [readAt_append_right (by omega), hfilled, readAt_drop (by omega), if_neg (by omega)]
    congr 1
    omega

theorem length_rotateRange (h0 : 0 ≤ first) (h1 : first ≤ cut) (h2 : cut ≤ last)
    (h3 : last ≤ v.length) : (rotateRange v first cut last).length = v.length := by
  have hbefore := length_before (v := v) h0 (by omega)
  have hlater := length_slice (v := v) (h0.trans h1) h2 h3
  have hearlier := length_slice (v := v) h0 h1 (h2.trans h3)
  rw [rotateRange, List.length_append, List.length_append, List.length_append]
  have hafter : ((v.drop last.toNat).length : Int) = v.length - last := by
    rw [List.length_drop]
    omega
  omega

/-- The entries from `cut` on come first, then the ones before it. -/
theorem readAt_rotateRange (h0 : 0 ≤ first) (h1 : first ≤ cut) (h2 : cut ≤ last)
    (h3 : last ≤ v.length) :
    readAt d (rotateRange v first cut last) i =
      if first ≤ i ∧ i < first + (last - cut) then readAt d v (i + (cut - first))
      else if first + (last - cut) ≤ i ∧ i < last then readAt d v (i - (last - cut))
      else readAt d v i := by
  have hbefore := length_before (v := v) h0 (by omega)
  have hlater := length_slice (v := v) (h0.trans h1) h2 h3
  have hearlier := length_slice (v := v) h0 h1 (h2.trans h3)
  rw [rotateRange, List.append_assoc, List.append_assoc]
  rcases Int.lt_or_le i first with hlt | hge
  · rw [readAt_append_left (by omega), readAt_take (by omega), if_neg (by omega),
      if_neg (by omega)]
  rw [readAt_append_right (by omega), hbefore]
  rcases Int.lt_or_le i (first + (last - cut)) with hl | hg
  · rw [readAt_append_left (by omega), readAt_take (by omega), readAt_drop (by omega),
      if_pos ⟨hge, hl⟩]
    congr 1
    omega
  rw [readAt_append_right (by omega), hlater, if_neg (by omega)]
  rcases Int.lt_or_le i last with hl' | hg'
  · rw [readAt_append_left (by omega), readAt_take (by omega), readAt_drop (by omega),
      if_pos ⟨hg, hl'⟩]
    congr 1
    omega
  · rw [readAt_append_right (by omega), hearlier, readAt_drop (by omega), if_neg (by omega)]
    congr 1
    omega

end Ranges

/-! ### Row-major indices -/

section Index

variable {w h x y x' y' k : Int}

theorem rowMajor_nonneg (hw : 0 ≤ w) (hx : 0 ≤ x) (hy : 0 ≤ y) : 0 ≤ y * w + x :=
  Int.add_nonneg (Int.mul_nonneg hy hw) hx

theorem rowMajor_lt (hw : 0 ≤ w) (hx : x < w) (hy : y < h) : y * w + x < w * h := by
  nlinarith [Int.mul_le_mul_of_nonneg_right (show y + 1 ≤ h by omega) hw]

/-- An index lies below row `k` exactly when its own row does. -/
theorem rowMajor_lt_row (hx0 : 0 ≤ x) (hx : x < w) : y * w + x < k * w ↔ y < k := by
  constructor
  · intro hlt
    by_contra hge
    have := Int.mul_le_mul_of_nonneg_right (show k ≤ y by omega) (show (0 : Int) ≤ w by omega)
    omega
  · intro hlt
    have := Int.mul_le_mul_of_nonneg_right (show y + 1 ≤ k by omega) (show (0 : Int) ≤ w by omega)
    linarith [Int.add_mul y 1 w]

theorem rowMajor_row_le (hx0 : 0 ≤ x) (hx : x < w) : k * w ≤ y * w + x ↔ k ≤ y := by
  have := rowMajor_lt_row (y := y) (k := k) hx0 hx
  omega

theorem rowMajor_inj (hx0 : 0 ≤ x) (hx : x < w) (hx0' : 0 ≤ x') (hx' : x' < w) :
    y * w + x = y' * w + x' ↔ x = x' ∧ y = y' := by
  constructor
  · intro he
    have h1 := (rowMajor_row_le (y := y) (k := y') hx0 hx).1 (by omega)
    have h2 := (rowMajor_row_le (y := y') (k := y) hx0' hx').1 (by omega)
    have hy : y = y' := by omega
    subst hy
    exact ⟨by omega, rfl⟩
  · rintro ⟨rfl, rfl⟩
    rfl

end Index

end Sshos.Lib
