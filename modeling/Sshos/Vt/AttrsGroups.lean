import Mathlib.Data.List.TakeWhile
import Sshos.Vt.Attrs

/-!
# Sshos.Vt.AttrsGroups

**SGR by groups.** The loop advances by turns, and each turn does what its own parameters do when
they stand alone. A turn starts at a code, never at a sub-parameter, as long as the colours written
flat end between two groups: nothing else holds them there.
-/

namespace Sshos.Vt

open Sshos.Render

/-! ### Turns of the loop -/

/-- The code in front of some parameters. -/
def codeOf (p : Params) : Int := if valueAt p 0 < 0 then 0 else valueAt p 0

/-- How many parameters one turn consumes. -/
def turnSize (p : Params) : Nat :=
  if (codeOf p = 38 ∨ codeOf p = 48 ∨ codeOf p = 58) ∧ ¬ groupEnd p 0 > 1 then flatExtent p 1
  else groupEnd p 0

/-- What one turn does. -/
def applyTurn (p : Params) (style : Style) : Style :=
  if codeOf p = 38 ∨ codeOf p = 48 ∨ codeOf p = 58 then
    applyColor (codeOf p) (readExtended p 1 (turnSize p)) style
  else applyCode p 0 (turnSize p) (codeOf p) style

/-- The parameters of a colour written flat, its mode among them. -/
def flatArgs (mode : Int) : Nat := if mode = 2 then 4 else if mode = 5 then 2 else 1

theorem flatArgs_pos (mode : Int) : 0 < flatArgs mode := by
  unfold flatArgs
  repeat' split
  all_goals omega

theorem flatExtent_eq (p : Params) (first : Nat) :
    flatExtent p first =
      if first ≥ p.length then first else min (first + flatArgs (valueAt p first)) p.length := by
  have hargs : ∀ mode : Int, first + flatArgs mode =
      if mode = 2 then first + 4 else if mode = 5 then first + 2 else first + 1 := by
    intro mode
    unfold flatArgs
    split
    · rfl
    · split <;> rfl
  rw [hargs]
  rfl

theorem turnSize_pos (p : Params) : 0 < turnSize p := by
  have hargs := flatArgs_pos (valueAt p 1)
  unfold turnSize
  split
  · rw [flatExtent_eq]
    split <;> omega
  · unfold groupEnd
    omega

/-- The parameters, turn after turn. -/
def turns (p : Params) : List Params :=
  if p = [] then [] else p.take (turnSize p) :: turns (p.drop (turnSize p))
termination_by p.length
decreasing_by
  have hpos := turnSize_pos p
  have hlen := List.length_pos_iff.2 ‹p ≠ []›
  rw [List.length_drop]
  omega

theorem turns_of_ne_nil {p : Params} (h : p ≠ []) :
    turns p = p.take (turnSize p) :: turns (p.drop (turnSize p)) := by
  rw [turns, if_neg h]

theorem turns_nil : turns [] = [] := by rw [turns, if_pos rfl]

/-! ### A turn reads from where it starts -/

section Shift

variable (p : Params) (i : Nat)

theorem valueAt_drop (k : Nat) : valueAt p (i + k) = valueAt (p.drop i) k := by
  rw [valueAt, valueAt, List.getD_eq_getElem?_getD, List.getD_eq_getElem?_getD, List.getElem?_drop]

theorem groupEnd_drop : groupEnd p i = i + groupEnd (p.drop i) 0 := by
  unfold groupEnd
  rw [List.drop_drop, Nat.zero_add]
  omega

theorem flatExtent_drop : flatExtent p (i + 1) = i + flatExtent (p.drop i) 1 := by
  rw [flatExtent_eq, flatExtent_eq, ← valueAt_drop, List.length_drop]
  split <;> split <;> omega

theorem readExtended_drop {last : Nat} (hlast : 0 < last) :
    readExtended p (i + 1) (i + last) = readExtended (p.drop i) 1 last := by
  unfold readExtended
  have hlast1 : i + last - 1 = i + (last - 1) := by omega
  have hargs : i + last - (i + 1) - 1 = last - 1 - 1 := by omega
  have hge : i + 1 ≥ i + last ↔ 1 ≥ last := by omega
  by_cases hthree : 3 ≤ last
  · have hlast2 : i + last - 2 = i + (last - 2) := by omega
    have hlast3 : i + last - 3 = i + (last - 3) := by omega
    simp only [hlast1, hlast2, hlast3, hargs, hge, valueAt_drop]
  · -- with too few arguments nothing is read of them
    have hfew : last - 1 - 1 < 3 := by omega
    simp only [hlast1, hargs, hge, valueAt_drop, hfew, true_or, if_true]

theorem applyCode_congr {p q : Params} {i j last last' : Nat}
    (h : (last > i + 1 ∧ paramOr p (i + 1) 1 = 0) ↔ (last' > j + 1 ∧ paramOr q (j + 1) 1 = 0))
    (code : Int) (style : Style) : applyCode p i last code style = applyCode q j last' code style := by
  simp only [applyCode, h]

theorem applyCode_drop (last : Nat) (code : Int) (style : Style) :
    applyCode p i (i + last) code style = applyCode (p.drop i) 0 last code style := by
  have hsub : paramOr p (i + 1) 1 = paramOr (p.drop i) (0 + 1) 1 := by
    unfold paramOr
    rw [List.getElem?_drop, Nat.zero_add]
  have hmore : i + last > i + 1 ↔ last > 0 + 1 := by omega
  exact applyCode_congr (by rw [hsub, hmore]) code style

/-- One turn of the loop. -/
theorem applySgrFrom_turn {fuel : Nat} {style : Style} (hi : i < p.length) :
    applySgrFrom p (fuel + 1) i style =
      applySgrFrom p fuel (i + turnSize (p.drop i)) (applyTurn (p.drop i) style) := by
  have hcode : (if valueAt p i < 0 then 0 else valueAt p i) = codeOf (p.drop i) := by
    have h0 := valueAt_drop p i 0
    rw [Nat.add_zero] at h0
    rw [h0, codeOf]
  have hpos := turnSize_pos (p.drop i)
  rw [applySgrFrom, if_neg (Nat.not_le.2 hi)]
  simp only [hcode]
  unfold applyTurn
  by_cases hcolour : codeOf (p.drop i) = 38 ∨ codeOf (p.drop i) = 48 ∨ codeOf (p.drop i) = 58
  · have hsize : (if groupEnd p i > i + 1 then groupEnd p i else flatExtent p (i + 1)) =
        i + turnSize (p.drop i) := by
      have hgroup : groupEnd p i > i + 1 ↔ groupEnd (p.drop i) 0 > 1 := by
        rw [groupEnd_drop]
        omega
      simp only [turnSize, hcolour, true_and, hgroup, ite_not]
      split
      · exact groupEnd_drop p i
      · exact flatExtent_drop p i
    rw [if_pos hcolour, if_pos hcolour, hsize, if_pos (by omega), readExtended_drop p i hpos]
  · have hsize : groupEnd p i = i + turnSize (p.drop i) := by
      rw [turnSize, if_neg fun h => hcolour h.1, groupEnd_drop]
    rw [if_neg hcolour, if_neg hcolour, hsize, applyCode_drop]

end Shift

/-! ### A turn reads its own parameters -/

section Cut

variable {p : Params}

theorem turnSize_le (h : p ≠ []) : turnSize p ≤ p.length := by
  have hlen := List.length_pos_iff.2 h
  unfold turnSize
  split
  · rw [flatExtent_eq]
    split <;> omega
  · have hsubs := (List.takeWhile_prefix (·.sub) (l := p.drop (0 + 1))).length_le
    rw [List.length_drop] at hsubs
    unfold groupEnd
    omega

theorem valueAt_take {n k : Nat} (h : k < n) : valueAt (p.take n) k = valueAt p k := by
  rw [valueAt, valueAt, List.getD_eq_getElem?_getD, List.getD_eq_getElem?_getD,
    List.getElem?_take_of_lt h]

theorem codeOf_take {n : Nat} (h : 0 < n) : codeOf (p.take n) = codeOf p := by
  rw [codeOf, codeOf, valueAt_take h]

/-- Sub-parameters that are cut off are no more. -/
theorem groupEnd_take (n : Nat) : groupEnd (p.take n) 0 ≤ groupEnd p 0 := by
  unfold groupEnd
  rw [List.drop_take, ← List.take_takeWhile, List.length_take]
  omega

theorem groupEnd_take_self : groupEnd (p.take (groupEnd p 0)) 0 = groupEnd p 0 := by
  have hsubs : (p.take (groupEnd p 0)).drop (0 + 1) = (p.drop (0 + 1)).takeWhile (·.sub) := by
    rw [List.drop_take, groupEnd, Nat.zero_add, Nat.add_sub_cancel_left]
    exact (List.prefix_iff_eq_take.1 (List.takeWhile_prefix _)).symm
  rw [groupEnd, hsubs, List.takeWhile_idem, groupEnd]

/-- A turn is one turn when it stands alone. -/
theorem turnSize_take (h : p ≠ []) : turnSize (p.take (turnSize p)) = turnSize p := by
  have hpos := turnSize_pos p
  have hlen : (p.take (turnSize p)).length = turnSize p := List.length_take_of_le (turnSize_le h)
  rw [turnSize, codeOf_take hpos]
  by_cases hflat : (codeOf p = 38 ∨ codeOf p = 48 ∨ codeOf p = 58) ∧ ¬ groupEnd p 0 > 1
  · have hsize : turnSize p = flatExtent p 1 := if_pos hflat
    have hgroup := groupEnd_take (p := p) (turnSize p)
    have hargs := flatArgs_pos (valueAt p 1)
    rw [if_pos ⟨hflat.1, by omega⟩, flatExtent_eq, hlen]
    rw [flatExtent_eq] at hsize
    split
    · omega
    next hmore =>
      rw [valueAt_take (by omega)]
      split at hsize <;> omega
  · have hsize : turnSize p = groupEnd p 0 := if_neg hflat
    rw [hsize, groupEnd_take_self, if_neg hflat]

theorem readExtended_take (n : Nat) : readExtended (p.take n) 1 n = readExtended p 1 n := by
  unfold readExtended
  split
  · rfl
  next hn =>
    simp only [valueAt_take (p := p) (show 1 < n by omega), valueAt_take (p := p) (show n - 1 < n by omega),
      valueAt_take (p := p) (show n - 2 < n by omega), valueAt_take (p := p) (show n - 3 < n by omega)]

theorem applyTurn_take (h : p ≠ []) (style : Style) :
    applyTurn (p.take (turnSize p)) style = applyTurn p style := by
  rw [applyTurn, applyTurn, codeOf_take (turnSize_pos p), turnSize_take h, readExtended_take]
  split
  · rfl
  · refine applyCode_congr (and_congr_right fun hmore => ?_) _ _
    unfold paramOr
    rw [List.getElem?_take_of_lt hmore]

theorem turns_take (h : p ≠ []) : turns (p.take (turnSize p)) = [p.take (turnSize p)] := by
  have hpos := turnSize_pos p
  have hne : p.take (turnSize p) ≠ [] := by
    have hlen : (p.take (turnSize p)).length = turnSize p := List.length_take_of_le (turnSize_le h)
    exact List.length_pos_iff.1 (by omega)
  rw [turns_of_ne_nil hne, turnSize_take h, List.take_take, Nat.min_self, List.drop_take_self, turns_nil]

theorem mem_turns {t : Params} (ht : t ∈ turns p) : ∃ q, q ≠ [] ∧ t = q.take (turnSize q) := by
  induction p using turns.induct with
  | case1 => simp [turns_nil] at ht
  | case2 p hne ih =>
      rw [turns_of_ne_nil hne] at ht
      obtain rfl | ht := List.mem_cons.1 ht
      · exact ⟨p, hne, rfl⟩
      · exact ih ht

end Cut

theorem applySgrFrom_turns (p : Params) {fuel : Nat} :
    ∀ {i : Nat} {style : Style}, p.length - i ≤ fuel →
      applySgrFrom p fuel i style =
        (turns (p.drop i)).foldl (fun style t => applyTurn t style) style := by
  induction fuel with
  | zero =>
      intro i style hfuel
      rw [List.drop_eq_nil_of_le (by omega), turns_nil]
      rfl
  | succ fuel ih =>
      intro i style hfuel
      by_cases hi : i < p.length
      · have hne : p.drop i ≠ [] := by
          rw [ne_eq, List.drop_eq_nil_iff]
          omega
        have hpos := turnSize_pos (p.drop i)
        rw [applySgrFrom_turn p i hi, ih (by omega), turns_of_ne_nil hne, List.foldl_cons,
          applyTurn_take hne, List.drop_drop]
      · rw [List.drop_eq_nil_of_le (by omega), turns_nil, applySgrFrom, if_pos (by omega)]
        rfl

theorem applySgr_foldl {p : Params} (h : p ≠ []) (style : Style) :
    applySgr p style = (turns p).foldl (fun style t => applyTurn t style) style := by
  rw [applySgr, if_neg h, applySgrFrom_turns p (by omega), List.drop_zero]

/-- **The loop is its turns**, each doing what it does when it stands alone. -/
theorem applySgr_turns {p : Params} (h : p ≠ []) (style : Style) :
    applySgr p style = (turns p).foldl (fun style t => applySgr t style) style := by
  rw [applySgr_foldl h]
  refine List.foldl_ext _ _ _ fun style t ht => ?_
  obtain ⟨q, hq, rfl⟩ := mem_turns ht
  have hne : q.take (turnSize q) ≠ [] := by
    have hpos := turnSize_pos q
    simp only [ne_eq, List.take_eq_nil_iff, hq, or_false]
    omega
  rw [applySgr_foldl hne, turns_take hq]
  rfl

/-! ### Codes -/

/-- The parameter announces a colour. -/
def IsColour (c : Param) : Prop := c.value = 38 ∨ c.value = 48 ∨ c.value = 58

/-- The parameters do not begin with a sub-parameter. -/
def StartsCode (p : Params) : Prop := ∀ c ∈ p.head?, c.sub = false

/-- Whole codes, one after another: a code with its sub-parameters, or a colour written flat. -/
inductive Codes : Params → Prop
  | nil : Codes []
  | group {c : Param} {subs rest : Params} (hc : c.sub = false) (hsubs : ∀ s ∈ subs, s.sub)
      (hkind : IsColour c → subs ≠ []) (hrest : Codes rest) : Codes (c :: (subs ++ rest))
  | flat {c m : Param} {args rest : Params} (hc : c.sub = false) (hcolour : IsColour c)
      (hm : m.sub = false) (hlen : args.length + 1 = flatArgs m.value) (hrest : Codes rest) :
      Codes (c :: m :: (args ++ rest))

/-- A colour written flat that the end of the parameters cuts short. -/
def CutShort (p : Params) : Prop :=
  ∃ c args, p = c :: args ∧ c.sub = false ∧ IsColour c ∧ StartsCode args ∧
    args.length < flatArgs (valueAt args 0)

theorem startsCode_nil : StartsCode [] := nofun

theorem startsCode_cons {c : Param} {p : Params} : StartsCode (c :: p) ↔ c.sub = false := by
  simp [StartsCode]

theorem StartsCode.append {p q : Params} (hp : StartsCode p) (hq : StartsCode q) :
    StartsCode (p ++ q) := by
  cases p with
  | nil => exact hq
  | cons c p => exact hp

theorem Codes.startsCode {p : Params} (h : Codes p) : StartsCode p := by
  cases h with
  | nil => exact startsCode_nil
  | group hc _ _ _ => exact startsCode_cons.2 hc
  | flat hc _ _ _ _ => exact startsCode_cons.2 hc

theorem StartsCode.takeWhile {p : Params} (h : StartsCode p) : p.takeWhile (·.sub) = [] := by
  cases p with
  | nil => rfl
  | cons c p => exact List.takeWhile_cons_of_neg (by simp [startsCode_cons.1 h])

theorem startsCode_dropWhile (p : Params) : StartsCode (p.dropWhile (·.sub)) := by
  intro c hc
  have hnot := List.head?_dropWhile_not (·.sub) p
  rw [hc] at hnot
  exact hnot

theorem codeOf_colour_iff (c : Param) (p : Params) :
    (codeOf (c :: p) = 38 ∨ codeOf (c :: p) = 48 ∨ codeOf (c :: p) = 58) ↔ IsColour c := by
  have hcode : codeOf (c :: p) = if c.value < 0 then 0 else c.value := rfl
  rw [hcode, IsColour]
  split <;> omega

section Turns

variable {c m : Param} {subs args rest : Params}

theorem groupEnd_of_startsCode (h : StartsCode rest) : groupEnd (c :: rest) 0 = 1 := by
  rw [groupEnd, Nat.zero_add, List.drop_one, List.tail_cons, h.takeWhile]
  rfl

theorem turnSize_flat (hcolour : IsColour c) (h : StartsCode rest) :
    turnSize (c :: rest) = flatExtent (c :: rest) 1 := by
  refine if_pos ⟨(codeOf_colour_iff c rest).2 hcolour, ?_⟩
  rw [groupEnd_of_startsCode h]
  exact Nat.lt_irrefl 1

theorem turnSize_group (h : IsColour c → groupEnd (c :: rest) 0 > 1) :
    turnSize (c :: rest) = groupEnd (c :: rest) 0 :=
  if_neg fun hflat => hflat.2 (h ((codeOf_colour_iff c rest).1 hflat.1))

theorem turns_group (hsubs : ∀ s ∈ subs, s.sub) (hkind : IsColour c → subs ≠ [])
    (hrest : StartsCode rest) : turns (c :: (subs ++ rest)) = (c :: subs) :: turns rest := by
  have hgroup : groupEnd (c :: (subs ++ rest)) 0 = subs.length + 1 := by
    rw [groupEnd, Nat.zero_add, List.drop_one, List.tail_cons, List.takeWhile_append_of_pos hsubs,
      hrest.takeWhile, List.append_nil]
    omega
  have hsize : turnSize (c :: (subs ++ rest)) = subs.length + 1 := by
    rw [turnSize_group, hgroup]
    intro hcolour
    have hlen := List.length_pos_iff.2 (hkind hcolour)
    omega
  rw [turns_of_ne_nil (List.cons_ne_nil _ _), hsize, List.take_succ_cons, List.drop_succ_cons,
    List.take_left, List.drop_left]

theorem turns_flat (hcolour : IsColour c) (hm : m.sub = false)
    (hlen : args.length + 1 = flatArgs m.value) :
    turns (c :: m :: (args ++ rest)) = (c :: m :: args) :: turns rest := by
  have hsize : turnSize (c :: m :: (args ++ rest)) = args.length + 2 := by
    have hextent : flatExtent (c :: m :: (args ++ rest)) 1 = args.length + 2 := by
      have hmode : valueAt (c :: m :: (args ++ rest)) 1 = m.value := rfl
      rw [flatExtent_eq, hmode, ← hlen]
      simp only [List.length_cons, List.length_append]
      split <;> omega
    rw [turnSize_flat hcolour (startsCode_cons.2 hm), hextent]
  rw [turns_of_ne_nil (List.cons_ne_nil _ _), hsize, List.take_succ_cons, List.take_succ_cons,
    List.drop_succ_cons, List.drop_succ_cons, List.take_left, List.drop_left]

theorem CutShort.turns {p : Params} (h : CutShort p) : turns p = [p] := by
  obtain ⟨c, args, rfl, -, hcolour, hstart, hlen⟩ := h
  have hsize : turnSize (c :: args) = args.length + 1 := by
    have hextent : flatExtent (c :: args) 1 = args.length + 1 := by
      have hmode : valueAt (c :: args) 1 = valueAt args 0 := rfl
      rw [flatExtent_eq, hmode, List.length_cons]
      split <;> omega
    rw [turnSize_flat hcolour hstart, hextent]
  rw [turns_of_ne_nil (List.cons_ne_nil _ _), hsize, List.take_succ_cons, List.drop_succ_cons,
    List.take_length, List.drop_length, turns_nil]

/-- **Whole codes are whole turns**, whatever code follows. -/
theorem Codes.turns {p : Params} (h : Codes p) :
    (∀ t ∈ turns p, StartsCode t) ∧ ∀ q, StartsCode q → turns (p ++ q) = turns p ++ turns q := by
  induction h with
  | nil => exact ⟨by simp [turns_nil], fun q _ => by rw [turns_nil]; rfl⟩
  | @group c subs rest hc hsubs hkind hrest ih =>
      obtain ⟨hstarts, happend⟩ := ih
      rw [turns_group hsubs hkind hrest.startsCode]
      refine ⟨List.forall_mem_cons.2 ⟨startsCode_cons.2 hc, hstarts⟩, fun q hq => ?_⟩
      rw [List.cons_append, List.append_assoc,
        turns_group hsubs hkind (hrest.startsCode.append hq), happend q hq]
      rfl
  | @flat c m args rest hc hcolour hm hlen hrest ih =>
      obtain ⟨hstarts, happend⟩ := ih
      rw [turns_flat hcolour hm hlen]
      refine ⟨List.forall_mem_cons.2 ⟨startsCode_cons.2 hc, hstarts⟩, fun q hq => ?_⟩
      rw [List.cons_append, List.cons_append, List.append_assoc, turns_flat hcolour hm hlen,
        happend q hq]
      rfl

/-- A code is a colour that is cut short, a colour and its arguments, or has its own
sub-parameters. -/
theorem code_cases (hc : c.sub = false) (rest : Params) :
    CutShort (c :: rest) ∨
    (∃ m args rest', rest = m :: (args ++ rest') ∧ IsColour c ∧ m.sub = false ∧
      args.length + 1 = flatArgs m.value) ∨
    ∃ subs rest', rest = subs ++ rest' ∧ (∀ s ∈ subs, s.sub) ∧ (IsColour c → subs ≠ []) ∧
      StartsCode rest' := by
  by_cases hflat : IsColour c ∧ StartsCode rest
  · obtain ⟨hcolour, hstart⟩ := hflat
    by_cases hcut : rest.length < flatArgs (valueAt rest 0)
    · exact .inl ⟨c, rest, rfl, hc, hcolour, hstart, hcut⟩
    obtain ⟨m, more, rfl⟩ := List.exists_cons_of_length_pos
      (Nat.lt_of_lt_of_le (flatArgs_pos _) (Nat.not_lt.1 hcut))
    have hmode : valueAt (m :: more) 0 = m.value := rfl
    rw [hmode, List.length_cons] at hcut
    have hargs := flatArgs_pos m.value
    refine .inr (.inl ⟨m, more.take (flatArgs m.value - 1), more.drop (flatArgs m.value - 1), ?_,
      hcolour, startsCode_cons.1 hstart, ?_⟩)
    · rw [List.take_append_drop]
    · rw [List.length_take]
      omega
  · refine .inr (.inr ⟨rest.takeWhile (·.sub), rest.dropWhile (·.sub),
      List.takeWhile_append_dropWhile.symm, fun _ => List.mem_takeWhile_imp, ?_, startsCode_dropWhile rest⟩)
    intro hcolour hnil
    have hwhole : rest.dropWhile (·.sub) = rest := by
      have happend := @List.takeWhile_append_dropWhile _ (·.sub) rest
      rwa [hnil, List.nil_append] at happend
    exact hflat ⟨hcolour, hwhole ▸ startsCode_dropWhile rest⟩

/-- The first turn starts at the first parameter. -/
theorem sub_of_turns (h : ∀ t ∈ turns (c :: rest), StartsCode t) : c.sub = false := by
  have hfirst := h _ (by rw [turns_of_ne_nil (List.cons_ne_nil _ _)]; exact List.mem_cons_self)
  obtain ⟨n, hn⟩ := Nat.exists_eq_succ_of_ne_zero (turnSize_pos (c :: rest)).ne'
  rwa [hn, List.take_succ_cons, startsCode_cons] at hfirst

end Turns

/-- When every turn starts at a code. -/
theorem codes_of_turns (p : Params) (h : ∀ t ∈ turns p, StartsCode t) :
    ∃ codes tail, p = codes ++ tail ∧ Codes codes ∧ (tail = [] ∨ CutShort tail) := by
  induction hsize : p.length using Nat.strongRecOn generalizing p with
  | ind n ih =>
      subst hsize
      cases p with
      | nil => exact ⟨[], [], rfl, .nil, .inl rfl⟩
      | cons c rest =>
          have hc := sub_of_turns h
          rcases code_cases hc rest with
            hcut | ⟨m, args, rest, rfl, hcolour, hm, hlen⟩ | ⟨subs, rest, rfl, hsubs, hkind, hrest⟩
          · exact ⟨[], c :: rest, rfl, .nil, .inr hcut⟩
          · rw [turns_flat hcolour hm hlen] at h
            obtain ⟨codes, tail, rfl, hcodes, htail⟩ := ih rest.length
              (by simp only [List.length_cons, List.length_append]; omega) rest
              (List.forall_mem_cons.1 h).2 rfl
            exact ⟨c :: m :: (args ++ codes), tail, by simp, .flat hc hcolour hm hlen hcodes, htail⟩
          · rw [turns_group hsubs hkind hrest] at h
            obtain ⟨codes, tail, rfl, hcodes, htail⟩ := ih rest.length
              (by simp only [List.length_cons, List.length_append]; omega) rest
              (List.forall_mem_cons.1 h).2 rfl
            exact ⟨c :: (subs ++ codes), tail, by simp, .group hc hsubs hkind hcodes, htail⟩

/-- Every turn starts at a code exactly when the parameters are whole codes, but perhaps for a
last colour. -/
theorem startsCode_turns_iff (p : Params) :
    (∀ t ∈ turns p, StartsCode t) ↔
      ∃ codes tail, p = codes ++ tail ∧ Codes codes ∧ (tail = [] ∨ CutShort tail) := by
  refine ⟨codes_of_turns p, ?_⟩
  rintro ⟨codes, tail, rfl, hcodes, rfl | hcut⟩
  · rw [List.append_nil]
    exact hcodes.turns.1
  · obtain ⟨c, args, htail, hc, -⟩ := id hcut
    have hstart : StartsCode tail := by
      rw [htail]
      exact startsCode_cons.2 hc
    rw [hcodes.turns.2 tail hstart, hcut.turns]
    exact List.forall_mem_append.2 ⟨hcodes.turns.1, List.forall_mem_singleton.2 hstart⟩

/-! ### The two notations of a colour -/

/-- A colour written with semicolons. -/
def flatColour (code : Int) (args : List Int) : Params :=
  { value := code } :: args.map fun v => { value := v }

/-- A colour written with colons. -/
def colonColour (code : Int) (args : List Int) : Params :=
  { value := code } :: args.map fun v => { value := v, sub := true }

theorem codes_flatColour {code : Int} (hcode : code = 38 ∨ code = 48 ∨ code = 58) {mode : Int}
    {args : List Int} (hlen : args.length + 1 = flatArgs mode) :
    Codes (flatColour code (mode :: args)) := by
  have h := @Codes.flat { value := code } { value := mode } (args.map fun v => { value := v }) []
    rfl hcode rfl (by simpa using hlen) .nil
  rwa [List.append_nil] at h

theorem codes_colonColour (code mode : Int) (args : List Int) :
    Codes (colonColour code (mode :: args)) := by
  have h := @Codes.group { value := code }
    ((mode :: args).map fun v => { value := v, sub := true }) [] rfl (by simp) (by simp) .nil
  rwa [List.append_nil] at h

/-- Among other codes, a code can be exchanged for one that does the same alone. -/
theorem applySgr_exchange {pre post x y : Params} (hpre : Codes pre) (hpost : StartsCode post)
    (hx : Codes x) (hy : Codes y) (hxne : x ≠ []) (hyne : y ≠ [])
    (hsame : ∀ style, applySgr x style = applySgr y style) (style : Style) :
    applySgr (pre ++ x ++ post) style = applySgr (pre ++ y ++ post) style := by
  have hsplit : ∀ {z : Params}, Codes z → z ≠ [] → applySgr (pre ++ z ++ post) style =
      (turns post).foldl (fun style t => applyTurn t style)
        (applySgr z ((turns pre).foldl (fun style t => applyTurn t style) style)) := by
    intro z hz hne
    rw [applySgr_foldl (by simp [hne]), List.append_assoc,
      hpre.turns.2 _ (hz.startsCode.append hpost), hz.turns.2 _ hpost, List.foldl_append,
      List.foldl_append, ← applySgr_foldl hne]
  rw [hsplit hx hxne, hsplit hy hyne, hsame]

/-- The indexed colour reads alike in its two notations. -/
theorem applySgr_indexed_notations {code : Int} (hcode : code = 38 ∨ code = 48 ∨ code = 58) (n : Int)
    (style : Style) :
    applySgr (flatColour code [5, n]) style = applySgr (colonColour code [5, n]) style := by
  obtain rfl | rfl | rfl := hcode <;>
    simp [applySgr, applySgrFrom, flatColour, colonColour, groupEnd, flatExtent, readExtended, valueAt]

/-- And so does a colour of three components, with an empty colour space or without one. -/
theorem applySgr_rgb_notations {code : Int} (hcode : code = 38 ∨ code = 48 ∨ code = 58)
    (r g b : Int) (style : Style) :
    applySgr (flatColour code [2, r, g, b]) style = applySgr (colonColour code [2, -1, r, g, b]) style ∧
      applySgr (flatColour code [2, r, g, b]) style = applySgr (colonColour code [2, r, g, b]) style := by
  obtain rfl | rfl | rfl := hcode <;>
    simp [applySgr, applySgrFrom, flatColour, colonColour, groupEnd, flatExtent, readExtended, valueAt]

/-- **Groups are never torn** exactly when the parameters are whole codes, but perhaps for a last
colour that is cut short. Whatever they are, the loop is its turns, each doing what it does alone;
and among whole codes a colour reads the same with semicolons and with colons. -/
theorem groups_whole_iff (p : Params) :
    ((∀ t ∈ turns p, StartsCode t) ↔
      ∃ codes tail, p = codes ++ tail ∧ Codes codes ∧ (tail = [] ∨ CutShort tail)) ∧
    (p ≠ [] → ∀ style, applySgr p style =
      (turns p).foldl (fun style t => applySgr t style) style) ∧
    ∀ pre post code, Codes pre → StartsCode post → (code = 38 ∨ code = 48 ∨ code = 58) →
      ∀ style : Style,
        (∀ n, applySgr (pre ++ flatColour code [5, n] ++ post) style =
          applySgr (pre ++ colonColour code [5, n] ++ post) style) ∧
        ∀ r g b,
          applySgr (pre ++ flatColour code [2, r, g, b] ++ post) style =
            applySgr (pre ++ colonColour code [2, -1, r, g, b] ++ post) style ∧
          applySgr (pre ++ flatColour code [2, r, g, b] ++ post) style =
            applySgr (pre ++ colonColour code [2, r, g, b] ++ post) style := by
  refine ⟨startsCode_turns_iff p, applySgr_turns, fun pre post code hpre hpost hcode style => ?_⟩
  have hindexed : ∀ n, Codes (flatColour code [5, n]) := fun n => codes_flatColour hcode rfl
  have hrgb : ∀ r g b, Codes (flatColour code [2, r, g, b]) := fun r g b => codes_flatColour hcode rfl
  refine ⟨fun n => ?_, fun r g b => ⟨?_, ?_⟩⟩
  · exact applySgr_exchange hpre hpost (hindexed n) (codes_colonColour _ _ _) (List.cons_ne_nil _ _)
      (List.cons_ne_nil _ _) (applySgr_indexed_notations hcode n) style
  · exact applySgr_exchange hpre hpost (hrgb r g b) (codes_colonColour _ _ _) (List.cons_ne_nil _ _)
      (List.cons_ne_nil _ _) (fun style => (applySgr_rgb_notations hcode r g b style).1) style
  · exact applySgr_exchange hpre hpost (hrgb r g b) (codes_colonColour _ _ _) (List.cons_ne_nil _ _)
      (List.cons_ne_nil _ _) (fun style => (applySgr_rgb_notations hcode r g b style).2) style

/-- An underline with its style: one turn. Behind it red, in two notations, and bold. -/
theorem groups_whole_iff_red :
    (∀ t ∈ turns [{ value := 4 }, { value := 3, sub := true }], StartsCode t) ∧
      applySgr ([{ value := 4 }, { value := 3, sub := true }] ++ flatColour 38 [2, 255, 0, 0] ++
          [{ value := 1 }]) {} =
        applySgr ([{ value := 4 }, { value := 3, sub := true }] ++ colonColour 38 [2, -1, 255, 0, 0] ++
          [{ value := 1 }]) {} := by
  have hcodes : Codes ({ value := 4 } :: ([{ value := 3, sub := true }] ++ [])) :=
    .group rfl (by simp) (by simp) .nil
  refine ⟨(groups_whole_iff _).1.2 ⟨_, [], (List.append_nil _).symm, hcodes, .inl rfl⟩, ?_⟩
  exact ((groups_whole_iff []).2.2 _ [{ value := 1 }] 38 hcodes (startsCode_cons.2 rfl)
    (.inl rfl) {}).2 255 0 0 |>.1

/-- `38;5;3:1`: the sub-parameter of the index is read as a code, and makes bold. -/
theorem index_torn :
    (¬ ∀ p, ∀ t ∈ turns p, StartsCode t) ∧
      applySgr [{ value := 38 }, { value := 5 }, { value := 3 }, { value := 1, sub := true }] {} =
        { fg := .indexed 3, attrs := Attr.bold } := by
  refine ⟨fun hall => ?_, by decide⟩
  have h := hall ({ value := 38 } :: { value := 5 } :: ([{ value := 3 }] ++ [{ value := 1, sub := true }]))
  rw [turns_flat (.inl rfl) rfl rfl, turns_of_ne_nil (List.cons_ne_nil _ _)] at h
  have hlast := h _ (List.mem_cons_of_mem _ List.mem_cons_self) { value := 1, sub := true }
  obtain ⟨n, hn⟩ := Nat.exists_eq_succ_of_ne_zero
    (turnSize_pos ([{ value := 1, sub := true }] : Params)).ne'
  rw [hn] at hlast
  cases hlast rfl

end Sshos.Vt
