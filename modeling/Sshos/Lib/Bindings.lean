import Mathlib.Data.List.Basic
import Mathlib.Data.List.Nodup

/-!
# Sshos.Lib.Bindings

A **table filled from bindings**: of those of one key, the last has the word. The table is read
back as a list that is in order and has each key once, so that two tables that answer alike are
read back alike.
-/

namespace Sshos.Lib

universe u v w

variable {κ : Type u} {β : Type v}

/-- What the last binding of a key gives. -/
def last [BEq κ] (kvs : List (κ × β)) (key : κ) : Option β := kvs.reverse.lookup key

section Last

variable [BEq κ] {key : κ}

theorem last_cons (kv : κ × β) (kvs : List (κ × β)) : last (kv :: kvs) key =
    (last kvs key).or (if key == kv.1 then some kv.2 else none) := by
  unfold last
  rw [List.reverse_cons, List.lookup_append]
  refine congrArg _ ?_
  rw [List.lookup_cons]
  cases key == kv.1 <;> rfl

variable [LawfulBEq κ]

/-- Bindings kept for their keys. -/
theorem last_filter (p : κ → Bool) (kvs : List (κ × β)) :
    last (kvs.filter fun kv => p kv.1) key = if p key then last kvs key else none := by
  induction kvs with
  | nil => split <;> rfl
  | cons kv kvs ih =>
      rw [List.filter_cons]
      by_cases hkv : key = kv.1
      · subst hkv
        split
        next hp => rw [last_cons, last_cons, ih, if_pos hp]
        next hp => rw [ih, if_neg hp]
      · have hother : (key == kv.1) = false := beq_eq_false_iff_ne.2 hkv
        have hskip : last (kv :: kvs) key = last kvs key := by
          rw [last_cons, hother, if_neg Bool.false_ne_true, Option.or_none]
        split
        · rw [last_cons, hother, if_neg Bool.false_ne_true, Option.or_none, ih, hskip]
        · rw [ih, hskip]

theorem mem_of_last {kvs : List (κ × β)} {b : β} (h : last kvs key = some b) : (key, b) ∈ kvs := by
  obtain ⟨before, after, heq, -⟩ := List.lookup_eq_some_iff.1 h
  have hmem : (key, b) ∈ kvs.reverse := heq ▸ List.mem_append_right _ List.mem_cons_self
  exact List.mem_reverse.1 hmem

theorem last_eq_none {kvs : List (κ × β)} (h : key ∉ kvs.map (·.1)) : last kvs key = none := by
  cases hlast : last kvs key with
  | none => rfl
  | some b => exact absurd (List.mem_map_of_mem (mem_of_last hlast)) h

/-- Where each key stands once, what stands there is what is looked up. -/
theorem lookup_eq_some_of_nodup {kvs : List (κ × β)} (h : (kvs.map (·.1)).Nodup) {b : β} :
    kvs.lookup key = some b ↔ (key, b) ∈ kvs := by
  constructor
  · intro hlookup
    obtain ⟨before, after, rfl, -⟩ := List.lookup_eq_some_iff.1 hlookup
    exact List.mem_append_right _ List.mem_cons_self
  · intro hmem
    obtain ⟨before, after, rfl⟩ := List.append_of_mem hmem
    refine List.lookup_eq_some_iff.2 ⟨before, after, rfl, fun kv hkv => ?_⟩
    rw [List.map_append, List.map_cons] at h
    have hapart := (List.nodup_append.1 h).2.2 kv.1 (List.mem_map_of_mem hkv) key List.mem_cons_self
    exact bne_iff_ne.2 hapart.symm

end Last

/-! ### Filling -/

section Table

variable {cmp : κ → κ → Ordering} [Std.TransCmp cmp] [Std.LawfulEqCmp cmp]

/-- The bindings of a list go into a table one by one. -/
theorem getElem?_foldl_insert [BEq κ] [LawfulBEq κ] {γ : Type w} {f : Std.ExtTreeMap κ β cmp → γ →
      Std.ExtTreeMap κ β cmp} {g : γ → Option (κ × β)}
    (hf : ∀ m x, f m x = (g x).elim m fun kv => m.insert kv.1 kv.2) (xs : List γ) (key : κ) :
    ∀ m, (xs.foldl f m)[key]? = (last (xs.filterMap g) key).or m[key]? := by
  induction xs with
  | nil => exact fun _ => rfl
  | cons x xs ih =>
      intro m
      rw [List.foldl_cons, ih, hf]
      cases hx : g x with
      | none =>
          rw [List.filterMap_cons_none hx]
          rfl
      | some kv =>
          rw [List.filterMap_cons_some hx, last_cons, Option.or_assoc]
          refine congrArg _ ?_
          rw [Option.elim_some, Std.ExtTreeMap.getElem?_insert]
          by_cases hkey : kv.1 = key
          · rw [if_pos (Std.LawfulEqCmp.compare_eq_iff_eq.2 hkey), if_pos (beq_iff_eq.2 hkey.symm),
              Option.some_or]
          · rw [if_neg (mt Std.LawfulEqCmp.compare_eq_iff_eq.1 hkey),
              if_neg (mt beq_iff_eq.1 (Ne.symm hkey)), Option.none_or]

/-- The keys of a table are read back once each. -/
theorem nodup_keys_toList (m : Std.ExtTreeMap κ β cmp) : (m.toList.map (·.1)).Nodup := by
  rw [List.nodup_iff_pairwise_ne, List.pairwise_map]
  refine m.distinct_keys_toList.imp fun hne heq => hne ?_
  rw [heq]
  exact Std.ReflCmp.compare_self

end Table

end Sshos.Lib
