import Mathlib.Data.List.Sort
import Sshos.Apps.Dir

/-!
# Sshos.Apps.DirOrder

The order of a list of files is one **comparison**, criterion after criterion: what the system
gives in another order stands the same, and a filter can be applied before or after.
-/

namespace Sshos.Apps

open Sshos.Lib (Bytes)
open Std (LawfulEqCmp OrientedCmp TransCmp)

/-! ### Comparisons -/

theorem compare_cons {α : Type} [Ord α] (a b : α) (as bs : List α) :
    compare (a :: as) (b :: bs) = (compare a b).then (compare as bs) :=
  List.compareLex_cons_cons

/-- Byte strings compare as they are ordered. -/
theorem compare_bytes (as bs : Bytes) : compare as bs = .lt ↔ as < bs := by
  induction as generalizing bs with
  | nil =>
      cases bs with
      | nil => exact iff_of_false (by decide) (List.not_lt_nil [])
      | cons b bs => exact iff_of_true rfl (List.nil_lt_cons b bs)
  | cons a as ih =>
      cases bs with
      | nil => exact iff_of_false (by nofun) (List.not_lt_nil _)
      | cons b bs =>
          rw [compare_cons, Ordering.then_eq_lt, Std.compare_eq_lt, Std.compare_eq_iff_eq, ih,
            List.cons_lt_cons_iff]

theorem charValue_inj {a b : UInt8} : charValue a = charValue b ↔ a = b := by
  refine ⟨fun h => UInt8.toNat_inj.1 ?_, congrArg charValue⟩
  have ha : a.toNat < 256 := a.toNat_lt
  have hb : b.toNat < 256 := b.toNat_lt
  unfold charValue at h
  simp only [UInt8.lt_iff_toNat_lt, UInt8.reduceToNat] at h
  split at h <;> split at h <;> omega

/-- A name where the case is folded, as a `char` is compared. -/
def folded (name : Bytes) : List Int := name.map fun c => charValue (fold c)

/-- The sign of a comparison. -/
def sign : Ordering → Int
  | .lt => -1
  | .eq => 0
  | .gt => 1

theorem compareFolded_eq (a b : Bytes) :
    compareFolded a b = sign (compare (folded a) (folded b)) := by
  have hstep : ∀ (a b : UInt8) (as bs : Bytes), compare (folded (a :: as)) (folded (b :: bs)) =
      (compare (charValue (fold a)) (charValue (fold b))).then (compare (folded as) (folded bs)) :=
    fun a b as bs => compare_cons ..
  induction a, b using compareFolded.induct with
  | case1 => rfl
  | case2 => rfl
  | case3 => rfl
  | case4 a as b bs hne hlt =>
      rw [compareFolded, if_pos hne, if_pos hlt, hstep, Int.compare_eq_lt.2 hlt]
      rfl
  | case5 a as b bs hne hge =>
      have hgt : charValue (fold b) < charValue (fold a) := by
        have hdiffer := mt charValue_inj.1 hne
        omega
      rw [compareFolded, if_pos hne, if_neg hge, hstep, Int.compare_eq_gt.2 hgt]
      rfl
  | case6 a as b bs heq ih =>
      have hsame : charValue (fold a) = charValue (fold b) := congrArg charValue (not_not.1 heq)
      rw [compareFolded, if_neg heq, ih, hstep, Int.compare_eq_eq.2 hsame]
      rfl

/-! ### Entries -/

/-- What is sorted by, and in which direction. -/
def sortKey (sortBy : SortBy) (descending : Bool) (e : DirEntry) : Int :=
  match sortBy with
  | .name => 0
  | .size => if descending then -e.size else e.size
  | .time => if descending then -e.mtime else e.mtime

/-- The case of the names settles what folding it leaves. -/
def compareNames : DirEntry → DirEntry → Ordering :=
  compareLex (compareOn fun e => folded e.name) (compareOn DirEntry.name)

/-- Names alone are sorted by in both directions. -/
def compareNamesBy (sortBy : SortBy) (descending : Bool) : DirEntry → DirEntry → Ordering :=
  if sortBy = .name ∧ descending then fun a b => compareNames b a else compareNames

/-- `..` first, then the directories, then the order that is asked. -/
def compareEntries (sortBy : SortBy) (descending : Bool) : DirEntry → DirEntry → Ordering :=
  compareLex (compareOn fun e => !decide (e.name = kParent))
    (compareLex (compareOn fun e => !isDirLike e)
      (compareLex (compareOn (sortKey sortBy descending)) (compareNamesBy sortBy descending)))

instance : TransCmp compareNames := inferInstanceAs (TransCmp (compareLex _ _))

instance (sortBy : SortBy) (descending : Bool) : TransCmp (compareNamesBy sortBy descending) := by
  unfold compareNamesBy
  split <;> infer_instance

instance (sortBy : SortBy) (descending : Bool) : TransCmp (compareEntries sortBy descending) :=
  inferInstanceAs (TransCmp (compareLex _ _))

theorem name_of_compareNames {a b : DirEntry} (h : compareNames a b = .eq) : a.name = b.name :=
  Std.compare_eq_iff_eq.1 (Ordering.then_eq_eq.1 h).2

/-- Entries that compare equal have one name. -/
theorem name_of_compareEntries {sortBy : SortBy} {descending : Bool} {a b : DirEntry}
    (h : compareEntries sortBy descending a b = .eq) : a.name = b.name := by
  have hnames : compareNamesBy sortBy descending a b = .eq :=
    (Ordering.then_eq_eq.1 (Ordering.then_eq_eq.1 (Ordering.then_eq_eq.1 h).2).2).2
  unfold compareNamesBy at hnames
  split at hnames
  · exact (name_of_compareNames hnames).symm
  · exact name_of_compareNames hnames

/-! ### The comparison of the source -/

section Compare

variable {sortBy : SortBy} {descending : Bool} {a b c : DirEntry}

theorem compareLex_of_eq {f g : DirEntry → DirEntry → Ordering} (h : f a b = .eq) :
    compareLex f g a b = g a b := by
  rw [compareLex, h]
  rfl

theorem compareLex_of_ne {f g : DirEntry → DirEntry → Ordering} (h : f a b ≠ .eq) :
    compareLex f g a b = f a b := by
  rw [compareLex]
  cases hf : f a b with
  | eq => exact absurd hf h
  | lt => rfl
  | gt => rfl

/-- What has the property comes first. -/
theorem isLT_flag (p : DirEntry → Bool) (f : DirEntry → DirEntry → Ordering) :
    (compareLex (compareOn fun e => !p e) f a b).isLT = if p a ≠ p b then p a else (f a b).isLT := by
  by_cases hsame : p a = p b
  · rw [compareLex_of_eq (by simp [compareOn, hsame]), if_neg (not_not.2 hsame)]
  · rw [compareLex_of_ne (by simpa [compareOn] using hsame), if_pos hsame]
    show (compare (!p a) (!p b)).isLT = p a
    cases ha : p a <;> cases hb : p b
    · exact absurd (ha.trans hb.symm) hsame
    · rfl
    · rfl
    · exact absurd (ha.trans hb.symm) hsame

/-- A number is read in the direction that is asked. -/
theorem isLT_number {m n : Nat} {key : DirEntry → Int} (f : DirEntry → DirEntry → Ordering)
    (ha : key a = if descending then -(m : Int) else m)
    (hb : key b = if descending then -(n : Int) else n) :
    (compareLex (compareOn key) f a b).isLT =
      if m ≠ n then if descending then decide (m > n) else decide (m < n) else (f a b).isLT := by
  have hcompare : compareOn key a b = compare (key a) (key b) := rfl
  by_cases heq : m = n
  · have hsame : compareOn key a b = .eq := Int.compare_eq_eq.2 (by rw [ha, hb, heq])
    rw [compareLex_of_eq hsame, if_neg (not_not.2 heq)]
  · have hne : key a ≠ key b := by
      rw [ha, hb]
      split <;> omega
    rw [compareLex_of_ne (mt Int.compare_eq_eq.1 hne), if_pos heq, hcompare, Bool.eq_iff_iff,
      Ordering.isLT_iff_eq_lt, Int.compare_eq_lt, ha, hb]
    cases descending <;> simp

theorem isLT_names : (compareNames a b).isLT =
    if compareFolded a.name b.name ≠ 0 then decide (compareFolded a.name b.name < 0)
    else decide (a.name < b.name) := by
  have hraw : (compareOn DirEntry.name a b).isLT = decide (a.name < b.name) := by
    rw [Bool.eq_iff_iff, Ordering.isLT_iff_eq_lt, decide_eq_true_eq]
    exact compare_bytes ..
  have hfolded : compareOn (fun e : DirEntry => folded e.name) a b =
    compare (folded a.name) (folded b.name) := rfl
  rw [compareFolded_eq]
  cases hsign : compare (folded a.name) (folded b.name) with
  | eq => rw [compareNames, compareLex_of_eq (hfolded.trans hsign), hraw]; rfl
  | lt => rw [compareNames, compareLex_of_ne (by rw [hfolded, hsign]; nofun), hfolded, hsign]; rfl
  | gt => rw [compareNames, compareLex_of_ne (by rw [hfolded, hsign]; nofun), hfolded, hsign]; rfl

theorem compareFolded_swap (a b : Bytes) : compareFolded b a = -compareFolded a b := by
  rw [compareFolded_eq, compareFolded_eq, Std.OrientedOrd.eq_swap]
  cases compare (folded a) (folded b) <;> rfl

theorem isLT_namesBy : (compareNamesBy sortBy descending a b).isLT =
    if compareFolded a.name b.name ≠ 0 then
      if sortBy = .name ∧ descending then decide (compareFolded a.name b.name > 0)
      else decide (compareFolded a.name b.name < 0)
    else if sortBy = .name ∧ descending then decide (b.name < a.name)
      else decide (a.name < b.name) := by
  unfold compareNamesBy
  by_cases hdown : sortBy = .name ∧ descending
  · simp only [if_pos hdown, isLT_names, compareFolded_swap a.name b.name, neg_ne_zero, neg_lt_zero]
  · simp only [if_neg hdown, isLT_names]

/-- **The comparison of the source** goes criterion after criterion. -/
theorem before_eq : before sortBy descending a b = (compareEntries sortBy descending a b).isLT := by
  unfold before compareEntries
  rw [isLT_flag (fun e => decide (e.name = kParent)), isLT_flag isDirLike]
  cases sortBy with
  | name =>
      rw [compareLex_of_eq (show compareOn (sortKey .name descending) a b = .eq from rfl),
        isLT_namesBy]
      simp only [reduceCtorEq, false_and, if_false]
  | size =>
      rw [isLT_number (m := a.size) (n := b.size) _ rfl rfl, isLT_namesBy]
      simp only [reduceCtorEq, false_and, true_and, if_false]
  | time =>
      rw [isLT_number (m := a.mtime) (n := b.mtime) _ rfl rfl, isLT_namesBy]
      simp only [reduceCtorEq, false_and, true_and, if_false]

end Compare

/-! ### The list -/

section Sorted

variable {sortBy : SortBy} {descending : Bool} {entries : List DirEntry}

/-- What does not come before may come after. -/
theorem before_eq_false {a b : DirEntry} :
    before sortBy descending b a = false ↔ (compareEntries sortBy descending a b).isLE = true := by
  rw [before_eq, @OrientedCmp.eq_swap _ (compareEntries sortBy descending) _ b a]
  cases compareEntries sortBy descending a b <;> decide

instance (sortBy : SortBy) (descending : Bool) :
    Std.Total fun a b : DirEntry => before sortBy descending b a = false where
  total := by
    intro a b
    rw [before_eq_false, before_eq_false, @OrientedCmp.eq_swap _ (compareEntries sortBy descending) _ b a]
    cases compareEntries sortBy descending a b <;> decide

instance (sortBy : SortBy) (descending : Bool) :
    IsTrans DirEntry fun a b => before sortBy descending b a = false where
  trans := by
    intro a b c hab hbc
    rw [before_eq_false] at *
    exact TransCmp.isLE_trans hab hbc

theorem before_trans {a b c : DirEntry} (hab : before sortBy descending a b = true)
    (hbc : before sortBy descending b c = true) : before sortBy descending a c = true := by
  rw [before_eq, Ordering.isLT_iff_eq_lt] at *
  exact TransCmp.lt_trans hab hbc

/-- Of two names one comes before the other, and not the other way. -/
theorem before_total {a b : DirEntry} (hname : a.name ≠ b.name) :
    before sortBy descending b a = !before sortBy descending a b := by
  have hne : compareEntries sortBy descending a b ≠ .eq := fun h => hname (name_of_compareEntries h)
  rw [before_eq, before_eq, @OrientedCmp.eq_swap _ (compareEntries sortBy descending) _ b a]
  cases hcompare : compareEntries sortBy descending a b with
  | eq => exact absurd hcompare hne
  | lt => rfl
  | gt => rfl

theorem before_irrefl (a : DirEntry) : before sortBy descending a a = false := by
  rw [before_eq, @Std.ReflCmp.compare_self _ (compareEntries sortBy descending) _ a]
  rfl

theorem sortEntries_perm (entries : List DirEntry) (sortBy : SortBy) (descending : Bool) :
    (sortEntries entries sortBy descending).Perm entries :=
  List.perm_insertionSort _ entries

/-- Nothing stands after what it comes before. -/
theorem sortEntries_sorted (entries : List DirEntry) (sortBy : SortBy) (descending : Bool) :
    (sortEntries entries sortBy descending).Pairwise fun a b => before sortBy descending b a = false :=
  List.pairwise_insertionSort _ entries

/-- There is one such list of these entries, whatever the sort. -/
theorem eq_sortEntries (hnames : (entries.map (·.name)).Nodup) {out : List DirEntry}
    (hperm : out.Perm entries)
    (hsorted : out.Pairwise fun a b => before sortBy descending b a = false) :
    out = sortEntries entries sortBy descending := by
  refine List.Perm.eq_of_pairwise ?_ hsorted (sortEntries_sorted entries sortBy descending)
    (hperm.trans (sortEntries_perm entries sortBy descending).symm)
  intro a b ha hb hab hba
  refine List.inj_on_of_nodup_map hnames (hperm.subset ha) (mem_sortEntries.1 hb) ?_
  by_contra hname
  have htotal := @before_total sortBy descending _ _ hname
  rw [hab, hba] at htotal
  cases htotal

theorem before_parent {a b : DirEntry} (ha : a.name = kParent) (hb : b.name ≠ kParent) :
    before sortBy descending a b = true := by
  simp [before, ha, hb]

theorem before_dir {a b : DirEntry} (ha : isDirLike a = true) (hb : isDirLike b = false)
    (hname : b.name ≠ kParent) : before sortBy descending a b = true := by
  simp [before, ha, hb, hname]

end Sorted

/-! ### The filter -/

/-- A name that holds the needle, up to the case of ASCII letters. -/
def Holds (name needle : Bytes) : Prop := ∃ part, part <:+: name ∧ part.map fold = needle.map fold

theorem holds_iff {name needle : Bytes} :
    Holds name needle ↔ needle.map fold <:+: name.map fold := by
  rw [List.infix_map_iff]
  exact exists_congr fun part => and_congr_right fun _ => eq_comm

/-- An empty needle is held by every name. -/
theorem filterEntries_eq (entries : List DirEntry) (needle : Bytes) : filterEntries entries needle =
    entries.filter fun e => e.name = kParent ∨ needle.map fold <:+: e.name.map fold := by
  unfold filterEntries
  split
  · next hnil =>
      refine (List.filter_eq_self.2 fun e _ => ?_).symm
      rw [hnil, decide_eq_true_eq]
      exact .inr (List.nil_infix)
  · rfl

theorem mem_filterEntries_iff {entries : List DirEntry} {needle : Bytes} {e : DirEntry} :
    e ∈ filterEntries entries needle ↔ e ∈ entries ∧ (e.name = kParent ∨ Holds e.name needle) := by
  rw [filterEntries_eq, List.mem_filter, decide_eq_true_eq, holds_iff]

/-- A list of entries, and what becomes of it when it is sorted and filtered. -/
structure Stands (sortBy : SortBy) (descending : Bool) (entries : List DirEntry) : Prop where
  irrefl : ∀ a, before sortBy descending a a = false
  trans : ∀ a b c, before sortBy descending a b → before sortBy descending b c →
    before sortBy descending a c
  total : ∀ a b, a.name ≠ b.name → before sortBy descending b a = !before sortBy descending a b
  perm : (sortEntries entries sortBy descending).Perm entries
  only : ∀ out, out.Perm entries →
    out.Pairwise (fun a b => before sortBy descending b a = false) →
    out = sortEntries entries sortBy descending
  same : ∀ entries', entries'.Perm entries →
    sortEntries entries' sortBy descending = sortEntries entries sortBy descending
  parent : ∀ e ∈ entries, e.name = kParent → (sortEntries entries sortBy descending).head? = some e
  dirs : (sortEntries entries sortBy descending).Pairwise fun a b =>
    isDirLike b = true → isDirLike a = true ∨ a.name = kParent
  commutes : ∀ needle, sortEntries (filterEntries entries needle) sortBy descending =
    filterEntries (sortEntries entries sortBy descending) needle
  keeps : ∀ needle e, e ∈ filterEntries entries needle ↔
    e ∈ entries ∧ (e.name = kParent ∨ Holds e.name needle)

/-- **The list does not depend on the order in which the system gives it.** -/
theorem sortEntries_stands (sortBy : SortBy) (descending : Bool) {entries : List DirEntry}
    (hnames : (entries.map (·.name)).Nodup) : Stands sortBy descending entries where
  irrefl := before_irrefl
  trans _ _ _ := before_trans
  total _ _ := before_total
  perm := sortEntries_perm entries sortBy descending
  only _ hperm hsorted := eq_sortEntries hnames hperm hsorted
  same entries' hperm := eq_sortEntries hnames ((sortEntries_perm ..).trans hperm)
    (sortEntries_sorted ..)
  parent := by
    intro e he hname
    have hsorted := sortEntries_sorted entries sortBy descending
    have hin : e ∈ sortEntries entries sortBy descending := mem_sortEntries.2 he
    cases hlist : sortEntries entries sortBy descending with
    | nil => exact absurd (hlist ▸ hin) List.not_mem_nil
    | cons first rest =>
        rw [hlist] at hin hsorted
        rcases List.mem_cons.1 hin with rfl | hrest
        · rfl
        · have hafter := (List.pairwise_cons.1 hsorted).1 e hrest
          have hfirst : first.name = kParent := by
            by_contra hother
            exact absurd ((before_parent hname hother).symm.trans hafter) (by decide)
          have hmem : first ∈ entries := mem_sortEntries.1 (hlist ▸ List.mem_cons_self ..)
          exact congrArg some (List.inj_on_of_nodup_map hnames hmem he (hfirst.trans hname.symm))
  dirs := by
    refine (sortEntries_sorted entries sortBy descending).imp fun {a b} hafter hb => ?_
    by_contra hneither
    obtain ⟨ha, hname⟩ := not_or.1 hneither
    exact absurd ((before_dir hb (by simpa using ha) hname).symm.trans hafter) (by decide)
  commutes := by
    intro needle
    have hsub : (filterEntries entries needle).Sublist entries :=
      filterEntries_eq entries needle ▸ List.filter_sublist
    refine (eq_sortEntries (hnames.sublist (hsub.map _)) ?_ ?_).symm
    · rw [filterEntries_eq, filterEntries_eq]
      exact (sortEntries_perm entries sortBy descending).filter _
    · rw [filterEntries_eq]
      exact (sortEntries_sorted entries sortBy descending).filter _
  keeps _ _ := mem_filterEntries_iff

theorem sortEntries_stands_three : Stands .time true
    [{ name := [0x62], mtime := 7 }, { name := kParent, kind := .dir },
      { name := [0x42], kind := .link, mtime := 7, linksToDir := true }] :=
  sortEntries_stands .time true (by decide)

end Sshos.Apps
