import Sshos.Shell.UpdateFirst

/-!
# Sshos.Shell.UpdateNumbers

The **numbers** of the file of the update. They are read on 64 bits, overflow and all, and each
field then takes what is in its range. The number of the process is narrowed to 32 bits unchecked.
-/

namespace Sshos.Shell.UpdateFile

open Sshos.Lib (Bytes)

/-! ### What is written -/

/-- Some figures, `v` being what stands before them. -/
def figures (ds : Bytes) (v : Nat) : Nat := ds.foldl (fun n c => n * 10 + (c.toNat - 0x30)) v

/-- The text is a number in decimal, with or without a sign. -/
inductive Writes : Bytes → Int → Prop where
  | plain {ds : Bytes} (hsome : ds ≠ []) (hdigits : ∀ c ∈ ds, isDigit c) : Writes ds (figures ds 0)
  | plus {ds : Bytes} (hsome : ds ≠ []) (hdigits : ∀ c ∈ ds, isDigit c) :
      Writes (0x2B :: ds) (figures ds 0)
  | minus {ds : Bytes} (hsome : ds ≠ []) (hdigits : ∀ c ∈ ds, isDigit c) :
      Writes (0x2D :: ds) (-(figures ds 0 : Int))

/-- The most that 64 bits hold. -/
def kMaxInt64 : Nat := 9223372036854775807

theorem le_figures (ds : Bytes) : ∀ v, v ≤ figures ds v := by
  induction ds with
  | nil => exact fun v => Nat.le_refl v
  | cons c ds ih =>
      intro v
      calc v ≤ v * 10 + (c.toNat - 0x30) := by omega
        _ ≤ figures (c :: ds) v := ih _

theorem isDigit_iff {c : UInt8} : isDigit c = true ↔ 0x30 ≤ c.toNat ∧ c.toNat ≤ 0x39 := by
  unfold isDigit
  simp only [decide_eq_true_eq, UInt8.le_iff_toNat_le]
  rfl

/-- **The figures are read** as long as what they come to holds in 64 bits. -/
theorem readDigits_iff {n : Nat} (ds : Bytes) : ∀ {v}, v ≤ kMaxInt64 →
    (readDigits ds v = some n ↔ (∀ c ∈ ds, isDigit c) ∧ n = figures ds v ∧ n ≤ kMaxInt64) := by
  induction ds with
  | nil =>
      intro v hv
      simp only [readDigits, figures, List.foldl_nil, Option.some.injEq]
      constructor
      · rintro rfl
        exact ⟨fun _ hc => absurd hc List.not_mem_nil, rfl, hv⟩
      · exact fun h => h.2.1.symm
  | cons c ds ih =>
      intro v hv
      rw [List.forall_mem_cons]
      unfold readDigits
      by_cases hdigit : isDigit c = true
      · have hrange := isDigit_iff.1 hdigit
        rw [if_neg (not_not.2 hdigit)]
        simp only [hdigit, true_and]
        have hstep : figures (c :: ds) v = figures ds (v * 10 + (c.toNat - 0x30)) := rfl
        rw [hstep]
        -- the guard is exactly that the next value holds
        by_cases hfits : v * 10 + (c.toNat - 0x30) ≤ kMaxInt64
        · have hguard : ¬ v > (9223372036854775807 - (c.toNat - 0x30)) / 10 := by
            unfold kMaxInt64 at hfits
            omega
          rw [if_neg hguard]
          exact ih hfits
        · have hguard : v > (9223372036854775807 - (c.toNat - 0x30)) / 10 := by
            unfold kMaxInt64 at hfits
            omega
          have hgrows := le_figures ds (v * 10 + (c.toNat - 0x30))
          rw [if_pos hguard]
          refine iff_of_false nofun fun h => ?_
          omega
      · rw [if_pos hdigit]
        exact iff_of_false nofun fun h => hdigit h.1.1

/-- What a number starts with says how it is written. -/
theorem writes_cons_iff {c : UInt8} {cs : Bytes} {v : Int} : Writes (c :: cs) v ↔
    (c = 0x2D ∧ cs ≠ [] ∧ (∀ d ∈ cs, isDigit d) ∧ v = -(figures cs 0 : Int)) ∨
    (c = 0x2B ∧ cs ≠ [] ∧ (∀ d ∈ cs, isDigit d) ∧ v = figures cs 0) ∨
    ((∀ d ∈ c :: cs, isDigit d) ∧ v = figures (c :: cs) 0) := by
  constructor
  · intro h
    generalize hs : c :: cs = s at h
    cases h with
    | plain hsome hdigits =>
        subst hs
        exact .inr (.inr ⟨hdigits, rfl⟩)
    | plus hsome hdigits =>
        obtain ⟨rfl, rfl⟩ := List.cons.inj hs
        exact .inr (.inl ⟨rfl, hsome, hdigits, rfl⟩)
    | minus hsome hdigits =>
        obtain ⟨rfl, rfl⟩ := List.cons.inj hs
        exact .inl ⟨rfl, hsome, hdigits, rfl⟩
  · rintro (⟨rfl, hsome, hdigits, rfl⟩ | ⟨rfl, hsome, hdigits, rfl⟩ | ⟨hdigits, rfl⟩)
    · exact .minus hsome hdigits
    · exact .plus hsome hdigits
    · exact .plain (List.cons_ne_nil c cs) hdigits

/-- A sign is no figure. -/
theorem not_digits_of_sign {c : UInt8} (hc : c = 0x2D ∨ c = 0x2B) (cs : Bytes) :
    ¬ ∀ d ∈ c :: cs, isDigit d = true := by
  intro h
  have hdigit := h c List.mem_cons_self
  rcases hc with rfl | rfl
  · exact absurd hdigit (by decide)
  · exact absurd hdigit (by decide)

theorem readInt64_cons (c : UInt8) (cs : Bytes) : readInt64 (c :: cs) =
    if c = 0x2D ∨ c = 0x2B then
      if cs = [] then none
      else if c = 0x2D then (readDigits cs 0).map fun v : Nat => -(v : Int)
      else (readDigits cs 0).map fun v : Nat => (v : Int)
    else (readDigits (c :: cs) 0).map fun v : Nat => (v : Int) := by
  have hmap : ∀ (r : Option Nat) (f : Int → Int),
      Option.map f (do let n ← r; pure (n : Int)) = r.map fun v : Nat => f v := by
    intro r f
    cases r <;> rfl
  simp only [readInt64, hmap]

/-- **A number is read** just when it is written in decimal, and holds in 64 bits. -/
theorem readInt64_iff {s : Bytes} {v : Int} :
    readInt64 s = some v ↔ Writes s v ∧ -(kMaxInt64 : Int) ≤ v ∧ v ≤ kMaxInt64 := by
  have hzero : 0 ≤ kMaxInt64 := Nat.zero_le _
  cases s with
  | nil =>
      refine iff_of_false nofun ?_
      rintro ⟨h, -⟩
      cases h with
      | plain hsome _ => exact hsome rfl
  | cons c cs =>
      rw [writes_cons_iff, readInt64_cons]
      by_cases hsign : c = 0x2D ∨ c = 0x2B
      · have hno := not_digits_of_sign hsign cs
        rw [if_pos hsign]
        by_cases hnil : cs = []
        · rw [if_pos hnil]
          refine iff_of_false nofun ?_
          rintro ⟨⟨-, hsome, -⟩ | ⟨-, hsome, -⟩ | ⟨hall, -⟩, -⟩
          · exact hsome hnil
          · exact hsome hnil
          · exact hno hall
        rw [if_neg hnil]
        by_cases hminus : c = 0x2D
        · rw [if_pos hminus, Option.map_eq_some_iff]
          simp only [readDigits_iff cs hzero]
          constructor
          · rintro ⟨n, ⟨hdigits, rfl, hle⟩, rfl⟩
            exact ⟨.inl ⟨hminus, hnil, hdigits, rfl⟩, by omega, by omega⟩
          · rintro ⟨⟨-, -, hdigits, rfl⟩ | ⟨hplus, -⟩ | ⟨hall, -⟩, hlow, hhigh⟩
            · exact ⟨_, ⟨hdigits, rfl, by omega⟩, rfl⟩
            · exact absurd (hminus.symm.trans hplus) (by decide)
            · exact absurd hall hno
        · rw [if_neg hminus, Option.map_eq_some_iff]
          simp only [readDigits_iff cs hzero]
          constructor
          · rintro ⟨n, ⟨hdigits, rfl, hle⟩, rfl⟩
            exact ⟨.inr (.inl ⟨hsign.resolve_left hminus, hnil, hdigits, rfl⟩), by omega, by omega⟩
          · rintro ⟨⟨hbad, -⟩ | ⟨-, -, hdigits, rfl⟩ | ⟨hall, -⟩, hlow, hhigh⟩
            · exact absurd hbad hminus
            · exact ⟨_, ⟨hdigits, rfl, by omega⟩, rfl⟩
            · exact absurd hall hno
      · rw [if_neg hsign, Option.map_eq_some_iff]
        simp only [readDigits_iff (c :: cs) hzero]
        constructor
        · rintro ⟨n, ⟨hdigits, rfl, hle⟩, rfl⟩
          exact ⟨.inr (.inr ⟨hdigits, rfl⟩), by omega, by omega⟩
        · rintro ⟨⟨hminus, -⟩ | ⟨hplus, -⟩ | ⟨hdigits, rfl⟩, hlow, hhigh⟩
          · exact absurd (.inl hminus) hsign
          · exact absurd (.inr hplus) hsign
          · exact ⟨_, ⟨hdigits, rfl, by omega⟩, rfl⟩

/-- A text writes one number. -/
theorem Writes.unique {s : Bytes} {v v' : Int} (h : Writes s v) (h' : Writes s v') : v = v' := by
  cases s with
  | nil =>
      cases h with
      | plain hsome _ => exact absurd rfl hsome
  | cons c cs =>
      have hsign := @not_digits_of_sign c
      rcases writes_cons_iff.1 h with ⟨hc, -, -, rfl⟩ | ⟨hc, -, -, rfl⟩ | ⟨hall, rfl⟩
      · rcases writes_cons_iff.1 h' with ⟨-, -, -, rfl⟩ | ⟨hc', -⟩ | ⟨hall, -⟩
        · rfl
        · exact absurd (hc.symm.trans hc') (by decide)
        · exact absurd hall (hsign (.inl hc) cs)
      · rcases writes_cons_iff.1 h' with ⟨hc', -⟩ | ⟨-, -, -, rfl⟩ | ⟨hall, -⟩
        · exact absurd (hc.symm.trans hc') (by decide)
        · rfl
        · exact absurd hall (hsign (.inr hc) cs)
      · rcases writes_cons_iff.1 h' with ⟨hc, -⟩ | ⟨hc, -⟩ | ⟨-, rfl⟩
        · exact absurd hall (hsign (.inl hc) cs)
        · exact absurd hall (hsign (.inr hc) cs)
        · rfl

/-! ### The fields -/

/-- A number of the file is its default, or what the first line of its key writes. -/
def Told (first : FileKey → Option Bytes) (k : FileKey) (default v : Int) : Prop :=
  v = default ∨ ∃ s, first k = some s ∧ Writes s v

/-- The numbers of a file are told as they are written, and are in their ranges. -/
structure Undistorted (now : Int) (first : FileKey → Option Bytes) (f : FileState) : Prop where
  checkedAt : Told first .checkedAt 0 f.checkedAt ∧ 0 ≤ f.checkedAt ∧ f.checkedAt ≤ now
  commitsAhead : Told first .commitsAhead 0 f.commitsAhead ∧ 0 ≤ f.commitsAhead ∧ f.commitsAhead ≤ 999999
  pid : Told first .pid (-1) f.pid
  progress : Told first .progress (-1) f.progress ∧ -1 ≤ f.progress ∧ f.progress ≤ 100

/-- What is narrowed is not changed: it holds in 32 bits, or comes to the default by chance. -/
def PidHolds (first : FileKey → Option Bytes) : Prop :=
  ∀ s v, first .pid = some s → Writes s v → 2 ^ 31 ≤ v → v ≤ kMaxInt64 → (2 ^ 32 : Int) ∣ v + 1

theorem toPid_of_small {v : Int} (hpos : 0 < v) (hsmall : v < 2 ^ 31) : toPid v = v := by
  unfold toPid
  rw [Int.bmod_eq_of_le]
  · omega
  · omega

theorem toPid_lt (v : Int) : toPid v < 2 ^ 31 := Int.bmod_lt (by decide)

theorem toPid_eq_default {v : Int} : toPid v = -1 ↔ (2 ^ 32 : Int) ∣ v + 1 := by
  unfold toPid Int.bmod
  simp only
  split
  · omega
  · omega

/-- A number that is kept if it is in a range. -/
theorem told_filter {first : FileKey → Option Bytes} {k : FileKey} (default : Int) (p : Int → Bool) :
    let v := (((first k).bind readInt64).filter p).getD default
    Told first k default v ∧ (v = default ∨ p v = true) := by
  cases hfirst : first k with
  | none => exact ⟨.inl rfl, .inl rfl⟩
  | some s =>
      simp only [Option.bind_some]
      cases hread : readInt64 s with
      | none => exact ⟨.inl rfl, .inl rfl⟩
      | some v =>
          by_cases hp : p v = true
          · have hkept : (Option.filter p (some v)).getD default = v := by simp [Option.filter, hp]
            rw [hkept]
            exact ⟨.inr ⟨s, hfirst, (readInt64_iff.1 hread).1⟩, .inr hp⟩
          · have hgone : (Option.filter p (some v)).getD default = default := by
              simp [Option.filter, hp]
            rw [hgone]
            exact ⟨.inl rfl, .inl rfl⟩

section Pid

variable {first : FileKey → Option Bytes}

/-- What is kept of the number of the process. -/
def pidOf (first : FileKey → Option Bytes) : Int :=
  ((((first .pid).bind readInt64).filter fun v => v > 0).map toPid).getD (-1)

/-- **The number of the process is told as it is written** just when narrowing it changes nothing. -/
theorem told_pid_iff : Told first .pid (-1) (pidOf first) ↔ PidHolds first := by
  unfold pidOf PidHolds
  cases hfirst : first .pid with
  | none => exact iff_of_true (.inl rfl) nofun
  | some s =>
      simp only [Option.bind_some]
      cases hread : readInt64 s with
      | none =>
          refine iff_of_true (.inl rfl) fun s' v hs hv hlow hhigh => ?_
          cases hs
          have hsome := readInt64_iff.2 ⟨hv, by omega, hhigh⟩
          rw [hread] at hsome
          cases hsome
      | some v =>
          obtain ⟨hv, -, hhigh⟩ := readInt64_iff.1 hread
          by_cases hpos : 0 < v
          · have hkept : (((some v : Option Int).filter fun v => v > 0).map toPid).getD (-1) = toPid v := by
              simp [Option.filter, hpos]
            rw [hkept]
            by_cases hsmall : v < 2 ^ 31
            · rw [toPid_of_small hpos hsmall]
              refine iff_of_true (.inr ⟨s, hfirst, hv⟩) fun s' v' hs hv' hlow _ => ?_
              cases hs
              obtain rfl := hv.unique hv'
              omega
            · constructor
              · rintro htold s' v' hs hv' - -
                cases hs
                obtain rfl := hv.unique hv'
                rcases htold with hdefault | ⟨s'', hs'', hwrites⟩
                · exact toPid_eq_default.1 hdefault
                · cases hfirst.symm.trans hs''
                  have hsame := hv.unique hwrites
                  have hlt := toPid_lt v
                  omega
              · intro h
                exact .inl (toPid_eq_default.2 (h s v rfl hv (Int.not_lt.1 hsmall) hhigh))
          · have hgone : (((some v : Option Int).filter fun v => v > 0).map toPid).getD (-1) = -1 := by
              simp [Option.filter, hpos]
            rw [hgone]
            refine iff_of_true (.inl rfl) fun s' v' hs hv' hlow _ => ?_
            cases hs
            obtain rfl := hv.unique hv'
            omega

end Pid

/-- **The numbers of the file are told undistorted** just when the clock is not negative, and the
number of the process holds in 32 bits. -/
theorem undistorted_iff {raw : Bytes} (now : Int) (hlen : raw.length ≤ kMaxStateBytes)
    (hok : SchemaOk (firstOf (entries raw))) :
    Undistorted now (firstOf (entries raw)) (parseUpdateState raw now) ↔
      0 ≤ now ∧ PidHolds (firstOf (entries raw)) := by
  rw [parseUpdateState_eq now hlen]
  generalize firstOf (entries raw) = first at hok ⊢
  have hchecked := @told_filter first .checkedAt 0 fun v => v ≥ 0 ∧ v ≤ now
  have hahead := @told_filter first .commitsAhead 0 fun v => v > 0 ∧ v < 1000000
  have hprogress := @told_filter first .progress (-1) fun v => v ≥ 0 ∧ v ≤ 100
  simp only [decide_eq_true_eq] at hchecked hahead hprogress
  unfold fileOf
  rw [if_neg (not_not.2 hok)]
  constructor
  · intro h
    exact ⟨h.checkedAt.2.1.trans h.checkedAt.2.2, told_pid_iff.1 h.pid⟩
  · rintro ⟨hnow, hpid⟩
    refine ⟨⟨hchecked.1, ?_⟩, ⟨hahead.1, ?_⟩, told_pid_iff.2 hpid, ⟨hprogress.1, ?_⟩⟩
    · rcases hchecked.2 with hdefault | hrange
      · simp only [fieldsOf, hdefault]
        omega
      · exact hrange
    · rcases hahead.2 with hdefault | hrange
      · simp only [fieldsOf, hdefault]
        omega
      · simp only [fieldsOf]
        omega
    · rcases hprogress.2 with hdefault | hrange
      · simp only [fieldsOf, hdefault]
        omega
      · simp only [fieldsOf]
        omega

theorem undistorted_iff_small :
    Undistorted 9 (firstOf (entries (text "schema=1\npid=7\n")))
        (parseUpdateState (text "schema=1\npid=7\n") 9) ↔
      0 ≤ (9 : Int) ∧ PidHolds (firstOf (entries (text "schema=1\npid=7\n"))) :=
  undistorted_iff 9 (by rw [text_ofList]; decide) (by decide +kernel)

/-- A number one more than 32 bits hold is read as process 1. -/
def wrappedPid : Bytes := text "schema=1\npid=4294967297\n"

theorem undistorted_not_always : ¬ ∀ (raw : Bytes) (now : Int), raw.length ≤ kMaxStateBytes →
    SchemaOk (firstOf (entries raw)) → Undistorted now (firstOf (entries raw)) (parseUpdateState raw now) := by
  intro h
  have hread : wrappedPid.length ≤ kMaxStateBytes ∧ SchemaOk (firstOf (entries wrappedPid)) ∧
      (parseUpdateState wrappedPid 0).pid = 1 ∧
      firstOf (entries wrappedPid) .pid = some (text "4294967297") := by decide +kernel
  obtain ⟨hlen, hok, hone, hfirst⟩ := hread
  have hfigures : text "4294967297" ≠ [] ∧ (text "4294967297").all isDigit ∧
      figures (text "4294967297") 0 = 4294967297 := by
    rw [text_ofList]
    decide
  obtain ⟨hsome, hdigits, hvalue⟩ := hfigures
  have hwrites := Writes.plain hsome (List.all_eq_true.1 hdigits)
  have hpid := (h wrappedPid 0 hlen hok).pid
  rw [hone] at hpid
  rcases hpid with hdefault | ⟨s, hs, htold⟩
  · cases hdefault
  · cases hfirst.symm.trans hs
    have hsame := hwrites.unique htold
    rw [hvalue] at hsame
    cases hsame

end Sshos.Shell.UpdateFile
