import Sshos.Lib.Decimal
import Sshos.Lib.Lists

/-!
# Sshos.Apps.ProcStat

The **processes of the monitor**, read in `/proc`. The name of a process is between parentheses
and may have anything in it, parentheses too: what follows it is looked for from the end of
the line.
-/

namespace Sshos.Apps

open Sshos.Lib (Bytes decimal digitByte num)

structure ProcInfo where
  pid : Int := 0
  name : Bytes := []
  /-- The time in user mode, and in the kernel. -/
  cpuTicks : UInt64 := 0
  rssPages : UInt64 := 0
  deriving Repr, DecidableEq

namespace ProcStat

def kOpen : UInt8 := 0x28
def kClose : UInt8 := 0x29
def kBlank : UInt8 := 0x20

def isDigit (c : UInt8) : Bool := 0x30 ≤ c ∧ c ≤ 0x39

/-- The numbers of a line from here on, a number being read or not. -/
def numbersFrom : Option UInt64 → Bytes → List UInt64
  | none, [] => []
  | some v, [] => [v]
  | none, c :: cs =>
      if isDigit c then numbersFrom (some (UInt64.ofNat (c.toNat - 0x30))) cs else numbersFrom none cs
  | some v, c :: cs =>
      if isDigit c then numbersFrom (some (v * 10 + UInt64.ofNat (c.toNat - 0x30))) cs
      else v :: numbersFrom none cs

/-- The numbers of a line, in order. What is no figure is passed over, signs too. -/
def numbersOf (s : Bytes) : List UInt64 := numbersFrom none s

/-- `string_view::rfind`. -/
def rfind (c : UInt8) (s : Bytes) : Option Nat := (s.reverse.idxOf? c).map fun i => s.length - 1 - i

/-- The narrowing to an `int`. -/
def toInt (v : UInt64) : Int := (v.toNat : Int).bmod (2 ^ 32)

/-- A line of `/proc/[pid]/stat`. -/
def parseProcessStat (text : Bytes) : Option ProcInfo :=
  match text.idxOf? kOpen, rfind kClose text with
  | some «open», some close =>
      if close < «open» then none
      else
        let head := numbersOf (text.take «open»)
        -- the state, then the fields from the fourth one on
        let tail := numbersOf (text.drop (close + 1))
        if head = [] then none
        else if tail.length < 21 then none
        else
          some {
            pid := toInt (head.getD 0 0)
            name := (text.drop («open» + 1)).take (close - «open» - 1)
            cpuTicks := tail.getD 10 0 + tail.getD 11 0
            rssPages := tail.getD 20 0 }
  | _, _ => none

/-! ### Numbers -/

theorem isDigit_digitByte {d : Nat} (hd : d < 10) :
    isDigit (digitByte d) = true ∧ (digitByte d).toNat - 0x30 = d := by
  obtain ⟨hlo, hhi, hval⟩ := Lib.digitByte_spec d hd
  refine ⟨decide_eq_true ⟨hlo, hhi⟩, ?_⟩
  omega

theorem isDigit_of_mem_decimal {n : Nat} {c : UInt8} (hc : c ∈ decimal n) : isDigit c = true :=
  decide_eq_true (Lib.decimal_digits c hc)

/-- A number is read to its last digit. -/
theorem numbersFrom_decimal (n : Nat) (rest : Bytes) :
    numbersFrom none (decimal n ++ rest) = numbersFrom (some (UInt64.ofNat n)) rest := by
  induction n using Nat.strongRecOn generalizing rest with
  | ind n ih =>
      by_cases hn : n < 10
      · obtain ⟨hdigit, hval⟩ := isDigit_digitByte hn
        rw [Lib.decimal_of_lt hn, List.singleton_append, numbersFrom, if_pos hdigit, hval]
      · obtain ⟨hdigit, hval⟩ := isDigit_digitByte (Nat.mod_lt n (by decide))
        rw [Lib.decimal_of_le (Nat.le_of_not_lt hn), List.append_assoc, ih (n / 10) (by omega),
          List.singleton_append, numbersFrom, if_pos hdigit, hval]
        have hsplit : n / 10 * 10 + n % 10 = n := Nat.div_add_mod' n 10
        conv_rhs => rw [← hsplit, UInt64.ofNat_add, UInt64.ofNat_mul]
        rfl

/-- What is no figure ends a number. -/
theorem numbersFrom_cons_of_not {c : UInt8} (hc : ¬ isDigit c = true) (v : UInt64) (rest : Bytes) :
    numbersFrom (some v) (c :: rest) = v :: numbersFrom none (c :: rest) := by
  rw [numbersFrom, if_neg hc, numbersFrom, if_neg hc]

/-! ### The line as the kernel writes it -/

/-- A field of the line, after a blank. -/
def field (v : Int) : Bytes := kBlank :: num v

/-- The fields from the fourth one on. -/
def fieldsText (fields : List Int) : Bytes := fields.flatMap field ++ [0x0A]

/-- What follows the name. -/
def tailText (state : UInt8) (fields : List Int) : Bytes := kBlank :: state :: fieldsText fields

def statLine (pid : Nat) (name : Bytes) (state : UInt8) (fields : List Int) : Bytes :=
  (decimal pid ++ [kBlank]) ++ kOpen :: (name ++ kClose :: tailText state fields)

/-- A state is a letter. -/
def IsLetter (c : UInt8) : Prop := (0x41 ≤ c ∧ c ≤ 0x5A) ∨ (0x61 ≤ c ∧ c ≤ 0x7A)

instance (c : UInt8) : Decidable (IsLetter c) := inferInstanceAs (Decidable (_ ∨ _))

theorem IsLetter.not_isDigit {c : UInt8} (h : IsLetter c) : ¬ isDigit c = true := by
  intro hdigit
  have hle : c.toNat ≤ 0x39 := UInt8.le_iff_toNat_le.1 (of_decide_eq_true hdigit).2
  rcases h with ⟨hlow, -⟩ | ⟨hlow, -⟩
  · exact absurd (Nat.le_trans (UInt8.le_iff_toNat_le.1 hlow) hle) (by decide)
  · exact absurd (Nat.le_trans (UInt8.le_iff_toNat_le.1 hlow) hle) (by decide)

theorem fieldsText_cons (v : Int) (fields : List Int) :
    fieldsText (v :: fields) = kBlank :: (num v ++ fieldsText fields) := by
  simp [fieldsText, field]

/-- The fields begin with a blank, or end the line. -/
theorem head_fieldsText (fields : List Int) :
    ∃ c rest, fieldsText fields = c :: rest ∧ ¬ isDigit c = true := by
  cases fields with
  | nil => exact ⟨0x0A, [], rfl, by decide⟩
  | cons v fields => exact ⟨kBlank, _, fieldsText_cons v fields, by decide⟩

/-- The sign of a number is passed over. -/
theorem numbersFrom_num (v : Int) (rest : Bytes) :
    numbersFrom none (num v ++ rest) = numbersFrom (some (UInt64.ofNat v.natAbs)) rest := by
  unfold num
  split
  · have hminus : ¬ isDigit 0x2D = true := by decide
    rw [List.cons_append, numbersFrom, if_neg hminus, numbersFrom_decimal]
  · rw [numbersFrom_decimal]

theorem numbersFrom_fieldsText (fields : List Int) :
    numbersFrom none (fieldsText fields) = fields.map fun v => UInt64.ofNat v.natAbs := by
  induction fields with
  | nil => rfl
  | cons v fields ih =>
      obtain ⟨c, rest, hrest, hc⟩ := head_fieldsText fields
      have hblank : ¬ isDigit kBlank = true := by decide
      rw [fieldsText_cons, numbersFrom, if_neg hblank, numbersFrom_num, hrest,
        numbersFrom_cons_of_not hc, ← hrest, ih, List.map_cons]

theorem numbersOf_tailText {state : UInt8} (hstate : ¬ isDigit state = true) (fields : List Int) :
    numbersOf (tailText state fields) = fields.map fun v => UInt64.ofNat v.natAbs := by
  have hblank : ¬ isDigit kBlank = true := by decide
  unfold numbersOf tailText
  rw [numbersFrom, if_neg hblank, numbersFrom, if_neg hstate, numbersFrom_fieldsText]

theorem numbersOf_head (pid : Nat) : numbersOf (decimal pid ++ [kBlank]) = [UInt64.ofNat pid] := by
  unfold numbersOf
  rw [numbersFrom_decimal]
  rfl

/-! ### The claim on a line -/

/-- What does not come back after a place is last found there. -/
theorem rfind_append_cons {c : UInt8} {r : Bytes} (h : c ∉ r) (l : Bytes) :
    rfind c (l ++ c :: r) = some l.length := by
  have hreverse : (l ++ c :: r).reverse = r.reverse ++ c :: l.reverse := by simp
  unfold rfind
  rw [hreverse, Lib.idxOf?_append_cons (mt List.mem_reverse.1 h), Option.map_some, List.length_append,
    List.length_cons, List.length_reverse]
  refine congrArg some ?_
  omega

theorem isDigit_or_of_mem_num {v : Int} : ∀ c ∈ num v, c = 0x2D ∨ isDigit c = true := by
  unfold num
  split
  · exact List.forall_mem_cons.2 ⟨.inl rfl, fun c hc => .inr (isDigit_of_mem_decimal hc)⟩
  · exact fun c hc => .inr (isDigit_of_mem_decimal hc)

/-- No parenthesis follows the name. -/
theorem close_not_mem_tailText {state : UInt8} (hstate : IsLetter state) (fields : List Int) :
    kClose ∉ tailText state fields := by
  have hletter : kClose ≠ state := by
    rintro rfl
    exact absurd hstate (by decide)
  have hfields : kClose ∉ fields.flatMap field := by
    rw [List.mem_flatMap]
    rintro ⟨v, -, hv⟩
    rcases List.mem_cons.1 hv with hblank | hnum
    · exact absurd hblank (by decide)
    · exact absurd (isDigit_or_of_mem_num _ hnum) (by decide)
  unfold tailText fieldsText
  simp only [List.mem_cons, List.mem_append, not_or, List.not_mem_nil, not_false_eq_true, and_true]
  exact ⟨by decide, hletter, hfields, by decide⟩

theorem idxOf?_open_statLine (pid : Nat) (name : Bytes) (state : UInt8) (fields : List Int) :
    (statLine pid name state fields).idxOf? kOpen = some (decimal pid ++ [kBlank]).length := by
  refine Lib.idxOf?_append_cons (fun hmem => ?_) _
  rcases List.mem_append.1 hmem with hpid | hblank
  · exact absurd (isDigit_of_mem_decimal hpid) (by decide)
  · exact absurd (List.mem_singleton.1 hblank) (by decide)

theorem rfind_close_statLine (pid : Nat) (name : Bytes) {state : UInt8} (hstate : IsLetter state)
    (fields : List Int) : rfind kClose (statLine pid name state fields) =
      some ((decimal pid ++ [kBlank]).length + 1 + name.length) := by
  have hsplit : statLine pid name state fields =
      ((decimal pid ++ [kBlank]) ++ kOpen :: name) ++ kClose :: tailText state fields := by
    simp [statLine]
  rw [hsplit, rfind_append_cons (close_not_mem_tailText hstate fields), List.length_append,
    List.length_cons]
  refine congrArg some ?_
  omega

/-- Field `n` of the line, the first being the pid and the third the state. -/
def lineField (fields : List Int) (n : Nat) : Option Int := fields[n - 4]?

theorem getD_map_ofNat {fields : List Int} {i v : Nat} (h : fields[i]? = some (v : Int)) :
    (fields.map fun v => UInt64.ofNat v.natAbs).getD i 0 = UInt64.ofNat v := by
  rw [List.getD_eq_getElem?_getD, List.getElem?_map, h]
  rfl

theorem toInt_ofNat {pid : Nat} (h : pid < 2 ^ 31) : toInt (UInt64.ofNat pid) = pid := by
  unfold toInt
  rw [UInt64.toNat_ofNat_of_lt' (Nat.lt_trans h (by decide))]
  exact Int.bmod_eq_of_le (by omega) (by omega)

/-- **A process line is read whatever the process is called.** -/
theorem parseProcessStat_statLine {pid : Nat} (name : Bytes) {state : UInt8} {fields : List Int}
    {utime stime rss : Nat} (hpid : pid < 2 ^ 31) (hstate : IsLetter state) (hlen : 21 ≤ fields.length)
    (hutime : lineField fields 14 = some (utime : Int)) (hstime : lineField fields 15 = some (stime : Int))
    (hrss : lineField fields 24 = some (rss : Int)) (hticks : utime + stime < 2 ^ 64)
    (hpages : rss < 2 ^ 64) :
    ∃ p, parseProcessStat (statLine pid name state fields) = some p ∧ p.pid = pid ∧ p.name = name ∧
      p.cpuTicks.toNat = utime + stime ∧ p.rssPages.toNat = rss := by
  have hhead : (statLine pid name state fields).take (decimal pid ++ [kBlank]).length =
      decimal pid ++ [kBlank] := List.take_left
  have hrest : (statLine pid name state fields).drop ((decimal pid ++ [kBlank]).length + 1) =
      name ++ kClose :: tailText state fields := by
    rw [← List.drop_drop]
    unfold statLine
    rw [List.drop_left]
    rfl
  have htail : (statLine pid name state fields).drop
      ((decimal pid ++ [kBlank]).length + 1 + name.length + 1) = tailText state fields := by
    rw [← List.drop_drop, ← List.drop_drop, hrest, List.drop_left]
    rfl
  have hlen' : ¬ (fields.map fun v => UInt64.ofNat v.natAbs).length < 21 := by
    rw [List.length_map]
    exact Nat.not_lt.2 hlen
  refine ⟨{ pid, name, cpuTicks := UInt64.ofNat utime + UInt64.ofNat stime, rssPages := UInt64.ofNat rss },
    ?_, rfl, rfl, ?_, ?_⟩
  · unfold parseProcessStat
    rw [idxOf?_open_statLine, rfind_close_statLine pid name hstate]
    simp only
    rw [if_neg (by omega), hhead, numbersOf_head, if_neg (List.cons_ne_nil _ _), htail,
      numbersOf_tailText hstate.not_isDigit, if_neg hlen', getD_map_ofNat hutime, getD_map_ofNat hstime,
      getD_map_ofNat hrss, hrest, List.getD_cons_zero, toInt_ofNat hpid]
    have hname : (decimal pid ++ [kBlank]).length + 1 + name.length -
        (decimal pid ++ [kBlank]).length - 1 = name.length := by omega
    rw [hname, List.take_left]
  · rw [← UInt64.ofNat_add]
    exact UInt64.toNat_ofNat_of_lt' hticks
  · exact UInt64.toNat_ofNat_of_lt' hpages

/-- A process called like a line of its own, with a negative field before the time. -/
theorem parseProcessStat_statLine_fake :
    ∃ p, parseProcessStat (statLine 42 [0x29, 0x20, 0x52, 0x20, 0x37] 0x53
        ([1, -1] ++ List.replicate 8 0 ++ [30, 12] ++ List.replicate 8 0 ++ [512])) = some p ∧
      p.pid = (42 : Nat) ∧ p.name = [0x29, 0x20, 0x52, 0x20, 0x37] ∧
      p.cpuTicks.toNat = 30 + 12 ∧ p.rssPages.toNat = 512 :=
  parseProcessStat_statLine _ (by decide) (by decide) (by decide) rfl rfl rfl (by decide) (by decide)

end ProcStat

end Sshos.Apps
