import Sshos.Apps.ProcStat
import Sshos.Lib.Lines
import Sshos.Shell.Modal

/-!
# Sshos.Apps.ProcFiles

The **counters of the machine**, read in `/proc`: the processors, the memory, the load and the
interfaces. The kernel has a way of its own to write each; what it counts is what is read.
-/

namespace Sshos.Apps

open Sshos.Lib (Bytes decimal digitByte lines unlines)
open Sshos.Shell (text)

/-- What a processor has done since the machine was started. -/
structure CpuTimes where
  busy : UInt64 := 0
  total : UInt64 := 0
  deriving Repr, DecidableEq

structure MemInfo where
  totalKb : UInt64 := 0
  availableKb : UInt64 := 0
  deriving Repr, DecidableEq

/-- What has passed through the interfaces since the machine was started. -/
structure NetTotals where
  rx : UInt64 := 0
  tx : UInt64 := 0
  deriving Repr, DecidableEq

namespace ProcStat

def kNewline : UInt8 := 0x0A
def kColon : UInt8 := 0x3A
def kPoint : UInt8 := 0x2E
def kTab : UInt8 := 0x09

def linesOf (t : Bytes) : List Bytes := lines kNewline t

/-- A line of `/proc/stat`. The name of a core has a figure in it: the numbers are those after
the first blank. -/
def cpuTimesOf (l : Bytes) : Option CpuTimes :=
  if l.take 3 ≠ text "cpu" then none
  else
    match l.idxOf? kBlank with
    | none => none
    | some sp =>
        let n := numbersOf (l.drop sp)
        if n.length < 5 then none
        else
          let total := n.foldl (· + ·) 0
          -- the fourth number is what it rested, and the fifth what it waited
          some { busy := total - n.getD 3 0 - n.getD 4 0, total }

def parseCpuTimes (t : Bytes) : List CpuTimes := (linesOf t).filterMap cpuTimesOf

/-- A percentage, which counters that do not agree could push too far. -/
def capped (v : UInt64) : Nat := if 100 < v then 100 else v.toNat

/-- What was busy between two samples, out of a hundred. -/
def cpuPercent (before after : CpuTimes) : Nat :=
  if after.total ≤ before.total ∨ after.busy < before.busy then 0
  else
    let elapsed := after.total - before.total
    let busy := after.busy - before.busy
    capped (busy * 100 / elapsed)

def memTotal : Bytes := text "MemTotal:"
def memFree : Bytes := text "MemFree:"
def memAvailable : Bytes := text "MemAvailable:"

/-- `/proc/meminfo` as far as it was read. -/
structure MemRead where
  mem : MemInfo := {}
  freeKb : UInt64 := 0
  sawAvailable : Bool := false
  deriving Repr, DecidableEq

def MemRead.line (m : MemRead) (l : Bytes) : MemRead :=
  match numbersOf l with
  | [] => m
  | v :: _ =>
      let m := if l.take 9 = memTotal then { m with mem.totalKb := v } else m
      let m := if l.take 8 = memFree then { m with freeKb := v } else m
      if l.take 13 = memAvailable then { m with mem.availableKb := v, sawAvailable := true } else m

def parseMeminfo (t : Bytes) : MemInfo :=
  let m := (linesOf t).foldl MemRead.line {}
  -- an old kernel does not tell what is available
  if m.sawAvailable then m.mem else { m.mem with availableKb := m.freeKb }

def digitValue (c : UInt8) : Int := (c.toNat : Int) - 0x30

/-- The two decimals that follow a point; what they lack is zero. -/
def fraction : Nat → Int → Bytes → Int × Bytes
  | 0, frac, s => (frac, s)
  | d + 1, frac, s =>
      match s with
      | c :: cs => if isDigit c then fraction d (frac * 10 + digitValue c) cs else fraction d (frac * 10) s
      | [] => fraction d (frac * 10) []

/-- A load in hundredths, and what follows it. -/
def loadOf (s : Bytes) : Option (Int × Bytes) :=
  let s := s.dropWhile fun c => c = kBlank ∨ c = kTab
  let digits := s.takeWhile isDigit
  if digits = [] then none
  else
    let whole := digits.foldl (fun v c => v * 10 + digitValue c) 0
    match s.dropWhile isDigit with
    | c :: cs =>
        if c = kPoint then
          let f := fraction 2 0 cs
          some (whole * 100 + f.1, f.2.dropWhile isDigit)
        else some (whole * 100, c :: cs)
    | [] => some (whole * 100, [])

/-- The next loads; those that cannot be read are zero. -/
def loadsOf : Nat → Bytes → List Int
  | 0, _ => []
  | k + 1, s =>
      match loadOf s with
      | none => List.replicate (k + 1) 0
      | some (v, rest) => v :: loadsOf k rest

def parseLoadavg (t : Bytes) : List Int := loadsOf 3 t

/-- A line of `/proc/net/dev`: what was received, and what was sent. -/
def netLine (l : Bytes) : Option (UInt64 × UInt64) :=
  match l.idxOf? kColon with
  | none => none
  | some colon =>
      if (l.take colon).dropWhile (· = kBlank) = text "lo" then none
      else
        let n := numbersOf (l.drop (colon + 1))
        if n.length < 9 then none else some (n.getD 0 0, n.getD 8 0)

def addLine (t : NetTotals) (l : Bytes) : NetTotals :=
  match netLine l with
  | none => t
  | some (rx, tx) => { rx := t.rx + rx, tx := t.tx + tx }

def parseNetdev (t : Bytes) : NetTotals := (linesOf t).foldl addLine {}

/-! ### Numbers in columns -/

theorem numbersOf_append_of_not {l : Bytes} (h : ∀ c ∈ l, ¬ isDigit c = true) (rest : Bytes) :
    numbersOf (l ++ rest) = numbersOf rest := by
  induction l with
  | nil => rfl
  | cons c l ih =>
      rw [List.forall_mem_cons] at h
      unfold numbersOf at ih ⊢
      rw [List.cons_append, numbersFrom, if_neg h.1, ih h.2]

/-- A number, on `width` columns at least, after a blank. -/
def column (width v : Nat) : Bytes :=
  kBlank :: (List.replicate (width - (decimal v).length) kBlank ++ decimal v)

def columns (cs : List (Nat × Nat)) : Bytes := cs.flatMap fun c => column c.1 c.2

/-- What cannot go on with a number. -/
def EndsNumber (s : Bytes) : Prop := s.head?.any isDigit = false

instance (s : Bytes) : Decidable (EndsNumber s) := inferInstanceAs (Decidable (_ = _))

theorem numbersFrom_some_of_ends {s : Bytes} (h : EndsNumber s) (v : UInt64) :
    numbersFrom (some v) s = v :: numbersFrom none s := by
  cases s with
  | nil => rfl
  | cons c s =>
      have hc : isDigit c = false := h
      exact numbersFrom_cons_of_not (by rw [hc]; decide) v s

theorem endsNumber_columns (cs : List (Nat × Nat)) {rest : Bytes} (h : EndsNumber rest) :
    EndsNumber (columns cs ++ rest) := by
  cases cs with
  | nil => exact h
  | cons c cs => exact (by decide : isDigit kBlank = false)

theorem numbersOf_column (width v : Nat) {rest : Bytes} (h : EndsNumber rest) :
    numbersOf (column width v ++ rest) = UInt64.ofNat v :: numbersOf rest := by
  have hpad : ∀ c ∈ kBlank :: List.replicate (width - (decimal v).length) kBlank,
      ¬ isDigit c = true := by
    intro c hc
    have hblank : c = kBlank := by
      rcases List.mem_cons.1 hc with hhead | htail
      · exact hhead
      · exact List.eq_of_mem_replicate htail
    rw [hblank]
    decide
  have hsplit : column width v ++ rest =
      (kBlank :: List.replicate (width - (decimal v).length) kBlank) ++ (decimal v ++ rest) := by
    simp [column]
  rw [hsplit, numbersOf_append_of_not hpad]
  unfold numbersOf
  rw [numbersFrom_decimal, numbersFrom_some_of_ends h]

/-- **Numbers in columns are read** in order. -/
theorem numbersOf_columns (cs : List (Nat × Nat)) {rest : Bytes} (h : EndsNumber rest) :
    numbersOf (columns cs ++ rest) = cs.map (fun c => UInt64.ofNat c.2) ++ numbersOf rest := by
  induction cs with
  | nil => rfl
  | cons c cs ih =>
      have hsplit : columns (c :: cs) ++ rest = column c.1 c.2 ++ (columns cs ++ rest) := by
        simp [columns]
      rw [hsplit, numbersOf_column _ _ (endsNumber_columns cs h), ih]
      rfl

theorem foldl_add_map_ofNat (ns : List Nat) (v : Nat) :
    (ns.map UInt64.ofNat).foldl (· + ·) (UInt64.ofNat v) = UInt64.ofNat (v + ns.sum) := by
  induction ns generalizing v with
  | nil => rfl
  | cons n ns ih =>
      rw [List.map_cons, List.foldl_cons, ← UInt64.ofNat_add, ih, List.sum_cons, Nat.add_assoc]

/-! ### Processors -/

/-- What the kernel counts of a processor, in ticks. -/
structure CpuCounters where
  user : Nat := 0
  nice : Nat := 0
  system : Nat := 0
  idle : Nat := 0
  iowait : Nat := 0
  /-- The interrupts, and what a host took. -/
  more : List Nat := []
  deriving Repr, DecidableEq

namespace CpuCounters

def fields (c : CpuCounters) : List Nat := [c.user, c.nice, c.system, c.idle, c.iowait] ++ c.more

def total (c : CpuCounters) : Nat := c.fields.sum

/-- Neither its rest nor its waits. -/
def busy (c : CpuCounters) : Nat := c.user + c.nice + c.system + c.more.sum

theorem total_eq (c : CpuCounters) : c.total = c.busy + c.idle + c.iowait := by
  unfold total fields busy
  rw [List.sum_append]
  simp only [List.sum_cons, List.sum_nil]
  omega

/-- What is read of it. -/
def times (c : CpuCounters) : CpuTimes := { busy := UInt64.ofNat c.busy, total := UInt64.ofNat c.total }

end CpuCounters

/-- The machine as a whole, or one of its cores. -/
def cpuName : Option Nat → Bytes
  | none => text "cpu" ++ [kBlank]
  | some core => text "cpu" ++ decimal core

def cpuLine (name : Option Nat) (c : CpuCounters) : Bytes :=
  cpuName name ++ columns (c.fields.map fun v => (0, v))

theorem text_cpu : text "cpu" = [0x63, 0x70, 0x75] := by
  rw [show "cpu" = String.ofList ['c', 'p', 'u'] from rfl, Shell.text_ofList]
  decide

theorem numbersOf_fields (c : CpuCounters) :
    numbersOf (columns (c.fields.map fun v => (0, v))) = c.fields.map UInt64.ofNat := by
  have hread := @numbersOf_columns (c.fields.map fun v => (0, v)) [] (by decide)
  rw [List.append_nil, List.map_map] at hread
  rw [hread]
  exact List.append_nil _

/-- After the name of the line come its counters. -/
theorem drop_cpuLine (name : Option Nat) (c : CpuCounters) :
    ∃ sp, (cpuLine name c).idxOf? kBlank = some sp ∧
      numbersOf ((cpuLine name c).drop sp) = c.fields.map UInt64.ofNat := by
  have hcpu : kBlank ∉ text "cpu" := by
    rw [text_cpu]
    decide
  obtain ⟨rest, hrest⟩ : ∃ rest, columns (c.fields.map fun v => (0, v)) = kBlank :: rest := ⟨_, rfl⟩
  cases name with
  | none =>
      have hline : cpuLine none c = text "cpu" ++ kBlank :: columns (c.fields.map fun v => (0, v)) := by
        simp [cpuLine, cpuName]
      have hblank : ∀ b ∈ [kBlank], ¬ isDigit b = true := by
        intro b hb
        rw [List.mem_singleton.1 hb]
        decide
      rw [hline, Lib.idxOf?_append_cons hcpu]
      refine ⟨_, rfl, ?_⟩
      rw [List.drop_left, ← List.singleton_append, numbersOf_append_of_not hblank, numbersOf_fields]
  | some core =>
      have hcore : kBlank ∉ text "cpu" ++ decimal core := by
        rw [List.mem_append, not_or]
        exact ⟨hcpu, fun hmem => absurd (isDigit_of_mem_decimal hmem) (by decide)⟩
      have hline : cpuLine (some core) c =
          (text "cpu" ++ decimal core) ++ columns (c.fields.map fun v => (0, v)) := rfl
      refine ⟨(text "cpu" ++ decimal core).length, ?_, ?_⟩
      · rw [hline, hrest, Lib.idxOf?_append_cons hcore]
      · rw [hline, List.drop_left, numbersOf_fields]

/-- **What the kernel counts of a processor is what is read.** -/
theorem cpuTimesOf_cpuLine (name : Option Nat) (c : CpuCounters) :
    cpuTimesOf (cpuLine name c) = some c.times := by
  obtain ⟨sp, hsp, hnumbers⟩ := drop_cpuLine name c
  have hcpu : (cpuLine name c).take 3 = text "cpu" := by
    have hlen : (text "cpu").length = 3 := by
      rw [text_cpu]
      rfl
    have hline : ∃ rest, cpuLine name c = text "cpu" ++ rest := by
      cases name <;> exact ⟨_, List.append_assoc _ _ _⟩
    obtain ⟨rest, hrest⟩ := hline
    rw [hrest, ← hlen, List.take_left]
  have hlen : ¬ (c.fields.map UInt64.ofNat).length < 5 := by
    simp [CpuCounters.fields]
  have hidle : (c.fields.map UInt64.ofNat).getD 3 0 = UInt64.ofNat c.idle := rfl
  have hiowait : (c.fields.map UInt64.ofNat).getD 4 0 = UInt64.ofNat c.iowait := rfl
  have htotal : (c.fields.map UInt64.ofNat).foldl (· + ·) 0 = UInt64.ofNat c.total := by
    have hsum := foldl_add_map_ofNat c.fields 0
    rw [Nat.zero_add] at hsum
    exact hsum
  have heq := c.total_eq
  have hbusy : UInt64.ofNat c.total - UInt64.ofNat c.idle - UInt64.ofNat c.iowait =
      UInt64.ofNat c.busy := by
    rw [← UInt64.ofNat_sub (by omega), ← UInt64.ofNat_sub (by omega)]
    exact congrArg UInt64.ofNat (by omega)
  unfold cpuTimesOf
  rw [if_neg (not_not_intro hcpu), hsp]
  simp only
  rw [hnumbers, if_neg hlen, htotal, hidle, hiowait, hbusy]
  rfl

/-- A line of `/proc/stat` that counts something else: interrupts, processes. -/
def IsOther (l : Bytes) : Prop := kNewline ∉ l ∧ l.take 3 ≠ text "cpu"

instance (l : Bytes) : Decidable (IsOther l) := inferInstanceAs (Decidable (_ ∧ _))

/-- `/proc/stat`: the machine, its cores, and the rest. -/
def statText (whole : CpuCounters) (cores : List CpuCounters) (others : List Bytes) : Bytes :=
  unlines kNewline (cpuLine none whole :: cores.mapIdx (fun i c => cpuLine (some i) c) ++ others)

theorem newline_not_mem_columns (cs : List (Nat × Nat)) : kNewline ∉ columns cs := by
  intro hmem
  obtain ⟨c, -, hc⟩ := List.mem_flatMap.1 hmem
  unfold column at hc
  rw [List.mem_cons, List.mem_append] at hc
  rcases hc with hblank | hpad | hdecimal
  · exact absurd hblank (by decide)
  · exact absurd (List.eq_of_mem_replicate hpad) (by decide)
  · exact absurd (isDigit_of_mem_decimal hdecimal) (by decide)

theorem newline_not_mem_cpuLine (name : Option Nat) (c : CpuCounters) : kNewline ∉ cpuLine name c := by
  have hcpu : kNewline ∉ text "cpu" := by
    rw [text_cpu]
    decide
  unfold cpuLine
  rw [List.mem_append, not_or]
  refine ⟨?_, newline_not_mem_columns _⟩
  cases name with
  | none =>
      rw [cpuName, List.mem_append, not_or]
      exact ⟨hcpu, by decide⟩
  | some core =>
      rw [cpuName, List.mem_append, not_or]
      exact ⟨hcpu, fun hmem => absurd (isDigit_of_mem_decimal hmem) (by decide)⟩

theorem linesOf_unlines {ls : List Bytes} (h : ∀ l ∈ ls, kNewline ∉ l) :
    linesOf (unlines kNewline ls) = ls := by
  have hread := Lib.lines_unlines h []
  rw [List.append_nil, Lib.lines_nil, List.append_nil] at hread
  exact hread

theorem filterMap_mapIdx {α β γ : Type} {f : Nat → α → β} {g : β → Option γ} {h : α → γ}
    (hread : ∀ i a, g (f i a) = some (h a)) (l : List α) : (l.mapIdx f).filterMap g = l.map h := by
  induction l generalizing f with
  | nil => rfl
  | cons a l ih =>
      rw [List.mapIdx_cons, List.filterMap_cons_some (hread 0 a), List.map_cons,
        ih fun i b => hread (i + 1) b]

theorem parseCpuTimes_statText (whole : CpuCounters) (cores : List CpuCounters) {others : List Bytes}
    (h : ∀ l ∈ others, IsOther l) :
    parseCpuTimes (statText whole cores others) = (whole :: cores).map CpuCounters.times := by
  have hlines : ∀ l ∈ cpuLine none whole :: cores.mapIdx (fun i c => cpuLine (some i) c) ++ others,
      kNewline ∉ l := by
    intro l hl
    rcases List.mem_append.1 hl with hcpu | hother
    · rcases List.mem_cons.1 hcpu with rfl | hcore
      · exact newline_not_mem_cpuLine _ _
      · obtain ⟨i, hi, rfl⟩ := List.mem_mapIdx.1 hcore
        exact newline_not_mem_cpuLine _ _
    · exact (h l hother).1
  have hothers : others.filterMap cpuTimesOf = [] := by
    refine List.filterMap_eq_nil_iff.2 fun l hl => ?_
    exact if_pos (h l hl).2
  unfold parseCpuTimes statText
  rw [linesOf_unlines hlines, List.filterMap_append, hothers, List.append_nil,
    List.filterMap_cons_some (cpuTimesOf_cpuLine none whole),
    filterMap_mapIdx fun i c => cpuTimesOf_cpuLine (some i) c]
  rfl

/-! ### Memory -/

/-- A line of `/proc/meminfo`. -/
def memLine (label : Bytes) (v : Nat) : Bytes :=
  label ++ List.replicate (15 - label.length) kBlank ++ (column 8 v ++ text " kB")

theorem memTotal_eq : memTotal = [0x4D, 0x65, 0x6D, 0x54, 0x6F, 0x74, 0x61, 0x6C] ++ [kColon] := by
  unfold memTotal
  rw [show "MemTotal:" = String.ofList ['M', 'e', 'm', 'T', 'o', 't', 'a', 'l', ':'] from rfl,
    Shell.text_ofList]
  decide

theorem memFree_eq : memFree = [0x4D, 0x65, 0x6D, 0x46, 0x72, 0x65, 0x65] ++ [kColon] := by
  unfold memFree
  rw [show "MemFree:" = String.ofList ['M', 'e', 'm', 'F', 'r', 'e', 'e', ':'] from rfl, Shell.text_ofList]
  decide

theorem memAvailable_eq : memAvailable =
    [0x4D, 0x65, 0x6D, 0x41, 0x76, 0x61, 0x69, 0x6C, 0x61, 0x62, 0x6C, 0x65] ++ [kColon] := by
  unfold memAvailable
  rw [show "MemAvailable:" =
      String.ofList ['M', 'e', 'm', 'A', 'v', 'a', 'i', 'l', 'a', 'b', 'l', 'e', ':'] from rfl,
    Shell.text_ofList]
  decide

theorem text_kB : text " kB" = [0x20, 0x6B, 0x42] := by
  rw [show " kB" = String.ofList [' ', 'k', 'B'] from rfl, Shell.text_ofList]
  decide

theorem numbersOf_memLine {label : Bytes} (h : ∀ c ∈ label, ¬ isDigit c = true) (v : Nat) :
    numbersOf (memLine label v) = [UInt64.ofNat v] := by
  have hpad : ∀ c ∈ label ++ List.replicate (15 - label.length) kBlank, ¬ isDigit c = true := by
    intro c hc
    rcases List.mem_append.1 hc with hlabel | hblank
    · exact h c hlabel
    · rw [List.eq_of_mem_replicate hblank]
      decide
  unfold memLine
  rw [numbersOf_append_of_not hpad, text_kB, numbersOf_column _ _ (by decide)]
  rfl

/-- A line of `/proc/meminfo` that the monitor has no use for. -/
def IsOtherMem (l : Bytes) : Prop :=
  kNewline ∉ l ∧ l.take 9 ≠ memTotal ∧ l.take 8 ≠ memFree ∧ l.take 13 ≠ memAvailable

instance (l : Bytes) : Decidable (IsOtherMem l) := inferInstanceAs (Decidable (_ ∧ _ ∧ _ ∧ _))

/-- What the kernel counts of the memory; an old one does not tell what is available. -/
structure MemCounters where
  total : Nat := 0
  free : Nat := 0
  available : Option Nat := none
  deriving Repr, DecidableEq

/-- What there is for a program that asks for memory. -/
def MemCounters.usable (m : MemCounters) : Nat := m.available.getD m.free

def MemCounters.lines (m : MemCounters) : List Bytes :=
  [memLine memTotal m.total, memLine memFree m.free] ++ (m.available.map (memLine memAvailable)).toList

/-- `/proc/meminfo`. -/
def memText (m : MemCounters) (others : List Bytes) : Bytes := unlines kNewline (m.lines ++ others)

theorem MemRead.line_other {l : Bytes} (h : IsOtherMem l) (m : MemRead) : m.line l = m := by
  obtain ⟨-, htotal, hfree, havailable⟩ := h
  unfold MemRead.line
  split
  · rfl
  · simp only
    rw [if_neg havailable, if_neg hfree, if_neg htotal]

/-- A line says where its label ends. -/
theorem colon_of_take {l name : Bytes} {n : Nat} (hname : kColon ∉ name)
    (h : l.take n = name ++ [kColon]) : l.idxOf? kColon = some name.length := by
  have hsplit : l = name ++ kColon :: l.drop n :=
    calc l = l.take n ++ l.drop n := (List.take_append_drop n l).symm
      _ = name ++ kColon :: l.drop n := by
          rw [h, List.append_assoc]
          rfl
  rw [hsplit]
  exact Lib.idxOf?_append_cons hname _

theorem take_memLine {name : Bytes} {n : Nat} (hn : name.length + 1 = n) (v : Nat) :
    (memLine (name ++ [kColon]) v).take n = name ++ [kColon] := by
  have hlen : (name ++ [kColon]).length = n := by
    rw [List.length_append]
    exact hn
  unfold memLine
  rw [List.append_assoc, ← hlen, List.take_left]

/-- No label begins another. -/
theorem take_memLine_ne {name other : Bytes} (hname : kColon ∉ name) (hother : kColon ∉ other)
    (hlen : name.length ≠ other.length) (v n : Nat) :
    (memLine (name ++ [kColon]) v).take n ≠ other ++ [kColon] := by
  intro heq
  have hfirst := colon_of_take hname (take_memLine rfl v)
  rw [colon_of_take hother heq] at hfirst
  exact hlen (Option.some.inj hfirst).symm

theorem MemRead.line_memTotal (v : Nat) (m : MemRead) :
    m.line (memLine memTotal v) = { m with mem.totalKb := UInt64.ofNat v } := by
  have htotal : (memLine memTotal v).take 9 = memTotal := by
    rw [memTotal_eq]
    exact take_memLine (by decide) v
  have hfree : (memLine memTotal v).take 8 ≠ memFree := by
    rw [memTotal_eq, memFree_eq]
    exact take_memLine_ne (by decide) (by decide) (by decide) v 8
  have havailable : (memLine memTotal v).take 13 ≠ memAvailable := by
    rw [memTotal_eq, memAvailable_eq]
    exact take_memLine_ne (by decide) (by decide) (by decide) v 13
  unfold MemRead.line
  rw [numbersOf_memLine (List.any_eq_false.1 (by rw [memTotal_eq]; decide))]
  simp only
  rw [if_pos htotal, if_neg hfree, if_neg havailable]

theorem MemRead.line_memFree (v : Nat) (m : MemRead) :
    m.line (memLine memFree v) = { m with freeKb := UInt64.ofNat v } := by
  have htotal : (memLine memFree v).take 9 ≠ memTotal := by
    rw [memTotal_eq, memFree_eq]
    exact take_memLine_ne (by decide) (by decide) (by decide) v 9
  have hfree : (memLine memFree v).take 8 = memFree := by
    rw [memFree_eq]
    exact take_memLine (by decide) v
  have havailable : (memLine memFree v).take 13 ≠ memAvailable := by
    rw [memFree_eq, memAvailable_eq]
    exact take_memLine_ne (by decide) (by decide) (by decide) v 13
  unfold MemRead.line
  rw [numbersOf_memLine (List.any_eq_false.1 (by rw [memFree_eq]; decide))]
  simp only
  rw [if_neg htotal, if_pos hfree, if_neg havailable]

theorem MemRead.line_memAvailable (v : Nat) (m : MemRead) :
    m.line (memLine memAvailable v) =
      { m with mem.availableKb := UInt64.ofNat v, sawAvailable := true } := by
  have htotal : (memLine memAvailable v).take 9 ≠ memTotal := by
    rw [memTotal_eq, memAvailable_eq]
    exact take_memLine_ne (by decide) (by decide) (by decide) v 9
  have hfree : (memLine memAvailable v).take 8 ≠ memFree := by
    rw [memFree_eq, memAvailable_eq]
    exact take_memLine_ne (by decide) (by decide) (by decide) v 8
  have havailable : (memLine memAvailable v).take 13 = memAvailable := by
    rw [memAvailable_eq]
    exact take_memLine (by decide) v
  unfold MemRead.line
  rw [numbersOf_memLine (List.any_eq_false.1 (by rw [memAvailable_eq]; decide))]
  simp only
  rw [if_neg htotal, if_neg hfree, if_pos havailable]

theorem foldl_line_others {others : List Bytes} (h : ∀ l ∈ others, IsOtherMem l) (m : MemRead) :
    others.foldl MemRead.line m = m := by
  induction others generalizing m with
  | nil => rfl
  | cons l others ih =>
      rw [List.forall_mem_cons] at h
      rw [List.foldl_cons, MemRead.line_other h.1, ih h.2]

theorem newline_not_mem_memLine {label : Bytes} (h : kNewline ∉ label) (v : Nat) :
    kNewline ∉ memLine label v := by
  have hcolumn : kNewline ∉ column 8 v := by
    have hcolumns := newline_not_mem_columns [(8, v)]
    rwa [show columns [(8, v)] = column 8 v from List.append_nil _] at hcolumns
  unfold memLine
  simp only [List.mem_append, not_or]
  refine ⟨⟨h, fun hmem => ?_⟩, hcolumn, ?_⟩
  · exact absurd (List.eq_of_mem_replicate hmem) (by decide)
  · rw [text_kB]
    decide

theorem newline_not_mem_lines (m : MemCounters) : ∀ l ∈ m.lines, kNewline ∉ l := by
  have htotal : kNewline ∉ memLine memTotal m.total :=
    newline_not_mem_memLine (by rw [memTotal_eq]; decide) _
  have hfree : kNewline ∉ memLine memFree m.free :=
    newline_not_mem_memLine (by rw [memFree_eq]; decide) _
  unfold MemCounters.lines
  rw [List.forall_mem_append, List.forall_mem_cons, List.forall_mem_singleton]
  refine ⟨⟨htotal, hfree⟩, ?_⟩
  cases m.available with
  | none => exact List.forall_mem_nil _
  | some v =>
      rw [Option.map_some, Option.toList_some, List.forall_mem_singleton]
      exact newline_not_mem_memLine (by rw [memAvailable_eq]; decide) v

/-- **The memory is read**, and what a program may ask for is known whatever the kernel. -/
theorem parseMeminfo_memText (m : MemCounters) {others : List Bytes} (h : ∀ l ∈ others, IsOtherMem l) :
    parseMeminfo (memText m others) =
      { totalKb := UInt64.ofNat m.total, availableKb := UInt64.ofNat m.usable } := by
  have hlines : ∀ l ∈ m.lines ++ others, kNewline ∉ l := by
    rw [List.forall_mem_append]
    exact ⟨newline_not_mem_lines m, fun l hl => (h l hl).1⟩
  unfold parseMeminfo memText
  rw [linesOf_unlines hlines, List.foldl_append, foldl_line_others h]
  unfold MemCounters.lines MemCounters.usable
  rw [List.foldl_append, List.foldl_cons, List.foldl_cons, List.foldl_nil, MemRead.line_memTotal,
    MemRead.line_memFree]
  cases m.available with
  | none => rfl
  | some v =>
      rw [Option.map_some, Option.toList_some, List.foldl_cons, List.foldl_nil, MemRead.line_memAvailable]
      rfl

/-! ### Load -/

/-- A load of so many hundredths. -/
def loadText (h : Nat) : Bytes :=
  decimal (h / 100) ++ [kPoint, digitByte (h / 10 % 10), digitByte (h % 10)]

/-- `/proc/loadavg`: the three loads, then the processes. -/
def loadavgText (one five fifteen : Nat) (rest : Bytes) : Bytes :=
  loadText one ++ kBlank :: (loadText five ++ kBlank :: (loadText fifteen ++ kBlank :: rest))

theorem digitValue_digitByte {d : Nat} (hd : d < 10) : digitValue (digitByte d) = d := by
  obtain ⟨-, -, hval⟩ := Lib.digitByte_spec d hd
  unfold digitValue
  omega

theorem foldl_digitValue (n : Nat) : (decimal n).foldl (fun v c => v * 10 + digitValue c) 0 = (n : Int) := by
  refine Lib.foldl_decimal (P := fun v t => t = (v : Int)) (fun d hd => ?_) (fun v t d hd ht => ?_) n
  · rw [digitValue_digitByte hd]
    omega
  · rw [digitValue_digitByte hd, ht]
    omega

/-- The figures of a number, up to what is none. -/
theorem span_decimal (n : Nat) {c : UInt8} (hc : ¬ isDigit c = true) (rest : Bytes) :
    (decimal n ++ c :: rest).takeWhile isDigit = decimal n ∧
      (decimal n ++ c :: rest).dropWhile isDigit = c :: rest := by
  have hdigits : ∀ b ∈ decimal n, isDigit b = true := fun b => isDigit_of_mem_decimal
  constructor
  · rw [List.takeWhile_append_of_pos hdigits, List.takeWhile_cons_of_neg hc, List.append_nil]
  · rw [List.dropWhile_append_of_pos hdigits, List.dropWhile_cons_of_neg hc]

theorem fraction_two {a b : Nat} (ha : a < 10) (hb : b < 10) (rest : Bytes) :
    fraction 2 0 (digitByte a :: digitByte b :: rest) = (((a * 10 + b : Nat) : Int), rest) := by
  simp only [fraction, (isDigit_digitByte ha).1, (isDigit_digitByte hb).1, if_true,
    digitValue_digitByte ha, digitValue_digitByte hb]
  refine Prod.ext ?_ rfl
  simp only
  omega

theorem loadOf_loadText (pad h : Nat) (rest : Bytes) :
    loadOf (List.replicate pad kBlank ++ (loadText h ++ kBlank :: rest)) = some ((h : Int), kBlank :: rest) := by
  have hblank : ¬ isDigit kBlank = true := by decide
  have hpoint : ¬ isDigit kPoint = true := by decide
  have htext : loadText h ++ kBlank :: rest =
      decimal (h / 100) ++ kPoint :: digitByte (h / 10 % 10) :: digitByte (h % 10) :: kBlank :: rest := by
    simp [loadText]
  have hskip : (List.replicate pad kBlank ++ (loadText h ++ kBlank :: rest)).dropWhile
      (fun c => c = kBlank ∨ c = kTab) = loadText h ++ kBlank :: rest := by
    rw [List.dropWhile_append_of_pos fun c hc => by simp [List.eq_of_mem_replicate hc], htext]
    obtain ⟨c, cs, hcs⟩ := List.exists_cons_of_ne_nil (Lib.decimal_ne_nil (h / 100))
    have hc : isDigit c = true := isDigit_of_mem_decimal (hcs ▸ List.mem_cons_self)
    rw [hcs, List.cons_append, List.dropWhile_cons_of_neg]
    simp only [decide_eq_true_eq, not_or]
    constructor
    · rintro rfl
      exact hblank hc
    · rintro rfl
      exact absurd hc (by decide)
  obtain ⟨htake, hdrop⟩ := span_decimal (h / 100) hpoint
    (digitByte (h / 10 % 10) :: digitByte (h % 10) :: kBlank :: rest)
  unfold loadOf
  rw [hskip, htext]
  simp only
  rw [htake, hdrop, if_neg (Lib.decimal_ne_nil _)]
  simp only [if_true]
  rw [fraction_two (Nat.mod_lt _ (by decide)) (Nat.mod_lt _ (by decide)), foldl_digitValue]
  refine congrArg some (Prod.ext ?_ ?_)
  · simp only
    omega
  · exact List.dropWhile_cons_of_neg hblank

/-- **The loads are read**, in hundredths. -/
theorem parseLoadavg_loadavgText (one five fifteen : Nat) (rest : Bytes) :
    parseLoadavg (loadavgText one five fifteen rest) = [(one : Int), five, fifteen] := by
  have hone := loadOf_loadText 0 one (loadText five ++ kBlank :: (loadText fifteen ++ kBlank :: rest))
  have hfive := loadOf_loadText 1 five (loadText fifteen ++ kBlank :: rest)
  have hfifteen := loadOf_loadText 1 fifteen rest
  rw [List.replicate_zero, List.nil_append] at hone
  rw [List.replicate_one, List.singleton_append] at hfive hfifteen
  unfold parseLoadavg loadavgText
  simp only [loadsOf, hone, hfive, hfifteen]

/-! ### Interfaces -/

/-- What the kernel counts of an interface: eight numbers for what comes in, eight for what
goes out. -/
structure NetCounters where
  name : Bytes
  rx : Nat := 0
  rxMore : List Nat := List.replicate 7 0
  tx : Nat := 0
  txMore : List Nat := List.replicate 7 0
  seven : rxMore.length = 7 ∧ txMore.length = 7 := by decide
  /-- The kernel takes no name with one of these. -/
  plain : kBlank ∉ name ∧ kColon ∉ name ∧ kNewline ∉ name

namespace NetCounters

def values (i : NetCounters) : List Nat := i.rx :: i.rxMore ++ i.tx :: i.txMore

def widths : List Nat := [7, 7, 4, 4, 4, 5, 10, 9, 8, 7, 4, 4, 4, 5, 7, 10]

/-- What loops in the machine is not counted. -/
def counted (i : NetCounters) : Bool := i.name ≠ text "lo"

theorem length_values (i : NetCounters) : i.values.length = 16 := by
  obtain ⟨hrx, htx⟩ := i.seven
  unfold values
  rw [List.length_append, List.length_cons, List.length_cons, hrx, htx]

theorem getD_values (i : NetCounters) :
    (i.values.map UInt64.ofNat).getD 0 0 = UInt64.ofNat i.rx ∧
      (i.values.map UInt64.ofNat).getD 8 0 = UInt64.ofNat i.tx := by
  refine ⟨rfl, ?_⟩
  have hlen : (i.rx :: i.rxMore).length = 8 := by rw [List.length_cons, i.seven.1]
  have hget : i.values[8]? = some i.tx := by
    unfold values
    rw [List.getElem?_append_right (by omega), hlen]
    rfl
  rw [List.getD_eq_getElem?_getD, List.getElem?_map, hget]
  rfl

end NetCounters

theorem text_lo : text "lo" = [0x6C, 0x6F] := by
  rw [show "lo" = String.ofList ['l', 'o'] from rfl, Shell.text_ofList]
  decide

/-- A line of `/proc/net/dev`. -/
def netText (i : NetCounters) : Bytes :=
  (List.replicate (6 - i.name.length) kBlank ++ i.name) ++
    kColon :: columns (NetCounters.widths.zip i.values)

/-- `/proc/net/dev`: two lines of titles, then the interfaces. -/
def netdevText (titles : List Bytes) (nets : List NetCounters) : Bytes :=
  unlines kNewline (titles ++ nets.map netText)

def IsTitle (l : Bytes) : Prop := kNewline ∉ l ∧ kColon ∉ l

instance (l : Bytes) : Decidable (IsTitle l) := inferInstanceAs (Decidable (_ ∧ _))

theorem netLine_netText (i : NetCounters) :
    netLine (netText i) = if i.counted then some (UInt64.ofNat i.rx, UInt64.ofNat i.tx) else none := by
  obtain ⟨hblank, hcolon, -⟩ := i.plain
  have hhead : kColon ∉ List.replicate (6 - i.name.length) kBlank ++ i.name := by
    rw [List.mem_append, not_or]
    exact ⟨fun hmem => absurd (List.eq_of_mem_replicate hmem) (by decide), hcolon⟩
  have hname : (List.replicate (6 - i.name.length) kBlank ++ i.name).dropWhile (· = kBlank) = i.name := by
    rw [List.dropWhile_append_of_pos fun c hc => by simp [List.eq_of_mem_replicate hc]]
    cases hcase : i.name with
    | nil => rfl
    | cons c cs =>
        rw [hcase] at hblank
        refine List.dropWhile_cons_of_neg ?_
        rw [decide_eq_true_eq]
        exact fun heq => hblank (heq ▸ List.mem_cons_self)
  have hvalues : (NetCounters.widths.zip i.values).map (fun c => UInt64.ofNat c.2) =
      i.values.map UInt64.ofNat := by
    have hsnd : (NetCounters.widths.zip i.values).map Prod.snd = i.values :=
      List.map_snd_zip (by rw [i.length_values]; decide)
    calc (NetCounters.widths.zip i.values).map (fun c => UInt64.ofNat c.2)
        = ((NetCounters.widths.zip i.values).map Prod.snd).map UInt64.ofNat := by
          rw [List.map_map]
          rfl
      _ = i.values.map UInt64.ofNat := by rw [hsnd]
  have hnumbers := @numbersOf_columns (NetCounters.widths.zip i.values) [] (by decide)
  rw [List.append_nil, hvalues, show numbersOf [] = [] from rfl, List.append_nil] at hnumbers
  unfold netLine netText
  rw [Lib.idxOf?_append_cons hhead]
  simp only
  rw [List.take_left, hname, ← List.drop_drop, List.drop_left, List.drop_one, List.tail_cons, hnumbers,
    i.getD_values.1, i.getD_values.2, List.length_map, i.length_values, if_neg (by decide : ¬ 16 < 9)]
  unfold NetCounters.counted
  by_cases hlo : i.name = text "lo"
  · rw [if_pos hlo, if_neg]
    simpa using hlo
  · rw [if_neg hlo, if_pos]
    simpa using hlo

theorem netLine_of_isTitle {l : Bytes} (h : IsTitle l) : netLine l = none := by
  have hnone : l.idxOf? kColon = none := List.idxOf?_eq_none_iff.2 h.2
  unfold netLine
  rw [hnone]

theorem newline_not_mem_netText (i : NetCounters) : kNewline ∉ netText i := by
  unfold netText
  rw [List.mem_append, List.mem_append, List.mem_cons, not_or, not_or, not_or]
  refine ⟨⟨fun hmem => ?_, i.plain.2.2⟩, by decide, newline_not_mem_columns _⟩
  exact absurd (List.eq_of_mem_replicate hmem) (by decide)

/-- What the interfaces together have received, and sent. -/
def netTotals (nets : List NetCounters) : Nat × Nat :=
  (((nets.filter (·.counted)).map (·.rx)).sum, ((nets.filter (·.counted)).map (·.tx)).sum)

theorem foldl_addLine_netText (nets : List NetCounters) (rx tx : Nat) :
    (nets.map netText).foldl addLine { rx := UInt64.ofNat rx, tx := UInt64.ofNat tx } =
      { rx := UInt64.ofNat (rx + (netTotals nets).1), tx := UInt64.ofNat (tx + (netTotals nets).2) } := by
  induction nets generalizing rx tx with
  | nil => rfl
  | cons i nets ih =>
      rw [List.map_cons, List.foldl_cons]
      unfold addLine
      rw [netLine_netText]
      unfold netTotals at ih ⊢
      by_cases hi : i.counted = true
      · rw [if_pos hi, List.filter_cons_of_pos hi]
        simp only [List.map_cons, List.sum_cons]
        rw [← UInt64.ofNat_add, ← UInt64.ofNat_add, ← Nat.add_assoc, ← Nat.add_assoc]
        exact ih (rx + i.rx) (tx + i.tx)
      · rw [if_neg hi, List.filter_cons_of_neg hi]
        exact ih rx tx

/-- **What the interfaces have carried is read**, without what loops in the machine. -/
theorem parseNetdev_netdevText {titles : List Bytes} (h : ∀ l ∈ titles, IsTitle l)
    (nets : List NetCounters) :
    parseNetdev (netdevText titles nets) =
      { rx := UInt64.ofNat (netTotals nets).1, tx := UInt64.ofNat (netTotals nets).2 } := by
  have hlines : ∀ l ∈ titles ++ nets.map netText, kNewline ∉ l := by
    rw [List.forall_mem_append, List.forall_mem_map]
    exact ⟨fun l hl => (h l hl).1, fun i _ => newline_not_mem_netText i⟩
  have htitles : ∀ (titles : List Bytes), (∀ l ∈ titles, IsTitle l) → ∀ t : NetTotals,
      titles.foldl addLine t = t := by
    intro titles htitles t
    induction titles with
    | nil => rfl
    | cons l titles ih =>
        rw [List.forall_mem_cons] at htitles
        have hkeep : addLine t l = t := by
          unfold addLine
          rw [netLine_of_isTitle htitles.1]
        rw [List.foldl_cons, hkeep, ih htitles.2]
  have hnets := foldl_addLine_netText nets 0 0
  rw [Nat.zero_add, Nat.zero_add] at hnets
  unfold parseNetdev netdevText
  rw [linesOf_unlines hlines, List.foldl_append, htitles titles h]
  exact hnets

end ProcStat

end Sshos.Apps
