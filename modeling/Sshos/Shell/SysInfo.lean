import Sshos.Apps.ProcFiles
import Sshos.Lib.Sampling
import Mathlib.Data.List.Sort

/-!
# Sshos.Shell.SysInfo

The **monitor** on the desktop. The kernel only counts, from the start of the machine on: what it
counted is read at most once a second, and what is shown is told by the last two readings.
-/

namespace Sshos.Shell

open Sshos.Apps (CpuTimes MemInfo NetTotals ProcInfo)
open Sshos.Apps.ProcStat (CpuCounters IsOther IsOtherMem IsTitle MemCounters NetCounters capped cpuPercent isDigit
  loadavgText memText netTotals netdevText parseCpuTimes parseLoadavg parseMeminfo parseNetdev
  parseProcessStat statText)
open Sshos.Lib (Bytes kept run)

/-- A line of the list of processes. -/
structure ProcRow where
  pid : Int := 0
  name : Bytes := []
  cpuPercent : Nat := 0
  rssKb : UInt64 := 0
  deriving Repr, DecidableEq

/-- The busiest first, then by number. -/
def ProcRow.before (a b : ProcRow) : Bool :=
  if a.cpuPercent ≠ b.cpuPercent then decide (b.cpuPercent < a.cpuPercent) else decide (a.pid < b.pid)

/-- What is read in `/proc`. -/
structure ProcFs where
  stat : Bytes := []
  meminfo : Bytes := []
  loadavg : Bytes := []
  netdev : Bytes := []
  /-- The entries of the directory, and the file `stat` of each. -/
  entries : List (Bytes × Bytes) := []
  deriving Repr, DecidableEq

/-- A process has a directory named by a number. -/
def ProcFs.processes (fs : ProcFs) : List ProcInfo :=
  fs.entries.filterMap fun e =>
    match e.1 with
    | c :: _ => if isDigit c then parseProcessStat e.2 else none
    | [] => none

structure SysInfo where
  prevCpu : List CpuTimes := []
  prevProcs : List ProcInfo := []
  prevNet : NetTotals := {}
  sampled : Bool := false
  lastMs : Int := 0
  /-- The machine, then its cores. -/
  cores : List Nat := []
  mem : MemInfo := {}
  load : List Int := [0, 0, 0]
  rxPerS : UInt64 := 0
  txPerS : UInt64 := 0
  rows : List ProcRow := []
  deriving Repr, DecidableEq

namespace SysInfo

def kPeriodMs : Int := 1000

/-- The size of a page, `sysconf` failing or not. -/
def pageKb (pageSize : UInt64) : UInt64 := if pageSize / 1024 = 0 then 4 else pageSize / 1024

/-- What passes in a second; nothing if the counter went back. -/
def perSecond (before after : UInt64) (ms : Int) : UInt64 :=
  if before ≤ after then (after - before) * 1000 / UInt64.ofNat ms.toNat else 0

/-- The ticks of the whole machine between two samples. -/
def elapsed (prev cpu : List CpuTimes) : UInt64 :=
  match prev, cpu with
  | a :: _, b :: _ => if a.total < b.total then b.total - a.total else 0
  | _, _ => 0

def rowOf (pageSize : UInt64) (prev : List ProcInfo) (elapsed : UInt64) (p : ProcInfo) : ProcRow :=
  let r : ProcRow := { pid := p.pid, name := p.name, rssKb := p.rssPages * pageKb pageSize }
  match prev.find? (·.pid = p.pid) with
  | none => r
  | some q =>
      if 0 < elapsed ∧ q.cpuTicks ≤ p.cpuTicks then
        { r with cpuPercent := capped ((p.cpuTicks - q.cpuTicks) * 100 / elapsed) }
      else r

/-- One sample is not enough to tell what a counter does, nor are two of different machines. -/
def told (pageSize : UInt64) (s : SysInfo) (now : Int) (cpu : List CpuTimes) (net : NetTotals)
    (procs : List ProcInfo) : SysInfo :=
  let s := { s with cores := List.replicate cpu.length 0, rows := [], rxPerS := 0, txPerS := 0 }
  if s.sampled ∧ s.prevCpu.length = cpu.length then
    -- the time that has really passed, not that of a tick
    let ms := max 1 (now - s.lastMs)
    { s with
      cores := List.zipWith cpuPercent s.prevCpu cpu
      rxPerS := perSecond s.prevNet.rx net.rx ms
      txPerS := perSecond s.prevNet.tx net.tx ms
      rows := (procs.map (rowOf pageSize s.prevProcs (elapsed s.prevCpu cpu))).insertionSort
        fun a b => b.before a = false }
  else s

/-- A sample is taken. -/
def sample (pageSize : UInt64) (s : SysInfo) (now : Int) (stat meminfo loadavg netdev : Bytes)
    (procs : List ProcInfo) : SysInfo :=
  let cpu := parseCpuTimes stat
  let net := parseNetdev netdev
  { told pageSize s now cpu net procs with
    mem := parseMeminfo meminfo
    load := parseLoadavg loadavg
    prevCpu := cpu, prevProcs := procs, prevNet := net, lastMs := now, sampled := true }

/-- `SysInfo::apply`. -/
def apply (pageSize : UInt64) (s : SysInfo) (now : Int) (stat meminfo loadavg netdev : Bytes)
    (procs : List ProcInfo) : SysInfo :=
  if s.sampled ∧ now - s.lastMs < kPeriodMs then s
  else sample pageSize s now stat meminfo loadavg netdev procs

/-- `SysInfo::refresh`; the list of processes is not read for nothing. -/
def refresh (pageSize : UInt64) (s : SysInfo) (now : Int) (fs : ProcFs) : SysInfo :=
  if s.sampled ∧ now - s.lastMs < kPeriodMs then s
  else apply pageSize s now fs.stat fs.meminfo fs.loadavg fs.netdev fs.processes

end SysInfo

/-! ### The machine -/

/-- What a machine has counted at a moment. -/
structure Snapshot where
  whole : CpuCounters
  cores : List CpuCounters := []
  others : List Bytes := []
  mem : MemCounters := {}
  otherMem : List Bytes := []
  /-- The loads in hundredths, and what the file says of the tasks. -/
  one : Nat := 0
  five : Nat := 0
  fifteen : Nat := 0
  tasks : Bytes := []
  titles : List Bytes := []
  nets : List NetCounters := []
  entries : List (Bytes × Bytes) := []
  others_other : ∀ l ∈ others, IsOther l := by decide
  otherMem_other : ∀ l ∈ otherMem, IsOtherMem l := by decide
  titles_title : ∀ l ∈ titles, IsTitle l := by decide

namespace Snapshot

def files (m : Snapshot) : ProcFs where
  stat := statText m.whole m.cores m.others
  meminfo := memText m.mem m.otherMem
  loadavg := loadavgText m.one m.five m.fifteen m.tasks
  netdev := netdevText m.titles m.nets
  entries := m.entries

def cpus (m : Snapshot) : List CpuCounters := m.whole :: m.cores

def processes (m : Snapshot) : List ProcInfo := m.files.processes

def rx (m : Snapshot) : Nat := (netTotals m.nets).1

def tx (m : Snapshot) : Nat := (netTotals m.nets).2

/-- What is counted leaves the arithmetic of 64 bits room. -/
structure Fits (pageSize : UInt64) (m : Snapshot) : Prop where
  cpus : ∀ c ∈ m.cpus, c.total * 100 < 2 ^ 64
  rx : m.rx * 1000 < 2 ^ 64
  tx : m.tx * 1000 < 2 ^ 64
  mem : m.mem.total < 2 ^ 64 ∧ m.mem.usable < 2 ^ 64
  ticks : ∀ p ∈ m.processes, p.cpuTicks.toNat * 100 < 2 ^ 64
  pages : ∀ p ∈ m.processes, p.rssPages.toNat * (SysInfo.pageKb pageSize).toNat < 2 ^ 64

/-- The part that was used, out of a hundred. -/
def share (part whole : Nat) : Nat := min (part * 100 / whole) 100

theorem share_le (part whole : Nat) : share part whole ≤ 100 := Nat.min_le_right _ _

/-- The ticks of a process since an earlier moment; none if it was not there. -/
def ticksSince (m : Snapshot) (p : ProcInfo) : Nat :=
  match m.processes.find? (·.pid = p.pid) with
  | none => 0
  | some q => p.cpuTicks.toNat - q.cpuTicks.toNat

/-- What is to be said of a process: its number, its name, its part of the machine between two
moments, and its memory. -/
def line (pageSize : UInt64) (a b : Snapshot) (p : ProcInfo) : Int × Bytes × Nat × Nat :=
  (p.pid, p.name, share (a.ticksSince p) (b.whole.total - a.whole.total),
    p.rssPages.toNat * (SysInfo.pageKb pageSize).toNat)

end Snapshot

/-- What a row says. -/
def ProcRow.line (r : ProcRow) : Int × Bytes × Nat × Nat := (r.pid, r.name, r.cpuPercent, r.rssKb.toNat)

namespace SysInfo

open Snapshot (share share_le)

/-! ### Arithmetic -/

theorem capped_eq {part whole : UInt64} (h : part.toNat * 100 < 2 ^ 64) :
    capped (part * 100 / whole) = share part.toNat whole.toNat := by
  have hmul : (part * 100).toNat = part.toNat * 100 := by
    rw [UInt64.toNat_mul]
    exact Nat.mod_eq_of_lt h
  have hdiv : (part * 100 / whole).toNat = part.toNat * 100 / whole.toNat := by
    rw [UInt64.toNat_div, hmul]
  unfold capped share
  rw [← hdiv]
  split
  next hlt => exact (Nat.min_eq_right (Nat.le_of_lt (UInt64.lt_iff_toNat_lt.1 hlt))).symm
  next hle => exact (Nat.min_eq_left (UInt64.le_iff_toNat_le.1 (UInt64.not_lt.1 hle))).symm

/-- A counter that goes back gives nothing. -/
theorem cpuPercent_eq {before after : CpuTimes} (h : after.busy.toNat * 100 < 2 ^ 64) :
    cpuPercent before after =
      share (after.busy.toNat - before.busy.toNat) (after.total.toNat - before.total.toNat) := by
  unfold cpuPercent
  by_cases hback : after.total ≤ before.total ∨ after.busy < before.busy
  · rw [if_pos hback]
    unfold share
    rcases hback with htotal | hbusy
    · rw [Nat.sub_eq_zero_of_le (UInt64.le_iff_toNat_le.1 htotal), Nat.div_zero]
      rfl
    · rw [Nat.sub_eq_zero_of_le (Nat.le_of_lt (UInt64.lt_iff_toNat_lt.1 hbusy)), Nat.zero_mul, Nat.zero_div]
      rfl
  · rw [not_or, UInt64.not_le, UInt64.not_lt] at hback
    have htotal := UInt64.toNat_sub_of_le _ _ (UInt64.le_of_lt hback.1)
    have hbusy := UInt64.toNat_sub_of_le _ _ hback.2
    rw [if_neg (by rw [not_or, UInt64.not_le, UInt64.not_lt]; exact hback)]
    simp only
    rw [capped_eq (by omega), htotal, hbusy]

theorem toNat_perSecond {before after : UInt64} {ms : Int} (h : after.toNat * 1000 < 2 ^ 64)
    (hms : ms.toNat < 2 ^ 64) :
    (perSecond before after ms).toNat = (after.toNat - before.toNat) * 1000 / ms.toNat := by
  have hms' : (UInt64.ofNat ms.toNat).toNat = ms.toNat := UInt64.toNat_ofNat_of_lt' hms
  unfold perSecond
  split
  next hle =>
    have hsub := UInt64.toNat_sub_of_le _ _ hle
    have hmul : ((after - before) * 1000).toNat = (after.toNat - before.toNat) * 1000 := by
      have hroom : (after.toNat - before.toNat) * 1000 < 2 ^ 64 :=
        Nat.lt_of_le_of_lt (Nat.mul_le_mul_right 1000 (Nat.sub_le _ _)) h
      have hthousand : (1000 : UInt64).toNat = 1000 := by decide
      rw [UInt64.toNat_mul, hsub, hthousand, Nat.mod_eq_of_lt hroom]
    rw [UInt64.toNat_div, hmul, hms']
  next hback =>
    rw [UInt64.not_le] at hback
    rw [Nat.sub_eq_zero_of_le (Nat.le_of_lt (UInt64.lt_iff_toNat_lt.1 hback)), Nat.zero_mul, Nat.zero_div]
    rfl

/-! ### What is shown -/

/-- What the monitor is given at a moment. -/
def look (pageSize : UInt64) (s : SysInfo) (r : Int × Snapshot) : SysInfo := refresh pageSize s r.1 r.2.files

def take (pageSize : UInt64) (s : SysInfo) (r : Int × Snapshot) : SysInfo :=
  let fs := r.2.files
  sample pageSize s r.1 fs.stat fs.meminfo fs.loadavg fs.netdev fs.processes

/-- What a sample leaves for the next one. -/
structure Remembers (s : SysInfo) (r : Int × Snapshot) : Prop where
  sampled : s.sampled = true
  lastMs : s.lastMs = r.1
  cpu : s.prevCpu = r.2.cpus.map CpuCounters.times
  procs : s.prevProcs = r.2.processes
  net : s.prevNet = { rx := UInt64.ofNat r.2.rx, tx := UInt64.ofNat r.2.tx }

/-- What the machine counted is what is read of it. -/
theorem take_eq (pageSize : UInt64) (s : SysInfo) (r : Int × Snapshot) : take pageSize s r =
    { told pageSize s r.1 (r.2.cpus.map CpuCounters.times)
        { rx := UInt64.ofNat r.2.rx, tx := UInt64.ofNat r.2.tx } r.2.processes with
      mem := { totalKb := UInt64.ofNat r.2.mem.total, availableKb := UInt64.ofNat r.2.mem.usable }
      load := [(r.2.one : Int), r.2.five, r.2.fifteen]
      prevCpu := r.2.cpus.map CpuCounters.times, prevProcs := r.2.processes
      prevNet := { rx := UInt64.ofNat r.2.rx, tx := UInt64.ofNat r.2.tx }
      lastMs := r.1, sampled := true } := by
  have hcpu : parseCpuTimes r.2.files.stat = r.2.cpus.map CpuCounters.times :=
    Apps.ProcStat.parseCpuTimes_statText _ _ r.2.others_other
  have hnet : parseNetdev r.2.files.netdev = { rx := UInt64.ofNat r.2.rx, tx := UInt64.ofNat r.2.tx } :=
    Apps.ProcStat.parseNetdev_netdevText r.2.titles_title _
  have hmem : parseMeminfo r.2.files.meminfo =
      { totalKb := UInt64.ofNat r.2.mem.total, availableKb := UInt64.ofNat r.2.mem.usable } :=
    Apps.ProcStat.parseMeminfo_memText _ r.2.otherMem_other
  have hload : parseLoadavg r.2.files.loadavg = [(r.2.one : Int), r.2.five, r.2.fifteen] :=
    Apps.ProcStat.parseLoadavg_loadavgText _ _ _ _
  unfold take sample
  simp only
  rw [hcpu, hnet, hmem, hload]
  rfl

theorem remembers_take (pageSize : UInt64) (s : SysInfo) (r : Int × Snapshot) :
    Remembers (take pageSize s r) r := by
  rw [take_eq]
  exact { sampled := rfl, lastMs := rfl, cpu := rfl, procs := rfl, net := rfl }

/-- **Two samples of one machine** tell how busy it was, what passed, and who is to blame. -/
structure Tells (pageSize : UInt64) (a b : Int × Snapshot) (s : SysInfo) : Prop where
  cores : s.cores = List.zipWith (fun x y => share (y.busy - x.busy) (y.total - x.total)) a.2.cpus b.2.cpus
  rx : s.rxPerS.toNat = (b.2.rx - a.2.rx) * 1000 / (b.1 - a.1).toNat
  tx : s.txPerS.toNat = (b.2.tx - a.2.tx) * 1000 / (b.1 - a.1).toNat
  rows : (s.rows.map ProcRow.line).Perm (b.2.processes.map (Snapshot.line pageSize a.2 b.2))
  ordered : s.rows.Pairwise fun r r' => r'.before r = false

/-- One sample tells nothing of that, nor do two of different machines. -/
structure Mute (b : Int × Snapshot) (s : SysInfo) : Prop where
  cores : s.cores = List.replicate b.2.cpus.length 0
  rx : s.rxPerS = 0
  tx : s.txPerS = 0
  rows : s.rows = []

/-- What is shown after the sample `b`, with the one before it. -/
structure Shows (pageSize : UInt64) (earlier : Option (Int × Snapshot)) (b : Int × Snapshot)
    (s : SysInfo) : Prop where
  memory : s.mem.totalKb.toNat = b.2.mem.total ∧ s.mem.availableKb.toNat = b.2.mem.usable
  load : s.load = [(b.2.one : Int), b.2.five, b.2.fifteen]
  tells : ∀ a, earlier = some a → a.2.cpus.length = b.2.cpus.length → Tells pageSize a b s
  mute : (∀ a, earlier = some a → a.2.cpus.length ≠ b.2.cpus.length) → Mute b s

theorem toNat_times {c : CpuCounters} (h : c.total * 100 < 2 ^ 64) :
    c.times.busy.toNat = c.busy ∧ c.times.total.toNat = c.total := by
  have heq := c.total_eq
  have hbusy : c.busy < 2 ^ 64 := by omega
  have htotal : c.total < 2 ^ 64 := by omega
  exact ⟨UInt64.toNat_ofNat_of_lt' hbusy, UInt64.toNat_ofNat_of_lt' htotal⟩

theorem zipWith_times {xs ys : List CpuCounters} (hxs : ∀ c ∈ xs, c.total * 100 < 2 ^ 64)
    (hys : ∀ c ∈ ys, c.total * 100 < 2 ^ 64) :
    List.zipWith cpuPercent (xs.map CpuCounters.times) (ys.map CpuCounters.times) =
      List.zipWith (fun x y => share (y.busy - x.busy) (y.total - x.total)) xs ys := by
  induction xs generalizing ys with
  | nil => rfl
  | cons x xs ih =>
      cases ys with
      | nil => rfl
      | cons y ys =>
          rw [List.forall_mem_cons] at hxs hys
          obtain ⟨hxbusy, hxtotal⟩ := toNat_times hxs.1
          obtain ⟨hybusy, hytotal⟩ := toNat_times hys.1
          have heq := y.total_eq
          have hpercent := @cpuPercent_eq x.times y.times (by omega)
          rw [hxbusy, hxtotal, hybusy, hytotal] at hpercent
          rw [List.map_cons, List.map_cons, List.zipWith_cons_cons, List.zipWith_cons_cons, hpercent,
            ih hxs.2 hys.2]

variable {pageSize : UInt64}

theorem toNat_elapsed {a b : Snapshot} (ha : a.Fits pageSize) (hb : b.Fits pageSize) :
    (elapsed (a.cpus.map CpuCounters.times) (b.cpus.map CpuCounters.times)).toNat =
      b.whole.total - a.whole.total := by
  have hatotal := (toNat_times (ha.cpus a.whole List.mem_cons_self)).2
  have hbtotal := (toNat_times (hb.cpus b.whole List.mem_cons_self)).2
  unfold Snapshot.cpus elapsed
  rw [List.map_cons, List.map_cons]
  simp only
  split
  next hlt =>
    rw [UInt64.toNat_sub_of_le _ _ (UInt64.le_of_lt hlt), hatotal, hbtotal]
  next hle =>
    have hle' := UInt64.le_iff_toNat_le.1 (UInt64.not_lt.1 hle)
    rw [hatotal, hbtotal] at hle'
    rw [Nat.sub_eq_zero_of_le hle']
    rfl

theorem line_rowOf {a b : Snapshot} (ha : a.Fits pageSize) (hb : b.Fits pageSize) {p : ProcInfo}
    (hp : p ∈ b.processes) :
    (rowOf pageSize a.processes (elapsed (a.cpus.map CpuCounters.times) (b.cpus.map CpuCounters.times))
      p).line = Snapshot.line pageSize a b p := by
  have hrss : (p.rssPages * pageKb pageSize).toNat = p.rssPages.toNat * (pageKb pageSize).toNat := by
    rw [UInt64.toNat_mul]
    exact Nat.mod_eq_of_lt (hb.pages p hp)
  have helapsed := toNat_elapsed ha hb
  generalize elapsed _ _ = e at helapsed
  unfold rowOf Snapshot.line Snapshot.ticksSince ProcRow.line
  cases a.processes.find? (·.pid = p.pid) with
  | none =>
      simp only
      rw [hrss]
      unfold share
      rw [Nat.zero_mul, Nat.zero_div]
      rfl
  | some q =>
      simp only
      by_cases hticks : 0 < e ∧ q.cpuTicks ≤ p.cpuTicks
      · rw [if_pos hticks]
        have hsub := UInt64.toNat_sub_of_le _ _ hticks.2
        have hroom := hb.ticks p hp
        have hcapped := @capped_eq (p.cpuTicks - q.cpuTicks) e (by omega)
        simp only
        rw [hrss, hcapped, hsub, helapsed]
      · rw [if_neg hticks]
        simp only
        rw [hrss]
        have hzero : share (p.cpuTicks.toNat - q.cpuTicks.toNat) (b.whole.total - a.whole.total) = 0 := by
          rw [← helapsed]
          unfold share
          rw [not_and_or] at hticks
          rcases hticks with hstill | hback
          · have hnone : e.toNat = 0 := Nat.eq_zero_of_not_pos fun hpos =>
              hstill (UInt64.lt_iff_toNat_lt.2 hpos)
            rw [hnone, Nat.div_zero]
            rfl
          · rw [UInt64.not_le] at hback
            rw [Nat.sub_eq_zero_of_le (Nat.le_of_lt (UInt64.lt_iff_toNat_lt.1 hback)), Nat.zero_mul,
              Nat.zero_div]
            rfl
        rw [hzero]

theorem before_eq_false {r r' : ProcRow} : r'.before r = false ↔
    r'.cpuPercent < r.cpuPercent ∨ (r.cpuPercent = r'.cpuPercent ∧ r.pid ≤ r'.pid) := by
  unfold ProcRow.before
  split
  next hne =>
    rw [decide_eq_false_iff_not]
    omega
  next heq =>
    rw [decide_eq_false_iff_not]
    omega

instance : Std.Total fun r r' : ProcRow => r'.before r = false where
  total := by
    intro r r'
    rw [before_eq_false, before_eq_false]
    omega

instance : IsTrans ProcRow fun r r' => r'.before r = false where
  trans := by
    intro r r' r''
    rw [before_eq_false, before_eq_false, before_eq_false]
    omega

/-! ### Along the runs -/

/-- What a reading of these times and counts may be. -/
def Legal (pageSize : UInt64) (r : Int × Snapshot) : Prop :=
  (0 ≤ r.1 ∧ r.1 < 2 ^ 63) ∧ r.2.Fits pageSize

theorem memory_take (s : SysInfo) {b : Int × Snapshot} (hb : Legal pageSize b) :
    (take pageSize s b).mem.totalKb.toNat = b.2.mem.total ∧
      (take pageSize s b).mem.availableKb.toNat = b.2.mem.usable := by
  rw [take_eq]
  exact ⟨UInt64.toNat_ofNat_of_lt' hb.2.mem.1, UInt64.toNat_ofNat_of_lt' hb.2.mem.2⟩

theorem load_take (s : SysInfo) (b : Int × Snapshot) :
    (take pageSize s b).load = [(b.2.one : Int), b.2.five, b.2.fifteen] := by
  rw [take_eq]

theorem mute_take {s : SysInfo} {b : Int × Snapshot}
    (h : ¬ (s.sampled = true ∧ s.prevCpu.length = (b.2.cpus.map CpuCounters.times).length)) :
    Mute b (take pageSize s b) := by
  rw [take_eq]
  unfold told
  simp only
  rw [if_neg h]
  exact { cores := by rw [List.length_map], rx := rfl, tx := rfl, rows := rfl }

theorem tells_take {s : SysInfo} {a b : Int × Snapshot} (hs : Remembers s a) (ha : Legal pageSize a)
    (hb : Legal pageSize b) (hperiod : kPeriodMs ≤ b.1 - a.1)
    (hlen : a.2.cpus.length = b.2.cpus.length) : Tells pageSize a b (take pageSize s b) := by
  have hms : max 1 (b.1 - s.lastMs) = b.1 - a.1 := by
    rw [hs.lastMs]
    unfold kPeriodMs at hperiod
    omega
  have hroom : (b.1 - a.1).toNat < 2 ^ 64 := by
    obtain ⟨⟨hlow, -⟩, -⟩ := ha
    obtain ⟨⟨-, hhigh⟩, -⟩ := hb
    omega
  have hmet : s.sampled = true ∧ s.prevCpu.length = (b.2.cpus.map CpuCounters.times).length := by
    rw [hs.cpu, List.length_map, List.length_map]
    exact ⟨hs.sampled, hlen⟩
  have hsecond : ∀ {x y : Nat}, x * 1000 < 2 ^ 64 → y * 1000 < 2 ^ 64 →
      (perSecond (UInt64.ofNat x) (UInt64.ofNat y) (b.1 - a.1)).toNat =
        (y - x) * 1000 / (b.1 - a.1).toNat := by
    intro x y hx hy
    have hx' : (UInt64.ofNat x).toNat = x := UInt64.toNat_ofNat_of_lt' (Nat.lt_of_le_of_lt (by omega) hx)
    have hy' : (UInt64.ofNat y).toNat = y := UInt64.toNat_ofNat_of_lt' (Nat.lt_of_le_of_lt (by omega) hy)
    rw [toNat_perSecond (by rw [hy']; exact hy) hroom, hx', hy']
  rw [take_eq]
  unfold told
  simp only
  rw [if_pos hmet, hms, hs.cpu, hs.procs, hs.net]
  refine { cores := ?_, rx := ?_, tx := ?_, rows := ?_, ordered := ?_ }
  · exact zipWith_times ha.2.cpus hb.2.cpus
  · exact hsecond ha.2.rx hb.2.rx
  · exact hsecond ha.2.tx hb.2.tx
  · refine ((List.perm_insertionSort _ _).map ProcRow.line).trans ?_
    rw [List.map_map]
    refine List.Perm.of_eq (List.map_congr_left fun p hp => ?_)
    exact line_rowOf ha.2 hb.2 hp
  · exact List.pairwise_insertionSort _ _

theorem shows_take {s : SysInfo} {a b : Int × Snapshot} (hs : Remembers s a) (ha : Legal pageSize a)
    (hb : Legal pageSize b) (hperiod : kPeriodMs ≤ b.1 - a.1) :
    Shows pageSize (some a) b (take pageSize s b) where
  memory := memory_take s hb
  load := load_take s b
  tells := by
    intro a' ha' hlen
    obtain rfl := Option.some.inj ha'
    exact tells_take hs ha hb hperiod hlen
  mute := by
    intro hne
    refine mute_take fun hmet => hne a rfl ?_
    rw [hs.cpu, List.length_map, List.length_map] at hmet
    exact hmet.2

theorem shows_take_first {s : SysInfo} {b : Int × Snapshot} (hs : s.sampled = false)
    (hb : Legal pageSize b) : Shows pageSize none b (take pageSize s b) where
  memory := memory_take s hb
  load := load_take s b
  tells := fun a ha => absurd ha (by simp)
  mute := fun _ => mute_take fun hmet => by rw [hs] at hmet; exact absurd hmet.1 (by decide)

/-- When the last sample was taken. -/
def lastTaken (s : SysInfo) : Option Int := if s.sampled then some s.lastMs else none

theorem look_of_recent {s : SysInfo} {r : Int × Snapshot} {t : Int} (hlast : s.lastTaken = some t)
    (hrecent : r.1 - t < kPeriodMs) : look pageSize s r = s := by
  have hmet : s.sampled = true ∧ s.lastMs = t := by
    unfold lastTaken at hlast
    split at hlast
    next hsampled => exact ⟨hsampled, Option.some.inj hlast⟩
    next => exact absurd hlast (by simp)
  exact if_pos ⟨hmet.1, hmet.2 ▸ hrecent⟩

theorem look_of_due {s : SysInfo} {r : Int × Snapshot}
    (hdue : ∀ t, s.lastTaken = some t → kPeriodMs ≤ r.1 - t) : look pageSize s r = take pageSize s r := by
  have hnot : ¬ (s.sampled = true ∧ r.1 - s.lastMs < kPeriodMs) := by
    rintro ⟨hsampled, hrecent⟩
    have hfar := hdue s.lastMs (if_pos hsampled)
    omega
  unfold look refresh apply
  rw [if_neg hnot, if_neg hnot]
  rfl

theorem lastTaken_take (s : SysInfo) (r : Int × Snapshot) : (take pageSize s r).lastTaken = some r.1 := by
  have hrem := remembers_take pageSize s r
  unfold lastTaken
  rw [if_pos hrem.sampled, hrem.lastMs]

/-- After the samples that were taken, what they tell is shown. -/
theorem shows_run_take {before : List (Int × Snapshot)} {b : Int × Snapshot}
    (hlegal : ∀ r ∈ before ++ [b], Legal pageSize r)
    (hchain : (before ++ [b]).IsChain fun x y => kPeriodMs ≤ y.1 - x.1) :
    Shows pageSize before.getLast? b (run (take pageSize) {} (before ++ [b])) := by
  have hb : Legal pageSize b := hlegal b (by simp)
  rw [Lib.run_append, Lib.run_cons, Lib.run_nil]
  rcases List.eq_nil_or_concat before with rfl | ⟨earlier, a, rfl⟩
  · exact shows_take_first rfl hb
  · have ha : Legal pageSize a := hlegal a (by simp)
    have hperiod : kPeriodMs ≤ b.1 - a.1 :=
      (List.isChain_append.1 hchain).2.2 a (by simp) b (by simp)
    rw [List.concat_eq_append] at hchain ⊢
    rw [List.getLast?_concat, Lib.run_append, Lib.run_cons, Lib.run_nil]
    exact shows_take (remembers_take pageSize _ a) ha hb hperiod

theorem Shows.cores_le {earlier : Option (Int × Snapshot)} {b : Int × Snapshot} {s : SysInfo}
    (h : Shows pageSize earlier b s) : ∀ c ∈ s.cores, c ≤ 100 := by
  by_cases htells : ∃ a, earlier = some a ∧ a.2.cpus.length = b.2.cpus.length
  · obtain ⟨a, ha, hlen⟩ := htells
    rw [(h.tells a ha hlen).cores, List.zipWith_eq_zipWith_take_min, ← List.map_uncurry_zip_eq_zipWith]
    refine List.forall_mem_map.2 fun xy _ => share_le _ _
  · have hmute : Mute b s := h.mute fun a ha hlen => htells ⟨a, ha, hlen⟩
    rw [hmute.cores]
    intro c hc
    rw [List.eq_of_mem_replicate hc]
    exact Nat.zero_le 100

theorem Shows.percent_le {earlier : Option (Int × Snapshot)} {b : Int × Snapshot} {s : SysInfo}
    (h : Shows pageSize earlier b s) : ∀ row ∈ s.rows, row.cpuPercent ≤ 100 := by
  by_cases htells : ∃ a, earlier = some a ∧ a.2.cpus.length = b.2.cpus.length
  · obtain ⟨a, ha, hlen⟩ := htells
    intro row hrow
    have hmem := (h.tells a ha hlen).rows.mem_iff.1 (List.mem_map_of_mem hrow)
    obtain ⟨p, -, hp⟩ := List.mem_map.1 hmem
    have hpercent : share (a.2.ticksSince p) (b.2.whole.total - a.2.whole.total) = row.cpuPercent :=
      congrArg (fun l => l.2.2.1) hp
    exact hpercent ▸ share_le _ _
  · have hmute : Mute b s := h.mute fun a ha hlen => htells ⟨a, ha, hlen⟩
    rw [hmute.rows]
    exact List.forall_mem_nil _

/-- **The monitor.** Among the readings there are samples, a second apart at least, the last one
less than a second old; what is shown is what the last two of them tell. -/
structure Monitored (pageSize : UInt64) (readings : List (Int × Snapshot)) (now : Int)
    (before : List (Int × Snapshot)) (b : Int × Snapshot) (s : SysInfo) : Prop where
  samples : (before ++ [b]).Sublist readings
  apart : (before ++ [b]).IsChain fun x y => kPeriodMs ≤ y.1 - x.1
  recent : now - b.1 < kPeriodMs
  shows : Shows pageSize before.getLast? b s
  hundred : (∀ c ∈ s.cores, c ≤ 100) ∧ ∀ row ∈ s.rows, row.cpuPercent ≤ 100

/-- **What the machine did in the last second is what the monitor shows**, whenever it looks. -/
theorem monitor_shows (pageSize : UInt64) (earlier : List (Int × Snapshot)) (r : Int × Snapshot)
    (hlegal : ∀ x ∈ earlier ++ [r], Legal pageSize x) :
    ∃ before b,
      Monitored pageSize (earlier ++ [r]) r.1 before b (run (look pageSize) {} (earlier ++ [r])) := by
  obtain ⟨before, b, hkept, hrecent⟩ := Lib.kept_recent (by decide : 0 < kPeriodMs) earlier r
  have hrun : run (look pageSize) {} (earlier ++ [r]) = run (take pageSize) {} (before ++ [b]) := by
    rw [← hkept]
    exact (Lib.run_kept (fun s r t => look_of_recent) (fun s r => look_of_due) lastTaken_take rfl _).1
  have hsub : (before ++ [b]).Sublist (earlier ++ [r]) := hkept ▸ Lib.kept_sublist _
  have hchain : (before ++ [b]).IsChain fun x y => kPeriodMs ≤ y.1 - x.1 := hkept ▸ Lib.isChain_kept _
  have hshows := shows_run_take (fun x hx => hlegal x (hsub.subset hx)) hchain
  rw [hrun]
  exact ⟨before, b, hsub, hchain, hrecent, hshows, hshows.cores_le, hshows.percent_le⟩

/-- The entry of the process 7, with these ticks in user mode. -/
def processSeven (utime : UInt8) : Bytes × Bytes :=
  ([0x37], [0x37, 0x20, 0x28, 0x61, 0x29, 0x20, 0x52] ++
    ([0, 0, 0, 0, 0, 0, 0, 0, 0, 0, utime, 2, 0, 0, 0, 0, 0, 0, 0, 0, 3] : Bytes).flatMap
      fun d => [0x20, 0x30 + d])

/-- A machine of one core, at rest. -/
def quiet : Snapshot where
  whole := { user := 10, idle := 90 }
  cores := [{ user := 10, idle := 90 }]
  mem := { total := 1000, free := 400 }
  nets := [{ name := [0x65, 0x74, 0x68, 0x30], rx := 100, plain := by decide }]
  entries := [processSeven 1, ([0x61], [])]

/-- The same at work. -/
def atWork : Snapshot where
  whole := { user := 60, idle := 140 }
  cores := [{ user := 60, idle := 140 }]
  mem := { total := 1000, free := 300, available := some 500 }
  nets := [{ name := [0x65, 0x74, 0x68, 0x30], rx := 8100, plain := by decide }]
  entries := [processSeven 9, ([0x61], [])]

theorem totals_quiet : netTotals quiet.nets = (100, 0) ∧ netTotals atWork.nets = (8100, 0) := by
  unfold netTotals NetCounters.counted
  rw [Apps.ProcStat.text_lo]
  exact ⟨rfl, rfl⟩

theorem monitor_shows_work : ∃ before b,
    Monitored 4096 ([(0, quiet), (500, atWork)] ++ [(2000, atWork)]) 2000 before b
      (run (look 4096) {} ([(0, quiet), (500, atWork)] ++ [(2000, atWork)])) := by
  obtain ⟨hquiet, hwork⟩ := totals_quiet
  have hfits : quiet.Fits 4096 ∧ atWork.Fits 4096 := by
    refine ⟨{ cpus := by decide, rx := ?_, tx := ?_, mem := by decide, ticks := by decide, pages := by decide },
      { cpus := by decide, rx := ?_, tx := ?_, mem := by decide, ticks := by decide, pages := by decide }⟩
    · rw [Snapshot.rx, hquiet]
      decide
    · rw [Snapshot.tx, hquiet]
      decide
    · rw [Snapshot.rx, hwork]
      decide
    · rw [Snapshot.tx, hwork]
      decide
  refine monitor_shows 4096 [(0, quiet), (500, atWork)] (2000, atWork) ?_
  rw [List.forall_mem_append, List.forall_mem_cons, List.forall_mem_singleton, List.forall_mem_singleton]
  exact ⟨⟨⟨by decide, hfits.1⟩, ⟨by decide, hfits.2⟩⟩, ⟨by decide, hfits.2⟩⟩

end SysInfo

end Sshos.Shell
