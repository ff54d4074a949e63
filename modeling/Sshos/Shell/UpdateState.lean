import Mathlib.Data.List.DropRight
import Sshos.Lib.Lines
import Sshos.Shell.UpdateService

/-!
# Sshos.Shell.UpdateState

The **state of the update**, as the scripts write it and the daemon reads it: one key a line,
the first line of a key has the last word, and a value that cannot be read is the default of
its field. The daemon never writes this file.
-/

namespace Sshos.Shell

open Sshos.Lib (Bytes not_mem_of_mem_splitOn)

/-- All that is read of the file. -/
structure FileState extends UpdateState where
  source : Bytes := []
  previousCommit : Bytes := []
  checkedAt : Int := 0
  pid : Int := -1
  deriving DecidableEq

namespace UpdateFile

def kMaxStateBytes : Nat := 4096
def kMaxStateMessageBytes : Nat := 200
def kUpdateStateSchema : Int := 1
def kMaxUpdateNotes : Nat := 6
def kMaxUpdateNoteChars : Nat := 76

/-! ### Values -/

def isSpace (c : UInt8) : Bool := c = 0x20 ∨ c = 0x09 ∨ c = 0x0D

def trim (s : Bytes) : Bytes := (s.dropWhile isSpace).rdropWhile isSpace

def isDigit (c : UInt8) : Bool := 0x30 ≤ c ∧ c ≤ 0x39

/-- The digits of a number, `v` being what was read of it; `none` on anything else, or when
the number does not fit. -/
def readDigits : Bytes → (v : Nat) → Option Nat
  | [], v => some v
  | c :: cs, v =>
      if ¬ isDigit c then none
      else
        let d := c.toNat - 0x30
        -- checked before the product, which could overflow
        if v > (9223372036854775807 - d) / 10 then none else readDigits cs (v * 10 + d)

def readInt64 (s : Bytes) : Option Int :=
  match s with
  | [] => none
  | c :: cs =>
      if c = 0x2D ∨ c = 0x2B then
        if cs = [] then none
        else if c = 0x2D then (readDigits cs 0).map fun v => -(v : Int)
        else (readDigits cs 0).map fun v => (v : Int)
      else (readDigits (c :: cs) 0).map fun v => (v : Int)

/-- A version is drawn: figures and points, and not many. -/
def cleanVersion (s : Bytes) : Bytes :=
  if s = [] ∨ s.length > 12 then []
  else if s.all fun c => isDigit c || c == 0x2E then s
  else []

def readStatus (s : Bytes) : Option UpdateStatus :=
  [(text "idle", .idle), (text "checking", .checking), (text "applying", .applying),
    (text "up-to-date", .upToDate), (text "available", .available),
    (text "restart-pending", .restartPending), (text "check-failed", .checkFailed),
    (text "apply-failed", .applyFailed), (text "history-rewritten", .historyRewritten),
    (text "updates-disabled", .updatesDisabled)].lookup s

/-- A byte of a note: it is drawn, and a control could drive the screen. -/
def isInert (c : UInt8) : Bool := 0x20 ≤ c ∧ c ≠ 0x7F

def cleanNote (v : Bytes) : Bytes :=
  let out := v.filter isInert
  if out.length > kMaxUpdateNoteChars then
    -- back to the start of a character
    (out.take kMaxUpdateNoteChars).rdropWhile fun c => c &&& 0xC0 = 0x80
  else out

/-- The figures of an index, `n` being what was read of it; 0 is no index. -/
def indexDigits : Bytes → (n : Nat) → Nat
  | [], n => n
  | c :: cs, n =>
      if ¬ isDigit c then 0
      else
        let n := n * 10 + (c.toNat - 0x30)
        if n > 10000 then 0 else indexDigits cs n

def kNotePrefix : Bytes := text "note_"

/-- `note_12` is 12. -/
def noteIndex (key : Bytes) : Nat :=
  if key.length ≤ kNotePrefix.length ∨ key.take kNotePrefix.length ≠ kNotePrefix then 0
  else indexDigits (key.drop kNotePrefix.length) 0

/-- The narrowing to the 32 bits of a `pid_t`. -/
def toPid (v : Int) : Int := v.bmod (2 ^ 32)

/-! ### Keys -/

inductive FileKey where
  | schema | pathPrefix | source | installedCommit | previousCommit | remoteCommit
  | installedVersion | remoteVersion | commitsAhead | checkedAt | status | restartPending | pid
  | stage | progress | message
  | note (n : Nat)
  deriving DecidableEq

def kKeys : List (Bytes × FileKey) :=
  [(text "schema", .schema), (text "prefix", .pathPrefix), (text "source", .source),
    (text "installed_commit", .installedCommit), (text "previous_commit", .previousCommit),
    (text "remote_commit", .remoteCommit), (text "installed_version", .installedVersion),
    (text "remote_version", .remoteVersion), (text "commits_ahead", .commitsAhead),
    (text "checked_at", .checkedAt), (text "status", .status),
    (text "restart_pending", .restartPending), (text "pid", .pid), (text "stage", .stage),
    (text "progress", .progress), (text "message", .message)]

/-- The field a key is about. The other keys are let pass. -/
def readKey (key : Bytes) : Option FileKey :=
  match kKeys.lookup key with
  | some k => some k
  | none => if noteIndex key ≠ 0 then some (.note (noteIndex key)) else none

/-! ### Lines -/

/-- What the lines read so far have left. -/
structure Scan where
  seen : List Bytes := []
  schemaOk : Bool := false
  sawRestartPending : Bool := false
  parsed : FileState := {}
  notes : List (Nat × Bytes) := []
  deriving DecidableEq

namespace Scan

/-- Give a key its value, the first time it is met. -/
def set (now : Int) (s : Scan) (key : FileKey) (value : Bytes) : Scan :=
  match key with
  | .schema => { s with schemaOk := readInt64 value = some kUpdateStateSchema }
  | .pathPrefix => { s with parsed.pathPrefix := value }
  | .source => { s with parsed.source := value }
  | .installedCommit => { s with parsed.installedCommit := value }
  | .previousCommit => { s with parsed.previousCommit := value }
  | .remoteCommit => { s with parsed.remoteCommit := value }
  | .installedVersion => { s with parsed.installedVersion := cleanVersion value }
  | .remoteVersion => { s with parsed.remoteVersion := cleanVersion value }
  | .commitsAhead =>
      match readInt64 value with
      | some v => if v > 0 ∧ v < 1000000 then { s with parsed.commitsAhead := v } else s
      | none => s
  | .checkedAt =>
      match readInt64 value with
      | some v => if v ≥ 0 ∧ v ≤ now then { s with parsed.checkedAt := v } else s
      | none => s
  | .status =>
      match readStatus value with
      | some st => { s with parsed.status := st }
      | none => s
  | .restartPending =>
      { s with parsed.restartPending := value = text "1", sawRestartPending := true }
  | .pid =>
      match readInt64 value with
      | some v => if v > 0 then { s with parsed.pid := toPid v } else s
      | none => s
  | .stage => { s with parsed.stage := value.take 40 }
  | .progress =>
      match readInt64 value with
      -- out of bounds it is refused, never brought back within
      | some v => if v ≥ 0 ∧ v ≤ 100 then { s with parsed.progress := v } else s
      | none => s
  | .message => { s with parsed.message := value.take kMaxStateMessageBytes }
  | .note n => { s with notes := s.notes ++ [(n, cleanNote value)] }

def line (now : Int) (s : Scan) (l : Bytes) : Scan :=
  if 0x3D ∉ l then s
  else
    let key := trim (l.takeWhile (· ≠ 0x3D))
    let value := trim ((l.dropWhile (· ≠ 0x3D)).drop 1)
    if key = [] ∨ key ∈ s.seen then s
    else
      let s := { s with seen := s.seen ++ [key] }
      match readKey key with
      | some k => s.set now k value
      | none => s

/-- The notes 1, 2, 3… up to the first that is missing, or says nothing. -/
def noteRun (notes : List (Nat × Bytes)) : (left rang : Nat) → List Bytes
  | 0, _ => []
  | left + 1, rang =>
      match notes.find? (·.1 = rang) with
      | none => []
      | some (_, n) => if n = [] then [] else n :: noteRun notes left (rang + 1)

/-- What the file comes to. -/
def finish (s : Scan) : FileState :=
  if ¬ s.schemaOk then {}
  else
    -- a file from before the key says the same with its status
    let p :=
      if ¬ s.sawRestartPending ∧ s.parsed.status = .restartPending then
        { s.parsed with restartPending := true }
      else s.parsed
    { p with notes := noteRun s.notes kMaxUpdateNotes 1 }

end Scan

def parseUpdateState (raw : Bytes) (now : Int) : FileState :=
  if raw.length > kMaxStateBytes then {}
  else ((raw.splitOn 0x0A).foldl (Scan.line now) {}).finish

/-! ### What is drawn of it holds on a line -/

/-- No text that a dialog shows has a line break in it. -/
structure OneLine (s : UpdateState) : Prop where
  installedCommit : 0x0A ∉ s.installedCommit
  remoteCommit : 0x0A ∉ s.remoteCommit
  installedVersion : 0x0A ∉ s.installedVersion
  remoteVersion : 0x0A ∉ s.remoteVersion
  stage : 0x0A ∉ s.stage
  message : 0x0A ∉ s.message
  notes : ∀ n ∈ s.notes, 0x0A ∉ n

theorem OneLine.default : OneLine {} := by
  constructor <;> simp

theorem trim_subset {s : Bytes} {c : UInt8} (h : c ∈ trim s) : c ∈ s :=
  (List.dropWhile_suffix _).subset ((List.rdropWhile_prefix _ _).subset h)

theorem cleanVersion_subset {s : Bytes} {c : UInt8} (h : c ∈ cleanVersion s) : c ∈ s := by
  unfold cleanVersion at h
  split at h
  · cases h
  split at h
  · exact h
  · cases h

theorem isInert_of_mem_cleanNote {v : Bytes} {c : UInt8} (h : c ∈ cleanNote v) : isInert c = true := by
  have hout : ∀ c ∈ v.filter isInert, isInert c = true := fun c hc => (List.mem_filter.1 hc).2
  unfold cleanNote at h
  simp only at h
  split at h
  · exact hout c (List.take_subset _ _ ((List.rdropWhile_prefix _ _).subset h))
  · exact hout c h

theorem newline_not_mem_cleanNote (v : Bytes) : 0x0A ∉ cleanNote v :=
  fun h => absurd (isInert_of_mem_cleanNote h) (by decide)

theorem length_noteRun (notes : List (Nat × Bytes)) (left : Nat) :
    ∀ rang, (Scan.noteRun notes left rang).length ≤ left := by
  induction left with
  | zero => exact fun _ => Nat.le_refl _
  | succ left ih =>
      intro rang
      unfold Scan.noteRun
      split
      · exact Nat.zero_le _
      split
      · exact Nat.zero_le _
      · exact Nat.succ_le_succ (ih _)

theorem mem_noteRun {notes : List (Nat × Bytes)} {n : Bytes} (left : Nat) :
    ∀ {rang}, n ∈ Scan.noteRun notes left rang → ∃ i, (i, n) ∈ notes := by
  induction left with
  | zero => exact fun h => absurd h List.not_mem_nil
  | succ left ih =>
      intro rang h
      unfold Scan.noteRun at h
      split at h
      · cases h
      next i m hfind =>
      split at h
      · cases h
      rcases List.mem_cons.1 h with rfl | hrest
      · exact ⟨i, List.mem_of_find?_eq_some hfind⟩
      · exact ih hrest

namespace Scan

/-- What holds of the lines read so far. -/
structure Clean (s : Scan) : Prop where
  parsed : OneLine s.parsed.toUpdateState
  notes : ∀ p ∈ s.notes, 0x0A ∉ p.2

theorem Clean.set {s : Scan} (h : s.Clean) (now : Int) (key : FileKey) {value : Bytes}
    (hvalue : 0x0A ∉ value) : (s.set now key value).Clean := by
  have hversion : 0x0A ∉ cleanVersion value := fun hc => hvalue (cleanVersion_subset hc)
  have htake : ∀ n, 0x0A ∉ value.take n := fun n hc => hvalue (List.take_subset _ _ hc)
  have hp := h.parsed
  cases key with
  | installedCommit => exact ⟨{ hp with installedCommit := hvalue }, h.notes⟩
  | remoteCommit => exact ⟨{ hp with remoteCommit := hvalue }, h.notes⟩
  | installedVersion => exact ⟨{ hp with installedVersion := hversion }, h.notes⟩
  | remoteVersion => exact ⟨{ hp with remoteVersion := hversion }, h.notes⟩
  | stage => exact ⟨{ hp with stage := htake _ }, h.notes⟩
  | message => exact ⟨{ hp with message := htake _ }, h.notes⟩
  | note n =>
      refine ⟨hp, List.forall_mem_append.2 ⟨h.notes, ?_⟩⟩
      exact List.forall_mem_singleton.2 (newline_not_mem_cleanNote value)
  | schema | pathPrefix | source | previousCommit | restartPending => exact ⟨{ hp with }, h.notes⟩
  | commitsAhead | checkedAt | status | pid | progress =>
      unfold Scan.set
      simp only
      repeat' split
      all_goals first | exact h | exact ⟨{ hp with }, h.notes⟩

theorem Clean.line {s : Scan} (h : s.Clean) (now : Int) {l : Bytes} (hl : 0x0A ∉ l) :
    (s.line now l).Clean := by
  unfold Scan.line
  split
  · exact h
  simp only
  split
  · exact h
  have hseen : ∀ seen, Clean { s with seen := seen } := fun _ => ⟨h.parsed, h.notes⟩
  split
  · refine (hseen _).set now _ fun hc => hl ?_
    exact (List.dropWhile_suffix _).subset (List.drop_subset _ _ (trim_subset hc))
  · exact hseen _

theorem Clean.finish {s : Scan} (h : s.Clean) : OneLine s.finish.toUpdateState := by
  have hnotes : ∀ n ∈ noteRun s.notes kMaxUpdateNotes 1, 0x0A ∉ n := fun n hn => by
    obtain ⟨i, hi⟩ := mem_noteRun _ hn
    exact h.notes _ hi
  unfold Scan.finish
  split
  · exact OneLine.default
  simp only
  split
  · exact { h.parsed with notes := hnotes }
  · exact { h.parsed with notes := hnotes }

end Scan

/-- **What a dialog may show of the file holds on a line each.** -/
theorem oneLine_parseUpdateState (raw : Bytes) (now : Int) :
    OneLine (parseUpdateState raw now).toUpdateState := by
  unfold parseUpdateState
  split
  · exact OneLine.default
  have hclean : Scan.Clean ((raw.splitOn 0x0A).foldl (Scan.line now) {}) := by
    refine List.foldlRecOn _ _ ⟨OneLine.default, by simp⟩ fun s hs l hl => hs.line now ?_
    exact not_mem_of_mem_splitOn hl
  exact hclean.finish

theorem length_notes_parseUpdateState (raw : Bytes) (now : Int) :
    (parseUpdateState raw now).notes.length ≤ kMaxUpdateNotes := by
  unfold parseUpdateState
  split
  · exact Nat.zero_le _
  unfold Scan.finish
  split
  · exact Nat.zero_le _
  · exact length_noteRun _ _ _

end UpdateFile

end Sshos.Shell
