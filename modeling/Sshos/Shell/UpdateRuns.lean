import Mathlib.Logic.Relation
import Sshos.Lib.Run
import Sshos.Shell.UpdateService

/-!
# Sshos.Shell.UpdateRuns

**Runs of the update service**, with its clock, its deadline and what it asks of the launcher.
One piece of work at a time: the menu looks whether somebody else is at work, the daily check
only whether the service itself is.
-/

namespace Sshos.Shell

open Sshos.Lib (Bytes StepsMeet)

/-- What `kill(pid, 0)` answers. -/
inductive Kill
  | sent | notPermitted | noProcess
  deriving DecidableEq

def pidAlive (pid : Int) (kill : Kill) : Bool := decide (0 < pid) && kill != .noProcess

/-- What a look outside finds: the parsed file, the worker it names, the program on disk. -/
structure Look where
  state : UpdateState := {}
  checkedAt : Int := 0
  pid : Int := -1
  kill : Kill := .noProcess
  /-- The running program and the one that is installed are the same file. -/
  sameFile : Bool := false
  deriving DecidableEq

def Look.reading (l : Look) : Reading where
  state := l.state
  workerAlive := pidAlive l.pid l.kill
  runningIsInstalled := !l.state.pathPrefix.isEmpty && l.sameFile

/-- The readings of the clocks in one call: the time of day, in seconds, and three of the
steady clock, in nanoseconds (for a deadline, for its comparison, for the next deadline). -/
structure Clocks where
  wall : Int := 0
  armed : Int := 0
  looked : Int := 0
  again : Int := 0
  deriving DecidableEq

/-- What the launcher is given, and whether something was at work then. -/
structure LauncherCall where
  argv : List Bytes
  working : Bool
  deriving DecidableEq

def kPeriodSeconds : Int := 86400
def kFloorSeconds : Int := 30
/-- In nanoseconds. -/
def kSecond : Int := 1000000000

structure ClockedService extends UpdateService where
  deadline : Int := 0
  /-- In the order in which they are made. -/
  calls : List LauncherCall := []
  deriving DecidableEq

def deadlineFrom (wall now checkedAt : Int) : Int :=
  let elapsed := if checkedAt > 0 then wall - checkedAt else kPeriodSeconds
  let left := max 0 (min kPeriodSeconds (kPeriodSeconds - elapsed))
  now + max left kFloorSeconds * kSecond

namespace ClockedService

variable (s : ClockedService)

def updaterPath : Bytes :=
  if s.state.pathPrefix = [] then [] else s.state.pathPrefix ++ text "/libexec/termos-update"

def scheduleFrom (wall now checkedAt : Int) : ClockedService :=
  { s with deadline := deadlineFrom wall now checkedAt, haveDeadline := true }

/-- `pid` is what the launcher answers if it is asked. -/
def launch (mode : Bytes) (manual : Bool) (pid : Int) : ClockedService :=
  if s.updaterPath = [] then s
  else
    { s with
      toUpdateService := s.toUpdateService.launch (if 0 < pid then some pid.toNat else none) manual
      calls := s.calls ++ [⟨[s.updaterPath, mode], s.working⟩] }

def reload (l : Look) : ClockedService := { s with toUpdateService := s.toUpdateService.reload l.reading }

/-- Nothing to wait for: no updates here, or a child at work, or no installation. -/
def Rests : Prop := s.state.status = .updatesDisabled ∨ s.child.isSome ∨ s.updaterPath = []

instance : Decidable s.Rests := inferInstanceAs (Decidable (_ ∨ _ ∨ _))

def tick (l : Look) (c : Clocks) (pid : Int) : ClockedService :=
  let s := s.reload l
  if s.Rests then { s with haveDeadline := false }
  else if ¬ s.loaded then { s.scheduleFrom c.wall c.armed l.checkedAt with loaded := true }
  else
    let s := if s.haveDeadline then s else s.scheduleFrom c.wall c.armed l.checkedAt
    if s.deadline ≤ c.looked then
      let s := { s with haveDeadline := false }.launch (text "--check") false pid
      if s.child.isNone then s.scheduleFrom c.wall c.again 0 else s
    else s

def run (id : UpdateCommand) (pid : Int) : ClockedService :=
  if ¬ s.entry.enabled then s
  else if s.child.isSome then s
  else
    match id with
    | .restart => if s.restartNeeded then { s with wantsRestart := true } else s
    | .check => s.launch (text "--check") true pid
    | .apply => s.launch (text "--apply") true pid

def onChildExit (pid : Nat) (failed : Bool) (l : Look) (c : Clocks) : ClockedService :=
  if s.owns pid then
    { s with toUpdateService := s.toUpdateService.onChildExit l.reading failed }.scheduleFrom
      c.wall c.armed l.checkedAt
  else s

inductive Event
  | tick (l : Look) (c : Clocks) (pid : Int)
  | run (id : UpdateCommand) (pid : Int)
  | childExit (pid : Nat) (failed : Bool) (l : Look) (c : Clocks)
  | takeReport

def step : Event → ClockedService
  | .tick l c pid => s.tick l c pid
  | .run id pid => s.run id pid
  | .childExit pid failed l c => s.onChildExit pid failed l c
  | .takeReport => { s with report := [] }

/-! ### The service without its clock -/

variable {s}

theorem updaterPath_eq_nil : s.updaterPath = [] ↔ s.state.pathPrefix = [] := by
  unfold updaterPath
  split
  · next hnone => simp [hnone]
  · next hsome => simp [hsome]

theorem launch_toUpdateService (mode : Bytes) (manual : Bool) (pid : Int) :
    (s.launch mode manual pid).toUpdateService =
      s.toUpdateService.launch (if 0 < pid then some pid.toNat else none) manual := by
  unfold launch
  split
  · next hnone =>
    have hprefix := updaterPath_eq_nil.1 hnone
    unfold UpdateService.launch
    rw [if_pos hprefix]
  · rfl

/-- The daily check is due: the deadline, or the one that is set at this moment, has passed. -/
def Due (s : ClockedService) (l : Look) (c : Clocks) : Prop :=
  (if s.haveDeadline then s.deadline else deadlineFrom c.wall c.armed l.checkedAt) ≤ c.looked

instance (l : Look) (c : Clocks) : Decidable (s.Due l c) := inferInstanceAs (Decidable (_ ≤ _))

/-- The daily check. -/
def dailyCheck (s : ClockedService) (c : Clocks) (pid : Int) : ClockedService :=
  let s := { s with haveDeadline := false }.launch (text "--check") false pid
  if s.child.isNone then s.scheduleFrom c.wall c.again 0 else s

/-- What a tick comes to: nothing, the first deadline, the daily check, or waiting for it. -/
theorem tick_cases (l : Look) (c : Clocks) (pid : Int) :
    ((s.reload l).Rests ∧ s.tick l c pid = { s.reload l with haveDeadline := false }) ∨
    (¬ (s.reload l).Rests ∧ s.loaded = false ∧
      s.tick l c pid = { (s.reload l).scheduleFrom c.wall c.armed l.checkedAt with loaded := true }) ∨
    (¬ (s.reload l).Rests ∧ s.loaded = true ∧ s.Due l c ∧ ∃ deadline,
      s.tick l c pid = { s.reload l with deadline := deadline }.dailyCheck c pid) ∨
    (¬ (s.reload l).Rests ∧ s.loaded = true ∧ ¬ s.Due l c ∧ ∃ deadline,
      s.tick l c pid = { s.reload l with deadline := deadline, haveDeadline := true }) := by
  have hdeadline : (if (s.reload l).haveDeadline then s.reload l
      else (s.reload l).scheduleFrom c.wall c.armed l.checkedAt) =
      { s.reload l with
        deadline := if s.haveDeadline then s.deadline else deadlineFrom c.wall c.armed l.checkedAt
        haveDeadline := true } := by
    show (if s.haveDeadline then _ else _) = _
    cases hhave : s.haveDeadline with
    | true =>
        rw [if_pos rfl, if_pos rfl]
        unfold reload UpdateService.reload
        simp only [hhave]
    | false => rfl
  unfold tick
  simp only
  by_cases hrests : (s.reload l).Rests
  · exact .inl ⟨hrests, if_pos hrests⟩
  rw [if_neg hrests]
  cases hloaded : s.loaded with
  | false =>
      refine .inr (.inl ⟨hrests, rfl, if_pos ?_⟩)
      simp [reload, UpdateService.reload, hloaded]
  | true =>
      have hstays : (s.reload l).loaded = true := hloaded
      rw [if_neg (by simp [hstays]), hdeadline]
      simp only
      by_cases hdue : s.Due l c
      · exact .inr (.inr (.inl ⟨hrests, trivial, hdue,
          if s.haveDeadline then s.deadline else deadlineFrom c.wall c.armed l.checkedAt, if_pos hdue⟩))
      · exact .inr (.inr (.inr ⟨hrests, trivial, hdue,
          if s.haveDeadline then s.deadline else deadlineFrom c.wall c.armed l.checkedAt, if_neg hdue⟩))

theorem dailyCheck_toUpdateService (c : Clocks) (pid : Int) :
    (s.dailyCheck c pid).toUpdateService =
      let u := UpdateService.launch { s.toUpdateService with haveDeadline := false }
        (if 0 < pid then some pid.toNat else none) false
      if u.child.isNone then { u with haveDeadline := true } else u := by
  have hlaunch := @launch_toUpdateService { s with haveDeadline := false } (text "--check") false pid
  unfold dailyCheck
  simp only [← hlaunch]
  split <;> rfl

/-- A tick is the one of the service, told whether it is due. -/
theorem tick_toUpdateService (l : Look) (c : Clocks) (pid : Int) :
    (s.tick l c pid).toUpdateService =
      s.toUpdateService.tick l.reading (s.Due l c) (if 0 < pid then some pid.toNat else none) := by
  have hrests : (s.reload l).Rests ↔
      (s.toUpdateService.reload l.reading).state.status = .updatesDisabled ∨
        (s.toUpdateService.reload l.reading).child.isSome ∨
        (s.toUpdateService.reload l.reading).state.pathPrefix = [] :=
    or_congr_right (or_congr_right updaterPath_eq_nil)
  unfold UpdateService.tick
  simp only
  rcases s.tick_cases l c pid with ⟨hr, heq⟩ | ⟨hr, hloaded, heq⟩ | ⟨hr, hloaded, hdue, deadline, heq⟩ |
    ⟨hr, hloaded, hdue, deadline, heq⟩
  · rw [heq, if_pos (hrests.1 hr)]
    rfl
  · rw [heq, if_neg (mt hrests.2 hr), if_pos (by simp [UpdateService.reload, hloaded])]
    rfl
  · rw [heq, if_neg (mt hrests.2 hr), if_neg (by simp [UpdateService.reload, hloaded]),
      if_pos (by simpa using hdue), dailyCheck_toUpdateService]
    rfl
  · rw [heq, if_neg (mt hrests.2 hr), if_neg (by simp [UpdateService.reload, hloaded]),
      if_neg (by simpa using hdue)]
    rfl

theorem run_toUpdateService (id : UpdateCommand) (pid : Int) :
    (s.run id pid).toUpdateService =
      s.toUpdateService.run id (if 0 < pid then some pid.toNat else none) := by
  unfold run UpdateService.run
  split
  · rfl
  · split
    · rfl
    · cases id with
      | restart =>
          dsimp only
          split <;> rfl
      | check => exact launch_toUpdateService _ _ _
      | apply => exact launch_toUpdateService _ _ _

/-- What the session sees of the service: it does not see the clock. -/
inductive Moves : UpdateService → UpdateService → Prop
  | tick (u : UpdateService) (r : Reading) (due : Bool) (launched : Option Nat) :
      Moves u (u.tick r due launched)
  | run (u : UpdateService) (id : UpdateCommand) (launched : Option Nat) : Moves u (u.run id launched)
  | childExit (u : UpdateService) (pid : Nat) (r : Reading) (failed : Bool) (howns : u.owns pid) :
      Moves u (u.onChildExit r failed)
  | takeReport (u : UpdateService) : Moves u u.takeReport.2

theorem moves_step (e : Event) :
    Relation.ReflGen Moves s.toUpdateService (s.step e).toUpdateService := by
  cases e with
  | tick l c pid =>
      show Relation.ReflGen Moves _ (s.tick l c pid).toUpdateService
      rw [tick_toUpdateService]
      exact .single (.tick ..)
  | run id pid =>
      show Relation.ReflGen Moves _ (s.run id pid).toUpdateService
      rw [run_toUpdateService]
      exact .single (.run ..)
  | childExit pid failed l c =>
      show Relation.ReflGen Moves _ (s.onChildExit pid failed l c).toUpdateService
      unfold onChildExit
      split
      · next howns =>
        have hmoves := Moves.childExit s.toUpdateService pid l.reading failed howns
        exact .single hmoves
      · exact .refl
  | takeReport => exact .single (.takeReport _)

/-- **The service with its clock is one the session can see**, in every run. -/
theorem moves_run (s : ClockedService) (es : List Event) :
    Relation.ReflTransGen Moves s.toUpdateService (Lib.run step s es).toUpdateService := by
  induction es generalizing s with
  | nil => exact .refl
  | cons e es ih => exact (s.moves_step e).to_reflTransGen.trans (ih (s.step e))

/-! ### What is asked of the launcher -/

theorem calls_launch (mode : Bytes) (manual : Bool) (pid : Int) :
    (s.launch mode manual pid).calls =
      s.calls ++ (if s.updaterPath = [] then [] else [⟨[s.updaterPath, mode], s.working⟩]) := by
  unfold launch
  split
  · exact (List.append_nil _).symm
  · rfl

theorem status_reload (l : Look) : (s.reload l).state.status = l.state.status ∨
    (l.state.status = .restartPending ∧ (s.reload l).state.status = .upToDate) := by
  by_cases hdone : l.state.status = .restartPending ∧
      ¬ (s.toUpdateService.reload l.reading).restartNeeded = true
  · exact .inr ⟨hdone.1, if_pos hdone⟩
  · exact .inl (if_neg hdone)

/-- The worker that the file names counts as long as it is alive. -/
theorem working_reload (l : Look) : (s.reload l).working =
    (s.child.isSome || (UpdateService.inProgress l.state && pidAlive l.pid l.kill)) := by
  have hstatus : UpdateService.inProgress (s.reload l).state = UpdateService.inProgress l.state := by
    unfold UpdateService.inProgress
    rcases s.status_reload l with hsame | ⟨hbefore, hafter⟩
    · rw [hsame]
    · rw [hbefore, hafter]
      rfl
  unfold UpdateService.working
  rw [hstatus]
  simp only [reload, UpdateService.reload, Look.reading]
  cases s.child <;> cases UpdateService.inProgress l.state <;> cases pidAlive l.pid l.kill <;> rfl

/-- With this step the daily check is launched over the work of another. -/
def Collides (s : ClockedService) : Event → Prop
  | .tick l c _ =>
      s.loaded = true ∧ s.child = none ∧ l.state.pathPrefix ≠ [] ∧ UpdateService.inProgress l.state = true ∧
        pidAlive l.pid l.kill = true ∧ s.Due l c
  | _ => False

/-- Nothing was at work when the launcher was called. -/
def Alone (s : ClockedService) : Prop := ∀ call ∈ s.calls, call.working = false

theorem alone_append {calls : List LauncherCall} (h : ∀ call ∈ s.calls, call.working = false) :
    (∀ call ∈ s.calls ++ calls, call.working = false) ↔ ∀ call ∈ calls, call.working = false := by
  simp only [List.forall_mem_append]
  exact and_iff_right h

theorem calls_dailyCheck (c : Clocks) (pid : Int) : (s.dailyCheck c pid).calls = s.calls ++
    (if s.updaterPath = [] then [] else [⟨[s.updaterPath, text "--check"], s.working⟩]) := by
  have hcalls := @calls_launch { s with haveDeadline := false } (text "--check") false pid
  unfold dailyCheck
  simp only
  split
  · exact hcalls
  · exact hcalls

theorem rests_reload_iff (l : Look) : (s.reload l).Rests ↔
    l.state.status = .updatesDisabled ∨ s.child.isSome ∨ l.state.pathPrefix = [] := by
  have hstatus : (s.reload l).state.status = .updatesDisabled ↔ l.state.status = .updatesDisabled := by
    rcases s.status_reload l with hsame | ⟨hbefore, hafter⟩
    · rw [hsame]
    · simp [hbefore, hafter]
  exact or_congr hstatus (or_congr_right updaterPath_eq_nil)

theorem alone_tick (h : s.Alone) (l : Look) (c : Clocks) (pid : Int) :
    (s.tick l c pid).Alone ↔ ¬ s.Collides (.tick l c pid) := by
  rcases s.tick_cases l c pid with ⟨hr, heq⟩ | ⟨-, hloaded, heq⟩ | ⟨hr, hloaded, hdue, deadline, heq⟩ |
    ⟨-, -, hdue, deadline, heq⟩
  · rw [heq]
    refine iff_of_true h ?_
    rintro ⟨-, hchild, hprefix, hprogress, -⟩
    rcases (s.rests_reload_iff l).1 hr with hstatus | hsome | hnone
    · simp [UpdateService.inProgress, hstatus] at hprogress
    · simp [hchild] at hsome
    · exact hprefix hnone
  · rw [heq]
    refine iff_of_true h ?_
    rintro ⟨hyes, -⟩
    exact absurd (hloaded.symm.trans hyes) Bool.false_ne_true
  · have hrests : ¬ _ := mt (s.rests_reload_iff l).2 hr
    rw [not_or, not_or] at hrests
    obtain ⟨-, hchild, hprefix⟩ := hrests
    have hnone : s.child = none := by simpa using hchild
    have hpath : ¬ ({ s.reload l with deadline := deadline } : ClockedService).updaterPath = [] :=
      fun hnil => hprefix (updaterPath_eq_nil.1 hnil)
    have hworking : ({ s.reload l with deadline := deadline } : ClockedService).working =
        (UpdateService.inProgress l.state && pidAlive l.pid l.kill) := by
      have hreload := s.working_reload l
      rw [hnone] at hreload
      exact hreload
    unfold Alone
    rw [heq, calls_dailyCheck, if_neg hpath, hworking]
    refine (alone_append h).trans ?_
    rw [List.forall_mem_singleton, Bool.and_eq_false_iff]
    constructor
    · rintro hidle ⟨-, -, -, hprogress, halive, -⟩
      rcases hidle with hidle | hidle
      · exact absurd (hprogress.symm.trans hidle) (by decide)
      · exact absurd (halive.symm.trans hidle) (by decide)
    · intro hnot
      by_contra hboth
      rw [not_or, Bool.not_eq_false, Bool.not_eq_false] at hboth
      exact hnot ⟨hloaded, hnone, hprefix, hboth.1, hboth.2, hdue⟩
  · rw [heq]
    refine iff_of_true h ?_
    rintro ⟨-, -, -, -, -, hyes⟩
    exact hdue hyes

/-- The menu launches nothing while something is at work. -/
theorem alone_run (h : s.Alone) (id : UpdateCommand) (pid : Int) : (s.run id pid).Alone := by
  have hidle : s.entry.enabled = true → s.working = false := by
    unfold UpdateService.entry
    intro henabled
    by_contra hworking
    have hyes : s.working = true := by simpa using hworking
    simp only [hyes, if_true] at henabled
    split at henabled
    · exact absurd henabled Bool.false_ne_true
    · split at henabled <;> exact absurd henabled Bool.false_ne_true
  have hlaunch : s.entry.enabled = true → ∀ mode, (s.launch mode true pid).Alone := by
    intro henabled mode
    unfold Alone
    rw [calls_launch]
    refine (alone_append h).2 ?_
    split
    · exact fun _ hcall => absurd hcall List.not_mem_nil
    · simpa using hidle henabled
  unfold run
  split
  · exact h
  next henabled =>
  split
  · exact h
  · cases id with
    | restart =>
        dsimp only
        split
        · exact h
        · exact h
    | check => exact hlaunch (not_not.1 henabled) _
    | apply => exact hlaunch (not_not.1 henabled) _

theorem alone_step (h : s.Alone) (e : Event) : (s.step e).Alone ↔ ¬ s.Collides e := by
  cases e with
  | tick l c pid => exact alone_tick h l c pid
  | run id pid => exact iff_of_true (alone_run h id pid) not_false
  | childExit pid failed l c =>
      refine iff_of_true ?_ not_false
      simp only [step, onChildExit]
      split
      · exact h
      · exact h
  | takeReport => exact iff_of_true h not_false

/-! ### The restart and the deadline -/

/-- A deadline is set, or there is nothing to wait for. -/
def Armed (s : ClockedService) : Prop :=
  s.haveDeadline = true ∨ s.child.isSome ∨ s.state.status = .updatesDisabled ∨ s.state.pathPrefix = []

/-- A tick, or the exit of the child of the service. -/
def Wakes (s : ClockedService) : Event → Prop
  | .tick .. => True
  | .childExit pid .. => s.owns pid
  | _ => False

theorem armed_step (e : Event) (hwakes : s.Wakes e) : (s.step e).Armed := by
  cases e with
  | tick l c pid =>
      show (s.tick l c pid).Armed
      rcases s.tick_cases l c pid with ⟨hr, heq⟩ | ⟨-, -, heq⟩ | ⟨-, -, -, deadline, heq⟩ |
        ⟨-, -, -, deadline, heq⟩
      · rw [heq]
        rcases hr with hstatus | hchild | hpath
        · exact .inr (.inr (.inl hstatus))
        · exact .inr (.inl hchild)
        · exact .inr (.inr (.inr (updaterPath_eq_nil.1 hpath)))
      · rw [heq]
        exact .inl rfl
      · rw [heq]
        unfold dailyCheck
        simp only
        split
        · exact .inl rfl
        · next hchild => exact .inr (.inl (by simpa [Option.isSome_iff_ne_none] using hchild))
      · rw [heq]
        exact .inl rfl
  | run id pid => exact hwakes.elim
  | childExit pid failed l c =>
      have howns : s.owns pid = true := hwakes
      simp only [step, onChildExit, howns, if_true]
      exact .inl rfl
  | takeReport => exact hwakes.elim

theorem wantsRestart_launch (mode : Bytes) (manual : Bool) (pid : Int) :
    (s.launch mode manual pid).wantsRestart = s.wantsRestart := by
  rw [launch_toUpdateService]
  unfold UpdateService.launch
  split
  · rfl
  · split <;> rfl

/-- A restart is only asked for when one is needed. -/
theorem wantsRestart_step (e : Event) (hbefore : s.wantsRestart = false)
    (hafter : (s.step e).wantsRestart = true) : s.restartNeeded = true := by
  have hsame : ∀ {s' : ClockedService}, s'.wantsRestart = s.wantsRestart → s'.wantsRestart = true →
      s.restartNeeded = true := by
    intro s' heq hyes
    rw [heq, hbefore] at hyes
    exact absurd hyes Bool.false_ne_true
  cases e with
  | tick l c pid =>
      refine hsame ?_ hafter
      show (s.tick l c pid).wantsRestart = s.wantsRestart
      rcases s.tick_cases l c pid with ⟨-, heq⟩ | ⟨-, -, heq⟩ | ⟨-, -, -, deadline, heq⟩ |
        ⟨-, -, -, deadline, heq⟩
      · rw [heq]
        rfl
      · rw [heq]
        rfl
      · rw [heq]
        unfold dailyCheck
        simp only
        split
        · exact wantsRestart_launch _ _ _
        · exact wantsRestart_launch _ _ _
      · rw [heq]
        rfl
  | run id pid =>
      simp only [step, run] at hafter
      split at hafter
      · exact hsame rfl hafter
      split at hafter
      · exact hsame rfl hafter
      cases id with
      | restart =>
          simp only at hafter
          split at hafter
          · assumption
          · exact hsame rfl hafter
      | check => exact hsame (wantsRestart_launch _ _ _) hafter
      | apply => exact hsame (wantsRestart_launch _ _ _) hafter
  | childExit pid failed l c =>
      refine hsame ?_ hafter
      simp only [step, onChildExit]
      split
      · simp only [scheduleFrom, UpdateService.onChildExit]
        split <;> split <;> rfl
      · rfl
  | takeReport => exact hsame rfl hafter

/-! ### Runs -/

/-- One piece of work at a time, and never none for ever. -/
structure OneAtATime (es : List Event) : Prop where
  alone : ∀ before, before <+: es → (Lib.run step {} before).Alone
  restart : ∀ before e, before ++ [e] <+: es → (Lib.run step {} before).wantsRestart = false →
    ((Lib.run step {} before).step e).wantsRestart = true →
    (Lib.run step {} before).restartNeeded = true
  armed : ∀ before e, before ++ [e] <+: es → (Lib.run step {} before).Wakes e →
    ((Lib.run step {} before).step e).Armed

/-- **One update at a time, exactly**: as long as the daily check never falls due while another
is at work. -/
theorem oneAtATime_iff (es : List Event) :
    OneAtATime es ↔ StepsMeet step (fun s e => ¬ s.Collides e) {} es := by
  have halone := @Lib.run_good_iff _ _ step (fun s e => ¬ s.Collides e) (fun _ => True) Alone
    (fun _ => True) (fun _ _ _ _ => trivial) (fun _ e _ _ h => alone_step h e) {} es trivial
    (fun _ hcall => absurd hcall List.not_mem_nil) fun _ _ => trivial
  constructor
  · exact fun h => halone.1 h.alone
  · intro hmeet
    refine ⟨halone.2 hmeet, fun before e _ hbefore hafter => ?_, fun before e _ hwakes => ?_⟩
    · exact wantsRestart_step e hbefore hafter
    · exact armed_step e hwakes

/-- An hour after the first tick, another is applying an update: the check is launched. -/
def overlap : List Event :=
  [.tick { state := { pathPrefix := [0x2f], status := .upToDate }, checkedAt := 1000 }
      { wall := 90000, armed := 0, looked := 0 } (-1),
    .tick { state := { pathPrefix := [0x2f], status := .applying }, checkedAt := 1000, pid := 400, kill := .sent }
      { wall := 93600, looked := 3600 * kSecond } 401]

theorem overlap_not_oneAtATime : ¬ OneAtATime overlap := by
  intro h
  have halone := h.alone overlap (List.prefix_refl _)
  have hcalls : ((Lib.run step {} overlap).calls.map (·.working)) = [true] := by decide +kernel
  obtain ⟨call, hcall, hworking⟩ := List.mem_map.1 (hcalls ▸ List.mem_singleton_self true :
    true ∈ (Lib.run step {} overlap).calls.map (·.working))
  exact absurd ((halone call hcall).symm.trans hworking) (by decide)

end ClockedService

end Sshos.Shell
