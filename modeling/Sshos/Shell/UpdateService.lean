import Sshos.Shell.Modal

/-!
# Sshos.Shell.UpdateService

The **update service** as the session sees it: a state file written by scripts, read
back at each wake-up, and at most one child at work.

What the service reads from the outside — the parsed file, whether the worker it names
is alive, whether the running program is the installed one, what the launcher answered,
whether the deadline has passed — is handed to it by the caller.
-/

namespace Sshos.Shell

open Sshos.Lib (Bytes)

inductive UpdateStatus where
  | idle | checking | applying | upToDate | available | restartPending | checkFailed
  | applyFailed | historyRewritten | updatesDisabled
  deriving DecidableEq

/-- The part of the state file the service acts on or shows. -/
structure UpdateState where
  status : UpdateStatus := .idle
  pathPrefix : Bytes := []
  installedCommit : Bytes := []
  remoteCommit : Bytes := []
  installedVersion : Bytes := []
  remoteVersion : Bytes := []
  commitsAhead : Int := 0
  stage : Bytes := []
  progress : Int := -1
  message : Bytes := []
  restartPending : Bool := false
  notes : List Bytes := []
  deriving DecidableEq

/-- The commands of the update menu. -/
inductive UpdateCommand where
  | check | apply | restart
  deriving DecidableEq

structure UpdateEntry where
  label : Bytes
  enabled : Bool
  id : UpdateCommand
  deriving DecidableEq

/-- What a look outside finds. -/
structure Reading where
  state : UpdateState := {}
  workerAlive : Bool := false
  runningIsInstalled : Bool := false
  deriving DecidableEq

structure UpdateService where
  state : UpdateState := {}
  loaded : Bool := false
  staleWorker : Bool := false
  message : Bytes := []
  /-- The child at work, a positive pid. -/
  child : Option Nat := none
  childIsManual : Bool := false
  report : Bytes := []
  haveDeadline : Bool := false
  wantsRestart : Bool := false
  restartNeeded : Bool := false
  deriving DecidableEq

namespace UpdateService

variable (u : UpdateService)

def inProgress (s : UpdateState) : Bool := s.status == .checking || s.status == .applying

def reload (r : Reading) : UpdateService :=
  let stale := inProgress r.state && u.child.isNone && !r.workerAlive
  let message :=
    if stale then text "mise a jour interrompue"
    else if ¬ inProgress r.state then r.state.message
    else u.message
  let restartNeeded := r.state.restartPending && !r.runningIsInstalled
  -- a restart already done is no longer announced
  let status :=
    if r.state.status = .restartPending ∧ ¬ restartNeeded then .upToDate else r.state.status
  { u with
    state := { r.state with status := status }
    staleWorker := stale
    message := message
    restartNeeded := restartNeeded }

/-- A child is launched when there is an installation to launch it from. -/
def launch (launched : Option Nat) (manual : Bool) : UpdateService :=
  if u.state.pathPrefix = [] then u
  else
    match launched with
    | none => u
    | some pid => { u with child := some pid, childIsManual := manual, haveDeadline := false }

/-- The periodic wake-up: `due` says whether the deadline has passed. -/
def tick (r : Reading) (due : Bool) (launched : Option Nat) : UpdateService :=
  let u := u.reload r
  if u.state.status = .updatesDisabled ∨ u.child.isSome ∨ u.state.pathPrefix = [] then
    { u with haveDeadline := false }
  else if ¬ u.loaded then { u with haveDeadline := true, loaded := true }
  else if due then
    let u := launch { u with haveDeadline := false } launched false
    if u.child.isNone then { u with haveDeadline := true } else u
  else { u with haveDeadline := true }

def working : Bool := u.child.isSome || (!u.staleWorker && inProgress u.state)

def entry : UpdateEntry :=
  if u.state.status = .updatesDisabled then
    let why := if u.state.message = [] then text "raison inconnue" else u.state.message
    ⟨text "Mise a jour indisponible (" ++ why ++ text ")", false, .check⟩
  else if u.working then
    if u.state.status = .applying then ⟨text "Mise a jour en cours...", false, .apply⟩
    else ⟨text "Verification en cours...", false, .check⟩
  else if u.restartNeeded then ⟨text "Redemarrer pour terminer", true, .restart⟩
  else if u.state.status = .historyRewritten ∨ u.state.installedCommit = text "unknown" then
    ⟨text "Reinstaller depuis GitHub", true, .apply⟩
  else if u.state.status = .available then ⟨text "Mettre a jour", true, .apply⟩
  else ⟨text "Verifier les mises a jour", true, .check⟩

/-- Carry out a command; `launched` is what the launcher answers if it is asked. -/
def run (id : UpdateCommand) (launched : Option Nat) : UpdateService :=
  if ¬ u.entry.enabled then u
  else if u.child.isSome then u
  else
    match id with
    | .restart => if u.restartNeeded then { u with wantsRestart := true } else u
    | .check => u.launch launched true
    | .apply => u.launch launched true

def owns (pid : Nat) : Bool := u.child == some pid

def progressLine : Bytes :=
  if ¬ u.working then []
  else
    let s :=
      if u.state.status = .checking then text "Verification en cours"
      else text "Mise a jour en cours"
    let s := if u.state.stage = [] then s else s ++ text " : " ++ u.state.stage
    s ++ text "..."

def progressPercent : Int := if u.working then u.state.progress else -1

def decimal (n : Int) : Bytes := text (toString n)

def news : Bytes :=
  if u.state.commitsAhead ≤ 0 then []
  else
    decimal u.state.commitsAhead ++
      (if u.state.commitsAhead > 1 then text " nouveautes" else text " nouveaute")

def shortCommit (c : Bytes) : Bytes := if c = [] ∨ c = text "unknown" then [] else c.take 7

def versionLine : Bytes :=
  if u.state.installedVersion ≠ [] ∧ u.state.remoteVersion ≠ [] then
    text "Version " ++ u.state.installedVersion ++ text " -> " ++ u.state.remoteVersion
  else
    let a := shortCommit u.state.installedCommit
    let b := shortCommit u.state.remoteCommit
    if a = [] ∨ b = [] then [] else a ++ text " -> " ++ b

def reportText : Bytes :=
  let why := if u.message = [] then text "raison inconnue" else u.message.take 60
  match u.state.status with
  | .upToDate =>
      if u.state.installedVersion = [] then text "Vous etes a jour."
      else text "Vous etes a jour, en version " ++ u.state.installedVersion ++ text "."
  | .available =>
      let head := text "Mise a jour disponible"
      let head := if u.news = [] then head else head ++ text " : " ++ u.news
      let head := head ++ text "."
      let head := if u.versionLine = [] then head else head ++ text "\n" ++ u.versionLine
      if u.state.notes = [] then head
      else u.state.notes.foldl (fun out n => out ++ text "\n  - " ++ n) (head ++ text "\n")
  | .restartPending => text "Mise a jour installee. Redemarrez pour terminer."
  | .historyRewritten => text "Historique reecrit : une reinstallation est necessaire."
  | .checkFailed => text "Verification impossible : " ++ why
  | .applyFailed => text "Mise a jour echouee : " ++ why
  | .updatesDisabled => text "Mise a jour indisponible : " ++ why
  | _ => text "Verification sans resultat, voir update.log"

/-- The child died; `failed` says whether its status was not zero. A check somebody
asked for leaves a report, an automatic one stays silent. -/
def onChildExit (r : Reading) (failed : Bool) : UpdateService :=
  let before := u.state.status
  let u := reload { u with child := none } r
  let mute := u.state.status = before ∧ failed
  let u := if mute then { u with message := text "echec de la mise a jour, voir update.log" } else u
  let u :=
    if u.childIsManual then
      { u with report := if mute then text "Echec, voir update.log" else u.reportText }
    else u
  { u with childIsManual := false, haveDeadline := true }

def hasReport : Bool := u.report ≠ []

def takeReport : Bytes × UpdateService := (u.report, { u with report := [] })

end UpdateService

end Sshos.Shell
