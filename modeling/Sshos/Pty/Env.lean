import Sshos.Lib.Bindings
import Sshos.Lib.Lists
import Sshos.Shell.Modal

/-!
# Sshos.Pty.Env

The **environment of a guest**: what the daemon inherited, without what described the session
it was started in and what names the desktop itself, with what the client says of its own
session, and with what is imposed on everyone.
-/

namespace Sshos.Env

open Sshos.Lib (Bytes getElem?_foldl_insert last last_cons last_eq_none last_filter
  lookup_eq_some_of_nodup mem_of_last nodup_keys_toList)
open Sshos.Shell (text text_ofList)

/-- What a client says of its session, as the handshake carries it. -/
abbrev EnvDelta := List (Bytes × Bytes)

/-- The list is closed: the handshake comes from the network. -/
def kSessionVars : List Bytes :=
  [text "SSH_AUTH_SOCK", text "SSH_CONNECTION", text "SSH_CLIENT", text "SSH_TTY", text "DISPLAY",
    text "XDG_SESSION_ID"]

/-- `TERM` is the emulator of the window, never the terminal of the client. -/
def kForced : List (Bytes × Bytes) :=
  [(text "TERM", text "xterm-256color"), (text "COLORTERM", text "truecolor"),
    (text "TERMOS", text "1")]

/-- A second truth about the size, and the identity of the desktop under both of its names. -/
def kBanned : List Bytes :=
  [text "LINES", text "COLUMNS", text "TERMOS_BOOT_ID", text "TERMOS_EXE", text "SSHOS_BOOT_ID",
    text "SSHOS_EXE"]

def isSessionVariable (key : Bytes) : Bool := key ∈ kSessionVars

def kEquals : UInt8 := 0x3D

/-- The key and the value of an entry. Without `=`, or without a key, there are none. -/
def cut (entry : Bytes) : Option (Bytes × Bytes) :=
  match entry.idxOf? kEquals with
  | none | some 0 => none
  | some eq => some (entry.take eq, entry.drop (eq + 1))

/-- `std::map`: the keys are in order. -/
abbrev Table := Std.ExtTreeMap Bytes Bytes

/-- An entry of the base: what the session left goes, even when nothing new takes its place. -/
def inherit (env : Table) (entry : Bytes) : Table :=
  match cut entry with
  | none => env
  | some (key, value) =>
      if isSessionVariable key then env else if key ∈ kBanned then env else env.insert key value

/-- A variable of the client. -/
def renew (env : Table) (var : Bytes × Bytes) : Table :=
  if ¬ isSessionVariable var.1 then env else env.insert var.1 var.2

def impose (env : Table) (var : Bytes × Bytes) : Table := env.insert var.1 var.2

def join (var : Bytes × Bytes) : Bytes := var.1 ++ [kEquals] ++ var.2

def childTable (base : List Bytes) (delta : EnvDelta) : Table :=
  kForced.foldl impose (delta.foldl renew (base.foldl inherit ∅))

def childEnv (base : List Bytes) (delta : EnvDelta) : List Bytes := (childTable base delta).toList.map join

/-! ### Entries -/

/-- A key is not empty, and has no `=` in it. -/
def IsKey (key : Bytes) : Prop := key ≠ [] ∧ kEquals ∉ key

instance (key : Bytes) : Decidable (IsKey key) := inferInstanceAs (Decidable (_ ∧ _))

/-- What is joined is cut at the same place. -/
theorem cut_join {var : Bytes × Bytes} (hkey : IsKey var.1) : cut (join var) = some var := by
  obtain ⟨key, value⟩ := var
  have hjoin : join (key, value) = key ++ kEquals :: value := List.append_assoc ..
  have hat : (join (key, value)).idxOf? kEquals = some key.length := by
    rw [hjoin]
    exact Lib.idxOf?_append_cons hkey.2 value
  obtain ⟨n, hn⟩ : ∃ n, key.length = n + 1 :=
    ⟨_, (Nat.succ_pred_eq_of_pos (List.length_pos_iff.2 hkey.1)).symm⟩
  unfold cut
  rw [hat, hn]
  simp only
  rw [← hn, hjoin, List.take_left, ← List.drop_drop, List.drop_left]
  rfl

theorem isKey_of_cut {entry : Bytes} {var : Bytes × Bytes} (h : cut entry = some var) : IsKey var.1 := by
  unfold cut at h
  split at h
  · cases h
  · cases h
  next eq hne hat =>
    cases h
    obtain ⟨hlt, -, hbefore⟩ := List.idxOf?_eq_some_iff.1 hat
    refine ⟨?_, fun hmem => ?_⟩
    · refine List.ne_nil_of_length_pos ?_
      rw [List.length_take_of_le (Nat.le_of_lt hlt)]
      exact Nat.pos_of_ne_zero hne
    · obtain ⟨j, hj, heq⟩ := List.mem_iff_getElem.1 hmem
      rw [List.length_take_of_le (Nat.le_of_lt hlt)] at hj
      rw [List.getElem_take] at heq
      exact hbefore j hj heq

/-! ### The three lists -/

/-- A variable the desktop has nothing to say about. -/
def Other (key : Bytes) : Prop :=
  isSessionVariable key = false ∧ key ∉ kBanned ∧ key ∉ kForced.map (·.1)

instance (key : Bytes) : Decidable (Other key) := inferInstanceAs (Decidable (_ ∧ _ ∧ _))

theorem last_other {key : Bytes} (hkey : Other key) (vars : List (Bytes × Bytes)) :
    last (vars.filter fun var => decide (Other var.1)) key = last vars key := by
  rw [last_filter fun key => decide (Other key), if_pos (decide_eq_true hkey)]

theorem isKey_session : ∀ key ∈ kSessionVars, IsKey key ∧ key ∉ kBanned ∧ key ∉ kForced.map (·.1) := by
  unfold kSessionVars kBanned kForced
  repeat rw [text_ofList]
  decide

theorem isKey_forced : ∀ var ∈ kForced, IsKey var.1 ∧ var.1 ∉ kBanned ∧ last kForced var.1 = some var.2 := by
  unfold kBanned kForced
  repeat rw [text_ofList]
  decide

/-! ### The table -/

/-- What is inherited. -/
def inherited (base : List Bytes) : List (Bytes × Bytes) := base.filterMap cut

theorem getElem?_inherit (base : List Bytes) (key : Bytes) (m : Table) :
    (base.foldl inherit m)[key]? =
      (if isSessionVariable key = false ∧ key ∉ kBanned then last (inherited base) key else none).or
        m[key]? := by
  have hg : ∀ m entry, inherit m entry = ((cut entry).filter fun var =>
      decide (isSessionVariable var.1 = false ∧ var.1 ∉ kBanned)).elim m
        fun var => m.insert var.1 var.2 := by
    intro m entry
    unfold inherit
    cases cut entry with
    | none => rfl
    | some var =>
        simp only [Option.filter_some]
        by_cases hsession : isSessionVariable var.1 = true <;>
          by_cases hbanned : var.1 ∈ kBanned <;> simp [hsession, hbanned]
  have hkept : base.filterMap (fun entry => (cut entry).filter fun var =>
      decide (isSessionVariable var.1 = false ∧ var.1 ∉ kBanned)) = (inherited base).filter
        fun var => decide (isSessionVariable var.1 = false ∧ var.1 ∉ kBanned) := by
    unfold inherited
    rw [List.filter_filterMap]
  have hlast := @last_filter _ _ _ key _
    (fun key => decide (isSessionVariable key = false ∧ key ∉ kBanned)) (inherited base)
  rw [getElem?_foldl_insert hg, hkept, hlast]
  simp only [decide_eq_true_eq]

theorem getElem?_renew (delta : EnvDelta) (key : Bytes) (m : Table) : (delta.foldl renew m)[key]? =
    (if isSessionVariable key then last delta key else none).or m[key]? := by
  have hg : ∀ m var, renew m var = (Option.guard (fun var => isSessionVariable var.1) var).elim m
      fun var => m.insert var.1 var.2 := by
    intro m var
    unfold renew
    by_cases hsession : isSessionVariable var.1 = true <;> simp [Option.guard, hsession]
  rw [getElem?_foldl_insert hg, List.filterMap_eq_filter, last_filter isSessionVariable]

theorem getElem?_impose (key : Bytes) (m : Table) :
    (kForced.foldl impose m)[key]? = (last kForced key).or m[key]? := by
  have hg : ∀ (m : Table) var, impose m var = (some var).elim m fun var => m.insert var.1 var.2 :=
    fun _ _ => rfl
  rw [getElem?_foldl_insert hg, List.filterMap_some]

/-- **What stands in the table** under a key: what is imposed, else what the client or the base says
of it, as it is of the session or not. -/
theorem getElem?_childTable (base : List Bytes) (delta : EnvDelta) (key : Bytes) :
    (childTable base delta)[key]? =
      (last kForced key).or (if isSessionVariable key then last delta key
        else if key ∈ kBanned then none else last (inherited base) key) := by
  unfold childTable
  rw [getElem?_impose, getElem?_renew, getElem?_inherit, Std.ExtTreeMap.getElem?_empty, Option.or_none]
  refine congrArg _ ?_
  by_cases hsession : isSessionVariable key = true
  · simp [hsession]
  · by_cases hbanned : key ∈ kBanned <;> simp [hsession, hbanned]

theorem isKey_of_getElem? {base : List Bytes} {delta : EnvDelta} {key value : Bytes}
    (h : (childTable base delta)[key]? = some value) : IsKey key := by
  rw [getElem?_childTable, Option.or_eq_some_iff] at h
  rcases h with hforced | ⟨-, h⟩
  · exact (isKey_forced _ (mem_of_last hforced)).1
  split at h
  next hsession => exact (isKey_session key (of_decide_eq_true hsession)).1
  · split at h
    · cases h
    · obtain ⟨entry, -, hcut⟩ := List.mem_filterMap.1 (mem_of_last h)
      exact isKey_of_cut hcut

/-- The entries are the table, read back. -/
theorem filterMap_cut_childEnv (base : List Bytes) (delta : EnvDelta) :
    (childEnv base delta).filterMap cut = (childTable base delta).toList := by
  unfold childEnv
  rw [List.filterMap_map]
  refine (List.filterMap_congr fun var hvar => ?_).trans List.filterMap_some
  exact cut_join (isKey_of_getElem? (Std.ExtTreeMap.mem_toList_iff_getElem?_eq_some.1 hvar))

/-! ### The claim on the environment -/

/-- What a guest finds under a key. -/
def get (env : List Bytes) (key : Bytes) : Option Bytes := (env.filterMap cut).lookup key

theorem get_childEnv (base : List Bytes) (delta : EnvDelta) (key : Bytes) :
    get (childEnv base delta) key = (childTable base delta)[key]? := by
  unfold get
  rw [filterMap_cut_childEnv]
  refine Option.ext fun value => ?_
  rw [lookup_eq_some_of_nodup (nodup_keys_toList _), Std.ExtTreeMap.mem_toList_iff_getElem?_eq_some]

/-- The environment is closed: every entry has a key and no two have the same, and what stands
under a key is told by the list the key is in. -/
structure Closed (base : List Bytes) (delta : EnvDelta) (env : List Bytes) : Prop where
  entries : ∀ entry ∈ env, (cut entry).isSome
  once : ((env.filterMap cut).map (·.1)).Nodup
  session : ∀ key, isSessionVariable key = true → get env key = last delta key
  banned : ∀ key ∈ kBanned, get env key = none
  forced : ∀ var ∈ kForced, get env var.1 = some var.2
  others : ∀ key, Other key → get env key = last (inherited base) key

theorem closed_childEnv (base : List Bytes) (delta : EnvDelta) :
    Closed base delta (childEnv base delta) where
  entries entry hentry := by
    obtain ⟨var, hvar, rfl⟩ := List.mem_map.1 hentry
    rw [cut_join (isKey_of_getElem? (Std.ExtTreeMap.mem_toList_iff_getElem?_eq_some.1 hvar))]
    rfl
  once := by
    rw [filterMap_cut_childEnv]
    exact nodup_keys_toList _
  session key hkey := by
    have hfree := (isKey_session key (of_decide_eq_true hkey)).2.2
    rw [get_childEnv, getElem?_childTable, last_eq_none hfree, if_pos hkey, Option.none_or]
  banned key hkey := by
    have hsession : isSessionVariable key = false :=
      decide_eq_false fun hmem => (isKey_session key hmem).2.1 hkey
    have hfree : key ∉ kForced.map (·.1) := fun hmem => by
      obtain ⟨var, hvar, rfl⟩ := List.mem_map.1 hmem
      exact (isKey_forced var hvar).2.1 hkey
    rw [get_childEnv, getElem?_childTable, last_eq_none hfree, hsession, if_neg Bool.false_ne_true,
      if_pos hkey, Option.none_or]
  forced var hvar := by
    rw [get_childEnv, getElem?_childTable, (isKey_forced var hvar).2.2, Option.some_or]
  others key hkey := by
    rw [get_childEnv, getElem?_childTable, last_eq_none hkey.2.2, hkey.1, if_neg Bool.false_ne_true,
      if_neg hkey.2.1, Option.none_or]

/-- **The environment of a guest is closed**, and does not tell two bases apart that say the same of
the other variables. -/
theorem childEnv_closed (base : List Bytes) (delta : EnvDelta) :
    Closed base delta (childEnv base delta) ∧
      ∀ base', (∀ key, Other key → last (inherited base) key = last (inherited base') key) →
        childEnv base delta = childEnv base' delta := by
  refine ⟨closed_childEnv base delta, fun base' hsame => ?_⟩
  have htable : childTable base delta = childTable base' delta := by
    refine Std.ExtTreeMap.ext_getElem? fun key => ?_
    rw [getElem?_childTable, getElem?_childTable]
    by_cases hforced : key ∈ kForced.map (·.1)
    · obtain ⟨var, hvar, rfl⟩ := List.mem_map.1 hforced
      rw [(isKey_forced var hvar).2.2, Option.some_or, Option.some_or]
    · refine congrArg _ ?_
      split
      · rfl
      next hsession =>
      split
      · rfl
      next hbanned => exact hsame key ⟨Bool.eq_false_iff.2 hsession, hbanned, hforced⟩
  unfold childEnv
  rw [htable]

/-- The second of two desktops was started elsewhere, under its former name. -/
theorem childEnv_closed_renamed :
    childEnv [text "PATH=/bin", text "SSH_TTY=/dev/pts/1", text "TERM=dumb"] [] =
      childEnv [text "SSHOS_EXE=/bin/sshos", text "PATH=/sbin", text "PATH=/bin", text "LINES=24"] [] := by
  refine (childEnv_closed _ []).2 _ fun key hkey => ?_
  have hfirst : (inherited [text "PATH=/bin", text "SSH_TTY=/dev/pts/1", text "TERM=dumb"]).filter
      (fun var => decide (Other var.1)) = [(text "PATH", text "/bin")] := by
    decide +kernel
  have hsecond : (inherited [text "SSHOS_EXE=/bin/sshos", text "PATH=/sbin", text "PATH=/bin",
      text "LINES=24"]).filter (fun var => decide (Other var.1)) =
        [(text "PATH", text "/sbin"), (text "PATH", text "/bin")] := by
    decide +kernel
  rw [← last_other hkey, ← last_other hkey (inherited [text "SSHOS_EXE=/bin/sshos", _, _, _]), hfirst,
    hsecond, last_cons, last_cons, last_cons]
  cases key == text "PATH" <;> rfl

end Sshos.Env
