import Mathlib.Data.List.Induction
import Sshos.Shell.UpdateState

/-!
# Sshos.Shell.UpdateFirst

The file of the update as a **table**: what is read of it goes by the first line of each key alone.

The daemon reads it line by line, with a list of the keys it has met; the module shows that what it
comes to is a function of what the first lines say.
-/

namespace Sshos.Shell.UpdateFile

open Sshos.Lib (Bytes)

/-! ### The table -/

/-- The key and the value of a line. -/
def keyed (l : Bytes) : Option (Bytes × Bytes) :=
  if 0x3D ∉ l then none
  else
    let key := trim (l.takeWhile (· ≠ 0x3D))
    if key = [] then none else some (key, trim ((l.dropWhile (· ≠ 0x3D)).drop 1))

def entries (raw : Bytes) : List (Bytes × Bytes) := (raw.splitOn 0x0A).filterMap keyed

/-- What the first line of a field says. -/
def firstOf (es : List (Bytes × Bytes)) (k : FileKey) : Option Bytes :=
  (es.find? fun e => decide (readKey e.1 = some k)).map Prod.snd

/-- What is read of the first lines, but for the notes. -/
def fieldsOf (now : Int) (first : FileKey → Option Bytes) : FileState where
  pathPrefix := (first .pathPrefix).getD []
  source := (first .source).getD []
  installedCommit := (first .installedCommit).getD []
  previousCommit := (first .previousCommit).getD []
  remoteCommit := (first .remoteCommit).getD []
  installedVersion := cleanVersion ((first .installedVersion).getD [])
  remoteVersion := cleanVersion ((first .remoteVersion).getD [])
  commitsAhead := (((first .commitsAhead).bind readInt64).filter fun v => v > 0 ∧ v < 1000000).getD 0
  checkedAt := (((first .checkedAt).bind readInt64).filter fun v => v ≥ 0 ∧ v ≤ now).getD 0
  status := ((first .status).bind readStatus).getD .idle
  restartPending := (first .restartPending).any fun v => decide (v = text "1")
  pid := ((((first .pid).bind readInt64).filter fun v => v > 0).map toPid).getD (-1)
  stage := ((first .stage).getD []).take 40
  progress := (((first .progress).bind readInt64).filter fun v => v ≥ 0 ∧ v ≤ 100).getD (-1)
  message := ((first .message).getD []).take kMaxStateMessageBytes

/-- The notes 1, 2, 3… up to the first that is missing, or says nothing. -/
def notesOf (first : FileKey → Option Bytes) : (left rang : Nat) → List Bytes
  | 0, _ => []
  | left + 1, rang =>
      match first (.note rang) with
      | none => []
      | some v => if cleanNote v = [] then [] else cleanNote v :: notesOf first left (rang + 1)

def SchemaOk (first : FileKey → Option Bytes) : Prop :=
  (first .schema).bind readInt64 = some kUpdateStateSchema

instance (first : FileKey → Option Bytes) : Decidable (SchemaOk first) :=
  inferInstanceAs (Decidable (_ = _))

/-- What the first lines come to. -/
def fileOf (now : Int) (first : FileKey → Option Bytes) : FileState :=
  if ¬ SchemaOk first then {}
  else
    let p := fieldsOf now first
    { p with
      restartPending :=
        p.restartPending || (decide (p.status = .restartPending) && (first .restartPending).isNone)
      notes := notesOf first kMaxUpdateNotes 1 }

/-! ### Keys -/

/-- Each field that is not a note has one key. -/
theorem readKey_inj {a b : Bytes} {k : FileKey} (hk : ∀ n, k ≠ .note n) (ha : readKey a = some k)
    (hb : readKey b = some k) : a = b := by
  have hmem : ∀ {c : Bytes}, readKey c = some k → (c, k) ∈ kKeys := by
    intro c hc
    unfold readKey at hc
    split at hc
    next k' hlookup =>
      cases hc
      obtain ⟨before, after, heq, -⟩ := List.lookup_eq_some_iff.1 hlookup
      exact heq ▸ List.mem_append_right _ List.mem_cons_self
    next =>
      split at hc
      · cases hc
        exact absurd rfl (hk _)
      · cases hc
  have hnodup : (kKeys.map Prod.snd).Nodup := by decide
  exact congrArg Prod.fst (List.inj_on_of_nodup_map hnodup (hmem ha) (hmem hb) rfl)

section First

variable {es : List (Bytes × Bytes)} {e : Bytes × Bytes} {k : FileKey}

theorem firstOf_append (es es' : List (Bytes × Bytes)) (k : FileKey) :
    firstOf (es ++ es') k = (firstOf es k).or (firstOf es' k) := by
  unfold firstOf
  rw [List.find?_append]
  cases es.find? fun e => decide (readKey e.1 = some k) <;> rfl

theorem firstOf_singleton (e : Bytes × Bytes) (k : FileKey) :
    firstOf [e] k = if readKey e.1 = some k then some e.2 else none := by
  unfold firstOf
  rw [List.find?_singleton]
  split
  next h => rw [if_pos (of_decide_eq_true h)]; rfl
  next h => rw [if_neg (of_decide_eq_false (Bool.eq_false_iff.2 h))]; rfl

/-- A field whose key was met is on some line. -/
theorem firstOf_isSome (he : e ∈ es) (hk : readKey e.1 = some k) : (firstOf es k).isSome := by
  unfold firstOf
  rw [Option.isSome_map, List.find?_isSome]
  exact ⟨e, he, decide_eq_true hk⟩

theorem exists_of_firstOf {v : Bytes} (h : firstOf es k = some v) :
    ∃ e ∈ es, readKey e.1 = some k ∧ e.2 = v := by
  obtain ⟨e, he, hv⟩ := Option.map_eq_some_iff.1 h
  have hkey : decide (readKey e.1 = some k) = true := @List.find?_some _ _ e es he
  exact ⟨e, List.mem_of_find?_eq_some he, of_decide_eq_true hkey, hv⟩

end First

/-! ### Line by line -/

namespace Scan

/-- A line that is a binding. -/
def entry (now : Int) (s : Scan) (e : Bytes × Bytes) : Scan :=
  if e.1 ∈ s.seen then s
  else
    let s := { s with seen := s.seen ++ [e.1] }
    match readKey e.1 with
    | some k => s.set now k e.2
    | none => s

theorem line_eq (now : Int) (s : Scan) (l : Bytes) : s.line now l =
    match keyed l with
    | none => s
    | some e => s.entry now e := by
  unfold line keyed
  by_cases heq : 0x3D ∉ l
  · rw [if_pos heq, if_pos heq]
  · rw [if_neg heq, if_neg heq]
    simp only
    generalize trim (l.takeWhile (· ≠ 0x3D)) = key
    by_cases hkey : key = []
    · rw [if_pos hkey, if_pos (.inl hkey)]
    · rw [if_neg hkey]
      simp only [entry]
      by_cases hseen : key ∈ s.seen
      · rw [if_pos hseen, if_pos (.inr hseen)]
      · exact (if_neg (not_or.2 ⟨hkey, hseen⟩)).trans (if_neg hseen).symm

theorem foldl_line (now : Int) (ls : List Bytes) : ∀ s : Scan,
    ls.foldl (line now) s = (ls.filterMap keyed).foldl (entry now) s := by
  induction ls with
  | nil => exact fun _ => rfl
  | cons l ls ih =>
      intro s
      rw [List.foldl_cons, line_eq, ih, List.filterMap_cons]
      cases keyed l with
      | none => rfl
      | some e => rfl

/-- What the lines read so far have left is what their first ones say. -/
structure Reads (now : Int) (es : List (Bytes × Bytes)) (s : Scan) : Prop where
  parsed : s.parsed = fieldsOf now (firstOf es)
  schemaOk : s.schemaOk = decide (SchemaOk (firstOf es))
  sawRestartPending : s.sawRestartPending = (firstOf es .restartPending).isSome
  notes : ∀ n, s.notes.find? (fun p => decide (p.1 = n)) =
    (firstOf es (.note n)).map fun v => (n, cleanNote v)
  seen : ∀ key, key ∈ s.seen ↔ key ∈ es.map Prod.fst

/-- The table with one more field. -/
def put (first : FileKey → Option Bytes) (k : FileKey) (v : Bytes) : FileKey → Option Bytes :=
  fun k' => if k' = k then some v else first k'

section Set

variable {now : Int} {first : FileKey → Option Bytes} {s : Scan} {k : FileKey}

/-- A field that is given its value, the others staying as they are. -/
theorem set_parsed (hk : ∀ n, k ≠ .note n) (hnone : first k = none) (v : Bytes)
    (hparsed : s.parsed = fieldsOf now first) :
    (s.set now k v).parsed = fieldsOf now (put first k v) := by
  cases k with
  | note n => exact absurd rfl (hk n)
  | schema | restartPending | stage | message | pathPrefix | source | installedCommit | previousCommit
  | remoteCommit | installedVersion | remoteVersion =>
      simp only [Scan.set, hparsed]
      rfl
  | commitsAhead | checkedAt | pid | progress =>
      cases hread : readInt64 v with
      | none => simp [Scan.set, fieldsOf, put, hnone, hread, hparsed]
      | some i =>
          simp only [Scan.set, hread]
          split
          next hin => simp [fieldsOf, put, hread, hparsed, Option.filter, hin]
          next hout => simp [fieldsOf, put, hnone, hread, hparsed, Option.filter, hout]
  | status =>
      cases hread : readStatus v with
      | none => simp [Scan.set, fieldsOf, put, hnone, hread, hparsed]
      | some st => simp [Scan.set, fieldsOf, put, hread, hparsed]

/-- What else a line sets. -/
theorem set_rest (now : Int) (s : Scan) (v : Bytes) (hk : ∀ n, k ≠ .note n) :
    (s.set now k v).seen = s.seen ∧ (s.set now k v).notes = s.notes ∧
      (s.set now k v).schemaOk =
        (if k = .schema then decide (readInt64 v = some kUpdateStateSchema) else s.schemaOk) ∧
      (s.set now k v).sawRestartPending = (decide (k = .restartPending) || s.sawRestartPending) := by
  cases k with
  | note n => exact absurd rfl (hk n)
  | schema | restartPending | stage | message | pathPrefix | source | installedCommit | previousCommit
  | remoteCommit | installedVersion | remoteVersion => simp [Scan.set]
  | commitsAhead | checkedAt | pid | progress =>
      simp only [Scan.set]
      split
      · split <;> simp
      · simp
  | status =>
      simp only [Scan.set]
      split <;> simp

theorem fieldsOf_note (now : Int) (first : FileKey → Option Bytes) (n : Nat) (v : Bytes) :
    fieldsOf now (fun k => (first k).or (if some (FileKey.note n) = some k then some v else none)) =
      fieldsOf now first := by
  simp [fieldsOf]

end Set

variable {now : Int} {es : List (Bytes × Bytes)} {s : Scan}

theorem Reads.start (now : Int) : Reads now [] {} where
  parsed := rfl
  schemaOk := rfl
  sawRestartPending := rfl
  notes _ := rfl
  seen _ := Iff.rfl

theorem firstOf_concat (es : List (Bytes × Bytes)) (e : Bytes × Bytes) : firstOf (es ++ [e]) =
    fun k => (firstOf es k).or (if readKey e.1 = some k then some e.2 else none) :=
  funext fun k => by rw [firstOf_append, firstOf_singleton]

/-- A line whose key was met, or is none of the fields', says nothing. -/
theorem Reads.skip (h : Reads now es s) {e : Bytes × Bytes} (hskip : e.1 ∈ s.seen ∨ readKey e.1 = none) :
    firstOf (es ++ [e]) = firstOf es := by
  rw [firstOf_concat]
  funext k
  split
  next hk =>
    rcases hskip with hseen | hnone
    · obtain ⟨e', he', hkey⟩ := List.mem_map.1 ((h.seen e.1).1 hseen)
      have hsome := firstOf_isSome he' (hkey ▸ hk)
      exact Option.or_of_isSome hsome
    · rw [hnone] at hk
      cases hk
  next => exact Option.or_none

section Entry

variable {e : Bytes × Bytes} {k : FileKey}

theorem Reads.seen_concat (h : Reads now es s) (e : Bytes × Bytes) (key : Bytes) :
    key ∈ s.seen ++ [e.1] ↔ key ∈ (es ++ [e]).map Prod.fst := by
  rw [List.mem_append, List.map_append, List.mem_append, h.seen]
  rfl

theorem Reads.set_note (h : Reads now es s) {n : Nat} (hread : readKey e.1 = some (.note n)) :
    Reads now (es ++ [e]) (({ s with seen := s.seen ++ [e.1] } : Scan).set now (.note n) e.2) := by
  have hfirst := firstOf_concat es e
  rw [hread] at hfirst
  have hsame : ∀ k, (∀ n, k ≠ .note n) → firstOf (es ++ [e]) k = firstOf es k := by
    intro k hk
    rw [hfirst]
    simp only
    rw [if_neg fun heq => hk n (Option.some.inj heq).symm, Option.or_none]
  refine ⟨?_, ?_, ?_, fun m => ?_, h.seen_concat e⟩
  · rw [hfirst, fieldsOf_note]
    exact h.parsed
  · have hschema : SchemaOk (firstOf (es ++ [e])) ↔ SchemaOk (firstOf es) := by
      unfold SchemaOk
      rw [hsame .schema nofun]
    rw [decide_eq_decide.2 hschema]
    exact h.schemaOk
  · rw [hsame .restartPending nofun]
    exact h.sawRestartPending
  · have hnote : firstOf (es ++ [e]) (.note m) =
        (firstOf es (.note m)).or (if n = m then some e.2 else none) := by
      rw [hfirst]
      simp
    rw [hnote]
    simp only [Scan.set]
    rw [List.find?_append, h.notes, List.find?_singleton]
    cases firstOf es (.note m) with
    | some v => rfl
    | none =>
        by_cases hm : n = m
        · subst hm
          simp
        · simp [hm]

/-- A field is on no line before the first one with its key. -/
theorem Reads.firstOf_none (h : Reads now es s) (hk : ∀ n, k ≠ .note n) (hread : readKey e.1 = some k)
    (hnew : e.1 ∉ s.seen) : firstOf es k = none := by
  cases hfirst : firstOf es k with
  | none => rfl
  | some v =>
      obtain ⟨e', he', hkey, -⟩ := exists_of_firstOf hfirst
      have hsame : e'.1 = e.1 := readKey_inj hk hkey hread
      exact absurd ((h.seen e.1).2 (List.mem_map.2 ⟨e', he', hsame⟩)) hnew

theorem Reads.set_field (h : Reads now es s) (hk : ∀ n, k ≠ .note n) (hread : readKey e.1 = some k)
    (hnew : e.1 ∉ s.seen) :
    Reads now (es ++ [e]) (({ s with seen := s.seen ++ [e.1] } : Scan).set now k e.2) := by
  have hnone := h.firstOf_none hk hread hnew
  have hfirst : firstOf (es ++ [e]) = put (firstOf es) k e.2 := by
    rw [firstOf_concat, hread]
    funext k'
    unfold put
    by_cases hk' : k' = k
    · rw [hk', hnone, if_pos rfl, if_pos rfl]
      rfl
    · rw [if_neg fun heq => hk' (Option.some.inj heq).symm, if_neg hk', Option.or_none]
  obtain ⟨hseen, hnotes, hschema, hsaw⟩ := set_rest now { s with seen := s.seen ++ [e.1] } e.2 hk
  refine ⟨?_, ?_, ?_, fun m => ?_, fun key => ?_⟩
  · rw [hfirst]
    exact set_parsed hk hnone e.2 h.parsed
  · rw [hschema, hfirst]
    split
    next heq => exact heq ▸ rfl
    next hne =>
      have hother : put (firstOf es) k e.2 .schema = firstOf es .schema := if_neg (Ne.symm hne)
      have hiff : SchemaOk (put (firstOf es) k e.2) ↔ SchemaOk (firstOf es) := by
        unfold SchemaOk
        rw [hother]
      rw [decide_eq_decide.2 hiff]
      exact h.schemaOk
  · rw [hsaw, hfirst]
    by_cases heq : k = .restartPending
    · subst heq
      rfl
    · have hother : put (firstOf es) k e.2 .restartPending = firstOf es .restartPending :=
        if_neg (Ne.symm heq)
      rw [hother, ← h.sawRestartPending, decide_eq_false heq]
      rfl
  · have hother : put (firstOf es) k e.2 (.note m) = firstOf es (.note m) := if_neg (Ne.symm (hk m))
    rw [hnotes, hfirst, hother, ← h.notes]
  · rw [hseen]
    exact h.seen_concat e key

theorem Reads.entry (h : Reads now es s) (e : Bytes × Bytes) : Reads now (es ++ [e]) (s.entry now e) := by
  unfold Scan.entry
  by_cases hseen : e.1 ∈ s.seen
  · rw [if_pos hseen]
    have hsame := h.skip (.inl hseen)
    refine ⟨?_, ?_, ?_, fun n => ?_, fun key => ?_⟩
    · rw [hsame, h.parsed]
    · rw [hsame, h.schemaOk]
    · rw [hsame, h.sawRestartPending]
    · rw [hsame, h.notes]
    · rw [← h.seen_concat e, List.mem_append, List.mem_singleton]
      exact ⟨.inl, fun hor => hor.elim id fun heq => heq ▸ hseen⟩
  · rw [if_neg hseen]
    simp only
    cases hread : readKey e.1 with
    | none =>
        have hsame := h.skip (.inr hread)
        refine ⟨?_, ?_, ?_, fun n => ?_, h.seen_concat e⟩
        · rw [hsame, ← h.parsed]
        · rw [hsame, ← h.schemaOk]
        · rw [hsame, ← h.sawRestartPending]
        · rw [hsame, ← h.notes]
    | some k =>
        by_cases hnote : ∃ n, k = .note n
        · obtain ⟨n, rfl⟩ := hnote
          exact h.set_note hread
        · exact h.set_field (fun n hn => hnote ⟨n, hn⟩) hread hseen

end Entry

/-- **The lines read so far** have left what the first ones say. -/
theorem reads_foldl (now : Int) (es : List (Bytes × Bytes)) : Reads now es (es.foldl (entry now) {}) := by
  induction es using List.reverseRecOn with
  | nil => exact Reads.start now
  | append_singleton es e ih =>
      rw [List.foldl_append, List.foldl_cons, List.foldl_nil]
      exact ih.entry e

theorem Reads.noteRun (h : Reads now es s) (left : Nat) : ∀ rang,
    Scan.noteRun s.notes left rang = notesOf (firstOf es) left rang := by
  induction left with
  | zero => exact fun _ => rfl
  | succ left ih =>
      intro rang
      unfold Scan.noteRun notesOf
      rw [h.notes rang]
      cases firstOf es (.note rang) with
      | none => rfl
      | some v => simp only [Option.map_some, ih]

theorem Reads.finish (h : Reads now es s) : s.finish = fileOf now (firstOf es) := by
  unfold Scan.finish fileOf
  by_cases hok : SchemaOk (firstOf es)
  · have hschema : s.schemaOk = true := h.schemaOk.trans (decide_eq_true hok)
    rw [if_neg (not_not.2 hschema), if_neg (not_not.2 hok)]
    simp only [h.noteRun, h.parsed, h.sawRestartPending]
    cases firstOf es .restartPending with
    | some v => simp
    | none =>
        split
        next hmigrate => simp [hmigrate.2]
        next hkeep =>
          have hstatus : (fieldsOf now (firstOf es)).status ≠ .restartPending :=
            fun hstatus => hkeep ⟨by simp, hstatus⟩
          rw [decide_eq_false hstatus, Bool.false_and, Bool.or_false]
  · have hschema : s.schemaOk = false := h.schemaOk.trans (decide_eq_false hok)
    rw [if_pos (by simp [hschema]), if_pos hok]

end Scan

/-- **What is read of the file goes by the first line of each key.** -/
theorem parseUpdateState_eq {raw : Bytes} (now : Int) (h : raw.length ≤ kMaxStateBytes) :
    parseUpdateState raw now = fileOf now (firstOf (entries raw)) := by
  unfold parseUpdateState
  rw [if_neg (Nat.not_lt.2 h), Scan.foldl_line]
  exact (Scan.reads_foldl now (entries raw)).finish

end Sshos.Shell.UpdateFile
