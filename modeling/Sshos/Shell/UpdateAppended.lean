import Sshos.Shell.UpdateFirst

/-!
# Sshos.Shell.UpdateAppended

Lines **appended** to the file of the update: the first line of a key has the last word, so that they
override nothing that the file says already, whatever they are.
-/

namespace Sshos.Shell.UpdateFile

open Sshos.Lib (Bytes)

/-- The two agree on the field of a key. The schema and the notes have none of their own. -/
def SameField (k : FileKey) (f g : FileState) : Prop :=
  match k with
  | .schema => True
  | .pathPrefix => f.pathPrefix = g.pathPrefix
  | .source => f.source = g.source
  | .installedCommit => f.installedCommit = g.installedCommit
  | .previousCommit => f.previousCommit = g.previousCommit
  | .remoteCommit => f.remoteCommit = g.remoteCommit
  | .installedVersion => f.installedVersion = g.installedVersion
  | .remoteVersion => f.remoteVersion = g.remoteVersion
  | .commitsAhead => f.commitsAhead = g.commitsAhead
  | .checkedAt => f.checkedAt = g.checkedAt
  | .status => f.status = g.status
  | .restartPending => f.restartPending = g.restartPending
  | .pid => f.pid = g.pid
  | .stage => f.stage = g.stage
  | .progress => f.progress = g.progress
  | .message => f.message = g.message
  | .note _ => True

section Tables

variable {first first' : FileKey → Option Bytes}

/-- The second table says all that the first one says. -/
def Extends (first first' : FileKey → Option Bytes) : Prop := ∀ k v, first k = some v → first' k = some v

theorem Extends.isSome (h : Extends first first') {k : FileKey} (hk : (first k).isSome) :
    first' k = first k := by
  obtain ⟨v, hv⟩ := Option.isSome_iff_exists.1 hk
  rw [h k v hv, hv]

theorem Extends.schemaOk (h : Extends first first') (hschema : (first .schema).isSome) :
    SchemaOk first' ↔ SchemaOk first := by
  unfold SchemaOk
  rw [h.isSome hschema]

theorem SchemaOk.isSome (h : SchemaOk first) : (first .schema).isSome := by
  unfold SchemaOk at h
  cases hfirst : first .schema with
  | none =>
      rw [hfirst] at h
      cases h
  | some v => rfl

/-- A field goes by its own first line. -/
theorem sameField_fileOf (now : Int) (hok : SchemaOk first) (hok' : SchemaOk first') {k : FileKey}
    (hsome : (first k).isSome) (hsame : first' k = first k) :
    SameField k (fileOf now first) (fileOf now first') := by
  unfold fileOf
  rw [if_neg (not_not.2 hok), if_neg (not_not.2 hok')]
  cases k with
  | schema | note => trivial
  | restartPending =>
      have hsome' : (first .restartPending).isNone = false := Option.isNone_eq_false_iff.2 hsome
      simp [SameField, fieldsOf, hsame, hsome']
  | _ => simp [SameField, fieldsOf, hsame]

/-- Where there are more notes, the run of them goes on. -/
theorem Extends.notesOf (h : Extends first first') (left : Nat) : ∀ rang,
    notesOf first left rang <+: notesOf first' left rang := by
  induction left with
  | zero => exact fun _ => List.prefix_refl _
  | succ left ih =>
      intro rang
      unfold UpdateFile.notesOf
      cases hnote : first (.note rang) with
      | none => exact List.nil_prefix
      | some v =>
          rw [h _ v hnote]
          simp only
          split
          · exact List.nil_prefix
          · exact List.cons_prefix_cons.2 ⟨rfl, ih _⟩

end Tables

/-! ### A file that is longer -/

/-- After a line break, what follows is on lines of its own. -/
theorem entries_append {r : Bytes} (hr : r.getLast? = some 0x0A) (s : Bytes) :
    entries (r ++ s) = entries r ++ entries s := by
  obtain ⟨l, rfl⟩ := List.getLast?_eq_some_iff.1 hr
  have hcut : ∀ s, (l ++ [0x0A] ++ s).splitOn 0x0A = l.splitOn 0x0A ++ s.splitOn 0x0A := fun s => by
    rw [List.append_assoc, List.singleton_append]
    exact List.splitOn_append_cons_self l s
  have hself := hcut []
  rw [List.append_nil] at hself
  unfold entries
  rw [hcut, hself, List.filterMap_append, List.filterMap_append]
  have hnone : (([] : Bytes).splitOn 0x0A).filterMap keyed = [] := rfl
  rw [hnone, List.append_nil]

theorem extends_append {r : Bytes} (hr : r.getLast? = some 0x0A) (s : Bytes) :
    Extends (firstOf (entries r)) (firstOf (entries (r ++ s))) := by
  intro k v hv
  rw [entries_append hr, firstOf_append, hv]
  rfl

/-- What lines appended to a file leave as it is. -/
structure Kept (now : Int) (r s : Bytes) : Prop where
  fields : SchemaOk (firstOf (entries r)) → ∀ k, (firstOf (entries r) k).isSome →
    SameField k (parseUpdateState r now) (parseUpdateState (r ++ s) now)
  notes : SchemaOk (firstOf (entries r)) →
    (parseUpdateState r now).notes <+: (parseUpdateState (r ++ s) now).notes
  /-- A schema that is not known stays so. -/
  blank : (firstOf (entries r) .schema).isSome → ¬ SchemaOk (firstOf (entries r)) →
    parseUpdateState (r ++ s) now = {}

/-- **Lines that are appended override nothing.** -/
theorem kept_append {r : Bytes} (s : Bytes) (now : Int) (hr : r.getLast? = some 0x0A)
    (hlen : (r ++ s).length ≤ kMaxStateBytes) : Kept now r s := by
  have hshort : r.length ≤ kMaxStateBytes := by
    rw [List.length_append] at hlen
    exact (Nat.le_add_right _ _).trans hlen
  have hextends := extends_append hr s
  have hread := parseUpdateState_eq now hshort
  have hread' := parseUpdateState_eq now hlen
  refine ⟨fun hok k hk => ?_, fun hok => ?_, fun hsome hbad => ?_⟩
  · have hok' := (hextends.schemaOk hok.isSome).2 hok
    rw [hread, hread']
    exact sameField_fileOf now hok hok' hk (hextends.isSome hk)
  · have hok' := (hextends.schemaOk hok.isSome).2 hok
    rw [hread, hread']
    unfold fileOf
    rw [if_neg (not_not.2 hok), if_neg (not_not.2 hok')]
    exact hextends.notesOf _ _
  · rw [hread']
    exact if_pos fun hok => hbad ((hextends.schemaOk hsome).1 hok)

theorem kept_append_status :
    Kept 0 (text "schema=1\nstatus=idle\n") (text "status=available\n") := by
  refine kept_append _ 0 ?_ ?_
  · rw [text_ofList]
    decide
  · rw [text_ofList, text_ofList]
    decide

end Sshos.Shell.UpdateFile
