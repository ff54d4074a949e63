import Sshos.Apps.FilesCoherent

/-!
# Sshos.Apps.FilesRename

**What a rename renames**, beside the entry that the field was opened for. Only the text that is
typed is kept: the entry is looked up again at the end, and may be another one by then.
-/

namespace Sshos.Apps.Files

open Sshos.Input (Key KeyEvent MouseEvent)
open Sshos.Lib (Bytes StepsMeet run run_invariant)
open Sshos.Shell (text)

section Rename

variable {y : Sys} {lets : Lets} {s s' : Files}

/-! ### Only the end of a field renames -/

theorem Does.renamed_eq (hd : Does y lets s s') (h : lets.rename = none) : s'.renamed = s.renamed := by
  cases hd with
  | idle hs => exact hs.renamed
  | touch p ht => rfl
  | refilter filter sortBy sortDesc => rfl
  | load path hread => rfl
  | reload hidden hread => rfl
  | rename src dst hren =>
      rw [h] at hren
      cases hren
  | «begin» hbegins =>
      unfold beginRename
      simp only
      split <;> rfl
  | split =>
      unfold toggleSplit
      split <;> rfl
  | focus side hsplit hread => rfl

theorem Reaches.renamed_eq (hr : Reaches y lets s s') (h : lets.rename = none) : s'.renamed = s.renamed :=
  @reaches_invariant y lets s s' (fun t => t.renamed = s.renamed) (fun hd heq => (hd.renamed_eq h).trans heq)
    hr rfl

theorem mouseLets_rename (s : Files) (m : MouseEvent) : (s.mouseLets m).rename = none := by
  unfold mouseLets menuLets
  repeat' split
  all_goals rfl

/-- A key that ends the field of a new name. -/
def EndsField (s : Files) (k : KeyEvent) : Prop :=
  s.menuOpen = false ∧ s.mode = .renaming ∧ k.key = .enter

instance (s : Files) (k : KeyEvent) : Decidable (s.EndsField k) :=
  inferInstanceAs (Decidable (_ ∧ _ ∧ _))

theorem keyLets_rename {k : KeyEvent} (h : ¬ s.EndsField k) : (s.keyLets y k).rename = none := by
  unfold keyLets
  split_ifs with hmenu hmode hkey
  all_goals try rfl
  · exact absurd ⟨by simpa using hmenu, hmode, hkey⟩ h

/-- **The end of a field**: the selection takes the name that was typed, if nothing is in the
way. -/
theorem commitRename_renamed (y : Sys) (s : Files) :
    (s.commitRename y).renamed = (s.renames y).toList ++ s.renamed := by
  unfold commitRename renames
  simp only
  split
  next hnames =>
    rw [if_pos]
    · rfl
    · rcases hnames with hfrom | hedit | hsame
      · exact .inl hfrom
      · exact .inr (.inl hedit)
      · exact .inr (.inr (.inl hsame))
  next hnames =>
  split
  next hslash =>
    rw [if_pos (.inr (.inr (.inr (.inl hslash))))]
    rfl
  next hslash =>
  split
  next htaken =>
    rw [if_pos (.inr (.inr (.inr (.inr (.inl htaken)))))]
    rfl
  next htaken =>
  split
  next reason hrefused =>
    rw [if_pos (.inr (.inr (.inr (.inr (.inr (by simp [hrefused]))))))]
    rfl
  next hok =>
    rw [if_neg]
    · rfl
    · rintro (hfrom | hedit | hsame | hs | hl | hr)
      · exact hnames (.inl hfrom)
      · exact hnames (.inr (.inl hedit))
      · exact hnames (.inr (.inr hsame))
      · exact hslash hs
      · exact htaken hl
      · exact hr hok

theorem onKey_renamed (y : Sys) (s : Files) (k : KeyEvent) :
    (s.onKey y k).renamed = (if s.EndsField k then (s.renames y).toList else []) ++ s.renamed := by
  by_cases hends : s.EndsField k
  · obtain ⟨hmenu, hmode, hkey⟩ := hends
    rw [if_pos ⟨hmenu, hmode, hkey⟩, ← commitRename_renamed]
    unfold onKey fieldKey
    rw [if_neg (by simp [hmenu]), if_pos (.inl hmode), hkey]
    simp only
    rw [if_neg (by simp [hmode])]
  · rw [if_neg hends]
    exact (reaches_onKey s k).renamed_eq (keyLets_rename hends)

/-! ### What the field was opened for -/

/-- **The event renames what the field was opened for**, at its end, or nothing. -/
def RenamesOpened (s : Files) (e : Event) : Prop :=
  (s.step e).renamed = s.renamed ∨
    ∃ dir name, s.renameOf = some (dir, name) ∧
      (∃ y k, e = .key y k ∧ s.EndsField k) ∧
      (s.step e).renamed = (joinPath dir name, joinPath dir s.edit) :: s.renamed

theorem renames_eq {r : Bytes × Bytes} (h : s.renames y = some r) :
    r = (joinPath s.pane.listing.path s.pane.touchableSelection, joinPath s.pane.listing.path s.edit) := by
  unfold renames at h
  simp only at h
  split at h
  · cases h
  · exact (Option.some.inj h).symm

/-! ### As long as one only types -/

/-- The selection is in the list. -/
def Pane.InList (p : Pane) : Prop := p.sel < p.visible.length ∨ p.visible = [] ∧ p.sel = 0

theorem inList_rule : PaneRule Pane.InList where
  touch ht h := by
    rcases ht.placed with ⟨hsel, -⟩ | hplaced
    · unfold Pane.InList
      rw [hsel, ht.visible]
      exact h
    · exact hplaced.sel
  made hrows _ _ := (Pane.refilter_spec _ _ hrows).1.sel
  read _ h := h

/-- While a field is open, neither the mouse nor the end of a job comes. -/
def OnlyTypes (s : Files) (e : Event) : Prop :=
  s.mode = .renaming →
    match e with
    | .key _ _ | .resize _ => True
    | .refresh _ more _ _ _ => s.jobActive = true → more = true
    | .mouse _ _ => False

/-- The field is open on the selection. -/
def OnSelection (s : Files) : Prop :=
  s.mode = .renaming → s.renameOf = some (s.pane.listing.path, s.pane.touchableSelection)

theorem onSelection_beginRename (h : s.mode ≠ .renaming) : OnSelection s.beginRename := by
  unfold beginRename
  simp only
  split
  · exact fun hmode => absurd hmode h
  · exact fun _ => rfl

theorem Does.mode_eq (hd : Does y lets s s') (hno : lets.begins = false) (h : s.mode ≠ .renaming) :
    s'.mode ≠ .renaming := by
  cases hd with
  | idle hs =>
      rcases hs.mode with hsame | hother
      · rw [hsame]
        exact h
      · exact hother
  | touch p ht => exact h
  | refilter filter sortBy sortDesc => exact h
  | load path hread => exact h
  | reload hidden hread => exact h
  | rename src dst hren => exact h
  | «begin» hbegins =>
      rw [hno] at hbegins
      cases hbegins
  | split =>
      unfold toggleSplit
      split
      · exact h
      · exact h
  | focus side hsplit hread => exact h

/-- No field is open, and none is opened. -/
theorem Reaches.onSelection (hr : Reaches y lets s s') (hno : lets.begins = false) (h : s.mode ≠ .renaming) :
    OnSelection s' :=
  fun hmode => absurd hmode (reaches_invariant (fun hd => hd.mode_eq hno) hr h)

theorem onKey_begins {k : KeyEvent} (h : (s.keyLets y k).begins = true) : s.onKey y k = s.beginRename := by
  unfold keyLets at h
  split_ifs at h with hmenu hmode hkey hcreating hmade hconfirming hescape hdot
  · split at h <;> cases h
  · have hf2 : k.key = .f2 := by simpa using h
    have hfield : ¬ (s.mode = .renaming ∨ s.mode = .creating) := not_or.2 ⟨hmode, hcreating⟩
    have hnotChar : k.key ≠ .char := by simp [hf2]
    unfold onKey listKey
    rw [if_neg hmenu, if_neg hfield, if_neg hconfirming, if_neg, if_neg, if_neg, if_neg, if_neg, if_neg,
      if_neg, hf2]
    all_goals simp [hf2]

theorem menuLets_begins {c : Cmd} (h : (s.menuLets c).begins = true) : c = .rename := by
  unfold menuLets at h
  split at h
  · cases h
  · split at h <;> cases h
  · rfl
  · cases h

theorem onMouse_begins {m : MouseEvent} (h : (s.mouseLets m).begins = true) :
    s.onMouse y m = { s with menuOpen := false }.beginRename := by
  unfold mouseLets at h
  split at h
  next hmenu =>
    cases hat : s.menuAt m.x m.y with
    | none =>
        rw [hat] at h
        cases h
    | some it =>
        rw [hat] at h
        simp only at h
        split at h
        next hpress =>
          have hcmd := menuLets_begins h
          unfold onMouse mouseMenu
          rw [if_pos hmenu, if_neg (by simp [hpress]), hat]
          simp only [hcmd]
          rfl
        · cases h
  · cases h

/-- No field is open: an event opens none, or opens it on the selection. -/
theorem onSelection_step_closed (h : s.mode ≠ .renaming) (e : Event) : OnSelection (s.step e) := by
  cases e with
  | key y k =>
      cases hbegins : (s.keyLets y k).begins with
      | false => exact (reaches_onKey s k).onSelection hbegins h
      | true =>
          show OnSelection (s.onKey y k)
          rw [onKey_begins hbegins]
          exact onSelection_beginRename h
  | mouse y m =>
      cases hbegins : (s.mouseLets m).begins with
      | false => exact (reaches_onMouse s m).onSelection hbegins h
      | true =>
          show OnSelection (s.onMouse y m)
          rw [onMouse_begins hbegins]
          exact onSelection_beginRename h
  | resize size =>
      intro hmode
      refine absurd (?_ : s.mode = .renaming) h
      rw [← hmode]
      show s.mode = (s.onResize size).mode
      unfold onResize
      split <;> rfl
  | refresh y more done failed error =>
      intro hmode
      refine absurd (?_ : s.mode = .renaming) h
      rw [← hmode]
      show s.mode = (s.onRefresh y more done failed error).mode
      unfold onRefresh
      split
      · rfl
      · split <;> rfl

/-- A pane whose selection is in its list keeps it when it is settled. -/
theorem settle_sel {p : Pane} (h : p.InList) (rows : Nat) :
    (p.settle rows).sel = p.sel := by
  unfold Pane.settle
  split
  next hempty => exact (h.resolve_left (by simp [hempty])).2.symm
  next hsome =>
    have hlt := h.resolve_right fun hno => hsome hno.1
    exact if_neg (by omega)

theorem settle_touchable {p : Pane} (h : p.InList) (rows : Nat) :
    (p.settle rows).listing = p.listing ∧ (p.settle rows).touchableSelection = p.touchableSelection := by
  have hname : (p.settle rows).nameAt (p.settle rows).sel = p.nameAt p.sel := by
    unfold Pane.nameAt
    rw [settle_sel h, Pane.settle_visible]
  refine ⟨?_, ?_⟩
  · unfold Pane.settle
    split <;> rfl
  · unfold Pane.touchableSelection
    rw [hname]

theorem commitRename_mode (y : Sys) (s : Files) : (s.commitRename y).mode = .normal := by
  unfold commitRename
  simp only
  split
  · rfl
  split
  · rfl
  split
  · rfl
  split <;> rfl

/-- A field is open: what is typed does not change the selection. -/
theorem onSelection_typed (h : OnSelection s) (hin : EachPane Pane.InList s) (hmode : s.mode = .renaming) {e : Event}
    (htypes : s.OnlyTypes e) : OnSelection (s.step e) := by
  cases e with
  | key y k =>
      show OnSelection (s.onKey y k)
      unfold onKey
      by_cases hmenu : s.menuOpen = true
      · rw [if_pos hmenu]
        split
        · exact h
        · exact h
      rw [if_neg hmenu, if_pos (.inl hmode)]
      unfold fieldKey
      split
      · rw [if_neg (by simp [hmode])]
        intro hopen
        rw [commitRename_mode] at hopen
        cases hopen
      · exact nofun
      · exact h
      · split
        · exact h
        · exact h
      · exact h
  | mouse y m => exact (htypes hmode).elim
  | resize size =>
      show OnSelection (s.onResize size)
      unfold onResize
      split
      · exact h
      · intro hopen
        have hpane : ({ s with size } : Files).settle.pane = s.pane.settle (rowsForList { s with size }) :=
          setPane_pane _ _
        obtain ⟨hlisting, hsel⟩ := settle_touchable (p := s.pane) (hin s.active) (rowsForList { s with size })
        rw [hpane, hlisting, hsel]
        exact h hopen
  | refresh y more done failed error =>
      show OnSelection (s.onRefresh y more done failed error)
      unfold onRefresh
      split
      · exact h
      next hactive =>
        rw [if_pos (htypes hmode (by simpa using hactive))]
        exact h

/-- **The event** that ends a field renames the selection, or nothing does. -/
theorem OnSelection.renamesOpened (h : OnSelection s) (e : Event) : s.RenamesOpened e := by
  cases e with
  | key y k =>
      have hrenamed : (s.step (.key y k)).renamed =
          (if s.EndsField k then (s.renames y).toList else []) ++ s.renamed := onKey_renamed y s k
      unfold RenamesOpened
      rw [hrenamed]
      by_cases hends : s.EndsField k
      swap
      · rw [if_neg hends]
        exact .inl rfl
      rw [if_pos hends]
      cases hren : s.renames y with
      | none => exact .inl rfl
      | some r =>
          refine .inr ⟨_, _, h hends.2.1, ⟨y, k, rfl, hends⟩, ?_⟩
          rw [renames_eq hren]
          rfl
  | mouse y m => exact .inl ((reaches_onMouse s m).renamed_eq (mouseLets_rename s m))
  | resize size =>
      refine .inl ?_
      show (s.onResize size).renamed = s.renamed
      unfold onResize
      split <;> rfl
  | refresh y more done failed error =>
      refine .inl ?_
      show (s.onRefresh y more done failed error).renamed = s.renamed
      unfold onRefresh
      split
      · rfl
      · split <;> rfl

/-- **One event**, of those that only type. -/
theorem onSelection_step (h : OnSelection s ∧ EachPane Pane.InList s) {e : Event} (htypes : s.OnlyTypes e) :
    OnSelection (s.step e) ∧ EachPane Pane.InList (s.step e) := by
  refine ⟨?_, h.2.step inList_rule e⟩
  by_cases hmode : s.mode = .renaming
  · exact onSelection_typed h.1 h.2 hmode htypes
  · exact onSelection_step_closed hmode e

theorem onSelection_start (y : Sys) (path : Bytes) :
    OnSelection (start y path) ∧ EachPane Pane.InList (start y path) := by
  refine ⟨fun h => absurd (show Mode.normal = .renaming from h) (by decide), ?_⟩
  exact eachPane_start inList_rule (fun _ => .inr ⟨rfl, rfl⟩) y path

/-- **No other file is renamed** as long as one only types in the fields that are open. -/
theorem run_renamesOpened (y : Sys) (path : Bytes) (es : List Event)
    (htypes : StepsMeet step OnlyTypes (start y path) es) :
    ∀ past e, past ++ [e] <+: es → (run step (start y path) past).RenamesOpened e := by
  rintro past e ⟨later, rfl⟩
  have hrun := @run_invariant _ _ step OnlyTypes (fun s => OnSelection s ∧ EachPane Pane.InList s)
    (fun _ _ h hok => onSelection_step h hok) _ _ (onSelection_start y path) htypes.of_append.of_append
  exact hrun.1.renamesOpened e

end Rename

/-- A field is opened on `a`, and a letter is typed in it. -/
def typedOn : List Event :=
  [keyOf ["a", "b"] .down, keyOf ["a", "b"] .f2,
    .key (holding ["a", "b"]) { key := .char, ch := 'x'.toNat }]

theorem run_renamesOpened_typed :
    (run step (start (holding ["a", "b"]) (text "/d")) typedOn).RenamesOpened (keyOf ["a", "b"] .enter) :=
  run_renamesOpened (holding ["a", "b"]) (text "/d") (typedOn ++ [keyOf ["a", "b"] .enter])
    ⟨fun _ => trivial, fun _ => trivial, fun _ => trivial, fun _ => trivial, trivial⟩ typedOn _
    List.prefix_rfl

/-- A field is opened on `a`, and `b` is clicked before its end. -/
def renamedBeside : List Event :=
  [keyOf ["a", "b"] .down, keyOf ["a", "b"] .f2, mouseOf ["a", "b"] .press 5 4,
    .key (holding ["a", "b"]) { key := .char, ch := 'x'.toNat }, keyOf ["a", "b"] .enter]

/-- It is `b` that has the new name. -/
theorem renamedBeside_other :
    ¬ ∀ past e, past ++ [e] <+: renamedBeside →
      (run step (start (holding ["a", "b"]) (text "/d")) past).RenamesOpened e := by
  intro hall
  have hof : (run step (start (holding ["a", "b"]) (text "/d")) (renamedBeside.take 4)).renameOf =
      some (text "/d", text "a") := by decide +kernel
  have hdone : (run step (start (holding ["a", "b"]) (text "/d")) renamedBeside).renamed =
      [(text "/d/b", text "/d/ax")] := by decide +kernel
  rcases hall (renamedBeside.take 4) _ List.prefix_rfl with hsame | ⟨dir, name, hof', -, hlist⟩
  · revert hsame
    decide +kernel
  · obtain ⟨rfl, rfl⟩ := Prod.mk.inj (Option.some.inj (hof.symm.trans hof'))
    have hsrc := congrArg (·.map Prod.fst) (hdone.symm.trans hlist)
    revert hsrc
    decide +kernel

end Sshos.Apps.Files
