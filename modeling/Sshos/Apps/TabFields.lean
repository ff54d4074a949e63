import Sshos.Apps.EditorText
import Sshos.Apps.Tabbed

/-!
# Sshos.Apps.TabFields

**What is typed in the bar of a terminal window**: the name of a tab, the directory of new shells.
A key adds a character or takes one away. A paste is cut where the field is full, at a byte, which
may be inside a character. A name that is typed stays with its tab, and is typed again from there.
-/

namespace Sshos.Apps

open Sshos.Common (Continues IsScalar IsText encodeUtf8 encodeUtf8_of_not_scalar
  isScalar_kReplacement isText_encodeUtf8 written_encodeUtf8)
open Sshos.Input (KeyEvent)
open Sshos.Lib (Bytes run StepsMeet run_good_and_start_iff)

/-! ### Texts that are typed -/

/-- A text ends with a character, if it is not empty. -/
theorem exists_last {e : Bytes} (h : IsText e) :
    e = [] ∨ ∃ w cp, IsText w ∧ IsScalar cp ∧ e = w ++ encodeUtf8 cp := by
  induction h with
  | nil => exact .inl rfl
  | @cons cp s hcp hs ih =>
      rcases ih with rfl | ⟨w, cp', hw, hcp', rfl⟩
      · exact .inr ⟨[], cp, .nil, hcp, by rw [List.append_nil, List.nil_append]⟩
      · exact .inr ⟨encodeUtf8 cp ++ w, cp', .cons hcp hw, hcp', by rw [List.append_assoc]⟩

theorem continues_iff (b : UInt8) : Continues b ↔ (b &&& 0xc0 == 0x80) = true := by
  rw [beq_iff_eq, ← UInt8.toNat_inj]
  rfl

/-- The last character goes, all its bytes. -/
theorem popChar_append (w : Bytes) (cp : Nat) : PasteTerminal.popChar (w ++ encodeUtf8 cp) = w := by
  obtain ⟨c, hc, heq⟩ : ∃ c, IsScalar c ∧ encodeUtf8 cp = encodeUtf8 c := by
    by_cases hcp : IsScalar cp
    · exact ⟨cp, hcp, rfl⟩
    · exact ⟨_, isScalar_kReplacement, encodeUtf8_of_not_scalar hcp⟩
  obtain ⟨b0, rest, hw, hb0, hrest⟩ := (written_encodeUtf8 hc).head
  have hdrop : ∀ b ∈ rest.reverse, (b &&& 0xc0 == 0x80) = true := fun b hb =>
    (continues_iff b).1 (hrest b (List.mem_reverse.1 hb))
  have hstop : ¬ (b0 &&& 0xc0 == 0x80) = true := fun h => hb0 ((continues_iff b0).2 h)
  unfold PasteTerminal.popChar
  rw [heq, hw, List.reverse_append, List.reverse_cons, List.append_assoc,
    List.dropWhile_append_of_pos hdrop, List.singleton_append,
    @List.dropWhile_cons_of_neg _ (fun b => b &&& 0xc0 == 0x80) _ _ hstop, List.tail_cons,
    List.reverse_reverse]

/-- **A backspace** in the bar takes one character away. -/
theorem removesLast_popChar {e : Bytes} (h : IsText e) :
    RemovesLast e (PasteTerminal.popChar e) ∧ IsText (PasteTerminal.popChar e) := by
  rcases exists_last h with rfl | ⟨w, cp, hw, hcp, rfl⟩
  · exact ⟨.inl ⟨rfl, rfl⟩, .nil⟩
  · rw [popChar_append]
    exact ⟨.inr ⟨cp, hcp, rfl⟩, hw⟩

theorem RemovesLast.isText {e e' : Bytes} (h : RemovesLast e e') (he : IsText e) : IsText e' := by
  rcases h with ⟨-, rfl⟩ | ⟨cp, -, rfl⟩
  · exact .nil
  · rw [← popChar_append e' cp]
    exact (removesLast_popChar he).2

/-- **A byte** taken away is a character when it is ASCII. -/
theorem dropLast_iff {e : Bytes} (h : IsText e) :
    IsText e.dropLast ∧ RemovesLast e e.dropLast ↔ ∀ c ∈ e.getLast?, c.toNat < 0x80 :=
  (and_iff_right_of_imp fun hremoves => hremoves.isText h).trans removesLast_dropLast_iff

theorem isText_cleanPasteOneLine {e : Bytes} (h : IsText e) : IsText (cleanPasteOneLine e) := by
  unfold cleanPasteOneLine cleanPaste
  refine IsText.filter (fun b hb => ?_) (h.filter fun b hb => ?_)
  · have hne : ∀ c : UInt8, c.toNat < 0x80 → b ≠ c := by
      rintro c hc rfl
      omega
    simp [hne 0x0a (by decide), hne 0x0d (by decide), hne 0x09 (by decide)]
  · have hne : b ≠ 0x7f := by
      rintro rfl
      exact absurd hb (by decide)
    have hle : b ≥ 0x20 := by
      show (0x20 : UInt8).toNat ≤ b.toNat
      exact Nat.le_trans (by decide) hb
    simp [hne, hle]

/-- A key, or a fragment of a paste that is a text, and what comes with a key. -/
inductive Typing (ε : Type)
  | key (env : ε) (k : KeyEvent)
  | paste (text : Bytes) (htext : IsText text) (complete : Bool)

/-- A text, up to the bound of its field, or past it by the last character. -/
structure Typed (most : Nat) (e : Bytes) : Prop where
  text : IsText e
  within : e.length ≤ most ∨ ∃ w cp, e = w ++ encodeUtf8 cp ∧ w.length < most

theorem Typed.nil (most : Nat) : Typed most [] := ⟨.nil, .inl (Nat.zero_le most)⟩

/-- Below the bound, a character is added. -/
theorem Typed.append {most : Nat} {e : Bytes} (h : IsText e) (hroom : e.length < most) (cp : Nat) :
    Typed most (e ++ encodeUtf8 cp) :=
  ⟨h.append (isText_encodeUtf8 cp), .inr ⟨e, cp, rfl, hroom⟩⟩

theorem Typed.popChar {most : Nat} {e : Bytes} (h : Typed most e) :
    Typed most (PasteTerminal.popChar e) ∧ RemovesLast e (PasteTerminal.popChar e) := by
  obtain ⟨hremoves, htext⟩ := removesLast_popChar h.text
  refine ⟨⟨htext, .inl ?_⟩, hremoves⟩
  rcases h.within with hle | ⟨w, cp, rfl, hlt⟩
  · refine Nat.le_trans ?_ hle
    rcases hremoves with ⟨-, hnil⟩ | ⟨cp, -, heq⟩
    · rw [hnil]
      exact Nat.zero_le _
    · conv_rhs => rw [heq, List.length_append]
      exact Nat.le_add_right _ _
  · rw [popChar_append]
    exact Nat.le_of_lt hlt

/-- **What a paste adds** is a text when it is not cut inside a character. -/
theorem Typed.paste_iff {most : Nat} {e added : Bytes} (he : IsText e) (hadded : IsText added)
    (hroom : e.length < most) :
    Typed most (e ++ added.take (most - e.length)) ↔
      ∀ b ∈ added[most - e.length]?, ¬ Continues b := by
  rw [← hadded.cut_iff]
  constructor
  · intro h
    have htake : IsText (added.take (most - e.length)) := he.of_append h.text
    exact ⟨htake, htake.of_append (by rwa [List.take_append_drop])⟩
  · rintro ⟨htake, -⟩
    refine ⟨he.append htake, .inl ?_⟩
    rw [List.length_append, List.length_take]
    omega

namespace Tabbed.Terminal

/-! ### The field of the bar -/

/-- What is typed or pasted into the window. -/
def onTyping (t : Terminal) : Typing (Option Nat) → Terminal
  | .key master k => t.step (.key k master)
  | .paste text _ complete => t.step (.paste text complete)

/-- The bound of the field. -/
def fieldMost (t : Terminal) : Nat := if t.mode = .renaming then kMaxName else kMaxPath

/-- The names of the tabs are texts within their bound. -/
def NamesWhole (t : Terminal) : Prop := ∀ tab ∈ t.tabs, Typed kMaxName tab.customTitle

/-- So are the names and, when it is open, the field. -/
structure FieldWhole (t : Terminal) : Prop where
  names : t.NamesWhole
  edit : t.mode ≠ .normal → Typed t.fieldMost t.edit

/-- A backspace takes one character. -/
def FieldRemoves (t : Terminal) : Typing (Option Nat) → Prop
  | .key master k =>
      t.mode ≠ .normal → k.key = .backspace → RemovesLast t.edit (t.onKey k master).edit
  | .paste .. => True

/-- No paste is cut inside a character. -/
def FieldSafe (t : Terminal) : Typing (Option Nat) → Prop
  | .key .. => True
  | .paste text _ _ => t.mode ≠ .normal → t.edit.length < t.fieldMost →
      ∀ b ∈ (cleanPasteOneLine text)[t.fieldMost - t.edit.length]?, ¬ Continues b

variable {t : Terminal}

/-! ### The names -/

theorem NamesWhole.activeTab (h : t.NamesWhole) : Typed kMaxName t.activeTab.customTitle := by
  unfold Terminal.activeTab tab
  rw [List.getD_eq_getElem?_getD]
  cases hget : t.tabs[t.active]? with
  | none => exact .nil kMaxName
  | some tab => exact h tab (List.mem_of_getElem? hget)

/-- A new window. -/
theorem fieldWhole_start (win : UInt32) (app : Nat) (fdGen : UInt32) (master : Option Nat) :
    (start win app fdGen master).FieldWhole := by
  cases master with
  | none =>
      refine ⟨fun tab' htab' => ?_, fun hno => absurd rfl hno⟩
      obtain ⟨tab, htab, rfl⟩ := List.mem_map.1 htab'
      rw [List.mem_singleton.1 htab]
      exact .nil kMaxName
  | some fd =>
      refine ⟨fun tab' htab' => ?_, fun hno => absurd rfl hno⟩
      obtain ⟨tab, htab, rfl⟩ := List.mem_map.1 htab'
      rw [List.mem_singleton.1 htab]
      exact .nil kMaxName

/-- A tab is changed, and keeps its name or takes a good one. -/
theorem NamesWhole.update (h : t.NamesWhole) (i : Nat) {f : Tab → Tab}
    (hf : ∀ tab, (f tab).customTitle = tab.customTitle ∨ Typed kMaxName (f tab).customTitle) :
    (t.update i f).NamesWhole := by
  intro tab' htab'
  obtain ⟨j, hj, rfl⟩ := List.mem_iff_getElem.1 htab'
  have hin : j < t.tabs.length := by
    rw [← List.length_modify]
    exact hj
  have hget : (t.update i f).tabs[j] = if i = j then f t.tabs[j] else t.tabs[j] :=
    List.getElem_modify ..
  have hold := h _ (List.getElem_mem hin)
  rw [hget]
  split
  · rcases hf t.tabs[j] with hsame | hgood
    · rw [hsame]
      exact hold
    · exact hgood
  · exact hold

theorem NamesWhole.openTab (h : t.NamesWhole) (master : Option Nat) : (t.openTab master).NamesWhole := by
  cases master with
  | none => exact h
  | some fd =>
      intro tab' htab'
      -- all the tabs take their size again
      obtain ⟨tab, htab, rfl⟩ := List.mem_map.1 htab'
      rcases List.mem_append.1 htab with hold | hnew
      · exact h tab hold
      · rw [List.mem_singleton.1 hnew]
        exact .nil kMaxName

theorem NamesWhole.selectTab (h : t.NamesWhole) (i : Nat) : (t.selectTab i).NamesWhole := by
  unfold Terminal.selectTab
  split
  · exact h
  · exact h

theorem NamesWhole.closeTab (h : t.NamesWhole) (i : Nat) : (t.closeTab i).NamesWhole := by
  unfold Terminal.closeTab
  split
  · exact h
  · split
    · exact h
    · exact fun tab htab => h tab ((List.eraseIdx_subset ..) htab)

theorem NamesWhole.guestKey (h : t.NamesWhole) (k : KeyEvent) : (t.guestKey k).NamesWhole := by
  unfold Terminal.guestKey
  split
  · split
    · exact h
    · exact h
  · exact h.update _ fun _ => .inl rfl

theorem mode_openTab (t : Terminal) (master : Option Nat) : (t.openTab master).mode = t.mode := by
  cases master <;> rfl

theorem mode_selectTab (t : Terminal) (i : Nat) : (t.selectTab i).mode = t.mode := by
  unfold selectTab
  split <;> rfl

theorem mode_closeTab (t : Terminal) (i : Nat) : (t.closeTab i).mode = t.mode := by
  unfold closeTab
  split
  · rfl
  · split <;> rfl

theorem mode_guestKey (t : Terminal) (k : KeyEvent) : (t.guestKey k).mode = t.mode := by
  unfold guestKey
  split
  · split <;> rfl
  · rfl

/-- Without a field, one key opens one. -/
theorem NamesWhole.onKey (h : t.NamesWhole) (hmode : t.mode = .normal) {k : KeyEvent}
    (hk : k.key ≠ .f2) (master : Option Nat) :
    (t.onKey k master).NamesWhole ∧ (t.onKey k master).mode = .normal := by
  unfold Terminal.onKey gesture
  simp only [hmode, hk, if_false]
  split_ifs
  · exact ⟨h.openTab master, (mode_openTab t master).trans hmode⟩
  · exact ⟨h.closeTab _, (mode_closeTab t _).trans hmode⟩
  · exact ⟨h.selectTab _, (mode_selectTab t _).trans hmode⟩
  · exact ⟨h.selectTab _, (mode_selectTab t _).trans hmode⟩
  · exact ⟨h.guestKey k, (mode_guestKey t k).trans hmode⟩

theorem onKey_f2 (hmode : t.mode = .normal) {k : KeyEvent} (hk : k.key = .f2)
    (master : Option Nat) : t.onKey k master = t.beginRename := by
  unfold onKey gesture
  simp [hmode, hk]

/-- With a field, a key is for it. -/
theorem FieldWhole.onKey_field (h : t.FieldWhole) (hmode : t.mode ≠ .normal) (k : KeyEvent)
    (master : Option Nat) : ∃ commit, commit.mode = .normal ∧ commit.NamesWhole ∧
      t.onKey k master = t.fieldKey commit t.fieldMost k := by
  have hedit := h.edit hmode
  unfold onKey fieldMost at *
  cases hm : t.mode with
  | normal => exact absurd hm hmode
  | «renaming» =>
      rw [hm] at hedit
      refine ⟨t.commitRename, ?_, ?_, rfl⟩
      · unfold commitRename
        rw [if_neg (not_not.2 hm)]
        rfl
      · unfold commitRename
        rw [if_neg (not_not.2 hm)]
        exact h.names.update t.active fun _ => .inr hedit
  | editingPath =>
      refine ⟨t.commitPathEdit, ?_, ?_, rfl⟩
      · unfold commitPathEdit
        rw [if_neg (not_not.2 hm)]
      · unfold commitPathEdit
        rw [if_neg (not_not.2 hm)]
        exact h.names

/-- A key keeps the field whole. -/
theorem FieldWhole.key (h : t.FieldWhole) (hmode : t.mode ≠ .normal) (k : KeyEvent)
    (master : Option Nat) : (t.onKey k master).FieldWhole ∧ t.FieldRemoves (.key master k) := by
  obtain ⟨commit, hcommit, hnames, heq⟩ := h.onKey_field hmode k master
  have hwhole := h.edit hmode
  suffices hfield : (t.fieldKey commit t.fieldMost k).FieldWhole ∧
      (k.key = .backspace → RemovesLast t.edit (t.fieldKey commit t.fieldMost k).edit) by
    rw [← heq] at hfield
    exact ⟨hfield.1, fun _ => hfield.2⟩
  unfold fieldKey
  split
  next hkey =>
    exact ⟨⟨hnames, fun hno => absurd hcommit hno⟩, fun hb => by rw [hkey] at hb; cases hb⟩
  next hkey => exact ⟨⟨h.names, fun hno => absurd rfl hno⟩, fun hb => by rw [hkey] at hb; cases hb⟩
  next => exact ⟨⟨h.names, fun _ => hwhole.popChar.1⟩, fun _ => hwhole.popChar.2⟩
  next hkey =>
    refine ⟨?_, fun hb => by rw [hkey] at hb; cases hb⟩
    split
    next hroom => exact ⟨h.names, fun _ => Typed.append hwhole.text hroom k.ch⟩
    · exact h
  next _ _ hother _ => exact ⟨h, fun hb => absurd hb hother⟩

/-- **A step of typing** keeps the field whole exactly when it is safe. -/
theorem fieldWhole_iff (h : t.FieldWhole) (i : Typing (Option Nat)) :
    (t.onTyping i).FieldWhole ∧ t.FieldRemoves i ↔ t.FieldSafe i := by
  cases i with
  | key master k =>
      refine iff_of_true ?_ trivial
      show (t.onKey k master).FieldWhole ∧ t.FieldRemoves (.key master k)
      by_cases hmode : t.mode = .normal
      · refine ⟨?_, fun hno => absurd hmode hno⟩
        by_cases hk : k.key = .f2
        · rw [onKey_f2 hmode hk]
          exact ⟨h.names, fun _ => h.names.activeTab⟩
        · obtain ⟨hnames, hnormal⟩ := h.names.onKey hmode hk master
          exact ⟨hnames, fun hno => absurd hnormal hno⟩
      · exact h.key hmode k master
  | paste text htext complete =>
      show (t.onPaste text complete).FieldWhole ∧ True ↔ _
      rw [and_true]
      unfold onPaste
      by_cases hmode : t.mode = .normal
      · rw [if_neg (not_not.2 hmode)]
        refine iff_of_true ?_ fun hno => absurd hmode hno
        split
        · exact h
        · exact ⟨h.names.update _ fun _ => .inl rfl, fun hno => absurd hmode hno⟩
      · rw [if_pos hmode]
        show (if t.edit.length < t.fieldMost then _ else t).FieldWhole ↔ _
        have hadded := isText_cleanPasteOneLine htext
        by_cases hroom : t.edit.length < t.fieldMost
        · rw [if_pos hroom]
          have hiff := Typed.paste_iff (h.edit hmode).text hadded hroom
          exact ⟨fun hw _ _ => hiff.1 (hw.edit hmode),
            fun hs => ⟨h.names, fun _ => hiff.2 (hs hmode hroom)⟩⟩
        · rw [if_neg hroom]
          exact iff_of_true h fun _ hlt => absurd hlt hroom

/-- **A run of typing**: the field is whole as long as no paste is cut inside a character. -/
theorem run_fieldWhole_iff (t : Terminal) (typed : List (Typing (Option Nat))) :
    (∀ before, before <+: typed → (run onTyping t before).FieldWhole) ∧
        StepsMeet onTyping FieldRemoves t typed ↔
      t.FieldWhole ∧ StepsMeet onTyping FieldSafe t typed :=
  @run_good_and_start_iff _ _ onTyping FieldSafe FieldRemoves FieldWhole
    (fun _ i h => fieldWhole_iff h i) t typed

end Tabbed.Terminal

end Sshos.Apps
