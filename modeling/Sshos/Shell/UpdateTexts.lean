import Sshos.Common.Utf8Text
import Sshos.Shell.UpdateFirst

/-!
# Sshos.Shell.UpdateTexts

The **texts** of the file of the update, on their way to a dialog: each is cut at a bound of its own,
counted in bytes, and a bound may fall inside a character.
-/

namespace Sshos.Shell.UpdateFile

open Sshos.Common (Continues IsText continues_iff written_utf8EncodeChar)
open Sshos.Lib (Bytes forall_mem_splitOn)

/-! ### Values are texts -/

/-- A literal is a text. -/
theorem isText_text (s : String) : IsText (text s) := by
  rw [text, Sshos.Lib.toList_toUTF8]
  exact IsText.flatMap fun c _ => (written_utf8EncodeChar c).isText

theorem isText_trim {s : Bytes} (h : IsText s) : IsText (trim s) := by
  have hascii : ∀ c, isSpace c = true → c.toNat < 0x80 := by
    intro c hc
    rcases of_decide_eq_true hc with rfl | rfl | rfl <;> decide
  have hspaces : IsText (s.takeWhile isSpace) :=
    IsText.of_ascii fun c hc => hascii c (List.mem_takeWhile_imp hc)
  have hleft : IsText (s.dropWhile isSpace) :=
    hspaces.of_append (by rwa [List.takeWhile_append_dropWhile])
  have hsplit : IsText (trim s ++ (s.dropWhile isSpace).rtakeWhile isSpace) := by
    unfold trim
    rwa [List.rdropWhile_append_rtakeWhile]
  refine ((IsText.append_iff fun c hc hcontinues => ?_).1 hsplit).1
  have hspace := hascii c (List.mem_rtakeWhile_imp (List.mem_of_mem_head? hc))
  exact absurd hcontinues.high (Nat.not_le.2 hspace)

/-- **What a text says of a key** is a text. -/
theorem isText_firstOf {raw v : Bytes} (h : IsText raw) {k : FileKey}
    (hv : firstOf (entries raw) k = some v) : IsText v := by
  obtain ⟨e, he, -, rfl⟩ := exists_of_firstOf hv
  obtain ⟨l, hl, hkeyed⟩ := List.mem_filterMap.1 he
  have hline : IsText l :=
    forall_mem_splitOn (fun _ _ => (IsText.append_ascii_iff (by decide)).1) h l hl
  unfold keyed at hkeyed
  split at hkeyed
  · cases hkeyed
  next heq =>
    simp only at hkeyed
    split at hkeyed
    · cases hkeyed
    cases hkeyed
    refine isText_trim ?_
    obtain ⟨key, value, rfl, hkey⟩ := List.eq_append_cons_of_mem (not_not.1 heq)
    have hbefore : ∀ c ∈ key, decide (c ≠ (0x3D : UInt8)) = true :=
      fun c hc => decide_eq_true fun heq => hkey (heq ▸ hc)
    rw [List.dropWhile_append_of_pos hbefore]
    exact ((IsText.append_ascii_iff (by decide)).1 hline).2

/-! ### Notes -/

/-- The bytes of a note that are drawn are those of a text. -/
theorem isText_filter_isInert {v : Bytes} (h : IsText v) : IsText (v.filter isInert) := by
  refine h.filter fun c hc => decide_eq_true ⟨UInt8.le_iff_toNat_le.2 (Nat.le_trans (by decide) hc), ?_⟩
  rintro rfl
  exact absurd hc (by decide)

/-- What comes after a text in a text begins with no continuation. -/
theorem not_continues_of_append {kept gone rest : Bytes} (hkept : IsText kept)
    (h : IsText (kept ++ gone ++ rest)) (hgone : ∀ c ∈ gone, Continues c) : gone = [] := by
  cases gone with
  | nil => rfl
  | cons c gone =>
      rw [List.append_assoc] at h
      have hhead := (hkept.of_append h).head c rfl
      exact absurd (hgone c List.mem_cons_self) hhead

/-- **A text that is cut, then taken back past continuations**, is one just when its last byte was
ASCII: a character that ends at the cut loses all its bytes but the first. -/
theorem isText_rdropWhile_iff {s : Bytes} (h : IsText s) {k : Nat} {c : UInt8} (hc : s[k]? = some c) :
    IsText ((s.take (k + 1)).rdropWhile fun c => c &&& 0xC0 = 0x80) ↔ c.toNat < 0x80 := by
  have htake : s.take (k + 1) = s.take k ++ [c] := by
    rw [List.take_add_one, hc]
    rfl
  by_cases hcontinues : Continues c
  · refine iff_of_false (fun hkept => ?_) (Nat.not_lt.2 hcontinues.high)
    have hsplit := List.take_append_drop (k + 1) s
    rw [← @List.rdropWhile_append_rtakeWhile _ (fun c => decide (c &&& 0xC0 = 0x80))
      (s.take (k + 1))] at hsplit
    have hnone := not_continues_of_append hkept (hsplit.symm ▸ h) fun c hc => by
      have hback := List.mem_rtakeWhile_imp hc
      exact continues_iff.2 (of_decide_eq_true hback)
    rw [List.rtakeWhile_eq_nil_iff, htake] at hnone
    refine hnone (List.concat_ne_nil c _) ?_
    rw [List.getLast_append_singleton]
    exact decide_eq_true (continues_iff.1 hcontinues)
  · have hlast : ¬ decide (c &&& 0xC0 = 0x80) = true :=
      fun hd => hcontinues (continues_iff.2 (of_decide_eq_true hd))
    have hbefore : IsText (s.take k) := h.take_iff.2 (by simpa [hc] using hcontinues)
    rw [htake, @List.rdropWhile_concat_neg _ (fun c => decide (c &&& 0xC0 = 0x80)) _ _ hlast,
      hbefore.append_left_iff]
    constructor
    · intro hone
      exact hone.tail_iff.1 .nil
    · intro hascii
      exact IsText.of_ascii (List.forall_mem_singleton.2 hascii)

/-- The note is not cut, or is cut after ASCII. -/
def NoteWhole (v : Bytes) : Prop :=
  (v.filter isInert).length ≤ kMaxUpdateNoteChars ∨
    ∀ c ∈ (v.filter isInert)[kMaxUpdateNoteChars - 1]?, c.toNat < 0x80

theorem isText_cleanNote_iff {v : Bytes} (h : IsText v) : IsText (cleanNote v) ↔ NoteWhole v := by
  have hout := isText_filter_isInert h
  unfold cleanNote NoteWhole
  simp only
  generalize v.filter isInert = out at hout ⊢
  split
  next hlong =>
    have hin : kMaxUpdateNoteChars - 1 < out.length := (Nat.sub_le _ _).trans_lt hlong
    have hc := List.getElem?_eq_getElem hin
    rw [hc, or_iff_right (Nat.not_le.2 hlong)]
    exact (isText_rdropWhile_iff hout hc).trans (by simp)
  next hshort => exact iff_of_true hout (.inl (Nat.not_lt.1 hshort))

/-- A note that has something to draw is not empty. -/
theorem cleanNote_eq_nil_iff {v : Bytes} (h : IsText v) : cleanNote v = [] ↔ v.filter isInert = [] := by
  have hhead := (isText_filter_isInert h).head
  unfold cleanNote
  simp only
  generalize v.filter isInert = out at hhead ⊢
  split
  next hlong =>
    cases out with
    | nil => cases hlong
    | cons c out =>
        refine iff_of_false (fun hnil => ?_) (List.cons_ne_nil c out)
        have hgone := List.rdropWhile_eq_nil_iff.1 hnil c List.mem_cons_self
        exact hhead c rfl (continues_iff.2 (of_decide_eq_true hgone))
  next => exact Iff.rfl

theorem length_cleanNote_le (v : Bytes) : (cleanNote v).length ≤ kMaxUpdateNoteChars := by
  unfold cleanNote
  simp only
  split
  · exact (List.rdropWhile_prefix _ _).length_le.trans (List.length_take_le _ _)
  next hshort => exact Nat.not_lt.1 hshort

/-- A note within the bound loses nothing but what is not drawn. -/
theorem cleanNote_of_short {v : Bytes} (h : (v.filter isInert).length ≤ kMaxUpdateNoteChars) :
    cleanNote v = v.filter isInert :=
  if_neg (Nat.not_lt.2 h)

section Run

variable {first : FileKey → Option Bytes}

/-- The note of this rank has something to draw. -/
def Stands (first : FileKey → Option Bytes) (rang : Nat) : Prop :=
  ∃ v, first (.note rang) = some v ∧ v.filter isInert ≠ []

/-- The run begins with the note of its first rank, if that one stands. -/
theorem notesOf_succ {left rang : Nat} (hfirst : ∀ k v, first k = some v → IsText v) :
    (¬ Stands first rang ∧ notesOf first (left + 1) rang = []) ∨
      ∃ v, Stands first rang ∧ first (.note rang) = some v ∧
        notesOf first (left + 1) rang = cleanNote v :: notesOf first left (rang + 1) := by
  cases hnote : first (.note rang) with
  | none =>
      refine .inl ⟨?_, by rw [notesOf, hnote]⟩
      rintro ⟨v, hv, -⟩
      rw [hnote] at hv
      cases hv
  | some v =>
      have hrun : notesOf first (left + 1) rang =
          if cleanNote v = [] then [] else cleanNote v :: notesOf first left (rang + 1) := by
        rw [notesOf, hnote]
      have hnil := cleanNote_eq_nil_iff (hfirst _ _ hnote)
      rw [hrun]
      by_cases hsome : cleanNote v = []
      · refine .inl ⟨?_, if_pos hsome⟩
        rintro ⟨v', hv', hdrawn⟩
        cases hnote.symm.trans hv'
        exact hdrawn (hnil.1 hsome)
      · exact .inr ⟨v, ⟨v, hnote, fun hempty => hsome (hnil.2 hempty)⟩, rfl, if_neg hsome⟩

/-- **The run of the notes**: those whose rank, and each before it, have something to draw. -/
theorem getElem?_notesOf (hfirst : ∀ k v, first k = some v → IsText v) {n : Bytes} (left : Nat) :
    ∀ rang i, (notesOf first left rang)[i]? = some n ↔
      i < left ∧ (∀ j ≤ i, Stands first (rang + j)) ∧
        ∃ v, first (.note (rang + i)) = some v ∧ cleanNote v = n := by
  induction left with
  | zero => simp [notesOf]
  | succ left ih =>
      intro rang i
      rcases @notesOf_succ first left rang hfirst with ⟨hnot, hnil⟩ | ⟨v, hstands, hv, hcons⟩
      · rw [hnil]
        exact iff_of_false nofun fun h => hnot (h.2.1 0 (Nat.zero_le i))
      · rw [hcons]
        cases i with
        | zero =>
            rw [List.getElem?_cons_zero, Option.some_inj]
            constructor
            · rintro rfl
              refine ⟨Nat.succ_pos left, fun j hj => ?_, v, hv, rfl⟩
              rw [Nat.le_zero.1 hj]
              exact hstands
            · rintro ⟨-, -, v', hv', hn⟩
              cases hv.symm.trans hv'
              exact hn
        | succ i =>
            have hrank : ∀ j, rang + 1 + j = rang + (j + 1) := fun j => by omega
            rw [List.getElem?_cons_succ, ih, hrank, Nat.add_lt_add_iff_right]
            refine and_congr_right fun _ => and_congr_left fun _ => ?_
            constructor
            · rintro h (_ | j) hj
              · exact hstands
              · rw [← hrank]
                exact h j (Nat.le_of_succ_le_succ hj)
            · intro h j hj
              rw [hrank]
              exact h (j + 1) (Nat.succ_le_succ hj)

end Run

/-! ### Reports -/

/-- A status whose report tells why. -/
def TellsWhy (st : UpdateStatus) : Prop := st = .checkFailed ∨ st = .applyFailed ∨ st = .updatesDisabled

instance (st : UpdateStatus) : Decidable (TellsWhy st) := inferInstanceAs (Decidable (_ ∨ _))

/-- A commit that the scripts know. -/
def Known (c : Bytes) : Prop := c ≠ [] ∧ c ≠ text "unknown"

theorem shortCommit_eq_nil_iff {c : Bytes} : UpdateService.shortCommit c = [] ↔ ¬ Known c := by
  unfold UpdateService.shortCommit Known
  split
  next hunknown => exact iff_of_true rfl fun h => hunknown.elim h.1 h.2
  next hknown =>
    obtain ⟨hsome, hne⟩ := not_or.1 hknown
    refine iff_of_false (fun hnil => ?_) (not_not.2 ⟨hsome, hne⟩)
    exact (List.take_eq_nil_iff.1 hnil).elim (by decide) hsome

theorem shortCommit_of_known {c : Bytes} (h : Known c) : UpdateService.shortCommit c = c.take 7 :=
  if_neg (not_or.2 h)

section Report

variable {u : UpdateService}

/-- What shows of the two commits, where a version is lacking. -/
def CommitsWhole (s : UpdateState) : Prop :=
  s.installedVersion = [] ∨ s.remoteVersion = [] → Known s.installedCommit → Known s.remoteCommit →
    IsText (s.installedCommit.take 7) ∧ IsText (s.remoteCommit.take 7)

theorem isText_versionLine_iff (hinstalled : IsText u.state.installedVersion)
    (hremote : IsText u.state.remoteVersion) : IsText u.versionLine ↔ CommitsWhole u.state := by
  unfold UpdateService.versionLine CommitsWhole
  split
  next hboth =>
    have hlacks := not_or.2 hboth
    refine iff_of_true ?_ fun hor => absurd hor hlacks
    exact (((isText_text _).append hinstalled).append (isText_text _)).append hremote
  next hlacks =>
    have hlacks' := or_iff_not_and_not.2 hlacks
    simp only
    split
    next hshort =>
      refine iff_of_true .nil fun _ hi hr => ?_
      exact absurd ⟨hi, hr⟩ (not_and_or.2 (hshort.imp shortCommit_eq_nil_iff.1 shortCommit_eq_nil_iff.1))
    next hlong =>
      obtain ⟨hi, hr⟩ := not_or.1 hlong
      rw [shortCommit_eq_nil_iff, not_not] at hi hr
      have harrow : text " -> " ≠ [] := by
        rw [text_ofList]
        decide
      rw [shortCommit_of_known hi, shortCommit_of_known hr, (isText_text _).between_iff harrow]
      exact ⟨fun h _ _ _ => h, fun h => h hlacks' hi hr⟩

/-- Notes that are texts are shown as they are. -/
theorem isText_foldl_iff {notes : List Bytes} (h : ∀ n ∈ notes, IsText n) (out : Bytes) :
    IsText (notes.foldl (fun out n => out ++ text "\n  - " ++ n) out) ↔ IsText out := by
  have hdash : text "\n  - " ≠ [] := by
    rw [text_ofList]
    decide
  induction notes generalizing out with
  | nil => exact Iff.rfl
  | cons n notes ih =>
      obtain ⟨hn, hrest⟩ := List.forall_mem_cons.1 h
      refine (ih hrest _).trans ?_
      rw [(isText_text _).between_iff hdash, and_iff_left hn]

theorem isText_news : IsText u.news := by
  unfold UpdateService.news UpdateService.decimal
  split
  · exact .nil
  · exact (isText_text _).append (by split <;> exact isText_text _)

/-- **A report of something to install** is whole just when its line of versions is. -/
theorem isText_available_iff (hstatus : u.state.status = .available)
    (hnotes : ∀ n ∈ u.state.notes, IsText n) : IsText u.reportText ↔ IsText u.versionLine := by
  have hbreak : text "\n" ≠ [] := by
    rw [text_ofList]
    decide
  have hhead : IsText ((if u.news = [] then text "Mise a jour disponible"
      else text "Mise a jour disponible" ++ text " : " ++ u.news) ++ text ".") := by
    refine IsText.append ?_ (isText_text _)
    split
    · exact isText_text _
    · exact ((isText_text _).append (isText_text _)).append isText_news
  unfold UpdateService.reportText
  simp only [hstatus]
  generalize (if u.news = [] then text "Mise a jour disponible"
    else text "Mise a jour disponible" ++ text " : " ++ u.news) ++ text "." = head at hhead ⊢
  have hshown : IsText (if u.versionLine = [] then head else head ++ text "\n" ++ u.versionLine) ↔
      IsText u.versionLine := by
    split
    next hnil => exact iff_of_true hhead (by rw [hnil]; exact .nil)
    next => rw [(isText_text _).between_iff hbreak, and_iff_right hhead]
  generalize (if u.versionLine = [] then head else head ++ text "\n" ++ u.versionLine) = shown at hshown ⊢
  split
  · exact hshown
  · have hend := @IsText.between_iff shown [] _ (isText_text "\n") hbreak
    rw [List.append_nil, and_iff_left .nil] at hend
    rw [isText_foldl_iff hnotes, hend, hshown]

/-- **A report is whole** just when what is cut for it is. -/
theorem isText_reportText_iff (hversion : IsText u.state.installedVersion)
    (hremote : IsText u.state.remoteVersion) (hnotes : ∀ n ∈ u.state.notes, IsText n) :
    IsText u.reportText ↔ (u.state.status = .available → CommitsWhole u.state) ∧
      (TellsWhy u.state.status → IsText (u.message.take 60)) := by
  have hwhy : IsText (if u.message = [] then text "raison inconnue" else u.message.take 60) ↔
      IsText (u.message.take 60) := by
    split
    next hnil => exact iff_of_true (isText_text _) (by rw [hnil]; exact .nil)
    next => exact Iff.rfl
  cases hs : u.state.status with
  | available =>
      rw [isText_available_iff hs hnotes, isText_versionLine_iff hversion hremote]
      simp [TellsWhy]
  | checkFailed | applyFailed | updatesDisabled =>
      simp only [UpdateService.reportText, hs]
      rw [(isText_text _).append_left_iff, hwhy]
      simp [TellsWhy]
  | upToDate =>
      refine iff_of_true ?_ (by simp [TellsWhy])
      simp only [UpdateService.reportText, hs]
      split
      · exact isText_text _
      · exact ((isText_text _).append hversion).append (isText_text _)
  | idle | checking | applying | restartPending | historyRewritten =>
      refine iff_of_true ?_ (by simp [TellsWhy])
      simp only [UpdateService.reportText, hs]
      exact isText_text _

/-- A status that is read is kept, unless it is of a restart. -/
theorem reload_status_iff {r : Reading} (st : UpdateStatus) (hpending : st ≠ .restartPending)
    (hdone : st ≠ .upToDate) : (u.reload r).state.status = st ↔ r.state.status = st := by
  unfold UpdateService.reload
  simp only
  split
  next h => exact iff_of_false hdone.symm fun heq => hpending (heq ▸ h.1)
  next => exact Iff.rfl

theorem reload_message {r : Reading} (h : TellsWhy r.state.status) :
    (u.reload r).message = r.state.message := by
  have hdone : UpdateService.inProgress r.state = false := by
    unfold UpdateService.inProgress
    rcases h with h | h | h <;> rw [h] <;> rfl
  simp [UpdateService.reload, hdone]

/-- What a report shows of a file is whole. -/
structure ReportWhole (s : UpdateState) : Prop where
  commits : s.status = .available → CommitsWhole s
  why : TellsWhy s.status → IsText (s.message.take 60)

theorem isText_reload_iff {s : UpdateState} (hversion : IsText s.installedVersion)
    (hremote : IsText s.remoteVersion) (hnotes : ∀ n ∈ s.notes, IsText n) :
    (∀ (u : UpdateService) (r : Reading), r.state = s → IsText (u.reload r).reportText) ↔
      ReportWhole s := by
  have hone : ∀ (u : UpdateService) (r : Reading), r.state = s →
      (IsText (u.reload r).reportText ↔ ReportWhole s) := by
    rintro u r rfl
    have htells : TellsWhy (u.reload r).state.status ↔ TellsWhy r.state.status := by
      unfold TellsWhy
      rw [reload_status_iff .checkFailed nofun nofun, reload_status_iff .applyFailed nofun nofun,
        reload_status_iff .updatesDisabled nofun nofun]
    rw [isText_reportText_iff hversion hremote hnotes, reload_status_iff .available nofun nofun, htells]
    constructor
    · rintro ⟨hcommits, hwhy⟩
      exact ⟨hcommits, fun h => reload_message h ▸ hwhy h⟩
    · rintro ⟨hcommits, hwhy⟩
      exact ⟨hcommits, fun h => (reload_message h).symm ▸ hwhy h⟩
  constructor
  · intro h
    exact (hone {} { state := s } rfl).1 (h {} { state := s } rfl)
  · intro h u r hr
    exact (hone u r hr).2 h

end Report

/-! ### The file -/

/-- The bound does not fall inside a character. -/
def EndsWhole (v : Bytes) (bound : Nat) : Prop := ∀ c ∈ v[bound]?, ¬ Continues c

/-- A version, as it is shown. -/
def IsVersion (v : Bytes) : Prop := v ≠ [] ∧ v.length ≤ 12 ∧ ∀ c ∈ v, isDigit c = true ∨ c = 0x2E

theorem cleanVersion_of {v : Bytes} (h : IsVersion v) : cleanVersion v = v := by
  obtain ⟨hsome, hshort, hall⟩ := h
  unfold cleanVersion
  rw [if_neg (not_or.2 ⟨hsome, Nat.not_lt.2 hshort⟩), if_pos]
  exact List.all_eq_true.2 fun c hc => by simpa using hall c hc

theorem cleanVersion_of_not {v : Bytes} (h : ¬ IsVersion v) : cleanVersion v = [] := by
  unfold cleanVersion
  split
  · rfl
  next hbounds =>
    obtain ⟨hsome, hshort⟩ := not_or.1 hbounds
    split
    next hall =>
      refine absurd ⟨hsome, Nat.not_lt.1 hshort, fun c hc => ?_⟩ h
      simpa using List.all_eq_true.1 hall c hc
    · rfl

theorem cleanVersion_eq_nil_iff {v : Bytes} : cleanVersion v = [] ↔ ¬ IsVersion v := by
  refine ⟨fun hnil h => h.1 ?_, cleanVersion_of_not⟩
  rw [← cleanVersion_of h, hnil]

/-- Figures and points: a text, all of it drawn. -/
theorem cleanVersion_whole (v : Bytes) :
    IsText (cleanVersion v) ∧ ∀ c ∈ cleanVersion v, isInert c = true := by
  by_cases h : IsVersion v
  · have hbyte : ∀ c ∈ v, c.toNat < 0x80 ∧ isInert c = true := by
      intro c hc
      rcases h.2.2 c hc with hdigit | rfl
      · obtain ⟨hlow, hhigh⟩ := of_decide_eq_true hdigit
        rw [UInt8.le_iff_toNat_le] at hlow hhigh
        refine ⟨hhigh.trans_lt (by decide), decide_eq_true ⟨?_, ?_⟩⟩
        · exact UInt8.le_iff_toNat_le.2 (Nat.le_trans (by decide) hlow)
        · rintro rfl
          exact absurd hhigh (by decide)
      · decide
    rw [cleanVersion_of h]
    exact ⟨IsText.of_ascii fun c hc => (hbyte c hc).1, fun c hc => (hbyte c hc).2⟩
  · rw [cleanVersion_of_not h]
    exact ⟨.nil, nofun⟩

section Table

variable {first : FileKey → Option Bytes}

/-- The file gives a version under this key. -/
def HasVersion (first : FileKey → Option Bytes) (k : FileKey) : Prop :=
  ∃ v, first k = some v ∧ IsVersion v

/-- The status a file gives. -/
def statusOf (first : FileKey → Option Bytes) : UpdateStatus :=
  ((first .status).bind readStatus).getD .idle

/-- **No bound falls inside a character**, of those a text of the file comes to. -/
structure WellCut (first : FileKey → Option Bytes) : Prop where
  stage : ∀ v, first .stage = some v → EndsWhole v 40
  message : ∀ v, first .message = some v → EndsWhole v kMaxStateMessageBytes
  notes : ∀ i v, i < kMaxUpdateNotes → (∀ j ≤ i, Stands first (1 + j)) → first (.note (1 + i)) = some v →
    NoteWhole v
  /-- Commits stand for the versions that are lacking. -/
  commits : statusOf first = .available →
    ¬ (HasVersion first .installedVersion ∧ HasVersion first .remoteVersion) →
    ∀ a b, first .installedCommit = some a → first .remoteCommit = some b → Known a → Known b →
      EndsWhole a 7 ∧ EndsWhole b 7
  why : TellsWhy (statusOf first) → ∀ v, first .message = some v → EndsWhole v 60

/-- The texts of a file, and the reports that are made of it, are **whole and inert**. -/
structure TextsWhole (first : FileKey → Option Bytes) (f : FileState) : Prop where
  stage : IsText f.stage
  message : IsText f.message
  versions : (IsText f.installedVersion ∧ ∀ c ∈ f.installedVersion, isInert c = true) ∧
    IsText f.remoteVersion ∧ ∀ c ∈ f.remoteVersion, isInert c = true
  notes : ∀ n ∈ f.notes, IsText n ∧ (∀ c ∈ n, isInert c = true) ∧ n.length ≤ kMaxUpdateNoteChars
  /-- A note within the bound loses nothing but what is not drawn. -/
  spared : ∀ i n, f.notes[i]? = some n → ∃ v, first (.note (1 + i)) = some v ∧
    ((v.filter isInert).length ≤ kMaxUpdateNoteChars → n = v.filter isInert)
  report : ∀ (u : UpdateService) (r : Reading), r.state = f.toUpdateState →
    IsText (u.reload r).reportText

theorem isText_getD_take_iff (hfirst : ∀ k v, first k = some v → IsText v) (k : FileKey) (bound : Nat) :
    IsText (((first k).getD []).take bound) ↔ ∀ v, first k = some v → EndsWhole v bound := by
  cases hk : first k with
  | none =>
      rw [Option.getD_none, List.take_nil]
      exact iff_of_true .nil nofun
  | some v =>
      rw [Option.getD_some, (hfirst k v hk).take_iff]
      constructor
      · rintro h _ ⟨⟩
        exact h
      · intro h
        exact h v rfl

theorem cleanVersion_getD_eq_nil_iff (k : FileKey) :
    cleanVersion ((first k).getD []) = [] ↔ ¬ HasVersion first k := by
  rw [cleanVersion_eq_nil_iff, not_iff_not]
  unfold HasVersion
  cases first k with
  | none => exact iff_of_false (fun h => h.1 rfl) (by simp)
  | some v => simp

theorem commitsWhole_iff (hfirst : ∀ k v, first k = some v → IsText v) (now : Int) :
    CommitsWhole (fieldsOf now first).toUpdateState ↔
      (¬ (HasVersion first .installedVersion ∧ HasVersion first .remoteVersion) →
        ∀ a b, first .installedCommit = some a → first .remoteCommit = some b → Known a → Known b →
          EndsWhole a 7 ∧ EndsWhole b 7) := by
  unfold CommitsWhole fieldsOf
  simp only
  rw [cleanVersion_getD_eq_nil_iff, cleanVersion_getD_eq_nil_iff, ← not_and_or,
    isText_getD_take_iff hfirst, isText_getD_take_iff hfirst]
  have hnil : ¬ Known [] := fun h => h.1 rfl
  refine imp_congr_right fun _ => ?_
  cases first .installedCommit with
  | none => exact iff_of_true (fun hi => absurd hi hnil) nofun
  | some a =>
      cases first .remoteCommit with
      | none => exact iff_of_true (fun _ hr => absurd hr hnil) nofun
      | some b => simp

/-- What is read of the notes. -/
theorem notesWhole_iff (hfirst : ∀ k v, first k = some v → IsText v) :
    (∀ n ∈ notesOf first kMaxUpdateNotes 1, IsText n) ↔
      ∀ i v, i < kMaxUpdateNotes → (∀ j ≤ i, Stands first (1 + j)) → first (.note (1 + i)) = some v →
        NoteWhole v := by
  constructor
  · intro h i v hi hstands hv
    rw [← isText_cleanNote_iff (hfirst _ _ hv)]
    have hget := (getElem?_notesOf hfirst kMaxUpdateNotes 1 i).2 ⟨hi, hstands, v, hv, rfl⟩
    exact h _ (List.mem_of_getElem? hget)
  · intro h n hn
    obtain ⟨i, hget⟩ := List.mem_iff_getElem?.1 hn
    obtain ⟨hi, hstands, v, hv, rfl⟩ := (getElem?_notesOf hfirst kMaxUpdateNotes 1 i).1 hget
    exact (isText_cleanNote_iff (hfirst _ _ hv)).2 (h i v hi hstands hv)

/-- What is drawn of a note, whole or not. -/
theorem spared_notesOf (hfirst : ∀ k v, first k = some v → IsText v) {i : Nat} {n : Bytes}
    (h : (notesOf first kMaxUpdateNotes 1)[i]? = some n) :
    ((∀ c ∈ n, isInert c = true) ∧ n.length ≤ kMaxUpdateNoteChars) ∧
      ∃ v, first (.note (1 + i)) = some v ∧
        ((v.filter isInert).length ≤ kMaxUpdateNoteChars → n = v.filter isInert) := by
  obtain ⟨-, -, v, hv, rfl⟩ := (getElem?_notesOf hfirst kMaxUpdateNotes 1 i).1 h
  exact ⟨⟨fun _ => isInert_of_mem_cleanNote, length_cleanNote_le v⟩, v, hv, cleanNote_of_short⟩

theorem textsWhole_fileOf_iff (hfirst : ∀ k v, first k = some v → IsText v) (now : Int)
    (hok : SchemaOk first) : TextsWhole first (fileOf now first) ↔ WellCut first := by
  have hstage := isText_getD_take_iff hfirst .stage 40
  have hmessage := isText_getD_take_iff hfirst .message kMaxStateMessageBytes
  have hwhy := isText_getD_take_iff hfirst .message 60
  have hcommits := commitsWhole_iff hfirst now
  have hnotes := notesWhole_iff hfirst
  have htwice : (((first .message).getD []).take kMaxStateMessageBytes).take 60 =
      ((first .message).getD []).take 60 := List.take_take
  unfold fileOf
  rw [if_neg (not_not.2 hok)]
  have hinstalled := cleanVersion_whole ((first .installedVersion).getD [])
  have hremote := cleanVersion_whole ((first .remoteVersion).getD [])
  constructor
  · intro h
    have htexts : ∀ n ∈ notesOf first kMaxUpdateNotes 1, IsText n := fun n hn => (h.notes n hn).1
    have hreport := (isText_reload_iff hinstalled.1 hremote.1 htexts).1 h.report
    refine ⟨hstage.1 h.stage, hmessage.1 h.message, hnotes.1 htexts, fun hs => ?_, fun hs => ?_⟩
    · exact hcommits.1 (hreport.commits hs)
    · exact hwhy.1 (htwice ▸ hreport.why hs)
  · intro h
    have htexts := hnotes.2 h.notes
    refine ⟨hstage.2 h.stage, hmessage.2 h.message, ⟨hinstalled, hremote⟩, fun n hn => ?_,
      fun i n hn => (spared_notesOf hfirst hn).2, ?_⟩
    · obtain ⟨i, hget⟩ := List.mem_iff_getElem?.1 hn
      exact ⟨htexts n hn, (spared_notesOf hfirst hget).1⟩
    · refine (isText_reload_iff hinstalled.1 hremote.1 htexts).2 ⟨fun hs => ?_, fun hs => ?_⟩
      · exact hcommits.2 (h.commits hs)
      · exact htwice.symm ▸ hwhy.2 (h.why hs)

/-- A file that says nothing shows nothing. -/
theorem textsWhole_blank (first : FileKey → Option Bytes) : TextsWhole first {} := by
  refine ⟨.nil, .nil, ⟨⟨.nil, nofun⟩, .nil, nofun⟩, nofun, nofun, ?_⟩
  exact (isText_reload_iff .nil .nil (by nofun)).2 ⟨nofun, fun h => absurd h (by decide)⟩

end Table

/-- **The texts of a file that is a text** are whole and inert, they and the reports, just when no bound
falls inside a character. -/
theorem textsWhole_iff {raw : Bytes} (now : Int) (h : IsText raw) :
    TextsWhole (firstOf (entries raw)) (parseUpdateState raw now) ↔
      (raw.length ≤ kMaxStateBytes → SchemaOk (firstOf (entries raw)) →
        WellCut (firstOf (entries raw))) := by
  have hfirst : ∀ k v, firstOf (entries raw) k = some v → IsText v := fun _ _ => isText_firstOf h
  by_cases hlen : raw.length ≤ kMaxStateBytes
  · rw [parseUpdateState_eq now hlen]
    by_cases hok : SchemaOk (firstOf (entries raw))
    · rw [textsWhole_fileOf_iff hfirst now hok]
      exact ⟨fun hcut _ _ => hcut, fun hcut => hcut hlen hok⟩
    · have hblank : fileOf now (firstOf (entries raw)) = {} := if_pos hok
      rw [hblank]
      exact iff_of_true (textsWhole_blank _) fun _ hok' => absurd hok' hok
  · have hblank : parseUpdateState raw now = {} := if_pos (Nat.not_le.1 hlen)
    rw [hblank]
    exact iff_of_true (textsWhole_blank _) fun hlen' => absurd hlen' hlen

theorem textsWhole_iff_accents :
    TextsWhole (firstOf (entries (text "schema=1\nnote_1=Réécrit\n")))
        (parseUpdateState (text "schema=1\nnote_1=Réécrit\n") 0) ↔
      ((text "schema=1\nnote_1=Réécrit\n").length ≤ kMaxStateBytes →
        SchemaOk (firstOf (entries (text "schema=1\nnote_1=Réécrit\n"))) →
          WellCut (firstOf (entries (text "schema=1\nnote_1=Réécrit\n")))) :=
  textsWhole_iff 0 (isText_text _)

/-- A note of 77 bytes, the last two of which are one character. -/
def accentAtBound : Bytes := text ("schema=1\nnote_1=" ++ String.ofList (List.replicate 75 'a') ++ "é\n")

theorem textsWhole_not_always : ¬ ∀ (raw : Bytes) (now : Int), IsText raw →
    TextsWhole (firstOf (entries raw)) (parseUpdateState raw now) := by
  intro h
  have hraw : IsText accentAtBound := isText_text _
  have hread : (parseUpdateState accentAtBound 0).notes = [List.replicate 75 0x61 ++ [0xC3]] := by
    decide +kernel
  have hnote := ((h accentAtBound 0 hraw).notes _ (hread ▸ List.mem_cons_self)).1
  have hbefore : IsText (List.replicate 75 (0x61 : UInt8)) :=
    IsText.of_ascii fun c hc => by rw [List.eq_of_mem_replicate hc]; decide
  exact absurd ((hbefore.of_append hnote).tail_iff.1 .nil) (by decide)

end Sshos.Shell.UpdateFile
