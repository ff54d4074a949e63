import Sshos.Apps.EditorSaves
import Sshos.Lib.Volume

/-!
# Sshos.Apps.EditorAtomic

**Saving, on a volume.** The text goes to a file beside, which then takes the place of the one that
was edited. It takes the place of the name, not of the file: the rights are those of the file
beside, and a link is replaced. And what already stands beside is opened as it is.
-/

namespace Sshos.Apps

open Sshos.Lib (Bytes Volume)
open Sshos.Lib.Volume (kLinks)
open Sshos.Shell (text)

/-- What `write` takes of a text. -/
def Saving.written (io : Saving) (t : Bytes) : Bytes := t.take (io.wrote.getD 0)

namespace Editor

def kTmpSuffix : Bytes := text ".termos-tmp"

/-- The rights the file beside is made with, less those the process withholds: `0600`. -/
def kTmpMode : BitVec 12 := 0x180#12

variable (s : Editor)

def tmp : Bytes := s.path ++ kTmpSuffix

def saveOn (umask : BitVec 12) (d : Volume Bytes UInt8) (io : Saving) :
    Editor × Volume Bytes UInt8 :=
  if s.path = [] then ({ s with status := text "aucun fichier" }, d)
  else
    match if io.opened then d.openTrunc s.tmp (kTmpMode &&& ~~~umask) else none with
    | none => ({ s with status := text "ecriture impossible : " ++ io.strerror }, d)
    | some (d, fd) =>
        let d := d.store fd (io.written s.buf.text)
        if io.wrote ≠ some s.buf.text.length then
          ({ s with status := text "ecriture incomplete" }, d.unlink s.tmp)
        else
          match if io.renamed then d.rename s.tmp s.path else none with
          | none =>
              ({ s with status := text "remplacement impossible : " ++ io.strerror }, d.unlink s.tmp)
          | some d =>
              ({ s with file := s.buf.text, buf := s.buf.markSaved, status := text "enregistre" }, d)

/-- On a volume, the editor does what it does when the calls go as they go there. -/
theorem saveOn_fst (umask : BitVec 12) (d : Volume Bytes UInt8) (io : Saving) :
    ∃ opened renamed, (s.saveOn umask d io).1 = s.save { io with opened, renamed } := by
  unfold saveOn
  by_cases hpath : s.path = []
  · rw [if_pos hpath]
    exact ⟨true, true, by rw [save, if_pos hpath]⟩
  rw [if_neg hpath]
  split
  · exact ⟨false, true, by simp [save, hpath]⟩
  next d fd _ =>
  dsimp only
  by_cases hwrote : io.wrote = some s.buf.text.length
  · rw [if_neg (not_not.2 hwrote)]
    split
    · exact ⟨true, false, by simp [save, hpath, hwrote]⟩
    · exact ⟨true, true, by simp [save, hpath, hwrote]⟩
  · rw [if_pos hwrote]
    exact ⟨true, true, by simp [save, hpath, hwrote]⟩

/-! ### What a save should do -/

/-- The save is reported as failed, and nothing is lost nor left behind. -/
structure NotSaved (d : Volume Bytes UInt8) (r : Editor × Volume Bytes UInt8) : Prop where
  reported : r.1.status ≠ text "enregistre"
  editor : r.1 = { s with status := r.1.status }
  bytes : r.2.read s.path = d.read s.path
  noTemp : ∀ n, d.entry n = none → r.2.entry n = none

/-- The text is saved, and nothing else changes. -/
structure Saved (d : Volume Bytes UInt8) (r : Editor × Volume Bytes UInt8) : Prop where
  reported : r.1.status = text "enregistre"
  unmodified : r.1.buf.modified = false
  content : r.2.read s.path = some s.buf.text
  regular : ∀ i, d.entry s.path = some (.file i) → ∃ j, r.2.entry s.path = some (.file j)
  link : ∀ target, d.entry s.path = some (.link target) → r.2.entry s.path = some (.link target)
  mode : r.2.modeOf s.path = d.modeOf s.path
  names : ∀ n, n ≠ s.path → d.lead kLinks s.path ≠ some n → r.2.entry n = d.entry n
  files : ∀ n i, d.entry n = some (.file i) → d.fileAt s.path ≠ some i → r.2.inode i = d.inode i

/-- The file beside can be opened: no other thing stands there, at the end of the links. -/
def Opens (d : Volume Bytes UInt8) (io : Saving) : Prop :=
  io.opened = true ∧ ∃ m, d.lead kLinks s.tmp = some m ∧ d.entry m ≠ some .other

/-- When a save is what it should be. One that goes through: the name edited stands for a file, and
beside there is another name of it, or nothing and the rights are those of a file made there. One
that fails after the opening: there is nothing beside, or it leads to a file; and if that is the
one edited, then it has been given back its content, and keeps its names. -/
def SavesWell (umask : BitVec 12) (d : Volume Bytes UInt8) (io : Saving) : Prop :=
  s.path ≠ [] → s.Opens d io →
    if io.wrote = some s.buf.text.length ∧ io.renamed = true then
      ∃ i, d.entry s.path = some (.file i) ∧ (d.entry s.tmp = some (.file i) ∨
        d.entry s.tmp = none ∧ (d.inode i).mode = kTmpMode &&& ~~~umask)
    else
      d.entry s.tmp = none ∨ ∃ i, d.fileAt s.tmp = some i ∧ (d.fileAt s.path = some i →
        (d.inode i).content = io.written s.buf.text ∧ s.tmp ∉ d.chain kLinks s.path)

/-! ### Where it fails -/

variable {s} {umask : BitVec 12} {d d' : Volume Bytes UInt8} {io : Saving} {i j : Nat}

theorem tmp_ne_path (s : Editor) : s.tmp ≠ s.path := by
  intro h
  have hnil : kTmpSuffix = [] := List.append_right_eq_self.1 h
  exact absurd hnil (by decide +kernel)

/-- The text of a failure is not that of a success. -/
theorem status_ne {prefix_ rest : Bytes} (h : prefix_.take 2 ≠ (text "enregistre").take 2)
    (hlen : 2 ≤ prefix_.length) : prefix_ ++ rest ≠ text "enregistre" := by
  intro heq
  apply h
  rw [← heq, List.take_append_of_le_length hlen]

/-- The file beside is opened. -/
theorem opens_iff (mode : BitVec 12) :
    s.Opens d io ↔ io.opened = true ∧ d.openTrunc s.tmp mode ≠ none := by
  unfold Opens
  refine and_congr_right fun _ => ?_
  unfold Volume.openTrunc
  cases hlead : d.lead kLinks s.tmp with
  | none => simp
  | some m =>
      have hno := Volume.lead_no_link hlead
      cases hm : d.entry m with
      | none => simp [hm]
      | some st => cases st <;> simp_all

/-- Beside, where something is opened, there is no directory. -/
theorem entry_tmp_ne_other {m : Bytes} (hlead : d.lead kLinks s.tmp = some m)
    (hm : d.entry m ≠ some .other) : d.entry s.tmp ≠ some .other := by
  intro hother
  have hend := @Volume.lead_end _ _ d kLinks s.tmp (by simp [hother])
  rw [hend] at hlead
  cases hlead
  exact hm hother

theorem tmp_made {mode : BitVec 12} (hnone : d.entry s.tmp = none) (ht : d.fileAt s.path = some i)
    (w : Bytes) {u : Volume Bytes UInt8}
    (hu : u = ((d.create s.tmp mode).store d.fresh w).unlink s.tmp) :
    u.read s.path = d.read s.path ∧ ∀ n, d.entry n = none → u.entry n = none := by
  rw [Volume.unlink_eq (by simp [Volume.entry_create_self])] at hu
  have hentry : ∀ n, u.entry n = d.entry n := by
    intro n
    rw [hu]
    by_cases hn : n = s.tmp
    · rw [hn, Volume.entry_unname_self, hnone]
    · rw [Volume.entry_unname hn, Volume.entry_store, Volume.entry_create hn]
  have hfile : u.fileAt s.path = some i := Volume.fileAt_congr ht fun n _ => hentry n
  have hfresh : i ≠ d.fresh := Nat.ne_of_lt (Volume.fileAt_lt ht)
  have hinode : u.inode i = d.inode i := by
    rw [hu]
    exact (Volume.inode_store_ne hfresh).trans (Volume.inode_create_ne hfresh)
  refine ⟨?_, fun n hn => (hentry n).trans hn⟩
  rw [Volume.read_of_fileAt hfile, Volume.read_of_fileAt ht, hinode]

/-- A file stood beside: its name goes, and its content is what was written. -/
theorem tmp_truncated (hfile : d.fileAt s.tmp = some j) (ht : d.fileAt s.path = some i) (w : Bytes) :
    (((d.store j w).unlink s.tmp).read s.path = d.read s.path ∧
      ∀ n, d.entry n = none → ((d.store j w).unlink s.tmp).entry n = none) ↔
    (i = j → (d.inode j).content = w ∧ s.tmp ∉ d.chain kLinks s.path) := by
  obtain ⟨m, hlead, hm⟩ := Volume.fileAt_iff.1 hfile
  have hother := entry_tmp_ne_other hlead (by simp [hm])
  have hun : (d.store j w).unlink s.tmp = (d.store j w).unname s.tmp := Volume.unlink_eq hother
  have hnames : ∀ n, d.entry n = none → ((d.store j w).unname s.tmp).entry n = none := by
    intro n hn
    by_cases htmp : n = s.tmp
    · rw [htmp, Volume.entry_unname_self]
    · rw [Volume.entry_unname htmp, Volume.entry_store, hn]
  have ht' : (d.store j w).fileAt s.path = some i := Volume.fileAt_store.trans ht
  have hchain : (d.store j w).chain kLinks s.path = d.chain kLinks s.path :=
    Volume.chain_of_entry rfl
  rw [hun, and_iff_left hnames, Volume.read_of_fileAt ht]
  by_cases hij : i = j
  · subst hij
    by_cases hpass : s.tmp ∈ d.chain kLinks s.path
    · have hlost := Volume.fileAt_unname ht' (hchain ▸ hpass)
      refine iff_of_false ?_ (fun h => (h rfl).2 hpass)
      simp [Volume.read, hlost]
    · have hkept := Volume.fileAt_unname_ne ht' (hchain ▸ hpass)
      rw [Volume.read_of_fileAt hkept]
      show some ((d.store i w).inode i).content = _ ↔ _
      rw [Volume.inode_store, Option.some.injEq]
      exact ⟨fun h _ => ⟨h.symm, hpass⟩, fun h => (h rfl).1.symm⟩
  · have hpass : s.tmp ∉ d.chain kLinks s.path := fun hmem =>
      hij (Option.some.inj ((Volume.fileAt_of_mem_chain ht hmem).symm.trans hfile))
    have hkept := Volume.fileAt_unname_ne ht' (hchain ▸ hpass)
    rw [Volume.read_of_fileAt hkept]
    refine iff_of_true ?_ (fun h => absurd h hij)
    show some ((d.store j w).inode i).content = _
    rw [Volume.inode_store_ne hij]

/-- **After a failure.** What was written beside is taken away: the text that was there is what it
was, and no name is left, exactly if there was nothing beside, or a file; and if it was the one
edited, it has its content back and its names do not pass by the one that is taken away. -/
theorem unlink_tmp_iff {mode : BitVec 12} (hopen : d.openTrunc s.tmp mode = some (d', j))
    (ht : d.fileAt s.path = some i) (w : Bytes) :
    (((d'.store j w).unlink s.tmp).read s.path = d.read s.path ∧
      ∀ n, d.entry n = none → ((d'.store j w).unlink s.tmp).entry n = none) ↔
    d.entry s.tmp = none ∨ ∃ k, d.fileAt s.tmp = some k ∧ (d.fileAt s.path = some k →
      (d.inode k).content = w ∧ s.tmp ∉ d.chain kLinks s.path) := by
  rcases Volume.openTrunc_cases hopen with ⟨m, hlead, hnone, rfl, rfl⟩ | ⟨hfile, rfl⟩
  · by_cases hm : m = s.tmp
    · subst hm
      exact iff_of_true (tmp_made hnone ht w rfl) (.inl hnone)
    · -- made at the end of a link: it stays there
      have hother := entry_tmp_ne_other hlead (by simp [hnone])
      rw [Volume.unlink_eq (by rwa [Volume.entry_store, Volume.entry_create (Ne.symm hm)])]
      refine iff_of_false (fun h => ?_) ?_
      · have hleft := h.2 m hnone
        rw [Volume.entry_unname hm, Volume.entry_store, Volume.entry_create_self] at hleft
        cases hleft
      · rintro (hfree | ⟨k, hk, -⟩)
        · have hend := @Volume.lead_end _ _ d kLinks s.tmp (by simp [hfree])
          exact hm (Option.some.inj (hlead.symm.trans hend))
        · obtain ⟨m', hlead', hm'⟩ := Volume.fileAt_iff.1 hk
          rw [Option.some.inj (hlead'.symm.trans hlead), hnone] at hm'
          cases hm'
  · have hsome : d.entry s.tmp ≠ none :=
      Volume.entry_ne_none_of_mem_chain hfile Volume.mem_chain_self
    rw [Volume.store_store, or_iff_right hsome, hfile, ht]
    simp only [Option.some.injEq, exists_eq_left']
    exact tmp_truncated hfile ht w

/-! ### Where it goes through -/

/-- Once the file beside is open, what had a name stands where it stood. -/
theorem entry_opened {mode : BitVec 12} (hopen : d.openTrunc s.tmp mode = some (d', j)) (w : Bytes)
    {n : Bytes} (hn : d.entry n ≠ none) : (d'.store j w).entry n = d.entry n := by
  rcases Volume.openTrunc_cases hopen with ⟨m, -, hnone, rfl, -⟩ | ⟨-, rfl⟩
  · show (d.create m mode).entry n = d.entry n
    refine Volume.entry_create ?_
    rintro rfl
    exact hn hnone
  · rfl

theorem opened_free {mode : BitVec 12} (hopen : d.openTrunc s.tmp mode = some (d', j))
    (hfree : d.entry s.tmp = none) : d' = d.create s.tmp mode ∧ j = d.fresh := by
  have hend := @Volume.lead_end _ _ d kLinks s.tmp (by simp [hfree])
  rcases Volume.openTrunc_cases hopen with ⟨m, hlead, -, hd, hj⟩ | ⟨hfile, -⟩
  · rw [Option.some.inj (hend.symm.trans hlead)]
    exact ⟨hd, hj⟩
  · exact absurd hfree (Volume.entry_ne_none_of_mem_chain hfile Volume.mem_chain_self)

/-- What has a name and leads to a file is a link or a file. -/
theorem file_or_link (ht : d.fileAt s.path = some i) :
    d.entry s.path = some (.file i) ∨ ∃ target, d.entry s.path = some (.link target) := by
  obtain ⟨m, hlead, hm⟩ := Volume.fileAt_iff.1 ht
  rcases Volume.entry_of_mem_chain hlead Volume.mem_chain_self with heq | hlink
  · exact .inl (heq ▸ hm)
  · exact .inr hlink

theorem inode_new {mode : BitVec 12} {w : Bytes} :
    (((d.create s.tmp mode).store d.fresh w).move s.tmp s.path).inode d.fresh =
      { mode, content := w } :=
  Volume.inode_store.trans (by rw [Volume.inode_create])

/-- A new file takes the place of another that has the same rights. -/
theorem saved_new {e : Editor} (he : e.status = text "enregistre" ∧ e.buf.modified = false)
    {mode : BitVec 12} (hfile : d.entry s.path = some (.file i)) (hfree : d.entry s.tmp = none)
    (hmode : (d.inode i).mode = mode) {u : Volume Bytes UInt8}
    (hu : u = ((d.create s.tmp mode).store d.fresh s.buf.text).move s.tmp s.path) :
    s.Saved d (e, u) := by
  have hne := tmp_ne_path s
  have hpath : u.entry s.path = some (.file d.fresh) := by
    rw [hu, Volume.entry_move_to (Ne.symm hne), Volume.entry_store, Volume.entry_create_self]
  have hinode : u.inode d.fresh = { mode, content := s.buf.text } := by rw [hu, inode_new]
  have hat := Volume.fileAt_file hpath
  refine ⟨he.1, he.2, ?_, fun _ _ => ⟨_, hpath⟩, ?_, ?_, ?_, ?_⟩
  · rw [Volume.read_of_fileAt hat, hinode]
  · intro target hlink
    rw [hfile] at hlink
    cases hlink
  · rw [Volume.modeOf_of_fileAt hat, hinode, Volume.modeOf_of_fileAt (Volume.fileAt_file hfile), hmode]
  · intro n hn _
    rw [hu]
    by_cases htmp : n = s.tmp
    · rw [htmp, Volume.entry_move_from, hfree]
    · rw [Volume.entry_move htmp hn, Volume.entry_store, Volume.entry_create htmp]
  · intro n k hk _
    have hfresh : k ≠ d.fresh := Nat.ne_of_lt (d.named n k hk)
    rw [hu]
    exact (Volume.inode_store_ne hfresh).trans (Volume.inode_create_ne hfresh)

/-- The file edited is written through its other name. -/
theorem saved_same {e : Editor} (he : e.status = text "enregistre" ∧ e.buf.modified = false)
    (hfile : d.entry s.path = some (.file i)) : s.Saved d (e, d.store i s.buf.text) := by
  have hat := Volume.fileAt_file hfile
  have hat' : (d.store i s.buf.text).fileAt s.path = some i := Volume.fileAt_store.trans hat
  refine ⟨he.1, he.2, ?_, fun _ _ => ⟨i, hfile⟩, fun _ h => h, ?_, fun _ _ _ => rfl, ?_⟩
  · rw [Volume.read_of_fileAt hat', Volume.inode_store]
  · rw [Volume.modeOf_of_fileAt hat', Volume.modeOf_of_fileAt hat, Volume.inode_store]
  · intro n k _ hk
    exact Volume.inode_store_ne fun heq => hk (heq ▸ hat)

/-- Beside, the file is opened through its name there, if it has one. -/
theorem opened_file {mode : BitVec 12} (hopen : d.openTrunc s.tmp mode = some (d', j))
    (hfile : d.entry s.tmp = some (.file i)) : d' = d.store i [] ∧ j = i := by
  have hat := Volume.fileAt_file hfile
  rcases Volume.openTrunc_cases hopen with ⟨m, hlead, hnone, -, -⟩ | ⟨hj, hd⟩
  · have hend := @Volume.lead_end _ _ d kLinks s.tmp (by simp [hfile])
    rw [← Option.some.inj (hend.symm.trans hlead), hfile] at hnone
    cases hnone
  · cases hat.symm.trans hj
    exact ⟨hd, rfl⟩

/-- The file beside takes the place of the name: as it should only if it is a new one, and the name
that of a file. -/
theorem Saved.of_moved {e : Editor} {mode : BitVec 12}
    (hopen : d.openTrunc s.tmp mode = some (d', j)) (ht : d.fileAt s.path = some i)
    {u : Volume Bytes UInt8} (hu : u = (d'.store j s.buf.text).move s.tmp s.path)
    (hS : s.Saved d (e, u)) :
    d.entry s.path = some (.file i) ∧ d.entry s.tmp = none ∧ (d.inode i).mode = mode := by
  have hne := tmp_ne_path s
  have hgone : u.entry s.tmp = none := by rw [hu, Volume.entry_move_from]
  have hto : u.entry s.path = (d'.store j s.buf.text).entry s.tmp := by
    rw [hu, Volume.entry_move_to (Ne.symm hne)]
  rcases file_or_link ht with hfile | ⟨target, hlink⟩
  · have hend := @Volume.lead_end _ _ d kLinks s.path (by simp [hfile])
    have hfree : d.entry s.tmp = none := by
      rw [← hS.names s.tmp hne (by rw [hend]; exact fun h => hne (Option.some.inj h).symm)]
      exact hgone
    refine ⟨hfile, hfree, ?_⟩
    obtain ⟨rfl, rfl⟩ := opened_free hopen hfree
    rw [Volume.entry_store, Volume.entry_create_self] at hto
    have hmode := hS.mode
    rw [Volume.modeOf_of_fileAt (Volume.fileAt_file hto), Volume.modeOf_of_fileAt ht] at hmode
    rw [← Option.some.inj hmode, hu, inode_new]
  · -- a link is replaced, by another one if one stood beside, which is then missing there
    exfalso
    have hlinked : (d'.store j s.buf.text).entry s.tmp = some (.link target) :=
      hto.symm.trans (hS.link target hlink)
    by_cases hfree : d.entry s.tmp = none
    · obtain ⟨rfl, rfl⟩ := opened_free hopen hfree
      rw [Volume.entry_store, Volume.entry_create_self] at hlinked
      cases hlinked
    · rw [entry_opened hopen s.buf.text hfree] at hlinked
      have hstays := hS.names s.tmp hne fun hlead => Volume.lead_no_link hlead target hlinked
      rw [hgone, hlinked] at hstays
      cases hstays

/-- **After a success.** -/
theorem saved_iff {e : Editor} (he : e.status = text "enregistre" ∧ e.buf.modified = false)
    {mode : BitVec 12} (hopen : d.openTrunc s.tmp mode = some (d', j))
    (ht : d.fileAt s.path = some i) {u : Volume Bytes UInt8}
    (hr : (d'.store j s.buf.text).rename s.tmp s.path = some u) :
    s.Saved d (e, u) ↔ ∃ i, d.entry s.path = some (.file i) ∧
      (d.entry s.tmp = some (.file i) ∨ d.entry s.tmp = none ∧ (d.inode i).mode = mode) := by
  have hne := tmp_ne_path s
  have hsome : d.entry s.path ≠ none := Volume.entry_ne_none_of_mem_chain ht Volume.mem_chain_self
  have hpath := entry_opened hopen s.buf.text hsome
  rcases Volume.rename_cases hne hr with ⟨⟨k, hk, hk'⟩, rfl⟩ | ⟨hmoved, hu⟩
  · -- two names of one file
    have hfile : d.entry s.path = some (.file k) := hpath.symm.trans hk'
    have htmp : d.entry s.tmp = some (.file k) := by
      by_cases hfree : d.entry s.tmp = none
      · obtain ⟨rfl, rfl⟩ := opened_free hopen hfree
        rw [Volume.entry_store, Volume.entry_create_self] at hk
        cases hk
        exact absurd (d.named _ _ hfile) (Nat.lt_irrefl _)
      · exact (entry_opened hopen s.buf.text hfree).symm.trans hk
    obtain ⟨rfl, rfl⟩ := opened_file hopen htmp
    rw [Volume.store_store]
    exact iff_of_true (saved_same he hfile) ⟨j, hfile, .inl htmp⟩
  · constructor
    · intro hS
      obtain ⟨hfile, hfree, hmode⟩ := hS.of_moved hopen ht hu
      exact ⟨i, hfile, .inr ⟨hfree, hmode⟩⟩
    · rintro ⟨k, hfile, hsame | ⟨hfree, hmode⟩⟩
      · have htmp := entry_opened hopen s.buf.text (n := s.tmp) (by simp [hsame])
        exact absurd (hpath.trans hfile) (hmoved k (htmp.trans hsame))
      · obtain ⟨rfl, rfl⟩ := opened_free hopen hfree
        exact saved_new he hfile hfree hmode hu

/-- Once the file beside is open, it can take the place of the other. -/
theorem rename_opened {mode : BitVec 12} (hopens : s.Opens d io)
    (hopen : d.openTrunc s.tmp mode = some (d', j)) (ht : d.fileAt s.path = some i) (w : Bytes) :
    (d'.store j w).rename s.tmp s.path ≠ none := by
  have hsome : d.entry s.path ≠ none := Volume.entry_ne_none_of_mem_chain ht Volume.mem_chain_self
  have hpath : (d'.store j w).entry s.path ≠ some .other := by
    rw [entry_opened hopen w hsome]
    rcases file_or_link ht with hfile | ⟨target, hlink⟩
    · simp [hfile]
    · simp [hlink]
  by_cases hfree : d.entry s.tmp = none
  · obtain ⟨rfl, rfl⟩ := opened_free hopen hfree
    refine Volume.rename_ne_none ?_ ?_ hpath
    all_goals simp [Volume.entry_create_self]
  · obtain ⟨m, hlead, hm⟩ := hopens.2
    have htmp := entry_opened hopen w hfree
    exact Volume.rename_ne_none (by rwa [htmp]) (by rw [htmp]; exact entry_tmp_ne_other hlead hm) hpath

/-! ### Saving -/

/-- A failure that is reported does well if it loses nothing and leaves nothing. -/
theorem notSaved_iff {u : Volume Bytes UInt8} {status : Bytes} (hstatus : status ≠ text "enregistre") :
    s.NotSaved d ({ s with status }, u) ∨ s.Saved d ({ s with status }, u) ↔
      u.read s.path = d.read s.path ∧ ∀ n, d.entry n = none → u.entry n = none := by
  constructor
  · rintro (h | h)
    · exact ⟨h.bytes, h.noTemp⟩
    · exact absurd h.reported hstatus
  · exact fun h => .inl ⟨hstatus, rfl, h.1, h.2⟩

/-- **When saving is atomic and faithful.** -/
theorem savesWell_iff (ht : d.fileAt s.path = some i) (umask : BitVec 12) (io : Saving) :
    s.NotSaved d (s.saveOn umask d io) ∨ s.Saved d (s.saveOn umask d io) ↔
      s.SavesWell umask d io := by
  unfold SavesWell saveOn
  by_cases hpath : s.path = []
  · rw [if_pos hpath]
    exact iff_of_true ((notSaved_iff (by decide +kernel)).2 ⟨rfl, fun _ h => h⟩)
      fun hne => absurd hpath hne
  rw [if_neg hpath]
  have hfails : ∀ e : Bytes, text "ecriture impossible : " ++ e ≠ text "enregistre" :=
    fun e => status_ne (by decide +kernel) (by decide +kernel)
  by_cases hopens : s.Opens d io
  · have hopen := (opens_iff (kTmpMode &&& ~~~umask)).1 hopens
    obtain ⟨⟨d', j⟩, hd'⟩ := Option.ne_none_iff_exists'.1 hopen.2
    rw [if_pos hopen.1, hd']
    simp only [forall_const, hpath, hopens, ne_eq, not_false_eq_true]
    have hleft := unlink_tmp_iff hd' ht (io.written s.buf.text)
    by_cases hwrote : io.wrote = some s.buf.text.length
    · by_cases hrenamed : io.renamed = true
      · have hall : io.written s.buf.text = s.buf.text := by
          rw [Saving.written, hwrote]
          exact List.take_length
        obtain ⟨u, hu⟩ := Option.ne_none_iff_exists'.1
          (rename_opened hopens hd' ht (io.written s.buf.text))
        simp only [hwrote, hrenamed, hu, not_true_eq_false, if_false, if_true, and_self]
        rw [hall] at hu
        rw [or_iff_right fun h : s.NotSaved d _ => h.reported rfl]
        exact saved_iff ⟨rfl, rfl⟩ hd' ht hu
      · simp only [hwrote, hrenamed, not_true_eq_false, if_false]
        refine (notSaved_iff ?_).trans hleft
        exact status_ne (by decide +kernel) (by decide +kernel)
    · simp only [hwrote, not_false_eq_true, if_true, if_false, false_and]
      exact (notSaved_iff (by decide +kernel)).trans hleft
  · have hrefused : (if io.opened then d.openTrunc s.tmp (kTmpMode &&& ~~~umask) else none) = none := by
      by_contra hsome
      refine hopens ((opens_iff (kTmpMode &&& ~~~umask)).2 ?_)
      by_cases hopened : io.opened = true
      · exact ⟨hopened, by rwa [if_pos hopened] at hsome⟩
      · exact absurd (if_neg hopened) hsome
    rw [hrefused]
    exact iff_of_true ((notSaved_iff (hfails _)).2 ⟨rfl, fun _ h => h⟩) fun _ h => absurd h hopens

/-- A private file, in the way a private file is made. -/
theorem savesWell_iff_private : ∃ (s : Editor) (d : Volume Bytes UInt8) (io : Saving),
    d.fileAt s.path = some 0 ∧ (s.saveOn 0x12#12 d io).1.status = text "enregistre" ∧
      (s.NotSaved d (s.saveOn 0x12#12 d io) ∨ s.Saved d (s.saveOn 0x12#12 d io)) := by
  refine ⟨{ path := text "/a", buf := .load (text "x") },
    .one (text "/a") { mode := 0x180#12, content := [] }, { wrote := some 1 }, by decide +kernel,
    by decide +kernel, ?_⟩
  refine (@savesWell_iff _ _ 0 (by decide +kernel) _ _).2 fun _ _ => ?_
  rw [if_pos (by decide +kernel)]
  exact ⟨0, by decide +kernel, .inr (by decide +kernel)⟩

/-- A script is saved: it can no longer be run. -/
theorem rights_lost :
    ¬ ∀ (s : Editor) (d : Volume Bytes UInt8) (umask : BitVec 12) (io : Saving) (i : Nat),
      d.fileAt s.path = some i →
      s.NotSaved d (s.saveOn umask d io) ∨ s.Saved d (s.saveOn umask d io) := by
  intro hall
  have h := hall { path := text "/a", buf := .load (text "x") }
    (.one (text "/a") { mode := 0x1ED#12, content := [] }) 0x12#12 { wrote := some 1 } 0
    (by decide +kernel)
  rcases h with h | h
  · exact absurd h.reported (by decide +kernel)
  · exact absurd h.mode (by decide +kernel)

end Editor

end Sshos.Apps
