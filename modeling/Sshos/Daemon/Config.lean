import Mathlib.Data.List.DropRight
import Sshos.Lib.Bytes
import Sshos.Lib.Lines
import Sshos.Shell.Modal

/-!
# Sshos.Daemon.Config

The **settings of the desktop**: a text that the user may edit by hand, one key a line, read
when the daemon starts and written anew whenever a setting changes.

What is written is made from what was understood, so that the rest of the text goes away, in
spite of what its own header says; the value read back has lost its blanks at both ends; and
the stream that writes it is closed without a look at how that went.
-/

namespace Sshos.Daemon

open Sshos.Lib (Bytes lines unlines)
open Sshos.Shell (text text_ofList)

def kNewline : UInt8 := 0x0A
def kSpace : UInt8 := 0x20

/-- What is taken off the front of a text, and off its back. -/
def blankFront (c : UInt8) : Bool := c = kSpace ∨ c = 0x09
def blankBack (c : UInt8) : Bool := c = kSpace ∨ c = 0x09 ∨ c = 0x0D

def trim (s : Bytes) : Bytes := (s.dropWhile blankFront).rdropWhile blankBack

structure DesktopConfig where
  startDir : Bytes := []
  deriving DecidableEq

/-- The value a line gives `start_dir`, if that is the key it sets. -/
def startDirValue (line : Bytes) : Option Bytes :=
  let net := trim line
  if net = [] ∨ net.head? = some 0x23 then none
  else if 0x3D ∈ net then
    let key := trim (net.takeWhile (· ≠ 0x3D))
    let value := trim ((net.dropWhile (· ≠ 0x3D)).drop 1)
    -- a line without a key sets nothing
    if key = text "start_dir" then some value else none
  else none

/-- The last line that sets it has the last word. -/
def parseConfig (texte : Bytes) : DesktopConfig :=
  (lines kNewline texte).foldl (fun out line =>
    match startDirValue line with
    | none => out
    | some value => { startDir := value }) {}

def headerLines : List Bytes :=
  [text "# Reglages du bureau termos. Modifiable a la main ; le demon le relit",
    text "# a son demarrage et le reecrit quand on change un reglage depuis le",
    text "# bureau. Une ligne inconnue est ignoree, pas effacee au prochain tour."]

def renderConfig (c : DesktopConfig) : Bytes :=
  unlines kNewline headerLines ++
    (if c.startDir = [] then [] else text "start_dir = " ++ c.startDir ++ [kNewline])

/-- What is read of the file at most. -/
def kMaxConfig : Nat := 64 * 1024

def loadConfig (file : Bytes) : DesktopConfig := parseConfig (file.take kMaxConfig)

/-- How the writing goes: whether the temporary file is opened, whether the stream is known to
have failed once everything was given to it, how much has reached the file when it is closed,
whether the file takes its name. -/
structure Writing where
  opened : Bool := true
  failed : Bool := false
  reached : Nat
  renamed : Bool := true
  deriving DecidableEq

/-- The file, and what `save_config` answers. -/
def saveConfig (file : Bytes) (c : DesktopConfig) (io : Writing) : Bytes × Bool :=
  if ¬ io.opened then (file, false)
  else if io.failed then (file, false)
  else
    -- what is still in the buffer is written when the stream is closed, unseen
    let tmp := (renderConfig c).take io.reached
    if io.renamed then (tmp, true) else (file, false)

structure Settings where
  config : DesktopConfig
  deriving DecidableEq

namespace Settings

def «open» (file : Bytes) : Settings := ⟨loadConfig file⟩

def configured (s : Settings) : Bytes := s.config.startDir

def setStartDir (s : Settings) (file dir : Bytes) (io : Writing) : Settings × Bytes × Bool :=
  let s := { s with config := { s.config with startDir := dir } }
  (s, saveConfig file s.config io)

end Settings

/-! ### Blanks at the ends -/

theorem trim_concat {s : Bytes} {c : UInt8} (hc : blankBack c = true) : trim (s ++ [c]) = trim s := by
  unfold trim
  by_cases hall : s.dropWhile blankFront = []
  · rw [List.dropWhile_append, hall]
    simp only [List.isEmpty_nil, if_true]
    unfold List.dropWhile
    split
    · rfl
    · exact List.rdropWhile_singleton _ _ |>.trans (by simp [hc])
  · rw [List.dropWhile_append, if_neg (by simpa using hall), List.rdropWhile_concat_pos _ _ _ hc]

/-- Blanks at the end may go first. -/
theorem trim_rdropWhile (s : Bytes) : trim (s.rdropWhile blankBack) = trim s := by
  induction s using List.reverseRecOn with
  | nil => rfl
  | append_singleton s c ih =>
      by_cases hc : blankBack c = true
      · rw [List.rdropWhile_concat_pos _ _ _ hc, ih, trim_concat hc]
      · rw [List.rdropWhile_concat_neg _ _ _ hc]

theorem trim_length_le (s : Bytes) : (trim s).length ≤ s.length :=
  ((List.rdropWhile_prefix _ _).length_le).trans (List.dropWhile_suffix _).length_le

theorem trim_eq_self_iff (s : Bytes) :
    trim s = s ↔ (∀ c ∈ s.head?, blankFront c = false) ∧ (∀ c ∈ s.getLast?, blankBack c = false) := by
  have hback : s.rdropWhile blankBack = s ↔ ∀ c ∈ s.getLast?, blankBack c = false := by
    rw [List.rdropWhile_eq_self_iff]
    constructor
    · intro h c hc
      obtain ⟨hne, rfl⟩ := List.mem_getLast?_eq_getLast hc
      exact Bool.not_eq_true _ |>.mp (h hne)
    · intro h hne hblank
      rw [h _ (List.getLast_mem_getLast? hne)] at hblank
      exact absurd hblank Bool.false_ne_true
  have hfront : s.dropWhile blankFront = s ↔ ∀ c ∈ s.head?, blankFront c = false := by
    cases s with
    | nil => simp
    | cons a s =>
        rw [List.dropWhile_eq_self_iff]
        simp
  rw [← hback, ← hfront]
  constructor
  · intro h
    -- neither end has anything to lose
    have hshort : (trim s).length ≤ (s.dropWhile blankFront).length := (List.rdropWhile_prefix _ _).length_le
    rw [h] at hshort
    have hsame : s.dropWhile blankFront = s := (List.dropWhile_suffix _).eq_of_length_le hshort
    refine ⟨hsame, ?_⟩
    unfold trim at h
    rwa [hsame] at h
  · rintro ⟨hsame, hend⟩
    unfold trim
    rw [hsame, hend]

/-! ### Reading back -/

theorem rdropWhile_append {p : UInt8 → Bool} (s t : Bytes) (c : UInt8) (hc : p c = false) :
    (s ++ c :: t).rdropWhile p = s ++ c :: t.rdropWhile p := by
  induction t using List.reverseRecOn with
  | nil => exact List.rdropWhile_concat_neg _ _ _ (by simp [hc])
  | append_singleton t b ih =>
      have hsplit : s ++ c :: (t ++ [b]) = (s ++ c :: t) ++ [b] := by simp
      rw [hsplit]
      by_cases hb : p b = true
      · rw [List.rdropWhile_concat_pos _ _ _ hb, List.rdropWhile_concat_pos _ _ _ hb, ih]
      · rw [List.rdropWhile_concat_neg _ _ _ hb, List.rdropWhile_concat_neg _ _ _ hb]
        simp

/-- The line that is written sets the value, without the blanks at its ends. -/
theorem startDirValue_written (dir : Bytes) :
    startDirValue (text "start_dir = " ++ dir) = some (trim dir) := by
  have hline : text "start_dir = " ++ dir = text "start_dir " ++ 0x3D :: (kSpace :: dir) := by
    have htext : text "start_dir = " = text "start_dir " ++ [0x3D, kSpace] := by
      repeat rw [text_ofList]
      decide
    rw [htext, List.append_assoc]
    rfl
  have hnet : trim (text "start_dir = " ++ dir) =
      text "start_dir " ++ 0x3D :: (kSpace :: dir).rdropWhile blankBack := by
    have hkey : text "start_dir " = 0x73 :: (text "start_dir ").tail := by
      repeat rw [text_ofList]
      decide
    have hfront : (text "start_dir " ++ 0x3D :: (kSpace :: dir)).dropWhile blankFront =
        text "start_dir " ++ 0x3D :: (kSpace :: dir) := by
      rw [hkey]
      exact List.dropWhile_cons_of_neg (by decide)
    rw [hline, trim, hfront]
    exact rdropWhile_append _ _ _ (by decide)
  have hpieces : ∀ rest : Bytes, (text "start_dir " ++ 0x3D :: rest).takeWhile (· ≠ 0x3D) = text "start_dir " ∧
      (text "start_dir " ++ 0x3D :: rest).dropWhile (· ≠ 0x3D) = 0x3D :: rest := by
    intro rest
    have hnone : ∀ c ∈ text "start_dir ", (decide (c ≠ 0x3D)) = true := by
      rw [text_ofList]
      exact List.all_eq_true.1 rfl
    refine ⟨?_, ?_⟩
    · rw [List.takeWhile_append_of_pos hnone, List.takeWhile_cons_of_neg (by decide), List.append_nil]
    · rw [List.dropWhile_append_of_pos hnone, List.dropWhile_cons_of_neg (by decide)]
  obtain ⟨hbefore, hafter⟩ := hpieces ((kSpace :: dir).rdropWhile blankBack)
  unfold startDirValue
  simp only [hnet, hbefore, hafter]
  have hfilled : ¬ (text "start_dir " ++ 0x3D :: (kSpace :: dir).rdropWhile blankBack = [] ∨
      (text "start_dir " ++ 0x3D :: (kSpace :: dir).rdropWhile blankBack).head? = some 0x23) := by
    have hhead : (text "start_dir ").head? = some 0x73 := by
      repeat rw [text_ofList]
      decide
    rintro (hnil | hcomment)
    · simp at hnil
    · rw [List.head?_append, hhead, Option.some_or] at hcomment
      exact absurd hcomment (by decide)
  rw [if_neg hfilled, if_pos (by simp), if_pos (by rw [text_ofList, text_ofList]; decide)]
  -- the space after the sign goes with the other blanks
  have hspace : trim (kSpace :: dir) = trim dir := by
    unfold trim
    rw [List.dropWhile_cons_of_pos (by decide)]
  rw [List.drop_one, List.tail_cons, trim_rdropWhile, hspace]

/-- The room that is left for a value in what is read of the file. -/
def kMaxStartDir : Nat := kMaxConfig - (unlines kNewline headerLines ++ text "start_dir = ").length

theorem newline_not_mem_headerLines : ∀ line ∈ headerLines, kNewline ∉ line := by
  simp only [headerLines, List.forall_mem_cons]
  repeat rw [text_ofList]
  decide

theorem parseConfig_header (rest : Bytes) :
    parseConfig (unlines kNewline headerLines ++ rest) = parseConfig rest := by
  have hnone : ∀ line ∈ headerLines, startDirValue line = none := by
    simp only [headerLines, List.forall_mem_cons]
    repeat rw [text_ofList]
    decide
  unfold parseConfig
  rw [Lib.lines_unlines newline_not_mem_headerLines, List.foldl_append]
  congr 1
  simp only [headerLines, List.forall_mem_cons, List.not_mem_nil, false_implies, implies_true,
    and_true] at hnone
  obtain ⟨hfirst, hsecond, hthird⟩ := hnone
  simp only [headerLines, List.foldl_cons, List.foldl_nil, hfirst, hsecond, hthird]

theorem newline_not_mem_written {dir : Bytes} (hdir : kNewline ∉ dir) :
    kNewline ∉ text "start_dir = " ++ dir := by
  have hkey : kNewline ∉ text "start_dir = " := by
    repeat rw [text_ofList]
    decide
  simp [hkey, hdir]

theorem written_ne_nil (dir : Bytes) : text "start_dir = " ++ dir ≠ [] := by
  have hkey : text "start_dir = " ≠ [] := by
    repeat rw [text_ofList]
    decide
  simp [hkey]

theorem parseConfig_line {dir : Bytes} (hdir : kNewline ∉ dir) (last : Bytes)
    (hlast : last = [] ∨ last = [kNewline]) :
    parseConfig (text "start_dir = " ++ dir ++ last) = { startDir := trim dir } := by
  have hlines : lines kNewline (text "start_dir = " ++ dir ++ last) = [text "start_dir = " ++ dir] := by
    rcases hlast with rfl | rfl
    · rw [List.append_nil]
      exact Lib.lines_of_not_mem (newline_not_mem_written hdir) (written_ne_nil dir)
    · exact Lib.lines_append_sep (newline_not_mem_written hdir) []
  unfold parseConfig
  rw [hlines, List.foldl_cons, List.foldl_nil, startDirValue_written]

/-- **What is read back** of a value that was written. -/
theorem loadConfig_renderConfig {dir : Bytes} (hdir : kNewline ∉ dir) :
    (loadConfig (renderConfig { startDir := dir })).startDir = trim (dir.take kMaxStartDir) := by
  have hsmall : (unlines kNewline headerLines ++ text "start_dir = ").length ≤ kMaxConfig := by
    unfold headerLines
    repeat rw [text_ofList]
    decide +kernel
  have hmax : kMaxStartDir = kMaxConfig - (unlines kNewline headerLines ++ text "start_dir = ").length := rfl
  rw [List.length_append] at hsmall hmax
  have hheader : (unlines kNewline headerLines).length ≤ kMaxConfig := by omega
  have hroom : kMaxConfig - (unlines kNewline headerLines).length =
      (text "start_dir = ").length + kMaxStartDir := by omega
  unfold loadConfig renderConfig
  rw [List.take_append, List.take_of_length_le hheader, hroom, parseConfig_header]
  by_cases hnil : dir = []
  · rw [if_pos hnil, hnil]
    simp only [List.take_nil]
    rfl
  rw [if_neg hnil, List.append_assoc, List.take_append, List.take_of_length_le (Nat.le_add_right _ _),
    Nat.add_sub_cancel_left, List.take_append, ← List.append_assoc]
  have hpart : kNewline ∉ dir.take kMaxStartDir := fun h => hdir (List.mem_of_mem_take h)
  rw [parseConfig_line hpart]
  -- the end of the line is there, or beyond what is read
  cases kMaxStartDir - dir.length with
  | zero => exact .inl rfl
  | succ n => exact .inr (List.take_of_length_le (by simp))

theorem configured_iff {dir : Bytes} (hdir : kNewline ∉ dir) :
    (loadConfig (renderConfig { startDir := dir })).startDir = dir ↔
      trim dir = dir ∧ dir.length ≤ kMaxStartDir := by
  rw [loadConfig_renderConfig hdir]
  constructor
  · intro h
    have hle := (trim_length_le (dir.take kMaxStartDir)).trans (List.length_take_le _ _)
    rw [h] at hle
    rw [List.take_of_length_le hle] at h
    exact ⟨h, hle⟩
  · rintro ⟨htrim, hle⟩
    rw [List.take_of_length_le hle, htrim]

/-! ### What is kept -/

/-- The lines of `t` that do not set the value are still in the file. -/
def Kept (t file : Bytes) : Prop :=
  ∀ line ∈ lines kNewline t, startDirValue line = none → line ∈ lines kNewline file

theorem lines_renderConfig {dir : Bytes} (hdir : kNewline ∉ dir) :
    lines kNewline (renderConfig { startDir := dir }) =
      headerLines ++ (if dir = [] then [] else [text "start_dir = " ++ dir]) := by
  unfold renderConfig
  rw [Lib.lines_unlines newline_not_mem_headerLines]
  congr 1
  simp only
  split
  · rfl
  · exact Lib.lines_append_sep (newline_not_mem_written hdir) []

theorem kept_renderConfig_iff {dir : Bytes} (hdir : kNewline ∉ dir) (t : Bytes) :
    Kept t (renderConfig { startDir := dir }) ↔
      ∀ line ∈ lines kNewline t, startDirValue line = none → line ∈ headerLines := by
  unfold Kept
  rw [lines_renderConfig hdir]
  refine forall₂_congr fun line _ => imp_congr_right fun hnone => ?_
  rw [List.mem_append, or_iff_left]
  intro hwritten
  split at hwritten
  · exact List.not_mem_nil hwritten
  · rw [List.mem_singleton.1 hwritten, startDirValue_written] at hnone
    cases hnone

/-! ### A setting that is changed -/

/-- Something went wrong with the file. -/
def Writing.Fails (io : Writing) (c : DesktopConfig) : Prop :=
  io.opened = false ∨ io.failed = true ∨ io.reached < (renderConfig c).length ∨ io.renamed = false

/-- The program knows of it. -/
def Writing.Refused (io : Writing) : Prop := io.opened = false ∨ io.failed = true ∨ io.renamed = false

/-- The settings survive: once they are written, the next start reads them, and the rest of the
text is there; or the text is what it was. -/
structure Survives (t dir : Bytes) (io : Writing) : Prop where
  configured : ((Settings.open t).setStartDir t dir io).2.2 = true →
    (Settings.open ((Settings.open t).setStartDir t dir io).2.1).configured = dir
  kept : ((Settings.open t).setStartDir t dir io).2.2 = true →
    Kept t ((Settings.open t).setStartDir t dir io).2.1
  whole : io.Fails { startDir := dir } → ((Settings.open t).setStartDir t dir io).2.1 = t

theorem setStartDir_of_refused (t dir : Bytes) {io : Writing} (h : io.Refused) :
    ((Settings.open t).setStartDir t dir io).2 = (t, false) := by
  unfold Settings.setStartDir saveConfig
  rcases h with hopened | hfailed | hrenamed
  · simp [hopened]
  · simp [hfailed]
  · simp [hrenamed]

theorem setStartDir_of_not_refused (t dir : Bytes) {io : Writing} (h : ¬ io.Refused) :
    ((Settings.open t).setStartDir t dir io).2 =
      ((renderConfig { startDir := dir }).take io.reached, true) := by
  simp only [Writing.Refused, not_or, Bool.not_eq_false, Bool.not_eq_true] at h
  obtain ⟨hopened, hfailed, hrenamed⟩ := h
  unfold Settings.setStartDir saveConfig
  simp [hopened, hfailed, hrenamed]

/-- Without control characters, only spaces are blanks. -/
theorem trim_eq_self_iff_spaces {dir : Bytes} (hdir : ∀ c ∈ dir, kSpace ≤ c ∧ c ≠ 0x7F) :
    trim dir = dir ↔ dir.head? ≠ some kSpace ∧ dir.getLast? ≠ some kSpace := by
  have hblank : ∀ c : UInt8, kSpace ≤ c → c ≠ 0x09 ∧ c ≠ 0x0D := by
    intro c hc
    constructor
    · rintro rfl
      exact absurd hc (by decide)
    · rintro rfl
      exact absurd hc (by decide)
  have hfront : ∀ c ∈ dir, blankFront c = false ↔ c ≠ kSpace := by
    intro c hc
    simp [blankFront, (hblank c (hdir c hc).1).1]
  have hback : ∀ c ∈ dir, blankBack c = false ↔ c ≠ kSpace := by
    intro c hc
    simp [blankBack, hblank c (hdir c hc).1]
  rw [trim_eq_self_iff]
  refine and_congr ?_ ?_
  · constructor
    · intro h hspace
      exact (hfront _ (List.mem_of_head? hspace)).1 (h _ hspace) rfl
    · rintro h c hc
      exact (hfront c (List.mem_of_head? hc)).2 fun hspace => h (hspace ▸ hc)
  · constructor
    · intro h hspace
      exact (hback _ (List.mem_of_getLast? hspace)).1 (h _ hspace) rfl
    · rintro h c hc
      exact (hback c (List.mem_of_getLast? hc)).2 fun hspace => h (hspace ▸ hc)

/-- **When settings survive.** The writing is refused; or it is complete, the value has no blank
at its ends and is short enough, and every other line is one of the header; or what was written
of the text, unseen, is the text that was there and already says so. -/
theorem survives_iff (t dir : Bytes) (io : Writing) (ht : t.length ≤ kMaxConfig)
    (hdir : ∀ c ∈ dir, kSpace ≤ c ∧ c ≠ 0x7F) :
    Survives t dir io ↔
      io.Refused ∨
      ((renderConfig { startDir := dir }).length ≤ io.reached ∧
        dir.head? ≠ some kSpace ∧ dir.getLast? ≠ some kSpace ∧ dir.length ≤ kMaxStartDir ∧
        ∀ line ∈ lines kNewline t, startDirValue line = none → line ∈ headerLines) ∨
      (io.reached < (renderConfig { startDir := dir }).length ∧
        (renderConfig { startDir := dir }).take io.reached = t ∧ (parseConfig t).startDir = dir) := by
  have hline : kNewline ∉ dir := fun hmem => absurd (hdir _ hmem).1 (by decide)
  by_cases hrefused : io.Refused
  · have hresult := setStartDir_of_refused t dir hrefused
    refine iff_of_true ⟨?_, ?_, ?_⟩ (.inl hrefused)
    · rw [hresult]
      exact nofun
    · rw [hresult]
      exact nofun
    · rw [hresult]
      exact fun _ => rfl
  rw [or_iff_right hrefused]
  have hresult := setStartDir_of_not_refused t dir hrefused
  by_cases hshort : io.reached < (renderConfig { startDir := dir }).length
  · -- the end of the text never reached the file
    rw [or_iff_right fun h => absurd hshort (Nat.not_lt.2 h.1)]
    constructor
    · rintro ⟨hconfigured, -, hwhole⟩
      rw [hresult] at hconfigured hwhole
      have hsame := hwhole (.inr (.inr (.inl hshort)))
      refine ⟨hshort, hsame, ?_⟩
      have hread : (parseConfig (t.take kMaxConfig)).startDir = dir := hsame ▸ hconfigured rfl
      rwa [List.take_of_length_le ht] at hread
    · rintro ⟨-, hsame, hread⟩
      refine ⟨?_, ?_, ?_⟩
      · rw [hresult, hsame]
        intro _
        show (parseConfig (t.take kMaxConfig)).startDir = dir
        rwa [List.take_of_length_le ht]
      · rw [hresult]
        intro _
        simp only [hsame]
        exact fun _ hmem _ => hmem
      · rw [hresult]
        exact fun _ => hsame
  · have hall : (renderConfig { startDir := dir }).length ≤ io.reached := Nat.not_lt.1 hshort
    have hfine : ¬ io.Fails { startDir := dir } := by
      rintro (h | h | h | h)
      · exact hrefused (.inl h)
      · exact hrefused (.inr (.inl h))
      · exact hshort h
      · exact hrefused (.inr (.inr h))
    rw [or_iff_left fun h => hshort h.1]
    rw [List.take_of_length_le hall] at hresult
    constructor
    · rintro ⟨hconfigured, hkept, -⟩
      rw [hresult] at hconfigured hkept
      obtain ⟨htrim, hle⟩ := (configured_iff hline).1 (hconfigured rfl)
      obtain ⟨hfirst, hlast⟩ := (trim_eq_self_iff_spaces hdir).1 htrim
      exact ⟨hall, hfirst, hlast, hle, (kept_renderConfig_iff hline t).1 (hkept rfl)⟩
    · rintro ⟨-, hfirst, hlast, hle, hothers⟩
      refine ⟨?_, ?_, fun hfails => absurd hfails hfine⟩
      · rw [hresult]
        exact fun _ => (configured_iff hline).2 ⟨(trim_eq_self_iff_spaces hdir).2 ⟨hfirst, hlast⟩, hle⟩
      · rw [hresult]
        exact fun _ => (kept_renderConfig_iff hline t).2 hothers

/-- The text that the program wrote for one directory, then for another. -/
theorem survives_iff_rewrite :
    Survives (renderConfig { startDir := text "/tmp" }) (text "/home/dev") { reached := 1000 } :=
  (survives_iff (renderConfig { startDir := text "/tmp" }) (text "/home/dev") { reached := 1000 }
    (by decide +kernel) (by decide +kernel)).2 (.inr (.inl (by decide +kernel)))

/-- A comment of the user is gone. -/
theorem comment_lost : ¬ Survives (text "# mon dossier\nstart_dir = /tmp\n") (text "/home/dev")
    { reached := 1000 } := by
  intro h
  have hkept := h.kept (by decide +kernel) (text "# mon dossier") (by decide +kernel) (by decide +kernel)
  revert hkept
  decide +kernel

end Sshos.Daemon
