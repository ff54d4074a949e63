import Sshos.Render.Profile
import Sshos.Vt.Attrs
import Sshos.Vt.ParserReads
import Mathlib.Tactic.IntervalCases

/-!
# Sshos.Apps.StyleReads

**Styles written and read back.** `Restyles bytes style style'` says that from rest the bytes are
SGR sequences, and that these take the pen from `style` to `style'`. A transition of the renderer
takes what is shown of the one style to what is shown of the other.
-/

namespace Sshos.Apps

open Sshos.Lib
open Sshos.Render
open Sshos.Vt
open Sshos.Vt.Parser (Reads csiBytes furtherParams paramOf)

/-- From rest, the bytes are SGR sequences, which take the pen from `style` to `style'`. -/
def Restyles (bytes : Bytes) (style style' : Style) : Prop :=
  ∃ codes : List Params, Reads bytes (codes.map fun params => .csi params [] 0x6D) ∧
    codes.foldl (fun style params => applySgr params style) style = style'

variable {style style' style'' : Style}

theorem Restyles.nil (style : Style) : Restyles [] style style := ⟨[], Parser.Reads.nil, rfl⟩

theorem Restyles.append {as bs : Bytes} (ha : Restyles as style style')
    (hb : Restyles bs style' style'') : Restyles (as ++ bs) style style'' := by
  obtain ⟨cs, hcs, rfl⟩ := ha
  obtain ⟨ds, hds, rfl⟩ := hb
  refine ⟨cs ++ ds, ?_, List.foldl_append ..⟩
  rw [List.map_append]
  exact hcs.append hds

theorem restyles_sgr (params : List Nat) (hroom : params.length ≤ kMaxParams) (style : Style) :
    Restyles (csiBytes params 0x6D) style (applySgr (params.map paramOf) style) :=
  ⟨[params.map paramOf], Parser.reads_csi (by decide) hroom, rfl⟩

/-! ### Colours -/

/-- A colour as the emulator shows it once the renderer has reduced it. -/
def shownColor (d : ColorDepth) (c : Color) : Color :=
  match d, c with
  | .trueColor, .indexed idx =>
      let (r, g, b) := indexedToRgb idx
      .rgb r g b
  | d, c => quantizeColor c d

theorem applySgr_attr : ∀ e ∈ attrCodes, ∀ style, applySgr [paramOf e.2] style = raise style e.1 := by
  intro e he style
  simp only [attrCodes, List.mem_cons, List.not_mem_nil, or_false] at he
  rcases he with rfl | rfl | rfl | rfl | rfl | rfl | rfl | rfl <;> rfl

theorem paramOf_byte (v : UInt8) : paramOf v.toNat = { value := v.toNat } := by
  have hv := v.toNat_lt
  simp only [paramOf]
  congr 1
  omega

theorem applySgr_rgb (r g b : UInt8) (style : Style) :
    applySgr ([38, 2, r.toNat, g.toNat, b.toNat].map paramOf) style =
      { style with fg := .rgb r g b } ∧
    applySgr ([48, 2, r.toNat, g.toNat, b.toNat].map paramOf) style =
      { style with bg := .rgb r g b } := by
  have hbyte : ∀ v : UInt8, isByte v.toNat := by
    intro v
    have hv := v.toNat_lt
    simp only [isByte, Bool.and_eq_true, decide_eq_true_eq]
    omega
  simp only [List.map_cons, List.map_nil, paramOf_byte]
  constructor <;>
  simp [applySgr, applySgrFrom, groupEnd, valueAt, flatExtent, readExtended, applyColor, paramOf, hbyte]

theorem applySgr_indexed (i : UInt8) (style : Style) :
    applySgr ([38, 5, i.toNat].map paramOf) style = { style with fg := .indexed i } ∧
    applySgr ([48, 5, i.toNat].map paramOf) style = { style with bg := .indexed i } := by
  have hbyte : isByte i.toNat := by
    have hv := i.toNat_lt
    simp only [isByte, Bool.and_eq_true, decide_eq_true_eq]
    omega
  simp only [List.map_cons, List.map_nil, paramOf_byte]
  constructor <;>
  simp [applySgr, applySgrFrom, groupEnd, valueAt, flatExtent, readExtended, applyColor, paramOf, hbyte]

theorem applySgr_simple {i : Nat} (hi : i < 8) (style : Style) :
    applySgr [paramOf (30 + i)] style = { style with fg := .indexed (UInt8.ofNat i) } ∧
    applySgr [paramOf (40 + i)] style = { style with bg := .indexed (UInt8.ofNat i) } := by
  interval_cases i <;> exact ⟨rfl, rfl⟩

/-- The pen with one of its colours changed. -/
def putColor (foreground : Bool) (c : Color) (style : Style) : Style :=
  if foreground then { style with fg := c } else { style with bg := c }

theorem quantize16_lt (r g b : UInt8) : quantize16 r g b < 8 := by
  unfold quantize16
  split <;> split <;> split <;> decide

section ColorCode

variable {c : Color} (hdef : c ≠ .default) (foreground : Bool) {p : OutputProfile}
include hdef

theorem shownColor_trueColor {r g b : UInt8} (hrgb : components c = (r, g, b)) :
    shownColor .trueColor c = .rgb r g b := by
  cases c with
  | default => exact absurd rfl hdef
  | indexed idx =>
      have hidx : indexedToRgb idx = (r, g, b) := hrgb
      simp only [shownColor, hidx]
  | rgb r' g' b' =>
      cases hrgb
      rfl

theorem shownColor_indexed256 : ∃ idx, shownColor .indexed256 c = .indexed idx := by
  cases c with
  | default => exact absurd rfl hdef
  | indexed idx => exact ⟨idx, rfl⟩
  | rgb r g b => exact ⟨_, rfl⟩

theorem shownColor_mono16 : ∃ i, i < 8 ∧ shownColor .mono16 c = .indexed (UInt8.ofNat i) := by
  cases c with
  | default => exact absurd rfl hdef
  | indexed idx => exact ⟨_, quantize16_lt _ _ _, rfl⟩
  | rgb r g b => exact ⟨_, quantize16_lt _ _ _, rfl⟩

theorem colorCode_trueColor (hdepth : p.depth = .trueColor) {r g b : UInt8}
    (hrgb : components c = (r, g, b)) :
    colorCode c foreground p =
      csiBytes [if foreground then 38 else 48, 2, r.toNat, g.toNat, b.toNat] 0x6D := by
  have htwo : decimal 2 = [0x32] := by decide
  simp only [colorCode, if_neg hdef, hdepth, hrgb, csiBytes, furtherParams, List.flatMap_cons,
    List.flatMap_nil, htwo, num_natCast, List.append_assoc, List.cons_append, List.nil_append,
    List.append_nil]
  cases foreground <;> rfl

theorem colorCode_indexed256 (hdepth : p.depth = .indexed256) {idx : UInt8}
    (hidx : quantizeColor c .indexed256 = .indexed idx) :
    colorCode c foreground p = csiBytes [if foreground then 38 else 48, 5, idx.toNat] 0x6D := by
  have hfive : decimal 5 = [0x35] := by decide
  simp only [colorCode, if_neg hdef, hdepth, hidx, paletteIndex, csiBytes, furtherParams,
    List.flatMap_cons, List.flatMap_nil, hfive, num_natCast, List.append_assoc, List.cons_append,
    List.nil_append, List.append_nil]
  cases foreground <;> rfl

theorem colorCode_mono16 (hdepth : p.depth = .mono16) {i : Nat} (hi : i < 8)
    (hidx : quantizeColor c .mono16 = .indexed (UInt8.ofNat i)) :
    colorCode c foreground p = csiBytes [(if foreground then 30 else 40) + i] 0x6D := by
  have hbyte : (UInt8.ofNat i).toNat = i := by
    rw [UInt8.toNat_ofNat']
    omega
  simp only [colorCode, if_neg hdef, hdepth, hidx, paletteIndex, hbyte, csiBytes, furtherParams,
    List.flatMap_nil, List.append_nil, ← num_natCast]
  cases foreground <;> simp

end ColorCode

theorem restyles_colorCode (c : Color) (foreground : Bool) (p : OutputProfile) (style : Style) :
    Restyles (colorCode c foreground p) style
      (putColor foreground (shownColor p.depth c) style) := by
  -- the sequence has these parameters, and they do this to the pen
  have hsgr : ∀ params : List Nat, params.length ≤ kMaxParams →
      colorCode c foreground p = csiBytes params 0x6D →
      applySgr (params.map paramOf) style = putColor foreground (shownColor p.depth c) style →
      Restyles (colorCode c foreground p) style
        (putColor foreground (shownColor p.depth c) style) := by
    intro params hroom hbytes hpen
    rw [hbytes, ← hpen]
    exact restyles_sgr params hroom style
  by_cases hdef : c = .default
  · subst hdef
    refine hsgr [if foreground then 39 else 49] (by simp [kMaxParams]) ?_ ?_
    · cases foreground <;> simp [colorCode, csiBytes, furtherParams] <;> rfl
    · cases foreground <;> cases p.depth <;> rfl
  cases hdepth : p.depth with
  | trueColor =>
      rcases hrgb : components c with ⟨r, g, b⟩
      refine hdepth ▸ hsgr _ (by simp [kMaxParams]) (colorCode_trueColor hdef _ hdepth hrgb) ?_
      rw [hdepth, shownColor_trueColor hdef hrgb]
      cases foreground with
      | true => exact (applySgr_rgb r g b _).1
      | false => exact (applySgr_rgb r g b _).2
  | indexed256 =>
      obtain ⟨idx, hidx⟩ := shownColor_indexed256 hdef
      refine hdepth ▸ hsgr _ (by simp [kMaxParams]) (colorCode_indexed256 hdef _ hdepth hidx) ?_
      rw [hdepth, hidx]
      cases foreground with
      | true => exact (applySgr_indexed idx _).1
      | false => exact (applySgr_indexed idx _).2
  | mono16 =>
      obtain ⟨i, hi, hidx⟩ := shownColor_mono16 hdef
      refine hdepth ▸ hsgr _ (by simp [kMaxParams]) (colorCode_mono16 hdef _ hdepth hi hidx) ?_
      rw [hdepth, hidx]
      cases foreground with
      | true => exact (applySgr_simple hi _).1
      | false => exact (applySgr_simple hi _).2

/-! ### Attributes -/

/-- The eight attributes with a name. -/
def namedAttrs : Attrs := 0xFF#16

/-- A style as the emulator shows it. -/
def shownStyle (d : ColorDepth) (s : Style) : Style :=
  { fg := shownColor d s.fg, bg := shownColor d s.bg, attrs := s.attrs &&& namedAttrs }

/-- The bits that a stretch of the table turns on. -/
def addedBits (base after : Attrs) (table : List (Attrs × Nat)) : Attrs :=
  table.foldr (fun e bits => (if after &&& e.1 ≠ 0 ∧ base &&& e.1 = 0 then e.1 else 0) ||| bits) 0

theorem restyles_attrs (base after : Attrs) {table : List (Attrs × Nat)} (hsub : table ⊆ attrCodes)
    (style : Style) :
    Restyles (table.flatMap fun e =>
        if after &&& e.1 ≠ 0 ∧ base &&& e.1 = 0 then [0x1B, 0x5B] ++ num e.2 ++ [0x6D] else []) style
      (raise style (addedBits base after table)) := by
  induction table generalizing style with
  | nil =>
      have hsame : raise style (addedBits base after []) = style := by simp [raise, addedBits]
      rw [hsame]
      exact Restyles.nil style
  | cons e table ih =>
      have hrest := ih fun f hf => hsub (List.mem_cons_of_mem e hf)
      rw [List.flatMap_cons]
      by_cases hon : after &&& e.1 ≠ 0 ∧ base &&& e.1 = 0
      · have hbytes : [0x1B, 0x5B] ++ num e.2 ++ [0x6D] = csiBytes [e.2] 0x6D := by
          simp [csiBytes, furtherParams]
        have hone : Restyles (csiBytes [e.2] 0x6D) style (raise style e.1) := by
          have h := restyles_sgr [e.2] (by simp [kMaxParams]) style
          rwa [List.map_cons, List.map_nil, applySgr_attr e (hsub (List.mem_cons_self ..))] at h
        rw [if_pos hon, hbytes]
        have h := hone.append (hrest _)
        have heq : addedBits base after (e :: table) = e.1 ||| addedBits base after table := by
          simp only [addedBits, List.foldr_cons, if_pos hon]
        rw [heq]
        simpa [raise, BitVec.or_assoc] using h
      · have heq : addedBits base after (e :: table) = addedBits base after table := by
          simp only [addedBits, List.foldr_cons, if_neg hon]
          exact BitVec.zero_or
        rw [if_neg hon, List.nil_append, heq]
        exact hrest style

/-- One bit of the table. -/
theorem added_bit (base after : Attrs) (i : Nat) (hi : i < 16) :
    (if after &&& (1#16 <<< i) ≠ 0 ∧ base &&& (1#16 <<< i) = 0 then 1#16 <<< i else 0) =
      (after &&& ~~~base) &&& (1#16 <<< i) := by
  have htwo : (1#16 <<< i) = BitVec.twoPow 16 i := (BitVec.twoPow_eq 16 i).symm
  have hne : BitVec.twoPow 16 i ≠ 0#16 := by
    intro h
    have hbit := congrArg (fun b => b.getLsbD i) h
    simp [hi] at hbit
  rw [htwo, BitVec.and_twoPow, BitVec.and_twoPow, BitVec.and_twoPow, BitVec.getLsbD_and,
    BitVec.getLsbD_not]
  cases ha : after.getLsbD i <;> cases hb : base.getLsbD i <;>
    simp only [hi, decide_true, Bool.not_true, Bool.not_false, Bool.and_false, Bool.and_true,
      Bool.false_eq_true, if_true, if_false] <;>
    simp [hne]

theorem addedBits_attrCodes (base after : Attrs) :
    addedBits base after attrCodes = (after &&& ~~~base) &&& namedAttrs := by
  have hbit := added_bit base after
  have hall : namedAttrs = Attr.bold ||| (Attr.dim ||| (Attr.italic ||| (Attr.underline |||
      (Attr.blink ||| (Attr.reverse ||| (Attr.hidden ||| (Attr.strike ||| 0))))))) := by decide
  simp only [addedBits, attrCodes, List.foldr_cons, List.foldr_nil, hall, Attr.bold, Attr.dim,
    Attr.italic, Attr.underline, Attr.blink, Attr.reverse, Attr.hidden, Attr.strike,
    BitVec.and_or_distrib_left]
  rw [hbit 0 (by decide), hbit 1 (by decide), hbit 2 (by decide), hbit 3 (by decide),
    hbit 4 (by decide), hbit 5 (by decide), hbit 6 (by decide), hbit 7 (by decide)]
  simp

/-- Nothing of `base` is to be turned off, so the table's bits complete it. -/
theorem or_addedBits {base after : Attrs} (h : base &&& ~~~after = 0) :
    (base &&& namedAttrs) ||| addedBits base after attrCodes = after &&& namedAttrs := by
  rw [addedBits_attrCodes]
  apply BitVec.eq_of_getLsbD_eq
  intro i hi
  have hbit := congrArg (fun b => b.getLsbD i) h
  simp [hi] at hbit ⊢
  cases hb : base[i] <;> cases ha : after[i] <;> simp_all

/-! ### Transitions -/

theorem shownStyle_default (d : ColorDepth) : shownStyle d {} = {} := by cases d <;> rfl

/-- **A change of style** takes the pen from the one to the other, whatever it goes by. -/
theorem restyles_sgrTransition (p : OutputProfile) (before after : Style) :
    Restyles (sgrTransition before after p) (shownStyle p.depth before)
      (shownStyle p.depth after) := by
  unfold sgrTransition
  by_cases hsame : before = after
  · rw [if_pos hsame, ← hsame]
    exact Restyles.nil _
  rw [if_neg hsame]
  -- the reset, if any, leaves the pen at `base`, which has nothing to turn off
  obtain ⟨base, hbase, hsub, hreset⟩ : ∃ base : Style,
      base = (if before.attrs &&& ~~~after.attrs ≠ 0 then {} else before) ∧
      base.attrs &&& ~~~after.attrs = 0 ∧
      Restyles (if before.attrs &&& ~~~after.attrs ≠ 0 then [0x1B, 0x5B, 0x30, 0x6D] else [])
        (shownStyle p.depth before) (shownStyle p.depth base) := by
    by_cases hoff : before.attrs &&& ~~~after.attrs ≠ 0
    · refine ⟨{}, (if_pos hoff).symm, by simp, ?_⟩
      rw [if_pos hoff, shownStyle_default]
      exact restyles_sgr [0] (by decide) _
    · refine ⟨before, (if_neg hoff).symm, by simpa using hoff, ?_⟩
      rw [if_neg hoff]
      exact Restyles.nil _
  simp only [← hbase]
  have hattrs := hreset.append (restyles_attrs base.attrs after.attrs (List.Subset.refl _) _)
  have hfg : Restyles (if base.fg = after.fg then [] else colorCode after.fg true p)
      (raise (shownStyle p.depth base) (addedBits base.attrs after.attrs attrCodes))
      ⟨shownColor p.depth after.fg, shownColor p.depth base.bg, after.attrs &&& namedAttrs⟩ := by
    have hbits := or_addedBits hsub
    by_cases heq : base.fg = after.fg
    · rw [if_pos heq, ← heq, ← hbits]
      exact Restyles.nil _
    · rw [if_neg heq, ← hbits]
      exact restyles_colorCode after.fg true p _
  have hbg : Restyles (if base.bg = after.bg then [] else colorCode after.bg false p)
      ⟨shownColor p.depth after.fg, shownColor p.depth base.bg, after.attrs &&& namedAttrs⟩
      (shownStyle p.depth after) := by
    by_cases heq : base.bg = after.bg
    · rw [if_pos heq, heq]
      exact Restyles.nil _
    · rw [if_neg heq]
      exact restyles_colorCode after.bg false p _
  exact (hattrs.append hfg).append hbg

/-- **Emission is undone by parsing.** The transition from one style to another reads as SGR
sequences, and these take what is shown of the one to what is shown of the other; it is empty only
when the same is shown of both. -/
theorem sgrTransition_undone (p : OutputProfile) (before after : Style) :
    (∃ codes : List Params,
      Reads (sgrTransition before after p) (codes.map fun params => .csi params [] 0x6D) ∧
      codes.foldl (fun style params => applySgr params style) (shownStyle p.depth before) =
        shownStyle p.depth after) ∧
    (sgrTransition before after p = [] →
      shownStyle p.depth before = shownStyle p.depth after) := by
  have hrestyles := restyles_sgrTransition p before after
  refine ⟨hrestyles, fun hempty => ?_⟩
  obtain ⟨codes, hreads, hcodes⟩ := hrestyles
  rw [hempty] at hreads
  obtain ⟨q, -, hfeed⟩ := hreads {} ⟨rfl, rfl⟩
  have hnone : codes = [] := List.map_eq_nil_iff.1 (Prod.mk.inj hfeed).2.symm
  rw [hnone] at hcodes
  exact hcodes

/-- From bold red to plain text; and to a bit without a name, for which nothing is written. -/
theorem sgrTransition_undone_red :
    (∃ codes : List Params,
      Reads (sgrTransition { fg := .indexed 1, attrs := Attr.bold } {} {})
        (codes.map fun params => .csi params [] 0x6D) ∧
      codes.foldl (fun style params => applySgr params style)
        (shownStyle .mono16 { fg := .indexed 1, attrs := Attr.bold }) = shownStyle .mono16 {}) ∧
    shownStyle .mono16 {} = shownStyle .mono16 { attrs := 0x100 } :=
  ⟨(sgrTransition_undone {} { fg := .indexed 1, attrs := Attr.bold } {}).1,
    (sgrTransition_undone {} {} { attrs := 0x100 }).2 (by decide)⟩

/-- A style with all its bits, those without a name among them. -/
def keptStyle (d : ColorDepth) (s : Style) : Style :=
  { fg := shownColor d s.fg, bg := shownColor d s.bg, attrs := s.attrs }

/-- A bit without a name has no code, and is never written. -/
theorem unnamed_not_undone :
    ¬ ∀ (p : OutputProfile) (before after : Style), ∃ codes : List Params,
      Reads (sgrTransition before after p) (codes.map fun params => .csi params [] 0x6D) ∧
      codes.foldl (fun style params => applySgr params style) (keptStyle p.depth before) =
        keptStyle p.depth after := by
  intro hall
  obtain ⟨codes, hreads, hcodes⟩ := hall {} {} { attrs := 0x100 }
  have hempty : sgrTransition {} { attrs := 0x100 } {} = [] := by decide
  rw [hempty] at hreads
  obtain ⟨q, -, hfeed⟩ := hreads {} ⟨rfl, rfl⟩
  have hnone : codes = [] := List.map_eq_nil_iff.1 (Prod.mk.inj hfeed).2.symm
  rw [hnone] at hcodes
  exact absurd hcodes (by decide)

end Sshos.Apps
