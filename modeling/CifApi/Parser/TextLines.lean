import Mathlib.Data.List.TakeWhile
import CifApi.Data.Folding
import CifApi.Scanner.LineTerminators
import CifApi.Parser.DecodeText

/-! The lines of text fields as `decode_text` copies and reads them. -/
namespace CifApi

variable {σ : Type}

namespace Config

variable (cfg : Config σ)

/-- The class table is one that `INIT_V2_SCANNER` or `SET_V1` makes, of extra characters that are
strings. -/
def Tabled : Prop := ∃ extraWs extraEol : List UChar, 0 ∉ extraWs ∧ 0 ∉ extraEol ∧
  (cfg.charClass = charClassV2 extraWs extraEol
    ∨ cfg.charClass = charClassV1 (charClassV2 extraWs extraEol))

/-- The class table is one of those for no extra characters. -/
def Standard : Prop := cfg.charClass = charClassV2 [] []
    ∨ cfg.charClass = charClassV1 (charClassV2 [] [])

/-- The marks of the line-folding and prefix protocols. -/
def marks : Marks UChar where
  newline := UChar.nl
  mark := UChar.bsl
  delimiter := UChar.semi
  blank c := cfg.classOf c = .ws && c ≠ UChar.bsl && c ≠ UChar.nl
  blank_mark := by simp
  blank_newline := by simp
  mark_ne_newline := by decide

/-- The text with one LF for each line terminator, standard or extra. -/
def lineFeeds (text : List UChar) : List UChar :=
  (normalizeTerminators text).map fun c => if cfg.classOf c = .eol then UChar.nl else c

variable {cfg}

theorem Tabled.classOf_fixed (h : cfg.Tabled) {c : UChar} (hlt : c < charTableMax) {k : CharClass}
    (hfixed : fixedClass c = some k) (hplain : c ≠ 0x5b ∧ c ≠ 0x5d ∧ c ≠ 0x7b ∧ c ≠ 0x7d) :
    cfg.classOf c = k := by
  obtain ⟨ws, eol, _, _, htable⟩ := h
  have hv2 : charClassV2 ws eol c = k := by simp [charClassV2, hfixed]
  simp only [classOf, hlt, if_true]
  rcases htable with heq | heq
  · rw [heq, hv2]
  · rw [heq]
    unfold charClassV1
    split <;> simp_all

theorem Tabled.classOf_nl (h : cfg.Tabled) : cfg.classOf UChar.nl = .eol :=
  h.classOf_fixed (by decide) rfl (by decide)

theorem Tabled.classOf_cr (h : cfg.Tabled) : cfg.classOf UChar.cr = .eol :=
  h.classOf_fixed (by decide) rfl (by decide)

/-- The terminator of strings is neither white space nor a line terminator. -/
theorem Tabled.classOf_zero (h : cfg.Tabled) : cfg.classOf 0 = .no := by
  obtain ⟨ws, eol, hws, heol, htable⟩ := h
  have hv2 : charClassV2 ws eol 0 = .no := by simp [charClassV2, fixedClass, hws, heol]
  simp only [classOf]
  rcases htable with heq | heq
  · simp [heq, hv2]
  · simp [heq, charClassV1, hv2]

theorem Standard.tabled (h : cfg.Standard) : cfg.Tabled :=
  ⟨[], [], List.not_mem_nil, List.not_mem_nil, h⟩

/-- What holds of every unit that the tables give a class holds of every unit of it. -/
theorem Standard.of_classOf (h : cfg.Standard) {k : CharClass} {P : UChar → Prop}
    (hk : k ≠ .general ∧ k ≠ .no)
    (htable : ∀ d < charTableMax,
      (charClassV2 [] [] d = k ∨ charClassV1 (charClassV2 [] []) d = k) → P d) {c : UChar}
    (hc : cfg.classOf c = k) : P c := by
  by_cases hlt : c < charTableMax
  · refine htable c hlt ?_
    rw [classOf, if_pos hlt] at hc
    rcases h with heq | heq
    · exact .inl (heq ▸ hc)
    · exact .inr (heq ▸ hc)
  · rw [classOf, if_neg hlt] at hc
    split at hc
    · exact absurd hc.symm hk.1
    · exact absurd hc.symm hk.2

theorem Standard.classOf_eol_iff (h : cfg.Standard) {c : UChar} :
    cfg.classOf c = .eol ↔ c = UChar.nl ∨ c = UChar.cr := by
  constructor
  · exact h.of_classOf (P := fun c => c = UChar.nl ∨ c = UChar.cr) (by decide) (by decide +kernel)
  · rintro (rfl | rfl)
    · exact h.tabled.classOf_nl
    · exact h.tabled.classOf_cr

theorem Standard.classOf_ws_iff (h : cfg.Standard) {c : UChar} :
    cfg.classOf c = .ws ↔ c = UChar.tab ∨ c = UChar.sp := by
  constructor
  · exact h.of_classOf (P := fun c => c = UChar.tab ∨ c = UChar.sp) (by decide) (by decide +kernel)
  · rintro (rfl | rfl)
    · exact h.tabled.classOf_fixed (by decide) rfl (by decide)
    · exact h.tabled.classOf_fixed (by decide) rfl (by decide)

theorem Standard.classOf_semi_iff (h : cfg.Standard) {c : UChar} :
    cfg.classOf c = .semi ↔ c = UChar.semi := by
  constructor
  · exact h.of_classOf (P := fun c => c = UChar.semi) (by decide) (by decide +kernel)
  · rintro rfl
    exact h.tabled.classOf_fixed (by decide) rfl (by decide)

theorem Standard.blank_iff (h : cfg.Standard) {c : UChar} :
    cfg.marks.blank c = true ↔ c = UChar.tab ∨ c = UChar.sp := by
  have hne : ∀ d : UChar, (d = UChar.tab ∨ d = UChar.sp) → d ≠ UChar.bsl ∧ d ≠ UChar.nl := by
    rintro d (rfl | rfl) <;> decide
  simp only [marks, h.classOf_ws_iff, Bool.and_eq_true, decide_eq_true_eq]
  exact ⟨fun hc => hc.1.1, fun hc => ⟨⟨hc, (hne c hc).1⟩, (hne c hc).2⟩⟩

end Config

section Copy

variable {cfg : Config σ}

theorem copyText_true (text : List UChar) :
    copyText cfg true text = copyText cfg false (skipNl text) := by
  cases text with
  | nil => rfl
  | cons c rest =>
    by_cases hc : c = UChar.nl
    · simp [copyText, skipNl, hc]
    · simp [copyText, skipNl, hc]

theorem copyText_eol {c : UChar} (hc : cfg.classOf c = .eol) (rest : List UChar) :
    copyText cfg false (c :: rest)
      = UChar.nl :: copyText cfg false (if c = UChar.cr then skipNl rest else rest) := by
  have hne : UChar.cr ≠ UChar.nl := by decide
  by_cases hcr : c = UChar.cr
  · subst hcr
    simp [copyText, hc, copyText_true, hne]
  · by_cases hcn : c = UChar.nl
    · subst hcn
      simp [copyText, hne.symm]
    · simp [copyText, hc, hcr, hcn]

theorem copyText_cons {c : UChar} (hc : cfg.classOf c ≠ .eol) (rest : List UChar) :
    copyText cfg false (c :: rest) = c :: copyText cfg false rest := by
  simp [copyText, hc]

theorem copyText_append {line : List UChar} (h : ∀ c ∈ line, cfg.classOf c ≠ .eol)
    (rest : List UChar) :
    copyText cfg false (line ++ rest) = line ++ copyText cfg false rest := by
  induction line with
  | nil => rfl
  | cons c line ih =>
    rw [List.cons_append, copyText_cons (h c (List.mem_cons_self ..)),
      ih fun d hd => h d (List.mem_cons_of_mem _ hd)]
    rfl

/-- Text that is copied has one LF for each line terminator. -/
theorem copyText_eq_normalizeFrom (h : cfg.Tabled) (afterCr : Bool) (text : List UChar) :
    copyText cfg afterCr text
      = (normalizeFrom afterCr text).map fun c => if cfg.classOf c = .eol then UChar.nl else c := by
  induction text generalizing afterCr with
  | nil => rfl
  | cons c rest ih =>
    rw [copyText, normalizeFrom]
    split
    · exact ih false
    · by_cases heol : cfg.classOf c = .eol
      · have hhead : (if cfg.classOf (lfOf c) = .eol then UChar.nl else lfOf c) = UChar.nl := by
          by_cases hcr : c = UChar.cr
          · simp [lfOf, hcr, h.classOf_nl]
          · simp [lfOf, hcr, heol]
        rw [List.map_cons, hhead, ← ih]
        by_cases hc : c = UChar.nl
        · have hne : UChar.nl ≠ UChar.cr := by decide
          simp [hc, hne]
        · simp [heol, hc]
      · have hcr : c ≠ UChar.cr := fun heq => heol (heq ▸ h.classOf_cr)
        rw [List.map_cons, ← ih]
        simp [heol, hcr, lfOf]

theorem copyText_eq_lineFeeds (h : cfg.Tabled) (text : List UChar) :
    copyText cfg false text = cfg.lineFeeds text :=
  copyText_eq_normalizeFrom h false text

theorem zero_notMem_copyText {afterCr : Bool} {text : List UChar} (h : 0 ∉ text) :
    0 ∉ copyText cfg afterCr text := by
  induction text generalizing afterCr with
  | nil => exact List.not_mem_nil
  | cons c rest ih =>
    have hc : (0 : UChar) ≠ c := fun heq => h (heq ▸ List.mem_cons_self ..)
    have hrest : 0 ∉ rest := fun hmem => h (List.mem_cons_of_mem _ hmem)
    rw [copyText]
    split
    · exact ih hrest
    · split
      · simpa using ih hrest
      · simpa [hc] using ih hrest

/-- Dropping units does not lengthen what is copied. -/
theorem length_copyText_le (afterCr : Bool) (c : UChar) (rest : List UChar) :
    (copyText cfg false rest).length ≤ (copyText cfg afterCr (c :: rest)).length := by
  have hskip : (copyText cfg false rest).length ≤ (copyText cfg true rest).length + 1 := by
    cases rest with
    | nil => simp [copyText]
    | cons d rest =>
      by_cases hd : d = UChar.nl
      · subst hd
        simp [copyText]
      · simp [copyText, hd]
  rw [copyText]
  split
  · exact Nat.le_refl _
  · split
    · cases decide (c = UChar.cr) with
      | true => simpa using hskip
      | false => simp
    · simp

theorem length_copyText_drop_le (n : Nat) (text : List UChar) :
    (copyText cfg false (text.drop n)).length ≤ (copyText cfg false text).length := by
  induction n generalizing text with
  | zero => exact Nat.le_refl _
  | succ n ih =>
    cases text with
    | nil => exact Nat.le_refl _
    | cons c rest => exact Nat.le_trans (ih rest) (length_copyText_le false c rest)

end Copy

section Lines

variable {cfg : Config σ}

/-- Where the output goes back to at the end of a line. -/
def rewind (cfg : Config σ) (folded : Bool) (line out : List UChar) (temp : Option (List UChar)) :
    Option (List UChar) :=
  match if folded then cfg.marks.cut line else none with
  | some part => some (part.reverse ++ out)
  | none => if line.all cfg.marks.blank then temp else none

theorem rewind_nil (folded : Bool) (out : List UChar) (temp : Option (List UChar)) :
    rewind cfg folded [] out temp = temp := by
  cases folded <;> simp [rewind, Marks.cut]

theorem rewind_mark (line out : List UChar) (temp : Option (List UChar)) :
    rewind cfg true (UChar.bsl :: line) out temp = rewind cfg true line (UChar.bsl :: out)
      (some out) := by
  have hmark : cfg.marks.mark = UChar.bsl := rfl
  cases hcut : cfg.marks.cut line with
  | some part => simp [rewind, Marks.cut, hcut]
  | none =>
    by_cases hall : line.all cfg.marks.blank = true
    · simp [rewind, Marks.cut, hcut, hmark, hall]
    · have hblank : cfg.marks.blank UChar.bsl = false := cfg.marks.blank_mark
      simp [rewind, Marks.cut, hcut, hmark, hall, hblank]

theorem rewind_cons {folded : Bool} {c : UChar} (hc : c = UChar.bsl → folded = false)
    (line out : List UChar) {temp : Option (List UChar)} (htemp : folded = true ∨ temp = none) :
    rewind cfg folded (c :: line) out temp
      = rewind cfg folded line (c :: out) (if cfg.marks.blank c then temp else none) := by
  cases folded with
  | false =>
    obtain rfl := htemp.resolve_left (by simp)
    simp [rewind]
  | true =>
    have hne : c ≠ UChar.bsl := fun heq => by simpa using hc heq
    have hmark : cfg.marks.mark = UChar.bsl := rfl
    cases hcut : cfg.marks.cut line with
    | some part => simp [rewind, Marks.cut, hcut]
    | none => cases hblank : cfg.marks.blank c
      <;> simp [rewind, Marks.cut, hcut, hmark, hne, hblank]

/-- One line is read: the last one, or one with its terminator. -/
def ReadsLine (cfg : Config σ) (folded : Bool) (text out : List UChar)
    (temp : Option (List UChar)) : Prop :=
  (UChar.nl ∉ copyText cfg false text
    ∧ decodeLine cfg folded text out temp = ((copyText cfg false text).reverse ++ out, []))
  ∨ ∃ line rest, UChar.nl ∉ line ∧ copyText cfg false text
    = line ++ UChar.nl :: copyText cfg false rest
    ∧ rest <:+ text ∧ rest.length < text.length
    ∧ decodeLine cfg folded text out temp
      = ((rewind cfg folded line out temp).getD (UChar.nl :: line.reverse ++ out), rest)

theorem ReadsLine.cons (h : cfg.Tabled) {folded : Bool} {c : UChar} {rest out : List UChar}
    {temp temp' : Option (List UChar)} (hread : ReadsLine cfg folded rest (c :: out) temp')
    (hc : cfg.classOf c ≠ .eol)
    (hstep : decodeLine cfg folded (c :: rest) out temp
      = decodeLine cfg folded rest (c :: out) temp')
    (hrewind : ∀ line, rewind cfg folded (c :: line) out temp
      = rewind cfg folded line (c :: out) temp') :
    ReadsLine cfg folded (c :: rest) out temp := by
  have hne : UChar.nl ≠ c := fun heq => hc (heq ▸ h.classOf_nl)
  unfold ReadsLine
  rw [hstep, copyText_cons hc]
  rcases hread with ⟨hno, heq⟩ | ⟨line, rest', hno, hcopy, hsuffix, hlen, heq⟩
  · exact .inl ⟨by simp [hne, hno], by simp [heq]⟩
  · refine .inr ⟨c :: line, rest', by simp [hne, hno], by simp [hcopy],
      hsuffix.trans (List.suffix_cons ..), Nat.lt_succ_of_lt hlen, ?_⟩
    rw [hrewind, heq]
    simp

theorem skipNl_suffix (text : List UChar) : skipNl text <:+ text := by
  cases text with
  | nil => exact List.suffix_refl _
  | cons c rest =>
    rw [skipNl]
    split
    · exact List.suffix_cons ..
    · exact List.suffix_refl _

theorem readsLine (h : cfg.Tabled) (hbsl : cfg.classOf UChar.bsl ≠ .eol) {folded : Bool}
    (text out : List UChar) {temp : Option (List UChar)} (htemp : folded = true ∨ temp = none) :
    ReadsLine cfg folded text out temp := by
  induction text generalizing out temp with
  | nil => exact .inl ⟨by simp [copyText], by simp [decodeLine, copyText]⟩
  | cons c rest ih =>
    by_cases hmark : c = UChar.bsl ∧ folded = true
    · obtain ⟨rfl, rfl⟩ := hmark
      exact (ih _ (.inl rfl)).cons h hbsl (by simp [decodeLine]) fun line =>
        rewind_mark line out temp
    · have hfolded : c = UChar.bsl → folded = false := fun hc => by simpa [hc] using hmark
      have hplain : (decide (c = UChar.bsl) && folded) = false := by
        cases hf : folded <;> simp_all
      cases hclass : cfg.classOf c with
      | eol =>
        have hsuffix : (if c = UChar.cr then skipNl rest else rest) <:+ rest := by
          split
          · exact skipNl_suffix rest
          · exact List.suffix_refl _
        refine .inr ⟨[], if c = UChar.cr then skipNl rest else rest, List.not_mem_nil, ?_,
          hsuffix.trans (List.suffix_cons ..), Nat.lt_succ_of_le hsuffix.length_le, ?_⟩
        · rw [copyText_eol hclass]
          rfl
        · rw [rewind_nil, decodeLine, hplain]
          simp only [hclass, Bool.false_eq_true, if_false]
          by_cases hc : c = UChar.nl <;> simp [hc]
      | ws =>
        have hne : c ≠ UChar.nl := fun heq => by simp [heq, h.classOf_nl] at hclass
        refine (ih (c :: out) htemp).cons h (by simp [hclass])
          (by simp [decodeLine, hplain, hclass]) fun line => ?_
        rw [rewind_cons hfolded line out htemp]
        by_cases hc : c = UChar.bsl
        · obtain rfl := htemp.resolve_left (by simp [hfolded hc])
          simp
        · simp [Config.marks, hclass, hc, hne]
      | _ =>
        refine (ih (c :: out) (.inr rfl)).cons h (by simp [hclass])
          (by simp [decodeLine, hplain, hclass]) fun line => ?_
        rw [rewind_cons hfolded line out htemp]
        simp [Config.marks, hclass]

theorem cstr_of_zero_notMem {s : List UChar} (h : 0 ∉ s) : cstr s = s := by
  unfold cstr
  rw [List.takeWhile_eq_self_iff]
  intro c hc
  simp only [ne_eq, decide_eq_true_eq]
  exact fun heq => h (heq ▸ hc)

theorem stripPrefix_eq {linePrefix text : List UChar} (hpre : 0 ∉ linePrefix) (htext : 0 ∉ text) :
    stripPrefix linePrefix text = Marks.dropPrefix linePrefix text := by
  have htake : 0 ∉ text.take linePrefix.length := fun hmem => htext (List.mem_of_mem_take hmem)
  have hiff : (linePrefix.length ≤ text.length ∧ linePrefix = text.take linePrefix.length) ↔
      linePrefix <+: text := by
    constructor
    · exact fun ⟨_, heq⟩ => List.prefix_iff_eq_take.mpr heq
    · exact fun hle => ⟨hle.length_le, List.prefix_iff_eq_take.mp hle⟩
  unfold stripPrefix Marks.dropPrefix
  rw [cstr_of_zero_notMem hpre, cstr_of_zero_notMem htake]
  by_cases hle : linePrefix <+: text
  · obtain ⟨hlen, heq⟩ := hiff.mpr hle
    simp [hle, hlen, ← heq]
  · rw [if_neg hle, if_neg]
    intro hboth
    simp only [Bool.and_eq_true, decide_eq_true_eq] at hboth
    exact hle (hiff.mp hboth)

theorem splitOn_append {linePrefix : List UChar} (h : UChar.nl ∉ linePrefix) (text : List UChar) :
    (linePrefix ++ text).splitOn UChar.nl
      = (text.splitOn UChar.nl).modifyHead (linePrefix ++ ·) := by
  induction linePrefix with
  | nil => cases h : text.splitOn UChar.nl <;> simp [h]
  | cons c linePrefix ih =>
    have hc : c ≠ UChar.nl := fun heq => h (heq ▸ List.mem_cons_self ..)
    rw [List.cons_append, List.splitOn_cons_eq_if_modifyHead,
      ih fun hmem => h (List.mem_cons_of_mem _ hmem)]
    cases text.splitOn UChar.nl <;> simp [hc]

theorem prefix_of_prefix_copyText (h : cfg.Tabled) {linePrefix text : List UChar}
    (hpre : ∀ c ∈ linePrefix, cfg.classOf c ≠ .eol) (hle : linePrefix <+: copyText cfg false text) :
    linePrefix <+: text := by
  induction linePrefix generalizing text with
  | nil => exact List.nil_prefix
  | cons c linePrefix ih =>
    have hc := hpre c (List.mem_cons_self ..)
    cases text with
    | nil => simp [copyText] at hle
    | cons d rest =>
      by_cases hd : cfg.classOf d = .eol
      · rw [copyText_eol hd, List.cons_prefix_cons] at hle
        exact absurd h.classOf_nl (hle.1 ▸ hc)
      · rw [copyText_cons hd, List.cons_prefix_cons] at hle
        rw [List.cons_prefix_cons]
        exact ⟨hle.1, ih (fun e he => hpre e (List.mem_cons_of_mem _ he)) hle.2⟩

/-- The prefix is removed from a text's first line. -/
theorem splitOn_stripPrefix (h : cfg.Tabled) {linePrefix text line : List UChar}
    {lines : List (List UChar)} (hpre : ∀ c ∈ linePrefix, cfg.classOf c ≠ .eol ∧ c ≠ 0)
    (htext : 0 ∉ text) (hlines : (copyText cfg false text).splitOn UChar.nl = line :: lines) :
    (copyText cfg false (stripPrefix linePrefix text)).splitOn UChar.nl
      = Marks.dropPrefix linePrefix line :: lines := by
  have hclass : ∀ c ∈ linePrefix, cfg.classOf c ≠ .eol := fun c hc => (hpre c hc).1
  rw [stripPrefix_eq (fun hmem => (hpre 0 hmem).2 rfl) htext]
  by_cases hle : linePrefix <+: text
  · obtain ⟨rest, rfl⟩ := hle
    rw [copyText_append hclass, splitOn_append fun hmem => hclass _ hmem h.classOf_nl] at hlines
    rw [Marks.dropPrefix_append]
    cases hsplit : (copyText cfg false rest).splitOn UChar.nl with
    | nil => simp at hsplit
    | cons line' lines' =>
      rw [hsplit, List.modifyHead_cons] at hlines
      obtain ⟨rfl, rfl⟩ := List.cons.inj hlines
      rw [Marks.dropPrefix_append]
  · have hnot : ¬ linePrefix <+: line := fun hline =>
      hle (prefix_of_prefix_copyText h hclass (hline.trans (Marks.head_of_splitOn hlines)))
    rw [Marks.dropPrefix, if_neg hle, Marks.dropPrefix, if_neg hnot, hlines]

theorem zero_notMem_stripPrefix {linePrefix text : List UChar} (h : 0 ∉ text) :
    0 ∉ stripPrefix linePrefix text := by
  unfold stripPrefix
  split
  · exact fun hmem => h (List.mem_of_mem_drop hmem)
  · exact h

theorem length_stripPrefix_le (linePrefix text : List UChar) :
    (stripPrefix linePrefix text).length ≤ text.length := by
  unfold stripPrefix
  split
  · simp
  · exact Nat.le_refl _

/-- The lines read one by one are the text that they stand for. -/
theorem decodeLines_eq (h : cfg.Tabled) (hbsl : cfg.classOf UChar.bsl ≠ .eol)
    {linePrefix : List UChar} {folded : Bool}
    (hpre : ∀ c ∈ linePrefix, cfg.classOf c ≠ .eol ∧ c ≠ 0) {n : Nat} {text : List UChar}
    (out : List UChar)
    (hn : text.length ≤ n) (htext : 0 ∉ text) :
    decodeLines cfg linePrefix folded n text out
      = (cfg.marks.readLines linePrefix folded ((copyText cfg false text).splitOn UChar.nl)).reverse
        ++ out := by
  induction n generalizing text out with
  | zero =>
    obtain rfl : text = [] := List.eq_nil_of_length_eq_zero (Nat.le_zero.mp hn)
    simp [decodeLines, copyText, Marks.readLines, Marks.joinLines, Marks.dropPrefix]
  | succ n ih =>
    by_cases hnil : text = []
    · subst hnil
      simp [decodeLines, copyText, Marks.readLines, Marks.joinLines, Marks.dropPrefix]
    · obtain ⟨first, lines, hlines⟩ := List.exists_cons_of_ne_nil
        (List.splitOn_ne_nil UChar.nl (copyText cfg false text))
      have hstripped := splitOn_stripPrefix h hpre htext hlines
      have hlen := length_stripPrefix_le linePrefix text
      have hzero := @zero_notMem_stripPrefix linePrefix _ htext
      rw [decodeLines, if_neg hnil, hlines]
      rcases readsLine h hbsl (stripPrefix linePrefix text) out (.inr rfl : folded = true
        ∨ none = none) with
        ⟨hno, heq⟩ | ⟨line, rest, hno, hcopy, hsuffix, hlt, heq⟩
      · rw [List.splitOn_eq_singleton hno] at hstripped
        obtain ⟨hfirst, hnone⟩ := List.cons.inj hstripped
        rw [heq, ← hnone, hfirst]
        cases n <;> simp [decodeLines, Marks.readLines, Marks.joinLines]
      · rw [hcopy, List.splitOn_append_cons_self_of_not_mem hno] at hstripped
        obtain ⟨hfirst, hrest⟩ := List.cons.inj hstripped
        have hne : lines.map (Marks.dropPrefix linePrefix) ≠ [] := by simp [← hrest]
        have hnext :=
          @ih rest ((rewind cfg folded line out none).getD (UChar.nl :: line.reverse ++ out))
          (by omega)
          fun hmem => hzero (hsuffix.subset hmem)
        rw [heq]
        simp only
        rw [hnext, hrest, Marks.readLines, Marks.readLines, List.map_cons, ← hfirst]
        cases hcut : (if folded = true then cfg.marks.cut line else none) with
        | some part =>
          rw [Marks.joinLines_cons_of_some hne hcut]
          simp [rewind, hcut]
        | none =>
          rw [Marks.joinLines_cons_of_none hne hcut]
          have hnl : cfg.marks.newline = UChar.nl := rfl
          simp [rewind, hcut, hnl]

end Lines

end CifApi
