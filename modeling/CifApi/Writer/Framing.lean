import CifApi.Parser.TextEnd
import CifApi.Writer.TextSegments
import CifApi.Writer.WrittenText

/-! Whether text blocks end where their closing delimiters are written. -/
namespace CifApi

open Exec Buffer

variable {σ : Type}

/-- A line terminator has a semicolon after it. -/
def HasDelim (text : UStr) : Prop := ∃ c, (c = UChar.nl ∨ c = UChar.cr) ∧ [c, UChar.semi] <:+: text

section HasDelim

variable {text rest : UStr} {c : UChar}

theorem not_hasDelim_nil : ¬ HasDelim [] := by simp [HasDelim]

theorem hasDelim_cons :
    HasDelim (c :: rest) ↔ ((c = UChar.nl ∨ c = UChar.cr) ∧ rest.head? = some UChar.semi)
      ∨ HasDelim rest := by
  simp only [HasDelim, pair_infix_cons]
  constructor
  · rintro ⟨d, hd, ⟨rfl, hhead⟩ | hpair⟩
    · exact .inl ⟨hd, hhead⟩
    · exact .inr ⟨d, hd, hpair⟩
  · rintro (⟨hc, hhead⟩ | ⟨d, hd, hpair⟩)
    · exact ⟨c, hc, .inl ⟨rfl, hhead⟩⟩
    · exact ⟨d, hd, .inr hpair⟩

theorem hasDelim_append_of_head (h : rest.head? ≠ some UChar.semi) :
    HasDelim (text ++ rest) ↔ HasDelim text ∨ HasDelim rest := by
  simp only [HasDelim, pair_infix_append, h, and_false, or_false, and_or_left, exists_or]

/-- A line begins with a semicolon just where a line terminator has one after it. -/
theorem hasDelim_iff :
    HasDelim text ↔ ∃ line ∈ (stringLines text).tail, line.head? = some UChar.semi := by
  have hhead : ∀ rest : UStr, rest.head? = some UChar.semi
      ↔ ∃ line lines, stringLines rest = line :: lines ∧ line.head? = some UChar.semi := by
    intro rest
    obtain ⟨line, lines, hlines⟩ :=
      List.exists_cons_of_ne_nil (List.splitOn_ne_nil UChar.nl (normalizeTerminators rest))
    change stringLines rest = line :: lines at hlines
    simp [head_stringLines hlines, hlines]
  have hterm : ∀ rest : UStr, (∃ line ∈ stringLines rest, line.head? = some UChar.semi)
      ↔ rest.head? = some UChar.semi ∨ ∃ line ∈ (stringLines rest).tail,
        line.head? = some UChar.semi := by
    intro rest
    rw [hhead]
    cases stringLines rest <;> simp
  induction text using stringInduction with
  | nil => simp [not_hasDelim_nil, stringLines_nil]
  | crlf rest ih =>
    have hne : UChar.nl ≠ UChar.semi := by decide
    rw [stringLines_crlf, List.tail_cons, hterm]
    refine Iff.trans ?_ (or_congr_right ih)
    simp [hasDelim_cons, hne]
  | eol c rest hc ih =>
    have hterminator : c = UChar.nl ∨ c = UChar.cr := hc.imp_right fun h => h.1
    rw [stringLines_eol hc, List.tail_cons, hterm]
    refine Iff.trans ?_ (or_congr_right ih)
    simp [hasDelim_cons, hterminator]
  | unit c rest hcr hnl ih =>
    have htail : ((stringLines rest).modifyHead (c :: ·)).tail = (stringLines rest).tail := by
      cases stringLines rest <;> rfl
    rw [stringLines_unit hcr hnl, htail]
    refine Iff.trans ?_ ih
    simp [hasDelim_cons, hcr, hnl]

/-- The text before a closing delimiter, as the scanner is given it. -/
theorem exists_normalizeTerminators (text : UStr) : ∃ body,
    normalizeTerminators (text ++ textDelim) = body ++ textDelim
      ∧ (body.head? = some UChar.semi → text.head? = some UChar.semi)
      ∧ ([UChar.nl, UChar.semi] <:+: body → HasDelim text) := by
  have hne : UChar.nl ≠ UChar.semi := by decide
  have hcrne : UChar.nl ≠ UChar.cr := by decide
  induction text using stringInduction with
  | nil => exact ⟨[], rfl, by simp, by simp⟩
  | crlf rest ih =>
    obtain ⟨body, hbody, hhead, hpair⟩ := ih
    refine ⟨UChar.nl :: body, ?_, by simp [hne], ?_⟩
    · rw [List.cons_append, List.cons_append, List.cons_append, ← hbody]
      simp [normalizeTerminators, normalizeFrom, lfOf]
    · rw [pair_infix_cons, hasDelim_cons, hasDelim_cons]
      rintro (⟨_, hsemi⟩ | hbody)
      · exact .inr (.inl ⟨.inl rfl, hhead hsemi⟩)
      · exact .inr (.inr (hpair hbody))
  | eol c rest hc ih =>
    obtain ⟨body, hbody, hhead, hpair⟩ := ih
    by_cases hlast : c = UChar.cr ∧ rest = []
    · -- a carriage return and the line feed of the delimiter are one terminator
      obtain ⟨rfl, rfl⟩ := hlast
      exact ⟨[], rfl, by simp, by simp⟩
    · have hnorm : normalizeTerminators (c :: rest ++ textDelim)
          = UChar.nl :: normalizeTerminators (rest ++ textDelim) := by
        rcases hc with rfl | ⟨rfl, hrest⟩
        · simp [normalizeTerminators, normalizeFrom, lfOf, hcrne]
        · have hhead' : (rest ++ textDelim).head? ≠ some UChar.nl := by
            cases rest with
            | nil => exact absurd ⟨rfl, rfl⟩ hlast
            | cons d rest => simpa using hrest
          simp [normalizeTerminators, normalizeFrom, lfOf, normalizeFrom_true hhead']
      have hterminator : c = UChar.nl ∨ c = UChar.cr := hc.imp_right fun h => h.1
      refine ⟨UChar.nl :: body, by rw [hnorm, hbody]; rfl, by simp [hne], ?_⟩
      rw [pair_infix_cons, hasDelim_cons]
      rintro (⟨_, hsemi⟩ | hbody)
      · exact .inl ⟨hterminator, hhead hsemi⟩
      · exact .inr (hpair hbody)
  | unit c rest hcr hnl ih =>
    obtain ⟨body, hbody, hhead, hpair⟩ := ih
    refine ⟨c :: body, ?_, by simp, ?_⟩
    · rw [List.cons_append, List.cons_append, ← hbody]
      simp [normalizeTerminators, normalizeFrom, lfOf, hcr]
    · rw [pair_infix_cons, hasDelim_cons]
      rintro (⟨rfl, _⟩ | hbody)
      · exact absurd rfl hnl
      · exact .inr (hpair hbody)

end HasDelim

/-- No line of a text block but the one of the closing delimiter begins with a semicolon, and a
scanner that is after the opening delimiter ends the token where the closing one ends. -/
structure Framed (σ : Type) (content : UStr) : Prop where
  lines : ∀ line ∈ (stringLines content).tail, line.head? ≠ some UChar.semi
  scanned : ∀ (cfg : Config σ) (s : Scanner σ) (after : List UChar), cfg.Standard →
    Shows s.toBuffer 0 [UChar.semi] (normalizeTerminators (content ++ textDelim) ++ after) →
    Halts (scanText cfg) s
      (fun _ t =>
        t.ClosesText ((normalizeTerminators (content ++ textDelim)).length - textDelim.length)
        after)
      fun e _ => cfg.Answers e

theorem framed_iff {content : UStr} : Framed σ content ↔ ¬ HasDelim content := by
  rw [hasDelim_iff]
  constructor
  · rintro ⟨hlines, _⟩ ⟨line, hline, hsemi⟩
    exact hlines line hline hsemi
  · intro hno
    refine ⟨fun line hline hsemi => hno ⟨line, hline, hsemi⟩, fun cfg s after hcfg hshows => ?_⟩
    obtain ⟨body, hbody, _, hpair⟩ := exists_normalizeTerminators content
    rw [hbody, List.append_assoc] at hshows
    rw [hbody, List.length_append, Nat.add_sub_cancel]
    exact halts_scanText hcfg (fun h => hno (hasDelim_iff.mp (hpair h))) hshows

section FoldPlaces

/-- Where a line that is too long is folded when its parts are to have a prefix. -/
inductive FoldPlace (line : UStr) : Nat → Prop
  /-- At the first blank after the target, when there is none as near before it. -/
  | after {high : Nat} (hlow : targetLength < high) (hhigh : high ≤ targetLength + foldingWindow)
    (blank : blankAt line high = true) (first : ∀ len, targetLength < len → len < high →
      blankAt line len = false)
    (far : ∀ low ≤ targetLength, blankAt line low = true → (high + low) / 2 < targetLength) :
      FoldPlace line high
  /-- At the last blank up to the target, when the first one after it is as far. -/
  | before {low high : Nat} (hlow : targetLength < high) (hhigh : high
    ≤ targetLength + foldingWindow)
    (blank : blankAt line high = true) (first : ∀ len, targetLength < len → len < high →
      blankAt line len = false)
    (hle : low ≤ targetLength) (blank' : blankAt line low = true)
    (last : ∀ len, low < len → len ≤ targetLength →
      blankAt line len = false) (near : targetLength ≤ (high + low) / 2) :
    FoldPlace line low
  /-- At the target, when there is no blank after it. -/
  | target (none : ∀ len, targetLength < len → len ≤ targetLength + foldingWindow →
    blankAt line len = false)
    (pair : isSurrogatePair (line.getD (targetLength - 1) 0) (line.getD targetLength 0) = false) :
    FoldPlace line targetLength
  /-- After the target, when that is within a surrogate pair. -/
  | pair (none : ∀ len, targetLength < len → len ≤ targetLength + foldingWindow →
    blankAt line len = false)
    (pair : isSurrogatePair (line.getD (targetLength - 1) 0) (line.getD targetLength 0) = true) :
    FoldPlace line (targetLength + 1)

/-- Each carriage return that a semicolon comes after is the end of a part that the line is folded
into. -/
inductive Separates (fold : Bool) : UStr → Prop
  | whole {line : UStr} (hshort : fold = false ∨ line.length ≤ targetLength + foldingWindow)
    (hno : ¬ [UChar.cr, UChar.semi] <:+: line) : Separates fold line
  | cut {line : UStr} {len : Nat} (hfold : fold = true)
    (hlong : targetLength + foldingWindow < line.length) (hplace : FoldPlace line len)
    (hno : ¬ [UChar.cr, UChar.semi] <:+: line.take len)
    (hrest : Separates fold (line.drop len)) : Separates fold line

variable {line : UStr} {len : Nat}

/-- A line that is too long is folded at its fold place. -/
theorem foldPlace_iff (hlong : targetLength + foldingWindow < line.length) :
    FoldPlace line len ↔ foldLine line true targetLength foldingWindow true = len := by
  have hnot : ¬ line.length ≤ targetLength + foldingWindow := Nat.not_le.mpr hlong
  have htarget : targetLength = 2040 := rfl
  have hwindow : foldingWindow = 6 := rfl
  unfold foldLine
  simp only [Bool.not_true, Bool.false_eq_true, hnot, if_false]
  cases hfind : (List.range' (targetLength + 1) foldingWindow).find? (blankAt line) with
  | some high =>
    rw [List.find?_range'_eq_some] at hfind
    obtain ⟨hblank, hmem, hfirst⟩ := hfind
    rw [List.mem_range'_1] at hmem
    have hfirst' : ∀ len, targetLength < len → len < high → blankAt line len = false :=
      fun k hk hlt => by simpa using hfirst k hk hlt
    have hunique : ∀ high', targetLength < high' → blankAt line high' = true →
        (∀ len, targetLength < len → len < high' → blankAt line len = false) → high' = high := by
      intro high' hlow hblank' hfirst''
      rcases Nat.lt_trichotomy high' high with hlt | heq | hgt
      · simp [hfirst' high' hlow hlt] at hblank'
      · exact heq
      · simp [hfirst'' high (by omega) hgt] at hblank
    have hnone : ∀ P : Prop, (∀ len, targetLength < len → len ≤ targetLength + foldingWindow →
        blankAt line len = false) → P := by
      intro P hno
      simp [hno high (by omega) (by omega)] at hblank
    simp only
    rcases lowCandidate_spec line targetLength with ⟨hlow, hno⟩ | ⟨low, hle, hlow, hblank', hlast⟩
    · rw [hlow, if_pos (by omega)]
      constructor
      · intro hplace
        cases hplace with
        | after hlow hhigh hb hf far => exact (hunique _ hlow hb hf).symm
        | before _ _ _ _ hle' hb' _ _ => simp [hno _ hle'] at hb'
        | target hno' => exact hnone _ hno'
        | pair hno' => exact hnone _ hno'
      · rintro rfl
        exact .after (by omega) (by omega) hblank hfirst' fun low hle hb =>
          by simp [hno low hle] at hb
    · rw [hlow]
      have hlater : ∀ low' ≤ targetLength, blankAt line low' = true → low' ≤ low := by
        intro low' hle' hb
        by_contra hgt
        simp [hlast low' (by omega) hle'] at hb
      constructor
      · intro hplace
        cases hplace with
        | after hlow hhigh hb hf far =>
          obtain rfl := hunique _ hlow hb hf
          have hfar := far low hle hblank'
          split
          · rfl
          · rw [if_pos (by omega)]
        | before hlow hhigh hb hf hle' hb' hlast' near =>
          obtain rfl := hunique _ hlow hb hf
          have hle'' := hlater len hle' hb'
          have heq : len = low := by
            by_contra hne
            simp [hlast' low (by omega) hle] at hblank'
          rw [if_neg (by omega), if_neg (by omega), heq, Int.toNat_natCast]
        | target hno' => exact hnone _ hno'
        | pair hno' => exact hnone _ hno'
      · have hafter : (high + low) / 2 < targetLength → FoldPlace line high := by
          intro hlt
          refine .after (by omega) (by omega) hblank hfirst' fun low' hle' hb => ?_
          have hle'' := hlater low' hle' hb
          omega
        split
        · rintro rfl
          exact hafter (by omega)
        · split
          · rintro rfl
            exact hafter (by omega)
          · rintro rfl
            rw [Int.toNat_natCast]
            exact .before (by omega) (by omega) hblank hfirst' hle hblank' hlast (by omega)
  | none =>
    rw [List.find?_range'_eq_none] at hfind
    have hno : ∀ len, targetLength < len → len ≤ targetLength + foldingWindow →
        blankAt line len = false :=
      fun k hk hle => by simpa using hfind k hk (by omega)
    have hplaces : windowPlaces targetLength foldingWindow
        ++ otherPlaces line targetLength foldingWindow
        = targetLength :: (targetLength + 1) :: ((windowPlaces targetLength foldingWindow).drop 2
          ++ otherPlaces line targetLength foldingWindow) := rfl
    simp only
    rw [hplaces, List.find?_cons]
    cases hpair : isSurrogatePair (line.getD (targetLength - 1) 0) (line.getD targetLength 0) with
    | false =>
      simp only [canFoldAt, hpair, Bool.or_true, Bool.not_false, Bool.and_self, Option.getD_some]
      constructor
      · intro hplace
        cases hplace with
        | after hlow hhigh hb _ _ => simp [hno _ hlow hhigh] at hb
        | before hlow hhigh hb _ _ _ _ _ => simp [hno _ hlow hhigh] at hb
        | target => rfl
        | pair _ hpair' => exact absurd (hpair.symm.trans hpair') (by decide)
      · rintro rfl
        exact .target hno hpair
    | true =>
      have hnext : canFoldAt line true (targetLength + 1) = true := by
        rw [canFoldAt, Nat.add_sub_cancel, not_isSurrogatePair_of_pair hpair]
        simp
      have hhere : canFoldAt line true targetLength = false := by
        rw [canFoldAt, hpair]
        simp
      rw [hhere, List.find?_cons, hnext]
      simp only [Option.getD_some]
      constructor
      · intro hplace
        cases hplace with
        | after hlow hhigh hb _ _ => simp [hno _ hlow hhigh] at hb
        | before hlow hhigh hb _ _ _ _ _ => simp [hno _ hlow hhigh] at hb
        | target _ hpair' => exact absurd (hpair.symm.trans hpair') (by decide)
        | pair => rfl
      · rintro rfl
        exact .pair hno hpair

theorem separates_iff_of_long (hlong : targetLength + foldingWindow < line.length) :
    Separates true line ↔
      ¬ [UChar.cr, UChar.semi] <:+: line.take (foldLine line true targetLength foldingWindow true)
      ∧ Separates true (line.drop (foldLine line true targetLength foldingWindow true)) := by
  constructor
  · intro h
    cases h with
    | whole hshort hno => exact absurd (hshort.resolve_left (by simp)) (Nat.not_le.mpr hlong)
    | cut _ _ hplace hno hrest =>
      obtain rfl := (foldPlace_iff hlong).mp hplace
      exact ⟨hno, hrest⟩
  · rintro ⟨hno, hrest⟩
    exact .cut rfl hlong ((foldPlace_iff hlong).mpr rfl) hno hrest

theorem separates_iff_of_whole {fold : Bool}
    (hshort : fold = false ∨ line.length ≤ targetLength + foldingWindow) :
    Separates fold line ↔ ¬ [UChar.cr, UChar.semi] <:+: line := by
  constructor
  · intro h
    cases h with
    | whole _ hno => exact hno
    | cut hfold hlong => exact absurd hlong (Nat.not_lt.mpr (hshort.resolve_left (by simp [hfold])))
  · exact .whole hshort

end FoldPlaces

section Lines

variable {fold forPrefix : Bool} {line out : UStr}

/-- Something that begins with a line feed, if it is not empty. -/
def StartsLine (out : UStr) : Prop := ∀ c, out.head? = some c → c = UChar.nl

theorem StartsLine.head (h : StartsLine out) : out.head? ≠ some UChar.semi :=
  fun hsemi => absurd (h _ hsemi) (by decide)

theorem hasDelim_of_inline (hnl : UChar.nl ∉ line) :
    HasDelim line ↔ [UChar.cr, UChar.semi] <:+: line := by
  constructor
  · rintro ⟨c, rfl | rfl, hpair⟩
    · exact absurd (hpair.subset (List.mem_cons_self ..)) hnl
    · exact hpair
  · exact fun hpair => ⟨_, .inr rfl, hpair⟩

/-- A line of a block begins with a semicolon where the segment on it does, unless it is prefixed,
or after a carriage return in the segment. -/
theorem hasDelim_segment {segment rest : UStr} {marked : Bool} (hrest : StartsLine rest) :
    HasDelim (UChar.nl :: prefixText forPrefix ++ segment ++ (if marked then [UChar.bsl] else [])
      ++ rest)
      ↔ (forPrefix = false ∧ segment.head? = some UChar.semi) ∨ HasDelim segment
        ∨ HasDelim rest := by
  have hbsl : UChar.bsl ≠ UChar.semi ∧ UChar.bsl ≠ UChar.nl ∧ UChar.bsl ≠ UChar.cr := by decide
  have hmark : (if marked = true then [UChar.bsl] else ([] : UStr)).head? ≠ some UChar.semi
      ∧ ¬ HasDelim (if marked = true then [UChar.bsl] else []) := by
    cases marked with
    | true => simp [hasDelim_cons, not_hasDelim_nil, hbsl]
    | false => simp [not_hasDelim_nil]
  have hsegment : HasDelim (UChar.nl :: (prefixText forPrefix ++ segment))
      ↔ (forPrefix = false ∧ segment.head? = some UChar.semi) ∨ HasDelim segment := by
    cases forPrefix with
    | true =>
      have hchars : prefixText true = [0x3e, 0x20] := rfl
      have hgt : (0x3e : UChar) ≠ UChar.semi ∧ (0x3e : UChar) ≠ UChar.nl
          ∧ (0x3e : UChar) ≠ UChar.cr := by decide
      have hsp : (0x20 : UChar) ≠ UChar.semi ∧ (0x20 : UChar) ≠ UChar.nl
          ∧ (0x20 : UChar) ≠ UChar.cr := by decide
      rw [hchars, List.cons_append, List.singleton_append, hasDelim_cons, hasDelim_cons,
        hasDelim_cons]
      simp [hgt, hsp]
    | false =>
      rw [hasDelim_cons]
      simp [prefixText]
  rw [hasDelim_append_of_head hrest.head, hasDelim_append_of_head hmark.1, List.cons_append,
    hsegment]
  simp [hmark.2, or_assoc]

/-- What is wrong with a line: without a prefix it begins with a semicolon, and with one a carriage
return has one after it in a part that the line is folded into. -/
def Exposes (fold forPrefix : Bool) (line : UStr) : Prop :=
  if forPrefix then ¬ Separates fold line else line.head? = some UChar.semi

theorem not_exposes_nil : ¬ Exposes fold forPrefix [] := by
  unfold Exposes
  cases forPrefix with
  | true => simpa using Separates.whole (.inr (Nat.zero_le _)) (by simp)
  | false => simp

theorem StartsLine.append {rest : UStr} (h : StartsLine out) (h' : StartsLine rest) :
    StartsLine (out ++ rest) := by
  intro c hc
  rw [List.head?_append] at hc
  cases hhead : out.head? with
  | none => exact h' c (by simpa [hhead] using hc)
  | some d => exact h c (by simpa [hhead] using hc)

theorem startsLine_writeSegments {protect : Bool} {n : Nat} {tok : UStr}
    (h : writeSegments fold forPrefix protect n tok = .ok out) : StartsLine out := by
  cases n with
  | zero =>
    obtain rfl := Except.ok.inj h
    simp [StartsLine]
  | succ n =>
    rw [writeSegments] at h
    split at h
    · obtain rfl := Except.ok.inj h
      simp [StartsLine]
    · dsimp only at h
      split at h
      · simp at h
      · obtain ⟨rest, _, h⟩ := bind_eq_ok.mp h
        obtain rfl := Except.ok.inj h
        simp [StartsLine]

/-- The segments of a line expose what is wrong with it. -/
theorem hasDelim_writeSegments {protect : Bool} {n : Nat} (hn : line.length ≤ n)
    (hnl : UChar.nl ∉ line) (hplain : forPrefix = false → ¬ HasDelim line)
    (h : writeSegments fold forPrefix protect n line = .ok out) :
    HasDelim out ↔ Exposes fold forPrefix line := by
  have hnil : ¬ HasDelim [] ∧ ¬ Exposes fold forPrefix [] := ⟨not_hasDelim_nil, not_exposes_nil⟩
  induction n generalizing line out with
  | zero =>
    obtain rfl := List.eq_nil_of_length_eq_zero (Nat.le_zero.mp hn)
    obtain rfl := Except.ok.inj h
    simp [hnil]
  | succ n ih =>
    rw [writeSegments] at h
    by_cases hempty : line = []
    · subst hempty
      obtain rfl := Except.ok.inj h
      simp [hnil]
    · rw [if_neg hempty] at h
      dsimp only at h
      split at h
      · simp at h
      · rename_i hpos
        obtain ⟨rest, hrest, h⟩ := bind_eq_ok.mp h
        obtain rfl := Except.ok.inj h
        have hlen := List.length_pos_iff.mpr hempty
        have hdropNl : UChar.nl ∉ line.drop
            (foldLine line fold targetLength foldingWindow forPrefix) :=
          fun hmem => hnl (List.mem_of_mem_drop hmem)
        have htakeNl : UChar.nl ∉ line.take
            (foldLine line fold targetLength foldingWindow forPrefix) :=
          fun hmem => hnl (List.mem_of_mem_take hmem)
        have hsub : ∀ part, part <:+: line → HasDelim part → HasDelim line := by
          rintro part hpart ⟨c, hc, hpair⟩
          exact ⟨c, hc, hpair.trans hpart⟩
        have hdropPlain : forPrefix = false →
            ¬ HasDelim (line.drop (foldLine line fold targetLength foldingWindow forPrefix)) :=
          fun hpre hdelim => hplain hpre (hsub _ (List.drop_suffix _ _).isInfix hdelim)
        have htakePlain : forPrefix = false →
            ¬ HasDelim (line.take (foldLine line fold targetLength foldingWindow forPrefix)) :=
          fun hpre hdelim => hplain hpre (hsub _ (List.take_prefix _ _).isInfix hdelim)
        have hih := ih (by simp; omega) hdropNl hdropPlain hrest
        rw [hasDelim_segment (startsLine_writeSegments hrest), hasDelim_of_inline htakeNl]
        refine Iff.trans (or_congr_right (or_congr_right hih)) ?_
        rcases @foldLine_cases line _ _ forPrefix fold (show foldingWindow < targetLength by
          decide) with
          ⟨hwhole, hshort⟩ | ⟨rfl, hlong, _, hlt, hcan⟩ | ⟨_, _, hzero, _⟩
        · rw [hwhole, List.take_length, List.drop_length]
          simp only [hnil.2, or_false]
          unfold Exposes
          cases forPrefix with
          | true => simp [separates_iff_of_whole hshort]
          | false =>
            have hno := hplain rfl
            rw [hasDelim_of_inline hnl] at hno
            simp [hno]
        · unfold Exposes
          cases forPrefix with
          | true => simp [separates_iff_of_long hlong, or_iff_not_imp_left]
          | false =>
            have hno := htakePlain rfl
            rw [hasDelim_of_inline htakeNl] at hno
            have hhead : (line.take (foldLine line true targetLength foldingWindow false)).head?
                = line.head? := by
              rw [List.head?_take, if_neg (by omega)]
            have hcut : (line.drop (foldLine line true targetLength foldingWindow false)).head?
                ≠ some UChar.semi := by
              rw [List.head?_drop]
              intro hsemi
              simp [canFoldAt, List.getD_eq_getElem?_getD, hsemi] at hcan
            simp only [Bool.false_eq_true, if_false, hno, hhead, hcut, true_and, or_false]
        · omega

theorem hasDelim_writeLogicalLine (hnl : UChar.nl ∉ line)
    (hplain : forPrefix = false → ¬ HasDelim line)
    (h : writeLogicalLine fold forPrefix line = .ok out) :
    StartsLine out ∧ (HasDelim out ↔ Exposes fold forPrefix line) := by
  obtain ⟨body, hbody, h⟩ := bind_eq_ok.mp h
  obtain rfl := Except.ok.inj h
  have hstart := startsLine_writeSegments hbody
  have hend : (if protects fold line = true then [UChar.nl] else ([] : UStr)).head?
      ≠ some UChar.semi
      ∧ ¬ HasDelim (if protects fold line = true then [UChar.nl] else [])
      ∧ StartsLine (if protects fold line = true then [UChar.nl] else []) := by
    have hne : UChar.nl ≠ UChar.semi := by decide
    cases protects fold line with
    | true => simp [hne, hasDelim_cons, not_hasDelim_nil, StartsLine]
    | false => simp [not_hasDelim_nil, StartsLine]
  refine ⟨hstart.append hend.2.2, ?_⟩
  rw [hasDelim_append_of_head hend.1, hasDelim_writeSegments (Nat.le_refl _) hnl hplain hbody]
  simp [hend.2.1]

/-- A line of a block begins with a semicolon just where something is wrong with a line of the
text. -/
theorem hasDelim_writeLogicalLines {lines : List UStr} (hnl : ∀ line ∈ lines, UChar.nl ∉ line)
    (hplain : ∀ line ∈ lines, forPrefix = false → ¬ HasDelim line)
    (h : writeLogicalLines fold forPrefix lines = .ok out) :
    StartsLine out ∧ (HasDelim out ↔ ∃ line ∈ lines, Exposes fold forPrefix line) := by
  induction lines generalizing out with
  | nil =>
    obtain rfl := Except.ok.inj h
    simp [StartsLine, not_hasDelim_nil]
  | cons line lines ih =>
    have hline := hnl line (List.mem_cons_self ..)
    have hlinePlain := hplain line (List.mem_cons_self ..)
    cases lines with
    | nil =>
      rw [writeLogicalLines] at h
      simpa using hasDelim_writeLogicalLine hline hlinePlain h
    | cons next lines =>
      rw [writeLogicalLines] at h
      obtain ⟨first, hfirst, h⟩ := bind_eq_ok.mp h
      obtain ⟨rest, hrest, h⟩ := bind_eq_ok.mp h
      obtain rfl := Except.ok.inj h
      obtain ⟨hstart, hdelim⟩ := ih (fun l hl => hnl l (List.mem_cons_of_mem _ hl))
        (fun l hl => hplain l (List.mem_cons_of_mem _ hl)) hrest
      have hfirst' : StartsLine first ∧ (HasDelim first ↔ Exposes fold forPrefix line) := by
        by_cases hempty : line = []
        · subst hempty
          obtain rfl := Except.ok.inj hfirst
          refine ⟨by simp [StartsLine], ?_⟩
          simp [hasDelim_cons, not_hasDelim_nil, not_exposes_nil]
        · rw [writeTerminatedLine, if_neg hempty] at hfirst
          exact hasDelim_writeLogicalLine hline hlinePlain hfirst
      refine ⟨hfirst'.1.append hstart, ?_⟩
      rw [hasDelim_append_of_head hstart.head, hfirst'.2, hdelim]
      simp

/-- What is written of a text by the protocols has a line with a semicolon just where a line of the
text exposes one. -/
theorem hasDelim_writeContent {text content : UStr} (hused : fold = true ∨ forPrefix = true)
    (hplain : forPrefix = false → ¬ HasDelim text)
    (h : writeContent fold forPrefix text = .ok content) :
    HasDelim content ↔ ∃ line ∈ text.splitOn UChar.nl, Exposes fold forPrefix line := by
  have hon : ¬ ((!fold && !forPrefix) = true) := by
    rcases hused with rfl | rfl <;> simp
  rw [writeContent, if_neg hon] at h
  obtain ⟨body, hbody, h⟩ := bind_eq_ok.mp h
  obtain rfl := Except.ok.inj h
  have hlines : ∀ line ∈ text.splitOn UChar.nl, forPrefix = false → ¬ HasDelim line := by
    rintro line hline hpre ⟨c, hc, hpair⟩
    exact hplain hpre ⟨c, hc, hpair.trans (Marks.infix_of_mem_splitOn hline)⟩
  obtain ⟨hstart, hdelim⟩ :=
    hasDelim_writeLogicalLines (fun line hline => Marks.notMem_of_mem_splitOn hline) hlines hbody
  have hheader : ¬ HasDelim ((if forPrefix then units "> \\" else []) ++ if fold then units "\\"
      else []) := by
    have hchars : ∀ c ∈ (if forPrefix then units "> \\" else [])
        ++ (if fold then units "\\" else []), c ≠ UChar.nl ∧ c ≠ UChar.cr := by
      cases fold <;> cases forPrefix <;> decide
    rintro ⟨c, hc, hpair⟩
    obtain ⟨hnotNl, hnotCr⟩ := hchars c (hpair.subset (List.mem_cons_self ..))
    exact hc.elim hnotNl hnotCr
  rw [hasDelim_append_of_head hstart.head, hdelim]
  simp [hheader]

/-- Without a prefix it is only the start of the text that may be exposed. -/
theorem exists_exposes_iff {text : UStr} (h : ¬ HasDelim text) :
    (∃ line ∈ text.splitOn UChar.nl, Exposes fold false line) ↔ text.head? = some UChar.semi := by
  obtain ⟨first, lines, hsplit⟩ := List.exists_cons_of_ne_nil (List.splitOn_ne_nil UChar.nl text)
  have htext := Marks.eq_of_splitOn hsplit
  have hne : UChar.nl ≠ UChar.semi := by decide
  have hlines : ∀ line ∈ lines, line.head? ≠ some UChar.semi := by
    intro line hline hsemi
    refine h ⟨UChar.nl, .inl rfl, ?_⟩
    rw [htext]
    refine List.infix_append_of_infix_right ((pair_infix_cons.mpr (.inl ⟨rfl, hsemi⟩)).trans ?_)
    exact List.infix_of_mem_flatten (List.mem_map_of_mem hline)
  have hfirst : first.head? = some UChar.semi ↔ text.head? = some UChar.semi := by
    rw [htext]
    cases first with
    | nil => cases lines <;> simp [hne]
    | cons c first => simp
  rw [hsplit, ← hfirst]
  constructor
  · rintro ⟨line, hline, hsemi⟩
    rcases List.mem_cons.mp hline with rfl | hline
    · exact hsemi
    · exact absurd hsemi (hlines line hline)
  · exact fun hsemi => ⟨first, List.mem_cons_self .., hsemi⟩

end Lines

theorem containsTextDelim_iff (text : UStr) (allowUnquoted allowTripleQuoted : Bool)
    (lengthLimit : Int) :
    (analyzeString text allowUnquoted allowTripleQuoted lengthLimit).containsTextDelim = true ↔
      HasDelim text := by
  obtain ⟨line, lines, hline⟩ :=
    List.exists_cons_of_ne_nil (List.splitOn_ne_nil UChar.nl (normalizeTerminators text))
  change stringLines text = line :: lines at hline
  obtain ⟨_, _, _, _, _, hnlSemi, _⟩ := LineStats.ofString_spec hline
  rw [hasDelim_iff]
  simp [analyzeString, hline, hnlSemi]

/-- A text block ends at its closing delimiter just where it is neither folded nor prefixed, or each
line can be written, and without prefixes the text does not begin with a semicolon, and with
prefixes no semicolon comes after a carriage return but where the line is folded between them. -/
theorem framed_writeText_iff {text : UStr} {allowUnquoted allowTripleQuoted : Bool}
    {a : StringAnalysis} (ha : a = analyzeString text allowUnquoted allowTripleQuoted lineLength) :
    (∃ content, writeText a.folds a.containsTextDelim text = .ok (textDelim ++ content ++ textDelim)
      ∧ Framed σ content)
    ↔ (a.folds = false ∧ a.containsTextDelim = false)
      ∨ (a.containsTextDelim = false ∧ text.head? ≠ some UChar.semi
        ∧ ∀ line ∈ text.splitOn UChar.nl, ¬ ∃ s, s <:+ line ∧ Unfoldable s)
      ∨ (a.containsTextDelim = true ∧ ∀ line ∈ text.splitOn UChar.nl, Separates a.folds line) := by
  have hdelim : a.containsTextDelim = true ↔ HasDelim text := by
    rw [ha]
    exact containsTextDelim_iff text allowUnquoted allowTripleQuoted lineLength
  simp only [writeText_eq_ok, framed_iff]
  by_cases hraw : a.folds = false ∧ a.containsTextDelim = false
  · refine ⟨fun _ => .inl hraw, fun _ => ⟨text, by simp [writeContent, hraw], ?_⟩⟩
    rw [← hdelim]
    simp [hraw.2]
  · have hused : a.folds = true ∨ a.containsTextDelim = true := by
      cases hfolds : a.folds <;> simp_all
    have hplain : a.containsTextDelim = false → ¬ HasDelim text := by
      rw [← hdelim]
      simp
    have hframed : (∃ content, writeContent a.folds a.containsTextDelim text = .ok content
        ∧ ¬ HasDelim content)
        ↔ (∃ content, writeContent a.folds a.containsTextDelim text = .ok content)
          ∧ ¬ ∃ line ∈ text.splitOn UChar.nl, Exposes a.folds a.containsTextDelim line := by
      constructor
      · rintro ⟨content, hcontent, hno⟩
        exact ⟨⟨content, hcontent⟩, fun hexposes =>
          hno ((hasDelim_writeContent hused hplain hcontent).mpr hexposes)⟩
      · rintro ⟨⟨content, hcontent⟩, hno⟩
        exact ⟨content, hcontent, fun hbad =>
          hno ((hasDelim_writeContent hused hplain hcontent).mp hbad)⟩
    rw [hframed, writeContent_eq_ok_iff hused, or_iff_right hraw]
    cases hpre : a.containsTextDelim with
    | true => simp [Exposes]
    | false =>
      have hfold : a.folds = true := hused.resolve_right (by simp [hpre])
      rw [exists_exposes_iff (hplain hpre)]
      simp [hfold, and_comm]

/-- A text that is folded and prefixed ends at its closing delimiter. -/
theorem framed_writeText_folded :
    let text := units "'''\"\"\"\\\n;b \n\nc\\ "
    let a := analyzeString text true true lineLength
    a.folds = true ∧ a.containsTextDelim = true
      ∧ ∃ content, writeText a.folds a.containsTextDelim text
        = .ok (textDelim ++ content ++ textDelim)
        ∧ Framed Unit content := by
  refine ⟨by decide +kernel, by decide +kernel, ?_⟩
  refine (framed_writeText_iff rfl).mpr (.inr (.inr ⟨by decide +kernel, ?_⟩))
  have hlines : ∀ line ∈ (units "'''\"\"\"\\\n;b \n\nc\\ ").splitOn UChar.nl,
      line.length ≤ targetLength + foldingWindow ∧ ¬ [UChar.cr, UChar.semi] <:+: line := by decide
  intro line hline
  exact .whole (.inr (hlines line hline).1) (hlines line hline).2

/-- A single line that is too long is folded. -/
theorem analyzeString_long {text : UStr} (hcr : UChar.cr ∉ text) (hnl : UChar.nl ∉ text)
    (hlong : lineLength < text.length) (allowUnquoted allowTripleQuoted : Bool) :
    let a := analyzeString text allowUnquoted allowTripleQuoted lineLength
    a.delim = textDelim ∧ a.folds = true ∧ a.containsTextDelim = false := by
  have hlines : stringLines text = [text] := by
    rw [stringLines_of_no_cr hcr, List.splitOn_eq_singleton hnl]
  obtain ⟨_, _, _, hmax, _, hnlSemi, _⟩ := LineStats.ofString_spec hlines
  have hlength : (LineStats.ofString text).maxLine = text.length := by
    rw [hmax]
    simp [greatest]
  have hnot : ¬ (text.length : Int) ≤ lineLength := by omega
  refine ⟨?_, ?_, ?_⟩
  · simp only [analyzeString, quoteDelimiter?, hlength, hnot, if_false, Option.getD_none]
  · simp only [StringAnalysis.folds, analyzeString, hlength, hlong, decide_true, Bool.or_true,
      Bool.true_or]
  · simp [analyzeString, hnlSemi]

/-- A text that begins with a semicolon and is folded has it at the start of a line. -/
theorem not_framed_writeText_semi :
    let text := UChar.semi :: List.replicate lineLength 0x61
    let a := analyzeString text true true lineLength
    a.delim = textDelim
      ∧ ¬ ∃ content, writeText a.folds a.containsTextDelim text
        = .ok (textDelim ++ content ++ textDelim)
        ∧ Framed Unit content := by
  have hlength : (UChar.semi :: List.replicate lineLength 0x61).length = lineLength + 1 := by
    rw [List.length_cons, List.length_replicate]
  have hmem : ∀ c ∈ UChar.semi :: List.replicate lineLength (0x61 : UChar), c ≠ UChar.cr
      ∧ c ≠ UChar.nl := by
    intro c hc
    rcases List.mem_cons.mp hc with rfl | hc
    · decide
    · rw [List.eq_of_mem_replicate hc]
      decide
  have hhead : (UChar.semi :: List.replicate lineLength (0x61 : UChar)).head? = some UChar.semi :=
    rfl
  generalize UChar.semi :: List.replicate lineLength (0x61 : UChar) = text at *
  obtain ⟨hdelim, hfold, hpre⟩ :=
    analyzeString_long (fun hcr => (hmem _ hcr).1 rfl) (fun hnl => (hmem _ hnl).2 rfl)
    (Nat.lt_of_lt_of_eq (Nat.lt_succ_self _) hlength.symm) true true
  refine ⟨hdelim, ?_⟩
  rintro ⟨content, hwrite, hframed⟩
  have hno : ¬ HasDelim text := by
    rw [← containsTextDelim_iff text true true lineLength, hpre]
    decide
  rw [hfold, hpre, writeText_eq_ok] at hwrite
  exact framed_iff.mp hframed ((hasDelim_writeContent (.inl rfl) (fun _ => hno) hwrite).mpr
    ((exists_exposes_iff hno).mpr hhead))

end CifApi
