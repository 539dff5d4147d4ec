import CifApi.Data.Runs
import CifApi.Scanner.LineTerminators
import CifApi.Writer.Analysis

/-! The statistics of strings against their lines. -/
namespace CifApi

/-- The lines of a string, with any mixture of terminators. -/
def stringLines (str : UStr) : List UStr := (normalizeTerminators str).splitOn UChar.nl

/-- The first terminator of the string is a CR LF pair. -/
def firstIsCrlf : UStr → Bool
  | [] => false
  | c :: rest => if c = UChar.cr then rest.head? = some UChar.nl else if c = UChar.nl then false
    else firstIsCrlf rest

/-- White space as the end of a line is looked at for it. -/
def isTrailingWs (c : UChar) : Bool := c = UChar.sp || c = UChar.tab || c = UChar.vt

section Lines

theorem stringLines_nil : stringLines [] = [[]] := rfl

theorem stringLines_crlf (rest : UStr) :
    stringLines (UChar.cr :: UChar.nl :: rest) = [] :: stringLines rest := by
  have hne : UChar.nl ≠ UChar.cr := by decide
  have hnorm : normalizeTerminators (UChar.cr :: UChar.nl :: rest)
      = UChar.nl :: normalizeTerminators rest := by
    simp [normalizeTerminators, normalizeFrom, lfOf]
  rw [stringLines, hnorm, List.splitOn_cons_eq_if_modifyHead, if_pos (by simp)]
  rfl

theorem normalizeFrom_true {rest : UStr} (h : rest.head? ≠ some UChar.nl) :
    normalizeFrom true rest = normalizeFrom false rest := by
  cases rest with
  | nil => rfl
  | cons c rest =>
    have hc : c ≠ UChar.nl := by simpa using h
    simp [normalizeFrom, hc]

theorem stringLines_eol {c : UChar} {rest : UStr}
    (h : c = UChar.nl ∨ c = UChar.cr ∧ rest.head? ≠ some UChar.nl) :
    stringLines (c :: rest) = [] :: stringLines rest := by
  have hnorm : normalizeTerminators (c :: rest) = UChar.nl :: normalizeTerminators rest := by
    have hne : UChar.nl ≠ UChar.cr := by decide
    rcases h with rfl | ⟨rfl, hrest⟩
    · simp [normalizeTerminators, normalizeFrom, lfOf, hne]
    · simp [normalizeTerminators, normalizeFrom, lfOf, normalizeFrom_true hrest]
  rw [stringLines, hnorm, List.splitOn_cons_eq_if_modifyHead, if_pos (by simp)]
  rfl

theorem stringLines_unit {c : UChar} {rest : UStr} (hcr : c ≠ UChar.cr) (hnl : c ≠ UChar.nl) :
    stringLines (c :: rest) = (stringLines rest).modifyHead (c :: ·) := by
  have hnorm : normalizeTerminators (c :: rest) = c :: normalizeTerminators rest := by
    simp [normalizeTerminators, normalizeFrom, lfOf, hcr]
  rw [stringLines, hnorm, List.splitOn_cons_eq_if_modifyHead, if_neg (by simpa using hnl)]
  rfl

/-- A string is empty, or begins with a CR LF pair, another terminator, or another unit. -/
theorem stringInduction {P : UStr → Prop} (nil : P [])
    (crlf : ∀ rest, P rest → P (UChar.cr :: UChar.nl :: rest))
    (eol : ∀ c rest, (c = UChar.nl ∨ c = UChar.cr ∧ rest.head? ≠ some UChar.nl) → P rest →
      P (c :: rest))
    (unit : ∀ c rest, c ≠ UChar.cr → c ≠ UChar.nl → P rest → P (c :: rest)) (str : UStr) :
    P str := by
  induction h : str.length using Nat.strongRecOn generalizing str with
  | ind n ih =>
    cases str with
    | nil => exact nil
    | cons c rest =>
      have hrest : P rest := ih rest.length (by simp at h; omega) rest rfl
      by_cases hnl : c = UChar.nl
      · exact eol c rest (.inl hnl) hrest
      · by_cases hcr : c = UChar.cr
        · cases rest with
          | nil => exact eol c [] (.inr ⟨hcr, by simp⟩) hrest
          | cons d rest =>
            by_cases hd : d = UChar.nl
            · subst hcr hd
              exact crlf rest (ih rest.length (by simp at h; omega) rest rfl)
            · exact eol c (d :: rest) (.inr ⟨hcr, by simpa using hd⟩) hrest
        · exact unit c rest hcr hnl hrest

/-- A line begins as the string does. -/
theorem head_stringLines {str line : UStr} {lines : List UStr}
    (h : stringLines str = line :: lines) :
    str.head? = some UChar.semi ↔ line.head? = some UChar.semi := by
  have hcr : UChar.cr ≠ UChar.semi := by decide
  have hnl : UChar.nl ≠ UChar.semi := by decide
  induction str using stringInduction with
  | nil =>
    obtain ⟨rfl, _⟩ := List.cons.inj h
    exact Iff.rfl
  | crlf rest _ =>
    rw [stringLines_crlf] at h
    obtain ⟨rfl, _⟩ := List.cons.inj h
    simp [hcr]
  | eol c rest hc _ =>
    rw [stringLines_eol hc] at h
    obtain ⟨rfl, _⟩ := List.cons.inj h
    rcases hc with rfl | ⟨rfl, _⟩
    · simp [hnl]
    · simp [hcr]
  | unit c rest hc hc' _ =>
    rw [stringLines_unit hc hc'] at h
    cases hrest : stringLines rest with
    | nil => simp [hrest] at h
    | cons line' lines' =>
      rw [hrest, List.modifyHead_cons] at h
      obtain ⟨rfl, _⟩ := List.cons.inj h
      simp

end Lines

namespace LineStats

variable {st st' : LineStats} {before after : Option UChar}

theorem rememberSemis_eq (st : LineStats) :
    st.rememberSemis = { st with mostSemis := max st.mostSemis st.consecSemis } := by
  unfold rememberSemis
  split
  · rename_i hlt
    rw [max_eq_right (Nat.le_of_lt hlt)]
  · rename_i hlt
    rw [max_eq_left (Nat.not_lt.mp hlt)]

theorem trackTrailingWs_eq (st : LineStats) (before : Option UChar) :
    st.trackTrailingWs before
      = { st with hasTrailingWs := st.hasTrailingWs || before.any isTrailingWs } := by
  have hws : (decide (before = some UChar.sp) || decide (before = some UChar.tab)
      || decide (before = some UChar.vt))
      = before.any isTrailingWs := by
    cases before <;> simp [isTrailingWs]
  unfold trackTrailingWs
  rw [hws]

/-- What the end of a line leaves of the counters. -/
theorem endLine_eq (st : LineStats)
    (before after : Option UChar) : st.endLine before after = { st with
    hasNlSemi := st.hasNlSemi || after = some UChar.semi
    hasTrailingWs := st.hasTrailingWs || before.any isTrailingWs
    firstLine := if st.terminators = 1 then st.thisLine else st.firstLine
    maxLine := if st.terminators = 1 then st.thisLine else max st.maxLine st.thisLine
    mostSemis := max st.mostSemis st.consecSemis
    consecSemis := 0
    thisLine := 0 } := by
  unfold endLine
  simp only [rememberSemis_eq, trackTrailingWs_eq]
  split
  · rfl
  · split
    · rename_i hlt
      rw [max_eq_right (Nat.le_of_lt hlt)]
    · rename_i hlt
      rw [max_eq_left (Nat.not_lt.mp hlt)]

theorem countUnit_eq (c : UChar) (st : LineStats) : st.countUnit c = { st with
    mostSemis := if c = UChar.semi then st.mostSemis else max st.mostSemis st.consecSemis
    consecSemis := if c = UChar.semi then st.consecSemis + 1 else 0
    thisLine := st.thisLine + 1 } := by
  unfold countUnit
  split
  · rfl
  · rw [rememberSemis_eq]

/-- Whether a line ends in white space, where a unit comes before the rest of it. -/
def wsAtEnd (before : Option UChar) (line : UStr) : Bool :=
  (line.getLast?.or before).any isTrailingWs

theorem wsAtEnd_cons (before : Option UChar) (c : UChar) (line : UStr) :
    wsAtEnd before (c :: line) = wsAtEnd (some c) line := by
  cases line with
  | nil => rfl
  | cons d line =>
    unfold wsAtEnd
    rw [List.getLast?_cons_cons]
    cases h : (d :: line).getLast? with
    | none => simp at h
    | some e => rfl

theorem wsAtEnd_terminator {c : UChar} (hc : c = UChar.nl ∨ c = UChar.cr) (line : UStr) :
    wsAtEnd (some c) line = wsAtEnd none line := by
  cases h : line.getLast? with
  | none =>
    have hws : isTrailingWs c = false := by
      rcases hc with rfl | rfl <;> decide
    simp [wsAtEnd, h, hws]
  | some d => simp [wsAtEnd, h]

/-- What the loop makes of the counters for a string with these lines, the first of which has
begun. -/
structure Counted (before : Option UChar) (st : LineStats) (str line : UStr) (lines : List UStr)
    (st' : LineStats) (after : Option UChar) : Prop where
  terminators : ∃ n ≤ lines.length, st'.terminators = st.terminators + lines.length + n
    ∧ st'.crlfCount = st.crlfCount + n
  thisLine : st'.thisLine = (lines.getLast?.map List.length).getD (st.thisLine + line.length)
  maxLine : (st.terminators = 0 → st.maxLine = 0) →
    max st'.maxLine st'.thisLine
      = greatest (st.maxLine :: (st.thisLine + line.length) :: lines.map List.length)
  semis : max st'.mostSemis st'.consecSemis
    = greatest (st.mostSemis :: longestRun UChar.semi st.consecSemis line
    :: lines.map (longestRun UChar.semi 0))
  hasNlSemi : st'.hasNlSemi = (st.hasNlSemi || lines.any fun line => line.head? = some UChar.semi)
  hasTrailingWs : (st'.hasTrailingWs || after.any isTrailingWs)
    = (st.hasTrailingWs || wsAtEnd before line || lines.any (wsAtEnd none))
  firstLine : st'.firstLine
    = if st.terminators = 0 ∧ lines ≠ [] ∧ firstIsCrlf str = false then st.thisLine + line.length
      else st.firstLine

theorem Counted.nil : Counted before st [] [] [] st before where
  terminators := ⟨0, Nat.le_refl _, rfl, rfl⟩
  thisLine := rfl
  maxLine := fun _ => by simp [greatest]
  semis := by simp [greatest, longestRun]
  hasNlSemi := by simp
  hasTrailingWs := by simp [wsAtEnd]
  firstLine := by simp

theorem Counted.unit {c : UChar} {rest line : UStr} {lines : List UStr} (hcr : c ≠ UChar.cr)
    (hnl : c ≠ UChar.nl) (h : Counted (some c) (st.countUnit c) rest line lines st' after) :
    Counted before st (c :: rest) (c :: line) lines st' after := by
  rw [countUnit_eq] at h
  constructor
  · exact h.terminators
  · rw [h.thisLine, List.length_cons]
    simp only [Nat.add_assoc, Nat.add_comm 1]
  · intro hmax
    rw [h.maxLine hmax, List.length_cons]
    simp only [Nat.add_assoc, Nat.add_comm 1]
  · rw [h.semis]
    by_cases hc : c = UChar.semi
    · simp [hc, longestRun]
    · simp only [hc, if_false, longestRun, greatest, List.foldr_cons]
      omega
  · exact h.hasNlSemi
  · rw [h.hasTrailingWs, wsAtEnd_cons]
  · rw [h.firstLine]
    simp only [firstIsCrlf, hcr, hnl, if_false, List.length_cons, Nat.add_assoc, Nat.add_comm 1]

theorem Counted.eol {c : UChar} {rest line : UStr} {lines : List UStr}
    (hc : c = UChar.nl ∨ c = UChar.cr ∧ rest.head? ≠ some UChar.nl)
    (hline : stringLines rest = line :: lines)
    (h : Counted (some c) ({ st with terminators := st.terminators + 1 }.endLine before rest.head?)
      rest line lines st' after) : Counted before st (c :: rest) [] (line :: lines) st' after := by
  have hhead := head_stringLines hline
  have hterm : c = UChar.nl ∨ c = UChar.cr := hc.imp_right And.left
  have hcrlf : firstIsCrlf (c :: rest) = false := by
    have hne : UChar.nl ≠ UChar.cr := by decide
    rcases hc with rfl | ⟨rfl, hrest⟩
    · simp [firstIsCrlf, hne]
    · simp [firstIsCrlf, hrest]
  rw [endLine_eq] at h
  constructor
  · obtain ⟨n, hle, hterms, hcount⟩ := h.terminators
    refine ⟨n, Nat.le_succ_of_le hle, ?_, hcount⟩
    rw [hterms, List.length_cons]
    simp only [Nat.add_assoc, Nat.add_comm 1]
  · rw [h.thisLine]
    cases lines with
    | nil => simp
    | cons next lines =>
      rw [List.getLast?_cons_cons]
      simp [List.getLast?_cons]
  · intro hmax
    have hrest := h.maxLine (by simp)
    rw [hrest]
    by_cases hzero : st.terminators = 0
    · simp [hzero, hmax hzero, greatest]
    · have hone : ¬ st.terminators + 1 = 1 := by omega
      simp only [hone, if_false, greatest, List.foldr_cons, List.map_cons, List.length_nil]
      omega
  · rw [h.semis]
    simp only [greatest, longestRun, List.foldr_cons, List.map_cons]
    omega
  · rw [h.hasNlSemi]
    simp [hhead, Bool.or_assoc]
  · rw [h.hasTrailingWs, wsAtEnd_terminator hterm]
    simp [wsAtEnd, Bool.or_assoc]
  · rw [h.firstLine, hcrlf]
    by_cases hzero : st.terminators = 0 <;> simp [hzero]

theorem Counted.crlf {rest line : UStr} {lines : List UStr}
    (hline : stringLines rest = line :: lines) (h : Counted (some UChar.nl) ({ st with
        terminators := st.terminators + 2
        crlfCount := st.crlfCount + 1
        hasTrailingWs := st.hasTrailingWs || before.any isTrailingWs }.endLine (some UChar.cr)
          rest.head?)
      rest line lines st' after) :
    Counted before st (UChar.cr :: UChar.nl :: rest) [] (line :: lines) st' after := by
  have hhead := head_stringLines hline
  have hcrlf : firstIsCrlf (UChar.cr :: UChar.nl :: rest) = true := by simp [firstIsCrlf]
  have hcr : isTrailingWs UChar.cr = false := by decide
  rw [endLine_eq] at h
  constructor
  · obtain ⟨n, hle, hterms, hcount⟩ := h.terminators
    refine ⟨n + 1, Nat.succ_le_succ hle, ?_, ?_⟩
    · rw [hterms, List.length_cons]
      simp only
      omega
    · rw [hcount]
      simp only
      omega
  · rw [h.thisLine]
    cases lines with
    | nil => simp
    | cons next lines =>
      rw [List.getLast?_cons_cons]
      simp [List.getLast?_cons]
  · intro hmax
    rw [h.maxLine (by simp)]
    simp only [greatest, List.foldr_cons, List.map_cons, List.length_nil,
      show ¬ st.terminators + 2 = 1 by omega, if_false]
    omega
  · rw [h.semis]
    simp only [greatest, longestRun, List.foldr_cons, List.map_cons]
    omega
  · rw [h.hasNlSemi]
    simp [hhead, Bool.or_assoc]
  · rw [h.hasTrailingWs, wsAtEnd_terminator (.inl rfl)]
    simp [wsAtEnd, hcr, Bool.or_assoc]
  · rw [h.firstLine, hcrlf]
    simp

/-- The loop over a whole string. -/
theorem counted (str : UStr) : ∀ (before : Option UChar) (st : LineStats), ∃ line lines,
    stringLines str = line :: lines
      ∧ Counted before st str line lines (countUnits before str st).1
        (countUnits before str st).2 := by
  induction str using stringInduction with
  | nil => exact fun before st => ⟨[], [], rfl, .nil⟩
  | crlf rest ih =>
    intro before st
    obtain ⟨line, lines, hline, hcounted⟩ := ih (some UChar.nl) ({ st with
        terminators := st.terminators + 2
        crlfCount := st.crlfCount + 1
        hasTrailingWs := st.hasTrailingWs || before.any isTrailingWs }.endLine (some UChar.cr)
          rest.head?)
    refine ⟨[], line :: lines, by rw [stringLines_crlf, hline], .crlf hline ?_⟩
    have hne : UChar.nl ≠ UChar.cr := by decide
    simpa [countUnits, trackTrailingWs_eq, hne] using hcounted
  | eol c rest hc ih =>
    intro before st
    obtain ⟨line, lines, hline, hcounted⟩ := ih (some c)
      ({ st with terminators := st.terminators + 1 }.endLine before rest.head?)
    refine ⟨[], line :: lines, by rw [stringLines_eol hc, hline], .eol hc hline ?_⟩
    have hterm : c = UChar.cr ∨ c = UChar.nl := (hc.imp_right And.left).symm
    have hpair : ¬ (c = UChar.cr ∧ rest.head? = some UChar.nl) := by
      have hne : UChar.nl ≠ UChar.cr := by decide
      rcases hc with rfl | ⟨_, hrest⟩
      · exact fun h => hne h.1
      · exact fun h => hrest h.2
    simpa [countUnits, hterm, hpair] using hcounted
  | unit c rest hcr hnl ih =>
    intro before st
    obtain ⟨line, lines, hline, hcounted⟩ := ih (some c) (st.countUnit c)
    refine ⟨c :: line, lines, by rw [stringLines_unit hcr hnl, hline]; rfl, .unit hcr hnl ?_⟩
    simpa [countUnits, hcr, hnl] using hcounted

/-- The counters for a whole string, by its lines. -/
theorem ofString_spec {str line : UStr} {lines : List UStr} (h : stringLines str = line :: lines) :
    (ofString str).numLines = lines.length + 1
      ∧ (ofString str).firstLine = (if lines ≠ [] ∧ firstIsCrlf str = true then 0 else line.length)
      ∧ (ofString str).thisLine = (lines.getLast?.map List.length).getD line.length
      ∧ (ofString str).maxLine = greatest (line.length :: lines.map List.length)
      ∧ (ofString str).mostSemis = greatest ((line :: lines).map (longestRun UChar.semi 0))
      ∧ (ofString str).hasNlSemi = lines.any (fun line => line.head? = some UChar.semi)
      ∧ (ofString str).hasTrailingWs = (line :: lines).any (wsAtEnd none) := by
  obtain ⟨line', lines', hline, hcounted⟩ := counted str none {}
  obtain ⟨rfl, rfl⟩ := List.cons.inj (h.symm.trans hline)
  obtain ⟨n, _, hterms, hcount⟩ := hcounted.terminators
  have hthis := hcounted.thisLine
  have hmax := hcounted.maxLine (fun _ => rfl)
  have hsemis := hcounted.semis
  have hnlSemi := hcounted.hasNlSemi
  have hws := hcounted.hasTrailingWs
  have hfirst := hcounted.firstLine
  unfold ofString
  generalize countUnits none str {} = result at *
  obtain ⟨st, after⟩ := result
  simp only [Nat.zero_add, Bool.false_or] at hterms hcount hthis hmax hsemis hnlSemi hws hfirst
  have hnum : st.numLines = lines.length + 1 := by
    unfold numLines
    omega
  have hgreatest : greatest (0 :: line.length :: lines.map List.length)
      = greatest (line.length :: lines.map List.length) := by
    simp [greatest]
  have hsemiGreatest : greatest
      (0 :: longestRun UChar.semi 0 line :: lines.map (longestRun UChar.semi 0))
      = greatest ((line :: lines).map (longestRun UChar.semi 0)) := by
    simp [greatest]
  rw [hgreatest] at hmax
  rw [hsemiGreatest] at hsemis
  simp only [rememberSemis_eq, trackTrailingWs_eq, hws, hsemis]
  have hsame : ∀ most ws, numLines { st with mostSemis := most, hasTrailingWs := ws } = lines.length
      + 1 :=
    fun _ _ => hnum
  simp only [hsame]
  cases lines with
  | nil =>
    simp only [List.length_nil, Nat.zero_add, if_true, hthis, hnlSemi]
    simp [greatest, numLines, hterms, hcount]
  | cons next lines =>
    have hne : ¬ (next :: lines).length + 1 = 1 := by simp
    simp only [if_neg hne]
    have hfirst' : st.firstLine = if firstIsCrlf str = true then 0 else line.length := by
      rw [hfirst]
      cases firstIsCrlf str <;> simp
    split
    · rename_i hlt
      rw [max_eq_right (Nat.le_of_lt hlt)] at hmax
      refine ⟨hnum, by simp [hfirst'], hthis, hmax, rfl, hnlSemi, by simp⟩
    · rename_i hlt
      rw [max_eq_left (Nat.not_lt.mp hlt)] at hmax
      refine ⟨hnum, by simp [hfirst'], hthis, hmax, rfl, hnlSemi, by simp⟩

end LineStats

section Exact

theorem prefix_of_stringLines {str line : UStr} {lines : List UStr}
    (h : stringLines str = line :: lines) :
    line <+: str := by
  induction str using stringInduction generalizing line lines with
  | nil =>
    obtain ⟨rfl, _⟩ := List.cons.inj h
    exact List.nil_prefix
  | crlf rest _ =>
    rw [stringLines_crlf] at h
    obtain ⟨rfl, _⟩ := List.cons.inj h
    exact List.nil_prefix
  | eol c rest hc _ =>
    rw [stringLines_eol hc] at h
    obtain ⟨rfl, _⟩ := List.cons.inj h
    exact List.nil_prefix
  | unit c rest hcr hnl ih =>
    rw [stringLines_unit hcr hnl] at h
    cases hrest : stringLines rest with
    | nil => simp [hrest] at h
    | cons line' lines' =>
      rw [hrest, List.modifyHead_cons] at h
      obtain ⟨rfl, _⟩ := List.cons.inj h
      exact List.cons_prefix_cons.mpr ⟨rfl, ih hrest⟩

/-- The statistics are those of the string's lines. -/
structure StringAnalysis.Exact (str : UStr) (a : StringAnalysis) : Prop where
  numLines : a.numLines = (stringLines str).length
  lengthFirst : (stringLines str).head?.map List.length = some a.lengthFirst
  lengthLast : (stringLines str).getLast?.map List.length = some a.lengthLast
  lengthMax_mem : ∃ line ∈ stringLines str, line.length = a.lengthMax
  lengthMax_le : ∀ line ∈ stringLines str, line.length ≤ a.lengthMax
  containsTextDelim : a.containsTextDelim = true ↔ ∃ line ∈ (stringLines str).tail,
    line.head? = some UChar.semi
  hasTrailingWs : a.hasTrailingWs = true ↔ ∃ line ∈ stringLines str, ∃ c, line.getLast? = some c
    ∧ isTrailingWs c = true
  maxSemiRun : ∀ n, n ≤ a.maxSemiRun ↔ ∃ line ∈ stringLines str,
    List.replicate n UChar.semi <:+: line
  /-- Where a text block is recommended, a first line that ends in a backslash but for blanks is
  told of. -/
  hasReservedStart : a.delim = textDelim → ∀ before blanks,
    (stringLines str).head? = some (before ++ UChar.bsl :: blanks) →
      (∀ c ∈ blanks, c = UChar.tab ∨ c = UChar.sp) →
    (before ++ UChar.bsl :: blanks).head? ≠ some UChar.semi → a.hasReservedStart = true

theorem endsInBackslash_reverse {before blanks : UStr}
    (h : ∀ c ∈ blanks, c = UChar.tab ∨ c = UChar.sp) :
    endsInBackslash (before ++ UChar.bsl :: blanks).reverse = true := by
  have hblanks : ∀ {s : UStr} (rest : UStr), (∀ c ∈ s, c = UChar.tab ∨ c = UChar.sp) →
      endsInBackslash (s ++ rest) = endsInBackslash rest := by
    intro s rest hs
    induction s with
    | nil => rfl
    | cons c s ih =>
      have hc : (decide (c = UChar.tab) || decide (c = UChar.sp)) = true := by
        simpa using hs c (List.mem_cons_self ..)
      rw [List.cons_append, endsInBackslash, if_pos hc,
        ih fun d hd => hs d (List.mem_cons_of_mem _ hd)]
  have hrev : (before ++ UChar.bsl :: blanks).reverse
      = blanks.reverse ++ UChar.bsl :: before.reverse := by simp
  rw [hrev, hblanks _ fun c hc => h c (List.mem_reverse.mp hc), endsInBackslash]
  have hne : UChar.bsl ≠ UChar.tab ∧ UChar.bsl ≠ UChar.sp := by decide
  simp [hne.1, hne.2]

/-- A string with a terminator has more than one line. -/
theorem lines_of_firstIsCrlf {str line : UStr} {lines : List UStr}
    (h : stringLines str = line :: lines) (hcrlf : firstIsCrlf str = true) : lines ≠ [] := by
  induction str using stringInduction generalizing line lines with
  | nil => simp [firstIsCrlf] at hcrlf
  | crlf rest _ =>
    rw [stringLines_crlf] at h
    obtain ⟨_, rfl⟩ := List.cons.inj h
    simp [stringLines]
  | eol c rest hc _ =>
    rw [stringLines_eol hc] at h
    obtain ⟨_, rfl⟩ := List.cons.inj h
    simp [stringLines]
  | unit c rest hcr hnl ih =>
    rw [stringLines_unit hcr hnl] at h
    cases hrest : stringLines rest with
    | nil => simp [hrest] at h
    | cons line' lines' =>
      rw [hrest, List.modifyHead_cons] at h
      obtain ⟨_, rfl⟩ := List.cons.inj h
      exact ih hrest (by simpa [firstIsCrlf, hcr, hnl] using hcrlf)

theorem tripleDelimiter?_ne_textDelim {str delim : UStr} (h : tripleDelimiter? str = some delim) :
    delim ≠ textDelim := by
  unfold tripleDelimiter? at h
  split at h
  · rw [← Option.some.inj h]
    decide
  · split at h
    · rw [← Option.some.inj h]
      decide
    · simp at h

/-- A text block is recommended only where nothing else is. -/
theorem quoteDelimiter?_ne_textDelim {str delim : UStr} {allowUnquoted allowTripleQuoted : Bool}
    {lengthLimit : Int} {st : LineStats}
    (h : quoteDelimiter? str allowUnquoted allowTripleQuoted lengthLimit st = some delim) :
    delim ≠ textDelim := by
  unfold quoteDelimiter? at h
  split at h
  · split at h
    · split at h
      · rw [← Option.some.inj h]
        decide
      · split at h
        · rw [← Option.some.inj h]
          decide
        · split at h
          · rw [← Option.some.inj h]
            decide
          · split at h
            · exact tripleDelimiter?_ne_textDelim h
            · simp at h
    · split at h
      · exact tripleDelimiter?_ne_textDelim h
      · simp at h
  · simp at h

theorem wsAtEnd_none_iff {line : UStr} :
    LineStats.wsAtEnd none line = true ↔ ∃ c, line.getLast? = some c ∧ isTrailingWs c = true := by
  cases h : line.getLast? <;> simp [LineStats.wsAtEnd, h]

/-- The statistics are exact but where the first line has a unit and is ended by a CR LF pair. -/
theorem analyzeString_exact_iff (str : UStr) (allowUnquoted allowTripleQuoted : Bool)
    (lengthLimit : Int) :
    (analyzeString str allowUnquoted allowTripleQuoted lengthLimit).Exact str
      ↔ (firstIsCrlf str = true → (stringLines str).head? = some []) := by
  obtain ⟨line, lines, hline⟩ :=
    List.exists_cons_of_ne_nil (List.splitOn_ne_nil UChar.nl (normalizeTerminators str))
  change stringLines str = line :: lines at hline
  obtain ⟨hnum, hfirst, hlast, hmax, hsemis, hnlSemi, hws⟩ := LineStats.ofString_spec hline
  constructor
  · intro hexact hcrlf
    have hlength := hexact.lengthFirst
    have hne := lines_of_firstIsCrlf hline hcrlf
    simp only [analyzeString, hline, List.head?_cons, Option.map_some, Option.some.injEq, hfirst,
      hcrlf] at hlength ⊢
    exact List.eq_nil_of_length_eq_zero (by simpa [hne] using hlength)
  · intro hcond
    have hfirst' : (LineStats.ofString str).firstLine = line.length := by
      rw [hfirst]
      split
      · rename_i hboth
        have hnil := hcond hboth.2
        rw [hline] at hnil
        simp_all
      · rfl
    constructor
    · simp [analyzeString, hline, hnum]
    · simp [analyzeString, hline, hfirst']
    · cases lines with
      | nil => simp [analyzeString, hline, hlast]
      | cons next lines => simp [analyzeString, hline, hlast, List.getLast?_cons]
    · have hmem := @greatest_mem (line.length :: lines.map List.length) (by simp)
      rw [← List.map_cons, List.mem_map] at hmem
      simpa [analyzeString, hline, hmax] using hmem
    · intro l hl
      rw [hline] at hl
      simp only [analyzeString, hmax]
      refine le_greatest ?_
      rw [← List.map_cons]
      exact List.mem_map_of_mem hl
    · simp [analyzeString, hline, hnlSemi]
    · simp only [analyzeString, hline, hws, List.any_eq_true, wsAtEnd_none_iff]
    · intro n
      simp only [analyzeString, hline, hsemis]
      rw [le_greatest_iff (by simp)]
      simp only [List.mem_map, exists_exists_and_eq_and, le_longestRun, List.replicate_zero,
        List.nil_append]
    · intro hdelim before blanks hhead hblanks hsemi
      rw [hline, List.head?_cons] at hhead
      obtain rfl := Option.some.inj hhead
      have hnone : quoteDelimiter? str allowUnquoted allowTripleQuoted lengthLimit
          (LineStats.ofString str) = none := by
        cases hquote : quoteDelimiter? str allowUnquoted allowTripleQuoted lengthLimit
          (LineStats.ofString str) with
        | none => rfl
        | some delim =>
          simp only [analyzeString, hquote, Option.getD_some] at hdelim
          exact absurd hdelim (quoteDelimiter?_ne_textDelim hquote)
      obtain ⟨rest, rfl⟩ := prefix_of_stringLines hline
      have hstart : ((before ++ UChar.bsl :: blanks) ++ rest).getD 0 0 ≠ UChar.semi := by
        cases before <;> simp_all
      simp only [analyzeString, hnone, hfirst', List.take_left, endsInBackslash_reverse hblanks]
      simpa using hstart

/-- A first line that ends in a backslash and a CR LF pair is neither measured nor told of. -/
theorem analyzeString_crlf :
    let str := units "a\\\r\n'''\"\"\" '"
    let a := analyzeString str true true 2048
    stringLines str = [units "a\\", units "'''\"\"\" '"] ∧ a.delim = textDelim ∧ a.lengthFirst = 0
      ∧ a.hasReservedStart = false ∧ ¬ a.Exact str := by
  intro str a
  refine ⟨by decide +kernel, by decide +kernel, by decide +kernel, by decide +kernel, ?_⟩
  intro hexact
  exact absurd hexact.lengthFirst (by decide +kernel)

end Exact

section Measured

variable {str delim : UStr} {allowUnquoted allowTripleQuoted : Bool} {lengthLimit : Int}
  {st : LineStats} {a : StringAnalysis}

theorem length_tripleDelimiter? (h : tripleDelimiter? str = some delim) :
    delim.length = 3 ∧ ∀ u ∈ delim, u = UChar.sq ∨ u = UChar.dq := by
  unfold tripleDelimiter? at h
  split at h
  · rw [← Option.some.inj h]
    decide
  · split at h
    · rw [← Option.some.inj h]
      decide
    · simp at h

/-- What the recommended delimiter is around fits within the limit together with it. -/
theorem quoteDelimiter?_fits
    (h : quoteDelimiter? str allowUnquoted allowTripleQuoted lengthLimit st = some delim) :
    (∀ u ∈ delim, u = UChar.sq ∨ u = UChar.dq) ∧ delim.length ≠ 2 ∧ (st.maxLine : Int) ≤ lengthLimit
      ∧ (st.numLines = 1 → (st.maxLine : Int) + 2 * delim.length ≤ lengthLimit)
      ∧ (st.numLines ≠ 1 → delim.length = 3 ∧ (st.thisLine : Int) + 3 < lengthLimit
        ∧ (st.firstLine : Int) + 3 < lengthLimit) := by
  unfold quoteDelimiter? at h
  split at h
  · rename_i hmax
    split at h
    · rename_i hlines
      split at h
      · rw [← Option.some.inj h]
        exact ⟨by simp, by decide, hmax, fun _ => by simpa using hmax, fun hne => absurd hlines hne⟩
      · split at h
        · rename_i hsq
          rw [Bool.and_eq_true, decide_eq_true_eq] at hsq
          rw [← Option.some.inj h]
          exact ⟨by decide, by decide, hmax, fun _ => by simp [aposDelim]; omega,
            fun hne => absurd hlines hne⟩
        · split at h
          · rename_i hdq
            rw [Bool.and_eq_true, decide_eq_true_eq] at hdq
            rw [← Option.some.inj h]
            exact ⟨by decide, by decide, hmax, fun _ => by simp [quotDelim]; omega,
              fun hne => absurd hlines hne⟩
          · split at h
            · rename_i htriple
              rw [Bool.and_eq_true, decide_eq_true_eq] at htriple
              obtain ⟨hlength, hdelim⟩ := length_tripleDelimiter? h
              exact ⟨hdelim, by omega, hmax, fun _ => by omega, fun hne => absurd hlines hne⟩
            · simp at h
    · rename_i hlines
      split at h
      · rename_i htriple
        simp only [Bool.and_eq_true, decide_eq_true_eq] at htriple
        obtain ⟨hlength, hdelim⟩ := length_tripleDelimiter? h
        exact ⟨hdelim, by omega, hmax, fun heq => absurd heq hlines,
          fun _ => ⟨hlength, by omega, by omega⟩⟩
      · simp at h
  · simp at h

theorem delim_of_delimLength (ha : a
    = analyzeString str allowUnquoted allowTripleQuoted lengthLimit) (hdelim : a.delimLength ≠ 2) :
    quoteDelimiter? str allowUnquoted allowTripleQuoted lengthLimit (LineStats.ofString str)
      = some a.delim := by
  subst ha
  cases hquote : quoteDelimiter? str allowUnquoted allowTripleQuoted lengthLimit
    (LineStats.ofString str) with
  | none =>
    exact absurd (by simp [analyzeString, StringAnalysis.delimLength, hquote, textDelim]) hdelim
  | some delim => simp [analyzeString, hquote]

/-- The number of the string's lines and their lengths. -/
structure StringAnalysis.Measured (str : UStr) (a : StringAnalysis) : Prop where
  numLines : a.numLines = (stringLines str).length
  lengthFirst : (stringLines str).head?.map List.length = some a.lengthFirst
  lengthLast : (stringLines str).getLast?.map List.length = some a.lengthLast
  lengthMax_mem : ∃ line ∈ stringLines str, line.length = a.lengthMax
  lengthMax_le : ∀ line ∈ stringLines str, line.length ≤ a.lengthMax

theorem analyzeString_measured (hcrlf : firstIsCrlf str = false)
    (allowUnquoted allowTripleQuoted : Bool) (lengthLimit : Int) :
    (analyzeString str allowUnquoted allowTripleQuoted lengthLimit).Measured str := by
  obtain ⟨line, lines, hline⟩ :=
    List.exists_cons_of_ne_nil (List.splitOn_ne_nil UChar.nl (normalizeTerminators str))
  change stringLines str = line :: lines at hline
  obtain ⟨hnum, hfirst, hlast, hmax, _⟩ := LineStats.ofString_spec hline
  constructor
  · simp [analyzeString, hline, hnum]
  · simp [analyzeString, hline, hfirst, hcrlf]
  · cases lines with
    | nil => simp [analyzeString, hline, hlast]
    | cons next lines => simp [analyzeString, hline, hlast, List.getLast?_cons]
  · have hmem := @greatest_mem (line.length :: lines.map List.length) (by simp)
    rw [← List.map_cons, List.mem_map] at hmem
    simpa [analyzeString, hline, hmax] using hmem
  · intro l hl
    rw [hline] at hl
    simp only [analyzeString, hmax]
    refine le_greatest ?_
    rw [← List.map_cons]
    exact List.mem_map_of_mem hl

end Measured

end CifApi
