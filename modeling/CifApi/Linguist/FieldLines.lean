import CifApi.Data.Lines
import CifApi.Linguist.FoldLength
import CifApi.Linguist.Context

/-! The lines that the linguist program prints for a value. -/
namespace CifApi.Linguist

open Lines

section Strings

variable {str : UStr}

theorem isEol_iff {c : UChar} : isEol c = true ↔ c = UChar.nl ∨ c = UChar.cr := by
  simp [isEol]

/-- Without carriage returns the lines of a string end in line feeds. -/
theorem stringLines_eq_lines (hcr : UChar.cr ∉ str) : stringLines str = lines isEol str := by
  induction str with
  | nil => rfl
  | cons c str ih =>
    rw [List.mem_cons, not_or] at hcr
    rw [lines_cons, ← ih hcr.2]
    by_cases hc : c = UChar.nl
    · rw [if_pos (isEol_iff.mpr (.inl hc)), stringLines_eol (.inl hc)]
    · rw [if_neg (by simp [isEol_iff, hc, Ne.symm hcr.1]), stringLines_unit (Ne.symm hcr.1) hc]

end Strings

section Segments

variable {doFold doPrefix : Bool}

theorem isEol_prefixText {c : UChar} (h : c ∈ prefixText doPrefix) : isEol c = false := by
  cases doPrefix with
  | false => simp [prefixText] at h
  | true =>
    have hmem : c = 0x3e ∨ c = 0x20 := by simpa [prefixText, units] using h
    rcases hmem with rfl | rfl <;> rfl

/-- Lines written one after the other, each with a line feed after it. -/
def terminated (segments : List UStr) : UStr := segments.flatMap (· ++ [UChar.nl])

@[simp] theorem terminated_nil : terminated [] = [] := rfl

@[simp] theorem terminated_cons (segment : UStr) (segments : List UStr) :
    terminated (segment :: segments) = segment ++ UChar.nl :: terminated segments := by
  simp [terminated]

@[simp] theorem terminated_append (segments segments' : List UStr) :
    terminated (segments ++ segments') = terminated segments ++ terminated segments' := by
  simp [terminated]

/-- A folded line is written in segments of limited length. -/
theorem printSegments_eq_terminated {n : Nat} {line out : UStr}
    (hline : ∀ c ∈ line, isEol c = false) (h : printSegments doPrefix n line = some out) :
    ∃ segments, out = terminated segments
      ∧ ∀ segment ∈ segments, (∀ c ∈ segment, isEol c = false)
      ∧ segment.length ≤ maxLineLength := by
  induction n generalizing line out with
  | zero =>
    rw [printSegments, Option.some.injEq] at h
    exact ⟨[], h.symm, by simp⟩
  | succ n ih =>
    have hbound : computeFoldLength line (foldTarget doPrefix) foldWindow doPrefix
        + (prefixText doPrefix).length ≤ maxFoldLength := by
      have htarget : foldTarget doPrefix + foldWindow + (prefixText doPrefix).length
          = maxFoldLength := by
        cases doPrefix <;> rfl
      have hcases :=
        @computeFoldLength_cases line (foldTarget doPrefix) foldWindow doPrefix (by cases doPrefix
        <;> decide)
      omega
    rw [printSegments] at h
    generalize computeFoldLength line (foldTarget doPrefix) foldWindow doPrefix = len at h hbound
    have hsegment : ∀ c ∈ prefixText doPrefix ++ line.take len, isEol c = false := by
      intro c hc
      rcases List.mem_append.mp hc with hp | ht
      · exact isEol_prefixText hp
      · exact hline c (List.mem_of_mem_take ht)
    have hlength : (prefixText doPrefix ++ line.take len).length ≤ maxFoldLength := by
      rw [List.length_append, List.length_take]
      omega
    have hbsl : ∀ c ∈ prefixText doPrefix ++ line.take len ++ [UChar.bsl], isEol c = false := by
      intro c hc
      rcases List.mem_append.mp hc with hs | hb
      · exact hsegment c hs
      · rw [List.mem_singleton.mp hb]
        rfl
    have hlong : (prefixText doPrefix ++ line.take len ++ [UChar.bsl]).length ≤ maxLineLength := by
      rw [List.length_append]
      exact Nat.succ_le_succ hlength
    simp only at h
    split at h
    · split at h
      · obtain rfl := Option.some.inj h
        cases protectsEnd line with
        | false =>
          refine ⟨[prefixText doPrefix ++ line.take len], by simp, ?_⟩
          rintro segment hs
          rw [List.mem_singleton.mp hs]
          exact ⟨hsegment, Nat.le_trans hlength (by decide)⟩
        | true =>
          refine ⟨[prefixText doPrefix ++ line.take len ++ [UChar.bsl], []], by simp, ?_⟩
          intro segment hs
          simp only [List.mem_cons, List.not_mem_nil, or_false] at hs
          rcases hs with rfl | rfl
          · exact ⟨hbsl, hlong⟩
          · exact ⟨by simp, by simp⟩
      · obtain ⟨rest, hrest, h⟩ := Option.bind_eq_some_iff.mp h
        obtain rfl := Option.some.inj h
        obtain ⟨segments, rfl, hsegments⟩ :=
          ih (fun c hc => hline c (List.mem_of_mem_drop hc)) hrest
        refine ⟨(prefixText doPrefix ++ line.take len ++ [UChar.bsl]) :: segments, by simp, ?_⟩
        intro segment hs
        rcases List.mem_cons.mp hs with rfl | hs
        · exact ⟨hbsl, hlong⟩
        · exact hsegments segment hs
    · simp at h

theorem printLines_folded {lines : List UStr} {out : UStr}
    (hlines : ∀ line ∈ lines, ∀ c ∈ line, isEol c = false)
    (h : printLines true doPrefix lines = some out) : ∃ segments, out = terminated segments
      ∧ ∀ segment ∈ segments, (∀ c ∈ segment, isEol c = false)
      ∧ segment.length ≤ maxLineLength := by
  induction lines generalizing out with
  | nil =>
    rw [printLines, Option.some.injEq] at h
    exact ⟨[], h.symm, by simp⟩
  | cons line lines ih =>
    have hline := hlines line (by simp)
    cases lines with
    | nil =>
      rw [printLines] at h
      split at h
      · exact ⟨[], (Option.some.inj h).symm, by simp⟩
      · exact printSegments_eq_terminated hline h
    | cons next lines =>
      rw [printLines] at h
      obtain ⟨out', hout', h⟩ := Option.bind_eq_some_iff.mp h
      obtain ⟨rest, hrest, h⟩ := Option.bind_eq_some_iff.mp h
      obtain rfl := Option.some.inj h
      obtain ⟨segments, rfl, hsegments⟩ := printSegments_eq_terminated hline hout'
      obtain ⟨segments', rfl, hsegments'⟩ :=
        ih (fun l hl => hlines l (List.mem_cons_of_mem _ hl)) hrest
      refine ⟨segments ++ segments', (terminated_append ..).symm, ?_⟩
      intro segment hs
      rcases List.mem_append.mp hs with hs | hs
      · exact hsegments segment hs
      · exact hsegments' segment hs

/-- Without folding each line is printed after the prefix, but for an empty last one. -/
theorem printLines_prefixed (lines : List UStr) : ∃ printed : List UStr,
    printLines false doPrefix lines = some (terminated (printed.map (prefixText true ++ ·)))
      ∧ (∀ line ∈ printed, line ∈ lines) ∧ ∀ line ∈ lines, line = [] ∨ line ∈ printed := by
  induction lines with
  | nil => exact ⟨[], rfl, by simp, by simp⟩
  | cons line lines ih =>
    cases lines with
    | nil =>
      rw [printLines]
      split
      · rename_i hnil
        exact ⟨[], rfl, by simp, by simp [hnil]⟩
      · exact ⟨[line], by simp [printLine, terminated], by simp, by simp⟩
    | cons next lines =>
      obtain ⟨printed, hprinted, hsub, hall⟩ := ih
      refine ⟨line :: printed, ?_, ?_, ?_⟩
      · rw [printLines, hprinted]
        simp [printLine]
      · intro l hl
        rcases List.mem_cons.mp hl with rfl | hl
        · exact List.mem_cons_self ..
        · exact List.mem_cons_of_mem _ (hsub l hl)
      · intro l hl
        rcases List.mem_cons.mp hl with rfl | hl
        · exact .inr (List.mem_cons_self ..)
        · exact (hall l hl).imp_right (List.mem_cons_of_mem _)

end Segments

section Field

variable {str field : UStr} {doFold doPrefix : Bool}

/-- A text field begins on a new line, and ends with a semicolon on a line of its own. -/
def FieldLines (field first : UStr) (segments : List UStr) : Prop :=
  lines isEol field = [] :: (UChar.semi :: first) :: segments ++ [[UChar.semi]]

theorem fieldLines_terminated (first : UStr) {segments : List UStr}
    (hfirst : ∀ c ∈ first, isEol c = false)
    (hsegments : ∀ segment ∈ segments, ∀ c ∈ segment, isEol c = false) :
    FieldLines (textDelim ++ first ++ [UChar.nl] ++ terminated segments ++ [UChar.semi]) first
      segments := by
  have hfield : textDelim ++ first ++ [UChar.nl] ++ terminated segments ++ [UChar.semi]
      = ([] :: (UChar.semi :: first) :: segments).flatMap (· ++ [UChar.nl]) ++ [UChar.semi] := by
    simp [textDelim, terminated]
  rw [FieldLines, hfield, lines_terminated UChar.nl rfl, lines_of_unbroken]
  · simp [isEol]
  · intro segment hs
    rcases List.mem_cons.mp hs with rfl | hs
    · simp
    · rcases List.mem_cons.mp hs with rfl | hs
      · intro c hc
        rcases List.mem_cons.mp hc with rfl | hc
        · rfl
        · exact hfirst c hc
      · exact hsegments segment hs

theorem fieldLines_plain {line : UStr} {rest : List UStr} (h : lines isEol str = line :: rest) :
    FieldLines (textDelim ++ str ++ textDelim) line rest := by
  have hfield : textDelim ++ str ++ textDelim
      = [UChar.nl] ++ (UChar.semi :: str) ++ UChar.nl :: [UChar.semi] := by
    simp [textDelim]
  rw [FieldLines, hfield, lines_append_break _ rfl, List.singleton_append, lines_break _ rfl,
    ← List.singleton_append (l := str), lines_unbroken_append (by simp [isEol]), h]
  rfl

/-- The lines of a text field are no longer than the limit, unless it is prefixed without being
folded and the prefix makes a line of it too long. -/
theorem printTextField_lines (hcr : UChar.cr ∉ str)
    (h : printTextField doFold doPrefix str = some field)
    (hfits : doFold = false → (∀ line ∈ stringLines str, line.length ≤ maxLineLength)
      ∧ ∀ line, (stringLines str).head? = some line → line.length < maxLineLength) :
    ∃ first segments, FieldLines field first segments
      ∧ ((first.length < maxLineLength ∧ ∀ segment ∈ segments, segment.length ≤ maxLineLength)
        ↔ (doFold = false → doPrefix = true → ∀ line ∈ stringLines str,
          line.length + 2 ≤ maxLineLength)) := by
  have hlines := stringLines_eq_lines hcr
  have hunbroken : ∀ line ∈ stringLines str, ∀ c ∈ line, isEol c = false :=
    fun line hline => unbroken_of_mem (hlines ▸ hline)
  cases doFold with
  | true =>
    have hcond : (!(doPrefix || true)) = false := by simp
    rw [printTextField, hcond, if_neg Bool.false_ne_true] at h
    obtain ⟨body, hbody, h⟩ := Option.bind_eq_some_iff.mp h
    obtain ⟨segments, rfl, hsegments⟩ := printLines_folded hunbroken hbody
    obtain rfl := Option.some.inj h
    refine ⟨(if doPrefix = true then units "> \\" else []) ++ units "\\", segments, ?_, ?_⟩
    · rw [if_pos rfl, List.append_assoc textDelim]
      refine fieldLines_terminated _ ?_ fun segment hs => (hsegments segment hs).1
      cases doPrefix <;> decide
    · refine iff_of_true ⟨?_, fun segment hs => (hsegments segment hs).2⟩ fun hf =>
        absurd hf (by decide)
      cases doPrefix <;> decide
  | false =>
    cases doPrefix with
    | true =>
      obtain ⟨printed, hprinted, hsub, hall⟩ := @printLines_prefixed true (stringLines str)
      rw [printTextField, if_neg (by simp), hprinted] at h
      obtain rfl := Option.some.inj h
      refine ⟨units "> \\", printed.map (prefixText true ++ ·), ?_, ?_⟩
      · have hsegments : ∀ segment ∈ printed.map (prefixText true ++ ·),
            ∀ c ∈ segment, isEol c = false := by
          intro segment hs c hc
          obtain ⟨line, hline, rfl⟩ := List.mem_map.mp hs
          rcases List.mem_append.mp hc with hp | hl
          · exact isEol_prefixText hp
          · exact hunbroken line (hsub line hline) c hl
        simpa using fieldLines_terminated (units "> \\") (by decide) hsegments
      · have hmarked : ∀ line : UStr, (prefixText true ++ line).length = line.length + 2 := by
          intro line
          rw [List.length_append, Nat.add_comm]
          rfl
        constructor
        · intro hshort _ _ line hline
          rcases hall line hline with rfl | hmem
          · decide
          · exact hmarked line ▸ hshort.2 _ (List.mem_map_of_mem hmem)
        · intro hshort
          refine ⟨by decide, fun segment hs => ?_⟩
          obtain ⟨line, hline, rfl⟩ := List.mem_map.mp hs
          exact hmarked line ▸ hshort rfl rfl line (hsub line hline)
    | false =>
      rw [printTextField, if_pos (by rfl)] at h
      obtain rfl := Option.some.inj h
      obtain ⟨line, rest, hline⟩ := List.exists_cons_of_ne_nil (@lines_ne_nil _ isEol str)
      refine ⟨line, rest, fieldLines_plain hline, iff_of_true ?_ fun _ hp => absurd hp (by decide)⟩
      have hcons := hlines.trans hline
      obtain ⟨hmax, hfirst⟩ := hfits rfl
      refine ⟨hfirst line (by rw [hcons]; rfl), fun segment hs => hmax segment ?_⟩
      rw [hcons]
      exact List.mem_cons_of_mem _ hs

end Field

section Quoted

variable {str delim : UStr} {allowUnquoted allowTripleQuoted : Bool} {lengthLimit : Int}
  {st : LineStats}

variable {a : StringAnalysis}

theorem isEol_of_quote {u : UChar} (h : u = UChar.sq ∨ u = UChar.dq) : isEol u = false := by
  rcases h with rfl | rfl <;> rfl

/-- A value printed on one line takes as many units as `print_value_text` makes room for. -/
theorem quoted_oneLine (hcr : UChar.cr ∉ str)
    (ha : a = analyzeString str allowUnquoted allowTripleQuoted maxLineLength)
    (hdelim : a.delimLength ≠ 2) (hone : ¬ (a.delimLength = 3 ∧ 1 < a.numLines)) :
    (∀ u ∈ a.delim ++ str ++ a.delim, isEol u = false)
      ∧ (a.delim ++ str ++ a.delim).length = a.lengthFirst + 2 * a.delimLength
      ∧ a.lengthFirst + 2 * a.delimLength ≤ maxLineLength := by
  obtain ⟨hquotes, _, _, hsingle, hmulti⟩ := quoteDelimiter?_fits (delim_of_delimLength ha hdelim)
  have hunbroken : ∀ u ∈ a.delim, isEol u = false := fun u hu => isEol_of_quote (hquotes u hu)
  have hmeasured : a.Measured str := ha ▸ analyzeString_measured (firstIsCrlf_of_no_cr hcr) ..
  have hnum : (LineStats.ofString str).numLines = a.numLines := by rw [ha]; rfl
  have hmaxLine : (LineStats.ofString str).maxLine = a.lengthMax := by rw [ha]; rfl
  have hlines : a.numLines = 1 := by
    by_contra hne
    have hthree := (hmulti (hnum ▸ hne)).1
    have hpos : 0 < a.numLines := by
      rw [hmeasured.numLines, stringLines_eq_lines hcr]
      exact List.length_pos_of_ne_nil lines_ne_nil
    exact hone ⟨hthree, by omega⟩
  rw [hnum] at hsingle
  have hfit := hsingle hlines
  have hstr : stringLines str = [str] := by
    have hlength := hmeasured.numLines.symm.trans hlines
    obtain ⟨line, hline⟩ := List.length_eq_one_iff.mp hlength
    have heq := stringLines_eq_lines hcr
    rw [heq] at hline ⊢
    exact lines_of_unbroken (unbroken_of_lines hline)
  have hfirst : a.lengthFirst = str.length := by
    have h := hmeasured.lengthFirst
    rw [hstr] at h
    exact (Option.some.inj h).symm
  have hmax : str.length ≤ a.lengthMax :=
    hmeasured.lengthMax_le str (by rw [hstr]; exact List.mem_singleton_self _)
  have hdelimLength : a.delimLength = a.delim.length := rfl
  have hunbrokenStr : ∀ u ∈ str, isEol u = false :=
    unbroken_of_lines ((stringLines_eq_lines hcr).symm.trans hstr)
  refine ⟨?_, ?_, ?_⟩
  · intro u hu
    simp only [List.mem_append] at hu
    rcases hu with (hu | hu) | hu
    · exact hunbroken u hu
    · exact hunbrokenStr u hu
    · exact hunbroken u hu
  · rw [List.length_append, List.length_append, hfirst, hdelimLength]
    omega
  · rw [hmaxLine] at hfit
    rw [hdelimLength, hfirst]
    omega

/-- The lines of a value printed between triple delimiters on several lines. -/
theorem quoted_lines (hcr : UChar.cr ∉ str)
    (ha : a = analyzeString str allowUnquoted allowTripleQuoted maxLineLength)
    (hdelim : a.delimLength = 3) (hlines : 1 < a.numLines) :
    ∃ first rest, lines isEol (a.delim ++ str ++ a.delim) = first :: rest ∧ rest ≠ []
      ∧ first.length = a.lengthFirst + 3 ∧ a.lengthFirst + 3 ≤ maxLineLength
      ∧ (current isEol (a.delim ++ str ++ a.delim)).length = a.lengthLast + 3
      ∧ ∀ line ∈ rest, line.length ≤ maxLineLength := by
  obtain ⟨hquotes, _, hmax, _, hmulti⟩ := quoteDelimiter?_fits (delim_of_delimLength ha (by omega))
  have hunbroken : ∀ u ∈ a.delim, isEol u = false := fun u hu => isEol_of_quote (hquotes u hu)
  have hmeasured : a.Measured str := ha ▸ analyzeString_measured (firstIsCrlf_of_no_cr hcr) ..
  have hnum : (LineStats.ofString str).numLines = a.numLines := by rw [ha]; rfl
  have hmaxLine : (LineStats.ofString str).maxLine = a.lengthMax := by rw [ha]; rfl
  have hlastLine : (LineStats.ofString str).thisLine = a.lengthLast := by rw [ha]; rfl
  have hfirstLine : (LineStats.ofString str).firstLine = a.lengthFirst := by rw [ha]; rfl
  rw [hnum, hlastLine, hfirstLine] at hmulti
  rw [hmaxLine] at hmax
  obtain ⟨_, hlast, hfirst⟩ := hmulti (by omega)
  have hlength : a.delim.length = 3 := hdelim
  obtain ⟨init, head, tail, hstr, hmore, happend⟩ := @exists_lines_append _ isEol str a.delim
  rw [lines_of_unbroken hunbroken] at hmore
  cases hmore
  have hall : stringLines str = init ++ [current isEol str] := (stringLines_eq_lines hcr).trans hstr
  cases init with
  | nil =>
    have hone := hmeasured.numLines
    rw [hall] at hone
    exact absurd hone (by simp; omega)
  | cons first init =>
    have hfirstLength : a.lengthFirst = first.length := by
      have h := hmeasured.lengthFirst
      rw [hall] at h
      exact (Option.some.inj h).symm
    have hlastLength : a.lengthLast = (current isEol str).length := by
      have h := hmeasured.lengthLast
      rw [hall, List.getLast?_concat] at h
      exact (Option.some.inj h).symm
    have hwhole : lines isEol (a.delim ++ str ++ a.delim)
        = (a.delim ++ first) :: (init ++ [current isEol str ++ a.delim]) := by
      rw [List.append_assoc, lines_unbroken_append hunbroken, happend]
      rfl
    refine ⟨_, _, hwhole, by simp, ?_, by omega, ?_, ?_⟩
    · rw [List.length_append, hlength, hfirstLength, Nat.add_comm]
    · rw [current, hwhole, ← List.cons_append, getLastD_append_of_ne_nil (List.cons_ne_nil _ _),
        hlastLength]
      simp [hlength]
    · intro line hline
      rcases List.mem_append.mp hline with hmem | hmem
      · have hle := hmeasured.lengthMax_le line (by rw [hall]; simp [hmem])
        omega
      · rw [List.mem_singleton.mp hmem, List.length_append, hlength, ← hlastLength]
        omega

end Quoted

end CifApi.Linguist
