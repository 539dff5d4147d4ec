import Mathlib.Data.List.Infix
import CifApi.Text

/-! The analysis of strings that the choice of a delimiter rests on. -/
namespace CifApi

/-- The vertical tab, which counts as trailing white space. -/
abbrev UChar.vt : UChar := 0x0b

/-- `struct cif_string_analysis_s`. -/
structure StringAnalysis where
  delim : UStr
  length : Nat
  lengthFirst : Nat
  lengthLast : Nat
  lengthMax : Nat
  numLines : Nat
  maxSemiRun : Nat
  containsTextDelim : Bool
  hasReservedStart : Bool
  hasTrailingWs : Bool

/-- `delim_length`. -/
def StringAnalysis.delimLength (a : StringAnalysis) : Nat := a.delim.length

/-- The counters of `cif_analyze_string`. -/
structure LineStats where
  /-- `char_counts[UCHAR_NL] + char_counts[UCHAR_CR]`. -/
  terminators : Nat := 0
  crlfCount : Nat := 0
  firstLine : Nat := 0
  thisLine : Nat := 0
  maxLine : Nat := 0
  consecSemis : Nat := 0
  mostSemis : Nat := 0
  hasNlSemi : Bool := false
  hasTrailingWs : Bool := false

namespace LineStats

/-- `REMEMBER_SEMIS`. -/
def rememberSemis (st : LineStats) : LineStats :=
  if st.mostSemis < st.consecSemis then { st with mostSemis := st.consecSemis } else st

/-- `TRACK_TRAILING_WS`, by the unit before. -/
def trackTrailingWs (before : Option UChar) (st : LineStats) : LineStats :=
  { st with hasTrailingWs := st.hasTrailingWs
      || (before = some UChar.sp || before = some UChar.tab || before = some UChar.vt) }

/-- What the units of a line are counted as. -/
def countUnit (c : UChar) (st : LineStats) : LineStats :=
  if c = UChar.semi then { st with consecSemis := st.consecSemis + 1, thisLine := st.thisLine + 1 }
  else
    let st := st.rememberSemis
    { st with consecSemis := 0, thisLine := st.thisLine + 1 }

/-- The end of a line, with the units before and after its terminator. -/
def endLine (before after : Option UChar) (st : LineStats) : LineStats :=
  let st := { st with hasNlSemi := st.hasNlSemi || after = some UChar.semi }.trackTrailingWs before
  let st := if st.terminators = 1 then { st with firstLine := st.thisLine, maxLine := st.thisLine }
    else if st.maxLine < st.thisLine then { st with maxLine := st.thisLine }
    else st
  { st.rememberSemis with consecSemis := 0, thisLine := 0 }

/-- The loop over a string; the last unit is answered with the counters. -/
def countUnits : Option UChar → UStr → LineStats → LineStats × Option UChar
  | before, [], st => (st, before)
  | before, c :: rest, st =>
    if c = UChar.cr || c = UChar.nl then
      let st := { st with terminators := st.terminators + 1 }
      if c = UChar.cr && rest.head? = some UChar.nl then
        countUnits (some c) rest ({ st with crlfCount := st.crlfCount + 1 }.trackTrailingWs before)
      else countUnits (some c) rest (st.endLine before rest.head?)
    else countUnits (some c) rest (st.countUnit c)

/-- `num_lines`. -/
def numLines (st : LineStats) : Nat := 1 + st.terminators - st.crlfCount

/-- The counters with those for the last line. -/
def ofString (str : UStr) : LineStats :=
  let (st, before) := countUnits none str {}
  let st := st.rememberSemis.trackTrailingWs before
  if st.numLines = 1 then { st with firstLine := st.thisLine, maxLine := st.thisLine }
  else if st.maxLine < st.thisLine then { st with maxLine := st.thisLine }
  else st

end LineStats

def aposDelim : UStr := [UChar.sq]
def quotDelim : UStr := [UChar.dq]
def apos3Delim : UStr := [UChar.sq, UChar.sq, UChar.sq]
def quot3Delim : UStr := [UChar.dq, UChar.dq, UChar.dq]
def textDelim : UStr := [UChar.nl, UChar.semi]

/-- Whether a triple delimiter suits a string. -/
def tripleDelimiter? (str : UStr) : Option UStr :=
  if str.getLast? ≠ some UChar.sq && !decide (apos3Delim <:+: str) then some apos3Delim
  else if str.getLast? ≠ some UChar.dq && !decide (quot3Delim <:+: str) then some quot3Delim
  else none

/-- Whether a string on one line can go without delimiters. -/
def canBeUnquoted (str : UStr) : Bool :=
  let first := str.getD 0 0
  0 < str.length
    && str.count UChar.sp + str.count UChar.tab + str.count UChar.obrk + str.count UChar.cbrk
      + str.count UChar.obrc + str.count UChar.cbrc = 0
    && first ≠ UChar.sq && first ≠ UChar.dq && first ≠ UChar.hash && first ≠ UChar.dollar
    && first ≠ UChar.under && first ≠ UChar.semi
    && (1 < str.length || (first ≠ UChar.query && first ≠ UChar.decimal))
    && !isReservedString str

/-- The delimiter recommended, if one other than a text block's is. -/
def quoteDelimiter? (str : UStr) (allowUnquoted allowTripleQuoted : Bool) (lengthLimit : Int)
    (st : LineStats) :
    Option UStr :=
  if st.maxLine ≤ lengthLimit then
    if st.numLines = 1 then
      if allowUnquoted && canBeUnquoted str then some []
      else if st.maxLine ≤ lengthLimit - 2 && str.count UChar.sq = 0 then some aposDelim
      else if st.maxLine ≤ lengthLimit - 2 && str.count UChar.dq = 0 then some quotDelim
      else if allowTripleQuoted && st.maxLine ≤ lengthLimit - 6 then tripleDelimiter? str
      else none
    else if allowTripleQuoted && st.thisLine < lengthLimit - 3
      && st.firstLine < lengthLimit - 3 then
      tripleDelimiter? str
    else none
  else none

/-- Whether the units of a first line emulate a prefix or a fold separator, from the last unit
on. -/
def endsInBackslash : UStr → Bool
  | [] => false
  | c :: before =>
    if c = UChar.tab || c = UChar.sp then endsInBackslash before else c = UChar.bsl

/-- `cif_analyze_string`. -/
def analyzeString (str : UStr) (allowUnquoted allowTripleQuoted : Bool) (lengthLimit : Int) :
    StringAnalysis :=
  let st := LineStats.ofString str
  let quote := quoteDelimiter? str allowUnquoted allowTripleQuoted lengthLimit st
  { delim := quote.getD textDelim
    length := str.length
    lengthFirst := st.firstLine
    lengthLast := st.thisLine
    lengthMax := st.maxLine
    numLines := st.numLines
    maxSemiRun := st.mostSemis
    containsTextDelim := st.hasNlSemi
    hasReservedStart := quote.isNone && str.getD 0 0 ≠ UChar.semi
      && endsInBackslash (str.take st.firstLine).reverse
    hasTrailingWs := st.hasTrailingWs }

end CifApi
