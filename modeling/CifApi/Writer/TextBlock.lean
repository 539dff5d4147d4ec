import CifApi.Codes
import CifApi.Writer.Analysis

/-! Text blocks as `write_text` writes them, with folded lines and line prefixes. -/
namespace CifApi

/-- `IS_SURROGATE_PAIR`. -/
def isSurrogatePair (u1 u2 : UChar) : Bool := isTrail u2 && isLead u1

/-- `FOLDING_WINDOW`. -/
abbrev foldingWindow : Nat := 6

/-- The target length of folded lines in `write_text`. -/
abbrev targetLength : Nat := lineLength - 8

section FoldLine

variable (line : UStr)

/-- Whether there is a blank at a place in a line. -/
def blankAt (len : Nat) : Bool := line.getD len 0 = UChar.sp || line.getD len 0 = UChar.tab

/-- `low_candidate`: the last blank up to a place, or −1. -/
def lowCandidate : Nat → Int
  | 0 => if blankAt line 0 then 0 else -1
  | len + 1 => if blankAt line (len + 1) then len + 1 else lowCandidate len

/-- Whether a line can be cut at a place: not in a surrogate pair, nor before a semicolon that no
prefix precedes. -/
def canFoldAt (forPrefix : Bool) (len : Nat) : Bool :=
  (line.getD len 0 ≠ UChar.semi || forPrefix)
    && !isSurrogatePair (line.getD (len - 1) 0) (line.getD len 0)

/-- The places around the target, from the nearest on. -/
def windowPlaces (target window : Nat) : List Nat :=
  (List.range (2 * window + 1)).map fun counter =>
    if counter % 2 = 1 then target + (counter + 1) / 2 else target - counter / 2

/-- The places below the window downward, and those above it upward. -/
def otherPlaces (target window : Nat) : List Nat :=
  (List.range' 1 (target - window - 1)).reverse ++
    List.range' (target + window + 1) (line.length - (target + window + 1))

/-- `fold_line`: how much of a line goes into the next segment, or 0. -/
def foldLine (doFold : Bool) (target window : Nat) (forPrefix : Bool) : Nat :=
  if !doFold then line.length
  else if line.length ≤ target + window then line.length
  else match (List.range' (target + 1) window).find? (blankAt line) with
    | some high =>
      let low := lowCandidate line target
      if low < target - window then high
      else if (high + low) / 2 < target then high
      else low.toNat
    | none =>
      ((windowPlaces target window ++ otherPlaces line target window).find?
      (canFoldAt line forPrefix)).getD 0

end FoldLine

section WriteText

variable (fold forPrefix : Bool)

/-- Whether a line ends in a backslash, but for blanks, that would be taken for a fold separator. -/
def protects (line : UStr) : Bool :=
  line.foldl (fun protect c =>
    if c = UChar.tab || c = UChar.sp then protect else if c = UChar.bsl then fold else false) false

/-- `prefix_text`. -/
def prefixText : UStr := if forPrefix then units "> " else []

/-- The segments of a logical line, each on a line of its own. -/
def writeSegments (protect : Bool) : Nat → UStr → Except Int UStr
  | 0, _ => .ok []
  | n + 1, tok =>
    if tok = [] then .ok []
    else
      let len := foldLine tok fold targetLength foldingWindow forPrefix
      if len ≤ 0 then .error Code.internalError
      else do
        let rest ← writeSegments protect n (tok.drop len)
        return UChar.nl :: prefixText forPrefix ++ tok.take len
          ++ (if tok.drop len ≠ [] || protect then [UChar.bsl] else []) ++ rest

/-- A logical line; one that is protected has an empty line after it. -/
def writeLogicalLine (line : UStr) : Except Int UStr := do
  let out ← writeSegments fold forPrefix (protects fold line) line.length line
  return out ++ if protects fold line then [UChar.nl] else []

/-- A logical line that a terminator follows; an empty one is nothing but a line feed. -/
def writeTerminatedLine (line : UStr) : Except Int UStr :=
  if line = [] then .ok [UChar.nl] else writeLogicalLine fold forPrefix line

/-- The logical lines; nothing is written for the last one where it is empty. -/
def writeLogicalLines : List UStr → Except Int UStr
  | [] => .ok []
  | [line] => writeLogicalLine fold forPrefix line
  | line :: next :: lines => do
    let out ← writeTerminatedLine fold forPrefix line
    let rest ← writeLogicalLines (next :: lines)
    return out ++ rest

/-- What `write_text` writes between the delimiters. -/
def writeContent (text : UStr) : Except Int UStr :=
  if !fold && !forPrefix then .ok text
  else do
    let body ← writeLogicalLines fold forPrefix (text.splitOn UChar.nl)
    return (if forPrefix then units "> \\" else []) ++ (if fold then units "\\" else []) ++ body

/-- `write_text`. -/
def writeText (text : UStr) : Except Int UStr := do
  let content ← writeContent fold forPrefix text
  return textDelim ++ content ++ textDelim

end WriteText

/-- Whether `write_char` has a text block folded. -/
def StringAnalysis.folds (a : StringAnalysis) : Bool :=
  lineLength ≤ a.lengthFirst || lineLength < a.lengthMax || a.hasReservedStart
    || lineLength - 1 ≤ a.maxSemiRun

end CifApi
