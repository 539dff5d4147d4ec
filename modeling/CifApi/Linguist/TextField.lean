import CifApi.Writer.Statistics
import CifApi.Writer.TextBlock

/-! Text fields as the linguist program prints them. -/
namespace CifApi.Linguist

/-- `MAX_LINE_LENGTH`. -/
abbrev maxLineLength : Nat := 2048

/-- `FOLD_WINDOW`. -/
abbrev foldWindow : Nat := 8

/-- `MAX_FOLD_LENGTH`. -/
abbrev maxFoldLength : Nat := maxLineLength - 1

section FoldLength

/-- How good it is to fold a line at a place: not at all, between non-blanks, between blanks, or
before a word. -/
def foldCategory (line : UStr) (allowBeforeSemi : Bool) (len : Nat) : Nat :=
  if allowBeforeSemi || line.getD len 0 ≠ UChar.semi then
    (if blankAt line (len - 1) then 2 else 0) + if blankAt line len then 0 else 1
  else 0

/-- The bottom half of the window, with `best_diff` and `best_category`. -/
def searchBottom (category : Int → Nat) : List Int → Int × Nat → Int × Nat
  | [], best => best
  | diff :: diffs, best =>
    if best.2 ≤ category diff then searchBottom category diffs (diff, category diff)
    else searchBottom category diffs best

/-- The top half; the category is not noted where the search breaks off. -/
def searchTop (category : Int → Nat) : List Int → Int × Nat → Int × Nat
  | [], best => best
  | diff :: diffs, best =>
    if category diff = 3 then (diff, best.2)
    else if best.2 < category diff then searchTop category diffs (diff, category diff)
    else if category diff = best.2 && diff ≤ -best.1 then
      searchTop category diffs (diff, category diff)
    else searchTop category diffs best

/-- Both halves of the window around the target length. -/
def searchWindow (foldStart : UStr) (targetLength window : Nat) (allowBeforeSemi : Bool) :
    Int × Nat :=
  let category :=
    fun diff : Int => foldCategory foldStart allowBeforeSemi (targetLength + diff).toNat
  let bottom := (List.range window).map fun i : Nat => (i : Int) - window
  let top := (List.range (window + 1)).map fun i : Nat => (i : Int)
  searchTop category top (searchBottom category bottom (-(window + 1), 0))

/-- `compute_fold_length`. -/
def computeFoldLength (foldStart : UStr) (targetLength window : Nat) (allowBeforeSemi : Bool) :
    Nat :=
  if foldStart.length ≤ targetLength + window then foldStart.length
  else
    let best := searchWindow foldStart targetLength window allowBeforeSemi
    if best.2 ≠ 0 then (targetLength + best.1).toNat
    else ((List.range' 1 (targetLength - (window + 1))).reverse.find? fun len =>
      foldStart.getD len 0 ≠ UChar.semi).getD 0

end FoldLength

section PrintTextField

variable (doFold doPrefix : Bool)

/-- The target length of folded lines in `print_text_field`. -/
def foldTarget : Nat := maxFoldLength - foldWindow - if doPrefix then 2 else 0

/-- Whether the end of a line needs to be protected. -/
def protectsEnd (segment : UStr) : Bool :=
  segment.getLast? = some UChar.sp || segment.getLast? = some UChar.tab
    || segment.getLast? = some UChar.bsl

/-- The segments of a logical line, while its assertions hold; there is one even if it is empty. -/
def printSegments : Nat → UStr → Option UStr
  | 0, _ => some []
  | n + 1, foldStart =>
    let foldLength := computeFoldLength foldStart (foldTarget doPrefix) foldWindow doPrefix
    if 0 < foldLength ∧ foldLength ≤ foldStart.length then
      let segment := prefixText doPrefix ++ foldStart.take foldLength
      if foldLength = foldStart.length then
        some (segment ++ (if protectsEnd foldStart then [UChar.bsl, UChar.nl] else [])
          ++ [UChar.nl])
      else do
        let rest ← printSegments n (foldStart.drop foldLength)
        return segment ++ [UChar.bsl, UChar.nl] ++ rest
    else none

/-- A logical line, with a line feed after it. -/
def printLine (line : UStr) : Option UStr :=
  if doFold then printSegments doPrefix (line.length + 1) line
  else some (prefixText true ++ line ++ [UChar.nl])

/-- The logical lines, up to the end of the string. -/
def printLines : List UStr → Option UStr
  | [] => some []
  | [line] => if line = [] then some [] else printLine doFold doPrefix line
  | line :: next :: lines => do
    let out ← printLine doFold doPrefix line
    let rest ← printLines (next :: lines)
    return out ++ rest

/-- `print_text_field`; its assertions fail where there is no result. -/
def printTextField (str : UStr) : Option UStr :=
  if !(doPrefix || doFold) then some (textDelim ++ str ++ textDelim)
  else do
    let body ← printLines doFold doPrefix (stringLines str)
    return textDelim ++ (if doPrefix then units "> \\" else [])
      ++ (if doFold then units "\\" else []) ++ [UChar.nl] ++ body ++ [UChar.semi]

end PrintTextField

/-- Whether `print_value_text` has a text field folded. -/
def folds (a : StringAnalysis) : Bool :=
  maxLineLength < a.lengthMax || maxLineLength ≤ a.lengthFirst || a.hasReservedStart
    || a.hasTrailingWs
    || maxFoldLength - 1 ≤ a.maxSemiRun

/-- Whether `print_value_text` has a text field prefixed. -/
def prefixes (a : StringAnalysis) : Bool := a.containsTextDelim || maxFoldLength - 1 ≤ a.maxSemiRun

end CifApi.Linguist
