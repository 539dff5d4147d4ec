import CifApi.Exec.Basic
import CifApi.Value
import CifApi.Writer.TextBlock

/-! What `cif_write` writes of items and their values, with its account of the columns. -/
namespace CifApi.Output

open Exec

/-- `CIF_DISALLOWED_VALUE`. -/
abbrev disallowedValue : Int := 62

/-- `write_context_t`, with what has been written. -/
structure Context where
  writeItemNames : Bool
  separateValues : Bool
  lastColumn : Nat
  version : Int
  out : UStr
  deriving DecidableEq

/-- `CONTEXT_INITIALIZE`, and the version that `cif_write` sets. -/
def Context.initial (version : Int) : Context where
  writeItemNames := false
  separateValues := true
  lastColumn := 0
  version := version
  out := []

abbrev Write := Exec Int Context

def Context.put (text : UStr) (column : Nat) (c : Context) : Context :=
  { c with out := c.out ++ text, lastColumn := column }

def Context.setSeparateValues (separate : Bool) (c : Context) : Context :=
  { c with separateValues := separate }

def Context.setWriteItemNames (write : Bool) (c : Context) : Context :=
  { c with writeItemNames := write }

/-- `u_fprintf` or `u_fputc`, and the column that is noted after it. -/
def put (text : UStr) (column : Nat) : Write Unit := modify (·.put text column)

/-- What `%*.*S` makes of a string, where `length` is both the width and the precision. -/
def padded (length : Nat) (text : UStr) : UStr :=
  List.replicate (length - text.length) UChar.sp ++ text.take length

/-- `cif_validate_cif11_characters`. -/
def validateCif11Characters (text : UStr) : Bool :=
  text.all fun c => c = UChar.tab || c = UChar.cr || c = UChar.nl || (0x20 ≤ c && c ≤ 0x7e)

def writeNewline : Write Unit := put [UChar.nl] 0

/-- `write_uliteral`: the number of units written, or minus a code; `none` stands for a negative
length. -/
def writeUliteral (text : UStr) (length : Option Nat) (wrap : Bool) : Write Int := do
  let length := length.getD (countChar32 text)
  if length = 0 then pure 0
  else do
    let c ← read
    if lineLength < length + c.lastColumn then
      if wrap then do
        writeNewline
        put (padded length text) length
        pure length
      else pure (-Code.overlengthLine)
    else do
      put (padded length text) (c.lastColumn + length)
      pure length

/-- `write_literal`. -/
def writeLiteral (text : UStr) (wrap : Bool) : Write Int :=
  writeUliteral text (some text.length) wrap

/-- `ENSURE_SPACED`. -/
def ensureSpaced : Write Bool := do
  let c ← read
  if c.lastColumn ≤ 0 then pure true
  else do
    let t ← writeLiteral [UChar.sp] false
    if t = -Code.overlengthLine then do
      writeNewline
      pure true
    else pure (t = 1)

section Strings

def writeUnquoted (text : UStr) (length : Nat) : Write Unit := do
  let nchars ← writeUliteral text (some length) true
  if nchars < 0 then stop (-nchars) else if nchars = length then pure () else stop Code.error

/-- A new line, unless this many units fit on the line; the column then. -/
def makeRoom (length : Nat) : Write Nat := do
  let c ← read
  if lineLength < c.lastColumn + length then do
    writeNewline
    pure 0
  else pure c.lastColumn

def writeQuoted (text : UStr) (length : Nat) (delimiter : UChar) : Write Unit := do
  let lastColumn ← makeRoom (length + 2)
  let written := [delimiter] ++ padded length text ++ [delimiter]
  put written (lastColumn + written.length)
  if written.length = length + 2 then pure () else stop Code.error

/-- `write_triple_quoted`; a string that has no unit at `line1Length`, nor its end there, is an
error. The assertion that the unit at `line1Length` is a line feed is taken to be compiled out: that
place is three units past the end of the first line, so that it fails for most texts of several
lines that fit on the current line. -/
def writeTripleQuoted (text : UStr) (line1Length lastLineLength : Nat) (delimiter : UChar) :
    Write Unit := do
  let c ← read
  let lastColumn ← makeRoom (line1Length + 3)
  let lastColumn := if c.lastColumn + line1Length + 3 ≤ lineLength
    ∧ text.getD line1Length 0 ≠ 0 then 0 else lastColumn
  let written := List.replicate 3 delimiter ++ text ++ List.replicate 3 delimiter
  put written (lastColumn + lastLineLength + 3)
  if line1Length + 6 ≤ written.length then pure () else stop Code.error

/-- `write_text`; what has been written of a text that cannot be written whole is not told. -/
def writeText (text : UStr) (fold forPrefix : Bool) : Write Unit :=
  match CifApi.writeText fold forPrefix text with
  | .ok out => put out 1
  | .error e => stop e

/-- `write_char`, for the text of a value and whether it is to be quoted. -/
def writeChar (text : UStr) (quoted allowText : Bool) : Write Unit := do
  let c ← read
  if c.version = 1 && !validateCif11Characters text then stop Code.disallowedChar
  else
    let a := analyzeString text (!quoted) (c.version ≠ 1) lineLength
    let delimiter := a.delim.getD 0 0
    match a.delimLength with
    | 0 => writeUnquoted text a.lengthMax
    | 1 => writeQuoted text a.length delimiter
    | 3 => writeTripleQuoted text (a.lengthFirst + 3) a.lengthLast delimiter
    | 2 =>
      if !allowText || (a.containsTextDelim && c.version = 1) then stop disallowedValue
      else writeText text a.folds a.containsTextDelim
    | _ => stop Code.internalError

def writeNumb (number : Numb) (quoted : Bool) : Write Unit := do
  if quoted then writeChar number.text true true
  else do
    let c ← read
    let nchars ← writeUliteral number.text none c.separateValues
    if nchars < 0 then stop (-nchars) else if 0 < nchars then pure () else stop Code.error

end Strings

section Items

/-- The name of an item, at the beginning of a line. -/
def writeItemName (name : UStr) : Write Unit := do
  let c ← read
  if c.version = 1 && !validateCif11Characters name then stop Code.disallowedChar
  else do
    when (0 < c.lastColumn) writeNewline
    let nchars ← writeUliteral name none false
    when (nchars < 2) (stop Code.error)

/-- What `write_item` does before the value; list elements and table values have no name. -/
def startItem (name : Option UStr) : Write Unit := do
  let c ← read
  when c.writeItemNames (writeItemName (name.getD []))
  let c ← read
  when c.separateValues do
    let spaced ← ensureSpaced
    when (spaced = false) (stop Code.error)

/-- The elements of a list, one after the other. -/
def writeElements : List (Write Unit) → Write Unit
  | [] => pure ()
  | element :: elements => do
    element
    writeElements elements

/-- `write_list`, by what writes each element. -/
def writeList (elements : List (Write Unit)) : Write Unit := do
  let nchars ← writeLiteral [UChar.obrk] true
  if nchars = 1 then do
    let saved ← read
    modify fun c => (c.setWriteItemNames false).setSeparateValues true
    writeElements elements
    let nchars ← writeLiteral [UChar.sp, UChar.cbrk] true
    if nchars = 2 then
      modify fun c =>
        (c.setSeparateValues saved.separateValues).setWriteItemNames saved.writeItemNames
    else stop Code.error
  else stop Code.error

variable (icu : Icu)

/-- `cif_value_get_item_by_key`, on the entries of a table with what writes their values. -/
def findEntry (entries : List (UStr × UStr × Write Unit)) (key : UStr) : Option (Write Unit) :=
  match icu.normalizeTableIndex key Code.nosuchItem with
  | .error _ => none
  | .ok norm => (entries.find? (·.1 = norm)).map (·.2.2)

/-- The entry of a table for a key. -/
def writeEntry (entries : List (UStr × UStr × Write Unit)) (key : UStr) : Write Unit :=
  match findEntry icu entries key with
  | none => stop Code.internalError
  | some writeValue => do
    let c ← read
    -- the string has more characters than a number, which may be negative
    when ((lineLength : Int) - (c.lastColumn + 4) < countChar32 key) writeNewline
    modify (·.setSeparateValues false)
    let spaced ← ensureSpaced
    if spaced then do
      writeChar key true false
      let nchars ← writeLiteral [UChar.colon] false
      if nchars = 1 then writeValue else stop Code.error
    else stop Code.error

/-- The entries for some keys, one after the other. -/
def writeEntries (entries : List (UStr × UStr × Write Unit)) : List UStr → Write Unit
  | [] => pure ()
  | key :: keys => do
    writeEntry icu entries key
    writeEntries entries keys

/-- `write_table`, by what writes the value of each entry. -/
def writeTable (entries : List (UStr × UStr × Write Unit)) : Write Unit := do
  let saved ← read
  let nchars ← writeLiteral [UChar.obrc] saved.separateValues
  if nchars = 1 then do
    modify (·.setWriteItemNames false)
    writeEntries icu entries (entries.map (·.2.1))
    let nchars ← writeLiteral [UChar.sp, UChar.cbrc] true
    if nchars = 2 then
      modify fun c =>
        (c.setSeparateValues saved.separateValues).setWriteItemNames saved.writeItemNames
    else stop Code.error
  else stop Code.error

/-- A list or table, which CIF 1 does not have. -/
def writeCompound (compound : Write Unit) : Write Unit := do
  let c ← read
  if c.version = 1 then stop disallowedValue else compound

/-- `.` or `?`. -/
def writePlaceholder (c : UChar) : Write Unit := do
  let nchars ← writeLiteral [c] true
  if nchars = 1 then pure () else stop Code.error

mutual

/-- The value of an item, in a manner determined by its kind. -/
def writeValue : Value → Write Unit
  | .char text quoted => writeChar text quoted true
  | .numb number quoted => writeNumb number quoted
  | .list elements => writeCompound (writeList (elementWriters elements))
  | .table entries => writeCompound (writeTable icu (entryWriters entries))
  | .na => writePlaceholder UChar.decimal
  | .unk => writePlaceholder UChar.query

def elementWriters : List Value → List (Write Unit)
  | [] => []
  | element :: elements => (do startItem none; writeValue element) :: elementWriters elements

def entryWriters : List (UStr × UStr × Value) → List (UStr × UStr × Write Unit)
  | [] => []
  | (norm, key, value) :: entries =>
    (norm, key, do startItem none; writeValue value) :: entryWriters entries

end

/-- `write_item`. -/
def writeItem (name : Option UStr) (value : Value) : Write Unit := do
  startItem name
  writeValue icu value

end Items

end CifApi.Output
