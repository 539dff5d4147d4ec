import CifApi.Linguist.Context
import CifApi.Value

/-! The callbacks of the linguist program, and its runs. -/
namespace CifApi.Linguist

open Exec

/-- `CIF_DISALLOWED_VALUE`. -/
abbrev disallowedValue : Int := 62

section Values

/-- The whitespace printed before a value: all of it, or the first run. -/
def printWsBefore (wsNeeded : Nat) : Print Nat :=
  if 1 < wsNeeded then printAllWsRuns else printWsRun

/-- `print_value_text`, which looks at a value's text and whether it is quoted. -/
def printValueText (text : UStr) (quoted : Bool) (wsNeeded : Nat) : Print Unit := do
  let nWs ← printWsBefore wsNeeded
  let c ← read
  let a := analyzeString text (!quoted) (c.outputFormat ≠ .cif11) maxLineLength
  let minimumWs := if nWs ≠ 0 || wsNeeded = 0 then 0 else 1
  if a.delimLength = 2 then
    match printTextField (folds a) (prefixes a) text with
    | none => stop .assertion
    | some field => put (.textField (folds a) (prefixes a) text) .data field 1
  else if a.delimLength = 3 && 1 < a.numLines then do
    ensureSpace minimumWs (a.lengthFirst + 3)
    put .other .data (a.delim ++ text ++ a.delim) (a.lengthLast + 3)
  else do
    let length := a.lengthFirst + 2 * a.delimLength
    ensureSpace minimumWs length
    put .oneLine .data (a.delim ++ text ++ a.delim) length

/-- What `print_list` and `print_table` do in CIF 1.1 format. -/
def refuse : Print Unit := do
  let c ← read
  modify (·.note (.refused c.wsQueue))
  flushWs c.wsQueue
  fail disallowedValue

/-- `print_list` and `print_table`, around what `contents` prints. -/
def printBracketed (opening closing : UChar) (contents : Print Unit) : Print Unit := do
  let c ← read
  if c.outputFormat = .cif11 then refuse
  else do
    printULiteral .other spaceAllowed [opening] 1
    contents
    let _ ← printWsRun
    printULiteral .other spaceAllowed [closing] 1

/-- The unknown-value and not-applicable placeholders in `print_value`. -/
def printPlaceholder (literal : UChar) (wsNeededMax : Nat) : Print Unit := do
  let nprinted ← printWsBefore wsNeededMax
  printULiteral .other (if wsNeededMax ≠ 0 && nprinted = 0 then 1 else 0) [literal] 1

/-- The whitespace before a list or table in `print_value`. -/
def separateBracketed (wsNeededMax : Nat) : Print Unit := do
  let nprinted ← printWsRun
  when (wsNeededMax ≠ 0 && nprinted = 0) (ensureSpace 1 1)

mutual

/-- `print_value`. -/
def printValue : Value → Nat → Print Unit
  | .char text quoted, wsNeededMax => printValueText text quoted wsNeededMax
  | .numb number quoted, wsNeededMax => printValueText number.text quoted wsNeededMax
  | .na, wsNeededMax => printPlaceholder UChar.decimal wsNeededMax
  | .unk, wsNeededMax => printPlaceholder UChar.query wsNeededMax
  | .list elements, wsNeededMax => do
    separateBracketed wsNeededMax
    printBracketed UChar.obrk UChar.cbrk (printElements 0 elements)
  | .table entries, wsNeededMax => do
    separateBracketed wsNeededMax
    printBracketed UChar.obrc UChar.cbrc (printEntries 0 entries)

/-- The elements of a list, the first of them with `wsNeeded`. -/
def printElements : Nat → List Value → Print Unit
  | _, [] => pure ()
  | wsNeeded, element :: elements => do
    printValue element wsNeeded
    printElements 1 elements

/-- The entries of a table, each with the key as it was given. -/
def printEntries : Nat → List (UStr × UStr × Value) → Print Unit
  | _, [] => pure ()
  | wsNeeded, (_, key, value) :: entries => do
    printValueText key true wsNeeded
    printULiteral .other spaceForbidden [UChar.colon] 1
    printValue value 0
    printEntries 1 entries

end

end Values

/-- A callback of the parser, with what library functions answer about its arguments: the code of a
container, the names of a loop, the result of `flush_container`'s calls on a container. -/
inductive Callback where
  | cifStart
  | blockStart (code : Except Int UStr)
  | blockEnd (flushed : Int)
  | frameStart (code : Except Int UStr)
  | frameEnd (flushed : Int)
  | loopStart (names : Except Int (List UStr))
  | loopEnd
  | packetStart
  | packetEnd
  | item (name : Option UStr) (value : Value)
  | whitespace (ws : List UChar)
  | error (code : Int)

section Handlers

/-- What a library function answers; an error code ends the callback. -/
def answer {α : Type} : Except Int α → Print α
  | .ok a => pure a
  | .error result => fail result

/-- `print_header`. -/
def printHeader : Print Unit := do
  let c ← read
  put .other .heading (headers c.outputFormat) 0

/-- `print_code`. -/
def printCode (code : Except Int UStr) (type : UStr) : Print Unit := do
  let code ← answer code
  let nprinted ← printAllWsRuns
  if nprinted ≠ 0 then do
    ensureSpace 0 (type.length + code.length)
    let c ← read
    put .other .heading (type ++ code) (c.column + (type ++ code).length)
  else if (type ++ code).length + 1 < 7 then do
    let c ← read
    put .other .heading (UChar.nl :: type ++ code) c.column
    fail Code.error
  else put .other .heading (UChar.nl :: type ++ code) (type ++ code).length

/-- The version comment is consumed before the first block, or else at the end. -/
def leaveStart : Print Unit := do
  let c ← read
  when c.atStart do
    consumeVersionComment
    modify fun c => { c with atStart := false }

/-- `open_block`. -/
def openBlock (code : Except Int UStr) : Print Unit := do
  leaveStart
  modify fun c => { c with inWsRun := false, inContainer := c.inContainer + 1 }
  printCode code (units "data_")

/-- `flush_container`. -/
def flushContainer (flushed : Int) : Print Unit := do
  modify fun c => { c with inContainer := c.inContainer - 1 }
  when (flushed ≠ Code.ok) (fail flushed)

/-- `open_frame`. -/
def openFrame (code : Except Int UStr) : Print Unit := do
  modify fun c => { c with inWsRun := false }
  let c ← read
  when (c.inContainer ≠ 0) do
    modify fun c => { c with inContainer := c.inContainer + 1 }
    printCode code (units "save_")

/-- `finish_frame`. -/
def finishFrame (flushed : Int) : Print Unit := do
  let printedWs ← printAllWsRuns
  modify fun c => { c with inWsRun := false }
  let c ← read
  when (c.inContainer ≠ 0)
    (if 0 < printedWs then printULiteral .other spaceAllowed (units "save_") 5
      else put .other .data (units "\nsave_\n") 0)
  flushContainer flushed

/-- The names of a loop header in `handle_loop_start`. -/
def printNames : List UStr → Print Unit
  | [] => pure ()
  | name :: names => do
    let nprinted ← printWsRun
    when (nprinted = 0) (put .other .data [UChar.nl] 0)
    printULiteral (.name name) spaceAllowed name name.length
    printNames names

/-- The values of a dummy packet. -/
def printPlaceholders : List UStr → Print Unit
  | [] => pure ()
  | _ :: names => do
    printULiteral .other spaceRequired [UChar.query] 1
    printPlaceholders names

/-- A line feed that the column accounting misses. -/
def putUnaccounted : Print Unit := do
  let c ← read
  put .unaccounted .data [UChar.nl] c.column

/-- The first whitespace and the keyword in `handle_loop_start`. -/
def printLoopKeyword : Print Unit := do
  let nprinted ← printWsRun
  if 0 < nprinted then printULiteral .other spaceAllowed (units "loop_") 5
  else put .other .data (units "\nloop_") 5

/-- The dummy packet of a loop without packets. -/
def printDummyPacket (names : List UStr) : Print Unit := do
  modify fun c => { c with synthesizePacket := false }
  put .other .data [UChar.nl] 0
  printPlaceholders names
  putUnaccounted

/-- `handle_loop_start`. -/
def handleLoopStart (names : Except Int (List UStr)) : Print Unit := do
  modify fun c => { c with inWsRun := false }
  let c ← read
  if c.inContainer = 0 then do
    let _ ← printAllWsRuns
  else do
    modify fun c => { c with inLoop := true }
    printLoopKeyword
    let names ← answer names
    printNames names
    let c ← read
    when c.synthesizePacket (printDummyPacket names)

/-- What `handle_loop_end` and `handle_packet_start` do to end a line. -/
def injectNewline : Print Unit := do
  let c ← read
  when (c.column ≠ 0 && c.wsQueue = []) (preserveWhitespace [UChar.nl])

/-- `handle_loop_end`. -/
def handleLoopEnd : Print Unit := do
  let c ← read
  when (c.inContainer ≠ 0) do
    modify fun c => { c with inLoop := false }
    injectNewline

/-- `handle_packet_start`. -/
def handlePacketStart : Print Unit := do
  let c ← read
  when (c.inContainer ≠ 0) injectNewline

/-- Keeps of some runs only the first, or outside loops the first two, as one. -/
def keepFirstRuns (inLoop : Bool) (first : List WsNode) (runs : List (List WsNode)) : Print Unit :=
  if inLoop then do
    flushWs runs
    modify (·.setQueue [first])
  else
    match runs with
    | [] => pure ()
    | second :: runs => do
      flushWs runs
      modify (·.setQueue [first ++ second])

/-- What `print_item` does with the whitespace of an item that is not printed. -/
def suppressItem : Print Unit := do
  let c ← read
  match c.wsQueue with
  | [] => pure ()
  | first :: runs => do
    keepFirstRuns c.inLoop first runs
    modify fun c => { c with inWsRun := true }

/-- The data name in `print_item`. -/
def printDataname (name : UStr) : Print Unit := do
  let nprinted ← printWsRun
  if 0 < nprinted then printULiteral (.name name) spaceAllowed name name.length
  else if name.length + 1 < 3 then do
    let c ← read
    put (.name name) .data (UChar.nl :: name) c.column
    fail Code.error
  else put (.name name) .data (UChar.nl :: name) name.length

/-- `print_item`. -/
def printItem (name : Option UStr) (value : Value) : Print Unit := do
  let c ← read
  match name with
  | none => suppressItem
  | some name =>
    if c.inContainer = 0 then suppressItem
    else do
      modify fun c => { c with inWsRun := false }
      when (!c.inLoop) (printDataname name)
      printValue value 2

/-- `error_callback`. -/
def errorCallback (code : Int) : Print Unit := do
  modify fun c => { c with errorCount := c.errorCount + 1 }
  let c ← read
  if c.haltOnError then fail code
  else when (code = Code.emptyLoop) (modify fun c => { c with synthesizePacket := true })

/-- `handle_cif_end`. -/
def handleCifEnd : Print Unit := do
  leaveStart
  let nprinted ← printAllWsRuns
  when (nprinted ≤ 0) putUnaccounted

end Handlers

/-- The program's answer to a callback of the parser other than the one for the end of the CIF;
`discard_packet` answers with a navigation code and does nothing. -/
def handle : Callback → Print Unit
  | .cifStart => printHeader
  | .blockStart code => openBlock code
  | .blockEnd flushed => flushContainer flushed
  | .frameStart code => openFrame code
  | .frameEnd flushed => finishFrame flushed
  | .loopStart names => handleLoopStart names
  | .loopEnd => handleLoopEnd
  | .packetStart => handlePacketStart
  | .packetEnd => pure ()
  | .item name value => printItem name value
  | .whitespace ws => preserveWhitespace ws
  | .error code => errorCallback code

/-- A parse as the program sees it, which ends early with the first error code that a callback
answers. -/
def handleAll : List Callback → Print Unit
  | [] => pure ()
  | call :: calls => do
    handle call
    handleAll calls

/-- A run of the program: `handle_cif_end` is called at the end of a parse, or else by `main` when
the parse ends with a code. -/
def convert (calls : List Callback) : Print Unit := do
  match ← attempt (handleAll calls) with
  | .error .assertion => stop .assertion
  | _ => handleCifEnd

end CifApi.Linguist
