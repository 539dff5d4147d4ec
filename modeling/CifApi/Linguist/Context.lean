import CifApi.Exec.Discipline
import CifApi.Linguist.TextField

/-! The state of the linguist program, the whitespace it keeps, and the functions that print. -/
namespace CifApi.Linguist

open Exec

inductive Format where
  | cif11 | cif20 | star20
  deriving DecidableEq

/-- The format headers. -/
def headers : Format → UStr
  | .cif11 => units "#\\#CIF_1.1\n"
  | .cif20 => units "#\\#CIF_2.0\n"
  | .star20 => []

/-- Whether a unit is one of `standard_eol_chars`. -/
def isEol (c : UChar) : Bool := c = UChar.nl || c = UChar.cr

/-- `struct ws_node`, with the number of the call that delivered it; its links are the lists it is
in. -/
structure WsNode where
  id : Nat
  ws : UStr
  deriving DecidableEq

/-- What a unit of the output belongs to. -/
inductive Origin where
  | whitespace | heading | data
  deriving DecidableEq

structure OutUnit where
  unit : UChar
  origin : Origin
  deriving DecidableEq

def OutUnit.isEol (u : OutUnit) : Bool := Linguist.isEol u.unit

/-- What a print operation prints, where its column accounting depends on it. -/
inductive Site where
  /-- A value or key on one line. -/
  | oneLine
  /-- A line feed without column accounting. -/
  | unaccounted
  | name (name : UStr)
  | textField (doFold doPrefix : Bool) (text : UStr)
  | other

/-- An entry of the record of a run. -/
inductive Event where
  /-- A print operation: the counter before it, and the output and the counter after it. -/
  | wrote (site : Site) (before : Nat) (out : List OutUnit) (column : Nat)
  | delivered (node : WsNode)
  | printed (node : WsNode)
  | touched (nodes : List WsNode)
  | freed (nodes : List WsNode)
  /-- A list or table that cannot be printed, with the whitespace kept then. -/
  | refused (queue : List (List WsNode))

/-- `struct context`, with the output and a record of the run, newest first. -/
structure Context where
  extraWs : UStr
  extraEol : UStr
  haltOnError : Bool
  outputFormat : Format
  errorCount : Nat
  atStart : Bool
  inContainer : Int
  inLoop : Bool
  inWsRun : Bool
  /-- An `int` that counts the units of a line. -/
  column : Nat
  synthesizePacket : Bool
  /-- The runs, each with its pieces. -/
  wsQueue : List (List WsNode)
  nextId : Nat
  out : List OutUnit
  record : List Event

/-- How a callback may end otherwise than with an answer to go on. -/
inductive Halt where
  | code (result : Int)
  /-- An assertion has failed, and the program is gone. -/
  | assertion
  deriving DecidableEq

abbrev Print := Exec Halt Context

def fail {α : Type} (result : Int) : Print α := stop (.code result)

namespace Context

/-- The context after `process_args`. -/
def initial (outputFormat : Format) (extraWs extraEol : UStr) (haltOnError : Bool) : Context where
  extraWs := extraWs
  extraEol := extraEol
  haltOnError := haltOnError
  outputFormat := outputFormat
  errorCount := 0
  atStart := true
  inContainer := 0
  inLoop := false
  inWsRun := false
  column := 0
  synthesizePacket := false
  wsQueue := []
  nextId := 0
  out := []
  record := []

def note (e : Event) (c : Context) : Context := { c with record := e :: c.record }

/-- Prints some text, after which the counter is `column`. -/
def write (site : Site) (origin : Origin) (text : UStr) (column : Nat) (c : Context) : Context :=
  let out := c.out ++ text.map (⟨·, origin⟩)
  { c with out := out, column := column }.note (.wrote site c.column out column)

def setQueue (queue : List (List WsNode)) (c : Context) : Context := { c with wsQueue := queue }

end Context

/-- A call of `u_fprintf` and the column accounting that goes with it. -/
def put (site : Site) (origin : Origin) (text : UStr) (column : Nat) : Print Unit :=
  modify (·.write site origin text column)

section Whitespace

/-- The offset after the last line terminator of a piece; a CR LF pair ends where its LF does. -/
def uncounted : UStr → Option Nat
  | [] => none
  | c :: ws =>
    match uncounted ws with
    | some n => some (n + 1)
    | none => if isEol c then some 1 else none

/-- The column after a piece is printed. -/
def wsColumn (ws : UStr) (column : Nat) : Nat :=
  match uncounted ws with
  | some n => ws.length - n
  | none => column + ws.length

/-- A round of the loop of `print_ws_run`: a piece is printed and freed. -/
def printPiece (node : WsNode) : Print Unit :=
  modify fun c =>
    ((c.note (.printed node)).write .other .whitespace node.ws (wsColumn node.ws c.column)).note
      (.freed [node])

def printPieces : List WsNode → Print Nat
  | [] => pure 0
  | node :: nodes => do
    printPiece node
    let n ← printPieces nodes
    pure (node.ws.length + n)

/-- `print_ws_run`: the number of units printed. -/
def printWsRun : Print Nat := do
  let c ← read
  match c.wsQueue with
  | [] => pure 0
  | run :: runs => do
    modify (·.setQueue runs)
    printPieces run

/-- So many calls of `print_ws_run`. -/
def printWsRuns : Nat → Print Nat
  | 0 => pure 0
  | k + 1 => do
    let length ← printWsRun
    let n ← printWsRuns k
    pure (length + n)

/-- `print_all_ws_runs`; each call of `print_ws_run` takes a run off the queue. -/
def printAllWsRuns : Print Nat := do
  let c ← read
  printWsRuns c.wsQueue.length

/-- `flush_ws` on some runs, to which other pointers may be left. -/
def flushWs (runs : List (List WsNode)) : Print Unit :=
  modify fun c => (c.note (.touched runs.flatten)).note (.freed runs.flatten)

/-- The comparison of a piece with what is left of the header's start: what follows the match in the
piece, or what of the header is still to be matched. -/
def matchStart : UStr → UStr → Option (UStr ⊕ UStr)
  | [], ws => some (.inl ws)
  | header, [] => some (.inr header)
  | h :: header, c :: ws => if c = h then matchStart header ws else none

/-- The piece in which the match of the header's start ends, what follows the match in it, and the
pieces after it. -/
def findStart : UStr → List WsNode → Option (WsNode × UStr × List WsNode)
  | _, [] => none
  | header, node :: nodes =>
    match matchStart header node.ws with
    | none => none
    | some (.inl rest) => some (node, rest, nodes)
    | some (.inr header) => findStart header nodes

/-- What follows the first line terminator. -/
def afterEol : UStr → Option UStr
  | [] => none
  | c :: ws =>
    if c = UChar.cr && ws.head? = some UChar.nl then some ws.tail
    else if isEol c then some ws
    else afterEol ws

/-- The pieces after the first line terminator, for which the search begins with `rest` in the first
piece. -/
def skipLine (node : WsNode) (rest : UStr) : List WsNode → Option (List WsNode)
  | [] => (afterEol rest).map fun ws => [{ node with ws := ws }]
  | next :: nodes =>
    match afterEol rest with
    | some ws => some ({ node with ws := ws } :: next :: nodes)
    | none => skipLine next next.ws nodes

/-- `cif_header_start`. -/
def headerStart : UStr := units "#\\#CIF_"

/-- What `consume_version_comment` leaves of the first run, if it begins with a version comment. -/
def dropVersionComment (run : List WsNode) : Option (List WsNode) :=
  (findStart headerStart run).map fun (node, rest, nodes) => (skipLine node rest nodes).getD []

/-- The first run after a version comment at its beginning is dropped; a run of which nothing is
left is taken off the queue. -/
def Context.dropStart (run : List WsNode) (runs : List (List WsNode)) (c : Context) : Context :=
  match dropVersionComment run with
  | none => c
  | some rest =>
    (c.note (.freed (run.take (run.length - rest.length)))).setQueue (if rest = [] then runs else
      rest :: runs)

def Context.consumeStart (c : Context) : Context :=
  match c.wsQueue with
  | [] => c
  | run :: runs => (c.note (.touched run)).dropStart run runs

/-- `consume_version_comment`. -/
def consumeVersionComment : Print Unit := modify Context.consumeStart

/-- The conversion of `translate_whitespace` to one character; `u_strcspn` stops at zero units,
too. -/
def translateTo (standard : UChar) (extra : UStr) (text : List UChar) : List UChar :=
  if extra = [] then text else text.map fun c => if c = 0 || extra.contains c then standard else c

def translateWhitespace (extraEol extraWs : UStr) (text : List UChar) : List UChar :=
  translateTo UChar.sp extraWs (translateTo UChar.nl extraEol text)

/-- A piece at the end of the queue, in the last run or in one of its own. -/
def enqueue (inWsRun : Bool) (node : WsNode) (queue : List (List WsNode)) : List (List WsNode) :=
  match queue.getLast? with
  | none => [[node]]
  | some run => if inWsRun then queue.dropLast ++ [run ++ [node]] else queue ++ [[node]]

/-- The piece that the next call of `preserve_whitespace` keeps. -/
def Context.piece (ws : List UChar) (c : Context) : WsNode :=
  ⟨c.nextId, cstr (translateWhitespace c.extraEol c.extraWs ws)⟩

/-- A piece is kept; to find the end of the queue is to use what is in it. -/
def Context.deliver (ws : List UChar) (c : Context) : Context :=
  { (c.note (.touched c.wsQueue.flatten)).note (.delivered (c.piece ws)) with
    wsQueue := enqueue c.inWsRun (c.piece ws) c.wsQueue
    nextId := c.nextId + 1
    inWsRun := ws ≠ [] }

/-- `preserve_whitespace`. -/
def preserveWhitespace (ws : List UChar) : Print Unit := modify (·.deliver ws)

end Whitespace

/-- `ensure_space`. -/
def ensureSpace (minimumSpace dataLength : Nat) : Print Unit := do
  let c ← read
  when (0 < c.column) do
    if maxLineLength < minimumSpace + dataLength + c.column then put .other .data [UChar.nl] 0
    else when (minimumSpace ≠ 0) (put .other .data [UChar.sp] (c.column + 1))

/-- `SPACE_FORBIDDEN`, `SPACE_ALLOWED` and `SPACE_REQUIRED`. -/
abbrev spaceForbidden : Int := -1

abbrev spaceAllowed : Int := 0

abbrev spaceRequired : Int := 1

/-- `print_u_literal`. -/
def printULiteral (site : Site) (precedingSpace : Int) (str : UStr) (line1Length : Nat) :
    Print Unit := do
  let c ← read
  if c.column ≠ 0 then
    let nspace := precedingSpace.toNat
    if maxLineLength < line1Length + c.column + nspace then
      if precedingSpace < 0 then fail Code.overlengthLine
      else put site .data (UChar.nl :: str) str.length
    else put site .data (List.replicate nspace UChar.sp ++ str) (c.column + nspace + str.length)
  else put site .data str str.length

end CifApi.Linguist
