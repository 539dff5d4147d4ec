import CifApi.Exec.Basic
import CifApi.Store
import CifApi.Scanner.Buffer

/-! The scanner's state, the callbacks of a parse, and the record of the calls a parse makes. -/
namespace CifApi

/-- `enum token_type`. -/
inductive TokenType where
  | blockHead | frameHead | frameTerm | loopkw | name | otable | ctable | olist | clist | key | tkey
  | value | qvalue | tvalue | end_ | error
  deriving DecidableEq, Repr

inductive CharClass where
  | no | general | ws | eol | hash | undersc | quote | semi | obrak | cbrak | ocurl | ccurl | dollar
  | obrak1 | cbrak1 | a | b | d | e | g | l | o | p | s | t | v
  deriving DecidableEq, Repr

inductive MetaClass where
  | no | general | ws | opening | closing
  deriving DecidableEq, Repr

def CharClass.metaClass : CharClass → MetaClass
  | .no => .no
  | .ws | .eol => .ws
  | .obrak | .ocurl => .opening
  | .cbrak | .ccurl => .closing
  | _ => .general

/-- `CHAR_TABLE_MAX`. -/
abbrev charTableMax : Nat := 160

/-- The entries `INIT_V2_SCANNER` assigns one by one. -/
def fixedClass (c : UChar) : Option CharClass :=
  match c with
  | 0x09 | 0x20 => some .ws
  | 0x0a | 0x0d => some .eol
  | 0x22 | 0x27 => some .quote
  | 0x23 => some .hash
  | 0x24 => some .dollar
  | 0x3a => some .general
  | 0x3b => some .semi
  | 0x5b => some .obrak
  | 0x5d => some .cbrak
  | 0x5f => some .undersc
  | 0x7b => some .ocurl
  | 0x7d => some .ccurl
  | 0x41 | 0x61 => some .a
  | 0x42 | 0x62 => some .b
  | 0x44 | 0x64 => some .d
  | 0x45 | 0x65 => some .e
  | 0x47 | 0x67 => some .g
  | 0x4c | 0x6c => some .l
  | 0x4f | 0x6f => some .o
  | 0x50 | 0x70 => some .p
  | 0x53 | 0x73 => some .s
  | 0x54 | 0x74 => some .t
  | 0x56 | 0x76 => some .v
  | 0x7f => some .no
  | _ => none

/-- The character class table of `INIT_V2_SCANNER`. -/
def charClassV2 (extraWs extraEol : List UChar) (c : UChar) : CharClass :=
  match fixedClass c with
  | some k => k
  | none =>
    if extraEol.contains c then .eol
    else if extraWs.contains c then .ws
    else if 32 ≤ c ∧ c < 127 then .general
    else .no

/-- The changes `SET_V1` makes to a character class table. -/
def charClassV1 (table : UChar → CharClass) (c : UChar) : CharClass :=
  match c with
  | 0x5b => .obrak1
  | 0x5d => .cbrak1
  | 0x7b | 0x7d => .general
  | _ => table c

/-- What an error callback is told. -/
structure ErrorReport where
  code : Int
  line : Nat
  column : Nat
  text : List UChar
  deriving DecidableEq

inductive SyntaxElement where
  | whitespace | keyword | dataname
  deriving DecidableEq

/-- What a syntax callback is told. -/
structure SyntaxReport where
  element : SyntaxElement
  line : Nat
  column : Nat
  text : List UChar
  deriving DecidableEq

/-- A call of one of the callbacks of a CIF handler, with its arguments. -/
inductive HandlerCall where
  | cifStart
  | cifEnd
  | blockStart (container : Option Container)
  | blockEnd (container : Option Container)
  | frameStart (container : Option Container)
  | frameEnd (container : Option Container)
  | loopStart (container : Option Container) (category : Option UStr) (names : List UStr)
  | loopEnd (loop : Option Loop)
  | packetStart
  | packetEnd (packet : Packet)
  | item (name : Option UStr) (value : Value)

/-- What callbacks can see and change: the user data and the CIF. -/
structure World (σ : Type) where
  user : σ
  cif : Cif

/-- What a handler callback answers, and its arguments as it leaves them. -/
structure HandlerReply (σ : Type) where
  code : Int
  call : HandlerCall
  world : World σ

/-- A call of a store, packet or table operation, with its arguments. -/
inductive StoreCall where
  | createBlock (code : UStr) (lenient : Bool)
  | getBlock (code : UStr)
  | createFrame (container : Container) (code : UStr) (lenient : Bool)
  | getFrame (container : Container) (code : UStr)
  | getItemLoop (container : Container) (name : UStr)
  | createLoop (container : Container) (category : Option UStr) (names : List UStr)
  | addPacket (loop : Loop) (packet : Packet)
  | setValue (container : Container) (name : UStr) (value : Value)
  | prune (container : Container)
  | createPacket (names : List UStr)
  | setItemByKey (key : UStr)

/-- Whether a call binds values to a statement. -/
def StoreCall.binds : StoreCall → Bool
  | .addPacket .. | .setValue .. => true
  | _ => false

/-- The nested parts of a CIF that a parse enters and leaves. -/
inductive Entity where
  | cif | block | frame | loop | packet
  deriving DecidableEq

/-- An entry of the record of a parse; calls carry their answer and the world they leave, those of
store operations also the CIF they find. -/
inductive Event (σ : Type) where
  | error (report : ErrorReport) (reply : Int) (after : World σ)
  | handler (call : HandlerCall) (reply : Int) (after : World σ)
  | element (report : SyntaxReport) (after : World σ)
  | store (call : StoreCall) (before : Cif) (result : Int) (after : World σ)
  | enter (entity : Entity)
  | leave (entity : Entity)

/-- The caller's callbacks; an absent one is one that does nothing and answers `CIF_OK`. -/
structure Callbacks (σ : Type) where
  error : ErrorReport → World σ → Int × World σ
  handler : HandlerCall → World σ → HandlerReply σ
  element : SyntaxReport → World σ → World σ

namespace Callbacks

variable {σ : Type}

/-- No handler and no syntax callbacks, and every error ignored. -/
def ignoring : Callbacks σ where
  error := fun _ w => (Code.ok, w)
  handler := fun call w => ⟨Code.ok, call, w⟩
  element := fun _ w => w

/-- The error callback `cif_parse_error_die`, and no others. -/
def dying : Callbacks σ where
  error := fun r w => (r.code, w)
  handler := fun call w => ⟨Code.ok, call, w⟩
  element := fun _ w => w

end Callbacks

/-- The parse options, with the scanner's class table, the Unicode functions and the binding of
values. -/
structure Config (σ : Type) extends Callbacks σ where
  cifVersion : Int
  charClass : UChar → CharClass
  lineUnfolding : Int
  prefixRemoving : Int
  maxFrameDepth : Int
  notUtf8 : Bool
  /-- Whether a pointer left uninitialised in an array of data names happens not to be null. -/
  strayName : Nat → Bool
  icu : Icu
  props : ValueProps

/-- The options a caller gives to a parse. -/
structure Options (σ : Type) extends Callbacks σ where
  cifVersion : Int
  lineFoldingModifier : Int
  textPrefixingModifier : Int
  maxFrameDepth : Int
  extraWsChars : List UChar
  extraEolChars : List UChar
  notUtf8 : Bool
  strayName : Nat → Bool
  icu : Icu
  platform : Platform

/-- What `cif_parse_options_create` sets, for a version, callbacks, Unicode functions and a
platform. -/
def Options.create {σ : Type} (callbacks : Callbacks σ) (icu : Icu) (platform : Platform)
    (cifVersion : Int) :
    Options σ where
  toCallbacks := callbacks
  cifVersion := cifVersion
  lineFoldingModifier := 0
  textPrefixingModifier := 0
  maxFrameDepth := 1
  extraWsChars := []
  extraEolChars := []
  notUtf8 := false
  strayName := fun _ => false
  icu := icu
  platform := platform

namespace Config

variable {σ : Type}

/-- `INIT_V2_SCANNER`, after `cif_parse` has limited the modifiers. -/
def initV2 (o : Options σ) : Config σ where
  toCallbacks := o.toCallbacks
  cifVersion := o.cifVersion
  charClass := charClassV2 o.extraWsChars o.extraEolChars
  lineUnfolding := min o.lineFoldingModifier 1 + 1
  prefixRemoving := min o.textPrefixingModifier 1 + 1
  maxFrameDepth := min o.maxFrameDepth 1
  notUtf8 := o.notUtf8
  strayName := o.strayName
  icu := o.icu
  props := Value.setValueProps o.platform

def setV1 (cfg : Config σ) : Config σ :=
  { cfg with
    lineUnfolding := cfg.lineUnfolding - 1
    prefixRemoving := cfg.prefixRemoving - 1
    charClass := charClassV1 cfg.charClass }

/-- `CLASS_OF`. -/
def classOf (cfg : Config σ) (c : UChar) : CharClass :=
  if c < charTableMax then cfg.charClass c
  else if 2 ≤ cfg.cifVersion then .general else .no

/-- `METACLASS_OF`. -/
def metaClassOf (cfg : Config σ) (c : UChar) : MetaClass := (cfg.classOf c).metaClass

end Config

structure Scanner (σ : Type) extends Buffer where
  ttype : TokenType
  tvalueLength : Nat
  line : Nat
  column : Nat
  skipDepth : Nat
  world : World σ
  /-- What the parse has done so far, newest first. -/
  log : List (Event σ)

abbrev Parse (σ : Type) := Exec Int (Scanner σ)

namespace Scanner

variable {σ : Type}

/-- The units of the current token's value. -/
def tvalue (s : Scanner σ) : List UChar := s.slice s.tvalueStart (s.tvalueStart + s.tvalueLength)

/-- `size_t` subtraction. -/
def sizeSub (a b : Nat) : Nat := (a + 2 ^ 64 - b) % 2 ^ 64

/-- `unsigned` addition of an amount that may be negative. -/
def addColumn (column : Nat) (n : Int) : Nat := ((column + n) % 2 ^ 32).toNat

def incColumn (n : Int) (s : Scanner σ) : Scanner σ := { s with column := addColumn s.column n }

/-- `POSN_INCLINE`. -/
def incLine (n : Nat) (s : Scanner σ) : Scanner σ := { s with line := s.line + n, column := 0 }

def advance (s : Scanner σ) : Scanner σ := { s with nextChar := s.nextChar + 1 }

/-- Steps back over one unit, without column accounting. -/
def pushBack (s : Scanner σ) : Scanner σ := { s with nextChar := s.nextChar - 1 }

/-- `BACK_UP`. -/
def backUp (s : Scanner σ) : Scanner σ := s.pushBack.incColumn (-1)

/-- `CONSUME_TOKEN`. -/
def consumeToken (s : Scanner σ) : Scanner σ :=
  { s with textStart := s.nextChar, tvalueStart := s.nextChar, tvalueLength := 0 }

/-- `TRIM_TOKEN`. -/
def trimToken (n : Nat) (s : Scanner σ) : Scanner σ :=
  { s with nextChar := s.textStart + n, tvalueLength := s.textStart + n - s.tvalueStart }

/-- Sets the value of the current token to begin `start` units into its text and to lack its last
`size`. -/
def setTvalue (start size : Nat) (s : Scanner σ) : Scanner σ :=
  { s with
    tvalueStart := s.tvalueStart + start
    tvalueLength := s.nextChar - (s.tvalueStart + start) - size }

/-- The token's value is all the units scanned since its start. -/
def endToken (s : Scanner σ) : Scanner σ := s.setTvalue 0 0

def setTtype (ttype : TokenType) (s : Scanner σ) : Scanner σ := { s with ttype := ttype }

def setSkipDepth (n : Nat) (s : Scanner σ) : Scanner σ := { s with skipDepth := n }

/-- Deepens the skipping in progress, if any. -/
def deepenSkip (s : Scanner σ) : Scanner σ :=
  { s with skipDepth := if 0 < s.skipDepth then s.skipDepth + 1 else s.skipDepth }

/-- Leaves one level of the skipping in progress, if any. -/
def leaveSkip (s : Scanner σ) : Scanner σ :=
  { s with skipDepth := if 0 < s.skipDepth then s.skipDepth - 1 else s.skipDepth }

def push (e : Event σ) (s : Scanner σ) : Scanner σ := { s with log := e :: s.log }

def setWorld (w : World σ) (s : Scanner σ) : Scanner σ := { s with world := w }

/-- Replaces the unit before the next one. -/
def replacePrev (c : UChar) (s : Scanner σ) : Scanner σ :=
  { s with buffer := write s.buffer (s.nextChar - 1) [c] }

def replaceNext (c : UChar) (s : Scanner σ) : Scanner σ :=
  { s with buffer := write s.buffer s.nextChar [c] }

def prevUnit (s : Scanner σ) : UChar := s.buffer (s.nextChar - 1)

def nextUnit (s : Scanner σ) : UChar := s.buffer s.nextChar

/-- A bound on the rounds of a loop each of whose rounds uses up some text or a token. -/
def tokenBound (s : Scanner σ) : Nat := 4 * (s.bufferLimit + s.unread + 1)

end Scanner

section Calls

variable {σ : Type} (cfg : Config σ)

open Exec

/-- Calls the error callback and answers its result. -/
def errorCallback (report : ErrorReport) : Parse σ Int :=
  update fun s =>
    let (reply, w) := cfg.error report s.world
    (reply, (s.setWorld w).push (.error report reply w))

/-- Reports an error; a result other than `CIF_OK` ends the parse. -/
def report (code : Int) (line column : Nat) (text : List UChar) : Parse σ Unit := do
  let reply ← errorCallback cfg ⟨code, line, column, text⟩
  when (reply ≠ Code.ok) (stop reply)

/-- Calls a handler callback and answers its reply. -/
def handlerCallback (call : HandlerCall) : Parse σ (HandlerReply σ) :=
  update fun s =>
    let reply := cfg.handler call s.world
    (reply, (s.setWorld reply.world).push (.handler call reply.code reply.world))

def syntaxCallback (element : SyntaxElement) (line column : Nat) (text : List UChar) :
    Parse σ Unit :=
  modify fun s =>
    let report : SyntaxReport := ⟨element, line, column, text⟩
    let w := cfg.element report s.world
    (s.setWorld w).push (.element report w)

/-- The record of a store operation that has given a result and left a CIF. -/
def Scanner.pushStore {α : Type} (call : StoreCall) (r : Except Int α) (cif : Cif) (s : Scanner σ) :
    Scanner σ :=
  let w := { s.world with cif := cif }
  let result := match r with
    | .ok _ => Code.ok
    | .error e => e
  (s.setWorld w).push (.store call s.world.cif result w)

/-- Runs a store operation on the CIF and answers its result. -/
def storeCall {α : Type} (call : StoreCall) (f : Cif → Except Int α × Cif) :
    Parse σ (Except Int α) :=
  update fun s =>
    let (r, cif) := f s.world.cif
    (r, s.pushStore call r cif)

/-- Runs a store operation that binds values, and so need not come to an end. -/
def bindingCall {α : Type} (call : StoreCall) (f : Cif → Option (Except Int α × Cif)) :
    Parse σ (Except Int α) :=
  operate fun s => (f s.world.cif).map fun (r, cif) => (r, s.pushStore call r cif)

def mark (e : Event σ) : Parse σ Unit := modify (·.push e)

/-- Runs `m` as the parse of an entity, which is left only if `m` does not stop with a code. -/
def inEntity {α : Type} (entity : Entity) (m : Parse σ α) : Parse σ α := do
  mark (.enter entity)
  let a ← m
  mark (.leave entity)
  pure a

/-- Goes on with an answer, or ends the parse with a code. -/
def ofResult {α : Type} : Except Int α → Parse σ α
  | .ok a => pure a
  | .error e => stop e

end Calls

end CifApi
