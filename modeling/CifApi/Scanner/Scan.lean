import CifApi.Scanner.State

/-! Reading characters and scanning the text of each kind of token. -/
namespace CifApi

open Exec

variable {σ τ ω : Type} (cfg : Config σ)

/-- `ustream_to_unicode_callback`: whether the error callback lets a byte sequence without a
character pass. A refusal ends the parse, but that the code `CIF_EOF` passes for the end of the
input. -/
def toUnicodeCallback (kind : Malformed) : Parse σ Bool := do
  let s ← read
  let reply ← errorCallback cfg ⟨kind.code, s.line, s.column, []⟩
  if reply = Code.ok then pure true
  else if reply = Code.eof then pure false
  else stop reply

/-- The conversion of `n` units past the `i` that are converted. A byte sequence without a character
is substituted with `repl` if it `passes`; otherwise what has been converted is lost. -/
def convertUnits (passes : Malformed → Parse σ Bool) (repl : UChar) : Nat → Nat → Parse σ Bool
  | 0, _ => pure true
  | n + 1, i => do
    let s ← read
    match s.malformed (s.unread - i) with
    | none => convertUnits passes repl n (i + 1)
    | some kind => do
      if ← passes kind then do
        modify fun s => { s with toBuffer := s.toBuffer.substitute i repl }
        convertUnits passes repl n (i + 1)
      else do
        modify fun s => { s with toBuffer := s.toBuffer.discard (i + 1) }
        pure false

/-- The conversion of the next `n` units, and whether it succeeds. -/
def toUnicode (n : Nat) : Parse σ Bool := convertUnits (toUnicodeCallback cfg)
    (replChar cfg.cifVersion) n 0

/-- `get_more_chars`: whether any characters were transferred. -/
def getMoreChars : Parse σ Bool := do
  modify fun s => { s with toBuffer := s.makeRoom }
  let s ← read
  if ← toUnicode cfg (s.nextRead (s.bufferSize - s.bufferLimit)) then
    update fun s =>
      let (result, b) := s.toBuffer.fill
      (result = Code.ok, { s with toBuffer := b })
  else pure false

/-- Whether `get_first_char` reports a unit; a byte-order mark it accepts. -/
def isDisallowedFirst (c : UChar) : Bool :=
  if 0x7e < c then c ≠ UChar.bom else cfg.charClass c = .no

/-- `get_first_char`: whether a character was provided. -/
def getFirstChar : Parse σ Bool := do
  let s ← read
  if ← toUnicode cfg (s.nextRead 1) then
    let first ← update fun s =>
      let (ch, b) := s.toBuffer.readFirst
      (ch, { s with toBuffer := b })
    match first with
    | none => pure false
    | some ch => do
      if isDisallowedFirst cfg ch then do
        report cfg Code.disallowedInitialChar 1 0 [ch]
        -- recovery accepts the character
        modify fun s => { s with toBuffer := s.toBuffer.acceptFirst }
        pure true
      else do
        let s ← read
        -- the second read is for the line feed after a carriage return
        if ← toUnicode cfg (if ch = UChar.cr then s.nextRead (s.bufferSize - 1) else 0) then do
          modify fun s => { s with toBuffer := s.toBuffer.convertFirst.acceptFirst }
          pure true
        else pure false
  else pure false

/-- `PEEK_CHAR`; `none` is the end of the input. -/
def peekChar : Parse σ (Option UChar) := do
  let s ← read
  if s.bufferLimit ≤ s.nextChar then
    if s.atEof then pure none
    else if ← getMoreChars cfg then return some (← read).nextUnit
    else pure none
  else pure (some s.nextUnit)

/-- `NEXT_CHAR`. -/
def nextChar : Parse σ (Option UChar) := do
  match ← peekChar cfg with
  | none => pure none
  | some c => do
    modify fun s => s.advance.incColumn 1
    pure (some c)

/-- `HANDLE_UNPAIRED_LEAD`. -/
def handleUnpairedLead (lead : Bool) : Parse σ Unit := do
  when lead do
    let s ← read
    report cfg Code.invalidChar s.line s.column [s.prevUnit]
    modify (·.replacePrev (replChar cfg.cifVersion))

/-- Whether `SCAN_UCHAR` reports a unit other than a trail surrogate as disallowed, in any CIF
version. -/
def isDisallowedUnit (c : UChar) : Bool :=
  if c < charTableMax then cfg.charClass c = .no
  else c = 0xfffe || c = 0xffff || c = UChar.bom || (0xfdd0 ≤ c && c ≤ 0xfdef)

/-- The checks of `SCAN_UCHAR` on a unit that is not a trail surrogate. -/
def checkUnit (c : UChar) : Parse σ Unit := do
  let s ← read
  when (isDisallowedUnit cfg c) (report cfg Code.disallowedChar s.line s.column [c])
  when (cfg.cifVersion < 2 && 0x7e < c) (report cfg Code.disallowedChar s.line s.column [c])

/-- `SCAN_UCHAR`: the unit scanned, and whether it is a lead surrogate. -/
def scanUChar (lead : Bool) : Parse σ (UChar × Bool) := do
  modify (·.incColumn 1)
  let s ← read
  let c := s.nextUnit
  if isTrail c then
    if lead then
      when ((c = 0xdffe || c = 0xdfff) && s.prevUnit % 0x40 = 0x3f)
        (report cfg Code.disallowedChar s.line s.column [s.prevUnit, c])
      modify fun s => (s.incColumn (-1)).advance
      pure (c, false)
    else
      report cfg Code.invalidChar s.line s.column [c]
      modify fun s => (s.replaceNext (replChar cfg.cifVersion)).advance
      pure (replChar cfg.cifVersion, false)
  else
    checkUnit cfg c
    handleUnpairedLead cfg lead
    modify (·.advance)
    pure (c, isLead c)

/-- `HANDLE_EOL`: the new start-of-line state. -/
def handleEol (c : UChar) (sol : Nat) : Parse σ Nat := do
  let s ← read
  when (lineLength < s.column) (report cfg Code.overlengthLine s.line s.column [])
  let sol := (sol * 4 + (if c = UChar.nl then 1 else if c = UChar.cr then 2 else 3)) % 16
  modify (·.incLine (if sol = 9 then 0 else 1))
  pure sol

/-- A bound on the rounds of a scan over the units buffered when it starts. -/
def bufferedBound (s : Scanner σ) : Nat :=
  s.unread * (s.bufferLimit + 1) + (s.bufferLimit - s.nextChar) + 1

/-- The loop every scan function runs over the units up to `top`. -/
def scanBuffered (body : τ → Parse σ (τ ⊕ ω)) (top : Nat) : τ → Parse σ (τ ⊕ ω) :=
  loop bufferedBound fun t => do
    let s ← read
    if s.nextChar < top then
      match ← body t with
      | .inl t => pure (.inl t)
      | .inr w => pure (.inr (.inr w))
    else pure (.inr (.inl t))

/-- The frame of every scan function: `body` for each unit, getting more characters when those
buffered at the start of a round are used up, and `atEnd` when there are none. -/
def scanUnits (body : τ → Parse σ (τ ⊕ ω)) (atEnd : τ → Parse σ ω) : τ → Parse σ ω :=
  loop (fun s => s.unread + 1) fun t => do
    let s ← read
    match ← scanBuffered body s.bufferLimit t with
    | .inr w => pure (.inr w)
    | .inl t => do
      if ← getMoreChars cfg then pure (.inl t)
      else return .inr (← atEnd t)

/-- Ends a token one unit back from the scan position. -/
def backUpToEnd : Parse σ (τ ⊕ Unit) := do
  modify (·.backUp)
  pure (.inr ())

def scanWsUnit (sol : Nat) : Parse σ (Nat ⊕ Unit) := do
  let s ← read
  let c := s.nextUnit
  match cfg.classOf c with
  | .ws => do
    modify fun s => (s.incColumn 1).advance
    pure (.inl 0)
  | .eol => do
    let sol ← handleEol cfg c sol
    modify (·.advance)
    pure (.inl sol)
  | _ => pure (.inr ())

def scanWs : Parse σ Unit := do
  scanUnits cfg (scanWsUnit cfg) (fun _ => pure ()) 0
  modify (·.endToken)

def scanToUnit (stops : UChar → Bool) (lead : Bool) : Parse σ (Bool ⊕ Unit) := do
  let (c, lead) ← scanUChar cfg lead
  if stops c then backUpToEnd else pure (.inl lead)

/-- Scans up to the first unit that `stops`, which is left. -/
def scanTo (stops : UChar → Bool) : Parse σ Unit := do
  scanUnits cfg (scanToUnit cfg stops) (handleUnpairedLead cfg) false
  modify (·.endToken)

def scanToWs : Parse σ Unit := scanTo cfg fun c => cfg.metaClassOf c = .ws

def scanToEol : Parse σ Unit := scanTo cfg fun c => cfg.classOf c = .eol

/-- How far a token still agrees with a keyword, and the surrogate state. -/
structure UnquotedState where
  lead : Bool := false
  offset : Nat := 0
  data : Bool := true
  save : Bool := true

def dataClasses : List CharClass := [.d, .a, .t, .a, .undersc]

def saveClasses : List CharClass := [.s, .a, .v, .e, .undersc]

def scanUnquotedUnit (st : UnquotedState) : Parse σ (UnquotedState ⊕ Unit) := do
  let (c, lead) ← scanUChar cfg st.lead
  let next : UnquotedState := { st with lead := lead, offset := st.offset + 1 }
  let inHeader := (st.data || st.save) && 5 ≤ st.offset
  match cfg.metaClassOf c with
  | .general =>
    let agrees (classes : List CharClass) : Bool :=
      5 ≤ st.offset || classes[st.offset]? = some (cfg.classOf c)
    pure (.inl { next with
      data := st.data && agrees dataClasses
      save := st.save && agrees saveClasses })
  | .opening =>
    if inHeader then pure (.inl next)
    else do
      let s ← read
      report cfg Code.missingSpace s.line s.column []
      let s ← read
      syntaxCallback cfg .whitespace s.line s.column []
      backUpToEnd
  | .closing => if inHeader then pure (.inl next) else backUpToEnd
  | .ws => if c ≠ UChar.eofChar then backUpToEnd else pure (.inr ())
  | .no => pure (.inl next)

def scanUnquoted : Parse σ Unit := do
  scanUnits cfg (scanUnquotedUnit cfg) (fun st => handleUnpairedLead cfg st.lead) {}
  modify (·.endToken)

/-- The lead-surrogate state, the start-of-line state and the run of delimiters just scanned. -/
structure TripleState where
  lead : Bool := false
  sol : Nat := 0
  delimCount : Nat := 0

/-- Answers the size of the closing delimiter. -/
def scanTripleUnit (delim : UChar) (st : TripleState) : Parse σ (TripleState ⊕ Nat) := do
  let (c, lead) ← scanUChar cfg st.lead
  if c = delim then
    if 3 ≤ st.delimCount + 1 then pure (.inr 3)
    else pure (.inl { st with lead := lead, delimCount := st.delimCount + 1 })
  else if cfg.classOf c = .eol then do
    let sol ← handleEol cfg c st.sol
    pure (.inl ⟨lead, sol, 0⟩)
  else pure (.inl ⟨lead, 0, 0⟩)

def scanTripleDelimString : Parse σ Unit := do
  let s ← read
  let delimSize ← scanUnits cfg (scanTripleUnit cfg (s.buffer s.textStart))
    (fun st => do
      handleUnpairedLead cfg st.lead
      let s ← read
      report cfg Code.unclosedText s.line s.column []
      pure 0) {}
  modify (·.setTvalue 3 delimSize)

/-- How the scan of a delimited string ends. -/
inductive DelimEnd where
  | delim | endOfLine | triple

def scanDelimUnit (delim : UChar) (lead : Bool) : Parse σ (Bool ⊕ DelimEnd) := do
  let (c, lead) ← scanUChar cfg lead
  if c = delim then
    match ← peekChar cfg with
    | none => pure (.inr .delim)
    | some d => do
      let s ← read
      if cfg.cifVersion < 2 then
        -- only whitespace after it makes the delimiter a closing one
        if cfg.metaClassOf d ≠ .ws then pure (.inl lead) else pure (.inr .delim)
      else if s.nextChar - s.textStart = 2 && d = delim then do
        modify (·.advance)
        pure (.inr .triple)
      else pure (.inr .delim)
  else if cfg.classOf c = .eol then do
    modify (·.backUp)
    pure (.inr .endOfLine)
  else pure (.inl lead)

def scanDelimString : Parse σ Unit := do
  let s ← read
  let how ← scanUnits cfg (scanDelimUnit cfg (s.buffer s.textStart))
    (fun lead => do
      handleUnpairedLead cfg lead
      pure DelimEnd.endOfLine) false
  match how with
  | .triple => scanTripleDelimString cfg
  | .delim => modify (·.setTvalue 1 1)
  | .endOfLine => do
    let s ← read
    report cfg Code.missingEndquote s.line s.column []
    modify (·.setTvalue 1 0)

def scanTextUnit (st : Bool × Nat) : Parse σ (Bool × Nat ⊕ Nat) := do
  let (c, lead) ← scanUChar cfg st.1
  let sol := st.2
  match cfg.classOf c with
  | .semi =>
    if sol ≠ 0 then do
      let s ← read
      if s.buffer (s.nextChar - 2) = UChar.nl && s.buffer (s.nextChar - 3) = UChar.cr
      then pure (.inr 3) else pure (.inr 2)
    else pure (.inl (lead, sol))
  | .eol => do
    let sol ← handleEol cfg c sol
    pure (.inl (lead, sol))
  | _ => pure (.inl (lead, 0))

def scanText : Parse σ Unit := do
  let delimSize ← scanUnits cfg (scanTextUnit cfg)
    (fun st => do
      handleUnpairedLead cfg st.1
      let s ← read
      report cfg Code.unclosedText s.line s.column []
      pure 0) (false, 0)
  modify (·.setTvalue 1 delimSize)

end CifApi
