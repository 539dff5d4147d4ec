import CifApi.Scanner.Scan

/-! `next_token`: the next token identified and classified, whitespace and comments before it
consumed. -/
namespace CifApi

open Exec Scanner

variable {σ : Type} (cfg : Config σ)

/-- Whether any token may follow one of this type without whitespace between. -/
def TokenType.allowsAdjacent : TokenType → Bool
  | .olist | .otable | .key | .tkey | .end_ => true
  | _ => false

/-- What a pass over the input ahead of a token found: whitespace, a comment, or a token's text. -/
inductive Lexeme where
  | whitespace
  | comment
  | token (ttype : TokenType)

/-- Requires whitespace between most tokens, and tracks the end of whitespace runs. -/
def separateToken (clazz : CharClass) (afterWs : Bool) : Parse σ Unit := do
  let s ← read
  match clazz.metaClass with
  | .ws => pure ()
  | .closing => syntaxCallback cfg .whitespace s.line s.column []
  | _ => do
    when (!afterWs) (report cfg Code.missingSpace s.line (addColumn s.column (-1)) [])
    when (clazz ≠ .hash) do
      let s ← read
      syntaxCallback cfg .whitespace s.line s.column []

def setTokenLength (n : Nat) : Parse σ Unit := modify fun s => { s with tvalueLength := n }

/-- A quoted string is a table key when a colon follows it. -/
def scanQuoted : Parse σ TokenType := do
  scanDelimString cfg
  match ← peekChar cfg with
  | some c =>
    if c = UChar.colon then do
      modify (·.advance)
      pure .key
    else pure .qvalue
  | none => pure .qvalue

def scanTextBlock : Parse σ TokenType := do
  scanText cfg
  if 2 ≤ cfg.cifVersion then
    match ← peekChar cfg with
    | some c =>
      if c = UChar.colon then do
        modify (·.advance)
        pure .tkey
      else pure .tvalue
    | none => pure .tvalue
  else pure .tvalue

/-- Scans on from the first character of a token, a comment or whitespace, by its class. -/
def scanLexeme (clazz : CharClass) : Parse σ Lexeme := do
  match clazz with
  | .eol => do
    -- scan_ws() does the line and column accounting of the terminator
    modify (·.backUp)
    scanWs cfg
    pure .whitespace
  | .ws => do
    scanWs cfg
    pure .whitespace
  | .hash => do
    scanToEol cfg
    pure .comment
  | .undersc => do
    scanToWs cfg
    pure (.token .name)
  | .obrak => do setTokenLength 1; pure (.token .olist)
  | .cbrak => do setTokenLength 1; pure (.token .clist)
  | .ocurl => do setTokenLength 1; pure (.token .otable)
  | .ccurl => do setTokenLength 1; pure (.token .ctable)
  | .quote => return .token (← scanQuoted cfg)
  | .semi => do
    if (← read).column = 1 then return .token (← scanTextBlock cfg)
    else do
      scanUnquoted cfg
      pure (.token .value)
  | _ => do
    modify (·.backUp)
    scanUnquoted cfg
    pure (.token .value)

/-- Whether the token's units from `i` on have the given classes. -/
def classesAt (token : List UChar) : Nat → List CharClass → Bool
  | _, [] => true
  | i, k :: ks => cfg.classOf (token.getD i 0) = k && classesAt token (i + 1) ks

/-- How an unquoted token reads when it is, or begins with, a reserved word. -/
inductive Keyword where
  | none | blockHead | frameHead | frameTerm | loopkw | reserved
  deriving DecidableEq

def keywordOf (token : List UChar) : Keyword :=
  let classes := classesAt cfg token
  if 4 < token.length && classes 4 [.undersc] then
    if classes 0 [.d, .a, .t, .a] then
      if token.length = 5 then .reserved else .blockHead
    else if classes 0 [.s, .a, .v, .e] then
      if token.length = 5 then .frameTerm else .frameHead
    else if token.length = 5 && classes 2 [.o, .p] then
      if classes 0 [.l, .o] then .loopkw
      else if classes 0 [.s, .t] then .reserved
      else .none
    else .none
  else if token.length = 7 && classes 6 [.undersc] && classes 0 [.g, .l, .o, .b, .a, .l] then
    .reserved
  else .none

/-- The value of the token begins after a five-unit keyword. -/
def dropKeyword (s : Scanner σ) : Scanner σ :=
  { s with tvalueStart := s.tvalueStart + 5, tvalueLength := s.tvalueLength - 5 }

/-- Detection of reserved words, case-insensitively, in an unquoted token. -/
def checkReserved : Parse σ TokenType := do
  let s ← read
  match keywordOf cfg s.tvalue with
  | .none => pure .value
  | .blockHead => do modify dropKeyword; pure .blockHead
  | .frameHead => do modify dropKeyword; pure .frameHead
  | .frameTerm => do modify dropKeyword; pure .frameTerm
  | .loopkw => do modify dropKeyword; pure .loopkw
  | .reserved => do
    report cfg Code.reservedWord s.line (sizeSub s.column s.tvalueLength) s.tvalue
    -- the word is dropped
    modify consumeToken
    pure .value

/-- One pass of the loop, from a scanner with no token ready: the token type for now, and whether
whitespace has been seen; or the end of the input. -/
def scanToken (afterWs : Bool) : Parse σ ((TokenType × Bool) ⊕ TokenType) := do
  modify fun s => { s with tvalueStart := s.textStart, tvalueLength := 0 }
  match ← nextChar cfg with
  | none => pure (.inr .end_)
  | some c => do
    let clazz := cfg.classOf c
    separateToken cfg clazz afterWs
    match ← scanLexeme cfg clazz with
    | .whitespace => do
      let s ← read
      when (s.skipDepth = 0) (syntaxCallback cfg .whitespace s.line s.column s.tvalue)
      modify consumeToken
      pure (.inl (.error, true))
    | .comment => do
      let s ← read
      syntaxCallback cfg .whitespace s.line s.column s.tvalue
      modify consumeToken
      pure (.inl (.error, afterWs))
    | .token .value => return .inl (← checkReserved cfg, afterWs)
    | .token ttype => pure (.inl (ttype, afterWs))

def nextToken : Parse σ Unit := do
  let s ← read
  let ttype ← loop Scanner.tokenBound (fun (ttype, afterWs) => do
    let s ← read
    if s.nextChar ≤ s.textStart then scanToken cfg afterWs
    else pure (.inr ttype)) (s.ttype, s.ttype.allowsAdjacent)
  modify (·.setTtype ttype)

end CifApi
