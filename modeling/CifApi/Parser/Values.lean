import CifApi.Scanner.NextToken
import CifApi.Parser.DecodeText

/-! The productions for values: `parse_value`, `parse_list` and `parse_table`. -/
namespace CifApi

open Exec Scanner

variable {σ : Type} (cfg : Config σ)

/-- Whether a token of this type is or starts a value. -/
def TokenType.startsValue : TokenType → Bool
  | .olist | .otable | .tvalue | .qvalue | .value => true
  | _ => false

/-- Reports an error at the start of the current token, with the token's value as its text. -/
def reportToken (code : Int) : Parse σ Unit := do
  let s ← read
  report cfg code s.line (sizeSub s.column s.tvalueLength) s.tvalue

/-- Reports an error at the start of the current token, with no text. -/
def reportBefore (code : Int) : Parse σ Unit := do
  let s ← read
  report cfg code s.line (sizeSub s.column s.tvalueLength) []

/-- Turns a key into a value by pushing back its colon. -/
def pushBackColon : Parse σ Unit := do
  modify fun s => s.pushBack.setTtype (if s.ttype = .tkey then .tvalue else .qvalue)
  let s ← read
  syntaxCallback cfg .whitespace s.line s.column []

/-- A key where a value is wanted: reported as a value whose colon lacks whitespace before it. -/
def splitKey : Parse σ Unit := do
  let s ← read
  report cfg Code.missingSpace s.line (sizeSub s.column s.tvalueLength) s.tvalue
  pushBackColon cfg

/-- Normalises a table key for `cif_value_set_item_by_key`. -/
def setItemByKey (key : UStr) : Parse σ UStr := do
  ofResult (← storeCall (.setItemByKey key)
    fun cif => (cfg.icu.normalizeTableIndex key Code.invalidIndex, cif))

/-- The value of an unquoted token. -/
def bareValue : Parse σ Value := do
  let s ← read
  if s.tvalue = [UChar.query] then pure .unk
  else if s.tvalue = [UChar.decimal] then pure .na
  else
    let value := Value.initChar (cstr s.tvalue)
    match if cfg.cifVersion < 2 then value.tryQuoted false else value.setQuoted false with
    | .ok value => pure value
    | .error e =>
      if e = Code.argumentError then do
        report cfg Code.invalidBareValue s.line s.column (s.tvalue.take 1)
        -- the value stays quoted
        pure value
      else stop e

section Recursive

variable (parseValue : Parse σ Value)

/-- One element of a list, or its end; `list` holds the elements so far. -/
def parseListElement (list : List Value) : Parse σ (List Value ⊕ List Value) := do
  nextToken cfg
  let s ← read
  match s.ttype with
  | .tkey | .key => do
    splitKey cfg
    return .inl (list ++ [← parseValue])
  | .olist | .otable | .tvalue | .qvalue | .value => return .inl (list ++ [← parseValue])
  | .clist => do
    modify consumeToken
    pure (.inr list)
  | _ => do
    reportToken cfg Code.missingDelim
    -- the list is closed without the token being consumed
    pure (.inr list)

def parseList : Parse σ Value :=
  return .list (← loop tokenBound (parseListElement cfg parseValue) [])

/-- What stands where a table key is wanted. -/
inductive TableKey where
  /-- A key, or a colon without any. -/
  | entry (key : Option UStr)
  /-- Something dropped. -/
  | dropped
  | endOfTable

/-- An unquoted token in the place of a key. -/
def bareKey : Parse σ TableKey := do
  let s ← read
  if s.tvalue.head? = some UChar.colon then do
    reportToken cfg Code.nullKey
    when (1 < s.tvalueLength) (modify (·.trimToken 1))
    modify consumeToken
    pure (.entry none)
  else
    match s.tvalue.tail.findIdx? (· = UChar.colon) with
    | some i => do
      reportToken cfg Code.unquotedKey
      -- all that follows the first colon is pushed back
      modify fun s => { s.trimToken (i + 2) with tvalueLength := i + 1, ttype := .key }
      let key := cstr (← read).tvalue
      modify consumeToken
      pure (.entry (some key))
    | none => do
      reportToken cfg Code.missingKey
      modify consumeToken
      pure .dropped

def parseTableKey : Parse σ TableKey := do
  nextToken cfg
  let s ← read
  match s.ttype with
  | .value => bareKey cfg
  | .key => do
    modify consumeToken
    pure (.entry (some (cstr s.tvalue)))
  | .tkey => do
    reportToken cfg Code.misquotedKey
    modify consumeToken
    pure (.entry (some (decodeText cfg s.tvalue)))
  | .qvalue | .tvalue | .olist | .otable => do
    reportToken cfg Code.missingKey
    let _ ← parseValue
    pure .dropped
  | .ctable => do
    modify consumeToken
    pure .endOfTable
  | _ => do
    reportBefore cfg Code.missingDelim
    -- the token is left for the caller to handle
    pure .endOfTable

/-- The value of an entry; a missing one is unknown. -/
def parseTableValue : Parse σ Value := do
  nextToken cfg
  if (← read).ttype.startsValue then parseValue
  else do
    reportToken cfg Code.missingValue
    pure .unk

abbrev TableEntries := List (UStr × UStr × Value)

def parseTableEntry (entries : TableEntries) : Parse σ (TableEntries ⊕ TableEntries) := do
  match ← parseTableKey cfg parseValue with
  | .endOfTable => pure (.inr entries)
  | .dropped => pure (.inl entries)
  | .entry none => do
    let _ ← parseTableValue cfg parseValue
    pure (.inl entries)
  | .entry (some key) => do
    let norm ← setItemByKey cfg key
    return .inl (Value.setEntry entries norm key (← parseTableValue cfg parseValue))

def parseTable : Parse σ Value :=
  return .table (← loop tokenBound (parseTableEntry cfg parseValue) [])

def parseValueBody : Parse σ Value := do
  nextToken cfg
  let s ← read
  match s.ttype with
  | .olist => do
    modify consumeToken
    parseList cfg parseValue
  | .otable => do
    modify consumeToken
    parseTable cfg parseValue
  | .tvalue => do
    modify consumeToken
    pure (.initChar (decodeText cfg s.tvalue))
  | .qvalue => do
    modify consumeToken
    pure (.initChar (cstr s.tvalue))
  | .value => do
    let value ← bareValue cfg
    modify consumeToken
    pure value
  | _ => stop Code.internalError

end Recursive

def parseValue : Parse σ Value := fix tokenBound (fun self _ => parseValueBody cfg (self ())) ()

end CifApi
