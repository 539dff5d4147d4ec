import CifApi.Parser.Containers

/-! `cif_parse_internal`: the choice of CIF version, and the parse from the first character on. -/
namespace CifApi

open Exec Scanner

variable {σ : Type}

/-- `#\#CIF_1.1`. -/
def cif1Magic : List UChar := [0x23, 0x5c, 0x23, 0x43, 0x49, 0x46, 0x5f, 0x31, 0x2e, 0x31]

/-- `#\#CIF_2.0`. -/
def cif2Magic : List UChar := [0x23, 0x5c, 0x23, 0x43, 0x49, 0x46, 0x5f, 0x32, 0x2e, 0x30]

/-- The version a magic code names: all but that of CIF 2.0 are taken for CIF 1. -/
def magicVersion (token : List UChar) (cifVersion : Int) : Int :=
  if token.length = cif2Magic.length then
    if token = cif2Magic then 2
    else if token.take 7 = cif1Magic.take 7 then 1
    else cifVersion
  else cifVersion

/-- Settles an uncertain CIF version, by the magic code if the first character `c` may begin one. -/
def chooseVersion (cfg : Config σ) (c : UChar) : Parse σ (Config σ) := do
  if 0 < cfg.cifVersion then pure cfg
  else do
    let cfg := { cfg with cifVersion := if cfg.cifVersion < 0 then -cfg.cifVersion else 1 }
    if cfg.classOf c = .hash then do
      scanToWs cfg
      return { cfg with cifVersion := magicVersion (← read).tvalue cfg.cifVersion }
    else pure cfg

/-- The parse once the first character `c` is known. -/
def parseFrom (cfg : Config σ) (hasCif scannedBom : Bool) (c : UChar) : Parse σ Unit := do
  let cfg ← chooseVersion cfg c
  modify fun s => { s with nextChar := s.textStart, column := 0 }
  if cfg.cifVersion = 1 then do
    when scannedBom do report cfg Code.disallowedChar 1 0 [(← read).prevUnit]
    parseCif cfg.setV1 hasCif
  else do
    when (cfg.cifVersion = 2 ∧ cfg.notUtf8) (report cfg Code.wrongEncoding 1 1 [])
    parseCif cfg hasCif

/-- `cif_parse_internal`, under a configuration. -/
def cifParseInternal (cfg : Config σ) (hasCif : Bool) : Parse σ Unit := do
  let some? ← recode (getFirstChar cfg) fun e => if e = Code.eof then Code.ok else e
  if some? then do
    let c := (← read).nextUnit
    modify (·.advance)
    if c = UChar.bom then do
      modify consumeToken
      match ← nextChar cfg with
      | some c => parseFrom cfg hasCif true c
      | none => pure ()
    else parseFrom cfg hasCif false c

/-- The scanner at the start of a parse. -/
def Scanner.initial (source : List (List UChar)) (w : World σ)
    (malformed : Nat → Option Malformed := fun _ => none) : Scanner σ where
  toBuffer := Buffer.initial source malformed
  ttype := .end_
  tvalueLength := 0
  line := 1
  column := 0
  skipDepth := 0
  world := w
  log := []

/-- A parse under a configuration, of the units the reader provides chunk by chunk, some of which
may stand for byte sequences without a character: the code it returns and the scanner it leaves. -/
def Config.parse (cfg : Config σ) (hasCif : Bool) (source : List (List UChar)) (w : World σ)
    (malformed : Nat → Option Malformed := fun _ => none) : Option (Int × Scanner σ) :=
  match cifParseInternal cfg hasCif (Scanner.initial source w malformed) with
  | none => none
  | some (.ok _, s) => some (Code.ok, s)
  | some (.error e, s) => some (e, s)

/-- A parse with the options of a caller. -/
def cifParse (o : Options σ) (hasCif : Bool) (source : List (List UChar)) (w : World σ)
    (malformed : Nat → Option Malformed := fun _ => none) : Option (Int × Scanner σ) :=
  (Config.initV2 o).parse hasCif source w malformed

end CifApi
