import CifApi.Text

/-! Data values, and the operations on them that parsing uses. -/
namespace CifApi

/-- The fields of a number: its text, and the digit strings and scale the text denotes. -/
structure Numb where
  text : UStr
  sign : Int
  digits : UStr
  suDigits : Option UStr
  scale : Int
  deriving DecidableEq

/-- A value; a table entry has a normalised key, the key as given, and a value. -/
inductive Value where
  | char (text : UStr) (quoted : Bool)
  | numb (number : Numb) (quoted : Bool)
  | list (elements : List Value)
  | table (entries : List (UStr × UStr × Value))
  | na
  | unk

namespace Value

/-- `cif_value_init_char`: the value becomes a quoted string. -/
def initChar (text : UStr) : Value := .char text true

/-- The unquoted-value check, with the code it answers for a string that only brackets or braces
rule out. -/
def setQuotedImpl (value : Value) (quoted : Bool) (conditionalCharResult : Int) :
    Except Int Value :=
  match value with
  | .unk => .ok (if quoted then .char [UChar.query] true else .unk)
  | .na => .ok (if quoted then .char [UChar.decimal] true else .na)
  | .list elements => if quoted then .error Code.argumentError else .ok (.list elements)
  | .table entries => if quoted then .error Code.argumentError else .ok (.table entries)
  | .numb number _ => .ok (.numb number quoted)
  | .char text wasQuoted =>
    if quoted || !wasQuoted then .ok (.char text quoted)
    else if text = [] then .error Code.argumentError
    else if text = [UChar.query] then .ok .unk
    else if text = [UChar.decimal] then .ok .na
    else if isReservedString text then .error Code.argumentError
    else
      let hardDisallowed := [UChar.sp, UChar.tab, UChar.nl, UChar.cr]
      let disallowed := [UChar.obrk, UChar.cbrk, UChar.obrc, UChar.cbrc] ++ hardDisallowed
      let tail := text.dropWhile (!disallowed.contains ·)
      if tail = [] then .ok (.char text quoted)
      else if tail.any hardDisallowed.contains then .error Code.argumentError
      else if conditionalCharResult = Code.ok then .ok value
      else .error conditionalCharResult

def setQuoted (value : Value) (quoted : Bool) : Except Int Value :=
  setQuotedImpl value quoted Code.argumentError

def tryQuoted (value : Value) (quoted : Bool) : Except Int Value :=
  setQuotedImpl value quoted Code.ok

/-- `cif_map_set_item` on table entries already normalised. -/
def setEntry (entries : List (UStr × UStr × Value)) (key keyOrig : UStr) (item : Value) :
    List (UStr × UStr × Value) :=
  if entries.any (·.1 = key) then
    entries.map fun e => if e.1 = key then (key, keyOrig, item) else e
  else entries ++ [(key, keyOrig, item)]

end Value

/-- A packet: normalised item names, names as given, and values, in insertion order. -/
abbrev Packet := List (UStr × UStr × Value)

namespace Packet

variable (icu : Icu)

/-- `cif_packet_create`. -/
def create (names : List UStr) : Except Int Packet :=
  names.mapM fun name => do
    let key ← icu.normalizeItemName name Code.invalidItemname
    return (key, name, Value.unk)

/-- Where `cif_packet_get_item` finds a name: hash buckets keep the entry added last in front. -/
def findIdx (packet : Packet) (name : UStr) : Except Int Nat := do
  let key ← icu.normalizeItemName name Code.nosuchItem
  match (List.range packet.length).reverse.find? fun i => (packet[i]?.map (·.1)) = some key with
  | some i => .ok i
  | none => .error Code.nosuchItem

def setValue (packet : Packet) (i : Nat) (value : Value) : Packet :=
  packet.modify i fun e => (e.1, e.2.1, value)

end Packet

end CifApi
