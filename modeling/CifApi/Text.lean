import Mathlib.Tactic.Common
import CifApi.Codes

/-! UTF-16 code units, NUL-terminated strings, and the library's checks on names and keys. -/
namespace CifApi

/-- A UTF-16 code unit. -/
abbrev UChar := Nat

/-- The units of a string before its terminator. -/
abbrev UStr := List UChar

namespace UChar

abbrev tab : UChar := 0x09
abbrev nl : UChar := 0x0a
abbrev cr : UChar := 0x0d
abbrev sp : UChar := 0x20
abbrev dq : UChar := 0x22
abbrev hash : UChar := 0x23
abbrev dollar : UChar := 0x24
abbrev sq : UChar := 0x27
abbrev decimal : UChar := 0x2e
abbrev colon : UChar := 0x3a
abbrev semi : UChar := 0x3b
abbrev query : UChar := 0x3f
abbrev obrk : UChar := 0x5b
abbrev bsl : UChar := 0x5c
abbrev cbrk : UChar := 0x5d
abbrev under : UChar := 0x5f
abbrev obrc : UChar := 0x7b
abbrev cbrc : UChar := 0x7d
abbrev bom : UChar := 0xfeff
abbrev eofChar : UChar := 0xffff

end UChar

/-- The units of a text without supplementary characters. -/
def units (text : String) : List UChar := text.toList.map (·.toNat)

/-- `CIF_LINE_LENGTH`. -/
abbrev lineLength : Nat := 2048

/-- `REPL_CHAR` and `REPL1_CHAR`: what stands in for an unpaired surrogate in each CIF version. -/
abbrev replChar (cifVersion : Int) : UChar := if 2 ≤ cifVersion then 0xfffd else 0x2a

/-- `(c & 0xfc00) == 0xd800`. -/
def isLead (c : UChar) : Bool := 0xd800 ≤ c && c ≤ 0xdbff

/-- `(c & 0xfc00) == 0xdc00`. -/
def isTrail (c : UChar) : Bool := 0xdc00 ≤ c && c ≤ 0xdfff

instance : LawfulBEq UStr := inferInstanceAs (LawfulBEq (List Nat))

/-- What a function that takes a NUL-terminated string sees of some units. -/
def cstr (s : List UChar) : UStr := s.takeWhile (· ≠ 0)

def countChar32 : UStr → Nat
  | [] => 0
  | [_] => 1
  | c :: d :: s => if isLead c && isTrail d then countChar32 s + 1 else countChar32 (d :: s) + 1

def hasDisallowedChars : UStr → Bool
  | [] => false
  | c :: s =>
    if c < 0xd800 || 0xdfff < c then
      if (c < 0x20 && c ≠ 0x9 && c ≠ 0xa && c ≠ 0xd) || c = 0x7f || (0xfdcf < c && c < 0xfdf0)
          || 0xfffd < c then true
      else hasDisallowedChars s
    else if 0xdc00 ≤ c then true
    else match s with
      | [] => true
      | d :: s =>
        if d < 0xdc00 || 0xdfff < d then true
        else if 0x3fe ≤ d % 0x400 && c % 0x40 = 0x3f then true
        else hasDisallowedChars s

def hasWhitespace (s : UStr) : Bool := s.any (· ≤ 0x20)

def isValidName (name : UStr) (forItem : Bool) : Bool :=
  (if forItem then name.getD 0 0 = UChar.under && name.getD 1 0 ≠ 0 else name.getD 0 0 ≠ 0)
    && countChar32 name ≤ (if forItem then lineLength else lineLength - 5)
    && !hasWhitespace name && !hasDisallowedChars name

/-- The Unicode transformations the library takes from ICU. -/
structure Icu where
  nfd : UStr → UStr
  foldCase : UStr → UStr
  nfc : UStr → UStr

namespace Icu

/-- The transformations as they act on ASCII text. -/
def ascii : Icu where
  nfd := id
  foldCase := List.map fun c => if 0x41 ≤ c ∧ c ≤ 0x5a then c + 0x20 else c
  nfc := id

variable (icu : Icu)

def normalize (s : UStr) : UStr := icu.nfc (icu.foldCase (icu.nfd s))

def normalizeName (name : UStr) (invalidityCode : Int) : Except Int UStr :=
  if isValidName name false then .ok (icu.normalize name) else .error invalidityCode

def normalizeItemName (name : UStr) (invalidityCode : Int) : Except Int UStr :=
  if isValidName name true then .ok (icu.normalize name) else .error invalidityCode

def normalizeTableIndex (name : UStr) (invalidityCode : Int) : Except Int UStr :=
  if hasDisallowedChars name then .error invalidityCode else .ok (icu.nfc name)

end Icu

/-- Whether `c` is the letter with upper-case code `upper`, in either case. -/
def isLetter (upper c : UChar) : Bool := c = upper || c = upper + 0x20

/-- `str` reads, from position `i` on, as the given upper-case letters in any case. -/
def lettersAt (str : UStr) : Nat → List UChar → Bool
  | _, [] => true
  | i, u :: us => isLetter u (str.getD i 0) && lettersAt str (i + 1) us

def isReservedString (str : UStr) : Bool :=
  let c := str.getD 0 0
  if c = UChar.under || c = UChar.hash || c = UChar.dollar || c = UChar.sq || c = UChar.dq then true
  else if isLetter 0x44 c then
    lettersAt str 1 [0x41, 0x54, 0x41] && str.getD 4 0 = UChar.under
  else if isLetter 0x47 c then
    lettersAt str 1 [0x4c, 0x4f, 0x42, 0x41, 0x4c] && str.getD 6 0 = UChar.under && str.getD 7 0 = 0
  else if isLetter 0x4c c then
    lettersAt str 1 [0x4f, 0x4f, 0x50] && str.getD 4 0 = UChar.under && str.getD 5 0 = 0
  else if isLetter 0x53 c then
    if isLetter 0x41 (str.getD 1 0) then
      lettersAt str 2 [0x56, 0x45] && str.getD 4 0 = UChar.under
    else if isLetter 0x54 (str.getD 1 0) then
      lettersAt str 2 [0x4f, 0x50] && str.getD 4 0 = UChar.under && str.getD 5 0 = 0
    else false
  else false

end CifApi
