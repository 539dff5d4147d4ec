import Mathlib
import CifApi.Text

/-! The scanner's character buffer and the functions that fill it from the character source. -/
namespace CifApi

/-- `BUF_SIZE_INITIAL` and `BUF_MIN_FILL`. -/
abbrev bufSizeInitial : Nat := 64 * (lineLength + 2)

abbrev bufMinFill : Nat := lineLength + 2

/-- Why the converter has no character for a byte sequence. -/
inductive Malformed where
  | unassigned
  | illegal

def Malformed.code : Malformed → Int
  | .unassigned => Code.unmappedChar
  | .illegal => Code.invalidChar

/-- The character buffer; pointers into it are offsets from its start. -/
structure Buffer where
  /-- The units in memory, beyond `bufferLimit` whatever was left there. -/
  buffer : Nat → UChar
  bufferSize : Nat
  bufferLimit : Nat
  nextChar : Nat
  textStart : Nat
  tvalueStart : Nat
  atEof : Bool
  /-- What successive calls of the reader will provide, each no more than it is asked for. -/
  charSource : List (List UChar)
  /-- Where a unit of the source stands for a byte sequence that the converter has no character for,
  by the number of units from there to the end. -/
  malformed : Nat → Option Malformed

/-- One call of the reader for at most `count` units; no units means the end of the input. -/
def readFunc (count : Nat) : List (List UChar) → List UChar × List (List UChar)
  | [] => ([], [])
  | chunk :: rest =>
    if chunk.length ≤ count then (chunk, rest) else (chunk.take count, chunk.drop count :: rest)

/-- Memory with `units` written from offset `start` on. -/
def write (mem : Nat → UChar) (start : Nat) (units : List UChar) : Nat → UChar := fun i =>
  if start ≤ i then (units[i - start]?).getD (mem i) else mem i

/-- `u_memchr` for a carriage return, from `start` on. -/
def findCR (units : List UChar) (start : Nat) : Option Nat :=
  ((units.drop start).findIdx? (· = UChar.cr)).map (start + ·)

/-- Turns carriage returns from `lead` on into line feeds, up to one that a line feed follows. -/
def convertLoneCR : Nat → List UChar → Nat → List UChar × Option Nat
  | 0, units, _ => (units, none)
  | n + 1, units, lead =>
    match findCR units lead with
    | none => (units, none)
    | some i =>
      if units[i + 1]? = some UChar.nl then (units, some i)
      else convertLoneCR n (units.set i UChar.nl) i

/-- `u_memmove` of `length` units inside a chunk. -/
def memmove (units : List UChar) (dest src length : Nat) : List UChar :=
  units.take dest ++ (units.drop src).take length ++ units.drop (dest + length)

/-- The compacting loop: `lead` is at a CR LF pair, and text is moved down to `dest` pair by
pair. -/
def compact : Nat → List UChar → (nread dest lead : Nat) → List UChar × Nat
  | 0, units, nread, _, _ => (units, nread)
  | n + 1, units, nread, dest, lead =>
    let trail := lead + 1
    match convertLoneCR units.length units trail with
    | (units, none) => (memmove units dest trail (units.length - trail), nread)
    | (units, some lead) =>
      let length := lead - trail
      compact n (memmove units dest trail length) (nread - 1) (dest + length) lead

/-- Line-terminator conversion of a chunk in place, with the number of its units to keep. -/
def convertTerminators (chunk : List UChar) : List UChar × Nat :=
  match convertLoneCR chunk.length chunk 0 with
  | (units, none) => (units, chunk.length)
  | (units, some lead) => compact chunk.length units chunk.length lead lead

namespace Buffer

/-- The units of memory from `start` up to `stop`. -/
def slice (b : Buffer) (start stop : Nat) : List UChar :=
  (List.range (stop - start)).map fun i => b.buffer (start + i)

/-- The units the reader has still to provide. -/
def unread (b : Buffer) : Nat := (b.charSource.map List.length).sum

/-- The units still to be scanned. -/
def remaining (b : Buffer) : Nat := b.bufferLimit - b.nextChar + b.unread

/-- How `get_more_chars` makes room at the top of the buffer. -/
def makeRoom (b : Buffer) : Buffer :=
  if b.bufferLimit ≤ b.textStart then
    { b with textStart := 0, tvalueStart := 0, nextChar := 0, bufferLimit := 0 }
  else if b.bufferSize < b.bufferLimit + bufMinFill then
    let currentChars := b.nextChar - b.textStart
    let kept := fun i => b.buffer (b.textStart + i)
    { b with
      buffer := if currentChars * 2 < b.bufferSize
        then fun i => if i < currentChars then kept i else b.buffer i
        else fun i => if i < currentChars then kept i else 0
      bufferSize := if currentChars * 2 < b.bufferSize then b.bufferSize else b.bufferSize * 2
      tvalueStart := b.tvalueStart - b.textStart
      textStart := 0
      nextChar := currentChars
      bufferLimit := currentChars }
  else b

/-- How many units the next call of the reader provides, which is asked for at most `count`. -/
def nextRead (b : Buffer) (count : Nat) : Nat :=
  if b.atEof then 0 else (readFunc count b.charSource).1.length

/-- Puts `c` in the place of the unit that the source has after `n` others. -/
def substitute (n : Nat) (c : UChar) (b : Buffer) : Buffer :=
  { b with charSource := b.charSource.modifyHead fun chunk => chunk.set n c }

/-- Drops the first `n` units of the source. -/
def discard (n : Nat) (b : Buffer) : Buffer :=
  { b with charSource := match b.charSource with
    | [] => []
    | chunk :: rest => if n < chunk.length then chunk.drop n :: rest else rest }

/-- Reads a chunk to the end of the buffered units. -/
def fill (b : Buffer) : Int × Buffer :=
  match if b.atEof then ([], b.charSource)
    else readFunc (b.bufferSize - b.bufferLimit) b.charSource with
  | ([], source) => (Code.eof, { b with atEof := true, charSource := source })
  | (chunk, source) =>
    let (units, nread) := convertTerminators chunk
    (Code.ok, { b with
      buffer := write b.buffer b.bufferLimit units
      bufferLimit := b.bufferLimit + nread
      charSource := source })

def getMoreChars (b : Buffer) : Int × Buffer := b.makeRoom.fill

/-- The first read of `get_first_char`, for one unit; `none` is the end of the input. -/
def readFirst (b : Buffer) : Option UChar × Buffer :=
  match readFunc 1 b.charSource with
  | ([], source) => (none, { b with tvalueStart := 0, atEof := true, charSource := source })
  | (ch :: _, source) =>
    (some ch, { b with tvalueStart := 0, buffer := write b.buffer 0 [ch], charSource := source })

/-- What `get_first_char` does with a first unit that is allowed: a carriage return is converted,
and a second read looks for the line feed after it. -/
def convertFirst (b : Buffer) : Buffer :=
  if b.buffer 0 = UChar.cr then
    let b := { b with buffer := write b.buffer 0 [UChar.nl] }
    match readFunc (b.bufferSize - 1) b.charSource with
    | ([], source) => { b with atEof := true, charSource := source }
    | (chunk, source) =>
      let b := { b with buffer := write b.buffer 1 chunk, charSource := source }
      if b.buffer 1 ≠ UChar.nl then { b with bufferLimit := b.bufferLimit + 1 } else b
  else b

/-- Counts the first unit as buffered. -/
def acceptFirst (b : Buffer) : Buffer := { b with bufferLimit := b.bufferLimit + 1 }

/-- The buffer before the first read. -/
def initial (source : List (List UChar))
    (malformed : Nat → Option Malformed := fun _ => none) : Buffer where
  buffer := fun _ => 0
  bufferSize := bufSizeInitial
  bufferLimit := 0
  nextChar := 0
  textStart := 0
  tvalueStart := 0
  atEof := false
  charSource := source
  malformed := malformed

end Buffer

end CifApi
