import CifApi.Scanner.State

/-! `decode_text`: the logical contents of a text block, un-prefixed and unfolded. -/
namespace CifApi

variable {σ : Type} (cfg : Config σ)

/-- What the scan of a text block's first line finds out. -/
structure FirstLine where
  prefixLength : Int := -1
  backslashCount : Nat := 0
  /-- Whether there is any non-whitespace after the last backslash. -/
  nonws : Bool := false

/-- The text after the line feed of a CR LF pair. -/
def skipNl : List UChar → List UChar
  | c :: rest => if c = UChar.nl then rest else c :: rest
  | [] => []

/-- Scans the first line for a prefix or a line-folding signature: the statistics, the units copied
(last first), and the text after the line. -/
def scanFirstLine : List UChar → Nat → FirstLine → List UChar → FirstLine × List UChar × List UChar
  | [], _, st, copied => (st, copied, [])
  | c :: rest, pos, st, copied =>
    if c = UChar.bsl then
      scanFirstLine rest (pos + 1) ⟨pos, st.backslashCount + 1, false⟩ (c :: copied)
    else if c = UChar.cr then (st, UChar.nl :: copied, skipNl rest)
    else if c = UChar.nl then (st, c :: copied, rest)
    else match cfg.classOf c with
      | .eol => (st, c :: copied, rest)
      | .ws => scanFirstLine rest (pos + 1) st (c :: copied)
      | _ => scanFirstLine rest (pos + 1) { st with nonws := true } (c :: copied)

/-- Line terminator conversion of text that is neither prefixed nor folded; `afterCr` tells whether
a line feed here belongs to a carriage return already converted. -/
def copyText : Bool → List UChar → List UChar
  | _, [] => []
  | afterCr, c :: rest =>
    if afterCr && c = UChar.nl then copyText false rest
    else if cfg.classOf c = .eol && c ≠ UChar.nl then UChar.nl :: copyText (c = UChar.cr) rest
    else c :: copyText false rest

/-- Copies one line to the output (last unit first); `temp` is the output before the last backslash
that only whitespace follows. -/
def decodeLine (folded : Bool) :
    List UChar → List UChar → Option (List UChar) → List UChar × List UChar
  | [], out, _ => (out, [])
  | c :: rest, out, temp =>
    if c = UChar.bsl && folded then decodeLine folded rest (c :: out) (some out)
    else match cfg.classOf c with
      | .eol =>
        let rest := if c = UChar.cr then skipNl rest else rest
        (temp.getD ((if c ≠ UChar.nl then UChar.nl else c) :: out), rest)
      | .ws => decodeLine folded rest (c :: out) temp
      | _ => decodeLine folded rest (c :: out) none

/-- Removes the prefix from the front of a line that has it. -/
def stripPrefix (linePrefix text : List UChar) : List UChar :=
  if linePrefix.length ≤ text.length && cstr linePrefix = cstr (text.take linePrefix.length) then
    text.drop linePrefix.length
  else text

/-- Line by line, at most `n` lines. -/
def decodeLines (linePrefix : List UChar) (folded : Bool) :
    Nat → List UChar → List UChar → List UChar
  | 0, _, out => out
  | n + 1, text, out =>
    if text = [] then out
    else
      let (out, rest) := decodeLine cfg folded (stripPrefix linePrefix text) out none
      decodeLines linePrefix folded n rest out

/-- The decoded text; as a string it ends at its first NUL. -/
def decodeText (text : List UChar) : UStr :=
  if text.head? = some UChar.semi || (cfg.lineUnfolding ≤ 0 && cfg.prefixRemoving ≤ 0) then
    cstr (copyText cfg false text)
  else
    let (st, copied, rest) := scanFirstLine cfg text 0 {} []
    let prefixLength := if 0 < cfg.prefixRemoving then st.prefixLength + 1 - st.backslashCount
      else 0
    if !st.nonws && (st.backslashCount = 1 || (st.backslashCount = 2 && 0 < prefixLength
        && text[prefixLength.toNat]? = some UChar.bsl)) then
      let folded := (prefixLength = 0 || st.backslashCount = 2) && 0 < cfg.lineUnfolding
      if !folded && prefixLength = 0 then cstr (copyText cfg false rest)
      else cstr (decodeLines cfg (text.take prefixLength.toNat) folded rest.length rest []).reverse
    else cstr (copied.reverse ++ copyText cfg false rest)

end CifApi
