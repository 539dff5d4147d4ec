import Mathlib.Algebra.Group.Nat.Defs
import Mathlib.Tactic.Common
import CifApi.Value

/-! Numbers as their text denotes them. -/
namespace CifApi

namespace UChar

abbrev open' : UChar := 0x28
abbrev close : UChar := 0x29
abbrev plus : UChar := 0x2b
abbrev minus : UChar := 0x2d
abbrev zero : UChar := 0x30
abbrev nine : UChar := 0x39
abbrev upperE : UChar := 0x45
abbrev lowerE : UChar := 0x65

end UChar

/-- The value an `int` computation wraps to. -/
def toInt (n : Int) : Int := n.bmod (2 ^ 32)

def isDigit (c : UChar) : Bool := UChar.zero ≤ c && c ≤ UChar.nine

/-- Where the run of digits from `pos` on ends, and where in it the one decimal point it may have
is; the first argument is the text from `pos` on. -/
def mainDigits : UStr → Nat → Option Nat → Nat × Option Nat
  | [], pos, decimalPos => (pos, decimalPos)
  | c :: rest, pos, decimalPos =>
    if isDigit c then mainDigits rest (pos + 1) decimalPos
    else if c = UChar.decimal && decimalPos.isNone then mainDigits rest (pos + 1) (some pos)
    else (pos, decimalPos)

/-- Where the run of digits from `pos` on ends. -/
def digitsEnd (text : UStr) (pos : Nat) : Nat := pos + ((text.drop pos).takeWhile isDigit).length

/-- Passes over leading characters that count for nothing, but never past `last`. -/
def skipInsignificant (insignificant : UChar → Bool) (text : UStr) (pos last : Nat) : Nat :=
  min last (pos + ((text.drop pos).takeWhile insignificant).length)

/-- The characters at `start` up to `stop`. -/
def slice (text : UStr) (start stop : Nat) : UStr := (text.take stop).drop start

def charAt (text : UStr) (pos : Nat) : UChar := text.getD pos 0

/-- The optional exponent at `pos`: where it ends, and the scale it makes. -/
def parseExponent (text : UStr) (pos : Nat) : Except Int (Nat × Int) :=
  if charAt text pos = UChar.upperE || charAt text pos = UChar.lowerE then
    let c := charAt text (pos + 1)
    let expSign : Int := if c = UChar.minus then -1 else 1
    let expStart := if c = UChar.minus || c = UChar.plus then pos + 2 else pos + 1
    let expEnd := digitsEnd text expStart
    if expEnd ≤ expStart then .error Code.invalidNumber
    else
      let exponent := (slice text expStart expEnd).foldl
        (fun (exponent : Int) (c : UChar) => toInt (exponent * 10 + ((c : Int) - 0x30))) 0
      .ok (expEnd, toInt (exponent * -expSign))
  else .ok (pos, 0)

/-- The optional uncertainty at `pos`: where it ends, and its digits. -/
def parseSu (text : UStr) (pos : Nat) : Except Int (Nat × Option UStr) :=
  if charAt text pos = UChar.open' then
    let suStart := pos + 1
    let suEnd := digitsEnd text suStart
    if suEnd ≤ suStart || charAt text suEnd ≠ UChar.close then .error Code.invalidNumber
    else
      let suStart := skipInsignificant (· = UChar.zero) text suStart (suEnd - 1)
      .ok (suEnd + 1, some (slice text suStart suEnd))
  else .ok (pos, none)

/-- `cif_value_parse_numb`. -/
def parseNumb (text : UStr) : Except Int Numb :=
  let sign : Int := if charAt text 0 = UChar.minus then -1 else 1
  let digitStart := if charAt text 0 = UChar.minus || charAt text 0 = UChar.plus then 1 else 0
  let (pos, decimalPos) := mainDigits (text.drop digitStart) digitStart none
  if pos ≤ digitStart + (if decimalPos.isSome then 1 else 0) then .error Code.invalidNumber
  else do
    -- a trailing decimal point counts for nothing, and so do leading zeroes
    let trailing := charAt text (pos - 1) = UChar.decimal
    let decimalPos := if trailing then none else decimalPos
    let digitEnd := if trailing then pos - 1 else pos
    let digitStart :=
      skipInsignificant (fun c => c = UChar.zero || c = UChar.decimal) text digitStart
      (digitEnd - 1)
    let (pos, scale) ← parseExponent text pos
    let scale := match decimalPos with
      | some decimalPos => toInt (scale + ((digitEnd : Int) - (decimalPos + 1)))
      | none => scale
    let (pos, suDigits) ← parseSu text pos
    if charAt text pos ≠ 0 then .error Code.invalidNumber
    else
      let digits := match decimalPos with
        | some decimalPos => slice text digitStart decimalPos
            ++ slice text (max digitStart (decimalPos + 1)) digitEnd
        | none => slice text digitStart digitEnd
      .ok { text, sign, digits, suDigits, scale }

example : parseNumb (units "-00.1200(012)") =
    .ok ⟨units "-00.1200(012)", -1, units "1200", some (units "12"), 4⟩ := by decide +kernel

theorem bind_eq_ok {α β : Type} {x : Except Int α} {f : α → Except Int β} {b : β} :
    (x >>= f) = .ok b ↔ ∃ a, x = .ok a ∧ f a = .ok b := by
  cases x <;> simp [bind, Except.bind]

/-- A number keeps the text it is read from. -/
theorem parseNumb_text {text : UStr} {number : Numb} (h : parseNumb text = .ok number) :
    number.text = text := by
  unfold parseNumb at h
  generalize (if charAt text 0 = UChar.minus || charAt text 0 = UChar.plus then 1 else 0)
    = digitStart at h
  dsimp only at h
  generalize mainDigits _ _ none = main at h
  obtain ⟨pos, decimalPos⟩ := main
  dsimp only at h
  generalize digitStart + (if decimalPos.isSome then 1 else 0) = least at h
  by_cases hshort : pos ≤ least
  · rw [if_pos hshort] at h
    cases h
  · rw [if_neg hshort] at h
    obtain ⟨exp, _, h⟩ := bind_eq_ok.mp h
    obtain ⟨su, _, h⟩ := bind_eq_ok.mp h
    by_cases hmore : charAt text su.1 ≠ 0
    · rw [if_pos hmore] at h
      cases h
    · rw [if_neg hmore] at h
      cases h
      rfl

end CifApi
