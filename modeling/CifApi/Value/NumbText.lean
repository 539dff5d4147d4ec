import CifApi.Value.Numb
import CifApi.Data.Numeral
import Mathlib.Algebra.Order.Field.Rat
import Mathlib.Data.Int.DivMod
import Mathlib.Tactic.FieldSimp
import Mathlib.Tactic.LinearCombination
import Mathlib.Tactic.NormNum
import Mathlib.Tactic.Positivity

/-! The syntax of CIF numbers, and what reading a text of it records. -/
namespace CifApi

/-- The number that a string of decimal digits denotes. -/
def ofDigits (digits : UStr) : Nat := Numeral.value 10 (digits.map (· - UChar.zero))

theorem ofDigits_lt {s : UStr} (h : ∀ c ∈ s, isDigit c = true) : ofDigits s < 10 ^ s.length := by
  have hlt := Numeral.value_lt (b := 10) (l := s.map (· - UChar.zero)) (by decide) (by
    intro c hc
    obtain ⟨u, hu, rfl⟩ := List.mem_map.mp hc
    have hdigit := h u hu
    simp only [isDigit, Bool.and_eq_true, decide_eq_true_eq] at hdigit
    have hzero : 48 ≤ (u : Nat) := hdigit.1
    have hnine : (u : Nat) ≤ 57 := hdigit.2
    show (u : Nat) - 48 < 10
    omega)
  rwa [List.length_map] at hlt

/-- A sign, or none. -/
def IsSign (sign : Option UChar) : Prop := ∀ c ∈ sign, c = UChar.minus ∨ c = UChar.plus

def signOf (sign : Option UChar) : Int := if sign = some UChar.minus then -1 else 1

/-- An exponent: its mark, an optional sign, and digits. -/
structure Exponent where
  mark : UChar
  sign : Option UChar
  digits : UStr
  mark_eq : mark = UChar.upperE ∨ mark = UChar.lowerE
  sign_eq : IsSign sign
  digits_eq : ∀ c ∈ digits, isDigit c = true
  digits_ne : digits ≠ []

namespace Exponent

def text (e : Exponent) : UStr := e.mark :: (e.sign.toList ++ e.digits)

def value (e : Exponent) : Int := signOf e.sign * ofDigits e.digits

end Exponent

/-- Digits, with the decimal point where there is one. -/
def mainPart (whole : UStr) (fraction : Option UStr) : UStr := whole ++ fraction.elim []
    (UChar.decimal :: ·)

/-- A number: an optional sign, digits with at most one decimal point, and optionally an exponent
and an uncertainty in parentheses. -/
structure NumbText where
  sign : Option UChar
  whole : UStr
  fraction : Option UStr
  exponent : Option Exponent
  su : Option UStr
  sign_eq : IsSign sign
  whole_eq : ∀ c ∈ whole, isDigit c = true
  fraction_eq : ∀ f ∈ fraction, ∀ c ∈ f, isDigit c = true
  digits_ne : whole ++ fraction.getD [] ≠ []
  su_eq : ∀ s ∈ su, s ≠ [] ∧ ∀ c ∈ s, isDigit c = true

namespace NumbText

def mainText (t : NumbText) : UStr := mainPart t.whole t.fraction

def expText (t : NumbText) : UStr := t.exponent.elim [] Exponent.text

def suText (t : NumbText) : UStr := t.su.elim [] fun s => UChar.open' :: (s ++ [UChar.close])

def text (t : NumbText) : UStr := t.sign.toList ++ (t.mainText ++ (t.expText ++ t.suText))

/-- All digits of the number, those after the point included. -/
def digits (t : NumbText) : UStr := t.whole ++ t.fraction.getD []

def expValue (t : NumbText) : Int := t.exponent.elim 0 Exponent.value

/-- How many decimal places the last digit is after the point. -/
def scale (t : NumbText) : Int := (t.fraction.getD []).length - t.expValue

/-- The number denoted. -/
def number (t : NumbText) : ℚ :=
  signOf t.sign
    * (ofDigits t.whole
      + ofDigits (t.fraction.getD []) * (10 : ℚ) ^ (-((t.fraction.getD []).length : ℤ)))
    * (10 : ℚ) ^ t.expValue

/-- The uncertainty denoted, which is in units of the last digit. -/
def uncertainty (t : NumbText) : Option ℚ :=
  t.su.map fun s =>
    ofDigits s * (10 : ℚ) ^ (-((t.fraction.getD []).length : ℤ)) * (10 : ℚ) ^ t.expValue

/-- Nothing but zeroes, which are the same at every scale. -/
def Zero (t : NumbText) : Prop := ofDigits t.digits = 0 ∧ ∀ s ∈ t.su, ofDigits s = 0

/-- The scale is one an `int` can hold. -/
def ScaleFits (t : NumbText) : Prop := -2 ^ 31 ≤ t.scale ∧ t.scale < 2 ^ 31

end NumbText

/-- Decimal digits, at least one, and more than one only after one that is not zero. -/
structure IsNumeral (digits : UStr) : Prop where
  digits_eq : ∀ c ∈ digits, isDigit c = true
  digits_ne : digits ≠ []
  minimal : digits.head? = some UChar.zero → digits.length = 1

namespace Numb

/-- What the sign, the digits and the scale denote. -/
def denoted (number : Numb) : ℚ := number.sign * ofDigits number.digits * (10 : ℚ) ^ (-number.scale)

def suDenoted (number : Numb) : Option ℚ :=
  number.suDigits.map fun s => ofDigits s * (10 : ℚ) ^ (-number.scale)

/-- The fields are those of a number text. -/
structure Records (number : Numb) (t : NumbText) : Prop where
  text : number.text = t.text
  digits : IsNumeral number.digits
  suDigits : ∀ s ∈ number.suDigits, IsNumeral s
  denoted : number.denoted = t.number
  suDenoted : number.suDenoted = t.uncertainty

end Numb

/-- `cif_value_parse_numb` on a value: the code it answers, and the value after it. -/
def Value.parseAsNumb (n : Value) (text : UStr) : Int × Value :=
  match CifApi.parseNumb text with
  | .ok number => (Code.ok, .numb number false)
  | .error code => (code, n)

/-- Exactly the number texts are accepted, for the numbers they denote, and nothing else touches the
value. -/
structure Value.ParsesExactly (n : Value) (text : UStr) : Prop where
  accepts : (n.parseAsNumb text).1 = Code.ok ↔ ∃ t : NumbText, t.text = text
  records : ∀ t : NumbText, t.text = text → ∃ number : Numb,
    (n.parseAsNumb text).2 = .numb number false ∧ number.Records t
  unchanged : (n.parseAsNumb text).1 ≠ Code.ok → (n.parseAsNumb text).2 = n

section Strings

variable {pre post l t : UStr} {p : UChar → Bool}

theorem charAt_append (pre l : UStr) (i : Nat) :
    charAt (pre ++ l) (pre.length + i) = charAt l i := by
  unfold charAt
  simp [List.getD_eq_getElem?_getD, List.getElem?_append_right]

theorem charAt_append_zero (pre l : UStr) : charAt (pre ++ l) pre.length = charAt l 0 :=
  charAt_append pre l 0

theorem drop_length_add (pre l : UStr) (i : Nat) : (pre ++ l).drop (pre.length + i) = l.drop i := by
  rw [← List.drop_drop, List.drop_left]

theorem slice_append (pre l post : UStr) (i : Nat) :
    slice (pre ++ (l ++ post)) (pre.length + i) (pre.length + l.length) = l.drop i := by
  rw [slice, ← List.append_assoc, ← List.length_append, List.take_left, drop_length_add]

theorem slice_of_le {start stop : Nat} (text : UStr) (h : stop ≤ start) :
    slice text start stop = [] := by
  rw [slice, List.drop_eq_nil_iff]
  exact (List.length_take_le ..).trans h

theorem takeWhile_append_of_stop (h : ∀ a ∈ l, p a = true) (hstop : p (charAt t 0) = false) :
    (l ++ t).takeWhile p = l := by
  rw [List.takeWhile_append_of_pos h]
  cases t with
  | nil => simp
  | cons a t => rw [List.takeWhile_cons_of_neg (by simpa [charAt] using hstop), List.append_nil]

/-- Passing over insignificant characters within the digits does not depend on what follows them. -/
theorem skipInsignificant_append (hne : l ≠ []) (pre post : UStr) :
    skipInsignificant p (pre ++ (l ++ post)) pre.length (pre.length + l.length - 1)
      = pre.length + min (l.length - 1) (l.takeWhile p).length := by
  have hpos := List.length_pos_iff.mpr hne
  have hrun : min (l.length - 1) ((l ++ post).takeWhile p).length
      = min (l.length - 1) (l.takeWhile p).length := by
    rw [List.takeWhile_append]
    split
    · rename_i hall
      rw [List.length_append]
      omega
    · rfl
  rw [skipInsignificant, List.drop_left]
  omega

theorem digitsEnd_append (h : ∀ a ∈ l, isDigit a = true) (hstop : isDigit (charAt post 0) = false)
    (pre : UStr) :
    digitsEnd (pre ++ (l ++ post)) pre.length = pre.length + l.length := by
  rw [digitsEnd, List.drop_left, takeWhile_append_of_stop h hstop]

/-- Every text goes on with digits up to something else. -/
theorem exists_digits (l : UStr) :
    ∃ w post, l = w ++ post ∧ (∀ c ∈ w, isDigit c = true) ∧ isDigit (charAt post 0) = false := by
  refine ⟨l.takeWhile isDigit, l.dropWhile isDigit, (List.takeWhile_append_dropWhile).symm, ?_, ?_⟩
  · intro c hc
    exact List.mem_takeWhile_imp hc
  · cases hrest : l.dropWhile isDigit with
    | nil => rfl
    | cons c post =>
      have hhead := @List.head_dropWhile_not _ isDigit l (hrest ▸ List.cons_ne_nil _ _)
      simpa [hrest, charAt] using hhead

end Strings

section Wrapping

theorem toInt_eq_iff {n : Int} : toInt n = n ↔ -2 ^ 31 ≤ n ∧ n < 2 ^ 31 := by
  unfold toInt
  constructor
  · intro h
    have hle := Int.le_bmod (x := n) (m := 2 ^ 32) (by norm_num)
    have hlt := Int.bmod_lt (x := n) (m := 2 ^ 32) (by norm_num)
    rw [h] at hle hlt
    norm_num at hle hlt ⊢
    omega
  · intro h
    apply Int.bmod_eq_of_le <;> omega

theorem toInt_toInt_mul_add (a b c : Int) : toInt (toInt a * b + c) = toInt (a * b + c) := by
  unfold toInt
  rw [Int.bmod_add_cancel_right, Int.bmod_mul_bmod]

theorem toInt_toInt_add (a b : Int) : toInt (toInt a + b) = toInt (a + b) := by
  simpa using toInt_toInt_mul_add a 1 b

theorem toInt_toInt_mul (a b : Int) : toInt (toInt a * b) = toInt (a * b) := by
  simpa using toInt_toInt_mul_add a b 0

theorem ofDigits_append (s t : UStr) :
    ofDigits (s ++ t) = ofDigits s * 10 ^ t.length + ofDigits t := by
  simp [ofDigits, Numeral.value_append]

theorem ofDigits_dropLeading (s : UStr) :
    ofDigits (Numeral.dropLeading UChar.zero s) = ofDigits s := by
  obtain ⟨n, hn⟩ := Numeral.exists_dropLeading UChar.zero s
  have hzero : ofDigits (List.replicate n UChar.zero) = 0 := by
    rw [ofDigits, List.map_replicate]
    exact Numeral.value_replicate_zero 10 n
  conv_rhs => rw [hn, ofDigits_append, hzero, Nat.zero_mul, Nat.zero_add]

/-- Reading the digits of an exponent wraps once in effect. -/
theorem foldl_exponent {l : UStr} (h : ∀ c ∈ l, isDigit c = true) (n : Int) :
    l.foldl (fun (exponent : Int) (c : UChar) => toInt (exponent * 10 + ((c : Int) - 0x30)))
      (toInt n)
      = toInt (n * 10 ^ l.length + ofDigits l) := by
  induction l generalizing n with
  | nil => simp [ofDigits]
  | cons c l ih =>
    have hc : UChar.zero ≤ c := by
      have hdigit := h c (List.mem_cons_self ..)
      simp only [isDigit, Bool.and_eq_true, decide_eq_true_eq] at hdigit
      exact hdigit.1
    have hvalue : (ofDigits (c :: l) : Int) = ((c : Int) - 0x30) * 10 ^ l.length + ofDigits l := by
      have hsub : ((c - UChar.zero : Nat) : Int) = (c : Int) - 0x30 := by
        push_cast [Nat.cast_sub hc]
        rfl
      rw [ofDigits, List.map_cons, Numeral.value_cons, List.length_map]
      push_cast [hsub]
      rfl
    rw [List.foldl_cons, toInt_toInt_mul_add, ih fun d hd => h d (List.mem_cons_of_mem _ hd),
      hvalue, List.length_cons]
    congr 1
    ring

end Wrapping

section Reading

variable {l rest w post pre tail : UStr} {sign : Option UChar} {fraction : Option UStr}

/-- A text that begins with an optional sign; what follows none is not one. -/
structure Signed (l : UStr) (sign : Option UChar) (rest : UStr) : Prop where
  eq : l = sign.toList ++ rest
  isSign : IsSign sign
  minus : charAt l 0 = UChar.minus ↔ sign = some UChar.minus
  isSome : (charAt l 0 = UChar.minus ∨ charAt l 0 = UChar.plus) ↔ sign.isSome = true

theorem Signed.of_some {c : UChar} (hc : c = UChar.minus ∨ c = UChar.plus) (rest : UStr) :
    Signed (c :: rest) (some c) rest := by
  refine ⟨rfl, ?_, ?_, ?_⟩
  · intro d hd
    cases hd
    exact hc
  · simp [charAt]
  · simpa [charAt] using hc

theorem Signed.of_none (h : ¬ (charAt rest 0 = UChar.minus ∨ charAt rest 0 = UChar.plus)) :
    Signed rest none rest := by
  refine ⟨rfl, ?_, ?_, ?_⟩
  · intro d hd
    cases hd
  · rw [not_or] at h
    simp [h.1]
  · simpa using h

theorem Signed.of_isSign (hs : IsSign sign)
    (h : ¬ (charAt rest 0 = UChar.minus ∨ charAt rest 0 = UChar.plus)) :
    Signed (sign.toList ++ rest) sign rest := by
  cases sign with
  | none => exact .of_none h
  | some c => exact .of_some (hs c rfl) rest

theorem exists_signed (l : UStr) : ∃ sign rest, Signed l sign rest := by
  by_cases h : charAt l 0 = UChar.minus ∨ charAt l 0 = UChar.plus
  · cases l with
    | nil => simp [charAt] at h
    | cons c rest => exact ⟨some c, rest, .of_some h rest⟩
  · exact ⟨none, l, .of_none h⟩

theorem Signed.signOf (h : Signed l sign rest) :
    (if charAt l 0 = UChar.minus then -1 else 1 : Int) = signOf sign := by
  by_cases hm : sign = some UChar.minus
  · rw [if_pos (h.minus.mpr hm), CifApi.signOf, if_pos hm]
  · rw [if_neg (mt h.minus.mp hm), CifApi.signOf, if_neg hm]

theorem Signed.length (h : Signed l sign rest) (n : Nat) :
    (if charAt l 0 = UChar.minus || charAt l 0 = UChar.plus then n + 1 else n)
      = n + sign.toList.length := by
  cases sign with
  | none =>
    have hnot := mt h.isSome.mp (by simp)
    simpa using hnot
  | some c =>
    have hsome := h.isSome.mpr rfl
    rw [if_pos (by simpa [or_iff_not_imp_left] using hsome)]
    rfl

/-- Where the exponent ends and what it does to the scale. -/
theorem parseExponent_mark {c : UChar} (hc : c = UChar.upperE ∨ c = UChar.lowerE)
    (h : Signed tail sign (w ++ post)) (hw : ∀ c ∈ w, isDigit c = true)
    (hstop : isDigit (charAt post 0) = false) (pre : UStr) :
    parseExponent (pre ++ c :: tail) pre.length
      = if w = [] then .error Code.invalidNumber
        else .ok (pre.length + 1 + sign.toList.length + w.length,
          toInt (-(signOf sign * ofDigits w))) := by
  have hmark : charAt (pre ++ c :: tail) pre.length = c := charAt_append_zero pre (c :: tail)
  have hhead : charAt (pre ++ c :: tail) (pre.length + 1) = charAt tail 0 :=
    charAt_append pre (c :: tail) 1
  have hstart : (pre ++ c :: sign.toList).length = pre.length + 1 + sign.toList.length := by
    simp only [List.length_append, List.length_cons]
    omega
  have htext : pre ++ c :: tail = (pre ++ c :: sign.toList) ++ (w ++ post) := by
    rw [h.eq, List.append_assoc, List.cons_append]
  have hend := digitsEnd_append hw hstop (pre ++ c :: sign.toList)
  rw [← htext, hstart] at hend
  have hslice := slice_append (pre ++ c :: sign.toList) w post 0
  rw [← htext, hstart, List.drop_zero, Nat.add_zero] at hslice
  have hlen := h.length (pre.length + 1)
  unfold parseExponent
  rw [hmark, if_pos (by simpa using hc), hhead]
  simp only [hlen, hend]
  by_cases hne : w = []
  · rw [if_pos hne, if_pos (by simp [hne])]
  · have hpos := List.length_pos_iff.mpr hne
    have hfold := foldl_exponent hw 0
    have hzero : toInt 0 = 0 := by decide
    rw [hzero, Int.zero_mul, Int.zero_add] at hfold
    rw [if_neg hne, if_neg (by omega), hslice, hfold, toInt_toInt_mul, h.signOf, Int.mul_neg,
      Int.mul_comm]

theorem parseExponent_none (h : ¬ (charAt tail 0 = UChar.upperE ∨ charAt tail 0 = UChar.lowerE))
    (pre : UStr) :
    parseExponent (pre ++ tail) pre.length = .ok (pre.length, 0) := by
  unfold parseExponent
  rw [charAt_append_zero, if_neg (by simpa using h)]

/-- Where the uncertainty ends, and its digits. -/
theorem parseSu_open (hw : ∀ c ∈ w, isDigit c = true) (hstop : isDigit (charAt post 0) = false)
    (pre : UStr) :
    parseSu (pre ++ UChar.open' :: (w ++ post)) pre.length
      = if w = [] ∨ charAt post 0 ≠ UChar.close then .error Code.invalidNumber
        else .ok (pre.length + 1 + w.length + 1, some (Numeral.dropLeading UChar.zero w)) := by
  have hmark : charAt (pre ++ UChar.open' :: (w ++ post)) pre.length = UChar.open' :=
    charAt_append_zero pre (UChar.open' :: (w ++ post))
  have hstart : (pre ++ [UChar.open']).length = pre.length + 1 := by simp
  have htext : pre ++ UChar.open' :: (w ++ post) = (pre ++ [UChar.open']) ++ (w ++ post) := by simp
  have hend := digitsEnd_append hw hstop (pre ++ [UChar.open'])
  have hclose := charAt_append (pre ++ [UChar.open'] ++ w) post 0
  rw [List.append_assoc, ← htext, Nat.add_zero, List.length_append, hstart] at hclose
  rw [← htext, hstart] at hend
  unfold parseSu
  rw [hmark, if_pos rfl]
  simp only [hend, hclose]
  by_cases hne : w = []
  · rw [if_pos (by simp [hne]), if_pos (.inl hne)]
  · have hpos := List.length_pos_iff.mpr hne
    have hskip := skipInsignificant_append (p := (· = UChar.zero)) hne (pre ++ [UChar.open']) post
    rw [← htext, hstart] at hskip
    have hslice := slice_append (pre ++ [UChar.open']) w post
      (min (w.length - 1) (w.takeWhile (· = UChar.zero)).length)
    rw [← htext, hstart, ← Numeral.dropLeading_eq_drop] at hslice
    by_cases hcl : charAt post 0 = UChar.close
    · rw [if_neg (by simp [hcl]; omega), if_neg (by simp [hne, hcl]), hskip, hslice]
    · rw [if_pos (by simp [hcl]), if_pos (.inr hcl)]

theorem parseSu_none (h : charAt tail 0 ≠ UChar.open') (pre : UStr) :
    parseSu (pre ++ tail) pre.length = .ok (pre.length, none) := by
  unfold parseSu
  rw [charAt_append_zero, if_neg h]

end Reading

section Main

variable {l whole post pre tail f : UStr} {sign : Option UChar} {fraction : Option UStr}

theorem isDigit_decimal : isDigit UChar.decimal = false := by decide

theorem mainDigits_digits (h : ∀ c ∈ whole, isDigit c = true) (l : UStr) (pos : Nat)
    (decimalPos : Option Nat) :
    mainDigits (whole ++ l) pos decimalPos = mainDigits l (pos + whole.length) decimalPos := by
  induction whole generalizing pos with
  | nil => rfl
  | cons c whole ih =>
    rw [List.cons_append, mainDigits, if_pos (h c (List.mem_cons_self ..)),
      ih (fun d hd => h d (List.mem_cons_of_mem _ hd)), List.length_cons]
    congr 1
    omega

theorem mainDigits_stop {decimalPos : Option Nat} (hstop : isDigit (charAt post 0) = false)
    (hpoint : decimalPos = none → charAt post 0 ≠ UChar.decimal) (pos : Nat) :
    mainDigits post pos decimalPos = (pos, decimalPos) := by
  cases post with
  | nil => rfl
  | cons c post =>
    have hc : isDigit c = false := hstop
    rw [mainDigits, if_neg (by simp [hc]), if_neg]
    intro hdec
    simp only [Bool.and_eq_true, decide_eq_true_eq, Option.isNone_iff_eq_none] at hdec
    exact hpoint hdec.2 hdec.1

/-- Digits with a decimal point among them at most, which something else follows. -/
structure MainPart (whole : UStr) (fraction : Option UStr) (tail : UStr) : Prop where
  whole_eq : ∀ c ∈ whole, isDigit c = true
  fraction_eq : ∀ f ∈ fraction, ∀ c ∈ f, isDigit c = true
  stop : isDigit (charAt tail 0) = false
  point : fraction = none → charAt tail 0 ≠ UChar.decimal

theorem exists_mainPart (l : UStr) : ∃ whole fraction tail, l = mainPart whole fraction ++ tail
    ∧ MainPart whole fraction tail := by
  obtain ⟨whole, post, rfl, hwhole, hstop⟩ := exists_digits l
  by_cases hpoint : charAt post 0 = UChar.decimal
  · cases post with
    | nil => simp [charAt] at hpoint
    | cons c post =>
      have hc : c = UChar.decimal := hpoint
      obtain ⟨f, tail, rfl, hf, hend⟩ := exists_digits post
      refine ⟨whole, some f, tail, by simp [mainPart, hc], hwhole, ?_, hend, by simp⟩
      intro g hg
      cases hg
      exact hf
  · refine ⟨whole, none, post, by simp [mainPart], hwhole, ?_, hstop, fun _ => hpoint⟩
    intro g hg
    cases hg

theorem MainPart.mainDigits (h : MainPart whole fraction tail) (pos : Nat) :
    CifApi.mainDigits (mainPart whole fraction ++ tail) pos none
      = (pos + (mainPart whole fraction).length, fraction.map fun _ => pos + whole.length) := by
  rw [mainPart, List.append_assoc, mainDigits_digits h.whole_eq]
  cases fraction with
  | none => simp [mainDigits_stop h.stop fun _ => h.point rfl]
  | some f =>
    have hf := h.fraction_eq f rfl
    rw [Option.elim_some, List.cons_append, CifApi.mainDigits, if_neg (by simp [isDigit_decimal]),
      if_pos (by decide), mainDigits_digits hf, mainDigits_stop h.stop (by simp)]
    simp only [List.length_append, List.length_cons, Option.map_some]
    congr 1
    omega

end Main

section Digits

variable {whole f pre post tail text : UStr} {sign : Option UChar} {fraction : Option UStr}

theorem takeWhile_insignificant (h : ∀ c ∈ whole, isDigit c = true) :
    whole.takeWhile (fun c => c = UChar.zero || c = UChar.decimal)
      = whole.takeWhile (· = UChar.zero) := by
  induction whole with
  | nil => rfl
  | cons c whole ih =>
    have hne : c ≠ UChar.decimal := by
      rintro rfl
      exact absurd (h _ (List.mem_cons_self ..)) (by simp [isDigit_decimal])
    simp only [List.takeWhile_cons, hne, decide_false, Bool.or_false,
      ih fun d hd => h d (List.mem_cons_of_mem _ hd)]

/-- The digits of a number without places after the point. -/
theorem slice_whole (hw : ∀ c ∈ whole, isDigit c = true) (hne : whole ≠ []) (pre post : UStr) :
    slice (pre ++ (whole ++ post))
      (skipInsignificant (fun c => c = UChar.zero
        || c = UChar.decimal) (pre ++ (whole ++ post)) pre.length
        (pre.length + whole.length - 1)) (pre.length + whole.length)
      = Numeral.dropLeading UChar.zero whole := by
  rw [skipInsignificant_append hne, slice_append, takeWhile_insignificant hw,
    ← Numeral.dropLeading_eq_drop]

theorem slice_fraction (pre whole f post : UStr) (i : Nat) :
    slice (pre ++ ((whole ++ UChar.decimal :: f) ++ post)) (pre.length + whole.length + 1 + i)
      (pre.length + (whole ++ UChar.decimal :: f).length) = f.drop i := by
  have htext : pre ++ ((whole ++ UChar.decimal :: f) ++ post)
      = (pre ++ whole ++ [UChar.decimal]) ++ (f ++ post) := by
    simp
  have hlen : (pre ++ whole ++ [UChar.decimal]).length = pre.length + whole.length + 1 := by
    simp [Nat.add_assoc]
  have hstop : pre.length + (whole ++ UChar.decimal :: f).length
      = pre.length + whole.length + 1 + f.length := by
    rw [List.length_append, List.length_cons]
    omega
  rw [htext, hstop, ← hlen, slice_append]

/-- The digits of a number with places after the point. -/
theorem slice_point (hw : ∀ c ∈ whole, isDigit c = true) (hf : ∀ c ∈ f, isDigit c = true)
    (hne : f ≠ []) (pre post : UStr) {start : Nat}
    (hstart : start = skipInsignificant (fun c => c = UChar.zero || c = UChar.decimal)
      (pre ++ ((whole ++ UChar.decimal :: f) ++ post)) pre.length
      (pre.length + (whole ++ UChar.decimal :: f).length - 1)) :
    slice (pre ++ ((whole ++ UChar.decimal :: f) ++ post)) start (pre.length + whole.length)
      ++ slice (pre ++ ((whole ++ UChar.decimal :: f) ++ post))
      (max start (pre.length + whole.length + 1))
        (pre.length + (whole ++ UChar.decimal :: f).length)
      = Numeral.dropLeading UChar.zero (whole ++ f) := by
  have hpos := List.length_pos_iff.mpr hne
  have hlen : (whole ++ UChar.decimal :: f).length = whole.length + f.length + 1 := by
    rw [List.length_append, List.length_cons, Nat.add_assoc]
  rw [skipInsignificant_append (List.append_ne_nil_of_right_ne_nil _ (List.cons_ne_nil _ _)), hlen,
    Nat.add_sub_cancel] at hstart
  by_cases hzero : ∀ c ∈ whole, c = UChar.zero
  · -- only digits after the point count
    have hrun : (whole ++ UChar.decimal :: f).takeWhile (fun c =>
        c = UChar.zero || c = UChar.decimal)
        = whole ++ UChar.decimal :: f.takeWhile (· = UChar.zero) := by
      rw [List.takeWhile_append_of_pos fun c hc => by simp [hzero c hc],
        List.takeWhile_cons_of_pos (by simp), takeWhile_insignificant hf]
    have hrunlen : (whole ++ UChar.decimal :: f.takeWhile (· = UChar.zero)).length
        = whole.length + (f.takeWhile (· = UChar.zero)).length + 1 := by
      rw [List.length_append, List.length_cons, Nat.add_assoc]
    have hmax : start = pre.length + whole.length + 1
        + min (f.length - 1) (f.takeWhile (· = UChar.zero)).length := by
      rw [hstart, hrun, hrunlen]
      omega
    rw [slice_of_le _ (by omega), List.nil_append, Nat.max_eq_left (by omega), hmax, slice_fraction,
      Numeral.dropLeading_append hne hzero, Numeral.dropLeading_eq_drop]
  · -- the first digit that counts is before the point
    have hlt : (whole.takeWhile (· = UChar.zero)).length < whole.length := by
      by_contra hge
      apply hzero
      intro c hc
      have hsub := List.takeWhile_sublist (l := whole) (· = UChar.zero)
      rw [← hsub.eq_of_length_le (Nat.le_of_not_lt hge)] at hc
      simpa using List.mem_takeWhile_imp hc
    have hrun : ∀ rest : UStr,
        ((whole ++ rest).takeWhile (fun c => c = UChar.zero || c = UChar.decimal)).length
        = (whole.takeWhile (· = UChar.zero)).length := by
      intro rest
      rw [List.takeWhile_append, if_neg, takeWhile_insignificant hw]
      rw [takeWhile_insignificant hw]
      omega
    have hrunzero : ((whole ++ f).takeWhile (· = UChar.zero)).length
        = (whole.takeWhile (· = UChar.zero)).length := by
      rw [List.takeWhile_append, if_neg (by omega)]
    have heq : start = pre.length + (whole.takeWhile (· = UChar.zero)).length := by
      rw [hstart, hrun]
      omega
    have hfirst :=
      slice_append pre whole (UChar.decimal :: f ++ post) (whole.takeWhile (· = UChar.zero)).length
    have hassoc : pre ++ (whole ++ (UChar.decimal :: f ++ post))
        = pre ++ ((whole ++ UChar.decimal :: f) ++ post) := by
      simp
    have hsecond := slice_fraction pre whole f post 0
    rw [hassoc, ← heq] at hfirst
    rw [Nat.add_zero, List.drop_zero, hlen] at hsecond
    rw [Nat.max_eq_right (by omega), hlen, hfirst, hsecond, Numeral.dropLeading_eq_drop, hrunzero,
      List.length_append,
      Nat.min_eq_right (by omega), List.drop_append_of_le_length (Nat.le_of_lt hlt)]

end Digits

section Reading

variable {whole f pre post tail text : UStr} {sign : Option UChar} {fraction : Option UStr}

theorem charAt_last (pre l post : UStr) (c : UChar) :
    charAt (pre ++ ((l ++ [c]) ++ post)) (pre.length + (l ++ [c]).length - 1) = c := by
  have htext : pre ++ ((l ++ [c]) ++ post) = (pre ++ l) ++ (c :: post) := by simp
  have hpos : pre.length + (l ++ [c]).length - 1 = (pre ++ l).length := by
    rw [List.length_append, List.length_singleton, List.length_append]
    omega
  rw [htext, hpos, charAt_append_zero]
  rfl

/-- A point is the last of the digits only if it has none after it. -/
theorem trailing_iff (hw : ∀ c ∈ whole, isDigit c = true)
    (hf : ∀ f ∈ fraction, ∀ c ∈ f, isDigit c = true) (hne : whole ++ fraction.getD [] ≠ [])
    (pre tail : UStr) :
    charAt (pre ++ (mainPart whole fraction ++ tail))
      (pre.length + (mainPart whole fraction).length - 1)
      = UChar.decimal ↔ fraction = some [] := by
  have hdigit : ∀ c, isDigit c = true → c ≠ UChar.decimal := by
    rintro c hc rfl
    simp [isDigit_decimal] at hc
  cases fraction with
  | none =>
    obtain ⟨l, c, rfl⟩ := (List.eq_nil_or_concat' whole).resolve_left (by simpa using hne)
    have hlast := hdigit c (hw c (by simp))
    have hmain : mainPart (l ++ [c]) none = l ++ [c] := by simp [mainPart]
    rw [hmain, charAt_last]
    simpa using hlast
  | some f =>
    rcases List.eq_nil_or_concat' f with rfl | ⟨l, c, rfl⟩
    · have hmain : mainPart whole (some []) = whole ++ [UChar.decimal] := by simp [mainPart]
      rw [hmain, charAt_last]
      simp
    · have hlast := hdigit c (hf _ rfl c (by simp))
      have hmain : mainPart whole (some (l ++ [c])) = (whole ++ UChar.decimal :: l) ++ [c] := by
        simp [mainPart]
      rw [hmain, charAt_last]
      simpa using hlast

theorem length_mainPart (whole : UStr) (fraction : Option UStr) :
    (mainPart whole fraction).length
      = (whole ++ fraction.getD []).length + if fraction.isSome then 1 else 0 := by
  cases fraction with
  | none => simp [mainPart]
  | some f => simp [mainPart, Nat.add_assoc]

/-- What the parser does with a text, by its sign and its digits. -/
theorem parseNumb_eq (hsign : Signed text sign (mainPart whole fraction ++ tail))
    (h : MainPart whole fraction tail) :
    parseNumb text
      = if whole ++ fraction.getD [] = [] then .error Code.invalidNumber
        else (do
          let (pos, scale) ← parseExponent text
            (sign.toList.length + (mainPart whole fraction).length)
          let (pos, suDigits) ← parseSu text pos
          if charAt text pos ≠ 0 then .error Code.invalidNumber
          else .ok {
            text, sign := signOf sign
            digits := Numeral.dropLeading UChar.zero (whole ++ fraction.getD [])
            suDigits
            scale := if fraction.getD [] = [] then scale
              else toInt (scale + (fraction.getD []).length) }) := by
  have hstart := hsign.length 0
  rw [Nat.zero_add, Nat.zero_add] at hstart
  have hmain := h.mainDigits sign.toList.length
  have hdrop : text.drop sign.toList.length = mainPart whole fraction ++ tail := by
    rw [hsign.eq, List.drop_left]
  have hlen := length_mainPart whole fraction
  unfold parseNumb
  simp only [hstart, hsign.signOf, hdrop, hmain, Option.isSome_map]
  by_cases hne : whole ++ fraction.getD [] = []
  · rw [if_pos hne, if_pos]
    rw [hlen, hne]
    simp
  · have hpos := List.length_pos_iff.mpr hne
    have htrail := trailing_iff h.whole_eq h.fraction_eq hne sign.toList tail
    rw [← hsign.eq] at htrail
    rw [if_neg hne, if_neg (by omega)]
    cases fraction with
    | none =>
      have hwhole : mainPart whole none = whole := by simp [mainPart]
      have hnot := mt htrail.mp (by simp)
      have hdigits := slice_whole h.whole_eq (by simpa using hne) sign.toList tail
      have htext := hsign.eq
      rw [hwhole] at hnot htext
      rw [← htext] at hdigits
      simp only [hwhole, Option.map_none, hnot, if_false, Option.getD_none, List.append_nil,
        hdigits, if_true]
    | some f =>
      by_cases hf : f = []
      · subst hf
        have hlast : sign.toList.length + (mainPart whole (some [])).length - 1
            = sign.toList.length + whole.length := by
          rw [hlen]
          simp
        have htext : text = sign.toList ++ (whole ++ (UChar.decimal :: tail)) := by
          rw [hsign.eq]
          simp [mainPart]
        have hyes := htrail.mpr rfl
        have hdigits :=
          slice_whole h.whole_eq (by simpa using hne) sign.toList (UChar.decimal :: tail)
        rw [← htext] at hdigits
        rw [hlast] at hyes
        simp only [hlast, hyes, if_true, hdigits, Option.getD_some, List.append_nil]
      · have hnot := mt htrail.mp (by simpa using hf)
        have hdigits := slice_point h.whole_eq (h.fraction_eq f rfl) hf sign.toList tail rfl
        have htext : sign.toList ++ (whole ++ UChar.decimal :: f ++ tail) = text := hsign.eq.symm
        have hmainlen : (whole ++ UChar.decimal :: f).length = (mainPart whole (some f)).length :=
          rfl
        have hplaces : (((sign.toList.length + (mainPart whole (some f)).length : Nat) : Int)
            - ((sign.toList.length + whole.length : Nat) + 1)) = f.length := by
          rw [hlen]
          simp
          omega
        rw [htext, hmainlen] at hdigits
        simp only [hnot, if_false, Option.map_some, Option.getD_some, hf, hplaces, hdigits]

end Reading

section Grammar

variable {pre tail text : UStr} {number : Numb}

theorem exists_exponent {end' : Nat × Int} (h : parseExponent (pre ++ tail) pre.length = .ok end') :
    ∃ (e : Option Exponent) (post : UStr), tail = e.elim [] Exponent.text ++ post
      ∧ end'.1 = pre.length + (e.elim [] Exponent.text).length := by
  by_cases hmark : charAt tail 0 = UChar.upperE ∨ charAt tail 0 = UChar.lowerE
  · cases tail with
    | nil => simp [charAt] at hmark
    | cons c tail =>
      obtain ⟨sign, rest, hsign⟩ := exists_signed tail
      obtain ⟨w, post, rfl, hw, hstop⟩ := exists_digits rest
      have hc : c = UChar.upperE ∨ c = UChar.lowerE := hmark
      rw [parseExponent_mark hc hsign hw hstop] at h
      by_cases hne : w = []
      · rw [if_pos hne] at h
        cases h
      · rw [if_neg hne] at h
        cases h
        refine ⟨some ⟨c, sign, w, hc, hsign.isSign, hw, hne⟩, post, ?_, ?_⟩
        · simp [Exponent.text, hsign.eq]
        · simp only [Option.elim_some, Exponent.text, List.length_cons, List.length_append]
          omega
  · rw [parseExponent_none hmark] at h
    cases h
    exact ⟨none, tail, rfl, rfl⟩

theorem exists_su {end' : Nat × Option UStr} (h : parseSu (pre ++ tail) pre.length = .ok end') :
    ∃ (su : Option UStr) (post : UStr), (∀ s ∈ su, s ≠ [] ∧ ∀ c ∈ s, isDigit c = true)
      ∧ tail = su.elim [] (fun s => UChar.open' :: (s ++ [UChar.close])) ++ post
      ∧ end'.1 = pre.length + (su.elim [] fun s => UChar.open' :: (s ++ [UChar.close])).length := by
  by_cases hopen : charAt tail 0 = UChar.open'
  · cases tail with
    | nil => simp [charAt] at hopen
    | cons c tail =>
      have hc : c = UChar.open' := hopen
      obtain ⟨w, post, rfl, hw, hstop⟩ := exists_digits tail
      subst hc
      rw [parseSu_open hw hstop] at h
      by_cases hbad : w = [] ∨ charAt post 0 ≠ UChar.close
      · rw [if_pos hbad] at h
        cases h
      · rw [if_neg hbad] at h
        cases h
        rw [not_or, not_not] at hbad
        cases post with
        | nil => simp [charAt] at hbad
        | cons d post =>
          have hd : d = UChar.close := hbad.2
          refine ⟨some w, post, ?_, ?_, ?_⟩
          · intro s hs
            cases hs
            exact ⟨hbad.1, hw⟩
          · simp [hd]
          · simp only [Option.elim_some, List.length_cons, List.length_append, List.length_nil]
            omega
  · rw [parseSu_none hopen] at h
    cases h
    refine ⟨none, tail, ?_, rfl, rfl⟩
    intro s hs
    cases hs

/-- Only texts of the grammar are accepted. -/
theorem exists_numbText (h0 : 0 ∉ text) (h : parseNumb text = .ok number) :
    ∃ t : NumbText, t.text = text := by
  obtain ⟨sign, rest, hsign⟩ := exists_signed text
  obtain ⟨whole, fraction, tail, rfl, hmain⟩ := exists_mainPart rest
  rw [parseNumb_eq hsign hmain] at h
  by_cases hne : whole ++ fraction.getD [] = []
  · rw [if_pos hne] at h
    cases h
  · rw [if_neg hne] at h
    obtain ⟨⟨expEnd, scale⟩, hexp, h⟩ := bind_eq_ok.mp h
    obtain ⟨⟨suEnd, suDigits⟩, hsu, h⟩ := bind_eq_ok.mp h
    have htext := hsign.eq
    rw [← List.append_assoc] at htext
    rw [htext, ← List.length_append] at hexp
    obtain ⟨e, post, rfl, hpos⟩ := exists_exponent hexp
    dsimp only at h hsu hpos
    rw [← List.append_assoc] at htext
    rw [htext, hpos, ← List.length_append] at hsu
    obtain ⟨su, last, hsudigits, rfl, hsupos⟩ := exists_su hsu
    dsimp only at hsupos
    rw [← List.append_assoc] at htext
    by_cases hmore : charAt text suEnd ≠ 0
    · rw [if_pos hmore] at h
      cases h
    · have hlast : last = [] := by
        cases last with
        | nil => rfl
        | cons c last =>
          rw [not_not, hsupos, htext, ← List.length_append, charAt_append_zero] at hmore
          have hc : c = 0 := hmore
          exact absurd (htext ▸ hc ▸ by simp) h0
      refine ⟨⟨sign, whole, fraction, e, su, hsign.isSign, hmain.whole_eq, hmain.fraction_eq, hne,
        hsudigits⟩, ?_⟩
      rw [hlast, List.append_nil] at htext
      conv_rhs => rw [htext]
      simp [NumbText.text, NumbText.mainText, NumbText.expText, NumbText.suText]

end Grammar

namespace NumbText

variable (t : NumbText)

/-- The fields that reading the text records. -/
def numb : Numb where
  text := t.text
  sign := signOf t.sign
  digits := Numeral.dropLeading UChar.zero t.digits
  suDigits := t.su.map (Numeral.dropLeading UChar.zero)
  scale := toInt t.scale

theorem suText_stop : isDigit (charAt t.suText 0) = false ∧ charAt t.suText 0 ≠ UChar.decimal
    ∧ ¬ (charAt t.suText 0 = UChar.upperE ∨ charAt t.suText 0 = UChar.lowerE) := by
  unfold suText
  cases t.su with
  | none => decide
  | some s =>
    have hhead : charAt ((some s).elim [] fun s => UChar.open' :: (s ++ [UChar.close])) 0
        = UChar.open' := rfl
    rw [hhead]
    decide

theorem tail_stop : isDigit (charAt (t.expText ++ t.suText) 0) = false
    ∧ charAt (t.expText ++ t.suText) 0 ≠ UChar.decimal := by
  unfold expText
  cases t.exponent with
  | none => exact ⟨t.suText_stop.1, t.suText_stop.2.1⟩
  | some e =>
    have hhead : charAt ((some e).elim [] Exponent.text ++ t.suText) 0 = e.mark := rfl
    rw [hhead]
    rcases e.mark_eq with hmark | hmark
    · rw [hmark]
      decide
    · rw [hmark]
      decide

theorem mainPart_tail : MainPart t.whole t.fraction (t.expText ++ t.suText) :=
  ⟨t.whole_eq, t.fraction_eq, t.tail_stop.1, fun _ => t.tail_stop.2⟩

theorem isDigit_ne_sign {c : UChar} (h : isDigit c = true) :
    ¬ (c = UChar.minus ∨ c = UChar.plus) := by
  rintro (rfl | rfl)
  · exact absurd h (by decide)
  · exact absurd h (by decide)

theorem signed : Signed t.text t.sign (mainPart t.whole t.fraction ++ (t.expText ++ t.suText)) := by
  obtain ⟨c, hhead, hc⟩ : ∃ c, charAt (mainPart t.whole t.fraction ++ (t.expText ++ t.suText)) 0 = c
      ∧ ¬ (c = UChar.minus ∨ c = UChar.plus) := by
    cases hw : t.whole with
    | cons c rest => exact ⟨c, rfl, isDigit_ne_sign (t.whole_eq c (by simp [hw]))⟩
    | nil =>
      cases hf : t.fraction with
      | none => exact absurd (by simp [hw, hf]) t.digits_ne
      | some f => exact ⟨UChar.decimal, rfl, by decide⟩
  have hsigned := Signed.of_isSign t.sign_eq (hhead ▸ hc)
  exact hsigned

/-- Every text of the grammar is accepted. -/
theorem parseNumb_eq : parseNumb t.text = .ok t.numb := by
  have hpre : t.text = (t.sign.toList ++ t.mainText) ++ (t.expText ++ t.suText) := by simp [text]
  have hexp : parseExponent t.text (t.sign.toList ++ t.mainText).length
      = .ok ((t.sign.toList ++ t.mainText ++ t.expText).length, toInt (-t.expValue)) := by
    rw [hpre]
    cases he : t.exponent with
    | none =>
      have htail : t.expText = [] := by simp [expText, he]
      have hzero : t.expValue = 0 := by simp [expValue, he]
      rw [htail, hzero, List.nil_append, parseExponent_none t.suText_stop.2.2, List.append_nil]
      rfl
    | some e =>
      have htail : t.expText ++ t.suText = e.mark :: (e.sign.toList ++ (e.digits ++ t.suText)) := by
        simp [expText, he, Exponent.text]
      have hvalue : t.expValue = signOf e.sign * ofDigits e.digits := by
        simp [expValue, he, Exponent.value]
      have hlen : (t.sign.toList ++ t.mainText ++ t.expText).length
          = (t.sign.toList ++ t.mainText).length + 1 + e.sign.toList.length + e.digits.length := by
        simp [expText, he, Exponent.text]
        omega
      have hsigned : Signed (e.sign.toList ++ (e.digits ++ t.suText)) e.sign
          (e.digits ++ t.suText) := by
        apply Signed.of_isSign e.sign_eq
        obtain ⟨c, rest, hrest⟩ := List.exists_cons_of_ne_nil e.digits_ne
        have hc := e.digits_eq c (by simp [hrest])
        simpa [hrest, charAt] using isDigit_ne_sign hc
      rw [htail, parseExponent_mark e.mark_eq hsigned e.digits_eq t.suText_stop.1,
        if_neg e.digits_ne, hvalue, hlen]
  have hsu : parseSu t.text (t.sign.toList ++ t.mainText ++ t.expText).length
      = .ok (t.text.length, t.su.map (Numeral.dropLeading UChar.zero)) := by
    have hpre' : t.text = (t.sign.toList ++ t.mainText ++ t.expText) ++ t.suText := by simp [text]
    rw [hpre']
    cases hs : t.su with
    | none =>
      have htail : t.suText = [] := by simp [suText, hs]
      rw [htail, parseSu_none (by decide), List.append_nil]
      rfl
    | some s =>
      have htail : t.suText = UChar.open' :: (s ++ [UChar.close]) := by simp [suText, hs]
      obtain ⟨hne, hdigits⟩ := t.su_eq s hs
      have hlen : (t.sign.toList ++ t.mainText ++ t.expText ++ t.suText).length
          = (t.sign.toList ++ t.mainText ++ t.expText).length + 1 + s.length + 1 := by
        rw [List.length_append, htail]
        simp only [List.length_cons, List.length_append, List.length_nil]
        omega
      rw [hlen, htail, parseSu_open hdigits (by decide), if_neg (by simp [hne, charAt])]
      rfl
  have hend : charAt t.text t.text.length = 0 := by simp [charAt]
  have hscale : (if t.fraction.getD [] = [] then toInt (-t.expValue)
      else toInt (toInt (-t.expValue) + (t.fraction.getD []).length)) = toInt t.scale := by
    rw [toInt_toInt_add, scale]
    split
    · rename_i hnil
      rw [hnil]
      simp
    · congr 1
      omega
  have hmain := CifApi.parseNumb_eq t.signed t.mainPart_tail
  rw [if_neg t.digits_ne, ← List.length_append] at hmain
  rw [hmain]
  apply bind_eq_ok.mpr
  refine ⟨_, hexp, bind_eq_ok.mpr ⟨_, hsu, ?_⟩⟩
  dsimp only
  rw [if_neg (not_not.mpr hend), hscale]
  rfl

end NumbText

theorem isNumeral_dropLeading {s : UStr} (h : ∀ c ∈ s, isDigit c = true) (hne : s ≠ []) :
    IsNumeral (Numeral.dropLeading UChar.zero s) := by
  refine ⟨?_, Numeral.dropLeading_ne_nil hne, Numeral.length_dropLeading⟩
  intro c hc
  exact h c ((Numeral.dropLeading_sublist _ _).subset hc)

namespace NumbText

variable (t : NumbText)

theorem ten_zpow_scale :
    (10 : ℚ) ^ (-t.scale)
      = (10 : ℚ) ^ (-((t.fraction.getD []).length : ℤ)) * (10 : ℚ) ^ t.expValue := by
  rw [← zpow_add₀ (by norm_num), scale]
  congr 1
  ring

theorem number_eq : t.number = signOf t.sign * ofDigits t.digits * (10 : ℚ) ^ (-t.scale) := by
  have hplaces : (10 : ℚ) ^ (t.fraction.getD []).length * (10 : ℚ)
      ^ (-((t.fraction.getD []).length : ℤ)) = 1 := by
    rw [zpow_neg, zpow_natCast]
    exact mul_inv_cancel₀ (by positivity)
  have hdigits : (ofDigits t.digits : ℚ)
      = ofDigits t.whole * (10 : ℚ) ^ (t.fraction.getD []).length
        + ofDigits (t.fraction.getD []) := by
    rw [digits, ofDigits_append]
    push_cast
    rfl
  rw [number, ten_zpow_scale, hdigits]
  linear_combination (-(signOf t.sign : ℚ) * ofDigits t.whole * (10 : ℚ) ^ t.expValue) * hplaces

theorem uncertainty_eq : t.uncertainty = t.su.map fun s => ofDigits s * (10 : ℚ) ^ (-t.scale) := by
  rw [uncertainty, ten_zpow_scale]
  congr 1
  funext s
  ring

theorem signOf_ne_zero (sign : Option UChar) : (signOf sign : ℚ) ≠ 0 := by
  unfold signOf
  split
  · norm_num
  · norm_num

/-- A wrapped scale makes a difference unless everything is zero. -/
theorem mul_zpow_scale_iff (x : ℚ) :
    x * (10 : ℚ) ^ (-(toInt t.scale)) = x * (10 : ℚ) ^ (-t.scale) ↔ t.ScaleFits ∨ x = 0 := by
  have hinj : (10 : ℚ) ^ (-(toInt t.scale)) = (10 : ℚ) ^ (-t.scale) ↔ t.ScaleFits := by
    rw [zpow_right_inj₀ (by norm_num) (by norm_num), neg_inj, toInt_eq_iff]
    rfl
  rw [mul_eq_mul_left_iff, hinj]

/-- What is recorded is what the text denotes unless the scale wraps. -/
theorem records_iff : t.numb.Records t ↔ t.ScaleFits ∨ t.Zero := by
  have hnumber : t.numb.denoted = t.number ↔ t.ScaleFits ∨ ofDigits t.digits = 0 := by
    have hzero : (signOf t.sign : ℚ) * ofDigits t.digits = 0 ↔ ofDigits t.digits = 0 := by
      rw [mul_eq_zero, or_iff_right (signOf_ne_zero _), Nat.cast_eq_zero]
    rw [number_eq, ← hzero, ← mul_zpow_scale_iff, Numb.denoted, numb, ofDigits_dropLeading]
  have hsu : t.numb.suDenoted = t.uncertainty ↔ t.ScaleFits ∨ ∀ s ∈ t.su, ofDigits s = 0 := by
    rw [uncertainty_eq, Numb.suDenoted, numb]
    cases t.su with
    | none => simp
    | some s =>
      have hvalue := t.mul_zpow_scale_iff (ofDigits s)
      rw [Nat.cast_eq_zero] at hvalue
      simp only [Option.map_some, Option.some.injEq, ofDigits_dropLeading, hvalue,
        Option.mem_some_iff, forall_eq']
  constructor
  · intro h
    rcases hnumber.mp h.denoted with hfits | hdigits
    · exact .inl hfits
    · rcases hsu.mp h.suDenoted with hfits | hsudigits
      · exact .inl hfits
      · exact .inr ⟨hdigits, hsudigits⟩
  · intro h
    have hdigits : ∀ c ∈ t.digits, isDigit c = true := by
      intro c hc
      rcases List.mem_append.mp hc with hw | hf
      · exact t.whole_eq c hw
      · cases hfrac : t.fraction with
        | none => simp [hfrac] at hf
        | some f => exact t.fraction_eq f hfrac c (by simpa [hfrac] using hf)
    refine ⟨rfl, isNumeral_dropLeading hdigits t.digits_ne, ?_, ?_, ?_⟩
    · intro s hs
      obtain ⟨r, hr, rfl⟩ := Option.mem_map.mp hs
      exact isNumeral_dropLeading (t.su_eq r hr).2 (t.su_eq r hr).1
    · exact hnumber.mpr (h.imp_right And.left)
    · exact hsu.mpr (h.imp_right And.right)

end NumbText

theorem parseExponent_error {text : UStr} {pos : Nat} {code : Int}
    (h : parseExponent text pos = .error code) :
    code = Code.invalidNumber := by
  unfold parseExponent at h
  split at h
  · dsimp only at h
    generalize (if charAt text (pos + 1) = UChar.minus || charAt text (pos + 1) = UChar.plus then
      pos + 2
      else pos + 1) = expStart at h
    split at h
    · cases h
      rfl
    · cases h
  · cases h

theorem parseSu_error {text : UStr} {pos : Nat} {code : Int} (h : parseSu text pos = .error code) :
    code = Code.invalidNumber := by
  unfold parseSu at h
  dsimp only at h
  split at h
  · split at h
    · cases h
      rfl
    · cases h
  · cases h

/-- There is one reason to reject a text. -/
theorem parseNumb_error {text : UStr} {code : Int} (h : parseNumb text = .error code) :
    code = Code.invalidNumber := by
  obtain ⟨sign, rest, hsign⟩ := exists_signed text
  obtain ⟨whole, fraction, tail, rfl, hmain⟩ := exists_mainPart rest
  rw [parseNumb_eq hsign hmain] at h
  by_cases hne : whole ++ fraction.getD [] = []
  · rw [if_pos hne] at h
    cases h
    rfl
  · rw [if_neg hne] at h
    cases hexp : parseExponent text (sign.toList.length + (mainPart whole fraction).length) with
    | error e =>
      rw [hexp] at h
      cases h
      exact parseExponent_error hexp
    | ok expEnd =>
      rw [hexp] at h
      cases hsu : parseSu text expEnd.1 with
      | error e =>
        simp only [bind, Except.bind, hsu] at h
        cases h
        exact parseSu_error hsu
      | ok suEnd =>
        simp only [bind, Except.bind, hsu] at h
        split at h
        · cases h
          rfl
        · cases h

theorem Value.parseAsNumb_ok_iff {n : Value} {text : UStr} :
    (n.parseAsNumb text).1 = Code.ok ↔ ∃ number, CifApi.parseNumb text = .ok number := by
  unfold Value.parseAsNumb
  cases h : CifApi.parseNumb text with
  | ok number => simp
  | error code =>
    rw [parseNumb_error h]
    simp [Code.invalidNumber, Code.ok]

/-- A text is read for what it denotes unless the scale it makes wraps. -/
theorem Value.parsesExactly_iff (n : Value) {text : UStr} (h0 : 0 ∉ text) :
    n.ParsesExactly text ↔ ∀ t : NumbText, t.text = text → t.ScaleFits ∨ t.Zero := by
  have hvalue : ∀ t : NumbText, t.text = text → (n.parseAsNumb text).2 = .numb t.numb false := by
    rintro t rfl
    rw [Value.parseAsNumb, t.parseNumb_eq]
  constructor
  · intro h t ht
    obtain ⟨number, heq, hrecords⟩ := h.records t ht
    rw [hvalue t ht] at heq
    obtain ⟨rfl, -⟩ := Value.numb.inj heq
    exact t.records_iff.mp hrecords
  · intro h
    refine ⟨?_, ?_, ?_⟩
    · rw [Value.parseAsNumb_ok_iff]
      constructor
      · rintro ⟨number, hnumber⟩
        exact exists_numbText h0 hnumber
      · rintro ⟨t, rfl⟩
        exact ⟨t.numb, t.parseNumb_eq⟩
    · intro t ht
      exact ⟨t.numb, hvalue t ht, t.records_iff.mpr (h t ht)⟩
    · intro hcode
      rw [Ne, Value.parseAsNumb_ok_iff] at hcode
      unfold Value.parseAsNumb
      cases hparse : CifApi.parseNumb text with
      | ok number => exact absurd ⟨number, hparse⟩ hcode
      | error code => rfl

/-- An exponent within an `int` and one beyond. -/
theorem Value.parsesExactly_iff_exponents :
    (Value.unk.ParsesExactly (units "-12.50e+3(4)") ↔
        ∀ t : NumbText, t.text = units "-12.50e+3(4)" → t.ScaleFits ∨ t.Zero)
      ∧ (Value.unk.ParsesExactly (units "1e4294967296") ↔
        ∀ t : NumbText, t.text = units "1e4294967296" → t.ScaleFits ∨ t.Zero) :=
  ⟨Value.parsesExactly_iff _ (by decide), Value.parsesExactly_iff _ (by decide)⟩

/-- An exponent of 2³² is read as none. -/
theorem Value.parseAsNumb_wraps : ¬ Value.unk.ParsesExactly (units "1e4294967296") := by
  let e : Exponent := {
    mark := UChar.lowerE, sign := none, digits := units "4294967296"
    mark_eq := by decide, sign_eq := by simp [IsSign], digits_eq := by decide, digits_ne := by
      decide }
  let t : NumbText := {
    sign := none, whole := units "1", fraction := none, exponent := some e, su := none
    sign_eq := by simp [IsSign], whole_eq := by decide, fraction_eq := by simp
    digits_ne := by decide, su_eq := by simp }
  have htext : t.text = units "1e4294967296" := by decide
  have hscale : t.scale = -4294967296 := by decide
  have hdigits : ofDigits t.digits = 1 := by decide
  intro h
  obtain ⟨number, heq, hrecords⟩ := h.records t htext
  rw [← htext, Value.parseAsNumb, t.parseNumb_eq] at heq
  obtain ⟨rfl, -⟩ := Value.numb.inj heq
  rcases t.records_iff.mp hrecords with hfits | hzero
  · rw [NumbText.ScaleFits, hscale] at hfits
    omega
  · rw [NumbText.Zero, hdigits] at hzero
    omega

end CifApi
