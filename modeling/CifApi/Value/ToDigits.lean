import CifApi.Value.Bignum

/-! The decimal digits of a double, rounded at a place. -/
namespace CifApi

/-- A finite `double`. -/
structure Double where
  negative : Bool
  mantissa : Nat
  exponent : Int
  mantissa_lt : mantissa < 2 ^ dblMantDig
  exponent_le : dblMinExp - dblMantDig ≤ exponent ∧ exponent ≤ 1024 - dblMantDig

namespace Double

/-- The absolute value. -/
def magnitude (d : Double) : ℚ := d.mantissa * (2 : ℚ) ^ d.exponent

/-- `frexp` and `ldexp` up to `DBL_MANT_DIG` binary digits. -/
def fraction (d : Double) : Nat := d.mantissa <<< (dblMantDig - 1 - Nat.log2 d.mantissa)

/-- The exponent that goes with the fraction. -/
def fractionExponent (d : Double) : Int := d.exponent - (dblMantDig - 1 - Nat.log2 d.mantissa : Nat)

end Double

namespace ToDigits

/-- `INT_DIGITS`. -/
abbrev intDigits : Nat := (dblMax10Exp + ddigPerDig - 1) / ddigPerDig

/-- `DIG_PER_DBL`. -/
abbrev digPerDbl : Nat := intDigits + ((dblMantDig - dblMinExp + ddigPerDig - 1) / ddigPerDig).toNat

/-- `UNITS_DIGIT`. -/
abbrev unitsDigit : Int := intDigits - 1

/-- The loop that fills in the digits of the fraction. -/
def ofFraction : Nat → Nat → List Nat → List Nat
  | 0, _, digits => digits
  | fuel + 1, fraction, digits =>
    if fraction = 0 then digits else ofFraction fuel (fraction / bbase) (fraction % bbase :: digits)

/-- `while (exponent < 0)`, by what is left of the exponent: the division always takes in one more
digit. -/
def scaleDown : Nat → Nat → Bignum → Option Bignum
  | 0, _, n => some n
  | fuel + 1, left, n =>
    if left = 0 then some n
    else do
      let shift := min bdigPerDig left
      let n ← ({ n with digits := n.digits ++ [0] }.shiftRight shift).within (digPerDbl + 1)
      scaleDown fuel (left - shift) n

/-- `while (exponent > 0)`. -/
def scaleUp : Nat → Nat → Bignum → Option Bignum
  | 0, _, n => some n
  | fuel + 1, left, n =>
    if left = 0 then some n
    else do
      let shift := min bdigPerDig left
      let n ← (n.shiftLeft shift).within (digPerDbl + 1)
      scaleUp fuel (left - shift) n

/-- The double's absolute value as it stands in the array. -/
def load (d : Double) : Option Bignum := do
  let digits := ofFraction dblMantDig d.fraction []
  let n : Bignum := { msd := unitsDigit + 1 - digits.length, digits }
  let n ← scaleDown d.fractionExponent.natAbs (-d.fractionExponent).toNat n.skipTrailing
  scaleUp d.fractionExponent.natAbs d.fractionExponent.toNat n

def roundDigit (scale : Int) : Int :=
  unitsDigit + if scale ≤ 0 then -(-scale / ddigPerDig) else (scale + ddigPerDig - 1) / ddigPerDig

def roundPos (scale : Int) : Int :=
  let roundPos := Int.tmod (-scale) ddigPerDig
  if roundPos < 0 then roundPos + ddigPerDig else roundPos

/-- Carries out of digits, from the least significant one on; a digit that is carried from stays as
it is. -/
def carryUp : Nat → List Nat → List Nat
  | d, [] => if d < bbase then [d] else [d, d / bbase]
  | d, e :: rest => if d < bbase then d :: e :: rest else d :: carryUp (e + d / bbase) rest

/-- The digits down to an index, with the one there replaced. -/
def replaceLsd (n : Bignum) (i : Int) (d : Nat) : Bignum :=
  if i < n.msd then { msd := i, digits := [d] }
  else
    let count := (i - n.msd).toNat
    let upper := n.digits.take count ++ List.replicate (count - n.digits.length) 0
    let digits := (carryUp d upper.reverse).reverse
    { msd := i + 1 - digits.length, digits }

/-- The value rounded, and the power of ten its last digit is to be truncated by. -/
def roundAt (mode : RoundingMode) (negative : Bool) (n : Bignum) (scale : Int) : Bignum × Nat :=
  let roundDigit := roundDigit scale
  let roundPos := (roundPos scale).toNat
  let p10 := 10 ^ roundPos
  let d := n.digit roundDigit
  let rounded :=
    if roundPos = 0 then n.roundIt mode negative d (n.digit (roundDigit + 1)) (roundDigit + 1)
    else n.roundIt mode negative ((d - d % p10) / p10) (d % p10 * (bbase / p10)) roundDigit
  (replaceLsd n roundDigit (p10 * rounded), if roundDigit < n.msd then 0 else roundPos)

/-- So many decimal digits, the last ones of a number. -/
def lastDigits : Nat → Nat → UStr
  | 0, _ => []
  | count + 1, d => lastDigits count (d / 10) ++ [d % 10 + UChar.zero]

/-- The digit string: the first digit without leading zeroes, the others in full. -/
def print : List Nat → UStr
  | [] => []
  | d :: digits => lastDigits (Nat.log 10 d + 1) d ++ digits.flatMap (lastDigits ddigPerDig)

end ToDigits

open ToDigits in
/-- `to_digits`. -/
def toDigits (mode : RoundingMode) (d : Double) (scale : Int) : Option UStr :=
  if d.mantissa = 0 then some [UChar.zero]
  else do
    let n ← load d
    if roundDigit scale < digPerDbl then
      let (rounded, truncated) := roundAt mode d.negative n scale
      -- `assert(*msd <= 1)` where all digits are below the rounding digit
      if roundDigit scale < n.msd && 1 < rounded.digit rounded.msd then none
      else
        let rounded ← rounded.within (digPerDbl + 1)
        return (print rounded.digits).rdrop truncated
    else
      -- more digits than there are: zeroes to fill up with
      let digits :=
        (n.digits ++ List.replicate (digPerDbl - 1 - n.lsd).toNat 0).take (digPerDbl - n.msd).toNat
      return print digits ++ List.replicate
        (scale - (digPerDbl - (unitsDigit + 1)) * ddigPerDig).toNat UChar.zero

namespace ToDigits

section Loading

variable {n : Bignum} {left : Nat} {target : ℚ} {m : ℕ}

theorem bdigPerDig_eq : bdigPerDig = 28 := by decide

theorem unitsDigit_eq : unitsDigit = 34 := by decide

theorem digPerDbl_eq : digPerDbl = 155 := by decide

/-- A number below the bignum's capacity has its digits within the array. -/
theorem within_eq_some (h : n.Valid) (hlt : n.value unitsDigit < (bbase : ℚ) ^ (unitsDigit + 1))
    (hlsd : n.lsd ≤ 155) : n.within (digPerDbl + 1) = some n := by
  have hmsd := h.lt_msd hlt
  rw [Bignum.within, if_pos]
  rw [unitsDigit_eq] at hmsd
  rw [digPerDbl_eq]
  omega

/-- A multiple of a power of two has places enough in a few digits of the base. -/
theorem exists_places {p : Nat} (left places : Nat) (hm : target * 2 ^ p = m)
    (hplaces : p ≤ left + 9 * places) :
    ∃ k : Int, target * 2 ^ left * (bbase : ℚ) ^ places = k := by
  refine ⟨(m * 2 ^ (left + 9 * places - p) * 5 ^ (9 * places) : ℕ), ?_⟩
  have hbase : (bbase : ℚ) = 2 ^ 9 * 5 ^ 9 := by norm_num
  have hpow : (2 : ℚ) ^ left * 2 ^ (9 * places) = 2 ^ p * 2 ^ (left + 9 * places - p) := by
    rw [← pow_add, ← pow_add]
    congr 1
    omega
  rw [hbase, mul_pow, ← pow_mul, ← pow_mul]
  push_cast
  rw [← hm]
  linear_combination target * 5 ^ (9 * places) * hpow

/-- Where the last digit is while `left` of the exponent is left. -/
def LsdBound (left : Nat) (lsd : Int) : Prop := lsd ≤ 34 + max ((1126 - left) / 28 : Nat)
    ((1074 - left + 8) / 9 : Nat)

/-- One division step: the digits stay within the array, since no double takes more than 1074
places. -/
theorem scaleDown_step (h : n.Valid) (hle : left ≤ 1126)
    (hlt : n.value unitsDigit < (bbase : ℚ) ^ (unitsDigit + 1))
    (htarget : n.value unitsDigit = target * 2 ^ left) (hm : target * 2 ^ 1074 = m)
    (hlsd : LsdBound left n.lsd) :
    ∃ n' : Bignum, ({ n with digits := n.digits ++ [0] } : Bignum).shiftRight (min bdigPerDig left)
      = n'
      ∧ n'.within (digPerDbl + 1) = some n' ∧ n'.Valid
        ∧ n'.value unitsDigit < (bbase : ℚ) ^ (unitsDigit + 1)
      ∧ n'.value unitsDigit = target * 2 ^ (left - min bdigPerDig left)
      ∧ (bdigPerDig ≤ left → LsdBound (left - bdigPerDig) n'.lsd) := by
  generalize hn' : ({ n with digits := n.digits ++ [0] } : Bignum).shiftRight (min bdigPerDig left)
    = n'
  rw [bdigPerDig_eq] at hn' ⊢
  generalize hs : min 28 left = s at hn' ⊢
  have hlong : ∀ d ∈ n.digits ++ [0], d < bbase := by
    intro d hd
    rcases List.mem_append.mp hd with hd | hd
    · exact h.lt d hd
    · rw [List.mem_singleton.mp hd]
      decide
  have hsame := n.value_extend unitsDigit
  have hvalue :=
    Bignum.value_shiftRight (n := { n with digits := n.digits ++ [0] }) hlong s unitsDigit
  rw [hn', hsame, htarget] at hvalue
  have hsplit : (2 : ℚ) ^ left = 2 ^ (left - s) * 2 ^ s := by
    rw [← pow_add]
    congr 1
    omega
  have hnew : n'.value unitsDigit = target * 2 ^ (left - s) := by
    have htwo : (2 : ℚ) ^ s ≠ 0 := by positivity
    apply mul_right_cancel₀ htwo
    rw [hvalue, hsplit]
    ring
  have hvalid : n'.Valid := by
    rw [← hn']
    apply Bignum.valid_shiftRight hlong s
    rw [n.value_extend]
    exact (h.value_pos 0).ne'
  have hsmall : n'.value unitsDigit < (bbase : ℚ) ^ (unitsDigit + 1) := by
    have hpos := hvalid.value_pos unitsDigit
    have hone : (1 : ℚ) ≤ 2 ^ s := one_le_pow₀ (by norm_num)
    have hgrow : n'.value unitsDigit * 1 ≤ n'.value unitsDigit * 2 ^ s :=
      mul_le_mul_of_nonneg_left hone hpos.le
    rw [htarget, ← hvalue] at hlt
    linarith
  have hplaces : n'.lsd ≤ max (n.lsd + 1) (34 + (1074 - (left - s) + 8) / 9 : Nat) := by
    obtain ⟨k, hk⟩ := exists_places (left - s) ((1074 - (left - s) + 8) / 9) hm (by omega)
    have hplace : (((34 + (1074 - (left - s) + 8) / 9 : Nat) : Int) - unitsDigit)
        = (((1074 - (left - s) + 8) / 9 : Nat) : Int) := by
      rw [unitsDigit_eq]
      push_cast
      ring
    have hint : ({ n with digits := n.digits ++ [0] } : Bignum).value unitsDigit / 2 ^ s
        * (bbase : ℚ) ^ (((34 + (1074 - (left - s) + 8) / 9 : Nat) : Int) - unitsDigit) = k := by
      have htwo : (2 : ℚ) ^ s ≠ 0 := by positivity
      rw [n.value_extend, htarget, hplace, zpow_natCast, ← hk, hsplit]
      field_simp
    have hlong' := Bignum.shiftRight_lsd_le (n := { n with digits := n.digits ++ [0] }) hlong hint
    have hend : ({ n with digits := n.digits ++ [0] } : Bignum).lsd = n.lsd + 1 := by
      simp only [Bignum.lsd, List.length_append, List.length_singleton]
      push_cast
      ring
    rw [hn', hend] at hlong'
    exact hlong'
  unfold LsdBound at hlsd ⊢
  refine ⟨n', rfl, within_eq_some hvalid hsmall ?_, hvalid, hsmall, hnew, ?_⟩
  · omega
  · intro hfull
    omega

/-- The division loop leaves the value scaled, within the array. -/
theorem scaleDown_spec (fuel : Nat) (hfuel : left ≤ fuel) (h : n.Valid) (hle : left ≤ 1126)
    (hlt : n.value unitsDigit < (bbase : ℚ) ^ (unitsDigit + 1))
    (htarget : n.value unitsDigit = target * 2 ^ left) (hm : target * 2 ^ 1074 = m)
    (hlsd : LsdBound left n.lsd) :
    ∃ n' : Bignum, scaleDown fuel left n = some n' ∧ n'.Valid ∧ n'.value unitsDigit = target := by
  induction fuel generalizing left n with
  | zero =>
    rw [Nat.le_zero] at hfuel
    exact ⟨n, rfl, h, by rw [htarget, hfuel, pow_zero, mul_one]⟩
  | succ fuel ih =>
    by_cases hleft : left = 0
    · exact ⟨n, by rw [scaleDown, if_pos hleft], h, by rw [htarget, hleft, pow_zero, mul_one]⟩
    · obtain ⟨n', hn', hwithin, hvalid, hsmall, hvalue, hbound⟩ :=
        scaleDown_step h hle hlt htarget hm hlsd
      have hrun : scaleDown (fuel + 1) left n = scaleDown fuel (left - min bdigPerDig left) n' := by
        rw [scaleDown, if_neg hleft]
        simp only [hn', hwithin]
        rfl
      rw [hrun]
      by_cases hfull : bdigPerDig ≤ left
      · rw [Nat.min_eq_left hfull] at hvalue ⊢
        have hpos : 0 < bdigPerDig := by decide
        exact ih (by omega) hvalid (by omega) hsmall hvalue (hbound hfull)
      · rw [Nat.min_eq_right (by omega), Nat.sub_self] at hvalue ⊢
        refine ⟨n', ?_, hvalid, by rw [hvalue, pow_zero, mul_one]⟩
        cases fuel with
        | zero => rfl
        | succ fuel => rw [scaleDown, if_pos rfl]

/-- The multiplication loop, likewise. -/
theorem scaleUp_spec (fuel : Nat) (hfuel : left ≤ fuel) (h : n.Valid)
    (hlt : n.value unitsDigit * 2 ^ left < (bbase : ℚ) ^ (unitsDigit + 1)) (hlsd : n.lsd ≤ 155) :
    ∃ n' : Bignum, scaleUp fuel left n = some n' ∧ n'.Valid
      ∧ n'.value unitsDigit = n.value unitsDigit * 2 ^ left := by
  induction fuel generalizing left n with
  | zero =>
    rw [Nat.le_zero] at hfuel
    exact ⟨n, rfl, h, by rw [hfuel, pow_zero, mul_one]⟩
  | succ fuel ih =>
    by_cases hleft : left = 0
    · exact ⟨n, by rw [scaleUp, if_pos hleft], h, by rw [hleft, pow_zero, mul_one]⟩
    · generalize hs : min bdigPerDig left = s
      have hpos : 0 < bdigPerDig := by decide
      have hvalid : (n.shiftLeft s).Valid := Bignum.valid_shiftLeft h s
      have hvalue : (n.shiftLeft s).value unitsDigit = n.value unitsDigit * 2 ^ s :=
        Bignum.value_shiftLeft h.lt s _
      have hend : (n.shiftLeft s).lsd ≤ n.lsd := Bignum.shiftLeft_lsd_le n s
      have hsplit : (2 : ℚ) ^ left = 2 ^ s * 2 ^ (left - s) := by
        rw [← pow_add]
        congr 1
        omega
      have hone : (1 : ℚ) ≤ 2 ^ (left - s) := one_le_pow₀ (by norm_num)
      have hsmall : (n.shiftLeft s).value unitsDigit < (bbase : ℚ) ^ (unitsDigit + 1) := by
        have hgrow := mul_le_mul_of_nonneg_left hone (hvalid.value_pos unitsDigit).le
        rw [hsplit, ← mul_assoc, ← hvalue] at hlt
        linarith
      have hwithin := within_eq_some hvalid hsmall (hend.trans hlsd)
      have hrest : (n.shiftLeft s).value unitsDigit * 2 ^ (left - s)
          < (bbase : ℚ) ^ (unitsDigit + 1) := by
        rwa [hvalue, mul_assoc, ← hsplit]
      obtain ⟨n', hn', hvalid', hvalue'⟩ := ih (by omega) hvalid hrest (hend.trans hlsd)
      refine ⟨n', ?_, hvalid', ?_⟩
      · rw [scaleUp, if_neg hleft]
        simp only [hs, hwithin]
        exact hn'
      · rw [hvalue', hvalue, mul_assoc, ← hsplit]

/-- A carry goes out to the left for as long as there is one. -/
theorem ofFraction_eq (fuel fraction : Nat) (digits : List Nat) :
    ofFraction fuel fraction digits = Numeral.carryOver bbase fuel fraction digits := by
  induction fuel generalizing fraction digits with
  | zero => rfl
  | succ fuel ih => rw [ofFraction, Numeral.carryOver, ih]

end Loading

section Loading

variable {d : Double}

theorem scaleDown_zero (fuel : Nat) (n : Bignum) : scaleDown fuel 0 n = some n := by
  cases fuel with
  | zero => rfl
  | succ fuel => rw [scaleDown, if_pos rfl]

theorem scaleUp_zero (fuel : Nat) (n : Bignum) : scaleUp fuel 0 n = some n := by
  cases fuel with
  | zero => rfl
  | succ fuel => rw [scaleUp, if_pos rfl]

theorem log2_mantissa_lt (hd : d.mantissa ≠ 0) : Nat.log2 d.mantissa < dblMantDig :=
  (Nat.log2_lt hd).mpr d.mantissa_lt

theorem fraction_lt (hd : d.mantissa ≠ 0) : d.fraction < 2 ^ dblMantDig := by
  have hlog := log2_mantissa_lt hd
  have hlt := (Nat.log2_lt hd).mp (Nat.lt_succ_self _)
  have hexp : dblMantDig = Nat.log2 d.mantissa + 1 + (dblMantDig - 1 - Nat.log2 d.mantissa) := by
    omega
  rw [Double.fraction, Nat.shiftLeft_eq]
  conv_rhs => rw [hexp, pow_add]
  exact Nat.mul_lt_mul_of_pos_right hlt (Nat.two_pow_pos _)

theorem fraction_ne_zero (hd : d.mantissa ≠ 0) : d.fraction ≠ 0 := by
  rw [Double.fraction, Nat.shiftLeft_eq]
  exact Nat.mul_ne_zero hd (Nat.two_pow_pos _).ne'

theorem fraction_mul (d : Double) : (d.fraction : ℚ) * 2 ^ d.fractionExponent = d.magnitude := by
  have hexp : d.exponent = ((dblMantDig - 1 - Nat.log2 d.mantissa : Nat) : Int)
      + d.fractionExponent := by
    rw [Double.fractionExponent]
    ring
  rw [Double.magnitude, hexp, zpow_add₀ (by norm_num), zpow_natCast, Double.fraction,
    Nat.shiftLeft_eq]
  push_cast
  ring

theorem fractionExponent_le (hd : d.mantissa ≠ 0) :
    -1126 ≤ d.fractionExponent ∧ d.fractionExponent ≤ 971 := by
  have hlog := log2_mantissa_lt hd
  obtain ⟨hlow, hhigh⟩ := d.exponent_le
  have hmin : dblMinExp - (dblMantDig : Int) = -1074 := by decide
  have hmax : (1024 : Int) - (dblMantDig : Int) = 971 := by decide
  have hdig : dblMantDig = 53 := rfl
  rw [Double.fractionExponent]
  omega

theorem magnitude_lt_max (d : Double) : d.magnitude < 2 * 10 ^ 308 := by
  have hmantissa : (d.mantissa : ℚ) < 2 ^ 53 := by exact_mod_cast d.mantissa_lt
  have hexp : (2 : ℚ) ^ d.exponent ≤ 2 ^ (971 : Int) := by
    apply zpow_le_zpow_right₀ (by norm_num)
    exact d.exponent_le.2
  have hpos : (0 : ℚ) < 2 ^ d.exponent := by positivity
  have hmax : (2 : ℚ) ^ 53 * 2 ^ (971 : Int) < 2 * 10 ^ 308 := by
    have hpow : (971 : Int) = ((971 : Nat) : Int) := rfl
    rw [hpow, zpow_natCast]
    calc (2 : ℚ) ^ 53 * 2 ^ 971 = (2 ^ 128) ^ 8 := by rw [← pow_add, ← pow_mul]
      _ < (341 * 10 ^ 36) ^ 8 := pow_lt_pow_left₀ (by norm_num) (by norm_num) (by norm_num)
      _ = 341 ^ 8 * (10 ^ 36) ^ 8 := mul_pow _ _ _
      _ ≤ 2 * 10 ^ 20 * (10 ^ 36) ^ 8 := mul_le_mul_of_nonneg_right (by norm_num) (by positivity)
      _ = 2 * 10 ^ 308 := by rw [← pow_mul, mul_assoc, ← pow_add]
  calc d.magnitude = d.mantissa * (2 : ℚ) ^ d.exponent := rfl
    _ < 2 ^ 53 * 2 ^ d.exponent := mul_lt_mul_of_pos_right hmantissa hpos
    _ ≤ 2 ^ 53 * 2 ^ (971 : Int) := mul_le_mul_of_nonneg_left hexp (by positivity)
    _ < _ := hmax

theorem magnitude_lt (d : Double) : d.magnitude < (bbase : ℚ) ^ (unitsDigit + 1) := by
  have hmax : (2 : ℚ) * 10 ^ 308 < (bbase : ℚ) ^ (unitsDigit + 1) := by
    have hunits : unitsDigit + 1 = ((35 : Nat) : Int) := by decide
    have hbase : (bbase : ℚ) = 10 ^ 9 := by norm_num
    rw [hunits, zpow_natCast, hbase, ← pow_mul]
    calc (2 : ℚ) * 10 ^ 308 < 10 * 10 ^ 308 := by
          apply mul_lt_mul_of_pos_right (by norm_num)
          positivity
      _ = 10 ^ 309 := (pow_succ' _ _).symm
      _ ≤ 10 ^ (9 * 35) := pow_le_pow_right₀ (by norm_num) (by norm_num)
  exact (magnitude_lt_max d).trans hmax

theorem magnitude_places (d : Double) : ∃ m : ℕ, d.magnitude * 2 ^ 1074 = m := by
  refine ⟨d.mantissa * 2 ^ (d.exponent + 1074).toNat, ?_⟩
  have hlow := d.exponent_le.1
  have hmin : dblMinExp - (dblMantDig : Int) = -1074 := by decide
  have hexp : ((d.exponent + 1074).toNat : Int) = d.exponent + ((1074 : Nat) : Int) := by omega
  rw [Double.magnitude, mul_assoc, ← zpow_natCast (2 : ℚ) 1074, ← zpow_add₀ (by norm_num), ← hexp,
    zpow_natCast]
  push_cast
  rfl

/-- The digits of the fraction, before the exponent is applied. -/
def loaded (d : Double) : Bignum :=
  let digits := ofFraction dblMantDig d.fraction []
  ({ msd := unitsDigit + 1 - digits.length, digits } : Bignum).skipTrailing

theorem loaded_spec (hd : d.mantissa ≠ 0) :
    (loaded d).Valid ∧ (loaded d).value unitsDigit = d.fraction ∧ (loaded d).lsd ≤ unitsDigit := by
  have hpow : d.fraction < bbase ^ dblMantDig :=
    (fraction_lt hd).trans_le (Nat.pow_le_pow_left (by decide) dblMantDig)
  have hvalue := Numeral.carryOver_value hpow []
  rw [← ofFraction_eq, Numeral.value_nil, Nat.zero_add, List.length_nil, pow_zero,
    Nat.mul_one] at hvalue
  have hhead := Numeral.head_carryOver (fraction_ne_zero hd) hpow []
  have hlt : ∀ e ∈ Numeral.carryOver bbase dblMantDig d.fraction [], e < bbase :=
    Numeral.carryOver_lt (by decide) (by simp)
  rw [← ofFraction_eq] at hhead hlt
  generalize hn : (⟨unitsDigit + 1 - (ofFraction dblMantDig d.fraction []).length,
    ofFraction dblMantDig d.fraction []⟩ : Bignum) = n
  have hvalid : n.Valid := by
    rw [← hn]
    exact ⟨hlt, hhead⟩
  have hlsd : n.lsd = unitsDigit := by
    rw [← hn, Bignum.lsd]
    ring
  have hloaded : loaded d = n.skipTrailing := by rw [← hn, loaded]
  rw [hloaded, Bignum.value_skipTrailing]
  refine ⟨hvalid.skipTrailing, ?_, ?_⟩
  · rw [Bignum.value, hlsd, sub_self, zpow_zero, mul_one, ← hn]
    exact_mod_cast hvalue
  · exact n.skipTrailing_lsd_le.trans_eq hlsd

/-- The array holds the double's value exactly, and its digits are all within it. -/
theorem load_spec (hd : d.mantissa ≠ 0) :
    ∃ n, load d = some n ∧ n.Valid ∧ n.value unitsDigit = d.magnitude := by
  obtain ⟨hvalid, hvalue, hlsd⟩ := loaded_spec hd
  obtain ⟨hlow, hhigh⟩ := fractionExponent_le hd
  have hmul := fraction_mul d
  have hunits := unitsDigit_eq
  have hrun : load d
      = scaleDown d.fractionExponent.natAbs (-d.fractionExponent).toNat (loaded d) >>=
      scaleUp d.fractionExponent.natAbs d.fractionExponent.toNat := rfl
  rw [hrun]
  rcases Int.le_total d.fractionExponent 0 with hneg | hpos
  · have htarget : (loaded d).value unitsDigit = d.magnitude * 2 ^ (-d.fractionExponent).toNat := by
      have hexp : ((-d.fractionExponent).toNat : Int) = -d.fractionExponent := by omega
      rw [hvalue, ← hmul, ← zpow_natCast, hexp, mul_assoc, ← zpow_add₀ (by norm_num),
        add_neg_cancel, zpow_zero, mul_one]
    have hsmall : (loaded d).value unitsDigit < (bbase : ℚ) ^ (unitsDigit + 1) := by
      have hcast : (d.fraction : ℚ) < 2 ^ 53 := by exact_mod_cast fraction_lt hd
      have hnum : (2 : ℚ) ^ 53 < (bbase : ℚ) ^ (unitsDigit + 1) := by
        have hthirty : unitsDigit + 1 = ((35 : Nat) : Int) := by decide
        rw [hthirty, zpow_natCast]
        norm_num
      rw [hvalue]
      exact hcast.trans hnum
    obtain ⟨m, hm⟩ := magnitude_places d
    have hbound : LsdBound (-d.fractionExponent).toNat (loaded d).lsd := by
      unfold LsdBound
      omega
    obtain ⟨n, hn, hnvalid, hnvalue⟩ :=
      scaleDown_spec d.fractionExponent.natAbs (by omega) hvalid (by omega) hsmall htarget hm hbound
    have hzero : d.fractionExponent.toNat = 0 := by omega
    refine ⟨n, ?_, hnvalid, hnvalue⟩
    rw [hn, hzero]
    exact scaleUp_zero _ n
  · have hzero : (-d.fractionExponent).toNat = 0 := by omega
    have hexp : ((d.fractionExponent).toNat : Int) = d.fractionExponent := by omega
    have hall : (loaded d).value unitsDigit * 2 ^ d.fractionExponent.toNat = d.magnitude := by
      rw [hvalue, ← hmul, ← zpow_natCast, hexp]
    have hsmall := magnitude_lt d
    rw [← hall] at hsmall
    obtain ⟨n, hn, hnvalid, hnvalue⟩ :=
      scaleUp_spec d.fractionExponent.natAbs (by omega) hvalid hsmall (by omega)
    refine ⟨n, ?_, hnvalid, by rw [hnvalue, hall]⟩
    rw [hzero, scaleDown_zero]
    exact hn

end Loading

section Places

theorem roundPos_eq (scale : Int) :
    roundPos scale = 9 * (roundDigit scale - unitsDigit) - scale ∧ 0 ≤ roundPos scale
      ∧ roundPos scale < 9 := by
  have hnine : ((ddigPerDig : Nat) : Int) = 9 := rfl
  rw [roundPos, roundDigit, hnine]
  rcases le_or_gt scale 0 with hle | hgt
  · have hmod := Int.tmod_eq_emod_of_nonneg (a := -scale) (b := 9) (by omega)
    rw [hmod, if_pos hle, if_neg (by omega)]
    omega
  · have hmod : Int.tmod (-scale) 9 = -(scale % 9) := by
      rw [Int.neg_tmod, Int.tmod_eq_emod_of_nonneg hgt.le]
    rw [hmod, if_neg (not_le.mpr hgt)]
    split
    · omega
    · omega

/-- The rounding place is within the digit there. -/
theorem ten_zpow (scale : Int) :
    (10 : ℚ) ^ scale * 10 ^ (roundPos scale).toNat
      = (bbase : ℚ) ^ (roundDigit scale - unitsDigit) := by
  obtain ⟨heq, hnonneg, _⟩ := roundPos_eq scale
  have hbase : (bbase : ℚ) = 10 ^ (9 : Int) := by norm_num
  have hcast : ((roundPos scale).toNat : Int) = roundPos scale := Int.toNat_of_nonneg hnonneg
  rw [hbase, ← zpow_mul, ← zpow_natCast, hcast, ← zpow_add₀ (by norm_num), heq]
  congr 1
  ring

end Places

section Rounding

variable {n : Bignum}

theorem even_bbase_div {k : Nat} (hk : k < 9) : Even (bbase / 10 ^ k) := by
  interval_cases k <;> decide

theorem bbase_div_dvd {k : Nat} (h0 : k ≠ 0) (hk : k < 9) : bbase / 10 ^ k ∣ bbase / 2 := by
  interval_cases k
  · exact absurd rfl h0
  all_goals decide

theorem bbase_eq_mul {k : Nat} (hk : k < 9) : bbase = 10 ^ k * (bbase / 10 ^ k) := by
  interval_cases k <;> decide

/-- What rounding at a place puts into the digit there. -/
theorem roundAt_spec (h : n.Valid) (negative : Bool) (scale : Int) :
    ∃ rounded N : Nat, roundAt .toNearest negative n scale
        = (replaceLsd n (roundDigit scale) (10 ^ (roundPos scale).toNat * rounded),
          if roundDigit scale < n.msd then 0 else (roundPos scale).toNat)
      ∧ 10 ^ (roundPos scale).toNat * rounded ≤ bbase
      ∧ NearestEven (n.value unitsDigit * (10 : ℚ) ^ scale) N
      ∧ 10 ^ (roundPos scale).toNat * N
        = Numeral.value bbase (n.upper (roundDigit scale - 1)) * bbase
          + 10 ^ (roundPos scale).toNat * rounded
      ∧ (roundDigit scale < n.msd → 10 ^ (roundPos scale).toNat * rounded = N) := by
  obtain ⟨_, hnonneg, hlt⟩ := roundPos_eq scale
  have hten := ten_zpow scale
  have hsplit := n.value_split unitsDigit (roundDigit scale)
  have hnine : (roundPos scale).toNat < 9 := by omega
  generalize hi : roundDigit scale = i at hten hsplit ⊢
  generalize hk : (roundPos scale).toNat = k at hten hnine ⊢
  have hbase := bbase_eq_mul hnine
  generalize hw : bbase / 10 ^ k = w at hbase
  have heven : Even w := hw ▸ even_bbase_div hnine
  have hD := n.digit_lt h.lt i
  have htail := n.tail_nonneg i
  have htailone := Bignum.tail_lt_one h.lt i
  have hpos : (0 : ℚ) < 10 ^ k := by positivity
  have hwpos : 0 < w := by
    rcases Nat.eq_zero_or_pos w with hzero | hpos
    · rw [hzero, Nat.mul_zero] at hbase
      cases hbase
    · exact hpos
  have hbaseq : (bbase : ℚ) = 10 ^ k * w := by exact_mod_cast hbase
  -- the digit at the place, and what of it is rounded away
  have hdigit := Nat.div_add_mod (n.digit i) (10 ^ k)
  have hmod := Nat.mod_lt (n.digit i) (Nat.pow_pos (n := k) (by decide : 0 < 10))
  generalize hq : n.digit i / 10 ^ k = q at hdigit
  generalize hc : n.digit i % 10 ^ k = c at hdigit hmod
  have hdigitq : (n.digit i : ℚ) = 10 ^ k * q + c := by exact_mod_cast hdigit.symm
  have hf : ((c : ℚ) + n.tail i) / 10 ^ k * 10 ^ k = c + n.tail i := div_mul_cancel₀ _ hpos.ne'
  generalize hfdef : ((c : ℚ) + n.tail i) / 10 ^ k = f at hf
  have hf0 : 0 ≤ f := by
    rw [← hfdef]
    positivity
  have hf1 : f < 1 := by
    have hcq : (c : ℚ) + 1 ≤ 10 ^ k := by exact_mod_cast hmod
    rw [← hfdef, div_lt_one hpos]
    linarith
  have hround : ∃ rounded, roundAt .toNearest negative n scale
      = (replaceLsd n i (10 ^ k * rounded), if i < n.msd then 0 else k)
        ∧ NearestEven (q + f) rounded
      ∧ rounded ≤ q + 1 := by
    unfold roundAt
    simp only [hi, hk]
    by_cases hzero : k = 0
    · rw [if_pos hzero]
      refine ⟨_, rfl, ?_, ?_⟩
      · have hc0 : c = 0 := by
          rw [hzero, pow_zero] at hmod
          omega
        have hqD : n.digit i = q := by
          rw [hzero, pow_zero, hc0] at hdigit
          omega
        rw [hc0, hzero, pow_zero, mul_one, Nat.cast_zero, zero_add] at hf
        have hpred := n.tail_pred (i + 1)
        rw [add_sub_cancel_right] at hpred
        rw [hqD]
        refine Bignum.roundIt_spec h.lt (w := 1) ?_ hf0 hf1 (by decide) (Nat.one_dvd _)
          (Nat.one_dvd _) negative q
        rw [hf, hpred, Nat.cast_one, mul_one]
      · have hqD : n.digit i ≤ q := by
          rw [← hq, hzero, pow_zero, Nat.div_one]
        exact (n.roundIt_le ..).trans (Nat.succ_le_succ hqD)
    · rw [if_neg hzero]
      have hsub : (n.digit i - n.digit i % 10 ^ k) / 10 ^ k = q := by
        rw [hc, ← hdigit, Nat.add_sub_cancel]
        exact Nat.mul_div_cancel_left q (Nat.pow_pos (by decide))
      rw [hsub, hc, hw]
      refine ⟨_, rfl, ?_, n.roundIt_le ..⟩
      have hhalf := bbase_div_dvd hzero hnine
      rw [hw] at hhalf
      refine Bignum.roundIt_spec h.lt (w := w) ?_ hf0 hf1 hwpos (Nat.dvd_mul_left ..) hhalf negative
        q
      rw [hbaseq, Nat.cast_mul]
      linear_combination w * hf
  obtain ⟨rounded, hrun, hnear, hle⟩ := hround
  refine ⟨rounded, Numeral.value bbase (n.upper (i - 1)) * w + rounded, hrun, ?_, ?_, ?_, ?_⟩
  · have hqw : q + 1 ≤ w := by
      apply Nat.lt_of_mul_lt_mul_left (a := 10 ^ k)
      rw [← hbase]
      omega
    calc 10 ^ k * rounded ≤ 10 ^ k * w := Nat.mul_le_mul_left _ (hle.trans hqw)
      _ = bbase := hbase.symm
  · have hupper : (Numeral.value bbase (n.upper i) : ℚ)
        = Numeral.value bbase (n.upper (i - 1)) * bbase + n.digit i := n.value_upper i
    have hx : n.value unitsDigit * (10 : ℚ) ^ scale
        = ((Numeral.value bbase (n.upper (i - 1)) * w : ℕ) : ℚ) + (q + f) := by
      apply mul_right_cancel₀ hpos.ne'
      rw [mul_assoc, hten, hsplit, hupper, hbaseq, hdigitq]
      push_cast
      linear_combination -hf
    rw [hx]
    exact hnear.add_even (heven.mul_left _)
  · calc 10 ^ k * (Numeral.value bbase (n.upper (i - 1)) * w + rounded)
        = Numeral.value bbase (n.upper (i - 1)) * (10 ^ k * w) + 10 ^ k * rounded := by ring
      _ = _ := by rw [← hbase]
  · intro hmsd
    rw [Bignum.upper_of_lt (by omega), Numeral.value_nil, Nat.zero_mul, Nat.zero_add]
    by_cases hzero : k = 0
    · rw [hzero, pow_zero, Nat.one_mul]
    · -- all of the value is below the place
      have hD0 : n.digit i = 0 := by rw [Bignum.digit, if_pos hmsd]
      have hq0 : q = 0 := by rw [← hq, hD0, Nat.zero_div]
      have hc0 : c = 0 := by rw [← hc, hD0, Nat.zero_mod]
      have hsmall : f < 1 / 2 := by
        have htenk : (2 : ℚ) < 10 ^ k := by
          have hmono : (10 : ℚ) ^ 1 ≤ 10 ^ k :=
            pow_le_pow_right₀ (by norm_num) (Nat.one_le_iff_ne_zero.mpr hzero)
          linarith
        rw [← hfdef, hc0, Nat.cast_zero, zero_add, div_lt_div_iff₀ hpos (by norm_num)]
        linarith
      have hnone := hnear.unique (NearestEven.of_lt_half rfl hf0 hsmall)
      rw [hnone, hq0, Nat.mul_zero]

end Rounding

section Printing

variable {d e a : Nat} {l r : List Nat} {s : UStr}

/-- Carrying changes the way a number is written, not the number; a first digit stays one. -/
theorem carryUp_spec (hr : ∀ e ∈ r, e < bbase) (hd : d ≤ bbase) :
    ∃ out a, carryUp d r = out ++ [a] ∧ a < bbase
      ∧ Nat.ofDigits bbase ((carryUp d r).map (· % bbase)) = Nat.ofDigits bbase (d :: r)
      ∧ ((∀ e ∈ r.getLast?, e ≠ 0) → (r = [] → d ≠ 0) → a ≠ 0) := by
  have hdiv := Nat.mod_add_div d bbase
  have hone : d / bbase ≤ 1 := (Nat.div_le_div_right hd).trans_eq (Nat.div_self (by decide))
  induction r generalizing d with
  | nil =>
    rw [carryUp]
    split
    · rename_i hlt
      refine ⟨[], d, rfl, hlt, ?_, fun _ hne => hne rfl⟩
      rw [List.map_singleton, Nat.mod_eq_of_lt hlt]
    · rename_i hge
      have hpos : 0 < d / bbase := Nat.div_pos (Nat.le_of_not_lt hge) (by decide)
      have hlt : d / bbase < bbase := hone.trans_lt (by decide)
      refine ⟨[d], d / bbase, rfl, hlt, ?_, fun _ _ => hpos.ne'⟩
      simp only [List.map_cons, List.map_nil, Nat.ofDigits_cons, Nat.ofDigits_nil,
        Nat.mod_eq_of_lt hlt, Nat.mul_zero, Nat.add_zero, hdiv]
  | cons e r ih =>
    have he := hr e (List.mem_cons_self ..)
    have hrest : ∀ c ∈ r, c < bbase := fun c hc => hr c (List.mem_cons_of_mem _ hc)
    rw [carryUp]
    split
    · rename_i hlt
      have hsame : (d :: e :: r).map (· % bbase) = d :: e :: r := by
        have hid : ∀ c ∈ d :: e :: r, c % bbase = id c := by
          intro c hc
          rcases List.mem_cons.mp hc with rfl | hc
          · exact Nat.mod_eq_of_lt hlt
          · exact Nat.mod_eq_of_lt (hr c hc)
        rw [List.map_congr_left hid, List.map_id]
      obtain ⟨out, a, hout⟩ := (List.eq_nil_or_concat' (e :: r)).resolve_left (List.cons_ne_nil _ _)
      refine ⟨d :: out, a, by rw [hout]; rfl, hr a (by rw [hout]; simp), by rw [hsame], ?_⟩
      intro hlast _
      exact hlast a (by rw [hout]; simp)
    · rename_i hge
      have hsum : e + d / bbase ≤ bbase := by omega
      obtain ⟨out, a, hout, ha, hvalue, hne⟩ := ih hrest hsum (Nat.mod_add_div _ _)
        ((Nat.div_le_div_right hsum).trans_eq (Nat.div_self (by decide)))
      refine ⟨d :: out, a, by rw [hout]; rfl, ha, ?_, ?_⟩
      · rw [List.map_cons, Nat.ofDigits_cons, hvalue]
        simp only [Nat.ofDigits_cons]
        linear_combination hdiv
      · intro hlast _
        apply hne
        · intro c hc
          cases r with
          | nil => cases hc
          | cons c' r => exact hlast c (by simpa using hc)
        · intro _
          have hpos : 0 < d / bbase := Nat.div_pos (Nat.le_of_not_lt hge) (by decide)
          omega

theorem length_lastDigits (count d : Nat) : (lastDigits count d).length = count := by
  induction count generalizing d with
  | zero => rfl
  | succ count ih => rw [lastDigits, List.length_append, ih, List.length_singleton]

theorem isDigit_add_zero {d : Nat} (hd : d < 10) : isDigit (d + UChar.zero) = true := by
  interval_cases d <;> decide

theorem lastDigits_isDigit (count d : Nat) : ∀ c ∈ lastDigits count d, isDigit c = true := by
  induction count generalizing d with
  | zero => simp [lastDigits]
  | succ count ih =>
    intro c hc
    rcases List.mem_append.mp hc with hc | hc
    · exact ih _ c hc
    · rw [List.mem_singleton.mp hc]
      exact isDigit_add_zero (Nat.mod_lt _ (by decide))

theorem ofDigits_lastDigits (count d : Nat) : ofDigits (lastDigits count d) = d % 10 ^ count := by
  induction count generalizing d with
  | zero => simp [lastDigits, ofDigits, Nat.mod_one]
  | succ count ih =>
    have hlast : ofDigits [d % 10 + UChar.zero] = d % 10 := by
      rw [ofDigits, List.map_singleton, Numeral.value_singleton, Nat.add_sub_cancel]
    rw [lastDigits, ofDigits_append, ih, hlast, List.length_singleton, pow_one, pow_succ',
      Nat.mod_mul]
    ring

theorem ofDigits_flatMap (l : List Nat) :
    ofDigits (l.flatMap (lastDigits ddigPerDig)) = Numeral.value bbase (l.map (· % bbase))
      ∧ (l.flatMap (lastDigits ddigPerDig)).length = 9 * l.length := by
  induction l with
  | nil => exact ⟨rfl, rfl⟩
  | cons d l ih =>
    obtain ⟨hvalue, hlen⟩ := ih
    have hpow : (10 : Nat) ^ (9 * l.length) = bbase ^ l.length := by rw [pow_mul]; rfl
    rw [List.flatMap_cons, ofDigits_append, hvalue, hlen, ofDigits_lastDigits, hpow, List.map_cons,
      Numeral.value_cons,
      List.length_map, List.length_append, length_lastDigits, hlen, List.length_cons]
    refine ⟨rfl, ?_⟩
    show 9 + 9 * l.length = _
    ring

theorem lt_pow_log (a : Nat) : a < 10 ^ (Nat.log 10 a + 1) := Nat.lt_pow_succ_log_self (by decide) a

/-- The digits printed are those of the number. -/
theorem ofDigits_print (a : Nat) (l : List Nat) :
    ofDigits (print (a :: l)) = a * bbase ^ l.length + Numeral.value bbase (l.map (· % bbase))
      ∧ (print (a :: l)).length = Nat.log 10 a + 1 + 9 * l.length := by
  obtain ⟨hvalue, hlen⟩ := ofDigits_flatMap l
  have hpow : (10 : Nat) ^ (9 * l.length) = bbase ^ l.length := by rw [pow_mul]; rfl
  rw [print, ofDigits_append, hvalue, hlen, ofDigits_lastDigits, hpow,
    Nat.mod_eq_of_lt (lt_pow_log a), List.length_append, length_lastDigits, hlen]
  exact ⟨rfl, rfl⟩

theorem print_isDigit (l : List Nat) : ∀ c ∈ print l, isDigit c = true := by
  cases l with
  | nil => simp [print]
  | cons a l =>
    intro c hc
    rcases List.mem_append.mp hc with hc | hc
    · exact lastDigits_isDigit _ _ c hc
    · obtain ⟨d, _, hd⟩ := List.mem_flatMap.mp hc
      exact lastDigits_isDigit _ _ c hd

/-- Digits whose number is as long as they are have no zero in front. -/
theorem isNumeral_of_pow_le (h : ∀ c ∈ s, isDigit c = true) (hne : s ≠ [])
    (hle : 10 ^ (s.length - 1) ≤ ofDigits s) :
    IsNumeral s := by
  refine ⟨h, hne, ?_⟩
  intro hhead
  cases s with
  | nil => cases hhead
  | cons c s =>
    cases hhead
    have hlt := ofDigits_lt fun d hd => h d (List.mem_cons_of_mem _ hd)
    have hvalue : ofDigits (UChar.zero :: s) = ofDigits s := by
      rw [ofDigits, List.map_cons, Numeral.value_cons, Nat.sub_self, Nat.zero_mul, Nat.zero_add]
      rfl
    rw [hvalue, List.length_cons, Nat.add_sub_cancel] at hle
    exact absurd hlt (Nat.not_lt_of_le hle)

theorem isNumeral_print (ha : a ≠ 0) (l : List Nat) : IsNumeral (print (a :: l)) := by
  obtain ⟨hvalue, hlen⟩ := ofDigits_print a l
  apply isNumeral_of_pow_le (print_isDigit _)
  · rw [← List.length_pos_iff, hlen]
    omega
  · have hlog := Nat.pow_log_le_self 10 ha
    have hpow : (10 : Nat) ^ (9 * l.length) = bbase ^ l.length := by rw [pow_mul]; rfl
    have hmul := Nat.mul_le_mul_right (bbase ^ l.length) hlog
    have hexp : Nat.log 10 a + 1 + 9 * l.length - 1 = Nat.log 10 a + 9 * l.length := by omega
    rw [hvalue, hlen, hexp, pow_add, hpow]
    omega

/-- Zeroes at the end can be cut off. -/
theorem rdrop_spec {N k : Nat} (h : IsNumeral s) (hvalue : ofDigits s = 10 ^ k * N) (hN : N ≠ 0) :
    IsNumeral (s.rdrop k) ∧ ofDigits (s.rdrop k) = N := by
  have hlt := ofDigits_lt h.digits_eq
  have hpow : 10 ^ k ≤ ofDigits s := by
    rw [hvalue]
    exact Nat.le_mul_of_pos_right _ (Nat.pos_of_ne_zero hN)
  have hlen : k < s.length := (Nat.pow_lt_pow_iff_right (by decide)).mp (hpow.trans_lt hlt)
  have hsplit := ofDigits_append (s.take (s.length - k)) (s.drop (s.length - k))
  have hdrop : (s.drop (s.length - k)).length = k := by
    rw [List.length_drop]
    omega
  have hsmall : ofDigits (s.drop (s.length - k)) < 10 ^ k := by
    have hdroplt := ofDigits_lt (s := s.drop (s.length - k)) fun c hc =>
      h.digits_eq c (List.mem_of_mem_drop hc)
    rwa [hdrop] at hdroplt
  rw [List.take_append_drop, hvalue, hdrop] at hsplit
  have hzero : ofDigits (s.drop (s.length - k)) = 0 := by
    have hmod := congrArg (· % 10 ^ k) hsplit
    simp only [Nat.mul_mod_right, Nat.mul_add_mod_self_right, Nat.mod_eq_of_lt hsmall] at hmod
    exact hmod.symm
  refine ⟨⟨fun c hc => h.digits_eq c (List.mem_of_mem_take hc), ?_, ?_⟩, ?_⟩
  · rw [← List.length_pos_iff, List.rdrop, List.length_take]
    omega
  · intro hhead
    have hfirst : s.head? = some UChar.zero := by
      cases s with
      | nil => simp at hlen
      | cons c s =>
        obtain ⟨j, hj⟩ := Nat.exists_eq_add_of_lt hlen
        have hcount : (c :: s).length - k = j + 1 := by omega
        rw [List.rdrop, hcount, List.take_succ_cons] at hhead
        exact hhead
    have hone := h.minimal hfirst
    rw [List.rdrop, List.length_take]
    omega
  · rw [hzero, Nat.add_zero, Nat.mul_comm] at hsplit
    rw [List.rdrop]
    exact (Nat.mul_right_cancel (Nat.pow_pos (by decide)) hsplit).symm

end Printing

section Replacing

variable {n : Bignum} {i : Int} {d : Nat}

theorem upper_lt (h : n.Valid) (i : Int) : ∀ e ∈ n.upper i, e < bbase := by
  intro e he
  rcases List.mem_append.mp he with he | he
  · exact h.lt e (List.mem_of_mem_take he)
  · rw [List.eq_of_mem_replicate he]
    decide

/-- Digits down to an index begin as the number does. -/
theorem head_upper (h : n.Valid) (hi : n.msd ≤ i) : ∃ e ∈ (n.upper i).head?, e ≠ 0 := by
  obtain ⟨e, digits, hdigits, he⟩ := h.exists_cons
  obtain ⟨count, hcount⟩ : ∃ count, (i + 1 - n.msd).toNat = count + 1 :=
    ⟨(i - n.msd).toNat, by omega⟩
  refine ⟨e, ?_, he⟩
  rw [Bignum.upper, hcount, hdigits, List.take_succ_cons]
  rfl

theorem replaceLsd_of_lt (h : i < n.msd) (d : Nat) : replaceLsd n i d = ⟨i, [d]⟩ := by
  rw [replaceLsd, if_pos h]

theorem replaceLsd_of_le (h : n.msd ≤ i) (d : Nat) :
    replaceLsd n i d = ⟨i + 1 - (carryUp d (n.upper (i - 1)).reverse).length,
      (carryUp d (n.upper (i - 1)).reverse).reverse⟩ := by
  have hpred : i - 1 + 1 - n.msd = i - n.msd := by ring
  rw [replaceLsd, if_neg (not_lt.mpr h), Bignum.upper, hpred]
  simp only [List.length_reverse]

/-- The digits after one is replaced: with the carries done, they denote the number with that
digit. -/
theorem replaceLsd_spec (h : n.Valid) (hi : n.msd ≤ i) (hd : d ≤ bbase) (hne : i = n.msd → d ≠ 0) :
    ∃ a l, replaceLsd n i d = ⟨i - l.length, a :: l⟩ ∧ a ≠ 0
      ∧ a * bbase ^ l.length + Numeral.value bbase (l.map (· % bbase))
        = Numeral.value bbase (n.upper (i - 1)) * bbase + d := by
  obtain ⟨out, a, hout, ha, hvalue, hfirst⟩ :=
    carryUp_spec (r := (n.upper (i - 1)).reverse) (d := d)
    (fun e he => upper_lt h (i - 1) e (List.mem_reverse.mp he)) hd
  have ha0 : a ≠ 0 := by
    apply hfirst
    · intro e he
      rw [List.getLast?_reverse] at he
      rcases lt_or_ge (i - 1) n.msd with hlt | hge
      · rw [Bignum.upper_of_lt hlt] at he
        cases he
      · obtain ⟨c, hc, hc0⟩ := head_upper h hge
        rw [Option.mem_unique he hc]
        exact hc0
    · intro hnil
      apply hne
      by_contra hlt
      obtain ⟨c, hc, _⟩ := head_upper h (i := i - 1) (by omega)
      rw [List.reverse_eq_nil_iff.mp hnil] at hc
      cases hc
  refine ⟨a, out.reverse, ?_, ha0, ?_⟩
  · rw [replaceLsd_of_le hi, hout, List.reverse_append, List.reverse_singleton,
      List.singleton_append]
    simp only [List.length_append, List.length_singleton, List.length_reverse]
    congr 1
    push_cast
    ring
  · have hdigits : Numeral.value bbase ((a :: out.reverse).map (· % bbase))
        = Numeral.value bbase (n.upper (i - 1) ++ [d]) := by
      rw [Numeral.value, Numeral.value, ← List.map_reverse, List.reverse_append]
      rw [hout] at hvalue
      simpa using hvalue
    rw [List.map_cons, Nat.mod_eq_of_lt ha, Numeral.value_cons, List.length_map,
      Numeral.value_concat] at hdigits
    exact hdigits

end Replacing

end ToDigits

/-- The places `cif_value_init_numb` takes: `LEAST_DBL_10_DIGIT` to `DBL_MAX_10_EXP`. -/
def Admissible (scale : Int) : Prop := 1 + dblMin10Exp - dblDig ≤ -scale ∧ -scale ≤ dblMax10Exp

/-- The value rounds to zero within the digit of the base that is its first one. -/
def Double.Vanishes (d : Double) (scale : Int) : Prop :=
  d.magnitude * (10 : ℚ) ^ scale ≤ 1 / 2 ∧ 1 ≤ d.magnitude * (10 : ℚ) ^ (9 * ((scale + 8) / 9))

/-- A digit string of the nearest number of units at the place, the even one of two. -/
def Double.Rounds (d : Double) (scale : Int) (digits : UStr) : Prop :=
  ∃ N, NearestEven (d.magnitude * (10 : ℚ) ^ scale) N ∧ IsNumeral digits ∧ ofDigits digits = N

section ToDigits

open ToDigits

variable {d : Double} {scale : Int} {n : Bignum}

theorem roundDigit_eq (scale : Int) : roundDigit scale = unitsDigit + (scale + 8) / 9 := by
  have hnine : ((ddigPerDig : Nat) : Int) = 9 := rfl
  rw [roundDigit, hnine]
  split
  · omega
  · omega

theorem roundDigit_within (h : Admissible scale) :
    0 ≤ roundDigit scale ∧ roundDigit scale ≤ 70 := by
  obtain ⟨hlow, hhigh⟩ := h
  have hmin : 1 + dblMin10Exp - (dblDig : Int) = -321 := by decide
  have hmax : (dblMax10Exp : Int) = 308 := rfl
  rw [roundDigit_eq, unitsDigit_eq]
  omega

theorem bbase_zpow_place (scale : Int) :
    (bbase : ℚ) ^ (roundDigit scale - unitsDigit) = (10 : ℚ) ^ (9 * ((scale + 8) / 9)) := by
  have hbase : (bbase : ℚ) = 10 ^ (9 : Int) := by norm_num
  rw [roundDigit_eq, hbase, ← zpow_mul]
  congr 1
  ring

theorem toDigits_eq (hd : d.mantissa ≠ 0) (hscale : Admissible scale) (hload : load d = some n)
    {mode : RoundingMode}
    (hassert : ¬ (roundDigit scale < n.msd ∧ 1 < (roundAt mode d.negative n scale).1.digit
      (roundAt mode d.negative n scale).1.msd)) :
    toDigits mode d scale = ((roundAt mode d.negative n scale).1.within (digPerDbl + 1)).map
      fun rounded => (print rounded.digits).rdrop (roundAt mode d.negative n scale).2 := by
  have hplace := roundDigit_within hscale
  have hsize := digPerDbl_eq
  rw [toDigits, if_neg hd, hload, Option.bind_eq_bind, Option.bind_some, if_pos (by omega)]
  generalize roundAt mode d.negative n scale = result at hassert ⊢
  obtain ⟨rounded, truncated⟩ := result
  dsimp only at hassert ⊢
  rw [if_neg (by simpa using hassert)]
  cases rounded.within (digPerDbl + 1) with
  | none => rfl
  | some rounded => rfl

/-- The rounded digits are within the array. -/
theorem within_rounded {a N k : Nat} {l : List Nat} (hscale : Admissible scale)
    (hvalue : n.value unitsDigit = d.magnitude)
    (hnear : NearestEven (n.value unitsDigit * (10 : ℚ) ^ scale) N)
    (hk : k = (roundPos scale).toNat) (ha : a ≠ 0) (hle : a * bbase ^ l.length ≤ 10 ^ k * N) :
    (⟨roundDigit scale - l.length, a :: l⟩ : Bignum).within (digPerDbl + 1)
      = some ⟨roundDigit scale - l.length, a :: l⟩ := by
  obtain ⟨hlow, hhigh⟩ := roundDigit_within hscale
  obtain ⟨_, _, hpos⟩ := roundPos_eq scale
  have hten := ten_zpow scale
  have hsize := digPerDbl_eq
  generalize hi : roundDigit scale = i at hlow hhigh hten ⊢
  rw [← hk] at hten
  have hmax := magnitude_lt_max d
  rw [← hvalue] at hmax
  have hN : (N : ℚ) ≤ n.value unitsDigit * (10 : ℚ) ^ scale + 1 / 2 := by
    have habs := abs_le.mp hnear.1
    linarith
  have hpowk : (10 : ℚ) ^ k ≤ 10 ^ 8 := pow_le_pow_right₀ (by norm_num) (by omega)
  have hplace : (2 * 10 ^ 308 : ℚ) * (bbase : ℚ) ^ (i - unitsDigit) = 200 * (bbase : ℚ) ^ i := by
    have hunits : (2 * 10 ^ 308 : ℚ) = 200 * (bbase : ℚ) ^ unitsDigit := by
      have hexp : (10 : ℚ) ^ 308 = 10 ^ 2 * (10 ^ 9) ^ 34 := by rw [← pow_mul, ← pow_add]
      rw [unitsDigit_eq, show (34 : Int) = ((34 : Nat) : Int) from rfl, zpow_natCast, hexp]
      norm_num
    rw [hunits, mul_assoc, ← zpow_add₀ Bignum.bbase_ne_zero]
    congr 2
    ring
  have hone : (1 : ℚ) ≤ (bbase : ℚ) ^ i := one_le_zpow₀ (by norm_num) hlow
  have hbig : (10 : ℚ) ^ k * N < (bbase : ℚ) ^ (i + 1) := by
    have hzpow : (0 : ℚ) < (bbase : ℚ) ^ (i - unitsDigit) := by positivity
    have hposk : (0 : ℚ) < 10 ^ k := by positivity
    have hscaled : n.value unitsDigit * (bbase : ℚ) ^ (i - unitsDigit) < 200 * (bbase : ℚ) ^ i := by
      rw [← hplace]
      exact mul_lt_mul_of_pos_right hmax hzpow
    calc (10 : ℚ) ^ k * N ≤ 10 ^ k * (n.value unitsDigit * (10 : ℚ) ^ scale + 1 / 2) :=
          mul_le_mul_of_nonneg_left hN hposk.le
      _ = n.value unitsDigit * (bbase : ℚ) ^ (i - unitsDigit) + 10 ^ k / 2 := by
          rw [← hten]
          ring
      _ < (bbase : ℚ) ^ i * bbase := by
          have hbase : (bbase : ℚ) = 1000000000 := by norm_num
          generalize n.value unitsDigit * (bbase : ℚ) ^ (i - unitsDigit) = v at hscaled
          generalize (bbase : ℚ) ^ i = b at hscaled hone
          rw [hbase]
          linarith
      _ = (bbase : ℚ) ^ (i + 1) := (zpow_add_one₀ Bignum.bbase_ne_zero i).symm
  have hlen : (l.length : Int) < i + 1 := by
    have hpow : bbase ^ l.length ≤ a * bbase ^ l.length :=
      Nat.le_mul_of_pos_left _ (Nat.pos_of_ne_zero ha)
    have hcast : ((bbase : ℚ) ^ l.length) ≤ 10 ^ k * N := by exact_mod_cast hpow.trans hle
    have hlt := hcast.trans_lt hbig
    rw [← zpow_natCast, zpow_lt_zpow_iff_right₀ (by norm_num)] at hlt
    exact hlt
  have hlsd : (⟨i - l.length, a :: l⟩ : Bignum).lsd = i := by
    rw [Bignum.lsd, List.length_cons]
    push_cast
    ring
  rw [Bignum.within, if_pos]
  rw [hlsd]
  dsimp only
  omega

/-- What `to_digits` answers: the digits of the rounded value, or none at all where it vanishes. -/
theorem toDigits_spec (d : Double) (hscale : Admissible scale) :
    (¬ d.Vanishes scale ∧ ∃ digits, toDigits .toNearest d scale = some digits
      ∧ d.Rounds scale digits)
      ∨ (d.Vanishes scale ∧ toDigits .toNearest d scale = some []) := by
  by_cases hd : d.mantissa = 0
  · left
    have hzero : d.magnitude = 0 := by rw [Double.magnitude, hd, Nat.cast_zero, zero_mul]
    refine ⟨?_, [UChar.zero], by rw [toDigits, if_pos hd], 0, ?_, ?_, rfl⟩
    · rintro ⟨_, hone⟩
      rw [hzero, zero_mul] at hone
      linarith
    · rw [hzero, zero_mul, NearestEven.zero_iff le_rfl]
      norm_num
    · exact ⟨by decide, by decide, fun _ => rfl⟩
  obtain ⟨n, hload, hvalid, hvalue⟩ := load_spec hd
  obtain ⟨rounded, N, hrun, hrounded, hnear, hN, hbelow⟩ := roundAt_spec hvalid d.negative scale
  have hplace := bbase_zpow_place scale
  have hten := ten_zpow scale
  have hx0 : 0 ≤ n.value unitsDigit * (10 : ℚ) ^ scale :=
    mul_nonneg (hvalid.value_pos _).le (by positivity)
  unfold Double.Vanishes Double.Rounds
  rw [← hvalue, ← hplace]
  generalize hk : (roundPos scale).toNat = k at *
  rcases lt_or_ge (roundDigit scale) n.msd with hlt | hge
  · -- the value is below the digit of the place, where only zero or one is left
    left
    have hsmall : n.value unitsDigit * (bbase : ℚ) ^ (roundDigit scale - unitsDigit) < 1 := by
      have hpow : (bbase : ℚ) ^ (unitsDigit + 1 - n.msd)
          ≤ (bbase : ℚ) ^ (-(roundDigit scale - unitsDigit)) :=
        zpow_le_zpow_right₀ (by norm_num) (by omega)
      have hbound := (Bignum.value_lt hvalid.lt unitsDigit).trans_le hpow
      have hpos : (0 : ℚ) < (bbase : ℚ) ^ (roundDigit scale - unitsDigit) := by positivity
      rw [zpow_neg] at hbound
      calc n.value unitsDigit * (bbase : ℚ) ^ (roundDigit scale - unitsDigit)
          < ((bbase : ℚ) ^ (roundDigit scale - unitsDigit))⁻¹ * (bbase : ℚ)
            ^ (roundDigit scale - unitsDigit) :=
            mul_lt_mul_of_pos_right hbound hpos
        _ = 1 := inv_mul_cancel₀ hpos.ne'
    have hN1 : N ≤ 1 := by
      have habs := abs_le.mp hnear.1
      have hone : (1 : ℚ) ≤ 10 ^ k := one_le_pow₀ (by norm_num)
      have hgrow := mul_le_mul_of_nonneg_left hone hx0
      rw [mul_one, mul_assoc, hten] at hgrow
      have hcast : (N : ℚ) < 2 := by
        have hx := hgrow.trans_lt hsmall
        generalize n.value unitsDigit * (10 : ℚ) ^ scale = x at hx habs
        linarith
      exact Nat.lt_succ_iff.mp (by exact_mod_cast hcast)
    have hdigit : (⟨roundDigit scale, [N]⟩ : Bignum).digit (roundDigit scale) = N := by
      simp [Bignum.digit]
    have hassert : ¬ (roundDigit scale < n.msd ∧ 1 < (roundAt .toNearest d.negative n scale).1.digit
        (roundAt .toNearest d.negative n scale).1.msd) := by
      rw [hrun, replaceLsd_of_lt hlt, hbelow hlt]
      dsimp only
      rw [hdigit]
      omega
    rw [toDigits_eq hd hscale hload hassert, hrun]
    refine ⟨fun h => absurd h.2 (not_le.mpr hsmall), print [N], ?_, N, hnear, ?_, ?_⟩
    · obtain ⟨hlow, hhigh⟩ := roundDigit_within hscale
      have hsize := digPerDbl_eq
      have hlsd : (⟨roundDigit scale, [N]⟩ : Bignum).lsd = roundDigit scale := by
        rw [Bignum.lsd, List.length_singleton]
        ring
      rw [replaceLsd_of_lt hlt, hbelow hlt, if_pos hlt, Bignum.within,
        if_pos ⟨hlow, by rw [hlsd]; omega⟩, Option.map_some, List.rdrop_zero]
    · by_cases hN0 : N = 0
      · rw [hN0]
        exact ⟨by decide, by decide, fun _ => rfl⟩
      · exact isNumeral_print hN0 []
    · obtain ⟨hprint, _⟩ := ofDigits_print N []
      rw [hprint]
      simp
  · have hlarge : 1 ≤ n.value unitsDigit * (bbase : ℚ) ^ (roundDigit scale - unitsDigit) := by
      have hpow : (bbase : ℚ) ^ (-(roundDigit scale - unitsDigit))
          ≤ (bbase : ℚ) ^ (unitsDigit - n.msd) :=
        zpow_le_zpow_right₀ (by norm_num) (by omega)
      have hbound := hpow.trans (hvalid.le_value unitsDigit)
      have hpos : (0 : ℚ) < (bbase : ℚ) ^ (roundDigit scale - unitsDigit) := by positivity
      rw [zpow_neg] at hbound
      calc (1 : ℚ)
          = ((bbase : ℚ) ^ (roundDigit scale - unitsDigit))⁻¹ * (bbase : ℚ)
          ^ (roundDigit scale - unitsDigit) :=
            (inv_mul_cancel₀ hpos.ne').symm
        _ ≤ _ := mul_le_mul_of_nonneg_right hbound hpos.le
    rw [toDigits_eq hd hscale hload (fun h => not_lt.mpr hge h.1), hrun, if_neg (not_lt.mpr hge)]
    by_cases hN0 : N = 0
    · -- nothing is left of the digit, and all of its decimals are cut off
      right
      have hhalf : n.value unitsDigit * (10 : ℚ) ^ scale ≤ 1 / 2 := by
        rw [hN0] at hnear
        exact (NearestEven.zero_iff hx0).mp hnear
      have hzero : Numeral.value bbase (n.upper (roundDigit scale - 1)) = 0
          ∧ 10 ^ k * rounded = 0 := by
        rw [hN0, Nat.mul_zero] at hN
        have hparts := Nat.add_eq_zero_iff.mp hN.symm
        refine ⟨?_, hparts.2⟩
        exact (Nat.mul_eq_zero.mp hparts.1).resolve_right (by decide)
      have hnil : n.upper (roundDigit scale - 1) = [] := by
        rcases lt_or_ge (roundDigit scale - 1) n.msd with hlt | hge'
        · exact Bignum.upper_of_lt hlt
        · obtain ⟨e, he, hne⟩ := head_upper hvalid hge'
          have hall := (Numeral.value_eq_zero_iff (by decide)).mp hzero.1
          exact absurd (hall e (List.mem_of_mem_head? he)) hne
      have hk0 : k ≠ 0 := by
        intro hk0
        rw [hk0, pow_zero, mul_one] at hten
        rw [hten] at hhalf
        exact absurd (hlarge.trans hhalf) (by norm_num)
      refine ⟨⟨hhalf, hlarge⟩, ?_⟩
      obtain ⟨hlow, hhigh⟩ := roundDigit_within hscale
      have hsize := digPerDbl_eq
      have hdigits : replaceLsd n (roundDigit scale) 0 = ⟨roundDigit scale, [0]⟩ := by
        rw [replaceLsd_of_le hge, hnil]
        simp [carryUp]
      have hlsd : (⟨roundDigit scale, [0]⟩ : Bignum).lsd = roundDigit scale := by
        rw [Bignum.lsd, List.length_singleton]
        ring
      rw [hzero.2, hdigits, Bignum.within, if_pos ⟨hlow, by rw [hlsd]; omega⟩, Option.map_some]
      have hprint : (print [0]).length = 1 := by decide
      rw [List.rdrop, hprint, Nat.sub_eq_zero_of_le (Nat.one_le_iff_ne_zero.mpr hk0),
        List.take_zero]
    · left
      have hne : roundDigit scale = n.msd → 10 ^ k * rounded ≠ 0 := by
        intro heq hzero
        rw [hzero, Bignum.upper_of_lt (by omega), Numeral.value_nil] at hN
        have hpos : 0 < 10 ^ k * N := Nat.mul_pos (Nat.pow_pos (by decide)) (Nat.pos_of_ne_zero hN0)
        omega
      obtain ⟨a, l, hreplace, ha, hdigits⟩ := replaceLsd_spec hvalid hge hrounded hne
      rw [← hN] at hdigits
      obtain ⟨hprint, _⟩ := ofDigits_print a l
      rw [hdigits] at hprint
      obtain ⟨hnumeral, hdropped⟩ := rdrop_spec (isNumeral_print ha l) hprint hN0
      refine ⟨?_, (print (a :: l)).rdrop k, ?_, N, hnear, hnumeral, hdropped⟩
      · rintro ⟨hhalf, _⟩
        exact hN0 (hnear.unique ((NearestEven.zero_iff hx0).mpr hhalf))
      · rw [hreplace, within_rounded hscale hvalue hnear hk.symm ha (by omega), Option.map_some]

end ToDigits

/-- The digits are the rounded value's unless it vanishes within the first digit of the base. -/
theorem toDigits_rounds_iff (d : Double) {scale : Int} (hscale : Admissible scale) :
    (∃ digits, toDigits .toNearest d scale = some digits ∧ d.Rounds scale digits) ↔
      ¬ d.Vanishes scale := by
  rcases toDigits_spec d hscale with ⟨hstays, hdigits⟩ | ⟨hvanishes, hnone⟩
  · exact ⟨fun _ => hstays, fun _ => hdigits⟩
  · constructor
    · rintro ⟨digits, hdigits, _, _, hnumeral, _⟩
      rw [hnone] at hdigits
      cases hdigits
      exact absurd rfl hnumeral.digits_ne
    · exact fun hstays => absurd hvanishes hstays

/-- The double nearest to 0.04. -/
def fourHundredths : Double where
  negative := false
  mantissa := 5764607523034235
  exponent := -57
  mantissa_lt := by decide
  exponent_le := by decide

/-- In hundredths and in tenths. -/
theorem toDigits_rounds_iff_fourHundredths :
    ((∃ digits, toDigits .toNearest fourHundredths 2 = some digits ∧ fourHundredths.Rounds 2 digits)
        ↔ ¬ fourHundredths.Vanishes 2)
      ∧ ((∃ digits, toDigits .toNearest fourHundredths 1 = some digits
        ∧ fourHundredths.Rounds 1 digits)
        ↔ ¬ fourHundredths.Vanishes 1) :=
  ⟨toDigits_rounds_iff _ ⟨by decide, by decide⟩, toDigits_rounds_iff _ ⟨by decide, by decide⟩⟩

/-- In tenths it is zero, but no digit is left to say so. -/
theorem toDigits_vanishes : ¬ ∃ digits, toDigits .toNearest fourHundredths 1 = some digits
    ∧ fourHundredths.Rounds 1 digits := by
  rintro ⟨digits, hdigits, _, _, hnumeral, _⟩
  have hnone : toDigits .toNearest fourHundredths 1 = some [] := by decide +kernel
  rw [hnone] at hdigits
  cases hdigits
  exact absurd rfl hnumeral.digits_ne

end CifApi
