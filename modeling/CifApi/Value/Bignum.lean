import CifApi.Value.NumbText
import CifApi.Data.Limbs
import CifApi.Data.NearestEven
import Mathlib.Algebra.Order.Field.Power
import Mathlib.Data.List.GetD

/-! Numbers as arrays of digits in base `BBASE`, and how they are scaled and rounded. -/
namespace CifApi

abbrev bbase : Nat := 1000000000

/-- `DDIG_PER_DIG`: the decimal digits of a `bbase` digit. -/
abbrev ddigPerDig : Nat := 9

/-- `BDIG_PER_DIG`. -/
abbrev bdigPerDig : Nat := Nat.log2 bbase - 1

abbrev dblMantDig : Nat := 53
abbrev dblMax10Exp : Nat := 308
abbrev dblMin10Exp : Int := -307
abbrev dblDig : Nat := 15
abbrev dblMinExp : Int := -1021

/-- The rounding modes of `fegetround`. -/
inductive RoundingMode where
  | towardZero
  | downward
  | upward
  | toNearest

/-- The digits of a number in an array: the index of the most significant one, and the digits from
it to the least significant one. The rest of the array is zero. -/
structure Bignum where
  msd : Int
  digits : List Nat
  deriving DecidableEq

namespace Bignum

def lsd (n : Bignum) : Int := n.msd + n.digits.length - 1

def digit (n : Bignum) (i : Int) : Nat := if i < n.msd then 0 else n.digits.getD (i - n.msd).toNat 0

/-- Stepping past the array is not defined. -/
def within (n : Bignum) (size : Nat) : Option Bignum :=
  if 0 ≤ n.msd ∧ n.lsd < size then some n else none

/-- `while (*msd == 0) msd += 1`. -/
def skipLeading (n : Bignum) : Bignum where
  msd := n.msd + (n.digits.takeWhile (· = 0)).length
  digits := n.digits.dropWhile (· = 0)

/-- `while (*lsd == 0) lsd -= 1`. -/
def skipTrailing (n : Bignum) : Bignum := { n with digits := n.digits.rdropWhile (· = 0) }

/-- Digit-by-digit division by a bit shift, from the most significant digit on. -/
def divideDigits (shift : Nat) : Nat → List Nat → List Nat × Nat
  | remainder, [] => ([], remainder)
  | remainder, d :: digits =>
    let dividend := remainder + d
    let rest := divideDigits shift ((dividend &&& (1 <<< shift - 1)) * bbase) digits
    (dividend >>> shift :: rest.1, rest.2)

/-- The division goes on past the least significant digit while there is a remainder. -/
def divideRemainder (shift : Nat) : Nat → Nat → List Nat
  | 0, _ => []
  | fuel + 1, remainder =>
    if remainder = 0 then []
    else remainder >>> shift :: divideRemainder shift fuel
      ((remainder &&& (1 <<< shift - 1)) * bbase)

def shiftRight (n : Bignum) (shift : Nat) : Bignum :=
  let divided := divideDigits shift 0 n.digits
  skipLeading { n with digits := divided.1 ++ divideRemainder shift shift divided.2 }

/-- Digit-by-digit multiplication by a bit shift, from the least significant digit on. -/
def multiplyDigits (shift : Nat) : List Nat → List Nat × Nat
  | [] => ([], 0)
  | d :: digits =>
    let rest := multiplyDigits shift digits
    let product := d <<< shift + rest.2
    (product % bbase :: rest.1, product / bbase)

/-- The multiplication goes on past the most significant digit while there is a carry. -/
def multiplyCarry : Nat → Nat → List Nat → List Nat
  | 0, _, digits => digits
  | fuel + 1, carry, digits =>
    if carry = 0 then digits else multiplyCarry fuel (carry / bbase) (carry % bbase :: digits)

def shiftLeft (n : Bignum) (shift : Nat) : Bignum :=
  let product := multiplyDigits shift n.digits
  let digits := multiplyCarry shift product.2 product.1
  skipTrailing { msd := n.msd + n.digits.length - digits.length, digits }

/-- `is_zero`: a value and all digits after an index. -/
def isZero (n : Bignum) (checkValue : Nat) (i : Int) : Bool :=
  checkValue = 0 && (n.digits.drop (i + 1 - n.msd).toNat).all (· = 0)

def compareHalf (n : Bignum) (checkValue : Nat) (i : Int) : Ordering :=
  if checkValue < bbase / 2 then .lt
  else if checkValue = bbase / 2 && (i = n.lsd || n.isZero (n.digit (i + 1)) (i + 1)) then .eq
  else .gt

def roundIt (n : Bignum) (mode : RoundingMode) (negative : Bool) (roundValue checkValue : Nat)
    (i : Int) : Nat :=
  match mode with
  | .towardZero => roundValue
  | .downward => roundValue + if negative && !n.isZero checkValue i then 1 else 0
  | .upward => roundValue + if !negative && !n.isZero checkValue i then 1 else 0
  | .toNearest =>
    match n.compareHalf checkValue i with
    | .gt => roundValue + 1
    | .eq => (roundValue + 1) / 2 * 2
    | .lt => roundValue

/-- The number that the digits denote, where the units digit is at the index `units`. -/
def value (units : Int) (n : Bignum) : ℚ :=
  Numeral.value bbase n.digits * (bbase : ℚ) ^ (units - n.lsd)

/-- Digits of the base, of which the first is not zero. -/
structure Valid (n : Bignum) : Prop where
  lt : ∀ d ∈ n.digits, d < bbase
  head : ∃ d ∈ n.digits.head?, d ≠ 0

theorem bbase_ne_zero : (bbase : ℚ) ≠ 0 := by norm_num

theorem divideDigits_eq (shift remainder : Nat) (digits : List Nat) :
    divideDigits shift (remainder * bbase) digits
      = ((Numeral.divide bbase (2 ^ shift) remainder digits).1,
        (Numeral.divide bbase (2 ^ shift) remainder digits).2 * bbase) := by
  induction digits generalizing remainder with
  | nil => rfl
  | cons d digits ih =>
    rw [divideDigits, Numeral.divide, Nat.one_shiftLeft, Nat.and_two_pow_sub_one_eq_mod, ih,
      Nat.shiftRight_eq_div_pow]

theorem divideRemainder_eq (shift fuel remainder : Nat) :
    divideRemainder shift fuel (remainder * bbase)
      = Numeral.fraction bbase (2 ^ shift) fuel remainder := by
  induction fuel generalizing remainder with
  | zero => rfl
  | succ fuel ih =>
    have hzero : remainder * bbase = 0 ↔ remainder = 0 := by
      rw [Nat.mul_eq_zero]
      exact or_iff_left (by decide)
    rw [divideRemainder, Numeral.fraction, Nat.one_shiftLeft, Nat.and_two_pow_sub_one_eq_mod, ih,
      Nat.shiftRight_eq_div_pow]
    simp only [hzero]

theorem multiplyDigits_eq (shift : Nat) (digits : List Nat) :
    multiplyDigits shift digits = Numeral.multiply bbase (2 ^ shift) digits := by
  induction digits with
  | nil => rfl
  | cons d digits ih => rw [multiplyDigits, Numeral.multiply, ih, Nat.shiftLeft_eq]

theorem multiplyCarry_eq (fuel carry : Nat) (digits : List Nat) :
    multiplyCarry fuel carry digits = Numeral.carryOver bbase fuel carry digits := by
  induction fuel generalizing carry digits with
  | zero => rfl
  | succ fuel ih => rw [multiplyCarry, Numeral.carryOver, ih]

section Extent

variable {n : Bignum} {units : Int}

theorem Valid.exists_cons (h : n.Valid) : ∃ d digits, n.digits = d :: digits ∧ d ≠ 0 := by
  obtain ⟨d, hd, hne⟩ := h.head
  cases hdigits : n.digits with
  | nil =>
    rw [hdigits] at hd
    cases hd
  | cons e digits =>
    rw [hdigits] at hd
    cases hd
    exact ⟨d, digits, rfl, hne⟩

/-- The most significant digit tells the magnitude. -/
theorem Valid.le_value (h : n.Valid) (units : Int) :
    (bbase : ℚ) ^ (units - n.msd) ≤ n.value units := by
  obtain ⟨d, digits, hdigits, hd⟩ := h.exists_cons
  have hle := Numeral.pow_le_value (b := bbase) hd digits
  have hplace : units - n.msd = (digits.length : Int) + (units - n.lsd) := by
    rw [lsd, hdigits, List.length_cons]
    push_cast
    ring
  rw [value, hdigits, hplace, zpow_add₀ bbase_ne_zero, zpow_natCast]
  apply mul_le_mul_of_nonneg_right
  · exact_mod_cast hle
  · positivity

/-- One more zero at the end changes nothing. -/
theorem value_extend (n : Bignum) (units : Int) :
    ({ n with digits := n.digits ++ [0] } : Bignum).value units = n.value units := by
  have hplace : units - n.lsd
      = 1 + (units - ({ n with digits := n.digits ++ [0] } : Bignum).lsd) := by
    simp only [lsd, List.length_append, List.length_singleton]
    push_cast
    ring
  rw [value, value, hplace, zpow_add₀ bbase_ne_zero, zpow_one, Numeral.value_concat]
  push_cast
  ring

theorem value_lt (h : ∀ d ∈ n.digits, d < bbase) (units : Int) :
    n.value units < (bbase : ℚ) ^ (units + 1 - n.msd) := by
  have hlt := Numeral.value_lt (by decide) h
  have hplace : units + 1 - n.msd = (n.digits.length : Int) + (units - n.lsd) := by
    rw [lsd]
    ring
  rw [value, hplace, zpow_add₀ bbase_ne_zero, zpow_natCast]
  apply mul_lt_mul_of_pos_right
  · exact_mod_cast hlt
  · positivity

theorem Valid.value_pos (h : n.Valid) (units : Int) : 0 < n.value units := by
  have hle := h.le_value units
  have hpos : (0 : ℚ) < (bbase : ℚ) ^ (units - n.msd) := by positivity
  linarith

/-- A number below a power of the base has its first digit where that power says. -/
theorem Valid.lt_msd {k : Int} (h : n.Valid) (hlt : n.value units < (bbase : ℚ) ^ k) :
    units - k < n.msd := by
  have hpow := (h.le_value units).trans_lt hlt
  rw [zpow_lt_zpow_iff_right₀ (by norm_num)] at hpow
  omega

theorem value_eq_zero_iff : n.value units = 0 ↔ Numeral.value bbase n.digits = 0 := by
  rw [value, mul_eq_zero, Nat.cast_eq_zero]
  exact or_iff_left (zpow_ne_zero _ bbase_ne_zero)

@[simp] theorem skipLeading_lsd (n : Bignum) : n.skipLeading.lsd = n.lsd := by
  have hlen := congrArg List.length (List.takeWhile_append_dropWhile (p := (· = 0)) (l := n.digits))
  rw [List.length_append] at hlen
  simp only [lsd, skipLeading]
  omega

@[simp] theorem value_skipLeading (n : Bignum) (units : Int) :
    n.skipLeading.value units = n.value units := by
  rw [value, skipLeading_lsd]
  exact congrArg (fun m : Nat => (m : ℚ) * _) (Numeral.value_dropWhile bbase n.digits)

theorem valid_skipLeading (h : ∀ d ∈ n.digits, d < bbase) (hne : Numeral.value bbase n.digits ≠ 0) :
    n.skipLeading.Valid := by
  refine ⟨?_, ?_⟩
  · intro d hd
    exact h d ((List.dropWhile_sublist _).subset hd)
  · cases hdigits : n.digits.dropWhile (· = 0) with
    | nil =>
      rw [← Numeral.value_dropWhile, hdigits] at hne
      exact absurd rfl hne
    | cons d digits =>
      have hhead := @List.head_dropWhile_not _ (· = 0) n.digits (hdigits ▸ List.cons_ne_nil _ _)
      refine ⟨d, ?_, ?_⟩
      · simp [skipLeading, hdigits]
      · simpa [hdigits] using hhead

theorem skipTrailing_lsd_le (n : Bignum) : n.skipTrailing.lsd ≤ n.lsd := by
  have hle := (List.rdropWhile_prefix (· = 0) n.digits).length_le
  simp only [lsd, skipTrailing]
  omega

@[simp] theorem value_skipTrailing (n : Bignum) (units : Int) :
    n.skipTrailing.value units = n.value units := by
  have hle := (List.rdropWhile_prefix (· = 0) n.digits).length_le
  have hvalue := Numeral.value_rdropWhile bbase n.digits
  have hplace : units - n.skipTrailing.lsd
      = ((n.digits.length - (n.digits.rdropWhile (· = 0)).length : Nat) : Int)
        + (units - n.lsd) := by
    simp only [lsd, skipTrailing]
    omega
  rw [value, value, hplace, zpow_add₀ bbase_ne_zero, zpow_natCast, ← mul_assoc, hvalue]
  push_cast
  rfl

theorem Valid.skipTrailing (h : n.Valid) : n.skipTrailing.Valid := by
  obtain ⟨d, digits, hdigits, hd⟩ := h.exists_cons
  have hbefore := List.rdropWhile_prefix (· = 0) n.digits
  refine ⟨fun e he => h.lt e (hbefore.subset he), ?_⟩
  cases hrest : n.digits.rdropWhile (· = 0) with
  | nil =>
    have hzero := Numeral.value_rdropWhile bbase n.digits
    have hpos := Numeral.pow_le_value (b := bbase) hd digits
    rw [hrest, Numeral.value_nil, Nat.zero_mul] at hzero
    rw [← hdigits, hzero] at hpos
    exact absurd hpos (by simp)
  | cons e rest =>
    rw [hrest, hdigits, List.cons_prefix_cons] at hbefore
    refine ⟨e, ?_, ?_⟩
    · simp [Bignum.skipTrailing, hrest]
    · rw [hbefore.1]
      exact hd

end Extent

section Shifts

variable {n : Bignum}

theorem two_pow_dvd (shift remainder : Nat) : 2 ^ shift ∣ remainder * bbase ^ shift := by
  have hbase : 2 ^ shift ∣ bbase ^ shift := pow_dvd_pow_of_dvd (by decide) shift
  exact hbase.mul_left remainder

/-- The digits of a right shift before leading zeroes are skipped. -/
def shifted (n : Bignum) (shift : Nat) : Bignum :=
  let divided := Numeral.divide bbase (2 ^ shift) 0 n.digits
  { n with digits := divided.1 ++ Numeral.fraction bbase (2 ^ shift) shift divided.2 }

theorem shiftRight_eq (n : Bignum) (shift : Nat) :
    n.shiftRight shift = (n.shifted shift).skipLeading := by
  have hdivided := divideDigits_eq shift 0 n.digits
  rw [Nat.zero_mul] at hdivided
  simp only [shiftRight, shifted, hdivided, divideRemainder_eq]

theorem shifted_lt (h : ∀ d ∈ n.digits, d < bbase) (shift : Nat) :
    ∀ d ∈ (n.shifted shift).digits, d < bbase := by
  obtain ⟨hdigits, hremainder⟩ := Numeral.divide_lt (n := 2 ^ shift) h (Nat.two_pow_pos shift)
  intro d hd
  rcases List.mem_append.mp hd with hd | hd
  · exact hdigits d hd
  · exact Numeral.fraction_lt (by decide) hremainder d hd

theorem value_shifted (h : ∀ d ∈ n.digits, d < bbase) (shift : Nat) (units : Int) :
    (n.shifted shift).value units * 2 ^ shift = n.value units := by
  obtain ⟨_, hremainder⟩ := Numeral.divide_lt (n := 2 ^ shift) h (Nat.two_pow_pos shift)
  have hdivide := Numeral.divide_value bbase (2 ^ shift) 0 n.digits
  have hfraction := Numeral.fraction_value hremainder (two_pow_dvd shift _)
  have hlen := Numeral.length_divide bbase (2 ^ shift) 0 n.digits
  have hdigits : Numeral.value bbase (n.shifted shift).digits * 2 ^ shift
      = Numeral.value bbase n.digits
      * bbase ^ (Numeral.fraction bbase (2 ^ shift) shift
        (Numeral.divide bbase (2 ^ shift) 0 n.digits).2).length := by
    rw [shifted, Numeral.value_append]
    linear_combination hfraction + (bbase
      ^ (Numeral.fraction bbase (2 ^ shift) shift
        (Numeral.divide bbase (2 ^ shift) 0 n.digits).2).length) * hdivide
  have hplace : units - n.lsd
      = ((Numeral.fraction bbase (2 ^ shift) shift
        (Numeral.divide bbase (2 ^ shift) 0 n.digits).2).length : Int)
        + (units - (n.shifted shift).lsd) := by
    simp only [lsd, shifted, List.length_append, hlen]
    push_cast
    ring
  have hcast : (Numeral.value bbase (n.shifted shift).digits : ℚ) * 2 ^ shift
      = Numeral.value bbase n.digits
      * bbase ^ (Numeral.fraction bbase (2 ^ shift) shift
        (Numeral.divide bbase (2 ^ shift) 0 n.digits).2).length := by
    exact_mod_cast hdigits
  rw [value, value, hplace, zpow_add₀ bbase_ne_zero, zpow_natCast, ← mul_assoc, ← hcast]
  ring

theorem value_shiftRight (h : ∀ d ∈ n.digits, d < bbase) (shift : Nat) (units : Int) :
    (n.shiftRight shift).value units * 2 ^ shift = n.value units := by
  rw [shiftRight_eq, value_skipLeading, value_shifted h shift]

theorem valid_shiftRight (h : ∀ d ∈ n.digits, d < bbase) (shift : Nat) (hne : n.value 0 ≠ 0) :
    (n.shiftRight shift).Valid := by
  rw [shiftRight_eq]
  apply valid_skipLeading (shifted_lt h shift)
  intro hzero
  have hvalue : (n.shifted shift).value 0 * 2 ^ shift = n.value 0 := value_shifted h shift 0
  rw [value_eq_zero_iff.mpr hzero, zero_mul] at hvalue
  exact hne hvalue.symm

theorem le_msd_shiftRight (n : Bignum) (shift : Nat) : n.msd ≤ (n.shiftRight shift).msd := by
  rw [shiftRight_eq]
  simp only [skipLeading, shifted]
  omega

/-- A right shift takes only the digits that the quotient needs. -/
theorem shiftRight_lsd_le (h : ∀ d ∈ n.digits, d < bbase) {shift : Nat} {units i m : Int}
    (hm : n.value units / 2 ^ shift * (bbase : ℚ) ^ (i - units) = m) :
    (n.shiftRight shift).lsd ≤ max n.lsd i := by
  obtain ⟨_, hremainder⟩ := Numeral.divide_lt (n := 2 ^ shift) h (Nat.two_pow_pos shift)
  have hdivide := Numeral.divide_value bbase (2 ^ shift) 0 n.digits
  have hlen := Numeral.length_divide bbase (2 ^ shift) 0 n.digits
  rw [Nat.zero_mul, Nat.zero_add] at hdivide
  generalize hk : (i - n.lsd).toNat = k
  have hplace : (k : Int) = (i - units) + (units - n.lsd) + (k - (i - n.lsd)) := by ring
  have hrest : ((k - (i - n.lsd)).toNat : Int) = k - (i - n.lsd) := by omega
  have heq : (Numeral.value bbase n.digits * bbase ^ k : ℚ)
      = 2 ^ shift * (m * (bbase ^ (k - (i - n.lsd)).toNat : ℕ)) := by
    have hpow : (bbase : ℚ) ^ k = (bbase : ℚ) ^ (i - units) * (bbase : ℚ) ^ (units - n.lsd)
        * (bbase : ℚ) ^ (k - (i - n.lsd)).toNat := by
      rw [← zpow_natCast, ← zpow_natCast, hrest, ← zpow_add₀ bbase_ne_zero,
        ← zpow_add₀ bbase_ne_zero, ← hplace]
    have htwo : (2 : ℚ) ^ shift ≠ 0 := by positivity
    rw [← hm, value, hpow]
    push_cast
    field_simp
  have hdvd : 2 ^ shift ∣ Numeral.value bbase n.digits * bbase ^ k := by
    have hint : ((Numeral.value bbase n.digits * bbase ^ k : ℕ) : ℤ)
        = (2 ^ shift : ℕ) * (m * (bbase ^ (k - (i - n.lsd)).toNat : ℕ)) := by exact_mod_cast heq
    exact Int.natCast_dvd_natCast.mp ⟨_, hint⟩
  have hsum : Numeral.value bbase n.digits * bbase ^ k
      = 2 ^ shift
        * (Numeral.value bbase (Numeral.divide bbase (2 ^ shift) 0 n.digits).1 * bbase ^ k)
        + (Numeral.divide bbase (2 ^ shift) 0 n.digits).2 * bbase ^ k := by
    linear_combination bbase ^ k * hdivide.symm
  have hfraction := Numeral.length_fraction_le (k := k) shift hremainder (by
    rw [hsum] at hdvd
    exact (Nat.dvd_add_right (Nat.dvd_mul_right ..)).mp hdvd)
  rw [shiftRight_eq, skipLeading_lsd]
  simp only [lsd, shifted, List.length_append, hlen] at hk ⊢
  omega

/-- The digits of a left shift before trailing zeroes are dropped. -/
def product (n : Bignum) (shift : Nat) : Bignum :=
  let product := Numeral.multiply bbase (2 ^ shift) n.digits
  let digits := Numeral.carryOver bbase shift product.2 product.1
  { msd := n.msd + n.digits.length - digits.length, digits }

theorem shiftLeft_eq (n : Bignum) (shift : Nat) :
    n.shiftLeft shift = (n.product shift).skipTrailing := by
  simp only [shiftLeft, product, multiplyDigits_eq, multiplyCarry_eq]

theorem product_lsd (n : Bignum) (shift : Nat) : (n.product shift).lsd = n.lsd := by
  simp only [lsd, product]
  omega

theorem shiftLeft_lsd_le (n : Bignum) (shift : Nat) : (n.shiftLeft shift).lsd ≤ n.lsd := by
  rw [shiftLeft_eq, ← product_lsd n shift]
  exact skipTrailing_lsd_le _

theorem product_lt (h : ∀ d ∈ n.digits, d < bbase) (shift : Nat) :
    ∀ d ∈ (n.product shift).digits, d < bbase := by
  obtain ⟨hdigits, _⟩ := Numeral.multiply_lt (n := 2 ^ shift) (by decide) (Nat.two_pow_pos shift) h
  exact Numeral.carryOver_lt (by decide) hdigits

theorem value_product (h : ∀ d ∈ n.digits, d < bbase) (shift : Nat) (units : Int) :
    (n.product shift).value units = n.value units * 2 ^ shift := by
  obtain ⟨_, hcarry⟩ := Numeral.multiply_lt (n := 2 ^ shift) (by decide) (Nat.two_pow_pos shift) h
  have hlt : (Numeral.multiply bbase (2 ^ shift) n.digits).2 < bbase ^ shift :=
    hcarry.trans_le (Nat.pow_le_pow_left (by decide) shift)
  have hmultiply := Numeral.multiply_value bbase (2 ^ shift) n.digits
  have hlen := Numeral.length_multiply bbase (2 ^ shift) n.digits
  have hdigits : Numeral.value bbase (n.product shift).digits
      = Numeral.value bbase n.digits * 2 ^ shift := by
    rw [product, Numeral.carryOver_value hlt, hlen, hmultiply]
  rw [value, value, product_lsd, hdigits]
  push_cast
  ring

theorem value_shiftLeft (h : ∀ d ∈ n.digits, d < bbase) (shift : Nat) (units : Int) :
    (n.shiftLeft shift).value units = n.value units * 2 ^ shift := by
  rw [shiftLeft_eq, value_skipTrailing, value_product h shift]

theorem valid_shiftLeft (h : n.Valid) (shift : Nat) : (n.shiftLeft shift).Valid := by
  obtain ⟨_, hcarry⟩ :=
    Numeral.multiply_lt (n := 2 ^ shift) (by decide) (Nat.two_pow_pos shift) h.lt
  have hlt : (Numeral.multiply bbase (2 ^ shift) n.digits).2 < bbase ^ shift :=
    hcarry.trans_le (Nat.pow_le_pow_left (by decide) shift)
  rw [shiftLeft_eq]
  apply Valid.skipTrailing
  refine ⟨product_lt h.lt shift, ?_⟩
  by_cases hzero : (Numeral.multiply bbase (2 ^ shift) n.digits).2 = 0
  · obtain ⟨d, digits, hdigits, hd⟩ := h.exists_cons
    have hmul := Nat.mul_pos (Nat.pos_of_ne_zero hd) (Nat.two_pow_pos shift)
    rw [product, hzero, Numeral.carryOver_zero]
    rw [hdigits, Numeral.multiply] at hzero ⊢
    have hdiv :=
      Nat.div_add_mod (d * 2 ^ shift + (Numeral.multiply bbase (2 ^ shift) digits).2) bbase
    dsimp only at hzero
    rw [hzero, Nat.mul_zero, Nat.zero_add] at hdiv
    refine ⟨_, rfl, ?_⟩
    rw [hdiv]
    omega
  · exact Numeral.head_carryOver hzero hlt _

end Shifts

section Rounding

variable {n : Bignum} {units i : Int} {q check w : Nat} {f : ℚ}

/-- The digits down to an index, filled up with zeroes. -/
def upper (n : Bignum) (i : Int) : List Nat :=
  n.digits.take (i + 1 - n.msd).toNat ++ List.replicate ((i + 1 - n.msd).toNat - n.digits.length) 0

/-- The digits after an index. -/
def lower (n : Bignum) (i : Int) : List Nat := n.digits.drop (i + 1 - n.msd).toNat

/-- What the digits after an index amount to, in units of the digit there. -/
def tail (n : Bignum) (i : Int) : ℚ := Numeral.value bbase (n.lower i) * (bbase : ℚ) ^ (i - n.lsd)

theorem value_split (n : Bignum) (units i : Int) :
    n.value units * (bbase : ℚ) ^ (i - units) = Numeral.value bbase (n.upper i) + n.tail i := by
  have hvalue : n.value units * (bbase : ℚ) ^ (i - units)
      = Numeral.value bbase n.digits * (bbase : ℚ) ^ (i - n.lsd) := by
    rw [value, mul_assoc, ← zpow_add₀ bbase_ne_zero]
    congr 2
    ring
  rw [hvalue, upper, Numeral.value_append_replicate_zero, tail, lower]
  generalize hcount : (i + 1 - n.msd).toNat = count
  rcases Nat.eq_zero_or_pos count with hzero | hpos
  · simp [hzero]
  · rcases Nat.le_total count n.digits.length with hle | hge
    · have hsplit := Numeral.value_append bbase (n.digits.take count) (n.digits.drop count)
      have hplace : i - n.lsd = -((n.digits.length - count : Nat) : Int) := by
        rw [lsd]
        omega
      rw [List.take_append_drop, List.length_drop] at hsplit
      rw [Nat.sub_eq_zero_of_le hle, pow_zero, Nat.mul_one, hsplit, hplace, zpow_neg, zpow_natCast]
      push_cast
      field_simp
    · have hplace : i - n.lsd = ((count - n.digits.length : Nat) : Int) := by
        rw [lsd]
        omega
      rw [List.take_of_length_le hge, List.drop_of_length_le hge, hplace, zpow_natCast]
      simp

theorem tail_nonneg (n : Bignum) (i : Int) : 0 ≤ n.tail i := by
  rw [tail]
  positivity

theorem tail_lt_one (h : ∀ d ∈ n.digits, d < bbase) (i : Int) : n.tail i < 1 := by
  have hlt := Numeral.value_lt (b := bbase) (l := n.lower i) (by decide) fun d hd =>
    h d (List.mem_of_mem_drop hd)
  rw [lower, List.length_drop] at hlt
  by_cases hnil : n.digits.length ≤ (i + 1 - n.msd).toNat
  · rw [tail, lower, List.drop_of_length_le hnil]
    simp
  · have hplace : ((n.digits.length - (i + 1 - n.msd).toNat : Nat) : Int) ≤ n.lsd - i := by
      rw [lsd]
      omega
    have hpow : (bbase : ℚ) ^ ((n.digits.length - (i + 1 - n.msd).toNat : Nat) : Int)
        ≤ (bbase : ℚ) ^ (n.lsd - i) :=
      zpow_le_zpow_right₀ (by norm_num) hplace
    have hcast : (Numeral.value bbase (n.lower i) : ℚ) < (bbase : ℚ) ^ (n.lsd - i) := by
      rw [zpow_natCast] at hpow
      refine lt_of_lt_of_le ?_ hpow
      exact_mod_cast hlt
    have hinv : i - n.lsd = -(n.lsd - i) := by ring
    rw [tail, hinv, zpow_neg, ← div_eq_mul_inv, div_lt_one (by positivity)]
    exact hcast

theorem tail_eq_zero_iff : n.tail i = 0 ↔ (n.lower i).all (· = 0) = true := by
  rw [tail, mul_eq_zero, or_iff_left (zpow_ne_zero _ bbase_ne_zero), Nat.cast_eq_zero,
    Numeral.value_eq_zero_iff (by decide), List.all_eq_true]
  simp

theorem upper_succ (n : Bignum) (i : Int) (h : n.msd ≤ i) :
    n.upper i = n.upper (i - 1) ++ [n.digit i] := by
  have hcount : (i + 1 - n.msd).toNat = (i - n.msd).toNat + 1 := by omega
  have hpred : i - 1 + 1 - n.msd = i - n.msd := by ring
  rw [upper, upper, digit, if_neg (by omega), hcount, hpred]
  generalize (i - n.msd).toNat = count
  rcases Nat.lt_or_ge count n.digits.length with hlt | hge
  · rw [Nat.sub_eq_zero_of_le hlt, Nat.sub_eq_zero_of_le (Nat.le_of_lt hlt), List.take_add_one,
      List.getElem?_eq_getElem hlt, List.getD_eq_getElem _ _ hlt]
    simp
  · rw [List.take_of_length_le hge, List.take_of_length_le (hge.trans (Nat.le_succ _)),
      List.getD_eq_default _ _ hge, Nat.sub_add_comm hge, List.replicate_succ', List.append_assoc]

theorem upper_of_lt (h : i < n.msd) : n.upper i = [] := by
  have hcount : (i + 1 - n.msd).toNat = 0 := by omega
  rw [upper, hcount]
  simp

theorem value_upper (n : Bignum) (i : Int) :
    (Numeral.value bbase (n.upper i) : ℚ)
      = Numeral.value bbase (n.upper (i - 1)) * bbase + n.digit i := by
  rcases lt_or_ge i n.msd with hlt | hge
  · rw [upper_of_lt hlt, upper_of_lt (by omega), digit, if_pos hlt]
    simp
  · rw [upper_succ n i hge, Numeral.value_concat]
    push_cast
    ring

/-- What is after a digit is what is after the one before, without that digit. -/
theorem tail_pred (n : Bignum) (i : Int) : n.tail (i - 1) * bbase = n.digit i + n.tail i := by
  have hsplit := n.value_split 0 i
  have hpred := n.value_split 0 (i - 1)
  have hpow : (bbase : ℚ) ^ (i - 0) = (bbase : ℚ) ^ (i - 1 - 0) * bbase := by
    rw [← zpow_add_one₀ bbase_ne_zero]
    congr 1
    ring
  have hupper := n.value_upper i
  rw [hpow] at hsplit
  linear_combination bbase * (-hpred) + hsplit + hupper

theorem isZero_iff : n.isZero check i = true ↔ check = 0 ∧ n.tail i = 0 := by
  rw [tail_eq_zero_iff, isZero, Bool.and_eq_true, decide_eq_true_eq]
  rfl

theorem tail_lsd (n : Bignum) : n.tail n.lsd = 0 := by
  have hall : n.digits.length ≤ (n.lsd + 1 - n.msd).toNat := by
    rw [lsd]
    omega
  rw [tail_eq_zero_iff, lower, List.drop_of_length_le hall]
  rfl

theorem digit_lt (h : ∀ d ∈ n.digits, d < bbase) (i : Int) : n.digit i < bbase := by
  rw [digit]
  split
  · decide
  · rw [List.getD_eq_getElem?_getD]
    cases hget : n.digits[(i - n.msd).toNat]? with
    | none => decide
    | some d => exact h d (List.mem_of_getElem? hget)

theorem roundIt_le (n : Bignum) (negative : Bool) (q check : Nat) (i : Int) :
    n.roundIt .toNearest negative q check i ≤ q + 1 := by
  rw [roundIt]
  split
  · exact Nat.le_refl _
  · omega
  · exact Nat.le_succ _

/-- The digits after an index are compared with half of `bbase`; `w` is what one unit there
weighs. -/
theorem compareHalf_spec (h : ∀ d ∈ n.digits, d < bbase) (hf : f * bbase = check + n.tail i * w)
    (hw : 0 < w) (hcheck : w ∣ check) (hhalf : w ∣ bbase / 2) :
    n.compareHalf check i = .lt ∧ f < 1 / 2 ∨ n.compareHalf check i = .eq ∧ f = 1 / 2
      ∨ n.compareHalf check i = .gt ∧ 1 / 2 < f := by
  have hbase : (bbase : ℚ) = 2 * (bbase / 2 : Nat) := by norm_num
  have htail := n.tail_nonneg i
  have hlt := tail_lt_one h i
  have hwpos : (0 : ℚ) < w := by exact_mod_cast hw
  have hzero : (i = n.lsd ∨ n.isZero (n.digit (i + 1)) (i + 1) = true) ↔ n.tail i = 0 := by
    have hpred := n.tail_pred (i + 1)
    rw [add_sub_cancel_right] at hpred
    rw [isZero_iff]
    constructor
    · rintro (rfl | ⟨hdigit, hrest⟩)
      · exact n.tail_lsd
      · rw [hdigit, hrest, Nat.cast_zero, add_zero, mul_eq_zero] at hpred
        exact hpred.resolve_right bbase_ne_zero
    · intro htail
      right
      have hnext := n.tail_nonneg (i + 1)
      have hdigit : (0 : ℚ) ≤ n.digit (i + 1) := Nat.cast_nonneg _
      rw [htail, zero_mul] at hpred
      refine ⟨?_, by linarith⟩
      have hd : (n.digit (i + 1) : ℚ) = 0 := by linarith
      exact_mod_cast hd
  unfold compareHalf
  by_cases hsmall : check < bbase / 2
  · left
    refine ⟨if_pos hsmall, ?_⟩
    have hstep : check + w ≤ bbase / 2 := by
      obtain ⟨c, rfl⟩ := hcheck
      obtain ⟨k, hk⟩ := hhalf
      rw [hk] at hsmall ⊢
      have hck := Nat.lt_of_mul_lt_mul_left hsmall
      have hmul := Nat.mul_le_mul_left w hck
      rw [Nat.mul_succ] at hmul
      exact hmul
    have hcast : (check : ℚ) + w ≤ (bbase / 2 : Nat) := by exact_mod_cast hstep
    have hmul : n.tail i * w < 1 * w := mul_lt_mul_of_pos_right hlt hwpos
    have hdouble : f * bbase < 1 / 2 * bbase := by
      rw [hf, hbase]
      linarith
    exact lt_of_mul_lt_mul_right hdouble (by norm_num)
  · by_cases hequal : check = bbase / 2 ∧ n.tail i = 0
    · right
      left
      constructor
      · rw [if_neg hsmall, if_pos (by simp [hequal.1, hzero.mpr hequal.2])]
      · rw [hequal.1, hequal.2, zero_mul, add_zero] at hf
        have hdouble : f * bbase = 1 / 2 * bbase := by
          rw [hf, hbase]
          ring
        exact mul_right_cancel₀ bbase_ne_zero hdouble
    · right
      right
      constructor
      · rw [if_neg hsmall, if_neg]
        simp only [Bool.and_eq_true, Bool.or_eq_true, decide_eq_true_eq]
        rw [hzero]
        exact hequal
      · have hmul : 0 ≤ n.tail i * w := mul_nonneg htail hwpos.le
        have hcast : ((bbase / 2 : Nat) : ℚ) ≤ check := by exact_mod_cast Nat.le_of_not_lt hsmall
        have hne : ((bbase / 2 : Nat) : ℚ) < check + n.tail i * w := by
          rcases hcast.lt_or_eq with hgt | heq
          · linarith
          · have hcheckeq : check = bbase / 2 := by exact_mod_cast heq.symm
            have htailne : n.tail i ≠ 0 := fun hz => hequal ⟨hcheckeq, hz⟩
            have hpos : 0 < n.tail i * w := mul_pos (lt_of_le_of_ne htail htailne.symm) hwpos
            linarith
        have hdouble : 1 / 2 * bbase < f * bbase := by
          rw [hf, hbase]
          linarith
        exact lt_of_mul_lt_mul_right hdouble (by norm_num)

/-- Rounding to the nearest, where `q` is what the digits before amount to. -/
theorem roundIt_spec (h : ∀ d ∈ n.digits, d < bbase) (hf : f * bbase = check + n.tail i * w)
    (h0 : 0 ≤ f) (h1 : f < 1) (hw : 0 < w) (hcheck : w ∣ check) (hhalf : w ∣ bbase / 2)
    (negative : Bool) (q : Nat) :
    NearestEven (q + f) (n.roundIt .toNearest negative q check i) := by
  rcases compareHalf_spec h hf hw hcheck hhalf with ⟨hcompare, hlt⟩ | ⟨hcompare, heq⟩
    | ⟨hcompare, hgt⟩
  · rw [roundIt, hcompare]
    exact .of_lt_half rfl h0 hlt
  · rw [roundIt, hcompare]
    dsimp only
    by_cases heven : Even q
    · have hsame : (q + 1) / 2 * 2 = q := by
        obtain ⟨m, rfl⟩ := heven
        omega
      rw [hsame]
      exact .of_half (by rw [heq]) heven
    · have hnext : (q + 1) / 2 * 2 = q + 1 := by
        obtain ⟨m, rfl⟩ := Nat.not_even_iff_odd.mp heven
        omega
      rw [hnext]
      exact .of_half_odd (by rw [heq]) heven
  · rw [roundIt, hcompare]
    exact .of_half_lt rfl hgt h1

end Rounding

end Bignum

end CifApi
