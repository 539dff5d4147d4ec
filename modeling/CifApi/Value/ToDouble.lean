import CifApi.Data.DoubleRounding
import CifApi.Value.ToDigits

/-! The double of a digit string: the mantissa and the exponent that `ldexp` is given. -/
namespace CifApi

/-- What `to_double` returns: zero, the value of an exceptional operation, or `ldexp` of a mantissa
and an exponent. -/
inductive DoubleResult where
  | zero
  | overflow
  | underflow
  | ldexp (mantissaBits : Nat) (exponent : Int)
  deriving DecidableEq

namespace ToDouble

abbrev dblMant10Dig : Int := 3 * (dblMantDig / 10)

abbrev ultLspAlt1 : Int :=
  (dblMant10Dig + dblMantDig - lineLength) - ((dblMax10Exp + 1) * 2322) / 1000

abbrev ultLspAlt2 : Int := (2 + dblMin10Exp - dblDig) - lineLength

/-- `BIGNUM_DIGITS`. -/
abbrev bignumDigits : Nat :=
  (dblMax10Exp + ddigPerDig - 1) / ddigPerDig
    + ((ddigPerDig - ((if ultLspAlt1 < ultLspAlt2 then ultLspAlt1 else ultLspAlt2) + 1)) /
      ddigPerDig).toNat

abbrev minMantissa : Nat := 2 ^ (dblMantDig - 1)

abbrev maxMantissa : Nat := 2 ^ dblMantDig - 1

/-- Reads decimal digits into a bignum; `left` of them are still missing in the bignum digit
`dig`. -/
def readDigits : Nat → Nat → UStr → List Nat
  | left, dig, [] => [if left < ddigPerDig then dig * 10 ^ left else dig]
  | left, dig, c :: ddigits =>
    let dig := dig * 10 + (c - UChar.zero)
    if left - 1 = 0 then dig :: readDigits ddigPerDig 0 ddigits
      else readDigits (left - 1) dig ddigits

/-- `while (exponent < right_shift_max)`, by what is left to shift. -/
def scaleRight : Nat → Nat → Bignum → Option Bignum
  | 0, _, n => some n
  | fuel + 1, left, n =>
    if left = 0 then some n
    else do
      let shift := min bdigPerDig left
      let n ← (n.shiftRight shift).within bignumDigits
      scaleRight fuel (left - shift) n

/-- `while ((exponent > right_shift_max) && ((lsd - digits) > units_digit))`, with what is left to
shift after it. -/
def scaleLeft (unitsDigit : Int) : Nat → Nat → Bignum → Option (Bignum × Nat)
  | 0, left, n => some (n, left)
  | fuel + 1, left, n =>
    if left = 0 ∨ n.lsd ≤ unitsDigit then some (n, left)
    else do
      let shift := min bdigPerDig left
      let n ← (n.shiftLeft shift).within bignumDigits
      scaleLeft unitsDigit fuel (left - shift) n

/-- The loop that computes the integer mantissa, with a one-bit left shift where it turns out to be
needed. -/
def mantissa (unitsDigit : Int) : Nat → Bignum → Int → Option (Bignum × Nat × Int)
  | 0, _, _ => none
  | fuel + 1, n, exponent => do
    let mantissaBits := Numeral.value bbase (n.upper unitsDigit)
    if maxMantissa < mantissaBits then none
    else if minMantissa ≤ mantissaBits ∨ n.lsd ≤ unitsDigit then some (n, mantissaBits, exponent)
    else do
      let n ← (n.shiftLeft 1).within bignumDigits
      mantissa unitsDigit fuel n (exponent - 1)

/-- `round_to_int`. -/
def roundToInt (mode : RoundingMode) (roundValue : Nat) (n : Bignum) (unitsDigit : Int) : Nat :=
  roundValue + if n.lsd < unitsDigit + 1 then 0
    else n.roundIt mode false 0 (n.digit (unitsDigit + 1)) (unitsDigit + 1)

/-- The main case: the digits from the place `msp` on, of which `first` is the first. -/
def convert (mode : RoundingMode) (floorLog2 : Nat → Int → Int) (first : Nat) (msp : Int)
    (ddigits : UStr) :
    Option DoubleResult :=
  let rightShiftMin := 1 + floorLog2 first msp - dblMantDig
  let rightShiftMax := 1 + floorLog2 (1 + first) msp - dblMantDig
  let mspMax :=
    if 0 < rightShiftMax then msp
    else if rightShiftMin < 0 then msp + (2 - rightShiftMin) / 3
    else msp
  if ¬ rightShiftMax - rightShiftMin < 2 ∨ mspMax < 0 then none
  else do
    let unitsDigit := mspMax / ddigPerDig
    let n ← Bignum.within {
      msd := unitsDigit + if 0 ≤ msp then -(msp / ddigPerDig)
        else (ddigPerDig - 1 - msp) / ddigPerDig
      digits := readDigits
        (if 0 ≤ msp then msp % ddigPerDig + 1 else
          ddigPerDig - (-msp - 1) % ddigPerDig).toNat 0 ddigits } bignumDigits
    let (n, exponent) ←
      if 0 < rightShiftMax then do
        let n ← scaleRight rightShiftMax.toNat rightShiftMax.toNat n
        some (n, rightShiftMax)
      else do
        let (n, left) ← scaleLeft unitsDigit (-rightShiftMax).toNat (-rightShiftMax).toNat n
        some (n, rightShiftMax + left)
    let (n, mantissaBits, exponent) ← mantissa unitsDigit dblMantDig n exponent
    let mantissaBits := roundToInt mode mantissaBits n unitsDigit
    if maxMantissa < mantissaBits then some (.ldexp 1 (exponent + dblMantDig))
    else some (.ldexp mantissaBits exponent)

end ToDouble

/-- `to_double`; `floorLog2` is `floor((log10(k) + m) / log10(2.0))`. There is no result where an
assertion fails or the array is too short. -/
def toDouble (mode : RoundingMode) (floorLog2 : Nat → Int → Int) (ddigits : UStr) (scale : Int) :
    Option DoubleResult :=
  let ddigits := ddigits.dropWhile (· = UChar.zero)
  match ddigits.head? with
  | none => some .zero
  | some first =>
    let msp := -scale + (ddigits.length - 1)
    let significant := ddigits.rdropWhile (· = UChar.zero)
    let lsp := -scale + (ddigits.length - significant.length)
    -- super-long digit strings are truncated
    let significant := if lineLength ≤ msp - lsp then significant.take lineLength else significant
    if dblMax10Exp < msp then some .overflow
    else if msp ≤ dblMin10Exp - dblDig then some .underflow
    else ToDouble.convert mode floorLog2 (first - UChar.zero) msp significant

namespace ToDouble

theorem bignumDigits_eq : bignumDigits = 335 := by decide

section Reading

variable {s : UStr} {left dig : Nat}

/-- What a decimal digit counts for. -/
theorem exists_sub_zero {c : UChar} (h : isDigit c = true) :
    ∃ v : Nat, v < 10 ∧ c - UChar.zero = v := by
  simp only [isDigit, Bool.and_eq_true, decide_eq_true_eq] at h
  refine ⟨c - UChar.zero, ?_, rfl⟩
  exact Nat.lt_succ_iff.mpr (Nat.sub_le_sub_right h.2 UChar.zero)

theorem ofDigits_cons (c : UChar) (s : UStr) :
    ofDigits (c :: s) = (c - UChar.zero) * 10 ^ s.length + ofDigits s := by
  rw [ofDigits, List.map_cons, Numeral.value_cons, List.length_map]
  rfl

/-- Reading fills the last digit of the base with zeroes. -/
theorem readDigits_spec (h0 : 0 < left) (h9 : left ≤ 9) (hdig : left = 9 → dig = 0) :
    ∃ pad, 9 * (readDigits left dig s).length = s.length + pad + (9 - left) ∧ 0 < pad ∧ pad ≤ 9
      ∧ Numeral.value bbase (readDigits left dig s)
        = (dig * 10 ^ s.length + ofDigits s) * 10 ^ pad := by
  induction s generalizing left dig with
  | nil =>
    refine ⟨left, by simp [readDigits]; omega, h0, h9, ?_⟩
    have hzero : ofDigits [] = 0 := rfl
    rw [readDigits, Numeral.value_singleton, List.length_nil, pow_zero, Nat.mul_one, hzero,
      Nat.add_zero]
    split
    · rfl
    · rename_i hge
      have hnine : left = 9 := by
        have hper : ddigPerDig = 9 := rfl
        omega
      rw [hdig hnine, Nat.zero_mul]
  | cons c s ih =>
    have hper : ddigPerDig = 9 := rfl
    rw [readDigits, ofDigits_cons, List.length_cons]
    by_cases hlast : left - 1 = 0
    · obtain ⟨pad, hlen, hpos, hle, hvalue⟩ := @ih ddigPerDig 0 (by decide) (by decide) fun _ => rfl
      have hcount : 9 * (readDigits ddigPerDig 0 s).length = s.length + pad := by omega
      have hpow : bbase ^ (readDigits ddigPerDig 0 s).length = 10 ^ (s.length + pad) := by
        rw [← hcount, pow_mul]
        rfl
      refine ⟨pad, ?_, hpos, hle, ?_⟩
      · rw [if_pos hlast, List.length_cons]
        omega
      · rw [if_pos hlast, Numeral.value_cons, hvalue, hpow, pow_add, pow_succ]
        ring
    · obtain ⟨pad, hlen, hpos, hle, hvalue⟩ :=
        @ih (left - 1) (dig * 10 + (c - UChar.zero)) (by omega) (by omega) (by omega)
      refine ⟨pad, ?_, hpos, hle, ?_⟩
      · rw [if_neg hlast]
        omega
      · rw [if_neg hlast, hvalue, pow_succ]
        ring

theorem readDigits_lt (h : ∀ c ∈ s, isDigit c = true) (h0 : 0 < left) (h9 : left ≤ 9)
    (hdig : dig < 10 ^ (9 - left)) :
    ∀ d ∈ readDigits left dig s, d < bbase := by
  have hper : ddigPerDig = 9 := rfl
  have hbase : bbase = 10 ^ 9 := rfl
  induction s generalizing left dig with
  | nil =>
    intro d hd
    rw [readDigits, List.mem_singleton] at hd
    rw [hd, hbase]
    split
    · have hpow : (10 : Nat) ^ 9 = 10 ^ (9 - left) * 10 ^ left := by
        rw [← pow_add]
        congr 1
        omega
      rw [hpow]
      exact Nat.mul_lt_mul_of_pos_right hdig (Nat.pow_pos (by decide))
    · exact hdig.trans_le (Nat.pow_le_pow_right (by decide) (Nat.sub_le ..))
  | cons c s ih =>
    obtain ⟨v, hv, hvc⟩ := exists_sub_zero (h c (List.mem_cons_self ..))
    have hs : ∀ e ∈ s, isDigit e = true := fun e he => h e (List.mem_cons_of_mem _ he)
    have hnext : dig * 10 + v < 10 ^ (9 - left + 1) := by
      rw [pow_succ]
      omega
    intro d hd
    rw [readDigits, hvc] at hd
    split at hd
    · rename_i hlast
      rcases List.mem_cons.mp hd with rfl | hd
      · rw [hbase]
        exact hnext.trans_le (Nat.pow_le_pow_right (by decide) (by omega))
      · have hnone : 0 < 10 ^ (9 - ddigPerDig) := by decide
        exact ih hs (by decide) (by decide) hnone d hd
    · have hsucc : 9 - (left - 1) = 9 - left + 1 := by omega
      exact ih hs (by omega) (by omega) (by rw [hsucc]; exact hnext) d hd

/-- The first digit read makes the first digit of the base. -/
theorem head_readDigits (hleft : dig ≠ 0 → left ≠ 9) (h0 : 0 < left) (h9 : left ≤ 9)
    (hne : dig ≠ 0 ∨ ∃ c ∈ s.head?, c - UChar.zero ≠ 0) : ∃ d ∈ (readDigits left dig s).head?,
      d ≠ 0 := by
  induction s generalizing left dig with
  | nil =>
    have hdig : dig ≠ 0 := by
      rcases hne with hdig | ⟨c, hc, _⟩
      · exact hdig
      · cases hc
    refine ⟨_, rfl, ?_⟩
    split
    · exact Nat.mul_ne_zero hdig (Nat.pow_pos (by decide)).ne'
    · exact hdig
  | cons c s ih =>
    have hnext : dig * 10 + (c - UChar.zero) ≠ 0 := by
      rw [Ne, Nat.add_eq_zero_iff, not_and_or]
      rcases hne with hdig | ⟨c', hc, hc0⟩
      · exact .inl (Nat.mul_ne_zero hdig (by decide))
      · cases hc
        exact .inr hc0
    rw [readDigits]
    split
    · exact ⟨_, rfl, hnext⟩
    · exact ih (fun _ => by omega) (by omega) (by omega) (.inl hnext)

end Reading

end ToDouble

/-- The digits of a numeral without zeroes at either end, from the place `msp` on. -/
structure Significant (ddigits : UStr) : Prop where
  digits_eq : ∀ c ∈ ddigits, isDigit c = true
  head : ∃ c ∈ ddigits.head?, c - UChar.zero ≠ 0
  length_le : ddigits.length ≤ lineLength

namespace ToDouble

/-- The number that digits from the place `msp` on denote. -/
def placed (ddigits : UStr) (msp : Int) : ℚ :=
  ofDigits ddigits * (10 : ℚ) ^ (msp + 1 - ddigits.length)

/-- How many digits the first digit of the base takes. -/
def firstLeft (msp : Int) : Nat :=
  (if 0 ≤ msp then msp % ddigPerDig + 1 else ddigPerDig - (-msp - 1) % ddigPerDig).toNat

/-- The digits as they are read into the array. -/
def loaded (unitsDigit msp : Int) (ddigits : UStr) : Bignum where
  msd := unitsDigit + if 0 ≤ msp then -(msp / ddigPerDig) else (ddigPerDig - 1 - msp) / ddigPerDig
  digits := readDigits (firstLeft msp) 0 ddigits

section Loading

variable {ddigits : UStr}

theorem firstLeft_le (msp : Int) : 0 < firstLeft msp ∧ firstLeft msp ≤ 9 := by
  have hper : ((ddigPerDig : Nat) : Int) = 9 := rfl
  rw [firstLeft, hper]
  split <;> omega

theorem loaded_spec (h : Significant ddigits) (unitsDigit msp : Int) :
    (loaded unitsDigit msp ddigits).Valid
      ∧ (loaded unitsDigit msp ddigits).value unitsDigit = placed ddigits msp
      ∧ (loaded unitsDigit msp ddigits).lsd ≤ (loaded unitsDigit msp ddigits).msd + 229 := by
  obtain ⟨h0, h9⟩ := firstLeft_le msp
  have hper : ((ddigPerDig : Nat) : Int) = 9 := rfl
  have hbase : (bbase : ℚ) = 10 ^ (9 : Int) := by norm_num
  obtain ⟨pad, hlen, hpad, hpadle, hvalue⟩ := readDigits_spec (s := ddigits) h0 h9 fun _ => rfl
  rw [Nat.zero_mul, Nat.zero_add] at hvalue
  have hlong : ddigits.length ≤ 2048 := h.length_le
  have hzero : 0 < 10 ^ (9 - firstLeft msp) := Nat.pow_pos (by decide)
  refine ⟨⟨readDigits_lt h.digits_eq h0 h9 hzero,
    head_readDigits (fun h => absurd rfl h) h0 h9 (.inr h.head)⟩, ?_, ?_⟩
  · have hplace : 9 * (unitsDigit - (loaded unitsDigit msp ddigits).lsd) + pad
        = msp + 1 - ddigits.length := by
      rw [Bignum.lsd, loaded]
      dsimp only
      rw [hper]
      have hfirst : (firstLeft msp : Int) = if 0 ≤ msp then msp % 9 + 1
          else 9 - (-msp - 1) % 9 := by
        rw [firstLeft, hper]
        split <;> omega
      split at hfirst
      · rw [if_pos (by omega)]
        omega
      · rw [if_neg (by omega)]
        omega
    have hdigits : Numeral.value bbase (loaded unitsDigit msp ddigits).digits
        = ofDigits ddigits * 10 ^ pad := hvalue
    rw [Bignum.value, hdigits, placed, hbase, ← zpow_mul, ← hplace, zpow_add₀ (by norm_num),
      zpow_natCast]
    push_cast
    ring
  · rw [Bignum.lsd, loaded]
    dsimp only
    omega

end Loading

section Scaling

variable {n n' : Bignum} {unitsDigit : Int}

theorem within_iff {size : Nat} : n.within size = some n' ↔ n' = n ∧ 0 ≤ n.msd ∧ n.lsd < size := by
  rw [Bignum.within]
  split
  · rename_i h
    rw [Option.some.injEq, eq_comm, and_iff_left h]
  · rename_i h
    simp [h]

/-- What the right shifts leave, if they stay within the array. -/
theorem scaleRight_value {fuel left : Nat} (hfuel : left ≤ fuel) (h : n.Valid)
    (hlsd : n.lsd < bignumDigits) (hrun : scaleRight fuel left n = some n') (unitsDigit : Int) :
    n'.Valid ∧ n'.value unitsDigit * 2 ^ left = n.value unitsDigit ∧ n'.lsd < bignumDigits := by
  induction fuel generalizing left n with
  | zero =>
    cases hrun
    rw [Nat.le_zero] at hfuel
    rw [hfuel, pow_zero, mul_one]
    exact ⟨h, rfl, hlsd⟩
  | succ fuel ih =>
    rw [scaleRight] at hrun
    split at hrun
    · rename_i hzero
      cases hrun
      rw [hzero, pow_zero, mul_one]
      exact ⟨h, rfl, hlsd⟩
    · rename_i hleft
      have hpos : 0 < bdigPerDig := by decide
      generalize hs : min bdigPerDig left = s at hrun
      obtain ⟨m, hm, hrest⟩ := Option.bind_eq_some_iff.mp hrun
      obtain ⟨rfl, _, hmlsd⟩ := within_iff.mp hm
      have hvalid := Bignum.valid_shiftRight h.lt s (h.value_pos 0).ne'
      obtain ⟨hv, hvalue, hend⟩ := ih (by omega) hvalid hmlsd hrest
      refine ⟨hv, ?_, hend⟩
      have hsplit : (2 : ℚ) ^ left = 2 ^ (left - s) * 2 ^ s := by
        rw [← pow_add]
        congr 1
        omega
      rw [hsplit, ← mul_assoc, hvalue, Bignum.value_shiftRight h.lt]

/-- The right shifts stay within the array where the places after the point are enough. -/
theorem scaleRight_total {fuel left : Nat} {k : Int} (hfuel : left ≤ fuel) (h : n.Valid)
    (hmsd : 0 ≤ n.msd) (hlsd : n.lsd < bignumDigits)
    (hk : n.value unitsDigit / 2 ^ left * (bbase : ℚ) ^ ((bignumDigits : Int) - 1 - unitsDigit)
      = k) :
    ∃ n', scaleRight fuel left n = some n' := by
  induction fuel generalizing left n with
  | zero => exact ⟨n, rfl⟩
  | succ fuel ih =>
    rw [scaleRight]
    split
    · exact ⟨n, rfl⟩
    · rename_i hleft
      have hpos : 0 < bdigPerDig := by decide
      generalize hs : min bdigPerDig left = s
      have hvalid := Bignum.valid_shiftRight h.lt s (h.value_pos 0).ne'
      have hsplit : (2 : ℚ) ^ left = 2 ^ (left - s) * 2 ^ s := by
        rw [← pow_add]
        congr 1
        omega
      have hvalue : (n.shiftRight s).value unitsDigit = n.value unitsDigit / 2 ^ s := by
        rw [← Bignum.value_shiftRight h.lt s]
        field_simp
      have hrest : (n.shiftRight s).value unitsDigit / 2 ^ (left - s)
          * (bbase : ℚ) ^ ((bignumDigits : Int) - 1 - unitsDigit) = k := by
        rw [← hk, hvalue, hsplit]
        field_simp
      have hint : n.value unitsDigit / 2 ^ s * (bbase : ℚ) ^ ((bignumDigits : Int) - 1 - unitsDigit)
          = (k * 2 ^ (left - s) : Int) := by
        have htwo : (2 : ℚ) ^ (left - s) ≠ 0 := by positivity
        rw [Int.cast_mul, Int.cast_pow, Int.cast_ofNat, ← hrest, ← hvalue, div_mul_eq_mul_div,
          div_mul_cancel₀ _ htwo]
      have hend := Bignum.shiftRight_lsd_le h.lt hint
      have hstart := Bignum.le_msd_shiftRight n s
      have hwithin : (n.shiftRight s).within bignumDigits = some (n.shiftRight s) :=
        within_iff.mpr ⟨rfl, by omega, by omega⟩
      dsimp only
      rw [hwithin]
      exact ih (by omega) hvalid (by omega) (by omega) hrest

/-- A number below `2 ^ dblMantDig` takes two digits of the base before the point at most. -/
theorem msd_nonneg (h : n.Valid) (hunits : 1 ≤ unitsDigit) (hlt : n.value unitsDigit < 2 ^ 53) :
    0 ≤ n.msd := by
  have hpow : (2 : ℚ) ^ 53 < (bbase : ℚ) ^ (2 : Int) := by
    rw [show (2 : Int) = ((2 : Nat) : Int) from rfl, zpow_natCast]
    norm_num
  have hmsd := h.lt_msd (hlt.trans hpow)
  omega

/-- The left shifts: all of them, or until there are no digits after the point. -/
theorem scaleLeft_spec {fuel left : Nat} (hfuel : left ≤ fuel) (h : n.Valid)
    (hunits : 1 ≤ unitsDigit) (hlsd : n.lsd < bignumDigits)
    (hlt : n.value unitsDigit * 2 ^ left < 2 ^ 53) :
    ∃ n' left', scaleLeft unitsDigit fuel left n = some (n', left') ∧ n'.Valid
      ∧ n'.lsd < bignumDigits
      ∧ n'.value unitsDigit * 2 ^ left' = n.value unitsDigit * 2 ^ left
      ∧ (left' = 0 ∨ n'.lsd ≤ unitsDigit) := by
  induction fuel generalizing left n with
  | zero => exact ⟨n, left, rfl, h, hlsd, rfl, .inl (Nat.le_zero.mp hfuel)⟩
  | succ fuel ih =>
    rw [scaleLeft]
    split
    · rename_i hstop
      exact ⟨n, left, rfl, h, hlsd, rfl, hstop⟩
    · rename_i hgo
      rw [not_or] at hgo
      have hpos : 0 < bdigPerDig := by decide
      generalize hs : min bdigPerDig left = s
      have hvalid := Bignum.valid_shiftLeft h s
      have hvalue := Bignum.value_shiftLeft h.lt s unitsDigit
      have hend := Bignum.shiftLeft_lsd_le n s
      have hsplit : (2 : ℚ) ^ left = 2 ^ s * 2 ^ (left - s) := by
        rw [← pow_add]
        congr 1
        omega
      have hone : (1 : ℚ) ≤ 2 ^ (left - s) := one_le_pow₀ (by norm_num)
      have hrest : (n.shiftLeft s).value unitsDigit * 2 ^ (left - s)
          = n.value unitsDigit * 2 ^ left := by
        rw [hvalue, hsplit]
        ring
      have hsmall : (n.shiftLeft s).value unitsDigit < 2 ^ 53 := by
        have hgrow := mul_le_mul_of_nonneg_left hone (hvalid.value_pos unitsDigit).le
        rw [hrest, mul_one] at hgrow
        exact hgrow.trans_lt hlt
      have hwithin : (n.shiftLeft s).within bignumDigits = some (n.shiftLeft s) :=
        within_iff.mpr ⟨rfl, msd_nonneg hvalid hunits hsmall, by omega⟩
      obtain ⟨n', left', hrun, hv, hlsd', hvalue', hdone⟩ :=
        ih (by omega : left - s ≤ fuel) hvalid (by omega) (by rw [hrest]; exact hlt)
      refine ⟨n', left', ?_, hv, hlsd', by rw [hvalue', hrest], hdone⟩
      dsimp only
      rw [hwithin]
      exact hrun

/-- The integer part of a number is the digits up to the units. -/
theorem upper_le_iff (h : n.Valid) {k : ℕ} :
    k ≤ Numeral.value bbase (n.upper unitsDigit) ↔ (k : ℚ) ≤ n.value unitsDigit := by
  have hsplit := n.value_split unitsDigit unitsDigit
  have htail := n.tail_nonneg unitsDigit
  have hone := Bignum.tail_lt_one h.lt unitsDigit
  rw [sub_self, zpow_zero, mul_one] at hsplit
  rw [hsplit]
  constructor
  · intro hle
    have hcast : (k : ℚ) ≤ Numeral.value bbase (n.upper unitsDigit) := by exact_mod_cast hle
    linarith
  · intro hle
    have hlt : (k : ℚ) < Numeral.value bbase (n.upper unitsDigit) + 1 := by linarith
    exact Nat.lt_succ_iff.mp (by exact_mod_cast hlt)

theorem maxMantissa_lt_iff (h : n.Valid) :
    maxMantissa < Numeral.value bbase (n.upper unitsDigit) ↔ 2 ^ 53 ≤ n.value unitsDigit := by
  have hcast : ((maxMantissa.succ : ℕ) : ℚ) = 2 ^ 53 := by norm_num
  rw [← Nat.succ_le_iff, upper_le_iff h, hcast]

theorem minMantissa_le_iff (h : n.Valid) :
    minMantissa ≤ Numeral.value bbase (n.upper unitsDigit) ↔ 2 ^ 52 ≤ n.value unitsDigit := by
  have hcast : ((minMantissa : ℕ) : ℚ) = 2 ^ 52 := by norm_num
  rw [upper_le_iff h, hcast]

/-- The mantissa is complete after one correction at most. -/
theorem mantissa_spec (h : n.Valid) (hunits : 1 ≤ unitsDigit) (hlsd : n.lsd < bignumDigits)
    (hlt : n.value unitsDigit < 2 ^ 53) (hge : 2 ^ 51 ≤ n.value unitsDigit ∨ n.lsd ≤ unitsDigit)
    (exponent : Int) :
    ∃ n' exponent', mantissa unitsDigit dblMantDig n exponent
        = some (n', Numeral.value bbase (n'.upper unitsDigit), exponent')
      ∧ n'.Valid ∧ n'.value unitsDigit * (2 : ℚ) ^ exponent'
        = n.value unitsDigit * (2 : ℚ) ^ exponent
      ∧ n'.value unitsDigit < 2 ^ 53 ∧ (2 ^ 52 ≤ n'.value unitsDigit ∨ n'.lsd ≤ unitsDigit) := by
  have hstop : ∀ {m : Bignum} {fuel : Nat} (exponent : Int), m.Valid → m.value unitsDigit < 2 ^ 53 →
      2 ^ 52 ≤ m.value unitsDigit ∨ m.lsd ≤ unitsDigit → mantissa unitsDigit (fuel + 1) m exponent
        = some (m, Numeral.value bbase (m.upper unitsDigit), exponent) := by
    intro m fuel exponent hm hmlt hmge
    have hmax : ¬ maxMantissa < Numeral.value bbase (m.upper unitsDigit) := by
      rw [maxMantissa_lt_iff hm, not_le]
      exact hmlt
    have hmin : minMantissa ≤ Numeral.value bbase (m.upper unitsDigit) ∨ m.lsd ≤ unitsDigit := by
      rw [minMantissa_le_iff hm]
      exact hmge
    rw [mantissa]
    simp only [hmax, if_false, hmin, if_true]
  by_cases hdone : 2 ^ 52 ≤ n.value unitsDigit ∨ n.lsd ≤ unitsDigit
  · exact ⟨n, exponent, hstop exponent h hlt hdone, h, rfl, hlt, hdone⟩
  · have hlow := hge.resolve_right fun hle => hdone (.inr hle)
    rw [not_or, not_le, not_le] at hdone
    have hvalid := Bignum.valid_shiftLeft h 1
    have hvalue := Bignum.value_shiftLeft h.lt 1 unitsDigit
    have hend := Bignum.shiftLeft_lsd_le n 1
    rw [pow_one] at hvalue
    have hsmall : (n.shiftLeft 1).value unitsDigit < 2 ^ 53 := by
      rw [hvalue]
      linarith [hdone.1]
    have hlarge : 2 ^ 52 ≤ (n.shiftLeft 1).value unitsDigit := by
      rw [hvalue]
      linarith
    have hwithin : (n.shiftLeft 1).within bignumDigits = some (n.shiftLeft 1) :=
      within_iff.mpr ⟨rfl, msd_nonneg hvalid hunits hsmall, by omega⟩
    have hmax : ¬ maxMantissa < Numeral.value bbase (n.upper unitsDigit) := by
      rw [maxMantissa_lt_iff h, not_le]
      exact hlt
    have hmin : ¬ (minMantissa ≤ Numeral.value bbase (n.upper unitsDigit)
        ∨ n.lsd ≤ unitsDigit) := by
      rw [minMantissa_le_iff h, not_or, not_le, not_le]
      exact hdone
    refine ⟨n.shiftLeft 1, exponent - 1, ?_, hvalid, ?_, hsmall, .inl hlarge⟩
    · rw [show dblMantDig = 51 + 1 + 1 from rfl, mantissa]
      simp only [hmax, if_false, hmin, hwithin]
      exact hstop (exponent - 1) hvalid hsmall (.inl hlarge)
    · rw [hvalue, zpow_sub_one₀ (by norm_num)]
      ring

end Scaling

section Finishing

variable {n : Bignum} {unitsDigit : Int}

/-- Rounding the fraction alone: half of a unit is dropped whatever the mantissa. -/
theorem roundToInt_spec (h : n.Valid) (unitsDigit : Int) (roundValue : Nat) :
    ∃ r, roundToInt .toNearest roundValue n unitsDigit = roundValue + r
      ∧ NearestEven (n.tail unitsDigit) r := by
  have h0 := n.tail_nonneg unitsDigit
  have h1 := Bignum.tail_lt_one h.lt unitsDigit
  unfold roundToInt
  by_cases hlsd : n.lsd < unitsDigit + 1
  · rw [if_pos hlsd]
    refine ⟨0, rfl, ?_⟩
    have hzero : n.tail unitsDigit = 0 := by
      have hall : n.digits.length ≤ (unitsDigit + 1 - n.msd).toNat := by
        rw [Bignum.lsd] at hlsd
        omega
      rw [Bignum.tail_eq_zero_iff, Bignum.lower, List.drop_of_length_le hall]
      rfl
    rw [hzero, NearestEven.zero_iff le_rfl]
    norm_num
  · rw [if_neg hlsd]
    refine ⟨_, rfl, ?_⟩
    have hpred := n.tail_pred (unitsDigit + 1)
    rw [add_sub_cancel_right] at hpred
    have hone : n.tail unitsDigit * bbase
        = n.digit (unitsDigit + 1) + n.tail (unitsDigit + 1) * (1 : ℕ) := by
      rw [hpred, Nat.cast_one, mul_one]
    have hround :=
      Bignum.roundIt_spec h.lt hone h0 h1 (by decide) (Nat.one_dvd _) (Nat.one_dvd _) false 0
    rwa [Nat.cast_zero, zero_add] at hround

/-- The pair handed to `ldexp`. -/
def finished (n : Bignum) (unitsDigit exponent : Int) : Nat × Int :=
  let mantissaBits := roundToInt .toNearest (Numeral.value bbase (n.upper unitsDigit)) n unitsDigit
  if maxMantissa < mantissaBits then (1, exponent + dblMantDig) else (mantissaBits, exponent)

/-- The mantissa is the nearest, except in a tie above an odd one. -/
theorem finished_rounds_iff (h : n.Valid) (hlt : n.value unitsDigit < 2 ^ 53)
    (hge : 2 ^ 52 ≤ n.value unitsDigit ∨ n.lsd ≤ unitsDigit) (exponent : Int) :
    RoundsBinary (n.value unitsDigit * (2 : ℚ) ^ exponent) (finished n unitsDigit exponent).1
        (finished n unitsDigit exponent).2
      ↔ ¬ HalfwayOdd (n.value unitsDigit * (2 : ℚ) ^ exponent) := by
  have hsplit := n.value_split unitsDigit unitsDigit
  have h0 := n.tail_nonneg unitsDigit
  have h1 := Bignum.tail_lt_one h.lt unitsDigit
  obtain ⟨r, hr, hnear⟩ := roundToInt_spec h unitsDigit (Numeral.value bbase (n.upper unitsDigit))
  rw [sub_self, zpow_zero, mul_one] at hsplit
  generalize hM : Numeral.value bbase (n.upper unitsDigit) = M at hsplit hr
  generalize hf : n.tail unitsDigit = f at hsplit h0 h1 hnear
  have hr1 : r ≤ 1 := by
    have habs := abs_le.mp hnear.1
    have hcast : (r : ℚ) < 2 := by linarith
    exact Nat.lt_succ_iff.mp (by exact_mod_cast hcast)
  have hMlt : M < 2 ^ 53 := by
    have hcast : (M : ℚ) < ((2 ^ 53 : ℕ) : ℚ) := by
      push_cast
      linarith
    exact_mod_cast hcast
  -- both forms of the pair denote the same number
  have hpair : ∀ v,
      RoundsBinary v (finished n unitsDigit exponent).1 (finished n unitsDigit exponent).2
      ↔ RoundsBinary v (M + r) exponent := by
    intro v
    have hmax : maxMantissa = 2 ^ 53 - 1 := rfl
    have hsame : ((finished n unitsDigit exponent).1 : ℚ) * (2 : ℚ)
        ^ (finished n unitsDigit exponent).2
        = ((M + r : ℕ) : ℚ) * (2 : ℚ) ^ exponent := by
      rw [finished, hM, hr]
      split
      · rename_i hover
        have hfull : M + r = 2 ^ 53 := by omega
        rw [hfull, zpow_add₀ (by norm_num), zpow_natCast]
        push_cast
        ring
      · rfl
    unfold RoundsBinary
    rw [hsame]
  rw [hpair]
  by_cases hlarge : 2 ^ 52 ≤ n.value unitsDigit
  · rw [roundsBinary_iff_nearestEven hlarge hlt, halfwayOdd_iff hlarge hlt hsplit h0 h1]
    rcases lt_trichotomy f (1 / 2) with hless | hhalf | hmore
    · have hr0 : r = 0 :=
        hnear.unique (NearestEven.of_lt_half (q := 0) (by rw [Nat.cast_zero, zero_add]) h0 hless)
      rw [hr0, Nat.add_zero]
      refine iff_of_true (.of_lt_half hsplit h0 hless) ?_
      rintro ⟨heq, _⟩
      linarith
    · have hr0 : r = 0 :=
        hnear.unique
        (NearestEven.of_half (q := 0) (by rw [hhalf, Nat.cast_zero, zero_add]) Even.zero)
      rw [hr0, Nat.add_zero]
      constructor
      · rintro hM' ⟨_, hodd⟩
        apply hodd
        apply hM'.2
        rw [hsplit, add_sub_cancel_left, hhalf, abs_of_nonneg (by norm_num)]
      · intro hnot
        have heven : Even M := by
          by_contra hodd
          exact hnot ⟨hhalf, hodd⟩
        exact .of_half (by rw [hsplit, hhalf]) heven
    · have hr1 : r = 1 :=
        hnear.unique (NearestEven.of_half_lt (q := 0) (by rw [Nat.cast_zero, zero_add]) hmore h1)
      rw [hr1]
      refine iff_of_true (.of_half_lt hsplit hmore h1) ?_
      rintro ⟨heq, _⟩
      linarith
  · have hint := hge.resolve_left hlarge
    have hf0 : f = 0 := by
      have hall : n.digits.length ≤ (unitsDigit + 1 - n.msd).toNat := by
        rw [Bignum.lsd] at hint
        omega
      rw [← hf, Bignum.tail_eq_zero_iff, Bignum.lower, List.drop_of_length_le hall]
      rfl
    have hr0 : r = 0 := hnear.unique (by rw [hf0, NearestEven.zero_iff le_rfl]; norm_num)
    rw [hf0, add_zero] at hsplit
    have hpos := h.value_pos unitsDigit
    rw [hsplit] at hpos hlarge ⊢
    have hM0 : M ≠ 0 := by
      rintro rfl
      simp at hpos
    have hMsmall : M < 2 ^ 52 := by
      have hcast : (M : ℚ) < ((2 ^ 52 : ℕ) : ℚ) := by
        push_cast
        exact not_le.mp hlarge
      exact_mod_cast hcast
    rw [hr0, Nat.add_zero]
    exact iff_of_true (roundsBinary_natCast hM0 hMsmall exponent)
      (not_halfwayOdd_natCast hMsmall exponent)

end Finishing

end ToDouble

/-- `floor((log10(k) + m) / log10(2.0))` for the digits and the places of a `double`. -/
structure FloorLog2 (floorLog2 : Nat → Int → Int) : Prop where
  le : ∀ {k : Nat} {m : Int}, 1 ≤ k → k ≤ 10 → dblMin10Exp - dblDig < m → m ≤ dblMax10Exp →
    (2 : ℚ) ^ floorLog2 k m ≤ k * (10 : ℚ) ^ m
  lt : ∀ {k : Nat} {m : Int}, 1 ≤ k → k ≤ 10 → dblMin10Exp - dblDig < m → m ≤ dblMax10Exp →
    k * (10 : ℚ) ^ m < (2 : ℚ) ^ (floorLog2 k m + 1)

namespace ToDouble

section Estimates

variable {floorLog2 : Nat → Int → Int} {first : Nat} {msp : Int} {v : ℚ}

/-- `right_shift_max`. -/
def rightShiftMax (floorLog2 : Nat → Int → Int) (first : Nat) (msp : Int) : Int :=
  1 + floorLog2 (1 + first) msp - dblMantDig

/-- `units_digit`. -/
def unitsDigit (floorLog2 : Nat → Int → Int) (first : Nat) (msp : Int) : Int :=
  (if 0 < rightShiftMax floorLog2 first msp then msp
  else if 1 + floorLog2 first msp - dblMantDig < 0 then
    msp + (2 - (1 + floorLog2 first msp - dblMantDig)) / 3
  else msp) / ddigPerDig

theorem ten_zpow_le_eight {m : Int} (hm : m ≤ 0) : (10 : ℚ) ^ m ≤ 2 ^ (3 * m) := by
  obtain ⟨k, rfl⟩ := Int.exists_eq_neg_ofNat hm
  rw [mul_neg, zpow_neg, zpow_neg, zpow_mul, zpow_natCast, zpow_natCast]
  apply inv_anti₀ (by positivity)
  exact pow_le_pow_left₀ (by norm_num) (by norm_num) k

theorem eight_le_ten_zpow {m : Int} (hm : 0 ≤ m) : (2 : ℚ) ^ (3 * m) ≤ 10 ^ m := by
  have hle := ten_zpow_le_eight (neg_nonpos.mpr hm)
  rw [mul_neg, zpow_neg, zpow_neg] at hle
  exact (inv_le_inv₀ (by positivity) (by positivity)).mp hle

theorem ten_zpow_le_sixteen {m : Int} (hm : 0 ≤ m) : (10 : ℚ) ^ m ≤ 2 ^ (4 * m) := by
  obtain ⟨k, rfl⟩ := Int.eq_ofNat_of_zero_le hm
  rw [zpow_mul, zpow_natCast, zpow_natCast]
  exact pow_le_pow_left₀ (by norm_num) (by norm_num) k

theorem sixteen_le_ten_zpow {m : Int} (hm : m ≤ 0) : (2 : ℚ) ^ (4 * m) ≤ 10 ^ m := by
  have hle := ten_zpow_le_sixteen (neg_nonneg.mpr hm)
  rw [mul_neg, zpow_neg, zpow_neg] at hle
  exact (inv_le_inv₀ (by positivity) (by positivity)).mp hle

/-- A power of two below a power of ten. -/
theorem lt_of_two_zpow_lt {a b : Int} {x : ℚ} (ha : (2 : ℚ) ^ a ≤ x) (hb : x < 2 ^ b) : a < b :=
  (zpow_lt_zpow_iff_right₀ (by norm_num)).mp (ha.trans_lt hb)

variable (hlog : FloorLog2 floorLog2) (h1 : 1 ≤ first) (h9 : first ≤ 9)
  (hlow : dblMin10Exp - dblDig < msp) (hhigh : msp ≤ dblMax10Exp)

include hlog h1 h9 hlow hhigh

/-- The two estimates of the binary exponent. -/
theorem estimates_le : floorLog2 first msp ≤ floorLog2 (1 + first) msp
    ∧ floorLog2 (1 + first) msp ≤ floorLog2 first msp + 1 := by
  have hpos : (0 : ℚ) < 10 ^ msp := by positivity
  have hone : (1 : ℚ) ≤ first := by exact_mod_cast h1
  have hmin := hlog.le h1 (by omega) hlow hhigh
  have hmin' := hlog.lt h1 (by omega) hlow hhigh
  have hmax := hlog.le (k := 1 + first) (by omega) (by omega) hlow hhigh
  have hmax' := hlog.lt (k := 1 + first) (by omega) (by omega) hlow hhigh
  rw [Nat.cast_add, Nat.cast_one] at hmax hmax'
  constructor
  · have hle : (first : ℚ) * 10 ^ msp ≤ (1 + first) * 10 ^ msp :=
      mul_le_mul_of_nonneg_right (by linarith) hpos.le
    have hlt := lt_of_two_zpow_lt (hmin.trans hle) hmax'
    omega
  · have hdouble : (1 + (first : ℚ)) * 10 ^ msp < 2 ^ (floorLog2 first msp + 1 + 1) := by
      rw [zpow_add_one₀ (by norm_num)]
      calc (1 + (first : ℚ)) * 10 ^ msp ≤ first * 10 ^ msp * 2 := by nlinarith
        _ < 2 ^ (floorLog2 first msp + 1) * 2 := mul_lt_mul_of_pos_right hmin' (by norm_num)
    have hlt := lt_of_two_zpow_lt hmax hdouble
    omega

/-- The number scaled by the estimate has all of its mantissa, or one bit less, before the point. -/
theorem estimate_scaled (hv : first * (10 : ℚ) ^ msp ≤ v)
    (hv' : v < (1 + first : ℕ) * (10 : ℚ) ^ msp) :
    2 ^ 51 * (2 : ℚ) ^ rightShiftMax floorLog2 first msp ≤ v
      ∧ v < 2 ^ 53 * (2 : ℚ) ^ rightShiftMax floorLog2 first msp := by
  have hmin := hlog.le h1 (by omega) hlow hhigh
  have hmax := hlog.lt (k := 1 + first) (by omega) (by omega) hlow hhigh
  have hle := (estimates_le hlog h1 h9 hlow hhigh).2
  rw [rightShiftMax, ← zpow_natCast, ← zpow_natCast, ← zpow_add₀ (by norm_num),
    ← zpow_add₀ (by norm_num)]
  constructor
  · refine le_trans (zpow_le_zpow_right₀ (by norm_num) ?_) (hmin.trans hv)
    have hbits : dblMantDig = 53 := rfl
    omega
  · refine (hv'.trans hmax).trans_eq ?_
    congr 1
    have hbits : dblMantDig = 53 := rfl
    omega

/-- The binary exponent, bounded by the decimal one. -/
theorem estimate_bounds :
    (0 ≤ msp → 3 * msp ≤ floorLog2 first msp ∧ floorLog2 first msp < 4 * (msp + 1))
    ∧ (msp < 0 → 4 * msp ≤ floorLog2 first msp ∧ floorLog2 first msp < 3 * (msp + 1))
    ∧ (52 ≤ floorLog2 (1 + first) msp → 15 ≤ msp) := by
  have hpos : (0 : ℚ) < 10 ^ msp := by positivity
  have hten : (10 : ℚ) ^ (msp + 1) = 10 * 10 ^ msp := by
    rw [zpow_add_one₀ (by norm_num), mul_comm]
  have hone : (1 : ℚ) ≤ first := by exact_mod_cast h1
  have hnine : (first : ℚ) ≤ 9 := by exact_mod_cast h9
  have hmin := hlog.le h1 (by omega) hlow hhigh
  have hmin' := hlog.lt h1 (by omega) hlow hhigh
  have hfrom : (10 : ℚ) ^ msp < 2 ^ (floorLog2 first msp + 1) := lt_of_le_of_lt (by nlinarith) hmin'
  have hto : (2 : ℚ) ^ floorLog2 first msp < 10 ^ (msp + 1) := lt_of_le_of_lt hmin (by nlinarith)
  refine ⟨?_, ?_, ?_⟩
  · intro hnonneg
    have hbelow := lt_of_two_zpow_lt (eight_le_ten_zpow hnonneg) hfrom
    have habove := lt_of_two_zpow_lt le_rfl (hto.trans_le (ten_zpow_le_sixteen (by omega)))
    omega
  · intro hneg
    have hbelow := lt_of_two_zpow_lt (sixteen_le_ten_zpow hneg.le) hfrom
    have habove := lt_of_two_zpow_lt le_rfl (hto.trans_le (ten_zpow_le_eight (by omega)))
    omega
  · intro hlarge
    by_contra hsmall
    have hmax := hlog.le (k := 1 + first) (by omega) (by omega) hlow hhigh
    rw [Nat.cast_add, Nat.cast_one] at hmax
    have hbound : (2 : ℚ) ^ (52 : Int) < 2 ^ (52 : Int) := by
      calc (2 : ℚ) ^ (52 : Int) ≤ 2 ^ floorLog2 (1 + first) msp :=
        zpow_le_zpow_right₀ (by norm_num) hlarge
        _ ≤ (1 + first) * 10 ^ msp := hmax
        _ ≤ 10 ^ (msp + 1) := by nlinarith
        _ ≤ 10 ^ (15 : Int) := zpow_le_zpow_right₀ (by norm_num) (by omega)
        _ < 2 ^ (52 : Int) := by norm_num
    exact hbound.false

/-- Where the digits are loaded. -/
theorem unitsDigit_spec (ddigits : UStr) : 1 ≤ unitsDigit floorLog2 first msp
    ∧ 0 ≤ (loaded (unitsDigit floorLog2 first msp) msp ddigits).msd
    ∧ (loaded (unitsDigit floorLog2 first msp) msp ddigits).msd ≤ 105 := by
  obtain ⟨hnonneg, hneg, hlarge⟩ := estimate_bounds hlog h1 h9 hlow hhigh
  have hle := estimates_le hlog h1 h9 hlow hhigh
  have hbits : dblMantDig = 53 := rfl
  have hper : ((ddigPerDig : Nat) : Int) = 9 := rfl
  rw [loaded, unitsDigit, rightShiftMax, hbits, hper]
  have hmin : dblMin10Exp - dblDig = -322 := rfl
  have hmax : dblMax10Exp = 308 := rfl
  rw [hmin] at hlow
  rw [hmax] at hhigh
  dsimp only
  generalize floorLog2 (1 + first) msp = F at *
  generalize floorLog2 first msp = G at *
  rcases lt_or_ge msp 0 with hsign | hsign
  · have hG := hneg hsign
    rw [if_neg (not_le.mpr hsign)]
    split <;> [skip; split] <;> omega
  · have hG := hnonneg hsign
    rw [if_pos hsign]
    split <;> [skip; split] <;> omega

/-- What is loaded is within the array. -/
theorem loaded_within {ddigits : UStr} (h : Significant ddigits) :
    (loaded (unitsDigit floorLog2 first msp) msp ddigits).within bignumDigits
      = some (loaded (unitsDigit floorLog2 first msp) msp ddigits) := by
  obtain ⟨_, hnonneg, hle⟩ := unitsDigit_spec hlog h1 h9 hlow hhigh ddigits
  obtain ⟨_, _, hlsd⟩ := loaded_spec h (unitsDigit floorLog2 first msp) msp
  have hsize := bignumDigits_eq
  exact within_iff.mpr ⟨rfl, hnonneg, by omega⟩

end Estimates

/-- The decimal places of the scaled number are within the array. -/
def Fits (floorLog2 : Nat → Int → Int) (first : Nat) (msp : Int) (v : ℚ) : Prop :=
  0 < rightShiftMax floorLog2 first msp → ∃ k : Int,
    v / 2 ^ (rightShiftMax floorLog2 first msp).toNat * (bbase : ℚ)
      ^ ((bignumDigits : Int) - 1 - msp / ddigPerDig) = k

/-- The digits as they are scaled, with the exponent. -/
def scaled (floorLog2 : Nat → Int → Int) (first : Nat) (msp : Int) (ddigits : UStr) :
    Option (Bignum × Int) :=
  let unitsDigit := unitsDigit floorLog2 first msp
  let rightShiftMax := rightShiftMax floorLog2 first msp
  if 0 < rightShiftMax then do
    let n ← scaleRight rightShiftMax.toNat rightShiftMax.toNat (loaded unitsDigit msp ddigits)
    some (n, rightShiftMax)
  else do
    let (n, left) ← scaleLeft unitsDigit (-rightShiftMax).toNat (-rightShiftMax).toNat
        (loaded unitsDigit msp ddigits)
    some (n, rightShiftMax + left)

section Conversion

variable {floorLog2 : Nat → Int → Int} {first : Nat} {msp : Int} {ddigits : UStr}

/-- The left shift of a number that is scaled up. -/
theorem left_scaled {r : Int} (hr : ¬ 0 < r) (v : ℚ) : v * 2 ^ (-r).toNat * (2 : ℚ) ^ r = v := by
  obtain ⟨j, hj⟩ := Int.eq_ofNat_of_zero_le (neg_nonneg.mpr (not_lt.mp hr))
  have hr : r = -j := by omega
  rw [hj, Int.toNat_natCast, hr, zpow_neg, zpow_natCast, mul_assoc, mul_inv_cancel₀ (by positivity),
    mul_one]

/-- A number whose last digit is within the array has its decimal places there. -/
theorem places_of_lsd {n : Bignum} {unitsDigit size : Int} (hlsd : n.lsd ≤ size) :
    ∃ k : Int, n.value unitsDigit * (bbase : ℚ) ^ (size - unitsDigit) = k := by
  obtain ⟨j, hj⟩ := Int.eq_ofNat_of_zero_le (sub_nonneg.mpr hlsd)
  refine ⟨(Numeral.value bbase n.digits * bbase ^ j : ℕ), ?_⟩
  have hplace : unitsDigit - n.lsd + (size - unitsDigit) = j := by omega
  rw [Bignum.value, mul_assoc, ← zpow_add₀ Bignum.bbase_ne_zero, hplace, zpow_natCast,
    Int.cast_natCast, Nat.cast_mul, Nat.cast_pow]

variable (hlog : FloorLog2 floorLog2) (h1 : 1 ≤ first) (h9 : first ≤ 9)
  (hlow : dblMin10Exp - dblDig < msp) (hhigh : msp ≤ dblMax10Exp) (h : Significant ddigits)

include hlog h1 h9 hlow hhigh h

theorem convert_eq (mode : RoundingMode) : convert mode floorLog2 first msp ddigits
    = (scaled floorLog2 first msp ddigits).bind fun p =>
        (mantissa (unitsDigit floorLog2 first msp) dblMantDig p.1 p.2).bind fun r =>
          let mantissaBits := roundToInt mode r.2.1 r.1 (unitsDigit floorLog2 first msp)
          if maxMantissa < mantissaBits then some (.ldexp 1 (r.2.2 + dblMantDig))
          else some (.ldexp mantissaBits r.2.2) := by
  have hwithin := loaded_within hlog h1 h9 hlow hhigh h
  obtain ⟨hunits, _⟩ := unitsDigit_spec hlog h1 h9 hlow hhigh ddigits
  have hshift := (estimates_le hlog h1 h9 hlow hhigh).2
  have hassert : ¬ (¬ rightShiftMax floorLog2 first msp - (1 + floorLog2 first msp - dblMantDig) < 2
      ∨ (if 0 < rightShiftMax floorLog2 first msp then msp
        else if 1 + floorLog2 first msp - dblMantDig < 0 then
          msp + (2 - (1 + floorLog2 first msp - dblMantDig)) / 3
        else msp) < 0) := by
    rw [not_or, not_not, rightShiftMax]
    refine ⟨by omega, ?_⟩
    intro hneg
    have hper : ((ddigPerDig : Nat) : Int) = 9 := rfl
    rw [unitsDigit, rightShiftMax, hper] at hunits
    omega
  rw [convert]
  dsimp only
  rw [← rightShiftMax, if_neg hassert, ← unitsDigit, ← firstLeft, ← loaded, hwithin, scaled]
  simp only [Option.bind_eq_bind, Option.bind_some]
  split <;> rw [Option.bind_assoc] <;> rfl

/-- The scaling succeeds exactly where the array is long enough for it. -/
theorem scaled_isSome_iff (hlt : placed ddigits msp
    < 2 ^ 53 * (2 : ℚ) ^ rightShiftMax floorLog2 first msp) :
    (scaled floorLog2 first msp ddigits).isSome ↔
      Fits floorLog2 first msp (placed ddigits msp) := by
  obtain ⟨hvalid, hvalue, _⟩ := loaded_spec h (unitsDigit floorLog2 first msp) msp
  obtain ⟨_, hmsd, hlsd⟩ := within_iff.mp (loaded_within hlog h1 h9 hlow hhigh h)
  obtain ⟨hunits, _⟩ := unitsDigit_spec hlog h1 h9 hlow hhigh ddigits
  rw [scaled]
  dsimp only
  by_cases hright : 0 < rightShiftMax floorLog2 first msp
  · have hplace : unitsDigit floorLog2 first msp = msp / ddigPerDig := by
      rw [unitsDigit, if_pos hright]
    rw [if_pos hright]
    constructor
    · intro hsome _
      obtain ⟨p, hp⟩ := Option.isSome_iff_exists.mp hsome
      obtain ⟨n, hn, _⟩ := Option.bind_eq_some_iff.mp hp
      obtain ⟨_, hscale, hend⟩ :=
        scaleRight_value le_rfl hvalid hlsd hn (unitsDigit floorLog2 first msp)
      rw [hvalue] at hscale
      rw [← hscale, mul_div_assoc, div_self (by positivity), mul_one, ← hplace]
      exact places_of_lsd (by omega)
    · intro hfits
      obtain ⟨k, hk⟩ := hfits hright
      rw [← hvalue, ← hplace] at hk
      obtain ⟨n, hn⟩ := scaleRight_total le_rfl hvalid hmsd hlsd hk
      rw [hn]
      rfl
  · rw [if_neg hright]
    refine iff_of_true ?_ fun hpos => absurd hpos hright
    have hpos : (0 : ℚ) < 2 ^ rightShiftMax floorLog2 first msp := by positivity
    have hleft : placed ddigits msp * 2 ^ (-rightShiftMax floorLog2 first msp).toNat < 2 ^ 53 := by
      rw [← mul_lt_mul_iff_left₀ hpos, left_scaled hright]
      exact hlt
    rw [← hvalue] at hleft
    obtain ⟨n, left, hn, _⟩ := scaleLeft_spec le_rfl hvalid hunits hlsd hleft
    rw [hn]
    rfl

/-- What the scaling leaves for the mantissa. -/
theorem scaled_spec (hge : 2 ^ 51 * (2 : ℚ) ^ rightShiftMax floorLog2 first msp
    ≤ placed ddigits msp)
    (hlt : placed ddigits msp < 2 ^ 53 * (2 : ℚ) ^ rightShiftMax floorLog2 first msp) {n : Bignum}
    {exponent : Int} (hscaled : scaled floorLog2 first msp ddigits = some (n, exponent)) :
    n.Valid ∧ n.lsd < bignumDigits
      ∧ n.value (unitsDigit floorLog2 first msp) * (2 : ℚ) ^ exponent = placed ddigits msp
      ∧ n.value (unitsDigit floorLog2 first msp) < 2 ^ 53
      ∧ (2 ^ 51 ≤ n.value (unitsDigit floorLog2 first msp)
        ∨ n.lsd ≤ unitsDigit floorLog2 first msp) := by
  obtain ⟨hvalid, hvalue, _⟩ := loaded_spec h (unitsDigit floorLog2 first msp) msp
  obtain ⟨_, _, hlsd⟩ := within_iff.mp (loaded_within hlog h1 h9 hlow hhigh h)
  obtain ⟨hunits, _⟩ := unitsDigit_spec hlog h1 h9 hlow hhigh ddigits
  have hpos : (0 : ℚ) < 2 ^ rightShiftMax floorLog2 first msp := by positivity
  rw [scaled] at hscaled
  dsimp only at hscaled
  by_cases hright : 0 < rightShiftMax floorLog2 first msp
  · rw [if_pos hright] at hscaled
    obtain ⟨n', hn, heq⟩ := Option.bind_eq_some_iff.mp hscaled
    cases heq
    obtain ⟨hv, hscale, hend⟩ :=
      scaleRight_value le_rfl hvalid hlsd hn (unitsDigit floorLog2 first msp)
    have hnat : ((rightShiftMax floorLog2 first msp).toNat : Int)
        = rightShiftMax floorLog2 first msp :=
      Int.toNat_of_nonneg hright.le
    rw [hvalue, ← zpow_natCast, hnat] at hscale
    refine ⟨hv, hend, hscale, ?_, .inl ?_⟩
    · rwa [← hscale, mul_lt_mul_iff_left₀ hpos] at hlt
    · rwa [← hscale, mul_le_mul_iff_left₀ hpos] at hge
  · rw [if_neg hright] at hscaled
    have hleft : placed ddigits msp * 2 ^ (-rightShiftMax floorLog2 first msp).toNat < 2 ^ 53 := by
      rw [← mul_lt_mul_iff_left₀ hpos, left_scaled hright]
      exact hlt
    rw [← hvalue] at hleft
    obtain ⟨n', left, hn, hv, hend, hscale, hdone⟩ := scaleLeft_spec le_rfl hvalid hunits hlsd hleft
    rw [hn] at hscaled
    cases hscaled
    rw [hvalue] at hscale hleft
    refine ⟨hv, hend, ?_, ?_, ?_⟩
    · rw [zpow_add₀ (by norm_num), zpow_natCast,
        mul_comm (2 ^ rightShiftMax floorLog2 first msp : ℚ), ← mul_assoc, hscale,
        left_scaled hright]
    · have hone : (1 : ℚ) ≤ 2 ^ left := one_le_pow₀ (by norm_num)
      have hgrow := le_mul_of_one_le_right (hv.value_pos (unitsDigit floorLog2 first msp)).le hone
      rw [hscale] at hgrow
      exact hgrow.trans_lt hleft
    · rcases hdone with hzero | hdone
      · rw [hzero, pow_zero, mul_one] at hscale
        rw [hscale, ← mul_le_mul_iff_left₀ hpos, left_scaled hright]
        exact .inl hge
      · exact .inr hdone

end Conversion

section Rounding

variable {floorLog2 : Nat → Int → Int} {first : Nat} {msp : Int} {ddigits : UStr}

/-- The first digit bounds the number. -/
theorem placed_bounds (h : Significant ddigits) (msp : Int) :
    ∃ c ∈ ddigits.head?, 1 ≤ c - UChar.zero ∧ c - UChar.zero ≤ 9
    ∧ (c - UChar.zero : ℕ) * (10 : ℚ) ^ msp ≤ placed ddigits msp
    ∧ placed ddigits msp < (1 + (c - UChar.zero) : ℕ) * (10 : ℚ) ^ msp := by
  obtain ⟨c, hc, hc0⟩ := h.head
  cases ddigits with
  | nil => cases hc
  | cons a s =>
    cases hc
    obtain ⟨v, hv, hvc⟩ := exists_sub_zero (h.digits_eq _ (List.mem_cons_self ..))
    have hrest := ofDigits_lt fun e he => h.digits_eq e (List.mem_cons_of_mem _ he)
    have hpos : (0 : ℚ) < 10 ^ (msp - s.length) := by positivity
    have hplace : msp + 1 - ((s.length + 1 : ℕ) : Int) = msp - s.length := by omega
    have hpow : (10 : ℚ) ^ msp = 10 ^ s.length * 10 ^ (msp - s.length) := by
      rw [← zpow_natCast, ← zpow_add₀ (by norm_num)]
      congr 1
      omega
    refine ⟨c, rfl, Nat.one_le_iff_ne_zero.mpr hc0, ?_, ?_, ?_⟩
    · rw [hvc]
      exact Nat.lt_succ_iff.mp hv
    · rw [placed, ofDigits_cons, List.length_cons, hplace, hpow, ← mul_assoc]
      apply mul_le_mul_of_nonneg_right _ hpos.le
      exact_mod_cast Nat.le_add_right _ _
    · rw [placed, ofDigits_cons, List.length_cons, hplace, hpow, ← mul_assoc]
      apply mul_lt_mul_of_pos_right _ hpos
      have hnat : (c - UChar.zero) * 10 ^ s.length + ofDigits s
          < (1 + (c - UChar.zero)) * 10 ^ s.length := by
        rw [Nat.add_mul, Nat.one_mul, Nat.add_comm]
        exact Nat.add_lt_add_right hrest _
      exact_mod_cast hnat

/-- A result is there where the array is long enough, and it is the nearest except in a tie above an
odd mantissa. -/
theorem convert_rounds_iff (hlog : FloorLog2 floorLog2) (h : Significant ddigits)
    (hfirst : first ∈ ddigits.head?) (hlow : dblMin10Exp - dblDig < msp)
    (hhigh : msp ≤ dblMax10Exp) :
    (∃ m e, convert .toNearest floorLog2 (first - UChar.zero) msp ddigits = some (.ldexp m e)
        ∧ RoundsBinary (placed ddigits msp) m e)
      ↔ ¬ HalfwayOdd (placed ddigits msp)
        ∧ Fits floorLog2 (first - UChar.zero) msp (placed ddigits msp) := by
  obtain ⟨c, hc, h1, h9, hv, hv'⟩ := placed_bounds h msp
  cases hc.symm.trans hfirst
  obtain ⟨hge, hlt⟩ := estimate_scaled hlog h1 h9 hlow hhigh hv hv'
  rw [convert_eq hlog h1 h9 hlow hhigh h, ← scaled_isSome_iff hlog h1 h9 hlow hhigh h hlt]
  cases hscaled : scaled floorLog2 (first - UChar.zero) msp ddigits with
  | none =>
    refine iff_of_false ?_ fun hsome => by cases hsome.2
    rintro ⟨m, e, hrun, _⟩
    cases hrun
  | some p =>
    obtain ⟨n, exponent⟩ := p
    obtain ⟨hvalid, hlsd, hvalue, hlt', hge'⟩ := scaled_spec hlog h1 h9 hlow hhigh h hge hlt hscaled
    obtain ⟨hunits, _⟩ := unitsDigit_spec hlog h1 h9 hlow hhigh ddigits
    obtain ⟨n', exponent', hrun, hvalid', hsame, hlt'', hge''⟩ :=
      mantissa_spec hvalid hunits hlsd hlt' hge' exponent
    have hfinished := finished_rounds_iff hvalid' hlt'' hge'' exponent'
    rw [hsame, hvalue] at hfinished
    rw [← hfinished, Option.bind_some, hrun, Option.bind_some, finished]
    dsimp only
    split
    · constructor
      · rintro ⟨m, e, heq, hrounds⟩
        cases heq
        exact ⟨hrounds, rfl⟩
      · rintro ⟨hrounds, _⟩
        exact ⟨_, _, rfl, hrounds⟩
    · constructor
      · rintro ⟨m, e, heq, hrounds⟩
        cases heq
        exact ⟨hrounds, rfl⟩
      · rintro ⟨hrounds, _⟩
        exact ⟨_, _, rfl, hrounds⟩

end Rounding

end ToDouble

/-- The digits between the leading and the trailing zeroes. -/
def significantDigits (ddigits : UStr) : UStr :=
  (ddigits.dropWhile (· = UChar.zero)).rdropWhile (· = UChar.zero)

/-- The first digit that is not zero. -/
def leadingDigit (ddigits : UStr) : Nat :=
  (ddigits.dropWhile (· = UChar.zero)).head?.elim 0 (· - UChar.zero)

/-- The decimal place of the first digit that is not zero. -/
def leadingPlace (ddigits : UStr) (scale : Int) : Int :=
  -scale + ((ddigits.dropWhile (· = UChar.zero)).length - 1)

/-- The normal range of `double`. -/
def NormalRange (v : ℚ) : Prop := (2 : ℚ) ^ (dblMinExp - 1) ≤ v
    ∧ v ≤ (2 ^ 53 - 1) * (2 : ℚ) ^ (971 : Int)

section Double

variable {floorLog2 : Nat → Int → Int} {ddigits : UStr} {scale : Int}

theorem ofDigits_of_forall_zero {s : UStr} (h : ∀ c ∈ s, c = UChar.zero) : ofDigits s = 0 := by
  rw [List.eq_replicate_of_mem h, ofDigits, List.map_replicate, Nat.sub_self,
    Numeral.value_replicate_zero]

/-- The zeroes at both ends. -/
theorem exists_significantDigits (ddigits : UStr) :
    ∃ s t : UStr, ddigits = s ++ (significantDigits ddigits ++ t)
    ∧ ddigits.dropWhile (· = UChar.zero) = significantDigits ddigits ++ t
    ∧ (∀ c ∈ s, c = UChar.zero)
    ∧ ∀ c ∈ t, c = UChar.zero := by
  have hleading : ∀ c ∈ ddigits.takeWhile (· = UChar.zero), c = UChar.zero := by
    intro c hc
    simpa using List.mem_takeWhile_imp hc
  have htrailing : ∀ c ∈ (ddigits.dropWhile (· = UChar.zero)).rtakeWhile (· = UChar.zero),
      c = UChar.zero := by
    intro c hc
    simpa using List.mem_rtakeWhile_imp hc
  refine ⟨_, (ddigits.dropWhile (· = UChar.zero)).rtakeWhile (· = UChar.zero), ?_, ?_, hleading,
    htrailing⟩
  · rw [significantDigits, List.rdropWhile_append_rtakeWhile, List.takeWhile_append_dropWhile]
  · rw [significantDigits, List.rdropWhile_append_rtakeWhile]

theorem significantDigits_spec (hdigits : ∀ c ∈ ddigits, isDigit c = true)
    (hne : ofDigits ddigits ≠ 0) (hlength : (significantDigits ddigits).length ≤ lineLength)
    (scale : Int) : Significant (significantDigits ddigits)
      ∧ (ddigits.dropWhile (· = UChar.zero)).head? = (significantDigits ddigits).head?
      ∧ ToDouble.placed (significantDigits ddigits) (leadingPlace ddigits scale)
        = ofDigits ddigits * (10 : ℚ) ^ (-scale) := by
  obtain ⟨s, t, hsplit, hdrop, hs, ht⟩ := exists_significantDigits ddigits
  have hvalue : ofDigits ddigits = ofDigits (significantDigits ddigits) * 10 ^ t.length := by
    conv_lhs => rw [hsplit]
    rw [ofDigits_append, ofDigits_append, ofDigits_of_forall_zero hs, ofDigits_of_forall_zero ht,
      Nat.zero_mul, Nat.zero_add, Nat.add_zero]
  have hsome : significantDigits ddigits ≠ [] := by
    intro hnil
    rw [hvalue, hnil] at hne
    exact hne (Nat.zero_mul _)
  have hhead : (ddigits.dropWhile (· = UChar.zero)).head? = (significantDigits ddigits).head? := by
    rw [hdrop, List.head?_append_of_ne_nil _ hsome]
  have hall : ∀ c ∈ significantDigits ddigits, isDigit c = true := by
    intro c hc
    apply hdigits
    rw [hsplit]
    exact List.mem_append_right _ (List.mem_append_left _ hc)
  refine ⟨⟨hall, ?_, hlength⟩, hhead, ?_⟩
  · obtain ⟨c, r, hcr⟩ := List.exists_cons_of_ne_nil hsome
    refine ⟨c, by rw [hcr]; rfl, ?_⟩
    have hfirst := List.head?_dropWhile_not (· = UChar.zero) ddigits
    rw [hhead, hcr] at hfirst
    have hdigit := hall c (by rw [hcr]; exact List.mem_cons_self ..)
    have hrange : UChar.zero ≤ c ∧ c ≤ UChar.nine := by simpa [isDigit] using hdigit
    have hzero : c ≠ UChar.zero := by simpa using hfirst
    exact Nat.sub_ne_zero_of_lt (lt_of_le_of_ne hrange.1 hzero.symm)
  · have hplace : leadingPlace ddigits scale + 1 - (significantDigits ddigits).length
        = t.length + -scale := by
      rw [leadingPlace, hdrop, List.length_append]
      omega
    rw [ToDouble.placed, hplace, hvalue, zpow_add₀ (by norm_num), zpow_natCast]
    push_cast
    ring

/-- The places of a number in the normal range. -/
theorem leadingPlace_of_normalRange {v : ℚ} {msp : Int} (h : NormalRange v)
    (hge : (10 : ℚ) ^ msp ≤ v) (hlt : v < (10 : ℚ) ^ (msp + 1)) : dblMin10Exp - dblDig < msp
      ∧ msp ≤ dblMax10Exp := by
  obtain ⟨hmin, hmax⟩ := h
  have hten : (1 : ℚ) ≤ 10 := by norm_num
  constructor
  · by_contra hsmall
    have hnat : 2 ^ 1022 ≤ 10 ^ 308 := by decide +kernel
    have hcast : (2 : ℚ) ^ 1022 ≤ (10 : ℚ) ^ 308 := by exact_mod_cast hnat
    have hinv : ((10 : ℚ) ^ 308)⁻¹ ≤ ((2 : ℚ) ^ 1022)⁻¹ := inv_anti₀ (by positivity) hcast
    have hlow : (10 : ℚ) ^ (msp + 1) ≤ ((10 : ℚ) ^ 308)⁻¹ := by
      rw [← zpow_natCast, ← zpow_neg]
      refine zpow_le_zpow_right₀ hten ?_
      have hbound : dblMin10Exp - dblDig = -322 := rfl
      omega
    have hexp : (2 : ℚ) ^ (dblMinExp - 1) = ((2 : ℚ) ^ 1022)⁻¹ := by
      rw [← zpow_natCast, ← zpow_neg]
      rfl
    rw [hexp] at hmin
    exact (hmin.trans_lt (hlt.trans_le (hlow.trans hinv))).false
  · by_contra hlarge
    have hnat : 2 ^ 1024 ≤ 10 ^ 309 := by decide +kernel
    have hcast : (2 : ℚ) ^ 1024 ≤ (10 : ℚ) ^ 309 := by exact_mod_cast hnat
    have hhigh : (10 : ℚ) ^ 309 ≤ 10 ^ msp := by
      rw [← zpow_natCast]
      refine zpow_le_zpow_right₀ hten ?_
      have hbound : dblMax10Exp = 308 := rfl
      omega
    have hexp : ((2 : ℚ) ^ 53 - 1) * (2 : ℚ) ^ (971 : Int) < (2 : ℚ) ^ 1024 := by
      have hsplit : (2 : ℚ) ^ 1024 = 2 ^ 53 * (2 : ℚ) ^ (971 : Int) := by
        rw [← zpow_natCast, ← zpow_natCast, ← zpow_add₀ (by norm_num)]
        rfl
      rw [hsplit]
      exact mul_lt_mul_of_pos_right (by norm_num) (by positivity)
    exact (((hcast.trans hhigh).trans hge).trans hmax).not_gt hexp

/-- The pair denotes the nearest, ties to even, if and only if the number is not halfway above an
odd mantissa and its decimal places fit in the array when it is scaled down. -/
theorem toDouble_rounds_iff (hlog : FloorLog2 floorLog2) (hdigits : ∀ c ∈ ddigits, isDigit c = true)
    (hlength : (significantDigits ddigits).length ≤ lineLength)
    (hnormal : NormalRange (ofDigits ddigits * (10 : ℚ) ^ (-scale))) :
    (∃ m e, toDouble .toNearest floorLog2 ddigits scale = some (.ldexp m e)
        ∧ RoundsBinary (ofDigits ddigits * (10 : ℚ) ^ (-scale)) m e)
      ↔ ¬ HalfwayOdd (ofDigits ddigits * (10 : ℚ) ^ (-scale))
        ∧ ToDouble.Fits floorLog2 (leadingDigit ddigits) (leadingPlace ddigits scale)
          (ofDigits ddigits * (10 : ℚ) ^ (-scale)) := by
  have hpos : 0 < (ofDigits ddigits : ℚ) * (10 : ℚ) ^ (-scale) :=
    lt_of_lt_of_le (by positivity) hnormal.1
  have hne : ofDigits ddigits ≠ 0 := by
    intro hzero
    rw [hzero, Nat.cast_zero, zero_mul] at hpos
    exact hpos.false
  obtain ⟨hsignificant, hhead, hplaced⟩ := significantDigits_spec hdigits hne hlength scale
  obtain ⟨c, hc, h1, h9, hge, hlt⟩ :=
    ToDouble.placed_bounds hsignificant (leadingPlace ddigits scale)
  rw [hplaced] at hge hlt
  have hten : (0 : ℚ) < 10 ^ leadingPlace ddigits scale := by positivity
  have hone : (1 : ℚ) ≤ (c - UChar.zero : ℕ) := by exact_mod_cast h1
  have hten' : ((1 + (c - UChar.zero) : ℕ) : ℚ) ≤ 10 := by exact_mod_cast Nat.add_le_add_left h9 1
  obtain ⟨hlow, hhigh⟩ :=
    leadingPlace_of_normalRange hnormal ((le_mul_of_one_le_left hten.le hone).trans hge) (by
      rw [zpow_add_one₀ (by norm_num), mul_comm _ (10 : ℚ)]
      exact hlt.trans_le (mul_le_mul_of_nonneg_right hten' hten.le))
  have hfirst : (ddigits.dropWhile (· = UChar.zero)).head? = some c := hhead.trans hc
  have hdigit : leadingDigit ddigits = c - UChar.zero := by
    rw [leadingDigit, hfirst]
    rfl
  have hconvert := ToDouble.convert_rounds_iff hlog hsignificant hc hlow hhigh
  rw [hplaced] at hconvert
  rw [hdigit, ← hconvert, toDouble]
  dsimp only
  rw [hfirst]
  dsimp only
  have hshort : ¬ (lineLength : Int) ≤ leadingPlace ddigits scale - (-scale
      + ((ddigits.dropWhile (· = UChar.zero)).length - (significantDigits ddigits).length)) := by
    rw [leadingPlace]
    omega
  rw [← leadingPlace, ← significantDigits, if_neg hshort, if_neg (not_lt.mpr hhigh),
    if_neg (not_le.mpr hlow)]

end Double

/-- The same without logarithms. -/
def exactFloorLog2 (k : Nat) (m : Int) : Int :=
  Nat.log2 (k * 16 ^ (-m).toNat * 10 ^ m.toNat / 10 ^ (-m).toNat) - 4 * (-m).toNat

theorem exactFloorLog2_spec : FloorLog2 exactFloorLog2 := by
  have hbounds : ∀ {k : Nat} {m : Int}, 1 ≤ k → (2 : ℚ) ^ exactFloorLog2 k m ≤ k * (10 : ℚ) ^ m
      ∧ k * (10 : ℚ) ^ m < (2 : ℚ) ^ (exactFloorLog2 k m + 1) := by
    intro k m hk
    have hm : m = m.toNat - (-m).toNat := by omega
    generalize hn : (-m).toNat = n at hm
    generalize hp : m.toNat = p at hm
    have hquot : k * 16 ^ n * 10 ^ p / 10 ^ n ≠ 0 := by
      have hle : 10 ^ n ≤ k * 16 ^ n * 10 ^ p := by
        calc 10 ^ n ≤ 16 ^ n := Nat.pow_le_pow_left (by decide) n
          _ ≤ k * 16 ^ n := Nat.le_mul_of_pos_left _ hk
          _ ≤ k * 16 ^ n * 10 ^ p := Nat.le_mul_of_pos_right _ (Nat.pow_pos (by decide))
      exact (Nat.div_pos hle (Nat.pow_pos (by decide))).ne'
    have hlow := Nat.log2_self_le hquot
    have hhigh : _ < 2 ^ (_ + 1) := Nat.lt_log2_self (n := k * 16 ^ n * 10 ^ p / 10 ^ n)
    rw [Nat.le_div_iff_mul_le (Nat.pow_pos (by decide))] at hlow
    rw [Nat.div_lt_iff_lt_mul (Nat.pow_pos (by decide))] at hhigh
    rw [exactFloorLog2, hn, hp]
    generalize Nat.log2 (k * 16 ^ n * 10 ^ p / 10 ^ n) = L at *
    have hscale : (k : ℚ) * (10 : ℚ) ^ m
        = (k * 16 ^ n * 10 ^ p : ℕ) / (10 ^ n * (2 : ℚ) ^ (4 * (n : Int))) := by
      have hsixteen : (2 : ℚ) ^ (4 * (n : Int)) = 16 ^ n := by
        rw [zpow_mul, zpow_natCast]
        norm_num
      rw [hm, zpow_sub₀ (by norm_num), zpow_natCast, zpow_natCast, hsixteen]
      push_cast
      field_simp
    have hpos : (0 : ℚ) < 10 ^ n * (2 : ℚ) ^ (4 * (n : Int)) := by positivity
    have hlow' : (2 : ℚ) ^ L * 10 ^ n ≤ (k * 16 ^ n * 10 ^ p : ℕ) := by exact_mod_cast hlow
    have hhigh' : ((k * 16 ^ n * 10 ^ p : ℕ) : ℚ) < (2 : ℚ) ^ (L + 1) * 10 ^ n := by
      exact_mod_cast hhigh
    rw [hscale]
    constructor
    · rw [le_div_iff₀ hpos, zpow_sub₀ (by norm_num), zpow_natCast]
      refine le_of_eq_of_le ?_ hlow'
      field_simp
    · have hsucc : (L : Int) - 4 * n + 1 = ((L + 1 : ℕ) : Int) - 4 * n := by omega
      rw [div_lt_iff₀ hpos, hsucc, zpow_sub₀ (by norm_num), zpow_natCast]
      refine lt_of_lt_of_eq hhigh' ?_
      field_simp
  exact ⟨fun hk _ _ _ => (hbounds hk).1, fun hk _ _ _ => (hbounds hk).2⟩

/-- Two to the fifty-third and three. -/
def halfwayText : UStr := [57, 48, 48, 55, 49, 57, 57, 50, 53, 52, 55, 52, 48, 57, 57, 53]

theorem toDouble_rounds_iff_halfwayText :
    (∃ m e, toDouble .toNearest exactFloorLog2 halfwayText 0 = some (.ldexp m e)
        ∧ RoundsBinary (ofDigits halfwayText * (10 : ℚ) ^ (-(0 : Int))) m e)
      ↔ ¬ HalfwayOdd (ofDigits halfwayText * (10 : ℚ) ^ (-(0 : Int)))
        ∧ ToDouble.Fits exactFloorLog2 (leadingDigit halfwayText) (leadingPlace halfwayText 0)
          (ofDigits halfwayText * (10 : ℚ) ^ (-(0 : Int))) := by
  have hvalue : ofDigits halfwayText = 9007199254740995 := rfl
  refine toDouble_rounds_iff exactFloorLog2_spec (by decide) (by decide) ?_
  rw [hvalue, neg_zero, zpow_zero, mul_one]
  constructor
  · exact (zpow_le_one_of_nonpos₀ (by norm_num) (by decide)).trans (by norm_num)
  · calc ((9007199254740995 : ℕ) : ℚ) ≤ (2 ^ 53 - 1) * 2 ^ (2 : Int) := by norm_num
      _ ≤ (2 ^ 53 - 1) * 2 ^ (971 : Int) :=
        mul_le_mul_of_nonneg_left (zpow_le_zpow_right₀ (by norm_num) (by decide)) (by norm_num)

/-- The mantissa is left odd in a tie. -/
theorem toDouble_halfwayText :
    ¬ ∃ m e, toDouble .toNearest exactFloorLog2 halfwayText 0 = some (.ldexp m e)
    ∧ RoundsBinary (ofDigits halfwayText * (10 : ℚ) ^ (-(0 : Int))) m e := by
  rintro ⟨m, e, hrun, hrounds⟩
  have hresult : toDouble .toNearest exactFloorLog2 halfwayText 0
      = some (.ldexp 4503599627370497 1) := by
    decide +kernel
  have hvalue : ofDigits halfwayText = 9007199254740995 := rfl
  have hscale : (ofDigits halfwayText : ℚ) * (10 : ℚ) ^ (-(0 : Int))
      = 9007199254740995 / 2 * (2 : ℚ) ^ (1 : Int) := by
    rw [hvalue]
    norm_num
  rw [hresult] at hrun
  cases hrun
  rw [hscale, roundsBinary_iff_nearestEven (by norm_num) (by norm_num)] at hrounds
  have htie := hrounds.2 (by norm_num)
  revert htie
  decide

end CifApi
