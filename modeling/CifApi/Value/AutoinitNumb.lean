import CifApi.Value.InitNumb
import CifApi.Data.DecimalPlaces

/-! Numbers made from doubles with as many digits as an uncertainty, or the exact value, asks
for. -/
namespace CifApi

/-- How often a base divides a number, and what is left of it then. -/
def trailingZeroes (base : Nat) : Nat → Nat → Nat × Nat
  | 0, bits => (0, bits)
  | fuel + 1, bits =>
    if bits % base = 0 then
      let (zeroes, bits) := trailingZeroes base fuel (bits / base)
      (zeroes + 1, bits)
    else (0, bits)

/-- `frac_bits`: the number of significant bits, and the exponent of the fraction that they make. -/
def fracBits (d : Double) : Int × Int :=
  if d.mantissa = 0 then (0, 0)
  else
    let (zeroes, bits) := trailingZeroes 16 dblMantDig d.fraction
    let (zeroes', _) := trailingZeroes 2 dblMantDig bits
    (dblMantDig - (4 * zeroes + zeroes' : Nat), d.fractionExponent + dblMantDig)

/-- The scale of an exact number. -/
def exactScale (msp : Double → Int) (val : Double) : Int :=
  let (bitCount, exponent) := fracBits val
  if exponent ≤ bitCount then bitCount - exponent
  else
    let mostSignificantPlace := msp val
    if mostSignificantPlace < dblDig then 0 else dblDig - 1 - mostSignificantPlace

/-- `sprintf(buf, "%.*e", precision, d)` for a number that is not negative, in the default rounding
mode. -/
def sprintfE (precision : Nat) (d : Double) : UStr :=
  let (digits, exponent) := if d.mantissa = 0 then (0, 0)
    else decimalDigits (precision + 1) d.magnitude
  let digits := ToDigits.lastDigits (precision + 1) digits
  digits.take 1 ++ (if precision = 0 then [] else UChar.decimal :: digits.drop 1)
    ++ [UChar.lowerE, if exponent < 0 then UChar.minus else UChar.plus]
    ++ ToDigits.lastDigits (max 2 (Nat.log 10 exponent.natAbs + 1)) exponent.natAbs

/-- `strtol` in base ten: the number, and the text after it. -/
def strtol (s : UStr) : Int × UStr :=
  let (sign, s) : Int × UStr := match s with
    | c :: rest => if c = UChar.minus then (-1, rest) else if c = UChar.plus then (1, rest)
      else (1, s)
    | [] => (1, [])
  (sign * ofDigits (s.takeWhile isDigit), s.dropWhile isDigit)

/-- `BUF_SIZE`. -/
abbrev bufSize : Nat := 50

/-- The digits of the exponent of a formatted double. -/
abbrev exponentDigits : Nat := 3

abbrev defaultMaxLeadZeroes : Int := 5

/-- The scale for a number with an uncertainty, unless the assertion about the formatted text
fails. -/
def suScale (su : Double) (suRule : UInt32) : Option (Except Int Int) :=
  -- `(int) log10(su_rule + 0.5) + 1`
  let ruleDigits := Nat.log 10 suRule.toNat + 1
  let buf := sprintfE (ruleDigits - 1) su
  if ruleDigits + exponentDigits + 4 < bufSize && buf.length < bufSize then
    let v := if charAt buf 1 = UChar.decimal then charAt buf 0 :: buf.drop 2 else buf
    let (suDigits, exponent) := strtol v
    if charAt exponent 0 ≠ UChar.lowerE then none
    else
      let scale := -(strtol (exponent.drop 1)).1 + ruleDigits - 1
      some (.ok (if (suRule.toNat : Int) < suDigits then scale - 1 else scale))
  else some (.error Code.internalError)

/-- `cif_value_autoinit_numb`: the code it answers and the value after it, unless an assertion
fails. -/
def Value.autoinitNumb (msp : Double → Int) (n : Value) (val su : Double) (suRule : UInt32) :
    Option (Int × Value) :=
  if su.isNeg || suRule < 2 then some (Code.argumentError, n)
  else if su.mantissa = 0 then
    -- `cif_value_clean` comes first
    Value.unk.initNumb .toNearest msp val su (exactScale msp val) defaultMaxLeadZeroes
  else do
    match ← suScale su suRule with
    | .error code => return (code, Value.unk)
    | .ok scale => Value.unk.initNumb .toNearest msp val su scale defaultMaxLeadZeroes

section Reading

variable {digits rest : UStr} {su : Double}

theorem strtol_append (hne : digits ≠ []) (hdigits : ∀ c ∈ digits, isDigit c = true)
    (hrest : ∀ c ∈ rest.head?, isDigit c = false) :
    strtol (digits ++ rest) = ((ofDigits digits : Int), rest) := by
  obtain ⟨c, s, rfl⟩ := List.exists_cons_of_ne_nil hne
  have hc := hdigits c (List.mem_cons_self ..)
  have hminus : c ≠ UChar.minus := by
    rintro rfl
    cases hc
  have hplus : c ≠ UChar.plus := by
    rintro rfl
    cases hc
  have htake : (c :: (s ++ rest)).takeWhile isDigit = c :: s := by
    rw [← List.cons_append]
    rw [List.takeWhile_append_of_pos hdigits]
    cases rest with
    | nil => simp
    | cons a rest => simp [hrest a rfl]
  have hdrop : (c :: (s ++ rest)).dropWhile isDigit = rest := by
    rw [← List.cons_append]
    rw [List.dropWhile_append_of_pos hdigits]
    cases rest with
    | nil => rfl
    | cons a rest => simp [hrest a rfl]
  rw [List.cons_append]
  unfold strtol
  dsimp only
  rw [if_neg hminus, if_neg hplus]
  dsimp only
  rw [htake, hdrop, one_mul]

theorem strtol_exponent (exponent : Int) (hdigits : ∀ c ∈ digits, isDigit c = true)
    (hvalue : ofDigits digits = exponent.natAbs) :
    (strtol ((if exponent < 0 then UChar.minus else UChar.plus) :: digits)).1 = exponent := by
  have htake : digits.takeWhile isDigit = digits := List.takeWhile_eq_self_iff.mpr hdigits
  unfold strtol
  dsimp only
  by_cases hneg : exponent < 0
  · rw [if_pos hneg, if_pos rfl]
    dsimp only
    rw [htake, hvalue]
    omega
  · rw [if_neg hneg, if_neg (by decide), if_pos rfl]
    dsimp only
    rw [htake, hvalue]
    omega

theorem lastDigits_natAbs (exponent : Int) : ofDigits (ToDigits.lastDigits
    (max 2 (Nat.log 10 exponent.natAbs + 1)) exponent.natAbs) = exponent.natAbs := by
  rw [ToDigits.ofDigits_lastDigits]
  apply Nat.mod_eq_of_lt
  exact (ToDigits.lt_pow_log _).trans_le (Nat.pow_le_pow_right (by decide) (le_max_right ..))

theorem Double.magnitude_pos (hsu : su.mantissa ≠ 0) : 0 < su.magnitude := by
  have hmantissa : (1 : ℚ) ≤ su.mantissa := by exact_mod_cast Nat.one_le_iff_ne_zero.mpr hsu
  rw [Double.magnitude]
  positivity

/-- The places of a double. -/
theorem Double.log_magnitude (hsu : su.mantissa ≠ 0) :
    -1075 ≤ Int.log 10 su.magnitude ∧ Int.log 10 su.magnitude ≤ 308 := by
  have hmantissa : (1 : ℚ) ≤ su.mantissa := by exact_mod_cast Nat.one_le_iff_ne_zero.mpr hsu
  have hpos : 0 < su.magnitude := by
    rw [Double.magnitude]
    positivity
  have hlow := Int.zpow_log_le_self (b := 10) (by decide) hpos
  have hhigh := Int.lt_zpow_succ_log_self (b := 10) (by decide) su.magnitude
  have hmax := ToDigits.magnitude_lt_max su
  have hten : (1 : ℚ) < 10 := by norm_num
  constructor
  · have hmin : (10 : ℚ) ^ (-1074 : Int) ≤ su.magnitude := by
      have hexp : (-1074 : Int) ≤ su.exponent := su.exponent_le.1
      calc (10 : ℚ) ^ (-1074 : Int) ≤ 2 ^ (-1074 : Int) := by
            rw [zpow_neg, zpow_neg]
            exact inv_anti₀ (by positivity)
              (zpow_le_zpow_left₀ (by decide) (by norm_num) (by norm_num))
        _ ≤ 2 ^ su.exponent := zpow_le_zpow_right₀ (by norm_num) hexp
        _ ≤ su.magnitude := le_mul_of_one_le_left (by positivity) hmantissa
    have hlt := (zpow_lt_zpow_iff_right₀ hten).mp (hmin.trans_lt hhigh)
    omega
  · have hlt : (10 : ℚ) ^ Int.log 10 su.magnitude < 10 ^ (309 : Int) := by
      have hcast : ((10 : ℕ) : ℚ) = 10 := rfl
      rw [hcast] at hlow
      have hbig : (2 : ℚ) * 10 ^ 308 < 10 ^ (309 : Int) := by
        have hnat : 2 * 10 ^ 308 < 10 ^ 309 := by decide +kernel
        exact_mod_cast hnat
      exact (hlow.trans_lt hmax).trans hbig
    have hlt' := (zpow_lt_zpow_iff_right₀ hten).mp hlt
    omega

/-- The scale is that of the formatted digits, or one less. -/
theorem suScale_eq (hsu : su.mantissa ≠ 0) (suRule : UInt32) : suScale su suRule = some (.ok
    (if suRule.toNat < (decimalDigits (Nat.log 10 suRule.toNat + 1) su.magnitude).1
      then ((Nat.log 10 suRule.toNat + 1 : ℕ) : ℤ) - 1
        - (decimalDigits (Nat.log 10 suRule.toNat + 1) su.magnitude).2 - 1
      else ((Nat.log 10 suRule.toNat + 1 : ℕ) : ℤ) - 1
        - (decimalDigits (Nat.log 10 suRule.toNat + 1) su.magnitude).2)) := by
  have hlog : Nat.log 10 suRule.toNat < 10 := by
    refine Nat.log_lt_of_lt_pow' (by decide) ?_
    exact suRule.toNat_lt.trans (by decide)
  obtain ⟨hlow, hhigh⟩ := Double.log_magnitude hsu
  have hmagnitude := Double.magnitude_pos hsu
  obtain ⟨-, -, -, hlt, -⟩ := decimalDigits_spec (Nat.succ_pos (Nat.log 10 suRule.toNat)) hmagnitude
  have hplace := decimalDigits_place (Nat.log 10 suRule.toNat + 1) su.magnitude
  generalize hcount : Nat.log 10 suRule.toNat = count at *
  rcases hdecimal : decimalDigits (count + 1) su.magnitude with ⟨value, exponent⟩
  rw [hdecimal] at hlt hplace
  have hbuf : sprintfE count su = (ToDigits.lastDigits (count + 1) value).take 1
      ++ (if count = 0 then [] else UChar.decimal :: (ToDigits.lastDigits (count + 1) value).drop 1)
      ++ [UChar.lowerE, if exponent < 0 then UChar.minus else UChar.plus]
      ++ ToDigits.lastDigits (max 2 (Nat.log 10 exponent.natAbs + 1)) exponent.natAbs := by
    rw [sprintfE, if_neg hsu, hdecimal]
  have hvalue : ofDigits (ToDigits.lastDigits (count + 1) value) = value := by
    rw [ToDigits.ofDigits_lastDigits, Nat.mod_eq_of_lt hlt]
  have hexp :=
    strtol_exponent exponent (ToDigits.lastDigits_isDigit _ _) (lastDigits_natAbs exponent)
  have hexplength : max 2 (Nat.log 10 exponent.natAbs + 1) ≤ 4 := by
    have hfour : Nat.log 10 exponent.natAbs < 4 := Nat.log_lt_of_lt_pow' (by decide) (by omega)
    omega
  have hdigits := ToDigits.lastDigits_isDigit (count + 1) value
  have hlength := ToDigits.length_lastDigits (count + 1) value
  have hexplength' :=
    ToDigits.length_lastDigits (max 2 (Nat.log 10 exponent.natAbs + 1)) exponent.natAbs
  generalize ToDigits.lastDigits (max 2 (Nat.log 10 exponent.natAbs + 1)) exponent.natAbs = exp at *
  generalize (if exponent < 0 then UChar.minus else UChar.plus) = sign at *
  obtain ⟨c, rest, hcons⟩ := List.exists_cons_of_length_eq_add_one hlength
  rw [hcons] at hbuf hvalue hdigits hlength
  rw [List.length_cons] at hlength
  have hread : strtol (c :: rest ++ UChar.lowerE :: sign :: exp)
      = ((value : Int), UChar.lowerE :: sign :: exp) := by
    rw [strtol_append (List.cons_ne_nil _ _) hdigits (by
      intro a ha
      cases ha
      rfl), hvalue]
  have hv : (if charAt (sprintfE count su) 1 = UChar.decimal then
      charAt (sprintfE count su) 0 :: (sprintfE count su).drop 2
      else sprintfE count su) = c :: rest ++ UChar.lowerE :: sign :: exp := by
    rw [hbuf]
    by_cases hone : count = 0
    · have hnil : rest = [] := List.length_eq_zero_iff.mp (by omega)
      have hsecond : charAt (List.take 1 [c] ++ [] ++ [UChar.lowerE, sign] ++ exp) 1
          = UChar.lowerE := rfl
      rw [hnil, if_pos hone, hsecond, if_neg (by decide)]
      rfl
    · rw [if_neg hone, if_pos (by rfl)]
      simp [charAt]
  have hfits : (sprintfE count su).length < bufSize := by
    have hfifty : bufSize = 50 := rfl
    rw [hbuf, hfifty]
    split
    · simp only [List.length_append, List.length_take, List.length_cons, List.length_nil,
        hexplength']
      omega
    · simp only [List.length_append, List.length_take, List.length_cons, List.length_drop,
        List.length_nil, hexplength']
      omega
  have hroom : count + 1 + exponentDigits + 4 < bufSize := by
    have hfifty : bufSize = 50 := rfl
    have hthree : exponentDigits = 3 := rfl
    omega
  rw [suScale, hcount]
  simp only [Nat.add_sub_cancel]
  rw [if_pos (by simp only [Bool.and_eq_true, decide_eq_true_eq]; exact ⟨hroom, hfits⟩), hv, hread]
  dsimp only
  have hmark : ¬ charAt (UChar.lowerE :: sign :: exp) 0 ≠ UChar.lowerE := not_not.mpr rfl
  have hswap : -exponent + ((count + 1 : ℕ) : ℤ) - 1 = ((count + 1 : ℕ) : ℤ) - 1 - exponent := by
    ring
  rw [if_neg hmark, List.drop_one, List.tail_cons, hexp, hswap]
  simp only [Nat.cast_lt]

end Reading

/-- The scale is the largest one at which the uncertainty is no more than the rule. -/
theorem suScale_spec {su : Double} (hsu : su.mantissa ≠ 0) {suRule : UInt32} (hrule : 2 ≤ suRule) :
    ∃ scale, suScale su suRule = some (.ok scale)
      ∧ LargestPlace su.magnitude suRule.toNat scale := by
  have hne : suRule.toNat ≠ 0 := by
    have hle : 2 ≤ suRule.toNat := hrule
    omega
  have hmagnitude := Double.magnitude_pos hsu
  refine ⟨_, suScale_eq hsu suRule, ?_⟩
  apply largestPlace_decimalDigits hmagnitude (Nat.succ_pos _)
  · exact Nat.pow_log_le_self 10 hne
  · exact ToDigits.lt_pow_log _

/-- A text that the uncertainty ends, unless it is too long. -/
def EndsInSu (suBuf : Option UStr) : Except Int UStr → Prop
  | .error code => code = Code.argumentError
  | .ok text => writeSu suBuf <:+ text

section Init

variable {msp : Double → Int} {n value : Value} {val su : Double} {scale maxLeadingZeroes : Int}

/-- A text that is too long is the only error, and the uncertainty comes last. -/
theorem formatTextDecimal_endsInSu (digits : UStr) (suBuf : Option UStr) :
    EndsInSu suBuf (formatTextDecimal val digits suBuf scale) := by
  rw [formatTextDecimal]
  refine iteInduction (motive := EndsInSu suBuf) (fun _ => ?_) fun _ => rfl
  exact iteInduction (motive := EndsInSu suBuf) (fun _ => List.suffix_append _ _) fun _ =>
    List.suffix_append _ _

theorem formatText_endsInSu {digits : UStr} {suBuf : Option UStr} {result : Except Int UStr}
    (h : formatText msp val digits suBuf scale maxLeadingZeroes = some result) :
    EndsInSu suBuf result := by
  rw [formatText] at h
  split at h
  · cases h
    exact formatTextDecimal_endsInSu digits suBuf
  · by_cases hdigits : digits.length = 0
    · rw [formatTextSci, if_pos hdigits] at h
      cases h
    · rw [formatTextSci, if_neg hdigits] at h
      revert h
      refine iteInduction (motive := fun r => r = some result → EndsInSu suBuf result) (fun _ h =>
        ?_) fun _ h => ?_
      · cases h
        exact List.suffix_append _ _
      · cases h
        rfl

/-- What a number holds that is made. -/
theorem Value.initNumb_eq_ok (h : n.initNumb .toNearest msp val su scale maxLeadingZeroes
    = some (Code.ok, value)) :
    Admissible scale ∧ ∃ digits suBuf text, toDigits .toNearest val scale = some digits
      ∧ suDigitsOf .toNearest su scale = some suBuf
      ∧ formatText msp val digits suBuf scale maxLeadingZeroes = some (.ok text)
      ∧ value = .numb ⟨text, if val.isNeg then -1 else 1, digits, suBuf, scale⟩ false := by
  rw [Value.initNumb] at h
  split at h
  · cases h
  · rename_i hargs
    simp only [Bool.or_eq_true, decide_eq_true_eq, not_or, not_lt] at hargs
    obtain ⟨digits, hdigits, h⟩ := Option.bind_eq_some_iff.mp h
    obtain ⟨suBuf, hsuBuf, h⟩ := Option.bind_eq_some_iff.mp h
    obtain ⟨text, htext, h⟩ := Option.bind_eq_some_iff.mp h
    cases text with
    | error code =>
      obtain ⟨rfl, -⟩ := Prod.mk.inj (Option.some.inj h)
      cases formatText_endsInSu htext
    | ok text =>
      obtain ⟨-, rfl⟩ := Prod.mk.inj (Option.some.inj h)
      exact ⟨⟨hargs.1.1.2, hargs.1.2⟩, digits, suBuf, text, hdigits, hsuBuf, htext, rfl⟩

/-- The places that are not admissible are rejected. -/
theorem Value.initNumb_of_not_admissible (hscale : ¬ Admissible scale) :
    n.initNumb .toNearest msp val su scale maxLeadingZeroes = some (Code.argumentError, n) := by
  rw [Value.initNumb, if_pos]
  simp only [Bool.or_eq_true, decide_eq_true_eq]
  rw [Admissible, not_and_or, not_le, not_le] at hscale
  rcases hscale with hlow | hhigh
  · exact .inl (.inl (.inr hlow))
  · exact .inl (.inr hhigh)

/-- The others are not. -/
theorem Value.initNumb_ne_argumentError (hsu : su.isNeg = false) (hscale : Admissible scale)
    (hmax : 0 ≤ maxLeadingZeroes) :
    n.initNumb .toNearest msp val su scale maxLeadingZeroes ≠ some (Code.argumentError, value) := by
  obtain ⟨suBuf, hsuBuf, hsurounds, -⟩ := suDigitsOf_spec su hscale
  intro h
  rcases toDigits_spec val hscale with ⟨-, digits, hdigits, hrounds⟩ | ⟨-, hnone⟩
  · obtain ⟨t, htext, -⟩ := formatText_spec msp maxLeadingZeroes hrounds hsurounds hscale
    rw [initNumb_eq hsu hscale hmax hdigits hsuBuf, htext] at h
    cases h
  · rw [initNumb_eq hsu hscale hmax hnone hsuBuf] at h
    rcases formatText_nil msp val maxLeadingZeroes hsurounds hscale with hassert | ⟨text, htext⟩
    · rw [hassert] at h
      cases h
    · rw [htext] at h
      cases h

end Init

/-- A number with its uncertainty in the text and in the fields; if the rule is at least six, the
digits of the uncertainty are those of the largest scale at which they do not exceed it. -/
def HonoursRule (su : Double) (suRule : Nat) (value : Value) : Prop :=
  ∃ number, value = .numb number false
    ∧ ∃ digits ∈ number.suDigits, writeSu (some digits) <:+ number.text
    ∧ (6 ≤ suRule → 1 ≤ ofDigits digits ∧ ofDigits digits ≤ suRule
      ∧ ∃ n, suRule < n ∧ NearestEven (su.magnitude * (10 : ℚ) ^ (number.scale + 1)) n)

section Rule

variable {msp : Double → Int} {n value : Value} {val su : Double} {suRule : UInt32}

/-- The scale chosen for an uncertainty, where there is no other error. -/
theorem Value.autoinitNumb_eq (msp : Double → Int) (n : Value) (val : Double)
    (hargs : (su.isNeg || suRule < 2) = false) (hsu : su.mantissa ≠ 0) : ∃ scale,
    LargestPlace su.magnitude suRule.toNat scale ∧ n.autoinitNumb msp val su suRule
      = Value.unk.initNumb .toNearest msp val su scale defaultMaxLeadZeroes := by
  rw [Bool.or_eq_false_iff, decide_eq_false_iff_not] at hargs
  obtain ⟨scale, hscale, hlargest⟩ := suScale_spec hsu (UInt32.not_lt.mp hargs.2)
  refine ⟨scale, hlargest, ?_⟩
  rw [Value.autoinitNumb, if_neg, if_neg hsu, hscale]
  · rfl
  · simp [hargs]

theorem autoinitNumb_args {result : Int × Value}
    (h : n.autoinitNumb msp val su suRule = some result) (hne : result ≠ (Code.argumentError, n)) :
    (su.isNeg || suRule < 2) = false := by
  cases hargs : (su.isNeg || suRule < 2) with
  | false => rfl
  | true =>
    rw [Value.autoinitNumb, if_pos hargs] at h
    exact absurd (Option.some.inj h).symm hne

/-- A number that is made honours the rule if and only if its uncertainty does not vanish at the
largest scale at which it is no more than the rule. -/
theorem Value.autoinitNumb_honoursRule_iff (hsu : su.mantissa ≠ 0)
    (hok : n.autoinitNumb msp val su suRule = some (Code.ok, value)) :
    HonoursRule su suRule.toNat value
      ↔ ∀ scale, LargestPlace su.magnitude suRule.toNat scale → ¬ su.Vanishes scale := by
  have hargs := autoinitNumb_args hok (by simp [Code.ok, Code.argumentError])
  obtain ⟨scale, hlargest, heq⟩ := Value.autoinitNumb_eq msp n val hargs hsu
  rw [heq] at hok
  obtain ⟨hscale, digits, suBuf, text, -, hsuBuf, htext, rfl⟩ := Value.initNumb_eq_ok hok
  obtain ⟨suBuf', hsuBuf', hrounds, hnone⟩ := suDigitsOf_spec su hscale
  cases hsuBuf.symm.trans hsuBuf'
  have hmagnitude : 0 ≤ su.magnitude := by
    rw [Double.magnitude]
    positivity
  constructor
  · rintro ⟨number, hnumber, s, hs, -⟩ scale' hlargest' hvanishes
    cases hlargest.unique hmagnitude hlargest'
    obtain ⟨rfl, -⟩ := Value.numb.inj hnumber
    rw [hnone.mpr (.inr hvanishes)] at hs
    cases hs
  · intro hstays
    cases hbuf : suBuf with
    | none =>
      rcases hnone.mp hbuf with hzero | hvanishes
      · exact absurd hzero hsu
      · exact absurd hvanishes (hstays scale hlargest)
    | some s =>
      obtain ⟨N, hnear, -, hvalue⟩ := hrounds s hbuf
      have hsuffix : writeSu suBuf <:+ text := formatText_endsInSu htext
      rw [hbuf] at hsuffix
      refine ⟨_, rfl, s, rfl, hsuffix, ?_⟩
      intro hsix
      have hhalf := hlargest.half_lt (by omega)
      obtain ⟨⟨m, hm, hround⟩, hnext⟩ := hlargest
      rw [hvalue, hnear.unique hround]
      refine ⟨?_, hm, hnext⟩
      by_contra hzero
      have hm0 : m = 0 := by omega
      rw [hm0, NearestEven.zero_iff (by positivity)] at hround
      exact hround.not_gt hhalf

end Rule

/-- The place of the first digit, where the logarithm is exact. -/
def exactMsp (d : Double) : Int := if d.mantissa = 0 then 0 else Int.log 10 d.magnitude

theorem exactMsp_le (d : Double) : exactMsp d ≤ dblMax10Exp := by
  rw [exactMsp]
  split
  · decide
  · rename_i hd
    exact (Double.log_magnitude hd).2

/-- A small number times a power of two. -/
def smallDouble (mantissa : Fin 256) (exponent : Int) (h : -1074 ≤ exponent ∧ exponent ≤ 971) :
    Double where
  negative := false
  mantissa
  exponent
  mantissa_lt := mantissa.isLt.trans (by decide)
  exponent_le := h

def hundred : Double := smallDouble 100 0 (by decide)

def three : Double := smallDouble 3 0 (by decide)

theorem Value.autoinitNumb_hundred : Value.unk.autoinitNumb exactMsp hundred three 19
    = some (Code.ok, .numb ⟨units "100(3)", 1, units "100", some (units "3"), 0⟩ false) := by
  have hscale : suScale three 19 = some (.ok 0) := by decide +kernel
  have hdigits : toDigits .toNearest hundred 0 = some (units "100") := by decide +kernel
  have hsu : suDigitsOf .toNearest three 0 = some (some (units "3")) := by decide +kernel
  have htext : formatText exactMsp hundred (units "100") (some (units "3")) 0 5
      = some (.ok (units "100(3)")) := by
    decide +kernel
  rw [Value.autoinitNumb, if_neg (by decide), if_neg (by decide), hscale]
  show Value.unk.initNumb .toNearest exactMsp hundred three 0 5 = _
  rw [initNumb_eq (by decide) ⟨by decide, by decide⟩ (by decide) hdigits hsu, htext]
  rfl

/-- 100(3) by the rule of 19. -/
theorem Value.autoinitNumb_honoursRule_iff_hundred :
    HonoursRule three 19 (.numb ⟨units "100(3)", 1, units "100", some (units "3"), 0⟩ false)
      ↔ ∀ scale, LargestPlace three.magnitude 19 scale → ¬ three.Vanishes scale :=
  Value.autoinitNumb_honoursRule_iff (by decide) Value.autoinitNumb_hundred

/-- By the rule of 2 an uncertainty of 3 in 100 is lost. -/
theorem Value.autoinitNumb_losesSu :
    ∃ value, Value.unk.autoinitNumb exactMsp hundred three 2 = some (Code.ok, value)
    ∧ ¬ HonoursRule three 2 value := by
  have hscale : suScale three 2 = some (.ok (-1)) := by decide +kernel
  have hdigits : toDigits .toNearest hundred (-1) = some (units "10") := by decide +kernel
  have hsu : suDigitsOf .toNearest three (-1) = some none := by decide +kernel
  have htext : formatText exactMsp hundred (units "10") none (-1) 5
      = some (.ok (units "1.0e+02")) := by decide +kernel
  refine ⟨.numb ⟨units "1.0e+02", 1, units "10", none, -1⟩ false, ?_, ?_⟩
  · rw [Value.autoinitNumb, if_neg (by decide), if_neg (by decide), hscale]
    show Value.unk.initNumb .toNearest exactMsp hundred three (-1) 5 = _
    rw [initNumb_eq (by decide) ⟨by decide, by decide⟩ (by decide) hdigits hsu, htext]
    rfl
  · rintro ⟨number, hnumber, digits, hdigits, -⟩
    obtain ⟨rfl, -⟩ := Value.numb.inj hnumber
    cases hdigits

section Fraction

variable {base fuel bits : Nat} {d : Double}

theorem trailingZeroes_spec (hbase : 1 < base) (hbits : bits ≠ 0) (hfuel : bits < base ^ fuel) :
    bits = (trailingZeroes base fuel bits).2 * base ^ (trailingZeroes base fuel bits).1
      ∧ (trailingZeroes base fuel bits).2 % base ≠ 0 := by
  induction fuel generalizing bits with
  | zero =>
    rw [pow_zero] at hfuel
    omega
  | succ fuel ih =>
    rw [trailingZeroes]
    split
    · rename_i hdvd
      have hsplit : bits = bits / base * base :=
        (Nat.div_mul_cancel (Nat.dvd_of_mod_eq_zero hdvd)).symm
      have hne : bits / base ≠ 0 := by
        intro hzero
        rw [hzero, Nat.zero_mul] at hsplit
        exact hbits hsplit
      have hlt : bits / base < base ^ fuel := by
        rw [Nat.div_lt_iff_lt_mul (by omega), ← pow_succ]
        exact hfuel
      obtain ⟨hvalue, hrest⟩ := ih hne hlt
      refine ⟨?_, hrest⟩
      dsimp only
      rw [pow_succ, ← Nat.mul_assoc, ← hvalue]
      exact hsplit
    · rename_i hdvd
      exact ⟨by simp, hdvd⟩

/-- The significant bits make an odd number. -/
theorem fracBits_spec (hd : d.mantissa ≠ 0) : ∃ odd : ℕ, odd % 2 = 1
    ∧ d.magnitude = odd * (2 : ℚ) ^ ((fracBits d).2 - (fracBits d).1) := by
  have hlt := ToDigits.fraction_lt hd
  have hne := ToDigits.fraction_ne_zero hd
  have hhexlt : d.fraction < 16 ^ dblMantDig := hlt.trans (by decide +kernel)
  obtain ⟨hhex, hhexrest⟩ := trailingZeroes_spec (by decide) hne hhexlt
  rcases hfirst : trailingZeroes 16 dblMantDig d.fraction with ⟨hexZeroes, bits⟩
  rw [hfirst] at hhex hhexrest
  dsimp only at hhex hhexrest
  have hbits : bits ≠ 0 := by
    rintro rfl
    exact hhexrest rfl
  have hbitslt : bits < 2 ^ dblMantDig := by
    refine lt_of_le_of_lt ?_ hlt
    rw [hhex]
    exact Nat.le_mul_of_pos_right _ (by positivity)
  obtain ⟨htwo, htworest⟩ := trailingZeroes_spec (by decide) hbits hbitslt
  rcases hsecond : trailingZeroes 2 dblMantDig bits with ⟨zeroes, odd⟩
  rw [hsecond] at htwo htworest
  dsimp only at htwo htworest
  refine ⟨odd, by omega, ?_⟩
  have hexp : (fracBits d).2 - (fracBits d).1
      = (zeroes + 4 * hexZeroes : ℕ) + d.fractionExponent := by
    rw [fracBits, if_neg hd, hfirst]
    dsimp only
    rw [hsecond]
    dsimp only
    push_cast
    ring
  have hvalue : d.fraction = odd * 2 ^ (zeroes + 4 * hexZeroes) := by
    have hsixteen : 16 = 2 ^ 4 := rfl
    rw [hhex, htwo, pow_add, pow_mul, Nat.mul_assoc, hsixteen]
  rw [hexp, zpow_add₀ (by norm_num), zpow_natCast, ← mul_assoc, ← ToDigits.fraction_mul d, hvalue]
  push_cast
  rfl

end Fraction

/-- The number that a double is. -/
def Double.toRat (d : Double) : ℚ := (if d.negative then -1 else 1) * d.magnitude

/-- The number made is without uncertainty, and it is exactly the double. -/
def RecordsExactly (val : Double) (result : Option (Int × Value)) : Prop :=
  ∃ number, result = some (Code.ok, .numb number false) ∧ number.suDigits = none
    ∧ number.sign * ofDigits number.digits * (10 : ℚ) ^ (-number.scale) = val.toRat

/-- At most 321 binary places, and in an even number no more than `DBL_DIG` digits before the
zeroes. -/
structure FewDigits (msp : Double → Int) (val : Double) : Prop where
  places : ∃ k : ℕ, val.magnitude * 2 ^ 321 = k
  even : (∃ k : ℕ, 0 < k ∧ val.magnitude = 2 * k) → dblDig ≤ msp val
    → ∃ k : ℕ, val.magnitude = k * 10 ^ (msp val - (dblDig - 1)).toNat

section Exact

variable {msp : Double → Int} {n value : Value} {val su : Double} {scale maxLeadingZeroes : Int}

theorem Double.toRat_eq (d : Double) :
    d.toRat = ((if d.isNeg then -1 else 1 : Int) : ℚ) * d.magnitude := by
  rw [Double.toRat, Double.isNeg]
  by_cases hzero : d.mantissa = 0
  · have hmagnitude : d.magnitude = 0 := by rw [Double.magnitude, hzero, Nat.cast_zero, zero_mul]
    rw [hmagnitude, mul_zero, mul_zero]
  · cases d.negative with
    | true => simp [hzero]
    | false => simp

/-- A scale is exact where it leaves no fraction. -/
theorem recordsExactly_initNumb_iff (msp : Double → Int) (n : Value) (val : Double) (scale : Int)
    (hsu : su.mantissa = 0) (hmax : 0 ≤ maxLeadingZeroes) :
    RecordsExactly val (n.initNumb .toNearest msp val su scale maxLeadingZeroes)
      ↔ Admissible scale ∧ ∃ k : ℕ, val.magnitude * (10 : ℚ) ^ scale = k := by
  have hneg : su.isNeg = false := by simp [Double.isNeg, hsu]
  have hten : (0 : ℚ) < 10 ^ scale := by positivity
  have hmagnitude : 0 ≤ val.magnitude := by
    rw [Double.magnitude]
    positivity
  constructor
  · rintro ⟨number, hresult, -, hvalue⟩
    obtain ⟨hscale, digits, suBuf, text, -, -, -, hnumber⟩ := Value.initNumb_eq_ok hresult
    obtain ⟨rfl, -⟩ := Value.numb.inj hnumber
    refine ⟨hscale, ofDigits digits, ?_⟩
    rw [Double.toRat_eq, mul_assoc] at hvalue
    have hsign : ((if val.isNeg then -1 else 1 : Int) : ℚ) ≠ 0 := by
      split
      · norm_num
      · norm_num
    rw [← mul_left_cancel₀ hsign hvalue, zpow_neg, mul_assoc, inv_mul_cancel₀ hten.ne', mul_one]
  · rintro ⟨hscale, k, hk⟩
    have hnone : suDigitsOf .toNearest su scale = some none := if_neg (not_not.mpr hsu)
    have hstays : ¬ val.Vanishes scale := by
      rintro ⟨hhalf, hone⟩
      have hzero : k = 0 := by
        rw [hk] at hhalf
        have hlt : (k : ℚ) < 1 := by linarith
        exact Nat.lt_one_iff.mp (by exact_mod_cast hlt)
      rw [hzero, Nat.cast_zero, mul_eq_zero_iff_right hten.ne'] at hk
      rw [hk, zero_mul] at hone
      exact absurd hone (by norm_num)
    obtain ⟨-, digits, hdigits, hrounds⟩ :=
      (toDigits_spec val hscale).resolve_right fun h => hstays h.1
    have hnosu : ∀ s ∈ (none : Option UStr), su.Rounds scale s := fun s hs => by cases hs
    obtain ⟨t, htext, -⟩ := formatText_spec msp maxLeadingZeroes hrounds hnosu hscale
    rw [initNumb_eq hneg hscale hmax hdigits hnone, htext]
    refine ⟨_, rfl, rfl, ?_⟩
    obtain ⟨N, hnear, -, hvalue⟩ := hrounds
    have hN : N = k := by
      rw [hk] at hnear
      exact hnear.unique (NearestEven.natCast k)
    dsimp only
    rw [Double.toRat_eq, mul_assoc, hvalue, hN, ← hk, mul_assoc, zpow_neg, mul_inv_cancel₀ hten.ne',
      mul_one]

/-- A power of two in front of an odd number is gone only if it is not negative. -/
theorem odd_mul_zpow_iff {odd : ℕ} (hodd : odd % 2 = 1) (e : Int) :
    (∃ k : ℕ, (odd : ℚ) * 2 ^ e = k) ↔ 0 ≤ e := by
  constructor
  · rintro ⟨k, hk⟩
    by_contra hneg
    obtain ⟨j, hj⟩ := Int.eq_ofNat_of_zero_le (by omega : 0 ≤ -e - 1)
    have he : e = -((j + 1 : ℕ) : Int) := by
      push_cast
      omega
    rw [he, zpow_neg, zpow_natCast, ← div_eq_mul_inv, div_eq_iff (by positivity)] at hk
    have hnat : odd = k * 2 ^ (j + 1) := by exact_mod_cast hk
    rw [pow_succ, ← Nat.mul_assoc] at hnat
    omega
  · intro hpos
    obtain ⟨j, rfl⟩ := Int.eq_ofNat_of_zero_le hpos
    exact ⟨odd * 2 ^ j, by push_cast; rfl⟩

section OddPart

variable {odd : ℕ} {bitCount exponent : Int}

/-- A fraction has as many decimal places as binary ones. -/
theorem places_iff (hodd : odd % 2 = 1)
    (hvalue : val.magnitude = odd * (2 : ℚ) ^ (exponent - bitCount)) :
    (∃ k : ℕ, val.magnitude * 2 ^ 321 = k) ↔ bitCount - exponent ≤ 321 := by
  have hexp : val.magnitude * 2 ^ 321 = odd * (2 : ℚ) ^ (exponent - bitCount + 321) := by
    rw [hvalue, zpow_add₀ (by norm_num), mul_assoc]
    rfl
  rw [hexp, odd_mul_zpow_iff hodd]
  omega

theorem even_iff (hodd : odd % 2 = 1)
    (hvalue : val.magnitude = odd * (2 : ℚ) ^ (exponent - bitCount)) :
    (∃ k : ℕ, 0 < k ∧ val.magnitude = 2 * k) ↔ bitCount < exponent := by
  have hexp : ∀ k : ℕ, val.magnitude = 2 * k ↔ odd * (2 : ℚ) ^ (exponent - bitCount - 1) = k := by
    intro k
    rw [hvalue, zpow_sub_one₀ (by norm_num), ← mul_assoc, ← div_eq_mul_inv,
      div_eq_iff (by norm_num), mul_comm 2]
  have hpos : ∀ k : ℕ, val.magnitude = 2 * k → 0 < k := by
    rintro k hk
    rw [Nat.pos_iff_ne_zero]
    rintro rfl
    rw [hvalue, Nat.cast_zero, mul_zero, mul_eq_zero_iff_right (zpow_ne_zero _ (by norm_num))] at hk
    have hnat : odd = 0 := by exact_mod_cast hk
    omega
  have hiff := odd_mul_zpow_iff hodd (exponent - bitCount - 1)
  constructor
  · rintro ⟨k, -, hk⟩
    have hle := hiff.mp ⟨k, (hexp k).mp hk⟩
    omega
  · intro hlt
    obtain ⟨k, hk⟩ := hiff.mpr (by omega)
    exact ⟨k, hpos k ((hexp k).mpr hk), (hexp k).mpr hk⟩

/-- A binary place is a decimal one, for ten is even. -/
theorem mul_ten_pow_places (hvalue : val.magnitude = odd * (2 : ℚ) ^ (exponent - bitCount))
    (hle : exponent ≤ bitCount) :
    val.magnitude * (10 : ℚ) ^ (bitCount - exponent)
      = ((odd * 5 ^ (bitCount - exponent).toNat : ℕ) : ℚ) := by
  obtain ⟨j, hj⟩ := Int.eq_ofNat_of_zero_le (by omega : 0 ≤ bitCount - exponent)
  have hback : exponent - bitCount = -(j : Int) := by omega
  have hsplit : (10 : ℚ) ^ j = 2 ^ j * 5 ^ j := by
    rw [← mul_pow]
    norm_num
  rw [hvalue, hback, hj, zpow_neg, zpow_natCast, zpow_natCast, hsplit, Int.toNat_natCast, mul_assoc,
    inv_mul_cancel_left₀ (by positivity)]
  push_cast
  rfl

end OddPart

theorem exactScale_iff (hmsp : msp val ≤ dblMax10Exp) : (Admissible (exactScale msp val)
    ∧ ∃ k : ℕ, val.magnitude * (10 : ℚ) ^ exactScale msp val = k) ↔ FewDigits msp val := by
  have hmin : 1 + dblMin10Exp - (dblDig : Int) = -321 := by decide
  have hmax : (dblMax10Exp : Int) = 308 := rfl
  have hdig : (dblDig : Int) = 15 := rfl
  by_cases hzero : val.mantissa = 0
  · have hmagnitude : val.magnitude = 0 := by rw [Double.magnitude, hzero, Nat.cast_zero, zero_mul]
    have hscale : exactScale msp val = 0 := by
      rw [exactScale, fracBits, if_pos hzero]
      rfl
    rw [hscale, hmagnitude]
    refine iff_of_true ⟨⟨by omega, by omega⟩, 0, by simp⟩ ⟨⟨0, by rw [hmagnitude]; simp⟩, ?_⟩
    intro _ _
    exact ⟨0, by rw [hmagnitude]; simp⟩
  · obtain ⟨odd, hodd, hvalue⟩ := fracBits_spec hzero
    rcases hbits : fracBits val with ⟨bitCount, exponent⟩
    rw [hbits] at hvalue
    dsimp only at hvalue
    have hplaces := places_iff hodd hvalue
    have heven := even_iff hodd hvalue
    rw [exactScale, hbits]
    dsimp only
    split
    · rename_i hfraction
      constructor
      · rintro ⟨hscale, -⟩
        refine ⟨hplaces.mpr ?_, fun h => ?_⟩
        · have hlow := hscale.1
          omega
        · have hlt := heven.mp h
          omega
      · intro h
        have hle := hplaces.mp h.places
        exact ⟨⟨by omega, by omega⟩, _, mul_ten_pow_places hvalue (by omega)⟩
    · rename_i hwhole
      have hwhole' := not_le.mp hwhole
      have hshort : bitCount - exponent ≤ 321 := by omega
      split
      · rename_i hfew
        refine iff_of_true ⟨⟨by omega, by omega⟩, ?_⟩ ⟨hplaces.mpr hshort, fun _ hmany => ?_⟩
        · rw [zpow_zero, mul_one, hvalue]
          exact (odd_mul_zpow_iff hodd _).mpr (by omega)
        · exact absurd hfew (not_lt.mpr hmany)
      · rename_i hmany
        obtain ⟨j, hj⟩ := Int.eq_ofNat_of_zero_le (by omega : 0 ≤ msp val - (dblDig - 1))
        have hback : (dblDig : Int) - 1 - msp val = -(j : Int) := by omega
        have hten : ∀ k : ℕ, val.magnitude * (10 : ℚ) ^ ((dblDig : Int) - 1 - msp val) = k
            ↔ val.magnitude = k * 10 ^ (msp val - (dblDig - 1)).toNat := by
          intro k
          rw [hback, hj, zpow_neg, zpow_natCast, Int.toNat_natCast, ← div_eq_mul_inv,
            div_eq_iff (by positivity)]
        constructor
        · rintro ⟨-, k, hk⟩
          exact ⟨hplaces.mpr hshort, fun _ _ => ⟨k, (hten k).mp hk⟩⟩
        · intro h
          obtain ⟨k, hk⟩ := h.even (heven.mpr hwhole') (not_lt.mp hmany)
          exact ⟨⟨by omega, by omega⟩, k, (hten k).mpr hk⟩

end Exact

section Unchanged

variable {msp : Double → Int} {n : Value} {val su : Double} {suRule : UInt32}

/-- A number without uncertainty is recorded exactly and arguments that are rejected leave the value
as it was, if and only if the number has few enough digits, and the scale chosen for an uncertainty
is admissible or there is nothing to clean. -/
theorem Value.autoinitNumb_exact_iff (hmsp : ∀ d, msp d ≤ dblMax10Exp) :
    ((su.mantissa = 0 → 2 ≤ suRule → RecordsExactly val (n.autoinitNumb msp val su suRule))
        ∧ ∀ value, n.autoinitNumb msp val su suRule = some (Code.argumentError, value) → value = n)
      ↔ (su.mantissa = 0 → 2 ≤ suRule → FewDigits msp val)
        ∧ (su.mantissa ≠ 0 → su.isNeg = false → 2 ≤ suRule → n ≠ .unk
          → ∀ scale, LargestPlace su.magnitude suRule.toNat scale → Admissible scale) := by
  have hnotneg : su.mantissa = 0 → su.isNeg = false := fun hzero => by simp [Double.isNeg, hzero]
  cases hargs : (su.isNeg || suRule < 2) with
  | true =>
    have hrun : n.autoinitNumb msp val su suRule = some (Code.argumentError, n) := by
      rw [Value.autoinitNumb, if_pos hargs]
    have hbad : su.isNeg = false → 2 ≤ suRule → False := by
      intro hneg hrule
      rw [hneg, Bool.false_or, decide_eq_true_eq] at hargs
      exact UInt32.not_lt.mpr hrule hargs
    refine iff_of_true ⟨?_, ?_⟩ ⟨?_, ?_⟩
    · exact fun hzero hrule => (hbad (hnotneg hzero) hrule).elim
    · intro value hvalue
      rw [hrun] at hvalue
      exact (Prod.mk.inj (Option.some.inj hvalue)).2.symm
    · exact fun hzero hrule => (hbad (hnotneg hzero) hrule).elim
    · exact fun _ hneg hrule => (hbad hneg hrule).elim
  | false =>
    have hrule : 2 ≤ suRule := by
      rw [Bool.or_eq_false_iff, decide_eq_false_iff_not] at hargs
      exact UInt32.not_lt.mp hargs.2
    by_cases hsu : su.mantissa = 0
    · have hrun : n.autoinitNumb msp val su suRule
          = Value.unk.initNumb .toNearest msp val su (exactScale msp val) defaultMaxLeadZeroes := by
        rw [Value.autoinitNumb, if_neg (by simp [hargs]), if_pos hsu]
      have hexact :=
        recordsExactly_initNumb_iff msp .unk val (exactScale msp val) hsu (by decide : 0
        ≤ defaultMaxLeadZeroes)
      rw [exactScale_iff (hmsp val)] at hexact
      constructor
      · rintro ⟨hrecords, -⟩
        refine ⟨fun _ _ => ?_, fun hne => absurd hsu hne⟩
        rw [hrun] at hrecords
        exact hexact.mp (hrecords hsu hrule)
      · rintro ⟨hfew, -⟩
        have hscale := ((exactScale_iff (hmsp val)).mpr (hfew hsu hrule)).1
        refine ⟨fun _ _ => ?_, fun value hvalue => ?_⟩
        · rw [hrun]
          exact hexact.mpr (hfew hsu hrule)
        · rw [hrun] at hvalue
          exact (Value.initNumb_ne_argumentError (hnotneg hsu) hscale (by decide) hvalue).elim
    · obtain ⟨scale, hlargest, hrun⟩ := Value.autoinitNumb_eq msp n val hargs hsu
      have hneg : su.isNeg = false := (Bool.or_eq_false_iff.mp hargs).1
      have hmagnitude : 0 ≤ su.magnitude := by
        rw [Double.magnitude]
        positivity
      constructor
      · rintro ⟨-, hunchanged⟩
        refine ⟨fun hzero => absurd hzero hsu, fun _ _ _ hne scale' hlargest' => ?_⟩
        cases hlargest.unique hmagnitude hlargest'
        by_contra hscale
        exact hne (hunchanged _ (hrun.trans (Value.initNumb_of_not_admissible hscale))).symm
      · rintro ⟨-, hadmissible⟩
        refine ⟨fun hzero => absurd hzero hsu, fun value hvalue => ?_⟩
        rw [hrun] at hvalue
        by_cases hscale : Admissible scale
        · exact (Value.initNumb_ne_argumentError hneg hscale (by decide) hvalue).elim
        · rw [Value.initNumb_of_not_admissible hscale] at hvalue
          obtain ⟨-, rfl⟩ := Prod.mk.inj (Option.some.inj hvalue)
          by_contra hne
          exact hscale (hadmissible hsu hneg hrule (Ne.symm hne) scale hlargest)

end Unchanged

def noSu : Double := smallDouble 0 0 (by decide)

/-- 9007199254740992, of 16 digits. -/
def twoTo53 : Double := smallDouble 1 53 (by decide)

/-- 2 to the power of -330. -/
def twoToMinus330 : Double := smallDouble 1 (-330) (by decide)

theorem Value.autoinitNumb_exact_iff_hundred :
    ((noSu.mantissa = 0 → 2 ≤ (19 : UInt32) →
      RecordsExactly hundred (Value.na.autoinitNumb exactMsp hundred noSu 19))
        ∧ ∀ value, Value.na.autoinitNumb exactMsp hundred noSu 19
          = some (Code.argumentError, value) → value = .na)
      ↔ (noSu.mantissa = 0 → 2 ≤ (19 : UInt32) → FewDigits exactMsp hundred)
        ∧ (noSu.mantissa ≠ 0 → noSu.isNeg = false → 2 ≤ (19 : UInt32) → Value.na ≠ .unk
          → ∀ scale, LargestPlace noSu.magnitude (19 : UInt32).toNat scale → Admissible scale) :=
  Value.autoinitNumb_exact_iff exactMsp_le

/-- The last digit of 9007199254740992 is lost, and a rejected call has cleaned the value. -/
theorem Value.autoinitNumb_notExact :
    ¬ RecordsExactly twoTo53 (Value.na.autoinitNumb exactMsp twoTo53 noSu 19)
      ∧ Value.na.autoinitNumb exactMsp twoToMinus330 noSu 19 = some (Code.argumentError, .unk) := by
  have hscale : exactScale exactMsp twoTo53 = -1 := by decide +kernel
  have hscale' : exactScale exactMsp twoToMinus330 = 330 := by decide +kernel
  constructor
  · rw [Value.autoinitNumb, if_neg (by decide), if_pos (by decide), hscale,
      recordsExactly_initNumb_iff _ _ _ _ (by decide) (by decide)]
    rintro ⟨-, k, hk⟩
    have hvalue : twoTo53.magnitude * (10 : ℚ) ^ (-1 : Int) = 9007199254740992 / 10 := by
      rw [Double.magnitude, zpow_neg_one, ← div_eq_mul_inv]
      norm_num [twoTo53, smallDouble]
    rw [hvalue, div_eq_iff (by norm_num)] at hk
    have hnat : 9007199254740992 = k * 10 := by exact_mod_cast hk
    omega
  · rw [Value.autoinitNumb, if_neg (by decide), if_pos (by decide), hscale']
    apply Value.initNumb_of_not_admissible
    rintro ⟨hlow, -⟩
    exact absurd hlow (by decide)

end CifApi
