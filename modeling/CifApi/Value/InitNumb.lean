import CifApi.Value.ToDigits

/-! Numbers made from doubles, and what reading their text gives. -/
namespace CifApi

/-- `val < 0`. -/
def Double.isNeg (d : Double) : Bool := d.negative && d.mantissa ≠ 0

/-- `WRITE_SU`. -/
def writeSu (suBuf : Option UStr) : UStr :=
  suBuf.elim [] fun su => UChar.open' :: (su ++ [UChar.close])

/-- The room an uncertainty takes. -/
def suChars (suBuf : Option UStr) : Nat := suBuf.elim 0 fun su => su.length + 2

def formatTextDecimal (signNum : Double) (digitBuf : UStr) (suBuf : Option UStr) (scale : Int) :
    Except Int UStr :=
  let valDigits := digitBuf.length
  let totalChars :=
    (if signNum.isNeg then 1 else 0) + (if valDigits ≤ scale then scale.toNat + 1 else valDigits)
    + (if scale = 0 then 0 else 1) + suChars suBuf + 1
  if totalChars ≤ lineLength + 1 then
    let wholeDigits := valDigits - scale
    let sign := if signNum.isNeg then [UChar.minus] else []
    if wholeDigits ≤ 0 then
      .ok (sign ++ [UChar.zero, UChar.decimal] ++ List.replicate (-wholeDigits).toNat UChar.zero
        ++ digitBuf ++ writeSu suBuf)
    else
      .ok (sign ++ digitBuf.take wholeDigits.toNat ++ (if 0 < scale then [UChar.decimal] else [])
        ++ digitBuf.drop wholeDigits.toNat ++ writeSu suBuf)
  else .error Code.argumentError

/-- Scientific notation; there is no result where the assertion about the digits fails. -/
def formatTextSci (signNum : Double) (digitBuf : UStr) (suBuf : Option UStr) (scale : Int) :
    Option (Except Int UStr) :=
  let valDigits := digitBuf.length
  let mostSignificantPlace : Int := (if valDigits ≠ 0 then (valDigits - 1 : Int) else 0) - scale
  -- `(int) log10(abs(most_significant_place) + 0.5)`
  let exponentDigits := max 2 (Nat.log 10 mostSignificantPlace.natAbs + 1)
  if valDigits = 0 then none
  else
    let totalChars :=
      (if signNum.isNeg then 1 else 0) + (if 1 < valDigits then valDigits + 1 else 1)
      + (exponentDigits + 2) + suChars suBuf + 1
    if totalChars ≤ lineLength + 1 then
      some (.ok ((if signNum.isNeg then [UChar.minus] else []) ++ digitBuf.take 1
        ++ (if digitBuf.drop 1 = [] then [] else UChar.decimal :: digitBuf.drop 1)
        ++ [UChar.lowerE, if mostSignificantPlace < 0 then UChar.minus else UChar.plus]
        ++ ToDigits.lastDigits exponentDigits mostSignificantPlace.natAbs ++ writeSu suBuf))
    else some (.error Code.argumentError)

/-- The uncertainty as it is recorded. -/
def suDigitsOf (mode : RoundingMode) (su : Double) (scale : Int) : Option (Option UStr) :=
  if su.mantissa ≠ 0 then (toDigits mode su scale).map fun suBuf => if suBuf = [] then none
    else some suBuf
  else some none

/-- The text in the notation chosen. -/
def formatText (msp : Double → Int) (val : Double) (digitBuf : UStr) (suBuf : Option UStr)
    (scale maxLeadingZeroes : Int) :
    Option (Except Int UStr) :=
  if 0 ≤ scale && -(msp val + 1) ≤ maxLeadingZeroes then
    some (formatTextDecimal val digitBuf suBuf scale)
  else formatTextSci val digitBuf suBuf scale

/-- `cif_value_init_numb`: the code it answers and the value after it, unless an assertion fails;
`msp` is the place of the most significant digit as computed from the logarithm. -/
def Value.initNumb (mode : RoundingMode) (msp : Double → Int) (n : Value) (val su : Double)
    (scale : Int) (maxLeadingZeroes : Int) : Option (Int × Value) :=
  if su.isNeg || -scale < 1 + dblMin10Exp - dblDig || -scale > dblMax10Exp
    || maxLeadingZeroes < 0 then
    some (Code.argumentError, n)
  else do
    let digitBuf ← toDigits mode val scale
    let suBuf ← suDigitsOf mode su scale
    let text ← formatText msp val digitBuf suBuf scale maxLeadingZeroes
    match text with
    | .error code => return (code, n)
    | .ok text =>
      return (Code.ok, .numb {
        text
        sign := if val.isNeg then -1 else 1
        digits := digitBuf
        suDigits := suBuf
        scale } false)

/-- The number as it is made: complete, and the same as its own text gives. -/
structure InitConsistent (result : Option (Int × Value)) (su : Double) (scale : Int) : Prop where
  returns : result ≠ none
  number : ∀ value, result = some (Code.ok, value) → ∃ number, value = .numb number false
    ∧ (number.digits ≠ [] ∧ ∀ c ∈ number.digits, isDigit c = true)
    ∧ (∀ s ∈ number.suDigits, s ≠ [] ∧ ∀ c ∈ s, isDigit c = true)
    ∧ (NearestEven (su.magnitude * (10 : ℚ) ^ scale) 0 → number.suDigits = none)
    ∧ ∃ parsed, parseNumb number.text = .ok parsed ∧ parsed.sign = number.sign
      ∧ parsed.digits = number.digits
      ∧ parsed.suDigits = number.suDigits ∧ parsed.scale = number.scale

section Format

variable {d : Double} {scale : Int} {digits s : UStr} {suBuf : Option UStr}

theorem IsNumeral.dropLeading (h : IsNumeral s) : Numeral.dropLeading UChar.zero s = s := by
  cases s with
  | nil => rfl
  | cons c s =>
    cases s with
    | nil => rfl
    | cons c' s =>
      rw [Numeral.dropLeading, if_neg]
      rintro rfl
      have hone := h.minimal rfl
      simp at hone

theorem IsNumeral.pow_le (h : IsNumeral s) : s.length = 1 ∨ 10 ^ (s.length - 1) ≤ ofDigits s := by
  cases s with
  | nil => exact absurd rfl h.digits_ne
  | cons c s =>
    by_cases hc : c = UChar.zero
    · left
      exact h.minimal (by rw [hc]; rfl)
    · right
      have hdigit := h.digits_eq c (List.mem_cons_self ..)
      simp only [isDigit, Bool.and_eq_true, decide_eq_true_eq] at hdigit
      have hne : c - UChar.zero ≠ 0 := Nat.sub_ne_zero_of_lt (lt_of_le_of_ne hdigit.1 (Ne.symm hc))
      have hle := Numeral.pow_le_value (b := 10) hne (s.map (· - UChar.zero))
      rwa [List.length_map] at hle

/-- No double makes more digits than this. -/
theorem Double.Rounds.length_le (h : d.Rounds scale digits) (hscale : Admissible scale) :
    digits.length ≤ 630 := by
  obtain ⟨N, hnear, hnumeral, hvalue⟩ := h
  rcases hnumeral.pow_le with hone | hpow
  · omega
  · have habs := abs_le.mp hnear.1
    have hmax := ToDigits.magnitude_lt_max d
    have hscale' : (10 : ℚ) ^ scale ≤ 10 ^ (321 : Int) := by
      apply zpow_le_zpow_right₀ (by norm_num)
      have hmin : 1 + dblMin10Exp - (dblDig : Int) = -321 := by decide
      have hlow := hscale.1
      omega
    have hpos : (0 : ℚ) < 10 ^ scale := by positivity
    have hbig : (2 * 10 ^ 308 : ℚ) * 10 ^ (321 : Int) + 1 / 2 < 10 ^ 630 := by
      have hexp : (321 : Int) = ((321 : Nat) : Int) := rfl
      have hsplit : (10 : ℚ) ^ 630 = 10 * (10 ^ 308 * 10 ^ 321) := by rw [← pow_add, ← pow_succ']
      have hone : (1 : ℚ) ≤ 10 ^ 308 * 10 ^ 321 := by
        rw [← pow_add]
        exact one_le_pow₀ (by norm_num)
      rw [hexp, zpow_natCast, hsplit, mul_assoc]
      generalize (10 : ℚ) ^ 308 * 10 ^ 321 = b at hone
      linarith
    have hN : (N : ℚ) < 10 ^ 630 := by
      have hmul : d.magnitude * (10 : ℚ) ^ scale ≤ 2 * 10 ^ 308 * 10 ^ (321 : Int) := by
        calc d.magnitude * (10 : ℚ) ^ scale ≤ 2 * 10 ^ 308 * 10 ^ scale :=
          mul_le_mul_of_nonneg_right hmax.le hpos.le
          _ ≤ _ := mul_le_mul_of_nonneg_left hscale' (by positivity)
      have hsum := (add_le_add_left hmul (1 / 2)).trans_lt hbig
      generalize (10 : ℚ) ^ 630 = b at hsum ⊢
      linarith
    have hlt : 10 ^ (digits.length - 1) < 10 ^ 630 := by
      have hcast : ((10 ^ (digits.length - 1) : ℕ) : ℚ) < ((10 ^ 630 : ℕ) : ℚ) := by
        rw [hvalue] at hpow
        have hle : ((10 ^ (digits.length - 1) : ℕ) : ℚ) ≤ N := by exact_mod_cast hpow
        refine hle.trans_lt ?_
        rw [Nat.cast_pow]
        exact hN
      exact_mod_cast hcast
    have hexp := (Nat.pow_lt_pow_iff_right (by decide)).mp hlt
    omega

theorem suChars_le (hsu : ∀ s ∈ suBuf, s.length ≤ 630) : suChars suBuf ≤ 632 := by
  cases suBuf with
  | none => exact Nat.zero_le _
  | some s =>
    have hs := hsu s rfl
    show s.length + 2 ≤ 632
    omega

/-- The sign written before the digits. -/
def signText (d : Double) : Option UChar := if d.isNeg then some UChar.minus else none

theorem signText_isSign (d : Double) : IsSign (signText d) := by
  intro c hc
  unfold signText at hc
  split at hc
  · cases hc
    exact .inl rfl
  · cases hc

theorem signOf_signText (d : Double) : signOf (signText d) = if d.isNeg then -1 else 1 := by
  unfold signText
  split
  · rfl
  · rfl

theorem toList_signText (d : Double) :
    (signText d).toList = if d.isNeg then [UChar.minus] else [] := by
  unfold signText
  split
  · rfl
  · rfl

theorem su_eq_of_isNumeral (hsu : ∀ s ∈ suBuf, IsNumeral s) :
    ∀ s ∈ suBuf, s ≠ [] ∧ ∀ c ∈ s, isDigit c = true :=
  fun s hs => ⟨(hsu s hs).digits_ne, (hsu s hs).digits_eq⟩

/-- Decimal notation is a number text for the digits and the scale. -/
theorem formatTextDecimal_spec (val : Double) (hdigits : IsNumeral digits)
    (hsu : ∀ s ∈ suBuf, IsNumeral s) (hlen : digits.length ≤ 630)
    (hsulen : ∀ s ∈ suBuf, s.length ≤ 630) (h0 : 0 ≤ scale) (hscale : scale ≤ 321) :
    ∃ t : NumbText, formatTextDecimal val digits suBuf scale = .ok t.text ∧ t.sign = signText val
      ∧ Numeral.dropLeading UChar.zero t.digits = digits ∧ t.su = suBuf ∧ t.scale = scale := by
  have hroom := suChars_le hsulen
  have hpos := List.length_pos_iff.mpr hdigits.digits_ne
  have hline : lineLength = 2048 := rfl
  have hfits : (if val.isNeg then 1 else 0) + (if (digits.length : Int) ≤ scale then scale.toNat + 1
      else digits.length) + (if scale = 0 then 0 else 1) + suChars suBuf + 1 ≤ lineLength + 1 := by
    rw [hline]
    split <;> split <;> split <;> omega
  have hsutext : writeSu suBuf = suBuf.elim [] fun s => UChar.open' :: (s ++ [UChar.close]) := rfl
  unfold formatTextDecimal
  rw [if_pos hfits]
  by_cases hwhole : (digits.length : Int) - scale ≤ 0
  · -- zeroes come before the digits
    have hzeroes : ∀ c ∈ UChar.zero :: List.replicate (-((digits.length : Int) - scale)).toNat
        UChar.zero, c = UChar.zero := by
      intro c hc
      rcases List.mem_cons.mp hc with rfl | hc
      · rfl
      · exact List.eq_of_mem_replicate hc
    have hfraction : ∀ c ∈ List.replicate (-((digits.length : Int) - scale)).toNat UChar.zero
        ++ digits, isDigit c = true := by
      intro c hc
      rcases List.mem_append.mp hc with hc | hc
      · rw [List.eq_of_mem_replicate hc]
        decide
      · exact hdigits.digits_eq c hc
    refine ⟨{
      sign := signText val
      whole := [UChar.zero]
      fraction :=
        some (List.replicate (-((digits.length : Int) - scale)).toNat UChar.zero ++ digits)
      exponent := none
      su := suBuf
      sign_eq := signText_isSign val
      whole_eq := by decide
      fraction_eq := by
        intro f hf
        cases hf
        exact hfraction
      digits_ne := by simp
      su_eq := su_eq_of_isNumeral hsu }, ?_, rfl, ?_, rfl, ?_⟩
    · rw [if_pos hwhole, NumbText.text, toList_signText, NumbText.mainText, mainPart,
        NumbText.expText, NumbText.suText, hsutext]
      simp
    · show Numeral.dropLeading UChar.zero
        ((UChar.zero :: List.replicate (-((digits.length : Int) - scale)).toNat UChar.zero)
          ++ digits) = digits
      rw [Numeral.dropLeading_append hdigits.digits_ne hzeroes, hdigits.dropLeading]
    · show ((List.replicate (-((digits.length : Int) - scale)).toNat UChar.zero
          ++ digits).length : Int) - 0 = scale
      rw [List.length_append, List.length_replicate]
      omega
  · have hcount : (((digits.length : Int) - scale).toNat : Int) = digits.length - scale := by omega
    have htake : digits.take ((digits.length : Int) - scale).toNat ≠ [] := by
      rw [← List.length_pos_iff, List.length_take]
      omega
    refine ⟨{
      sign := signText val
      whole := digits.take ((digits.length : Int) - scale).toNat
      fraction := if 0 < scale then some (digits.drop ((digits.length : Int) - scale).toNat)
        else none
      exponent := none
      su := suBuf
      sign_eq := signText_isSign val
      whole_eq := fun c hc => hdigits.digits_eq c (List.mem_of_mem_take hc)
      fraction_eq := by
        intro f hf
        split at hf
        · cases hf
          exact fun c hc => hdigits.digits_eq c (List.mem_of_mem_drop hc)
        · cases hf
      digits_ne := List.append_ne_nil_of_left_ne_nil htake _
      su_eq := su_eq_of_isNumeral hsu }, ?_, rfl, ?_, rfl, ?_⟩
    · rw [if_neg hwhole, NumbText.text, toList_signText, NumbText.mainText, mainPart,
        NumbText.expText, NumbText.suText, hsutext]
      by_cases hplaces : 0 < scale
      · simp [hplaces]
      · have hnone : digits.drop ((digits.length : Int) - scale).toNat = [] := by
          rw [List.drop_eq_nil_iff]
          omega
        simp [hplaces, hnone]
    · show Numeral.dropLeading UChar.zero (digits.take ((digits.length : Int) - scale).toNat
        ++ (if 0 < scale then some (digits.drop ((digits.length : Int) - scale).toNat) else
          none).getD []) = digits
      by_cases hplaces : 0 < scale
      · rw [if_pos hplaces, Option.getD_some, List.take_append_drop, hdigits.dropLeading]
      · have hall : digits.take ((digits.length : Int) - scale).toNat = digits := by
          rw [List.take_of_length_le]
          omega
        rw [if_neg hplaces, Option.getD_none, List.append_nil, hall, hdigits.dropLeading]
    · show (((if 0 < scale then some (digits.drop ((digits.length : Int) - scale).toNat) else
          none).getD []).length : Int) - 0 = scale
      by_cases hplaces : 0 < scale
      · rw [if_pos hplaces, Option.getD_some, List.length_drop]
        omega
      · rw [if_neg hplaces, Option.getD_none, List.length_nil]
        omega

/-- Scientific notation is one too; its exponent has as many digits as it takes. -/
theorem formatTextSci_spec (val : Double) (hdigits : IsNumeral digits)
    (hsu : ∀ s ∈ suBuf, IsNumeral s) (hlen : digits.length ≤ 630)
    (hsulen : ∀ s ∈ suBuf, s.length ≤ 630) (hlow : -308 ≤ scale) (hhigh : scale ≤ 321) :
    ∃ t : NumbText, formatTextSci val digits suBuf scale = some (.ok t.text) ∧ t.sign = signText val
      ∧ Numeral.dropLeading UChar.zero t.digits = digits ∧ t.su = suBuf ∧ t.scale = scale := by
  have hroom := suChars_le hsulen
  obtain ⟨c, rest, rfl⟩ := List.exists_cons_of_ne_nil hdigits.digits_ne
  have hc := hdigits.digits_eq c (List.mem_cons_self ..)
  have hrest : ∀ e ∈ rest, isDigit e = true :=
    fun e he => hdigits.digits_eq e (List.mem_cons_of_mem _ he)
  have hplace : (if (c :: rest).length ≠ 0 then ((c :: rest).length - 1 : Int) else 0) - scale
      = rest.length - scale := by
    rw [if_pos (by simp), List.length_cons]
    push_cast
    ring
  rw [List.length_cons] at hlen
  generalize hplaceval : (rest.length : Int) - scale = place at hplace
  have hlog : Nat.log 10 place.natAbs < 4 := by
    apply Nat.log_lt_of_lt_pow' (by decide)
    omega
  have hroomexp : place.natAbs < 10 ^ max 2 (Nat.log 10 place.natAbs + 1) :=
    (ToDigits.lt_pow_log place.natAbs).trans_le (Nat.pow_le_pow_right (by decide) (le_max_right ..))
  have hexpdigits : ofDigits
      (ToDigits.lastDigits (max 2 (Nat.log 10 place.natAbs + 1)) place.natAbs) = place.natAbs := by
    rw [ToDigits.ofDigits_lastDigits, Nat.mod_eq_of_lt hroomexp]
  have hexpne : ToDigits.lastDigits (max 2 (Nat.log 10 place.natAbs + 1)) place.natAbs ≠ [] := by
    rw [← List.length_pos_iff, ToDigits.length_lastDigits]
    omega
  have hline : lineLength = 2048 := rfl
  have hfits : (if val.isNeg then 1 else 0) + (if 1 < (c :: rest).length then (c :: rest).length + 1
      else 1) + (max 2 (Nat.log 10 place.natAbs + 1) + 2) + suChars suBuf + 1 ≤ lineLength + 1 := by
    rw [hline, List.length_cons]
    split <;> split <;> omega
  have hsutext : writeSu suBuf = suBuf.elim [] fun s => UChar.open' :: (s ++ [UChar.close]) := rfl
  refine ⟨{
    sign := signText val
    whole := [c]
    fraction := if rest = [] then none else some rest
    exponent := some {
      mark := UChar.lowerE
      sign := some (if place < 0 then UChar.minus else UChar.plus)
      digits := ToDigits.lastDigits (max 2 (Nat.log 10 place.natAbs + 1)) place.natAbs
      mark_eq := .inr rfl
      sign_eq := by
        intro e he
        cases he
        split
        · exact .inl rfl
        · exact .inr rfl
      digits_eq := ToDigits.lastDigits_isDigit _ _
      digits_ne := hexpne }
    su := suBuf
    sign_eq := signText_isSign val
    whole_eq := by
      intro e he
      rw [List.mem_singleton.mp he]
      exact hc
    fraction_eq := by
      intro f hf
      split at hf
      · cases hf
      · cases hf
        exact hrest
    digits_ne := by simp
    su_eq := su_eq_of_isNumeral hsu }, ?_, rfl, ?_, rfl, ?_⟩
  · unfold formatTextSci
    simp only [hplace]
    rw [if_neg (by simp), if_pos hfits, NumbText.text, toList_signText, NumbText.mainText, mainPart,
      NumbText.expText, NumbText.suText, hsutext]
    by_cases hnil : rest = []
    · simp [hnil, Exponent.text]
    · simp [hnil, Exponent.text]
  · show Numeral.dropLeading UChar.zero ([c] ++ (if rest = [] then none else some rest).getD [])
        = c :: rest
    have hall : (if rest = [] then none else some rest).getD [] = rest := by
      split
      · rename_i hnil
        rw [hnil]
        rfl
      · rfl
    rw [hall]
    exact hdigits.dropLeading
  · have hplaces : ((if rest = [] then none else some rest).getD []).length = rest.length := by
      split
      · rename_i hnil
        rw [hnil]
        rfl
      · rfl
    have hvalue : signOf (some (if place < 0 then UChar.minus else UChar.plus))
        * (ofDigits (ToDigits.lastDigits (max 2 (Nat.log 10 place.natAbs + 1)) place.natAbs) : Int)
          = place := by
      rw [hexpdigits]
      by_cases hneg : place < 0
      · rw [if_pos hneg, signOf, if_pos rfl]
        omega
      · rw [if_neg hneg, signOf, if_neg (by decide)]
        omega
    show (((if rest = [] then none else some rest).getD []).length : Int)
      - signOf (some (if place < 0 then UChar.minus else UChar.plus))
        * (ofDigits (ToDigits.lastDigits (max 2 (Nat.log 10 place.natAbs + 1)) place.natAbs) : Int)
          = scale
    rw [hplaces, hvalue]
    omega

end Format

section Init

variable {val su : Double} {scale maxLeadingZeroes : Int} {digits : UStr} {suBuf : Option UStr}
  {msp : Double → Int} {n : Value}

theorem initNumb_eq (hsu : su.isNeg = false) (hscale : Admissible scale)
    (hmax : 0 ≤ maxLeadingZeroes) (hdigits : toDigits .toNearest val scale = some digits)
    (hsuBuf : suDigitsOf .toNearest su scale = some suBuf) :
    n.initNumb .toNearest msp val su scale maxLeadingZeroes
      = (formatText msp val digits suBuf scale maxLeadingZeroes).map fun text =>
        match text with
        | .error code => (code, n)
        | .ok text =>
          (Code.ok, .numb ⟨text, if val.isNeg then -1 else 1, digits, suBuf, scale⟩ false) := by
  obtain ⟨hlow, hhigh⟩ := hscale
  have hargs : ¬ (su.isNeg || -scale < 1 + dblMin10Exp - dblDig || -scale > dblMax10Exp
      || maxLeadingZeroes < 0) = true := by
    simp only [hsu, Bool.or_eq_true, decide_eq_true_eq, Bool.false_eq_true, false_or]
    omega
  unfold Value.initNumb
  rw [if_neg hargs, hdigits, Option.bind_eq_bind, Option.bind_some, hsuBuf, Option.bind_eq_bind,
    Option.bind_some]
  cases formatText msp val digits suBuf scale maxLeadingZeroes with
  | none => rfl
  | some text =>
    cases text with
    | error code => rfl
    | ok text => rfl

/-- An uncertainty is recorded as its digits, or not at all if they are none. -/
theorem suDigitsOf_spec (su : Double) (hscale : Admissible scale) :
    ∃ suBuf, suDigitsOf .toNearest su scale = some suBuf ∧ (∀ s ∈ suBuf, su.Rounds scale s)
      ∧ (suBuf = none ↔ su.mantissa = 0 ∨ su.Vanishes scale) := by
  unfold suDigitsOf
  by_cases hzero : su.mantissa = 0
  · refine ⟨none, if_neg (not_not.mpr hzero), ?_, iff_of_true rfl (.inl hzero)⟩
    intro s hs
    cases hs
  · rw [if_pos hzero]
    rcases toDigits_spec su hscale with ⟨hstays, s, hs, hrounds⟩ | ⟨hvanishes, hnone⟩
    · have hne : s ≠ [] := by
        obtain ⟨_, _, hnumeral, _⟩ := hrounds
        exact hnumeral.digits_ne
      refine ⟨some s, by rw [hs, Option.map_some, if_neg hne], ?_, ?_⟩
      · intro s' hs'
        cases hs'
        exact hrounds
      · refine iff_of_false (Option.some_ne_none s) ?_
        rintro (h | h)
        · exact hzero h
        · exact hstays h
    · refine ⟨none, by rw [hnone, Option.map_some, if_pos rfl], ?_,
        iff_of_true rfl (.inr hvanishes)⟩
      intro s hs
      cases hs

/-- Either notation is a number text for the same digits and scale. -/
theorem formatText_spec (msp : Double → Int) (maxLeadingZeroes : Int)
    (hdigits : val.Rounds scale digits) (hsu : ∀ s ∈ suBuf, su.Rounds scale s)
    (hscale : Admissible scale) :
    ∃ t : NumbText, formatText msp val digits suBuf scale maxLeadingZeroes = some (.ok t.text)
      ∧ t.sign = signText val
      ∧ Numeral.dropLeading UChar.zero t.digits = digits ∧ t.su = suBuf ∧ t.scale = scale := by
  have hlen := hdigits.length_le hscale
  have hsulen : ∀ s ∈ suBuf, s.length ≤ 630 := fun s hs => (hsu s hs).length_le hscale
  obtain ⟨_, _, hnumeral, _⟩ := hdigits
  have hsunumeral : ∀ s ∈ suBuf, IsNumeral s := by
    intro s hs
    obtain ⟨_, _, hsunumeral, _⟩ := hsu s hs
    exact hsunumeral
  obtain ⟨hlow, hhigh⟩ := hscale
  have hmin : 1 + dblMin10Exp - (dblDig : Int) = -321 := by decide
  have hmax : (dblMax10Exp : Int) = 308 := rfl
  unfold formatText
  split
  · rename_i hdecimal
    simp only [Bool.and_eq_true, decide_eq_true_eq] at hdecimal
    obtain ⟨t, htext, ht⟩ :=
      formatTextDecimal_spec val hnumeral hsunumeral hlen hsulen hdecimal.1 (by omega)
    exact ⟨t, by rw [htext], ht⟩
  · exact formatTextSci_spec val hnumeral hsunumeral hlen hsulen (by omega) (by omega)

/-- A value without digits is either not formatted at all or recorded without digits. -/
theorem formatText_nil (msp : Double → Int) (val : Double) (maxLeadingZeroes : Int)
    (hsu : ∀ s ∈ suBuf, su.Rounds scale s) (hscale : Admissible scale) :
    formatText msp val [] suBuf scale maxLeadingZeroes = none
      ∨ ∃ text, formatText msp val [] suBuf scale maxLeadingZeroes = some (.ok text) := by
  unfold formatText
  split
  · right
    rename_i hdecimal
    simp only [Bool.and_eq_true, decide_eq_true_eq] at hdecimal
    have hroom := suChars_le fun s hs => (hsu s hs).length_le hscale
    have hmin : 1 + dblMin10Exp - (dblDig : Int) = -321 := by decide
    have hlow := hscale.1
    have hline : lineLength = 2048 := rfl
    have hfits : (if val.isNeg then 1 else 0) + (if (([] : UStr).length : Int) ≤ scale then
        scale.toNat + 1
        else ([] : UStr).length) + (if scale = 0 then 0 else 1) + suChars suBuf + 1
          ≤ lineLength + 1 := by
      rw [hline, List.length_nil]
      split <;> split <;> split <;> omega
    have hneg : (([] : UStr).length : Int) - scale ≤ 0 := by
      rw [List.length_nil]
      omega
    unfold formatTextDecimal
    rw [if_pos hfits, if_pos hneg]
    exact ⟨_, rfl⟩
  · left
    unfold formatTextSci
    rfl

/-- A number is made consistent with its text unless its value vanishes, or its uncertainty rounds
to zero but does not vanish. -/
theorem Value.initNumb_consistent_iff (msp : Double → Int) (n : Value) (val : Double)
    (hsu : su.isNeg = false) (hscale : Admissible scale) (hmax : 0 ≤ maxLeadingZeroes) :
    InitConsistent (n.initNumb .toNearest msp val su scale maxLeadingZeroes) su scale
      ↔ ¬ val.Vanishes scale
        ∧ (su.mantissa ≠ 0 → su.magnitude * (10 : ℚ) ^ scale ≤ 1 / 2 → su.Vanishes scale) := by
  obtain ⟨suBuf, hsuBuf, hsurounds, hsunone⟩ := suDigitsOf_spec su hscale
  have hsu0 : 0 ≤ su.magnitude * (10 : ℚ) ^ scale := by
    rw [Double.magnitude]
    positivity
  rcases toDigits_spec val hscale with ⟨hstays, digits, hdigits, hrounds⟩ | ⟨hvanishes, hnone⟩
  · rw [initNumb_eq hsu hscale hmax hdigits hsuBuf]
    obtain ⟨t, htext, hsign, htdigits, htsu, htscale⟩ :=
      formatText_spec msp maxLeadingZeroes hrounds hsurounds hscale
    rw [htext, Option.map_some]
    obtain ⟨_, _, hnumeral, _⟩ := hrounds
    constructor
    · intro h
      refine ⟨hstays, ?_⟩
      intro hne hhalf
      obtain ⟨number, hnumber, _, _, hexact, _⟩ := h.number _ rfl
      obtain ⟨rfl, -⟩ := Value.numb.inj hnumber
      exact (hsunone.mp (hexact ((NearestEven.zero_iff hsu0).mpr hhalf))).resolve_left hne
    · rintro ⟨_, hexact⟩
      refine ⟨Option.some_ne_none _, ?_⟩
      intro value hvalue
      cases hvalue
      refine ⟨_, rfl, ⟨hnumeral.digits_ne, hnumeral.digits_eq⟩, ?_, ?_, ?_⟩
      · intro s hs
        obtain ⟨_, _, hsunumeral, _⟩ := hsurounds s hs
        exact ⟨hsunumeral.digits_ne, hsunumeral.digits_eq⟩
      · intro hzero
        apply hsunone.mpr
        by_cases hne : su.mantissa = 0
        · exact .inl hne
        · exact .inr (hexact hne ((NearestEven.zero_iff hsu0).mp hzero))
      · refine ⟨t.numb, t.parseNumb_eq, ?_, htdigits, ?_, ?_⟩
        · rw [NumbText.numb, hsign, signOf_signText]
        · rw [NumbText.numb, htsu]
          cases suBuf with
          | none => rfl
          | some s =>
            obtain ⟨_, _, hsunumeral, _⟩ := hsurounds s rfl
            rw [Option.map_some, hsunumeral.dropLeading]
        · obtain ⟨hlow, hhigh⟩ := hscale
          have hmin : 1 + dblMin10Exp - (dblDig : Int) = -321 := by decide
          have hmaxexp : (dblMax10Exp : Int) = 308 := rfl
          rw [NumbText.numb, htscale, toInt_eq_iff]
          omega
  · rw [initNumb_eq hsu hscale hmax hnone hsuBuf]
    refine iff_of_false ?_ (fun h => h.1 hvanishes)
    intro h
    rcases formatText_nil msp val maxLeadingZeroes hsurounds hscale with hassert | ⟨text, htext⟩
    · exact h.returns (by rw [hassert, Option.map_none])
    · rw [htext] at h
      obtain ⟨number, hnumber, hdigits, _⟩ := h.number _ rfl
      obtain ⟨rfl, -⟩ := Value.numb.inj hnumber
      exact hdigits.1 rfl

end Init

/-- Tenths with an uncertainty, and a value and an uncertainty that round to zero. -/
theorem Value.initNumb_consistent_iff_examples :
    (InitConsistent (Value.unk.initNumb .toNearest (fun _ =>
      -2) fourHundredths fourHundredths 4 5) fourHundredths 4
        ↔ ¬ fourHundredths.Vanishes 4 ∧ (fourHundredths.mantissa ≠ 0
          → fourHundredths.magnitude * (10 : ℚ) ^ (4 : Int) ≤ 1 / 2 → fourHundredths.Vanishes 4))
      ∧ (InitConsistent (Value.unk.initNumb .toNearest (fun _ =>
        -2) fourHundredths fourHundredths 0 5) fourHundredths 0
        ↔ ¬ fourHundredths.Vanishes 0 ∧ (fourHundredths.mantissa ≠ 0
          → fourHundredths.magnitude * (10 : ℚ) ^ (0 : Int) ≤ 1 / 2 → fourHundredths.Vanishes 0)) :=
  ⟨Value.initNumb_consistent_iff _ _ _ (by decide) ⟨by decide, by decide⟩ (by decide),
    Value.initNumb_consistent_iff _ _ _ (by decide) ⟨by decide, by decide⟩ (by decide)⟩

/-- 0.04 in tenths is recorded without any digits, and so is its text. -/
theorem Value.initNumb_vanishes :
    ¬ InitConsistent (Value.unk.initNumb .toNearest (fun _ => -2) fourHundredths fourHundredths 1 5)
      fourHundredths 1 := by
  intro h
  have hrun : Value.unk.initNumb .toNearest (fun _ => -2) fourHundredths fourHundredths 1 5
      = some (Code.ok, .numb ⟨units "0.0", 1, [], none, 1⟩ false) := by
    have hdigits : toDigits .toNearest fourHundredths 1 = some [] := by decide +kernel
    have hsu : suDigitsOf .toNearest fourHundredths 1 = some none := by decide +kernel
    rw [initNumb_eq (by decide) ⟨by decide, by decide⟩ (by decide) hdigits hsu]
    rfl
  obtain ⟨number, hnumber, hdigits, _⟩ := h.number _ hrun
  obtain ⟨rfl, -⟩ := Value.numb.inj hnumber
  exact hdigits.1 rfl

end CifApi
