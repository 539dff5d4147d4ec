import CifApi.Value.ToDouble

/-! The indices of the array of digits that a conversion to `double` uses. -/
namespace CifApi

namespace ToDouble

/-- The first and the last index that a pass over the digits uses are in the array. -/
def InArray (extent : Int × Int) : Prop := 0 ≤ extent.1 ∧ extent.2 < bignumDigits

instance (extent : Int × Int) : Decidable (InArray extent) := by
  unfold InArray
  exact inferInstance

/-- The passes of the right shifts: each goes on from the first digit while there is a remainder. -/
def rightExtents : Nat → Nat → Bignum → List (Int × Int)
  | 0, _, _ => []
  | fuel + 1, left, n =>
    if left = 0 then []
    else
      let shift := min bdigPerDig left
      (n.msd, (n.shiftRight shift).lsd) :: rightExtents fuel (left - shift) (n.shiftRight shift)

/-- The passes of the left shifts: each goes on from the last digit while there is a carry. -/
def leftExtents (unitsDigit : Int) : Nat → Nat → Bignum → List (Int × Int)
  | 0, _, _ => []
  | fuel + 1, left, n =>
    if left = 0 ∨ n.lsd ≤ unitsDigit then []
    else
      let shift := min bdigPerDig left
      ((n.shiftLeft shift).msd, n.lsd) :: leftExtents unitsDigit fuel (left - shift)
        (n.shiftLeft shift)

/-- The passes of the mantissa loop: down to the units each time, and a shift in between. -/
def mantissaExtents (unitsDigit : Int) : Nat → Bignum → List (Int × Int)
  | 0, _ => []
  | fuel + 1, n =>
    (n.msd, unitsDigit) ::
      if minMantissa ≤ Numeral.value bbase (n.upper unitsDigit) ∨ n.lsd ≤ unitsDigit then []
      else ((n.shiftLeft 1).msd, n.lsd) :: mantissaExtents unitsDigit fuel (n.shiftLeft 1)

/-- All passes of the main case, as far as they are defined: reading the digits, scaling, the
mantissa. -/
def extents (floorLog2 : Nat → Int → Int) (first : Nat) (msp : Int) (ddigits : UStr) :
    List (Int × Int) :=
  let unitsDigit := unitsDigit floorLog2 first msp
  let rightShiftMax := rightShiftMax floorLog2 first msp
  let n := loaded unitsDigit msp ddigits
  (n.msd, n.lsd) ::
    (if 0 < rightShiftMax then rightExtents rightShiftMax.toNat rightShiftMax.toNat n
      else leftExtents unitsDigit (-rightShiftMax).toNat (-rightShiftMax).toNat n)
    ++ (scaled floorLog2 first msp ddigits).elim [] fun p =>
      mantissaExtents unitsDigit dblMantDig p.1

end ToDouble

/-- The digits that `to_double` does not ignore. -/
def keptDigits (ddigits : UStr) : UStr := (significantDigits ddigits).take lineLength

/-- The passes of `to_double` over its array. -/
def toDoubleExtents (floorLog2 : Nat → Int → Int) (ddigits : UStr) (scale : Int) :
    List (Int × Int) :=
  if ddigits.dropWhile (· = UChar.zero) = [] then []
  else if dblMax10Exp < leadingPlace ddigits scale then []
  else if leadingPlace ddigits scale ≤ dblMin10Exp - dblDig then []
  else ToDouble.extents floorLog2 (leadingDigit ddigits) (leadingPlace ddigits scale)
    (keptDigits ddigits)

namespace ToDouble

section Passes

variable {n n' : Bignum} {unitsDigit : Int} {fuel left : Nat}

/-- The right shifts stay within the array if each pass does. -/
theorem rightExtents_iff (hmsd : 0 ≤ n.msd) :
    (∀ extent ∈ rightExtents fuel left n, InArray extent) ↔ (scaleRight fuel left n).isSome := by
  induction fuel generalizing left n with
  | zero => simp [rightExtents, scaleRight]
  | succ fuel ih =>
    rw [rightExtents, scaleRight]
    split
    · simp
    · generalize min bdigPerDig left = shift
      have hstart := Bignum.le_msd_shiftRight n shift
      dsimp only
      rw [List.forall_mem_cons, ih (hmsd.trans hstart)]
      by_cases hend : (n.shiftRight shift).lsd < bignumDigits
      · have hwithin : (n.shiftRight shift).within bignumDigits = some (n.shiftRight shift) :=
          within_iff.mpr ⟨rfl, hmsd.trans hstart, hend⟩
        rw [hwithin]
        exact and_iff_right ⟨hmsd, hend⟩
      · have hwithin : (n.shiftRight shift).within bignumDigits = none := by
          rw [Bignum.within, if_neg fun h => hend h.2]
        rw [hwithin]
        exact iff_of_false (fun h => hend h.1.2) (by simp)

theorem inArray_leftExtents {r : Bignum × Nat} (hlsd : n.lsd < bignumDigits)
    (h : scaleLeft unitsDigit fuel left n = some r) :
    ∀ extent ∈ leftExtents unitsDigit fuel left n, InArray extent := by
  induction fuel generalizing left n with
  | zero => simp [leftExtents]
  | succ fuel ih =>
    rw [leftExtents]
    rw [scaleLeft] at h
    split
    · simp
    · rename_i hgo
      rw [if_neg hgo] at h
      generalize min bdigPerDig left = shift at *
      obtain ⟨m, hm, hrest⟩ := Option.bind_eq_some_iff.mp h
      obtain ⟨rfl, hmsd, hlsd'⟩ := within_iff.mp hm
      rw [List.forall_mem_cons]
      exact ⟨⟨hmsd, hlsd⟩, ih hlsd' hrest⟩

theorem inArray_mantissaExtents {exponent : Int} {r : Bignum × Nat × Int} (hmsd : 0 ≤ n.msd)
    (hlsd : n.lsd < bignumDigits) (hunits : unitsDigit < bignumDigits)
    (h : mantissa unitsDigit fuel n exponent = some r) :
    ∀ extent ∈ mantissaExtents unitsDigit fuel n, InArray extent := by
  induction fuel generalizing n exponent with
  | zero => simp [mantissaExtents]
  | succ fuel ih =>
    rw [mantissaExtents, List.forall_mem_cons]
    refine ⟨⟨hmsd, hunits⟩, ?_⟩
    rw [mantissa] at h
    split at h
    · cases h
    · split
      · simp
      · rename_i hgo
        rw [if_neg hgo] at h
        obtain ⟨m, hm, hrest⟩ := Option.bind_eq_some_iff.mp h
        obtain ⟨rfl, hmsd', hlsd'⟩ := within_iff.mp hm
        rw [List.forall_mem_cons]
        exact ⟨⟨hmsd', hlsd⟩, ih hmsd' hlsd' hrest⟩

end Passes

section Conversion

variable {floorLog2 : Nat → Int → Int} {first : Nat} {msp : Int} {ddigits : UStr}

/-- The units are in the array. -/
theorem unitsDigit_lt (hlog : FloorLog2 floorLog2) (h1 : 1 ≤ first) (h9 : first ≤ 9)
    (hlow : dblMin10Exp - dblDig < msp) (hhigh : msp ≤ dblMax10Exp) :
    unitsDigit floorLog2 first msp < bignumDigits := by
  obtain ⟨-, -, hle⟩ := unitsDigit_spec hlog h1 h9 hlow hhigh []
  have hper : ((ddigPerDig : Nat) : Int) = 9 := rfl
  have hmax : dblMax10Exp = 308 := rfl
  have hsize := bignumDigits_eq
  rw [loaded, hper] at hle
  dsimp only at hle
  split at hle <;> omega

/-- All passes stay within the array just where the scaled digits fit. -/
theorem extents_iff (hlog : FloorLog2 floorLog2) (h : Significant ddigits)
    (hfirst : first ∈ ddigits.head?) (hlow : dblMin10Exp - dblDig < msp)
    (hhigh : msp ≤ dblMax10Exp) :
    (∀ extent ∈ extents floorLog2 (first - UChar.zero) msp ddigits, InArray extent)
      ↔ Fits floorLog2 (first - UChar.zero) msp (placed ddigits msp) := by
  obtain ⟨c, hc, h1, h9, hv, hv'⟩ := placed_bounds h msp
  cases hc.symm.trans hfirst
  obtain ⟨hge, hlt⟩ := estimate_scaled hlog h1 h9 hlow hhigh hv hv'
  obtain ⟨-, hmsd, hlsd⟩ := within_iff.mp (loaded_within hlog h1 h9 hlow hhigh h)
  have hsome := scaled_isSome_iff hlog h1 h9 hlow hhigh h hlt
  rw [extents]
  rw [List.cons_append, List.forall_mem_cons, List.forall_mem_append]
  constructor
  · rintro ⟨-, hscaling, -⟩ hright
    rw [if_pos hright, rightExtents_iff hmsd] at hscaling
    obtain ⟨n, hn⟩ := Option.isSome_iff_exists.mp hscaling
    refine hsome.mp ?_ hright
    rw [scaled]
    dsimp only
    rw [if_pos hright, hn]
    rfl
  · intro hfits
    obtain ⟨⟨n, exponent⟩, hscaled⟩ := Option.isSome_iff_exists.mp (hsome.mpr hfits)
    refine ⟨⟨hmsd, hlsd⟩, ?_, ?_⟩
    · rw [scaled] at hscaled
      dsimp only at hscaled
      split
      · rename_i hright
        rw [if_pos hright] at hscaled
        obtain ⟨n', hn, -⟩ := Option.bind_eq_some_iff.mp hscaled
        exact (rightExtents_iff hmsd).mpr (Option.isSome_of_eq_some hn)
      · rename_i hright
        rw [if_neg hright] at hscaled
        obtain ⟨r, hr, -⟩ := Option.bind_eq_some_iff.mp hscaled
        exact inArray_leftExtents hlsd hr
    · obtain ⟨hvalid, hlsd', -, hlt', hge'⟩ := scaled_spec hlog h1 h9 hlow hhigh h hge hlt hscaled
      obtain ⟨hunits, -⟩ := unitsDigit_spec hlog h1 h9 hlow hhigh ddigits
      obtain ⟨n', exponent', hrun, -⟩ := mantissa_spec hvalid hunits hlsd' hlt' hge' exponent
      rw [hscaled]
      exact inArray_mantissaExtents (msd_nonneg hvalid hunits hlt') hlsd'
        (unitsDigit_lt hlog h1 h9 hlow hhigh) hrun

end Conversion

end ToDouble

section Double

variable {floorLog2 : Nat → Int → Int} {ddigits : UStr} {scale : Int}

theorem exists_nonzero_iff :
    (∃ c ∈ ddigits, c ≠ UChar.zero) ↔ ddigits.dropWhile (· = UChar.zero) ≠ [] := by
  rw [ne_eq, List.dropWhile_eq_nil_iff]
  simp

/-- What is kept starts with the leading digit, and it is not too long. -/
theorem keptDigits_spec (hdigits : ∀ c ∈ ddigits, isDigit c = true)
    (hsome : ddigits.dropWhile (· = UChar.zero) ≠ []) :
    Significant (keptDigits ddigits) ∧ ∃ first ∈ (keptDigits ddigits).head?,
      leadingDigit ddigits = first - UChar.zero := by
  obtain ⟨s, t, hsplit, hdrop, -, ht⟩ := exists_significantDigits ddigits
  obtain ⟨c, r, hcr⟩ := List.exists_cons_of_ne_nil hsome
  have hnonzero : c ≠ UChar.zero := by
    simpa [hcr] using List.head?_dropWhile_not (· = UChar.zero) ddigits
  have hkept : ∃ r', keptDigits ddigits = c :: r' := by
    rw [hcr] at hdrop
    cases hdigs : significantDigits ddigits with
    | nil =>
      rw [hdigs, List.nil_append] at hdrop
      exact absurd (ht c (by simp [← hdrop])) hnonzero
    | cons d r' =>
      rw [hdigs, List.cons_append] at hdrop
      cases hdrop
      exact ⟨_, by rw [keptDigits, hdigs]; rfl⟩
  obtain ⟨r', hr'⟩ := hkept
  have hall : ∀ d ∈ keptDigits ddigits, isDigit d = true := by
    intro d hd
    apply hdigits
    rw [hsplit]
    exact List.mem_append_right _ (List.mem_append_left _ (List.mem_of_mem_take hd))
  have hhead : c ∈ (keptDigits ddigits).head? := by rw [hr']; rfl
  have hrange : UChar.zero ≤ c ∧ c ≤ UChar.nine := by
    have hdigit := hall c (List.mem_of_mem_head? hhead)
    simpa [isDigit] using hdigit
  refine ⟨⟨hall, ⟨c, hhead, ?_⟩, ?_⟩, c, hhead, ?_⟩
  · exact Nat.sub_ne_zero_of_lt (lt_of_le_of_ne hrange.1 hnonzero.symm)
  · rw [keptDigits]
    exact List.length_take_le _ _
  · rw [leadingDigit, hcr]
    rfl

/-- The number is beyond the range of `double`, or the decimal places of the digits that `to_double`
keeps fit in its array when they are scaled down. -/
def FitsArray (floorLog2 : Nat → Int → Int) (ddigits : UStr) (scale : Int) : Prop :=
  (∃ c ∈ ddigits, c ≠ UChar.zero) → dblMin10Exp - dblDig < leadingPlace ddigits scale →
    leadingPlace ddigits scale ≤ dblMax10Exp →
    ToDouble.Fits floorLog2 (leadingDigit ddigits) (leadingPlace ddigits scale)
      (ToDouble.placed (keptDigits ddigits) (leadingPlace ddigits scale))

/-- The digits are truncated where they are too many, and only there. -/
theorem keptDigits_eq (hsome : ddigits.dropWhile (· = UChar.zero) ≠ []) :
    (if (lineLength : Int) ≤ leadingPlace ddigits scale - (-scale
        + ((ddigits.dropWhile (· = UChar.zero)).length - (significantDigits ddigits).length)) then
      (significantDigits ddigits).take lineLength else significantDigits ddigits)
        = keptDigits ddigits := by
  have hpos := List.length_pos_iff.mpr hsome
  rw [leadingPlace, keptDigits]
  split
  · rfl
  · rename_i hshort
    rw [List.take_of_length_le]
    omega

/-- The main case has a result exactly where the array is long enough. -/
theorem ToDouble.convert_isSome_iff (hlog : FloorLog2 floorLog2) {s : UStr} (h : Significant s)
    {first : Nat} (hfirst : first ∈ s.head?) {msp : Int} (hlow : dblMin10Exp - dblDig < msp)
    (hhigh : msp ≤ dblMax10Exp) (mode : RoundingMode) :
    (convert mode floorLog2 (first - UChar.zero) msp s).isSome
      ↔ Fits floorLog2 (first - UChar.zero) msp (placed s msp) := by
  obtain ⟨c, hc, h1, h9, hv, hv'⟩ := placed_bounds h msp
  cases hc.symm.trans hfirst
  obtain ⟨hge, hlt⟩ := estimate_scaled hlog h1 h9 hlow hhigh hv hv'
  rw [convert_eq hlog h1 h9 hlow hhigh h, ← scaled_isSome_iff hlog h1 h9 hlow hhigh h hlt]
  cases hscaled : scaled floorLog2 (first - UChar.zero) msp s with
  | none => exact Iff.rfl
  | some p =>
    obtain ⟨n, exponent⟩ := p
    obtain ⟨hvalid, hlsd, -, hlt', hge'⟩ := scaled_spec hlog h1 h9 hlow hhigh h hge hlt hscaled
    obtain ⟨hunits, -⟩ := unitsDigit_spec hlog h1 h9 hlow hhigh s
    obtain ⟨n', exponent', hrun, -⟩ := mantissa_spec hvalid hunits hlsd hlt' hge' exponent
    rw [Option.bind_some, hrun, Option.bind_some]
    dsimp only
    split <;> exact iff_of_true rfl rfl

/-- `to_double` comes to a result exactly where its array is long enough. -/
theorem toDouble_isSome_iff (hlog : FloorLog2 floorLog2) (hdigits : ∀ c ∈ ddigits, isDigit c = true)
    (mode : RoundingMode) : (toDouble mode floorLog2 ddigits scale).isSome ↔
      FitsArray floorLog2 ddigits scale := by
  rw [toDouble]
  dsimp only
  cases hhead : (ddigits.dropWhile (· = UChar.zero)).head? with
  | none =>
    refine iff_of_true rfl fun hnonzero => ?_
    exact absurd (List.head?_eq_none_iff.mp hhead) (exists_nonzero_iff.mp hnonzero)
  | some first =>
    have hsome : ddigits.dropWhile (· = UChar.zero) ≠ [] := by
      intro hnil
      rw [hnil] at hhead
      cases hhead
    have hnonzero := exists_nonzero_iff.mpr hsome
    obtain ⟨hkept, c, hc, hdigit⟩ := keptDigits_spec hdigits hsome
    have hleading : leadingDigit ddigits = first - UChar.zero := by
      rw [leadingDigit, hhead]
      rfl
    dsimp only
    rw [← leadingPlace, ← significantDigits, keptDigits_eq hsome, ← hleading, hdigit]
    split
    · rename_i hhigh
      exact iff_of_true rfl fun _ _ hle => absurd hhigh (not_lt.mpr hle)
    · rename_i hhigh
      split
      · rename_i hlow
        exact iff_of_true rfl fun _ hlt => absurd hlow (not_le.mpr hlt)
      · rename_i hlow
        rw [ToDouble.convert_isSome_iff hlog hkept hc (not_le.mp hlow) (not_lt.mp hhigh), ← hdigit]
        exact ⟨fun h _ _ _ => h, fun h => h hnonzero (not_le.mp hlow) (not_lt.mp hhigh)⟩

/-- Every pass of `to_double` stays within its array if and only if the number is beyond the range
of `double` or the decimal places of the digits that it keeps fit in the array when they are scaled
down. -/
theorem toDoubleExtents_iff (hlog : FloorLog2 floorLog2)
    (hdigits : ∀ c ∈ ddigits, isDigit c = true) :
    (∀ extent ∈ toDoubleExtents floorLog2 ddigits scale, ToDouble.InArray extent)
      ↔ ((∃ c ∈ ddigits, c ≠ UChar.zero) → dblMin10Exp - dblDig < leadingPlace ddigits scale
        → leadingPlace ddigits scale ≤ dblMax10Exp
        → ToDouble.Fits floorLog2 (leadingDigit ddigits) (leadingPlace ddigits scale)
          (ToDouble.placed (keptDigits ddigits) (leadingPlace ddigits scale))) := by
  rw [toDoubleExtents]
  split
  · rename_i hzeroes
    exact iff_of_true (by simp) fun hnonzero =>
      absurd hzeroes (exists_nonzero_iff.mp hnonzero)
  · rename_i hsome
    have hnonzero := exists_nonzero_iff.mpr hsome
    split
    · rename_i hhigh
      exact iff_of_true (by simp) fun _ _ hle => absurd hhigh (not_lt.mpr hle)
    · rename_i hhigh
      split
      · rename_i hlow
        exact iff_of_true (by simp) fun _ hlt => absurd hlow (not_le.mpr hlt)
      · rename_i hlow
        obtain ⟨hkept, first, hfirst, hdigit⟩ := keptDigits_spec hdigits hsome
        rw [hdigit, ToDouble.extents_iff hlog hkept hfirst (not_le.mp hlow) (not_lt.mp hhigh)]
        exact ⟨fun h _ _ _ => h, fun h => h hnonzero (not_le.mp hlow) (not_lt.mp hhigh)⟩

theorem toDoubleExtents_iff_halfwayText :
    (∀ extent ∈ toDoubleExtents exactFloorLog2 halfwayText 0, ToDouble.InArray extent)
      ↔ ((∃ c ∈ halfwayText, c ≠ UChar.zero) → dblMin10Exp - dblDig < leadingPlace halfwayText 0
        → leadingPlace halfwayText 0 ≤ dblMax10Exp
        → ToDouble.Fits exactFloorLog2 (leadingDigit halfwayText) (leadingPlace halfwayText 0)
          (ToDouble.placed (keptDigits halfwayText) (leadingPlace halfwayText 0))) :=
  toDoubleExtents_iff exactFloorLog2_spec (by decide)

/-- A number of a whole line, about `10 ^ 307`. -/
def wholeLine : UStr := 49 :: List.replicate 2040 48 ++ 49 :: units "e-1734"

/-- The right shifts of such a number run over the end of the array. -/
theorem toDoubleExtents_wholeLine :
    wholeLine.length = lineLength ∧ ∃ number, parseNumb wholeLine = .ok number
    ∧ ¬ ∀ extent ∈ toDoubleExtents exactFloorLog2 number.digits number.scale,
      ToDouble.InArray extent := by
  have hparse : (parseNumb wholeLine).map (fun number => (number.digits, number.scale))
      = .ok (49 :: List.replicate 2040 48 ++ [49], 1734) := by decide +kernel
  cases hnumber : parseNumb wholeLine with
  | error code =>
    rw [hnumber] at hparse
    cases hparse
  | ok number =>
    rw [hnumber] at hparse
    obtain ⟨hdigits, hscale⟩ := Prod.mk.inj (Except.ok.inj hparse)
    refine ⟨by decide +kernel, number, rfl, ?_⟩
    rw [hdigits, hscale]
    decide +kernel

end Double

end CifApi
