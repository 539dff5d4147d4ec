import CifApi.Data.NearestEven
import Mathlib.Tactic.Positivity
import Mathlib.Algebra.Order.Field.Power
import Mathlib.Data.Int.Log
import Mathlib.Data.Rat.Floor

/-! So many decimal digits of a positive number, and the place at which it rounds to no more than a
bound. -/

/-- The nearest integer, computed. -/
def roundNearest (x : ℚ) : ℕ :=
  let n := ⌊x⌋₊
  if x - n < 1 / 2 then n
  else if 1 / 2 < x - n then n + 1
  else if n % 2 = 0 then n
  else n + 1

/-- So many decimal digits of a number, and the place of the first one. -/
def decimalDigits (count : ℕ) (x : ℚ) : ℕ × ℤ :=
  let place := Int.log 10 x
  let digits := roundNearest (x * (10 : ℚ) ^ ((count : ℤ) - 1 - place))
  if digits = 10 ^ count then (10 ^ (count - 1), place + 1) else (digits, place)

/-- The last place at which a number rounds to no more than the bound. -/
def LargestPlace (x : ℚ) (bound : ℕ) (place : ℤ) : Prop :=
  (∃ n ≤ bound, NearestEven (x * (10 : ℚ) ^ place) n) ∧ ∃ n, bound < n
    ∧ NearestEven (x * (10 : ℚ) ^ (place + 1)) n

section Rounding

variable {x y : ℚ} {m n : ℕ}

theorem nearestEven_roundNearest (hx : 0 ≤ x) : NearestEven x (roundNearest x) := by
  have hle := Nat.floor_le hx
  have hlt := Nat.lt_floor_add_one x
  have hsplit : x = ⌊x⌋₊ + (x - ⌊x⌋₊) := by ring
  rw [roundNearest]
  split
  · rename_i hlow
    exact NearestEven.of_lt_half hsplit (by linarith) hlow
  · rename_i hlow
    split
    · rename_i hhigh
      exact NearestEven.of_half_lt hsplit hhigh (by linarith)
    · rename_i hhigh
      have hhalf : x = ⌊x⌋₊ + 1 / 2 := by linarith
      split
      · rename_i heven
        exact NearestEven.of_half hhalf (Nat.even_iff.mpr heven)
      · rename_i hodd
        exact NearestEven.of_half_odd hhalf fun heven => hodd (Nat.even_iff.mp heven)

namespace NearestEven

theorem natCast (n : ℕ) : NearestEven n n := by
  rw [NearestEven, sub_self, abs_zero]
  exact ⟨by norm_num, fun h => by norm_num at h⟩

/-- Rounding keeps the order. -/
theorem le_of_le (hm : NearestEven x m) (hn : NearestEven y n) (hle : x ≤ y) : m ≤ n := by
  by_contra hgt
  have hsucc : (n : ℚ) + 1 ≤ m := by exact_mod_cast Nat.lt_of_not_le hgt
  have hx := abs_le.mp hm.1
  have hy := abs_le.mp hn.1
  have heq : x = y := by linarith
  rw [heq] at hm
  exact hgt (hm.unique hn).le

theorem le_of_le_natCast (hm : NearestEven x m) (hle : x ≤ n) : m ≤ n :=
  hm.le_of_le (natCast n) hle

theorem le_of_natCast_le (hm : NearestEven x m) (hle : n ≤ x) : n ≤ m :=
  (natCast n).le_of_le hm hle

end NearestEven

end Rounding

section Digits

variable {x : ℚ} {count bound : ℕ}

theorem mul_ten_zpow_succ (x : ℚ) (place : ℤ) :
    x * (10 : ℚ) ^ (place + 1) = 10 * (x * (10 : ℚ) ^ place) := by
  rw [zpow_add_one₀ (by norm_num)]
  ring

/-- The digits are the nearest number of units in their last place; one place further it takes a
digit more. -/
theorem decimalDigits_spec (hcount : 0 < count) (hx : 0 < x) :
    NearestEven (x * (10 : ℚ) ^ ((count : ℤ) - 1 - (decimalDigits count x).2))
      (decimalDigits count x).1
      ∧ x * (10 : ℚ) ^ ((count : ℤ) - 1 - (decimalDigits count x).2) ≤ 10 ^ count
      ∧ 10 ^ (count - 1) ≤ (decimalDigits count x).1 ∧ (decimalDigits count x).1 < 10 ^ count
      ∧ 10 ^ count ≤ roundNearest (x * (10 : ℚ) ^ ((count : ℤ) - (decimalDigits count x).2)) := by
  have hlow := Int.zpow_log_le_self (b := 10) (by decide) hx
  have hhigh := Int.lt_zpow_succ_log_self (b := 10) (by decide) x
  generalize hplace : Int.log 10 x = place at hlow hhigh
  have hpos : (0 : ℚ) < 10 ^ ((count : ℤ) - 1 - place) := by positivity
  have hscaled : ((10 ^ (count - 1) : ℕ) : ℚ) ≤ x * 10 ^ ((count : ℤ) - 1 - place) := by
    have hpow : (10 : ℚ) ^ place * 10 ^ ((count : ℤ) - 1 - place)
        = ((10 ^ (count - 1) : ℕ) : ℚ) := by
      rw [← zpow_add₀ (by norm_num), Nat.cast_pow, ← zpow_natCast]
      congr 1
      omega
    rw [← hpow]
    exact mul_le_mul_of_nonneg_right hlow hpos.le
  have hscaled' : x * 10 ^ ((count : ℤ) - 1 - place) < ((10 ^ count : ℕ) : ℚ) := by
    have hpow : (10 : ℚ) ^ (place + 1) * 10 ^ ((count : ℤ) - 1 - place)
        = ((10 ^ count : ℕ) : ℚ) := by
      rw [← zpow_add₀ (by norm_num), Nat.cast_pow, ← zpow_natCast]
      congr 1
      omega
    rw [← hpow]
    exact mul_lt_mul_of_pos_right hhigh hpos
  have hnext : x * (10 : ℚ) ^ ((count : ℤ) - place)
      = 10 * (x * 10 ^ ((count : ℤ) - 1 - place)) := by
    rw [← mul_ten_zpow_succ]
    congr 2
    ring
  have hlast : 10 * (x * (10 : ℚ) ^ ((count : ℤ) - 1 - (place + 1)))
      = x * 10 ^ ((count : ℤ) - 1 - place) := by
    rw [← mul_ten_zpow_succ]
    congr 2
    ring
  have hmul : 10 * 10 ^ (count - 1) = 10 ^ count := by rw [← pow_succ', Nat.sub_add_cancel hcount]
  have hmul' : (10 : ℚ) * ((10 ^ (count - 1) : ℕ) : ℚ) = ((10 ^ count : ℕ) : ℚ) := by
    exact_mod_cast hmul
  have hone : 1 ≤ 10 ^ (count - 1) := Nat.one_le_pow _ _ (by decide)
  have hround := nearestEven_roundNearest ((Nat.cast_nonneg _).trans hscaled)
  rw [decimalDigits, hplace]
  split
  · -- the carry out of the first digit
    rename_i hcarry
    have hexp : (count : ℤ) - (place + 1) = count - 1 - place := by ring
    dsimp only
    rw [hexp, hcarry]
    rw [hcarry] at hround
    have hnear := abs_le.mp hround.1
    refine ⟨?_, ?_, le_rfl, ?_, le_rfl⟩
    · have habs : |x * (10 : ℚ) ^ ((count : ℤ) - 1 - (place + 1)) - ((10 ^ (count - 1) : ℕ) : ℚ)|
          ≤ 1 / 20 :=
        abs_le.mpr ⟨by linarith, by linarith⟩
      refine ⟨by linarith, ?_⟩
      intro heq
      linarith
    · have hcast : ((10 ^ count : ℕ) : ℚ) = (10 : ℚ) ^ count := by push_cast; rfl
      have hnonneg : (0 : ℚ) ≤ ((10 ^ count : ℕ) : ℚ) := Nat.cast_nonneg _
      rw [← hcast]
      linarith
    · omega
  · rename_i hsame
    have hcast : ((10 ^ count : ℕ) : ℚ) = (10 : ℚ) ^ count := by push_cast; rfl
    dsimp only
    refine ⟨hround, by rw [← hcast]; exact hscaled'.le, hround.le_of_natCast_le hscaled, ?_, ?_⟩
    · exact lt_of_le_of_ne (hround.le_of_le_natCast hscaled'.le) hsame
    · rw [hnext]
      have hle : ((10 ^ count : ℕ) : ℚ) ≤ 10 * (x * 10 ^ ((count : ℤ) - 1 - place)) := by linarith
      exact (nearestEven_roundNearest ((Nat.cast_nonneg _).trans hle)).le_of_natCast_le hle

theorem decimalDigits_place (count : ℕ) (x : ℚ) :
    (decimalDigits count x).2 = Int.log 10 x ∨ (decimalDigits count x).2 = Int.log 10 x + 1 := by
  rw [decimalDigits]
  split
  · exact .inr rfl
  · exact .inl rfl

end Digits

section Bound

variable {x : ℚ} {count bound : ℕ} {place place' : ℤ}

/-- One place is left out where the digits exceed a bound of as many digits. -/
theorem largestPlace_decimalDigits (hx : 0 < x) (hcount : 0 < count)
    (hbound : 10 ^ (count - 1) ≤ bound) (hbound' : bound < 10 ^ count) :
    LargestPlace x bound (if bound < (decimalDigits count x).1
      then (count : ℤ) - 1 - (decimalDigits count x).2 - 1
        else (count : ℤ) - 1 - (decimalDigits count x).2) := by
  obtain ⟨hround, hle, -, -, hnext⟩ := decimalDigits_spec hcount hx
  have hpos : ∀ e : ℤ, 0 ≤ x * (10 : ℚ) ^ e := fun e => by positivity
  split
  · rename_i hlarge
    have hback : (count : ℤ) - 1 - (decimalDigits count x).2 - 1 + 1
        = count - 1 - (decimalDigits count x).2 := by ring
    refine ⟨⟨_, ?_, nearestEven_roundNearest (hpos _)⟩, _, hlarge, by rw [hback]; exact hround⟩
    refine le_trans ((nearestEven_roundNearest (hpos _)).le_of_le_natCast ?_) hbound
    have hstep := mul_ten_zpow_succ x ((count : ℤ) - 1 - (decimalDigits count x).2 - 1)
    rw [hback] at hstep
    have hmul : ((10 ^ (count - 1) : ℕ) : ℚ) * 10 = (10 : ℚ) ^ count := by
      rw [Nat.cast_pow, Nat.cast_ofNat, ← pow_succ, Nat.sub_add_cancel hcount]
    linarith
  · rename_i hsmall
    have hback : (count : ℤ) - 1 - (decimalDigits count x).2 + 1
        = count - (decimalDigits count x).2 := by ring
    refine ⟨⟨_, not_lt.mp hsmall, hround⟩, _, hbound'.trans_le hnext, ?_⟩
    rw [hback]
    exact nearestEven_roundNearest (hpos _)

namespace LargestPlace

theorem unique (hx : 0 ≤ x) (h : LargestPlace x bound place) (h' : LargestPlace x bound place') :
    place = place' := by
  have key : ∀ {s t : ℤ}, LargestPlace x bound s → LargestPlace x bound t → t ≤ s := by
    intro s t hs ht
    by_contra hlt
    obtain ⟨-, n, hn, hround⟩ := hs
    obtain ⟨⟨n', hn', hround'⟩, -⟩ := ht
    have hle : (10 : ℚ) ^ (s + 1) ≤ 10 ^ t := zpow_le_zpow_right₀ (by norm_num) (by omega)
    have hnn := hround.le_of_le hround' (mul_le_mul_of_nonneg_left hle hx)
    omega
  exact le_antisymm (key h' h) (key h h')

/-- The number does not round to zero there unless the bound is less than five. -/
theorem half_lt (h : LargestPlace x bound place) (hbound : 5 ≤ bound) :
    1 / 2 < x * (10 : ℚ) ^ place := by
  obtain ⟨-, n, hn, hround⟩ := h
  have hnear := abs_le.mp hround.1
  have hsix : (6 : ℚ) ≤ n := by exact_mod_cast hbound.trans_lt hn
  rw [mul_ten_zpow_succ] at hnear
  linarith

end LargestPlace

end Bound
