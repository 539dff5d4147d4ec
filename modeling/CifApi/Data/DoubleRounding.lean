import CifApi.Data.NearestEven
import Mathlib.Tactic.FieldSimp
import Mathlib.Tactic.Positivity
import Mathlib.Algebra.Order.Field.Power

/-! Rounding to the fifty-three binary digits of a `double`. -/
namespace CifApi

/-- The mantissa and the exponent denote the number rounded to `DBL_MANT_DIG` binary digits, to the
nearest and to the even one of two. -/
def RoundsBinary (v : ℚ) (mantissaBits : Nat) (exponent : Int) : Prop :=
  ∃ (q : Int) (N : Nat), 2 ^ 52 * (2 : ℚ) ^ q ≤ v ∧ v < 2 ^ 53 * (2 : ℚ) ^ q
    ∧ NearestEven (v / (2 : ℚ) ^ q) N ∧ mantissaBits * (2 : ℚ) ^ exponent = N * (2 : ℚ) ^ q

/-- Halfway between two neighbours of `DBL_MANT_DIG` binary digits, of which the lower one is
odd. -/
def HalfwayOdd (v : ℚ) : Prop := ∃ (u : Nat) (q : Int), v = u * (2 : ℚ) ^ q ∧ u % 4 = 3 ∧ 2 ^ 53 < u
    ∧ u < 2 ^ 54

section Binary

variable {x y f : ℚ} {p q : Int} {M : Nat}

/-- A scaling into the binades is unique. -/
theorem binade_unique (hx : 2 ^ 52 ≤ x) (hx' : x < 2 ^ 53) (hy : 2 ^ 52 ≤ y) (hy' : y < 2 ^ 53)
    (heq : x * (2 : ℚ) ^ p = y * (2 : ℚ) ^ q) : p = q := by
  have hlt : ∀ {x y : ℚ} {p q : Int}, 2 ^ 52 ≤ x → y < 2 ^ 53 → x * (2 : ℚ) ^ p = y * (2 : ℚ) ^ q →
      p < q + 1 := by
    intro x y p q hx hy heq
    have hp : (0 : ℚ) < 2 ^ p := by positivity
    have hq : (0 : ℚ) < 2 ^ q := by positivity
    have hpow : (2 : ℚ) ^ 52 * 2 ^ p < 2 ^ 52 * 2 ^ (q + 1) := by
      calc (2 : ℚ) ^ 52 * 2 ^ p ≤ x * 2 ^ p := mul_le_mul_of_nonneg_right hx hp.le
        _ = y * 2 ^ q := heq
        _ < 2 ^ 53 * 2 ^ q := mul_lt_mul_of_pos_right hy hq
        _ = 2 ^ 52 * 2 ^ (q + 1) := by
          rw [zpow_add_one₀ (by norm_num)]
          ring
    have hlt := lt_of_mul_lt_mul_left hpow (by positivity)
    rwa [zpow_lt_zpow_iff_right₀ (by norm_num)] at hlt
  have hle := hlt hx hy' heq
  have hge := hlt hy hx' heq.symm
  omega

theorem roundsBinary_iff_nearestEven (hx : 2 ^ 52 ≤ x) (hx' : x < 2 ^ 53) (p : Int) (M : Nat) :
    RoundsBinary (x * (2 : ℚ) ^ p) M p ↔ NearestEven x M := by
  have hpos : ∀ q : Int, (0 : ℚ) < 2 ^ q := fun q => by positivity
  constructor
  · rintro ⟨q, N, hlow, hhigh, hnear, heq⟩
    have hscale : x * (2 : ℚ) ^ p / 2 ^ q * 2 ^ q = x * 2 ^ p := div_mul_cancel₀ _ (hpos q).ne'
    have hlow' : 2 ^ 52 ≤ x * (2 : ℚ) ^ p / 2 ^ q := (le_div_iff₀ (hpos q)).mpr hlow
    have hhigh' : x * (2 : ℚ) ^ p / 2 ^ q < 2 ^ 53 := (div_lt_iff₀ (hpos q)).mpr hhigh
    have hpq := binade_unique hx hx' hlow' hhigh' hscale.symm
    subst hpq
    have hMN : (M : ℚ) = N := mul_right_cancel₀ (hpos p).ne' heq
    rw [mul_div_assoc, div_self (hpos p).ne', mul_one] at hnear
    rw [Nat.cast_inj.mp hMN]
    exact hnear
  · intro hnear
    refine ⟨p, M, mul_le_mul_of_nonneg_right hx (hpos p).le, mul_lt_mul_of_pos_right hx' (hpos p),
      ?_, rfl⟩
    rw [mul_div_assoc, div_self (hpos p).ne', mul_one]
    exact hnear

/-- A natural number that is short enough is its own rounding. -/
theorem roundsBinary_natCast (h0 : M ≠ 0) (hM : M < 2 ^ 52) (p : Int) :
    RoundsBinary (M * (2 : ℚ) ^ p) M p := by
  have hlog : Nat.log2 M < 52 := (Nat.log2_lt h0).mpr hM
  have hlow := Nat.log2_self_le h0
  have hhigh : M < 2 ^ (Nat.log2 M + 1) := Nat.lt_log2_self
  generalize hj : 52 - Nat.log2 M = j
  have hpow : ((M * 2 ^ j : ℕ) : ℚ) * (2 : ℚ) ^ (p - j) = M * (2 : ℚ) ^ p := by
    rw [zpow_sub₀ (by norm_num), zpow_natCast]
    push_cast
    field_simp
  have hge : 2 ^ 52 ≤ M * 2 ^ j := by
    calc 2 ^ 52 = 2 ^ Nat.log2 M * 2 ^ j := by
          rw [← pow_add]
          congr 1
          omega
      _ ≤ M * 2 ^ j := Nat.mul_le_mul_right _ hlow
  have hlt : M * 2 ^ j < 2 ^ 53 := by
    calc M * 2 ^ j < 2 ^ (Nat.log2 M + 1) * 2 ^ j :=
      Nat.mul_lt_mul_of_pos_right hhigh (Nat.two_pow_pos j)
      _ = 2 ^ 53 := by
          rw [← pow_add]
          congr 1
          omega
  have hpos : (0 : ℚ) < 2 ^ (p - j : Int) := by positivity
  refine ⟨p - j, M * 2 ^ j, ?_, ?_, ?_, hpow.symm⟩
  · rw [← hpow]
    apply mul_le_mul_of_nonneg_right _ hpos.le
    exact_mod_cast hge
  · rw [← hpow]
    apply mul_lt_mul_of_pos_right _ hpos
    exact_mod_cast hlt
  · rw [← hpow, mul_div_assoc, div_self hpos.ne', mul_one]
    exact .of_lt_half (f := 0) (by rw [add_zero]) le_rfl (by norm_num)

theorem not_halfwayOdd_natCast (hM : M < 2 ^ 52) (p : Int) : ¬ HalfwayOdd (M * (2 : ℚ) ^ p) := by
  rintro ⟨u, q, heq, hodd, hlow, _⟩
  rcases le_total q p with hle | hge
  · obtain ⟨j, hj⟩ := Int.eq_ofNat_of_zero_le (sub_nonneg.mpr hle)
    have hp : p = q + j := by omega
    have hcast : (M : ℚ) * 2 ^ j = u := by
      have hq : (2 : ℚ) ^ q ≠ 0 := by positivity
      apply mul_right_cancel₀ hq
      rw [← heq, hp, zpow_add₀ (by norm_num), zpow_natCast]
      ring
    have hnat : M * 2 ^ j = u := by exact_mod_cast hcast
    cases j with
    | zero => omega
    | succ j =>
      rw [pow_succ, ← Nat.mul_assoc] at hnat
      omega
  · obtain ⟨j, hj⟩ := Int.eq_ofNat_of_zero_le (sub_nonneg.mpr hge)
    have hq : q = p + j := by omega
    have hcast : (M : ℚ) = u * 2 ^ j := by
      have hp : (2 : ℚ) ^ p ≠ 0 := by positivity
      apply mul_right_cancel₀ hp
      rw [heq, hq, zpow_add₀ (by norm_num), zpow_natCast]
      ring
    have hnat : M = u * 2 ^ j := by exact_mod_cast hcast
    have hle : u ≤ u * 2 ^ j := Nat.le_mul_of_pos_right _ (Nat.two_pow_pos j)
    omega

/-- Halfway, by the integer part and the fraction of a normalised mantissa. -/
theorem halfwayOdd_iff (hx : 2 ^ 52 ≤ x) (hx' : x < 2 ^ 53) (hsplit : x = M + f) (h0 : 0 ≤ f)
    (h1 : f < 1) (p : Int) :
    HalfwayOdd (x * (2 : ℚ) ^ p) ↔ f = 1 / 2 ∧ ¬ Even M := by
  constructor
  · rintro ⟨u, q, heq, hodd, hlow, hhigh⟩
    have hlow' : (2 : ℚ) ^ 52 ≤ u / 2 := by
      have hcast : ((2 ^ 53 : ℕ) : ℚ) < u := by exact_mod_cast hlow
      push_cast at hcast
      linarith
    have hhigh' : (u : ℚ) / 2 < 2 ^ 53 := by
      have hcast : (u : ℚ) < ((2 ^ 54 : ℕ) : ℚ) := by exact_mod_cast hhigh
      push_cast at hcast
      linarith
    have hscale : x * (2 : ℚ) ^ p = u / 2 * (2 : ℚ) ^ (q + 1) := by
      rw [heq, zpow_add_one₀ (by norm_num)]
      ring
    have hpq := binade_unique hx hx' hlow' hhigh' hscale
    have hxu : x = u / 2 := by
      rw [← hpq] at hscale
      exact mul_right_cancel₀ (by positivity) hscale
    obtain ⟨w, hw⟩ : ∃ w, u = 4 * w + 3 := ⟨u / 4, by omega⟩
    have hxw : (M : ℚ) + f = (2 * w + 1 : ℕ) + 1 / 2 := by
      rw [← hsplit, hxu, hw]
      push_cast
      ring
    have hM : M = 2 * w + 1 := by
      have hlt : (M : ℚ) < ((2 * w + 1 : ℕ) : ℚ) + 1 := by linarith
      have hgt : ((2 * w + 1 : ℕ) : ℚ) < (M : ℚ) + 1 := by linarith
      have hltn : M < 2 * w + 1 + 1 := by exact_mod_cast hlt
      have hgtn : 2 * w + 1 < M + 1 := by exact_mod_cast hgt
      omega
    refine ⟨?_, ?_⟩
    · rw [hM] at hxw
      linarith
    · rw [hM, Nat.even_add_one, not_not]
      exact even_two_mul w
  · rintro ⟨hf, hodd⟩
    obtain ⟨w, hw⟩ := Nat.not_even_iff_odd.mp hodd
    have hxu : x = (4 * w + 3 : ℕ) / 2 := by
      rw [hsplit, hf, hw]
      push_cast
      ring
    refine ⟨4 * w + 3, p - 1, ?_, by omega, ?_, ?_⟩
    · rw [hxu, zpow_sub_one₀ (by norm_num)]
      ring
    · have hlt : (2 : ℚ) ^ 53 - 1 < ((4 * w + 3 : ℕ) : ℚ) := by
        rw [hxu] at hx
        linarith
      have hcast : ((2 ^ 53 : ℕ) : ℚ) < ((4 * w + 3 + 1 : ℕ) : ℚ) := by
        push_cast at hlt ⊢
        linarith
      have hnat : 2 ^ 53 < 4 * w + 3 + 1 := by exact_mod_cast hcast
      omega
    · have hcast : ((4 * w + 3 : ℕ) : ℚ) < ((2 ^ 54 : ℕ) : ℚ) := by
        rw [hxu] at hx'
        push_cast at hx' ⊢
        linarith
      exact_mod_cast hcast

end Binary

end CifApi
