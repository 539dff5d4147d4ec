import Mathlib.Algebra.Order.Field.Rat
import Mathlib.Algebra.Order.AbsoluteValue.Basic
import Mathlib.Algebra.Group.Even
import Mathlib.Tactic.Linarith
import Mathlib.Tactic.NormNum
import Mathlib.Tactic.Ring

/-! Rounding to the nearest integer, and to the even one of two that are equally near. -/

/-- The nearest integer, or of two the even one. -/
def NearestEven (x : ℚ) (n : ℕ) : Prop := |x - n| ≤ 1 / 2 ∧ (|x - n| = 1 / 2 → Even n)

namespace NearestEven

variable {x f : ℚ} {m n q : ℕ}

theorem of_lt_half (hx : x = q + f) (h0 : 0 ≤ f) (hf : f < 1 / 2) : NearestEven x q := by
  have habs : |x - q| = f := by rw [hx, add_sub_cancel_left, abs_of_nonneg h0]
  refine ⟨by linarith, ?_⟩
  intro heq
  linarith

theorem of_half_lt (hx : x = q + f) (hf : 1 / 2 < f) (h1 : f < 1) : NearestEven x (q + 1) := by
  have hsub : x - ((q + 1 : ℕ) : ℚ) = -(1 - f) := by
    push_cast [hx]
    ring
  have habs : |x - ((q + 1 : ℕ) : ℚ)| = 1 - f := by rw [hsub, abs_neg, abs_of_nonneg (by linarith)]
  refine ⟨by linarith, ?_⟩
  intro heq
  linarith

theorem of_half (hx : x = q + 1 / 2) (hq : Even q) : NearestEven x q := by
  refine ⟨?_, fun _ => hq⟩
  rw [hx, add_sub_cancel_left, abs_of_nonneg (by norm_num)]

theorem of_half_odd (hx : x = q + 1 / 2) (hq : ¬ Even q) : NearestEven x (q + 1) := by
  refine ⟨?_, fun _ => Nat.even_add_one.mpr hq⟩
  have hsub : x - ((q + 1 : ℕ) : ℚ) = -(1 / 2) := by
    push_cast [hx]
    ring
  rw [hsub, abs_neg, abs_of_nonneg (by norm_num)]

theorem add_even (h : NearestEven x n) (hm : Even m) : NearestEven (m + x) (m + n) := by
  have hsub : (m : ℚ) + x - ((m + n : ℕ) : ℚ) = x - n := by
    push_cast
    ring
  unfold NearestEven
  rw [hsub]
  exact ⟨h.1, fun heq => hm.add (h.2 heq)⟩

theorem zero_iff (h : 0 ≤ x) : NearestEven x 0 ↔ x ≤ 1 / 2 := by
  unfold NearestEven
  rw [Nat.cast_zero, sub_zero, abs_of_nonneg h]
  exact and_iff_left fun _ => Even.zero

theorem unique (hm : NearestEven x m) (hn : NearestEven x n) : m = n := by
  have hm1 := abs_le.mp hm.1
  have hn1 := abs_le.mp hn.1
  rcases Nat.lt_trichotomy m n with hlt | heq | hgt
  · -- two neighbours with `x` in their middle, which are not both even
    have hle : (m : ℚ) + 1 ≤ n := by exact_mod_cast hlt
    have hxm : x - m = 1 / 2 := by linarith
    have hxn : x - n = -(1 / 2) := by linarith
    have hme := hm.2 (by rw [hxm, abs_of_nonneg (by norm_num)])
    have hne := hn.2 (by rw [hxn, abs_neg, abs_of_nonneg (by norm_num)])
    have hsucc : n = m + 1 := by
      have hcast : (n : ℚ) = (m + 1 : ℕ) := by
        push_cast
        linarith
      exact_mod_cast hcast
    rw [hsucc, Nat.even_add_one] at hne
    exact absurd hme hne
  · exact heq
  · have hle : (n : ℚ) + 1 ≤ m := by exact_mod_cast hgt
    have hxm : x - m = -(1 / 2) := by linarith
    have hxn : x - n = 1 / 2 := by linarith
    have hme := hm.2 (by rw [hxm, abs_neg, abs_of_nonneg (by norm_num)])
    have hne := hn.2 (by rw [hxn, abs_of_nonneg (by norm_num)])
    have hsucc : m = n + 1 := by
      have hcast : (m : ℚ) = (n + 1 : ℕ) := by
        push_cast
        linarith
      exact_mod_cast hcast
    rw [hsucc, Nat.even_add_one] at hme
    exact absurd hne hme

end NearestEven
