import CifApi.Data.Numeral
import Mathlib.Data.List.DropRight
import Mathlib.Tactic.LinearCombination

/-! Long division and multiplication of numerals, digit by digit. -/

namespace Numeral

variable {b n r : Nat} {l : List Nat}

/-- Long division by `n`, from the most significant digit on: the digits of the quotient, and the
remainder. What the digits before leave is `r`. -/
def divide (b n : Nat) : Nat → List Nat → List Nat × Nat
  | r, [] => ([], r)
  | r, d :: l =>
    let rest := divide b n ((r * b + d) % n) l
    ((r * b + d) / n :: rest.1, rest.2)

theorem length_divide (b n r : Nat) (l : List Nat) : (divide b n r l).1.length = l.length := by
  induction l generalizing r with
  | nil => rfl
  | cons d l ih => rw [divide, List.length_cons, ih, List.length_cons]

theorem divide_value (b n r : Nat) (l : List Nat) :
    value b (divide b n r l).1 * n + (divide b n r l).2 = r * b ^ l.length + value b l := by
  induction l generalizing r with
  | nil => simp [divide]
  | cons d l ih =>
    have hdiv := Nat.div_add_mod (r * b + d) n
    have hrest := ih ((r * b + d) % n)
    rw [divide, value_cons, length_divide, List.length_cons, value_cons]
    linear_combination hrest + b ^ l.length * hdiv

theorem divide_lt (h : ∀ d ∈ l, d < b) (hr : r < n) :
    (∀ d ∈ (divide b n r l).1, d < b) ∧ (divide b n r l).2 < n := by
  induction l generalizing r with
  | nil => exact ⟨by simp [divide], hr⟩
  | cons d l ih =>
    have hd := h d (List.mem_cons_self ..)
    have hlt : r * b + d < n * b := by
      have hle : (r + 1) * b ≤ n * b := Nat.mul_le_mul_right _ hr
      rw [Nat.add_mul, Nat.one_mul] at hle
      omega
    have hmod := Nat.mod_lt (r * b + d) (Nat.lt_of_le_of_lt (Nat.zero_le _) hr)
    obtain ⟨hdigits, hlast⟩ := ih (fun e he => h e (List.mem_cons_of_mem _ he)) hmod
    refine ⟨?_, hlast⟩
    intro e he
    rcases List.mem_cons.mp he with rfl | he
    · exact Nat.div_lt_of_lt_mul hlt
    · exact hdigits e he

/-- The digits of the fraction `r / n` until nothing is left. -/
def fraction (b n : Nat) : Nat → Nat → List Nat
  | 0, _ => []
  | fuel + 1, r => if r = 0 then [] else r * b / n :: fraction b n fuel (r * b % n)

theorem dvd_mod_mul_pow {k : Nat} (h : n ∣ r * b ^ (k + 1)) : n ∣ r * b % n * b ^ k := by
  have hmod : r * b % n * b ^ k % n = r * b * b ^ k % n := by
    rw [Nat.mul_mod, Nat.mod_mod, ← Nat.mul_mod]
  rw [Nat.dvd_iff_mod_eq_zero, hmod, Nat.mul_assoc, ← pow_succ', ← Nat.dvd_iff_mod_eq_zero]
  exact h

theorem fraction_value {fuel : Nat} (hr : r < n) (h : n ∣ r * b ^ fuel) :
    value b (fraction b n fuel r) * n = r * b ^ (fraction b n fuel r).length := by
  induction fuel generalizing r with
  | zero =>
    rw [pow_zero, Nat.mul_one] at h
    rw [Nat.eq_zero_of_dvd_of_lt h hr]
    simp [fraction]
  | succ fuel ih =>
    rw [fraction]
    split
    · rename_i hzero
      simp [hzero]
    · have hdiv := Nat.div_add_mod (r * b) n
      have hvalue := ih (Nat.mod_lt _ (Nat.lt_of_le_of_lt (Nat.zero_le _) hr)) (dvd_mod_mul_pow h)
      rw [value_cons, List.length_cons, pow_succ]
      linear_combination hvalue + b ^ (fraction b n fuel (r * b % n)).length * hdiv

theorem fraction_lt {fuel : Nat} (hb : 0 < b) (hr : r < n) : ∀ d ∈ fraction b n fuel r, d < b := by
  induction fuel generalizing r with
  | zero => simp [fraction]
  | succ fuel ih =>
    rw [fraction]
    split
    · simp
    · intro d hd
      rcases List.mem_cons.mp hd with rfl | hd
      · exact Nat.div_lt_of_lt_mul (Nat.mul_lt_mul_of_pos_right hr hb)
      · exact ih (Nat.mod_lt _ (Nat.lt_of_le_of_lt (Nat.zero_le _) hr)) d hd

/-- A fraction has no more digits than it takes. -/
theorem length_fraction_le {k : Nat} (fuel : Nat) (hr : r < n) (h : n ∣ r * b ^ k) :
    (fraction b n fuel r).length ≤ k := by
  induction fuel generalizing r k with
  | zero => exact Nat.zero_le _
  | succ fuel ih =>
    rw [fraction]
    split
    · exact Nat.zero_le _
    · rename_i hne
      cases k with
      | zero =>
        rw [pow_zero, Nat.mul_one] at h
        exact absurd (Nat.eq_zero_of_dvd_of_lt h hr) hne
      | succ k =>
        rw [List.length_cons]
        exact Nat.succ_le_succ
          (ih (Nat.mod_lt _ (Nat.lt_of_le_of_lt (Nat.zero_le _) hr)) (dvd_mod_mul_pow h))

/-- Multiplication by `n`, from the least significant digit on: the digits of the product, and the
carry. -/
def multiply (b n : Nat) : List Nat → List Nat × Nat
  | [] => ([], 0)
  | d :: l =>
    let rest := multiply b n l
    ((d * n + rest.2) % b :: rest.1, (d * n + rest.2) / b)

theorem length_multiply (b n : Nat) (l : List Nat) : (multiply b n l).1.length = l.length := by
  induction l with
  | nil => rfl
  | cons d l ih => rw [multiply, List.length_cons, ih, List.length_cons]

theorem multiply_value (b n : Nat) (l : List Nat) :
    value b (multiply b n l).1 + (multiply b n l).2 * b ^ l.length = value b l * n := by
  induction l with
  | nil => simp [multiply]
  | cons d l ih =>
    have hdiv := Nat.div_add_mod (d * n + (multiply b n l).2) b
    rw [multiply, value_cons, length_multiply, List.length_cons, value_cons, pow_succ]
    linear_combination ih + b ^ l.length * hdiv

theorem multiply_lt (hb : 0 < b) (hn : 0 < n) (h : ∀ d ∈ l, d < b) :
    (∀ d ∈ (multiply b n l).1, d < b) ∧ (multiply b n l).2 < n := by
  induction l with
  | nil => exact ⟨by simp [multiply], hn⟩
  | cons d l ih =>
    have hd := h d (List.mem_cons_self ..)
    obtain ⟨hdigits, hcarry⟩ := ih fun e he => h e (List.mem_cons_of_mem _ he)
    have hlt : d * n + (multiply b n l).2 < b * n := by
      have hle : (d + 1) * n ≤ b * n := Nat.mul_le_mul_right _ hd
      rw [Nat.add_mul, Nat.one_mul] at hle
      omega
    refine ⟨?_, Nat.div_lt_of_lt_mul hlt⟩
    intro e he
    rcases List.mem_cons.mp he with rfl | he
    · exact Nat.mod_lt _ hb
    · exact hdigits e he

/-- The digits of a carry in front of the others. -/
def carryOver (b : Nat) : Nat → Nat → List Nat → List Nat
  | 0, _, l => l
  | fuel + 1, carry, l => if carry = 0 then l else carryOver b fuel (carry / b) (carry % b :: l)

theorem carryOver_value {fuel carry : Nat} (h : carry < b ^ fuel) (l : List Nat) :
    value b (carryOver b fuel carry l) = value b l + carry * b ^ l.length := by
  induction fuel generalizing carry l with
  | zero =>
    rw [pow_zero, Nat.lt_one_iff] at h
    simp [carryOver, h]
  | succ fuel ih =>
    rw [carryOver]
    split
    · rename_i hzero
      simp [hzero]
    · have hdiv := Nat.div_add_mod carry b
      have hlt : carry / b < b ^ fuel := Nat.div_lt_of_lt_mul (by rwa [pow_succ, Nat.mul_comm] at h)
      rw [ih hlt, value_cons, List.length_cons, pow_succ]
      linear_combination b ^ l.length * hdiv

theorem carryOver_lt {fuel carry : Nat} (hb : 0 < b) (h : ∀ d ∈ l, d < b) :
    ∀ d ∈ carryOver b fuel carry l, d < b := by
  induction fuel generalizing carry l with
  | zero => exact h
  | succ fuel ih =>
    rw [carryOver]
    split
    · exact h
    · apply ih
      intro d hd
      rcases List.mem_cons.mp hd with rfl | hd
      · exact Nat.mod_lt _ hb
      · exact h d hd

theorem carryOver_zero (b fuel : Nat) (l : List Nat) : carryOver b fuel 0 l = l := by
  cases fuel with
  | zero => rfl
  | succ fuel => rw [carryOver, if_pos rfl]

/-- A carry does not begin with zeroes. -/
theorem head_carryOver {fuel carry : Nat} (hcarry : carry ≠ 0) (h : carry < b ^ fuel)
    (l : List Nat) :
    ∃ d ∈ (carryOver b fuel carry l).head?, d ≠ 0 := by
  induction fuel generalizing carry l with
  | zero =>
    rw [pow_zero, Nat.lt_one_iff] at h
    exact absurd h hcarry
  | succ fuel ih =>
    rw [carryOver, if_neg hcarry]
    by_cases hquot : carry / b = 0
    · have hdiv := Nat.div_add_mod carry b
      rw [hquot, Nat.mul_zero, Nat.zero_add] at hdiv
      rw [hquot, carryOver_zero, hdiv]
      exact ⟨carry, rfl, hcarry⟩
    · exact ih hquot (Nat.div_lt_of_lt_mul (by rwa [pow_succ, Nat.mul_comm] at h)) _

/-- Zeroes in front do not count. -/
theorem value_dropWhile (b : Nat) (l : List Nat) : value b (l.dropWhile (· = 0)) = value b l := by
  induction l with
  | nil => rfl
  | cons d l ih =>
    by_cases hd : d = 0
    · rw [List.dropWhile_cons_of_pos (by simpa using hd), ih, value_cons, hd, Nat.zero_mul,
        Nat.zero_add]
    · rw [List.dropWhile_cons_of_neg (by simpa using hd)]

/-- Zeroes at the end are factors of the base. -/
theorem value_rdropWhile (b : Nat) (l : List Nat) :
    value b l
      = value b (l.rdropWhile (· = 0)) * b ^ (l.length - (l.rdropWhile (· = 0)).length) := by
  induction l using List.reverseRecOn with
  | nil => simp
  | append_singleton l d ih =>
    have hle := (List.rdropWhile_prefix (· = 0) l).length_le
    by_cases hd : d = 0
    · rw [List.rdropWhile_concat_pos _ _ _ (by simpa using hd), value_concat, hd, Nat.add_zero,
        List.length_append,
        List.length_singleton, Nat.sub_add_comm hle, pow_succ, ← Nat.mul_assoc, ← ih]
    · rw [List.rdropWhile_concat_neg _ _ _ (by simpa using hd), Nat.sub_self, pow_zero, Nat.mul_one]

end Numeral
