import Mathlib.Data.List.Basic

/-! Values given one after the other to the columns of rows, from the first column of a row to the
last. -/
namespace Rows

variable {α : Type*} {n i : Nat} {given : List α} {a : α}

/-- The value given to a column last: in the row begun, or else in the one before it. -/
def cell (n : Nat) (given : List α) (i : Nat) : Option α :=
  if i < given.length % n then given[given.length - given.length % n + i]?
  else if n ≤ given.length then given[given.length - given.length % n - n + i]?
  else none

@[simp] theorem cell_nil (n i : Nat) : cell n ([] : List α) i = none := by
  simp [cell]

/-- Where the next value goes. -/
theorem length_concat_mod (hn : 0 < n) (given : List α) (a : α) :
    (given.length % n + 1 = n ∧ (given ++ [a]).length % n = 0)
      ∨ (given.length % n + 1 < n ∧ (given ++ [a]).length % n = given.length % n + 1) := by
  have hlt := Nat.mod_lt given.length hn
  rw [List.length_append, List.length_singleton, Nat.add_mod_eq_ite]
  have hone : 1 % n = 1 ∨ n = 1 := by
    rcases Nat.lt_or_ge 1 n with h | h
    · exact .inl (Nat.mod_eq_of_lt h)
    · exact .inr (by omega)
  rcases hone with h | h
  · rw [h]
    split <;> omega
  · subst h
    simp [Nat.mod_one]

/-- One more value changes one column. -/
theorem cell_concat (hi : i < n) (given : List α) (a : α) :
    cell n (given ++ [a]) i = if i = given.length % n then some a else cell n given i := by
  have hmod := Nat.mod_le given.length n
  have hle : n ≤ given.length → given.length % n + n ≤ given.length := by
    intro h
    have hdiv := Nat.div_add_mod given.length n
    have hpos := Nat.div_pos h (by omega)
    have hmul : n * 1 ≤ n * (given.length / n) := Nat.mul_le_mul_left _ hpos
    omega
  have hsmall : given.length < n → given.length % n = given.length := Nat.mod_eq_of_lt
  rcases length_concat_mod (Nat.zero_lt_of_lt hi) given a with ⟨hlast, hnext⟩ | ⟨hmore, hnext⟩
  · have hfull : n ≤ (given ++ [a]).length := by
      rw [List.length_append, List.length_singleton]
      omega
    rw [cell, hnext, if_neg (Nat.not_lt_zero i), if_pos hfull, List.length_append,
      List.length_singleton]
    split
    · have hidx : given.length + 1 - 0 - n + i = given.length := by omega
      rw [hidx, List.getElem?_concat_length]
    · have hlt : i < given.length % n := by omega
      have hidx : given.length + 1 - 0 - n + i = given.length - given.length % n + i := by omega
      rw [hidx, cell, if_pos hlt, List.getElem?_append_left (by omega)]
  · rw [cell, hnext, List.length_append, List.length_singleton]
    split
    · split
      · have hidx : given.length + 1 - (given.length % n + 1) + i = given.length := by omega
        rw [hidx, List.getElem?_concat_length]
      · have hlt : i < given.length % n := by omega
        have hidx : given.length + 1 - (given.length % n + 1) + i
            = given.length - given.length % n + i := by omega
        rw [hidx, cell, if_pos hlt, List.getElem?_append_left (by omega)]
    · rename_i hge
      have hne : ¬ i = given.length % n := by omega
      have hold : ¬ i < given.length % n := by omega
      rw [if_neg hne, cell, if_neg hold]
      by_cases hfull : n ≤ given.length
      · have hidx : given.length + 1 - (given.length % n + 1) - n + i
            = given.length - given.length % n - n + i := by
          omega
        have hbound := hle hfull
        rw [if_pos hfull, if_pos (Nat.le_succ_of_le hfull), hidx,
          List.getElem?_append_left (by omega)]
      · have hsame := hsmall (Nat.lt_of_not_le hfull)
        have hshort : ¬ n ≤ given.length + 1 := by omega
        rw [if_neg hfull, if_neg hshort]

end Rows
