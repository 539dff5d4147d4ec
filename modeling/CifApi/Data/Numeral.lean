import Mathlib.Data.Nat.Digits.Lemmas
import Mathlib.Data.List.TakeWhile
import Mathlib.Tactic.Common
import Mathlib.Tactic.Ring

/-! Numbers in positional notation, with the most significant digit first. -/

universe u

namespace Numeral

variable {b : Nat} {l l' : List Nat}

/-- The number that digits denote. -/
def value (b : Nat) (l : List Nat) : Nat := Nat.ofDigits b l.reverse

@[simp] theorem value_nil : value b [] = 0 := rfl

@[simp] theorem value_singleton (b d : Nat) : value b [d] = d := Nat.ofDigits_singleton

theorem value_append (b : Nat) (l l' : List Nat) :
    value b (l ++ l') = value b l * b ^ l'.length + value b l' := by
  rw [value, List.reverse_append, Nat.ofDigits_append, List.length_reverse, Nat.add_comm,
    Nat.mul_comm]
  rfl

theorem value_cons (b d : Nat) (l : List Nat) :
    value b (d :: l) = d * b ^ l.length + value b l := by
  have happend := value_append b [d] l
  rwa [List.singleton_append, value_singleton] at happend

theorem value_concat (b d : Nat) (l : List Nat) : value b (l ++ [d]) = value b l * b + d := by
  rw [value_append, List.length_singleton, pow_one, value_singleton]

theorem value_lt (hb : 1 < b) (h : ∀ d ∈ l, d < b) : value b l < b ^ l.length := by
  have hlt := Nat.ofDigits_lt_base_pow_length (l := l.reverse) hb fun d hd =>
    h d (List.mem_reverse.mp hd)
  rwa [List.length_reverse] at hlt

theorem value_replicate_zero (b n : Nat) : value b (List.replicate n 0) = 0 := by
  rw [value, List.reverse_replicate, Nat.ofDigits_replicate_zero]

theorem value_append_replicate_zero (b n : Nat) (l : List Nat) :
    value b (l ++ List.replicate n 0) = value b l * b ^ n := by
  rw [value_append, value_replicate_zero, List.length_replicate, Nat.add_zero]

theorem value_eq_zero_iff (hb : 0 < b) : value b l = 0 ↔ ∀ d ∈ l, d = 0 := by
  induction l with
  | nil => simp
  | cons d l ih =>
    have hpow : b ^ l.length ≠ 0 := (Nat.pow_pos hb).ne'
    rw [value_cons, Nat.add_eq_zero_iff, ih, List.forall_mem_cons, Nat.mul_eq_zero,
      or_iff_left hpow]

theorem pow_le_value {d : Nat} (hd : d ≠ 0) (l : List Nat) : b ^ l.length ≤ value b (d :: l) := by
  have hle : 1 * b ^ l.length ≤ d * b ^ l.length := Nat.mul_le_mul_right _ (Nat.pos_of_ne_zero hd)
  rw [value_cons]
  omega

section Leading

variable {α : Type u} [DecidableEq α] {z : α} {s t : List α}

/-- A numeral without the zeroes before its first other digit, but never without its last digit. -/
def dropLeading (z : α) : List α → List α
  | [] => []
  | [a] => [a]
  | a :: c :: s => if a = z then dropLeading z (c :: s) else a :: c :: s

theorem dropLeading_eq_drop (z : α) (s : List α) :
    dropLeading z s = s.drop (min (s.length - 1) (s.takeWhile (· = z)).length) := by
  induction s with
  | nil => rfl
  | cons a s ih =>
    cases s with
    | nil => simp [dropLeading]
    | cons c s =>
      rw [dropLeading]
      split
      · rename_i ha
        have hrun : (a :: c :: s).takeWhile (· = z) = a :: (c :: s).takeWhile (· = z) :=
          List.takeWhile_cons_of_pos (by simpa using ha)
        rw [ih, hrun]
        simp only [List.length_cons, Nat.add_sub_cancel]
        rw [Nat.add_min_add_right, List.drop_succ_cons]
      · rename_i ha
        have hrun : (a :: c :: s).takeWhile (· = z) = [] :=
          List.takeWhile_cons_of_neg (by simpa using ha)
        rw [hrun]
        simp

theorem dropLeading_ne_nil (h : s ≠ []) : dropLeading z s ≠ [] := by
  have hlen := List.length_pos_iff.mpr h
  rw [dropLeading_eq_drop, ← List.length_pos_iff, List.length_drop]
  omega

theorem dropLeading_sublist (z : α) (s : List α) : (dropLeading z s).Sublist s := by
  rw [dropLeading_eq_drop]
  exact List.drop_sublist _ _

/-- A zero at the beginning is the only digit. -/
theorem length_dropLeading (h : (dropLeading z s).head? = some z) :
    (dropLeading z s).length = 1 := by
  induction s with
  | nil => simp [dropLeading] at h
  | cons a s ih =>
    cases s with
    | nil => rfl
    | cons c s =>
      rw [dropLeading] at h ⊢
      split
      · rename_i ha
        rw [if_pos ha] at h
        exact ih h
      · rename_i ha
        rw [if_neg ha] at h
        exact absurd (Option.some.inj h) ha

theorem dropLeading_append (hne : t ≠ []) (hs : ∀ a ∈ s, a = z) :
    dropLeading z (s ++ t) = dropLeading z t := by
  induction s with
  | nil => rfl
  | cons a s ih =>
    obtain ⟨c, r, hcr⟩ := List.exists_cons_of_ne_nil (List.append_ne_nil_of_right_ne_nil s hne)
    rw [List.cons_append, hcr, dropLeading, if_pos (hs a (List.mem_cons_self ..)), ← hcr]
    exact ih fun d hd => hs d (List.mem_cons_of_mem _ hd)

/-- The zeroes that are dropped do not matter. -/
theorem exists_dropLeading (z : α) (s : List α) :
    ∃ n, s = List.replicate n z ++ dropLeading z s := by
  induction s with
  | nil => exact ⟨0, rfl⟩
  | cons a s ih =>
    cases s with
    | nil => exact ⟨0, rfl⟩
    | cons c s =>
      rw [dropLeading]
      split
      · rename_i ha
        obtain ⟨n, hn⟩ := ih
        exact ⟨n + 1, by rw [List.replicate_succ, List.cons_append, ← hn, ha]⟩
      · exact ⟨0, rfl⟩

end Leading

end Numeral
