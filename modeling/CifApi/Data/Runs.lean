import Mathlib.Data.List.Induction
import Mathlib.Data.List.Infix
import Mathlib.Order.MinMax
import Mathlib.Tactic.Common

/-! Runs of one element in a list, neighbours in one, and the greatest of some numbers. -/

universe u

section Runs

variable {α : Type u} [DecidableEq α]

/-- The length of the longest run of `a`, where `n` of them come before. -/
def longestRun (a : α) : Nat → List α → Nat
  | n, [] => n
  | n, b :: l => if b = a then longestRun a (n + 1) l else max n (longestRun a 0 l)

omit [DecidableEq α] in
theorem replicate_infix_append_cons {a b : α} {n : Nat} {l l' : List α} (hb : b ≠ a) :
    List.replicate n a <:+: l ++ b :: l' ↔ List.replicate n a <:+: l
      ∨ List.replicate n a <:+: l' := by
  constructor
  · rintro ⟨before, after, heq⟩
    rw [List.append_assoc, List.append_eq_append_iff] at heq
    rcases heq with ⟨mid, rfl, hrun⟩ | ⟨mid, rfl, htail⟩
    · rw [List.append_eq_append_iff] at hrun
      rcases hrun with ⟨rest, rfl, _⟩ | ⟨rest, hrun, htail⟩
      · exact .inl ⟨before, rest, by simp⟩
      · cases rest with
        | nil =>
          rw [List.append_nil] at hrun
          exact .inl ⟨before, [], by simp [hrun]⟩
        | cons c rest =>
          obtain ⟨rfl, _⟩ := List.cons.inj htail
          have hmem : b ∈ List.replicate n a := hrun ▸ by simp
          exact absurd (List.eq_of_mem_replicate hmem) hb
    · cases mid with
      | nil =>
        cases n with
        | zero => exact .inr (List.nil_infix)
        | succ n =>
          rw [List.replicate_succ] at htail
          obtain ⟨rfl, _⟩ := List.cons.inj htail
          exact absurd rfl hb
      | cons c mid =>
        obtain ⟨rfl, rfl⟩ := List.cons.inj htail
        exact .inr ⟨mid, after, by simp⟩
  · rintro (⟨before, after, rfl⟩ | ⟨before, after, rfl⟩)
    · exact ⟨before, after ++ b :: l', by simp⟩
    · exact ⟨l ++ b :: before, after, by simp⟩

omit [DecidableEq α] in
theorem replicate_infix_replicate {a : α} {m n : Nat} :
    List.replicate m a <:+: List.replicate n a ↔ m ≤ n := by
  constructor
  · intro h
    simpa using h.length_le
  · intro h
    refine ⟨[], List.replicate (n - m) a, ?_⟩
    rw [List.nil_append, List.replicate_append_replicate, Nat.add_sub_cancel' h]

/-- A run is as long as the longest at most. -/
theorem le_longestRun {a : α} {m n : Nat} {l : List α} :
    m ≤ longestRun a n l ↔ List.replicate m a <:+: List.replicate n a ++ l := by
  induction l generalizing n with
  | nil => rw [longestRun, List.append_nil, replicate_infix_replicate]
  | cons b l ih =>
    by_cases hb : b = a
    · subst hb
      rw [longestRun, if_pos rfl, ih, List.replicate_succ', List.append_assoc,
        List.singleton_append]
    · have hrest := @ih 0
      rw [List.replicate_zero, List.nil_append] at hrest
      rw [longestRun, if_neg hb, le_max_iff, hrest, replicate_infix_append_cons hb,
        replicate_infix_replicate]

/-- The length of the run of `a` that a list ends with. -/
def trailingRun (a : α) (l : List α) : Nat := (l.reverse.takeWhile (· = a)).length

theorem trailingRun_concat (a b : α) (l : List α) :
    trailingRun a (l ++ [b]) = if b = a then trailingRun a l + 1 else 0 := by
  unfold trailingRun
  rw [List.reverse_append, List.reverse_singleton, List.singleton_append, List.takeWhile_cons]
  by_cases hb : b = a <;> simp [hb]

theorem le_trailingRun {a : α} {n : Nat} {l : List α} :
    n ≤ trailingRun a l ↔ List.replicate n a <:+ l := by
  induction l using List.reverseRecOn generalizing n with
  | nil => simp [trailingRun]
  | append_singleton l b ih =>
    rw [trailingRun_concat]
    cases n with
    | zero => simp
    | succ n =>
      rw [List.replicate_succ', List.suffix_concat_iff]
      by_cases hb : b = a
      · subst hb
        simp [ih]
      · simp [hb, Ne.symm hb]

theorem trailingRun_append_replicate {a : α} {l : List α} (h : l.getLast? ≠ some a) (n : Nat) :
    trailingRun a (l ++ List.replicate n a) = n := by
  induction n with
  | zero =>
    cases l using List.reverseRecOn with
    | nil => rfl
    | append_singleton l b =>
      have hb : b ≠ a := by simpa using h
      simp [trailingRun_concat, hb]
  | succ n ih => rw [List.replicate_succ', ← List.append_assoc, trailingRun_concat, if_pos rfl, ih]

/-- A run as long as one that is added to a list, which has none before, is reached only with its
end. -/
theorem eq_append_replicate {a : α} {n : Nat} {l x : List α} (hlast : l.getLast? ≠ some a)
    (hno : ¬ List.replicate n a <:+: l) (hx : x <+: l ++ List.replicate n a)
    (hrun : n ≤ trailingRun a x) :
    x = l ++ List.replicate n a := by
  rcases List.prefix_or_prefix_of_prefix hx (List.prefix_append l _) with hpre | ⟨rest, rfl⟩
  · exact absurd ((le_trailingRun.mp hrun).isInfix.trans hpre.isInfix) hno
  · rw [List.prefix_append_right_inj] at hx
    obtain ⟨hle, hrest⟩ := List.prefix_replicate_iff.mp hx
    rw [hrest, trailingRun_append_replicate hlast] at hrun
    rw [hrest, Nat.le_antisymm hle hrun]

end Runs

section Neighbours

variable {α : Type u} {a b c : α} {l l' : List α}

theorem pair_infix_cons : [a, b] <:+: c :: l ↔ (c = a ∧ l.head? = some b) ∨ [a, b] <:+: l := by
  rw [List.infix_cons_iff, List.cons_prefix_cons]
  cases l with
  | nil => simp
  | cons d l => simp [List.cons_prefix_cons, eq_comm]

/-- Neighbours in two lists put together are those in each of them, and those where they meet. -/
theorem pair_infix_append :
    [a, b] <:+: l ++ l' ↔ [a, b] <:+: l ∨ [a, b] <:+: l'
      ∨ (l.getLast? = some a ∧ l'.head? = some b) := by
  induction l with
  | nil => simp
  | cons c l ih =>
    rw [List.cons_append, pair_infix_cons, ih, pair_infix_cons]
    cases l with
    | nil => simp [or_comm]
    | cons d l =>
      simp only [List.cons_append, List.head?_cons, List.getLast?_cons_cons]
      exact or_assoc.symm

end Neighbours

/-- The greatest of some numbers, or zero. -/
def greatest (ns : List Nat) : Nat := ns.foldr max 0

theorem le_greatest {ns : List Nat} {n : Nat} (h : n ∈ ns) : n ≤ greatest ns := by
  induction ns with
  | nil => simp at h
  | cons m ns ih =>
    rcases List.mem_cons.mp h with rfl | hmem
    · exact le_max_left _ _
    · exact le_max_of_le_right (ih hmem)

theorem greatest_mem {ns : List Nat} (h : ns ≠ []) : greatest ns ∈ ns := by
  induction ns with
  | nil => exact absurd rfl h
  | cons m ns ih =>
    by_cases hnil : ns = []
    · simp [greatest, hnil]
    · have hmax : greatest (m :: ns) = max m (greatest ns) := rfl
      rcases max_choice m (greatest ns) with heq | heq
      · simp [hmax, heq]
      · rw [hmax, heq]
        exact List.mem_cons_of_mem _ (ih hnil)

/-- Something is no greater than the greatest just where it is no greater than one of them. -/
theorem le_greatest_iff {ns : List Nat} {n : Nat} (h : ns ≠ []) :
    n ≤ greatest ns ↔ ∃ m ∈ ns, n ≤ m :=
  ⟨fun hle => ⟨_, greatest_mem h, hle⟩, fun ⟨_, hm, hle⟩ => hle.trans (le_greatest hm)⟩
