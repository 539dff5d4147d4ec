import Mathlib.Data.List.Basic

/-! What the answers of callbacks leave of a depth-first traversal, as one who watches the calls can
tell. -/

universe u

namespace Skipping

/-- An answer of a callback. -/
inductive Answer where
  | goOn | skipCurrent | skipSiblings
  deriving DecidableEq

/-- An element that has been entered and not left: whether its start has been called, and whether
what is left inside it is skipped. -/
structure Level (κ : Type u) where
  kind : κ
  begun : Bool
  skipped : Bool
  deriving DecidableEq

/-- What is seen of a traversal: elements entered and left, and the calls of callbacks. -/
inductive Sight (κ : Type u) where
  | enter (kind : κ)
  | leave (kind : κ)
  | start (kind : κ) (answer : Answer)
  | leaf (answer : Answer)
  | finish (kind : κ) (answer : Answer)
  deriving DecidableEq

variable {κ : Type u} {level : Level κ} {levels : List (Level κ)}

/-- Whether the answer asks for what comes after the element to be skipped. -/
def Sight.skipsSiblings : Sight κ → Bool
  | .start _ .skipSiblings | .leaf .skipSiblings | .finish _ .skipSiblings => true
  | _ => false

def Level.entered (kind : κ) : Level κ := ⟨kind, false, false⟩

/-- Nothing that is done next is inside something skipped. -/
def Open (levels : List (Level κ)) : Prop := ∀ level ∈ levels, level.skipped = false

instance : Decidable (Open levels) :=
  inferInstanceAs (Decidable (∀ level ∈ levels, level.skipped = false))

/-- Skips what is left inside the innermost element. -/
def skipRest : List (Level κ) → List (Level κ)
  | [] => []
  | level :: levels => { level with skipped := true } :: levels

/-- The elements not yet left, innermost first, after one more thing seen. -/
def after (levels : List (Level κ)) : Sight κ → List (Level κ)
  | .enter kind => .entered kind :: levels
  | .leave _ => levels.tail
  | .start _ answer =>
    match levels, answer with
    | [], _ => []
    | level :: outer, .goOn => { level with begun := true } :: outer
    | level :: outer, .skipCurrent => { level with begun := true, skipped := true } :: outer
    | level :: outer, .skipSiblings =>
      { level with begun := true, skipped := true } :: skipRest outer
  | .leaf answer => if answer = .skipSiblings then skipRest levels else levels
  | .finish _ answer =>
    match levels, answer with
    | level :: outer, .skipSiblings => level :: skipRest outer
    | levels, _ => levels

/-- The elements not yet left after all that has been seen, newest first. -/
def openLevels : List (Sight κ) → List (Level κ)
  | [] => []
  | sight :: sights => after (openLevels sights) sight

/-- The calls that the answers so far leave: each belongs to the innermost element, the start of an
element comes before its end, and nothing inside something skipped is called. -/
def Permitted (levels : List (Level κ)) : Sight κ → Prop
  | .enter _ => True
  | .leave kind => ∃ level ∈ levels.head?, level.kind = kind
  | .start kind _ => ∃ level ∈ levels.head?, level.kind = kind ∧ level.begun = false ∧ Open levels
  | .leaf _ => Open levels
  | .finish kind _ => ∃ level ∈ levels.head?, level.kind = kind ∧ level.begun = true
    ∧ Open levels.tail

instance decidablePermitted [DecidableEq κ] (levels : List (Level κ)) :
    ∀ sight, Decidable (Permitted levels sight)
  | .enter _ => isTrue trivial
  | .leave kind => inferInstanceAs (Decidable (∃ level ∈ levels.head?, level.kind = kind))
  | .start kind _ =>
    inferInstanceAs (Decidable (∃ level ∈ levels.head?, level.kind = kind ∧ level.begun = false
    ∧ Open levels))
  | .leaf _ => inferInstanceAs (Decidable (Open levels))
  | .finish kind _ =>
    inferInstanceAs (Decidable (∃ level ∈ levels.head?, level.kind = kind ∧ level.begun = true
      ∧ Open levels.tail))

/-- All that has been seen is permitted, but for what is exempt. -/
def Follows (exempt : List (Level κ) → Sight κ → Prop) : List (Sight κ) → Prop
  | [] => True
  | sight :: sights =>
    Follows exempt sights ∧ (Permitted (openLevels sights) sight ∨ exempt (openLevels sights) sight)

instance decidableFollows [DecidableEq κ] {exempt : List (Level κ) → Sight κ → Prop}
    [∀ levels sight, Decidable (exempt levels sight)] : ∀ sights, Decidable (Follows exempt sights)
  | [] => isTrue trivial
  | _ :: sights =>
    have : Decidable (Follows exempt sights) := decidableFollows sights
    inferInstanceAs (Decidable (_ ∧ _))

/-- No answer from inside something skipped asks for more to be skipped. -/
def Undisturbed : List (Sight κ) → Prop
  | [] => True
  | sight :: sights => Undisturbed sights ∧ (sight = .leaf .skipSiblings → Open (openLevels sights))

/-- How many elements are to be left before anything can be called. -/
def pending : List (Level κ) → Nat
  | [] => 0
  | level :: levels =>
    if 0 < pending levels then pending levels + 1
    else if level.skipped = true then 1
    else 0

@[simp] theorem head?_after_finish (levels : List (Level κ)) (kind : κ) (answer : Answer) :
    (after levels (.finish kind answer)).head? = levels.head? := by
  cases levels <;> cases answer <;> rfl

theorem undisturbed_of_append {newer older : List (Sight κ)} (h : Undisturbed (newer ++ older)) :
    Undisturbed older := by
  induction newer with
  | nil => exact h
  | cons _ _ ih => exact ih h.1

section Pending

theorem open_cons : Open (level :: levels) ↔ level.skipped = false ∧ Open levels :=
  List.forall_mem_cons

theorem pending_eq_zero_iff : pending levels = 0 ↔ Open levels := by
  induction levels with
  | nil => simp [pending, Open]
  | cons level levels ih =>
    rw [open_cons, ← ih, pending]
    split
    · omega
    · split <;> simp_all

/-- One who enters an element goes one deeper into what is skipped. -/
theorem pending_entered (kind : κ) :
    pending (.entered kind :: levels) = if 0 < pending levels then pending levels + 1
      else pending levels := by
  rw [pending]
  split
  · rfl
  · simp only [Level.entered, Bool.false_eq_true, if_false]
    omega

/-- One who leaves an element comes one level closer to the end of what is skipped. -/
theorem pending_tail : pending levels.tail = pending levels - 1 := by
  cases levels with
  | nil => rfl
  | cons level levels =>
    rw [List.tail_cons, pending]
    split
    · omega
    · split <;> omega

theorem pending_skipRest (h : levels ≠ []) :
    pending (skipRest levels) = if 0 < pending levels then pending levels else 1 := by
  cases levels with
  | nil => exact absurd rfl h
  | cons level levels =>
    simp only [skipRest, pending, if_true]
    split
    · rw [if_pos (Nat.succ_pos _)]
    · split <;> simp

/-- To skip an element with what comes after it leaves two elements to be left. -/
theorem pending_skipSiblings (level : Level κ) (hne : levels ≠ []) (h : pending levels = 0) :
    pending ({ level with begun := true, skipped := true } :: skipRest levels) = 2 := by
  have hrest := pending_skipRest hne
  rw [if_neg (by omega)] at hrest
  simp [pending, hrest]

@[simp] theorem skipRest_skipRest : skipRest (skipRest levels) = skipRest levels := by
  cases levels <;> rfl

@[simp] theorem skipRest_eq_nil : skipRest levels = [] ↔ levels = [] := by
  cases levels <;> simp [skipRest]

@[simp] theorem tail_skipRest : (skipRest levels).tail = levels.tail := by
  cases levels <;> rfl

end Pending

end Skipping
