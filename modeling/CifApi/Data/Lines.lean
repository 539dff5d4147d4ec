import Mathlib.Tactic.Common

/-! The lines of a text that is written piece by piece. -/

namespace Lines

variable {α : Type*} (isBreak : α → Bool)

/-- The lines of a text; one that ends in a break has an empty last line. -/
def lines (text : List α) : List (List α) := text.splitOnP isBreak

/-- The line that is still being written. -/
def current (text : List α) : List α := (lines isBreak text).getLastD []

variable {isBreak} {text more line : List α}

theorem lines_nil : lines isBreak [] = [[]] := rfl

theorem lines_cons (x : α) (text : List α) : lines isBreak (x :: text)
    = if isBreak x then [] :: lines isBreak text else (lines isBreak text).modifyHead (x :: ·) :=
  List.splitOnP_cons_eq_if_modifyHead x text

theorem lines_ne_nil : lines isBreak text ≠ [] := List.splitOnP_ne_nil isBreak text

theorem getLastD_append_of_ne_nil {init rest : List (List α)} (h : rest ≠ []) :
    (init ++ rest).getLastD [] = rest.getLastD [] := by
  rw [List.getLastD_eq_getLast?, List.getLastD_eq_getLast?, List.getLast?_append,
    List.getLast?_eq_some_getLast h]
  rfl

/-- The first line of what is written next continues the current line. -/
theorem exists_lines_append : ∃ init head tail,
    lines isBreak text = init ++ [current isBreak text] ∧ lines isBreak more = head :: tail
      ∧ lines isBreak (text ++ more) = init ++ (current isBreak text ++ head) :: tail := by
  induction text with
  | nil =>
    obtain ⟨head, tail, hmore⟩ := List.exists_cons_of_ne_nil (@lines_ne_nil _ isBreak more)
    exact ⟨[], head, tail, rfl, hmore, by simpa [current, lines_nil] using hmore⟩
  | cons x text ih =>
    obtain ⟨init, head, tail, htext, hmore, happend⟩ := ih
    have hcurrent : current isBreak (x :: text) = if isBreak x ∨ init ≠ [] then current isBreak text
        else x :: current isBreak text := by
      rw [current, lines_cons, htext]
      cases init with
      | nil => cases isBreak x <;> rfl
      | cons first init =>
        cases isBreak x with
        | true => exact @getLastD_append_of_ne_nil _ ([] :: first :: init) _ (List.cons_ne_nil _ [])
        | false =>
          exact @getLastD_append_of_ne_nil _ ((x :: first) :: init) _ (List.cons_ne_nil _ [])
    cases hx : isBreak x with
    | true =>
      refine ⟨[] :: init, head, tail, ?_, hmore, ?_⟩
      · rw [lines_cons, htext, hcurrent]
        simp [hx]
      · rw [List.cons_append, lines_cons, happend, hcurrent]
        simp [hx]
    | false =>
      cases init with
      | nil =>
        refine ⟨[], head, tail, ?_, hmore, ?_⟩
        · rw [lines_cons, htext, hcurrent]
          simp [hx]
        · rw [List.cons_append, lines_cons, happend, hcurrent]
          simp [hx]
      | cons first init =>
        refine ⟨(x :: first) :: init, head, tail, ?_, hmore, ?_⟩
        · rw [lines_cons, htext, hcurrent]
          simp [hx]
        · rw [List.cons_append, lines_cons, happend, hcurrent]
          simp [hx]

/-- A text without a break is one line. -/
theorem lines_of_unbroken (h : ∀ x ∈ text, isBreak x = false) : lines isBreak text = [text] := by
  induction text with
  | nil => rfl
  | cons x text ih =>
    rw [lines_cons, h x (by simp), ih fun y hy => h y (by simp [hy])]
    rfl

theorem unbroken_of_lines (h : lines isBreak text = [line]) : ∀ x ∈ text, isBreak x = false := by
  induction text generalizing line with
  | nil => simp
  | cons x text ih =>
    rw [lines_cons] at h
    cases hx : isBreak x with
    | true => simp [hx, lines_ne_nil] at h
    | false =>
      obtain ⟨first, rest, hrest⟩ := List.exists_cons_of_ne_nil (@lines_ne_nil _ isBreak text)
      simp only [hx, hrest, Bool.false_eq_true, if_false, List.modifyHead_cons,
        List.cons.injEq] at h
      intro y hy
      rcases List.mem_cons.mp hy with rfl | hy
      · exact hx
      · exact ih (hrest.trans (by rw [h.2])) y hy

theorem unbroken_of_mem (h : line ∈ lines isBreak text) : ∀ x ∈ line, isBreak x = false := by
  induction text generalizing line with
  | nil => simp_all [lines_nil]
  | cons x text ih =>
    obtain ⟨first, rest, hrest⟩ := List.exists_cons_of_ne_nil (@lines_ne_nil _ isBreak text)
    rw [lines_cons] at h
    cases hx : isBreak x with
    | true =>
      rw [if_pos hx] at h
      rcases List.mem_cons.mp h with rfl | h
      · simp
      · exact ih h
    | false =>
      rw [hx, hrest, if_neg Bool.false_ne_true, List.modifyHead_cons] at h
      rcases List.mem_cons.mp h with rfl | h
      · intro y hy
        rcases List.mem_cons.mp hy with rfl | hy
        · exact hx
        · exact ih (hrest ▸ List.mem_cons_self ..) y hy
      · exact ih (hrest ▸ List.mem_cons_of_mem _ h)

theorem lines_break (x : α) (hx : isBreak x = true) (text : List α) :
    lines isBreak (x :: text) = [] :: lines isBreak text := by
  rw [lines_cons, if_pos hx]

/-- A break ends the current line. -/
theorem lines_append_break (x : α) (hx : isBreak x = true) :
    lines isBreak (text ++ x :: more) = lines isBreak text ++ lines isBreak more := by
  obtain ⟨init, head, tail, htext, hmore, happend⟩ :=
    @exists_lines_append _ isBreak text (x :: more)
  rw [lines_break x hx] at hmore
  cases hmore
  rw [happend, htext, List.append_nil, List.append_assoc]
  rfl

/-- The lines of a text whose lines all end in the same break, with what follows it. -/
theorem lines_terminated {segments : List (List α)} (x : α) (hx : isBreak x = true)
    (h : ∀ segment ∈ segments, ∀ y ∈ segment, isBreak y = false) :
    lines isBreak (segments.flatMap (· ++ [x]) ++ more) = segments ++ lines isBreak more := by
  induction segments with
  | nil => rfl
  | cons segment segments ih =>
    rw [List.flatMap_cons, List.append_assoc, List.append_assoc, List.singleton_append,
      lines_append_break x hx,
      lines_of_unbroken (h segment (by simp)), ih fun s hs => h s (by simp [hs])]
    rfl

theorem lines_unbroken_append (h : ∀ x ∈ text, isBreak x = false) :
    lines isBreak (text ++ more) = (lines isBreak more).modifyHead (text ++ ·) := by
  induction text with
  | nil =>
    rw [List.nil_append]
    cases lines isBreak more <;> rfl
  | cons x text ih =>
    rw [List.cons_append, lines_cons, h x (by simp), ih fun y hy => h y (by simp [hy])]
    cases lines isBreak more <;> rfl

theorem lines_map {β : Type*} {isBreak' : β → Bool} {f : α → β}
    (h : ∀ x, isBreak' (f x) = isBreak x) :
    lines isBreak' (text.map f) = (lines isBreak text).map (List.map f) := by
  induction text with
  | nil => rfl
  | cons x text ih =>
    rw [List.map_cons, lines_cons, lines_cons, h, ih]
    cases isBreak x with
    | true => rfl
    | false => cases lines isBreak text <;> rfl

theorem current_append_of_unbroken (h : ∀ x ∈ more, isBreak x = false) :
    current isBreak (text ++ more) = current isBreak text ++ more := by
  obtain ⟨init, head, tail, _, hmore, happend⟩ := @exists_lines_append _ isBreak text more
  rw [lines_of_unbroken h] at hmore
  cases hmore
  rw [current, happend]
  simp

/-- How long the current line is after a text is written on. -/
theorem length_current_append : (current isBreak (text ++ more)).length
    = if (lines isBreak more).tail = [] then (current isBreak text).length + more.length
      else (current isBreak more).length := by
  obtain ⟨init, head, tail, _, hmore, happend⟩ := @exists_lines_append _ isBreak text more
  cases tail with
  | nil =>
    have hbreak : ∀ x ∈ more, isBreak x = false := unbroken_of_lines hmore
    rw [lines_of_unbroken hbreak, current_append_of_unbroken hbreak, List.length_append]
    rfl
  | cons next tail =>
    have hne : (lines isBreak more).tail ≠ [] := by simp [hmore]
    rw [if_neg hne, current, current, happend, hmore, List.append_cons,
      getLastD_append_of_ne_nil (List.cons_ne_nil _ _)]
    rfl

/-- The lines after a text is written on: old ones, the current one with its continuation, and new
ones. -/
theorem forall_lines_append {P : List α → Prop} (hold : ∀ line ∈ lines isBreak text, P line)
    (hfirst : ∀ head, (lines isBreak more).head? = some head → P (current isBreak text ++ head))
    (hnew : ∀ line ∈ (lines isBreak more).tail, P line) :
    ∀ line ∈ lines isBreak (text ++ more), P line := by
  obtain ⟨init, head, tail, htext, hmore, happend⟩ := @exists_lines_append _ isBreak text more
  rw [happend]
  intro line hline
  simp only [List.mem_append, List.mem_cons] at hline
  rcases hline with hinit | rfl | htail
  · exact hold line (by rw [htext]; exact List.mem_append_left _ hinit)
  · exact hfirst head (by rw [hmore]; rfl)
  · exact hnew line (by rw [hmore]; exact htail)

theorem current_mem_lines : current isBreak text ∈ lines isBreak text := by
  obtain ⟨init, _, _, htext, _, _⟩ := @exists_lines_append _ isBreak text []
  rw [htext]
  simp

/-- A line between the breaks of what is written is a line of the whole. -/
theorem mem_lines_append (h : line ∈ (lines isBreak more).tail) :
    line ∈ lines isBreak (text ++ more) := by
  obtain ⟨init, head, tail, _, hmore, happend⟩ := @exists_lines_append _ isBreak text more
  rw [hmore] at h
  rw [happend]
  exact List.mem_append_right _ (List.mem_cons_of_mem _ h)

end Lines
