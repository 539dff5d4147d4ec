import CifApi.Exec.Rules

/-! Disciplines: relations between the states before and after a run that sequencing, branching and
loops preserve. -/

universe u v w

namespace Exec

/-- What a run may do to the state: `step` when it answers, `halt` when it stops with a code. -/
structure Discipline (ε : Type w) (S : Type u) where
  step : S → S → Prop
  halt : ε → S → S → Prop
  refl : ∀ s, step s s
  trans : ∀ {s t r}, step s t → step t r → step s r
  step_halt : ∀ {e s t r}, step s t → halt e t r → halt e s r

variable {ε : Type w} {S : Type u} {α β τ ω ι : Type v}

/-- The discipline of a run from a state with `P`, which the run keeps. -/
def Discipline.within (d : Discipline ε S) (P : S → Prop) : Discipline ε S where
  step := fun s t => P s → d.step s t ∧ P t
  halt := fun e s t => P s → d.halt e s t
  refl := fun s hs => ⟨d.refl s, hs⟩
  trans := by
    intro s t r h h' hs
    obtain ⟨hst, ht⟩ := h hs
    obtain ⟨htr, hr⟩ := h' ht
    exact ⟨d.trans hst htr, hr⟩
  step_halt := by
    intro e s t r h h' hs
    obtain ⟨hst, ht⟩ := h hs
    exact d.step_halt hst (h' ht)

/-- Every run of `m` keeps to the discipline; `cut` tells whether it may exceed its bounds. -/
def Keeps (cut : Prop) (d : Discipline ε S) (m : Exec ε S α) : Prop :=
  ∀ s, Post cut m s (fun _ t => d.step s t) (fun e t => d.halt e s t)

namespace Keeps

variable {cut : Prop} {d : Discipline ε S} {m m' : Exec ε S α}

protected theorem pure (a : α) : Keeps cut d (pure a : Exec ε S α) := fun s => d.refl s

protected theorem read : Keeps cut d (read : Exec ε S S) := fun s => d.refl s

protected theorem stop {e : ε} (h : ∀ s, d.halt e s s) : Keeps cut d (stop e : Exec ε S α) := h

protected theorem modify {g : S → S} (h : ∀ s, d.step s (g s)) : Keeps cut d (modify g) := h

protected theorem update {g : S → α × S} (h : ∀ s, d.step s (g s).2) : Keeps cut d (update g) := h

protected theorem operate {g : S → Option (α × S)} (hends : cut ∨ ∀ s, g s ≠ none)
    (h : ∀ s a t, g s = some (a, t) → d.step s t) : Keeps cut d (operate g) := by
  intro s
  refine post_operate.mpr ⟨fun hnone => ?_, h s⟩
  exact hends.elim id fun hall => absurd hnone (hall s)

/-- The rest of a sequence starts in a state the first part has kept to the discipline. -/
protected theorem bind {f : α → Exec ε S β} (hm : Keeps cut d m) (hf : ∀ a, Keeps cut d (f a)) :
    Keeps cut d (m >>= f) := by
  intro s
  refine (hm s).bind fun a t ht => ?_
  exact (hf a t).imp (fun _ _ h => d.trans ht h) (fun _ _ h => d.step_halt ht h)

/-- The answer of a sequence that only goes on to give it. -/
theorem returned (hm : Keeps cut d m) (b : β) (s : S) :
    Post cut (m >>= fun _ => pure b) s (fun b' t => b' = b ∧ d.step s t)
      (fun e t => d.halt e s t) :=
  (hm s).bind fun _ _ ht => ⟨rfl, ht⟩

protected theorem ite {p : Prop} [Decidable p] (h : p → Keeps cut d m) (h' : ¬ p → Keeps cut d m') :
    Keeps cut d (if p then m else m') := by
  split
  · exact h ‹_›
  · exact h' ‹_›

protected theorem when {p : Prop} [Decidable p] {m : Exec ε S PUnit} (h : p → Keeps cut d m) :
    Keeps cut d (when p m) :=
  Keeps.ite h fun _ => Keeps.pure PUnit.unit

protected theorem ensure {g : S → S} (hm : Keeps cut d m) (hg : ∀ s, d.step s (g s))
    (hh : ∀ e s t, d.halt e s t → d.halt e s (g t)) : Keeps cut d (m.ensure g) := fun s =>
  post_ensure.mpr <| (hm s).imp (fun _ t h => d.trans h (hg t)) (fun e t h => hh e s t h)

protected theorem onStop {g : S → S} (hm : Keeps cut d m)
    (hh : ∀ e s t, d.halt e s t → d.halt e s (g t)) : Keeps cut d (m.onStop g) := fun s =>
  post_onStop.mpr <| (hm s).imp (fun _ _ h => h) (fun e t h => hh e s t h)

/-- A property that the discipline's steps keep may be assumed of the states in between. -/
protected theorem within {P : S → Prop} (hm : Keeps cut d m)
    (hP : ∀ s t, P s → d.step s t → P t) : Keeps cut (d.within P) m := by
  intro s
  refine (hm s).imp ?_ ?_
  · intro a t h hs
    exact ⟨h, hP s t hs h⟩
  · intro e t h _
    exact h

/-- A loop whose rounds keep to the discipline keeps to it. -/
protected theorem loop {bound : S → Nat} {body : τ → Exec ε S (τ ⊕ ω)}
    (h : ∀ t, Keeps True d (body t)) (t : τ) : Keeps True d (loop bound body t) := by
  intro s
  refine Ensures.loop (I := fun _ s' => d.step s s') ?_ (d.refl s)
  intro t s' hs
  refine (h t s').imp ?_ (fun _ _ hh => d.step_halt hs hh)
  rintro (t' | w) s'' h'
  · exact d.trans hs h'
  · exact d.trans hs h'

protected theorem fix {bound : S → Nat} {f : (ι → Exec ε S α) → ι → Exec ε S α}
    (h : ∀ self, (∀ i, Keeps True d (self i)) → ∀ i, Keeps True d (f self i)) (i : ι) :
    Keeps True d (fix bound f i) := fun _ =>
  Ensures.fix (P := fun _ _ => True) (Q := fun _ s _ t => d.step s t)
    (E := fun _ s e t => d.halt e s t)
    (fun self hself i s _ => h self (fun i t => hself i t trivial) i s) trivial

end Keeps

end Exec
