import CifApi.Exec.Basic

/-! Rules for what holds after a run: partial (`Ensures`) and total (`Halts`). -/

universe u v w

namespace Exec

variable {ε : Type w} {S : Type u} {α β τ ω ι : Type v}

/-- `Q` of an answer, `E` of a code, and `cut` when the run exceeds its bounds. -/
def Post (cut : Prop) (m : Exec ε S α) (s : S) (Q : α → S → Prop) (E : ε → S → Prop) : Prop :=
  match m s with
  | none => cut
  | some (.ok a, t) => Q a t
  | some (.error e, t) => E e t

/-- Partial correctness: a run that stays within its bounds ends in `Q` or `E`. -/
abbrev Ensures (m : Exec ε S α) (s : S) (Q : α → S → Prop) (E : ε → S → Prop) : Prop :=
  Post True m s Q E

/-- Total correctness: the run stays within its bounds and ends in `Q` or `E`. -/
abbrev Halts (m : Exec ε S α) (s : S) (Q : α → S → Prop) (E : ε → S → Prop) : Prop :=
  Post False m s Q E

section Sequence

variable {cut : Prop} {s : S} {Q Q' : α → S → Prop} {R : β → S → Prop} {E E' : ε → S → Prop}

@[simp] theorem post_pure {a : α} : Post cut (pure a : Exec ε S α) s Q E ↔ Q a s := Iff.rfl

@[simp] theorem post_stop {e : ε} : Post cut (stop e : Exec ε S α) s Q E ↔ E e s := Iff.rfl

@[simp] theorem post_diverge : Post cut (diverge : Exec ε S α) s Q E ↔ cut := Iff.rfl

@[simp] theorem post_read {Q : S → S → Prop} : Post cut (read : Exec ε S S) s Q E ↔ Q s s := Iff.rfl

@[simp] theorem post_modify {Q : PUnit → S → Prop} {g : S → S} :
    Post cut (modify g : Exec ε S PUnit) s Q E ↔ Q ⟨⟩ (g s) := Iff.rfl

@[simp] theorem post_update {g : S → α × S} :
    Post cut (update g : Exec ε S α) s Q E ↔ Q (g s).1 (g s).2 := Iff.rfl

theorem post_operate {g : S → Option (α × S)} :
    Post cut (operate g : Exec ε S α) s Q E ↔ (g s = none → cut) ∧ ∀ a t, g s = some (a, t) →
      Q a t := by
  rw [Post, operate_apply]
  rcases g s with _ | ⟨a, t⟩
  · simp
  · simp

theorem post_bind {m : Exec ε S α} {f : α → Exec ε S β} :
    Post cut (m >>= f) s R E ↔ Post cut m s (fun a t => Post cut (f a) t R E) E := by
  simp only [Post, bind_apply]
  rcases m s with _ | ⟨_ | _, _⟩ <;> rfl

@[simp] theorem post_when {p : Prop} [Decidable p] {m : Exec ε S PUnit} {Q : PUnit → S → Prop} :
    Post cut (when p m) s Q E ↔ (p → Post cut m s Q E) ∧ (¬ p → Q ⟨⟩ s) := by
  by_cases h : p <;> simp only [when, h, if_true, if_false, true_implies, not_true, not_false_iff,
    false_implies, and_true, true_and]
  exact Iff.rfl

theorem post_ite {p : Prop} [Decidable p] {m m' : Exec ε S α} :
    Post cut (if p then m else m') s Q E ↔ (p → Post cut m s Q E) ∧ (¬ p → Post cut m' s Q E) := by
  by_cases h : p <;> simp [h]

theorem post_map {m : Exec ε S α} {f : α → β} :
    Post cut (f <$> m) s R E ↔ Post cut m s (fun a t => R (f a) t) E := by
  rw [← bind_pure_comp, post_bind]
  rfl

theorem post_onStop {m : Exec ε S α} {g : S → S} :
    Post cut (m.onStop g) s Q E ↔ Post cut m s Q (fun e t => E e (g t)) := by
  simp only [Post, onStop_apply]
  rcases m s with _ | ⟨_ | _, _⟩ <;> rfl

theorem post_recode {m : Exec ε S α} {f : ε → ε} :
    Post cut (m.recode f) s Q E ↔ Post cut m s Q (fun e t => E (f e) t) := by
  simp only [Post, recode_apply]
  rcases m s with _ | ⟨_ | _, _⟩ <;> rfl

theorem post_ensure {m : Exec ε S α} {g : S → S} :
    Post cut (m.ensure g) s Q E ↔ Post cut m s (fun a t => Q a (g t)) (fun e t => E e (g t)) := by
  simp only [Post, ensure_apply]
  rcases m s with _ | ⟨_ | _, _⟩ <;> rfl

theorem post_attempt {m : Exec ε S α} {Q : Except ε α → S → Prop} :
    Post cut (attempt m) s Q E ↔ Post cut m s (fun a t => Q (.ok a) t)
      (fun e t => Q (.error e) t) := by
  simp only [Post, attempt_apply]
  rcases m s with _ | ⟨_ | _, _⟩ <;> rfl

theorem Post.imp {m : Exec ε S α} (h : Post cut m s Q E) (hQ : ∀ a t, Q a t → Q' a t)
    (hE : ∀ e t, E e t → E' e t) : Post cut m s Q' E' := by
  unfold Post at h ⊢
  split at h
  · exact h
  · exact hQ _ _ h
  · exact hE _ _ h

theorem Post.of_cut {cut' : Prop} {m : Exec ε S α} (hc : cut → cut') (h : Post cut m s Q E) :
    Post cut' m s Q E := by
  unfold Post at h ⊢
  split at h
  · exact hc h
  · exact h
  · exact h

theorem Post.bind {m : Exec ε S α} {f : α → Exec ε S β} (hm : Post cut m s Q E)
    (hf : ∀ a t, Q a t → Post cut (f a) t R E) : Post cut (m >>= f) s R E :=
  post_bind.mpr (hm.imp hf (fun _ _ h => h))

theorem Post.and {m : Exec ε S α} (h : Ensures m s Q E) (h' : Post cut m s Q' E') :
    Post cut m s (fun a t => Q a t ∧ Q' a t) (fun e t => E e t ∧ E' e t) := by
  unfold Ensures Post at *
  rcases hm : m s with _ | ⟨_ | _, _⟩ <;> simp_all

theorem ensures_iff {m : Exec ε S α} : Ensures m s Q E ↔
    (∀ a t, m s = some (.ok a, t) → Q a t) ∧ ∀ e t, m s = some (.error e, t) → E e t := by
  unfold Ensures Post
  rcases hm : m s with _ | ⟨_ | _, _⟩ <;> simp

theorem ensures_true (m : Exec ε S α) : Ensures m s (fun _ _ => True) (fun _ _ => True) :=
  ensures_iff.mpr ⟨fun _ _ _ => trivial, fun _ _ _ => trivial⟩

/-- What holds after a run may mention that it is the run. -/
theorem Post.run {m : Exec ε S α} (h : Post cut m s Q E) :
    Post cut m s (fun a t => m s = some (.ok a, t) ∧ Q a t)
      (fun e t => m s = some (.error e, t) ∧ E e t) := by
  unfold Post at h ⊢
  rcases hm : m s with _ | ⟨_ | _, _⟩ <;> rw [hm] at h
  · exact h
  · exact ⟨rfl, h⟩
  · exact ⟨rfl, h⟩

theorem Post.of_ok {m : Exec ε S α} {a : α} {t : S} (h : Post cut m s Q E)
    (hm : m s = some (.ok a, t)) : Q a t := by
  simpa [Post, hm] using h

/-- A sequence that answers, by the answers of its parts. -/
theorem bind_eq_ok {m : Exec ε S α} {f : α → Exec ε S β} {b : β} {t : S} :
    (m >>= f) s = some (.ok b, t) ↔ ∃ a r, m s = some (.ok a, r) ∧ f a r = some (.ok b, t) := by
  rw [bind_apply]
  rcases m s with _ | ⟨_ | _, _⟩ <;> simp

/-- A sequence that stops does so in one of its parts. -/
theorem bind_eq_error {m : Exec ε S α} {f : α → Exec ε S β} {e : ε} {t : S} :
    (m >>= f) s = some (.error e, t) ↔ m s = some (.error e, t) ∨ ∃ a r, m s = some (.ok a, r)
      ∧ f a r = some (.error e, t) := by
  rw [bind_apply]
  rcases m s with _ | ⟨_ | _, _⟩ <;> simp

theorem map_eq_ok {m : Exec ε S α} {f : α → β} {b : β} {t : S} :
    (f <$> m) s = some (.ok b, t) ↔ ∃ a, m s = some (.ok a, t) ∧ f a = b := by
  rw [← bind_pure_comp, bind_eq_ok]
  constructor
  · rintro ⟨a, r, hm, heq⟩
    cases heq
    exact ⟨a, hm, rfl⟩
  · rintro ⟨a, hm, rfl⟩
    exact ⟨a, t, hm, rfl⟩

theorem Post.of_error {m : Exec ε S α} {e : ε} {t : S} (h : Post cut m s Q E)
    (hm : m s = some (.error e, t)) : E e t := by
  simpa [Post, hm] using h

theorem Halts.exists {m : Exec ε S α} (h : Halts m s Q E) : ∃ o, m s = some o := by
  unfold Halts Post at h
  rcases hm : m s with _ | o
  · simp [hm] at h
  · exact ⟨o, rfl⟩

end Sequence

section Outcomes

variable {ρ σ : Type v} {P P' : ρ → Prop} {o : Option ρ}

/-- `P` of what a run comes to, if it ends. -/
def Outcome (P : ρ → Prop) : Option ρ → Prop
  | none => True
  | some r => P r

theorem outcome_iff : Outcome P o ↔ ∀ r, o = some r → P r := by
  cases o <;> simp [Outcome]

theorem Outcome.of_some {r : ρ} (h : Outcome P o) (ho : o = some r) : P r := outcome_iff.mp h r ho

theorem Outcome.imp (h : Outcome P o) (himp : ∀ r, P r → P' r) : Outcome P' o := by
  cases o with
  | none => trivial
  | some r => exact himp r h

theorem outcome_map {Q : σ → Prop} {f : ρ → σ} :
    Outcome Q (o.map f) ↔ Outcome (fun r => Q (f r)) o := by
  cases o <;> exact Iff.rfl

end Outcomes

section Loops

variable {bound : S → Nat} {body : τ → Exec ε S (τ ⊕ ω)} {Q : ω → S → Prop} {E : ε → S → Prop}

/-- One round of a loop: the invariant again, or the answer's postcondition. -/
def Round (I : τ → S → Prop) (Q : ω → S → Prop) : τ ⊕ ω → S → Prop
  | .inl t, s => I t s
  | .inr w, s => Q w s

theorem post_rounds_succ {cut : Prop} {k : Nat} {t : τ} {s : S} :
    Post cut (rounds body (k + 1) t) s Q E ↔
      Post cut (body t) s (Round (fun t' s' => Post cut (rounds body k t') s' Q E) Q) E := by
  rw [rounds_succ, post_bind]
  unfold Post
  rcases body t s with _ | ⟨_ | _ | _, _⟩ <;> rfl

theorem Ensures.rounds {I : τ → S → Prop}
    (step : ∀ t s, I t s → Ensures (body t) s (Round I Q) E) (k : Nat) {t : τ} {s : S}
    (h : I t s) : Ensures (rounds body k t) s Q E := by
  induction k generalizing t s with
  | zero => trivial
  | succ k ih =>
    rw [Ensures, post_rounds_succ]
    refine (step t s h).imp ?_ (fun _ _ he => he)
    rintro (t' | w) s' hs
    · exact ih hs
    · exact hs

theorem Ensures.loop {I : τ → S → Prop}
    (step : ∀ t s, I t s → Ensures (body t) s (Round I Q) E) {t : τ} {s : S} (h : I t s) :
    Ensures (loop bound body t) s Q E :=
  Ensures.rounds step (bound s) h

/-- The last round of a loop that answers, in a state with what every round keeps. -/
theorem exists_lastRound {I : τ → S → Prop}
    (step : ∀ t s t' s', I t s → body t s = some (.ok (.inl t'), s') → I t' s') {k : Nat} {t : τ}
    {s s' : S} {w : ω} (h : I t s) (hrun : rounds body k t s = some (.ok w, s')) :
    ∃ t₁ s₁, I t₁ s₁ ∧ body t₁ s₁ = some (.ok (.inr w), s') := by
  induction k generalizing t s with
  | zero => cases hrun
  | succ k ih =>
    rw [rounds_succ, bind_apply] at hrun
    split at hrun
    · cases hrun
    · cases hrun
    · rename_i r s₁ hbody
      cases r with
      | inl t₁ => exact ih (step t s t₁ s₁ h hbody) hrun
      | inr w₁ =>
        cases hrun
        exact ⟨t, s, h, hbody⟩

/-- Rounds that go on lead from one state to another. -/
inductive Reached (body : τ → Exec ε S (τ ⊕ ω)) (t : τ) (s : S) : τ → S → Prop
  | refl : Reached body t s t s
  | next {t₁ t₂ : τ} {s₁ s₂ : S} : Reached body t s t₁ s₁ → body t₁ s₁ = some (.ok (.inl t₂), s₂) →
    Reached body t s t₂ s₂

theorem rounds_add {k : Nat} {t : τ} {s : S} {o : Except ε ω × S} (h : rounds body k t s = some o)
    (n : Nat) :
    rounds body (k + n) t s = some o := by
  induction k generalizing t s with
  | zero => cases h
  | succ k ih =>
    rw [Nat.succ_add, rounds_succ, bind_apply]
    rw [rounds_succ, bind_apply] at h
    cases hbody : body t s with
    | none =>
      rw [hbody] at h
      cases h
    | some p =>
      obtain ⟨r, s'⟩ := p
      rw [hbody] at h
      rcases r with e | t' | w
      · exact h
      · exact ih h
      · exact h

theorem Reached.exists_rounds {t t' : τ} {s s' : S} (h : Reached body t s t' s') :
    ∃ k, ∀ n, rounds body (k + n) t s = rounds body n t' s' := by
  induction h with
  | refl => exact ⟨0, fun n => by rw [Nat.zero_add]⟩
  | next _ hbody ih =>
    obtain ⟨k, hk⟩ := ih
    refine ⟨k + 1, fun n => ?_⟩
    rw [Nat.add_assoc, Nat.add_comm 1 n, hk, rounds_succ, bind_apply, hbody]

/-- A loop ends as it does from any state that it reaches. -/
theorem Reached.loop_eq {t t' : τ} {s s' : S} {o p : Except ε ω × S} (h : Reached body t s t' s')
    (hlast : rounds body 1 t' s' = some p) (hrun : loop bound body t s = some o) : o = p := by
  obtain ⟨k, hk⟩ := h.exists_rounds
  have hmore := rounds_add hrun (k + 1)
  have hsame := rounds_add hlast (bound s)
  have hcount : bound s + (k + 1) = k + (1 + bound s) := by omega
  rw [hcount, hk, hsame] at hmore
  exact (Option.some.inj hmore).symm

/-- A measure that each round decreases and that starts below the bound keeps the loop within it. -/
theorem Halts.rounds {I : τ → S → Prop} (μ : τ → S → Nat)
    (step : ∀ t s, I t s → Halts (body t) s (Round (fun t' s' => I t' s' ∧ μ t' s' < μ t s) Q) E)
    {k : Nat} {t : τ} {s : S} (h : I t s) (hk : μ t s < k) : Halts (rounds body k t) s Q E := by
  induction k generalizing t s with
  | zero => omega
  | succ k ih =>
    rw [Halts, post_rounds_succ]
    refine (step t s h).imp ?_ (fun _ _ he => he)
    rintro (t' | w) s' hs
    · have hlt : μ t' s' < μ t s := hs.2
      exact ih hs.1 (by omega)
    · exact hs

theorem Halts.loop {I : τ → S → Prop} (μ : τ → S → Nat)
    (step : ∀ t s, I t s → Halts (body t) s (Round (fun t' s' => I t' s' ∧ μ t' s' < μ t s) Q) E)
    {t : τ} {s : S} (h : I t s) (hb : μ t s < bound s) : Halts (loop bound body t) s Q E :=
  Halts.rounds μ step h hb

end Loops

section Recursion

variable {bound : S → Nat} {f : (ι → Exec ε S α) → ι → Exec ε S α}
  {P : ι → S → Prop} {Q : ι → S → α → S → Prop} {E : ι → S → ε → S → Prop}

theorem Ensures.unroll
    (step : ∀ self, (∀ i s, P i s → Ensures (self i) s (Q i s) (E i s)) →
      ∀ i s, P i s → Ensures (f self i) s (Q i s) (E i s))
    (k : Nat) (i : ι) (s : S) (h : P i s) : Ensures (unroll f k i) s (Q i s) (E i s) := by
  induction k generalizing i s with
  | zero => trivial
  | succ k ih => exact step (Exec.unroll f k) ih i s h

theorem post_fix {cut : Prop} {i : ι} {s : S} {Q : α → S → Prop} {E : ε → S → Prop} :
    Post cut (fix bound f i) s Q E ↔ Post cut (unroll f (bound s) i) s Q E := Iff.rfl

theorem Ensures.fix
    (step : ∀ self, (∀ i s, P i s → Ensures (self i) s (Q i s) (E i s)) →
      ∀ i s, P i s → Ensures (f self i) s (Q i s) (E i s))
    {i : ι} {s : S} (h : P i s) : Ensures (fix bound f i) s (Q i s) (E i s) :=
  Ensures.unroll step (bound s) i s h

theorem Halts.unroll (μ : ι → S → Nat)
    (step : ∀ k self,
      (∀ i s, P i s → μ i s < k → Halts (self i) s (Q i s) (E i s)) →
      ∀ i s, P i s → μ i s < k + 1 → Halts (f self i) s (Q i s) (E i s))
    (k : Nat) (i : ι) (s : S) (h : P i s) (hk : μ i s < k) :
    Halts (unroll f k i) s (Q i s) (E i s) := by
  induction k generalizing i s with
  | zero => omega
  | succ k ih => exact step k (Exec.unroll f k) ih i s h hk

/-- Recursive calls on smaller states keep the recursion within a bound its start is below. -/
theorem Halts.fix (μ : ι → S → Nat)
    (step : ∀ k self,
      (∀ i s, P i s → μ i s < k → Halts (self i) s (Q i s) (E i s)) →
      ∀ i s, P i s → μ i s < k + 1 → Halts (f self i) s (Q i s) (E i s))
    {i : ι} {s : S} (h : P i s) (hb : μ i s < bound s) :
    Halts (fix bound f i) s (Q i s) (E i s) :=
  Halts.unroll μ step (bound s) i s h hb

end Recursion

end Exec
