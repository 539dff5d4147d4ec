import CifApi.Exec.Discipline

/-! Computations that come to marked states where others do not come to an end. -/

universe u v w

namespace Exec

variable {ε : Type w} {S : Type u} {α β τ ω ι : Type v} {bad : S → Prop}

theorem ite_bind {p : Prop} [Decidable p] (m n : Exec ε S α) (f : α → Exec ε S β) :
    (if p then m else n) >>= f = if p then m >>= f else n >>= f := by
  split
  · rfl
  · rfl

/-- Runs that neither mark a state nor unmark one. -/
def Discipline.untouched (ε : Type w) (bad : S → Prop) : Discipline ε S where
  step s t := bad t ↔ bad s
  halt _ s t := bad t ↔ bad s
  refl _ := Iff.rfl
  trans h h' := h'.trans h
  step_halt h h' := h'.trans h

/-- `m'` does as `m` does, and comes to a bad state where `m` does not come to an end; it leaves the
bad states bad. -/
structure Guards (bad : S → Prop) (m m' : Exec ε S α) : Prop where
  stays : ∀ s, bad s → Ensures m' s (fun _ t => bad t) fun _ t => bad t
  agrees : ∀ s, ¬ bad s →
    (m s = m' s ∧ Ensures m' s (fun _ t => ¬ bad t) fun _ t => ¬ bad t)
      ∨ (m s = none ∧ Ensures m' s (fun _ t => bad t) fun _ t => bad t)

namespace Guards

variable {m m' : Exec ε S α}

/-- A run that `m'` completes `m` completes if and only if it has come to no bad state. -/
theorem terminates_iff (h : Guards bad m m') {s t : S} {r : Except ε α} (hs : ¬ bad s)
    (hrun : m' s = some (r, t)) :
    (∃ o, m s = some o) ↔ ¬ bad t := by
  have hresult : ∀ {Q : S → Prop}, Ensures m' s (fun _ t => Q t) (fun _ t => Q t) → Q t := by
    intro Q hQ
    cases r with
    | ok a => exact hQ.of_ok hrun
    | error e => exact hQ.of_error hrun
  rcases h.agrees s hs with ⟨hsame, hgood⟩ | ⟨hnone, hbad⟩
  · exact iff_of_true ⟨_, hsame.trans hrun⟩ (hresult hgood)
  · refine iff_of_false ?_ (not_not_intro (hresult hbad))
    rintro ⟨o, ho⟩
    cases hnone.symm.trans ho

/-- A computation that marks no state guards itself. -/
theorem same (h : Keeps True (Discipline.untouched ε bad) m) : Guards bad m m where
  stays s hs := (h s).imp (fun _ _ ht => ht.mpr hs) fun _ _ ht => ht.mpr hs
  agrees s hs :=
    .inl ⟨rfl, (h s).imp (fun _ _ ht => fun hbad => hs (ht.mp hbad)) fun _ _ ht hbad =>
      hs (ht.mp hbad)⟩

theorem of_eq (heq : m' = m) (h : Keeps True (Discipline.untouched ε bad) m) : Guards bad m m' := by
  subst heq
  exact same h

protected theorem pure (a : α) : Guards bad (pure a : Exec ε S α) (pure a) := same (.pure a)

protected theorem stop (e : ε) : Guards bad (stop e : Exec ε S α) (stop e) :=
  same (.stop fun _ => Iff.rfl)

protected theorem read : Guards bad (read : Exec ε S S) read := same .read

protected theorem modify {g : S → S} (h : ∀ s, bad (g s) ↔ bad s) :
    Guards bad (modify g : Exec ε S PUnit) (modify g) :=
  same (.modify h)

protected theorem operate {g g' : S → Option (α × S)}
    (hstays : ∀ s a t, bad s → g' s = some (a, t) → bad t)
    (hagrees : ∀ s, ¬ bad s → (g s = g' s ∧ ∀ a t, g' s = some (a, t) → ¬ bad t)
      ∨ (g s = none ∧ ∀ a t, g' s = some (a, t) → bad t)) :
    Guards bad (operate g : Exec ε S α) (operate g') where
  stays s hs := post_operate.mpr ⟨fun _ => trivial, fun a t hrun => hstays s a t hs hrun⟩
  agrees s hs := by
    rcases hagrees s hs with ⟨hsame, hgood⟩ | ⟨hnone, hbad⟩
    · exact .inl ⟨by rw [operate_apply, operate_apply, hsame],
        post_operate.mpr ⟨fun _ => trivial, hgood⟩⟩
    · exact .inr ⟨by rw [operate_apply, hnone]; rfl, post_operate.mpr ⟨fun _ => trivial, hbad⟩⟩

protected theorem bind {f f' : α → Exec ε S β} (hm : Guards bad m m')
    (hf : ∀ a, Guards bad (f a) (f' a)) :
    Guards bad (m >>= f) (m' >>= f') where
  stays s hs := (hm.stays s hs).bind fun a t ht => (hf a).stays t ht
  agrees s hs := by
    rcases hm.agrees s hs with ⟨hsame, hgood⟩ | ⟨hnone, hbad⟩
    · rw [Ensures, Ensures, post_bind, post_bind, bind_apply, bind_apply, hsame]
      unfold Ensures Post at hgood
      unfold Post
      rcases hrun : m' s with _ | ⟨e | a, t⟩ <;> rw [hrun] at hgood
      · exact .inl ⟨rfl, trivial⟩
      · exact .inl ⟨rfl, hgood⟩
      · exact (hf a).agrees t hgood
    · refine .inr ⟨?_, hbad.bind fun a t ht => (hf a).stays t ht⟩
      rw [bind_apply, hnone]

protected theorem ite {p : Prop} [Decidable p] {n n' : Exec ε S α} (h : p → Guards bad m m')
    (h' : ¬ p → Guards bad n n') :
    Guards bad (if p then m else n) (if p then m' else n') := by
  split
  · exact h ‹_›
  · exact h' ‹_›

protected theorem when {p : Prop} [Decidable p] {m m' : Exec ε S PUnit} (h : p → Guards bad m m') :
    Guards bad (when p m) (when p m') := Guards.ite h fun _ => Guards.pure PUnit.unit

protected theorem ensure {g : S → S} (hm : Guards bad m m') (hg : ∀ s, bad (g s) ↔ bad s) :
    Guards bad (m.ensure g) (m'.ensure g) where
  stays s hs := post_ensure.mpr <| (hm.stays s hs).imp (fun _ t ht => (hg t).mpr ht) fun _ t ht =>
    (hg t).mpr ht
  agrees s hs := by
    rw [Ensures, Ensures, post_ensure, post_ensure, ensure_apply, ensure_apply]
    simp only [hg]
    rcases hm.agrees s hs with ⟨hsame, hgood⟩ | ⟨hnone, hbad⟩
    · exact .inl ⟨by rw [hsame], hgood⟩
    · exact .inr ⟨by rw [hnone], hbad⟩

protected theorem onStop {g : S → S} (hm : Guards bad m m') (hg : ∀ s, bad (g s) ↔ bad s) :
    Guards bad (m.onStop g) (m'.onStop g) where
  stays s hs := post_onStop.mpr <| (hm.stays s hs).imp (fun _ _ ht => ht) fun _ t ht =>
    (hg t).mpr ht
  agrees s hs := by
    rw [Ensures, Ensures, post_onStop, post_onStop, onStop_apply, onStop_apply]
    simp only [hg]
    rcases hm.agrees s hs with ⟨hsame, hgood⟩ | ⟨hnone, hbad⟩
    · exact .inl ⟨by rw [hsame], hgood⟩
    · exact .inr ⟨by rw [hnone], hbad⟩

protected theorem recode (f : ε → ε) (hm : Guards bad m m') : Guards bad (m.recode f)
    (m'.recode f) where
  stays s hs := post_recode.mpr (hm.stays s hs)
  agrees s hs := by
    rw [Ensures, Ensures, post_recode, post_recode, recode_apply, recode_apply]
    rcases hm.agrees s hs with ⟨hsame, hgood⟩ | ⟨hnone, hbad⟩
    · exact .inl ⟨by rw [hsame], hgood⟩
    · exact .inr ⟨by rw [hnone], hbad⟩

theorem rounds {body body' : τ → Exec ε S (τ ⊕ ω)} (h : ∀ t, Guards bad (body t) (body' t))
    (k : Nat) (t : τ) :
    Guards bad (rounds body k t) (rounds body' k t) := by
  induction k generalizing t with
  | zero => exact same fun _ => trivial
  | succ k ih =>
    rw [rounds_succ, rounds_succ]
    refine (h t).bind fun r => ?_
    cases r with
    | inl t' => exact ih t'
    | inr w => exact .pure w

/-- A loop whose rounds are guarded is guarded. -/
protected theorem loop {bound : S → Nat} {body body' : τ → Exec ε S (τ ⊕ ω)}
    (h : ∀ t, Guards bad (body t) (body' t)) (t : τ) : Guards bad (loop bound body t)
    (loop bound body' t) where
  stays s hs := (rounds h (bound s) t).stays s hs
  agrees s hs := (rounds h (bound s) t).agrees s hs

theorem unroll {f f' : (ι → Exec ε S α) → ι → Exec ε S α}
    (h : ∀ self self', (∀ i, Guards bad (self i) (self' i)) → ∀ i,
      Guards bad (f self i) (f' self' i)) (k : Nat) (i : ι) :
    Guards bad (unroll f k i) (unroll f' k i) := by
  induction k generalizing i with
  | zero => exact same fun _ => trivial
  | succ k ih => exact h _ _ ih i

protected theorem fix {bound : S → Nat} {f f' : (ι → Exec ε S α) → ι → Exec ε S α}
    (h : ∀ self self', (∀ i, Guards bad (self i) (self' i)) → ∀ i,
      Guards bad (f self i) (f' self' i)) (i : ι) :
    Guards bad (fix bound f i) (fix bound f' i) where
  stays s hs := (unroll h (bound s) i).stays s hs
  agrees s hs := (unroll h (bound s) i).agrees s hs

end Guards

end Exec
