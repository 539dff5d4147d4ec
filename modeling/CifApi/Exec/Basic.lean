import Mathlib.Logic.Basic
import Mathlib.Tactic.Common

/-! Computations over an explicit state that may stop with a code, with a bound on the rounds of
every loop. -/

universe u v w

/-- A computation on a state: an answer or a code, and the state it leaves; `none` is a run whose
loops exceed their bounds. -/
def Exec (ε : Type w) (S : Type u) (α : Type v) : Type (max u v w) :=
  S → Option (Except ε α × S)

namespace Exec

variable {ε : Type w} {S : Type u} {α β τ ω ι : Type v}

protected def pure (a : α) : Exec ε S α := fun s => some (.ok a, s)

protected def bind (m : Exec ε S α) (f : α → Exec ε S β) : Exec ε S β := fun s =>
  match m s with
  | none => none
  | some (.error e, t) => some (.error e, t)
  | some (.ok a, t) => f a t

instance : Monad (Exec ε S) where
  pure := Exec.pure
  bind := Exec.bind

/-- Stops with a code. -/
def stop (e : ε) : Exec ε S α := fun s => some (.error e, s)

def diverge : Exec ε S α := fun _ => none

def read : Exec ε S S := fun s => some (.ok s, s)

def modify (g : S → S) : Exec ε S PUnit := fun s => some (.ok ⟨⟩, g s)

/-- Answers from the state and changes it. -/
def update (g : S → α × S) : Exec ε S α := fun s => some (.ok (g s).1, (g s).2)

/-- Answers from the state and changes it, by an operation that need not come to an end. -/
def operate (g : S → Option (α × S)) : Exec ε S α := fun s => (g s).map fun (a, t) => (.ok a, t)

/-- Runs `m` if `p` holds. -/
def when (p : Prop) [Decidable p] (m : Exec ε S PUnit) : Exec ε S PUnit :=
  if p then m else Exec.pure ⟨⟩

/-- Applies `g` to the state on the way out when `m` stops with a code. -/
def onStop (m : Exec ε S α) (g : S → S) : Exec ε S α := fun s =>
  match m s with
  | some (.error e, t) => some (.error e, g t)
  | o => o

/-- Applies `g` to the state on the way out, whether or not `m` stops with a code. -/
def ensure (m : Exec ε S α) (g : S → S) : Exec ε S α := fun s =>
  match m s with
  | some (r, t) => some (r, g t)
  | none => none

/-- Replaces the code `m` stops with, if it does. -/
def recode (m : Exec ε S α) (f : ε → ε) : Exec ε S α := fun s =>
  match m s with
  | some (.error e, t) => some (.error (f e), t)
  | o => o

/-- Answers the code `m` stops with, if it does, and goes on. -/
def attempt (m : Exec ε S α) : Exec ε S (Except ε α) := fun s =>
  match m s with
  | some (r, t) => some (.ok r, t)
  | none => none

/-- At most `k` rounds of `body`, from each `.inl` to the next, until it answers `.inr`. -/
def rounds (body : τ → Exec ε S (τ ⊕ ω)) : Nat → τ → Exec ε S ω
  | 0, _ => diverge
  | k + 1, t => Exec.bind (body t) fun
    | .inl t' => rounds body k t'
    | .inr w => Exec.pure w

/-- Rounds of `body`, as many as `bound` gives for the state the loop is entered in. -/
def loop (bound : S → Nat) (body : τ → Exec ε S (τ ⊕ ω)) (t : τ) : Exec ε S ω :=
  fun s => rounds body (bound s) t s

/-- `f` with its recursive calls replaced by itself, to depth `k`. -/
def unroll (f : (ι → Exec ε S α) → ι → Exec ε S α) : Nat → ι → Exec ε S α
  | 0, _ => diverge
  | k + 1, i => f (unroll f k) i

/-- The recursive function `f` describes, to the depth `bound` gives for the state of the call. -/
def fix (bound : S → Nat) (f : (ι → Exec ε S α) → ι → Exec ε S α) (i : ι) : Exec ε S α :=
  fun s => unroll f (bound s) i s

@[simp] theorem pure_apply (a : α) (s : S) : (pure a : Exec ε S α) s = some (.ok a, s) := rfl

@[simp] theorem stop_apply (e : ε) (s : S) : (stop e : Exec ε S α) s = some (.error e, s) := rfl

@[simp] theorem diverge_apply (s : S) : (diverge : Exec ε S α) s = none := rfl

@[simp] theorem read_apply (s : S) : (read : Exec ε S S) s = some (.ok s, s) := rfl

@[simp] theorem modify_apply (g : S → S) (s : S) :
    (modify g : Exec ε S PUnit) s = some (.ok ⟨⟩, g s) := rfl

@[simp] theorem update_apply (g : S → α × S) (s : S) :
    (update g : Exec ε S α) s = some (.ok (g s).1, (g s).2) := rfl

theorem operate_apply (g : S → Option (α × S)) (s : S) :
    (operate g : Exec ε S α) s = (g s).map fun (a, t) => (.ok a, t) := rfl

theorem bind_apply (m : Exec ε S α) (f : α → Exec ε S β) (s : S) :
    (m >>= f) s = match m s with
      | none => none
      | some (.error e, t) => some (.error e, t)
      | some (.ok a, t) => f a t := rfl

theorem onStop_apply (m : Exec ε S α) (g : S → S) (s : S) :
    onStop m g s = match m s with
      | some (.error e, t) => some (.error e, g t)
      | o => o := rfl

theorem ensure_apply (m : Exec ε S α) (g : S → S) (s : S) :
    ensure m g s = match m s with
      | some (r, t) => some (r, g t)
      | none => none := rfl

theorem recode_apply (m : Exec ε S α) (f : ε → ε) (s : S) :
    recode m f s = match m s with
      | some (.error e, t) => some (.error (f e), t)
      | o => o := rfl

theorem attempt_apply (m : Exec ε S α) (s : S) :
    attempt m s = match m s with
      | some (r, t) => some (.ok r, t)
      | none => none := rfl

theorem rounds_succ (body : τ → Exec ε S (τ ⊕ ω)) (k : Nat) (t : τ) :
    rounds body (k + 1) t = (body t >>= fun
      | .inl t' => rounds body k t'
      | .inr w => pure w) := rfl

theorem unroll_succ (f : (ι → Exec ε S α) → ι → Exec ε S α) (k : Nat) (i : ι) :
    unroll f (k + 1) i = f (unroll f k) i := rfl

protected theorem id_map (m : Exec ε S α) : id <$> m = m := by
  funext s
  change (m >>= fun a => pure a) s = m s
  rw [bind_apply]
  rcases m s with _ | ⟨_ | _, _⟩ <;> rfl

protected theorem bind_assoc (m : Exec ε S α) (f : α → Exec ε S β) (g : β → Exec ε S ω) :
    m >>= f >>= g = m >>= fun a => f a >>= g := by
  funext s
  simp only [bind_apply]
  rcases m s with _ | ⟨_ | _, _⟩ <;> rfl

instance : LawfulMonad (Exec ε S) :=
  LawfulMonad.mk' (Exec ε S) Exec.id_map (fun _ _ => rfl) Exec.bind_assoc

end Exec
