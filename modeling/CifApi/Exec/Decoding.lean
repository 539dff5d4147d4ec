import Mathlib.Algebra.Group.Nat.Defs
import Mathlib.Tactic.Common
import CifApi.Exec.Basic

/-! Computations that read the units of an input, and what it means for one to decode an
encoding. -/

universe u v w

namespace Exec

variable {ε : Type w} {υ α β τ ω : Type u} {k : Nat}

/-- On inputs of less than `k` units, `m` reads exactly `enc` and answers `a`, whatever follows, and
stops with a code when the input ends within `enc`. -/
structure Decodes (k : Nat) (m : Exec ε (List υ) α) (enc : List υ) (a : α) : Prop where
  whole : ∀ rest, (enc ++ rest).length < k → m (enc ++ rest) = some (.ok a, rest)
  cut : ∀ front back, front ++ back = enc → back ≠ [] → front.length < k →
    ∃ e s, m front = some (.error e, s)

/-- The next `n` units, or the code `e` if there are not as many. -/
def takeUnits (n : Nat) (e : ε) : Exec ε (List υ) (List υ) := fun input =>
  if n ≤ input.length then some (.ok (input.take n), input.drop n) else some (.error e, [])

namespace Decodes

variable {m : Exec ε (List υ) α} {f : α → Exec ε (List υ) β} {enc enc' : List υ} {a : α} {b : β}

theorem mono {k' : Nat} (h : Decodes k' m enc a) (hk : k ≤ k') : Decodes k m enc a where
  whole := fun rest hlt => h.whole rest (by omega)
  cut := fun front back heq hne hlt => h.cut front back heq hne (by omega)

protected theorem pure (a : α) : Decodes k (pure a : Exec ε (List υ) α) [] a where
  whole := fun _ _ => rfl
  cut := by
    intro front back heq hne
    exact absurd (List.append_eq_nil_iff.mp heq).2 hne

/-- What follows a first part that has used up input may rely on a smaller bound. -/
theorem bind_of_lt {k' : Nat} (hm : Decodes k m enc a) (hf : Decodes k' (f a) enc' b)
    (hk : k ≤ enc.length + k') : Decodes k (m >>= f) (enc ++ enc') b where
  whole := by
    intro rest hlt
    rw [List.append_assoc] at hlt ⊢
    rw [bind_apply, hm.whole (enc' ++ rest) hlt]
    rw [List.length_append] at hlt
    exact hf.whole rest (by omega)
  cut := by
    intro front back heq hne hlt
    by_cases hshort : ∃ mid, mid ≠ [] ∧ front ++ mid = enc
    · obtain ⟨mid, hmid, hfront⟩ := hshort
      obtain ⟨e, s, hcut⟩ := hm.cut front mid hfront hmid hlt
      exact ⟨e, s, by rw [bind_apply, hcut]⟩
    · -- the first part is complete, and the input ends within the second
      obtain ⟨mid, hfront, hmid⟩ : ∃ mid, front = enc ++ mid ∧ mid ++ back = enc' := by
        rcases List.append_eq_append_iff.mp heq with ⟨mid, henc, _⟩ | ⟨mid, hfront, henc'⟩
        · have hnil : mid = [] := by
            by_contra hmid
            exact hshort ⟨mid, hmid, henc.symm⟩
          subst hnil
          simp_all
        · exact ⟨mid, hfront, henc'.symm⟩
      subst hfront
      have hwhole := hm.whole mid hlt
      rw [List.length_append] at hlt
      obtain ⟨e, s, hcut⟩ := hf.cut mid back hmid hne (by omega)
      refine ⟨e, s, ?_⟩
      rw [bind_apply, hwhole]
      exact hcut

protected theorem bind (hm : Decodes k m enc a) (hf : Decodes k (f a) enc' b) :
    Decodes k (m >>= f) (enc ++ enc') b :=
  bind_of_lt hm hf (by omega)

protected theorem map {g : α → β} (hm : Decodes k m enc a) :
    Decodes k (g <$> m) enc (g a) := by
  have h := hm.bind (f := fun a => pure (g a)) (Decodes.pure (g a))
  rwa [List.append_nil, bind_pure_comp] at h

protected theorem takeUnits {n : Nat} {e : ε} (hn : enc.length = n) :
    Decodes k (takeUnits n e) enc enc where
  whole := by
    intro rest _
    subst hn
    simp [takeUnits]
  cut := by
    intro front back heq hne _
    have hlen := congrArg List.length heq
    rw [List.length_append] at hlen
    have hback : 0 < back.length := List.length_pos_iff.mpr hne
    exact ⟨e, [], by rw [takeUnits, if_neg (by omega)]⟩

/-- A loop of which every round but the last answers the next value and uses up input. -/
theorem rounds {body : τ → Exec ε (List υ) (τ ⊕ ω)} {t t' : τ} {w : ω}
    (hbody : Decodes (k + 1) (body t) enc (.inl t')) (hpos : 0 < enc.length)
    (hrest : Decodes k (Exec.rounds body k t') enc' w) :
    Decodes (k + 1) (Exec.rounds body (k + 1) t) (enc ++ enc') w := by
  rw [rounds_succ]
  exact hbody.bind_of_lt hrest (by omega)

/-- A loop as long as the rest of the input, for which any number of rounds up to that will do. -/
theorem loop {body : τ → Exec ε (List υ) (τ ⊕ ω)} {t : τ} {w : ω}
    (h : ∀ j, j ≤ k → Decodes j (Exec.rounds body j t) enc w) :
    Decodes k (Exec.loop (fun input => input.length + 1) body t) enc w where
  whole := by
    intro rest hlt
    exact (h ((enc ++ rest).length + 1) hlt).whole rest (Nat.lt_succ_self _)
  cut := by
    intro front back heq hne hlt
    exact (h (front.length + 1) hlt).cut front back heq hne (Nat.lt_succ_self _)

protected theorem zero (m : Exec ε (List υ) α) (enc : List υ) (a : α) : Decodes 0 m enc a where
  whole := by
    intro rest hlt
    omega
  cut := by
    intro front back _ _ hlt
    omega

/-- The end of the encoding checks what it has read, and accepts it. -/
theorem bind_pure {f : α → Exec ε (List υ) β} (hm : Decodes k m enc a) (hf : f a = pure b) :
    Decodes k (m >>= f) enc b := by
  have h : Decodes k (m >>= f) (enc ++ []) b := hm.bind (by rw [hf]; exact Decodes.pure b)
  rwa [List.append_nil] at h

end Decodes

section Bytes

/-- The `w` low-order bytes of a number, lowest first. -/
def lowBytes : Nat → Nat → List UInt8
  | 0, _ => []
  | w + 1, n => UInt8.ofNat n :: lowBytes w (n / 256)

def ofBytes : List UInt8 → Nat
  | [] => 0
  | b :: bytes => b.toNat + 256 * ofBytes bytes

@[simp] theorem length_lowBytes (w n : Nat) : (lowBytes w n).length = w := by
  induction w generalizing n with
  | zero => rfl
  | succ w ih => simp [lowBytes, ih]

theorem ofBytes_lowBytes {w n : Nat} (h : n < 256 ^ w) : ofBytes (lowBytes w n) = n := by
  induction w generalizing n with
  | zero => simp_all [lowBytes, ofBytes]
  | succ w ih =>
    have hquot : n / 256 < 256 ^ w :=
      Nat.div_lt_of_lt_mul (by rwa [Nat.pow_succ, Nat.mul_comm] at h)
    have hrem : (UInt8.ofNat n).toNat = n % 256 := UInt8.toNat_ofNat'
    rw [lowBytes, ofBytes, ih hquot, hrem]
    exact Nat.mod_add_div n 256

/-- A number of `w` bytes, or the code `e` if there are not as many. -/
def takeNat (w : Nat) (e : ε) : Exec ε (List UInt8) Nat := ofBytes <$> takeUnits w e

theorem Decodes.takeNat {w n : Nat} {e : ε} (h : n < 256 ^ w) :
    Decodes k (takeNat w e) (lowBytes w n) n := by
  have hmap := (Decodes.takeUnits (k := k) (e := e) (length_lowBytes w n)).map (g := ofBytes)
  rwa [ofBytes_lowBytes h] at hmap

end Bytes

end Exec
