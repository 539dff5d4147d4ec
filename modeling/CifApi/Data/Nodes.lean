import Mathlib.Data.List.Infix
import Mathlib.Tactic.Common

/-! Trees whose nodes are found by the positions on the way to them. -/

/-- The children of a node by position, and a node with one child replaced. -/
class Nodes (α : Type*) where
  child : α → ℕ → Option α
  replace : α → ℕ → α → α
  child_replace_self : ∀ {a c : α} {i : ℕ} (b : α), child a i = some c →
    child (replace a i b) i = some b
  child_replace_of_ne : ∀ {i j : ℕ} (a b : α), i ≠ j → child (replace a i b) j = child a j
  replace_child : ∀ {a c : α} {i : ℕ}, child a i = some c → replace a i c = a
  replace_replace : ∀ (a b c : α) (i : ℕ), replace (replace a i b) i c = replace a i c

namespace Nodes

section Entries

variable {α β : Type*} {entries : List α} {set : α → β → α} {part : α → β} {i : ℕ}

/-- Parts kept in the entries of a list, one of them replaced. -/
theorem map_modify_part (hset : ∀ e b, part (set e b) = b) (entries : List α) (i : ℕ) (b : β) :
    (entries.modify i (set · b)).map part = (entries.map part).set i b := by
  apply List.ext_getElem?
  intro j
  simp only [List.getElem?_map, List.getElem?_modify, List.getElem?_set, List.length_map]
  by_cases hij : i = j
  · subst hij
    by_cases hi : i < entries.length
    · simp [hi, hset]
    · simp [hi]
  · simp [hij]

theorem modify_part (hset : ∀ e, set e (part e) = e) {b : β} (h : (entries.map part)[i]? = some b) :
    entries.modify i (set · b) = entries := by
  apply List.ext_getElem?
  intro j
  rw [List.getElem?_modify]
  by_cases hij : i = j
  · subst hij
    rw [List.getElem?_map] at h
    obtain ⟨e, he, rfl⟩ := Option.map_eq_some_iff.mp h
    simp [he, hset]
  · simp [hij]

end Entries

variable {α β : Type*} [Nodes α] {a b c : α} {p q : List ℕ}

/-- The node at a path. -/
def get (a : α) : List ℕ → Option α
  | [] => some a
  | i :: path => (child a i).bind (get · path)

/-- The tree with another node at a path, if there is one. -/
def put (a : α) : List ℕ → α → α
  | [], b => b
  | i :: path, b => (child a i).elim a fun c => replace a i (put c path b)

theorem get_append (a : α) (p q : List ℕ) : get a (p ++ q) = (get a p).bind (get · q) := by
  induction p generalizing a with
  | nil => rfl
  | cons i p ih =>
    show (child a i).bind (get · (p ++ q)) = ((child a i).bind (get · p)).bind (get · q)
    cases child a i with
    | none => rfl
    | some c => exact ih c

/-- Two paths lead to one node, to a node below the other, or apart. -/
theorem path_cases (p q : List ℕ) : p = q ∨ (∃ i r, q = p ++ i :: r) ∨ (∃ i r, p = q ++ i :: r)
    ∨ (¬ p <+: q ∧ ¬ q <+: p) := by
  by_cases hpq : p <+: q
  · obtain ⟨r, rfl⟩ := hpq
    cases r with
    | nil => exact .inl (List.append_nil p).symm
    | cons i r => exact .inr (.inl ⟨i, r, rfl⟩)
  · by_cases hqp : q <+: p
    · obtain ⟨r, rfl⟩ := hqp
      cases r with
      | nil => exact absurd (by rw [List.append_nil]) hpq
      | cons i r => exact .inr (.inr (.inl ⟨i, r, rfl⟩))
    · exact .inr (.inr (.inr ⟨hpq, hqp⟩))

theorem not_extension (p r : List ℕ) (i : ℕ) : ¬ p ++ i :: r <+: p := by
  intro h
  have hle := h.length_le
  rw [List.length_append, List.length_cons] at hle
  omega

theorem put_of_child {i : ℕ} (h : child a i = some c) (p : List ℕ) (b : α) :
    put a (i :: p) b = replace a i (put c p b) := by
  rw [put, h]
  rfl

theorem get_put_self (h : get a p = some c) (b : α) : get (put a p b) p = some b := by
  induction p generalizing a with
  | nil => rfl
  | cons i p ih =>
    obtain ⟨d, hd, hc⟩ := Option.bind_eq_some_iff.mp h
    rw [put_of_child hd, get, child_replace_self _ hd]
    exact ih hc

/-- A node above the one that is replaced. -/
theorem get_put_above (a b : α) (p q : List ℕ) :
    get (put a (p ++ q) b) p = (get a p).map (put · q b) := by
  induction p generalizing a with
  | nil => rfl
  | cons i p ih =>
    cases hd : child a i with
    | none =>
      rw [List.cons_append, put, hd, get, get, Option.elim_none, hd]
      rfl
    | some d =>
      rw [List.cons_append, put_of_child hd, get, child_replace_self _ hd, get, hd]
      exact ih d

/-- A node that is neither above nor below. -/
theorem get_put_apart (a b : α) (hpq : ¬ p <+: q) (hqp : ¬ q <+: p) :
    get (put a p b) q = get a q := by
  induction p generalizing a q with
  | nil => exact absurd (List.nil_prefix) hpq
  | cons i p ih =>
    cases q with
    | nil => exact absurd (List.nil_prefix) hqp
    | cons j q =>
      cases hd : child a i with
      | none =>
        rw [put, hd]
        rfl
      | some d =>
        rw [put_of_child hd]
        by_cases hij : i = j
        · subst hij
          rw [get, child_replace_self _ hd, get, hd]
          refine ih d ?_ ?_
          · exact fun h => hpq ((List.prefix_cons_inj i).mpr h)
          · exact fun h => hqp ((List.prefix_cons_inj i).mpr h)
        · rw [get, child_replace_of_ne _ _ hij, get]

theorem put_put (a b c : α) (p : List ℕ) : put (put a p b) p c = put a p c := by
  induction p generalizing a with
  | nil => rfl
  | cons i p ih =>
    cases hd : child a i with
    | none =>
      have hsame : put a (i :: p) b = a := by
        rw [put, hd]
        rfl
      rw [hsame]
    | some d =>
      rw [put_of_child hd, put_of_child (child_replace_self _ hd), put_of_child hd, replace_replace,
        ih]

theorem put_get (h : get a p = some b) : put a p b = a := by
  induction p generalizing a with
  | nil =>
    cases h
    rfl
  | cons i p ih =>
    obtain ⟨d, hd, hb⟩ := Option.bind_eq_some_iff.mp h
    rw [put_of_child hd, ih hb, replace_child hd]

/-- A replacement changes nothing just where the same node is there. -/
theorem put_eq_self_iff (h : get a p = some c) : put a p b = a ↔ get a p = some b := by
  constructor
  · intro heq
    have hself := get_put_self h b
    rwa [heq] at hself
  · exact put_get

/-- What a node keeps when a child is replaced is kept by all nodes except those below the one
replaced. -/
theorem map_get_put (f : α → β) (hf : ∀ a i b, f (replace a i b) = f a) (a b : α) (h : ¬ p <+: q) :
    (get (put a p b) q).map f = (get a q).map f := by
  by_cases hqp : q <+: p
  · obtain ⟨r, rfl⟩ := hqp
    rw [get_put_above, Option.map_map]
    cases hq : get a q with
    | none => rfl
    | some d =>
      cases r with
      | nil => exact absurd (by rw [List.append_nil]) h
      | cons i r =>
        show some (f (put d (i :: r) b)) = some (f d)
        cases hd : child d i with
        | none =>
          rw [put, hd]
          rfl
        | some e => rw [put_of_child hd, hf]
  · rw [get_put_apart a b h hqp]

/-- What is listed of a tree part by part changes with a node just where the node is listed. -/
theorem listed_put {f : α → List β}
    (hf : ∀ {a c : α} {i : ℕ}, child a i = some c →
      ∃ before after, ∀ b, f (replace a i b) = before ++ (f b ++ after))
    (h : get a p = some c) : ∃ before after, ∀ b, f (put a p b) = before ++ (f b ++ after) := by
  induction p generalizing a with
  | nil => exact ⟨[], [], fun b => (List.append_nil _).symm⟩
  | cons i p ih =>
    obtain ⟨d, hd, hc⟩ := Option.bind_eq_some_iff.mp h
    obtain ⟨before, after, houter⟩ := hf hd
    obtain ⟨before', after', hinner⟩ := ih hc
    refine ⟨before ++ before', after' ++ after, fun b => ?_⟩
    rw [put_of_child hd, houter, hinner]
    simp only [List.append_assoc]

end Nodes
