import Mathlib.Data.List.InsertIdx
import Mathlib.Data.List.Nodup
import Mathlib.Logic.Function.Basic
import Mathlib.Tactic.Common

/-! Finite dictionaries that keep their keys in the order they came in, and lists that represent
them. -/

universe u v

/-- The keys in the order they came in, and what each is bound to. -/
structure Dictionary (κ : Type u) (α : Type v) where
  order : List κ
  get : κ → Option α
  nodup : order.Nodup
  mem_order : ∀ k, k ∈ order ↔ (get k).isSome

namespace Dictionary

variable {κ : Type u} {α : Type v}

def empty : Dictionary κ α where
  order := []
  get := fun _ => none
  nodup := List.nodup_nil
  mem_order := by simp

theorem get_eq_none {d : Dictionary κ α} {k : κ} (h : k ∉ d.order) : d.get k = none := by
  rw [d.mem_order] at h
  simpa using h

/-- The pairs, in order, are the bindings of the dictionary. -/
structure Lists (d : Dictionary κ α) (pairs : List (κ × α)) : Prop where
  keys : pairs.map (·.1) = d.order
  bound : ∀ p ∈ pairs, d.get p.1 = some p.2

section Update

variable [DecidableEq κ]

/-- Binds a key, which keeps its place if it has one and comes last otherwise. -/
def insert (d : Dictionary κ α) (k : κ) (a : α) : Dictionary κ α where
  order := if k ∈ d.order then d.order else d.order ++ [k]
  get := Function.update d.get k (some a)
  nodup := by
    by_cases h : k ∈ d.order
    · simpa [h] using d.nodup
    · rw [if_neg h, List.nodup_append]
      refine ⟨d.nodup, List.nodup_singleton k, ?_⟩
      intro k' hk' k'' hk'' heq
      obtain rfl := List.mem_singleton.mp hk''
      exact h (heq ▸ hk')
  mem_order := by
    intro k'
    by_cases hk : k' = k
    · subst hk
      by_cases h : k' ∈ d.order <;> simp [h]
    · by_cases h : k ∈ d.order <;> simp [h, hk, d.mem_order]

def erase (d : Dictionary κ α) (k : κ) : Dictionary κ α where
  order := d.order.erase k
  get := Function.update d.get k none
  nodup := d.nodup.erase k
  mem_order := by
    intro k'
    rw [d.nodup.mem_erase_iff, d.mem_order]
    by_cases hk : k' = k <;> simp [hk]

theorem erase_of_notMem {d : Dictionary κ α} {k : κ} (h : k ∉ d.order) : d.erase k = d := by
  have hget := get_eq_none h
  cases d
  simp_all [erase, List.erase_of_not_mem]

end Update

namespace Lists

variable {d : Dictionary κ α} {pairs : List (κ × α)} {k : κ} {a b : α} {i j : Nat}

theorem empty : (empty : Dictionary κ α).Lists [] := ⟨rfl, by simp⟩

theorem get (h : d.Lists pairs) (hi : pairs[i]? = some (k, a)) : d.get k = some a :=
  h.bound (k, a) (List.mem_of_getElem? hi)

theorem mem_order (h : d.Lists pairs) (hi : pairs[i]? = some (k, a)) : k ∈ d.order := by
  rw [d.mem_order, h.get hi]
  rfl

/-- No two places hold the same key. -/
theorem index_eq (h : d.Lists pairs) (hi : pairs[i]? = some (k, a))
    (hj : pairs[j]? = some (k, b)) : i = j := by
  have hnodup : (pairs.map (·.1)).Nodup := h.keys ▸ d.nodup
  have hlt : i < (pairs.map (·.1)).length := by
    rw [List.length_map]
    exact (List.getElem?_eq_some_iff.mp hi).1
  exact (List.getElem?_inj hlt hnodup).mp (by simp [hi, hj])

theorem exists_of_mem (h : d.Lists pairs) (hk : k ∈ d.order) :
    ∃ (i : Nat) (a : α), pairs[i]? = some (k, a) := by
  obtain ⟨p, hp, rfl⟩ := List.mem_map.mp (h.keys ▸ hk)
  obtain ⟨i, hi⟩ := List.getElem?_of_mem hp
  exact ⟨i, p.2, hi⟩

variable [DecidableEq κ]

theorem append (h : d.Lists pairs) (hk : k ∉ d.order) (a : α) :
    (d.insert k a).Lists (pairs ++ [(k, a)]) where
  keys := by simp [insert, hk, h.keys]
  bound := by
    intro p hp
    rcases List.mem_append.mp hp with hold | hnew
    · have hne : p.1 ≠ k := by
        rintro rfl
        exact hk (h.keys ▸ List.mem_map_of_mem hold)
      simp [insert, Function.update_of_ne hne, h.bound p hold]
    · obtain rfl := List.mem_singleton.mp hnew
      simp [insert]

theorem set (h : d.Lists pairs) (hi : pairs[i]? = some (k, a)) (b : α) :
    (d.insert k b).Lists (pairs.set i (k, b)) where
  keys := by
    obtain ⟨hlt, hget⟩ := List.getElem?_eq_some_iff.mp hi
    have hbound : i < (pairs.map (·.1)).length := by simpa using hlt
    have hk : (pairs.map (·.1))[i] = k := by simp [hget]
    have hsame : (pairs.map (·.1)).set i k = pairs.map (·.1) := by
      rw [← hk, List.set_getElem_self]
    rw [List.map_set, hsame, h.keys]
    simp [insert, h.mem_order hi]
  bound := by
    intro p hp
    obtain ⟨j, hj⟩ := List.getElem?_of_mem hp
    by_cases hij : i = j
    · subst hij
      have hp : p = (k, b) := by
        rw [List.getElem?_set_self (List.getElem?_eq_some_iff.mp hi).1] at hj
        exact (Option.some.inj hj).symm
      simp [hp, insert]
    · rw [List.getElem?_set_ne hij] at hj
      have hne : p.1 ≠ k := by
        intro hk
        subst hk
        exact hij (h.index_eq hi hj)
      simp [insert, Function.update_of_ne hne, h.bound p (List.mem_of_getElem? hj)]

theorem eraseIdx (h : d.Lists pairs) (hi : pairs[i]? = some (k, a)) :
    (d.erase k).Lists (pairs.eraseIdx i) where
  keys := by
    have hnodup : (pairs.map (·.1)).Nodup := h.keys ▸ d.nodup
    obtain ⟨hlt, hget⟩ := List.getElem?_eq_some_iff.mp hi
    have herase := hnodup.erase_getElem i (by simpa using hlt)
    simp only [List.getElem_map, hget] at herase
    rw [← List.eraseIdx_map, ← herase, h.keys]
    rfl
  bound := by
    intro p hp
    obtain ⟨j, hne, hj⟩ := List.mem_eraseIdx_iff_getElem?.mp hp
    have hk : p.1 ≠ k := by
      rintro rfl
      exact hne (h.index_eq hj hi)
    simp [erase, Function.update_of_ne hk, h.bound p (List.mem_of_getElem? hj)]

end Lists

end Dictionary
