import Mathlib.Data.List.Nodup
import Mathlib.Tactic.Common

/-! Objects with an identity, live from their allocation until they are freed. -/

/-- The objects in the order of their allocation, and nothing in the place of those freed. -/
structure Heap (α : Type*) where
  cells : List (Option α)
  deriving DecidableEq

namespace Heap

variable {α : Type*} {h h' : Heap α} {a : α} {id : ℕ} {ids more : List ℕ}

def empty : Heap α := ⟨[]⟩

/-- The object, while it is live. -/
def read (h : Heap α) (id : ℕ) : Option α := (h.cells[id]?).join

def alloc (h : Heap α) (a : α) : ℕ × Heap α := (h.cells.length, ⟨h.cells ++ [some a]⟩)

/-- Nothing comes of freeing what is not live. -/
def free (h : Heap α) (id : ℕ) : Option (Heap α) :=
  if (h.read id).isSome then some ⟨h.cells.set id none⟩ else none

def freeAll : List ℕ → Heap α → Option (Heap α)
  | [], h => some h
  | id :: ids, h => (h.free id).bind (freeAll ids)

/-- These are different live objects. -/
structure Owns (h : Heap α) (ids : List ℕ) : Prop where
  nodup : ids.Nodup
  live : ∀ id ∈ ids, (h.read id).isSome

/-- The objects of these identities are the same in both. -/
def Agree (h h' : Heap α) (ids : List ℕ) : Prop := ∀ id ∈ ids, h'.read id = h.read id

/-- The object was live once, and is not now. -/
structure Freed (h : Heap α) (id : ℕ) : Prop where
  lt : id < h.cells.length
  read : h.read id = none

theorem Agree.trans {h'' : Heap α} (hfirst : Agree h h' ids) (hsecond : Agree h' h'' ids) :
    Agree h h'' ids :=
  fun id hid => (hsecond id hid).trans (hfirst id hid)

theorem Agree.mono (hagree : Agree h h' ids) (hsub : ∀ id ∈ more, id ∈ ids) : Agree h h' more :=
  fun id hid => hagree id (hsub id hid)

theorem Owns.perm (howns : h.Owns ids) (hperm : ids.Perm more) : h.Owns more :=
  ⟨hperm.nodup_iff.mp howns.nodup, fun id hid => howns.live id (hperm.mem_iff.mpr hid)⟩

theorem owns_empty : (empty : Heap α).Owns [] := ⟨List.nodup_nil, by simp⟩

theorem lt_of_live (hlive : (h.read id).isSome) : id < h.cells.length := by
  by_contra hge
  rw [read, List.getElem?_eq_none (Nat.le_of_not_lt hge)] at hlive
  cases hlive

theorem read_alloc (h : Heap α) (a : α) : (h.alloc a).2.read (h.alloc a).1 = some a := by
  rw [alloc, read, List.getElem?_append_right (Nat.le_refl _), Nat.sub_self]
  rfl

/-- Objects have been allocated since, and none freed. -/
def Grows (h h' : Heap α) : Prop := h.cells <+: h'.cells

theorem grows_refl (h : Heap α) : h.Grows h := List.prefix_refl _

theorem Grows.trans {h'' : Heap α} (hfirst : h.Grows h') (hsecond : h'.Grows h'') : h.Grows h'' :=
  List.IsPrefix.trans hfirst hsecond

theorem grows_alloc (h : Heap α) (a : α) : h.Grows (h.alloc a).2 := List.prefix_append _ _

theorem Grows.read (hgrows : h.Grows h') (hlt : id < h.cells.length) : h'.read id = h.read id := by
  obtain ⟨more, hmore⟩ := hgrows
  rw [Heap.read, Heap.read, ← hmore, List.getElem?_append_left hlt]

theorem read_alloc_self (h : Heap α) (a : α) : h.read (h.alloc a).1 = none := by
  rw [read, alloc, List.getElem?_eq_none (Nat.le_refl _)]
  rfl

/-- A new object, and all others as they were. -/
theorem Owns.alloc (howns : h.Owns ids) (a : α) : (h.alloc a).2.Owns ((h.alloc a).1 :: ids)
    ∧ Agree h (h.alloc a).2 ids := by
  have hagree : Agree h (h.alloc a).2 ids :=
    fun id hid => (grows_alloc h a).read (lt_of_live (howns.live id hid))
  refine ⟨⟨List.nodup_cons.mpr ⟨?_, howns.nodup⟩, ?_⟩, hagree⟩
  · intro hmem
    exact absurd (lt_of_live (howns.live _ hmem)) (Nat.lt_irrefl _)
  · intro id hid
    rcases List.mem_cons.mp hid with rfl | hid
    · rw [read_alloc]
      rfl
    · rw [hagree id hid]
      exact howns.live id hid

/-- An object is freed, and all others are as they were. -/
theorem Owns.free (howns : h.Owns (id :: ids)) :
    ∃ h', h.free id = some h' ∧ h'.Owns ids ∧ Agree h h' ids := by
  obtain ⟨hnot, hnodup⟩ := List.nodup_cons.mp howns.nodup
  have hagree : Agree h ⟨h.cells.set id none⟩ ids := by
    intro j hj
    have hne : id ≠ j := by
      rintro rfl
      exact hnot hj
    rw [read, List.getElem?_set_ne hne]
    rfl
  refine ⟨_, if_pos (howns.live id (List.mem_cons_self ..)), ⟨hnodup, ?_⟩, hagree⟩
  intro j hj
  rw [hagree j hj]
  exact howns.live j (List.mem_cons_of_mem _ hj)

theorem Owns.freeAll (howns : h.Owns (ids ++ more)) :
    ∃ h', Heap.freeAll ids h = some h' ∧ h'.Owns more ∧ Agree h h' more := by
  induction ids generalizing h with
  | nil => exact ⟨h, rfl, howns, fun _ _ => rfl⟩
  | cons id ids ih =>
    obtain ⟨h', hfree, howns', hagree⟩ := howns.free
    obtain ⟨h'', hrest, howns'', hagree'⟩ := ih howns'
    refine ⟨h'', ?_, howns'', (hagree.mono fun j hj => List.mem_append_right _ hj).trans hagree'⟩
    rw [Heap.freeAll, hfree]
    exact hrest

/-- What was freed stays so. -/
theorem Freed.grows (hfreed : h.Freed id) (hgrows : h.Grows h') : h'.Freed id :=
  ⟨Nat.lt_of_lt_of_le hfreed.lt (List.IsPrefix.length_le hgrows),
    (hgrows.read hfreed.lt).trans hfreed.read⟩

theorem Freed.free {other : ℕ} (hfreed : h.Freed id) (hfree : h.free other = some h') :
    h'.Freed id := by
  rw [Heap.free] at hfree
  split at hfree
  · cases hfree
    refine ⟨by simpa using hfreed.lt, ?_⟩
    by_cases hid : other = id
    · subst hid
      rw [Heap.read, List.getElem?_set_self hfreed.lt]
      rfl
    · rw [Heap.read, List.getElem?_set_ne hid]
      exact hfreed.read
  · cases hfree

theorem Freed.freeAll (hfreed : h.Freed id) (hfree : Heap.freeAll ids h = some h') :
    h'.Freed id := by
  induction ids generalizing h with
  | nil =>
    cases hfree
    exact hfreed
  | cons other ids ih =>
    obtain ⟨h'', hfirst, hrest⟩ := Option.bind_eq_some_iff.mp hfree
    exact ih (hfreed.free hfirst) hrest

theorem freed_free (hfree : h.free id = some h') : h'.Freed id := by
  rw [Heap.free] at hfree
  split at hfree
  · rename_i hlive
    cases hfree
    refine ⟨by simpa using lt_of_live hlive, ?_⟩
    rw [Heap.read, List.getElem?_set_self (lt_of_live hlive)]
    rfl
  · cases hfree

end Heap
