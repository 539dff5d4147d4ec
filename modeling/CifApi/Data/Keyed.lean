import Mathlib.Data.List.Nodup
import Mathlib.Data.List.Sort
import Mathlib.Tactic.Common

/-! Lists: rows that have a key of their own, duplicates, sorting, and maps that can fail. -/

universe u v

/-- No two rows have one key. -/
def Keyed {α : Type u} {κ : Type v} (key : α → κ) (rows : List α) : Prop := (rows.map key).Nodup

namespace Keyed

variable {α : Type u} {κ : Type v} {key : α → κ} {rows rows' : List α}

theorem nil : Keyed key ([] : List α) := List.nodup_nil

theorem sublist (h : Keyed key rows) (hsub : rows'.Sublist rows) : Keyed key rows' :=
  List.Nodup.sublist (hsub.map key) h

theorem filter (h : Keyed key rows) (p : α → Bool) : Keyed key (rows.filter p) :=
  h.sublist List.filter_sublist

theorem append (h : Keyed key rows) (h' : Keyed key rows')
    (hne : ∀ r ∈ rows, ∀ r' ∈ rows', key r ≠ key r') : Keyed key (rows ++ rows') := by
  unfold Keyed at *
  rw [List.map_append, List.nodup_append]
  refine ⟨h, h', ?_⟩
  intro k hk k' hk'
  obtain ⟨r, hr, rfl⟩ := List.mem_map.mp hk
  obtain ⟨r', hr', rfl⟩ := List.mem_map.mp hk'
  exact hne r hr r' hr'

theorem concat (h : Keyed key rows) {a : α} (hne : ∀ r ∈ rows, key r ≠ key a) :
    Keyed key (rows ++ [a]) := by
  refine h.append (List.nodup_singleton _) ?_
  intro r hr r' hr'
  obtain rfl := List.mem_singleton.mp hr'
  exact hne r hr

theorem of_concat {a : α} (h : Keyed key (rows ++ [a])) : ∀ r ∈ rows, key r ≠ key a := by
  intro r hr
  unfold Keyed at h
  rw [List.map_append, List.nodup_append] at h
  exact h.2.2 _ (List.mem_map_of_mem hr) _ (by simp)

theorem map (h : Keyed key rows) {g : α → α} (hg : ∀ r ∈ rows, key (g r) = key r) :
    Keyed key (rows.map g) := by
  have heq : rows.map (key ∘ g) = rows.map key := List.map_congr_left hg
  unfold Keyed
  rw [List.map_map, heq]
  exact h

theorem eq (h : Keyed key rows) {r r' : α} (hr : r ∈ rows) (hr' : r' ∈ rows)
    (hkey : key r = key r') : r = r' :=
  List.inj_on_of_nodup_map h hr hr' hkey

/-- A row is found by what is true of its key only. -/
theorem find?_eq (h : Keyed key rows) {r : α} (hr : r ∈ rows) {p : α → Bool}
    (hp : ∀ r' ∈ rows, p r' = true ↔ key r' = key r) : rows.find? p = some r := by
  cases hfind : rows.find? p with
  | none =>
    have hno := List.find?_eq_none.mp hfind r hr
    exact absurd ((hp r hr).mpr rfl) hno
  | some r' =>
    have hr' := List.mem_of_find?_eq_some hfind
    rw [h.eq hr' hr ((hp r' hr').mp (List.find?_some hfind))]

end Keyed

theorem nodup_eraseDups {α : Type u} [BEq α] [LawfulBEq α] (l : List α) : l.eraseDups.Nodup := by
  induction h : l.length using Nat.strongRecOn generalizing l with
  | ind n ih =>
    cases l with
    | nil => exact List.nodup_nil
    | cons a l =>
      have hlt : (l.filter fun b => !b == a).length < n := by
        have hle := List.length_filter_le (fun b => !b == a) l
        simp only [List.length_cons] at h
        omega
      rw [List.eraseDups_cons, List.nodup_cons]
      refine ⟨?_, ih _ hlt _ rfl⟩
      rw [List.mem_eraseDups]
      simp

theorem eraseDups_sublist {α : Type u} [BEq α] (l : List α) : l.eraseDups.Sublist l := by
  induction h : l.length using Nat.strongRecOn generalizing l with
  | ind n ih =>
    cases l with
    | nil => exact List.Sublist.refl _
    | cons a l =>
      have hlt : (l.filter fun b => !b == a).length < n := by
        have hle := List.length_filter_le (fun b => !b == a) l
        simp only [List.length_cons] at h
        omega
      rw [List.eraseDups_cons]
      exact ((ih _ hlt _ rfl).trans List.filter_sublist).cons_cons a

section Sorting

variable {α : Type u} (r : α → α → Prop) [DecidableRel r]

theorem filter_orderedInsert (p : α → Bool) (a : α) {l : List α}
    (htrans : ∀ {a b c}, r a b → r b c → r a c) (hsorted : l.Pairwise r) :
    (l.orderedInsert r a).filter p
      = if p a then (l.filter p).orderedInsert r a else l.filter p := by
  induction l with
  | nil => by_cases ha : p a <;> simp [ha]
  | cons b l ih =>
    obtain ⟨hb, hl⟩ := List.pairwise_cons.mp hsorted
    by_cases hab : r a b
    · rw [List.orderedInsert_cons_of_le _ _ hab]
      by_cases ha : p a
      · -- what is kept of the rest is after the new element too
        rw [List.filter_cons_of_pos ha, if_pos ha]
        cases hf : (b :: l).filter p with
        | nil => rfl
        | cons c rest =>
          have hc : c ∈ b :: l :=
            (List.mem_filter.mp (hf ▸ List.mem_cons_self .. : c ∈ (b :: l).filter p)).1
          have hac : r a c := by
            rcases List.mem_cons.mp hc with rfl | hmem
            · exact hab
            · exact htrans hab (hb c hmem)
          rw [List.orderedInsert_cons_of_le _ _ hac]
      · rw [List.filter_cons_of_neg ha, if_neg ha]
    · rw [List.orderedInsert_of_not_le _ _ hab]
      by_cases hpb : p b
      · rw [List.filter_cons_of_pos hpb, List.filter_cons_of_pos hpb, ih hl]
        by_cases ha : p a
        · rw [if_pos ha, if_pos ha, List.orderedInsert_of_not_le _ _ hab]
        · rw [if_neg ha, if_neg ha]
      · rw [List.filter_cons_of_neg hpb, List.filter_cons_of_neg hpb, ih hl]

/-- A stable sort keeps the order of what a filter keeps. -/
theorem filter_insertionSort [Std.Total r] [IsTrans α r] (p : α → Bool) (l : List α) :
    (l.insertionSort r).filter p = (l.filter p).insertionSort r := by
  induction l with
  | nil => rfl
  | cons a l ih =>
    rw [List.insertionSort_cons,
      filter_orderedInsert r p a (fun hab hbc => IsTrans.trans _ _ _ hab hbc)
      (List.pairwise_insertionSort r l), ih]
    by_cases ha : p a
    · rw [if_pos ha, List.filter_cons_of_pos ha, List.insertionSort_cons]
    · rw [if_neg ha, List.filter_cons_of_neg ha]

end Sorting

/-- What a map that succeeds makes of each element. -/
theorem forall₂_of_mapM_eq_ok {ε α β : Type u} {f : α → Except ε β} {as : List α} {bs : List β}
    (h : as.mapM f = .ok bs) : List.Forall₂ (fun a b => f a = .ok b) as bs := by
  induction as generalizing bs with
  | nil =>
    obtain rfl : [] = bs := Except.ok.inj h
    exact .nil
  | cons a as ih =>
    rw [List.mapM_cons] at h
    cases hf : f a with
    | error e => simp [hf, bind, Except.bind] at h
    | ok b =>
      cases hrest : as.mapM f with
      | error e => simp [hf, hrest, bind, Except.bind] at h
      | ok bs' =>
        obtain rfl : b :: bs' = bs := by
          simpa [hf, hrest, bind, Except.bind, pure, Except.pure] using h
        exact .cons hf (ih hrest)

theorem exists_of_mapM_eq_ok {ε α β : Type u} {f : α → Except ε β} {as : List α} {bs : List β}
    (h : as.mapM f = .ok bs) {b : β} (hb : b ∈ bs) : ∃ a ∈ as, f a = .ok b := by
  have hall := forall₂_of_mapM_eq_ok h
  clear h
  induction hall with
  | nil => simp at hb
  | cons hf _ ih =>
    rcases List.mem_cons.mp hb with rfl | hmem
    · exact ⟨_, List.mem_cons_self .., hf⟩
    · obtain ⟨a, ha, hfa⟩ := ih hmem
      exact ⟨a, List.mem_cons_of_mem _ ha, hfa⟩

theorem mapM_eq_ok_map {ε α β : Type u} {f : α → Except ε β} {g : α → β} {as : List α}
    (h : ∀ a ∈ as, f a = .ok (g a)) : as.mapM f = .ok (as.map g) := by
  induction as with
  | nil => rfl
  | cons a as ih =>
    rw [List.mapM_cons, h a (List.mem_cons_self ..), ih fun a' ha' =>
      h a' (List.mem_cons_of_mem _ ha')]
    rfl

/-- A map that fails does so at an element. -/
theorem exists_of_mapM_eq_error {ε α β : Type u} {f : α → Except ε β} {as : List α} {e : ε}
    (h : as.mapM f = .error e) : ∃ a ∈ as, f a = .error e := by
  induction as with
  | nil => cases h
  | cons a as ih =>
    rw [List.mapM_cons] at h
    cases hfirst : f a with
    | error e' =>
      rw [hfirst] at h
      cases h
      exact ⟨a, List.mem_cons_self, hfirst⟩
    | ok b =>
      rw [hfirst] at h
      cases hrest : as.mapM f with
      | error e' =>
        rw [hrest] at h
        cases h
        obtain ⟨a', hmem, ha'⟩ := ih hrest
        exact ⟨a', List.mem_cons_of_mem _ hmem, ha'⟩
      | ok bs =>
        rw [hrest] at h
        cases h

theorem map_modify_eq_set {α : Type u} {β : Type v} {l : List α} {i : Nat} {a : α}
    (hi : l[i]? = some a) (f : α → α) (g : α → β) :
    (l.modify i f).map g = (l.map g).set i (g (f a)) := by
  apply List.ext_getElem?
  intro j
  by_cases hij : i = j
  · subst hij
    have hlt := (List.getElem?_eq_some_iff.mp hi).1
    rw [List.getElem?_map, List.getElem?_modify_eq, hi, List.getElem?_set_self (by simpa using hlt)]
    rfl
  · rw [List.getElem?_map, List.getElem?_modify_ne _ _ hij, List.getElem?_set_ne hij,
      List.getElem?_map]

/-- After a modification there is only what there was, and the modified element. -/
theorem mem_modify {α : Type u} {l : List α} {i : Nat} {a b : α} (hi : l[i]? = some a) {f : α → α}
    (h : b ∈ l.modify i f) : b = f a ∨ b ∈ l := by
  obtain ⟨j, hj⟩ := List.getElem?_of_mem h
  by_cases hij : i = j
  · subst hij
    rw [List.getElem?_modify_eq, hi] at hj
    exact .inl (Option.some.inj hj).symm
  · rw [List.getElem?_modify_ne _ _ hij] at hj
    exact .inr (List.mem_of_getElem? hj)
