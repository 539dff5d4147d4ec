import Mathlib.Data.List.Nodup
import Mathlib.Tactic.Common

/-! Things that are used, and freed, in the course of a run, as the record of the run tells. -/

namespace Reuse

variable {ε ι : Type*} (uses frees : ε → List ι)

/-- What has been freed, by a record with its newest entry first. -/
def freed (log : List ε) : List ι := log.flatMap frees

/-- Nothing is used, or freed again, after it has been freed. -/
def NeverReused : List ε → Prop
  | [] => True
  | e :: log => (∀ i ∈ uses e, i ∉ freed frees log) ∧ NeverReused log

/-- Nothing has been reused, and what is held is held once and has not been freed. -/
structure Owned (log : List ε) (held : List ι) : Prop where
  never : NeverReused uses frees log
  nodup : held.Nodup
  live : ∀ i ∈ held, i ∉ freed frees log

variable {uses frees} {e : ε} {log more : List ε} {held rest : List ι} {i : ι}

@[simp] theorem freed_cons : freed frees (e :: log) = frees e ++ freed frees log :=
  List.flatMap_cons

theorem NeverReused.of_append (h : NeverReused uses frees (more ++ log)) :
    NeverReused uses frees log := by
  induction more with
  | nil => exact h
  | cons e more ih => exact ih h.2

theorem not_neverReused (h : i ∈ uses e) (hfreed : i ∈ freed frees log) :
    ¬ NeverReused uses frees (e :: log) :=
  fun hnever => hnever.1 i h hfreed

theorem owned_nil : Owned uses frees ([] : List ε) ([] : List ι) :=
  ⟨trivial, List.nodup_nil, by simp⟩

/-- An entry that uses only what is held, and frees nothing. -/
theorem Owned.use (h : Owned uses frees log held) (huses : ∀ i ∈ uses e, i ∈ held)
    (hfrees : frees e = []) :
    Owned uses frees (e :: log) held := by
  refine ⟨⟨fun i hi => h.live i (huses i hi), h.never⟩, h.nodup, fun i hi => ?_⟩
  rw [freed_cons, hfrees]
  exact h.live i hi

/-- An entry that frees some of what is held. -/
theorem Owned.free (h : Owned uses frees log held) (huses : ∀ i ∈ uses e, i ∈ held)
    (hperm : (frees e ++ rest).Perm held) : Owned uses frees (e :: log) rest := by
  have hnodup := hperm.nodup_iff.mpr h.nodup
  rw [List.nodup_append] at hnodup
  refine ⟨⟨fun i hi => h.live i (huses i hi), h.never⟩, hnodup.2.1, fun i hi hfreed => ?_⟩
  rw [freed_cons, List.mem_append] at hfreed
  rcases hfreed with hnow | hbefore
  · exact hnodup.2.2 i hnow i hi rfl
  · exact h.live i (hperm.mem_iff.mp (List.mem_append_right _ hi)) hbefore

/-- Something new is held. -/
theorem Owned.add (h : Owned uses frees log held) (hfreed : i ∉ freed frees log)
    (hheld : i ∉ held) :
    Owned uses frees log (held ++ [i]) := by
  refine ⟨h.never, ?_, fun j hj => ?_⟩
  · rw [List.nodup_append]
    refine ⟨h.nodup, List.nodup_singleton i, fun j hj k hk => ?_⟩
    rw [List.mem_singleton.mp hk]
    rintro rfl
    exact hheld hj
  · rcases List.mem_append.mp hj with hj | hj
    · exact h.live j hj
    · rw [List.mem_singleton.mp hj]
      exact hfreed

end Reuse
