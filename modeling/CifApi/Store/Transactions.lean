import CifApi.Store.Session

/-! Calls that fail change nothing, and no call ends a transaction that it did not begin. -/
namespace CifApi

open Exec

namespace Cif

variable {α : Type} {icu : Icu} {props : ValueProps} {cif : Cif}

/-- The tables that rolling back the open transaction would restore, if one is open. -/
def base (cif : Cif) : Option Tables := cif.saved.getLast?

theorem autocommit_iff : cif.autocommit = true ↔ cif.base = none := by
  simp [autocommit, base]

/-- A failed call leaves the tables as they were, and any call leaves open the transaction it found
open. -/
structure Atomic (cif : Cif) (r : Except Int α × Cif) : Prop where
  base_eq : r.2.base = cif.base
  unchanged : ∀ e, r.1 = .error e → r.2.tables = cif.tables

section Transactions

/-- What a nested transaction or savepoint leaves when it is committed. -/
theorem commitNesttx_beginNesttx (t : Tables) :
    ({ cif.beginNesttx with tables := t } : Cif).commitNesttx cif.autocommit
      = { cif with tables := t } := by
  by_cases h : cif.autocommit
  · have hsaved : cif.saved = [] := by simpa [autocommit] using h
    simp [commitNesttx, h, commit, hsaved]
  · simp [commitNesttx, h, beginNesttx]

/-- What it leaves when it is rolled back: the savepoint stays, a transaction does not. -/
theorem rollbackNesttx_beginNesttx (t : Tables) :
    ({ cif.beginNesttx with tables := t } : Cif).rollbackNesttx cif.autocommit
      = if cif.autocommit then cif else cif.beginNesttx := by
  by_cases h : cif.autocommit
  · have hsaved : cif.saved = [] := by simpa [autocommit] using h
    cases cif
    simp_all [rollbackNesttx, rollback, beginNesttx]
  · simp [rollbackNesttx, h, beginNesttx]

theorem base_beginNesttx (h : cif.autocommit = false) : cif.beginNesttx.base = cif.base := by
  cases hs : cif.saved with
  | nil => simp [autocommit, hs] at h
  | cons t ts => simp [base, beginNesttx, hs, List.getLast?_cons_cons]

theorem beginTx_eq_some {cif' : Cif} :
    cif.beginTx = some cif' ↔ cif.saved = [] ∧ cif' = { cif with saved := [cif.tables] } := by
  by_cases h : cif.autocommit
  · have hsaved : cif.saved = [] := by simpa [autocommit] using h
    rw [beginTx, if_pos h, Option.some.injEq]
    exact ⟨fun heq => ⟨hsaved, heq.symm⟩, fun heq => heq.2.symm⟩
  · rw [beginTx, if_neg h]
    simp_all [autocommit]

theorem Atomic.of_ok {a : α} {t : Tables} : Atomic cif (.ok a, { cif with tables := t }) where
  base_eq := rfl
  unchanged := by
    intro e he
    cases he

theorem Atomic.of_unchanged {r : Except Int α} : Atomic cif (r, cif) := ⟨rfl, fun _ _ => rfl⟩

theorem Atomic.of_rollback {r : Except Int α} {t : Tables} :
    Atomic cif (r, ({ cif.beginNesttx with tables := t } : Cif).rollbackNesttx cif.autocommit) := by
  rw [rollbackNesttx_beginNesttx]
  by_cases h : cif.autocommit
  · rw [if_pos h]
    exact .of_unchanged
  · rw [if_neg h]
    exact ⟨base_beginNesttx (by simpa using h), fun _ _ => rfl⟩

theorem Atomic.of_commit {r : Except Int α} {t : Tables} (h : ∀ e, r ≠ .error e) :
    Atomic cif (r, ({ cif.beginNesttx with tables := t } : Cif).commitNesttx cif.autocommit) := by
  rw [commitNesttx_beginNesttx]
  exact ⟨rfl, fun e he => absurd he (h e)⟩

/-- A transaction of the call's own, rolled back. -/
theorem Atomic.of_exclusive_rollback {r : Except Int α} {cif' : Cif} (hsaved : cif.saved = [])
    (hbase : cif'.base = some cif.tables) : Atomic cif (r, cif'.rollback) where
  base_eq := by simp [rollback, base, hsaved]
  unchanged := by
    intro _ _
    rw [rollback, List.getLastD_eq_getLast?, show cif'.saved.getLast? = some cif.tables from hbase]
    rfl

theorem Atomic.of_exclusive_commit {a : α} {cif' : Cif} (hsaved : cif.saved = []) :
    Atomic cif (.ok a, cif'.commit) where
  base_eq := by simp [commit, base, hsaved]
  unchanged := by
    intro e he
    cases he

theorem Atomic.map {β : Type} {r : Except Int α × Cif} (h : Atomic cif r) (f : α → β) :
    Atomic cif (r.1.map f, r.2) where
  base_eq := h.base_eq
  unchanged := by
    intro e he
    cases hr : r.1 with
    | ok a => simp [hr, Except.map] at he
    | error e' => exact h.unchanged e' hr

end Transactions

section Binding

/-- Setting the values of an item touches no transaction. -/
theorem setAllValues_saved (container : Container) (name : UStr) (value : Value) :
    Outcome (fun r => ∃ t, r.2 = { cif with tables := t })
      (cif.setAllValues props container name value) := by
  unfold setAllValues
  split
  · trivial
  · exact ⟨cif.tables, rfl⟩
  · split
    · exact ⟨cif.tables, rfl⟩
    · exact ⟨_, rfl⟩

/-- The values are set where the value can be bound and, if there is a row for it, passes the
checks. -/
theorem setAllValues_iff {container : Container} {name : UStr} {value : Value} {changes : Nat}
    {cif' : Cif} :
    cif.setAllValues props container name value = some (.ok changes, cif')
      ↔ ((∃ columns, props value = some (.ok columns))
          ∧ (packetRows container name cif.tables ≠ [] → value.Writable props))
        ∧ changes = (packetRows container name cif.tables).length
        ∧ cif' = { cif with tables := (setAllValuesSql container name value cif.tables).2 } := by
  rcases hset : props value with _ | ⟨_ | columns⟩
  · simp [setAllValues, hset]
  · simp [setAllValues, hset]
  · simp only [setAllValues, hset, Value.writable_iff hset, setAllValuesSql]
    by_cases hfails : (packetRows container name cif.tables ≠ [] && !columns.check) = true
    · obtain ⟨hne, hcheck⟩ : packetRows container name cif.tables ≠ [] ∧ columns.check = false := by
        simpa using hfails
      rw [if_pos hfails]
      constructor
      · intro herror
        simp at herror
      · rintro ⟨⟨-, hchecked⟩, -⟩
        exact absurd (hchecked hne) (by simp [hcheck])
    · rw [if_neg hfails]
      have hchecked : packetRows container name cif.tables ≠ [] → columns.check = true := by
        intro hne
        simpa [hne] using hfails
      constructor
      · intro hok
        obtain ⟨hr, hc⟩ := Prod.mk.inj (Option.some.inj hok)
        exact ⟨⟨⟨columns, rfl⟩, hchecked⟩, (Except.ok.inj hr).symm, hc.symm⟩
      · rintro ⟨-, rfl, rfl⟩
        rfl

/-- A packet is inserted value by value: each belongs to the loop, passes the checks and is new. -/
theorem insertValues_cons_iff {loop : Loop} {rowNum : Nat} {key orig : UStr} {value : Value}
    {packet : Packet} {t t' : Tables} :
    insertValues props loop rowNum ((key, orig, value) :: packet) t = some (.ok t')
      ↔ (∃ li ∈ t.loopItem, li.containerId = loop.container.id ∧ li.name = key
        ∧ li.loopNum = loop.loopNum)
        ∧ value.Writable props
        ∧ (∀ iv ∈ t.itemValue, ¬ (iv.containerId = loop.container.id ∧ iv.name = key
          ∧ iv.rowNum = rowNum))
        ∧ insertValues props loop rowNum packet
          { t with itemValue := t.itemValue ++ [⟨loop.container.id, key, rowNum, value⟩] }
            = some (.ok t') := by
  have hitem : (t.loopItem.any fun li => li.containerId = loop.container.id && li.name = key
      && li.loopNum = loop.loopNum) = true
      ↔ ∃ li ∈ t.loopItem, li.containerId = loop.container.id ∧ li.name = key
        ∧ li.loopNum = loop.loopNum := by
    simp [and_assoc]
  have hnew : (t.itemValue.any fun iv => iv.containerId = loop.container.id && iv.name = key
      && iv.rowNum = rowNum) = false
      ↔ ∀ iv ∈ t.itemValue, ¬ (iv.containerId = loop.container.id ∧ iv.name = key
        ∧ iv.rowNum = rowNum) := by
    simp [and_assoc]
  rw [insertValues, ← hitem, ← hnew]
  generalize (t.loopItem.any fun li => li.containerId = loop.container.id && li.name = key
    && li.loopNum = loop.loopNum) = present
  generalize (t.itemValue.any fun iv => iv.containerId = loop.container.id && iv.name = key
    && iv.rowNum = rowNum) = taken
  cases present with
  | false => simp
  | true =>
    rcases hprops : props value with _ | ⟨_ | columns⟩
    · simp [Value.Writable, hprops]
    · simp [Value.Writable, hprops]
    · rw [Value.writable_iff hprops]
      cases hcheck : columns.check <;> cases taken <;> simp [hcheck]

/-- Values that have been inserted could be bound. -/
theorem writable_of_insertValues {loop : Loop} {rowNum : Nat} {packet : Packet} {t t' : Tables}
    (h : insertValues props loop rowNum packet t = some (.ok t')) :
    ∀ item ∈ packet, item.2.2.Writable props := by
  induction packet generalizing t with
  | nil => exact fun _ hmem => absurd hmem List.not_mem_nil
  | cons item packet ih =>
    obtain ⟨key, orig, value⟩ := item
    obtain ⟨-, hwritable, -, hmore⟩ := insertValues_cons_iff.mp h
    exact List.forall_mem_cons.mpr ⟨hwritable, ih hmore⟩

/-- An item is added with its value in all packets of the loop, where the value can be set. -/
theorem addItemInternal_iff {loop : Loop} {name nameOrig : UStr} {value : Value}
    {changes : Nat} {cif' : Cif} :
    cif.addItemInternal props loop name nameOrig value = some (.ok changes, cif')
      ↔ ∃ t, addLoopItem loop.container name nameOrig loop.loopNum cif.tables = some t
        ∧ ((∃ columns, props value = some (.ok columns))
          ∧ (packetRows loop.container name t ≠ [] → value.Writable props))
        ∧ changes = (packetRows loop.container name t).length
        ∧ cif' = { cif with tables := (setAllValuesSql loop.container name value t).2 } := by
  have hset : cif.addItemInternal props loop name nameOrig value = some (.ok changes, cif')
      ↔ ∃ t, addLoopItem loop.container name nameOrig loop.loopNum cif.tables = some t
        ∧ ∃ done, ({ cif.beginNesttx with tables := t } : Cif).setAllValues props loop.container
          name value
            = some (.ok changes, done) ∧ cif' = done.commitNesttx cif.autocommit := by
    have htables : cif.beginNesttx.tables = cif.tables := rfl
    simp only [addItemInternal, htables]
    cases addLoopItem loop.container name nameOrig loop.loopNum cif.tables with
    | none => simp
    | some t =>
      simp only [Option.some.injEq, exists_eq_left']
      generalize setAllValues props loop.container name value
        { tables := t, saved := cif.beginNesttx.saved } = o
      rcases o with _ | ⟨_ | _, done⟩
      · simp
      · simp
      · simp only [Option.some.injEq, Prod.mk.injEq, Except.ok.injEq]
        constructor
        · rintro ⟨rfl, rfl⟩
          exact ⟨done, ⟨rfl, rfl⟩, rfl⟩
        · rintro ⟨_, ⟨rfl, rfl⟩, rfl⟩
          exact ⟨rfl, rfl⟩
  rw [hset]
  constructor
  · rintro ⟨t, hadd, done, hdone, rfl⟩
    obtain ⟨hboth, rfl, rfl⟩ := setAllValues_iff.mp hdone
    exact ⟨t, hadd, hboth, rfl, commitNesttx_beginNesttx _⟩
  · rintro ⟨t, hadd, hboth, rfl, rfl⟩
    exact ⟨t, hadd, _, setAllValues_iff.mpr ⟨hboth, rfl, rfl⟩, (commitNesttx_beginNesttx _).symm⟩

/-- A packet is added in the loop's next row, if its values can be inserted. -/
theorem addPacket_iff {loop : Loop} {packet : Packet} {cif' : Cif} :
    cif.addPacket props loop packet = some (.ok (), cif')
      ↔ packet ≠ [] ∧ ∃ l, cif.tables.loop.find? (fun l => l.containerId = loop.container.id
          && l.loopNum = loop.loopNum) = some l
        ∧ (l.category = some [] → l.lastRowNum = 0)
        ∧ ∃ t, insertValues props loop (l.lastRowNum + 1) packet { cif.tables with
            loop := cif.tables.loop.map fun l => if l.containerId = loop.container.id
              && l.loopNum = loop.loopNum
              then { l with lastRowNum := l.lastRowNum + 1 } else l } = some (.ok t)
          ∧ cif' = { cif with tables := t } := by
  have htables : cif.beginNesttx.tables = cif.tables := rfl
  by_cases hempty : packet = []
  · simp [addPacket, hempty]
  · simp only [addPacket, if_neg hempty, htables]
    cases hfind : cif.tables.loop.find? fun l => l.containerId = loop.container.id
      && l.loopNum = loop.loopNum with
    | none => simp
    | some l =>
      by_cases hscalar : l.category = some [] ∧ 1 < l.lastRowNum + 1
      · have hfull : l.lastRowNum ≠ 0 := by omega
        simp [hscalar.1, hscalar.2, hfull]
      · have hfree : l.category = some [] → l.lastRowNum = 0 := fun hcat => by
          by_contra hrow
          exact hscalar ⟨hcat, by omega⟩
        have hguard : (l.category = some [] && 1 < l.lastRowNum + 1) = false := by
          rw [← Bool.not_eq_true]
          simpa using hscalar
        simp only [hguard, Bool.false_eq_true, if_false, Option.some.injEq, exists_eq_left', ne_eq,
          hempty, not_false_eq_true, true_and]
        generalize insertValues props loop (l.lastRowNum + 1) packet _ = o
        rcases o with _ | ⟨_ | t⟩
        · simp
        · simp
        · simp only [commitNesttx_beginNesttx, Option.some.injEq, Prod.mk.injEq, Except.ok.injEq,
            true_and,
            exists_eq_left', eq_comm (a := cif')]
          exact (and_iff_right hfree).symm

theorem writable_of_addPacket {loop : Loop} {packet : Packet} {cif' : Cif}
    (h : cif.addPacket props loop packet = some (.ok (), cif')) :
    ∀ item ∈ packet, item.2.2.Writable props := by
  obtain ⟨-, l, -, -, t, hins, -⟩ := addPacket_iff.mp h
  exact writable_of_insertValues hins

end Binding

section Calls

theorem createBlockInternal_atomic (code : UStr) (lenient : Bool) :
    Atomic cif (cif.createBlockInternal icu code lenient) := by
  unfold createBlockInternal
  split
  · exact .of_unchanged
  · split
    · exact .of_unchanged
    · rename_i hbegin
      obtain ⟨hsaved, rfl⟩ := beginTx_eq_some.mp hbegin
      simp only
      split
      · exact .of_exclusive_rollback hsaved rfl
      · exact .of_exclusive_commit hsaved

theorem createFrameInternal_atomic (parent : Container) (code : UStr) (lenient : Bool) :
    Atomic cif (cif.createFrameInternal icu parent code lenient) := by
  unfold createFrameInternal
  split
  · exact .of_unchanged
  · split
    · exact .of_unchanged
    · rename_i hbegin
      obtain ⟨hsaved, rfl⟩ := beginTx_eq_some.mp hbegin
      simp only
      split
      · exact .of_exclusive_rollback hsaved rfl
      · exact .of_exclusive_commit hsaved

theorem destroyContainer_atomic (container : Container) :
    Atomic cif (cif.destroyContainer container) := by
  unfold destroyContainer
  split
  · exact .of_ok
  · exact .of_unchanged

theorem createLoopInternal_atomic (container : Container) (category : Option UStr)
    (names : List (UStr × UStr)) : Atomic cif
      (cif.createLoopInternal container category names) := by
  unfold createLoopInternal
  simp only
  split
  · exact .of_rollback
  · split
    · exact .of_rollback
    · exact .of_commit (by simp)

theorem createLoop_atomic (container : Container) (category : Option UStr) (names : List UStr) :
    Atomic cif (cif.createLoop icu container category names) := by
  unfold createLoop
  split
  · exact .of_unchanged
  · split
    · exact .of_unchanged
    · exact createLoopInternal_atomic _ _ _

theorem destroyLoop_atomic (loop : Loop) : Atomic cif (cif.destroyLoop loop) := by
  unfold destroyLoop
  split
  · exact .of_ok
  · exact .of_unchanged

theorem map_ite_of_any_eq_false {β : Type} {l : List β} {p : β → Bool} (h : l.any p = false)
    (g : β → β) : (l.map fun b => if p b then g b else b) = l := by
  have hsame : ∀ b ∈ l, (if p b then g b else b) = b := by
    intro b hb
    have hp := List.any_eq_false.mp h b hb
    rw [if_neg hp]
  rw [List.map_congr_left hsame, List.map_id']

/-- A handle that no loop has any more changes no row, though the statement succeeds. -/
theorem setCategory_atomic (loop : Loop) (category : Option UStr) :
    Atomic cif ((cif.setCategory loop category).1, (cif.setCategory loop category).2.2) := by
  unfold setCategory
  simp only
  split
  · exact .of_unchanged
  · refine ⟨rfl, ?_⟩
    intro e he
    by_cases hany : cif.tables.loop.any fun l =>
        l.containerId = loop.container.id && l.loopNum = loop.loopNum
    · simp [hany] at he
    · have hmap := map_ite_of_any_eq_false (Bool.eq_false_of_not_eq_true hany)
        fun l : LoopRow => { l with category }
      simp only [hmap]

theorem getNamesInternal_snd (loop : Loop) (normalize : Bool) :
    (cif.getNamesInternal icu loop normalize).2 = if cif.autocommit then cif else cif.beginNesttx :=
  rollbackNesttx_beginNesttx cif.tables

theorem getNamesInternal_atomic (loop : Loop) (normalize : Bool) :
    Atomic cif (cif.getNamesInternal icu loop normalize) := by
  unfold getNamesInternal
  exact .of_rollback (t := cif.tables)

theorem getAllLoops_atomic (container : Container) : Atomic cif (cif.getAllLoops container) := by
  unfold getAllLoops
  exact .of_rollback (t := cif.tables)

theorem addItemInternal_atomic (loop : Loop) (name nameOrig : UStr) (value : Value) :
    Outcome (Atomic cif) (cif.addItemInternal props loop name nameOrig value) := by
  unfold addItemInternal
  simp only
  split
  · exact .of_rollback (t := cif.tables)
  · rename_i t _
    have hsaved : Outcome _ (({ cif.beginNesttx with tables := t } : Cif).setAllValues props
      loop.container name value) := setAllValues_saved loop.container name value
    split
    · trivial
    · rename_i hset
      obtain ⟨t', rfl⟩ := hsaved.of_some hset
      exact .of_rollback
    · rename_i hset
      obtain ⟨t', rfl⟩ := hsaved.of_some hset
      exact .of_commit (by simp)

theorem addItem_atomic (loop : Loop) (itemName : UStr) (val : Option Value) :
    Outcome (Atomic cif) (cif.addItem icu props loop itemName val) := by
  unfold addItem
  split
  · exact .of_unchanged
  · rw [outcome_map]
    exact (addItemInternal_atomic _ _ _ _).imp fun r hr => hr.map _

theorem addPacket_atomic (loop : Loop) (packet : Packet) :
    Outcome (Atomic cif) (cif.addPacket props loop packet) := by
  unfold addPacket
  simp only
  split
  · exact .of_unchanged
  · split
    · exact .of_rollback (t := cif.tables)
    · split
      · exact .of_rollback (t := cif.tables)
      · split
        · trivial
        · exact .of_rollback
        · exact .of_commit (by simp)

theorem prune_atomic (container : Container) :
    Atomic cif ((.ok () : Except Int Unit), cif.prune container) := ⟨rfl, by simp⟩

/-- Whatever part of the work of adding a scalar is done, the transaction around it stays open. -/
theorem addScalarTo_base (loop : Loop) (name nameOrig : UStr) (value : Value) :
    Outcome (fun r => r.2.base = cif.base)
      (cif.addScalarTo icu props loop name nameOrig value) := by
  have hadd : Outcome (Atomic cif) (cif.addItemInternal props loop name nameOrig value) :=
    addItemInternal_atomic loop name nameOrig value
  unfold addScalarTo
  split
  · trivial
  · rename_i h
    exact (hadd.of_some h).base_eq
  · rename_i h
    split
    · exact (hadd.of_some h).base_eq
    · exact (addPacket_atomic _ _).imp fun r hr => hr.base_eq.trans (hadd.of_some h).base_eq
  · rename_i h
    exact (hadd.of_some h).base_eq

theorem addScalar_base (container : Container) (name nameOrig : UStr) (value : Value) :
    Outcome (fun r => r.2.base = cif.base)
      (cif.addScalar icu props container name nameOrig value) := by
  unfold addScalar
  split
  · exact addScalarTo_base _ _ _ _
  · have hloop : (cif.createLoopInternal container (some []) []).2.base = cif.base :=
      (createLoopInternal_atomic container (some []) []).base_eq
    split
    · rename_i h
      rwa [h] at hloop
    · rename_i h
      rw [h] at hloop
      exact (addScalarTo_base _ _ _ _).imp fun r hr => hr.trans hloop

/-- A transaction of the call's own, ended by what was done in it. -/
theorem Atomic.of_endTx {o : Option (Except Int α × Cif)} (hsaved : cif.saved = [])
    (hbase : Outcome (fun r => r.2.base = some cif.tables) o) : Outcome (Atomic cif) (endTx o) := by
  unfold endTx
  split
  · trivial
  · exact .of_exclusive_commit hsaved
  · exact .of_exclusive_rollback hsaved hbase

theorem setValue_atomic (container : Container) (nameOrig : UStr) (value : Value) :
    Outcome (Atomic cif) (cif.setValue icu props container nameOrig value) := by
  unfold setValue
  split
  · exact .of_unchanged
  · split
    · exact .of_unchanged
    · rename_i hbegin
      obtain ⟨hsaved, rfl⟩ := beginTx_eq_some.mp hbegin
      split
      · refine Atomic.of_endTx hsaved ((setAllValues_saved _ _ _).imp ?_)
        rintro ⟨r, _⟩ ⟨t, rfl⟩
        rfl
      · split
        · exact Atomic.of_endTx hsaved (addScalar_base _ _ _ _)
        · exact .of_exclusive_rollback hsaved rfl

theorem endTx_iff {o : Option (Except Int α × Cif)} {cif' : Cif} :
    endTx o = some (.ok (), cif') ↔ ∃ a done, o = some (.ok a, done) ∧ cif' = done.commit := by
  rcases o with _ | ⟨_ | a, done⟩ <;> simp [endTx, eq_comm]

/-- A value that is set is set in all packets of its item, or in a new scalar, in a transaction. -/
theorem setValue_iff {container : Container} {nameOrig : UStr} {value : Value} {cif' : Cif} :
    cif.setValue icu props container nameOrig value = some (.ok (), cif')
      ↔ ∃ name, icu.normalizeItemName nameOrig Code.invalidItemname = .ok name ∧ cif.saved = []
        ∧ ((∃ changes done, (∃ loop, cif.getItemLoopInternal container name = .ok loop)
              ∧ ({ cif with saved := [cif.tables] } : Cif).setAllValues props container name value
                = some (.ok changes, done)
              ∧ cif' = done.commit)
          ∨ ∃ done, cif.getItemLoopInternal container name = .error Code.nosuchItem
              ∧ ({ cif with saved := [cif.tables] } : Cif).addScalar icu props container name
                nameOrig value
                = some (.ok (), done)
              ∧ cif' = done.commit) := by
  rw [setValue]
  cases hnorm : icu.normalizeItemName nameOrig Code.invalidItemname with
  | error e => simp
  | ok name =>
    cases hbegin : cif.beginTx with
    | none =>
      have hopen : cif.saved ≠ [] := by
        intro hsaved
        simp [beginTx_eq_some.mpr ⟨hsaved, rfl⟩] at hbegin
      simp [hopen]
    | some begun =>
      obtain ⟨hsaved, rfl⟩ := beginTx_eq_some.mp hbegin
      have hget : ({ cif with saved := [cif.tables] } : Cif).getItemLoopInternal container name
          = cif.getItemLoopInternal container name := rfl
      simp only [hget, Except.ok.injEq, exists_eq_left', hsaved, true_and]
      cases hloop : cif.getItemLoopInternal container name with
      | ok loop => simp [endTx_iff]
      | error e =>
        by_cases hnosuch : e = Code.nosuchItem
        · simp [hnosuch, endTx_iff, Unique.exists_iff]
        · simp [hnosuch]

theorem removeItem_atomic (container : Container) (itemName : UStr) :
    Atomic cif (cif.removeItem icu container itemName) := by
  unfold removeItem
  split
  · exact .of_unchanged
  · split
    · exact .of_unchanged
    · rename_i hbegin
      obtain ⟨hsaved, rfl⟩ := beginTx_eq_some.mp hbegin
      simp only
      split
      · exact .of_exclusive_rollback hsaved rfl
      · exact .of_exclusive_commit hsaved

end Calls

end Cif

namespace PacketIterator

variable {icu : Icu} {props : ValueProps} {cif : Cif}

open Cif (Atomic)

/-- An iterator is given out where no transaction was open, and leaves its own open. -/
theorem getPackets_ok {loop : Loop} {it : PacketIterator} {cif' : Cif}
    (h : cif.getPackets icu loop = (.ok it, cif')) :
    cif.saved = [] ∧ cif' = { cif with saved := [cif.tables] } ∧ it.loop = loop
      ∧ (cif.getNamesInternal icu loop true).1 = .ok it.itemNames
      ∧ it.rows = Cif.loopValues loop cif.tables ∧ it.rows ≠ []
      ∧ it.finished = false ∧ it.previousRowNum = 0 := by
  unfold Cif.getPackets at h
  have hsnd : (cif.getNamesInternal icu loop true).2 = if cif.autocommit then cif
      else cif.beginNesttx :=
    Cif.getNamesInternal_snd loop true
  split at h
  · simp at h
  · rename_i hget
    rw [hget] at hsnd
    split at h
    · simp at h
    · rename_i hbegin
      obtain ⟨hsaved, rfl⟩ := Cif.beginTx_eq_some.mp hbegin
      have hauto : cif.autocommit = true := by
        by_contra hopen
        simp_all [Cif.beginNesttx]
      obtain rfl : _ = cif := by simpa [hauto] using hsnd
      split at h
      · simp at h
      · rename_i hrows
        obtain ⟨hit, rfl⟩ := Prod.mk.inj h
        obtain rfl := Except.ok.inj hit
        exact ⟨hsaved, rfl, rfl, by rw [hget], rfl, hrows, rfl, rfl⟩

/-- A failure to begin leaves nothing behind. -/
theorem getPackets_error {loop : Loop} {e : Int} {cif' : Cif}
    (h : cif.getPackets icu loop = (.error e, cif')) : cif'.base = cif.base
      ∧ cif'.tables = cif.tables := by
  have hbase : (cif.getNamesInternal icu loop true).2.base = cif.base :=
    (Cif.getNamesInternal_atomic loop true).base_eq
  have hsnd : (cif.getNamesInternal icu loop true).2 = if cif.autocommit then cif
      else cif.beginNesttx :=
    Cif.getNamesInternal_snd loop true
  have htables : (cif.getNamesInternal icu loop true).2.tables = cif.tables := by
    rw [hsnd]
    by_cases hauto : cif.autocommit <;> simp [hauto, Cif.beginNesttx]
  unfold Cif.getPackets at h
  split at h
  · rename_i hget
    rw [hget] at hbase htables
    obtain ⟨_, rfl⟩ := Prod.mk.inj h
    exact ⟨hbase, htables⟩
  · rename_i hget
    rw [hget] at hbase htables
    split at h
    · obtain ⟨_, rfl⟩ := Prod.mk.inj h
      exact ⟨hbase, htables⟩
    · rename_i hbegin
      obtain ⟨hsaved, rfl⟩ := Cif.beginTx_eq_some.mp hbegin
      split at h
      · obtain ⟨_, rfl⟩ := Prod.mk.inj h
        refine ⟨?_, htables⟩
        rw [← hbase]
        simp [Cif.rollback, Cif.base, hsaved]
      · simp at h

theorem updatePacket_atomic (it : PacketIterator) (packet : Packet) :
    Outcome (Atomic cif) (it.updatePacket props packet cif) := by
  unfold updatePacket
  split
  · exact .of_unchanged
  · rename_i hauto
    have hopen : cif.autocommit = false := by simpa using hauto
    split
    · exact .of_unchanged
    · simp only
      split
      · trivial
      · have h : ∀ r : Except Int Unit,
            Atomic cif (r, cif.beginNesttx.rollbackNesttx cif.autocommit) :=
          fun _ => .of_rollback (t := cif.tables)
        rw [hopen] at h
        exact h _
      · have h : ∀ t, Atomic cif ((.ok () : Except Int Unit),
            ({ cif.beginNesttx with tables := t } : Cif).commitNesttx cif.autocommit) :=
          fun _ => .of_commit (by simp)
        rw [hopen] at h
        exact h _

/-- A packet is updated value by value: each is of an item that the iterator knows, and passes the
checks. -/
theorem updateValues_cons_iff {it : PacketIterator} {key orig : UStr} {value : Value}
    {packet : Packet} {t t' : Tables} :
    it.updateValues props ((key, orig, value) :: packet) t = some (.ok t')
      ↔ key ∈ it.itemNames ∧ value.Writable props
        ∧ (∃ li ∈ t.loopItem, li.containerId = it.loop.container.id ∧ li.name = key)
        ∧ it.updateValues props packet { t with
          itemValue :=
  (t.itemValue.filter fun iv => !(iv.containerId = it.loop.container.id && iv.name = key
            && iv.rowNum = it.previousRowNum)) ++ [⟨it.loop.container.id, key, it.previousRowNum,
            value⟩] }
            = some (.ok t') := by
  have hknown : it.itemNames.contains key = true ↔ key ∈ it.itemNames := by simp
  have hitem : (t.loopItem.any fun li => li.containerId = it.loop.container.id && li.name = key)
      = true
      ↔ ∃ li ∈ t.loopItem, li.containerId = it.loop.container.id ∧ li.name = key := by
    simp
  rw [updateValues, ← hknown, ← hitem]
  generalize it.itemNames.contains key = known
  generalize (t.loopItem.any fun li => li.containerId = it.loop.container.id && li.name = key)
    = present
  cases known with
  | false => simp
  | true =>
    rcases hprops : props value with _ | ⟨_ | columns⟩
    · simp [Value.Writable, hprops]
    · simp [Value.Writable, hprops]
    · rw [Value.writable_iff hprops]
      cases hcheck : columns.check <;> cases present <;> simp [hcheck]

theorem removePacket_atomic (it : PacketIterator) :
    Atomic cif ((it.removePacket cif).1, (it.removePacket cif).2.2) := by
  unfold removePacket
  split
  · exact .of_unchanged
  · rename_i hauto
    have hopen : cif.autocommit = false := by simpa using hauto
    split
    · exact .of_unchanged
    · have h : ∀ t, Atomic cif ((.ok () : Except Int Unit),
          ({ cif.beginNesttx with tables := t } : Cif).commitNesttx cif.autocommit) :=
        fun _ => .of_commit (by simp)
      rw [hopen] at h
      exact h _

/-- Reading a packet changes the iterator only in what it has read. -/
theorem nextPacket_loop (it : PacketIterator) (cif : Cif) :
    (it.nextPacket cif).2.loop = it.loop := by
  unfold nextPacket
  split
  · rfl
  · simp only
    split
    · rfl
    · split <;> rfl

end PacketIterator

namespace StoreOp

/-- The calls that create, change or remove stored data, other than whole loops and containers. -/
inductive Mutator : StoreOp → Prop where
  | createBlock (code : UStr) (lenient : Bool) : Mutator (.createBlock code lenient)
  | createFrame (parent : Container) (code : UStr) (lenient : Bool) :
    Mutator (.createFrame parent code lenient)
  | createLoop (container : Container) (category : Option UStr) (names : List UStr) :
    Mutator (.createLoop container category names)
  | setValue (container : Container) (name : UStr) (val : Value) :
    Mutator (.setValue container name val)
  | removeItem (container : Container) (name : UStr) : Mutator (.removeItem container name)
  | addItem (loop : Loop) (itemName : UStr) (val : Option Value) :
    Mutator (.addItem loop itemName val)
  | addPacket (loop : Loop) (packet : Packet) : Mutator (.addPacket loop packet)
  | setCategory (loop : Loop) (category : Option UStr) : Mutator (.setCategory loop category)
  | setOwnCategory (category : Option UStr) : Mutator (.setOwnCategory category)
  | updatePacket (packet : Packet) : Mutator (.updatePacket packet)
  | removePacket : Mutator .removePacket

/-- The calls that end an iteration. -/
def EndsIteration (op : StoreOp) : Prop := op = .close ∨ op = .abort

end StoreOp

namespace Session

variable {icu : Icu} {platform : Platform} {s s' : Session}

/-- What every call but those that end an iteration leaves: the transaction it found open, and, if
it fails, the tables. -/
structure Contained (s : Session) (r : Except Int Unit × Session) : Prop where
  base_eq : r.2.cif.base = s.cif.base
  unchanged : ∀ e, r.1 = .error e → r.2.cif.tables = s.cif.tables

theorem Contained.of_atomic {α : Type} {call : Option (Except Int α × Cif)}
    (h : Outcome (Cif.Atomic s.cif) call) :
    Outcome (Contained s) (s.onCif call) := by
  rw [onCif, outcome_map]
  refine h.imp fun r hr => ⟨hr.base_eq, ?_⟩
  intro e he
  cases hresult : r.1 with
  | ok a => simp [result, hresult] at he
  | error e' => exact hr.unchanged e' hresult

theorem Contained.onIterator {f : PacketIterator → Option (Except Int Unit × Session)}
    (h : ∀ it, s.iterator = some it → Outcome (Contained s) (f it)) : Outcome (Contained s)
    (s.onIterator f) := by
  unfold Session.onIterator
  cases hit : s.iterator with
  | none => exact ⟨rfl, fun _ _ => rfl⟩
  | some it => exact h it hit

theorem Contained.with_iterator {r : Except Int Unit} {cif : Cif} (h : Cif.Atomic s.cif (r, cif))
    (it : Option PacketIterator) : Contained s (r, { cif, iterator := it }) :=
  ⟨h.base_eq, h.unchanged⟩

/-- While an iterator is open, no other can be made. -/
theorem getPackets_contained {loop : Loop} (h : s.cif.saved ≠ []) :
    Outcome (fun r => Contained s r ∧ r.2.iterator = s.iterator)
      (s.step icu platform (.getPackets loop)) := by
  simp only [step]
  split
  · rename_i heq
    obtain ⟨hbase, htables⟩ := PacketIterator.getPackets_error heq
    exact ⟨⟨hbase, fun _ _ => htables⟩, rfl⟩
  · rename_i heq
    exact absurd (PacketIterator.getPackets_ok heq).1 h

theorem step_contained {op : StoreOp} (hend : ¬ op.EndsIteration)
    (hget : ∀ loop, op ≠ .getPackets loop) :
    Outcome (Contained s) (s.step icu platform op) := by
  cases op with
  | createBlock code lenient =>
    exact Contained.of_atomic (Cif.createBlockInternal_atomic code lenient)
  | createFrame parent code lenient =>
    exact Contained.of_atomic (Cif.createFrameInternal_atomic parent code lenient)
  | destroyContainer container => exact Contained.of_atomic (Cif.destroyContainer_atomic container)
  | createLoop container category names =>
    exact Contained.of_atomic (Cif.createLoop_atomic container category names)
  | destroyLoop loop => exact Contained.of_atomic (Cif.destroyLoop_atomic loop)
  | setCategory loop category =>
    exact .with_iterator (Cif.setCategory_atomic loop category) s.iterator
  | setOwnCategory category =>
    exact Contained.onIterator fun it _ =>
      .with_iterator (Cif.setCategory_atomic it.loop category) _
  | getNames loop => exact Contained.of_atomic (Cif.getNamesInternal_atomic loop false)
  | addItem loop itemName val => exact Contained.of_atomic (Cif.addItem_atomic loop itemName val)
  | addPacket loop packet => exact Contained.of_atomic (Cif.addPacket_atomic loop packet)
  | getAllLoops container => exact Contained.of_atomic (Cif.getAllLoops_atomic container)
  | prune container => exact .with_iterator (Cif.prune_atomic container) s.iterator
  | setValue container name val =>
    exact Contained.of_atomic (Cif.setValue_atomic container name val)
  | removeItem container name => exact Contained.of_atomic (Cif.removeItem_atomic container name)
  | getPackets loop => exact absurd rfl (hget loop)
  | nextPacket => exact Contained.onIterator fun it _ => .with_iterator .of_unchanged _
  | updatePacket packet =>
    exact Contained.onIterator fun it _ =>
      Contained.of_atomic (PacketIterator.updatePacket_atomic it packet)
  | removePacket =>
    exact Contained.onIterator fun it _ => .with_iterator (PacketIterator.removePacket_atomic it) _
  | close => exact absurd (.inl rfl) hend
  | abort => exact absurd (.inr rfl) hend

/-- A mutator that fails leaves the stored data as they were, and so does rolling back later. -/
theorem mutator_atomic {op : StoreOp} (hop : op.Mutator) {e : Int}
    (herror : s.step icu platform op = some (.error e, s')) :
    s'.cif.tables = s.cif.tables ∧ s'.cif.base = s.cif.base := by
  have hcontained : Outcome (Contained s) (s.step icu platform op) := by
    cases hop <;> exact step_contained (by simp [StoreOp.EndsIteration]) (by simp)
  have hleft := hcontained.of_some herror
  exact ⟨hleft.unchanged e rfl, hleft.base_eq⟩

/-- A block with a loop of one packet, and its first packet read. -/
def iterating : Session :=
  let block : Container := ⟨1, units "a", units "a", none⟩
  let loop : Loop := ⟨block, 0, none⟩
  ({} : Session).after Icu.ascii Platform.exact [.createBlock (units "a") false,
    .createLoop block none [units "_x", units "_y"],
    .addPacket loop [(units "_x", units "_x", .na)], .getPackets loop, .nextPacket]

/-- A number that rounding left without digits. -/
def noDigits : Value := .numb ⟨units "0", 1, [], none, 0⟩ false

/-- An update that sets one value and fails at the next, which the checks refuse. -/
theorem mutator_atomic_updatePacket :
    let op :=
  StoreOp.updatePacket [(units "_y", units "_y", .na), (units "_x", units "_x", noDigits)]
    ∃ s', iterating.step Icu.ascii Platform.exact op = some (.error Code.error, s')
      ∧ s'.cif.tables = iterating.cif.tables ∧ s'.cif.base = iterating.cif.base := by
  intro op
  have herror : (iterating.step Icu.ascii Platform.exact op).map (·.1)
      = some (.error Code.error) := by
    decide +kernel
  obtain ⟨⟨r, s'⟩, hstep, hr⟩ := Option.map_eq_some_iff.mp herror
  obtain rfl : r = .error Code.error := hr
  exact ⟨s', hstep, mutator_atomic (.updatePacket _) hstep⟩

/-- No call but those that end the iteration touches its transaction or takes its iterator away. -/
theorem step_keeps_transaction {op : StoreOp} (hend : ¬ op.EndsIteration) {t : Tables}
    (hbase : s.cif.base = some t) (hit : s.iterator.isSome) {r : Except Int Unit}
    (hstep : s.step icu platform op = some (r, s')) : s'.cif.base = some t
      ∧ s'.iterator.isSome := by
  have hopen : s.cif.saved ≠ [] := by
    intro hnil
    simp [Cif.base, hnil] at hbase
  obtain ⟨it, hsome⟩ := Option.isSome_iff_exists.mp hit
  have honCif : ∀ {α : Type} {call : Option (Except Int α × Cif)},
      Outcome (fun r => r.2.iterator.isSome) (s.onCif call) := by
    intro α call
    rw [onCif, outcome_map]
    exact outcome_iff.mpr fun _ _ => hit
  have hiterator : Outcome (fun r => r.2.iterator.isSome) (s.step icu platform op) := by
    cases op with
    | getPackets loop =>
      refine (getPackets_contained hopen).imp fun r hr => ?_
      rw [hr.2]
      exact hit
    | close => exact absurd (.inl rfl) hend
    | abort => exact absurd (.inr rfl) hend
    | setCategory loop category => exact hit
    | prune container => exact hit
    | setOwnCategory category =>
      simp only [step, onIterator, hsome]
      rfl
    | nextPacket =>
      simp only [step, onIterator, hsome]
      rfl
    | updatePacket packet =>
      simp only [step, onIterator, hsome]
      exact honCif
    | removePacket =>
      simp only [step, onIterator, hsome]
      rfl
    | _ => exact honCif
  refine ⟨?_, hiterator.of_some hstep⟩
  by_cases hget : ∃ loop, op = .getPackets loop
  · obtain ⟨loop, rfl⟩ := hget
    exact ((getPackets_contained hopen).of_some hstep).1.base_eq.trans hbase
  · have hcontained : Outcome (Contained s) (s.step icu platform op) :=
      step_contained hend (by simpa using hget)
    exact (hcontained.of_some hstep).base_eq.trans hbase

theorem run_keeps_transaction {ops : List StoreOp} (hops : ∀ op ∈ ops, ¬ op.EndsIteration)
    {t : Tables} (hbase : s.cif.base = some t) (hit : s.iterator.isSome)
    (hrun : s.run icu platform ops = some s') :
    s'.cif.base = some t ∧ s'.iterator.isSome := by
  induction ops generalizing s with
  | nil =>
    cases hrun
    exact ⟨hbase, hit⟩
  | cons op ops ih =>
    obtain ⟨r, s₁, hstep, hrest⟩ := run_cons.mp hrun
    obtain ⟨hbase', hit'⟩ :=
      step_keeps_transaction (hops op (List.mem_cons_self ..)) hbase hit hstep
    exact ih (fun op' hop' => hops op' (List.mem_cons_of_mem _ hop')) hbase' hit' hrest

/-- Aborting an iteration brings back the store that it began with, whatever was done in between,
and until then its transaction stays open. -/
theorem abort_restores {loop : Loop} {begun : Session}
    (hget : s.step icu platform (.getPackets loop) = some (.ok (), begun))
    {ops : List StoreOp} (hops : ∀ op ∈ ops, ¬ op.EndsIteration) :
    (∀ before after s', ops = before ++ after → begun.run icu platform before = some s' →
        s'.cif.autocommit = false ∧ s'.cif.base = some s.cif.tables)
      ∧ ∀ s', begun.run icu platform ops = some s' →
        ∃ ended, s'.step icu platform .abort = some (.ok (), ended) ∧ ended.cif = s.cif := by
  have hstart : s.cif.saved = [] ∧ begun.cif.base = some s.cif.tables ∧ begun.iterator.isSome := by
    simp only [step] at hget
    split at hget
    · simp at hget
    · rename_i heq
      obtain ⟨hsaved, rfl, _⟩ := PacketIterator.getPackets_ok heq
      cases hget
      exact ⟨hsaved, rfl, rfl⟩
  obtain ⟨hsaved, hbase, hit⟩ := hstart
  refine ⟨?_, ?_⟩
  · intro before after s' heq hrun
    have hops' : ∀ op ∈ before, ¬ op.EndsIteration := fun op hop => hops op (by simp [heq, hop])
    have hbefore := (run_keeps_transaction hops' hbase hit hrun).1
    refine ⟨?_, hbefore⟩
    have hne := Cif.autocommit_iff.not.mpr (by rw [hbefore]; simp)
    simpa using hne
  · intro s' hrun
    obtain ⟨hbase', hit'⟩ := run_keeps_transaction hops hbase hit hrun
    obtain ⟨it, hsome⟩ := Option.isSome_iff_exists.mp hit'
    have hauto : s'.cif.autocommit = false := by
      have hne := Cif.autocommit_iff.not.mpr (by rw [hbase']; simp)
      simpa using hne
    have hlast : s'.cif.saved.getLastD s'.cif.tables = s.cif.tables := by
      rw [List.getLastD_eq_getLast?, show s'.cif.saved.getLast? = some s.cif.tables from hbase']
      rfl
    simp only [step, onIterator, hsome, PacketIterator.abort, hauto]
    refine ⟨_, rfl, ?_⟩
    simp only [Bool.false_eq_true, if_false, Cif.rollback, hlast]
    rw [← hsaved]

/-- What is added, changed and destroyed while a loop is iterated is gone when the iteration is
aborted, and so is what a refused value left. -/
theorem abort_restores_example :
    let block : Container := ⟨1, units "a", units "a", none⟩
    let loop : Loop := ⟨block, 0, none⟩
    let s := ({} : Session).after Icu.ascii Platform.exact [.createBlock (units "a") false,
      .createLoop block none [units "_x"], .addPacket loop [(units "_x", units "_x", .na)]]
    let ops : List StoreOp :=
      [.getPackets loop, .nextPacket, .updatePacket [(units "_x", units "_x", .unk)],
      .addItem loop (units "_y") noDigits, .createBlock (units "b") false, .destroyContainer block,
      .abort]
    ∃ s', s.run Icu.ascii Platform.exact ops = some s' ∧ s'.cif = s.cif := by
  intro block loop s ops
  let ops' : List StoreOp := [.nextPacket, .updatePacket [(units "_x", units "_x", .unk)],
    .addItem loop (units "_y") noDigits, .createBlock (units "b") false, .destroyContainer block]
  have hget : (s.step Icu.ascii Platform.exact (.getPackets loop)).map (·.1) = some (.ok ()) := by
    decide +kernel
  obtain ⟨⟨r, begun⟩, hbegin, hr⟩ := Option.map_eq_some_iff.mp hget
  obtain rfl : r = .ok () := hr
  have hreturn : ((s.step Icu.ascii Platform.exact (.getPackets loop)).bind fun r =>
      r.2.run Icu.ascii Platform.exact ops').isSome := by decide +kernel
  rw [hbegin] at hreturn
  obtain ⟨s', hrun⟩ := Option.isSome_iff_exists.mp hreturn
  have hops : ∀ op ∈ ops', ¬ op.EndsIteration := by simp [ops', StoreOp.EndsIteration]
  obtain ⟨ended, habort, hcif⟩ := (abort_restores hbegin hops).2 s' hrun
  refine ⟨ended, ?_, hcif⟩
  have hwhole : ops = .getPackets loop :: (ops' ++ [.abort]) := rfl
  rw [hwhole]
  exact run_cons.mpr ⟨_, begun, hbegin,
    run_append.mpr ⟨s', hrun, run_cons.mpr ⟨_, ended, habort, rfl⟩⟩⟩

end Session

end CifApi
