import CifApi.Store

/-! Calls that bind values, where the binding ends more often: they return more often, with the same
results. -/
namespace CifApi

/-- A binding that ends wherever another does, with the same columns. -/
def ValueProps.Extends (props' props : ValueProps) : Prop :=
  ∀ value r, props value = some r → props' value = some r

/-- The binding that refuses a value where another does not end. -/
def ValueProps.guarded (props : ValueProps) : ValueProps := fun value =>
  some ((props value).getD (.error Code.error))

theorem ValueProps.guarded_extends (props : ValueProps) : props.guarded.Extends props := by
  intro value r hbound
  rw [guarded, hbound, Option.getD_some]

theorem ValueProps.guarded_ne_none (props : ValueProps) (value : Value) :
    props.guarded value ≠ none :=
  Option.some_ne_none _

namespace Cif

/-- What the first call returns the second does; it is `p` that keeps the first from returning. -/
inductive Mirrors {α : Type} (p : Prop) : Option α → Option α → Prop
  | stuck (hp : p) (o : Option α) : Mirrors p none o
  | same (r : α) : Mirrors p (some r) (some r)

namespace Mirrors

variable {α : Type} {p q : Prop} {o o' : Option α}

theorem imp (h : Mirrors p o o') (hpq : p → q) : Mirrors q o o' := by
  cases h with
  | stuck hp => exact .stuck (hpq hp) _
  | same r => exact .same r

theorem ne_none (h : Mirrors p o o') (hp : ¬ p) : o ≠ none := by
  cases h with
  | stuck hp' => exact absurd hp' hp
  | same r => exact Option.some_ne_none r

theorem eq_some {r : α} (h : Mirrors p o o') (ho : o = some r) : o' = some r := by
  cases h with
  | stuck => cases ho
  | same => exact ho

end Mirrors

variable {icu : Icu} {props props' : ValueProps} (hprops : props'.Extends props) {cif : Cif}
  {container : Container} {loop : Loop} {name nameOrig : UStr} {value : Value}

include hprops

theorem mirrors_props (value : Value) :
    Mirrors (props value = none) (props value) (props' value) := by
  cases hbound : props value with
  | none => exact .stuck rfl _
  | some r =>
    rw [hprops value r hbound]
    exact .same r

theorem mirrors_setAllValues :
    Mirrors (props value = none) (cif.setAllValues props container name value)
      (cif.setAllValues props' container name value) := by
  have hbound := mirrors_props hprops value
  rw [setAllValues, setAllValues]
  generalize hp : props value = o at hbound ⊢
  generalize props' value = o' at hbound ⊢
  cases hbound with
  | stuck => exact .stuck rfl _
  | same r =>
    cases r with
    | error e => exact .same _
    | ok columns =>
      dsimp only
      split
      · exact .same _
      · exact .same _

theorem mirrors_addItemInternal : Mirrors (props value = none)
    (cif.addItemInternal props loop name nameOrig value)
    (cif.addItemInternal props' loop name nameOrig value) := by
  rw [addItemInternal, addItemInternal]
  split
  · exact .same _
  · rename_i t _
    have hset := @mirrors_setAllValues props props' hprops { cif.beginNesttx with tables := t }
      loop.container name value
    generalize setAllValues props loop.container name value _ = o at hset ⊢
    generalize setAllValues props' loop.container name value _ = o' at hset ⊢
    cases hset with
    | stuck hp => exact .stuck hp _
    | same r =>
      obtain ⟨_ | _, _⟩ := r
      · exact .same _
      · exact .same _

theorem mirrors_insertValues (loop : Loop) (rowNum : Nat) (packet : Packet) (t : Tables) :
    Mirrors (∃ item ∈ packet, props item.2.2 = none) (insertValues props loop rowNum packet t)
      (insertValues props' loop rowNum packet t) := by
  induction packet generalizing t with
  | nil => exact .same _
  | cons item packet ih =>
    obtain ⟨key, orig, value⟩ := item
    rw [insertValues, insertValues]
    split
    · exact .same _
    · have hbound := mirrors_props hprops value
      have hmore : (∃ item ∈ packet, props item.2.2 = none) →
          ∃ item ∈ (key, orig, value) :: packet, props item.2.2 = none := by
        rintro ⟨item, hmem, hnone⟩
        exact ⟨item, List.mem_cons_of_mem _ hmem, hnone⟩
      generalize hp : props value = o at hbound ⊢
      generalize props' value = o' at hbound ⊢
      cases hbound with
      | stuck => exact .stuck ⟨_, List.mem_cons_self, hp⟩ _
      | same r =>
        cases r with
        | error e => exact .same _
        | ok columns =>
          dsimp only
          split
          · exact .same _
          · exact (ih _).imp hmore

theorem mirrors_addPacket {packet : Packet} : Mirrors (∃ item ∈ packet, props item.2.2 = none)
    (cif.addPacket props loop packet) (cif.addPacket props' loop packet) := by
  rw [addPacket, addPacket]
  split
  · exact .same _
  · dsimp only
    split
    · exact .same _
    · split
      · exact .same _
      · rename_i l _ _
        have hins :=
          mirrors_insertValues hprops loop (l.lastRowNum + 1) packet { cif.beginNesttx.tables with
          loop := cif.beginNesttx.tables.loop.map fun l =>
            if l.containerId = loop.container.id && l.loopNum = loop.loopNum
              then { l with lastRowNum := l.lastRowNum + 1 } else l }
        generalize insertValues props loop (l.lastRowNum + 1) packet _ = o at hins ⊢
        generalize insertValues props' loop (l.lastRowNum + 1) packet _ = o' at hins ⊢
        cases hins with
        | stuck hp => exact .stuck hp _
        | same r =>
          cases r with
          | error e => exact .same _
          | ok t => exact .same _

theorem mirrors_addScalarTo : Mirrors (props value = none)
    (cif.addScalarTo icu props loop name nameOrig value)
    (cif.addScalarTo icu props' loop name nameOrig value) := by
  have hadd := @mirrors_addItemInternal props props' hprops cif loop name nameOrig value
  rw [addScalarTo, addScalarTo]
  generalize cif.addItemInternal props loop name nameOrig value = o at hadd ⊢
  generalize cif.addItemInternal props' loop name nameOrig value = o' at hadd ⊢
  cases hadd with
  | stuck hp => exact .stuck hp _
  | same r =>
    obtain ⟨_ | changes, added⟩ := r
    · exact .same _
    · cases changes with
      | zero =>
        cases icu.normalizeItemName name Code.invalidItemname with
        | error e => exact .same _
        | ok key =>
          refine (mirrors_addPacket hprops).imp ?_
          rintro ⟨item, hmem, hnone⟩
          obtain rfl := List.mem_singleton.mp hmem
          exact hnone
      | succ n => exact .same _

theorem mirrors_addScalar : Mirrors (props value = none)
    (cif.addScalar icu props container name nameOrig value)
    (cif.addScalar icu props' container name nameOrig value) := by
  rw [addScalar, addScalar]
  split
  · exact mirrors_addScalarTo hprops
  · split
    · exact .same _
    · exact mirrors_addScalarTo hprops

omit hprops in
theorem mirrors_endTx {α : Type} {p : Prop} {o o' : Option (Except Int α × Cif)}
    (h : Mirrors p o o') :
    Mirrors p (endTx o) (endTx o') := by
  cases h with
  | stuck hp => exact .stuck hp _
  | same r =>
    obtain ⟨_ | _, _⟩ := r
    · exact .same _
    · exact .same _

theorem mirrors_setValue :
    Mirrors (props value = none) (cif.setValue icu props container nameOrig value)
      (cif.setValue icu props' container nameOrig value) := by
  rw [setValue, setValue]
  split
  · exact .same _
  · split
    · exact .same _
    · split
      · exact mirrors_endTx (mirrors_setAllValues hprops)
      · split
        · exact mirrors_endTx (mirrors_addScalar hprops)
        · exact .same _

omit hprops

/-- `cif_container_set_value` returns if its value can be bound or is refused. -/
theorem setValue_ne_none (h : props value ≠ none) :
    cif.setValue icu props container nameOrig value ≠ none :=
  (mirrors_setValue fun _ _ hbound => hbound).ne_none h

theorem addPacket_ne_none {packet : Packet} (h : ∀ item ∈ packet, props item.2.2 ≠ none) :
    cif.addPacket props loop packet ≠ none :=
  by
  refine (mirrors_addPacket fun _ _ hbound => hbound).ne_none ?_
  rintro ⟨item, hmem, hnone⟩
  exact h item hmem hnone

end Cif

end CifApi
