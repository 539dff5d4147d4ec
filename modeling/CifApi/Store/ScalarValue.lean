import CifApi.Store.Iteration

/-! Setting a new scalar's value and getting it again, down to the columns of its row. -/
namespace CifApi

open Exec
open Tables (Follows)

namespace Cif

section Binding

variable {icu : Icu} {props : ValueProps} {value : Value} {cif : Cif}

theorem writable_of_addItemInternal {loop : Loop} {name nameOrig : UStr} {changes : Nat}
    {cif' : Cif} (h : cif.addItemInternal props loop name nameOrig value = some (.ok changes, cif'))
    (hchanges : changes ≠ 0) :
    value.Writable props := by
  obtain ⟨t, -, ⟨-, hwritable⟩, rfl, -⟩ := addItemInternal_iff.mp h
  refine hwritable ?_
  intro hnil
  rw [hnil] at hchanges
  exact hchanges rfl

theorem writable_of_addScalarTo {loop : Loop} {name nameOrig : UStr} {cif' : Cif}
    (h : cif.addScalarTo icu props loop name nameOrig value = some (.ok (), cif')) :
    value.Writable props := by
  unfold addScalarTo at h
  split at h
  · cases h
  · cases h
  · split at h
    · cases h
    · exact writable_of_addPacket h _ (List.mem_singleton_self _)
  · rename_i hnonzero hadd
    exact writable_of_addItemInternal hadd hnonzero

theorem writable_of_addScalar {container : Container} {name nameOrig : UStr} {cif' : Cif}
    (h : cif.addScalar icu props container name nameOrig value = some (.ok (), cif')) :
    value.Writable props := by
  unfold addScalar at h
  split at h
  · exact writable_of_addScalarTo h
  · split at h
    · cases h
    · exact writable_of_addScalarTo h

/-- A new item gets its value only if the columns can hold it. -/
theorem writable_of_setValue {container : Container} {name nameOrig : UStr} {cif' : Cif}
    (hnorm : icu.normalizeItemName nameOrig Code.invalidItemname = .ok name)
    (habsent : itemLoops container name cif.tables = [])
    (h : cif.setValue icu props container nameOrig value = some (.ok (), cif')) :
    value.Writable props := by
  obtain ⟨name', hnorm', -, hdone⟩ := setValue_iff.mp h
  obtain rfl : name = name' := Except.ok.inj (hnorm.symm.trans hnorm')
  rcases hdone with ⟨_, _, ⟨loop, hloop⟩, -⟩ | ⟨done, -, hadd, -⟩
  · simp [getItemLoopInternal, habsent] at hloop
  · exact writable_of_addScalar hadd

end Binding

section Setting

variable {icu : Icu} {props : ValueProps} {bounded : Prop} {t : Tables} {container : Container}
  {name nameOrig : UStr} {value : Value}

/-- The tables with one more item in a loop. -/
def withItem (t : Tables) (container : Container) (name nameOrig : UStr) (loopNum : Nat) : Tables :=
  { t with loopItem := t.loopItem ++ [⟨container.id, name, nameOrig, loopNum⟩] }

/-- The tables with one more value. -/
def withValues (t : Tables) (values : List ItemValueRow) : Tables :=
  { t with itemValue := t.itemValue ++ values }

theorem addLoopItem_eq (habsent : ∀ li ∈ t.loopItem, Tables.itemKey li ≠ (container.id, name))
    {loopNum : Nat} (hloop : ∃ l ∈ t.loop, Tables.loopKey l = (container.id, loopNum)) :
    addLoopItem container name nameOrig loopNum t
      = some (withItem t container name nameOrig loopNum) := by
  obtain ⟨l, hl, hkey⟩ := hloop
  have hnew : t.loopItem.any (fun li => li.containerId = container.id && li.name = name)
      = false := by
    rw [List.any_eq_false]
    intro li hli
    have hne := habsent li hli
    simpa [Tables.itemKey] using hne
  have hhas : t.loop.any (fun l => l.containerId = container.id && l.loopNum = loopNum) = true := by
    rw [List.any_eq_true]
    exact ⟨l, hl, by simpa [Tables.loopKey] using hkey⟩
  simp only [addLoopItem, hnew, hhas, Bool.not_true, Bool.or_self, Bool.false_eq_true, if_false,
    withItem]

/-- An item that is not there has no values. -/
theorem no_values (h : t.WellFormed icu bounded)
    (habsent : ∀ li ∈ t.loopItem, Tables.itemKey li ≠ (container.id, name)) :
    ∀ iv ∈ t.itemValue, (iv.containerId, iv.name) ≠ (container.id, name) := by
  intro iv hiv hkey
  obtain ⟨li, hli, hli', _⟩ := h.placed iv hiv
  exact habsent li hli (hli'.trans hkey)

theorem itemLoops_absent (habsent : ∀ li ∈ t.loopItem, Tables.itemKey li ≠ (container.id, name)) :
    itemLoops container name t = [] := by
  refine List.filter_eq_nil_iff.mpr fun l _ hl => ?_
  simp only [Bool.and_eq_true, List.any_eq_true, decide_eq_true_eq] at hl
  obtain ⟨_, li, hli, ⟨hcid, hname⟩, _⟩ := hl
  exact habsent li hli (Prod.ext hcid hname)

/-- The rows a new item gets are those of the loop's packets. -/
theorem packetRows_withItem (h : t.WellFormed icu bounded)
    (habsent : ∀ li ∈ t.loopItem, Tables.itemKey li ≠ (container.id, name)) (loopNum : Nat)
    (category : Option UStr) :
    (packetRows container name (withItem t container name nameOrig loopNum)).Perm
      ((packets ⟨container, loopNum, category⟩ t).map (·.1)) := by
  have hrows : (packets ⟨container, loopNum, category⟩ t).map (·.1)
      = ((loopValues ⟨container, loopNum, category⟩ t).map (·.rowNum)).eraseDups := by
    simp [packets, packetsOf, List.map_map, Function.comp_def]
  rw [hrows]
  refine (List.perm_ext_iff_of_nodup (nodup_eraseDups _) (nodup_eraseDups _)).mpr fun row => ?_
  rw [List.mem_eraseDups, List.mem_eraseDups, List.mem_map, List.mem_map]
  refine exists_congr fun iv => and_congr_left fun _ => ?_
  rw [List.mem_filter, Tables.mem_loopValues]
  simp only [withItem, Bool.and_eq_true, decide_eq_true_eq, List.any_eq_true, List.mem_append,
    List.mem_singleton, Tables.itemKey, Prod.mk.injEq]
  constructor
  · rintro ⟨hiv, hcid, li₁, hli₁, ⟨hcid₁, hname₁⟩, li₂, hli₂, ⟨hcid₂, hnum⟩, hname₂⟩
    refine ⟨hiv, hcid, ?_⟩
    have hnew : li₁ ∉ t.loopItem := fun hmem =>
      habsent li₁ hmem (by simp [Tables.itemKey, hcid₁, hname₁])
    obtain rfl := hli₁.resolve_left hnew
    rcases hli₂ with hold | rfl
    · exact ⟨li₂, hold, ⟨hcid₂, hname₂⟩, hnum⟩
    · exact absurd (Prod.ext hcid hname₂.symm) (no_values h habsent iv hiv)
  · rintro ⟨hiv, hcid, li, hli, ⟨hcid', hname⟩, hnum⟩
    exact ⟨hiv, hcid, _, .inr rfl, ⟨rfl, rfl⟩, li, .inl hli, ⟨hcid', hnum⟩, hname⟩

/-- How it goes with the value of a new scalar, where the scalars so far have their values in
`rows`: it joins each of them, or makes the first, or is refused. -/
inductive NewScalar (icu : Icu) (container : Container) (name : UStr) (value : Value) (t : Tables)
    (rows : List Nat) (unnumbered : Prop) : Except Int Unit × Cif → Prop
  | joins {rows' : List Nat} {cif' : Cif} (hne : rows ≠ []) (hperm : rows'.Perm rows)
      (hvalues : cif'.tables.itemValue = t.itemValue ++ rows'.map fun row =>
        ⟨container.id, name, row, value⟩) :
    NewScalar icu container name value t rows unnumbered (.ok (), cif')
  | first {key : UStr} {cif' : Cif} (hnone : rows = []) (hun : unnumbered)
      (hkey : icu.normalizeItemName name Code.invalidItemname = .ok key)
      (hvalues : cif'.tables.itemValue = t.itemValue ++ [⟨container.id, key, 1, value⟩]) :
    NewScalar icu container name value t rows unnumbered (.ok (), cif')
  | refused {e : Int} {cif' : Cif} (hnone : rows = [])
      (hnot : ¬ (unnumbered ∧ icu.normalizeItemName name Code.invalidItemname = .ok name)) :
    NewScalar icu container name value t rows unnumbered (.error e, cif')

theorem setAllValuesSql_withItem (h : t.WellFormed icu bounded)
    (habsent : ∀ li ∈ t.loopItem, Tables.itemKey li ≠ (container.id, name)) (loopNum : Nat) :
    (setAllValuesSql container name value (withItem t container name nameOrig loopNum)).2
      = withValues (withItem t container name nameOrig loopNum)
        ((packetRows container name (withItem t container name nameOrig loopNum)).map fun row =>
          ⟨container.id, name, row, value⟩) := by
  have hkeep : t.itemValue.filter (fun iv => !(iv.containerId = container.id && iv.name = name &&
      (packetRows container name (withItem t container name nameOrig loopNum)).contains iv.rowNum))
      = t.itemValue := by
    refine List.filter_eq_self.mpr fun iv hiv => ?_
    have hne := no_values h habsent iv hiv
    simp only [ne_eq, Prod.mk.injEq] at hne
    simp only [Bool.not_eq_true', Bool.and_eq_false_imp, Bool.and_eq_true, decide_eq_true_eq]
    exact fun hkey => absurd hkey hne
  simp only [setAllValuesSql, withValues]
  rw [show (withItem t container name nameOrig loopNum).itemValue = t.itemValue from rfl, hkeep]

/-- The item is added to the scalars' loop, and gets the value in each of their rows. -/
theorem addItemInternal_eq {cif : Cif} (h : cif.tables.WellFormed icu bounded)
    (hvalue : value.Writable props)
    (habsent : ∀ li ∈ cif.tables.loopItem, Tables.itemKey li ≠ (container.id, name)) {loop : Loop}
    (hcontainer : loop.container = container)
    (hloop : ∃ l ∈ cif.tables.loop, Tables.loopKey l = (container.id, loop.loopNum))
    {rows : List Nat}
    (hrows : rows
      = packetRows container name (withItem cif.tables container name nameOrig loop.loopNum)) :
    cif.addItemInternal props loop name nameOrig value
      = some (.ok rows.length, { cif with
        tables := withValues (withItem cif.tables container name nameOrig loop.loopNum)
          (rows.map fun row => ⟨container.id, name, row, value⟩) }) := by
  subst hcontainer hrows
  have hadd : addLoopItem loop.container name nameOrig loop.loopNum cif.tables
      = some (withItem cif.tables loop.container name nameOrig loop.loopNum) :=
        addLoopItem_eq habsent hloop
  obtain ⟨columns, hset, hcheck⟩ := hvalue
  rw [← setAllValuesSql_withItem h habsent]
  exact addItemInternal_iff.mpr ⟨_, hadd, ⟨⟨columns, hset⟩, fun _ => ⟨columns, hset, hcheck⟩⟩, rfl,
    rfl⟩

/-- One value for a loop that has none. -/
theorem insertValues_one {loop : Loop} (hnone : loopValues loop t = []) (rowNum : Nat) {key : UStr}
    (hvalue : value.Writable props)
    (hitem : ∃ li ∈ t.loopItem, Tables.itemKey li = (loop.container.id, key)
      ∧ li.loopNum = loop.loopNum)
    (name : UStr) : insertValues props loop rowNum [(key, name, value)] t
      = some (.ok (withValues t [⟨loop.container.id, key, rowNum, value⟩])) := by
  obtain ⟨li, hli, hkey, hnum⟩ := hitem
  obtain ⟨hcid, hname⟩ := Prod.mk.inj hkey
  refine insertValues_cons_iff.mpr ⟨⟨li, hli, hcid, hname, hnum⟩, hvalue, ?_, rfl⟩
  rintro iv hiv ⟨hivcid, hivname, -⟩
  have hmem : iv ∈ loopValues loop t :=
    Tables.mem_loopValues.mpr ⟨hiv, hivcid, li, hli, by rw [hkey, hivname], hnum⟩
  simp [hnone] at hmem

theorem insertValues_wrong {loop : Loop} (rowNum : Nat) {key : UStr}
    (hitem : ¬ ∃ li ∈ t.loopItem, Tables.itemKey li = (loop.container.id, key)
      ∧ li.loopNum = loop.loopNum)
    (name : UStr) : insertValues props loop rowNum [(key, name, value)] t
      = some (.error Code.wrongLoop) := by
  have hout : t.loopItem.any (fun li => li.containerId = loop.container.id && li.name = key &&
      li.loopNum = loop.loopNum) = false := by
    rw [List.any_eq_false]
    intro li hli hsame
    refine hitem ⟨li, hli, ?_⟩
    simpa [Tables.itemKey] using hsame
  simp only [insertValues, hout, Bool.not_false, if_true]

/-- The first packet of scalars, which is refused where there has been one before. -/
theorem addPacket_first {cif : Cif} (hvalue : value.Writable props)
    (hkeyed : Keyed Tables.loopKey cif.tables.loop) {loop : Loop} {l : LoopRow}
    (hl : l ∈ cif.tables.loop) (hkey : Tables.loopKey l = (loop.container.id, loop.loopNum))
    (hcategory : l.category = some []) (hnone : loopValues loop cif.tables = []) (key name : UStr) :
    (∃ e cif', cif.addPacket props loop [(key, name, value)] = some (.error e, cif')
        ∧ ¬ (l.lastRowNum = 0 ∧ ∃ li ∈ cif.tables.loopItem,
          Tables.itemKey li = (loop.container.id, key) ∧ li.loopNum = loop.loopNum))
      ∨ ∃ cif', cif.addPacket props loop [(key, name, value)] = some (.ok (), cif')
        ∧ l.lastRowNum = 0
        ∧ cif'.tables.itemValue = cif.tables.itemValue ++ [⟨loop.container.id, key, 1, value⟩] := by
  have hfind : cif.beginNesttx.tables.loop.find? (fun l => l.containerId = loop.container.id &&
      l.loopNum = loop.loopNum) = some l := by
    refine hkeyed.find?_eq hl fun l' _ => ?_
    rw [hkey]
    simp [Tables.loopKey]
  simp only [addPacket]
  rw [if_neg (by simp), hfind]
  simp only [hcategory]
  by_cases hlast : l.lastRowNum = 0
  · rw [if_neg (by simp [hlast])]
    by_cases hitem : ∃ li ∈ cif.tables.loopItem,
        Tables.itemKey li = (loop.container.id, key) ∧ li.loopNum = loop.loopNum
    · right
      have hins : ∀ loops, insertValues props loop (l.lastRowNum + 1) [(key, name, value)]
          { cif.beginNesttx.tables with loop := loops } = some (.ok (withValues
            { cif.beginNesttx.tables with loop := loops } [⟨loop.container.id, key,
              l.lastRowNum + 1, value⟩])) := by
        intro loops
        refine insertValues_one ?_ _ hvalue ?_ name
        · exact hnone
        · exact hitem
      rw [hins]
      simp only [commitNesttx_beginNesttx, hlast]
      exact ⟨_, rfl, trivial, rfl⟩
    · left
      have hins : ∀ loops, insertValues props loop (l.lastRowNum + 1) [(key, name, value)]
          { cif.beginNesttx.tables with loop := loops } = some (.error Code.wrongLoop) := by
        intro loops
        refine insertValues_wrong _ ?_ name
        exact hitem
      rw [hins]
      exact ⟨_, _, rfl, fun hboth => hitem hboth.2⟩
  · left
    rw [if_pos (by simp; omega)]
    exact ⟨_, _, rfl, fun hboth => hlast hboth.1⟩

/-- A new item has no values, and gives its loop none. -/
theorem loopValues_withItem (h : t.WellFormed icu bounded)
    (habsent : ∀ li ∈ t.loopItem, Tables.itemKey li ≠ (container.id, name)) {loop : Loop}
    (hcontainer : loop.container = container) (hnone : loopValues loop t = []) :
    loopValues loop (withValues (withItem t container name nameOrig loop.loopNum) []) = [] := by
  subst hcontainer
  refine List.eq_nil_iff_forall_not_mem.mpr fun iv hiv => ?_
  obtain ⟨hmem, hcid, li, hli, hkey, hnum⟩ := Tables.mem_loopValues.mp hiv
  have hmem : iv ∈ t.itemValue := by simpa [withValues, withItem] using hmem
  rcases List.mem_append.mp hli with hold | hnew
  · have hin : iv ∈ loopValues loop t :=
      Tables.mem_loopValues.mpr ⟨hmem, hcid, li, hold, hkey, hnum⟩
    simp [hnone] at hin
  · obtain rfl := List.mem_singleton.mp hnew
    refine no_values h habsent iv hmem ?_
    rw [hcid]
    exact hkey.symm

/-- What adding an item to the scalars' loop comes to. -/
theorem addScalarTo_newScalar {cif : Cif} (h : cif.tables.WellFormed icu bounded)
    (hvalue : value.Writable props)
    (habsent : ∀ li ∈ cif.tables.loopItem, Tables.itemKey li ≠ (container.id, name)) {l : LoopRow}
    (hl : l ∈ cif.tables.loop) (hcid : l.containerId = container.id)
    (hcategory : l.category = some []) :
    ∃ r, cif.addScalarTo icu props ⟨container, l.loopNum, some []⟩ name nameOrig value = some r
      ∧ NewScalar icu container name value cif.tables
        ((packets ⟨container, l.loopNum, some []⟩ cif.tables).map (·.1)) (l.lastRowNum = 0) r := by
  have hkey : Tables.loopKey l = (container.id, l.loopNum) := by rw [Tables.loopKey, hcid]
  have hperm :=
    @packetRows_withItem icu bounded cif.tables container name nameOrig h habsent l.loopNum
    (some [])
  have hadd :=
    @addItemInternal_eq icu props bounded container name nameOrig value cif h hvalue habsent
    ⟨container, l.loopNum, some []⟩ rfl ⟨l, hl, hkey⟩ _ rfl
  generalize packetRows container name (withItem cif.tables container name nameOrig l.loopNum)
    = rows at hperm hadd
  by_cases hrows : rows = []
  · have hnone : (packets ⟨container, l.loopNum, some []⟩ cif.tables).map (·.1) = [] := by
      rw [hrows] at hperm
      exact hperm.nil_eq.symm
    rw [addScalarTo, hadd, hrows]
    simp only [List.length_nil]
    cases hnorm : icu.normalizeItemName name Code.invalidItemname with
    | error e => exact ⟨_, rfl, .refused hnone fun hboth => by simp [hnorm] at hboth⟩
    | ok key =>
      have hvalues : loopValues ⟨container, l.loopNum, some []⟩ cif.tables = [] :=
        Iteration.packetsOf_eq_nil.mp (List.map_eq_nil_iff.mp hnone)
      have hpacket := @addPacket_first props value { cif with
        tables := withValues (withItem cif.tables container name nameOrig l.loopNum) [] } hvalue
          h.loops
        ⟨container, l.loopNum, some []⟩ l hl hkey hcategory
          (loopValues_withItem h habsent rfl hvalues) key name
      simp only [List.map_nil]
      rcases hpacket with ⟨e, cif', hrun, hnot⟩ | ⟨cif', hrun, hlast, hvalues'⟩
      · refine ⟨_, hrun, .refused hnone fun hboth => hnot ⟨hboth.1, ?_⟩⟩
        obtain rfl : key = name := by simpa [hnorm] using hboth.2
        exact ⟨_, List.mem_append_right _ (List.mem_singleton_self _), rfl, rfl⟩
      · refine ⟨_, hrun, .first hnone hlast hnorm ?_⟩
        rw [hvalues']
        simp [withValues, withItem]
  · have hne : (packets ⟨container, l.loopNum, some []⟩ cif.tables).map (·.1) ≠ [] := by
      intro hnil
      rw [hnil] at hperm
      exact hrows hperm.eq_nil
    rw [addScalarTo, hadd]
    cases hlength : rows.length with
    | zero => exact absurd (List.length_eq_zero_iff.mp hlength) hrows
    | succ n => exact ⟨_, rfl, .joins hne hperm rfl⟩

/-- The rows in which the scalars of a container have values. -/
def scalarRows (container : Container) (t : Tables) : List Nat :=
  (t.loop.filter fun l => l.containerId = container.id && l.category = some []).flatMap fun l =>
    (packets ⟨container, l.loopNum, some []⟩ t).map (·.1)

/-- No loop of scalars of the container counts a packet. -/
def Unnumbered (container : Container) (t : Tables) : Prop :=
  ∀ l ∈ t.loop, l.containerId = container.id → l.category = some [] → l.lastRowNum = 0

theorem NewScalar.congr {t' : Tables} {rows rows' : List Nat} {p p' : Prop}
    {r : Except Int Unit × Cif} (h : NewScalar icu container name value t rows p r)
    (hrows : rows' = rows) (hp : p' ↔ p) (hvalues : t'.itemValue = t.itemValue) :
    NewScalar icu container name value t' rows' p' r := by
  subst hrows
  cases h with
  | joins hne hperm hv => exact .joins hne hperm (hvalues ▸ hv)
  | first hnone hun hkey hv => exact .first hnone (hp.mpr hun) hkey (hvalues ▸ hv)
  | refused hnone hnot => exact .refused hnone fun hboth => hnot ⟨hp.mp hboth.1, hboth.2⟩

theorem scalarRows_eq (h : t.WellFormed icu bounded) {l : LoopRow} (hl : l ∈ t.loop)
    (hcid : l.containerId = container.id) (hcategory : l.category = some []) :
    scalarRows container t = (packets ⟨container, l.loopNum, some []⟩ t).map (·.1)
      ∧ (Unnumbered container t ↔ l.lastRowNum = 0) := by
  have hunique : ∀ l' ∈ t.loop, l'.containerId = container.id → l'.category = some [] → l' = l :=
    fun l' hl' hcid' hcategory' =>
      h.scalar_unique l' hl' l hl hcategory' hcategory (hcid'.trans hcid.symm)
  have hfilter : t.loop.filter (fun l => l.containerId = container.id && l.category = some [])
      = [l] := by
    refine Tables.filter_eq_singleton (List.Nodup.of_map _ h.loops) hl fun l' hl' => ?_
    simp only [Bool.and_eq_true, decide_eq_true_eq]
    constructor
    · exact fun hboth => hunique l' hl' hboth.1 hboth.2
    · rintro rfl
      exact ⟨hcid, hcategory⟩
  refine ⟨by simp [scalarRows, hfilter], ?_⟩
  constructor
  · exact fun hun => hun l hl hcid hcategory
  · rintro hlast l' hl' hcid' hcategory'
    rw [hunique l' hl' hcid' hcategory']
    exact hlast

/-- A loop of scalars is made where there is none. -/
theorem createLoopInternal_scalar {cif : Cif} (h : cif.tables.WellFormed icu bounded)
    (hcontainer : Tables.hasContainer cif.tables container.id = true)
    (hnone : ∀ l ∈ cif.tables.loop, l.containerId = container.id → l.category ≠ some []) :
    ∃ (loopNum : Nat) (t' : Tables), cif.createLoopInternal container (some []) []
        = (.ok ⟨container, loopNum, some []⟩, { cif with tables := t' })
      ∧ t'.WellFormed icu bounded ∧ (⟨container.id, loopNum, some [], 0⟩ : LoopRow) ∈ t'.loop
      ∧ t'.loopItem = cif.tables.loopItem ∧ t'.itemValue = cif.tables.itemValue
      ∧ ∀ li ∈ cif.tables.loopItem, (li.containerId, li.loopNum) ≠ (container.id, loopNum) := by
  obtain ⟨row, hrow, hid⟩ : ∃ row ∈ cif.tables.container, row.id = container.id := by
    simpa [Tables.hasContainer] using hcontainer
  have hfind : cif.tables.container.find? (·.id = container.id) = some row :=
    h.containers.find?_eq hrow fun row' _ => by simp [hid]
  have hany : cif.tables.loop.any (fun l => l.containerId = container.id && l.category = some [])
      = false := by
    rw [List.any_eq_false]
    intro l hl
    simpa using hnone l hl
  have hins : insertLoop container (some []) cif.tables = .ok (row.nextLoopNum, { cif.tables with
      loop := cif.tables.loop ++ [⟨container.id, row.nextLoopNum, some [], 0⟩]
      container := cif.tables.container.map fun c =>
        if c.id = container.id then { c with nextLoopNum := c.nextLoopNum + 1 } else c }) := by
    simp only [insertLoop, hfind, hany, Bool.and_false, Bool.false_eq_true, if_false]
  have hins' : insertLoop container (some []) cif.beginNesttx.tables = _ := hins
  refine ⟨row.nextLoopNum, _, ?_, (follows_insertLoop h hins).wellFormed,
    List.mem_append_right _ (List.mem_singleton_self _), rfl, rfl, ?_⟩
  · simp only [createLoopInternal, hins', addLoopItems]
    rw [commitNesttx_beginNesttx]
  · -- the container's loops so far all have smaller numbers
    intro li hli hkey
    obtain ⟨l, hl, hlkey⟩ := h.looped li hli
    obtain ⟨c, hc, hcid, hlt⟩ := h.numbered l hl
    obtain ⟨hlcid, hlnum⟩ := Prod.mk.inj (hlkey.trans hkey)
    have hsame : c = row := h.containers.eq hc hrow (by omega)
    subst hsame
    omega

/-- Setting a new scalar's value comes down to the scalars' packets, if there are any. -/
theorem addScalar_newScalar {cif : Cif} (h : cif.tables.WellFormed icu bounded)
    (hvalue : value.Writable props)
    (hcontainer : Tables.hasContainer cif.tables container.id = true)
    (habsent : ∀ li ∈ cif.tables.loopItem, Tables.itemKey li ≠ (container.id, name)) :
    ∃ r, cif.addScalar icu props container name nameOrig value = some r
      ∧ NewScalar icu container name value cif.tables (scalarRows container cif.tables)
        (Unnumbered container cif.tables) r := by
  cases hfind : cif.tables.loop.find? fun l => l.containerId = container.id
    && l.category = some [] with
  | some l =>
    have hl := List.mem_of_find?_eq_some hfind
    obtain ⟨hcid, hcategory⟩ : l.containerId = container.id ∧ l.category = some [] := by
      simpa using List.find?_some hfind
    obtain ⟨hrows, hun⟩ := scalarRows_eq h hl hcid hcategory
    simp only [addScalar, scalarLoop, hfind]
    obtain ⟨r, hrun, hnew⟩ := addScalarTo_newScalar h hvalue habsent hl hcid hcategory
    exact ⟨r, hrun, hnew.congr hrows hun rfl⟩
  | none =>
    have hnone : ∀ l ∈ cif.tables.loop, l.containerId = container.id → l.category ≠ some [] := by
      intro l hl hcid hcategory
      have hfalse := List.find?_eq_none.mp hfind l hl
      simp [hcid, hcategory] at hfalse
    obtain ⟨loopNum, t', hcreate, hwf, hl, hitems, hvalues, hfresh⟩ :=
      createLoopInternal_scalar h hcontainer hnone
    have hempty : packets ⟨container, loopNum, some []⟩ t' = [] := by
      refine Iteration.packetsOf_eq_nil.mpr (List.eq_nil_iff_forall_not_mem.mpr fun iv hiv => ?_)
      obtain ⟨_, hcid, li, hli, hkey, hnum⟩ := Tables.mem_loopValues.mp hiv
      rw [hitems] at hli
      refine hfresh li hli (Prod.ext ?_ hnum)
      exact (Prod.mk.inj hkey).1
    have hrows : scalarRows container cif.tables = [] := by
      have hfilter : cif.tables.loop.filter (fun l => l.containerId = container.id
          && l.category = some []) = [] :=
        List.filter_eq_nil_iff.mpr (List.find?_eq_none.mp hfind)
      simp [scalarRows, hfilter]
    simp only [addScalar, scalarLoop, hfind, hcreate]
    obtain ⟨r, hrun, hadd⟩ := @addScalarTo_newScalar icu props bounded container name nameOrig value
      { cif with tables := t' } hwf hvalue (hitems ▸ habsent) _ hl rfl rfl
    refine ⟨r, hrun, hadd.congr ?_ ?_ hvalues.symm⟩
    · rw [hrows]
      simp [hempty]
    · exact ⟨fun _ => rfl, fun _ l hl hcid hcategory => absurd hcategory (hnone l hl hcid)⟩

theorem NewScalar.of_tables {cif' cif'' : Cif} {r : Except Int Unit} {rows : List Nat} {p : Prop}
    (h : NewScalar icu container name value t rows p (r, cif'))
    (htables : ∀ u, r = .ok u → cif''.tables = cif'.tables) :
    NewScalar icu container name value t rows p (r, cif'') := by
  cases h with
  | joins hne hperm hv => exact .joins hne hperm (htables () rfl ▸ hv)
  | first hnone hun hkey hv => exact .first hnone hun hkey (htables () rfl ▸ hv)
  | refused hnone hnot => exact .refused hnone hnot

/-- `cif_container_set_value` for a name that its container does not have. -/
theorem setValue_newScalar {cif : Cif} (h : cif.tables.WellFormed icu bounded)
    (hvalue : value.Writable props) (hsaved : cif.saved = [])
    (hcontainer : Tables.hasContainer cif.tables container.id = true)
    (hnorm : icu.normalizeItemName nameOrig Code.invalidItemname = .ok name)
    (habsent : ∀ li ∈ cif.tables.loopItem, Tables.itemKey li ≠ (container.id, name)) :
    ∃ r, cif.setValue icu props container nameOrig value = some r
      ∧ NewScalar icu container name value cif.tables (scalarRows container cif.tables)
        (Unnumbered container cif.tables) r := by
  have hbegin : cif.beginTx = some { cif with saved := [cif.tables] } :=
    beginTx_eq_some.mpr ⟨hsaved, rfl⟩
  have hget : ({ cif with saved := [cif.tables] } : Cif).getItemLoopInternal container name
      = .error Code.nosuchItem := by
    simp only [getItemLoopInternal, itemLoops_absent habsent]
  obtain ⟨⟨_ | ⟨⟩, done⟩, hrun, hadd⟩ :=
    @addScalar_newScalar icu props bounded container name nameOrig value
    { cif with saved := [cif.tables] } h hvalue hcontainer habsent
  · simp only [setValue, hnorm, hbegin, hget, if_true, hrun, endTx]
    refine ⟨_, rfl, hadd.of_tables fun u hu => ?_⟩
    cases hu
  · simp only [setValue, hnorm, hbegin, hget, if_true, hrun, endTx]
    exact ⟨_, rfl, hadd.of_tables fun _ _ => rfl⟩

/-- The values of an item once it has got one in each of some rows. -/
theorem itemValues_new {t' : Tables}
    (hno : ∀ iv ∈ t.itemValue, (iv.containerId, iv.name) ≠ (container.id, name)) (rows : List Nat)
    (hvalues : t'.itemValue = t.itemValue ++ rows.map fun row => ⟨container.id, name, row, value⟩) :
    (itemValues container.id name t').Perm (rows.map fun row =>
      ⟨container.id, name, row, value⟩) := by
  have hold : t.itemValue.filter (fun iv => iv.containerId = container.id && iv.name = name)
      = [] := by
    refine List.filter_eq_nil_iff.mpr fun iv hiv hkey => hno iv hiv ?_
    simpa using hkey
  have hnew : (rows.map fun row => (⟨container.id, name, row, value⟩ : ItemValueRow)).filter
      (fun iv => iv.containerId = container.id && iv.name = name)
      = rows.map fun row => ⟨container.id, name, row, value⟩ := by
    refine List.filter_eq_self.mpr fun iv hiv => ?_
    obtain ⟨row, _, rfl⟩ := List.mem_map.mp hiv
    simp
  rw [itemValues, hvalues, List.filter_append, hold, hnew, List.nil_append]
  exact List.perm_insertionSort _ _

/-- Those of any other item stay as they are. -/
theorem itemValues_other {t' : Tables} (rows : List Nat)
    (hvalues : t'.itemValue = t.itemValue ++ rows.map fun row => ⟨container.id, name, row, value⟩)
    {containerId : Nat} {name' : UStr} (hne : (containerId, name') ≠ (container.id, name)) :
    itemValues containerId name' t' = itemValues containerId name' t := by
  have hnew : (rows.map fun row => (⟨container.id, name, row, value⟩ : ItemValueRow)).filter
      (fun iv => iv.containerId = containerId && iv.name = name') = [] := by
    refine List.filter_eq_nil_iff.mpr fun iv hiv hkey => hne ?_
    obtain ⟨row, _, rfl⟩ := List.mem_map.mp hiv
    simp only [Bool.and_eq_true, decide_eq_true_eq] at hkey
    exact Prod.ext hkey.1.symm hkey.2.symm
  rw [itemValues, hvalues, List.filter_append, hnew, List.append_nil, itemValues]

/-- What was set is got if there is one row of it and its columns give it back. -/
theorem getValue_iff {platform : Platform} {cif : Cif}
    (hnorm : icu.normalizeItemName nameOrig Code.nosuchItem = .ok name) {rows : List Nat}
    (hperm : (itemValues container.id name cif.tables).Perm
      (rows.map fun row => ⟨container.id, name, row, value⟩)) :
    cif.getValue icu platform container nameOrig = some (some value, Code.ok)
      ↔ rows.length = 1 ∧ value.reread platform = some (.ok value) := by
  have hvalue : ∀ iv ∈ itemValues container.id name cif.tables, iv.value = value := by
    intro iv hiv
    obtain ⟨row, _, rfl⟩ := List.mem_map.mp (hperm.mem_iff.mp hiv)
    rfl
  have hlength := hperm.length_eq
  rw [List.length_map] at hlength
  simp only [getValue, hnorm]
  generalize itemValues container.id name cif.tables = values at hvalue hlength
  rw [← hlength]
  cases values with
  | nil => simp
  | cons iv rest =>
    have hcode : (if rest.isEmpty then Code.ok else Code.ambiguousItem) = Code.ok ↔
        rest.length + 1 = 1 := by
      cases rest <;> simp [Code.ok, Code.ambiguousItem]
    simp only [hvalue iv List.mem_cons_self, List.length_cons]
    rw [← hcode]
    rcases hread : value.reread platform with _ | ⟨_ | value'⟩
    · simp
    · simp
    · simp [and_comm]

/-- Where the scalars have their values in one packet, or are to have a first one, in the loop's
first row and under a name that normalises to itself. -/
def TakesScalar (icu : Icu) (container : Container) (name : UStr) (t : Tables) : Prop :=
  (scalarRows container t).length = 1
    ∨ scalarRows container t = [] ∧ Unnumbered container t
      ∧ icu.normalizeItemName name Code.invalidItemname = .ok name

end Setting

end Cif

namespace Session

open Cif

variable {icu : Icu} {platform : Platform} {s : Session}

/-- The value of a new scalar is what getting it gives back, every other item's being left alone,
exactly where the scalars' packets can take it and its columns keep it. -/
theorem setValue_getValue_iff (h : Reachable icu platform s) (hiter : s.iterator = none)
    {container : Container} (hcontainer : Tables.hasContainer s.cif.tables container.id = true)
    {nameOrig name : UStr} (hnorm : icu.normalizeItemName nameOrig Code.invalidItemname = .ok name)
    (habsent : ∀ li ∈ s.cif.tables.loopItem, Tables.itemKey li ≠ (container.id, name))
    {value : Value} (hmade : value.Made) :
    (∃ cif', s.cif.setValue icu (Value.setValueProps platform) container nameOrig value
      = some (.ok (), cif')
        ∧ cif'.getValue icu platform container nameOrig = some (some value, Code.ok)
        ∧ ∀ containerId name', (containerId, name') ≠ (container.id, name) →
          itemValues containerId name' cif'.tables = itemValues containerId name' s.cif.tables)
      ↔ TakesScalar icu container name s.cif.tables ∧ value.Kept platform := by
  have hwf := h.wellFormed.tables
  have hno := no_values hwf habsent
  have hget : icu.normalizeItemName nameOrig Code.nosuchItem = .ok name := by
    simp only [Icu.normalizeItemName] at hnorm ⊢
    split at hnorm <;> simp_all
  have hnew :=
    fun hvalue =>
      @setValue_newScalar icu (Value.setValueProps platform) False container name nameOrig value
    s.cif hwf hvalue (h.no_transaction hiter) hcontainer hnorm habsent
  constructor
  · rintro ⟨cif', hset, hgot, -⟩
    have hwritable := writable_of_setValue hnorm (itemLoops_absent habsent) hset
    obtain ⟨r, hrun, hnew⟩ := hnew hwritable
    obtain rfl := Option.some.inj (hset.symm.trans hrun)
    cases hnew with
    | @joins rows' _ hne hperm hvalues =>
      obtain ⟨hone, hreread⟩ := (getValue_iff hget (itemValues_new hno rows' hvalues)).mp hgot
      exact ⟨.inl (hperm.length_eq.symm.trans hone),
        (Value.writable_and_reread_iff hmade).mp ⟨hwritable, hreread⟩⟩
    | @first key _ hnone hun hkey hvalues =>
      by_cases hsame : key = name
      · subst hsame
        have hperm := itemValues_new hno [1] hvalues
        obtain ⟨-, hreread⟩ := (getValue_iff hget hperm).mp hgot
        exact ⟨.inr ⟨hnone, hun, hkey⟩,
          (Value.writable_and_reread_iff hmade).mp ⟨hwritable, hreread⟩⟩
      · -- the value is another item's, and there is none to get
        have hother : itemValues container.id name cif'.tables
            = itemValues container.id name s.cif.tables :=
          itemValues_other [1] hvalues fun heq => hsame (Prod.mk.inj heq).2.symm
        have hperm := @itemValues_new _ container name value s.cif.tables hno [] (by simp)
        rw [← hother] at hperm
        obtain ⟨hone, -⟩ := (getValue_iff hget hperm).mp hgot
        simp at hone
  · rintro ⟨htakes, hkept⟩
    obtain ⟨hwritable, hreread⟩ := (Value.writable_and_reread_iff hmade).mpr hkept
    obtain ⟨⟨r, cif'⟩, hrun, hnew⟩ := hnew hwritable
    rw [hrun]
    cases hnew with
    | @joins rows' _ hne hperm hvalues =>
      have hone : rows'.length = 1 := by
        rcases htakes with hone | ⟨hnone, -⟩
        · exact hperm.length_eq.trans hone
        · exact absurd hnone hne
      refine ⟨_, rfl, (getValue_iff hget (itemValues_new hno rows' hvalues)).mpr ⟨hone, hreread⟩,
        ?_⟩
      intro containerId name' hother
      exact itemValues_other rows' hvalues hother
    | @first key _ hnone hun hkey hvalues =>
      obtain ⟨-, -, hself⟩ : _ ∧ _ ∧ _ := htakes.resolve_left (by simp [hnone])
      obtain rfl : name = key := Except.ok.inj (hself.symm.trans hkey)
      have hperm := itemValues_new hno [1] hvalues
      refine ⟨_, rfl, (getValue_iff hget hperm).mpr ⟨rfl, hreread⟩, ?_⟩
      intro containerId name' hother
      exact itemValues_other [1] hvalues hother
    | refused hnone hnot =>
      obtain ⟨-, htakes⟩ : _ ∧ _ ∧ _ := htakes.resolve_left (by simp [hnone])
      exact absurd htakes hnot

/-- A block whose scalars have their values in one packet. -/
def oneScalar : Session :=
  let block : Container := ⟨1, units "a", units "a", none⟩
  ({} : Session).after Icu.ascii Platform.exact [.createBlock (units "a") false,
    .setValue block (units "_x") .unk]

/-- It takes a number. -/
theorem setValue_getValue_oneScalar :
    let block : Container := ⟨1, units "a", units "a", none⟩
    let value := Value.numb ⟨units "-1.5(2)", -1, units "15", some (units "2"), 1⟩ false
    ∃ cif', oneScalar.cif.setValue Icu.ascii (Value.setValueProps Platform.exact) block (units "_Y")
      value
        = some (.ok (), cif')
      ∧ cif'.getValue Icu.ascii Platform.exact block (units "_Y") = some (some value, Code.ok)
      ∧ ∀ containerId name', (containerId, name') ≠ (block.id, units "_y") →
        itemValues containerId name' cif'.tables
          = itemValues containerId name' oneScalar.cif.tables := by
  intro block value
  have hreach : Reachable Icu.ascii Platform.exact oneScalar := .after (by decide +kernel)
  have hmade : value.Made := .numb (by decide +kernel) (by decide +kernel) (by decide +kernel)
    (by decide +kernel) (by decide +kernel)
  have hfits : FitsArray Platform.exact.floorLog2 (units "15") 1 :=
    (toDouble_isSome_iff exactFloorLog2_spec (by decide +kernel) .toNearest).mp (by decide +kernel)
  refine (setValue_getValue_iff hreach (by decide +kernel) (by decide +kernel) (by decide +kernel)
    (by decide +kernel) hmade).mpr ⟨.inl (by decide +kernel), ?_, rfl, hfits⟩
  decide +kernel

/-- A block that has had a packet of scalars, gone with the only item that it had a value for. -/
def lostScalars : Session :=
  let block : Container := ⟨1, units "a", units "a", none⟩
  ({} : Session).after Icu.ascii Platform.exact [.createBlock (units "a") false,
    .createLoop block (some []) [units "_x", units "_y"],
    .addPacket ⟨block, 0, some []⟩ [(units "_x", units "_x", .unk)], .removeItem block (units "_x")]

/-- It takes no scalar any more. -/
theorem setValue_lostScalars :
    let block : Container := ⟨1, units "a", units "a", none⟩
    Reachable Icu.ascii Platform.exact lostScalars ∧ lostScalars.iterator = none
      ∧ Tables.hasContainer lostScalars.cif.tables block.id = true
      ∧ (∀ li ∈ lostScalars.cif.tables.loopItem, Tables.itemKey li ≠ (block.id, units "_z"))
      ∧ Value.Made .unk
      ∧ (lostScalars.cif.setValue Icu.ascii (Value.setValueProps Platform.exact) block (units "_z")
        .unk).map (·.1)
        = some (.error Code.reservedLoop) := by
  refine ⟨.after (by decide +kernel), ?_⟩
  have hiterator : lostScalars.iterator.isNone := by decide +kernel
  refine ⟨Option.isNone_iff_eq_none.mp hiterator, by decide +kernel, by decide +kernel, .unk, ?_⟩
  decide +kernel

end Session

end CifApi
