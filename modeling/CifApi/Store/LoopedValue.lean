import CifApi.Store.NewLoop
import CifApi.Value.BufferGrowth

/-! Setting the value of a looped item: which rows get it, and what stays as it was. -/
namespace CifApi

open Exec

namespace Cif

/-- The row numbers of a loop's packets. -/
def loopRows (loop : Loop) (t : Tables) : List Nat := (packets loop t).map (·.1)

/-- Every packet of the loop has the value for the item, no packet came or went, and nothing else
changed. -/
structure GivesAll (platform : Platform) (loop : Loop) (name : UStr) (value : Value)
    (t t' : Tables) :
    Prop where
  given : ∀ row ∈ loopRows loop t, ∃ iv ∈ itemValues loop.container.id name t',
    iv.rowNum = row ∧ iv.value.reread platform = some (.ok value)
  rows : (loopRows loop t').Perm (loopRows loop t)
  loops : t'.loop = t.loop
  others : ∀ containerId name', (containerId, name') ≠ (loop.container.id, name) →
    itemValues containerId name' t' = itemValues containerId name' t

/-- `cif_container_set_value` sets the item in all packets of its loop, and its statement counts
them. -/
def SetsAll (icu : Icu) (platform : Platform) (loop : Loop) (nameOrig name : UStr) (value : Value)
    (cif : Cif) : Prop :=
  (∃ changed, cif.setAllValues (Value.setValueProps platform) loop.container name value
      = some (.ok (loopRows loop cif.tables).length, changed))
    ∧ ∃ cif', cif.setValue icu (Value.setValueProps platform) loop.container nameOrig value
        = some (.ok (), cif')
      ∧ GivesAll platform loop name value cif.tables cif'.tables

/-- `cif_loop_add_item` does so for a new item. -/
def AddsAll (icu : Icu) (platform : Platform) (loop : Loop) (nameOrig name : UStr)
    (val : Option Value) (cif : Cif) : Prop :=
  (∃ changed, cif.addItemInternal (Value.setValueProps platform) loop name nameOrig (val.getD .unk)
      = some (.ok (loopRows loop cif.tables).length, changed))
    ∧ ∃ cif', cif.addItem icu (Value.setValueProps platform) loop nameOrig val = some (.ok (), cif')
      ∧ GivesAll platform loop name (val.getD .unk) cif.tables cif'.tables

/-- The value can be bound and, if there is a row to keep it, is kept. -/
def Settable (platform : Platform) (value : Value) (rows : List Nat) : Prop :=
  (∃ columns, value.setValueProps platform = some (.ok columns)) ∧ (rows ≠ [] → value.Kept platform)

section Rows

variable {icu : Icu} {bounded : Prop} {t : Tables} {loop : Loop} {name : UStr} {value : Value}

theorem loopRows_eq (loop : Loop) (t : Tables) :
    loopRows loop t = ((loopValues loop t).map (·.rowNum)).eraseDups := by
  simp [loopRows, packets, packetsOf, List.map_map, Function.comp_def]

theorem mem_loopRows {row : Nat} :
    row ∈ loopRows loop t ↔ ∃ iv ∈ loopValues loop t, iv.rowNum = row := by
  rw [loopRows_eq, List.mem_eraseDups, List.mem_map]

theorem nodup_loopRows (loop : Loop) (t : Tables) : (loopRows loop t).Nodup := by
  rw [loopRows_eq]
  exact nodup_eraseDups _

/-- The join finds the rows of the loop that has the item. -/
theorem packetRows_perm (h : t.WellFormed icu bounded)
    (hitem : ∃ li ∈ t.loopItem, Tables.itemKey li = (loop.container.id, name)
      ∧ li.loopNum = loop.loopNum) :
    (packetRows loop.container name t).Perm (loopRows loop t) := by
  obtain ⟨li, hli, hkey, hnum⟩ := hitem
  refine (List.perm_ext_iff_of_nodup (nodup_eraseDups _) (nodup_loopRows loop t)).mpr fun row => ?_
  rw [List.mem_eraseDups, List.mem_map, mem_loopRows]
  refine exists_congr fun iv => and_congr_left fun _ => ?_
  rw [List.mem_filter, Tables.mem_loopValues]
  simp only [Bool.and_eq_true, decide_eq_true_eq, List.any_eq_true, Tables.itemKey, Prod.mk.injEq]
  constructor
  · rintro ⟨hiv, hcid, li₁, hli₁, ⟨hcid₁, hname₁⟩, li₂, hli₂, ⟨hcid₂, hnum₂⟩, hname₂⟩
    -- there is one item of that name
    obtain rfl : li₁ = li := h.items.eq hli₁ hli (by rw [hkey, Tables.itemKey, hcid₁, hname₁])
    exact ⟨hiv, hcid, li₂, hli₂, ⟨hcid₂, hname₂⟩, hnum₂.trans hnum⟩
  · rintro ⟨hiv, hcid, li₂, hli₂, ⟨hcid₂, hname₂⟩, hnum₂⟩
    exact ⟨hiv, hcid, li, hli, Prod.mk.inj hkey, li₂, hli₂, ⟨hcid₂, hnum₂.trans hnum.symm⟩, hname₂⟩

theorem itemValues_setAllValuesSql {containerId : Nat} {name' : UStr}
    (hne : (containerId, name') ≠ (loop.container.id, name)) :
    itemValues containerId name' (setAllValuesSql loop.container name value t).2
      = itemValues containerId name' t := by
  have hnew : ((packetRows loop.container name t).map fun row =>
      (⟨loop.container.id, name, row, value⟩ : ItemValueRow)).filter
      (fun iv => iv.containerId = containerId && iv.name = name') = [] := by
    refine List.filter_eq_nil_iff.mpr fun iv hiv hkey => hne ?_
    obtain ⟨row, _, rfl⟩ := List.mem_map.mp hiv
    simp only [Bool.and_eq_true, decide_eq_true_eq] at hkey
    exact Prod.ext hkey.1.symm hkey.2.symm
  have hold : (t.itemValue.filter fun iv => !(iv.containerId = loop.container.id && iv.name = name
      && (packetRows loop.container name t).contains iv.rowNum)).filter
      (fun iv => iv.containerId = containerId && iv.name = name')
      = t.itemValue.filter fun iv => iv.containerId = containerId && iv.name = name' := by
    rw [List.filter_filter]
    refine List.filter_congr fun iv _ => ?_
    by_cases hkey : iv.containerId = containerId ∧ iv.name = name'
    · obtain ⟨rfl, rfl⟩ := hkey
      have hother : ¬ (iv.containerId = loop.container.id ∧ iv.name = name) := fun hsame =>
        hne (Prod.ext hsame.1 hsame.2)
      simpa using Or.inl (not_and_or.mp hother)
    · simp [hkey]
  simp only [itemValues, setAllValuesSql, List.filter_append]
  rw [hnew, hold, List.append_nil]

/-- Each row gets the value, whether or not it had one. -/
theorem mem_itemValues_setAllValuesSql {iv : ItemValueRow} :
    iv ∈ itemValues loop.container.id name (setAllValuesSql loop.container name value t).2
      ↔ (iv ∈ itemValues loop.container.id name t ∧ iv.rowNum ∉ packetRows loop.container name t)
        ∨ ∃ row ∈ packetRows loop.container name t, iv = ⟨loop.container.id, name, row, value⟩ := by
  simp only [itemValues, setAllValuesSql, (List.perm_insertionSort _ _).mem_iff, List.mem_filter,
    List.mem_append,
    List.mem_map, Bool.and_eq_true, decide_eq_true_eq, Bool.not_eq_true', Bool.and_eq_false_imp,
    List.contains_eq_mem, decide_eq_false_iff_not]
  constructor
  · rintro ⟨⟨hiv, hnot⟩ | ⟨row, hrow, rfl⟩, hkey⟩
    · exact .inl ⟨⟨hiv, hkey⟩, hnot hkey⟩
    · exact .inr ⟨row, hrow, rfl⟩
  · rintro (⟨⟨hiv, hkey⟩, hnot⟩ | ⟨row, hrow, rfl⟩)
    · exact ⟨.inl ⟨hiv, fun _ => hnot⟩, hkey⟩
    · exact ⟨.inr ⟨row, hrow, rfl⟩, rfl, rfl⟩

theorem itemValues_setAllValuesSql_new {t₁ : Tables} (hvalues : t₁.itemValue = t.itemValue)
    {containerId : Nat} {name' : UStr} (hne : (containerId, name') ≠ (loop.container.id, name)) :
    itemValues containerId name' (setAllValuesSql loop.container name value t₁).2
      = itemValues containerId name' t := by
  rw [itemValues_setAllValuesSql hne, itemValues, itemValues, hvalues]

/-- The loop keeps its packets. -/
theorem loopRows_setAllValuesSql (h : t.WellFormed icu bounded)
    (hitem : ∃ li ∈ t.loopItem, Tables.itemKey li = (loop.container.id, name)
      ∧ li.loopNum = loop.loopNum) :
    (loopRows loop (setAllValuesSql loop.container name value t).2).Perm (loopRows loop t) := by
  have hjoin := packetRows_perm h hitem
  refine (List.perm_ext_iff_of_nodup (nodup_loopRows loop _) (nodup_loopRows loop t)).mpr fun row =>
    ?_
  constructor
  · intro hrow
    obtain ⟨iv, hiv, rfl⟩ := mem_loopRows.mp hrow
    obtain ⟨hmem, hcid, hli⟩ := Tables.mem_loopValues.mp hiv
    rcases List.mem_append.mp hmem with hold | hnew
    · exact mem_loopRows.mpr ⟨iv,
        Tables.mem_loopValues.mpr ⟨List.mem_of_mem_filter hold, hcid, hli⟩, rfl⟩
    · obtain ⟨row, hjoined, rfl⟩ := List.mem_map.mp hnew
      exact hjoin.mem_iff.mp hjoined
  · intro hrow
    have hnew : (⟨loop.container.id, name, row, value⟩ : ItemValueRow)
        ∈ (setAllValuesSql loop.container name value t).2.itemValue :=
      List.mem_append_right _ (List.mem_map.mpr ⟨row, hjoin.mem_iff.mpr hrow, rfl⟩)
    exact mem_loopRows.mpr ⟨_, Tables.mem_loopValues.mpr ⟨hnew, rfl, hitem⟩, rfl⟩

/-- What the statement leaves is right if its value comes back from the rows, where there are
any. -/
theorem givesAll_setAllValuesSql_iff {platform : Platform} {t₁ : Tables}
    (h : t₁.WellFormed icu bounded)
    (hitem : ∃ li ∈ t₁.loopItem, Tables.itemKey li = (loop.container.id, name)
      ∧ li.loopNum = loop.loopNum)
    (hvalues : t₁.itemValue = t.itemValue) (hloop : t₁.loop = t.loop)
    (hrows : (loopRows loop t₁).Perm (loopRows loop t)) :
    GivesAll platform loop name value t (setAllValuesSql loop.container name value t₁).2
      ↔ (loopRows loop t ≠ [] → value.reread platform = some (.ok value)) := by
  have hjoin := (packetRows_perm h hitem).trans hrows
  constructor
  · intro hgives hne
    obtain ⟨row, hrow⟩ := List.exists_mem_of_ne_nil _ hne
    obtain ⟨iv, hiv, rfl, hread⟩ := hgives.given row hrow
    rcases mem_itemValues_setAllValuesSql.mp hiv with ⟨-, hnot⟩ | ⟨row', -, rfl⟩
    · exact absurd (hjoin.mem_iff.mpr hrow) hnot
    · exact hread
  · intro hread
    refine ⟨?_, (loopRows_setAllValuesSql h hitem).trans hrows, hloop, ?_⟩
    · intro row hrow
      refine ⟨⟨loop.container.id, name, row, value⟩, ?_, rfl, hread (List.ne_nil_of_mem hrow)⟩
      exact mem_itemValues_setAllValuesSql.mpr (.inr ⟨row, hjoin.mem_iff.mpr hrow, rfl⟩)
    · intro containerId name' hne
      exact itemValues_setAllValuesSql_new hvalues hne

/-- Where the item is in the loop, the count and the rows are right if the value can be set. -/
theorem setAllValues_givesAll_iff {platform : Platform} (hmade : value.Made) {t₁ : Tables}
    (h : t₁.WellFormed icu bounded)
    (hitem : ∃ li ∈ t₁.loopItem,
      Tables.itemKey li = (loop.container.id, name) ∧ li.loopNum = loop.loopNum)
    (hvalues : t₁.itemValue = t.itemValue) (hloop : t₁.loop = t.loop)
    (hrows : (loopRows loop t₁).Perm (loopRows loop t)) {changes : Nat} :
    (((∃ columns, value.setValueProps platform = some (.ok columns))
          ∧ (packetRows loop.container name t₁ ≠ [] →
            value.Writable (Value.setValueProps platform)))
        ∧ changes = (packetRows loop.container name t₁).length)
        ∧ changes = (loopRows loop t).length
        ∧ GivesAll platform loop name value t (setAllValuesSql loop.container name value t₁).2
      ↔ Settable platform value (loopRows loop t) ∧ changes = (loopRows loop t).length := by
  have hjoin := (packetRows_perm h hitem).trans hrows
  have hnil : packetRows loop.container name t₁ ≠ [] ↔ loopRows loop t ≠ [] :=
    not_congr ⟨fun heq => List.perm_nil.mp (heq ▸ hjoin).symm,
      fun heq => List.perm_nil.mp (heq ▸ hjoin)⟩
  have hgives :=
    @givesAll_setAllValuesSql_iff icu bounded t loop name value platform _ h hitem hvalues hloop
    hrows
  rw [hgives, hnil, hjoin.length_eq]
  constructor
  · rintro ⟨⟨⟨hbound, hwritable⟩, hcount⟩, -, hread⟩
    refine ⟨⟨hbound, fun hne => ?_⟩, hcount⟩
    exact (Value.writable_and_reread_iff hmade).mp ⟨hwritable hne, hread hne⟩
  · rintro ⟨⟨hbound, hkept⟩, hcount⟩
    have hboth := fun hne => (Value.writable_and_reread_iff hmade).mpr (hkept hne)
    exact ⟨⟨⟨hbound, fun hne => (hboth hne).1⟩, hcount⟩, hcount, fun hne => (hboth hne).2⟩

end Rows

section Operations

variable {icu : Icu} {platform : Platform} {bounded : Prop} {cif : Cif} {loop : Loop}
  {name nameOrig : UStr}

/-- `cif_container_set_value` on an item of the loop. -/
theorem setsAll_iff (h : cif.tables.WellFormed icu bounded)
    (hnorm : icu.normalizeItemName nameOrig Code.invalidItemname = .ok name)
    (hitem : ∃ li ∈ cif.tables.loopItem,
      Tables.itemKey li = (loop.container.id, name) ∧ li.loopNum = loop.loopNum)
    {value : Value} (hmade : value.Made) :
    SetsAll icu platform loop nameOrig name value cif
      ↔ cif.saved = [] ∧ Settable platform value (loopRows loop cif.tables) := by
  obtain ⟨l, hl⟩ : ∃ l, itemLoops loop.container name cif.tables = [l] := by
    obtain ⟨li, hli, hkey, -⟩ := hitem
    exact itemLoops_present h (mem_itemKeys.mpr ⟨li, hli, hkey⟩)
  have hget : cif.getItemLoopInternal loop.container name
      = .ok ⟨loop.container, l.loopNum, l.category⟩ := by
    simp only [getItemLoopInternal, hl]
  have hgives :=
    @setAllValues_givesAll_iff icu bounded cif.tables loop name value platform hmade cif.tables h
    hitem rfl rfl (List.Perm.refl _)
  constructor
  · rintro ⟨⟨changed, hcount⟩, cif', hset, hall⟩
    obtain ⟨hbound, hchanges, -⟩ := setAllValues_iff.mp hcount
    obtain ⟨name', hnorm', hsaved, hdone⟩ := setValue_iff.mp hset
    obtain rfl : name = name' := Except.ok.inj (hnorm.symm.trans hnorm')
    refine ⟨hsaved, ?_⟩
    rcases hdone with ⟨changes, done, -, hstatement, rfl⟩ | ⟨-, habsent, -⟩
    · obtain ⟨-, -, rfl⟩ := setAllValues_iff.mp hstatement
      exact (hgives.mp ⟨⟨hbound, hchanges⟩, rfl, hall⟩).1
    · rw [hget] at habsent
      cases habsent
  · rintro ⟨hsaved, hsettable⟩
    obtain ⟨⟨hbound, hchanges⟩, -, hall⟩ := hgives.mpr ⟨hsettable, rfl⟩
    refine ⟨⟨_, setAllValues_iff.mpr ⟨hbound, hchanges, rfl⟩⟩, _,
      setValue_iff.mpr ⟨name, hnorm, hsaved,
      .inl ⟨_, _, ⟨_, hget⟩, setAllValues_iff.mpr ⟨hbound, rfl, rfl⟩, rfl⟩⟩, hall⟩

/-- `cif_loop_add_item` with a name that the container does not have. -/
theorem addsAll_iff (h : cif.tables.WellFormed icu bounded)
    (hnorm : icu.normalizeItemName nameOrig Code.invalidItemname = .ok name)
    (hloop : ∃ l ∈ cif.tables.loop, Tables.loopKey l = (loop.container.id, loop.loopNum))
    (habsent : ∀ li ∈ cif.tables.loopItem, Tables.itemKey li ≠ (loop.container.id, name))
    {val : Option Value} (hmade : (val.getD .unk).Made) :
    AddsAll icu platform loop nameOrig name val cif
      ↔ Settable platform (val.getD .unk) (loopRows loop cif.tables) := by
  have hadd : addLoopItem loop.container name nameOrig loop.loopNum cif.tables
      = some (withItem cif.tables loop.container name nameOrig loop.loopNum) :=
        addLoopItem_eq habsent hloop
  have hwf : (withItem cif.tables loop.container name nameOrig loop.loopNum).WellFormed icu
      bounded :=
    (follows_addLoopItem h (normalizeItemName_ok hnorm) hadd).wellFormed
  have hitem : ∃ li ∈ (withItem cif.tables loop.container name nameOrig loop.loopNum).loopItem,
      Tables.itemKey li = (loop.container.id, name) ∧ li.loopNum = loop.loopNum :=
    ⟨_, List.mem_append_right _ (List.mem_singleton_self _), rfl, rfl⟩
  have hrows : (loopRows loop (withItem cif.tables loop.container name nameOrig loop.loopNum)).Perm
      (loopRows loop cif.tables) :=
    (packetRows_perm hwf hitem).symm.trans
      (packetRows_withItem h habsent loop.loopNum loop.category)
  have hgives :=
    @setAllValues_givesAll_iff icu bounded cif.tables loop name (val.getD .unk) platform hmade _ hwf
    hitem rfl rfl hrows
  have hitemAdded : ∀ cif', cif.addItem icu (Value.setValueProps platform) loop nameOrig val
      = some (.ok (), cif')
      ↔ ∃ changes,
        cif.addItemInternal (Value.setValueProps platform) loop name nameOrig (val.getD .unk)
        = some (.ok changes, cif') := by
    intro cif'
    simp only [addItem, hnorm]
    rcases cif.addItemInternal (Value.setValueProps platform) loop name nameOrig (val.getD .unk)
      with _ | ⟨_ | changes, done⟩ <;> simp [Except.map]
  constructor
  · rintro ⟨⟨changed, hcount⟩, cif', hset, hall⟩
    obtain ⟨changes, hset⟩ := (hitemAdded cif').mp hset
    obtain ⟨t, ht, hbound, hchanges, -⟩ := addItemInternal_iff.mp hcount
    obtain ⟨t', ht', -, -, rfl⟩ := addItemInternal_iff.mp hset
    obtain rfl := Option.some.inj (hadd.symm.trans ht)
    obtain rfl := Option.some.inj (hadd.symm.trans ht')
    exact (hgives.mp ⟨⟨hbound, hchanges⟩, rfl, hall⟩).1
  · intro hsettable
    obtain ⟨⟨hbound, hchanges⟩, -, hall⟩ := hgives.mpr ⟨hsettable, rfl⟩
    have hset := addItemInternal_iff.mpr ⟨_, hadd, hbound, hchanges, rfl⟩
    exact ⟨⟨_, hset⟩, _, (hitemAdded _).mpr ⟨_, hset⟩, hall⟩

end Operations

end Cif

namespace Session

open Cif

variable {icu : Icu} {platform : Platform} {s : Session}

/-- An item gets its value in all packets of its loop, be it there or new to the loop, and nothing
else changes, exactly where the value is one that the packets' rows can keep and, for an item that
is there, no transaction is open. -/
theorem setsAll_and_addsAll_iff (h : Reachable icu platform s) {loop : Loop}
    (hloop : ∃ l ∈ s.cif.tables.loop, Tables.loopKey l = (loop.container.id, loop.loopNum))
    {nameOrig name : UStr} (hnorm : icu.normalizeItemName nameOrig Code.invalidItemname = .ok name)
    {val : Option Value} (hmade : ∀ value ∈ val, value.Made) :
    ((∃ li ∈ s.cif.tables.loopItem, Tables.itemKey li = (loop.container.id, name)
      ∧ li.loopNum = loop.loopNum) → (SetsAll icu platform loop nameOrig name (val.getD .unk) s.cif
        ↔ s.cif.saved = [] ∧ Settable platform (val.getD .unk) (loopRows loop s.cif.tables)))
    ∧ ((∀ li ∈ s.cif.tables.loopItem, Tables.itemKey li ≠ (loop.container.id, name)) →
      (AddsAll icu platform loop nameOrig name val s.cif
        ↔ Settable platform (val.getD .unk) (loopRows loop s.cif.tables))) := by
  have hwf := h.wellFormed.tables
  have hmade' : (val.getD .unk).Made := by
    cases val with
    | none => exact .unk
    | some value => exact hmade value rfl
  constructor
  · intro hitem
    exact setsAll_iff hwf hnorm hitem hmade'
  · intro habsent
    exact addsAll_iff hwf hnorm hloop habsent hmade'

/-- A loop of two items and two packets, each with a value for one of the items. -/
def gappedLoop : Session :=
  let block : Container := ⟨1, units "a", units "a", none⟩
  ({} : Session).after Icu.ascii Platform.exact [.createBlock (units "a") false,
    .createLoop block none [units "_x", units "_y"],
    .addPacket ⟨block, 0, none⟩ [(units "_x", units "_x", .unk)],
    .addPacket ⟨block, 0, none⟩ [(units "_y", units "_y", .na)]]

/-- A number is set in both packets, and so is a new item. -/
theorem setsAll_and_addsAll_gappedLoop :
    let loop : Loop := ⟨⟨1, units "a", units "a", none⟩, 0, none⟩
    let value := Value.numb ⟨units "-1.5(2)", -1, units "15", some (units "2"), 1⟩ false
    SetsAll Icu.ascii Platform.exact loop (units "_Y") (units "_y") value gappedLoop.cif
      ∧ AddsAll Icu.ascii Platform.exact loop (units "_Z") (units "_z") none gappedLoop.cif := by
  intro loop value
  have hreach : Reachable Icu.ascii Platform.exact gappedLoop := .after (by decide +kernel)
  have hloop : ∃ l ∈ gappedLoop.cif.tables.loop,
      Tables.loopKey l = (loop.container.id, loop.loopNum) := by
    decide +kernel
  have hmade : ∀ value' ∈ some value, value'.Made := by
    intro value' hvalue
    obtain rfl := Option.some.inj hvalue
    exact .numb (by decide +kernel) (by decide +kernel) (by decide +kernel) (by decide +kernel)
      (by decide +kernel)
  constructor
  · refine ((setsAll_and_addsAll_iff hreach hloop (by decide +kernel) hmade).1
      (by decide +kernel)).mpr ?_
    have hfits : FitsArray Platform.exact.floorLog2 (units "15") 1 :=
      (toDouble_isSome_iff exactFloorLog2_spec (by decide +kernel) .toNearest).mp
        (by decide +kernel)
    exact ⟨by decide +kernel, ⟨_, rfl⟩, fun _ => ⟨by decide +kernel, rfl, hfits⟩⟩
  · refine ((setsAll_and_addsAll_iff hreach hloop (by decide +kernel) (by simp)).2
      (by decide +kernel)).mpr ?_
    exact ⟨⟨_, rfl⟩, fun _ => trivial⟩

/-- A list with a long text is not set in any packet. -/
theorem not_setsAll_gappedLoop :
    let loop : Loop := ⟨⟨1, units "a", units "a", none⟩, 0, none⟩
    Reachable Icu.ascii Platform.exact gappedLoop ∧ longText.Made ∧ gappedLoop.cif.saved = []
      ∧ (∃ li ∈ gappedLoop.cif.tables.loopItem,
        Tables.itemKey li = (loop.container.id, units "_y") ∧ li.loopNum = loop.loopNum)
      ∧ gappedLoop.cif.setValue Icu.ascii (Value.setValueProps Platform.exact) loop.container
        (units "_y") longText
        = none
      ∧ ¬ SetsAll Icu.ascii Platform.exact loop (units "_y") (units "_y") longText
        gappedLoop.cif := by
  intro loop
  have hmade : longText.Made := .list (by decide) fun element he => by
    obtain rfl := List.mem_singleton.mp he
    exact .char (by decide +kernel)
  have hset : longText.setValueProps Platform.exact = none := by
    have hlong : ¬ longText.bytes.length ≤ 768 := by decide +kernel
    have hblob : longText.setValueProps Platform.exact = longText.blobProps Kind.list := by
      rw [longText, Value.setValueProps]
    rw [hblob, Value.blobProps_eq hmade, if_neg hlong]
  have hreach : Reachable Icu.ascii Platform.exact gappedLoop := .after (by decide +kernel)
  have hsaved : gappedLoop.cif.saved = [] := by decide +kernel
  refine ⟨hreach, hmade, hsaved, by decide +kernel, ?_, ?_⟩
  · have hnorm : Icu.ascii.normalizeItemName (units "_y") Code.invalidItemname
        = .ok (units "_y") := by
      decide +kernel
    have hbegin : gappedLoop.cif.beginTx
        = some { gappedLoop.cif with saved := [gappedLoop.cif.tables] } :=
      beginTx_eq_some.mpr ⟨hsaved, rfl⟩
    have hget : ({ gappedLoop.cif with saved := [gappedLoop.cif.tables] } : Cif).getItemLoopInternal
        loop.container (units "_y") = .ok loop := by
      decide +kernel
    simp only [setValue, hnorm, hbegin, hget, setAllValues, hset, endTx]
  · rintro ⟨⟨changed, hcount⟩, -⟩
    simp [setAllValues, hset] at hcount

end Session

end CifApi
