import CifApi.Store.Iteration

/-! What the removal of an item leaves of its loop's packets. -/
namespace CifApi

/-- A packet but for one of its items. -/
def Packet.without (name : UStr) (packet : Packet) : Packet := packet.filter (·.1 ≠ name)

section Packets

variable {names : List UStr} {name : UStr} {rows : List ItemValueRow}

theorem packetOf_filter : packetOf (names.filter (· ≠ name)) (rows.filter (·.name ≠ name))
    = Packet.without name (packetOf names rows) := by
  unfold packetOf Packet.without
  rw [List.filter_map]
  refine List.map_congr_left fun n hn => ?_
  have hne : n ≠ name := by simpa using (List.mem_filter.mp hn).2
  have hfind : (rows.filter (·.name ≠ name)).find? (·.name = n) = rows.find? (·.name = n) := by
    rw [List.find?_filter]
    refine Tables.find?_congr_mem fun row _ => ?_
    by_cases hrow : row.name = n <;> simp [hrow, hne]
  rw [hfind]

/-- The numbers of the packets that rows make. -/
def rowNumbers (rows : List ItemValueRow) : List Nat := (rows.map (·.rowNum)).eraseDups

theorem mem_rowNumbers {r : Nat} : r ∈ rowNumbers rows ↔ ∃ row ∈ rows, row.rowNum = r := by
  rw [rowNumbers, List.mem_eraseDups, List.mem_map]

theorem rowNumbers_strictMono (h : rows.Pairwise (·.rowNum ≤ ·.rowNum)) :
    (rowNumbers rows).Pairwise (· < ·) := by
  have hle : (rowNumbers rows).Pairwise (· ≤ ·) :=
    (List.pairwise_map.mpr h).sublist (eraseDups_sublist _)
  have hne : (rowNumbers rows).Pairwise (· ≠ ·) := nodup_eraseDups _
  exact (hle.and hne).imp fun h => Nat.lt_of_le_of_ne h.1 h.2

theorem map_without_packetsOf : (packetsOf names rows).map (fun p => Packet.without name p.2)
    = (rowNumbers rows).map fun r => packetOf (names.filter (· ≠ name))
        ((rows.filter (·.name ≠ name)).filter (·.rowNum = r)) := by
  rw [packetsOf, List.map_map]
  refine List.map_congr_left fun r _ => ?_
  have hcomm : (rows.filter (·.name ≠ name)).filter (·.rowNum = r)
      = (rows.filter (·.rowNum = r)).filter (·.name ≠ name) := by
    rw [List.filter_filter, List.filter_filter]
    exact List.filter_congr fun row _ => Bool.and_comm _ _
  rw [hcomm, packetOf_filter]
  rfl

/-- The packets of the rows that are left are the packets there were, but for the item, if and only
if each of them has a row left. -/
theorem map_without_packetsOf_eq_iff (h : rows.Pairwise (·.rowNum ≤ ·.rowNum)) :
    (packetsOf (names.filter (· ≠ name)) (rows.filter (·.name ≠ name))).map (fun p =>
      Packet.without name p.2)
        = (packetsOf names rows).map (fun p => Packet.without name p.2)
      ↔ ∀ row ∈ rows, row.name = name → ∃ row' ∈ rows, row'.rowNum = row.rowNum
        ∧ row'.name ≠ name := by
  have hfilter : (names.filter (· ≠ name)).filter (· ≠ name) = names.filter (· ≠ name) := by
    simp [List.filter_filter]
  have hfilter' : (rows.filter (·.name ≠ name)).filter (·.name ≠ name)
      = rows.filter (·.name ≠ name) := by
    simp [List.filter_filter]
  rw [map_without_packetsOf, map_without_packetsOf, hfilter, hfilter']
  have hsub : rowNumbers (rows.filter (·.name ≠ name)) ⊆ rowNumbers rows := by
    intro r hr
    obtain ⟨row, hrow, hnum⟩ := mem_rowNumbers.mp hr
    exact mem_rowNumbers.mpr ⟨row, (List.mem_filter.mp hrow).1, hnum⟩
  constructor
  · intro heq row hrow _
    have hlength : (rowNumbers rows).length
        ≤ (rowNumbers (rows.filter (·.name ≠ name))).length := by
      have h := congrArg List.length heq
      simp only [List.length_map] at h
      exact h.ge
    have hperm := (List.subperm_of_subset (nodup_eraseDups _) hsub).perm_of_length_le hlength
    obtain ⟨row', hrow', hnum⟩ :=
      mem_rowNumbers.mp (hperm.mem_iff.mpr (mem_rowNumbers.mpr ⟨row, hrow, rfl⟩))
    obtain ⟨hmem, hne⟩ := List.mem_filter.mp hrow'
    exact ⟨row', hmem, hnum, by simpa using hne⟩
  · intro hkept
    have heq : rowNumbers (rows.filter (·.name ≠ name)) = rowNumbers rows := by
      refine List.Pairwise.eq_of_mem_iff (rowNumbers_strictMono (h.sublist List.filter_sublist))
        (rowNumbers_strictMono h) fun r => ⟨fun hr => hsub hr, fun hr => ?_⟩
      obtain ⟨row, hrow, rfl⟩ := mem_rowNumbers.mp hr
      by_cases hname : row.name = name
      · obtain ⟨row', hrow', hnum, hne⟩ := hkept row hrow hname
        exact mem_rowNumbers.mpr ⟨row', List.mem_filter.mpr ⟨hrow', by simpa using hne⟩, hnum⟩
      · exact mem_rowNumbers.mpr ⟨row, List.mem_filter.mpr ⟨hrow, by simpa using hname⟩, rfl⟩
    rw [heq]

end Packets

namespace Cif

variable {icu : Icu} {bounded : Prop} {t : Tables} {loop : Loop} {name : UStr}

theorem itemNames_deleteItem : itemNames loop (deleteItem loop.container.id name t)
    = (itemNames loop t).filter (· ≠ name) := by
  unfold itemNames loopItems deleteItem
  rw [List.filter_map, List.filter_filter, List.filter_filter]
  refine congrArg _ (List.filter_congr fun li _ => ?_)
  by_cases hcid : li.containerId = loop.container.id <;> simp [hcid, Bool.and_comm]

theorem loopValues_deleteItem : loopValues loop (deleteItem loop.container.id name t)
    = (loopValues loop t).filter (·.name ≠ name) := by
  have hnames (iv : ItemValueRow) : (loopItems loop (deleteItem loop.container.id name t)).any
      (·.name = iv.name) = true ↔ iv.name ≠ name ∧ iv.name ∈ itemNames loop t := by
    have hmem : (loopItems loop (deleteItem loop.container.id name t)).any (·.name = iv.name) = true
        ↔ iv.name ∈ itemNames loop (deleteItem loop.container.id name t) := by simp [itemNames]
    rw [hmem, itemNames_deleteItem, List.mem_filter]
    simp [and_comm]
  have hnames' (iv : ItemValueRow) : (loopItems loop t).any (·.name = iv.name) = true
      ↔ iv.name ∈ itemNames loop t := by simp [itemNames]
  unfold loopValues
  rw [filter_insertionSort, List.filter_filter]
  refine congrArg _ ?_
  change ((t.itemValue.filter _).filter _) = _
  rw [List.filter_filter]
  refine List.filter_congr fun iv _ => ?_
  rw [Bool.eq_iff_iff]
  simp only [Bool.and_eq_true, hnames, hnames', decide_eq_true_eq, Bool.not_eq_true',
    Bool.and_eq_false_iff, decide_eq_false_iff_not]
  tauto

/-- The tables after an item of a loop with more items is removed. -/
theorem removeItem_tables {cif : Cif} (h : cif.tables.WellFormed icu bounded)
    (hauto : cif.autocommit = true) {itemName : UStr}
    (hname : icu.normalizeItemName itemName Code.nosuchItem = .ok name)
    (hmem : name ∈ itemNames loop cif.tables) (htwo : 2 ≤ (itemNames loop cif.tables).length) :
    (cif.removeItem icu loop.container itemName).2.tables
      = deleteItem loop.container.id name cif.tables := by
  obtain ⟨li, hli, hlname⟩ := List.mem_map.mp hmem
  obtain ⟨hli, hkey⟩ := List.mem_filter.mp hli
  simp only [Bool.and_eq_true, decide_eq_true_eq] at hkey
  have hsaved : cif.saved = [] := by simpa [autocommit] using hauto
  have hbegin : cif.beginTx = some { cif with saved := [cif.tables] } :=
    beginTx_eq_some.mpr ⟨hsaved, rfl⟩
  have hfind : cif.tables.loopItem.find? (fun li => li.containerId = loop.container.id
      && li.name = name)
      = some li := by
    cases hfound : cif.tables.loopItem.find? fun li => li.containerId = loop.container.id
      && li.name = name with
    | none =>
      have hno := List.find?_eq_none.mp hfound li hli
      simp [hkey.1, hlname] at hno
    | some li' =>
      have hli' := List.mem_of_find?_eq_some hfound
      have hkey' := List.find?_some hfound
      simp only [Bool.and_eq_true, decide_eq_true_eq] at hkey'
      rw [h.items.eq hli' hli (by simp [Tables.itemKey, hkey', hkey.1, hlname])]
  have hsize : (loopItems ⟨loop.container, li.loopNum, none⟩ cif.tables).length ≠ 1 := by
    have hlength : (itemNames loop cif.tables).length
        = (loopItems ⟨loop.container, li.loopNum, none⟩ cif.tables).length := by
      rw [itemNames, List.length_map, hkey.2]
      rfl
    omega
  unfold removeItem
  rw [hname]
  simp only [hbegin, hfind, if_neg hsize]
  rfl

end Cif

namespace Session

variable {icu : Icu} {platform : Platform} {s : Session}

/-- The removal of an item leaves the loop's packets, but for the item, as they are exactly where
none of them has a value for this item alone. -/
theorem removeItem_packets_iff (hreach : Reachable icu platform s) (loop : Loop)
    {itemName name : UStr} (hname : icu.normalizeItemName itemName Code.nosuchItem = .ok name)
    (hmem : name ∈ Cif.itemNames loop s.cif.tables)
    (htwo : 2 ≤ (Cif.itemNames loop s.cif.tables).length) :
    (Cif.packets loop (s.cif.removeItem icu loop.container itemName).2.tables).map
          (fun p => Packet.without name p.2)
        = (Cif.packets loop s.cif.tables).map (fun p => Packet.without name p.2)
      ↔ s.cif.autocommit = false ∨ ∀ iv ∈ Cif.loopValues loop s.cif.tables, iv.name = name →
          ∃ iv' ∈ Cif.loopValues loop s.cif.tables, iv'.rowNum = iv.rowNum ∧ iv'.name ≠ name := by
  by_cases hauto : s.cif.autocommit = true
  · have hwf := hreach.wellFormed.tables
    rw [Cif.removeItem_tables hwf hauto hname hmem htwo, Cif.packets, Cif.packets,
      Cif.itemNames_deleteItem, Cif.loopValues_deleteItem,
      map_without_packetsOf_eq_iff (hwf.ordered loop).sorted]
    simp [hauto]
  · have hbegin : s.cif.beginTx = none := by simp [Cif.beginTx, hauto]
    have htables : (s.cif.removeItem icu loop.container itemName).2.tables = s.cif.tables := by
      unfold Cif.removeItem
      rw [hname]
      simp only [hbegin]
    rw [htables]
    simp [hauto]

/-- A loop of two items and two packets, the second with a value for the first item alone. -/
def sparseLoop : Session :=
  let block : Container := ⟨1, units "a", units "a", none⟩
  let loop : Loop := ⟨block, 0, none⟩
  ({} : Session).after Icu.ascii Platform.exact [.createBlock (units "a") false,
    .createLoop block none [units "_x", units "_y"],
    .addPacket loop [(units "_x", units "_x", .na), (units "_y", units "_y", .na)],
    .addPacket loop [(units "_x", units "_x", .na)]]

/-- Its second item can be removed. -/
theorem removeItem_packets_sparseLoop :
    let loop : Loop := ⟨⟨1, units "a", units "a", none⟩, 0, none⟩
    (Cif.packets loop
      (sparseLoop.cif.removeItem Icu.ascii loop.container (units "_Y")).2.tables).map
          (fun p => Packet.without (units "_y") p.2)
        = (Cif.packets loop sparseLoop.cif.tables).map (fun p =>
          Packet.without (units "_y") p.2) := by
  intro loop
  have hreach : Reachable Icu.ascii Platform.exact sparseLoop := .after (by decide +kernel)
  refine (removeItem_packets_iff hreach loop (by decide) ?_ ?_).mpr (.inr ?_)
  · decide +kernel
  · decide +kernel
  · decide +kernel

/-- With its first item goes its second packet. -/
theorem removeItem_loses_packet :
    let loop : Loop := ⟨⟨1, units "a", units "a", none⟩, 0, none⟩
    (Cif.packets loop sparseLoop.cif.tables).length = 2
      ∧ (sparseLoop.cif.removeItem Icu.ascii loop.container (units "_x")).1 = .ok ()
      ∧ (Cif.packets loop
        (sparseLoop.cif.removeItem Icu.ascii loop.container (units "_x")).2.tables).length
        = 1 := by
  decide +kernel

end Session

end CifApi
