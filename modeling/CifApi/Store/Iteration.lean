import CifApi.Store.Consistency

/-! What an iterator yields, and when it may change the packet it stands at. -/
namespace CifApi

/-- The packet that some rows of one number make: each item's value, unknown where there is none. -/
def packetOf (names : List UStr) (rows : List ItemValueRow) : Packet :=
  names.map fun name => (name, name, ((rows.find? (·.name = name)).map (·.value)).getD .unk)

/-- The packets that rows make, by their numbers. -/
def packetsOf (names : List UStr) (rows : List ItemValueRow) : List (Nat × Packet) :=
  (rows.map (·.rowNum)).eraseDups.map fun row =>
    (row, packetOf names (rows.filter (·.rowNum = row)))

namespace Cif

/-- The normalised names of a loop's items. -/
def itemNames (loop : Loop) (t : Tables) : List UStr := (loopItems loop t).map (·.name)

/-- The packets of a loop, in the order of their rows. -/
def packets (loop : Loop) (t : Tables) : List (Nat × Packet) :=
  packetsOf (itemNames loop t) (loopValues loop t)

end Cif

section Packets

variable {names : List UStr} {group rest : List ItemValueRow} {r : Nat}

theorem packetsOf_nil : packetsOf names [] = [] := rfl

theorem filter_rowNum_append (hgroup : ∀ row ∈ group, row.rowNum = r)
    (hrest : ∀ row ∈ rest, row.rowNum ≠ r) :
    (group ++ rest).filter (·.rowNum = r) = group := by
  have hkeep : group.filter (·.rowNum = r) = group :=
    List.filter_eq_self.mpr fun row hrow => by simpa using hgroup row hrow
  have hdrop : rest.filter (·.rowNum = r) = [] :=
    List.filter_eq_nil_iff.mpr fun row hrow => by simpa using hrest row hrow
  rw [List.filter_append, hkeep, hdrop, List.append_nil]

theorem filter_other_append (hgroup : ∀ row ∈ group, row.rowNum = r) {r' : Nat} (hne : r' ≠ r) :
    (group ++ rest).filter (·.rowNum = r') = rest.filter (·.rowNum = r') := by
  have hdrop : group.filter (·.rowNum = r') = [] := by
    refine List.filter_eq_nil_iff.mpr fun row hrow => ?_
    have hr := hgroup row hrow
    simp only [decide_eq_true_eq]
    omega
  rw [List.filter_append, hdrop, List.nil_append]

/-- Rows that come in groups of one number make one packet a group. -/
theorem packetsOf_append (hne : group ≠ []) (hgroup : ∀ row ∈ group, row.rowNum = r)
    (hrest : ∀ row ∈ rest, row.rowNum ≠ r) :
    packetsOf names (group ++ rest) = (r, packetOf names group) :: packetsOf names rest := by
  have hrows : ((group ++ rest).map (·.rowNum)).eraseDups
      = r :: (rest.map (·.rowNum)).eraseDups := by
    cases group with
    | nil => exact absurd rfl hne
    | cons row tail =>
      have hr : row.rowNum = r := hgroup row (List.mem_cons_self ..)
      have hdrop : (tail.map (·.rowNum)).filter (fun b => !b == row.rowNum) = [] := by
        refine List.filter_eq_nil_iff.mpr fun b hb => ?_
        obtain ⟨row', hrow', rfl⟩ := List.mem_map.mp hb
        simp [hr, hgroup row' (List.mem_cons_of_mem _ hrow')]
      have hkeep : (rest.map (·.rowNum)).filter (fun b => !b == row.rowNum)
          = rest.map (·.rowNum) := by
        refine List.filter_eq_self.mpr fun b hb => ?_
        obtain ⟨row', hrow', rfl⟩ := List.mem_map.mp hb
        simpa [hr] using hrest row' hrow'
      rw [List.cons_append, List.map_cons, List.eraseDups_cons, List.map_append, List.filter_append,
        hdrop, hkeep, List.nil_append, hr]
  unfold packetsOf
  rw [hrows, List.map_cons, filter_rowNum_append hgroup hrest]
  refine congrArg _ (List.map_congr_left fun r' hr' => ?_)
  obtain ⟨row, hrow, rfl⟩ := List.mem_map.mp (List.mem_eraseDups.mp hr')
  rw [filter_other_append hgroup (hrest row hrow)]

end Packets

namespace PacketIterator

variable {names : List UStr} {r : Nat}

/-- The entry of a name in a packet made of names, and what setting its value changes. -/
theorem findIdx?_map_names {g : UStr → UStr × UStr × Value} (hg : ∀ n, (g n).1 = n) {name : UStr}
    (hname : name ∈ names) (hnodup : names.Nodup) :
    ∃ i, (names.map g).findIdx? (·.1 = name) = some i ∧ (names.map g)[i]? = some (g name) ∧
      ∀ value, Packet.setValue (names.map g) i value
        = names.map fun n => if n = name then ((g n).1, (g n).2.1, value) else g n := by
  induction names with
  | nil => simp at hname
  | cons n names ih =>
    obtain ⟨hnotin, hnodup⟩ := List.nodup_cons.mp hnodup
    by_cases hsame : n = name
    · subst hsame
      refine ⟨0, by simp [List.findIdx?_cons, hg], rfl, ?_⟩
      intro value
      have hrest : names.map (fun m => if m = n then ((g m).1, (g m).2.1, value) else g m)
          = names.map g :=
        List.map_congr_left fun m hm => if_neg fun heq : m = n => hnotin (heq ▸ hm)
      simp [Packet.setValue, hrest]
    · have hmem : name ∈ names := by
        rcases List.mem_cons.mp hname with rfl | hmem
        · exact absurd rfl hsame
        · exact hmem
      obtain ⟨i, hfind, hget, hset⟩ := ih hmem hnodup
      refine ⟨i + 1, ?_, hget, ?_⟩
      · simp [List.findIdx?_cons, hg, hsame, hfind]
      · intro value
        have hrest := hset value
        simp only [Packet.setValue] at hrest ⊢
        simp [hsame, hrest]

theorem readValue_names {f : UStr → Value} (hnodup : names.Nodup) {row : ItemValueRow}
    (hname : row.name ∈ names) (hunk : f row.name = .unk) :
    readValue (names.map fun n => (n, n, f n)) row
      = .ok (names.map fun n => (n, n, if n = row.name then row.value else f n)) := by
  obtain ⟨i, hfind, hget, hset⟩ :=
    findIdx?_map_names (g := fun n => (n, n, f n)) (fun _ => rfl) hname hnodup
  unfold readValue
  rw [hfind]
  simp only [hget, hunk, hset]
  refine congrArg _ (List.map_congr_left fun n _ => ?_)
  split <;> rfl

/-- The rows of one number are read into one packet, and no others. -/
theorem readPacket_group {f : UStr → Value} (hnodup : names.Nodup) {group rest : List ItemValueRow}
    (hgroup : ∀ row ∈ group, row.rowNum = r) (hnames : ∀ row ∈ group, row.name ∈ names)
    (hdistinct : (group.map (·.name)).Nodup) (hunk : ∀ row ∈ group, f row.name = .unk)
    (hrest : ∀ row ∈ rest, row.rowNum ≠ r) :
    readPacket r (names.map fun n => (n, n, f n)) (group ++ rest)
      = (.ok (names.map fun n => (n, n, ((group.find? (·.name = n)).map (·.value)).getD (f n))),
        rest) := by
  induction group generalizing f with
  | nil =>
    cases rest with
    | nil => rfl
    | cons row rest =>
      rw [List.nil_append, readPacket, if_neg (hrest row (List.mem_cons_self ..))]
      rfl
  | cons row group ih =>
    obtain ⟨hnotin, hdistinct⟩ := List.nodup_cons.mp hdistinct
    have hname := hnames row (List.mem_cons_self ..)
    have hread := readValue_names hnodup hname (hunk row (List.mem_cons_self ..))
    rw [List.cons_append, readPacket, if_pos (hgroup row (List.mem_cons_self ..)), hread]
    have hrec := ih (f := fun n => if n = row.name then row.value else f n)
      (fun row' h => hgroup row' (List.mem_cons_of_mem _ h))
      (fun row' h => hnames row' (List.mem_cons_of_mem _ h)) hdistinct ?_
    · simp only [hrec]
      refine congrArg (fun p => (Except.ok p, rest)) (List.map_congr_left fun n _ => ?_)
      by_cases hn : row.name = n
      · subst hn
        have hnone : group.find? (·.name = row.name) = none := by
          refine List.find?_eq_none.mpr fun row' hrow' => ?_
          simp only [decide_eq_true_eq]
          exact fun heq => hnotin (List.mem_map.mpr ⟨row', hrow', heq⟩)
        simp [hnone]
      · have hn' : n ≠ row.name := fun h => hn h.symm
        simp [hn, hn']
    · intro row' hrow'
      have hne : row'.name ≠ row.name := fun heq => hnotin (List.mem_map.mpr ⟨row', hrow', heq⟩)
      simp [hne, hunk row' (List.mem_cons_of_mem _ hrow')]

/-- What an iterator's rows are: those of named items, one for each packet and item, in order. -/
structure Ordered (names : List UStr) (rows : List ItemValueRow) : Prop where
  sorted : rows.Pairwise (·.rowNum ≤ ·.rowNum)
  named : ∀ row ∈ rows, row.name ∈ names
  positive : ∀ row ∈ rows, 1 ≤ row.rowNum
  distinct : Keyed (fun row : ItemValueRow => (row.name, row.rowNum)) rows

theorem Ordered.sublist {rows rows' : List ItemValueRow} (h : Ordered names rows)
    (hsub : rows'.Sublist rows) : Ordered names rows' where
  sorted := h.sorted.sublist hsub
  named := fun row hrow => h.named row (hsub.subset hrow)
  positive := fun row hrow => h.positive row (hsub.subset hrow)
  distinct := h.distinct.sublist hsub

/-- The rows of the first packet, and those of the packets after it. -/
theorem Ordered.split {row : ItemValueRow} {rows : List ItemValueRow}
    (h : Ordered names (row :: rows)) : ∃ group rest, row :: rows = group ++ rest ∧ group ≠ [] ∧
      (∀ row' ∈ group, row'.rowNum = row.rowNum) ∧ (∀ row' ∈ rest, row'.rowNum ≠ row.rowNum)
      ∧ (group.map (·.name)).Nodup := by
  let same (row' : ItemValueRow) : Bool := row'.rowNum = row.rowNum
  have happend : (row :: rows).takeWhile same ++ (row :: rows).dropWhile same = row :: rows :=
    List.takeWhile_append_dropWhile
  have hgroup : ∀ row' ∈ (row :: rows).takeWhile same, row'.rowNum = row.rowNum := by
    intro row' hrow'
    have hsame := List.all_eq_true.mp List.all_takeWhile row' hrow'
    simpa [same] using hsame
  refine ⟨_, _, happend.symm, by simp [same], hgroup, ?_, ?_⟩
  · intro row' hrow' heq
    have hsorted := h.sorted
    rw [← happend] at hsorted
    cases hdrop : (row :: rows).dropWhile same with
    | nil => simp [hdrop] at hrow'
    | cons first rest =>
      -- the first row that is left is of a later packet, and so are those after it
      have hfirst : same first = false := by
        have hhead := List.head?_dropWhile_not same (row :: rows)
        simpa [hdrop] using hhead
      have hle : row.rowNum ≤ first.rowNum := by
        rcases List.mem_cons.mp
          (List.dropWhile_sublist (p := same) |>.subset (hdrop ▸ List.mem_cons_self ..))
          with rfl | hmem
        · exact Nat.le_refl _
        · exact List.rel_of_pairwise_cons h.sorted hmem
      rw [hdrop] at hrow' hsorted
      have hle' : first.rowNum ≤ row'.rowNum := by
        rcases List.mem_cons.mp hrow' with rfl | hmem
        · exact Nat.le_refl _
        · exact List.rel_of_pairwise_cons (List.pairwise_append.mp hsorted).2.1 hmem
      have hne : first.rowNum ≠ row.rowNum := by simpa [same] using hfirst
      omega
  · have hkeyed : Keyed (fun row : ItemValueRow => (row.name, row.rowNum))
        ((row :: rows).takeWhile same) := h.distinct.sublist (List.takeWhile_sublist _)
    refine List.Nodup.of_map (fun name => (name, row.rowNum)) ?_
    rw [List.map_map]
    have heq : ((row :: rows).takeWhile same).map (fun row' => (row'.name, row.rowNum))
        = ((row :: rows).takeWhile same).map (fun row' => (row'.name, row'.rowNum)) :=
      List.map_congr_left fun row' hrow' => by rw [hgroup row' hrow']
    change (List.map (fun row' : ItemValueRow => (row'.name, row.rowNum)) _).Nodup
    rw [heq]
    exact hkeyed

/-- The next packet is the first of those whose rows are still to be given. -/
theorem nextPacket_ok {it : PacketIterator} {cif : Cif} (hrows : Ordered it.itemNames it.rows)
    (hnodup : it.itemNames.Nodup) (hne : it.rows ≠ []) (hfinished : it.finished = false)
    (hauto : cif.autocommit = false) :
    ∃ r packet rest, 1 ≤ r ∧ packetsOf it.itemNames it.rows
      = (r, packet) :: packetsOf it.itemNames rest
      ∧ rest.Sublist it.rows ∧ it.nextPacket cif = (.ok packet,
        { it with rows := rest, finished := rest.isEmpty, previousRowNum := r }) := by
  obtain ⟨row, rows, heq⟩ := List.exists_cons_of_ne_nil hne
  rw [heq] at hrows
  obtain ⟨group, rest, hsplit, hgne, hgroup, hrest, hdistinct⟩ := hrows.split
  have hnames : ∀ row' ∈ group, row'.name ∈ it.itemNames := by
    intro row' hrow'
    exact hrows.named row' (hsplit ▸ List.mem_append_left _ hrow')
  have hread :=
    readPacket_group (f := fun _ => .unk) hnodup hgroup hnames hdistinct (fun _ _ => rfl) hrest
  refine ⟨row.rowNum, packetOf it.itemNames group, rest, hrows.positive row (List.mem_cons_self ..),
    ?_, ?_, ?_⟩
  · rw [heq, hsplit]
    exact packetsOf_append hgne hgroup hrest
  · rw [heq, hsplit]
    exact List.sublist_append_right ..
  · have hcurrent : (it.rows.head?.map (·.rowNum)).getD 0 = row.rowNum := by rw [heq]; rfl
    unfold nextPacket
    rw [hfinished, hauto, hcurrent, newPacket, heq, hsplit]
    simp only [Bool.false_eq_true, if_false, hread]
    rfl

end PacketIterator

namespace Tables

/-- The value stored for an item of a container in a row. -/
def valueAt (t : Tables) (id : Nat) (name : UStr) (row : Nat) : Option Value :=
  (t.itemValue.find? fun iv => iv.containerId = id && iv.name = name
    && iv.rowNum = row).map (·.value)

/-- A packet's values are in the row, and all other values and tables are as they were. -/
def Updated (id row : Nat) (packet : Packet) (t t' : Tables) : Prop :=
  t' = { t with itemValue := t'.itemValue } ∧ ∀ id' name row', t'.valueAt id' name row' =
    if id' = id ∧ row' = row then
      ((packet.reverse.find? (·.1 = name)).map (·.2.2)).or (t.valueAt id' name row')
    else t.valueAt id' name row'

/-- The row has no value left for the names, and all other values and tables are as they were but
for the counters of loops. -/
def Removed (id row : Nat) (names : List UStr) (t t' : Tables) : Prop :=
  t' = { t with loop := t'.loop, itemValue := t'.itemValue }
    ∧ (t'.loop.map fun l => { l with lastRowNum := 0 })
      = (t.loop.map fun l => { l with lastRowNum := 0 })
    ∧ ∀ id' name row', t'.valueAt id' name row' =
      if id' = id ∧ row' = row ∧ name ∈ names then none else t.valueAt id' name row'

theorem find?_congr_mem {α : Type} {p q : α → Bool} {l : List α} (h : ∀ a ∈ l, p a = q a) :
    l.find? p = l.find? q := by
  induction l with
  | nil => rfl
  | cons a l ih =>
    rw [List.find?_cons, List.find?_cons, h a (List.mem_cons_self ..),
      ih fun b hb => h b (List.mem_cons_of_mem _ hb)]

/-- Rows that are kept are found as before; of those that go none is found. -/
theorem valueAt_filter (t : Tables) (keep : ItemValueRow → Bool) (id : Nat) (name : UStr)
    (row : Nat) (kept : Bool)
    (hkeep : ∀ iv : ItemValueRow, iv.containerId = id → iv.name = name → iv.rowNum = row →
      keep iv = kept) :
    ({ t with itemValue := t.itemValue.filter keep } : Tables).valueAt id name row
      = if kept then t.valueAt id name row else none := by
  have hfind : (t.itemValue.filter keep).find? (fun iv => iv.containerId = id && iv.name = name
      && iv.rowNum = row) = t.itemValue.find? fun iv => kept
        && (iv.containerId = id && iv.name = name && iv.rowNum = row) := by
    rw [List.find?_filter]
    refine find?_congr_mem fun iv _ => ?_
    by_cases hkey : iv.containerId = id ∧ iv.name = name ∧ iv.rowNum = row
    · simp [hkeep iv hkey.1 hkey.2.1 hkey.2.2]
    · have hfalse : (decide (iv.containerId = id) && decide (iv.name = name)
          && decide (iv.rowNum = row))
          = false := by
        simp only [Bool.and_eq_false_iff, decide_eq_false_iff_not]
        tauto
      simp only [hfalse, Bool.and_false]
      simp
  unfold valueAt
  simp only [hfind]
  cases kept <;> simp

end Tables

namespace PacketIterator

open Tables (Updated Removed)

variable {names : List UStr} {r : Nat}

theorem valueAt_replace (t : Tables) (id row : Nat) (key : UStr) (value : Value) (id' : Nat)
    (name : UStr) (row' : Nat) :
    ({ t with itemValue := (t.itemValue.filter fun iv => !(iv.containerId = id && iv.name = key
        && iv.rowNum = row)) ++ [⟨id, key, row, value⟩] } : Tables).valueAt id' name row'
      = if id' = id ∧ row' = row ∧ key = name then some value else t.valueAt id' name row' := by
  by_cases hkey : id' = id ∧ row' = row ∧ key = name
  · obtain ⟨rfl, rfl, rfl⟩ := hkey
    have hnone : (t.itemValue.filter fun iv => !(iv.containerId = id' && iv.name = key
        && iv.rowNum = row')).find? (fun iv => iv.containerId = id' && iv.name = key
          && iv.rowNum = row')
        = none := by
      refine List.find?_eq_none.mpr fun iv hiv => ?_
      have hkept := (List.mem_filter.mp hiv).2
      simpa only [Bool.not_eq_true', Bool.not_eq_true] using hkept
    simp only [Tables.valueAt, List.find?_append, hnone, Option.none_or, and_self, if_true]
    simp
  · have hfilter :=
      t.valueAt_filter (fun iv => !(iv.containerId = id && iv.name = key && iv.rowNum = row))
      id' name row' true (by
      rintro iv rfl rfl rfl
      simp only [Bool.not_eq_true', Bool.and_eq_false_iff, decide_eq_false_iff_not]
      tauto)
    rw [if_neg hkey]
    simp only [Tables.valueAt, if_true] at hfilter ⊢
    rw [List.find?_append, ← hfilter]
    have hnone : [(⟨id, key, row, value⟩ : ItemValueRow)].find? (fun iv => iv.containerId = id'
        && iv.name = name && iv.rowNum = row') = none := by
      refine List.find?_eq_none.mpr fun iv hiv => ?_
      obtain rfl := List.mem_singleton.mp hiv
      simp only [Bool.and_eq_true, decide_eq_true_eq]
      rintro ⟨⟨rfl, rfl⟩, rfl⟩
      exact hkey ⟨rfl, rfl, rfl⟩
    rw [hnone, Option.or_none]

/-- An update by names that the iterator knows, with values that can be written, sets them all in
the row it stands at. -/
theorem updateValues_ok {props : ValueProps} (it : PacketIterator) {packet : Packet} {t : Tables}
    (hitems : ∀ name ∈ it.itemNames, ∃ li ∈ t.loopItem, li.containerId = it.loop.container.id
      ∧ li.name = name)
    (hpacket : ∀ item ∈ packet, item.1 ∈ it.itemNames ∧ item.2.2.Writable props) :
    ∃ t', it.updateValues props packet t = some (.ok t')
      ∧ Updated it.loop.container.id it.previousRowNum packet t t' := by
  induction packet generalizing t with
  | nil => exact ⟨t, rfl, rfl, by simp⟩
  | cons item packet ih =>
    obtain ⟨key, orig, value⟩ := item
    obtain ⟨hkey, hvalue⟩ := hpacket _ (List.mem_cons_self ..)
    obtain ⟨t', hok, htables, hvalues⟩ := ih (t := { t with
        itemValue :=
          (t.itemValue.filter fun iv => !(iv.containerId = it.loop.container.id && iv.name = key
          && iv.rowNum = it.previousRowNum)) ++ [⟨it.loop.container.id, key, it.previousRowNum,
          value⟩] })
      hitems fun i hi => hpacket i (List.mem_cons_of_mem _ hi)
    refine ⟨t', updateValues_cons_iff.mpr ⟨hkey, hvalue, hitems key hkey, hok⟩, htables, ?_⟩
    intro id' name row'
    rw [hvalues, valueAt_replace]
    by_cases hrow : id' = it.loop.container.id ∧ row' = it.previousRowNum
    · rw [if_pos hrow, if_pos hrow, List.reverse_cons, List.find?_append]
      by_cases hsame : key = name
      · cases packet.reverse.find? (·.1 = name) <;> simp [hrow, hsame]
      · cases packet.reverse.find? (·.1 = name) <;> simp [hsame]
    · rw [if_neg hrow, if_neg hrow, if_neg fun h => hrow ⟨h.1, h.2.1⟩]

/-- Only such an update succeeds. -/
theorem of_updateValues_ok {props : ValueProps} {it : PacketIterator} {packet : Packet}
    {t t' : Tables} (h : it.updateValues props packet t = some (.ok t')) :
    ∀ item ∈ packet, item.1 ∈ it.itemNames ∧ item.2.2.Writable props := by
  induction packet generalizing t with
  | nil => simp
  | cons item packet ih =>
    obtain ⟨key, orig, value⟩ := item
    obtain ⟨hkey, hvalue, -, hrest⟩ := updateValues_cons_iff.mp h
    intro item' hmem
    rcases List.mem_cons.mp hmem with rfl | hmem
    · exact ⟨hkey, hvalue⟩
    · exact ih hrest item' hmem

/-- The removal of a packet takes from its row the values of the loop's items. -/
theorem deletePacket_removed (loop : Loop) (row : Nat) (t : Tables) :
    Removed loop.container.id row (Cif.itemNames loop t) t (deletePacket loop row t) := by
  refine ⟨rfl, rfl, ?_⟩
  intro id' name row'
  have hany : (Cif.loopItems loop t).any (·.name = name) = true ↔ name ∈ Cif.itemNames loop t := by
    simp [Cif.itemNames]
  by_cases hgone : id' = loop.container.id ∧ row' = row ∧ name ∈ Cif.itemNames loop t
  · rw [if_pos hgone]
    obtain ⟨rfl, rfl, hname⟩ := hgone
    have hfilter := t.valueAt_filter (fun iv => !(iv.containerId = loop.container.id &&
      iv.rowNum = row' && (Cif.loopItems loop t).any (·.name = iv.name))) loop.container.id name
        row' false (by
        rintro iv hid rfl rfl
        simp [hid, hany.mpr hname])
    exact hfilter.trans (if_neg Bool.false_ne_true)
  · rw [if_neg hgone]
    have hfilter := t.valueAt_filter (fun iv => !(iv.containerId = loop.container.id &&
      iv.rowNum = row && (Cif.loopItems loop t).any (·.name = iv.name))) id' name row' true (by
        rintro iv rfl rfl rfl
        by_cases hname : (Cif.loopItems loop t).any (·.name = iv.name) = true
        · have hkept : ¬ (iv.containerId = loop.container.id ∧ iv.rowNum = row) :=
            fun h => hgone ⟨h.1, h.2, hany.mp hname⟩
          simp only [hname, Bool.and_true, Bool.not_eq_true', Bool.and_eq_false_iff,
            decide_eq_false_iff_not]
          tauto
        · simp only [Bool.eq_false_of_not_eq_true hname, Bool.and_false, Bool.not_false])
    exact hfilter.trans (if_pos rfl)

theorem removed_resetPacketNumber {loop : Loop} {id row : Nat} {t t' : Tables}
    (h : Removed id row names t t') : Removed id row names t (resetPacketNumber loop t') := by
  obtain ⟨htables, hloops, hvalues⟩ := h
  refine ⟨?_, ?_, hvalues⟩
  · rw [htables]
    rfl
  · rw [← hloops, resetPacketNumber, List.map_map]
    refine List.map_congr_left fun l _ => ?_
    simp only [Function.comp_apply]
    split <;> rfl

end PacketIterator

/-- A call on an iterator, other than those that end it. -/
inductive IterCall where
  | next
  | update (packet : Packet)
  | remove

/-- An iterator and the store that it iterates over. -/
structure Iteration where
  iterator : PacketIterator
  cif : Cif

namespace Iteration

section

variable (props : ValueProps)

/-- One call; `none` is one that does not return. -/
def step (s : Iteration) : IterCall → Option (Except Int (Option Packet) × Iteration)
  | .next =>
    let (r, it) := s.iterator.nextPacket s.cif
    some (r.map some, { s with iterator := it })
  | .update packet => (s.iterator.updatePacket props packet s.cif).map fun (r, cif) =>
    (r.map fun _ => none, { s with cif })
  | .remove =>
    let (r, it, cif) := s.iterator.removePacket s.cif
    some (r.map fun _ => none, ⟨it, cif⟩)

/-- Calls that all return, with their answers and the tables after each. -/
def trace (s : Iteration) : List IterCall →
    Option (List (IterCall × Except Int (Option Packet) × Tables))
  | [] => some []
  | call :: calls =>
    match s.step props call with
    | none => none
    | some (answer, s) => (s.trace calls).map ((call, answer, s.cif.tables) :: ·)

end

/-- The states of an iterator, as its documentation has them. -/
inductive Phase where
  | new
  | iterated (row : Nat)
  | removed
  | finished

/-- Where an iteration is: its state, the packets it has still to yield, and the tables. -/
structure Stage where
  phase : Phase
  rest : List (Nat × Packet)
  tables : Tables

/-- The protocol of an iterator over a loop of the container that has items of these names. -/
inductive Follows (props : ValueProps) (id : Nat) (names : List UStr) :
    Stage → IterCall → Except Int (Option Packet) → Stage → Prop where
  | next {phase row packet rest t} :
    Follows props id names ⟨phase, (row, packet) :: rest, t⟩ .next (.ok (some packet))
      ⟨.iterated row, rest, t⟩
  | finish {phase t} :
    Follows props id names ⟨phase, [], t⟩ .next (.error Code.finished) ⟨.finished, [], t⟩
  | update {row rest t packet t'} (hkeys : ∀ item ∈ packet, item.1 ∈ names)
    (htables : t.Updated id row packet t') :
    Follows props id names ⟨.iterated row, rest, t⟩ (.update packet) (.ok none)
      ⟨.iterated row, rest, t'⟩
  | stray {row rest t packet item e} (hmem : item ∈ packet) (hkey : item.1 ∉ names) :
    Follows props id names ⟨.iterated row, rest, t⟩ (.update packet) (.error e)
      ⟨.iterated row, rest, t⟩
  | unwritable {row rest t packet item e} (hmem : item ∈ packet)
    (hvalue : ¬ item.2.2.Writable props) :
    Follows props id names ⟨.iterated row, rest, t⟩ (.update packet) (.error e)
      ⟨.iterated row, rest, t⟩
  | remove {row rest t t'} (htables : t.Removed id row names t') :
    Follows props id names ⟨.iterated row, rest, t⟩ .remove (.ok none) ⟨.removed, rest, t'⟩
  | refuseUpdate {phase rest t packet e} (hphase : ∀ row, phase ≠ .iterated row) :
    Follows props id names ⟨phase, rest, t⟩ (.update packet) (.error e) ⟨phase, rest, t⟩
  | refuseRemove {phase rest t e} (hphase : ∀ row, phase ≠ .iterated row) :
    Follows props id names ⟨phase, rest, t⟩ .remove (.error e) ⟨phase, rest, t⟩

/-- The answers and the tables are those that the protocol allows. -/
def Conforms (props : ValueProps) (id : Nat) (names : List UStr) :
    Stage → List (IterCall × Except Int (Option Packet) × Tables) → Prop
  | _, [] => True
  | stage, (call, answer, t) :: rest =>
    ∃ stage', Follows props id names stage call answer stage' ∧ stage'.tables = t ∧
      Conforms props id names stage' rest

/-- The calls do not change the last packet once the end is reached; `left` packets are still to
come, the last one yielded is there still (`stands`), and the end has been reached (`ended`). -/
def Heeds (props : ValueProps) (names : List UStr) : (left : Nat) → (stands ended : Bool) →
    List IterCall → Prop
  | _, _, _, [] => True
  | 0, stands, _, .next :: calls => Heeds props names 0 stands true calls
  | left + 1, _, _, .next :: calls => Heeds props names left true false calls
  | left, stands, ended, .update packet :: calls =>
    ¬ (stands ∧ ended ∧ ∀ item ∈ packet, item.1 ∈ names ∧ item.2.2.Writable props)
      ∧ Heeds props names left stands ended calls
  | left, stands, ended, .remove :: calls =>
    ¬ (stands ∧ ended) ∧ Heeds props names left false ended calls

def Phase.ended : Phase → Bool
  | .finished => true
  | _ => false

/-- The iterator is where the protocol has it. -/
structure Matches (names : List UStr) (s : Iteration) (stage : Stage) : Prop where
  isOpen : s.cif.autocommit = false
  itemNames : s.iterator.itemNames = names
  nodup : names.Nodup
  items : Cif.itemNames s.iterator.loop s.cif.tables = names
  rows : PacketIterator.Ordered names s.iterator.rows
  finished : s.iterator.finished = s.iterator.rows.isEmpty
  tables : stage.tables = s.cif.tables
  rest : stage.rest = packetsOf names s.iterator.rows
  /-- The number of the last packet is kept on past the end. -/
  phase : match stage.phase with
    | .new | .removed => s.iterator.previousRowNum = 0
    | .iterated row => s.iterator.previousRowNum = row ∧ row ≠ 0
    | .finished => s.iterator.rows = []

section Steps

variable {props : ValueProps} {names : List UStr} {s : Iteration} {stage : Stage}

theorem trace_cons {call : IterCall} {calls : List IterCall}
    {trace : List (IterCall × Except Int (Option Packet) × Tables)} :
    s.trace props (call :: calls) = some trace ↔ ∃ answer s' rest,
      s.step props call = some (answer, s')
      ∧ s'.trace props calls = some rest ∧ trace = (call, answer, s'.cif.tables) :: rest := by
  rw [Iteration.trace]
  rcases s.step props call with _ | ⟨answer, s'⟩
  · simp
  · simp [eq_comm]

theorem packetsOf_eq_nil {rows : List ItemValueRow} : packetsOf names rows = [] ↔ rows = [] := by
  constructor
  · intro h
    cases rows with
    | nil => rfl
    | cons row rows => simp [packetsOf, List.eraseDups_cons] at h
  · rintro rfl
    rfl

theorem Matches.nextPacket_finished (h : Matches names s stage) (hrest : stage.rest = []) :
    s.iterator.nextPacket s.cif = (.error Code.finished, s.iterator)
      ∧ Matches names s { stage with phase := .finished } := by
  have hrows : s.iterator.rows = [] := packetsOf_eq_nil.mp (h.rest ▸ hrest)
  have hfinished : s.iterator.finished = true := by rw [h.finished, hrows]; rfl
  refine ⟨?_, { h with phase := hrows }⟩
  rw [PacketIterator.nextPacket, hfinished]
  rfl

theorem Matches.nextPacket_ok (h : Matches names s stage) {row : Nat} {packet : Packet}
    {rest : List (Nat × Packet)} (hrest : stage.rest = (row, packet) :: rest) :
    ∃ it, s.iterator.nextPacket s.cif = (.ok packet, it) ∧ it.previousRowNum = row ∧ row ≠ 0
      ∧ Matches names ⟨it, s.cif⟩ ⟨.iterated row, rest, stage.tables⟩ := by
  have hne : s.iterator.rows ≠ [] := by
    intro hnil
    simp [h.rest, hnil, packetsOf_nil] at hrest
  have hfinished : s.iterator.finished = false := by
    rw [h.finished]
    simpa using hne
  have hordered : PacketIterator.Ordered s.iterator.itemNames s.iterator.rows :=
    h.itemNames ▸ h.rows
  obtain ⟨r, p, rows, hpos, hpackets, hsub, hstep⟩ := PacketIterator.nextPacket_ok hordered
    (h.itemNames ▸ h.nodup) hne hfinished h.isOpen
  rw [h.itemNames, ← h.rest, hrest] at hpackets
  obtain ⟨hfirst, hrest'⟩ := List.cons.inj hpackets
  obtain ⟨rfl, rfl⟩ := Prod.mk.inj hfirst
  refine ⟨_, hstep, rfl, by omega, ?_⟩
  exact
    { isOpen := h.isOpen
      itemNames := h.itemNames
      nodup := h.nodup
      items := h.items
      rows := h.rows.sublist hsub
      finished := rfl
      tables := h.tables
      rest := hrest'
      phase := ⟨rfl, by omega⟩ }

/-- Without a packet to stand at, changes are refused. -/
theorem Matches.refused (h : Matches names s stage) (hnone : s.iterator.previousRowNum = 0)
    (packet : Packet) : s.step props (.update packet) = some (.error Code.misuse, s)
      ∧ s.step props .remove = some (.error Code.misuse, s) := by
  simp [step, PacketIterator.updatePacket, PacketIterator.removePacket, h.isOpen, hnone, Except.map]

theorem Matches.items_mem (h : Matches names s stage) : ∀ name ∈ s.iterator.itemNames,
    ∃ li ∈ s.cif.tables.loopItem, li.containerId = s.iterator.loop.container.id
      ∧ li.name = name := by
  intro name hname
  rw [h.itemNames, ← h.items] at hname
  obtain ⟨li, hli, rfl⟩ := List.mem_map.mp hname
  obtain ⟨hmem, hkey⟩ := List.mem_filter.mp hli
  simp only [Bool.and_eq_true, decide_eq_true_eq] at hkey
  exact ⟨li, hmem, hkey.1, rfl⟩

theorem Matches.update_ok (h : Matches names s stage) (hrow : s.iterator.previousRowNum ≠ 0)
    {packet : Packet} (hpacket : ∀ item ∈ packet, item.1 ∈ names ∧ item.2.2.Writable props) :
    ∃ t', s.step props (.update packet)
      = some (.ok none, { s with cif := { s.cif with tables := t' } })
      ∧ s.cif.tables.Updated s.iterator.loop.container.id s.iterator.previousRowNum packet t' := by
  obtain ⟨t', hok, hupdated⟩ := s.iterator.updateValues_ok h.items_mem (h.itemNames ▸ hpacket)
  refine ⟨t', ?_, hupdated⟩
  have hok' : s.iterator.updateValues props packet s.cif.beginNesttx.tables = some (.ok t') := hok
  have hcommit : ({ s.cif.beginNesttx with tables := t' } : Cif).commitNesttx false
      = { s.cif with tables := t' } := h.isOpen ▸ Cif.commitNesttx_beginNesttx t'
  simp [step, PacketIterator.updatePacket, h.isOpen, hrow, hok', hcommit, Except.map]

theorem Matches.update_error (h : Matches names s stage) (hrow : s.iterator.previousRowNum ≠ 0)
    {packet : Packet} (hpacket : ¬ ∀ item ∈ packet, item.1 ∈ names ∧ item.2.2.Writable props)
    {answer : Except Int (Option Packet)} {s' : Iteration}
    (hstep : s.step props (.update packet) = some (answer, s')) :
    ∃ e, answer = .error e ∧ s' = { s with cif := s.cif.beginNesttx } := by
  have hrollback : s.cif.beginNesttx.rollbackNesttx false = s.cif.beginNesttx := rfl
  rcases hupdate : s.iterator.updateValues props packet s.cif.beginNesttx.tables with _ | ⟨e | t'⟩
  · simp [step, PacketIterator.updatePacket, h.isOpen, hrow, hupdate] at hstep
  · refine ⟨e, ?_⟩
    have heq : (.error e, { s with cif := s.cif.beginNesttx }) = (answer, s') := by
      simpa [step, PacketIterator.updatePacket, h.isOpen, hrow, hupdate, hrollback,
        Except.map] using hstep
    obtain ⟨rfl, rfl⟩ := Prod.mk.inj heq
    exact ⟨rfl, rfl⟩
  · exact absurd (h.itemNames ▸ PacketIterator.of_updateValues_ok hupdate) hpacket

theorem Matches.remove_ok (h : Matches names s stage) (hrow : s.iterator.previousRowNum ≠ 0) :
    ∃ t', s.step props .remove
        = some (.ok none, ⟨{ s.iterator with previousRowNum := 0 }, { s.cif with tables := t' }⟩)
      ∧ s.cif.tables.Removed s.iterator.loop.container.id s.iterator.previousRowNum names t' := by
  have hremoved :=
    PacketIterator.deletePacket_removed s.iterator.loop s.iterator.previousRowNum s.cif.tables
  rw [h.items] at hremoved
  have hcommit (t : Tables) : ({ s.cif.beginNesttx with tables := t } : Cif).commitNesttx false
      = { s.cif with tables := t } := h.isOpen ▸ Cif.commitNesttx_beginNesttx t
  refine ⟨if s.iterator.loop.category = some [] then
    PacketIterator.resetPacketNumber s.iterator.loop
        (PacketIterator.deletePacket s.iterator.loop s.iterator.previousRowNum s.cif.tables)
      else PacketIterator.deletePacket s.iterator.loop s.iterator.previousRowNum s.cif.tables, ?_,
      ?_⟩
  · simp only [step, PacketIterator.removePacket, h.isOpen, Bool.false_eq_true, if_false,
      if_neg hrow, hcommit]
    rfl
  · split
    · exact PacketIterator.removed_resetPacketNumber hremoved
    · exact hremoved

theorem Matches.after_update (h : Matches names s stage) {t' : Tables} {id row : Nat}
    {packet : Packet} (hupdated : s.cif.tables.Updated id row packet t') :
    Matches names { s with cif := { s.cif with tables := t' } } { stage with tables := t' } := by
  have hitems : t'.loopItem = s.cif.tables.loopItem := by rw [hupdated.1]
  refine { h with items := ?_, tables := rfl }
  rw [← h.items, Cif.itemNames, Cif.itemNames, Cif.loopItems, Cif.loopItems, hitems]

theorem Matches.after_rollback (h : Matches names s stage) :
    Matches names { s with cif := s.cif.beginNesttx } stage :=
  { h with isOpen := rfl }

theorem Matches.after_remove (h : Matches names s stage) {t' : Tables} {id row : Nat}
    (hremoved : s.cif.tables.Removed id row names t') :
    Matches names ⟨{ s.iterator with previousRowNum := 0 }, { s.cif with tables := t' }⟩
      ⟨.removed, stage.rest, t'⟩ := by
  have hitems : t'.loopItem = s.cif.tables.loopItem := by rw [hremoved.1]
  refine { h with items := ?_, tables := rfl, phase := rfl }
  rw [← h.items, Cif.itemNames, Cif.itemNames, Cif.loopItems, Cif.loopItems, hitems]

/-- The iterator stands at a packet in the state that the documentation names so, and past the
end. -/
theorem Matches.phase_of_stands (h : Matches names s stage) (hrow : s.iterator.previousRowNum ≠ 0) :
    stage.phase = .iterated s.iterator.previousRowNum ∨ stage.phase = .finished := by
  have hphase := h.phase
  cases hstage : stage.phase with
  | new => simp_all
  | iterated row => simp_all
  | removed => simp_all
  | finished => exact .inr rfl

theorem Matches.phase_of_not_stands (h : Matches names s stage)
    (hrow : s.iterator.previousRowNum = 0) :
    ∀ row, stage.phase ≠ .iterated row := by
  intro row heq
  have hphase := h.phase
  simp only [heq] at hphase
  exact hphase.2 (hphase.1 ▸ hrow)

theorem heeds_update {left : Nat} {stands ended : Bool} {packet : Packet} {calls : List IterCall} :
    Heeds props names left stands ended (.update packet :: calls) ↔
      ¬ (stands ∧ ended ∧ ∀ item ∈ packet, item.1 ∈ names ∧ item.2.2.Writable props)
        ∧ Heeds props names left stands ended calls := by
  cases left <;> rfl

theorem heeds_remove {left : Nat} {stands ended : Bool} {calls : List IterCall} :
    Heeds props names left stands ended (.remove :: calls) ↔
      ¬ (stands ∧ ended) ∧ Heeds props names left false ended calls := by
  cases left <;> rfl

end Steps

/-- The iterator keeps to its protocol over exactly the calls that do not change the last packet
past the end. -/
theorem Matches.conforms_iff {props : ValueProps} {names : List UStr} {s : Iteration}
    {stage : Stage} (h : Matches names s stage) {calls : List IterCall}
    {trace : List (IterCall × Except Int (Option Packet) × Tables)}
    (htrace : s.trace props calls = some trace) :
    Conforms props s.iterator.loop.container.id names stage trace ↔
      Heeds props names stage.rest.length (decide (s.iterator.previousRowNum ≠ 0)) stage.phase.ended
        calls := by
  induction calls generalizing s stage trace with
  | nil =>
    cases htrace
    cases stage.rest <;> simp [Conforms, Heeds]
  | cons call calls ih =>
    obtain ⟨phase, rest, t⟩ := stage
    obtain rfl : t = s.cif.tables := h.tables
    obtain ⟨answer, s', tail, hcall, htail, rfl⟩ := trace_cons.mp htrace
    cases call with
    | next =>
      cases rest with
      | nil =>
        obtain ⟨hnext, hmatches⟩ := h.nextPacket_finished rfl
        have hstep : s.step props .next = some (.error Code.finished, s) := by
          rw [step, hnext]
          rfl
        obtain ⟨rfl, rfl⟩ := Prod.mk.inj (Option.some.inj (hcall.symm.trans hstep))
        have hrec := ih hmatches htail
        constructor
        · rintro ⟨stage', hfollows, -, hconforms⟩
          cases hfollows
          exact hrec.mp hconforms
        · intro hheeds
          exact ⟨_, .finish, rfl, hrec.mpr hheeds⟩
      | cons first rest =>
        obtain ⟨row, packet⟩ := first
        obtain ⟨it, hnext, hrow, hne, hmatches⟩ := h.nextPacket_ok rfl
        have hstep : s.step props .next = some (.ok (some packet), { s with iterator := it }) := by
          rw [step, hnext]
          rfl
        obtain ⟨rfl, rfl⟩ := Prod.mk.inj (Option.some.inj (hcall.symm.trans hstep))
        have hloop : it.loop = s.iterator.loop := by
          have hkept := PacketIterator.nextPacket_loop s.iterator s.cif
          rwa [hnext] at hkept
        have hrec := ih hmatches htail
        rw [hloop, hrow, decide_eq_true hne] at hrec
        constructor
        · rintro ⟨stage', hfollows, -, hconforms⟩
          cases hfollows
          exact hrec.mp hconforms
        · intro hheeds
          exact ⟨_, .next, rfl, hrec.mpr hheeds⟩
    | update packet =>
      rw [heeds_update]
      by_cases hrow : s.iterator.previousRowNum = 0
      · have hphase := h.phase_of_not_stands hrow
        have hstep := (@Matches.refused props _ _ _ h hrow packet).1
        obtain ⟨rfl, rfl⟩ := Prod.mk.inj (Option.some.inj (hcall.symm.trans hstep))
        have hrec := ih h htail
        constructor
        · rintro ⟨stage', hfollows, -, hconforms⟩
          refine ⟨by simp [hrow], hrec.mp ?_⟩
          cases hfollows with
          | stray => exact absurd rfl (hphase _)
          | unwritable => exact absurd rfl (hphase _)
          | refuseUpdate => exact hconforms
        · rintro ⟨-, hheeds⟩
          exact ⟨_, .refuseUpdate hphase, rfl, hrec.mpr hheeds⟩
      · by_cases hpacket : ∀ item ∈ packet, item.1 ∈ names ∧ item.2.2.Writable props
        · obtain ⟨t', hstep, hupdated⟩ := h.update_ok hrow hpacket
          obtain ⟨rfl, rfl⟩ := Prod.mk.inj (Option.some.inj (hcall.symm.trans hstep))
          have hrec := ih (h.after_update hupdated) htail
          rcases h.phase_of_stands hrow with hphase | hphase
          · obtain rfl : phase = _ := hphase
            constructor
            · rintro ⟨stage', hfollows, htables, hconforms⟩
              refine ⟨by simp [Phase.ended], hrec.mp ?_⟩
              cases hfollows
              obtain rfl : _ = t' := htables
              exact hconforms
            · rintro ⟨-, hheeds⟩
              exact ⟨_, .update (fun item hitem => (hpacket item hitem).1) hupdated, rfl,
                hrec.mpr hheeds⟩
          · -- past the end the update is carried out, where the protocol has it refused
            obtain rfl : phase = _ := hphase
            constructor
            · rintro ⟨stage', hfollows, -⟩
              cases hfollows
            · rintro ⟨hheeds, -⟩
              exact absurd ⟨by simpa using hrow, rfl, hpacket⟩ hheeds
        · obtain ⟨e, rfl, rfl⟩ := h.update_error hrow hpacket hcall
          have hrec := ih h.after_rollback htail
          constructor
          · rintro ⟨stage', hfollows, -, hconforms⟩
            refine ⟨fun hheeds => hpacket hheeds.2.2, hrec.mp ?_⟩
            cases hfollows with
            | stray => exact hconforms
            | unwritable => exact hconforms
            | refuseUpdate => exact hconforms
          · rintro ⟨-, hheeds⟩
            have hconforms := hrec.mpr hheeds
            rcases h.phase_of_stands hrow with hphase | hphase
            · obtain rfl : phase = _ := hphase
              by_cases hkeys : ∀ item ∈ packet, item.1 ∈ names
              · obtain ⟨item, hmem, hvalue⟩ : ∃ item ∈ packet, ¬ item.2.2.Writable props := by
                  by_contra hall
                  push Not at hall
                  exact hpacket fun item hitem => ⟨hkeys item hitem, hall item hitem⟩
                exact ⟨_, .unwritable hmem hvalue, rfl, hconforms⟩
              · obtain ⟨item, hmem, hkey⟩ : ∃ item ∈ packet, item.1 ∉ names := by simpa using hkeys
                exact ⟨_, .stray hmem hkey, rfl, hconforms⟩
            · obtain rfl : phase = _ := hphase
              exact ⟨_, .refuseUpdate (by simp), rfl, hconforms⟩
    | remove =>
      rw [heeds_remove]
      by_cases hrow : s.iterator.previousRowNum = 0
      · have hphase := h.phase_of_not_stands hrow
        obtain ⟨rfl, rfl⟩ := Prod.mk.inj (Option.some.inj (hcall.symm.trans (h.refused hrow []).2))
        have hrec := ih h htail
        rw [show decide (s'.iterator.previousRowNum ≠ 0) = false by simp [hrow]] at hrec ⊢
        constructor
        · rintro ⟨stage', hfollows, -, hconforms⟩
          refine ⟨by simp, hrec.mp ?_⟩
          cases hfollows with
          | refuseRemove => exact hconforms
        · rintro ⟨-, hheeds⟩
          exact ⟨_, .refuseRemove hphase, rfl, hrec.mpr hheeds⟩
      · obtain ⟨t', hstep, hremoved⟩ := h.remove_ok hrow
        obtain ⟨rfl, rfl⟩ := Prod.mk.inj (Option.some.inj (hcall.symm.trans hstep))
        have hrec := ih (h.after_remove hremoved) htail
        rcases h.phase_of_stands hrow with hphase | hphase
        · obtain rfl : phase = _ := hphase
          constructor
          · rintro ⟨stage', hfollows, htables, hconforms⟩
            refine ⟨by simp [Phase.ended], hrec.mp ?_⟩
            cases hfollows
            obtain rfl : _ = t' := htables
            exact hconforms
          · rintro ⟨-, hheeds⟩
            exact ⟨_, .remove hremoved, rfl, hrec.mpr hheeds⟩
        · obtain rfl : phase = _ := hphase
          constructor
          · rintro ⟨stage', hfollows, -⟩
            cases hfollows
          · rintro ⟨hheeds, -⟩
            exact absurd ⟨by simpa using hrow, rfl⟩ hheeds

end Iteration

section Start

variable {icu : Icu} {bounded : Prop} {t : Tables}

instance : Std.Total fun iv iv' : ItemValueRow => iv.rowNum ≤ iv'.rowNum :=
  ⟨fun iv iv' => Nat.le_total iv.rowNum iv'.rowNum⟩

instance : IsTrans ItemValueRow fun iv iv' => iv.rowNum ≤ iv'.rowNum :=
  ⟨fun _ _ _ => Nat.le_trans⟩

theorem Tables.WellFormed.nodup_itemNames (h : t.WellFormed icu bounded) (loop : Loop) :
    (Cif.itemNames loop t).Nodup := by
  refine List.Nodup.of_map (fun name => (loop.container.id, name)) ?_
  have hkeyed : Keyed Tables.itemKey (Cif.loopItems loop t) := h.items.filter _
  have heq : (Cif.itemNames loop t).map (fun name => (loop.container.id, name))
      = (Cif.loopItems loop t).map Tables.itemKey := by
    rw [Cif.itemNames, List.map_map]
    refine List.map_congr_left fun li hli => ?_
    have hkey := (List.mem_filter.mp hli).2
    simp only [Bool.and_eq_true, decide_eq_true_eq] at hkey
    simp [Tables.itemKey, hkey.1]
  rw [heq]
  exact hkeyed

/-- The rows that an iteration starts with. -/
theorem Tables.WellFormed.ordered (h : t.WellFormed icu bounded) (loop : Loop) :
    PacketIterator.Ordered (Cif.itemNames loop t) (Cif.loopValues loop t) where
  sorted := List.pairwise_insertionSort _ _
  named := by
    intro iv hiv
    obtain ⟨_, _, li, hli, hkey, hnum⟩ := Tables.mem_loopValues.mp hiv
    obtain ⟨hcid, hname⟩ := Prod.mk.inj hkey
    exact List.mem_map.mpr ⟨li, List.mem_filter.mpr ⟨hli, by simp [hcid, hnum]⟩, hname⟩
  positive := by
    intro iv hiv
    obtain ⟨_, _, _, _, _, _, hpos, _⟩ := h.placed iv (Tables.mem_loopValues.mp hiv).1
    exact hpos
  distinct := by
    have hperm : (Cif.loopValues loop t).Perm _ := List.perm_insertionSort _ _
    have hkeyed : Keyed Tables.valueKey (Cif.loopValues loop t) :=
      ((hperm.map Tables.valueKey).nodup_iff).mpr (h.values.filter _)
    refine List.Nodup.of_map (fun key : UStr × Nat => (loop.container.id, key.1, key.2)) ?_
    have heq : ((Cif.loopValues loop t).map fun row => (row.name, row.rowNum)).map
        (fun key : UStr × Nat => (loop.container.id, key.1, key.2))
        = (Cif.loopValues loop t).map Tables.valueKey := by
      rw [List.map_map]
      refine List.map_congr_left fun iv hiv => ?_
      simp [Tables.valueKey, (Tables.mem_loopValues.mp hiv).2.1]
    rw [heq]
    exact hkeyed

/-- The names that an iterator keeps are those that the items are stored under. -/
theorem Tables.WellFormed.getNames_eq {cif : Cif} (h : cif.tables.WellFormed icu bounded)
    {loop : Loop} {names : List UStr} (hget : (cif.getNamesInternal icu loop true).1 = .ok names) :
    names = Cif.itemNames loop cif.tables := by
  have htables : cif.beginNesttx.tables = cif.tables := rfl
  simp only [Cif.getNamesInternal, htables, if_true] at hget
  split at hget
  · simp at hget
  · have hall := forall₂_of_mapM_eq_ok hget
    rw [List.forall₂_map_left_iff] at hall
    have hnamed : ∀ li ∈ Cif.loopItems loop cif.tables, icu.normalize li.nameOrig = li.name :=
      fun li hli => (h.named li (List.mem_filter.mp hli).1).2
    unfold Cif.itemNames
    generalize Cif.loopItems loop cif.tables = items at hall hnamed
    clear hget
    induction hall with
    | nil => rfl
    | cons hname _ ih =>
      rw [List.map_cons, ← hnamed _ (List.mem_cons_self ..), ← (Cif.normalizeItemName_ok hname).2,
        ih fun li hli => hnamed li (List.mem_cons_of_mem _ hli)]

/-- An iterator that is given out is before the loop's first packet. -/
theorem Tables.WellFormed.matches {cif cif' : Cif} (h : cif.tables.WellFormed icu bounded)
    {loop : Loop} {it : PacketIterator} (hget : cif.getPackets icu loop = (.ok it, cif')) :
    it.loop = loop ∧ Iteration.Matches (Cif.itemNames loop cif.tables) ⟨it, cif'⟩
      ⟨.new, Cif.packets loop cif.tables, cif.tables⟩ ∧ it.previousRowNum = 0 := by
  obtain ⟨_, rfl, hloop, hnames, hrows, hne, hfinished, hrow⟩ := PacketIterator.getPackets_ok hget
  refine ⟨hloop, ?_, hrow⟩
  exact
    { isOpen := rfl
      itemNames := h.getNames_eq hnames
      nodup := h.nodup_itemNames loop
      items := by rw [hloop]
      rows := hrows ▸ h.ordered loop
      finished := by
        rw [hfinished]
        simpa using hne
      tables := rfl
      rest := by rw [hrows]; rfl
      phase := hrow }

end Start

namespace Iteration

/-- The calls on an iterator, and those of a session that has it open. -/
theorem step_session (icu : Icu) (platform : Platform) (s : Iteration) (call : IterCall) :
    Session.step icu platform ⟨s.cif, some s.iterator⟩ (match call with
      | .next => .nextPacket
      | .update packet => .updatePacket packet
      | .remove => .removePacket)
      = (s.step (Value.setValueProps platform) call).map fun r =>
        (Session.result r.1, ⟨r.2.cif, some r.2.iterator⟩) := by
  cases call with
  | next =>
    simp only [Session.step, Session.onIterator, step, Option.map_some]
    cases (s.iterator.nextPacket s.cif).1 <;> rfl
  | update packet =>
    simp only [Session.step, Session.onIterator, Session.onCif, step]
    rcases s.iterator.updatePacket (Value.setValueProps platform) packet s.cif with _ | ⟨_ | _, _⟩
      <;> rfl
  | remove =>
    simp only [Session.step, Session.onIterator, step, Option.map_some]
    cases (s.iterator.removePacket s.cif).1 <;> rfl

/-- On an iterator over any loop, the protocol is kept to by exactly the runs of calls that leave
the last packet alone once the end has been reached. -/
theorem conforms_iff_heeds {icu : Icu} {platform : Platform} {s : Session}
    (hreach : Session.Reachable icu platform s) {loop : Loop} {it : PacketIterator} {cif : Cif}
    (hget : s.cif.getPackets icu loop = (.ok it, cif)) {calls : List IterCall}
    {trace : List (IterCall × Except Int (Option Packet) × Tables)}
    (htrace : Iteration.trace (Value.setValueProps platform) ⟨it, cif⟩ calls = some trace) :
    Conforms (Value.setValueProps platform) loop.container.id (Cif.itemNames loop s.cif.tables)
        ⟨.new, Cif.packets loop s.cif.tables, s.cif.tables⟩ trace ↔
      Heeds (Value.setValueProps platform) (Cif.itemNames loop s.cif.tables)
        (Cif.packets loop s.cif.tables).length false false calls := by
  obtain ⟨hloop, hmatches, hrow⟩ := hreach.wellFormed.tables.matches hget
  have hiff := hmatches.conforms_iff htrace
  rw [hloop, hrow] at hiff
  exact hiff

/-- A loop of two packets. -/
def twoPackets : Session :=
  let block : Container := ⟨1, units "a", units "a", none⟩
  let loop : Loop := ⟨block, 0, none⟩
  ({} : Session).after Icu.ascii Platform.exact [.createBlock (units "a") false,
    .createLoop block none [units "_x", units "_y"],
    .addPacket loop [(units "_x", units "_x", .na)],
    .addPacket loop [(units "_y", units "_y", .na)]]

def twoPacketsLoop : Loop := ⟨⟨1, units "a", units "a", none⟩, 0, none⟩

/-- What its values come to in a row. -/
def exactProps : ValueProps := Value.setValueProps Platform.exact

theorem exists_trace (calls : List IterCall)
    (h : (match twoPackets.cif.getPackets Icu.ascii twoPacketsLoop with
      | (.ok it, cif) => (trace exactProps ⟨it, cif⟩ calls).isSome
      | (.error _, _) => false) = true) :
    ∃ it cif trace, twoPackets.cif.getPackets Icu.ascii twoPacketsLoop = (.ok it, cif)
      ∧ Iteration.trace exactProps ⟨it, cif⟩ calls = some trace := by
  cases hget : twoPackets.cif.getPackets Icu.ascii twoPacketsLoop with
  | mk r cif =>
    rw [hget] at h
    cases r with
    | error e => cases h
    | ok it =>
      obtain ⟨trace, htrace⟩ := Option.isSome_iff_exists.mp h
      exact ⟨it, cif, trace, rfl, htrace⟩

theorem reachable_twoPackets : Session.Reachable Icu.ascii Platform.exact twoPackets :=
  .after (by decide +kernel)

theorem length_twoPackets :
    (Cif.packets twoPacketsLoop twoPackets.cif.tables).length = 0 + 1 + 1 := by
  decide +kernel

/-- The second packet is changed and removed, and nothing is after the end. -/
theorem conforms_twoPackets : ∃ it cif trace,
    twoPackets.cif.getPackets Icu.ascii twoPacketsLoop = (.ok it, cif) ∧
      Iteration.trace exactProps ⟨it, cif⟩
        [.next, .next, .update [(units "_x", units "_x", .unk)], .remove, .next, .remove]
          = some trace ∧
      Conforms exactProps 1 (Cif.itemNames twoPacketsLoop twoPackets.cif.tables)
        ⟨.new, Cif.packets twoPacketsLoop twoPackets.cif.tables, twoPackets.cif.tables⟩ trace := by
  obtain ⟨it, cif, trace, hget, htrace⟩ := exists_trace
    [.next, .next, .update [(units "_x", units "_x", .unk)], .remove, .next,
      .remove] (by decide +kernel)
  refine ⟨it, cif, trace, hget, htrace,
    (conforms_iff_heeds reachable_twoPackets hget htrace).mpr ?_⟩
  rw [length_twoPackets]
  simp only [Heeds]
  simp

/-- Past the end the last packet can still be removed. -/
theorem not_conforms_remove_finished : ∃ it cif trace,
    twoPackets.cif.getPackets Icu.ascii twoPacketsLoop = (.ok it, cif) ∧
      Iteration.trace exactProps ⟨it, cif⟩ [.next, .next, .next, .remove] = some trace ∧
      ¬ Conforms exactProps 1 (Cif.itemNames twoPacketsLoop twoPackets.cif.tables)
        ⟨.new, Cif.packets twoPacketsLoop twoPackets.cif.tables, twoPackets.cif.tables⟩ trace := by
  obtain ⟨it, cif, trace, hget, htrace⟩ :=
    exists_trace [.next, .next, .next, .remove] (by decide +kernel)
  refine ⟨it, cif, trace, hget, htrace, ?_⟩
  obtain ⟨hloop, hmatches, hrow⟩ := reachable_twoPackets.wellFormed.tables.matches hget
  have hiff := hmatches.conforms_iff htrace
  rw [hloop] at hiff
  intro hconforms
  have hheeds := hiff.mp hconforms
  rw [length_twoPackets] at hheeds
  simp only [Heeds] at hheeds
  simp at hheeds

end Iteration

end CifApi
