import CifApi.Store.ScalarValue

/-! A loop just created, and the packets added to it one after another. -/
namespace CifApi

namespace Cif

variable {icu : Icu} {props : ValueProps} {bounded : Prop} {t : Tables} {container : Container}
  {loopNum : Nat} {names : List (UStr × UStr)} {packets : List Packet} {packet : Packet}

/-- The values of a packet, in a row of a container. -/
def packetValues (id rowNum : Nat) (packet : Packet) : List ItemValueRow :=
  packet.map fun item => ⟨id, item.1, rowNum, item.2.2⟩

/-- The values of packets that are numbered from one on. -/
def valuesOf (id : Nat) (packets : List Packet) : List ItemValueRow :=
  packets.zipIdx.flatMap fun p => packetValues id (p.2 + 1) p.1

theorem valuesOf_concat (id : Nat) (packets : List Packet) (packet : Packet) :
    valuesOf id (packets ++ [packet]) = valuesOf id packets
      ++ packetValues id (packets.length + 1) packet := by
  simp [valuesOf, List.zipIdx_append]

theorem mem_valuesOf {id : Nat} {iv : ItemValueRow} (h : iv ∈ valuesOf id packets) :
    iv.rowNum ≤ packets.length := by
  obtain ⟨⟨packet, k⟩, hmem, hiv⟩ := List.mem_flatMap.mp h
  obtain ⟨item, _, rfl⟩ := List.mem_map.mp hiv
  have hk := List.snd_lt_of_mem_zipIdx hmem
  exact Nat.succ_le_of_lt hk

/-- The tables with a loop that takes the container's next number, and the packets it has been
given. -/
def withLoop (t : Tables) (container : Container) (loopNum : Nat) (names : List (UStr × UStr))
    (packets : List Packet) :
    Tables :=
  { t with
    container := t.container.map fun c =>
      if c.id = container.id then { c with nextLoopNum := c.nextLoopNum + 1 } else c
    loop := t.loop ++ [⟨container.id, loopNum, none, packets.length⟩]
    loopItem := t.loopItem ++ names.map fun name => ⟨container.id, name.1, name.2, loopNum⟩
    itemValue := t.itemValue ++ valuesOf container.id packets }

/-- Items with names of their own, in a loop that is there. -/
theorem addLoopItems_eq (hnodup : (names.map (·.1)).Nodup)
    (hnew : ∀ li ∈ t.loopItem, li.containerId = container.id → li.name ∉ names.map (·.1))
    (hloop : ∃ l ∈ t.loop, Tables.loopKey l = (container.id, loopNum)) :
    addLoopItems container loopNum names t
      = some { t with loopItem := t.loopItem ++ names.map fun name =>
        ⟨container.id, name.1, name.2, loopNum⟩ } := by
  induction names generalizing t with
  | nil => simp [addLoopItems]
  | cons name names ih =>
    obtain ⟨key, orig⟩ := name
    obtain ⟨hkey, hnodup⟩ := List.nodup_cons.mp hnodup
    have hfirst : addLoopItem container key orig loopNum t
        = some (withItem t container key orig loopNum) := by
      refine addLoopItem_eq ?_ hloop
      intro li hli hsame
      obtain ⟨hid, hname⟩ := Prod.mk.inj hsame
      exact hnew li hli hid (hname ▸ List.mem_cons_self)
    have hrest := @ih (withItem t container key orig loopNum) hnodup (by
      intro li hli hid
      rcases List.mem_append.mp hli with hold | hadded
      · exact fun hmem => hnew li hold hid (List.mem_cons_of_mem _ hmem)
      · obtain rfl := List.mem_singleton.mp hadded
        exact hkey) hloop
    rw [addLoopItems, hfirst, Option.bind_some, hrest]
    simp [withItem]

/-- Values for items of the loop go in a row that has none of them, if all of them can be bound. -/
theorem insertValues_iff {loop : Loop} {rowNum : Nat} {t' : Tables}
    (hitems : ∀ key ∈ packet.map (·.1), ∃ li ∈ t.loopItem,
      Tables.itemKey li = (loop.container.id, key) ∧ li.loopNum = loop.loopNum)
    (hnodup : (packet.map (·.1)).Nodup)
    (hnew : ∀ iv ∈ t.itemValue, iv.containerId = loop.container.id → iv.rowNum = rowNum →
      iv.name ∉ packet.map (·.1)) :
    insertValues props loop rowNum packet t = some (.ok t')
      ↔ (∀ item ∈ packet, item.2.2.Writable props)
        ∧ t' = withValues t (packetValues loop.container.id rowNum packet) := by
  induction packet generalizing t with
  | nil => simp [insertValues, withValues, packetValues, eq_comm]
  | cons item packet ih =>
    obtain ⟨key, orig, value⟩ := item
    obtain ⟨hkey, hnodup⟩ := List.nodup_cons.mp hnodup
    have hrest := @ih (withValues t [⟨loop.container.id, key, rowNum, value⟩])
      (fun key hmem => hitems key (List.mem_cons_of_mem _ hmem)) hnodup (by
        intro iv hiv hid hrow
        rcases List.mem_append.mp hiv with hold | hadded
        · exact fun hmem => hnew iv hold hid hrow (List.mem_cons_of_mem _ hmem)
        · obtain rfl := List.mem_singleton.mp hadded
          exact hkey)
    have hitem : ∃ li ∈ t.loopItem, li.containerId = loop.container.id ∧ li.name = key
        ∧ li.loopNum = loop.loopNum := by
      obtain ⟨li, hli, hsame, hnum⟩ := hitems key List.mem_cons_self
      obtain ⟨hid, hname⟩ := Prod.mk.inj hsame
      exact ⟨li, hli, hid, hname, hnum⟩
    have hfree : ∀ iv ∈ t.itemValue,
        ¬ (iv.containerId = loop.container.id ∧ iv.name = key ∧ iv.rowNum = rowNum) := by
      rintro iv hiv ⟨hid, rfl, hrow⟩
      exact hnew iv hiv hid hrow List.mem_cons_self
    have hvalues : withValues (withValues t [⟨loop.container.id, key, rowNum, value⟩])
        (packetValues loop.container.id rowNum packet)
        = withValues t (packetValues loop.container.id rowNum ((key, orig, value) :: packet)) := by
      simp [withValues, packetValues]
    rw [hvalues] at hrest
    rw [insertValues_cons_iff, List.forall_mem_cons, and_assoc]
    constructor
    · rintro ⟨-, hwritable, -, hins⟩
      exact ⟨hwritable, hrest.mp hins⟩
    · rintro ⟨hwritable, hmore⟩
      exact ⟨hitem, hwritable, hfree, hrest.mpr hmore⟩

/-- The normalised names of the items of a container. -/
def itemKeys (container : Container) (t : Tables) : List UStr :=
  (t.loopItem.filter fun li => li.containerId = container.id).map (·.name)

theorem mem_itemKeys {key : UStr} :
    key ∈ itemKeys container t ↔ ∃ li ∈ t.loopItem, Tables.itemKey li = (container.id, key) := by
  simp only [itemKeys, List.mem_map, List.mem_filter, decide_eq_true_eq, Tables.itemKey,
    Prod.mk.injEq]
  exact exists_congr fun li => and_assoc

/-- Exactly one loop has an item that is there. -/
theorem itemLoops_present (h : t.WellFormed icu bounded) {key : UStr}
    (hkey : key ∈ itemKeys container t) :
    ∃ l, itemLoops container key t = [l] := by
  obtain ⟨li, hli, hsame⟩ := mem_itemKeys.mp hkey
  obtain ⟨l, hl, hlkey⟩ := h.looped li hli
  obtain ⟨hid, hname⟩ := Prod.mk.inj hsame
  refine ⟨l, Tables.filter_eq_singleton h.loops.of_map hl fun l' hl' => ?_⟩
  simp only [Bool.and_eq_true, List.any_eq_true, decide_eq_true_eq]
  constructor
  · rintro ⟨hcid, li', hli', ⟨hcid', hname'⟩, hnum⟩
    have heq : li' = li :=
      h.items.eq hli' hli (Prod.ext (hcid'.trans hid.symm) (hname'.trans hname.symm))
    subst heq
    refine h.loops.eq hl' hl ?_
    rw [hlkey]
    exact Prod.ext (hcid.trans hid.symm) hnum.symm
  · rintro rfl
    obtain ⟨hcid, hnum⟩ := Prod.mk.inj hlkey
    exact ⟨hcid.trans hid, li, hli, ⟨hid, hname⟩, hnum.symm⟩

/-- The loop of an item is found if the name is valid and the item there. -/
theorem getItemLoop_cases {cif : Cif} (h : cif.tables.WellFormed icu bounded)
    (container : Container) (name : UStr) :
    ((isValidName name true = true ∧ icu.normalize name ∈ itemKeys container cif.tables)
        ∧ ∃ loop, cif.getItemLoop icu container name = .ok loop)
      ∨ ¬ (isValidName name true = true ∧ icu.normalize name ∈ itemKeys container cif.tables)
        ∧ cif.getItemLoop icu container name = .error Code.nosuchItem := by
  rw [getItemLoop, Icu.normalizeItemName]
  by_cases hvalid : isValidName name true = true
  · rw [if_pos hvalid]
    dsimp only
    rw [getItemLoopInternal]
    by_cases hkey : icu.normalize name ∈ itemKeys container cif.tables
    · obtain ⟨l, hl⟩ := itemLoops_present h hkey
      rw [hl]
      exact .inl ⟨⟨hvalid, hkey⟩, _, rfl⟩
    · rw [itemLoops_absent fun li hli hsame => hkey (mem_itemKeys.mpr ⟨li, hli, hsame⟩)]
      exact .inr ⟨fun hboth => hkey hboth.2, rfl⟩
  · rw [if_neg hvalid]
    exact .inr ⟨fun hboth => hvalid hboth.1, rfl⟩

/-- A loop for names that are valid, distinct and new to the container. -/
theorem createLoop_eq {cif : Cif} (h : cif.tables.WellFormed icu bounded) {row : ContainerRow}
    (hrow : row ∈ cif.tables.container) (hid : row.id = container.id) {names : List UStr}
    (hne : names ≠ []) (hvalid : ∀ name ∈ names, isValidName name true = true)
    (hnodup : (names.map icu.normalize).Nodup)
    (hnew : ∀ li ∈ cif.tables.loopItem, li.containerId = container.id →
      li.name ∉ names.map icu.normalize) :
    cif.createLoop icu container none names = (.ok ⟨container, row.nextLoopNum, none⟩, { cif with
      tables :=
  withLoop cif.tables container row.nextLoopNum (names.map fun name =>
    (icu.normalize name, name)) [] }) := by
  have hpairs : (names.mapM fun name =>
      (return (← icu.normalizeItemName name Code.invalidItemname, name) :
      Except Int (UStr × UStr))) = .ok (names.map fun name => (icu.normalize name, name)) := by
    refine mapM_eq_ok_map fun name hname => ?_
    rw [Icu.normalizeItemName, if_pos (hvalid name hname)]
    rfl
  have hfind : cif.tables.container.find? (·.id = container.id) = some row := by
    refine h.containers.find?_eq hrow fun c _ => ?_
    rw [hid, decide_eq_true_eq]
  have hkeys : (names.map fun name => (icu.normalize name, name)).map (·.1)
      = names.map icu.normalize := by
    rw [List.map_map]
    rfl
  have hins : insertLoop container none cif.beginNesttx.tables
      = .ok (row.nextLoopNum, { cif.tables with
      loop := cif.tables.loop ++ [⟨container.id, row.nextLoopNum, none, 0⟩]
      container := cif.tables.container.map fun c =>
        if c.id = container.id then { c with nextLoopNum := c.nextLoopNum + 1 } else c }) := by
    have hfind' : cif.beginNesttx.tables.container.find? (·.id = container.id) = some row := hfind
    rw [insertLoop, hfind']
    rfl
  have hitems := @addLoopItems_eq { cif.tables with
      loop := cif.tables.loop ++ [⟨container.id, row.nextLoopNum, none, 0⟩]
      container := cif.tables.container.map fun c =>
        if c.id = container.id then { c with nextLoopNum := c.nextLoopNum + 1 } else c }
    container row.nextLoopNum (names.map fun name =>
      (icu.normalize name, name)) (hkeys ▸ hnodup) (hkeys ▸ hnew)
    ⟨_, List.mem_append_right _ (List.mem_singleton_self _), rfl⟩
  rw [createLoop, if_neg hne, hpairs]
  dsimp only
  rw [createLoopInternal]
  simp only [hins, hitems, commitNesttx_beginNesttx]
  simp [withLoop, valuesOf]

/-- Only a loop without names is refused as one. -/
theorem eq_nil_of_nullLoop {cif : Cif} {category : Option UStr} {names : List UStr}
    (h : (cif.createLoop icu container category names).1 = .error Code.nullLoop) : names = [] := by
  by_contra hne
  rw [createLoop, if_neg hne] at h
  split at h
  · rename_i e hpairs
    cases h
    obtain ⟨name, _, hname⟩ := exists_of_mapM_eq_error hpairs
    rw [Icu.normalizeItemName] at hname
    split at hname <;> cases hname
  · rw [createLoopInternal] at h
    split at h
    · rename_i e hins
      cases h
      rw [insertLoop] at hins
      split at hins
      · cases hins
      · split at hins <;> cases hins
    · split at h <;> cases h

/-- One more packet with a value for each item of the loop, if its values can be bound. -/
theorem addPacket_newLoop_iff {cif cif' : Cif}
    (hloops : ∀ l ∈ t.loop, Tables.loopKey l ≠ (container.id, loopNum))
    (hvalues : ∀ iv ∈ t.itemValue, iv.containerId = container.id → iv.name ∉ names.map (·.1))
    (hnodup : (names.map (·.1)).Nodup) (hne : names ≠ [])
    (hkeys : packet.map (·.1) = names.map (·.1))
    (htables : cif.tables = withLoop t container loopNum names packets) :
    cif.addPacket props ⟨container, loopNum, none⟩ packet = some (.ok (), cif')
      ↔ (∀ item ∈ packet, item.2.2.Writable props)
        ∧ cif' = { cif with tables := withLoop t container loopNum names (packets
          ++ [packet]) } := by
  have hpacket : packet ≠ [] := by
    rintro rfl
    exact hne (List.map_eq_nil_iff.mp hkeys.symm)
  have hother : t.loop.any (fun l => l.containerId = container.id && l.loopNum = loopNum)
      = false := by
    rw [List.any_eq_false]
    intro l hl hsame
    exact hloops l hl (by simpa [Tables.loopKey] using hsame)
  have hfind : (withLoop t container loopNum names packets).loop.find?
      (fun l => l.containerId = container.id && l.loopNum = loopNum)
      = some ⟨container.id, loopNum, none, packets.length⟩ := by
    have hnone : t.loop.find? (fun l => l.containerId = container.id && l.loopNum = loopNum)
        = none :=
      List.find?_eq_none.mpr fun l hl hsame => (List.any_eq_false.mp hother l hl) hsame
    rw [withLoop, List.find?_append, hnone, Option.none_or]
    simp
  have hmap : (withLoop t container loopNum names packets).loop.map (fun l =>
      if (l.containerId = container.id && l.loopNum = loopNum) = true
        then { l with lastRowNum := l.lastRowNum + 1 } else l)
      = t.loop ++ [⟨container.id, loopNum, none, packets.length + 1⟩] := by
    rw [withLoop, List.map_append, map_ite_of_any_eq_false hother]
    simp
  have hins := fun t' => @insertValues_iff props { withLoop t container loopNum names packets with
      loop := t.loop ++ [⟨container.id, loopNum, none, packets.length + 1⟩] } packet
    ⟨container, loopNum, none⟩ (packets.length + 1) t' (by
      intro key hmem
      rw [hkeys] at hmem
      obtain ⟨name, hname, rfl⟩ := List.mem_map.mp hmem
      exact ⟨_, List.mem_append_right _ (List.mem_map_of_mem hname), rfl, rfl⟩) (hkeys ▸ hnodup) (by
      intro iv hiv hid hrow
      rcases List.mem_append.mp hiv with hold | hadded
      · exact hkeys ▸ hvalues iv hold hid
      · have := mem_valuesOf hadded
        omega)
  have hadded : withValues { withLoop t container loopNum names packets with
      loop := t.loop ++ [⟨container.id, loopNum, none, packets.length + 1⟩] }
      (packetValues container.id (packets.length + 1) packet)
      = withLoop t container loopNum names (packets ++ [packet]) := by
    simp [withLoop, withValues, valuesOf_concat]
  rw [hadded] at hins
  rw [addPacket_iff, htables, hfind]
  simp only [Option.some.injEq, exists_eq_left', hmap, hins]
  constructor
  · rintro ⟨-, -, _, ⟨hwritable, rfl⟩, rfl⟩
    exact ⟨hwritable, rfl⟩
  · rintro ⟨hwritable, rfl⟩
    exact ⟨hpacket, by simp, _, ⟨hwritable, rfl⟩, rfl⟩

end Cif

end CifApi
