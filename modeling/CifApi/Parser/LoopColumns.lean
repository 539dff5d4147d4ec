import CifApi.Parser.LoopHeader

/-! Which columns of a loop are stored, where the header repeats names, and which value goes to each
of them. -/
namespace CifApi

open Exec Scanner

variable {σ : Type} {cfg : Config σ} {bounded : Prop} {container : Container} {loop : Option Loop}
  {names : List UStr} {P : Prop} {header : List (Option UStr)} {columns : List (Option Nat)}
    {given : List Value}
  {st : PacketState} {s s₀ s₁ s₂ s₃ t : Scanner σ}

section Columns

variable {icu : Icu} {tables : Tables}

/-- The columns that a header keeps, numbered from `i` on. -/
def keptColumns : Nat → List (Option UStr) → List (Nat × UStr)
  | _, [] => []
  | i, none :: header => keptColumns (i + 1) header
  | i, some name :: header => (i, name) :: keptColumns (i + 1) header

/-- The columns whose names are neither taken nor those of columns before them. -/
def newColumns (icu : Icu) : List UStr → Nat → List UStr → List (Nat × UStr)
  | _, _, [] => []
  | taken, i, name :: names =>
    if icu.normalize name ∈ taken then newColumns icu taken (i + 1) names
    else (i, name) :: newColumns icu (icu.normalize name :: taken) (i + 1) names

theorem map_keptColumns (i : Nat) (header : List (Option UStr)) :
    (keptColumns i header).map (·.2) = header.filterMap id := by
  induction header generalizing i with
  | nil => rfl
  | cons name header ih => cases name <;> simp [keptColumns, ih]

/-- The entry of a kept column in the packet is that of the column in the list. -/
theorem keptColumns_getElem? {i j k : Nat} {name : UStr}
    (h : (keptColumns i header)[j]? = some (k, name)) :
    ∃ m, k = i + m ∧ header[m]? = some (some name)
      ∧ ∀ p, (columnsFrom p header)[m]? = some (some (p + j)) := by
  induction header generalizing i j with
  | nil => simp [keptColumns] at h
  | cons first header ih =>
    cases first with
    | none =>
      obtain ⟨m, rfl, hname, hcolumn⟩ := ih h
      exact ⟨m + 1, by omega, hname, hcolumn⟩
    | some first =>
      cases j with
      | zero =>
        cases h
        exact ⟨0, rfl, rfl, fun p => rfl⟩
      | succ j =>
        obtain ⟨m, rfl, hname, hcolumn⟩ := ih h
        refine ⟨m + 1, by omega, hname, fun p => ?_⟩
        have hnext := hcolumn (p + 1)
        rw [Nat.add_assoc, Nat.add_comm 1 j] at hnext
        exact hnext

/-- The names that a header keeps. -/
theorem filterMap_keptName (names : List UStr) :
    (names.map (keptName icu container tables)).filterMap id
    = names.filter fun name => ¬ (isValidName name true = true
      ∧ icu.normalize name ∈ Cif.itemKeys container tables) := by
  induction names with
  | nil => rfl
  | cons name names ih =>
    rw [List.map_cons, keptName]
    split
    · rename_i htaken
      rw [List.filterMap_cons, List.filter_cons_of_neg (by simp [htaken])]
      exact ih
    · rename_i hnew
      rw [List.filterMap_cons, List.filter_cons_of_pos (by rw [decide_eq_true_eq]; exact hnew)]
      exact congrArg _ ih

/-- The names kept are those of columns that can be told apart. -/
def TellsApart (icu : Icu) (container : Container) (tables : Tables) (names : List UStr) : Prop :=
  (∀ name ∈ names, isValidName name true = true)
    ∧ ((names.map icu.normalize).filter fun key => key ∉ Cif.itemKeys container tables).Nodup

theorem distinct_kept_iff : icu.Distinct ((names.map (keptName icu container tables)).filterMap id)
    ↔ TellsApart icu container tables names := by
  rw [filterMap_keptName]
  have hkeys (hvalid : ∀ name ∈ names, isValidName name true = true) :
      (names.filter fun name =>
        ¬ (isValidName name true = true ∧ icu.normalize name ∈ Cif.itemKeys container tables)).map
        icu.normalize = (names.map icu.normalize).filter fun key =>
          key ∉ Cif.itemKeys container tables := by
    rw [List.filter_map]
    congr 1
    refine List.filter_congr fun name hname => ?_
    simp [hvalid name hname]
  constructor
  · rintro ⟨hvalid, hnodup⟩
    have hall : ∀ name ∈ names, isValidName name true = true := by
      intro name hname
      by_contra hinvalid
      exact hinvalid (hvalid name (List.mem_filter.mpr ⟨hname, by simp [hinvalid]⟩))
    exact ⟨hall, hkeys hall ▸ hnodup⟩
  · rintro ⟨hvalid, hnodup⟩
    exact ⟨fun name hname => hvalid name (List.mem_filter.mp hname).1, hkeys hvalid ▸ hnodup⟩

/-- Names that can be told apart are kept as the first of their kind. -/
theorem newColumns_eq (h : TellsApart icu container tables names) :
    newColumns icu (Cif.itemKeys container tables) 0 names
      = keptColumns 0 (names.map (keptName icu container tables)) := by
  have hseen : ∀ (seen : List UStr) (i : Nat), TellsApart icu container tables names →
      (∀ name ∈ names, icu.normalize name ∉ seen) →
      newColumns icu (seen ++ Cif.itemKeys container tables) i names
        = keptColumns i (names.map (keptName icu container tables)) := by
    clear h
    induction names with
    | nil => exact fun _ _ _ _ => rfl
    | cons name names ih =>
      rintro seen i ⟨hvalid, hnodup⟩ hunseen
      have hrest := fun name hname => hunseen name (List.mem_cons_of_mem _ hname)
      have hvalid' := fun name hname => hvalid name (List.mem_cons_of_mem _ hname)
      rw [newColumns, List.map_cons, keptName]
      rw [List.map_cons] at hnodup
      by_cases hkey : icu.normalize name ∈ Cif.itemKeys container tables
      · rw [if_pos (List.mem_append_right _ hkey), if_pos ⟨hvalid name List.mem_cons_self, hkey⟩]
        rw [List.filter_cons_of_neg (by simpa using hkey)] at hnodup
        exact ih seen (i + 1) ⟨hvalid', hnodup⟩ hrest
      · rw [if_neg fun hmem =>
          (List.mem_append.mp hmem).elim (hunseen name List.mem_cons_self) hkey,
          if_neg fun hboth => hkey hboth.2, keptColumns]
        rw [List.filter_cons_of_pos (by simpa using hkey), List.nodup_cons] at hnodup
        refine congrArg _ (ih (icu.normalize name :: seen) (i + 1) ⟨hvalid', hnodup.2⟩
          fun other hother hmem => ?_)
        rcases List.mem_cons.mp hmem with hsame | hmem
        · refine hnodup.1 (List.mem_filter.mpr ⟨?_, by simpa using hkey⟩)
          exact hsame ▸ List.mem_map_of_mem hother
        · exact hrest other hother hmem
  exact hseen [] 0 h fun _ _ => List.not_mem_nil

end Columns

section Creation

variable {icu : Icu} {tables : Tables} {kept : List UStr} {packets : List Packet} {packet : Packet}
  {cif : Cif}

/-- The tables with the packets that a loop has been given, if there is a loop. -/
def tablesWith (icu : Icu) (kept : List UStr) (tables : Tables) (packets : List Packet) :
    Option Loop → Tables
  | none => tables
  | some loop =>
    Cif.withLoop tables loop.container loop.loopNum (kept.map fun name =>
      (icu.normalize name, name)) packets

/-- What is true of the loop that a header creates; a header that keeps no name creates none. -/
structure Created (icu : Icu) (container : Container) (kept : List UStr) (tables : Tables)
    (loop : Option Loop) : Prop where
  none_iff : loop = none ↔ kept = []
  handle : ∀ l, loop = some l → l = ⟨container, l.loopNum, none⟩
  loops : ∀ l, loop = some l → ∀ row ∈ tables.loop, Tables.loopKey row ≠ (container.id, l.loopNum)
  values : ∀ iv ∈ tables.itemValue, iv.containerId = container.id → iv.name ∉ kept.map icu.normalize

/-- The names that a header keeps are not those of items. -/
theorem kept_new {name : UStr}
    (hdistinct : icu.Distinct ((names.map (keptName icu container tables)).filterMap id))
    (h : name ∈ ((names.map (keptName icu container tables)).filterMap id).map icu.normalize) :
    name ∉ Cif.itemKeys container tables := by
  obtain ⟨orig, horig, rfl⟩ := List.mem_map.mp h
  have hvalid := hdistinct.valid orig horig
  rw [filterMap_keptName, List.mem_filter, decide_eq_true_eq] at horig
  exact fun hmem => horig.2 ⟨hvalid, hmem⟩

/-- The start of a loop whose names can be told apart. -/
theorem startLoop_spec (hcfg : Heedless cfg) (hskip : s.skipDepth = 0)
    (hwf : s.world.cif.tables.WellFormed cfg.icu bounded) {row : ContainerRow}
    (hrow : row ∈ s.world.cif.tables.container) (hid : row.id = container.id)
    (hdistinct : cfg.icu.Distinct kept)
    (hnew : ∀ name ∈ kept.map cfg.icu.normalize, name ∉ Cif.itemKeys container s.world.cif.tables) :
    Halts (startLoop cfg (some container) kept) s
      (fun loop t => Created cfg.icu container kept s.world.cif.tables loop ∧ t.skipDepth = 0
        ∧ t.world.cif
          = { s.world.cif with tables := tablesWith cfg.icu kept s.world.cif.tables [] loop })
      fun _ _ => False := by
  have hvalues : ∀ iv ∈ s.world.cif.tables.itemValue, iv.containerId = container.id →
      iv.name ∉ kept.map cfg.icu.normalize := by
    intro iv hiv hcid hmem
    have habsent : ∀ li ∈ s.world.cif.tables.loopItem,
        Tables.itemKey li ≠ (container.id, iv.name) :=
      fun li hli hkey => hnew _ hmem (Cif.mem_itemKeys.mpr ⟨li, hli, hkey⟩)
    exact Cif.no_values hwf habsent iv hiv (Prod.ext hcid rfl)
  rw [Halts, startLoop, post_bind, post_read, if_neg (Nat.not_lt.mpr (Nat.le_of_eq hskip)),
    post_bind, handlerCallback, post_update]
  obtain ⟨hcode, hcall, hcif⟩ := hcfg.handler (.loopStart (some container) none kept) s.world
  dsimp only
  rw [if_pos hcode, HandlerReply.category, hcall, post_bind, storeCall, post_update]
  dsimp only [Scanner.setWorld, Scanner.push]
  rw [hcif]
  by_cases hne : kept = []
  · subst hne
    exact ⟨⟨⟨fun _ => rfl, fun _ => rfl⟩, by simp, by simp, hvalues⟩, hskip, rfl⟩
  · have hcreate := Cif.createLoop_eq hwf hrow hid hne hdistinct.valid hdistinct.nodup
      fun li hli hcid hmem =>
      hnew _ hmem (Cif.mem_itemKeys.mpr ⟨li, hli, Prod.ext hcid rfl⟩)
    rw [hcreate]
    refine ⟨⟨⟨by simp, fun h => absurd h hne⟩, ?_, ?_, hvalues⟩, hskip, rfl⟩
    · rintro _ ⟨⟩
      rfl
    · rintro _ ⟨⟩ l hl hkey
      obtain ⟨hcid, hnum⟩ := Prod.mk.inj hkey
      dsimp only at hnum
      obtain ⟨c, hc, hcid', hlt⟩ := hwf.numbered l hl
      have hsame : c = row := hwf.containers.eq hc hrow (by omega)
      subst hsame
      omega

/-- A loop that has been started has names that can be told apart. -/
theorem distinct_of_startLoop (hcfg : Heedless cfg) (hskip : s.skipDepth = 0)
    (hrun : startLoop cfg (some container) kept s = some (.ok loop, t)) :
    cfg.icu.Distinct kept := by
  have hens : Ensures (startLoop cfg (some container) kept) s (fun _ _ => cfg.icu.Distinct kept)
      fun _ _ => True := by
    rw [Ensures, startLoop, post_bind, post_read, if_neg (Nat.not_lt.mpr (Nat.le_of_eq hskip)),
      post_bind, handlerCallback, post_update]
    obtain ⟨hcode, hcall, hcif⟩ := hcfg.handler (.loopStart (some container) none kept) s.world
    dsimp only
    rw [if_pos hcode, HandlerReply.category, hcall, post_bind, storeCall, post_update]
    dsimp only [Scanner.setWorld, Scanner.push]
    rw [hcif]
    cases hcreate : (s.world.cif.createLoop cfg.icu container none kept).1 with
    | ok loop => exact (distinct_of_createLoop hcreate).1
    | error e =>
      dsimp only
      rw [post_ite]
      refine ⟨?_, fun _ => post_ite.mpr ⟨fun _ => trivial, fun _ => trivial⟩⟩
      rintro rfl
      rw [Cif.eq_nil_of_nullLoop hcreate]
      exact ⟨by simp, List.nodup_nil⟩
  exact hens.of_ok hrun

end Creation

section Rows

variable {icu : Icu}

/-- The rows of the packets complete among the values given, in the columns `columns`. -/
def storedRows (icu : Icu) (id : Nat) (columns : List (Nat × UStr)) (n : Nat) (given : List Value) :
    List ItemValueRow :=
  (List.range (given.length / n)).flatMap fun r =>
    columns.map fun column => ⟨id, icu.normalize column.2, r + 1,
      given.getD (r * n + column.1) .unk⟩

theorem mem_keptColumns_lt {i : Nat} {name : UStr} (h : (i, name) ∈ keptColumns 0 header) :
    i < header.length := by
  obtain ⟨j, hj⟩ := List.mem_iff_getElem?.mp h
  obtain ⟨m, rfl, hname, _⟩ := keptColumns_getElem? hj
  have hm := (List.getElem?_eq_some_iff.mp hname).1
  omega

/-- One more value leaves the rows of complete packets as they are, and may complete one more. -/
theorem storedRows_concat (id : Nat) (given : List Value) (value : Value) :
    storedRows icu id (keptColumns 0 header) header.length (given ++ [value])
      = storedRows icu id (keptColumns 0 header) header.length given
        ++ (if (given.length + 1) % header.length = 0 ∧ header ≠ [] then
          (keptColumns 0 header).map fun column =>
            ⟨id, icu.normalize column.2, given.length / header.length + 1,
              (given ++ [value]).getD (given.length / header.length * header.length + column.1)
                .unk⟩
          else []) := by
  rcases Nat.eq_zero_or_pos header.length with hzero | hpos
  · simp [storedRows, List.length_eq_zero_iff.mp hzero]
  have hne : header ≠ [] := List.length_pos_iff.mp hpos
  have hold : ∀ r ∈ List.range (given.length / header.length),
      (keptColumns 0 header).map (fun column =>
      (⟨id, icu.normalize column.2, r + 1,
        (given ++ [value]).getD (r * header.length + column.1) .unk⟩ : ItemValueRow))
      = (keptColumns 0 header).map fun column =>
        ⟨id, icu.normalize column.2, r + 1, given.getD (r * header.length + column.1) .unk⟩ := by
    intro r hr
    refine List.map_congr_left fun column hcolumn => ?_
    have hlt := @mem_keptColumns_lt header column.1 column.2 hcolumn
    have hrow : (r + 1) * header.length ≤ given.length :=
      Nat.le_trans (Nat.mul_le_mul_right _ (List.mem_range.mp hr)) (Nat.div_mul_le_self _ _)
    rw [Nat.add_mul, Nat.one_mul] at hrow
    rw [List.getD_eq_getElem?_getD, List.getElem?_append_left (by omega),
      ← List.getD_eq_getElem?_getD]
  rw [storedRows, List.length_append, List.length_singleton]
  by_cases hlast : (given.length + 1) % header.length = 0
  · have hdiv : (given.length + 1) / header.length = given.length / header.length + 1 := by
      rw [Nat.succ_div, if_pos (Nat.dvd_of_mod_eq_zero hlast)]
    rw [if_pos ⟨hlast, hne⟩, hdiv, List.range_succ, List.flatMap_append, List.flatMap_congr hold,
      storedRows]
    simp
  · have hdiv : (given.length + 1) / header.length = given.length / header.length := by
      rw [Nat.succ_div, if_neg fun h => hlast (Nat.mod_eq_zero_of_dvd h), Nat.add_zero]
    rw [if_neg fun h => hlast h.1, hdiv, List.flatMap_congr hold, storedRows, List.append_nil]

/-- A packet just completed holds the last values given, column by column. -/
theorem Filled.packetValues (h : Filled icu header given st) (id rowNum : Nat)
    (hlast : given.length % header.length = 0) (hfull : header.length ≤ given.length) :
    Cif.packetValues id rowNum st.packet = (keptColumns 0 header).map fun column =>
      ⟨id, icu.normalize column.2, rowNum,
        given.getD (given.length - header.length + column.1) .unk⟩ := by
  apply List.ext_getElem?
  intro j
  have hkey : st.packet[j]?.map (·.1) = (keptColumns 0 header)[j]?.map fun column =>
      icu.normalize column.2 := by
    have hkeys := congrArg (·[j]?) h.keys
    rw [← map_keptColumns 0, List.map_map] at hkeys
    simp only [List.getElem?_map] at hkeys
    exact hkeys
  rw [Cif.packetValues, List.getElem?_map, List.getElem?_map]
  cases hcolumn : (keptColumns 0 header)[j]? with
  | none =>
    rw [hcolumn, Option.map_none, Option.map_eq_none_iff] at hkey
    rw [hkey]
    rfl
  | some column =>
    obtain ⟨i, name⟩ := column
    rw [hcolumn, Option.map_some, Option.map_eq_some_iff] at hkey
    obtain ⟨item, hitem, hname⟩ := hkey
    obtain ⟨m, rfl, hheader, hentry⟩ := keptColumns_getElem? hcolumn
    have hcell := h.cells (hentry 0 |>.trans (by rw [Nat.zero_add]))
    have hm := (List.getElem?_eq_some_iff.mp hheader).1
    rw [hitem, Option.map_some, Option.some.injEq, Rows.cell, hlast, if_neg (Nat.not_lt_zero _),
      if_pos hfull] at hcell
    rw [hitem, Option.map_some, Option.map_some, hcell, ← hname, List.getD_eq_getElem?_getD]
    simp

end Rows

section Bindable

variable {props : ValueProps} {packet : Packet} {value : Value}

theorem writable_setValue (hpacket : ∀ item ∈ packet, item.2.2.Writable props)
    (hvalue : value.Writable props) (j : Nat) :
    ∀ item ∈ packet.setValue j value, item.2.2.Writable props := by
  intro item hitem
  cases hj : packet[j]? with
  | none =>
    rw [Packet.setValue, List.modify_eq_self (List.getElem?_eq_none_iff.mp hj)] at hitem
    exact hpacket item hitem
  | some old =>
    rcases mem_modify hj hitem with rfl | hold
    · exact hvalue
    · exact hpacket item hold

/-- A value for a column that is dropped does not come into the packet. -/
theorem writable_put (hpacket : ∀ item ∈ st.packet, item.2.2.Writable props)
    (hvalue : header.getD st.columnIndex none ≠ none → value.Writable props) :
    ∀ item ∈ st.put (columnsFrom 0 header) value, item.2.2.Writable props := by
  rw [PacketState.put]
  split
  · rename_i j hj
    refine writable_setValue hpacket (hvalue ?_) j
    obtain ⟨name, hname, -⟩ := columnsFrom_getElem?.mp (getElem?_of_getD hj)
    rw [List.getD_eq_getElem?_getD, hname]
    exact Option.some_ne_none name
  · exact hpacket

theorem writable_fillPacket (hunk : Value.unk.Writable props)
    (hpacket : ∀ item ∈ packet, item.2.2.Writable props) (names : List UStr)
    (columns : List (Option Nat)) (columnIndex : Nat) :
    ∀ item ∈ fillPacket cfg names columns columnIndex packet, item.2.2.Writable props := by
  rw [fillPacket_eq]
  refine List.foldlRecOn (motive := fun (filled : Packet) => ∀ item ∈ filled,
    item.2.2.Writable props) _ _ hpacket fun filled hfilled k _ => ?_
  rw [fillColumn]
  split
  · split
    · exact writable_setValue hfilled hunk _
    · exact hfilled
  · exact hfilled

end Bindable

section Body

variable {icu : Icu} {tables : Tables} {cif : Cif} {kept : List UStr} {packet : Packet}
  {packets : List Packet} {value : Value}

/-- The end of a packet that has a value for each name kept, and can be recorded. -/
theorem endPacket_spec (hcfg : Heedless cfg) (hskip : s.skipDepth = 0)
    (hcreated : Created cfg.icu container kept tables loop) (hdistinct : cfg.icu.Distinct kept)
    (hkeys : packet.map (·.1) = kept.map cfg.icu.normalize)
    (hcif : s.world.cif = { cif with tables := tablesWith cfg.icu kept tables packets loop })
    (hwritable : loop ≠ none → ∀ item ∈ packet, item.2.2.Writable cfg.props) :
    Halts (endPacket cfg loop packet) s (fun p t => p = packet ∧ t.skipDepth = 0
      ∧ t.world.cif
        = { cif with tables := tablesWith cfg.icu kept tables (packets ++ [packet]) loop })
      fun _ _ => False := by
  rw [Halts, endPacket, post_bind, closePacket, post_bind, post_read,
    if_neg (Nat.not_lt.mpr (Nat.le_of_eq hskip)), recordPacket, post_bind, handlerCallback,
    post_update]
  obtain ⟨hcode, hcall, hkept⟩ := hcfg.handler (.packetEnd packet) s.world
  dsimp only
  rw [if_pos hcode, HandlerReply.packet, hcall, post_bind]
  cases loop with
  | none => exact ⟨rfl, hskip, hkept.trans hcif⟩
  | some l =>
    obtain ⟨_, num, _⟩ := l
    cases hcreated.handle _ rfl
    have hpairs : (kept.map fun name => (cfg.icu.normalize name, name)).map (·.1)
        = kept.map cfg.icu.normalize := by
      rw [List.map_map]
      rfl
    have hadd := (@Cif.addPacket_newLoop_iff cfg.props tables container num
      (kept.map fun name => (cfg.icu.normalize name, name)) packets packet
      { cif with tables := tablesWith cfg.icu kept tables packets (some ⟨container, num, none⟩) } _
      (hcreated.loops _ rfl) (hpairs ▸ hcreated.values) (hpairs ▸ hdistinct.nodup)
      (fun hnil => Option.some_ne_none _ (hcreated.none_iff.mpr (List.map_eq_nil_iff.mp hnil)))
      (hkeys.trans hpairs.symm) rfl).mpr ⟨hwritable (Option.some_ne_none _), rfl⟩
    rw [addPacket, post_bind, bindingCall, post_operate]
    dsimp only [Scanner.setWorld, Scanner.push]
    rw [hkept, hcif, hadd]
    refine ⟨fun hnone => (by cases hnone), ?_⟩
    rintro r t ⟨⟩
    exact ⟨rfl, hskip, rfl⟩

/-- A packet that has been recorded had values that could be bound. -/
theorem writable_of_endPacket (hcfg : Heedless cfg) (hskip : s.skipDepth = 0) {l : Loop}
    {packet' : Packet} (hrun : endPacket cfg (some l) packet s = some (.ok packet', t)) :
    ∀ item ∈ packet, item.2.2.Writable cfg.props := by
  have hend : Ensures (endPacket cfg (some l) packet) s
      (fun _ _ => ∀ item ∈ packet, item.2.2.Writable cfg.props) fun _ _ => True := by
    rw [Ensures, endPacket, post_bind, closePacket, post_bind, post_read,
      if_neg (Nat.not_lt.mpr (Nat.le_of_eq hskip)), recordPacket, post_bind, handlerCallback,
      post_update]
    obtain ⟨hcode, hcall, -⟩ := hcfg.handler (.packetEnd packet) s.world
    dsimp only
    rw [if_pos hcode, HandlerReply.packet, hcall, post_bind, addPacket, post_bind, bindingCall,
      post_operate]
    refine ⟨fun _ => trivial, fun r u hadded => ?_⟩
    obtain ⟨⟨r', cif'⟩, hadd, heq⟩ := Option.map_eq_some_iff.mp hadded
    cases heq
    cases r with
    | ok a => exact Cif.writable_of_addPacket hadd
    | error e => trivial
  exact hend.of_ok hrun

/-- What the CIF holds once the body has given `given`. -/
structure Recorded (icu : Icu) (container : Container) (header : List (Option UStr))
    (tables : Tables) (cif : Cif) (loop : Option Loop) (given : List Value) (s : Scanner σ) :
    Prop where
  skip : s.skipDepth = 0
  stored : ∃ packets,
    s.world.cif = { cif with tables := tablesWith icu (header.filterMap id) tables packets loop }
    ∧ packets.length = given.length / header.length
    ∧ Cif.valuesOf container.id packets
      = storedRows icu container.id (keptColumns 0 header) header.length given

/-- A loop that has just been started holds no packet. -/
theorem recorded_nil (hskip : s.skipDepth = 0)
    (hcif : s.world.cif
      = { cif with tables := tablesWith icu (header.filterMap id) tables [] loop }) :
    Recorded icu container header tables cif loop [] s := by
  refine ⟨hskip, [], hcif, (Nat.zero_div _).symm, ?_⟩
  rw [storedRows, List.length_nil, Nat.zero_div]
  rfl

theorem Recorded.calm (h : Recorded icu container header tables cif loop given s)
    (ht : (calm P).step s t) :
    Recorded icu container header tables cif loop given t := by
  obtain ⟨hskip, packets, hcif, hrest⟩ := h
  exact ⟨ht.2.trans hskip, packets, ht.1.trans hcif, hrest⟩

/-- The packet that a value completes is recorded, if it can be. -/
theorem Recorded.endPacket (hcfg : Heedless cfg)
    (hcreated : Created cfg.icu container (header.filterMap id) tables loop)
    (hdistinct : cfg.icu.Distinct (header.filterMap id)) (hne : header ≠ [])
    (hfilled : Filled cfg.icu header given st)
    (h : Recorded cfg.icu container header tables cif loop given s)
    (hlast : (st.columnIndex + 1) % header.length = 0)
    (hwritable : loop ≠ none → ∀ item ∈ st.put (columnsFrom 0 header) value,
      item.2.2.Writable cfg.props) :
    Halts (endPacket cfg loop (st.put (columnsFrom 0 header) value)) s
      (fun _ t => Recorded cfg.icu container header tables cif loop (given ++ [value]) t)
      fun _ _ => False := by
  obtain ⟨hskip, packets, hcif, hlength, hvalues⟩ := h
  have hconcat : (given ++ [value]).length = given.length + 1 := List.length_append
  have hwhole : (given.length + 1) % header.length = 0 := by
    rwa [hfilled.columnIndex_eq, Nat.mod_add_mod] at hlast
  have hstored := @storedRows_concat header cfg.icu container.id given value
  have hcomplete := hfilled.complete hne hlast value
  have hdiv : (given.length + 1) / header.length = given.length / header.length + 1 := by
    rw [Nat.succ_div, if_pos (Nat.dvd_of_mod_eq_zero hwhole)]
  have hrow : given.length + 1 - header.length = given.length / header.length * header.length := by
    have hmul := Nat.div_mul_cancel (Nat.dvd_of_mod_eq_zero hwhole)
    rw [hdiv, Nat.add_mul, Nat.one_mul] at hmul
    omega
  refine (endPacket_spec hcfg hskip hcreated hdistinct hcomplete.keys hcif hwritable).imp ?_
    fun _ _ hh => hh
  rintro p t ⟨rfl, hskip', hcif'⟩
  refine ⟨hskip', _, hcif', ?_, ?_⟩
  · rw [List.length_append, hlength, hconcat, hdiv]
    rfl
  · have hlong : header.length ≤ (given ++ [value]).length :=
      of_decide_eq_true hcomplete.havePackets_eq.symm
    have hpacket :=
      hcomplete.packetValues container.id (packets.length + 1) (hconcat ▸ hwhole) hlong
    rw [hconcat, hrow, hlength] at hpacket
    rw [Cif.valuesOf_concat, hvalues, hstored, if_pos ⟨hwhole, hne⟩, hlength, hpacket]

/-- A value that does not complete a packet is kept for it. -/
theorem Recorded.keep (hfilled : Filled cfg.icu header given st)
    (h : Recorded cfg.icu container header tables cif loop given s)
    (hmore : (st.columnIndex + 1) % header.length ≠ 0) (value : Value) :
    Recorded cfg.icu container header tables cif loop (given ++ [value]) s := by
  obtain ⟨hskip, packets, hcif, hlength, hvalues⟩ := h
  have hpart : (given.length + 1) % header.length ≠ 0 := by
    rwa [hfilled.columnIndex_eq, Nat.mod_add_mod] at hmore
  have hdiv : (given ++ [value]).length / header.length = given.length / header.length := by
    rw [List.length_append, List.length_singleton, Nat.succ_div,
      if_neg fun h => hpart (Nat.mod_eq_zero_of_dvd h), Nat.add_zero]
  refine ⟨hskip, packets, hcif, hlength.trans hdiv.symm, ?_⟩
  rw [hvalues, storedRows_concat, if_neg fun h => hpart h.1, List.append_nil]

/-- What a body has done with one more value. -/
theorem Recorded.put (hcfg : Heedless cfg)
    (hcreated : Created cfg.icu container (header.filterMap id) tables loop)
    (hdistinct : cfg.icu.Distinct (header.filterMap id)) (hne : header ≠ [])
    (hfilled : Filled cfg.icu header given st)
    (h : Recorded cfg.icu container header tables cif loop given s) {st' : PacketState}
    (hrun : putValue cfg loop header (columnsFrom 0 header) st value s = some (.ok st', t)) :
    Recorded cfg.icu container header tables cif loop (given ++ [value]) t := by
  rw [putValue] at hrun
  split at hrun
  · rename_i hlast
    obtain ⟨packet', r, hend, hst⟩ := Exec.bind_eq_ok.mp hrun
    cases hst
    refine (h.endPacket hcfg hcreated hdistinct hne hfilled hlast fun hloop => ?_).of_ok hend
    obtain ⟨l, rfl⟩ := Option.ne_none_iff_exists'.mp hloop
    exact writable_of_endPacket hcfg h.skip hend
  · rename_i hmore
    cases hrun
    exact h.keep hfilled hmore value

/-- The run lemma of the body. -/
theorem InBody.recorded (hcfg : Heedless cfg)
    (hcreated : Created cfg.icu container (header.filterMap id) tables loop)
    (hdistinct : cfg.icu.Distinct (header.filterMap id)) (hne : header ≠ [])
    (hcreate : Packet.create cfg.icu (header.filterMap id) = .ok packet)
    (h₀ : Recorded cfg.icu container header tables cif loop [] s₀)
    (hbody : InBody cfg loop header (columnsFrom 0 header) packet s₀ given st s) :
    Recorded cfg.icu container header tables cif loop given s := by
  have hhandler : LeavesPackets cfg := hcfg.leavesPackets
  induction hbody with
  | start => exact h₀
  | dropped _ htoken ih => exact ih.calm ((calm_loopToken (P := False) hcfg _).of_ok htoken)
  | value hbefore htoken hitem hput ih =>
    have hfilled := filled_inBody hdistinct hhandler hne hcreate hbefore
    have h₁ := ih.calm ((calm_loopToken (P := False) hcfg _).of_ok htoken)
    have h₂ := h₁.calm ((calm_packetItem hcfg h₁.skip).of_ok hitem)
    exact h₂.put hcfg hcreated hdistinct hne hfilled hput

end Body

section Run

variable {tables : Tables} {cif : Cif} {kept : List UStr} {packet : Packet} {value : Value}
  {w : Nat}

/-- The scanner as `parse_loop` goes on to the header. -/
def openLoop (s : Scanner σ) : Scanner σ := deepenSkip (push (.enter .loop) s)

/-- A run of `parse_loop` from `s` has come to a state of the body in which it has given `given`. -/
inductive InLoop (cfg : Config σ) (container : Option Container) (s : Scanner σ)
    (header : List (Option UStr)) (loop : Option Loop) (columns : List (Option Nat))
    (given : List Value) (st : PacketState) (t : Scanner σ) : Prop
  | intro {names : List UStr} {packet : Packet} {s₁ s₂ s₃ : Scanner σ}
    (hheader : ReadsHeader cfg container (openLoop s) names header s₁)
    (hstart : startLoop cfg container (header.filterMap id) s₁ = some (.ok loop, s₂))
    (hopen : openPackets cfg header s₂ = some (.ok (packet, columns), s₃))
    (hbody : InBody cfg loop header columns packet s₃ given st t)

/-- The body of the loop gives the values `given`. -/
def GivesValues (cfg : Config σ) (container : Option Container) (s : Scanner σ)
    (given : List Value) : Prop :=
  ∃ header loop columns st t u, InLoop cfg container s header loop columns given st t
    ∧ loopToken cfg t = some (.ok .finish, u)

/-- No value of the body stops the parse. -/
def ReadsValues (cfg : Config σ) (container : Option Container) (s : Scanner σ) : Prop :=
  ∀ header loop columns given st t u, InLoop cfg container s header loop columns given st t →
    loopToken cfg t = some (.ok .value, u) → ∀ e r, packetItem cfg header st u ≠ some (.error e, r)

/-- Every value of the body that is for a column kept can be bound. -/
def BindsValues (cfg : Config σ) (container : Option Container) (s : Scanner σ) : Prop :=
  ∀ header loop columns given st t u value r,
    InLoop cfg container s header loop columns given st t →
    loopToken cfg t = some (.ok .value, u) → packetItem cfg header st u = some (.ok value, r) →
    header.getD st.columnIndex none ≠ none → value.Writable cfg.props

/-- The tables with a loop of the columns given, and the packets of the values given in them. -/
structure Stored (icu : Icu) (container : Container) (columns : List (Nat × UStr)) (n : Nat)
    (given : List Value) (before after : Tables) : Prop where
  loop : ∃ loopNum, (∀ row ∈ before.loop, Tables.loopKey row ≠ (container.id, loopNum))
    ∧ after.loop = before.loop ++ (if columns = [] then [] else
      [⟨container.id, loopNum, none, given.length / n⟩])
    ∧ after.loopItem = before.loopItem
      ++ columns.map fun column => ⟨container.id, icu.normalize column.2, column.2, loopNum⟩
  values : after.itemValue = before.itemValue ++ storedRows icu container.id columns n given

/-- A loop with the header `names` parses, and its columns are stored as they are wanted: the first
of their names that the container does not have, with the values at their places in the packets. -/
def StoresColumns (cfg : Config σ) (container : Container) (names : List UStr) (s : Scanner σ) :
    Prop :=
  ∃ t given, parseLoop cfg (some container) s = some (.ok (), t)
    ∧ GivesValues cfg (some container) s given
    ∧ (given.length % names.length = 0 → Stored cfg.icu container
      (newColumns cfg.icu (Cif.itemKeys container s.world.cif.tables) 0 names) names.length given
      s.world.cif.tables t.world.cif.tables)

theorem openPackets_spec (hdistinct : cfg.icu.Distinct (header.filterMap id)) :
    Halts (openPackets cfg header) s (fun p t =>
      Packet.create cfg.icu (header.filterMap id) = .ok p.1
      ∧ p.2 = columnsFrom 0 header ∧ (calm False).step s t) fun _ _ => False := by
  have hcreate := Packet.create_eq hdistinct
  rw [Halts, openPackets, post_bind, storeCall, post_update]
  dsimp only
  rw [hcreate, ofResult, post_bind, post_pure, post_bind]
  rw [packetColumns_eq hdistinct (by rw [List.map_map]; rfl)]
  exact ⟨rfl, rfl, rfl, rfl⟩

/-- The end of the body, after packets that are all complete or not. -/
theorem endLoopBody_spec (hcfg : Heedless cfg)
    (hcreated : Created cfg.icu container (header.filterMap id) tables loop)
    (hdistinct : cfg.icu.Distinct (header.filterMap id)) (hfilled : Filled cfg.icu header given st)
    (h : Recorded cfg.icu container header tables cif loop given s)
    (hunk : Value.unk.Writable cfg.props)
    (hwritable : ∀ item ∈ st.packet, item.2.2.Writable cfg.props) :
    Halts (endLoopBody cfg loop (header.filterMap id) (columnsFrom 0 header) st) s
      (fun _ t => t.skipDepth = 0 ∧ (given.length % header.length = 0 →
        Recorded cfg.icu container header tables cif loop given t)) fun _ _ => False := by
  rw [Halts, endLoopBody, post_ite]
  constructor
  · intro hbegun
    rw [post_bind]
    refine ((calm_reportBefore hcfg (P := False) _ s).and
      (inertCalls.stores.keeps_reportBefore (by decide) s)).imp ?_ fun _ _ hh => hh.1
    rintro _ t ⟨ht, -⟩
    obtain ⟨hskip, packets, hcif, _⟩ := h.calm ht
    obtain ⟨hkeys, _⟩ := fillPacket_spec cfg header (header.filterMap id) st.packet st.columnIndex
    rw [post_bind]
    refine (endPacket_spec hcfg hskip hcreated hdistinct (hkeys.trans hfilled.keys) hcif
      fun _ => writable_fillPacket hunk hwritable _ _ _).imp ?_ fun _ _ hh => hh
    rintro p u ⟨_, hskip', _⟩
    exact ⟨hskip', fun hwhole => absurd (hfilled.columnIndex_eq.trans hwhole) hbegun⟩
  · intro _
    rw [post_ite]
    refine ⟨fun _ => ?_, fun _ => ⟨h.skip, fun _ => h⟩⟩
    refine ((calm_reportToken hcfg (P := False) _ s).and
      (inertCalls.stores.keeps_reportToken (by decide) s)).imp ?_ fun _ _ hh => hh.1
    rintro _ t ⟨ht, -⟩
    exact ⟨ht.2.trans h.skip, fun _ => h.calm ht⟩

/-- Where a round of the body stops. -/
theorem error_of_round {e : Int} (hcfg : Heedless cfg)
    (hrun : parseLoopToken cfg loop header columns st s = some (.error e, t)) :
    (∃ u, loopToken cfg s = some (.ok .value, u)
      ∧ ((∃ r, packetItem cfg header st u = some (.error e, r))
        ∨ ∃ value r, packetItem cfg header st u = some (.ok value, r)
          ∧ putValue cfg loop header columns st value r = some (.error e, t)))
      ∨ ∃ u, loopToken cfg s = some (.ok .finish, u)
        ∧ endLoopBody cfg loop (header.filterMap id) columns st u = some (.error e, t) := by
  rw [parseLoopToken_eq] at hrun
  rcases bind_eq_error.mp hrun with hstop | ⟨token, u, htoken, hrest⟩
  · exact ((calm_loopToken hcfg (P := False) s).of_error hstop).elim
  cases token with
  | value =>
    left
    refine ⟨u, htoken, ?_⟩
    dsimp only at hrest
    rw [← bind_pure_comp, parsePacketValue_eq] at hrest
    rcases bind_eq_error.mp hrest with hstop | ⟨_, _, _, hne⟩
    · rcases bind_eq_error.mp hstop with hitem | ⟨value, r, hitem, hput⟩
      · exact .inl ⟨t, hitem⟩
      · exact .inr ⟨value, r, hitem, hput⟩
    · cases hne
  | dropped => cases hrest
  | finish =>
    right
    refine ⟨u, htoken, ?_⟩
    dsimp only at hrest
    rw [← bind_pure_comp] at hrest
    rcases bind_eq_error.mp hrest with hstop | ⟨_, _, _, hne⟩
    · exact hstop
    · cases hne

/-- The states of a body are those that its rounds reach. -/
theorem InBody.reached (h : InBody cfg loop header columns packet s₀ given st s) :
    Reached (parseLoopToken cfg loop header columns) { packet := packet } s₀ st s := by
  induction h with
  | start => exact .refl
  | dropped _ htoken ih =>
    refine .next ih ?_
    rw [parseLoopToken_eq, bind_apply, htoken]
    rfl
  | @value given st st' s s₁ s₂ t value _ htoken hitem hput ih =>
    refine .next ih ?_
    have hvalue : parsePacketValue cfg loop header columns st s₁ = some (.ok st', t) := by
      rw [parsePacketValue_eq]
      exact Exec.bind_eq_ok.mpr ⟨value, s₂, hitem, hput⟩
    rw [parseLoopToken_eq, bind_apply, htoken]
    exact map_eq_ok.mpr ⟨_, hvalue, rfl⟩

/-- What the values of a body are put into can be recorded, if they can be bound. -/
theorem InBody.writable (hcfg : Heedless cfg) (hunk : Value.unk.Writable cfg.props)
    (hdistinct : cfg.icu.Distinct (header.filterMap id))
    (hcreate : Packet.create cfg.icu (header.filterMap id) = .ok packet)
    (hvalues : ∀ given st t u value r,
      InBody cfg loop header (columnsFrom 0 header) packet s₀ given st t →
      loopToken cfg t = some (.ok .value, u) → packetItem cfg header st u = some (.ok value, r) →
      header.getD st.columnIndex none ≠ none → value.Writable cfg.props)
    (hbody : InBody cfg loop header (columnsFrom 0 header) packet s₀ given st s) :
    ∀ item ∈ st.packet, item.2.2.Writable cfg.props := by
  have hhandler : LeavesPackets cfg := hcfg.leavesPackets
  induction hbody with
  | start =>
    intro item hitem
    cases (Packet.create_eq hdistinct).symm.trans hcreate
    obtain ⟨name, -, rfl⟩ := List.mem_map.mp hitem
    exact hunk
  | dropped _ _ ih => exact ih
  | @value given st st' s s₁ s₂ t value hbefore htoken hitem hput ih =>
    have hwritable := writable_put ih (hvalues given st s s₁ value s₂ hbefore htoken hitem)
    rw [putValue] at hput
    split at hput
    · obtain ⟨packet', r, hend, hst⟩ := Exec.bind_eq_ok.mp hput
      cases hst
      cases endPacket_packet hhandler hend
      exact hwritable
    · cases hput
      exact hwritable

/-- A body that comes to its end has bound what it had still to record. -/
theorem writable_of_rounds (hcfg : Heedless cfg)
    (hcreated : Created cfg.icu container (header.filterMap id) tables loop)
    (hdistinct : cfg.icu.Distinct (header.filterMap id)) (hne : header ≠ [])
    (hcreate : Packet.create cfg.icu (header.filterMap id) = .ok packet)
    (h₀ : Recorded cfg.icu container header tables cif loop [] s₀) {k : Nat}
    (hbody : InBody cfg loop header (columnsFrom 0 header) packet s₀ given st s)
    (hrun : rounds (parseLoopToken cfg loop header (columnsFrom 0 header)) k st s
      = some (.ok (), t)) :
    (∀ i < st.columnIndex, header.getD i none ≠ none →
      ((Rows.cell header.length given i).getD .unk).Writable cfg.props)
      ∧ ∀ u value r, loopToken cfg s = some (.ok .value, u) →
        packetItem cfg header st u = some (.ok value, r) →
        header.getD st.columnIndex none ≠ none → value.Writable cfg.props := by
  -- a column that is kept has a loop to be recorded in
  have hkept : ∀ i, header.getD i none ≠ none → (∃ l, loop = some l)
      ∧ i < header.length ∧ ∃ j, (columnsFrom 0 header)[i]? = some (some j) := by
    intro i hi
    rw [List.getD_eq_getElem?_getD] at hi
    cases hname : header[i]? with
    | none => exact absurd (by rw [hname]; rfl) hi
    | some name =>
      rw [hname, Option.getD_some] at hi
      obtain ⟨name, rfl⟩ := Option.ne_none_iff_exists'.mp hi
      refine ⟨Option.ne_none_iff_exists'.mp fun hnone => ?_, (List.getElem?_eq_some_iff.mp hname).1,
        _, columnsFrom_getElem?.mpr ⟨name, hname, rfl⟩⟩
      have hmem : name ∈ header.filterMap id :=
        List.mem_filterMap.mpr ⟨_, List.mem_of_getElem? hname, rfl⟩
      rw [hcreated.none_iff.mp hnone] at hmem
      exact List.not_mem_nil hmem
  induction k generalizing given st s with
  | zero => cases hrun
  | succ k ih =>
    have hfilled := filled_inBody hdistinct hcfg.leavesPackets hne hcreate hbody
    have hrecorded := hbody.recorded hcfg hcreated hdistinct hne hcreate h₀
    rw [rounds_succ] at hrun
    obtain ⟨round, s', hround, hrest⟩ := Exec.bind_eq_ok.mp hrun
    rw [parseLoopToken_eq] at hround
    obtain ⟨token, s₁, htoken, hround⟩ := Exec.bind_eq_ok.mp hround
    have h₁ := hrecorded.calm ((calm_loopToken (P := False) hcfg _).of_ok htoken)
    cases token with
    | dropped =>
      cases hround
      refine ⟨(ih (hbody.dropped htoken) hrest).1, fun _ _ _ hvalue => ?_⟩
      cases htoken.symm.trans hvalue
    | finish =>
      refine ⟨fun i hi hname => ?_, fun _ _ _ hvalue => ?_⟩
      · obtain ⟨⟨l, rfl⟩, -, j, hj⟩ := hkept i hname
        obtain ⟨_, hend, -⟩ := map_eq_ok.mp hround
        rw [endLoopBody, if_pos (Nat.ne_of_gt (Nat.zero_lt_of_lt hi))] at hend
        obtain ⟨_, s₂, hreport, hend⟩ := Exec.bind_eq_ok.mp hend
        obtain ⟨_, s₃, hend, -⟩ := Exec.bind_eq_ok.mp hend
        have h₂ := h₁.calm ((calm_reportBefore (P := False) hcfg _ s₁).of_ok hreport)
        have hcell :=
          (fillPacket_spec cfg header (header.filterMap id) st.packet st.columnIndex).2 hj
          (hfilled.cells hj)
        rw [if_neg fun hle => Nat.not_le_of_lt hi hle.1] at hcell
        obtain ⟨item, hitem, heq⟩ := Option.map_eq_some_iff.mp hcell
        exact heq ▸ writable_of_endPacket hcfg h₂.skip hend item (List.mem_of_getElem? hitem)
      · cases htoken.symm.trans hvalue
    | value =>
      obtain ⟨st', hput, rfl⟩ := map_eq_ok.mp hround
      rw [parsePacketValue_eq] at hput
      obtain ⟨value, s₂, hitem, hput⟩ := Exec.bind_eq_ok.mp hput
      have h₂ := h₁.calm ((calm_packetItem hcfg h₁.skip).of_ok hitem)
      have hcells : ∀ i < st.columnIndex + 1, header.getD i none ≠ none →
          ((Rows.cell header.length (given ++ [value]) i).getD .unk).Writable cfg.props := by
        intro i hi hname
        have hput' := hput
        rw [putValue] at hput'
        split at hput'
        · obtain ⟨⟨l, rfl⟩, -, j, hj⟩ := hkept i hname
          obtain ⟨_, s₃, hend, -⟩ := Exec.bind_eq_ok.mp hput'
          obtain ⟨item, hmem, heq⟩ := Option.map_eq_some_iff.mp ((hfilled.put_packet value).2 hj)
          exact heq ▸ writable_of_endPacket hcfg h₂.skip hend item (List.mem_of_getElem? hmem)
        · rename_i hmore
          cases hput'
          refine (ih (hbody.value htoken hitem hput) hrest).1 i ?_ hname
          have hlt := Nat.mod_lt given.length (List.length_pos_iff.mpr hne)
          rw [← hfilled.columnIndex_eq] at hlt
          rcases Nat.lt_or_eq_of_le (Nat.succ_le_of_lt hlt) with hnext | hlast
          · exact (Nat.mod_eq_of_lt hnext).symm ▸ hi
          · exact absurd (hlast ▸ Nat.mod_self _) hmore
      refine ⟨fun i hi hname => ?_, ?_⟩
      · have hcell := hcells i (Nat.lt_succ_of_lt hi) hname
        rwa [Rows.cell_concat (hkept i hname).2.1, ← hfilled.columnIndex_eq,
          if_neg (Nat.ne_of_lt hi)] at hcell
      · intro u value' r htoken' hitem' hname
        cases htoken.symm.trans htoken'
        cases hitem.symm.trans hitem'
        have hcell := hcells _ (Nat.lt_succ_self _) hname
        rwa [Rows.cell_concat (hkept _ hname).2.1, ← hfilled.columnIndex_eq, if_pos rfl] at hcell

/-- The run of the body, where its values can be read and bound. -/
theorem loopBody_spec (hcfg : Heedless cfg) (hlegal : cfg.Legal)
    (hunk : Value.unk.Writable cfg.props)
    (hcreated : Created cfg.icu container (header.filterMap id) tables loop)
    (hdistinct : cfg.icu.Distinct (header.filterMap id)) (hne : header ≠ [])
    (hcreate : Packet.create cfg.icu (header.filterMap id) = .ok packet)
    (h₀ : Recorded cfg.icu container header tables cif loop [] s₃) (hready : Ready cfg w s₃)
    (hin : ∀ given st u, InBody cfg loop header (columnsFrom 0 header) packet s₃ given st u →
      InLoop cfg (some container) s header loop (columnsFrom 0 header) given st u)
    (hreads : ReadsValues cfg (some container) s) (hbinds : BindsValues cfg (some container) s) :
    Halts (Exec.loop tokenBound (parseLoopToken cfg loop header (columnsFrom 0 header))
      { packet := packet }) s₃
      (fun _ t => t.skipDepth = 0 ∧ ∃ given, GivesValues cfg (some container) s given
        ∧ (given.length % header.length = 0 →
          Recorded cfg.icu container header tables cif loop given t))
      fun _ _ => False := by
  refine Post.imp (halts_tokenLoop (I := fun st u =>
    ∃ given, InBody cfg loop header (columnsFrom 0 header) packet s₃ given st u) hready ⟨[],
    .start⟩ ?_)
    (fun _ _ h => h.1) fun _ _ he => he
  rintro st w' u - hready' ⟨given, hbody⟩
  have hfilled := filled_inBody hdistinct hcfg.leavesPackets hne hcreate hbody
  have hrecorded := hbody.recorded hcfg hcreated hdistinct hne hcreate h₀
  have hwritable : ∀ item ∈ st.packet, item.2.2.Writable cfg.props :=
    hbody.writable hcfg hunk hdistinct hcreate fun given st t u value r hbody =>
      hbinds header loop _ given st t u value r (hin given st t hbody)
  have htoken : ∀ {token : LoopToken} {v : Scanner σ}, loopToken cfg u = some (.ok token, v) →
      Recorded cfg.icu container header tables cif loop given v := fun htoken =>
    hrecorded.calm ((calm_loopToken (P := False) hcfg u).of_ok htoken)
  have hitem : ∀ {value : Value} {v r : Scanner σ}, loopToken cfg u = some (.ok .value, v) →
      packetItem cfg header st v = some (.ok value, r) →
        Recorded cfg.icu container header tables cif loop given r := by
    intro value v r hvalue hitem
    exact (htoken hvalue).calm ((calm_packetItem hcfg (htoken hvalue).skip).of_ok hitem)
  have hput : ∀ {value : Value} {v r : Scanner σ}, loopToken cfg u = some (.ok .value, v) →
      packetItem cfg header st v = some (.ok value, r) →
      Halts (putValue cfg loop header (columnsFrom 0 header) st value) r (fun _ t => SameToken r t)
        fun _ _ => False := by
    intro value v r hvalue hread
    have hwritable := writable_put hwritable
      (hbinds header loop _ given st u v value r (hin given st u hbody) hvalue hread)
    rw [putValue, Halts, post_ite]
    refine ⟨fun hlast => ?_, fun _ => inert.refl r⟩
    rw [post_bind]
    exact (((inertRecording (.inl trivial)).keeps_endPacket _ _ r).and
      ((hitem hvalue hread).endPacket hcfg
      hcreated hdistinct hne hfilled hlast fun _ => hwritable)).imp (fun _ _ h => h.1) fun _ _ h =>
        h.2
  have hend : ∀ {v : Scanner σ}, loopToken cfg u = some (.ok .finish, v) →
      Halts (endLoopBody cfg loop (header.filterMap id) (columnsFrom 0 header) st) v (fun _ t =>
        SameToken v t
        ∧ t.skipDepth = 0 ∧ (given.length % header.length = 0 →
          Recorded cfg.icu container header tables cif loop given t)) fun _ _ => False := by
    intro v hfinish
    exact (((inertRecording (.inl trivial)).keeps_endLoopBody _ _ _ _ v).and
      (endLoopBody_spec hcfg hcreated
      hdistinct hfilled (htoken hfinish) hunk hwritable)).imp (fun _ _ h => h) fun _ _ h => h.2
  have hround : Ensures (parseLoopToken cfg loop header (columnsFrom 0 header) st) u (Round
      (fun st' u' => ∃ given, InBody cfg loop header (columnsFrom 0 header) packet s₃ given st' u')
      (fun _ t => t.skipDepth = 0 ∧ ∃ given, GivesValues cfg (some container) s given
        ∧ (given.length % header.length = 0 →
          Recorded cfg.icu container header tables cif loop given t)))
      fun _ _ => False := by
    refine ensures_iff.mpr ⟨fun r t hround => ?_, fun e t hround => ?_⟩
    · cases r with
      | inl st' => exact hbody.round hround
      | inr =>
        obtain ⟨v, hfinish, hended⟩ := finish_of_round hround
        obtain ⟨-, hskip, hwhole⟩ := (hend hfinish).of_ok hended
        exact ⟨hskip, given, ⟨header, loop, _, st, u, v, hin given st u hbody, hfinish⟩, hwhole⟩
    · rcases error_of_round hcfg hround with ⟨v, hvalue, ⟨r, hstop⟩ | ⟨value, r, hread, hstop⟩⟩
        | ⟨v, hfinish, hstop⟩
      · exact hreads header loop _ given st u v (hin given st u hbody) hvalue e r hstop
      · exact (hput hvalue hread).of_error hstop
      · exact (hend hfinish).of_error hstop
  have hreturns := returns_parseLoopToken hlegal hready'
    (fun v value r hvalue hread => (hput hvalue hread).imp (fun _ _ h => h) fun _ _ _ => trivial)
    fun v hfinish => (hend hfinish).imp (fun _ _ h => h.1) fun _ _ _ => trivial
  refine (hround.and hreturns).imp ?_ fun _ _ he => he.1
  rintro (st' | x) u' h
  · exact h
  · exact h

/-- What a header that is read where nothing is skipped leaves as it was. -/
theorem ReadsHeader.opened (hcfg : Heedless cfg) (hskip : s.skipDepth = 0)
    (hwf : s.world.cif.tables.WellFormed cfg.icu bounded) (hne : names ≠ [])
    (h : ReadsHeader cfg (some container) (openLoop s) names header t) :
    header = names.map (keptName cfg.icu container s.world.cif.tables) ∧ header ≠ []
      ∧ t.skipDepth = 0 ∧ t.world.cif = s.world.cif := by
  have hopen : (openLoop s).skipDepth = 0 := by
    rw [openLoop, deepenSkip, push, hskip]
    rfl
  obtain ⟨hkept, hcif, hskip'⟩ :=
    h.kept hcfg (show (openLoop s).world.cif.tables.WellFormed cfg.icu bounded from hwf)
  refine ⟨hkept, ?_, hskip'.trans hopen, hcif⟩
  rintro rfl
  exact hne (List.map_eq_nil_iff.mp hkept.symm)

/-- The loop for the columns that are kept is started. -/
theorem startLoop_kept (hcfg : Heedless cfg) (hskip : s₁.skipDepth = 0)
    (hcif : s₁.world.cif = s.world.cif) (hwf : s.world.cif.tables.WellFormed cfg.icu bounded)
    {row : ContainerRow} (hrow : row ∈ s.world.cif.tables.container) (hid : row.id = container.id)
    (hkept : header = names.map (keptName cfg.icu container s.world.cif.tables))
    (hdistinct : cfg.icu.Distinct (header.filterMap id)) :
    Halts (startLoop cfg (some container) (header.filterMap id)) s₁
      (fun loop t => Created cfg.icu container (header.filterMap id) s.world.cif.tables loop
        ∧ t.skipDepth = 0 ∧ t.world.cif = { s.world.cif with
          tables := tablesWith cfg.icu (header.filterMap id) s.world.cif.tables [] loop })
      fun _ _ => False := by
  have hnew : ∀ name ∈ (header.filterMap id).map cfg.icu.normalize,
      name ∉ Cif.itemKeys container s₁.world.cif.tables := by
    intro name hname
    rw [hkept] at hname hdistinct
    rw [hcif]
    exact kept_new hdistinct hname
  have hwf₁ : s₁.world.cif.tables.WellFormed cfg.icu bounded := hcif ▸ hwf
  have hstart := startLoop_spec hcfg hskip hwf₁ (hcif.symm ▸ hrow) hid hdistinct hnew
  rwa [hcif] at hstart

/-- The run of the loop's contents, where its names can be told apart and its values be read and
bound. -/
theorem parseLoopContents_spec (hcfg : Heedless cfg) (hlegal : cfg.Legal)
    (hunk : Value.unk.Writable cfg.props) (hready : Ready cfg w s) (hskip : s.skipDepth = 0)
    (hwf : s.world.cif.tables.WellFormed cfg.icu bounded) {row : ContainerRow}
    (hrow : row ∈ s.world.cif.tables.container) (hid : row.id = container.id)
    (hheader : ReadsHeader cfg (some container) (openLoop s) names header s₁) (hne : names ≠ [])
    (hapart : TellsApart cfg.icu container s.world.cif.tables names)
    (hreads : ReadsValues cfg (some container) s) (hbinds : BindsValues cfg (some container) s) :
    Halts (parseLoopContents cfg (some container)) (openLoop s)
      (fun loop t => t.skipDepth = 0 ∧ ∃ given, GivesValues cfg (some container) s given
        ∧ Created cfg.icu container (header.filterMap id) s.world.cif.tables loop
        ∧ (given.length % header.length = 0 →
          Recorded cfg.icu container header s.world.cif.tables s.world.cif loop given t))
      fun _ _ => False := by
  have hready₀ : Ready cfg w (openLoop s) := hready.sameToken ⟨rfl, rfl, rfl⟩
  obtain ⟨hkept, hne', hskip₁, hcif₁⟩ := hheader.opened hcfg hskip hwf hne
  have hdistinct : cfg.icu.Distinct (header.filterMap id) := by
    rw [hkept]
    exact distinct_kept_iff.mpr hapart
  have hread : Ensures (parseLoopHeader cfg (some container)) (openLoop s) (fun h t => h = header
      ∧ t = s₁) fun _ _ => False := by
    refine ensures_iff.mpr ⟨fun h t hrun => ?_, fun e t hrun => ?_⟩
    · cases hheader.of_run hrun
      exact ⟨rfl, rfl⟩
    · cases hheader.of_run hrun
  rw [Halts, parseLoopContents, post_bind]
  refine (hread.and (returns_parseLoopHeader hlegal hready₀)).imp ?_ fun _ _ hh => hh.1
  rintro h t ⟨⟨rfl, rfl⟩, hready₁⟩
  rw [if_neg hne', post_bind]
  have hstart := startLoop_kept hcfg hskip₁ hcif₁ hwf hrow hid hkept hdistinct
  refine ((inertCalls.keeps_startLoop _ _ t).and hstart.run).imp ?_ fun _ _ hh => hh.2.2
  rintro loop s₂ ⟨hsame₂, hstarted, hcreated, hskip₂, hcif₂⟩
  rw [post_bind, parseLoopPackets_eq, post_bind]
  have hstores : ToleratesStore cfg True inert := inertCalls.stores
  have hsame : Ensures (openPackets cfg h) s₂ (fun _ u => SameToken s₂ u) fun _ _ => True :=
    Keeps.bind (hstores.keeps_store rfl _) (fun _ => .bind (hstores.keeps_ofResult _)
      fun _ => .bind (hstores.keeps_ofResult _) fun _ => .pure _) s₂
  refine (hsame.and (openPackets_spec hdistinct).run).imp ?_ fun _ _ hh => hh.2.2
  rintro ⟨packet, columns⟩ s₃ ⟨hsame₃, hopened, hcreate, hcolumns, hcalm₃⟩
  dsimp only at hcreate hcolumns ⊢
  subst hcolumns
  have h₀ : Recorded cfg.icu container h s.world.cif.tables s.world.cif loop [] s₃ :=
    recorded_nil (hcalm₃.2.trans hskip₂) (hcalm₃.1.trans hcif₂)
  refine (loopBody_spec hcfg hlegal hunk hcreated hdistinct hne' hcreate h₀
    ((hready₁.sameToken hsame₂).sameToken hsame₃)
    (fun given st u hbody => .intro hheader hstarted hopened hbody) hreads hbinds).imp ?_
      fun _ _ hh => hh
  rintro _ u ⟨hskip', given, hgives, hwhole⟩
  exact ⟨hskip', given, hgives, hcreated, hwhole⟩

/-- What a loop stores, by what its body has left. -/
theorem stored_of_recorded (hcreated : Created cfg.icu container (header.filterMap id) tables loop)
    (h : Recorded cfg.icu container header tables cif loop given s)
    (hwf : tables.WellFormed cfg.icu bounded) {row : ContainerRow} (hrow : row ∈ tables.container)
    (hid : row.id = container.id) :
    Stored cfg.icu container (keptColumns 0 header) header.length given tables
      s.world.cif.tables := by
  obtain ⟨_, packets, hcif, hlength, hvalues⟩ := h
  have hkept := map_keptColumns 0 header
  rw [hcif]
  cases loop with
  | none =>
    have hnil : keptColumns 0 header = [] := by
      rw [hcreated.none_iff.mp rfl] at hkept
      exact List.map_eq_nil_iff.mp hkept
    rw [hnil]
    refine ⟨⟨row.nextLoopNum, ?_, by simp [tablesWith], by simp [tablesWith]⟩,
      by simp [tablesWith, storedRows]⟩
    intro l hl hkey
    obtain ⟨hcid, hnum⟩ := Prod.mk.inj hkey
    obtain ⟨c, hc, hcid', hlt⟩ := hwf.numbered l hl
    have hsame : c = row := hwf.containers.eq hc hrow (by omega)
    subst hsame
    omega
  | some l =>
    obtain ⟨_, num, _⟩ := l
    cases hcreated.handle _ rfl
    have hsome : keptColumns 0 header ≠ [] := by
      intro hnil
      rw [hnil] at hkept
      exact nomatch hcreated.none_iff.mpr hkept.symm
    refine ⟨⟨num, hcreated.loops _ rfl, ?_, ?_⟩, ?_⟩
    · rw [if_neg hsome, ← hlength]
      rfl
    · rw [← hkept] at *
      simp [tablesWith, Cif.withLoop]
    · rw [← hvalues]
      rfl

/-- A body that has come to its end has had no value that stops it. -/
theorem readsValues_of_run (hread : parseLoopHeader cfg (some container) (openLoop s)
    = some (.ok header, s₁))
    (hstart : startLoop cfg (some container) (header.filterMap id) s₁ = some (.ok loop, s₂))
    (hrun : parseLoopPackets cfg loop header s₂ = some (.ok (), t)) :
    ReadsValues cfg (some container) s := by
  rintro header' loop' columns given st u v ⟨hheader', hstart', hopen', hbody⟩ htoken e r hitem
  cases hheader'.of_run hread
  cases hstart.symm.trans hstart'
  rw [parseLoopPackets_eq] at hrun
  obtain ⟨p, s₄, hopen, hrounds⟩ := Exec.bind_eq_ok.mp hrun
  cases hopen.symm.trans hopen'
  have hlast : rounds (parseLoopToken cfg loop header columns) 1 st u = some (.error e, r) := by
    have hvalue : parsePacketValue cfg loop header columns st v = some (.error e, r) := by
      rw [parsePacketValue_eq]
      exact bind_eq_error.mpr (.inl hitem)
    have hround : parseLoopToken cfg loop header columns st u = some (.error e, r) := by
      rw [parseLoopToken_eq, bind_apply, htoken]
      dsimp only
      rw [← bind_pure_comp]
      exact bind_eq_error.mpr (.inl hvalue)
    rw [rounds_succ, bind_apply, hround]
  cases hbody.reached.loop_eq hlast hrounds

/-- A body that has come to its end has bound what it has recorded. -/
theorem bindsValues_of_run (hcfg : Heedless cfg)
    (hread : parseLoopHeader cfg (some container) (openLoop s) = some (.ok header, s₁))
    (hcreated : Created cfg.icu container (header.filterMap id) tables loop)
    (hdistinct : cfg.icu.Distinct (header.filterMap id)) (hne : header ≠ [])
    (hstart : startLoop cfg (some container) (header.filterMap id) s₁ = some (.ok loop, s₂))
    (h₀ : ∀ r u, openPackets cfg header s₂ = some (.ok r, u) →
      Recorded cfg.icu container header tables cif loop [] u)
    (hrun : parseLoopPackets cfg loop header s₂ = some (.ok (), t)) :
    BindsValues cfg (some container) s := by
  rintro header' loop' columns given st u v value r ⟨hheader', hstart', hopen', hbody⟩ htoken hitem
    hname
  cases hheader'.of_run hread
  cases hstart.symm.trans hstart'
  rw [parseLoopPackets_eq] at hrun
  obtain ⟨p, s₄, hopen, hrounds⟩ := Exec.bind_eq_ok.mp hrun
  cases hopen.symm.trans hopen'
  obtain ⟨hcreate, hcolumns⟩ := openPackets_eq hopen
  cases hcolumns hdistinct
  obtain ⟨k, hk⟩ := hbody.reached.exists_rounds
  have hmore := rounds_add hrounds k
  rw [Nat.add_comm, hk] at hmore
  exact (writable_of_rounds hcfg hcreated hdistinct hne hcreate (h₀ _ _ hopen) hbody hmore).2 v
    value r htoken hitem hname

/-- A loop is stored with the columns wanted if and only if its names can be told apart, and its
values be read and those of the columns kept be bound. -/
theorem storesColumns_iff {platform : Platform} (hprops : cfg.props = Value.setValueProps platform)
    (hcfg : Heedless cfg) (hlegal : cfg.Legal) (hready : Ready cfg w s) (hskip : s.skipDepth = 0)
    (hwf : s.world.cif.tables.WellFormed cfg.icu bounded) {row : ContainerRow}
    (hrow : row ∈ s.world.cif.tables.container) (hid : row.id = container.id)
    (hheader : ReadsHeader cfg (some container) (openLoop s) names header s₁) (hne : names ≠ []) :
    StoresColumns cfg container names s
      ↔ TellsApart cfg.icu container s.world.cif.tables names ∧ ReadsValues cfg (some container) s
        ∧ BindsValues cfg (some container) s := by
  obtain ⟨hkept, hne', hskip₁, hcif₁⟩ := hheader.opened hcfg hskip hwf hne
  have hlength : header.length = names.length := by
    rw [hkept, List.length_map]
  constructor
  · rintro ⟨t, given, hrun, -, -⟩
    have hcontents : Ensures (parseLoopContents cfg (some container)) (openLoop s) (fun _ _ =>
        TellsApart cfg.icu container s.world.cif.tables names ∧ ReadsValues cfg (some container) s
          ∧ BindsValues cfg (some container) s) fun _ _ => True := by
      refine ensures_iff.mpr ⟨fun o u hok => ?_, fun _ _ _ => trivial⟩
      obtain ⟨h, s₁', hread, hrest⟩ := Exec.bind_eq_ok.mp hok
      cases hheader.of_run hread
      rw [if_neg hne'] at hrest
      obtain ⟨loop, s₂, hstart, hrest⟩ := Exec.bind_eq_ok.mp hrest
      obtain ⟨_, s₃, hpackets, _⟩ := Exec.bind_eq_ok.mp hrest
      have hdistinct := distinct_of_startLoop hcfg hskip₁ hstart
      obtain ⟨hcreated, hskip₂, hcif₂⟩ :=
        (startLoop_kept hcfg hskip₁ hcif₁ hwf hrow hid hkept hdistinct).of_ok hstart
      have h₀ : ∀ r u, openPackets cfg header s₂ = some (.ok r, u) →
          Recorded cfg.icu container header s.world.cif.tables s.world.cif loop [] u := by
        intro r u hopened
        obtain ⟨-, -, hcalm₃⟩ := (openPackets_spec hdistinct).of_ok hopened
        exact recorded_nil (hcalm₃.2.trans hskip₂) (hcalm₃.1.trans hcif₂)
      exact ⟨distinct_kept_iff.mp (hkept ▸ hdistinct), readsValues_of_run hread hstart hpackets,
        bindsValues_of_run hcfg hread hcreated hdistinct hne' hstart h₀ hpackets⟩
    have hens : Ensures (parseLoop cfg (some container)) s (fun _ _ =>
        TellsApart cfg.icu container s.world.cif.tables names ∧ ReadsValues cfg (some container) s
          ∧ BindsValues cfg (some container) s) fun _ _ => True := by
      rw [Ensures, parseLoop, inEntity, post_bind, mark, post_modify, post_bind, post_bind,
        post_modify, post_bind, post_onStop]
      refine hcontents.imp (fun loop u hu => ?_) fun _ _ _ => trivial
      exact ensures_iff.mpr ⟨fun _ _ _ => hu, fun _ _ _ => trivial⟩
    exact hens.of_ok hrun
  · rintro ⟨hapart, hreads, hbinds⟩
    have hunk : Value.unk.Writable cfg.props := by
      rw [hprops]
      exact ⟨_, rfl, rfl⟩
    have hcontents :=
      parseLoopContents_spec hcfg hlegal hunk hready hskip hwf hrow hid hheader hne hapart hreads
      hbinds
    have hloop : Halts (parseLoop cfg (some container)) s (fun _ t => ∃ given,
        GivesValues cfg (some container) s given
        ∧ (given.length % names.length = 0 → Stored cfg.icu container
          (newColumns cfg.icu (Cif.itemKeys container s.world.cif.tables) 0 names) names.length
            given s.world.cif.tables t.world.cif.tables)) fun _ _ => False := by
      rw [Halts, parseLoop, inEntity, post_bind, mark, post_modify, post_bind, post_bind,
        post_modify, post_bind, post_onStop]
      refine hcontents.imp ?_ fun _ _ hh => hh
      rintro loop u ⟨hskip', given, hgives, hcreated, hwhole⟩
      have hend : Halts (endLoop cfg loop) u (fun _ v => v.world.cif = u.world.cif) fun _ _ =>
          False := by
        rw [Halts, endLoop, post_bind, post_read, if_neg (Nat.not_lt.mpr (Nat.le_of_eq hskip')),
          post_bind, handlerCallback, post_update]
        obtain ⟨hcode, _, hcif⟩ := hcfg.handler (.loopEnd loop) u.world
        dsimp only
        rw [if_neg (by rw [hcode]; decide), if_neg (by rw [hcode]; decide),
          if_neg (fun hne => hne hcode)]
        exact hcif
      refine hend.imp (fun _ v hv => ?_) fun _ _ hh => hh
      refine ⟨given, hgives, fun hmod => ?_⟩
      have hstored := stored_of_recorded hcreated (hwhole (hlength ▸ hmod)) hwf hrow hid
      rw [newColumns_eq hapart, ← hkept, ← hlength]
      change Stored _ _ _ _ _ _ v.world.cif.tables
      rw [hv]
      exact hstored
    obtain ⟨⟨r, t⟩, hrun⟩ := Halts.exists hloop
    cases r with
    | ok u =>
      obtain ⟨given, hgives, hstored⟩ := hloop.of_ok hrun
      exact ⟨t, given, hrun, hgives, hstored⟩
    | error e => exact (hloop.of_error hrun).elim

end Run

section Sample

/-- The names of a header, found by reading it. -/
def headerNames (cfg : Config σ) (container : Option Container) :
    Nat → List UStr → List (Option UStr) → Scanner σ →
    Option (List UStr × List (Option UStr) × Scanner σ)
  | 0, _, _, _ => none
  | fuel + 1, names, header, s =>
    match headerToken cfg s with
    | some (.ok none, t) => some (names, header, t)
    | some (.ok (some name), s₁) =>
      match keepName cfg container header name s₁ with
      | some (.ok header', t) => headerNames cfg container fuel (names ++ [name]) header' t
      | _ => none
    | _ => none

theorem readsHeader_headerNames {fuel : Nat} {c : Option Container} {names' : List UStr}
    {header' : List (Option UStr)} (h : InHeader cfg c s₀ names header s)
    (hrun : headerNames cfg c fuel names header s = some (names', header', t)) :
    ReadsHeader cfg c s₀ names' header' t := by
  induction fuel generalizing names header s with
  | zero => cases hrun
  | succ fuel ih =>
    rw [headerNames] at hrun
    split at hrun
    · rename_i hend
      cases hrun
      exact ⟨h, hend⟩
    · rename_i htoken
      split at hrun
      · rename_i hkeep
        exact ih (h.name htoken hkeep) hrun
      · cases hrun
    · cases hrun

theorem exists_readsHeader {fuel : Nat} {c : Option Container} (names : List UStr)
    (h : (headerNames cfg c fuel [] [] s).any (fun r => r.1 = names) = true) :
    ∃ header t, ReadsHeader cfg c s names header t := by
  cases hrun : headerNames cfg c fuel [] [] s with
  | none =>
    rw [hrun] at h
    cases h
  | some r =>
    obtain ⟨found, header, t⟩ := r
    rw [hrun, Option.any_some, decide_eq_true_eq] at h
    subst h
    exact ⟨header, t, readsHeader_headerNames .start hrun⟩

theorem sampleConfig_heedless : Heedless sampleConfig where
  error := fun _ _ => ⟨rfl, rfl⟩
  handler := fun _ _ => ⟨rfl, rfl, rfl⟩
  element := fun _ _ => rfl

/-- A block with the item `_a`. -/
def sampleItems : Cif := (sampleCif.createLoop .ascii sampleBlock none [units "_a"]).2

def sampleLoopText (text : String) : Scanner Unit := Scanner.initial [units text] ⟨(), sampleItems⟩

theorem sampleItems_wellFormed : sampleItems.tables.WellFormed .ascii True := by
  have hempty : (Tables.WellFormed .ascii True ({} : Cif).tables) := by constructor <;> simp [Keyed]
  have hblock := (Cif.createBlockInternal_follows hempty (units "x") false).wellFormed
  exact (Cif.createLoop_follows hblock sampleBlock none [units "_a"]).wellFormed

/-- The first column duplicates an item. -/
theorem storesColumns_iff_sample :
    StoresColumns sampleConfig sampleBlock [units "_a", units "_b"]
      (sampleLoopText " _a _b 1 2 3 4")
    ↔ TellsApart sampleConfig.icu sampleBlock sampleItems.tables [units "_a", units "_b"]
      ∧ ReadsValues sampleConfig (some sampleBlock) (sampleLoopText " _a _b 1 2 3 4")
      ∧ BindsValues sampleConfig (some sampleBlock) (sampleLoopText " _a _b 1 2 3 4") := by
  obtain ⟨header, t, hheader⟩ :=
    @exists_readsHeader _ sampleConfig (openLoop (sampleLoopText " _a _b 1 2 3 4")) 9
    (some sampleBlock)
    [units "_a", units "_b"] (by decide +kernel)
  have hready : Ready sampleConfig (work 2 .end_ (sampleLoopText " _a _b 1 2 3 4").toBuffer)
      (sampleLoopText " _a _b 1 2 3 4") := by
    refine ⟨?_, Nat.le_refl _⟩
    constructor <;> simp [sampleLoopText, Scanner.initial, Buffer.initial]
  have hrow : (⟨1, 1⟩ : ContainerRow) ∈ sampleItems.tables.container := by
    have hrows : sampleItems.tables.container = [⟨1, 1⟩] := by rfl
    rw [hrows]
    exact List.mem_singleton_self _
  have hprops : sampleConfig.props = Value.setValueProps .exact := rfl
  exact storesColumns_iff hprops sampleConfig_heedless (legal_of_two_le (by decide)) hready rfl
    sampleItems_wellFormed hrow
    rfl hheader (by decide)

/-- A name that the header repeats ends the parse. -/
theorem not_storesColumns_repeated : (∃ header t, ReadsHeader sampleConfig (some sampleBlock)
      (openLoop (sampleLoopText " _b _b 1 2")) [units "_b", units "_b"] header t)
    ∧ ¬ StoresColumns sampleConfig sampleBlock [units "_b", units "_b"]
    (sampleLoopText " _b _b 1 2") := by
  refine ⟨@exists_readsHeader _ _ _ 9 _ _ (by decide +kernel), ?_⟩
  rintro ⟨t, given, hrun, -, -⟩
  have hstops : (parseLoop sampleConfig (some sampleBlock) (sampleLoopText " _b _b 1 2")).map
      (fun r => r.1.toBool)
      = some false := by decide +kernel
  rw [hrun] at hstops
  cases hstops

end Sample

end CifApi
